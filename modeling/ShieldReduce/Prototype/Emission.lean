import ShieldReduce.Prototype.Restore
import ShieldReduce.Prototype.Expand

/-!
# What a restore sends

One chunk for each fingerprint of the recipe, in its order, however the recipe arrives and wherever
the containers lie.
-/

namespace ShieldReduce.Prototype
open Lib Store EDelta

section Expected
variable (env : EnclaveEnv) (index : Table Fp RecipeEntry) (load : ContainerName → Bytes)

/-- The chunk of an entry that is stored whole. -/
def expandEntry (e : RecipeEntry) : Bytes :=
  RecoverOneChunk env (getChunkIV (load e.containerName) e)
    (getChunkContent (load e.containerName) e)

/-- The chunk of an entry, a delta being decoded against the base it names. -/
def chunkOf (e : RecipeEntry) : Option Bytes :=
  if e.deltaFlag = DELTA then
    (index.lookup e.basechunkHash).map fun base =>
      EDeltaDecode (env.DecryptionWithKeyIV (getChunkIV (load e.containerName) e)
        (getChunkContent (load e.containerName) e)) (expandEntry env load base)
  else some (expandEntry env load e)

/-- The chunk of a fingerprint; `none` when it or its base is not in the index. -/
def restored (fp : Fp) : Option Bytes :=
  (index.lookup (env.IndexAESCMCEnc fp)).bind (chunkOf env index load)

end Expected

section Collect
variable {index : Table Fp RecipeEntry}

/-- The bases of a list of entries, in the order in which their deltas come. -/
def basesOf (index : Table Fp RecipeEntry) (es : List RecipeEntry) : List (Option RecipeEntry) :=
  (es.filter fun e => e.deltaFlag = DELTA).map fun e => index.lookup e.basechunkHash

theorem basesOf_append (es es' : List RecipeEntry) :
    basesOf index (es ++ es') = basesOf index es ++ basesOf index es' := by
  unfold basesOf
  rw [List.filter_append, List.map_append]

/-- `r` says where `e` is, in the containers numbered by `idBuffer`. -/
structure Refers (idBuffer : List ContainerName) (e : RecipeEntry) (r : EnclaveRecipeEntry) :
    Prop where
  container : idBuffer[r.containerID]? = some e.containerName
  offset : r.offset = e.offset
  length : r.length = e.length
  flag : r.deltaFlag = e.deltaFlag

theorem Refers.mono {idBuffer more : List ContainerName} {e : RecipeEntry} {r : EnclaveRecipeEntry}
    (h : Refers idBuffer e r) : Refers (idBuffer ++ more) e r := by
  have hlt := (List.getElem?_eq_some_iff.mp h.container).1
  exact ⟨by rw [List.getElem?_append_left hlt]; exact h.container, h.offset, h.length, h.flag⟩

theorem forall₂_refers_mono {idBuffer : List ContainerName} (more : List ContainerName)
    {es : List RecipeEntry} {rs : List EnclaveRecipeEntry}
    (h : List.Forall₂ (Refers idBuffer) es rs) : List.Forall₂ (Refers (idBuffer ++ more)) es rs :=
  h.imp fun _ _ hr => hr.mono

/-- The numbers in the map are those of the names. -/
def MapOk (tmpContainerMap : ContainerMap) (idBuffer : List ContainerName) : Prop :=
  ∀ name id, tmpContainerMap.lookup name = some id → idBuffer[id]? = some name

theorem mapOk_empty (idBuffer : List ContainerName) : MapOk ∅ idBuffer := by
  intro name id h
  simp at h

/-- A container keeps its number or gets the next one. -/
theorem containerNumber_spec {tmpContainerMap : ContainerMap} {idBuffer : List ContainerName}
    (h : MapOk tmpContainerMap idBuffer) (e : RecipeEntry) :
    ∃ id map more, containerNumber e.containerName tmpContainerMap idBuffer =
        (id, map, idBuffer ++ more) ∧ MapOk map (idBuffer ++ more) ∧
      Refers (idBuffer ++ more) e (requestEntry id e) := by
  unfold containerNumber
  cases hlook : tmpContainerMap.lookup e.containerName with
  | some id =>
    refine ⟨id, tmpContainerMap, [], by rw [List.append_nil], ?_, ?_⟩
    · rw [List.append_nil]
      exact h
    · rw [List.append_nil]
      exact ⟨h _ _ hlook, rfl, rfl, rfl⟩
  | none =>
    have hnew : (idBuffer ++ [e.containerName])[idBuffer.length]? = some e.containerName := by
      simp
    refine ⟨idBuffer.length, _, [e.containerName], rfl, ?_, ⟨hnew, rfl, rfl, rfl⟩⟩
    intro name id hname
    rw [Table.lookup_insert_ite] at hname
    by_cases heq : name = e.containerName
    · rw [if_pos heq, Option.some.injEq] at hname
      rw [← hname, heq]
      exact hnew
    · rw [if_neg heq] at hname
      have hid := h name id hname
      rw [List.getElem?_append_left (List.getElem?_eq_some_iff.mp hid).1]
      exact hid

/-- The bases that the query has asked for and that have not been taken. -/
def openBases (index : Table Fp RecipeEntry) (q : BaseQuery) : List (Option RecipeEntry) :=
  (List.range q.queryNum).map fun i => index.lookup (q.outQueryBase i).1

/-- `es` have been collected: their entries, and their bases, of which the last ones are still in the
query. -/
structure Collected (index : Table Fp RecipeEntry) (r : Requests × ContainerMap)
    (es : List RecipeEntry) : Prop where
  map : MapOk r.2 r.1.idBuffer
  entries : List.Forall₂ (Refers r.1.idBuffer) es r.1.enclaveRecipeBuffer
  bases : ∃ taken, List.Forall₂ (Refers r.1.idBuffer) taken r.1.baseRecipeBuffer ∧
    basesOf index es = taken.map some ++ openBases index r.1.baseQuery
  room : r.1.baseQuery.queryNum ≤ 5
  known : ∀ b ∈ basesOf index es, b ≠ none

theorem foldl_pushBase {bs : List RecipeEntry} {r : Requests × ContainerMap}
    (h : MapOk r.2 r.1.idBuffer) : ∃ map more rs, bs.foldl pushBase r =
        ({ r.1 with
            idBuffer := r.1.idBuffer ++ more
            baseRecipeBuffer := r.1.baseRecipeBuffer ++ rs }, map) ∧
      MapOk map (r.1.idBuffer ++ more) ∧ List.Forall₂ (Refers (r.1.idBuffer ++ more)) bs rs := by
  induction bs generalizing r with
  | nil =>
    refine ⟨r.2, [], [], by rw [List.append_nil, List.append_nil]; rfl, ?_, List.Forall₂.nil⟩
    rw [List.append_nil]
    exact h
  | cons b bs ih =>
    obtain ⟨id, map, more, hnum, hmap, hrefers⟩ := containerNumber_spec h b
    have hpush : pushBase r b =
        ({ r.1 with
            idBuffer := r.1.idBuffer ++ more
            baseRecipeBuffer := r.1.baseRecipeBuffer ++ [requestEntry id b] }, map) := by
      unfold pushBase
      rw [hnum]
    obtain ⟨map', more', rs, hfold, hmap', hrs⟩ := @ih (pushBase r b) (by rw [hpush]; exact hmap)
    rw [hpush] at hfold hmap' hrs
    refine ⟨map', more ++ more', requestEntry id b :: rs, ?_, ?_, ?_⟩
    · rw [List.foldl_cons, hpush, hfold]
      simp only [List.append_assoc, List.singleton_append]
    · rw [← List.append_assoc]
      exact hmap'
    · rw [← List.append_assoc]
      exact List.Forall₂.cons hrefers.mono hrs

/-- The addresses in the query once it has been answered. -/
def answersOf (index : Table Fp RecipeEntry) (q : BaseQuery) : List RecipeEntry :=
  (List.range q.queryNum).map fun i => ((Ocall_QueryBaseIndex index q).outQueryBase i).2

/-- Taking the bases leaves nothing of them in the query. -/
theorem takeBases_spec {r : Requests × ContainerMap} {es : List RecipeEntry}
    (h : Collected index r es) : ∃ more,
    (takeBases index r).1.idBuffer = r.1.idBuffer ++ more ∧
      MapOk (takeBases index r).2 (r.1.idBuffer ++ more) ∧
      (takeBases index r).1.enclaveRecipeBuffer = r.1.enclaveRecipeBuffer ∧
      ∃ taken, List.Forall₂ (Refers (r.1.idBuffer ++ more)) taken
          (takeBases index r).1.baseRecipeBuffer ∧
        basesOf index es = taken.map some := by
  obtain ⟨taken, htaken, hbases⟩ := h.bases
  -- every hash of the query is known, so that all of its addresses are answers
  have hanswers : openBases index r.1.baseQuery = (answersOf index r.1.baseQuery).map some := by
    unfold openBases answersOf
    rw [List.map_map]
    apply List.map_congr_left
    intro i hi
    have hlt := List.mem_range.mp hi
    have hmem : index.lookup (r.1.baseQuery.outQueryBase i).1 ∈ basesOf index es := by
      rw [hbases]
      exact List.mem_append_right _ (List.mem_map.mpr ⟨i, hi, rfl⟩)
    obtain ⟨b, hb⟩ := Option.ne_none_iff_exists'.mp (h.known _ hmem)
    simp only [Function.comp_apply, Ocall_QueryBaseIndex, if_pos hlt, hb, Option.getD_some]
  obtain ⟨map, more, rs, hfold, hmap, hrs⟩ := @foldl_pushBase (answersOf index r.1.baseQuery)
    ({ r.1 with baseQuery := Ocall_QueryBaseIndex index r.1.baseQuery }, r.2) h.map
  have heq : takeBases index r = _ := hfold
  rw [heq]
  refine ⟨more, rfl, hmap, rfl, taken ++ answersOf index r.1.baseQuery, ?_, ?_⟩
  · exact List.rel_append (forall₂_refers_mono more htaken) hrs
  · rw [hbases, hanswers, List.map_append]

theorem openBases_ask (q : BaseQuery) (basechunkHash : Fp) :
    openBases index (q.ask basechunkHash) = openBases index q ++ [index.lookup basechunkHash] := by
  unfold openBases BaseQuery.ask
  dsimp only
  rw [List.range_succ, List.map_append, List.map_singleton, Function.update_self]
  congr 1
  apply List.map_congr_left
  intro i hi
  have hne : i ≠ q.queryNum := Nat.ne_of_lt (List.mem_range.mp hi)
  rw [Function.update_of_ne hne]

/-- What is collected of a delta before its own entry is. -/
theorem askBase_spec {r : Requests × ContainerMap} {es : List RecipeEntry}
    (h : Collected index r es) (basechunkHash : Fp) : ∃ more,
    (askBase index r basechunkHash).1.idBuffer = r.1.idBuffer ++ more ∧
      MapOk (askBase index r basechunkHash).2 (r.1.idBuffer ++ more) ∧
      (askBase index r basechunkHash).1.enclaveRecipeBuffer = r.1.enclaveRecipeBuffer ∧
      (∃ taken, List.Forall₂ (Refers (r.1.idBuffer ++ more)) taken
          (askBase index r basechunkHash).1.baseRecipeBuffer ∧
        basesOf index es ++ [index.lookup basechunkHash] =
          taken.map some ++ openBases index (askBase index r basechunkHash).1.baseQuery) ∧
      (askBase index r basechunkHash).1.baseQuery.queryNum ≤ 5 := by
  have hroom := h.room
  unfold askBase
  by_cases hlt : r.1.baseQuery.queryNum < 5
  · rw [if_pos hlt]
    obtain ⟨taken, htaken, hbases⟩ := h.bases
    refine ⟨[], ?_, ?_, rfl, ⟨taken, ?_, ?_⟩, ?_⟩
    · exact (List.append_nil _).symm
    · rw [List.append_nil]
      exact h.map
    · rw [List.append_nil]
      exact htaken
    · dsimp only
      rw [openBases_ask, hbases, List.append_assoc]
    · change r.1.baseQuery.queryNum + 1 ≤ 5
      omega
  · -- a sixth base: the first five are taken first
    rw [if_neg hlt, if_pos (by omega)]
    obtain ⟨more, hids, hmap, hentries, taken, htaken, hbases⟩ := takeBases_spec h
    refine ⟨more, hids, hmap, hentries, ⟨taken, htaken, ?_⟩, ?_⟩
    · have hnone : openBases index { (takeBases index r).1.baseQuery with queryNum := 0 } = [] := rfl
      dsimp only
      rw [openBases_ask, hnone, hbases, List.nil_append]
    · exact (by decide : 0 + 1 ≤ 5)

theorem collectEntry_spec {r : Requests × ContainerMap} {es : List RecipeEntry} {e : RecipeEntry}
    (h : Collected index r es)
    (hknown : e.deltaFlag = DELTA → index.lookup e.basechunkHash ≠ none) :
    Collected index (collectEntry index r e) (es ++ [e]) := by
  -- the base first, if there is one
  have hbase : ∃ r' more, r' = (if e.deltaFlag = DELTA then askBase index r e.basechunkHash else r) ∧
      r'.1.idBuffer = r.1.idBuffer ++ more ∧ MapOk r'.2 r'.1.idBuffer ∧
      r'.1.enclaveRecipeBuffer = r.1.enclaveRecipeBuffer ∧
      (∃ taken, List.Forall₂ (Refers r'.1.idBuffer) taken r'.1.baseRecipeBuffer ∧
        basesOf index (es ++ [e]) = taken.map some ++ openBases index r'.1.baseQuery) ∧
      r'.1.baseQuery.queryNum ≤ 5 := by
    by_cases hdelta : e.deltaFlag = DELTA
    · rw [if_pos hdelta]
      obtain ⟨more, hids, hmap, hentries, ⟨taken, htaken, hbases⟩, hroom⟩ :=
        askBase_spec h e.basechunkHash
      have hone : basesOf index [e] = [index.lookup e.basechunkHash] := by
        simp [basesOf, hdelta]
      refine ⟨_, more, rfl, hids, by rw [hids]; exact hmap, hentries,
        ⟨taken, by rw [hids]; exact htaken, ?_⟩, hroom⟩
      rw [basesOf_append, hone]
      exact hbases
    · rw [if_neg hdelta]
      have hnone : basesOf index [e] = [] := by
        simp [basesOf, hdelta]
      refine ⟨r, [], rfl, (List.append_nil _).symm, h.map, rfl, ?_, h.room⟩
      rw [basesOf_append, hnone, List.append_nil]
      exact h.bases
  obtain ⟨r', more, hr', hids, hmap, hentries, ⟨taken, htaken, hbases⟩, hroom⟩ := hbase
  obtain ⟨id, map, more', hnum, hmap', hrefers⟩ := containerNumber_spec hmap e
  have heq : collectEntry index r e =
      ({ r'.1 with
          idBuffer := r'.1.idBuffer ++ more'
          enclaveRecipeBuffer := r'.1.enclaveRecipeBuffer ++ [requestEntry id e] }, map) := by
    unfold collectEntry
    rw [← hr']
    dsimp only
    rw [hnum]
  rw [heq]
  refine ⟨hmap', ?_, ⟨taken, forall₂_refers_mono more' htaken, hbases⟩, hroom, ?_⟩
  · dsimp only
    rw [hentries]
    have hold : List.Forall₂ (Refers r'.1.idBuffer) es r.1.enclaveRecipeBuffer := by
      rw [hids]
      exact forall₂_refers_mono more h.entries
    exact List.rel_append (forall₂_refers_mono more' hold) (List.Forall₂.cons hrefers .nil)
  · intro b hb
    rw [basesOf_append] at hb
    rcases List.mem_append.mp hb with hb | hb
    · exact h.known b hb
    · obtain ⟨e', he', rfl⟩ := List.mem_map.mp hb
      obtain ⟨hmem, hdelta⟩ := List.mem_filter.mp he'
      rw [List.mem_singleton.mp hmem] at hdelta ⊢
      exact hknown (of_decide_eq_true hdelta)

/-- Before containers are fetched every base of the entries has been taken, in their order. -/
theorem lastBases_spec {r : Requests × ContainerMap} {es : List RecipeEntry}
    (h : Collected index r es) : ∃ taken,
    List.Forall₂ (Refers (lastBases index r).1.idBuffer) es
        (lastBases index r).1.enclaveRecipeBuffer ∧
      List.Forall₂ (Refers (lastBases index r).1.idBuffer) taken
        (lastBases index r).1.baseRecipeBuffer ∧
      basesOf index es = taken.map some := by
  unfold lastBases
  by_cases hask : r.1.baseQuery.queryNum ≠ 0
  · rw [if_pos hask]
    obtain ⟨more, hids, _, hentries, taken, htaken, hbases⟩ := takeBases_spec h
    refine ⟨taken, ?_, ?_, hbases⟩
    · dsimp only
      rw [hids, hentries]
      exact forall₂_refers_mono more h.entries
    · dsimp only
      rw [hids]
      exact htaken
  · rw [if_neg hask]
    obtain ⟨taken, htaken, hbases⟩ := h.bases
    have hnone : openBases index r.1.baseQuery = [] := by
      have hzero : r.1.baseQuery.queryNum = 0 := by omega
      unfold openBases
      rw [hzero]
      rfl
    refine ⟨taken, h.entries, htaken, ?_⟩
    rw [hbases, hnone, List.append_nil]

end Collect

section Chunks
variable {env : EnclaveEnv} {index : Table Fp RecipeEntry} {load : ContainerName → Bytes}

/-- The chunks that the loop over `_enclaveRecipeBuffer` restores. -/
def loopChunks (env : EnclaveEnv) (containerArray : List Bytes)
    (baseRecipeBuffer : List EnclaveRecipeEntry) : Nat → List EnclaveRecipeEntry → List Bytes
  | _, [] => []
  | bidx, e :: rest =>
    restoreOne env containerArray baseRecipeBuffer bidx e ::
      loopChunks env containerArray baseRecipeBuffer
        (if e.deltaFlag = DELTA then bidx + 1 else bidx) rest

theorem requested_read {idBuffer : List ContainerName} {e : RecipeEntry} {r : EnclaveRecipeEntry}
    (h : Refers idBuffer e r) :
    entryContent (idBuffer.map load) r = getChunkContent (load e.containerName) e ∧
      entryIV (idBuffer.map load) r = getChunkIV (load e.containerName) e ∧
      entryChunk env (idBuffer.map load) r = expandEntry env load e := by
  have hcontainer : entryContainer (idBuffer.map load) r = load e.containerName := by
    unfold entryContainer
    rw [List.getD_eq_getElem?_getD, List.getElem?_map, h.container]
    rfl
  have hcontent : entryContent (idBuffer.map load) r =
      getChunkContent (load e.containerName) e := by
    unfold entryContent getChunkContent
    rw [hcontainer, h.offset, h.length]
  have hiv : entryIV (idBuffer.map load) r = getChunkIV (load e.containerName) e := by
    unfold entryIV getChunkIV
    rw [hcontainer, h.offset, h.length]
  refine ⟨hcontent, hiv, ?_⟩
  unfold entryChunk expandEntry
  rw [hcontent, hiv]

/-- The base at `bidx` is the one that the delta names: both lists are in the order of the
entries. -/
theorem loopChunks_spec {idBuffer : List ContainerName} {es taken : List RecipeEntry}
    {rs bases : List EnclaveRecipeEntry} (hes : List.Forall₂ (Refers idBuffer) es rs)
    (htaken : List.Forall₂ (Refers idBuffer) taken bases) {bidx : Nat}
    (hbases : basesOf index es = (taken.drop bidx).map some) :
    (loopChunks env (idBuffer.map load) bases bidx rs).map some =
      es.map (chunkOf env index load) := by
  induction hes generalizing bidx with
  | nil => rfl
  | @cons e r es rs hr hrest ih =>
    obtain ⟨hcontent, hiv, hchunk⟩ := @requested_read env load _ _ _ hr
    have hcons : basesOf index (e :: es) = basesOf index [e] ++ basesOf index es :=
      basesOf_append [e] es
    rw [hcons] at hbases
    unfold loopChunks
    rw [List.map_cons, List.map_cons, hr.flag]
    by_cases hdelta : e.deltaFlag = DELTA
    · have hone : basesOf index [e] = [index.lookup e.basechunkHash] := by
        simp [basesOf, hdelta]
      rw [hone] at hbases
      -- the next base of the list is the one of this delta
      have hlt : bidx < taken.length := by
        by_contra hle
        rw [List.drop_eq_nil_of_le (by omega)] at hbases
        simp at hbases
      rw [List.drop_eq_getElem_cons hlt, List.map_cons, List.singleton_append,
        List.cons.injEq] at hbases
      have hlt' : bidx < bases.length := by rw [← htaken.length_eq]; exact hlt
      have hbase := htaken.get hlt hlt'
      rw [List.get_eq_getElem, List.get_eq_getElem] at hbase
      obtain ⟨_, _, hexpand⟩ := @requested_read env load _ _ _ hbase
      rw [if_pos hdelta, ih hbases.2]
      congr 1
      unfold restoreOne chunkOf
      rw [hr.flag, if_pos hdelta, if_pos hdelta, hbases.1, Option.map_some, hcontent, hiv,
        List.getD_eq_getElem?_getD, List.getElem?_eq_getElem hlt', Option.getD_some, hexpand]
    · have hnone : basesOf index [e] = [] := by
        simp [basesOf, hdelta]
      rw [hnone, List.nil_append] at hbases
      rw [if_neg hdelta, ih hbases]
      congr 1
      unfold restoreOne chunkOf
      rw [hr.flag, if_neg hdelta, if_neg hdelta, hchunk]

end Chunks

section Emit
variable {env : EnclaveEnv} {crypto : RecipeCrypto} {sendChunkBatchSize : Nat}
  {containerArray : List Bytes} {bases : List EnclaveRecipeEntry}

/-- The message with a group of chunks. -/
def restoreMessage (crypto : RecipeCrypto) (messageType : RestoreType) (group : List Bytes) :
    RestoreMessage :=
  ⟨messageType, group.length, crypto.SessionKeyEnc (group.flatMap packRestored)⟩

/-- The buffer that has taken what a batcher has. -/
def bufferOf (crypto : RecipeCrypto) (b : Batcher Bytes) : RestoreBuffer where
  dataBuffer := b.buffer.flatMap packRestored
  currentItemNum := b.buffer.length
  sent := b.sent.map (restoreMessage crypto .SERVER_RESTORE_CHUNK)

theorem appendRestored_bufferOf (chunk : Bytes) (b : Batcher Bytes) :
    appendRestored chunk (bufferOf crypto b) =
      bufferOf crypto ⟨b.buffer ++ [chunk], b.sent⟩ := by
  unfold appendRestored bufferOf
  simp

theorem bufferOf_push (chunk : Bytes) (b : Batcher Bytes) :
    (if (appendRestored chunk (bufferOf crypto b)).currentItemNum % sendChunkBatchSize = 0 then
      Ocall_SendRestoreData crypto .SERVER_RESTORE_CHUNK (appendRestored chunk (bufferOf crypto b))
    else appendRestored chunk (bufferOf crypto b)) =
      bufferOf crypto (b.push sendChunkBatchSize chunk) := by
  have hsend : Ocall_SendRestoreData crypto .SERVER_RESTORE_CHUNK
      (bufferOf crypto ⟨b.buffer ++ [chunk], b.sent⟩) =
        bufferOf crypto ⟨[], b.sent ++ [b.buffer ++ [chunk]]⟩ := by
    unfold Ocall_SendRestoreData bufferOf
    rw [List.map_append]
    rfl
  have hnum : (bufferOf crypto ⟨b.buffer ++ [chunk], b.sent⟩).currentItemNum =
      (b.buffer ++ [chunk]).length := rfl
  rw [appendRestored_bufferOf, hsend, hnum]
  unfold Batcher.push
  dsimp only
  split
  · rfl
  · rfl

theorem restoreLoop_batch (bidx : Nat) (rs : List EnclaveRecipeEntry) (b : Batcher Bytes) :
    restoreLoop env crypto sendChunkBatchSize containerArray bases false bidx rs (bufferOf crypto b) =
      bufferOf crypto ((loopChunks env containerArray bases bidx rs).foldl
        (Batcher.push sendChunkBatchSize) b) := by
  induction rs generalizing bidx b with
  | nil => rfl
  | cons r rs ih =>
    unfold restoreLoop loopChunks
    simp only [Bool.false_and, Bool.false_eq_true, or_false, if_false, bufferOf_push, ih,
      List.foldl_cons]

/-- The last chunk goes out in the final message, with those that wait for a message. -/
theorem restoreLoop_tail {bidx : Nat} {rs : List EnclaveRecipeEntry} (hrs : rs ≠ [])
    (b : Batcher Bytes) : ∃ (groups : List (List Bytes)) (last : List Bytes),
    groups.flatten ++ last =
        b.sent.flatten ++ b.buffer ++ loopChunks env containerArray bases bidx rs ∧
      (restoreLoop env crypto sendChunkBatchSize containerArray bases true bidx rs
        (bufferOf crypto b)).sent =
        groups.map (restoreMessage crypto .SERVER_RESTORE_CHUNK) ++
          [restoreMessage crypto .SERVER_RESTORE_FINAL last] := by
  induction rs generalizing bidx b with
  | nil => exact absurd rfl hrs
  | cons r rs ih =>
    unfold restoreLoop loopChunks
    by_cases hlast : rs = []
    · rw [hlast]
      refine ⟨b.sent, b.buffer ++ [restoreOne env containerArray bases bidx r], ?_, ?_⟩
      · rw [← List.append_assoc]
        rfl
      · simp only [List.isEmpty_nil, Bool.and_self, or_true, if_true, appendRestored_bufferOf]
        rfl
    · have hmore : rs.isEmpty = false := by
        rw [List.isEmpty_eq_false_iff]
        exact hlast
      simp only [hmore, Bool.and_false, Bool.false_eq_true, or_false, if_false, bufferOf_push]
      obtain ⟨groups, last, hflat, hsent⟩ := @ih (if r.deltaFlag = DELTA then bidx + 1 else bidx)
        hlast (b.push sendChunkBatchSize (restoreOne env containerArray bases bidx r))
      refine ⟨groups, last, ?_, hsent⟩
      rw [hflat, Batcher.push_flatten, List.append_assoc, List.singleton_append]

end Emit

section Run
variable {env : EnclaveEnv} {crypto : RecipeCrypto} {index : Table Fp RecipeEntry}
  {load : ContainerName → Bytes} {sendChunkBatchSize : Nat}

/-- What has been sent or waits for a message, then the entries that have been collected, are the
chunks of `done`. -/
def Progress (env : EnclaveEnv) (crypto : RecipeCrypto) (index : Table Fp RecipeEntry)
    (load : ContainerName → Bytes) (st : (Requests × ContainerMap) × RestoreBuffer)
    (done : List (Option Bytes)) : Prop :=
  ∃ b es, st.2 = bufferOf crypto b ∧ Collected index st.1 es ∧
    (b.sent.flatten ++ b.buffer).map some ++ es.map (chunkOf env index load) = done

/-- Fetching the containers restores everything that has been collected. -/
theorem restoreAll_batch {r : Requests × ContainerMap} {es : List RecipeEntry}
    (h : Collected index r es) (b : Batcher Bytes) : ∃ chunks : List Bytes,
    chunks.map some = es.map (chunkOf env index load) ∧
      restoreAll env crypto load sendChunkBatchSize false
          ⟨(lastBases index r).1, bufferOf crypto b⟩ =
        bufferOf crypto (chunks.foldl (Batcher.push sendChunkBatchSize) b) := by
  obtain ⟨taken, hentries, htaken, hbases⟩ := lastBases_spec h
  refine ⟨_, @loopChunks_spec env index load _ _ _ _ _ hentries htaken 0 hbases, ?_⟩
  exact restoreLoop_batch 0 _ b

theorem capping_progress {st : (Requests × ContainerMap) × RestoreBuffer}
    {done : List (Option Bytes)} (h : Progress env crypto index load st done) :
    Progress env crypto index load (capping env crypto index load sendChunkBatchSize st.1 st.2)
      done := by
  obtain ⟨b, es, hbuffer, hcollected, hdone⟩ := h
  unfold capping
  split
  · obtain ⟨chunks, hchunks, hrestore⟩ := @restoreAll_batch env crypto index load
      sendChunkBatchSize _ _ hcollected b
    rw [hbuffer]
    refine ⟨chunks.foldl (Batcher.push sendChunkBatchSize) b, [], hrestore, ?_, ?_⟩
    · refine ⟨mapOk_empty _, List.Forall₂.nil, ⟨[], List.Forall₂.nil, rfl⟩, Nat.zero_le _, ?_⟩
      intro base hbase
      simp [basesOf] at hbase
    · rw [Batcher.foldl_flatten, List.map_append, hchunks, List.map_nil, List.append_nil]
      exact hdone
  · exact ⟨b, es, hbuffer, hcollected, hdone⟩

theorem procEntry_progress {st : (Requests × ContainerMap) × RestoreBuffer} {e : RecipeEntry}
    {done : List (Option Bytes)} (h : Progress env crypto index load st done)
    (hknown : chunkOf env index load e ≠ none) :
    Progress env crypto index load (procEntry env crypto index load sendChunkBatchSize st e)
      (done ++ [chunkOf env index load e]) := by
  obtain ⟨b, es, hbuffer, hcollected, hdone⟩ := h
  have hbase : e.deltaFlag = DELTA → index.lookup e.basechunkHash ≠ none := by
    intro hdelta hnone
    unfold chunkOf at hknown
    rw [if_pos hdelta, hnone] at hknown
    exact hknown rfl
  apply @capping_progress env crypto index load sendChunkBatchSize (collectEntry index st.1 e, st.2)
  refine ⟨b, es ++ [e], hbuffer, collectEntry_spec hcollected hbase, ?_⟩
  rw [← hdone, @List.map_append _ _ _ es, List.append_assoc]
  rfl

theorem foldl_procEntry_progress {es : List RecipeEntry}
    {st : (Requests × ContainerMap) × RestoreBuffer} {done : List (Option Bytes)}
    (h : Progress env crypto index load st done)
    (hknown : ∀ e ∈ es, chunkOf env index load e ≠ none) :
    Progress env crypto index load
      (es.foldl (procEntry env crypto index load sendChunkBatchSize) st)
      (done ++ es.map (chunkOf env index load)) := by
  induction es generalizing st done with
  | nil =>
    rw [List.map_nil, List.append_nil]
    exact h
  | cons e es ih =>
    have hstep := @procEntry_progress env crypto index load sendChunkBatchSize st e done h
      (hknown e (List.mem_cons_self ..))
    have hcons : done ++ (e :: es).map (chunkOf env index load) =
        done ++ [chunkOf env index load e] ++ es.map (chunkOf env index load) := by
      rw [List.append_assoc]
      rfl
    rw [hcons]
    exact ih hstep fun e' he' => hknown e' (List.mem_cons_of_mem e he')

/-- Every fingerprint of a batch gets its entry. -/
theorem readIndexStoreBatch_spec {recipe : List Fp} (value : RecipeEntry)
    (hknown : ∀ fp ∈ recipe, restored env index load fp ≠ none) :
    (Ocall_ReadIndexStoreBatch index value (recipe.map env.IndexAESCMCEnc)).map
      (chunkOf env index load) = recipe.map (restored env index load) := by
  induction recipe generalizing value with
  | nil => rfl
  | cons fp recipe ih =>
    have hfp := hknown fp (List.mem_cons_self ..)
    have hrest := fun value => ih value fun fp' h => hknown fp' (List.mem_cons_of_mem fp h)
    rw [List.map_cons, List.map_cons]
    unfold Ocall_ReadIndexStoreBatch
    dsimp only
    rw [List.map_cons, hrest]
    congr 1
    unfold restored at hfp ⊢
    cases hlook : index.lookup (env.IndexAESCMCEnc fp) with
    | none =>
      rw [hlook] at hfp
      exact absurd rfl hfp
    | some e => rfl

theorem ProcRecipeBatch_progress {s : Restore} {recipe : List Fp} {done : List (Option Bytes)}
    (h : Progress env crypto index load ((s.requests, ∅), s.buffer) done) (value : RecipeEntry)
    (hknown : ∀ fp ∈ recipe, restored env index load fp ≠ none) :
    Progress env crypto index load
      (((ProcRecipeBatch env crypto index load sendChunkBatchSize value s recipe).requests, ∅),
        (ProcRecipeBatch env crypto index load sendChunkBatchSize value s recipe).buffer)
      (done ++ recipe.map (restored env index load)) := by
  have hread := readIndexStoreBatch_spec value hknown
  have hentries : ∀ e ∈ Ocall_ReadIndexStoreBatch index value (recipe.map env.IndexAESCMCEnc),
      chunkOf env index load e ≠ none := by
    intro e he
    have hmem : chunkOf env index load e ∈ recipe.map (restored env index load) := by
      rw [← hread]
      exact List.mem_map_of_mem he
    obtain ⟨fp, hfp, heq⟩ := List.mem_map.mp hmem
    rw [← heq]
    exact hknown fp hfp
  have hfold := @foldl_procEntry_progress env crypto index load sendChunkBatchSize _ _ _ h hentries
  rw [hread] at hfold
  obtain ⟨b, es, hbuffer, hcollected, hdone⟩ := hfold
  -- the next call starts with an empty map
  exact ⟨b, es, hbuffer, ⟨mapOk_empty _, hcollected.entries, hcollected.bases, hcollected.room,
    hcollected.known⟩, hdone⟩

/-- The tail sends everything that is left, the last message being the final one. -/
theorem ProcRecipeTailBatch_spec {s : Restore} {done : List (Option Bytes)}
    (h : Progress env crypto index load ((s.requests, ∅), s.buffer) done) :
    ∃ (groups : List (List Bytes)) (last : List Bytes),
      (groups.flatten ++ last).map some = done ∧
      (ProcRecipeTailBatch env crypto index load sendChunkBatchSize s).sent =
        groups.map (restoreMessage crypto .SERVER_RESTORE_CHUNK) ++
          [restoreMessage crypto .SERVER_RESTORE_FINAL last] := by
  obtain ⟨b, es, hbuffer, hcollected, hdone⟩ := h
  dsimp only at hbuffer
  have hlen : es.length = s.requests.enclaveRecipeBuffer.length := hcollected.entries.length_eq
  unfold ProcRecipeTailBatch
  rw [hbuffer]
  split
  case isTrue hsome =>
    obtain ⟨taken, hentries, htaken, hbases⟩ := lastBases_spec hcollected
    have hchunks := @loopChunks_spec env index load _ _ _ _ _ hentries htaken 0 hbases
    have hne : (lastBases index (s.requests, ∅)).1.enclaveRecipeBuffer ≠ [] := by
      intro hnil
      have hl : es.length = (lastBases index (s.requests, ∅)).1.enclaveRecipeBuffer.length :=
        hentries.length_eq
      rw [hnil, List.length_nil] at hl
      exact hsome (hlen.symm.trans hl)
    obtain ⟨groups, last, hflat, hsent⟩ := @restoreLoop_tail env crypto sendChunkBatchSize
      ((lastBases index (s.requests, ∅)).1.idBuffer.map load)
      (lastBases index (s.requests, ∅)).1.baseRecipeBuffer 0 _ hne b
    refine ⟨groups, last, ?_, hsent⟩
    rw [hflat, List.map_append, hchunks]
    exact hdone
  case isFalse hnone =>
    have hnil : es = [] := List.length_eq_zero_iff.mp (hlen.trans (not_not.mp hnone))
    refine ⟨b.sent, b.buffer, ?_, rfl⟩
    rw [hnil, List.map_nil, List.append_nil] at hdone
    exact hdone

/-- A restore sends one chunk for each fingerprint, in the order of the recipe and however that is
cut into batches, and its last message is the only final one. -/
theorem restoreFile_chunks (env : EnclaveEnv) (crypto : RecipeCrypto)
    (index : Table Fp RecipeEntry) (load : ContainerName → Bytes) (sendChunkBatchSize : Nat)
    (value : RecipeEntry) (outQueryBase : Nat → Fp × RecipeEntry) (recipes : List (List Fp))
    (hknown : ∀ fp ∈ recipes.flatten, restored env index load fp ≠ none) :
    ∃ (groups : List (List Bytes)) (last : List Bytes),
      (groups.flatten ++ last).map some = recipes.flatten.map (restored env index load) ∧
        restoreFile env crypto index load sendChunkBatchSize value outQueryBase recipes =
          groups.map (restoreMessage crypto .SERVER_RESTORE_CHUNK) ++
            [restoreMessage crypto .SERVER_RESTORE_FINAL last] := by
  have hrun : ∀ (recipes : List (List Fp)) (s : Restore) (done : List (Option Bytes)),
      Progress env crypto index load ((s.requests, ∅), s.buffer) done →
      (∀ fp ∈ recipes.flatten, restored env index load fp ≠ none) →
      Progress env crypto index load
        (((recipes.foldl (ProcRecipeBatch env crypto index load sendChunkBatchSize value)
            s).requests, ∅),
          (recipes.foldl (ProcRecipeBatch env crypto index load sendChunkBatchSize value) s).buffer)
        (done ++ recipes.flatten.map (restored env index load)) := by
    intro recipes
    induction recipes with
    | nil =>
      intro s done h _
      rw [List.flatten_nil, List.map_nil, List.append_nil]
      exact h
    | cons recipe recipes ih =>
      intro s done h hknown
      rw [List.flatten_cons] at hknown
      have hstep := @ProcRecipeBatch_progress env crypto index load sendChunkBatchSize s recipe done
        h value fun fp hfp => hknown fp (List.mem_append_left _ hfp)
      rw [List.flatten_cons, List.map_append, ← List.append_assoc]
      exact ih _ _ hstep fun fp hfp => hknown fp (List.mem_append_right _ hfp)
  have hstart : Progress env crypto index load
      (((startRestore outQueryBase).requests, ∅), (startRestore outQueryBase).buffer) [] := by
    refine ⟨.empty, [], rfl, ⟨mapOk_empty _, List.Forall₂.nil, ⟨[], List.Forall₂.nil, rfl⟩,
      Nat.zero_le _, ?_⟩, rfl⟩
    intro b hb
    simp [basesOf] at hb
  have hend := hrun recipes (startRestore outQueryBase) [] hstart hknown
  rw [List.nil_append] at hend
  exact ProcRecipeTailBatch_spec hend

/-- A chunk and a delta that copies it, in two containers. -/
def pairIndex : Table Fp RecipeEntry :=
  ((∅ : Table Fp RecipeEntry).insert (FixedBytes.fill 32 1)
      ⟨FixedBytes.fill 7 1, NO_DELTA, 0, 1, FixedBytes.fill 32 0, FixedBytes.fill 96 0⟩).insert
    (FixedBytes.fill 32 2)
    ⟨FixedBytes.fill 7 2, DELTA, 0, 8, FixedBytes.fill 32 1, FixedBytes.fill 96 0⟩

def pairLoad (name : ContainerName) : Bytes :=
  List.replicate CONTENT_OFFSET 0 ++
    ((if name = FixedBytes.fill 7 1 then [0x57] else opBytes (.copy 0 1)) ++
      List.replicate CRYPTO_BLOCK_SIZE 0)

/-- The delta comes first, its base in the next batch. -/
theorem restoreFile_chunks_pair :
    (∀ fp ∈ [[FixedBytes.fill 32 2], [FixedBytes.fill 32 1]].flatten,
      restored plainEnv pairIndex pairLoad fp = some [0x57]) ∧
    ∃ (groups : List (List Bytes)) (last : List Bytes),
      (groups.flatten ++ last).map some =
          [[FixedBytes.fill 32 2], [FixedBytes.fill 32 1]].flatten.map
            (restored plainEnv pairIndex pairLoad) ∧
        restoreFile plainEnv xorCrypto pairIndex pairLoad 1 emptyEntry
            (fun _ => (FixedBytes.fill 32 0, emptyEntry))
            [[FixedBytes.fill 32 2], [FixedBytes.fill 32 1]] =
          groups.map (restoreMessage xorCrypto .SERVER_RESTORE_CHUNK) ++
            [restoreMessage xorCrypto .SERVER_RESTORE_FINAL last] := by
  have hpair : ∀ fp ∈ [[FixedBytes.fill 32 2], [FixedBytes.fill 32 1]].flatten,
      restored plainEnv pairIndex pairLoad fp = some [0x57] := by
    decide +kernel
  refine ⟨hpair, restoreFile_chunks plainEnv xorCrypto pairIndex pairLoad 1 emptyEntry
    (fun _ => (FixedBytes.fill 32 0, emptyEntry)) [[FixedBytes.fill 32 2], [FixedBytes.fill 32 1]]
    fun fp hfp => ?_⟩
  rw [hpair fp hfp]
  exact Option.some_ne_none _

end Run

end ShieldReduce.Prototype
