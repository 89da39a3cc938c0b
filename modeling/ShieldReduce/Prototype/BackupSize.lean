import ShieldReduce.Prototype.Ivs
import ShieldReduce.Prototype.StatisticsRuns

/-!
# The size of the current backup

`_offlineCurrBackup_size` starts from the bytes that the session has stored, and `Easy_update` takes
off the size of every chunk that it encodes anew. Whether there is enough to take off depends on the
sessions that have stored these chunks.
-/

namespace ShieldReduce.Prototype
open Lib Store EDelta

section Model
variable (env : EnclaveEnv)

/-- The sizes in `GetNew_deltachunk`: what is taken off and what is put back. -/
def sizesDependent (old_chunk new_chunk : Bytes) (deltaHash : Fp) (s : Server) :
    Option (List (Nat × Nat)) := do
  let delta_recipe ← s.indexObj.lookup deltaHash
  let s ← Ocall_OneDeltaContainer delta_recipe.containerName s
  let delta_container := s.tmpOcallcontainer
  let delta_chunk_content := env.DecryptionWithKeyIV (getChunkIV delta_container delta_recipe)
    (getChunkContent delta_container delta_recipe)
  let old_unique_chunk := EDeltaDecode delta_chunk_content old_chunk
  let new_delta_chunk := EDeltaEncode env.edelta old_unique_chunk new_chunk
  if old_unique_chunk.length < new_delta_chunk.length then return []
  else return [(delta_recipe.length.toNat, new_delta_chunk.length)]

def sizesDependents (old_chunk new_chunk : Bytes) (newBase : Fp) :
    List Fp → Server → Option (List (Nat × Nat))
  | [], _ => some []
  | deltaHash :: rest, s => do
    let sizes ← sizesDependent env old_chunk new_chunk deltaHash s
    let (s, _) ← updateDependent env old_chunk new_chunk newBase deltaHash s
    let more ← sizesDependents old_chunk new_chunk newBase rest s
    return sizes ++ more

/-- The sizes of the old base; like its counters they do not ask for `delta_flag`. -/
def sizesOldBase (old_recipe : RecipeEntry) (old_chunk new_chunk : Bytes) : List (Nat × Nat) :=
  let new_delta := EDeltaEncode env.edelta old_chunk new_chunk
  if old_chunk.length < new_delta.length then [] else [(old_recipe.length.toNat, new_delta.length)]

/-- The sizes along `updatePair`. -/
def sizesPair (old new : Fp) (s : Server) : Option (List (Nat × Nat)) := do
  let old_recipe ← s.indexObj.lookup old
  match Ocall_OneContainer old_recipe.containerName s with
  | none => return []
  | some s =>
    let old_container := s.tmpOcallcontainer
    let s := EraseSF s old_recipe.superfeature
    let new_recipe ← s.indexObj.lookup new
    match Ocall_OneContainer new_recipe.containerName s with
    | none => return []
    | some s =>
      let new_container := s.tmpOcallcontainer
      let s := ReplaceSF s new_recipe.superfeature new
      let old_chunk := offlineExpand env (getChunkIV old_container old_recipe)
        (getChunkContent old_container old_recipe)
      let new_chunk := offlineExpand env (getChunkIV new_container new_recipe)
        (getChunkContent new_container new_recipe)
      let (dependents, s) := QueryDeltaIndex s old
      let sizes ← sizesDependents env old_chunk new_chunk new dependents s
      return sizes ++ sizesOldBase env old_recipe old_chunk new_chunk

/-- The sizes along `Easy_update_pair`. -/
def sizes_Easy_update_pair (old new : Fp) (s : Server) : Option (List (Nat × Nat)) :=
  if s.offlineCurrBackup_size = 0 then some [] else sizesPair env old new s

/-- The counter after its accounts. -/
def accountSizes (size : UInt64) (sizes : List (Nat × Nat)) : UInt64 :=
  sizes.foldl (fun size p => size - UInt64.ofNat p.1 + UInt64.ofNat p.2) size

/-- No account takes off more than the counter holds. -/
def NeverBelowZero : UInt64 → List (Nat × Nat) → Prop
  | _, [] => True
  | size, p :: sizes =>
    p.1 ≤ size.toNat ∧ NeverBelowZero (size - UInt64.ofNat p.1 + UInt64.ofNat p.2) sizes

/-- The sessions of a server, with the chunks that the current one has stored. -/
structure Backup where
  accounted : Accounted
  stored : List Fp

def storedNext (b : Backup) : SessionEvent → List Fp
  | .accept _ _ => []
  | .server .storeChunk =>
    match b.accounted.server.phase with
    | .uploading (.loaded x _) => b.stored ++ [x.chunkHash]
    | _ => b.stored
  | _ => b.stored

def Backup.start (Forward_Flag Offline_Flag : Bool) : Backup :=
  ⟨Accounted.start Forward_Flag Offline_Flag, []⟩

/-- The recorded length of a chunk. -/
def lengthOf (indexObj : FpIndex) (fp : Fp) : Nat :=
  ((indexObj.lookup fp).map fun e => e.length.toNat).getD 0

/-- A pair that the pass goes through takes nothing below zero. -/
def SizeStands (b : Backup) : SessionEvent → Prop
  | .server (.updatePair old) =>
    step env b.accounted.server (.updatePair old) ≠ none →
      ∀ new ∈ b.accounted.server.local_basemap.lookup old,
        ∀ sizes ∈ sizes_Easy_update_pair env old new b.accounted.server,
          NeverBelowZero b.accounted.server.offlineCurrBackup_size sizes
  | _ => True

/-- The sizes a pair takes off are those of chunks that the session has stored, and that of the old
base only when it moves. -/
def TakesOwn (b : Backup) (old new : Fp) : Prop :=
  let s := b.accounted.server
  ∀ old_chunk ∈ storedBase env s old, ∀ new_chunk ∈ storedBase env s new,
    (Shrinks env old_chunk new_chunk → old ∈ b.stored) ∧
      ∀ deltaHash ∈ Table.vec s.delta_index old, ∃ chunk ∈ storedDependent env s old_chunk deltaHash,
        (Shrinks env chunk new_chunk → deltaHash ∈ b.stored) ∧
          (Shrinks env old_chunk new_chunk → Shrinks env chunk new_chunk)

instance (b : Backup) (old new : Fp) : Decidable (TakesOwn env b old new) := by
  unfold TakesOwn
  infer_instance

def SizeKept (b : Backup) : SessionEvent → Prop
  | .server (.updatePair old) =>
    b.accounted.server.offlineCurrBackup_size = 0 ∨
      ∀ new ∈ b.accounted.server.local_basemap.lookup old, TakesOwn env b old new
  | _ => True

/-- The old base of a pair. -/
def SessionEvent.oldBase : SessionEvent → Option Fp
  | .server (.updatePair old) => some old
  | _ => none

/-- Only the step of a pair matters. -/
theorem sizeKept_pair (b : Backup) (event : SessionEvent) :
    (∀ old ∈ event.oldBase, b.accounted.server.offlineCurrBackup_size = 0 ∨
      ∀ new ∈ b.accounted.server.local_basemap.lookup old, TakesOwn env b old new) ↔
        SizeKept env b event := by
  unfold SizeKept SessionEvent.oldBase
  split
  · simp only [Option.mem_def, Option.some.injEq, forall_eq']
  · simp only [Option.mem_def, reduceCtorEq, false_implies, implies_true]

instance (b : Backup) (event : SessionEvent) : Decidable (SizeKept env b event) :=
  decidable_of_iff _ (sizeKept_pair env b event)

end Model

section Sizes
variable {env : EnclaveEnv} {s s' : Server}

theorem accountSizes_append (size : UInt64) (sizes more : List (Nat × Nat)) :
    accountSizes size (sizes ++ more) = accountSizes (accountSizes size sizes) more :=
  List.foldl_append

theorem NeverBelowZero.append {size : UInt64} {sizes more : List (Nat × Nat)}
    (h : NeverBelowZero size sizes) (hmore : NeverBelowZero (accountSizes size sizes) more) :
    NeverBelowZero size (sizes ++ more) := by
  induction sizes generalizing size with
  | nil => exact hmore
  | cons p sizes ih => exact ⟨h.1, ih h.2 hmore⟩

theorem storeHot_size (env : EnclaveEnv) (chunkHash newBase : Fp) (recipe : RecipeEntry)
    (new_delta : Bytes) (fp : Fp) (sf : SuperFeature) (iv : IV) (s : Server) :
    (storeHot env chunkHash newBase recipe new_delta fp sf iv s).offlineCurrBackup_size =
      s.offlineCurrBackup_size := by
  obtain ⟨⟨f, h, t, hs, _⟩, _⟩ := InsertHot_container_frame (env.EncryptWithKeyIV iv new_delta)
    { recipe with
      length := UInt32.ofNat new_delta.length
      basechunkHash := newBase } fp sf iv s
  unfold storeHot
  dsimp only
  rw [hs]
  rfl

theorem storeHot_length (env : EnclaveEnv) (chunkHash newBase : Fp) (recipe : RecipeEntry)
    (new_delta : Bytes) (fp : Fp) (sf : SuperFeature) (iv : IV) (s : Server) :
    ∃ e, e.length = UInt32.ofNat new_delta.length ∧
      (storeHot env chunkHash newBase recipe new_delta fp sf iv s).indexObj =
        s.indexObj.insert chunkHash e :=
  ⟨(hotRecord env newBase recipe new_delta fp sf iv s).entry, rfl, storeHot_indexObj ..⟩

/-- One dependent, with its sizes. -/
theorem updateDependent_sized {old_chunk new_chunk : Bytes} {newBase d : Fp} {flag : Bool}
    (h : updateDependent env old_chunk new_chunk newBase d s = some (s', flag)) :
    ∃ e body, s.indexObj.lookup d = some e ∧ s.files.lookup (true, e.containerName) = some body ∧
      let chunk := deltaChunk env (memcpy s.tmpOcallcontainer 0 body) e old_chunk
      (¬Shrinks env chunk new_chunk ∧ s'.indexObj = s.indexObj ∧
          s'.offlineCurrBackup_size = s.offlineCurrBackup_size ∧
          sizesDependent env old_chunk new_chunk d s = some []) ∨
        (Shrinks env chunk new_chunk ∧ ∃ n e', n ≤ chunk.length ∧ e'.length = UInt32.ofNat n ∧
          s'.indexObj = s.indexObj.insert d e' ∧
          s'.offlineCurrBackup_size =
            s.offlineCurrBackup_size - UInt64.ofNat e.length.toNat + UInt64.ofNat n ∧
          sizesDependent env old_chunk new_chunk d s = some [(e.length.toNat, n)]) := by
  unfold updateDependent at h
  unfold sizesDependent
  obtain ⟨e, he, h⟩ := Option.bind_eq_some_iff.mp h
  obtain ⟨t, ht, h⟩ := Option.bind_eq_some_iff.mp h
  obtain ⟨body, hbody, rfl⟩ := Option.map_eq_some_iff.mp ht
  refine ⟨e, body, he, hbody, ?_⟩
  intro chunk
  rw [he]
  simp only [Option.bind_eq_bind, Option.bind_some, ht]
  dsimp only at h ⊢
  split at h
  case isTrue hlen =>
    rw [if_pos hlen]
    simp only [Option.pure_def, Option.some.injEq, Prod.mk.injEq] at h
    left
    rw [← h.1]
    exact ⟨Nat.not_le.mpr hlen, rfl, rfl, rfl⟩
  case isFalse hlen =>
    rw [if_neg hlen]
    simp only [Option.pure_def, Option.some.injEq, Prod.mk.injEq] at h
    right
    rw [← h.1]
    obtain ⟨e', hlength, hindex⟩ := storeHot_length env d newBase e
      (EDeltaEncode env.edelta chunk new_chunk)
      (getChunkFP (memcpy s.tmpOcallcontainer 0 body) e)
      (getChunkSF (memcpy s.tmpOcallcontainer 0 body) e)
      (getChunkIV (memcpy s.tmpOcallcontainer 0 body) e)
      (accountSize e.length.toNat (EDeltaEncode env.edelta chunk new_chunk).length
        (readContainer s body))
    exact ⟨Nat.not_lt.mp hlen, _, e', Nat.not_lt.mp hlen, hlength, hindex, storeHot_size .., rfl⟩

/-- The old base, with its sizes. -/
theorem updateOldBase_sized (old new : Fp) (old_recipe : RecipeEntry) (old_iv : IV)
    {old_chunk new_chunk : Bytes} {delta_flag : Bool}
    (hflag : Shrinks env old_chunk new_chunk → delta_flag = true)
    (hs : s' = updateOldBase env old new old_recipe old_iv old_chunk new_chunk delta_flag s) :
    (¬Shrinks env old_chunk new_chunk ∧ s'.indexObj = s.indexObj ∧
        s'.offlineCurrBackup_size = s.offlineCurrBackup_size ∧
        sizesOldBase env old_recipe old_chunk new_chunk = []) ∨
      (Shrinks env old_chunk new_chunk ∧ ∃ n e', n ≤ old_chunk.length ∧ e'.length = UInt32.ofNat n ∧
        s'.indexObj = s.indexObj.insert old e' ∧
        s'.offlineCurrBackup_size =
          s.offlineCurrBackup_size - UInt64.ofNat old_recipe.length.toNat + UInt64.ofNat n ∧
        sizesOldBase env old_recipe old_chunk new_chunk = [(old_recipe.length.toNat, n)]) := by
  unfold updateOldBase at hs
  unfold sizesOldBase
  by_cases hlen : old_chunk.length < (EDeltaEncode env.edelta old_chunk new_chunk).length
  · simp only [if_pos hlen] at hs ⊢
    left
    rw [hs]
    exact ⟨Nat.not_le.mpr hlen, rfl, rfl, trivial⟩
  · simp only [if_neg hlen, if_pos (hflag (Nat.not_lt.mp hlen))] at hs ⊢
    right
    rw [hs]
    obtain ⟨e', hlength, hindex⟩ := storeHot_length env old new old_recipe
      (EDeltaEncode env.edelta old_chunk new_chunk) old old_recipe.superfeature old_iv
      (accountSize old_recipe.length.toNat (EDeltaEncode env.edelta old_chunk new_chunk).length s)
    exact ⟨Nat.not_lt.mp hlen, _, e', Nat.not_lt.mp hlen, hlength, hindex, storeHot_size .., rfl⟩

end Sizes

/-- The counter is the size of the backup. -/
structure Counted (s : Server) (stored : List Fp) : Prop where
  nodup : stored.Nodup
  few : stored.length ≤ 2 ^ 47
  size : s.offlineCurrBackup_size = UInt64.ofNat (stored.map (lengthOf s.indexObj)).sum

section Counted
variable {env : EnclaveEnv} {s s' : Server} {stored : List Fp} {R : Records}
  {opens : Path → Option Bytes}

theorem lengthOf_eq {indexObj : FpIndex} {fp : Fp} {e : RecipeEntry}
    (h : indexObj.lookup fp = some e) : lengthOf indexObj fp = e.length.toNat := by
  unfold lengthOf
  rw [h]
  rfl

theorem lengthOf_le (h : Stores env (Entry s.indexObj []) opens s R) (fp : Fp) :
    lengthOf s.indexObj fp ≤ MAX_CHUNK_SIZE := by
  unfold lengthOf
  cases he : s.indexObj.lookup fp with
  | none => exact Nat.zero_le _
  | some e => exact h.indexed.short (Or.inl he)

/-- A backup is far from the end of the counter. -/
theorem sum_lengthOf_lt (h : Stores env (Entry s.indexObj []) opens s R)
    (hfew : stored.length ≤ 2 ^ 47) :
    (stored.map (lengthOf s.indexObj)).sum < 2 ^ 64 := by
  have hle := @sum_map_le _ (lengthOf s.indexObj) stored _ (lengthOf_le h)
  have hmax := Nat.mul_le_mul_right MAX_CHUNK_SIZE hfew
  have hsmall : 2 ^ 47 * MAX_CHUNK_SIZE < 2 ^ 64 := by decide
  omega

theorem Counted.toNat (h : Counted s stored) (hstores : Stores env (Entry s.indexObj []) opens s R) :
    s.offlineCurrBackup_size.toNat = (stored.map (lengthOf s.indexObj)).sum := by
  have hlt := sum_lengthOf_lt hstores h.few
  rw [h.size, UInt64.toNat_ofNat', Nat.mod_eq_of_lt hlt]

theorem Counted.same (h : Counted s stored) (hindex : s'.indexObj = s.indexObj)
    (hsize : s'.offlineCurrBackup_size = s.offlineCurrBackup_size) : Counted s' stored := by
  refine ⟨h.nodup, h.few, ?_⟩
  rw [hsize, hindex]
  exact h.size

/-- A chunk of the backup is stored in another size. -/
theorem Counted.account (h : Counted s stored)
    (hstores : Stores env (Entry s.indexObj []) opens s R) {d : Fp} (hd : d ∈ stored)
    {e e' : RecipeEntry} (he : s.indexObj.lookup d = some e) {n : Nat} (hn : n ≤ MAX_CHUNK_SIZE)
    (hlength : e'.length = UInt32.ofNat n) (hindex : s'.indexObj = s.indexObj.insert d e')
    (hsize : s'.offlineCurrBackup_size =
      s.offlineCurrBackup_size - UInt64.ofNat e.length.toNat + UInt64.ofNat n) :
    NeverBelowZero s.offlineCurrBackup_size [(e.length.toNat, n)] ∧ Counted s' stored := by
  have hle := @le_sum_map _ (lengthOf s.indexObj) _ _ _ hd
  rw [lengthOf_eq he, ← h.toNat hstores] at hle
  refine ⟨⟨hle, trivial⟩, h.nodup, h.few, ?_⟩
  have hnew : lengthOf s'.indexObj d = n := by
    have hsmall : MAX_CHUNK_SIZE < 2 ^ 32 := by decide
    have hlookup : s'.indexObj.lookup d = some e' := by
      rw [hindex, Table.lookup_insert_ite, if_pos rfl]
    rw [lengthOf_eq hlookup, hlength, UInt32.toNat_ofNat', Nat.mod_eq_of_lt (by omega)]
  have hsum := @sum_map_change _ (lengthOf s.indexObj) (lengthOf s'.indexObj) _ d _ h.nodup hd (by
    intro k hk
    unfold lengthOf
    rw [hindex, Table.lookup_insert_ite, if_neg hk])
  rw [hnew, lengthOf_eq he] at hsum
  rw [hsize, h.size]
  exact ofNat_replace hsum

end Counted

section Pair
variable {env : EnclaveEnv} {s s' : Server} {stored : List Fp} {R : Records} {Lost : Fp → Prop}
  {old new : Fp}

/-- The dependents of a pair, when those that shrink are of the backup. -/
theorem updateDependents_counts (h : Stores env (Entry s.indexObj []) (hotOpens s) s R)
    (hwriter : s.writer = none) {rest : List Fp} {flag flag' : Bool}
    (hreb : Rebasing s Lost old new rest flag) {old_chunk new_chunk : Bytes}
    (hnew : new_chunk.length ≤ MAX_CHUNK_SIZE)
    (hs : updateDependents env old_chunk new_chunk new rest flag s = some (s', flag'))
    (htimes : s'.con_times < 2 ^ 31)
    (hown : RecordsAre env (fun d chunk => Shrinks env chunk new_chunk → d ∈ stored) s R old_chunk
      rest)
    (hcount : Counted s stored) :
    ∃ sizes, sizesDependents env old_chunk new_chunk new rest s = some sizes ∧
      NeverBelowZero s.offlineCurrBackup_size sizes ∧
      s'.offlineCurrBackup_size = accountSizes s.offlineCurrBackup_size sizes ∧
      Counted s' stored ∧ s'.indexObj.lookup old = s.indexObj.lookup old ∧
      ∃ R', Stores env (Entry s'.indexObj []) (hotOpens s') s' R' := by
  induction rest generalizing s flag R with
  | nil =>
    simp only [updateDependents, Option.some.injEq, Prod.mk.injEq] at hs
    rw [← hs.1]
    exact ⟨[], rfl, trivial, rfl, hcount, rfl, R, h⟩
  | cons d rest ih =>
    unfold updateDependents at hs
    obtain ⟨⟨t, tmp_delta_flag⟩, ht, hs⟩ := Option.bind_eq_some_iff.mp hs
    obtain ⟨hreb', hframe, _⟩ := updateDependent_rebasing hreb ht
    obtain ⟨_, hframe', _⟩ := updateDependents_rebasing hreb' hs
    obtain ⟨e, body, he, hbody, hcases⟩ := updateDependent_sized ht
    obtain ⟨hmine, hlen, R₁, h₁, hrest⟩ := @updateDependent_records env s t Lost old new R h hwriter
      d rest flag tmp_delta_flag hreb old_chunk new_chunk hnew ht
      (Nat.lt_of_le_of_lt hframe'.times htimes)
      (fun d chunk => Shrinks env chunk new_chunk → d ∈ stored) hown e body he hbody
    have hstep : ∃ sizes, sizesDependent env old_chunk new_chunk d s = some sizes ∧
        NeverBelowZero s.offlineCurrBackup_size sizes ∧
        t.offlineCurrBackup_size = accountSizes s.offlineCurrBackup_size sizes ∧
        Counted t stored ∧ t.indexObj.lookup old = s.indexObj.lookup old := by
      rcases hcases with ⟨_, hindex, hsize, hsizes⟩ | ⟨hmove, n, e', hn, hlength, hindex, hsize, hsizes⟩
      · exact ⟨[], hsizes, trivial, hsize, hcount.same hindex hsize, by rw [hindex]⟩
      · obtain ⟨hnever, hcount'⟩ := hcount.account h (hmine hmove) he (Nat.le_trans hn hlen) hlength
          hindex hsize
        have hne : old ≠ d := by
          rintro rfl
          exact deltaOn_not_whole (hreb.rest_on old List.mem_cons_self) hreb.old_whole
        refine ⟨_, hsizes, hnever, hsize, hcount', ?_⟩
        rw [hindex, Table.lookup_insert_ite, if_neg hne]
    obtain ⟨sizes, hsizes, hnever, hsize, hcount', hold⟩ := hstep
    obtain ⟨more, hmore, hnever', hsize', hend, hold', hstores⟩ :=
      ih h₁ (hframe.writer.trans hwriter) hreb' hs hrest hcount'
    refine ⟨sizes ++ more, ?_, hnever.append (hsize ▸ hnever'), ?_, hend, hold'.trans hold, hstores⟩
    · unfold sizesDependents
      rw [hsizes, ht]
      simp only [Option.bind_eq_bind, Option.bind_some]
      rw [hmore]
      rfl
    · rw [accountSizes_append, ← hsize]
      exact hsize'

/-- A pair with its sizes: both skip it, or both go through it. -/
theorem sizesPair_cases (h : updatePair env old new s = some s') :
    (s'.indexObj = s.indexObj ∧ s'.offlineCurrBackup_size = s.offlineCurrBackup_size ∧
        sizesPair env old new s = some []) ∨
      ∃ old_recipe old_body new_recipe new_body t delta_flag,
        s.indexObj.lookup old = some old_recipe ∧
        s.files.lookup (false, old_recipe.containerName) = some old_body ∧
        s.indexObj.lookup new = some new_recipe ∧
        s.files.lookup (false, new_recipe.containerName) = some new_body ∧
        let old_container := memcpy s.tmpOcallcontainer 0 old_body
        let old_chunk := baseChunk env old_container old_recipe
        let new_chunk := baseChunk env (memcpy old_container 0 new_body) new_recipe
        updateDependents env old_chunk new_chunk new (Table.vec s.delta_index old) true
            (pairStart old old_recipe new_recipe new old_body new_body s) = some (t, delta_flag) ∧
          s' = updateOldBase env old new old_recipe (getChunkIV old_container old_recipe) old_chunk
            new_chunk delta_flag t ∧
          sizesPair env old new s =
            (sizesDependents env old_chunk new_chunk new (Table.vec s.delta_index old)
              (pairStart old old_recipe new_recipe new old_body new_body s)).map
                fun sizes => sizes ++ sizesOldBase env old_recipe old_chunk new_chunk := by
  obtain ⟨old_recipe, hold, ⟨hnone, rfl⟩ | ⟨old_body, hbody, new_recipe, hnew, hcases⟩⟩ :=
    updatePair_cases h
  · left
    refine ⟨rfl, rfl, ?_⟩
    unfold sizesPair Ocall_OneContainer oneContainer
    simp only [hold, hnone, Option.bind_eq_bind, Option.bind_some, Option.map_none]
    rfl
  · have hnew' : (EraseSF (readContainer s old_body) old_recipe.superfeature).indexObj.lookup new =
        some new_recipe := hnew
    rcases hcases with ⟨hnone, rfl⟩ | ⟨new_body, hbody', t, delta_flag, ht, rfl⟩
    · have hnone' : (EraseSF (readContainer s old_body) old_recipe.superfeature).files.lookup
          (false, new_recipe.containerName) = none := hnone
      left
      refine ⟨rfl, rfl, ?_⟩
      unfold sizesPair Ocall_OneContainer oneContainer
      simp only [hold, hbody, hnew', hnone', Option.bind_eq_bind, Option.bind_some, Option.map_some,
        Option.map_none]
      rfl
    · have hsome : (EraseSF (readContainer s old_body) old_recipe.superfeature).files.lookup
          (false, new_recipe.containerName) = some new_body := hbody'
      right
      refine ⟨old_recipe, old_body, new_recipe, new_body, t, delta_flag, hold, hbody, hnew, hbody',
        ht, rfl, ?_⟩
      unfold sizesPair Ocall_OneContainer oneContainer
      simp only [hold, hbody, hnew', hsome, Option.bind_eq_bind, Option.bind_some, Option.map_some]
      rw [Option.map_eq_bind]
      rfl

/-- A pair that takes off what is the backup's own. -/
theorem updatePair_counts (h : Stores env (Entry s.indexObj []) (hotOpens s) s R)
    (hwriter : s.writer = none) (g : Graph s.indexObj s.sfObj s.delta_index [] [] Lost)
    (hwhole : WholeIn s.indexObj old) (hkept : ¬Lost old) (hnwhole : WholeIn s.indexObj new)
    (hnkept : ¬Lost new) (hne : new ≠ old) (hs : updatePair env old new s = some s')
    (htimes : s'.con_times < 2 ^ 31) {b : Backup} (hserver : b.accounted.server = s)
    (hown : TakesOwn env b old new) (hcount : Counted s b.stored) :
    ∃ sizes, sizesPair env old new s = some sizes ∧
      NeverBelowZero s.offlineCurrBackup_size sizes ∧ Counted s' b.stored := by
  rcases sizesPair_cases hs with ⟨hindex, hsize, hsizes⟩ | ⟨old_recipe, old_body, new_recipe,
    new_body, t, delta_flag, hold, hbody, hnew, hbody', ht, hs', hsizes⟩
  · exact ⟨[], hsizes, trivial, hcount.same hindex hsize⟩
  · have hreb := pairStart_rebasing g hold hnew hwhole hkept hnwhole hnkept hne old_body new_body
    obtain ⟨hold_stored, hold_length⟩ :=
      storedBase_read h hwriter hwhole hold hbody s.tmpOcallcontainer
    obtain ⟨hnew_stored, hnew_length⟩ := storedBase_read h hwriter hnwhole hnew hbody'
      (memcpy s.tmpOcallcontainer 0 old_body)
    obtain ⟨_, hframe, _⟩ := @updateOldBase_graph env t Lost old new delta_flag
      (updateDependents_rebasing hreb ht).1 old_recipe
      (getChunkIV (memcpy s.tmpOcallcontainer 0 old_body) old_recipe)
      (baseChunk env (memcpy s.tmpOcallcontainer 0 old_body) old_recipe)
      (baseChunk env (memcpy (memcpy s.tmpOcallcontainer 0 old_body) 0 new_body) new_recipe)
    have htimes' : t.con_times < 2 ^ 31 := by
      rw [hs'] at htimes
      exact Nat.lt_of_le_of_lt hframe.times htimes
    unfold TakesOwn at hown
    rw [hserver] at hown
    obtain ⟨hmine, hdependents⟩ := hown _ hold_stored _ hnew_stored
    have hrest := recordsAre_of_stored h hwriter hdependents
    have hflag : Shrinks env (baseChunk env (memcpy s.tmpOcallcontainer 0 old_body) old_recipe)
        (baseChunk env (memcpy (memcpy s.tmpOcallcontainer 0 old_body) 0 new_body) new_recipe) →
        delta_flag = true := by
      intro hmove
      exact @updateDependents_flag env (pairStart old old_recipe new_recipe new old_body new_body s)
        _ Lost old new R ⟨h.holds, h.indexed⟩ hwriter _ _ _ hreb _ _ hnew_length ht htimes'
        fun d hd => by
          obtain ⟨r, hrec, hr, hP⟩ := hrest d hd
          exact ⟨r, hrec, hr, fun body hbody => (hP body hbody).2 hmove⟩
    obtain ⟨sizes, hdeps, hnever, hsize, hcount', hlookup, R', hstores⟩ :=
      @updateDependents_counts env (pairStart old old_recipe new_recipe new old_body new_body s) t
        b.stored R Lost old new ⟨h.holds, h.indexed⟩ hwriter _ _ _ hreb _ _ hnew_length ht htimes'
        (fun d hd => by
          obtain ⟨r, hrec, hr, hP⟩ := hrest d hd
          exact ⟨r, hrec, hr, fun body hbody => (hP body hbody).1⟩)
        (hcount.same rfl rfl)
    rw [hsizes, hdeps]
    refine ⟨_, rfl, ?_⟩
    rcases updateOldBase_sized old new old_recipe _ hflag hs' with ⟨_, hindex, hsize', hnone⟩ |
      ⟨hmove, n, e', hn, hlength, hindex, hsize', hone⟩
    · rw [hnone]
      dsimp only
      rw [List.append_nil]
      exact ⟨hnever, hcount'.same hindex hsize'⟩
    · rw [hone]
      obtain ⟨hnever', hend⟩ := hcount'.account hstores (hmine hmove) (hlookup.trans hold)
        (Nat.le_trans hn hold_length) hlength hindex hsize'
      exact ⟨hnever.append (hsize ▸ hnever'), hend⟩

end Pair

section Steps
variable {env : EnclaveEnv} {s s' : Server} {R : Records} {Lost : Fp → Prop} {a : Action}

/-- Of the steps of a session only the one that stores a chunk changes its size, and none takes an
entry away. -/
theorem Stepped.online_entry (hinv : Inv env s R Lost) (h : Stepped env s a s') (honline : Online s)
    (hstart : ∀ iv, a ≠ .startSession iv) (hpass : ∀ order, a ≠ .processOff order)
    (hstore : a ≠ .storeChunk) :
    s'.onlineBackupSize = s.onlineBackupSize ∧
      ∀ fp e, Entry s.indexObj (inflight s.phase).1 fp e →
        Entry s'.indexObj (inflight s'.phase).1 fp e := by
  cases h with
  | startSession _ => exact absurd rfl (hstart _)
  | processOff _ _ => exact absurd rfl (hpass _)
  | storeChunk _ => exact absurd rfl hstore
  | uploadChunk hphase _ =>
    refine ⟨rfl, fun fp e => ?_⟩
    rw [hphase]
    exact id
  | offlinedeltaTure hphase =>
    obtain ⟨_, _, heq⟩ := OfflinedeltaTure_frame _ _ s
    rw [heq, hphase]
    exact ⟨rfl, fun _ _ => id⟩
  | @endBatch b hphase _ =>
    obtain ⟨_, _, _, heq⟩ := finishBatch_frame b s
    rw [heq, hphase]
    exact ⟨rfl, fun _ _ => id⟩
  | @updateOutIndex b hphase =>
    obtain ⟨idx, sf, heq, hidx⟩ := hinv.registered hphase
    rw [heq, hphase]
    exact ⟨rfl, fun fp e he => Or.inl ((hidx fp e).mpr he)⟩
  | uploadRecipeEnd hphase =>
    refine ⟨rfl, fun fp e => ?_⟩
    rw [hphase]
    exact id
  | disconnect hphase =>
    obtain ⟨_, _, _, heq, _⟩ := closeSession_frame s
    rw [heq]
    rcases hphase with hphase | hphase
    · rw [hphase]
      exact ⟨rfl, fun _ _ => id⟩
    · rw [hphase]
      exact ⟨rfl, fun _ _ => id⟩
  | openFile _ _ _ => exact ⟨rfl, fun _ _ => id⟩
  | writeFile _ _ => exact ⟨rfl, fun _ _ => id⟩
  | closeFile _ _ => exact ⟨rfl, fun _ _ => id⟩
  | join hphase _ _ =>
    refine ⟨rfl, fun fp e => ?_⟩
    rw [hphase]
    exact id
  | getLocal hphase _ _ => exact absurd hphase (honline _)
  | updatePair hphase _ _ => exact absurd hphase (honline _)
  | coldrevise hphase _ _ => exact absurd hphase (honline _)
  | updateCold hphase _ _ => exact absurd hphase (honline _)
  | getMergeContainer hphase => exact absurd hphase (honline _)
  | mergePair hphase _ => exact absurd hphase (honline _)
  | endOffline hphase => exact absurd hphase (honline _)

theorem ProcessSheUniqueChunk_size {chunkAddr : RecipeEntry} {chunkBuffer : Bytes}
    (hsize : (uniqueContent env chunkAddr.deltaFlag chunkBuffer).length ≤ MAX_CHUNK_SIZE)
    (sf : SuperFeature) (fp : Fp) (s : Server) :
    (ProcessSheUniqueChunk env chunkAddr chunkBuffer sf fp s).1.onlineBackupSize =
      s.onlineBackupSize + UInt64.ofNat
        (ProcessSheUniqueChunk env chunkAddr chunkBuffer sf fp s).2.length.toNat := by
  have hsaved : ∀ (d : Bool) (content : Bytes) (chunkAddr : RecipeEntry) (s : Server),
      (saveChunk d content chunkAddr sf fp s).1.onlineBackupSize = s.onlineBackupSize := by
    intro d content chunkAddr s
    obtain ⟨q, o, t, hs, _⟩ := saveChunk_frame d content chunkAddr sf fp s
    rw [hs]
  have hsmall : MAX_CHUNK_SIZE < 2 ^ 32 := by decide
  have hlength : (UInt32.ofNat (env.EncryptWithKeyIV (PickNewIV s.iv)
      (uniqueContent env chunkAddr.deltaFlag chunkBuffer)).length).toNat =
      (uniqueContent env chunkAddr.deltaFlag chunkBuffer).length := by
    rw [env.EncryptWithKeyIV_length, UInt32.toNat_ofNat', Nat.mod_eq_of_lt (by omega)]
  unfold ProcessSheUniqueChunk SavebaseChunk SavedeltaChunk
  dsimp only
  split
  · rw [hsaved, ← hlength]
    rfl
  · rw [hsaved, ← hlength]
    rfl

/-- A stored chunk is new, and its size is added. -/
theorem stored_counts (hinv : Inv env s R Lost) {x : QueryEntry} {b : Batch}
    (hphase : s.phase = .uploading (.loaded x b)) (h : Stepped env s .storeChunk s') :
    (∀ e, ¬Entry s.indexObj (inflight s.phase).1 x.chunkHash e) ∧
      (∀ fp e, Entry s.indexObj (inflight s.phase).1 fp e →
        Entry s'.indexObj (inflight s'.phase).1 fp e) ∧
      (∃ e, Entry s'.indexObj (inflight s'.phase).1 x.chunkHash e ∧
        s'.onlineBackupSize = s.onlineBackupSize + UInt64.ofNat e.length.toNat) ∧
      filled s + RECORD_OVERHEAD ≤ filled s' ∧ ∃ stage, s'.phase = .uploading stage := by
  cases h with
  | @storeChunk x' b' hphase' =>
    have hsame : x = x' ∧ b = b' := by
      rw [hphase] at hphase'
      simpa using hphase'
    obtain ⟨rfl, rfl⟩ := hsame
    obtain ⟨_, _, hstage⟩ := hinv.at hphase
    cases hstage with
    | loaded _ _ batch =>
      have haddr := (batch.loaded x List.mem_cons_self).1
      have hmem : x ∈ batchEntries b [x] := by
        unfold batchEntries
        simp
      obtain ⟨hpos, hmax⟩ := batch.size x hmem
      obtain ⟨_, _, _, _, heq, _⟩ := storeChunk_frame env x s
      have hindex : (storeChunk env x s).2.2.indexObj = s.indexObj := by rw [heq]
      have hstored : (storeChunk env x s).1.chunkHash = x.chunkHash ∧
          (storeChunk env x s).2.2.onlineBackupSize =
            s.onlineBackupSize + UInt64.ofNat (storeChunk env x s).1.chunkAddr.length.toNat := by
        rcases storeChunk_cases haddr s with hcase | ⟨_, hshort, hcase⟩
        · rw [hcase]
          refine ⟨rfl, ProcessSheUniqueChunk_size ?_ _ _ _⟩
          exact Nat.le_trans (uniqueContent_length hpos).2 hmax
        · rw [hcase]
          refine ⟨rfl, ProcessSheUniqueChunk_size ?_ _ _ _⟩
          have hdelta : DELTA ≠ NO_DELTA := by decide
          unfold uniqueContent
          rw [if_neg hdelta]
          omega
      rw [hphase]
      refine ⟨?_, ?_, ⟨_, Or.inr ⟨_, List.mem_append_right _ (List.mem_singleton_self _),
        hstored.1, rfl⟩, hstored.2⟩, storeChunk_filled hinv hphase x, _, rfl⟩
      · rintro e (he | ⟨y, hy, hhash, _⟩)
        · rw [batch.fresh x hmem] at he
          simp at he
        · have hnodup := batch.nodup
          unfold batchEntries at hnodup
          rw [List.map_append] at hnodup
          refine (List.nodup_append.mp hnodup).2.2 _ (List.mem_map_of_mem hy) x.chunkHash ?_ hhash
          exact List.mem_map_of_mem List.mem_cons_self
      · rintro fp e (he | ⟨y, hy, hy'⟩)
        · exact Or.inl (hindex.symm ▸ he)
        · exact Or.inr ⟨y, List.mem_append_left _ hy, hy'⟩

end Steps

section Law
variable {env : EnclaveEnv} {b b' : Backup} {R : Records} {Lost : Fp → Prop} {event : SessionEvent}

/-- What the counter stands for: before a pass the bytes that the session has stored, from then on
the size of its chunks. -/
inductive SizeOk (b : Backup) : Prop
  | closed (session : b.accounted.session = .closed) (idle : b.accounted.server.phase = .idle)
  | running {optType : OptType} {len : Fp → Nat}
    (session : b.accounted.session = .running optType false) (online : Online b.accounted.server)
    (nodup : b.stored.Nodup)
    (entry : ∀ fp ∈ b.stored, ∃ e,
      Entry b.accounted.server.indexObj (inflight b.accounted.server.phase).1 fp e ∧
        e.length.toNat = len fp)
    (size : b.accounted.server.onlineBackupSize = UInt64.ofNat (b.stored.map len).sum)
    (few : b.stored.length ≤ 2 ^ 47)
    (room : b.stored.length * RECORD_OVERHEAD ≤ filled b.accounted.server)
  | passed (session : b.accounted.session = .running .OFFLINE_OPT true)
    (after : Afterwards b.accounted.server) (count : Counted b.accounted.server b.stored)

/-- The step of a pair. -/
theorem updatePair_sizes (hinv : Inv env b.accounted.server R Lost) {old : Fp} {s : Server}
    (hs : step env b.accounted.server (.updatePair old) = some s)
    (hok : SizeKept env b (.server (.updatePair old)))
    (hcount : Counted b.accounted.server b.stored) :
    Afterwards s ∧ Counted s b.stored ∧ ∃ new sizes,
      b.accounted.server.local_basemap.lookup old = some new ∧
      sizes_Easy_update_pair env old new b.accounted.server = some sizes ∧
      NeverBelowZero b.accounted.server.offlineCurrBackup_size sizes := by
  obtain ⟨hstepped, htimes⟩ := step_stepped hs
  cases hstepped with
  | @updatePair _ new t hphase hpair ht =>
    obtain ⟨hgraph, hstores, hstage⟩ := hinv.at hphase
    cases hstage with
    | update pass remaining =>
      have hrem : Rem b.accounted.server.local_basemap b.accounted.server.local_map old new :=
        Or.inl hpair
      obtain ⟨hwhole, hkept⟩ := remaining.old hrem
      obtain ⟨hnwhole, hnkept⟩ := remaining.new hrem
      have hne := remaining.apart hrem hrem
      obtain ⟨_, _, _, hframe, _⟩ :=
        Easy_update_pair_graph hgraph hwhole hkept hnwhole hnkept hne ht
      refine ⟨Or.inr ⟨.update, hframe.phase.trans hphase⟩, ?_⟩
      unfold sizes_Easy_update_pair
      unfold Easy_update_pair at ht
      by_cases hsize : b.accounted.server.offlineCurrBackup_size = 0
      · rw [if_pos hsize] at ht
        unfold greedyPair at ht
        obtain ⟨old_recipe, _, ht⟩ := Option.bind_eq_some_iff.mp ht
        obtain ⟨new_recipe, _, ht⟩ := Option.bind_eq_some_iff.mp ht
        rw [← Option.some.inj ht]
        exact ⟨hcount.same rfl rfl, new, [], hpair, if_pos hsize, trivial⟩
      · rw [if_neg hsize] at ht
        have hown := hok.resolve_left hsize new hpair
        obtain ⟨sizes, hsizes, hnever, hcount'⟩ := updatePair_counts hstores pass.writer hgraph
          hwhole hkept hnwhole hnkept hne ht htimes rfl hown hcount
        exact ⟨hcount'.same rfl rfl, new, sizes, hpair, (if_neg hsize).trans hsizes, hnever⟩

/-- A chunk is stored in a session. -/
theorem SizeOk.store (h : SizeOk b) (hinv : Inv env b.accounted.server R Lost) {x : QueryEntry}
    {batch : Batch} {s : Server} (hphase : b.accounted.server.phase = .uploading (.loaded x batch))
    (hs : step env b.accounted.server .storeChunk = some s) {R' : Records} {Lost' : Fp → Prop}
    (hinv' : Inv env s R' Lost') (online : ChunkStatistics) :
    SizeOk ⟨{ b.accounted with
      server := s
      online := online }, b.stored ++ [x.chunkHash]⟩ := by
  cases h with
  | closed _ idle => simp [hphase] at idle
  | passed _ after _ =>
    rcases after with hidle | ⟨stage, hstage⟩
    · simp [hphase] at hidle
    · simp [hphase] at hstage
  | @running optType len session honline nodup entry size few room =>
    obtain ⟨hstepped, htimes⟩ := step_stepped hs
    obtain ⟨hfresh, hentry, ⟨e, he, hsize⟩, hfilled, stage, hstage⟩ :=
      stored_counts hinv hphase hstepped
    have hnew : x.chunkHash ∉ b.stored := by
      intro hmem
      obtain ⟨e, he, _⟩ := entry _ hmem
      exact hfresh e he
    have hroom : (b.stored ++ [x.chunkHash]).length * RECORD_OVERHEAD ≤ filled s := by
      rw [List.length_append, List.length_singleton, Nat.succ_mul]
      omega
    refine @SizeOk.running ⟨{ b.accounted with
      server := s
      online := online }, b.stored ++ [x.chunkHash]⟩ optType
      (Function.update len x.chunkHash e.length.toNat) session
      (stored_tally hinv hphase hstepped).1 ?_ ?_ ?_ ?_ hroom
    · rw [List.nodup_append]
      refine ⟨nodup, List.nodup_singleton _, ?_⟩
      rintro fp hfp y hy rfl
      rw [List.mem_singleton.mp hy] at hfp
      exact hnew hfp
    · intro fp hfp
      by_cases heq : fp = x.chunkHash
      · rw [heq, Function.update_self]
        exact ⟨e, he, rfl⟩
      · have hmem : fp ∈ b.stored := by
          rcases List.mem_append.mp hfp with hmem | hmem
          · exact hmem
          · exact absurd (List.mem_singleton.mp hmem) heq
        obtain ⟨e', he', hlength⟩ := entry fp hmem
        rw [Function.update_of_ne heq]
        exact ⟨e', hentry fp e' he', hlength⟩
    · have hsame : b.stored.map (Function.update len x.chunkHash e.length.toNat) =
          b.stored.map len := by
        apply List.map_congr_left
        intro fp hfp
        rw [Function.update_of_ne]
        rintro rfl
        exact hnew hfp
      dsimp only
      rw [hsize, size, List.map_append, hsame, List.sum_append, UInt64.ofNat_add]
      simp
    · have hlt := hinv'.filled_lt hstage htimes
      have hover : 2 ^ 7 ≤ RECORD_OVERHEAD := by decide
      have hmul := Nat.mul_le_mul_left (b.stored ++ [x.chunkHash]).length hover
      dsimp only
      omega

theorem SizeOk.start (Forward_Flag Offline_Flag : Bool) :
    SizeOk (Backup.start Forward_Flag Offline_Flag) := .closed rfl rfl

/-- The pass of a session starts from its bytes. -/
theorem startOffline_counts {s : Server} {stored : List Fp} {len : Fp → Nat}
    (hphase : s.phase = .idle) (nodup : stored.Nodup)
    (entry : ∀ fp ∈ stored, ∃ e, Entry s.indexObj (inflight s.phase).1 fp e ∧ e.length.toNat = len fp)
    (size : s.onlineBackupSize = UInt64.ofNat (stored.map len).sum) (few : stored.length ≤ 2 ^ 47)
    (order : List (Fp × Fp)) :
    Afterwards (startOffline order s) ∧ Counted (startOffline order s) stored := by
  have hsame : stored.map len = stored.map (lengthOf s.indexObj) := by
    apply List.map_congr_left
    intro fp hfp
    obtain ⟨e, he, hlength⟩ := entry fp hfp
    rw [hphase] at he
    rw [lengthOf_eq ((entry_lookup _ _ _).mp he), hlength]
  rw [hsame] at size
  unfold startOffline
  dsimp only
  split
  · exact ⟨Or.inr ⟨_, rfl⟩, nodup, few, size⟩
  · exact ⟨Or.inl hphase, nodup, few, size⟩

theorem SizeOk.step (h : SizeOk b) (hinv : Inv env b.accounted.server R Lost)
    (hok : SizeKept env b event) {c : Accounted} (hstep : AccountedStep env b.accounted event c) :
    SizeOk ⟨c, storedNext b event⟩ := by
  obtain ⟨R', Lost', hinv'⟩ := hinv.accounted hstep
  cases hstep with
  | @accept optType iv s hsession hs =>
    cases h with
    | closed _ idle =>
      have honline : Online b.accounted.server := Online.of_eq idle (by simp)
      obtain ⟨hstepped, _⟩ := step_stepped hs
      obtain ⟨honline', _⟩ := hstepped.online_tally hinv honline (by simp) (by simp)
      cases hstepped with
      | startSession _ =>
        exact @SizeOk.running _ optType (fun _ => 0) rfl honline' List.nodup_nil
          (by simp [storedNext]) rfl (Nat.zero_le _) (by simp [storedNext])
    | running session _ _ _ _ _ _ => simp [hsession] at session
    | passed session _ _ => simp [hsession] at session
  | @processOff order s hsession hs =>
    cases h with
    | closed session _ => simp [hsession] at session
    | running _ _ nodup entry size few _ =>
      obtain ⟨hstepped, _⟩ := step_stepped hs
      cases hstepped with
      | processOff hphase _ =>
        obtain ⟨hafter, hcount⟩ := startOffline_counts hphase nodup entry size few order
        exact .passed rfl hafter hcount
    | passed session _ _ => simp [hsession] at session
  | @storeChunk x batch s hphase hs =>
    have hnext : storedNext b (.server .storeChunk) = b.stored ++ [x.chunkHash] := by
      unfold storedNext
      rw [hphase]
    rw [hnext]
    exact h.store hinv hphase hs hinv' _
  | @updatePair old new s offline hpair hcount hs =>
    cases h with
    | closed _ idle =>
      cases (step_stepped hs).1 with
      | updatePair hphase _ _ => simp [hphase] at idle
    | running _ online _ _ _ _ _ =>
      cases (step_stepped hs).1 with
      | updatePair hphase _ _ => exact absurd hphase (online _)
    | passed session _ count =>
      obtain ⟨hafter, hend, _⟩ := updatePair_sizes hinv hs hok count
      exact .passed session hafter hend
  | @other a s hstart hprocess hstore hpair hs =>
    have hnext : storedNext b (.server a) = b.stored := by
      cases a with
      | storeChunk => exact absurd rfl hstore
      | _ => rfl
    rw [hnext]
    obtain ⟨hstepped, _⟩ := step_stepped hs
    cases h with
    | closed _ idle =>
      rcases hstepped.of_idle idle with ⟨iv, ha⟩ | ⟨order, ha⟩
      · exact absurd ha (hstart iv)
      · exact absurd ha (hprocess order)
    | running session online nodup entry size few room =>
      obtain ⟨honline, _⟩ := hstepped.online_tally hinv online hprocess hstore
      obtain ⟨hsize, hentry⟩ := hstepped.online_entry hinv online hstart hprocess hstore
      refine .running session honline nodup ?_ (hsize.trans size) few
        (Nat.le_trans room (filled_step hinv hs hstart))
      intro fp hfp
      obtain ⟨e, he, hlength⟩ := entry fp hfp
      exact ⟨e, hentry fp e he, hlength⟩
    | passed session after count =>
      obtain ⟨hafter, hsize, hshape⟩ := hstepped.pass_shape hinv after hstart hprocess hpair
      refine .passed session hafter ⟨count.nodup, count.few, ?_⟩
      have hlength : lengthOf s.indexObj = lengthOf b.accounted.server.indexObj := by
        funext fp
        have hmap := congrArg (Option.map fun p : Shape => p.2.toNat) (hshape fp)
        rw [Option.map_map, Option.map_map] at hmap
        exact congrArg (fun o => o.getD 0) hmap
      dsimp only
      rw [hsize, hlength]
      exact count.size
  | updateOnlineInfo _ hphase => exact .closed rfl hphase

/-- Nothing goes below zero at a pair whose sizes are the session's own. -/
theorem SizeOk.stands (h : SizeOk b) (hinv : Inv env b.accounted.server R Lost)
    (hok : SizeKept env b event) : SizeStands env b event := by
  unfold SizeStands
  split
  case h_2 => trivial
  case h_1 old =>
    intro hstep new hnew sizes hsizes
    obtain ⟨s, hs⟩ := Option.ne_none_iff_exists'.mp hstep
    cases h with
    | closed _ idle =>
      cases (step_stepped hs).1 with
      | updatePair hphase _ _ => simp [hphase] at idle
    | running _ online _ _ _ _ _ =>
      cases (step_stepped hs).1 with
      | updatePair hphase _ _ => exact absurd hphase (online _)
    | passed _ _ count =>
      obtain ⟨_, _, new', sizes', hnew', hsizes', hnever⟩ := updatePair_sizes hinv hs hok count
      have hsame : new' = new := Option.some.inj (hnew'.symm.trans hnew)
      rw [hsame] at hsizes'
      have hsame' : sizes' = sizes := Option.some.inj (hsizes'.symm.trans hsizes)
      rw [← hsame']
      exact hnever

end Law

end ShieldReduce.Prototype
