import ShieldReduce.Prototype.DeltaIndex

/-!
# The steps of a batch

What the queries, `OfflinedeltaTure` and the rest of the chunk loop do to the entries of a batch,
and what the end of `ProcessOneBatch` does to the pending maps.
-/

namespace ShieldReduce.Prototype
open Lib Store EDelta

section Query
variable {env : EnclaveEnv} {s : Server}

theorem outQueries_spec (heap : Fp → Bool) (left : Nat → RecipeEntry) (i : Nat)
    (localIndex : List Fp) (chunks : List Bytes) :
    (∀ x ∈ outQueries env heap left i localIndex chunks,
      x.chunk ∈ chunks ∧ x.inHash = env.GenerateHash x.chunk ∧ x.inHash ∉ localIndex ∧
        x.chunkHash = env.IndexAESCMCEnc x.inHash ∧ x.deltaFlag = NO_DELTA ∧
        x.offlineFlag = false ∧ x.chunkAddr.deltaFlag = NO_DELTA) ∧
      ((outQueries env heap left i localIndex chunks).map QueryEntry.inHash).Nodup := by
  induction chunks generalizing i localIndex with
  | nil => simp [outQueries]
  | cons chunk chunks ih =>
    unfold outQueries
    by_cases hlocal : env.GenerateHash chunk ∈ localIndex
    · rw [if_pos hlocal]
      obtain ⟨hall, hnodup⟩ := ih (i + 1) localIndex
      exact ⟨fun x hx => ⟨List.mem_cons_of_mem chunk (hall x hx).1, (hall x hx).2⟩, hnodup⟩
    · rw [if_neg hlocal]
      obtain ⟨hall, hnodup⟩ := ih (i + 1) (env.GenerateHash chunk :: localIndex)
      have hrest : ∀ x ∈ outQueries env heap left (i + 1) (env.GenerateHash chunk :: localIndex) chunks,
          x.chunk ∈ chunk :: chunks ∧ x.inHash = env.GenerateHash x.chunk ∧ x.inHash ∉ localIndex ∧
            x.chunkHash = env.IndexAESCMCEnc x.inHash ∧ x.deltaFlag = NO_DELTA ∧
            x.offlineFlag = false ∧ x.chunkAddr.deltaFlag = NO_DELTA := by
        intro x hx
        obtain ⟨h1, h2, h3, h4⟩ := hall x hx
        exact ⟨List.mem_cons_of_mem chunk h1, h2, fun h => h3 (List.mem_cons_of_mem _ h), h4⟩
      by_cases hheap : heap (env.GenerateHash chunk) = true
      · rw [if_pos hheap]
        exact ⟨hrest, hnodup⟩
      · rw [if_neg hheap]
        refine ⟨?_, ?_⟩
        · intro x hx
          rcases List.mem_cons.mp hx with rfl | hx
          · exact ⟨by simp, rfl, hlocal, rfl, rfl, rfl, rfl⟩
          · exact hrest x hx
        · rw [List.map_cons, List.nodup_cons]
          refine ⟨?_, hnodup⟩
          intro hmem
          obtain ⟨x, hx, heq⟩ := List.mem_map.mp hmem
          apply (hall x hx).2.2.1
          rw [heq]
          simp

theorem Ocall_QueryOutBasechunk_spec (s : Server) (x : QueryEntry) :
    Ocall_QueryOutBasechunk s x = x ∨
      ∃ b, QuerySF s x.superfeature = some b ∧ Ocall_QueryOutBasechunk s x =
        { x with
          basechunkHash := b
          deltaFlag := OUT_DELTA
          basechunkAddr := (s.indexObj.lookup b).getD x.basechunkAddr
          chunkAddr := { x.chunkAddr with basechunkHash := b } } := by
  unfold Ocall_QueryOutBasechunk
  cases h : QuerySF s x.superfeature with
  | none => exact Or.inl rfl
  | some b => exact Or.inr ⟨b, rfl, rfl⟩

/-- The queries leave the chunks that nobody has, each with a posted base or none. -/
theorem queryBatch_ok (hposted : ∀ {fp}, Posted s.sfObj fp → s.indexObj.lookup fp ≠ none)
    {chunks : List Bytes} (hsize : ∀ c ∈ chunks, 1 ≤ c.length ∧ c.length ≤ MAX_CHUNK_SIZE)
    (heap : Fp → Bool) (left : Nat → RecipeEntry) :
    BatchOk s.indexObj s.sfObj (queryBatch env chunks heap left s) [] := by
  obtain ⟨hall, hnodup⟩ := @outQueries_spec env heap left 0 [] chunks
  -- what every entry of the batch is, from the query it was answered from
  have hentry : ∀ x ∈ (queryBatch env chunks heap left s).todo,
      s.indexObj.lookup x.chunkHash = none ∧ x.chunk ∈ chunks ∧
        x.chunkAddr.deltaFlag = NO_DELTA ∧ x.offlineFlag = false ∧
        (x.deltaFlag = NO_DELTA ∨ (x.deltaFlag = OUT_DELTA ∧ Based s.indexObj s.sfObj x)) := by
    intro x hx
    obtain ⟨y, hy, rfl⟩ := List.mem_map.mp hx
    obtain ⟨hmem, huniq⟩ := List.mem_filter.mp hy
    obtain ⟨q, hq, rfl⟩ := List.mem_map.mp hmem
    obtain ⟨hchunk, _, _, _, hflag, hoff, haddr⟩ := hall q hq
    have hnone : s.indexObj.lookup q.chunkHash = none := by
      cases hlook : s.indexObj.lookup q.chunkHash with
      | none => rfl
      | some e => simp [Ocall_QueryOutIndex, hlook] at huniq
    have hout : Ocall_QueryOutIndex s q = { q with dedupFlag := .UNIQUE } := by
      unfold Ocall_QueryOutIndex
      rw [hnone]
    rw [hout]
    rcases Ocall_QueryOutBasechunk_spec s { q with dedupFlag := .UNIQUE } with heq | ⟨b, hb, heq⟩
    · rw [heq]
      exact ⟨hnone, hchunk, haddr, hoff, Or.inl hflag⟩
    · rw [heq]
      have hpost := QuerySF_posted hb
      obtain ⟨e, he⟩ := Option.ne_none_iff_exists'.mp (hposted hpost)
      exact ⟨hnone, hchunk, haddr, hoff, Or.inr ⟨rfl, hpost, by simp [he], rfl⟩⟩
  have hhashes : (queryBatch env chunks heap left s).todo.map QueryEntry.chunkHash =
      (((outQueries env heap left 0 [] chunks).map (Ocall_QueryOutIndex s)).filter
        fun x => x.dedupFlag = .UNIQUE).map QueryEntry.chunkHash := by
    unfold queryBatch
    dsimp only
    rw [List.map_map]
    apply List.map_congr_left
    intro x _
    rcases Ocall_QueryOutBasechunk_spec s x with heq | ⟨b, _, heq⟩
    · exact congrArg QueryEntry.chunkHash heq
    · change (Ocall_QueryOutBasechunk s x).chunkHash = x.chunkHash
      rw [heq]
  have hquery : ((outQueries env heap left 0 [] chunks).map (Ocall_QueryOutIndex s)).map
      QueryEntry.chunkHash =
      ((outQueries env heap left 0 [] chunks).map QueryEntry.inHash).map env.IndexAESCMCEnc := by
    rw [List.map_map, List.map_map]
    apply List.map_congr_left
    intro q hq
    have hhash := (hall q hq).2.2.2.1
    change (Ocall_QueryOutIndex s q).chunkHash = env.IndexAESCMCEnc q.inHash
    rw [← hhash]
    unfold Ocall_QueryOutIndex
    split <;> rfl
  have hdistinct : ((queryBatch env chunks heap left s).todo.map QueryEntry.chunkHash).Nodup := by
    rw [hhashes]
    apply List.Nodup.sublist (List.filter_sublist.map _)
    rw [hquery]
    exact hnodup.map fun _ _ h => env.IndexAESCMCEnc_injective h
  refine ⟨fun x hx => (hentry x hx).1, hdistinct, fun x hx => hsize _ (hentry x hx).2.1, ?_, ?_,
    by simp, by simp [queryBatch], by simp [queryBatch], fun _ x hx => (hentry x hx).2.2.2.1,
    rfl, rfl⟩
  · intro x hx hbase
    obtain ⟨_, _, _, hoff, hflag⟩ := hentry x hx
    rcases hflag with hflag | ⟨_, hbased⟩
    · rw [hflag, hoff] at hbase
      simp at hbase
    · exact hbased
  · intro x hx
    obtain ⟨_, _, haddr, hoff, hflag⟩ := hentry x hx
    exact ⟨haddr, hflag.imp id And.left, hoff⟩

end Query

section Loop
variable {env : EnclaveEnv} {s : Server}

/-- `OfflinedeltaTure` decides between a base chunk, a deferred one and a delta. -/
theorem OfflinedeltaTure_spec (Local_Flag : Bool) {x : QueryEntry} (s : Server)
    (hflag : x.deltaFlag = NO_DELTA ∨ x.deltaFlag = OUT_DELTA) (hoff : x.offlineFlag = false)
    (hhash : x.deltaFlag ≠ NO_DELTA → x.chunkAddr.basechunkHash = x.basechunkHash) :
    ∃ f o c t cb pair, OfflinedeltaTure Local_Flag x s =
        ({ x with
            deltaFlag := f
            offlineFlag := o
            containerbuffer := cb }, pair,
          { s with
            inCache := c
            tmpOcallcontainer := t }) ∧
      ((f = NO_DELTA ∧ o = false ∧ pair = none) ∨
        (f = NO_DELTA ∧ o = true ∧ Local_Flag = true ∧ x.deltaFlag = OUT_DELTA ∧
          pair = some (basePair x)) ∨
        (f = DELTA ∧ o = false ∧ Local_Flag = false ∧ x.deltaFlag = OUT_DELTA ∧ pair = none)) := by
  have hne : OUT_DELTA ≠ NO_DELTA := by decide
  by_cases hnever : neverDelta x.inHash = true
  · refine ⟨NO_DELTA, false, s.inCache, s.tmpOcallcontainer, x.containerbuffer, none, ?_,
      Or.inl ⟨rfl, rfl, rfl⟩⟩
    unfold OfflinedeltaTure
    rw [if_pos hnever, ← hoff]
  · by_cases hout : x.deltaFlag = OUT_DELTA
    · have hself : { x.chunkAddr with basechunkHash := x.basechunkHash } = x.chunkAddr := by
        rw [← hhash (by rw [hout]; exact hne)]
      by_cases hlocal : Local_Flag = true
      · refine ⟨NO_DELTA, true, s.inCache, s.tmpOcallcontainer, x.containerbuffer,
          some (basePair x), ?_, Or.inr (Or.inl ⟨rfl, rfl, hlocal, hout, rfl⟩)⟩
        unfold OfflinedeltaTure
        rw [if_neg hnever, if_pos hout, if_pos hlocal]
        rfl
      · have hfalse : Local_Flag = false := by simpa using hlocal
        unfold OfflinedeltaTure
        rw [if_neg hnever, if_pos hout, if_neg hlocal]
        cases hcache : ReadFromCache x.basechunkAddr.containerName s with
        | some p =>
          obtain ⟨cb, s₁⟩ := p
          have hframe : ∃ c, s₁ = { s with inCache := c } := by
            unfold ReadFromCache at hcache
            cases hfind : s.inCache.find? (fun c => c.1 = x.basechunkAddr.containerName) with
            | none => simp [hfind] at hcache
            | some c =>
              simp only [hfind, Option.some.injEq, Prod.mk.injEq] at hcache
              exact ⟨_, hcache.2.symm⟩
          obtain ⟨c, rfl⟩ := hframe
          refine ⟨DELTA, false, c, s.tmpOcallcontainer, cb, none, ?_,
            Or.inr (Or.inr ⟨rfl, rfl, hfalse, hout, rfl⟩)⟩
          dsimp only
          rw [hself, ← hoff]
        | none =>
          dsimp only
          cases href : Ocall_getRefContainer x.basechunkAddr.containerName s with
          | none =>
            refine ⟨NO_DELTA, false, s.inCache, s.tmpOcallcontainer, x.containerbuffer, none, ?_,
              Or.inl ⟨rfl, rfl, rfl⟩⟩
            dsimp only
            rw [← hoff]
          | some s₁ =>
            obtain ⟨body, _, rfl⟩ := Option.map_eq_some_iff.mp href
            refine ⟨DELTA, false,
              (x.basechunkAddr.containerName, (readContainer s body).tmpOcallcontainer) ::
                s.inCache.take (Cachesize - 1), (readContainer s body).tmpOcallcontainer,
              (readContainer s body).tmpOcallcontainer, none, ?_,
              Or.inr (Or.inr ⟨rfl, rfl, hfalse, hout, rfl⟩)⟩
            dsimp only
            rw [hself, ← hoff]
            rfl
    · have hno : x.deltaFlag = NO_DELTA := hflag.resolve_right hout
      refine ⟨NO_DELTA, false, s.inCache, s.tmpOcallcontainer, x.containerbuffer, none, ?_,
        Or.inl ⟨rfl, rfl, rfl⟩⟩
      unfold OfflinedeltaTure
      rw [if_neg hnever, if_neg hout, ← hno, ← hoff]

/-- `OfflinedeltaTure` touches the cache and the scratch buffer only. -/
theorem OfflinedeltaTure_frame (Local_Flag : Bool) (x : QueryEntry) (s : Server) :
    ∃ c t, (OfflinedeltaTure Local_Flag x s).2.2 =
      { s with
        inCache := c
        tmpOcallcontainer := t } := by
  unfold OfflinedeltaTure
  split
  · exact ⟨_, _, rfl⟩
  · split
    · split
      · exact ⟨_, _, rfl⟩
      · cases hcache : ReadFromCache x.basechunkAddr.containerName s with
        | some p =>
          obtain ⟨cb, s₁⟩ := p
          unfold ReadFromCache at hcache
          cases hfind : s.inCache.find? (fun c => c.1 = x.basechunkAddr.containerName) with
          | none => simp [hfind] at hcache
          | some c =>
            simp only [hfind, Option.some.injEq, Prod.mk.injEq] at hcache
            rw [← hcache.2]
            exact ⟨_, _, rfl⟩
        | none =>
          cases href : Ocall_getRefContainer x.basechunkAddr.containerName s with
          | none => exact ⟨_, _, rfl⟩
          | some s₁ =>
            obtain ⟨body, _, rfl⟩ := Option.map_eq_some_iff.mp href
            exact ⟨_, _, rfl⟩
    · exact ⟨_, _, rfl⟩

/-- The end of a batch touches the delta index and the pending maps only. -/
theorem finishBatch_frame (b : Batch) (s : Server) :
    ∃ di tmp skip, finishBatch b s =
      { s with
        delta_index := di
        local_tmp_map := tmp
        skipMap := skip } := by
  have hlocal : ∀ (pairs : List (Fp × Fp)) (s : Server), ∃ tmp skip, Ocall_LocalInsert pairs s =
      { s with
        local_tmp_map := tmp
        skipMap := skip } := by
    intro pairs
    induction pairs with
    | nil => exact fun s => ⟨_, _, rfl⟩
    | cons p pairs ih =>
      intro s
      obtain ⟨tmp, skip, heq⟩ := ih (localInsert s p)
      exact ⟨tmp, skip, heq⟩
  unfold finishBatch
  split
  · obtain ⟨tmp, skip, heq⟩ := hlocal b.batch_basemap s
    rw [heq]
    exact ⟨_, tmp, skip, rfl⟩
  · obtain ⟨di, heq, _⟩ := Ocall_UpdateDeltaIndex_spec s b.process_buffer
    rw [heq]
    exact ⟨di, _, _, rfl⟩

/-- The rest of the chunk loop stores the chunk itself or a shorter delta. -/
theorem storeChunk_cases {x : QueryEntry} (haddr : x.chunkAddr.deltaFlag = NO_DELTA) (s : Server) :
    storeChunk env x s =
      (let stored := ProcessSheUniqueChunk env x.chunkAddr x.chunk x.superfeature x.chunkHash s
       ({ x with
          deltaFlag := NO_DELTA
          chunkAddr := stored.2 }, none, stored.1)) ∨
    (x.deltaFlag = DELTA ∧
      (EDeltaEncode env.edelta x.chunk (refChunk env x)).length < x.chunk.length ∧
      storeChunk env x s =
        let stored := ProcessSheUniqueChunk env { x.chunkAddr with deltaFlag := DELTA }
          (EDeltaEncode env.edelta x.chunk (refChunk env x)) x.superfeature x.chunkHash s
        ({ x with
            deltaFlag := DELTA
            chunkAddr := stored.2 }, some (basePair x), stored.1)) := by
  have hne : NO_DELTA ≠ DELTA := by decide
  have hself : { x.chunkAddr with deltaFlag := NO_DELTA } = x.chunkAddr := by rw [← haddr]
  unfold storeChunk
  by_cases hdelta : x.deltaFlag = DELTA
  · rw [if_pos hdelta]
    unfold ProcessDeltachunk
    dsimp only
    by_cases hlen : x.chunk.length ≤ (EDeltaEncode env.edelta x.chunk (refChunk env x)).length
    · left
      simp only [if_pos hlen, hself, if_neg hne]
    · right
      refine ⟨hdelta, by omega, ?_⟩
      simp only [if_neg hlen, hdelta, if_pos]
      rfl
  · left
    rw [if_neg hdelta]
    dsimp only
    rw [haddr, if_neg hne]

end Loop

section Batch
variable {indexObj : FpIndex} {sfObj : SfIndex}

theorem forall_replace {P : QueryEntry → Prop} {a b : List QueryEntry} {x x' : QueryEntry}
    (h : ∀ y ∈ a ++ x :: b, P y) (hx : P x → P x') : ∀ y ∈ a ++ x' :: b, P y := by
  intro y hy
  rcases List.mem_append.mp hy with hy | hy
  · exact h y (List.mem_append_left _ hy)
  · rcases List.mem_cons.mp hy with rfl | hy
    · exact hx (h x (by simp))
    · exact h y (List.mem_append_right _ (List.mem_cons_of_mem x hy))

/-- `OfflinedeltaTure` takes the next entry. -/
theorem BatchOk.load {Local_Flag : Bool} {x x' : QueryEntry} {todo done : List QueryEntry}
    {process_buffer batch_basemap : List (Fp × Fp)} {f : UInt8} {o : Bool} {cb : Bytes}
    {pair : Option (Fp × Fp)}
    (h : BatchOk indexObj sfObj ⟨Local_Flag, x :: todo, done, process_buffer, batch_basemap⟩ [])
    (hx' : x' = { x with
      deltaFlag := f
      offlineFlag := o
      containerbuffer := cb })
    (hcases : (f = NO_DELTA ∧ o = false ∧ pair = none) ∨
      (f = NO_DELTA ∧ o = true ∧ Local_Flag = true ∧ x.deltaFlag = OUT_DELTA ∧
        pair = some (basePair x)) ∨
      (f = DELTA ∧ o = false ∧ Local_Flag = false ∧ x.deltaFlag = OUT_DELTA ∧ pair = none)) :
    BatchOk indexObj sfObj
      ⟨Local_Flag, todo, done, process_buffer, batch_basemap ++ pair.toList⟩ [x'] := by
  have hne : OUT_DELTA ≠ NO_DELTA := by decide
  obtain ⟨haddr, _, hoff⟩ := h.todo x (by simp)
  have hbased : x.deltaFlag = OUT_DELTA → Based indexObj sfObj x' := by
    intro hout
    have hb := h.base x (by simp [batchEntries]) (Or.inl (by rw [hout]; exact hne))
    rw [hx']
    exact ⟨hb.posted, hb.addr, hb.hash⟩
  have hall : ∀ {P : QueryEntry → Prop},
      (∀ y ∈ batchEntries ⟨Local_Flag, x :: todo, done, process_buffer, batch_basemap⟩ [], P y) →
      (P x → P x') → ∀ y ∈ batchEntries
        ⟨Local_Flag, todo, done, process_buffer, batch_basemap ++ pair.toList⟩ [x'], P y :=
    fun hy hxx => forall_replace hy hxx
  refine ⟨?_, ?_, ?_, ?_, ?_, ?_, h.done, ?_, ?_, h.pairs, ?_⟩
  · apply hall h.fresh
    rw [hx']
    exact id
  · have hnodup := h.nodup
    simp only [batchEntries, List.map_append, List.map_cons] at hnodup ⊢
    rw [hx']
    exact hnodup
  · apply hall h.size
    rw [hx']
    exact id
  · apply hall h.base
    intro _ hy
    rcases hcases with ⟨hf, ho, _⟩ | ⟨_, _, _, hout, _⟩ | ⟨_, _, _, hout, _⟩
    · rw [hx'] at hy
      simp [hf, ho] at hy
    · exact hbased hout
    · exact hbased hout
  · exact fun y hy => h.todo y (List.mem_cons_of_mem x hy)
  · intro y hy
    rw [List.mem_singleton.mp hy, hx']
    refine ⟨haddr, ?_⟩
    rcases hcases with ⟨hf, _, _⟩ | ⟨hf, _⟩ | ⟨hf, ho, _⟩
    · exact Or.inl hf
    · exact Or.inl hf
    · exact Or.inr ⟨hf, ho⟩
  · intro hlocal y hy
    rcases List.mem_append.mp hy with hy | hy
    · exact h.deferred hlocal y (List.mem_append_left _ hy)
    · rw [List.mem_singleton.mp hy, hx']
      rcases hcases with ⟨hf, _, _⟩ | ⟨hf, _⟩ | ⟨_, _, hfalse, _⟩
      · exact hf
      · exact hf
      · dsimp only at hlocal
        rw [hfalse] at hlocal
        simp at hlocal
  · intro hdirect
    apply hall (h.direct hdirect)
    intro _
    rw [hx']
    rcases hcases with ⟨_, ho, _⟩ | ⟨_, _, htrue, _⟩ | ⟨_, ho, _⟩
    · exact ho
    · dsimp only at hdirect
      rw [hdirect] at htrue
      simp at htrue
    · exact ho
  · have hmap := h.basemap
    simp only [List.append_nil] at hmap
    change batch_basemap ++ pair.toList = _
    rw [List.filter_append, List.map_append, hmap]
    congr 1
    rw [hx']
    rcases hcases with ⟨_, ho, hp⟩ | ⟨_, ho, _, _, hp⟩ | ⟨_, ho, _, _, hp⟩
    · simp [ho, hp]
    · simp [ho, hp, basePair]
    · simp [ho, hp]

/-- The loaded entry is stored. -/
theorem BatchOk.store {b : Batch} {x x' : QueryEntry} {f : UInt8} {a : RecipeEntry}
    {pair : Option (Fp × Fp)} (h : BatchOk indexObj sfObj b [x])
    (hx' : x' = { x with
      deltaFlag := f
      chunkAddr := a })
    (hflag : a.deltaFlag = f) (hbase : a.basechunkHash = x.chunkAddr.basechunkHash)
    (hcases : (f = NO_DELTA ∧ pair = none ∧ a.superfeature = x.superfeature) ∨
      (f = DELTA ∧ x.deltaFlag = DELTA ∧ pair = some (basePair x))) :
    BatchOk indexObj sfObj
      { b with
        done := b.done ++ [x']
        process_buffer := b.process_buffer ++ pair.toList } [] := by
  have hne : DELTA ≠ NO_DELTA := by decide
  have hsame : ∀ {y}, y ∈ batchEntries
      { b with
        done := b.done ++ [x']
        process_buffer := b.process_buffer ++ pair.toList } [] →
      y ∈ b.done ++ x' :: b.todo := by
    intro y hy
    simpa [batchEntries] using hy
  have hall : ∀ {P : QueryEntry → Prop}, (∀ y ∈ batchEntries b [x], P y) → (P x → P x') →
      ∀ y ∈ batchEntries
        { b with
          done := b.done ++ [x']
          process_buffer := b.process_buffer ++ pair.toList } [], P y :=
    fun hy hxx y hmem => forall_replace hy hxx y (hsame hmem)
  obtain ⟨_, hkind⟩ := h.loaded x (by simp)
  have hoff : f = DELTA → x.offlineFlag = false := by
    intro hf
    rcases hcases with ⟨hno, _⟩ | ⟨_, hdelta, _⟩
    · rw [hf] at hno
      exact absurd hno hne
    · rcases hkind with hno | ⟨_, hoff⟩
      · rw [hdelta] at hno
        exact absurd hno hne
      · exact hoff
  refine ⟨?_, ?_, ?_, ?_, h.todo, by simp, ?_, ?_, ?_, ?_, ?_⟩
  · apply hall h.fresh
    rw [hx']
    exact id
  · have hnodup := h.nodup
    simp only [batchEntries, List.map_append, List.map_cons, List.nil_append, List.append_assoc,
      List.cons_append] at hnodup ⊢
    rw [hx']
    exact hnodup
  · apply hall h.size
    rw [hx']
    exact id
  · apply hall h.base
    intro hx hy
    rw [hx'] at hy ⊢
    have hb : Based indexObj sfObj x := by
      apply hx
      rcases hcases with ⟨hf, _⟩ | ⟨_, hdelta, _⟩
      · rcases hy with hy | hy
        · exact absurd hf hy
        · exact Or.inr hy
      · exact Or.inl (by rw [hdelta]; exact hne)
    exact ⟨hb.posted, hb.addr, hbase.trans hb.hash⟩
  · intro y hy
    rcases List.mem_append.mp hy with hy | hy
    · exact h.done y hy
    · rw [List.mem_singleton.mp hy, hx']
      refine ⟨hflag, ?_⟩
      rcases hcases with ⟨hf, _, hsuper⟩ | ⟨hf, _, _⟩
      · exact Or.inl ⟨hf, hsuper⟩
      · exact Or.inr ⟨hf, hoff hf⟩
  · intro hlocal y hy
    rw [List.append_nil] at hy
    rcases List.mem_append.mp hy with hy | hy
    · exact h.deferred hlocal y (List.mem_append_left _ hy)
    · rw [List.mem_singleton.mp hy, hx']
      have hxno := h.deferred hlocal x (by simp)
      rcases hcases with ⟨hf, _⟩ | ⟨_, hdelta, _⟩
      · exact hf
      · rw [hdelta] at hxno
        exact absurd hxno hne
  · intro hdirect
    apply hall (h.direct hdirect)
    rw [hx']
    exact id
  · dsimp only
    rw [List.filter_append, List.map_append, h.pairs]
    congr 1
    rw [hx']
    rcases hcases with ⟨hf, hp, _⟩ | ⟨hf, _, hp⟩
    · simp [hf, hp, hne.symm]
    · simp [hf, hp, basePair]
  · dsimp only
    rw [h.basemap, List.append_nil, List.filter_append, List.filter_append, List.map_append,
      List.map_append]
    congr 1
    rw [hx']
    cases ho : x.offlineFlag <;> simp [ho, basePair]

end Batch

section Pending
variable {indexObj : FpIndex} {sfObj : SfIndex} {done : List QueryEntry} {Lost : Fp → Prop}

theorem mem_skip_localInsert {s : Server} {b n m k : Fp} :
    m ∈ Table.vec (localInsert s (b, n)).skipMap k ↔
      m ∈ Table.vec s.skipMap k ∨ (k = b ∧ s.local_tmp_map.lookup b = some m) := by
  unfold localInsert
  dsimp only
  cases htmp : s.local_tmp_map.lookup b with
  | none => simp
  | some sup =>
    dsimp only
    rw [Table.vec_push]
    by_cases hk : k = b
    · subst hk
      rw [if_pos rfl, List.mem_append, List.mem_singleton]
      simp [eq_comm]
    · rw [if_neg hk]
      simp [hk]

theorem tmp_localInsert (s : Server) (b n k : Fp) :
    (localInsert s (b, n)).local_tmp_map.lookup k =
      if k = b then some n else s.local_tmp_map.lookup k :=
  Table.lookup_insert_ite _ _ _ _

/-- One pair of `Ocall_LocalInsert`. -/
theorem Pending.insert {s : Server}
    (h : Pending indexObj sfObj done s.local_tmp_map s.skipMap Lost) {b n : Fp}
    (hb : Posted sfObj b) (hn : NewBase indexObj sfObj done Lost n)
    (htmp : ∀ k, s.local_tmp_map.lookup k ≠ some n) (hskip : ∀ k, n ∉ Table.vec s.skipMap k) :
    Pending indexObj sfObj done (localInsert s (b, n)).local_tmp_map
      (localInsert s (b, n)).skipMap Lost := by
  refine ⟨?_, ?_, ?_, ?_, ?_, ?_⟩
  · intro k m hk
    rw [tmp_localInsert] at hk
    by_cases hkb : k = b
    · rw [hkb]
      exact hb
    · rw [if_neg hkb] at hk
      exact h.old hk
  · intro k hk
    by_cases hkb : k = b
    · rw [hkb]
      exact hb
    · apply h.oldSkip
      intro hnone
      apply hk
      unfold localInsert
      dsimp only
      cases hsup : s.local_tmp_map.lookup b with
      | none => exact hnone
      | some sup =>
        dsimp only
        unfold Table.push
        rw [Table.lookup_insert_ite, if_neg hkb]
        exact hnone
  · intro k m hk
    rw [tmp_localInsert] at hk
    by_cases hkb : k = b
    · rw [if_pos hkb, Option.some.injEq] at hk
      rw [← hk]
      exact hn
    · rw [if_neg hkb] at hk
      exact h.new hk
  · intro k m hm
    rcases mem_skip_localInsert.mp hm with hm | ⟨_, hm⟩
    · exact h.superseded hm
    · exact h.new hm
  · intro k k' m hk hk'
    rw [tmp_localInsert] at hk hk'
    by_cases hkb : k = b
    · rw [if_pos hkb, Option.some.injEq] at hk
      by_cases hkb' : k' = b
      · rw [hkb, hkb']
      · rw [if_neg hkb', ← hk] at hk'
        exact absurd hk' (htmp k')
    · rw [if_neg hkb] at hk
      by_cases hkb' : k' = b
      · rw [if_pos hkb', Option.some.injEq] at hk'
        rw [← hk'] at hk
        exact absurd hk (htmp k)
      · rw [if_neg hkb'] at hk'
        exact h.inj hk hk'
  · intro k k' m hk hm
    rw [tmp_localInsert] at hk
    by_cases hkb : k = b
    · rw [if_pos hkb, Option.some.injEq] at hk
      rcases mem_skip_localInsert.mp hm with hm | ⟨_, hm⟩
      · rw [← hk] at hm
        exact hskip k' hm
      · rw [← hk] at hm
        exact htmp b hm
    · rw [if_neg hkb] at hk
      rcases mem_skip_localInsert.mp hm with hm | ⟨_, hm⟩
      · exact h.apart hk hm
      · exact hkb (h.inj hk hm)

/-- `Ocall_LocalInsert` of chunks that no map holds yet. -/
theorem Pending.defer {pairs : List (Fp × Fp)} {s : Server}
    (h : Pending indexObj sfObj done s.local_tmp_map s.skipMap Lost)
    (hnodup : (pairs.map Prod.snd).Nodup)
    (hpairs : ∀ p ∈ pairs, Posted sfObj p.1 ∧ NewBase indexObj sfObj done Lost p.2 ∧
      (∀ k, s.local_tmp_map.lookup k ≠ some p.2) ∧ ∀ k, p.2 ∉ Table.vec s.skipMap k) :
    ∃ tmp skip, Ocall_LocalInsert pairs s =
        { s with
          skipMap := skip
          local_tmp_map := tmp } ∧
      Pending indexObj sfObj done tmp skip Lost := by
  induction pairs generalizing s with
  | nil => exact ⟨s.local_tmp_map, s.skipMap, rfl, h⟩
  | cons p pairs ih =>
    rw [List.map_cons, List.nodup_cons] at hnodup
    obtain ⟨hb, hn, htmp, hskip⟩ := hpairs p (by simp)
    have hnext : ∀ q ∈ pairs, Posted sfObj q.1 ∧ NewBase indexObj sfObj done Lost q.2 ∧
        (∀ k, (localInsert s p).local_tmp_map.lookup k ≠ some q.2) ∧
        ∀ k, q.2 ∉ Table.vec (localInsert s p).skipMap k := by
      intro q hq
      obtain ⟨hqb, hqn, hqtmp, hqskip⟩ := hpairs q (List.mem_cons_of_mem p hq)
      refine ⟨hqb, hqn, fun k hk => ?_, fun k hk => ?_⟩
      · have hlook := tmp_localInsert s p.1 p.2 k
        rw [hk] at hlook
        by_cases hkb : k = p.1
        · rw [if_pos hkb, Option.some.injEq] at hlook
          exact hnodup.1 (List.mem_map.mpr ⟨q, hq, hlook⟩)
        · rw [if_neg hkb] at hlook
          exact hqtmp k hlook.symm
      · rcases (@mem_skip_localInsert s p.1 p.2 q.2 k).mp hk with hk | ⟨_, hk⟩
        · exact hqskip k hk
        · exact hqtmp p.1 hk
    obtain ⟨tmp, skip, hs', hpend⟩ := ih (h.insert hb hn htmp hskip) hnodup.2 hnext
    exact ⟨tmp, skip, hs', hpend⟩

/-- The chunks pending from earlier batches are none of a batch in flight. -/
theorem Pending.queue {tmp : Table Fp Fp} {skip : Table Fp (List Fp)}
    (h : Pending indexObj sfObj [] tmp skip Lost)
    (hfresh : ∀ x ∈ done, indexObj.lookup x.chunkHash = none) :
    Pending indexObj sfObj done tmp skip Lost := by
  have hnew : ∀ {n}, NewBase indexObj sfObj [] Lost n → NewBase indexObj sfObj done Lost n := by
    intro n hn
    obtain ⟨e, he, hflag⟩ := hn.whole
    have hlook : indexObj.lookup n = some e := by simpa [Entry] using he
    refine ⟨⟨e, Or.inl hlook, hflag⟩, hn.unposted, hn.kept, ?_⟩
    intro x hx hfp
    have hnone := hfresh x hx
    rw [hfp, hlook] at hnone
    simp at hnone
  exact ⟨h.old, h.oldSkip, fun hb => hnew (h.new hb), fun hm => hnew (h.superseded hm), h.inj,
    h.apart⟩

theorem Pending.register {tmp : Table Fp Fp} {skip : Table Fp (List Fp)}
    (h : Pending indexObj sfObj done tmp skip Lost) {idx : FpIndex} {sf : SfIndex}
    (hidx : ∀ fp e, idx.lookup fp = some e ↔ Entry indexObj done fp e)
    (hsf : ∀ i k fp, fp ∈ Table.vec (sf i) k ↔ fp ∈ Table.vec (sfObj i) k ∨
      ∃ x ∈ done, (x.deltaFlag = NO_DELTA ∧ x.offlineFlag = false) ∧ x.chunkHash = fp ∧
        sfKey x.superfeature i = k) :
    Pending idx sf [] tmp skip Lost := by
  have hposted : ∀ {b}, Posted sfObj b → Posted sf b := by
    rintro b ⟨i, k, hb⟩
    exact ⟨i, k, (hsf i k b).mpr (Or.inl hb)⟩
  have hnew : ∀ {n}, NewBase indexObj sfObj done Lost n → NewBase idx sf [] Lost n := by
    intro n hn
    obtain ⟨e, he, hflag⟩ := hn.whole
    refine ⟨⟨e, Or.inl ((hidx n e).mpr he), hflag⟩, ?_, hn.kept, by simp⟩
    rintro ⟨i, k, hmem⟩
    rcases (hsf i k n).mp hmem with hmem | ⟨x, hx, ⟨_, hoff⟩, hfp, _⟩
    · exact hn.unposted ⟨i, k, hmem⟩
    · rw [hn.deferred x hx hfp] at hoff
      simp at hoff
  exact ⟨fun hb => hposted (h.old hb), fun hb => hposted (h.oldSkip hb), fun hb => hnew (h.new hb),
    fun hm => hnew (h.superseded hm), h.inj, h.apart⟩

end Pending

end ShieldReduce.Prototype
