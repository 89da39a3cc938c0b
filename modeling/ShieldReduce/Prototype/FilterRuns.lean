import ShieldReduce.Prototype.SealedIndex
import ShieldReduce.Prototype.TopKFilter

/-!
# The frequency filter over whole runs

Batches, sessions and restarts, between which the filter is sealed and read back.
-/

namespace ShieldReduce.Prototype.EcallFreqIndex
open Lib Store EDelta

/-- A server; `earlier` holds the keys of the processes before this one. -/
structure Service where
  env : EnclaveEnv
  earlier : List EnclaveEnv
  enclave : Enclave

inductive FilterAction
  | batch (b : ChunkBatch)
  /-- The next session; the writer thread does `writes` between the two. -/
  | login (writes : List Action) (iv : IV) (inQueryBase : Nat → InQueryEntry)
      (outQueryBase : Nat → OutQueryEntry)
  /-- A new process, perhaps with other keys, and its first session. -/
  | restart (keys : EnclaveEnv) (Forward_Flag Offline_Flag : Bool) (o : DumpOrder)
      (writes : List Action) (iv : IV) (inQueryBase : Nat → InQueryEntry)
      (outQueryBase : Nat → OutQueryEntry)

def endSession (writes : List Action) (s : Server) : Server :=
  runWriter writes (closeSession (ProcessTailBatch s))

def endTaken (writes : List Action) (e : Enclave) : List Container :=
  e.taken ++ runTaken writes (closeSession (ProcessTailBatch e.server))

def filterStep (topThreshold : Nat) (s : Service) : FilterAction → Option Service
  | .batch b => some { s with enclave := processChunks s.env topThreshold b s.enclave }
  | .login writes iv inQueryBase outQueryBase =>
    some { s with enclave :=
      { s.enclave with
        queries := ⟨inQueryBase, outQueryBase, 0, 0⟩
        server := startSession iv (endSession writes s.enclave.server)
        taken := endTaken writes s.enclave } }
  | .restart keys Forward_Flag Offline_Flag o writes iv inQueryBase outQueryBase =>
    let server := endSession writes s.enclave.server
    if o.Of server.database then
      some
        -- the hash of a chunk has no key
        { env := { keys with GenerateHash := s.env.GenerateHash }
          earlier := s.env :: s.earlier
          enclave :=
            { filter := LoadDedupIndex (PersistDedupIndex s.enclave.filter) ⟨.empty, .empty⟩
              queries := ⟨inQueryBase, outQueryBase, 0, 0⟩
              server := startSession iv (restartServer Forward_Flag Offline_Flag o server)
              appended := s.enclave.appended
              taken := endTaken writes s.enclave } }
    else none

/-- The hashes of the chunks that an action uploads. -/
def FilterAction.hashes (env : EnclaveEnv) : FilterAction → List Fp
  | .batch b => batchHashes env b
  | _ => []

section Steps
variable {env : EnclaveEnv} {topThreshold : Nat} {s s' : Service} {a : FilterAction}
  {hist : List Fp}

/-- The index knows the fingerprint of a chunk under the keys of a process that there has been. -/
def Registered (s : Service) (key : Fp) : Prop :=
  ∃ env ∈ s.env :: s.earlier,
    s.enclave.server.indexObj.lookup (env.IndexAESCMCEnc key) ≠ none

/-- What holds between two actions once chunks with the hashes `hist` have been uploaded. -/
structure Filtered (env : EnclaveEnv) (hist : List Fp) (s : Service) : Prop where
  hash : s.env.GenerateHash = env.GenerateHash
  currNum : s.enclave.queries.currNum = 0
  heap : s.enclave.filter.heap.Ok
  tracked : Tracked s.enclave.filter.sketch s.enclave.filter.heap hist
  registered : ∀ key, s.enclave.filter.heap.item key ≠ none → Registered s key

theorem endSession_index (writes : List Action) (s : Server) :
    (endSession writes s).indexObj = s.indexObj := by
  obtain ⟨q, o, t, hclosed, _⟩ := closeSession_frame (ProcessTailBatch s)
  unfold endSession
  rw [runWriter_index, hclosed]
  rfl

theorem load_estimate {f f₀ : Filter} (fp : Fp) :
    (LoadDedupIndex (PersistDedupIndex f) f₀).sketch.Estimate fp = f.sketch.Estimate fp := by
  have hle : ∀ n, n ≤ ((LoadDedupIndex (PersistDedupIndex f) f₀).sketch.Estimate fp).toNat ↔
      n ≤ (f.sketch.Estimate fp).toNat := by
    intro n
    rw [le_estimate, le_estimate]
    apply and_congr_right
    intro _
    apply forall_congr'
    intro i
    apply imp_congr_right
    intro hi
    rw [load_counter hi (sketchPos_lt fp i)]
  apply UInt32.toNat_inj.mp
  exact Nat.le_antisymm ((hle _).mp (Nat.le_refl _)) ((hle _).mpr (Nat.le_refl _))

theorem Tracked.load {f f₀ : Filter} (h : Tracked f.sketch f.heap hist) (hok : f.heap.Ok)
    (hempty : f₀.heap = .empty) :
    Tracked (LoadDedupIndex (PersistDedupIndex f) f₀).sketch
      (LoadDedupIndex (PersistDedupIndex f) f₀).heap hist := by
  refine ⟨?_, ?_⟩
  · intro i hi p hp
    rw [load_counter hi hp]
    exact h.counts i hi p hp
  · intro key a f' hitem
    rw [(load_heap hok hempty).item] at hitem
    rw [load_estimate]
    exact h.stored hitem

theorem batchHashes_congr {env' : EnclaveEnv} (h : env'.GenerateHash = env.GenerateHash)
    (b : ChunkBatch) : batchHashes env' b = batchHashes env b := by
  unfold batchHashes
  rw [h]

theorem Filtered.batch (h : Filtered env hist s) (b : ChunkBatch)
    (hlen : (hist ++ batchHashes env b).length < 2 ^ 32) :
    Filtered env (hist ++ batchHashes env b)
      { s with enclave := processChunks s.env topThreshold b s.enclave } := by
  rw [← batchHashes_congr h.hash] at hlen ⊢
  obtain ⟨hindex, _, hcurr, hok, _⟩ :=
    @processChunks_spec s.env topThreshold b s.enclave h.currNum h.heap
  refine ⟨h.hash, hcurr, hok, ?_, ?_⟩
  · dsimp only
    rw [processChunks_filter]
    exact (h.tracked.updated h.heap h.currNum hlen (Nat.le_refl b.chunkNum)).2
  · intro key hkey
    rcases processChunks_held h.currNum h.heap hkey with hold | hnew
    · obtain ⟨env', hmem, hlook⟩ := h.registered key hold
      exact ⟨env', hmem, (hindex _).mpr (Or.inl hlook)⟩
    · exact ⟨s.env, List.mem_cons_self, hnew⟩

theorem Filtered.step (h : Filtered env hist s) (hlen : (hist ++ a.hashes env).length < 2 ^ 32)
    (hs : filterStep topThreshold s a = some s') : Filtered env (hist ++ a.hashes env) s' := by
  cases a with
  | batch b =>
    rw [← Option.some.inj hs]
    exact h.batch b hlen
  | login writes iv inQueryBase outQueryBase =>
    rw [← Option.some.inj hs]
    change Filtered env (hist ++ []) _
    rw [List.append_nil]
    refine ⟨h.hash, rfl, h.heap, h.tracked, ?_⟩
    intro key hkey
    obtain ⟨env', hmem, hlook⟩ := h.registered key hkey
    refine ⟨env', hmem, ?_⟩
    change (endSession writes s.enclave.server).indexObj.lookup _ ≠ none
    rw [endSession_index]
    exact hlook
  | restart keys Forward_Flag Offline_Flag o writes iv inQueryBase outQueryBase =>
    unfold filterStep at hs
    dsimp only at hs
    split at hs
    case isFalse => simp at hs
    case isTrue ho =>
      rw [← Option.some.inj hs]
      change Filtered env (hist ++ []) _
      rw [List.append_nil]
      have hload := @load_heap s.enclave.filter ⟨.empty, .empty⟩ h.heap rfl
      refine ⟨h.hash, rfl, hload.ok h.heap, h.tracked.load h.heap rfl, ?_⟩
      intro key hkey
      dsimp only at hkey
      rw [hload.item] at hkey
      obtain ⟨env', hmem, hlook⟩ := h.registered key hkey
      refine ⟨env', List.mem_cons_of_mem _ hmem, ?_⟩
      change (OpenDB (closeDB o)).indexObj.lookup _ ≠ none
      rw [OpenDB_indexObj ho]
      change (endSession writes s.enclave.server).indexObj.lookup _ ≠ none
      rw [endSession_index]
      exact hlook

theorem Filtered.runs {acts : List FilterAction} (h : Filtered env hist s)
    (hlen : (hist ++ acts.flatMap (FilterAction.hashes env)).length < 2 ^ 32)
    (hrun : runs (filterStep topThreshold) s acts = some s') :
    Filtered env (hist ++ acts.flatMap (FilterAction.hashes env)) s' := by
  induction acts generalizing s hist with
  | nil =>
    rw [← Option.some.inj hrun, List.flatMap_nil, List.append_nil]
    exact h
  | cons a acts ih =>
    obtain ⟨t, ht, hrest⟩ := runs_cons.mp hrun
    rw [List.flatMap_cons, ← List.append_assoc] at hlen ⊢
    have hfirst : (hist ++ a.hashes env).length < 2 ^ 32 := by
      rw [List.length_append] at hlen
      omega
    exact ih (h.step hfirst ht) hlen hrest

theorem filtered_start (env : EnclaveEnv) (Forward_Flag Offline_Flag : Bool) (iv : IV)
    (inQueryBase : Nat → InQueryEntry) (outQueryBase : Nat → OutQueryEntry) :
    Filtered env []
      ⟨env, [], Enclave.start Forward_Flag Offline_Flag iv inQueryBase outQueryBase⟩ := by
  have hnone : ∀ key, EntryHeap.empty.item key = none :=
    fun key => EntryHeap.item_eq_none.mpr (AList.lookup_empty key)
  refine ⟨rfl, rfl, EntryHeap.ok_empty, ⟨counts_empty, ?_⟩, ?_⟩
  · intro key a f hitem
    have hempty := (hnone key).symm.trans hitem
    simp at hempty
  · intro key hkey
    exact absurd (hnone key) hkey

/-- An action keeps the least frequency of a full heap. -/
theorem AtLeast.act {m : UInt32} (hok : s.enclave.filter.heap.Ok)
    (h : AtLeast topThreshold m s.enclave.filter.heap)
    (hs : filterStep topThreshold s a = some s') :
    s'.enclave.filter.heap.Ok ∧ AtLeast topThreshold m s'.enclave.filter.heap := by
  cases a with
  | batch b =>
    rw [← Option.some.inj hs]
    dsimp only
    rw [processChunks_filter]
    exact h.loop hok _ _
  | login writes iv inQueryBase outQueryBase =>
    rw [← Option.some.inj hs]
    exact ⟨hok, h⟩
  | restart keys Forward_Flag Offline_Flag o writes iv inQueryBase outQueryBase =>
    unfold filterStep at hs
    dsimp only at hs
    split at hs
    case isFalse => simp at hs
    case isTrue =>
      rw [← Option.some.inj hs]
      have hload := @load_heap s.enclave.filter ⟨.empty, .empty⟩ hok rfl
      refine ⟨hload.ok hok, ?_⟩
      unfold AtLeast EntryHeap.TopEntry
      dsimp only
      rw [hload.size, hload.freqAt]
      exact h

end Steps

section Soundness
variable {topThreshold : Nat}

/-- What the filter guarantees before and during a batch, when the hashes `hist` have been uploaded
before. -/
structure FilterSound (topThreshold : Nat) (hist : List Fp) (s : Service) (b : ChunkBatch) : Prop
    where
  /-- A chunk that is not looked up, being too rare, is not in the heap. -/
  skipped : ∀ n < b.chunkNum,
    ((checkAt s.env topThreshold b s.enclave n).ins n).chunkFreq <
      minFreq topThreshold s.enclave.filter.heap →
    s.enclave.filter.heap.Contains ((checkAt s.env topThreshold b s.enclave n).ins n).chunkHash =
      false
  /-- A chunk that the heap answers for is in the index. -/
  duplicate : ∀ n < b.chunkNum,
    ((checkAt s.env topThreshold b s.enclave b.chunkNum).ins n).dedupFlag = .DUPLICATE →
    Registered s (s.env.GenerateHash (b.chunks.getD n []))
  /-- A chunk that the batch adds to the heap is in the index once the batch is registered. -/
  added : ∀ key, (processChunks s.env topThreshold b s.enclave).filter.heap.item key ≠ none →
    s.enclave.filter.heap.item key ≠ none ∨
      (processChunks s.env topThreshold b s.enclave).server.indexObj.lookup
        (s.env.IndexAESCMCEnc key) ≠ none
  count : ∀ n ≤ b.chunkNum, ∀ fp,
    (hist ++ (batchHashes s.env b).take n).count fp ≤
      ((sketchAt s.env b s.enclave n).1.Estimate fp).toNat
  stored : ∀ n ≤ b.chunkNum, ∀ fp a f, s.enclave.filter.heap.item fp = some (a, f) →
    f ≤ (sketchAt s.env b s.enclave n).1.Estimate fp
  updated : ∀ n ≤ b.chunkNum, ∀ fp a f,
    (heapAt s.env topThreshold b s.enclave n).item fp = some (a, f) →
    f ≤ (sketchAt s.env b s.enclave b.chunkNum).1.Estimate fp
  minimum : ∀ m n, m ≤ n → n ≤ b.chunkNum →
    (heapAt s.env topThreshold b s.enclave m).Size = topThreshold →
    (heapAt s.env topThreshold b s.enclave m).TopEntry ≤
      (heapAt s.env topThreshold b s.enclave n).TopEntry
  later : ∀ acts s', runs (filterStep topThreshold) s acts = some s' →
    s.enclave.filter.heap.Size = topThreshold →
    s.enclave.filter.heap.TopEntry ≤ s'.enclave.filter.heap.TopEntry

/-- Whatever the batches, the sessions and the restarts before, the filter is sound. -/
theorem filter_sound (env : EnclaveEnv) (topThreshold : Nat) (Forward_Flag Offline_Flag : Bool)
    (iv : IV) (inQueryBase : Nat → InQueryEntry) (outQueryBase : Nat → OutQueryEntry)
    {acts : List FilterAction} {s : Service}
    (hrun : runs (filterStep topThreshold)
      ⟨env, [], Enclave.start Forward_Flag Offline_Flag iv inQueryBase outQueryBase⟩ acts = some s)
    {b : ChunkBatch}
    (hlen : (acts.flatMap (FilterAction.hashes env) ++ batchHashes env b).length < 2 ^ 32) :
    FilterSound topThreshold (acts.flatMap (FilterAction.hashes env)) s b := by
  have hold : ([] ++ acts.flatMap (FilterAction.hashes env)).length < 2 ^ 32 := by
    rw [List.length_append] at hlen
    rw [List.nil_append]
    omega
  have h := (filtered_start env Forward_Flag Offline_Flag iv inQueryBase outQueryBase).runs hold hrun
  rw [List.nil_append] at h
  rw [← batchHashes_congr h.hash] at hlen
  have hsketched := fun n (hn : n ≤ b.chunkNum) => h.tracked.sketched hlen hn
  have hupdated := fun n (hn : n ≤ b.chunkNum) =>
    @Tracked.updated s.env topThreshold b s.enclave _ h.tracked h.heap h.currNum hlen n hn
  refine ⟨?_, ?_, ?_, ?_, ?_, ?_, ?_, ?_⟩
  · intro n hn hskip
    exact h.tracked.skipped h.heap hlen hn hskip
  · intro n hn hd
    apply h.registered
    rw [← sketched_hash hn]
    exact (@checkAt_spec s.env topThreshold b s.enclave b.chunkNum).held n hn hd
  · intro key hkey
    exact processChunks_held h.currNum h.heap hkey
  · intro n hn fp
    exact (hsketched n hn).counts.count_le (take_lt hlen) fp
  · intro n hn fp a f hitem
    exact UInt32.le_iff_toNat_le.mpr ((hsketched n hn).stored hitem)
  · intro n hn fp a f hitem
    exact UInt32.le_iff_toNat_le.mpr ((hupdated n hn).2.stored hitem)
  · intro m n hmn hn hfull
    apply AtLeast.le
    induction n with
    | zero =>
      rw [Nat.le_zero.mp hmn] at hfull ⊢
      exact atLeast_top hfull
    | succ n ih =>
      rcases Nat.lt_or_eq_of_le hmn with hlt | heq
      · have hn' := Nat.le_of_succ_le hn
        exact (ih (Nat.le_of_lt_succ hlt) hn').step (hupdated n hn').1 _ n
      · rw [heq] at hfull ⊢
        exact atLeast_top hfull
  · intro more s' hmore hfull
    apply AtLeast.le
    exact (runs_invariant
      (fun {_ _ _} (hp : _ ∧ AtLeast topThreshold s.enclave.filter.heap.TopEntry _) hs =>
        hp.2.act hp.1 hs)
      ⟨h.heap, atLeast_top hfull⟩ hmore).2

/-- A batch with a chunk that is there twice, a restart, and the same batch again. -/
theorem filter_sound_restarted : ∃ o s,
    runs (filterStep 1)
      ⟨plainEnv, [], Enclave.start false true (FixedBytes.fill 16 0) zeroIn zeroOut⟩
      [.batch ⟨[[65], [66], [65]], fun _ => []⟩,
        .restart plainEnv false true o [] (FixedBytes.fill 16 1) zeroIn zeroOut] = some s ∧
    FilterSound 1
      ([.batch ⟨[[65], [66], [65]], fun _ => []⟩,
        .restart plainEnv false true o [] (FixedBytes.fill 16 1) zeroIn zeroOut].flatMap
          (FilterAction.hashes plainEnv)) s ⟨[[65], [66], [65]], fun _ => []⟩ := by
  obtain ⟨s₁, hs₁⟩ : ∃ s₁, filterStep 1
      ⟨plainEnv, [], Enclave.start false true (FixedBytes.fill 16 0) zeroIn zeroOut⟩
      (.batch ⟨[[65], [66], [65]], fun _ => []⟩) = some s₁ := ⟨_, rfl⟩
  let o := DumpOrder.straight (endSession [] s₁.enclave.server).database
  obtain ⟨s₂, hs₂⟩ : ∃ s₂, filterStep 1 s₁
      (.restart plainEnv false true o [] (FixedBytes.fill 16 1) zeroIn zeroOut) = some s₂ :=
    ⟨_, if_pos (DumpOrder.straight_of _)⟩
  have hlen : (batchHashes plainEnv ⟨[[65], [66], [65]], fun _ => []⟩ ++ [] ++
      batchHashes plainEnv ⟨[[65], [66], [65]], fun _ => []⟩).length < 2 ^ 32 := by decide
  refine ⟨o, s₂, ?hrun, filter_sound _ _ _ _ _ _ _ ?hrun hlen⟩
  exact runs_cons.mpr ⟨s₁, hs₁, runs_cons.mpr ⟨s₂, hs₂, rfl⟩⟩

end Soundness

end ShieldReduce.Prototype.EcallFreqIndex
