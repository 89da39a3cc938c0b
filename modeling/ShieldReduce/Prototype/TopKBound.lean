import ShieldReduce.Prototype.DependentTransfer
import ShieldReduce.Prototype.FilterRuns

/-!
# The size of the top-k index

Server runs that are configured with different values, each of which loads the index that the run
before has sealed. `AddChunkToHeap` makes room only in a heap of exactly the configured size.
-/

namespace ShieldReduce.Prototype.EcallFreqIndex
open Lib Store EDelta

section Runs

/-- The value that a server is started with; the enclave gets `topKParam_` times 1024. -/
def GetTopKParam (topKParam_ : UInt64) : Nat := (topKParam_ * 1024).toNat

/-- A server run: the size of the heap that it has loaded, and whether `AddChunkToHeap` has been
called in it. -/
structure TopKRun where
  service : Service
  topThreshold : Nat
  loaded : Nat
  added : Bool

/-- `AddChunkToHeap` is called for the query. -/
def Adds (topThreshold : Nat) (e : InQueryEntry) (heap : EntryHeap) : Prop :=
  Enters topThreshold e heap ∧ heap.Contains e.chunkHash = false

instance (topThreshold : Nat) (e : InQueryEntry) (heap : EntryHeap) :
    Decidable (Adds topThreshold e heap) :=
  inferInstanceAs (Decidable (_ ∧ _))

variable (env : EnclaveEnv) (topThreshold : Nat) (b : ChunkBatch) (e : Enclave)

/-- The query `i` of a batch, as the update of the heap finds it. -/
def queryAt (i : Nat) : InQueryEntry :=
  (chunksAt env topThreshold b e b.chunkNum).1.queries.inQueryBase i

/-- The batch has called `AddChunkToHeap` for one of its first `n` queries. -/
def addsBefore (n : Nat) : Bool :=
  (List.range n).any fun i =>
    decide (Adds topThreshold (queryAt env topThreshold b e i) (heapAt env topThreshold b e i))

inductive TopKAction
  | batch (b : ChunkBatch)
  | login (writes : List Action) (iv : IV) (inQueryBase : Nat → InQueryEntry)
      (outQueryBase : Nat → OutQueryEntry)
  /-- The next server run, with its own `topKParam_`. -/
  | restart (topKParam_ : UInt64) (keys : EnclaveEnv) (Forward_Flag Offline_Flag : Bool)
      (o : DumpOrder) (writes : List Action) (iv : IV) (inQueryBase : Nat → InQueryEntry)
      (outQueryBase : Nat → OutQueryEntry)

def topKStep (s : TopKRun) : TopKAction → Option TopKRun
  | .batch b =>
    (filterStep s.topThreshold s.service (.batch b)).map fun service =>
      { s with
        service := service
        added := s.added || addsBefore s.service.env s.topThreshold b s.service.enclave b.chunkNum }
  | .login writes iv inQueryBase outQueryBase =>
    (filterStep s.topThreshold s.service (.login writes iv inQueryBase outQueryBase)).map
      fun service => { s with service := service }
  | .restart topKParam_ keys Forward_Flag Offline_Flag o writes iv inQueryBase outQueryBase =>
    (filterStep s.topThreshold s.service
      (.restart keys Forward_Flag Offline_Flag o writes iv inQueryBase outQueryBase)).map
        fun service =>
          ⟨service, GetTopKParam topKParam_, service.enclave.filter.heap.Size, false⟩

/-- The first server run, which finds no sealed index. -/
def TopKRun.start (topKParam_ : UInt64) (Forward_Flag Offline_Flag : Bool) (iv : IV)
    (inQueryBase : Nat → InQueryEntry) (outQueryBase : Nat → OutQueryEntry) : TopKRun where
  service := ⟨env, [], Enclave.start Forward_Flag Offline_Flag iv inQueryBase outQueryBase⟩
  topThreshold := GetTopKParam topKParam_
  loaded := 0
  added := false

/-- What is to hold before, during and after a batch. -/
structure TopKBounded (s : TopKRun) (b : ChunkBatch) : Prop where
  /-- From the first `AddChunkToHeap` of the run on. -/
  size : ∀ n ≤ b.chunkNum,
    s.added = true ∨ addsBefore s.service.env s.topThreshold b s.service.enclave n = true →
    (heapAt s.service.env s.topThreshold b s.service.enclave n).Size ≤ max s.topThreshold s.loaded
  evicts : ∀ i < b.chunkNum,
    Adds s.topThreshold (queryAt s.service.env s.topThreshold b s.service.enclave i)
      (heapAt s.service.env s.topThreshold b s.service.enclave i) →
    s.topThreshold ≤ (heapAt s.service.env s.topThreshold b s.service.enclave i).Size →
    ∃ key, (heapAt s.service.env s.topThreshold b s.service.enclave i).item key ≠ none ∧
      (heapAt s.service.env s.topThreshold b s.service.enclave (i + 1)).item key = none

end Runs

section Steps
variable {topThreshold loaded : Nat} {added : Bool} {heap : EntryHeap} {ins : Nat → InQueryEntry}
  {i : Nat}

/-- The value is large enough for what has been loaded. -/
def FitsLoaded (topThreshold loaded : Nat) : Prop := 0 < topThreshold ∧ loaded ≤ topThreshold

/-- The size of the heap in a run. -/
structure Sized (topThreshold loaded : Nat) (added : Bool) (heap : EntryHeap) : Prop where
  ok : heap.Ok
  same : added = false → heap.Size = loaded
  loaded_le : loaded ≤ heap.Size
  fits : FitsLoaded topThreshold loaded → heap.Size ≤ topThreshold
  exceeds : ¬FitsLoaded topThreshold loaded → added = true → max topThreshold loaded < heap.Size

theorem sized_start (hok : heap.Ok) (topThreshold : Nat) :
    Sized topThreshold heap.Size false heap :=
  ⟨hok, fun _ => rfl, Nat.le_refl _, fun h => h.2, fun _ h => absurd h (by decide)⟩

/-- A query that does not add a chunk leaves the size alone. -/
theorem heapStep_size (hok : heap.Ok) (hadds : ¬Adds topThreshold (ins i) heap) :
    (heapStep topThreshold ins i heap).Size = heap.Size := by
  by_cases henters : Enters topThreshold (ins i) heap
  · obtain ⟨a, _, hcase⟩ := heapStep_of_enters hok henters
    rcases hcase with ⟨_, _, hsize, _⟩ | ⟨hnone, _⟩
    · exact hsize
    · exfalso
      apply hadds
      refine ⟨henters, ?_⟩
      rw [← Bool.not_eq_true, EntryHeap.contains_iff, not_not]
      exact hnone
  · rw [heapStep_of_not_enters henters]

/-- What an addition does. -/
theorem heapStep_adds (hok : heap.Ok) (hadds : Adds topThreshold (ins i) heap) :
    ((heap.Size ≠ topThreshold ∨ heap.Size = 0) ∧
        (heapStep topThreshold ins i heap).Size = heap.Size + 1 ∧
        ∀ key, heap.item key ≠ none → (heapStep topThreshold ins i heap).item key ≠ none) ∨
      0 < topThreshold ∧ heap.Size = topThreshold ∧
        (heapStep topThreshold ins i heap).Size = heap.Size ∧
        ∃ key, heap.item key ≠ none ∧ (heapStep topThreshold ins i heap).item key = none := by
  obtain ⟨henters, habsent⟩ := hadds
  have hnone : heap.item (ins i).chunkHash = none := by
    by_contra hne
    rw [EntryHeap.contains_iff.mpr hne] at habsent
    exact absurd habsent (by decide)
  obtain ⟨a, _, hcase⟩ := heapStep_of_enters hok henters
  rcases hcase with ⟨f, hitem, _⟩ | ⟨_, _, ⟨hroom, hsize, hupdate⟩ | ⟨hfull, hsize, top, htop, hupdate⟩⟩
  · rw [hnone] at hitem
    exact absurd hitem (by simp)
  · refine Or.inl ⟨hroom, hsize, ?_⟩
    intro key hkey
    rw [hupdate, Function.update_apply]
    split
    · exact Option.some_ne_none _
    · exact hkey
  · have hne : top ≠ (ins i).chunkHash := by
      intro heq
      rw [heq] at htop
      exact htop hnone
    have hpos : 0 < heap.Size := by
      obtain ⟨j, hj⟩ := (hok.located.keys top).mpr fun hlook => htop (EntryHeap.item_eq_none.mpr hlook)
      exact (Nat.zero_le j).trans_lt (List.getElem?_eq_some_iff.mp hj).1
    refine Or.inr ⟨hfull ▸ hpos, hfull, hsize, top, htop, ?_⟩
    rw [hupdate, Function.update_of_ne hne, Function.update_self]

/-- An addition to a heap of any other size. -/
theorem heapStep_room (hok : heap.Ok) (hadds : Adds topThreshold (ins i) heap)
    (hsize : heap.Size ≠ topThreshold) :
    ∃ a, (heapStep topThreshold ins i heap).Size = heap.Size + 1 ∧
      (heapStep topThreshold ins i heap).item =
        Function.update heap.item (ins i).chunkHash (some (a, (ins i).chunkFreq)) := by
  obtain ⟨henters, habsent⟩ := hadds
  obtain ⟨a, _, hcase⟩ := heapStep_of_enters hok henters
  rcases hcase with ⟨f, hitem, _⟩ | ⟨_, _, ⟨_, hroom⟩ | ⟨hfull, _⟩⟩
  · exfalso
    rw [EntryHeap.contains_iff.mpr (by rw [hitem]; exact Option.some_ne_none _)] at habsent
    exact absurd habsent (by decide)
  · exact ⟨a, hroom⟩
  · exact absurd hfull hsize

theorem Sized.step (h : Sized topThreshold loaded added heap) :
    Sized topThreshold loaded (added || decide (Adds topThreshold (ins i) heap))
      (heapStep topThreshold ins i heap) := by
  have hok := @heapStep_ok topThreshold heap ins i h.ok
  by_cases hadds : Adds topThreshold (ins i) heap
  · rw [decide_eq_true hadds, Bool.or_true]
    have hloaded := h.loaded_le
    rcases heapStep_adds h.ok hadds with ⟨hroom, hsize, _⟩ | ⟨hpos, hfull, hsize, _⟩
    · refine ⟨hok, fun h => absurd h (by decide), by omega, ?_, ?_⟩
      · intro hfits
        have hle := h.fits hfits
        have hpos := hfits.1
        omega
      · intro hover _
        unfold FitsLoaded at hover
        omega
    · refine ⟨hok, fun h => absurd h (by decide), by omega, fun _ => by omega, ?_⟩
      intro hover _
      exact absurd ⟨hpos, by omega⟩ hover
  · rw [decide_eq_false hadds, Bool.or_false]
    have hsize := heapStep_size h.ok hadds
    exact ⟨hok, fun hnot => hsize.trans (h.same hnot), h.loaded_le.trans_eq hsize.symm,
      fun hfits => hsize.trans_le (h.fits hfits),
      fun hover hadded => (h.exceeds hover hadded).trans_eq hsize.symm⟩

end Steps

section Batches
variable {env : EnclaveEnv} {topThreshold loaded : Nat} {added : Bool} {b : ChunkBatch}
  {e : Enclave}

theorem heapAt_succ (n : Nat) : heapAt env topThreshold b e (n + 1) =
    heapStep topThreshold (queryAt env topThreshold b e) n (heapAt env topThreshold b e n) := rfl

theorem addsBefore_iff {n : Nat} :
    addsBefore env topThreshold b e n = true ↔ ∃ i < n,
      Adds topThreshold (queryAt env topThreshold b e i) (heapAt env topThreshold b e i) := by
  unfold addsBefore
  rw [List.any_eq_true]
  simp only [List.mem_range, decide_eq_true_eq]

theorem addsBefore_succ (n : Nat) :
    addsBefore env topThreshold b e (n + 1) = (addsBefore env topThreshold b e n ||
      decide (Adds topThreshold (queryAt env topThreshold b e n) (heapAt env topThreshold b e n))) := by
  unfold addsBefore
  rw [List.range_succ, List.any_append, List.any_cons, List.any_nil, Bool.or_false]

theorem Sized.heapAt (h : Sized topThreshold loaded added e.filter.heap) (n : Nat) :
    Sized topThreshold loaded (added || addsBefore env topThreshold b e n)
      (heapAt env topThreshold b e n) := by
  induction n with
  | zero =>
    have hnone : addsBefore env topThreshold b e 0 = false := rfl
    rw [hnone, Bool.or_false]
    exact h
  | succ n ih =>
    rw [addsBefore_succ, ← Bool.or_assoc]
    exact ih.step

/-- The size of the heap of a run. -/
def TopKRun.Sized (s : TopKRun) : Prop :=
  EcallFreqIndex.Sized s.topThreshold s.loaded s.added s.service.enclave.filter.heap

theorem TopKRun.Sized.step {s s' : TopKRun} {a : TopKAction} (h : s.Sized)
    (hs : topKStep s a = some s') : s'.Sized := by
  unfold topKStep at hs
  cases a with
  | batch b =>
    obtain ⟨service, hservice, heq⟩ := Option.map_eq_some_iff.mp hs
    rw [← heq, ← Option.some.inj hservice]
    unfold TopKRun.Sized
    dsimp only
    rw [processChunks_filter]
    exact EcallFreqIndex.Sized.heapAt h b.chunkNum
  | login writes iv inQueryBase outQueryBase =>
    obtain ⟨service, hservice, heq⟩ := Option.map_eq_some_iff.mp hs
    rw [← heq, ← Option.some.inj hservice]
    exact h
  | restart topKParam_ keys Forward_Flag Offline_Flag o writes iv inQueryBase outQueryBase =>
    obtain ⟨service, hservice, heq⟩ := Option.map_eq_some_iff.mp hs
    obtain ⟨ho, hservice⟩ := Option.ite_none_right_eq_some.mp hservice
    rw [← heq, ← Option.some.inj hservice]
    exact sized_start ((@load_heap s.service.enclave.filter ⟨.empty, .empty⟩ h.ok rfl).ok h.ok) _

theorem topKRuns_sized {topKParam_ : UInt64} {Forward_Flag Offline_Flag : Bool} {iv : IV}
    {inQueryBase : Nat → InQueryEntry} {outQueryBase : Nat → OutQueryEntry}
    {acts : List TopKAction} {s : TopKRun}
    (hrun : runs topKStep
      (.start env topKParam_ Forward_Flag Offline_Flag iv inQueryBase outQueryBase) acts =
        some s) : s.Sized := by
  have hstart : (TopKRun.start env topKParam_ Forward_Flag Offline_Flag iv inQueryBase
      outQueryBase).Sized := sized_start EntryHeap.ok_empty (GetTopKParam topKParam_)
  exact runs_invariant TopKRun.Sized.step hstart hrun

/-- In a run whose value is large enough a batch is bounded. -/
theorem TopKRun.Sized.bounded {s : TopKRun} (h : s.Sized)
    (hfits : FitsLoaded s.topThreshold s.loaded) (b : ChunkBatch) : TopKBounded s b := by
  refine ⟨?_, ?_⟩
  · intro n _ _
    exact ((EcallFreqIndex.Sized.heapAt h n).fits hfits).trans (Nat.le_max_left _ _)
  · intro i _ hadds hfull
    have hi := @EcallFreqIndex.Sized.heapAt s.service.env _ _ _ b _ h i
    rcases heapStep_adds hi.ok hadds with ⟨hroom, _⟩ | ⟨_, _, _, hevicts⟩
    · have hle := hi.fits hfits
      have hpos := hfits.1
      omega
    · exact hevicts

/-- Without it, no addition is. -/
theorem TopKRun.Sized.not_bounded {s : TopKRun} (h : s.Sized)
    (hover : ¬FitsLoaded s.topThreshold s.loaded) {b : ChunkBatch}
    (hadds : s.added = true ∨
      addsBefore s.service.env s.topThreshold b s.service.enclave b.chunkNum = true) :
    ¬TopKBounded s b := by
  intro hbounded
  have hsize := hbounded.size b.chunkNum (Nat.le_refl _) hadds
  have hlarge := (@EcallFreqIndex.Sized.heapAt s.service.env _ _ _ b _ h b.chunkNum).exceeds hover
    (Bool.or_eq_true_iff.mpr hadds)
  omega

end Batches

section Growth
variable {env : EnclaveEnv} {topThreshold : Nat} {b : ChunkBatch} {e : Enclave} {s : TopKRun}
  {n : Nat}

theorem sketchLoop_last (st : EcallCMSketch × (Nat → InQueryEntry)) (n : Nat) :
    ((sketchLoop (n + 1) st).2 n).chunkFreq =
      (sketchLoop (n + 1) st).1.Estimate (st.2 n).chunkHash := by
  have hself : (sketchLoop (n + 1) st).2 n =
      { (sketchLoop n st).2 n with
        chunkFreq := (sketchLoop (n + 1) st).1.Estimate ((sketchLoop n st).2 n).chunkHash } :=
    Function.update_self ..
  rw [hself]
  dsimp only
  rw [sketchLoop_hash]

/-- The query of a batch of one chunk. -/
theorem single_query (hcurr : e.queries.currNum = 0) (hone : b.chunkNum = 1) :
    Stands (queryAt env topThreshold b e 0) ∧
      (queryAt env topThreshold b e 0).chunkHash = env.GenerateHash (b.chunks.getD 0 []) ∧
      (queryAt env topThreshold b e 0).chunkFreq =
        (sketchAt env b e 1).1.Estimate (env.GenerateHash (b.chunks.getD 0 [])) := by
  have hpos : 0 < b.chunkNum := by omega
  have hchecked := @checkAt_spec env topThreshold b e b.chunkNum
  have hsketched := @sketched_hash env b e 0 hpos
  obtain ⟨st, hsame, _, _, _, _, hlooped⟩ := @chunksAt_spec env topThreshold b e hcurr b.chunkNum
  obtain ⟨hflag, hkept, _⟩ := (hsame.trans hlooped.kept.ins) 0
  have hhash := hkept.trans ((hchecked.hash 0).trans hsketched)
  refine ⟨?_, hhash, ?_⟩
  · obtain ⟨j, hj⟩ := Option.ne_none_iff_exists'.mp (hchecked.covered 0 hpos)
    obtain ⟨hlt, _, hstands⟩ := hchecked.located hj
    have hzero : j = 0 := by omega
    rw [hzero] at hstands
    unfold Stands queryAt
    rw [hflag]
    exact hstands
  · have hself : ((sketchAt env b e 1).2 0).chunkFreq =
        (sketchAt env b e 1).1.Estimate ((sketchAt env b e 1).2 0).chunkHash := by
      unfold sketchAt
      rw [sketchLoop_last, sketchLoop_hash]
    have hsame' : sketched env b e = sketchAt env b e 1 := by
      unfold sketched sketchAt
      rw [hone]
    rw [hsame'] at hsketched
    have hfreq : Bounded (sketchAt env b e 1).1 (sketchAt env b e 1).1 (sketched env b e).2
        b.chunkNum := by
      intro j hj
      have hzero : j = 0 := by omega
      rw [hzero, hsame', hself]
      exact ⟨Nat.le_refl _, Nat.le_refl _⟩
    obtain ⟨hlow, hup⟩ := @chunksAt_bounded env topThreshold b e _ _ hcurr hfreq 0 hpos
    unfold queryAt
    rw [hhash] at hlow hup
    exact UInt32.toNat_inj.mp (Nat.le_antisymm hup hlow)

def newBatch (n : Nat) : ChunkBatch := ⟨[dependentChunk n], fun _ => []⟩

/-- The chunks from 0 to `n` have been uploaded, and all of them are in the heap. -/
structure Filling (n : Nat) (s : TopKRun) : Prop where
  hash : s.service.env.GenerateHash = plainFp
  currNum : s.service.enclave.queries.currNum = 0
  heap : s.service.enclave.filter.heap.Ok
  size : s.service.enclave.filter.heap.Size = n
  known : ∀ key, s.service.enclave.filter.heap.item key ≠ none →
    ∃ m < n, key = plainFp (dependentChunk m)
  counts : ∃ hist, hist.length = n ∧ Counts s.service.enclave.filter.sketch hist
  rare : 0 < n → ∃ key a f, s.service.enclave.filter.heap.item key = some (a, f) ∧ f.toNat ≤ 1

/-- The frequency of the next chunk. -/
theorem Filling.freq (h : Filling n s) (hn : n + 1 < 2 ^ 32) :
    1 ≤ (queryAt s.service.env s.topThreshold (newBatch n) s.service.enclave 0).chunkFreq.toNat ∧
      (queryAt s.service.env s.topThreshold (newBatch n) s.service.enclave 0).chunkFreq.toNat ≤
        n + 1 := by
  obtain ⟨_, _, hfreq⟩ := @single_query s.service.env s.topThreshold (newBatch n) _ h.currNum rfl
  obtain ⟨hist, hlength, hcounts⟩ := h.counts
  have hlen : (hist ++ batchHashes s.service.env (newBatch n)).length < 2 ^ 32 := by
    rw [List.length_append, batchHashes_length, hlength]
    exact hn
  have hall : (batchHashes s.service.env (newBatch n)).take 1 =
      [s.service.env.GenerateHash (dependentChunk n)] := rfl
  have hnext := (@sketchAt_spec s.service.env (newBatch n) s.service.enclave hist hcounts hlen 1
    (Nat.le_refl 1)).1
  rw [hall] at hnext
  have hlen' : (hist ++ [s.service.env.GenerateHash (dependentChunk n)]).length < 2 ^ 32 := by
    rw [List.length_append, hlength]
    exact hn
  rw [hfreq]
  constructor
  · refine le_trans ?_ (hnext.count_le hlen' _)
    rw [List.count_append]
    exact (List.count_singleton_self.symm.le).trans (Nat.le_add_left _ _)
  · have hrow := ((le_estimate.mp (Nat.le_refl _)).2 0 (by decide)).trans_eq
      (hnext.counter hlen' (by decide) (s.service.env.GenerateHash (dependentChunk n)))
    refine hrow.trans (List.countP_le_length.trans_eq ?_)
    rw [List.length_append, hlength]
    rfl

/-- The next chunk is added, unless the heap has exactly the configured size. -/
theorem Filling.adds (h : Filling n s) (hn : n + 1 < 2 ^ 32) (hsize : n ≠ s.topThreshold) :
    Adds s.topThreshold (queryAt s.service.env s.topThreshold (newBatch n) s.service.enclave 0)
      s.service.enclave.filter.heap := by
  obtain ⟨hstands, hhash, _⟩ :=
    @single_query s.service.env s.topThreshold (newBatch n) _ h.currNum rfl
  refine ⟨⟨hstands, (checkIfAddToHeap_iff _ _ _).mpr ?_⟩, ?_⟩
  · rw [h.size]
    rcases Nat.lt_or_gt_of_ne hsize with hroom | hover
    · exact Or.inl hroom
    · right
      obtain ⟨key, a, f, hitem, hf⟩ := h.rare (Nat.zero_lt_of_lt hover)
      have htop := UInt32.le_iff_toNat_le.mp (h.heap.top_le hitem)
      exact UInt32.le_iff_toNat_le.mpr ((htop.trans hf).trans (h.freq hn).1)
  · rw [hhash, h.hash, ← Bool.not_eq_true, EntryHeap.contains_iff]
    intro hheld
    obtain ⟨m, hm, heq⟩ := h.known _ hheld
    have hsame := plainFp_injective (by omega) (by omega) heq
    omega

theorem Filling.grows (h : Filling n s) (hn : n + 1 < 2 ^ 32) (hsize : n ≠ s.topThreshold) :
    ∃ a, (heapAt s.service.env s.topThreshold (newBatch n) s.service.enclave 1).Size = n + 1 ∧
      (heapAt s.service.env s.topThreshold (newBatch n) s.service.enclave 1).item =
        Function.update s.service.enclave.filter.heap.item (plainFp (dependentChunk n))
          (some (a, (queryAt s.service.env s.topThreshold (newBatch n) s.service.enclave
            0).chunkFreq)) := by
  have hhash : (queryAt s.service.env s.topThreshold (newBatch n) s.service.enclave 0).chunkHash =
      s.service.env.GenerateHash (dependentChunk n) := (single_query h.currNum rfl).2.1
  have hroom := @heapStep_room s.topThreshold _
    (queryAt s.service.env s.topThreshold (newBatch n) s.service.enclave) 0 h.heap
    (h.adds hn hsize) (h.size.trans_ne hsize)
  rw [h.size] at hroom
  rw [heapAt_succ, ← h.hash, ← hhash]
  exact hroom

theorem Filling.batch (h : Filling n s) (hn : n + 1 < 2 ^ 32) (hsize : n ≠ s.topThreshold) :
    ∃ s', topKStep s (.batch (newBatch n)) = some s' ∧ s'.topThreshold = s.topThreshold ∧
      Filling (n + 1) s' := by
  have hfreq := (h.freq hn).2
  obtain ⟨a, hgrown, hupdate⟩ := h.grows hn hsize
  obtain ⟨_, _, hcurr, hok, _⟩ :=
    @processChunks_spec s.service.env s.topThreshold (newBatch n) s.service.enclave h.currNum h.heap
  obtain ⟨hist, hlength, hcounts⟩ := h.counts
  have hlen : (hist ++ batchHashes s.service.env (newBatch n)).length < 2 ^ 32 := by
    rw [List.length_append, batchHashes_length, hlength]
    exact hn
  have hnext := (@sketchAt_spec s.service.env (newBatch n) s.service.enclave hist hcounts hlen 1
    (Nat.le_refl 1)).1
  have hfilter := processChunks_filter s.service.env s.topThreshold (newBatch n) s.service.enclave
  have hone : (newBatch n).chunkNum = 1 := rfl
  rw [hone] at hfilter
  have hheap := congrArg Filter.heap hfilter
  have hsketch := congrArg Filter.sketch hfilter
  dsimp only at hheap hsketch
  rw [← hheap] at hgrown hupdate
  rw [← hsketch] at hnext
  have hstep : topKStep s (.batch (newBatch n)) = some
      { s with
        service := { s.service with
          enclave := processChunks s.service.env s.topThreshold (newBatch n) s.service.enclave }
        added := s.added || addsBefore s.service.env s.topThreshold (newBatch n) s.service.enclave
          (newBatch n).chunkNum } := rfl
  refine ⟨_, hstep, rfl, ⟨h.hash, hcurr, hok, ?_, ?_, ?_, ?_⟩⟩
  · exact hgrown
  · intro key hkey
    dsimp only at hkey
    rw [hupdate, Function.update_apply] at hkey
    split at hkey
    case isTrue heq => exact ⟨n, Nat.lt_succ_self n, heq⟩
    case isFalse =>
      obtain ⟨m, hm, heq⟩ := h.known key hkey
      exact ⟨m, Nat.lt_succ_of_lt hm, heq⟩
  · refine ⟨_, ?_, hnext⟩
    rw [List.length_append, hlength]
    rfl
  · intro _
    dsimp only
    rw [hupdate]
    by_cases hzero : n = 0
    · refine ⟨plainFp (dependentChunk n), a, _, Function.update_self .., ?_⟩
      exact hfreq.trans_eq (by rw [hzero])
    · obtain ⟨key, a', f, hitem, hf⟩ := h.rare (Nat.pos_of_ne_zero hzero)
      refine ⟨key, a', f, ?_, hf⟩
      rw [Function.update_of_ne]
      · exact hitem
      · intro heq
        obtain ⟨m, hm, hm'⟩ := h.known key (by rw [hitem]; exact Option.some_ne_none _)
        have hsame := plainFp_injective (by omega) (by omega) (hm'.symm.trans heq)
        omega

/-- The chunks fill the heap of a run that is configured with 2048 entries. -/
theorem filling_runs (iv : IV) (inQueryBase : Nat → InQueryEntry)
    (outQueryBase : Nat → OutQueryEntry) (n : Nat) (hn : n ≤ 2048) :
    ∃ s, runs topKStep (.start plainEnv 2 false true iv inQueryBase outQueryBase)
        ((List.range n).map fun m => .batch (newBatch m)) = some s ∧
      s.topThreshold = 2048 ∧ Filling n s := by
  induction n with
  | zero =>
    have hnone : ∀ key, EntryHeap.empty.item key = none :=
      fun key => EntryHeap.item_eq_none.mpr (AList.lookup_empty key)
    refine ⟨_, rfl, rfl, ⟨rfl, rfl, EntryHeap.ok_empty, rfl, ?_, ⟨[], rfl, counts_empty⟩, ?_⟩⟩
    · intro key hkey
      exact absurd (hnone key) hkey
    · intro hpos
      exact absurd hpos (Nat.lt_irrefl 0)
  | succ n ih =>
    obtain ⟨s, hs, htop, h⟩ := ih (Nat.le_of_succ_le hn)
    obtain ⟨s', hs', htop', h'⟩ := h.batch (by omega) (by omega)
    refine ⟨s', ?_, htop'.trans htop, h'⟩
    rw [List.range_succ, List.map_append]
    exact runs_append.mpr ⟨s, hs, runs_cons.mpr ⟨s', hs', rfl⟩⟩

/-- A restart with another value. -/
theorem Filling.restart (h : Filling n s) (topKParam_ : UInt64) (iv : IV)
    (inQueryBase : Nat → InQueryEntry) (outQueryBase : Nat → OutQueryEntry) :
    ∃ o s', topKStep s (.restart topKParam_ plainEnv false true o [] iv inQueryBase outQueryBase) =
        some s' ∧ s'.topThreshold = GetTopKParam topKParam_ ∧ s'.loaded = n ∧ Filling n s' := by
  let o := DumpOrder.straight (endSession [] s.service.enclave.server).database
  obtain ⟨service, hservice⟩ : ∃ service, filterStep s.topThreshold s.service
      (.restart plainEnv false true o [] iv inQueryBase outQueryBase) = some service :=
    ⟨_, if_pos (DumpOrder.straight_of _)⟩
  have hstep : topKStep s (.restart topKParam_ plainEnv false true o [] iv inQueryBase
      outQueryBase) = some ⟨service, GetTopKParam topKParam_,
        service.enclave.filter.heap.Size, false⟩ := by
    unfold topKStep
    dsimp only
    rw [hservice, Option.map_some]
  obtain ⟨_, heq⟩ := Option.ite_none_right_eq_some.mp hservice
  have hload := @load_heap s.service.enclave.filter ⟨.empty, .empty⟩ h.heap rfl
  have hsize : service.enclave.filter.heap.Size = n := by
    rw [← Option.some.inj heq]
    exact hload.size.trans h.size
  obtain ⟨hist, hlength, hcounts⟩ := h.counts
  refine ⟨o, _, hstep, rfl, hsize, ?_⟩
  rw [← Option.some.inj heq] at hsize ⊢
  refine ⟨h.hash, rfl, hload.ok h.heap, hsize, ?_, ⟨hist, hlength, ?_⟩, ?_⟩
  · intro key hkey
    dsimp only at hkey
    rw [hload.item] at hkey
    exact h.known key hkey
  · intro i hi p hp
    dsimp only
    rw [load_counter hi hp]
    exact hcounts i hi p hp
  · intro hpos
    dsimp only
    rw [hload.item]
    exact h.rare hpos

/-- A run with 2048 entries that uploads `n` chunks, and a run with 1024. -/
theorem restarted_runs (n : Nat) (hn : n ≤ 2048) :
    ∃ o s, runs topKStep (.start plainEnv 2 false true (FixedBytes.fill 16 0) zeroIn zeroOut)
        ((List.range n).map (fun m => .batch (newBatch m)) ++
          [.restart 1 plainEnv false true o [] (FixedBytes.fill 16 1) zeroIn zeroOut]) = some s ∧
      s.topThreshold = 1024 ∧ s.loaded = n ∧ Filling n s := by
  obtain ⟨t, ht, _, hfilling⟩ := filling_runs (FixedBytes.fill 16 0) zeroIn zeroOut n hn
  obtain ⟨o, s, hs, htop, hloaded, h⟩ :=
    hfilling.restart 1 (FixedBytes.fill 16 1) zeroIn zeroOut
  exact ⟨o, s, runs_append.mpr ⟨t, ht, runs_cons.mpr ⟨s, hs, rfl⟩⟩, htop, hloaded, h⟩

end Growth

section LoadBound

/-- After any server runs, a batch keeps the bound exactly when the run adds no chunk up to its end
or is configured with a value that is positive and not less than what it has loaded. -/
theorem topK_bounded_iff (env : EnclaveEnv) (topKParam_ : UInt64) (Forward_Flag Offline_Flag : Bool)
    (iv : IV) (inQueryBase : Nat → InQueryEntry) (outQueryBase : Nat → OutQueryEntry)
    {acts : List TopKAction} {s : TopKRun}
    (hrun : runs topKStep
      (.start env topKParam_ Forward_Flag Offline_Flag iv inQueryBase outQueryBase) acts = some s)
    (b : ChunkBatch) :
    TopKBounded s b ↔
      (s.added = true ∨
          addsBefore s.service.env s.topThreshold b s.service.enclave b.chunkNum = true →
        0 < s.topThreshold ∧ s.loaded ≤ s.topThreshold) := by
  have h := topKRuns_sized hrun
  constructor
  · intro hbounded hadds
    by_contra hover
    exact h.not_bounded hover hadds hbounded
  · intro hcond
    by_cases hfits : FitsLoaded s.topThreshold s.loaded
    · exact h.bounded hfits b
    · have hnone : ¬(s.added = true ∨
          addsBefore s.service.env s.topThreshold b s.service.enclave b.chunkNum = true) :=
        fun hadds => hfits (hcond hadds)
      refine ⟨?_, ?_⟩
      · intro n hn hadds
        exfalso
        apply hnone
        rcases hadds with hadded | hbefore
        · exact Or.inl hadded
        · obtain ⟨i, hi, hadd⟩ := addsBefore_iff.mp hbefore
          exact Or.inr (addsBefore_iff.mpr ⟨i, hi.trans_le hn, hadd⟩)
      · intro i hi hadd
        exact absurd (Or.inr (addsBefore_iff.mpr ⟨i, hi, hadd⟩)) hnone

/-- The second run loads as many entries as it is configured with. -/
theorem topK_bounded_iff_full : ∃ o s,
    runs topKStep (.start plainEnv 2 false true (FixedBytes.fill 16 0) zeroIn zeroOut)
      ((List.range 1024).map (fun m => .batch (newBatch m)) ++
        [.restart 1 plainEnv false true o [] (FixedBytes.fill 16 1) zeroIn zeroOut]) = some s ∧
    TopKBounded s (newBatch 1024) := by
  obtain ⟨o, s, hrun, htop, hloaded, _⟩ := restarted_runs 1024 (by decide)
  refine ⟨o, s, hrun, ?_⟩
  apply (topK_bounded_iff plainEnv 2 false true (FixedBytes.fill 16 0) zeroIn zeroOut hrun
    (newBatch 1024)).mpr
  intro _
  rw [htop, hloaded]
  decide

/-- With one entry more it adds the next chunk to these. -/
theorem topK_grows : ∃ o s,
    runs topKStep (.start plainEnv 2 false true (FixedBytes.fill 16 0) zeroIn zeroOut)
      ((List.range 1025).map (fun m => .batch (newBatch m)) ++
        [.restart 1 plainEnv false true o [] (FixedBytes.fill 16 1) zeroIn zeroOut]) = some s ∧
    s.topThreshold = 1024 ∧ s.loaded = 1025 ∧
    (heapAt s.service.env s.topThreshold (newBatch 1025) s.service.enclave 1).Size = 1026 ∧
    ¬TopKBounded s (newBatch 1025) := by
  obtain ⟨o, s, hrun, htop, hloaded, h⟩ := restarted_runs 1025 (by decide)
  have hne : 1025 ≠ s.topThreshold := by
    rw [htop]
    decide
  have hadds := h.adds (by decide) hne
  obtain ⟨_, hsize, _⟩ := h.grows (by decide) hne
  refine ⟨o, s, hrun, htop, hloaded, hsize, ?_⟩
  apply (topKRuns_sized hrun).not_bounded
  · rw [htop, hloaded]
    exact fun hfits => absurd hfits.2 (by decide)
  · exact Or.inr (addsBefore_iff.mpr ⟨0, Nat.one_pos, hadds⟩)

end LoadBound

end ShieldReduce.Prototype.EcallFreqIndex
