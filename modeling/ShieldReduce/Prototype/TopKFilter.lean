import Mathlib.Algebra.Order.Group.Nat
import Mathlib.Data.List.Count
import ShieldReduce.Prototype.ExactDedup
import ShieldReduce.Prototype.Lifetimes

/-!
# The frequency filter over whole runs

Batches, logins and restarts, between which the sketch and the heap are sealed and read back.
-/

namespace ShieldReduce.Prototype.EcallFreqIndex
open Lib Store EDelta

section Counts
variable {sk : EcallCMSketch} {hist : List Fp}

/-- The counters count the chunks of `hist`. -/
def Counts (sk : EcallCMSketch) (hist : List Fp) : Prop :=
  ∀ i < sketchDepth, ∀ p < sketchWidth,
    sk.counterArray i p = UInt32.ofNat (hist.countP fun fp => sketchPos fp i = p)

theorem sketchPos_lt (fp : Fp) (i : Nat) : sketchPos fp i < sketchWidth :=
  Nat.mod_lt _ (by decide)

theorem counts_empty : Counts .empty [] := fun _ _ _ _ => rfl

theorem Counts.update (h : Counts sk hist) (fp : Fp) : Counts (sk.Update fp 1) (hist ++ [fp]) := by
  intro i hi p hp
  unfold EcallCMSketch.Update
  dsimp only
  rw [if_pos hi, List.countP_append, Function.update_apply]
  by_cases hpos : p = sketchPos fp i
  · have hone : List.countP (fun fp => decide (sketchPos fp i = p)) [fp] = 1 := by simp [hpos]
    rw [if_pos hpos, hone, ← hpos, h i hi p hp, UInt32.ofNat_add]
    rfl
  · have hzero : List.countP (fun fp => decide (sketchPos fp i = p)) [fp] = 0 := by
      simp [Ne.symm hpos]
    rw [if_neg hpos, hzero, Nat.add_zero, h i hi p hp]

/-- The estimate is the least counter of the fingerprint. -/
theorem le_estimate {n : Nat} {fp : Fp} :
    n ≤ (sk.Estimate fp).toNat ↔
      n < 2 ^ 32 ∧ ∀ i < sketchDepth, n ≤ (sk.counterArray i (sketchPos fp i)).toNat := by
  have hfold : ∀ (l : List Nat) (m : UInt32),
      n ≤ (l.foldl (fun minVal i => min minVal (sk.counterArray i (sketchPos fp i))) m).toNat ↔
        n ≤ m.toNat ∧ ∀ i ∈ l, n ≤ (sk.counterArray i (sketchPos fp i)).toNat := by
    intro l
    induction l with
    | nil => intro m; simp
    | cons i l ih =>
      intro m
      have hmin : n ≤ (min m (sk.counterArray i (sketchPos fp i))).toNat ↔
          n ≤ m.toNat ∧ n ≤ (sk.counterArray i (sketchPos fp i)).toNat := by
        rw [UInt32.toNat_min, Nat.le_min]
      rw [List.foldl_cons, ih, hmin, List.forall_mem_cons, and_assoc]
  unfold EcallCMSketch.Estimate
  rw [hfold]
  have hmax : n ≤ (4294967295 : UInt32).toNat ↔ n < 2 ^ 32 := by
    change n ≤ 4294967295 ↔ n < 4294967296
    omega
  rw [hmax]
  exact and_congr_right fun _ => forall_congr' fun i => by rw [List.mem_range]

theorem Counts.counter (h : Counts sk hist) (hlen : hist.length < 2 ^ 32) {i : Nat}
    (hi : i < sketchDepth) (fp : Fp) :
    (sk.counterArray i (sketchPos fp i)).toNat =
      hist.countP fun fp' => sketchPos fp' i = sketchPos fp i := by
  have hle := @List.countP_le_length _ (fun fp' => decide (sketchPos fp' i = sketchPos fp i)) hist
  rw [h i hi _ (sketchPos_lt fp i), UInt32.toNat_ofNat', Nat.mod_eq_of_lt (hle.trans_lt hlen)]

/-- The estimate is not below the true count. -/
theorem Counts.count_le (h : Counts sk hist) (hlen : hist.length < 2 ^ 32) (fp : Fp) :
    hist.count fp ≤ (sk.Estimate fp).toNat := by
  apply le_estimate.mpr
  refine ⟨List.count_le_length.trans_lt hlen, ?_⟩
  intro i hi
  rw [h.counter hlen hi]
  apply List.countP_mono_left
  intro fp' _ heq
  rw [beq_iff_eq] at heq
  rw [heq, decide_eq_true_iff]

/-- More chunks never make an estimate smaller. -/
theorem Counts.mono (h : Counts sk hist) {sk' : EcallCMSketch} {more : List Fp}
    (h' : Counts sk' (hist ++ more)) (hlen : (hist ++ more).length < 2 ^ 32) (fp : Fp) :
    (sk.Estimate fp).toNat ≤ (sk'.Estimate fp).toNat := by
  have hold : hist.length < 2 ^ 32 := by
    rw [List.length_append] at hlen
    omega
  obtain ⟨hsmall, hleast⟩ := (@le_estimate sk _ fp).mp (Nat.le_refl _)
  apply le_estimate.mpr
  refine ⟨hsmall, ?_⟩
  intro i hi
  refine (hleast i hi).trans ?_
  rw [h.counter hold hi, h'.counter hlen hi, List.countP_append]
  exact Nat.le_add_right _ _

end Counts

section Frequencies
variable {env : EnclaveEnv} {topThreshold : Nat} {b : ChunkBatch} {e : Enclave} {hist : List Fp}

def batchHashes (env : EnclaveEnv) (b : ChunkBatch) : List Fp := b.chunks.map env.GenerateHash

theorem batchHashes_length (env : EnclaveEnv) (b : ChunkBatch) :
    (batchHashes env b).length = b.chunkNum := List.length_map ..

/-- The frequencies of the first `n` queries lie between two estimates. -/
def Bounded (lo hi : EcallCMSketch) (ins : Nat → InQueryEntry) (n : Nat) : Prop :=
  ∀ j < n, (lo.Estimate (ins j).chunkHash).toNat ≤ (ins j).chunkFreq.toNat ∧
    (ins j).chunkFreq.toNat ≤ (hi.Estimate (ins j).chunkHash).toNat

theorem take_lt {n : Nat} {more : List Fp} (hlen : (hist ++ more).length < 2 ^ 32) :
    (hist ++ more.take n).length < 2 ^ 32 := by
  rw [List.length_append, List.length_take]
  rw [List.length_append] at hlen
  omega

/-- The loop counts the chunks and gives every query an estimate. -/
theorem sketchLoop_spec {sk : EcallCMSketch} {ins : Nat → InQueryEntry} {hashes : List Fp}
    (h : Counts sk hist) (hhash : ∀ j, (hj : j < hashes.length) → (ins j).chunkHash = hashes[j])
    (hlen : (hist ++ hashes).length < 2 ^ 32) {n : Nat} (hn : n ≤ hashes.length) :
    Counts (sketchLoop n (sk, ins)).1 (hist ++ hashes.take n) ∧
      Bounded sk (sketchLoop n (sk, ins)).1 (sketchLoop n (sk, ins)).2 n := by
  induction n with
  | zero =>
    rw [List.take_zero, List.append_nil]
    exact ⟨h, fun j hj => absurd hj (Nat.not_lt_zero j)⟩
  | succ n ih =>
    have hlt : n < hashes.length := hn
    obtain ⟨hcounts, hbounded⟩ := ih hlt.le
    have htake : hashes.take (n + 1) =
        hashes.take n ++ [((sketchLoop n (sk, ins)).2 n).chunkHash] := by
      rw [sketchLoop_hash, hhash n hlt, List.take_append_getElem hlt]
    have hnext : Counts (sketchLoop (n + 1) (sk, ins)).1 (hist ++ hashes.take (n + 1)) := by
      rw [htake, ← List.append_assoc]
      exact hcounts.update _
    refine ⟨hnext, ?_⟩
    intro j hj
    have hself : (sketchLoop (n + 1) (sk, ins)).2 n =
        { (sketchLoop n (sk, ins)).2 n with
          chunkFreq := (sketchLoop (n + 1) (sk, ins)).1.Estimate
            ((sketchLoop n (sk, ins)).2 n).chunkHash } := Function.update_self ..
    have hother : j ≠ n → (sketchLoop (n + 1) (sk, ins)).2 j = (sketchLoop n (sk, ins)).2 j :=
      fun hjn => Function.update_of_ne hjn ..
    by_cases hjn : j = n
    · rw [hjn, hself]
      exact ⟨h.mono hnext (take_lt hlen) _, Nat.le_refl _⟩
    · rw [hother hjn]
      obtain ⟨hlow, hup⟩ := hbounded j (by omega)
      refine ⟨hlow, hup.trans ?_⟩
      rw [htake, ← List.append_assoc] at hnext
      apply hcounts.mono hnext
      have hlt' := @take_lt hist (n + 1) _ hlen
      rw [htake, ← List.append_assoc] at hlt'
      exact hlt'

theorem hashChunks_getElem (env : EnclaveEnv) (chunks : List Bytes) (ins : Nat → InQueryEntry)
    (j : Nat) (hj : j < (chunks.map env.GenerateHash).length) :
    (hashChunks env chunks ins j).chunkHash = (chunks.map env.GenerateHash)[j] := by
  have hlt : j < chunks.length := by
    rw [List.length_map] at hj
    exact hj
  rw [hashChunks_hash env _ hlt, List.getElem_map, List.getD_eq_getElem?_getD,
    List.getElem?_eq_getElem hlt, Option.getD_some]

/-- The sketch after `n` chunks of a batch. -/
def sketchAt (env : EnclaveEnv) (b : ChunkBatch) (e : Enclave) (n : Nat) :
    EcallCMSketch × (Nat → InQueryEntry) :=
  sketchLoop n (e.filter.sketch, hashChunks env b.chunks e.queries.inQueryBase)

theorem sketchAt_spec (h : Counts e.filter.sketch hist)
    (hlen : (hist ++ batchHashes env b).length < 2 ^ 32) {n : Nat} (hn : n ≤ b.chunkNum) :
    Counts (sketchAt env b e n).1 (hist ++ (batchHashes env b).take n) ∧
      Bounded e.filter.sketch (sketchAt env b e n).1 (sketchAt env b e n).2 n :=
  sketchLoop_spec h (hashChunks_getElem env b.chunks _) hlen (hn.trans_eq (batchHashes_length env b).symm)

/-- A pass of the check gives no query a frequency but its own or that of the same chunk. -/
theorem checkStep_ins (heap : EntryHeap) (minFreq : UInt32) (i : Nat) (st : Check) (j : Nat) :
    ((checkStep env heap minFreq i st).ins j).chunkHash = (st.ins j).chunkHash ∧
      (((checkStep env heap minFreq i st).ins j).chunkFreq = (st.ins j).chunkFreq ∨
        st.localIndex.lookup (st.ins i).chunkHash = some j ∧
          ((checkStep env heap minFreq i st).ins j).chunkFreq = (st.ins i).chunkFreq) := by
  have hupdate : ∀ {ins : Nat → InQueryEntry} {q : InQueryEntry} {k : Nat},
      q.chunkHash = (ins k).chunkHash → q.chunkFreq = (ins k).chunkFreq →
      (Function.update ins k q j).chunkHash = (ins j).chunkHash ∧
        (Function.update ins k q j).chunkFreq = (ins j).chunkFreq := by
    intro ins q k hhash hfreq
    by_cases hj : j = k
    · rw [hj, Function.update_self]
      exact ⟨hhash, hfreq⟩
    · rw [Function.update_of_ne hj]
      exact ⟨rfl, rfl⟩
  unfold checkStep
  dsimp only
  cases hlook : st.localIndex.lookup (st.ins i).chunkHash with
  | some offset =>
    have hflagged : ∀ (flag : InDedupFlag) (ins : Nat → InQueryEntry),
        ins = Function.update (Function.update st.ins i
          { st.ins i with
            dedupFlag := flag
            chunkAddr := { (st.ins i).chunkAddr with offset := UInt32.ofNat offset } }) offset
          { st.ins offset with chunkFreq := (st.ins i).chunkFreq } →
        (ins j).chunkHash = (st.ins j).chunkHash ∧
          ((ins j).chunkFreq = (st.ins j).chunkFreq ∨
            some offset = some j ∧ (ins j).chunkFreq = (st.ins i).chunkFreq) := by
      intro flag ins hins
      rw [hins]
      by_cases hj : j = offset
      · rw [hj, Function.update_self]
        exact ⟨rfl, Or.inr ⟨rfl, rfl⟩⟩
      · rw [Function.update_of_ne hj]
        obtain ⟨hhash, hfreq⟩ := @hupdate st.ins
          { st.ins i with
            dedupFlag := flag
            chunkAddr := { (st.ins i).chunkAddr with offset := UInt32.ofNat offset } } i rfl rfl
        exact ⟨hhash, Or.inl hfreq⟩
    unfold Check.repeated
    dsimp only
    split
    · exact hflagged _ _ rfl
    · exact hflagged _ _ rfl
    · exact ⟨rfl, Or.inl rfl⟩
  | none =>
    dsimp only
    have hask : ((st.ask env i).ins j).chunkHash = (st.ins j).chunkHash ∧
        ((st.ask env i).ins j).chunkFreq = (st.ins j).chunkFreq := hupdate rfl rfl
    split
    · exact ⟨hask.1, Or.inl hask.2⟩
    · split
      case h_1 item _ =>
        obtain ⟨hhash, hfreq⟩ := @hupdate st.ins
          { st.ins i with dedupFlag := .DUPLICATE, chunkAddr := item.address } i rfl rfl
        exact ⟨hhash, Or.inl hfreq⟩
      case h_2 => exact ⟨hask.1, Or.inl hask.2⟩

theorem checkLoop_bounded {lo hi : EcallCMSketch} {heap : EntryHeap} {minFreq : UInt32}
    {ins : Nat → InQueryEntry} {outs : Nat → OutQueryEntry} {m : Nat} (h : Bounded lo hi ins m)
    {n : Nat} (hn : n ≤ m) :
    Bounded lo hi (checkLoop env heap minFreq n ⟨ins, outs, ∅, 0⟩).ins m := by
  induction n with
  | zero => exact h
  | succ n ih =>
    intro j hj
    have hbounded := ih (Nat.le_of_succ_le hn)
    have hchecked := @checkLoop_spec env heap ins minFreq outs n
    have hstep : checkLoop env heap minFreq (n + 1) ⟨ins, outs, ∅, 0⟩ =
        checkStep env heap minFreq n (checkLoop env heap minFreq n ⟨ins, outs, ∅, 0⟩) := rfl
    rw [hstep]
    generalize checkLoop env heap minFreq n ⟨ins, outs, ∅, 0⟩ = st at hbounded hchecked
    obtain ⟨hhash, hfreq⟩ := @checkStep_ins env heap minFreq n st j
    rw [hhash]
    rcases hfreq with hsame | ⟨hlook, hother⟩
    · rw [hsame]
      exact hbounded j hj
    · have hsame : (st.ins j).chunkHash = (st.ins n).chunkHash := by
        rw [hchecked.hash j, (hchecked.located hlook).2.1]
      rw [hother, hsame]
      exact hbounded n hn

/-- The update of the heap after `n` queries. -/
def heapAt (env : EnclaveEnv) (topThreshold : Nat) (b : ChunkBatch) (e : Enclave) (n : Nat) :
    EntryHeap :=
  heapLoop topThreshold (chunksAt env topThreshold b e b.chunkNum).1.queries.inQueryBase n
    e.filter.heap

theorem processChunks_filter (env : EnclaveEnv) (topThreshold : Nat) (b : ChunkBatch)
    (e : Enclave) : (processChunks env topThreshold b e).filter =
      ⟨(sketchAt env b e b.chunkNum).1, heapAt env topThreshold b e b.chunkNum⟩ := by
  unfold processChunks
  dsimp only
  split
  · rfl
  · rfl

/-- The frequencies with which the heap is updated. -/
theorem chunksAt_bounded {lo hi : EcallCMSketch} (hcurr : e.queries.currNum = 0)
    (h : Bounded lo hi (sketched env b e).2 b.chunkNum) :
    Bounded lo hi (chunksAt env topThreshold b e b.chunkNum).1.queries.inQueryBase b.chunkNum := by
  have hchecked := @checkLoop_bounded env _ _ e.filter.heap (minFreq topThreshold e.filter.heap) _
    e.queries.outQueryBase _ h _ (Nat.le_refl b.chunkNum)
  obtain ⟨st, hsame, _, _, _, _, hlooped⟩ := @chunksAt_spec env topThreshold b e hcurr b.chunkNum
  intro j hj
  rw [((hsame.trans hlooped.kept.ins) j).2.1, ((hsame.trans hlooped.kept.ins) j).2.2]
  exact hchecked j hj

/-- The sketch counts what has been uploaded, and knows of what is in the heap. -/
structure Tracked (sk : EcallCMSketch) (heap : EntryHeap) (hist : List Fp) : Prop where
  counts : Counts sk hist
  stored : ∀ {key a f}, heap.item key = some (a, f) → f.toNat ≤ (sk.Estimate key).toNat

theorem Tracked.sketched (h : Tracked e.filter.sketch e.filter.heap hist)
    (hlen : (hist ++ batchHashes env b).length < 2 ^ 32) {n : Nat} (hn : n ≤ b.chunkNum) :
    Tracked (sketchAt env b e n).1 e.filter.heap (hist ++ (batchHashes env b).take n) := by
  have hcounts := (sketchAt_spec h.counts hlen hn).1
  refine ⟨hcounts, ?_⟩
  intro key a f hitem
  exact (h.stored hitem).trans (h.counts.mono hcounts (take_lt hlen) key)

theorem Tracked.updated (h : Tracked e.filter.sketch e.filter.heap hist) (hok : e.filter.heap.Ok)
    (hcurr : e.queries.currNum = 0) (hlen : (hist ++ batchHashes env b).length < 2 ^ 32) {n : Nat}
    (hn : n ≤ b.chunkNum) :
    (heapAt env topThreshold b e n).Ok ∧
      Tracked (sketchAt env b e b.chunkNum).1 (heapAt env topThreshold b e n)
        (hist ++ batchHashes env b) := by
  have hall : (batchHashes env b).take b.chunkNum = batchHashes env b := by
    rw [← batchHashes_length env b, List.take_length]
  have hsketch := h.sketched hlen (Nat.le_refl b.chunkNum)
  rw [hall] at hsketch
  have hbounded := @chunksAt_bounded env topThreshold b e _ _ hcurr
    (sketchAt_spec h.counts hlen (Nat.le_refl b.chunkNum)).2
  induction n with
  | zero => exact ⟨hok, hsketch⟩
  | succ n ih =>
    obtain ⟨hok', htracked⟩ := ih (Nat.le_of_succ_le hn)
    refine ⟨heapStep_ok hok', hsketch.counts, ?_⟩
    intro key a f hitem
    rcases heapStep_item hok' hitem with hold | ⟨hkey, _, hfreq⟩
    · exact htracked.stored hold
    · dsimp only at hfreq
      rw [hkey, hfreq]
      exact (hbounded n hn).2

/-- A chunk that is too rare to be looked up is not in the heap. -/
theorem Tracked.skipped (h : Tracked e.filter.sketch e.filter.heap hist) (hok : e.filter.heap.Ok)
    (hlen : (hist ++ batchHashes env b).length < 2 ^ 32) {n : Nat} (hn : n < b.chunkNum)
    (hskip : ((checkAt env topThreshold b e n).ins n).chunkFreq <
      minFreq topThreshold e.filter.heap) :
    e.filter.heap.Contains ((checkAt env topThreshold b e n).ins n).chunkHash = false := by
  have hbounded := @checkLoop_bounded env _ _ e.filter.heap (minFreq topThreshold e.filter.heap) _
    e.queries.outQueryBase _ (sketchAt_spec h.counts hlen (Nat.le_refl b.chunkNum)).2 n hn.le
  rw [← Bool.not_eq_true, EntryHeap.contains_iff, not_not]
  by_contra hne
  obtain ⟨⟨a, f⟩, hitem⟩ := Option.ne_none_iff_exists'.mp hne
  have htop : (minFreq topThreshold e.filter.heap).toNat ≤ f.toNat := by
    unfold minFreq
    split
    · exact UInt32.le_iff_toNat_le.mp (hok.top_le hitem)
    · exact Nat.zero_le _
  have hlt := UInt32.lt_iff_toNat_lt.mp hskip
  have hle := (htop.trans (h.stored hitem)).trans (hbounded n hn).1
  exact absurd hlt (not_lt.mpr hle)

end Frequencies

section Minimum
variable {topThreshold : Nat} {m : UInt32} {heap : EntryHeap}

/-- The heap has become full with a least frequency of `m` or more. -/
def AtLeast (topThreshold : Nat) (m : UInt32) (heap : EntryHeap) : Prop :=
  m = 0 ∨ topThreshold ≠ 0 ∧ heap.Size = topThreshold ∧ m ≤ heap.TopEntry

theorem atLeast_top (hfull : heap.Size = topThreshold) :
    AtLeast topThreshold heap.TopEntry heap := by
  by_cases hzero : topThreshold = 0
  · left
    have hnil : heap.heap = [] := List.length_eq_zero_iff.mp (hfull.trans hzero)
    unfold EntryHeap.TopEntry EntryHeap.freqAt
    rw [hnil]
    rfl
  · exact Or.inr ⟨hzero, hfull, UInt32.le_refl _⟩

theorem AtLeast.le (h : AtLeast topThreshold m heap) : m ≤ heap.TopEntry := by
  rcases h with hzero | ⟨_, _, hle⟩
  · rw [hzero]
    exact UInt32.le_iff_toNat_le.mpr (Nat.zero_le _)
  · exact hle

/-- A full heap drops an item only for one that is not less frequent. -/
theorem AtLeast.step (h : AtLeast topThreshold m heap) (hok : heap.Ok)
    (ins : Nat → InQueryEntry) (i : Nat) :
    AtLeast topThreshold m (heapStep topThreshold ins i heap) := by
  rcases h with hzero | ⟨hpos, hfull, hle⟩
  · exact Or.inl hzero
  right
  by_cases henters : Enters topThreshold (ins i) heap
  case neg =>
    rw [heapStep_of_not_enters henters]
    exact ⟨hpos, hfull, hle⟩
  obtain ⟨a, hrefreshed, hcase⟩ := heapStep_of_enters hok henters
  have hsize : (heapStep topThreshold ins i heap).Size = topThreshold := by
    rcases hcase with ⟨_, _, hsize, _⟩ | ⟨_, _, ⟨hroom, _⟩ | ⟨_, hsize, _⟩⟩
    · exact hsize.trans hfull
    · rcases hroom with hne | hempty
      · exact absurd hfull hne
      · exact absurd (hfull.symm.trans hempty) hpos
    · exact hsize.trans hfull
  have hnonempty : (heapStep topThreshold ins i heap).Size ≠ 0 := by
    rw [hsize]
    exact hpos
  obtain ⟨top, a', _, htop⟩ := hrefreshed.ok.top hnonempty
  refine ⟨hpos, hsize, UInt32.le_trans hle ?_⟩
  rcases heapStep_item hok htop with hold | ⟨_, _, hfreq⟩
  · exact hok.top_le hold
  · dsimp only at hfreq
    rw [hfreq]
    rcases hrefreshed.fits with hroom | hfits
    · exact absurd hfull hroom.ne
    · exact hfits

theorem AtLeast.loop (h : AtLeast topThreshold m heap) (hok : heap.Ok)
    (ins : Nat → InQueryEntry) (n : Nat) :
    (heapLoop topThreshold ins n heap).Ok ∧
      AtLeast topThreshold m (heapLoop topThreshold ins n heap) := by
  apply @forLoop_preserve EntryHeap (fun heap => heap.Ok ∧ AtLeast topThreshold m heap)
  · exact ⟨hok, h⟩
  · rintro i heap' _ ⟨hok', h'⟩
    exact ⟨heapStep_ok hok', h'.step hok' ins i⟩

end Minimum

end ShieldReduce.Prototype.EcallFreqIndex
