import ShieldReduce.Prototype.EntryHeap
import ShieldReduce.Prototype.ProcessBatch

/-!
# The two cursors of a batch

Every loop over the in-enclave queries meets the unique ones together with the out-enclave queries
that were written for them.
-/

namespace ShieldReduce.Prototype.EcallFreqIndex
open Lib Store EDelta

/-- How many of the first `n` queries are unique for the enclave. -/
def uniqueRank (ins : Nat → InQueryEntry) : Nat → Nat
  | 0 => 0
  | n + 1 => uniqueRank ins n + if (ins n).dedupFlag = .UNIQUE then 1 else 0

section Rank
variable {ins ins' : Nat → InQueryEntry}

theorem uniqueRank_congr {n : Nat} (h : ∀ i < n, (ins' i).dedupFlag = (ins i).dedupFlag) :
    uniqueRank ins' n = uniqueRank ins n := by
  induction n with
  | zero => rfl
  | succ n ih =>
    unfold uniqueRank
    rw [ih fun i hi => h i (Nat.lt_succ_of_lt hi), h n (Nat.lt_succ_self n)]

theorem uniqueRank_mono {m n : Nat} (h : m ≤ n) : uniqueRank ins m ≤ uniqueRank ins n := by
  induction n with
  | zero => rw [Nat.le_zero.mp h]
  | succ n ih =>
    rcases Nat.lt_or_eq_of_le h with hlt | heq
    · exact (ih (Nat.le_of_lt_succ hlt)).trans (Nat.le_add_right _ _)
    · rw [heq]

theorem uniqueRank_lt {i n : Nat} (hi : i < n) (hu : (ins i).dedupFlag = .UNIQUE) :
    uniqueRank ins i < uniqueRank ins n := by
  have hnext : uniqueRank ins (i + 1) = uniqueRank ins i + 1 := by
    rw [uniqueRank, if_pos hu]
  have hmono := @uniqueRank_mono ins _ _ (Nat.succ_le_of_lt hi)
  rw [Nat.succ_eq_add_one, hnext] at hmono
  exact hmono

/-- The out-enclave queries below the number of unique chunks are those of the unique chunks. -/
theorem exists_of_lt_uniqueRank {k n : Nat} (hk : k < uniqueRank ins n) :
    ∃ i < n, (ins i).dedupFlag = .UNIQUE ∧ uniqueRank ins i = k := by
  induction n with
  | zero => exact absurd hk (Nat.not_lt_zero k)
  | succ n ih =>
    by_cases hlt : k < uniqueRank ins n
    · obtain ⟨i, hi, hu⟩ := ih hlt
      exact ⟨i, Nat.lt_succ_of_lt hi, hu⟩
    · unfold uniqueRank at hk
      by_cases hu : (ins n).dedupFlag = .UNIQUE
      · rw [if_pos hu] at hk
        exact ⟨n, Nat.lt_succ_self n, hu, by omega⟩
      · rw [if_neg hu] at hk
        exact absurd hk hlt

end Rank

section Traversal
variable {S : Type} {ins : S → Nat → InQueryEntry} {body : Nat → Nat → S → S}

/-- A loop that leaves the flags alone meets unique query after unique query at the cursor of its
rank, and what its body does there. -/
theorem traversal_spec {P : Nat → S → Prop} {s : S} (n : Nat) (h₀ : P 0 s)
    (hflags : ∀ i k s j, (ins (body i k s) j).dedupFlag = (ins s j).dedupFlag)
    (hskip : ∀ i s', i < n → P i s' → (ins s i).dedupFlag ≠ .UNIQUE → P (i + 1) s')
    (hbody : ∀ i s', i < n → P i s' → (ins s i).dedupFlag = .UNIQUE →
      P (i + 1) (body i (uniqueRank (ins s) i) s')) :
    (forLoop n (uniqueStep ins body) (s, 0)).2 = uniqueRank (ins s) n ∧
      P n (forLoop n (uniqueStep ins body) (s, 0)).1 ∧
      ∀ j, (ins (forLoop n (uniqueStep ins body) (s, 0)).1 j).dedupFlag = (ins s j).dedupFlag := by
  apply @forLoop_spec (S × Nat)
    (fun i st => st.2 = uniqueRank (ins s) i ∧ P i st.1 ∧
      ∀ j, (ins st.1 j).dedupFlag = (ins s j).dedupFlag)
  · exact ⟨rfl, h₀, fun _ => rfl⟩
  · rintro i ⟨s', k⟩ hi ⟨hk, hp, hsame⟩
    dsimp only at hk hp hsame
    unfold uniqueStep uniqueRank
    dsimp only
    rw [hsame i]
    by_cases hu : (ins s i).dedupFlag = .UNIQUE
    · rw [if_pos hu, if_pos hu, hk]
      exact ⟨rfl, hbody i s' hi hp hu, fun j => (hflags i _ s' j).trans (hsame j)⟩
    · rw [if_neg hu, if_neg hu]
      exact ⟨hk, hskip i s' hi hp hu, hsame⟩

end Traversal

section Check
variable {env : EnclaveEnv} {heap : EntryHeap} {ins₀ : Nat → InQueryEntry} {n : Nat} {st : Check}

/-- The first `n` chunks have been looked for in the batch and in the heap. -/
structure Checked (env : EnclaveEnv) (heap : EntryHeap) (ins₀ : Nat → InQueryEntry) (n : Nat)
    (st : Check) : Prop where
  num : st.outQueryNum = uniqueRank st.ins n
  hash : ∀ i, (st.ins i).chunkHash = (ins₀ i).chunkHash
  asked : ∀ i < n, (st.ins i).dedupFlag = .UNIQUE →
    (st.outs (uniqueRank st.ins i)).chunkHash = env.IndexAESCMCEnc (ins₀ i).chunkHash
  located : ∀ {key j}, st.localIndex.lookup key = some j → j < n ∧ (ins₀ j).chunkHash = key ∧
    ((st.ins j).dedupFlag = .UNIQUE ∨ (st.ins j).dedupFlag = .DUPLICATE)
  covered : ∀ i < n, st.localIndex.lookup (ins₀ i).chunkHash ≠ none
  first : ∀ i < n, (st.ins i).dedupFlag = .UNIQUE ∨ (st.ins i).dedupFlag = .DUPLICATE →
    st.localIndex.lookup (ins₀ i).chunkHash = some i
  held : ∀ i < n, (st.ins i).dedupFlag = .DUPLICATE → heap.item (ins₀ i).chunkHash ≠ none

theorem checked_zero (outs : Nat → OutQueryEntry) : Checked env heap ins₀ 0 ⟨ins₀, outs, ∅, 0⟩ := by
  refine ⟨rfl, fun _ => rfl, ?_, ?_, ?_, ?_, ?_⟩
  · intro i hi
    exact absurd hi (Nat.not_lt_zero i)
  · intro key j hj
    rw [AList.lookup_empty] at hj
    exact absurd hj (by simp)
  · intro i hi
    exact absurd hi (Nat.not_lt_zero i)
  · intro i hi
    exact absurd hi (Nat.not_lt_zero i)
  · intro i hi
    exact absurd hi (Nat.not_lt_zero i)

/-- A chunk that the batch has not met before. -/
theorem Checked.next (h : Checked env heap ins₀ n st)
    (hnone : st.localIndex.lookup (ins₀ n).chunkHash = none) {ins : Nat → InQueryEntry}
    {outs : Nat → OutQueryEntry} {num : Nat}
    (hflag : ∀ i < n, (ins i).dedupFlag = (st.ins i).dedupFlag)
    (hhash : ∀ i, (ins i).chunkHash = (st.ins i).chunkHash)
    (hcase : (ins n).dedupFlag = .UNIQUE ∧ num = st.outQueryNum + 1 ∧
        (∀ k, k ≠ st.outQueryNum → outs k = st.outs k) ∧
        (outs st.outQueryNum).chunkHash = env.IndexAESCMCEnc (ins₀ n).chunkHash ∨
      (ins n).dedupFlag = .DUPLICATE ∧ num = st.outQueryNum ∧ outs = st.outs ∧
        heap.item (ins₀ n).chunkHash ≠ none) :
    Checked env heap ins₀ (n + 1)
      ⟨ins, outs, st.localIndex.insert (ins₀ n).chunkHash n, num⟩ := by
  have hrank : ∀ i ≤ n, uniqueRank ins i = uniqueRank st.ins i :=
    fun i hi => uniqueRank_congr fun j hj => hflag j (hj.trans_le hi)
  have hnew : (ins n).dedupFlag = .UNIQUE ∨ (ins n).dedupFlag = .DUPLICATE := by
    rcases hcase with h | h
    · exact Or.inl h.1
    · exact Or.inr h.1
  have hother : ∀ i < n, (ins₀ i).chunkHash ≠ (ins₀ n).chunkHash := by
    intro i hi heq
    apply h.covered i hi
    rw [heq]
    exact hnone
  refine ⟨?_, ?_, ?_, ?_, ?_, ?_, ?_⟩
  · unfold uniqueRank
    rw [hrank n (Nat.le_refl n), ← h.num]
    rcases hcase with ⟨hu, hnum, _⟩ | ⟨hd, hnum, _⟩
    · rw [if_pos hu]
      exact hnum
    · rw [if_neg (by rw [hd]; simp)]
      exact hnum
  · intro i
    exact (hhash i).trans (h.hash i)
  · intro i hi hu
    dsimp only at hu ⊢
    rcases Nat.lt_or_eq_of_le (Nat.le_of_lt_succ hi) with hlt | heq
    · rw [hflag i hlt] at hu
      rw [hrank i hlt.le]
      have hk : uniqueRank st.ins i ≠ st.outQueryNum := by
        rw [h.num]
        exact (uniqueRank_lt hlt hu).ne
      rcases hcase with ⟨_, _, houts, _⟩ | ⟨_, _, houts, _⟩
      · rw [houts _ hk]
        exact h.asked i hlt hu
      · rw [houts]
        exact h.asked i hlt hu
    · rw [heq] at hu ⊢
      rw [hrank n (Nat.le_refl n), ← h.num]
      rcases hcase with ⟨_, _, _, hasked⟩ | ⟨hd, _⟩
      · exact hasked
      · rw [hd] at hu
        exact absurd hu (by simp)
  · intro key j hj
    dsimp only at hj ⊢
    rw [Table.lookup_insert_ite] at hj
    by_cases hk : key = (ins₀ n).chunkHash
    · rw [if_pos hk, Option.some.injEq] at hj
      rw [← hj]
      exact ⟨Nat.lt_succ_self n, hk.symm, hnew⟩
    · rw [if_neg hk] at hj
      obtain ⟨hlt, hkey, hset⟩ := h.located hj
      refine ⟨Nat.lt_succ_of_lt hlt, hkey, ?_⟩
      rw [hflag j hlt]
      exact hset
  · intro i hi
    dsimp only
    rw [Table.lookup_insert_ite]
    rcases Nat.lt_or_eq_of_le (Nat.le_of_lt_succ hi) with hlt | heq
    · rw [if_neg (hother i hlt)]
      exact h.covered i hlt
    · rw [heq, if_pos rfl]
      simp
  · intro i hi hset
    dsimp only at hset ⊢
    rw [Table.lookup_insert_ite]
    rcases Nat.lt_or_eq_of_le (Nat.le_of_lt_succ hi) with hlt | heq
    · rw [hflag i hlt] at hset
      rw [if_neg (hother i hlt)]
      exact h.first i hlt hset
    · rw [heq, if_pos rfl]
  · intro i hi hd
    dsimp only at hd
    rcases Nat.lt_or_eq_of_le (Nat.le_of_lt_succ hi) with hlt | heq
    · rw [hflag i hlt] at hd
      exact h.held i hlt hd
    · rw [heq] at hd ⊢
      rcases hcase with ⟨hu, _⟩ | ⟨_, _, _, hheld⟩
      · rw [hu] at hd
        exact absurd hd (by simp)
      · exact hheld

/-- A chunk that the batch has met before. -/
theorem Checked.repeated (h : Checked env heap ins₀ n st) {offset : Nat}
    (hlook : st.localIndex.lookup (ins₀ n).chunkHash = some offset) :
    Checked env heap ins₀ (n + 1) (st.repeated n offset) := by
  obtain ⟨hlt, _, hset⟩ := h.located hlook
  obtain ⟨flag, hne, heq⟩ : ∃ flag, (flag ≠ .UNIQUE ∧ flag ≠ .DUPLICATE) ∧
      st.repeated n offset =
        { st with
          ins := Function.update
            (Function.update st.ins n
              { st.ins n with
                dedupFlag := flag
                chunkAddr := { (st.ins n).chunkAddr with offset := UInt32.ofNat offset } })
            offset { st.ins offset with chunkFreq := (st.ins n).chunkFreq } } := by
    unfold Check.repeated
    rcases hset with hset | hset
    · exact ⟨.TMP_UNIQUE, ⟨by simp, by simp⟩, by simp only [hset]⟩
    · exact ⟨.TMP_DUPLICATE, ⟨by simp, by simp⟩, by simp only [hset]⟩
  rw [heq]
  generalize hins : Function.update _ offset _ = ins
  have hflag : ∀ i < n, (ins i).dedupFlag = (st.ins i).dedupFlag := by
    intro i hi
    rw [← hins]
    by_cases hio : i = offset
    · rw [hio, Function.update_self]
    · rw [Function.update_of_ne hio, Function.update_of_ne hi.ne]
  have hnew : (ins n).dedupFlag = flag := by
    rw [← hins, Function.update_of_ne hlt.ne', Function.update_self]
  have hhash : ∀ i, (ins i).chunkHash = (st.ins i).chunkHash := by
    intro i
    rw [← hins]
    by_cases hio : i = offset
    · rw [hio, Function.update_self]
    · rw [Function.update_of_ne hio]
      by_cases hin : i = n
      · rw [hin, Function.update_self]
      · rw [Function.update_of_ne hin]
  have hrank : ∀ i ≤ n, uniqueRank ins i = uniqueRank st.ins i :=
    fun i hi => uniqueRank_congr fun j hj => hflag j (hj.trans_le hi)
  have hold : ∀ i < n + 1, (ins i).dedupFlag = .UNIQUE ∨ (ins i).dedupFlag = .DUPLICATE → i < n := by
    intro i hi hset
    rcases Nat.lt_or_eq_of_le (Nat.le_of_lt_succ hi) with hlt | heq
    · exact hlt
    · rw [heq, hnew] at hset
      rcases hset with hset | hset
      · exact absurd hset hne.1
      · exact absurd hset hne.2
  refine ⟨?_, fun i => (hhash i).trans (h.hash i), ?_, ?_, ?_, ?_, ?_⟩
  · dsimp only
    unfold uniqueRank
    rw [hrank n (Nat.le_refl n), hnew, if_neg hne.1]
    exact h.num
  · intro i hi hu
    have hi := hold i hi (Or.inl hu)
    dsimp only at hu ⊢
    rw [hflag i hi] at hu
    rw [hrank i hi.le]
    exact h.asked i hi hu
  · intro key j hj
    obtain ⟨hj, hkey, hset⟩ := h.located hj
    refine ⟨Nat.lt_succ_of_lt hj, hkey, ?_⟩
    dsimp only
    rw [hflag j hj]
    exact hset
  · intro i hi
    rcases Nat.lt_or_eq_of_le (Nat.le_of_lt_succ hi) with hlt | heq
    · exact h.covered i hlt
    · rw [heq, hlook]
      simp
  · intro i hi hset
    have hi := hold i hi hset
    dsimp only at hset
    rw [hflag i hi] at hset
    exact h.first i hi hset
  · intro i hi hd
    have hi := hold i hi (Or.inr hd)
    dsimp only at hd
    rw [hflag i hi] at hd
    exact h.held i hi hd

theorem Checked.step (h : Checked env heap ins₀ n st) (minFreq : UInt32) :
    Checked env heap ins₀ (n + 1) (checkStep env heap minFreq n st) := by
  have hask : st.localIndex.lookup (ins₀ n).chunkHash = none →
      Checked env heap ins₀ (n + 1)
        { st.ask env n with
          localIndex := (st.ask env n).localIndex.insert (ins₀ n).chunkHash n } := by
    intro hnone
    unfold Check.ask
    dsimp only
    apply h.next hnone
    · intro i hi
      rw [Function.update_of_ne hi.ne]
    · intro i
      by_cases hin : i = n
      · rw [hin, Function.update_self]
      · rw [Function.update_of_ne hin]
    · left
      refine ⟨by rw [Function.update_self], rfl, fun k hk => Function.update_of_ne hk _ _, ?_⟩
      rw [Function.update_self, h.hash n]
  unfold checkStep
  dsimp only
  rw [h.hash n]
  cases hlook : st.localIndex.lookup (ins₀ n).chunkHash with
  | some offset => exact h.repeated hlook
  | none =>
    dsimp only
    split
    case isTrue => exact hask hlook
    case isFalse =>
      cases hitem : heap.GetPriority (ins₀ n).chunkHash with
      | none => exact hask hlook
      | some item =>
        dsimp only
        apply h.next hlook
        · intro i hi
          rw [Function.update_of_ne hi.ne]
        · intro i
          by_cases hin : i = n
          · rw [hin, Function.update_self]
            exact (h.hash n).symm
          · rw [Function.update_of_ne hin]
        · right
          refine ⟨by rw [Function.update_self], rfl, rfl, ?_⟩
          unfold EntryHeap.GetPriority at hitem
          rw [Ne, EntryHeap.item_eq_none, hitem]
          simp

theorem checkLoop_spec (minFreq : UInt32) (outs : Nat → OutQueryEntry) (n : Nat) :
    Checked env heap ins₀ n (checkLoop env heap minFreq n ⟨ins₀, outs, ∅, 0⟩) :=
  @forLoop_spec Check (Checked env heap ins₀) _ _ n (checked_zero outs)
    fun _ _ _ h => h.step minFreq

/-- A pass changes no flag of the passes before. -/
theorem checkLoop_flags (minFreq : UInt32) (outs : Nat → OutQueryEntry) {m n : Nat} (hm : m ≤ n) :
    ∀ i < m, ((checkLoop env heap minFreq n ⟨ins₀, outs, ∅, 0⟩).ins i).dedupFlag =
      ((checkLoop env heap minFreq m ⟨ins₀, outs, ∅, 0⟩).ins i).dedupFlag := by
  induction n with
  | zero =>
    intro i hi
    exact absurd (hi.trans_le hm) (Nat.not_lt_zero i)
  | succ n ih =>
    rcases Nat.lt_or_eq_of_le hm with hlt | heq
    · intro i hi
      have hle := Nat.le_of_lt_succ hlt
      rw [← ih hle i hi]
      have h := @checkLoop_spec env heap ins₀ minFreq outs n
      have hin : i < n := hi.trans_le hle
      change ((checkStep env heap minFreq n (checkLoop env heap minFreq n _)).ins i).dedupFlag = _
      generalize checkLoop env heap minFreq n ⟨ins₀, outs, ∅, 0⟩ = st at h
      unfold checkStep
      dsimp only
      split
      case h_1 offset hlook =>
        have hoffset := (h.located hlook).1
        unfold Check.repeated
        dsimp only
        split
        · dsimp only
          by_cases hio : i = offset
          · rw [hio, Function.update_self]
          · rw [Function.update_of_ne hio, Function.update_of_ne hin.ne]
        · dsimp only
          by_cases hio : i = offset
          · rw [hio, Function.update_self]
          · rw [Function.update_of_ne hio, Function.update_of_ne hin.ne]
        · rfl
      case h_2 hlook =>
        dsimp only
        unfold Check.ask
        split
        · dsimp only
          rw [Function.update_of_ne hin.ne]
        · split
          · dsimp only
            rw [Function.update_of_ne hin.ne]
          · dsimp only
            rw [Function.update_of_ne hin.ne]
    · intro i _
      rw [heq]

end Check

end ShieldReduce.Prototype.EcallFreqIndex
