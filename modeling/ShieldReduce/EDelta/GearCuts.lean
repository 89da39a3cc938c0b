import Mathlib.Data.List.Chain
import ShieldReduce.EDelta.Gear

/-!
# Where the two gear chunkers cut

`rolling_gear_v3` goes over the whole chunk with one index, `chunk_gear` looks at what is left of it
only. Both cut at the same places while more than `STRMAX` bytes are left.
-/

namespace ShieldReduce.EDelta
open Lib

section Cuts
variable {p : Bytes} {n last i : Nat} {fingerprint : UInt32}

/-- What `rolling_gear_v3` may write behind the cut `last`. -/
structure NextCut (p : Bytes) (n last c : Nat) : Prop where
  agrees : last + STRMAX < n → c = last + chunkGear (p.drop last) (n - last)
  mono : last ≤ c
  le : c ≤ n
  above : c < n → last + STRMIN < c
  below : c ≤ last + STRMAX + 1

/-- `chunk_gear`, started on the bytes behind `last`, is at `i` with the same fingerprint. -/
def Scanning (p : Bytes) (n last i : Nat) (fingerprint : UInt32) : Prop :=
  last + STRMAX < n → ∃ fuel, STRMAX + 1 < fuel + (i - last) ∧
    chunkGear (p.drop last) (n - last) =
      chunkGearLoop (p.drop last) (n - last) fuel (i - last) fingerprint

theorem scanning_start (p : Bytes) (n last : Nat) : Scanning p n last (last + STRMIN + 1) 0 := by
  intro hmore
  refine ⟨n - last, by omega, ?_⟩
  unfold chunkGear
  rw [if_neg (by omega), show last + STRMIN + 1 - last = STRMIN + 1 by omega]

/-- What `chunk_gear` does at `i`. -/
theorem Scanning.at (hscan : Scanning p n last i fingerprint) (hmore : last + STRMAX < n)
    (hi : last ≤ i) (hmax : i ≤ last + STRMAX + 1) :
    (i ≤ last + STRMAX → gearCut (gearStep fingerprint (p.getD i 0)) = true →
        i = last + chunkGear (p.drop last) (n - last)) ∧
      (i = last + STRMAX + 1 → i = last + chunkGear (p.drop last) (n - last)) := by
  obtain ⟨fuel, hfuel, heq⟩ := hscan hmore
  obtain ⟨f, hf⟩ := Nat.exists_eq_succ_of_ne_zero (by omega : fuel ≠ 0)
  have hbyte : (p.drop last).getD (i - last) 0 = p.getD i 0 := by
    rw [List.getD_eq_getElem?_getD, List.getElem?_drop, Nat.add_sub_cancel' hi,
      ← List.getD_eq_getElem?_getD]
  rw [heq, hf]
  unfold chunkGearLoop
  rw [if_pos (by omega)]
  dsimp only
  constructor
  · intro hle hcut
    rw [if_pos (by omega), hbyte, if_pos hcut]
    omega
  · intro hlast
    rw [if_neg (by omega)]
    omega

theorem Scanning.next (hscan : Scanning p n last i fingerprint) (hi : last ≤ i)
    (hmax : i ≤ last + STRMAX)
    (hcut : ¬gearCut (gearStep fingerprint (p.getD i 0)) = true) :
    Scanning p n last (i + 1) (gearStep fingerprint (p.getD i 0)) := by
  intro hmore
  obtain ⟨fuel, hfuel, heq⟩ := hscan hmore
  obtain ⟨f, hf⟩ := Nat.exists_eq_succ_of_ne_zero (by omega : fuel ≠ 0)
  have hbyte : (p.drop last).getD (i - last) 0 = p.getD i 0 := by
    rw [List.getD_eq_getElem?_getD, List.getElem?_drop, Nat.add_sub_cancel' hi,
      ← List.getD_eq_getElem?_getD]
  refine ⟨f, by omega, ?_⟩
  rw [heq, hf]
  conv_lhs => unfold chunkGearLoop
  rw [if_pos (by omega)]
  dsimp only
  rw [if_pos (by omega), hbyte, if_neg hcut, show i + 1 - last = i - last + 1 by omega]

/-- Behind the end of the input all cuts are its length. -/
theorem nextCut_replicate (hn : NextCut p n last n) (left : Nat) :
    (last :: List.replicate left n).IsChain (NextCut p n) := by
  induction left generalizing last with
  | zero => exact List.isChain_singleton last
  | succ left ih =>
    rw [List.replicate_succ]
    apply List.isChain_cons_cons.mpr
    refine ⟨hn, ih ⟨?_, Nat.le_refl n, Nat.le_refl n, ?_, by omega⟩⟩
    · intro hmore
      omega
    · intro hlt
      exact absurd hlt (Nat.lt_irrefl n)

/-- The input ends at `i` or before. -/
theorem Scanning.chain_end (hscan : Scanning p n last i fingerprint) (hlast : last ≤ n)
    (hi : last ≤ i) (hmax : i ≤ last + STRMAX + 1) (hn : n ≤ i) (left : Nat) :
    (last :: List.replicate left n).IsChain (NextCut p n) := by
  apply nextCut_replicate
  refine ⟨?_, hlast, Nat.le_refl n, fun hlt => absurd hlt (Nat.lt_irrefl n), by omega⟩
  intro hmore
  have hat := (hscan.at hmore hi hmax).2 (by omega)
  omega

theorem rollingGearLoop_chain {fuel left : Nat} (hfuel : n ≤ fuel + i) (hlast : last ≤ n)
    (hi : last + STRMIN + 1 ≤ i) (hmax : i ≤ last + STRMAX + 1)
    (hscan : Scanning p n last i fingerprint) :
    (last :: rollingGearLoop p n fuel left i last fingerprint).IsChain (NextCut p n) := by
  induction fuel generalizing left i last fingerprint with
  | zero => exact hscan.chain_end hlast (by omega) hmax (by omega) left
  | succ fuel ih =>
    cases left with
    | zero => exact List.isChain_singleton last
    | succ left =>
      unfold rollingGearLoop
      by_cases hn : i < n
      · rw [if_pos hn]
        dsimp only
        have hcut : (last + STRMAX < n → i = last + chunkGear (p.drop last) (n - last)) →
            (last :: i :: rollingGearLoop p n fuel left (i + STRMIN + 1) i 0).IsChain
              (NextCut p n) := by
          intro hagrees
          apply List.isChain_cons_cons.mpr
          refine ⟨⟨hagrees, by omega, hn.le, fun _ => by omega, hmax⟩, ?_⟩
          have hstart : i + STRMIN + 1 ≤ i + STRMAX + 1 := by
            unfold STRMIN STRMAX
            omega
          exact ih (by omega) hn.le (Nat.le_refl _) hstart (scanning_start p n i)
        by_cases hle : i ≤ last + STRMAX
        · rw [if_pos hle]
          by_cases hfp : gearCut (gearStep fingerprint (p.getD i 0)) = true
          · rw [if_pos hfp]
            exact hcut fun hmore => (hscan.at hmore (by omega) hmax).1 hle hfp
          · rw [if_neg hfp]
            exact ih (by omega) hlast (by omega) (by omega) (hscan.next (by omega) hle hfp)
        · rw [if_neg hle]
          exact hcut fun hmore => (hscan.at hmore (by omega) hmax).2 (by omega)
      · rw [if_neg hn]
        exact hscan.chain_end hlast (by omega) hmax (by omega) (left + 1)

theorem rollingGearV3_chain (p : Bytes) (numOfChunks : Nat) :
    (rollingGearV3 p p.length numOfChunks).IsChain (NextCut p p.length) := by
  unfold rollingGearV3
  have hscan := scanning_start p p.length 0
  rw [Nat.zero_add] at hscan
  apply rollingGearLoop_chain (Nat.le_add_right _ _) (Nat.zero_le _) (by omega) _ hscan
  unfold STRMIN STRMAX
  omega

end Cuts

section Ends
variable {p : Bytes} {n last : Nat} {cuts : List Nat}

theorem NextCut.done {c : Nat} (h : NextCut p n n c) : c = n := by
  have hmono := h.mono
  have hle := h.le
  omega

/-- Once the length is reached all cuts are the length. -/
theorem nextCut_done {c : Nat} (hchain : (c :: cuts).IsChain (NextCut p n)) (hc : c = n) :
    c :: cuts = List.replicate (cuts.length + 1) n := by
  induction cuts generalizing c with
  | nil =>
    rw [hc]
    rfl
  | cons d cuts ih =>
    obtain ⟨hnext, htail⟩ := List.isChain_cons_cons.mp hchain
    rw [hc] at hnext
    rw [List.length_cons, List.replicate_succ, ← ih htail hnext.done, hc]

/-- The cuts below the length come first. -/
theorem nextCut_ends (hchain : cuts.IsChain (NextCut p n)) (hle : ∀ c ∈ cuts, c ≤ n) :
    ∃ inner k, cuts = inner ++ List.replicate k n ∧ ∀ c ∈ inner, c < n := by
  induction cuts with
  | nil => exact ⟨[], 0, rfl, by simp⟩
  | cons c cuts ih =>
    have hrest : ∀ x ∈ cuts, x ≤ n := fun x hx => hle x (List.mem_cons_of_mem c hx)
    rcases (hle c List.mem_cons_self).lt_or_eq with hlt | heq
    · obtain ⟨inner, k, hsplit, hinner⟩ := ih hchain.tail hrest
      refine ⟨c :: inner, k, by rw [hsplit, List.cons_append], ?_⟩
      intro x hx
      rcases List.mem_cons.mp hx with hxc | hx
      · rw [hxc]
        exact hlt
      · exact hinner x hx
    · exact ⟨[], cuts.length + 1, by rw [List.nil_append, nextCut_done hchain heq], by simp⟩

theorem CutsFrom.le (h : CutsFrom n last cuts) : ∀ c ∈ cuts, c ≤ n := by
  induction cuts generalizing last with
  | nil => simp
  | cons c cuts ih =>
    obtain ⟨_, hc, hrest⟩ := h
    exact List.forall_mem_cons.mpr ⟨hc, ih hrest⟩

/-- As long as the cuts are below the length, each of them is more than `STRMIN` further. -/
theorem nextCut_last (hchain : (last :: cuts).IsChain (NextCut p n)) (hle : last ≤ n) :
    (cuts.getLastD last < n → last + cuts.length * (STRMIN + 1) ≤ cuts.getLastD last) ∧
      cuts.getLastD last ≤ n := by
  induction cuts generalizing last with
  | nil => exact ⟨fun _ => by simp, hle⟩
  | cons c cuts ih =>
    obtain ⟨hnext, htail⟩ := List.isChain_cons_cons.mp hchain
    obtain ⟨hfar, hend⟩ := ih htail hnext.le
    rw [List.getLastD_cons]
    refine ⟨fun hlt => ?_, hend⟩
    have hfar' := hfar hlt
    have hc : c < n := by
      have hlow : c ≤ c + cuts.length * (STRMIN + 1) := Nat.le_add_right _ _
      omega
    have habove := hnext.above hc
    rw [List.length_cons, Nat.succ_mul]
    omega

end Ends

section Agreement

/-- Where the cuts of `rolling_gear_v3` lie, for any string and any number of chunks. -/
theorem gear_chunkers_agree (p : Bytes) (numOfChunks : Nat) :
    (∀ {j c c' : Nat}, (rollingGearV3 p p.length numOfChunks)[j]? = some c →
      (rollingGearV3 p p.length numOfChunks)[j + 1]? = some c' →
        (c + STRMAX < p.length → c' = c + chunkGear (p.drop c) (p.length - c)) ∧
        (c' < p.length → c + STRMIN < c' ∧ c' ≤ c + STRMAX + 1)) ∧
    (rollingGearV3 p p.length numOfChunks).Pairwise (· ≤ ·) ∧
    (∃ inner k, rollingGearV3 p p.length numOfChunks = inner ++ List.replicate k p.length ∧
      ∀ c ∈ inner, c < p.length) ∧
    (p.length ≤ numOfChunks * (STRMIN + 1) →
      (rollingGearV3 p p.length numOfChunks).getLast? = some p.length) := by
  have hchain := rollingGearV3_chain p numOfChunks
  obtain ⟨hfar, hend⟩ := @nextCut_last p p.length 0 _ hchain (Nat.zero_le _)
  have hmono : (rollingGearV3 p p.length numOfChunks).Pairwise (· ≤ ·) :=
    List.isChain_iff_pairwise.mp (hchain.imp fun _ _ h => h.mono)
  refine ⟨?_, hmono, nextCut_ends hchain (rollingGearV3_cuts p p.length numOfChunks).le, ?_⟩
  · intro j c c' hc hc'
    have hj := (List.getElem?_eq_some_iff.mp hc').1
    have hnext := List.isChain_iff_getElem.mp hchain j hj
    rw [(List.getElem?_eq_some_iff.mp hc).2, (List.getElem?_eq_some_iff.mp hc').2] at hnext
    exact ⟨hnext.agrees, fun hlt => ⟨hnext.above hlt, hnext.below⟩⟩
  · intro henough
    rw [rollingGearLoop_length] at hfar
    unfold rollingGearV3
    rw [List.getLast?_cons, ← List.getLastD_eq_getLast?]
    congr 1
    by_contra hne
    have hlast := hfar (lt_of_le_of_ne hend hne)
    omega

/-- One chunk is asked for of a hundred bytes. -/
theorem gear_last_cut_inside :
    ¬∀ (p : Bytes) (numOfChunks : Nat),
      (rollingGearV3 p p.length numOfChunks).getLast? = some p.length := by
  intro h
  exact absurd (h (List.replicate 100 0) 1) (by decide +kernel)

end Agreement

end ShieldReduce.EDelta
