import Mathlib.Data.List.Basic

/-!
# Cutting a stream by what stands at its front

A cut function says how long the first piece of a stream is. The stream is cut by applying it again
and again to what is left.
-/

namespace ShieldReduce.Lib

section Cuts
variable {α : Type} {cut : List α → Nat}

/-- Cutting `xs` gives the pieces, and leaves the last argument. -/
inductive CutTo (cut : List α → Nat) : List α → List (List α) → List α → Prop
  | refl (xs : List α) : CutTo cut xs [] xs
  | step {xs : List α} {pieces : List (List α)} {rest : List α} : xs ≠ [] →
      CutTo cut (xs.drop (cut xs)) pieces rest → CutTo cut xs (xs.take (cut xs) :: pieces) rest

/-- Every piece that is cut has the property, which may speak of all that was left before it. -/
inductive EachCut (cut : List α → Nat) (P : List α → Nat → Prop) : List α → Prop
  | done : EachCut cut P []
  | step {xs : List α} : xs ≠ [] → P xs (cut xs) → EachCut cut P (xs.drop (cut xs)) →
      EachCut cut P xs

namespace CutTo

theorem trans {xs ys zs : List α} {pieces more : List (List α)} (h : CutTo cut xs pieces ys)
    (hmore : CutTo cut ys more zs) : CutTo cut xs (pieces ++ more) zs := by
  induction h with
  | refl => exact hmore
  | step hne _ ih => exact .step hne (ih hmore)

theorem flatten {xs ys : List α} {pieces : List (List α)} (h : CutTo cut xs pieces ys) :
    pieces.flatten ++ ys = xs := by
  induction h with
  | refl => rfl
  | step _ _ ih => rw [List.flatten_cons, List.append_assoc, ih, List.take_append_drop]

/-- A stream is cut to its end in one way. -/
theorem unique {xs : List α} {pieces others : List (List α)} (h : CutTo cut xs pieces [])
    (hothers : CutTo cut xs others []) : pieces = others := by
  generalize hend : ([] : List α) = rest at h
  induction h generalizing others with
  | refl =>
    subst hend
    cases hothers with
    | refl => rfl
    | step hne => exact absurd rfl hne
  | step hne _ ih =>
    cases hothers with
    | refl => exact absurd rfl hne
    | step _ hrest => rw [ih hrest hend]

/-- What is cut to its end without a piece was empty. -/
theorem eq_nil {xs : List α} (h : CutTo cut xs [] []) : xs = [] := by
  cases h
  rfl

end CutTo

namespace EachCut
variable {P : List α → Nat → Prop}

/-- A property that holds of every cut, and makes it a step forward. -/
theorem of_forall (hP : ∀ xs, xs ≠ [] → 0 < cut xs ∧ P xs (cut xs)) (xs : List α) :
    EachCut cut P xs := by
  induction hlen : xs.length using Nat.strongRecOn generalizing xs with
  | ind n ih =>
    by_cases hne : xs = []
    · rw [hne]
      exact .done
    · obtain ⟨hpos, hcut⟩ := hP xs hne
      have hlong := List.length_pos_iff.mpr hne
      exact .step hne hcut (ih _ (by rw [List.length_drop]; omega) _ rfl)

theorem head {xs : List α} (h : EachCut cut P xs) (hne : xs ≠ []) : P xs (cut xs) := by
  cases h with
  | done => exact absurd rfl hne
  | step _ hP => exact hP

theorem tail {xs : List α} (h : EachCut cut P xs) (hne : xs ≠ []) :
    EachCut cut P (xs.drop (cut xs)) := by
  cases h with
  | done => exact absurd rfl hne
  | step _ _ hrest => exact hrest

end EachCut

end Cuts

end ShieldReduce.Lib
