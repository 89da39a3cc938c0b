import Mathlib.Logic.Function.Basic

/-!
# Stores with deltas

Abstractly, a deduplicated store maps a key to a whole value or to a delta against another key.
A delta is decoded against one whole value, so the store has to stay one level deep.
-/

namespace ShieldReduce.Lib

inductive View (K V D : Type) where
  | whole (v : V)
  | delta (b : K) (d : D)

section DeltaStore
variable {K V D : Type}

/-- Every base is whole. -/
def DepthOne (view : K → Option (View K V D)) : Prop :=
  ∀ k b d, view k = some (.delta b d) → ∃ v, view b = some (.whole v)

/-- No delta has the base `k`. -/
def Unreferenced (view : K → Option (View K V D)) (k : K) : Prop :=
  ∀ k' d, view k' ≠ some (.delta k d)

variable {view : K → Option (View K V D)}

/-- A delta is nobody's base. -/
theorem DepthOne.unreferenced (h : DepthOne view) {k b : K} {d : D}
    (hk : view k = some (.delta b d)) : Unreferenced view k := by
  intro k' d' hk'
  obtain ⟨v, hv⟩ := h k' k d' hk'
  rw [hk] at hv
  simp at hv

variable [DecidableEq K]

/-- What nothing refers to can become a delta against a whole value: a new key, a delta that gets
another base, or a whole value without dependents. -/
theorem DepthOne.insertDelta (h : DepthOne view) {k b : K} {v : V} (hk : Unreferenced view k)
    (hb : view b = some (.whole v)) (hne : b ≠ k) (d : D) :
    DepthOne (Function.update view k (some (.delta b d))) := by
  intro k' b' d' hk'
  by_cases hkk : k' = k
  · subst hkk
    rw [Function.update_self, Option.some.injEq, View.delta.injEq] at hk'
    rw [← hk'.1, Function.update_of_ne hne]
    exact ⟨v, hb⟩
  · rw [Function.update_of_ne hkk] at hk'
    have hb' : b' ≠ k := by
      rintro rfl
      exact hk k' d' hk'
    rw [Function.update_of_ne hb']
    exact h k' b' d' hk'

end DeltaStore

end ShieldReduce.Lib
