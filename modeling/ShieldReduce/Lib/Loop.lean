import Mathlib.Logic.Basic

/-!
# Counting loops

`forLoop n body` is `for (i = 0; i < n; i++) body`.
-/

namespace ShieldReduce.Lib

variable {S : Type}

def forLoop : Nat → (Nat → S → S) → S → S
  | 0, _, s => s
  | n + 1, body, s => body n (forLoop n body s)

/-- What every pass takes one step further holds at the end. -/
theorem forLoop_spec {P : Nat → S → Prop} {body : Nat → S → S} {s : S} (n : Nat) (h₀ : P 0 s)
    (hstep : ∀ i s, i < n → P i s → P (i + 1) (body i s)) : P n (forLoop n body s) := by
  induction n with
  | zero => exact h₀
  | succ n ih =>
    apply hstep n _ (Nat.lt_succ_self n)
    exact ih fun i s hi h => hstep i s (Nat.lt_succ_of_lt hi) h

/-- What every pass preserves holds at the end. -/
theorem forLoop_preserve {P : S → Prop} {body : Nat → S → S} {s : S} (n : Nat) (h₀ : P s)
    (hstep : ∀ i s, i < n → P s → P (body i s)) : P (forLoop n body s) :=
  @forLoop_spec S (fun _ => P) body s n h₀ hstep

end ShieldReduce.Lib
