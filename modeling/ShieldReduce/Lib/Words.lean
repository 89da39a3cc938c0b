import Mathlib.Data.Nat.Bitwise
import ShieldReduce.Lib.Bytes
import ShieldReduce.Lib.Script

/-!
# Common prefixes, a word at a time

How many bytes two strings share in front is told by the lowest bit in which their little-endian
words differ.
-/

namespace ShieldReduce.Lib

/-- The little-endian number in all of `b`. -/
def leWord : Bytes → Nat
  | [] => 0
  | x :: b => x.toNat + 256 * leWord b

/-- The zeros below the lowest bit set, at most `width`. -/
def ctz : Nat → Nat → Nat
  | 0, _ => 0
  | width + 1, n => if n % 2 = 0 then ctz width (n / 2) + 1 else 0

/-- What follows the first difference does not count. -/
theorem commonPrefix_append_of_ne {a a' : Bytes} (b c : Bytes) (hlen : a.length = a'.length)
    (hne : a ≠ a') : commonPrefix (a ++ b) (a' ++ c) = commonPrefix a a' := by
  induction a generalizing a' with
  | nil => exact absurd (List.length_eq_zero_iff.mp hlen.symm).symm hne
  | cons x a ih =>
    cases a' with
    | nil => simp at hlen
    | cons y a' =>
      rw [List.cons_append, List.cons_append, commonPrefix, commonPrefix]
      by_cases hxy : x = y
      · rw [if_pos hxy, if_pos hxy, ih (by simpa using hlen)]
        intro h
        exact hne (by rw [hxy, h])
      · rw [if_neg hxy, if_neg hxy]

theorem take_commonPrefix (a b : Bytes) :
    a.take (commonPrefix a b) = b.take (commonPrefix a b) := by
  induction a generalizing b with
  | nil => simp [commonPrefix]
  | cons x a ih =>
    cases b with
    | nil => simp [commonPrefix]
    | cons y b =>
      rw [commonPrefix]
      split
      · rename_i h
        rw [List.take_succ_cons, List.take_succ_cons, ih, h]
      · rfl

/-- Strings that share a prefix have at least that one in common. -/
theorem le_commonPrefix {a b : Bytes} {n : Nat} (h : a.take n = b.take n) (hn : n ≤ a.length) :
    n ≤ commonPrefix a b := by
  have hb : n ≤ b.length := by
    have hlen := congrArg List.length h
    simp only [List.length_take] at hlen
    omega
  have hsplit := commonPrefix_append (a.take n) (a.drop n) (b.drop n)
  rw [List.take_append_drop, h, List.take_append_drop, List.length_take] at hsplit
  omega

theorem leWord_injective {a b : Bytes} (hlen : a.length = b.length) (h : leWord a = leWord b) :
    a = b := by
  induction a generalizing b with
  | nil => exact (List.length_eq_zero_iff.mp hlen.symm).symm
  | cons x a ih =>
    cases b with
    | nil => simp at hlen
    | cons y b =>
      have hx := x.toNat_lt
      have hy := y.toNat_lt
      simp only [leWord] at h
      have hxy : x = y := UInt8.toNat_inj.mp (by omega)
      rw [hxy, ih (by simpa using hlen) (by omega)]

theorem leWord_xor_cons (x y : UInt8) (a b : Bytes) :
    leWord (x :: a) ^^^ leWord (y :: b) =
      (x.toNat ^^^ y.toNat) + 256 * (leWord a ^^^ leWord b) := by
  have hx := x.toNat_lt
  have hy := y.toNat_lt
  have hmod : (leWord (x :: a) ^^^ leWord (y :: b)) % 2 ^ 8 = x.toNat ^^^ y.toNat := by
    rw [Nat.xor_mod_two_pow]
    congr 1
    · simp only [leWord]
      omega
    · simp only [leWord]
      omega
  have hdiv : (leWord (x :: a) ^^^ leWord (y :: b)) / 2 ^ 8 = leWord a ^^^ leWord b := by
    rw [Nat.xor_div_two_pow]
    congr 1
    · simp only [leWord]
      omega
    · simp only [leWord]
      omega
  omega

theorem ctz_two_pow_mul (width k n : Nat) : ctz (width + k) (2 ^ k * n) = ctz width n + k := by
  induction k with
  | zero => simp
  | succ k ih =>
    have hpow : 2 ^ (k + 1) * n = 2 * (2 ^ k * n) := by
      rw [Nat.pow_succ, Nat.mul_comm (2 ^ k) 2, Nat.mul_assoc]
    rw [← Nat.add_assoc, ctz, hpow, if_pos (Nat.mul_mod_right 2 _),
      Nat.mul_div_cancel_left _ (by decide), ih]
    omega

/-- A bit set below `2 ^ k` is found there. -/
theorem ctz_lt {width k n : Nat} (h : n % 2 ^ k ≠ 0) : ctz width n < k := by
  induction k generalizing width n with
  | zero => exact absurd (Nat.mod_one n) h
  | succ k ih =>
    cases width with
    | zero => exact Nat.succ_pos k
    | succ width =>
      rw [ctz]
      split
      · rename_i heven
        have hhalf : n / 2 % 2 ^ k ≠ 0 := by
          intro h0
          apply h
          rw [Nat.pow_succ, Nat.mul_comm, Nat.mod_mul, heven, h0]
        exact Nat.succ_lt_succ (ih hhalf)
      · exact Nat.succ_pos k

/-- The byte that holds the lowest differing bit is the first that differs. -/
theorem ctz_xor_div {a b : Bytes} (hlen : a.length = b.length) (hne : a ≠ b) :
    ctz (8 * a.length) (leWord a ^^^ leWord b) / 8 = commonPrefix a b := by
  induction a generalizing b with
  | nil => exact absurd (List.length_eq_zero_iff.mp hlen.symm).symm hne
  | cons x a ih =>
    cases b with
    | nil => simp at hlen
    | cons y b =>
      rw [leWord_xor_cons, commonPrefix]
      by_cases hxy : x = y
      · have htail : a ≠ b := by
          intro h
          exact hne (by rw [hxy, h])
        have hshift := ctz_two_pow_mul (8 * a.length) 8 (leWord a ^^^ leWord b)
        rw [if_pos hxy, hxy, Nat.xor_self, Nat.zero_add, List.length_cons, Nat.mul_succ]
        rw [show (2 : Nat) ^ 8 = 256 from rfl] at hshift
        rw [hshift, Nat.add_div_right _ (by decide), ih (by simpa using hlen) htail]
      · rw [if_neg hxy]
        have hlow : x.toNat ^^^ y.toNat ≠ 0 := by
          intro h0
          apply hxy
          exact UInt8.toNat_inj.mp (Nat.xor_eq_zero_iff.mp h0)
        have hlt : x.toNat ^^^ y.toNat < 2 ^ 8 := Nat.xor_lt_two_pow x.toNat_lt y.toNat_lt
        have hmod : ((x.toNat ^^^ y.toNat) + 256 * (leWord a ^^^ leWord b)) % 2 ^ 8 ≠ 0 := by
          omega
        have := @ctz_lt (8 * (x :: a).length) 8 _ hmod
        omega

end ShieldReduce.Lib
