import Mathlib.Data.Nat.Digits.Lemmas
import Mathlib.Data.List.Lex
import Mathlib.Tactic.Ring

/-!
# Numerals of fixed length

Lists of digits to a base `b`, least significant digit first, with the value that `Nat.ofDigits`
gives them. Written most significant digit first, numerals of one length are ordered as their values
are.
-/

namespace ShieldReduce.Lib.Numerals
variable {b : ℕ}

/-- The `n` low digits of `k`. -/
def digits (b n k : ℕ) : List ℕ := (List.range n).map fun i => k / b ^ i % b

theorem digits_length (b n k : ℕ) : (digits b n k).length = n := by
  unfold digits
  rw [List.length_map, List.length_range]

theorem digits_lt (hb : 0 < b) (n k : ℕ) : ∀ d ∈ digits b n k, d < b := by
  intro d hd
  obtain ⟨i, _, heq⟩ := List.mem_map.mp hd
  rw [← heq]
  exact Nat.mod_lt _ hb

theorem digits_succ (b n k : ℕ) : digits b (n + 1) k = k % b :: digits b n (k / b) := by
  unfold digits
  rw [List.range_succ_eq_map, List.map_cons, List.map_map, Nat.pow_zero, Nat.div_one]
  congr 1
  apply List.map_congr_left
  intro i _
  change k / b ^ (i + 1) % b = k / b / b ^ i % b
  rw [Nat.pow_succ', Nat.div_div_eq_div_mul]

/-- A numeral is the digits of its value. -/
theorem eq_digits {num : List ℕ} (hnum : ∀ d ∈ num, d < b) :
    num = digits b num.length (Nat.ofDigits b num) := by
  induction num with
  | nil => rfl
  | cons d num ih =>
    have hd := hnum d List.mem_cons_self
    have hrest := ih fun x hx => hnum x (List.mem_cons_of_mem d hx)
    rw [List.length_cons, digits_succ, Nat.ofDigits_cons, Nat.add_mul_mod_self_left,
      Nat.mod_eq_of_lt hd, Nat.add_mul_div_left _ _ (by omega), Nat.div_eq_of_lt hd, Nat.zero_add,
      ← hrest]

theorem ofDigits_digits {n k : ℕ} (hk : k < b ^ n) : Nat.ofDigits b (digits b n k) = k := by
  induction n generalizing k with
  | zero =>
    rw [Nat.pow_zero, Nat.lt_one_iff] at hk
    rw [hk]
    rfl
  | succ n ih =>
    have hb : 0 < b := by
      apply Nat.pos_of_ne_zero
      intro hzero
      rw [hzero, Nat.zero_pow (Nat.succ_pos n)] at hk
      exact Nat.not_lt_zero k hk
    have hhigh : k / b < b ^ n := by
      rw [Nat.pow_succ'] at hk
      exact Nat.div_lt_of_lt_mul hk
    rw [digits_succ, Nat.ofDigits_cons, ih hhigh]
    exact Nat.mod_add_div k b

/-- A numeral that comes first has the smaller value. -/
theorem value_lt_of_lt (hb : 1 < b) {ds es : List ℕ} (hds : ∀ d ∈ ds, d < b)
    (hlen : ds.length = es.length) (hlt : ds < es) :
    Nat.ofDigits b ds.reverse < Nat.ofDigits b es.reverse := by
  induction ds generalizing es with
  | nil =>
    rw [List.length_nil] at hlen
    rw [List.length_eq_zero_iff.mp hlen.symm] at hlt
    exact absurd hlt (lt_irrefl _)
  | cons d ds ih =>
    cases es with
    | nil => simp at hlen
    | cons e es =>
      have hlen' : ds.length = es.length := by simpa using hlen
      have hrest : ∀ x ∈ ds, x < b := fun x hx => hds x (List.mem_cons_of_mem d hx)
      rw [Nat.ofDigits_reverse_cons, Nat.ofDigits_reverse_cons, ← hlen']
      rcases List.cons_lt_cons_iff.mp hlt with hde | ⟨hde, htail⟩
      · have hlow : Nat.ofDigits b ds.reverse < b ^ ds.length := by
          rw [← List.length_reverse]
          apply Nat.ofDigits_lt_base_pow_length hb
          intro x hx
          exact hrest x (List.mem_reverse.mp hx)
        calc
          Nat.ofDigits b ds.reverse + b ^ ds.length * d
              < b ^ ds.length + b ^ ds.length * d := Nat.add_lt_add_right hlow _
          _ = b ^ ds.length * (d + 1) := by ring
          _ ≤ b ^ ds.length * e := Nat.mul_le_mul_left _ hde
          _ ≤ Nat.ofDigits b es.reverse + b ^ ds.length * e := Nat.le_add_left _ _
      · rw [hde]
        exact Nat.add_lt_add_right (ih hrest hlen' htail) _

/-- Letters that keep the order of the digits keep the order of the numerals. -/
theorem map_lt_map {α : Type} [LT α] {f : ℕ → α} {ds es : List ℕ}
    (hf : ∀ d ∈ ds, ∀ e ∈ es, d < e → f d < f e) (hlt : ds < es) : ds.map f < es.map f := by
  induction ds generalizing es with
  | nil =>
    cases es with
    | nil => exact absurd hlt (lt_irrefl _)
    | cons e es => exact List.nil_lt_cons _ _
  | cons d ds ih =>
    cases es with
    | nil => exact absurd hlt (List.not_lt_nil _)
    | cons e es =>
      rw [List.map_cons, List.map_cons]
      apply List.cons_lt_cons_iff.mpr
      rcases List.cons_lt_cons_iff.mp hlt with hde | ⟨hde, htail⟩
      · exact Or.inl (hf d List.mem_cons_self e List.mem_cons_self hde)
      · refine Or.inr ⟨by rw [hde], ih ?_ htail⟩
        intro x hx y hy
        exact hf x (List.mem_cons_of_mem d hx) y (List.mem_cons_of_mem e hy)

/-- The digits of `k` in letters, most significant digit first. -/
def render {α : Type} (f : ℕ → α) (b n k : ℕ) : List α := (digits b n k).reverse.map f

theorem render_lt_iff {α : Type} [LT α] [Std.Asymm fun x y : α => x < y] {f : ℕ → α} (hb : 1 < b)
    (hf : ∀ d e, d < e → e < b → f d < f e) {n j k : ℕ} (hj : j < b ^ n) (hk : k < b ^ n) :
    render f b n j < render f b n k ↔ j < k := by
  have hpos : 0 < b := by omega
  have hlt : ∀ k, ∀ d ∈ (digits b n k).reverse, d < b := fun k d hd =>
    digits_lt hpos n k d (List.mem_reverse.mp hd)
  have hlen : ∀ j k, (digits b n j).reverse.length = (digits b n k).reverse.length := by
    intro j k
    rw [List.length_reverse, List.length_reverse, digits_length, digits_length]
  have hvalue : ∀ {j k}, j < b ^ n → k < b ^ n →
      (digits b n j).reverse < (digits b n k).reverse → j < k := by
    intro j k hj hk hdigits
    have hval := value_lt_of_lt hb (hlt j) (hlen j k) hdigits
    rwa [List.reverse_reverse, List.reverse_reverse, ofDigits_digits hj, ofDigits_digits hk] at hval
  have hletters : ∀ {j k}, (digits b n j).reverse < (digits b n k).reverse →
      render f b n j < render f b n k := fun hdigits =>
    map_lt_map (fun d _ e he hde => hf d e hde (hlt _ e he)) hdigits
  constructor
  · intro hrender
    apply hvalue hj hk
    by_contra hnot
    rcases (not_lt.mp hnot).lt_or_eq with hback | heq
    · exact List.lt_asymm hrender (hletters hback)
    · unfold render at hrender
      rw [heq] at hrender
      exact List.lt_asymm hrender hrender
  · intro hjk
    apply hletters
    by_contra hnot
    rcases (not_lt.mp hnot).lt_or_eq with hback | heq
    · exact lt_asymm hjk (hvalue hk hj hback)
    · have hsame := congrArg (fun ds => Nat.ofDigits b ds.reverse) heq
      rw [List.reverse_reverse, List.reverse_reverse, ofDigits_digits hj, ofDigits_digits hk] at hsame
      omega

end ShieldReduce.Lib.Numerals
