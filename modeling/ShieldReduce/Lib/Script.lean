import ShieldReduce.Lib.Bytes

/-!
# Copy and insert scripts

A binary delta as a list of operations over a base, and the rules by which a script that
produces a prefix of the target is extended.
-/

namespace ShieldReduce.Lib

inductive Op where
  | copy (off len : Nat)
  | insert (xs : Bytes)
deriving DecidableEq, Repr

namespace Op

def apply (base : Bytes) : Op → Bytes
  | copy off len => readAt base off len
  | insert xs => xs

/-- The length of what the operation writes, whatever the base is. -/
def size : Op → Nat
  | copy _ len => len
  | insert xs => xs.length

theorem apply_length (base : Bytes) (op : Op) : (op.apply base).length = op.size := by
  cases op <;> simp [apply, size]

end Op

def runScript (base : Bytes) (ops : List Op) : Bytes := ops.flatMap (Op.apply base)

@[simp] theorem runScript_nil (base : Bytes) : runScript base [] = [] := rfl

theorem runScript_cons (base : Bytes) (op : Op) (ops : List Op) :
    runScript base (op :: ops) = op.apply base ++ runScript base ops := rfl

theorem runScript_append (base : Bytes) (a b : List Op) :
    runScript base (a ++ b) = runScript base a ++ runScript base b := by
  unfold runScript
  rw [List.flatMap_append]

theorem runScript_length (base : Bytes) (ops : List Op) :
    (runScript base ops).length = (ops.map Op.size).sum := by
  induction ops with
  | nil => rfl
  | cons op ops ih =>
    rw [runScript_cons, List.length_append, Op.apply_length, ih, List.map_cons, List.sum_cons]

/-- A copy that stays inside the base. -/
def Op.Inside (base : Bytes) : Op → Prop
  | copy off len => off + len ≤ base.length
  | insert _ => True

/-- `ops` writes the first `pos` bytes of `target`. -/
structure Produces (base target : Bytes) (pos : Nat) (ops : List Op) : Prop where
  run : runScript base ops = target.take pos
  inside : ∀ op ∈ ops, op.Inside base

theorem produces_nil (base target : Bytes) : Produces base target 0 [] :=
  ⟨by simp, fun op hop => absurd hop List.not_mem_nil⟩

theorem inside_snoc {base : Bytes} {ops : List Op} {op : Op} (h : ∀ o ∈ ops, o.Inside base)
    (hop : op.Inside base) : ∀ o ∈ ops ++ [op], o.Inside base := by
  intro o ho
  rcases List.mem_append.mp ho with ho | ho
  · exact h o ho
  · rw [List.mem_singleton.mp ho]
    exact hop

theorem produces_snoc_insert {base target : Bytes} {pos len : Nat} {ops : List Op}
    (h : Produces base target pos ops) :
    Produces base target (pos + len) (ops ++ [.insert (slice target pos len)]) := by
  refine ⟨?_, inside_snoc h.inside trivial⟩
  rw [runScript_append, h.run, runScript_cons, runScript_nil, List.append_nil]
  exact take_append_slice target pos len

/-- A copy whose bytes agree with the target extends the prefix. -/
theorem produces_snoc_copy {base target : Bytes} {pos off len : Nat} {ops : List Op}
    (h : Produces base target pos ops) (hb : off + len ≤ base.length)
    (heq : slice target pos len = slice base off len) :
    Produces base target (pos + len) (ops ++ [.copy off len]) := by
  refine ⟨?_, inside_snoc h.inside hb⟩
  rw [runScript_append, h.run, runScript_cons, runScript_nil, List.append_nil]
  change target.take pos ++ readAt base off len = _
  rw [readAt_eq_slice hb, ← heq, take_append_slice]

theorem produces_all {base target : Bytes} {pos : Nat} {ops : List Op}
    (h : Produces base target pos ops) (hpos : target.length ≤ pos) :
    runScript base ops = target := by
  rw [h.run, List.take_of_length_le hpos]

/-- The counting loop `while (j + step <= bound && same(j)) j += step`. -/
def scan (step bound : Nat) (same : Nat → Bool) : Nat → Nat → Nat
  | 0, j => j
  | fuel + 1, j => if j + step ≤ bound && same j then scan step bound same fuel (j + step) else j

theorem scan_le {step bound : Nat} {same : Nat → Bool} {fuel j : Nat} (h : j ≤ bound) :
    scan step bound same fuel j ≤ bound := by
  induction fuel generalizing j with
  | zero => exact h
  | succ fuel ih =>
    unfold scan
    split
    case isTrue hc =>
      rw [Bool.and_eq_true, decide_eq_true_eq] at hc
      exact ih hc.1
    case isFalse => exact h

/-- What one counted step keeps, the whole loop keeps. -/
theorem scan_induct {step bound : Nat} {same : Nat → Bool} (P : Nat → Prop)
    (hstep : ∀ j, j + step ≤ bound → same j = true → P j → P (j + step))
    (fuel : Nat) {j : Nat} (hj : P j) : P (scan step bound same fuel j) := by
  induction fuel generalizing j with
  | zero => exact hj
  | succ fuel ih =>
    unfold scan
    split
    case isTrue hc =>
      rw [Bool.and_eq_true, decide_eq_true_eq] at hc
      exact ih (hstep j hc.1 hc.2 hj)
    case isFalse => exact hj

/-- A loop of single steps with enough fuel stops at its bound or where the test fails. -/
theorem scan_stop {bound : Nat} {same : Nat → Bool} {fuel j : Nat} (hj : j ≤ bound)
    (hfuel : bound ≤ j + fuel) :
    scan 1 bound same fuel j = bound ∨ same (scan 1 bound same fuel j) = false := by
  induction fuel generalizing j with
  | zero =>
    left
    exact Nat.le_antisymm hj hfuel
  | succ fuel ih =>
    unfold scan
    split
    case isTrue hc =>
      rw [Bool.and_eq_true, decide_eq_true_eq] at hc
      exact ih hc.1 (by omega)
    case isFalse hc =>
      rw [Bool.and_eq_true, decide_eq_true_eq, not_and, Bool.not_eq_true] at hc
      by_cases hlt : j + 1 ≤ bound
      · exact Or.inr (hc hlt)
      · exact Or.inl (by omega)

/-- The length of the longest common prefix. -/
def commonPrefix {α : Type} [DecidableEq α] : List α → List α → Nat
  | a :: as, b :: bs => if a = b then commonPrefix as bs + 1 else 0
  | _, _ => 0

theorem commonPrefix_le {α : Type} [DecidableEq α] (as bs : List α) :
    commonPrefix as bs ≤ as.length ∧ commonPrefix as bs ≤ bs.length := by
  fun_induction commonPrefix as bs with
  | case1 a as bs ih => exact ⟨Nat.succ_le_succ ih.1, Nat.succ_le_succ ih.2⟩
  | case2 a as b bs hne => exact ⟨Nat.zero_le _, Nat.zero_le _⟩
  | case3 as bs h => exact ⟨Nat.zero_le _, Nat.zero_le _⟩

/-- Equal heads of `n` elements that cannot be made longer are the common prefix. -/
theorem eq_commonPrefix {α : Type} [DecidableEq α] {as bs : List α} {n : Nat}
    (ha : n ≤ as.length) (hb : n ≤ bs.length) (heq : as.take n = bs.take n)
    (hstop : n < as.length → n < bs.length → as[n]? ≠ bs[n]?) : n = commonPrefix as bs := by
  induction n generalizing as bs with
  | zero =>
    cases as with
    | nil => rfl
    | cons a as =>
      cases bs with
      | nil => rfl
      | cons b bs =>
        have hne : a ≠ b := by simpa using hstop
        simp only [commonPrefix, if_neg hne]
  | succ n ih =>
    cases as with
    | nil => exact absurd ha (Nat.not_succ_le_zero n)
    | cons a as =>
      cases bs with
      | nil => exact absurd hb (Nat.not_succ_le_zero n)
      | cons b bs =>
        rw [List.take_succ_cons, List.take_succ_cons] at heq
        obtain ⟨hab, hrest⟩ := List.cons.inj heq
        simp only [commonPrefix, if_pos hab]
        congr 1
        apply ih (Nat.le_of_succ_le_succ ha) (Nat.le_of_succ_le_succ hb) hrest
        intro h1 h2
        simpa using hstop (Nat.succ_lt_succ h1) (Nat.succ_lt_succ h2)

theorem commonPrefix_append {α : Type} [DecidableEq α] (xs as bs : List α) :
    commonPrefix (xs ++ as) (xs ++ bs) = xs.length + commonPrefix as bs := by
  induction xs with
  | nil => exact (Nat.zero_add _).symm
  | cons x xs ih =>
    rw [List.cons_append, List.cons_append, commonPrefix, if_pos rfl, ih, List.length_cons]
    omega

theorem commonPrefix_of_ne {α : Type} [DecidableEq α] {a b : α} (as bs : List α) (h : a ≠ b) :
    commonPrefix (a :: as) (b :: bs) = 0 := by
  rw [commonPrefix, if_neg h]

theorem commonPrefix_nil {α : Type} [DecidableEq α] (as : List α) : commonPrefix as [] = 0 := by
  cases as <;> rfl

/-- A stretch of one value, ended by another value or by the end of the list. -/
theorem commonPrefix_replicate {α : Type} [DecidableEq α] {x y : α} (h : y ≠ x) (m n : Nat) :
    commonPrefix (List.replicate m x ++ [y]) (List.replicate n x) = min m n := by
  rcases Nat.lt_or_ge m n with hlt | hge
  · obtain ⟨k, rfl⟩ : ∃ k, n = m + (k + 1) := ⟨n - m - 1, by omega⟩
    rw [← List.replicate_append_replicate, commonPrefix_append, List.replicate_succ, commonPrefix_of_ne _ _ h,
      List.length_replicate]
    omega
  · obtain ⟨k, rfl⟩ : ∃ k, m = n + k := ⟨m - n, by omega⟩
    have happ := commonPrefix_append (List.replicate n x) (List.replicate k x ++ [y]) []
    rw [List.append_nil, commonPrefix_nil, List.length_replicate] at happ
    rw [← List.replicate_append_replicate, List.append_assoc, happ]
    omega

end ShieldReduce.Lib
