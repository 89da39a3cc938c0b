import Mathlib.Algebra.BigOperators.Group.List.Basic
import Mathlib.Algebra.GroupWithZero.Nat
import ShieldReduce.Lib.Table

/-!
# Totals over a table

The sum of a measure over the values of a table, or over a list of keys, and how an update of one
key changes it.
-/

namespace ShieldReduce.Lib

section Keys
variable {K : Type} {f g : K → Nat} {l : List K} {d : K}

/-- A sum over distinct keys after a change at one of them. -/
theorem sum_map_change [DecidableEq K] (hl : l.Nodup) (hd : d ∈ l) (h : ∀ k ≠ d, g k = f k) :
    (l.map g).sum + f d = (l.map f).sum + g d := by
  have hrest : (l.erase d).map g = (l.erase d).map f := by
    apply List.map_congr_left
    intro k hk
    apply h
    rintro rfl
    exact hl.not_mem_erase hk
  have hf := List.sum_map_erase f hd
  have hg := List.sum_map_erase g hd
  rw [hrest] at hg
  omega

theorem le_sum_map [DecidableEq K] (hd : d ∈ l) : f d ≤ (l.map f).sum := by
  have hf := List.sum_map_erase f hd
  omega

theorem sum_map_le {m : Nat} (h : ∀ k, f k ≤ m) : (l.map f).sum ≤ l.length * m := by
  induction l with
  | nil => simp
  | cons k l ih =>
    have hk := h k
    rw [List.map_cons, List.sum_cons, List.length_cons, Nat.succ_mul]
    omega

end Keys

namespace Table
variable {K V : Type} [DecidableEq K] {f : V → Nat}

def total (f : V → Nat) (t : Table K V) : Nat := (t.entries.map fun p => f p.2).sum

/-- What the key `k` adds to the total. -/
def atKey (f : V → Nat) (t : Table K V) (k : K) : Nat := ((t.lookup k).map f).getD 0

theorem sum_kerase (k : K) (l : List (Sigma fun _ : K => V)) :
    (l.map fun p => f p.2).sum =
      ((l.dlookup k).map f).getD 0 + ((l.kerase k).map fun p => f p.2).sum := by
  induction l with
  | nil => rfl
  | cons p l ih =>
    by_cases hk : k = p.1
    · subst hk
      rw [List.kerase_cons_eq rfl, List.dlookup_cons_eq]
      rfl
    · rw [List.kerase_cons_ne hk, List.dlookup_cons_ne _ _ hk, List.map_cons, List.map_cons,
        List.sum_cons, List.sum_cons, ih]
      omega

theorem total_erase (t : Table K V) (k : K) : total f t = atKey f t k + total f (t.erase k) :=
  sum_kerase k t.entries

/-- The old value leaves the total and the new one enters it. -/
theorem total_insert (t : Table K V) (k : K) (v : V) :
    total f (t.insert k v) + atKey f t k = total f t + f v := by
  have hentries : total f (t.insert k v) = f v + total f (t.erase k) := by
    unfold total
    rw [AList.entries_insert, List.map_cons, List.sum_cons]
    rfl
  rw [hentries, @total_erase _ _ _ f t k]
  omega

/-- Tables that agree on what each key adds have the same total. -/
theorem total_congr {t t' : Table K V} (h : ∀ k, (t.lookup k).map f = (t'.lookup k).map f) :
    total f t = total f t' := by
  obtain ⟨n, hn⟩ : ∃ n, t.entries.length = n := ⟨_, rfl⟩
  induction n generalizing t t' with
  | zero =>
    have hempty : t = ∅ := AList.ext (List.length_eq_zero_iff.mp hn)
    have hempty' : t' = ∅ := by
      apply eq_empty
      intro k
      have hk := h k
      rw [hempty] at hk
      exact Option.map_eq_none_iff.mp hk.symm
    rw [hempty, hempty']
  | succ n ih =>
    obtain ⟨p, l, hp⟩ := List.exists_cons_of_length_eq_add_one hn
    have hkey : p.1 ∈ t := by
      rw [AList.mem_keys]
      unfold AList.keys List.keys
      rw [hp]
      exact List.mem_cons_self
    have hsize : (t.erase p.1).entries.length = n := by
      change (t.entries.kerase p.1).length = n
      rw [hp, List.kerase_cons_eq rfl]
      rw [hp, List.length_cons] at hn
      exact Nat.succ.inj hn
    have hrest : total f (t.erase p.1) = total f (t'.erase p.1) := by
      apply ih _ hsize
      intro k
      rw [lookup_erase_ite, lookup_erase_ite]
      split
      · rfl
      · exact h k
    rw [@total_erase _ _ _ f t p.1, @total_erase _ _ _ f t' p.1, hrest]
    unfold atKey
    rw [h p.1]

omit [DecidableEq K] in
/-- Summing over the values with a property. -/
theorem total_sum (P : V → Bool) (size : V → Nat) (t : Table K V) :
    total (fun v => if P v then size v else 0) t =
      ((t.entries.filter fun p => P p.2).map fun p => size p.2).sum := by
  unfold total
  induction t.entries with
  | nil => rfl
  | cons p l ih =>
    rw [List.map_cons, List.sum_cons, ih, List.filter_cons]
    dsimp only
    split
    · rw [List.map_cons, List.sum_cons]
    · rw [Nat.zero_add]

omit [DecidableEq K] in
/-- Counting the values with a property. -/
theorem total_count (P : V → Bool) (t : Table K V) :
    total (fun v => if P v then 1 else 0) t = (t.entries.filter fun p => P p.2).length := by
  rw [total_sum P (fun _ => 1), List.map_const', List.sum_replicate_nat, Nat.mul_one]

end Table
end ShieldReduce.Lib
