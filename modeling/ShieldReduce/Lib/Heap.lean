import Mathlib.Logic.Equiv.Basic
import Mathlib.Order.Nat
import Mathlib.Algebra.Order.Group.Nat

/-!
# Binary heaps

A heap of `n` places is seen through the priorities `f` of its places. While an element moves up or
down, the heap is in order but for the neighbours of that element.
-/

namespace ShieldReduce.Lib.Heap

def parent (i : ℕ) : ℕ := (i - 1) / 2

def child (i : ℕ) : ℕ := i * 2 + 1

section Positions
variable {i j : ℕ}

theorem parent_lt (h : 0 < i) : parent i < i := by
  unfold parent
  omega

theorem lt_child (i : ℕ) : i < child i := by
  unfold child
  omega

theorem parent_eq_iff (hj : 0 < j) : parent j = i ↔ j = child i ∨ j = child i + 1 := by
  unfold parent child
  omega

theorem lt_of_parent (hj : 0 < j) (h : parent j = i) : i < j := by
  rw [← h]
  exact parent_lt hj

end Positions

section Order
variable {O : Type} [LinearOrder O] {f g : ℕ → O} {n i : ℕ}

/-- No place comes before its parent. -/
def Ordered (f : ℕ → O) (n : ℕ) : Prop := ∀ j, 0 < j → j < n → f (parent j) ≤ f j

/-- The order but for the neighbours of `i`, which are in order with each other. -/
structure Loose (f : ℕ → O) (n i : ℕ) : Prop where
  off : ∀ j, 0 < j → j < n → j ≠ i → parent j ≠ i → f (parent j) ≤ f j
  bridged : 0 < i → ∀ j, 0 < j → j < n → parent j = i → f (parent i) ≤ f j

def Below (f : ℕ → O) (n i : ℕ) : Prop := ∀ j, 0 < j → j < n → parent j = i → f i ≤ f j

def Above (f : ℕ → O) (i : ℕ) : Prop := 0 < i → f (parent i) ≤ f i

theorem Loose.ordered (h : Loose f n i) (hbelow : Below f n i) (habove : Above f i) :
    Ordered f n := by
  intro j hj hn
  by_cases hji : j = i
  · rw [hji] at hj ⊢
    exact habove hj
  · by_cases hp : parent j = i
    · rw [hp]
      exact hbelow j hj hn hp
    · exact h.off j hj hn hji hp

theorem Ordered.loose (h : Ordered f n) (hi : i < n) (hg : ∀ j, j < n → j ≠ i → g j = f j) :
    Loose g n i := by
  refine ⟨?_, ?_⟩
  · intro j hj hn hji hp
    rw [hg j hn hji, hg _ ((parent_lt hj).trans hn) hp]
    exact h j hj hn
  · intro hpos j hj hn hp
    have hlt := lt_of_parent hj hp
    have hup := parent_lt hpos
    rw [hg _ (hup.trans hi) hup.ne, hg j hn hlt.ne']
    have hchild := h j hj hn
    rw [hp] at hchild
    exact (h i hpos hi).trans hchild

theorem Ordered.take (h : Ordered f n) {m : ℕ} (hm : m ≤ n) : Ordered f m :=
  fun j hj hjm => h j hj (hjm.trans_le hm)

/-- A last place has no children. -/
theorem Ordered.push (h : Ordered f n) (hg : ∀ j, j < n → g j = f j) :
    Loose g (n + 1) n ∧ Below g (n + 1) n := by
  have hnone : ∀ j, 0 < j → j < n + 1 → parent j ≠ n := by
    intro j hj hn hp
    have hlt := lt_of_parent hj hp
    omega
  refine ⟨⟨?_, fun _ j hj hn hp => absurd hp (hnone j hj hn)⟩,
    fun j hj hn hp => absurd hp (hnone j hj hn)⟩
  intro j hj hn hji _
  have hlt : j < n := by omega
  rw [hg j hlt, hg _ ((parent_lt hj).trans hlt)]
  exact h j hj hlt

theorem Ordered.top (h : Ordered f n) {j : ℕ} (hj : j < n) : f 0 ≤ f j := by
  induction j using Nat.strong_induction_on with
  | _ j ih =>
    rcases Nat.eq_zero_or_pos j with hz | hpos
    · rw [hz]
    · exact (ih _ (parent_lt hpos) ((parent_lt hpos).trans hj)).trans (h j hpos hj)

end Order

section Moves
variable {O : Type} [LinearOrder O] {f g : ℕ → O} {n i c : ℕ}

/-- The element at `i` changes places with a parent that it comes before. -/
theorem Loose.moveUp (h : Loose f n i) (hi : 0 < i) (hn : i < n) (hlt : f i < f (parent i))
    (hg : ∀ j, g j = f (Equiv.swap i (parent i) j)) :
    Loose g n (parent i) ∧ Below g n (parent i) := by
  have hp := parent_lt hi
  have hgi : g i = f (parent i) := by rw [hg, Equiv.swap_apply_left]
  have hgp : g (parent i) = f i := by rw [hg, Equiv.swap_apply_right]
  have hgo : ∀ j, j ≠ i → j ≠ parent i → g j = f j := by
    intro j hji hjp
    rw [hg, Equiv.swap_apply_of_ne_of_ne hji hjp]
  have hup : 0 < parent i → f (parent (parent i)) ≤ f (parent i) := by
    intro hpos
    exact h.off _ hpos (hp.trans hn) hp.ne ((parent_lt hpos).trans hp).ne
  have hside : ∀ j, 0 < j → j < n → parent j = parent i → j ≠ i → f (parent i) ≤ f j := by
    intro j hj hjn hpj hji
    have hoff := h.off j hj hjn hji (by rw [hpj]; exact hp.ne)
    rwa [hpj] at hoff
  refine ⟨⟨?_, ?_⟩, ?_⟩
  · intro j hj hjn hjp hpj
    have hji : j ≠ i := fun heq => hpj (by rw [heq])
    rw [hgo j hji hjp]
    by_cases hpi : parent j = i
    · rw [hpi, hgi]
      exact h.bridged hi j hj hjn hpi
    · rw [hgo _ hpi hpj]
      exact h.off j hj hjn hji hpi
  · intro hpos j hj hjn hpj
    have hpp := parent_lt hpos
    rw [hgo _ (hpp.trans hp).ne hpp.ne]
    by_cases hji : j = i
    · rw [hji, hgi]
      exact hup hpos
    · rw [hgo j hji (lt_of_parent hj hpj).ne']
      exact (hup hpos).trans (hside j hj hjn hpj hji)
  · intro j hj hjn hpj
    rw [hgp]
    by_cases hji : j = i
    · rw [hji, hgi]
      exact hlt.le
    · rw [hgo j hji (lt_of_parent hj hpj).ne']
      exact hlt.le.trans (hside j hj hjn hpj hji)

/-- The element at `i` changes places with the first of its children, which comes before it. -/
theorem Loose.moveDown (h : Loose f n i) (hc : 0 < c) (hn : c < n) (hpc : parent c = i)
    (hmin : ∀ j, 0 < j → j < n → parent j = i → f c ≤ f j) (hlt : f c < f i)
    (hg : ∀ j, g j = f (Equiv.swap c i j)) : Loose g n c ∧ Above g c := by
  have hic : i < c := lt_of_parent hc hpc
  have hgc : g c = f i := by rw [hg, Equiv.swap_apply_left]
  have hgi : g i = f c := by rw [hg, Equiv.swap_apply_right]
  have hgo : ∀ j, j ≠ c → j ≠ i → g j = f j := by
    intro j hjc hji
    rw [hg, Equiv.swap_apply_of_ne_of_ne hjc hji]
  refine ⟨⟨?_, ?_⟩, ?_⟩
  · intro j hj hjn hjc hpj
    by_cases hji : j = i
    · rw [hji] at hj ⊢
      have hp := parent_lt hj
      rw [hgi, hgo _ (hp.trans hic).ne hp.ne]
      exact h.bridged hj c hc hn hpc
    · rw [hgo j hjc hji]
      by_cases hpi : parent j = i
      · rw [hpi, hgi]
        exact hmin j hj hjn hpi
      · rw [hgo _ hpj hpi]
        exact h.off j hj hjn hji hpi
  · intro _ j hj hjn hpj
    have hcj := lt_of_parent hj hpj
    have hoff := h.off j hj hjn (hic.trans hcj).ne' (by rw [hpj]; exact hic.ne')
    rw [hpj] at hoff
    rw [hpc, hgi, hgo j hcj.ne' (hic.trans hcj).ne']
    exact hoff
  · intro _
    rw [hpc, hgi, hgc]
    exact hlt.le

end Moves

section Exchange
variable {K : Type}

/-- `std::swap` on two elements. -/
def swapAt (l : List K) (i j : ℕ) : List K :=
  match l[i]?, l[j]? with
  | some a, some b => (l.set i b).set j a
  | _, _ => l

@[simp] theorem swapAt_length (l : List K) (i j : ℕ) : (swapAt l i j).length = l.length := by
  unfold swapAt
  cases l[i]? with
  | none => rfl
  | some a =>
    cases l[j]? with
    | none => rfl
    | some b => simp

theorem getElem?_swapAt {l : List K} {i j : ℕ} (hi : i < l.length) (hj : j < l.length) (k : ℕ) :
    (swapAt l i j)[k]? = l[Equiv.swap i j k]? := by
  unfold swapAt
  rw [List.getElem?_eq_getElem hi, List.getElem?_eq_getElem hj]
  dsimp only
  rw [List.getElem?_set, List.length_set]
  by_cases hkj : j = k
  · rw [if_pos hkj, ← hkj, if_pos hj, Equiv.swap_apply_right, List.getElem?_eq_getElem hi]
  · rw [if_neg hkj, List.getElem?_set]
    by_cases hki : i = k
    · rw [if_pos hki, ← hki, if_pos hi, Equiv.swap_apply_left, List.getElem?_eq_getElem hj]
    · rw [if_neg hki, Equiv.swap_apply_of_ne_of_ne (Ne.symm hki) (Ne.symm hkj)]

end Exchange

end ShieldReduce.Lib.Heap
