import ShieldReduce.Prototype.TopK

/-!
# The heap as a map

`EcallEntryHeap` holds an address and a frequency for each of its keys, and the least frequency on
top.
-/

namespace ShieldReduce.Prototype
open Lib Store

namespace EntryHeap

/-- What the heap holds for a key. -/
def item (h : EntryHeap) (key : Fp) : Option (RecipeEntry × UInt32) :=
  (h.index.lookup key).map fun it => (it.address, it.chunkFreq)

/-- The frequencies in the order of the places. -/
def places (h : EntryHeap) (i : Nat) : Nat := (h.freqAt i).toNat

/-- Every key has one place and knows it, but perhaps the key at `hole`. -/
structure Located (h : EntryHeap) (hole : Nat) : Prop where
  inj : ∀ {i j : Nat} {key : Fp}, h.heap[i]? = some key → h.heap[j]? = some key → i = j
  keys : ∀ key, (∃ i : Nat, h.heap[i]? = some key) ↔ h.index.lookup key ≠ none
  idx : ∀ {i : Nat} {key : Fp} {it : HeapItem}, i ≠ hole → h.heap[i]? = some key →
    h.index.lookup key = some it → it.idx = i

structure Ok (h : EntryHeap) : Prop where
  located : Located h h.heap.length
  ordered : Heap.Ordered h.places h.heap.length

section Access
variable {h : EntryHeap} {i hole : Nat} {key : Fp}

theorem compFreq_iff (a b : UInt32) : CompFreq a b = true ↔ a.toNat < b.toNat := by
  unfold CompFreq
  rw [decide_eq_true_iff, UInt32.lt_iff_toNat_lt]

theorem freqAt_of_item (hk : h.heap[i]? = some key) {a : RecipeEntry} {f : UInt32}
    (hitem : h.item key = some (a, f)) : h.freqAt i = f := by
  unfold item at hitem
  unfold freqAt
  obtain ⟨it, hit, heq⟩ := Option.map_eq_some_iff.mp hitem
  rw [hk, Option.bind_some, hit]
  exact (Prod.ext_iff.mp heq).2

theorem Located.item_isSome (hloc : Located h hole) (hk : h.heap[i]? = some key) :
    ∃ it, h.index.lookup key = some it :=
  Option.ne_none_iff_exists'.mp ((hloc.keys key).mp ⟨i, hk⟩)

theorem item_eq_none : h.item key = none ↔ h.index.lookup key = none := Option.map_eq_none_iff

theorem contains_iff : h.Contains key = true ↔ h.item key ≠ none := by
  unfold Contains
  rw [Ne, item_eq_none, ← Ne, Option.isSome_iff_ne_none]

theorem item_modify {h' : EntryHeap} {f : HeapItem → HeapItem}
    (hindex : h'.index = Table.modify h.index key f) (k : Fp) :
    h'.item k = if k = key then ((h.index.lookup key).map f).map fun it => (it.address, it.chunkFreq)
      else h.item k := by
  unfold item
  rw [hindex, Table.lookup_modify]
  split
  · rfl
  · rfl

/-- Telling a key its place changes nothing else. -/
theorem item_setIdx {h' : EntryHeap}
    (hindex : h'.index = Table.modify h.index key fun it => { it with idx := i }) :
    h'.item = h.item := by
  funext k
  rw [item_modify hindex]
  split
  case isTrue hk =>
    rw [hk, Option.map_map]
    rfl
  case isFalse => rfl

theorem places_congr {h' : EntryHeap} (hitem : h'.item = h.item) {j : Nat}
    (hplace : h'.heap[j]? = h.heap[i]?) : h'.freqAt j = h.freqAt i := by
  unfold freqAt
  rw [hplace]
  cases hk : h.heap[i]? with
  | none => rfl
  | some key =>
    have hsame := congrFun hitem key
    unfold item at hsame
    rw [Option.bind_some, Option.bind_some]
    cases hl : h.index.lookup key with
    | none =>
      rw [hl, Option.map_none, Option.map_eq_none_iff] at hsame
      rw [hsame]
    | some it =>
      rw [hl, Option.map_some] at hsame
      obtain ⟨it', hit', heq⟩ := Option.map_eq_some_iff.mp hsame
      rw [hit']
      exact (Prod.ext_iff.mp heq).2

theorem setIdxAt_of_place (hk : h.heap[i]? = some key) :
    h.setIdxAt i = { h with index := Table.modify h.index key fun it => { it with idx := i } } := by
  unfold setIdxAt modifyAt
  rw [hk]

end Access

section Exchange
variable {h : EntryHeap} {i j : Nat}

theorem exchange_heap (h : EntryHeap) (i j : Nat) :
    (h.exchange i j).heap = Heap.swapAt h.heap i j := by
  unfold exchange setIdxAt modifyAt
  split
  · rfl
  · rfl

theorem exchange_length (h : EntryHeap) (i j : Nat) :
    (h.exchange i j).heap.length = h.heap.length := by
  rw [exchange_heap, Heap.swapAt_length]

theorem exchange_item (h : EntryHeap) (i j : Nat) : (h.exchange i j).item = h.item := by
  unfold exchange
  cases hk : (Heap.swapAt h.heap i j)[i]? with
  | none =>
    unfold setIdxAt modifyAt
    rw [hk]
    rfl
  | some key =>
    have hset := @setIdxAt_of_place { h with heap := Heap.swapAt h.heap i j } i key hk
    rw [hset]
    exact @item_setIdx h i key _ rfl

theorem exchange_places (hi : i < h.heap.length) (hj : j < h.heap.length) (k : Nat) :
    (h.exchange i j).places k = h.places (Equiv.swap i j k) := by
  unfold places
  rw [places_congr (exchange_item h i j)]
  rw [exchange_heap, Heap.getElem?_swapAt hi hj]

/-- The key that does not know its place is now at `j`. -/
theorem Located.swapped (hloc : Located h i) (hi : i < h.heap.length) (hj : j < h.heap.length) :
    Located (h.exchange i j) j := by
  have hplace : ∀ k, (h.exchange i j).heap[k]? = h.heap[Equiv.swap i j k]? := by
    intro k
    rw [exchange_heap, Heap.getElem?_swapAt hi hj]
  obtain ⟨moved, hmoved⟩ : ∃ key, h.heap[j]? = some key := ⟨_, List.getElem?_eq_getElem hj⟩
  have hindex : (h.exchange i j).index =
      Table.modify h.index moved fun it => { it with idx := i } := by
    have hk : (Heap.swapAt h.heap i j)[i]? = some moved := by
      rw [Heap.getElem?_swapAt hi hj, Equiv.swap_apply_left, hmoved]
    unfold exchange
    rw [@setIdxAt_of_place { h with heap := Heap.swapAt h.heap i j } i moved hk]
  refine ⟨?_, ?_, ?_⟩
  · intro a b key ha hb
    rw [hplace] at ha hb
    exact (Equiv.swap i j).injective (hloc.inj ha hb)
  · intro key
    have hsame : (h.exchange i j).index.lookup key ≠ none ↔ h.index.lookup key ≠ none := by
      have hitem := congrFun (exchange_item h i j) key
      rw [Ne, Ne, ← item_eq_none, ← item_eq_none, hitem]
    rw [hsame, ← hloc.keys key]
    constructor
    · rintro ⟨k, hk⟩
      exact ⟨_, (hplace k).symm.trans hk⟩
    · rintro ⟨k, hk⟩
      refine ⟨Equiv.swap i j k, ?_⟩
      rw [hplace, Equiv.swap_apply_self]
      exact hk
  · intro k key it hk hkey hit
    rw [hplace] at hkey
    rw [hindex, Table.lookup_modify] at hit
    by_cases hki : k = i
    · rw [hki, Equiv.swap_apply_left, hmoved, Option.some.injEq] at hkey
      rw [if_pos hkey.symm] at hit
      obtain ⟨_, _, heq⟩ := Option.map_eq_some_iff.mp hit
      rw [hki, ← heq]
    · rw [Equiv.swap_apply_of_ne_of_ne hki hk] at hkey
      have hne : key ≠ moved := by
        intro heq
        rw [heq] at hkey
        exact hk (hloc.inj hkey hmoved)
      rw [if_neg hne] at hit
      exact hloc.idx hki hkey hit

end Exchange

section Moves
variable {h : EntryHeap} {idx : Nat}

/-- What a loop that moves the key at `idx` leaves as it is. -/
structure Moved (h h' : EntryHeap) (key : Fp) (idx' : Nat) : Prop where
  located : Located h' idx'
  loose : Heap.Loose h'.places h'.heap.length idx'
  size : h'.heap.length = h.heap.length
  item : h'.item = h.item
  place : h'.heap[idx']? = some key

theorem Moved.trans {h₁ h₂ h₃ : EntryHeap} {key : Fp} {i j : Nat} (h₁₂ : Moved h₁ h₂ key i)
    (h₂₃ : Moved h₂ h₃ key j) : Moved h₁ h₃ key j :=
  ⟨h₂₃.located, h₂₃.loose, h₂₃.size.trans h₁₂.size, h₂₃.item.trans h₁₂.item, h₂₃.place⟩

/-- The key at `i` goes to `j`. -/
theorem Moved.swapped {i j : Nat} {key : Fp} (hloc : Located h i) (hkey : h.heap[i]? = some key)
    (hj : j < h.heap.length)
    (hloose : Heap.Loose (h.exchange i j).places h.heap.length j) :
    Moved h (h.exchange i j) key j := by
  have hi : i < h.heap.length := (List.getElem?_eq_some_iff.mp hkey).1
  refine ⟨hloc.swapped hi hj, ?_, exchange_length h i j, exchange_item h i j, ?_⟩
  · rw [exchange_length]
    exact hloose
  · rw [exchange_heap, Heap.getElem?_swapAt hi hj, Equiv.swap_apply_right]
    exact hkey

theorem SwapUpLoop_spec (fuel : Nat) {h : EntryHeap} {idx : Nat} {key : Fp} (hloc : Located h idx)
    (hloose : Heap.Loose h.places h.heap.length idx) (hkey : h.heap[idx]? = some key)
    (hfuel : idx ≤ fuel) :
    Moved h (SwapUpLoop fuel h idx).1 key (SwapUpLoop fuel h idx).2 ∧
      Heap.Above (SwapUpLoop fuel h idx).1.places (SwapUpLoop fuel h idx).2 ∧
      (Heap.Below h.places h.heap.length idx →
        Heap.Below (SwapUpLoop fuel h idx).1.places (SwapUpLoop fuel h idx).1.heap.length
          (SwapUpLoop fuel h idx).2) := by
  have hstay : Heap.Above h.places idx → Moved h h key idx ∧ Heap.Above h.places idx ∧
      (Heap.Below h.places h.heap.length idx → Heap.Below h.places h.heap.length idx) :=
    fun habove => ⟨⟨hloc, hloose, rfl, rfl, hkey⟩, habove, id⟩
  induction fuel generalizing h idx with
  | zero =>
    apply hstay
    intro hpos
    omega
  | succ fuel ih =>
    unfold SwapUpLoop
    have hn : idx < h.heap.length := (List.getElem?_eq_some_iff.mp hkey).1
    by_cases hmove : 0 < idx ∧ CompFreq (h.freqAt idx) (h.freqAt (Heap.parent idx)) = true
    · rw [if_pos hmove]
      have hp := Heap.parent_lt hmove.1
      have hlt : h.places idx < h.places (Heap.parent idx) := (compFreq_iff _ _).mp hmove.2
      obtain ⟨hloose', hbelow'⟩ := hloose.moveUp hmove.1 hn hlt
        (exchange_places hn (hp.trans hn))
      have hmoved := Moved.swapped hloc hkey (hp.trans hn) hloose'
      obtain ⟨hrest, habove, hbelow⟩ := ih hmoved.located hmoved.loose hmoved.place (by omega)
        fun habove => ⟨⟨hmoved.located, hmoved.loose, rfl, rfl, hmoved.place⟩, habove, id⟩
      refine ⟨hmoved.trans hrest, habove, fun _ => hbelow ?_⟩
      rw [exchange_length]
      exact hbelow'
    · rw [if_neg hmove]
      apply hstay
      intro hpos
      by_contra hlt
      exact hmove ⟨hpos, (compFreq_iff _ _).mpr (not_le.mp hlt)⟩

theorem firstChild_spec (h : EntryHeap) {idx : Nat} (hn : Heap.child idx < h.heap.length) :
    h.firstChild idx < h.heap.length ∧ 0 < h.firstChild idx ∧
      Heap.parent (h.firstChild idx) = idx ∧
      ∀ j, 0 < j → j < h.heap.length → Heap.parent j = idx →
        h.places (h.firstChild idx) ≤ h.places j := by
  have hpos := (Nat.zero_le idx).trans_lt (Heap.lt_child idx)
  unfold firstChild
  dsimp only
  split
  case isTrue hright =>
    have hlt := (compFreq_iff _ _).mp hright.2
    refine ⟨hright.1, Nat.succ_pos _, (Heap.parent_eq_iff (Nat.succ_pos _)).mpr (Or.inr rfl), ?_⟩
    intro j hj _ hpj
    rcases (Heap.parent_eq_iff hj).mp hpj with heq | heq
    · rw [heq]
      exact hlt.le
    · rw [heq]
  case isFalse hleft =>
    refine ⟨hn, hpos, (Heap.parent_eq_iff hpos).mpr (Or.inl rfl), ?_⟩
    intro j hj hjn hpj
    rcases (Heap.parent_eq_iff hj).mp hpj with heq | heq
    · rw [heq]
    · rw [heq] at hjn ⊢
      by_contra hlt
      exact hleft ⟨hjn, (compFreq_iff _ _).mpr (not_le.mp hlt)⟩

theorem SwapDownLoop_spec (fuel : Nat) {h : EntryHeap} {idx : Nat} {key : Fp} (hloc : Located h idx)
    (hloose : Heap.Loose h.places h.heap.length idx) (habove : Heap.Above h.places idx)
    (hkey : h.heap[idx]? = some key) (hfuel : h.heap.length ≤ idx + fuel) :
    Moved h (SwapDownLoop fuel h idx).1 key (SwapDownLoop fuel h idx).2 ∧
      Heap.Above (SwapDownLoop fuel h idx).1.places (SwapDownLoop fuel h idx).2 ∧
      Heap.Below (SwapDownLoop fuel h idx).1.places (SwapDownLoop fuel h idx).1.heap.length
        (SwapDownLoop fuel h idx).2 := by
  induction fuel generalizing h idx with
  | zero =>
    have hn : idx < h.heap.length := (List.getElem?_eq_some_iff.mp hkey).1
    omega
  | succ fuel ih =>
    have hn : idx < h.heap.length := (List.getElem?_eq_some_iff.mp hkey).1
    unfold SwapDownLoop
    by_cases hchild : Heap.child idx < h.heap.length
    · rw [if_pos hchild]
      obtain ⟨hc, hpos, hparent, hmin⟩ := firstChild_spec h hchild
      have hic : idx < h.firstChild idx := Heap.lt_of_parent hpos hparent
      dsimp only
      by_cases hmove : CompFreq (h.freqAt (h.firstChild idx)) (h.freqAt idx) = true
      · rw [if_pos hmove]
        have hlt : h.places (h.firstChild idx) < h.places idx := (compFreq_iff _ _).mp hmove
        have hplaces : ∀ k, (h.exchange idx (h.firstChild idx)).places k =
            h.places (Equiv.swap (h.firstChild idx) idx k) := by
          intro k
          rw [exchange_places hn hc, Equiv.swap_comm]
        obtain ⟨hloose', habove'⟩ := hloose.moveDown hpos hc hparent hmin hlt hplaces
        have hmoved := Moved.swapped hloc hkey hc hloose'
        obtain ⟨hrest, hdone⟩ := ih hmoved.located hmoved.loose habove' hmoved.place (by
          rw [exchange_length]
          omega)
        exact ⟨hmoved.trans hrest, hdone⟩
      · rw [if_neg hmove]
        refine ⟨⟨hloc, hloose, rfl, rfl, hkey⟩, habove, ?_⟩
        intro j hj hjn hpj
        have hle : h.places idx ≤ h.places (h.firstChild idx) :=
          not_lt.mp fun hlt => hmove ((compFreq_iff _ _).mpr hlt)
        exact hle.trans (hmin j hj hjn hpj)
    · rw [if_neg hchild]
      refine ⟨⟨hloc, hloose, rfl, rfl, hkey⟩, habove, ?_⟩
      intro j hj hjn hpj
      have hlast : j < h.heap.length := hjn
      rcases (Heap.parent_eq_iff hj).mp hpj with heq | heq
      · exact absurd (heq ▸ hlast) hchild
      · have hright : j = Heap.child idx + 1 := heq
        rw [hright] at hlast
        exact absurd ((Nat.lt_succ_self _).trans hlast) hchild

/-- The key that has been moved is told its place. -/
theorem Ok.settle {h : EntryHeap} {key : Fp} {i : Nat} (hloc : Located h i)
    (hordered : Heap.Ordered h.places h.heap.length) (hkey : h.heap[i]? = some key)
    {h' : EntryHeap}
    (heq : h' = { h with index := Table.modify h.index key fun it => { it with idx := i } }) :
    Ok h' ∧ h'.item = h.item := by
  have hitem : h'.item = h.item := item_setIdx (by rw [heq])
  have hheap : h'.heap = h.heap := by rw [heq]
  have hplaces : h'.places = h.places := by
    funext j
    unfold places
    rw [places_congr hitem (by rw [hheap])]
  refine ⟨⟨⟨?_, ?_, ?_⟩, ?_⟩, hitem⟩
  · rw [hheap]
    exact hloc.inj
  · intro k
    rw [hheap, hloc.keys k, Ne, Ne, ← item_eq_none, ← item_eq_none, hitem]
  · intro j k it _ hk hit
    rw [hheap] at hk
    rw [heq, Table.lookup_modify] at hit
    by_cases hki : k = key
    · rw [if_pos hki] at hit
      obtain ⟨_, _, hidx⟩ := Option.map_eq_some_iff.mp hit
      rw [hki] at hk
      rw [← hidx, hloc.inj hkey hk]
    · rw [if_neg hki] at hit
      have hji : j ≠ i := by
        intro hji
        rw [hji, hkey, Option.some.injEq] at hk
        exact hki hk.symm
      exact hloc.idx hji hk hit
  · rw [hplaces, hheap]
    exact hordered

end Moves

section Operations
variable {h : EntryHeap} {key : Fp}

theorem ok_empty : Ok empty := by
  refine ⟨⟨?_, ?_, ?_⟩, ?_⟩
  · intro i j k hi _
    simp [empty] at hi
  · intro k
    simp [empty]
  · intro i k it _ hk _
    simp [empty] at hk
  · intro j _ hj
    simp [empty] at hj

theorem Ok.place (h₀ : Ok h) {a : RecipeEntry} {f : UInt32} (hitem : h.item key = some (a, f)) :
    ∃ i it, h.heap[i]? = some key ∧ h.index.lookup key = some it ∧ it.idx = i ∧ h.freqAt i = f := by
  have hne : h.index.lookup key ≠ none := by
    intro hnone
    rw [item_eq_none.mpr hnone] at hitem
    exact absurd hitem (by simp)
  obtain ⟨i, hi⟩ := (h₀.located.keys key).mpr hne
  obtain ⟨it, hit⟩ := Option.ne_none_iff_exists'.mp hne
  have hlt := (List.getElem?_eq_some_iff.mp hi).1
  exact ⟨i, it, hi, hit, h₀.located.idx hlt.ne hi hit, freqAt_of_item hi hitem⟩

/-- The top has the least frequency. -/
theorem Ok.top_le (h₀ : Ok h) {a : RecipeEntry} {f : UInt32} (hitem : h.item key = some (a, f)) :
    h.TopEntry ≤ f := by
  obtain ⟨i, _, hi, _, _, hf⟩ := h₀.place hitem
  have htop := h₀.ordered.top (List.getElem?_eq_some_iff.mp hi).1
  rw [UInt32.le_iff_toNat_le, ← hf]
  exact htop

/-- What is not empty has a top. -/
theorem Ok.top (h₀ : Ok h) (hsize : h.Size ≠ 0) :
    ∃ top a, h.heap[0]? = some top ∧ h.item top = some (a, h.TopEntry) := by
  have hlt : 0 < h.heap.length := Nat.pos_of_ne_zero hsize
  have hplace : h.heap[0]? = some h.heap[0] := List.getElem?_eq_getElem hlt
  obtain ⟨it, hit⟩ := h₀.located.item_isSome hplace
  have hitem : h.item h.heap[0] = some (it.address, it.chunkFreq) := by
    unfold item
    rw [hit, Option.map_some]
  have hfreq := freqAt_of_item hplace hitem
  exact ⟨_, it.address, hplace, by rw [TopEntry, hfreq, hitem]⟩

theorem Ok.update (h₀ : Ok h) {a : RecipeEntry} {f : UInt32} (hitem : h.item key = some (a, f))
    (freq : UInt32) :
    Ok (h.Update key freq) ∧ (h.Update key freq).Size = h.Size ∧
      (h.Update key freq).item = Function.update h.item key (some (a, freq)) := by
  obtain ⟨i, it, hi, hit, hidx, _⟩ := h₀.place hitem
  have hlt := (List.getElem?_eq_some_iff.mp hi).1
  -- the heap after the write through `_heap[idx]`
  let h₁ : EntryHeap := { h with index := Table.modify h.index key fun it => { it with chunkFreq := freq } }
  have hmodify : h.modifyAt i (fun it => { it with chunkFreq := freq }) = h₁ := by
    unfold modifyAt
    rw [hi]
  have hitem₁ : h₁.item = Function.update h.item key (some (a, freq)) := by
    funext k
    rw [@item_modify h key h₁ _ rfl, Function.update_apply]
    by_cases hk : k = key
    · rw [if_pos hk, if_pos hk, hit]
      unfold item at hitem
      rw [hit, Option.map_some, Option.some.injEq] at hitem
      rw [Option.map_some, Option.map_some]
      exact congrArg some (Prod.ext (Prod.ext_iff.mp hitem).1 rfl)
    · rw [if_neg hk, if_neg hk]
  have hplaces : ∀ j, j ≠ i → h₁.places j = h.places j := by
    intro j hj
    unfold places freqAt
    cases hk : h.heap[j]? with
    | none => rfl
    | some k =>
      have hne : k ≠ key := by
        intro heq
        rw [heq] at hk
        exact hj (h₀.located.inj hk hi)
      have hlook : h₁.index.lookup k = h.index.lookup k := by
        rw [Table.lookup_modify, if_neg hne]
      rw [Option.bind_some, Option.bind_some, hlook]
  have hloc : Located h₁ i := by
    refine ⟨h₀.located.inj, ?_, ?_⟩
    · intro k
      have hsame : h₁.index.lookup k ≠ none ↔ h.index.lookup k ≠ none := by
        rw [Ne, Ne, ← item_eq_none, ← item_eq_none, hitem₁, Function.update_apply]
        by_cases hk : k = key
        · rw [if_pos hk, hk, hitem]
          simp
        · rw [if_neg hk]
      rw [hsame]
      exact h₀.located.keys k
    · intro j k it' hj hk hit'
      have hne : k ≠ key := by
        intro heq
        rw [heq] at hk
        exact hj (h₀.located.inj hk hi)
      rw [Table.lookup_modify, if_neg hne] at hit'
      exact h₀.located.idx (List.getElem?_eq_some_iff.mp hk).1.ne hk hit'
  have hloose : Heap.Loose h₁.places h₁.heap.length i := h₀.ordered.loose hlt fun j _ => hplaces j
  obtain ⟨hup, habove, _⟩ := SwapUpLoop_spec i hloc hloose hi (Nat.le_refl i)
  obtain ⟨hdown, habove', hbelow'⟩ := SwapDownLoop_spec
    ((SwapUp h₁ i).1.heap.length - (SwapUp h₁ i).2) hup.located hup.loose habove hup.place (by
      have hn := (List.getElem?_eq_some_iff.mp hup.place).1
      unfold SwapUp
      omega)
  have hall := hup.trans hdown
  have heq : h.Update key freq =
      { (SwapDown (SwapUp h₁ i).1 (SwapUp h₁ i).2).1 with
        index := Table.modify (SwapDown (SwapUp h₁ i).1 (SwapUp h₁ i).2).1.index key
          fun it => { it with idx := (SwapDown (SwapUp h₁ i).1 (SwapUp h₁ i).2).2 } } := by
    unfold Update
    rw [hit]
    dsimp only
    rw [hidx, hmodify]
  obtain ⟨hok, hsame⟩ := Ok.settle hall.located (hall.loose.ordered hbelow' habove') hall.place heq
  refine ⟨hok, ?_, hsame.trans (hall.item.trans hitem₁)⟩
  rw [heq]
  exact hall.size

theorem Ok.add (h₀ : Ok h) (hnone : h.item key = none) (value : HeapItem) :
    Ok (h.Add key value) ∧ (h.Add key value).Size = h.Size + 1 ∧
      (h.Add key value).item =
        Function.update h.item key (some (value.address, value.chunkFreq)) := by
  let h₁ : EntryHeap := ⟨h.heap ++ [key], Table.insertNew h.index key value⟩
  have habsent : h.index.lookup key = none := item_eq_none.mp hnone
  have hlook : ∀ k, h₁.index.lookup k = if k = key then some value else h.index.lookup k := by
    intro k
    rw [Table.lookup_insertNew]
    by_cases hk : k = key
    · rw [if_pos ⟨hk, habsent⟩, if_pos hk]
    · rw [if_neg fun h => hk h.1, if_neg hk]
  have hnew : ∀ i, h.heap[i]? ≠ some key := fun i hi =>
    (h₀.located.keys key).mp ⟨i, hi⟩ habsent
  have hlast : h₁.heap[h.heap.length]? = some key := List.getElem?_concat_length
  have hold : ∀ {i k}, i < h.heap.length → (h₁.heap[i]? = some k ↔ h.heap[i]? = some k) := by
    intro i k hi
    rw [List.getElem?_append_left hi]
  have hcase : ∀ {i k}, h₁.heap[i]? = some k →
      i = h.heap.length ∧ k = key ∨ i < h.heap.length ∧ h.heap[i]? = some k := by
    intro i k hk
    have hi := (List.getElem?_eq_some_iff.mp hk).1
    rw [List.length_append, List.length_singleton] at hi
    by_cases hlt : i < h.heap.length
    · exact Or.inr ⟨hlt, (hold hlt).mp hk⟩
    · have heq : i = h.heap.length := by omega
      rw [heq, hlast, Option.some.injEq] at hk
      exact Or.inl ⟨heq, hk.symm⟩
  have hitem₁ : h₁.item = Function.update h.item key (some (value.address, value.chunkFreq)) := by
    funext k
    unfold item
    rw [hlook, Function.update_apply]
    split
    · rfl
    · rfl
  have hplaces : ∀ j, j < h.heap.length → h₁.places j = h.places j := by
    intro j hj
    have hk : h.heap[j]? = some h.heap[j] := List.getElem?_eq_getElem hj
    have hne : h.heap[j] ≠ key := fun heq => hnew j (by rw [hk, heq])
    unfold places freqAt
    rw [(hold hj).mpr hk, hk, Option.bind_some, Option.bind_some, hlook, if_neg hne]
  have hloc : Located h₁ h.heap.length := by
    refine ⟨?_, ?_, ?_⟩
    · intro i j k hi hj
      rcases hcase hi with ⟨hi, hk⟩ | ⟨_, hi⟩
      · rcases hcase hj with ⟨hj, _⟩ | ⟨_, hj⟩
        · rw [hi, hj]
        · rw [hk] at hj
          exact absurd hj (hnew j)
      · rcases hcase hj with ⟨_, hk⟩ | ⟨_, hj⟩
        · rw [hk] at hi
          exact absurd hi (hnew i)
        · exact h₀.located.inj hi hj
    · intro k
      rw [hlook]
      by_cases hk : k = key
      · rw [if_pos hk, hk]
        exact ⟨fun _ => Option.some_ne_none _, fun _ => ⟨_, hlast⟩⟩
      · rw [if_neg hk, ← h₀.located.keys k]
        constructor
        · rintro ⟨i, hi⟩
          rcases hcase hi with ⟨_, heq⟩ | ⟨_, hi⟩
          · exact absurd heq hk
          · exact ⟨i, hi⟩
        · rintro ⟨i, hi⟩
          exact ⟨i, (hold (List.getElem?_eq_some_iff.mp hi).1).mpr hi⟩
    · intro i k it hi hk hit
      rcases hcase hk with ⟨heq, _⟩ | ⟨hlt, hk⟩
      · exact absurd heq hi
      · have hne : k ≠ key := by
          intro heq
          rw [heq] at hk
          exact hnew i hk
        rw [hlook, if_neg hne] at hit
        exact h₀.located.idx hlt.ne hk hit
  have hlen : h₁.heap.length = h.heap.length + 1 := by
    rw [List.length_append, List.length_singleton]
  obtain ⟨hloose, hbelow⟩ := h₀.ordered.push hplaces
  rw [← hlen] at hloose hbelow
  obtain ⟨hup, habove, hkeep⟩ := SwapUpLoop_spec h.heap.length hloc hloose hlast (Nat.le_refl _)
  have heq : h.Add key value =
      { (SwapUp h₁ h.heap.length).1 with
        index := Table.modify (SwapUp h₁ h.heap.length).1.index key
          fun it => { it with idx := (SwapUp h₁ h.heap.length).2 } } := rfl
  obtain ⟨hok, hsame⟩ := Ok.settle hup.located (hup.loose.ordered (hkeep hbelow) habove) hup.place heq
  refine ⟨hok, ?_, hsame.trans (hup.item.trans hitem₁)⟩
  rw [heq]
  exact hup.size.trans hlen

/-- The last element, which takes the first place when the top is dropped. -/
theorem popped_places (t : Fp) (rest : List Fp) {i : Nat} {key : Fp}
    (hk : (((t :: rest).set 0 (rest.getLastD t)).dropLast)[i]? = some key) :
    i < rest.length ∧
      (i = 0 ∧ (t :: rest)[rest.length]? = some key ∨ i ≠ 0 ∧ (t :: rest)[i]? = some key) := by
  have hlen : (((t :: rest).set 0 (rest.getLastD t)).dropLast).length = rest.length := by simp
  have hi : i < rest.length := by
    rw [← hlen]
    exact (List.getElem?_eq_some_iff.mp hk).1
  refine ⟨hi, ?_⟩
  rw [List.getElem?_dropLast, if_pos (by simpa using hi), List.set_cons_zero] at hk
  by_cases hz : i = 0
  · rw [hz, List.getElem?_cons_zero] at hk
    refine Or.inl ⟨hz, ?_⟩
    rw [← hk]
    rcases List.eq_nil_or_concat rest with hnil | ⟨front, last, hrest⟩
    · simp [hnil] at hi
    · simp [hrest]
  · refine Or.inr ⟨hz, ?_⟩
    obtain ⟨j, hj⟩ := Nat.exists_eq_succ_of_ne_zero hz
    rw [hj, Nat.succ_eq_add_one, List.getElem?_cons_succ] at hk ⊢
    exact hk

theorem popped_place_zero (t : Fp) {rest : List Fp} (hrest : 0 < rest.length) :
    (((t :: rest).set 0 (rest.getLastD t)).dropLast)[0]? = (t :: rest)[rest.length]? := by
  rcases List.eq_nil_or_concat rest with hnil | ⟨front, last, heq⟩
  · simp [hnil] at hrest
  · simp [heq]

theorem popped_place_succ (t : Fp) {rest : List Fp} {i : Nat} (hi : i < rest.length) (hz : i ≠ 0) :
    (((t :: rest).set 0 (rest.getLastD t)).dropLast)[i]? = (t :: rest)[i]? := by
  rw [List.getElem?_dropLast, if_pos (by simpa using hi), List.set_cons_zero]
  obtain ⟨j, hj⟩ := Nat.exists_eq_succ_of_ne_zero hz
  rw [hj, Nat.succ_eq_add_one, List.getElem?_cons_succ, List.getElem?_cons_succ]

theorem Ok.pop (h₀ : Ok h) (hsize : h.Size ≠ 0) :
    ∃ top a, h.item top = some (a, h.TopEntry) ∧ Ok h.Pop ∧ h.Pop.Size + 1 = h.Size ∧
      h.Pop.item = Function.update h.item top none := by
  obtain ⟨t, a, hplace, htop⟩ := h₀.top hsize
  refine ⟨t, a, htop, ?_⟩
  obtain ⟨rest, hheap⟩ : ∃ rest, h.heap = t :: rest := by
    cases hc : h.heap with
    | nil => simp [hc] at hplace
    | cons k rest =>
      rw [hc, List.getElem?_cons_zero, Option.some.injEq] at hplace
      exact ⟨rest, by rw [hplace]⟩
  let h₁ : EntryHeap := ⟨((t :: rest).set 0 (rest.getLastD t)).dropLast, h.index.erase t⟩
  have hlen : h₁.heap.length = rest.length := by simp [h₁]
  have hlen₀ : h.heap.length = rest.length + 1 := by rw [hheap, List.length_cons]
  have hold : ∀ {i k}, h₁.heap[i]? = some k → i < rest.length ∧
      (i = 0 ∧ h.heap[rest.length]? = some k ∨ i ≠ 0 ∧ h.heap[i]? = some k) := by
    intro i k hk
    rw [hheap]
    exact popped_places t rest hk
  have hne : ∀ {i : Nat} {k : Fp}, h₁.heap[i]? = some k → k ≠ t := by
    intro i k hk heq
    rw [heq] at hk
    obtain ⟨hi, ⟨hz, hlast⟩ | ⟨hz, hk⟩⟩ := hold hk
    · have hzero := h₀.located.inj hlast hplace
      omega
    · exact hz (h₀.located.inj hk hplace)
  have hlook : ∀ k, h₁.index.lookup k = if k = t then none else h.index.lookup k :=
    fun k => Table.lookup_erase_ite _ _ _
  have hitem₁ : h₁.item = Function.update h.item t none := by
    funext k
    unfold item
    rw [hlook, Function.update_apply]
    split
    · rfl
    · rfl
  have hplaces : ∀ j, j < rest.length → j ≠ 0 → h₁.places j = h.places j := by
    intro j hj hz
    have hplace₁ : h₁.heap[j]? = h.heap[j]? := by
      rw [hheap]
      exact popped_place_succ t hj hz
    have hlt : j < h.heap.length := by omega
    have hk : h.heap[j]? = some h.heap[j] := List.getElem?_eq_getElem hlt
    have hkt : h.heap[j] ≠ t := hne (hplace₁.trans hk)
    unfold places freqAt
    rw [hplace₁, hk, Option.bind_some, Option.bind_some, hlook, if_neg hkt]
  have hloc : Located h₁ 0 := by
    refine ⟨?_, ?_, ?_⟩
    · intro i j k hi hj
      obtain ⟨hir, ⟨hiz, hi⟩ | ⟨hiz, hi⟩⟩ := hold hi
      · obtain ⟨hjr, ⟨hjz, _⟩ | ⟨_, hj⟩⟩ := hold hj
        · rw [hiz, hjz]
        · have heq := h₀.located.inj hi hj
          omega
      · obtain ⟨hjr, ⟨_, hj⟩ | ⟨_, hj⟩⟩ := hold hj
        · have heq := h₀.located.inj hi hj
          omega
        · exact h₀.located.inj hi hj
    · intro k
      rw [hlook]
      constructor
      · rintro ⟨i, hi⟩
        rw [if_neg (hne hi)]
        obtain ⟨_, ⟨_, hi⟩ | ⟨_, hi⟩⟩ := hold hi
        · exact (h₀.located.keys k).mp ⟨_, hi⟩
        · exact (h₀.located.keys k).mp ⟨_, hi⟩
      · intro hk
        by_cases hkt : k = t
        · rw [if_pos hkt] at hk
          exact absurd rfl hk
        · rw [if_neg hkt] at hk
          obtain ⟨i, hi⟩ := (h₀.located.keys k).mpr hk
          have hir := (List.getElem?_eq_some_iff.mp hi).1
          have hz : i ≠ 0 := by
            intro hz
            rw [hz, hplace, Option.some.injEq] at hi
            exact hkt hi.symm
          by_cases hlast : i = rest.length
          · refine ⟨0, ?_⟩
            have hfirst : h₁.heap[0]? = (t :: rest)[rest.length]? :=
              popped_place_zero t (Nat.pos_of_ne_zero (hlast ▸ hz))
            rw [hfirst, ← hheap, ← hlast, hi]
          · refine ⟨i, ?_⟩
            have hsame : h₁.heap[i]? = (t :: rest)[i]? := popped_place_succ t (by omega) hz
            rw [hsame, ← hheap, hi]
    · intro i k it hz hk hit
      rw [hlook, if_neg (hne hk)] at hit
      obtain ⟨_, ⟨hiz, _⟩ | ⟨_, hi⟩⟩ := hold hk
      · exact absurd hiz hz
      · exact h₀.located.idx (List.getElem?_eq_some_iff.mp hi).1.ne hi hit
  have hpop : h.Pop = (SwapDown h₁ 0).1.setIdxAt (SwapDown h₁ 0).2 := by
    unfold Pop
    rw [hheap]
  have hsizes : ∀ {h' : EntryHeap}, h'.heap.length = rest.length → h'.Size + 1 = h.Size := by
    intro h' hh'
    unfold Size
    rw [hh', hlen₀]
  rcases Nat.eq_zero_or_pos rest.length with hzero | hpos
  · have hnil : h₁.heap = [] := List.length_eq_zero_iff.mp (hlen.trans hzero)
    have hsame : h.Pop = h₁ := by
      have hdown : SwapDown h₁ 0 = (h₁, 0) := by
        unfold SwapDown
        rw [hnil]
        rfl
      rw [hpop, hdown]
      unfold setIdxAt modifyAt
      rw [hnil]
      rfl
    rw [hsame]
    refine ⟨⟨?_, ?_⟩, hsizes hlen, hitem₁⟩
    · rw [hlen, hzero]
      exact hloc
    · intro j _ hj
      rw [hlen, hzero] at hj
      exact absurd hj (Nat.not_lt_zero j)
  · obtain ⟨first, hfirst⟩ : ∃ key, h₁.heap[0]? = some key :=
      ⟨_, List.getElem?_eq_getElem (hpos.trans_eq hlen.symm)⟩
    have hordered : Heap.Ordered h.places h₁.heap.length := by
      rw [hlen]
      exact h₀.ordered.take (by omega)
    have hloose : Heap.Loose h₁.places h₁.heap.length 0 :=
      hordered.loose (hpos.trans_eq hlen.symm) fun j hj hz => hplaces j (hj.trans_eq hlen) hz
    have habove : Heap.Above h₁.places 0 := fun hlt => absurd hlt (Nat.lt_irrefl 0)
    obtain ⟨hdown, habove', hbelow'⟩ := SwapDownLoop_spec (h₁.heap.length - 0) hloc hloose habove
      hfirst (by omega)
    have heq : h.Pop = { (SwapDown h₁ 0).1 with
        index := Table.modify (SwapDown h₁ 0).1.index first
          fun it => { it with idx := (SwapDown h₁ 0).2 } } := by
      rw [hpop]
      exact setIdxAt_of_place hdown.place
    obtain ⟨hok, hsame⟩ := Ok.settle hdown.located (hdown.loose.ordered hbelow' habove') hdown.place heq
    refine ⟨hok, hsizes ?_, hsame.trans (hdown.item.trans hitem₁)⟩
    rw [heq]
    exact hdown.size.trans hlen

end Operations

end EntryHeap

end ShieldReduce.Prototype
