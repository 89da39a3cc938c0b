import ShieldReduce.Prototype.EntryHeap
import ShieldReduce.Prototype.ProcessBatch

/-!
# What a batch does to the frequency filter

The update of the heap for one query, and the counts that the sketch keeps.
-/

namespace ShieldReduce.Prototype.EcallFreqIndex
open Lib Store

section Heap
variable {topThreshold : Nat} {heap : EntryHeap} {ins : Nat → InQueryEntry} {i : Nat}

/-- The query is the one of its batch that stands for its chunk. -/
def Stands (e : InQueryEntry) : Prop := e.dedupFlag = .UNIQUE ∨ e.dedupFlag = .DUPLICATE

theorem checkIfAddToHeap_iff (topThreshold : Nat) (heap : EntryHeap) (chunkFreq : UInt32) :
    CheckIfAddToHeap topThreshold heap chunkFreq = true ↔
      heap.Size < topThreshold ∨ heap.TopEntry ≤ chunkFreq := by
  unfold CheckIfAddToHeap
  rw [decide_eq_true_iff]

/-- The item of a query that is put into the heap. -/
structure Refreshed (topThreshold : Nat) (e : InQueryEntry) (heap heap' : EntryHeap)
    (a : RecipeEntry) : Prop where
  stands : Stands e
  ok : heap'.Ok
  fits : heap.Size < topThreshold ∨ heap.TopEntry ≤ e.chunkFreq
  item : heap'.item e.chunkHash = some (a, e.chunkFreq)

instance (e : InQueryEntry) : Decidable (Stands e) :=
  inferInstanceAs (Decidable (_ ∨ _))

/-- The query is put into the heap. -/
def Enters (topThreshold : Nat) (e : InQueryEntry) (heap : EntryHeap) : Prop :=
  Stands e ∧ CheckIfAddToHeap topThreshold heap e.chunkFreq = true

instance (topThreshold : Nat) (e : InQueryEntry) (heap : EntryHeap) :
    Decidable (Enters topThreshold e heap) :=
  inferInstanceAs (Decidable (_ ∧ _))

theorem heapStep_of_not_enters (h : ¬Enters topThreshold (ins i) heap) :
    heapStep topThreshold ins i heap = heap := by
  unfold heapStep
  dsimp only
  split
  case isTrue hset =>
    rw [if_neg fun hfits => h ⟨hset, hfits⟩]
  case isFalse => rfl

/-- A query that enters refreshes its item, or gets one, for which a full heap drops its top. -/
theorem heapStep_of_enters (h : heap.Ok) (henters : Enters topThreshold (ins i) heap) :
    ∃ a, Refreshed topThreshold (ins i) heap (heapStep topThreshold ins i heap) a ∧
      ((∃ f, heap.item (ins i).chunkHash = some (a, f) ∧
          (heapStep topThreshold ins i heap).Size = heap.Size ∧
          (heapStep topThreshold ins i heap).item =
            Function.update heap.item (ins i).chunkHash (some (a, (ins i).chunkFreq))) ∨
        (heap.item (ins i).chunkHash = none ∧ a = (ins i).chunkAddr ∧
          ((heap.Size ≠ topThreshold ∨ heap.Size = 0) ∧
              (heapStep topThreshold ins i heap).Size = heap.Size + 1 ∧
              (heapStep topThreshold ins i heap).item =
                Function.update heap.item (ins i).chunkHash (some (a, (ins i).chunkFreq)) ∨
            heap.Size = topThreshold ∧
              (heapStep topThreshold ins i heap).Size = heap.Size ∧
              ∃ top, heap.item top ≠ none ∧
                (heapStep topThreshold ins i heap).item =
                  Function.update (Function.update heap.item top none) (ins i).chunkHash
                    (some (a, (ins i).chunkFreq))))) := by
  obtain ⟨hset, hfits⟩ := henters
  have hfits' := (checkIfAddToHeap_iff _ _ _).mp hfits
  have hset' : (ins i).dedupFlag = .UNIQUE ∨ (ins i).dedupFlag = .DUPLICATE := hset
  unfold heapStep
  dsimp only
  rw [if_pos hset', if_pos hfits]
  by_cases hcontains : heap.Contains (ins i).chunkHash = true
  · rw [if_pos hcontains]
    obtain ⟨⟨a, f⟩, hitem⟩ := Option.ne_none_iff_exists'.mp (EntryHeap.contains_iff.mp hcontains)
    obtain ⟨hok, hsize, hupdate⟩ := h.update hitem (ins i).chunkFreq
    refine ⟨a, ⟨hset, hok, hfits', ?_⟩, Or.inl ⟨f, hitem, hsize, hupdate⟩⟩
    rw [hupdate, Function.update_self]
  · rw [if_neg hcontains]
    have hnone : heap.item (ins i).chunkHash = none := by
      by_contra hne
      exact hcontains (EntryHeap.contains_iff.mpr hne)
    refine ⟨(ins i).chunkAddr, ?_⟩
    unfold AddChunkToHeap
    dsimp only
    by_cases hfull : heap.Size = topThreshold
    · rw [if_pos hfull]
      by_cases hzero : heap.Size = 0
      · have hpop : heap.Pop = heap := by
          have hnil : heap.heap = [] := List.length_eq_zero_iff.mp hzero
          unfold EntryHeap.Pop
          rw [hnil]
        rw [hpop]
        obtain ⟨hok, hsize, hadd⟩ := h.add hnone ⟨(ins i).chunkAddr, (ins i).chunkFreq, 0⟩
        refine ⟨⟨hset, hok, hfits', ?_⟩, Or.inr ⟨hnone, rfl, Or.inl ⟨Or.inr hzero, hsize, hadd⟩⟩⟩
        rw [hadd, Function.update_self]
      · obtain ⟨top, a, htop, hok₁, hsize₁, hpop⟩ := h.pop hzero
        have hnone₁ : heap.Pop.item (ins i).chunkHash = none := by
          rw [hpop, Function.update_apply]
          split
          · rfl
          · exact hnone
        obtain ⟨hok, hsize, hadd⟩ := hok₁.add hnone₁ ⟨(ins i).chunkAddr, (ins i).chunkFreq, 0⟩
        refine ⟨⟨hset, hok, hfits', ?_⟩,
          Or.inr ⟨hnone, rfl, Or.inr ⟨hfull, hsize.trans hsize₁, top, ?_, ?_⟩⟩⟩
        · rw [hadd, Function.update_self]
        · rw [htop]
          exact Option.some_ne_none _
        · rw [hadd, hpop]
    · rw [if_neg hfull]
      obtain ⟨hok, hsize, hadd⟩ := h.add hnone ⟨(ins i).chunkAddr, (ins i).chunkFreq, 0⟩
      refine ⟨⟨hset, hok, hfits', ?_⟩, Or.inr ⟨hnone, rfl, Or.inl ⟨Or.inl hfull, hsize, hadd⟩⟩⟩
      rw [hadd, Function.update_self]

theorem heapStep_ok (h : heap.Ok) : (heapStep topThreshold ins i heap).Ok := by
  by_cases henters : Enters topThreshold (ins i) heap
  · obtain ⟨a, hrefreshed, _⟩ := heapStep_of_enters h henters
    exact hrefreshed.ok
  · rw [heapStep_of_not_enters henters]
    exact h

/-- What an item of the heap is after the step: what it was, or what the query made it. -/
theorem heapStep_item (h : heap.Ok) {key : Fp} {v : RecipeEntry × UInt32}
    (hitem : (heapStep topThreshold ins i heap).item key = some v) :
    heap.item key = some v ∨ key = (ins i).chunkHash ∧ Stands (ins i) ∧ v.2 = (ins i).chunkFreq := by
  by_cases henters : Enters topThreshold (ins i) heap
  case neg =>
    rw [heapStep_of_not_enters henters] at hitem
    exact Or.inl hitem
  obtain ⟨a, hrefreshed, hcase⟩ := heapStep_of_enters h henters
  by_cases hkey : key = (ins i).chunkHash
  · rw [hkey, hrefreshed.item, Option.some.injEq] at hitem
    exact Or.inr ⟨hkey, hrefreshed.stands, by rw [← hitem]⟩
  · left
    rcases hcase with ⟨f, _, _, hupdate⟩ | ⟨_, _, ⟨_, _, hupdate⟩ | ⟨_, _, top, _, hupdate⟩⟩
    · rw [hupdate, Function.update_of_ne hkey] at hitem
      exact hitem
    · rw [hupdate, Function.update_of_ne hkey] at hitem
      exact hitem
    · rw [hupdate, Function.update_of_ne hkey, Function.update_apply] at hitem
      split at hitem
      · simp at hitem
      · exact hitem

/-- The keys of the heap after a batch were there before or belong to chunks of the batch. -/
theorem heapLoop_keys (h : heap.Ok) (n : Nat) :
    (heapLoop topThreshold ins n heap).Ok ∧
      ∀ key, (heapLoop topThreshold ins n heap).item key ≠ none →
        heap.item key ≠ none ∨ ∃ i < n, key = (ins i).chunkHash ∧ Stands (ins i) := by
  apply @forLoop_spec EntryHeap (fun n heap' => heap'.Ok ∧ ∀ key, heap'.item key ≠ none →
    heap.item key ≠ none ∨ ∃ i < n, key = (ins i).chunkHash ∧ Stands (ins i))
  · exact ⟨h, fun key hkey => Or.inl hkey⟩
  · rintro j heap' hj ⟨hok, hkeys⟩
    refine ⟨heapStep_ok hok, ?_⟩
    intro key hkey
    obtain ⟨v, hv⟩ := Option.ne_none_iff_exists'.mp hkey
    rcases heapStep_item hok hv with hold | ⟨heq, hstands, _⟩
    · rcases hkeys key (by rw [hold]; exact Option.some_ne_none _) with hbefore | ⟨i, hi, hnew⟩
      · exact Or.inl hbefore
      · exact Or.inr ⟨i, Nat.lt_succ_of_lt hi, hnew⟩
    · exact Or.inr ⟨j, Nat.lt_succ_self j, heq, hstands⟩

end Heap

end ShieldReduce.Prototype.EcallFreqIndex
