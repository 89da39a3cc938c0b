import ShieldReduce.Prototype.EntryHeap
import ShieldReduce.Prototype.ProcessBatch

/-!
# The sealed index

The enclave seals the sketch and the heap when its index goes away, and fills the next one with
them.
-/

namespace ShieldReduce.Prototype
open Lib Store

namespace EntryHeap

/-- Two heaps with the same keys in the same places and the same items. -/
structure Alike (h h' : EntryHeap) : Prop where
  heap : h'.heap = h.heap
  index : ∀ key, h'.index.lookup key = h.index.lookup key

variable {h h' : EntryHeap}

theorem Alike.item (ha : Alike h h') : h'.item = h.item := by
  funext key
  unfold EntryHeap.item
  rw [ha.index]

theorem Alike.freqAt (ha : Alike h h') (i : Nat) : h'.freqAt i = h.freqAt i :=
  places_congr ha.item (by rw [ha.heap])

theorem Alike.size (ha : Alike h h') : h'.Size = h.Size := congrArg List.length ha.heap

theorem Alike.ok (ha : Alike h h') (hok : h.Ok) : h'.Ok := by
  have hplaces : h'.places = h.places := by
    funext i
    unfold places
    rw [ha.freqAt]
  refine ⟨⟨?_, ?_, ?_⟩, ?_⟩
  · rw [ha.heap]
    exact hok.located.inj
  · intro key
    rw [ha.heap, ha.index]
    exact hok.located.keys key
  · intro i key it hi hk hit
    rw [ha.heap] at hi hk
    rw [ha.index] at hit
    exact hok.located.idx hi hk hit
  · rw [hplaces, ha.heap]
    exact hok.ordered

end EntryHeap

namespace EcallFreqIndex

/-- `SEALED_SKETCH` and `SEALED_FREQ_INDEX` -/
structure SealedIndex where
  sketch : List (List UInt32)
  heap : List (Fp × HeapItem)

/-- `TotalCount` is not sealed. -/
def PersistDedupIndex (f : Filter) : SealedIndex where
  sketch := (List.range sketchDepth).map fun i =>
    (List.range sketchWidth).map (f.sketch.counterArray i)
  heap := f.heap.heap.filterMap fun key =>
    (f.heap.index.lookup key).map fun item => (key, item)

def loadItem (h : EntryHeap) (p : Fp × HeapItem) : EntryHeap :=
  ⟨h.heap ++ [p.1], Table.insertNew h.index p.1 p.2⟩

def LoadDedupIndex (files : SealedIndex) (f : Filter) : Filter where
  sketch :=
    { f.sketch with
      counterArray := fun i p =>
        ((files.sketch[i]?).bind fun row => row[p]?).getD (f.sketch.counterArray i p) }
  heap := files.heap.foldl loadItem f.heap

variable {f f₀ : Filter}

theorem load_counter {i p : Nat} (hi : i < sketchDepth) (hp : p < sketchWidth) :
    (LoadDedupIndex (PersistDedupIndex f) f₀).sketch.counterArray i p = f.sketch.counterArray i p := by
  unfold LoadDedupIndex PersistDedupIndex
  dsimp only
  rw [List.getElem?_map, List.getElem?_range hi, Option.map_some, Option.bind_some,
    List.getElem?_map, List.getElem?_range hp, Option.map_some, Option.getD_some]

theorem foldl_loadItem (items : List (Fp × HeapItem)) (h : EntryHeap) :
    items.foldl loadItem h =
      ⟨h.heap ++ items.map Prod.fst,
        items.foldl (fun t p => Table.insertNew t p.1 p.2) h.index⟩ := by
  induction items generalizing h with
  | nil => rw [List.foldl_nil, List.map_nil, List.append_nil, List.foldl_nil]
  | cons p items ih =>
    rw [List.foldl_cons, ih, List.map_cons, List.foldl_cons]
    unfold loadItem
    rw [List.append_assoc, List.singleton_append]

/-- What is sealed for a heap whose keys all have items. -/
theorem sealed_keys {index : Table Fp HeapItem} {keys : List Fp}
    (h : ∀ key ∈ keys, index.lookup key ≠ none) :
    (keys.filterMap fun key => (index.lookup key).map fun item => (key, item)).map Prod.fst =
      keys := by
  induction keys with
  | nil => rfl
  | cons key keys ih =>
    obtain ⟨item, hitem⟩ := Option.ne_none_iff_exists'.mp (h key List.mem_cons_self)
    have hsome : ((index.lookup key).map fun item => (key, item)) = some (key, item) := by
      rw [hitem, Option.map_some]
    rw [List.filterMap_cons, hsome]
    dsimp only
    rw [List.map_cons, ih fun key' hkey => h key' (List.mem_cons_of_mem key hkey)]

/-- The heap comes back. -/
theorem load_heap (hok : f.heap.Ok) (hempty : f₀.heap = .empty) :
    EntryHeap.Alike f.heap (LoadDedupIndex (PersistDedupIndex f) f₀).heap := by
  have hkeys : ∀ key ∈ f.heap.heap, f.heap.index.lookup key ≠ none := by
    intro key hkey
    obtain ⟨i, hi⟩ := List.mem_iff_getElem?.mp hkey
    exact (hok.located.keys key).mp ⟨i, hi⟩
  have hfst : (PersistDedupIndex f).heap.map Prod.fst = f.heap.heap := sealed_keys hkeys
  have hload : (LoadDedupIndex (PersistDedupIndex f) f₀).heap =
      ⟨(PersistDedupIndex f).heap.map Prod.fst,
        (PersistDedupIndex f).heap.foldl (fun t p => Table.insertNew t p.1 p.2) ∅⟩ := by
    unfold LoadDedupIndex
    dsimp only
    rw [hempty, foldl_loadItem]
    rfl
  refine ⟨?_, ?_⟩
  · rw [hload]
    exact hfst
  · intro key
    have hnodup : ((PersistDedupIndex f).heap.map Prod.fst).Nodup := by
      rw [hfst]
      apply List.nodup_iff_injective_get.mpr
      intro i j hij
      apply Fin.ext
      apply hok.located.inj (List.getElem?_eq_getElem i.isLt)
      rw [List.getElem?_eq_getElem j.isLt]
      exact congrArg some hij.symm
    apply Option.ext
    intro item
    rw [hload, Table.lookup_foldl_insertNew hnodup (fun _ _ => AList.lookup_empty _)]
    rw [AList.lookup_empty]
    constructor
    · rintro (hnone | hmem)
      · simp at hnone
      · obtain ⟨key', _, hsome⟩ := List.mem_filterMap.mp hmem
        obtain ⟨item', hitem, heq⟩ := Option.map_eq_some_iff.mp hsome
        rw [Prod.mk.injEq] at heq
        rw [← heq.1, ← heq.2]
        exact hitem
    · intro hitem
      right
      apply List.mem_filterMap.mpr
      have hne : f.heap.index.lookup key ≠ none := by
        rw [hitem]
        exact Option.some_ne_none _
      obtain ⟨i, hi⟩ := (hok.located.keys key).mpr hne
      refine ⟨key, List.mem_of_getElem? hi, ?_⟩
      rw [hitem, Option.map_some]

end EcallFreqIndex

end ShieldReduce.Prototype
