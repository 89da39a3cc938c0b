import ShieldReduce.Lib.Runs
import ShieldReduce.Prototype.EntryHeap

/-!
# Runs of heap operations

The frequency index adds a chunk only when the heap does not hold it, updates it only when the heap
does, and pops a full heap. What any sequence of such operations leaves is a heap whose array and
map agree.
-/

namespace ShieldReduce.Prototype
open Lib Store

/-- The calls that change the heap. -/
inductive HeapOp where
  | add (key : Fp) (value : HeapItem)
  | update (key : Fp) (freq : UInt32)
  | pop

/-- An operation as the index issues it. -/
def heapOp (h : EntryHeap) : HeapOp → Option EntryHeap
  | .add key value => if h.Contains key then none else some (h.Add key value)
  | .update key freq => if h.Contains key then some (h.Update key freq) else none
  | .pop => if 2 ≤ h.Size then some h.Pop else none

/-- What `EcallEntryHeap` is to be after any operation. -/
structure Arranged (h : EntryHeap) : Prop where
  order : ∀ i j, j < h.Size → Heap.parent j = i → 0 < j → h.freqAt i ≤ h.freqAt j
  once : h.heap.Nodup
  perm : h.heap.Perm h.index.keys
  idx : ∀ {i : Nat} {key : Fp}, h.heap[i]? = some key →
    ∃ it, h.index.lookup key = some it ∧ it.idx = i
  least : ∀ {key : Fp} {it : HeapItem}, h.index.lookup key = some it → h.TopEntry ≤ it.chunkFreq
  top : h.Size ≠ 0 → ∃ key it, h.index.lookup key = some it ∧ it.chunkFreq = h.TopEntry

namespace EntryHeap
variable {h h' : EntryHeap} {key : Fp}

theorem Ok.nodup (h₀ : Ok h) : h.heap.Nodup := by
  apply List.nodup_iff_injective_getElem.mpr
  intro i j heq
  apply Fin.ext
  have hij : h.heap[i.val] = h.heap[j.val] := heq
  refine h₀.located.inj (List.getElem?_eq_getElem i.isLt) ?_
  rw [List.getElem?_eq_getElem j.isLt, hij]

theorem Ok.perm (h₀ : Ok h) : h.heap.Perm h.index.keys := by
  apply (List.perm_ext_iff_of_nodup h₀.nodup h.index.keys_nodup).mpr
  intro key
  rw [← AList.mem_keys, ← AList.lookup_isSome, Option.isSome_iff_ne_none, ← h₀.located.keys key]
  exact List.mem_iff_getElem?

theorem item_of_lookup {it : HeapItem} (hit : h.index.lookup key = some it) :
    h.item key = some (it.address, it.chunkFreq) := by
  unfold item
  rw [hit, Option.map_some]

theorem lookup_of_item {a : RecipeEntry} {f : UInt32} (hitem : h.item key = some (a, f)) :
    ∃ it, h.index.lookup key = some it ∧ it.address = a ∧ it.chunkFreq = f := by
  obtain ⟨it, hit, heq⟩ := Option.map_eq_some_iff.mp hitem
  exact ⟨it, hit, (Prod.ext_iff.mp heq).1, (Prod.ext_iff.mp heq).2⟩

theorem Ok.arranged (h₀ : Ok h) : Arranged h where
  order := by
    intro i j hj hparent hpos
    have hle := h₀.ordered j hpos hj
    rw [hparent] at hle
    exact UInt32.le_iff_toNat_le.mpr hle
  once := h₀.nodup
  perm := h₀.perm
  idx := by
    intro i key hkey
    obtain ⟨it, hit⟩ := h₀.located.item_isSome hkey
    exact ⟨it, hit, h₀.located.idx (List.getElem?_eq_some_iff.mp hkey).1.ne hkey hit⟩
  least := fun hit => h₀.top_le (item_of_lookup hit)
  top := by
    intro hsize
    obtain ⟨key, a, _, hitem⟩ := h₀.top hsize
    obtain ⟨it, hit, _, hfreq⟩ := lookup_of_item hitem
    exact ⟨key, it, hit, hfreq⟩

/-- Every operation keeps the heap. -/
theorem Ok.op {op : HeapOp} (h₀ : Ok h) (hop : heapOp h op = some h') : Ok h' := by
  cases op with
  | add key value =>
    obtain ⟨habsent, hop⟩ := Option.ite_none_left_eq_some.mp hop
    have hnone : h.item key = none := by
      by_contra hne
      exact habsent (contains_iff.mpr hne)
    rw [← Option.some.inj hop]
    exact (h₀.add hnone value).1
  | update key freq =>
    obtain ⟨hheld, hop⟩ := Option.ite_none_right_eq_some.mp hop
    obtain ⟨⟨a, f⟩, hitem⟩ := Option.ne_none_iff_exists'.mp (contains_iff.mp hheld)
    rw [← Option.some.inj hop]
    exact (h₀.update hitem freq).1
  | pop =>
    obtain ⟨hsize, hop⟩ := Option.ite_none_right_eq_some.mp hop
    obtain ⟨_, _, _, hok, _⟩ := h₀.pop (by omega)
    rw [← Option.some.inj hop]
    exact hok

theorem ok_of_runs {ops : List HeapOp} (hrun : runs Prototype.heapOp empty ops = some h) : Ok h :=
  runs_invariant Ok.op ok_empty hrun

/-- The chunk that `AddChunkToHeap` is for is absent; the full heap makes room for it first. -/
theorem addChunkToHeap_ops {topThreshold : Nat} (htop : 2 ≤ topThreshold)
    (hnone : h.Contains key = false) (h₀ : Ok h) (chunkFreq : UInt32) (chunkAddr : RecipeEntry) :
    runs Prototype.heapOp h
      ((if h.Size = topThreshold then [HeapOp.pop] else []) ++
        [HeapOp.add key ⟨chunkAddr, chunkFreq, 0⟩]) =
      some (AddChunkToHeap topThreshold chunkFreq chunkAddr key h) := by
  unfold AddChunkToHeap
  by_cases hfull : h.Size = topThreshold
  · rw [if_pos hfull, if_pos hfull]
    obtain ⟨top, a, _, _, _, hitem⟩ := h₀.pop (by omega)
    have habsent : h.item key = none := by
      by_contra hne
      rw [contains_iff.mpr hne] at hnone
      exact absurd hnone (by simp)
    have hpop : h.Pop.Contains key = false := by
      rw [← Bool.not_eq_true, contains_iff, hitem, Function.update_apply]
      split
      · simp
      · simpa using habsent
    simp [runs, Prototype.heapOp, hpop, hfull, htop]
  · rw [if_neg hfull, if_neg hfull]
    simp [runs, Prototype.heapOp, hnone]

end EntryHeap

section Operations

/-- Any sequence of operations leaves a min-heap on `chunkFreq` whose array and map hold the same
keys once each, every item knowing its place, and `Pop` drops an entry of the least frequency. -/
theorem heap_representation {h : EntryHeap} {ops : List HeapOp}
    (hrun : runs heapOp EntryHeap.empty ops = some h) :
    Arranged h ∧
      (2 ≤ h.Size → ∃ key it, h.index.lookup key = some it ∧ it.chunkFreq = h.TopEntry ∧
        (∀ key' it', h.index.lookup key' = some it' → it.chunkFreq ≤ it'.chunkFreq) ∧
        h.Pop.item = Function.update h.item key none) := by
  have h₀ := EntryHeap.ok_of_runs hrun
  refine ⟨h₀.arranged, fun hsize => ?_⟩
  obtain ⟨key, a, hitem, _, _, hpop⟩ := h₀.pop (by omega)
  obtain ⟨it, hit, _, hfreq⟩ := EntryHeap.lookup_of_item hitem
  refine ⟨key, it, hit, hfreq, ?_, hpop⟩
  intro key' it' hit'
  rw [hfreq]
  exact h₀.arranged.least hit'

/-- Three chunks, one of them raised past the others, and a pop. -/
def sampleOps : List HeapOp :=
  let item (freq : UInt32) : HeapItem := ⟨RecipeEntry.read [] 0, freq, 0⟩
  [.add (FixedBytes.fill 32 1) (item 5), .add (FixedBytes.fill 32 2) (item 3),
    .add (FixedBytes.fill 32 3) (item 4), .update (FixedBytes.fill 32 2) 9, .pop]

theorem heap_representation_sample :
    ∃ h, runs heapOp EntryHeap.empty sampleOps = some h ∧ h.Size = 2 ∧ h.TopEntry = 5 ∧
      Arranged h := by
  have hsizes : (runs heapOp EntryHeap.empty sampleOps).map
      (fun h => (h.Size, h.TopEntry)) = some (2, 5) := by
    decide +kernel
  obtain ⟨h, hrun, heq⟩ := Option.map_eq_some_iff.mp hsizes
  exact ⟨h, hrun, congrArg Prod.fst heq, congrArg Prod.snd heq, (heap_representation hrun).1⟩

end Operations

end ShieldReduce.Prototype
