import ShieldReduce.Lib.Heap
import ShieldReduce.Lib.Table
import ShieldReduce.Store.Format

/-!
# The frequency filter

The count-min sketch and the heap of the most frequent chunks, with which the enclave answers for a
chunk before it asks the index outside.
-/

namespace ShieldReduce.Prototype
open Lib Store

section Sketch

def sketchWidth : Nat := 256 * 1024

def sketchDepth : Nat := 4

/-- `EcallCMSketch` -/
structure EcallCMSketch where
  counterArray : Nat → Nat → UInt32
  total : Nat

def EcallCMSketch.empty : EcallCMSketch := ⟨fun _ _ => 0, 0⟩

/-- The counter of a chunk in row `i`. -/
def sketchPos (chunkHash : Fp) (i : Nat) : Nat :=
  (read32 chunkHash.val (4 * i)).toNat % sketchWidth

def EcallCMSketch.Estimate (sk : EcallCMSketch) (chunkHash : Fp) : UInt32 :=
  (List.range sketchDepth).foldl (fun minVal i => min minVal (sk.counterArray i (sketchPos chunkHash i)))
    4294967295

def EcallCMSketch.Update (sk : EcallCMSketch) (chunkHash : Fp) (count : UInt32) : EcallCMSketch where
  counterArray i :=
    if i < sketchDepth then
      Function.update (sk.counterArray i) (sketchPos chunkHash i)
        (sk.counterArray i (sketchPos chunkHash i) + count)
    else sk.counterArray i
  total := sk.total + count.toNat

end Sketch

section Heap

/-- `HeapItem_t`. The heap of an enclave is far too small for `idx` to wrap. -/
structure HeapItem where
  address : RecipeEntry
  chunkFreq : UInt32
  idx : Nat

/-- `EcallEntryHeap`; an iterator in `_heap` is the key that it points to. -/
structure EntryHeap where
  heap : List Fp
  index : Table Fp HeapItem

namespace EntryHeap

def empty : EntryHeap := ⟨[], ∅⟩

def CompFreq (freq1 freq2 : UInt32) : Bool := freq1 < freq2

/-- `_heap[i]->second.chunkFreq` -/
def freqAt (h : EntryHeap) (i : Nat) : UInt32 :=
  ((h.heap[i]?).bind fun key => h.index.lookup key).elim 0 HeapItem.chunkFreq

/-- Writing through `_heap[i]->second`. -/
def modifyAt (h : EntryHeap) (i : Nat) (f : HeapItem → HeapItem) : EntryHeap :=
  match h.heap[i]? with
  | some key => { h with index := Table.modify h.index key f }
  | none => h

def setIdxAt (h : EntryHeap) (i : Nat) : EntryHeap := h.modifyAt i fun item => { item with idx := i }

/-- `_heap[i]` and `_heap[j]` change places, and `_heap[i]` is told. -/
def exchange (h : EntryHeap) (i j : Nat) : EntryHeap :=
  { h with heap := Heap.swapAt h.heap i j }.setIdxAt i

/-- `idx` gets smaller with every pass. -/
def SwapUpLoop : Nat → EntryHeap → Nat → EntryHeap × Nat
  | 0, h, idx => (h, idx)
  | fuel + 1, h, idx =>
    if 0 < idx ∧ CompFreq (h.freqAt idx) (h.freqAt (Heap.parent idx)) then
      SwapUpLoop fuel (h.exchange idx (Heap.parent idx)) (Heap.parent idx)
    else (h, idx)

def SwapUp (h : EntryHeap) (idx : Nat) : EntryHeap × Nat := SwapUpLoop idx h idx

/-- The child of `idx` that comes first. -/
def firstChild (h : EntryHeap) (idx : Nat) : Nat :=
  let child := Heap.child idx
  if child + 1 < h.heap.length ∧ CompFreq (h.freqAt (child + 1)) (h.freqAt child) then child + 1
  else child

/-- `idx` gets larger with every pass and stays below the size. -/
def SwapDownLoop : Nat → EntryHeap → Nat → EntryHeap × Nat
  | 0, h, idx => (h, idx)
  | fuel + 1, h, idx =>
    if Heap.child idx < h.heap.length then
      let child := h.firstChild idx
      if CompFreq (h.freqAt child) (h.freqAt idx) then
        SwapDownLoop fuel (h.exchange idx child) child
      else (h, idx)
    else (h, idx)

def SwapDown (h : EntryHeap) (idx : Nat) : EntryHeap × Nat :=
  SwapDownLoop (h.heap.length - idx) h idx

/-- Reading an empty heap is not defined. -/
def TopEntry (h : EntryHeap) : UInt32 := h.freqAt 0

def Size (h : EntryHeap) : Nat := h.heap.length

/-- The last element goes to the first place. -/
def Pop (h : EntryHeap) : EntryHeap :=
  match h.heap with
  | [] => h
  | t :: rest =>
    let (h, idx) := SwapDown ⟨((t :: rest).set 0 (rest.getLastD t)).dropLast, h.index.erase t⟩ 0
    h.setIdxAt idx

def Add (h : EntryHeap) (key : Fp) (value : HeapItem) : EntryHeap :=
  let (h, idx) := SwapUp ⟨h.heap ++ [key], Table.insertNew h.index key value⟩ h.heap.length
  { h with index := Table.modify h.index key fun item => { item with idx := idx } }

def Update (h : EntryHeap) (key : Fp) (freq : UInt32) : EntryHeap :=
  match h.index.lookup key with
  | none => h
  | some item =>
    let (h, idx) := SwapUp (h.modifyAt item.idx fun item => { item with chunkFreq := freq }) item.idx
    let (h, idx) := SwapDown h idx
    { h with index := Table.modify h.index key fun item => { item with idx := idx } }

def Contains (h : EntryHeap) (key : Fp) : Bool := (h.index.lookup key).isSome

def GetPriority (h : EntryHeap) (key : Fp) : Option HeapItem := h.index.lookup key

end EntryHeap

def CheckIfAddToHeap (topThreshold : Nat) (h : EntryHeap) (chunkFreq : UInt32) : Bool :=
  h.Size < topThreshold ∨ h.TopEntry ≤ chunkFreq

/-- The `idx` of the new item is not set. -/
def AddChunkToHeap (topThreshold : Nat) (chunkFreq : UInt32) (chunkAddr : RecipeEntry) (chunkFp : Fp)
    (h : EntryHeap) : EntryHeap :=
  let h := if h.Size = topThreshold then h.Pop else h
  h.Add chunkFp ⟨chunkAddr, chunkFreq, 0⟩

end Heap

end ShieldReduce.Prototype
