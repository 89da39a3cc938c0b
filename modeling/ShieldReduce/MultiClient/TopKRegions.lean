import ShieldReduce.Lib.Runs
import ShieldReduce.Prototype.TopKFilter

/-!
# The frequency filter under two clients

Two clients share the sketch and the heap. A batch holds `sketchLck_` while it counts its chunks, and
`topKIndexLck_` while it checks them and again while it updates the heap; what it does in these
regions is what it does in the prototype.
-/

namespace ShieldReduce.MultiClient
open Lib Store Prototype Prototype.EcallFreqIndex

/-- The last region that the batch of a client has been through. -/
inductive Region
  | idle
  | sketched
  | checked
deriving DecidableEq

/-- `sketchedAt` says which of all sketch regions was that of the batch. -/
structure FilterClient where
  region : Region
  chunks : List Bytes
  inQueryBase : Nat → InQueryEntry
  outQueryBase : Nat → OutQueryEntry
  sketchedAt : Nat

/-- `cmSketch_` and `insideDedupIndex_` with their users. The history of them: how many sketch regions
there have been, and which of them was that of the batch that wrote the item of a fingerprint. -/
structure SharedFilter where
  sketch : EcallCMSketch
  heap : EntryHeap
  client : Bool → FilterClient
  sketchTimes : Nat
  writtenAt : Fp → Nat

inductive RegionAction
  | updateSketch (c : Bool) (chunks : List Bytes)
  | checkTopK (c : Bool)
  /-- The chunk loop in between has given the queries their addresses. -/
  | updateHeap (c : Bool) (chunkAddr : Nat → RecipeEntry)

def RegionAction.chunks : RegionAction → List Bytes
  | .updateSketch _ chunks => chunks
  | _ => []

section Steps
variable (env : EnclaveEnv) (topThreshold : Nat)

def SharedFilter.checkAt (s : SharedFilter) (c : Bool) (n : Nat) : Check :=
  checkLoop env s.heap (minFreq topThreshold s.heap) n
    ⟨(s.client c).inQueryBase, (s.client c).outQueryBase, ∅, 0⟩

/-- The queries of a batch when it comes to the heap. -/
def FilterClient.stored (client : FilterClient) (chunkAddr : Nat → RecipeEntry) :
    Nat → InQueryEntry :=
  fun i => { client.inQueryBase i with chunkAddr := chunkAddr i }

def writeStep (ins : Nat → InQueryEntry) (sketchedAt i : Nat) (st : EntryHeap × (Fp → Nat)) :
    EntryHeap × (Fp → Nat) :=
  (heapStep topThreshold ins i st.1,
    if Enters topThreshold (ins i) st.1 then Function.update st.2 (ins i).chunkHash sketchedAt
    else st.2)

def writeLoop (ins : Nat → InQueryEntry) (sketchedAt chunkNum : Nat) :
    EntryHeap × (Fp → Nat) → EntryHeap × (Fp → Nat) :=
  forLoop chunkNum (writeStep topThreshold ins sketchedAt)

def regionStep (s : SharedFilter) : RegionAction → Option SharedFilter
  | .updateSketch c chunks =>
    let client := s.client c
    if client.region = .idle then
      let st := sketchLoop chunks.length (s.sketch, hashChunks env chunks client.inQueryBase)
      some
        { s with
          sketch := st.1
          sketchTimes := s.sketchTimes + 1
          client := Function.update s.client c
            { client with
              region := .sketched
              chunks := chunks
              inQueryBase := st.2
              sketchedAt := s.sketchTimes + 1 } }
    else none
  | .checkTopK c =>
    let client := s.client c
    if client.region = .sketched then
      let st := s.checkAt env topThreshold c client.chunks.length
      some
        { s with
          client := Function.update s.client c
            { client with
              region := .checked
              inQueryBase := st.ins
              outQueryBase := st.outs } }
    else none
  | .updateHeap c chunkAddr =>
    let client := s.client c
    if client.region = .checked then
      let st := writeLoop topThreshold (client.stored chunkAddr) client.sketchedAt
        client.chunks.length (s.heap, s.writtenAt)
      some
        { s with
          heap := st.1
          writtenAt := st.2
          client := Function.update s.client c { client with region := .idle } }
    else none

/-- The items that the heap holds for the chunks of a batch are older than its frequencies. -/
def Current (s : SharedFilter) (c : Bool) : Prop :=
  ∀ i < (s.client c).chunks.length,
    s.heap.Contains ((s.client c).inQueryBase i).chunkHash = true →
    s.writtenAt ((s.client c).inQueryBase i).chunkHash < (s.client c).sketchedAt

def InOrder (s : SharedFilter) : RegionAction → Prop
  | .updateSketch _ _ => True
  | .checkTopK c => Current s c
  | .updateHeap c _ => Current s c

/-- What the filter relies on: a chunk that is skipped is not in the heap, and no frequency in the
heap gets smaller. -/
def RegionSound (s : SharedFilter) : RegionAction → Prop
  | .updateSketch _ _ => True
  | .checkTopK c =>
    ∀ i < (s.client c).chunks.length,
      let st := s.checkAt env topThreshold c i
      st.localIndex.lookup (st.ins i).chunkHash = none →
      (st.ins i).chunkFreq < minFreq topThreshold s.heap →
      s.heap.Contains (st.ins i).chunkHash = false
  | .updateHeap c chunkAddr =>
    let ins := (s.client c).stored chunkAddr
    ∀ i < (s.client c).chunks.length, ∀ key a f a' f',
      (heapLoop topThreshold ins i s.heap).item key = some (a, f) →
      (heapLoop topThreshold ins (i + 1) s.heap).item key = some (a', f') → f ≤ f'

instance (s : SharedFilter) (c : Bool) : Decidable (Current s c) :=
  inferInstanceAs (Decidable (∀ i < _, _ → _))

instance (s : SharedFilter) (a : RegionAction) : Decidable (InOrder s a) :=
  match a with
  | .updateSketch _ _ => isTrue trivial
  | .checkTopK c => inferInstanceAs (Decidable (Current s c))
  | .updateHeap c _ => inferInstanceAs (Decidable (Current s c))

end Steps

/-- Nothing has been uploaded. -/
def SharedFilter.start (inQueryBase : Bool → Nat → InQueryEntry)
    (outQueryBase : Bool → Nat → OutQueryEntry) : SharedFilter where
  sketch := .empty
  heap := .empty
  client c := ⟨.idle, [], inQueryBase c, outQueryBase c, 0⟩
  sketchTimes := 0
  writtenAt _ := 0

end ShieldReduce.MultiClient
