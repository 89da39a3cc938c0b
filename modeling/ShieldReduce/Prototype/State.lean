import ShieldReduce.Lib.Table
import ShieldReduce.Store.Chunk
import ShieldReduce.Store.Container

/-!
# The state of the server

One server lifetime of one client: the indexes and pending maps of `InMemoryDatabase`, the
container files, the enclave's cache and write buffers, the queue to the writer thread, and where
the upload or the offline pass stands.
-/

namespace ShieldReduce.Prototype
open Lib Store EDelta

/-- The directory, `true` for `Delta-Containers/`, and the name of a container file. -/
abbrev Path : Type := Bool × ContainerName

/-- `Container_t` -/
structure Container where
  containerID : ContainerName
  deltaFlag : Bool
  body : Bytes
deriving DecidableEq

def Container.path (c : Container) : Path := (c.deltaFlag, c.containerID)

/-- The first `curSize` bytes of an in-enclave buffer, and the out-enclave container it is copied
to: its name and the first `currentSize` bytes of its body. -/
structure OpenContainer where
  containerID : ContainerName
  buf : Bytes
  body : Bytes
deriving DecidableEq

inductive DedupFlag
  | UNIQUE
  | DUPLICATE
deriving DecidableEq

/-- `InQueryEntry_t` and `OutQueryEntry_t` of a chunk that the enclave's own indexes do not hold.
`basechunkHash` is the field of the out-enclave `chunkAddr`, `chunkAddr` the in-enclave one. -/
structure QueryEntry where
  inHash : Fp
  chunkHash : Fp
  chunk : Bytes
  dedupFlag : DedupFlag
  superfeature : SuperFeature
  deltaFlag : UInt8
  offlineFlag : Bool
  basechunkHash : Fp
  basechunkAddr : RecipeEntry
  containerbuffer : Bytes
  chunkAddr : RecipeEntry
deriving DecidableEq

/-- `ProcessOneBatch` between its queries and its updates. -/
structure Batch where
  Local_Flag : Bool
  todo : List QueryEntry
  done : List QueryEntry
  process_buffer : List (Fp × Fp)
  batch_basemap : List (Fp × Fp)
deriving DecidableEq

/-- `ready` waits for a message, `chunkLoop` is before `OfflinedeltaTure`, `loaded` after it,
`answered` is before `Ocall_UpdateOutIndex`, `tailed` after `ProcessTailBatch`. -/
inductive UploadStage
  | ready
  | chunkLoop (b : Batch)
  | loaded (x : QueryEntry) (b : Batch)
  | answered (b : Batch)
  | tailed
deriving DecidableEq

inductive OfflineStage
  | update
  | cold (cold_container_vector : List ContainerName)
  | merge (baseMergePair : List (ContainerName × ContainerName))
deriving DecidableEq

/-- `draining`: `DataReceiver::Run` has returned, the writer thread has not been joined. -/
inductive Phase
  | idle
  | uploading (stage : UploadStage)
  | draining
  | offline (stage : OfflineStage)
deriving DecidableEq

structure Server where
  Forward_Flag : Bool
  Offline_Flag : Bool
  indexObj : Table Fp RecipeEntry
  sfObj : Fin 3 → Table Fp (List Fp)
  delta_index : Table Fp (List Fp)
  local_tmp_map : Table Fp Fp
  skipMap : Table Fp (List Fp)
  local_map : List (Fp × Fp)
  cold_map : Table ContainerName (List (UInt32 × UInt32))
  files : Table Path Bytes
  tmpOcallcontainer : Bytes
  con_times : Nat
  inputMQ : List Container
  /-- The container in `SaveToFile` and how much of it has been written. -/
  writer : Option (Container × Nat)
  /-- The cached containers, the most recently used first. -/
  inCache : List (ContainerName × Bytes)
  iv : IV
  onlineBackupSize : UInt64
  /-- `_inContainer` with `curContainer` at `false`, `_deltainContainer` with `curDeltaContainer`
  at `true`. -/
  opened : Bool → OpenContainer
  hot_container : OpenContainer
  local_basemap : Table Fp Fp
  offlineCurrBackup_size : UInt64
  phase : Phase

def ALPHABET (i : Nat) : UInt8 := if i < 10 then UInt8.ofNat (48 + i) else UInt8.ofNat (87 + i)

/-- Seven digits of `times` to the base 36. -/
def CreateUUID (times : Nat) : ContainerName :=
  ⟨(List.range 7).map fun i => ALPHABET (times / 36 ^ (6 - i) % 36), by simp⟩

def emptyContainer : OpenContainer := ⟨FixedBytes.fill 7 0, [], []⟩

/-- The server after start-up. -/
def Server.start (Forward_Flag Offline_Flag : Bool) : Server where
  Forward_Flag := Forward_Flag
  Offline_Flag := Offline_Flag
  indexObj := ∅
  sfObj _ := ∅
  delta_index := ∅
  local_tmp_map := ∅
  skipMap := ∅
  local_map := []
  cold_map := ∅
  files := ∅
  tmpOcallcontainer := []
  con_times := 1
  inputMQ := []
  writer := none
  inCache := []
  iv := FixedBytes.fill 16 0
  onlineBackupSize := 0
  opened _ := emptyContainer
  hot_container := emptyContainer
  local_basemap := ∅
  offlineCurrBackup_size := 0
  phase := .idle

/-- The `i`-th of the three keys of a super-feature. -/
def sfKey (sf : SuperFeature) (i : Fin 3) : Fp := FixedBytes.read 32 sf.val (32 * i.val)

section Database
variable (s : Server)

/-- `updateflag` 0. -/
def InsertSF (superfeature : SuperFeature) (chunkHash : Fp) : Server :=
  { s with sfObj := fun i => Table.push (s.sfObj i) (sfKey superfeature i) chunkHash }

/-- `updateflag` 1. -/
def ReplaceSF (superfeature : SuperFeature) (chunkHash : Fp) : Server :=
  { s with sfObj := fun i =>
      Table.push ((s.sfObj i).erase (sfKey superfeature i)) (sfKey superfeature i) chunkHash }

/-- `updateflag` 2. -/
def EraseSF (superfeature : SuperFeature) : Server :=
  { s with sfObj := fun i => (s.sfObj i).erase (sfKey superfeature i) }

/-- The first fingerprint under the first of the three keys that is there. -/
def QuerySF (superfeature : SuperFeature) : Option Fp :=
  ([0, 1, 2].findSome? fun i => (s.sfObj i).lookup (sfKey superfeature i)).bind List.head?

def InsertDeltaIndex (baseChunkFp deltaChunkFp : Fp) : Server :=
  { s with delta_index := Table.push s.delta_index baseChunkFp deltaChunkFp }

/-- The vector at `baseChunkFp`, which leaves the index. -/
def QueryDeltaIndex (baseChunkFp : Fp) : List Fp × Server :=
  (Table.vec s.delta_index baseChunkFp,
    { s with delta_index := s.delta_index.erase baseChunkFp })

def Ocall_UpdateDeltaIndex (pairs : List (Fp × Fp)) : Server :=
  pairs.foldl (fun s p => InsertDeltaIndex s p.1 p.2) s

def UpdateIndexStore (chunkHash : Fp) (chunkAddr : RecipeEntry) : Server :=
  { s with indexObj := s.indexObj.insert chunkHash chunkAddr }

/-- Reading a whole file over what `tmpOcallcontainer` held. -/
def readContainer (body : Bytes) : Server :=
  { s with tmpOcallcontainer := memcpy s.tmpOcallcontainer 0 body }

end Database

end ShieldReduce.Prototype
