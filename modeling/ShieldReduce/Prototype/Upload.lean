import ShieldReduce.Prototype.State

/-!
# The upload path

`EcallFreqIndex::ProcessOneBatch` and what it calls, `ProcessTailBatch`, `Ocall_UpdateOutIndex`,
and the start and the end of `DataReceiver::Run`.
-/

namespace ShieldReduce.Prototype
open Lib Store EDelta

section Save

/-- `Ocall_WriteContainer` at `false`, `Ocall_WriteDeltaContainer` at `true`. -/
def writeContainer (d : Bool) (s : Server) : Server :=
  let c := s.opened d
  { s with
    inputMQ := s.inputMQ ++ [⟨c.containerID, d, c.body⟩]
    opened := Function.update s.opened d ⟨CreateUUID s.con_times, c.buf, []⟩
    con_times := s.con_times + 1 }

def Ocall_WriteContainer : Server → Server := writeContainer false

def Ocall_WriteDeltaContainer : Server → Server := writeContainer true

/-- Whether a record with this content still goes into a buffer of `curSize` bytes. -/
def recordFits (content : Bytes) (curSize : Nat) : Prop :=
  CRYPTO_BLOCK_SIZE + content.length + curSize + 4 * CHUNK_HASH_SIZE + RECIPE_ENTRY_SIZE <
    MAX_CONTAINER_SIZE

instance (content : Bytes) (curSize : Nat) : Decidable (recordFits content curSize) :=
  inferInstanceAs (Decidable (_ < _))

/-- What `SavebaseChunk` and `SavedeltaChunk` share once `chunkAddr` has its length. -/
def saveChunk (d : Bool) (chunkData : Bytes) (chunkAddr : RecipeEntry) (chunksf : SuperFeature)
    (chunkfp : Fp) (s : Server) : Server × RecipeEntry :=
  let s :=
    if recordFits chunkData (s.opened d).buf.length then s
    else
      let c := s.opened d
      writeContainer d { s with opened := Function.update s.opened d ⟨c.containerID, [], c.buf⟩ }
  let c := s.opened d
  let chunkAddr := { chunkAddr with
    offset := UInt32.ofNat c.buf.length, containerName := c.containerID }
  let r : ChunkRecord := ⟨chunkAddr, chunkfp, chunksf, chunkData, s.iv⟩
  ({ s with opened := Function.update s.opened d { c with buf := c.buf ++ r.toBytes } }, chunkAddr)

def SavebaseChunk (chunkData : Bytes) (chunkAddr : RecipeEntry) (chunksf : SuperFeature)
    (chunkfp : Fp) (s : Server) : Server × RecipeEntry :=
  saveChunk false chunkData
    { chunkAddr with length := UInt32.ofNat chunkData.length, superfeature := chunksf }
    chunksf chunkfp s

def SavedeltaChunk (chunkData : Bytes) (chunkAddr : RecipeEntry) (chunksf : SuperFeature)
    (chunkfp : Fp) (s : Server) : Server × RecipeEntry :=
  saveChunk true chunkData { chunkAddr with length := UInt32.ofNat chunkData.length }
    chunksf chunkfp s

end Save

section Chunk
variable (env : EnclaveEnv)

def ProcessSheUniqueChunk (chunkAddr : RecipeEntry) (chunkBuffer : Bytes) (chunksf : SuperFeature)
    (chunkfp : Fp) (s : Server) : Server × RecipeEntry :=
  let currentIV := PickNewIV s.iv
  let content := uniqueContent env chunkAddr.deltaFlag chunkBuffer
  let tmpCipherChunk := env.EncryptWithKeyIV currentIV content
  let s := { s with
    iv := currentIV, onlineBackupSize := s.onlineBackupSize + UInt64.ofNat content.length }
  if chunkAddr.deltaFlag = NO_DELTA then SavebaseChunk tmpCipherChunk chunkAddr chunksf chunkfp s
  else SavedeltaChunk tmpCipherChunk chunkAddr chunksf chunkfp s

/-- The cache hands out `get`'s entry and moves it to the front. -/
def ReadFromCache (name : ContainerName) (s : Server) : Option (Bytes × Server) :=
  match s.inCache.find? (fun c => c.1 = name) with
  | none => none
  | some c => some (c.2, { s with inCache := c :: s.inCache.filter (fun c => c.1 ≠ name) })

def Cachesize : Nat := 10

/-- A full cache gives the slot of its last container to the new one. -/
def InsertToCache_Offline (name : ContainerName) (data : Bytes) (s : Server) : Server :=
  { s with inCache := (name, data) :: s.inCache.take (Cachesize - 1) }

/-- `none`: the file is not there. -/
def Ocall_getRefContainer (containerName : ContainerName) (s : Server) : Option Server :=
  (s.files.lookup (false, containerName)).map (readContainer s)

/-- Fingerprints of this shape are never deltas. -/
def neverDelta (chunkHash : Fp) : Bool := chunkHash.val.take 3 == [161, 77, 140]

/-- The pair it returns goes to `batch_basemap`. -/
def OfflinedeltaTure (Local_Flag : Bool) (x : QueryEntry) (s : Server) :
    QueryEntry × Option (Fp × Fp) × Server :=
  if neverDelta x.inHash then ({ x with deltaFlag := NO_DELTA }, none, s)
  else if x.deltaFlag = OUT_DELTA then
    if Local_Flag then
      ({ x with deltaFlag := NO_DELTA, offlineFlag := true },
        some (x.basechunkHash, x.chunkHash), s)
    else
      match ReadFromCache x.basechunkAddr.containerName s with
      | some (containerbuffer, s) =>
        ({ x with
            containerbuffer := containerbuffer
            chunkAddr := { x.chunkAddr with basechunkHash := x.basechunkHash }
            deltaFlag := DELTA }, none, s)
      | none =>
        match Ocall_getRefContainer x.basechunkAddr.containerName s with
        | none => ({ x with deltaFlag := NO_DELTA }, none, s)
        | some s =>
          ({ x with
              containerbuffer := s.tmpOcallcontainer
              chunkAddr := { x.chunkAddr with basechunkHash := x.basechunkHash }
              deltaFlag := DELTA }, none,
            InsertToCache_Offline x.basechunkAddr.containerName s.tmpOcallcontainer s)
  else (x, none, s)

/-- The base that `ProcessDeltachunk` encodes against. -/
def refChunk (x : QueryEntry) : Bytes :=
  RecoverOneChunk env (getChunkIV x.containerbuffer x.basechunkAddr)
    (getChunkContent x.containerbuffer x.basechunkAddr)

/-- Returns the delta; the entry stays a delta when that is shorter than the chunk. -/
def ProcessDeltachunk (x : QueryEntry) : QueryEntry × Bytes :=
  let deltachunk := EDeltaEncode env.edelta x.chunk (refChunk env x)
  let deltaFlag := if x.chunk.length ≤ deltachunk.length then NO_DELTA else x.deltaFlag
  ({ x with deltaFlag := deltaFlag, chunkAddr := { x.chunkAddr with deltaFlag := deltaFlag } },
    deltachunk)

/-- The body of the chunk loop after `OfflinedeltaTure`; the pair goes to `process_buffer`. -/
def storeChunk (x : QueryEntry) (s : Server) : QueryEntry × Option (Fp × Fp) × Server :=
  let (x, deltachunk) := if x.deltaFlag = DELTA then ProcessDeltachunk env x else (x, [])
  if x.chunkAddr.deltaFlag = DELTA then
    let (s, chunkAddr) :=
      ProcessSheUniqueChunk env x.chunkAddr deltachunk x.superfeature x.chunkHash s
    ({ x with deltaFlag := DELTA, chunkAddr := chunkAddr }, some (x.basechunkHash, x.chunkHash), s)
  else
    let (s, chunkAddr) :=
      ProcessSheUniqueChunk env x.chunkAddr x.chunk x.superfeature x.chunkHash s
    ({ x with deltaFlag := NO_DELTA, chunkAddr := chunkAddr }, none, s)

end Chunk

section Batch
variable (env : EnclaveEnv)

/-- The out-enclave queries of a batch: the chunks whose hash neither an earlier chunk of the batch
nor the heap has. `left` is what earlier batches left in the in-enclave `chunkAddr`s. -/
def outQueries (heap : Fp → Bool) (left : Nat → RecipeEntry) :
    Nat → List Fp → List Bytes → List QueryEntry
  | _, _, [] => []
  | i, localIndex, chunk :: chunks =>
    let inHash := env.GenerateHash chunk
    if inHash ∈ localIndex then outQueries heap left (i + 1) localIndex chunks
    else if heap inHash then outQueries heap left (i + 1) (inHash :: localIndex) chunks
    else
      { inHash := inHash
        chunkHash := env.IndexAESCMCEnc inHash
        chunk := chunk
        dedupFlag := .UNIQUE
        superfeature := env.getSF2 chunk
        deltaFlag := NO_DELTA
        offlineFlag := false
        basechunkHash := (left i).basechunkHash
        basechunkAddr := left i
        containerbuffer := []
        chunkAddr := { left i with deltaFlag := NO_DELTA } } ::
      outQueries heap left (i + 1) (inHash :: localIndex) chunks

def Ocall_QueryOutIndex (s : Server) (x : QueryEntry) : QueryEntry :=
  match s.indexObj.lookup x.chunkHash with
  | some chunkAddr => { x with dedupFlag := .DUPLICATE, chunkAddr := chunkAddr }
  | none => { x with dedupFlag := .UNIQUE }

/-- For a `UNIQUE` entry, with `EntryLoad`. -/
def Ocall_QueryOutBasechunk (s : Server) (x : QueryEntry) : QueryEntry :=
  match QuerySF s x.superfeature with
  | none => x
  | some basechunkHash =>
    { x with
      basechunkHash := basechunkHash
      deltaFlag := OUT_DELTA
      basechunkAddr := (s.indexObj.lookup basechunkHash).getD x.basechunkAddr
      chunkAddr := { x.chunkAddr with basechunkHash := basechunkHash } }

/-- More containers to load than the threshold allows; `OFFLINE_THRESHOLD` is 0.03. -/
def LocalChecker (Forward_Flag : Bool) (chunkNum : Nat) (entries : List QueryEntry) : Bool :=
  let Batch_ContainerIDset :=
    ((entries.filter (fun x => x.deltaFlag = OUT_DELTA)).map
      (fun x => x.basechunkAddr.containerName)).dedup
  let thresold := if Forward_Flag then chunkNum * 128 else 3 * chunkNum / 100
  thresold < Batch_ContainerIDset.length

/-- `ProcessOneBatch` up to its chunk loop. Entries answered `DUPLICATE` take no further part. -/
def queryBatch (chunks : List Bytes) (heap : Fp → Bool) (left : Nat → RecipeEntry) (s : Server) :
    Batch :=
  let entries := (outQueries env heap left 0 [] chunks).map (Ocall_QueryOutIndex s)
  let unique := (entries.filter (fun x => x.dedupFlag = .UNIQUE)).map (Ocall_QueryOutBasechunk s)
  { Local_Flag := LocalChecker s.Forward_Flag chunks.length unique
    todo := unique
    done := []
    process_buffer := []
    batch_basemap := [] }

/-- One pair of `Ocall_LocalInsert`: the pending new base of an old one is superseded. -/
def localInsert (s : Server) (p : Fp × Fp) : Server :=
  { s with
    skipMap :=
      match s.local_tmp_map.lookup p.1 with
      | some superseded => Table.push s.skipMap p.1 superseded
      | none => s.skipMap
    local_tmp_map := s.local_tmp_map.insert p.1 p.2 }

def Ocall_LocalInsert (pairs : List (Fp × Fp)) (s : Server) : Server := pairs.foldl localInsert s

/-- The end of `ProcessOneBatch`. -/
def finishBatch (b : Batch) (s : Server) : Server :=
  if b.Local_Flag then Ocall_LocalInsert b.batch_basemap s
  else Ocall_UpdateDeltaIndex s b.process_buffer

def updateOutIndexEntry (s : Server) (x : QueryEntry) : Server :=
  let s := UpdateIndexStore s x.chunkHash x.chunkAddr
  if x.deltaFlag = NO_DELTA ∧ x.offlineFlag = false then InsertSF s x.superfeature x.chunkHash
  else s

def Ocall_UpdateOutIndex (entries : List QueryEntry) (s : Server) : Server :=
  entries.foldl updateOutIndexEntry s

end Batch

section Session

/-- `ClientVar` and `EnclaveClient`. The session before has ended with `Ecall_UpdateOnlineInfo`,
which sets the size of the next backup to 0. -/
def startSession (iv : IV) (s : Server) : Server :=
  { s with
    iv := iv
    onlineBackupSize := 0
    opened := fun d => ⟨CreateUUID (if d then s.con_times + 1 else s.con_times), [], []⟩
    con_times := s.con_times + 2 }

def tailContainer (c : OpenContainer) : OpenContainer :=
  if c.buf.length ≠ 0 then { c with body := c.buf } else c

def ProcessTailBatch (s : Server) : Server :=
  { s with opened := fun d => tailContainer (s.opened d) }

/-- The last container of a directory, when its `currentSize` is not 0. -/
def lastContainer (d : Bool) (s : Server) : Server :=
  if (s.opened d).body.length ≠ 0 then writeContainer d s else s

/-- `DataReceiver::Run` after the client has closed its connection. -/
def closeSession (s : Server) : Server := lastContainer true (lastContainer false s)

end Session

end ShieldReduce.Prototype
