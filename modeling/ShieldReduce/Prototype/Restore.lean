import ShieldReduce.Lib.Table
import ShieldReduce.Prototype.Recipe
import ShieldReduce.Store.Container

/-!
# Restoring a file

`EcallRecvDecoder`: recipe entries are collected until enough containers have been asked for, their
bases are queried five at a time, and the chunks go to the client in batches.
-/

namespace ShieldReduce.Prototype
open Lib Store EDelta

/-- `EnclaveRecipeEntry_t`: where in the requested containers a chunk is. -/
structure EnclaveRecipeEntry where
  containerID : Nat
  offset : UInt32
  length : UInt32
  deltaFlag : UInt8
deriving DecidableEq

/-- `_baseoutQuery`: the `chunkHash` and the `chunkAddr` of its entries, of which the first `queryNum`
are in use. -/
structure BaseQuery where
  queryNum : Nat
  outQueryBase : Nat → Fp × RecipeEntry

/-- What `ProcRecipeBatch` has collected. The first `idNum` names of `idBuffer` are kept. -/
structure Requests where
  idBuffer : List ContainerName
  baseQuery : BaseQuery
  enclaveRecipeBuffer : List EnclaveRecipeEntry
  baseRecipeBuffer : List EnclaveRecipeEntry

inductive RestoreType
  | SERVER_RESTORE_CHUNK
  | SERVER_RESTORE_FINAL
deriving DecidableEq

structure RestoreMessage where
  messageType : RestoreType
  currentItemNum : Nat
  dataBuffer : Bytes

/-- `_restoreChunkBuffer`, and what has been sent. -/
structure RestoreBuffer where
  dataBuffer : Bytes
  currentItemNum : Nat
  sent : List RestoreMessage

def CONTAINER_CAPPING_VALUE : Nat := 16

section Collect
variable (index : Table Fp RecipeEntry)

abbrev ContainerMap : Type := Table ContainerName Nat

/-- The number of a container in `idBuffer`, where it is put unless `tmpContainerMap` has it. -/
def containerNumber (name : ContainerName) (tmpContainerMap : ContainerMap)
    (idBuffer : List ContainerName) : Nat × ContainerMap × List ContainerName :=
  match tmpContainerMap.lookup name with
  | some id => (id, tmpContainerMap, idBuffer)
  | none =>
    (idBuffer.length, tmpContainerMap.insert name idBuffer.length, idBuffer ++ [name])

def requestEntry (id : Nat) (e : RecipeEntry) : EnclaveRecipeEntry := ⟨id, e.offset, e.length, e.deltaFlag⟩

/-- A hash that the index does not know leaves the address as it was. -/
def Ocall_QueryBaseIndex (q : BaseQuery) : BaseQuery :=
  { q with outQueryBase := fun i =>
      if i < q.queryNum then
        ((q.outQueryBase i).1, (index.lookup (q.outQueryBase i).1).getD (q.outQueryBase i).2)
      else q.outQueryBase i }

def pushBase (r : Requests × ContainerMap) (chunkAddr : RecipeEntry) : Requests × ContainerMap :=
  let (id, tmpContainerMap, idBuffer) := containerNumber chunkAddr.containerName r.2 r.1.idBuffer
  ({ r.1 with
      idBuffer := idBuffer
      baseRecipeBuffer := r.1.baseRecipeBuffer ++ [requestEntry id chunkAddr] }, tmpContainerMap)

/-- The entries of the query, once they have been answered, go to `_baseRecipeBuffer`. -/
def takeBases (r : Requests × ContainerMap) : Requests × ContainerMap :=
  let q := Ocall_QueryBaseIndex index r.1.baseQuery
  ((List.range q.queryNum).map fun i => (q.outQueryBase i).2).foldl pushBase
    ({ r.1 with baseQuery := q }, r.2)

/-- `basechunkHash` in the entry behind the last one in use, `baseQueryEntry`. -/
def BaseQuery.ask (q : BaseQuery) (basechunkHash : Fp) : BaseQuery where
  queryNum := q.queryNum + 1
  outQueryBase := Function.update q.outQueryBase q.queryNum
    (basechunkHash, (q.outQueryBase q.queryNum).2)

def askBase (r : Requests × ContainerMap) (basechunkHash : Fp) : Requests × ContainerMap :=
  if r.1.baseQuery.queryNum < 5 then
    ({ r.1 with baseQuery := r.1.baseQuery.ask basechunkHash }, r.2)
  else if r.1.baseQuery.queryNum = 5 then
    let r := takeBases index r
    ({ r.1 with baseQuery := { r.1.baseQuery with queryNum := 0 }.ask basechunkHash }, r.2)
  else r

/-- The loop of `ProcRecipeBatch` up to the capping value. -/
def collectEntry (r : Requests × ContainerMap) (e : RecipeEntry) : Requests × ContainerMap :=
  let r := if e.deltaFlag = DELTA then askBase index r e.basechunkHash else r
  let (id, tmpContainerMap, idBuffer) := containerNumber e.containerName r.2 r.1.idBuffer
  ({ r.1 with
      idBuffer := idBuffer
      enclaveRecipeBuffer := r.1.enclaveRecipeBuffer ++ [requestEntry id e] }, tmpContainerMap)

/-- The query that is left before containers are fetched. -/
def lastBases (r : Requests × ContainerMap) : Requests × ContainerMap :=
  let r := if r.1.baseQuery.queryNum ≠ 0 then takeBases index r else r
  ({ r.1 with baseQuery := { r.1.baseQuery with queryNum := 0 } }, r.2)

end Collect

section Emit
variable (env : EnclaveEnv) (crypto : RecipeCrypto) (sendChunkBatchSize : Nat)
  (containerArray : List Bytes) (baseRecipeBuffer : List EnclaveRecipeEntry)

def entryContainer (e : EnclaveRecipeEntry) : Bytes := containerArray.getD e.containerID []

def entryContent (e : EnclaveRecipeEntry) : Bytes :=
  readAt (entryContainer containerArray e) (e.offset.toNat + CONTENT_OFFSET) e.length.toNat

def entryIV (e : EnclaveRecipeEntry) : IV :=
  FixedBytes.read 16 (entryContainer containerArray e)
    (e.offset.toNat + CONTENT_OFFSET + e.length.toNat)

def entryChunk (e : EnclaveRecipeEntry) : Bytes :=
  RecoverOneChunk env (entryIV containerArray e) (entryContent containerArray e)

/-- A delta is decoded against the entry `bidx` of `_baseRecipeBuffer`; reading past its end is not
defined. -/
def restoreOne (bidx : Nat) (e : EnclaveRecipeEntry) : Bytes :=
  if e.deltaFlag = DELTA then
    EDeltaDecode (env.DecryptionWithKeyIV (entryIV containerArray e) (entryContent containerArray e))
      (entryChunk env containerArray (baseRecipeBuffer.getD bidx e))
  else entryChunk env containerArray e

/-- A chunk behind its size. -/
def packRestored (chunk : Bytes) : Bytes := le32 (UInt32.ofNat chunk.length) ++ chunk

def appendRestored (chunk : Bytes) (s : RestoreBuffer) : RestoreBuffer :=
  { s with
    dataBuffer := s.dataBuffer ++ packRestored chunk
    currentItemNum := s.currentItemNum + 1 }

def Ocall_SendRestoreData (messageType : RestoreType) (s : RestoreBuffer) : RestoreBuffer where
  dataBuffer := []
  currentItemNum := 0
  sent := s.sent ++ [⟨messageType, s.currentItemNum, crypto.SessionKeyEnc s.dataBuffer⟩]

/-- The loop over `_enclaveRecipeBuffer`; only `ProcRecipeTailBatch` knows an `endFlag`. -/
def restoreLoop (tail : Bool) : Nat → List EnclaveRecipeEntry → RestoreBuffer → RestoreBuffer
  | _, [], s => s
  | bidx, e :: rest, s =>
    let s := appendRestored (restoreOne env containerArray baseRecipeBuffer bidx e) s
    let endFlag := tail && rest.isEmpty
    let s :=
      if s.currentItemNum % sendChunkBatchSize = 0 ∨ endFlag = true then
        Ocall_SendRestoreData crypto
          (if endFlag then .SERVER_RESTORE_FINAL else .SERVER_RESTORE_CHUNK) s
      else s
    restoreLoop tail (if e.deltaFlag = DELTA then bidx + 1 else bidx) rest s

end Emit

section Run
variable (env : EnclaveEnv) (crypto : RecipeCrypto) (index : Table Fp RecipeEntry)
  (load : ContainerName → Bytes) (sendChunkBatchSize : Nat)

structure Restore where
  requests : Requests
  buffer : RestoreBuffer

/-- `Ocall_GetReqContainers` loads `idBuffer` into `containerArray`. -/
def restoreAll (tail : Bool) (s : Restore) : RestoreBuffer :=
  restoreLoop env crypto sendChunkBatchSize (s.requests.idBuffer.map load)
    s.requests.baseRecipeBuffer tail 0 s.requests.enclaveRecipeBuffer s.buffer

/-- The capping value: the chunks collected so far are restored. -/
def capping (r : Requests × ContainerMap) (s : RestoreBuffer) :
    (Requests × ContainerMap) × RestoreBuffer :=
  if CONTAINER_CAPPING_VALUE ≤ r.1.idBuffer.length + r.1.baseQuery.queryNum then
    let r := lastBases index r
    (({ idBuffer := []
        baseQuery := { r.1.baseQuery with queryNum := 0 }
        enclaveRecipeBuffer := []
        baseRecipeBuffer := [] }, ∅),
      restoreAll env crypto load sendChunkBatchSize false ⟨r.1, s⟩)
  else (r, s)

def procEntry (st : (Requests × ContainerMap) × RestoreBuffer) (e : RecipeEntry) :
    (Requests × ContainerMap) × RestoreBuffer :=
  capping env crypto index load sendChunkBatchSize (collectEntry index st.1 e) st.2

/-- A fingerprint that the index does not know gets the entry that was read before it. -/
def Ocall_ReadIndexStoreBatch : RecipeEntry → List Fp → List RecipeEntry
  | _, [] => []
  | value, key :: keys =>
    let value := (index.lookup key).getD value
    value :: Ocall_ReadIndexStoreBatch value keys

/-- `value` is what an encrypted entry of zeros, with which every call starts, decrypts to. -/
def ProcRecipeBatch (value : RecipeEntry) (s : Restore) (recipe : List Fp) : Restore :=
  let fileRecipes := Ocall_ReadIndexStoreBatch index value (recipe.map env.IndexAESCMCEnc)
  let st := fileRecipes.foldl (procEntry env crypto index load sendChunkBatchSize)
    ((s.requests, ∅), s.buffer)
  ⟨st.1.1, st.2⟩

def ProcRecipeTailBatch (s : Restore) : RestoreBuffer :=
  if s.requests.enclaveRecipeBuffer.length ≠ 0 then
    let r := lastBases index (s.requests, ∅)
    restoreAll env crypto load sendChunkBatchSize true ⟨r.1, s.buffer⟩
  else Ocall_SendRestoreData crypto .SERVER_RESTORE_FINAL s.buffer

/-- `outQueryBase` is what the allocated query held. -/
def startRestore (outQueryBase : Nat → Fp × RecipeEntry) : Restore where
  requests := ⟨[], ⟨0, outQueryBase⟩, [], []⟩
  buffer := ⟨[], 0, []⟩

/-- The messages of a restore whose recipe arrives in the given batches. -/
def restoreFile (value : RecipeEntry) (outQueryBase : Nat → Fp × RecipeEntry)
    (recipes : List (List Fp)) : List RestoreMessage :=
  (ProcRecipeTailBatch env crypto index load sendChunkBatchSize
    (recipes.foldl (ProcRecipeBatch env crypto index load sendChunkBatchSize value)
      (startRestore outQueryBase))).sent

end Run

end ShieldReduce.Prototype
