import ShieldReduce.Lib.Loop
import ShieldReduce.Prototype.Ivs
import ShieldReduce.Prototype.TopK

/-!
# A batch over the query arrays

`EcallFreqIndex::ProcessOneBatch` with the arrays of in-enclave and of out-enclave queries that it
goes through together: an out-enclave query stands for every chunk that the enclave's own indexes do
not hold.
-/

namespace ShieldReduce.Prototype.EcallFreqIndex
open Lib Store EDelta

/-- `dedupFlag` of an in-enclave query. -/
inductive InDedupFlag
  | UNIQUE
  | DUPLICATE
  | TMP_UNIQUE
  | TMP_DUPLICATE
deriving DecidableEq

/-- `InQueryEntry_t`; `chunkSize` is the length of the chunk. -/
structure InQueryEntry where
  dedupFlag : InDedupFlag
  deltaFlag : UInt8
  chunkHash : Fp
  chunkAddr : RecipeEntry
  chunkFreq : UInt32
  superfeature : SuperFeature
  basechunkAddr : RecipeEntry

/-- `OutQueryEntry_t` -/
structure OutQueryEntry where
  dedupFlag : DedupFlag
  deltaFlag : UInt8
  offlineFlag : Bool
  chunkHash : Fp
  chunkAddr : RecipeEntry
  superfeature : SuperFeature
  containerbuffer : Bytes
  basechunkAddr : RecipeEntry

/-- The arrays of a client, which one batch leaves to the next. -/
structure Queries where
  inQueryBase : Nat → InQueryEntry
  outQueryBase : Nat → OutQueryEntry
  queryNum : Nat
  currNum : Nat

/-- `cmSketch_` and `insideDedupIndex_` -/
structure Filter where
  sketch : EcallCMSketch
  heap : EntryHeap

section Filter

/-- The hash and the size of every chunk. -/
def hashChunks (env : EnclaveEnv) (chunks : List Bytes) (ins : Nat → InQueryEntry) :
    Nat → InQueryEntry :=
  fun i =>
    match chunks[i]? with
    | some chunk => { ins i with chunkHash := env.GenerateHash chunk }
    | none => ins i

def sketchStep (i : Nat) (st : EcallCMSketch × (Nat → InQueryEntry)) :
    EcallCMSketch × (Nat → InQueryEntry) :=
  let e := st.2 i
  let sketch := st.1.Update e.chunkHash 1
  (sketch, Function.update st.2 i { e with chunkFreq := sketch.Estimate e.chunkHash })

def sketchLoop (chunkNum : Nat) : EcallCMSketch × (Nat → InQueryEntry) →
    EcallCMSketch × (Nat → InQueryEntry) :=
  forLoop chunkNum sketchStep

def minFreq (topThreshold : Nat) (heap : EntryHeap) : UInt32 :=
  if heap.Size = topThreshold then heap.TopEntry else 0

/-- The first `outQueryNum` out-enclave queries are those of this batch. -/
structure Check where
  ins : Nat → InQueryEntry
  outs : Nat → OutQueryEntry
  localIndex : Table Fp Nat
  outQueryNum : Nat

/-- A chunk that the enclave does not hold gets the next out-enclave query. -/
def Check.ask (env : EnclaveEnv) (i : Nat) (st : Check) : Check :=
  let e := st.ins i
  { st with
    ins := Function.update st.ins i
      { e with
        dedupFlag := .UNIQUE
        chunkAddr := { e.chunkAddr with offset := UInt32.ofNat st.outQueryNum } }
    outs := Function.update st.outs st.outQueryNum
      { st.outs st.outQueryNum with chunkHash := env.IndexAESCMCEnc e.chunkHash }
    outQueryNum := st.outQueryNum + 1 }

/-- The chunk is that of an earlier query of the batch, which gets its frequency. -/
def Check.repeated (i offset : Nat) (st : Check) : Check :=
  let e := st.ins i
  let findEntry := st.ins offset
  let flagged (flag : InDedupFlag) : Check :=
    let ins := Function.update st.ins i
      { e with
        dedupFlag := flag
        chunkAddr := { e.chunkAddr with offset := UInt32.ofNat offset } }
    { st with ins := Function.update ins offset { findEntry with chunkFreq := e.chunkFreq } }
  match findEntry.dedupFlag with
  | .UNIQUE => flagged .TMP_UNIQUE
  | .DUPLICATE => flagged .TMP_DUPLICATE
  -- `Ocall_SGX_Exit_Error`
  | _ => st

def checkStep (env : EnclaveEnv) (heap : EntryHeap) (minFreq : UInt32) (i : Nat) (st : Check) :
    Check :=
  let e := st.ins i
  match st.localIndex.lookup e.chunkHash with
  | some offset => st.repeated i offset
  | none =>
    let st :=
      -- a chunk that is less frequent than the top is not looked up
      if e.chunkFreq < minFreq then st.ask env i
      else
        match heap.GetPriority e.chunkHash with
        | some item =>
          { st with
            ins := Function.update st.ins i
              { e with dedupFlag := .DUPLICATE, chunkAddr := item.address } }
        | none => st.ask env i
    { st with localIndex := st.localIndex.insert e.chunkHash i }

def checkLoop (env : EnclaveEnv) (heap : EntryHeap) (minFreq : UInt32) (chunkNum : Nat) :
    Check → Check :=
  forLoop chunkNum (checkStep env heap minFreq)

/-- The update of the heap at the end of a batch, for one query. -/
def heapStep (topThreshold : Nat) (ins : Nat → InQueryEntry) (i : Nat) (heap : EntryHeap) :
    EntryHeap :=
  let e := ins i
  if e.dedupFlag = .UNIQUE ∨ e.dedupFlag = .DUPLICATE then
    if CheckIfAddToHeap topThreshold heap e.chunkFreq then
      if heap.Contains e.chunkHash then heap.Update e.chunkHash e.chunkFreq
      else AddChunkToHeap topThreshold e.chunkFreq e.chunkAddr e.chunkHash heap
    else heap
  else heap

def heapLoop (topThreshold : Nat) (ins : Nat → InQueryEntry) (chunkNum : Nat) :
    EntryHeap → EntryHeap :=
  forLoop chunkNum (heapStep topThreshold ins)

end Filter

section Ocalls

def Ocall_QueryOutIndex (s : Server) (q : Queries) : Queries :=
  { q with outQueryBase := fun i =>
      let entry := q.outQueryBase i
      if i < q.queryNum then
        match s.indexObj.lookup entry.chunkHash with
        | some chunkAddr => { entry with dedupFlag := .DUPLICATE, chunkAddr := chunkAddr }
        | none => { entry with dedupFlag := .UNIQUE }
      else entry }

/-- One entry of `Ocall_QueryOutBasechunk`. -/
def queryBase (s : Server) (entry : OutQueryEntry) : OutQueryEntry :=
  if entry.dedupFlag = .UNIQUE ∧ entry.deltaFlag = NO_DELTA then
    match QuerySF s entry.superfeature with
    | none => entry
    | some basechunkHash =>
      { entry with
        deltaFlag := OUT_DELTA
        chunkAddr := { entry.chunkAddr with basechunkHash := basechunkHash }
        basechunkAddr := (s.indexObj.lookup basechunkHash).getD entry.basechunkAddr }
  else entry

/-- Also when the batch asks nothing: `queryNum` is that of an earlier batch then. -/
def Ocall_QueryOutBasechunk (s : Server) (q : Queries) : Queries :=
  { q with outQueryBase := fun i =>
      if i < q.queryNum then queryBase s (q.outQueryBase i) else q.outQueryBase i }

/-- The entry is the one that `currNum` says. -/
def Ocall_getRefContainer (q : Queries) (s : Server) : Queries × Server :=
  let entry := q.outQueryBase q.currNum
  if entry.deltaFlag = OUT_DELTA then
    match s.files.lookup (false, entry.basechunkAddr.containerName) with
    | none =>
      ({ q with
          outQueryBase :=
            Function.update q.outQueryBase q.currNum { entry with deltaFlag := NO_DELTA } }, s)
    | some body =>
      let s := readContainer s body
      ({ q with
          outQueryBase := Function.update q.outQueryBase q.currNum
            { entry with containerbuffer := s.tmpOcallcontainer, deltaFlag := DELTA } }, s)
  else (q, s)

def updateOutEntry (entry : OutQueryEntry) (s : Server) : Server :=
  if entry.dedupFlag = .UNIQUE then
    let s := UpdateIndexStore s entry.chunkHash entry.chunkAddr
    if entry.deltaFlag = NO_DELTA ∧ entry.offlineFlag = false then
      InsertSF s entry.superfeature entry.chunkHash
    else s
  else s

def Ocall_UpdateOutIndex (q : Queries) : Server → Server :=
  forLoop q.queryNum fun i => updateOutEntry (q.outQueryBase i)

end Ocalls

section Traversals
variable {S : Type}

/-- A pass of a loop over the in-enclave queries whose cursor in the out-enclave ones moves on with
every unique query. -/
def uniqueStep (ins : S → Nat → InQueryEntry) (body : Nat → Nat → S → S) (i : Nat) (st : S × Nat) :
    S × Nat :=
  if (ins st.1 i).dedupFlag = .UNIQUE then (body i st.2 st.1, st.2 + 1) else st

/-- The super-features of the chunks that are unique outside too; three threads compute them. -/
def superfeatureLoop (env : EnclaveEnv) (chunks : List Bytes) (outs : Nat → OutQueryEntry)
    (chunkNum : Nat) : (Nat → InQueryEntry) × Nat → (Nat → InQueryEntry) × Nat :=
  forLoop chunkNum (uniqueStep id fun i k ins =>
    if (outs k).dedupFlag = .UNIQUE then
      Function.update ins i { ins i with superfeature := env.getSF2 (chunks.getD i []) }
    else ins)

def OutEntrySFGet (ins : Nat → InQueryEntry) (chunkNum : Nat) :
    (Nat → OutQueryEntry) × Nat → (Nat → OutQueryEntry) × Nat :=
  forLoop chunkNum (uniqueStep (fun _ => ins) fun i k outs =>
    if (outs k).dedupFlag = .UNIQUE then
      Function.update outs k
        { outs k with
          deltaFlag := NO_DELTA
          offlineFlag := false
          superfeature := (ins i).superfeature }
    else outs)

/-- The in-enclave queries and `Batch_ContainerIDset`. -/
abbrev Loads : Type := (Nat → InQueryEntry) × List ContainerName

def EntryLoad (i : Nat) (entry : OutQueryEntry) (st : Loads) : Loads :=
  if entry.deltaFlag = OUT_DELTA then
    let e := st.1 i
    (Function.update st.1 i
      { e with
        chunkAddr := { e.chunkAddr with basechunkHash := entry.chunkAddr.basechunkHash }
        basechunkAddr := entry.basechunkAddr },
      st.2.insert entry.basechunkAddr.containerName)
  else st

/-- The loop of `LocalChecker`. -/
def loadLoop (outs : Nat → OutQueryEntry) (chunkNum : Nat) : Loads × Nat → Loads × Nat :=
  forLoop chunkNum (uniqueStep Prod.fst fun i k st =>
    if (outs k).dedupFlag = .UNIQUE then EntryLoad i (outs k) st else st)

/-- The threshold of `LocalChecker`; `OFFLINE_THRESHOLD` is 0.03. -/
def tooManyLoads (Forward_Flag : Bool) (chunkNum : Nat) (Batch_ContainerIDset : List ContainerName) :
    Bool :=
  let thresold := if Forward_Flag then chunkNum * 128 else 3 * chunkNum / 100
  thresold < Batch_ContainerIDset.length

end Traversals

section Chunks
variable (env : EnclaveEnv)

/-- The chunk loop; `appended` are the chunks that it has stored, each with its record, and `taken`
the containers that the writer thread has taken out of the queue. -/
structure Chunks where
  queries : Queries
  server : Server
  process_buffer : List (Fp × Fp)
  batch_basemap : List (Fp × Fp)
  appended : List (Bytes × ChunkRecord)
  taken : List Container

def Chunks.setIn (st : Chunks) (i : Nat) (e : InQueryEntry) : Chunks :=
  { st with
    queries := { st.queries with inQueryBase := Function.update st.queries.inQueryBase i e } }

def Chunks.setOut (st : Chunks) (k : Nat) (entry : OutQueryEntry) : Chunks :=
  { st with
    queries := { st.queries with outQueryBase := Function.update st.queries.outQueryBase k entry } }

/-- The in-enclave entry of a chunk that is encoded against a base. -/
def Chunks.setBase (st : Chunks) (i k : Nat) : Chunks :=
  let e := st.queries.inQueryBase i
  st.setIn i
    { e with
      chunkAddr := { e.chunkAddr with
        basechunkHash := (st.queries.outQueryBase k).chunkAddr.basechunkHash } }

/-- `i` and `k` are the cursors; `Ocall_getRefContainer` does not get them. -/
def OfflinedeltaTure (Local_Flag : Bool) (i k : Nat) (st : Chunks) : Chunks :=
  let e := st.queries.inQueryBase i
  let entry := st.queries.outQueryBase k
  if neverDelta e.chunkHash then st.setOut k { entry with deltaFlag := NO_DELTA }
  else if entry.deltaFlag = OUT_DELTA then
    if Local_Flag then
      let st := st.setOut k { entry with deltaFlag := NO_DELTA, offlineFlag := true }
      { st with
        batch_basemap := st.batch_basemap ++ [(entry.chunkAddr.basechunkHash, entry.chunkHash)] }
    else
      match ReadFromCache entry.basechunkAddr.containerName st.server with
      | some (containerbuffer, s) =>
        let st := { st with server := s }
        (st.setOut k { entry with containerbuffer := containerbuffer, deltaFlag := DELTA }).setBase i k
      | none =>
        let (queries, s) := Ocall_getRefContainer st.queries st.server
        let st := { st with queries := queries, server := s }
        let entry := st.queries.outQueryBase k
        if entry.deltaFlag = DELTA then
          let st := { st with
            server := InsertToCache_Offline entry.basechunkAddr.containerName entry.containerbuffer
              st.server }
          st.setBase i k
        else st
  else st

/-- The queries under the two cursors, as `ProcessDeltachunk` and `ProcessSheUniqueChunk` use them;
`EntryLoad` has given them one `basechunkAddr`. -/
def queryEntry (chunk : Bytes) (e : InQueryEntry) (entry : OutQueryEntry) : QueryEntry where
  inHash := e.chunkHash
  chunkHash := entry.chunkHash
  chunk := chunk
  dedupFlag := entry.dedupFlag
  superfeature := e.superfeature
  deltaFlag := entry.deltaFlag
  offlineFlag := entry.offlineFlag
  basechunkHash := entry.chunkAddr.basechunkHash
  basechunkAddr := entry.basechunkAddr
  containerbuffer := entry.containerbuffer
  chunkAddr := e.chunkAddr

/-- The record that `storeChunk` appends. -/
def storedRecord (x : QueryEntry) (s : Server) : ChunkRecord :=
  let (x, deltachunk) := if x.deltaFlag = DELTA then ProcessDeltachunk env x else (x, [])
  uniqueRecord env x.chunkAddr (if x.chunkAddr.deltaFlag = DELTA then deltachunk else x.chunk)
    x.superfeature x.chunkHash s

/-- `ProcessDeltachunk` and `ProcessSheUniqueChunk` on the queries under the two cursors. -/
def storeQueries (chunk : Bytes) (i k : Nat) (st : Chunks) : Chunks :=
  let e := st.queries.inQueryBase i
  let entry := st.queries.outQueryBase k
  let x := queryEntry chunk e entry
  let record := storedRecord env x st.server
  let (x, pair, s) := storeChunk env x st.server
  let st := st.setIn i { e with chunkAddr := x.chunkAddr }
  let st := st.setOut k { entry with deltaFlag := x.deltaFlag, chunkAddr := x.chunkAddr }
  { st with
    server := s
    process_buffer := st.process_buffer ++ pair.toList
    appended := st.appended ++ [(chunk, record)] }

/-- What becomes of a chunk that no index knows. -/
def processUnique (Local_Flag : Bool) (chunk : Bytes) (i k : Nat) (st : Chunks) : Chunks :=
  let e := st.queries.inQueryBase i
  let st := st.setIn i
    { e with deltaFlag := NO_DELTA, chunkAddr := { e.chunkAddr with deltaFlag := NO_DELTA } }
  storeQueries env chunk i k (OfflinedeltaTure Local_Flag i k st)

/-- The writer thread does `writes i` before the chunk loop comes to chunk `i`. -/
def runWriter (acts : List Action) (s : Server) : Server :=
  acts.foldl (fun s a => (stepWriter s a).getD s) s

/-- What `openFile` takes out of the queue. -/
def takenBy (s : Server) : Action → List Container
  | .openFile => if s.writer = none then s.inputMQ.take 1 else []
  | _ => []

def runTaken : List Action → Server → List Container
  | [], _ => []
  | a :: acts, s => takenBy s a ++ runTaken acts ((stepWriter s a).getD s)

/-- A pass of the chunk loop on a query that is unique for the enclave. -/
def chunkBody (Local_Flag : Bool) (chunks : List Bytes) (writes : Nat → List Action) (i k : Nat)
    (st : Chunks) : Chunks :=
  let st := { st with
    server := runWriter (writes i) st.server
    taken := st.taken ++ runTaken (writes i) st.server }
  let st :=
    match (st.queries.outQueryBase k).dedupFlag with
    | .DUPLICATE =>
      st.setIn i
        { st.queries.inQueryBase i with chunkAddr := (st.queries.outQueryBase k).chunkAddr }
    | .UNIQUE => processUnique env Local_Flag (chunks.getD i []) i k st
  { st with queries := { st.queries with currNum := st.queries.currNum + 1 } }

def chunkLoop (Local_Flag : Bool) (chunks : List Bytes) (writes : Nat → List Action)
    (chunkNum : Nat) : Chunks × Nat → Chunks × Nat :=
  forLoop chunkNum
    (uniqueStep (fun st => st.queries.inQueryBase) (chunkBody env Local_Flag chunks writes))

end Chunks

section Batch

/-- The chunks of a message, and what the writer thread does meanwhile. -/
structure ChunkBatch where
  chunks : List Bytes
  writes : Nat → List Action

/-- `appended` are the chunks that have been stored, each with its record, and `taken` the containers
that the writer thread has taken out of the queue. -/
structure Enclave where
  filter : Filter
  queries : Queries
  server : Server
  appended : List (Bytes × ChunkRecord)
  taken : List Container

variable (env : EnclaveEnv) (topThreshold : Nat) (b : ChunkBatch) (e : Enclave)

def ChunkBatch.chunkNum : Nat := b.chunks.length

def sketched : EcallCMSketch × (Nat → InQueryEntry) :=
  sketchLoop b.chunkNum (e.filter.sketch, hashChunks env b.chunks e.queries.inQueryBase)

/-- The check of the top-k index after `n` chunks. -/
def checkAt (n : Nat) : Check :=
  checkLoop env e.filter.heap (minFreq topThreshold e.filter.heap) n
    ⟨(sketched env b e).2, e.queries.outQueryBase, ∅, 0⟩

def outQueryNum : Nat := (checkAt env topThreshold b e b.chunkNum).outQueryNum

def queried : Queries :=
  let st := checkAt env topThreshold b e b.chunkNum
  let q := { e.queries with inQueryBase := st.ins, outQueryBase := st.outs }
  if st.outQueryNum ≠ 0 then Ocall_QueryOutIndex e.server { q with queryNum := st.outQueryNum }
  else q

def superfeatureAt (n : Nat) : (Nat → InQueryEntry) × Nat :=
  let q := queried env topThreshold b e
  superfeatureLoop env b.chunks q.outQueryBase n (q.inQueryBase, 0)

def outEntryAt (n : Nat) : (Nat → OutQueryEntry) × Nat :=
  OutEntrySFGet (superfeatureAt env topThreshold b e b.chunkNum).1 n
    ((queried env topThreshold b e).outQueryBase, 0)

def based : Queries :=
  Ocall_QueryOutBasechunk e.server
    { queried env topThreshold b e with
      inQueryBase := (superfeatureAt env topThreshold b e b.chunkNum).1
      outQueryBase := (outEntryAt env topThreshold b e b.chunkNum).1 }

def loadAt (n : Nat) : Loads × Nat :=
  let q := based env topThreshold b e
  loadLoop q.outQueryBase n ((q.inQueryBase, []), 0)

def localFlag : Bool :=
  tooManyLoads e.server.Forward_Flag b.chunkNum (loadAt env topThreshold b e b.chunkNum).1.2

def chunksAt (n : Nat) : Chunks × Nat :=
  chunkLoop env (localFlag env topThreshold b e) b.chunks b.writes n
    ({ queries := { based env topThreshold b e with
        inQueryBase := (loadAt env topThreshold b e b.chunkNum).1.1 }
       server := e.server
       process_buffer := []
       batch_basemap := []
       appended := e.appended
       taken := e.taken }, 0)

def ProcessOneBatch : Enclave :=
  let st := (chunksAt env topThreshold b e b.chunkNum).1
  { filter :=
      { sketch := (sketched env b e).1
        heap := heapLoop topThreshold st.queries.inQueryBase b.chunkNum e.filter.heap }
    queries := { st.queries with queryNum := outQueryNum env topThreshold b e, currNum := 0 }
    server := finishBatch
      ⟨localFlag env topThreshold b e, [], [], st.process_buffer, st.batch_basemap⟩ st.server
    appended := st.appended
    taken := st.taken }

/-- `EnclaveIndex::ProcessOneBatch` -/
def processChunks : Enclave :=
  let e := ProcessOneBatch env topThreshold b e
  if e.queries.queryNum ≠ 0 then { e with server := Ocall_UpdateOutIndex e.queries e.server } else e

end Batch

end ShieldReduce.Prototype.EcallFreqIndex
