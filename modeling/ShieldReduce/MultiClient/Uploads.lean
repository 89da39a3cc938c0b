import ShieldReduce.Lib.Runs
import ShieldReduce.Prototype.ProcessBatch

/-!
# The uploads of two clients

Both clients use the sketch, the heap and the indexes; a batch takes the lock of each of them for one
region, or for one OCALL, at a time. The queries, the IV and the open containers are the client's own.
-/

namespace ShieldReduce.MultiClient
open Lib Store Prototype EDelta
open Prototype.EcallFreqIndex hiding OfflinedeltaTure storeQueries

section Store

/-- `Ocall_WriteContainer` at `false`, `Ocall_WriteDeltaContainer` at `true`: the caller writes the
file itself. `name` is what `CreateUUID1` draws. -/
def writeContainer (d : Bool) (name : ContainerName) (s : Server) : Server :=
  let c := s.opened d
  { s with
    files := s.files.insert (d, c.containerID) c.body
    opened := Function.update s.opened d ⟨name, c.buf, []⟩
    con_times := s.con_times + 1 }

/-- What `SavebaseChunk` and `SavedeltaChunk` share once `chunkAddr` has its length. -/
def saveChunk (d : Bool) (chunkData : Bytes) (chunkAddr : RecipeEntry) (chunksf : SuperFeature)
    (chunkfp : Fp) (name : ContainerName) (s : Server) : Server × RecipeEntry :=
  let s :=
    if recordFits chunkData (s.opened d).buf.length then s
    else
      let c := s.opened d
      writeContainer d name
        { s with opened := Function.update s.opened d ⟨c.containerID, [], c.buf⟩ }
  let c := s.opened d
  let chunkAddr := { chunkAddr with
    offset := UInt32.ofNat c.buf.length, containerName := c.containerID }
  let r : ChunkRecord := ⟨chunkAddr, chunkfp, chunksf, chunkData, s.iv⟩
  ({ s with opened := Function.update s.opened d { c with buf := c.buf ++ r.toBytes } }, chunkAddr)

def SavebaseChunk (chunkData : Bytes) (chunkAddr : RecipeEntry) (chunksf : SuperFeature)
    (chunkfp : Fp) (name : ContainerName) (s : Server) : Server × RecipeEntry :=
  saveChunk false chunkData
    { chunkAddr with length := UInt32.ofNat chunkData.length, superfeature := chunksf }
    chunksf chunkfp name s

def SavedeltaChunk (chunkData : Bytes) (chunkAddr : RecipeEntry) (chunksf : SuperFeature)
    (chunkfp : Fp) (name : ContainerName) (s : Server) : Server × RecipeEntry :=
  saveChunk true chunkData { chunkAddr with length := UInt32.ofNat chunkData.length }
    chunksf chunkfp name s

variable (env : EnclaveEnv)

def ProcessSheUniqueChunk (chunkAddr : RecipeEntry) (chunkBuffer : Bytes) (chunksf : SuperFeature)
    (chunkfp : Fp) (name : ContainerName) (s : Server) : Server × RecipeEntry :=
  let currentIV := PickNewIV s.iv
  let content := uniqueContent env chunkAddr.deltaFlag chunkBuffer
  let tmpCipherChunk := env.EncryptWithKeyIV currentIV content
  let s := { s with
    iv := currentIV, onlineBackupSize := s.onlineBackupSize + UInt64.ofNat content.length }
  if chunkAddr.deltaFlag = NO_DELTA then
    SavebaseChunk tmpCipherChunk chunkAddr chunksf chunkfp name s
  else SavedeltaChunk tmpCipherChunk chunkAddr chunksf chunkfp name s

/-- The body of the chunk loop after `OfflinedeltaTure`; the pair goes to `process_buffer`. -/
def storeChunk (name : ContainerName) (x : QueryEntry) (s : Server) :
    QueryEntry × Option (Fp × Fp) × Server :=
  let (x, deltachunk) := if x.deltaFlag = DELTA then ProcessDeltachunk env x else (x, [])
  if x.chunkAddr.deltaFlag = DELTA then
    let (s, chunkAddr) :=
      ProcessSheUniqueChunk env x.chunkAddr deltachunk x.superfeature x.chunkHash name s
    ({ x with deltaFlag := DELTA, chunkAddr := chunkAddr }, some (x.basechunkHash, x.chunkHash), s)
  else
    let (s, chunkAddr) :=
      ProcessSheUniqueChunk env x.chunkAddr x.chunk x.superfeature x.chunkHash name s
    ({ x with deltaFlag := NO_DELTA, chunkAddr := chunkAddr }, none, s)

end Store

section Model

/-- What the batch of a client has done last. `i` and `k` are the cursors of the chunk loop. -/
inductive BatchStage
  | idle
  | sketched
  | checked
  | queried
  | chunkLoop (i k : Nat)
  /-- Before `Ocall_UpdateDeltaIndex`. -/
  | paired (i k : Nat) (pair : Fp × Fp)
  /-- Before `Ocall_LocalInsert` for each of the pairs. -/
  | deferring (pairs : List (Fp × Fp))
  /-- Before `Ocall_UpdateOutIndex`. -/
  | answered
deriving DecidableEq

structure UploadClient where
  stage : BatchStage
  chunks : List Bytes
  queries : Queries
  outQueryNum : Nat
  Local_Flag : Bool
  batch_basemap : List (Fp × Fp)
  iv : IV
  opened : Bool → OpenContainer

/-- The clients share the server, but for `iv` and `opened`. The history of the run: the fingerprints
of the records that have been appended, and those whose index entries have been written. -/
structure Uploads where
  server : Server
  filter : Filter
  client : Bool → UploadClient
  appended : List Fp
  registered : List Fp

inductive UploadAction
  | updateSketch (c : Bool) (chunks : List Bytes)
  | checkTopK (c : Bool)
  | queryOutIndex (c : Bool)
  | queryOutBasechunk (c : Bool)
  /-- `image` is what the client sees of the container of the base, if it gets at it. -/
  | processChunk (c : Bool) (image : Option Bytes) (name : ContainerName)
  | updateDeltaIndex (c : Bool)
  | endLoop (c : Bool)
  | localInsert (c : Bool)
  | updateHeap (c : Bool)
  | updateOutIndex (c : Bool)

variable (env : EnclaveEnv) (topThreshold : Nat)

/-- The super-features and the flags of the chunks that are unique outside too. -/
def sfStep (chunks : List Bytes) (i k : Nat) (st : (Nat → InQueryEntry) × (Nat → OutQueryEntry)) :
    (Nat → InQueryEntry) × (Nat → OutQueryEntry) :=
  if (st.2 k).dedupFlag = .UNIQUE then
    let superfeature := env.getSF2 (chunks.getD i [])
    (Function.update st.1 i { st.1 i with superfeature := superfeature },
      Function.update st.2 k
        { st.2 k with
          deltaFlag := NO_DELTA
          offlineFlag := false
          superfeature := superfeature })
  else st

def sfLoop (chunks : List Bytes) (chunkNum : Nat) :
    ((Nat → InQueryEntry) × (Nat → OutQueryEntry)) × Nat →
      ((Nat → InQueryEntry) × (Nat → OutQueryEntry)) × Nat :=
  forLoop chunkNum (uniqueStep Prod.fst (sfStep env chunks))

/-- The query for the chunks of the batch, and the super-features of those that are new. -/
def queryIndex (s : Server) (client : UploadClient) : Queries :=
  let q := client.queries
  let q :=
    if client.outQueryNum ≠ 0 then Ocall_QueryOutIndex s { q with queryNum := client.outQueryNum }
    else q
  let st := (sfLoop env client.chunks client.chunks.length
    ((q.inQueryBase, q.outQueryBase), 0)).1
  { q with inQueryBase := st.1, outQueryBase := st.2 }

/-- The bases of the new chunks, and `LocalChecker`. -/
def queryBases (s : Server) (client : UploadClient) : UploadClient :=
  let q := Ocall_QueryOutBasechunk s client.queries
  let st := (loadLoop q.outQueryBase client.chunks.length ((q.inQueryBase, []), 0)).1
  { client with
    queries := { q with inQueryBase := st.1 }
    Local_Flag := tooManyLoads s.Forward_Flag client.chunks.length st.2
    batch_basemap := []
    stage := .chunkLoop 0 0 }

/-- `image`: what `containerbuffer` shows, unless the container is not to be had. -/
def OfflinedeltaTure (i k : Nat) (image : Option Bytes) (client : UploadClient) : UploadClient :=
  let e := client.queries.inQueryBase i
  let entry := client.queries.outQueryBase k
  let setOut (entry : OutQueryEntry) : UploadClient :=
    { client with
      queries := { client.queries with
        outQueryBase := Function.update client.queries.outQueryBase k entry } }
  if neverDelta e.chunkHash then setOut { entry with deltaFlag := NO_DELTA }
  else if entry.deltaFlag = OUT_DELTA then
    if client.Local_Flag then
      { setOut { entry with deltaFlag := NO_DELTA, offlineFlag := true } with
        batch_basemap :=
          client.batch_basemap ++ [(entry.chunkAddr.basechunkHash, entry.chunkHash)] }
    else
      match image with
      | none => setOut { entry with deltaFlag := NO_DELTA }
      | some containerbuffer =>
        let client := setOut { entry with containerbuffer := containerbuffer, deltaFlag := DELTA }
        let e := { e with
          chunkAddr := { e.chunkAddr with basechunkHash := entry.chunkAddr.basechunkHash } }
        { client with
          queries := { client.queries with
            inQueryBase := Function.update client.queries.inQueryBase i e } }
  else client

/-- A new chunk, which is stored in the containers of the client. -/
def storeUnique (i k : Nat) (image : Option Bytes) (name : ContainerName) (client : UploadClient)
    (s : Server) : UploadClient × Option (Fp × Fp) × Server :=
  let e := client.queries.inQueryBase i
  let e := { e with deltaFlag := NO_DELTA, chunkAddr := { e.chunkAddr with deltaFlag := NO_DELTA } }
  let client := OfflinedeltaTure i k image
    { client with
      queries := { client.queries with
        inQueryBase := Function.update client.queries.inQueryBase i e } }
  let e := client.queries.inQueryBase i
  let entry := client.queries.outQueryBase k
  let (x, pair, view) := storeChunk env name (queryEntry (client.chunks.getD i []) e entry)
    { s with iv := client.iv, opened := client.opened }
  let q := client.queries
  ({ client with
      queries := { q with
        inQueryBase := Function.update q.inQueryBase i { e with chunkAddr := x.chunkAddr }
        outQueryBase := Function.update q.outQueryBase k
          { entry with deltaFlag := x.deltaFlag, chunkAddr := x.chunkAddr } }
      iv := view.iv
      opened := view.opened },
    pair, { view with iv := s.iv, opened := s.opened })

def Uploads.setClient (s : Uploads) (c : Bool) (client : UploadClient) : Uploads :=
  { s with client := Function.update s.client c client }

def UploadClient.setStage (client : UploadClient) (stage : BatchStage) : UploadClient :=
  { client with stage := stage }

/-- `currNum` goes on with the cursor of the out-enclave queries. -/
def UploadClient.advance (client : UploadClient) : UploadClient :=
  { client with queries := { client.queries with currNum := client.queries.currNum + 1 } }

/-- A pass of the chunk loop, up to `Ocall_UpdateDeltaIndex`. -/
def processChunk (c : Bool) (i k : Nat) (image : Option Bytes) (name : ContainerName)
    (s : Uploads) : Uploads :=
  let client := s.client c
  let e := client.queries.inQueryBase i
  let entry := client.queries.outQueryBase k
  if e.dedupFlag = .UNIQUE then
    match entry.dedupFlag with
    | .DUPLICATE =>
      let client :=
        { client with
          queries := { client.queries with
            inQueryBase := Function.update client.queries.inQueryBase i
              { e with chunkAddr := entry.chunkAddr } } }
      s.setClient c (client.advance.setStage (.chunkLoop (i + 1) (k + 1)))
    | .UNIQUE =>
      let (client, pair, server) := storeUnique env i k image name client s.server
      let stage :=
        match pair with
        | some pair => .paired (i + 1) (k + 1) pair
        | none => .chunkLoop (i + 1) (k + 1)
      { s with server := server, appended := s.appended ++ [entry.chunkHash] }.setClient c
        (client.advance.setStage stage)
  else s.setClient c (client.setStage (.chunkLoop (i + 1) k))

/-- The fingerprints of the out-enclave queries that the index does not have. -/
def Queries.newFps (q : Queries) (num : Nat) : List Fp :=
  ((List.range num).filter fun k => (q.outQueryBase k).dedupFlag = .UNIQUE).map fun k =>
    (q.outQueryBase k).chunkHash

/-- `Ocall_UpdateOutIndex`, when there is something to update. -/
def updateIndex (c : Bool) (s : Uploads) : Uploads :=
  let q := (s.client c).queries
  if q.queryNum ≠ 0 then
    { s with
      server := Ocall_UpdateOutIndex q s.server
      registered := s.registered ++ Queries.newFps q q.queryNum }
  else s

/-- `none`: the step is not the next one of the client. -/
def uploadStep (s : Uploads) : UploadAction → Option Uploads
  | .updateSketch c chunks =>
    let client := s.client c
    if client.stage = .idle then
      let st := sketchLoop chunks.length
        (s.filter.sketch, hashChunks env chunks client.queries.inQueryBase)
      some
        ({ s with filter := { s.filter with sketch := st.1 } }.setClient c
          { client with
            stage := .sketched
            chunks := chunks
            queries := { client.queries with inQueryBase := st.2 } })
    else none
  | .checkTopK c =>
    let client := s.client c
    if client.stage = .sketched then
      let st := checkLoop env s.filter.heap (minFreq topThreshold s.filter.heap)
        client.chunks.length ⟨client.queries.inQueryBase, client.queries.outQueryBase, ∅, 0⟩
      some
        (s.setClient c
          { client with
            stage := .checked
            queries := { client.queries with inQueryBase := st.ins, outQueryBase := st.outs }
            outQueryNum := st.outQueryNum })
    else none
  | .queryOutIndex c =>
    let client := s.client c
    if client.stage = .checked then
      some (s.setClient c
        { client with stage := .queried, queries := queryIndex env s.server client })
    else none
  | .queryOutBasechunk c =>
    let client := s.client c
    if client.stage = .queried then some (s.setClient c (queryBases s.server client)) else none
  | .processChunk c image name =>
    match (s.client c).stage with
    | .chunkLoop i k =>
      if i < (s.client c).chunks.length then some (processChunk env c i k image name s) else none
    | _ => none
  | .updateDeltaIndex c =>
    match (s.client c).stage with
    | .paired i k pair =>
      some ({ s with server := InsertDeltaIndex s.server pair.1 pair.2 }.setClient c
        ((s.client c).setStage (.chunkLoop i k)))
    | _ => none
  | .endLoop c =>
    let client := s.client c
    match client.stage with
    | .chunkLoop i _ =>
      if i = client.chunks.length then
        some (s.setClient c
          (client.setStage (.deferring (if client.Local_Flag then client.batch_basemap else []))))
      else none
    | _ => none
  | .localInsert c =>
    match (s.client c).stage with
    | .deferring (pair :: pairs) =>
      some ({ s with server := localInsert s.server pair }.setClient c
        ((s.client c).setStage (.deferring pairs)))
    | _ => none
  | .updateHeap c =>
    let client := s.client c
    if client.stage = .deferring [] then
      let heap := heapLoop topThreshold client.queries.inQueryBase client.chunks.length
        s.filter.heap
      some ({ s with filter := { s.filter with heap := heap } }.setClient c
        { client with
          stage := .answered
          queries := { client.queries with queryNum := client.outQueryNum, currNum := 0 } })
    else none
  | .updateOutIndex c =>
    if (s.client c).stage = .answered then
      some ((updateIndex c s).setClient c ((s.client c).setStage .idle))
    else none

end Model

/-- Two sessions at the start; the arrays hold whatever they were allocated with. -/
def Uploads.start (server : Server) (filter : Filter) (queries : Bool → Queries) (iv : Bool → IV)
    (opened : Bool → Bool → OpenContainer) : Uploads where
  server := server
  filter := filter
  client c := ⟨.idle, [], queries c, 0, false, [], iv c, opened c⟩
  appended := []
  registered := []

end ShieldReduce.MultiClient
