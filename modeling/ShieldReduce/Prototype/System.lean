import ShieldReduce.Lib.Runs
import ShieldReduce.Prototype.Offline

/-!
# Runs of the server

The upload thread, the writer thread and the offline pass as one transition system. An action
carries what the code leaves open: the answers of the heap, the random IV, the order of hash maps
and the size of a partial write.
-/

namespace ShieldReduce.Prototype
open Lib Store EDelta

inductive Action
  | startSession (iv : IV)
  /-- `CLIENT_UPLOAD_CHUNK` -/
  | uploadChunk (chunks : List Bytes) (heap : Fp → Bool) (left : Nat → RecipeEntry)
  | offlinedeltaTure
  | storeChunk
  | endBatch
  | updateOutIndex
  /-- `CLIENT_UPLOAD_RECIPE_END` -/
  | uploadRecipeEnd
  | disconnect
  | openFile
  | writeFile (n : Nat)
  | closeFile
  | join
  | processOff (order : List (Fp × Fp))
  | getLocal
  | updatePair (old : Fp)
  | coldrevise
  | updateCold (containerName : ContainerName)
  | getMergeContainer
  | mergePair
  | endOffline

section Upload
variable (env : EnclaveEnv)

def stepUpload (s : Server) : UploadStage → Action → Option Server
  -- the scratch buffers hold chunks of `MAX_CHUNK_SIZE` bytes
  | .ready, .uploadChunk chunks heap left =>
    if ∀ chunk ∈ chunks, 1 ≤ chunk.length ∧ chunk.length ≤ MAX_CHUNK_SIZE then
      some { s with phase := .uploading (.chunkLoop (queryBatch env chunks heap left s)) }
    else none
  | .chunkLoop ⟨Local_Flag, x :: todo, done, process_buffer, batch_basemap⟩, .offlinedeltaTure =>
    let (x, pair, s) := OfflinedeltaTure Local_Flag x s
    let b : Batch := ⟨Local_Flag, todo, done, process_buffer, batch_basemap ++ pair.toList⟩
    some { s with phase := .uploading (.loaded x b) }
  | .loaded x b, .storeChunk =>
    let (x, pair, s) := storeChunk env x s
    let b := { b with
      done := b.done ++ [x], process_buffer := b.process_buffer ++ pair.toList }
    some { s with phase := .uploading (.chunkLoop b) }
  | .chunkLoop ⟨Local_Flag, [], done, process_buffer, batch_basemap⟩, .endBatch =>
    let b : Batch := ⟨Local_Flag, [], done, process_buffer, batch_basemap⟩
    some { finishBatch b s with phase := .uploading (.answered b) }
  | .answered b, .updateOutIndex =>
    some { Ocall_UpdateOutIndex b.done s with phase := .uploading .ready }
  | .ready, .uploadRecipeEnd =>
    some { ProcessTailBatch s with phase := .uploading .tailed }
  | .ready, .disconnect => some { closeSession s with phase := .draining }
  | .tailed, .disconnect => some { closeSession s with phase := .draining }
  | _, _ => none

end Upload

/-- `DataWriter::SaveToFile` on the head of the queue, in pieces. -/
def stepWriter (s : Server) : Action → Option Server
  | .openFile =>
    match s.writer, s.inputMQ with
    | none, c :: inputMQ =>
      some { s with inputMQ := inputMQ, writer := some (c, 0), files := s.files.insert c.path [] }
    | _, _ => none
  | .writeFile n =>
    match s.writer with
    | some (c, written) =>
      some { s with
        writer := some (c, min (written + n) c.body.length)
        files := s.files.insert c.path (c.body.take (written + n)) }
    | none => none
  | .closeFile =>
    match s.writer with
    | some (c, written) => if written = c.body.length then some { s with writer := none } else none
    | none => none
  | _ => none

def startOffline (order : List (Fp × Fp)) (s : Server) : Server :=
  let s := Init (Ocall_Localrevise order s)
  if s.Offline_Flag then { s with local_basemap := ∅, phase := .offline .update }
  else { s with local_map := [] }

section Offline
variable (env : EnclaveEnv)

def stepOffline (s : Server) : OfflineStage → Action → Option Server
  | .update, .getLocal =>
    if s.local_basemap.entries = [] ∧ s.local_map ≠ [] then some (Ocall_GetLocal s) else none
  | .update, .updatePair old => do
    let new ← s.local_basemap.lookup old
    let s ← Easy_update_pair env old new s
    return { s with local_basemap := s.local_basemap.erase old }
  | .update, .coldrevise =>
    if s.local_basemap.entries = [] ∧ s.local_map = [] then
      let s := if s.hot_container.buf.length ≠ 0 then Ocall_SavehotContainer s else s
      some { s with phase := .offline (.cold s.cold_map.keys) }
    else none
  | .cold names, .updateCold containerName =>
    if containerName ∈ names then do
      let s ← Update_cold_container containerName s
      return { s with phase := .offline (.cold (names.erase containerName)) }
    else none
  | .cold [], .getMergeContainer =>
    some { s with phase := .offline (.merge (baseMergePair (baseContainerList s))) }
  | .merge (p :: rest), .mergePair => do
    let s ← mergePair p s
    return { s with phase := .offline (.merge rest) }
  | .merge [], .endOffline => some { s with phase := .idle }
  | _, _ => none

/-- One action, where it can happen. -/
def stepAny (s : Server) (a : Action) : Option Server :=
  match s.phase with
  | .idle =>
    match a with
    | .startSession iv => some { startSession iv s with phase := .uploading .ready }
    | .processOff order => if greedyOrder s order then some (startOffline order s) else none
    | _ => none
  | .uploading stage => (stepUpload env s stage a).or (stepWriter s a)
  | .draining =>
    match a with
    | .join => if s.inputMQ = [] ∧ s.writer = none then some { s with phase := .idle } else none
    | _ => stepWriter s a
  | .offline stage => stepOffline env s stage a

/-- `con_times` is an `int`: a run that would take it past its range is not considered. -/
def step (s : Server) (a : Action) : Option Server :=
  (stepAny env s a).filter fun s => s.con_times < 2 ^ 31

/-- A server lifetime: the states that runs lead to from start-up. -/
def Reachable (s : Server) : Prop :=
  ∃ Forward_Flag Offline_Flag acts,
    runs (step env) (Server.start Forward_Flag Offline_Flag) acts = some s

end Offline

end ShieldReduce.Prototype
