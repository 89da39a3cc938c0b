import Mathlib.Data.List.Sort
import ShieldReduce.Prototype.Upload

/-!
# The offline pass

`Ocall_Localrevise`, then `OFFLineBackward::Easy_update`: one pending pair (old base, new base)
after the other, the compaction of the containers that lost records, and `MergeContainer`. A
result `none` stands for a container or an index entry that is not there, where the code would go
on with whatever its buffers held.
-/

namespace ShieldReduce.Prototype
open Lib Store EDelta

section Localrevise

/-- `local_greedy_basemap`: every pending old base, and every superseded new base, with the last
new base. -/
def local_greedy_basemap (s : Server) : Table Fp Fp :=
  s.local_tmp_map.entries.foldl (fun greedy p =>
    (Table.vec s.skipMap p.1).foldl (fun greedy superseded => greedy.insert superseded p.2)
      (greedy.insert p.1 p.2)) ∅

def deltachunk_num (s : Server) (old : Fp) : Nat := (Table.vec s.delta_index old).length

/-- `order` is a result of the sort: the pairs in some order that `myGreedyCompare` accepts. -/
def greedyOrder (s : Server) (order : List (Fp × Fp)) : Prop :=
  order.Perm ((local_greedy_basemap s).entries.map fun p => (p.1, p.2)) ∧
    order.Pairwise fun p q => deltachunk_num s p.1 ≤ deltachunk_num s q.1

instance (s : Server) (order : List (Fp × Fp)) : Decidable (greedyOrder s order) :=
  inferInstanceAs (Decidable (_ ∧ _))

def Ocall_Localrevise (order : List (Fp × Fp)) (s : Server) : Server :=
  { s with local_map := s.local_map ++ order, local_tmp_map := ∅, skipMap := ∅ }

/-- `OFFLineBackward::Init` -/
def Init (s : Server) : Server :=
  { s with
    hot_container := ⟨CreateUUID s.con_times, [], []⟩
    con_times := s.con_times + 1
    offlineCurrBackup_size := s.onlineBackupSize }

def Local_Batch : Nat := 100

/-- `Ocall_GetLocal` and the copy of its pairs to `local_basemap`. -/
def Ocall_GetLocal (s : Server) : Server :=
  let num := min s.local_map.length Local_Batch
  { s with
    local_basemap := (s.local_map.reverse.take num).foldl (fun m p => m.insert p.1 p.2) ∅
    local_map := s.local_map.take (s.local_map.length - num) }

end Localrevise

section Hot

def Ocall_SavehotContainer (s : Server) : Server :=
  { s with files := s.files.insert (true, s.hot_container.containerID) s.hot_container.buf }

def InsertHot_container (content : Bytes) (recipe : RecipeEntry) (fp : Fp) (sf : SuperFeature)
    (iv : IV) (s : Server) : Server × RecipeEntry :=
  let s :=
    if recordFits content s.hot_container.buf.length then s
    else
      let s := Ocall_SavehotContainer s
      { s with hot_container := ⟨CreateUUID s.con_times, [], []⟩, con_times := s.con_times + 1 }
  let c := s.hot_container
  let recipe := { recipe with
    offset := UInt32.ofNat c.buf.length, deltaFlag := DELTA, containerName := c.containerID }
  let r : ChunkRecord := ⟨recipe, fp, sf, content, iv⟩
  ({ s with hot_container := { c with buf := c.buf ++ r.toBytes } }, recipe)

end Hot

section Pair
variable (env : EnclaveEnv)

/-- `Ocall_OneContainer` at `false`, `Ocall_OneDeltaContainer` at `true`. -/
def oneContainer (d : Bool) (containerName : ContainerName) (s : Server) : Option Server :=
  (s.files.lookup (d, containerName)).map (readContainer s)

def Ocall_OneContainer : ContainerName → Server → Option Server := oneContainer false

def Ocall_OneDeltaContainer : ContainerName → Server → Option Server := oneContainer true

/-- The extent of a record, as `GetChunk_content_buffer` returns it. -/
def coldExtent (recipe : RecipeEntry) : UInt32 × UInt32 :=
  (recipe.offset, recipe.length + UInt32.ofNat RECORD_OVERHEAD)

def Ocall_ColdInsert (containerName : ContainerName) (extent : UInt32 × UInt32) (s : Server) :
    Server :=
  { s with cold_map := Table.push s.cold_map containerName extent }

/-- A chunk of `old_size` stored bytes is stored in `new_size` from now on. -/
def accountSize (old_size new_size : Nat) (s : Server) : Server :=
  { s with offlineCurrBackup_size :=
      s.offlineCurrBackup_size - UInt64.ofNat old_size + UInt64.ofNat new_size }

/-- The record of `chunkHash` becomes a delta against `newBase`, stored in the hot container. -/
def storeHot (chunkHash newBase : Fp) (recipe : RecipeEntry) (new_delta : Bytes) (fp : Fp)
    (sf : SuperFeature) (iv : IV) (s : Server) : Server :=
  let content := env.EncryptWithKeyIV iv new_delta
  let (s, newRecipe) := InsertHot_container content
    { recipe with length := UInt32.ofNat new_delta.length, basechunkHash := newBase } fp sf iv s
  let s := UpdateIndexStore s chunkHash newRecipe
  let s := Ocall_UpdateDeltaIndex s [(newBase, chunkHash)]
  Ocall_ColdInsert recipe.containerName (coldExtent recipe) s

/-- One dependent of the old base; the flag is `tmp_delta_flag`. -/
def updateDependent (old_chunk new_chunk : Bytes) (newBase deltaHash : Fp) (s : Server) :
    Option (Server × Bool) := do
  let delta_recipe ← s.indexObj.lookup deltaHash
  let s ← Ocall_OneDeltaContainer delta_recipe.containerName s
  let delta_container := s.tmpOcallcontainer
  let delta_iv := getChunkIV delta_container delta_recipe
  let delta_chunk_content :=
    env.DecryptionWithKeyIV delta_iv (getChunkContent delta_container delta_recipe)
  let old_unique_chunk := EDeltaDecode delta_chunk_content old_chunk
  let new_delta_chunk := EDeltaEncode env.edelta old_unique_chunk new_chunk
  if old_unique_chunk.length < new_delta_chunk.length then return (s, false)
  else
    let s := accountSize delta_recipe.length.toNat new_delta_chunk.length s
    return (storeHot env deltaHash newBase delta_recipe new_delta_chunk
      (getChunkFP delta_container delta_recipe) (getChunkSF delta_container delta_recipe)
      delta_iv s, true)

/-- The dependents one after the other; `delta_flag` is lost with the first that fails. -/
def updateDependents (old_chunk new_chunk : Bytes) (newBase : Fp) :
    List Fp → Bool → Server → Option (Server × Bool)
  | [], delta_flag, s => some (s, delta_flag)
  | deltaHash :: rest, delta_flag, s => do
    let (s, tmp_delta_flag) ← updateDependent env old_chunk new_chunk newBase deltaHash s
    updateDependents old_chunk new_chunk newBase rest (delta_flag && tmp_delta_flag) s

/-- The old base itself, once its dependents are done. -/
def updateOldBase (old new : Fp) (old_recipe : RecipeEntry) (old_iv : IV)
    (old_chunk new_chunk : Bytes) (delta_flag : Bool) (s : Server) : Server :=
  let new_delta := EDeltaEncode env.edelta old_chunk new_chunk
  if old_chunk.length < new_delta.length then s
  else
    let s := accountSize old_recipe.length.toNat new_delta.length s
    if delta_flag then
      storeHot env old new old_recipe new_delta old old_recipe.superfeature old_iv s
    else s

/-- The branch of a pair whose backup has shrunk to nothing; `GREEDY_THRESHOLD` is 0. -/
def greedyPair (old new : Fp) (s : Server) : Option Server := do
  let old_recipe ← s.indexObj.lookup old
  let s := EraseSF s old_recipe.superfeature
  let new_recipe ← s.indexObj.lookup new
  let s := ReplaceSF s new_recipe.superfeature new
  return (QueryDeltaIndex s old).2

/-- A missing container file skips the pair. -/
def updatePair (old new : Fp) (s : Server) : Option Server := do
  let old_recipe ← s.indexObj.lookup old
  match Ocall_OneContainer old_recipe.containerName s with
  | none => return s
  | some s =>
    let old_container := s.tmpOcallcontainer
    let s := EraseSF s old_recipe.superfeature
    let new_recipe ← s.indexObj.lookup new
    match Ocall_OneContainer new_recipe.containerName s with
    | none => return s
    | some s =>
      let new_container := s.tmpOcallcontainer
      let s := ReplaceSF s new_recipe.superfeature new
      let old_iv := getChunkIV old_container old_recipe
      let old_chunk := offlineExpand env old_iv (getChunkContent old_container old_recipe)
      let new_chunk := offlineExpand env (getChunkIV new_container new_recipe)
        (getChunkContent new_container new_recipe)
      let (dependents, s) := QueryDeltaIndex s old
      let (s, delta_flag) ←
        updateDependents env old_chunk new_chunk new dependents true s
      return updateOldBase env old new old_recipe old_iv old_chunk new_chunk delta_flag s

/-- The body of the loop over `local_basemap`. -/
def Easy_update_pair (old new : Fp) (s : Server) : Option Server :=
  if s.offlineCurrBackup_size = 0 then greedyPair old new s else updatePair env old new s

end Pair

section Cold

/-- Where the walk over a cold container stands. -/
structure ColdWalk where
  saveset : Nat
  coldset : Nat
  Cold_new_container : Bytes
  indexObj : Table Fp RecipeEntry

/-- Copies the record at `saveset`, its embedded entry moved down by `coldset`. -/
def copyRecord (cold_container : Bytes) (w : ColdWalk) : ColdWalk :=
  let tmpRecipe := RecipeEntry.read cold_container w.saveset
  let tmpHash := FixedBytes.read 32 cold_container (w.saveset + RECIPE_ENTRY_SIZE)
  let tmpRecipe := { tmpRecipe with offset := tmpRecipe.offset - UInt32.ofNat w.coldset }
  let rest := tmpRecipe.length.toNat + 4 * CHUNK_HASH_SIZE + CRYPTO_BLOCK_SIZE
  { w with
    saveset := w.saveset + RECIPE_ENTRY_SIZE + rest
    Cold_new_container := w.Cold_new_container ++ tmpRecipe.toBytes ++
      readAt cold_container (w.saveset + RECIPE_ENTRY_SIZE) rest
    indexObj := w.indexObj.insert tmpHash tmpRecipe }

/-- `while (saveset < stop)`; every pass moves `saveset`, so `stop` passes suffice. -/
def copyUntil (cold_container : Bytes) (stop : Nat) : Nat → ColdWalk → ColdWalk
  | 0, w => w
  | fuel + 1, w =>
    if w.saveset < stop then copyUntil cold_container stop fuel (copyRecord cold_container w) else w

/-- One deleted extent: the records before it are kept. -/
def skipExtent (cold_container : Bytes) (w : ColdWalk) (extent : UInt32 × UInt32) : ColdWalk :=
  let w := copyUntil cold_container extent.1.toNat extent.1.toNat w
  { w with coldset := w.coldset + extent.2.toNat, saveset := w.saveset + extent.2.toNat }

/-- `Ocall_OneColdContainer`: the directory the file is in, and the file. -/
def Ocall_OneColdContainer (containerName : ContainerName) (s : Server) : Option (Bool × Bytes) :=
  match s.files.lookup (true, containerName) with
  | some body => some (true, body)
  | none => (s.files.lookup (false, containerName)).map fun body => (false, body)

def Update_cold_container (containerName : ContainerName) (s : Server) : Option Server := do
  let (d, body) ← Ocall_OneColdContainer containerName s
  let s := readContainer s body
  let Cold_container_size := body.length
  let cold_basechunk :=
    (Table.vec s.cold_map containerName).insertionSort fun a b => a.1.toNat ≤ b.1.toNat
  let w := cold_basechunk.foldl (skipExtent s.tmpOcallcontainer) ⟨0, 0, [], s.indexObj⟩
  let w := copyUntil s.tmpOcallcontainer Cold_container_size Cold_container_size w
  let Cold_new_size := Cold_container_size - w.coldset
  return { s with
    indexObj := w.indexObj
    files := s.files.insert (d, containerName) (readAt w.Cold_new_container 0 Cold_new_size)
    cold_map := s.cold_map.erase containerName }

end Cold

section Merge

/-- The sorted `Base-Containers/` with the sizes of its files. -/
def baseContainerList (s : Server) : List (ContainerName × Nat) :=
  ((s.files.entries.filter fun p => p.1.1 = false).map fun p => (p.1.2, p.2.length)).insertionSort
    fun a b => a.1.val ≤ b.1.val

/-- Neighbours that fit in one container; a container is in at most one pair. -/
def baseMergePair : List (ContainerName × Nat) → List (ContainerName × ContainerName)
  | a :: b :: rest =>
    if a.2 + b.2 < MAX_CONTAINER_SIZE - 1 then (a.1, b.1) :: baseMergePair rest
    else baseMergePair (b :: rest)
  | _ => []

/-- The records of the second container, moved behind those of the first. -/
structure MergeWalk where
  offset : Nat
  containerBuffer : Bytes
  indexObj : Table Fp RecipeEntry

def mergeRecord (containerID : ContainerName) (firstContainerSize : Nat) (second : Bytes)
    (w : MergeWalk) : MergeWalk :=
  let tmpRecipe := RecipeEntry.read second w.offset
  let tmpRecipe := { tmpRecipe with
    offset := tmpRecipe.offset + UInt32.ofNat firstContainerSize, containerName := containerID }
  let tmpHash := FixedBytes.read 32 second (w.offset + RECIPE_ENTRY_SIZE)
  let rest := tmpRecipe.length.toNat + 4 * CHUNK_HASH_SIZE + CRYPTO_BLOCK_SIZE
  { w with
    offset := w.offset + RECIPE_ENTRY_SIZE + rest
    containerBuffer := w.containerBuffer ++ tmpRecipe.toBytes ++
      readAt second (w.offset + RECIPE_ENTRY_SIZE) rest
    indexObj := w.indexObj.insert tmpHash tmpRecipe }

def mergeRecords (containerID : ContainerName) (firstContainerSize : Nat) (second : Bytes) :
    Nat → MergeWalk → MergeWalk
  | 0, w => w
  | fuel + 1, w =>
    if w.offset < second.length then
      mergeRecords containerID firstContainerSize second fuel
        (mergeRecord containerID firstContainerSize second w)
    else w

/-- `Ocall_GetMergePair`, the loop over the second container and `Ocall_MergeContent`. -/
def mergePair (p : ContainerName × ContainerName) (s : Server) : Option Server := do
  let first ← s.files.lookup (false, p.1)
  let second ← s.files.lookup (false, p.2)
  let w := mergeRecords p.1 first.length second second.length ⟨0, [], s.indexObj⟩
  let content := readAt w.containerBuffer 0 second.length
  return { s with
    indexObj := w.indexObj
    files := (s.files.insert (false, p.1) (first ++ content)).erase (false, p.2) }

end Merge

end ShieldReduce.Prototype
