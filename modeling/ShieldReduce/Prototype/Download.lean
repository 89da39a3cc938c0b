import ShieldReduce.Prototype.Backups
import ShieldReduce.Prototype.Chunker

/-!
# A file comes back

The client that downloads: `DataRetriever` takes the chunks out of the messages of a restore and hands
them to `RestoreWriter`. With the chunker, the recipe and the server between, what it writes is the
file that was uploaded.
-/

namespace ShieldReduce.Prototype
open Lib Store EDelta

section Client
variable (crypto : RecipeCrypto)

/-- What `DataRetriever` has pushed and counted. -/
structure DataRetriever where
  outputMQ : List ChunkData
  totalRecvChunkNum : UInt64

/-- The loop of `ProcessChunkBatch`; a chunk past the room of a `Chunk_t` is no chunk any more. -/
def retrieveChunks : Nat → Bytes → DataRetriever → Option DataRetriever
  | 0, _, s => some s
  | chunkNum + 1, decBuffer, s =>
    let chunkSize := (read32 decBuffer 0).toNat
    if hfits : chunkSize ≤ MAX_CHUNK_SIZE then
      let tmpChunk : ChunkData := ⟨readAt decBuffer 4 chunkSize, by rw [readAt_length]; exact hfits⟩
      retrieveChunks chunkNum (decBuffer.drop (4 + chunkSize))
        ⟨s.outputMQ ++ [tmpChunk], s.totalRecvChunkNum + 1⟩
    else none

def DataRetriever.ProcessChunkBatch (recvChunkBuf : RestoreMessage) (s : DataRetriever) :
    Option DataRetriever :=
  retrieveChunks recvChunkBuf.currentItemNum (crypto.SessionKeyDec recvChunkBuf.dataBuffer) s

/-- The receiving loop of `DataRetriever::Run`. -/
def retrieveLoop : List RestoreMessage → DataRetriever → Option DataRetriever
  | [], _ => none
  | recvChunkBuf :: rest, s =>
    match s.ProcessChunkBatch crypto recvChunkBuf with
    | none => none
    | some s =>
      match recvChunkBuf.messageType with
      | .SERVER_RESTORE_CHUNK => retrieveLoop rest s
      | .SERVER_RESTORE_FINAL => some s

/-- The `totalChunkNum` of a `FileRecipeHead_t`. -/
def headChunkNum (fileRecipeHead : FileRecipeHead) : UInt64 :=
  (read32 fileRecipeHead.val 8).toUInt64 + ((read32 fileRecipeHead.val 12).toUInt64 <<< 32)

/-- The chunks that `DataRetriever::Run` has pushed, unless it exits. -/
def DataRetriever.Run (fileRecipeHead : FileRecipeHead) (messages : List RestoreMessage) :
    Option (List ChunkData) :=
  match retrieveLoop crypto messages ⟨[], 0⟩ with
  | none => none
  | some s => if s.totalRecvChunkNum = headChunkNum fileRecipeHead then some s.outputMQ else none

/-- `RestoreWriter` on a chunk: what the output file has. -/
def RestoreWriter.process (newData : ChunkData) (outputFile : Bytes) : Option Bytes :=
  some (outputFile ++ newData.data)

/-- `DataRetriever` and `RestoreWriter::Run`. -/
def RestoreWriter.Run : Threads ChunkData Bytes → ThreadAction → Option (Threads ChunkData Bytes) :=
  threadStep RestoreWriter.process

end Client

section Server
variable (env : EnclaveEnv) (crypto : RecipeCrypto)

/-- The batches that the messages of an upload bring to `ProcessOneBatch`. -/
def receivedBatches (messages : List Message) : List (List Bytes) :=
  messages.filterMap fun message =>
    match message with
    | .CLIENT_UPLOAD_CHUNK currentItemNum dataBuffer =>
      some (recvChunks currentItemNum (crypto.SessionKeyDec dataBuffer))
    | .CLIENT_UPLOAD_RECIPE_END _ => none

/-- What `DataRetriever` gets from an idle server for a recipe file. -/
def download (sendChunkBatchSize sendRecipeBatchSize : Nat) (readRecipeBuf : Bytes)
    (value : RecipeEntry) (outQueryBase : Nat → Fp × RecipeEntry) (recipeFile : Bytes)
    (s : Server) : Option (List ChunkData) :=
  let (fileRecipeHead, recipes) := restoreRecipe crypto sendRecipeBatchSize readRecipeBuf recipeFile
  DataRetriever.Run crypto fileRecipeHead
    (restoreFile env crypto s.indexObj (requested s) sendChunkBatchSize value outQueryBase recipes)

end Server

section Retrieve
variable {crypto : RecipeCrypto}

/-- The chunks of a message. -/
theorem retrieveChunks_pack (batch : List ChunkData) (more : Bytes) (s : DataRetriever) :
    retrieveChunks batch.length (packChunks batch ++ more) s =
      some ⟨s.outputMQ ++ batch, s.totalRecvChunkNum + UInt64.ofNat batch.length⟩ := by
  induction batch generalizing s with
  | nil => simp [retrieveChunks]
  | cons chunk batch ih =>
    have hmax := chunk.fits
    have hsmall : MAX_CHUNK_SIZE < 2 ^ 32 := by decide
    have hsize : (UInt32.ofNat chunk.data.length).toNat = chunk.data.length := by
      rw [UInt32.toNat_ofNat', Nat.mod_eq_of_lt (by omega)]
    have hbuf : packChunks (chunk :: batch) ++ more =
        le32 (UInt32.ofNat chunk.data.length) ++ (chunk.data ++ (packChunks batch ++ more)) := by
      unfold packChunks packChunk
      simp
    have hread : (read32 (packChunks (chunk :: batch) ++ more) 0).toNat = chunk.data.length := by
      rw [← hsize]
      apply congrArg UInt32.toNat
      apply read32_of_slice
      rw [hbuf]
      exact @slice_mid [] (le32 _) _ 0 4 rfl rfl
    have hdata : readAt (packChunks (chunk :: batch) ++ more) 4 chunk.data.length = chunk.data := by
      rw [readAt_eq_slice]
      · rw [hbuf]
        exact slice_mid rfl rfl
      · rw [hbuf]
        simp
    have hdrop : (packChunks (chunk :: batch) ++ more).drop (4 + chunk.data.length) =
        packChunks batch ++ more := by
      rw [hbuf, ← List.append_assoc]
      apply List.drop_left'
      simp
    rw [List.length_cons]
    unfold retrieveChunks
    simp only [hread, hmax, ↓reduceDIte, hdata, hdrop]
    rw [ih]
    congr 2
    · rw [List.append_assoc]
      rfl
    · rw [UInt64.add_assoc, UInt64.ofNat_add, UInt64.add_comm 1]
      rfl

theorem ProcessChunkBatch_group (messageType : RestoreType) (batch : List ChunkData)
    (s : DataRetriever) :
    s.ProcessChunkBatch crypto (restoreMessage crypto messageType (batch.map ChunkData.data)) =
      some ⟨s.outputMQ ++ batch, s.totalRecvChunkNum + UInt64.ofNat batch.length⟩ := by
  have hpack : (batch.map ChunkData.data).flatMap packRestored = packChunks batch := by
    rw [List.flatMap_map]
    rfl
  have h := retrieveChunks_pack batch [] s
  rw [List.append_nil] at h
  unfold DataRetriever.ProcessChunkBatch restoreMessage
  dsimp only
  rw [hpack, crypto.SessionKeyDec_Enc, List.length_map]
  exact h

/-- All the messages of a restore. -/
theorem retrieveLoop_groups (groups : List (List ChunkData)) (last : List ChunkData)
    (s : DataRetriever) :
    retrieveLoop crypto
        ((groups.map (List.map ChunkData.data)).map (restoreMessage crypto .SERVER_RESTORE_CHUNK) ++
          [restoreMessage crypto .SERVER_RESTORE_FINAL (last.map ChunkData.data)]) s =
      some ⟨s.outputMQ ++ (groups.flatten ++ last),
        s.totalRecvChunkNum + UInt64.ofNat (groups.flatten ++ last).length⟩ := by
  induction groups generalizing s with
  | nil =>
    rw [List.map_nil, List.map_nil, List.nil_append]
    unfold retrieveLoop
    rw [ProcessChunkBatch_group]
    rfl
  | cons group groups ih =>
    rw [List.map_cons, List.map_cons, List.cons_append]
    unfold retrieveLoop
    rw [ProcessChunkBatch_group]
    refine (ih _).trans ?_
    simp only [List.flatten_cons, List.append_assoc, List.length_append, UInt64.ofNat_add,
      UInt64.add_assoc]

theorem headChunkNum_toBytes (recipeHead : RecipeHead) :
    headChunkNum recipeHead.toBytes = recipeHead.totalChunkNum := by
  have hlow : read32 recipeHead.toBytes.val 8 = recipeHead.totalChunkNum.toUInt32 := by
    apply read32_of_slice
    unfold RecipeHead.toBytes le64
    exact @slice_mid (le64 recipeHead.fileSize) (le32 _) _ 8 4 rfl rfl
  have hhigh : read32 recipeHead.toBytes.val 12 = (recipeHead.totalChunkNum >>> 32).toUInt32 := by
    apply read32_of_slice
    unfold RecipeHead.toBytes le64
    have h := @slice_mid (le64 recipeHead.fileSize ++ le32 recipeHead.totalChunkNum.toUInt32)
      (le32 (recipeHead.totalChunkNum >>> 32).toUInt32) [] 12 4 rfl rfl
    rw [List.append_nil, List.append_assoc] at h
    exact h
  unfold headChunkNum
  rw [hlow, hhigh]
  apply UInt64.toNat.inj
  have hlt := recipeHead.totalChunkNum.toNat_lt
  rw [UInt64.toNat_add, UInt64.toNat_shiftLeft, UInt32.toNat_toUInt64, UInt32.toNat_toUInt64,
    UInt64.toNat_toUInt32, UInt64.toNat_toUInt32, UInt64.toNat_shiftRight, Nat.shiftLeft_eq,
    Nat.shiftRight_eq_div_pow]
  change (_ + _ / 2 ^ 32 % 2 ^ 32 * 2 ^ 32 % 2 ^ 64) % 2 ^ 64 = _
  omega

/-- Pieces of a list of chunks, as the lists of bytes that they are sent as. -/
theorem exists_groups {chunks : List ChunkData} {groups : List (List Bytes)} {last : List Bytes}
    (h : groups.flatten ++ last = chunks.map ChunkData.data) :
    ∃ (gs : List (List ChunkData)) (l : List ChunkData), groups = gs.map (List.map ChunkData.data) ∧
      last = l.map ChunkData.data ∧ chunks = gs.flatten ++ l := by
  induction groups generalizing chunks with
  | nil => exact ⟨[], chunks, rfl, h, rfl⟩
  | cons group groups ih =>
    rw [List.flatten_cons, List.append_assoc] at h
    obtain ⟨front, back, rfl, hfront, hback⟩ := List.map_eq_append_iff.mp h.symm
    obtain ⟨gs, l, hgs, hl, rfl⟩ := ih hback.symm
    exact ⟨front :: gs, l, by rw [List.map_cons, hgs, hfront], hl, by simp⟩

end Retrieve

section Chunks
variable {ch : Chunker}

theorem chunkBuffer_fuel {buffer : Bytes} {len : Nat} {fileEnd : Bool} {fuel localOffset : Nat}
    {s : Chunking} {r : Nat × Chunking}
    (h : ch.chunkBuffer buffer len fileEnd fuel localOffset s = some r) (more : Nat) :
    ch.chunkBuffer buffer len fileEnd (fuel + more) localOffset s = some r := by
  induction fuel generalizing localOffset s with
  | zero => simp [Chunker.chunkBuffer] at h
  | succ fuel ih =>
    rw [Nat.succ_add]
    unfold Chunker.chunkBuffer at h ⊢
    by_cases hmore : len - localOffset ≥ ch.maxChunkSize.toNat ∨ (fileEnd ∧ localOffset < len)
    · rw [if_pos hmore] at h ⊢
      dsimp only at h ⊢
      split at h
      case isTrue hfits =>
        rw [dif_pos hfits]
        exact ih h
      case isFalse => simp at h
    · rw [if_neg hmore] at h ⊢
      exact h

theorem chunkFile_fuel {chunkingFile : ChunkingFile} {fuel totalOffset : Nat} {s s' : Chunking}
    (h : ch.chunkFile chunkingFile fuel totalOffset s = some s') (more : Nat) :
    ch.chunkFile chunkingFile (fuel + more) totalOffset s = some s' := by
  induction fuel generalizing totalOffset s with
  | zero => simp [Chunker.chunkFile] at h
  | succ fuel ih =>
    rw [Nat.succ_add]
    unfold Chunker.chunkFile at h ⊢
    dsimp only at h ⊢
    split at h
    case isTrue hempty =>
      rw [if_pos hempty]
      exact h
    case isFalse hsome =>
      rw [if_neg hsome]
      split at h
      · simp at h
      · next localOffset t hbuffer =>
        rw [chunkBuffer_fuel hbuffer more]
        dsimp only
        split at h
        case isTrue heof =>
          rw [if_pos heof]
          exact h
        case isFalse heof =>
          rw [if_neg heof]
          exact ih h

/-- What `FastCDC` pushes does not depend on the fuel. -/
theorem FastCDC_unique {chunkingFile : ChunkingFile} {fuel fuel' : Nat} {items items' : List Data}
    (h : ch.FastCDC chunkingFile fuel = some items)
    (h' : ch.FastCDC chunkingFile fuel' = some items') : items = items' := by
  unfold Chunker.FastCDC at h h'
  obtain ⟨s, hs, rfl⟩ := Option.map_eq_some_iff.mp h
  obtain ⟨s', hs', rfl⟩ := Option.map_eq_some_iff.mp h'
  have hboth := chunkFile_fuel hs fuel'
  rw [Nat.add_comm, chunkFile_fuel hs' fuel, Option.some.injEq] at hboth
  rw [hboth]

end Chunks

section Upload
variable {crypto : RecipeCrypto}

/-- The server receives the batches that the client has sent. -/
theorem receivedBatches_sendFile (sendChunkBatchSize : Nat) (chunks : List ChunkData)
    (recipeHead : FileRecipeHead) :
    (receivedBatches crypto (sendFile crypto sendChunkBatchSize chunks recipeHead)).flatten =
      chunks.map ChunkData.data := by
  have hall : ∀ groups : List (List ChunkData),
      (receivedBatches crypto (groups.map (chunkMessage crypto) ++
        [.CLIENT_UPLOAD_RECIPE_END recipeHead])).flatten =
          groups.flatten.map ChunkData.data := by
    intro groups
    induction groups with
    | nil => rfl
    | cons group groups ih =>
      have hgroup : recvChunks group.length (crypto.SessionKeyDec
          (crypto.SessionKeyEnc (packChunks group))) = group.map ChunkData.data := by
        have h := recvChunks_pack group []
        rw [List.append_nil] at h
        rw [crypto.SessionKeyDec_Enc, h]
      rw [List.flatten_cons, List.map_append, ← ih, ← hgroup]
      rfl
  rw [sendFile_eq, hall, batches_flatten]

/-- A batch that a run processes is part of what has been uploaded. -/
theorem mem_uploaded {acts : List Action} {batch : List Bytes} {heap : Fp → Bool}
    {left : Nat → RecipeEntry} (h : .uploadChunk batch heap left ∈ acts) {chunk : Bytes}
    (hchunk : chunk ∈ batch) : chunk ∈ uploaded acts :=
  List.mem_flatMap.mpr ⟨_, h, hchunk⟩

end Upload

section Restore
variable {env : EnclaveEnv} {crypto : RecipeCrypto} {index : Table Fp RecipeEntry}
  {load : ContainerName → Bytes} {sendChunkBatchSize : Nat}

theorem recipes_progress {recipes : List (List Fp)} {s : Restore} {done : List (Option Bytes)}
    (h : Progress env crypto index load ((s.requests, ∅), s.buffer) done) (value : RecipeEntry)
    (hknown : ∀ fp ∈ recipes.flatten, Prototype.restored env index load fp ≠ none) :
    let s' := recipes.foldl (ProcRecipeBatch env crypto index load sendChunkBatchSize value) s
    Progress env crypto index load ((s'.requests, ∅), s'.buffer)
      (done ++ recipes.flatten.map (Prototype.restored env index load)) := by
  induction recipes generalizing s done with
  | nil =>
    rw [List.flatten_nil, List.map_nil, List.append_nil]
    exact h
  | cons recipe recipes ih =>
    rw [List.flatten_cons] at hknown
    have hstep := @ProcRecipeBatch_progress env crypto index load sendChunkBatchSize s recipe done
      h value fun fp hfp => hknown fp (List.mem_append_left _ hfp)
    rw [List.flatten_cons, List.map_append, ← List.append_assoc]
    exact ih hstep fun fp hfp => hknown fp (List.mem_append_right _ hfp)

/-- The messages that a client gets for a recipe of chunks that the index has. -/
theorem restoreFile_groups {chunks : List ChunkData} {recipes : List (List Fp)}
    (value : RecipeEntry) (outQueryBase : Nat → Fp × RecipeEntry)
    (hrecipes : recipes.flatten = chunks.map fun chunk => env.GenerateHash chunk.data)
    (hrestored : ∀ chunk ∈ chunks,
      Prototype.restored env index load (env.GenerateHash chunk.data) = some chunk.data) :
    ∃ (groups : List (List ChunkData)) (last : List ChunkData), chunks = groups.flatten ++ last ∧
      restoreFile env crypto index load sendChunkBatchSize value outQueryBase recipes =
        (groups.map (List.map ChunkData.data)).map (restoreMessage crypto .SERVER_RESTORE_CHUNK) ++
          [restoreMessage crypto .SERVER_RESTORE_FINAL (last.map ChunkData.data)] := by
  have hall : recipes.flatten.map (Prototype.restored env index load) =
      (chunks.map ChunkData.data).map some := by
    rw [hrecipes, List.map_map, List.map_map]
    exact List.map_congr_left hrestored
  have hknown : ∀ fp ∈ recipes.flatten, Prototype.restored env index load fp ≠ none := by
    intro fp hfp
    rw [hrecipes] at hfp
    obtain ⟨chunk, hchunk, rfl⟩ := List.mem_map.mp hfp
    rw [hrestored chunk hchunk]
    exact Option.some_ne_none _
  have hstart : Progress env crypto index load
      (((startRestore outQueryBase).requests, ∅), (startRestore outQueryBase).buffer) [] := by
    refine ⟨.empty, [], rfl, ⟨mapOk_empty _, List.Forall₂.nil, ⟨[], List.Forall₂.nil, rfl⟩,
      Nat.zero_le _, ?_⟩, rfl⟩
    intro b hb
    simp [basesOf] at hb
  have hend := @recipes_progress env crypto index load sendChunkBatchSize _ _ _ hstart value hknown
  obtain ⟨groups, last, hflat, hsent⟩ := ProcRecipeTailBatch_spec hend
  rw [List.nil_append, hall] at hflat
  obtain ⟨gs, l, rfl, rfl, hchunks⟩ := exists_groups
    ((List.map_injective_iff.mpr (Option.some_injective _)) hflat)
  exact ⟨gs, l, hchunks, hsent⟩

/-- The client pushes the chunks, and their number is the one in the head. -/
theorem retrieve_groups {groups : List (List ChunkData)} {last : List ChunkData}
    {recipeHead : RecipeHead}
    (hnum : recipeHead.totalChunkNum.toNat = (groups.flatten ++ last).length) :
    DataRetriever.Run crypto recipeHead.toBytes
        ((groups.map (List.map ChunkData.data)).map (restoreMessage crypto .SERVER_RESTORE_CHUNK) ++
          [restoreMessage crypto .SERVER_RESTORE_FINAL (last.map ChunkData.data)]) =
      some (groups.flatten ++ last) := by
  have hcount : 0 + UInt64.ofNat (groups.flatten ++ last).length = recipeHead.totalChunkNum := by
    rw [← hnum, UInt64.zero_add, UInt64.ofNat_toNat]
  unfold DataRetriever.Run
  rw [retrieveLoop_groups, headChunkNum_toBytes]
  exact if_pos hcount

/-- Whatever the schedule, the output file has the chunks in their order. -/
theorem writer_writes {chunks : List ChunkData} {acts : List ThreadAction}
    {s : Threads ChunkData Bytes}
    (hrun : runs RestoreWriter.Run (startThreads chunks []) acts = some s)
    (hexit : s.point = .exited) : s.world = (chunks.map ChunkData.data).flatten := by
  have hfold : ∀ (chunks : List ChunkData) (outputFile : Bytes),
      chunks.foldlM (fun w data => RestoreWriter.process data w) outputFile =
        some (outputFile ++ (chunks.map ChunkData.data).flatten) := by
    intro chunks
    induction chunks with
    | nil =>
      intro outputFile
      simp
    | cons chunk chunks ih =>
      intro outputFile
      rw [List.foldlM_cons, List.map_cons, List.flatten_cons, ← List.append_assoc]
      exact ih _
  have hworld := (threads_exit hrun hexit).1
  rw [hfold, List.nil_append] at hworld
  exact (Option.some.inj hworld).symm

end Restore

section RoundTrip
variable {env : EnclaveEnv} {s : Server} {up down : RecipeCrypto}

/-- A session key is for one session, the master key for all. -/
theorem restoreRecipe_master (hmaster : down.DecryptWithKey = up.DecryptWithKey)
    (sendRecipeBatchSize : Nat) (readRecipeBuf recipeFile : Bytes) :
    restoreRecipe down sendRecipeBatchSize readRecipeBuf recipeFile =
      restoreRecipe up sendRecipeBatchSize readRecipeBuf recipeFile := by
  have hbatch : recipeBatch down = recipeBatch up := by
    funext recipeBuffer recipeNum
    unfold recipeBatch
    rw [hmaster]
  unfold restoreRecipe
  rw [hbatch]

/-- The chunker cuts every file, and a file that the sender has sent, at any schedule of the two
threads, is the file that the client writes when it downloads it, after any sessions and passes of
the server. -/
theorem download_returns {Forward_Flag Offline_Flag : Bool} {acts : List Action} {ch : Chunker}
    {sendChunkBatchSize restoreBatchSize sendRecipeBatchSize : Nat}
    (hread : ch.maxChunkSize ≤ ch.readSize) (hfits : ch.maxChunkSize.toNat ≤ MAX_CHUNK_SIZE)
    (hshort : ch.readSize.toNat < 2 ^ 32)
    (hrun : runs (step env) (Server.start Forward_Flag Offline_Flag) acts = some s)
    (hidle : s.phase = .idle)
    (horderly : StepsMeet (step env) (Orderly env) (Server.start Forward_Flag Offline_Flag) acts)
    (hrecover : ∀ chunk ∈ uploaded acts, Recoverable env chunk)
    (hinj : ∀ chunk ∈ uploaded acts, ∀ chunk' ∈ uploaded acts,
      env.GenerateHash chunk = env.GenerateHash chunk' → chunk = chunk')
    (hmaster : down.DecryptWithKey = up.DecryptWithKey) (hsize : 1 ≤ sendRecipeBatchSize)
    (chunkingFile : ChunkingFile) (virtualRecipeEnd : FileRecipeHead) (readRecipeBuf : Bytes)
    (value : RecipeEntry) (outQueryBase : Nat → Fp × RecipeEntry) :
    ∃ fuel items, ch.FastCDC chunkingFile fuel = some items ∧
      ∀ sending sent, runs (DataSender.Run up sendChunkBatchSize) (startThreads items ⟨[], 0, []⟩)
          sending = some sent → sent.point = .exited →
        (∀ batch ∈ receivedBatches up sent.world.sent,
          ∃ heap left, Action.uploadChunk batch heap left ∈ acts) →
        ∃ retrieved, download env down restoreBatchSize sendRecipeBatchSize readRecipeBuf value
            outQueryBase (uploadRecipe env up sendRecipeBatchSize virtualRecipeEnd sent.world.sent)
            s = some retrieved ∧
          ∀ writing t, runs RestoreWriter.Run (startThreads retrieved []) writing = some t →
            t.point = .exited → t.world = chunkingFile.data := by
  -- what the chunker pushes
  obtain ⟨fuel, chunks, recipeHead, hpushed, hchunked⟩ :=
    (chunks_iff hread chunkingFile).mpr ⟨by omega, eachCut_of_max hfits _⟩
  refine ⟨fuel, _, hpushed, fun sending sent hsend hexit hreceived => ?_⟩
  -- what the sender has sent
  have hmessages := sender_sends up sendChunkBatchSize hsend hexit
  rw [hmessages] at hreceived ⊢
  have huploaded : ∀ chunk ∈ chunks, chunk.data ∈ uploaded acts := by
    intro chunk hchunk
    have hmem : chunk.data ∈ (receivedBatches up (sendFile up sendChunkBatchSize chunks
        recipeHead.toBytes)).flatten := by
      rw [receivedBatches_sendFile]
      exact List.mem_map_of_mem hchunk
    obtain ⟨batch, hbatch, hdata⟩ := List.mem_flatten.mp hmem
    obtain ⟨heap, left, hact⟩ := hreceived batch hbatch
    exact mem_uploaded hact hdata
  -- what the server has kept
  obtain ⟨val, hval⟩ := exists_values hinj
  obtain ⟨R, Lost, hkept⟩ := kept_runs (Kept.start Forward_Flag Offline_Flag) horderly hrun
    (fun _ hc => hc) fun chunk hc => ⟨hrecover chunk hc, hval chunk hc⟩
  have hrestored : ∀ chunk ∈ chunks, Prototype.restored env s.indexObj (requested s)
      (env.GenerateHash chunk.data) = some chunk.data := by
    intro chunk hchunk
    have hmem := huploaded chunk hchunk
    rw [hkept.sent hidle (List.mem_append_right [] hmem), hval _ hmem]
  -- what the client gets
  have hrecipe : restoreRecipe down sendRecipeBatchSize readRecipeBuf
      (uploadRecipe env up sendRecipeBatchSize virtualRecipeEnd
        (sendFile up sendChunkBatchSize chunks recipeHead.toBytes)) = (recipeHead.toBytes,
          batches sendRecipeBatchSize (chunks.map fun chunk => env.GenerateHash chunk.data)) := by
    rw [restoreRecipe_master hmaster, uploadRecipe_eq]
    exact restoreRecipe_cut recipeHead.toBytes (batches_cut hsize _) readRecipeBuf
  obtain ⟨groups, last, hchunks, hsends⟩ := @restoreFile_groups env down s.indexObj (requested s)
    restoreBatchSize chunks _ value outQueryBase (batches_flatten sendRecipeBatchSize _) hrestored
  refine ⟨chunks, ?_, ?_⟩
  · unfold download
    rw [hrecipe]
    dsimp only
    rw [hsends, hchunks]
    apply retrieve_groups
    rw [hchunked.totalChunkNum, hchunks]
  · intro writing t hwriting hdone
    rw [writer_writes hwriting hdone]
    exact hchunked.joined

end RoundTrip

section Instance

/-- Whether the consumer has left its loop. -/
def RunPoint.left {T : Type} : RunPoint T → Bool
  | .exited => true
  | _ => false

theorem RunPoint.of_left {T : Type} {point : RunPoint T} (h : point.left = true) :
    point = .exited := by
  cases point with
  | exited => rfl
  | _ => exact Bool.noConfusion h

/-- A chunker for very small chunks. -/
def smallChunker : Chunker := ⟨16, 8, 24, 32, 4, by decide, by decide⟩

/-- It cuts this file into two chunks. -/
def smallFile : ChunkingFile :=
  ⟨List.replicate 20 3 ++ [7, 1, 9, 30, 2, 200, 13, 77, 4, 4, 4, 4], by decide⟩

def firstCut : Bytes := List.replicate 20 3 ++ [7, 1]
def secondCut : Bytes := [9, 30, 2, 200, 13, 77, 4, 4, 4, 4]

/-- The sender starts when everything has been pushed. -/
def sendAfterwards : List ThreadAction :=
  List.replicate 3 (.push true) ++ .setDone :: List.replicate 19 .consume

/-- The session with that file, and another one. -/
def smallBackup : List Action :=
  [[.startSession (FixedBytes.fill 16 0)], uploadBatch [firstCut] 1, uploadBatch [secondCut] 1,
    [.uploadRecipeEnd, .disconnect], saveOne, [.join, .startSession (FixedBytes.fill 16 5)],
    uploadBatch [plainBase, firstCut] 1, [.uploadRecipeEnd, .disconnect], saveOne, [.join]].flatten

/-- Another session key. -/
def laterCrypto : RecipeCrypto :=
  { xorCrypto with
    SessionKeyEnc := xorFrom 9
    SessionKeyDec := xorFrom 9
    SessionKeyDec_Enc := xorFrom_xorFrom 9 }

theorem download_returns_small : ∃ sent s retrieved,
    runs (step firstByteEnv) (Server.start false true) smallBackup = some s ∧
    download firstByteEnv laterCrypto 2 1 [] emptyEntry (fun _ => (FixedBytes.fill 32 0, emptyEntry))
        (uploadRecipe firstByteEnv xorCrypto 1 (FixedBytes.fill 16 0) sent) s = some retrieved ∧
    ∀ writing t, runs RestoreWriter.Run (startThreads retrieved []) writing = some t →
      t.point = .exited → t.world = smallFile.data := by
  have hclient : ((smallChunker.FastCDC smallFile 20).bind fun items =>
      (runs (DataSender.Run xorCrypto 1) (startThreads items ⟨[], 0, []⟩) sendAfterwards).map
        fun sent => (sent.point.left, receivedBatches xorCrypto sent.world.sent)) =
          some (true, [[firstCut], [secondCut]]) := by
    decide +kernel
  obtain ⟨items, hcut, hclient⟩ := Option.bind_eq_some_iff.mp hclient
  obtain ⟨sent, hsend, heq⟩ := Option.map_eq_some_iff.mp hclient
  obtain ⟨hleft, hbatches⟩ := Prod.mk.inj heq
  have hphase : ((runs (step firstByteEnv) (Server.start false true) smallBackup).map
      Server.phase) = some .idle := by
    decide +kernel
  obtain ⟨s, hs, hidle⟩ := Option.map_eq_some_iff.mp hphase
  have horderly : StepsMeet (step firstByteEnv) (Orderly firstByteEnv) (Server.start false true)
      smallBackup := by
    decide +kernel
  have hraw : ∀ chunk ∈ uploaded smallBackup,
      LZ4_decompress_safe chunk MAX_CHUNK_SIZE = none := by
    decide +kernel
  have hinj : ∀ chunk ∈ uploaded smallBackup, ∀ chunk' ∈ uploaded smallBackup,
      firstByteEnv.GenerateHash chunk = firstByteEnv.GenerateHash chunk' → chunk = chunk' := by
    decide +kernel
  have hreceived : ∀ batch ∈ receivedBatches xorCrypto sent.world.sent,
      ∃ heap left, Action.uploadChunk batch heap left ∈ smallBackup := by
    rw [hbatches]
    intro batch hbatch
    refine ⟨fun _ => false, fun _ => emptyEntry, ?_⟩
    rcases List.mem_pair.mp hbatch with rfl | rfl
    · simp [smallBackup, uploadBatch]
    · simp [smallBackup, uploadBatch]
  have hrecover : ∀ chunk ∈ uploaded smallBackup, Recoverable firstByteEnv chunk := by
    intro chunk hc _ out hout
    rw [hraw chunk hc] at hout
    simp at hout
  obtain ⟨fuel, items', hcut', hreturns⟩ := @download_returns firstByteEnv s xorCrypto laterCrypto
    _ _ _ smallChunker 1 2 1 (by decide) (by decide) (by decide) hs hidle horderly hrecover hinj rfl
    (by decide) smallFile (FixedBytes.fill 16 0) [] emptyEntry
    (fun _ => (FixedBytes.fill 32 0, emptyEntry))
  rw [FastCDC_unique hcut' hcut] at hreturns
  obtain ⟨retrieved, hdownload, hwritten⟩ :=
    hreturns sendAfterwards sent hsend (RunPoint.of_left hleft) hreceived
  exact ⟨sent.world.sent, s, retrieved, hs, hdownload, hwritten⟩

end Instance

end ShieldReduce.Prototype
