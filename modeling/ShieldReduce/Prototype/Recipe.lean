import ShieldReduce.Lib.Batches
import ShieldReduce.Store.Chunk

/-!
# The recipe of a file

From the chunks that the client sends in batches, over the fingerprints that the enclave encrypts in
batches of its own, to the batches that `EnclaveRecvDecoder::Run` reads back.
-/

namespace ShieldReduce.Prototype
open Lib Store EDelta

/-- The ciphers of a client's session, under its session key and its master key. Each call starts a
keystream of its own. -/
structure RecipeCrypto where
  SessionKeyEnc : Bytes → Bytes
  SessionKeyDec : Bytes → Bytes
  EncryptWithKey : Bytes → Bytes
  DecryptWithKey : Bytes → Bytes
  SessionKeyDec_Enc : ∀ b, SessionKeyDec (SessionKeyEnc b) = b
  DecryptWithKey_Encrypt : ∀ b, DecryptWithKey (EncryptWithKey b) = b
  EncryptWithKey_length : ∀ b, (EncryptWithKey b).length = b.length

/-- `Chunk_t` -/
structure ChunkData where
  data : Bytes
  fits : data.length ≤ MAX_CHUNK_SIZE

/-- `FileRecipeHead_t` -/
abbrev FileRecipeHead := FixedBytes 16

inductive Message
  | CLIENT_UPLOAD_CHUNK (currentItemNum : Nat) (dataBuffer : Bytes)
  | CLIENT_UPLOAD_RECIPE_END (recipeHead : FileRecipeHead)

section Client
variable (crypto : RecipeCrypto) (sendChunkBatchSize : Nat)

/-- The send buffer of `DataSender`, and what it has sent. -/
structure Sender where
  dataBuffer : Bytes
  currentItemNum : Nat
  sent : List Message

def SendChunks (s : Sender) : Sender where
  dataBuffer := []
  currentItemNum := 0
  sent := s.sent ++ [.CLIENT_UPLOAD_CHUNK s.currentItemNum (crypto.SessionKeyEnc s.dataBuffer)]

/-- A chunk in a message: its size, then its data. -/
def packChunk (inputChunk : ChunkData) : Bytes :=
  le32 (UInt32.ofNat inputChunk.data.length) ++ inputChunk.data

def ProcessChunk (s : Sender) (inputChunk : ChunkData) : Sender :=
  let s := { s with
    dataBuffer := s.dataBuffer ++ packChunk inputChunk
    currentItemNum := s.currentItemNum + 1 }
  if s.currentItemNum % sendChunkBatchSize = 0 then SendChunks crypto s else s

def ProcessRecipeEnd (recipeHead : FileRecipeHead) (s : Sender) : List Message :=
  let s := if s.currentItemNum ≠ 0 then SendChunks crypto s else s
  s.sent ++ [.CLIENT_UPLOAD_RECIPE_END recipeHead]

/-- `DataSender::Run` on the chunks of a file. -/
def sendFile (chunks : List ChunkData) (recipeHead : FileRecipeHead) : List Message :=
  ProcessRecipeEnd crypto recipeHead
    (chunks.foldl (ProcessChunk crypto sendChunkBatchSize) ⟨[], 0, []⟩)

end Client

section Server
variable (env : EnclaveEnv) (crypto : RecipeCrypto) (sendRecipeBatchSize : Nat)

def fpBytes (fps : List Fp) : Bytes := fps.flatMap fun fp => fp.val

/-- `_inRecipe`, and what has been written to the recipe file. -/
structure RecipeUpload where
  entryFpList : List Fp
  recipeFile : Bytes

/-- The encryption of `_inRecipe`, and `Ocall_UpdateFileRecipe`. -/
def sendRecipe (s : RecipeUpload) : RecipeUpload where
  entryFpList := []
  recipeFile := s.recipeFile ++ crypto.EncryptWithKey (fpBytes s.entryFpList)

def UpdateFileRecipe (s : RecipeUpload) (FP : Fp) : RecipeUpload :=
  let s := { s with entryFpList := s.entryFpList ++ [FP] }
  if s.entryFpList.length % sendRecipeBatchSize = 0 then sendRecipe crypto s else s

/-- The chunks that `ProcessOneBatch` finds in its receive buffer. -/
def recvChunks : Nat → Bytes → List Bytes
  | 0, _ => []
  | chunkNum + 1, recvBuffer =>
    let chunkSize := (read32 recvBuffer 0).toNat
    readAt recvBuffer 4 chunkSize :: recvChunks chunkNum (recvBuffer.drop (4 + chunkSize))

/-- What the messages of a client do to its recipe. -/
def receive (s : RecipeUpload) : Message → RecipeUpload
  | .CLIENT_UPLOAD_CHUNK currentItemNum dataBuffer =>
    ((recvChunks currentItemNum (crypto.SessionKeyDec dataBuffer)).map env.GenerateHash).foldl
      (UpdateFileRecipe crypto sendRecipeBatchSize) s
  | .CLIENT_UPLOAD_RECIPE_END recipeHead =>
    -- `ProcessTailBatch`, then `FinalizeRecipe`
    let s := if s.entryFpList.length ≠ 0 then sendRecipe crypto s else s
    { s with recipeFile := memcpy s.recipeFile 0 recipeHead.val }

/-- The recipe file after an upload; `ClientVar` starts it with a head that is not set. -/
def uploadRecipe (virtualRecipeEnd : FileRecipeHead) (messages : List Message) : Bytes :=
  (messages.foldl (receive env crypto sendRecipeBatchSize) ⟨[], virtualRecipeEnd.val⟩).recipeFile

end Server

section Restore
variable (crypto : RecipeCrypto) (sendRecipeBatchSize : Nat)

/-- The fingerprints that `ProcRecipeBatch` decrypts. -/
def recipeBatch (recipeBuffer : Bytes) (recipeNum : Nat) : List Fp :=
  let tmpFpBuffer := crypto.DecryptWithKey (readAt recipeBuffer 0 (recipeNum * CHUNK_HASH_SIZE))
  (List.range recipeNum).map fun i => FixedBytes.read 32 tmpFpBuffer (i * CHUNK_HASH_SIZE)

/-- The head that the login reads, and the batches that `EnclaveRecvDecoder::Run` hands to
`ProcRecipeBatch`. -/
def restoreRecipe (readRecipeBuf recipeFile : Bytes) : FileRecipeHead × List (List Fp) :=
  let (recipeHead, f) := (InFile.mk recipeFile false).read [] 16
  (FixedBytes.read 16 recipeHead 0,
    (f.pieces (CHUNK_HASH_SIZE * sendRecipeBatchSize) readRecipeBuf).map fun recipeBuffer =>
      recipeBatch crypto recipeBuffer (recipeBuffer.length / CHUNK_HASH_SIZE))

end Restore

section Client
variable {crypto : RecipeCrypto} {sendChunkBatchSize : Nat}

def packChunks (chunks : List ChunkData) : Bytes := chunks.flatMap packChunk

def chunkMessage (crypto : RecipeCrypto) (batch : List ChunkData) : Message :=
  .CLIENT_UPLOAD_CHUNK batch.length (crypto.SessionKeyEnc (packChunks batch))

/-- The sender that has taken what a batcher has. -/
def senderOf (crypto : RecipeCrypto) (b : Batcher ChunkData) : Sender where
  dataBuffer := packChunks b.buffer
  currentItemNum := b.buffer.length
  sent := b.sent.map (chunkMessage crypto)

theorem senderOf_push (b : Batcher ChunkData) (chunk : ChunkData) :
    ProcessChunk crypto sendChunkBatchSize (senderOf crypto b) chunk =
      senderOf crypto (b.push sendChunkBatchSize chunk) := by
  have hpack : packChunks (b.buffer ++ [chunk]) = packChunks b.buffer ++ packChunk chunk := by
    unfold packChunks
    rw [List.flatMap_append, List.flatMap_singleton]
  have hlen : (b.buffer ++ [chunk]).length = b.buffer.length + 1 := by simp
  unfold ProcessChunk Batcher.push senderOf SendChunks
  dsimp only
  rw [hlen, ← hpack]
  split
  · rw [List.map_append, List.map_singleton]
    unfold chunkMessage
    rw [hlen]
    rfl
  · rw [hlen]

/-- The client sends the batches of its chunks, then the head. -/
theorem sendFile_eq (chunks : List ChunkData) (recipeHead : FileRecipeHead) :
    sendFile crypto sendChunkBatchSize chunks recipeHead =
      (batches sendChunkBatchSize chunks).map (chunkMessage crypto) ++
        [.CLIENT_UPLOAD_RECIPE_END recipeHead] := by
  have hfold : ∀ (chunks : List ChunkData) (b : Batcher ChunkData),
      chunks.foldl (ProcessChunk crypto sendChunkBatchSize) (senderOf crypto b) =
        senderOf crypto (chunks.foldl (Batcher.push sendChunkBatchSize) b) := by
    intro chunks
    induction chunks with
    | nil => exact fun _ => rfl
    | cons chunk chunks ih =>
      intro b
      rw [List.foldl_cons, List.foldl_cons, senderOf_push]
      exact ih _
  have hstart : (⟨[], 0, []⟩ : Sender) = senderOf crypto .empty := rfl
  unfold sendFile ProcessRecipeEnd batches Batcher.finish
  rw [hstart, hfold]
  unfold senderOf SendChunks
  dsimp only
  split
  · rw [List.map_append, List.map_singleton]
    rfl
  · rfl

end Client

section Server
variable {env : EnclaveEnv} {crypto : RecipeCrypto} {sendRecipeBatchSize : Nat}

/-- The enclave finds the chunks of a message, whatever stands behind them. -/
theorem recvChunks_pack (batch : List ChunkData) (more : Bytes) :
    recvChunks batch.length (packChunks batch ++ more) = batch.map ChunkData.data := by
  induction batch with
  | nil => rfl
  | cons chunk batch ih =>
    have hmax := chunk.fits
    have hsmall : MAX_CHUNK_SIZE < 2 ^ 32 := by decide
    have hsize : (UInt32.ofNat chunk.data.length).toNat = chunk.data.length := by
      rw [UInt32.toNat_ofNat', Nat.mod_eq_of_lt (by omega)]
    have hbuf : packChunks (chunk :: batch) ++ more =
        le32 (UInt32.ofNat chunk.data.length) ++ (chunk.data ++ (packChunks batch ++ more)) := by
      unfold packChunks packChunk
      simp
    have hread : read32 (packChunks (chunk :: batch) ++ more) 0 =
        UInt32.ofNat chunk.data.length := by
      apply read32_of_slice
      rw [hbuf]
      exact @slice_mid [] (le32 _) _ 0 4 rfl rfl
    have hdata : readAt (packChunks (chunk :: batch) ++ more) 4 chunk.data.length = chunk.data := by
      rw [readAt_eq_slice]
      · rw [hbuf]
        exact slice_mid rfl rfl
      · rw [hbuf]
        simp
    have hdrop : (packChunks (chunk :: batch) ++ more).drop (4 + chunk.data.length) =
        packChunks batch ++ more := by
      rw [hbuf, ← List.append_assoc]
      apply List.drop_left'
      simp
    rw [List.length_cons]
    unfold recvChunks
    dsimp only
    rw [hread, hsize, hdata, hdrop, ih, List.map_cons]

/-- The recipe that has taken what a batcher has; `before` was in the file already. -/
def recipeOf (crypto : RecipeCrypto) (before : Bytes) (b : Batcher Fp) : RecipeUpload where
  entryFpList := b.buffer
  recipeFile := before ++ (b.sent.map fun fps => crypto.EncryptWithKey (fpBytes fps)).flatten

theorem recipeOf_push (before : Bytes) (b : Batcher Fp) (FP : Fp) :
    UpdateFileRecipe crypto sendRecipeBatchSize (recipeOf crypto before b) FP =
      recipeOf crypto before (b.push sendRecipeBatchSize FP) := by
  unfold UpdateFileRecipe Batcher.push recipeOf sendRecipe
  dsimp only
  split
  · simp
  · rfl

theorem recipeOf_foldl (before : Bytes) (fps : List Fp) (b : Batcher Fp) :
    fps.foldl (UpdateFileRecipe crypto sendRecipeBatchSize) (recipeOf crypto before b) =
      recipeOf crypto before (fps.foldl (Batcher.push sendRecipeBatchSize) b) := by
  induction fps generalizing b with
  | nil => rfl
  | cons FP fps ih => rw [List.foldl_cons, List.foldl_cons, recipeOf_push, ih]

/-- The messages of a file, however the client has cut it, are the fingerprints of its chunks. -/
theorem receive_messages (s : RecipeUpload) (bs : List (List ChunkData)) :
    (bs.map (chunkMessage crypto)).foldl (receive env crypto sendRecipeBatchSize) s =
      (bs.flatten.map fun chunk => env.GenerateHash chunk.data).foldl
        (UpdateFileRecipe crypto sendRecipeBatchSize) s := by
  induction bs generalizing s with
  | nil => rfl
  | cons batch bs ih =>
    have hrecv := recvChunks_pack batch []
    rw [List.append_nil] at hrecv
    have hone : receive env crypto sendRecipeBatchSize s (chunkMessage crypto batch) =
        (batch.map fun chunk => env.GenerateHash chunk.data).foldl
          (UpdateFileRecipe crypto sendRecipeBatchSize) s := by
      unfold receive chunkMessage
      dsimp only
      rw [crypto.SessionKeyDec_Enc, hrecv, List.map_map]
      rfl
    rw [List.map_cons, List.foldl_cons, hone, ih, List.flatten_cons, List.map_append,
      List.foldl_append]

/-- The recipe file is the head and the encrypted batches of the fingerprints. -/
theorem uploadRecipe_eq (sendChunkBatchSize : Nat) (chunks : List ChunkData)
    (recipeHead virtualRecipeEnd : FileRecipeHead) :
    uploadRecipe env crypto sendRecipeBatchSize virtualRecipeEnd
        (sendFile crypto sendChunkBatchSize chunks recipeHead) =
      recipeHead.val ++
        ((batches sendRecipeBatchSize (chunks.map fun chunk => env.GenerateHash chunk.data)).map
          fun fps => crypto.EncryptWithKey (fpBytes fps)).flatten := by
  have hstart : (⟨[], virtualRecipeEnd.val⟩ : RecipeUpload) =
      recipeOf crypto virtualRecipeEnd.val .empty := by
    simp [recipeOf, Batcher.empty]
  have hhead : ∀ body, memcpy (virtualRecipeEnd.val ++ body) 0 recipeHead.val =
      recipeHead.val ++ body := by
    intro body
    unfold memcpy
    rw [List.take_zero, List.nil_append, Nat.zero_add, recipeHead.property,
      List.drop_left' virtualRecipeEnd.property]
  unfold uploadRecipe
  rw [sendFile_eq, List.foldl_append, receive_messages, batches_flatten, hstart, recipeOf_foldl]
  unfold batches
  generalize (chunks.map fun chunk => env.GenerateHash chunk.data).foldl
    (Batcher.push sendRecipeBatchSize) .empty = b
  unfold Batcher.finish
  simp only [List.foldl_cons, List.foldl_nil, receive, recipeOf]
  split
  · simp only [sendRecipe, List.append_assoc, hhead, List.map_append, List.map_singleton,
      List.flatten_append, List.flatten_singleton]
  · exact hhead _

end Server

section Restore
variable {env : EnclaveEnv} {crypto : RecipeCrypto} {sendRecipeBatchSize : Nat}

theorem fpBytes_length (fps : List Fp) : (fpBytes fps).length = CHUNK_HASH_SIZE * fps.length := by
  unfold fpBytes
  induction fps with
  | nil => rfl
  | cons fp fps ih =>
    rw [List.flatMap_cons, List.length_append, ih, fp.property, List.length_cons, Nat.mul_add]
    unfold CHUNK_HASH_SIZE
    omega

theorem read_fpBytes (fps : List Fp) :
    ((List.range fps.length).map fun i => FixedBytes.read 32 (fpBytes fps) (i * CHUNK_HASH_SIZE)) =
      fps := by
  apply List.ext_getElem
  · simp
  · intro i hi hfps
    rw [List.getElem_map, List.getElem_range]
    apply FixedBytes.read_of_slice
    have hsplit : fps = fps.take i ++ fps[i] :: fps.drop (i + 1) := by
      rw [List.cons_getElem_drop_succ, List.take_append_drop]
    have hbytes : fpBytes fps =
        fpBytes (fps.take i) ++ (fps[i].val ++ fpBytes (fps.drop (i + 1))) := by
      conv_lhs => rw [hsplit]
      unfold fpBytes
      rw [List.flatMap_append, List.flatMap_cons]
    rw [hbytes]
    apply slice_mid
    · rw [fpBytes_length, List.length_take, Nat.min_eq_left (by omega), Nat.mul_comm]
    · rw [fps[i].property]

/-- A batch that was encrypted as a whole is decrypted as a whole. -/
theorem recipeBatch_encrypt (fps : List Fp) :
    recipeBatch crypto (crypto.EncryptWithKey (fpBytes fps))
      ((crypto.EncryptWithKey (fpBytes fps)).length / CHUNK_HASH_SIZE) = fps := by
  have hlen : (crypto.EncryptWithKey (fpBytes fps)).length = fps.length * CHUNK_HASH_SIZE := by
    rw [crypto.EncryptWithKey_length, fpBytes_length, Nat.mul_comm]
  have hnum : fps.length * CHUNK_HASH_SIZE / CHUNK_HASH_SIZE = fps.length :=
    Nat.mul_div_cancel _ (by decide)
  have hread : readAt (crypto.EncryptWithKey (fpBytes fps)) 0 (fps.length * CHUNK_HASH_SIZE) =
      crypto.EncryptWithKey (fpBytes fps) := by
    rw [readAt_eq_slice (by omega), slice_zero_eq_take, List.take_of_length_le (by omega)]
  unfold recipeBatch
  rw [hlen, hnum, hread, crypto.DecryptWithKey_Encrypt]
  exact read_fpBytes fps

/-- A head, then batches that were encrypted one by one, is read back as the head and the batches. -/
theorem restoreRecipe_cut (recipeHead : FileRecipeHead) {bs : List (List Fp)}
    (h : Cut sendRecipeBatchSize bs) (readRecipeBuf : Bytes) :
    restoreRecipe crypto sendRecipeBatchSize readRecipeBuf
        (recipeHead.val ++ (bs.map fun fps => crypto.EncryptWithKey (fpBytes fps)).flatten) =
      (recipeHead, bs) := by
  have hcut := cut_map (β := UInt8) (f := fun fps => crypto.EncryptWithKey (fpBytes fps))
    (k := CHUNK_HASH_SIZE) (by decide)
    (fun fps => by rw [crypto.EncryptWithKey_length, fpBytes_length]) h
  have hbatch : (fun recipeBuffer : Bytes =>
        recipeBatch crypto recipeBuffer (recipeBuffer.length / CHUNK_HASH_SIZE)) ∘
      (fun fps => crypto.EncryptWithKey (fpBytes fps)) = id := by
    funext fps
    exact recipeBatch_encrypt fps
  unfold restoreRecipe
  rw [(InFile.read_full recipeHead.property _ []).1]
  dsimp only
  rw [InFile.pieces_cut hcut, List.map_map, hbatch, List.map_id]
  apply Prod.ext
  · apply FixedBytes.read_of_slice
    have hhead := InFile.take_memcpy_zero [] recipeHead.val
    rw [recipeHead.property] at hhead
    exact hhead
  · rfl

/-- What the restore of a recipe file reads is what the upload of the file wrote, at any sizes of the
batches in which the client sends and in which the server writes and reads. -/
theorem recipe_round_trip (env : EnclaveEnv) (crypto : RecipeCrypto)
    (sendChunkBatchSize sendRecipeBatchSize : Nat) (hrecipe : 1 ≤ sendRecipeBatchSize)
    (chunks : List ChunkData) (recipeHead virtualRecipeEnd : FileRecipeHead)
    (readRecipeBuf : Bytes) :
    let restored := restoreRecipe crypto sendRecipeBatchSize readRecipeBuf
      (uploadRecipe env crypto sendRecipeBatchSize virtualRecipeEnd
        (sendFile crypto sendChunkBatchSize chunks recipeHead))
    restored.1 = recipeHead ∧
      restored.2.flatten = chunks.map fun chunk => env.GenerateHash chunk.data := by
  intro restored
  have hrestored : restored = (recipeHead,
      batches sendRecipeBatchSize (chunks.map fun chunk => env.GenerateHash chunk.data)) := by
    change restoreRecipe crypto sendRecipeBatchSize readRecipeBuf _ = _
    rw [uploadRecipe_eq]
    exact restoreRecipe_cut recipeHead (batches_cut hrecipe _) readRecipeBuf
  rw [hrestored]
  exact ⟨rfl, batches_flatten _ _⟩

/-- A keystream that differs from byte to byte. -/
def xorFrom : UInt8 → Bytes → Bytes
  | _, [] => []
  | k, x :: b => (x ^^^ k) :: xorFrom (k + 1) b

theorem xorFrom_xorFrom (k : UInt8) (b : Bytes) : xorFrom k (xorFrom k b) = b := by
  induction b generalizing k with
  | nil => rfl
  | cons x b ih =>
    rw [xorFrom, xorFrom, ih, UInt8.xor_assoc, UInt8.xor_self, UInt8.xor_zero]

theorem xorFrom_length (k : UInt8) (b : Bytes) : (xorFrom k b).length = b.length := by
  induction b generalizing k with
  | nil => rfl
  | cons x b ih => rw [xorFrom, List.length_cons, List.length_cons, ih]

def xorCrypto : RecipeCrypto where
  SessionKeyEnc := xorFrom 7
  SessionKeyDec := xorFrom 7
  EncryptWithKey := xorFrom 1
  DecryptWithKey := xorFrom 1
  SessionKeyDec_Enc := xorFrom_xorFrom 7
  DecryptWithKey_Encrypt := xorFrom_xorFrom 1
  EncryptWithKey_length := xorFrom_length 1

/-- Three chunks, sent in messages of two and written in batches of two. -/
theorem recipe_round_trip_three :
    1 ≤ 2 ∧ (restoreRecipe xorCrypto 2 [] (uploadRecipe plainEnv xorCrypto 2 (FixedBytes.fill 16 0)
      (sendFile xorCrypto 2 [⟨[1], by decide⟩, ⟨[2], by decide⟩, ⟨[3], by decide⟩]
        (FixedBytes.fill 16 9)))).2.flatten =
      [plainEnv.GenerateHash [1], plainEnv.GenerateHash [2], plainEnv.GenerateHash [3]] :=
  ⟨by decide, (recipe_round_trip plainEnv xorCrypto 2 2 (by decide)
    [⟨[1], by decide⟩, ⟨[2], by decide⟩, ⟨[3], by decide⟩] (FixedBytes.fill 16 9)
    (FixedBytes.fill 16 0) []).2⟩

end Restore

end ShieldReduce.Prototype
