import ShieldReduce.Prototype.Recipe

/-!
# Uploads that are not finished

An upload session on the recipe file of its name, from the login over the messages to the
disconnect. The login of a name that has a recipe overwrites it: the recipe is opened with
`ios_base::trunc`, and nothing keeps what it held.
-/

namespace ShieldReduce.Prototype
open Lib Store EDelta

section Session
variable (env : EnclaveEnv) (crypto : RecipeCrypto) (sendRecipeBatchSize : Nat)

/-- The recipe file of a name, and `_inRecipe` of the session that has it open. -/
structure RecipeSession where
  recipeFile : Bytes
  opened : Option (List Fp)

inductive UploadEvent
  | CLIENT_LOGIN_UPLOAD (virtualRecipeEnd : FileRecipeHead)
  | received (message : Message)
  | disconnect

/-- One event of a session: `InitUploadBuffer`, a round of `DataReceiver::Run`, and
`DestroyUploadBuffer`, which closes the file as it is. -/
def RecipeSession.step (s : RecipeSession) : UploadEvent → RecipeSession
  | .CLIENT_LOGIN_UPLOAD virtualRecipeEnd => ⟨virtualRecipeEnd.val, some []⟩
  | .received message =>
    match s.opened with
    | none => s
    | some entryFpList =>
      let r := receive env crypto sendRecipeBatchSize ⟨entryFpList, s.recipeFile⟩ message
      ⟨r.recipeFile, some r.entryFpList⟩
  | .disconnect => ⟨s.recipeFile, none⟩

/-- The recipe file after a session, when it was `recipeFile` before. -/
def sessionFile (events : List UploadEvent) (recipeFile : Bytes) : Bytes :=
  (events.foldl (RecipeSession.step env crypto sendRecipeBatchSize) ⟨recipeFile, none⟩).recipeFile

/-- What a recipe restores: its head, and the fingerprints of the chunks. -/
def restoredVersion (readRecipeBuf recipeFile : Bytes) : FileRecipeHead × List Fp :=
  let (recipeHead, recipeBatches) :=
    restoreRecipe crypto sendRecipeBatchSize readRecipeBuf recipeFile
  (recipeHead, recipeBatches.flatten)

/-- The sessions that end by disconnect before `CLIENT_UPLOAD_RECIPE_END`: before the login, or after
any messages of chunks. -/
inductive Aborted : List UploadEvent → Prop
  | beforeLogin : Aborted [.disconnect]
  | afterChunks (virtualRecipeEnd : FileRecipeHead) (messages : List (Nat × Bytes)) :
      Aborted (.CLIENT_LOGIN_UPLOAD virtualRecipeEnd ::
        (messages.map fun m => .received (.CLIENT_UPLOAD_CHUNK m.1 m.2)) ++ [.disconnect])

/-- The fingerprints of the chunks that an event brings. -/
def UploadEvent.fps : UploadEvent → List Fp
  | .received (.CLIENT_UPLOAD_CHUNK currentItemNum dataBuffer) =>
    (recvChunks currentItemNum (crypto.SessionKeyDec dataBuffer)).map env.GenerateHash
  | _ => []

/-- The version that a session leaves: from its login on, the head that is not set and the full
batches of the fingerprints that have come. -/
def versionLeft (before : FileRecipeHead × List Fp) :
    List UploadEvent → FileRecipeHead × List Fp
  | .CLIENT_LOGIN_UPLOAD virtualRecipeEnd :: events =>
    let fps := events.flatMap (UploadEvent.fps env crypto)
    (virtualRecipeEnd, fps.take (sendRecipeBatchSize * (fps.length / sendRecipeBatchSize)))
  | _ => before

end Session

section Session
variable {env : EnclaveEnv} {crypto : RecipeCrypto} {sendRecipeBatchSize : Nat}

/-- The session that has taken what a batcher has. -/
def sessionOf (crypto : RecipeCrypto) (virtualRecipeEnd : FileRecipeHead) (b : Batcher Fp) :
    RecipeSession where
  recipeFile := (recipeOf crypto virtualRecipeEnd.val b).recipeFile
  opened := some b.buffer

theorem login_step (s : RecipeSession) (virtualRecipeEnd : FileRecipeHead) :
    s.step env crypto sendRecipeBatchSize (.CLIENT_LOGIN_UPLOAD virtualRecipeEnd) =
      sessionOf crypto virtualRecipeEnd .empty := by
  unfold RecipeSession.step sessionOf recipeOf Batcher.empty
  simp

theorem chunk_step (virtualRecipeEnd : FileRecipeHead) (b : Batcher Fp) (currentItemNum : Nat)
    (dataBuffer : Bytes) :
    let event := UploadEvent.received (.CLIENT_UPLOAD_CHUNK currentItemNum dataBuffer)
    (sessionOf crypto virtualRecipeEnd b).step env crypto sendRecipeBatchSize event =
      sessionOf crypto virtualRecipeEnd
        ((event.fps env crypto).foldl (Batcher.push sendRecipeBatchSize) b) := by
  intro event
  have hrecipe : (⟨b.buffer, (recipeOf crypto virtualRecipeEnd.val b).recipeFile⟩ : RecipeUpload) =
      recipeOf crypto virtualRecipeEnd.val b := rfl
  change (sessionOf crypto virtualRecipeEnd b).step env crypto sendRecipeBatchSize (.received _) = _
  unfold RecipeSession.step sessionOf receive
  dsimp only
  rw [hrecipe, recipeOf_foldl]
  rfl

/-- The messages of chunks, in whatever sizes they come, are the fingerprints of the chunks. -/
theorem chunks_run (virtualRecipeEnd : FileRecipeHead) (messages : List (Nat × Bytes))
    (b : Batcher Fp) :
    let events := messages.map fun m => UploadEvent.received (.CLIENT_UPLOAD_CHUNK m.1 m.2)
    events.foldl (RecipeSession.step env crypto sendRecipeBatchSize)
        (sessionOf crypto virtualRecipeEnd b) =
      sessionOf crypto virtualRecipeEnd
        ((events.flatMap (UploadEvent.fps env crypto)).foldl
          (Batcher.push sendRecipeBatchSize) b) := by
  induction messages generalizing b with
  | nil => rfl
  | cons m messages ih =>
    dsimp only at ih ⊢
    rw [List.map_cons, List.foldl_cons, chunk_step, ih, List.flatMap_cons, List.foldl_append]

/-- After the login the file is the head that is not set and the full batches. -/
theorem restoredVersion_sessionOf (hn : 1 ≤ sendRecipeBatchSize)
    (virtualRecipeEnd : FileRecipeHead) (fps : List Fp) (readRecipeBuf : Bytes) :
    restoredVersion crypto sendRecipeBatchSize readRecipeBuf
        (sessionOf crypto virtualRecipeEnd
          (fps.foldl (Batcher.push sendRecipeBatchSize) .empty)).recipeFile =
      (virtualRecipeEnd, fps.take (sendRecipeBatchSize * (fps.length / sendRecipeBatchSize))) := by
  have hinv := Batcher.inv_foldl (Batcher.inv_empty hn) fps
  have hcut := @cut_append _ _ _ [] hn hinv.full trivial
  rw [List.append_nil] at hcut
  unfold restoredVersion sessionOf recipeOf
  dsimp only
  rw [restoreRecipe_cut virtualRecipeEnd hcut, Batcher.sent_flatten hn]

/-- A session that ends before its login leaves the version that is there. From the login on that
version is gone: what the recipe restores is the head that is not set, and the full batches of what
the session has received. -/
theorem aborted_upload_restores (env : EnclaveEnv) (crypto : RecipeCrypto)
    (sendRecipeBatchSize : Nat) (hrecipe : 1 ≤ sendRecipeBatchSize)
    (recipeFile readRecipeBuf : Bytes) (events : List UploadEvent) (h : Aborted events) :
    restoredVersion crypto sendRecipeBatchSize readRecipeBuf
        (sessionFile env crypto sendRecipeBatchSize events recipeFile) =
      versionLeft env crypto sendRecipeBatchSize
        (restoredVersion crypto sendRecipeBatchSize readRecipeBuf recipeFile) events := by
  cases h with
  | beforeLogin => rfl
  | afterChunks virtualRecipeEnd messages =>
    have hdisconnect : UploadEvent.fps env crypto .disconnect = [] := rfl
    unfold sessionFile versionLeft
    dsimp only [List.cons_append]
    rw [List.foldl_cons, List.foldl_append, login_step, chunks_run, List.flatMap_append,
      List.flatMap_singleton, hdisconnect, List.append_nil]
    exact restoredVersion_sessionOf hrecipe virtualRecipeEnd _ readRecipeBuf

end Session

/-- One chunk, backed up. -/
def backedUp : Bytes :=
  uploadRecipe plainEnv xorCrypto 2 (FixedBytes.fill 16 0)
    (sendFile xorCrypto 2 [⟨[1], by decide⟩] (FixedBytes.fill 16 9))

/-- Two messages with three chunks, the second message with the last of them. -/
def threeSent : List (Nat × Bytes) :=
  [(2, xorCrypto.SessionKeyEnc (packChunks [⟨[2, 2], by decide⟩, ⟨[3], by decide⟩])),
    (1, xorCrypto.SessionKeyEnc (packChunks [⟨[4, 4, 4], by decide⟩]))]

/-- The file of one chunk is logged in again, and the client is gone after these messages. -/
def threeAborted : List UploadEvent :=
  .CLIENT_LOGIN_UPLOAD (FixedBytes.fill 16 9) ::
    (threeSent.map fun m => .received (.CLIENT_UPLOAD_CHUNK m.1 m.2)) ++ [.disconnect]

/-- The one full batch of fingerprints has been written. -/
theorem aborted_upload_restores_batch :
    1 ≤ 2 ∧ Aborted threeAborted ∧
      restoredVersion xorCrypto 2 [] (sessionFile plainEnv xorCrypto 2 threeAborted backedUp) =
      (FixedBytes.fill 16 9, [plainEnv.GenerateHash [2, 2], plainEnv.GenerateHash [3]]) := by
  have habort : Aborted threeAborted := .afterChunks (FixedBytes.fill 16 9) threeSent
  have hleft : versionLeft plainEnv xorCrypto 2 (restoredVersion xorCrypto 2 [] backedUp)
      threeAborted =
        (FixedBytes.fill 16 9, [plainEnv.GenerateHash [2, 2], plainEnv.GenerateHash [3]]) := by
    decide +kernel
  refine ⟨by decide, habort, ?_⟩
  rw [aborted_upload_restores plainEnv xorCrypto 2 (by decide) backedUp [] _ habort]
  exact hleft

/-- Its chunk is lost, even where the head that is not set happens to be the old one. -/
theorem aborted_upload_loses :
    ¬ ∀ events, Aborted events →
      restoredVersion xorCrypto 2 [] (sessionFile plainEnv xorCrypto 2 events backedUp) =
        restoredVersion xorCrypto 2 [] backedUp := by
  intro hkeeps
  have hkept := hkeeps _ (.afterChunks (FixedBytes.fill 16 9) [])
  have hbefore : restoredVersion xorCrypto 2 [] backedUp =
      (FixedBytes.fill 16 9, [plainEnv.GenerateHash [1]]) := by
    unfold backedUp restoredVersion
    rw [uploadRecipe_eq, restoreRecipe_cut _ (batches_cut (by decide) _)]
    dsimp only
    rw [batches_flatten]
    rfl
  have hafter : restoredVersion xorCrypto 2 [] (sessionFile plainEnv xorCrypto 2
      [.CLIENT_LOGIN_UPLOAD (FixedBytes.fill 16 9), .disconnect] backedUp) =
      (FixedBytes.fill 16 9, []) :=
    restoredVersion_sessionOf (by decide) (FixedBytes.fill 16 9) [] []
  rw [hbefore] at hkept
  exact absurd (congrArg Prod.snd (hafter.symm.trans hkept)) (List.cons_ne_nil _ _).symm

end ShieldReduce.Prototype
