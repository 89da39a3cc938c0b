import ShieldReduce.Prototype.Emission

/-!
# Fingerprints that the index does not know

`Ocall_ReadIndexStoreBatch` returns the status of its last lookup, and nothing in `ProcRecipeBatch`
depends on it: a restore emits one item for each fingerprint, known or not.
-/

namespace ShieldReduce.Prototype
open Lib Store EDelta

section Status

/-- `*ret` after `Ocall_ReadIndexStoreBatch`. -/
def Ocall_ReadIndexStoreBatch_ret (index : Table Fp RecipeEntry) : Bool → List Fp → Bool
  | ret, [] => ret
  | _, key :: keys => Ocall_ReadIndexStoreBatch_ret index (index.lookup key).isSome keys

theorem ReadIndexStoreBatch_ret_snoc (index : Table Fp RecipeEntry) (ret : Bool) (keys : List Fp)
    (key : Fp) :
    Ocall_ReadIndexStoreBatch_ret index ret (keys ++ [key]) = (index.lookup key).isSome := by
  induction keys generalizing ret with
  | nil => rfl
  | cons key' keys ih => exact ih _

end Status

section Items
variable {env : EnclaveEnv} {crypto : RecipeCrypto} {index : Table Fp RecipeEntry}
  {load : ContainerName → Bytes} {sendChunkBatchSize : Nat}

/-- The items of the messages. -/
def emittedItems (messages : List RestoreMessage) : Nat :=
  (messages.map RestoreMessage.currentItemNum).sum

/-- The items sent or waiting for a message. -/
def bufferItems (s : RestoreBuffer) : Nat := emittedItems s.sent + s.currentItemNum

theorem bufferItems_append (chunk : Bytes) (s : RestoreBuffer) :
    bufferItems (appendRestored chunk s) = bufferItems s + 1 := rfl

theorem emittedItems_send (messageType : RestoreType) (s : RestoreBuffer) :
    emittedItems (Ocall_SendRestoreData crypto messageType s).sent = bufferItems s := by
  unfold Ocall_SendRestoreData emittedItems bufferItems
  rw [List.map_append, List.sum_append]
  rfl

theorem bufferItems_send (messageType : RestoreType) (s : RestoreBuffer) :
    bufferItems (Ocall_SendRestoreData crypto messageType s) = bufferItems s := by
  have hsent := @emittedItems_send crypto messageType s
  unfold bufferItems at hsent ⊢
  rw [hsent]
  rfl

theorem bufferItems_loop (containerArray : List Bytes) (bases rs : List EnclaveRecipeEntry)
    (tail : Bool) (bidx : Nat) (s : RestoreBuffer) :
    bufferItems (restoreLoop env crypto sendChunkBatchSize containerArray bases tail bidx rs s) =
      bufferItems s + rs.length := by
  induction rs generalizing bidx s with
  | nil => rfl
  | cons r rs ih =>
    unfold restoreLoop
    dsimp only
    rw [ih, List.length_cons]
    split
    · rw [bufferItems_send, bufferItems_append]
      omega
    · rw [bufferItems_append]
      omega

/-- In the tail nothing is left waiting. -/
theorem emittedItems_tail (containerArray : List Bytes) (bases : List EnclaveRecipeEntry)
    {rs : List EnclaveRecipeEntry} (hrs : rs ≠ []) (bidx : Nat) (s : RestoreBuffer) :
    emittedItems
      (restoreLoop env crypto sendChunkBatchSize containerArray bases true bidx rs s).sent =
      bufferItems s + rs.length := by
  induction rs generalizing bidx s with
  | nil => exact absurd rfl hrs
  | cons r rs ih =>
    unfold restoreLoop
    dsimp only
    by_cases hlast : rs = []
    · subst hlast
      have hend : (true && ([] : List EnclaveRecipeEntry).isEmpty) = true := rfl
      rw [if_pos (Or.inr hend)]
      unfold restoreLoop
      rw [emittedItems_send, bufferItems_append]
      rfl
    · rw [ih hlast, List.length_cons]
      split
      · rw [bufferItems_send, bufferItems_append]
        omega
      · rw [bufferItems_append]
        omega

theorem foldl_pushBase_entries (bs : List RecipeEntry) (r : Requests × ContainerMap) :
    (bs.foldl pushBase r).1.enclaveRecipeBuffer = r.1.enclaveRecipeBuffer := by
  induction bs generalizing r with
  | nil => rfl
  | cons base bs ih =>
    rw [List.foldl_cons, ih]
    rfl

theorem takeBases_entries (r : Requests × ContainerMap) :
    (takeBases index r).1.enclaveRecipeBuffer = r.1.enclaveRecipeBuffer := by
  unfold takeBases
  dsimp only
  rw [foldl_pushBase_entries]

theorem lastBases_entries (r : Requests × ContainerMap) :
    (lastBases index r).1.enclaveRecipeBuffer = r.1.enclaveRecipeBuffer := by
  unfold lastBases
  dsimp only
  split
  · exact takeBases_entries r
  · rfl

theorem collectEntry_entries (r : Requests × ContainerMap) (e : RecipeEntry) :
    (collectEntry index r e).1.enclaveRecipeBuffer.length = r.1.enclaveRecipeBuffer.length + 1 := by
  have hask : (askBase index r e.basechunkHash).1.enclaveRecipeBuffer =
      r.1.enclaveRecipeBuffer := by
    unfold askBase
    split
    · rfl
    · split
      · exact takeBases_entries r
      · rfl
  unfold collectEntry
  dsimp only
  rw [List.length_append, List.length_singleton]
  split
  · rw [hask]
  · rfl

/-- The items of a restore that has sent, collected or kept waiting so many. -/
def pendingItems (st : (Requests × ContainerMap) × RestoreBuffer) : Nat :=
  bufferItems st.2 + st.1.1.enclaveRecipeBuffer.length

/-- Every entry becomes one item, wherever it comes from. -/
theorem pendingItems_procEntry (st : (Requests × ContainerMap) × RestoreBuffer) (e : RecipeEntry) :
    pendingItems (procEntry env crypto index load sendChunkBatchSize st e) = pendingItems st + 1 := by
  have hentries := @collectEntry_entries index st.1 e
  unfold procEntry capping pendingItems
  split
  · dsimp only
    unfold restoreAll
    rw [bufferItems_loop, lastBases_entries, hentries]
    rfl
  · dsimp only
    rw [hentries]
    omega

theorem pendingItems_foldl (es : List RecipeEntry)
    (st : (Requests × ContainerMap) × RestoreBuffer) :
    pendingItems (es.foldl (procEntry env crypto index load sendChunkBatchSize) st) =
      pendingItems st + es.length := by
  induction es generalizing st with
  | nil => rfl
  | cons e es ih =>
    rw [List.foldl_cons, ih, pendingItems_procEntry, List.length_cons]
    omega

theorem ReadIndexStoreBatch_length (value : RecipeEntry) (keys : List Fp) :
    (Ocall_ReadIndexStoreBatch index value keys).length = keys.length := by
  induction keys generalizing value with
  | nil => rfl
  | cons key keys ih => exact congrArg (· + 1) (ih _)

theorem pendingItems_batches (value : RecipeEntry) (recipes : List (List Fp)) (s : Restore) :
    pendingItems (((recipes.foldl (ProcRecipeBatch env crypto index load sendChunkBatchSize value)
        s).requests, ∅),
      (recipes.foldl (ProcRecipeBatch env crypto index load sendChunkBatchSize value) s).buffer) =
      pendingItems ((s.requests, ∅), s.buffer) + recipes.flatten.length := by
  induction recipes generalizing s with
  | nil => rfl
  | cons recipe recipes ih =>
    have hbatch := @pendingItems_foldl env crypto index load sendChunkBatchSize
      (Ocall_ReadIndexStoreBatch index value (recipe.map env.IndexAESCMCEnc))
      ((s.requests, ∅), s.buffer)
    rw [ReadIndexStoreBatch_length, List.length_map] at hbatch
    have hstep : pendingItems
        (((ProcRecipeBatch env crypto index load sendChunkBatchSize value s recipe).requests, ∅),
          (ProcRecipeBatch env crypto index load sendChunkBatchSize value s recipe).buffer) =
        pendingItems ((s.requests, ∅), s.buffer) + recipe.length := hbatch
    rw [List.foldl_cons, ih, hstep, List.flatten_cons, List.length_append]
    omega

/-- A restore emits as many items as its recipe has fingerprints. -/
theorem restoreFile_items (env : EnclaveEnv) (crypto : RecipeCrypto)
    (index : Table Fp RecipeEntry) (load : ContainerName → Bytes) (sendChunkBatchSize : Nat)
    (value : RecipeEntry) (outQueryBase : Nat → Fp × RecipeEntry) (recipes : List (List Fp)) :
    emittedItems (restoreFile env crypto index load sendChunkBatchSize value outQueryBase recipes) =
      recipes.flatten.length := by
  have hrun := @pendingItems_batches env crypto index load sendChunkBatchSize value recipes
    (startRestore outQueryBase)
  have hstart : pendingItems (((startRestore outQueryBase).requests, ∅),
      (startRestore outQueryBase).buffer) = 0 := rfl
  rw [hstart, Nat.zero_add] at hrun
  unfold restoreFile ProcRecipeTailBatch
  rw [← hrun]
  split
  case isTrue hsome =>
    have hne : ∀ s : Restore, s.requests.enclaveRecipeBuffer.length ≠ 0 →
        (lastBases index (s.requests, ∅)).1.enclaveRecipeBuffer ≠ [] := by
      intro s hs hnil
      rw [lastBases_entries] at hnil
      rw [hnil] at hs
      exact hs rfl
    unfold restoreAll
    dsimp only
    rw [emittedItems_tail _ _ (hne _ hsome), lastBases_entries]
    rfl
  case isFalse hnone =>
    rw [emittedItems_send]
    unfold pendingItems
    dsimp only
    rw [not_not.mp hnone, Nat.add_zero]

end Items

section Reported

/-- A missing fingerprint makes the query of its batch fail, and nothing is emitted for it or for a
delta whose base is missing. -/
structure MissingReported (env : EnclaveEnv) (crypto : RecipeCrypto) (index : Table Fp RecipeEntry)
    (recipes : List (List Fp)) : Prop where
  status : ∀ recipe ∈ recipes, (∃ fp ∈ recipe, index.lookup (env.IndexAESCMCEnc fp) = none) →
    ∀ ret, Ocall_ReadIndexStoreBatch_ret index ret (recipe.map env.IndexAESCMCEnc) = false
  items : ∀ load sendChunkBatchSize value outQueryBase,
    emittedItems (restoreFile env crypto index load sendChunkBatchSize value outQueryBase recipes) ≤
      recipes.flatten.countP fun fp => (restored env index load fp).isSome

/-- Whether a fingerprint is restored does not depend on what the containers hold. -/
theorem restored_isSome (env : EnclaveEnv) (index : Table Fp RecipeEntry)
    (load : ContainerName → Bytes) (fp : Fp) : (restored env index load fp).isSome = true ↔
      ∃ e, index.lookup (env.IndexAESCMCEnc fp) = some e ∧
        (e.deltaFlag = DELTA → index.lookup e.basechunkHash ≠ none) := by
  unfold restored chunkOf
  cases index.lookup (env.IndexAESCMCEnc fp) with
  | none => simp
  | some e =>
    rw [Option.bind_some]
    by_cases hdelta : e.deltaFlag = DELTA
    · rw [if_pos hdelta, Option.isSome_map, ← Option.ne_none_iff_isSome]
      simp [hdelta]
    · rw [if_neg hdelta]
      simp [hdelta]

/-- A restore treats missing entries as it should only when there are none. Every container that it
asks for is there: where the address of a missing entry names none, the server exits, which is not
modelled. -/
theorem missing_reported_iff (env : EnclaveEnv) (crypto : RecipeCrypto)
    (index : Table Fp RecipeEntry) (recipes : List (List Fp)) :
    MissingReported env crypto index recipes ↔
      ∀ fp ∈ recipes.flatten, ∃ e, index.lookup (env.IndexAESCMCEnc fp) = some e ∧
        (e.deltaFlag = DELTA → index.lookup e.basechunkHash ≠ none) := by
  constructor
  · intro h fp hfp
    have hitems := h.items (fun _ => []) 1 emptyEntry fun _ => (FixedBytes.fill 32 0, emptyEntry)
    rw [restoreFile_items] at hitems
    have hcount := Nat.le_antisymm List.countP_le_length hitems
    exact (restored_isSome env index _ fp).mp (List.countP_eq_length.mp hcount fp hfp)
  · intro h
    refine ⟨?_, ?_⟩
    · rintro recipe hrecipe ⟨fp, hfp, hnone⟩
      obtain ⟨e, he, -⟩ := h fp (List.mem_flatten.mpr ⟨recipe, hrecipe, hfp⟩)
      rw [hnone] at he
      cases he
    · intro load sendChunkBatchSize value outQueryBase
      rw [restoreFile_items]
      apply Nat.le_of_eq
      symm
      apply List.countP_eq_length.mpr
      intro fp hfp
      exact (restored_isSome env index load fp).mpr (h fp hfp)

/-- A missing fingerprint between two known ones: the query succeeds and the chunk before it is
emitted a second time. -/
theorem missing_substituted :
    pairIndex.lookup (plainEnv.IndexAESCMCEnc (FixedBytes.fill 32 9)) = none ∧
    Ocall_ReadIndexStoreBatch_ret pairIndex false
      ([FixedBytes.fill 32 1, FixedBytes.fill 32 9, FixedBytes.fill 32 1].map
        plainEnv.IndexAESCMCEnc) = true ∧
    (restoreFile plainEnv xorCrypto pairIndex pairLoad 5 emptyEntry
      (fun _ => (FixedBytes.fill 32 0, emptyEntry))
      [[FixedBytes.fill 32 1, FixedBytes.fill 32 9, FixedBytes.fill 32 1]]).map
        (fun m => (m.currentItemNum, xorCrypto.SessionKeyDec m.dataBuffer)) =
      [(3, packRestored [0x57] ++ packRestored [0x57] ++ packRestored [0x57])] ∧
    ¬MissingReported plainEnv xorCrypto pairIndex
      [[FixedBytes.fill 32 1, FixedBytes.fill 32 9, FixedBytes.fill 32 1]] := by
  have hnone : pairIndex.lookup (plainEnv.IndexAESCMCEnc (FixedBytes.fill 32 9)) = none := by
    decide +kernel
  have hret : Ocall_ReadIndexStoreBatch_ret pairIndex false
      ([FixedBytes.fill 32 1, FixedBytes.fill 32 9, FixedBytes.fill 32 1].map
        plainEnv.IndexAESCMCEnc) = true := by decide +kernel
  refine ⟨hnone, hret, by decide +kernel, ?_⟩
  intro h
  have hstatus := h.status _ (List.mem_singleton.mpr rfl) ⟨FixedBytes.fill 32 9, by simp, hnone⟩
    false
  rw [hret] at hstatus
  cases hstatus

end Reported

end ShieldReduce.Prototype
