import ShieldReduce.Store.Lz4RoundTrip
import Mathlib.Logic.Function.Iterate
import ShieldReduce.Prototype.SessionEnd

/-!
# The IVs of a server lifetime

Every call of `EncryptWithKeyIV` under `enclaveKey_`, and which IVs a run uses. A session counts
upward from its random IV; `Easy_update` encrypts with the IV of the record that it replaces.
-/

namespace ShieldReduce.Prototype
open Lib Store EDelta

/-- The IV and the plaintext of one call. -/
abbrev EncryptCall : Type := IV × Bytes

section Calls
variable (env : EnclaveEnv)

def storeCall (x : QueryEntry) (s : Server) : EncryptCall :=
  let (x, deltachunk) := if x.deltaFlag = DELTA then ProcessDeltachunk env x else (x, [])
  (PickNewIV s.iv, uniqueContent env x.chunkAddr.deltaFlag
    (if x.chunkAddr.deltaFlag = DELTA then deltachunk else x.chunk))

def dependentCall (old_chunk new_chunk : Bytes) (deltaHash : Fp) (s : Server) :
    Option EncryptCall := do
  let delta_recipe ← s.indexObj.lookup deltaHash
  let s ← Ocall_OneDeltaContainer delta_recipe.containerName s
  let delta_container := s.tmpOcallcontainer
  let delta_iv := getChunkIV delta_container delta_recipe
  let delta_chunk_content :=
    env.DecryptionWithKeyIV delta_iv (getChunkContent delta_container delta_recipe)
  let old_unique_chunk := EDeltaDecode delta_chunk_content old_chunk
  let new_delta_chunk := EDeltaEncode env.edelta old_unique_chunk new_chunk
  if old_unique_chunk.length < new_delta_chunk.length then none
  else some (delta_iv, new_delta_chunk)

def dependentsCalls (old_chunk new_chunk : Bytes) (newBase : Fp) :
    List Fp → Server → List EncryptCall
  | [], _ => []
  | deltaHash :: rest, s =>
    (dependentCall env old_chunk new_chunk deltaHash s).toList ++
      (updateDependent env old_chunk new_chunk newBase deltaHash s).elim [] fun r =>
        dependentsCalls old_chunk new_chunk newBase rest r.1

def oldBaseCall (old_iv : IV) (old_chunk new_chunk : Bytes) (delta_flag : Bool) :
    Option EncryptCall :=
  let new_delta := EDeltaEncode env.edelta old_chunk new_chunk
  if old_chunk.length < new_delta.length then none
  else if delta_flag then some (old_iv, new_delta)
  else none

/-- The calls of `Easy_update_pair`. -/
def pairCalls (old new : Fp) (s : Server) : List EncryptCall :=
  if s.offlineCurrBackup_size = 0 then []
  else Option.getD (do
    let old_recipe ← s.indexObj.lookup old
    let s ← Ocall_OneContainer old_recipe.containerName s
    let old_container := s.tmpOcallcontainer
    let s := EraseSF s old_recipe.superfeature
    let new_recipe ← s.indexObj.lookup new
    let s ← Ocall_OneContainer new_recipe.containerName s
    let new_container := s.tmpOcallcontainer
    let s := ReplaceSF s new_recipe.superfeature new
    let old_iv := getChunkIV old_container old_recipe
    let old_chunk := offlineExpand env old_iv (getChunkContent old_container old_recipe)
    let new_chunk := offlineExpand env (getChunkIV new_container new_recipe)
      (getChunkContent new_container new_recipe)
    let (dependents, s) := QueryDeltaIndex s old
    let calls := dependentsCalls env old_chunk new_chunk new dependents s
    let (_, delta_flag) ← updateDependents env old_chunk new_chunk new dependents true s
    return calls ++ (oldBaseCall env old_iv old_chunk new_chunk delta_flag).toList) []

/-- The calls of a step. -/
def encryptCalls (s : Server) : Action → List EncryptCall
  | .storeChunk =>
    match s.phase with
    | .uploading (.loaded x _) => [storeCall env x s]
    | _ => []
  | .updatePair old => (s.local_basemap.lookup old).elim [] fun new => pairCalls env old new s
  | _ => []

/-- The calls of a run. -/
def encryptHistory : Server → List Action → List EncryptCall
  | _, [] => []
  | s, a :: acts =>
    encryptCalls env s a ++ (step env s a).elim [] fun s' => encryptHistory s' acts

/-- No pair of the offline pass encrypts anything again. -/
def NothingReencrypted (s : Server) : Action → Prop
  | .updatePair old => ∀ new, s.local_basemap.lookup old = some new → pairCalls env old new s = []
  | _ => True

instance (s : Server) (a : Action) : Decidable (NothingReencrypted env s a) :=
  match a with
  | .updatePair old =>
    inferInstanceAs (Decidable (∀ new ∈ s.local_basemap.lookup old, pairCalls env old new s = []))
  | .startSession _ | .uploadChunk .. | .offlinedeltaTure | .storeChunk | .endBatch
  | .updateOutIndex | .uploadRecipeEnd | .disconnect | .openFile | .writeFile _ | .closeFile
  | .join | .processOff _ | .getLocal | .coldrevise | .updateCold _ | .getMergeContainer
  | .mergePair | .endOffline => isTrue trivial

end Calls

section Written
variable {env : EnclaveEnv} {s s' : Server}

/-- The record of a stored chunk has the IV and the ciphertext of its call. -/
theorem storeChunk_call (x : QueryEntry) : ∃ a buf,
    (storeChunk env x s).2.2 =
      (ProcessSheUniqueChunk env a buf x.superfeature x.chunkHash s).1 ∧
    (uniqueRecord env a buf x.superfeature x.chunkHash s).iv = (storeCall env x s).1 ∧
    (uniqueRecord env a buf x.superfeature x.chunkHash s).content =
      env.EncryptWithKeyIV (storeCall env x s).1 (storeCall env x s).2 := by
  unfold storeChunk storeCall ProcessDeltachunk
  dsimp only
  split
  · dsimp only
    split
    · exact ⟨_, _, rfl, rfl, rfl⟩
    · exact ⟨_, _, rfl, rfl, rfl⟩
  · dsimp only
    split
    · exact ⟨_, _, rfl, rfl, rfl⟩
    · exact ⟨_, _, rfl, rfl, rfl⟩

/-- A dependent is encrypted exactly when it moves. -/
theorem updateDependent_call {old_chunk new_chunk : Bytes} {newBase d : Fp} {flag : Bool}
    (h : updateDependent env old_chunk new_chunk newBase d s = some (s', flag)) :
    (flag = false ∧ dependentCall env old_chunk new_chunk d s = none) ∨
      (flag = true ∧ ∃ c recipe fp sf t, dependentCall env old_chunk new_chunk d s = some c ∧
        s' = storeHot env d newBase recipe c.2 fp sf c.1 t) := by
  obtain ⟨recipe, body, hrecipe, hbody, _⟩ := updateDependent_cases h
  have hread : Ocall_OneDeltaContainer recipe.containerName s = some (readContainer s body) := by
    unfold Ocall_OneDeltaContainer oneContainer
    rw [hbody]
    rfl
  unfold updateDependent at h
  unfold dependentCall
  simp only [hrecipe, hread, Option.bind_eq_bind, Option.bind_some] at h ⊢
  split at h
  case isTrue hlen =>
    simp only [Option.pure_def, Option.some.injEq, Prod.mk.injEq] at h
    exact Or.inl ⟨h.2.symm, if_pos hlen⟩
  case isFalse hlen =>
    simp only [Option.pure_def, Option.some.injEq, Prod.mk.injEq] at h
    exact Or.inr ⟨h.2.symm, _, recipe, _, _, _, if_neg hlen, h.1.symm⟩

end Written

section Ranges

/-- The sessions that start in a run, each with its initial IV and the number of chunks it stores,
and the number of chunks that the session under way at the beginning still stores. -/
def uploadRanges : List Action → List (IV × Nat) × Nat
  | [] => ([], 0)
  | .startSession iv :: acts => ((iv, (uploadRanges acts).2) :: (uploadRanges acts).1, 0)
  | .storeChunk :: acts => ((uploadRanges acts).1, (uploadRanges acts).2 + 1)
  | _ :: acts => uploadRanges acts

/-- The counters of two sessions never meet. -/
def RangesApart (u v : IV × Nat) : Prop :=
  ∀ i j, 1 ≤ i → i ≤ u.2 → 1 ≤ j → j ≤ v.2 → PickNewIV^[i] u.1 ≠ PickNewIV^[j] v.1

end Ranges

section Counter

/-- The little-endian counter in the first `n` bytes. -/
def counter : Nat → Bytes → Nat
  | 0, _ => 0
  | _, [] => 0
  | n + 1, x :: b => x.toNat + 256 * counter n b

theorem counter_lt (n : Nat) (b : Bytes) : counter n b < 256 ^ n := by
  induction n generalizing b with
  | zero => simp [counter]
  | succ n ih =>
    cases b with
    | nil => exact Nat.pow_pos (by decide)
    | cons x b =>
      have hb := ih b
      have hx := x.toNat_lt
      unfold counter
      rw [Nat.pow_succ]
      omega

theorem counter_increment {n : Nat} {b : Bytes} (h : n ≤ b.length) :
    counter n (increment n b) = (counter n b + 1) % 256 ^ n := by
  induction n generalizing b with
  | zero => simp [counter]
  | succ n ih =>
    cases b with
    | nil => simp at h
    | cons x b =>
      have hlen : n ≤ b.length := by simpa using h
      have hlt := counter_lt n b
      unfold increment
      by_cases hx : x = 255
      · rw [if_pos hx, hx]
        simp only [counter]
        rw [ih hlen, Nat.pow_succ']
        have hsum : UInt8.toNat 255 + 256 * counter n b + 1 = 256 * (counter n b + 1) := by
          have h255 : UInt8.toNat 255 = 255 := rfl
          omega
        rw [hsum, Nat.mul_mod_mul_left]
        simp
      · have hbound : x.toNat < 255 := by
          have hlt := x.toNat_lt
          have hne : x.toNat ≠ 255 := fun heq => hx (UInt8.toNat.inj heq)
          omega
        have hadd : (x + 1).toNat = x.toNat + 1 := by
          rw [UInt8.toNat_add]
          have hone : UInt8.toNat 1 = 1 := rfl
          omega
        rw [if_neg hx]
        simp only [counter]
        rw [hadd, Nat.mod_eq_of_lt]
        · omega
        · rw [Nat.pow_succ']
          omega

theorem counter_iterate (iv : IV) (i : Nat) :
    counter 8 (PickNewIV^[i] iv).val = (counter 8 iv.val + i) % 256 ^ 8 := by
  induction i with
  | zero => exact (Nat.mod_eq_of_lt (counter_lt 8 iv.val)).symm
  | succ i ih =>
    rw [Function.iterate_succ_apply']
    have hlen : 8 ≤ (PickNewIV^[i] iv).val.length := by
      rw [(PickNewIV^[i] iv).property]
      decide
    change counter 8 (increment 8 (PickNewIV^[i] iv).val) = _
    rw [counter_increment hlen, ih]
    omega

/-- A session of fewer than 2^64 chunks uses no IV twice. -/
theorem iterate_inj {iv : IV} {i j : Nat} (hi : i < 2 ^ 64) (hj : j < 2 ^ 64)
    (h : PickNewIV^[i] iv = PickNewIV^[j] iv) : i = j := by
  have hcounter := congrArg (fun v : IV => counter 8 v.val) h
  simp only [counter_iterate] at hcounter
  omega

end Counter

section Filled
variable {env : EnclaveEnv} {s s' : Server} {R : Records} {Lost : Fp → Prop} {a : Action}

/-- How far the containers of a session have been filled. -/
def filled (s : Server) : Nat :=
  s.con_times * MAX_CONTAINER_SIZE + (s.opened false).buf.length + (s.opened true).buf.length

theorem filled_append (d : Bool) (s : Server) (r : Bytes) :
    filled { s with
      opened := Function.update s.opened d { s.opened d with buf := (s.opened d).buf ++ r } } =
      filled s + r.length := by
  unfold filled
  cases d with
  | false =>
    dsimp only
    rw [Function.update_self, Function.update_of_ne (by simp), List.length_append]
    omega
  | true =>
    dsimp only
    rw [Function.update_self, Function.update_of_ne (by simp), List.length_append]
    omega

theorem filled_flushed (d : Bool) (s : Server) (h : (s.opened d).buf.length ≤ MAX_CONTAINER_SIZE) :
    filled s ≤ filled (flushed d s) := by
  unfold filled flushed
  cases d with
  | false =>
    dsimp only
    rw [Function.update_self, Function.update_of_ne (by simp), Nat.add_mul, List.length_nil]
    omega
  | true =>
    dsimp only
    rw [Function.update_self, Function.update_of_ne (by simp), Nat.add_mul, List.length_nil]
    omega

theorem saveChunk_filled (d : Bool) (content : Bytes) (chunkAddr : RecipeEntry) (sf : SuperFeature)
    (fp : Fp) (s : Server) (h : (s.opened d).buf.length ≤ MAX_CONTAINER_SIZE) :
    filled s + RECORD_OVERHEAD ≤ filled (saveChunk d content chunkAddr sf fp s).1 := by
  have hrecord : ∀ r : ChunkRecord, RECORD_OVERHEAD ≤ r.toBytes.length := by
    intro r
    rw [ChunkRecord.toBytes_length]
    exact Nat.le_add_left _ _
  unfold saveChunk
  by_cases hfits : recordFits content (s.opened d).buf.length
  · rw [if_pos hfits]
    refine Nat.le_trans ?_ (filled_append d s _).ge
    exact Nat.add_le_add_left (hrecord _) _
  · rw [if_neg hfits, writeContainer_full]
    refine Nat.le_trans ?_ (filled_append d (flushed d s) _).ge
    exact Nat.add_le_add (filled_flushed d s h) (hrecord _)

theorem Inv.opened_length (h : Inv env s R Lost) {stage : UploadStage}
    (hphase : s.phase = .uploading stage) (d : Bool) :
    (s.opened d).buf.length < MAX_CONTAINER_SIZE := by
  obtain ⟨_, hstores, _⟩ := h.at hphase
  have hplace := hstores.holds.place (d, (s.opened d).containerID)
  have hopen : opensIn (.uploading stage) s (d, (s.opened d).containerID) =
      some (s.opened d).buf := uploadOpens_self s d
  rw [hopen] at hplace
  obtain ⟨_, _, _, rs, hrs, hbuf⟩ := hplace.of_open
  rw [hbuf]
  exact (hstores.holds.ok.packed hrs).fits

/-- A session that stores a chunk is far from the end of its counter. -/
theorem Inv.filled_lt (h : Inv env s R Lost) {stage : UploadStage}
    (hphase : s.phase = .uploading stage) (htimes : s.con_times < 2 ^ 31) :
    filled s < 2 ^ 54 := by
  have hfalse := h.opened_length hphase false
  have htrue := h.opened_length hphase true
  unfold filled
  unfold MAX_CONTAINER_SIZE at hfalse htrue ⊢
  omega

theorem storeChunk_filled (h : Inv env s R Lost) {stage : UploadStage}
    (hphase : s.phase = .uploading stage) (x : QueryEntry) :
    filled s + RECORD_OVERHEAD ≤ filled (storeChunk env x s).2.2 := by
  obtain ⟨a, buf, hs'⟩ := storeChunk_server env x s
  obtain ⟨n, heq⟩ := ProcessSheUniqueChunk_eq env a buf x.superfeature x.chunkHash s
  rw [hs', heq]
  exact saveChunk_filled _ _ _ _ _
    { s with
      iv := PickNewIV s.iv
      onlineBackupSize := n } (h.opened_length hphase _).le

theorem closeSession_buf (s : Server) (d : Bool) :
    ((closeSession s).opened d).buf = (s.opened d).buf := by
  have hlast : ∀ (e : Bool) (s : Server), ((lastContainer e s).opened d).buf = (s.opened d).buf := by
    intro e s
    unfold lastContainer
    split
    · unfold writeContainer
      dsimp only
      by_cases hd : d = e
      · rw [hd, Function.update_self]
      · rw [Function.update_of_ne hd]
    · rfl
  unfold closeSession
  rw [hlast, hlast]

/-- The offline pass leaves the session's IV and containers alone. -/
theorem passClosed_upload (env : EnclaveEnv) (s : Server) :
    PassClosed env fun t => t.iv = s.iv ∧ t.opened = s.opened ∧ s.con_times ≤ t.con_times where
  read _ h := h
  size _ h := h
  erase _ h := h
  replace _ _ h := h
  query _ h := h
  store := by
    rintro t chunkHash newBase recipe new_delta fp sf iv ⟨hiv, hopened, htimes⟩
    obtain ⟨⟨f, c, n, hs, hle⟩, _⟩ := InsertHot_container_frame (env.EncryptWithKeyIV iv new_delta)
      { recipe with
        length := UInt32.ofNat new_delta.length
        basechunkHash := newBase } fp sf iv t
    unfold storeHot
    dsimp only
    rw [hs]
    exact ⟨hiv, hopened, Nat.le_trans htimes hle⟩

theorem passClosed_phase (env : EnclaveEnv) (s : Server) :
    PassClosed env fun t => t.phase = s.phase where
  read _ h := h
  size _ h := h
  erase _ h := h
  replace _ _ h := h
  query _ h := h
  store := by
    intro t chunkHash newBase recipe new_delta fp sf iv h
    exact (storeHot_indexes env chunkHash newBase recipe new_delta fp sf iv t).2.2.2.phase.trans h

/-- Containers are filled and replaced, until the next session. -/
theorem filled_step (h : Inv env s R Lost) (hs : step env s a = some s')
    (ha : ∀ iv, a ≠ .startSession iv) : filled s ≤ filled s' := by
  obtain ⟨hstepped, htimes⟩ := step_stepped hs
  have hmono : ∀ {t : Server}, s.con_times ≤ t.con_times →
      (∀ d, (t.opened d).buf = (s.opened d).buf) → filled s ≤ filled t := by
    intro t ht hopened
    unfold filled
    rw [hopened, hopened]
    have := Nat.mul_le_mul_right MAX_CONTAINER_SIZE ht
    omega
  cases hstepped with
  | startSession _ => exact absurd rfl (ha _)
  | processOff _ _ =>
    apply hmono
    · unfold startOffline
      dsimp only
      split <;> exact Nat.le_succ _
    · intro d
      unfold startOffline
      dsimp only
      split <;> rfl
  | offlinedeltaTure hph =>
    obtain ⟨c, t, hframe⟩ := OfflinedeltaTure_frame _ _ s
    rw [hframe]
    exact Nat.le_refl _
  | storeChunk hph => exact Nat.le_trans (Nat.le_add_right _ _) (storeChunk_filled h hph _)
  | endBatch hph _ =>
    obtain ⟨di, tmp, skip, hframe⟩ := finishBatch_frame _ s
    rw [hframe]
    exact Nat.le_refl _
  | updateOutIndex hph =>
    obtain ⟨idx, sf, hframe, _⟩ := h.registered hph
    rw [hframe]
    exact Nat.le_refl _
  | uploadRecipeEnd _ =>
    refine @hmono { ProcessTailBatch s with phase := .uploading .tailed } (Nat.le_refl _) ?_
    intro d
    change (tailContainer (s.opened d)).buf = (s.opened d).buf
    unfold tailContainer
    split <;> rfl
  | disconnect _ =>
    refine @hmono { closeSession s with phase := .draining } ?_ ?_
    · obtain ⟨q, o, t, hframe, hle⟩ := closeSession_frame s
      rw [hframe]
      exact hle
    · exact closeSession_buf s
  | updatePair hph _ ht =>
    have hpair := (passClosed_upload env s).Easy_update_pair ⟨rfl, rfl, Nat.le_refl _⟩ ht
    exact hmono hpair.2.2 fun d => by rw [hpair.2.1]
  | coldrevise _ _ _ =>
    apply hmono
    · dsimp only
      split <;> exact Nat.le_refl _
    · intro d
      dsimp only
      split <;> rfl
  | updateCold _ _ ht =>
    obtain ⟨x, _, ht⟩ := Option.bind_eq_some_iff.mp ht
    rw [← Option.some.inj ht]
    exact Nat.le_refl _
  | mergePair _ ht =>
    obtain ⟨first, _, ht⟩ := Option.bind_eq_some_iff.mp ht
    obtain ⟨second, _, ht⟩ := Option.bind_eq_some_iff.mp ht
    rw [← Option.some.inj ht]
    exact Nat.le_refl _
  | _ => exact Nat.le_refl _

end Filled

section History
variable {env : EnclaveEnv} {s s' : Server} {R : Records} {Lost : Fp → Prop} {a : Action}
  {acts : List Action}

/-- The session's IV after a step. -/
def nextIV (iv : IV) : Action → IV
  | .startSession iv' => iv'
  | .storeChunk => PickNewIV iv
  | _ => iv

theorem step_iv (h : Inv env s R Lost) (hs : step env s a = some s') : s'.iv = nextIV s.iv a := by
  obtain ⟨hstepped, _⟩ := step_stepped hs
  cases hstepped with
  | processOff _ _ =>
    unfold startOffline
    dsimp only
    split <;> rfl
  | offlinedeltaTure hph =>
    obtain ⟨c, t, hframe⟩ := OfflinedeltaTure_frame _ _ s
    rw [hframe]
    rfl
  | storeChunk hph =>
    obtain ⟨q, o, t, n, hframe, _⟩ := storeChunk_frame env _ s
    rw [hframe]
    rfl
  | endBatch hph _ =>
    obtain ⟨di, tmp, skip, hframe⟩ := finishBatch_frame _ s
    rw [hframe]
    rfl
  | updateOutIndex hph =>
    obtain ⟨idx, sf, hframe, _⟩ := h.registered hph
    rw [hframe]
    rfl
  | disconnect _ =>
    obtain ⟨q, o, t, hframe, _⟩ := closeSession_frame s
    rw [hframe]
    rfl
  | updatePair hph _ ht =>
    exact ((passClosed_upload env s).Easy_update_pair ⟨rfl, rfl, Nat.le_refl _⟩ ht).1
  | coldrevise _ _ _ =>
    dsimp only
    split <;> rfl
  | updateCold _ _ ht =>
    obtain ⟨x, _, ht⟩ := Option.bind_eq_some_iff.mp ht
    rw [← Option.some.inj ht]
    rfl
  | mergePair _ ht =>
    obtain ⟨first, _, ht⟩ := Option.bind_eq_some_iff.mp ht
    obtain ⟨second, _, ht⟩ := Option.bind_eq_some_iff.mp ht
    rw [← Option.some.inj ht]
    rfl
  | _ => rfl

/-- The IV comes from one of the ranges. -/
def InRanges (ranges : List (IV × Nat)) (iv : IV) : Prop :=
  ∃ u ∈ ranges, ∃ i, 1 ≤ i ∧ i ≤ u.2 ∧ iv = PickNewIV^[i] u.1

theorem InRanges.cons {ranges : List (IV × Nat)} {iv : IV} (h : InRanges ranges iv)
    (u : IV × Nat) : InRanges (u :: ranges) iv := by
  obtain ⟨v, hv, hi⟩ := h
  exact ⟨v, List.mem_cons_of_mem u hv, hi⟩

/-- A session that has taken one IV has the rest of its range. -/
theorem InRanges.next {ranges : List (IV × Nat)} {iv iv₀ : IV} {n : Nat}
    (h : InRanges ((PickNewIV iv₀, n) :: ranges) iv) : InRanges ((iv₀, n + 1) :: ranges) iv := by
  obtain ⟨u, hu, i, hpos, hle, hiv⟩ := h
  rcases List.mem_cons.mp hu with rfl | hu
  · refine ⟨(iv₀, n + 1), List.mem_cons_self, i + 1, Nat.succ_pos i, Nat.succ_le_succ hle, ?_⟩
    rw [hiv, Function.iterate_succ_apply]
  · exact ⟨u, List.mem_cons_of_mem _ hu, i, hpos, hle, hiv⟩

/-- One step of the history of a run that re-encrypts nothing. -/
theorem history_cons {ranges : List (IV × Nat)} (h : Inv env s R Lost)
    (hs : step env s a = some s') (hnothing : NothingReencrypted env s a)
    (hranges : ranges = (s.iv, (uploadRanges (a :: acts)).2) :: (uploadRanges (a :: acts)).1) :
    (encryptHistory env s (a :: acts) = encryptHistory env s' acts ∧
      (ranges = (s'.iv, (uploadRanges acts).2) :: (uploadRanges acts).1 ∨
        ranges = (s.iv, 0) :: (s'.iv, (uploadRanges acts).2) :: (uploadRanges acts).1)) ∨
      (∃ p, encryptHistory env s (a :: acts) = (PickNewIV s.iv, p) :: encryptHistory env s' acts ∧
        s'.iv = PickNewIV s.iv ∧ a = .storeChunk ∧
        ranges = (s.iv, (uploadRanges acts).2 + 1) :: (uploadRanges acts).1) := by
  have hiv := step_iv h hs
  have hhistory : encryptHistory env s (a :: acts) =
      encryptCalls env s a ++ encryptHistory env s' acts := by
    rw [encryptHistory, hs]
    rfl
  obtain ⟨hstepped, htimes⟩ := step_stepped hs
  rw [hhistory]
  cases hstepped with
  | startSession _ =>
    rw [hranges, hiv]
    exact Or.inl ⟨rfl, Or.inr rfl⟩
  | storeChunk hph =>
    obtain ⟨p, hp⟩ : ∃ p, encryptCalls env s .storeChunk = [(PickNewIV s.iv, p)] := by
      unfold encryptCalls
      rw [hph]
      exact ⟨_, rfl⟩
    rw [hp]
    exact Or.inr ⟨p, rfl, hiv, rfl, hranges⟩
  | updatePair hph hpair ht =>
    rename_i old new t
    have hnone : encryptCalls env s (.updatePair old) = [] := by
      change (s.local_basemap.lookup old).elim [] _ = []
      rw [hpair]
      exact hnothing new hpair
    rw [hranges, hiv, hnone]
    exact Or.inl ⟨rfl, Or.inl rfl⟩
  | _ =>
    rw [hranges, hiv]
    exact Or.inl ⟨rfl, Or.inl rfl⟩

theorem history_inRanges (h : Inv env s R Lost) (hrun : runs (step env) s acts = some s')
    (hmeet : StepsMeet (step env) (NothingReencrypted env) s acts) {c : EncryptCall}
    (hc : c ∈ encryptHistory env s acts) :
    InRanges ((s.iv, (uploadRanges acts).2) :: (uploadRanges acts).1) c.1 := by
  induction acts generalizing s R Lost with
  | nil => simp [encryptHistory] at hc
  | cons a acts ih =>
    obtain ⟨t, ht, hrest⟩ := runs_cons.mp hrun
    obtain ⟨R', Lost', hinv⟩ := h.step ht
    rcases history_cons h ht hmeet.1 rfl with ⟨heq, hranges⟩ | ⟨p, heq, hiv, _, hranges⟩
    · rw [heq] at hc
      have hin := ih hinv hrest (hmeet.2 t ht) hc
      rcases hranges with hranges | hranges
      · rw [hranges]
        exact hin
      · rw [hranges]
        exact hin.cons _
    · rw [hranges]
      rw [heq] at hc
      rcases List.mem_cons.mp hc with rfl | hc
      · exact ⟨_, List.mem_cons_self, 1, Nat.le_refl 1, Nat.succ_le_succ (Nat.zero_le _), rfl⟩
      · have hin := ih hinv hrest (hmeet.2 t ht) hc
        rw [hiv] at hin
        exact hin.next

/-- Ranges that no session leaves and that do not meet. -/
structure RangesOk (ranges : List (IV × Nat)) : Prop where
  apart : ranges.Pairwise RangesApart
  short : ∀ u ∈ ranges, u.2 < 2 ^ 64

theorem RangesOk.next {ranges : List (IV × Nat)} {iv : IV} {n : Nat}
    (h : RangesOk ((iv, n + 1) :: ranges)) : RangesOk ((PickNewIV iv, n) :: ranges) := by
  obtain ⟨hhead, htail⟩ := List.pairwise_cons.mp h.apart
  refine ⟨List.pairwise_cons.mpr ⟨?_, htail⟩, ?_⟩
  · intro v hv i j hi hin hj hjn
    have hapart := hhead v hv (i + 1) j (Nat.succ_pos i) (Nat.succ_le_succ hin) hj hjn
    rw [Function.iterate_succ_apply] at hapart
    exact hapart
  · intro u hu
    rcases List.mem_cons.mp hu with rfl | hu
    · exact Nat.lt_of_succ_lt (h.short _ List.mem_cons_self)
    · exact h.short u (List.mem_cons_of_mem _ hu)

/-- The IV a session takes next is in none of the ranges that remain. -/
theorem RangesOk.next_notin {ranges : List (IV × Nat)} {iv : IV} {n : Nat}
    (h : RangesOk ((iv, n + 1) :: ranges)) :
    ¬InRanges ((PickNewIV iv, n) :: ranges) (PickNewIV iv) := by
  obtain ⟨hhead, _⟩ := List.pairwise_cons.mp h.apart
  have hshort := h.short _ List.mem_cons_self
  rintro ⟨u, hu, i, hi, hin, heq⟩
  rcases List.mem_cons.mp hu with rfl | hu
  · have hone : PickNewIV^[1] iv = PickNewIV^[i + 1] iv := by
      rw [Function.iterate_succ_apply PickNewIV i]
      exact heq
    have := iterate_inj (by decide) (by dsimp only at hin hshort; omega) hone
    omega
  · exact hhead u hu 1 i (Nat.le_refl 1) (Nat.succ_le_succ (Nat.zero_le n)) hi hin heq

theorem history_nodup (h : Inv env s R Lost) (hrun : runs (step env) s acts = some s')
    (hmeet : StepsMeet (step env) (NothingReencrypted env) s acts)
    (hok : RangesOk ((s.iv, (uploadRanges acts).2) :: (uploadRanges acts).1)) :
    ((encryptHistory env s acts).map Prod.fst).Nodup := by
  induction acts generalizing s R Lost with
  | nil => exact List.nodup_nil
  | cons a acts ih =>
    obtain ⟨t, ht, hrest⟩ := runs_cons.mp hrun
    obtain ⟨R', Lost', hinv⟩ := h.step ht
    rcases history_cons h ht hmeet.1 rfl with ⟨heq, hranges⟩ | ⟨p, heq, hiv, _, hranges⟩
    · rw [heq]
      apply ih hinv hrest (hmeet.2 t ht)
      rcases hranges with hranges | hranges
      · rw [← hranges]
        exact hok
      · rw [hranges] at hok
        exact ⟨(List.pairwise_cons.mp hok.apart).2,
          fun u hu => hok.short u (List.mem_cons_of_mem _ hu)⟩
    · rw [hranges] at hok
      have hnext := hok.next
      rw [← hiv] at hnext
      rw [heq, List.map_cons, List.nodup_cons]
      refine ⟨fun hmem => ?_, ih hinv hrest (hmeet.2 t ht) hnext⟩
      obtain ⟨c, hc, hfst⟩ := List.mem_map.mp hmem
      have hin := history_inRanges hinv hrest (hmeet.2 t ht) hc
      rw [hfst, hiv] at hin
      exact hok.next_notin hin

/-- No session stores so many chunks that its counter comes round. -/
theorem uploadRanges_short (h : Inv env s R Lost) (hrun : runs (step env) s acts = some s') :
    (∀ u ∈ (uploadRanges acts).1, u.2 < 2 ^ 64) ∧
      ((uploadRanges acts).2 = 0 ∨ (uploadRanges acts).2 + filled s < 2 ^ 64) := by
  induction acts generalizing s R Lost with
  | nil => exact ⟨by simp [uploadRanges], Or.inl rfl⟩
  | cons a acts ih =>
    obtain ⟨t, ht, hrest⟩ := runs_cons.mp hrun
    obtain ⟨R', Lost', hinv⟩ := h.step ht
    obtain ⟨hall, hnow⟩ := ih hinv hrest
    have hother : (∀ iv, a ≠ .startSession iv) → uploadRanges (a :: acts) = uploadRanges acts →
        (∀ u ∈ (uploadRanges (a :: acts)).1, u.2 < 2 ^ 64) ∧
          ((uploadRanges (a :: acts)).2 = 0 ∨ (uploadRanges (a :: acts)).2 + filled s < 2 ^ 64) := by
      intro ha heq
      have hle := filled_step h ht ha
      rw [heq]
      exact ⟨hall, by omega⟩
    cases a with
    | startSession iv =>
      refine ⟨?_, Or.inl rfl⟩
      intro u hu
      rcases List.mem_cons.mp hu with rfl | hu
      · dsimp only
        omega
      · exact hall u hu
    | storeChunk =>
      obtain ⟨hstepped, htimes⟩ := step_stepped ht
      refine ⟨hall, Or.inr ?_⟩
      change (uploadRanges acts).2 + 1 + filled s < 2 ^ 64
      cases hstepped with
      | storeChunk hph =>
        rename_i x b
        have hpos : 0 < RECORD_OVERHEAD := by decide
        have hmore := storeChunk_filled h hph x
        have hbound := hinv.filled_lt rfl htimes
        have hsame : filled { (storeChunk env x s).2.2 with
            phase := .uploading (.chunkLoop
              { b with
                done := b.done ++ [(storeChunk env x s).1]
                process_buffer := b.process_buffer ++ (storeChunk env x s).2.1.toList }) } =
            filled (storeChunk env x s).2.2 := rfl
        omega
    | _ => exact hother (by simp) rfl

/-- Outside a session no chunk is stored. -/
theorem uploadRanges_idle (hphase : ∀ stage, s.phase ≠ .uploading stage)
    (hrun : runs (step env) s acts = some s') : (uploadRanges acts).2 = 0 := by
  induction acts generalizing s with
  | nil => rfl
  | cons a acts ih =>
    obtain ⟨t, ht, hrest⟩ := runs_cons.mp hrun
    obtain ⟨hstepped, _⟩ := step_stepped ht
    cases hstepped with
    | startSession _ => rfl
    | processOff _ _ =>
      refine ih (fun stage => ?_) hrest
      unfold startOffline
      dsimp only
      split
      · simp
      · exact hphase stage
    | openFile | writeFile | closeFile =>
      refine ih ?_ hrest
      exact hphase
    | join | coldrevise | updateCold | getMergeContainer | mergePair | endOffline =>
      exact ih (by simp) hrest
    | getLocal hph _ _ =>
      refine ih ?_ hrest
      exact hphase
    | updatePair hph _ hpair =>
      have hsame := (passClosed_phase env s).Easy_update_pair rfl hpair
      refine ih ?_ hrest
      exact fun stage heq => hphase stage (hsame.symm.trans heq)
    | uploadChunk hph _ => exact absurd hph (hphase _)
    | offlinedeltaTure hph => exact absurd hph (hphase _)
    | storeChunk hph => exact absurd hph (hphase _)
    | endBatch hph _ => exact absurd hph (hphase _)
    | updateOutIndex hph => exact absurd hph (hphase _)
    | uploadRecipeEnd hph => exact absurd hph (hphase _)
    | disconnect hph => exact hph.elim (fun h => absurd h (hphase _)) fun h => absurd h (hphase _)

theorem pair_eq_of_nodup {l : List EncryptCall} (h : (l.map Prod.fst).Nodup) {iv : IV}
    {p p' : Bytes} (hp : (iv, p) ∈ l) (hp' : (iv, p') ∈ l) : p = p' := by
  have heq := List.inj_on_of_nodup_map h hp hp' rfl
  exact congrArg Prod.snd heq

/-- In a run that re-encrypts nothing, an IV stands for one plaintext. -/
theorem history_plaintext {Forward_Flag Offline_Flag : Bool}
    (hrun : runs (step env) (Server.start Forward_Flag Offline_Flag) acts = some s)
    (hapart : (uploadRanges acts).1.Pairwise RangesApart)
    (hmeet : StepsMeet (step env) (NothingReencrypted env) (Server.start Forward_Flag Offline_Flag)
      acts)
    {iv : IV} {p p' : Bytes}
    (hp : (iv, p) ∈ encryptHistory env (Server.start Forward_Flag Offline_Flag) acts)
    (hp' : (iv, p') ∈ encryptHistory env (Server.start Forward_Flag Offline_Flag) acts) : p = p' := by
  have hstart := @Inv.start env Forward_Flag Offline_Flag
  have hfirst := uploadRanges_idle (by simp [Server.start]) hrun
  have hok : RangesOk (((Server.start Forward_Flag Offline_Flag).iv, (uploadRanges acts).2) ::
      (uploadRanges acts).1) := by
    rw [hfirst]
    refine ⟨List.pairwise_cons.mpr ⟨?_, hapart⟩, ?_⟩
    · intro v _ i j hi hizero
      exact absurd (Nat.le_trans hi hizero) (Nat.not_succ_le_zero 0)
    · intro u hu
      rcases List.mem_cons.mp hu with rfl | hu
      · exact Nat.two_pow_pos 64
      · exact (uploadRanges_short hstart hrun).1 u hu
  exact pair_eq_of_nodup (history_nodup hstart hrun hmeet hok) hp hp'

end History

/-- A complete session with two chunks, the second one like the first. -/
def twoChunkSession (iv : IV) (chunk chunk' : Bytes) : List Action :=
  .startSession iv :: (uploadOne chunk ++ uploadOne chunk' ++ recipeEndOne)

/-- The second chunk replaces the first as a base, and the pass takes up this pair. -/
def pairPass (chunk chunk' : Bytes) : List Action :=
  [.processOff [(FixedBytes.read 32 chunk 0, FixedBytes.read 32 chunk' 0)], .getLocal,
    .updatePair (FixedBytes.read 32 chunk 0)]

/-- Two sessions and a pass between them; a delta is no shorter than one byte. -/
def twoSessions : List Action :=
  twoChunkSession (FixedBytes.fill 16 0) [65] [66] ++
    (pairPass [65] [66] ++ ([.coldrevise, .getMergeContainer, .endOffline] ++
      twoChunkSession (FixedBytes.fill 16 1) [67] [68]))

theorem history_plaintext_sessions : ∃ s p,
    runs (step lz4Env) (Server.start false true) twoSessions = some s ∧
    (PickNewIV (FixedBytes.fill 16 0), p) ∈
      encryptHistory lz4Env (Server.start false true) twoSessions ∧
    ∀ p', (PickNewIV (FixedBytes.fill 16 0), p') ∈
      encryptHistory lz4Env (Server.start false true) twoSessions → p = p' := by
  have hrun : ((runs (step lz4Env) (Server.start false true) twoSessions).map Server.phase) =
      some .idle := by
    decide +kernel
  have hmem : (PickNewIV (FixedBytes.fill 16 0), [65]) ∈
      encryptHistory lz4Env (Server.start false true) twoSessions := by
    decide +kernel
  obtain ⟨s, hs, _⟩ := Option.map_eq_some_iff.mp hrun
  have hapart : (uploadRanges twoSessions).1.Pairwise RangesApart := by
    have hranges : (uploadRanges twoSessions).1 =
        [(FixedBytes.fill 16 0, 2), (FixedBytes.fill 16 1, 2)] := rfl
    rw [hranges, List.pairwise_pair]
    intro i j hi hi' hj hj'
    dsimp only at hi' hj' ⊢
    obtain rfl | rfl : i = 1 ∨ i = 2 := by omega
    · obtain rfl | rfl : j = 1 ∨ j = 2 := by omega
      · decide
      · decide
    · obtain rfl | rfl : j = 1 ∨ j = 2 := by omega
      · decide
      · decide
  have hmeet : StepsMeet (step lz4Env) (NothingReencrypted lz4Env) (Server.start false true)
      twoSessions := by
    decide +kernel
  exact ⟨s, _, hs, hmem, fun p' hp' => history_plaintext hs hapart hmeet hmem hp'⟩

def longChunk : Bytes := List.replicate 17 7

/-- The pass encodes the first chunk against the second. -/
def reencodeRun : List Action :=
  twoChunkSession (FixedBytes.fill 16 0) longChunk (longChunk ++ [8]) ++
    pairPass longChunk (longChunk ++ [8])

/-- The block that LZ4 makes of the chunk and the delta of the chunk, under one IV. -/
theorem history_repeats : ∃ s,
    runs (step lz4Env) (Server.start false true) reencodeRun = some s ∧
    (uploadRanges reencodeRun).1.Pairwise RangesApart ∧
    (PickNewIV (FixedBytes.fill 16 0), [23, 7, 1, 0, 80, 7, 7, 7, 7, 7]) ∈
      encryptHistory lz4Env (Server.start false true) reencodeRun ∧
    (PickNewIV (FixedBytes.fill 16 0), [17, 0, 0, 0, 0, 0, 0, 0]) ∈
      encryptHistory lz4Env (Server.start false true) reencodeRun := by
  have hrun : ((runs (step lz4Env) (Server.start false true) reencodeRun).map fun s =>
      s.local_basemap.keys) = some [] := by
    decide +kernel
  have hhistory : (PickNewIV (FixedBytes.fill 16 0), [23, 7, 1, 0, 80, 7, 7, 7, 7, 7]) ∈
        encryptHistory lz4Env (Server.start false true) reencodeRun ∧
      (PickNewIV (FixedBytes.fill 16 0), [17, 0, 0, 0, 0, 0, 0, 0]) ∈
        encryptHistory lz4Env (Server.start false true) reencodeRun := by
    decide +kernel
  obtain ⟨s, hs, _⟩ := Option.map_eq_some_iff.mp hrun
  exact ⟨s, hs, List.pairwise_singleton _ _, hhistory⟩

end ShieldReduce.Prototype
