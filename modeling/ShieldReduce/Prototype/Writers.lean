import ShieldReduce.Prototype.Expand
import ShieldReduce.Prototype.Ivs

/-!
# The two writers of a container

`SaveChunk`, with which `EcallDEBE` stores a unique chunk, and `SavebaseChunk` and
`SavedeltaChunk`, with which `EcallFreqIndex` does, all read by one `EcallRecvDecoder`.
-/

namespace ShieldReduce.Prototype
open Lib Store EDelta

/-- The indexes that the server can be started with. -/
inductive IndexType
  | FREQ_INDEX
  | DEBE
deriving DecidableEq

section DEBE
variable (env : EnclaveEnv)

/-- The test of `SaveChunk`, which leaves out the entry and the hashes. -/
def chunkFits (content : Bytes) (curSize : Nat) : Prop :=
  CRYPTO_BLOCK_SIZE + content.length + curSize < MAX_CONTAINER_SIZE

instance (content : Bytes) (curSize : Nat) : Decidable (chunkFits content curSize) :=
  inferInstanceAs (Decidable (_ < _))

/-- `EcallStorageCore::SaveChunk` -/
def SaveChunk (chunkData : Bytes) (chunkAddr : RecipeEntry) (s : Server) : Server × RecipeEntry :=
  let s :=
    if chunkFits chunkData (s.opened false).buf.length then s
    else
      let c := s.opened false
      Ocall_WriteContainer
        { s with opened := Function.update s.opened false ⟨c.containerID, [], c.buf⟩ }
  let c := s.opened false
  ({ s with
      opened := Function.update s.opened false { c with buf := c.buf ++ (chunkData ++ s.iv.val) } },
    { chunkAddr with
      length := UInt32.ofNat chunkData.length
      containerName := c.containerID
      offset := UInt32.ofNat c.buf.length })

/-- `EnclaveBase::ProcessUniqueChunk` -/
def ProcessUniqueChunk (chunkAddr : RecipeEntry) (chunkBuffer : Bytes) (s : Server) :
    Server × RecipeEntry :=
  let currentIV := PickNewIV s.iv
  let content := uniqueContent env NO_DELTA chunkBuffer
  let s := { s with
    iv := currentIV, onlineBackupSize := s.onlineBackupSize + UInt64.ofNat content.length }
  SaveChunk (env.EncryptWithKeyIV currentIV content) chunkAddr s

end DEBE

section Sessions
variable (env : EnclaveEnv)

/-- A chunk that no index knows. `left` is what earlier batches left in its in-enclave `chunkAddr`,
`queried` the server whose databases looked for a base, `saved` how many containers of the queue the
writer thread has written by then. -/
structure UniqueChunk where
  left : RecipeEntry
  chunk : Bytes
  Local_Flag : Bool
  queried : Server
  saved : Nat

/-- What was written for a chunk, and the address returned for it. -/
structure Written where
  addr : RecipeEntry
  cipher : Bytes
  iv : IV
  whole : Bool

/-- The entry that `EcallFreqIndex` queries the databases with. -/
def uniqueEntry (left : RecipeEntry) (chunk : Bytes) : QueryEntry where
  inHash := env.GenerateHash chunk
  chunkHash := env.IndexAESCMCEnc (env.GenerateHash chunk)
  chunk := chunk
  dedupFlag := .UNIQUE
  superfeature := env.getSF2 chunk
  deltaFlag := NO_DELTA
  offlineFlag := false
  basechunkHash := left.basechunkHash
  basechunkAddr := left
  containerbuffer := []
  chunkAddr := { left with deltaFlag := NO_DELTA }

def saveFiles (queue : List Container) (files : Table Path Bytes) : Table Path Bytes :=
  queue.foldl (fun files c => files.insert c.path c.body) files

/-- `DataWriter::Run` on the first `n` containers of the queue. -/
def writeQueue (n : Nat) (s : Server) : Server :=
  { s with files := saveFiles (s.inputMQ.take n) s.files, inputMQ := s.inputMQ.drop n }

def storeUnique (index : IndexType) (u : UniqueChunk) (s : Server) : Server × Written :=
  let s := writeQueue u.saved s
  match index with
  | .FREQ_INDEX =>
    let x := Ocall_QueryOutBasechunk u.queried (uniqueEntry env u.left u.chunk)
    let (x, _, s) := OfflinedeltaTure u.Local_Flag x s
    let call := storeCall env x s
    let (x, _, s) := storeChunk env x s
    (s, ⟨x.chunkAddr, env.EncryptWithKeyIV call.1 call.2, call.1, x.deltaFlag = NO_DELTA⟩)
  | .DEBE =>
    let (s', chunkAddr) := ProcessUniqueChunk env u.left u.chunk s
    (s', ⟨chunkAddr, env.EncryptWithKeyIV (PickNewIV s.iv) (uniqueContent env NO_DELTA u.chunk),
      PickNewIV s.iv, true⟩)

def storeAll (index : IndexType) : List UniqueChunk → Server → Server × List Written
  | [], s => (s, [])
  | u :: us, s =>
    let (s, w) := storeUnique env index u s
    let (s, ws) := storeAll index us s
    (s, w :: ws)

/-- The random IV and the unique chunks of an upload session. -/
abbrev StoreSession : Type := IV × List UniqueChunk

/-- The client leaves, and the writer thread is joined. -/
def endSession (s : Server) : Server :=
  let s := closeSession (ProcessTailBatch s)
  writeQueue s.inputMQ.length s

def storeSession (index : IndexType) (session : StoreSession) (s : Server) :
    Server × List Written :=
  let (s, ws) := storeAll env index session.2 (startSession session.1 s)
  (endSession s, ws)

def storeSessions (index : IndexType) : List StoreSession → Server → Server × List Written
  | [], s => (s, [])
  | session :: sessions, s =>
    let (s, ws) := storeSession env index session s
    let (s, ws') := storeSessions index sessions s
    (s, ws ++ ws')

end Sessions

section Reader

/-- The files once the writer thread has emptied the queue. -/
def writtenFiles (s : Server) : Table Path Bytes := saveFiles s.inputMQ s.files

/-- `EnclaveRecvDecoder::GetReqContainers` looks among the base containers first. -/
def reqContainer (files : Table Path Bytes) (name : ContainerName) : Option Bytes :=
  (files.lookup (false, name)).or (files.lookup (true, name))

/-- What `EcallRecvDecoder` takes at the address is what was written, whatever its container buffer
held before. -/
def Denoted (files : Table Path Bytes) (w : Written) : Prop :=
  ∃ body, reqContainer files w.addr.containerName = some body ∧
    (∀ containerArray, getChunkContent (memcpy containerArray 0 body) w.addr = w.cipher ∧
      getChunkIV (memcpy containerArray 0 body) w.addr = w.iv) ∧
    (w.whole = true → w.addr.deltaFlag = NO_DELTA)

end Reader

section Open
variable {s : Server}

/-- A block goes behind what an open container holds. -/
def putBlock (d : Bool) (block : Bytes) (s : Server) : Server :=
  let c := s.opened d
  { s with opened := Function.update s.opened d { c with buf := c.buf ++ block } }

/-- What the open containers and the files hold, once the queue is written. -/
def pendingAt (s : Server) (p : Path) : Option Bytes :=
  (uploadOpens s p).or ((writtenFiles s).lookup p)

theorem pendingAt_opened (s : Server) (d : Bool) :
    pendingAt s (d, (s.opened d).containerID) = some (s.opened d).buf := by
  unfold pendingAt
  rw [uploadOpens_self]
  rfl

theorem pendingAt_putBlock (d : Bool) (block : Bytes) (s : Server) (p : Path) :
    pendingAt (putBlock d block s) p =
      if p = (d, (s.opened d).containerID) then some ((s.opened d).buf ++ block)
      else pendingAt s p := by
  have hopens : uploadOpens (putBlock d block s) = Function.update (uploadOpens s)
      (d, (s.opened d).containerID) (some ((s.opened d).buf ++ block)) := by
    have h := @uploadOpens_update s (putBlock d block s) d
      { s.opened d with buf := (s.opened d).buf ++ block } rfl
    rw [h, Function.update_idem]
  unfold pendingAt
  rw [hopens]
  by_cases hp : p = (d, (s.opened d).containerID)
  · rw [if_pos hp, hp, Function.update_self]
    rfl
  · rw [if_neg hp, Function.update_of_ne hp]
    rfl

theorem writtenFiles_snoc {s s' : Server} {c : Container} (hfiles : s'.files = s.files)
    (hqueue : s'.inputMQ = s.inputMQ ++ [c]) :
    writtenFiles s' = (writtenFiles s).insert c.path c.body := by
  unfold writtenFiles saveFiles
  rw [hfiles, hqueue, List.foldl_append]
  rfl

theorem writtenFiles_writeQueue (n : Nat) (s : Server) :
    writtenFiles (writeQueue n s) = writtenFiles s := by
  unfold writtenFiles writeQueue saveFiles
  dsimp only
  rw [← List.foldl_append, List.take_append_drop]

/-- A full container is found where it was. -/
theorem pendingAt_flushed (d : Bool) (s : Server) {p : Path} (hp : p.2 ≠ CreateUUID s.con_times) :
    pendingAt (flushed d s) p = pendingAt s p := by
  have hne : p ≠ (d, CreateUUID s.con_times) := fun heq => hp (congrArg Prod.snd heq)
  have hopens := @uploadOpens_update s (flushed d s) d ⟨CreateUUID s.con_times, [], []⟩ rfl
  have hfiles := @writtenFiles_snoc s (flushed d s) ⟨(s.opened d).containerID, d, (s.opened d).buf⟩
    rfl rfl
  unfold pendingAt
  rw [hopens, hfiles, Function.update_of_ne hne]
  unfold Container.path
  rw [Table.lookup_insert_ite]
  by_cases hold : p = (d, (s.opened d).containerID)
  · rw [hold, Function.update_self, if_pos rfl, uploadOpens_self]
    rfl
  · rw [Function.update_of_ne hold, if_neg hold]

/-- Every container has a name drawn before, and no name is drawn for both directories. -/
structure NamesOk (times : Nat) (found : Path → Option Bytes) : Prop where
  drawn : ∀ p, found p ≠ none → Drawn times p.2
  single : ∀ name, found (false, name) = none ∨ found (true, name) = none

theorem NamesOk.fresh {times : Nat} {found : Path → Option Bytes} (h : NamesOk times found)
    (htimes : times < 2 ^ 31) (d : Bool) : found (d, CreateUUID times) = none := by
  by_contra hne
  exact not_drawn_self htimes (h.drawn _ hne)

/-- A container under the next name. -/
theorem NamesOk.open_fresh {times : Nat} {found found' : Path → Option Bytes}
    (h : NamesOk times found) (htimes : times < 2 ^ 31) (d : Bool)
    (hfound : ∀ p, p ≠ (d, CreateUUID times) → found' p = none ∨ found' p = found p) :
    NamesOk (times + 1) found' := by
  refine ⟨?_, ?_⟩
  · intro p hp
    by_cases hnew : p = (d, CreateUUID times)
    · exact ⟨times, Nat.lt_succ_self _, congrArg Prod.snd hnew⟩
    · rcases hfound p hnew with hnone | heq
      · exact absurd hnone hp
      · rw [heq] at hp
        exact (h.drawn p hp).mono (Nat.le_succ _)
  · intro name
    have hkeep : ∀ d', (d', name) ≠ (d, CreateUUID times) → found (d', name) = none →
        found' (d', name) = none := by
      intro d' hne hnone
      rcases hfound _ hne with hnone' | heq
      · exact hnone'
      · rw [heq]
        exact hnone
    by_cases hname : name = CreateUUID times
    · have hnone : ∀ d', found (d', name) = none := fun d' => by rw [hname, h.fresh htimes d']
      cases d with
      | false => exact Or.inr (hkeep true (by simp) (hnone true))
      | true => exact Or.inl (hkeep false (by simp) (hnone false))
    · have hne : ∀ d', (d', name) ≠ (d, CreateUUID times) :=
        fun d' heq => hname (congrArg Prod.snd heq)
      rcases h.single name with hnone | hnone
      · exact Or.inl (hkeep false (hne false) hnone)
      · exact Or.inr (hkeep true (hne true) hnone)

/-- During a session. -/
abbrev OpenOk (s : Server) : Prop := NamesOk s.con_times (pendingAt s)

/-- Between sessions. -/
abbrev ClosedOk (s : Server) : Prop := NamesOk s.con_times (writtenFiles s).lookup

/-- Open containers grow at their ends, the others stay. -/
structure Grown (s s' : Server) : Prop where
  times : s.con_times ≤ s'.con_times
  ok : s'.con_times ≤ 2 ^ 31 → OpenOk s → OpenOk s'
  more : s'.con_times ≤ 2 ^ 31 → OpenOk s → ∀ p b, pendingAt s p = some b →
    ∃ more, pendingAt s' p = some (b ++ more)
  closed : s'.con_times ≤ 2 ^ 31 → OpenOk s → ∀ p b, pendingAt s p = some b →
    uploadOpens s p = none → pendingAt s' p = some b ∧ uploadOpens s' p = none

theorem Grown.trans {s s' s'' : Server} (h : Grown s s') (h' : Grown s' s'') : Grown s s'' := by
  have hle := h'.times
  refine ⟨Nat.le_trans h.times hle, ?_, ?_, ?_⟩
  · intro htimes hok
    exact h'.ok htimes (h.ok (by omega) hok)
  · intro htimes hok p b hp
    obtain ⟨more, hmore⟩ := h.more (by omega) hok p b hp
    obtain ⟨more', hmore'⟩ := h'.more htimes (h.ok (by omega) hok) p _ hmore
    exact ⟨more ++ more', by rw [hmore', List.append_assoc]⟩
  · intro htimes hok p b hp hclosed
    obtain ⟨hp', hclosed'⟩ := h.closed (by omega) hok p b hp hclosed
    exact h'.closed htimes (h.ok (by omega) hok) p b hp' hclosed'

/-- Nothing that a container is found by has changed. -/
theorem Grown.of_eq {s s' : Server} (hopened : s'.opened = s.opened)
    (hfiles : writtenFiles s' = writtenFiles s) (htimes : s'.con_times = s.con_times) :
    Grown s s' := by
  have hopens : uploadOpens s' = uploadOpens s := by
    funext p
    unfold uploadOpens
    rw [hopened]
  have hpending : pendingAt s' = pendingAt s := by
    funext p
    unfold pendingAt
    rw [hopens, hfiles]
  refine ⟨Nat.le_of_eq htimes.symm, ?_, ?_, ?_⟩
  · intro _ hok
    rw [OpenOk, hpending, htimes]
    exact hok
  · intro _ _ p b hp
    exact ⟨[], by rw [hpending, hp, List.append_nil]⟩
  · intro _ _ p b hp hclosed
    rw [hpending, hopens]
    exact ⟨hp, hclosed⟩

theorem grown_putBlock (d : Bool) (block : Bytes) (s : Server) : Grown s (putBlock d block s) := by
  have hself := pendingAt_opened s d
  refine ⟨Nat.le_refl _, ?_, ?_, ?_⟩
  · intro _ hok
    have hnone : ∀ p, pendingAt s p = none → pendingAt (putBlock d block s) p = none := by
      intro p hp
      rw [pendingAt_putBlock, if_neg]
      · exact hp
      · intro heq
        rw [heq, hself] at hp
        simp at hp
    refine ⟨fun p hp => hok.drawn p fun hn => hp (hnone p hn), fun name => ?_⟩
    exact (hok.single name).imp (hnone _) (hnone _)
  · intro _ _ p b hp
    rw [pendingAt_putBlock]
    by_cases heq : p = (d, (s.opened d).containerID)
    · rw [heq, hself, Option.some.injEq] at hp
      exact ⟨block, by rw [if_pos heq, hp]⟩
    · exact ⟨[], by rw [if_neg heq, hp, List.append_nil]⟩
  · intro _ _ p b hp hclosed
    have hne : p ≠ (d, (s.opened d).containerID) := by
      intro heq
      rw [heq, uploadOpens_self] at hclosed
      simp at hclosed
    rw [pendingAt_putBlock, if_neg hne]
    refine ⟨hp, ?_⟩
    rw [@uploadOpens_update s (putBlock d block s) d
      { s.opened d with buf := (s.opened d).buf ++ block } rfl, Function.update_idem,
      Function.update_of_ne hne]
    exact hclosed

theorem grown_flushed (d : Bool) (s : Server) : Grown s (flushed d s) := by
  have hne : (flushed d s).con_times ≤ 2 ^ 31 → OpenOk s → ∀ p b, pendingAt s p = some b →
      p.2 ≠ CreateUUID s.con_times := by
    intro htimes hok p b hp heq
    have hdrawn := hok.drawn p (by rw [hp]; simp)
    rw [heq] at hdrawn
    exact not_drawn_self htimes hdrawn
  have hopens := @uploadOpens_update s (flushed d s) d ⟨CreateUUID s.con_times, [], []⟩ rfl
  refine ⟨Nat.le_succ _, ?_, ?_, ?_⟩
  · intro htimes hok
    apply NamesOk.open_fresh hok htimes d
    intro p hp
    by_cases hname : p.2 = CreateUUID s.con_times
    · left
      have hnone : pendingAt s p = none := by
        have hfresh := hok.fresh htimes p.1
        rwa [← hname] at hfresh
      have hold : p ≠ (d, (s.opened d).containerID) := by
        intro heq
        rw [heq, pendingAt_opened] at hnone
        simp at hnone
      have hfiles := @writtenFiles_snoc s (flushed d s)
        ⟨(s.opened d).containerID, d, (s.opened d).buf⟩ rfl rfl
      unfold pendingAt at hnone ⊢
      rw [hopens, hfiles, Function.update_of_ne hp, Function.update_of_ne hold]
      unfold Container.path
      rw [Table.lookup_insert_ite, if_neg hold]
      exact hnone
    · exact Or.inr (pendingAt_flushed d s hname)
  · intro htimes hok p b hp
    rw [pendingAt_flushed d s (hne htimes hok p b hp)]
    exact ⟨[], by rw [hp, List.append_nil]⟩
  · intro htimes hok p b hp hclosed
    have hname := hne htimes hok p b hp
    rw [pendingAt_flushed d s hname]
    refine ⟨hp, ?_⟩
    rw [hopens, Function.update_of_ne fun heq => hname (congrArg Prod.snd heq)]
    by_cases hold : p = (d, (s.opened d).containerID)
    · rw [hold, Function.update_self]
    · rw [Function.update_of_ne hold]
      exact hclosed

end Open

section Save
variable {env : EnclaveEnv} {s : Server}

/-- The container a save writes to: the open one, or the next when that is full. -/
def placed (d : Bool) (fits : Prop) [Decidable fits] (s : Server) : Server :=
  if fits then s else flushed d s

theorem grown_placed (d : Bool) (fits : Prop) [Decidable fits] (s : Server) :
    Grown s (placed d fits s) := by
  unfold placed
  split
  · exact Grown.of_eq rfl rfl rfl
  · exact grown_flushed d s

/-- The record that was written stands where the address says. -/
structure Standing (w : Written) (d : Bool) (found : Path → Option Bytes) : Prop where
  record : ∃ body r, found (d, w.addr.containerName) = some body ∧ StandsIn body r ∧
    r.entry = w.addr ∧ r.content = w.cipher ∧ r.iv = w.iv
  flag : w.whole = true → w.addr.deltaFlag = NO_DELTA

/-- Only the ciphertext and the IV were written at the address, at the end of the container. -/
structure Bare (w : Written) (found : Path → Option Bytes) : Prop where
  block : ∃ before, found (false, w.addr.containerName) = some (before ++ (w.cipher ++ w.iv.val)) ∧
    w.addr.offset.toNat = before.length
  length : w.addr.length.toNat = w.cipher.length

theorem saveChunk_grown (d : Bool) (content : Bytes) (chunkAddr : RecipeEntry) (sf : SuperFeature)
    (fp : Fp) (s : Server) : Grown s (saveChunk d content chunkAddr sf fp s).1 := by
  have hplaced := grown_placed d (recordFits content (s.opened d).buf.length) s
  have heq : ∃ block, (saveChunk d content chunkAddr sf fp s).1 =
      putBlock d block (placed d (recordFits content (s.opened d).buf.length) s) := by
    unfold saveChunk placed
    rw [writeContainer_full]
    exact ⟨_, rfl⟩
  obtain ⟨block, heq⟩ := heq
  rw [heq]
  exact hplaced.trans (grown_putBlock d block _)

theorem saveChunk_pending {d : Bool} {content : Bytes} {chunkAddr : RecipeEntry}
    (hmax : content.length ≤ MAX_CHUNK_SIZE) (hlen : chunkAddr.length.toNat = content.length)
    (sf : SuperFeature) (fp : Fp) (s : Server) :
    ∃ body, pendingAt (saveChunk d content chunkAddr sf fp s).1
        (d, (saveChunk d content chunkAddr sf fp s).2.containerName) = some body ∧
      StandsIn body ⟨(saveChunk d content chunkAddr sf fp s).2, fp, sf, content, s.iv⟩ := by
  have hstands := saveChunk_record d hmax hlen sf fp s []
  rw [List.append_nil] at hstands
  refine ⟨_, ?_, hstands⟩
  have hname : (saveChunk d content chunkAddr sf fp s).2.containerName =
      ((saveChunk d content chunkAddr sf fp s).1.opened d).containerID := by
    unfold saveChunk
    dsimp only
    rw [Function.update_self]
  rw [hname]
  exact pendingAt_opened _ d

theorem uniqueContent_le (deltaFlag : UInt8) (chunkBuffer : Bytes) :
    (uniqueContent env deltaFlag chunkBuffer).length ≤ chunkBuffer.length := by
  unfold uniqueContent
  split
  · cases hc : env.LZ4_compress_fast chunkBuffer with
    | none => exact Nat.le_refl _
    | some b => exact (env.LZ4_compress_fast_size hc).2
  · exact Nat.le_refl _

theorem ProcessSheUniqueChunk_grown (chunkAddr : RecipeEntry) (chunkBuffer : Bytes)
    (sf : SuperFeature) (fp : Fp) (s : Server) :
    Grown s (ProcessSheUniqueChunk env chunkAddr chunkBuffer sf fp s).1 := by
  obtain ⟨n, heq⟩ := ProcessSheUniqueChunk_eq env chunkAddr chunkBuffer sf fp s
  rw [heq]
  have hgrown := saveChunk_grown (chunkAddr.deltaFlag ≠ NO_DELTA)
    (uniqueCipher env chunkAddr chunkBuffer s)
    (uniqueAddr chunkAddr (uniqueCipher env chunkAddr chunkBuffer s).length sf) sf fp
    { s with
      iv := PickNewIV s.iv
      onlineBackupSize := n }
  have hframe : Grown s
      { s with
        iv := PickNewIV s.iv
        onlineBackupSize := n } := Grown.of_eq rfl rfl rfl
  exact hframe.trans hgrown

theorem ProcessSheUniqueChunk_pending {chunkBuffer : Bytes}
    (hmax : chunkBuffer.length ≤ MAX_CHUNK_SIZE) (chunkAddr : RecipeEntry) (sf : SuperFeature)
    (fp : Fp) (s : Server) : ∃ d body,
    pendingAt (ProcessSheUniqueChunk env chunkAddr chunkBuffer sf fp s).1
        (d, (ProcessSheUniqueChunk env chunkAddr chunkBuffer sf fp s).2.containerName) =
      some body ∧
    StandsIn body (uniqueRecord env chunkAddr chunkBuffer sf fp s) := by
  have hcipher : (uniqueCipher env chunkAddr chunkBuffer s).length ≤ MAX_CHUNK_SIZE := by
    have hle := @uniqueContent_le env chunkAddr.deltaFlag chunkBuffer
    unfold uniqueCipher
    rw [env.EncryptWithKeyIV_length]
    omega
  have hlen : (UInt32.ofNat (uniqueCipher env chunkAddr chunkBuffer s).length).toNat =
      (uniqueCipher env chunkAddr chunkBuffer s).length := by
    have hsmall : MAX_CHUNK_SIZE < 2 ^ 32 := by decide
    rw [UInt32.toNat_ofNat', Nat.mod_eq_of_lt (by omega)]
  obtain ⟨n, heq⟩ := ProcessSheUniqueChunk_eq env chunkAddr chunkBuffer sf fp s
  refine ⟨decide (chunkAddr.deltaFlag ≠ NO_DELTA), ?_⟩
  unfold uniqueRecord
  rw [heq]
  exact saveChunk_pending hcipher hlen sf fp _

/-- What `storeChunk` writes for an entry whose address starts as `NO_DELTA`. -/
theorem storeChunk_written {x : QueryEntry} (hmax : x.chunk.length ≤ MAX_CHUNK_SIZE)
    (hflag : x.chunkAddr.deltaFlag = NO_DELTA) (s : Server) :
    Grown s (storeChunk env x s).2.2 ∧ ∃ d,
      Standing ⟨(storeChunk env x s).1.chunkAddr,
        env.EncryptWithKeyIV (storeCall env x s).1 (storeCall env x s).2, (storeCall env x s).1,
        (storeChunk env x s).1.deltaFlag = NO_DELTA⟩ d (pendingAt (storeChunk env x s).2.2) := by
  have hne : DELTA ≠ NO_DELTA := by decide
  have hcase : ∃ a buf, buf.length ≤ MAX_CHUNK_SIZE ∧
      (storeChunk env x s).2.2 =
        (ProcessSheUniqueChunk env a buf x.superfeature x.chunkHash s).1 ∧
      (storeChunk env x s).1.chunkAddr =
        (ProcessSheUniqueChunk env a buf x.superfeature x.chunkHash s).2 ∧
      (storeCall env x s).1 = PickNewIV s.iv ∧
      env.EncryptWithKeyIV (storeCall env x s).1 (storeCall env x s).2 = uniqueCipher env a buf s ∧
      ((storeChunk env x s).1.deltaFlag = NO_DELTA → a.deltaFlag = NO_DELTA) := by
    have hne' : NO_DELTA ≠ DELTA := Ne.symm hne
    unfold storeChunk storeCall
    by_cases hdelta : x.deltaFlag = DELTA
    · simp only [if_pos hdelta]
      unfold ProcessDeltachunk
      by_cases hshort : x.chunk.length ≤ (EDeltaEncode env.edelta x.chunk (refChunk env x)).length
      · simp only [if_pos hshort, if_neg hne']
        exact ⟨_, x.chunk, hmax, rfl, rfl, trivial, rfl, fun _ => rfl⟩
      · simp only [if_neg hshort, hdelta, if_true]
        refine ⟨_, _, ?_, rfl, rfl, trivial, rfl, fun h => absurd h hne⟩
        omega
    · have hwhole : x.chunkAddr.deltaFlag ≠ DELTA := by
        rw [hflag]
        exact hne'
      simp only [if_neg hdelta, if_neg hwhole]
      exact ⟨_, x.chunk, hmax, rfl, rfl, trivial, rfl, fun _ => hflag⟩
  obtain ⟨a, buf, hbuf, hserver, haddr, hiv, hcipher, hwhole⟩ := hcase
  rw [hserver]
  refine ⟨ProcessSheUniqueChunk_grown a buf x.superfeature x.chunkHash s, ?_⟩
  obtain ⟨d, body, hbody, hstands⟩ := @ProcessSheUniqueChunk_pending env buf hbuf a
    x.superfeature x.chunkHash s
  refine ⟨d, ⟨body, _, ?_, hstands, haddr.symm, hcipher.symm, hiv.symm⟩, ?_⟩
  · dsimp only
    rw [haddr]
    exact hbody
  · intro h
    dsimp only
    rw [haddr, (ProcessSheUniqueChunk_addr env a buf x.superfeature x.chunkHash s).1]
    exact hwhole (of_decide_eq_true h)

theorem SaveChunk_eq (chunkData : Bytes) (chunkAddr : RecipeEntry) (s : Server) :
    SaveChunk chunkData chunkAddr s =
      let s := placed false (chunkFits chunkData (s.opened false).buf.length) s
      (putBlock false (chunkData ++ s.iv.val) s,
        { chunkAddr with
          length := UInt32.ofNat chunkData.length
          containerName := (s.opened false).containerID
          offset := UInt32.ofNat (s.opened false).buf.length }) := by
  unfold SaveChunk Ocall_WriteContainer placed
  rw [writeContainer_full]
  rfl

theorem placed_chunkFits {chunkData : Bytes} (hmax : chunkData.length ≤ MAX_CHUNK_SIZE)
    (s : Server) :
    chunkFits chunkData
      ((placed false (chunkFits chunkData (s.opened false).buf.length) s).opened false).buf.length := by
  unfold placed
  split
  case isTrue hfits => exact hfits
  case isFalse =>
    have hbuf : ((flushed false s).opened false).buf = [] := by simp [flushed]
    have hsmall : CRYPTO_BLOCK_SIZE + MAX_CHUNK_SIZE + 0 < MAX_CONTAINER_SIZE := by decide
    unfold chunkFits
    rw [hbuf, List.length_nil]
    omega

theorem placed_iv (d : Bool) (fits : Prop) [Decidable fits] (s : Server) :
    (placed d fits s).iv = s.iv := by
  unfold placed
  split <;> rfl

theorem SaveChunk_bare {chunkData : Bytes} (hmax : chunkData.length ≤ MAX_CHUNK_SIZE)
    (chunkAddr : RecipeEntry) (s : Server) :
    Grown s (SaveChunk chunkData chunkAddr s).1 ∧
      Bare ⟨(SaveChunk chunkData chunkAddr s).2, chunkData, s.iv, true⟩
        (pendingAt (SaveChunk chunkData chunkAddr s).1) := by
  have hplaced := grown_placed false (chunkFits chunkData (s.opened false).buf.length) s
  have hfits := placed_chunkFits hmax s
  have hiv := placed_iv false (chunkFits chunkData (s.opened false).buf.length) s
  have hcap : MAX_CONTAINER_SIZE < 2 ^ 32 := by decide
  have hchunk : MAX_CHUNK_SIZE < 2 ^ 32 := by decide
  rw [SaveChunk_eq]
  dsimp only
  generalize placed false (chunkFits chunkData (s.opened false).buf.length) s = s₁ at *
  unfold chunkFits at hfits
  refine ⟨hplaced.trans (grown_putBlock false _ s₁), ⟨(s₁.opened false).buf, ?_, ?_⟩, ?_⟩
  · rw [pendingAt_putBlock, if_pos rfl, hiv]
  · dsimp only
    rw [UInt32.toNat_ofNat', Nat.mod_eq_of_lt (by omega)]
  · dsimp only
    rw [UInt32.toNat_ofNat', Nat.mod_eq_of_lt (by omega)]

theorem ProcessUniqueChunk_bare {chunkBuffer : Bytes} (hmax : chunkBuffer.length ≤ MAX_CHUNK_SIZE)
    (chunkAddr : RecipeEntry) (s : Server) :
    Grown s (ProcessUniqueChunk env chunkAddr chunkBuffer s).1 ∧
      Bare ⟨(ProcessUniqueChunk env chunkAddr chunkBuffer s).2,
          env.EncryptWithKeyIV (PickNewIV s.iv) (uniqueContent env NO_DELTA chunkBuffer),
          PickNewIV s.iv, true⟩ (pendingAt (ProcessUniqueChunk env chunkAddr chunkBuffer s).1) := by
  have hcipher : (env.EncryptWithKeyIV (PickNewIV s.iv)
      (uniqueContent env NO_DELTA chunkBuffer)).length ≤ MAX_CHUNK_SIZE := by
    have hle := @uniqueContent_le env NO_DELTA chunkBuffer
    rw [env.EncryptWithKeyIV_length]
    omega
  have hframe : Grown s
      { s with
        iv := PickNewIV s.iv
        onlineBackupSize := s.onlineBackupSize +
          UInt64.ofNat (uniqueContent env NO_DELTA chunkBuffer).length } :=
    Grown.of_eq rfl rfl rfl
  obtain ⟨hgrown, hbare⟩ := SaveChunk_bare hcipher chunkAddr
    { s with
      iv := PickNewIV s.iv
      onlineBackupSize := s.onlineBackupSize +
        UInt64.ofNat (uniqueContent env NO_DELTA chunkBuffer).length }
  exact ⟨hframe.trans hgrown, hbare⟩

/-- The entries of a batch are made as `uniqueEntry` makes them. -/
theorem outQueries_uniqueEntry {heap : Fp → Bool} {left : Nat → RecipeEntry} {x : QueryEntry}
    {chunks : List Bytes} {i : Nat} {localIndex : List Fp}
    (hx : x ∈ outQueries env heap left i localIndex chunks) :
    ∃ j, ∃ chunk ∈ chunks, x = uniqueEntry env (left j) chunk := by
  induction chunks generalizing i localIndex with
  | nil => simp [outQueries] at hx
  | cons chunk chunks ih =>
    have hlater : ∀ {i localIndex}, x ∈ outQueries env heap left i localIndex chunks →
        ∃ j, ∃ c ∈ chunk :: chunks, x = uniqueEntry env (left j) c := by
      intro i localIndex hx
      obtain ⟨j, c, hc, heq⟩ := ih hx
      exact ⟨j, c, List.mem_cons_of_mem _ hc, heq⟩
    unfold outQueries at hx
    dsimp only at hx
    split at hx
    · exact hlater hx
    · split at hx
      · exact hlater hx
      · rcases List.mem_cons.mp hx with heq | hx
        · exact ⟨i, chunk, List.mem_cons_self .., heq⟩
        · exact hlater hx

theorem storeUnique_standing {u : UniqueChunk} (hmax : u.chunk.length ≤ MAX_CHUNK_SIZE)
    (s : Server) :
    Grown s (storeUnique env .FREQ_INDEX u s).1 ∧
      ∃ d, Standing (storeUnique env .FREQ_INDEX u s).2 d
        (pendingAt (storeUnique env .FREQ_INDEX u s).1) := by
  have hquery : ∀ x, x = Ocall_QueryOutBasechunk u.queried (uniqueEntry env u.left u.chunk) →
      x.chunk = u.chunk ∧ x.chunkAddr.deltaFlag = NO_DELTA ∧ x.offlineFlag = false ∧
        (x.deltaFlag = NO_DELTA ∨ x.deltaFlag = OUT_DELTA) ∧
        (x.deltaFlag ≠ NO_DELTA → x.chunkAddr.basechunkHash = x.basechunkHash) := by
    intro x hx
    rw [hx]
    unfold Ocall_QueryOutBasechunk
    split
    · exact ⟨rfl, rfl, rfl, Or.inl rfl, fun h => absurd rfl h⟩
    · exact ⟨rfl, rfl, rfl, Or.inr rfl, fun _ => rfl⟩
  unfold storeUnique
  dsimp only
  generalize Ocall_QueryOutBasechunk u.queried (uniqueEntry env u.left u.chunk) = x at *
  obtain ⟨hchunk, hflag, hoff, hdelta, hhash⟩ := hquery x rfl
  obtain ⟨f, o, c, t, cb, pair, hload, _⟩ := OfflinedeltaTure_spec u.Local_Flag
    (writeQueue u.saved s) hdelta hoff hhash
  rw [hload]
  have hframe : Grown s
      { writeQueue u.saved s with
        inCache := c
        tmpOcallcontainer := t } := Grown.of_eq rfl (writtenFiles_writeQueue u.saved s) rfl
  obtain ⟨hgrown, d, hstanding⟩ := @storeChunk_written env { x with
    deltaFlag := f
    offlineFlag := o
    containerbuffer := cb } (by rw [hchunk]; exact hmax) hflag
    { writeQueue u.saved s with
      inCache := c
      tmpOcallcontainer := t }
  exact ⟨hframe.trans hgrown, d, hstanding⟩

theorem storeUnique_bare {u : UniqueChunk} (hmax : u.chunk.length ≤ MAX_CHUNK_SIZE) (s : Server) :
    Grown s (storeUnique env .DEBE u s).1 ∧
      Bare (storeUnique env .DEBE u s).2 (pendingAt (storeUnique env .DEBE u s).1) := by
  have hframe : Grown s (writeQueue u.saved s) :=
    Grown.of_eq rfl (writtenFiles_writeQueue u.saved s) rfl
  obtain ⟨hgrown, hbare⟩ := @ProcessUniqueChunk_bare env u.chunk hmax u.left (writeQueue u.saved s)
  exact ⟨hframe.trans hgrown, hbare⟩

end Save

section Close
variable {s : Server}

theorem lastContainer_frame (d : Bool) (s : Server) :
    s.con_times ≤ (lastContainer d s).con_times ∧
      (∀ d', d' ≠ d → (lastContainer d s).opened d' = s.opened d') ∧
      ∀ p, (writtenFiles (lastContainer d s)).lookup p =
        if (s.opened d).body.length ≠ 0 ∧ p = (d, (s.opened d).containerID) then
          some (s.opened d).body
        else (writtenFiles s).lookup p := by
  unfold lastContainer
  by_cases hbody : (s.opened d).body.length ≠ 0
  · rw [if_pos hbody]
    refine ⟨Nat.le_succ _, ?_, ?_⟩
    · intro d' hd'
      unfold writeContainer
      exact Function.update_of_ne hd' _ _
    · intro p
      rw [@writtenFiles_snoc s (writeContainer d s)
        ⟨(s.opened d).containerID, d, (s.opened d).body⟩ rfl rfl]
      unfold Container.path
      rw [Table.lookup_insert_ite]
      by_cases hp : p = (d, (s.opened d).containerID)
      · rw [if_pos hp, if_pos ⟨hbody, hp⟩]
      · rw [if_neg hp, if_neg fun h => hp h.2]
  · rw [if_neg hbody]
    refine ⟨Nat.le_refl _, fun _ _ => rfl, fun p => ?_⟩
    rw [if_neg fun h => hbody h.1]

/-- The files after the client has gone. -/
theorem closeSession_lookup (s : Server) :
    s.con_times ≤ (closeSession s).con_times ∧
      ∀ p, (writtenFiles (closeSession s)).lookup p =
        if (s.opened p.1).body.length ≠ 0 ∧ p.2 = (s.opened p.1).containerID then
          some (s.opened p.1).body
        else (writtenFiles s).lookup p := by
  obtain ⟨htimes, hopened, hbase⟩ := lastContainer_frame false s
  obtain ⟨htimes', _, hdelta⟩ := lastContainer_frame true (lastContainer false s)
  refine ⟨Nat.le_trans htimes htimes', ?_⟩
  intro p
  obtain ⟨d, name⟩ := p
  unfold closeSession
  rw [hdelta, hbase, hopened true (by decide)]
  cases d with
  | false => simp
  | true => simp

theorem ProcessTailBatch_body (s : Server) (d : Bool) :
    ((ProcessTailBatch s).opened d).containerID = (s.opened d).containerID ∧
      ((s.opened d).buf ≠ [] → ((ProcessTailBatch s).opened d).body = (s.opened d).buf) := by
  unfold ProcessTailBatch tailContainer
  dsimp only
  split
  case isTrue => exact ⟨rfl, fun _ => rfl⟩
  case isFalse hbuf =>
    refine ⟨rfl, fun hne => ?_⟩
    simp [hne] at hbuf

theorem endSession_lookup (s : Server) :
    s.con_times ≤ (endSession s).con_times ∧
      ∀ p, (writtenFiles (endSession s)).lookup p =
        if ((ProcessTailBatch s).opened p.1).body.length ≠ 0 ∧
            p.2 = ((ProcessTailBatch s).opened p.1).containerID then
          some ((ProcessTailBatch s).opened p.1).body
        else (writtenFiles (ProcessTailBatch s)).lookup p := by
  obtain ⟨htimes, hlookup⟩ := closeSession_lookup (ProcessTailBatch s)
  refine ⟨htimes, fun p => ?_⟩
  unfold endSession
  rw [writtenFiles_writeQueue]
  exact hlookup p

/-- What stood in an open or a queued container is in its file. -/
theorem closed_of_pending {p : Path} {b : Bytes} (hp : pendingAt s p = some b) (hb : b ≠ []) :
    (writtenFiles (endSession s)).lookup p = some b := by
  obtain ⟨_, hlookup⟩ := endSession_lookup s
  obtain ⟨hname, hbody⟩ := ProcessTailBatch_body s p.1
  have hfiles : writtenFiles (ProcessTailBatch s) = writtenFiles s := rfl
  rw [hlookup, hname, hfiles]
  by_cases hopen : p.2 = (s.opened p.1).containerID
  · have hpath : p = (p.1, (s.opened p.1).containerID) := Prod.ext rfl hopen
    rw [hpath, pendingAt_opened, Option.some.injEq] at hp
    rw [hbody (by rw [hp]; exact hb), hp]
    have hlen : b.length ≠ 0 := fun h => hb (List.length_eq_zero_iff.mp h)
    exact if_pos ⟨hlen, hopen⟩
  · have hnone : uploadOpens s p = none := if_neg fun h => hopen h.symm
    rw [if_neg fun h => hopen h.2]
    unfold pendingAt at hp
    rwa [hnone, Option.none_or] at hp

theorem closed_ok (h : OpenOk s) : ClosedOk (endSession s) := by
  obtain ⟨htimes, hlookup⟩ := endSession_lookup s
  have hkeep : ∀ p, pendingAt s p = none → (writtenFiles (endSession s)).lookup p = none := by
    intro p hp
    have hopen : uploadOpens s p = none := by
      unfold pendingAt at hp
      exact (Option.or_eq_none_iff.mp hp).1
    have hne : ¬p.2 = (s.opened p.1).containerID := by
      intro heq
      unfold uploadOpens at hopen
      rw [if_pos heq.symm] at hopen
      simp at hopen
    rw [hlookup, (ProcessTailBatch_body s p.1).1, if_neg fun h => hne h.2]
    unfold pendingAt at hp
    exact (Option.or_eq_none_iff.mp hp).2
  refine ⟨fun p hp => ?_, fun name => (h.single name).imp (hkeep _) (hkeep _)⟩
  exact (h.drawn p fun hn => hp (hkeep p hn)).mono htimes

theorem startSession_pending (iv : IV) {p : Path} (hdrawn : Drawn s.con_times p.2)
    (htimes : s.con_times + 2 ≤ 2 ^ 31) :
    uploadOpens (startSession iv s) p = none ∧
      pendingAt (startSession iv s) p = (writtenFiles s).lookup p := by
  have hnone : uploadOpens (startSession iv s) p = none := by
    obtain ⟨k, hk, hname⟩ := hdrawn
    apply if_neg
    rw [hname]
    unfold startSession
    dsimp only
    split
    · intro heq
      have hj := CreateUUID_inj (by omega) (by omega) heq
      omega
    · intro heq
      have hj := CreateUUID_inj (by omega) (by omega) heq
      omega
  refine ⟨hnone, ?_⟩
  unfold pendingAt
  rw [hnone]
  rfl

theorem startSession_ok (h : ClosedOk s) (iv : IV) (htimes : s.con_times + 2 ≤ 2 ^ 31) :
    OpenOk (startSession iv s) := by
  -- the two containers are opened one after the other
  have hopened : ∀ d, ((startSession iv s).opened d).containerID =
      CreateUUID (if d then s.con_times + 1 else s.con_times) := fun _ => rfl
  have hfirst : NamesOk (s.con_times + 1) (fun p =>
      if p = (false, CreateUUID s.con_times) then some [] else (writtenFiles s).lookup p) := by
    apply NamesOk.open_fresh h (by omega) false
    intro p hp
    exact Or.inr (if_neg hp)
  apply NamesOk.open_fresh hfirst (by omega) true
  intro p hp
  right
  obtain ⟨d, name⟩ := p
  unfold pendingAt uploadOpens
  rw [hopened]
  cases d with
  | false =>
    by_cases hname : CreateUUID s.con_times = name
    · simp only [Bool.false_eq_true, if_false, hname, if_true]
      rfl
    · have hne : (false, name) ≠ (false, CreateUUID s.con_times) :=
        fun heq => hname (congrArg Prod.snd heq).symm
      simp only [Bool.false_eq_true, if_false, if_neg hname, if_neg hne]
      rfl
  | true =>
    have hname : ¬CreateUUID (s.con_times + 1) = name := by
      intro heq
      exact hp (by rw [heq])
    simp only [if_true, if_neg hname]
    rw [if_neg (by simp)]
    rfl

end Close

section Runs
variable {env : EnclaveEnv} {index : IndexType} {s : Server} {w : Written}

/-- The chunks that the client's chunker cuts. -/
def Chunked (us : List UniqueChunk) : Prop := ∀ u ∈ us, u.chunk.length ≤ MAX_CHUNK_SIZE

theorem storeAll_cons (u : UniqueChunk) (us : List UniqueChunk) (s : Server) :
    storeAll env index (u :: us) s =
      ((storeAll env index us (storeUnique env index u s).1).1,
        (storeUnique env index u s).2 :: (storeAll env index us (storeUnique env index u s).1).2) :=
  rfl

theorem storeAll_grown {us : List UniqueChunk} (hus : Chunked us) (s : Server) :
    Grown s (storeAll env index us s).1 := by
  induction us generalizing s with
  | nil => exact Grown.of_eq rfl rfl rfl
  | cons u us ih =>
    have hmax := hus u (List.mem_cons_self ..)
    have hstep : Grown s (storeUnique env index u s).1 := by
      cases index with
      | FREQ_INDEX => exact (storeUnique_standing hmax s).1
      | DEBE => exact (storeUnique_bare hmax s).1
    exact hstep.trans (ih (fun u' hu' => hus u' (List.mem_cons_of_mem u hu')) _)

theorem Standing.grown {s' : Server} {d : Bool} (h : Standing w d (pendingAt s)) (hg : Grown s s')
    (htimes : s'.con_times ≤ 2 ^ 31) (hok : OpenOk s) : Standing w d (pendingAt s') := by
  obtain ⟨⟨body, r, hbody, hstands, hr⟩, hflag⟩ := h
  obtain ⟨more, hmore⟩ := hg.more htimes hok _ body hbody
  exact ⟨⟨body ++ more, r, hmore, hstands.append more, hr⟩, hflag⟩

theorem storeAll_standing {us : List UniqueChunk} (hus : Chunked us) (hok : OpenOk s)
    (htimes : (storeAll env .FREQ_INDEX us s).1.con_times ≤ 2 ^ 31) :
    ∀ w ∈ (storeAll env .FREQ_INDEX us s).2,
      ∃ d, Standing w d (pendingAt (storeAll env .FREQ_INDEX us s).1) := by
  induction us generalizing s with
  | nil => simp [storeAll]
  | cons u us ih =>
    have htail : Chunked us := fun u' hu' => hus u' (List.mem_cons_of_mem u hu')
    obtain ⟨hgrown, d, hstanding⟩ := @storeUnique_standing env u
      (hus u (List.mem_cons_self ..)) s
    have hlater := @storeAll_grown env .FREQ_INDEX us htail
      (storeUnique env .FREQ_INDEX u s).1
    rw [storeAll_cons] at htimes ⊢
    have hok' := hgrown.ok (Nat.le_trans hlater.times htimes) hok
    intro w hw
    rcases List.mem_cons.mp hw with heq | hw
    · rw [heq]
      exact ⟨d, hstanding.grown hlater htimes hok'⟩
    · exact ih htail hok' htimes w hw

/-- The last chunk of a session stands at the end of its container. -/
theorem storeAll_bare {us : List UniqueChunk} (hus : Chunked us) (hne : us ≠ []) (s : Server) :
    ∃ w ∈ (storeAll env .DEBE us s).2, Bare w (pendingAt (storeAll env .DEBE us s).1) := by
  induction us generalizing s with
  | nil => exact absurd rfl hne
  | cons u us ih =>
    by_cases hlast : us = []
    · rw [hlast]
      exact ⟨_, List.mem_cons_self .., (storeUnique_bare (hus u (List.mem_cons_self ..)) s).2⟩
    · obtain ⟨w, hw, hbare⟩ := ih (fun u' hu' => hus u' (List.mem_cons_of_mem u hu')) hlast
        (storeUnique env .DEBE u s).1
      exact ⟨w, List.mem_cons_of_mem _ hw, hbare⟩

/-- The files of earlier sessions stay. -/
structure Lasting (s s' : Server) : Prop where
  times : s.con_times ≤ s'.con_times
  ok : s'.con_times ≤ 2 ^ 31 → ClosedOk s → ClosedOk s'
  stays : s'.con_times ≤ 2 ^ 31 → ClosedOk s → ∀ p b, (writtenFiles s).lookup p = some b → b ≠ [] →
    (writtenFiles s').lookup p = some b

theorem storeSession_times {session : StoreSession} (hus : Chunked session.2) (s : Server) :
    s.con_times + 2 ≤ (storeAll env index session.2 (startSession session.1 s)).1.con_times ∧
      (storeAll env index session.2 (startSession session.1 s)).1.con_times ≤
        (storeSession env index session s).1.con_times :=
  ⟨(storeAll_grown hus (startSession session.1 s)).times,
    (endSession_lookup _).1⟩

theorem storeSession_lasting {session : StoreSession} (hus : Chunked session.2) (s : Server) :
    Lasting s (storeSession env index session s).1 := by
  obtain ⟨hstart, hclose⟩ := @storeSession_times env index session hus s
  have hgrown := @storeAll_grown env index session.2 hus (startSession session.1 s)
  refine ⟨by omega, ?_, ?_⟩
  · intro htimes hok
    exact closed_ok (hgrown.ok (by omega) (startSession_ok hok session.1 (by omega)))
  · intro htimes hok p b hp hb
    have hdrawn := hok.drawn p (by rw [hp]; simp)
    obtain ⟨hclosed, hpending⟩ := startSession_pending session.1 hdrawn (by omega)
    rw [hp] at hpending
    have hkept := hgrown.closed (by omega) (startSession_ok hok session.1 (by omega)) p b hpending
      hclosed
    exact closed_of_pending hkept.1 hb

theorem storeSessions_lasting {sessions : List StoreSession}
    (hus : ∀ session ∈ sessions, Chunked session.2) (s : Server) :
    Lasting s (storeSessions env index sessions s).1 := by
  induction sessions generalizing s with
  | nil => exact ⟨Nat.le_refl _, fun _ hok => hok, fun _ _ _ _ hp _ => hp⟩
  | cons session sessions ih =>
    have hfirst := @storeSession_lasting env index session
      (hus session (List.mem_cons_self ..)) s
    have hrest := ih (fun session' h => hus session' (List.mem_cons_of_mem session h))
      (storeSession env index session s).1
    have hle := hrest.times
    refine ⟨Nat.le_trans hfirst.times hle, ?_, ?_⟩
    · intro htimes hok
      exact hrest.ok htimes (hfirst.ok (Nat.le_trans hle htimes) hok)
    · intro htimes hok p b hp hb
      have hmid := hfirst.stays (Nat.le_trans hle htimes) hok p b hp hb
      exact hrest.stays htimes (hfirst.ok (Nat.le_trans hle htimes) hok) p b hmid hb

theorem denoted_of_standing {d : Bool} (hok : ClosedOk s)
    (h : Standing w d (writtenFiles s).lookup) : Denoted (writtenFiles s) w := by
  obtain ⟨⟨body, r, hbody, hstands, hentry, hcontent, hiv⟩, hflag⟩ := h
  have hreq : reqContainer (writtenFiles s) w.addr.containerName = some body := by
    unfold reqContainer
    cases d with
    | false => rw [hbody, Option.some_or]
    | true =>
      have hnone := (hok.single w.addr.containerName).resolve_right (by rw [hbody]; simp)
      rw [hnone, hbody, Option.none_or]
  refine ⟨body, hreq, fun containerArray => ?_, hflag⟩
  have hlonger := hstands.append (containerArray.drop body.length)
  rw [memcpy_zero, ← hentry, ← hcontent, ← hiv]
  exact ⟨hlonger.content_eq, hlonger.iv_eq⟩

/-- Behind the end of a container the reader finds what its buffer held before. -/
theorem getChunkIV_behind {body : Bytes} {addr : RecipeEntry} {start : Nat}
    (hstart : addr.offset.toNat + CONTENT_OFFSET + addr.length.toNat = start)
    (hle : body.length ≤ start) (x : UInt8) :
    (getChunkIV (memcpy (List.replicate (start + 16) x) 0 body) addr).val.getD 0 0 = x := by
  have hlen : start + 16 ≤ (memcpy (List.replicate (start + 16) x) 0 body).length := by
    rw [memcpy_zero, List.length_append, List.length_drop, List.length_replicate]
    omega
  unfold getChunkIV
  rw [hstart]
  change (readAt _ start 16).getD 0 0 = x
  rw [readAt_eq_slice hlen, memcpy_zero]
  unfold slice
  rw [List.getD_eq_getElem?_getD, List.getElem?_take_of_lt (by decide), List.getElem?_drop,
    List.getElem?_append_right (by omega), List.getElem?_drop, List.getElem?_replicate,
    if_pos (by omega)]
  rfl

/-- The reader looks for the IV behind the end of the container. -/
theorem not_denoted_of_bare (h : Bare w (writtenFiles s).lookup) : ¬Denoted (writtenFiles s) w := by
  obtain ⟨⟨before, hbody, hoff⟩, hlen⟩ := h
  rintro ⟨body, hreq, hread, _⟩
  unfold reqContainer at hreq
  rw [hbody, Option.some_or, Option.some.injEq] at hreq
  have hcontent : CONTENT_OFFSET = 272 := rfl
  have hle : body.length ≤ w.addr.offset.toNat + CONTENT_OFFSET + w.addr.length.toNat := by
    rw [← hreq, List.length_append, List.length_append, w.iv.property]
    omega
  -- the buffer held nothing but bytes other than the first one of the IV
  have hbehind := getChunkIV_behind rfl hle (w.iv.val.getD 0 0 + 1)
  rw [(hread _).2] at hbehind
  have hone : w.iv.val.getD 0 0 + 1 - w.iv.val.getD 0 0 = 0 := by
    rw [← hbehind]
    exact UInt8.sub_self _
  rw [UInt8.add_comm, UInt8.add_sub_cancel] at hone
  exact absurd hone (by decide)

/-- What the sessions of either index leave in the files. -/
theorem storeSessions_standing {sessions : List StoreSession}
    (hus : ∀ session ∈ sessions, Chunked session.2) (hok : ClosedOk s)
    (htimes : (storeSessions env .FREQ_INDEX sessions s).1.con_times ≤ 2 ^ 31) :
    ∀ w ∈ (storeSessions env .FREQ_INDEX sessions s).2, ∃ d,
      Standing w d (writtenFiles (storeSessions env .FREQ_INDEX sessions s).1).lookup := by
  induction sessions generalizing s with
  | nil => simp [storeSessions]
  | cons session sessions ih =>
    have hchunks := hus session (List.mem_cons_self ..)
    have htail : ∀ session' ∈ sessions, Chunked session'.2 :=
      fun session' h => hus session' (List.mem_cons_of_mem session h)
    have hfirst := @storeSession_lasting env .FREQ_INDEX session hchunks s
    have hrest := @storeSessions_lasting env .FREQ_INDEX sessions htail
      (storeSession env .FREQ_INDEX session s).1
    have hmid := Nat.le_trans hrest.times htimes
    obtain ⟨hstart, hclose⟩ := @storeSession_times env .FREQ_INDEX session hchunks s
    have hopen := startSession_ok hok session.1 (by omega)
    intro w hw
    rcases List.mem_append.mp hw with hw | hw
    · obtain ⟨d, ⟨body, r, hbody, hstands, hr⟩, hflag⟩ := storeAll_standing hchunks hopen
        (by omega) w hw
      have hne : body ≠ [] := by
        intro hnil
        have hle := hstands.le
        have hpos := size_pos r
        rw [hnil, List.length_nil] at hle
        omega
      have hfile := hrest.stays htimes (hfirst.ok hmid hok) _ body (closed_of_pending hbody hne) hne
      exact ⟨d, ⟨body, r, hfile, hstands, hr⟩, hflag⟩
    · exact ih htail (hfirst.ok hmid hok) htimes w hw

theorem storeSessions_bare {sessions : List StoreSession}
    (hus : ∀ session ∈ sessions, Chunked session.2) (hok : ClosedOk s)
    (htimes : (storeSessions env .DEBE sessions s).1.con_times ≤ 2 ^ 31)
    (hsome : ∃ session ∈ sessions, session.2 ≠ []) :
    ∃ w ∈ (storeSessions env .DEBE sessions s).2,
      Bare w (writtenFiles (storeSessions env .DEBE sessions s).1).lookup := by
  induction sessions generalizing s with
  | nil => simp at hsome
  | cons session sessions ih =>
    have hchunks := hus session (List.mem_cons_self ..)
    have htail : ∀ session' ∈ sessions, Chunked session'.2 :=
      fun session' h => hus session' (List.mem_cons_of_mem session h)
    have hfirst := @storeSession_lasting env .DEBE session hchunks s
    have hrest := @storeSessions_lasting env .DEBE sessions htail
      (storeSession env .DEBE session s).1
    have hmid := Nat.le_trans hrest.times htimes
    by_cases hhead : session.2 = []
    · obtain ⟨session', hmem, hne⟩ := hsome
      rcases List.mem_cons.mp hmem with rfl | hmem
      · exact absurd hhead hne
      · obtain ⟨w, hw, hbare⟩ := ih htail (hfirst.ok hmid hok) htimes ⟨session', hmem, hne⟩
        exact ⟨w, List.mem_append_right _ hw, hbare⟩
    · obtain ⟨w, hw, ⟨before, hbody, hoff⟩, hlen⟩ := @storeAll_bare env session.2 hchunks hhead
        (startSession session.1 s)
      have hne : before ++ (w.cipher ++ w.iv.val) ≠ [] := by
        intro hnil
        have hl := congrArg List.length hnil
        rw [List.length_append, List.length_append, w.iv.property, List.length_nil] at hl
        omega
      have hfile := hrest.stays htimes (hfirst.ok hmid hok) _ _ (closed_of_pending hbody hne) hne
      exact ⟨w, List.mem_append_left _ hw, ⟨before, hfile, hoff⟩, hlen⟩

theorem storeSessions_empty {sessions : List StoreSession}
    (hempty : ∀ session ∈ sessions, session.2 = []) :
    (storeSessions env index sessions s).2 = [] := by
  induction sessions generalizing s with
  | nil => rfl
  | cons session sessions ih =>
    change (storeAll env index session.2 _).2 ++ (storeSessions env index sessions _).2 = []
    rw [hempty session (List.mem_cons_self ..),
      ih fun session' h => hempty session' (List.mem_cons_of_mem session h)]
    rfl

theorem start_closedOk (Forward_Flag Offline_Flag : Bool) :
    ClosedOk (Server.start Forward_Flag Offline_Flag) := by
  have hnone : ∀ p, (writtenFiles (Server.start Forward_Flag Offline_Flag)).lookup p = none :=
    fun _ => rfl
  exact ⟨fun p hp => absurd (hnone p) hp, fun name => Or.inl (hnone _)⟩

/-- Over any sessions of a server, every chunk is read back as it was written exactly when the
index is `EcallFreqIndex`, or when nothing was stored. -/
theorem stored_denoted (env : EnclaveEnv) (index : IndexType) (Forward_Flag Offline_Flag : Bool)
    (sessions : List StoreSession) (hus : ∀ session ∈ sessions, Chunked session.2)
    (htimes : (storeSessions env index sessions
      (Server.start Forward_Flag Offline_Flag)).1.con_times ≤ 2 ^ 31) :
    (∀ w ∈ (storeSessions env index sessions (Server.start Forward_Flag Offline_Flag)).2,
      Denoted (writtenFiles (storeSessions env index sessions
        (Server.start Forward_Flag Offline_Flag)).1) w) ↔
    index = .FREQ_INDEX ∨ ∀ session ∈ sessions, session.2 = [] := by
  have hok := start_closedOk Forward_Flag Offline_Flag
  cases index with
  | FREQ_INDEX =>
    have hlasting := @storeSessions_lasting env .FREQ_INDEX sessions hus
      (Server.start Forward_Flag Offline_Flag)
    refine iff_of_true ?_ (Or.inl rfl)
    intro w hw
    obtain ⟨d, hstanding⟩ := storeSessions_standing hus hok htimes w hw
    exact denoted_of_standing (hlasting.ok htimes hok) hstanding
  | DEBE =>
    constructor
    · intro hall
      right
      by_contra hne
      push Not at hne
      obtain ⟨w, hw, hbare⟩ := storeSessions_bare hus hok htimes hne
      exact not_denoted_of_bare hbare (hall w hw)
    · rintro (hindex | hempty)
      · simp at hindex
      · rw [storeSessions_empty hempty]
        simp

def sevens : Bytes := List.replicate 17 7

/-- The databases after the session that stores `sevens`. -/
def knowsSevens : Server :=
  InsertSF (UpdateIndexStore (Server.start false true) (FixedBytes.read 32 sevens 0)
    { emptyEntry with containerName := CreateUUID 1, length := 10 }) (FixedBytes.fill 96 0)
    (FixedBytes.read 32 sevens 0)

/-- A session that stores two chunks, and one that stores a delta against the first of them. -/
def deltaSessions : List StoreSession :=
  [(FixedBytes.fill 16 0, [⟨emptyEntry, sevens, false, Server.start false true, 0⟩,
    ⟨emptyEntry, List.replicate 40 9 ++ sevens, false, Server.start false true, 0⟩]),
   (FixedBytes.fill 16 5, [⟨emptyEntry, sevens ++ [8], false, knowsSevens, 0⟩])]

theorem stored_denoted_sessions :
    (storeSessions lz4Env .FREQ_INDEX deltaSessions (Server.start false true)).2.map
      (fun w => (w.whole, w.cipher)) =
        [(true, [23, 7, 1, 0, 80, 7, 7, 7, 7, 7]),
          (true, [31, 9, 1, 0, 20, 23, 7, 1, 0, 80, 7, 7, 7, 7, 7]),
          (false, [17, 0, 0, 0, 0, 0, 0, 0, 1, 0, 0, 128, 8])] ∧
    ∀ w ∈ (storeSessions lz4Env .FREQ_INDEX deltaSessions (Server.start false true)).2,
      Denoted (writtenFiles
        (storeSessions lz4Env .FREQ_INDEX deltaSessions (Server.start false true)).1) w := by
  have hchunked : ∀ session ∈ deltaSessions, Chunked session.2 := by
    unfold Chunked
    decide +kernel
  exact ⟨by decide +kernel, (stored_denoted lz4Env .FREQ_INDEX false true deltaSessions hchunked
    (by decide +kernel)).mpr (Or.inl rfl)⟩

/-- One session that stores one chunk. -/
def letterSession : List StoreSession :=
  [(FixedBytes.fill 16 0, [⟨emptyEntry, [0x57], false, Server.start false true, 0⟩])]

theorem letterSession_chunked : ∀ session ∈ letterSession, Chunked session.2 := by
  intro session hsession u hu
  rw [List.mem_singleton.mp hsession] at hu
  rw [List.mem_singleton.mp hu]
  decide

/-- `EcallDEBE` stores the chunk where the reader does not find it. -/
theorem stored_denoted_debe :
    ¬∀ w ∈ (storeSessions plainEnv .DEBE letterSession (Server.start false true)).2,
      Denoted (writtenFiles
        (storeSessions plainEnv .DEBE letterSession (Server.start false true)).1) w := by
  intro hall
  obtain ⟨w, hw, hbare⟩ := @storeSessions_bare plainEnv _ letterSession letterSession_chunked
    (start_closedOk false true) (by decide +kernel) ⟨_, List.mem_singleton.mpr rfl, by simp⟩
  exact not_denoted_of_bare hbare (hall w hw)

end Runs

end ShieldReduce.Prototype
