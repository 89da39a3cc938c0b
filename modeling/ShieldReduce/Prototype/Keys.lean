import Mathlib.Data.List.Chain
import ShieldReduce.Store.Format

/-!
# The enclave's keys over server runs

`Ecall_Enclave_Init` draws the keys of a first boot or reads the sealed key file,
`Ecall_Enclave_Destroy` writes that file, and the handler `CTRLC` ends a run.
-/

namespace ShieldReduce.Prototype
open Lib Store

/-- `CHUNK_HASH_SIZE` bytes. -/
abbrev Key := FixedBytes 32

structure Enclave where
  enclaveKey_ : Key
  indexQueryKey_ : Key
  firstBootstrap_ : Bool
deriving DecidableEq

/-- `enclave` is `none` when there is no enclave an ECALL can execute in. -/
structure Host where
  enclave : Option Enclave
  keyFile : Option Bytes
deriving DecidableEq

/-- What a run draws with `sgx_read_rand`, and what `malloc` left in its `readBuffer`. -/
structure Boot where
  random : Key × Key
  readBuffer : FixedBytes (2 * CHUNK_HASH_SIZE)

section Keys

/-- The size of the sealed file, 0 when it is not there. -/
def Ocall_InitReadSealedFile (keyFile : Option Bytes) : Nat :=
  match keyFile with
  | none => 0
  | some file => file.length

/-- As many bytes as the file has go over the front of the buffer. -/
def Ocall_ReadSealedData (keyFile : Option Bytes) (dataBuffer : Bytes) : Bytes :=
  match keyFile with
  | none => dataBuffer
  | some file => memcpy dataBuffer 0 (file.take dataBuffer.length)

/-- In the enclave that `sgx_create_enclave` has made. -/
def Ecall_Enclave_Init (boot : Boot) (h : Host) : Host :=
  if Ocall_InitReadSealedFile h.keyFile = 0 then
    { h with enclave := some ⟨boot.random.1, boot.random.2, true⟩ }
  else
    let readBuffer := Ocall_ReadSealedData h.keyFile boot.readBuffer.val
    { h with
      enclave := some
        ⟨FixedBytes.read 32 readBuffer 0, FixedBytes.read 32 readBuffer CHUNK_HASH_SIZE, false⟩ }

/-- Without an enclave the ECALL does not execute. -/
def Ecall_Enclave_Destroy (h : Host) : Host :=
  match h.enclave with
  | none => h
  | some e =>
    if e.firstBootstrap_ then
      { h with keyFile := some (e.enclaveKey_.val ++ e.indexQueryKey_.val) }
    else h

def sgx_destroy_enclave (h : Host) : Host := { h with enclave := none }

/-- The handler's order: the enclave is gone before it is asked to write its keys. -/
def CTRLC (h : Host) : Host := Ecall_Enclave_Destroy (sgx_destroy_enclave h)

/-- `enclaveKey_` and `indexQueryKey_` of each run of the server, all ended by `CTRLC`. -/
def serverRuns : List Boot → Host → List (Option (Key × Key))
  | [], _ => []
  | boot :: boots, h =>
    let running := Ecall_Enclave_Init boot h
    (running.enclave.map fun e => (e.enclaveKey_, e.indexQueryKey_)) ::
      serverRuns boots (CTRLC running)

variable {h : Host} {boot boot' : Boot} {boots : List Boot}

theorem CTRLC_Init (boot : Boot) (h : Host) : CTRLC (Ecall_Enclave_Init boot h) =
    ⟨none, h.keyFile⟩ := by
  unfold Ecall_Enclave_Init
  split <;> rfl

/-- Two boots find the same: the same draws when there is no key in the file, else the same bytes
in the buffer behind those of the file. -/
def SameBoot (keyFile : Option Bytes) (boot boot' : Boot) : Prop :=
  if (keyFile.getD []).length = 0 then boot.random = boot'.random
  else boot.readBuffer.val.drop (keyFile.getD []).length =
    boot'.readBuffer.val.drop (keyFile.getD []).length

/-- The two halves determine the buffer. -/
theorem buffer_halves {b b' : Bytes} (hb : b.length = 2 * CHUNK_HASH_SIZE)
    (hb' : b'.length = 2 * CHUNK_HASH_SIZE) (hfst : FixedBytes.read 32 b 0 = FixedBytes.read 32 b' 0)
    (hsnd : FixedBytes.read 32 b CHUNK_HASH_SIZE = FixedBytes.read 32 b' CHUNK_HASH_SIZE) :
    b = b' := by
  have hsize : 2 * CHUNK_HASH_SIZE = CHUNK_HASH_SIZE + 32 := rfl
  have split : ∀ {b : Bytes}, b.length = 2 * CHUNK_HASH_SIZE →
      b = (FixedBytes.read 32 b 0).val ++ (FixedBytes.read 32 b CHUNK_HASH_SIZE).val := by
    intro b hb
    have h32 : CHUNK_HASH_SIZE = 32 := rfl
    have hf : readAt b 0 32 = b.take 32 := by
      rw [readAt_eq_slice (by omega), slice_zero_eq_take]
    have hs : readAt b CHUNK_HASH_SIZE 32 = b.drop 32 := by
      rw [readAt_eq_slice (by omega)]
      unfold slice
      rw [h32, List.take_of_length_le]
      rw [List.length_drop]
      omega
    change b = readAt b 0 32 ++ readAt b CHUNK_HASH_SIZE 32
    rw [hf, hs, List.take_append_drop]
  rw [split hb, split hb', hfst, hsnd]

/-- `enclaveKey_` and `indexQueryKey_` after `Ecall_Enclave_Init`. -/
def bootKeys (boot : Boot) (keyFile : Option Bytes) : Option (Key × Key) :=
  (Ecall_Enclave_Init boot ⟨none, keyFile⟩).enclave.map fun e => (e.enclaveKey_, e.indexQueryKey_)

theorem bootKeys_first {keyFile : Option Bytes} (hfile : (keyFile.getD []).length = 0)
    (boot : Boot) : bootKeys boot keyFile = some boot.random := by
  have hsize : Ocall_InitReadSealedFile keyFile = 0 := by
    cases keyFile with
    | none => rfl
    | some file => exact hfile
  unfold bootKeys Ecall_Enclave_Init
  rw [if_pos hsize]
  rfl

theorem bootKeys_later {keyFile : Option Bytes} (hfile : (keyFile.getD []).length ≠ 0)
    (boot : Boot) : ∃ readBuffer : Bytes, readBuffer.length = 2 * CHUNK_HASH_SIZE ∧
      readBuffer = (keyFile.getD []).take (2 * CHUNK_HASH_SIZE) ++
        boot.readBuffer.val.drop (keyFile.getD []).length ∧
      bootKeys boot keyFile = some
        (FixedBytes.read 32 readBuffer 0, FixedBytes.read 32 readBuffer CHUNK_HASH_SIZE) := by
  cases keyFile with
  | none => exact absurd rfl hfile
  | some file =>
    have hlen := boot.readBuffer.property
    have hread : Ocall_ReadSealedData (some file) boot.readBuffer.val =
        file.take (2 * CHUNK_HASH_SIZE) ++ boot.readBuffer.val.drop file.length := by
      unfold Ocall_ReadSealedData memcpy
      dsimp only
      rw [List.take_zero, List.nil_append, Nat.zero_add, List.length_take, hlen]
      by_cases hle : 2 * CHUNK_HASH_SIZE ≤ file.length
      · rw [Nat.min_eq_left hle, List.drop_eq_nil_of_le (by omega),
          List.drop_eq_nil_of_le (by omega)]
      · rw [Nat.min_eq_right (by omega)]
    refine ⟨Ocall_ReadSealedData (some file) boot.readBuffer.val, ?_, hread, ?_⟩
    · rw [hread, List.length_append, List.length_take, List.length_drop]
      omega
    · have hsize : Ocall_InitReadSealedFile (some file) ≠ 0 := hfile
      unfold bootKeys Ecall_Enclave_Init
      rw [if_neg hsize]
      rfl

/-- Two runs over one file have the same keys exactly when their boots find the same. -/
theorem bootKeys_eq_iff (keyFile : Option Bytes) (boot boot' : Boot) :
    bootKeys boot keyFile = bootKeys boot' keyFile ↔ SameBoot keyFile boot boot' := by
  unfold SameBoot
  by_cases hfile : (keyFile.getD []).length = 0
  · rw [bootKeys_first hfile, bootKeys_first hfile, if_pos hfile, Option.some.injEq]
  · obtain ⟨b, hb, hread, hkeys⟩ := bootKeys_later hfile boot
    obtain ⟨b', hb', hread', hkeys'⟩ := bootKeys_later hfile boot'
    rw [hkeys, hkeys', if_neg hfile, Option.some.injEq, Prod.mk.injEq]
    constructor
    · rintro ⟨hfst, hsnd⟩
      have heq := buffer_halves hb hb' hfst hsnd
      rw [hread, hread'] at heq
      exact List.append_cancel_left heq
    · intro heq
      rw [hread, hread', heq]
      exact ⟨rfl, rfl⟩

/-- The keys of a run depend on the file and on what the run draws, not on the runs before. -/
theorem serverRuns_eq (boots : List Boot) (h : Host) :
    serverRuns boots h = boots.map fun boot => bootKeys boot h.keyFile := by
  induction boots generalizing h with
  | nil => rfl
  | cons boot boots ih =>
    have hboot : Ecall_Enclave_Init boot h = Ecall_Enclave_Init boot ⟨none, h.keyFile⟩ := by
      unfold Ecall_Enclave_Init
      dsimp only
    rw [serverRuns, CTRLC_Init, ih, List.map_cons, hboot]
    rfl

/-- Every run after the first has the keys of the run before it exactly when its boot finds what
the boot before it found: no run leaves a key file behind. -/
theorem serverRuns_same_keys (boots : List Boot) (h : Host) :
    (serverRuns boots h).IsChain (fun keys keys' => keys = keys') ↔
      boots.IsChain (SameBoot h.keyFile) := by
  rw [serverRuns_eq, List.isChain_map]
  simp only [bootKeys_eq_iff]

/-- Two runs, and no key file before the first. -/
theorem serverRuns_new_keys : ¬(serverRuns
    [⟨(FixedBytes.fill 32 1, FixedBytes.fill 32 2), FixedBytes.fill _ 0⟩,
      ⟨(FixedBytes.fill 32 3, FixedBytes.fill 32 4), FixedBytes.fill _ 0⟩] ⟨none, none⟩).IsChain
    (fun keys keys' => keys = keys') := by
  decide

end Keys

end ShieldReduce.Prototype
