import ShieldReduce.EDelta.RoundTrip
import ShieldReduce.Store.Format
import ShieldReduce.Store.Lz4

/-!
# Packing and expanding the content of a chunk

A base chunk is stored compressed when the compressor accepts it and raw when not, a delta chunk
as it is; both encrypted. No flag tells a reader which of the two a record is, so every reader
tries to decompress: restore and `ProcessDeltachunk` take a positive size for success,
`Easy_update` any size that is not negative.
-/

namespace ShieldReduce.Store
open Lib EDelta

/-- What the enclave calls and the sources under the repository do not decide: the hash, the
ciphers, the super-features, the LZ4 compressor and the window hash of the delta encoder. -/
structure EnclaveEnv where
  GenerateHash : Bytes → Fp
  IndexAESCMCEnc : Fp → Fp
  getSF2 : Bytes → SuperFeature
  EncryptWithKeyIV : IV → Bytes → Bytes
  DecryptionWithKeyIV : IV → Bytes → Bytes
  /-- `none` is the return value 0. -/
  LZ4_compress_fast : Bytes → Option Bytes
  edelta : EDeltaEnv
  IndexAESCMCEnc_injective : ∀ {a b}, IndexAESCMCEnc a = IndexAESCMCEnc b → a = b
  EncryptWithKeyIV_length : ∀ iv b, (EncryptWithKeyIV iv b).length = b.length
  DecryptionWithKeyIV_length : ∀ iv b, (DecryptionWithKeyIV iv b).length = b.length
  Decryption_Encrypt : ∀ iv b, DecryptionWithKeyIV iv (EncryptWithKeyIV iv b) = b
  LZ4_compress_fast_size : ∀ {c b}, LZ4_compress_fast c = some b → 0 < b.length ∧ b.length ≤ c.length
  LZ4_decompress_compress : ∀ {c b}, c.length ≤ MAX_CHUNK_SIZE → LZ4_compress_fast c = some b →
    LZ4_decompress_safe b MAX_CHUNK_SIZE = some c

/-- The little-endian counter in the first `n` bytes plus one. -/
def increment : Nat → Bytes → Bytes
  | 0, b => b
  | _, [] => []
  | n + 1, x :: b => if x = 255 then 0 :: increment n b else (x + 1) :: b

theorem increment_length (n : Nat) (b : Bytes) : (increment n b).length = b.length := by
  induction n generalizing b with
  | zero => rfl
  | succ n ih =>
    cases b with
    | nil => rfl
    | cons x b =>
      unfold increment
      by_cases h : x = 255
      · rw [if_pos h, List.length_cons, List.length_cons, ih]
      · rw [if_neg h, List.length_cons, List.length_cons]

/-- `_iv` is a counter in its first `uint64_t`. -/
def PickNewIV (iv : IV) : IV := ⟨increment 8 iv.val, by rw [increment_length]; exact iv.property⟩

section Content
variable (env : EnclaveEnv)

/-- What `ProcessSheUniqueChunk` encrypts. -/
def uniqueContent (deltaFlag : UInt8) (chunkBuffer : Bytes) : Bytes :=
  if deltaFlag = NO_DELTA then (env.LZ4_compress_fast chunkBuffer).getD chunkBuffer
  else chunkBuffer

/-- The test `> 0` on the decompressed size: `RecoverOneChunk`, the bases of `ProcRecipeBatch` and
`ProcRecipeTailBatch`, `ProcessDeltachunk`. -/
def RecoverOneChunk (iv : IV) (content : Bytes) : Bytes :=
  let decryptedChunk := env.DecryptionWithKeyIV iv content
  match LZ4_decompress_safe decryptedChunk MAX_CHUNK_SIZE with
  | none => decryptedChunk
  | some decompressedChunk =>
    if 0 < decompressedChunk.length then decompressedChunk else decryptedChunk

/-- The test `< 0` of `Easy_update`. -/
def offlineExpand (iv : IV) (content : Bytes) : Bytes :=
  let decryptedChunk := env.DecryptionWithKeyIV iv content
  match LZ4_decompress_safe decryptedChunk MAX_CHUNK_SIZE with
  | none => decryptedChunk
  | some decompressedChunk => decompressedChunk

/-- The raw bytes are not mistaken for a compressed block. -/
def Recoverable (chunk : Bytes) : Prop :=
  env.LZ4_compress_fast chunk = none →
    ∀ out, LZ4_decompress_safe chunk MAX_CHUNK_SIZE = some out → out = chunk

variable {env}

theorem uniqueContent_length {deltaFlag : UInt8} {chunkBuffer : Bytes}
    (h : 1 ≤ chunkBuffer.length) : 1 ≤ (uniqueContent env deltaFlag chunkBuffer).length ∧
      (uniqueContent env deltaFlag chunkBuffer).length ≤ chunkBuffer.length := by
  unfold uniqueContent
  by_cases hflag : deltaFlag = NO_DELTA
  · rw [if_pos hflag]
    cases hc : env.LZ4_compress_fast chunkBuffer with
    | none => exact ⟨h, Nat.le_refl _⟩
    | some b => exact env.LZ4_compress_fast_size hc
  · rw [if_neg hflag]
    exact ⟨h, Nat.le_refl _⟩

theorem RecoverOneChunk_encrypt (iv : IV) (b : Bytes) :
    RecoverOneChunk env iv (env.EncryptWithKeyIV iv b) =
      match LZ4_decompress_safe b MAX_CHUNK_SIZE with
      | none => b
      | some out => if 0 < out.length then out else b := by
  unfold RecoverOneChunk
  rw [env.Decryption_Encrypt]

theorem offlineExpand_encrypt (iv : IV) (b : Bytes) :
    offlineExpand env iv (env.EncryptWithKeyIV iv b) =
      (LZ4_decompress_safe b MAX_CHUNK_SIZE).getD b := by
  unfold offlineExpand
  rw [env.Decryption_Encrypt]
  cases h : LZ4_decompress_safe b MAX_CHUNK_SIZE <;> simp [h]

theorem RecoverOneChunk_length (iv : IV) {content : Bytes} (h : content.length ≤ MAX_CHUNK_SIZE) :
    (RecoverOneChunk env iv content).length ≤ MAX_CHUNK_SIZE := by
  have hraw : (env.DecryptionWithKeyIV iv content).length ≤ MAX_CHUNK_SIZE := by
    rw [env.DecryptionWithKeyIV_length]
    exact h
  unfold RecoverOneChunk
  cases hd : LZ4_decompress_safe (env.DecryptionWithKeyIV iv content) MAX_CHUNK_SIZE with
  | none => simpa only [hd] using hraw
  | some out =>
    have hout := LZ4_decompress_safe_length hd
    by_cases hpos : 0 < out.length
    · simpa only [hd, if_pos hpos] using hout
    · simpa only [hd, if_neg hpos] using hraw

theorem offlineExpand_length (iv : IV) {content : Bytes} (h : content.length ≤ MAX_CHUNK_SIZE) :
    (offlineExpand env iv content).length ≤ MAX_CHUNK_SIZE := by
  have hraw : (env.DecryptionWithKeyIV iv content).length ≤ MAX_CHUNK_SIZE := by
    rw [env.DecryptionWithKeyIV_length]
    exact h
  unfold offlineExpand
  cases hd : LZ4_decompress_safe (env.DecryptionWithKeyIV iv content) MAX_CHUNK_SIZE with
  | none => simpa only [hd] using hraw
  | some out => simpa only [hd] using LZ4_decompress_safe_length hd

/-- Both tests recover the chunk exactly when its raw bytes are not mistaken for a block. -/
theorem expand_uniqueContent {chunk : Bytes} (iv : IV) (hpos : 1 ≤ chunk.length)
    (hmax : chunk.length ≤ MAX_CHUNK_SIZE) :
    (RecoverOneChunk env iv (env.EncryptWithKeyIV iv (uniqueContent env NO_DELTA chunk)) = chunk ∧
      offlineExpand env iv (env.EncryptWithKeyIV iv (uniqueContent env NO_DELTA chunk)) = chunk) ↔
    Recoverable env chunk := by
  rw [RecoverOneChunk_encrypt, offlineExpand_encrypt]
  unfold uniqueContent Recoverable
  rw [if_pos rfl]
  cases hc : env.LZ4_compress_fast chunk with
  | some b =>
    have hdec := env.LZ4_decompress_compress hmax hc
    have hif : (if 0 < chunk.length then chunk else b) = chunk := if_pos hpos
    simp only [Option.getD_some, hdec, hif, and_self, reduceCtorEq, false_implies]
  | none =>
    simp only [Option.getD_none, true_implies]
    cases hd : LZ4_decompress_safe chunk MAX_CHUNK_SIZE with
    | none => simp
    | some out =>
      simp only [Option.getD_some, Option.some.injEq, forall_eq']
      constructor
      · intro h
        exact h.2
      · intro h
        subst h
        exact ⟨if_pos hpos, rfl⟩

end Content

/-- Ciphers that change nothing and a compressor that refuses every chunk. -/
def plainEnv : EnclaveEnv where
  GenerateHash b := FixedBytes.read 32 b 0
  IndexAESCMCEnc a := a
  getSF2 _ := FixedBytes.fill 96 0
  EncryptWithKeyIV _ b := b
  DecryptionWithKeyIV _ b := b
  LZ4_compress_fast _ := none
  edelta := sumEnv
  IndexAESCMCEnc_injective h := h
  EncryptWithKeyIV_length _ _ := rfl
  DecryptionWithKeyIV_length _ _ := rfl
  Decryption_Encrypt _ _ := rfl
  LZ4_compress_fast_size h := by simp at h
  LZ4_decompress_compress _ h := by simp at h

end ShieldReduce.Store
