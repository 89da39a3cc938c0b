import ShieldReduce.Prototype.Stored

/-!
# Storing a base chunk and expanding it again

What `ProcessSheUniqueChunk` appends to the container of the base chunks, and what the readers of
a base make of it.
-/

namespace ShieldReduce.Prototype
open Lib Store EDelta

section Expand
variable {env : EnclaveEnv}

theorem saveChunk_record (d : Bool) {content : Bytes} {chunkAddr : RecipeEntry}
    (hmax : content.length ≤ MAX_CHUNK_SIZE) (hlen : chunkAddr.length.toNat = content.length)
    (sf : SuperFeature) (fp : Fp) (s : Server) (more : Bytes) :
    StandsIn (((saveChunk d content chunkAddr sf fp s).1.opened d).buf ++ more)
      ⟨(saveChunk d content chunkAddr sf fp s).2, fp, sf, content, s.iv⟩ := by
  have hfit : ∀ {s : Server}, recordFits content (s.opened d).buf.length →
      StandsIn (((saveChunk d content chunkAddr sf fp s).1.opened d).buf ++ more)
        ⟨(saveChunk d content chunkAddr sf fp s).2, fp, sf, content, s.iv⟩ := by
    intro s hfits
    have hsmall : (s.opened d).buf.length < 2 ^ 32 := by
      have hcap : MAX_CONTAINER_SIZE < 2 ^ 32 := by decide
      unfold recordFits at hfits
      omega
    unfold saveChunk
    rw [if_pos hfits]
    refine ⟨?_, hlen⟩
    dsimp only
    rw [Function.update_self, UInt32.toNat_ofNat', Nat.mod_eq_of_lt hsmall, List.append_assoc]
    exact slice_mid rfl (ChunkRecord.toBytes_length _).symm
  by_cases hfits : recordFits content (s.opened d).buf.length
  · exact hfit hfits
  · rw [saveChunk_full hmax hfits]
    exact hfit (flushed_fits hmax d s)

/-- A stored base chunk stands at the end of its container, its content packed and encrypted. -/
theorem ProcessSheUniqueChunk_record {chunkAddr : RecipeEntry} {chunkBuffer : Bytes}
    (hflag : chunkAddr.deltaFlag = NO_DELTA) (hpos : 1 ≤ chunkBuffer.length)
    (hmax : chunkBuffer.length ≤ MAX_CHUNK_SIZE) (sf : SuperFeature) (fp : Fp) (s : Server)
    (more : Bytes) :
    StandsIn (((ProcessSheUniqueChunk env chunkAddr chunkBuffer sf fp s).1.opened false).buf ++ more)
      (uniqueRecord env chunkAddr chunkBuffer sf fp s) := by
  obtain ⟨hcipher, hlen⟩ := @uniqueCipher_length env chunkAddr chunkBuffer hpos hmax s
  obtain ⟨n, heq⟩ := ProcessSheUniqueChunk_eq env chunkAddr chunkBuffer sf fp s
  have hd : decide (chunkAddr.deltaFlag ≠ NO_DELTA) = false := by simp [hflag]
  unfold uniqueRecord
  rw [heq, hd]
  exact saveChunk_record false hcipher hlen sf fp
    { s with
      iv := PickNewIV s.iv
      onlineBackupSize := n } more

/-- Every reader of a base gets the chunk back, from the container it was stored in as it is then or
later, exactly when its raw bytes are not mistaken for a compressed block. -/
theorem ProcessSheUniqueChunk_expand (env : EnclaveEnv) (chunkAddr : RecipeEntry)
    (chunkBuffer : Bytes) (hflag : chunkAddr.deltaFlag = NO_DELTA) (hpos : 1 ≤ chunkBuffer.length)
    (hmax : chunkBuffer.length ≤ MAX_CHUNK_SIZE) (sf : SuperFeature) (fp : Fp) (s : Server)
    (more : Bytes) :
    let stored := ProcessSheUniqueChunk env chunkAddr chunkBuffer sf fp s
    let container := (stored.1.opened false).buf ++ more
    (RecoverOneChunk env (getChunkIV container stored.2) (getChunkContent container stored.2) =
        chunkBuffer ∧
      (∀ x : QueryEntry, x.containerbuffer = container → x.basechunkAddr = stored.2 →
        refChunk env x = chunkBuffer) ∧
      offlineExpand env (getChunkIV container stored.2) (getChunkContent container stored.2) =
        chunkBuffer) ↔
      Recoverable env chunkBuffer := by
  intro stored container
  have hstands := @ProcessSheUniqueChunk_record env chunkAddr chunkBuffer hflag hpos hmax sf fp s more
  have hiv : getChunkIV container stored.2 = PickNewIV s.iv := hstands.iv_eq
  have hcontent : getChunkContent container stored.2 =
      env.EncryptWithKeyIV (PickNewIV s.iv) (uniqueContent env NO_DELTA chunkBuffer) := by
    rw [← hflag]
    exact hstands.content_eq
  have hexpand := @expand_uniqueContent env chunkBuffer (PickNewIV s.iv) hpos hmax
  rw [hiv, hcontent]
  constructor
  · rintro ⟨hrecover, _, hoffline⟩
    exact hexpand.mp ⟨hrecover, hoffline⟩
  · intro hrec
    obtain ⟨hrecover, hoffline⟩ := hexpand.mpr hrec
    refine ⟨hrecover, ?_, hoffline⟩
    intro x hx haddr
    unfold refChunk
    rw [hx, haddr, hiv, hcontent]
    exact hrecover

/-- An in-enclave entry before it is filled in. -/
def emptyEntry : RecipeEntry where
  containerName := FixedBytes.fill 7 0
  deltaFlag := NO_DELTA
  offset := 0
  length := 0
  basechunkHash := FixedBytes.fill 32 0
  superfeature := FixedBytes.fill 96 0

theorem ProcessSheUniqueChunk_expand_letter :
    let stored := ProcessSheUniqueChunk plainEnv emptyEntry [0x57] (plainEnv.getSF2 [0x57])
      (plainEnv.GenerateHash [0x57]) (Server.start false true)
    let container := (stored.1.opened false).buf ++ []
    RecoverOneChunk plainEnv (getChunkIV container stored.2) (getChunkContent container stored.2) =
      [0x57] := by
  have hrec : Recoverable plainEnv [0x57] := by
    intro _ out hout
    have hnone : LZ4_decompress_safe [0x57] MAX_CHUNK_SIZE = none := by decide +kernel
    rw [hnone] at hout
    simp at hout
  exact ((ProcessSheUniqueChunk_expand plainEnv emptyEntry [0x57] rfl (by decide) (by decide)
    (plainEnv.getSF2 [0x57]) (plainEnv.GenerateHash [0x57]) (Server.start false true) []).mpr hrec).1

/-- The two bytes `10 41` are the block of one literal: they come back as one byte. -/
theorem ProcessSheUniqueChunk_expand_literal :
    let stored := ProcessSheUniqueChunk plainEnv emptyEntry [0x10, 0x41]
      (plainEnv.getSF2 [0x10, 0x41]) (plainEnv.GenerateHash [0x10, 0x41]) (Server.start false true)
    let container := (stored.1.opened false).buf
    RecoverOneChunk plainEnv (getChunkIV container stored.2) (getChunkContent container stored.2) ≠
      [0x10, 0x41] := by
  decide +kernel

end Expand

end ShieldReduce.Prototype
