import ShieldReduce.Lib.Bytes

/-!
# Recipe entries, chunk records and containers

A container is a sequence of chunk records: the `RecipeEntry_t` of the chunk, its fingerprint,
its three super-features, its encrypted content and its IV.
-/

namespace ShieldReduce.Store
open Lib

def CHUNK_HASH_SIZE : Nat := 32
def CRYPTO_BLOCK_SIZE : Nat := 16
def CONTAINER_ID_LENGTH : Nat := 7
def MAX_CONTAINER_SIZE : Nat := 2 ^ 22

/-- A byte array of a fixed size. -/
def FixedBytes (n : Nat) : Type := { b : Bytes // b.length = n }

instance (n : Nat) : DecidableEq (FixedBytes n) := inferInstanceAs (DecidableEq { b : Bytes // b.length = n })

namespace FixedBytes

def read (n : Nat) (b : Bytes) (off : Nat) : FixedBytes n := ⟨readAt b off n, readAt_length b off n⟩

def fill (n : Nat) (x : UInt8) : FixedBytes n := ⟨List.replicate n x, List.length_replicate⟩

theorem read_of_slice {n : Nat} {b : Bytes} {off : Nat} {x : FixedBytes n}
    (h : slice b off n = x.val) : read n b off = x := by
  apply Subtype.ext
  change readAt b off n = x.val
  unfold readAt
  rw [h, x.property]
  simp

end FixedBytes

abbrev Fp := FixedBytes 32
abbrev ContainerName := FixedBytes 7
abbrev SuperFeature := FixedBytes 96
abbrev IV := FixedBytes 16

-- the proofs that a membership test of fingerprints or names needs, once for all definitions
instance : LawfulBEq Fp := inferInstance
instance : LawfulBEq ContainerName := inferInstance

/-- `DELTA_STATUS`, the values of a `deltaFlag`. -/
def NO_DELTA : UInt8 := 0
def DELTA : UInt8 := 1
def DELAY_DELTA : UInt8 := 2
def OUT_DELTA : UInt8 := 3

/-- `RecipeEntry_t` -/
structure RecipeEntry where
  containerName : ContainerName
  deltaFlag : UInt8
  offset : UInt32
  length : UInt32
  basechunkHash : Fp
  superfeature : SuperFeature
deriving DecidableEq

/-- `sizeof(RecipeEntry_t)` -/
def RECIPE_ENTRY_SIZE : Nat := 144

namespace RecipeEntry

def toBytes (e : RecipeEntry) : Bytes :=
  e.containerName.val ++ ([e.deltaFlag] ++ (le32 e.offset ++ (le32 e.length ++
    (e.basechunkHash.val ++ e.superfeature.val))))

/-- The `RecipeEntry_t` object at `off`. -/
def read (b : Bytes) (off : Nat) : RecipeEntry where
  containerName := FixedBytes.read 7 b off
  deltaFlag := b.getD (off + 7) 0
  offset := read32 b (off + 8)
  length := read32 b (off + 12)
  basechunkHash := FixedBytes.read 32 b (off + 16)
  superfeature := FixedBytes.read 96 b (off + 48)

@[simp] theorem toBytes_length (e : RecipeEntry) : e.toBytes.length = RECIPE_ENTRY_SIZE := by
  simp only [toBytes, List.length_append, e.containerName.property, e.basechunkHash.property,
    e.superfeature.property, le32_length, List.length_singleton, RECIPE_ENTRY_SIZE]

theorem read_of_slice {b : Bytes} {off : Nat} {e : RecipeEntry}
    (h : slice b off RECIPE_ENTRY_SIZE = e.toBytes) : read b off = e := by
  have hlen : off + RECIPE_ENTRY_SIZE ≤ b.length := by
    have hl := congrArg List.length h
    rw [toBytes_length, slice_length] at hl
    unfold RECIPE_ENTRY_SIZE at *
    omega
  unfold RECIPE_ENTRY_SIZE at h hlen
  have part : ∀ i n, i + n ≤ 144 → slice b (off + i) n = slice e.toBytes i n := by
    intro i n hi
    rw [← h, slice_slice hi]
  have hname := e.containerName.property
  have hbase := e.basechunkHash.property
  have hsf := e.superfeature.property
  have field : ∀ (pre x post : Bytes) (i n : Nat), e.toBytes = pre ++ (x ++ post) →
      pre.length = i → x.length = n → i + n ≤ 144 → slice b (off + i) n = x := by
    intro pre x post i n he hi hn hle
    rw [part i n hle, he]
    exact slice_mid hi.symm hn.symm
  have h1 := field [] e.containerName.val _ 0 7 rfl rfl hname (by decide)
  rw [Nat.add_zero] at h1
  have h2 := field e.containerName.val [e.deltaFlag] _ 7 1 rfl hname rfl (by decide)
  have h3 := field (e.containerName.val ++ [e.deltaFlag]) (le32 e.offset) _ 8 4
    (by simp [toBytes]; rfl) (by simp [hname]) rfl (by decide)
  have h4 := field (e.containerName.val ++ [e.deltaFlag] ++ le32 e.offset) (le32 e.length) _ 12 4
    (by simp [toBytes]; rfl) (by simp [hname]) rfl (by decide)
  have h5 := field (e.containerName.val ++ [e.deltaFlag] ++ le32 e.offset ++ le32 e.length)
    e.basechunkHash.val _ 16 32 (by simp [toBytes]; rfl) (by simp [hname]) hbase (by decide)
  have h6 := field (e.containerName.val ++ [e.deltaFlag] ++ le32 e.offset ++ le32 e.length ++
    e.basechunkHash.val) e.superfeature.val [] 48 96 (by simp [toBytes]) (by simp [hname, hbase])
    hsf (by decide)
  have hflag : b.getD (off + 7) 0 = e.deltaFlag := by
    have hs := @slice_succ b (off + 7) 0 (by omega)
    rw [h2] at hs
    simpa using hs.symm
  unfold read
  rw [FixedBytes.read_of_slice h1, hflag, read32_of_slice h3, read32_of_slice h4,
    FixedBytes.read_of_slice h5, FixedBytes.read_of_slice h6]

end RecipeEntry

/-- Everything in a record but its content. -/
def RECORD_OVERHEAD : Nat := RECIPE_ENTRY_SIZE + 4 * CHUNK_HASH_SIZE + CRYPTO_BLOCK_SIZE

/-- Where the content of a record starts. -/
def CONTENT_OFFSET : Nat := RECIPE_ENTRY_SIZE + 4 * CHUNK_HASH_SIZE

structure ChunkRecord where
  entry : RecipeEntry
  fp : Fp
  sf : SuperFeature
  content : Bytes
  iv : IV
deriving DecidableEq

namespace ChunkRecord

def toBytes (r : ChunkRecord) : Bytes :=
  r.entry.toBytes ++ (r.fp.val ++ (r.sf.val ++ (r.content ++ r.iv.val)))

def size (r : ChunkRecord) : Nat := r.content.length + RECORD_OVERHEAD

@[simp] theorem toBytes_length (r : ChunkRecord) : r.toBytes.length = r.size := by
  simp only [toBytes, size, List.length_append, RecipeEntry.toBytes_length, r.fp.property,
    r.sf.property, r.iv.property, RECORD_OVERHEAD, RECIPE_ENTRY_SIZE, CHUNK_HASH_SIZE,
    CRYPTO_BLOCK_SIZE]
  omega

end ChunkRecord

section Readers
variable (container : Bytes) (recipe : RecipeEntry)

def getChunkContent : Bytes :=
  readAt container (recipe.offset.toNat + CONTENT_OFFSET) recipe.length.toNat

def getChunkIV : IV :=
  FixedBytes.read 16 container (recipe.offset.toNat + CONTENT_OFFSET + recipe.length.toNat)

def getChunkFP : Fp := FixedBytes.read 32 container (recipe.offset.toNat + RECIPE_ENTRY_SIZE)

def getChunkSF : SuperFeature :=
  FixedBytes.read 96 container (recipe.offset.toNat + RECIPE_ENTRY_SIZE + CHUNK_HASH_SIZE)

end Readers

/-- The record `r` stands in `body` where its own entry says. -/
structure StandsIn (body : Bytes) (r : ChunkRecord) : Prop where
  bytes : slice body r.entry.offset.toNat r.size = r.toBytes
  length : r.entry.length.toNat = r.content.length

section StandsIn
variable {body : Bytes} {r : ChunkRecord}

theorem StandsIn.le (h : StandsIn body r) : r.entry.offset.toNat + r.size ≤ body.length := by
  have hl := congrArg List.length h.bytes
  rw [ChunkRecord.toBytes_length, slice_length] at hl
  have hpos : 0 < r.size := by unfold ChunkRecord.size RECORD_OVERHEAD RECIPE_ENTRY_SIZE; omega
  omega

theorem StandsIn.field (h : StandsIn body r) (pre x post : Bytes) {i n : Nat}
    (he : r.toBytes = pre ++ (x ++ post)) (hi : pre.length = i) (hn : x.length = n) :
    slice body (r.entry.offset.toNat + i) n = x := by
  have hle : i + n ≤ r.size := by
    rw [← ChunkRecord.toBytes_length, he]
    simp only [List.length_append]
    omega
  rw [← slice_slice hle, h.bytes, he]
  exact slice_mid hi.symm hn.symm

theorem StandsIn.entry_eq (h : StandsIn body r) :
    RecipeEntry.read body r.entry.offset.toNat = r.entry :=
  RecipeEntry.read_of_slice (h.field [] r.entry.toBytes _ rfl rfl r.entry.toBytes_length)

theorem StandsIn.fp_eq (h : StandsIn body r) : getChunkFP body r.entry = r.fp :=
  FixedBytes.read_of_slice
    (h.field r.entry.toBytes r.fp.val _ rfl r.entry.toBytes_length r.fp.property)

theorem StandsIn.sf_eq (h : StandsIn body r) : getChunkSF body r.entry = r.sf := by
  have hs := h.field (r.entry.toBytes ++ r.fp.val) r.sf.val (r.content ++ r.iv.val)
    (by simp [ChunkRecord.toBytes]) (by simp [r.fp.property]; rfl) r.sf.property
  exact FixedBytes.read_of_slice hs

theorem StandsIn.content_eq (h : StandsIn body r) : getChunkContent body r.entry = r.content := by
  have hs := h.field (r.entry.toBytes ++ r.fp.val ++ r.sf.val) r.content r.iv.val
    (by simp [ChunkRecord.toBytes]) (by simp [r.fp.property, r.sf.property]; rfl) h.length.symm
  have hle := h.le
  unfold getChunkContent
  rw [readAt_eq_slice]
  · exact hs
  · have hl := h.length
    simp only [ChunkRecord.size, RECORD_OVERHEAD, CONTENT_OFFSET, RECIPE_ENTRY_SIZE,
      CHUNK_HASH_SIZE, CRYPTO_BLOCK_SIZE] at *
    omega

theorem StandsIn.iv_eq (h : StandsIn body r) : getChunkIV body r.entry = r.iv := by
  have hs := h.field (r.entry.toBytes ++ r.fp.val ++ r.sf.val ++ r.content) r.iv.val []
    (by simp [ChunkRecord.toBytes])
    (show _ = CONTENT_OFFSET + r.entry.length.toNat by
      simp [r.fp.property, r.sf.property, h.length, CONTENT_OFFSET, CHUNK_HASH_SIZE]; omega)
    r.iv.property
  rw [← Nat.add_assoc] at hs
  exact FixedBytes.read_of_slice hs

end StandsIn

end ShieldReduce.Store
