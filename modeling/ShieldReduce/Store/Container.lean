import ShieldReduce.Store.Format

/-!
# Packed containers

The records of a container stand one after another, each entry naming the container and the
offset of its own record.
-/

namespace ShieldReduce.Store
open Lib

def layout (recs : List ChunkRecord) : Bytes := recs.flatMap ChunkRecord.toBytes

theorem layout_nil : layout [] = [] := rfl

theorem layout_cons (r : ChunkRecord) (recs : List ChunkRecord) :
    layout (r :: recs) = r.toBytes ++ layout recs := rfl

theorem layout_append (a b : List ChunkRecord) : layout (a ++ b) = layout a ++ layout b := by
  unfold layout
  rw [List.flatMap_append]

theorem layout_singleton (r : ChunkRecord) : layout [r] = r.toBytes := by simp [layout]

/-- `recs` stand one after another from offset `off` on, each entry with its own offset and length. -/
def Aligned : Nat → List ChunkRecord → Prop
  | _, [] => True
  | off, r :: recs =>
    r.entry.offset.toNat = off ∧ r.entry.length.toNat = r.content.length ∧ Aligned (off + r.size) recs

/-- `recs` are packed in container `name` from offset `off` on. -/
def PackedFrom (name : ContainerName) : Nat → List ChunkRecord → Prop
  | _, [] => True
  | off, r :: recs =>
    r.entry.containerName = name ∧ r.entry.offset.toNat = off ∧
      r.entry.length.toNat = r.content.length ∧ PackedFrom name (off + r.size) recs

/-- `body` is the file of container `name` holding exactly the records `recs`. -/
structure Packed (name : ContainerName) (body : Bytes) (recs : List ChunkRecord) : Prop where
  body_eq : body = layout recs
  packed : PackedFrom name 0 recs
  fits : body.length ≤ MAX_CONTAINER_SIZE

section Packed
variable {name : ContainerName}

theorem size_pos (r : ChunkRecord) : 0 < r.size := by
  unfold ChunkRecord.size RECORD_OVERHEAD RECIPE_ENTRY_SIZE
  omega

theorem packedFrom_append {off : Nat} {a b : List ChunkRecord} :
    PackedFrom name off (a ++ b) ↔
      PackedFrom name off a ∧ PackedFrom name (off + (layout a).length) b := by
  induction a generalizing off with
  | nil => simp [PackedFrom, layout_nil]
  | cons r a ih =>
    simp only [List.cons_append, PackedFrom, ih, layout_cons, List.length_append,
      ChunkRecord.toBytes_length, Nat.add_assoc, and_assoc]

theorem aligned_mem {off : Nat} {recs : List ChunkRecord} {r : ChunkRecord}
    (h : Aligned off recs) (hr : r ∈ recs) :
    off ≤ r.entry.offset.toNat ∧ r.entry.offset.toNat + r.size ≤ off + (layout recs).length ∧
      r.entry.length.toNat = r.content.length := by
  induction recs generalizing off with
  | nil => simp at hr
  | cons x recs ih =>
    obtain ⟨hoff, hlen, hrest⟩ := h
    rw [layout_cons, List.length_append, ChunkRecord.toBytes_length]
    rcases List.mem_cons.mp hr with rfl | hr
    · exact ⟨by omega, by omega, hlen⟩
    · obtain ⟨h1, h2, h3⟩ := ih hrest hr
      exact ⟨by omega, by omega, h3⟩

theorem aligned_standsIn {off : Nat} {recs : List ChunkRecord} {body : Bytes}
    (h : Aligned off recs) (hbody : slice body off (layout recs).length = layout recs)
    {r : ChunkRecord} (hr : r ∈ recs) : StandsIn body r := by
  induction recs generalizing off with
  | nil => simp at hr
  | cons x recs ih =>
    obtain ⟨hoff, hlen, hrest⟩ := h
    rw [layout_cons, List.length_append, slice_add, ChunkRecord.toBytes_length] at hbody
    have hle : (slice body off x.size).length = x.toBytes.length := by
      have hl := congrArg List.length hbody
      have hx := x.toBytes_length
      rw [List.length_append, List.length_append, slice_length, slice_length, hx] at hl
      rw [slice_length, hx]
      omega
    obtain ⟨hx, hrecs⟩ := List.append_inj hbody hle
    rcases List.mem_cons.mp hr with rfl | hr
    · exact ⟨by rw [hoff]; exact hx, hlen⟩
    · exact ih hrest hrecs hr

/-- Two records of one container at the same offset are the same record. -/
theorem aligned_offset_inj {off : Nat} {recs : List ChunkRecord} (h : Aligned off recs)
    {r r' : ChunkRecord} (hr : r ∈ recs) (hr' : r' ∈ recs)
    (heq : r.entry.offset = r'.entry.offset) : r = r' := by
  induction recs generalizing off with
  | nil => simp at hr
  | cons x recs ih =>
    obtain ⟨hoff, _, hrest⟩ := h
    have hx := size_pos x
    have hlater : ∀ y ∈ recs, x.entry.offset ≠ y.entry.offset := by
      intro y hy hxy
      have := (aligned_mem hrest hy).1
      rw [← hxy] at this
      omega
    rcases List.mem_cons.mp hr with hrx | hmem
    · rcases List.mem_cons.mp hr' with hrx' | hmem'
      · rw [hrx, hrx']
      · rw [hrx] at heq
        exact absurd heq (hlater r' hmem')
    · rcases List.mem_cons.mp hr' with hrx' | hmem'
      · rw [hrx'] at heq
        exact absurd heq.symm (hlater r hmem)
      · exact ih hrest hmem hmem'

theorem packedFrom_aligned {off : Nat} {recs : List ChunkRecord} (h : PackedFrom name off recs) :
    Aligned off recs ∧ ∀ r ∈ recs, r.entry.containerName = name := by
  induction recs generalizing off with
  | nil => exact ⟨trivial, by simp⟩
  | cons x recs ih =>
    obtain ⟨hname, hoff, hlen, hrest⟩ := h
    obtain ⟨haligned, hnames⟩ := ih hrest
    exact ⟨⟨hoff, hlen, haligned⟩, List.forall_mem_cons.mpr ⟨hname, hnames⟩⟩

theorem packedFrom_mem {off : Nat} {recs : List ChunkRecord} {r : ChunkRecord}
    (h : PackedFrom name off recs) (hr : r ∈ recs) :
    r.entry.containerName = name ∧ off ≤ r.entry.offset.toNat ∧
      r.entry.offset.toNat + r.size ≤ off + (layout recs).length ∧
      r.entry.length.toNat = r.content.length :=
  ⟨(packedFrom_aligned h).2 r hr, aligned_mem (packedFrom_aligned h).1 hr⟩

theorem packedFrom_offset_inj {off : Nat} {recs : List ChunkRecord} (h : PackedFrom name off recs)
    {r r' : ChunkRecord} (hr : r ∈ recs) (hr' : r' ∈ recs)
    (heq : r.entry.offset = r'.entry.offset) : r = r' :=
  aligned_offset_inj (packedFrom_aligned h).1 hr hr' heq

theorem packedFrom_nodup {off : Nat} {recs : List ChunkRecord} (h : PackedFrom name off recs) :
    recs.Nodup := by
  induction recs generalizing off with
  | nil => exact List.nodup_nil
  | cons x recs ih =>
    obtain ⟨_, hoff, _, hrest⟩ := h
    refine List.nodup_cons.mpr ⟨fun hx => ?_, ih hrest⟩
    have := (packedFrom_mem hrest hx).2.1
    have := size_pos x
    omega

variable {body : Bytes} {recs : List ChunkRecord}

theorem Packed.standsIn (h : Packed name body recs) {r : ChunkRecord} (hr : r ∈ recs) :
    StandsIn body r := by
  apply aligned_standsIn (packedFrom_aligned h.packed).1 _ hr
  rw [h.body_eq, slice_zero_eq_take, List.take_length]

end Packed

section Rest
variable {body : Bytes} {r : ChunkRecord}

theorem StandsIn.append {r : ChunkRecord} (h : StandsIn body r) (more : Bytes) :
    StandsIn (body ++ more) r :=
  ⟨by rw [slice_append_left h.le]; exact h.bytes, h.length⟩

/-- Everything of a record behind its entry. -/
theorem StandsIn.rest {r : ChunkRecord} (h : StandsIn body r) :
    readAt body (r.entry.offset.toNat + RECIPE_ENTRY_SIZE)
      (r.entry.length.toNat + 4 * CHUNK_HASH_SIZE + CRYPTO_BLOCK_SIZE) =
      r.fp.val ++ (r.sf.val ++ (r.content ++ r.iv.val)) := by
  have hle := h.le
  have hl := h.length
  have hs : slice body (r.entry.offset.toNat + RECIPE_ENTRY_SIZE)
      (r.entry.length.toNat + 4 * CHUNK_HASH_SIZE + CRYPTO_BLOCK_SIZE) =
      r.fp.val ++ (r.sf.val ++ (r.content ++ r.iv.val)) := by
    apply h.field r.entry.toBytes _ [] (by simp [ChunkRecord.toBytes]) r.entry.toBytes_length
    simp only [List.length_append, r.fp.property, r.sf.property, r.iv.property, CHUNK_HASH_SIZE,
      CRYPTO_BLOCK_SIZE]
    omega
  rw [readAt_eq_slice]
  · exact hs
  · simp only [ChunkRecord.size, RECORD_OVERHEAD] at hle
    omega

end Rest

end ShieldReduce.Store
