import ShieldReduce.Prototype.Walks

/-!
# What compaction leaves of a container

`Update_cold_container` on any container of aligned records, whatever container their entries name
and whatever the index holds, for any list of extents of whole records.
-/

namespace ShieldReduce.Prototype
open Lib Store EDelta

section Shift
variable {off : Nat} {rs : List ChunkRecord}

theorem layout_shift_length (off : Nat) (rs : List ChunkRecord) :
    (layout (shift off rs)).length = (layout rs).length := by
  induction rs generalizing off with
  | nil => rfl
  | cons r rs ih =>
    unfold shift
    rw [layout_cons, layout_cons, List.length_append, List.length_append, ih,
      ChunkRecord.toBytes_length, ChunkRecord.toBytes_length, shifted_size]

theorem aligned_shift (hlen : ∀ r ∈ rs, r.entry.length.toNat = r.content.length)
    (hfits : off + (layout rs).length < 2 ^ 32) : Aligned off (shift off rs) := by
  induction rs generalizing off with
  | nil => trivial
  | cons r rs ih =>
    rw [layout_cons, List.length_append, ChunkRecord.toBytes_length] at hfits
    have hoff : (UInt32.ofNat off).toNat = off := by
      rw [UInt32.toNat_ofNat', Nat.mod_eq_of_lt (by omega)]
    have hrest := @ih (off + r.size) (fun r' hr' => hlen r' (List.mem_cons_of_mem r hr'))
      (by omega)
    exact ⟨hoff, hlen r List.mem_cons_self, hrest⟩

/-- A record stands where the records before it end. -/
theorem aligned_offset {before after : List ChunkRecord} {r : ChunkRecord}
    (h : Aligned off (before ++ r :: after)) :
    r.entry.offset.toNat = off + (layout before).length := by
  induction before generalizing off with
  | nil =>
    rw [layout_nil, List.length_nil, Nat.add_zero]
    exact h.1
  | cons x before ih =>
    rw [layout_cons, List.length_append, ChunkRecord.toBytes_length, ih h.2.2, Nat.add_assoc]

end Shift

section Repoint

theorem lookup_indexRecords_of_not_mem {rs : List ChunkRecord} {fp : Fp}
    (h : fp ∉ rs.map ChunkRecord.fp) (indexObj : Table Fp RecipeEntry) :
    (indexRecords indexObj rs).lookup fp = indexObj.lookup fp := by
  induction rs generalizing indexObj with
  | nil => rfl
  | cons r rs ih =>
    rw [List.map_cons, List.mem_cons, not_or] at h
    change (indexRecords (indexObj.insert r.fp r.entry) rs).lookup fp = _
    rw [ih h.2, Table.lookup_insert_ite, if_neg h.1]

/-- The last record with a fingerprint is the one its entry points to. -/
theorem lookup_indexRecords_last {before after : List ChunkRecord} {r : ChunkRecord}
    (h : r.fp ∉ after.map ChunkRecord.fp) (indexObj : Table Fp RecipeEntry) :
    (indexRecords indexObj (before ++ r :: after)).lookup r.fp = some r.entry := by
  unfold indexRecords
  rw [List.foldl_append, List.foldl_cons]
  have hafter := lookup_indexRecords_of_not_mem h ((indexRecords indexObj before).insert r.fp r.entry)
  unfold indexRecords at hafter
  rw [hafter, Table.lookup_insert_ite, if_pos rfl]

end Repoint

section Compact
variable {rs : List ChunkRecord} {extents : List (UInt32 × UInt32)}

/-- `extents` are distinct whole records of `rs`, in any order. -/
structure WholeRecords (rs : List ChunkRecord) (extents : List (UInt32 × UInt32)) : Prop where
  nodup : extents.Nodup
  record : ∀ ext ∈ extents, ∃ r ∈ rs, ext = coldExtent r.entry

/-- The records whose extents are not deleted. -/
def remaining (rs : List ChunkRecord) (extents : List (UInt32 × UInt32)) : List ChunkRecord :=
  rs.filter fun r => !decide (coldExtent r.entry ∈ extents)

theorem WholeRecords.sort_eq (h : WholeRecords rs extents) (haligned : Aligned 0 rs) :
    (extents.insertionSort fun a b => a.1.toNat ≤ b.1.toNat) =
      (rs.filter fun r => decide (coldExtent r.entry ∈ extents)).map
        fun r => coldExtent r.entry := by
  refine sort_extents haligned h.nodup fun ext => ?_
  rw [List.mem_map]
  constructor
  · intro hext
    obtain ⟨r, hr, rfl⟩ := h.record ext hext
    exact ⟨r, List.mem_filter.mpr ⟨hr, decide_eq_true hext⟩, rfl⟩
  · rintro ⟨r, hr, rfl⟩
    exact of_decide_eq_true (List.mem_filter.mp hr).2

theorem extents_sum (haligned : Aligned 0 rs) (hsize : (layout rs).length < 2 ^ 32)
    {kept : List ChunkRecord} (hkept : kept.Sublist rs) :
    ((kept.map fun r => coldExtent r.entry).map fun ext => ext.2.toNat).sum =
      (layout kept).length := by
  induction kept with
  | nil => rfl
  | cons r kept ih =>
    obtain ⟨_, hend, hlen⟩ := aligned_mem haligned (hkept.subset List.mem_cons_self)
    have hr := coldExtent_length hlen (by omega)
    rw [List.map_cons, List.map_cons, List.sum_cons, hr, ih ((List.sublist_cons_self r kept).trans
      hkept), layout_cons, List.length_append, ChunkRecord.toBytes_length]

theorem removed_length (haligned : Aligned 0 rs) (hsize : (layout rs).length < 2 ^ 32)
    (hextents : WholeRecords rs extents) :
    (extents.map fun ext => ext.2.toNat).sum =
      (layout (rs.filter fun r => decide (coldExtent r.entry ∈ extents))).length := by
  have hperm : (((rs.filter fun r => decide (coldExtent r.entry ∈ extents)).map
      fun r => coldExtent r.entry).map fun ext => ext.2.toNat).Perm
      (extents.map fun ext => ext.2.toNat) := by
    rw [← hextents.sort_eq haligned]
    exact (List.perm_insertionSort _ _).map _
  rw [← hperm.sum_nat, extents_sum haligned hsize List.filter_sublist]

theorem copyUntil_ends {body : Bytes} {stop fuel : Nat} {w : ColdWalk}
    (h : stop ≤ w.saveset + fuel) : stop ≤ (copyUntil body stop fuel w).saveset := by
  induction fuel generalizing w with
  | zero => exact h
  | succ fuel ih =>
    unfold copyUntil
    by_cases hlt : w.saveset < stop
    · have hmore := @copyRecord_saveset body w
      rw [if_pos hlt]
      exact ih (by omega)
    · rw [if_neg hlt]
      omega

variable {containerName : ContainerName} {d : Bool} {s : Server}

/-- The walk of the two loops over the container. -/
theorem coldWalk_remaining (haligned : Aligned 0 rs)
    (hsize : (layout rs).length ≤ MAX_CONTAINER_SIZE)
    (hextents : WholeRecords rs (Table.vec s.cold_map containerName)) :
    coldWalk (memcpy s.tmpOcallcontainer 0 (layout rs)) (layout rs).length
        ((Table.vec s.cold_map containerName).insertionSort fun a b => a.1.toNat ≤ b.1.toNat)
        ⟨0, 0, [], s.indexObj⟩ =
      { saveset := (layout rs).length
        coldset := ((Table.vec s.cold_map containerName).map fun ext => ext.2.toNat).sum
        Cold_new_container := layout (shift 0 (remaining rs (Table.vec s.cold_map containerName)))
        indexObj := indexRecords s.indexObj
          (shift 0 (remaining rs (Table.vec s.cold_map containerName))) } := by
  have hmax : MAX_CONTAINER_SIZE < 2 ^ 32 := by decide
  have hstand : ∀ r ∈ rs, StandsIn (memcpy s.tmpOcallcontainer 0 (layout rs)) r := by
    intro r hr
    rw [memcpy_zero]
    apply StandsIn.append
    apply aligned_standsIn haligned _ hr
    rw [slice_zero_eq_take, List.take_length]
  have hwalk := @coldWalk_eq (memcpy s.tmpOcallcontainer 0 (layout rs))
    (fun r => decide (coldExtent r.entry ∈ Table.vec s.cold_map containerName)) 0 rs
    ⟨0, 0, [], s.indexObj⟩ haligned hstand rfl (Nat.le_refl 0) (by omega)
  rw [hextents.sort_eq haligned, removed_length haligned (by omega) hextents]
  unfold remaining
  simpa only [Nat.zero_add, Nat.sub_zero, List.nil_append] using hwalk

theorem remaining_length (haligned : Aligned 0 rs)
    (hsize : (layout rs).length ≤ MAX_CONTAINER_SIZE) (hextents : WholeRecords rs extents) :
    (layout (shift 0 (remaining rs extents))).length +
      (extents.map fun ext => ext.2.toNat).sum = (layout rs).length := by
  have hmax : MAX_CONTAINER_SIZE < 2 ^ 32 := by decide
  have hfilter := layout_filter_length (fun r => decide (coldExtent r.entry ∈ extents)) rs
  rw [layout_shift_length, removed_length haligned (by omega) hextents, ← hfilter, Nat.add_comm]
  rfl

theorem Update_cold_container_remaining
    (hfile : Ocall_OneColdContainer containerName s = some (d, layout rs)) (haligned : Aligned 0 rs)
    (hsize : (layout rs).length ≤ MAX_CONTAINER_SIZE)
    (hextents : WholeRecords rs (Table.vec s.cold_map containerName)) :
    Update_cold_container containerName s = some { readContainer s (layout rs) with
      indexObj := indexRecords s.indexObj
        (shift 0 (remaining rs (Table.vec s.cold_map containerName)))
      files := s.files.insert (d, containerName)
        (layout (shift 0 (remaining rs (Table.vec s.cold_map containerName))))
      cold_map := s.cold_map.erase containerName } := by
  have hnew := remaining_length haligned hsize hextents
  have hsub : (layout rs).length - ((Table.vec s.cold_map containerName).map
      fun ext => ext.2.toNat).sum =
      (layout (shift 0 (remaining rs (Table.vec s.cold_map containerName)))).length := by
    omega
  rw [Update_cold_container_walk hfile (coldWalk_remaining haligned hsize hextents)]
  simp only [hsub, readAt_zero]

/-- `kept` are what is left of container `containerName` in directory `d` after a compaction from
`s` to `s'`: they stand one after another, each at the offset its own entry names, the index
points to the last record of every fingerprint, and nothing else has changed. -/
structure Compacted (s s' : Server) (containerName : ContainerName) (d : Bool)
    (kept : List ChunkRecord) : Prop where
  file : s'.files.lookup (d, containerName) = some (layout kept)
  aligned : Aligned 0 kept
  place : ∀ before r after, kept = before ++ r :: after →
    r.entry.offset.toNat = (layout before).length
  repointed : ∀ before r after, kept = before ++ r :: after →
    r.fp ∉ after.map ChunkRecord.fp → s'.indexObj.lookup r.fp = some r.entry
  others : ∀ fp ∉ kept.map ChunkRecord.fp, s'.indexObj.lookup fp = s.indexObj.lookup fp
  files : ∀ p ≠ (d, containerName), s'.files.lookup p = s.files.lookup p

theorem compacted_remaining
    (hfile : Ocall_OneColdContainer containerName s = some (d, layout rs)) (haligned : Aligned 0 rs)
    (hsize : (layout rs).length ≤ MAX_CONTAINER_SIZE)
    (hextents : WholeRecords rs (Table.vec s.cold_map containerName)) :
    ∃ s', Update_cold_container containerName s = some s' ∧
      Compacted s s' containerName d
        (shift 0 (remaining rs (Table.vec s.cold_map containerName))) := by
  have hmax : MAX_CONTAINER_SIZE < 2 ^ 32 := by decide
  have hnew := remaining_length haligned hsize hextents
  have hshift : Aligned 0 (shift 0 (remaining rs (Table.vec s.cold_map containerName))) := by
    rw [layout_shift_length] at hnew
    apply aligned_shift
    · intro r hr
      exact (aligned_mem haligned (List.mem_filter.mp hr).1).2.2
    · omega
  refine ⟨_, Update_cold_container_remaining hfile haligned hsize hextents, ?_⟩
  constructor
  · rw [Table.lookup_insert_ite, if_pos rfl]
  · exact hshift
  · intro before r after hkept
    rw [hkept] at hshift
    rw [aligned_offset hshift, Nat.zero_add]
  · intro before r after hkept hlast
    dsimp only
    rw [hkept]
    exact lookup_indexRecords_last hlast s.indexObj
  · intro fp hfp
    exact lookup_indexRecords_of_not_mem hfp s.indexObj
  · intro p hp
    rw [Table.lookup_insert_ite, if_neg hp]

end Compact

section CompactedContainer

/-- Compaction for every container of aligned records and every list of whole records. -/
theorem Update_cold_container_compacts {containerName : ContainerName} {d : Bool} {s : Server}
    {rs : List ChunkRecord}
    (hfile : Ocall_OneColdContainer containerName s = some (d, layout rs)) (haligned : Aligned 0 rs)
    (hsize : (layout rs).length ≤ MAX_CONTAINER_SIZE)
    (hextents : WholeRecords rs (Table.vec s.cold_map containerName)) :
    (∃ s', Update_cold_container containerName s = some s' ∧
      Compacted s s' containerName d
        (shift 0 (remaining rs (Table.vec s.cold_map containerName)))) ∧
    (layout (shift 0 (remaining rs (Table.vec s.cold_map containerName)))).length +
      ((Table.vec s.cold_map containerName).map fun ext => ext.2.toNat).sum = (layout rs).length ∧
    (∀ stop w, stop ≤
      (copyUntil (memcpy s.tmpOcallcontainer 0 (layout rs)) stop stop w).saveset) ∧
    (coldWalk (memcpy s.tmpOcallcontainer 0 (layout rs)) (layout rs).length
      ((Table.vec s.cold_map containerName).insertionSort fun a b => a.1.toNat ≤ b.1.toNat)
      ⟨0, 0, [], s.indexObj⟩).saveset = (layout rs).length := by
  refine ⟨compacted_remaining hfile haligned hsize hextents,
    remaining_length haligned hsize hextents, ?_, ?_⟩
  · intro stop w
    exact copyUntil_ends (Nat.le_add_left stop w.saveset)
  · rw [coldWalk_remaining haligned hsize hextents]

/-- A record of one byte, with the fingerprint of `x`s. -/
def byteRecord (x : UInt8) (offset : Nat) : ChunkRecord where
  entry := ⟨FixedBytes.fill 7 0, NO_DELTA, UInt32.ofNat offset, 1, FixedBytes.fill 32 0,
    FixedBytes.fill 96 0⟩
  fp := FixedBytes.fill 32 x
  sf := FixedBytes.fill 96 0
  content := [x]
  iv := FixedBytes.fill 16 0

/-- A deleted record and, behind it, two records of one fingerprint. -/
def twinRecords : List ChunkRecord := [byteRecord 1 0, byteRecord 2 289, byteRecord 2 578]

def twinServer : Server :=
  { Server.start false true with
    files := (∅ : Table Path Bytes).insert (false, FixedBytes.fill 7 0) (layout twinRecords)
    cold_map := (∅ : Table ContainerName (List (UInt32 × UInt32))).insert
      (FixedBytes.fill 7 0) [(0, 289)] }

theorem twinServer_file :
    Ocall_OneColdContainer (FixedBytes.fill 7 0) twinServer = some (false, layout twinRecords) :=
  rfl

theorem twinServer_aligned : Aligned 0 twinRecords :=
  ⟨rfl, rfl, rfl, rfl, rfl, rfl, trivial⟩

theorem twinServer_size : (layout twinRecords).length ≤ MAX_CONTAINER_SIZE := by
  unfold twinRecords
  simp only [layout_cons, layout_nil, List.length_append, ChunkRecord.toBytes_length]
  decide

theorem twinServer_extents :
    WholeRecords twinRecords (Table.vec twinServer.cold_map (FixedBytes.fill 7 0)) := by
  have hvec : Table.vec twinServer.cold_map (FixedBytes.fill 7 0) = [(0, 289)] := rfl
  rw [hvec]
  constructor
  · exact List.nodup_singleton _
  · intro ext hext
    exact ⟨byteRecord 1 0, List.mem_cons_self, List.mem_singleton.mp hext⟩

theorem Update_cold_container_compacts_twins :
    ∃ s', Update_cold_container (FixedBytes.fill 7 0) twinServer = some s' ∧
      Compacted twinServer s' (FixedBytes.fill 7 0) false
        [byteRecord 2 0, byteRecord 2 289] :=
  (Update_cold_container_compacts twinServer_file twinServer_aligned twinServer_size
    twinServer_extents).1

/-- Of two remaining records with one fingerprint the index points to the second only. -/
theorem Update_cold_container_twins :
    Ocall_OneColdContainer (FixedBytes.fill 7 0) twinServer = some (false, layout twinRecords) ∧
      Aligned 0 twinRecords ∧
      WholeRecords twinRecords (Table.vec twinServer.cold_map (FixedBytes.fill 7 0)) ∧
      ∃ s', Update_cold_container (FixedBytes.fill 7 0) twinServer = some s' ∧
        s'.files.lookup (false, FixedBytes.fill 7 0) =
          some (layout [byteRecord 2 0, byteRecord 2 289]) ∧
        s'.indexObj.lookup (byteRecord 2 0).fp ≠ some (byteRecord 2 0).entry := by
  refine ⟨twinServer_file, twinServer_aligned, twinServer_extents, ?_⟩
  obtain ⟨s', hs', hkept⟩ :=
    compacted_remaining twinServer_file twinServer_aligned twinServer_size twinServer_extents
  have hsecond := hkept.repointed [byteRecord 2 0] (byteRecord 2 289) [] rfl (by simp)
  refine ⟨s', hs', hkept.file, ?_⟩
  change s'.indexObj.lookup (byteRecord 2 289).fp ≠ _
  rw [hsecond]
  decide

end CompactedContainer

end ShieldReduce.Prototype
