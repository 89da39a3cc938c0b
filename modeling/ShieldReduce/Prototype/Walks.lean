import ShieldReduce.Prototype.Relocate

/-!
# The walks of compaction and merging

`Update_cold_container` and `mergePair` go through a container record by record; what they leave
is a relocation of its live records.
-/

namespace ShieldReduce.Prototype
open Lib Store EDelta

section Walk
variable {body : Bytes}

/-- The copy of one record is the record moved down. -/
theorem copyRecord_eq {r : ChunkRecord} {w : ColdWalk} (h : StandsIn body r)
    (hoff : w.saveset = r.entry.offset.toNat) (hcold : w.coldset ≤ w.saveset)
    (hsmall : w.saveset < 2 ^ 32) :
    copyRecord body w =
      { saveset := w.saveset + r.size
        coldset := w.coldset
        Cold_new_container := w.Cold_new_container ++ (shifted (w.saveset - w.coldset) r).toBytes
        indexObj := w.indexObj.insert r.fp (shifted (w.saveset - w.coldset) r).entry } := by
  have hentry := h.entry_eq
  have hfp : FixedBytes.read 32 body (r.entry.offset.toNat + RECIPE_ENTRY_SIZE) = r.fp := h.fp_eq
  have hrest := h.rest
  have hsub : r.entry.offset - UInt32.ofNat w.coldset = UInt32.ofNat (w.saveset - w.coldset) := by
    apply UInt32.toNat_inj.mp
    have hle : UInt32.ofNat w.coldset ≤ r.entry.offset := by
      rw [UInt32.le_iff_toNat_le, UInt32.toNat_ofNat', Nat.mod_eq_of_lt (by omega)]
      omega
    rw [UInt32.toNat_sub_of_le _ _ hle, UInt32.toNat_ofNat', UInt32.toNat_ofNat',
      Nat.mod_eq_of_lt (by omega), Nat.mod_eq_of_lt (by omega), hoff]
  have hshifted : { r.entry with offset := r.entry.offset - UInt32.ofNat w.coldset } =
      (shifted (w.saveset - w.coldset) r).entry := by
    rw [hsub]
    rfl
  unfold copyRecord
  rw [← hoff] at hentry hfp hrest
  simp only [hentry, hfp, hshifted]
  rw [hrest]
  have hsize : w.saveset + RECIPE_ENTRY_SIZE +
      (r.entry.length.toNat + 4 * CHUNK_HASH_SIZE + CRYPTO_BLOCK_SIZE) = w.saveset + r.size := by
    have hl := h.length
    unfold ChunkRecord.size RECORD_OVERHEAD
    omega
  rw [hsize]
  congr 1
  rw [List.append_assoc]
  rfl

theorem copyUntil_done {stop fuel : Nat} {w : ColdWalk} (h : stop ≤ w.saveset) :
    copyUntil body stop fuel w = w := by
  cases fuel with
  | zero => rfl
  | succ fuel =>
    unfold copyUntil
    rw [if_neg (by omega)]

theorem copyRecord_saveset (w : ColdWalk) : w.saveset < (copyRecord body w).saveset := by
  unfold copyRecord RECIPE_ENTRY_SIZE
  dsimp only
  omega

theorem copyUntil_fuel {stop fuel fuel' : Nat} {w : ColdWalk} (h : stop ≤ w.saveset + fuel)
    (h' : stop ≤ w.saveset + fuel') : copyUntil body stop fuel w = copyUntil body stop fuel' w := by
  induction fuel generalizing fuel' w with
  | zero => rw [copyUntil_done (by omega), copyUntil_done (by omega)]
  | succ fuel ih =>
    by_cases hstop : stop ≤ w.saveset
    · rw [copyUntil_done hstop, copyUntil_done hstop]
    · obtain ⟨k, rfl⟩ : ∃ k, fuel' = k + 1 := ⟨fuel' - 1, by omega⟩
      have hmore := @copyRecord_saveset body w
      unfold copyUntil
      rw [if_pos (by omega), if_pos (by omega)]
      exact ih (by omega) (by omega)

theorem copyUntil_step {stop fuel fuel' : Nat} {w : ColdWalk} (hlt : w.saveset < stop)
    (h : stop ≤ w.saveset + fuel) (h' : stop ≤ (copyRecord body w).saveset + fuel') :
    copyUntil body stop fuel w = copyUntil body stop fuel' (copyRecord body w) := by
  have hmore := @copyRecord_saveset body w
  rw [@copyUntil_fuel body stop fuel (fuel' + (copyRecord body w).saveset + 1) w h (by omega)]
  conv_lhs => unfold copyUntil
  rw [if_pos hlt]
  exact copyUntil_fuel (by omega) h'

/-- The walk over a cold container: its deleted extents, then the rest. -/
def coldWalk (body : Bytes) (size : Nat) (extents : List (UInt32 × UInt32)) (w : ColdWalk) :
    ColdWalk :=
  copyUntil body size size (extents.foldl (skipExtent body) w)

/-- A record before the first deleted extent is copied. -/
theorem coldWalk_keep {size : Nat} {extents : List (UInt32 × UInt32)} {w : ColdWalk}
    (hsize : w.saveset < size) (hext : ∀ x ∈ extents, w.saveset < x.1.toNat) :
    coldWalk body size extents w = coldWalk body size extents (copyRecord body w) := by
  unfold coldWalk
  cases extents with
  | nil => exact copyUntil_step hsize (by omega) (by omega)
  | cons x rest =>
    have hx : skipExtent body w x = skipExtent body (copyRecord body w) x := by
      have hstep := @copyUntil_step body x.1.toNat x.1.toNat x.1.toNat w (hext x (by simp))
        (by omega) (by omega)
      unfold skipExtent
      rw [hstep]
    rw [List.foldl_cons, List.foldl_cons, hx]

theorem coldExtent_length {r : ChunkRecord} (hlen : r.entry.length.toNat = r.content.length)
    (hsmall : r.size < 2 ^ 32) : (coldExtent r.entry).2.toNat = r.size := by
  unfold coldExtent
  rw [UInt32.toNat_add, UInt32.toNat_ofNat', hlen]
  unfold ChunkRecord.size RECORD_OVERHEAD RECIPE_ENTRY_SIZE CHUNK_HASH_SIZE CRYPTO_BLOCK_SIZE at *
  omega

/-- The walk keeps the records whose extents are not deleted, laid out anew. -/
theorem coldWalk_eq (dead : ChunkRecord → Bool) {off : Nat} {rs : List ChunkRecord} {w : ColdWalk}
    (haligned : Aligned off rs) (hstand : ∀ r ∈ rs, StandsIn body r)
    (hoff : w.saveset = off) (hcold : w.coldset ≤ off)
    (hsmall : off + (layout rs).length < 2 ^ 32) :
    coldWalk body (off + (layout rs).length) ((rs.filter dead).map fun r => coldExtent r.entry) w =
      { saveset := off + (layout rs).length
        coldset := w.coldset + (layout (rs.filter dead)).length
        Cold_new_container := w.Cold_new_container ++
          layout (shift (off - w.coldset) (rs.filter fun r => !dead r))
        indexObj := indexRecords w.indexObj
          (shift (off - w.coldset) (rs.filter fun r => !dead r)) } := by
  induction rs generalizing off w with
  | nil =>
    have hw : coldWalk body (off + (layout []).length) [] w = w := by
      unfold coldWalk
      rw [List.foldl_nil, copyUntil_done]
      rw [layout_nil, List.length_nil]
      omega
    have hend : off + (layout []).length = w.saveset := by
      rw [layout_nil, List.length_nil]
      omega
    simp only [List.filter_nil, List.map_nil, hw]
    rw [hend]
    simp [shift, layout_nil, indexRecords]
  | cons r rs ih =>
    obtain ⟨hroff, hrlen, hrest⟩ := haligned
    have hpos := size_pos r
    have hlayout : (layout (r :: rs)).length = r.size + (layout rs).length := by
      rw [layout_cons, List.length_append, ChunkRecord.toBytes_length]
    have hend : off + (layout (r :: rs)).length = off + r.size + (layout rs).length := by omega
    have hstand' : ∀ r' ∈ rs, StandsIn body r' :=
      fun r' hr' => hstand r' (List.mem_cons_of_mem r hr')
    have hlater : ∀ x ∈ (rs.filter dead).map fun r => coldExtent r.entry,
        w.saveset < x.1.toNat := by
      intro x hx
      obtain ⟨r', hr', rfl⟩ := List.mem_map.mp hx
      have hle := (aligned_mem hrest (List.mem_filter.mp hr').1).1
      change w.saveset < r'.entry.offset.toNat
      omega
    cases hd : dead r with
    | true =>
      have hsize := coldExtent_length hrlen (by omega)
      have hskip : skipExtent body w (coldExtent r.entry) =
          { w with coldset := w.coldset + r.size, saveset := w.saveset + r.size } := by
        unfold skipExtent
        have hfirst : (coldExtent r.entry).1.toNat = off := hroff
        rw [copyUntil_done (by omega), hsize]
      have hnext := @ih (off + r.size)
        { w with coldset := w.coldset + r.size, saveset := w.saveset + r.size }
        hrest hstand' (by dsimp only; omega) (by dsimp only; omega) (by omega)
      rw [List.filter_cons_of_pos hd, List.filter_cons_of_neg (by simp [hd]), List.map_cons, hend]
      unfold coldWalk at hnext ⊢
      rw [List.foldl_cons, hskip, hnext]
      have hsub : off + r.size - (w.coldset + r.size) = off - w.coldset := by omega
      simp only [hsub, layout_cons, List.length_append, ChunkRecord.toBytes_length, Nat.add_assoc]
    | false =>
      have hcopy := @copyRecord_eq body r w (hstand r (by simp)) (by omega) (by omega) (by omega)
      rw [List.filter_cons_of_neg (by simp [hd]), List.filter_cons_of_pos (by simp [hd]), hend,
        coldWalk_keep (by omega) hlater, hcopy]
      rw [ih hrest hstand' (by dsimp only; omega) (by dsimp only; omega) (by omega)]
      have hsub : off + r.size - w.coldset = off - w.coldset + r.size := by omega
      rw [hoff, hsub]
      simp only [shift, layout_cons, List.append_assoc]
      rfl

end Walk

section Cold
variable {env : EnclaveEnv} {E : Fp → RecipeEntry → Prop}
  {cold : Table ContainerName (List (UInt32 × UInt32))} {times : Nat} {R : Records}

theorem memcpy_zero (buf body : Bytes) :
    memcpy buf 0 body = body ++ buf.drop body.length := by
  unfold memcpy
  rw [List.take_zero, List.nil_append, Nat.zero_add]

theorem Indexed.mem_extents (h : Indexed E cold times R) (hok : RecordsOk env times R) {p : Path}
    {rs : List ChunkRecord} (hp : R p = some rs) {dead : ChunkRecord → Bool}
    (hdead : ∀ r ∈ rs, dead r = true ↔ ¬E r.fp r.entry) (ext : UInt32 × UInt32) :
    ext ∈ Table.vec cold p.2 ↔ ext ∈ (rs.filter dead).map fun r => coldExtent r.entry := by
  rw [List.mem_map]
  constructor
  · intro hext
    obtain ⟨d, rs', r, hrs', hmem, hexteq, hne⟩ := h.dead hext
    rw [hok.dir_unique hrs' hp, hp, Option.some.injEq] at hrs'
    subst hrs'
    exact ⟨r, List.mem_filter.mpr ⟨hmem, (hdead r hmem).mpr hne⟩, hexteq.symm⟩
  · rintro ⟨r, hmem, rfl⟩
    obtain ⟨hr, hd⟩ := List.mem_filter.mp hmem
    exact h.live hp hr ((hdead r hr).mp hd)

theorem extents_sorted {off : Nat} {rs : List ChunkRecord} (h : Aligned off rs) :
    (rs.map fun r => coldExtent r.entry).Pairwise fun a b => a.1.toNat < b.1.toNat := by
  induction rs generalizing off with
  | nil => exact List.Pairwise.nil
  | cons r rs ih =>
    obtain ⟨hoff, _, hrest⟩ := h
    rw [List.map_cons, List.pairwise_cons]
    refine ⟨?_, ih hrest⟩
    intro x hx
    obtain ⟨r', hr', rfl⟩ := List.mem_map.mp hx
    have hle := (aligned_mem hrest hr').1
    have hpos := size_pos r
    change r.entry.offset.toNat < r'.entry.offset.toNat
    omega

/-- The sort puts the extents of distinct records in the order of the records. -/
theorem sort_extents {off : Nat} {rs : List ChunkRecord} (h : Aligned off rs)
    {dead : ChunkRecord → Bool} {exts : List (UInt32 × UInt32)} (hexts : exts.Nodup)
    (hmem : ∀ ext, ext ∈ exts ↔ ext ∈ (rs.filter dead).map fun r => coldExtent r.entry) :
    (exts.insertionSort fun a b => a.1.toNat ≤ b.1.toNat) =
      (rs.filter dead).map fun r => coldExtent r.entry := by
  have hsorted := (extents_sorted h).sublist
    ((List.filter_sublist (p := dead) (l := rs)).map fun r => coldExtent r.entry)
  have hnodup : ((rs.filter dead).map fun r => coldExtent r.entry).Nodup :=
    hsorted.imp fun hlt heq => by rw [heq] at hlt; exact Nat.lt_irrefl _ hlt
  have hperm : exts.Perm ((rs.filter dead).map fun r => coldExtent r.entry) :=
    (List.perm_ext_iff_of_nodup hexts hnodup).mpr hmem
  have htotal : Std.Total fun a b : UInt32 × UInt32 => a.1.toNat ≤ b.1.toNat :=
    ⟨fun a b => Nat.le_total _ _⟩
  have htrans : IsTrans (UInt32 × UInt32) fun a b => a.1.toNat ≤ b.1.toNat :=
    ⟨fun _ _ _ => Nat.le_trans⟩
  refine List.Perm.eq_of_pairwise ?_
    (List.pairwise_insertionSort (fun a b : UInt32 × UInt32 => a.1.toNat ≤ b.1.toNat) _)
    (hsorted.imp Nat.le_of_lt) ((List.perm_insertionSort _ _).trans hperm)
  intro a b ha hb hab hba
  rw [List.mem_insertionSort, hperm.mem_iff] at ha
  obtain ⟨r, hr, hra⟩ := List.mem_map.mp ha
  obtain ⟨r', hr', hrb⟩ := List.mem_map.mp hb
  have hoffset : r.entry.offset = r'.entry.offset := by
    have ha1 : a.1 = r.entry.offset := by rw [← hra]; rfl
    have hb1 : b.1 = r'.entry.offset := by rw [← hrb]; rfl
    rw [← ha1, ← hb1]
    exact UInt32.toNat_inj.mp (Nat.le_antisymm hab hba)
  have hrr := aligned_offset_inj h (List.mem_filter.mp hr).1 (List.mem_filter.mp hr').1 hoffset
  rw [← hra, ← hrb, hrr]

/-- What `Update_cold_container` sorts are the extents of the dead records, in their order. -/
theorem Indexed.sorted_extents (h : Indexed E cold times R) (hok : RecordsOk env times R)
    {p : Path} {rs : List ChunkRecord} (hp : R p = some rs) {dead : ChunkRecord → Bool}
    (hdead : ∀ r ∈ rs, dead r = true ↔ ¬E r.fp r.entry) :
    ((Table.vec cold p.2).insertionSort fun a b => a.1.toNat ≤ b.1.toNat) =
      (rs.filter dead).map fun r => coldExtent r.entry :=
  sort_extents (packedFrom_aligned (hok.packed hp).packed).1 (h.dead_nodup p.2)
    (h.mem_extents hok hp hdead)

theorem layout_filter_length (dead : ChunkRecord → Bool) (rs : List ChunkRecord) :
    (layout (rs.filter dead)).length + (layout (rs.filter fun r => !dead r)).length =
      (layout rs).length := by
  induction rs with
  | nil => rfl
  | cons r rs ih =>
    rw [layout_cons, List.length_append, ← ih]
    cases hd : dead r with
    | true =>
      rw [List.filter_cons_of_pos hd, List.filter_cons_of_neg (by simp [hd]), layout_cons,
        List.length_append]
      omega
    | false =>
      rw [List.filter_cons_of_neg (by simp [hd]), List.filter_cons_of_pos (by simp [hd]),
        layout_cons, List.length_append]
      omega

theorem readAt_zero (b : Bytes) : readAt b 0 b.length = b := by
  rw [readAt_eq_slice (by omega), slice_zero_eq_take, List.take_length]

variable {queue : List Container} {opens : Path → Option Bytes} {s s' : Server}

theorem Ocall_OneColdContainer_file {containerName : ContainerName} {d : Bool} {body : Bytes}
    (h : Ocall_OneColdContainer containerName s = some (d, body)) :
    s.files.lookup (d, containerName) = some body := by
  unfold Ocall_OneColdContainer at h
  cases hdelta : s.files.lookup (true, containerName) with
  | some b =>
    simp only [hdelta, Option.some.injEq, Prod.mk.injEq] at h
    rw [← h.1, ← h.2]
    exact hdelta
  | none =>
    simp only [hdelta, Option.map_eq_some_iff, Prod.mk.injEq] at h
    obtain ⟨b, hb, hd, hbody⟩ := h
    rw [← hd, ← hbody]
    exact hb

theorem Update_cold_container_walk {containerName : ContainerName} {d : Bool} {body : Bytes}
    (h : Ocall_OneColdContainer containerName s = some (d, body)) {w : ColdWalk}
    (hw : coldWalk (memcpy s.tmpOcallcontainer 0 body) body.length
      ((Table.vec s.cold_map containerName).insertionSort fun a b => a.1.toNat ≤ b.1.toNat)
      ⟨0, 0, [], s.indexObj⟩ = w) :
    Update_cold_container containerName s = some { readContainer s body with
      indexObj := w.indexObj
      files := s.files.insert (d, containerName)
        (readAt w.Cold_new_container 0 (body.length - w.coldset))
      cold_map := s.cold_map.erase containerName } := by
  unfold Update_cold_container
  rw [h, ← hw]
  rfl

/-- Compaction packs the live records of the container anew. -/
theorem Update_cold_container_eq {containerName : ContainerName}
    (h : Holds env none queue opens s.files times R)
    (hi : Indexed (Entry s.indexObj []) s.cold_map times R)
    (hs : Update_cold_container containerName s = some s') :
    ∃ d rs kept, s.files.lookup (d, containerName) = some (layout rs) ∧
      Relocation (Entry s.indexObj []) s.cold_map R (d, containerName) (d, containerName) kept [] ∧
      (layout kept).length < MAX_CONTAINER_SIZE ∧
      s' = { readContainer s (layout rs) with
        indexObj := indexRecords s.indexObj (repack containerName 0 kept)
        files := s.files.insert (d, containerName) (layout (repack containerName 0 kept))
        cold_map := s.cold_map.erase containerName } := by
  obtain ⟨⟨d, body⟩, hone⟩ : ∃ x, Ocall_OneColdContainer containerName s = some x := by
    unfold Update_cold_container at hs
    obtain ⟨x, hone, _⟩ := Option.bind_eq_some_iff.mp hs
    exact ⟨x, hone⟩
  have hfile := Ocall_OneColdContainer_file hone
  obtain ⟨rs, hp, rfl, hpacked⟩ := h.file hfile
  let dead : ChunkRecord → Bool := fun r => s.indexObj.lookup r.fp ≠ some r.entry
  have hdead : ∀ r ∈ rs, dead r = true ↔ ¬Entry s.indexObj [] r.fp r.entry := by
    intro r _
    simp [dead, Entry]
  have hsort := hi.sorted_extents h.ok hp hdead
  have hlen := layout_filter_length dead rs
  have hfits := hpacked.fits
  have hmax : MAX_CONTAINER_SIZE < 2 ^ 32 := by decide
  have hstand : ∀ r ∈ rs, StandsIn (memcpy s.tmpOcallcontainer 0 (layout rs)) r := by
    intro r hr
    rw [memcpy_zero]
    exact (Packed.standsIn ⟨rfl, hpacked.packed, Nat.le_of_lt hfits⟩ hr).append _
  obtain ⟨haligned, hnames⟩ := packedFrom_aligned hpacked.packed
  have hwalk := @coldWalk_eq (memcpy s.tmpOcallcontainer 0 (layout rs)) dead 0 rs
    ⟨0, 0, [], s.indexObj⟩ haligned hstand rfl (Nat.le_refl 0) (by omega)
  rw [← hsort, Nat.zero_add, @shift_eq_repack containerName _ _
    fun r hr => hnames r (List.mem_filter.mp hr).1] at hwalk
  have hrun := Update_cold_container_walk hone hwalk
  have hnew : (layout rs).length - (0 + (layout (rs.filter dead)).length) =
      (layout (repack containerName 0 (rs.filter fun r => !dead r))).length := by
    rw [layout_repack_length]
    omega
  refine ⟨d, rs, rs.filter fun r => !dead r, hfile, ⟨rfl, ⟨rs, hp, List.filter_sublist, ?_⟩,
    Or.inl ⟨rfl, rfl⟩⟩, by omega, ?_⟩
  · intro r hr
    rw [List.mem_filter]
    simp [hr, dead, Entry]
  · rw [hs, Option.some.injEq] at hrun
    rw [hrun]
    simp only [List.nil_append, Nat.sub_zero, hnew, readAt_zero]

end Cold

section Merge
variable {name : ContainerName} {body : Bytes}

theorem mergeRecord_eq {first : Nat} {r : ChunkRecord} {w : MergeWalk} (h : StandsIn body r)
    (hoff : w.offset = r.entry.offset.toNat) :
    mergeRecord name first body w =
      { offset := w.offset + r.size
        containerBuffer := w.containerBuffer ++ (moved name (first + w.offset) r).toBytes
        indexObj := w.indexObj.insert r.fp (moved name (first + w.offset) r).entry } := by
  have hentry := h.entry_eq
  have hfp : FixedBytes.read 32 body (r.entry.offset.toNat + RECIPE_ENTRY_SIZE) = r.fp := h.fp_eq
  have hrest := h.rest
  have hmoved : { r.entry with
      offset := r.entry.offset + UInt32.ofNat first, containerName := name } =
      (moved name (first + w.offset) r).entry := by
    have hsum : r.entry.offset + UInt32.ofNat first = UInt32.ofNat (first + w.offset) := by
      rw [hoff, Nat.add_comm first, UInt32.ofNat_add, UInt32.ofNat_toNat]
    rw [hsum]
    rfl
  unfold mergeRecord
  rw [← hoff] at hentry hfp hrest
  simp only [hentry, hfp, hmoved]
  rw [hrest]
  have hsize : w.offset + RECIPE_ENTRY_SIZE +
      (r.entry.length.toNat + 4 * CHUNK_HASH_SIZE + CRYPTO_BLOCK_SIZE) = w.offset + r.size := by
    have hl := h.length
    unfold ChunkRecord.size RECORD_OVERHEAD
    omega
  rw [hsize]
  congr 1
  rw [List.append_assoc]
  rfl

/-- The walk over the second container moves all its records behind the first. -/
theorem mergeRecords_eq {first off fuel : Nat} {rs : List ChunkRecord} {source : ContainerName}
    {w : MergeWalk} (hpacked : PackedFrom source off rs) (hstand : ∀ r ∈ rs, StandsIn body r)
    (hoff : w.offset = off) (hend : off + (layout rs).length = body.length)
    (hfuel : (layout rs).length ≤ fuel) :
    mergeRecords name first body fuel w =
      { offset := body.length
        containerBuffer := w.containerBuffer ++ layout (repack name (first + off) rs)
        indexObj := indexRecords w.indexObj (repack name (first + off) rs) } := by
  induction rs generalizing off fuel w with
  | nil =>
    rw [layout_nil, List.length_nil, Nat.add_zero] at hend
    have hstop : mergeRecords name first body fuel w = w := by
      cases fuel with
      | zero => rfl
      | succ fuel =>
        unfold mergeRecords
        rw [if_neg (by omega)]
    rw [hstop, ← hend, ← hoff]
    simp [repack, layout_nil, indexRecords]
  | cons r rs ih =>
    obtain ⟨_, hroff, _, hrest⟩ := hpacked
    have hpos := size_pos r
    rw [layout_cons, List.length_append, ChunkRecord.toBytes_length] at hend hfuel
    obtain ⟨k, rfl⟩ : ∃ k, fuel = k + 1 := ⟨fuel - 1, by omega⟩
    have hrec := @mergeRecord_eq name body first r w (hstand r (by simp)) (by omega)
    unfold mergeRecords
    rw [if_pos (by omega), hrec]
    rw [ih hrest (fun r' hr' => hstand r' (List.mem_cons_of_mem r hr')) (by dsimp only; omega)
      (by omega) (by omega)]
    rw [hoff, ← Nat.add_assoc]
    simp only [repack, layout_cons, List.append_assoc]
    rfl

/-- `MergeContainer` on one pair puts the records of the second file behind those of the first. -/
theorem mergePair_layout {p : ContainerName × ContainerName} {s : Server}
    {first rs : List ChunkRecord} {source : ContainerName}
    (hfirst : s.files.lookup (false, p.1) = some (layout first))
    (hsecond : s.files.lookup (false, p.2) = some (layout rs)) (hpacked : PackedFrom source 0 rs) :
    mergePair p s = some { s with
      indexObj := indexRecords s.indexObj (repack p.1 (layout first).length rs)
      files := (s.files.insert (false, p.1)
        (layout (first ++ repack p.1 (layout first).length rs))).erase (false, p.2) } := by
  have hstand : ∀ r ∈ rs, StandsIn (layout rs) r := by
    intro r hr
    apply aligned_standsIn (packedFrom_aligned hpacked).1 _ hr
    rw [slice_zero_eq_take, List.take_length]
  have hwalk := @mergeRecords_eq p.1 (layout rs) (layout first).length 0 (layout rs).length rs
    source ⟨0, [], s.indexObj⟩ hpacked hstand rfl (Nat.zero_add _) (Nat.le_refl _)
  have hlen : (layout rs).length = (layout (repack p.1 (layout first).length rs)).length := by
    rw [layout_repack_length]
  rw [Nat.add_zero] at hwalk
  unfold mergePair
  rw [hfirst, hsecond]
  simp only [Option.bind_eq_bind, Option.bind_some, hwalk, List.nil_append]
  rw [hlen, readAt_zero, layout_append]
  rfl

variable {env : EnclaveEnv} {times : Nat} {R : Records} {queue : List Container}
  {opens : Path → Option Bytes} {s s' : Server}

/-- Merging moves the records of the second container behind those of the first. -/
theorem mergePair_eq {p : ContainerName × ContainerName}
    (h : Holds env none queue opens s.files times R)
    (hi : Indexed (Entry s.indexObj []) s.cold_map times R)
    (hcold : ∀ name, Table.vec s.cold_map name = []) (hne : p.1 ≠ p.2)
    (hs : mergePair p s = some s') :
    ∃ first rs, s.files.lookup (false, p.1) = some (layout first) ∧
      s.files.lookup (false, p.2) = some (layout rs) ∧
      Relocation (Entry s.indexObj []) s.cold_map R (false, p.2) (false, p.1) rs first ∧
      s' = { s with
        indexObj := indexRecords s.indexObj (repack p.1 (layout first).length rs)
        files := (s.files.insert (false, p.1)
          (layout (first ++ repack p.1 (layout first).length rs))).erase (false, p.2) } := by
  obtain ⟨first, second, hfirst, hsecond⟩ : ∃ first second,
      s.files.lookup (false, p.1) = some first ∧ s.files.lookup (false, p.2) = some second := by
    unfold mergePair at hs
    obtain ⟨first, hfirst, hs⟩ := Option.bind_eq_some_iff.mp hs
    obtain ⟨second, hsecond, _⟩ := Option.bind_eq_some_iff.mp hs
    exact ⟨first, second, hfirst, hsecond⟩
  obtain ⟨base, hbase, rfl, _⟩ := h.file hfirst
  obtain ⟨rs, hrs, rfl, hpacked⟩ := h.file hsecond
  have hrun := mergePair_layout hfirst hsecond hpacked.packed
  rw [hs, Option.some.injEq] at hrun
  refine ⟨base, rs, hfirst, hsecond, ⟨rfl, ⟨rs, hrs, List.Sublist.refl rs, ?_⟩, Or.inr ⟨?_, hbase,
    hcold p.1⟩⟩, hrun⟩
  · intro r hr
    refine ⟨fun _ => ?_, fun _ => hr⟩
    by_contra hdead
    have hlive := hi.live hrs hr hdead
    rw [hcold] at hlive
    simp at hlive
  · intro heq
    exact hne (congrArg Prod.snd heq)

end Merge

end ShieldReduce.Prototype
