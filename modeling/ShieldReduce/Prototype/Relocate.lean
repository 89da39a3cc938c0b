import ShieldReduce.Prototype.Indexed

/-!
# Moving records between containers

Compaction and merging lay the live records of a container out anew, in its own place or behind
the records of another one, and the index follows them.
-/

namespace ShieldReduce.Prototype
open Lib Store EDelta

/-- The record at another place. -/
def moved (name : ContainerName) (off : Nat) (r : ChunkRecord) : ChunkRecord :=
  { r with entry := { r.entry with containerName := name, offset := UInt32.ofNat off } }

/-- The records one after the other from `off` on. -/
def repack (name : ContainerName) : Nat → List ChunkRecord → List ChunkRecord
  | _, [] => []
  | off, r :: rs => moved name off r :: repack name (off + r.size) rs

/-- The record at another offset of its container. -/
def shifted (off : Nat) (r : ChunkRecord) : ChunkRecord :=
  { r with entry := { r.entry with offset := UInt32.ofNat off } }

/-- The records one after the other from `off` on, each with the container name it had. -/
def shift : Nat → List ChunkRecord → List ChunkRecord
  | _, [] => []
  | off, r :: rs => shifted off r :: shift (off + r.size) rs

/-- `UpdateIndexStore` of every record's embedded entry. -/
def indexRecords (indexObj : Table Fp RecipeEntry) (rs : List ChunkRecord) : Table Fp RecipeEntry :=
  rs.foldl (fun indexObj r => indexObj.insert r.fp r.entry) indexObj

section Repack
variable {name : ContainerName}

@[simp] theorem moved_size (name : ContainerName) (off : Nat) (r : ChunkRecord) :
    (moved name off r).size = r.size := rfl

@[simp] theorem shifted_size (off : Nat) (r : ChunkRecord) : (shifted off r).size = r.size := rfl

theorem shift_eq_repack {off : Nat} {rs : List ChunkRecord}
    (h : ∀ r ∈ rs, r.entry.containerName = name) : shift off rs = repack name off rs := by
  induction rs generalizing off with
  | nil => rfl
  | cons r rs ih =>
    have hr : shifted off r = moved name off r := by
      rw [← h r List.mem_cons_self]
      rfl
    unfold shift repack
    rw [hr, ih fun r' hr' => h r' (List.mem_cons_of_mem r hr')]

theorem layout_repack_length (off : Nat) (rs : List ChunkRecord) :
    (layout (repack name off rs)).length = (layout rs).length := by
  induction rs generalizing off with
  | nil => rfl
  | cons r rs ih =>
    unfold repack
    rw [layout_cons, layout_cons, List.length_append, List.length_append, ih,
      ChunkRecord.toBytes_length, ChunkRecord.toBytes_length, moved_size]

theorem mem_repack {off : Nat} {rs : List ChunkRecord} {r' : ChunkRecord}
    (h : r' ∈ repack name off rs) :
    ∃ r ∈ rs, ∃ off', off ≤ off' ∧ r' = moved name off' r := by
  induction rs generalizing off with
  | nil => simp [repack] at h
  | cons r rs ih =>
    unfold repack at h
    rcases List.mem_cons.mp h with rfl | h
    · exact ⟨r, by simp, off, Nat.le_refl off, rfl⟩
    · obtain ⟨r₁, hr₁, off', hoff, heq⟩ := ih h
      exact ⟨r₁, List.mem_cons_of_mem r hr₁, off', by omega, heq⟩

theorem repack_of_mem {off : Nat} {rs : List ChunkRecord} {r : ChunkRecord} (h : r ∈ rs) :
    ∃ off', off ≤ off' ∧ moved name off' r ∈ repack name off rs := by
  induction rs generalizing off with
  | nil => simp at h
  | cons r₁ rs ih =>
    unfold repack
    rcases List.mem_cons.mp h with rfl | h
    · exact ⟨off, Nat.le_refl off, by simp⟩
    · obtain ⟨off', hoff, hmem⟩ := @ih (off + r₁.size) h
      exact ⟨off', by omega, List.mem_cons_of_mem _ hmem⟩

theorem repack_fps (off : Nat) (rs : List ChunkRecord) :
    (repack name off rs).map ChunkRecord.fp = rs.map ChunkRecord.fp := by
  induction rs generalizing off with
  | nil => rfl
  | cons r rs ih =>
    unfold repack
    rw [List.map_cons, List.map_cons, ih]
    rfl

theorem packedFrom_repack {off : Nat} {rs : List ChunkRecord}
    (hlen : ∀ r ∈ rs, r.entry.length.toNat = r.content.length)
    (hfits : off + (layout rs).length < 2 ^ 32) : PackedFrom name off (repack name off rs) := by
  induction rs generalizing off with
  | nil => trivial
  | cons r rs ih =>
    rw [layout_cons, List.length_append, ChunkRecord.toBytes_length] at hfits
    refine ⟨rfl, ?_, hlen r (by simp), ?_⟩
    · change (UInt32.ofNat off).toNat = off
      rw [UInt32.toNat_ofNat', Nat.mod_eq_of_lt (by omega)]
    · rw [moved_size]
      exact ih (fun r' hr' => hlen r' (List.mem_cons_of_mem r hr')) (by omega)

theorem recordOk_repack {env : EnclaveEnv} {d : Bool} {off : Nat} {rs : List ChunkRecord}
    (h : ∀ r ∈ rs, RecordOk env d r) : ∀ r ∈ repack name off rs, RecordOk env d r := by
  intro r' hr'
  obtain ⟨r, hr, off', _, rfl⟩ := mem_repack hr'
  exact ⟨(h r hr).kind, (h r hr).content, (h r hr).decode⟩

theorem lookup_indexRecords {rs : List ChunkRecord} (hnodup : (rs.map ChunkRecord.fp).Nodup)
    (indexObj : Table Fp RecipeEntry) (fp : Fp) (e : RecipeEntry) :
    (indexRecords indexObj rs).lookup fp = some e ↔
      (∃ r ∈ rs, r.fp = fp ∧ r.entry = e) ∨
        (fp ∉ rs.map ChunkRecord.fp ∧ indexObj.lookup fp = some e) := by
  induction rs generalizing indexObj with
  | nil => simp [indexRecords]
  | cons r rs ih =>
    rw [List.map_cons, List.nodup_cons] at hnodup
    have hstep := ih hnodup.2 (indexObj.insert r.fp r.entry)
    change (indexRecords (indexObj.insert r.fp r.entry) rs).lookup fp = some e ↔ _
    rw [hstep, Table.lookup_insert_ite]
    by_cases hfp : fp = r.fp
    · subst hfp
      constructor
      · rintro (⟨r', hr', h'⟩ | ⟨_, h'⟩)
        · exact Or.inl ⟨r', List.mem_cons_of_mem r hr', h'⟩
        · rw [if_pos rfl, Option.some.injEq] at h'
          exact Or.inl ⟨r, by simp, rfl, h'⟩
      · rintro (⟨r', hr', hfp', he'⟩ | ⟨hnot, _⟩)
        · rcases List.mem_cons.mp hr' with rfl | hr'
          · exact Or.inr ⟨hnodup.1, by rw [if_pos rfl, he']⟩
          · exact Or.inl ⟨r', hr', hfp', he'⟩
        · simp at hnot
    · rw [if_neg hfp]
      constructor
      · rintro (⟨r', hr', h'⟩ | ⟨hnot, h'⟩)
        · exact Or.inl ⟨r', List.mem_cons_of_mem r hr', h'⟩
        · refine Or.inr ⟨?_, h'⟩
          rw [List.map_cons, List.mem_cons]
          rintro (h1 | h1)
          · exact hfp h1
          · exact hnot h1
      · rintro (⟨r', hr', hfp', he'⟩ | ⟨hnot, h'⟩)
        · rcases List.mem_cons.mp hr' with rfl | hr'
          · exact absurd hfp'.symm hfp
          · exact Or.inl ⟨r', hr', hfp', he'⟩
        · rw [List.map_cons, List.mem_cons] at hnot
          exact Or.inr ⟨fun h1 => hnot (Or.inr h1), h'⟩

end Repack

section Indexed
variable {env : EnclaveEnv} {E : Fp → RecipeEntry → Prop}
  {cold : Table ContainerName (List (UInt32 × UInt32))} {times : Nat} {R : Records}

/-- The live records `kept` of `p` move behind the records `base` of `q`, or `p` is packed anew. -/
structure Relocation (E : Fp → RecipeEntry → Prop)
    (cold : Table ContainerName (List (UInt32 × UInt32))) (R : Records) (p q : Path)
    (kept base : List ChunkRecord) : Prop where
  dir : q.1 = p.1
  source : ∃ rs, R p = some rs ∧ kept.Sublist rs ∧ ∀ r ∈ rs, r ∈ kept ↔ E r.fp r.entry
  target : (q = p ∧ base = []) ∨ (q ≠ p ∧ R q = some base ∧ Table.vec cold q.2 = [])

def Relocation.records (R : Records) (p q : Path) (kept base : List ChunkRecord) : Records :=
  Function.update (Function.update R p none) q
    (some (base ++ repack q.2 (layout base).length kept))

variable {p q : Path} {kept base : List ChunkRecord}

theorem Relocation.kept_live (hr : Relocation E cold R p q kept base) {r : ChunkRecord}
    (h : r ∈ kept) : E r.fp r.entry := by
  obtain ⟨rs, _, hsub, hlive⟩ := hr.source
  exact (hlive r (hsub.subset h)).mp h

theorem Relocation.kept_path (hr : Relocation E cold R p q kept base)
    (hok : RecordsOk env times R) {r : ChunkRecord} (h : r ∈ kept) : pathOf r.entry = p := by
  obtain ⟨rs, hp, hsub, _⟩ := hr.source
  exact hok.path hp (hsub.subset h)

theorem Relocation.fps_nodup (hr : Relocation E cold R p q kept base) (h : Indexed E cold times R)
    (hok : RecordsOk env times R) : (kept.map ChunkRecord.fp).Nodup := by
  obtain ⟨rs, hp, hsub, hlive⟩ := hr.source
  have hpacked := (hok.packed hp).packed
  refine (hsub.nodup (packedFrom_nodup hpacked)).map_on ?_
  intro r hmem r' hmem' hfp
  have he := hr.kept_live hmem
  have he' := hr.kept_live hmem'
  rw [← hfp] at he'
  have hentry := h.unique he he'
  exact packedFrom_offset_inj hpacked (hsub.subset hmem) (hsub.subset hmem')
    (congrArg RecipeEntry.offset hentry)

/-- An entry that leads to `p` is the entry of a record that moves. -/
theorem Relocation.of_path (hr : Relocation E cold R p q kept base) (h : Indexed E cold times R)
    {fp : Fp} {e : RecipeEntry} (he : E fp e) (hpath : pathOf e = p) :
    ∃ r ∈ kept, r.fp = fp ∧ r.entry = e := by
  obtain ⟨rs, hp, _, hlive⟩ := hr.source
  rw [← hpath] at hp
  obtain ⟨r, hmem, hfp, hentry⟩ := h.entry he hp
  refine ⟨r, (hlive r hmem).mpr ?_, hfp, hentry⟩
  rw [hfp, hentry]
  exact he

/-- The index after `UpdateIndexStore` of the records that moved. -/
theorem Relocation.lookup (hr : Relocation E cold R p q kept base) (h : Indexed E cold times R)
    (hok : RecordsOk env times R) {indexObj : Table Fp RecipeEntry}
    (hE : ∀ fp e, E fp e ↔ indexObj.lookup fp = some e) (off : Nat) (fp : Fp) (e : RecipeEntry) :
    (indexRecords indexObj (repack q.2 off kept)).lookup fp = some e ↔
      (∃ r ∈ repack q.2 off kept, r.fp = fp ∧ r.entry = e) ∨ (E fp e ∧ pathOf e ≠ p) := by
  have hnodup : ((repack q.2 off kept).map ChunkRecord.fp).Nodup := by
    rw [repack_fps]
    exact hr.fps_nodup h hok
  rw [lookup_indexRecords hnodup, repack_fps, ← hE]
  constructor
  · rintro (hmem | ⟨hnot, he⟩)
    · exact Or.inl hmem
    · refine Or.inr ⟨he, fun hpath => hnot ?_⟩
      obtain ⟨r, hmem, hfp, _⟩ := hr.of_path h he hpath
      exact List.mem_map.mpr ⟨r, hmem, hfp⟩
  · rintro (hmem | ⟨he, hpath⟩)
    · exact Or.inl hmem
    · refine Or.inr ⟨fun hmem => hpath ?_, he⟩
      obtain ⟨r, hmem, hfp⟩ := List.mem_map.mp hmem
      have hlive := hr.kept_live hmem
      rw [hfp] at hlive
      rw [h.unique he hlive]
      exact hr.kept_path hok hmem

theorem Relocation.recordsOk (hr : Relocation E cold R p q kept base) (hok : RecordsOk env times R)
    (hfits : (layout base).length + (layout kept).length < MAX_CONTAINER_SIZE) :
    RecordsOk env times (Relocation.records R p q kept base) := by
  obtain ⟨rs, hp, hsub, _⟩ := hr.source
  have hmem : ∀ r ∈ kept, r ∈ rs := fun r h => hsub.subset h
  have hpacked := hok.packed hp
  have hmoved : ∀ r ∈ repack q.2 (layout base).length kept, RecordOk env q.1 r := by
    rw [hr.dir]
    exact recordOk_repack (fun r h => hpacked.ok r (hmem r h))
  have hfrom : PackedFrom q.2 (layout base).length (repack q.2 (layout base).length kept) := by
    apply packedFrom_repack
    · exact fun r h => (packedFrom_mem hpacked.packed (hmem r h)).2.2.2
    · have hmax : MAX_CONTAINER_SIZE < 2 ^ 32 := by decide
      omega
  have hlen : (layout (base ++ repack q.2 (layout base).length kept)).length <
      MAX_CONTAINER_SIZE := by
    rw [layout_append, List.length_append, layout_repack_length]
    exact hfits
  rcases hr.target with ⟨rfl, rfl⟩ | ⟨hne, hq, _⟩
  · have hnew : PackedAt env q ([] ++ repack q.2 (layout []).length kept) :=
      ⟨hfrom, hlen, hmoved⟩
    have hupdate := hok.update hp hnew
    unfold Relocation.records
    rw [Function.update_idem]
    exact hupdate
  · have hbase := hok.packed hq
    have hnew : PackedAt env q (base ++ repack q.2 (layout base).length kept) := by
      refine ⟨packedFrom_append.mpr ⟨hbase.packed, by rw [Nat.zero_add]; exact hfrom⟩, hlen, ?_⟩
      intro r hmem
      rcases List.mem_append.mp hmem with hmem | hmem
      · exact hbase.ok r hmem
      · exact hmoved r hmem
    exact (hok.remove p).update (by rw [Function.update_of_ne hne, hq]) hnew

/-- Moving the live records of a container keeps the index in step. -/
theorem Indexed.relocate (h : Indexed E cold times R) (hok : RecordsOk env times R)
    (hr : Relocation E cold R p q kept base) {E' : Fp → RecipeEntry → Prop}
    (hE' : ∀ fp e, E' fp e ↔ (∃ r ∈ repack q.2 (layout base).length kept, r.fp = fp ∧ r.entry = e) ∨
      (E fp e ∧ pathOf e ≠ p)) :
    Indexed E' (cold.erase p.2) times (Relocation.records R p q kept base) := by
  obtain ⟨rs, hp, hsub, hlive⟩ := hr.source
  have hmoved : ∀ r' ∈ repack q.2 (layout base).length kept,
      pathOf r'.entry = q ∧ ∃ r ∈ kept, r'.fp = r.fp ∧ r'.entry.deltaFlag = r.entry.deltaFlag ∧
        r'.entry.length = r.entry.length := by
    intro r' hr'
    obtain ⟨r, hmem, off', _, rfl⟩ := mem_repack hr'
    have hpath := hr.kept_path hok hmem
    refine ⟨Prod.ext ?_ rfl, r, hmem, rfl, rfl, rfl⟩
    rw [hr.dir, ← hpath]
    rfl
  have hother : ∀ {fp e e'}, E fp e → pathOf e ≠ p →
      ¬∃ r ∈ repack q.2 (layout base).length kept, r.fp = fp ∧ r.entry = e' := by
    rintro fp e e' he hpath ⟨r', hr', hfp, _⟩
    obtain ⟨_, r, hmem, hfp', _⟩ := hmoved r' hr'
    have hlive := hr.kept_live hmem
    rw [← hfp', hfp] at hlive
    rw [h.unique he hlive] at hpath
    exact hpath (hr.kept_path hok hmem)
  have hname : ∀ {d name rs'}, R (d, name) = some rs' → (d, name) ≠ p → name ≠ p.2 := by
    rintro d name rs' hrs' hne rfl
    exact hne (hok.dir_unique hrs' hp)
  have hq : ∀ {p'}, p' ≠ q → p' ≠ p → Relocation.records R p q kept base p' = R p' := by
    intro p' hpq hpp
    unfold Relocation.records
    rw [Function.update_of_ne hpq, Function.update_of_ne hpp]
  have hself : Relocation.records R p q kept base q =
      some (base ++ repack q.2 (layout base).length kept) := by
    unfold Relocation.records
    rw [Function.update_self]
  have hgone : p ≠ q → Relocation.records R p q kept base p = none := by
    intro hne
    unfold Relocation.records
    rw [Function.update_of_ne hne, Function.update_self]
  refine ⟨?_, ?_, ?_, ?_, ?_, ?_, ?_, ?_⟩
  · intro fp e e' he he'
    rcases (hE' fp e).mp he with ⟨r, hr₁, hfp, hentry⟩ | ⟨he, hpath⟩
    · rcases (hE' fp e').mp he' with ⟨r', hr₂, hfp', hentry'⟩ | ⟨he', hpath'⟩
      · have hnodup : ((repack q.2 (layout base).length kept).map ChunkRecord.fp).Nodup := by
          rw [repack_fps]
          exact hr.fps_nodup h hok
        have heq := List.inj_on_of_nodup_map hnodup hr₁ hr₂ (by rw [hfp, hfp'])
        rw [← hentry, ← hentry', heq]
      · exact absurd ⟨r, hr₁, hfp, hentry⟩ (hother he' hpath')
    · rcases (hE' fp e').mp he' with hmem | ⟨he', _⟩
      · exact absurd hmem (hother he hpath)
      · exact h.unique he he'
  · intro fp e he
    rcases (hE' fp e).mp he with ⟨r', hr', _, rfl⟩ | ⟨he, _⟩
    · obtain ⟨_, r, hmem, _, hflag, _⟩ := hmoved r' hr'
      rw [hflag]
      exact h.flag (hr.kept_live hmem)
    · exact h.flag he
  · intro fp e he
    rcases (hE' fp e).mp he with ⟨r', hr', _, rfl⟩ | ⟨he, _⟩
    · obtain ⟨_, r, hmem, _, _, hlen⟩ := hmoved r' hr'
      rw [hlen]
      exact h.short (hr.kept_live hmem)
    · exact h.short he
  · intro fp e he
    rcases (hE' fp e).mp he with ⟨r', hr', _, rfl⟩ | ⟨he, _⟩
    · have hname : r'.entry.containerName = q.2 := congrArg Prod.snd (hmoved r' hr').1
      rw [hname]
      rcases hr.target with ⟨rfl, _⟩ | ⟨_, hqrs, _⟩
      · exact hok.drawn hp
      · exact hok.drawn hqrs
    · exact h.drawn he
  · intro fp e rs' he hrs'
    rcases (hE' fp e).mp he with ⟨r', hr', hfp, rfl⟩ | ⟨he, hpath⟩
    · rw [(hmoved r' hr').1, hself, Option.some.injEq] at hrs'
      rw [← hrs']
      exact ⟨r', List.mem_append_right _ hr', hfp, rfl⟩
    · by_cases hpq : pathOf e = q
      · rw [hpq, hself, Option.some.injEq] at hrs'
        rcases hr.target with ⟨hqp, _⟩ | ⟨_, hqrs, _⟩
        · exact absurd (hpq.trans hqp) hpath
        · rw [← hpq] at hqrs
          obtain ⟨r, hmem, hfp, hentry⟩ := h.entry he hqrs
          rw [← hrs']
          exact ⟨r, List.mem_append_left _ hmem, hfp, hentry⟩
      · rw [hq hpq hpath] at hrs'
        exact h.entry he hrs'
  · intro p' rs' r hrs' hmem hne
    rw [Table.vec_erase]
    by_cases hpq : p' = q
    · subst hpq
      rw [hself, Option.some.injEq] at hrs'
      rw [← hrs'] at hmem
      rcases List.mem_append.mp hmem with hmem | hmem
      · rcases hr.target with ⟨_, rfl⟩ | ⟨hqp, hqrs, hcold⟩
        · simp at hmem
        · exfalso
          have hpath := hok.path hqrs hmem
          by_cases he : E r.fp r.entry
          · exact hne ((hE' _ _).mpr (Or.inr ⟨he, by rw [hpath]; exact hqp⟩))
          · have hlive := h.live hqrs hmem he
            rw [hcold] at hlive
            simp at hlive
      · exact absurd ((hE' _ _).mpr (Or.inl ⟨r, hmem, rfl, rfl⟩)) hne
    · by_cases hpp : p' = p
      · subst hpp
        rw [hgone hpq] at hrs'
        simp at hrs'
      · rw [hq hpq hpp] at hrs'
        have hpath := hok.path hrs' hmem
        rw [if_neg (hname hrs' hpp)]
        apply h.live hrs' hmem
        intro he
        exact hne ((hE' _ _).mpr (Or.inr ⟨he, by rw [hpath]; exact hpp⟩))
  · intro name ext hext
    rw [Table.vec_erase] at hext
    by_cases hn : name = p.2
    · rw [if_pos hn] at hext
      simp at hext
    · rw [if_neg hn] at hext
      obtain ⟨d, rs', r, hrs', hmem, hexteq, hne⟩ := h.dead hext
      have hnq : name ≠ q.2 := by
        rintro rfl
        rcases hr.target with ⟨rfl, _⟩ | ⟨_, _, hcold⟩
        · exact hn rfl
        · rw [hcold] at hext
          simp at hext
      have hpp : (d, name) ≠ p := fun heq => hn (congrArg Prod.snd heq)
      have hpq : (d, name) ≠ q := fun heq => hnq (congrArg Prod.snd heq)
      refine ⟨d, rs', r, by rw [hq hpq hpp]; exact hrs', hmem, hexteq, ?_⟩
      intro he
      rcases (hE' _ _).mp he with ⟨r', hr', _, hentry⟩ | ⟨he, _⟩
      · have hpath := (hmoved r' hr').1
        rw [hentry, hok.path hrs' hmem] at hpath
        exact hpq hpath
      · exact hne he
  · intro name
    rw [Table.vec_erase]
    by_cases hn : name = p.2
    · rw [if_pos hn]
      exact List.nodup_nil
    · rw [if_neg hn]
      exact h.dead_nodup name

end Indexed

end ShieldReduce.Prototype
