import ShieldReduce.Prototype.CachedImages
import ShieldReduce.Prototype.Emission
import ShieldReduce.Prototype.Writers

/-!
# What the records stand for

Every fingerprint of the index has a plaintext: the one its record decodes to, a delta against the
plaintext of its base. Where the containers are in their files, this is what a restore sends.
-/

namespace ShieldReduce.Prototype
open Lib Store EDelta

section Model
variable (env : EnclaveEnv) (s : Server)

/-- What `Ocall_GetReqContainers` loads for a container. -/
def requested (name : ContainerName) : Bytes := (reqContainer s.files name).getD []

/-- The chunk that a restore sends for an entry of its recipe, by the key of the index. -/
def chunkAt (fp : Fp) : Option Bytes :=
  (s.indexObj.lookup fp).bind (chunkOf env s.indexObj (requested s))

/-- The containers that the index leads to have a file. -/
def FilesThere : Prop := ∀ fp e, s.indexObj.lookup fp = some e → s.files.lookup (pathOf e) ≠ none

/-- For a stored base the test of `Easy_update` agrees with that of a restore. -/
def BasesRecovered : Prop :=
  ∀ fp e, s.indexObj.lookup fp = some e → e.deltaFlag = NO_DELTA →
    offlineExpand env (getChunkIV (requested s e.containerName) e)
      (getChunkContent (requested s e.containerName) e) = expandEntry env (requested s) e

instance : Decidable (FilesThere s) :=
  decidable_of_iff (∀ p ∈ Table.pairs s.indexObj, s.files.lookup (pathOf p.2) ≠ none)
    ⟨fun h fp e he => h (fp, e) (Table.mem_pairs.mpr he), fun h p hp => h p.1 p.2 (Table.mem_pairs.mp hp)⟩

instance : Decidable (BasesRecovered env s) :=
  decidable_of_iff (∀ p ∈ Table.pairs s.indexObj, p.2.deltaFlag = NO_DELTA →
      offlineExpand env (getChunkIV (requested s p.2.containerName) p.2)
        (getChunkContent (requested s p.2.containerName) p.2) = expandEntry env (requested s) p.2)
    ⟨fun h fp e he => h (fp, e) (Table.mem_pairs.mpr he), fun h p hp => h p.1 p.2 (Table.mem_pairs.mp hp)⟩

/-- The entries that `E` knows have records that decode to `val`. -/
def Contents (val : Fp → Bytes) (E : Fp → RecipeEntry → Prop) (R : Records) : Prop :=
  ∀ fp e, E fp e → ∃ r, Recorded R r ∧ r.entry = e ∧ DecodesTo env val fp r

end Model

section Contents
variable {env : EnclaveEnv} {s s' : Server} {R R' : Records} {Lost : Fp → Prop} {val : Fp → Bytes}
  {E E' : Fp → RecipeEntry → Prop}

theorem contents_index {idx : FpIndex} :
    Contents env val (Entry idx []) R ↔ Represents env val idx R := by
  unfold Contents Represents
  simp only [entry_lookup]

theorem Contents.grows (h : Contents env val E R) (hgrows : Grows R R') : Contents env val E R' := by
  intro fp e he
  obtain ⟨r, hr, hentry, hdec⟩ := h fp e he
  exact ⟨r, hgrows.recorded hr, hentry, hdec⟩

theorem Contents.congr (h : Contents env val E R) (hE : ∀ fp e, E' fp e → E fp e) :
    Contents env val E' R :=
  fun fp e he => h fp e (hE fp e he)

/-- One more entry, with its record. -/
theorem Contents.add (h : Contents env val E R) {fp : Fp} {r : ChunkRecord} (hr : Recorded R r)
    (hdec : DecodesTo env val fp r)
    (hE : ∀ fp' e, E' fp' e → E fp' e ∨ (fp' = fp ∧ e = r.entry)) : Contents env val E' R := by
  intro fp' e he
  rcases hE fp' e he with he | ⟨rfl, rfl⟩
  · exact h fp' e he
  · exact ⟨r, hr, rfl, hdec⟩

/-- Containers without records may disappear. -/
theorem Contents.keep (h : Contents env val E R)
    (hkeep : ∀ p rs, R p = some rs → rs ≠ [] → R' p = some rs) : Contents env val E R' := by
  intro fp e he
  obtain ⟨r, ⟨rs, hrs, hmem⟩, hentry, hdec⟩ := h fp e he
  exact ⟨r, ⟨rs, hkeep _ rs hrs (List.ne_nil_of_mem hmem), hmem⟩, hentry, hdec⟩

/-- A record that moves decodes to what it did. -/
theorem DecodesTo.moved {fp : Fp} {r : ChunkRecord} (h : DecodesTo env val fp r)
    (name : ContainerName) (off : Nat) : DecodesTo env val fp (moved name off r) :=
  ⟨h.whole, h.delta⟩

/-- Compaction and merging move the live records, and the entries with them. -/
theorem Relocation.contents {indexObj : FpIndex}
    {cold : Table ContainerName (List (UInt32 × UInt32))} {times : Nat} {p q : Path}
    {kept base : List ChunkRecord} (hr : Relocation (Entry indexObj []) cold R p q kept base)
    (h : Indexed (Entry indexObj []) cold times R) (hok : RecordsOk env times R)
    (hval : Contents env val (Entry indexObj []) R) :
    Contents env val (Entry (indexRecords indexObj (repack q.2 (layout base).length kept)) [])
      (Relocation.records R p q kept base) := by
  have hself : Relocation.records R p q kept base q =
      some (base ++ repack q.2 (layout base).length kept) := by
    unfold Relocation.records
    rw [Function.update_self]
  intro fp e he
  rcases (hr.lookup h hok (entry_lookup indexObj) _ fp e).mp ((entry_lookup _ fp e).mp he) with
    ⟨r', hr', hfp, hentry⟩ | ⟨he, hpath⟩
  · obtain ⟨r, hmem, off', _, rfl⟩ := mem_repack hr'
    have hlive := hr.kept_live hmem
    obtain ⟨r₀, hrec, heq, hdec⟩ := hval _ _ hlive
    obtain ⟨rs, hp, hsub, _⟩ := hr.source
    have hrec' : Recorded R r := ⟨rs, by rw [hr.kept_path hok hmem]; exact hp, hsub.subset hmem⟩
    have hsame := hrec.unique hrec' hok heq
    rw [hsame] at hdec
    have hpath : pathOf (moved q.2 off' r).entry = q := by
      refine Prod.ext ?_ rfl
      rw [hr.dir, ← hr.kept_path hok hmem]
      rfl
    rw [← hfp]
    refine ⟨_, ⟨_, by rw [hpath]; exact hself, List.mem_append_right base hr'⟩, hentry, ?_⟩
    exact hdec.moved _ _
  · obtain ⟨r, ⟨rs, hrs, hmem⟩, hentry, hdec⟩ := hval fp e he
    refine ⟨r, ?_, hentry, hdec⟩
    rw [hentry] at hrs
    by_cases hq : pathOf e = q
    · rcases hr.target with ⟨rfl, _⟩ | ⟨hne, hbase, _⟩
      · exact absurd hq hpath
      · rw [hq, hbase, Option.some.injEq] at hrs
        refine ⟨_, by rw [hentry, hq]; exact hself, List.mem_append_left _ ?_⟩
        rw [hrs]
        exact hmem
    · refine ⟨rs, ?_, hmem⟩
      rw [hentry]
      unfold Relocation.records
      rw [Function.update_of_ne hq, Function.update_of_ne hpath]
      exact hrs

end Contents

section Restored
variable {env : EnclaveEnv} {s s' : Server} {R R' : Records} {Lost : Fp → Prop} {val : Fp → Bytes}

/-- Outside sessions and passes a container with records is in its file, and a restore finds it. -/
theorem Inv.requested (h : Inv env s R Lost) (hphase : s.phase = .idle) {e : RecipeEntry}
    {rs : List ChunkRecord} (hrs : R (pathOf e) = some rs) :
    s.files.lookup (pathOf e) = some (layout rs) ∧ requested s e.containerName = layout rs := by
  obtain ⟨_, hstores, hstage⟩ := h.at hphase
  cases hstage with
  | idle wait queue writer =>
    have hplace := hstores.holds.place (pathOf e)
    rw [queue, writer, hrs] at hplace
    have hfile : s.files.lookup (pathOf e) = some (layout rs) := by
      obtain ⟨f, hf⟩ : ∃ f, f = s.files.lookup (pathOf e) := ⟨_, rfl⟩
      rw [← hf] at hplace ⊢
      cases hplace with
      | written => rfl
    refine ⟨hfile, ?_⟩
    unfold Prototype.requested reqContainer
    by_cases hd : e.deltaFlag = DELTA
    · have hpath : pathOf e = (true, e.containerName) := by
        unfold pathOf
        rw [decide_eq_true hd]
      rw [hpath] at hfile
      have hnone : s.files.lookup (false, e.containerName) = none := by
        by_contra hne
        exact h.one_directory e.containerName ⟨Or.inl hne, Or.inl (by rw [hfile]; simp)⟩
      rw [hnone, hfile]
      rfl
    · have hpath : pathOf e = (false, e.containerName) := by
        unfold pathOf
        rw [decide_eq_false hd]
      rw [hpath] at hfile
      rw [hfile]
      rfl

/-- What a restore reads of a recorded chunk. -/
theorem Inv.read_record (h : Inv env s R Lost) (hphase : s.phase = .idle) {r : ChunkRecord}
    (hr : Recorded R r) :
    getChunkIV (Prototype.requested s r.entry.containerName) r.entry = r.iv ∧
      getChunkContent (Prototype.requested s r.entry.containerName) r.entry = r.content := by
  obtain ⟨rs, hrs, hmem⟩ := hr
  have hpacked := h.stores.holds.ok.packed hrs
  have hstands := Packed.standsIn ⟨rfl, hpacked.packed, Nat.le_of_lt hpacked.fits⟩ hmem
  rw [(h.requested hphase hrs).2]
  exact ⟨hstands.iv_eq, hstands.content_eq⟩

/-- An entry whose container has a file has its record. -/
theorem Inv.recorded (h : Inv env s R Lost) (hphase : s.phase = .idle) {fp : Fp} {e : RecipeEntry}
    (he : s.indexObj.lookup fp = some e) (hfile : s.files.lookup (pathOf e) ≠ none) :
    ∃ r, Recorded R r ∧ r.entry = e := by
  obtain ⟨rs, hrs⟩ := Option.ne_none_iff_exists'.mp (h.denotes (Or.inl hfile))
  obtain ⟨_, hstores, _⟩ := h.at hphase
  obtain ⟨r, hmem, _, hentry⟩ := hstores.indexed.entry (Or.inl he) hrs
  exact ⟨r, ⟨rs, by rw [hentry]; exact hrs, hmem⟩, hentry⟩

/-- A restore sends the plaintext of a chunk. -/
theorem Contents.chunkAt (h : Inv env s R Lost) (hphase : s.phase = .idle)
    (hval : Contents env val (Entry s.indexObj []) R) {fp : Fp} {e : RecipeEntry}
    (he : s.indexObj.lookup fp = some e) : chunkAt env s fp = some (val fp) := by
  obtain ⟨hgraph, _, _⟩ := h.at hphase
  obtain ⟨r, hr, rfl, hdec⟩ := hval fp e (Or.inl he)
  obtain ⟨hiv, hcontent⟩ := h.read_record hphase hr
  unfold Prototype.chunkAt chunkOf
  rw [he, Option.bind_some]
  by_cases hflag : r.entry.deltaFlag = DELTA
  · obtain ⟨eb, heb, hwhole⟩ := hgraph.base_whole he hflag
    obtain ⟨rb, hrb, rfl, hdecb⟩ := hval _ eb (Or.inl heb)
    obtain ⟨hivb, hcontentb⟩ := h.read_record hphase hrb
    have hbase : expandEntry env (Prototype.requested s) rb.entry = val r.entry.basechunkHash := by
      unfold expandEntry
      rw [hivb, hcontentb]
      exact (hdecb.whole hwhole).1
    rw [if_pos hflag, heb, Option.map_some, hiv, hcontent, hbase, hdec.delta hflag]
  · have hwhole := (hgraph.flag (Or.inl he)).resolve_right hflag
    rw [if_neg hflag]
    unfold expandEntry
    rw [hiv, hcontent, (hdec.whole hwhole).1]

/-- Where the files are there, the records decode to what a restore sends. -/
theorem FilesThere.contents (hthere : FilesThere s) (hbases : BasesRecovered env s)
    (h : Inv env s R Lost) (hphase : s.phase = .idle) :
    Contents env (fun fp => (chunkAt env s fp).getD []) (Entry s.indexObj []) R := by
  obtain ⟨hgraph, _, _⟩ := h.at hphase
  have hexpand : ∀ {fp : Fp} {r : ChunkRecord}, Recorded R r →
      s.indexObj.lookup fp = some r.entry → r.entry.deltaFlag = NO_DELTA →
      RecoverOneChunk env r.iv r.content = (Prototype.chunkAt env s fp).getD [] ∧
        offlineExpand env r.iv r.content = (Prototype.chunkAt env s fp).getD [] := by
    intro fp r hr he hflag
    have hne : ¬r.entry.deltaFlag = DELTA := by
      rw [hflag]
      decide
    have hagree := hbases fp r.entry he hflag
    obtain ⟨hiv, hcontent⟩ := h.read_record hphase hr
    unfold expandEntry at hagree
    rw [hiv, hcontent] at hagree
    unfold Prototype.chunkAt chunkOf expandEntry
    rw [he, Option.bind_some, if_neg hne, Option.getD_some, hiv, hcontent]
    exact ⟨rfl, hagree⟩
  intro fp e he
  have hlook := (entry_lookup _ fp e).mp he
  obtain ⟨r, hr, rfl⟩ := h.recorded hphase hlook (hthere fp e hlook)
  refine ⟨r, hr, rfl, hexpand hr hlook, fun hflag => ?_⟩
  obtain ⟨eb, heb, hwhole⟩ := hgraph.base_whole hlook hflag
  obtain ⟨rb, hrb, rfl⟩ := h.recorded hphase heb (hthere _ eb heb)
  obtain ⟨hiv, hcontent⟩ := h.read_record hphase hr
  obtain ⟨hivb, hcontentb⟩ := h.read_record hphase hrb
  rw [← (hexpand hrb heb hwhole).1]
  unfold Prototype.chunkAt chunkOf expandEntry
  rw [hlook, Option.bind_some, if_pos hflag, heb, Option.map_some, Option.getD_some, hiv, hcontent,
    hivb, hcontentb]

/-- Records that decode are in files, and both tests expand the bases. -/
theorem Contents.filesThere (h : Inv env s R Lost) (hphase : s.phase = .idle)
    (hval : Contents env val (Entry s.indexObj []) R) : FilesThere s ∧ BasesRecovered env s := by
  refine ⟨fun fp e he => ?_, fun fp e he hflag => ?_⟩
  · obtain ⟨r, ⟨rs, hrs, _⟩, rfl, _⟩ := hval fp e (Or.inl he)
    rw [(h.requested hphase hrs).1]
    exact Option.some_ne_none _
  · obtain ⟨r, hr, rfl, hdec⟩ := hval fp e (Or.inl he)
    obtain ⟨hiv, hcontent⟩ := h.read_record hphase hr
    obtain ⟨hwhole, hoffline⟩ := hdec.whole hflag
    unfold expandEntry
    rw [hiv, hcontent, hwhole, hoffline]

end Restored

end ShieldReduce.Prototype
