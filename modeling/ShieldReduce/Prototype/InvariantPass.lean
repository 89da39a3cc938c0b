import ShieldReduce.Prototype.Invariant

/-!
# The invariant during an offline pass

The steps of `Easy_update`, of the compaction of cold containers and of `MergeContainer`, and with
them the invariant of every reachable state.
-/

namespace ShieldReduce.Prototype
open Lib Store EDelta

/-- Entries that differ in their place only. -/
structure SameKind (e e' : RecipeEntry) : Prop where
  flag : e'.deltaFlag = e.deltaFlag
  base : e'.basechunkHash = e.basechunkHash
  sf : e'.superfeature = e.superfeature

/-- Records have moved, and their entries with them. -/
structure Reindexed (indexObj indexObj' : FpIndex) : Prop where
  back : ∀ {fp e'}, indexObj'.lookup fp = some e' →
    ∃ e, indexObj.lookup fp = some e ∧ SameKind e e'
  forth : ∀ {fp e}, indexObj.lookup fp = some e →
    ∃ e', indexObj'.lookup fp = some e' ∧ SameKind e e'

section Reindex
variable {env : EnclaveEnv} {indexObj indexObj' : FpIndex} {sfObj : SfIndex}
  {delta_index : Table Fp (List Fp)} {Lost : Fp → Prop}

theorem SameKind.kindOf {e e' : RecipeEntry} (h : SameKind e e') : kindOf e' = kindOf e := by
  unfold Prototype.kindOf
  rw [h.flag, h.base]

theorem Reindexed.kinds (h : Reindexed indexObj indexObj') : kinds indexObj' = kinds indexObj := by
  funext fp
  unfold Prototype.kinds
  cases hold : indexObj.lookup fp with
  | some e =>
    obtain ⟨e', he', hkind⟩ := h.forth hold
    rw [he', Option.map_some, Option.map_some, hkind.kindOf]
  | none =>
    cases hnew : indexObj'.lookup fp with
    | none => rfl
    | some e' =>
      obtain ⟨e, he, _⟩ := h.back hnew
      rw [hold] at he
      simp at he

/-- Moving records does not change which chunk depends on which. -/
theorem Graph.reindex (g : Graph indexObj sfObj delta_index [] [] Lost)
    (h : Reindexed indexObj indexObj') : Graph indexObj' sfObj delta_index [] [] Lost := by
  have hentry : ∀ {fp e}, Entry indexObj' [] fp e → indexObj'.lookup fp = some e := by
    intro fp e he
    simpa [Entry] using he
  refine ⟨?_, ?_, ?_, ?_, g.lost_posted, g.nodup, ?_⟩
  · intro fp e' he'
    obtain ⟨e, he, hkind⟩ := h.back (hentry he')
    rw [hkind.flag]
    exact g.flag (Or.inl he)
  · rw [h.kinds]
    exact g.depth
  · intro i k fp hmem
    obtain ⟨e, he, hflag, hsf⟩ := g.posted hmem
    obtain ⟨e', he', hkind⟩ := h.forth he
    exact ⟨e', he', hkind.flag.trans hflag, by rw [hkind.sf, hsf]⟩
  · intro b hb
    obtain ⟨e, he⟩ := Option.ne_none_iff_exists'.mp (g.lost_stored hb)
    obtain ⟨e', he', _⟩ := h.forth he
    rw [he']
    exact Option.some_ne_none e'
  · intro b hb d
    rw [g.listed hb, ← @kinds_delta indexObj d b (), ← @kinds_delta indexObj' d b (), h.kinds]

section Relocation
variable {cold : Table ContainerName (List (UInt32 × UInt32))} {times : Nat} {R : Records}
  {p q : Path} {kept base : List ChunkRecord}

/-- The entry of a record at another place. -/
def Relocated (e e' : RecipeEntry) : Prop :=
  ∃ off name, e' = { e with
    offset := off
    containerName := name }

/-- An entry after the records of a container have moved. -/
theorem Relocation.back (hr : Relocation (Entry indexObj []) cold R p q kept base)
    (h : Indexed (Entry indexObj []) cold times R) (hok : RecordsOk env times R) (off : Nat) {fp : Fp}
    {e' : RecipeEntry} (he' : (indexRecords indexObj (repack q.2 off kept)).lookup fp = some e') :
    ∃ e, indexObj.lookup fp = some e ∧ Relocated e e' := by
  have hE : ∀ fp e, Entry indexObj [] fp e ↔ indexObj.lookup fp = some e := by
    intro fp e
    simp [Entry]
  rcases (hr.lookup h hok hE off fp e').mp he' with ⟨r', hr', hfp, hentry⟩ | ⟨he, _⟩
  · obtain ⟨r, hmem, off', _, rfl⟩ := mem_repack hr'
    have hlive := (hE _ _).mp (hr.kept_live hmem)
    have hfp' : r.fp = fp := hfp
    rw [hfp'] at hlive
    exact ⟨r.entry, hlive, _, _, hentry.symm⟩
  · exact ⟨e', (hE _ _).mp he, e'.offset, e'.containerName, rfl⟩

theorem Relocation.forth (hr : Relocation (Entry indexObj []) cold R p q kept base)
    (h : Indexed (Entry indexObj []) cold times R) (hok : RecordsOk env times R) (off : Nat) {fp : Fp}
    {e : RecipeEntry} (he : indexObj.lookup fp = some e) :
    ∃ e', (indexRecords indexObj (repack q.2 off kept)).lookup fp = some e' ∧ Relocated e e' := by
  have hE : ∀ fp e, Entry indexObj [] fp e ↔ indexObj.lookup fp = some e := by
    intro fp e
    simp [Entry]
  have hlook := hr.lookup h hok hE off
  by_cases hpath : pathOf e = p
  · obtain ⟨r, hmem, hfp, hentry⟩ := hr.of_path h ((hE fp e).mpr he) hpath
    obtain ⟨off', _, hmoved⟩ := @repack_of_mem q.2 off kept r hmem
    refine ⟨(moved q.2 off' r).entry, (hlook fp _).mpr (Or.inl ⟨_, hmoved, hfp, rfl⟩), ?_⟩
    rw [← hentry]
    exact ⟨_, _, rfl⟩
  · exact ⟨e, (hlook fp e).mpr (Or.inr ⟨(hE fp e).mpr he, hpath⟩), e.offset, e.containerName, rfl⟩

theorem Relocation.reindexed (hr : Relocation (Entry indexObj []) cold R p q kept base)
    (h : Indexed (Entry indexObj []) cold times R) (hok : RecordsOk env times R) (off : Nat) :
    Reindexed indexObj (indexRecords indexObj (repack q.2 off kept)) := by
  refine ⟨?_, ?_⟩
  · intro fp e' he'
    obtain ⟨e, he, _, _, rfl⟩ := hr.back h hok off he'
    exact ⟨e, he, rfl, rfl, rfl⟩
  · intro fp e he
    obtain ⟨e', he', _, _, rfl⟩ := hr.forth h hok off he
    exact ⟨_, he', rfl, rfl, rfl⟩

/-- What an entry holds beside its place stays. -/
theorem Relocation.lookup_map {β : Type} (hr : Relocation (Entry indexObj []) cold R p q kept base)
    (h : Indexed (Entry indexObj []) cold times R) (hok : RecordsOk env times R) (off : Nat)
    {g : RecipeEntry → β} (hg : ∀ {e e'}, Relocated e e' → g e' = g e) (fp : Fp) :
    ((indexRecords indexObj (repack q.2 off kept)).lookup fp).map g =
      (indexObj.lookup fp).map g := by
  cases hold : indexObj.lookup fp with
  | some e =>
    obtain ⟨e', he', hmoved⟩ := hr.forth h hok off hold
    rw [he', Option.map_some, Option.map_some, hg hmoved]
  | none =>
    cases hnew : (indexRecords indexObj (repack q.2 off kept)).lookup fp with
    | none => rfl
    | some e' =>
      obtain ⟨e, he, _⟩ := hr.back h hok off hnew
      rw [hold] at he
      simp at he

end Relocation

end Reindex

section Pass
variable {env : EnclaveEnv} {s : Server} {R : Records} {Lost : Fp → Prop}

/-- A pass opens an empty hot container. -/
theorem processOff_opens (h : Inv env s R Lost) (hphase : s.phase = .idle) {order : List (Fp × Fp)}
    (horder : greedyOrder s order) (htimes : s.con_times + 1 < 2 ^ 31) :
    ∃ R', Inv env (startOffline order s) R' Lost ∧ Grows R R' := by
  obtain ⟨hgraph, hstores, hstage⟩ := h.at hphase
  cases hstage with
  | idle wait queue writer =>
    have hremaining := Remaining.start hgraph wait.pending horder
    unfold startOffline
    dsimp only
    by_cases hoffline : s.Offline_Flag = true
    · have hopens : hotOpens (Init (Ocall_Localrevise order s)) =
          Function.update (fun _ => none) (true, CreateUUID s.con_times) (some []) := by
        funext p
        by_cases hp : p = (true, CreateUUID s.con_times)
        · rw [hp, Function.update_self]
          exact if_pos rfl
        · rw [Function.update_of_ne hp]
          exact if_neg hp
      rw [if_pos (show (Init (Ocall_Localrevise order s)).Offline_Flag = true from hoffline)]
      have hholds := hstores.holds.openNew (by omega) true
      have hindexed := hstores.indexed.draw hstores.holds.ok (by omega) true
      have hmap : (Ocall_Localrevise order s).local_map = order := by
        change s.local_map ++ order = order
        rw [wait.local_map, List.nil_append]
      have hopen : Added (fun _ => none) R _ [] :=
        added_open (hstores.holds.ok.fresh (Nat.lt_of_succ_lt htimes) true)
      refine ⟨_, ⟨hgraph, ⟨?_, hindexed⟩, .update ⟨rfl, rfl, queue, writer⟩ ?_⟩, hopen.grows⟩
      · change Holds env s.writer s.inputMQ (hotOpens (Init (Ocall_Localrevise order s))) s.files
          (s.con_times + 1) _
        rw [hopens]
        exact hholds
      · change Remaining s.indexObj Lost ∅ (Ocall_Localrevise order s).local_map
        rw [hmap]
        exact hremaining
    · have hflag : ¬(Init (Ocall_Localrevise order s)).Offline_Flag = true := hoffline
      rw [if_neg hflag]
      have hph : (Init (Ocall_Localrevise order s)).phase = .idle := hphase
      refine ⟨R, ⟨?_, ?_, ?_⟩, Grows.refl R⟩
      · dsimp only
        rw [hph]
        exact hgraph
      · dsimp only
        rw [hph]
        exact ⟨hstores.holds.mono (Nat.le_succ _), hstores.indexed.mono (Nat.le_succ _)⟩
      · dsimp only
        rw [hph]
        exact .idle ⟨pending_empty _ _ _ _, rfl, wait.cold⟩ queue writer

theorem processOff_inv (h : Inv env s R Lost) (hphase : s.phase = .idle) {order : List (Fp × Fp)}
    (horder : greedyOrder s order) (htimes : s.con_times + 1 < 2 ^ 31) :
    ∃ R', Inv env (startOffline order s) R' Lost := by
  obtain ⟨R', h', _⟩ := processOff_opens h hphase horder htimes
  exact ⟨R', h'⟩

theorem getLocal_inv (h : Inv env s R Lost) (hphase : s.phase = .offline .update) :
    Inv env (Ocall_GetLocal s) R Lost := by
  obtain ⟨hgraph, hstores, hstage⟩ := h.at hphase
  have hph : (Ocall_GetLocal s).phase = .offline .update := hphase
  cases hstage with
  | update pass remaining =>
    refine ⟨?_, ?_, ?_⟩
    · rw [hph]
      exact hgraph
    · rw [hph]
      exact ⟨hstores.holds, hstores.indexed⟩
    · rw [hph]
      exact .update ⟨pass.local_tmp_map, pass.skipMap, pass.queue, pass.writer⟩
        remaining.getLocal

/-- One pair of the pass. -/
theorem updatePair_inv (h : Inv env s R Lost) (hphase : s.phase = .offline .update) {old new : Fp}
    {t : Server} (hpair : s.local_basemap.lookup old = some new)
    (ht : Easy_update_pair env old new s = some t) (htimes : t.con_times < 2 ^ 31) :
    ∃ R' Lost', Inv env { t with local_basemap := t.local_basemap.erase old } R' Lost' ∧
      PassStored s t R R' ∧ (∀ b, Lost' b → Lost b ∨ b = old) ∧
      ∀ val, Represents env val s.indexObj R → Represents env val t.indexObj R' := by
  obtain ⟨hgraph, hstores, hstage⟩ := h.at hphase
  cases hstage with
  | update pass remaining =>
    have hrem : Rem s.local_basemap s.local_map old new := Or.inl hpair
    obtain ⟨hwhole, hkept⟩ := remaining.old hrem
    obtain ⟨hnwhole, hnkept⟩ := remaining.new hrem
    have hne := remaining.apart hrem hrem
    obtain ⟨Lost', hlost, hgraph', hframe, hkeeps⟩ :=
      Easy_update_pair_graph hgraph hwhole hkept hnwhole hnkept hne ht
    obtain ⟨R', hstores', hpass, hcontent⟩ := Easy_update_pair_stores hstores pass.writer hgraph
      hwhole hkept hnwhole hnkept hne ht htimes
    have hdone := remaining.done hpair hkeeps fun b hb hl => (hlost b hl).resolve_right hb
    have hph : t.phase = .offline .update := hframe.phase.trans hphase
    refine ⟨R', Lost', ⟨?_, ?_, ?_⟩, hpass, hlost, hcontent⟩
    · dsimp only
      rw [hph]
      exact hgraph'
    · dsimp only
      rw [hph]
      exact ⟨hstores'.holds, hstores'.indexed⟩
    · dsimp only
      rw [hph]
      refine .update ⟨hframe.local_tmp_map.trans pass.local_tmp_map,
        hframe.skipMap.trans pass.skipMap, hframe.inputMQ.trans pass.queue,
        hframe.writer.trans pass.writer⟩ ?_
      dsimp only
      rw [hframe.local_basemap, hframe.local_map]
      exact hdone

/-- The hot container is saved, unless it is empty. -/
theorem coldrevise_inv (h : Inv env s R Lost) (hphase : s.phase = .offline .update)
    (hlast : s.local_map = []) :
    ∃ R', Inv env { (if s.hot_container.buf.length ≠ 0 then Ocall_SavehotContainer s else s) with
      phase := .offline (.cold s.cold_map.keys) } R' Lost ∧
      (∀ p rs, R p = some rs → rs ≠ [] → R' p = some rs) ∧
      ∀ p rs, R' p = some rs → R p = some rs := by
  obtain ⟨hgraph, hstores, hstage⟩ := h.at hphase
  cases hstage with
  | update pass remaining =>
    have hnames : ∀ name, Table.vec s.cold_map name ≠ [] → name ∈ s.cold_map.keys := by
      intro name hne
      by_contra hnot
      have hnone := AList.lookup_eq_none.mpr fun hmem => hnot (AList.mem_keys.mp hmem)
      unfold Table.vec at hne
      rw [hnone] at hne
      exact hne rfl
    have hholds : Holds env none s.inputMQ (hotOpens s) s.files s.con_times R := by
      rw [← pass.writer]
      exact hstores.holds
    have hself := hotOpens_self s
    have hopens : Function.update (hotOpens s) (true, s.hot_container.containerID) none =
        fun _ => none := by
      funext p
      by_cases hp : p = (true, s.hot_container.containerID)
      · rw [hp, Function.update_self]
      · rw [Function.update_of_ne hp]
        exact if_neg hp
    by_cases hbuf : s.hot_container.buf.length ≠ 0
    · rw [if_pos hbuf]
      have hsaved := hholds.saveFile hself
      rw [hopens, ← pass.writer] at hsaved
      exact ⟨R, ⟨hgraph, ⟨hsaved, hstores.indexed⟩, .cold
        ⟨pass.local_tmp_map, pass.skipMap, pass.queue, pass.writer⟩ hlast hnames⟩,
        fun p rs hrs _ => hrs, fun p rs hrs => hrs⟩
    · rw [if_neg hbuf]
      have hnil : s.hot_container.buf = [] := List.eq_nil_of_length_eq_zero (by omega)
      have hplace := hholds.place (true, s.hot_container.containerID)
      rw [hself] at hplace
      obtain ⟨_, _, _, rs, hrs, hlay⟩ := hplace.of_open
      have hrsnil : rs = [] := by
        cases rs with
        | nil => rfl
        | cons r rs =>
          rw [hnil, layout_cons] at hlay
          have hlen := congrArg List.length hlay
          rw [List.length_nil, List.length_append, ChunkRecord.toBytes_length] at hlen
          unfold ChunkRecord.size RECORD_OVERHEAD RECIPE_ENTRY_SIZE at hlen
          omega
      -- an empty container has no dead records
      have hcold : Table.vec s.cold_map s.hot_container.containerID = [] := by
        rw [List.eq_nil_iff_forall_not_mem]
        intro ext hext
        obtain ⟨d, rs', r, hrs', hr, _⟩ := hstores.indexed.dead hext
        have hdir := hholds.ok.dir_unique (p := (true, s.hot_container.containerID)) hrs' hrs
        rw [hdir, hrs, hrsnil] at hrs'
        rw [← Option.some.inj hrs'] at hr
        simp at hr
      have hdropped := hholds.drop hself
      rw [hopens, ← pass.writer] at hdropped
      have hindexed := hstores.indexed.remove (p := (true, s.hot_container.containerID)) hcold
      refine ⟨_, ⟨hgraph, ⟨hdropped, hindexed⟩, .cold
        ⟨pass.local_tmp_map, pass.skipMap, pass.queue, pass.writer⟩ hlast hnames⟩, ?_, ?_⟩
      · intro p rs' hrs' hne
        have hp : p ≠ (true, s.hot_container.containerID) := by
          rintro rfl
          rw [hrs, hrsnil] at hrs'
          exact hne (Option.some.inj hrs').symm
        rw [Function.update_of_ne hp]
        exact hrs'
      · intro p rs' hrs'
        by_cases hp : p = (true, s.hot_container.containerID)
        · rw [hp, Function.update_self] at hrs'
          simp at hrs'
        · rw [Function.update_of_ne hp] at hrs'
          exact hrs'

end Pass

section Compact
variable {env : EnclaveEnv} {s : Server} {R : Records} {Lost : Fp → Prop}

theorem entry_lookup (indexObj : FpIndex) (fp : Fp) (e : RecipeEntry) :
    Entry indexObj [] fp e ↔ indexObj.lookup fp = some e := by
  simp [Entry]

/-- Compaction of one cold container, with the index it leaves. -/
theorem updateCold_relocates (h : Inv env s R Lost) {names : List ContainerName}
    (hphase : s.phase = .offline (.cold names)) {containerName : ContainerName} {t : Server}
    (ht : Update_cold_container containerName s = some t) :
    ∃ d kept, Relocation (Entry s.indexObj []) s.cold_map R (d, containerName) (d, containerName)
        kept [] ∧
      Inv env { t with phase := .offline (.cold (names.erase containerName)) }
        (Relocation.records R (d, containerName) (d, containerName) kept []) Lost ∧
      t.indexObj = indexRecords s.indexObj (repack containerName 0 kept) := by
  obtain ⟨hgraph, hstores, hstage⟩ := h.at hphase
  cases hstage with
  | cold pass local_map names_cold =>
    have hholds : Holds env none s.inputMQ (fun _ => none) s.files s.con_times R := by
      rw [← pass.writer]
      exact hstores.holds
    obtain ⟨d, rs, kept, hfile, hreloc, hfits, rfl⟩ :=
      Update_cold_container_eq hholds hstores.indexed ht
    have hok := hreloc.recordsOk hholds.ok (by rw [layout_nil]; simpa using hfits)
    have hrecords : Relocation.records R (d, containerName) (d, containerName) kept [] =
        Function.update R (d, containerName) (some (repack containerName 0 kept)) := by
      unfold Relocation.records
      rw [Function.update_idem]
      rfl
    have hpacked : PackedAt env (d, containerName) (repack containerName 0 kept) :=
      hok.packed (by rw [hrecords, Function.update_self])
    have hnew := hholds.rewrite hfile hpacked
    rw [← hrecords, ← pass.writer] at hnew
    have hindexed : Indexed (Entry (indexRecords s.indexObj (repack containerName 0 kept)) []) _ _
        (Relocation.records R (d, containerName) (d, containerName) kept []) :=
      hstores.indexed.relocate hholds.ok hreloc (by
        intro fp e
        rw [entry_lookup]
        exact hreloc.lookup hstores.indexed hholds.ok (entry_lookup s.indexObj) 0 fp e)
    refine ⟨d, kept, hreloc, ⟨?_, ⟨hnew, hindexed⟩, .cold
      ⟨pass.local_tmp_map, pass.skipMap, pass.queue, pass.writer⟩ local_map ?_⟩, rfl⟩
    · exact Graph.reindex hgraph (hreloc.reindexed hstores.indexed hholds.ok 0)
    · intro name hne
      dsimp only at hne
      rw [Table.vec_erase] at hne
      by_cases hname : name = containerName
      · rw [if_pos hname] at hne
        exact absurd rfl hne
      · rw [if_neg hname] at hne
        exact (List.mem_erase_of_ne hname).mpr (names_cold name hne)

theorem updateCold_inv (h : Inv env s R Lost) {names : List ContainerName}
    (hphase : s.phase = .offline (.cold names)) {containerName : ContainerName} {t : Server}
    (ht : Update_cold_container containerName s = some t) :
    ∃ d kept, Relocation (Entry s.indexObj []) s.cold_map R (d, containerName) (d, containerName)
        kept [] ∧
      Inv env { t with phase := .offline (.cold (names.erase containerName)) }
        (Relocation.records R (d, containerName) (d, containerName) kept []) Lost := by
  obtain ⟨d, kept, hreloc, h', _⟩ := updateCold_relocates h hphase ht
  exact ⟨d, kept, hreloc, h'⟩

/-- The files of `Base-Containers/`, each once. -/
theorem baseContainerList_spec (s : Server) :
    ((baseContainerList s).map Prod.fst).Nodup ∧ ∀ p ∈ baseContainerList s, ∀ body,
      s.files.lookup (false, p.1) = some body → p.2 = body.length := by
  have hperm := List.perm_insertionSort (fun a b : ContainerName × Nat => a.1.val ≤ b.1.val)
    ((s.files.entries.filter fun p => p.1.1 = false).map fun p => (p.1.2, p.2.length))
  refine ⟨?_, ?_⟩
  · have hkeys : (s.files.entries.map Sigma.fst).Nodup := s.files.nodupKeys
    unfold baseContainerList
    rw [(hperm.map Prod.fst).nodup_iff, List.map_map]
    have hnodup : ((s.files.entries.filter fun p => p.1.1 = false).map Sigma.fst).Nodup :=
      hkeys.sublist (List.filter_sublist.map _)
    have hmap : ((s.files.entries.filter fun p => p.1.1 = false).map
        (Prod.fst ∘ fun p => (p.1.2, p.2.length))) =
        ((s.files.entries.filter fun p => p.1.1 = false).map Sigma.fst).map Prod.snd := by
      rw [List.map_map]
      rfl
    rw [hmap]
    refine hnodup.map_on ?_
    intro a ha b hb heq
    obtain ⟨p, hp, rfl⟩ := List.mem_map.mp ha
    obtain ⟨q, hq, rfl⟩ := List.mem_map.mp hb
    have hp' := (List.mem_filter.mp hp).2
    have hq' := (List.mem_filter.mp hq).2
    rw [decide_eq_true_eq] at hp' hq'
    exact Prod.ext (hp'.trans hq'.symm) heq
  · intro p hp body hbody
    unfold baseContainerList at hp
    obtain ⟨q, hq, rfl⟩ := List.mem_map.mp (hperm.mem_iff.mp hp)
    obtain ⟨hmem, hdir⟩ := List.mem_filter.mp hq
    rw [decide_eq_true_eq] at hdir
    have hlook : s.files.lookup q.1 = some q.2 := AList.mem_lookup_iff.mpr hmem
    have hpath : q.1 = (false, q.1.2) := Prod.ext hdir rfl
    rw [hpath, hbody, Option.some.injEq] at hlook
    rw [hlook]

/-- The pairs to merge: neighbours that fit, each container at most once. -/
theorem baseMergePair_spec (l : List (ContainerName × Nat)) :
    ((baseMergePair l).flatMap fun p => [p.1, p.2]).Sublist (l.map Prod.fst) ∧
      ∀ p ∈ baseMergePair l, ∃ a b, (p.1, a) ∈ l ∧ (p.2, b) ∈ l ∧
        a + b < MAX_CONTAINER_SIZE - 1 := by
  induction l using baseMergePair.induct with
  | case1 a b rest hfits ih =>
    unfold baseMergePair
    rw [if_pos hfits]
    refine ⟨?_, ?_⟩
    · rw [List.flatMap_cons]
      exact (ih.1.cons_cons b.1).cons_cons a.1
    · intro p hp
      rcases List.mem_cons.mp hp with rfl | hp
      · exact ⟨a.2, b.2, by simp, by simp, hfits⟩
      · obtain ⟨x, y, hx, hy, hsum⟩ := ih.2 p hp
        exact ⟨x, y, by simp [hx], by simp [hy], hsum⟩
  | case2 a b rest hfits ih =>
    unfold baseMergePair
    rw [if_neg hfits]
    refine ⟨ih.1.cons a.1, ?_⟩
    intro p hp
    obtain ⟨x, y, hx, hy, hsum⟩ := ih.2 p hp
    exact ⟨x, y, List.mem_cons_of_mem a hx, List.mem_cons_of_mem a hy, hsum⟩
  | case3 l hl =>
    have hnil : baseMergePair l = [] := by
      unfold baseMergePair
      split
      · exact absurd rfl (hl _ _ _)
      · rfl
    rw [hnil]
    simp

theorem getMergeContainer_inv (h : Inv env s R Lost) (hphase : s.phase = .offline (.cold [])) :
    Inv env { s with phase := .offline (.merge (baseMergePair (baseContainerList s))) } R Lost := by
  obtain ⟨hgraph, hstores, hstage⟩ := h.at hphase
  cases hstage with
  | cold pass local_map names_cold =>
    have hcold : ∀ name, Table.vec s.cold_map name = [] := by
      intro name
      by_contra hne
      simpa using names_cold name hne
    obtain ⟨hsub, hpairs⟩ := baseMergePair_spec (baseContainerList s)
    obtain ⟨hnodup, hsize⟩ := baseContainerList_spec s
    refine ⟨hgraph, ⟨hstores.holds, hstores.indexed⟩, .merge
      ⟨pass.local_tmp_map, pass.skipMap, pass.queue, pass.writer⟩ local_map hcold
      ⟨hnodup.sublist hsub, ?_⟩⟩
    intro p hp first second hfirst hsecond
    obtain ⟨a, b, ha, hb, hsum⟩ := hpairs p hp
    have hfa := hsize _ ha first hfirst
    have hsb := hsize _ hb second hsecond
    omega

/-- One pair of base containers is merged, with the index that leaves. -/
theorem mergePair_relocates (h : Inv env s R Lost) {p : ContainerName × ContainerName}
    {rest : List (ContainerName × ContainerName)}
    (hphase : s.phase = .offline (.merge (p :: rest))) {t : Server} (ht : mergePair p s = some t) :
    ∃ first rs, Relocation (Entry s.indexObj []) s.cold_map R (false, p.2) (false, p.1) rs first ∧
      Inv env { t with phase := .offline (.merge rest) }
        (Relocation.records R (false, p.2) (false, p.1) rs first) Lost ∧
      t.indexObj = indexRecords s.indexObj (repack p.1 (layout first).length rs) := by
  obtain ⟨hgraph, hstores, hstage⟩ := h.at hphase
  cases hstage with
  | merge pass local_map cold merge =>
    have hholds : Holds env none s.inputMQ (fun _ => none) s.files s.con_times R := by
      rw [← pass.writer]
      exact hstores.holds
    have hdistinct := merge.distinct
    rw [List.flatMap_cons] at hdistinct
    obtain ⟨hhead, hrest, hapart⟩ := List.nodup_append.mp hdistinct
    have hne : p.1 ≠ p.2 := by
      intro heq
      simp [heq] at hhead
    obtain ⟨first, rs, hfirst, hsecond, hreloc, rfl⟩ :=
      mergePair_eq hholds hstores.indexed cold hne ht
    have hsum := merge.fits p (by simp) _ _ hfirst hsecond
    have hok := hreloc.recordsOk hholds.ok hsum
    have hpaths : ((false, p.1) : Path) ≠ (false, p.2) := fun heq => hne (congrArg Prod.snd heq)
    have hrecords : Relocation.records R (false, p.2) (false, p.1) rs first =
        Function.update (Function.update R (false, p.1)
          (some (first ++ repack p.1 (layout first).length rs))) (false, p.2) none := by
      unfold Relocation.records
      exact Function.update_comm hpaths.symm _ _ _
    have hpacked : PackedAt env (false, p.1) (first ++ repack p.1 (layout first).length rs) :=
      hok.packed (by rw [hrecords, Function.update_of_ne hpaths, Function.update_self])
    have hwritten := hholds.rewrite hfirst hpacked
    have hnew := hwritten.unlink (b := layout rs)
      (by rw [Table.lookup_insert_ite, if_neg hpaths.symm]; exact hsecond)
    rw [← hrecords, ← pass.writer] at hnew
    have hindexed : Indexed
        (Entry (indexRecords s.indexObj (repack p.1 (layout first).length rs)) []) _ _
        (Relocation.records R (false, p.2) (false, p.1) rs first) :=
      hstores.indexed.relocate hholds.ok hreloc (by
        intro fp e
        rw [entry_lookup]
        exact hreloc.lookup hstores.indexed hholds.ok (entry_lookup s.indexObj) _ fp e)
    have hcold' : ∀ name, Table.vec s.cold_map name = Table.vec (s.cold_map.erase p.2) name := by
      intro name
      rw [Table.vec_erase, cold name]
      split <;> rfl
    refine ⟨first, rs, hreloc, ⟨?_, ⟨hnew, hindexed.cold_congr hcold'⟩, .merge
      ⟨pass.local_tmp_map, pass.skipMap, pass.queue, pass.writer⟩ local_map cold
      ⟨hrest, ?_⟩⟩, rfl⟩
    · exact Graph.reindex hgraph (hreloc.reindexed hstores.indexed hholds.ok _)
    · intro q hq f g hf hg
      have hother : ∀ {name}, name ∈ [q.1, q.2] → name ≠ p.1 ∧ name ≠ p.2 := by
        intro name hname
        have hmem : name ∈ rest.flatMap fun p => [p.1, p.2] := List.mem_flatMap.mpr ⟨q, hq, hname⟩
        exact ⟨fun heq => hapart p.1 (by simp) name hmem heq.symm,
          fun heq => hapart p.2 (by simp) name hmem heq.symm⟩
      have hlook : ∀ {name body}, name ∈ [q.1, q.2] →
          ((s.files.insert (false, p.1) (layout (first ++ repack p.1 (layout first).length rs))).erase
            (false, p.2)).lookup (false, name) = some body →
          s.files.lookup (false, name) = some body := by
        intro name body hname hbody
        obtain ⟨h1, h2⟩ := hother hname
        rw [Table.lookup_erase_ite, if_neg fun heq => h2 (congrArg Prod.snd heq),
          Table.lookup_insert_ite, if_neg fun heq => h1 (congrArg Prod.snd heq)] at hbody
        exact hbody
      exact merge.fits q (List.mem_cons_of_mem p hq) f g (hlook (by simp) hf) (hlook (by simp) hg)

theorem mergePair_inv (h : Inv env s R Lost) {p : ContainerName × ContainerName}
    {rest : List (ContainerName × ContainerName)}
    (hphase : s.phase = .offline (.merge (p :: rest))) {t : Server} (ht : mergePair p s = some t) :
    ∃ first rs, Relocation (Entry s.indexObj []) s.cold_map R (false, p.2) (false, p.1) rs first ∧
      Inv env { t with phase := .offline (.merge rest) }
        (Relocation.records R (false, p.2) (false, p.1) rs first) Lost := by
  obtain ⟨first, rs, hreloc, h', _⟩ := mergePair_relocates h hphase ht
  exact ⟨first, rs, hreloc, h'⟩

theorem endOffline_inv (h : Inv env s R Lost) (hphase : s.phase = .offline (.merge [])) :
    Inv env { s with phase := .idle } R Lost := by
  obtain ⟨hgraph, hstores, hstage⟩ := h.at hphase
  cases hstage with
  | merge pass local_map cold _ =>
    refine ⟨hgraph, ⟨hstores.holds, hstores.indexed⟩, .idle ⟨?_, local_map, cold⟩ pass.queue
      pass.writer⟩
    dsimp only
    rw [pass.local_tmp_map, pass.skipMap]
    exact pending_empty _ _ _ _

end Compact

section Run
variable {env : EnclaveEnv} {s s' : Server} {R : Records} {Lost : Fp → Prop} {a : Action}

/-- One step. -/
theorem Inv.step (h : Inv env s R Lost) (hs : step env s a = some s') :
    ∃ R' Lost', Inv env s' R' Lost' := by
  obtain ⟨hstepped, htimes⟩ := step_stepped hs
  cases hstepped with
  | startSession hphase =>
    obtain ⟨R', h'⟩ := startSession_inv h hphase _ htimes
    exact ⟨R', Lost, h'⟩
  | processOff hphase horder =>
    have hle : s.con_times + 1 < 2 ^ 31 := by
      unfold startOffline at htimes
      dsimp only at htimes
      split at htimes <;> exact htimes
    obtain ⟨R', h'⟩ := processOff_inv h hphase horder hle
    exact ⟨R', Lost, h'⟩
  | uploadChunk hphase hsize => exact ⟨R, Lost, uploadChunk_inv h hphase hsize _ _⟩
  | offlinedeltaTure hphase => exact ⟨R, Lost, offlinedeltaTure_inv h hphase⟩
  | storeChunk hphase =>
    rename_i x b
    obtain ⟨q, o, t, n, hframe, hle⟩ := storeChunk_frame env x s
    have htimes' : (storeChunk env x s).2.2.con_times < 2 ^ 31 := htimes
    rw [hframe] at htimes'
    obtain ⟨R', _, _, h', _⟩ := storeChunk_inv h hphase (Nat.lt_of_le_of_lt hle htimes')
    exact ⟨R', Lost, h'⟩
  | endBatch hphase htodo => exact ⟨R, Lost, endBatch_inv h hphase htodo⟩
  | updateOutIndex hphase => exact ⟨R, Lost, updateOutIndex_inv h hphase⟩
  | uploadRecipeEnd hphase => exact ⟨R, Lost, uploadRecipeEnd_inv h hphase⟩
  | disconnect hphase => exact ⟨_, Lost, disconnect_inv h hphase⟩
  | openFile hphase hwriter hqueue => exact ⟨R, Lost, openFile_inv h hphase hwriter hqueue⟩
  | writeFile hphase hwriter => exact ⟨R, Lost, writeFile_inv h hphase _ hwriter⟩
  | closeFile hphase hwriter => exact ⟨R, Lost, closeFile_inv h hphase hwriter⟩
  | join hphase hqueue hwriter => exact ⟨R, Lost, join_inv h hphase hqueue hwriter⟩
  | getLocal hphase _ _ => exact ⟨R, Lost, getLocal_inv h hphase⟩
  | updatePair hphase hpair ht =>
    obtain ⟨R', Lost', h', _⟩ := updatePair_inv h hphase hpair ht htimes
    exact ⟨R', Lost', h'⟩
  | coldrevise hphase _ hlast =>
    obtain ⟨R', h', _⟩ := coldrevise_inv h hphase hlast
    exact ⟨R', Lost, h'⟩
  | updateCold hphase _ ht =>
    obtain ⟨d, kept, _, h'⟩ := updateCold_inv h hphase ht
    exact ⟨_, Lost, h'⟩
  | getMergeContainer hphase => exact ⟨R, Lost, getMergeContainer_inv h hphase⟩
  | mergePair hphase ht =>
    obtain ⟨first, rs, _, h'⟩ := mergePair_inv h hphase ht
    exact ⟨_, Lost, h'⟩
  | endOffline hphase => exact ⟨R, Lost, endOffline_inv h hphase⟩

/-- Every state of a server lifetime. -/
theorem Reachable.inv (h : Reachable env s) : ∃ R Lost, Inv env s R Lost := by
  obtain ⟨Forward_Flag, Offline_Flag, acts, hrun⟩ := h
  have hstep : ∀ {s s' : Server} {a : Action}, (∃ R Lost, Inv env s R Lost) →
      Prototype.step env s a = some s' → ∃ R Lost, Inv env s' R Lost := by
    rintro s s' a ⟨R, Lost, h⟩ hs
    exact h.step hs
  exact runs_invariant hstep ⟨_, _, Inv.start Forward_Flag Offline_Flag⟩ hrun

end Run

end ShieldReduce.Prototype
