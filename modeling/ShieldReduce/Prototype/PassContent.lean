import ShieldReduce.Prototype.Contents
import ShieldReduce.Prototype.StatisticsRuns

/-!
# A pass keeps the contents

Re-encoding, compaction and merging change where and as what a chunk is stored, and never what a
restore sends for it.
-/

namespace ShieldReduce.Prototype
open Lib Store EDelta

section Keys
variable {env : EnclaveEnv} {s s' : Server}

/-- The same fingerprints are indexed. -/
def SameKeys (s s' : Server) : Prop :=
  ∀ fp, s'.indexObj.lookup fp = none ↔ s.indexObj.lookup fp = none

theorem SameKeys.refl (s : Server) : SameKeys s s := fun _ => Iff.rfl

theorem SameKeys.trans {t : Server} (h : SameKeys s t) (h' : SameKeys t s') : SameKeys s s' :=
  fun fp => (h' fp).trans (h fp)

/-- A chunk gets a new entry in the place of the one it has. -/
theorem sameKeys_insert {fp : Fp} {e e' : RecipeEntry} (he : s.indexObj.lookup fp = some e)
    (hs' : s'.indexObj = s.indexObj.insert fp e') : SameKeys s s' := by
  intro fp'
  rw [hs', Table.lookup_insert_ite]
  by_cases hfp : fp' = fp
  · rw [if_pos hfp, hfp, he]
    simp
  · rw [if_neg hfp]

theorem updateDependents_keys {old_chunk new_chunk : Bytes} {newBase : Fp} {rest : List Fp}
    {flag flag' : Bool}
    (hs : updateDependents env old_chunk new_chunk newBase rest flag s = some (s', flag')) :
    SameKeys s s' := by
  induction rest generalizing s flag with
  | nil =>
    simp only [updateDependents, Option.some.injEq, Prod.mk.injEq] at hs
    rw [← hs.1]
    exact SameKeys.refl s
  | cons d rest ih =>
    unfold updateDependents at hs
    obtain ⟨⟨t, tmp_delta_flag⟩, ht, hs⟩ := Option.bind_eq_some_iff.mp hs
    obtain ⟨recipe, body, hrecipe, _, hcases⟩ := updateDependent_cases ht
    have hstep : SameKeys s t := by
      rcases hcases with ⟨_, rfl⟩ | ⟨_, _, n, rfl⟩
      · exact SameKeys.refl s
      · exact sameKeys_insert hrecipe (storeHot_indexObj ..)
    exact hstep.trans (ih hs)

theorem Easy_update_pair_keys {old new : Fp} (hs : Easy_update_pair env old new s = some s') :
    SameKeys s s' := by
  unfold Easy_update_pair at hs
  split at hs
  · unfold greedyPair at hs
    obtain ⟨old_recipe, _, hs⟩ := Option.bind_eq_some_iff.mp hs
    obtain ⟨new_recipe, _, hs⟩ := Option.bind_eq_some_iff.mp hs
    rw [← Option.some.inj hs]
    exact SameKeys.refl s
  · obtain ⟨old_recipe, hold, ⟨_, rfl⟩ | ⟨old_body, _, new_recipe, _, ⟨_, rfl⟩ |
      ⟨new_body, _, t, delta_flag, ht, rfl⟩⟩⟩ := updatePair_cases hs
    · exact SameKeys.refl _
    · exact SameKeys.refl s
    · have hstart : SameKeys s (pairStart old old_recipe new_recipe new old_body new_body s) :=
        SameKeys.refl s
      have hdeps := hstart.trans (updateDependents_keys ht)
      obtain ⟨e, he⟩ := Option.ne_none_iff_exists'.mp fun hnone => by
        rw [(hdeps old).mp hnone] at hold
        simp at hold
      generalize offlineExpand env _ _ = old_chunk
      generalize offlineExpand env _ _ = new_chunk
      generalize getChunkIV _ _ = old_iv
      rcases updateOldBase_cases env old new old_recipe old_iv old_chunk new_chunk delta_flag t with
        ⟨n, heq⟩ | ⟨_, _, n, heq⟩
      · rw [heq]
        exact hdeps
      · rw [heq]
        exact hdeps.trans (sameKeys_insert he (storeHot_indexObj ..))

end Keys

section Pass
variable {env : EnclaveEnv} {s s' : Server} {R : Records} {Lost : Fp → Prop} {val : Fp → Bytes}
  {a : Action}

/-- What happens between the start of a pass and its end. -/
def PassAction : Action → Prop
  | .processOff _ | .getLocal | .updatePair _ | .coldrevise => True
  | .updateCold _ | .getMergeContainer | .mergePair | .endOffline => True
  | _ => False

theorem Stepped.passAction (h : Stepped env s a s') (hpass : Afterwards s)
    (hstart : ∀ iv, a ≠ .startSession iv) : PassAction a := by
  have hupload : ∀ stage, s.phase ≠ .uploading stage := by
    intro stage hphase
    rcases hpass with h | ⟨_, h⟩
    · simp [hphase] at h
    · simp [hphase] at h
  have hdrain : s.phase ≠ .draining := by
    intro hphase
    rcases hpass with h | ⟨_, h⟩
    · simp [hphase] at h
    · simp [hphase] at h
  have hwriting : ¬Writing s := by
    rintro (⟨stage, hphase⟩ | hphase)
    · exact hupload stage hphase
    · exact hdrain hphase
  cases h with
  | startSession _ => exact absurd rfl (hstart _)
  | uploadChunk hphase _ => exact absurd hphase (hupload _)
  | offlinedeltaTure hphase => exact absurd hphase (hupload _)
  | storeChunk hphase => exact absurd hphase (hupload _)
  | endBatch hphase _ => exact absurd hphase (hupload _)
  | updateOutIndex hphase => exact absurd hphase (hupload _)
  | uploadRecipeEnd hphase => exact absurd hphase (hupload _)
  | disconnect hphase =>
    rcases hphase with hphase | hphase
    · exact absurd hphase (hupload _)
    · exact absurd hphase (hupload _)
  | openFile hw _ _ => exact absurd hw hwriting
  | writeFile hw _ => exact absurd hw hwriting
  | closeFile hw _ => exact absurd hw hwriting
  | join hphase _ _ => exact absurd hphase hdrain
  | _ => trivial

/-- A step of a pass indexes the same fingerprints, and leads on in the pass or to its end. -/
theorem Stepped.pass_keys (hinv : Inv env s R Lost) (h : Stepped env s a s') (hpass : Afterwards s)
    (hstart : ∀ iv, a ≠ .startSession iv) : SameKeys s s' ∧ Afterwards s' := by
  by_cases hprocess : ∃ order, a = .processOff order
  · obtain ⟨order, rfl⟩ := hprocess
    cases h with
    | processOff hphase _ =>
      unfold startOffline
      dsimp only
      split
      · exact ⟨SameKeys.refl s, Or.inr ⟨_, rfl⟩⟩
      · exact ⟨SameKeys.refl s, Or.inl hphase⟩
  · by_cases hpair : ∃ old, a = .updatePair old
    · obtain ⟨old, rfl⟩ := hpair
      cases h with
      | updatePair hphase _ ht =>
        exact ⟨fun fp => Easy_update_pair_keys ht fp,
          Or.inr ⟨.update, (Easy_update_pair_kept ht).phase.trans hphase⟩⟩
    · obtain ⟨hafter, _, hshape⟩ := h.pass_shape hinv hpass hstart
        (fun order heq => hprocess ⟨order, heq⟩) fun old heq => hpair ⟨old, heq⟩
      exact ⟨fun fp => by rw [← Option.map_eq_none_iff, hshape, Option.map_eq_none_iff], hafter⟩

theorem startOffline_indexObj (order : List (Fp × Fp)) (s : Server) :
    (startOffline order s).indexObj = s.indexObj := by
  unfold startOffline
  dsimp only
  split
  · rfl
  · rfl

theorem startOffline_con_times (order : List (Fp × Fp)) (s : Server) :
    (startOffline order s).con_times = s.con_times + 1 := by
  unfold startOffline
  dsimp only
  split
  · rfl
  · rfl

/-- One step of a pass, or its beginning. -/
theorem Contents.pass_step (h : Inv env s R Lost) (hval : Contents env val (Entry s.indexObj []) R)
    (hpass : PassAction a) (hs : step env s a = some s') :
    ∃ R' Lost', Inv env s' R' Lost' ∧ Contents env val (Entry s'.indexObj []) R' := by
  obtain ⟨hstepped, htimes⟩ := step_stepped hs
  cases hstepped with
  | @processOff order hphase horder =>
    rw [startOffline_con_times] at htimes
    obtain ⟨R', hinv', hgrows⟩ := processOff_opens h hphase horder htimes
    refine ⟨R', Lost, hinv', ?_⟩
    rw [startOffline_indexObj]
    exact hval.grows hgrows
  | updatePair hphase hpair ht =>
    obtain ⟨R', Lost', hinv', _, _, hcontent⟩ := updatePair_inv h hphase hpair ht htimes
    exact ⟨R', Lost', hinv', contents_index.mpr (hcontent val (contents_index.mp hval))⟩
  | getLocal hphase _ _ => exact ⟨R, Lost, getLocal_inv h hphase, hval⟩
  | coldrevise hphase _ hlast =>
    obtain ⟨R', hinv', hkeep, _⟩ := coldrevise_inv h hphase hlast
    refine ⟨R', Lost, hinv', ?_⟩
    have hindex : (if s.hot_container.buf.length ≠ 0 then Ocall_SavehotContainer s
        else s).indexObj = s.indexObj := by
      split <;> rfl
    dsimp only
    rw [hindex]
    exact hval.keep hkeep
  | @updateCold names containerName t hphase _ ht =>
    obtain ⟨_, hstores, _⟩ := h.at hphase
    obtain ⟨d, kept, hreloc, hinv', hindex⟩ := updateCold_relocates h hphase ht
    have hmoves := hreloc.contents hstores.indexed hstores.holds.ok hval
    rw [layout_nil] at hmoves
    refine ⟨_, Lost, hinv', ?_⟩
    dsimp only
    rw [hindex]
    exact hmoves
  | getMergeContainer hphase => exact ⟨R, Lost, getMergeContainer_inv h hphase, hval⟩
  | mergePair hphase ht =>
    obtain ⟨_, hstores, _⟩ := h.at hphase
    obtain ⟨first, rs, hreloc, hinv', hindex⟩ := mergePair_relocates h hphase ht
    refine ⟨_, Lost, hinv', ?_⟩
    dsimp only
    rw [hindex]
    exact hreloc.contents hstores.indexed hstores.holds.ok hval
  | endOffline hphase => exact ⟨R, Lost, endOffline_inv h hphase, hval⟩
  | _ => exact absurd hpass id

/-- A run without a session. -/
theorem Contents.pass_runs {acts : List Action} (h : Inv env s R Lost)
    (hval : Contents env val (Entry s.indexObj []) R) (hpass : Afterwards s)
    (hacts : ∀ iv, .startSession iv ∉ acts) (hrun : runs (step env) s acts = some s') :
    ∃ R' Lost', Inv env s' R' Lost' ∧ Contents env val (Entry s'.indexObj []) R' ∧ SameKeys s s' ∧
      Afterwards s' := by
  refine @runs_preserve _ _ (step env)
    (fun t => ∃ R' Lost', Inv env t R' Lost' ∧ Contents env val (Entry t.indexObj []) R' ∧
      SameKeys s t ∧ Afterwards t)
    (fun _ a => ∀ iv, a ≠ .startSession iv) ?_ s s' acts
    ⟨R, Lost, h, hval, SameKeys.refl s, hpass⟩ (stepsMeet_of_forall (fun _ a ha => ?_) s) hrun
  · rintro t t' a ⟨R₁, Lost₁, hinv, hval, hkeys, hpass⟩ ha hs
    obtain ⟨hstepped, _⟩ := step_stepped hs
    obtain ⟨R', Lost', hinv', hval'⟩ := hval.pass_step hinv (hstepped.passAction hpass ha) hs
    obtain ⟨hkeys', hpass'⟩ := hstepped.pass_keys hinv hpass ha
    exact ⟨R', Lost', hinv', hval', hkeys.trans hkeys', hpass'⟩
  · rintro iv rfl
    exact hacts iv ha

/-- What a fingerprint of the index stands for: the record in its base container, or the delta in its
delta container applied to what its base stands for. -/
inductive Reconstructs (env : EnclaveEnv) (s : Server) : Fp → Bytes → Prop
  | base {fp : Fp} {e : RecipeEntry} {body : Bytes} (entry : s.indexObj.lookup fp = some e)
    (flag : e.deltaFlag = NO_DELTA) (file : s.files.lookup (false, e.containerName) = some body) :
    Reconstructs env s fp (RecoverOneChunk env (getChunkIV body e) (getChunkContent body e))
  | delta {fp : Fp} {e : RecipeEntry} {body base : Bytes} (entry : s.indexObj.lookup fp = some e)
    (flag : e.deltaFlag = DELTA) (file : s.files.lookup (true, e.containerName) = some body)
    (against : Reconstructs env s e.basechunkHash base) :
    Reconstructs env s fp
      (EDeltaDecode (env.DecryptionWithKeyIV (getChunkIV body e) (getChunkContent body e)) base)

/-- Outside sessions and passes, in the records' terms. -/
theorem Contents.reconstructs (h : Inv env s R Lost) (hidle : s.phase = .idle)
    (hval : Contents env val (Entry s.indexObj []) R) {fp : Fp} {plain : Bytes} :
    Reconstructs env s fp plain ↔ s.indexObj.lookup fp ≠ none ∧ plain = val fp := by
  obtain ⟨hgraph, hstores, _⟩ := h.at hidle
  have hread : ∀ {fp : Fp} {e : RecipeEntry} {body : Bytes}, s.indexObj.lookup fp = some e →
      s.files.lookup (pathOf e) = some body → ∃ r, getChunkIV body e = r.iv ∧
        getChunkContent body e = r.content ∧ r.entry = e ∧ DecodesTo env val fp r := by
    intro fp e body he hbody
    obtain ⟨r, ⟨rs, hrs, hmem⟩, rfl, hdec⟩ := hval fp e (Or.inl he)
    have hpacked := hstores.holds.ok.packed hrs
    have hstands := Packed.standsIn ⟨rfl, hpacked.packed, Nat.le_of_lt hpacked.fits⟩ hmem
    rw [(h.requested hidle hrs).1, Option.some.injEq] at hbody
    rw [← hbody]
    exact ⟨r, hstands.iv_eq, hstands.content_eq, rfl, hdec⟩
  constructor
  · intro hplain
    induction hplain with
    | base entry flag file =>
      refine ⟨by rw [entry]; exact Option.some_ne_none _, ?_⟩
      obtain ⟨r, hiv, hcontent, rfl, hdec⟩ := hread entry (by unfold pathOf; rw [flag]; exact file)
      rw [hiv, hcontent]
      exact (hdec.whole flag).1
    | delta entry flag file _ ih =>
      refine ⟨by rw [entry]; exact Option.some_ne_none _, ?_⟩
      obtain ⟨r, hiv, hcontent, rfl, hdec⟩ := hread entry (by unfold pathOf; rw [flag]; exact file)
      rw [hiv, hcontent, ih.2]
      exact hdec.delta flag
  · rintro ⟨hne, rfl⟩
    have hwhole : ∀ {fp : Fp} {e : RecipeEntry}, s.indexObj.lookup fp = some e →
        e.deltaFlag = NO_DELTA → Reconstructs env s fp (val fp) := by
      intro fp e he hflag
      obtain ⟨r, ⟨rs, hrs, _⟩, rfl, _⟩ := hval fp e (Or.inl he)
      have hfile := (h.requested hidle hrs).1
      obtain ⟨r', hiv, hcontent, heq, hdec⟩ := hread he hfile
      rw [← (hdec.whole (heq ▸ hflag)).1, ← hiv, ← hcontent]
      refine .base he hflag ?_
      unfold pathOf at hfile
      rw [hflag] at hfile
      exact hfile
    obtain ⟨e, he⟩ := Option.ne_none_iff_exists'.mp hne
    by_cases hflag : e.deltaFlag = DELTA
    · obtain ⟨r, ⟨rs, hrs, _⟩, rfl, _⟩ := hval fp e (Or.inl he)
      have hfile := (h.requested hidle hrs).1
      obtain ⟨r', hiv, hcontent, heq, hdec⟩ := hread he hfile
      obtain ⟨eb, heb, hflagb⟩ := hgraph.base_whole he hflag
      rw [← hdec.delta (heq ▸ hflag), heq, ← hiv, ← hcontent]
      refine .delta he hflag ?_ (hwhole heb hflagb)
      unfold pathOf at hfile
      rw [hflag] at hfile
      exact hfile
    · exact hwhole he ((hgraph.flag (Or.inl he)).resolve_right hflag)

/-- Whatever passes run, in any order of their maps: a fingerprint of the index stands for something
and, after them, for the same. -/
theorem pass_reconstructs {acts : List Action} (h : Reachable env s) (hidle : s.phase = .idle)
    (hthere : FilesThere s) (hbases : BasesRecovered env s) (hacts : ∀ a ∈ acts, PassAction a)
    (hrun : runs (step env) s acts = some s') (hend : s'.phase = .idle) :
    (∀ fp, s.indexObj.lookup fp ≠ none → ∃ plain, Reconstructs env s fp plain) ∧
      ∀ fp plain, Reconstructs env s' fp plain ↔ Reconstructs env s fp plain := by
  obtain ⟨R, Lost, hinv⟩ := h.inv
  have hval := hthere.contents hbases hinv hidle
  obtain ⟨R', Lost', hinv', hval', hkeys, _⟩ := hval.pass_runs hinv (Or.inl hidle)
    (fun iv hiv => hacts _ hiv) hrun
  refine ⟨fun fp hfp => ⟨_, (hval.reconstructs hinv hidle).mpr ⟨hfp, rfl⟩⟩, fun fp plain => ?_⟩
  rw [hval'.reconstructs hinv' hend, hval.reconstructs hinv hidle, Ne, Ne, hkeys fp]

/-- Any number of passes, with any order of the maps they go through: the same fingerprints are
indexed, a restore sends for each what it sent before, and the containers are there as before. -/
theorem pass_keeps_contents {acts : List Action} (h : Reachable env s) (hidle : s.phase = .idle)
    (hthere : FilesThere s) (hbases : BasesRecovered env s) (hacts : ∀ iv, .startSession iv ∉ acts)
    (hrun : runs (step env) s acts = some s') (hend : s'.phase = .idle) :
    SameKeys s s' ∧ (∀ fp, chunkAt env s' fp = chunkAt env s fp) ∧ FilesThere s' ∧
      BasesRecovered env s' := by
  obtain ⟨R, Lost, hinv⟩ := h.inv
  obtain ⟨R', Lost', hinv', hval', hkeys, _⟩ :=
    (hthere.contents hbases hinv hidle).pass_runs hinv (Or.inl hidle) hacts hrun
  refine ⟨hkeys, fun fp => ?_, hval'.filesThere hinv' hend⟩
  cases he : s.indexObj.lookup fp with
  | none =>
    unfold chunkAt
    rw [he, (hkeys fp).mpr he]
    rfl
  | some e =>
    obtain ⟨e', he'⟩ := Option.ne_none_iff_exists'.mp fun hnone => by
      rw [(hkeys fp).mp hnone] at he
      simp at he
    rw [hval'.chunkAt hinv' hend he',
      (hthere.contents hbases hinv hidle).chunkAt hinv hidle he]
    rfl

end Pass

/-- Two backups: the second one stores a delta against `plainBase` and a new base for it. -/
def twoBackups : List Action :=
  [[.startSession (FixedBytes.fill 16 0)],
    uploadBatch [otherBase, plainBase] 2,
    [.uploadRecipeEnd, .disconnect], saveOne, [.join, .startSession (FixedBytes.fill 16 0)],
    uploadBatch (dependentChunk 1 :: List.replicate 33 plainBase) 1,
    uploadBatch [dependentChunk 2] 1,
    [.uploadRecipeEnd, .disconnect], saveOne, saveOne, [.join]].flatten

/-- The pass over that pair: the delta and the old base get new deltas, both their containers are
compacted, and the base containers are merged. -/
def wholePass : List Action :=
  [.processOff [(plainFp plainBase, plainFp (dependentChunk 2))], .getLocal,
    .updatePair (plainFp plainBase), .coldrevise, .updateCold (CreateUUID 1),
    .updateCold (CreateUUID 5), .getMergeContainer, .mergePair, .endOffline]

/-- Before and after that pass. -/
theorem wholePass_rebases : ∃ s t,
    runs (step firstByteEnv) (Server.start false true) twoBackups = some s ∧
    runs (step firstByteEnv) s wholePass = some t ∧
    (s.phase = .idle ∧ FilesThere s ∧ BasesRecovered firstByteEnv s ∧ t.phase = .idle) ∧
    (s.indexObj.lookup (plainFp plainBase)).map RecipeEntry.deltaFlag = some NO_DELTA ∧
    (t.indexObj.lookup (plainFp plainBase)).map RecipeEntry.deltaFlag = some DELTA := by
  have hbefore : ((runs (step firstByteEnv) (Server.start false true) twoBackups).map fun s =>
      ((s.phase, decide (FilesThere s), decide (BasesRecovered firstByteEnv s)),
        (s.indexObj.lookup (plainFp plainBase)).map RecipeEntry.deltaFlag)) =
        some ((.idle, true, true), some NO_DELTA) := by
    decide +kernel
  have hafter : ((runs (step firstByteEnv) (Server.start false true) (twoBackups ++ wholePass)).map
      fun t => (t.phase, (t.indexObj.lookup (plainFp plainBase)).map RecipeEntry.deltaFlag)) =
        some (.idle, some DELTA) := by
    decide +kernel
  obtain ⟨s, hs, heq⟩ := Option.map_eq_some_iff.mp hbefore
  obtain ⟨t, ht, heq'⟩ := Option.map_eq_some_iff.mp hafter
  simp only [Prod.mk.injEq, decide_eq_true_eq] at heq heq'
  obtain ⟨⟨hidle, hthere, hbases⟩, hflag⟩ := heq
  obtain ⟨s', hs', hpass⟩ := runs_append.mp ht
  rw [hs, Option.some.injEq] at hs'
  rw [← hs'] at hpass
  exact ⟨s, t, hs, hpass, ⟨hidle, hthere, hbases, heq'.1⟩, hflag, heq'.2⟩

theorem pass_reconstructs_rebased : ∃ s t,
    runs (step firstByteEnv) (Server.start false true) twoBackups = some s ∧
    runs (step firstByteEnv) s wholePass = some t ∧
    (t.indexObj.lookup (plainFp plainBase)).map RecipeEntry.deltaFlag = some DELTA ∧
    ∃ plain, Reconstructs firstByteEnv s (plainFp plainBase) plain ∧
      Reconstructs firstByteEnv t (plainFp plainBase) plain := by
  obtain ⟨s, t, hs, hpass, ⟨hidle, hthere, hbases, hend⟩, hbefore, hafter⟩ := wholePass_rebases
  obtain ⟨hsome, hsame⟩ := pass_reconstructs ⟨false, true, twoBackups, hs⟩ hidle hthere hbases
    (by simp [wholePass, PassAction]) hpass hend
  obtain ⟨plain, hplain⟩ := hsome (plainFp plainBase) (by
    intro hnone
    rw [hnone] at hbefore
    simp at hbefore)
  exact ⟨s, t, hs, hpass, hafter, plain, hplain, (hsame _ _).mpr hplain⟩

theorem pass_keeps_contents_rebased : ∃ s t,
    runs (step firstByteEnv) (Server.start false true) twoBackups = some s ∧
    runs (step firstByteEnv) s wholePass = some t ∧
    (t.indexObj.lookup (plainFp plainBase)).map RecipeEntry.deltaFlag = some DELTA ∧
    SameKeys s t ∧ ∀ fp, chunkAt firstByteEnv t fp = chunkAt firstByteEnv s fp := by
  obtain ⟨s, t, hs, hpass, ⟨hidle, hthere, hbases, hend⟩, _, hafter⟩ := wholePass_rebases
  obtain ⟨hkeys, hchunks, _⟩ := pass_keeps_contents ⟨false, true, twoBackups, hs⟩ hidle hthere hbases
    (by simp [wholePass]) hpass hend
  exact ⟨s, t, hs, hpass, hafter, hkeys, hchunks⟩

end ShieldReduce.Prototype
