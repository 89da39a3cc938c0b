import Mathlib.Data.Prod.Lex
import Mathlib.Order.OrderIsoNat
import ShieldReduce.Prototype.Merging
import ShieldReduce.Prototype.PassContent

/-!
# A pass comes to its end

Whatever the order of the hash maps, `Easy_update` and the loops behind it find every file that they
read, and each of their steps leaves less to do.
-/

namespace ShieldReduce.Prototype
open Lib Store EDelta

section Model
variable (env : EnclaveEnv) (s : Server)

/-- Some directory has a file of this name. -/
def OnDisk (name : ContainerName) : Prop := ∃ d, s.files.lookup (d, name) ≠ none

/-- The reads of the next steps succeed, whichever element a loop goes on with. -/
def PassGoesOn : Prop :=
  match s.phase with
  | .offline .update => ∀ old new, s.local_basemap.lookup old = some new →
      Easy_update_pair env old new s ≠ none
  | .offline (.cold names) => ∀ containerName ∈ names, Update_cold_container containerName s ≠ none
  | .offline (.merge pairs) => ∀ p ∈ pairs, mergePair p s ≠ none
  | _ => True

/-- What `_cold_map` and the loops over it and over the pairs name is there. -/
def ColdOk : Prop :=
  match s.phase with
  | .offline .update => ∀ name, s.cold_map.lookup name ≠ none → OnDisk s name
  | .offline (.cold names) =>
    (∀ name, s.cold_map.lookup name ≠ none → name ∈ names) ∧ ∀ name ∈ names, OnDisk s name
  | .offline (.merge pairs) => (∀ name, s.cold_map.lookup name = none) ∧ ∀ p ∈ pairs,
      s.files.lookup (false, p.1) ≠ none ∧ s.files.lookup (false, p.2) ≠ none
  | _ => ∀ name, s.cold_map.lookup name = none

/-- A delta that is not in a file is in the hot container, and no pair will ask for it. -/
def HotDone : Prop := ∀ fp e, s.indexObj.lookup fp = some e → e.deltaFlag = DELTA →
  s.files.lookup (true, e.containerName) ≠ none ∨
    (e.containerName = s.hot_container.containerID ∧
      ∀ n, ¬Rem s.local_basemap s.local_map e.basechunkHash n)

/-- How much is left to do: the loops, and the rounds of the loop that a pass is in. -/
def passWork : ℕ ×ₗ ℕ :=
  match s.phase with
  | .offline .update => toLex (2, 2 * s.local_map.length + s.local_basemap.keys.length)
  | .offline (.cold names) => toLex (1, names.length)
  | .offline (.merge pairs) => toLex (0, pairs.length)
  | _ => toLex (0, 0)

end Model

section Pair
variable {env : EnclaveEnv} {s s' : Server}

/-- What every operation of a pair with the base `new` keeps. A chunk is moved out of a file. -/
structure PairClosed (env : EnclaveEnv) (new : Fp) (P : Server → Prop) : Prop where
  read : ∀ {t} body, P t → P (readContainer t body)
  size : ∀ {t} n, P t → P { t with offlineCurrBackup_size := n }
  erase : ∀ {t} sf, P t → P (EraseSF t sf)
  replace : ∀ {t} sf fp, P t → P (ReplaceSF t sf fp)
  query : ∀ {t} fp, P t → P (QueryDeltaIndex t fp).2
  store : ∀ {t} chunkHash recipe new_delta fp sf iv, P t → OnDisk t recipe.containerName →
    P (storeHot env chunkHash new recipe new_delta fp sf iv t)

theorem PairClosed.updateDependents {new : Fp} {P : Server → Prop} (hP : PairClosed env new P)
    {old_chunk new_chunk : Bytes} {deps : List Fp} {flag flag' : Bool} (h : P s)
    (hs : updateDependents env old_chunk new_chunk new deps flag s = some (s', flag')) : P s' := by
  induction deps generalizing s flag with
  | nil =>
    simp only [Prototype.updateDependents, Option.some.injEq, Prod.mk.injEq] at hs
    rw [← hs.1]
    exact h
  | cons d deps ih =>
    obtain ⟨⟨t, tmp⟩, ht, hrest⟩ := Option.bind_eq_some_iff.mp hs
    obtain ⟨recipe, body, _, hbody, hcases⟩ := updateDependent_cases ht
    have hread := hP.read body h
    rcases hcases with ⟨_, rfl⟩ | ⟨_, _, n, rfl⟩
    · exact ih hread hrest
    · refine ih (hP.store _ _ _ _ _ _ (hP.size n hread) ⟨true, ?_⟩) hrest
      change s.files.lookup (true, recipe.containerName) ≠ none
      rw [hbody]
      exact Option.some_ne_none _

theorem PairClosed.Easy_update_pair {old new : Fp} {P : Server → Prop} (hP : PairClosed env new P)
    (h : P s) (hs : Easy_update_pair env old new s = some s') : P s' := by
  unfold Prototype.Easy_update_pair at hs
  split at hs
  · unfold greedyPair at hs
    obtain ⟨old_recipe, _, hs⟩ := Option.bind_eq_some_iff.mp hs
    obtain ⟨new_recipe, _, hs⟩ := Option.bind_eq_some_iff.mp hs
    rw [← Option.some.inj hs]
    exact hP.query old (hP.replace _ new (hP.erase _ h))
  · obtain ⟨old_recipe, _, ⟨_, rfl⟩ | ⟨old_body, hold, new_recipe, _,
      ⟨_, rfl⟩ | ⟨new_body, _, t, delta_flag, ht, rfl⟩⟩⟩ := updatePair_cases hs
    · exact h
    · exact hP.erase _ (hP.read old_body h)
    · have hstart : P (pairStart old old_recipe new_recipe new old_body new_body s) :=
        hP.query old (hP.replace _ new (hP.read new_body (hP.erase _ (hP.read old_body h))))
      have hdone := hP.updateDependents hstart ht
      -- the base containers are as they were
      have hkept : PairKept (pairStart old old_recipe new_recipe new old_body new_body s) t :=
        (passClosed_pairKept env _).updateDependents
          ⟨⟨Nat.le_refl _, rfl, rfl, rfl, fun _ => rfl⟩, rfl, rfl, fun he _ => he⟩ ht
      have hdisk : OnDisk t old_recipe.containerName := by
        refine ⟨false, ?_⟩
        rw [hkept.files]
        change s.files.lookup (false, old_recipe.containerName) ≠ none
        rw [hold]
        exact Option.some_ne_none _
      generalize offlineExpand env _ _ = old_chunk
      generalize offlineExpand env _ _ = new_chunk
      generalize getChunkIV _ _ = old_iv
      rcases updateOldBase_cases env old new old_recipe old_iv old_chunk new_chunk delta_flag t with
        ⟨n, heq⟩ | ⟨_, _, n, heq⟩
      · rw [heq]
        exact hP.size n hdone
      · rw [heq]
        exact hP.store _ _ _ _ _ _ (hP.size n hdone) hdisk

/-- What `storeHot` does to the files and to what leads to them. -/
structure HotStored (s s' : Server) (chunkHash newBase : Fp) (containerName : ContainerName) :
    Prop where
  index : ∃ e, s'.indexObj = s.indexObj.insert chunkHash e ∧ e.deltaFlag = DELTA ∧
    e.basechunkHash = newBase ∧ e.containerName = s'.hot_container.containerID
  files : ∀ p, s.files.lookup p ≠ none → s'.files.lookup p ≠ none
  hot : s'.hot_container.containerID = s.hot_container.containerID ∨
    s'.files.lookup (true, s.hot_container.containerID) ≠ none
  cold : ∃ extent, s'.cold_map = Table.push s.cold_map containerName extent

theorem storeHot_stored (env : EnclaveEnv) (chunkHash newBase : Fp) (recipe : RecipeEntry)
    (new_delta : Bytes) (fp : Fp) (sf : SuperFeature) (iv : IV) (s : Server) :
    HotStored s (storeHot env chunkHash newBase recipe new_delta fp sf iv s) chunkHash newBase
      recipe.containerName := by
  unfold storeHot InsertHot_container
  dsimp only
  split
  · exact ⟨⟨_, rfl, rfl, rfl, rfl⟩, fun _ h => h, Or.inl rfl, ⟨_, rfl⟩⟩
  · refine ⟨⟨_, rfl, rfl, rfl, rfl⟩, fun p hp => ?_, Or.inr ?_, ⟨_, rfl⟩⟩
    · change (s.files.insert (true, s.hot_container.containerID) s.hot_container.buf).lookup p ≠ none
      rw [Table.lookup_insert_ite]
      split
      · exact Option.some_ne_none _
      · exact hp
    · change (s.files.insert (true, s.hot_container.containerID) s.hot_container.buf).lookup
        (true, s.hot_container.containerID) ≠ none
      rw [Table.lookup_insert_ite, if_pos rfl]
      exact Option.some_ne_none _

theorem HotStored.onDisk {s s' : Server} {chunkHash newBase : Fp} {containerName : ContainerName}
    (h : HotStored s s' chunkHash newBase containerName) {name : ContainerName}
    (hname : OnDisk s name) : OnDisk s' name := by
  obtain ⟨d, hd⟩ := hname
  exact ⟨d, h.files _ hd⟩

/-- The containers that lose records have files. -/
theorem pairClosed_cold (env : EnclaveEnv) (new : Fp) : PairClosed env new fun t =>
    ∀ name, t.cold_map.lookup name ≠ none → OnDisk t name where
  read _ h := h
  size _ h := h
  erase _ h := h
  replace _ _ h := h
  query _ h := h
  store := by
    intro t chunkHash recipe new_delta fp sf iv h hdisk name hname
    have hstored := storeHot_stored env chunkHash new recipe new_delta fp sf iv t
    obtain ⟨extent, hcold⟩ := hstored.cold
    rw [hcold] at hname
    unfold Table.push at hname
    rw [Table.lookup_insert_ite] at hname
    split at hname
    case isTrue heq =>
      rw [heq]
      exact hstored.onDisk hdisk
    case isFalse => exact hstored.onDisk (h name hname)

/-- A delta that has no file yet is in the hot container, and its base is one of `Done`. -/
theorem pairClosed_hot (env : EnclaveEnv) {Done : Fp → Prop} {new : Fp} (hnew : Done new) :
    PairClosed env new fun t => ∀ fp e, t.indexObj.lookup fp = some e → e.deltaFlag = DELTA →
      t.files.lookup (true, e.containerName) ≠ none ∨
        (e.containerName = t.hot_container.containerID ∧ Done e.basechunkHash) where
  read _ h := h
  size _ h := h
  erase _ h := h
  replace _ _ h := h
  query _ h := h
  store := by
    intro t chunkHash recipe new_delta fp sf iv h _ fp' e' he' hdelta
    have hstored := storeHot_stored env chunkHash new recipe new_delta fp sf iv t
    obtain ⟨e, hindex, _, hbase, hname⟩ := hstored.index
    rw [hindex, Table.lookup_insert_ite] at he'
    split at he'
    · rw [← Option.some.inj he', hbase]
      exact Or.inr ⟨hname, hnew⟩
    · rcases h fp' e' he' hdelta with hfile | ⟨hhot, hdone⟩
      · exact Or.inl (hstored.files _ hfile)
      · rw [hhot]
        exact hstored.hot.symm.imp_right fun heq => ⟨heq.symm, hdone⟩

/-- Every new entry is that of a delta. -/
theorem pairClosed_whole (env : EnclaveEnv) (s : Server) (new : Fp) : PairClosed env new fun t =>
    ∀ fp e, t.indexObj.lookup fp = some e → e.deltaFlag = DELTA ∨ s.indexObj.lookup fp = some e where
  read _ h := h
  size _ h := h
  erase _ h := h
  replace _ _ h := h
  query _ h := h
  store := by
    intro t chunkHash recipe new_delta fp sf iv h _ fp' e' he'
    obtain ⟨e, hindex, hdelta, _⟩ :=
      (storeHot_stored env chunkHash new recipe new_delta fp sf iv t).index
    rw [hindex, Table.lookup_insert_ite] at he'
    split at he'
    · rw [← Option.some.inj he']
      exact Or.inl hdelta
    · exact h fp' e' he'

/-- The pairs that are pending. -/
theorem passClosed_pending (env : EnclaveEnv) (s : Server) : PassClosed env fun t =>
    t.local_map = s.local_map ∧ t.local_basemap = s.local_basemap where
  read _ h := h
  size _ h := h
  erase _ h := h
  replace _ _ h := h
  query _ h := h
  store := by
    intro t chunkHash newBase recipe new_delta fp sf iv h
    obtain ⟨_, _, _, hframe⟩ := storeHot_indexes env chunkHash newBase recipe new_delta fp sf iv t
    exact ⟨hframe.local_map.trans h.1, hframe.local_basemap.trans h.2⟩

end Pair

section Reads
variable {env : EnclaveEnv} {s s' : Server} {R : Records} {Lost : Fp → Prop}

/-- A dependent that is worked on takes no file away, and no entry of another chunk. -/
theorem updateDependent_keeps {old_chunk new_chunk : Bytes} {newBase d : Fp} {flag : Bool}
    (h : updateDependent env old_chunk new_chunk newBase d s = some (s', flag)) :
    (∀ p, s.files.lookup p ≠ none → s'.files.lookup p ≠ none) ∧
      ∀ d' ≠ d, s'.indexObj.lookup d' = s.indexObj.lookup d' := by
  obtain ⟨recipe, body, _, _, ⟨_, rfl⟩ | ⟨_, _, n, rfl⟩⟩ := updateDependent_cases h
  · exact ⟨fun _ hp => hp, fun _ _ => rfl⟩
  · have hstored := fun new_delta fp sf iv => storeHot_stored env d newBase recipe new_delta fp sf iv
      { readContainer s body with offlineCurrBackup_size := n }
    refine ⟨fun p hp => (hstored _ _ _ _).files p hp, fun d' hne => ?_⟩
    obtain ⟨e, hindex, _⟩ := (hstored _ _ _ _).index
    rw [hindex, Table.lookup_insert_ite, if_neg hne]
    rfl

/-- The dependents of a base are read one after the other, while others of them are moved. -/
theorem updateDependents_some {old_chunk new_chunk : Bytes} {newBase : Fp} {deps : List Fp}
    (flag : Bool) (hnodup : deps.Nodup) (hfiles : ∀ d ∈ deps, ∃ e, s.indexObj.lookup d = some e ∧
      s.files.lookup (true, e.containerName) ≠ none) :
    updateDependents env old_chunk new_chunk newBase deps flag s ≠ none := by
  induction deps generalizing s flag with
  | nil => exact Option.some_ne_none _
  | cons d deps ih =>
    obtain ⟨hd, hrest⟩ := List.nodup_cons.mp hnodup
    obtain ⟨recipe, hrecipe, hfile⟩ := hfiles d List.mem_cons_self
    obtain ⟨body, hbody⟩ := Option.ne_none_iff_exists'.mp hfile
    obtain ⟨⟨t, tmp⟩, ht⟩ : ∃ r, updateDependent env old_chunk new_chunk newBase d s = some r := by
      unfold updateDependent Ocall_OneDeltaContainer oneContainer
      rw [hrecipe, Option.bind_eq_bind, Option.bind_some, hbody, Option.map_some,
        Option.bind_eq_bind, Option.bind_some]
      dsimp only
      split
      · exact ⟨_, rfl⟩
      · exact ⟨_, rfl⟩
    obtain ⟨hkeep, hother⟩ := updateDependent_keeps ht
    unfold updateDependents
    rw [ht]
    refine ih _ hrest fun d' hd' => ?_
    have hne : d' ≠ d := by
      rintro rfl
      exact hd hd'
    obtain ⟨e, he, hfile'⟩ := hfiles d' (List.mem_cons_of_mem d hd')
    exact ⟨e, (hother d' hne).trans he, hkeep _ hfile'⟩

/-- A pair that remains finds its two entries and its dependents. -/
theorem Easy_update_pair_some (h : Inv env s R Lost) (hphase : s.phase = .offline .update)
    (hdone : HotDone s) {old new : Fp} (hpair : s.local_basemap.lookup old = some new) :
    Easy_update_pair env old new s ≠ none := by
  obtain ⟨hgraph, _, hstage⟩ := h.at hphase
  cases hstage with
  | update pass remaining =>
    have hrem : Rem s.local_basemap s.local_map old new := Or.inl hpair
    obtain ⟨⟨old_recipe, hold, _⟩, hkept⟩ := remaining.old hrem
    obtain ⟨⟨new_recipe, hnew, _⟩, _⟩ := remaining.new hrem
    have hnodup := hgraph.nodup hkept
    have hlisted := hgraph.listed hkept
    change (Table.vec s.delta_index old ++ []).Nodup at hnodup
    rw [List.append_nil] at hnodup
    -- nobody has moved the dependents of an old base before its pair
    have hdeps : ∀ d ∈ Table.vec s.delta_index old, ∃ e, s.indexObj.lookup d = some e ∧
        s.files.lookup (true, e.containerName) ≠ none := by
      intro d hd
      obtain ⟨e, he, hdelta, hbase⟩ := (hlisted d).mp (List.mem_append_left _ hd)
      have hlook := (entry_lookup _ d e).mp he
      refine ⟨e, hlook, (hdone d e hlook hdelta).resolve_right fun hhot => ?_⟩
      rw [hbase] at hhot
      exact hhot.2 new hrem
    unfold Easy_update_pair
    split
    · unfold greedyPair
      rw [hold, Option.bind_eq_bind, Option.bind_some]
      change (s.indexObj.lookup new).bind _ ≠ none
      rw [hnew]
      exact Option.some_ne_none _
    · unfold updatePair
      rw [hold, Option.bind_eq_bind, Option.bind_some]
      cases hc : Ocall_OneContainer old_recipe.containerName s with
      | none => exact Option.some_ne_none _
      | some s₁ =>
        obtain ⟨old_body, _, rfl⟩ := Option.map_eq_some_iff.mp hc
        dsimp only
        change (s.indexObj.lookup new).bind _ ≠ none
        rw [hnew, Option.bind_some]
        cases hc' : Ocall_OneContainer new_recipe.containerName
            (EraseSF (readContainer s old_body) old_recipe.superfeature) with
        | none => exact Option.some_ne_none _
        | some s₂ =>
          obtain ⟨new_body, _, rfl⟩ := Option.map_eq_some_iff.mp hc'
          dsimp only
          generalize offlineExpand env _ _ = old_chunk
          generalize offlineExpand env _ _ = new_chunk
          obtain ⟨r, hr⟩ := Option.ne_none_iff_exists'.mp
            (@updateDependents_some env (pairStart old old_recipe new_recipe new old_body new_body s)
              old_chunk new_chunk new (Table.vec s.delta_index old) true hnodup hdeps)
          change (updateDependents env old_chunk new_chunk new (Table.vec s.delta_index old) true
            (pairStart old old_recipe new_recipe new old_body new_body s)).bind _ ≠ none
          rw [hr]
          exact Option.some_ne_none _

end Reads

section Cold
variable {env : EnclaveEnv} {s s' : Server} {R : Records} {Lost : Fp → Prop} {a : Action}

theorem Online.coldOk (h : Online s) : ColdOk s ↔ ∀ name, s.cold_map.lookup name = none := by
  unfold ColdOk
  cases hphase : s.phase with
  | offline stage => exact absurd hphase (h stage)
  | _ => exact Iff.rfl

/-- A session leaves `_cold_map` alone. -/
theorem Stepped.online_cold (hinv : Inv env s R Lost) (h : Stepped env s a s') (honline : Online s)
    (hpass : ∀ order, a ≠ .processOff order) : Online s' ∧ s'.cold_map = s.cold_map := by
  cases h with
  | startSession _ => exact ⟨Online.of_eq rfl (by simp), rfl⟩
  | processOff _ _ => exact absurd rfl (hpass _)
  | uploadChunk _ _ => exact ⟨Online.of_eq rfl (by simp), rfl⟩
  | offlinedeltaTure _ =>
    obtain ⟨_, _, heq⟩ := OfflinedeltaTure_frame _ _ s
    exact ⟨Online.of_eq rfl (by simp), by rw [heq]⟩
  | @storeChunk x b _ =>
    obtain ⟨_, _, _, _, heq, _⟩ := storeChunk_frame env x s
    exact ⟨Online.of_eq rfl (by simp), by rw [heq]⟩
  | @endBatch b _ _ =>
    obtain ⟨_, _, _, heq⟩ := finishBatch_frame b s
    exact ⟨Online.of_eq rfl (by simp), by rw [heq]⟩
  | updateOutIndex hphase =>
    obtain ⟨_, _, heq, _⟩ := hinv.registered hphase
    exact ⟨Online.of_eq rfl (by simp), by rw [heq]⟩
  | uploadRecipeEnd _ => exact ⟨Online.of_eq rfl (by simp), rfl⟩
  | disconnect _ =>
    obtain ⟨_, _, _, heq, _⟩ := closeSession_frame s
    exact ⟨Online.of_eq rfl (by simp), by rw [heq]⟩
  | openFile _ _ _ => exact ⟨honline, rfl⟩
  | writeFile _ _ => exact ⟨honline, rfl⟩
  | closeFile _ _ => exact ⟨honline, rfl⟩
  | join _ _ _ => exact ⟨Online.of_eq rfl (by simp), rfl⟩
  | getLocal hphase _ _ => exact absurd hphase (honline _)
  | updatePair hphase _ _ => exact absurd hphase (honline _)
  | coldrevise hphase _ _ => exact absurd hphase (honline _)
  | updateCold hphase _ _ => exact absurd hphase (honline _)
  | getMergeContainer hphase => exact absurd hphase (honline _)
  | mergePair hphase _ => exact absurd hphase (honline _)
  | endOffline hphase => exact absurd hphase (honline _)

theorem OnDisk.insert {name : ContainerName} (h : OnDisk s name) (p : Path) (body : Bytes) :
    ∃ d, (s.files.insert p body).lookup (d, name) ≠ none := by
  obtain ⟨d, hd⟩ := h
  refine ⟨d, ?_⟩
  rw [Table.lookup_insert_ite]
  split
  · exact Option.some_ne_none _
  · exact hd

/-- The files of a pair that is merged are not those of another pair. -/
theorem mergePair_keeps {p : ContainerName × ContainerName}
    {rest : List (ContainerName × ContainerName)} {t : Server} (ht : mergePair p s = some t)
    (hdistinct : ((p :: rest).flatMap fun p => [p.1, p.2]).Nodup)
    (hfiles : ∀ q ∈ rest, s.files.lookup (false, q.1) ≠ none ∧ s.files.lookup (false, q.2) ≠ none) :
    ∀ q ∈ rest, t.files.lookup (false, q.1) ≠ none ∧ t.files.lookup (false, q.2) ≠ none := by
  obtain ⟨first, _, ht⟩ := Option.bind_eq_some_iff.mp ht
  obtain ⟨second, _, ht⟩ := Option.bind_eq_some_iff.mp ht
  rw [← Option.some.inj ht]
  rw [List.flatMap_cons] at hdistinct
  have hapart := (List.nodup_append.mp hdistinct).2.2
  have hkeep : ∀ q ∈ rest, ∀ name ∈ [q.1, q.2], s.files.lookup (false, name) ≠ none →
      ∀ body, ((s.files.insert (false, p.1) body).erase (false, p.2)).lookup (false, name) ≠ none := by
    intro q hq name hname hfile body
    have hmem : name ∈ rest.flatMap fun p => [p.1, p.2] := List.mem_flatMap.mpr ⟨q, hq, hname⟩
    have hne : (false, name) ≠ (false, p.2) := by
      intro heq
      exact hapart p.2 (by simp) name hmem (Prod.mk.inj heq).2.symm
    rw [Table.lookup_erase_ite, if_neg hne, Table.lookup_insert_ite]
    split
    · exact Option.some_ne_none _
    · exact hfile
  exact fun q hq => ⟨hkeep q hq q.1 (by simp) (hfiles q hq).1 _,
    hkeep q hq q.2 (by simp) (hfiles q hq).2 _⟩

/-- One step of a pass. -/
theorem ColdOk.pass_step (h : ColdOk s) (hinv : Inv env s R Lost) (hs : Stepped env s a s')
    (hpass : PassAction a) : ColdOk s' := by
  cases hs with
  | processOff hphase _ =>
    have hnone : ∀ name, s.cold_map.lookup name = none :=
      (Online.of_eq hphase (by simp)).coldOk.mp h
    unfold startOffline
    dsimp only
    split
    · intro name hname
      exact absurd (hnone name) hname
    · exact (Online.of_eq (s := { (Init (Ocall_Localrevise _ s)) with local_map := [] }) hphase
        (by simp)).coldOk.mpr hnone
  | getLocal hphase _ _ =>
    have hph : (Ocall_GetLocal s).phase = .offline .update := hphase
    unfold ColdOk at h ⊢
    rw [hphase] at h
    rw [hph]
    exact h
  | @updatePair old new t hphase _ ht =>
    have hph : t.phase = .offline .update := (Easy_update_pair_kept ht).phase.trans hphase
    unfold ColdOk at h ⊢
    rw [hphase] at h
    dsimp only
    rw [hph]
    exact (pairClosed_cold env new).Easy_update_pair h ht
  | coldrevise hphase _ _ =>
    unfold ColdOk at h
    rw [hphase] at h
    have hkeys : ∀ name, s.cold_map.lookup name ≠ none ↔ name ∈ s.cold_map.keys := by
      intro name
      rw [Ne, AList.lookup_eq_none, not_not, AList.mem_keys]
    split
    · refine ⟨fun name hname => (hkeys name).mp hname, fun name hname => ?_⟩
      exact (h name ((hkeys name).mpr hname)).insert _ _
    · exact ⟨fun name hname => (hkeys name).mp hname, fun name hname => h name ((hkeys name).mpr hname)⟩
  | @updateCold names containerName t hphase _ ht =>
    unfold ColdOk at h
    rw [hphase] at h
    obtain ⟨hmem, hdisk⟩ := h
    obtain ⟨⟨d, body⟩, _, ht⟩ := Option.bind_eq_some_iff.mp ht
    rw [← Option.some.inj ht]
    refine ⟨fun name hname => ?_, fun name hname => ?_⟩
    · change (s.cold_map.erase containerName).lookup name ≠ none at hname
      rw [Table.lookup_erase_ite] at hname
      split at hname
      · exact absurd rfl hname
      · next hne => exact (List.mem_erase_of_ne hne).mpr (hmem name hname)
    · exact (hdisk name (List.mem_of_mem_erase hname)).insert _ _
  | getMergeContainer hphase =>
    unfold ColdOk at h
    rw [hphase] at h
    refine ⟨fun name => ?_, fun p hp => ?_⟩
    · by_contra hne
      exact absurd (h.1 name hne) List.not_mem_nil
    · obtain ⟨x, y, hx, hy, _⟩ := (baseMergePair_spec (baseContainerList s)).2 p hp
      obtain ⟨_, hfirst, _⟩ := mem_baseContainerList.mp hx
      obtain ⟨_, hsecond, _⟩ := mem_baseContainerList.mp hy
      refine ⟨?_, ?_⟩
      · change s.files.lookup (false, p.1) ≠ none
        rw [hfirst]
        exact Option.some_ne_none _
      · change s.files.lookup (false, p.2) ≠ none
        rw [hsecond]
        exact Option.some_ne_none _
  | @mergePair p rest t hphase ht =>
    unfold ColdOk at h
    rw [hphase] at h
    obtain ⟨hnone, hfiles⟩ := h
    obtain ⟨_, _, hstage⟩ := hinv.at hphase
    cases hstage with
    | merge _ _ _ merge =>
      have hkeep := mergePair_keeps ht merge.distinct fun q hq =>
        hfiles q (List.mem_cons_of_mem p hq)
      refine ⟨?_, hkeep⟩
      obtain ⟨first, _, ht⟩ := Option.bind_eq_some_iff.mp ht
      obtain ⟨second, _, ht⟩ := Option.bind_eq_some_iff.mp ht
      rw [← Option.some.inj ht]
      exact hnone
  | endOffline hphase =>
    unfold ColdOk at h
    rw [hphase] at h
    exact (Online.of_eq (s := { s with phase := .idle }) rfl (by simp)).coldOk.mpr h.1
  | _ => exact absurd hpass id

/-- In every state that can be reached. -/
theorem Reachable.coldOk (h : Reachable env s) : (∃ R Lost, Inv env s R Lost) ∧ ColdOk s := by
  obtain ⟨Forward_Flag, Offline_Flag, acts, hrun⟩ := h
  have hstep : ∀ {s s' : Server} {a : Action}, ((∃ R Lost, Inv env s R Lost) ∧ ColdOk s) →
      step env s a = some s' → (∃ R Lost, Inv env s' R Lost) ∧ ColdOk s' := by
    rintro s s' a ⟨⟨R, Lost, hinv⟩, hcold⟩ hs
    refine ⟨hinv.step hs, ?_⟩
    obtain ⟨hstepped, _⟩ := step_stepped hs
    by_cases hpass : PassAction a
    · exact hcold.pass_step hinv hstepped hpass
    · have honline : Online s := by
        intro stage hphase
        exact hpass (hstepped.passAction (Or.inr ⟨stage, hphase⟩) (by
          rintro iv rfl
          cases hstepped with
          | startSession hidle => simp [hphase] at hidle))
      obtain ⟨honline', heq⟩ := hstepped.online_cold hinv honline (by
        rintro order rfl
        exact hpass trivial)
      rw [honline'.coldOk, heq]
      exact honline.coldOk.mp hcold
  refine runs_invariant hstep ⟨⟨_, _, Inv.start Forward_Flag Offline_Flag⟩, ?_⟩ hrun
  intro name
  rfl

end Cold

section Work
variable {env : EnclaveEnv} {s s' : Server} {a : Action}

theorem keys_foldl_insert (pairs : List (Fp × Fp)) (t : Table Fp Fp) :
    (pairs.foldl (fun m p => m.insert p.1 p.2) t).keys.length ≤ pairs.length + t.keys.length := by
  induction pairs generalizing t with
  | nil => simp
  | cons p pairs ih =>
    have hone : (t.insert p.1 p.2).keys.length ≤ t.keys.length + 1 := by
      rw [AList.keys_insert, List.length_cons]
      exact Nat.succ_le_succ (List.erase_sublist.length_le)
    rw [List.foldl_cons, List.length_cons]
    exact (ih _).trans (by omega)

/-- A step inside a pass leaves less to do. -/
theorem Stepped.passWork_lt (h : Stepped env s a s') {stage stage' : OfflineStage}
    (hphase : s.phase = .offline stage) (hphase' : s'.phase = .offline stage') :
    passWork s' < passWork s := by
  have hwork : ∀ {t : Server} {n m : ℕ}, passWork t = toLex (n, m) → ∀ {n' m' : ℕ},
      passWork s = toLex (n', m') → n < n' ∨ (n = n' ∧ m < m') → passWork t < passWork s := by
    intro t n m ht n' m' hs hlt
    rw [ht, hs, Prod.Lex.toLex_lt_toLex]
    exact hlt
  have hnow : ∀ {stage₁}, s.phase = .offline stage₁ →
      passWork s = passWork { s with phase := .offline stage₁ } := by
    intro stage₁ heq
    rw [← heq]
  cases h with
  | getLocal hupdate hdone hmore =>
    have hph : (Ocall_GetLocal s).phase = .offline .update := hupdate
    have hafter : passWork (Ocall_GetLocal s) = toLex (2, 2 * (Ocall_GetLocal s).local_map.length +
        (Ocall_GetLocal s).local_basemap.keys.length) := by
      unfold passWork
      rw [hph]
    refine hwork hafter (hnow hupdate) (Or.inr ⟨rfl, ?_⟩)
    have hpos : 0 < s.local_map.length := List.length_pos_iff.mpr hmore
    have hkeys := keys_foldl_insert
      (s.local_map.reverse.take (min s.local_map.length Local_Batch)) ∅
    rw [List.length_take, List.length_reverse, AList.keys_empty, List.length_nil] at hkeys
    have hlocal : (Ocall_GetLocal s).local_map.length =
        s.local_map.length - min s.local_map.length Local_Batch := by
      change (s.local_map.take _).length = _
      rw [List.length_take]
      omega
    have hbatch : 0 < Local_Batch := by decide
    have hbase : (Ocall_GetLocal s).local_basemap.keys.length ≤
        min (min s.local_map.length Local_Batch) s.local_map.length := hkeys
    change _ < 2 * s.local_map.length + s.local_basemap.keys.length
    omega
  | @updatePair old new t hupdate hpair ht =>
    have hph : t.phase = .offline .update := (Easy_update_pair_kept ht).phase.trans hupdate
    obtain ⟨hmap, hbase⟩ := (passClosed_pending env s).Easy_update_pair ⟨rfl, rfl⟩ ht
    have hafter : passWork { t with local_basemap := t.local_basemap.erase old } =
        toLex (2, 2 * s.local_map.length + (s.local_basemap.erase old).keys.length) := by
      unfold passWork
      dsimp only
      rw [hph, hmap, hbase]
    refine hwork hafter (hnow hupdate) (Or.inr ⟨rfl, ?_⟩)
    have hmem : old ∈ s.local_basemap.keys := by
      rw [← AList.mem_keys, ← AList.lookup_isSome, hpair]
      rfl
    have hpos := List.length_pos_of_mem hmem
    rw [AList.keys_erase, List.length_erase_of_mem hmem]
    change _ < 2 * s.local_map.length + s.local_basemap.keys.length
    omega
  | coldrevise hupdate _ _ => exact hwork rfl (hnow hupdate) (Or.inl Nat.one_lt_two)
  | @updateCold names containerName t hcold hname _ =>
    refine hwork rfl (hnow hcold) (Or.inr ⟨rfl, ?_⟩)
    have hpos := List.length_pos_of_mem hname
    rw [List.length_erase_of_mem hname]
    exact Nat.sub_lt hpos Nat.one_pos
  | getMergeContainer hcold => exact hwork rfl (hnow hcold) (Or.inl Nat.zero_lt_one)
  | mergePair hmerge _ => exact hwork rfl (hnow hmerge) (Or.inr ⟨rfl, Nat.lt_succ_self _⟩)
  | endOffline _ => simp at hphase'
  | startSession hidle | processOff hidle _ => simp [hphase] at hidle
  | uploadChunk hup _ | offlinedeltaTure hup | storeChunk hup | endBatch hup _ | updateOutIndex hup
  | uploadRecipeEnd hup | join hup _ _ => simp [hphase] at hup
  | disconnect hup => simp [hphase] at hup
  | openFile hw _ _ | writeFile hw _ | closeFile hw _ =>
    rcases hw with ⟨up, hup⟩ | hup
    · simp [hphase] at hup
    · simp [hphase] at hup

/-- There is no endless pass. -/
theorem no_endless_pass {states : ℕ → Server} {acts : ℕ → Action}
    (hs : ∀ n, step env (states n) (acts n) = some (states (n + 1)))
    (hpass : ∀ n, ∃ stage, (states n).phase = .offline stage) : False := by
  have hlt : ∀ n, passWork (states (n + 1)) < passWork (states n) := by
    intro n
    obtain ⟨stage, hphase⟩ := hpass n
    obtain ⟨stage', hphase'⟩ := hpass (n + 1)
    exact (step_stepped (hs n)).1.passWork_lt hphase hphase'
  exact not_strictAnti_of_wellFoundedLT (fun n => passWork (states n)) (strictAnti_nat_of_succ_lt hlt)

end Work

section Located
variable {env : EnclaveEnv} {s s' : Server} {R R' : Records} {Lost Lost' : Fp → Prop}

/-- The containers that the index leads to have records. -/
def Located (s : Server) (R : Records) : Prop :=
  ∀ fp e, s.indexObj.lookup fp = some e → R (pathOf e) ≠ none

theorem FilesThere.located (hthere : FilesThere s) (h : Inv env s R Lost) : Located s R :=
  fun fp e he => h.denotes (Or.inl (hthere fp e he))

theorem Located.filesThere (h : Located s R) (hinv : Inv env s R Lost) (hidle : s.phase = .idle) :
    FilesThere s := by
  intro fp e he
  obtain ⟨rs, hrs⟩ := Option.ne_none_iff_exists'.mp (h fp e he)
  rw [(hinv.requested hidle hrs).1]
  exact Option.some_ne_none _

/-- An entry that leads to a container is that of one of its records. -/
theorem Located.nonempty (h : Located s R) {times : Nat}
    {cold : Table ContainerName (List (UInt32 × UInt32))}
    (hindexed : Indexed (Entry s.indexObj []) cold times R) {fp : Fp} {e : RecipeEntry}
    (he : s.indexObj.lookup fp = some e) : ∃ rs, R (pathOf e) = some rs ∧ rs ≠ [] := by
  obtain ⟨rs, hrs⟩ := Option.ne_none_iff_exists'.mp (h fp e he)
  obtain ⟨r, hmem, _⟩ := hindexed.entry (Or.inl he) hrs
  exact ⟨rs, hrs, List.ne_nil_of_mem hmem⟩

/-- During the pairs of a pass: the deltas are in files or in the hot container, and the other
entries are the ones from before. -/
theorem Located.update (h : Located s R) (hgrows : Grows R R') (hinv : Inv env s' R' Lost')
    (hphase : s'.phase = .offline .update) (hdone : HotDone s')
    (hwhole : ∀ fp e, s'.indexObj.lookup fp = some e →
      e.deltaFlag = DELTA ∨ s.indexObj.lookup fp = some e) : Located s' R' := by
  intro fp e he
  rcases hwhole fp e he with hdelta | hold
  · have hpath : pathOf e = (true, e.containerName) := by
      unfold pathOf
      rw [decide_eq_true hdelta]
    rw [hpath]
    apply hinv.denotes
    rcases hdone fp e he hdelta with hfile | ⟨hhot, _⟩
    · exact Or.inl hfile
    · refine Or.inr (Or.inr (Or.inr ?_))
      rw [hphase, hhot]
      change hotOpens s' (true, s'.hot_container.containerID) ≠ none
      rw [hotOpens_self]
      exact Option.some_ne_none _
  · exact hgrows.ne_none (h fp e hold)

/-- Compaction and merging take the entries to where the records went. -/
theorem Relocation.located {indexObj indexObj' : FpIndex}
    {cold : Table ContainerName (List (UInt32 × UInt32))} {times : Nat} {p q : Path}
    {kept base : List ChunkRecord} (hr : Relocation (Entry indexObj []) cold R p q kept base)
    (h : Indexed (Entry indexObj []) cold times R) (hok : RecordsOk env times R)
    (hlocated : ∀ fp e, indexObj.lookup fp = some e → R (pathOf e) ≠ none)
    (hindex : indexObj' = indexRecords indexObj (repack q.2 (layout base).length kept)) {fp : Fp}
    {e : RecipeEntry} (he : indexObj'.lookup fp = some e) :
    Relocation.records R p q kept base (pathOf e) ≠ none := by
  unfold Relocation.records
  by_cases hq : pathOf e = q
  · rw [hq, Function.update_self]
    exact Option.some_ne_none _
  · rw [hindex] at he
    rcases (hr.lookup h hok (entry_lookup indexObj) _ fp e).mp he with
      ⟨r', hr', _, rfl⟩ | ⟨hold, hpath⟩
    · obtain ⟨r, hmem, off', _, rfl⟩ := mem_repack hr'
      refine absurd ?_ hq
      refine Prod.ext ?_ rfl
      rw [hr.dir, ← hr.kept_path hok hmem]
      rfl
    · rw [Function.update_of_ne hq, Function.update_of_ne hpath]
      exact hlocated fp e ((entry_lookup indexObj fp e).mp hold)

end Located

section Ends
variable {env : EnclaveEnv} {s s' t : Server} {R : Records} {Lost : Fp → Prop} {a : Action}

/-- During a pass, from when its containers were all there. -/
structure Passed (env : EnclaveEnv) (s : Server) : Prop where
  located : ∃ R Lost, Inv env s R Lost ∧ Located s R
  cold : ColdOk s
  after : Afterwards s
  hot : s.phase = .offline .update → HotDone s

/-- The pairs that are taken to `local_basemap` are some of those that remain. -/
theorem rem_getLocal {o n : Fp}
    (h : Rem (Ocall_GetLocal s).local_basemap (Ocall_GetLocal s).local_map o n) :
    Rem s.local_basemap s.local_map o n := by
  have hlook : ∀ o n, (Ocall_GetLocal s).local_basemap.lookup o = some n →
      (o, n) ∈ s.local_map := by
    apply Table.lookup_foldl_insert
    · intro o n ho
      simp at ho
    · intro p hp
      exact List.mem_reverse.mp (List.mem_of_mem_take hp)
  rcases h with h | h
  · exact Or.inr (hlook o n h)
  · exact Or.inr (List.mem_of_mem_take h)

/-- The hot container of a pass in progress holds no delta that a later pair reads. -/
theorem HotDone.pass_step (hinv : Inv env s R Lost) (hidle : s.phase = .idle → FilesThere s)
    (hhot : s.phase = .offline .update → HotDone s) (hs : Stepped env s a s')
    (hupdate : s'.phase = .offline .update) (hpass : PassAction a) : HotDone s' := by
  cases hs with
  | @processOff order hphase _ =>
    have hfiles : (startOffline order s).files = s.files := by
      unfold startOffline
      dsimp only
      split <;> rfl
    intro fp e he hdelta
    rw [startOffline_indexObj] at he
    rw [hfiles]
    have hthere := hidle hphase fp e he
    have hpath : pathOf e = (true, e.containerName) := by
      unfold pathOf
      rw [decide_eq_true hdelta]
    rw [hpath] at hthere
    exact Or.inl hthere
  | getLocal hphase _ _ =>
    intro fp e he hdelta
    exact (hhot hphase fp e he hdelta).imp_right fun ⟨hname, hdone⟩ =>
      ⟨hname, fun n hrem => hdone n (rem_getLocal hrem)⟩
  | @updatePair old new t hphase hpair ht =>
    obtain ⟨_, _, hstage⟩ := hinv.at hphase
    cases hstage with
    | update _ remaining =>
      have hclosed := @pairClosed_hot env (fun b => ∀ n, ¬Rem s.local_basemap s.local_map b n) new
        fun n hrem => remaining.apart (Or.inl hpair) hrem rfl
      obtain ⟨hmap, hbase⟩ := (passClosed_pending env s).Easy_update_pair ⟨rfl, rfl⟩ ht
      intro fp e he hdelta
      refine (hclosed.Easy_update_pair (hhot hphase) ht fp e he hdelta).imp_right ?_
      rintro ⟨hname, hdone⟩
      refine ⟨hname, fun n hrem => hdone n ?_⟩
      change Rem (t.local_basemap.erase old) t.local_map e.basechunkHash n at hrem
      rw [hmap, hbase] at hrem
      rcases hrem with hrem | hrem
      · rw [Table.lookup_erase_ite] at hrem
        split at hrem
        · simp at hrem
        · exact Or.inl hrem
      · exact Or.inr hrem
  | coldrevise _ _ _ => simp at hupdate
  | updateCold _ _ _ => simp at hupdate
  | getMergeContainer _ => simp at hupdate
  | mergePair _ _ => simp at hupdate
  | endOffline _ => simp at hupdate
  | _ => exact absurd hpass id

/-- The containers that the index leads to stay with it. -/
theorem Located.pass_step (h : Inv env s R Lost) (hlocated : Located s R) (hpass : PassAction a)
    (hs : step env s a = some s') (hdone : s'.phase = .offline .update → HotDone s') :
    ∃ R' Lost', Inv env s' R' Lost' ∧ Located s' R' := by
  obtain ⟨hstepped, htimes⟩ := step_stepped hs
  cases hstepped with
  | @processOff order hphase horder =>
    rw [startOffline_con_times] at htimes
    obtain ⟨R', hinv', hgrows⟩ := processOff_opens h hphase horder htimes
    refine ⟨R', Lost, hinv', fun fp e he => ?_⟩
    rw [startOffline_indexObj] at he
    exact hgrows.ne_none (hlocated fp e he)
  | getLocal hphase _ _ => exact ⟨R, Lost, getLocal_inv h hphase, hlocated⟩
  | @updatePair old new t hphase hpair ht =>
    obtain ⟨R', Lost', hinv', hstored, _⟩ := updatePair_inv h hphase hpair ht htimes
    have hupdate : t.phase = .offline .update := (Easy_update_pair_kept ht).phase.trans hphase
    have hwhole := (pairClosed_whole env s new).Easy_update_pair (fun _ _ he => Or.inr he) ht
    exact ⟨R', Lost', hinv', hlocated.update hstored.grows hinv' hupdate (hdone hupdate) hwhole⟩
  | coldrevise hphase _ hlast =>
    obtain ⟨_, hstores, _⟩ := h.at hphase
    obtain ⟨R', hinv', hkeep, _⟩ := coldrevise_inv h hphase hlast
    refine ⟨R', Lost, hinv', fun fp e he => ?_⟩
    have hindex : (if s.hot_container.buf.length ≠ 0 then Ocall_SavehotContainer s
        else s).indexObj = s.indexObj := by
      split <;> rfl
    dsimp only at he
    rw [hindex] at he
    -- only a container without records is dropped
    obtain ⟨rs, hrs, hne⟩ := hlocated.nonempty hstores.indexed he
    rw [hkeep _ rs hrs hne]
    exact Option.some_ne_none rs
  | @updateCold names containerName t hphase _ ht =>
    obtain ⟨_, hstores, _⟩ := h.at hphase
    obtain ⟨d, kept, hreloc, hinv', hindex⟩ := updateCold_relocates h hphase ht
    exact ⟨_, Lost, hinv', fun fp e he =>
      hreloc.located hstores.indexed hstores.holds.ok hlocated hindex he⟩
  | getMergeContainer hphase => exact ⟨R, Lost, getMergeContainer_inv h hphase, hlocated⟩
  | mergePair hphase ht =>
    obtain ⟨_, hstores, _⟩ := h.at hphase
    obtain ⟨first, rs, hreloc, hinv', hindex⟩ := mergePair_relocates h hphase ht
    exact ⟨_, Lost, hinv', fun fp e he =>
      hreloc.located hstores.indexed hstores.holds.ok hlocated hindex he⟩
  | endOffline hphase => exact ⟨R, Lost, endOffline_inv h hphase, hlocated⟩
  | _ => exact absurd hpass id

theorem Passed.step (h : Passed env s) (hs : step env s a = some s')
    (hstart : ∀ iv, a ≠ .startSession iv) : Passed env s' := by
  obtain ⟨R, Lost, hinv, hlocated⟩ := h.located
  obtain ⟨hstepped, _⟩ := step_stepped hs
  have hpass := hstepped.passAction h.after hstart
  have hdone : s'.phase = .offline .update → HotDone s' := fun hupdate =>
    HotDone.pass_step hinv (hlocated.filesThere hinv) h.hot hstepped hupdate hpass
  exact ⟨hlocated.pass_step hinv hpass hs hdone, h.cold.pass_step hinv hstepped hpass,
    (hstepped.pass_keys hinv h.after hstart).2, hdone⟩

/-- Nothing that a loop goes on with is missing. -/
theorem Passed.goesOn (h : Passed env s) : PassGoesOn env s := by
  obtain ⟨R, Lost, hinv, _⟩ := h.located
  have hcold := h.cold
  unfold PassGoesOn
  unfold ColdOk at hcold
  cases hphase : s.phase with
  | offline stage =>
    rw [hphase] at hcold
    cases stage with
    | update => exact fun old new hpair => Easy_update_pair_some hinv hphase (h.hot hphase) hpair
    | cold names =>
      intro containerName hname
      obtain ⟨d, hd⟩ := hcold.2 containerName hname
      obtain ⟨r, hr⟩ : ∃ r, Ocall_OneColdContainer containerName s = some r := by
        unfold Ocall_OneColdContainer
        cases hfile : s.files.lookup (true, containerName) with
        | some body => exact ⟨_, rfl⟩
        | none =>
          cases d with
          | true => exact absurd hfile hd
          | false =>
            obtain ⟨body, hbody⟩ := Option.ne_none_iff_exists'.mp hd
            rw [hbody]
            exact ⟨_, rfl⟩
      unfold Update_cold_container
      rw [hr]
      exact Option.some_ne_none _
    | merge pairs =>
      intro p hp
      obtain ⟨hfirst, hsecond⟩ := hcold.2 p hp
      obtain ⟨first, hfirst⟩ := Option.ne_none_iff_exists'.mp hfirst
      obtain ⟨second, hsecond⟩ := Option.ne_none_iff_exists'.mp hsecond
      unfold mergePair
      rw [hfirst, hsecond]
      exact Option.some_ne_none _
  | _ => trivial

theorem stepAny_offline {stage : OfflineStage} (hphase : s.phase = .offline stage) (a : Action) :
    stepAny env s a = stepOffline env s stage a := by
  unfold stepAny
  rw [hphase]

/-- A pass that has not ended has a next step. -/
theorem PassGoesOn.next (h : PassGoesOn env s) {stage : OfflineStage}
    (hphase : s.phase = .offline stage) :
    ∃ a s', stepAny env s a = some s' ∧ ∀ iv, a ≠ .startSession iv := by
  unfold PassGoesOn at h
  rw [hphase] at h
  simp only [stepAny_offline hphase]
  cases stage with
  | update =>
    by_cases hdone : s.local_basemap.entries = []
    · by_cases hlast : s.local_map = []
      · exact ⟨.coldrevise, _, if_pos ⟨hdone, hlast⟩, by simp⟩
      · exact ⟨.getLocal, _, if_pos ⟨hdone, hlast⟩, by simp⟩
    · obtain ⟨p, hp⟩ := List.exists_mem_of_ne_nil _ hdone
      have hpair : s.local_basemap.lookup p.1 = some p.2 := AList.mem_lookup_iff.mpr hp
      obtain ⟨t, ht⟩ := Option.ne_none_iff_exists'.mp (h p.1 p.2 hpair)
      refine ⟨.updatePair p.1, { t with local_basemap := t.local_basemap.erase p.1 }, ?_, by simp⟩
      change (s.local_basemap.lookup p.1).bind _ = _
      rw [hpair, Option.bind_some]
      change (Easy_update_pair env p.1 p.2 s).bind _ = _
      rw [ht]
      rfl
  | cold names =>
    cases names with
    | nil => exact ⟨.getMergeContainer, _, rfl, by simp⟩
    | cons containerName names =>
      obtain ⟨t, ht⟩ := Option.ne_none_iff_exists'.mp (h containerName List.mem_cons_self)
      refine ⟨.updateCold containerName,
        { t with phase := .offline (.cold ((containerName :: names).erase containerName)) }, ?_,
        by simp⟩
      change (if containerName ∈ containerName :: names then
        (Update_cold_container containerName s).bind _ else none) = _
      rw [if_pos List.mem_cons_self, ht]
      rfl
  | merge pairs =>
    cases pairs with
    | nil => exact ⟨.endOffline, _, rfl, by simp⟩
    | cons p rest =>
      obtain ⟨t, ht⟩ := Option.ne_none_iff_exists'.mp (h p List.mem_cons_self)
      refine ⟨.mergePair, { t with phase := .offline (.merge rest) }, ?_, by simp⟩
      change (mergePair p s).bind _ = _
      rw [ht]
      rfl

/-- A pass can be brought to its end, unless `con_times` runs out of its range first. -/
theorem pass_finishes (h : Passed env s) : ∃ more t, runs (step env) s more = some t ∧
    (t.phase = .idle ∨ ∃ a t', stepAny env t a = some t' ∧ ¬t'.con_times < 2 ^ 31) := by
  obtain ⟨w, hw⟩ : ∃ w, w = passWork s := ⟨_, rfl⟩
  induction w using WellFoundedLT.induction generalizing s with
  | ind w ih =>
    rcases h.after with hidle | ⟨stage, hphase⟩
    · exact ⟨[], s, rfl, Or.inl hidle⟩
    · obtain ⟨a, s', hany, hstart⟩ := h.goesOn.next hphase
      by_cases htimes : s'.con_times < 2 ^ 31
      · have hs : step env s a = some s' := by
          unfold step
          rw [hany]
          exact Option.filter_eq_some_iff.mpr ⟨rfl, by simpa using htimes⟩
        have h' := h.step hs hstart
        rcases h'.after with hidle' | ⟨stage', hphase'⟩
        · exact ⟨[a], s', by rw [runs_cons]; exact ⟨s', hs, rfl⟩, Or.inl hidle'⟩
        · obtain ⟨more, t, hrun, hend⟩ := ih (passWork s')
            (by rw [hw]; exact (step_stepped hs).1.passWork_lt hphase hphase') h' rfl
          exact ⟨a :: more, t, runs_cons.mpr ⟨s', hs, hrun⟩, hend⟩
      · exact ⟨[], s, rfl, Or.inr ⟨a, s', hany, htimes⟩⟩

/-- From a state whose containers are there, in every state that passes lead to: whichever pair,
container or pair of containers a loop takes next, it finds the files and entries that it reads; the
pass can be finished; and no pass goes on for ever. -/
theorem pass_ends {acts : List Action} (h : Reachable env s) (hidle : s.phase = .idle)
    (hthere : FilesThere s) (hacts : ∀ iv, .startSession iv ∉ acts)
    (hrun : runs (step env) s acts = some t) :
    PassGoesOn env t ∧
      (∃ more u, runs (step env) t more = some u ∧
        (u.phase = .idle ∨ ∃ a u', stepAny env u a = some u' ∧ ¬u'.con_times < 2 ^ 31)) ∧
      ¬∃ (states : ℕ → Server) (taken : ℕ → Action), states 0 = t ∧
        ∀ n, step env (states n) (taken n) = some (states (n + 1)) ∧
          ∃ stage, (states n).phase = .offline stage := by
  obtain ⟨⟨R, Lost, hinv⟩, hcold⟩ := h.coldOk
  have hstart : Passed env s :=
    ⟨⟨R, Lost, hinv, hthere.located hinv⟩, hcold, Or.inl hidle, by simp [hidle]⟩
  have hpassed : Passed env t := by
    refine @runs_preserve _ _ (step env) (Passed env) (fun _ a => ∀ iv, a ≠ .startSession iv)
      (fun hp ha hs => hp.step hs ha) s t acts hstart
      (stepsMeet_of_forall (fun _ a ha => ?_) s) hrun
    rintro iv rfl
    exact hacts iv ha
  refine ⟨hpassed.goesOn, pass_finishes hpassed, ?_⟩
  rintro ⟨states, taken, _, hall⟩
  exact no_endless_pass (fun n => (hall n).1) fun n => (hall n).2

end Ends

/-- In the middle of a pass: the pair is done, the containers are still to be compacted. -/
theorem pass_ends_halfway : ∃ s t,
    runs (step firstByteEnv) (Server.start false true) twoBackups = some s ∧
    runs (step firstByteEnv) s (wholePass.take 4) = some t ∧
    PassGoesOn firstByteEnv t ∧
      (∃ more u, runs (step firstByteEnv) t more = some u ∧
        (u.phase = .idle ∨
          ∃ a u', stepAny firstByteEnv u a = some u' ∧ ¬u'.con_times < 2 ^ 31)) ∧
      ¬∃ (states : ℕ → Server) (taken : ℕ → Action), states 0 = t ∧
        ∀ n, step firstByteEnv (states n) (taken n) = some (states (n + 1)) ∧
          ∃ stage, (states n).phase = .offline stage := by
  have hbefore : ((runs (step firstByteEnv) (Server.start false true) twoBackups).map fun s =>
      (s.phase, decide (FilesThere s))) = some (.idle, true) := by
    decide +kernel
  have hafter : (runs (step firstByteEnv) (Server.start false true)
      (twoBackups ++ wholePass.take 4)).isSome = true := by
    decide +kernel
  obtain ⟨s, hs, heq⟩ := Option.map_eq_some_iff.mp hbefore
  obtain ⟨t, ht⟩ := Option.isSome_iff_exists.mp hafter
  simp only [Prod.mk.injEq, decide_eq_true_eq] at heq
  obtain ⟨hidle, hthere⟩ := heq
  obtain ⟨s', hs', hpass⟩ := runs_append.mp ht
  rw [hs, Option.some.injEq] at hs'
  rw [← hs'] at hpass
  exact ⟨s, t, hs, hpass, pass_ends ⟨false, true, twoBackups, hs⟩ hidle hthere
    (by simp [wholePass]) hpass⟩

end ShieldReduce.Prototype
