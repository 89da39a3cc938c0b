import ShieldReduce.Prototype.Database
import ShieldReduce.Prototype.SessionEnd

/-!
# Server lifetimes

A clean restart ends the process between two sessions or passes. The next process has the container
files and what `OpenDB` reads; everything else starts anew.
-/

namespace ShieldReduce.Prototype
open Lib Store EDelta

/-- A process, with the keys and the hash functions of its enclave. -/
structure Process where
  env : EnclaveEnv
  server : Server

inductive LifeAction
  | act (a : Action)
  /-- Ctrl+C and a new start. The destructor's loops come to the pairs in the order `o`. -/
  | restart (env : EnclaveEnv) (Forward_Flag Offline_Flag : Bool) (o : DumpOrder)

def restartServer (Forward_Flag Offline_Flag : Bool) (o : DumpOrder) (s : Server) : Server :=
  let d := OpenDB (closeDB o)
  { Server.start Forward_Flag Offline_Flag with
    indexObj := d.indexObj
    sfObj := d.sfObj
    delta_index := d.delta_index
    local_tmp_map := d.local_tmp_map
    skipMap := d.skipMap
    local_map := d.local_map
    files := s.files }

instance (o : DumpOrder) (d : Database) : Decidable (o.Of d) :=
  decidable_of_iff
    (o.indexObj.Perm (Table.pairs d.indexObj) ∧ ∀ i, (o.sfObj i).Perm (Table.pairs (d.sfObj i)))
    ⟨fun h => ⟨h.1, h.2⟩, fun h => ⟨h.indexObj, h.sfObj⟩⟩

def lifeStep (l : Process) : LifeAction → Option Process
  | .act a => (step l.env l.server a).map fun s => ⟨l.env, s⟩
  | .restart env Forward_Flag Offline_Flag o =>
    if l.server.phase = .idle ∧ o.Of l.server.database then
      some ⟨env, restartServer Forward_Flag Offline_Flag o l.server⟩
    else none

/-- What any number of sessions, offline passes and restarts leads to. -/
def LifeReachable (l : Process) : Prop :=
  ∃ env Forward_Flag Offline_Flag acts,
    runs lifeStep ⟨env, Server.start Forward_Flag Offline_Flag⟩ acts = some l

section Postings

/-- No key has an empty posting list. -/
def Listed (t : Table Fp (List Fp)) : Prop :=
  ∀ key postings, t.lookup key = some postings → postings ≠ []

theorem Listed.empty : Listed ∅ := by
  intro key postings h
  rw [AList.lookup_empty] at h
  simp at h

theorem Listed.push {t : Table Fp (List Fp)} (h : Listed t) (key fp : Fp) :
    Listed (Table.push t key fp) := by
  intro key' postings hlook
  unfold Table.push at hlook
  rw [Table.lookup_insert_ite] at hlook
  by_cases hkey : key' = key
  · rw [if_pos hkey, Option.some.injEq] at hlook
    rw [← hlook]
    simp
  · rw [if_neg hkey] at hlook
    exact h key' postings hlook

theorem Listed.erase {t : Table Fp (List Fp)} (h : Listed t) (key : Fp) : Listed (t.erase key) := by
  intro key' postings hlook
  rw [Table.lookup_erase_ite] at hlook
  by_cases hkey : key' = key
  · rw [if_pos hkey] at hlook
    simp at hlook
  · rw [if_neg hkey] at hlook
    exact h key' postings hlook

variable {env : EnclaveEnv} {s s' : Server}

theorem Ocall_UpdateOutIndex_listed (entries : List QueryEntry) (h : ∀ i, Listed (s.sfObj i))
    (i : Fin 3) : Listed ((Ocall_UpdateOutIndex entries s).sfObj i) := by
  induction entries generalizing s with
  | nil => exact h i
  | cons x entries ih =>
    change Listed ((Ocall_UpdateOutIndex entries (updateOutIndexEntry s x)).sfObj i)
    apply ih
    intro j
    unfold updateOutIndexEntry
    split
    · exact (h j).push _ _
    · exact h j

theorem passClosed_listed (env : EnclaveEnv) : PassClosed env fun s => ∀ i, Listed (s.sfObj i) where
  read _ h := h
  size _ h := h
  erase sf h i := (h i).erase (sfKey sf i)
  replace sf fp h i := ((h i).erase (sfKey sf i)).push _ fp
  query _ h := h
  store chunkHash newBase recipe new_delta fp sf iv h := by
    rw [(storeHot_indexes env chunkHash newBase recipe new_delta fp sf iv _).2.1]
    exact h

theorem step_listed {a : Action} (h : ∀ i, Listed (s.sfObj i)) (hs : step env s a = some s')
    (i : Fin 3) : Listed (s'.sfObj i) := by
  obtain ⟨hstepped, _⟩ := step_stepped hs
  cases hstepped with
  | processOff _ _ =>
    unfold startOffline
    dsimp only
    split <;> exact h i
  | offlinedeltaTure hph =>
    obtain ⟨c, t, hframe⟩ := OfflinedeltaTure_frame _ _ s
    rw [hframe]
    exact h i
  | storeChunk hph =>
    obtain ⟨q, o, t, n, hframe, _⟩ := storeChunk_frame env _ s
    rw [hframe]
    exact h i
  | endBatch hph _ =>
    obtain ⟨di, tmp, skip, hframe⟩ := finishBatch_frame _ s
    rw [hframe]
    exact h i
  | updateOutIndex _ => exact Ocall_UpdateOutIndex_listed _ h i
  | disconnect _ =>
    obtain ⟨q, o, t, hframe, _⟩ := closeSession_frame s
    rw [hframe]
    exact h i
  | updatePair _ _ ht => exact (passClosed_listed env).Easy_update_pair h ht i
  | coldrevise _ _ _ =>
    dsimp only
    split <;> exact h i
  | updateCold _ _ ht =>
    obtain ⟨x, _, ht⟩ := Option.bind_eq_some_iff.mp ht
    rw [← Option.some.inj ht]
    exact h i
  | mergePair _ ht =>
    obtain ⟨first, _, ht⟩ := Option.bind_eq_some_iff.mp ht
    obtain ⟨second, _, ht⟩ := Option.bind_eq_some_iff.mp ht
    rw [← Option.some.inj ht]
    exact h i
  | _ => exact h i

theorem lifeStep_listed {l l' : Process} {a : LifeAction} (h : ∀ i, Listed (l.server.sfObj i))
    (hs : lifeStep l a = some l') (i : Fin 3) : Listed (l'.server.sfObj i) := by
  cases a with
  | act a =>
    obtain ⟨t, ht, rfl⟩ := Option.map_eq_some_iff.mp hs
    exact step_listed h ht i
  | restart env Forward_Flag Offline_Flag o =>
    unfold lifeStep at hs
    dsimp only at hs
    split at hs
    case isTrue hc =>
      rw [← Option.some.inj hs]
      intro key postings hlook
      change ((OpenDB (closeDB o)).sfObj i).lookup key = some postings at hlook
      rw [OpenDB_sfObj hc.2 i (h i) key] at hlook
      exact h i key postings hlook
    · simp at hs

theorem LifeReachable.listed {l : Process} (h : LifeReachable l) (i : Fin 3) :
    Listed (l.server.sfObj i) := by
  obtain ⟨env, Forward_Flag, Offline_Flag, acts, hrun⟩ := h
  have hall : ∀ i, Listed (l.server.sfObj i) :=
    runs_invariant (fun h hs => lifeStep_listed h hs) (fun _ => Listed.empty) hrun
  exact hall i

/-- The database survives exactly when there is nothing but its two indexes to survive. -/
theorem reopened_same {l : Process} (h : LifeReachable l) {o : DumpOrder}
    (ho : o.Of l.server.database) :
    Database.Same l.server.database (OpenDB (closeDB o)) ↔
      (∀ fp, l.server.delta_index.lookup fp = none) ∧
        (∀ fp, l.server.local_tmp_map.lookup fp = none) ∧
          (∀ fp, l.server.skipMap.lookup fp = none) ∧ l.server.local_map = [] :=
  OpenDB_same ho h.listed

end Postings

/-- The loops in the order of the tables. -/
def DumpOrder.straight (d : Database) : DumpOrder :=
  ⟨Table.pairs d.indexObj, fun i => Table.pairs (d.sfObj i)⟩

theorem DumpOrder.straight_of (d : Database) : (DumpOrder.straight d).Of d :=
  ⟨List.Perm.refl _, fun _ => List.Perm.refl _⟩

theorem lifeRuns_acts {env : EnclaveEnv} {s s' : Server} {acts : List Action}
    (h : runs (step env) s acts = some s') :
    runs lifeStep ⟨env, s⟩ (acts.map .act) = some ⟨env, s'⟩ := by
  induction acts generalizing s with
  | nil =>
    rw [← Option.some.inj h]
    rfl
  | cons a acts ih =>
    obtain ⟨t, ht, hrest⟩ := runs_cons.mp h
    apply runs_cons.mpr
    exact ⟨⟨env, t⟩, by rw [lifeStep, ht]; rfl, ih hrest⟩

/-- After an upload that found no base the database comes back. -/
theorem reopened_same_whole : ∃ s,
    runs (step plainEnv) (Server.start false true)
      (.startSession (FixedBytes.fill 16 0) :: (uploadOne [65] ++ recipeEndOne)) = some s ∧
    Database.Same s.database (OpenDB (closeDB (DumpOrder.straight s.database))) := by
  have hrun : ((runs (step plainEnv) (Server.start false true)
      (.startSession (FixedBytes.fill 16 0) :: (uploadOne [65] ++ recipeEndOne))).map fun s =>
        (s.delta_index.keys, s.local_tmp_map.keys, s.skipMap.keys, s.local_map)) =
      some ([], [], [], []) := by
    decide +kernel
  obtain ⟨s, hs, heq⟩ := Option.map_eq_some_iff.mp hrun
  simp only [Prod.mk.injEq] at heq
  obtain ⟨hdelta, htmp, hskip, hlocal⟩ := heq
  have hreach : LifeReachable ⟨plainEnv, s⟩ := ⟨plainEnv, false, true, _, lifeRuns_acts hs⟩
  refine ⟨s, hs, (reopened_same hreach (DumpOrder.straight_of s.database)).mpr
    ⟨fun fp => ?_, fun fp => ?_, fun fp => ?_, hlocal⟩⟩
  · exact Table.lookup_of_keys_nil hdelta fp
  · exact Table.lookup_of_keys_nil htmp fp
  · exact Table.lookup_of_keys_nil hskip fp

/-- The second chunk waits as the new base of the first one, which the restart forgets. -/
theorem reopened_forgets : ∃ s,
    runs (step plainEnv) (Server.start false true)
      (.startSession (FixedBytes.fill 16 0) ::
        (uploadOne [65] ++ uploadOne [66] ++ recipeEndOne)) = some s ∧
    s.phase = .idle ∧
    ∀ o : DumpOrder, ¬Database.Same s.database (OpenDB (closeDB o)) := by
  have hrun : ((runs (step plainEnv) (Server.start false true)
      (.startSession (FixedBytes.fill 16 0) ::
        (uploadOne [65] ++ uploadOne [66] ++ recipeEndOne))).map fun s =>
        (s.phase, s.local_tmp_map.lookup (FixedBytes.read 32 [65] 0))) =
      some (.idle, some (FixedBytes.read 32 [66] 0)) := by
    decide +kernel
  obtain ⟨s, hs, heq⟩ := Option.map_eq_some_iff.mp hrun
  obtain ⟨hidle, hpending⟩ := Prod.mk.inj heq
  refine ⟨s, hs, hidle, fun o hsame => ?_⟩
  have hlook := hsame.local_tmp_map (FixedBytes.read 32 [65] 0)
  change (∅ : Table Fp Fp).lookup _ = s.local_tmp_map.lookup _ at hlook
  rw [hpending, AList.lookup_empty] at hlook
  simp at hlook

section Names

/-- A container with this directory and name is somewhere: on disk, with the writer thread, in its
queue or in the enclave. -/
def Denotes (s : Server) (p : Path) : Prop :=
  s.files.lookup p ≠ none ∨ queuedAt s.inputMQ p ≠ [] ∨ writingAt s.writer p ≠ none ∨
    opensIn s.phase s p ≠ none

/-- The offline pass rewrites a container that is there already. -/
def Rewrites : Action → Prop
  | .updateCold _ | .mergePair => True
  | _ => False

/-- The names a step draws, and the files it writes new containers to. -/
structure NewNames (s : Server) (a : Action) (s' : Server) : Prop where
  fresh : ∀ k, s.con_times ≤ k → k < s'.con_times → ∀ fp e, s.indexObj.lookup fp = some e →
    e.containerName ≠ CreateUUID k
  kept : ¬Rewrites a → ∀ p body, s.files.lookup p = some body →
    ∃ body', s'.files.lookup p = some body' ∧ body <+: body'

/-- The process has loaded nothing, and there are no container files. -/
def NothingLoaded (s : Server) : Prop :=
  (∀ fp, s.indexObj.lookup fp = none) ∧ (∀ i key, (s.sfObj i).lookup key = none) ∧
    ∀ p, s.files.lookup p = none

/-- While the counter is where every process starts it, a session or a pass starts only when the
process has loaded nothing. -/
def CounterFresh (l : Process) : LifeAction → Prop
  | .act (.startSession _) | .act (.processOff _) =>
    l.server.con_times = 1 → NothingLoaded l.server
  | _ => True

variable {env : EnclaveEnv} {s s' : Server} {R : Records} {Lost : Fp → Prop} {a : Action}

theorem Inv.denotes (h : Inv env s R Lost) {p : Path} (hp : Denotes s p) : R p ≠ none := by
  intro hnone
  have hplace := h.stores.holds.place p
  rw [hnone] at hplace
  obtain ⟨hopen, hqueue, hwriter, hfile⟩ := hplace.of_absent
  rcases hp with hp | hp | hp | hp
  · exact hp hfile
  · exact hp hqueue
  · exact hp hwriter
  · exact hp hopen

theorem Inv.one_directory (h : Inv env s R Lost) (name : ContainerName) :
    ¬(Denotes s (false, name) ∧ Denotes s (true, name)) := by
  rintro ⟨hbase, hdelta⟩
  obtain ⟨rs, hrs⟩ := Option.ne_none_iff_exists'.mp (h.denotes hdelta)
  exact h.denotes hbase (h.stores.holds.ok.oneDir hrs)

/-- The files in `Delta-Containers/` have been drawn, the hot container has no file yet. -/
structure HotFresh (s : Server) : Prop where
  hot : s.files.lookup (true, s.hot_container.containerID) = none
  drawn : ∀ name, s.files.lookup (true, name) ≠ none → Drawn s.con_times name
  hotDrawn : Drawn s.con_times s.hot_container.containerID

def FilesKept (s s' : Server) : Prop :=
  ∀ p body, s.files.lookup p = some body → s'.files.lookup p = some body

theorem savehot_kept (h : HotFresh s) : FilesKept s (Ocall_SavehotContainer s) := by
  intro p body hp
  unfold Ocall_SavehotContainer
  dsimp only
  rw [Table.lookup_insert_ite]
  by_cases hname : p = (true, s.hot_container.containerID)
  · rw [hname, h.hot] at hp
    simp at hp
  · rw [if_neg hname]
    exact hp

theorem storeHot_kept (h : HotFresh s) {chunkHash newBase fp : Fp} {recipe : RecipeEntry}
    {new_delta : Bytes} {sf : SuperFeature} {iv : IV} (htimes : s.con_times < 2 ^ 31) :
    FilesKept s (storeHot env chunkHash newBase recipe new_delta fp sf iv s) ∧
      HotFresh (storeHot env chunkHash newBase recipe new_delta fp sf iv s) := by
  unfold storeHot InsertHot_container
  dsimp only
  split
  · exact ⟨fun _ _ hp => hp, h.hot, h.drawn, h.hotDrawn⟩
  · refine ⟨savehot_kept h, ?_, ?_, s.con_times, Nat.lt_succ_self _, rfl⟩
    · change (s.files.insert (true, s.hot_container.containerID) _).lookup
        (true, CreateUUID s.con_times) = none
      rw [Table.lookup_insert_ite, if_neg, Option.eq_none_iff_forall_ne_some]
      · intro body hbody
        exact not_drawn_self htimes (h.drawn _ (by rw [hbody]; simp))
      · intro heq
        have hname : CreateUUID s.con_times = s.hot_container.containerID := congrArg Prod.snd heq
        apply not_drawn_self htimes
        rw [hname]
        exact h.hotDrawn
    · intro name hname
      change (s.files.insert (true, s.hot_container.containerID) _).lookup (true, name) ≠ none
        at hname
      rw [Table.lookup_insert_ite] at hname
      by_cases heq : (true, name) = (true, s.hot_container.containerID)
      · have heq' : name = s.hot_container.containerID := congrArg Prod.snd heq
        rw [heq']
        exact h.hotDrawn.mono (Nat.le_succ _)
      · rw [if_neg heq] at hname
        exact (h.drawn name hname).mono (Nat.le_succ _)

theorem FilesKept.trans {t : Server} (h : FilesKept s t) (h' : FilesKept t s') : FilesKept s s' :=
  fun p body hp => h' p body (h p body hp)

/-- As long as the counter does not run out, a pair keeps the files of `s`. -/
theorem passClosed_kept (env : EnclaveEnv) (s : Server) :
    PassClosed env fun t => t.con_times < 2 ^ 31 → FilesKept s t ∧ HotFresh t where
  read _ h htimes := ⟨(h htimes).1, (h htimes).2.hot, (h htimes).2.drawn, (h htimes).2.hotDrawn⟩
  size _ h htimes := ⟨(h htimes).1, (h htimes).2.hot, (h htimes).2.drawn, (h htimes).2.hotDrawn⟩
  erase _ h htimes := ⟨(h htimes).1, (h htimes).2.hot, (h htimes).2.drawn, (h htimes).2.hotDrawn⟩
  replace _ _ h htimes :=
    ⟨(h htimes).1, (h htimes).2.hot, (h htimes).2.drawn, (h htimes).2.hotDrawn⟩
  query _ h htimes := ⟨(h htimes).1, (h htimes).2.hot, (h htimes).2.drawn, (h htimes).2.hotDrawn⟩
  store := by
    intro t chunkHash newBase recipe new_delta fp sf iv h htimes
    have hle := (storeHot_indexes env chunkHash newBase recipe new_delta fp sf iv t).2.2.2.times
    have htimes' := Nat.lt_of_le_of_lt hle htimes
    obtain ⟨hkept, hfresh⟩ := h htimes'
    obtain ⟨hkept', hfresh'⟩ := storeHot_kept hfresh htimes'
    exact ⟨hkept.trans hkept', hfresh'⟩

theorem Inv.hotFresh (h : Inv env s R Lost) (hphase : s.phase = .offline .update) : HotFresh s := by
  obtain ⟨_, hstores, hstage⟩ := h.at hphase
  have hopen : opensIn (.offline .update) s (true, s.hot_container.containerID) =
      some s.hot_container.buf := hotOpens_self s
  have hplace := hstores.holds.place (true, s.hot_container.containerID)
  rw [hopen] at hplace
  obtain ⟨_, _, hfile, rs, hrs, _⟩ := hplace.of_open
  refine ⟨hfile, fun name hname => ?_, hstores.holds.ok.drawn hrs⟩
  obtain ⟨rs', hrs'⟩ := Option.ne_none_iff_exists'.mp (h.denotes (Or.inl hname))
  exact hstores.holds.ok.drawn hrs'

/-- A step within a process. -/
theorem Inv.newNames (h : Inv env s R Lost) (hs : Prototype.step env s a = some s') :
    NewNames s a s' := by
  obtain ⟨hstepped, htimes⟩ := step_stepped hs
  have hsame : s'.files = s.files → ∀ p body, s.files.lookup p = some body →
      ∃ body', s'.files.lookup p = some body' ∧ body <+: body' := by
    intro hfiles p body hp
    rw [hfiles]
    exact ⟨body, hp, List.prefix_refl body⟩
  have hkept : FilesKept s s' → ∀ p body, s.files.lookup p = some body →
      ∃ body', s'.files.lookup p = some body' ∧ body <+: body' :=
    fun hk p body hp => ⟨body, hk p body hp, List.prefix_refl body⟩
  refine ⟨?_, fun hnew => ?_⟩
  · intro k hk hk' fp e he hname
    obtain ⟨j, hj, hj'⟩ := h.stores.indexed.drawn (Or.inl he)
    have heq := CreateUUID_inj (by omega) (by omega) (hj'.symm.trans hname)
    omega
  · cases hstepped with
    | processOff _ _ =>
      apply hsame
      unfold startOffline
      dsimp only
      split <;> rfl
    | offlinedeltaTure hph =>
      obtain ⟨c, t, hframe⟩ := OfflinedeltaTure_frame _ _ s
      apply hsame
      rw [hframe]
    | storeChunk hph =>
      obtain ⟨q, o, t, n, hframe, _⟩ := storeChunk_frame env _ s
      apply hsame
      rw [hframe]
    | endBatch hph _ =>
      obtain ⟨di, tmp, skip, hframe⟩ := finishBatch_frame _ s
      apply hsame
      rw [hframe]
    | updateOutIndex hph =>
      obtain ⟨idx, sf, hframe, _⟩ := h.registered hph
      apply hsame
      rw [hframe]
    | disconnect _ =>
      obtain ⟨q, o, t, hframe, _⟩ := closeSession_frame s
      apply hsame
      rw [hframe]
    | openFile hw hwriter hqueue =>
      rename_i c inputMQ
      intro p body hp
      have hne : p ≠ c.path := by
        rintro rfl
        have hplace := h.stores.holds.place c.path
        have hat : queuedAt (c :: inputMQ) c.path = c :: queuedAt inputMQ c.path := by
          rw [queuedAt_cons, if_pos rfl]
        rw [hqueue, hat] at hplace
        rw [hplace.of_queued.2.2.2.1] at hp
        simp at hp
      refine ⟨body, ?_, List.prefix_refl body⟩
      change (s.files.insert c.path []).lookup p = some body
      rw [Table.lookup_insert_ite, if_neg hne]
      exact hp
    | writeFile hw hwriter =>
      rename_i n c written
      intro p body hp
      change ∃ body', (s.files.insert c.path (c.body.take (written + n))).lookup p = some body' ∧ _
      rw [Table.lookup_insert_ite]
      by_cases hpath : p = c.path
      · subst hpath
        have hplace := h.stores.holds.place c.path
        rw [hwriter, writingAt_some, if_pos rfl] at hplace
        rw [hplace.of_writing.2.2.1] at hp
        rw [if_pos rfl, ← Option.some.inj hp]
        exact ⟨_, rfl, List.take_prefix_take_left (by omega)⟩
      · rw [if_neg hpath]
        exact ⟨body, hp, List.prefix_refl body⟩
    | updatePair hph _ ht =>
      have hstart : s.con_times < 2 ^ 31 → FilesKept s s ∧ HotFresh s :=
        fun _ => ⟨fun _ _ hp => hp, h.hotFresh hph⟩
      have hpair := (passClosed_kept env s).Easy_update_pair hstart ht htimes
      exact hkept hpair.1
    | coldrevise hph _ _ =>
      apply hkept
      dsimp only
      split
      · exact savehot_kept (h.hotFresh hph)
      · exact fun _ _ hp => hp
    | updateCold _ _ _ => exact absurd trivial hnew
    | mergePair _ _ => exact absurd trivial hnew
    | _ => exact hsame rfl

theorem idle_acts (hphase : s.phase = .idle) (hs : step env s a = some s') :
    (∃ iv, a = .startSession iv) ∨ ∃ order, a = .processOff order := by
  obtain ⟨hstepped, _⟩ := step_stepped hs
  cases hstepped with
  | startSession _ => exact Or.inl ⟨_, rfl⟩
  | processOff _ _ => exact Or.inr ⟨_, rfl⟩
  | _ => simp_all [Writing]

/-- A process that has restarted and done nothing yet. -/
structure Restarted (s : Server) : Prop where
  start : ∃ Forward_Flag Offline_Flag o s₀, s = restartServer Forward_Flag Offline_Flag o s₀
  files : ∀ name, ¬(s.files.lookup (false, name) ≠ none ∧ s.files.lookup (true, name) ≠ none)

theorem Restarted.inv (h : Restarted s) (hempty : NothingLoaded s) (env : EnclaveEnv) :
    Inv env s (fun _ => none) fun _ => False := by
  obtain ⟨Forward_Flag, Offline_Flag, o, s₀, hs⟩ := h.start
  obtain ⟨hindex, hsf, hfiles⟩ := hempty
  have hstart : s = Server.start Forward_Flag Offline_Flag := by
    have hindex' := Table.eq_empty hindex
    have hsf' : s.sfObj = fun _ => ∅ := funext fun i => Table.eq_empty (hsf i)
    have hfiles' := Table.eq_empty hfiles
    rw [hs] at hindex' hsf' hfiles' ⊢
    unfold restartServer at hindex' hsf' hfiles' ⊢
    dsimp only at hindex' hsf' hfiles' ⊢
    rw [hindex', hsf', hfiles']
    rfl
  rw [hstart]
  exact Inv.start Forward_Flag Offline_Flag

theorem lifeStep_names {l l' : Process} {a : LifeAction}
    (h : (∃ R Lost, Inv l.env l.server R Lost) ∨ Restarted l.server) (hfresh : CounterFresh l a)
    (hs : lifeStep l a = some l') :
    (∃ R Lost, Inv l'.env l'.server R Lost) ∨ Restarted l'.server := by
  cases a with
  | act a =>
    obtain ⟨s', hs', rfl⟩ := Option.map_eq_some_iff.mp hs
    rcases h with ⟨R, Lost, hinv⟩ | hrestarted
    · exact Or.inl (hinv.step hs')
    · obtain ⟨Forward_Flag, Offline_Flag, o, s₀, hstart⟩ := hrestarted.start
      have hphase : l.server.phase = .idle := by
        rw [hstart]
        rfl
      have htimes : l.server.con_times = 1 := by
        rw [hstart]
        rfl
      have hempty : NothingLoaded l.server := by
        rcases idle_acts hphase hs' with ⟨iv, rfl⟩ | ⟨order, rfl⟩
        · exact hfresh htimes
        · exact hfresh htimes
      exact Or.inl ((hrestarted.inv hempty l.env).step hs')
  | restart env Forward_Flag Offline_Flag o =>
    unfold lifeStep at hs
    dsimp only at hs
    split at hs
    case isTrue hc =>
      rw [← Option.some.inj hs]
      refine Or.inr ⟨⟨Forward_Flag, Offline_Flag, o, l.server, rfl⟩, ?_⟩
      rcases h with ⟨R, Lost, hinv⟩ | hrestarted
      · rintro name ⟨hbase, hdelta⟩
        exact hinv.one_directory name ⟨Or.inl hbase, Or.inl hdelta⟩
      · exact hrestarted.files
    · simp at hs

/-- In every run in which a process draws its first identifier only when it has loaded nothing: a
name stands for one container, and a step draws names that no entry refers to and replaces no
file. -/
theorem lifeRuns_names {env : EnclaveEnv} {Forward_Flag Offline_Flag : Bool}
    {acts : List LifeAction} {l : Process}
    (hrun : runs lifeStep ⟨env, Server.start Forward_Flag Offline_Flag⟩ acts = some l)
    (hmeet : StepsMeet lifeStep CounterFresh ⟨env, Server.start Forward_Flag Offline_Flag⟩ acts) :
    (∀ name, ¬(Denotes l.server (false, name) ∧ Denotes l.server (true, name))) ∧
      ∀ a s', CounterFresh l (.act a) → step l.env l.server a = some s' →
        NewNames l.server a s' := by
  have hinv : (∃ R Lost, Inv l.env l.server R Lost) ∨ Restarted l.server :=
    runs_preserve (fun h hok hs => lifeStep_names h hok hs)
      (Or.inl ⟨_, _, Inv.start Forward_Flag Offline_Flag⟩) hmeet hrun
  rcases hinv with ⟨R, Lost, hinv⟩ | hrestarted
  · exact ⟨hinv.one_directory, fun a s' _ hs => hinv.newNames hs⟩
  · obtain ⟨_, _, o, s₀, hstart⟩ := hrestarted.start
    refine ⟨?_, fun a s' hfresh hs => ?_⟩
    · have honly : ∀ p, Denotes l.server p → l.server.files.lookup p ≠ none := by
        intro p hp
        rcases hp with hp | hp | hp | hp
        · exact hp
        · rw [hstart] at hp
          exact absurd rfl hp
        · rw [hstart] at hp
          exact absurd rfl hp
        · rw [hstart] at hp
          exact absurd rfl hp
      intro name hboth
      exact hrestarted.files name ⟨honly _ hboth.1, honly _ hboth.2⟩
    · have hphase : l.server.phase = .idle := by
        rw [hstart]
        rfl
      have htimes : l.server.con_times = 1 := by
        rw [hstart]
        rfl
      have hempty : NothingLoaded l.server := by
        rcases idle_acts hphase hs with ⟨iv, rfl⟩ | ⟨order, rfl⟩
        · exact hfresh htimes
        · exact hfresh htimes
      exact (hrestarted.inv hempty l.env).newNames hs

end Names

/-- The first container of the second process gets the name of the first container of the first
one. -/
theorem lifeRuns_reused : ∃ l l' s' e,
    runs lifeStep ⟨plainEnv, Server.start false true⟩
      ((.startSession (FixedBytes.fill 16 0) :: (uploadOne [65] ++ recipeEndOne)).map .act) =
        some l ∧
    lifeStep l (.restart plainEnv false true (DumpOrder.straight l.server.database)) = some l' ∧
    step l'.env l'.server (.startSession (FixedBytes.fill 16 1)) = some s' ∧
    l'.server.indexObj.lookup (FixedBytes.read 32 [65] 0) = some e ∧
    l'.server.con_times < s'.con_times ∧ e.containerName = CreateUUID l'.server.con_times := by
  have hrun : ((runs (step plainEnv) (Server.start false true)
      (.startSession (FixedBytes.fill 16 0) :: (uploadOne [65] ++ recipeEndOne))).map fun s =>
        (s.phase, (s.indexObj.lookup (FixedBytes.read 32 [65] 0)).map RecipeEntry.containerName)) =
      some (.idle, some (CreateUUID 1)) := by
    decide +kernel
  obtain ⟨s, hs, heq⟩ := Option.map_eq_some_iff.mp hrun
  obtain ⟨hidle, hentry⟩ := Prod.mk.inj heq
  obtain ⟨e, he, hname⟩ := Option.map_eq_some_iff.mp hentry
  have ho := DumpOrder.straight_of s.database
  have hlook := OpenDB_indexObj ho (FixedBytes.read 32 [65] 0)
  exact ⟨⟨plainEnv, s⟩, ⟨plainEnv, restartServer false true (DumpOrder.straight s.database) s⟩, _, e,
    lifeRuns_acts hs, if_pos ⟨hidle, ho⟩, rfl, hlook.trans he,
    Nat.lt_add_of_pos_right (by decide : 0 < 2), hname⟩

/-- A process that is started over an empty store and stores a chunk. -/
def secondProcess : List LifeAction :=
  .restart plainEnv false true (DumpOrder.straight (Server.start false true).database) ::
    (.startSession (FixedBytes.fill 16 0) :: (uploadOne [65] ++ recipeEndOne)).map .act

/-- It starts another session, or is ended: the third process loads its index. -/
theorem lifeRuns_names_again : ∃ l s' l',
    runs lifeStep ⟨plainEnv, Server.start false true⟩ secondProcess = some l ∧
    step l.env l.server (.startSession (FixedBytes.fill 16 1)) = some s' ∧
    NewNames l.server (.startSession (FixedBytes.fill 16 1)) s' ∧
    runs lifeStep ⟨plainEnv, Server.start false true⟩
      (secondProcess ++
        [.restart plainEnv false true (DumpOrder.straight l.server.database)]) = some l' ∧
    l'.server.indexObj.lookup (FixedBytes.read 32 [65] 0) ≠ none ∧
    ∀ name, ¬(Denotes l'.server (false, name) ∧ Denotes l'.server (true, name)) := by
  have hrun : ((runs lifeStep ⟨plainEnv, Server.start false true⟩ secondProcess).map fun l =>
      ((l.server.phase, l.server.con_times),
        (step l.env l.server (.startSession (FixedBytes.fill 16 1))).isSome,
        (l.server.indexObj.lookup (FixedBytes.read 32 [65] 0)).isSome)) =
      some ((.idle, 4), true, true) := by
    decide +kernel
  obtain ⟨l, hl, heq⟩ := Option.map_eq_some_iff.mp hrun
  simp only [Prod.mk.injEq] at heq
  obtain ⟨⟨hidle, htimes⟩, hsome, hstored⟩ := heq
  obtain ⟨s', hs'⟩ := Option.isSome_iff_exists.mp hsome
  obtain ⟨e, he⟩ := Option.isSome_iff_exists.mp hstored
  have ho := DumpOrder.straight_of l.server.database
  obtain ⟨l', hrestart⟩ : ∃ l', l' = (⟨plainEnv, restartServer false true
    (DumpOrder.straight l.server.database) l.server⟩ : Process) := ⟨_, rfl⟩
  have hl' : runs lifeStep ⟨plainEnv, Server.start false true⟩
      (secondProcess ++
        [.restart plainEnv false true (DumpOrder.straight l.server.database)]) = some l' := by
    refine runs_append.mpr ⟨l, hl, runs_cons.mpr ⟨l', ?_, rfl⟩⟩
    rw [hrestart]
    exact if_pos ⟨hidle, ho⟩
  -- only the first session is started in a process that has drawn nothing
  have hmeet : ∀ more : List LifeAction, (∀ l, ∀ a ∈ more, CounterFresh l a) →
      StepsMeet lifeStep CounterFresh ⟨plainEnv, Server.start false true⟩ (secondProcess ++ more) := by
    intro more hmore
    refine ⟨trivial, fun l₁ hl₁ => ⟨fun _ => ?_, fun l₂ _ => ?_⟩⟩
    · rw [← Option.some.inj hl₁]
      exact ⟨fun _ => rfl, fun _ _ => rfl, fun _ => rfl⟩
    · apply stepsMeet_of_forall
      intro l₃ a ha
      rcases List.mem_append.mp ha with ha | ha
      · simp only [uploadOne, recipeEndOne, List.cons_append, List.nil_append, List.map_cons,
          List.map_nil, List.mem_cons, List.not_mem_nil, or_false] at ha
        rcases ha with rfl | rfl | rfl | rfl | rfl | rfl | rfl | rfl | rfl | rfl | rfl <;> trivial
      · exact hmore l₃ a ha
  have hfresh : CounterFresh l (.act (.startSession (FixedBytes.fill 16 1))) := by
    intro hone
    rw [htimes] at hone
    simp at hone
  have hnames := (lifeRuns_names hl (by
    have hnil := hmeet [] (by simp)
    rwa [List.append_nil] at hnil)).2 _ s' hfresh hs'
  have hone := (lifeRuns_names hl' (hmeet [_] (by
    intro l₃ a ha
    rw [List.mem_singleton.mp ha]
    trivial))).1
  refine ⟨l, s', l', hl, hs', hnames, hl', ?_, hone⟩
  rw [hrestart]
  change (OpenDB _).indexObj.lookup _ ≠ none
  rw [OpenDB_indexObj ho]
  change l.server.indexObj.lookup _ ≠ none
  rw [he]
  exact Option.some_ne_none e

end ShieldReduce.Prototype
