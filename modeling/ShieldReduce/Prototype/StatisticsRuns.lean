import ShieldReduce.Prototype.SessionEnd
import ShieldReduce.Prototype.Statistics

/-!
# The chunk statistics of a server lifetime

What every step does to the sums over the FP index, and the sessions after which the counters are
these sums.
-/

namespace ShieldReduce.Prototype
open Lib Store EDelta

section Steps
variable {env : EnclaveEnv} {s s' : Server} {R : Records} {Lost : Fp → Prop} {a : Action}

/-- The sum over the entries that are there or on their way. -/
def tallyOf (s : Server) (f : Shape → Nat) : Nat := tally s.indexObj (inflight s.phase).1 f

theorem tallyOf_phase {phase : Phase} (h : s.phase = phase) (f : Shape → Nat) :
    tallyOf s f = tally s.indexObj (inflight phase).1 f := by
  unfold tallyOf
  rw [h]

/-- Not in `ProcessOff`. -/
def Online (s : Server) : Prop := ∀ stage, s.phase ≠ .offline stage

theorem Online.of_eq {phase : Phase} (h : s.phase = phase) (hphase : ∀ stage, phase ≠ .offline stage) :
    Online s := by
  intro stage
  rw [h]
  exact hphase stage

/-- Of the steps of a session only the one that stores a chunk changes the sums. -/
theorem Stepped.online_tally (hinv : Inv env s R Lost) (h : Stepped env s a s') (honline : Online s)
    (hpass : ∀ order, a ≠ .processOff order) (hstore : a ≠ .storeChunk) :
    Online s' ∧ ∀ f, tallyOf s' f = tallyOf s f := by
  cases h with
  | startSession hphase =>
    refine ⟨Online.of_eq rfl (by simp), fun f => ?_⟩
    rw [tallyOf_phase hphase]
    rfl
  | processOff _ _ => exact absurd rfl (hpass _)
  | uploadChunk hphase _ =>
    refine ⟨Online.of_eq rfl (by simp), fun f => ?_⟩
    rw [tallyOf_phase hphase]
    rfl
  | offlinedeltaTure hphase =>
    refine ⟨Online.of_eq rfl (by simp), fun f => ?_⟩
    obtain ⟨_, _, heq⟩ := OfflinedeltaTure_frame _ _ s
    rw [tallyOf_phase hphase, heq]
    rfl
  | storeChunk _ => exact absurd rfl hstore
  | @endBatch b hphase _ =>
    refine ⟨Online.of_eq rfl (by simp), fun f => ?_⟩
    obtain ⟨_, _, _, heq⟩ := finishBatch_frame b s
    rw [tallyOf_phase hphase, heq]
    rfl
  | @updateOutIndex b hphase =>
    refine ⟨Online.of_eq rfl (by simp), fun f => ?_⟩
    obtain ⟨_, _, hstage⟩ := hinv.at hphase
    cases hstage with
    | answered _ _ batch _ =>
      have hnodup := batch.nodup
      unfold batchEntries at hnodup
      rw [List.map_append] at hnodup
      rw [tallyOf_phase hphase]
      exact tally_register (List.nodup_append.mp hnodup).1 fun x hx =>
        batch.fresh x (List.mem_append_left _ hx)
  | uploadRecipeEnd hphase =>
    refine ⟨Online.of_eq rfl (by simp), fun f => ?_⟩
    rw [tallyOf_phase hphase]
    rfl
  | disconnect hphase =>
    refine ⟨Online.of_eq rfl (by simp), fun f => ?_⟩
    obtain ⟨_, _, _, heq, _⟩ := closeSession_frame s
    rcases hphase with hphase | hphase
    · rw [tallyOf_phase hphase, heq]
      rfl
    · rw [tallyOf_phase hphase, heq]
      rfl
  | openFile _ _ _ => exact ⟨honline, fun _ => rfl⟩
  | writeFile _ _ => exact ⟨honline, fun _ => rfl⟩
  | closeFile _ _ => exact ⟨honline, fun _ => rfl⟩
  | join hphase _ _ =>
    refine ⟨Online.of_eq rfl (by simp), fun f => ?_⟩
    rw [tallyOf_phase hphase]
    rfl
  | getLocal hphase _ _ => exact absurd hphase (honline _)
  | updatePair hphase _ _ => exact absurd hphase (honline _)
  | coldrevise hphase _ _ => exact absurd hphase (honline _)
  | updateCold hphase _ _ => exact absurd hphase (honline _)
  | getMergeContainer hphase => exact absurd hphase (honline _)
  | mergePair hphase _ => exact absurd hphase (honline _)
  | endOffline hphase => exact absurd hphase (honline _)

/-- Between `ProcessOff` and the end of its session. -/
def Afterwards (s : Server) : Prop := s.phase = .idle ∨ ∃ stage, s.phase = .offline stage

theorem relocated_shape {e e' : RecipeEntry} (h : Relocated e e') : shape e' = shape e := by
  obtain ⟨_, _, rfl⟩ := h
  rfl

/-- Of the steps of a pass only those on pairs change the shapes and the size of the backup. -/
theorem Stepped.pass_shape (hinv : Inv env s R Lost) (h : Stepped env s a s') (hpass : Afterwards s)
    (hstart : ∀ iv, a ≠ .startSession iv) (hprocess : ∀ order, a ≠ .processOff order)
    (hpair : ∀ old, a ≠ .updatePair old) :
    Afterwards s' ∧ s'.offlineCurrBackup_size = s.offlineCurrBackup_size ∧
      ∀ fp, (s'.indexObj.lookup fp).map shape = (s.indexObj.lookup fp).map shape := by
  have hoffline : ∀ {phase : Phase}, s.phase = phase → phase ≠ .idle →
      (∀ stage, phase ≠ .offline stage) → False := by
    rintro phase hphase hidle hstage
    rcases hpass with h | ⟨stage, h⟩
    · exact hidle (hphase.symm.trans h)
    · exact hstage stage (hphase.symm.trans h)
  have hwriting : Writing s → False := by
    rintro (⟨stage, hphase⟩ | hphase)
    · exact hoffline hphase (by simp) (by simp)
    · exact hoffline hphase (by simp) (by simp)
  cases h with
  | startSession _ => exact absurd rfl (hstart _)
  | processOff _ _ => exact absurd rfl (hprocess _)
  | uploadChunk hphase _ => exact (hoffline hphase (by simp) (by simp)).elim
  | offlinedeltaTure hphase => exact (hoffline hphase (by simp) (by simp)).elim
  | storeChunk hphase => exact (hoffline hphase (by simp) (by simp)).elim
  | endBatch hphase _ => exact (hoffline hphase (by simp) (by simp)).elim
  | updateOutIndex hphase => exact (hoffline hphase (by simp) (by simp)).elim
  | uploadRecipeEnd hphase => exact (hoffline hphase (by simp) (by simp)).elim
  | disconnect hphase =>
    rcases hphase with hphase | hphase
    · exact (hoffline hphase (by simp) (by simp)).elim
    · exact (hoffline hphase (by simp) (by simp)).elim
  | openFile hphase _ _ => exact (hwriting hphase).elim
  | writeFile hphase _ => exact (hwriting hphase).elim
  | closeFile hphase _ => exact (hwriting hphase).elim
  | join hphase _ _ => exact (hoffline hphase (by simp) (by simp)).elim
  | getLocal hphase _ _ => exact ⟨Or.inr ⟨_, hphase⟩, rfl, fun _ => rfl⟩
  | updatePair _ _ _ => exact absurd rfl (hpair _)
  | coldrevise _ _ _ =>
    refine ⟨Or.inr ⟨_, rfl⟩, ?_, fun fp => ?_⟩
    · dsimp only
      split
      · rfl
      · rfl
    · dsimp only
      split
      · rfl
      · rfl
  | @updateCold names containerName t hphase _ ht =>
    refine ⟨Or.inr ⟨_, rfl⟩, ?_⟩
    obtain ⟨_, hstores, hstage⟩ := hinv.at hphase
    cases hstage with
    | cold pass _ _ =>
      have hholds := hstores.holds
      rw [pass.writer] at hholds
      obtain ⟨d, rs, kept, _, hreloc, _, rfl⟩ := Update_cold_container_eq hholds hstores.indexed ht
      exact ⟨rfl, hreloc.lookup_map hstores.indexed hholds.ok 0 relocated_shape⟩
  | getMergeContainer _ => exact ⟨Or.inr ⟨_, rfl⟩, rfl, fun _ => rfl⟩
  | @mergePair p rest t hphase ht =>
    refine ⟨Or.inr ⟨_, rfl⟩, ?_⟩
    obtain ⟨_, hstores, hstage⟩ := hinv.at hphase
    cases hstage with
    | merge pass _ cold merge =>
      have hholds := hstores.holds
      rw [pass.writer] at hholds
      have hne : p.1 ≠ p.2 := by
        have hdistinct := merge.distinct
        rw [List.flatMap_cons] at hdistinct
        intro heq
        simp [heq] at hdistinct
      obtain ⟨first, rs, _, _, hreloc, rfl⟩ := mergePair_eq hholds hstores.indexed cold hne ht
      exact ⟨rfl, hreloc.lookup_map hstores.indexed hholds.ok _ relocated_shape⟩
  | endOffline _ => exact ⟨Or.inl rfl, rfl, fun _ => rfl⟩

/-- Of the steps of a pass only those on pairs change the sums. -/
theorem Stepped.pass_tally (hinv : Inv env s R Lost) (h : Stepped env s a s') (hpass : Afterwards s)
    (hstart : ∀ iv, a ≠ .startSession iv) (hprocess : ∀ order, a ≠ .processOff order)
    (hpair : ∀ old, a ≠ .updatePair old) :
    Afterwards s' ∧ ∀ f, tally s'.indexObj [] f = tally s.indexObj [] f := by
  obtain ⟨hafter, _, hshape⟩ := h.pass_shape hinv hpass hstart hprocess hpair
  exact ⟨hafter, fun f => tally_congr hshape⟩

/-- A stored chunk is added to the sums. -/
theorem stored_tally (hinv : Inv env s R Lost) {x : QueryEntry} {b : Batch}
    (hphase : s.phase = .uploading (.loaded x b)) (h : Stepped env s .storeChunk s') :
    Online s' ∧ ((storeChunk env x s).1.chunkAddr.deltaFlag = NO_DELTA ∨
      (storeChunk env x s).1.chunkAddr.deltaFlag = DELTA) ∧
      ∀ f, tallyOf s' f = tallyOf s f + f (shape (storeChunk env x s).1.chunkAddr) := by
  cases h with
  | @storeChunk x' b' hphase' =>
    have hsame : x = x' ∧ b = b' := by
      rw [hphase] at hphase'
      simpa using hphase'
    obtain ⟨rfl, rfl⟩ := hsame
    refine ⟨Online.of_eq rfl (by simp), ?_, fun f => ?_⟩
    · obtain ⟨_, _, hstage⟩ := hinv.at hphase
      cases hstage with
      | loaded _ _ batch =>
        have haddr := (batch.loaded x List.mem_cons_self).1
        rcases storeChunk_cases haddr s with heq | ⟨_, _, heq⟩
        · rw [heq]
          exact Or.inl ((ProcessSheUniqueChunk_addr ..).1.trans haddr)
        · rw [heq]
          exact Or.inr (ProcessSheUniqueChunk_addr ..).1
    · obtain ⟨_, _, _, _, heq, _⟩ := storeChunk_frame env x s
      have hindex : (storeChunk env x s).2.2.indexObj = s.indexObj := by rw [heq]
      rw [tallyOf_phase hphase]
      change tally (storeChunk env x s).2.2.indexObj (b.done ++ [(storeChunk env x s).1]) f = _
      rw [hindex]
      unfold tally
      rw [List.map_append, List.sum_append]
      exact (Nat.add_assoc _ _ _).symm

end Steps

/-- The step function of the sessions, inverted. -/
inductive AccountedStep (env : EnclaveEnv) (c : Accounted) : SessionEvent → Accounted → Prop
  | accept {optType : OptType} {iv : IV} {s : Server} (hsession : c.session = .closed)
    (hs : step env c.server (.startSession iv) = some s) :
    AccountedStep env c (.accept optType iv)
      { c with
        server := s
        session := .running optType false }
  | processOff {order : List (Fp × Fp)} {s : Server}
    (hsession : c.session = .running .OFFLINE_OPT false)
    (hs : step env c.server (.processOff order) = some s) :
    AccountedStep env c (.server (.processOff order))
      { c with
        server := s
        offline := c.online
        session := .running .OFFLINE_OPT true }
  | storeChunk {x : QueryEntry} {b : Batch} {s : Server}
    (hphase : c.server.phase = .uploading (.loaded x b))
    (hs : step env c.server .storeChunk = some s) :
    AccountedStep env c (.server .storeChunk)
      { c with
        server := s
        online := countChunk (storeChunk env x c.server).1.chunkAddr c.online }
  | updatePair {old new : Fp} {s : Server} {offline : ChunkStatistics}
    (hpair : c.server.local_basemap.lookup old = some new)
    (hcount : count_Easy_update_pair env old new c.server c.offline = some offline)
    (hs : step env c.server (.updatePair old) = some s) :
    AccountedStep env c (.server (.updatePair old))
      { c with
        server := s
        offline := offline }
  | other {a : Action} {s : Server} (hstart : ∀ iv, a ≠ .startSession iv)
    (hprocess : ∀ order, a ≠ .processOff order) (hstore : a ≠ .storeChunk)
    (hpair : ∀ old, a ≠ .updatePair old) (hs : step env c.server a = some s) :
    AccountedStep env c (.server a) { c with server := s }
  | updateOnlineInfo
    (hsession : c.session = .running .UPLOAD_OPT false ∨ c.session = .running .OFFLINE_OPT true)
    (hphase : c.server.phase = .idle) :
    AccountedStep env c .updateOnlineInfo
      { c with
        online := c.offline
        session := .closed }

section Sessions
variable {env : EnclaveEnv} {c c' : Accounted} {a : Action} {event : SessionEvent}

theorem accountStep_accounted (hstart : ∀ iv, a ≠ .startSession iv)
    (hprocess : ∀ order, a ≠ .processOff order) (h : accountStep env c a = some c') :
    AccountedStep env c (.server a) c' := by
  unfold accountStep at h
  obtain ⟨s, hs, h⟩ := Option.bind_eq_some_iff.mp h
  split at h
  case h_1 hphase _ =>
    rw [← Option.some.inj h]
    exact .storeChunk hphase hs
  case h_2 old _ _ =>
    obtain ⟨new, hnew, h⟩ := Option.bind_eq_some_iff.mp h
    obtain ⟨offline, hcount, h⟩ := Option.bind_eq_some_iff.mp h
    rw [← Option.some.inj h]
    exact .updatePair hnew hcount hs
  case h_3 hpair _ hstore =>
    rw [← Option.some.inj h]
    refine .other hstart hprocess ?_ (fun old hold => hpair old hold) hs
    rintro rfl
    obtain ⟨hstepped, _⟩ := step_stepped hs
    cases hstepped with
    | @storeChunk x b hphase => exact hstore x b rfl hphase

theorem stepAccounted_accounted (h : stepAccounted env c event = some c') :
    AccountedStep env c event c' := by
  unfold stepAccounted at h
  split at h
  · split at h
    case isTrue hsession =>
      obtain ⟨s, hs, rfl⟩ := Option.map_eq_some_iff.mp h
      exact .accept hsession hs
    · simp at h
  · simp at h
  · split at h
    case isTrue hsession =>
      obtain ⟨s, hs, rfl⟩ := Option.map_eq_some_iff.mp h
      exact .processOff hsession hs
    · simp at h
  case h_4 hstart hprocess =>
    exact accountStep_accounted hstart hprocess h
  · split at h
    case isTrue hready =>
      rw [← Option.some.inj h]
      exact .updateOnlineInfo hready.1 hready.2
    · simp at h

/-- Counting holds no step of the server up. -/
theorem accountStep_some {s : Server} (hs : step env c.server a = some s) :
    ∃ c', accountStep env c a = some c' ∧ c'.server = s := by
  unfold accountStep
  rw [hs]
  simp only [Option.bind_eq_bind, Option.bind_some]
  split
  · exact ⟨_, rfl, rfl⟩
  · obtain ⟨hstepped, _⟩ := step_stepped hs
    cases hstepped with
    | @updatePair old new t _ hpair ht =>
      obtain ⟨offline, hcount⟩ := count_Easy_update_pair_some ht c.offline
      rw [hpair, Option.bind_some, hcount]
      exact ⟨_, rfl, rfl⟩
  · exact ⟨_, rfl, rfl⟩

end Sessions

section Law
variable {env : EnclaveEnv} {c c' : Accounted} {R : Records} {Lost : Fp → Prop} {a : Action}
  {event : SessionEvent}

/-- Which counters are the sums over the index: at any time those that the next change goes to. -/
inductive CountersOk (c : Accounted) : Prop
  | closed (session : c.session = .closed) (idle : c.server.phase = .idle)
    (same : c.online = c.offline) (agrees : Agrees c.online (tallyOf c.server))
  | running {optType : OptType} (session : c.session = .running optType false)
    (online : Online c.server) (same : optType = .UPLOAD_OPT → c.online = c.offline)
    (agrees : Agrees c.online (tallyOf c.server))
  | passed (session : c.session = .running .OFFLINE_OPT true) (after : Afterwards c.server)
    (agrees : Agrees c.offline (tally c.server.indexObj []))

/-- A step after which the counters still follow the index: an upload-only session stores nothing,
and an old base that shrinks has only dependents that shrink. -/
def StatisticsKept (env : EnclaveEnv) (c : Accounted) : SessionEvent → Prop
  | .server .storeChunk => c.session ≠ .running .UPLOAD_OPT false
  | .server (.updatePair old) =>
    c.server.offlineCurrBackup_size = 0 ∨
      ∀ new ∈ c.server.local_basemap.lookup old, DependentsShrink env c.server old new
  | _ => True

instance (c : Accounted) (event : SessionEvent) : Decidable (StatisticsKept env c event) := by
  unfold StatisticsKept
  split <;> infer_instance

/-- The step of a pair. -/
theorem updatePair_agrees (hinv : Inv env c.server R Lost) {old new : Fp} {s : Server}
    {offline : ChunkStatistics} (hs : step env c.server (.updatePair old) = some s)
    (hpair : c.server.local_basemap.lookup old = some new)
    (hcount : count_Easy_update_pair env old new c.server c.offline = some offline)
    (hok : StatisticsKept env c (.server (.updatePair old)))
    (h : Agrees c.offline (tally c.server.indexObj [])) :
    Afterwards s ∧ Agrees offline (tally s.indexObj []) := by
  obtain ⟨hstepped, htimes⟩ := step_stepped hs
  cases hstepped with
  | @updatePair _ new' t hphase hpair' ht =>
    have hnew : new' = new := Option.some.inj (hpair'.symm.trans hpair)
    rw [hnew] at ht
    obtain ⟨hgraph, hstores, hstage⟩ := hinv.at hphase
    cases hstage with
    | update pass remaining =>
      have hrem : Rem c.server.local_basemap c.server.local_map old new := Or.inl hpair
      obtain ⟨hwhole, hkept⟩ := remaining.old hrem
      obtain ⟨hnwhole, hnkept⟩ := remaining.new hrem
      have hne := remaining.apart hrem hrem
      obtain ⟨_, _, _, hframe, _⟩ :=
        Easy_update_pair_graph hgraph hwhole hkept hnwhole hnkept hne ht
      refine ⟨Or.inr ⟨.update, hframe.phase.trans hphase⟩, ?_⟩
      unfold count_Easy_update_pair at hcount
      unfold Easy_update_pair at ht
      by_cases hsize : c.server.offlineCurrBackup_size = 0
      · rw [if_pos hsize] at hcount ht
        unfold greedyPair at ht
        obtain ⟨old_recipe, _, ht⟩ := Option.bind_eq_some_iff.mp ht
        obtain ⟨new_recipe, _, ht⟩ := Option.bind_eq_some_iff.mp ht
        rw [← Option.some.inj hcount, ← Option.some.inj ht]
        exact h
      · rw [if_neg hsize] at hcount ht
        have hshrink := hok.resolve_left hsize new hpair
        obtain ⟨c₁, hc₁, hagree⟩ := countPair_agrees hstores pass.writer hgraph hwhole hkept hnwhole
          hnkept hne ht htimes hshrink h
        rw [hc₁, Option.some.injEq] at hcount
        rw [← hcount]
        exact hagree

theorem not_writing_idle {s : Server} (h : s.phase = .idle) : ¬Writing s := by
  rintro (⟨stage, hphase⟩ | hphase)
  · simp [h] at hphase
  · simp [h] at hphase

/-- Without a session and without a pass only one of them can begin. -/
theorem Stepped.of_idle {s s' : Server} (h : Stepped env s a s') (hidle : s.phase = .idle) :
    (∃ iv, a = .startSession iv) ∨ ∃ order, a = .processOff order := by
  cases h with
  | startSession _ => exact Or.inl ⟨_, rfl⟩
  | processOff _ _ => exact Or.inr ⟨_, rfl⟩
  | openFile hphase _ _ => exact absurd hphase (not_writing_idle hidle)
  | writeFile hphase _ => exact absurd hphase (not_writing_idle hidle)
  | closeFile hphase _ => exact absurd hphase (not_writing_idle hidle)
  | disconnect hphase => simp [hidle] at hphase
  | uploadChunk hphase _ | offlinedeltaTure hphase | storeChunk hphase | endBatch hphase _
  | updateOutIndex hphase | uploadRecipeEnd hphase | join hphase _ _ | getLocal hphase _ _
  | updatePair hphase _ _ | coldrevise hphase _ _ | updateCold hphase _ _
  | getMergeContainer hphase | mergePair hphase _ | endOffline hphase => simp [hidle] at hphase

theorem Inv.accounted (hinv : Inv env c.server R Lost) (h : AccountedStep env c event c') :
    ∃ R' Lost', Inv env c'.server R' Lost' := by
  cases h with
  | accept _ hs => exact hinv.step hs
  | processOff _ hs => exact hinv.step hs
  | storeChunk _ hs => exact hinv.step hs
  | updatePair _ _ hs => exact hinv.step hs
  | other _ _ _ _ hs => exact hinv.step hs
  | updateOnlineInfo _ _ => exact ⟨R, Lost, hinv⟩

theorem CountersOk.start (Forward_Flag Offline_Flag : Bool) :
    CountersOk (Accounted.start Forward_Flag Offline_Flag) :=
  .closed rfl rfl rfl ⟨rfl, rfl, rfl, rfl⟩

theorem CountersOk.step (h : CountersOk c) (hinv : Inv env c.server R Lost)
    (hok : StatisticsKept env c event) (hstep : AccountedStep env c event c') : CountersOk c' := by
  cases hstep with
  | @accept optType iv s hsession hs =>
    cases h with
    | closed _ idle same agrees =>
      have honline : Online c.server := Online.of_eq idle (by simp)
      obtain ⟨honline', hsum⟩ := (step_stepped hs).1.online_tally hinv honline (by simp) (by simp)
      exact .running rfl honline' (fun _ => same) (agrees.congr hsum)
    | running session _ _ _ => simp [hsession] at session
    | passed session _ _ => simp [hsession] at session
  | @processOff order s hsession hs =>
    cases h with
    | closed session _ _ _ => simp [hsession] at session
    | running session _ _ agrees =>
      obtain ⟨hstepped, _⟩ := step_stepped hs
      cases hstepped with
      | processOff hphase _ =>
        have hagree : Agrees c.online (tally c.server.indexObj []) :=
          agrees.congr fun f => (tallyOf_phase hphase f).symm
        refine .passed rfl ?_ ?_
        · unfold startOffline
          dsimp only
          split
          · exact Or.inr ⟨_, rfl⟩
          · exact Or.inl hphase
        · apply hagree.congr
          intro f
          unfold startOffline
          dsimp only
          split
          · rfl
          · rfl
    | passed session _ _ => simp [hsession] at session
  | @storeChunk x b s hphase hs =>
    cases h with
    | closed _ idle _ _ => simp [hphase] at idle
    | @running optType session online _ agrees =>
      obtain ⟨honline, hflag, hsum⟩ := stored_tally hinv hphase (step_stepped hs).1
      refine .running session honline ?_ (agrees.countChunk hflag hsum)
      rintro rfl
      exact absurd session hok
    | passed _ after _ =>
      rcases after with hidle | ⟨stage, hstage⟩
      · simp [hphase] at hidle
      · simp [hphase] at hstage
  | @updatePair old new s offline hpair hcount hs =>
    cases h with
    | closed _ idle _ _ =>
      cases (step_stepped hs).1 with
      | updatePair hphase _ _ => simp [hphase] at idle
    | running _ online _ _ =>
      cases (step_stepped hs).1 with
      | updatePair hphase _ _ => exact absurd hphase (online _)
    | passed session _ agrees =>
      obtain ⟨hafter, hagree⟩ := updatePair_agrees hinv hs hpair hcount hok agrees
      exact .passed session hafter hagree
  | @other a s hstart hprocess hstore hpair hs =>
    cases h with
    | closed _ idle _ _ =>
      rcases (step_stepped hs).1.of_idle idle with ⟨iv, ha⟩ | ⟨order, ha⟩
      · exact absurd ha (hstart iv)
      · exact absurd ha (hprocess order)
    | running session online same agrees =>
      obtain ⟨honline, hsum⟩ := (step_stepped hs).1.online_tally hinv online hprocess hstore
      exact .running session honline same (agrees.congr hsum)
    | passed session after agrees =>
      obtain ⟨hafter, hsum⟩ := (step_stepped hs).1.pass_tally hinv after hstart hprocess hpair
      exact .passed session hafter (agrees.congr hsum)
  | updateOnlineInfo hsession hphase =>
    cases h with
    | closed session _ _ _ => simp [session] at hsession
    | @running optType session _ same agrees =>
      have hupload : optType = .UPLOAD_OPT := by
        rcases hsession with hsession | hsession
        · exact ((SessionStage.running.injEq ..).mp (session.symm.trans hsession)).1
        · simp [session] at hsession
      exact .closed rfl hphase rfl (same hupload ▸ agrees)
    | passed _ _ agrees =>
      exact .closed rfl hphase rfl (agrees.congr fun f => tallyOf_phase hphase f)

/-- After every session of a run in which upload-only sessions store nothing and no old base
shrinks without its dependents, the statistics are those of the FP index. -/
theorem chunkStatistics_match {Forward_Flag Offline_Flag : Bool} {events : List SessionEvent}
    (hkept : StepsMeet (stepAccounted env) (StatisticsKept env)
      (Accounted.start Forward_Flag Offline_Flag) events)
    (hrun : runs (stepAccounted env) (Accounted.start Forward_Flag Offline_Flag) events = some c)
    (hclosed : c.session = .closed) : StatisticsMatch c.online c.server.indexObj := by
  have hlaw : (∃ R Lost, Inv env c.server R Lost) ∧ CountersOk c := by
    refine runs_preserve (P := fun c => (∃ R Lost, Inv env c.server R Lost) ∧ CountersOk c) ?_
      ⟨⟨_, _, Inv.start Forward_Flag Offline_Flag⟩, CountersOk.start Forward_Flag Offline_Flag⟩ hkept
      hrun
    rintro c c' event ⟨⟨R, Lost, hinv⟩, h⟩ hok hs
    exact ⟨hinv.accounted (stepAccounted_accounted hs), h.step hinv hok (stepAccounted_accounted hs)⟩
  cases hlaw.2 with
  | closed _ idle _ agrees =>
    have hagree : Agrees c.online (tally c.server.indexObj []) :=
      agrees.congr fun f => (tallyOf_phase idle f).symm
    exact hagree.statisticsMatch
  | running session _ _ _ => simp [hclosed] at session
  | passed session _ _ => simp [hclosed] at session

end Law

/-- The end of an upload that has filled one container. -/
def endUpload : List Action :=
  [.uploadRecipeEnd, .disconnect, .openFile, .writeFile 1000, .closeFile, .join]

/-- A session of a client up to the join of the writer thread. -/
def uploadSession (optType : OptType) (acts : List Action) : List SessionEvent :=
  .accept optType (FixedBytes.fill 16 0) :: (acts ++ endUpload).map .server

/-- The pass over the pair of two chunks of one byte that are alike. -/
def letterPass : List SessionEvent :=
  ([.processOff [(FixedBytes.read 32 [65] 0, FixedBytes.read 32 [66] 0)], .getLocal,
    .updatePair (FixedBytes.read 32 [65] 0), .coldrevise, .getMergeContainer, .endOffline] :
    List Action).map .server

theorem chunkStatistics_match_letters : ∃ c,
    runs (stepAccounted plainEnv) (Accounted.start false true)
      (uploadSession .OFFLINE_OPT (uploadOne [65] ++ uploadOne [66]) ++
        (letterPass ++ [.updateOnlineInfo])) = some c ∧
    c.server.indexObj.entries.length = 2 ∧ StatisticsMatch c.online c.server.indexObj := by
  have hrun : ((runs (stepAccounted plainEnv) (Accounted.start false true)
      (uploadSession .OFFLINE_OPT (uploadOne [65] ++ uploadOne [66]) ++
        (letterPass ++ [.updateOnlineInfo]))).map fun c =>
        (c.session, c.server.indexObj.entries.length)) = some (.closed, 2) := by
    decide +kernel
  have hkept : StepsMeet (stepAccounted plainEnv) (StatisticsKept plainEnv)
      (Accounted.start false true)
      (uploadSession .OFFLINE_OPT (uploadOne [65] ++ uploadOne [66]) ++
        (letterPass ++ [.updateOnlineInfo])) := by
    decide +kernel
  obtain ⟨c, hc, hend⟩ := Option.map_eq_some_iff.mp hrun
  obtain ⟨hclosed, hlength⟩ := Prod.mk.inj hend
  exact ⟨c, hc, hlength, chunkStatistics_match hkept hc hclosed⟩

/-- The statistics of an upload-only session are lost at its end. -/
theorem chunkStatistics_stale : ∃ c,
    runs (stepAccounted plainEnv) (Accounted.start false true)
      (uploadSession .UPLOAD_OPT (uploadOne [65]) ++ [.updateOnlineInfo]) = some c ∧
    c.session = .closed ∧ ¬StatisticsMatch c.online c.server.indexObj := by
  have hrun : ((runs (stepAccounted plainEnv) (Accounted.start false true)
      (uploadSession .UPLOAD_OPT (uploadOne [65]) ++ [.updateOnlineInfo])).map fun c =>
        (c.session, c.online.baseChunkNum, (entriesOf NO_DELTA c.server.indexObj).length)) =
      some (.closed, 0, 1) := by
    decide +kernel
  obtain ⟨c, hc, hend⟩ := Option.map_eq_some_iff.mp hrun
  obtain ⟨hclosed, hnum, hlength⟩ : c.session = .closed ∧ c.online.baseChunkNum = 0 ∧
      (entriesOf NO_DELTA c.server.indexObj).length = 1 := by
    simpa using hend
  refine ⟨c, hc, hclosed, fun hmatch => ?_⟩
  have hbase := hmatch.baseChunkNum
  rw [hnum, hlength] at hbase
  simp at hbase

end ShieldReduce.Prototype
