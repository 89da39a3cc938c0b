import ShieldReduce.Prototype.System

/-!
# What a step can do

The step function inverted: one constructor for each action that can happen, with its guard.
-/

namespace ShieldReduce.Prototype
open Lib Store EDelta

/-- The upload thread is alive, or the writer thread still drains the queue. -/
def Writing (s : Server) : Prop := (∃ stage, s.phase = .uploading stage) ∨ s.phase = .draining

inductive Stepped (env : EnclaveEnv) (s : Server) : Action → Server → Prop
  | startSession {iv : IV} (hphase : s.phase = .idle) :
    Stepped env s (.startSession iv) { startSession iv s with phase := .uploading .ready }
  | processOff {order : List (Fp × Fp)} (hphase : s.phase = .idle) (horder : greedyOrder s order) :
    Stepped env s (.processOff order) (startOffline order s)
  | uploadChunk {chunks : List Bytes} {heap : Fp → Bool} {left : Nat → RecipeEntry}
    (hphase : s.phase = .uploading .ready)
    (hsize : ∀ chunk ∈ chunks, 1 ≤ chunk.length ∧ chunk.length ≤ MAX_CHUNK_SIZE) :
    Stepped env s (.uploadChunk chunks heap left)
      { s with phase := .uploading (.chunkLoop (queryBatch env chunks heap left s)) }
  | offlinedeltaTure {Local_Flag : Bool} {x : QueryEntry} {todo done : List QueryEntry}
    {process_buffer batch_basemap : List (Fp × Fp)}
    (hphase : s.phase = .uploading
      (.chunkLoop ⟨Local_Flag, x :: todo, done, process_buffer, batch_basemap⟩)) :
    Stepped env s .offlinedeltaTure
      { (OfflinedeltaTure Local_Flag x s).2.2 with
        phase := .uploading (.loaded (OfflinedeltaTure Local_Flag x s).1
          ⟨Local_Flag, todo, done, process_buffer,
            batch_basemap ++ (OfflinedeltaTure Local_Flag x s).2.1.toList⟩) }
  | storeChunk {x : QueryEntry} {b : Batch} (hphase : s.phase = .uploading (.loaded x b)) :
    Stepped env s .storeChunk
      { (storeChunk env x s).2.2 with
        phase := .uploading (.chunkLoop
          { b with
            done := b.done ++ [(storeChunk env x s).1]
            process_buffer := b.process_buffer ++ (storeChunk env x s).2.1.toList }) }
  | endBatch {b : Batch} (hphase : s.phase = .uploading (.chunkLoop b)) (htodo : b.todo = []) :
    Stepped env s .endBatch { finishBatch b s with phase := .uploading (.answered b) }
  | updateOutIndex {b : Batch} (hphase : s.phase = .uploading (.answered b)) :
    Stepped env s .updateOutIndex
      { Ocall_UpdateOutIndex b.done s with phase := .uploading .ready }
  | uploadRecipeEnd (hphase : s.phase = .uploading .ready) :
    Stepped env s .uploadRecipeEnd { ProcessTailBatch s with phase := .uploading .tailed }
  | disconnect (hphase : s.phase = .uploading .ready ∨ s.phase = .uploading .tailed) :
    Stepped env s .disconnect { closeSession s with phase := .draining }
  | openFile {c : Container} {inputMQ : List Container} (hphase : Writing s)
    (hwriter : s.writer = none) (hqueue : s.inputMQ = c :: inputMQ) :
    Stepped env s .openFile
      { s with
        inputMQ := inputMQ
        writer := some (c, 0)
        files := s.files.insert c.path [] }
  | writeFile {n : Nat} {c : Container} {written : Nat} (hphase : Writing s)
    (hwriter : s.writer = some (c, written)) :
    Stepped env s (.writeFile n)
      { s with
        writer := some (c, min (written + n) c.body.length)
        files := s.files.insert c.path (c.body.take (written + n)) }
  | closeFile {c : Container} (hphase : Writing s) (hwriter : s.writer = some (c, c.body.length)) :
    Stepped env s .closeFile { s with writer := none }
  | join (hphase : s.phase = .draining) (hqueue : s.inputMQ = []) (hwriter : s.writer = none) :
    Stepped env s .join { s with phase := .idle }
  | getLocal (hphase : s.phase = .offline .update) (hdone : s.local_basemap.entries = [])
    (hmore : s.local_map ≠ []) : Stepped env s .getLocal (Ocall_GetLocal s)
  | updatePair {old new : Fp} {t : Server} (hphase : s.phase = .offline .update)
    (hpair : s.local_basemap.lookup old = some new) (ht : Easy_update_pair env old new s = some t) :
    Stepped env s (.updatePair old) { t with local_basemap := t.local_basemap.erase old }
  | coldrevise (hphase : s.phase = .offline .update) (hdone : s.local_basemap.entries = [])
    (hlast : s.local_map = []) :
    Stepped env s .coldrevise
      { (if s.hot_container.buf.length ≠ 0 then Ocall_SavehotContainer s else s) with
        phase := .offline (.cold s.cold_map.keys) }
  | updateCold {names : List ContainerName} {containerName : ContainerName} {t : Server}
    (hphase : s.phase = .offline (.cold names)) (hname : containerName ∈ names)
    (ht : Update_cold_container containerName s = some t) :
    Stepped env s (.updateCold containerName)
      { t with phase := .offline (.cold (names.erase containerName)) }
  | getMergeContainer (hphase : s.phase = .offline (.cold [])) :
    Stepped env s .getMergeContainer
      { s with phase := .offline (.merge (baseMergePair (baseContainerList s))) }
  | mergePair {p : ContainerName × ContainerName} {rest : List (ContainerName × ContainerName)}
    {t : Server} (hphase : s.phase = .offline (.merge (p :: rest))) (ht : mergePair p s = some t) :
    Stepped env s .mergePair { t with phase := .offline (.merge rest) }
  | endOffline (hphase : s.phase = .offline (.merge [])) :
    Stepped env s .endOffline { s with phase := .idle }

section Invert
variable {env : EnclaveEnv} {s s' : Server} {a : Action}

theorem stepWriter_stepped (hphase : Writing s) (h : stepWriter s a = some s') :
    Stepped env s a s' := by
  cases a with
  | openFile =>
    unfold stepWriter at h
    cases hwriter : s.writer with
    | some w => simp [hwriter] at h
    | none =>
      cases hqueue : s.inputMQ with
      | nil => simp [hwriter, hqueue] at h
      | cons c inputMQ =>
        simp only [hwriter, hqueue, Option.some.injEq] at h
        rw [← h]
        exact .openFile hphase hwriter hqueue
  | writeFile n =>
    unfold stepWriter at h
    cases hwriter : s.writer with
    | none => simp [hwriter] at h
    | some w =>
      obtain ⟨c, written⟩ := w
      simp only [hwriter, Option.some.injEq] at h
      rw [← h]
      exact .writeFile hphase hwriter
  | closeFile =>
    unfold stepWriter at h
    cases hwriter : s.writer with
    | none => simp [hwriter] at h
    | some w =>
      obtain ⟨c, written⟩ := w
      simp only [hwriter] at h
      by_cases hdone : written = c.body.length
      · rw [if_pos hdone, Option.some.injEq] at h
        rw [hdone] at hwriter
        rw [← h]
        exact .closeFile hphase hwriter
      · rw [if_neg hdone] at h
        simp at h
  | _ => simp [stepWriter] at h

theorem stepUpload_stepped {stage : UploadStage} (hphase : s.phase = .uploading stage)
    (h : stepUpload env s stage a = some s') : Stepped env s a s' := by
  unfold stepUpload at h
  split at h
  · split at h
    case isTrue hsize =>
      rw [← Option.some.inj h]
      exact .uploadChunk hphase hsize
    · simp at h
  · rw [← Option.some.inj h]
    exact .offlinedeltaTure hphase
  · rw [← Option.some.inj h]
    exact .storeChunk hphase
  · rw [← Option.some.inj h]
    exact .endBatch hphase rfl
  · rw [← Option.some.inj h]
    exact .updateOutIndex hphase
  · rw [← Option.some.inj h]
    exact .uploadRecipeEnd hphase
  · rw [← Option.some.inj h]
    exact .disconnect (Or.inl hphase)
  · rw [← Option.some.inj h]
    exact .disconnect (Or.inr hphase)
  · simp at h

theorem stepOffline_stepped {stage : OfflineStage} (hphase : s.phase = .offline stage)
    (h : stepOffline env s stage a = some s') : Stepped env s a s' := by
  unfold stepOffline at h
  split at h
  · split at h
    case isTrue hc =>
      rw [← Option.some.inj h]
      exact .getLocal hphase hc.1 hc.2
    · simp at h
  · obtain ⟨new, hpair, h⟩ := Option.bind_eq_some_iff.mp h
    obtain ⟨t, ht, h⟩ := Option.bind_eq_some_iff.mp h
    rw [← Option.some.inj h]
    exact .updatePair hphase hpair ht
  · split at h
    case isTrue hc =>
      have hcold : Stepped env s .coldrevise _ := .coldrevise hphase hc.1 hc.2
      rw [← Option.some.inj h]
      by_cases hbuf : s.hot_container.buf.length ≠ 0
      · simp only [if_pos hbuf] at hcold ⊢
        exact hcold
      · simp only [if_neg hbuf] at hcold ⊢
        exact hcold
    · simp at h
  · split at h
    case isTrue hname =>
      obtain ⟨t, ht, h⟩ := Option.bind_eq_some_iff.mp h
      rw [← Option.some.inj h]
      exact .updateCold hphase hname ht
    · simp at h
  · rw [← Option.some.inj h]
    exact .getMergeContainer hphase
  · obtain ⟨t, ht, h⟩ := Option.bind_eq_some_iff.mp h
    rw [← Option.some.inj h]
    exact .mergePair hphase ht
  · rw [← Option.some.inj h]
    exact .endOffline hphase
  · simp at h

/-- Every step is one of the listed ones, and stays in the range of `con_times`. -/
theorem step_stepped (h : step env s a = some s') : Stepped env s a s' ∧ s'.con_times < 2 ^ 31 := by
  unfold step at h
  obtain ⟨h, htimes⟩ := Option.filter_eq_some_iff.mp h
  refine ⟨?_, by simpa using htimes⟩
  unfold stepAny at h
  cases hphase : s.phase with
  | idle =>
    simp only [hphase] at h
    split at h
    · rw [← Option.some.inj h]
      exact .startSession hphase
    · split at h
      case isTrue horder =>
        rw [← Option.some.inj h]
        exact .processOff hphase horder
      · simp at h
    · simp at h
  | uploading stage =>
    simp only [hphase] at h
    rcases Option.or_eq_some_iff.mp h with h | ⟨_, h⟩
    · exact stepUpload_stepped hphase h
    · exact stepWriter_stepped (Or.inl ⟨stage, hphase⟩) h
  | draining =>
    simp only [hphase] at h
    split at h
    · split at h
      case isTrue hc =>
        rw [← Option.some.inj h]
        exact .join hphase hc.1 hc.2
      · simp at h
    · exact stepWriter_stepped (Or.inr hphase) h
  | offline stage =>
    simp only [hphase] at h
    exact stepOffline_stepped hphase h

end Invert

end ShieldReduce.Prototype
