import ShieldReduce.Lib.Runs
import ShieldReduce.Prototype.Recipe
import ShieldReduce.Prototype.State

/-!
# Handing elements over to a thread

`DataWriter::Run` and `DataSender::Run` are the same loop over a `MessageQueue`, which another thread
fills and closes meanwhile.
-/

namespace ShieldReduce.Prototype
open Lib Store

/-- The queue is taken to be linearizable. -/
structure MessageQueue (T : Type) where
  lockFreeQueue_ : List T
  done_ : Bool

/-- Where the consumer is in its loop. -/
inductive RunPoint (T : Type) where
  | testDone
  | testEmpty
  | pop
  | handle (data : T)
  | testJobDone
  | exited
  | failed

inductive ThreadAction
  /-- One `try_enqueue` of the loop in `Push`; it fails while there is no room. -/
  | push (room : Bool)
  | setDone
  | consume

/-- `toPush` is what the producer has still to push, `world` what the consumer works on. -/
structure Threads (T W : Type) where
  toPush : List T
  queue : MessageQueue T
  point : RunPoint T
  jobDoneFlag : Bool
  world : W

section Loop
variable {T W : Type} (process : T → W → Option W)

/-- One step of the consumer. `done_` and `IsEmpty` are read one after the other; `none` of `process`
is `exit(EXIT_FAILURE)`. -/
def runStep (s : Threads T W) : Option (Threads T W) :=
  match s.point with
  | .testDone => some { s with point := if s.queue.done_ then .testEmpty else .pop }
  | .testEmpty =>
    some { s with
      jobDoneFlag := s.jobDoneFlag || s.queue.lockFreeQueue_.isEmpty
      point := .pop }
  | .pop =>
    match s.queue.lockFreeQueue_ with
    | [] => some { s with point := .testJobDone }
    | data :: rest =>
      some { s with queue := { s.queue with lockFreeQueue_ := rest }, point := .handle data }
  | .handle data =>
    match process data s.world with
    | some world => some { s with world := world, point := .testJobDone }
    | none => some { s with point := .failed }
  | .testJobDone => some { s with point := if s.jobDoneFlag then .exited else .testDone }
  | .exited => none
  | .failed => none

def threadStep (s : Threads T W) : ThreadAction → Option (Threads T W)
  | .push room =>
    match s.toPush with
    | [] => none
    | data :: rest =>
      if room then
        some { s with
          toPush := rest
          queue := { s.queue with lockFreeQueue_ := s.queue.lockFreeQueue_ ++ [data] } }
      else some s
  | .setDone =>
    if s.toPush = [] then some { s with queue := { s.queue with done_ := true } } else none
  | .consume => runStep process s

/-- Before the first push. -/
def startThreads (elements : List T) (world : W) : Threads T W where
  toPush := elements
  queue := ⟨[], false⟩
  point := .testDone
  jobDoneFlag := false
  world := world

/-- The element that has been popped and not been processed. -/
def RunPoint.popped : RunPoint T → List T
  | .handle data => [data]
  | _ => []

/-- The elements are, in their order, processed, popped, in the queue or not yet pushed. -/
structure HandingOver (elements : List T) (world : W) (s : Threads T W) : Prop where
  split : s.point ≠ .failed → ∃ processed,
    elements = processed ++ s.point.popped ++ s.queue.lockFreeQueue_ ++ s.toPush ∧
      processed.foldlM (fun w data => process data w) world = some s.world
  closed : s.queue.done_ = true → s.toPush = []
  tested : s.point = .testEmpty → s.queue.done_ = true
  finished : s.jobDoneFlag = true → s.queue.done_ = true ∧ s.queue.lockFreeQueue_ = []
  exited : s.point = .exited → s.jobDoneFlag = true

variable {process} {elements : List T} {world : W} {s s' : Threads T W}

theorem HandingOver.start (elements : List T) (world : W) :
    HandingOver process elements world (startThreads elements world) := by
  refine ⟨fun _ => ⟨[], rfl, rfl⟩, ?_, ?_, ?_, ?_⟩
  · intro h
    simp [startThreads] at h
  · intro h
    simp [startThreads] at h
  · intro h
    simp [startThreads] at h
  · intro h
    simp [startThreads] at h

theorem HandingOver.push (h : HandingOver process elements world s) {data : T} {rest : List T}
    (hpush : s.toPush = data :: rest) :
    HandingOver process elements world { s with
      toPush := rest
      queue := { s.queue with lockFreeQueue_ := s.queue.lockFreeQueue_ ++ [data] } } := by
  have hopen : s.queue.done_ ≠ true := by
    intro hdone
    rw [h.closed hdone] at hpush
    simp at hpush
  refine ⟨?_, ?_, h.tested, ?_, h.exited⟩
  · intro hfail
    obtain ⟨processed, hsplit, hfold⟩ := h.split hfail
    refine ⟨processed, ?_, hfold⟩
    rw [hsplit, hpush]
    simp
  · exact fun hdone => absurd hdone hopen
  · exact fun hflag => absurd (h.finished hflag).1 hopen

/-- What the consumer does keeps the order. -/
theorem HandingOver.consume (h : HandingOver process elements world s)
    (hs : runStep process s = some s') : HandingOver process elements world s' := by
  obtain ⟨toPush, ⟨queue, done_⟩, point, jobDoneFlag, w⟩ := s
  obtain ⟨hsplit, hclosed, htested, hfinished, hexited⟩ := h
  cases point with
  | testDone =>
    simp only [runStep, Option.some.injEq] at hs
    subst hs
    cases done_ with
    | true => exact ⟨fun _ => hsplit (by simp), hclosed, fun _ => rfl, hfinished, by simp⟩
    | false => exact ⟨fun _ => hsplit (by simp), hclosed, by simp, hfinished, by simp⟩
  | testEmpty =>
    simp only [runStep, Option.some.injEq] at hs
    subst hs
    refine ⟨fun _ => hsplit (by simp), hclosed, by simp, ?_, by simp⟩
    intro hflag
    rcases (Bool.or_eq_true _ _).mp hflag with hflag | hempty
    · exact hfinished hflag
    · exact ⟨htested rfl, List.isEmpty_iff.mp hempty⟩
  | pop =>
    cases queue with
    | nil =>
      simp only [runStep, Option.some.injEq] at hs
      subst hs
      exact ⟨fun _ => hsplit (by simp), hclosed, by simp, hfinished, by simp⟩
    | cons data rest =>
      simp only [runStep, Option.some.injEq] at hs
      subst hs
      refine ⟨?_, hclosed, by simp, ?_, by simp⟩
      · intro _
        obtain ⟨processed, hel, hfold⟩ := hsplit (by simp)
        exact ⟨processed, by rw [hel]; simp [RunPoint.popped], hfold⟩
      · intro hflag
        exact absurd (hfinished hflag).2 (by simp)
  | handle data =>
    cases hproc : process data w with
    | none =>
      simp only [runStep, hproc, Option.some.injEq] at hs
      subst hs
      exact ⟨by simp, hclosed, by simp, hfinished, by simp⟩
    | some w' =>
      simp only [runStep, hproc, Option.some.injEq] at hs
      subst hs
      refine ⟨?_, hclosed, by simp, hfinished, by simp⟩
      intro _
      obtain ⟨processed, hel, hfold⟩ := hsplit (by simp)
      refine ⟨processed ++ [data], by rw [hel]; simp [RunPoint.popped], ?_⟩
      rw [List.foldlM_append, hfold]
      simp [hproc]
  | testJobDone =>
    simp only [runStep, Option.some.injEq] at hs
    subst hs
    cases jobDoneFlag with
    | true => exact ⟨fun _ => hsplit (by simp), hclosed, by simp, hfinished, fun _ => rfl⟩
    | false => exact ⟨fun _ => hsplit (by simp), hclosed, by simp, hfinished, by simp⟩
  | exited => simp [runStep] at hs
  | failed => simp [runStep] at hs

theorem HandingOver.step (h : HandingOver process elements world s) {a : ThreadAction}
    (hs : threadStep process s a = some s') : HandingOver process elements world s' := by
  cases a with
  | push room =>
    unfold threadStep at hs
    cases hpush : s.toPush with
    | nil => simp [hpush] at hs
    | cons data rest =>
      simp only [hpush] at hs
      cases room with
      | true =>
        rw [if_pos rfl, Option.some.injEq] at hs
        rw [← hs]
        exact h.push hpush
      | false =>
        rw [if_neg (by simp), Option.some.injEq] at hs
        rw [← hs]
        exact h
  | setDone =>
    unfold threadStep at hs
    dsimp only at hs
    split at hs
    case isTrue hpush =>
      rw [← Option.some.inj hs]
      exact ⟨h.split, fun _ => hpush, fun _ => rfl, fun hflag => ⟨rfl, (h.finished hflag).2⟩,
        h.exited⟩
    · simp at hs
  | consume => exact h.consume hs

/-- When the consumer leaves its loop, it has processed every element once, in the order of the
pushes, and nothing else. -/
theorem threads_exit {acts : List ThreadAction}
    (hrun : runs (threadStep process) (startThreads elements world) acts = some s)
    (hexit : s.point = .exited) :
    elements.foldlM (fun w data => process data w) world = some s.world ∧
      s.queue.lockFreeQueue_ = [] ∧ s.toPush = [] := by
  have hstep : ∀ {s s' : Threads T W} {a : ThreadAction}, HandingOver process elements world s →
      threadStep process s a = some s' → HandingOver process elements world s' :=
    fun h hs => h.step hs
  have h := runs_invariant hstep (HandingOver.start elements world) hrun
  obtain ⟨hdone, hempty⟩ := h.finished (h.exited hexit)
  have hpushed := h.closed hdone
  obtain ⟨processed, hsplit, hfold⟩ := h.split (by rw [hexit]; simp)
  rw [hempty, hpushed, hexit] at hsplit
  have hall : elements = processed := by simpa [RunPoint.popped] using hsplit
  rw [hall]
  exact ⟨hfold, hempty, hpushed⟩

end Loop

section Writer

/-- `DataWriter`: the container files and how many it has written. -/
structure DataWriter where
  files : Table Path Bytes
  containerNum_ : Nat

/-- `fopen` says which files can be opened. -/
def DataWriter.SaveToFile (fopen : Path → Bool) (newContainer : Container) (w : DataWriter) :
    Option DataWriter :=
  if fopen newContainer.path then
    some { w with files := w.files.insert newContainer.path newContainer.body }
  else none

def DataWriter.process (fopen : Path → Bool) (tmpContainer : Container) (w : DataWriter) :
    Option DataWriter :=
  (w.SaveToFile fopen tmpContainer).map fun w => { w with containerNum_ := w.containerNum_ + 1 }

/-- The receiving thread and `DataWriter::Run`. -/
def DataWriter.Run (fopen : Path → Bool) :
    Threads Container DataWriter → ThreadAction → Option (Threads Container DataWriter) :=
  threadStep (DataWriter.process fopen)

end Writer

section Sender
variable (crypto : RecipeCrypto) (sendChunkBatchSize : Nat)

/-- `Data_t`; `other` is any other `dataType`. -/
inductive Data where
  | DATA_CHUNK (chunk : ChunkData)
  | RECIPE_END (recipeHead : FileRecipeHead)
  | other

def DataSender.process : Data → Sender → Option Sender
  | .DATA_CHUNK chunk, s => some (ProcessChunk crypto sendChunkBatchSize s chunk)
  -- the head stays in the buffer, behind which the next chunk would go
  | .RECIPE_END recipeHead, s =>
    some ⟨recipeHead.val, 0, ProcessRecipeEnd crypto recipeHead s⟩
  | .other, _ => none

/-- The chunker and `DataSender::Run`. -/
def DataSender.Run : Threads Data Sender → ThreadAction → Option (Threads Data Sender) :=
  threadStep (DataSender.process crypto sendChunkBatchSize)

/-- What the chunker pushes for a file. -/
def chunkerData (chunks : List ChunkData) (recipeHead : FileRecipeHead) : List Data :=
  chunks.map .DATA_CHUNK ++ [.RECIPE_END recipeHead]

theorem foldlM_chunks (chunks : List ChunkData) (s : Sender) :
    (chunks.map Data.DATA_CHUNK).foldlM
      (fun s data => DataSender.process crypto sendChunkBatchSize data s) s =
      some (chunks.foldl (ProcessChunk crypto sendChunkBatchSize) s) := by
  induction chunks generalizing s with
  | nil => rfl
  | cons chunk chunks ih =>
    rw [List.map_cons, List.foldlM_cons, List.foldl_cons, ← ih]
    rfl

/-- Whatever the schedule, the threads of an upload send what the file amounts to. -/
theorem sender_sends {chunks : List ChunkData} {recipeHead : FileRecipeHead}
    {acts : List ThreadAction} {s : Threads Data Sender}
    (hrun : runs (DataSender.Run crypto sendChunkBatchSize)
      (startThreads (chunkerData chunks recipeHead) ⟨[], 0, []⟩) acts = some s)
    (hexit : s.point = .exited) :
    s.world.sent = sendFile crypto sendChunkBatchSize chunks recipeHead := by
  have hworld := (threads_exit hrun hexit).1
  unfold chunkerData at hworld
  rw [List.foldlM_append, foldlM_chunks] at hworld
  rw [← Option.some.inj hworld]
  rfl

end Sender

/-- Neither thread loses, repeats or reorders what is pushed. -/
theorem Run_hands_over :
    (∀ (fopen : Path → Bool) (containers : List Container) (w : DataWriter)
      (acts : List ThreadAction) (s : Threads Container DataWriter),
      runs (DataWriter.Run fopen) (startThreads containers w) acts = some s →
      s.point = .exited →
      containers.foldlM (fun w c => DataWriter.process fopen c w) w = some s.world ∧
        s.queue.lockFreeQueue_ = [] ∧ s.toPush = []) ∧
    ∀ (crypto : RecipeCrypto) (sendChunkBatchSize : Nat) (elements : List Data) (w : Sender)
      (acts : List ThreadAction) (s : Threads Data Sender),
      runs (DataSender.Run crypto sendChunkBatchSize) (startThreads elements w) acts = some s →
      s.point = .exited →
      elements.foldlM (fun w data => DataSender.process crypto sendChunkBatchSize data w) w =
          some s.world ∧
        s.queue.lockFreeQueue_ = [] ∧ s.toPush = [] := by
  refine ⟨?_, ?_⟩
  · intro fopen containers w acts s hrun hexit
    exact threads_exit hrun hexit
  · intro crypto sendChunkBatchSize elements w acts s hrun hexit
    exact threads_exit hrun hexit

/-- The second element is pushed between two looks at the queue, the first while it is empty. -/
def twoPushes : List ThreadAction :=
  [.consume, .push true, .consume, .push false, .push true, .consume, .consume, .setDone, .consume,
    .consume, .consume, .consume, .consume, .consume, .consume, .consume, .consume]

theorem Run_hands_over_two :
    let c : Bool → Container := fun d => ⟨FixedBytes.fill 7 0, d, [1, 2]⟩
    let data : List Data := [.DATA_CHUNK ⟨[1], by decide⟩, .RECIPE_END (FixedBytes.fill 16 0)]
    (∃ s, runs (DataWriter.Run fun _ => true) (startThreads [c false, c true] ⟨∅, 0⟩) twoPushes =
        some s ∧
      [c false, c true].foldlM (fun w c => DataWriter.process (fun _ => true) c w) ⟨∅, 0⟩ =
        some s.world) ∧
    ∃ s, runs (DataSender.Run xorCrypto 2) (startThreads data ⟨[], 0, []⟩) twoPushes = some s ∧
      data.foldlM (fun w d => DataSender.process xorCrypto 2 d w) ⟨[], 0, []⟩ = some s.world := by
  intro c data
  refine ⟨⟨_, rfl, ?_⟩, ⟨_, rfl, ?_⟩⟩
  · exact (Run_hands_over.1 (fun _ => true) [c false, c true] ⟨∅, 0⟩ twoPushes _ rfl rfl).1
  · exact (Run_hands_over.2 xorCrypto 2 data ⟨[], 0, []⟩ twoPushes _ rfl rfl).1

end ShieldReduce.Prototype
