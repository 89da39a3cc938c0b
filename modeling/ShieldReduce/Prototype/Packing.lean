import ShieldReduce.Prototype.Expand

/-!
# Packing the containers of one session

Any sequence of `SavebaseChunk` and `SavedeltaChunk` calls of a client, `ProcessTailBatch` and the
end of `DataReceiver::Run`: which containers go to the writer, and what stands in them.
-/

namespace ShieldReduce.Prototype
open Lib Store EDelta

section Calls

/-- A call of `SavebaseChunk`, or of `SavedeltaChunk` at `delta`, with the `_iv` of the client. -/
structure SaveCall where
  delta : Bool
  chunkData : Bytes
  chunkAddr : RecipeEntry
  chunksf : SuperFeature
  chunkfp : Fp
  iv : IV

def SaveCall.run (c : SaveCall) (s : Server) : Server × RecipeEntry :=
  let s := { s with iv := c.iv }
  if c.delta then SavedeltaChunk c.chunkData c.chunkAddr c.chunksf c.chunkfp s
  else SavebaseChunk c.chunkData c.chunkAddr c.chunksf c.chunkfp s

/-- The calls one after the other, with the `chunkAddr` each returns. -/
def saveCalls : List SaveCall → Server → Server × List RecipeEntry
  | [], s => (s, [])
  | c :: cs, s => ((saveCalls cs (c.run s).1).1, (c.run s).2 :: (saveCalls cs (c.run s).1).2)

/-- One session: `ClientVar`, the calls, `ProcessTailBatch` and the end of `DataReceiver::Run`. -/
def saveSession (iv : IV) (calls : List SaveCall) (s : Server) : Server × List RecipeEntry :=
  (closeSession (ProcessTailBatch (saveCalls calls (startSession iv s)).1),
    (saveCalls calls (startSession iv s)).2)

/-- The record of a call that returned `chunkAddr`. -/
def SaveCall.record (c : SaveCall) (chunkAddr : RecipeEntry) : ChunkRecord :=
  ⟨chunkAddr, c.chunkfp, c.chunksf, c.chunkData, c.iv⟩

/-- The `chunkAddr` when the two functions come to choose the container. -/
def SaveCall.addr (c : SaveCall) : RecipeEntry :=
  if c.delta then { c.chunkAddr with length := UInt32.ofNat c.chunkData.length }
  else { c.chunkAddr with
    length := UInt32.ofNat c.chunkData.length, superfeature := c.chunksf }

theorem SaveCall.run_eq (c : SaveCall) (s : Server) :
    c.run s = saveChunk c.delta c.chunkData c.addr c.chunksf c.chunkfp { s with iv := c.iv } := by
  unfold SaveCall.run SaveCall.addr
  cases c.delta with
  | true => rfl
  | false => rfl

theorem SaveCall.addr_length (c : SaveCall) (h : c.chunkData.length ≤ MAX_CHUNK_SIZE) :
    c.addr.length.toNat = c.chunkData.length := by
  have hmax : MAX_CHUNK_SIZE < 2 ^ 32 := by decide
  have hlen : (UInt32.ofNat c.chunkData.length).toNat = c.chunkData.length := by
    rw [UInt32.toNat_ofNat', Nat.mod_eq_of_lt (by omega)]
  unfold SaveCall.addr
  cases c.delta with
  | true => exact hlen
  | false => exact hlen

end Calls

section Packing
variable {queue : List Container} {log : List (SaveCall × RecipeEntry)}
  {emitted : List (Container × List ChunkRecord)} {current : Bool → List ChunkRecord} {s : Server}

/-- What the calls in `log` have made: the containers pushed behind `queue`, each with its records,
and the records of the two buffers. -/
structure Packing (queue : List Container) (log : List (SaveCall × RecipeEntry))
    (emitted : List (Container × List ChunkRecord)) (current : Bool → List ChunkRecord)
    (s : Server) : Prop where
  pushed : s.inputMQ = queue ++ emitted.map Prod.fst
  packed : ∀ p ∈ emitted, p.1.body = layout p.2 ∧ PackedFrom p.1.containerID 0 p.2 ∧
    p.1.body.length < MAX_CONTAINER_SIZE
  buf : ∀ d, (s.opened d).buf = layout (current d)
  opened : ∀ d, PackedFrom (s.opened d).containerID 0 (current d)
  small : ∀ d, (s.opened d).buf.length < MAX_CONTAINER_SIZE
  body : ∀ d, (s.opened d).body = []
  records : ∀ d, ((emitted.filter fun p => p.1.deltaFlag = d).flatMap Prod.snd) ++ current d =
    (log.filter fun x => x.1.delta = d).map fun x => x.1.record x.2
  names : (emitted.map fun p => p.1.containerID).Nodup
  apart : ∀ d, (s.opened d).containerID ∉ emitted.map fun p => p.1.containerID
  streams : ∀ d d', d ≠ d' → (s.opened d).containerID ≠ (s.opened d').containerID
  drawn : ∀ d, Drawn s.con_times (s.opened d).containerID
  pushedDrawn : ∀ name ∈ emitted.map fun p => p.1.containerID, Drawn s.con_times name

theorem startSession_packing (iv : IV) (s : Server) (htimes : s.con_times + 1 < 2 ^ 31) :
    Packing s.inputMQ [] [] (fun _ => []) (startSession iv s) := by
  constructor
  · simp [startSession]
  · simp
  · intro d
    rfl
  · intro d
    trivial
  · intro d
    exact (by decide : 0 < MAX_CONTAINER_SIZE)
  · intro d
    rfl
  · intro d
    rfl
  · simp
  · simp
  · have hne : CreateUUID s.con_times ≠ CreateUUID (s.con_times + 1) := by
      intro heq
      have hinj := CreateUUID_inj (by omega) (by omega) heq
      omega
    intro d d' hd
    cases d with
    | false =>
      cases d' with
      | false => exact absurd rfl hd
      | true => exact hne
    | true =>
      cases d' with
      | false => exact hne.symm
      | true => exact absurd rfl hd
  · intro d
    cases d with
    | false => exact ⟨s.con_times, Nat.lt_add_of_pos_right (by decide), rfl⟩
    | true => exact ⟨s.con_times + 1, Nat.lt_succ_self _, rfl⟩
  · simp

/-- A container of records goes to the writer; the next name is new. -/
theorem Packing.push (h : Packing queue log emitted current s) (htimes : s.con_times < 2 ^ 31)
    (d : Bool) :
    Packing queue log
      (emitted ++ [(⟨(s.opened d).containerID, d, (s.opened d).buf⟩, current d)])
      (Function.update current d []) (flushed d s) := by
  have hnew : ∀ name, Drawn s.con_times name → name ≠ CreateUUID s.con_times :=
    fun name hname heq => not_drawn_self htimes (heq ▸ hname)
  have hself : (flushed d s).opened d = ⟨CreateUUID s.con_times, [], []⟩ :=
    Function.update_self _ _ _
  have hother : ∀ d', d' ≠ d → (flushed d s).opened d' = s.opened d' :=
    fun d' hd' => Function.update_of_ne hd' _ _
  have hnames : (emitted ++ [((⟨(s.opened d).containerID, d, (s.opened d).buf⟩ : Container),
      current d)]).map (fun p => p.1.containerID) =
      (emitted.map fun p => p.1.containerID) ++ [(s.opened d).containerID] := List.map_append
  constructor
  · rw [List.map_append, ← List.append_assoc, ← h.pushed]
    rfl
  · intro p hp
    rcases List.mem_append.mp hp with hp | hp
    · exact h.packed p hp
    · rw [List.mem_singleton.mp hp]
      exact ⟨h.buf d, h.opened d, h.small d⟩
  · intro d'
    by_cases hd : d' = d
    · rw [hd, hself, Function.update_self]
      rfl
    · rw [hother d' hd, Function.update_of_ne hd, h.buf d']
  · intro d'
    by_cases hd : d' = d
    · rw [hd, Function.update_self]
      trivial
    · rw [hother d' hd, Function.update_of_ne hd]
      exact h.opened d'
  · intro d'
    by_cases hd : d' = d
    · rw [hd, hself]
      exact (by decide : 0 < MAX_CONTAINER_SIZE)
    · rw [hother d' hd]
      exact h.small d'
  · intro d'
    by_cases hd : d' = d
    · rw [hd, hself]
    · rw [hother d' hd]
      exact h.body d'
  · intro d'
    rw [← h.records d', List.filter_append, List.flatMap_append]
    by_cases hd : d' = d
    · subst hd
      simp
    · rw [Function.update_of_ne hd, List.filter_cons_of_neg (by simpa using Ne.symm hd)]
      simp
  · rw [hnames, List.nodup_append]
    refine ⟨h.names, by simp, ?_⟩
    intro a ha b hb heq
    rw [List.mem_singleton.mp hb] at heq
    rw [heq] at ha
    exact h.apart d ha
  · intro d'
    rw [hnames, List.mem_append, List.mem_singleton]
    rintro (hmem | heq)
    · by_cases hd : d' = d
      · rw [hd, hself] at hmem
        exact hnew _ (h.pushedDrawn _ hmem) rfl
      · rw [hother d' hd] at hmem
        exact h.apart d' hmem
    · by_cases hd : d' = d
      · rw [hd, hself] at heq
        exact hnew _ (h.drawn d) heq.symm
      · rw [hother d' hd] at heq
        exact h.streams d' d hd heq
  · intro d₁ d₂ hd
    by_cases h₁ : d₁ = d
    · have h₂ : d₂ ≠ d := fun heq => hd (h₁.trans heq.symm)
      rw [h₁, hself, hother d₂ h₂]
      exact (hnew _ (h.drawn d₂)).symm
    · rw [hother d₁ h₁]
      by_cases h₂ : d₂ = d
      · rw [h₂, hself]
        exact hnew _ (h.drawn d₁)
      · rw [hother d₂ h₂]
        exact h.streams d₁ d₂ hd
  · intro d'
    by_cases hd : d' = d
    · rw [hd, hself]
      exact ⟨s.con_times, Nat.lt_succ_self _, rfl⟩
    · rw [hother d' hd]
      exact (h.drawn d').mono (Nat.le_succ _)
  · intro name hname
    rw [hnames, List.mem_append, List.mem_singleton] at hname
    rcases hname with hname | rfl
    · exact (h.pushedDrawn name hname).mono (Nat.le_succ _)
    · exact (h.drawn d).mono (Nat.le_succ _)

/-- A call whose record fits in the buffer puts it at the end. -/
theorem SaveCall.run_fits {c : SaveCall} {s : Server}
    (hfits : recordFits c.chunkData (s.opened c.delta).buf.length) :
    (c.run s).2 = { c.addr with
      offset := UInt32.ofNat (s.opened c.delta).buf.length
      containerName := (s.opened c.delta).containerID } ∧
    (c.run s).1 = { s with
      iv := c.iv
      opened := Function.update s.opened c.delta { s.opened c.delta with
        buf := (s.opened c.delta).buf ++ (c.record (c.run s).2).toBytes } } := by
  have hrun := c.run_eq s
  unfold saveChunk at hrun
  have hfits' : recordFits c.chunkData
      (({ s with iv := c.iv } : Server).opened c.delta).buf.length := hfits
  rw [if_pos hfits'] at hrun
  rw [hrun]
  exact ⟨rfl, rfl⟩

theorem Packing.put (h : Packing queue log emitted current s) {c : SaveCall}
    (hsize : c.chunkData.length ≤ MAX_CHUNK_SIZE)
    (hfits : recordFits c.chunkData (s.opened c.delta).buf.length) :
    Packing queue (log ++ [(c, (c.run s).2)]) emitted
      (Function.update current c.delta (current c.delta ++ [c.record (c.run s).2])) (c.run s).1 := by
  have hmax : MAX_CONTAINER_SIZE < 2 ^ 32 := by decide
  obtain ⟨haddr, hstate⟩ := SaveCall.run_fits hfits
  have hoffset : (c.run s).2.offset.toNat = (s.opened c.delta).buf.length := by
    have hsmall := h.small c.delta
    rw [haddr]
    dsimp only
    rw [UInt32.toNat_ofNat', Nat.mod_eq_of_lt (by omega)]
  have hlength : (c.run s).2.length.toNat = c.chunkData.length := by
    rw [haddr]
    exact c.addr_length hsize
  have hname : (c.run s).2.containerName = (s.opened c.delta).containerID := by rw [haddr]
  have hself : (c.run s).1.opened c.delta = { s.opened c.delta with
      buf := (s.opened c.delta).buf ++ (c.record (c.run s).2).toBytes } := by
    rw [hstate]
    exact Function.update_self _ _ _
  have hother : ∀ d, d ≠ c.delta → (c.run s).1.opened d = s.opened d := by
    intro d hd
    rw [hstate]
    exact Function.update_of_ne hd _ _
  have hID : ∀ d, ((c.run s).1.opened d).containerID = (s.opened d).containerID := by
    intro d
    by_cases hd : d = c.delta
    · rw [hd, hself]
    · rw [hother d hd]
  have htimes : (c.run s).1.con_times = s.con_times := by rw [hstate]
  constructor
  · rw [hstate]
    exact h.pushed
  · exact h.packed
  · intro d
    by_cases hd : d = c.delta
    · rw [hd, hself, Function.update_self, layout_append, layout_singleton, h.buf c.delta]
    · rw [hother d hd, Function.update_of_ne hd, h.buf d]
  · intro d
    rw [hID]
    by_cases hd : d = c.delta
    · rw [hd, Function.update_self, packedFrom_append, Nat.zero_add, ← h.buf c.delta]
      exact ⟨h.opened c.delta, hname, hoffset, hlength, trivial⟩
    · rw [Function.update_of_ne hd]
      exact h.opened d
  · intro d
    by_cases hd : d = c.delta
    · rw [hd, hself, List.length_append, ChunkRecord.toBytes_length]
      unfold recordFits at hfits
      change _ + (c.chunkData.length + RECORD_OVERHEAD) < _
      unfold RECORD_OVERHEAD
      omega
    · rw [hother d hd]
      exact h.small d
  · intro d
    by_cases hd : d = c.delta
    · rw [hd, hself]
      exact h.body c.delta
    · rw [hother d hd]
      exact h.body d
  · intro d
    rw [List.filter_append, List.map_append, ← h.records d]
    by_cases hd : d = c.delta
    · subst hd
      simp
    · rw [Function.update_of_ne hd, List.filter_cons_of_neg (by simpa using Ne.symm hd)]
      simp
  · exact h.names
  · intro d
    rw [hID]
    exact h.apart d
  · intro d d' hd
    rw [hID, hID]
    exact h.streams d d' hd
  · intro d
    rw [hID, htimes]
    exact h.drawn d
  · intro name hname
    rw [htimes]
    exact h.pushedDrawn name hname

/-- A call that flushes the container first is a call after the flush. -/
theorem SaveCall.run_full {c : SaveCall} {s : Server} (hsize : c.chunkData.length ≤ MAX_CHUNK_SIZE)
    (hfull : ¬recordFits c.chunkData (s.opened c.delta).buf.length) :
    c.run s = c.run (flushed c.delta s) := by
  rw [c.run_eq, c.run_eq]
  exact saveChunk_full (s := { s with iv := c.iv }) hsize hfull c.addr c.chunksf c.chunkfp

theorem SaveCall.run_con_times (c : SaveCall) (s : Server) :
    s.con_times ≤ (c.run s).1.con_times ∧
      (¬recordFits c.chunkData (s.opened c.delta).buf.length →
        s.con_times + 1 ≤ (c.run s).1.con_times) := by
  rw [c.run_eq]
  unfold saveChunk
  by_cases hfits : recordFits c.chunkData (s.opened c.delta).buf.length
  · rw [if_pos (show recordFits c.chunkData
      (({ s with iv := c.iv } : Server).opened c.delta).buf.length from hfits)]
    exact ⟨Nat.le_refl _, fun hfull => absurd hfits hfull⟩
  · rw [if_neg (show ¬recordFits c.chunkData
      (({ s with iv := c.iv } : Server).opened c.delta).buf.length from hfits)]
    exact ⟨Nat.le_succ _, fun _ => Nat.le_refl _⟩

/-- One call. -/
theorem Packing.call (h : Packing queue log emitted current s) (c : SaveCall)
    (hsize : c.chunkData.length ≤ MAX_CHUNK_SIZE) (htimes : (c.run s).1.con_times ≤ 2 ^ 31) :
    ∃ emitted' current', Packing queue (log ++ [(c, (c.run s).2)]) emitted' current'
      (c.run s).1 := by
  by_cases hfits : recordFits c.chunkData (s.opened c.delta).buf.length
  · exact ⟨_, _, h.put hsize hfits⟩
  · have hmore := (c.run_con_times s).2 hfits
    rw [SaveCall.run_full hsize hfits]
    exact ⟨_, _, (h.push (by omega) c.delta).put hsize (flushed_fits hsize c.delta s)⟩

theorem saveCalls_con_times (calls : List SaveCall) (s : Server) :
    s.con_times ≤ (saveCalls calls s).1.con_times := by
  induction calls generalizing s with
  | nil => exact Nat.le_refl _
  | cons c cs ih => exact Nat.le_trans (c.run_con_times s).1 (ih (c.run s).1)

theorem saveCalls_length (calls : List SaveCall) (s : Server) :
    (saveCalls calls s).2.length = calls.length := by
  induction calls generalizing s with
  | nil => rfl
  | cons c cs ih =>
    unfold saveCalls
    rw [List.length_cons, List.length_cons, ih]

/-- The calls one after the other. -/
theorem Packing.calls (h : Packing queue log emitted current s) (calls : List SaveCall)
    (hsizes : ∀ c ∈ calls, c.chunkData.length ≤ MAX_CHUNK_SIZE)
    (htimes : (saveCalls calls s).1.con_times ≤ 2 ^ 31) :
    ∃ emitted' current', Packing queue (log ++ calls.zip (saveCalls calls s).2) emitted' current'
      (saveCalls calls s).1 := by
  induction calls generalizing s log emitted current with
  | nil =>
    refine ⟨emitted, current, ?_⟩
    rw [List.zip_nil_left, List.append_nil]
    exact h
  | cons c cs ih =>
    have hle := saveCalls_con_times cs (c.run s).1
    obtain ⟨emitted₁, current₁, h₁⟩ :=
      h.call c (hsizes c List.mem_cons_self) (Nat.le_trans hle htimes)
    obtain ⟨emitted', current', h'⟩ :=
      ih h₁ (fun c' hc' => hsizes c' (List.mem_cons_of_mem c hc')) htimes
    refine ⟨emitted', current', ?_⟩
    rw [List.append_assoc] at h'
    exact h'

end Packing

section Last
variable {queue : List Container} {log : List (SaveCall × RecipeEntry)}
  {emitted : List (Container × List ChunkRecord)} {current : Bool → List ChunkRecord} {s : Server}

/-- The container that is left in a buffer goes to the writer as a full one does. -/
def lastFlush (d : Bool) (s : Server) : Server :=
  if (s.opened d).buf.length ≠ 0 then flushed d s else s

theorem Packing.last (h : Packing queue log emitted current s) (d : Bool)
    (htimes : (lastFlush d s).con_times ≤ 2 ^ 31) :
    ∃ emitted', Packing queue log emitted' (Function.update current d []) (lastFlush d s) := by
  unfold lastFlush at htimes ⊢
  by_cases hbuf : (s.opened d).buf.length ≠ 0
  · rw [if_pos hbuf] at htimes ⊢
    have hlt : s.con_times < 2 ^ 31 := htimes
    exact ⟨_, h.push hlt d⟩
  · rw [if_neg hbuf]
    have hnil : current d = [] := by
      have hlen := h.buf d
      cases hc : current d with
      | nil => rfl
      | cons r rs =>
        rw [hc, layout_cons] at hlen
        have hpos := size_pos r
        rw [not_not, hlen, List.length_append, ChunkRecord.toBytes_length] at hbuf
        omega
    rw [← hnil, Function.update_eq_self]
    exact ⟨emitted, h⟩

/-- `ProcessTailBatch` has copied the buffer of directory `d`, and `DataReceiver::Run` pushes it. -/
theorem lastContainer_tail {t : Server} {d : Bool} (hbody : (s.opened d).body = [])
    (htail : t.opened d = tailContainer (s.opened d)) (hqueue : t.inputMQ = s.inputMQ)
    (htimes : t.con_times = s.con_times) :
    (lastContainer d t).inputMQ = (lastFlush d s).inputMQ ∧
      (lastContainer d t).con_times = (lastFlush d s).con_times ∧
      ∀ d', d' ≠ d → (lastContainer d t).opened d' = t.opened d' ∧
        (lastFlush d s).opened d' = s.opened d' := by
  unfold lastContainer lastFlush
  by_cases hbuf : (s.opened d).buf.length ≠ 0
  · have hcopy : t.opened d = { s.opened d with body := (s.opened d).buf } := by
      rw [htail]
      exact if_pos hbuf
    have hcopied : (t.opened d).body.length ≠ 0 := by
      rw [hcopy]
      exact hbuf
    rw [if_pos hcopied, if_pos hbuf]
    unfold writeContainer flushed
    dsimp only
    rw [hcopy, hqueue, htimes]
    exact ⟨rfl, rfl, fun d' hd' => ⟨Function.update_of_ne hd' _ _, Function.update_of_ne hd' _ _⟩⟩
  · have hleft : ¬(t.opened d).body.length ≠ 0 := by
      have hsame : tailContainer (s.opened d) = s.opened d := if_neg hbuf
      rw [htail, hsame, hbody]
      simp
    rw [if_neg hleft, if_neg hbuf]
    exact ⟨hqueue, htimes, fun _ _ => ⟨rfl, rfl⟩⟩

theorem closeSession_tail (hbody : ∀ d, (s.opened d).body = []) :
    (closeSession (ProcessTailBatch s)).inputMQ = (lastFlush true (lastFlush false s)).inputMQ ∧
      (closeSession (ProcessTailBatch s)).con_times =
        (lastFlush true (lastFlush false s)).con_times := by
  obtain ⟨hqueue, htimes, hother⟩ :=
    @lastContainer_tail s (ProcessTailBatch s) false (hbody false) rfl rfl rfl
  obtain ⟨htail, hflush⟩ := hother true (by simp)
  have hbody' : ((lastFlush false s).opened true).body = [] := by
    rw [hflush]
    exact hbody true
  have htail' : (lastContainer false (ProcessTailBatch s)).opened true =
      tailContainer ((lastFlush false s).opened true) := by
    rw [htail, hflush]
    rfl
  obtain ⟨hqueue', htimes', _⟩ := lastContainer_tail hbody' htail' hqueue htimes
  exact ⟨hqueue', htimes'⟩

theorem lastFlush_con_times (d : Bool) (s : Server) : s.con_times ≤ (lastFlush d s).con_times := by
  unfold lastFlush
  split
  · exact Nat.le_succ _
  · exact Nat.le_refl _

theorem closeSession_con_times (s : Server) :
    s.con_times ≤ (closeSession (ProcessTailBatch s)).con_times := by
  have hlast : ∀ (d : Bool) (t : Server), t.con_times ≤ (lastContainer d t).con_times := by
    intro d t
    unfold lastContainer
    split
    · exact Nat.le_succ _
    · exact Nat.le_refl _
  exact Nat.le_trans (hlast false (ProcessTailBatch s)) (hlast true _)

/-- A whole session. -/
theorem saveSession_packing (iv : IV) (calls : List SaveCall) (s : Server)
    (hsizes : ∀ c ∈ calls, c.chunkData.length ≤ MAX_CHUNK_SIZE)
    (htimes : (saveSession iv calls s).1.con_times ≤ 2 ^ 31) :
    ∃ emitted t, Packing s.inputMQ (calls.zip (saveSession iv calls s).2) emitted (fun _ => []) t ∧
      (saveSession iv calls s).1.inputMQ = t.inputMQ := by
  have hcalls := saveCalls_con_times calls (startSession iv s)
  have hclose := closeSession_con_times (saveCalls calls (startSession iv s)).1
  have hstart : (startSession iv s).con_times = s.con_times + 2 := rfl
  have hend : (closeSession (ProcessTailBatch (saveCalls calls (startSession iv s)).1)).con_times ≤
      2 ^ 31 := htimes
  obtain ⟨emitted, current, hpacking⟩ :=
    (startSession_packing iv s (by omega)).calls calls hsizes (by omega)
  rw [List.nil_append] at hpacking
  obtain ⟨hqueue, hlast⟩ := closeSession_tail hpacking.body
  rw [hlast] at hend
  have hmore := lastFlush_con_times true (lastFlush false (saveCalls calls (startSession iv s)).1)
  obtain ⟨emitted₁, h₁⟩ := hpacking.last false (Nat.le_trans hmore hend)
  obtain ⟨emitted₂, h₂⟩ := h₁.last true hend
  have hempty : Function.update (Function.update current false []) true [] = fun _ => [] := by
    funext d
    cases d with
    | true => rw [Function.update_self]
    | false => rw [Function.update_of_ne (by simp), Function.update_self]
  rw [hempty] at h₂
  exact ⟨emitted₂, _, h₂, hqueue⟩

end Last

section PackedSession

/-- The containers of a session: each is packed from the records of the calls of its kind, in the
order of the calls, and the address that a call returned is the place of its record. -/
theorem session_packs (iv : IV) (calls : List SaveCall) (s : Server)
    (hsizes : ∀ c ∈ calls, c.chunkData.length ≤ MAX_CHUNK_SIZE)
    (htimes : (saveSession iv calls s).1.con_times ≤ 2 ^ 31) :
    (saveSession iv calls s).2.length = calls.length ∧
    ∃ emitted : List (Container × List ChunkRecord),
      (saveSession iv calls s).1.inputMQ = s.inputMQ ++ emitted.map Prod.fst ∧
      (emitted.map fun p => p.1.containerID).Nodup ∧
      (∀ p ∈ emitted, p.1.body = layout p.2 ∧ PackedFrom p.1.containerID 0 p.2 ∧
        p.1.body.length < MAX_CONTAINER_SIZE) ∧
      (∀ d, (emitted.filter fun p => p.1.deltaFlag = d).flatMap Prod.snd =
        ((calls.zip (saveSession iv calls s).2).filter fun x => x.1.delta = d).map
          fun x => x.1.record x.2) ∧
      ∀ x ∈ calls.zip (saveSession iv calls s).2, x.2.length.toNat = x.1.chunkData.length ∧
        ∃ p ∈ emitted, p.1.deltaFlag = x.1.delta ∧ p.1.containerID = x.2.containerName ∧
          x.1.record x.2 ∈ p.2 ∧ StandsIn p.1.body (x.1.record x.2) := by
  refine ⟨saveCalls_length calls _, ?_⟩
  obtain ⟨emitted, t, h, hqueue⟩ := saveSession_packing iv calls s hsizes htimes
  have hrecords : ∀ d, (emitted.filter fun p => p.1.deltaFlag = d).flatMap Prod.snd =
      ((calls.zip (saveSession iv calls s).2).filter fun x => x.1.delta = d).map
        fun x => x.1.record x.2 := by
    intro d
    rw [← h.records d, List.append_nil]
  refine ⟨emitted, by rw [hqueue, h.pushed], h.names, h.packed, hrecords, ?_⟩
  intro x hx
  have hmem : x.1.record x.2 ∈
      (emitted.filter fun p => p.1.deltaFlag = x.1.delta).flatMap Prod.snd := by
    rw [hrecords]
    exact List.mem_map.mpr ⟨x, List.mem_filter.mpr ⟨hx, by simp⟩, rfl⟩
  obtain ⟨p, hp, hr⟩ := List.mem_flatMap.mp hmem
  obtain ⟨hemitted, hflag⟩ := List.mem_filter.mp hp
  obtain ⟨hbody, hpacked, _⟩ := h.packed p hemitted
  obtain ⟨hname, _, _, hlen⟩ := packedFrom_mem hpacked hr
  have hstand : StandsIn p.1.body (x.1.record x.2) := by
    apply aligned_standsIn (packedFrom_aligned hpacked).1 _ hr
    rw [hbody, slice_zero_eq_take, List.take_length]
  exact ⟨hlen, p, hemitted, of_decide_eq_true hflag, hname.symm, hr, hstand⟩

theorem saveSession_con_times_le (iv : IV) (calls : List SaveCall) (s : Server) :
    (saveSession iv calls s).1.con_times ≤ s.con_times + calls.length + 4 := by
  have hcall : ∀ (c : SaveCall) (s : Server), (c.run s).1.con_times ≤ s.con_times + 1 := by
    intro c s
    rw [c.run_eq]
    unfold saveChunk
    split
    · exact Nat.le_succ _
    · exact Nat.le_refl _
  have hcalls : ∀ (calls : List SaveCall) (s : Server),
      (saveCalls calls s).1.con_times ≤ s.con_times + calls.length := by
    intro calls
    induction calls with
    | nil => exact fun s => Nat.le_refl _
    | cons c cs ih =>
      intro s
      have hone := hcall c s
      have hrest := ih (c.run s).1
      rw [List.length_cons]
      change (saveCalls cs (c.run s).1).1.con_times ≤ _
      omega
  have hlast : ∀ (d : Bool) (s : Server), (lastContainer d s).con_times ≤ s.con_times + 1 := by
    intro d s
    unfold lastContainer
    split
    · exact Nat.le_refl _
    · exact Nat.le_succ _
  have hstart := hcalls calls (startSession iv s)
  have hfirst := hlast false (ProcessTailBatch (saveCalls calls (startSession iv s)).1)
  have hsecond := hlast true (lastContainer false
    (ProcessTailBatch (saveCalls calls (startSession iv s)).1))
  change (saveCalls calls (startSession iv s)).1.con_times ≤ s.con_times + 2 + calls.length at hstart
  change _ ≤ (saveCalls calls (startSession iv s)).1.con_times + 1 at hfirst
  change (lastContainer true (lastContainer false
    (ProcessTailBatch (saveCalls calls (startSession iv s)).1))).con_times ≤ _
  omega

/-- Records that are longer than a container are in two of them. -/
theorem two_le_of_layout {containers : List (Container × List ChunkRecord)}
    (hpacked : ∀ p ∈ containers, p.1.body = layout p.2 ∧ p.1.body.length < MAX_CONTAINER_SIZE)
    (hlong : MAX_CONTAINER_SIZE ≤ (layout (containers.flatMap Prod.snd)).length) :
    2 ≤ containers.length := by
  match containers with
  | [] =>
    rw [List.flatMap_nil, layout_nil] at hlong
    exact absurd hlong (by decide)
  | [p] =>
    obtain ⟨hbody, hlt⟩ := hpacked p List.mem_cons_self
    rw [List.flatMap_cons, List.flatMap_nil, List.append_nil, ← hbody] at hlong
    omega
  | _ :: _ :: containers => exact Nat.le_add_left 2 containers.length

theorem layout_length_ge {n : Nat} {recs : List ChunkRecord} (h : ∀ r ∈ recs, n ≤ r.content.length) :
    recs.length * n ≤ (layout recs).length := by
  induction recs with
  | nil => simp
  | cons r recs ih =>
    have hrest := ih fun r' hr' => h r' (List.mem_cons_of_mem r hr')
    have hr := h r List.mem_cons_self
    rw [layout_cons, List.length_append, ChunkRecord.toBytes_length, List.length_cons, Nat.succ_mul]
    unfold ChunkRecord.size
    omega

def blankEntry : RecipeEntry :=
  ⟨FixedBytes.fill 7 0, NO_DELTA, 0, 0, FixedBytes.fill 32 0, FixedBytes.fill 96 0⟩

/-- A base chunk of the maximal size, with the fingerprint of `i`s. -/
def fullCall (i : UInt8) : SaveCall :=
  ⟨false, List.replicate MAX_CHUNK_SIZE i, blankEntry, FixedBytes.fill 96 0, FixedBytes.fill 32 i,
    FixedBytes.fill 16 0⟩

/-- 256 of them and, in between, a delta of one byte. -/
def fullCalls : List SaveCall :=
  ⟨true, [2], { blankEntry with deltaFlag := DELTA }, FixedBytes.fill 96 0, FixedBytes.fill 32 2,
    FixedBytes.fill 16 1⟩ :: (List.range 256).map fun i => fullCall (UInt8.ofNat i)

theorem fullCalls_bases : fullCalls.filter (fun c => c.delta = false) =
    (List.range 256).map fun i => fullCall (UInt8.ofNat i) := by
  unfold fullCalls
  rw [List.filter_cons_of_neg (by decide)]
  apply List.filter_eq_self.mpr
  intro c hc
  obtain ⟨i, _, rfl⟩ := List.mem_map.mp hc
  rfl

/-- Some call of them flushes the base container. -/
theorem session_packs_flushed :
    ∃ emitted : List (Container × List ChunkRecord),
      (saveSession (FixedBytes.fill 16 0) fullCalls (Server.start false true)).1.inputMQ =
        [] ++ emitted.map Prod.fst ∧
      (emitted.map fun p => p.1.containerID).Nodup ∧
      2 ≤ (emitted.filter fun p => p.1.deltaFlag = false).length ∧
      ∀ x ∈ fullCalls.zip (saveSession (FixedBytes.fill 16 0) fullCalls (Server.start false true)).2,
        ∃ p ∈ emitted, p.1.deltaFlag = x.1.delta ∧ p.1.containerID = x.2.containerName ∧
          StandsIn p.1.body (x.1.record x.2) := by
  have hsizes : ∀ c ∈ fullCalls, c.chunkData.length ≤ MAX_CHUNK_SIZE := by
    intro c hc
    rcases List.mem_cons.mp hc with rfl | hc
    · exact (by decide : 1 ≤ MAX_CHUNK_SIZE)
    · obtain ⟨i, _, rfl⟩ := List.mem_map.mp hc
      exact Nat.le_of_eq List.length_replicate
  have hcalls : fullCalls.length = 257 := by simp [fullCalls]
  have hle := saveSession_con_times_le (FixedBytes.fill 16 0) fullCalls (Server.start false true)
  have hone : (Server.start false true).con_times = 1 := rfl
  obtain ⟨hlength, emitted, hqueue, hnames, hpacked, hrecords, hplace⟩ := session_packs
    (FixedBytes.fill 16 0) fullCalls (Server.start false true) hsizes (by omega)
  generalize (saveSession (FixedBytes.fill 16 0) fullCalls (Server.start false true)).2 = returned at *
  refine ⟨emitted, hqueue, hnames, two_le_of_layout (fun p hp => ?_) ?_, fun x hx => ?_⟩
  · obtain ⟨hbody, _, hlt⟩ := hpacked p (List.mem_of_mem_filter hp)
    exact ⟨hbody, hlt⟩
  · rw [hrecords false]
    have hbase : ((fullCalls.zip returned).filter fun x => x.1.delta = false).length = 256 := by
      have hfst := @List.map_fst_zip _ _ fullCalls returned (by omega)
      have hmap : ((fullCalls.zip returned).filter fun x => x.1.delta = false).map Prod.fst =
          fullCalls.filter fun c => c.delta = false := by
        conv_rhs => rw [← hfst]
        rw [List.filter_map]
        rfl
      rw [← List.length_map Prod.fst, hmap, fullCalls_bases, List.length_map, List.length_range]
    refine le_trans ?_ (@layout_length_ge MAX_CHUNK_SIZE _ ?_)
    · rw [List.length_map, hbase]
      decide
    · intro r hr
      obtain ⟨x, hx, rfl⟩ := List.mem_map.mp hr
      obtain ⟨hmem, hdelta⟩ := List.mem_filter.mp hx
      rcases List.mem_cons.mp (List.of_mem_zip hmem).1 with heq | hfull
      · rw [heq] at hdelta
        simp at hdelta
      · obtain ⟨i, _, heq⟩ := List.mem_map.mp hfull
        change MAX_CHUNK_SIZE ≤ x.1.chunkData.length
        rw [← heq]
        exact Nat.le_of_eq List.length_replicate.symm
  · obtain ⟨_, p, hp, hflag, hname, _, hstand⟩ := hplace x hx
    exact ⟨p, hp, hflag, hname, hstand⟩

end PackedSession

end ShieldReduce.Prototype
