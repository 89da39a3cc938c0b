import ShieldReduce.Prototype.FilterSteps
import ShieldReduce.Prototype.QueryPairs

/-!
# Exact deduplication

Whatever the heap holds, a batch stores one record for each fingerprint that is new, and its loops
pair every unique chunk with its own out-enclave query.
-/

namespace ShieldReduce.Prototype.EcallFreqIndex
open Lib Store EDelta

section Stored
variable {env : EnclaveEnv}

/-- The record holds the chunk, packed, or a delta of it. -/
def MadeFrom (env : EnclaveEnv) (chunk : Bytes) (r : ChunkRecord) : Prop :=
  r.content = env.EncryptWithKeyIV r.iv (uniqueContent env NO_DELTA chunk) ∨
    ∃ base, r.content = env.EncryptWithKeyIV r.iv (EDeltaEncode env.edelta chunk base)

theorem storedRecord_made (x : QueryEntry) (s : Server) (haddr : x.chunkAddr.deltaFlag = NO_DELTA) :
    (storedRecord env x s).fp = x.chunkHash ∧ MadeFrom env x.chunk (storedRecord env x s) := by
  unfold storedRecord
  by_cases hdelta : x.deltaFlag = DELTA
  · rw [if_pos hdelta]
    unfold ProcessDeltachunk
    dsimp only
    split
    · exact ⟨rfl, Or.inl rfl⟩
    · rw [hdelta]
      exact ⟨rfl, Or.inr ⟨refChunk env x, rfl⟩⟩
  · rw [if_neg hdelta]
    dsimp only
    have hne : ¬x.chunkAddr.deltaFlag = DELTA := by
      rw [haddr]
      decide
    rw [if_neg hne]
    refine ⟨rfl, Or.inl ?_⟩
    unfold uniqueRecord uniqueCipher
    dsimp only
    rw [haddr]

end Stored

section Stream
variable {d : Bool}

/-- The bytes of the containers of a kind: those that the writer thread has taken, those in the queue
and the open one. -/
def stream (d : Bool) (taken : List Container) (s : Server) : Bytes :=
  ((taken ++ s.inputMQ).filter fun c => c.deltaFlag = d).flatMap Container.body ++ (s.opened d).buf

/-- The records that go into the containers of a kind. -/
def recordsOf (d : Bool) (appended : List (Bytes × ChunkRecord)) : List ChunkRecord :=
  (appended.map Prod.snd).filter fun r => decide (r.entry.deltaFlag ≠ NO_DELTA) = d

theorem layout_recordsOf_snoc (appended : List (Bytes × ChunkRecord)) (chunk : Bytes)
    (r : ChunkRecord) :
    layout (recordsOf d (appended ++ [(chunk, r)])) = layout (recordsOf d appended) ++
      if decide (r.entry.deltaFlag ≠ NO_DELTA) = d then r.toBytes else [] := by
  unfold recordsOf
  rw [List.map_append, List.filter_append, layout_append, List.map_singleton]
  by_cases hd : decide (r.entry.deltaFlag ≠ NO_DELTA) = d
  · rw [if_pos hd, ← layout_singleton r]
    congr 2
    apply List.filter_eq_self.mpr
    intro x hx
    rw [List.mem_singleton.mp hx]
    exact decide_eq_true hd
  · rw [if_neg hd, ← layout_nil]
    congr 2
    apply List.filter_eq_nil_iff.mpr
    intro x hx htrue
    rw [List.mem_singleton.mp hx] at htrue
    exact hd (of_decide_eq_true htrue)

/-- A container that is handed over keeps its bytes. -/
theorem stream_flush (d' : Bool) (taken : List Container) (s : Server) :
    stream d taken (writeContainer d' { s with
      opened := Function.update s.opened d'
        ⟨(s.opened d').containerID, [], (s.opened d').buf⟩ }) = stream d taken s := by
  unfold stream writeContainer
  dsimp only
  rw [Function.update_self, ← List.append_assoc, List.filter_append, List.flatMap_append]
  by_cases hd : d' = d
  · rw [hd, Function.update_self, List.filter_singleton]
    simp
  · rw [Function.update_of_ne (Ne.symm hd), Function.update_of_ne (Ne.symm hd),
      List.filter_singleton]
    simp [hd]

/-- A record that is saved goes behind the containers of its kind. -/
theorem saveChunk_stream (d' : Bool) (chunkData : Bytes) (chunkAddr : RecipeEntry)
    (chunksf : SuperFeature) (chunkfp : Fp) (taken : List Container) (s : Server) :
    stream d taken (saveChunk d' chunkData chunkAddr chunksf chunkfp s).1 =
      stream d taken s ++ if d' = d then
        (⟨(saveChunk d' chunkData chunkAddr chunksf chunkfp s).2, chunkfp, chunksf, chunkData,
          s.iv⟩ : ChunkRecord).toBytes else [] := by
  have happend : ∀ (t : Server) (c : OpenContainer) (bytes : Bytes),
      c.buf = (t.opened d').buf ++ bytes →
      stream d taken { t with opened := Function.update t.opened d' c } =
        stream d taken t ++ if d' = d then bytes else [] := by
    intro t c bytes hc
    unfold stream
    dsimp only
    by_cases hd : d' = d
    · rw [hd] at hc ⊢
      rw [Function.update_self, if_pos rfl, hc, List.append_assoc]
    · rw [Function.update_of_ne (Ne.symm hd), if_neg hd, List.append_nil]
  unfold saveChunk
  dsimp only
  rw [happend _ _ _ rfl]
  split
  · rfl
  · rw [stream_flush]
    rfl

/-- Storing a chunk puts its record behind the containers of its kind. -/
theorem storeChunk_stream (env : EnclaveEnv) (x : QueryEntry) (taken : List Container) (s : Server) :
    stream d taken (storeChunk env x s).2.2 = stream d taken s ++
      if decide ((storedRecord env x s).entry.deltaFlag ≠ NO_DELTA) = d then
        (storedRecord env x s).toBytes else [] := by
  have happend : ∀ (a : RecipeEntry) (content : Bytes),
      stream d taken (ProcessSheUniqueChunk env a content x.superfeature x.chunkHash s).1 =
        stream d taken s ++
          if decide ((uniqueRecord env a content x.superfeature x.chunkHash s).entry.deltaFlag ≠
              NO_DELTA) = d then
            (uniqueRecord env a content x.superfeature x.chunkHash s).toBytes else [] := by
    intro a content
    obtain ⟨n, heq⟩ := ProcessSheUniqueChunk_eq env a content x.superfeature x.chunkHash s
    unfold uniqueRecord
    rw [heq, saveChunk_stream]
    have hflag : (saveChunk (a.deltaFlag ≠ NO_DELTA) (uniqueCipher env a content s)
        (uniqueAddr a (uniqueCipher env a content s).length x.superfeature) x.superfeature
        x.chunkHash { s with
          iv := PickNewIV s.iv
          onlineBackupSize := n }).2.deltaFlag = a.deltaFlag := rfl
    rw [hflag]
    rfl
  unfold storeChunk storedRecord
  by_cases hdelta : x.deltaFlag = DELTA
  · rw [if_pos hdelta]
    unfold ProcessDeltachunk
    dsimp only
    split
    · exact happend _ _
    · exact happend _ _
  · rw [if_neg hdelta]
    dsimp only
    split
    · exact happend _ _
    · exact happend _ _

/-- The writer thread takes containers off the front of the queue. -/
theorem runWriter_stream (acts : List Action) (taken : List Container) (s : Server) :
    stream d (taken ++ runTaken acts s) (runWriter acts s) = stream d taken s := by
  have hstep : ∀ (taken : List Container) (s : Server) (a : Action),
      stream d (taken ++ takenBy s a) ((stepWriter s a).getD s) = stream d taken s := by
    intro taken s a
    cases a with
    | openFile =>
      unfold takenBy stepWriter stream
      cases hwriter : s.writer with
      | some w => rw [if_neg (Option.some_ne_none w), List.append_nil]; rfl
      | none =>
        rw [if_pos rfl]
        cases hqueue : s.inputMQ with
        | nil => simp [hqueue]
        | cons c inputMQ => simp
    | writeFile n =>
      cases hwriter : s.writer with
      | none => simp [takenBy, stepWriter, hwriter]
      | some w => simp [takenBy, stepWriter, hwriter, stream]
    | closeFile =>
      cases hwriter : s.writer with
      | none => simp [takenBy, stepWriter, hwriter]
      | some w =>
        simp only [takenBy, stepWriter, hwriter, List.append_nil]
        split
        · rfl
        · rfl
    | _ => exact congrArg (fun taken => stream d taken s) (List.append_nil taken)
  induction acts generalizing taken s with
  | nil => exact congrArg (fun taken => stream d taken s) (List.append_nil taken)
  | cons a acts ih =>
    unfold runTaken
    rw [← List.append_assoc]
    exact (ih _ _).trans (hstep taken s a)

/-- The containers of a kind hold its records, one behind the other in the order of their storing. -/
def Streamed (appended : List (Bytes × ChunkRecord)) (taken : List Container) (s : Server) : Prop :=
  ∀ d, stream d taken s = layout (recordsOf d appended)

end Stream

section Same
variable {ins ins' ins'' : Nat → InQueryEntry} {outs outs' outs'' : Nat → OutQueryEntry}

/-- The flags, the hashes and the frequencies of in-enclave queries. -/
def SameIns (ins ins' : Nat → InQueryEntry) : Prop :=
  ∀ j, (ins' j).dedupFlag = (ins j).dedupFlag ∧ (ins' j).chunkHash = (ins j).chunkHash ∧
    (ins' j).chunkFreq = (ins j).chunkFreq

def SameOuts (outs outs' : Nat → OutQueryEntry) : Prop :=
  ∀ j, (outs' j).dedupFlag = (outs j).dedupFlag ∧ (outs' j).chunkHash = (outs j).chunkHash

theorem SameIns.refl (ins : Nat → InQueryEntry) : SameIns ins ins := fun _ => ⟨rfl, rfl, rfl⟩

theorem SameIns.trans (h : SameIns ins ins') (h' : SameIns ins' ins'') : SameIns ins ins'' :=
  fun j => ⟨(h' j).1.trans (h j).1, (h' j).2.1.trans (h j).2.1, (h' j).2.2.trans (h j).2.2⟩

theorem SameIns.rank (h : SameIns ins ins') (n : Nat) : uniqueRank ins' n = uniqueRank ins n :=
  uniqueRank_congr fun i _ => (h i).1

theorem sameIns_update {i : Nat} {e : InQueryEntry} (hflag : e.dedupFlag = (ins i).dedupFlag)
    (hhash : e.chunkHash = (ins i).chunkHash) (hfreq : e.chunkFreq = (ins i).chunkFreq) :
    SameIns ins (Function.update ins i e) := by
  intro j
  by_cases hj : j = i
  · rw [hj, Function.update_self]
    exact ⟨hflag, hhash, hfreq⟩
  · rw [Function.update_of_ne hj]
    exact ⟨rfl, rfl, rfl⟩

theorem SameOuts.refl (outs : Nat → OutQueryEntry) : SameOuts outs outs := fun _ => ⟨rfl, rfl⟩

theorem SameOuts.trans (h : SameOuts outs outs') (h' : SameOuts outs' outs'') :
    SameOuts outs outs'' :=
  fun j => ⟨(h' j).1.trans (h j).1, (h' j).2.trans (h j).2⟩

theorem sameOuts_update {k : Nat} {entry : OutQueryEntry}
    (hflag : entry.dedupFlag = (outs k).dedupFlag) (hhash : entry.chunkHash = (outs k).chunkHash) :
    SameOuts outs (Function.update outs k entry) := by
  intro j
  by_cases hj : j = k
  · rw [hj, Function.update_self]
    exact ⟨hflag, hhash⟩
  · rw [Function.update_of_ne hj]
    exact ⟨rfl, rfl⟩

end Same

section Kept
variable {st st' : Chunks} {i k : Nat}

/-- What the chunk loop never changes. -/
structure Kept (st st' : Chunks) : Prop where
  ins : SameIns st.queries.inQueryBase st'.queries.inQueryBase
  outs : SameOuts st.queries.outQueryBase st'.queries.outQueryBase
  queryNum : st'.queries.queryNum = st.queries.queryNum
  index : st'.server.indexObj = st.server.indexObj

theorem Kept.refl (st : Chunks) : Kept st st := ⟨SameIns.refl _, SameOuts.refl _, rfl, rfl⟩

theorem Kept.trans {st'' : Chunks} (h : Kept st st') (h' : Kept st' st'') : Kept st st'' :=
  ⟨h.ins.trans h'.ins, h.outs.trans h'.outs, h'.queryNum.trans h.queryNum, h'.index.trans h.index⟩

theorem kept_setIn (st : Chunks) {e : InQueryEntry}
    (hflag : e.dedupFlag = (st.queries.inQueryBase i).dedupFlag)
    (hhash : e.chunkHash = (st.queries.inQueryBase i).chunkHash)
    (hfreq : e.chunkFreq = (st.queries.inQueryBase i).chunkFreq) : Kept st (st.setIn i e) :=
  ⟨sameIns_update hflag hhash hfreq, SameOuts.refl _, rfl, rfl⟩

theorem kept_setOut (st : Chunks) {entry : OutQueryEntry}
    (hflag : entry.dedupFlag = (st.queries.outQueryBase k).dedupFlag)
    (hhash : entry.chunkHash = (st.queries.outQueryBase k).chunkHash) :
    Kept st (st.setOut k entry) :=
  ⟨SameIns.refl _, sameOuts_update hflag hhash, rfl, rfl⟩

theorem kept_setBase (st : Chunks) (i k : Nat) : Kept st (st.setBase i k) :=
  kept_setIn st rfl rfl rfl

theorem kept_server (st : Chunks) (s : Server) (h : s.indexObj = st.server.indexObj) :
    Kept st { st with server := s } :=
  ⟨SameIns.refl _, SameOuts.refl _, rfl, h⟩

theorem readFromCache_frame {name : ContainerName} {s s' : Server} {buf : Bytes}
    (h : ReadFromCache name s = some (buf, s')) : ∃ cached, s' = { s with inCache := cached } := by
  unfold ReadFromCache at h
  cases hfind : s.inCache.find? (fun c => c.1 = name) with
  | none => simp [hfind] at h
  | some c =>
    simp only [hfind, Option.some.injEq, Prod.mk.injEq] at h
    exact ⟨_, h.2.symm⟩

/-- The reading of a base container. -/
theorem getRefContainer_kept (st : Chunks) :
    Kept st { st with
      queries := (Ocall_getRefContainer st.queries st.server).1
      server := (Ocall_getRefContainer st.queries st.server).2 } ∧
    (Ocall_getRefContainer st.queries st.server).1.currNum = st.queries.currNum ∧
    (Ocall_getRefContainer st.queries st.server).1.inQueryBase = st.queries.inQueryBase := by
  unfold Ocall_getRefContainer
  dsimp only
  split
  · split
    · exact ⟨kept_setOut st rfl rfl, rfl, rfl⟩
    case h_2 body _ =>
      exact ⟨(kept_server st (readContainer st.server body) rfl).trans
        (kept_setOut { st with server := readContainer st.server body } rfl rfl), rfl, rfl⟩
  · exact ⟨Kept.refl st, rfl, rfl⟩

/-- What `OfflinedeltaTure` leaves alone. -/
theorem OfflinedeltaTure_kept (Local_Flag : Bool) (i k : Nat) (st : Chunks) :
    Kept st (OfflinedeltaTure Local_Flag i k st) ∧
      (OfflinedeltaTure Local_Flag i k st).queries.currNum = st.queries.currNum ∧
      (OfflinedeltaTure Local_Flag i k st).appended = st.appended ∧
      ((OfflinedeltaTure Local_Flag i k st).queries.inQueryBase i).chunkAddr.deltaFlag =
        (st.queries.inQueryBase i).chunkAddr.deltaFlag := by
  have hbase : ∀ st : Chunks, ((st.setBase i k).queries.inQueryBase i).chunkAddr.deltaFlag =
      (st.queries.inQueryBase i).chunkAddr.deltaFlag := by
    intro st
    unfold Chunks.setBase Chunks.setIn
    dsimp only
    rw [Function.update_self]
  unfold OfflinedeltaTure
  dsimp only
  split
  · exact ⟨kept_setOut st rfl rfl, rfl, rfl, rfl⟩
  · split
    · split
      · have hset : Kept st (st.setOut k
            { st.queries.outQueryBase k with deltaFlag := NO_DELTA, offlineFlag := true }) :=
          kept_setOut st rfl rfl
        exact ⟨⟨hset.ins, hset.outs, rfl, rfl⟩, rfl, rfl, rfl⟩
      · split
        case h_1 containerbuffer s hread =>
          have hindex : s.indexObj = st.server.indexObj := by
            obtain ⟨cached, heq⟩ := readFromCache_frame hread
            rw [heq]
          refine ⟨Kept.trans ?_ (kept_setBase _ i k), rfl, rfl, ?_⟩
          · exact (kept_server st s hindex).trans (kept_setOut _ rfl rfl)
          · rw [hbase]
            rfl
        case h_2 =>
          obtain ⟨hkept, hcurr, hins⟩ := getRefContainer_kept st
          split
          · refine ⟨Kept.trans ?_ (kept_setBase _ i k), hcurr, rfl, ?_⟩
            · exact hkept.trans (kept_server _ _ rfl)
            · rw [hbase]
              dsimp only
              rw [hins]
          · refine ⟨hkept, hcurr, rfl, ?_⟩
            dsimp only
            rw [hins]
    · exact ⟨Kept.refl st, rfl, rfl, rfl⟩

/-- No container changes when a base is loaded. -/
theorem OfflinedeltaTure_stream (Local_Flag d : Bool) (i k : Nat) (st : Chunks) :
    stream d (OfflinedeltaTure Local_Flag i k st).taken (OfflinedeltaTure Local_Flag i k st).server =
      stream d st.taken st.server := by
  have href : stream d st.taken (Ocall_getRefContainer st.queries st.server).2 =
      stream d st.taken st.server := by
    unfold Ocall_getRefContainer
    dsimp only
    split
    · split
      · rfl
      · rfl
    · rfl
  unfold OfflinedeltaTure
  dsimp only
  split
  · rfl
  · split
    · split
      · rfl
      · split
        case h_1 containerbuffer s hread =>
          obtain ⟨cached, heq⟩ := readFromCache_frame hread
          rw [heq]
          rfl
        case h_2 =>
          split
          · exact href
          · exact href
    · rfl

theorem runWriter_index (acts : List Action) (s : Server) :
    (runWriter acts s).indexObj = s.indexObj := by
  have hstep : ∀ (s : Server) (a : Action), ((stepWriter s a).getD s).indexObj = s.indexObj := by
    intro s a
    unfold stepWriter
    split
    · split
      · rfl
      · rfl
    · split
      · rfl
      · rfl
    · split
      · split
        · rfl
        · rfl
      · rfl
    · rfl
  induction acts generalizing s with
  | nil => rfl
  | cons a acts ih => exact (ih _).trans (hstep s a)

end Kept

section ChunkLoop
variable {env : EnclaveEnv} {Local_Flag : Bool}

theorem storeQueries_spec (chunk : Bytes) (i k : Nat) (st : Chunks)
    (haddr : (st.queries.inQueryBase i).chunkAddr.deltaFlag = NO_DELTA) :
    Kept st (storeQueries env chunk i k st) ∧
      (storeQueries env chunk i k st).queries.currNum = st.queries.currNum ∧
      ∃ r, (storeQueries env chunk i k st).appended = st.appended ++ [(chunk, r)] ∧
        r.fp = (st.queries.outQueryBase k).chunkHash ∧ MadeFrom env chunk r := by
  obtain ⟨hfp, hmade⟩ := @storedRecord_made env
    (queryEntry chunk (st.queries.inQueryBase i) (st.queries.outQueryBase k)) st.server haddr
  obtain ⟨q, o, t, n, hserver, _⟩ := storeChunk_frame env
    (queryEntry chunk (st.queries.inQueryBase i) (st.queries.outQueryBase k)) st.server
  unfold storeQueries
  dsimp only
  generalize storedRecord env _ st.server = r at hfp hmade
  generalize storeChunk env _ st.server = p at hserver
  refine ⟨?_, rfl, r, rfl, hfp, hmade⟩
  have hin : Kept st (st.setIn i { st.queries.inQueryBase i with chunkAddr := p.1.chunkAddr }) :=
    kept_setIn st rfl rfl rfl
  have hout := hin.trans (@kept_setOut k _
    { st.queries.outQueryBase k with
      deltaFlag := p.1.deltaFlag
      chunkAddr := p.1.chunkAddr } rfl rfl)
  refine ⟨hout.ins, hout.outs, hout.queryNum, ?_⟩
  change p.2.2.indexObj = _
  rw [hserver]

theorem storeQueries_streamed {chunk : Bytes} {i k : Nat} {st : Chunks}
    (h : Streamed st.appended st.taken st.server) :
    Streamed (storeQueries env chunk i k st).appended (storeQueries env chunk i k st).taken
      (storeQueries env chunk i k st).server := by
  intro d
  refine (storeChunk_stream env _ st.taken st.server).trans ?_
  rw [h d]
  exact (layout_recordsOf_snoc st.appended chunk _).symm

/-- A chunk that no index knows is appended under its out-enclave hash. -/
theorem processUnique_spec (chunk : Bytes) (i k : Nat) (st : Chunks) :
    Kept st (processUnique env Local_Flag chunk i k st) ∧
      (processUnique env Local_Flag chunk i k st).queries.currNum = st.queries.currNum ∧
      ∃ r, (processUnique env Local_Flag chunk i k st).appended = st.appended ++ [(chunk, r)] ∧
        r.fp = (st.queries.outQueryBase k).chunkHash ∧ MadeFrom env chunk r := by
  unfold processUnique
  dsimp only
  generalize hst₁ : st.setIn i _ = st₁
  have hkept₁ : Kept st st₁ := by
    rw [← hst₁]
    exact kept_setIn st rfl rfl rfl
  have haddr : (st₁.queries.inQueryBase i).chunkAddr.deltaFlag = NO_DELTA := by
    rw [← hst₁]
    unfold Chunks.setIn
    dsimp only
    rw [Function.update_self]
  have hcurr₁ : st₁.queries.currNum = st.queries.currNum := by
    rw [← hst₁]
    rfl
  have happ₁ : st₁.appended = st.appended := by
    rw [← hst₁]
    rfl
  obtain ⟨hkept₂, hcurr₂, happ₂, hflag⟩ := OfflinedeltaTure_kept Local_Flag i k st₁
  have hkept := hkept₁.trans hkept₂
  obtain ⟨hkept₃, hcurr₃, r, happ₃, hfp, hmade⟩ := @storeQueries_spec env chunk i k
    (OfflinedeltaTure Local_Flag i k st₁) (hflag.trans haddr)
  refine ⟨hkept.trans hkept₃, hcurr₃.trans (hcurr₂.trans hcurr₁), r, ?_, ?_, hmade⟩
  · rw [happ₃, happ₂, happ₁]
  · rw [hfp]
    exact (hkept.outs k).2

theorem chunkBody_spec (chunks : List Bytes) (writes : Nat → List Action) (i k : Nat) (st : Chunks) :
    Kept st (chunkBody env Local_Flag chunks writes i k st) ∧
      (chunkBody env Local_Flag chunks writes i k st).queries.currNum = st.queries.currNum + 1 ∧
      ((st.queries.outQueryBase k).dedupFlag = .DUPLICATE →
        (chunkBody env Local_Flag chunks writes i k st).appended = st.appended) ∧
      ((st.queries.outQueryBase k).dedupFlag = .UNIQUE →
        ∃ r, (chunkBody env Local_Flag chunks writes i k st).appended =
            st.appended ++ [(chunks.getD i [], r)] ∧
          r.fp = (st.queries.outQueryBase k).chunkHash ∧ MadeFrom env (chunks.getD i []) r) := by
  have hwriter : Kept st { st with
      server := runWriter (writes i) st.server
      taken := st.taken ++ runTaken (writes i) st.server } :=
    ⟨SameIns.refl _, SameOuts.refl _, rfl, runWriter_index (writes i) st.server⟩
  unfold chunkBody
  dsimp only
  cases hflag : (st.queries.outQueryBase k).dedupFlag with
  | DUPLICATE =>
    have hin := hwriter.trans (@kept_setIn i _
      { st.queries.inQueryBase i with chunkAddr := (st.queries.outQueryBase k).chunkAddr } rfl rfl
      rfl)
    exact ⟨⟨hin.ins, hin.outs, hin.queryNum, hin.index⟩, rfl, fun _ => rfl, fun h => by simp at h⟩
  | UNIQUE =>
    dsimp only
    obtain ⟨hkept, hcurr, happ⟩ := @processUnique_spec env Local_Flag (chunks.getD i []) i k
      { st with
        server := runWriter (writes i) st.server
        taken := st.taken ++ runTaken (writes i) st.server }
    generalize processUnique env Local_Flag (chunks.getD i []) i k _ = st' at hkept hcurr happ
    have hall := hwriter.trans hkept
    exact ⟨⟨hall.ins, hall.outs, hall.queryNum, hall.index⟩, congrArg (· + 1) hcurr,
      fun h => by simp at h, fun _ => happ⟩

theorem chunkBody_streamed {chunks : List Bytes} {writes : Nat → List Action} {i k : Nat}
    {st : Chunks} (h : Streamed st.appended st.taken st.server) :
    Streamed (chunkBody env Local_Flag chunks writes i k st).appended
      (chunkBody env Local_Flag chunks writes i k st).taken
      (chunkBody env Local_Flag chunks writes i k st).server := by
  have hwriter : Streamed st.appended (st.taken ++ runTaken (writes i) st.server)
      (runWriter (writes i) st.server) := by
    intro d
    rw [runWriter_stream]
    exact h d
  unfold chunkBody
  dsimp only
  cases hflag : (st.queries.outQueryBase k).dedupFlag with
  | DUPLICATE => exact hwriter
  | UNIQUE =>
    unfold processUnique
    apply storeQueries_streamed
    intro d
    rw [(OfflinedeltaTure_kept _ _ _ _).2.2.1, OfflinedeltaTure_stream]
    exact hwriter d

theorem chunkLoop_streamed {chunks : List Bytes} {writes : Nat → List Action} {st : Chunks}
    (h : Streamed st.appended st.taken st.server) (n : Nat) :
    Streamed (chunkLoop env Local_Flag chunks writes n (st, 0)).1.appended
      (chunkLoop env Local_Flag chunks writes n (st, 0)).1.taken
      (chunkLoop env Local_Flag chunks writes n (st, 0)).1.server := by
  apply @forLoop_spec (Chunks × Nat) fun _ st =>
    Streamed st.1.appended st.1.taken st.1.server
  · exact h
  · intro i st _ h
    unfold uniqueStep
    split
    · exact chunkBody_streamed h
    · exact h

/-- The chunks that neither the enclave nor the index outside knows. -/
def newChunks (ins : Nat → InQueryEntry) (outs : Nat → OutQueryEntry) (n : Nat) : List Nat :=
  (List.range n).filter fun i =>
    (ins i).dedupFlag = .UNIQUE ∧ (outs (uniqueRank ins i)).dedupFlag = .UNIQUE

/-- The chunk loop after `n` chunks. -/
structure Looped (env : EnclaveEnv) (chunks : List Bytes) (st : Chunks) (n : Nat) (st' : Chunks) :
    Prop where
  kept : Kept st st'
  currNum : st'.queries.currNum = uniqueRank st.queries.inQueryBase n
  appended : ∃ more, st'.appended = st.appended ++ more ∧
    List.Forall₂ (fun i p => p.1 = chunks.getD i [] ∧
        p.2.fp = (st.queries.outQueryBase (uniqueRank st.queries.inQueryBase i)).chunkHash ∧
        MadeFrom env p.1 p.2)
      (newChunks st.queries.inQueryBase st.queries.outQueryBase n) more

theorem chunkLoop_spec (chunks : List Bytes) (writes : Nat → List Action) {st : Chunks}
    (hcurr : st.queries.currNum = 0) (n : Nat) :
    (chunkLoop env Local_Flag chunks writes n (st, 0)).2 = uniqueRank st.queries.inQueryBase n ∧
      Looped env chunks st n (chunkLoop env Local_Flag chunks writes n (st, 0)).1 := by
  have hnew : ∀ i, newChunks st.queries.inQueryBase st.queries.outQueryBase (i + 1) =
      newChunks st.queries.inQueryBase st.queries.outQueryBase i ++
        [i].filter fun i => (st.queries.inQueryBase i).dedupFlag = .UNIQUE ∧
          (st.queries.outQueryBase (uniqueRank st.queries.inQueryBase i)).dedupFlag = .UNIQUE := by
    intro i
    unfold newChunks
    rw [List.range_succ, List.filter_append]
  have hspec := @traversal_spec Chunks (fun st => st.queries.inQueryBase)
    (chunkBody env Local_Flag chunks writes) (Looped env chunks st) st n
    ⟨Kept.refl st, hcurr, [], (List.append_nil _).symm, List.Forall₂.nil⟩
    (fun i k st' j => ((@chunkBody_spec env Local_Flag chunks writes i k st').1.ins j).1) ?_ ?_
  · exact ⟨hspec.1, hspec.2.1⟩
  · rintro i st' _ ⟨hkept, hnum, more, hmore, hall⟩ hflag
    refine ⟨hkept, ?_, more, hmore, ?_⟩
    · rw [uniqueRank, if_neg hflag]
      exact hnum
    · have hnone : [i].filter (fun i => (st.queries.inQueryBase i).dedupFlag = .UNIQUE ∧
          (st.queries.outQueryBase (uniqueRank st.queries.inQueryBase i)).dedupFlag = .UNIQUE) =
          [] := by
        simp [hflag]
      rw [hnew, hnone, List.append_nil]
      exact hall
  · rintro i st' _ ⟨hkept, hnum, more, hmore, hall⟩ hflag
    obtain ⟨hbody, hnext, hdup, huniq⟩ := @chunkBody_spec env Local_Flag chunks writes i
      (uniqueRank st.queries.inQueryBase i) st'
    have hout := hkept.outs (uniqueRank st.queries.inQueryBase i)
    refine ⟨hkept.trans hbody, ?_, ?_⟩
    · rw [hnext, hnum, uniqueRank, if_pos hflag]
    · cases ho : (st.queries.outQueryBase (uniqueRank st.queries.inQueryBase i)).dedupFlag with
      | DUPLICATE =>
        have hnone : [i].filter (fun i => (st.queries.inQueryBase i).dedupFlag = .UNIQUE ∧
            (st.queries.outQueryBase (uniqueRank st.queries.inQueryBase i)).dedupFlag = .UNIQUE) =
            [] := by
          simp [ho]
        refine ⟨more, (hdup (hout.1.trans ho)).trans hmore, ?_⟩
        rw [hnew, hnone, List.append_nil]
        exact hall
      | UNIQUE =>
        have hone : [i].filter (fun i => (st.queries.inQueryBase i).dedupFlag = .UNIQUE ∧
            (st.queries.outQueryBase (uniqueRank st.queries.inQueryBase i)).dedupFlag = .UNIQUE) =
            [i] := by
          simp [hflag, ho]
        obtain ⟨r, happ, hfp, hmade⟩ := huniq (hout.1.trans ho)
        refine ⟨more ++ [(chunks.getD i [], r)], ?_, ?_⟩
        · rw [happ, hmore, List.append_assoc]
        · rw [hnew, hone]
          refine List.rel_append hall (List.Forall₂.cons ⟨rfl, hfp.trans hout.2, hmade⟩ ?_)
          exact List.Forall₂.nil

end ChunkLoop

section Stages

theorem hashChunks_hash (env : EnclaveEnv) {chunks : List Bytes} (ins : Nat → InQueryEntry) {i : Nat}
    (hi : i < chunks.length) :
    (hashChunks env chunks ins i).chunkHash = env.GenerateHash (chunks.getD i []) := by
  unfold hashChunks
  rw [List.getElem?_eq_getElem hi, List.getD_eq_getElem?_getD, List.getElem?_eq_getElem hi]
  rfl

theorem sketchLoop_hash (n : Nat) (st : EcallCMSketch × (Nat → InQueryEntry)) (j : Nat) :
    ((sketchLoop n st).2 j).chunkHash = (st.2 j).chunkHash := by
  apply @forLoop_preserve (EcallCMSketch × (Nat → InQueryEntry))
    (fun st' => (st'.2 j).chunkHash = (st.2 j).chunkHash)
  · rfl
  · intro i st' _ h
    unfold sketchStep
    dsimp only
    by_cases hj : j = i
    · rw [hj, Function.update_self]
      rw [hj] at h
      exact h
    · rw [Function.update_of_ne hj]
      exact h

theorem superfeatureLoop_spec (env : EnclaveEnv) (chunks : List Bytes) (outs : Nat → OutQueryEntry)
    (ins : Nat → InQueryEntry) (n : Nat) :
    (superfeatureLoop env chunks outs n (ins, 0)).2 = uniqueRank ins n ∧
      SameIns ins (superfeatureLoop env chunks outs n (ins, 0)).1 := by
  have hbody : ∀ (i k : Nat) (ins : Nat → InQueryEntry), SameIns ins
      (if (outs k).dedupFlag = .UNIQUE then
        Function.update ins i { ins i with superfeature := env.getSF2 (chunks.getD i []) }
      else ins) := by
    intro i k ins
    split
    · exact sameIns_update rfl rfl rfl
    · exact SameIns.refl ins
  have hspec := @traversal_spec (Nat → InQueryEntry) id _ (fun _ => SameIns ins) ins n
    (SameIns.refl ins) (fun i k ins j => (hbody i k ins j).1) (fun _ _ _ h _ => h)
    (fun i ins' _ h _ => h.trans (hbody i _ ins'))
  exact ⟨hspec.1, hspec.2.1⟩

theorem OutEntrySFGet_spec (ins : Nat → InQueryEntry) (outs : Nat → OutQueryEntry) (n : Nat) :
    (OutEntrySFGet ins n (outs, 0)).2 = uniqueRank ins n ∧
      SameOuts outs (OutEntrySFGet ins n (outs, 0)).1 := by
  have hspec := @traversal_spec (Nat → OutQueryEntry) (fun _ => ins)
    (fun i k outs =>
      if (outs k).dedupFlag = .UNIQUE then
        Function.update outs k
          { outs k with
            deltaFlag := NO_DELTA
            offlineFlag := false
            superfeature := (ins i).superfeature }
      else outs) (fun _ => SameOuts outs) outs n (SameOuts.refl outs) (fun _ _ _ _ => rfl)
    (fun _ _ _ h _ => h) ?_
  · exact ⟨hspec.1, hspec.2.1⟩
  · intro i outs' _ h _
    dsimp only
    split
    · exact h.trans (sameOuts_update rfl rfl)
    · exact h

theorem loadLoop_spec (ins : Nat → InQueryEntry) (outs : Nat → OutQueryEntry)
    (names : List ContainerName) (n : Nat) :
    (loadLoop outs n ((ins, names), 0)).2 = uniqueRank ins n ∧
      SameIns ins (loadLoop outs n ((ins, names), 0)).1.1 := by
  have hbody : ∀ (i k : Nat) (st : Loads), SameIns st.1
      (if (outs k).dedupFlag = .UNIQUE then EntryLoad i (outs k) st else st).1 := by
    intro i k st
    unfold EntryLoad
    split
    · split
      · exact sameIns_update rfl rfl rfl
      · exact SameIns.refl _
    · exact SameIns.refl _
  have hspec := @traversal_spec Loads Prod.fst _ (fun _ st => SameIns ins st.1) (ins, names) n
    (SameIns.refl ins) (fun i k st j => (hbody i k st j).1) (fun _ _ _ h _ => h)
    (fun i st _ h _ => h.trans (hbody i _ st))
  exact ⟨hspec.1, hspec.2.1⟩

theorem Ocall_QueryOutIndex_spec (s : Server) (q : Queries) {k : Nat} (hk : k < q.queryNum) :
    ((Ocall_QueryOutIndex s q).outQueryBase k).chunkHash = (q.outQueryBase k).chunkHash ∧
      (((Ocall_QueryOutIndex s q).outQueryBase k).dedupFlag = .UNIQUE ↔
        s.indexObj.lookup (q.outQueryBase k).chunkHash = none) := by
  unfold Ocall_QueryOutIndex
  dsimp only
  rw [if_pos hk]
  cases s.indexObj.lookup (q.outQueryBase k).chunkHash with
  | none => exact ⟨rfl, by simp⟩
  | some chunkAddr => exact ⟨rfl, by simp⟩

theorem Ocall_QueryOutBasechunk_same (s : Server) (q : Queries) :
    SameOuts q.outQueryBase (Ocall_QueryOutBasechunk s q).outQueryBase := by
  intro j
  unfold Ocall_QueryOutBasechunk queryBase
  dsimp only
  split
  · split
    · split
      · exact ⟨rfl, rfl⟩
      · exact ⟨rfl, rfl⟩
    · exact ⟨rfl, rfl⟩
  · exact ⟨rfl, rfl⟩

end Stages

section Batch
variable {env : EnclaveEnv} {topThreshold : Nat} {b : ChunkBatch} {e : Enclave}

/-- The fingerprint under which chunk `i` of a batch is stored. -/
def batchFp (env : EnclaveEnv) (b : ChunkBatch) (i : Nat) : Fp :=
  env.IndexAESCMCEnc (env.GenerateHash (b.chunks.getD i []))

theorem sketched_hash {i : Nat} (hi : i < b.chunkNum) :
    ((sketched env b e).2 i).chunkHash = env.GenerateHash (b.chunks.getD i []) :=
  (sketchLoop_hash _ _ i).trans (hashChunks_hash env _ hi)

theorem checkAt_spec (n : Nat) :
    Checked env e.filter.heap (sketched env b e).2 n (checkAt env topThreshold b e n) :=
  checkLoop_spec _ _ n

theorem queried_spec :
    (queried env topThreshold b e).inQueryBase = (checkAt env topThreshold b e b.chunkNum).ins ∧
      (queried env topThreshold b e).currNum = e.queries.currNum ∧
      ∀ k < outQueryNum env topThreshold b e,
        ((queried env topThreshold b e).outQueryBase k).chunkHash =
            ((checkAt env topThreshold b e b.chunkNum).outs k).chunkHash ∧
          (((queried env topThreshold b e).outQueryBase k).dedupFlag = .UNIQUE ↔
            e.server.indexObj.lookup
              ((checkAt env topThreshold b e b.chunkNum).outs k).chunkHash = none) := by
  unfold queried outQueryNum
  dsimp only
  split
  case isTrue => exact ⟨rfl, rfl, fun k hk => Ocall_QueryOutIndex_spec _ _ hk⟩
  case isFalse hzero =>
    refine ⟨rfl, rfl, fun k hk => ?_⟩
    rw [not_not] at hzero
    rw [hzero] at hk
    exact absurd hk (Nat.not_lt_zero k)

/-- The chunk loop starts with the flags and the hashes that the queries have given. -/
theorem chunksAt_spec (hcurr : e.queries.currNum = 0) (n : Nat) :
    ∃ st : Chunks, SameIns (checkAt env topThreshold b e b.chunkNum).ins st.queries.inQueryBase ∧
      SameOuts (queried env topThreshold b e).outQueryBase st.queries.outQueryBase ∧
      st.server = e.server ∧ st.appended = e.appended ∧
      (chunksAt env topThreshold b e n).2 = uniqueRank st.queries.inQueryBase n ∧
      Looped env b.chunks st n (chunksAt env topThreshold b e n).1 := by
  obtain ⟨hins, hnum, _⟩ := @queried_spec env topThreshold b e
  have hsf := (superfeatureLoop_spec env b.chunks (queried env topThreshold b e).outQueryBase
    (queried env topThreshold b e).inQueryBase b.chunkNum).2
  have houts := (OutEntrySFGet_spec (superfeatureAt env topThreshold b e b.chunkNum).1
    (queried env topThreshold b e).outQueryBase b.chunkNum).2
  have hbase := Ocall_QueryOutBasechunk_same e.server
    { queried env topThreshold b e with
      inQueryBase := (superfeatureAt env topThreshold b e b.chunkNum).1
      outQueryBase := (outEntryAt env topThreshold b e b.chunkNum).1 }
  have hload := (loadLoop_spec (based env topThreshold b e).inQueryBase
    (based env topThreshold b e).outQueryBase [] b.chunkNum).2
  obtain ⟨hcursor, hlooped⟩ := @chunkLoop_spec env (localFlag env topThreshold b e) b.chunks
    b.writes
    { queries := { based env topThreshold b e with
        inQueryBase := (loadAt env topThreshold b e b.chunkNum).1.1 }
      server := e.server
      process_buffer := []
      batch_basemap := []
      appended := e.appended
      taken := e.taken } (hnum.trans hcurr) n
  refine ⟨_, ?_, ?_, rfl, rfl, hcursor, hlooped⟩
  · rw [← hins]
    exact hsf.trans hload
  · exact houts.trans hbase

/-- The cursors of all loops over a batch, and `currNum`, once `n` chunks have been gone through. -/
structure Cursors (env : EnclaveEnv) (topThreshold : Nat) (b : ChunkBatch) (e : Enclave) (n : Nat) :
    Prop where
  check : (checkAt env topThreshold b e n).outQueryNum =
    uniqueRank (checkAt env topThreshold b e b.chunkNum).ins n
  superfeature : (superfeatureAt env topThreshold b e n).2 =
    uniqueRank (checkAt env topThreshold b e b.chunkNum).ins n
  outEntry : (outEntryAt env topThreshold b e n).2 =
    uniqueRank (checkAt env topThreshold b e b.chunkNum).ins n
  load : (loadAt env topThreshold b e n).2 =
    uniqueRank (checkAt env topThreshold b e b.chunkNum).ins n
  chunk : (chunksAt env topThreshold b e n).2 =
    uniqueRank (checkAt env topThreshold b e b.chunkNum).ins n
  currNum : (chunksAt env topThreshold b e n).1.queries.currNum =
    uniqueRank (checkAt env topThreshold b e b.chunkNum).ins n
  /-- The query under the cursors is that of the chunk. -/
  query : ∀ i < b.chunkNum, ((checkAt env topThreshold b e b.chunkNum).ins i).dedupFlag = .UNIQUE →
    ((chunksAt env topThreshold b e n).1.queries.outQueryBase
      (uniqueRank (checkAt env topThreshold b e b.chunkNum).ins i)).chunkHash = batchFp env b i

/-- The out-enclave query of a unique chunk is its own. -/
theorem queried_fp {i : Nat} (hi : i < b.chunkNum)
    (hu : ((checkAt env topThreshold b e b.chunkNum).ins i).dedupFlag = .UNIQUE) :
    uniqueRank (checkAt env topThreshold b e b.chunkNum).ins i < outQueryNum env topThreshold b e ∧
      ((checkAt env topThreshold b e b.chunkNum).outs
        (uniqueRank (checkAt env topThreshold b e b.chunkNum).ins i)).chunkHash = batchFp env b i := by
  have h := @checkAt_spec env topThreshold b e b.chunkNum
  refine ⟨?_, ?_⟩
  · unfold outQueryNum
    rw [h.num]
    exact uniqueRank_lt hi hu
  · rw [h.asked i hi hu, sketched_hash hi]
    rfl

theorem cursors (hcurr : e.queries.currNum = 0) {n : Nat} (hn : n ≤ b.chunkNum) :
    Cursors env topThreshold b e n := by
  obtain ⟨hins, _, hqueried⟩ := @queried_spec env topThreshold b e
  obtain ⟨st, hsameIns, hsameOuts, _, _, hcursor, hlooped⟩ :=
    @chunksAt_spec env topThreshold b e hcurr n
  have hsf := superfeatureLoop_spec env b.chunks (queried env topThreshold b e).outQueryBase
    (queried env topThreshold b e).inQueryBase
  have hrank : ∀ m, uniqueRank (superfeatureAt env topThreshold b e b.chunkNum).1 m =
      uniqueRank (checkAt env topThreshold b e b.chunkNum).ins m := by
    intro m
    rw [← hins]
    exact (hsf b.chunkNum).2.rank m
  refine ⟨?_, ?_, ?_, ?_, ?_, ?_, ?_⟩
  · rw [(@checkAt_spec env topThreshold b e n).num]
    exact (uniqueRank_congr (checkLoop_flags _ _ hn)).symm
  · rw [← hins]
    exact (hsf n).1
  · exact (OutEntrySFGet_spec _ _ n).1.trans (hrank n)
  · exact (loadLoop_spec _ _ _ n).1.trans (hrank n)
  · rw [hcursor, hsameIns.rank]
  · rw [hlooped.currNum, hsameIns.rank]
  · intro i hi hu
    obtain ⟨hlt, hfp⟩ := queried_fp hi hu
    rw [(hlooped.kept.outs _).2, (hsameOuts _).2, (hqueried _ hlt).1, hfp]

theorem updateOutEntry_index (entry : OutQueryEntry) (s : Server) (fp : Fp) :
    (updateOutEntry entry s).indexObj.lookup fp ≠ none ↔
      s.indexObj.lookup fp ≠ none ∨ entry.dedupFlag = .UNIQUE ∧ entry.chunkHash = fp := by
  unfold updateOutEntry
  by_cases hu : entry.dedupFlag = .UNIQUE
  · rw [if_pos hu]
    have hinsert : (s.indexObj.insert entry.chunkHash entry.chunkAddr).lookup fp ≠ none ↔
        s.indexObj.lookup fp ≠ none ∨ entry.dedupFlag = .UNIQUE ∧ entry.chunkHash = fp := by
      rw [Table.lookup_insert_ite]
      by_cases hfp : fp = entry.chunkHash
      · rw [if_pos hfp]
        exact ⟨fun _ => Or.inr ⟨hu, hfp.symm⟩, fun _ => Option.some_ne_none _⟩
      · rw [if_neg hfp]
        exact ⟨Or.inl, fun h => h.elim id fun heq => absurd heq.2.symm hfp⟩
    dsimp only
    split
    · exact hinsert
    · exact hinsert
  · rw [if_neg hu]
    exact ⟨Or.inl, fun h => h.elim id fun h => absurd h.1 hu⟩

theorem Ocall_UpdateOutIndex_index (q : Queries) (s : Server) (fp : Fp) :
    (Ocall_UpdateOutIndex q s).indexObj.lookup fp ≠ none ↔
      s.indexObj.lookup fp ≠ none ∨ ∃ k < q.queryNum,
        (q.outQueryBase k).dedupFlag = .UNIQUE ∧ (q.outQueryBase k).chunkHash = fp := by
  apply @forLoop_spec Server (fun n s' => s'.indexObj.lookup fp ≠ none ↔
    s.indexObj.lookup fp ≠ none ∨ ∃ k < n,
      (q.outQueryBase k).dedupFlag = .UNIQUE ∧ (q.outQueryBase k).chunkHash = fp)
  · exact ⟨Or.inl, fun h => h.elim id fun ⟨k, hk, _⟩ => absurd hk (Nat.not_lt_zero k)⟩
  · intro n s' _ ih
    rw [updateOutEntry_index, ih, or_assoc]
    constructor
    · rintro (h | ⟨k, hk, h⟩ | h)
      · exact Or.inl h
      · exact Or.inr ⟨k, Nat.lt_succ_of_lt hk, h⟩
      · exact Or.inr ⟨n, Nat.lt_succ_self n, h⟩
    · rintro (h | ⟨k, hk, h⟩)
      · exact Or.inl h
      · rcases Nat.lt_or_eq_of_le (Nat.le_of_lt_succ hk) with hlt | heq
        · exact Or.inr (Or.inl ⟨k, hlt, h⟩)
        · rw [heq] at h
          exact Or.inr (Or.inr h)

end Batch

section Dedup
variable {env : EnclaveEnv} {topThreshold : Nat} {b : ChunkBatch} {e : Enclave}
  {uploaded : List Bytes}

/-- The fingerprint under which a chunk is stored. -/
def storedFp (env : EnclaveEnv) (chunk : Bytes) : Fp := env.IndexAESCMCEnc (env.GenerateHash chunk)

/-- Every fingerprint that has been uploaded is in the index, and has one record in the containers. -/
structure Deduplicated (env : EnclaveEnv) (uploaded : List Bytes) (e : Enclave) : Prop where
  indexed : ∀ fp, e.server.indexObj.lookup fp ≠ none ↔ ∃ chunk ∈ uploaded, fp = storedFp env chunk
  stored : ∀ fp, fp ∈ e.appended.map (fun p => p.2.fp) ↔ e.server.indexObj.lookup fp ≠ none
  once : (e.appended.map fun p => p.2.fp).Nodup
  made : ∀ p ∈ e.appended, p.1 ∈ uploaded ∧ p.2.fp = storedFp env p.1 ∧ MadeFrom env p.1 p.2
  packed : Streamed e.appended e.taken e.server

/-- What one batch leaves to the next. -/
structure Ready (env : EnclaveEnv) (e : Enclave) : Prop where
  currNum : e.queries.currNum = 0
  heap : e.filter.heap.Ok
  held : ∀ key, e.filter.heap.item key ≠ none →
    e.server.indexObj.lookup (env.IndexAESCMCEnc key) ≠ none

/-- The chunks of a batch that get a record. -/
def batchNew (env : EnclaveEnv) (topThreshold : Nat) (b : ChunkBatch) (e : Enclave) : List Nat :=
  newChunks (checkAt env topThreshold b e b.chunkNum).ins (queried env topThreshold b e).outQueryBase
    b.chunkNum

theorem mem_batchNew {i : Nat} : i ∈ batchNew env topThreshold b e ↔ i < b.chunkNum ∧
    ((checkAt env topThreshold b e b.chunkNum).ins i).dedupFlag = .UNIQUE ∧
    e.server.indexObj.lookup (batchFp env b i) = none := by
  obtain ⟨_, _, hqueried⟩ := @queried_spec env topThreshold b e
  unfold batchNew newChunks
  rw [List.mem_filter, List.mem_range, decide_eq_true_iff]
  constructor
  · rintro ⟨hi, hu, hout⟩
    obtain ⟨hlt, hfp⟩ := queried_fp hi hu
    have hnone := (hqueried _ hlt).2.mp hout
    rw [hfp] at hnone
    exact ⟨hi, hu, hnone⟩
  · rintro ⟨hi, hu, hnone⟩
    obtain ⟨hlt, hfp⟩ := queried_fp hi hu
    refine ⟨hi, hu, (hqueried _ hlt).2.mpr ?_⟩
    rw [hfp]
    exact hnone

/-- No two of them have the same fingerprint. -/
theorem batchNew_nodup : ((batchNew env topThreshold b e).map (batchFp env b)).Nodup := by
  apply List.Nodup.map_on
  · intro i hi j hj heq
    obtain ⟨hi, hui, _⟩ := mem_batchNew.mp hi
    obtain ⟨hj, huj, _⟩ := mem_batchNew.mp hj
    have h := @checkAt_spec env topThreshold b e b.chunkNum
    have hhash : ((sketched env b e).2 i).chunkHash = ((sketched env b e).2 j).chunkHash := by
      rw [sketched_hash hi, sketched_hash hj]
      exact env.IndexAESCMCEnc_injective heq
    have hfirst := h.first i hi (Or.inl hui)
    rw [hhash, h.first j hj (Or.inl huj), Option.some.injEq] at hfirst
    exact hfirst.symm
  · exact List.nodup_range.filter _

/-- Every chunk of a batch is known before or new. -/
theorem batch_known (hready : Ready env e) {i : Nat} (hi : i < b.chunkNum) :
    e.server.indexObj.lookup (batchFp env b i) ≠ none ∨
      ∃ j ∈ batchNew env topThreshold b e, batchFp env b j = batchFp env b i := by
  have h := @checkAt_spec env topThreshold b e b.chunkNum
  obtain ⟨j, hj⟩ := Option.ne_none_iff_exists'.mp (h.covered i hi)
  obtain ⟨hlt, hhash, hset⟩ := h.located hj
  have hfp : batchFp env b j = batchFp env b i := by
    rw [sketched_hash hlt, sketched_hash hi] at hhash
    exact congrArg env.IndexAESCMCEnc hhash
  by_cases hknown : e.server.indexObj.lookup (batchFp env b i) = none
  · right
    refine ⟨j, mem_batchNew.mpr ⟨hlt, ?_, by rw [hfp]; exact hknown⟩, hfp⟩
    rcases hset with hu | hd
    · exact hu
    · have hheld := hready.held _ (h.held j hlt hd)
      rw [hhash, sketched_hash hi] at hheld
      exact absurd hknown hheld
  · exact Or.inl hknown

theorem Ocall_UpdateOutIndex_stream (d : Bool) (taken : List Container) (q : Queries) (s : Server) :
    stream d taken (Ocall_UpdateOutIndex q s) = stream d taken s := by
  apply @forLoop_spec Server fun _ s' => stream d taken s' = stream d taken s
  · rfl
  · intro i s' _ ih
    rw [← ih]
    unfold updateOutEntry
    dsimp only
    split
    · split
      · rfl
      · rfl
    · rfl

/-- The containers keep up with the records over a batch. -/
theorem processChunks_streamed (h : Streamed e.appended e.taken e.server) :
    Streamed (processChunks env topThreshold b e).appended (processChunks env topThreshold b e).taken
      (processChunks env topThreshold b e).server := by
  have hchunks : Streamed (chunksAt env topThreshold b e b.chunkNum).1.appended
      (chunksAt env topThreshold b e b.chunkNum).1.taken
      (chunksAt env topThreshold b e b.chunkNum).1.server := by
    unfold chunksAt
    apply chunkLoop_streamed
    exact h
  have hbatch : Streamed (ProcessOneBatch env topThreshold b e).appended
      (ProcessOneBatch env topThreshold b e).taken
      (ProcessOneBatch env topThreshold b e).server := by
    intro d
    obtain ⟨di, tmp, skip, hfinish⟩ := finishBatch_frame
      ⟨localFlag env topThreshold b e, [], [],
        (chunksAt env topThreshold b e b.chunkNum).1.process_buffer,
        (chunksAt env topThreshold b e b.chunkNum).1.batch_basemap⟩
      (chunksAt env topThreshold b e b.chunkNum).1.server
    refine Eq.trans ?_ (hchunks d)
    change stream d _ (finishBatch _ _) = _
    rw [hfinish]
    rfl
  intro d
  unfold processChunks
  dsimp only
  split
  · rw [← hbatch d]
    exact Ocall_UpdateOutIndex_stream d _ _ _
  · exact hbatch d

/-- What a batch and its registration do to the index, the containers and the heap. -/
theorem processChunks_spec (hcurr : e.queries.currNum = 0) (hok : e.filter.heap.Ok) :
    (∀ fp, (processChunks env topThreshold b e).server.indexObj.lookup fp ≠ none ↔
      e.server.indexObj.lookup fp ≠ none ∨
        ∃ i ∈ batchNew env topThreshold b e, fp = batchFp env b i) ∧
    (∃ more, (processChunks env topThreshold b e).appended = e.appended ++ more ∧
      List.Forall₂ (fun i p => p.1 = b.chunks.getD i [] ∧ p.2.fp = batchFp env b i ∧
        MadeFrom env p.1 p.2) (batchNew env topThreshold b e) more) ∧
    (processChunks env topThreshold b e).queries.currNum = 0 ∧
    (processChunks env topThreshold b e).filter.heap.Ok ∧
    ∀ key, (processChunks env topThreshold b e).filter.heap.item key ≠ none →
      e.filter.heap.item key ≠ none ∨
        ∃ i < b.chunkNum, key = env.GenerateHash (b.chunks.getD i []) ∧
          Stands ((checkAt env topThreshold b e b.chunkNum).ins i) := by
  obtain ⟨_, _, hqueried⟩ := @queried_spec env topThreshold b e
  obtain ⟨st, hsameIns, hsameOuts, hserver, happ, _, hlooped⟩ :=
    @chunksAt_spec env topThreshold b e hcurr b.chunkNum
  have hnum := (@checkAt_spec env topThreshold b e b.chunkNum).num
  let st' := (chunksAt env topThreshold b e b.chunkNum).1
  let e' := ProcessOneBatch env topThreshold b e
  have hindex : e'.server.indexObj = e.server.indexObj := by
    obtain ⟨di, tmp, skip, hfinish⟩ := finishBatch_frame
      ⟨localFlag env topThreshold b e, [], [], st'.process_buffer, st'.batch_basemap⟩ st'.server
    have hsame : e'.server.indexObj = st'.server.indexObj := by
      change (finishBatch _ st'.server).indexObj = _
      rw [hfinish]
    rw [hsame, hlooped.kept.index, hserver]
  have hout : ∀ k < outQueryNum env topThreshold b e,
      ((st'.queries.outQueryBase k).dedupFlag = .UNIQUE ↔
        e.server.indexObj.lookup ((checkAt env topThreshold b e b.chunkNum).outs k).chunkHash = none) ∧
      (st'.queries.outQueryBase k).chunkHash =
        ((checkAt env topThreshold b e b.chunkNum).outs k).chunkHash := by
    intro k hk
    rw [(hlooped.kept.outs k).1, (hlooped.kept.outs k).2, (hsameOuts k).1, (hsameOuts k).2]
    exact ⟨(hqueried k hk).2, (hqueried k hk).1⟩
  have hregister : ∀ fp, (∃ k < outQueryNum env topThreshold b e,
      (st'.queries.outQueryBase k).dedupFlag = .UNIQUE ∧
        (st'.queries.outQueryBase k).chunkHash = fp) ↔
      ∃ i ∈ batchNew env topThreshold b e, fp = batchFp env b i := by
    intro fp
    constructor
    · rintro ⟨k, hk, hu, hfp⟩
      have hrank : k < uniqueRank (checkAt env topThreshold b e b.chunkNum).ins b.chunkNum := by
        rw [← hnum]
        exact hk
      obtain ⟨i, hi, hflag, hki⟩ := exists_of_lt_uniqueRank hrank
      have hown := (queried_fp hi hflag).2
      rw [hki] at hown
      have hnone := (hout k hk).1.mp hu
      rw [(hout k hk).2, hown] at hfp
      rw [hown] at hnone
      exact ⟨i, mem_batchNew.mpr ⟨hi, hflag, hnone⟩, hfp.symm⟩
    · rintro ⟨i, hi, hfp⟩
      obtain ⟨hlt, hflag, hnone⟩ := mem_batchNew.mp hi
      obtain ⟨hk, hown⟩ := @queried_fp env topThreshold b e i hlt hflag
      refine ⟨_, hk, (hout _ hk).1.mpr ?_, ?_⟩
      · rw [hown]
        exact hnone
      · rw [(hout _ hk).2, hown, hfp]
  have hnew : newChunks st.queries.inQueryBase st.queries.outQueryBase b.chunkNum =
      batchNew env topThreshold b e := by
    unfold batchNew newChunks
    apply List.filter_congr
    intro i _
    rw [(hsameIns i).1, hsameIns.rank, (hsameOuts _).1]
  have hall : processChunks env topThreshold b e =
      { e' with server := (processChunks env topThreshold b e).server } := by
    unfold processChunks
    dsimp only
    split
    · rfl
    · rfl
  refine ⟨?_, ?_, ?_, ?_, ?_⟩
  · intro fp
    rw [← hregister, ← hindex]
    unfold processChunks
    dsimp only
    split
    case isTrue => exact Ocall_UpdateOutIndex_index _ _ fp
    case isFalse hzero =>
      have hz : outQueryNum env topThreshold b e = 0 := not_not.mp hzero
      rw [hz]
      exact ⟨Or.inl, fun h => h.elim id fun ⟨k, hk, _⟩ => absurd hk (Nat.not_lt_zero k)⟩
  · obtain ⟨more, hmore, hforall⟩ := hlooped.appended
    refine ⟨more, ?_, ?_⟩
    · rw [hall, ← happ]
      exact hmore
    · rw [← hnew]
      refine List.forall₂_iff_get.mpr ?_
      obtain ⟨hlen, hget⟩ := List.forall₂_iff_get.mp hforall
      refine ⟨hlen, fun k h₁ h₂ => ?_⟩
      obtain ⟨hchunk, hfp, hmade⟩ := hget k h₁ h₂
      have hmem : (newChunks st.queries.inQueryBase st.queries.outQueryBase b.chunkNum).get ⟨k, h₁⟩ ∈
          batchNew env topThreshold b e := by
        rw [← hnew]
        exact List.get_mem _ _
      obtain ⟨hlt, hflag, _⟩ := mem_batchNew.mp hmem
      obtain ⟨hk, hown⟩ := @queried_fp env topThreshold b e _ hlt hflag
      refine ⟨hchunk, ?_, hmade⟩
      rw [hfp, hsameIns.rank, (hsameOuts _).2, (hqueried _ hk).1, hown]
  · rw [hall]
    rfl
  · rw [hall]
    exact (@heapLoop_keys topThreshold _ _ hok b.chunkNum).1
  · intro key hkey
    rw [hall] at hkey
    rcases (@heapLoop_keys topThreshold _ _ hok b.chunkNum).2 key hkey with hold | ⟨i, hi, heq, hset⟩
    · exact Or.inl hold
    · have hhash := (@checkAt_spec env topThreshold b e b.chunkNum).hash i
      have hsame := (hsameIns.trans hlooped.kept.ins) i
      refine Or.inr ⟨i, hi, ?_, ?_⟩
      · rw [heq, hsame.2.1, hhash, sketched_hash hi]
      · unfold Stands at hset ⊢
        rw [← hsame.1]
        exact hset

/-- Every chunk of a batch is in the index once it has been registered. -/
theorem batch_indexed (hready : Ready env e) {i : Nat} (hi : i < b.chunkNum) :
    (processChunks env topThreshold b e).server.indexObj.lookup (batchFp env b i) ≠ none := by
  apply ((@processChunks_spec env topThreshold b e hready.currNum hready.heap).1 _).mpr
  rcases @batch_known env topThreshold b e hready i hi with hold | ⟨j, hj, heq⟩
  · exact Or.inl hold
  · exact Or.inr ⟨j, hj, heq.symm⟩

/-- A key that is new in the heap is in the index. -/
theorem processChunks_held (hcurr : e.queries.currNum = 0) (hok : e.filter.heap.Ok) {key : Fp}
    (hkey : (processChunks env topThreshold b e).filter.heap.item key ≠ none) :
    e.filter.heap.item key ≠ none ∨
      (processChunks env topThreshold b e).server.indexObj.lookup (env.IndexAESCMCEnc key) ≠ none := by
  obtain ⟨hindex, _, _, _, hheld⟩ := @processChunks_spec env topThreshold b e hcurr hok
  rcases hheld key hkey with hold | ⟨i, hi, heq, hu | hd⟩
  · exact Or.inl hold
  · right
    rw [heq]
    apply (hindex (batchFp env b i)).mpr
    by_cases hknown : e.server.indexObj.lookup (batchFp env b i) = none
    · exact Or.inr ⟨i, mem_batchNew.mpr ⟨hi, hu, hknown⟩, rfl⟩
    · exact Or.inl hknown
  · left
    have hfound := (@checkAt_spec env topThreshold b e b.chunkNum).held i hi hd
    rw [heq, ← sketched_hash hi]
    exact hfound

theorem Ready.step (hready : Ready env e) : Ready env (processChunks env topThreshold b e) := by
  obtain ⟨hindex, _, hcurr, hheap, _⟩ :=
    @processChunks_spec env topThreshold b e hready.currNum hready.heap
  refine ⟨hcurr, hheap, ?_⟩
  intro key hkey
  rcases processChunks_held hready.currNum hready.heap hkey with hold | hnew
  · exact (hindex _).mpr (Or.inl (hready.held key hold))
  · exact hnew

theorem Deduplicated.step (h : Deduplicated env uploaded e) (hready : Ready env e) :
    Deduplicated env (uploaded ++ b.chunks) (processChunks env topThreshold b e) := by
  obtain ⟨hindex, ⟨more, hmore, hforall⟩, _⟩ :=
    @processChunks_spec env topThreshold b e hready.currNum hready.heap
  have hfps : more.map (fun p => p.2.fp) =
      (batchNew env topThreshold b e).map (batchFp env b) := by
    apply List.ext_getElem
    · rw [List.length_map, List.length_map, hforall.length_eq]
    · intro k h₁ h₂
      rw [List.getElem_map, List.getElem_map]
      exact ((List.forall₂_iff_get.mp hforall).2 k _ _).2.1
  have hchunk : ∀ i < b.chunkNum, b.chunks.getD i [] ∈ b.chunks := by
    intro i hi
    rw [List.getD_eq_getElem?_getD, List.getElem?_eq_getElem hi]
    exact List.getElem_mem hi
  refine ⟨?_, ?_, ?_, ?_, processChunks_streamed h.packed⟩
  · intro fp
    constructor
    · intro hfp
      rcases (hindex fp).mp hfp with hold | ⟨i, hi, heq⟩
      · obtain ⟨chunk, hmem, heq⟩ := (h.indexed fp).mp hold
        exact ⟨chunk, List.mem_append_left _ hmem, heq⟩
      · exact ⟨_, List.mem_append_right _ (hchunk i (mem_batchNew.mp hi).1), heq⟩
    · rintro ⟨chunk, hmem, heq⟩
      rcases List.mem_append.mp hmem with hold | hin
      · exact (hindex fp).mpr (Or.inl ((h.indexed fp).mpr ⟨chunk, hold, heq⟩))
      · obtain ⟨i, hi, hget⟩ := List.mem_iff_getElem.mp hin
        have hfp : fp = batchFp env b i := by
          rw [heq]
          unfold batchFp storedFp
          rw [List.getD_eq_getElem?_getD, List.getElem?_eq_getElem hi, Option.getD_some, hget]
        rw [hfp]
        exact batch_indexed hready hi
  · intro fp
    rw [hmore, List.map_append, List.mem_append, hfps, hindex, h.stored]
    constructor
    · rintro (hold | hin)
      · exact Or.inl hold
      · obtain ⟨i, hi, heq⟩ := List.mem_map.mp hin
        exact Or.inr ⟨i, hi, heq.symm⟩
    · rintro (hold | ⟨i, hi, heq⟩)
      · exact Or.inl hold
      · exact Or.inr (List.mem_map.mpr ⟨i, hi, heq.symm⟩)
  · rw [hmore, List.map_append, hfps]
    refine List.nodup_append.mpr ⟨h.once, batchNew_nodup, ?_⟩
    intro fp hold fp' hin heq
    obtain ⟨i, hi, hfp⟩ := List.mem_map.mp hin
    rw [heq, ← hfp] at hold
    exact (h.stored _).mp hold (mem_batchNew.mp hi).2.2
  · intro p hp
    rw [hmore] at hp
    rcases List.mem_append.mp hp with hold | hin
    · obtain ⟨hmem, hfp, hmade⟩ := h.made p hold
      exact ⟨List.mem_append_left _ hmem, hfp, hmade⟩
    · obtain ⟨k, hk, hget⟩ := List.mem_iff_getElem.mp hin
      have hk' : k < (batchNew env topThreshold b e).length := by
        rw [hforall.length_eq]
        exact hk
      obtain ⟨hchunkp, hfp, hmade⟩ := (List.forall₂_iff_get.mp hforall).2 k hk' hk
      have hlt := (@mem_batchNew env topThreshold b e _).mp (List.get_mem _ ⟨k, hk'⟩)
      have hp : more.get ⟨k, hk⟩ = p := hget
      rw [hp] at hchunkp hfp hmade
      refine ⟨List.mem_append_right _ ?_, ?_, hmade⟩
      · rw [hchunkp]
        exact hchunk _ hlt.1
      · rw [hfp, hchunkp]
        rfl

/-- Arrays of zeros, in which `UNIQUE` is the first of the flags. -/
def zeroIn (_ : Nat) : InQueryEntry :=
  ⟨.UNIQUE, 0, FixedBytes.fill 32 0, emptyEntry, 0, FixedBytes.fill 96 0, emptyEntry⟩

def zeroOut (_ : Nat) : OutQueryEntry :=
  ⟨.UNIQUE, 0, false, FixedBytes.fill 32 0, emptyEntry, FixedBytes.fill 96 0, [], emptyEntry⟩

/-- A client that has logged in; the arrays hold whatever they were allocated with. -/
def Enclave.start (Forward_Flag Offline_Flag : Bool) (iv : IV) (inQueryBase : Nat → InQueryEntry)
    (outQueryBase : Nat → OutQueryEntry) : Enclave where
  filter := ⟨.empty, .empty⟩
  queries := ⟨inQueryBase, outQueryBase, 0, 0⟩
  server := startSession iv (Server.start Forward_Flag Offline_Flag)
  appended := []
  taken := []

theorem ready_start (Forward_Flag Offline_Flag : Bool) (iv : IV) (inQueryBase : Nat → InQueryEntry)
    (outQueryBase : Nat → OutQueryEntry) :
    Ready env (Enclave.start Forward_Flag Offline_Flag iv inQueryBase outQueryBase) ∧
      Deduplicated env [] (Enclave.start Forward_Flag Offline_Flag iv inQueryBase outQueryBase) := by
  have hnone : ∀ fp, ¬(∅ : Table Fp RecipeEntry).lookup fp ≠ none := by
    intro fp h
    exact h (AList.lookup_empty fp)
  refine ⟨⟨rfl, EntryHeap.ok_empty, ?_⟩, ⟨?_, ?_, List.nodup_nil, ?_, ?_⟩⟩
  · intro key hkey
    exact absurd (EntryHeap.item_eq_none.mpr (AList.lookup_empty key)) hkey
  · intro fp
    exact ⟨fun h => absurd h (hnone fp), fun ⟨_, h, _⟩ => absurd h List.not_mem_nil⟩
  · intro fp
    exact ⟨fun h => absurd h List.not_mem_nil, fun h => absurd h (hnone fp)⟩
  · intro p hp
    exact absurd hp List.not_mem_nil
  · exact fun _ => rfl

/-- After each batch of an upload the index holds what has been uploaded, each fingerprint has one
record, made of a chunk with that fingerprint, the containers hold these records and nothing else, and
all cursors of the batch agreed. -/
theorem exact_dedup (env : EnclaveEnv) (topThreshold : Nat) (Forward_Flag Offline_Flag : Bool)
    (iv : IV) (inQueryBase : Nat → InQueryEntry) (outQueryBase : Nat → OutQueryEntry)
    (earlier : List ChunkBatch) (b : ChunkBatch) :
    let e := earlier.foldl (fun e b => processChunks env topThreshold b e)
      (Enclave.start Forward_Flag Offline_Flag iv inQueryBase outQueryBase)
    Deduplicated env (earlier.flatMap ChunkBatch.chunks ++ b.chunks)
        (processChunks env topThreshold b e) ∧
      ∀ n ≤ b.chunkNum, Cursors env topThreshold b e n := by
  have hrun : ∀ (earlier : List ChunkBatch) (uploaded : List Bytes) (e : Enclave),
      Deduplicated env uploaded e → Ready env e →
      Deduplicated env (uploaded ++ earlier.flatMap ChunkBatch.chunks)
          (earlier.foldl (fun e b => processChunks env topThreshold b e) e) ∧
        Ready env (earlier.foldl (fun e b => processChunks env topThreshold b e) e) := by
    intro earlier
    induction earlier with
    | nil =>
      intro uploaded e h hready
      rw [List.flatMap_nil, List.append_nil]
      exact ⟨h, hready⟩
    | cons first earlier ih =>
      intro uploaded e h hready
      rw [List.flatMap_cons, ← List.append_assoc]
      exact ih _ _ (h.step hready) hready.step
  intro e
  obtain ⟨hready₀, h₀⟩ := @ready_start env Forward_Flag Offline_Flag iv inQueryBase outQueryBase
  obtain ⟨h, hready⟩ := hrun earlier [] _ h₀ hready₀
  rw [List.nil_append] at h
  exact ⟨h.step hready, fun n hn => cursors hready.currNum hn⟩

end Dedup

end ShieldReduce.Prototype.EcallFreqIndex
