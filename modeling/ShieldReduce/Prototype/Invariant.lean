import ShieldReduce.Prototype.StoredPass
import ShieldReduce.Prototype.Stepped

/-!
# The invariant of the server

What holds in every state of a server lifetime, phase by phase, and the steps of an upload and of
the writer thread that keep it.
-/

namespace ShieldReduce.Prototype
open Lib Store EDelta

/-- The stored chunks that await `Ocall_UpdateOutIndex`, and the pairs that await
`Ocall_UpdateDeltaIndex`. -/
def inflight : Phase → List QueryEntry × List (Fp × Fp)
  | .uploading (.chunkLoop b) => (b.done, b.process_buffer)
  | .uploading (.loaded _ b) => (b.done, b.process_buffer)
  | .uploading (.answered b) => (b.done, [])
  | _ => ([], [])

/-- What the in-enclave buffers hold. -/
def opensIn (phase : Phase) (s : Server) : Path → Option Bytes :=
  match phase with
  | .uploading _ => uploadOpens s
  | .offline .update => hotOpens s
  | _ => fun _ => none

/-- Outside a pass. `done` are the chunks that the pending maps may already name. -/
structure Waiting (s : Server) (done : List QueryEntry) (Lost : Fp → Prop) : Prop where
  pending : Pending s.indexObj s.sfObj done s.local_tmp_map s.skipMap Lost
  local_map : s.local_map = []
  cold : ∀ name, Table.vec s.cold_map name = []

/-- During a pass. -/
structure Passing (s : Server) : Prop where
  local_tmp_map : s.local_tmp_map = ∅
  skipMap : s.skipMap = ∅
  queue : s.inputMQ = []
  writer : s.writer = none

/-- The pairs of containers that are still to be merged. -/
structure MergeOk (files : Table Path Bytes) (pairs : List (ContainerName × ContainerName)) :
    Prop where
  distinct : (pairs.flatMap fun p => [p.1, p.2]).Nodup
  fits : ∀ p ∈ pairs, ∀ first second, files.lookup (false, p.1) = some first →
    files.lookup (false, p.2) = some second → first.length + second.length < MAX_CONTAINER_SIZE

inductive StageOk (s : Server) (Lost : Fp → Prop) : Phase → Prop
  | idle (wait : Waiting s [] Lost) (queue : s.inputMQ = []) (writer : s.writer = none) :
    StageOk s Lost .idle
  | ready (wait : Waiting s [] Lost) (body : ∀ d, (s.opened d).body = []) :
    StageOk s Lost (.uploading .ready)
  | chunkLoop {b : Batch} (wait : Waiting s [] Lost) (body : ∀ d, (s.opened d).body = [])
    (batch : BatchOk s.indexObj s.sfObj b []) : StageOk s Lost (.uploading (.chunkLoop b))
  | loaded {x : QueryEntry} {b : Batch} (wait : Waiting s [] Lost)
    (body : ∀ d, (s.opened d).body = []) (batch : BatchOk s.indexObj s.sfObj b [x]) :
    StageOk s Lost (.uploading (.loaded x b))
  | answered {b : Batch} (wait : Waiting s b.done Lost) (body : ∀ d, (s.opened d).body = [])
    (batch : BatchOk s.indexObj s.sfObj b []) (todo : b.todo = []) :
    StageOk s Lost (.uploading (.answered b))
  | tailed (wait : Waiting s [] Lost) (body : ∀ d, (s.opened d).body = (s.opened d).buf) :
    StageOk s Lost (.uploading .tailed)
  | draining (wait : Waiting s [] Lost) : StageOk s Lost .draining
  | update (pass : Passing s) (remaining : Remaining s.indexObj Lost s.local_basemap s.local_map) :
    StageOk s Lost (.offline .update)
  | cold {names : List ContainerName} (pass : Passing s) (local_map : s.local_map = [])
    (names_cold : ∀ name, Table.vec s.cold_map name ≠ [] → name ∈ names) :
    StageOk s Lost (.offline (.cold names))
  | merge {pairs : List (ContainerName × ContainerName)} (pass : Passing s)
    (local_map : s.local_map = []) (cold : ∀ name, Table.vec s.cold_map name = [])
    (merge : MergeOk s.files pairs) : StageOk s Lost (.offline (.merge pairs))

/-- The invariant, with the records of the containers and the old bases whose dependents the delta
index has dropped. -/
structure Inv (env : EnclaveEnv) (s : Server) (R : Records) (Lost : Fp → Prop) : Prop where
  graph : Graph s.indexObj s.sfObj s.delta_index (inflight s.phase).1 (inflight s.phase).2 Lost
  stores : Stores env (Entry s.indexObj (inflight s.phase).1) (opensIn s.phase s) s R
  stage : StageOk s Lost s.phase

section Start
variable {env : EnclaveEnv}

theorem pending_empty (indexObj : FpIndex) (sfObj : SfIndex) (done : List QueryEntry)
    (Lost : Fp → Prop) : Pending indexObj sfObj done ∅ ∅ Lost := by
  have hvec : ∀ b, Table.vec (∅ : Table Fp (List Fp)) b = [] := fun _ => rfl
  refine ⟨?_, ?_, ?_, ?_, ?_, ?_⟩
  · intro b n h
    simp at h
  · intro b h
    simp at h
  · intro b n h
    simp at h
  · intro b n h
    rw [hvec] at h
    simp at h
  · intro b b' n h
    simp at h
  · intro b b' n h
    simp at h

/-- The invariant of the server after start-up. -/
theorem Inv.start (Forward_Flag Offline_Flag : Bool) :
    Inv env (Server.start Forward_Flag Offline_Flag) (fun _ => none) fun _ => False := by
  have hentry : ∀ fp e, ¬Entry (∅ : FpIndex) [] fp e := by
    intro fp e h
    simp [Entry] at h
  have hvec : ∀ {K V : Type} [DecidableEq K] (k : K), Table.vec (∅ : Table K (List V)) k = [] :=
    fun _ => rfl
  refine ⟨⟨?_, ?_, ?_, ?_, ?_, ?_, ?_⟩, ⟨⟨⟨?_, ?_, ?_⟩, ?_⟩, ?_⟩, ?_⟩
  · exact fun h => absurd h (hentry _ _)
  · intro k b d h
    simp [kinds, Server.start] at h
  · intro i k fp h
    change fp ∈ Table.vec (∅ : Table Fp (List Fp)) k at h
    rw [hvec] at h
    simp at h
  · exact fun h => absurd h id
  · exact fun h => absurd h id
  · intro b _
    exact List.nodup_nil
  · intro b _ d
    constructor
    · intro h
      change d ∈ Table.vec (∅ : Table Fp (List Fp)) b ++ [] at h
      rw [hvec] at h
      simp at h
    · rintro ⟨e, he, _⟩
      exact absurd he (hentry _ _)
  · simp
  · simp
  · simp
  · intro p
    exact HoldsAt.absent
  · refine ⟨?_, ?_, ?_, ?_, ?_, ?_, ?_, ?_⟩
    · exact fun h => absurd h (hentry _ _)
    · exact fun h => absurd h (hentry _ _)
    · exact fun h => absurd h (hentry _ _)
    · exact fun h => absurd h (hentry _ _)
    · exact fun h => absurd h (hentry _ _)
    · simp
    · intro name ext h
      change ext ∈ Table.vec (∅ : Table ContainerName (List (UInt32 × UInt32))) name at h
      rw [hvec] at h
      simp at h
    · intro name
      exact List.nodup_nil
  · exact .idle ⟨pending_empty _ _ _ _, rfl, fun _ => rfl⟩ rfl rfl

end Start

section Upload
variable {env : EnclaveEnv} {s : Server} {R : Records} {Lost : Fp → Prop}

theorem Inv.at {phase : Phase} (h : Inv env s R Lost) (hphase : s.phase = phase) :
    Graph s.indexObj s.sfObj s.delta_index (inflight phase).1 (inflight phase).2 Lost ∧
      Stores env (Entry s.indexObj (inflight phase).1) (opensIn phase s) s R ∧
      StageOk s Lost phase := by
  subst hphase
  exact ⟨h.graph, h.stores, h.stage⟩

/-- A session opens two empty containers. -/
theorem startSession_opens (h : Inv env s R Lost) (hphase : s.phase = .idle) (iv : IV)
    (htimes : s.con_times + 2 < 2 ^ 31) :
    ∃ R', Inv env { startSession iv s with phase := .uploading .ready } R' Lost ∧ Grows R R' := by
  obtain ⟨hgraph, hstores, hstage⟩ := h.at hphase
  cases hstage with
  | idle wait queue writer =>
    have hbase := hstores.holds.openNew (by omega) false
    have hdelta := hbase.openNew (by omega) true
    have hindexed := (hstores.indexed.draw hstores.holds.ok (by omega) false).draw hbase.ok
      (by omega) true
    have hopens : uploadOpens { startSession iv s with phase := .uploading .ready } =
        Function.update (Function.update (fun _ => none) (false, CreateUUID s.con_times) (some []))
          (true, CreateUUID (s.con_times + 1)) (some []) := by
      funext p
      obtain ⟨d, name⟩ := p
      have hopened : (startSession iv s).opened d =
          ⟨CreateUUID (if d then s.con_times + 1 else s.con_times), [], []⟩ := rfl
      unfold uploadOpens
      dsimp only
      rw [hopened]
      cases d with
      | false =>
        rw [Function.update_of_ne (by simp)]
        by_cases hn : name = CreateUUID s.con_times
        · rw [hn, Function.update_self]
          exact if_pos rfl
        · rw [Function.update_of_ne (by simpa using hn)]
          exact if_neg fun heq => hn heq.symm
      | true =>
        by_cases hn : name = CreateUUID (s.con_times + 1)
        · rw [hn, Function.update_self]
          exact if_pos rfl
        · rw [Function.update_of_ne (by simpa using hn), Function.update_of_ne (by simp)]
          exact if_neg fun heq => hn heq.symm
    have hopen : Added (fun _ => none) R _ [] :=
      added_open (hstores.holds.ok.fresh (Nat.lt_of_le_of_lt (Nat.le_add_right _ 2) htimes) false)
    have hopen' : Added (fun _ => none) _ _ [] :=
      added_open (hbase.ok.fresh (Nat.lt_of_succ_lt htimes) true)
    refine ⟨_, ⟨hgraph, ⟨?_, hindexed⟩, .ready ⟨wait.pending, wait.local_map, wait.cold⟩
      fun _ => rfl⟩, hopen.grows.trans hopen'.grows⟩
    change Holds env s.writer s.inputMQ (uploadOpens _) s.files (s.con_times + 1 + 1) _
    rw [hopens]
    exact hdelta

theorem startSession_inv (h : Inv env s R Lost) (hphase : s.phase = .idle) (iv : IV)
    (htimes : s.con_times + 2 < 2 ^ 31) :
    ∃ R', Inv env { startSession iv s with phase := .uploading .ready } R' Lost := by
  obtain ⟨R', h', _⟩ := startSession_opens h hphase iv htimes
  exact ⟨R', h'⟩

theorem uploadChunk_inv (h : Inv env s R Lost) (hphase : s.phase = .uploading .ready)
    {chunks : List Bytes} (hsize : ∀ c ∈ chunks, 1 ≤ c.length ∧ c.length ≤ MAX_CHUNK_SIZE)
    (heap : Fp → Bool) (left : Nat → RecipeEntry) :
    Inv env { s with phase := .uploading (.chunkLoop (queryBatch env chunks heap left s)) } R
      Lost := by
  obtain ⟨hgraph, hstores, hstage⟩ := h.at hphase
  cases hstage with
  | ready wait body =>
    have hposted : ∀ {fp}, Posted s.sfObj fp → s.indexObj.lookup fp ≠ none := by
      intro fp hp
      obtain ⟨e, he, _⟩ := hgraph.posted_whole hp
      rw [he]
      exact Option.some_ne_none e
    exact ⟨hgraph, ⟨hstores.holds, hstores.indexed⟩, .chunkLoop
      ⟨wait.pending, wait.local_map, wait.cold⟩ body (queryBatch_ok hposted hsize heap left)⟩

theorem offlinedeltaTure_inv (h : Inv env s R Lost) {Local_Flag : Bool} {x : QueryEntry}
    {todo done : List QueryEntry} {process_buffer batch_basemap : List (Fp × Fp)}
    (hphase : s.phase = .uploading
      (.chunkLoop ⟨Local_Flag, x :: todo, done, process_buffer, batch_basemap⟩)) :
    Inv env { (OfflinedeltaTure Local_Flag x s).2.2 with
      phase := .uploading (.loaded (OfflinedeltaTure Local_Flag x s).1
        ⟨Local_Flag, todo, done, process_buffer,
          batch_basemap ++ (OfflinedeltaTure Local_Flag x s).2.1.toList⟩) } R Lost := by
  obtain ⟨hgraph, hstores, hstage⟩ := h.at hphase
  cases hstage with
  | chunkLoop wait body batch =>
    have hne : OUT_DELTA ≠ NO_DELTA := by decide
    obtain ⟨_, hflag, hoff⟩ := batch.todo x (by simp)
    have hhash : x.deltaFlag ≠ NO_DELTA → x.chunkAddr.basechunkHash = x.basechunkHash :=
      fun hx => (batch.base x (by simp [batchEntries]) (Or.inl hx)).hash
    obtain ⟨f, o, c, t, cb, pair, heq, hcases⟩ := OfflinedeltaTure_spec Local_Flag s hflag hoff
      hhash
    rw [heq]
    exact ⟨hgraph, ⟨hstores.holds, hstores.indexed⟩, .loaded
      ⟨wait.pending, wait.local_map, wait.cold⟩ body (batch.load rfl hcases)⟩

/-- A chunk that no entry has yet. -/
theorem batch_fresh {b : Batch} {x : QueryEntry} (h : BatchOk s.indexObj s.sfObj b [x])
    (e : RecipeEntry) : ¬Entry s.indexObj b.done x.chunkHash e := by
  rintro (he | ⟨y, hy, hfp, _⟩)
  · rw [h.fresh x (by simp [batchEntries])] at he
    simp at he
  · have hnodup := h.nodup
    unfold batchEntries at hnodup
    rw [List.map_append] at hnodup
    have hapart := (List.nodup_append.mp hnodup).2.2
    exact hapart _ (List.mem_map.mpr ⟨y, hy, rfl⟩) _ (List.mem_map.mpr ⟨x, by simp, rfl⟩) hfp

/-- A record is stored for the loaded chunk: the chunk itself, or a delta with its pair. -/
theorem unique_inv {x : QueryEntry} {b : Batch} {a : RecipeEntry} {buf : Bytes}
    {pair : Option (Fp × Fp)}
    (hgraph : Graph s.indexObj s.sfObj s.delta_index b.done b.process_buffer Lost)
    (hstores : Stores env (Entry s.indexObj b.done) (uploadOpens s) s R) (wait : Waiting s [] Lost)
    (body : ∀ d, (s.opened d).body = []) (batch : BatchOk s.indexObj s.sfObj b [x])
    (htimes : s.con_times < 2 ^ 31) (hpos : 1 ≤ buf.length) (hmax : buf.length ≤ MAX_CHUNK_SIZE)
    (hdelta : a.deltaFlag = DELTA → ∀ base, (EDeltaDecode buf base).length ≤ MAX_CHUNK_SIZE)
    (hbase : a.basechunkHash = x.chunkAddr.basechunkHash)
    (hcases : (a.deltaFlag = NO_DELTA ∧ pair = none) ∨
      (a.deltaFlag = DELTA ∧ x.deltaFlag = DELTA ∧ pair = some (basePair x))) :
    ∃ R', Inv env { (ProcessSheUniqueChunk env a buf x.superfeature x.chunkHash s).1 with
      phase := .uploading (.chunkLoop
        { b with
          done := b.done ++ [{ x with
            deltaFlag := a.deltaFlag
            chunkAddr := (ProcessSheUniqueChunk env a buf x.superfeature x.chunkHash s).2 }]
          process_buffer := b.process_buffer ++ pair.toList }) } R' Lost ∧
      Added (uploadOpens s) R R' [uniqueRecord env a buf x.superfeature x.chunkHash s] := by
  have hfresh := batch_fresh batch
  obtain ⟨hflag', hbase', hsuper⟩ := ProcessSheUniqueChunk_addr env a buf x.superfeature x.chunkHash s
  obtain ⟨R', hstores', hadded⟩ := ProcessSheUniqueChunk_stores hstores htimes
    (hcases.imp And.left And.left) hpos hmax hdelta hfresh
  obtain ⟨q, o, t, n, hs', _, hbody⟩ := ProcessSheUniqueChunk_frame env a buf x.superfeature
    x.chunkHash s
  obtain ⟨x', hx'⟩ : ∃ x' : QueryEntry, x' = { x with
    deltaFlag := a.deltaFlag
    chunkAddr := (ProcessSheUniqueChunk env a buf x.superfeature x.chunkHash s).2 } := ⟨_, rfl⟩
  have haddr : x'.chunkAddr = (ProcessSheUniqueChunk env a buf x.superfeature x.chunkHash s).2 := by
    rw [hx']
  have hhash : x'.chunkHash = x.chunkHash := by rw [hx']
  have hgraph' : Graph s.indexObj s.sfObj s.delta_index (b.done ++ [x'])
      (b.process_buffer ++ pair.toList) Lost := by
    refine hgraph.store (by rw [hhash]; exact hfresh) ?_
    rw [haddr, hhash]
    rcases hcases with ⟨hno, hpair⟩ | ⟨hyes, hx, hpair⟩
    · exact Or.inl ⟨hflag'.trans hno, hpair⟩
    · have hne : DELTA ≠ NO_DELTA := by decide
      have hb := batch.base x (by simp [batchEntries]) (Or.inl (by rw [hx]; exact hne))
      refine Or.inr ⟨hflag'.trans hyes, ?_⟩
      rw [hpair, hbase', hbase, hb.hash]
      rfl
  have hbatch' := batch.store hx' hflag' (hbase'.trans hbase) (by
    rcases hcases with ⟨hno, hpair⟩ | ⟨hyes, hx, hpair⟩
    · exact Or.inl ⟨hno, hpair, hsuper hno⟩
    · exact Or.inr ⟨hyes, hx, hpair⟩)
  have hindexed : Indexed (Entry s.indexObj (b.done ++ [x'])) _ _ R' := hstores'.indexed.congr (by
    intro fp e
    rw [entry_snoc, haddr, hhash])
  have hholds := hstores'.holds
  rw [← hx', hs']
  rw [hs'] at hindexed hholds
  exact ⟨R', ⟨hgraph', ⟨hholds, hindexed⟩, .chunkLoop ⟨wait.pending, wait.local_map, wait.cold⟩
    (fun d => hbody d (body d)) hbatch'⟩, hadded⟩

/-- What is stored for the loaded chunk: the chunk itself, or a delta. -/
def StoredAs (env : EnclaveEnv) (x : QueryEntry) (a : RecipeEntry) (buf : Bytes) : Prop :=
  (a = x.chunkAddr ∧ buf = x.chunk) ∨ (x.deltaFlag = DELTA ∧
    a = { x.chunkAddr with deltaFlag := DELTA } ∧
    buf = EDeltaEncode env.edelta x.chunk (refChunk env x))

theorem storeChunk_inv (h : Inv env s R Lost) {x : QueryEntry} {b : Batch}
    (hphase : s.phase = .uploading (.loaded x b)) (htimes : s.con_times < 2 ^ 31) :
    ∃ R' a buf, Inv env { (storeChunk env x s).2.2 with
        phase := .uploading (.chunkLoop
          { b with
            done := b.done ++ [(storeChunk env x s).1]
            process_buffer := b.process_buffer ++ (storeChunk env x s).2.1.toList }) } R' Lost ∧
      Added (uploadOpens s) R R' [uniqueRecord env a buf x.superfeature x.chunkHash s] ∧
      StoredAs env x a buf ∧
      (storeChunk env x s).2.2 = (ProcessSheUniqueChunk env a buf x.superfeature x.chunkHash s).1 ∧
      (storeChunk env x s).1.chunkAddr =
        (uniqueRecord env a buf x.superfeature x.chunkHash s).entry := by
  have hne : DELTA ≠ NO_DELTA := by decide
  obtain ⟨hgraph, hstores, hstage⟩ := h.at hphase
  cases hstage with
  | loaded wait body batch =>
    obtain ⟨haddr, _⟩ := batch.loaded x (by simp)
    obtain ⟨hpos, hmax⟩ := batch.size x (by simp [batchEntries])
    rcases @storeChunk_cases env x haddr s with heq | ⟨hdelta, hlen, heq⟩
    · rw [heq]
      obtain ⟨R', hinv, hadded⟩ := @unique_inv env s R Lost x b x.chunkAddr x.chunk none hgraph
        hstores wait body batch htimes hpos hmax (fun hf => absurd (haddr.symm.trans hf) hne.symm)
        rfl (Or.inl ⟨haddr, rfl⟩)
      rw [haddr] at hinv
      exact ⟨R', x.chunkAddr, x.chunk, hinv, hadded, Or.inl ⟨rfl, rfl⟩, rfl, rfl⟩
    · -- the base's record is no longer than a chunk, so what it recovers to is not
      have hbased := batch.base x (by simp [batchEntries]) (Or.inl (by rw [hdelta]; exact hne))
      have hshort := hstores.indexed.short (Or.inl hbased.addr)
      have href : (refChunk env x).length ≤ MAX_CHUNK_SIZE := by
        apply RecoverOneChunk_length
        unfold getChunkContent
        rw [readAt_length]
        exact hshort
      have hdecode := EDeltaDecode_length env.edelta hmax href
      have hne' : 1 ≤ (EDeltaEncode env.edelta x.chunk (refChunk env x)).length := by
        by_contra hzero
        have hnil : EDeltaEncode env.edelta x.chunk (refChunk env x) = [] :=
          List.eq_nil_of_length_eq_zero (by omega)
        have hlen' := hdecode []
        rw [hnil, EDeltaDecode_nil] at hlen'
        simp only [List.length_nil] at hlen'
        omega
      rw [heq]
      obtain ⟨R', hinv, hadded⟩ := @unique_inv env s R Lost x b
        { x.chunkAddr with deltaFlag := DELTA } _ (some (basePair x)) hgraph hstores wait body batch
        htimes hne' (by omega) (fun _ base => by rw [hdecode base]; exact hmax) rfl
        (Or.inr ⟨rfl, hdelta, rfl⟩)
      exact ⟨R', _, _, hinv, hadded, Or.inr ⟨hdelta, rfl, rfl⟩, rfl, rfl⟩

theorem endBatch_inv (h : Inv env s R Lost) {b : Batch}
    (hphase : s.phase = .uploading (.chunkLoop b)) (htodo : b.todo = []) :
    Inv env { finishBatch b s with phase := .uploading (.answered b) } R Lost := by
  obtain ⟨hgraph, hstores, hstage⟩ := h.at hphase
  cases hstage with
  | chunkLoop wait body batch =>
    have hfresh : ∀ x ∈ b.done, s.indexObj.lookup x.chunkHash = none :=
      fun x hx => batch.fresh x (List.mem_append_left _ hx)
    have hqueue := wait.pending.queue hfresh
    unfold finishBatch
    by_cases hlocal : b.Local_Flag = true
    · rw [if_pos hlocal]
      have hdone := batch.deferred hlocal
      rw [List.append_nil] at hdone
      have hpairs : b.process_buffer = [] := by
        have hne : NO_DELTA ≠ DELTA := by decide
        rw [batch.pairs, List.filter_eq_nil_iff.mpr]
        · rfl
        · intro x hx
          simpa [hdone x hx] using hne
      have hmap := batch.basemap
      rw [List.append_nil] at hmap
      have hsnd : b.batch_basemap.map Prod.snd =
          (b.done.filter fun x => x.offlineFlag).map QueryEntry.chunkHash := by
        rw [hmap, List.map_map]
        rfl
      have hnodup : (b.batch_basemap.map Prod.snd).Nodup := by
        have hall := batch.nodup
        unfold batchEntries at hall
        rw [hsnd]
        rw [List.map_append] at hall
        exact (List.nodup_append.mp hall).1.sublist (List.filter_sublist.map _)
      have hdefer : ∀ p ∈ b.batch_basemap, Posted s.sfObj p.1 ∧
          NewBase s.indexObj s.sfObj b.done Lost p.2 ∧
          (∀ k, s.local_tmp_map.lookup k ≠ some p.2) ∧ ∀ k, p.2 ∉ Table.vec s.skipMap k := by
        intro p hp
        rw [hmap] at hp
        obtain ⟨x, hx, rfl⟩ := List.mem_map.mp hp
        obtain ⟨hx, hoff⟩ := List.mem_filter.mp hx
        have hmem : x ∈ batchEntries b [] := List.mem_append_left _ hx
        have hnone := hfresh x hx
        have hpost : ∀ {e}, s.indexObj.lookup x.chunkHash ≠ some e := by
          intro e he
          rw [hnone] at he
          simp at he
        have hold : ∀ {n}, NewBase s.indexObj s.sfObj [] Lost n → n ≠ x.chunkHash := by
          rintro n hn rfl
          obtain ⟨e, he, _⟩ := whole_entry.mp hn.whole
          exact hpost he
        refine ⟨(batch.base x hmem (Or.inr hoff)).posted, ⟨⟨x.chunkAddr, ?_, ?_⟩, ?_, ?_, ?_⟩, ?_, ?_⟩
        · exact Or.inr ⟨x, hx, rfl, rfl⟩
        · exact (batch.done x hx).1.trans (hdone x hx)
        · intro hp
          obtain ⟨e, he, _⟩ := hgraph.posted_whole hp
          exact hpost he
        · exact fun hl => hgraph.lost_stored hl hnone
        · intro y hy heq
          have hall := batch.nodup
          unfold batchEntries at hall
          rw [List.map_append] at hall
          have hyx := List.inj_on_of_nodup_map (List.nodup_append.mp hall).1 hy hx heq
          rw [hyx]
          exact hoff
        · exact fun k hk => hold (wait.pending.new hk) rfl
        · exact fun k hk => hold (wait.pending.superseded hk) rfl
      obtain ⟨tmp, skip, hs', hpend⟩ := hqueue.defer hnodup hdefer
      rw [hs']
      have hgraph' : Graph s.indexObj s.sfObj s.delta_index b.done [] Lost := by
        rw [← hpairs]
        exact hgraph
      exact ⟨hgraph', ⟨hstores.holds, hstores.indexed⟩,
        .answered ⟨hpend, wait.local_map, wait.cold⟩ body batch htodo⟩
    · rw [if_neg hlocal]
      obtain ⟨t, hs', hvec⟩ := Ocall_UpdateDeltaIndex_spec s b.process_buffer
      rw [hs']
      exact ⟨hgraph.flush hvec, ⟨hstores.holds, hstores.indexed⟩,
        .answered ⟨hqueue, wait.local_map, wait.cold⟩ body batch htodo⟩

theorem updateOutIndex_inv (h : Inv env s R Lost) {b : Batch}
    (hphase : s.phase = .uploading (.answered b)) :
    Inv env { Ocall_UpdateOutIndex b.done s with phase := .uploading .ready } R Lost := by
  obtain ⟨hgraph, hstores, hstage⟩ := h.at hphase
  cases hstage with
  | answered wait body batch todo =>
    have hfresh : ∀ x ∈ b.done, s.indexObj.lookup x.chunkHash = none :=
      fun x hx => batch.fresh x (List.mem_append_left _ hx)
    have hnodup : (b.done.map QueryEntry.chunkHash).Nodup := by
      have hall := batch.nodup
      unfold batchEntries at hall
      rw [List.map_append] at hall
      exact (List.nodup_append.mp hall).1
    have hne : DELTA ≠ NO_DELTA := by decide
    obtain ⟨idx, sf, hs', hidx, hsf⟩ := Ocall_UpdateOutIndex_spec b.done s hnodup hfresh
    rw [hs']
    refine ⟨hgraph.register hfresh ?_ ?_ hidx hsf, ⟨hstores.holds, ?_⟩,
      .ready ⟨wait.pending.register hidx hsf, wait.local_map, wait.cold⟩ body⟩
    · intro x hx hflag
      have hdelta := (batch.done x hx).1.symm.trans hflag
      have hb := batch.base x (List.mem_append_left _ hx) (Or.inl (by rw [hdelta]; exact hne))
      rw [hb.hash]
      exact hb.posted
    · intro x hx hflag
      obtain ⟨haddr, hkind⟩ := batch.done x hx
      refine ⟨haddr.trans hflag, ?_⟩
      rcases hkind with ⟨_, hsuper⟩ | ⟨hdelta, _⟩
      · exact hsuper
      · rw [hflag] at hdelta
        exact absurd hdelta.symm hne
    · have hE : ∀ fp e, Entry idx [] fp e ↔ Entry s.indexObj b.done fp e := by
        intro fp e
        rw [← hidx]
        simp [Entry]
      exact hstores.indexed.congr hE

theorem uploadRecipeEnd_inv (h : Inv env s R Lost) (hphase : s.phase = .uploading .ready) :
    Inv env { ProcessTailBatch s with phase := .uploading .tailed } R Lost := by
  obtain ⟨hgraph, hstores, hstage⟩ := h.at hphase
  cases hstage with
  | ready wait body =>
    have hopened : ∀ d, ((ProcessTailBatch s).opened d).containerID = (s.opened d).containerID ∧
        ((ProcessTailBatch s).opened d).buf = (s.opened d).buf ∧
        ((ProcessTailBatch s).opened d).body = (s.opened d).buf := by
      intro d
      change (tailContainer (s.opened d)).containerID = _ ∧ (tailContainer (s.opened d)).buf = _ ∧
        (tailContainer (s.opened d)).body = _
      unfold tailContainer
      by_cases hbuf : (s.opened d).buf.length ≠ 0
      · rw [if_pos hbuf]
        exact ⟨rfl, rfl, rfl⟩
      · rw [if_neg hbuf, body d]
        refine ⟨rfl, rfl, (List.eq_nil_of_length_eq_zero ?_).symm⟩
        omega
    have hopens : uploadOpens { ProcessTailBatch s with phase := .uploading .tailed } =
        uploadOpens s := by
      funext p
      unfold uploadOpens
      dsimp only
      rw [(hopened p.1).1, (hopened p.1).2.1]
    refine ⟨hgraph, ⟨?_, hstores.indexed⟩, .tailed ⟨wait.pending, wait.local_map, wait.cold⟩ ?_⟩
    · change Holds env s.writer s.inputMQ (uploadOpens _) s.files s.con_times R
      rw [hopens]
      exact hstores.holds
    · intro d
      exact (hopened d).2.2.trans (hopened d).2.1.symm

/-- The end of a session, one directory: a container with a body goes to the writer, one without is
lost. -/
theorem lastContainer_stores {E : Fp → RecipeEntry → Prop} {opens : Path → Option Bytes}
    (h : Stores env E opens s R) (hcold : ∀ name, Table.vec s.cold_map name = []) (d : Bool)
    (hopen : opens (d, (s.opened d).containerID) = some (s.opened d).buf)
    (hbody : (s.opened d).body = [] ∨ (s.opened d).body = (s.opened d).buf) :
    ∃ q o t R', lastContainer d s =
        { s with
          inputMQ := q
          opened := o
          con_times := t } ∧
      (∀ d' ≠ d, o d' = s.opened d') ∧ s.con_times ≤ t ∧
      Stores env E (Function.update opens (d, (s.opened d).containerID) none) (lastContainer d s)
        R' ∧
      (((s.opened d).body = [] ∧ R' = Function.update R (d, (s.opened d).containerID) none) ∨
        ((s.opened d).body ≠ [] ∧ R' = R)) := by
  unfold lastContainer
  by_cases hempty : (s.opened d).body = []
  · have hlen : ¬(s.opened d).body.length ≠ 0 := by simp [hempty]
    rw [if_neg hlen]
    exact ⟨s.inputMQ, s.opened, s.con_times, _, rfl, fun _ _ => rfl, Nat.le_refl _,
      ⟨h.holds.drop hopen, h.indexed.remove (hcold _)⟩, Or.inl ⟨hempty, rfl⟩⟩
  · have hlen : (s.opened d).body.length ≠ 0 := fun h => hempty (List.eq_nil_of_length_eq_zero h)
    have hfull := hbody.resolve_left hempty
    rw [if_pos hlen]
    have hc : opens (Container.path ⟨(s.opened d).containerID, d, (s.opened d).body⟩) =
        some (s.opened d).body := by
      rw [hfull]
      exact hopen
    refine ⟨_, _, _, R, rfl, ?_, Nat.le_succ _, ⟨(h.holds.enqueue hc).mono (Nat.le_succ _),
      h.indexed.mono (Nat.le_succ _)⟩, Or.inr ⟨hempty, rfl⟩⟩
    intro d' hd'
    exact Function.update_of_ne hd' _ _

/-- The records after the end of a session: those of a buffer that was never copied to its body are
lost. -/
def closedRecords (s : Server) (R : Records) : Records := fun p =>
  if (s.opened p.1).containerID = p.2 ∧ (s.opened p.1).body = [] then none else R p

theorem closeSession_stores {E : Fp → RecipeEntry → Prop} (h : Stores env E (uploadOpens s) s R)
    (hcold : ∀ name, Table.vec s.cold_map name = [])
    (hbody : ∀ d, (s.opened d).body = [] ∨ (s.opened d).body = (s.opened d).buf) :
    ∃ q o t, closeSession s =
        { s with
          inputMQ := q
          opened := o
          con_times := t } ∧
      Stores env E (fun _ => none) (closeSession s) (closedRecords s R) := by
  obtain ⟨q, o, t, R₁, hs₁, ho, _, hstores₁, hR₁⟩ := lastContainer_stores h hcold false
    (uploadOpens_self s false) (hbody false)
  have htrue : (lastContainer false s).opened true = s.opened true := by
    rw [hs₁]
    exact ho true (by simp)
  have hcold₁ : ∀ name, Table.vec (lastContainer false s).cold_map name = [] := by
    rw [hs₁]
    exact hcold
  obtain ⟨q', o', t', R₂, hs₂, _, _, hstores₂, hR₂⟩ := lastContainer_stores hstores₁ hcold₁ true
    (by rw [htrue, Function.update_of_ne (by simp)]; exact uploadOpens_self s true)
    (by rw [htrue]; exact hbody true)
  rw [htrue] at hstores₂ hR₂
  have hopens : Function.update (Function.update (uploadOpens s)
      (false, (s.opened false).containerID) none) (true, (s.opened true).containerID) none =
        fun _ => none := by
    funext p
    obtain ⟨d, name⟩ := p
    by_cases hname : (s.opened d).containerID = name
    · subst hname
      cases d with
      | false => rw [Function.update_of_ne (by simp), Function.update_self]
      | true => rw [Function.update_self]
    · have hne : ∀ d', (d, name) ≠ (d', (s.opened d').containerID) := by
        intro d' heq
        rw [Prod.mk.injEq] at heq
        rw [heq.1] at hname
        exact hname heq.2.symm
      rw [Function.update_of_ne (hne true), Function.update_of_ne (hne false)]
      exact if_neg hname
  have hrecords : R₂ = closedRecords s R := by
    funext p
    obtain ⟨d, name⟩ := p
    unfold closedRecords
    by_cases hname : (s.opened d).containerID = name
    · subst hname
      cases d with
      | false =>
        have hR₂' : R₂ (false, (s.opened false).containerID) =
            R₁ (false, (s.opened false).containerID) := by
          rcases hR₂ with ⟨_, rfl⟩ | ⟨_, rfl⟩
          · exact Function.update_of_ne (by simp) _ _
          · rfl
        rw [hR₂']
        rcases hR₁ with ⟨he, rfl⟩ | ⟨he, rfl⟩
        · rw [Function.update_self, if_pos ⟨rfl, he⟩]
        · rw [if_neg fun hc => he hc.2]
      | true =>
        rcases hR₂ with ⟨he, rfl⟩ | ⟨he, rfl⟩
        · rw [Function.update_self, if_pos ⟨rfl, he⟩]
        · rw [if_neg fun hc => he hc.2]
          rcases hR₁ with ⟨_, rfl⟩ | ⟨_, rfl⟩
          · exact Function.update_of_ne (by simp) _ _
          · rfl
    · have hne : ∀ d', (d, name) ≠ (d', (s.opened d').containerID) := by
        intro d' heq
        rw [Prod.mk.injEq] at heq
        rw [heq.1] at hname
        exact hname heq.2.symm
      rw [if_neg fun hc => hname hc.1]
      have hR₁' : R₁ (d, name) = R (d, name) := by
        rcases hR₁ with ⟨_, rfl⟩ | ⟨_, rfl⟩
        · exact Function.update_of_ne (hne false) _ _
        · rfl
      rw [← hR₁']
      rcases hR₂ with ⟨_, rfl⟩ | ⟨_, rfl⟩
      · exact Function.update_of_ne (hne true) _ _
      · rfl
  refine ⟨q', o', t', ?_, ?_⟩
  · unfold closeSession
    rw [hs₂, hs₁]
  · rw [← hopens, ← hrecords]
    exact hstores₂

theorem disconnect_inv (h : Inv env s R Lost)
    (hphase : s.phase = .uploading .ready ∨ s.phase = .uploading .tailed) :
    Inv env { closeSession s with phase := .draining } (closedRecords s R) Lost := by
  have hstart : Graph s.indexObj s.sfObj s.delta_index [] [] Lost ∧
      Stores env (Entry s.indexObj []) (uploadOpens s) s R ∧ Waiting s [] Lost ∧
      ∀ d, (s.opened d).body = [] ∨ (s.opened d).body = (s.opened d).buf := by
    rcases hphase with hphase | hphase
    · obtain ⟨hgraph, hstores, hstage⟩ := h.at hphase
      cases hstage with
      | ready wait body => exact ⟨hgraph, hstores, wait, fun d => Or.inl (body d)⟩
    · obtain ⟨hgraph, hstores, hstage⟩ := h.at hphase
      cases hstage with
      | tailed wait body => exact ⟨hgraph, hstores, wait, fun d => Or.inr (body d)⟩
  obtain ⟨hgraph, hstores, wait, hbody⟩ := hstart
  obtain ⟨q, o, t, hs', hstores'⟩ := closeSession_stores hstores wait.cold hbody
  rw [hs'] at hstores' ⊢
  exact ⟨hgraph, ⟨hstores'.holds, hstores'.indexed⟩,
    .draining ⟨wait.pending, wait.local_map, wait.cold⟩⟩

end Upload

section Writer
variable {env : EnclaveEnv} {s : Server} {R : Records} {Lost : Fp → Prop}

/-- A step of the writer thread changes the queue, the writer and the files, and nothing that the
upload thread works with. -/
theorem writer_inv (h : Inv env s R Lost) (hphase : Writing s) {q : List Container}
    {w : Option (Container × Nat)} {f : Table Path Bytes}
    (hholds : ∀ {opens}, Holds env s.writer s.inputMQ opens s.files s.con_times R →
      Holds env w q opens f s.con_times R) :
    Inv env
      { s with
        inputMQ := q
        writer := w
        files := f } R Lost := by
  rcases hphase with ⟨stage, hphase⟩ | hphase
  · obtain ⟨hgraph, hstores, hstage⟩ := h.at hphase
    have hstores' : Stores env (Entry s.indexObj (inflight (.uploading stage)).1)
        (opensIn (.uploading stage) s)
        { s with
          inputMQ := q
          writer := w
          files := f } R := ⟨hholds hstores.holds, hstores.indexed⟩
    have hstage' : StageOk
        { s with
          inputMQ := q
          writer := w
          files := f } Lost (.uploading stage) := by
      cases hstage with
      | ready wait body => exact .ready ⟨wait.pending, wait.local_map, wait.cold⟩ body
      | chunkLoop wait body batch =>
        exact .chunkLoop ⟨wait.pending, wait.local_map, wait.cold⟩ body batch
      | loaded wait body batch =>
        exact .loaded ⟨wait.pending, wait.local_map, wait.cold⟩ body batch
      | answered wait body batch todo =>
        exact .answered ⟨wait.pending, wait.local_map, wait.cold⟩ body batch todo
      | tailed wait body => exact .tailed ⟨wait.pending, wait.local_map, wait.cold⟩ body
    rw [← hphase] at hgraph hstores' hstage'
    exact ⟨hgraph, hstores', hstage'⟩
  · obtain ⟨hgraph, hstores, hstage⟩ := h.at hphase
    cases hstage with
    | draining wait =>
      have hstores' : Stores env (Entry s.indexObj (inflight .draining).1) (opensIn .draining s)
          { s with
            inputMQ := q
            writer := w
            files := f } R := ⟨hholds hstores.holds, hstores.indexed⟩
      have hstage' : StageOk
          { s with
            inputMQ := q
            writer := w
            files := f } Lost .draining :=
        .draining ⟨wait.pending, wait.local_map, wait.cold⟩
      rw [← hphase] at hgraph hstores' hstage'
      exact ⟨hgraph, hstores', hstage'⟩

theorem openFile_inv (h : Inv env s R Lost) (hphase : Writing s) {c : Container}
    {inputMQ : List Container} (hwriter : s.writer = none) (hqueue : s.inputMQ = c :: inputMQ) :
    Inv env
      { s with
        inputMQ := inputMQ
        writer := some (c, 0)
        files := s.files.insert c.path [] } R Lost := by
  refine writer_inv h hphase fun hholds => ?_
  rw [hwriter, hqueue] at hholds
  exact hholds.openFile

theorem writeFile_inv (h : Inv env s R Lost) (hphase : Writing s) {c : Container} {written : Nat}
    (n : Nat) (hwriter : s.writer = some (c, written)) :
    Inv env
      { s with
        writer := some (c, min (written + n) c.body.length)
        files := s.files.insert c.path (c.body.take (written + n)) } R Lost := by
  refine writer_inv h hphase fun hholds => ?_
  rw [hwriter] at hholds
  have htake : c.body.take (written + n) = c.body.take (min (written + n) c.body.length) := by
    rw [List.take_eq_take_min]
  rw [htake]
  exact hholds.writeFile (Nat.min_le_right _ _)

theorem closeFile_inv (h : Inv env s R Lost) (hphase : Writing s) {c : Container}
    (hwriter : s.writer = some (c, c.body.length)) :
    Inv env { s with writer := none } R Lost := by
  refine writer_inv h hphase fun hholds => ?_
  rw [hwriter] at hholds
  exact hholds.closeFile

theorem join_inv (h : Inv env s R Lost) (hphase : s.phase = .draining) (hqueue : s.inputMQ = [])
    (hwriter : s.writer = none) : Inv env { s with phase := .idle } R Lost := by
  obtain ⟨hgraph, hstores, hstage⟩ := h.at hphase
  cases hstage with
  | draining wait =>
    exact ⟨hgraph, ⟨hstores.holds, hstores.indexed⟩,
      .idle ⟨wait.pending, wait.local_map, wait.cold⟩ hqueue hwriter⟩

end Writer

end ShieldReduce.Prototype
