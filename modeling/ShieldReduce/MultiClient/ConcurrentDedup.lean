import ShieldReduce.MultiClient.Uploads
import ShieldReduce.Prototype.ExactDedup

/-!
# Deduplication under two clients

A batch asks the index in one critical section and writes its entries in another one. What it found
to be new is its own only as long as the other client has not asked in between.
-/

namespace ShieldReduce.MultiClient
open Lib Store Prototype EDelta
open Prototype.EcallFreqIndex hiding OfflinedeltaTure storeQueries

/-- Of no fingerprint two records have been appended, and of none two entries written. -/
def ExactlyOnce (s : Uploads) : Prop := s.appended.Nodup ∧ s.registered.Nodup

/-- How many out-enclave queries of the batch have been answered and not been registered. -/
def UploadClient.inFlightNum (client : UploadClient) : Nat :=
  match client.stage with
  | .idle => 0
  | .sketched => 0
  | .checked => 0
  | _ => client.outQueryNum

/-- What the batch has found to be new and has not registered yet. -/
def UploadClient.inFlight (client : UploadClient) : List Fp :=
  Queries.newFps client.queries client.inFlightNum

/-- The query of a batch finds nothing to be new that is in flight for the other client. -/
def QueriesApart (s : Uploads) : UploadAction → Prop
  | .queryOutIndex c => ∀ fp ∈ (List.range (s.client c).outQueryNum).map fun k =>
      ((s.client c).queries.outQueryBase k).chunkHash,
    s.server.indexObj.lookup fp = none → fp ∉ (s.client (!c)).inFlight
  | _ => True

instance (s : Uploads) (a : UploadAction) : Decidable (QueriesApart s a) :=
  match a with
  | .queryOutIndex _ => inferInstanceAs (Decidable (∀ fp ∈ (List.range _).map _, _))
  | .updateSketch _ _ => isTrue trivial
  | .checkTopK _ => isTrue trivial
  | .queryOutBasechunk _ => isTrue trivial
  | .processChunk _ _ _ => isTrue trivial
  | .updateDeltaIndex _ => isTrue trivial
  | .endLoop _ => isTrue trivial
  | .localInsert _ => isTrue trivial
  | .updateHeap _ => isTrue trivial
  | .updateOutIndex _ => isTrue trivial

section NewFps
variable {q q' : Queries} {n : Nat} {fp : Fp}

theorem mem_newFps : fp ∈ Queries.newFps q n ↔
    ∃ k < n, (q.outQueryBase k).dedupFlag = .UNIQUE ∧ (q.outQueryBase k).chunkHash = fp := by
  unfold Queries.newFps
  simp only [List.mem_map, List.mem_filter, List.mem_range, decide_eq_true_eq, and_assoc]

theorem newFps_mono {m : Nat} (h : m ≤ n) (hfp : fp ∈ Queries.newFps q m) :
    fp ∈ Queries.newFps q n := by
  obtain ⟨k, hk, hu⟩ := mem_newFps.mp hfp
  exact mem_newFps.mpr ⟨k, Nat.lt_of_lt_of_le hk h, hu⟩

theorem newFps_congr (h : SameOuts q.outQueryBase q'.outQueryBase) (n : Nat) :
    Queries.newFps q' n = Queries.newFps q n := by
  have hflag : ∀ k, (q'.outQueryBase k).dedupFlag = (q.outQueryBase k).dedupFlag := fun k => (h k).1
  have hhash : ∀ k, (q'.outQueryBase k).chunkHash = (q.outQueryBase k).chunkHash := fun k => (h k).2
  unfold Queries.newFps
  simp only [hflag, hhash]

/-- The first `n` queries ask for different chunks. -/
def DistinctQueries (q : Queries) (n : Nat) : Prop :=
  ∀ j < n, ∀ k < n, (q.outQueryBase j).chunkHash = (q.outQueryBase k).chunkHash → j = k

theorem DistinctQueries.congr (h : DistinctQueries q n) (hsame : SameOuts q.outQueryBase q'.outQueryBase) :
    DistinctQueries q' n := by
  intro j hj k hk heq
  rw [(hsame j).2, (hsame k).2] at heq
  exact h j hj k hk heq

theorem DistinctQueries.nodup (h : DistinctQueries q n) : (Queries.newFps q n).Nodup := by
  unfold Queries.newFps
  apply List.Nodup.map_on
  · intro j hj k hk heq
    rw [List.mem_filter, List.mem_range] at hj hk
    exact h j hj.1 k hk.1 heq
  · exact List.nodup_range.filter _

end NewFps

section Batch

/-- The cursors of the chunk loop. -/
def BatchStage.cursors : BatchStage → Option (Nat × Nat)
  | .chunkLoop i k => some (i, k)
  | .paired i k _ => some (i, k)
  | _ => none

/-- Its queries are those of a batch that has been checked. -/
def BatchStage.asks : BatchStage → Bool
  | .idle => false
  | .sketched => false
  | _ => true

/-- The batch of a client between two steps. -/
structure BatchOk (client : UploadClient) : Prop where
  distinct : client.stage.asks = true → DistinctQueries client.queries client.outQueryNum
  rank : client.stage.asks = true →
    client.outQueryNum = uniqueRank client.queries.inQueryBase client.chunks.length
  cursors : ∀ i k, client.stage.cursors = some (i, k) →
    i ≤ client.chunks.length ∧ k = uniqueRank client.queries.inQueryBase i
  answered : client.stage = .answered → client.queries.queryNum = client.outQueryNum

/-- How many of the queries the chunk loop has passed. -/
def UploadClient.passedNum (client : UploadClient) : Nat :=
  match client.stage with
  | .chunkLoop _ k => k
  | .paired _ k _ => k
  | .deferring _ => client.outQueryNum
  | .answered => client.outQueryNum
  | _ => 0

/-- The new chunks that have been stored. -/
def UploadClient.passed (client : UploadClient) : List Fp :=
  Queries.newFps client.queries client.passedNum

/-- The batch of a client is the same after a step. -/
structure SameBatch (client client' : UploadClient) : Prop where
  chunks : client'.chunks = client.chunks
  num : client'.outQueryNum = client.outQueryNum
  ins : SameIns client.queries.inQueryBase client'.queries.inQueryBase
  outs : SameOuts client.queries.outQueryBase client'.queries.outQueryBase

variable {client client' client'' : UploadClient}

theorem SameBatch.refl (client : UploadClient) : SameBatch client client :=
  ⟨rfl, rfl, SameIns.refl _, SameOuts.refl _⟩

theorem sameBatch_setStage (client : UploadClient) (stage : BatchStage) :
    SameBatch client (client.setStage stage) := ⟨rfl, rfl, SameIns.refl _, SameOuts.refl _⟩

theorem SameBatch.trans (h : SameBatch client client') (h' : SameBatch client' client'') :
    SameBatch client client'' :=
  ⟨h'.chunks.trans h.chunks, h'.num.trans h.num, h.ins.trans h'.ins, h.outs.trans h'.outs⟩

/-- A step inside a batch that has been checked. -/
theorem BatchOk.inner (h : BatchOk client) (hsame : SameBatch client client')
    (hasks : client.stage.asks = true)
    (hcursors : ∀ i k, client'.stage.cursors = some (i, k) →
      i ≤ client.chunks.length ∧ k = uniqueRank client.queries.inQueryBase i)
    (hanswered : client'.stage = .answered → client'.queries.queryNum = client'.outQueryNum) :
    BatchOk client' := by
  refine ⟨fun _ => ?_, fun _ => ?_, ?_, hanswered⟩
  · rw [hsame.num]
    exact (h.distinct hasks).congr hsame.outs
  · rw [hsame.num, hsame.chunks, hsame.ins.rank]
    exact h.rank hasks
  · intro i k hik
    rw [hsame.chunks, hsame.ins.rank]
    exact hcursors i k hik

theorem BatchOk.passedNum_le (h : BatchOk client) : client.passedNum ≤ client.inFlightNum := by
  unfold UploadClient.passedNum UploadClient.inFlightNum
  have hcursor : ∀ i k, client.stage.asks = true → client.stage.cursors = some (i, k) →
      k ≤ client.outQueryNum := by
    intro i k hasks hik
    obtain ⟨hi, hk⟩ := h.cursors i k hik
    rw [hk, h.rank hasks]
    exact uniqueRank_mono hi
  cases hstage : client.stage with
  | chunkLoop i k => exact hcursor i k (by rw [hstage]; rfl) (by rw [hstage]; rfl)
  | paired i k pair => exact hcursor i k (by rw [hstage]; rfl) (by rw [hstage]; rfl)
  | _ => simp

theorem SameBatch.newFps (h : SameBatch client client') (n : Nat) :
    Queries.newFps client'.queries n = Queries.newFps client.queries n := newFps_congr h.outs n

end Batch

section Chunks
variable {env : EnclaveEnv}

theorem saveChunk_index (d : Bool) (chunkData : Bytes) (chunkAddr : RecipeEntry)
    (chunksf : SuperFeature) (chunkfp : Fp) (name : ContainerName) (s : Server) :
    (saveChunk d chunkData chunkAddr chunksf chunkfp name s).1.indexObj = s.indexObj := by
  unfold saveChunk
  dsimp only
  split
  · rfl
  · rfl

theorem ProcessSheUniqueChunk_index (env : EnclaveEnv) (chunkAddr : RecipeEntry)
    (chunkBuffer : Bytes) (chunksf : SuperFeature) (chunkfp : Fp) (name : ContainerName)
    (s : Server) :
    (ProcessSheUniqueChunk env chunkAddr chunkBuffer chunksf chunkfp name s).1.indexObj =
      s.indexObj := by
  unfold ProcessSheUniqueChunk
  dsimp only
  split
  · exact saveChunk_index _ _ _ _ _ _ _
  · exact saveChunk_index _ _ _ _ _ _ _

theorem storeChunk_index (env : EnclaveEnv) (name : ContainerName) (x : QueryEntry) (s : Server) :
    (storeChunk env name x s).2.2.indexObj = s.indexObj := by
  unfold storeChunk
  dsimp only
  generalize (if x.deltaFlag = DELTA then ProcessDeltachunk env x else (x, [])) = p
  split
  · exact ProcessSheUniqueChunk_index env _ _ _ _ name s
  · exact ProcessSheUniqueChunk_index env _ _ _ _ name s

theorem OfflinedeltaTure_same (i k : Nat) (image : Option Bytes) (client : UploadClient) :
    SameBatch client (OfflinedeltaTure i k image client) ∧
      (OfflinedeltaTure i k image client).Local_Flag = client.Local_Flag := by
  unfold OfflinedeltaTure
  dsimp only
  split
  · exact ⟨⟨rfl, rfl, SameIns.refl _, sameOuts_update rfl rfl⟩, rfl⟩
  · split
    · split
      · exact ⟨⟨rfl, rfl, SameIns.refl _, sameOuts_update rfl rfl⟩, rfl⟩
      · cases image with
        | none => exact ⟨⟨rfl, rfl, SameIns.refl _, sameOuts_update rfl rfl⟩, rfl⟩
        | some containerbuffer =>
          exact ⟨⟨rfl, rfl, sameIns_update rfl rfl rfl, sameOuts_update rfl rfl⟩, rfl⟩
    · exact ⟨SameBatch.refl client, rfl⟩

/-- A new chunk changes nothing of the batch and nothing in the index. -/
theorem storeUnique_same (i k : Nat) (image : Option Bytes) (name : ContainerName)
    (client : UploadClient) (s : Server) :
    SameBatch client (storeUnique env i k image name client s).1 ∧
      (storeUnique env i k image name client s).2.2.indexObj = s.indexObj := by
  unfold storeUnique
  dsimp only
  generalize hclient₁ : OfflinedeltaTure i k image _ = client₁
  have hsame : SameBatch client client₁ := by
    rw [← hclient₁]
    apply SameBatch.trans _ (OfflinedeltaTure_same i k image _).1
    exact ⟨rfl, rfl, sameIns_update rfl rfl rfl, SameOuts.refl _⟩
  refine ⟨hsame.trans ⟨rfl, rfl, sameIns_update rfl rfl rfl, sameOuts_update rfl rfl⟩, ?_⟩
  exact storeChunk_index env name _ _

end Chunks

section Sound
variable {env : EnclaveEnv} {topThreshold : Nat} {s s' : Uploads} {c : Bool} {client' : UploadClient}

/-- What is in flight is not in the index, and not in flight for the other client. -/
structure Sound (s : Uploads) : Prop where
  batch : ∀ c, BatchOk (s.client c)
  new : ∀ c, ∀ fp ∈ (s.client c).inFlight, s.server.indexObj.lookup fp = none
  apart : ∀ c, ∀ fp ∈ (s.client c).inFlight, fp ∉ (s.client (!c)).inFlight
  known : ∀ fp ∈ s.registered, s.server.indexObj.lookup fp ≠ none
  once : ExactlyOnce s
  stored : ∀ fp ∈ s.appended,
    s.server.indexObj.lookup fp ≠ none ∨ ∃ c, fp ∈ (s.client c).passed

theorem setClient_self (s : Uploads) (c : Bool) (client' : UploadClient) :
    (s.setClient c client').client c = client' := by
  unfold Uploads.setClient
  dsimp only
  rw [Function.update_self]

theorem setClient_other (s : Uploads) (c : Bool) (client' : UploadClient) :
    (s.setClient c client').client (!c) = s.client (!c) := by
  unfold Uploads.setClient
  dsimp only
  rw [Function.update_of_ne (Bool.not_ne_self c)]

/-- Nothing but the filter and what the index does not hold changes. -/
theorem Sound.server (h : Sound s) {server : Server} (hindex : server.indexObj = s.server.indexObj)
    (filter : Filter) : Sound { s with server := server, filter := filter } := by
  refine ⟨h.batch, ?_, h.apart, ?_, h.once, ?_⟩
  · intro c fp hfp
    rw [hindex]
    exact h.new c fp hfp
  · intro fp hfp
    rw [hindex]
    exact h.known fp hfp
  · intro fp hfp
    rw [hindex]
    exact h.stored fp hfp

/-- A client goes on without a query and without an entry. -/
theorem Sound.setClient (h : Sound s) (hbatch : BatchOk client')
    (hin : ∀ fp ∈ client'.inFlight, fp ∈ (s.client c).inFlight)
    (hpassed : ∀ fp ∈ (s.client c).passed, fp ∈ client'.passed) : Sound (s.setClient c client') := by
  have hflight : ∀ d, ∀ fp ∈ ((s.setClient c client').client d).inFlight,
      fp ∈ (s.client d).inFlight := by
    intro d fp hfp
    rcases Bool.eq_or_eq_not d c with rfl | rfl
    · rw [setClient_self] at hfp
      exact hin fp hfp
    · rw [setClient_other] at hfp
      exact hfp
  refine ⟨?_, ?_, ?_, h.known, h.once, ?_⟩
  · intro d
    rcases Bool.eq_or_eq_not d c with rfl | rfl
    · rw [setClient_self]
      exact hbatch
    · rw [setClient_other]
      exact h.batch _
  · intro d fp hfp
    exact h.new d fp (hflight d fp hfp)
  · intro d fp hfp hother
    exact h.apart d fp (hflight d fp hfp) (hflight _ fp hother)
  · intro fp hfp
    rcases h.stored fp hfp with hknown | ⟨d, hd⟩
    · exact Or.inl hknown
    · refine Or.inr ⟨d, ?_⟩
      rcases Bool.eq_or_eq_not d c with rfl | rfl
      · rw [setClient_self]
        exact hpassed fp hd
      · rw [setClient_other]
        exact hd

/-- A step inside a batch that has been queried. -/
theorem Sound.inner (h : Sound s) (hsame : SameBatch (s.client c) client')
    (hnum : (s.client c).inFlightNum = (s.client c).outQueryNum)
    (hnum' : client'.inFlightNum = client'.outQueryNum) (hasks : (s.client c).stage.asks = true)
    (hpassed : (s.client c).passedNum ≤ client'.passedNum)
    (hcursors : ∀ i k, client'.stage.cursors = some (i, k) →
      i ≤ (s.client c).chunks.length ∧ k = uniqueRank (s.client c).queries.inQueryBase i)
    (hanswered : client'.stage = .answered → client'.queries.queryNum = client'.outQueryNum) :
    Sound (s.setClient c client') := by
  apply h.setClient ((h.batch c).inner hsame hasks hcursors hanswered)
  · intro fp hfp
    unfold UploadClient.inFlight at hfp ⊢
    rw [hnum', hsame.num, hsame.newFps] at hfp
    rw [hnum]
    exact hfp
  · intro fp hfp
    unfold UploadClient.passed at hfp ⊢
    rw [hsame.newFps]
    exact newFps_mono hpassed hfp

/-- A batch that is not yet queried has nothing in flight. -/
theorem Sound.unasked (h : Sound s) (hbatch : BatchOk client')
    (hnum : (s.client c).passedNum = 0) (hnum' : client'.inFlightNum = 0) :
    Sound (s.setClient c client') := by
  apply h.setClient hbatch
  · intro fp hfp
    unfold UploadClient.inFlight at hfp
    rw [hnum'] at hfp
    exact absurd hfp List.not_mem_nil
  · intro fp hfp
    unfold UploadClient.passed at hfp
    rw [hnum] at hfp
    exact absurd hfp List.not_mem_nil

/-- The batch has been checked against itself: its queries are distinct. -/
theorem checked_distinct {heap : EntryHeap} {ins : Nat → InQueryEntry} {n : Nat} {st : Check}
    (h : Checked env heap ins n st) {q : Queries} (houts : q.outQueryBase = st.outs) :
    DistinctQueries q st.outQueryNum := by
  intro j hj k hk heq
  rw [h.num] at hj hk
  obtain ⟨a, ha, hua, rfl⟩ := exists_of_lt_uniqueRank hj
  obtain ⟨b, hb, hub, rfl⟩ := exists_of_lt_uniqueRank hk
  rw [houts, h.asked a ha hua, h.asked b hb hub] at heq
  have hhash := env.IndexAESCMCEnc_injective heq
  have hfirst := h.first a ha (Or.inl hua)
  rw [hhash, h.first b hb (Or.inl hub), Option.some.injEq] at hfirst
  rw [hfirst]

theorem sfLoop_same (env : EnclaveEnv) (chunks : List Bytes) (ins : Nat → InQueryEntry)
    (outs : Nat → OutQueryEntry) (n : Nat) :
    SameIns ins (sfLoop env chunks n ((ins, outs), 0)).1.1 ∧
      SameOuts outs (sfLoop env chunks n ((ins, outs), 0)).1.2 := by
  have hbody : ∀ (i k : Nat) (st : (Nat → InQueryEntry) × (Nat → OutQueryEntry)),
      SameIns st.1 (sfStep env chunks i k st).1 ∧ SameOuts st.2 (sfStep env chunks i k st).2 := by
    intro i k st
    unfold sfStep
    split
    · exact ⟨sameIns_update rfl rfl rfl, sameOuts_update rfl rfl⟩
    · exact ⟨SameIns.refl _, SameOuts.refl _⟩
  have hspec := @traversal_spec _ Prod.fst (sfStep env chunks)
    (fun _ st => SameIns ins st.1 ∧ SameOuts outs st.2) (ins, outs) n
    ⟨SameIns.refl ins, SameOuts.refl outs⟩ (fun i k st j => ((hbody i k st).1 j).1)
    (fun _ _ _ h _ => h)
    (fun i st _ h _ => ⟨h.1.trans (hbody i _ st).1, h.2.trans (hbody i _ st).2⟩)
  exact hspec.2.1

/-- After the query the new chunks are those that the index does not have. -/
theorem queryIndex_spec (env : EnclaveEnv) (server : Server) (client : UploadClient) :
    SameIns client.queries.inQueryBase (queryIndex env server client).inQueryBase ∧
      ∀ k < client.outQueryNum,
        ((queryIndex env server client).outQueryBase k).chunkHash =
            (client.queries.outQueryBase k).chunkHash ∧
          (((queryIndex env server client).outQueryBase k).dedupFlag = .UNIQUE ↔
            server.indexObj.lookup (client.queries.outQueryBase k).chunkHash = none) := by
  unfold queryIndex
  dsimp only
  by_cases hnum : client.outQueryNum ≠ 0
  · rw [if_pos hnum]
    obtain ⟨hins, houts⟩ := sfLoop_same env client.chunks client.queries.inQueryBase
      (Ocall_QueryOutIndex server { client.queries with
        queryNum := client.outQueryNum }).outQueryBase client.chunks.length
    refine ⟨hins, fun k hk => ?_⟩
    obtain ⟨hhash, hflag⟩ := @Ocall_QueryOutIndex_spec server { client.queries with
      queryNum := client.outQueryNum } k hk
    have hsame := congrArg (fun flag => flag = DedupFlag.UNIQUE) (houts k).1
    exact ⟨(houts k).2.trans hhash, (Iff.of_eq hsame).trans hflag⟩
  · rw [if_neg hnum]
    refine ⟨(sfLoop_same env _ _ _ _).1, fun k hk => ?_⟩
    omega

/-- A batch asks the index, apart from the other client. -/
theorem Sound.query (h : Sound s) (hstage : (s.client c).stage = .checked)
    (hapart : QueriesApart s (.queryOutIndex c)) : Sound (s.setClient c { s.client c with
      stage := .queried
      queries := queryIndex env s.server (s.client c) }) := by
  obtain ⟨hins, hanswer⟩ := queryIndex_spec env s.server (s.client c)
  have hb := h.batch c
  have hasks : (s.client c).stage.asks = true := by rw [hstage]; rfl
  generalize hclient : { s.client c with
    stage := BatchStage.queried
    queries := queryIndex env s.server (s.client c) } = client'
  have hbatch : BatchOk client' := by
    rw [← hclient]
    refine ⟨fun _ j hj k hk heq => ?_, fun _ => ?_, ?_, ?_⟩
    · rw [(hanswer j hj).1, (hanswer k hk).1] at heq
      exact hb.distinct hasks j hj k hk heq
    · exact (hb.rank hasks).trans (hins.rank _).symm
    · simp [BatchStage.cursors]
    · simp
  -- what is in flight now
  have hin : ∀ fp ∈ client'.inFlight, s.server.indexObj.lookup fp = none ∧
      fp ∉ (s.client (!c)).inFlight := by
    intro fp hfp
    rw [← hclient] at hfp
    obtain ⟨k, hk, hu, rfl⟩ := mem_newFps.mp hfp
    obtain ⟨hhash, hflag⟩ := hanswer k hk
    rw [hhash]
    have hnone := hflag.mp hu
    refine ⟨hnone, hapart _ ?_ hnone⟩
    exact List.mem_map.mpr ⟨k, List.mem_range.mpr hk, rfl⟩
  have hpassed : (s.client c).passed = [] := by
    unfold UploadClient.passed UploadClient.passedNum
    rw [hstage]
    rfl
  refine ⟨?_, ?_, ?_, h.known, h.once, ?_⟩
  · intro d
    rcases Bool.eq_or_eq_not d c with rfl | rfl
    · rw [setClient_self]
      exact hbatch
    · rw [setClient_other]
      exact h.batch _
  · intro d fp hfp
    rcases Bool.eq_or_eq_not d c with rfl | rfl
    · rw [setClient_self] at hfp
      exact (hin fp hfp).1
    · rw [setClient_other] at hfp
      exact h.new _ fp hfp
  · intro d fp hfp hother
    rcases Bool.eq_or_eq_not d c with rfl | rfl
    · rw [setClient_self] at hfp
      rw [setClient_other] at hother
      exact (hin fp hfp).2 hother
    · rw [setClient_other] at hfp
      rw [Bool.not_not, setClient_self] at hother
      exact (hin fp hother).2 hfp
  · intro fp hfp
    rcases h.stored fp hfp with hknown | ⟨d, hd⟩
    · exact Or.inl hknown
    · refine Or.inr ⟨d, ?_⟩
      rcases Bool.eq_or_eq_not d c with rfl | rfl
      · rw [hpassed] at hd
        exact absurd hd List.not_mem_nil
      · rw [setClient_other]
        exact hd

/-- A new chunk is stored for the first time. -/
theorem Sound.store (h : Sound s) {i k : Nat} (hstage : (s.client c).stage = .chunkLoop i k)
    (hi : i < (s.client c).chunks.length)
    (hunique : ((s.client c).queries.inQueryBase i).dedupFlag = .UNIQUE)
    (hnew : ((s.client c).queries.outQueryBase k).dedupFlag = .UNIQUE)
    (hsame : SameBatch (s.client c) client') (hnext : client'.stage.cursors = some (i + 1, k + 1))
    {server : Server} (hindex : server.indexObj = s.server.indexObj) :
    Sound ({ s with
      server := server
      appended := s.appended ++ [((s.client c).queries.outQueryBase k).chunkHash] }.setClient c
        client') := by
  obtain ⟨fp, hfp⟩ : ∃ fp, ((s.client c).queries.outQueryBase k).chunkHash = fp := ⟨_, rfl⟩
  have hb := h.batch c
  have hasks : (s.client c).stage.asks = true := by rw [hstage]; rfl
  have hnum : (s.client c).inFlightNum = (s.client c).outQueryNum := by
    unfold UploadClient.inFlightNum
    rw [hstage]
  have hpassedNum : (s.client c).passedNum = k := by
    unfold UploadClient.passedNum
    rw [hstage]
  obtain ⟨hnum', hpassedNum', hnotanswered⟩ : client'.inFlightNum = client'.outQueryNum ∧
      client'.passedNum = k + 1 ∧ client'.stage ≠ .answered := by
    unfold UploadClient.inFlightNum UploadClient.passedNum
    cases hstage' : client'.stage with
    | chunkLoop i' k' => rw [hstage'] at hnext; cases hnext; simp
    | paired i' k' pair => rw [hstage'] at hnext; cases hnext; simp
    | _ => rw [hstage'] at hnext; cases hnext
  obtain ⟨_, hk⟩ := hb.cursors i k (by rw [hstage]; rfl)
  have hlt : k < (s.client c).outQueryNum := by
    rw [hk, hb.rank hasks]
    exact uniqueRank_lt hi hunique
  have hrank : k + 1 = uniqueRank (s.client c).queries.inQueryBase (i + 1) := by
    rw [uniqueRank, if_pos hunique, hk]
  have hinner : Sound (s.setClient c client') := by
    apply h.inner hsame hnum hnum' hasks
    · rw [hpassedNum, hpassedNum']
      exact Nat.le_succ k
    · intro i' k' hik
      rw [hnext] at hik
      cases hik
      exact ⟨hi, hrank⟩
    · intro hanswered
      exact absurd hanswered hnotanswered
  -- the chunk is in flight for this client, and it has not been stored
  have hflight : fp ∈ (s.client c).inFlight := by
    unfold UploadClient.inFlight
    rw [hnum]
    exact mem_newFps.mpr ⟨k, hlt, hnew, hfp⟩
  have hfresh : fp ∉ s.appended := by
    intro hmem
    rcases h.stored fp hmem with hknown | ⟨d, hd⟩
    · exact hknown (h.new c fp hflight)
    · rcases Bool.eq_or_eq_not d c with rfl | rfl
      · unfold UploadClient.passed at hd
        rw [hpassedNum] at hd
        obtain ⟨j, hj, _, heq⟩ := mem_newFps.mp hd
        have := hb.distinct hasks j (hj.trans hlt) k hlt (heq.trans hfp.symm)
        omega
      · apply h.apart c fp hflight
        unfold UploadClient.inFlight
        exact newFps_mono (h.batch _).passedNum_le hd
  have hpassed : fp ∈ client'.passed := by
    unfold UploadClient.passed
    rw [hpassedNum', hsame.newFps]
    exact mem_newFps.mpr ⟨k, Nat.lt_succ_self k, hnew, hfp⟩
  rw [hfp]
  refine ⟨hinner.batch, ?_, hinner.apart, ?_, ⟨?_, h.once.2⟩, ?_⟩
  · intro d fp' hfp'
    change server.indexObj.lookup fp' = none
    rw [hindex]
    exact hinner.new d fp' hfp'
  · intro fp' hfp'
    change server.indexObj.lookup fp' ≠ none
    rw [hindex]
    exact hinner.known fp' hfp'
  · change (s.appended ++ [fp]).Nodup
    rw [List.nodup_append]
    refine ⟨h.once.1, List.nodup_singleton fp, ?_⟩
    intro a ha b hb heq
    rw [List.mem_singleton.mp hb] at heq
    rw [heq] at ha
    exact hfresh ha
  · intro fp' hfp'
    change server.indexObj.lookup fp' ≠ none ∨ _
    rw [hindex]
    rcases List.mem_append.mp hfp' with hold | hlast
    · exact hinner.stored fp' hold
    · rw [List.mem_singleton.mp hlast]
      refine Or.inr ⟨c, ?_⟩
      have hclient := setClient_self s c client'
      exact hclient.symm ▸ hpassed

/-- The entries of a batch are written for the first time. -/
theorem Sound.register (h : Sound s) (hstage : (s.client c).stage = .answered) :
    Sound ((updateIndex c s).setClient c ((s.client c).setStage .idle)) := by
  have hb := h.batch c
  have hquery := hb.answered hstage
  have hasks : (s.client c).stage.asks = true := by rw [hstage]; rfl
  have hflight : (s.client c).inFlight =
      Queries.newFps (s.client c).queries (s.client c).queries.queryNum := by
    unfold UploadClient.inFlight UploadClient.inFlightNum
    rw [hstage, hquery]
  have hpassed : (s.client c).passed = (s.client c).inFlight := by
    unfold UploadClient.passed UploadClient.passedNum UploadClient.inFlight UploadClient.inFlightNum
    rw [hstage]
  obtain ⟨client', hclient⟩ : ∃ client', (s.client c).setStage .idle = client' := ⟨_, rfl⟩
  have hbatch : BatchOk client' := by
    rw [← hclient]
    exact ⟨by simp [UploadClient.setStage, BatchStage.asks],
      by simp [UploadClient.setStage, BatchStage.asks],
      by simp [UploadClient.setStage, BatchStage.cursors], by simp [UploadClient.setStage]⟩
  have hidle : client'.inFlight = [] ∧ client'.passed = [] := by
    rw [← hclient]
    exact ⟨rfl, rfl⟩
  rw [hclient]
  obtain ⟨server, hserver⟩ : ∃ server, (updateIndex c s).server = server := ⟨_, rfl⟩
  obtain ⟨heq, hindex⟩ : updateIndex c s = { s with
        server := server
        registered := s.registered ++ (s.client c).inFlight } ∧
      ∀ fp, server.indexObj.lookup fp ≠ none ↔
        s.server.indexObj.lookup fp ≠ none ∨ fp ∈ (s.client c).inFlight := by
    rw [← hserver, hflight]
    unfold updateIndex
    dsimp only
    by_cases hnum : (s.client c).queries.queryNum ≠ 0
    · rw [if_pos hnum]
      refine ⟨rfl, fun fp => ?_⟩
      rw [mem_newFps]
      exact Ocall_UpdateOutIndex_index _ _ fp
    · rw [if_neg hnum, not_not.mp hnum]
      have hnil : Queries.newFps (s.client c).queries 0 = [] := rfl
      rw [hnil, List.append_nil]
      exact ⟨rfl, fun fp => by simp⟩
  rw [heq]
  have hnodup : (s.client c).inFlight.Nodup := by
    rw [hflight, hquery]
    exact (hb.distinct hasks).nodup
  refine ⟨?_, ?_, ?_, ?_, ⟨h.once.1, ?_⟩, ?_⟩
  · intro d
    rcases Bool.eq_or_eq_not d c with rfl | rfl
    · rw [setClient_self]
      exact hbatch
    · rw [setClient_other]
      exact h.batch _
  · intro d fp hfp
    rcases Bool.eq_or_eq_not d c with rfl | rfl
    · rw [setClient_self, hidle.1] at hfp
      exact absurd hfp List.not_mem_nil
    · rw [setClient_other] at hfp
      by_contra hknown
      rcases (hindex fp).mp hknown with hold | hmine
      · exact hold (h.new _ fp hfp)
      · exact h.apart c fp hmine hfp
  · intro d fp hfp hother
    rcases Bool.eq_or_eq_not d c with rfl | rfl
    · rw [setClient_self, hidle.1] at hfp
      exact absurd hfp List.not_mem_nil
    · rw [Bool.not_not, setClient_self, hidle.1] at hother
      exact absurd hother List.not_mem_nil
  · intro fp hfp
    apply (hindex fp).mpr
    rcases List.mem_append.mp hfp with hold | hmine
    · exact Or.inl (h.known fp hold)
    · exact Or.inr hmine
  · change (s.registered ++ (s.client c).inFlight).Nodup
    rw [List.nodup_append]
    refine ⟨h.once.2, hnodup, ?_⟩
    intro a ha b hb heq
    rw [heq] at ha
    exact h.known b ha (h.new c b hb)
  · intro fp hfp
    change server.indexObj.lookup fp ≠ none ∨ _
    rw [hindex]
    rcases h.stored fp hfp with hknown | ⟨d, hd⟩
    · exact Or.inl (Or.inl hknown)
    · rcases Bool.eq_or_eq_not d c with rfl | rfl
      · rw [hpassed] at hd
        exact Or.inl (Or.inr hd)
      · refine Or.inr ⟨!c, ?_⟩
        rw [setClient_other]
        exact hd

/-- A pass of the chunk loop. -/
theorem Sound.chunk (h : Sound s) {i k : Nat} (hstage : (s.client c).stage = .chunkLoop i k)
    (hi : i < (s.client c).chunks.length) (image : Option Bytes) (name : ContainerName) :
    Sound (processChunk env c i k image name s) := by
  have hb := h.batch c
  have hasks : (s.client c).stage.asks = true := by rw [hstage]; rfl
  obtain ⟨_, hk⟩ := hb.cursors i k (by rw [hstage]; rfl)
  have hnum : (s.client c).inFlightNum = (s.client c).outQueryNum := by
    unfold UploadClient.inFlightNum
    rw [hstage]
  have hpassedNum : (s.client c).passedNum = k := by
    unfold UploadClient.passedNum
    rw [hstage]
  unfold processChunk
  dsimp only
  by_cases hunique : ((s.client c).queries.inQueryBase i).dedupFlag = .UNIQUE
  · rw [if_pos hunique]
    have hrank : k + 1 = uniqueRank (s.client c).queries.inQueryBase (i + 1) := by
      rw [uniqueRank, if_pos hunique, hk]
    cases hnew : ((s.client c).queries.outQueryBase k).dedupFlag with
    | DUPLICATE =>
      apply h.inner _ hnum rfl hasks
      · rw [hpassedNum]
        exact Nat.le_succ k
      · intro i' k' hik
        cases hik
        exact ⟨hi, hrank⟩
      · simp [UploadClient.setStage]
      · exact ⟨rfl, rfl, sameIns_update rfl rfl rfl, SameOuts.refl _⟩
    | UNIQUE =>
      dsimp only
      obtain ⟨hsame, hindex⟩ := @storeUnique_same env i k image name (s.client c)
        s.server
      apply h.store hstage hi hunique hnew _ _ hindex
      · exact ⟨hsame.chunks, hsame.num, hsame.ins, hsame.outs⟩
      · cases (storeUnique env i k image name (s.client c) s.server).2.1 with
        | none => rfl
        | some pair => rfl
  · rw [if_neg hunique]
    apply h.inner (sameBatch_setStage _ _) hnum rfl hasks
    · rw [hpassedNum]
      exact Nat.le_refl k
    · intro i' k' hik
      cases hik
      refine ⟨hi, ?_⟩
      rw [uniqueRank, if_neg hunique, hk, Nat.add_zero]
    · simp [UploadClient.setStage]

theorem Sound.step (h : Sound s) {a : UploadAction} (hapart : QueriesApart s a)
    (hs : uploadStep env topThreshold s a = some s') : Sound s' := by
  cases a with
  | updateSketch c chunks =>
    unfold uploadStep at hs
    dsimp only at hs
    by_cases hstage : (s.client c).stage = .idle
    · rw [if_pos hstage, Option.some.injEq] at hs
      rw [← hs]
      apply (h.server rfl _).unasked
      · exact ⟨by simp [BatchStage.asks], by simp [BatchStage.asks],
          by simp [BatchStage.cursors], by simp⟩
      · unfold UploadClient.passedNum
        rw [hstage]
      · rfl
    · rw [if_neg hstage] at hs
      cases hs
  | checkTopK c =>
    unfold uploadStep at hs
    dsimp only at hs
    by_cases hstage : (s.client c).stage = .sketched
    · rw [if_pos hstage, Option.some.injEq] at hs
      rw [← hs]
      have hchecked := @checkLoop_spec env s.filter.heap (s.client c).queries.inQueryBase
        (minFreq topThreshold s.filter.heap) (s.client c).queries.outQueryBase
        (s.client c).chunks.length
      apply h.unasked
      · exact ⟨fun _ => checked_distinct hchecked rfl, fun _ => hchecked.num,
          by simp [BatchStage.cursors], by simp⟩
      · unfold UploadClient.passedNum
        rw [hstage]
      · rfl
    · rw [if_neg hstage] at hs
      cases hs
  | queryOutIndex c =>
    unfold uploadStep at hs
    dsimp only at hs
    by_cases hstage : (s.client c).stage = .checked
    · rw [if_pos hstage, Option.some.injEq] at hs
      rw [← hs]
      exact h.query hstage hapart
    · rw [if_neg hstage] at hs
      cases hs
  | queryOutBasechunk c =>
    unfold uploadStep at hs
    dsimp only at hs
    by_cases hstage : (s.client c).stage = .queried
    · rw [if_pos hstage, Option.some.injEq] at hs
      rw [← hs]
      apply h.inner
      · exact ⟨rfl, rfl, (loadLoop_spec _ _ _ _).2, Ocall_QueryOutBasechunk_same _ _⟩
      · unfold UploadClient.inFlightNum
        rw [hstage]
      · rfl
      · rw [hstage]
        rfl
      · unfold UploadClient.passedNum
        rw [hstage]
        exact Nat.zero_le _
      · intro i k hik
        cases hik
        exact ⟨Nat.zero_le _, rfl⟩
      · intro hanswered
        cases hanswered
    · rw [if_neg hstage] at hs
      cases hs
  | processChunk c image name =>
    unfold uploadStep at hs
    dsimp only at hs
    cases hstage : (s.client c).stage with
    | chunkLoop i k =>
      simp only [hstage] at hs
      by_cases hi : i < (s.client c).chunks.length
      · rw [if_pos hi, Option.some.injEq] at hs
        rw [← hs]
        exact h.chunk hstage hi image name
      · rw [if_neg hi] at hs
        cases hs
    | _ => simp [hstage] at hs
  | updateDeltaIndex c =>
    unfold uploadStep at hs
    dsimp only at hs
    cases hstage : (s.client c).stage with
    | paired i k pair =>
      simp only [hstage, Option.some.injEq] at hs
      rw [← hs]
      have hserver := @Sound.server _ h (InsertDeltaIndex s.server pair.1 pair.2) rfl s.filter
      apply hserver.inner (sameBatch_setStage _ _)
      · unfold UploadClient.inFlightNum
        rw [hstage]
      · rfl
      · rw [hstage]
        rfl
      · unfold UploadClient.passedNum
        rw [hstage]
        exact Nat.le_refl _
      · intro i' k' hik
        cases hik
        exact (h.batch c).cursors i k (by rw [hstage]; rfl)
      · intro hanswered
        cases hanswered
    | _ => simp [hstage] at hs
  | endLoop c =>
    unfold uploadStep at hs
    dsimp only at hs
    cases hstage : (s.client c).stage with
    | chunkLoop i k =>
      simp only [hstage] at hs
      by_cases hi : i = (s.client c).chunks.length
      · rw [if_pos hi, Option.some.injEq] at hs
        rw [← hs]
        have hb := h.batch c
        obtain ⟨_, hk⟩ := hb.cursors i k (by rw [hstage]; rfl)
        apply h.inner (sameBatch_setStage _ _)
        · unfold UploadClient.inFlightNum
          rw [hstage]
        · rfl
        · rw [hstage]
          rfl
        · unfold UploadClient.passedNum
          rw [hstage, hk, hi, ← hb.rank (by rw [hstage]; rfl)]
          exact Nat.le_refl _
        · intro i' k' hik
          cases hik
        · intro hanswered
          cases hanswered
      · rw [if_neg hi] at hs
        cases hs
    | _ => simp [hstage] at hs
  | localInsert c =>
    unfold uploadStep at hs
    dsimp only at hs
    cases hstage : (s.client c).stage with
    | deferring pairs =>
      cases pairs with
      | nil => simp [hstage] at hs
      | cons pair pairs =>
        simp only [hstage, Option.some.injEq] at hs
        rw [← hs]
        have hserver := @Sound.server _ h (localInsert s.server pair) rfl s.filter
        apply hserver.inner (sameBatch_setStage _ _)
        · unfold UploadClient.inFlightNum
          rw [hstage]
        · rfl
        · rw [hstage]
          rfl
        · unfold UploadClient.passedNum
          rw [hstage]
          exact Nat.le_refl _
        · intro i k hik
          cases hik
        · intro hanswered
          cases hanswered
    | _ => simp [hstage] at hs
  | updateHeap c =>
    unfold uploadStep at hs
    dsimp only at hs
    by_cases hstage : (s.client c).stage = .deferring []
    · rw [if_pos hstage, Option.some.injEq] at hs
      rw [← hs]
      have hserver := h.server rfl { s.filter with
        heap := heapLoop topThreshold (s.client c).queries.inQueryBase (s.client c).chunks.length
          s.filter.heap }
      apply hserver.inner
      · exact ⟨rfl, rfl, SameIns.refl _, SameOuts.refl _⟩
      · unfold UploadClient.inFlightNum
        rw [hstage]
      · rfl
      · rw [hstage]
        rfl
      · unfold UploadClient.passedNum
        rw [hstage]
      · intro i k hik
        cases hik
      · exact fun _ => rfl
    · rw [if_neg hstage] at hs
      cases hs
  | updateOutIndex c =>
    unfold uploadStep at hs
    dsimp only at hs
    by_cases hstage : (s.client c).stage = .answered
    · rw [if_pos hstage, Option.some.injEq] at hs
      rw [← hs]
      exact h.register hstage
    · rw [if_neg hstage] at hs
      cases hs

theorem sound_start (server : Server) (filter : Filter) (queries : Bool → Queries)
    (iv : Bool → IV) (opened : Bool → Bool → OpenContainer) :
    Sound (Uploads.start server filter queries iv opened) := by
  have hnone : ∀ c, ((Uploads.start server filter queries iv opened).client c).inFlight = [] :=
    fun _ => rfl
  refine ⟨?_, ?_, ?_, ?_, ⟨List.nodup_nil, List.nodup_nil⟩, ?_⟩
  · intro c
    exact ⟨by simp [Uploads.start, BatchStage.asks], by simp [Uploads.start, BatchStage.asks],
      by simp [Uploads.start, BatchStage.cursors], by simp [Uploads.start]⟩
  · intro c fp hfp
    rw [hnone] at hfp
    exact absurd hfp List.not_mem_nil
  · intro c fp hfp
    rw [hnone] at hfp
    exact absurd hfp List.not_mem_nil
  · intro fp hfp
    exact absurd hfp List.not_mem_nil
  · intro fp hfp
    exact absurd hfp List.not_mem_nil

end Sound

/-- In a run whose queries find nothing to be new that is in flight for the other client, every
fingerprint is stored once and registered once. -/
theorem concurrent_dedup {env : EnclaveEnv} {topThreshold : Nat} {server : Server} {filter : Filter}
    {queries : Bool → Queries} {iv : Bool → IV} {opened : Bool → Bool → OpenContainer}
    {acts : List UploadAction} {s : Uploads}
    (hrun : runs (uploadStep env topThreshold) (Uploads.start server filter queries iv opened)
      acts = some s)
    (hapart : StepsMeet (uploadStep env topThreshold) QueriesApart
      (Uploads.start server filter queries iv opened) acts) : ExactlyOnce s :=
  (runs_preserve (fun h hok hs => Sound.step h hok hs)
    (sound_start server filter queries iv opened) hapart hrun).once

/-- Two sessions with an empty server. -/
def uploadsStart : Uploads :=
  .start (Server.start true false) ⟨.empty, .empty⟩ (fun _ => ⟨zeroIn, zeroOut, 0, 0⟩)
    (fun _ => FixedBytes.fill 16 0) fun c _ => ⟨FixedBytes.fill 7 (if c then 1 else 0), [], []⟩

/-- A batch of one chunk until the index has answered. -/
def askOne (c : Bool) (chunk : Bytes) : List UploadAction :=
  [.updateSketch c [chunk], .checkTopK c, .queryOutIndex c]

/-- The rest of it, when no base is to be had. -/
def storeOne (c : Bool) : List UploadAction :=
  [.queryOutBasechunk c, .processChunk c none (FixedBytes.fill 7 2), .endLoop c, .updateHeap c,
    .updateOutIndex c]

/-- Batches with different chunks overlap; a chunk of the one is asked for again later. -/
theorem concurrent_dedup_apart : ∃ s,
    runs (uploadStep plainEnv 2) uploadsStart
      (askOne false [65] ++ askOne true [66] ++ storeOne true ++ storeOne false ++
        (askOne true [65] ++ storeOne true)) = some s ∧
    s.appended.length = 2 ∧ ExactlyOnce s := by
  have hrun : ((runs (uploadStep plainEnv 2) uploadsStart
      (askOne false [65] ++ askOne true [66] ++ storeOne true ++ storeOne false ++
        (askOne true [65] ++ storeOne true))).map fun s => s.appended.length) = some 2 := by
    decide +kernel
  have hapart : StepsMeet (uploadStep plainEnv 2) QueriesApart uploadsStart
      (askOne false [65] ++ askOne true [66] ++ storeOne true ++ storeOne false ++
        (askOne true [65] ++ storeOne true)) := by
    decide +kernel
  obtain ⟨s, hs, hlen⟩ := Option.map_eq_some_iff.mp hrun
  exact ⟨s, hs, hlen, concurrent_dedup hs hapart⟩

/-- Both clients ask for the same chunk before either of them registers it. -/
theorem concurrent_dedup_overlapping : ∃ s,
    runs (uploadStep plainEnv 2) uploadsStart
      (askOne false [65] ++ askOne true [65] ++ storeOne false ++ storeOne true) = some s ∧
    ¬s.appended.Nodup ∧ ¬s.registered.Nodup := by
  have hrun : ((runs (uploadStep plainEnv 2) uploadsStart
      (askOne false [65] ++ askOne true [65] ++ storeOne false ++ storeOne true)).map fun s =>
        (s.appended, s.registered)) =
      some ([plainEnv.GenerateHash [65], plainEnv.GenerateHash [65]],
        [plainEnv.GenerateHash [65], plainEnv.GenerateHash [65]]) := by
    decide +kernel
  obtain ⟨s, hs, heq⟩ := Option.map_eq_some_iff.mp hrun
  rw [Prod.mk.injEq] at heq
  refine ⟨s, hs, ?_, ?_⟩
  · rw [heq.1]
    exact List.not_nodup_pair _
  · rw [heq.2]
    exact List.not_nodup_pair _

end ShieldReduce.MultiClient
