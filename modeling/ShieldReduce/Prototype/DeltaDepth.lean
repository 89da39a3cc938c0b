import ShieldReduce.Prototype.Expand
import ShieldReduce.Prototype.InvariantPass

/-!
# Delta depth one

Every delta of the FP index is one against a base chunk, and the delta index lists the deltas of
every base that an offline pass may still turn into a delta.
-/

namespace ShieldReduce.Prototype
open Lib Store EDelta

/-- An old base of a pending pair: in `_local_tmp_map`, `skipMap` or `_local_map`, or already copied
to `local_basemap`; between two batches also a superseded new base, which the next pass will take
for an old one. -/
def PendingOld (s : Server) (b : Fp) : Prop :=
  s.local_tmp_map.lookup b ≠ none ∨ s.skipMap.lookup b ≠ none ∨ b ∈ s.local_map.map Prod.fst ∨
    (s.phase = .offline .update ∧ s.local_basemap.lookup b ≠ none) ∨
      ((inflight s.phase).1 = [] ∧ ∃ k, b ∈ Table.vec s.skipMap k)

/-- The entry of `d` is a delta against `b`. -/
def DeltaEntry (indexObj : FpIndex) (d b : Fp) : Prop :=
  ∃ e, indexObj.lookup d = some e ∧ e.deltaFlag = DELTA ∧ e.basechunkHash = b

structure DeltaIndexed (s : Server) : Prop where
  base : ∀ d b, DeltaEntry s.indexObj d b → WholeIn s.indexObj b
  posted : ∀ b, Posted s.sfObj b → WholeIn s.indexObj b
  pending : ∀ b, PendingOld s b → WholeIn s.indexObj b
  listed : ∀ b, Posted s.sfObj b ∨ PendingOld s b → ∀ d, DeltaEntry s.indexObj d b →
    (Table.vec s.delta_index b).count d = 1
  only : (inflight s.phase).1 = [] → ∀ b, Posted s.sfObj b ∨ PendingOld s b →
    ∀ d ∈ Table.vec s.delta_index b, DeltaEntry s.indexObj d b

section Depth
variable {env : EnclaveEnv} {s : Server} {R : Records} {Lost : Fp → Prop}

theorem NewBase.wholeIn {n : Fp} (h : NewBase s.indexObj s.sfObj [] Lost n) :
    WholeIn s.indexObj n := whole_entry.mp h.whole

/-- A pending old base outside a pass. -/
theorem Waiting.pendingOld {done done' : List QueryEntry} {pairs : List (Fp × Fp)}
    (h : Waiting s done Lost) (g : Graph s.indexObj s.sfObj s.delta_index done' pairs Lost)
    (hdone : (inflight s.phase).1 = [] → done = []) (hphase : s.phase ≠ .offline .update) {b : Fp}
    (hb : PendingOld s b) : WholeIn s.indexObj b ∧ ¬Lost b := by
  have hposted : Posted s.sfObj b → WholeIn s.indexObj b ∧ ¬Lost b :=
    fun hp => ⟨g.posted_whole hp, fun hl => g.lost_posted hl hp⟩
  rcases hb with hb | hb | hb | ⟨hb, _⟩ | ⟨hnone, k, hb⟩
  · obtain ⟨n, hn⟩ := Option.ne_none_iff_exists'.mp hb
    exact hposted (h.pending.old hn)
  · exact hposted (h.pending.oldSkip hb)
  · rw [h.local_map] at hb
    simp at hb
  · exact absurd hb hphase
  · have hnew := h.pending.superseded hb
    rw [hdone hnone] at hnew
    exact ⟨hnew.wholeIn, hnew.kept⟩

theorem Passing.pendingOld (h : Passing s) {b : Fp} (hb : PendingOld s b) :
    b ∈ s.local_map.map Prod.fst ∨ (s.phase = .offline .update ∧ s.local_basemap.lookup b ≠ none) := by
  have hvec : ∀ k, Table.vec (∅ : Table Fp (List Fp)) k = [] := fun _ => rfl
  rcases hb with hb | hb | hb | hb | ⟨_, k, hb⟩
  · rw [h.local_tmp_map] at hb
    simp at hb
  · rw [h.skipMap] at hb
    simp at hb
  · exact Or.inl hb
  · exact Or.inr hb
  · rw [h.skipMap, hvec] at hb
    simp at hb

/-- A pending old base is a base chunk whose dependents the delta index follows. -/
theorem Inv.pendingOld (h : Inv env s R Lost) {b : Fp} (hb : PendingOld s b) :
    WholeIn s.indexObj b ∧ ¬Lost b := by
  obtain ⟨phase, hphase⟩ : ∃ phase, s.phase = phase := ⟨_, rfl⟩
  obtain ⟨hgraph, _, hstage⟩ := h.at hphase
  cases hstage with
  | idle wait _ _ =>
    exact wait.pendingOld hgraph (fun _ => rfl) (by rw [hphase]; simp) hb
  | ready wait _ =>
    exact wait.pendingOld hgraph (fun _ => rfl) (by rw [hphase]; simp) hb
  | chunkLoop wait _ _ =>
    exact wait.pendingOld hgraph (fun _ => rfl) (by rw [hphase]; simp) hb
  | loaded wait _ _ =>
    exact wait.pendingOld hgraph (fun _ => rfl) (by rw [hphase]; simp) hb
  | answered wait _ _ _ =>
    exact wait.pendingOld hgraph (by rw [hphase]; exact id) (by rw [hphase]; simp) hb
  | tailed wait _ =>
    exact wait.pendingOld hgraph (fun _ => rfl) (by rw [hphase]; simp) hb
  | draining wait =>
    exact wait.pendingOld hgraph (fun _ => rfl) (by rw [hphase]; simp) hb
  | update pass remaining =>
    rcases pass.pendingOld hb with hb | ⟨_, hb⟩
    · obtain ⟨⟨o, n⟩, hmem, rfl⟩ := List.mem_map.mp hb
      exact remaining.old (Or.inr hmem)
    · obtain ⟨n, hn⟩ := Option.ne_none_iff_exists'.mp hb
      exact remaining.old (Or.inl hn)
  | cold pass local_map _ =>
    rcases pass.pendingOld hb with hb | ⟨hb, _⟩
    · rw [local_map] at hb
      simp at hb
    · rw [hphase] at hb
      simp at hb
  | merge pass local_map _ _ =>
    rcases pass.pendingOld hb with hb | ⟨hb, _⟩
    · rw [local_map] at hb
      simp at hb
    · rw [hphase] at hb
      simp at hb

/-- What awaits `Ocall_UpdateDeltaIndex` are pairs of chunks that the FP index does not have. -/
theorem Inv.inflight_fresh (h : Inv env s R Lost) {p : Fp × Fp}
    (hp : p ∈ (inflight s.phase).2) : s.indexObj.lookup p.2 = none := by
  obtain ⟨phase, hphase⟩ : ∃ phase, s.phase = phase := ⟨_, rfl⟩
  obtain ⟨_, _, hstage⟩ := h.at hphase
  have hbatch : ∀ {b : Batch} {current : List QueryEntry},
      BatchOk s.indexObj s.sfObj b current → p ∈ b.process_buffer →
        s.indexObj.lookup p.2 = none := by
    intro b current batch hmem
    rw [batch.pairs] at hmem
    obtain ⟨x, hx, rfl⟩ := List.mem_map.mp hmem
    exact batch.fresh x (List.mem_append_left _ (List.mem_filter.mp hx).1)
  rw [hphase] at hp
  cases hstage with
  | chunkLoop _ _ batch => exact hbatch batch hp
  | loaded _ _ batch => exact hbatch batch hp
  | _ => simp [inflight] at hp

theorem Inv.deltaIndexed (h : Inv env s R Lost) : DeltaIndexed s := by
  have hkept : ∀ b, Posted s.sfObj b ∨ PendingOld s b → ¬Lost b := by
    rintro b (hb | hb)
    · exact fun hl => h.graph.lost_posted hl hb
    · exact (h.pendingOld hb).2
  refine ⟨?_, ?_, fun b hb => (h.pendingOld hb).1, ?_, ?_⟩
  · rintro d b ⟨e, he, hflag, rfl⟩
    exact h.graph.base_whole he hflag
  · intro b hb
    exact h.graph.posted_whole hb
  · rintro b hb d ⟨e, he, hflag, hbase⟩
    have hlost := hkept b hb
    have hmem := (h.graph.listed hlost d).mpr ⟨e, Or.inl he, hflag, hbase⟩
    have hnodup := h.graph.nodup hlost
    have hvec : d ∈ Table.vec s.delta_index b := by
      rcases List.mem_append.mp hmem with hmem | hmem
      · exact hmem
      · have hnone := h.inflight_fresh (mem_pairsOn.mp hmem)
        rw [he] at hnone
        simp at hnone
    exact List.count_eq_one_of_mem (List.nodup_append.mp hnodup).1 hvec
  · intro hnone b hb d hd
    obtain ⟨e, he, hflag, hbase⟩ := (h.graph.listed (hkept b hb) d).mp (List.mem_append_left _ hd)
    rw [hnone] at he
    exact ⟨e, by simpa [Entry] using he, hflag, hbase⟩

/-- The delta depth is one, and the delta index is complete, in every state of a server lifetime. -/
theorem reachable_deltaIndexed (h : Reachable env s) : DeltaIndexed s := by
  obtain ⟨R, Lost, hinv⟩ := h.inv
  exact hinv.deltaIndexed

end Depth

/-- One chunk of a client, from its message to its registration. -/
def uploadOne (chunk : Bytes) : List Action :=
  [.uploadChunk [chunk] (fun _ => false) fun _ => emptyEntry, .offlinedeltaTure, .storeChunk,
    .endBatch, .updateOutIndex]

/-- The second chunk is like the first one, whose container is not worth loading for it. -/
theorem reachable_deltaIndexed_deferred : ∃ s,
    runs (step plainEnv) (Server.start false true)
      (.startSession (FixedBytes.fill 16 0) :: (uploadOne [65] ++ uploadOne [66])) = some s ∧
    PendingOld s (FixedBytes.read 32 [65] 0) ∧ DeltaIndexed s := by
  have hrun : ((runs (step plainEnv) (Server.start false true)
      (.startSession (FixedBytes.fill 16 0) :: (uploadOne [65] ++ uploadOne [66]))).map fun s =>
        s.local_tmp_map.lookup (FixedBytes.read 32 [65] 0)) =
      some (some (FixedBytes.read 32 [66] 0)) := by
    decide +kernel
  obtain ⟨s, hs, hpending⟩ := Option.map_eq_some_iff.mp hrun
  refine ⟨s, hs, Or.inl ?_, reachable_deltaIndexed ⟨false, true, _, hs⟩⟩
  rw [hpending]
  exact Option.some_ne_none _

end ShieldReduce.Prototype
