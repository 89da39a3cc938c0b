import ShieldReduce.EDelta.Assigned
import ShieldReduce.Prototype.Ivs
import ShieldReduce.Prototype.StatisticsRuns

/-!
# The transfer of the dependents

`Ocall_QueryDeltaIndex` copies the dependents of an old base behind it into `process_buffer`, which
has a fixed size; `Easy_update` reads them there. Nothing bounds the lists of the delta index.
-/

namespace ShieldReduce.Prototype
open Lib Store EDelta

def PROCESS_SLOTS : Nat := 100000

def PROCESS_BUFFER_SIZE : Nat := PROCESS_SLOTS * CHUNK_HASH_SIZE

abbrev ProcessBuffer : Type := FixedBytes PROCESS_BUFFER_SIZE

section Model

/-- `none`: the copy runs past the end of the buffer. -/
def ProcessBuffer.write (buffer : ProcessBuffer) (pos : Nat) (src : Bytes) : Option ProcessBuffer :=
  if h : pos + src.length ≤ PROCESS_BUFFER_SIZE then
    some ⟨memcpy buffer.val pos src, by
      have hlen := buffer.property
      rw [memcpy_length src (by omega), hlen]
      omega⟩
  else none

/-- The loop of `Ocall_QueryDeltaIndex` from `i` on. -/
def writeSlots : List Fp → Nat → ProcessBuffer → Option ProcessBuffer
  | [], _, tmpBuffer => some tmpBuffer
  | fp :: result, i, tmpBuffer => do
    let tmpBuffer ← tmpBuffer.write ((i + 1) * CHUNK_HASH_SIZE) fp.val
    writeSlots result (i + 1) tmpBuffer

/-- The second component is `QueryNum`. -/
def Ocall_QueryDeltaIndex (s : Server) (tmpBuffer : ProcessBuffer) :
    Option (ProcessBuffer × UInt32 × Server) := do
  let oldBaseChunkFp : Fp := FixedBytes.read 32 tmpBuffer.val 0
  let (result, s) := QueryDeltaIndex s oldBaseChunkFp
  let tmpBuffer ← writeSlots result 0 tmpBuffer
  return (tmpBuffer, UInt32.ofNat result.length, s)

/-- What `Easy_update` copies to `delta_map` for an old base. -/
def queryDependents (old : Fp) (s : Server) (process_buffer : ProcessBuffer) :
    Option (List Fp × Server) := do
  let process_buffer ← process_buffer.write 0 (List.replicate (1000 * CHUNK_HASH_SIZE) 0)
  let process_buffer ← process_buffer.write 0 old.val
  let (process_buffer, delta_index_num, s) ← Ocall_QueryDeltaIndex s process_buffer
  return ((List.range delta_index_num.toNat).map fun i =>
    FixedBytes.read 32 process_buffer.val ((i + 1) * CHUNK_HASH_SIZE), s)

/-- Of every base the whole list arrives, and no copy leaves the buffer. -/
def DependentsTransferred (s : Server) : Prop :=
  ∀ old process_buffer, queryDependents old s process_buffer = some (QueryDeltaIndex s old)

/-- The list of every base leaves a slot for it. -/
def ListsFit (s : Server) : Prop := ∀ base, (Table.vec s.delta_index base).length < PROCESS_SLOTS

variable (env : EnclaveEnv)

/-- The delta against the new base is not longer than the dependent that is stored. -/
def moves (s : Server) (old_chunk new_chunk : Bytes) (deltaHash : Fp) : Bool :=
  (storedDependent env s old_chunk deltaHash).any fun chunk => Shrinks env chunk new_chunk

/-- The chunks that become dependents of the new base: those dependents of the old one that shrink,
and the old base when it shrinks with all of them. -/
def movers (s : Server) (old new : Fp) : List Fp :=
  match storedBase env s old, storedBase env s new with
  | some old_chunk, some new_chunk =>
    let dependents := Table.vec s.delta_index old
    let moved := dependents.filter (moves env s old_chunk new_chunk)
    if Shrinks env old_chunk new_chunk ∧ dependents.all (moves env s old_chunk new_chunk) then
      moved ++ [old]
    else moved
  | _, _ => []

/-- A batch that leaves every base a slot. -/
def BatchFits (s : Server) (b : Batch) : Prop :=
  b.Local_Flag = true ∨ ∀ base,
    (Table.vec s.delta_index base).length + (pairsOn b.process_buffer base).length < PROCESS_SLOTS

/-- A step that gives no base more dependents than the buffer has slots for. -/
def DependentsFit (s : Server) : Action → Prop
  | .endBatch =>
    match s.phase with
    | .uploading (.chunkLoop b) => BatchFits s b
    | _ => True
  | .updatePair old =>
    s.offlineCurrBackup_size = 0 ∨ ∀ new ∈ s.local_basemap.lookup old,
      (Table.vec s.delta_index new).length + (movers env s old new).length < PROCESS_SLOTS
  | _ => True

/-- Only the bases of the index and of the batch matter. -/
theorem batchFits_known (s : Server) (b : Batch) :
    (b.Local_Flag = true ∨ ∀ base ∈ s.delta_index.keys ++ b.process_buffer.map Prod.fst,
      (Table.vec s.delta_index base).length + (pairsOn b.process_buffer base).length <
        PROCESS_SLOTS) ↔ BatchFits s b := by
  unfold BatchFits
  apply or_congr_right
  constructor
  · intro h base
    by_cases hknown : base ∈ s.delta_index.keys ++ b.process_buffer.map Prod.fst
    · exact h base hknown
    · rw [List.mem_append, not_or] at hknown
      have hvec : Table.vec s.delta_index base = [] := by
        unfold Table.vec
        rw [AList.lookup_eq_none.mpr fun hmem => hknown.1 (AList.mem_keys.mp hmem)]
        rfl
      have hpairs : pairsOn b.process_buffer base = [] := by
        unfold pairsOn
        rw [List.map_eq_nil_iff, List.filter_eq_nil_iff]
        intro p hp heq
        exact hknown.2 (List.mem_map.mpr ⟨p, hp, of_decide_eq_true heq⟩)
      rw [hvec, hpairs]
      decide
  · intro h base _
    exact h base

instance (s : Server) (b : Batch) : Decidable (BatchFits s b) :=
  decidable_of_iff _ (batchFits_known s b)

instance (s : Server) (a : Action) : Decidable (DependentsFit env s a) := by
  unfold DependentsFit
  split
  · split <;> infer_instance
  · infer_instance
  · infer_instance

end Model

section Transfer
variable {s : Server} {buffer : ProcessBuffer}

theorem write_some {pos : Nat} {src : Bytes} (h : pos + src.length ≤ PROCESS_BUFFER_SIZE) :
    ∃ buffer', buffer.write pos src = some buffer' ∧ buffer'.val = memcpy buffer.val pos src := by
  unfold ProcessBuffer.write
  rw [dif_pos h]
  exact ⟨_, rfl, rfl⟩

theorem slice_write (b : Bytes) {pos : Nat} (fp : Fp) (h : pos ≤ b.length) :
    slice (memcpy b pos fp.val) pos 32 = fp.val := by
  have hslice := slice_memcpy_self fp.val h
  have hfp : fp.val.length = 32 := fp.property
  rw [hfp] at hslice
  exact hslice

/-- A list that fits is in its slots, and what is before them stays. -/
theorem writeSlots_some {result : List Fp} {i : Nat} (h : i + result.length < PROCESS_SLOTS) :
    ∃ buffer', writeSlots result i buffer = some buffer' ∧
      (∀ off n, off + n ≤ (i + 1) * CHUNK_HASH_SIZE →
        slice buffer'.val off n = slice buffer.val off n) ∧
      (List.range' i result.length).map (fun i =>
        FixedBytes.read 32 buffer'.val ((i + 1) * CHUNK_HASH_SIZE)) = result := by
  induction result generalizing i buffer with
  | nil => exact ⟨buffer, rfl, fun _ _ _ => rfl, rfl⟩
  | cons fp result ih =>
    rw [List.length_cons] at h
    have hfp : fp.val.length = CHUNK_HASH_SIZE := fp.property
    have hroom : (i + 1) * CHUNK_HASH_SIZE + fp.val.length ≤ PROCESS_BUFFER_SIZE := by
      unfold PROCESS_BUFFER_SIZE
      rw [hfp, ← Nat.succ_mul]
      exact Nat.mul_le_mul_right _ (by omega)
    obtain ⟨buffer₁, hwrite, hval⟩ := @write_some buffer _ _ hroom
    obtain ⟨buffer', hrest, hbefore, hread⟩ := @ih buffer₁ (i + 1) (by omega)
    have hpos : (i + 1) * CHUNK_HASH_SIZE ≤ buffer.val.length := by
      rw [buffer.property]
      omega
    refine ⟨buffer', ?_, ?_, ?_⟩
    · unfold writeSlots
      rw [hwrite]
      exact hrest
    · intro off n hoff
      rw [hbefore off n (by rw [Nat.succ_mul]; omega), hval]
      exact slice_memcpy_before _ hoff hpos
    · rw [List.length_cons, List.range'_succ, List.map_cons, hread]
      have hslot : FixedBytes.read 32 buffer'.val ((i + 1) * CHUNK_HASH_SIZE) = fp := by
        apply FixedBytes.read_of_slice
        rw [hbefore _ _ (by rw [Nat.succ_mul (i + 1)]; exact Nat.le_refl _), hval]
        exact slice_write _ fp hpos
      rw [hslot]

theorem writeSlots_none {result : List Fp} {i : Nat} (hne : result ≠ [])
    (h : PROCESS_SLOTS ≤ i + result.length) : writeSlots result i buffer = none := by
  induction result generalizing i buffer with
  | nil => exact absurd rfl hne
  | cons fp result ih =>
    unfold writeSlots
    cases hwrite : buffer.write ((i + 1) * CHUNK_HASH_SIZE) fp.val with
    | none => rfl
    | some buffer₁ =>
      have hroom : (i + 1) * CHUNK_HASH_SIZE + fp.val.length ≤ PROCESS_BUFFER_SIZE := by
        by_contra hno
        unfold ProcessBuffer.write at hwrite
        rw [dif_neg hno] at hwrite
        simp at hwrite
      have hfp : fp.val.length = CHUNK_HASH_SIZE := fp.property
      rw [hfp, ← Nat.succ_mul] at hroom
      have hslots : (i + 1).succ ≤ PROCESS_SLOTS :=
        Nat.le_of_mul_le_mul_right hroom (by decide)
      rw [List.length_cons] at h
      have hrest : result ≠ [] := by
        rintro rfl
        rw [List.length_nil] at h
        omega
      exact @ih buffer₁ (i + 1) hrest (by omega)

/-- `Easy_update` asks for the old base that it has put in front. -/
theorem queryDependents_eq (old : Fp) (s : Server) (buffer : ProcessBuffer) : ∃ buffer',
    queryDependents old s buffer =
      (writeSlots (Table.vec s.delta_index old) 0 buffer').map fun process_buffer =>
        ((List.range (UInt32.ofNat (Table.vec s.delta_index old).length).toNat).map fun i =>
          FixedBytes.read 32 process_buffer.val ((i + 1) * CHUNK_HASH_SIZE),
          (QueryDeltaIndex s old).2) := by
  obtain ⟨buffer₁, h₁, _⟩ := @write_some buffer 0 (List.replicate (1000 * CHUNK_HASH_SIZE) 0) (by
    rw [List.length_replicate]
    decide)
  obtain ⟨buffer₂, h₂, hval⟩ := @write_some buffer₁ 0 old.val (by
    rw [old.property]
    decide)
  have hold : (FixedBytes.read 32 buffer₂.val 0 : Fp) = old := by
    apply FixedBytes.read_of_slice
    rw [hval]
    exact slice_write _ old (Nat.zero_le _)
  refine ⟨buffer₂, ?_⟩
  unfold queryDependents Ocall_QueryDeltaIndex QueryDeltaIndex
  simp only [h₁, h₂, hold, Option.bind_eq_bind, Option.bind_some, Option.pure_def]
  cases writeSlots (Table.vec s.delta_index old) 0 buffer₂ with
  | none => rfl
  | some buffer₃ => rfl

/-- The list arrives when it leaves a slot for the base. -/
theorem queryDependents_some {old : Fp}
    (h : (Table.vec s.delta_index old).length < PROCESS_SLOTS) :
    queryDependents old s buffer = some (QueryDeltaIndex s old) := by
  obtain ⟨buffer', heq⟩ := queryDependents_eq old s buffer
  obtain ⟨buffer₁, hwrite, _, hread⟩ :=
    @writeSlots_some buffer' (Table.vec s.delta_index old) 0 (by omega)
  have hnum : (UInt32.ofNat (Table.vec s.delta_index old).length).toNat =
      (Table.vec s.delta_index old).length := by
    unfold PROCESS_SLOTS at h
    rw [UInt32.toNat_ofNat', Nat.mod_eq_of_lt (by omega)]
  rw [heq, hwrite, hnum, List.range_eq_range', Option.map_some, hread]
  rfl

theorem queryDependents_none {old : Fp}
    (h : PROCESS_SLOTS ≤ (Table.vec s.delta_index old).length) :
    queryDependents old s buffer = none := by
  obtain ⟨buffer', heq⟩ := queryDependents_eq old s buffer
  have hne : Table.vec s.delta_index old ≠ [] := by
    intro hnil
    rw [hnil] at h
    exact absurd h (by decide)
  rw [heq, writeSlots_none hne (by omega)]
  rfl

theorem dependentsTransferred_iff : DependentsTransferred s ↔ ListsFit s := by
  constructor
  · intro h old
    by_contra hno
    have hsome := h old (FixedBytes.fill PROCESS_BUFFER_SIZE 0)
    rw [queryDependents_none (Nat.not_lt.mp hno)] at hsome
    simp at hsome
  · intro h old buffer
    exact queryDependents_some (h old)

end Transfer

section Lists
variable {env : EnclaveEnv} {s s' : Server} {R : Records} {Lost : Fp → Prop} {old new : Fp}

/-- What a pass has recorded is in the hot container or in a file. -/
theorem storedDependent_some (h : Stores env (Entry s.indexObj []) (hotOpens s) s R)
    (hwriter : s.writer = none) (hqueue : s.inputMQ = []) {d : Fp} {r : ChunkRecord}
    (hr : Recorded R r) (he : s.indexObj.lookup d = some r.entry) (old_chunk : Bytes) :
    ∃ chunk, storedDependent env s old_chunk d = some chunk := by
  obtain ⟨rs, hrs, _⟩ := hr
  have hplace := h.holds.place (pathOf r.entry)
  rw [hwriter, hqueue, hrs] at hplace
  have hcopy : ∃ body, (hotOpens s (pathOf r.entry)).or (s.files.lookup (pathOf r.entry)) =
      some body := by
    cases ho : hotOpens s (pathOf r.entry) with
    | some body => exact ⟨body, rfl⟩
    | none =>
      rw [ho] at hplace
      cases hf : s.files.lookup (pathOf r.entry) with
      | some body => exact ⟨body, rfl⟩
      | none =>
        rw [hf] at hplace
        cases hplace
  obtain ⟨body, hbody⟩ := hcopy
  unfold storedDependent
  rw [he]
  simp only [Option.bind_eq_bind, Option.bind_some, hbody]
  exact ⟨_, rfl⟩

/-- The dependents that a pair goes through have all been recorded before it. -/
theorem updateDependents_recorded (h : Stores env (Entry s.indexObj []) (hotOpens s) s R)
    (hwriter : s.writer = none) {rest : List Fp} {flag flag' : Bool}
    (hreb : Rebasing s Lost old new rest flag) {old_chunk new_chunk : Bytes}
    (hnew : new_chunk.length ≤ MAX_CHUNK_SIZE)
    (hs : updateDependents env old_chunk new_chunk new rest flag s = some (s', flag'))
    (htimes : s'.con_times < 2 ^ 31) {d : Fp} (hd : d ∈ rest) :
    ∃ r, Recorded R r ∧ s.indexObj.lookup d = some r.entry := by
  induction rest generalizing s flag R with
  | nil => simp at hd
  | cons d₀ rest ih =>
    unfold updateDependents at hs
    obtain ⟨⟨t, tmp_delta_flag⟩, ht, hs⟩ := Option.bind_eq_some_iff.mp hs
    obtain ⟨hreb', hframe, _⟩ := updateDependent_rebasing hreb ht
    obtain ⟨_, hframe', _⟩ := updateDependents_rebasing hreb' hs
    obtain ⟨R₁, r₀, hrec, hlook, h₁, _, hcases⟩ := updateDependent_stores h hwriter hreb hnew ht
      (Nat.lt_of_le_of_lt hframe'.times htimes)
    rcases List.mem_cons.mp hd with rfl | hmem
    · exact ⟨r₀, hrec, hlook⟩
    · obtain ⟨r, ⟨rs, hrs, _⟩, hr⟩ := ih h₁ (hframe.writer.trans hwriter) hreb' hs hmem
      have hne : d ≠ d₀ := by
        rintro rfl
        exact (List.nodup_cons.mp hreb.rest_nodup).1 hmem
      obtain ⟨r', hr', hfp, hentry⟩ := h₁.indexed.entry (Or.inl hr) hrs
      rcases hcases with ⟨hindex, hR⟩ | ⟨r₁, hrep, _⟩
      · rw [hindex] at hr
        rw [hR] at hrs
        exact ⟨r', ⟨rs, hentry ▸ hrs, hr'⟩, hentry ▸ hr⟩
      · rw [hrep.index, Table.lookup_insert_ite, if_neg hne] at hr
        rcases hrep.added.only _ _ _ hrs hr' with ⟨rs', hrs', hmem⟩ | hmem
        · exact ⟨r', ⟨rs', hentry ▸ hrs', hmem⟩, hentry ▸ hr⟩
        · rw [List.mem_singleton.mp hmem, hrep.fp] at hfp
          exact absurd hfp.symm hne

theorem updateDependent_lists {old_chunk new_chunk : Bytes} {d : Fp} {flag : Bool}
    (hs : updateDependent env old_chunk new_chunk new d s = some (s', flag)) (b : Fp) :
    Table.vec s'.delta_index b =
      Table.vec s.delta_index b ++ if b = new ∧ flag = true then [d] else [] := by
  obtain ⟨recipe, body, _, _, hcases⟩ := updateDependent_cases hs
  rcases hcases with ⟨rfl, rfl⟩ | ⟨rfl, _, n, rfl⟩
  · rw [if_neg (by simp), List.append_nil]
    rfl
  · obtain ⟨_, _, hindex, _⟩ := storeHot_indexes env d new recipe
      (EDeltaEncode env.edelta (EDeltaDecode
        (env.DecryptionWithKeyIV (getChunkIV (memcpy s.tmpOcallcontainer 0 body) recipe)
          (getChunkContent (memcpy s.tmpOcallcontainer 0 body) recipe)) old_chunk) new_chunk)
      (getChunkFP (memcpy s.tmpOcallcontainer 0 body) recipe)
      (getChunkSF (memcpy s.tmpOcallcontainer 0 body) recipe)
      (getChunkIV (memcpy s.tmpOcallcontainer 0 body) recipe)
      { readContainer s body with offlineCurrBackup_size := n }
    rw [hindex, Table.vec_push]
    by_cases hb : b = new
    · rw [if_pos hb, if_pos ⟨hb, rfl⟩, hb]
      rfl
    · rw [if_neg hb, if_neg fun h => hb h.1, List.append_nil]
      rfl

/-- The dependents that shrink go to the list of the new base. -/
theorem updateDependents_lists (h : Stores env (Entry s.indexObj []) (hotOpens s) s R)
    (hwriter : s.writer = none) {rest : List Fp} {flag flag' : Bool}
    (hreb : Rebasing s Lost old new rest flag) {old_chunk new_chunk : Bytes}
    (hnew : new_chunk.length ≤ MAX_CHUNK_SIZE)
    (hs : updateDependents env old_chunk new_chunk new rest flag s = some (s', flag'))
    (htimes : s'.con_times < 2 ^ 31) {m : Fp → Bool}
    (hmoves : RecordsAre env (fun d chunk => m d = true ↔ Shrinks env chunk new_chunk) s R old_chunk
      rest) :
    (∀ b, Table.vec s'.delta_index b =
        Table.vec s.delta_index b ++ if b = new then rest.filter m else []) ∧
      flag' = (flag && rest.all m) := by
  induction rest generalizing s flag R with
  | nil =>
    simp only [updateDependents, Option.some.injEq, Prod.mk.injEq] at hs
    rw [← hs.1, ← hs.2]
    refine ⟨fun b => ?_, ?_⟩
    · simp
    · simp
  | cons d rest ih =>
    unfold updateDependents at hs
    obtain ⟨⟨t, tmp_delta_flag⟩, ht, hs⟩ := Option.bind_eq_some_iff.mp hs
    obtain ⟨hreb', hframe, _⟩ := updateDependent_rebasing hreb ht
    obtain ⟨_, hframe', _⟩ := updateDependents_rebasing hreb' hs
    obtain ⟨e, body, he, hbody, hcases⟩ := updateDependent_counted ht ChunkStatistics.zero
    obtain ⟨hmove, _, R₁, h₁, hrest⟩ := @updateDependent_records env s t Lost old new R h hwriter
      d rest flag tmp_delta_flag hreb old_chunk new_chunk hnew ht
      (Nat.lt_of_le_of_lt hframe'.times htimes)
      (fun d chunk => m d = true ↔ Shrinks env chunk new_chunk) hmoves e body he hbody
    have htmp : tmp_delta_flag = m d := by
      rcases hcases with ⟨hno, hflag, _⟩ | ⟨hyes, hflag, _⟩
      · rw [hflag]
        exact (Bool.eq_false_iff.mpr fun hm => hno (hmove.mp hm)).symm
      · rw [hflag]
        exact (hmove.mpr hyes).symm
    obtain ⟨hvec, hflag⟩ := ih h₁ (hframe.writer.trans hwriter) hreb' hs hrest
    refine ⟨fun b => ?_, ?_⟩
    · rw [hvec, updateDependent_lists ht, List.append_assoc]
      congr 1
      rw [htmp, List.filter_cons]
      by_cases hb : b = new
      · cases hm : m d with
        | true => simp [hb]
        | false => simp [hb]
      · simp [hb]
    · rw [hflag, htmp, List.all_cons, Bool.and_assoc]

theorem updateOldBase_lists (old new : Fp) (old_recipe : RecipeEntry) (old_iv : IV)
    (old_chunk new_chunk : Bytes) (delta_flag : Bool) (s : Server) (b : Fp) :
    Table.vec (updateOldBase env old new old_recipe old_iv old_chunk new_chunk delta_flag
        s).delta_index b =
      Table.vec s.delta_index b ++
        if b = new ∧ Shrinks env old_chunk new_chunk ∧ delta_flag = true then [old] else [] := by
  unfold updateOldBase
  by_cases hlen : old_chunk.length < (EDeltaEncode env.edelta old_chunk new_chunk).length
  · have hno : ¬Shrinks env old_chunk new_chunk := Nat.not_le.mpr hlen
    simp only [if_pos hlen]
    rw [if_neg fun h => hno h.2.1, List.append_nil]
  · have hyes : Shrinks env old_chunk new_chunk := Nat.not_lt.mp hlen
    simp only [if_neg hlen]
    cases delta_flag with
    | false =>
      rw [if_neg (by simp), if_neg (by simp), List.append_nil]
      rfl
    | true =>
      obtain ⟨_, _, hindex, _⟩ := storeHot_indexes env old new old_recipe
        (EDeltaEncode env.edelta old_chunk new_chunk) old old_recipe.superfeature old_iv
        (accountSize old_recipe.length.toNat (EDeltaEncode env.edelta old_chunk new_chunk).length s)
      rw [if_pos rfl, hindex, Table.vec_push]
      by_cases hb : b = new
      · rw [if_pos hb, if_pos ⟨hb, hyes, rfl⟩, hb]
        rfl
      · rw [if_neg hb, if_neg fun h => hb h.1, List.append_nil]
        rfl

/-- A pair lengthens the list of its new base only. -/
theorem updatePair_lists (h : Stores env (Entry s.indexObj []) (hotOpens s) s R)
    (hwriter : s.writer = none) (hqueue : s.inputMQ = [])
    (g : Graph s.indexObj s.sfObj s.delta_index [] [] Lost) (hwhole : WholeIn s.indexObj old)
    (hkept : ¬Lost old) (hnwhole : WholeIn s.indexObj new) (hnkept : ¬Lost new) (hne : new ≠ old)
    (hs : updatePair env old new s = some s') (htimes : s'.con_times < 2 ^ 31) :
    Table.vec s'.delta_index new = Table.vec s.delta_index new ++ movers env s old new ∧
      ∀ b ≠ new, (Table.vec s'.delta_index b).length ≤ (Table.vec s.delta_index b).length := by
  obtain ⟨old_recipe, hold, ⟨hnone, rfl⟩ | ⟨old_body, hbody, new_recipe, hnew, hcases⟩⟩ :=
    updatePair_cases hs
  · have hstored : storedBase env s' old = none := by
      unfold storedBase
      rw [hold]
      simp only [Option.bind_eq_bind, Option.bind_some, hnone, Option.bind_none]
    unfold movers
    rw [hstored]
    exact ⟨(List.append_nil _).symm, fun b _ => Nat.le_refl _⟩
  rcases hcases with ⟨hnone, rfl⟩ | ⟨new_body, hbody', t, delta_flag, ht, hs'⟩
  · have hstored : storedBase env s new = none := by
      unfold storedBase
      rw [hnew]
      simp only [Option.bind_eq_bind, Option.bind_some, hnone, Option.bind_none]
    unfold movers
    rw [hstored]
    refine ⟨?_, fun b _ => Nat.le_refl _⟩
    cases storedBase env s old with
    | none => exact (List.append_nil _).symm
    | some old_chunk => exact (List.append_nil _).symm
  · have hreb := pairStart_rebasing g hold hnew hwhole hkept hnwhole hnkept hne old_body new_body
    obtain ⟨hold_stored, _⟩ := storedBase_read h hwriter hwhole hold hbody s.tmpOcallcontainer
    obtain ⟨hnew_stored, hnew_length⟩ := storedBase_read h hwriter hnwhole hnew hbody'
      (memcpy s.tmpOcallcontainer 0 old_body)
    -- the chunks as `updatePair` has read them
    obtain ⟨old_chunk, hold_chunk⟩ : ∃ c,
      baseChunk env (memcpy s.tmpOcallcontainer 0 old_body) old_recipe = c := ⟨_, rfl⟩
    obtain ⟨new_chunk, hnew_chunk⟩ : ∃ c,
      baseChunk env (memcpy (memcpy s.tmpOcallcontainer 0 old_body) 0 new_body) new_recipe = c :=
      ⟨_, rfl⟩
    change updateDependents env (baseChunk env (memcpy s.tmpOcallcontainer 0 old_body) old_recipe)
      (baseChunk env (memcpy (memcpy s.tmpOcallcontainer 0 old_body) 0 new_body) new_recipe) new
      (Table.vec s.delta_index old) true
      (pairStart old old_recipe new_recipe new old_body new_body s) = some (t, delta_flag) at ht
    change s' = updateOldBase env old new old_recipe
      (getChunkIV (memcpy s.tmpOcallcontainer 0 old_body) old_recipe)
      (baseChunk env (memcpy s.tmpOcallcontainer 0 old_body) old_recipe)
      (baseChunk env (memcpy (memcpy s.tmpOcallcontainer 0 old_body) 0 new_body) new_recipe)
      delta_flag t at hs'
    rw [hold_chunk] at hold_stored ht hs'
    rw [hnew_chunk] at hnew_stored hnew_length ht hs'
    rw [hs'] at htimes ⊢
    obtain ⟨_, hframe, _⟩ := @updateOldBase_graph env t Lost old new delta_flag
      (updateDependents_rebasing hreb ht).1 old_recipe
      (getChunkIV (memcpy s.tmpOcallcontainer 0 old_body) old_recipe) old_chunk new_chunk
    have htimes' : t.con_times < 2 ^ 31 := Nat.lt_of_le_of_lt hframe.times htimes
    have hmoves : RecordsAre env
        (fun d chunk => moves env s old_chunk new_chunk d = true ↔ Shrinks env chunk new_chunk) s R
        old_chunk (Table.vec s.delta_index old) := by
      apply recordsAre_of_stored h hwriter
      intro d hd
      obtain ⟨r, hrec, hr⟩ := @updateDependents_recorded env
        (pairStart old old_recipe new_recipe new old_body new_body s) t R Lost old new
        ⟨h.holds, h.indexed⟩ hwriter _ _ _ hreb _ _ hnew_length ht htimes' d hd
      obtain ⟨chunk, hchunk⟩ := storedDependent_some h hwriter hqueue hrec hr old_chunk
      refine ⟨chunk, hchunk, ?_⟩
      unfold moves
      rw [hchunk]
      exact decide_eq_true_iff
    obtain ⟨hvec, hflag⟩ := @updateDependents_lists env
      (pairStart old old_recipe new_recipe new old_body new_body s) t R Lost old new
      ⟨h.holds, h.indexed⟩ hwriter _ _ _ hreb _ _ hnew_length ht htimes' _ hmoves
    have hstart : ∀ b, Table.vec (pairStart old old_recipe new_recipe new old_body new_body
        s).delta_index b = if b = old then [] else Table.vec s.delta_index b := fun b =>
      Table.vec_erase s.delta_index old b
    rw [Bool.true_and] at hflag
    refine ⟨?_, fun b hb => ?_⟩
    · have hold_some : storedBase env s old = some old_chunk := hold_stored
      have hnew_some : storedBase env s new = some new_chunk := hnew_stored
      rw [updateOldBase_lists, hvec, hstart, if_neg hne, if_pos rfl, List.append_assoc]
      unfold movers
      rw [hold_some, hnew_some]
      dsimp only
      rw [← hflag]
      by_cases hlast : Shrinks env old_chunk new_chunk ∧ delta_flag = true
      · rw [if_pos ⟨rfl, hlast⟩, if_pos hlast]
      · rw [if_neg fun h => hlast h.2, if_neg hlast, List.append_nil]
    · have hlast : ¬(b = new ∧ Shrinks env old_chunk new_chunk ∧ delta_flag = true) :=
        fun h => hb h.1
      rw [updateOldBase_lists, hvec, hstart, if_neg hlast, if_neg hb, List.append_nil,
        List.append_nil]
      split
      · exact Nat.zero_le _
      · exact Nat.le_refl _

end Lists

section Steps
variable {env : EnclaveEnv} {s s' : Server} {R : Records} {Lost : Fp → Prop} {a : Action}

/-- Only batches and pairs change the delta index. -/
theorem Stepped.delta_index (hinv : Inv env s R Lost) (h : Stepped env s a s')
    (hbatch : a ≠ .endBatch) (hpair : ∀ old, a ≠ .updatePair old) :
    s'.delta_index = s.delta_index := by
  cases h with
  | processOff _ _ =>
    unfold startOffline
    dsimp only
    split
    · rfl
    · rfl
  | offlinedeltaTure _ =>
    obtain ⟨_, _, heq⟩ := OfflinedeltaTure_frame _ _ s
    rw [heq]
  | storeChunk _ =>
    obtain ⟨_, _, _, _, heq, _⟩ := storeChunk_frame env _ s
    rw [heq]
  | endBatch _ _ => exact absurd rfl hbatch
  | updateOutIndex hphase =>
    obtain ⟨_, _, heq, _⟩ := hinv.registered hphase
    rw [heq]
  | disconnect _ =>
    obtain ⟨_, _, _, heq, _⟩ := closeSession_frame s
    rw [heq]
  | updatePair _ _ _ => exact absurd rfl (hpair _)
  | coldrevise _ _ _ =>
    dsimp only
    split
    · rfl
    · rfl
  | updateCold _ _ ht =>
    obtain ⟨_, _, ht⟩ := Option.bind_eq_some_iff.mp ht
    rw [← Option.some.inj ht]
    rfl
  | mergePair _ ht =>
    obtain ⟨_, _, ht⟩ := Option.bind_eq_some_iff.mp ht
    obtain ⟨_, _, ht⟩ := Option.bind_eq_some_iff.mp ht
    rw [← Option.some.inj ht]
  | _ => rfl

theorem Ocall_LocalInsert_delta_index (pairs : List (Fp × Fp)) (s : Server) :
    (Ocall_LocalInsert pairs s).delta_index = s.delta_index := by
  induction pairs generalizing s with
  | nil => rfl
  | cons p pairs ih => exact ih (localInsert s p)

theorem finishBatch_fit {b : Batch} (hfit : ListsFit s) :
    ListsFit (finishBatch b s) ↔ BatchFits s b := by
  unfold finishBatch ListsFit BatchFits
  cases b.Local_Flag with
  | true =>
    rw [if_pos rfl, Ocall_LocalInsert_delta_index]
    exact ⟨fun _ => Or.inl rfl, fun _ => hfit⟩
  | false =>
    obtain ⟨t, ht, hvec⟩ := Ocall_UpdateDeltaIndex_spec s b.process_buffer
    have hlength : ∀ base, (Table.vec t base).length =
        (Table.vec s.delta_index base).length + (pairsOn b.process_buffer base).length := by
      intro base
      rw [hvec, List.length_append]
    rw [if_neg (by simp), ht]
    constructor
    · intro h
      refine Or.inr fun base => ?_
      rw [← hlength]
      exact h base
    · intro h base
      rw [hlength]
      exact h.resolve_left (by simp) base

theorem Easy_update_pair_fit (h : Stores env (Entry s.indexObj []) (hotOpens s) s R)
    (pass : Passing s) (g : Graph s.indexObj s.sfObj s.delta_index [] [] Lost) {old new : Fp}
    (hwhole : WholeIn s.indexObj old) (hkept : ¬Lost old) (hnwhole : WholeIn s.indexObj new)
    (hnkept : ¬Lost new) (hne : new ≠ old) (hs : Easy_update_pair env old new s = some s')
    (htimes : s'.con_times < 2 ^ 31) (hfit : ListsFit s) :
    ListsFit s' ↔ s.offlineCurrBackup_size = 0 ∨
      (Table.vec s.delta_index new).length + (movers env s old new).length < PROCESS_SLOTS := by
  unfold Easy_update_pair at hs
  by_cases hgreedy : s.offlineCurrBackup_size = 0
  · rw [if_pos hgreedy] at hs
    unfold greedyPair at hs
    obtain ⟨old_recipe, _, hs⟩ := Option.bind_eq_some_iff.mp hs
    obtain ⟨new_recipe, _, hs⟩ := Option.bind_eq_some_iff.mp hs
    rw [← Option.some.inj hs]
    refine ⟨fun _ => Or.inl hgreedy, fun _ base => ?_⟩
    change (Table.vec (s.delta_index.erase old) base).length < PROCESS_SLOTS
    rw [Table.vec_erase]
    split
    · decide
    · exact hfit base
  · rw [if_neg hgreedy] at hs
    obtain ⟨hnew, hrest⟩ := updatePair_lists h pass.writer pass.queue g hwhole hkept hnwhole hnkept
      hne hs htimes
    have hlength : (Table.vec s'.delta_index new).length =
        (Table.vec s.delta_index new).length + (movers env s old new).length := by
      rw [hnew, List.length_append]
    constructor
    · intro h'
      refine Or.inr ?_
      rw [← hlength]
      exact h' new
    · intro hfits base
      by_cases hbase : base = new
      · rw [hbase, hlength]
        exact hfits.resolve_left hgreedy
      · exact Nat.lt_of_le_of_lt (hrest base hbase) (hfit base)

theorem step_fit (hinv : Inv env s R Lost) (hs : step env s a = some s') (hfit : ListsFit s) :
    ListsFit s' ↔ DependentsFit env s a := by
  obtain ⟨hstepped, htimes⟩ := step_stepped hs
  by_cases hbatch : a = .endBatch
  · subst hbatch
    cases hstepped with
    | endBatch hphase _ =>
      unfold DependentsFit
      simp only [hphase]
      exact finishBatch_fit hfit
  by_cases hpair : ∃ old, a = .updatePair old
  · obtain ⟨old, rfl⟩ := hpair
    cases hstepped with
    | @updatePair _ new t hphase hnew ht =>
      obtain ⟨hgraph, hstores, hstage⟩ := hinv.at hphase
      cases hstage with
      | update pass remaining =>
        have hrem : Rem s.local_basemap s.local_map old new := Or.inl hnew
        obtain ⟨hwhole, hkept⟩ := remaining.old hrem
        obtain ⟨hnwhole, hnkept⟩ := remaining.new hrem
        have hiff := Easy_update_pair_fit hstores pass hgraph hwhole hkept hnwhole hnkept
          (remaining.apart hrem hrem) ht htimes hfit
        unfold DependentsFit
        simp only [hnew, Option.mem_def, Option.some.injEq, forall_eq']
        exact hiff
  · have hkeep := hstepped.delta_index hinv hbatch fun old h => hpair ⟨old, h⟩
    have hfree : DependentsFit env s a := by
      cases a with
      | endBatch => exact absurd rfl hbatch
      | updatePair old => exact absurd ⟨old, rfl⟩ hpair
      | _ => trivial
    unfold ListsFit
    rw [hkeep]
    exact ⟨fun _ => hfree, fun _ => hfit⟩

end Steps

section Law
variable {env : EnclaveEnv} {s : Server}

/-- The lists have arrived whole in every state of a run if and only if every step has left room. -/
theorem dependents_transferred {Forward_Flag Offline_Flag : Bool} {acts : List Action}
    (hrun : runs (step env) (Server.start Forward_Flag Offline_Flag) acts = some s) :
    (∀ before after t, acts = before ++ after →
        runs (step env) (Server.start Forward_Flag Offline_Flag) before = some t →
        DependentsTransferred t) ↔
      StepsMeet (step env) (DependentsFit env) (Server.start Forward_Flag Offline_Flag) acts := by
  have hstart : ∃ R Lost, Inv env (Server.start Forward_Flag Offline_Flag) R Lost :=
    ⟨_, _, Inv.start Forward_Flag Offline_Flag⟩
  have hkeep : ∀ {s s' : Server} {a : Action}, (∃ R Lost, Inv env s R Lost) →
      step env s a = some s' → ∃ R Lost, Inv env s' R Lost := by
    rintro s s' a ⟨R, Lost, hinv⟩ hs
    exact hinv.step hs
  have hstep : ∀ {s s' : Server} {a : Action}, (∃ R Lost, Inv env s R Lost) →
      DependentsTransferred s → step env s a = some s' →
        (DependentsTransferred s' ↔ DependentsFit env s a) := by
    rintro s s' a ⟨R, Lost, hinv⟩ htransferred hs
    rw [dependentsTransferred_iff] at htransferred ⊢
    exact step_fit hinv hs htransferred
  have hnone : DependentsTransferred (Server.start Forward_Flag Offline_Flag) := by
    rw [dependentsTransferred_iff]
    intro base
    exact (by decide : 0 < PROCESS_SLOTS)
  exact runs_iff_stepsMeet hkeep hstep hstart hnone hrun

end Law

/-- Twenty-four equal bytes. -/
def plainBase : Bytes := List.replicate 24 1

/-- The base and four bytes more; at 0 the fingerprint is the base's own. -/
def dependentChunk (n : Nat) : Bytes := plainBase ++ le32 (UInt32.ofNat n)

/-- The fingerprint in `plainEnv`. -/
def plainFp (chunk : Bytes) : Fp := FixedBytes.read 32 chunk 0

/-- A session with the base, and one that goes on with `n + 1` dependents. -/
def dependentUploads : Nat → List Action
  | 0 =>
    .startSession (FixedBytes.fill 16 0) :: (uploadOne plainBase ++
      ([.uploadRecipeEnd, .disconnect, .openFile, .writeFile 1000, .closeFile, .join,
        .startSession (FixedBytes.fill 16 0)] ++ uploadOne (dependentChunk 1)))
  | n + 1 => dependentUploads n ++ uploadOne (dependentChunk (n + 2))

theorem dependents_transferred_one : ∃ s,
    runs (step plainEnv) (Server.start true false) (dependentUploads 0) = some s ∧
    s.delta_index.keys = [plainFp plainBase] ∧ DependentsTransferred s := by
  have hrun : ((runs (step plainEnv) (Server.start true false) (dependentUploads 0)).map fun s =>
      s.delta_index.keys) = some [plainFp plainBase] := by
    decide +kernel
  have hfit : StepsMeet (step plainEnv) (DependentsFit plainEnv) (Server.start true false)
      (dependentUploads 0) := by
    decide +kernel
  obtain ⟨s, hs, hkeys⟩ := Option.map_eq_some_iff.mp hrun
  have hall := (dependents_transferred hs).mpr hfit
  exact ⟨s, hs, hkeys, hall (dependentUploads 0) [] s (List.append_nil _).symm hs⟩

/-- The server in the second session, after `n` dependents; the base is in the cache. -/
structure Depending (entry : RecipeEntry) (body : Bytes) (n : Nat) (s : Server) : Prop where
  phase : s.phase = .uploading .ready
  forward : s.Forward_Flag = true
  base : s.indexObj.lookup (plainFp plainBase) = some entry
  query : QuerySF s (FixedBytes.fill 96 0) = some (plainFp plainBase)
  cached : s.inCache.find? (fun c => c.1 = entry.containerName) = some (entry.containerName, body)
  known : ∀ fp ∈ s.indexObj.keys, ∃ m ≤ n, fp = plainFp (dependentChunk m)
  times : s.con_times ≤ n + 5
  list : (Table.vec s.delta_index (plainFp plainBase)).length = n

section Growth
variable {entry : RecipeEntry} {body : Bytes} {s : Server} {n : Nat}

theorem plainFp_injective {m n : Nat} (hm : m < 2 ^ 32) (hn : n < 2 ^ 32)
    (h : plainFp (dependentChunk m) = plainFp (dependentChunk n)) : m = n := by
  have hread : ∀ k, read32 (plainFp (dependentChunk k)).val 24 = UInt32.ofNat k := by
    intro k
    apply read32_of_slice
    have hval : (plainFp (dependentChunk k)).val =
        plainBase ++ (le32 (UInt32.ofNat k) ++ [0, 0, 0, 0]) := rfl
    rw [hval]
    exact slice_mid rfl rfl
  have heq := congrArg (fun fp : Fp => (read32 fp.val 24).toNat) h
  simp only [hread] at heq
  rwa [UInt32.toNat_ofNat', UInt32.toNat_ofNat', Nat.mod_eq_of_lt hm, Nat.mod_eq_of_lt hn] at heq

theorem saveChunk_times (d : Bool) (chunkData : Bytes) (chunkAddr : RecipeEntry)
    (chunksf : SuperFeature) (chunkfp : Fp) (s : Server) :
    (saveChunk d chunkData chunkAddr chunksf chunkfp s).1.con_times ≤ s.con_times + 1 := by
  unfold saveChunk
  dsimp only
  split
  · exact Nat.le_succ _
  · exact Nat.le_refl _

theorem storeChunk_times (env : EnclaveEnv) (x : QueryEntry) (s : Server) :
    (storeChunk env x s).2.2.con_times ≤ s.con_times + 1 := by
  obtain ⟨a, buf, hs'⟩ := storeChunk_server env x s
  obtain ⟨n, heq⟩ := ProcessSheUniqueChunk_eq env a buf x.superfeature x.chunkHash s
  rw [hs', heq]
  exact saveChunk_times _ _ _ _ _ _

/-- A delta that is shorter than its chunk goes to `process_buffer` with its base. -/
theorem storeChunk_pair (env : EnclaveEnv) {x : QueryEntry} (hdelta : x.deltaFlag = DELTA)
    (hshort : (EDeltaEncode env.edelta x.chunk (refChunk env x)).length < x.chunk.length)
    (s : Server) : (storeChunk env x s).2.1 = some (x.basechunkHash, x.chunkHash) ∧
      (storeChunk env x s).1.deltaFlag = DELTA ∧
      (storeChunk env x s).1.chunkHash = x.chunkHash := by
  unfold storeChunk ProcessDeltachunk
  simp only [if_neg (Nat.not_le.mpr hshort), hdelta, if_pos, and_self]

theorem step_of_upload {env : EnclaveEnv} {stage : UploadStage} {a : Action} {t : Server}
    (hphase : s.phase = .uploading stage) (h : stepUpload env s stage a = some t)
    (htimes : t.con_times < 2 ^ 31) : step env s a = some t := by
  unfold step stepAny
  simp only [hphase, h, Option.some_or]
  exact if_pos (decide_eq_true htimes)

/-- What is known of a dependent when its container is about to be loaded. -/
def dependentEntry (entry : RecipeEntry) (n : Nat) : QueryEntry where
  inHash := plainFp (dependentChunk n)
  chunkHash := plainFp (dependentChunk n)
  chunk := dependentChunk n
  dedupFlag := .UNIQUE
  superfeature := FixedBytes.fill 96 0
  deltaFlag := OUT_DELTA
  offlineFlag := false
  basechunkHash := plainFp plainBase
  basechunkAddr := entry
  containerbuffer := []
  chunkAddr := { emptyEntry with basechunkHash := plainFp plainBase }

/-- The query for one chunk that nobody has, where the first similar one is `plainBase`. -/
theorem queryBatch_dependent {chunk : Bytes} (hforward : s.Forward_Flag = true)
    (hbase : s.indexObj.lookup (plainFp plainBase) = some entry)
    (hquery : QuerySF s (FixedBytes.fill 96 0) = some (plainFp plainBase))
    (hnone : s.indexObj.lookup (plainFp chunk) = none) :
    queryBatch plainEnv [chunk] (fun _ => false) (fun _ => emptyEntry) s =
      ⟨false, [{ dependentEntry entry 0 with
        inHash := plainFp chunk
        chunkHash := plainFp chunk
        chunk := chunk }], [], [], []⟩ := by
  obtain ⟨x, hx⟩ : ∃ x : QueryEntry, { dependentEntry entry 0 with
    inHash := plainFp chunk
    chunkHash := plainFp chunk
    chunk := chunk } = x := ⟨_, rfl⟩
  -- the query as it goes out
  obtain ⟨y, hy⟩ : ∃ y : QueryEntry, y = { x with
    deltaFlag := NO_DELTA
    basechunkHash := emptyEntry.basechunkHash
    basechunkAddr := emptyEntry
    chunkAddr := emptyEntry } := ⟨_, rfl⟩
  have hout : outQueries plainEnv (fun _ => false) (fun _ => emptyEntry) 0 [] [chunk] = [y] := by
    rw [hy, ← hx]
    rfl
  have hunique : Ocall_QueryOutIndex s y = y := by
    unfold Ocall_QueryOutIndex
    have hhash : y.chunkHash = plainFp chunk := by rw [hy, ← hx]
    rw [hhash, hnone, hy, ← hx]
    rfl
  have hanswer : Ocall_QueryOutBasechunk s y = x := by
    unfold Ocall_QueryOutBasechunk
    have hsf : y.superfeature = FixedBytes.fill 96 0 := by rw [hy, ← hx]; rfl
    rw [hsf, hquery]
    simp only [hbase, Option.getD_some]
    rw [hy, ← hx]
    rfl
  have hflag : y.dedupFlag = .UNIQUE := by rw [hy, ← hx]; rfl
  rw [hx]
  unfold queryBatch
  rw [hout]
  simp only [List.map_cons, List.map_nil, hunique, List.filter_cons, hflag, decide_true, if_true,
    List.filter_nil, hanswer]
  unfold LocalChecker
  have hname : [x.basechunkAddr.containerName].dedup = [x.basechunkAddr.containerName] := rfl
  have hdelta : x.deltaFlag = OUT_DELTA := by rw [← hx]; rfl
  simp only [hforward, if_true, List.length_singleton, List.filter_cons, hdelta, decide_true,
    List.filter_nil, List.map_cons, List.map_nil, hname]
  rfl

theorem Depending.queried (h : Depending entry body n s) (hn : n + 1 < 2 ^ 32) :
    queryBatch plainEnv [dependentChunk (n + 1)] (fun _ => false) (fun _ => emptyEntry) s =
      ⟨false, [dependentEntry entry (n + 1)], [], [], []⟩ := by
  have hnone : s.indexObj.lookup (plainFp (dependentChunk (n + 1))) = none := by
    rw [AList.lookup_eq_none]
    intro hmem
    obtain ⟨m, hm, heq⟩ := h.known _ hmem
    have := plainFp_injective hn (by omega) heq
    omega
  exact queryBatch_dependent h.forward h.base h.query hnone

/-- The dependent with its base at hand. -/
def loadedEntry (entry : RecipeEntry) (body : Bytes) (n : Nat) : QueryEntry :=
  { dependentEntry entry n with
    containerbuffer := body
    deltaFlag := DELTA }

theorem OfflinedeltaTure_cached (n : Nat)
    (hcached : s.inCache.find? (fun c => c.1 = entry.containerName) =
      some (entry.containerName, body)) :
    OfflinedeltaTure false (dependentEntry entry n) s = (loadedEntry entry body n, none, { s with
      inCache := (entry.containerName, body) ::
        s.inCache.filter fun c => c.1 ≠ entry.containerName }) := by
  have hnever : neverDelta (dependentEntry entry n).inHash = false := rfl
  have hread : ReadFromCache (dependentEntry entry n).basechunkAddr.containerName s =
      some (body, { s with
        inCache := (entry.containerName, body) ::
          s.inCache.filter fun c => c.1 ≠ entry.containerName }) := by
    have hfind : s.inCache.find?
        (fun c => c.1 = (dependentEntry entry n).basechunkAddr.containerName) =
          some (entry.containerName, body) := hcached
    unfold ReadFromCache
    rw [hfind]
    rfl
  unfold OfflinedeltaTure
  rw [hnever, hread]
  rfl

/-- One more dependent, against the base in the cache. -/
theorem Depending.upload (h : Depending entry body n s)
    (hbase : RecoverOneChunk plainEnv (getChunkIV body entry) (getChunkContent body entry) =
      plainBase) (hn : n + 6 < 2 ^ 31) :
    ∃ t, runs (step plainEnv) s (uploadOne (dependentChunk (n + 1))) = some t ∧
      Depending entry body (n + 1) t := by
  have htimes := h.times
  obtain ⟨cache, hcache⟩ : ∃ cache, (entry.containerName, body) ::
    s.inCache.filter (fun c => c.1 ≠ entry.containerName) = cache := ⟨_, rfl⟩
  have hshort : (EDeltaEncode plainEnv.edelta (dependentChunk (n + 1)) plainBase).length <
      (dependentChunk (n + 1)).length := by
    unfold dependentChunk
    rw [EDeltaEncode_appended _ (by decide) (by simp [le32]) (by simp [le32])]
    simp [plainBase, le32]
  obtain ⟨x, hx⟩ : ∃ x, loadedEntry entry body (n + 1) = x := ⟨_, rfl⟩
  obtain ⟨fp, hfp⟩ : ∃ fp, plainFp (dependentChunk (n + 1)) = fp := ⟨_, rfl⟩
  have hchunkHash : x.chunkHash = fp := by rw [← hx, ← hfp]; rfl
  have hbasechunkHash : x.basechunkHash = plainFp plainBase := by rw [← hx]; rfl
  -- the five steps
  let s₁ : Server := { s with
    phase := .uploading (.chunkLoop ⟨false, [dependentEntry entry (n + 1)], [], [], []⟩) }
  let s₂ : Server := { s with
    inCache := cache
    phase := .uploading (.loaded x ⟨false, [], [], [], []⟩) }
  obtain ⟨hpair, hflag, hhash⟩ := @storeChunk_pair plainEnv x (by rw [← hx]; rfl) (by
    rw [← hx]
    unfold refChunk
    change (EDeltaEncode plainEnv.edelta (dependentChunk (n + 1))
      (RecoverOneChunk plainEnv (getChunkIV body entry) (getChunkContent body entry))).length < _
    rw [hbase]
    exact hshort) s₂
  obtain ⟨q, o, times, size, hframe, _⟩ := storeChunk_frame plainEnv x s₂
  have hle := storeChunk_times plainEnv x s₂
  obtain ⟨stored, hstored⟩ : ∃ stored, (storeChunk plainEnv x s₂).1 = stored := ⟨_, rfl⟩
  rw [hframe] at hle
  rw [hchunkHash, hbasechunkHash] at hpair
  rw [hstored] at hflag
  rw [hstored, hchunkHash] at hhash
  let s₃ : Server := { s₂ with
    inputMQ := q
    opened := o
    con_times := times
    iv := PickNewIV s₂.iv
    onlineBackupSize := size
    phase := .uploading (.chunkLoop ⟨false, [], [stored], [(plainFp plainBase, fp)], []⟩) }
  let s₄ : Server := { s₃ with
    delta_index := Table.push s.delta_index (plainFp plainBase) fp
    phase := .uploading (.answered ⟨false, [], [stored], [(plainFp plainBase, fp)], []⟩) }
  let s₅ : Server := { s₄ with
    indexObj := s.indexObj.insert fp stored.chunkAddr
    phase := .uploading .ready }
  have htimes' : times < 2 ^ 31 := by
    change times ≤ s.con_times + 1 at hle
    omega
  have h₁ : step plainEnv s (.uploadChunk [dependentChunk (n + 1)] (fun _ => false)
      fun _ => emptyEntry) = some s₁ := by
    apply step_of_upload h.phase
    · unfold stepUpload
      dsimp only
      rw [h.queried (by omega), if_pos]
      intro chunk hchunk
      rw [List.mem_singleton.mp hchunk]
      have hlen : (dependentChunk (n + 1)).length = 28 := rfl
      rw [hlen]
      decide
    · exact show s.con_times < 2 ^ 31 by omega
  have h₂ : step plainEnv s₁ .offlinedeltaTure = some s₂ := by
    apply step_of_upload rfl
    · unfold stepUpload
      have hload' : OfflinedeltaTure false (dependentEntry entry (n + 1)) s₁ =
          (x, none, { s₁ with inCache := cache }) := by
        rw [← hx, ← hcache]
        exact OfflinedeltaTure_cached (n + 1) h.cached
      simp only [hload']
      rfl
    · exact show s.con_times < 2 ^ 31 by omega
  have h₃ : step plainEnv s₂ .storeChunk = some s₃ := by
    apply step_of_upload rfl
    · unfold stepUpload
      simp only [hframe, hpair, hstored]
      rfl
    · exact htimes'
  have h₄ : step plainEnv s₃ .endBatch = some s₄ := step_of_upload rfl rfl htimes'
  have h₅ : step plainEnv s₄ .updateOutIndex = some s₅ := by
    apply step_of_upload rfl
    · unfold stepUpload
      have hupdate : Ocall_UpdateOutIndex [stored] s₄ = { s₄ with
          indexObj := s.indexObj.insert fp stored.chunkAddr } := by
        unfold Ocall_UpdateOutIndex
        rw [List.foldl_cons, List.foldl_nil]
        unfold updateOutIndexEntry
        simp only [hflag, hhash]
        rw [if_neg fun h => absurd h.1 (by decide)]
        rfl
      simp only [hupdate]
      rfl
    · exact htimes'
  have hne : plainFp plainBase ≠ fp := by
    rw [← hfp]
    intro heq
    have := @plainFp_injective 0 (n + 1) (by decide) (by omega) heq
    omega
  refine ⟨s₅, ?_, ⟨rfl, h.forward, ?_, h.query, ?_, ?_, ?_, ?_⟩⟩
  · unfold uploadOne
    rw [runs_cons]
    refine ⟨s₁, h₁, ?_⟩
    rw [runs_cons]
    refine ⟨s₂, h₂, ?_⟩
    rw [runs_cons]
    refine ⟨s₃, h₃, ?_⟩
    rw [runs_cons]
    refine ⟨s₄, h₄, ?_⟩
    rw [runs_cons]
    exact ⟨s₅, h₅, rfl⟩
  · change AList.lookup (plainFp plainBase) (s.indexObj.insert fp stored.chunkAddr) = _
    rw [Table.lookup_insert_ite, if_neg hne]
    exact h.base
  · change cache.find? _ = _
    rw [← hcache]
    simp
  · intro fp' hfp'
    change fp' ∈ (s.indexObj.insert fp stored.chunkAddr).keys at hfp'
    rw [← AList.mem_keys, AList.mem_insert] at hfp'
    rcases hfp' with rfl | hmem
    · exact ⟨n + 1, Nat.le_refl _, hfp.symm⟩
    · obtain ⟨m, hm, heq⟩ := h.known fp' (AList.mem_keys.mp hmem)
      exact ⟨m, Nat.le_succ_of_le hm, heq⟩
  · change times ≤ s.con_times + 1 at hle
    change times ≤ n + 1 + 5
    omega
  · change (Table.vec (Table.push s.delta_index (plainFp plainBase) fp) (plainFp plainBase)).length
      = _
    rw [Table.vec_push, if_pos rfl, List.length_append, h.list]
    rfl

theorem dependentUploads_depending : ∃ entry body, ∀ n, n + 6 < 2 ^ 31 → ∃ s,
    runs (step plainEnv) (Server.start true false) (dependentUploads n) = some s ∧
      Depending entry body (n + 1) s := by
  have hstart : ∃ entry body s,
      runs (step plainEnv) (Server.start true false) (dependentUploads 0) = some s ∧
        RecoverOneChunk plainEnv (getChunkIV body entry) (getChunkContent body entry) =
          plainBase ∧ Depending entry body 1 s := by
    have heval : ((runs (step plainEnv) (Server.start true false) (dependentUploads 0)).any fun s =>
        match s.indexObj.lookup (plainFp plainBase) with
        | none => false
        | some entry =>
          match s.inCache.find? (fun c => c.1 = entry.containerName) with
          | none => false
          | some (name, body) => decide
            (((s.phase = .uploading .ready ∧ s.Forward_Flag = true ∧
                QuerySF s (FixedBytes.fill 96 0) = some (plainFp plainBase)) ∧
              s.indexObj.keys = [plainFp (dependentChunk 1), plainFp plainBase] ∧
                s.con_times ≤ 6) ∧
              ((Table.vec s.delta_index (plainFp plainBase)).length = 1 ∧
                name = entry.containerName) ∧
              RecoverOneChunk plainEnv (getChunkIV body entry) (getChunkContent body entry) =
                plainBase)) = true := by
      decide +kernel
    obtain ⟨s, hs, htest⟩ := (Option.any_eq_true _ _).mp heval
    cases hentry : s.indexObj.lookup (plainFp plainBase) with
    | none => simp [hentry] at htest
    | some entry =>
      simp only [hentry] at htest
      cases hcached : s.inCache.find? (fun c => c.1 = entry.containerName) with
      | none => simp [hcached] at htest
      | some c =>
        obtain ⟨name, body⟩ := c
        simp only [hcached] at htest
        obtain ⟨⟨⟨hphase, hforward, hquery⟩, hkeys, htimes⟩, ⟨hlist, rfl⟩, hbase⟩ :=
          of_decide_eq_true htest
        refine ⟨entry, body, s, hs, hbase, hphase, hforward, hentry, hquery, hcached, ?_, htimes,
          hlist⟩
        intro fp hfp
        rw [hkeys] at hfp
        rcases List.mem_cons.mp hfp with rfl | hmem
        · exact ⟨1, Nat.le_refl _, rfl⟩
        · exact ⟨0, Nat.zero_le _, List.mem_singleton.mp hmem⟩
  obtain ⟨entry, body, s, hrun, hbase, h⟩ := hstart
  refine ⟨entry, body, fun n => ?_⟩
  induction n with
  | zero => exact fun _ => ⟨s, hrun, h⟩
  | succ n ih =>
    intro hn
    obtain ⟨t, ht, hdep⟩ := ih (by omega)
    obtain ⟨u, hu, hdep'⟩ := hdep.upload hbase (by omega)
    refine ⟨u, ?_, hdep'⟩
    unfold dependentUploads
    exact runs_append.mpr ⟨t, ht, hu⟩

end Growth

/-- After a base, a hundred thousand dependents are stored; the query for them leaves the buffer. -/
theorem dependents_not_transferred : ∃ s,
    runs (step plainEnv) (Server.start true false) (dependentUploads 99999) = some s ∧
    (Table.vec s.delta_index (plainFp plainBase)).length = 100000 ∧
    (∀ process_buffer, queryDependents (plainFp plainBase) s process_buffer = none) ∧
    ¬DependentsTransferred s := by
  obtain ⟨entry, body, hruns⟩ := dependentUploads_depending
  obtain ⟨s, hs, h⟩ := hruns 99999 (by decide)
  have hfull : PROCESS_SLOTS ≤ (Table.vec s.delta_index (plainFp plainBase)).length :=
    Nat.le_of_eq h.list.symm
  refine ⟨s, hs, h.list, fun _ => queryDependents_none hfull, ?_⟩
  rw [dependentsTransferred_iff]
  exact fun hfit => absurd (hfit _) (Nat.not_lt.mpr hfull)

end ShieldReduce.Prototype
