import ShieldReduce.Prototype.Emission

/-!
# How many containers a restore requests

`idNum` grows in the loop of `ProcRecipeBatch` and in the two places that take the pending bases.
The capping test counts the pending bases as if each came with a container of its own, but it comes
after an entry that may add two to the count.
-/

namespace ShieldReduce.Prototype
open Lib Store EDelta

section Number

/-- `containerNumber` of one name after the other. -/
def numberAll (names : List ContainerName) (p : ContainerMap × List ContainerName) :
    ContainerMap × List ContainerName :=
  names.foldl (fun p name => (containerNumber name p.1 p.2).2) p

theorem numberAll_nil (p : ContainerMap × List ContainerName) : numberAll [] p = p := rfl

theorem numberAll_cons (name : ContainerName) (names : List ContainerName)
    (p : ContainerMap × List ContainerName) :
    numberAll (name :: names) p = numberAll names (containerNumber name p.1 p.2).2 := rfl

theorem numberAll_append (names more : List ContainerName) (p : ContainerMap × List ContainerName) :
    numberAll (names ++ more) p = numberAll more (numberAll names p) := List.foldl_append

theorem containerNumber_known {name : ContainerName} {map : ContainerMap}
    {idBuffer : List ContainerName} (h : map.lookup name ≠ none) :
    (containerNumber name map idBuffer).2 = (map, idBuffer) := by
  obtain ⟨id, hid⟩ := Option.ne_none_iff_exists'.mp h
  unfold containerNumber
  rw [hid]

theorem containerNumber_new {name : ContainerName} {map : ContainerMap}
    {idBuffer : List ContainerName} (h : map.lookup name = none) :
    (containerNumber name map idBuffer).2 =
      (map.insert name idBuffer.length, idBuffer ++ [name]) := by
  unfold containerNumber
  rw [h]

theorem numberAll_le (names : List ContainerName) (p : ContainerMap × List ContainerName) :
    p.2.length ≤ (numberAll names p).2.length ∧
      (numberAll names p).2.length ≤ p.2.length + names.length := by
  induction names generalizing p with
  | nil => exact ⟨Nat.le_refl _, Nat.le_refl _⟩
  | cons name names ih =>
    rw [numberAll_cons, List.length_cons]
    obtain ⟨hlow, hhigh⟩ := ih (containerNumber name p.1 p.2).2
    by_cases hname : p.1.lookup name = none
    · rw [containerNumber_new hname] at hlow hhigh ⊢
      rw [List.length_append, List.length_singleton] at hlow hhigh
      exact ⟨by omega, by omega⟩
    · rw [containerNumber_known hname] at hlow hhigh ⊢
      exact ⟨hlow, Nat.le_succ_of_le hhigh⟩

/-- Every name takes a place of its own exactly when all of them are new and distinct. -/
theorem numberAll_full (names : List ContainerName) (p : ContainerMap × List ContainerName) :
    (numberAll names p).2.length = p.2.length + names.length ↔
      names.Nodup ∧ ∀ name ∈ names, p.1.lookup name = none := by
  induction names generalizing p with
  | nil => simp [numberAll_nil]
  | cons name names ih =>
    rw [numberAll_cons, List.length_cons, List.nodup_cons, List.forall_mem_cons]
    by_cases hname : p.1.lookup name = none
    · have hrest := ih (containerNumber name p.1 p.2).2
      rw [containerNumber_new hname] at hrest ⊢
      dsimp only at hrest
      rw [List.length_append, List.length_singleton] at hrest
      have hlookup : (∀ x ∈ names, (p.1.insert name p.2.length).lookup x = none) ↔
          name ∉ names ∧ ∀ x ∈ names, p.1.lookup x = none := by
        constructor
        · intro h
          refine ⟨fun hmem => ?_, fun x hx => ?_⟩
          · have hself := h name hmem
            rw [Table.lookup_insert_ite, if_pos rfl] at hself
            simp at hself
          · have hx' := h x hx
            rw [Table.lookup_insert_ite] at hx'
            split at hx'
            · simp at hx'
            · exact hx'
        · rintro ⟨hmem, h⟩ x hx
          have hne : x ≠ name := fun heq => hmem (heq ▸ hx)
          rw [Table.lookup_insert_ite, if_neg hne, h x hx]
      rw [hlookup] at hrest
      constructor
      · intro h
        obtain ⟨hnodup, hmem, hnew⟩ := hrest.mp (by omega)
        exact ⟨⟨hmem, hnodup⟩, hname, hnew⟩
      · rintro ⟨⟨hmem, hnodup⟩, _, hnew⟩
        have hlen := hrest.mpr ⟨hnodup, hmem, hnew⟩
        omega
    · have hle := (numberAll_le names (containerNumber name p.1 p.2).2).2
      rw [containerNumber_known hname] at hle ⊢
      constructor
      · intro h
        dsimp only at h hle
        omega
      · rintro ⟨_, hnew, _⟩
        exact absurd hnew hname

end Number

section Step
variable (index : Table Fp RecipeEntry)

/-- The numbers of the containers and `idBuffer`. -/
def idsOf (r : Requests × ContainerMap) : ContainerMap × List ContainerName := (r.2, r.1.idBuffer)

/-- The containers of the pending bases. -/
def pendingNames (q : BaseQuery) : List ContainerName :=
  (answersOf index q).map RecipeEntry.containerName

/-- What the entry of the query that the next base is put in will be answered. -/
def nextBase (q : BaseQuery) (basechunkHash : Fp) : RecipeEntry :=
  (index.lookup basechunkHash).getD
    ((Ocall_QueryBaseIndex index q).outQueryBase (if q.queryNum < 5 then q.queryNum else 0)).2

/-- `idNum` at its highest while an entry is processed: after it, or behind the bases that are taken
when the capping value is reached. -/
def entryIdNum (r : Requests × ContainerMap) (e : RecipeEntry) : Nat :=
  let r := collectEntry index r e
  if CONTAINER_CAPPING_VALUE ≤ r.1.idBuffer.length + r.1.baseQuery.queryNum then
    (lastBases index r).1.idBuffer.length
  else r.1.idBuffer.length

/-- A delta reaches the capping value by one too many: there was room for one, and its container,
that of its base and those of the pending bases are all new and distinct. -/
def Overruns (r : Requests × ContainerMap) (e : RecipeEntry) : Prop :=
  e.deltaFlag = DELTA ∧
    r.1.idBuffer.length + r.1.baseQuery.queryNum + 1 = CONTAINER_CAPPING_VALUE ∧
    (e.containerName :: (nextBase index r.1.baseQuery e.basechunkHash).containerName ::
      pendingNames index r.1.baseQuery).Nodup ∧
    ∀ name ∈ e.containerName :: (nextBase index r.1.baseQuery e.basechunkHash).containerName ::
      pendingNames index r.1.baseQuery, r.2.lookup name = none

/-- Between two entries the capping value has not been reached. -/
structure Collecting (r : Requests × ContainerMap) : Prop where
  room : r.1.idBuffer.length + r.1.baseQuery.queryNum < CONTAINER_CAPPING_VALUE
  query : r.1.baseQuery.queryNum ≤ 5

variable {index} {r : Requests × ContainerMap} {e : RecipeEntry}

theorem pendingNames_length (q : BaseQuery) : (pendingNames index q).length = q.queryNum := by
  unfold pendingNames answersOf
  rw [List.length_map, List.length_map, List.length_range]

theorem idsOf_foldl_pushBase (bs : List RecipeEntry) (r : Requests × ContainerMap) :
    idsOf (bs.foldl pushBase r) = numberAll (bs.map RecipeEntry.containerName) (idsOf r) ∧
      (bs.foldl pushBase r).1.baseQuery = r.1.baseQuery := by
  induction bs generalizing r with
  | nil => exact ⟨rfl, rfl⟩
  | cons b bs ih =>
    rw [List.foldl_cons, List.map_cons, numberAll_cons]
    exact ih (pushBase r b)

theorem idsOf_takeBases (r : Requests × ContainerMap) :
    idsOf (takeBases index r) = numberAll (pendingNames index r.1.baseQuery) (idsOf r) ∧
      (takeBases index r).1.baseQuery = Ocall_QueryBaseIndex index r.1.baseQuery :=
  idsOf_foldl_pushBase (answersOf index r.1.baseQuery) _

theorem idsOf_lastBases (r : Requests × ContainerMap) :
    idsOf (lastBases index r) = numberAll (pendingNames index r.1.baseQuery) (idsOf r) := by
  unfold lastBases
  by_cases hq : r.1.baseQuery.queryNum ≠ 0
  · rw [if_pos hq]
    exact (idsOf_takeBases r).1
  · have hnil : pendingNames index r.1.baseQuery = [] := by
      rw [← List.length_eq_zero_iff, pendingNames_length]
      omega
    rw [if_neg hq, hnil]
    rfl

theorem pendingNames_ask (q : BaseQuery) (basechunkHash : Fp) :
    pendingNames index (q.ask basechunkHash) = pendingNames index q ++
      [((index.lookup basechunkHash).getD (q.outQueryBase q.queryNum).2).containerName] := by
  have hlast : ((Ocall_QueryBaseIndex index (q.ask basechunkHash)).outQueryBase q.queryNum).2 =
      (index.lookup basechunkHash).getD (q.outQueryBase q.queryNum).2 := by
    unfold Ocall_QueryBaseIndex BaseQuery.ask
    dsimp only
    rw [if_pos (Nat.lt_succ_self _), Function.update_self]
  have hbefore : ∀ i < q.queryNum,
      (Ocall_QueryBaseIndex index (q.ask basechunkHash)).outQueryBase i =
        (Ocall_QueryBaseIndex index q).outQueryBase i := by
    intro i hi
    unfold Ocall_QueryBaseIndex BaseQuery.ask
    dsimp only
    rw [if_pos (Nat.lt_succ_of_lt hi), if_pos hi, Function.update_of_ne (Nat.ne_of_lt hi)]
  unfold pendingNames answersOf
  change (((List.range (q.queryNum + 1)).map _).map _) = _
  rw [List.range_succ, List.map_append, List.map_append, List.map_singleton, List.map_singleton,
    hlast]
  congr 2
  apply List.map_congr_left
  intro i hi
  rw [hbefore i (List.mem_range.mp hi)]

theorem collectEntry_base (hflag : e.deltaFlag ≠ DELTA) (r : Requests × ContainerMap) :
    idsOf (collectEntry index r e) = numberAll [e.containerName] (idsOf r) ∧
      (collectEntry index r e).1.baseQuery = r.1.baseQuery := by
  unfold collectEntry
  rw [if_neg hflag]
  exact ⟨rfl, rfl⟩

/-- The containers that a delta and the pending bases stand in, in the order they are numbered. -/
theorem collectEntry_delta (hflag : e.deltaFlag = DELTA) (hquery : r.1.baseQuery.queryNum ≤ 5) :
    ∃ names, (names ++ pendingNames index (collectEntry index r e).1.baseQuery).Perm
        (e.containerName :: (nextBase index r.1.baseQuery e.basechunkHash).containerName ::
          pendingNames index r.1.baseQuery) ∧
      idsOf (collectEntry index r e) = numberAll names (idsOf r) ∧
      (collectEntry index r e).1.baseQuery.queryNum ≤ 5 := by
  unfold collectEntry askBase nextBase
  rw [if_pos hflag]
  by_cases hlt : r.1.baseQuery.queryNum < 5
  · rw [if_pos hlt, if_pos hlt]
    refine ⟨[e.containerName], ?_, rfl, ?_⟩
    · dsimp only
      rw [pendingNames_ask]
      have hslot : (Ocall_QueryBaseIndex index r.1.baseQuery).outQueryBase r.1.baseQuery.queryNum =
          r.1.baseQuery.outQueryBase r.1.baseQuery.queryNum := by
        unfold Ocall_QueryBaseIndex
        dsimp only
        rw [if_neg (Nat.lt_irrefl _)]
      rw [hslot]
      exact (List.perm_append_singleton _ _).cons _
    · change r.1.baseQuery.queryNum + 1 ≤ 5
      omega
  · -- the five pending bases are taken before the entry's own container
    obtain ⟨hids, hbase⟩ := @idsOf_takeBases index r
    rw [if_neg hlt, if_pos (by omega), if_neg hlt]
    refine ⟨pendingNames index r.1.baseQuery ++ [e.containerName], ?_, ?_, ?_⟩
    · dsimp only
      have hnone : pendingNames index
          { (takeBases index r).1.baseQuery with queryNum := 0 } = [] := rfl
      rw [pendingNames_ask, hnone, List.nil_append, hbase, List.append_assoc, List.singleton_append]
      exact List.perm_append_comm
    · rw [numberAll_append, ← hids]
      rfl
    · exact (by decide : 0 + 1 ≤ 5)

theorem entryIdNum_eq (r : Requests × ContainerMap) (e : RecipeEntry) :
    entryIdNum index r e =
      if CONTAINER_CAPPING_VALUE ≤ (idsOf (collectEntry index r e)).2.length +
          (collectEntry index r e).1.baseQuery.queryNum then
        (numberAll (pendingNames index (collectEntry index r e).1.baseQuery)
          (idsOf (collectEntry index r e))).2.length
      else (idsOf (collectEntry index r e)).2.length := by
  rw [← idsOf_lastBases]
  rfl

theorem entryIdNum_base (h : Collecting r) (hflag : e.deltaFlag ≠ DELTA) :
    entryIdNum index r e ≤ CONTAINER_CAPPING_VALUE := by
  obtain ⟨hids, hbase⟩ := @collectEntry_base index e hflag r
  have hroom := h.room
  have hfirst := (numberAll_le [e.containerName] (idsOf r)).2
  have hmore := (numberAll_le (pendingNames index r.1.baseQuery)
    (numberAll [e.containerName] (idsOf r))).2
  change _ ≤ r.1.idBuffer.length + 1 at hfirst
  rw [pendingNames_length] at hmore
  rw [entryIdNum_eq, hids, hbase]
  split
  · omega
  · omega

/-- A delta overruns exactly when all the names that it brings to be numbered take a place. -/
theorem overruns_iff (hflag : e.deltaFlag = DELTA) {names : List ContainerName}
    (hperm : names.Perm (e.containerName ::
      (nextBase index r.1.baseQuery e.basechunkHash).containerName ::
        pendingNames index r.1.baseQuery)) :
    Overruns index r e ↔
      r.1.idBuffer.length + r.1.baseQuery.queryNum + 1 = CONTAINER_CAPPING_VALUE ∧
        (numberAll names (idsOf r)).2.length =
          r.1.idBuffer.length + r.1.baseQuery.queryNum + 2 := by
  have hlen := hperm.length_eq
  rw [List.length_cons, List.length_cons, pendingNames_length] at hlen
  have hfull := numberAll_full names (idsOf r)
  have hsum : (idsOf r).2.length + names.length =
      r.1.idBuffer.length + r.1.baseQuery.queryNum + 2 := by
    change r.1.idBuffer.length + _ = _
    omega
  have hnew : (∀ name ∈ names, (idsOf r).1.lookup name = none) ↔
      ∀ name ∈ e.containerName :: (nextBase index r.1.baseQuery e.basechunkHash).containerName ::
        pendingNames index r.1.baseQuery, r.2.lookup name = none := by
    apply forall_congr'
    intro name
    rw [hperm.mem_iff]
    rfl
  rw [hsum, hperm.nodup_iff, hnew] at hfull
  unfold Overruns
  rw [hfull]
  exact and_iff_right hflag

theorem entryIdNum_delta (h : Collecting r) (hflag : e.deltaFlag = DELTA) :
    entryIdNum index r e ≤ CONTAINER_CAPPING_VALUE ↔ ¬Overruns index r e := by
  obtain ⟨names, hperm, hids, _⟩ := @collectEntry_delta index r e hflag h.query
  have hroom := h.room
  have hlen := hperm.length_eq
  have hfirst := (numberAll_le names (idsOf r)).2
  have hmore := (numberAll_le (pendingNames index (collectEntry index r e).1.baseQuery)
    (numberAll names (idsOf r))).2
  have hids' : (idsOf r).2.length = r.1.idBuffer.length := rfl
  rw [List.length_append, List.length_cons, List.length_cons, pendingNames_length,
    pendingNames_length] at hlen
  rw [pendingNames_length] at hmore
  rw [entryIdNum_eq, overruns_iff hflag hperm, hids, numberAll_append]
  split
  · omega
  · omega

/-- One entry keeps `idNum` within the capping value unless it overruns it. -/
theorem entryIdNum_le (h : Collecting r) :
    entryIdNum index r e ≤ CONTAINER_CAPPING_VALUE ↔ ¬Overruns index r e := by
  by_cases hflag : e.deltaFlag = DELTA
  · exact entryIdNum_delta h hflag
  · exact iff_of_true (entryIdNum_base h hflag) fun hover => hflag hover.1

end Step

section Run
variable (env : EnclaveEnv) (crypto : RecipeCrypto) (index : Table Fp RecipeEntry)
  (load : ContainerName → Bytes) (sendChunkBatchSize : Nat)

/-- The entries of a batch, each with what has been collected before it. -/
def batchSteps : (Requests × ContainerMap) × RestoreBuffer → List RecipeEntry →
    List ((Requests × ContainerMap) × RecipeEntry)
  | _, [] => []
  | st, e :: es =>
    (st.1, e) :: batchSteps (procEntry env crypto index load sendChunkBatchSize st e) es

/-- The entries of all `ProcRecipeBatch` calls. -/
def restoreSteps (value : RecipeEntry) : Restore → List (List Fp) →
    List ((Requests × ContainerMap) × RecipeEntry)
  | _, [] => []
  | s, recipe :: rest =>
    batchSteps env crypto index load sendChunkBatchSize ((s.requests, ∅), s.buffer)
        (Ocall_ReadIndexStoreBatch index value (recipe.map env.IndexAESCMCEnc)) ++
      restoreSteps value
        (ProcRecipeBatch env crypto index load sendChunkBatchSize value s recipe) rest

/-- `idNum` at its highest in `ProcRecipeTailBatch`. -/
def tailIdNum (s : Restore) : Nat :=
  if s.requests.enclaveRecipeBuffer.length ≠ 0 then
    (lastBases index (s.requests, ∅)).1.idBuffer.length
  else s.requests.idBuffer.length

variable {env crypto index load sendChunkBatchSize}

theorem procEntry_collecting {st : (Requests × ContainerMap) × RestoreBuffer} {e : RecipeEntry}
    (h : Collecting st.1) : Collecting (procEntry env crypto index load sendChunkBatchSize st e).1 := by
  have hquery : (collectEntry index st.1 e).1.baseQuery.queryNum ≤ 5 := by
    by_cases hflag : e.deltaFlag = DELTA
    · obtain ⟨_, _, _, hquery⟩ := @collectEntry_delta index st.1 e hflag h.query
      exact hquery
    · rw [(@collectEntry_base index e hflag st.1).2]
      exact h.query
  unfold procEntry capping
  split
  · exact ⟨(by decide : 0 < CONTAINER_CAPPING_VALUE), Nat.zero_le _⟩
  · next hless => exact ⟨Nat.lt_of_not_le hless, hquery⟩

theorem batchSteps_collecting {st : (Requests × ContainerMap) × RestoreBuffer}
    (es : List RecipeEntry) (h : Collecting st.1) :
    (∀ p ∈ batchSteps env crypto index load sendChunkBatchSize st es, Collecting p.1) ∧
      Collecting (es.foldl (procEntry env crypto index load sendChunkBatchSize) st).1 := by
  induction es generalizing st with
  | nil => exact ⟨by simp [batchSteps], h⟩
  | cons e es ih =>
    obtain ⟨hsteps, hend⟩ :=
      ih (@procEntry_collecting env crypto index load sendChunkBatchSize st e h)
    refine ⟨?_, hend⟩
    unfold batchSteps
    exact List.forall_mem_cons.mpr ⟨h, hsteps⟩

/-- Whatever `tmpContainerMap` the next call starts with. -/
theorem Collecting.fresh {r : Requests} {map : ContainerMap} (h : Collecting (r, map)) :
    Collecting (r, ∅) :=
  ⟨h.room, h.query⟩

theorem restoreSteps_collecting (value : RecipeEntry) {s : Restore} (recipes : List (List Fp))
    (h : Collecting (s.requests, ∅)) :
    (∀ p ∈ restoreSteps env crypto index load sendChunkBatchSize value s recipes, Collecting p.1) ∧
      Collecting ((recipes.foldl
        (ProcRecipeBatch env crypto index load sendChunkBatchSize value) s).requests, ∅) := by
  induction recipes generalizing s with
  | nil => exact ⟨by simp [restoreSteps], h⟩
  | cons recipe rest ih =>
    obtain ⟨hbatch, hend⟩ :=
      @batchSteps_collecting env crypto index load sendChunkBatchSize ((s.requests, ∅), s.buffer)
        (Ocall_ReadIndexStoreBatch index value (recipe.map env.IndexAESCMCEnc)) h
    obtain ⟨hrest, hlast⟩ := @ih
      (ProcRecipeBatch env crypto index load sendChunkBatchSize value s recipe) hend.fresh
    refine ⟨?_, hlast⟩
    unfold restoreSteps
    intro p hp
    rcases List.mem_append.mp hp with hp | hp
    · exact hbatch p hp
    · exact hrest p hp

/-- The pending bases at the end were counted when the capping value was tested. -/
theorem tailIdNum_le {s : Restore} (h : Collecting (s.requests, ∅)) :
    tailIdNum index s ≤ CONTAINER_CAPPING_VALUE := by
  have hroom := h.room
  dsimp only at hroom
  unfold tailIdNum
  split
  · have hlast := congrArg (fun p => p.2.length) (@idsOf_lastBases index (s.requests, ∅))
    change (lastBases index (s.requests, ∅)).1.idBuffer.length = _ at hlast
    have hle := (numberAll_le (pendingNames index s.requests.baseQuery)
      (idsOf (s.requests, ∅))).2
    rw [pendingNames_length] at hle
    rw [hlast]
    exact Nat.le_trans hle (Nat.le_of_lt hroom)
  · omega

end Run

section Overrun

/-- `idBuffer` holds every container that a restore requests exactly when no delta overruns the
capping value. -/
theorem restore_idBuffer_iff (env : EnclaveEnv) (crypto : RecipeCrypto)
    (index : Table Fp RecipeEntry) (load : ContainerName → Bytes) (sendChunkBatchSize : Nat)
    (value : RecipeEntry) (outQueryBase : Nat → Fp × RecipeEntry) (recipes : List (List Fp)) :
    ((∀ p ∈ restoreSteps env crypto index load sendChunkBatchSize value
          (startRestore outQueryBase) recipes,
        entryIdNum index p.1 p.2 ≤ CONTAINER_CAPPING_VALUE) ∧
      tailIdNum index (recipes.foldl
          (ProcRecipeBatch env crypto index load sendChunkBatchSize value)
          (startRestore outQueryBase)) ≤ CONTAINER_CAPPING_VALUE) ↔
      ∀ p ∈ restoreSteps env crypto index load sendChunkBatchSize value
        (startRestore outQueryBase) recipes, ¬Overruns index p.1 p.2 := by
  have hstart : Collecting ((startRestore outQueryBase).requests, ∅) :=
    ⟨(by decide : 0 < CONTAINER_CAPPING_VALUE), Nat.zero_le _⟩
  obtain ⟨hsteps, hend⟩ := @restoreSteps_collecting env crypto index load sendChunkBatchSize value
    (startRestore outQueryBase) recipes hstart
  constructor
  · rintro ⟨hfits, _⟩ p hp
    exact (entryIdNum_le (hsteps p hp)).mp (hfits p hp)
  · intro hover
    exact ⟨fun p hp => (entryIdNum_le (hsteps p hp)).mpr (hover p hp), tailIdNum_le hend⟩

/-- Fifteen chunks in as many containers, and a delta in another one with its base in yet another. -/
def cappingIndex : Table Fp RecipeEntry :=
  (List.range 17).foldl (fun index i =>
    let x := UInt8.ofNat i
    index.insert (FixedBytes.fill 32 x)
      ⟨FixedBytes.fill 7 x, if i = 15 then DELTA else NO_DELTA, 0, 1, FixedBytes.fill 32 16,
        FixedBytes.fill 96 0⟩) ∅

def cappingRecipe : List Fp := (List.range 16).map fun i => FixedBytes.fill 32 (UInt8.ofNat i)

theorem restore_idBuffer_overrun :
    ∃ p ∈ restoreSteps plainEnv xorCrypto cappingIndex pairLoad 128 emptyEntry
        (startRestore fun _ => (FixedBytes.fill 32 0, emptyEntry)) [cappingRecipe],
      CONTAINER_CAPPING_VALUE < entryIdNum cappingIndex p.1 p.2 := by
  decide +kernel

end Overrun

end ShieldReduce.Prototype
