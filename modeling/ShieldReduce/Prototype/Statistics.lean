import ShieldReduce.Lib.Totals
import ShieldReduce.Prototype.DeltaDepth

/-!
# The chunk statistics

The counters of base and delta chunks, which `EnclaveBase` and `OFFLineBackward` both have, through
the sessions of a server lifetime. `ProcessOffline` copies them from the first to the second,
`Ecall_UpdateOnlineInfo` at the end of every session back.
-/

namespace ShieldReduce.Prototype
open Lib Store EDelta

section Model

/-- `_baseChunkNum` is signed and stays far from the ends of its range. -/
structure ChunkStatistics where
  baseChunkNum : Int
  baseDataSize : UInt64
  deltaChunkNum : UInt64
  deltaDataSize : UInt64
deriving DecidableEq

def ChunkStatistics.zero : ChunkStatistics := ⟨0, 0, 0, 0⟩

/-- The chunk loop of `ProcessOneBatch` after `ProcessSheUniqueChunk`. -/
def countChunk (chunkAddr : RecipeEntry) (c : ChunkStatistics) : ChunkStatistics :=
  if chunkAddr.deltaFlag = DELTA then
    { c with
      deltaChunkNum := c.deltaChunkNum + 1
      deltaDataSize := c.deltaDataSize + chunkAddr.length.toUInt64 }
  else if chunkAddr.deltaFlag = NO_DELTA then
    { c with
      baseChunkNum := c.baseChunkNum + 1
      baseDataSize := c.baseDataSize + chunkAddr.length.toUInt64 }
  else c

/-- `ed3_encode_buffer` hands the size of a delta over as a `uint32_t`. -/
def encodedSize (new_delta : Bytes) : UInt64 := (UInt32.ofNat new_delta.length).toUInt64

variable (env : EnclaveEnv)

/-- The counters in `GetNew_deltachunk`. -/
def countDependent (old_chunk new_chunk : Bytes) (deltaHash : Fp) (s : Server)
    (c : ChunkStatistics) : Option ChunkStatistics := do
  let delta_recipe ← s.indexObj.lookup deltaHash
  let s ← Ocall_OneDeltaContainer delta_recipe.containerName s
  let delta_container := s.tmpOcallcontainer
  let delta_chunk_content := env.DecryptionWithKeyIV (getChunkIV delta_container delta_recipe)
    (getChunkContent delta_container delta_recipe)
  let old_unique_chunk := EDeltaDecode delta_chunk_content old_chunk
  let new_delta_chunk := EDeltaEncode env.edelta old_unique_chunk new_chunk
  if old_unique_chunk.length < new_delta_chunk.length then return c
  else
    return { c with
      deltaDataSize :=
        c.deltaDataSize - delta_recipe.length.toUInt64 + encodedSize new_delta_chunk }

def countDependents (old_chunk new_chunk : Bytes) (newBase : Fp) :
    List Fp → Server → ChunkStatistics → Option ChunkStatistics
  | [], _, c => some c
  | deltaHash :: rest, s, c => do
    let c ← countDependent env old_chunk new_chunk deltaHash s c
    let (s, _) ← updateDependent env old_chunk new_chunk newBase deltaHash s
    countDependents old_chunk new_chunk newBase rest s c

/-- The counters of the old base; they do not ask for `delta_flag`. -/
def countOldBase (old_recipe : RecipeEntry) (old_chunk new_chunk : Bytes) (c : ChunkStatistics) :
    ChunkStatistics :=
  let new_delta := EDeltaEncode env.edelta old_chunk new_chunk
  if old_chunk.length < new_delta.length then c
  else
    { baseChunkNum := c.baseChunkNum - 1
      baseDataSize := c.baseDataSize - old_recipe.length.toUInt64
      deltaChunkNum := c.deltaChunkNum + 1
      deltaDataSize := c.deltaDataSize + encodedSize new_delta }

/-- The counters along `updatePair`. -/
def countPair (old new : Fp) (s : Server) (c : ChunkStatistics) : Option ChunkStatistics := do
  let old_recipe ← s.indexObj.lookup old
  match Ocall_OneContainer old_recipe.containerName s with
  | none => return c
  | some s =>
    let old_container := s.tmpOcallcontainer
    let s := EraseSF s old_recipe.superfeature
    let new_recipe ← s.indexObj.lookup new
    match Ocall_OneContainer new_recipe.containerName s with
    | none => return c
    | some s =>
      let new_container := s.tmpOcallcontainer
      let s := ReplaceSF s new_recipe.superfeature new
      let old_chunk := offlineExpand env (getChunkIV old_container old_recipe)
        (getChunkContent old_container old_recipe)
      let new_chunk := offlineExpand env (getChunkIV new_container new_recipe)
        (getChunkContent new_container new_recipe)
      let (dependents, s) := QueryDeltaIndex s old
      let c ← countDependents env old_chunk new_chunk new dependents s c
      return countOldBase env old_recipe old_chunk new_chunk c

/-- The counters along `Easy_update_pair`. -/
def count_Easy_update_pair (old new : Fp) (s : Server) (c : ChunkStatistics) :
    Option ChunkStatistics :=
  if s.offlineCurrBackup_size = 0 then some c else countPair env old new s c

inductive OptType
  | UPLOAD_OPT
  | OFFLINE_OPT
deriving DecidableEq

/-- `passed`: `ProcessOff` has been called. -/
inductive SessionStage
  | closed
  | running (optType : OptType) (passed : Bool)
deriving DecidableEq

/-- The counters of `EnclaveBase` are `online`, those of `OFFLineBackward` are `offline`. -/
structure Accounted where
  server : Server
  online : ChunkStatistics
  offline : ChunkStatistics
  session : SessionStage

/-- What happens between two calls of `ServerOptThread::Run`, and inside one. -/
inductive SessionEvent
  | accept (optType : OptType) (iv : IV)
  | server (a : Action)
  | updateOnlineInfo

/-- A step of the server, with the counters it moves. -/
def accountStep (c : Accounted) (a : Action) : Option Accounted := do
  let s ← step env c.server a
  match a, c.server.phase with
  | .storeChunk, .uploading (.loaded x _) =>
    return { c with
      server := s
      online := countChunk (storeChunk env x c.server).1.chunkAddr c.online }
  | .updatePair old, _ =>
    let new ← c.server.local_basemap.lookup old
    let offline ← count_Easy_update_pair env old new c.server c.offline
    return { c with server := s, offline := offline }
  | _, _ => return { c with server := s }

/-- One session after the other; only one of `OFFLINE_OPT` has a pass, and that is its end. -/
def stepAccounted (c : Accounted) : SessionEvent → Option Accounted
  | .accept optType iv =>
    if c.session = .closed then
      (step env c.server (.startSession iv)).map fun s =>
        { c with server := s, session := .running optType false }
    else none
  | .server (.startSession _) => none
  | .server (.processOff order) =>
    if c.session = .running .OFFLINE_OPT false then
      (step env c.server (.processOff order)).map fun s =>
        { c with server := s, offline := c.online, session := .running .OFFLINE_OPT true }
    else none
  | .server a => accountStep env c a
  | .updateOnlineInfo =>
    if (c.session = .running .UPLOAD_OPT false ∨ c.session = .running .OFFLINE_OPT true) ∧
      c.server.phase = .idle then
      some { c with online := c.offline, session := .closed }
    else none

def Accounted.start (Forward_Flag Offline_Flag : Bool) : Accounted :=
  ⟨Server.start Forward_Flag Offline_Flag, .zero, .zero, .closed⟩

/-- The entries of the FP index with the flag. -/
def entriesOf (flag : UInt8) (indexObj : FpIndex) : List (Sigma fun _ : Fp => RecipeEntry) :=
  indexObj.entries.filter fun p => p.2.deltaFlag = flag

/-- The sizes wrap around at `2 ^ 64`. -/
structure StatisticsMatch (c : ChunkStatistics) (indexObj : FpIndex) : Prop where
  baseChunkNum : c.baseChunkNum = (entriesOf NO_DELTA indexObj).length
  baseDataSize : c.baseDataSize =
    UInt64.ofNat ((entriesOf NO_DELTA indexObj).map fun p => p.2.length.toNat).sum
  deltaChunkNum : c.deltaChunkNum = UInt64.ofNat (entriesOf DELTA indexObj).length
  deltaDataSize : c.deltaDataSize =
    UInt64.ofNat ((entriesOf DELTA indexObj).map fun p => p.2.length.toNat).sum

end Model

/-- What the statistics see of an entry: its flag and its length. -/
abbrev Shape : Type := UInt8 × UInt32

def shape (e : RecipeEntry) : Shape := (e.deltaFlag, e.length)

/-- The sum over the entries of the FP index and over the stored chunks that await it. -/
def tally (indexObj : FpIndex) (done : List QueryEntry) (f : Shape → Nat) : Nat :=
  Table.total (fun e => f (shape e)) indexObj + (done.map fun x => f (shape x.chunkAddr)).sum

theorem tally_nil (indexObj : FpIndex) (f : Shape → Nat) :
    tally indexObj [] f = Table.total (fun e => f (shape e)) indexObj := by
  unfold tally
  rw [List.map_nil, List.sum_nil, Nat.add_zero]

def oneOf (flag : UInt8) (p : Shape) : Nat := if p.1 = flag then 1 else 0

def bytesOf (flag : UInt8) (p : Shape) : Nat := if p.1 = flag then p.2.toNat else 0

structure Agrees (c : ChunkStatistics) (sum : (Shape → Nat) → Nat) : Prop where
  baseChunkNum : c.baseChunkNum = sum (oneOf NO_DELTA)
  baseDataSize : c.baseDataSize = UInt64.ofNat (sum (bytesOf NO_DELTA))
  deltaChunkNum : c.deltaChunkNum = UInt64.ofNat (sum (oneOf DELTA))
  deltaDataSize : c.deltaDataSize = UInt64.ofNat (sum (bytesOf DELTA))

section Agrees
variable {c : ChunkStatistics} {sum sum' : (Shape → Nat) → Nat}

theorem Agrees.congr (h : Agrees c sum) (hsum : ∀ f, sum' f = sum f) : Agrees c sum' := by
  have heq : sum' = sum := funext hsum
  rw [heq]
  exact h

theorem toUInt64_ofNat (l : UInt32) : l.toUInt64 = UInt64.ofNat l.toNat := by
  apply UInt64.toNat_inj.mp
  have hl := l.toNat_lt
  rw [UInt32.toNat_toUInt64, UInt64.toNat_ofNat', Nat.mod_eq_of_lt (by omega)]

theorem delta_ne : NO_DELTA ≠ DELTA := by decide

theorem Agrees.delta (h : Agrees c sum) {l : UInt32}
    (hsum : ∀ f, sum' f = sum f + f (DELTA, l)) :
    Agrees { c with
      deltaChunkNum := c.deltaChunkNum + 1
      deltaDataSize := c.deltaDataSize + l.toUInt64 } sum' := by
  refine ⟨?_, ?_, ?_, ?_⟩
  · rw [hsum]
    change c.baseChunkNum = _
    rw [h.baseChunkNum]
    rfl
  · rw [hsum]
    exact h.baseDataSize
  · rw [hsum, UInt64.ofNat_add, ← h.deltaChunkNum]
    rfl
  · rw [hsum, UInt64.ofNat_add, ← h.deltaDataSize, toUInt64_ofNat]
    rfl

theorem Agrees.base (h : Agrees c sum) {l : UInt32}
    (hsum : ∀ f, sum' f = sum f + f (NO_DELTA, l)) :
    Agrees { c with
      baseChunkNum := c.baseChunkNum + 1
      baseDataSize := c.baseDataSize + l.toUInt64 } sum' := by
  refine ⟨?_, ?_, ?_, ?_⟩
  · have hnum : sum' (oneOf NO_DELTA) = sum (oneOf NO_DELTA) + 1 := hsum (oneOf NO_DELTA)
    change c.baseChunkNum + 1 = _
    rw [hnum, h.baseChunkNum]
    rfl
  · rw [hsum, UInt64.ofNat_add, ← h.baseDataSize, toUInt64_ofNat]
    rfl
  · rw [hsum]
    exact h.deltaChunkNum
  · rw [hsum]
    exact h.deltaDataSize

/-- A stored chunk. -/
theorem Agrees.countChunk (h : Agrees c sum) {a : RecipeEntry}
    (hflag : a.deltaFlag = NO_DELTA ∨ a.deltaFlag = DELTA)
    (hsum : ∀ f, sum' f = sum f + f (shape a)) : Agrees (countChunk a c) sum' := by
  unfold Prototype.countChunk
  unfold shape at hsum
  rcases hflag with hflag | hflag
  · rw [hflag] at hsum ⊢
    rw [if_neg delta_ne, if_pos rfl]
    exact h.base hsum
  · rw [hflag] at hsum ⊢
    rw [if_pos rfl]
    exact h.delta hsum

theorem ofNat_replace {a b l l' : Nat} (h : b + l = a + l') :
    UInt64.ofNat a - UInt64.ofNat l + UInt64.ofNat l' = UInt64.ofNat b := by
  have hcast : UInt64.ofNat b + UInt64.ofNat l = UInt64.ofNat a + UInt64.ofNat l' := by
    rw [← UInt64.ofNat_add, h, UInt64.ofNat_add]
  grind

/-- A delta in the place of a delta. -/
theorem Agrees.redelta (h : Agrees c sum) {l l' : UInt32}
    (hsum : ∀ f, sum' f + f (DELTA, l) = sum f + f (DELTA, l')) :
    Agrees { c with deltaDataSize := c.deltaDataSize - l.toUInt64 + l'.toUInt64 } sum' := by
  refine ⟨?_, ?_, ?_, ?_⟩
  · have hnum : sum' (oneOf NO_DELTA) = sum (oneOf NO_DELTA) := hsum (oneOf NO_DELTA)
    rw [hnum]
    exact h.baseChunkNum
  · have hsize : sum' (bytesOf NO_DELTA) = sum (bytesOf NO_DELTA) := hsum (bytesOf NO_DELTA)
    rw [hsize]
    exact h.baseDataSize
  · have hnum : sum' (oneOf DELTA) = sum (oneOf DELTA) := Nat.add_right_cancel (hsum (oneOf DELTA))
    rw [hnum]
    exact h.deltaChunkNum
  · change c.deltaDataSize - _ + _ = _
    rw [h.deltaDataSize, toUInt64_ofNat, toUInt64_ofNat]
    exact ofNat_replace (hsum (bytesOf DELTA))

/-- A delta in the place of a base chunk. -/
theorem Agrees.rebase (h : Agrees c sum) {l l' : UInt32}
    (hsum : ∀ f, sum' f + f (NO_DELTA, l) = sum f + f (DELTA, l')) :
    Agrees
      { baseChunkNum := c.baseChunkNum - 1
        baseDataSize := c.baseDataSize - l.toUInt64
        deltaChunkNum := c.deltaChunkNum + 1
        deltaDataSize := c.deltaDataSize + l'.toUInt64 } sum' := by
  refine ⟨?_, ?_, ?_, ?_⟩
  · have hnum : sum' (oneOf NO_DELTA) + 1 = sum (oneOf NO_DELTA) := hsum (oneOf NO_DELTA)
    change c.baseChunkNum - 1 = _
    rw [h.baseChunkNum, ← hnum]
    omega
  · have hsize : sum' (bytesOf NO_DELTA) + l.toNat = sum (bytesOf NO_DELTA) :=
      hsum (bytesOf NO_DELTA)
    change c.baseDataSize - _ = _
    rw [h.baseDataSize, toUInt64_ofNat, ← hsize, UInt64.ofNat_add]
    grind
  · have hnum : sum' (oneOf DELTA) = sum (oneOf DELTA) + 1 := hsum (oneOf DELTA)
    rw [hnum, UInt64.ofNat_add, ← h.deltaChunkNum]
    rfl
  · have hsize : sum' (bytesOf DELTA) = sum (bytesOf DELTA) + l'.toNat := hsum (bytesOf DELTA)
    rw [hsize, UInt64.ofNat_add, ← h.deltaDataSize, toUInt64_ofNat l']

/-- Sums that agree with the index alone are what the statistics should be. -/
theorem Agrees.statisticsMatch {indexObj : FpIndex} (h : Agrees c (tally indexObj [])) :
    StatisticsMatch c indexObj := by
  have hone : ∀ flag, tally indexObj [] (oneOf flag) = (entriesOf flag indexObj).length := by
    intro flag
    unfold entriesOf
    rw [← Table.total_count fun e : RecipeEntry => decide (e.deltaFlag = flag)]
    rw [tally_nil]
    congr 1
    funext e
    by_cases hflag : e.deltaFlag = flag
    · simp [oneOf, shape, hflag]
    · simp [oneOf, shape, hflag]
  have hbytes : ∀ flag, tally indexObj [] (bytesOf flag) =
      ((entriesOf flag indexObj).map fun p => p.2.length.toNat).sum := by
    intro flag
    unfold entriesOf
    rw [← Table.total_sum (fun e : RecipeEntry => decide (e.deltaFlag = flag))
      fun e => e.length.toNat]
    rw [tally_nil]
    congr 1
    funext e
    by_cases hflag : e.deltaFlag = flag
    · simp [bytesOf, shape, hflag]
    · simp [bytesOf, shape, hflag]
  refine ⟨?_, ?_, ?_, ?_⟩
  · rw [← hone]
    exact h.baseChunkNum
  · rw [← hbytes]
    exact h.baseDataSize
  · rw [← hone]
    exact h.deltaChunkNum
  · rw [← hbytes]
    exact h.deltaDataSize

end Agrees
section Tally
variable {indexObj : FpIndex} {f : Shape → Nat}

theorem tally_insert {d : Fp} {e e' : RecipeEntry} (he : indexObj.lookup d = some e) :
    tally (indexObj.insert d e') [] f + f (shape e) = tally indexObj [] f + f (shape e') := by
  have hkey : Table.atKey (fun e => f (shape e)) indexObj d = f (shape e) := by
    unfold Table.atKey
    rw [he]
    rfl
  rw [tally_nil, tally_nil, ← hkey]
  exact Table.total_insert indexObj d e'

theorem tally_congr {indexObj' : FpIndex}
    (h : ∀ fp, (indexObj'.lookup fp).map shape = (indexObj.lookup fp).map shape) :
    tally indexObj' [] f = tally indexObj [] f := by
  rw [tally_nil, tally_nil]
  apply Table.total_congr
  intro fp
  have hmap := congrArg (Option.map f) (h fp)
  rw [Option.map_map, Option.map_map] at hmap
  exact hmap

/-- Registering the stored chunks of a batch. -/
theorem tally_register {entries : List QueryEntry} {s : Server}
    (hnodup : (entries.map QueryEntry.chunkHash).Nodup)
    (hfresh : ∀ x ∈ entries, s.indexObj.lookup x.chunkHash = none) :
    tally (Ocall_UpdateOutIndex entries s).indexObj [] f = tally s.indexObj entries f := by
  induction entries generalizing s with
  | nil => rfl
  | cons x entries ih =>
    obtain ⟨hx, hnodup⟩ := List.nodup_cons.mp hnodup
    have hindex : (updateOutIndexEntry s x).indexObj =
        s.indexObj.insert x.chunkHash x.chunkAddr := by
      unfold updateOutIndexEntry
      dsimp only
      split
      · rfl
      · rfl
    have hkey : Table.atKey (fun e => f (shape e)) s.indexObj x.chunkHash = 0 := by
      unfold Table.atKey
      rw [hfresh x List.mem_cons_self]
      rfl
    have hinsert := @Table.total_insert _ _ _ (fun e => f (shape e)) s.indexObj x.chunkHash
      x.chunkAddr
    have hrest := @ih (updateOutIndexEntry s x) hnodup (by
      intro y hy
      rw [hindex, Table.lookup_insert_ite, if_neg]
      · exact hfresh y (List.mem_cons_of_mem x hy)
      · intro heq
        rw [← heq] at hx
        exact hx (List.mem_map_of_mem hy))
    change tally (Ocall_UpdateOutIndex entries (updateOutIndexEntry s x)).indexObj [] f = _
    rw [hrest, hindex]
    unfold tally
    rw [List.map_cons, List.sum_cons]
    omega

end Tally

section Moves
variable (env : EnclaveEnv)

def baseChunk (body : Bytes) (e : RecipeEntry) : Bytes :=
  offlineExpand env (getChunkIV body e) (getChunkContent body e)

def deltaChunk (body : Bytes) (e : RecipeEntry) (old_chunk : Bytes) : Bytes :=
  EDeltaDecode (env.DecryptionWithKeyIV (getChunkIV body e) (getChunkContent body e)) old_chunk

/-- The delta against the new base is not longer than the chunk. -/
def Shrinks (chunk new_chunk : Bytes) : Prop :=
  (EDeltaEncode env.edelta chunk new_chunk).length ≤ chunk.length

instance (chunk new_chunk : Bytes) : Decidable (Shrinks env chunk new_chunk) :=
  inferInstanceAs (Decidable (_ ≤ _))

def storedBase (s : Server) (fp : Fp) : Option Bytes := do
  let e ← s.indexObj.lookup fp
  let body ← s.files.lookup (false, e.containerName)
  return baseChunk env body e

/-- The record of a dependent may still be in the hot container. -/
def storedDependent (s : Server) (old_chunk : Bytes) (deltaHash : Fp) : Option Bytes := do
  let e ← s.indexObj.lookup deltaHash
  let body ← (hotOpens s (pathOf e)).or (s.files.lookup (pathOf e))
  return deltaChunk env body e old_chunk

/-- An old base that shrinks has only dependents that shrink. -/
def DependentsShrink (s : Server) (old new : Fp) : Prop :=
  ∀ old_chunk ∈ storedBase env s old, ∀ new_chunk ∈ storedBase env s new,
    Shrinks env old_chunk new_chunk → ∀ deltaHash ∈ Table.vec s.delta_index old,
      ∃ chunk ∈ storedDependent env s old_chunk deltaHash, Shrinks env chunk new_chunk

instance (s : Server) (old new : Fp) : Decidable (DependentsShrink env s old new) := by
  unfold DependentsShrink
  infer_instance

variable {env} {s s' : Server}

theorem storeHot_entry (env : EnclaveEnv) (chunkHash newBase : Fp) (recipe : RecipeEntry)
    (new_delta : Bytes) (fp : Fp) (sf : SuperFeature) (iv : IV) (s : Server) :
    ∃ e, e.deltaFlag = DELTA ∧ e.length.toUInt64 = encodedSize new_delta ∧
      (storeHot env chunkHash newBase recipe new_delta fp sf iv s).indexObj =
        s.indexObj.insert chunkHash e :=
  ⟨(hotRecord env newBase recipe new_delta fp sf iv s).entry, rfl, rfl, storeHot_indexObj ..⟩

/-- One dependent, with its counters. -/
theorem updateDependent_counted {old_chunk new_chunk : Bytes} {newBase d : Fp} {flag : Bool}
    (h : updateDependent env old_chunk new_chunk newBase d s = some (s', flag))
    (c : ChunkStatistics) :
    ∃ e body, s.indexObj.lookup d = some e ∧ s.files.lookup (true, e.containerName) = some body ∧
      let chunk := deltaChunk env (memcpy s.tmpOcallcontainer 0 body) e old_chunk
      (¬Shrinks env chunk new_chunk ∧ flag = false ∧ s'.indexObj = s.indexObj ∧
          countDependent env old_chunk new_chunk d s c = some c) ∨
        (Shrinks env chunk new_chunk ∧ flag = true ∧ ∃ e', e'.deltaFlag = DELTA ∧
          s'.indexObj = s.indexObj.insert d e' ∧
          countDependent env old_chunk new_chunk d s c = some
            { c with
              deltaDataSize :=
                c.deltaDataSize - e.length.toUInt64 + e'.length.toUInt64 }) := by
  unfold updateDependent at h
  unfold countDependent
  obtain ⟨e, he, h⟩ := Option.bind_eq_some_iff.mp h
  obtain ⟨t, ht, h⟩ := Option.bind_eq_some_iff.mp h
  obtain ⟨body, hbody, rfl⟩ := Option.map_eq_some_iff.mp ht
  refine ⟨e, body, he, hbody, ?_⟩
  intro chunk
  rw [he]
  simp only [Option.bind_eq_bind, Option.bind_some, ht]
  dsimp only at h ⊢
  split at h
  case isTrue hlen =>
    rw [if_pos hlen]
    simp only [Option.pure_def, Option.some.injEq, Prod.mk.injEq] at h
    left
    refine ⟨Nat.not_le.mpr hlen, h.2.symm, ?_, rfl⟩
    rw [← h.1]
    rfl
  case isFalse hlen =>
    rw [if_neg hlen]
    simp only [Option.pure_def, Option.some.injEq, Prod.mk.injEq] at h
    obtain ⟨e', hflag, hsize, hindex⟩ := storeHot_entry env d newBase e
      (EDeltaEncode env.edelta chunk new_chunk)
      (getChunkFP (memcpy s.tmpOcallcontainer 0 body) e)
      (getChunkSF (memcpy s.tmpOcallcontainer 0 body) e)
      (getChunkIV (memcpy s.tmpOcallcontainer 0 body) e)
      (accountSize e.length.toNat (EDeltaEncode env.edelta chunk new_chunk).length
        (readContainer s body))
    right
    refine ⟨Nat.not_lt.mp hlen, h.2.symm, e', hflag, ?_, ?_⟩
    · rw [← h.1]
      exact hindex
    · rw [hsize]
      rfl

variable {Lost : Fp → Prop} {old new : Fp}

/-- The dependents of a pair: whoever moves is a delta before and after. -/
theorem updateDependents_counted {old_chunk new_chunk : Bytes} {rest : List Fp} {flag flag' : Bool}
    (hreb : Rebasing s Lost old new rest flag)
    (hs : updateDependents env old_chunk new_chunk new rest flag s = some (s', flag'))
    {c : ChunkStatistics} (h : Agrees c (tally s.indexObj [])) :
    ∃ c', countDependents env old_chunk new_chunk new rest s c = some c' ∧
      Agrees c' (tally s'.indexObj []) ∧ s'.indexObj.lookup old = s.indexObj.lookup old := by
  induction rest generalizing s flag c with
  | nil =>
    simp only [updateDependents, Option.some.injEq, Prod.mk.injEq] at hs
    rw [← hs.1]
    exact ⟨c, rfl, h, rfl⟩
  | cons d rest ih =>
    unfold updateDependents at hs
    obtain ⟨⟨t, tmp_delta_flag⟩, ht, hs⟩ := Option.bind_eq_some_iff.mp hs
    obtain ⟨hreb', _, _⟩ := updateDependent_rebasing hreb ht
    obtain ⟨e, body, he, _, hcases⟩ := updateDependent_counted ht c
    unfold countDependents
    rcases hcases with ⟨_, _, hindex, hcount⟩ | ⟨_, _, e', hflag, hindex, hcount⟩
    · obtain ⟨c', hc', hagree, hold⟩ := ih hreb' hs (hindex ▸ h)
      refine ⟨c', ?_, hagree, hold.trans (by rw [hindex])⟩
      rw [hcount, ht]
      exact hc'
    · obtain ⟨e₁, he₁, hdelta, _⟩ := hreb.rest_on d List.mem_cons_self
      have hentry : e₁ = e := Option.some.inj (((entry_lookup _ _ _).mp he₁).symm.trans he)
      have hne : old ≠ d := by
        rintro rfl
        exact deltaOn_not_whole (hreb.rest_on old List.mem_cons_self) hreb.old_whole
      have hmoved : Agrees
          { c with deltaDataSize := c.deltaDataSize - e.length.toUInt64 + e'.length.toUInt64 }
          (tally t.indexObj []) := by
        apply h.redelta
        intro f
        have hsum := @tally_insert s.indexObj f d e e' he
        unfold shape at hsum
        rw [← hentry, hdelta, hflag] at hsum
        rw [hindex, ← hentry]
        exact hsum
      obtain ⟨c', hc', hagree, hold⟩ := ih hreb' hs hmoved
      refine ⟨c', ?_, hagree, hold.trans ?_⟩
      · rw [hcount, ht]
        exact hc'
      · rw [hindex, Table.lookup_insert_ite, if_neg hne]

/-- The counters of the dependents keep up with the dependents. -/
theorem countDependents_some {old_chunk new_chunk : Bytes} {newBase : Fp} {deps : List Fp}
    {flag flag' : Bool}
    (hs : updateDependents env old_chunk new_chunk newBase deps flag s = some (s', flag'))
    (c : ChunkStatistics) : ∃ c', countDependents env old_chunk new_chunk newBase deps s c = some c' := by
  induction deps generalizing s flag c with
  | nil => exact ⟨c, rfl⟩
  | cons d deps ih =>
    unfold updateDependents at hs
    obtain ⟨⟨t, tmp_delta_flag⟩, ht, hs⟩ := Option.bind_eq_some_iff.mp hs
    obtain ⟨_, _, _, _, hcases⟩ := updateDependent_counted ht c
    unfold countDependents
    rcases hcases with ⟨_, _, _, hcount⟩ | ⟨_, _, _, _, _, hcount⟩
    · rw [hcount, ht]
      exact ih hs c
    · rw [hcount, ht]
      exact ih hs _

section Stored
variable {E : Fp → RecipeEntry → Prop} {opens : Path → Option Bytes} {R : Records}

theorem deltaChunk_stands {body body' : Bytes} {r : ChunkRecord} (h : StandsIn body r)
    (h' : StandsIn body' r) (old_chunk : Bytes) :
    deltaChunk env body r.entry old_chunk = deltaChunk env body' r.entry old_chunk := by
  unfold deltaChunk
  rw [h.iv_eq, h.content_eq, h'.iv_eq, h'.content_eq]

/-- What the records of the dependents stand for has a property. -/
def RecordsAre (env : EnclaveEnv) (P : Fp → Bytes → Prop) (s : Server) (R : Records)
    (old_chunk : Bytes) (rest : List Fp) : Prop :=
  ∀ d ∈ rest, ∃ r, Recorded R r ∧ s.indexObj.lookup d = some r.entry ∧
    ∀ body, StandsIn body r → P d (deltaChunk env body r.entry old_chunk)

/-- The recorded dependents all shrink. -/
def RecordsShrink (env : EnclaveEnv) (s : Server) (R : Records) (old_chunk new_chunk : Bytes)
    (rest : List Fp) : Prop :=
  ∀ d ∈ rest, ∃ r, Recorded R r ∧ s.indexObj.lookup d = some r.entry ∧
    ∀ body, StandsIn body r → Shrinks env (deltaChunk env body r.entry old_chunk) new_chunk

/-- A dependent is read as it was recorded, and the records of the others stay. -/
theorem updateDependent_records (h : Stores env (Entry s.indexObj []) (hotOpens s) s R)
    (hwriter : s.writer = none) {d : Fp} {rest : List Fp} {flag flag' : Bool}
    (hreb : Rebasing s Lost old new (d :: rest) flag) {old_chunk new_chunk : Bytes}
    (hnew : new_chunk.length ≤ MAX_CHUNK_SIZE)
    (ht : updateDependent env old_chunk new_chunk new d s = some (s', flag'))
    (htimes : s'.con_times < 2 ^ 31) {P : Fp → Bytes → Prop}
    (hrecords : RecordsAre env P s R old_chunk (d :: rest)) {e : RecipeEntry} {body : Bytes}
    (he : s.indexObj.lookup d = some e) (hbody : s.files.lookup (true, e.containerName) = some body) :
    P d (deltaChunk env (memcpy s.tmpOcallcontainer 0 body) e old_chunk) ∧
      (deltaChunk env (memcpy s.tmpOcallcontainer 0 body) e old_chunk).length ≤ MAX_CHUNK_SIZE ∧
      ∃ R', Stores env (Entry s'.indexObj []) (hotOpens s') s' R' ∧
        RecordsAre env P s' R' old_chunk rest := by
  obtain ⟨R', _, _, _, hstores, hpass, hindexes⟩ :=
    updateDependent_stores h hwriter hreb hnew ht htimes
  obtain ⟨r, hrec, hr, hP⟩ := hrecords d List.mem_cons_self
  have hentry : r.entry = e := Option.some.inj (hr.symm.trans he)
  have hpath : pathOf r.entry = (true, e.containerName) := by
    obtain ⟨e₁, he₁, hdelta, _⟩ := hreb.rest_on d List.mem_cons_self
    have heq : e₁ = e := Option.some.inj (((entry_lookup _ _ _).mp he₁).symm.trans he)
    unfold pathOf
    rw [hentry, ← heq, hdelta]
    rfl
  have hcopy : (hotOpens s (pathOf r.entry)).or (s.files.lookup (pathOf r.entry)) = some body := by
    have hplace := h.holds.place (pathOf r.entry)
    rw [hwriter, hpath, hbody] at hplace
    rw [hpath, hplace.of_file.1, hbody]
    rfl
  have hstand := h.stands hwriter hrec hcopy s.tmpOcallcontainer
  have hread := hP _ hstand
  rw [hentry] at hread
  refine ⟨hread, ?_, R', hstores, ?_⟩
  · have hok := hrec.ok h.holds.ok
    obtain ⟨hiv, hcontent, _⟩ := StandsIn.after hstand rfl
    have hlen := hok.decode (by rw [hpath]) old_chunk
    unfold deltaChunk
    rw [← hentry, hstand.iv_eq, hstand.content_eq]
    exact hlen
  · intro d' hd'
    obtain ⟨r', hrec', hr', hP'⟩ := hrecords d' (List.mem_cons_of_mem d hd')
    refine ⟨r', hpass.grows.recorded hrec', ?_, hP'⟩
    have hne : d' ≠ d := by
      rintro rfl
      exact (List.nodup_cons.mp hreb.rest_nodup).1 hd'
    rcases hindexes with ⟨hindex, _⟩ | ⟨_, hrep, _⟩
    · rw [hindex]
      exact hr'
    · rw [hrep.index, Table.lookup_insert_ite, if_neg hne]
      exact hr'

/-- `delta_flag` stays when all dependents shrink. -/
theorem updateDependents_flag (h : Stores env (Entry s.indexObj []) (hotOpens s) s R)
    (hwriter : s.writer = none) {rest : List Fp} {flag flag' : Bool}
    (hreb : Rebasing s Lost old new rest flag) {old_chunk new_chunk : Bytes}
    (hnew : new_chunk.length ≤ MAX_CHUNK_SIZE)
    (hs : updateDependents env old_chunk new_chunk new rest flag s = some (s', flag'))
    (htimes : s'.con_times < 2 ^ 31) (hshrink : RecordsShrink env s R old_chunk new_chunk rest) :
    flag' = flag := by
  induction rest generalizing s flag R with
  | nil =>
    simp only [updateDependents, Option.some.injEq, Prod.mk.injEq] at hs
    exact hs.2.symm
  | cons d rest ih =>
    unfold updateDependents at hs
    obtain ⟨⟨t, tmp_delta_flag⟩, ht, hs⟩ := Option.bind_eq_some_iff.mp hs
    obtain ⟨hreb', hframe, _⟩ := updateDependent_rebasing hreb ht
    obtain ⟨_, hframe', _⟩ := updateDependents_rebasing hreb' hs
    obtain ⟨e, body, he, hbody, hcases⟩ := updateDependent_counted ht ChunkStatistics.zero
    obtain ⟨hmoved, _, R₁, h₁, hrest⟩ := @updateDependent_records env s t Lost old new R h hwriter
      d rest flag tmp_delta_flag hreb old_chunk new_chunk hnew ht
      (Nat.lt_of_le_of_lt hframe'.times htimes) (fun _ chunk => Shrinks env chunk new_chunk) hshrink
      e body he hbody
    have htmp : tmp_delta_flag = true := by
      rcases hcases with ⟨hno, _⟩ | ⟨_, hflag, _⟩
      · exact absurd hmoved hno
      · exact hflag
    have hdone := ih h₁ (hframe.writer.trans hwriter) hreb' hs hrest
    rw [hdone, htmp, Bool.and_true]

end Stored

/-- A pair with its counters: both skip it, or both go through it. -/
theorem countPair_cases (h : updatePair env old new s = some s') (c : ChunkStatistics) :
    (s'.indexObj = s.indexObj ∧ countPair env old new s c = some c) ∨
      ∃ old_recipe old_body new_recipe new_body t delta_flag,
        s.indexObj.lookup old = some old_recipe ∧
        s.files.lookup (false, old_recipe.containerName) = some old_body ∧
        s.indexObj.lookup new = some new_recipe ∧
        s.files.lookup (false, new_recipe.containerName) = some new_body ∧
        let old_container := memcpy s.tmpOcallcontainer 0 old_body
        let old_chunk := baseChunk env old_container old_recipe
        let new_chunk := baseChunk env (memcpy old_container 0 new_body) new_recipe
        updateDependents env old_chunk new_chunk new (Table.vec s.delta_index old) true
            (pairStart old old_recipe new_recipe new old_body new_body s) = some (t, delta_flag) ∧
          s' = updateOldBase env old new old_recipe (getChunkIV old_container old_recipe) old_chunk
            new_chunk delta_flag t ∧
          countPair env old new s c =
            (countDependents env old_chunk new_chunk new (Table.vec s.delta_index old)
              (pairStart old old_recipe new_recipe new old_body new_body s) c).map
                (countOldBase env old_recipe old_chunk new_chunk) := by
  obtain ⟨old_recipe, hold, ⟨hnone, rfl⟩ | ⟨old_body, hbody, new_recipe, hnew, hcases⟩⟩ :=
    updatePair_cases h
  · left
    refine ⟨rfl, ?_⟩
    unfold countPair Ocall_OneContainer oneContainer
    simp only [hold, hnone, Option.bind_eq_bind, Option.bind_some, Option.map_none]
    rfl
  · have hnew' : (EraseSF (readContainer s old_body) old_recipe.superfeature).indexObj.lookup new =
        some new_recipe := hnew
    rcases hcases with ⟨hnone, rfl⟩ | ⟨new_body, hbody', t, delta_flag, ht, rfl⟩
    · have hnone' : (EraseSF (readContainer s old_body) old_recipe.superfeature).files.lookup
          (false, new_recipe.containerName) = none := hnone
      left
      refine ⟨rfl, ?_⟩
      unfold countPair Ocall_OneContainer oneContainer
      simp only [hold, hbody, hnew', hnone', Option.bind_eq_bind, Option.bind_some, Option.map_some,
        Option.map_none]
      rfl
    · have hsome : (EraseSF (readContainer s old_body) old_recipe.superfeature).files.lookup
          (false, new_recipe.containerName) = some new_body := hbody'
      right
      refine ⟨old_recipe, old_body, new_recipe, new_body, t, delta_flag, hold, hbody, hnew, hbody',
        ht, rfl, ?_⟩
      unfold countPair Ocall_OneContainer oneContainer
      simp only [hold, hbody, hnew', hsome, Option.bind_eq_bind, Option.bind_some, Option.map_some]
      rw [Option.map_eq_bind]
      rfl

theorem count_Easy_update_pair_some (hs : Easy_update_pair env old new s = some s')
    (c : ChunkStatistics) : ∃ c', count_Easy_update_pair env old new s c = some c' := by
  unfold Easy_update_pair at hs
  unfold count_Easy_update_pair
  split at hs
  case isTrue hsize =>
    rw [if_pos hsize]
    exact ⟨c, rfl⟩
  case isFalse hsize =>
    rw [if_neg hsize]
    rcases countPair_cases hs c with ⟨_, hcount⟩ | ⟨_, _, _, _, _, _, _, _, _, _, ht, _, hcount⟩
    · exact ⟨c, hcount⟩
    · obtain ⟨c', hc'⟩ := countDependents_some ht c
      rw [hcount, hc']
      exact ⟨_, rfl⟩

/-- The old base of a pair, when it moves whenever its counters do. -/
theorem countOldBase_agrees {old_recipe : RecipeEntry} {old_chunk new_chunk : Bytes}
    {delta_flag : Bool} {t : Server} {c : ChunkStatistics} (hc : Agrees c (tally t.indexObj []))
    (hold : t.indexObj.lookup old = some old_recipe) (hwhole : old_recipe.deltaFlag = NO_DELTA)
    (hmove : Shrinks env old_chunk new_chunk → delta_flag = true) (old_iv : IV) :
    Agrees (countOldBase env old_recipe old_chunk new_chunk c)
      (tally (updateOldBase env old new old_recipe old_iv old_chunk new_chunk delta_flag t).indexObj
        []) := by
  unfold countOldBase updateOldBase
  by_cases hlen : old_chunk.length < (EDeltaEncode env.edelta old_chunk new_chunk).length
  · simp only [if_pos hlen]
    exact hc
  · simp only [if_neg hlen, if_pos (hmove (Nat.not_lt.mp hlen))]
    obtain ⟨e', hflag, hsize, hindex⟩ := storeHot_entry env old new old_recipe
      (EDeltaEncode env.edelta old_chunk new_chunk) old old_recipe.superfeature old_iv
      (accountSize old_recipe.length.toNat (EDeltaEncode env.edelta old_chunk new_chunk).length t)
    rw [hindex, ← hsize]
    apply hc.rebase
    intro f
    have hsum := @tally_insert t.indexObj f old old_recipe e' hold
    unfold shape at hsum
    rw [hwhole, hflag] at hsum
    exact hsum

section Pair
variable {R : Records}

/-- What is read of a base chunk's container is what is stored. -/
theorem storedBase_read (h : Stores env (Entry s.indexObj []) (hotOpens s) s R)
    (hwriter : s.writer = none) {fp : Fp} (hwhole : WholeIn s.indexObj fp) {e : RecipeEntry}
    (he : s.indexObj.lookup fp = some e) {body : Bytes}
    (hbody : s.files.lookup (false, e.containerName) = some body) (buf : Bytes) :
    baseChunk env (memcpy buf 0 body) e ∈ storedBase env s fp ∧
      (baseChunk env (memcpy buf 0 body) e).length ≤ MAX_CHUNK_SIZE := by
  have hfile := hbody
  rw [← hwhole.path he] at hfile
  obtain ⟨r, _, _, hr, hok, hstand⟩ := h.read hwriter he hfile
  have hchunk : ∀ buf, baseChunk env (memcpy buf 0 body) e = offlineExpand env r.iv r.content := by
    intro buf
    obtain ⟨hiv, hcontent, _⟩ := StandsIn.after (hstand buf) hr
    unfold baseChunk
    rw [hiv, hcontent]
  have hplain : memcpy [] 0 body = body := by
    rw [memcpy_zero, List.drop_nil, List.append_nil]
  refine ⟨?_, ?_⟩
  · unfold storedBase
    rw [he, hchunk buf, ← hchunk [], hplain]
    simp [hbody]
  · rw [hchunk buf]
    exact offlineExpand_length r.iv hok.content

theorem recordsAre_of_stored (h : Stores env (Entry s.indexObj []) (hotOpens s) s R)
    (hwriter : s.writer = none) {P : Fp → Bytes → Prop} {old_chunk : Bytes} {rest : List Fp}
    (hrest : ∀ d ∈ rest, ∃ chunk ∈ storedDependent env s old_chunk d, P d chunk) :
    RecordsAre env P s R old_chunk rest := by
  intro d hd
  obtain ⟨chunk, hchunk, hP⟩ := hrest d hd
  obtain ⟨e, he, hchunk⟩ := Option.bind_eq_some_iff.mp hchunk
  obtain ⟨body, hbody, hchunk⟩ := Option.bind_eq_some_iff.mp hchunk
  rw [← Option.some.inj hchunk] at hP
  obtain ⟨rs, hrs, hlayout, hpacked⟩ := h.layout hwriter hbody
  obtain ⟨r, hr, _, hentry⟩ := h.indexed.entry (Or.inl he) hrs
  have hstand : StandsIn body r := by
    rw [hlayout]
    exact Packed.standsIn ⟨rfl, hpacked.packed, Nat.le_of_lt hpacked.fits⟩ hr
  rw [← hentry] at he hrs hP
  refine ⟨r, ⟨rs, hrs, hr⟩, he, ?_⟩
  intro body' hstand'
  rw [deltaChunk_stands hstand' hstand]
  exact hP

/-- A pair whose dependents shrink with their base. -/
theorem countPair_agrees (h : Stores env (Entry s.indexObj []) (hotOpens s) s R)
    (hwriter : s.writer = none) (g : Graph s.indexObj s.sfObj s.delta_index [] [] Lost)
    (hwhole : WholeIn s.indexObj old) (hkept : ¬Lost old) (hnwhole : WholeIn s.indexObj new)
    (hnkept : ¬Lost new) (hne : new ≠ old) (hs : updatePair env old new s = some s')
    (htimes : s'.con_times < 2 ^ 31) (hshrink : DependentsShrink env s old new)
    {c : ChunkStatistics} (hc : Agrees c (tally s.indexObj [])) :
    ∃ c', countPair env old new s c = some c' ∧ Agrees c' (tally s'.indexObj []) := by
  rcases countPair_cases hs c with ⟨hindex, hcount⟩ | ⟨old_recipe, old_body, new_recipe, new_body, t,
    delta_flag, hold, hbody, hnew, hbody', ht, rfl, hcount⟩
  · refine ⟨c, hcount, ?_⟩
    rw [hindex]
    exact hc
  · have hreb := pairStart_rebasing g hold hnew hwhole hkept hnwhole hnkept hne old_body new_body
    obtain ⟨hold_stored, _⟩ := storedBase_read h hwriter hwhole hold hbody s.tmpOcallcontainer
    obtain ⟨hnew_stored, hnew_length⟩ := storedBase_read h hwriter hnwhole hnew hbody'
      (memcpy s.tmpOcallcontainer 0 old_body)
    have hflag : old_recipe.deltaFlag = NO_DELTA := by
      obtain ⟨e, he, hflag⟩ := hwhole
      rw [hold, Option.some.injEq] at he
      rw [he]
      exact hflag
    obtain ⟨c₁, hc₁, hagree, hlook⟩ := updateDependents_counted hreb ht hc
    rw [hcount, hc₁]
    refine ⟨_, rfl, ?_⟩
    apply countOldBase_agrees hagree (hlook.trans hold) hflag
    intro hmove
    obtain ⟨_, hframe, _⟩ := @updateOldBase_graph env t Lost old new delta_flag
      (updateDependents_rebasing hreb ht).1 old_recipe
      (getChunkIV (memcpy s.tmpOcallcontainer 0 old_body) old_recipe)
      (baseChunk env (memcpy s.tmpOcallcontainer 0 old_body) old_recipe)
      (baseChunk env (memcpy (memcpy s.tmpOcallcontainer 0 old_body) 0 new_body) new_recipe)
    have hrest := recordsAre_of_stored h hwriter (hshrink _ hold_stored _ hnew_stored hmove)
    exact @updateDependents_flag env (pairStart old old_recipe new_recipe new old_body new_body s) _
      Lost old new R ⟨h.holds, h.indexed⟩ hwriter _ _ _ hreb _ _ hnew_length ht
      (Nat.lt_of_le_of_lt hframe.times htimes) hrest

end Pair

end Moves

end ShieldReduce.Prototype
