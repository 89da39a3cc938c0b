import Mathlib.Data.Finset.Lattice.Fold
import Mathlib.Data.Finset.Range
import Mathlib.Order.Interval.Finset.Nat
import Mathlib.Order.Lattice.Nat
import ShieldReduce.Lib.RollingHash
import ShieldReduce.Prototype.Chunker
import ShieldReduce.Prototype.ProcessBatch

/-!
# Super-features

`EcallFreqIndex::getSF2` slides a window over each twelfth of a chunk and keeps the largest hash;
the hashes make up three super-features. Three threads compute those of a batch.
-/

namespace ShieldReduce.Prototype.EcallFreqIndex
open Lib Store EDelta

section getSF2

def WINDOW_SIZE : Nat := 48

def SF_NUM : Nat := 3

def FEATURE_NUM : Nat := 12

def A : UInt64 := 37

def MOD : UInt64 := 1000000007

def Apower : UInt64 := (List.range (WINDOW_SIZE - 1)).foldl (fun Apower _ => Apower * A % MOD) 1

/-- The chunk has at most `MAX_CHUNK_SIZE` bytes, so that the product of `int`s is exact. -/
def subchunkIndex (BLOCK_SIZE i : Nat) : Nat := BLOCK_SIZE * i / FEATURE_NUM

/-- `fp *= A; fp += b; fp %= MOD`, in `int64_t`. -/
def takeByte (fp : Int64) (b : UInt8) : Int64 :=
  (fp * A.toInt64 + b.toUInt64.toInt64) % MOD.toInt64

theorem toInt_MOD : MOD.toInt64.toInt = 1000000007 := rfl

/-- `while (fp < 0) fp += MOD` -/
def repair (fp : Int64) : Int64 :=
  if fp < 0 then repair (fp + MOD.toInt64) else fp
termination_by (-fp.toInt).toNat
decreasing_by
  rename_i hneg
  have hneg := Int64.lt_iff_toInt_lt.mp hneg
  have hzero : (0 : Int64).toInt = 0 := rfl
  have hlow := fp.le_toInt
  rw [hzero] at hneg
  rw [Int64.toInt_add, toInt_MOD, Int.bmod_eq_of_le (by omega) (by omega)]
  omega

/-- `fp -= (b * Apower) % MOD`, an unsigned subtraction, and the loop that repairs it. -/
def loseByte (fp : Int64) (b : UInt8) : Int64 :=
  repair (fp.toUInt64 - b.toUInt64 * Apower % MOD).toInt64

/-- The first window of a twelfth, which may reach behind the chunk. -/
def firstWindow (ptr : Nat → UInt8) (start : Nat) : Int64 :=
  (List.range WINDOW_SIZE).foldl (fun fp k => takeByte fp (ptr (start + k))) 0

/-- The windows of a twelfth that ends at `last`. -/
def featureLoop (ptr : Nat → UInt8) (last j : Nat) (fp : Int64) (feature : UInt32) : UInt32 :=
  if j + WINDOW_SIZE < last + 1 then
    let feature := if fp > feature.toUInt64.toInt64 then fp.toUInt64.toUInt32 else feature
    let fp := loseByte fp (ptr j)
    let fp := if j + WINDOW_SIZE ≠ last then takeByte fp (ptr (j + WINDOW_SIZE)) else fp
    featureLoop ptr last (j + 1) fp feature
  else feature
termination_by last + 1 - j

def feature (ptr : Nat → UInt8) (BLOCK_SIZE i : Nat) : UInt32 :=
  featureLoop ptr (subchunkIndex BLOCK_SIZE (i + 1)) (subchunkIndex BLOCK_SIZE i)
    (firstWindow ptr (subchunkIndex BLOCK_SIZE i)) 0

/-- `std::sort` of each group of `SF_NUM` features. -/
def sortedFeatures (ptr : Nat → UInt8) (BLOCK_SIZE : Nat) : List UInt32 :=
  (List.range (FEATURE_NUM / SF_NUM)).flatMap fun i =>
    ((List.range SF_NUM).map fun j => feature ptr BLOCK_SIZE (i * SF_NUM + j)).mergeSort

/-- The features that are hashed into a super-feature, as an array of `uint64_t`. -/
def superfeatureBytes (ptr : Nat → UInt8) (BLOCK_SIZE i : Nat) : Bytes :=
  (List.range (FEATURE_NUM / SF_NUM)).flatMap fun j =>
    le64 ((sortedFeatures ptr BLOCK_SIZE).getD (j * SF_NUM + i) 0).toUInt64

/-- `ptr` is the memory from the chunk on. The tables that `mt_n_get` draws are not used. -/
def getSF2 (GenerateHash : Bytes → Fp) (ptr : Nat → UInt8) (chunkSize : Nat) : SuperFeature :=
  ⟨(GenerateHash (superfeatureBytes ptr chunkSize 0)).val ++
    ((GenerateHash (superfeatureBytes ptr chunkSize 1)).val ++
      (GenerateHash (superfeatureBytes ptr chunkSize 2)).val), by
    have hlen : ∀ data, (GenerateHash data).val.length = 32 := fun data => (GenerateHash data).property
    rw [List.length_append, List.length_append, hlen, hlen, hlen]⟩

end getSF2

section Arithmetic

end Arithmetic

section Windows
variable {ptr ptr' : Nat → UInt8}

end Windows

section Threads
variable (GenerateHash : Bytes → Fp)

/-- `Param`; `SF` points into the in-enclave query `index`. -/
structure Param where
  ptr : Nat → UInt8
  index : Nat
  chunksize : Nat

/-- `getSF2` on the entry of `param_list`. -/
def computeSF (ins : Nat → InQueryEntry) (param : Param) : Nat → InQueryEntry :=
  Function.update ins param.index
    { ins param.index with superfeature := getSF2 GenerateHash param.ptr param.chunksize }

def thread_num : Nat := 3

/-- `GetSFTask` -/
structure GetSFTask where
  taskBegin : Nat
  taskEnd : Nat

/-- The tasks that `ProcessOneBatch` splits `param_list` into. A message of less than 2 ^ 32 bytes has
less than 2 ^ 30 chunks, so that the products of `int`s are exact. -/
def sfTask (paramNum i : Nat) : GetSFTask :=
  let block_len := paramNum / thread_num
  { taskBegin := block_len * i
    taskEnd :=
      if i = thread_num - 1 ∧ paramNum % thread_num ≠ 0 then paramNum else block_len * (i + 1) }

/-- The loop variable of every thread, the entries in the order in which they have been computed, and
the queries. -/
structure SFThreads where
  i : Nat → Nat
  computed : List Nat
  ins : Nat → InQueryEntry

def startThreads (paramNum : Nat) (ins : Nat → InQueryEntry) : SFThreads where
  i thread := (sfTask paramNum thread).taskBegin
  computed := []
  ins := ins

/-- A pass of the loop of `GetSF_thread_func_f`. The threads share the hash context under a lock;
what else `getSF2` writes is the thread's own. -/
def GetSF_thread_func_f (param_list : List Param) (s : SFThreads) (thread : Nat) :
    Option SFThreads :=
  if thread < thread_num ∧ s.i thread < (sfTask param_list.length thread).taskEnd then
    (param_list[s.i thread]?).map fun param =>
      { i := Function.update s.i thread (s.i thread + 1)
        computed := s.computed ++ [s.i thread]
        ins := computeSF GenerateHash s.ins param }
  else none

/-- `pthread_join` of every thread. -/
def Joined (paramNum : Nat) (s : SFThreads) : Prop :=
  ∀ thread < thread_num, ¬s.i thread < (sfTask paramNum thread).taskEnd

/-- How many of the threads have been at entry `k`. -/
def visits (paramNum : Nat) (i : Nat → Nat) (k : Nat) : Nat :=
  ((List.range thread_num).map fun thread =>
    if (sfTask paramNum thread).taskBegin ≤ k ∧ k < i thread then 1 else 0).sum

end Threads

section Threads
variable {GenerateHash : Bytes → Fp} {param_list : List Param} {ins : Nat → InQueryEntry}

theorem visits_eq (paramNum : Nat) (i : Nat → Nat) (k : Nat) :
    visits paramNum i k =
      (if (sfTask paramNum 0).taskBegin ≤ k ∧ k < i 0 then 1 else 0) +
        ((if (sfTask paramNum 1).taskBegin ≤ k ∧ k < i 1 then 1 else 0) +
          (if (sfTask paramNum 2).taskBegin ≤ k ∧ k < i 2 then 1 else 0)) := rfl

theorem visits_step {paramNum : Nat} {i : Nat → Nat} {thread : Nat} (hthread : thread < thread_num)
    (hbegin : (sfTask paramNum thread).taskBegin ≤ i thread) (k : Nat) :
    visits paramNum (Function.update i thread (i thread + 1)) k =
      visits paramNum i k + if i thread = k then 1 else 0 := by
  have hcases : thread = 0 ∨ thread = 1 ∨ thread = 2 := by
    unfold thread_num at hthread
    omega
  rw [visits_eq, visits_eq]
  rcases hcases with rfl | rfl | rfl
  · rw [Function.update_self, Function.update_of_ne (by decide), Function.update_of_ne (by decide)]
    split_ifs <;> omega
  · rw [Function.update_self, Function.update_of_ne (by decide), Function.update_of_ne (by decide)]
    split_ifs <;> omega
  · rw [Function.update_self, Function.update_of_ne (by decide), Function.update_of_ne (by decide)]
    split_ifs <;> omega

/-- The last task ends with the list, whatever the list's length leaves over. -/
theorem sfTask_last (paramNum : Nat) : (sfTask paramNum 2).taskEnd = paramNum := by
  unfold sfTask thread_num
  dsimp only
  by_cases hrest : paramNum % 3 = 0
  · rw [if_neg fun h => h.2 hrest]
    omega
  · rw [if_pos ⟨rfl, hrest⟩]

/-- The three tasks cover the list, and no entry twice. -/
theorem visits_tasks (paramNum k : Nat) :
    visits paramNum (fun thread => (sfTask paramNum thread).taskEnd) k =
      if k < paramNum then 1 else 0 := by
  have hfirst : sfTask paramNum 0 = ⟨0, paramNum / 3⟩ := by
    change GetSFTask.mk (paramNum / 3 * 0) (paramNum / 3 * 1) = _
    rw [Nat.mul_zero, Nat.mul_one]
  have hsecond : sfTask paramNum 1 = ⟨paramNum / 3, paramNum / 3 * 2⟩ := by
    change GetSFTask.mk (paramNum / 3 * 1) (paramNum / 3 * 2) = _
    rw [Nat.mul_one]
  have hthird : (sfTask paramNum 2).taskBegin = paramNum / 3 * 2 := rfl
  rw [visits_eq, hfirst, hsecond, hthird, sfTask_last]
  dsimp only
  split_ifs <;> omega

/-- The threads have computed what they have been at, and nothing else. -/
structure Computing (GenerateHash : Bytes → Fp) (param_list : List Param)
    (ins : Nat → InQueryEntry) (s : SFThreads) : Prop where
  inside : ∀ thread, (sfTask param_list.length thread).taskBegin ≤ s.i thread ∧
    (thread < thread_num → s.i thread ≤ (sfTask param_list.length thread).taskEnd)
  count : ∀ k, s.computed.count k = visits param_list.length s.i k
  ins_eq : s.ins = (s.computed.filterMap fun k => param_list[k]?).foldl (computeSF GenerateHash) ins

theorem Computing.step {s s' : SFThreads} {thread : Nat} (h : Computing GenerateHash param_list ins s)
    (hstep : GetSF_thread_func_f GenerateHash param_list s thread = some s') :
    Computing GenerateHash param_list ins s' := by
  unfold GetSF_thread_func_f at hstep
  split at hstep
  case isFalse => exact absurd hstep nofun
  case isTrue hrun =>
    obtain ⟨param, hparam, rfl⟩ := Option.map_eq_some_iff.mp hstep
    refine ⟨?_, ?_, ?_⟩
    · intro other
      obtain ⟨hbegin, hend⟩ := h.inside other
      dsimp only
      by_cases hother : other = thread
      · rw [hother, Function.update_self]
        rw [hother] at hbegin
        exact ⟨by omega, fun _ => hrun.2⟩
      · rw [Function.update_of_ne hother]
        exact ⟨hbegin, hend⟩
    · intro k
      dsimp only
      rw [List.count_append, h.count, visits_step hrun.1 (h.inside thread).1, List.count_singleton]
      simp only [beq_iff_eq]
    · dsimp only
      rw [h.ins_eq, List.filterMap_append, List.foldl_append, List.filterMap_cons_some hparam]
      rfl

theorem Computing.run {s s' : SFThreads} {schedule : List Nat}
    (h : Computing GenerateHash param_list ins s)
    (hrun : runs (GetSF_thread_func_f GenerateHash param_list) s schedule = some s') :
    Computing GenerateHash param_list ins s' :=
  runs_invariant (fun h hstep => Computing.step h hstep) h hrun

/-- When all threads are joined, every entry has been computed once. -/
theorem Computing.joined {s : SFThreads} (h : Computing GenerateHash param_list ins s)
    (hjoined : Joined param_list.length s) (k : Nat) :
    s.computed.count k = if k < param_list.length then 1 else 0 := by
  have hend : ∀ thread < thread_num, s.i thread = (sfTask param_list.length thread).taskEnd := by
    intro thread hthread
    have hle := (h.inside thread).2 hthread
    have hge := hjoined thread hthread
    omega
  rw [h.count, ← visits_tasks, visits_eq, visits_eq, hend 0 (by decide), hend 1 (by decide),
    hend 2 (by decide)]

end Threads

section Chunks
variable {ptr : Nat → UInt8} {chunk : Bytes}

end Chunks

end ShieldReduce.Prototype.EcallFreqIndex
