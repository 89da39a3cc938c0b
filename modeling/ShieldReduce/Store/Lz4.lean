import ShieldReduce.Lib.Bytes

/-!
# The LZ4 block decoder

`LZ4_decompress_safe`: a fast loop while the output is far from its end, then a loop that checks
every copy. `ip` is what is left of the input, `op` the output so far.
-/

namespace ShieldReduce.Store
open Lib

def MINMATCH : Nat := 4
def LASTLITERALS : Nat := 5
def MFLIMIT : Nat := 12
def FASTLOOP_SAFE_DISTANCE : Nat := 64
def RUN_MASK : Nat := 15
def ML_MASK : Nat := 15

inductive VariableLength
  | ok (ip : Bytes) (length : Nat)
  | initial_error
  | loop_error (ip : Bytes) (length : Nat)

def readVariableLengthLoop (k : Nat) : Bytes → Nat → VariableLength
  | [], length => .loop_error [] length
  | s :: ip, length =>
    let length := length + s.toNat
    if ip.length ≤ k then .loop_error ip length
    else if s = 255 then readVariableLengthLoop k ip length
    else .ok ip length

/-- `lencheck` is `k` bytes before the end of the input. -/
def readVariableLength (k : Nat) (initial_check : Bool) (ip : Bytes) : VariableLength :=
  if initial_check ∧ ip.length ≤ k then .initial_error else readVariableLengthLoop k ip 0

def readLE16 (ip : Bytes) : Nat := (ip.getD 0 0).toNat + 256 * (ip.getD 1 0).toNat

/-- `length` bytes from `offset` back; with `offset` 0 the wild copies leave zeros. -/
def copyMatch (offset : Nat) : Nat → Bytes → Bytes
  | 0, op => op
  | length + 1, op =>
    copyMatch offset length (op ++ [if offset = 0 then 0 else op.getD (op.length - offset) 0])

/-- Where a sequence leaves the decoder. -/
inductive Lz4Step
  | output_error
  | done (op : Bytes)
  | fast (ip op : Bytes)
  | safe (ip op : Bytes)

section Sequence
variable (cap : Nat)

def safeMatchCopy (offset length : Nat) (ip op : Bytes) : Lz4Step :=
  if op.length < offset then .output_error
  else if cap < op.length + length + LASTLITERALS then .output_error
  else .safe ip (copyMatch offset length op)

/-- From the label `_copy_match` on. -/
def copyMatchLabel (length offset : Nat) (ip op : Bytes) : Lz4Step :=
  if length = ML_MASK then
    match readVariableLength 4 false ip with
    | .ok ip n => safeMatchCopy cap offset (length + n + MINMATCH) ip op
    | _ => .output_error
  else safeMatchCopy cap offset (length + MINMATCH) ip op

def safeLiteralCopy (token length : Nat) (ip op : Bytes) : Lz4Step :=
  if cap < op.length + length + MFLIMIT ∨ ip.length < length + (2 + 1 + LASTLITERALS) then
    -- this must be the last sequence
    if ip.length = length ∧ op.length + length ≤ cap then .done (op ++ ip) else .output_error
  else
    let op := op ++ ip.take length
    let ip := ip.drop length
    copyMatchLabel cap (token % 16) (readLE16 ip) (ip.drop 2) op

def safeSequence (token : Nat) (ip op : Bytes) : Lz4Step :=
  let length := token / 16
  if length ≠ RUN_MASK ∧ 16 < ip.length ∧ op.length + 32 ≤ cap then
    let op := op ++ ip.take length
    let ip := ip.drop length
    let offset := readLE16 ip
    let ip := ip.drop 2
    let length := token % 16
    if length ≠ ML_MASK ∧ 8 ≤ offset ∧ offset ≤ op.length then
      .safe ip (copyMatch offset (length + MINMATCH) op)
    else copyMatchLabel cap length offset ip op
  else if length = RUN_MASK then
    match readVariableLength RUN_MASK true ip with
    | .initial_error => .output_error
    | .ok ip n => safeLiteralCopy cap token (length + n) ip op
    | .loop_error ip n => safeLiteralCopy cap token (length + n) ip op
  else safeLiteralCopy cap token length ip op

def fastMatchCopy (offset length : Nat) (ip op : Bytes) : Lz4Step :=
  if cap ≤ op.length + length + FASTLOOP_SAFE_DISTANCE then safeMatchCopy cap offset length ip op
  else if op.length < offset then .output_error
  else .fast ip (copyMatch offset length op)

def fastMatch (token : Nat) (ip op : Bytes) : Lz4Step :=
  let offset := readLE16 ip
  let ip := ip.drop 2
  let length := token % 16
  if length = ML_MASK then
    if op.length < offset then .output_error
    else
      match readVariableLength 4 false ip with
      | .ok ip n => fastMatchCopy cap offset (length + n + MINMATCH) ip op
      | _ => .output_error
  else fastMatchCopy cap offset (length + MINMATCH) ip op

def fastLongLiteral (token length : Nat) (ip op : Bytes) : Lz4Step :=
  if cap < op.length + length + 32 ∨ ip.length < length + 32 then
    safeLiteralCopy cap token length ip op
  else fastMatch cap token (ip.drop length) (op ++ ip.take length)

def fastSequence (token : Nat) (ip op : Bytes) : Lz4Step :=
  let length := token / 16
  if length = RUN_MASK then
    match readVariableLength RUN_MASK true ip with
    | .initial_error => .output_error
    | .ok ip n => fastLongLiteral cap token (length + n) ip op
    | .loop_error ip n => fastLongLiteral cap token (length + n) ip op
  else if ip.length < 16 + 1 then safeLiteralCopy cap token length ip op
  else fastMatch cap token (ip.drop length) (op ++ ip.take length)

/-- One sequence per unit of fuel; every sequence takes its token from the input. -/
def lz4Loop : Nat → Lz4Step → Option Bytes
  | _, .output_error => none
  | _, .done op => some op
  | fuel + 1, .fast (token :: ip) op => lz4Loop fuel (fastSequence cap token.toNat ip op)
  | fuel + 1, .safe (token :: ip) op => lz4Loop fuel (safeSequence cap token.toNat ip op)
  | _, _ => none

end Sequence

/-- `none` is a negative return value, `cap` is `maxDecompressedSize`. -/
def LZ4_decompress_safe (source : Bytes) (cap : Nat) : Option Bytes :=
  if cap = 0 then if source = [0] then some [] else none
  else if source.length = 0 then none
  else if cap < FASTLOOP_SAFE_DISTANCE then lz4Loop cap source.length (.safe source [])
  else lz4Loop cap source.length (.fast source [])

theorem copyMatch_length (offset length : Nat) (op : Bytes) :
    (copyMatch offset length op).length = op.length + length := by
  induction length generalizing op with
  | zero => rfl
  | succ length ih =>
    unfold copyMatch
    rw [ih, List.length_append, List.length_singleton]
    omega

/-- What a decoder position promises: room for the fast loop, and input shorter than before. -/
def Lz4Step.Within (cap n : Nat) : Lz4Step → Prop
  | .output_error => True
  | .done op => op.length ≤ cap
  | .fast ip op => op.length + FASTLOOP_SAFE_DISTANCE ≤ cap ∧ ip.length ≤ n
  | .safe ip op => op.length ≤ cap ∧ ip.length ≤ n

section Within
variable {cap n : Nat}

theorem readVariableLengthLoop_le {k length : Nat} {ip : Bytes} :
    (∀ ip' m, readVariableLengthLoop k ip length = .ok ip' m → ip'.length ≤ ip.length) ∧
      ∀ ip' m, readVariableLengthLoop k ip length = .loop_error ip' m → ip'.length ≤ ip.length := by
  induction ip generalizing length with
  | nil =>
    refine ⟨?_, ?_⟩ <;> intro ip' m h
    · simp [readVariableLengthLoop] at h
    · simp only [readVariableLengthLoop, VariableLength.loop_error.injEq] at h
      exact Nat.le_of_eq (congrArg List.length h.1).symm
  | cons s ip ih =>
    have hlen : ip.length ≤ (s :: ip).length := by simp
    refine ⟨?_, ?_⟩ <;> intro ip' m h <;> unfold readVariableLengthLoop at h <;>
      dsimp only at h <;> split at h
    · simp at h
    · split at h
      · exact Nat.le_trans (ih.1 ip' m h) hlen
      · simp only [VariableLength.ok.injEq] at h
        rw [← h.1]
        exact hlen
    · simp only [VariableLength.loop_error.injEq] at h
      rw [← h.1]
      exact hlen
    · split at h
      · exact Nat.le_trans (ih.2 ip' m h) hlen
      · simp at h

theorem readVariableLength_le {k : Nat} {check : Bool} {ip ip' : Bytes} {m : Nat}
    (h : readVariableLength k check ip = .ok ip' m ∨
      readVariableLength k check ip = .loop_error ip' m) : ip'.length ≤ ip.length := by
  unfold readVariableLength at h
  by_cases hc : check ∧ ip.length ≤ k
  · simp only [if_pos hc, reduceCtorEq, or_self] at h
  · simp only [if_neg hc] at h
    rcases h with h | h
    · exact readVariableLengthLoop_le.1 _ _ h
    · exact readVariableLengthLoop_le.2 _ _ h

theorem safeMatchCopy_within {offset length : Nat} {ip op : Bytes} (hip : ip.length ≤ n) :
    (safeMatchCopy cap offset length ip op).Within cap n := by
  unfold safeMatchCopy
  split
  · trivial
  · split
    · trivial
    · refine ⟨?_, hip⟩
      rw [copyMatch_length]
      omega

theorem copyMatchLabel_within {length offset : Nat} {ip op : Bytes} (hip : ip.length ≤ n) :
    (copyMatchLabel cap length offset ip op).Within cap n := by
  unfold copyMatchLabel
  split
  · split
    · rename_i ip' m h
      exact safeMatchCopy_within (Nat.le_trans (readVariableLength_le (Or.inl h)) hip)
    · trivial
  · exact safeMatchCopy_within hip

theorem safeLiteralCopy_within {token length : Nat} {ip op : Bytes} (hip : ip.length ≤ n) :
    (safeLiteralCopy cap token length ip op).Within cap n := by
  unfold safeLiteralCopy
  split
  · split
    · rename_i h
      change (op ++ ip).length ≤ cap
      rw [List.length_append]
      omega
    · trivial
  · apply copyMatchLabel_within
    simp only [List.length_drop]
    omega

theorem fastMatchCopy_within {offset length : Nat} {ip op : Bytes} (hip : ip.length ≤ n) :
    (fastMatchCopy cap offset length ip op).Within cap n := by
  unfold fastMatchCopy
  split
  · exact safeMatchCopy_within hip
  · split
    · trivial
    · refine ⟨?_, hip⟩
      rw [copyMatch_length]
      omega

theorem fastMatch_within {token : Nat} {ip op : Bytes} (hip : ip.length ≤ n) :
    (fastMatch cap token ip op).Within cap n := by
  have hdrop : (ip.drop 2).length ≤ n := by
    rw [List.length_drop]
    omega
  unfold fastMatch
  dsimp only
  split
  · split
    · trivial
    · split
      · rename_i ip' m h
        exact fastMatchCopy_within (Nat.le_trans (readVariableLength_le (Or.inl h)) hdrop)
      · trivial
  · exact fastMatchCopy_within hdrop

theorem fastLongLiteral_within {token length : Nat} {ip op : Bytes} (hip : ip.length ≤ n) :
    (fastLongLiteral cap token length ip op).Within cap n := by
  unfold fastLongLiteral
  split
  · exact safeLiteralCopy_within hip
  · apply fastMatch_within
    rw [List.length_drop]
    omega

theorem fastSequence_within {token : Nat} {ip op : Bytes} (hip : ip.length ≤ n) :
    (fastSequence cap token ip op).Within cap n := by
  unfold fastSequence
  dsimp only
  split
  · split
    · trivial
    · rename_i ip' m h
      exact fastLongLiteral_within (Nat.le_trans (readVariableLength_le (Or.inl h)) hip)
    · rename_i ip' m h
      exact fastLongLiteral_within (Nat.le_trans (readVariableLength_le (Or.inr h)) hip)
  · split
    · exact safeLiteralCopy_within hip
    · apply fastMatch_within
      rw [List.length_drop]
      omega

theorem safeSequence_within {token : Nat} {ip op : Bytes} (htoken : token < 256)
    (hip : ip.length ≤ n) : (safeSequence cap token ip op).Within cap n := by
  unfold safeSequence
  dsimp only
  split
  · rename_i h
    have hdrop : ((ip.drop (token / 16)).drop 2).length ≤ n := by
      simp only [List.length_drop]
      omega
    split
    · rename_i hm
      refine ⟨?_, hdrop⟩
      have hrun : token / 16 ≠ 15 := h.1
      have hml : token % 16 ≠ 15 := hm.1
      rw [copyMatch_length, List.length_append, List.length_take]
      unfold MINMATCH
      omega
    · exact copyMatchLabel_within hdrop
  · split
    · split
      · trivial
      · rename_i ip' m h
        exact safeLiteralCopy_within (Nat.le_trans (readVariableLength_le (Or.inl h)) hip)
      · rename_i ip' m h
        exact safeLiteralCopy_within (Nat.le_trans (readVariableLength_le (Or.inr h)) hip)
    · exact safeLiteralCopy_within hip

theorem lz4Loop_length {fuel : Nat} {st : Lz4Step} {out : Bytes} (hst : st.Within cap n)
    (h : lz4Loop cap fuel st = some out) : out.length ≤ cap := by
  induction fuel generalizing st n with
  | zero =>
    cases st with
    | done op =>
      simp only [lz4Loop, Option.some.injEq] at h
      rw [← h]
      exact hst
    | _ => simp [lz4Loop] at h
  | succ fuel ih =>
    cases st with
    | output_error => simp [lz4Loop] at h
    | done op =>
      simp only [lz4Loop, Option.some.injEq] at h
      rw [← h]
      exact hst
    | fast ip op =>
      cases ip with
      | nil => simp [lz4Loop] at h
      | cons token ip => exact ih (fastSequence_within (Nat.le_refl ip.length)) h
    | safe ip op =>
      cases ip with
      | nil => simp [lz4Loop] at h
      | cons token ip => exact ih (safeSequence_within token.toNat_lt (Nat.le_refl ip.length)) h

theorem LZ4_decompress_safe_length {source out : Bytes}
    (h : LZ4_decompress_safe source cap = some out) : out.length ≤ cap := by
  unfold LZ4_decompress_safe at h
  split at h
  · split at h
    · simp only [Option.some.injEq] at h
      rw [← h]
      exact Nat.zero_le cap
    · simp at h
  · split at h
    · simp at h
    · split at h
      · exact @lz4Loop_length cap source.length _ (.safe source []) _
          ⟨Nat.zero_le cap, Nat.le_refl _⟩ h
      · rename_i hcap
        refine @lz4Loop_length cap source.length _ (.fast source []) _ ⟨?_, Nat.le_refl _⟩ h
        rw [List.length_nil]
        omega

end Within

example : LZ4_decompress_safe [0x10, 0x41] 16384 = some [0x41] := by decide

end ShieldReduce.Store
