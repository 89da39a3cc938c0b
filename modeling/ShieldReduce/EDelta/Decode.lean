import Mathlib.Data.Nat.Bitwise
import ShieldReduce.Lib.Script

/-!
# Delta units and the delta decoder

A delta is a sequence of `DeltaUnit1` (a copy from the base) and `DeltaUnit2` (a literal)
headers, the literals followed by their bytes. The top bit of the first word tells them apart.
-/

namespace ShieldReduce.EDelta
open Lib

structure DeltaUnit1 where
  flag_length : UInt32
  nOffset : UInt32
deriving DecidableEq, Repr

structure DeltaUnit2 where
  flag_length : UInt32
deriving DecidableEq, Repr

/-- flag 0 for 'D', 1 for 'S' -/
def setFlag (flag_length : UInt32) (flag : Nat) : UInt32 :=
  if flag = 0 then flag_length &&& 0x7fffffff else flag_length ||| 0x80000000

def getFlag (flag_length : UInt32) : UInt32 := flag_length &&& 0x80000000

def setLength (flag_length length : UInt32) : UInt32 := length ||| (flag_length &&& 0x80000000)

def getLength (flag_length : UInt32) : Nat := (flag_length &&& 0x7fffffff).toNat

theorem getLength_eq (w : UInt32) : getLength w = w.toNat % 2 ^ 31 := by
  unfold getLength
  rw [UInt32.toNat_and]
  exact Nat.and_two_pow_sub_one_eq_mod w.toNat 31

theorem toNat_getFlag (w : UInt32) : (getFlag w).toNat = 2 ^ 31 * (w.toNat / 2 ^ 31) := by
  have hw : w.toNat < 2 ^ 32 := w.toNat_lt
  unfold getFlag
  rw [UInt32.toNat_and]
  change w.toNat &&& 2 ^ 31 = _
  rw [Nat.and_comm, Nat.two_pow_and, Nat.toNat_testBit]
  omega

theorem toNat_setLength {w : UInt32} {n : Nat} (h : n < 2 ^ 31) :
    (setLength w (UInt32.ofNat n)).toNat = 2 ^ 31 * (w.toNat / 2 ^ 31) + n := by
  have hflag := toNat_getFlag w
  unfold getFlag at hflag
  unfold setLength
  rw [UInt32.toNat_or, UInt32.toNat_ofNat', Nat.mod_eq_of_lt (by omega), hflag, Nat.or_comm,
    ← Nat.two_pow_add_eq_or_of_lt h]

theorem getLength_setLength {w : UInt32} {n : Nat} (h : n < 2 ^ 31) :
    getLength (setLength w (UInt32.ofNat n)) = n := by
  rw [getLength_eq, toNat_setLength h]
  omega

theorem getFlag_setLength {w : UInt32} {n : Nat} (h : n < 2 ^ 31) :
    getFlag (setLength w (UInt32.ofNat n)) = getFlag w := by
  apply UInt32.toNat_inj.mp
  rw [toNat_getFlag, toNat_getFlag, toNat_setLength h]
  omega

def DeltaUnit1.toBytes (u : DeltaUnit1) : Bytes := le32 u.flag_length ++ le32 u.nOffset

def DeltaUnit2.toBytes (u : DeltaUnit2) : Bytes := le32 u.flag_length

@[simp] theorem DeltaUnit1.toBytes_length (u : DeltaUnit1) : u.toBytes.length = 8 := rfl

@[simp] theorem DeltaUnit2.toBytes_length (u : DeltaUnit2) : u.toBytes.length = 4 := rfl

/-- One pass of the decoder's `while (1)` per unit of fuel. -/
def decodeLoop (deltaBuf baseBuf : Bytes) : Nat → Nat → Bytes → Bytes
  | 0, _, outBuf => outBuf
  | fuel + 1, readLength, outBuf =>
    let flag_length := read32 deltaBuf readLength
    if getFlag flag_length = 0 then
      let nOffset := read32 deltaBuf (readLength + 4)
      let readLength := readLength + 8
      let outBuf := outBuf ++ readAt baseBuf nOffset.toNat (getLength flag_length)
      if deltaBuf.length ≤ readLength then outBuf
      else decodeLoop deltaBuf baseBuf fuel readLength outBuf
    else
      let readLength := readLength + 4
      let outBuf := outBuf ++ readAt deltaBuf readLength (getLength flag_length)
      let readLength := readLength + getLength flag_length
      if deltaBuf.length ≤ readLength then outBuf
      else decodeLoop deltaBuf baseBuf fuel readLength outBuf

/-- `EDeltaDecode`; every pass reads at least four bytes, so `|deltaBuf| + 1` passes suffice. -/
def EDeltaDecode (deltaBuf baseBuf : Bytes) : Bytes :=
  decodeLoop deltaBuf baseBuf (deltaBuf.length + 1) 0 []

/-- The units the encoder writes for one operation. -/
def opBytes : Op → Bytes
  | .copy off len =>
    le32 (setLength (setFlag 0 0) (UInt32.ofNat len)) ++ le32 (UInt32.ofNat off)
  | .insert xs => le32 (setLength (setFlag 0 1) (UInt32.ofNat xs.length)) ++ xs

/-- The operation fits the fields of its unit. -/
def OpFits : Op → Prop
  | .copy off len => off < 2 ^ 32 ∧ len < 2 ^ 31
  | .insert xs => xs.length < 2 ^ 31

def scriptBytes (ops : List Op) : Bytes := ops.flatMap opBytes

theorem scriptBytes_cons (op : Op) (ops : List Op) :
    scriptBytes (op :: ops) = opBytes op ++ scriptBytes ops := rfl

theorem scriptBytes_append (a b : List Op) :
    scriptBytes (a ++ b) = scriptBytes a ++ scriptBytes b := by
  unfold scriptBytes
  rw [List.flatMap_append]

theorem opBytes_pos (op : Op) : 4 ≤ (opBytes op).length := by
  cases op <;> simp [opBytes]

theorem read32_append {pre w : Bytes} {v : UInt32} (off : Nat) (rest : Bytes)
    (h : off = pre.length) (hw : w = le32 v) : read32 (pre ++ (w ++ rest)) off = v := by
  apply read32_of_slice
  have ha := slice_append_right pre (w ++ rest) 0 4
  rw [Nat.add_zero] at ha
  subst h hw
  rw [ha, slice_zero_eq_take]
  exact List.take_left' rfl

/-- The decoder reads one operation and writes what the operation applies to the base. -/
theorem decodeLoop_op {baseBuf pre rest outBuf : Bytes} {op : Op} {fuel : Nat}
    (hfits : OpFits op) :
    decodeLoop (pre ++ (opBytes op ++ rest)) baseBuf (fuel + 1) pre.length outBuf =
      if rest = [] then outBuf ++ op.apply baseBuf
      else decodeLoop (pre ++ (opBytes op ++ rest)) baseBuf fuel (pre.length + (opBytes op).length)
        (outBuf ++ op.apply baseBuf) := by
  have hend : (pre ++ (opBytes op ++ rest)).length ≤ pre.length + (opBytes op).length ↔
      rest = [] := by
    rw [List.length_append, List.length_append, ← List.length_eq_zero_iff]
    omega
  cases op with
  | copy off len =>
    obtain ⟨hoff, hlen⟩ := hfits
    have hw : read32 (pre ++ (opBytes (.copy off len) ++ rest)) pre.length =
        setLength (setFlag 0 0) (UInt32.ofNat len) := by
      rw [opBytes, List.append_assoc]
      exact read32_append _ _ rfl rfl
    have ho : read32 (pre ++ (opBytes (.copy off len) ++ rest)) (pre.length + 4) =
        UInt32.ofNat off := by
      rw [opBytes, List.append_assoc, ← List.append_assoc pre]
      exact read32_append _ _ (by simp) rfl
    have hflag : getFlag (setLength (setFlag 0 0) (UInt32.ofNat len)) = 0 := by
      rw [getFlag_setLength hlen]
      rfl
    have hoffn : (UInt32.ofNat off).toNat = off := by
      rw [UInt32.toNat_ofNat', Nat.mod_eq_of_lt hoff]
    conv_lhs => unfold decodeLoop
    simp only [hw, ho, hflag, if_true, getLength_setLength hlen, hoffn]
    have h8 : (opBytes (.copy off len)).length = 8 := rfl
    rw [h8] at hend
    simp only [hend, h8]
    rfl
  | insert xs =>
    have hlen : xs.length < 2 ^ 31 := hfits
    have hw : read32 (pre ++ (opBytes (.insert xs) ++ rest)) pre.length =
        setLength (setFlag 0 1) (UInt32.ofNat xs.length) := by
      rw [opBytes, List.append_assoc]
      exact read32_append _ _ rfl rfl
    have hflag : getFlag (setLength (setFlag 0 1) (UInt32.ofNat xs.length)) ≠ 0 := by
      rw [getFlag_setLength hlen]
      decide
    have hread : readAt (pre ++ (opBytes (.insert xs) ++ rest)) (pre.length + 4) xs.length = xs := by
      rw [readAt_eq_slice (by simp [opBytes]; omega), opBytes]
      have hx := slice_append_right (pre ++ le32 (setLength (setFlag 0 1) (UInt32.ofNat xs.length)))
        (xs ++ rest) 0 xs.length
      simp only [List.length_append, le32_length, Nat.add_zero, List.append_assoc] at hx ⊢
      rw [hx, slice_zero_eq_take]
      exact List.take_left' rfl
    conv_lhs => unfold decodeLoop
    simp only [hw, if_neg hflag, getLength_setLength hlen, hread]
    have h4 : (opBytes (.insert xs)).length = 4 + xs.length := by simp [opBytes]
    rw [h4, ← Nat.add_assoc] at hend
    simp only [hend, h4, ← Nat.add_assoc]
    rfl

theorem decodeLoop_script {baseBuf pre outBuf : Bytes} {ops : List Op} {fuel : Nat}
    (hne : ops ≠ []) (hfits : ∀ op ∈ ops, OpFits op) (hfuel : (scriptBytes ops).length ≤ fuel) :
    decodeLoop (pre ++ scriptBytes ops) baseBuf fuel pre.length outBuf =
      outBuf ++ runScript baseBuf ops := by
  induction ops generalizing pre outBuf fuel with
  | nil => exact absurd rfl hne
  | cons op ops ih =>
    have hpos := opBytes_pos op
    rw [scriptBytes_cons, List.length_append] at hfuel
    obtain ⟨fuel, rfl⟩ : ∃ k, fuel = k + 1 := ⟨fuel - 1, by omega⟩
    rw [scriptBytes_cons, decodeLoop_op (hfits op (by simp)), runScript_cons]
    cases ops with
    | nil => simp [scriptBytes]
    | cons op' ops =>
      have hrest : scriptBytes (op' :: ops) ≠ [] := by
        intro h
        have h4 := opBytes_pos op'
        rw [scriptBytes_cons, List.append_eq_nil_iff] at h
        rw [h.1] at h4
        simp at h4
      rw [if_neg hrest, ← List.append_assoc, ← List.length_append]
      rw [ih (by simp) (fun o ho => hfits o (List.mem_cons_of_mem op ho)) (by omega),
        List.append_assoc]

/-- The decoder runs the script that its delta is the encoding of. -/
theorem EDeltaDecode_script (baseBuf : Bytes) {ops : List Op} (hne : ops ≠ [])
    (hfits : ∀ op ∈ ops, OpFits op) :
    EDeltaDecode (scriptBytes ops) baseBuf = runScript baseBuf ops := by
  have h := @decodeLoop_script baseBuf [] [] ops _ hne hfits (Nat.le_succ _)
  simpa [EDeltaDecode] using h

end ShieldReduce.EDelta
