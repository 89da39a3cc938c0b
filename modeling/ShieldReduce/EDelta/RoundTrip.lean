import ShieldReduce.EDelta.Encode

/-!
# EDelta round trip

The invariant of the encoder's main loop and the proof that the decoder inverts the encoder.
-/

namespace ShieldReduce.EDelta
open Lib

def MAX_CHUNK_SIZE : Nat := 16384

section Stripping
variable {newBuf baseBuf : Bytes}

theorem headSize_le : headSize newBuf baseBuf ≤ min baseBuf.length newBuf.length :=
  scan_le (scan_le (Nat.zero_le _))

theorem tailSize_le : tailSize newBuf baseBuf ≤ min baseBuf.length newBuf.length :=
  scan_le (scan_le (Nat.zero_le _))

/-- Bytes that agree one by one, or eight at a time, lengthen an agreeing stretch. -/
theorem scan_slice_eq {a b : Bytes} {x y bound : Nat} (ha : x + bound ≤ a.length)
    (hb : y + bound ≤ b.length) (fuel fuel' : Nat) :
    let j := scan 1 bound (fun j => a.getD (x + j) 0 == b.getD (y + j) 0) fuel
      (scan 8 bound (fun j => slice a (x + j) 8 == slice b (y + j) 8) fuel' 0)
    slice a x j = slice b y j := by
  intro j
  apply scan_induct (fun j => slice a x j = slice b y j)
  · intro i hi hsame hP
    have hbyte := beq_iff_eq.mp hsame
    rw [slice_succ (by omega), slice_succ (by omega), hP, hbyte]
  · apply scan_induct (fun j => slice a x j = slice b y j)
    · intro i hi hsame hP
      rw [slice_add, slice_add, hP, beq_iff_eq.mp hsame]
    · simp

theorem head_eq : baseBuf.take (headSize newBuf baseBuf) = newBuf.take (headSize newBuf baseBuf) := by
  have h := @scan_slice_eq baseBuf newBuf 0 0 (min baseBuf.length newBuf.length) (by omega) (by omega)
    (min baseBuf.length newBuf.length) (min baseBuf.length newBuf.length)
  simp only [Nat.zero_add, slice_zero_eq_take] at h
  exact h

/-- The last `n` bytes of both chunks agree. -/
def TailEq (newBuf baseBuf : Bytes) (n : Nat) : Prop :=
  slice baseBuf (baseBuf.length - n) n = slice newBuf (newBuf.length - n) n

theorem tailEq_mono {n m : Nat} (h : TailEq newBuf baseBuf n) (hm : m ≤ n)
    (hb : n ≤ baseBuf.length) (hn : n ≤ newBuf.length) : TailEq newBuf baseBuf m := by
  unfold TailEq at *
  have hs := congrArg (fun l => slice l (n - m) m) h
  rw [slice_slice (by omega), slice_slice (by omega)] at hs
  rw [show baseBuf.length - m = baseBuf.length - n + (n - m) by omega,
    show newBuf.length - m = newBuf.length - n + (n - m) by omega]
  exact hs

theorem tail_eq : TailEq newBuf baseBuf (tailSize newBuf baseBuf) := by
  unfold tailSize
  apply scan_induct (TailEq newBuf baseBuf)
  · intro i hi hsame hP
    have hbyte := beq_iff_eq.mp hsame
    unfold TailEq at *
    have hb : i < baseBuf.length := by omega
    have hn : i < newBuf.length := by omega
    rw [slice_pred (by omega), slice_pred (by omega)]
    rw [show baseBuf.length - (i + 1) + 1 = baseBuf.length - i by omega,
      show newBuf.length - (i + 1) + 1 = newBuf.length - i by omega, hP]
    rw [Nat.sub_sub, Nat.sub_sub] at hbyte
    rw [hbyte]
  · apply scan_induct (TailEq newBuf baseBuf)
    · intro i hi hsame hP
      have hwords := beq_iff_eq.mp hsame
      unfold TailEq at *
      have hb : i + 8 ≤ baseBuf.length := by omega
      have hn : i + 8 ≤ newBuf.length := by omega
      rw [Nat.sub_sub, Nat.sub_sub] at hwords
      rw [Nat.add_comm i 8, slice_add, slice_add, Nat.add_comm 8 i]
      rw [show baseBuf.length - (i + 8) + 8 = baseBuf.length - i by omega,
        show newBuf.length - (i + 8) + 8 = newBuf.length - i by omega, hP, hwords]
    · simp [TailEq]

theorem begSize_le : begSize newBuf baseBuf ≤ headSize newBuf baseBuf := by
  unfold begSize
  split <;> omega

theorem beg_eq : baseBuf.take (begSize newBuf baseBuf) = newBuf.take (begSize newBuf baseBuf) := by
  have h := congrArg (List.take (begSize newBuf baseBuf)) (@head_eq newBuf baseBuf)
  rw [List.take_take, List.take_take, Nat.min_eq_left begSize_le] at h
  exact h

/-- Head and tail do not overlap in the new chunk, and the tail lies in the base. -/
theorem endSize_le :
    endSize newBuf baseBuf ≤ tailSize newBuf baseBuf ∧
      begSize newBuf baseBuf + endSize newBuf baseBuf ≤ newBuf.length := by
  have hb := @begSize_le newBuf baseBuf
  have hh := @headSize_le newBuf baseBuf
  unfold endSize
  simp only
  split <;> split <;> omega

theorem end_eq : TailEq newBuf baseBuf (endSize newBuf baseBuf) := by
  have ht := @tailSize_le newBuf baseBuf
  exact tailEq_mono tail_eq endSize_le.1 (by omega) (by omega)

end Stripping

theorem withLength_insert {record2 : DeltaUnit2} {xs : Bytes}
    (hflag : getFlag record2.flag_length = getFlag (setFlag 0 1)) :
    (withLength2 record2 xs.length).toBytes ++ xs = opBytes (.insert xs) := by
  unfold getFlag at hflag
  simp only [DeltaUnit2.toBytes, withLength2, opBytes, setLength, hflag]

theorem withLength_copy {record1 : DeltaUnit1} {off len : Nat}
    (hflag : getFlag record1.flag_length = getFlag (setFlag 0 0))
    (hoff : record1.nOffset = UInt32.ofNat off) :
    (withLength1 record1 len).toBytes = opBytes (.copy off len) := by
  unfold getFlag at hflag
  simp only [DeltaUnit1.toBytes, withLength1, opBytes, setLength, hflag, hoff]

section Invariant
variable {env : EDeltaEnv} {newBuf baseBuf : Bytes} {tail : Nat}

/-- The first `len` bytes of the delta buffer encode a script that writes `pos` bytes of the
new chunk. -/
def Settled (newBuf baseBuf buf : Bytes) (len pos : Nat) : Prop :=
  len ≤ buf.length ∧ ∃ ops, (∀ op ∈ ops, OpFits op) ∧ buf.take len = scriptBytes ops ∧
    Produces baseBuf newBuf pos ops

/-- A literal of `n` bytes is pending: a header still to be patched, then its bytes. -/
def Pending (newBuf baseBuf buf : Bytes) (len pos n : Nat) : Prop :=
  n ≤ pos ∧ n + 4 ≤ len ∧ len ≤ buf.length ∧
    slice buf (len - n) n = slice newBuf (pos - n) n ∧
    Settled newBuf baseBuf buf (len - n - 4) (pos - n)

theorem settled_of_take {buf buf' : Bytes} {len pos : Nat} (h : Settled newBuf baseBuf buf len pos)
    (hlen : len ≤ buf'.length) (heq : buf'.take len = buf.take len) :
    Settled newBuf baseBuf buf' len pos := by
  obtain ⟨_, ops, hfits, hbytes, hprod⟩ := h
  exact ⟨hlen, ops, hfits, heq.trans hbytes, hprod⟩

theorem settled_memcpy {buf : Bytes} {len pos : Nat} (src : Bytes)
    (h : Settled newBuf baseBuf buf len pos) {at' : Nat} (hat : len ≤ at') (hbuf : at' ≤ buf.length) :
    Settled newBuf baseBuf (memcpy buf at' src) len pos := by
  apply settled_of_take h
  · rw [memcpy_length src hbuf]
    omega
  · exact take_memcpy_before hat hbuf

theorem settled_snoc {buf : Bytes} {len pos pos' : Nat} {op : Op}
    (h : Settled newBuf baseBuf buf len pos) (hfits : OpFits op)
    (hprod : ∀ ops, Produces baseBuf newBuf pos ops → Produces baseBuf newBuf pos' (ops ++ [op])) :
    Settled newBuf baseBuf (memcpy buf len (opBytes op)) (len + (opBytes op).length) pos' := by
  obtain ⟨hlen, ops, hops, hbytes, hp⟩ := h
  refine ⟨?_, ops ++ [op], ?_, ?_, hprod ops hp⟩
  · rw [memcpy_length _ hlen]
    omega
  · intro o ho
    rcases List.mem_append.mp ho with ho | ho
    · exact hops o ho
    · rw [List.mem_singleton.mp ho]
      exact hfits
  · rw [take_memcpy _ hlen, hbytes, scriptBytes_append]
    simp [scriptBytes]

/-- Writing a copy whose bytes agree with the new chunk. -/
theorem settled_copy {buf : Bytes} {len pos off n : Nat} (record1 : DeltaUnit1)
    (h : Settled newBuf baseBuf buf len pos)
    (hflag : getFlag record1.flag_length = getFlag (setFlag 0 0))
    (hoff : record1.nOffset = UInt32.ofNat off)
    (hbase : baseBuf.length ≤ MAX_CHUNK_SIZE) (hb : off + n ≤ baseBuf.length)
    (heq : slice newBuf pos n = slice baseBuf off n) :
    Settled newBuf baseBuf (memcpy buf len (withLength1 record1 n).toBytes) (len + 8) (pos + n) := by
  rw [withLength_copy hflag hoff]
  unfold MAX_CHUNK_SIZE at hbase
  exact @settled_snoc _ _ _ _ _ _ (.copy off n) h (show off < 2 ^ 32 ∧ n < 2 ^ 31 by omega)
    (fun ops hp => produces_snoc_copy hp hb heq)

/-- Patching the header settles the first `m` bytes of the pending literal. -/
theorem pending_patch {buf : Bytes} {len pos n m : Nat} {record2 : DeltaUnit2}
    (h : Pending newBuf baseBuf buf len pos n) (hm : m ≤ n)
    (hflag : getFlag record2.flag_length = getFlag (setFlag 0 1))
    (hnew : newBuf.length ≤ MAX_CHUNK_SIZE) (hpos : pos ≤ newBuf.length) :
    Settled newBuf baseBuf (memcpy buf (len - n - 4) (withLength2 record2 m).toBytes)
      (len - n - 4 + 4 + m) (pos - n + m) := by
  obtain ⟨hn, hlen, hbuf, hbytes, hpre, ops, hops, htake, hprod⟩ := h
  unfold MAX_CHUNK_SIZE at hnew
  have hlit : slice buf (len - n) m = slice newBuf (pos - n) m := by
    have hs := congrArg (fun l => slice l 0 m) hbytes
    rw [slice_slice (by omega), slice_slice (by omega), Nat.add_zero, Nat.add_zero] at hs
    exact hs
  have hlitLen : (slice newBuf (pos - n) m).length = m := slice_length_of_le (by omega)
  refine ⟨?_, ops ++ [.insert (slice newBuf (pos - n) m)], ?_, ?_, produces_snoc_insert hprod⟩
  · rw [memcpy_length _ hpre]
    omega
  · intro o ho
    rcases List.mem_append.mp ho with ho | ho
    · exact hops o ho
    · rw [List.mem_singleton.mp ho]
      change (slice newBuf (pos - n) m).length < 2 ^ 31
      omega
  · have hin : len - n - 4 + (withLength2 record2 m).toBytes.length ≤ len - n - 4 + 4 + m := by
      rw [DeltaUnit2.toBytes_length]
      omega
    rw [take_memcpy_inside hin (by omega), htake, scriptBytes_append, DeltaUnit2.toBytes_length]
    rw [show len - n - 4 + 4 + m - (len - n - 4 + 4) = m by omega,
      show len - n - 4 + 4 = len - n by omega, hlit]
    have hop := @withLength_insert record2 (slice newBuf (pos - n) m) hflag
    rw [hlitLen] at hop
    rw [List.append_assoc, hop]
    simp [scriptBytes]

/-- The delta buffer writes the first `pos` bytes of the new chunk, up to a pending literal. -/
def Written (newBuf baseBuf : Bytes) (s : EncState) (pos : Nat) : Prop :=
  match s.flag with
  | .unit2 => Pending newBuf baseBuf s.deltaBuf s.deltaLen pos (getLength s.record2.flag_length)
  | _ => Settled newBuf baseBuf s.deltaBuf s.deltaLen pos

/-- The invariant of the main loop, `pos` bytes of the new chunk being handled. -/
structure EncInv (newBuf baseBuf : Bytes) (tail : Nat) (s : EncState) (pos : Nat) : Prop where
  pos_le : pos + tail ≤ newBuf.length
  base_le : s.cursorBase + tail ≤ baseBuf.length
  table : ∀ r ∈ s.psHTable, r.nOffset + r.nLength + tail ≤ baseBuf.length
  flag1 : getFlag s.record1.flag_length = getFlag (setFlag 0 0)
  flag2 : getFlag s.record2.flag_length = getFlag (setFlag 0 1)
  written : Written newBuf baseBuf s pos

theorem withLength2_flag {record2 : DeltaUnit2} {n : Nat} (h : n < 2 ^ 31) :
    getFlag (withLength2 record2 n).flag_length = getFlag record2.flag_length :=
  getFlag_setLength h

theorem withLength2_length {record2 : DeltaUnit2} {n : Nat} (h : n < 2 ^ 31) :
    getLength (withLength2 record2 n).flag_length = n :=
  getLength_setLength h

theorem withLength1_flag {record1 : DeltaUnit1} {n : Nat} (h : n < 2 ^ 31) :
    getFlag (withLength1 record1 n).flag_length = getFlag record1.flag_length :=
  getFlag_setLength h

theorem pending_le {s : EncState} {pos : Nat} (hw : Written newBuf baseBuf s pos)
    (hflag : s.flag = .unit2) : getLength s.record2.flag_length ≤ pos := by
  unfold Written at hw
  rw [hflag] at hw
  exact hw.1

variable (hnew : newBuf.length ≤ MAX_CHUNK_SIZE) (hbase : baseBuf.length ≤ MAX_CHUNK_SIZE)
include hnew

theorem appendLiteral_written {s : EncState} {length : Nat}
    (hw : Written newBuf baseBuf s s.inputPos) (hlen : s.inputPos + length ≤ newBuf.length) :
    Written newBuf baseBuf (appendLiteral newBuf s length) (s.inputPos + length) := by
  unfold MAX_CHUNK_SIZE at hnew
  have hxs : (slice newBuf s.inputPos length).length = length := slice_length_of_le hlen
  cases hflag : s.flag with
  | unit2 =>
    simp only [Written, hflag] at hw
    obtain ⟨hn, h4, hbuf, hbytes, hpre⟩ := hw
    simp only [Written, appendLiteral, hflag]
    generalize getLength s.record2.flag_length = n at *
    rw [withLength2_length (by omega)]
    refine ⟨by omega, by omega, ?_, ?_, ?_⟩
    · rw [memcpy_length _ hbuf, hxs]
      omega
    · have hself := slice_memcpy_self (slice newBuf s.inputPos length) hbuf
      rw [hxs] at hself
      rw [show s.deltaLen + length - (n + length) = s.deltaLen - n by omega,
        show s.inputPos + length - (n + length) = s.inputPos - n by omega,
        slice_add, slice_add, slice_memcpy_before _ (by omega) hbuf, hbytes,
        show s.deltaLen - n + n = s.deltaLen by omega,
        show s.inputPos - n + n = s.inputPos by omega, hself]
    · rw [show s.deltaLen + length - (n + length) - 4 = s.deltaLen - n - 4 by omega,
        show s.inputPos + length - (n + length) = s.inputPos - n by omega]
      exact settled_memcpy _ hpre (by omega) hbuf
  | _ =>
    simp only [Written, hflag] at hw
    simp only [Written, appendLiteral, hflag]
    rw [withLength2_length (by omega)]
    have hhdr : s.deltaLen + 4 ≤ (memcpy s.deltaBuf s.deltaLen
        (withLength2 s.record2 length).toBytes).length := by
      rw [memcpy_length _ hw.1, DeltaUnit2.toBytes_length]
      omega
    refine ⟨by omega, by omega, ?_, ?_, ?_⟩
    · rw [memcpy_length _ hhdr, hxs]
      omega
    · have hself := slice_memcpy_self (slice newBuf s.inputPos length) hhdr
      rw [hxs] at hself
      rw [Nat.add_sub_cancel, Nat.add_sub_cancel, hself]
    · rw [show s.deltaLen + 4 + length - length - 4 = s.deltaLen by omega, Nat.add_sub_cancel]
      exact settled_memcpy _ (settled_memcpy _ hw (Nat.le_refl _) hw.1) (by omega) hhdr

theorem appendLiteral_inv {s : EncState} {length : Nat}
    (h : EncInv newBuf baseBuf tail s s.inputPos) (hlen : s.inputPos + length + tail ≤ newBuf.length) :
    EncInv newBuf baseBuf tail (appendLiteral newBuf s length) (s.inputPos + length) := by
  have hw := appendLiteral_written hnew h.written (show s.inputPos + length ≤ newBuf.length by omega)
  unfold MAX_CHUNK_SIZE at hnew
  cases hflag : s.flag with
  | unit2 =>
    have hn := pending_le h.written hflag
    refine ⟨hlen, ?_, ?_, ?_, ?_, hw⟩
    · simpa only [appendLiteral, hflag] using h.base_le
    · simpa only [appendLiteral, hflag] using h.table
    · simpa only [appendLiteral, hflag] using h.flag1
    · simp only [appendLiteral, hflag]
      rw [withLength2_flag (by omega)]
      exact h.flag2
  | _ =>
    refine ⟨hlen, ?_, ?_, ?_, ?_, hw⟩
    · simpa only [appendLiteral, hflag] using h.base_le
    · simpa only [appendLiteral, hflag] using h.table
    · simpa only [appendLiteral, hflag] using h.flag1
    · simp only [appendLiteral, hflag]
      rw [withLength2_flag (by omega)]
      exact h.flag2

omit hnew

theorem appendLiteral_frame (s : EncState) (length : Nat) :
    (appendLiteral newBuf s length).cursorInput = s.cursorInput ∧
      (appendLiteral newBuf s length).psHTable = s.psHTable ∧
      (appendLiteral newBuf s length).probeMatch = s.probeMatch ∧
      (appendLiteral newBuf s length).flagHandleProbe = s.flagHandleProbe := by
  cases hflag : s.flag <;> simp only [appendLiteral, hflag, and_self]

theorem emitMatch_flagHandleProbe (s : EncState) (dup : DeltaRecord) (length : Nat) :
    (emitMatch newBuf baseBuf tail s dup length).flagHandleProbe = s.flagHandleProbe := by
  have hp : (patchLiteral s).flagHandleProbe = s.flagHandleProbe := by
    cases hflag : s.flag <;> simp only [patchLiteral, hflag]
  unfold emitMatch
  simp only
  split
  · simp only [writeUnit1, shrinkLiteral]
    split <;> exact hp
  · exact hp

theorem matchString_flagHandleProbe (s : EncState) (dup : DeltaRecord) (length : Nat) :
    (matchString newBuf baseBuf tail s dup length).flagHandleProbe = s.flagHandleProbe := by
  unfold matchString
  split
  · exact emitMatch_flagHandleProbe s dup length
  · exact (appendLiteral_frame s length).2.2.2

theorem forwardSize_spec {s : EncState} {dup : DeltaRecord} {length : Nat}
    (hb : dup.nOffset + length + tail ≤ baseBuf.length) (hn : s.cursorInput + tail ≤ newBuf.length) :
    dup.nOffset + length + forwardSize newBuf baseBuf tail s dup length + tail ≤ baseBuf.length ∧
      s.cursorInput + forwardSize newBuf baseBuf tail s dup length + tail ≤ newBuf.length ∧
      slice baseBuf (dup.nOffset + length) (forwardSize newBuf baseBuf tail s dup length) =
        slice newBuf s.cursorInput (forwardSize newBuf baseBuf tail s dup length) := by
  have hle : forwardSize newBuf baseBuf tail s dup length ≤
      min (baseBuf.length - tail - (dup.nOffset + length)) (newBuf.length - tail - s.cursorInput) :=
    scan_le (scan_le (Nat.zero_le _))
  exact ⟨by omega, by omega, scan_slice_eq (by omega) (by omega) _ _⟩

theorem backwardSize_spec {s : EncState} {dup : DeltaRecord}
    (hb : dup.nOffset ≤ baseBuf.length) (hp : s.inputPos ≤ newBuf.length)
    (hpend : s.flag = .unit2 → getLength s.record2.flag_length ≤ s.inputPos) :
    backwardSize newBuf baseBuf s dup ≤ dup.nOffset ∧
      (0 < backwardSize newBuf baseBuf s dup → s.flag = .unit2 ∧
        backwardSize newBuf baseBuf s dup ≤ getLength s.record2.flag_length) ∧
      slice newBuf (s.inputPos - backwardSize newBuf baseBuf s dup)
          (backwardSize newBuf baseBuf s dup) =
        slice baseBuf (dup.nOffset - backwardSize newBuf baseBuf s dup)
          (backwardSize newBuf baseBuf s dup) := by
  cases hflag : s.flag with
  | unit2 =>
    have hn := hpend hflag
    have hle : backwardSize newBuf baseBuf s dup ≤
        min dup.nOffset (getLength s.record2.flag_length) := by
      unfold backwardSize
      rw [hflag]
      exact scan_le (Nat.zero_le _)
    refine ⟨by omega, fun _ => ⟨rfl, by omega⟩, ?_⟩
    unfold backwardSize
    rw [hflag]
    apply scan_induct (fun k => slice newBuf (s.inputPos - k) k = slice baseBuf (dup.nOffset - k) k)
    · intro k hk hsame hP
      have hbyte := beq_iff_eq.mp hsame
      rw [slice_pred (by omega), slice_pred (by omega),
        show s.inputPos - (k + 1) + 1 = s.inputPos - k by omega,
        show dup.nOffset - (k + 1) + 1 = dup.nOffset - k by omega, hP, hbyte]
    · simp
  | _ =>
    simp only [backwardSize, hflag]
    refine ⟨Nat.zero_le _, fun h => absurd h (Nat.lt_irrefl 0), ?_⟩
    simp

theorem withLength2_self (record2 : DeltaUnit2) :
    withLength2 record2 (getLength record2.flag_length) = record2 := by
  have hlt : getLength record2.flag_length < 2 ^ 31 := by
    rw [getLength_eq]
    omega
  have hw : setLength record2.flag_length (UInt32.ofNat (getLength record2.flag_length)) =
      record2.flag_length := by
    apply UInt32.toNat_inj.mp
    rw [toNat_setLength hlt, getLength_eq]
    omega
  unfold withLength2
  rw [hw]

include hnew

theorem patchLiteral_inv {s : EncState} (h : EncInv newBuf baseBuf tail s s.inputPos) :
    EncInv newBuf baseBuf tail (patchLiteral s) s.inputPos ∧
      Settled newBuf baseBuf (patchLiteral s).deltaBuf (patchLiteral s).deltaLen s.inputPos := by
  have hw := h.written
  have hpos : s.inputPos ≤ newBuf.length := by have := h.pos_le; omega
  cases hflag : s.flag with
  | unit2 =>
    simp only [Written, hflag] at hw
    have hpatch := pending_patch hw (Nat.le_refl _) h.flag2 hnew hpos
    rw [withLength2_self] at hpatch
    obtain ⟨hn, h4, hbuf, hbytes, hpre⟩ := hw
    simp only [patchLiteral, hflag]
    have hlen := @memcpy_length s.deltaBuf _ s.record2.toBytes hpre.1
    rw [DeltaUnit2.toBytes_length] at hlen
    refine ⟨⟨h.pos_le, h.base_le, h.table, h.flag1, h.flag2, ?_⟩, ?_⟩
    · simp only [Written]
      refine ⟨hn, h4, by omega, ?_, settled_memcpy _ hpre (Nat.le_refl _) hpre.1⟩
      rw [slice_memcpy_after _ hpre.1 (by rw [DeltaUnit2.toBytes_length]; omega)]
      exact hbytes
    · rw [show s.deltaLen - getLength s.record2.flag_length - 4 + 4 +
          getLength s.record2.flag_length = s.deltaLen by omega,
        show s.inputPos - getLength s.record2.flag_length + getLength s.record2.flag_length =
          s.inputPos by omega] at hpatch
      exact hpatch
  | _ =>
    simp only [Written, hflag] at hw
    simp only [patchLiteral, hflag]
    exact ⟨h, hw⟩

/-- Giving up the last `k` bytes of the pending literal leaves the rest settled. -/
theorem shrinkLiteral_settled {s : EncState} {k : Nat} (h : EncInv newBuf baseBuf tail s s.inputPos)
    (hflag : s.flag = .unit2) (hk : k ≤ getLength s.record2.flag_length) :
    Settled newBuf baseBuf (shrinkLiteral s k).deltaBuf (shrinkLiteral s k).deltaLen
      (s.inputPos - k) := by
  have hw := h.written
  have hpos : s.inputPos ≤ newBuf.length := by have := h.pos_le; omega
  simp only [Written, hflag] at hw
  have hpatch := pending_patch hw (Nat.sub_le (getLength s.record2.flag_length) k) h.flag2 hnew hpos
  obtain ⟨hn, h4, hbuf, hbytes, hpre⟩ := hw
  have hlt : getLength s.record2.flag_length - k < 2 ^ 31 := by
    unfold MAX_CHUNK_SIZE at hnew
    omega
  unfold shrinkLiteral
  simp only [withLength2_length hlt]
  split
  · rw [show s.inputPos - getLength s.record2.flag_length + (getLength s.record2.flag_length - k) =
      s.inputPos - k by omega] at hpatch
    exact hpatch
  · have hk' : getLength s.record2.flag_length = k := by omega
    rw [hk'] at hpre ⊢
    exact hpre

theorem shrinkLiteral_frame {s : EncState} {k : Nat}
    (h : EncInv newBuf baseBuf tail s s.inputPos) (hflag : s.flag = .unit2) :
    (shrinkLiteral s k).cursorBase = s.cursorBase ∧ (shrinkLiteral s k).psHTable = s.psHTable ∧
      (shrinkLiteral s k).cursorInput = s.cursorInput ∧ (shrinkLiteral s k).record1 = s.record1 ∧
      getFlag (shrinkLiteral s k).record2.flag_length = getFlag (setFlag 0 1) := by
  have hn := pending_le h.written hflag
  have hp := h.pos_le
  unfold MAX_CHUNK_SIZE at hnew
  have hf := @withLength2_flag s.record2 _
    (show getLength s.record2.flag_length - k < 2 ^ 31 by omega)
  unfold shrinkLiteral
  simp only
  split
  · exact ⟨rfl, rfl, rfl, rfl, hf.trans h.flag2⟩
  · exact ⟨rfl, rfl, rfl, rfl, hf.trans h.flag2⟩

include hbase

/-- A string that agrees with a base string, extended both ways, becomes one copy. -/
theorem emitMatch_inv {s : EncState} {dup : DeltaRecord} {length : Nat}
    (h : EncInv newBuf baseBuf tail s s.inputPos) (hcur : s.cursorInput = s.inputPos + length)
    (hle : s.cursorInput + tail ≤ newBuf.length)
    (hb : dup.nOffset + length + tail ≤ baseBuf.length)
    (heq : slice newBuf s.inputPos length = slice baseBuf dup.nOffset length) :
    EncInv newBuf baseBuf tail (emitMatch newBuf baseBuf tail s dup length)
        (emitMatch newBuf baseBuf tail s dup length).cursorInput ∧
      s.cursorInput ≤ (emitMatch newBuf baseBuf tail s dup length).cursorInput := by
  obtain ⟨hinv, hset⟩ := patchLiteral_inv hnew h
  have hpcur : (patchLiteral s).cursorInput = s.cursorInput := by
    cases hflag : s.flag <;> simp only [patchLiteral, hflag]
  have hppos : (patchLiteral s).inputPos = s.inputPos := by
    cases hflag : s.flag <;> simp only [patchLiteral, hflag]
  unfold emitMatch
  generalize patchLiteral s = p at *
  rw [← hppos] at hinv hset heq hcur
  rw [← hpcur] at hcur hle
  rw [← hpcur]
  obtain ⟨hjb, hjn, hjeq⟩ := @forwardSize_spec _ _ tail _ _ _ hb hle
  simp only
  generalize forwardSize newBuf baseBuf tail p dup length = j at *
  have hnoff : dup.nOffset ≤ baseBuf.length := by omega
  have hppos : p.inputPos ≤ newBuf.length := by omega
  have hlong : slice newBuf p.inputPos (length + j) = slice baseBuf dup.nOffset (length + j) := by
    rw [slice_add, slice_add, heq, hjeq, hcur]
  set q : EncState := { p with
    cursorInput := p.cursorInput + j
    cursorBase := max p.cursorBase (dup.nOffset + length + j) } with hq
  have hqinv : EncInv newBuf baseBuf tail q q.inputPos :=
    ⟨hinv.pos_le, by have := hinv.base_le; simp only [hq]; omega, hinv.table, hinv.flag1, hinv.flag2,
      hinv.written⟩
  obtain ⟨hkoff, hkpend, hkeq⟩ := backwardSize_spec (s := q) hnoff hppos (pending_le hqinv.written)
  generalize backwardSize newBuf baseBuf q dup = k at *
  have hlen : q.cursorInput - q.inputPos = length + j := by simp only [hq]; omega
  have hcurq : q.cursorInput = p.inputPos + (length + j) := by simp only [hq]; omega
  have hlt : length + j + k < 2 ^ 31 := by unfold MAX_CHUNK_SIZE at hbase; omega
  rw [hlen]
  split
  case isTrue hk =>
    obtain ⟨hqflag, hkle⟩ := hkpend hk
    have hkpos : k ≤ q.inputPos := Nat.le_trans hkle (pending_le hqinv.written hqflag)
    have hshrink := shrinkLiteral_settled hnew hqinv hqflag hkle
    obtain ⟨hf1, hf2, hf3, hf4, hf5⟩ := shrinkLiteral_frame (k := k) hnew hqinv hqflag
    rw [show getLength (withLength1 { q.record1 with nOffset := UInt32.ofNat dup.nOffset }
      (length + j)).flag_length = length + j from getLength_setLength (by omega)]
    have hback : slice newBuf (q.inputPos - k) (length + j + k) =
        slice baseBuf (dup.nOffset - k) (length + j + k) := by
      rw [Nat.add_comm (length + j) k, slice_add newBuf _ k, slice_add baseBuf _ k, hkeq,
        show q.inputPos - k + k = p.inputPos by simp only [hq] at hkpos ⊢; omega,
        show dup.nOffset - k + k = dup.nOffset by omega, hlong]
    have hcopy := settled_copy { withLength1 { q.record1 with
        nOffset := UInt32.ofNat dup.nOffset } (length + j) with
        nOffset := UInt32.ofNat (dup.nOffset - k) } hshrink
      ((withLength1_flag (by omega)).trans hqinv.flag1) rfl hbase (by omega) hback
    rw [show q.inputPos - k + (length + j + k) = q.cursorInput by simp only [hq] at hkpos ⊢; omega,
      ← hf3] at hcopy
    refine ⟨⟨?_, ?_, ?_, ?_, hf5, hcopy⟩, ?_⟩
    · change (shrinkLiteral q k).cursorInput + tail ≤ newBuf.length
      rw [hf3]
      exact hjn
    · change (shrinkLiteral q k).cursorBase + tail ≤ baseBuf.length
      rw [hf1]
      exact hqinv.base_le
    · change ∀ r ∈ (shrinkLiteral q k).psHTable, _
      rw [hf2]
      exact hqinv.table
    · exact (withLength1_flag (by omega)).trans ((withLength1_flag (by omega)).trans hqinv.flag1)
    · change p.cursorInput ≤ (shrinkLiteral q k).cursorInput
      rw [hf3]
      exact Nat.le_add_right _ _
  case isFalse hk =>
    have hcopy := settled_copy { q.record1 with nOffset := UInt32.ofNat dup.nOffset } hset hqinv.flag1
      rfl hbase (by omega) hlong
    rw [← hcurq] at hcopy
    refine ⟨⟨hjn, hqinv.base_le, hqinv.table, ?_, hqinv.flag2, hcopy⟩, Nat.le_add_right _ _⟩
    exact (withLength1_flag (by omega)).trans hqinv.flag1

theorem matchString_inv {s : EncState} {dup : DeltaRecord} {length : Nat}
    (h : EncInv newBuf baseBuf tail s s.inputPos) (hcur : s.cursorInput = length + s.inputPos)
    (hle : s.cursorInput + tail ≤ newBuf.length) (hdup : dup ∈ s.psHTable) :
    EncInv newBuf baseBuf tail (matchString newBuf baseBuf tail s dup length)
        (matchString newBuf baseBuf tail s dup length).cursorInput ∧
      s.cursorInput ≤ (matchString newBuf baseBuf tail s dup length).cursorInput := by
  have hb := h.table dup hdup
  rw [Nat.add_comm] at hcur
  unfold matchString
  split
  case isTrue hm =>
    exact emitMatch_inv hnew hbase h hcur hle (by rw [hm.1]; exact hb) hm.2
  case isFalse =>
    have ha := appendLiteral_inv hnew h (show s.inputPos + length + tail ≤ newBuf.length by omega)
    rw [← hcur, ← (appendLiteral_frame s length).1] at ha
    exact ⟨ha, Nat.le_of_eq (appendLiteral_frame s length).1.symm⟩

omit hnew hbase

theorem cutsFrom_last {n last : Nat} {cut : List Nat} (h : CutsFrom n last cut) (hlast : last ≤ n) :
    cut.getLastD last ≤ n := by
  induction cut generalizing last with
  | nil => exact hlast
  | cons c cs ih =>
    rw [List.getLastD_cons]
    exact ih h.2.2 h.2.1

theorem cutsFrom_pairs {n last : Nat} {cut : List Nat} (h : CutsFrom n last cut) (a b : Nat)
    (hab : (a, b) ∈ (last :: cut).zip cut) : a + (b - a) ≤ n := by
  induction cut generalizing last with
  | nil => simp at hab
  | cons c cs ih =>
    rw [List.zip_cons_cons, List.mem_cons] at hab
    rcases hab with hab | hab
    · obtain ⟨rfl, rfl⟩ := Prod.mk.inj hab
      have := h.1
      have := h.2.1
      omega
    · exact ih h.2.2 hab

/-- The strings that `Chunking_v3` reports lie inside the part of the base it was given. -/
theorem chunkingV3_bounds (env : EDeltaEnv) (data : Bytes) (len numOfChunks : Nat) :
    (∀ r ∈ (chunkingV3 env data len numOfChunks).1, r.nOffset + r.nLength ≤ len) ∧
      (chunkingV3 env data len numOfChunks).2 ≤ len := by
  have hcuts := rollingGearV3_cuts data len numOfChunks
  unfold chunkingV3
  simp only
  refine ⟨?_, cutsFrom_last hcuts (Nat.zero_le len)⟩
  intro r hr
  obtain ⟨⟨a, b⟩, hab, rfl⟩ := List.mem_map.mp hr
  exact cutsFrom_pairs hcuts.2.2 a b hab

theorem chunkBase_inv {s : EncState} {pos chunkNumber : Nat}
    (h : EncInv newBuf baseBuf tail s pos) :
    EncInv newBuf baseBuf tail (chunkBase env baseBuf tail s chunkNumber) pos := by
  have hbase := h.base_le
  obtain ⟨hlinks, hbytes⟩ := chunkingV3_bounds env (baseBuf.drop s.cursorBase)
    (baseBuf.length - tail - s.cursorBase) chunkNumber
  refine ⟨h.pos_le, ?_, ?_, h.flag1, h.flag2, h.written⟩
  · simp only [chunkBase]
    omega
  · intro r hr
    simp only [chunkBase, List.mem_append, List.mem_reverse, List.mem_map] at hr
    rcases hr with ⟨l, hl, rfl⟩ | hr
    · have := hlinks l ((List.takeWhile_subset _) hl)
      simp only
      omega
    · exact h.table r hr

/-- The probe strings cover at most what is left of the input, and the first covers some of it. -/
def LinksFit (newLen tail cursor : Nat) (links : List DeltaRecord) : Prop :=
  cursor + (links.map DeltaRecord.nLength).sum + tail ≤ newLen ∧
    (cursor + tail < newLen → ∃ l ls, links = l :: ls ∧ 0 < l.nLength)

theorem probeInput_spec (table : List DeltaRecord) {left j cursor : Nat}
    (hcur : cursor + tail ≤ newBuf.length) :
    (cursor + ((probeInput env newBuf tail table left j cursor).1.map DeltaRecord.nLength).sum + tail
        ≤ newBuf.length) ∧
      (∀ m dup, (probeInput env newBuf tail table left j cursor).2 = some (m, dup) →
        dup ∈ table) := by
  induction left generalizing j cursor with
  | zero => exact ⟨hcur, fun m dup h => absurd h (by simp [probeInput])⟩
  | succ left ih =>
    have hle := chunkGear_le (newBuf.drop cursor) (newBuf.length - cursor - tail)
    unfold probeInput
    simp only
    split
    case h_1 dup hdup =>
      refine ⟨by simp only [List.map_cons, List.map_nil, List.sum_cons, List.sum_nil]; omega, ?_⟩
      intro m d hd
      obtain ⟨rfl, rfl⟩ := Prod.mk.inj (Option.some.inj hd)
      exact (env.lookup_inserted hdup).1
    case h_2 =>
      have hrec := @ih (j + 1) (cursor + chunkGear (newBuf.drop cursor) (newBuf.length - cursor - tail))
        (by omega)
      refine ⟨?_, hrec.2⟩
      have := hrec.1
      simp only [List.map_cons, List.sum_cons]
      omega

theorem probeInput_fit (table : List DeltaRecord) {left j cursor : Nat}
    (hcur : cursor + tail ≤ newBuf.length) :
    LinksFit newBuf.length tail cursor (probeInput env newBuf tail table (left + 1) j cursor).1 := by
  refine ⟨(probeInput_spec table hcur).1, fun hlt => ?_⟩
  have hpos := chunkGear_pos (p := newBuf.drop cursor)
    (show 0 < newBuf.length - cursor - tail by omega)
  unfold probeInput
  simp only
  split
  · exact ⟨_, [], rfl, hpos⟩
  · exact ⟨_, _, rfl, hpos⟩

theorem probeAgain_mem {table links : List DeltaRecord} {j m : Nat} {dup : DeltaRecord}
    (h : probeAgain env table links j = some (m, dup)) : dup ∈ table := by
  induction links generalizing j with
  | nil => simp [probeAgain] at h
  | cons link links ih =>
    unfold probeAgain at h
    split at h
    case h_1 d hd =>
      obtain ⟨rfl, rfl⟩ := Prod.mk.inj (Option.some.inj h)
      exact (env.lookup_inserted hd).1
    case h_2 => exact ih h

/-- What base chunking leaves for the probe strings, whichever round ends it. -/
structure ProbeReady (newLen tail cursor : Nat) (s : EncState) : Prop where
  links : LinksFit newLen tail cursor s.inputLink
  hit : ∀ m dup, s.probeMatch = some (m, dup) → dup ∈ s.psHTable

theorem expandBase_inv {left i chunkNumber : Nat} {s : EncState} {pos : Nat}
    (h : EncInv newBuf baseBuf tail s pos) (hcur : s.cursorInput = pos)
    (hready : ProbeReady newBuf.length tail pos s ∨ (i = 0 ∧ left ≠ 0)) :
    EncInv newBuf baseBuf tail (expandBase env newBuf baseBuf tail left i chunkNumber s) pos ∧
      ProbeReady newBuf.length tail pos (expandBase env newBuf baseBuf tail left i chunkNumber s) ∧
      (expandBase env newBuf baseBuf tail left i chunkNumber s).inputPos = s.inputPos ∧
      (expandBase env newBuf baseBuf tail left i chunkNumber s).flagHandleProbe =
        s.flagHandleProbe := by
  induction left generalizing i chunkNumber s with
  | zero =>
    rcases hready with hready | ⟨_, hne⟩
    · exact ⟨h, hready, rfl, rfl⟩
    · exact absurd rfl hne
  | succ left ih =>
    have hc := @chunkBase_inv env _ _ _ _ _ chunkNumber h
    have hpos := h.pos_le
    unfold expandBase
    have hframe : (chunkBase env baseBuf tail s chunkNumber).inputPos = s.inputPos ∧
        (chunkBase env baseBuf tail s chunkNumber).flagHandleProbe = s.flagHandleProbe ∧
        (chunkBase env baseBuf tail s chunkNumber).cursorInput = s.cursorInput ∧
        (chunkBase env baseBuf tail s chunkNumber).inputLink = s.inputLink := ⟨rfl, rfl, rfl, rfl⟩
    obtain ⟨hf1, hf2, hf3, hf4⟩ := hframe
    generalize chunkBase env baseBuf tail s chunkNumber = c at *
    have hprobe : LinksFit newBuf.length tail pos (if i = 0 then
          probeInput env newBuf tail c.psHTable INPUT_TRY 0 c.cursorInput
        else (c.inputLink, probeAgain env c.psHTable c.inputLink 0)).1 ∧
        ∀ m dup, (if i = 0 then probeInput env newBuf tail c.psHTable INPUT_TRY 0 c.cursorInput
          else (c.inputLink, probeAgain env c.psHTable c.inputLink 0)).2 = some (m, dup) →
          dup ∈ c.psHTable := by
      by_cases hi : i = 0
      · rw [if_pos hi, hf3, hcur]
        exact ⟨probeInput_fit c.psHTable hpos, (probeInput_spec c.psHTable hpos).2⟩
      · rw [if_neg hi, hf4]
        rcases hready with hready | ⟨h0, _⟩
        · exact ⟨hready.links, fun m dup hd => probeAgain_mem hd⟩
        · exact absurd h0 hi
    simp only
    generalize (if i = 0 then probeInput env newBuf tail c.psHTable INPUT_TRY 0 c.cursorInput
      else (c.inputLink, probeAgain env c.psHTable c.inputLink 0)) = probe at *
    have hinv : EncInv newBuf baseBuf tail
        { c with inputLink := probe.1, probeMatch := probe.2 } pos :=
      ⟨hc.pos_le, hc.base_le, hc.table, hc.flag1, hc.flag2, hc.written⟩
    have hpr : ProbeReady newBuf.length tail pos
        { c with inputLink := probe.1, probeMatch := probe.2 } := ⟨hprobe.1, hprobe.2⟩
    split
    · exact ⟨hinv, hpr, hf1, hf2⟩
    · obtain ⟨h1, h2, h3, h4⟩ := ih hinv (hf3.trans hcur) (Or.inl hpr)
      exact ⟨h1, h2, h3.trans hf1, h4.trans hf2⟩

/-- Where a pass stands after the probe strings: at the end of the matched one, or after all. -/
def probeEnd (r : EncState × Bool) : Nat := if r.2 then r.1.cursorInput else r.1.inputPos

theorem skipProbe_inv (hnew : newBuf.length ≤ MAX_CHUNK_SIZE) {s : EncState} {length : Nat}
    (h : EncInv newBuf baseBuf tail s s.inputPos)
    (hlen : s.inputPos + length + tail ≤ newBuf.length) :
    EncInv newBuf baseBuf tail (skipProbe newBuf s length) (s.inputPos + length) ∧
      (skipProbe newBuf s length).inputPos = s.inputPos + length ∧
      (skipProbe newBuf s length).psHTable = s.psHTable ∧
      (skipProbe newBuf s length).probeMatch = s.probeMatch := by
  have hs : EncInv newBuf baseBuf tail { s with cursorInput := length + s.inputPos } s.inputPos :=
    ⟨h.pos_le, h.base_le, h.table, h.flag1, h.flag2, h.written⟩
  have ha := appendLiteral_inv hnew hs hlen
  obtain ⟨hf1, hf2, hf3, _⟩ := @appendLiteral_frame newBuf
    { s with cursorInput := length + s.inputPos } length
  exact ⟨⟨ha.pos_le, ha.base_le, ha.table, ha.flag1, ha.flag2, ha.written⟩,
    hf1.trans (Nat.add_comm _ _), hf2, hf3⟩

theorem handleProbe_inv (hnew : newBuf.length ≤ MAX_CHUNK_SIZE)
    (hbase : baseBuf.length ≤ MAX_CHUNK_SIZE) {links : List DeltaRecord} {i : Nat} {s : EncState}
    (h : EncInv newBuf baseBuf tail s s.inputPos)
    (hlinks : s.inputPos + (links.map DeltaRecord.nLength).sum + tail ≤ newBuf.length)
    (hhit : ∀ m dup, s.probeMatch = some (m, dup) → dup ∈ s.psHTable) :
    EncInv newBuf baseBuf tail (handleProbe newBuf baseBuf tail links i s).1
        (probeEnd (handleProbe newBuf baseBuf tail links i s)) ∧
      s.inputPos ≤ probeEnd (handleProbe newBuf baseBuf tail links i s) ∧
      (∀ l ls, links = l :: ls →
        s.inputPos + l.nLength ≤ probeEnd (handleProbe newBuf baseBuf tail links i s)) ∧
      (handleProbe newBuf baseBuf tail links i s).1.flagHandleProbe = false := by
  induction links generalizing i s with
  | nil =>
    exact ⟨⟨h.pos_le, h.base_le, h.table, h.flag1, h.flag2, h.written⟩, Nat.le_refl _,
      fun l ls hl => absurd hl (by simp), rfl⟩
  | cons link links ih =>
    rw [List.map_cons, List.sum_cons] at hlinks
    obtain ⟨hinv, hpos, htable, hmatch⟩ := skipProbe_inv hnew h
      (show s.inputPos + link.nLength + tail ≤ newBuf.length by omega)
    have hskip : EncInv newBuf baseBuf tail
          (handleProbe newBuf baseBuf tail links (i + 1) (skipProbe newBuf s link.nLength)).1
          (probeEnd (handleProbe newBuf baseBuf tail links (i + 1)
            (skipProbe newBuf s link.nLength))) ∧
        s.inputPos + link.nLength ≤ probeEnd (handleProbe newBuf baseBuf tail links (i + 1)
          (skipProbe newBuf s link.nLength)) ∧
        (handleProbe newBuf baseBuf tail links (i + 1)
          (skipProbe newBuf s link.nLength)).1.flagHandleProbe = false := by
      rw [← hpos] at hinv ⊢
      have hrec := @ih (i + 1) (skipProbe newBuf s link.nLength) hinv (by omega)
        (by rw [hmatch, htable]; exact hhit)
      exact ⟨hrec.1, hrec.2.1, hrec.2.2.2⟩
    unfold handleProbe
    split
    case h_1 m dup hm =>
      split
      case isTrue =>
        have hs : EncInv newBuf baseBuf tail
            { s with cursorInput := link.nLength + s.inputPos, flagHandleProbe := false }
            s.inputPos := ⟨h.pos_le, h.base_le, h.table, h.flag1, h.flag2, h.written⟩
        have hr := matchString_inv hnew hbase hs rfl (by simp only; omega) (hhit m dup hm)
        simp only [probeEnd, if_true]
        refine ⟨hr.1, ?_, ?_, matchString_flagHandleProbe _ _ _⟩
        · have := hr.2
          simp only at this
          omega
        · intro l ls hl
          obtain ⟨rfl, _⟩ := List.cons.inj hl
          have := hr.2
          simp only at this
          omega
      case isFalse =>
        refine ⟨hskip.1, Nat.le_trans (Nat.le_add_right _ _) hskip.2.1, ?_, hskip.2.2⟩
        intro l ls hl
        obtain ⟨rfl, _⟩ := List.cons.inj hl
        exact hskip.2.1
    case h_2 =>
      refine ⟨hskip.1, Nat.le_trans (Nat.le_add_right _ _) hskip.2.1, ?_, hskip.2.2⟩
      intro l ls hl
      obtain ⟨rfl, _⟩ := List.cons.inj hl
      exact hskip.2.1

theorem encodeString_inv (hnew : newBuf.length ≤ MAX_CHUNK_SIZE)
    (hbase : baseBuf.length ≤ MAX_CHUNK_SIZE) {s : EncState}
    (h : EncInv newBuf baseBuf tail s s.inputPos) :
    EncInv newBuf baseBuf tail (encodeString env newBuf baseBuf tail s)
        (encodeString env newBuf baseBuf tail s).cursorInput ∧
      s.inputPos + chunkGear (newBuf.drop s.inputPos) (newBuf.length - s.inputPos - tail) ≤
        (encodeString env newBuf baseBuf tail s).cursorInput ∧
      (encodeString env newBuf baseBuf tail s).flagHandleProbe = s.flagHandleProbe := by
  have hlen := chunkGear_le (newBuf.drop s.inputPos) (newBuf.length - s.inputPos - tail)
  have hpos := h.pos_le
  unfold encodeString
  simp only
  generalize chunkGear (newBuf.drop s.inputPos) (newBuf.length - s.inputPos - tail) = length at *
  have hs : EncInv newBuf baseBuf tail { s with cursorInput := length + s.inputPos } s.inputPos :=
    ⟨h.pos_le, h.base_le, h.table, h.flag1, h.flag2, h.written⟩
  split
  case h_1 dup hdup =>
    obtain ⟨hr, hle⟩ := matchString_inv hnew hbase hs rfl
      (show length + s.inputPos + tail ≤ newBuf.length by omega) (env.lookup_inserted hdup).1
    exact ⟨hr, by rw [Nat.add_comm]; exact hle, matchString_flagHandleProbe _ _ _⟩
  case h_2 =>
    have ha := appendLiteral_inv hnew hs (show s.inputPos + length + tail ≤ newBuf.length by omega)
    obtain ⟨hf1, _, _, hf4⟩ := @appendLiteral_frame newBuf
      { s with cursorInput := length + s.inputPos } length
    have hc := hf1.trans (Nat.add_comm length s.inputPos)
    exact ⟨by rw [hc]; exact ha, Nat.le_of_eq hc.symm, hf4⟩

/-- The progress test of a pass. -/
def asks (env : EDeltaEnv) (newBuf baseBuf : Bytes) (s : EncState) : Bool :=
  s.flagChunk && env.progress s.cursorInput newBuf.length s.cursorBase baseBuf.length

/-- What holds each time the condition of the main loop is tested. -/
structure LoopInv (newBuf baseBuf : Bytes) (tail : Nat) (s : EncState) : Prop where
  inv : EncInv newBuf baseBuf tail s s.inputPos
  cursor : s.cursorInput = s.inputPos
  probe : s.flagHandleProbe = false

/-- Where a pass stands after its probing. -/
theorem encodeProbe_inv {s : EncState} (h : LoopInv newBuf baseBuf tail s) :
    EncInv newBuf baseBuf tail (encodeProbe env newBuf baseBuf tail s) s.inputPos ∧
      (encodeProbe env newBuf baseBuf tail s).inputPos = s.inputPos ∧
      ((encodeProbe env newBuf baseBuf tail s).flagHandleProbe = true →
        ProbeReady newBuf.length tail s.inputPos (encodeProbe env newBuf baseBuf tail s)) := by
  obtain ⟨hinv, hcur, hflag⟩ := h
  unfold encodeProbe
  split
  · have hs : EncInv newBuf baseBuf tail
        { s with flagHandleProbe := true, probeMatch := none } s.inputPos :=
      ⟨hinv.pos_le, hinv.base_le, hinv.table, hinv.flag1, hinv.flag2, hinv.written⟩
    obtain ⟨h1, h2, h3, _⟩ := @expandBase_inv env newBuf baseBuf tail BASE_STEP 0 BASE_BEGIN _ _
      hs hcur (Or.inr ⟨rfl, by decide⟩)
    exact ⟨h1, h3, fun _ => h2⟩
  · exact ⟨hinv, rfl, fun ht => absurd ht (by simp [hflag])⟩

/-- One pass keeps the invariant and handles at least one byte of the new chunk. -/
theorem encodePass_inv (hnew : newBuf.length ≤ MAX_CHUNK_SIZE)
    (hbase : baseBuf.length ≤ MAX_CHUNK_SIZE) {s : EncState} (h : LoopInv newBuf baseBuf tail s)
    (hlt : s.inputPos < newBuf.length - tail) :
    LoopInv newBuf baseBuf tail (encodePass env newBuf baseBuf tail s) ∧
      s.inputPos < (encodePass env newBuf baseBuf tail s).inputPos := by
  have hprobe := @encodeProbe_inv env newBuf baseBuf tail s h
  unfold encodePass
  generalize encodeProbe env newBuf baseBuf tail s = p at *
  obtain ⟨hp, hpos, hready⟩ := hprobe
  rw [← hpos] at hp hready hlt ⊢
  simp only
  cases hpf : p.flagHandleProbe with
  | true =>
    obtain ⟨hfit, hhit⟩ := hready hpf
    obtain ⟨l, ls, hl, hlpos⟩ := hfit.2 (by omega)
    obtain ⟨h1, h2, h3, h4⟩ := @handleProbe_inv newBuf baseBuf tail hnew hbase p.inputLink 0 p hp
      hfit.1 hhit
    have h3' := h3 l ls hl
    simp only [if_true]
    generalize handleProbe newBuf baseBuf tail p.inputLink 0 p = r at *
    cases hr : r.2 with
    | true =>
      simp only [probeEnd, hr, if_true] at h1 h2 h3' ⊢
      exact ⟨⟨⟨h1.pos_le, h1.base_le, h1.table, h1.flag1, h1.flag2, h1.written⟩, rfl, h4⟩, by omega⟩
    | false =>
      simp only [probeEnd, hr, Bool.false_eq_true, if_false] at h1 h2 h3' ⊢
      obtain ⟨e1, e2, e3⟩ := @encodeString_inv env _ _ _ hnew hbase _ h1
      exact ⟨⟨⟨e1.pos_le, e1.base_le, e1.table, e1.flag1, e1.flag2, e1.written⟩, rfl, e3.trans h4⟩,
        by omega⟩
  | false =>
    have hpos' := chunkGear_pos (p := newBuf.drop p.inputPos)
      (show 0 < newBuf.length - p.inputPos - tail by omega)
    obtain ⟨e1, e2, e3⟩ := @encodeString_inv env _ _ _ hnew hbase _ hp
    simp only [Bool.false_eq_true, if_false]
    exact ⟨⟨⟨e1.pos_le, e1.base_le, e1.table, e1.flag1, e1.flag2, e1.written⟩, rfl, e3.trans hpf⟩,
      by omega⟩

/-- The main loop, given as many passes as there are bytes left, handles the whole input. -/
theorem encodeLoop_inv (hnew : newBuf.length ≤ MAX_CHUNK_SIZE)
    (hbase : baseBuf.length ≤ MAX_CHUNK_SIZE) {fuel : Nat} {s : EncState}
    (h : LoopInv newBuf baseBuf tail s) (hfuel : newBuf.length ≤ s.inputPos + fuel) :
    LoopInv newBuf baseBuf tail (encodeLoop env newBuf baseBuf tail fuel s) ∧
      (encodeLoop env newBuf baseBuf tail fuel s).inputPos + tail = newBuf.length := by
  induction fuel generalizing s with
  | zero =>
    have := h.inv.pos_le
    exact ⟨h, by simp only [encodeLoop]; omega⟩
  | succ fuel ih =>
    unfold encodeLoop
    split
    case isTrue hlt =>
      obtain ⟨hpass, hadv⟩ := @encodePass_inv env _ _ _ hnew hbase _ h hlt
      exact ih hpass (by omega)
    case isFalse hge =>
      have := h.inv.pos_le
      exact ⟨h, by omega⟩

end Invariant

section RoundTrip
variable {newBuf baseBuf : Bytes}

theorem settled_nil : Settled newBuf baseBuf [] 0 0 :=
  ⟨Nat.le_refl 0, [], by simp, rfl, produces_nil baseBuf newBuf⟩

theorem encodeInit_inv {beg tail : Nat} (hmax : baseBuf.length ≤ MAX_CHUNK_SIZE)
    (hbeg : beg + tail ≤ newBuf.length) (hb : beg ≤ baseBuf.length)
    (heq : baseBuf.take beg = newBuf.take beg) :
    Settled newBuf baseBuf (encodeInit beg).deltaBuf (encodeInit beg).deltaLen beg ∧
      getFlag (encodeInit beg).record1.flag_length = getFlag (setFlag 0 0) ∧
      (encodeInit beg).record2 = ⟨setFlag 0 1⟩ ∧
      (beg + tail ≤ baseBuf.length → LoopInv newBuf baseBuf tail (encodeInit beg) ∧
        (encodeInit beg).inputPos = beg) := by
  unfold encodeInit
  simp only
  split
  · have hcopy := settled_copy ⟨setFlag 0 0, 0⟩ (@settled_nil newBuf baseBuf) rfl rfl hmax
      (show 0 + beg ≤ baseBuf.length by omega) (by rw [slice_zero_eq_take, slice_zero_eq_take, heq])
    rw [Nat.zero_add beg] at hcopy
    have hflag : getFlag (withLength1 ⟨setFlag 0 0, 0⟩ beg).flag_length = getFlag (setFlag 0 0) :=
      withLength1_flag (by unfold MAX_CHUNK_SIZE at hmax; omega)
    exact ⟨hcopy, hflag, rfl, fun hbase =>
      ⟨⟨⟨hbeg, hbase, fun r hr => absurd hr (by simp [writeUnit1]), hflag, rfl, hcopy⟩, rfl, rfl⟩,
        rfl⟩⟩
  · have h0 : beg = 0 := by omega
    subst h0
    exact ⟨settled_nil, rfl, rfl, fun hbase =>
      ⟨⟨⟨hbeg, hbase, fun r hr => absurd hr (by simp), rfl, rfl, settled_nil⟩, rfl, rfl⟩, rfl⟩⟩

/-- A literal written whole. -/
theorem writeLiteral_settled {s : EncState} {pos n : Nat} (hnew : newBuf.length ≤ MAX_CHUNK_SIZE)
    (hn : pos + n ≤ newBuf.length) (hrec2 : s.record2 = ⟨setFlag 0 1⟩)
    (h : Settled newBuf baseBuf s.deltaBuf s.deltaLen pos) :
    Settled newBuf baseBuf (writeLiteral s (slice newBuf pos n)).deltaBuf
      (writeLiteral s (slice newBuf pos n)).deltaLen (pos + n) := by
  have hlen : (slice newBuf pos n).length = n := slice_length_of_le hn
  have hfits : OpFits (.insert (slice newBuf pos n)) := by
    change (slice newBuf pos n).length < 2 ^ 31
    unfold MAX_CHUNK_SIZE at hnew
    omega
  have hsnoc := settled_snoc h hfits (fun ops hp => @produces_snoc_insert _ _ _ n _ hp)
  have hbytes : opBytes (.insert (slice newBuf pos n)) =
      (withLength2 s.record2 (slice newBuf pos n).length).toBytes ++ slice newBuf pos n := by
    rw [withLength_insert]
    rw [hrec2]
  rw [hbytes, ← memcpy_memcpy _ _ h.1, List.length_append, DeltaUnit2.toBytes_length,
    ← Nat.add_assoc] at hsnoc
  exact hsnoc

/-- The common tail closes the delta. -/
theorem writeTail_settled {s : EncState} {tail : Nat} (hmax : baseBuf.length ≤ MAX_CHUNK_SIZE)
    (hb : tail ≤ baseBuf.length) (hn : tail ≤ newBuf.length) (heq : TailEq newBuf baseBuf tail)
    (hflag : getFlag s.record1.flag_length = getFlag (setFlag 0 0))
    (h : Settled newBuf baseBuf s.deltaBuf s.deltaLen (newBuf.length - tail)) :
    Settled newBuf baseBuf (writeTail s baseBuf.length tail).deltaBuf
      (writeTail s baseBuf.length tail).deltaLen newBuf.length := by
  unfold writeTail
  split
  · have hcopy := settled_copy { s.record1 with nOffset := UInt32.ofNat (baseBuf.length - tail) } h
      hflag rfl hmax (show baseBuf.length - tail + tail ≤ baseBuf.length by omega) heq.symm
    rw [Nat.sub_add_cancel hn] at hcopy
    exact hcopy
  · rw [show newBuf.length - tail = newBuf.length by omega] at h
    exact h

/-- Whichever way the encoder took, its delta encodes a script that writes the new chunk. -/
theorem EDeltaEncode_script (env : EDeltaEnv) (hnew : newBuf.length ≤ MAX_CHUNK_SIZE)
    (hbase : baseBuf.length ≤ MAX_CHUNK_SIZE) :
    ∃ ops, (∀ op ∈ ops, OpFits op) ∧ EDeltaEncode env newBuf baseBuf = scriptBytes ops ∧
      runScript baseBuf ops = newBuf ∧ ∀ op ∈ ops, op.Inside baseBuf := by
  have hhead := @headSize_le newBuf baseBuf
  have hbegle := @begSize_le newBuf baseBuf
  have htaille := @tailSize_le newBuf baseBuf
  obtain ⟨hend, hfit⟩ := @endSize_le newBuf baseBuf
  have hteq := @end_eq newBuf baseBuf
  obtain ⟨hinit, hflag1, hrec2, hloop⟩ := encodeInit_inv hbase hfit
    (show begSize newBuf baseBuf ≤ baseBuf.length by omega) beg_eq
  unfold EDeltaEncode
  simp only
  generalize begSize newBuf baseBuf = beg at *
  generalize endSize newBuf baseBuf = tail at *
  suffices hs : ∀ s : EncState, getFlag s.record1.flag_length = getFlag (setFlag 0 0) →
      Settled newBuf baseBuf s.deltaBuf s.deltaLen (newBuf.length - tail) →
      ∃ ops, (∀ op ∈ ops, OpFits op) ∧ (writeTail s baseBuf.length tail).deltaBuf.take
        (writeTail s baseBuf.length tail).deltaLen = scriptBytes ops ∧
        runScript baseBuf ops = newBuf ∧ ∀ op ∈ ops, op.Inside baseBuf by
    split
    case isTrue hsmall =>
      split
      · have hlit := writeLiteral_settled hnew
          (show beg + (newBuf.length - beg - tail) ≤ newBuf.length by omega) hrec2 hinit
        rw [show beg + (newBuf.length - beg - tail) = newBuf.length - tail by omega] at hlit
        exact hs _ hflag1 hlit
      · refine hs _ hflag1 ?_
        rw [show newBuf.length - tail = beg by omega]
        exact hinit
    case isFalse hbig =>
      obtain ⟨hinv, hpos⟩ := hloop (by omega)
      obtain ⟨hend, hpos⟩ := @encodeLoop_inv env _ _ _ hnew hbase _ _ hinv
        (Nat.le_add_left newBuf.length _)
      obtain ⟨hpatch, hset⟩ := patchLiteral_inv hnew hend.inv
      rw [show (encodeLoop env newBuf baseBuf tail newBuf.length (encodeInit beg)).inputPos =
        newBuf.length - tail by omega] at hset
      exact hs _ hpatch.flag1 hset
  intro s hf h
  obtain ⟨_, ops, hops, hbytes, hprod⟩ := writeTail_settled hbase (by omega) (by omega) hteq hf h
  exact ⟨ops, hops, hbytes, produces_all hprod (Nat.le_refl _), hprod.inside⟩

theorem EDeltaDecode_nil (b : Bytes) : EDeltaDecode [] b = [] := rfl

/-- A delta is one script, whatever base it is run on. -/
theorem EDeltaDecode_runScript (env : EDeltaEnv) (hnew : newBuf.length ≤ MAX_CHUNK_SIZE)
    (hbase : baseBuf.length ≤ MAX_CHUNK_SIZE) :
    ∃ ops, (∀ b, EDeltaDecode (EDeltaEncode env newBuf baseBuf) b = runScript b ops) ∧
      runScript baseBuf ops = newBuf := by
  obtain ⟨ops, hops, hbytes, hrun, -⟩ := EDeltaEncode_script env hnew hbase
  refine ⟨ops, fun b => ?_, hrun⟩
  rw [hbytes]
  by_cases hne : ops = []
  · subst hne
    exact EDeltaDecode_nil b
  · exact EDeltaDecode_script b hne hops

/-- Decoding a delta against any base gives a chunk of the length that was encoded. -/
theorem EDeltaDecode_length (env : EDeltaEnv) (hnew : newBuf.length ≤ MAX_CHUNK_SIZE)
    (hbase : baseBuf.length ≤ MAX_CHUNK_SIZE) (b : Bytes) :
    (EDeltaDecode (EDeltaEncode env newBuf baseBuf) b).length = newBuf.length := by
  obtain ⟨ops, hdec, hrun⟩ := EDeltaDecode_runScript env hnew hbase
  rw [hdec, ← hrun, runScript_length, runScript_length]

/-- Decoding a delta against the base it was encoded against gives back the new chunk. -/
theorem EDeltaDecode_EDeltaEncode (env : EDeltaEnv) (newBuf baseBuf : Bytes)
    (hpos : 1 ≤ newBuf.length) (hnew : newBuf.length ≤ MAX_CHUNK_SIZE)
    (hbase : baseBuf.length ≤ MAX_CHUNK_SIZE) :
    EDeltaDecode (EDeltaEncode env newBuf baseBuf) baseBuf = newBuf := by
  obtain ⟨ops, hops, hbytes, hrun, -⟩ := EDeltaEncode_script env hnew hbase
  have hne : ops ≠ [] := by
    rintro rfl
    rw [runScript_nil] at hrun
    rw [← hrun] at hpos
    exact absurd hpos (by decide)
  rw [hbytes, EDeltaDecode_script baseBuf hne hops, hrun]

theorem find_nHash {table : List DeltaRecord} {key : UInt64} {r : DeltaRecord}
    (h : table.find? (fun r => r.nHash == key) = some r) : r ∈ table ∧ r.nHash = key :=
  ⟨List.mem_of_find?_eq_some h, by simpa using List.find?_some h⟩

/-- An environment that always chunks more of the base and answers with the newest record. -/
def newestEnv (weakHash : Bytes → UInt64) : EDeltaEnv where
  weakHash := weakHash
  progress _ _ _ _ := true
  lookup table key := table.find? (fun r => r.nHash == key)
  lookup_inserted := @find_nHash

/-- Every window hashes to its byte sum, so most windows of one length collide. -/
def sumEnv : EDeltaEnv := newestEnv (fun b => b.foldl (fun h x => h + x.toUInt64) 0)

theorem EDeltaDecode_EDeltaEncode_insert :
    EDeltaDecode (EDeltaEncode sumEnv ([7, 7] ++ List.replicate 40 1) (List.replicate 40 1))
      (List.replicate 40 1) = [7, 7] ++ List.replicate 40 1 :=
  EDeltaDecode_EDeltaEncode sumEnv _ _ (by decide) (by decide) (by decide)

end RoundTrip

end ShieldReduce.EDelta
