import Mathlib.Algebra.GroupWithZero.Nat
import Mathlib.Data.List.TakeDrop
import Mathlib.Tactic.Common

/-!
# Byte buffers

Slices of a byte string, the C `memcpy` into a buffer, and little-endian words.
-/

namespace ShieldReduce

abbrev Bytes := List UInt8

namespace Lib

/-- The `len` bytes at `off`, cut short at the end of `b`. -/
def slice (b : Bytes) (off len : Nat) : Bytes := (b.drop off).take len

/-- The `len` bytes a C reader gets at `off`; bytes past the end of `b` read as 0. -/
def readAt (b : Bytes) (off len : Nat) : Bytes :=
  slice b off len ++ List.replicate (len - (slice b off len).length) 0

/-- `memcpy(buf + pos, src, |src|)`, the buffer growing where the copy passes its end. -/
def memcpy (buf : Bytes) (pos : Nat) (src : Bytes) : Bytes :=
  buf.take pos ++ src ++ buf.drop (pos + src.length)

@[simp] theorem slice_zero (b : Bytes) (off : Nat) : slice b off 0 = [] := by
  simp [slice]

theorem slice_length (b : Bytes) (off len : Nat) :
    (slice b off len).length = min len (b.length - off) := by
  simp [slice]

theorem slice_length_of_le {b : Bytes} {off len : Nat} (h : off + len ≤ b.length) :
    (slice b off len).length = len := by
  rw [slice_length]
  omega

theorem slice_add (b : Bytes) (off m n : Nat) :
    slice b off (m + n) = slice b off m ++ slice b (off + m) n := by
  unfold slice
  rw [List.take_add, List.drop_drop]

theorem take_append_slice (b : Bytes) (m n : Nat) :
    b.take m ++ slice b m n = b.take (m + n) := by
  unfold slice
  rw [List.take_add]

theorem slice_zero_eq_take (b : Bytes) (n : Nat) : slice b 0 n = b.take n := rfl

theorem slice_slice {b : Bytes} {off len i n : Nat} (h : i + n ≤ len) :
    slice (slice b off len) i n = slice b (off + i) n := by
  unfold slice
  rw [List.drop_take, List.take_take, List.drop_drop, Nat.min_eq_left (by omega)]

theorem slice_append_left {a b : Bytes} {off len : Nat} (h : off + len ≤ a.length) :
    slice (a ++ b) off len = slice a off len := by
  unfold slice
  rw [List.drop_append_of_le_length (by omega), List.take_append_of_le_length]
  rw [List.length_drop]
  omega

theorem slice_append_right (a b : Bytes) (off len : Nat) :
    slice (a ++ b) (a.length + off) len = slice b off len := by
  unfold slice
  rw [List.drop_append, List.drop_eq_nil_of_le (by omega), List.nil_append]
  congr 2
  omega

theorem slice_append_exact (a b : Bytes) {n : Nat} (h : n = b.length) :
    slice (a ++ b) a.length n = b := by
  have h0 := slice_append_right a b 0 n
  rw [Nat.add_zero] at h0
  rw [h0, slice_zero_eq_take, h, List.take_length]

/-- A field of a concatenation. -/
theorem slice_mid {pre x post : Bytes} {off n : Nat} (hoff : off = pre.length)
    (hn : n = x.length) : slice (pre ++ (x ++ post)) off n = x := by
  have h := slice_append_right pre (x ++ post) 0 n
  rw [Nat.add_zero, ← hoff] at h
  rw [h, slice_zero_eq_take, hn]
  exact List.take_left' rfl

/-- One more byte: a slice is extended by the byte that follows it. -/
theorem slice_succ {b : Bytes} {off n : Nat} (h : off + n < b.length) :
    slice b off (n + 1) = slice b off n ++ [b.getD (off + n) 0] := by
  rw [slice_add]
  congr 1
  unfold slice
  rw [List.drop_eq_getElem_cons h, List.take_succ_cons, List.take_zero,
    List.getD_eq_getElem?_getD, List.getElem?_eq_getElem h, Option.getD_some]

/-- One byte earlier: a slice is extended by the byte that precedes it. -/
theorem slice_pred {b : Bytes} {off n : Nat} (h : off < b.length) :
    slice b off (n + 1) = b.getD off 0 :: slice b (off + 1) n := by
  rw [Nat.add_comm n 1, slice_add, slice_succ (by omega : off + 0 < b.length)]
  simp

@[simp] theorem readAt_length (b : Bytes) (off len : Nat) : (readAt b off len).length = len := by
  unfold readAt
  rw [List.length_append, List.length_replicate, slice_length]
  omega

theorem readAt_eq_slice {b : Bytes} {off len : Nat} (h : off + len ≤ b.length) :
    readAt b off len = slice b off len := by
  unfold readAt
  rw [slice_length_of_le h]
  simp

theorem memcpy_length {buf : Bytes} {pos : Nat} (src : Bytes) (h : pos ≤ buf.length) :
    (memcpy buf pos src).length = max buf.length (pos + src.length) := by
  unfold memcpy
  simp only [List.length_append, List.length_take, List.length_drop]
  omega

/-- What stands before the copied bytes is untouched. -/
theorem take_memcpy_before {buf src : Bytes} {pos n : Nat} (hn : n ≤ pos) (h : pos ≤ buf.length) :
    (memcpy buf pos src).take n = buf.take n := by
  unfold memcpy
  rw [List.append_assoc, List.take_append_of_le_length, List.take_take, Nat.min_eq_left hn]
  rw [List.length_take]
  omega

theorem take_memcpy {buf : Bytes} {pos : Nat} (src : Bytes) (h : pos ≤ buf.length) :
    (memcpy buf pos src).take (pos + src.length) = buf.take pos ++ src := by
  unfold memcpy
  apply List.take_left'
  simp only [List.length_append, List.length_take]
  omega

/-- Two copies one after the other are one copy. -/
theorem memcpy_memcpy {buf : Bytes} {pos : Nat} (a b : Bytes) (h : pos ≤ buf.length) :
    memcpy (memcpy buf pos a) (pos + a.length) b = memcpy buf pos (a ++ b) := by
  have htake := take_memcpy a h
  have hdrop : (memcpy buf pos a).drop (pos + a.length + b.length) =
      buf.drop (pos + (a ++ b).length) := by
    have hpre : (buf.take pos ++ a).length = pos + a.length := by
      rw [List.length_append, List.length_take_of_le h]
    unfold memcpy
    rw [← List.drop_drop, ← hpre, List.drop_left, List.drop_drop, hpre, List.length_append,
      Nat.add_assoc]
  calc memcpy (memcpy buf pos a) (pos + a.length) b
      = (memcpy buf pos a).take (pos + a.length) ++ b ++
          (memcpy buf pos a).drop (pos + a.length + b.length) := rfl
    _ = buf.take pos ++ a ++ b ++ buf.drop (pos + (a ++ b).length) := by rw [htake, hdrop]
    _ = memcpy buf pos (a ++ b) := by unfold memcpy; rw [List.append_assoc (buf.take pos) a b]

theorem slice_memcpy_self {buf : Bytes} {pos : Nat} (src : Bytes) (h : pos ≤ buf.length) :
    slice (memcpy buf pos src) pos src.length = src := by
  have hpos : (buf.take pos).length = pos := List.length_take_of_le h
  have ha := slice_append_right (buf.take pos) (src ++ buf.drop (pos + src.length)) 0 src.length
  rw [hpos, Nat.add_zero, slice_zero_eq_take, List.take_left' rfl] at ha
  unfold memcpy
  rw [List.append_assoc, ha]

theorem slice_memcpy_before {buf : Bytes} {pos off n : Nat} (src : Bytes) (hn : off + n ≤ pos)
    (h : pos ≤ buf.length) : slice (memcpy buf pos src) off n = slice buf off n := by
  unfold slice
  rw [List.take_drop, List.take_drop, take_memcpy_before hn h]

theorem slice_memcpy_after {buf : Bytes} {pos off n : Nat} (src : Bytes) (h : pos ≤ buf.length)
    (hoff : pos + src.length ≤ off) : slice (memcpy buf pos src) off n = slice buf off n := by
  have hlen : (buf.take pos ++ src).length = pos + src.length := by
    rw [List.length_append, List.length_take_of_le h]
  have ha := slice_append_right (buf.take pos ++ src) (buf.drop (pos + src.length))
    (off - (pos + src.length)) n
  rw [hlen, Nat.add_sub_cancel' hoff] at ha
  unfold memcpy
  rw [ha]
  unfold slice
  rw [List.drop_drop, Nat.add_sub_cancel' hoff]

/-- Overwriting inside a prefix that is later read back. -/
theorem take_memcpy_inside {buf src : Bytes} {pos n : Nat} (h : pos + src.length ≤ n)
    (hn : n ≤ buf.length) :
    (memcpy buf pos src).take n =
      buf.take pos ++ src ++ slice buf (pos + src.length) (n - (pos + src.length)) := by
  unfold memcpy slice
  rw [List.take_append, List.take_of_length_le]
  · congr 2
    simp only [List.length_append, List.length_take]
    omega
  · simp only [List.length_append, List.length_take]
    omega

/-- A `uint32_t` as the four bytes of its little-endian object. -/
def le32 (w : UInt32) : Bytes :=
  [UInt8.ofNat w.toNat, UInt8.ofNat (w.toNat / 2 ^ 8), UInt8.ofNat (w.toNat / 2 ^ 16),
    UInt8.ofNat (w.toNat / 2 ^ 24)]

/-- The `uint32_t` object at `off`. -/
def read32 (b : Bytes) (off : Nat) : UInt32 :=
  match readAt b off 4 with
  | [b0, b1, b2, b3] =>
    UInt32.ofNat (b0.toNat + b1.toNat * 2 ^ 8 + b2.toNat * 2 ^ 16 + b3.toNat * 2 ^ 24)
  | _ => 0

@[simp] theorem le32_length (w : UInt32) : (le32 w).length = 4 := rfl

theorem read32_of_slice {b : Bytes} {off : Nat} {w : UInt32} (h : slice b off 4 = le32 w) :
    read32 b off = w := by
  have hr : readAt b off 4 = le32 w := by
    unfold readAt
    rw [h]
    simp
  have hw : w.toNat < 2 ^ 32 := w.toNat_lt
  unfold read32
  rw [hr]
  simp only [le32, UInt8.toNat_ofNat']
  apply UInt32.toNat_inj.mp
  rw [UInt32.toNat_ofNat']
  omega

end Lib
end ShieldReduce
