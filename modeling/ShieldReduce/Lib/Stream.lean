import ShieldReduce.Lib.Bytes

/-!
# Input streams and length-prefixed strings

A file of strings, each behind its length in an `int`, read by a loop that learns of the end of the
file only from a read that passes it.
-/

namespace ShieldReduce.Lib

/-- An `ifstream`: what has not been read, and whether a read has passed the end. -/
structure InFile where
  rest : Bytes
  eof : Bool

/-- The `int` in front of a string, then the string. -/
def writeString (x : Bytes) : Bytes := le32 (UInt32.ofNat x.length) ++ x

/-- `string::resize(n, 0)` -/
def resize (b : Bytes) (n : Nat) : Bytes := readAt b 0 n

namespace InFile

/-- `read(buf, n)`: past the end it delivers what is left, and nothing from then on. -/
def read (f : InFile) (buf : Bytes) (n : Nat) : Bytes × InFile :=
  if f.eof then (buf, f)
  else if n ≤ f.rest.length then (memcpy buf 0 (f.rest.take n), ⟨f.rest.drop n, false⟩)
  else (memcpy buf 0 f.rest, ⟨[], true⟩)

/-- A read into an `int`, which keeps its value where nothing is delivered. -/
def readInt (f : InFile) (itemSize : UInt32) : UInt32 × InFile :=
  let (buf, f) := f.read (le32 itemSize) 4
  (read32 buf 0, f)

/-- A string of a known size into a `string` that is resized for it. -/
def readItem (f : InFile) (buf : Bytes) (itemSize : UInt32) : Bytes × InFile :=
  f.read (resize buf itemSize.toNat) itemSize.toNat

theorem read_end (buf : Bytes) {n : Nat} (hn : 0 < n) :
    (InFile.mk [] false).read buf n = (buf, ⟨[], true⟩) := by
  have hle : ¬n ≤ ([] : Bytes).length := by
    rw [List.length_nil]
    omega
  unfold read
  rw [if_neg Bool.false_ne_true, if_neg hle]
  simp [memcpy]

theorem read_append {x : Bytes} (rest buf : Bytes) (hbuf : buf.length = x.length) :
    (InFile.mk (x ++ rest) false).read buf x.length = (x, ⟨rest, false⟩) := by
  have hle : x.length ≤ (x ++ rest).length := by
    rw [List.length_append]
    omega
  unfold read
  rw [if_neg Bool.false_ne_true, if_pos hle]
  dsimp only
  rw [List.take_left' rfl, List.drop_left' rfl]
  unfold memcpy
  rw [List.take_zero, List.nil_append, Nat.zero_add, List.drop_eq_nil_of_le (by omega),
    List.append_nil]

/-- At the end of the file the `int` keeps its value. -/
theorem readInt_end (itemSize : UInt32) :
    (InFile.mk [] false).readInt itemSize = (itemSize, ⟨[], true⟩) := by
  have hint : read32 (le32 itemSize) 0 = itemSize := read32_of_slice rfl
  unfold readInt
  rw [read_end _ (by decide)]
  dsimp only
  rw [hint]

theorem readInt_eof (rest : Bytes) (itemSize : UInt32) :
    (InFile.mk rest true).readInt itemSize = (itemSize, ⟨rest, true⟩) := by
  have hint : read32 (le32 itemSize) 0 = itemSize := read32_of_slice rfl
  unfold readInt read
  rw [if_pos rfl]
  dsimp only
  rw [hint]

theorem readInt_append (w itemSize : UInt32) (rest : Bytes) :
    (InFile.mk (le32 w ++ rest) false).readInt itemSize = (w, ⟨rest, false⟩) := by
  have hint : read32 (le32 w) 0 = w := read32_of_slice rfl
  have hread := @read_append (le32 w) rest (le32 itemSize) rfl
  rw [le32_length] at hread
  unfold readInt
  rw [hread]
  dsimp only
  rw [hint]

theorem readItem_append {x : Bytes} (hx : x.length < 2 ^ 32) (buf rest : Bytes) :
    (InFile.mk (x ++ rest) false).readItem buf (UInt32.ofNat x.length) = (x, ⟨rest, false⟩) := by
  have hsize : (UInt32.ofNat x.length).toNat = x.length := by
    rw [UInt32.toNat_ofNat', Nat.mod_eq_of_lt hx]
  unfold readItem
  rw [hsize]
  exact read_append rest _ (readAt_length buf 0 x.length)

end InFile
end ShieldReduce.Lib
