import ShieldReduce.Lib.Stream

/-!
# Batches

A buffer that is handed on whenever its length is a multiple of `n` and once more at the end, and
the loop that reads such batches back from a file.
-/

namespace ShieldReduce.Lib

section Batcher
variable {α : Type} {n : Nat}

/-- The buffer, and the batches it was handed on in. -/
structure Batcher (α : Type) where
  buffer : List α
  sent : List (List α)

namespace Batcher

def empty : Batcher α := ⟨[], []⟩

def push (n : Nat) (b : Batcher α) (x : α) : Batcher α :=
  let buffer := b.buffer ++ [x]
  if buffer.length % n = 0 then ⟨[], b.sent ++ [buffer]⟩ else ⟨buffer, b.sent⟩

/-- The tail is handed on when there is one. -/
def finish (b : Batcher α) : List (List α) :=
  if b.buffer.length ≠ 0 then b.sent ++ [b.buffer] else b.sent

/-- Every batch is full, and the buffer is not. -/
structure Inv (n : Nat) (b : Batcher α) : Prop where
  full : ∀ batch ∈ b.sent, batch.length = n
  room : b.buffer.length < n

theorem inv_empty (hn : 1 ≤ n) : Inv n (empty : Batcher α) :=
  ⟨fun _ h => absurd h List.not_mem_nil, hn⟩

theorem inv_push {b : Batcher α} (h : Inv n b) (x : α) : Inv n (push n b x) := by
  have hroom := h.room
  have hlen : (b.buffer ++ [x]).length = b.buffer.length + 1 := by simp
  unfold push
  dsimp only
  split
  case isTrue hmod =>
    have hfull : (b.buffer ++ [x]).length = n := by
      obtain ⟨k, hk⟩ := Nat.dvd_of_mod_eq_zero hmod
      have hk1 : k = 1 := by
        have hpos : 1 ≤ k := by
          by_contra hzero
          rw [show k = 0 by omega, Nat.mul_zero] at hk
          omega
        by_contra hne
        have htwo : n * 2 ≤ n * k := Nat.mul_le_mul_left n (by omega)
        omega
      rw [hk, hk1, Nat.mul_one]
    refine ⟨?_, by rw [List.length_nil]; omega⟩
    intro batch hbatch
    rcases List.mem_append.mp hbatch with hold | hnew
    · exact h.full batch hold
    · rw [List.mem_singleton.mp hnew]
      exact hfull
  case isFalse hmod =>
    refine ⟨h.full, ?_⟩
    have hne : (b.buffer ++ [x]).length ≠ n := by
      intro heq
      rw [heq, Nat.mod_self] at hmod
      exact hmod rfl
    dsimp only
    omega

theorem push_flatten (n : Nat) (b : Batcher α) (x : α) :
    (push n b x).sent.flatten ++ (push n b x).buffer = b.sent.flatten ++ b.buffer ++ [x] := by
  unfold push
  dsimp only
  split
  · simp
  · simp

theorem inv_foldl {b : Batcher α} (h : Inv n b) (xs : List α) : Inv n (xs.foldl (push n) b) := by
  induction xs generalizing b with
  | nil => exact h
  | cons x xs ih => exact ih (inv_push h x)

theorem foldl_flatten (n : Nat) (b : Batcher α) (xs : List α) :
    (xs.foldl (push n) b).sent.flatten ++ (xs.foldl (push n) b).buffer =
      b.sent.flatten ++ b.buffer ++ xs := by
  induction xs generalizing b with
  | nil => simp
  | cons x xs ih =>
    rw [List.foldl_cons, ih, push_flatten]
    simp

/-- What has been handed on is as many full batches as the stream has. -/
theorem sent_flatten (hn : 1 ≤ n) (xs : List α) :
    (xs.foldl (push n) empty).sent.flatten = xs.take (n * (xs.length / n)) := by
  have hinv := inv_foldl (inv_empty hn) xs
  have hall := foldl_flatten n empty xs
  have hnone : (empty : Batcher α).sent.flatten ++ empty.buffer ++ xs = xs := rfl
  rw [hnone] at hall
  generalize xs.foldl (push n) empty = b at hinv hall ⊢
  have hsent : b.sent.flatten.length = n * b.sent.length := by
    rw [List.length_flatten, List.map_eq_map_iff.mpr hinv.full, List.map_const',
      List.sum_replicate_nat, Nat.mul_comm]
  have hlen : xs.length = n * b.sent.length + b.buffer.length := by
    rw [← hall, List.length_append, hsent]
  have hdiv : xs.length / n = b.sent.length := by
    rw [hlen, Nat.mul_add_div hn, Nat.div_eq_of_lt hinv.room, Nat.add_zero]
  rw [hdiv, ← hsent, ← hall]
  exact (List.take_left' rfl).symm

theorem finish_flatten (b : Batcher α) : b.finish.flatten = b.sent.flatten ++ b.buffer := by
  unfold finish
  split
  case isTrue => simp
  case isFalse h =>
    have hnil : b.buffer = [] := List.length_eq_zero_iff.mp (by omega)
    rw [hnil, List.append_nil]

end Batcher

/-- The batches of a whole stream. -/
def batches (n : Nat) (xs : List α) : List (List α) := (xs.foldl (Batcher.push n) .empty).finish

theorem batches_flatten (n : Nat) (xs : List α) : (batches n xs).flatten = xs := by
  unfold batches
  rw [Batcher.finish_flatten, Batcher.foldl_flatten]
  simp [Batcher.empty]

/-- Full batches, then at most one that is shorter and not empty. -/
def Cut (n : Nat) : List (List α) → Prop
  | [] => True
  | batch :: rest => batch.length ≠ 0 ∧ batch.length ≤ n ∧ (rest ≠ [] → batch.length = n) ∧ Cut n rest

theorem cut_append {full : List (List α)} {tail : List (List α)}
    (hn : 1 ≤ n) (hfull : ∀ batch ∈ full, batch.length = n) (htail : Cut n tail) :
    Cut n (full ++ tail) := by
  induction full with
  | nil => exact htail
  | cons batch full ih =>
    have hlen := hfull batch (List.mem_cons_self ..)
    exact ⟨by omega, by omega, fun _ => hlen,
      ih fun other h => hfull other (List.mem_cons_of_mem batch h)⟩

theorem batches_cut (hn : 1 ≤ n) (xs : List α) : Cut n (batches n xs) := by
  have hinv := Batcher.inv_foldl (Batcher.inv_empty hn) xs
  unfold batches Batcher.finish
  have hroom := hinv.room
  split
  case isTrue hne =>
    apply cut_append hn hinv.full
    exact ⟨hne, by omega, fun h => absurd rfl h, trivial⟩
  case isFalse =>
    have h := @cut_append _ n _ [] hn hinv.full trivial
    rwa [List.append_nil] at h

theorem cut_map {β : Type} {bs : List (List α)} {f : List α → List β} {k : Nat}
    (hk : 1 ≤ k) (hf : ∀ b, (f b).length = k * b.length) (h : Cut n bs) : Cut (k * n) (bs.map f) := by
  induction bs with
  | nil => trivial
  | cons b bs ih =>
    obtain ⟨hne, hle, hfull, hrest⟩ := h
    refine ⟨?_, ?_, ?_, ih hrest⟩
    · rw [hf]
      have hpos := Nat.mul_pos hk (Nat.pos_of_ne_zero hne)
      omega
    · rw [hf]
      exact Nat.mul_le_mul_left k hle
    · intro hmore
      rw [hf, hfull fun h => hmore (by rw [h, List.map_nil])]

end Batcher

namespace InFile

/-- `gcount()` of a read of `n` bytes. -/
def gcount (f : InFile) (n : Nat) : Nat := if f.eof then 0 else min n f.rest.length

/-- What a loop gets that reads `n` bytes at a time until nothing is delivered or a read passes the
end. -/
def pieces (n : Nat) (buf : Bytes) (f : InFile) : List Bytes :=
  if _h : f.gcount n = 0 then []
  else if (f.read buf n).2.eof then [(f.read buf n).1.take (f.gcount n)]
  else (f.read buf n).1.take (f.gcount n) :: pieces n (f.read buf n).1 (f.read buf n).2
termination_by f.rest.length
decreasing_by
  unfold gcount at _h
  unfold read
  split
  case isTrue heof => simp [heof] at _h
  case isFalse heof =>
    rw [if_neg heof] at _h
    split
    case isTrue => rw [List.length_drop]; omega
    case isFalse => rw [List.length_nil]; omega

theorem take_memcpy_zero (buf x : Bytes) : (memcpy buf 0 x).take x.length = x := by
  have h := @take_memcpy buf 0 x (Nat.zero_le _)
  rw [Nat.zero_add, List.take_zero, List.nil_append] at h
  exact h

theorem read_full {n : Nat} {b : Bytes} (hb : b.length = n) (rest buf : Bytes) :
    (InFile.mk (b ++ rest) false).read buf n = (memcpy buf 0 b, ⟨rest, false⟩) ∧
      (InFile.mk (b ++ rest) false).gcount n = n := by
  have hlen : (b ++ rest).length = n + rest.length := by rw [List.length_append, hb]
  unfold read gcount
  dsimp only
  rw [if_neg Bool.false_ne_true, if_neg Bool.false_ne_true, if_pos (by omega), hlen, ← hb,
    List.take_left' rfl, List.drop_left' rfl]
  exact ⟨rfl, Nat.min_eq_left (Nat.le_add_right _ _)⟩

theorem read_short {n : Nat} {b : Bytes} (hb : b.length < n) (buf : Bytes) :
    (InFile.mk b false).read buf n = (memcpy buf 0 b, ⟨[], true⟩) ∧
      (InFile.mk b false).gcount n = b.length := by
  unfold read gcount
  dsimp only
  rw [if_neg Bool.false_ne_true, if_neg Bool.false_ne_true, if_neg (by omega)]
  exact ⟨rfl, Nat.min_eq_right (by omega)⟩

/-- The loop gets the batches that the file was written in. -/
theorem pieces_cut {n : Nat} {bs : List Bytes} (h : Cut n bs) (buf : Bytes) :
    pieces n buf ⟨bs.flatten, false⟩ = bs := by
  induction bs generalizing buf with
  | nil =>
    unfold pieces
    rw [dif_pos]
    simp [gcount]
  | cons b bs ih =>
    obtain ⟨hne, hle, hfull, hrest⟩ := h
    rw [List.flatten_cons]
    unfold pieces
    by_cases hlen : b.length = n
    · obtain ⟨hread, hcount⟩ := read_full hlen bs.flatten buf
      rw [hcount, dif_neg (by omega), hread, if_neg Bool.false_ne_true, ih hrest, ← hlen,
        take_memcpy_zero]
    · -- a batch that is not full is the last one, and its read passes the end
      have hlast : bs = [] := by
        by_contra hmore
        exact hlen (hfull hmore)
      obtain ⟨hread, hcount⟩ := read_short (n := n) (b := b) (by omega) buf
      rw [hlast, List.flatten_nil, List.append_nil, hcount, dif_neg hne, hread, if_pos rfl,
        take_memcpy_zero]

end InFile

end ShieldReduce.Lib
