import Mathlib.Tactic.Ring
import ShieldReduce.Store.Lz4

/-!
# The LZ4 block format

A block is a list of sequences, each some literals and a copy from earlier output, and the last
literals. `lz4Loop_block` is the decoder on any block whose copies keep the distances from the end
that the format asks for: whichever of its two loops takes a sequence, the content is the same.
-/

namespace ShieldReduce.Store
open Lib

/-- What a length leaves for the bytes after the token. -/
def lengthBytes (n : Nat) : Bytes := List.replicate (n / 255) 255 ++ [UInt8.ofNat (n % 255)]

def extraLength (n : Nat) : Bytes := if RUN_MASK ≤ n then lengthBytes (n - RUN_MASK) else []

def le16 (n : Nat) : Bytes := [UInt8.ofNat n, UInt8.ofNat (n / 256)]

structure Lz4Sequence where
  literals : Bytes
  offset : Nat
  /-- The match length less `MINMATCH`. -/
  matchCode : Nat

namespace Lz4Sequence

def token (s : Lz4Sequence) : Nat :=
  min s.literals.length RUN_MASK * 16 + min s.matchCode ML_MASK

/-- From the offset on, with what follows in the block. -/
def matchPart (s : Lz4Sequence) (rest : Bytes) : Bytes :=
  le16 s.offset ++ (extraLength s.matchCode ++ rest)

def bytes (s : Lz4Sequence) (rest : Bytes) : Bytes :=
  UInt8.ofNat s.token ::
    (extraLength s.literals.length ++ (s.literals ++ s.matchPart rest))

def apply (op : Bytes) (s : Lz4Sequence) : Bytes :=
  copyMatch s.offset (s.matchCode + MINMATCH) (op ++ s.literals)

/-- The sequence at `pos` in a content of `n` bytes. -/
structure Fits (n pos : Nat) (s : Lz4Sequence) : Prop where
  offset_pos : 0 < s.offset
  offset_lt : s.offset < 65536
  offset_le : s.offset ≤ pos + s.literals.length
  literals_le : pos + s.literals.length + MFLIMIT ≤ n
  match_le : pos + s.literals.length + (s.matchCode + MINMATCH) + LASTLITERALS ≤ n

theorem token_lt (s : Lz4Sequence) : s.token < 256 := by
  unfold token RUN_MASK ML_MASK
  omega

theorem token_div (s : Lz4Sequence) : s.token / 16 = min s.literals.length RUN_MASK := by
  unfold token ML_MASK
  omega

theorem token_mod (s : Lz4Sequence) : s.token % 16 = min s.matchCode ML_MASK := by
  unfold token ML_MASK
  omega

theorem apply_length (op : Bytes) (s : Lz4Sequence) :
    (s.apply op).length = op.length + s.literals.length + (s.matchCode + MINMATCH) := by
  unfold apply
  rw [copyMatch_length, List.length_append]

end Lz4Sequence

def lastBytes (literals : Bytes) : Bytes :=
  UInt8.ofNat (min literals.length RUN_MASK * 16) :: (extraLength literals.length ++ literals)

def blockBytes (last : Bytes) (ss : List Lz4Sequence) : Bytes :=
  ss.foldr Lz4Sequence.bytes (lastBytes last)

def blockContent (op : Bytes) (ss : List Lz4Sequence) : Bytes := ss.foldl (fun o s => s.apply o) op

def BlockFits (n : Nat) : Nat → List Lz4Sequence → Prop
  | _, [] => True
  | pos, s :: ss =>
    s.Fits n pos ∧ BlockFits n (pos + s.literals.length + (s.matchCode + MINMATCH)) ss

theorem readVariableLengthLoop_replicate {k r : Nat} (q acc : Nat) (rest : Bytes)
    (hk : k ≤ rest.length) (hr : r < 255) :
    readVariableLengthLoop k (List.replicate q 255 ++ ([UInt8.ofNat r] ++ rest)) acc =
      if k < rest.length then .ok rest (acc + (255 * q + r))
      else .loop_error rest (acc + (255 * q + r)) := by
  induction q generalizing acc with
  | zero =>
    have hbyte : (UInt8.ofNat r).toNat = r := by
      rw [UInt8.toNat_ofNat']
      omega
    have hne : UInt8.ofNat r ≠ 255 := by
      intro h
      have := congrArg UInt8.toNat h
      rw [hbyte] at this
      simp at this
      omega
    rw [List.replicate_zero, List.nil_append, List.singleton_append, readVariableLengthLoop]
    simp only [hbyte, if_neg hne, Nat.mul_zero, Nat.zero_add]
    by_cases h : k < rest.length
    · rw [if_neg (by omega), if_pos h]
    · rw [if_pos (by omega), if_neg h]
  | succ q ih =>
    have hmore : ¬(List.replicate q 255 ++ ([UInt8.ofNat r] ++ rest)).length ≤ k := by
      simp only [List.length_append, List.length_replicate, List.length_singleton]
      omega
    have hsum : acc + (255 : UInt8).toNat + (255 * q + r) = acc + (255 * (q + 1) + r) := by
      rw [show (255 : UInt8).toNat = 255 from rfl]
      omega
    rw [List.replicate_succ, List.cons_append, readVariableLengthLoop, if_neg hmore, if_pos rfl,
      ih, hsum]

theorem readVariableLengthLoop_lengthBytes {k : Nat} (n : Nat) (rest : Bytes)
    (hk : k ≤ rest.length) :
    readVariableLengthLoop k (lengthBytes n ++ rest) 0 =
      if k < rest.length then .ok rest n else .loop_error rest n := by
  unfold lengthBytes
  rw [List.append_assoc, readVariableLengthLoop_replicate _ _ _ hk (Nat.mod_lt n (by decide)),
    Nat.zero_add, Nat.div_add_mod]

theorem lengthBytes_length (n : Nat) : (lengthBytes n).length = n / 255 + 1 := by
  unfold lengthBytes
  rw [List.length_append, List.length_replicate, List.length_singleton]

theorem extraLength_length (n : Nat) : (extraLength n).length = (n + 240) / 255 := by
  unfold extraLength RUN_MASK
  split
  · rw [lengthBytes_length]
    omega
  · rw [List.length_nil]
    omega

/-- A run of fifteen literals or more, as both loops read its length. -/
theorem readVariableLength_literals {literals tail : Bytes} (h : RUN_MASK ≤ literals.length) :
    readVariableLength RUN_MASK true (extraLength literals.length ++ (literals ++ tail)) =
        .ok (literals ++ tail) (literals.length - RUN_MASK) ∨
      readVariableLength RUN_MASK true (extraLength literals.length ++ (literals ++ tail)) =
        .loop_error (literals ++ tail) (literals.length - RUN_MASK) := by
  have hrest : RUN_MASK ≤ (literals ++ tail).length := by
    rw [List.length_append]
    omega
  have hlong : ¬(extraLength literals.length ++ (literals ++ tail)).length ≤ RUN_MASK := by
    rw [List.length_append, extraLength_length]
    unfold RUN_MASK at h hrest ⊢
    omega
  unfold readVariableLength
  rw [if_neg (fun hc => hlong hc.2), extraLength, if_pos h,
    readVariableLengthLoop_lengthBytes _ _ hrest]
  split
  · exact Or.inl rfl
  · exact Or.inr rfl

theorem readVariableLength_match {code : Nat} {rest : Bytes} (h : ML_MASK ≤ code)
    (hrest : 4 < rest.length) :
    readVariableLength 4 false (extraLength code ++ rest) = .ok rest (code - ML_MASK) := by
  have hrun : RUN_MASK ≤ code := h
  unfold readVariableLength
  rw [if_neg (by simp), extraLength, if_pos hrun,
    readVariableLengthLoop_lengthBytes _ _ (Nat.le_of_lt hrest), if_pos hrest]
  rfl

theorem readLE16_le16 {n : Nat} (rest : Bytes) (h : n < 65536) :
    readLE16 (le16 n ++ rest) = n := by
  unfold readLE16 le16
  simp only [List.cons_append, List.getD_cons_zero, List.getD_cons_succ, UInt8.toNat_ofNat']
  omega

section Decode
variable {n cap : Nat} {s : Lz4Sequence} {op rest : Bytes}

theorem matchPart_length (s : Lz4Sequence) (rest : Bytes) :
    2 + rest.length ≤ (s.matchPart rest).length := by
  unfold Lz4Sequence.matchPart le16
  simp only [List.length_append, List.length_cons, List.length_nil]
  omega

theorem readLE16_matchPart (h : s.Fits n op.length) :
    readLE16 (s.matchPart rest) = s.offset := readLE16_le16 _ h.offset_lt

theorem drop_matchPart : (s.matchPart rest).drop 2 = extraLength s.matchCode ++ rest := rfl

theorem safeMatchCopy_fits (hcap : n ≤ cap) (h : s.Fits n op.length) :
    safeMatchCopy cap s.offset (s.matchCode + MINMATCH) rest (op ++ s.literals) =
      .safe rest (s.apply op) := by
  have h₁ := h.offset_le
  have h₂ := h.match_le
  unfold safeMatchCopy
  rw [List.length_append, if_neg (by omega), if_neg (by omega)]
  rfl

theorem copyMatchLabel_fits (hcap : n ≤ cap) (h : s.Fits n op.length) (hrest : 6 ≤ rest.length) :
    copyMatchLabel cap (s.token % 16) s.offset (extraLength s.matchCode ++ rest)
      (op ++ s.literals) = .safe rest (s.apply op) := by
  unfold copyMatchLabel
  rw [s.token_mod]
  by_cases hcode : ML_MASK ≤ s.matchCode
  · have hsum : ML_MASK + (s.matchCode - ML_MASK) + MINMATCH = s.matchCode + MINMATCH := by omega
    rw [if_pos (by omega), readVariableLength_match hcode (by omega)]
    dsimp only
    rw [Nat.min_eq_right hcode, hsum]
    exact safeMatchCopy_fits hcap h
  · have hnil : extraLength s.matchCode = [] := if_neg hcode
    rw [if_neg (by omega), hnil, List.nil_append, Nat.min_eq_left (by omega)]
    exact safeMatchCopy_fits hcap h

theorem safeLiteralCopy_fits (hcap : n ≤ cap) (h : s.Fits n op.length) (hrest : 6 ≤ rest.length) :
    safeLiteralCopy cap s.token s.literals.length (s.literals ++ s.matchPart rest) op =
      .safe rest (s.apply op) := by
  have h₁ := h.literals_le
  have h₂ := matchPart_length s rest
  have hinside : ¬(cap < op.length + s.literals.length + MFLIMIT ∨
      (s.literals ++ s.matchPart rest).length < s.literals.length + (2 + 1 + LASTLITERALS)) := by
    rw [List.length_append]
    unfold LASTLITERALS
    omega
  unfold safeLiteralCopy
  rw [if_neg hinside]
  dsimp only
  rw [List.take_left' rfl, List.drop_left' rfl, readLE16_matchPart h, drop_matchPart]
  exact copyMatchLabel_fits hcap h hrest

/-- Where a sequence leaves either loop. -/
def Follows (rest op : Bytes) (st : Lz4Step) : Prop := st = .fast rest op ∨ st = .safe rest op

theorem fastMatchCopy_fits (hcap : n ≤ cap) (h : s.Fits n op.length) :
    Follows rest (s.apply op)
      (fastMatchCopy cap s.offset (s.matchCode + MINMATCH) rest (op ++ s.literals)) := by
  have h₁ := h.offset_le
  unfold fastMatchCopy
  split
  · exact Or.inr (safeMatchCopy_fits hcap h)
  · rw [List.length_append, if_neg (by omega)]
    exact Or.inl rfl

theorem fastMatch_fits (hcap : n ≤ cap) (h : s.Fits n op.length) (hrest : 6 ≤ rest.length) :
    Follows rest (s.apply op)
      (fastMatch cap s.token (s.matchPart rest) (op ++ s.literals)) := by
  have h₁ := h.offset_le
  unfold fastMatch
  dsimp only
  rw [readLE16_matchPart h, drop_matchPart, s.token_mod]
  by_cases hcode : ML_MASK ≤ s.matchCode
  · have hsum : ML_MASK + (s.matchCode - ML_MASK) + MINMATCH = s.matchCode + MINMATCH := by omega
    rw [if_pos (by omega), List.length_append, if_neg (by omega),
      readVariableLength_match hcode (by omega)]
    dsimp only
    rw [Nat.min_eq_right hcode, hsum]
    exact fastMatchCopy_fits hcap h
  · have hnil : extraLength s.matchCode = [] := if_neg hcode
    rw [if_neg (by omega), hnil, List.nil_append, Nat.min_eq_left (by omega)]
    exact fastMatchCopy_fits hcap h

theorem fastLongLiteral_fits (hcap : n ≤ cap) (h : s.Fits n op.length) (hrest : 6 ≤ rest.length) :
    Follows rest (s.apply op)
      (fastLongLiteral cap s.token s.literals.length (s.literals ++ s.matchPart rest) op) := by
  unfold fastLongLiteral
  split
  · exact Or.inr (safeLiteralCopy_fits hcap h hrest)
  · rw [List.take_left' rfl, List.drop_left' rfl]
    exact fastMatch_fits hcap h hrest

theorem fastSequence_fits (hcap : n ≤ cap) (h : s.Fits n op.length) (hrest : 6 ≤ rest.length) :
    Follows rest (s.apply op) (fastSequence cap s.token
      (extraLength s.literals.length ++ (s.literals ++ s.matchPart rest)) op) := by
  unfold fastSequence
  dsimp only
  rw [s.token_div]
  by_cases hrun : RUN_MASK ≤ s.literals.length
  · have hsum : RUN_MASK + (s.literals.length - RUN_MASK) = s.literals.length := by omega
    rw [if_pos (by omega), Nat.min_eq_right hrun]
    rcases @readVariableLength_literals s.literals (s.matchPart rest) hrun with hr | hr
    · rw [hr]
      dsimp only
      rw [hsum]
      exact fastLongLiteral_fits hcap h hrest
    · rw [hr]
      dsimp only
      rw [hsum]
      exact fastLongLiteral_fits hcap h hrest
  · have hnil : extraLength s.literals.length = [] := if_neg hrun
    rw [if_neg (by omega), hnil, List.nil_append, Nat.min_eq_left (by omega)]
    split
    · exact Or.inr (safeLiteralCopy_fits hcap h hrest)
    · rw [List.take_left' rfl, List.drop_left' rfl]
      exact fastMatch_fits hcap h hrest

theorem safeSequence_fits (hcap : n ≤ cap) (h : s.Fits n op.length) (hrest : 6 ≤ rest.length) :
    safeSequence cap s.token
      (extraLength s.literals.length ++ (s.literals ++ s.matchPart rest)) op =
      .safe rest (s.apply op) := by
  unfold safeSequence
  dsimp only
  rw [s.token_div]
  by_cases hrun : RUN_MASK ≤ s.literals.length
  · have hsum : RUN_MASK + (s.literals.length - RUN_MASK) = s.literals.length := by omega
    rw [if_neg (by omega), if_pos (by omega), Nat.min_eq_right hrun]
    rcases @readVariableLength_literals s.literals (s.matchPart rest) hrun with hr | hr
    · rw [hr]
      dsimp only
      rw [hsum]
      exact safeLiteralCopy_fits hcap h hrest
    · rw [hr]
      dsimp only
      rw [hsum]
      exact safeLiteralCopy_fits hcap h hrest
  · have hnil : extraLength s.literals.length = [] := if_neg hrun
    rw [hnil, List.nil_append, Nat.min_eq_left (by omega), List.take_left' rfl,
      List.drop_left' rfl, readLE16_matchPart h, drop_matchPart]
    split
    · split
      · rename_i hm
        have hcode : ¬ML_MASK ≤ s.matchCode := by
          have := hm.1
          rw [s.token_mod] at this
          omega
        have hnil' : extraLength s.matchCode = [] := if_neg hcode
        rw [hnil', List.nil_append, s.token_mod, Nat.min_eq_left (by omega)]
        rfl
      · exact copyMatchLabel_fits hcap h hrest
    · rw [if_neg (by omega)]
      exact safeLiteralCopy_fits hcap h hrest

end Decode

section Block
variable {n cap : Nat} {op last : Bytes}

theorem safeLiteralCopy_last (token : Nat) (hlen : op.length + last.length ≤ cap) :
    safeLiteralCopy cap token last.length last op = .done (op ++ last) := by
  unfold safeLiteralCopy LASTLITERALS
  rw [if_pos (Or.inr (by omega)), if_pos ⟨rfl, hlen⟩]

theorem fastLongLiteral_last (token : Nat) (hlen : op.length + last.length ≤ cap) :
    fastLongLiteral cap token last.length last op = .done (op ++ last) := by
  unfold fastLongLiteral
  rw [if_pos (Or.inr (by omega))]
  exact safeLiteralCopy_last token hlen

theorem lastToken (last : Bytes) :
    (UInt8.ofNat (min last.length RUN_MASK * 16)).toNat / 16 = min last.length RUN_MASK := by
  unfold RUN_MASK
  rw [UInt8.toNat_ofNat']
  omega

theorem fastSequence_last (hlen : op.length + last.length ≤ cap) :
    fastSequence cap (UInt8.ofNat (min last.length RUN_MASK * 16)).toNat
      (extraLength last.length ++ last) op = .done (op ++ last) := by
  unfold fastSequence
  dsimp only
  rw [lastToken]
  by_cases hrun : RUN_MASK ≤ last.length
  · have hsum : RUN_MASK + (last.length - RUN_MASK) = last.length := by omega
    rw [if_pos (by omega), Nat.min_eq_right hrun]
    have hr := @readVariableLength_literals last [] hrun
    rw [List.append_nil] at hr
    rcases hr with hr | hr
    · rw [hr]
      dsimp only
      rw [hsum, fastLongLiteral_last _ hlen]
    · rw [hr]
      dsimp only
      rw [hsum, fastLongLiteral_last _ hlen]
  · have hnil : extraLength last.length = [] := if_neg hrun
    have hshort : last.length < 16 + 1 := by
      unfold RUN_MASK at hrun
      omega
    rw [if_neg (by omega), hnil, List.nil_append, Nat.min_eq_left (by omega), if_pos hshort,
      safeLiteralCopy_last _ hlen]

theorem safeSequence_last (hlen : op.length + last.length ≤ cap) :
    safeSequence cap (UInt8.ofNat (min last.length RUN_MASK * 16)).toNat
      (extraLength last.length ++ last) op = .done (op ++ last) := by
  unfold safeSequence
  dsimp only
  rw [lastToken]
  by_cases hrun : RUN_MASK ≤ last.length
  · have hsum : RUN_MASK + (last.length - RUN_MASK) = last.length := by omega
    rw [if_neg (by omega), if_pos (by omega), Nat.min_eq_right hrun]
    have hr := @readVariableLength_literals last [] hrun
    rw [List.append_nil] at hr
    rcases hr with hr | hr
    · rw [hr]
      dsimp only
      rw [hsum, safeLiteralCopy_last _ hlen]
    · rw [hr]
      dsimp only
      rw [hsum, safeLiteralCopy_last _ hlen]
  · have hnil : extraLength last.length = [] := if_neg hrun
    have hshort : ¬16 < last.length := by
      unfold RUN_MASK at hrun
      omega
    rw [hnil, List.nil_append, Nat.min_eq_left (by omega), if_neg (by omega), if_neg (by omega),
      safeLiteralCopy_last _ hlen]

theorem bytes_length (s : Lz4Sequence) (rest : Bytes) :
    3 + rest.length ≤ (s.bytes rest).length := by
  have h := matchPart_length s rest
  unfold Lz4Sequence.bytes
  simp only [List.length_append, List.length_cons]
  omega

theorem lastBytes_length (last : Bytes) : last.length + 1 ≤ (lastBytes last).length := by
  unfold lastBytes
  simp only [List.length_append, List.length_cons]
  omega

theorem blockBytes_length (last : Bytes) (ss : List Lz4Sequence) :
    last.length + 1 ≤ (blockBytes last ss).length := by
  induction ss with
  | nil => exact lastBytes_length last
  | cons s ss ih =>
    have h := bytes_length s (blockBytes last ss)
    change last.length + 1 ≤ (s.bytes (blockBytes last ss)).length
    omega

/-- After the last copy the content goes on for at least the last literals. -/
theorem last_length {s : Lz4Sequence} {ss : List Lz4Sequence}
    (hfits : BlockFits n op.length (s :: ss))
    (hn : (blockContent op (s :: ss)).length + last.length = n) : LASTLITERALS ≤ last.length := by
  induction ss generalizing op s with
  | nil =>
    have hs := hfits.1.match_le
    change (s.apply op).length + last.length = n at hn
    rw [s.apply_length] at hn
    omega
  | cons t ss ih =>
    have htail := hfits.2
    rw [← s.apply_length] at htail
    exact ih htail hn

/-- The decoder from any sequence of a block on. -/
theorem lz4Loop_block {ss : List Lz4Sequence} {fuel : Nat} {st : Lz4Step} (hcap : n ≤ cap)
    (hfits : BlockFits n op.length ss) (hn : (blockContent op ss).length + last.length = n)
    (hst : Follows (blockBytes last ss) op st) (hfuel : (blockBytes last ss).length ≤ fuel) :
    lz4Loop cap fuel st = some (blockContent op ss ++ last) := by
  induction ss generalizing op fuel st with
  | nil =>
    have hlen : op.length + last.length ≤ cap := Nat.le_trans (Nat.le_of_eq hn) hcap
    have hdone : ∀ fuel, lz4Loop cap fuel (.done (op ++ last)) = some (op ++ last) := by
      intro fuel
      cases fuel <;> rfl
    cases fuel with
    | zero =>
      have := lastBytes_length last
      change (lastBytes last).length ≤ 0 at hfuel
      omega
    | succ fuel =>
      rcases hst with rfl | rfl
      · change lz4Loop cap fuel (fastSequence cap _ _ op) = _
        rw [fastSequence_last hlen]
        exact hdone fuel
      · change lz4Loop cap fuel (safeSequence cap _ _ op) = _
        rw [safeSequence_last hlen]
        exact hdone fuel
  | cons s ss ih =>
    have hs := hfits.1
    have htail := hfits.2
    have hrest : 6 ≤ (blockBytes last ss).length := by
      have h₁ := last_length hfits hn
      have h₂ := blockBytes_length last ss
      unfold LASTLITERALS at h₁
      omega
    have hbytes := bytes_length s (blockBytes last ss)
    have htoken : (UInt8.ofNat s.token).toNat = s.token := by
      rw [UInt8.toNat_ofNat', Nat.mod_eq_of_lt s.token_lt]
    rw [← s.apply_length] at htail
    change (s.bytes (blockBytes last ss)).length ≤ fuel at hfuel
    cases fuel with
    | zero => omega
    | succ fuel =>
      have hgo : ∀ st, Follows (blockBytes last ss) (s.apply op) st →
          lz4Loop cap fuel st = some (blockContent op (s :: ss) ++ last) := by
        intro st hst
        exact ih htail hn hst (by omega)
      rcases hst with rfl | rfl
      · change lz4Loop cap fuel (fastSequence cap (UInt8.ofNat s.token).toNat _ op) = _
        rw [htoken]
        exact hgo _ (fastSequence_fits hcap hs hrest)
      · change lz4Loop cap fuel (safeSequence cap (UInt8.ofNat s.token).toNat _ op) = _
        rw [htoken]
        exact hgo _ (Or.inr (safeSequence_fits hcap hs hrest))

/-- `LZ4_decompress_safe` on a whole block, whatever room beyond the content it is given. -/
theorem LZ4_decompress_safe_block {ss : List Lz4Sequence} (hcap : n ≤ cap)
    (hpos : 0 < cap) (hfits : BlockFits n 0 ss)
    (hn : (blockContent [] ss).length + last.length = n) :
    LZ4_decompress_safe (blockBytes last ss) cap = some (blockContent [] ss ++ last) := by
  have hlen := blockBytes_length last ss
  unfold LZ4_decompress_safe
  rw [if_neg (by omega), if_neg (by omega)]
  split
  · exact lz4Loop_block hcap hfits hn (Or.inr rfl) (Nat.le_refl _)
  · exact lz4Loop_block hcap hfits hn (Or.inl rfl) (Nat.le_refl _)

end Block

end ShieldReduce.Store
