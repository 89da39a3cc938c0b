import ShieldReduce.Store.Chunk
import ShieldReduce.Store.Lz4Compress

/-!
# The LZ4 round trip

The compressor emits a block: the output so far is the bytes of sequences whose content is the
source up to `anchor`. Every match it takes is behind, close enough and equal byte for byte, also
where positions are kept in 16 bits and where eight bytes are compared at a time.
-/

namespace ShieldReduce.Store
open Lib

section Count
variable {source : Bytes} {p m lim w : Nat}

/-- How far the source at `m` and at `p` agree, within `k` bytes. -/
def agreement (source : Bytes) (m p k : Nat) : Nat :=
  commonPrefix (slice source m k) (slice source p k)

theorem read_eq_iff (hm : m + w ≤ source.length) (hp : p + w ≤ source.length) :
    leWord (slice source m w) = leWord (slice source p w) ↔ slice source m w = slice source p w := by
  refine ⟨fun h => leWord_injective ?_ h, congrArg leWord⟩
  rw [slice_length_of_le hm, slice_length_of_le hp]

theorem agreement_add {k : Nat} (hp : p + w ≤ source.length)
    (h : slice source m w = slice source p w) :
    agreement source m p (w + k) = w + agreement source (m + w) (p + w) k := by
  unfold agreement
  rw [slice_add, slice_add, h, commonPrefix_append, slice_length_of_le hp]

theorem agreement_of_ne {k : Nat} (hm : m + w ≤ source.length) (hp : p + w ≤ source.length)
    (h : slice source m w ≠ slice source p w) :
    agreement source m p (w + k) = commonPrefix (slice source m w) (slice source p w) := by
  have hlen : (slice source m w).length = (slice source p w).length := by
    rw [slice_length_of_le hm, slice_length_of_le hp]
  unfold agreement
  rw [slice_add, slice_add, commonPrefix_append_of_ne _ _ hlen h]

theorem agreement_le (source : Bytes) (m p k : Nat) : agreement source m p k ≤ k := by
  have h := (commonPrefix_le (slice source m k) (slice source p k)).1
  rw [slice_length] at h
  unfold agreement
  omega

theorem slice_agreement (source : Bytes) (m p k : Nat) :
    slice source m (agreement source m p k) = slice source p (agreement source m p k) := by
  have hle := agreement_le source m p k
  have htake := take_commonPrefix (slice source m k) (slice source p k)
  unfold slice at htake ⊢
  rw [List.take_take, List.take_take] at htake
  unfold agreement slice at hle ⊢
  rwa [Nat.min_eq_left hle] at htake

theorem commonPrefix_lt {a b : Bytes} (hlen : a.length = b.length) (h : a ≠ b) :
    commonPrefix a b < a.length := by
  apply Nat.lt_of_le_of_ne (commonPrefix_le a b).1
  intro heq
  have htake := take_commonPrefix a b
  rw [heq, List.take_length, hlen, List.take_length] at htake
  exact h htake

/-- One of the comparisons at the end of `LZ4_count`: what is left is below `w`. -/
theorem agreement_lt (hlim : lim ≤ source.length) (hm : m ≤ p) (hp : p ≤ lim)
    (h : ¬(p + w ≤ lim ∧ slice source m w = slice source p w)) :
    agreement source m p (lim - p) < w := by
  have hle := agreement_le source m p (lim - p)
  by_cases hfit : p + w ≤ lim
  · have hne : slice source m w ≠ slice source p w := fun he => h ⟨hfit, he⟩
    obtain ⟨k, hk⟩ : ∃ k, lim - p = w + k := ⟨lim - p - w, by omega⟩
    have hm' : m + w ≤ source.length := by omega
    have hp' : p + w ≤ source.length := by omega
    have hlt := commonPrefix_lt (by rw [slice_length_of_le hm', slice_length_of_le hp']) hne
    rw [slice_length_of_le hm'] at hlt
    rw [hk, agreement_of_ne hm' hp' hne]
    exact hlt
  · omega

theorem agreement_step (hlim : lim ≤ source.length) (hfit : p + w ≤ lim)
    (h : slice source m w = slice source p w) :
    agreement source m p (lim - p) =
      w + agreement source (m + w) (p + w) (lim - (p + w)) := by
  have hk : lim - p = w + (lim - (p + w)) := by omega
  rw [hk, agreement_add (by omega) h]

/-- Each comparison at the end takes its bytes off both sides or leaves less than it compares. -/
theorem countStep_spec {st : Nat × Nat} (hlim : lim ≤ source.length) (hm : st.2 ≤ st.1)
    (hp : st.1 ≤ lim) (hw : 0 < w) (h : agreement source st.2 st.1 (lim - st.1) < 2 * w) :
    (countStep source lim w st).2 ≤ (countStep source lim w st).1 ∧
      (countStep source lim w st).1 ≤ lim ∧
      (countStep source lim w st).1 + agreement source (countStep source lim w st).2
          (countStep source lim w st).1 (lim - (countStep source lim w st).1) =
        st.1 + agreement source st.2 st.1 (lim - st.1) ∧
      agreement source (countStep source lim w st).2 (countStep source lim w st).1
        (lim - (countStep source lim w st).1) < w := by
  unfold countStep
  by_cases hfit : st.1 + w ≤ lim
  · have hread := @read_eq_iff source st.1 st.2 w (by omega) (by omega)
    by_cases heq : slice source st.2 w = slice source st.1 w
    · have hstep := agreement_step hlim hfit heq
      rw [if_pos ⟨by omega, hread.mpr heq⟩]
      dsimp only
      omega
    · have hlt := @agreement_lt source st.1 st.2 lim w hlim hm hp fun hc => heq hc.2
      rw [if_neg (fun hc => heq (hread.mp hc.2))]
      exact ⟨hm, hp, rfl, hlt⟩
  · have hlt := @agreement_lt source st.1 st.2 lim w hlim hm hp fun hc => hfit hc.1
    rw [if_neg (fun hc => hfit (by omega))]
    exact ⟨hm, hp, rfl, hlt⟩

theorem countTail_eq {pStart : Nat} (hlim : lim ≤ source.length) (hm : m ≤ p) (hp : p ≤ lim)
    (hshort : lim ≤ p + 7) :
    countTail source pStart p m lim = p + agreement source m p (lim - p) - pStart := by
  have hle := agreement_le source m p (lim - p)
  have h₄ := @countStep_spec source lim 4 (p, m) hlim hm hp (by decide)
    (by dsimp only; omega)
  have h₂ := countStep_spec hlim h₄.1 h₄.2.1 (by decide : 0 < 2) h₄.2.2.2
  have h₁ := countStep_spec hlim h₂.1 h₂.2.1 (by decide : 0 < 1) h₂.2.2.2
  have hsum := h₁.2.2.1.trans (h₂.2.2.1.trans h₄.2.2.1)
  unfold countTail
  have hlast := h₁.2.2.2
  rw [Nat.lt_one_iff.mp hlast, Nat.add_zero] at hsum
  rw [hsum]

theorem diff_eq_zero_iff (hm : m + 8 ≤ source.length) (hp : p + 8 ≤ source.length) :
    LZ4_read_ARCH source m ^^^ LZ4_read_ARCH source p = 0 ↔
      slice source m 8 = slice source p 8 := by
  unfold LZ4_read_ARCH
  rw [Nat.xor_eq_zero_iff]
  exact read_eq_iff hm hp

/-- A word that differs ends the count where the first different byte stands. -/
theorem agreement_word (hlim : lim ≤ source.length) (hm : m ≤ p) (hfit : p + 7 < lim)
    (h : LZ4_read_ARCH source m ^^^ LZ4_read_ARCH source p ≠ 0) :
    LZ4_NbCommonBytes (LZ4_read_ARCH source m ^^^ LZ4_read_ARCH source p) =
      agreement source m p (lim - p) := by
  have hm' : m + 8 ≤ source.length := by omega
  have hp' : p + 8 ≤ source.length := by omega
  have hne : slice source m 8 ≠ slice source p 8 := fun he => h ((diff_eq_zero_iff hm' hp').mpr he)
  have hlen := slice_length_of_le hm'
  have hctz := ctz_xor_div (by rw [hlen, slice_length_of_le hp']) hne
  have hk : lim - p = 8 + (lim - p - 8) := by omega
  rw [hlen] at hctz
  rw [hk, agreement_of_ne hm' hp' hne, ← hctz]
  rfl

theorem countLoop_eq {pStart fuel : Nat} (hlim : lim ≤ source.length) (hm : m ≤ p)
    (hp : p ≤ lim) (hfuel : lim ≤ p + 8 * fuel + 7) :
    countLoop source pStart lim fuel p m = p + agreement source m p (lim - p) - pStart := by
  induction fuel generalizing p m with
  | zero => exact countTail_eq hlim hm hp hfuel
  | succ fuel ih =>
    rw [countLoop]
    split
    · rename_i hfit
      dsimp only
      split
      · rename_i hdiff
        have heq := (diff_eq_zero_iff (by omega) (by omega)).mp hdiff
        have hstep := agreement_step hlim hfit heq
        rw [ih (by omega) (by omega) (by omega)]
        omega
      · rename_i hdiff
        rw [agreement_word hlim hm hfit hdiff]
    · rename_i hfit
      exact countTail_eq hlim hm hp (by omega)

/-- Eight bytes at a time, then four, two and one: the count is the plain one. -/
theorem LZ4_count_eq (hlim : lim ≤ source.length) (hm : m ≤ p) (hp : p ≤ lim) :
    LZ4_count source p m lim = agreement source m p (lim - p) := by
  unfold LZ4_count
  dsimp only
  split
  · rename_i hfit
    split
    · rename_i hdiff
      have heq := (diff_eq_zero_iff (by omega) (by omega)).mp hdiff
      have hstep := agreement_step hlim hfit heq
      rw [countLoop_eq hlim (by omega) (by omega) (by omega)]
      omega
    · rename_i hdiff
      exact agreement_word hlim hm hfit hdiff
  · rw [countLoop_eq hlim hm hp (by omega)]
    omega

end Count

section Search
variable {tableType : TableType} {source : Bytes}

/-- Everything in the table is a position up to `p`. -/
def UpTo (p : Nat) (hashTable : HashTable) : Prop := ∀ h, hashTable h ≤ p

theorem UpTo.mono {p q : Nat} {hashTable : HashTable} (h : UpTo p hashTable) (hpq : p ≤ q) :
    UpTo q hashTable := fun i => Nat.le_trans (h i) hpq

theorem UpTo.put {p idx h : Nat} {hashTable : HashTable} (hup : UpTo p hashTable)
    (hidx : idx ≤ p) : UpTo p (LZ4_putIndexOnHash tableType idx h hashTable) := by
  intro i
  have h₁ := Nat.mod_le idx (2 ^ 16)
  have h₂ := Nat.mod_le idx (2 ^ 32)
  have hi := hup i
  unfold LZ4_putIndexOnHash
  split
  · split
    · omega
    · omega
  · exact hi

/-- A match the compressor may take at `ip`, `len` bytes long. -/
structure MatchAt (source : Bytes) (m ip len : Nat) : Prop where
  lt : m < ip
  near : ip - m < 65536
  le : ip + len ≤ source.length
  same : slice source m len = slice source ip len

/-- 16-bit positions are only used where they reach. -/
theorem near_of_not_tooFar {m ip : Nat} (hbyU16 : tableType = .byU16 → source.length < LZ4_64Klimit)
    (hip : ip + MFLIMIT ≤ source.length) (hfar : ¬tooFar tableType m ip) : ip - m < 65536 := by
  unfold LZ4_64Klimit at hbyU16
  unfold MFLIMIT at hbyU16 hip
  unfold tooFar LZ4_DISTANCE_MAX at hfar
  by_cases ht : tableType = .byU16
  · have := hbyU16 ht
    omega
  · have : ¬m + 65535 < ip := fun hlt => hfar ⟨ht, hlt⟩
    omega

theorem MatchAt.of_read32 {m ip : Nat}
    (hbyU16 : tableType = .byU16 → source.length < LZ4_64Klimit) (hlt : m < ip)
    (hip : ip + MFLIMIT ≤ source.length) (hfar : ¬tooFar tableType m ip)
    (hread : LZ4_read32 source m = LZ4_read32 source ip) : MatchAt source m ip MINMATCH := by
  have hle : ip + MINMATCH ≤ source.length := by
    unfold MFLIMIT at hip
    unfold MINMATCH
    omega
  refine ⟨hlt, near_of_not_tooFar hbyU16 hip hfar, hle, ?_⟩
  exact (read_eq_iff (by omega) hle).mp hread

theorem findMatch_spec {fuel forwardIp step searchMatchNb forwardH : Nat} {hashTable : HashTable}
    {found : FoundMatch} (hbyU16 : tableType = .byU16 → source.length < LZ4_64Klimit)
    (hn : MFLIMIT ≤ source.length) (hup : UpTo (forwardIp - 1) hashTable) (hip : 0 < forwardIp)
    (hstep : 0 < step) (hnb : 2 ^ LZ4_skipTrigger ≤ searchMatchNb)
    (h : findMatch tableType source fuel hashTable forwardIp step searchMatchNb forwardH =
      some found) :
    forwardIp ≤ found.ip ∧ found.ip + MFLIMIT ≤ source.length ∧
      MatchAt source found.matchIndex found.ip MINMATCH ∧ UpTo found.ip found.hashTable := by
  induction fuel generalizing hashTable forwardIp step searchMatchNb forwardH with
  | zero => simp [findMatch] at h
  | succ fuel ih =>
    have hbefore : hashTable forwardH < forwardIp := by
      have := hup forwardH
      omega
    have hnext : 0 < searchMatchNb / 2 ^ LZ4_skipTrigger :=
      Nat.div_pos hnb (Nat.two_pow_pos LZ4_skipTrigger)
    have hput : UpTo forwardIp (LZ4_putIndexOnHash tableType forwardIp forwardH hashTable) :=
      (hup.mono (Nat.sub_le _ _)).put (Nat.le_refl _)
    have hgo : ∀ H, findMatch tableType source fuel
          (LZ4_putIndexOnHash tableType forwardIp forwardH hashTable) (forwardIp + step)
          (searchMatchNb / 2 ^ LZ4_skipTrigger) (searchMatchNb + 1) H = some found →
        forwardIp ≤ found.ip ∧ found.ip + MFLIMIT ≤ source.length ∧
          MatchAt source found.matchIndex found.ip MINMATCH ∧ UpTo found.ip found.hashTable := by
      intro H hH
      have hrest := ih (hput.mono (by omega)) (by omega) hnext (by omega) hH
      exact ⟨by omega, hrest.2⟩
    rw [findMatch] at h
    dsimp only at h
    split at h
    · simp at h
    · rename_i hend
      have hin : forwardIp + MFLIMIT ≤ source.length := by
        unfold mflimitPlusOne at hend
        omega
      split at h
      · exact hgo _ h
      · rename_i hfar
        split at h
        · rename_i hread
          rw [← Option.some.inj h]
          exact ⟨Nat.le_refl _, hin,
            MatchAt.of_read32 hbyU16 hbefore hin hfar hread, hput⟩
        · exact hgo _ h

/-- Going back keeps the distance and only makes the match longer. -/
theorem catchUp_spec {anchor ip m len : Nat} (hanchor : anchor ≤ ip)
    (h : MatchAt source m ip len) :
    anchor ≤ (catchUp source anchor ip m).1 ∧ (catchUp source anchor ip m).1 ≤ ip ∧
      MatchAt source (catchUp source anchor ip m).2 (catchUp source anchor ip m).1
        (len + (ip - (catchUp source anchor ip m).1)) := by
  induction ip generalizing m len with
  | zero => exact absurd h.lt (Nat.not_lt_zero m)
  | succ ip ih =>
    cases m with
    | zero =>
      rw [catchUp]
      · refine ⟨hanchor, Nat.le_refl _, ?_⟩
        rw [Nat.sub_self, Nat.add_zero]
        exact h
      · simp
    | succ m =>
      rw [catchUp]
      split
      · rename_i hback
        have hlen := h.le
        have hlt := h.lt
        have hlonger : MatchAt source m ip (len + 1) := by
          refine ⟨by omega, ?_, by omega, ?_⟩
          · have := h.near
            omega
          · rw [slice_pred (by omega), slice_pred (by omega), hback.2, h.same]
        have hrest := ih (by omega) hlonger
        have hsum : len + 1 + (ip - (catchUp source anchor ip m).1) =
            len + (ip + 1 - (catchUp source anchor ip m).1) := by
          have := hrest.2.1
          omega
        rw [hsum] at hrest
        exact ⟨hrest.1, Nat.le_succ_of_le hrest.2.1, hrest.2.2⟩
      · refine ⟨hanchor, Nat.le_refl _, ?_⟩
        rw [Nat.sub_self, Nat.add_zero]
        exact h

end Search

section Emit
variable {source : Bytes}

theorem take_succ_getD {i : Nat} (hi : i < source.length) :
    source.take i ++ [source.getD i 0] = source.take (i + 1) := by
  rw [List.take_succ_eq_append_getElem hi, List.getD_eq_getElem?_getD,
    List.getElem?_eq_getElem hi, Option.getD_some]

/-- A match less its first byte. -/
theorem MatchAt.tail {m ip len : Nat} (h : MatchAt source m ip (len + 1)) :
    source.getD m 0 = source.getD ip 0 ∧ MatchAt source (m + 1) (ip + 1) len := by
  have hlt := h.lt
  have hle := h.le
  have hnear := h.near
  have hsame := h.same
  rw [slice_pred (by omega), slice_pred (by omega)] at hsame
  obtain ⟨hhead, htail⟩ := List.cons.inj hsame
  exact ⟨hhead, by omega, by omega, by omega, htail⟩

/-- Copying from behind what agrees with what is ahead goes on with the source, overlap or not. -/
theorem copyMatch_source {m ip len : Nat} (h : MatchAt source m ip len) :
    copyMatch (ip - m) len (source.take ip) = source.take (ip + len) := by
  induction len generalizing m ip with
  | zero => rfl
  | succ len ih =>
    have hlt := h.lt
    have hle := h.le
    have hoffset : ip - m = ip + 1 - (m + 1) := by omega
    have hsum : ip + (len + 1) = ip + 1 + len := by omega
    have hbyte : (source.take ip).getD ((source.take ip).length - (ip - m)) 0 =
        source.getD ip 0 := by
      have hat : (source.take ip).length - (ip - m) = m := by
        rw [List.length_take]
        omega
      rw [hat, List.getD_eq_getElem?_getD, List.getElem?_take_of_lt hlt,
        ← List.getD_eq_getElem?_getD]
      exact h.tail.1
    rw [copyMatch, if_neg (by omega), hbyte, take_succ_getD (by omega), hoffset, hsum]
    exact ih h.tail.2

theorem putLength_eq {fuel len : Nat} (hfuel : len < 255 * (fuel + 1)) :
    putLength fuel len = lengthBytes len := by
  unfold lengthBytes
  induction fuel generalizing len with
  | zero =>
    have hq : len / 255 = 0 := Nat.div_eq_of_lt (by omega)
    rw [putLength, hq, Nat.mod_eq_of_lt (by omega)]
    rfl
  | succ fuel ih =>
    rw [putLength]
    split
    · have hq : len / 255 = (len - 255) / 255 + 1 := by omega
      have hr : len % 255 = (len - 255) % 255 := by omega
      rw [ih (by omega), hq, hr]
      rfl
    · have hq : len / 255 = 0 := Nat.div_eq_of_lt (by omega)
      rw [hq, Nat.mod_eq_of_lt (by omega)]
      rfl

theorem putMatchLength_eq (fuel matchCode : Nat) :
    putMatchLength fuel matchCode = lengthBytes matchCode := by
  unfold lengthBytes
  induction fuel generalizing matchCode with
  | zero => rfl
  | succ fuel ih =>
    rw [putMatchLength]
    split
    · have hq : matchCode / 255 = (matchCode - 4 * 255) / 255 + 4 := by omega
      have hr : matchCode % 255 = (matchCode - 4 * 255) % 255 := by omega
      rw [ih, hq, hr]
      rfl
    · rfl

def headBytes (ss : List Lz4Sequence) : Bytes := ss.foldr Lz4Sequence.bytes []

theorem bytes_append (s : Lz4Sequence) (a b : Bytes) : s.bytes (a ++ b) = s.bytes a ++ b := by
  unfold Lz4Sequence.bytes Lz4Sequence.matchPart
  simp only [List.cons_append, List.append_assoc]

theorem foldr_bytes (ss : List Lz4Sequence) (b : Bytes) :
    ss.foldr Lz4Sequence.bytes b = headBytes ss ++ b := by
  induction ss with
  | nil => rfl
  | cons s ss ih =>
    change s.bytes (ss.foldr Lz4Sequence.bytes b) = s.bytes (headBytes ss) ++ b
    rw [ih, bytes_append]

theorem headBytes_append (ss : List Lz4Sequence) (s : Lz4Sequence) :
    headBytes (ss ++ [s]) = headBytes ss ++ s.bytes [] := by
  unfold headBytes
  rw [List.foldr_append, foldr_bytes]
  rfl

theorem BlockFits.append {n : Nat} {op : Bytes} {ss : List Lz4Sequence} {s : Lz4Sequence}
    (h : BlockFits n op.length ss) (hs : s.Fits n (blockContent op ss).length) :
    BlockFits n op.length (ss ++ [s]) := by
  induction ss generalizing op with
  | nil => exact ⟨hs, trivial⟩
  | cons t ss ih =>
    refine ⟨h.1, ?_⟩
    have htail := h.2
    rw [← t.apply_length] at htail ⊢
    exact ih htail hs

theorem blockContent_append (op : Bytes) (ss : List Lz4Sequence) (s : Lz4Sequence) :
    blockContent op (ss ++ [s]) = s.apply (blockContent op ss) := by
  unfold blockContent
  rw [List.foldl_append]
  rfl

/-- `op` is the source up to `anchor`, and no bigger than a block may be. -/
structure Emitted (source op : Bytes) (anchor : Nat) : Prop where
  le : anchor ≤ source.length
  sequences : ∃ ss, op = headBytes ss ∧ BlockFits source.length 0 ss ∧
    blockContent [] ss = source.take anchor
  bound : 255 * op.length ≤ 256 * anchor

theorem Emitted.nil : Emitted source [] 0 :=
  ⟨Nat.zero_le _, ⟨[], rfl, trivial, rfl⟩, Nat.le_refl _⟩

theorem bytes_nil_length (s : Lz4Sequence) :
    (s.bytes []).length =
      3 + (s.literals.length + 240) / 255 + s.literals.length + (s.matchCode + 240) / 255 := by
  unfold Lz4Sequence.bytes Lz4Sequence.matchPart le16
  simp only [List.length_append, List.length_cons, List.length_nil, extraLength_length]
  omega

/-- The sequence from `anchor` over the match at `ip`. -/
def sequenceAt (source : Bytes) (anchor m ip code : Nat) : Lz4Sequence :=
  ⟨slice source anchor (ip - anchor), ip - m, code⟩

theorem Emitted.extend {op : Bytes} {anchor m ip code : Nat} (h : Emitted source op anchor)
    (hanchor : anchor ≤ ip) (hm : MatchAt source m ip (code + MINMATCH))
    (hip : ip + MFLIMIT ≤ source.length)
    (hend : ip + (code + MINMATCH) + LASTLITERALS ≤ source.length) :
    Emitted source (op ++ (sequenceAt source anchor m ip code).bytes [])
      (ip + code + MINMATCH) := by
  have hlt := hm.lt
  have hnear := hm.near
  have hlits : (slice source anchor (ip - anchor)).length = ip - anchor :=
    slice_length_of_le (by omega)
  have hcover : anchor + (ip - anchor) = ip := by omega
  obtain ⟨ss, hop, hfits, hcontent⟩ := h.sequences
  have hpos : (blockContent [] ss).length = anchor := by
    rw [hcontent, List.length_take]
    have := h.le
    omega
  have hs : (sequenceAt source anchor m ip code).Fits source.length (blockContent [] ss).length := by
    rw [hpos]
    refine ⟨?_, hnear, ?_, ?_, ?_⟩
    · unfold sequenceAt
      dsimp only
      omega
    · unfold sequenceAt
      dsimp only
      omega
    · unfold sequenceAt
      dsimp only
      omega
    · unfold sequenceAt
      dsimp only
      omega
  refine ⟨by omega,
    ⟨ss ++ [sequenceAt source anchor m ip code], ?_, @BlockFits.append _ [] _ _ hfits hs, ?_⟩, ?_⟩
  · rw [headBytes_append, hop]
  · calc blockContent [] (ss ++ [sequenceAt source anchor m ip code])
        = copyMatch (ip - m) (code + MINMATCH)
            (source.take anchor ++ slice source anchor (ip - anchor)) := by
          rw [blockContent_append, hcontent]
          rfl
      _ = copyMatch (ip - m) (code + MINMATCH) (source.take ip) := by
          rw [take_append_slice, hcover]
      _ = source.take (ip + code + MINMATCH) := by rw [copyMatch_source hm, Nat.add_assoc]
  · have hbound := h.bound
    have hcode : (code + 240) / 255 ≤ code := by
      cases code with
      | zero => exact Nat.le_refl 0
      | succ code => omega
    rw [List.length_append, bytes_nil_length]
    unfold sequenceAt MINMATCH
    dsimp only
    rw [hlits]
    omega

end Emit

section Run
variable {tableType : TableType} {source : Bytes} {olimit : Option Nat}

/-- At `_next_match`: the literals from `anchor` are written, the match at `ip` is known to be
`MINMATCH + len` long, and nothing beyond these `len` bytes is in the table. -/
structure Pending (source op : Bytes) (token : Nat) (run : Bytes) (ip m : Nat)
    (hashTable : HashTable) (anchor len : Nat) : Prop where
  emitted : Emitted source op anchor
  le : anchor ≤ ip
  token_eq : token = min (ip - anchor) RUN_MASK * 16
  run_eq : run = extraLength (ip - anchor) ++ slice source anchor (ip - anchor)
  isMatch : MatchAt source m ip (MINMATCH + len)
  inside : ip + len + MFLIMIT ≤ source.length
  upTo : UpTo (ip + len) hashTable

def CompressStep.Sound (source : Bytes) : CompressStep → Prop
  | .return0 => True
  | .last_literals op anchor => Emitted source op anchor
  | .main_loop op anchor ip _ hashTable =>
    Emitted source op anchor ∧ anchor < ip ∧ UpTo (ip - 1) hashTable
  | .next_match op token run ip m hashTable =>
    ∃ anchor len, Pending source op token run ip m hashTable anchor len

/-- What is left to compress, counted so that each of the two labels brings it down. -/
def CompressStep.rank (source : Bytes) : CompressStep → Nat
  | .main_loop _ anchor _ _ _ => 2 * (source.length - anchor) + 1
  | .next_match _ _ _ ip _ _ => 2 * (source.length - ip)
  | _ => 0

theorem encodeLiterals_sound {op : Bytes} {anchor ip m len : Nat} {hashTable : HashTable}
    (h : Emitted source op anchor) (hanchor : anchor ≤ ip)
    (hm : MatchAt source m ip (MINMATCH + len)) (hin : ip + len + MFLIMIT ≤ source.length)
    (hup : UpTo (ip + len) hashTable) :
    (encodeLiterals source olimit op anchor ip m hashTable).Sound source ∧
      (encodeLiterals source olimit op anchor ip m hashTable).rank source ≤
        2 * (source.length - anchor) := by
  unfold encodeLiterals
  dsimp only
  split
  · exact ⟨trivial, Nat.zero_le _⟩
  · split
    · rename_i hlong
      refine ⟨⟨anchor, len, h, hanchor, ?_, ?_, hm, hin, hup⟩, ?_⟩
      · rw [Nat.min_eq_right hlong]
      · rw [extraLength, if_pos hlong, putLength_eq (by omega)]
      · unfold CompressStep.rank
        dsimp only
        omega
    · rename_i hshort
      refine ⟨⟨anchor, len, h, hanchor, ?_, ?_, hm, hin, hup⟩, ?_⟩
      · rw [Nat.min_eq_left (by omega)]
      · rw [extraLength, if_neg hshort, List.nil_append]
      · unfold CompressStep.rank
        dsimp only
        omega

theorem le_agreement {m p k len : Nat} (h : slice source m len = slice source p len)
    (hm : m + len ≤ source.length) (hlen : len ≤ k) : len ≤ agreement source m p k := by
  have htake : ∀ i, (slice source i k).take len = slice source i len := by
    intro i
    unfold slice
    rw [List.take_take, Nat.min_eq_left hlen]
  apply le_commonPrefix
  · rw [htake, htake, h]
  · rw [slice_length]
    omega

/-- What `LZ4_count` makes of a match that is known to be `MINMATCH + len` long. -/
theorem matchCode_spec {m ip len : Nat} (hm : MatchAt source m ip (MINMATCH + len))
    (hin : ip + len + MFLIMIT ≤ source.length) :
    len ≤ LZ4_count source (ip + MINMATCH) (m + MINMATCH) (matchlimit source) ∧
      MatchAt source m ip
        (LZ4_count source (ip + MINMATCH) (m + MINMATCH) (matchlimit source) + MINMATCH) ∧
      ip + (LZ4_count source (ip + MINMATCH) (m + MINMATCH) (matchlimit source) + MINMATCH) +
        LASTLITERALS ≤ source.length := by
  have hlt := hm.lt
  have hsame := hm.same
  unfold MFLIMIT at hin
  have hlim : matchlimit source ≤ source.length := Nat.sub_le _ _
  have hroom : ip + MINMATCH + len ≤ matchlimit source := by
    unfold matchlimit LASTLITERALS MINMATCH
    omega
  have hcount := @LZ4_count_eq source (ip + MINMATCH) (m + MINMATCH) (matchlimit source) hlim
    (by omega) (by omega)
  have hhead : slice source m MINMATCH = slice source ip MINMATCH ∧
      slice source (m + MINMATCH) len = slice source (ip + MINMATCH) len := by
    rw [slice_add, slice_add] at hsame
    apply List.append_inj hsame
    rw [slice_length_of_le (by omega), slice_length_of_le (by omega)]
  have hge : len ≤ agreement source (m + MINMATCH) (ip + MINMATCH)
      (matchlimit source - (ip + MINMATCH)) := le_agreement hhead.2 (by omega) (by omega)
  have hle := agreement_le source (m + MINMATCH) (ip + MINMATCH)
    (matchlimit source - (ip + MINMATCH))
  have hmore := slice_agreement source (m + MINMATCH) (ip + MINMATCH)
    (matchlimit source - (ip + MINMATCH))
  rw [← hcount] at hge hle hmore
  have hend : ip + (LZ4_count source (ip + MINMATCH) (m + MINMATCH) (matchlimit source) +
      MINMATCH) + LASTLITERALS ≤ source.length := by
    unfold matchlimit at hroom hle ⊢
    omega
  refine ⟨hge, ⟨hlt, hm.near, by omega, ?_⟩, hend⟩
  rw [Nat.add_comm _ MINMATCH, slice_add, slice_add, hhead.1, hmore]

/-- The bytes `encodeMatch` has written when its match is complete. -/
theorem Pending.bytes_eq {op run : Bytes} {token ip m anchor len code : Nat}
    {hashTable : HashTable} (h : Pending source op token run ip m hashTable anchor len) :
    (if ML_MASK ≤ code then
        op ++ UInt8.ofNat (token + ML_MASK) ::
          ((run ++ le16 (ip - m)) ++ putMatchLength (code - ML_MASK) (code - ML_MASK))
      else op ++ UInt8.ofNat (token + code) :: (run ++ le16 (ip - m))) =
      op ++ (sequenceAt source anchor m ip code).bytes [] := by
  have hin := h.inside
  have hlits : (slice source anchor (ip - anchor)).length = ip - anchor :=
    slice_length_of_le (by have := h.le; omega)
  have htoken : (sequenceAt source anchor m ip code).token = token + min code ML_MASK := by
    unfold Lz4Sequence.token sequenceAt
    dsimp only
    rw [hlits, h.token_eq]
  unfold Lz4Sequence.bytes Lz4Sequence.matchPart
  rw [htoken, h.run_eq]
  unfold sequenceAt
  dsimp only
  rw [hlits, List.append_nil, extraLength]
  by_cases hcode : ML_MASK ≤ code
  · have hrun : RUN_MASK ≤ code := hcode
    rw [if_pos hcode, Nat.min_eq_right hcode, putMatchLength_eq]
    conv_rhs => rw [extraLength, if_pos hrun]
    simp only [List.append_assoc]
    rfl
  · have hrun : ¬RUN_MASK ≤ code := hcode
    rw [if_neg hcode, Nat.min_eq_left (by omega)]
    conv_rhs => rw [extraLength, if_neg hrun]
    simp only [List.append_assoc, List.append_nil]

/-- Nothing beyond `ip` is in the table, and the next position follows it. -/
theorem afterMatch_sound {op run : Bytes} {token ip m anchor len : Nat} {hashTable : HashTable}
    (hbyU16 : tableType = .byU16 → source.length < LZ4_64Klimit)
    (h : Pending source op token run ip m hashTable anchor len) :
    (encodeMatch tableType source olimit op token run ip m hashTable).Sound source ∧
      (encodeMatch tableType source olimit op token run ip m hashTable).rank source <
        2 * (source.length - ip) := by
  have hin := h.inside
  have hcode := matchCode_spec h.isMatch hin
  have hpos : 0 < 2 * (source.length - ip) := by
    unfold MFLIMIT at hin
    omega
  unfold encodeMatch
  dsimp only
  generalize hk : LZ4_count source (ip + MINMATCH) (m + MINMATCH) (matchlimit source) = code
    at hcode ⊢
  obtain ⟨hlen, hm, hend⟩ := hcode
  rw [h.bytes_eq]
  have hemitted := h.emitted.extend h.le hm (by omega) hend
  have hup : UpTo (ip + code + MINMATCH - 2) hashTable := by
    apply h.upTo.mono
    unfold MINMATCH
    omega
  generalize hip' : ip + code + MINMATCH = ip' at hemitted hup ⊢
  unfold MINMATCH at hip'
  have hup₂ : UpTo (ip' - 2) (LZ4_putPosition tableType source (ip' - 2) hashTable) :=
    hup.put (Nat.le_refl _)
  have hup₃ : UpTo ip' (LZ4_putIndexOnHash tableType ip' (LZ4_hashPosition tableType source ip')
      (LZ4_putPosition tableType source (ip' - 2) hashTable)) :=
    (hup₂.mono (Nat.sub_le _ _)).put (Nat.le_refl _)
  split
  · exact ⟨trivial, hpos⟩
  · split
    · exact ⟨hemitted, hpos⟩
    · rename_i hgo
      have hin' : ip' + MFLIMIT ≤ source.length := by
        unfold mflimitPlusOne at hgo
        omega
      split
      · rename_i hnext
        have hlt : LZ4_putPosition tableType source (ip' - 2) hashTable
            (LZ4_hashPosition tableType source ip') < ip' := by
          have := hup₂ (LZ4_hashPosition tableType source ip')
          omega
        refine ⟨⟨ip', 0, hemitted, Nat.le_refl _, ?_, ?_, ?_, hin', hup₃⟩, ?_⟩
        · rw [Nat.sub_self]
          rfl
        · rw [Nat.sub_self, slice_zero]
          rfl
        · exact MatchAt.of_read32 hbyU16 hlt hin' hnext.1 hnext.2
        · unfold CompressStep.rank
          dsimp only
          omega
      · refine ⟨⟨hemitted, Nat.lt_succ_self _, hup₃⟩, ?_⟩
        unfold CompressStep.rank
        dsimp only
        omega

/-- One round keeps what is emitted, and either ends or has less left. -/
theorem compressStep_sound {acceleration : Nat} {st : CompressStep} (hacc : 0 < acceleration)
    (hn : MFLIMIT ≤ source.length)
    (hbyU16 : tableType = .byU16 → source.length < LZ4_64Klimit) (h : st.Sound source) :
    (compressStep tableType source olimit acceleration st).Sound source ∧
      (compressStep tableType source olimit acceleration st).rank source ≤ st.rank source - 1 := by
  cases st with
  | return0 => exact ⟨trivial, Nat.le_refl _⟩
  | last_literals op anchor => exact ⟨h, Nat.le_refl _⟩
  | next_match op token run ip m hashTable =>
    obtain ⟨anchor, len, hp⟩ := h
    have hafter := @afterMatch_sound tableType source olimit _ _ _ _ _ _ _ _ hbyU16 hp
    refine ⟨hafter.1, ?_⟩
    have := hafter.2
    unfold compressStep
    dsimp only
    change _ ≤ 2 * (source.length - ip) - 1
    omega
  | main_loop op anchor ip forwardH hashTable =>
    obtain ⟨hemitted, hanchor, hup⟩ := h
    unfold compressStep
    dsimp only
    cases hfind : findMatch tableType source source.length hashTable ip 1
        (acceleration * 2 ^ LZ4_skipTrigger) forwardH with
    | none => exact ⟨hemitted, Nat.zero_le _⟩
    | some found =>
      dsimp only
      have hnb : 2 ^ LZ4_skipTrigger ≤ acceleration * 2 ^ LZ4_skipTrigger :=
        Nat.le_mul_of_pos_left _ hacc
      obtain ⟨hge, hin, hm, hup'⟩ :=
        findMatch_spec hbyU16 hn hup (by omega) (by decide) hnb hfind
      obtain ⟨hback, hle, hm'⟩ := catchUp_spec (by omega : anchor ≤ found.ip) hm
      have hcover : (catchUp source anchor found.ip found.matchIndex).1 +
          (found.ip - (catchUp source anchor found.ip found.matchIndex).1) = found.ip := by omega
      have hlits := @encodeLiterals_sound source olimit op anchor _ _ _ found.hashTable hemitted
        hback hm' (by rw [hcover]; exact hin) (by rw [hcover]; exact hup')
      refine ⟨hlits.1, Nat.le_trans hlits.2 ?_⟩
      unfold CompressStep.rank
      exact Nat.le_refl _

theorem encodeLastLiterals_eq {op out : Bytes} {anchor : Nat}
    (h : encodeLastLiterals source olimit op anchor = some out) :
    out = op ++ lastBytes (source.drop anchor) := by
  have hslice : slice source anchor (source.length - anchor) = source.drop anchor := by
    unfold slice
    apply List.take_of_length_le
    rw [List.length_drop]
  unfold encodeLastLiterals at h
  dsimp only at h
  unfold lastBytes extraLength
  rw [List.length_drop]
  split at h
  · simp at h
  · split at h
    · rename_i hlong
      rw [← Option.some.inj h, Nat.min_eq_right hlong, if_pos hlong, putLength_eq (by omega), hslice]
    · rename_i hshort
      rw [← Option.some.inj h, Nat.min_eq_left (by omega), if_neg hshort, hslice]
      rfl

theorem lastBytes_size (last : Bytes) :
    (lastBytes last).length = last.length + 1 + (last.length + 240) / 255 := by
  unfold lastBytes
  rw [List.length_cons, List.length_append, extraLength_length]
  omega

/-- The last literals are written only where they fit. -/
theorem encodeLastLiterals_le {op out : Bytes} {anchor limit : Nat}
    (h : encodeLastLiterals source (some limit) op anchor = some out) : out.length ≤ limit := by
  have hout := encodeLastLiterals_eq h
  unfold encodeLastLiterals at h
  dsimp only at h
  split at h
  · simp at h
  · rename_i hfit
    unfold pastLimit RUN_MASK at hfit
    simp only [Option.any_some, decide_eq_true_eq] at hfit
    rw [hout, List.length_append, lastBytes_size, List.length_drop]
    omega

theorem encodeLastLiterals_isSome (op : Bytes) (anchor : Nat) :
    (encodeLastLiterals source none op anchor).isSome := by
  unfold encodeLastLiterals
  dsimp only
  rw [if_neg (by simp [pastLimit])]
  split
  · rfl
  · rfl

/-- A block with the source for its content. -/
structure IsBlock (source out : Bytes) : Prop where
  block : ∃ ss last, out = blockBytes last ss ∧ BlockFits source.length 0 ss ∧
    blockContent [] ss ++ last = source
  bound : 255 * out.length ≤ 256 * source.length + 495

theorem Emitted.finish {op out : Bytes} {anchor : Nat} (h : Emitted source op anchor)
    (hout : encodeLastLiterals source olimit op anchor = some out) : IsBlock source out := by
  obtain ⟨ss, hop, hfits, hcontent⟩ := h.sequences
  have heq := encodeLastLiterals_eq hout
  refine ⟨⟨ss, source.drop anchor, ?_, hfits, ?_⟩, ?_⟩
  · rw [heq, hop, blockBytes, foldr_bytes]
  · rw [hcontent, List.take_append_drop]
  · have hle := h.le
    have hbound := h.bound
    rw [heq, List.length_append, lastBytes_size, List.length_drop]
    omega

theorem compressLoop_sound {acceleration fuel : Nat} {st : CompressStep} {out : Bytes}
    (hacc : 0 < acceleration) (hn : MFLIMIT ≤ source.length)
    (hbyU16 : tableType = .byU16 → source.length < LZ4_64Klimit) (h : st.Sound source)
    (hout : compressLoop tableType source olimit acceleration fuel st = some out) :
    ∃ op anchor, Emitted source op anchor ∧
      encodeLastLiterals source olimit op anchor = some out := by
  induction fuel generalizing st with
  | zero =>
    cases st with
    | last_literals op anchor => exact ⟨op, anchor, h, hout⟩
    | _ => simp [compressLoop] at hout
  | succ fuel ih =>
    cases st with
    | return0 => simp [compressLoop] at hout
    | last_literals op anchor => exact ⟨op, anchor, h, hout⟩
    | main_loop op anchor ip forwardH hashTable =>
      exact ih (compressStep_sound hacc hn hbyU16 h).1 hout
    | next_match op token run ip m hashTable =>
      exact ih (compressStep_sound hacc hn hbyU16 h).1 hout

theorem CompressStep.Sound.rank_pos {st : CompressStep} (h : st.Sound source)
    (hgo : st ≠ .return0) (hlast : ∀ op anchor, st ≠ .last_literals op anchor) :
    0 < st.rank source := by
  cases st with
  | return0 => exact absurd rfl hgo
  | last_literals op anchor => exact absurd rfl (hlast op anchor)
  | main_loop op anchor ip forwardH hashTable => exact Nat.succ_pos _
  | next_match op token run ip m hashTable =>
    obtain ⟨anchor, len, hp⟩ := h
    have hin := hp.inside
    unfold MFLIMIT at hin
    change 0 < 2 * (source.length - ip)
    omega

/-- Without a limit nothing makes the compressor give up. -/
theorem compressStep_goes_on {acceleration : Nat} {st : CompressStep} (h : st ≠ .return0) :
    compressStep tableType source none acceleration st ≠ .return0 := by
  have hpast : ∀ n, pastLimit none n = false := fun _ => rfl
  cases st with
  | return0 => exact absurd rfl h
  | last_literals op anchor => exact h
  | main_loop op anchor ip forwardH hashTable =>
    unfold compressStep
    dsimp only
    split
    · simp
    · unfold encodeLiterals
      simp only [hpast, Bool.false_eq_true, if_false]
      split <;> simp
  | next_match op token run ip m hashTable =>
    unfold compressStep encodeMatch
    simp only [hpast, Bool.false_eq_true, if_false]
    split
    · simp
    · split <;> simp

theorem compressLoop_isSome {acceleration fuel : Nat} {st : CompressStep}
    (hacc : 0 < acceleration) (hn : MFLIMIT ≤ source.length)
    (hbyU16 : tableType = .byU16 → source.length < LZ4_64Klimit) (h : st.Sound source)
    (hgo : st ≠ .return0) (hfuel : st.rank source < fuel) :
    (compressLoop tableType source none acceleration fuel st).isSome := by
  induction fuel generalizing st with
  | zero => exact absurd hfuel (Nat.not_lt_zero _)
  | succ fuel ih =>
    have hnext := @compressStep_sound tableType source none acceleration st hacc hn hbyU16 h
    have hgo' := @compressStep_goes_on tableType source acceleration st hgo
    cases st with
    | return0 => exact absurd rfl hgo
    | last_literals op anchor => exact encodeLastLiterals_isSome op anchor
    | main_loop op anchor ip forwardH hashTable =>
      have hrank := h.rank_pos (by simp) (by simp)
      exact ih hnext.1 hgo' (by omega)
    | next_match op token run ip m hashTable =>
      have hrank := h.rank_pos (by simp) (by simp)
      exact ih hnext.1 hgo' (by omega)

/-- The main loop starts with nothing emitted and position 0 in the table. -/
theorem start_sound (forwardH : Nat) :
    (CompressStep.main_loop [] 0 1 forwardH
      (LZ4_putPosition tableType source 0 (fun _ => 0))).Sound source := by
  refine ⟨Emitted.nil, Nat.one_pos, ?_⟩
  have hempty : UpTo 0 (fun _ => 0) := fun _ => Nat.le_refl 0
  exact hempty.put (Nat.le_refl 0)

theorem validated_sound {acceleration : Nat} {out : Bytes} (hacc : 0 < acceleration)
    (h : LZ4_compress_generic_validated tableType source olimit acceleration = some out) :
    ∃ op anchor, Emitted source op anchor ∧
      encodeLastLiterals source olimit op anchor = some out := by
  unfold LZ4_compress_generic_validated at h
  split at h
  · simp at h
  · rename_i hbyU16
    split at h
    · exact ⟨[], 0, Emitted.nil, h⟩
    · rename_i hmin
      unfold LZ4_minLength at hmin
      have hlimit : tableType = .byU16 → source.length < LZ4_64Klimit :=
        fun ht => Nat.not_le.mp fun hle => hbyU16 ⟨ht, hle⟩
      exact compressLoop_sound hacc (by omega) hlimit (start_sound _) h

theorem validated_isSome {acceleration : Nat} (hacc : 0 < acceleration)
    (hbyU16 : tableType = .byU16 → source.length < LZ4_64Klimit) :
    (LZ4_compress_generic_validated tableType source none acceleration).isSome := by
  unfold LZ4_compress_generic_validated
  rw [if_neg (fun hc => Nat.not_le.mpr (hbyU16 hc.1) hc.2)]
  split
  · exact encodeLastLiterals_isSome [] 0
  · rename_i hmin
    unfold LZ4_minLength at hmin
    apply compressLoop_isSome hacc (by omega) hbyU16 (start_sound _)
    · simp
    · change 2 * (source.length - 0) + 1 < _
      omega

end Run

section Whole
variable {source out : Bytes} {maxOutputSize acceleration : Nat}

/-- No sequence fits into an empty content. -/
theorem IsBlock.of_nil (h : IsBlock [] out) : out = [0] := by
  obtain ⟨ss, last, hout, hfits, hcontent⟩ := h.block
  cases ss with
  | nil =>
    have hlast : last = [] := hcontent
    rw [hout, hlast]
    rfl
  | cons s ss =>
    have := hfits.1.match_le
    unfold MINMATCH at this
    simp at this

theorem IsBlock.decompress {cap : Nat} (h : IsBlock source out) (hcap : source.length ≤ cap) :
    LZ4_decompress_safe out cap = some source := by
  cases cap with
  | zero =>
    have hnil := List.length_eq_zero_iff.mp (Nat.le_zero.mp hcap)
    rw [hnil] at h ⊢
    rw [h.of_nil]
    rfl
  | succ cap =>
    obtain ⟨ss, last, hout, hfits, hcontent⟩ := h.block
    have hn : (blockContent [] ss).length + last.length = source.length := by
      rw [← List.length_append, hcontent]
    rw [hout, LZ4_decompress_safe_block hcap (Nat.succ_pos cap) hfits hn, hcontent]

theorem IsBlock.pos (h : IsBlock source out) : 0 < out.length := by
  obtain ⟨ss, last, hout, -, -⟩ := h.block
  have := blockBytes_length last ss
  rw [hout]
  omega

theorem IsBlock.empty : IsBlock [] [0] :=
  ⟨⟨[], [], rfl, trivial, rfl⟩, by decide⟩

/-- What `LZ4_compress_fast` hands to the compressor proper. -/
theorem LZ4_compress_generic_isBlock {tableType : TableType} {olimit : Option Nat}
    (hacc : 0 < acceleration)
    (h : LZ4_compress_generic tableType source olimit acceleration = some out) :
    IsBlock source out ∧ ∀ limit, olimit = some limit → out.length ≤ limit := by
  unfold LZ4_compress_generic at h
  split at h
  · simp at h
  · split at h
    · rename_i hempty
      split at h
      · simp at h
      · rename_i hroom
        rw [List.length_eq_zero_iff.mp hempty, ← Option.some.inj h]
        refine ⟨IsBlock.empty, ?_⟩
        intro limit hlimit
        have hpos : limit ≠ 0 := fun h0 => hroom (by rw [hlimit, h0])
        exact Nat.pos_of_ne_zero hpos
    · obtain ⟨op, anchor, hemitted, hlast⟩ := validated_sound hacc h
      refine ⟨hemitted.finish hlast, ?_⟩
      intro limit hlimit
      rw [hlimit] at hlast
      exact encodeLastLiterals_le hlast

theorem clamped_pos (acceleration : Nat) :
    0 < if LZ4_ACCELERATION_MAX < if acceleration < 1 then LZ4_ACCELERATION_DEFAULT
        else acceleration then LZ4_ACCELERATION_MAX
      else if acceleration < 1 then LZ4_ACCELERATION_DEFAULT else acceleration := by
  unfold LZ4_ACCELERATION_MAX LZ4_ACCELERATION_DEFAULT
  split
  · decide
  · split
    · decide
    · omega

theorem LZ4_compress_fast_isBlock
    (h : LZ4_compress_fast source maxOutputSize acceleration = some out) :
    IsBlock source out ∧ out.length ≤ maxOutputSize := by
  unfold LZ4_compress_fast at h
  dsimp only at h
  obtain ⟨hblock, hlimit⟩ := LZ4_compress_generic_isBlock (clamped_pos acceleration) h
  refine ⟨hblock, ?_⟩
  by_cases hbound : LZ4_compressBound source.length ≤ maxOutputSize
  · have hsize := hblock.bound
    rw [if_pos hbound] at h
    unfold LZ4_compressBound at hbound
    unfold LZ4_compress_generic at h
    split at h
    · simp at h
    · rename_i hmax
      rw [if_neg hmax] at hbound
      omega
  · exact hlimit maxOutputSize (if_neg hbound)

theorem LZ4_compress_fast_isSome (hmax : source.length ≤ LZ4_MAX_INPUT_SIZE)
    (hbound : LZ4_compressBound source.length ≤ maxOutputSize) :
    (LZ4_compress_fast source maxOutputSize acceleration).isSome := by
  unfold LZ4_compress_fast
  dsimp only
  rw [if_pos hbound]
  unfold LZ4_compress_generic
  rw [if_neg (Nat.not_lt.mpr hmax)]
  split
  · rfl
  · apply validated_isSome (clamped_pos acceleration)
    intro ht
    by_contra hlong
    rw [if_neg hlong] at ht
    simp at ht

/-- What the compressor returns fits the buffer it was given and decompresses to the source
wherever the source fits; with room for `LZ4_compressBound` it never gives up. -/
theorem LZ4_compress_decompress (source : Bytes) (maxOutputSize acceleration : Nat) :
    (∀ out, LZ4_compress_fast source maxOutputSize acceleration = some out →
        0 < out.length ∧ out.length ≤ maxOutputSize ∧
          ∀ cap, source.length ≤ cap → LZ4_decompress_safe out cap = some source) ∧
      (source.length ≤ LZ4_MAX_INPUT_SIZE → LZ4_compressBound source.length ≤ maxOutputSize →
        (LZ4_compress_fast source maxOutputSize acceleration).isSome) := by
  refine ⟨?_, LZ4_compress_fast_isSome⟩
  intro out h
  obtain ⟨hblock, hsize⟩ := LZ4_compress_fast_isBlock h
  exact ⟨hblock.pos, hsize, fun cap hcap => hblock.decompress hcap⟩

def repeatedBytes : Bytes :=
  [1, 2, 3, 4, 5, 6, 7, 8, 1, 2, 3, 4, 5, 6, 7, 8, 1, 2, 3, 4, 5, 6, 7, 8, 1]

theorem LZ4_compress_decompress_repeated :
    LZ4_decompress_safe [0x88, 1, 2, 3, 4, 5, 6, 7, 8, 8, 0, 0x50, 5, 6, 7, 8, 1] 25 =
      some repeatedBytes :=
  ((LZ4_compress_decompress repeatedBytes 25 3).1
    [0x88, 1, 2, 3, 4, 5, 6, 7, 8, 8, 0, 0x50, 5, 6, 7, 8, 1] (by decide +kernel)).2.2 25
    (by decide)

/-- No four bytes of the source stand in it twice. -/
def WordsDiffer (source : Bytes) : Prop :=
  ∀ m p, m < p → p + MINMATCH ≤ source.length → slice source m MINMATCH ≠ slice source p MINMATCH

theorem encodeLastLiterals_none (source : Bytes) :
    encodeLastLiterals source (some source.length) [] 0 = none := by
  unfold encodeLastLiterals
  dsimp only
  apply if_pos
  unfold pastLimit
  simp only [Option.any_some, decide_eq_true_eq, List.length_nil]
  omega

/-- Where the search meets no match, nothing is emitted before the last literals. -/
theorem WordsDiffer.validated (h : WordsDiffer source) (tableType : TableType)
    (hacc : 0 < acceleration) :
    LZ4_compress_generic_validated tableType source (some source.length) acceleration = none := by
  unfold LZ4_compress_generic_validated
  split
  · rfl
  · rename_i hbyU16
    split
    · exact encodeLastLiterals_none source
    · rename_i hmin
      unfold LZ4_minLength at hmin
      dsimp only
      have hlimit : tableType = .byU16 → source.length < LZ4_64Klimit :=
        fun ht => Nat.not_le.mp fun hle => hbyU16 ⟨ht, hle⟩
      have hempty : UpTo 0 (fun _ => 0) := fun _ => Nat.le_refl 0
      have hsearch : findMatch tableType source source.length
          (LZ4_putPosition tableType source 0 fun _ => 0) 1 1 (acceleration * 2 ^ LZ4_skipTrigger)
          (LZ4_hashPosition tableType source 1) = none := by
        cases hfound : findMatch tableType source source.length
          (LZ4_putPosition tableType source 0 fun _ => 0) 1 1 (acceleration * 2 ^ LZ4_skipTrigger)
          (LZ4_hashPosition tableType source 1) with
        | none => rfl
        | some found =>
          have hnb : 2 ^ LZ4_skipTrigger ≤ acceleration * 2 ^ LZ4_skipTrigger :=
            Nat.le_mul_of_pos_left _ hacc
          obtain ⟨_, _, hmatch, _⟩ := findMatch_spec hlimit (by omega)
            (hempty.put (Nat.le_refl 0)) Nat.one_pos Nat.one_pos hnb hfound
          exact absurd hmatch.same (h _ _ hmatch.lt hmatch.le)
      have hstep : compressStep tableType source (some source.length) acceleration
          (.main_loop [] 0 1 (LZ4_hashPosition tableType source 1)
            (LZ4_putPosition tableType source 0 fun _ => 0)) = .last_literals [] 0 := by
        unfold compressStep
        dsimp only
        rw [hsearch]
      rw [compressLoop, hstep, compressLoop]
      · exact encodeLastLiterals_none source
      · simp
      · simp

/-- Such a source does not fit where it stands itself. -/
theorem WordsDiffer.compress_none (h : WordsDiffer source) (acceleration : Nat) :
    LZ4_compress_fast source source.length acceleration = none := by
  unfold LZ4_compress_fast LZ4_compress_generic
  dsimp only
  split
  · rfl
  · rename_i hmax
    have hbound : ¬LZ4_compressBound source.length ≤ source.length := by
      unfold LZ4_compressBound
      rw [if_neg hmax]
      omega
    rw [if_neg hbound]
    split
    · rename_i hempty
      rw [hempty]
      rfl
    · exact h.validated _ (clamped_pos acceleration)

/-- The enclave with the compressor it calls: nothing is assumed of LZ4 any more. -/
def EnclaveEnv.withLz4 (env : EnclaveEnv) : EnclaveEnv where
  GenerateHash := env.GenerateHash
  IndexAESCMCEnc := env.IndexAESCMCEnc
  getSF2 := env.getSF2
  EncryptWithKeyIV := env.EncryptWithKeyIV
  DecryptionWithKeyIV := env.DecryptionWithKeyIV
  LZ4_compress_fast chunk := Store.LZ4_compress_fast chunk chunk.length 3
  edelta := env.edelta
  IndexAESCMCEnc_injective := env.IndexAESCMCEnc_injective
  EncryptWithKeyIV_length := env.EncryptWithKeyIV_length
  DecryptionWithKeyIV_length := env.DecryptionWithKeyIV_length
  Decryption_Encrypt := env.Decryption_Encrypt
  LZ4_compress_fast_size h :=
    ⟨(LZ4_compress_fast_isBlock h).1.pos, (LZ4_compress_fast_isBlock h).2⟩
  LZ4_decompress_compress hmax h := (LZ4_compress_fast_isBlock h).1.decompress hmax

/-- Ciphers that change nothing, and the compressor. -/
def lz4Env : EnclaveEnv := plainEnv.withLz4

end Whole

end ShieldReduce.Store
