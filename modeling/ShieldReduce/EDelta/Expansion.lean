import Mathlib.Data.List.TakeWhile
import ShieldReduce.EDelta.Tables

/-!
# How long a delta gets

The furthest byte of the delta buffer that a run of the encoder writes. A copy of a whole string
takes fewer bytes than it covers, so what a delta adds is one literal header and one copy of a last
short string.
-/

namespace ShieldReduce.EDelta
open Lib

/-- The encoder's state after the closing copy. -/
def encodeFinal (env : EDeltaEnv) (newBuf baseBuf : Bytes) : EncState :=
  let beg := begSize newBuf baseBuf
  let tail := endSize newBuf baseBuf
  let s := encodeInit beg
  let s := if baseBuf.length ≤ beg + tail then
      if 0 < newBuf.length - beg - tail then
        writeLiteral s (slice newBuf beg (newBuf.length - beg - tail))
      else s
    else patchLiteral (encodeLoop env newBuf baseBuf tail newBuf.length s)
  writeTail s baseBuf.length tail

/-- The bytes of the delta buffer that a run writes: the buffer grows with every write past its
end, and taking a literal back does not shrink it. -/
def deltaExtent (env : EDeltaEnv) (newBuf baseBuf : Bytes) : Nat :=
  (encodeFinal env newBuf baseBuf).deltaBuf.length

section Strings
variable {env : EDeltaEnv} {newBuf baseBuf : Bytes} {tail : Nat}

/-- A string is longer than `STRMIN`, or it is all that is left. -/
theorem chunkGear_regular (p : Bytes) (n : Nat) : 13 ≤ chunkGear p n ∨ chunkGear p n = n := by
  unfold chunkGear
  split
  · exact Or.inr rfl
  · rename_i hn
    have hb := @chunkGearLoop_bounds p n n (STRMIN + 1) 0 (by omega) (by decide)
      (by simp only [STRMIN, STRMAX] at *; omega)
    exact Or.inl hb.1

/-- Probe strings from `cursor` on, `Q` relating the start of each to its length. -/
def LinksAlong (Q : Nat → Nat → Prop) : Nat → List DeltaRecord → Prop
  | _, [] => True
  | cursor, link :: links =>
    Q cursor link.nLength ∧ LinksAlong Q (cursor + link.nLength) links

theorem probeInput_along {Q : Nat → Nat → Prop}
    (hQ : ∀ cursor, cursor + tail ≤ newBuf.length →
      Q cursor (chunkGear (newBuf.drop cursor) (newBuf.length - cursor - tail)))
    (table : List DeltaRecord) (left j : Nat) {cursor : Nat} (hcur : cursor + tail ≤ newBuf.length) :
    LinksAlong Q cursor (probeInput env newBuf tail table left j cursor).1 := by
  induction left generalizing j cursor with
  | zero => trivial
  | succ left ih =>
    have hle := chunkGear_le (newBuf.drop cursor) (newBuf.length - cursor - tail)
    have hlink := hQ cursor hcur
    unfold probeInput
    simp only
    generalize chunkGear (newBuf.drop cursor) (newBuf.length - cursor - tail) = length at *
    split
    · exact ⟨hlink, trivial⟩
    · exact ⟨hlink, ih (j + 1) (show cursor + length + tail ≤ newBuf.length by omega)⟩

/-- Every string is longer than `STRMIN` or ends at `stop`. -/
def Regular (stop cursor length : Nat) : Prop := 13 ≤ length ∨ cursor + length = stop

theorem chunkGear_stop {cursor : Nat} (hcur : cursor + tail ≤ newBuf.length) :
    Regular (newBuf.length - tail) cursor
      (chunkGear (newBuf.drop cursor) (newBuf.length - cursor - tail)) := by
  have hle := chunkGear_le (newBuf.drop cursor) (newBuf.length - cursor - tail)
  have hreg := chunkGear_regular (newBuf.drop cursor) (newBuf.length - cursor - tail)
  unfold Regular
  omega

/-- What every round of base chunking and probing keeps, `i` counting the rounds. -/
theorem expandBase_induct {P : Nat → EncState → Prop}
    (hround : ∀ i chunkNumber s, P i s →
      let c := chunkBase env baseBuf tail s chunkNumber
      let probe := if i = 0 then probeInput env newBuf tail c.psHTable INPUT_TRY 0 c.cursorInput
        else (c.inputLink, probeAgain env c.psHTable c.inputLink 0)
      P (i + 1) { c with inputLink := probe.1, probeMatch := probe.2 })
    {left i chunkNumber : Nat} {s : EncState} (hleft : left ≠ 0) (h : P i s) :
    ∃ j, i < j ∧ P j (expandBase env newBuf baseBuf tail left i chunkNumber s) := by
  induction left generalizing i chunkNumber s with
  | zero => exact absurd rfl hleft
  | succ left ih =>
    have hnext := hround i chunkNumber s h
    unfold expandBase
    simp only at hnext ⊢
    generalize chunkBase env baseBuf tail s chunkNumber = c at *
    generalize (if i = 0 then probeInput env newBuf tail c.psHTable INPUT_TRY 0 c.cursorInput
      else (c.inputLink, probeAgain env c.psHTable c.inputLink 0)) = probe at *
    split
    · exact ⟨i + 1, Nat.lt_succ_self i, hnext⟩
    · rcases Nat.eq_zero_or_pos left with rfl | hpos
      · exact ⟨i + 1, Nat.lt_succ_self i, hnext⟩
      · obtain ⟨j, hj, hP⟩ := ih (Nat.pos_iff_ne_zero.mp hpos) hnext
        exact ⟨j, Nat.lt_of_succ_lt hj, hP⟩

/-- The strings of the table are not empty. -/
def TableFilled (s : EncState) : Prop := ∀ r ∈ s.psHTable, 0 < r.nLength

theorem chunkBase_filled {s : EncState} (chunkNumber : Nat) (h : TableFilled s) :
    TableFilled (chunkBase env baseBuf tail s chunkNumber) := by
  intro r hr
  simp only [chunkBase, List.mem_append, List.mem_reverse, List.mem_map] at hr
  rcases hr with ⟨l, hl, rfl⟩ | hr
  · have hne := List.mem_takeWhile_imp hl
    rw [bne_iff_ne] at hne
    exact Nat.pos_of_ne_zero hne
  · exact h r hr

theorem expandBase_along {Q : Nat → Nat → Prop}
    (hQ : ∀ cursor, cursor + tail ≤ newBuf.length →
      Q cursor (chunkGear (newBuf.drop cursor) (newBuf.length - cursor - tail)))
    {chunkNumber pos : Nat} {s : EncState} (hcur : s.cursorInput = pos)
    (hpos : pos + tail ≤ newBuf.length) (h : TableFilled s) :
    TableFilled (expandBase env newBuf baseBuf tail BASE_STEP 0 chunkNumber s) ∧
      LinksAlong Q pos
        (expandBase env newBuf baseBuf tail BASE_STEP 0 chunkNumber s).inputLink := by
  have hrounds : ∃ j, 0 < j ∧
      TableFilled (expandBase env newBuf baseBuf tail BASE_STEP 0 chunkNumber s) ∧
      (expandBase env newBuf baseBuf tail BASE_STEP 0 chunkNumber s).cursorInput = pos ∧
      (j ≠ 0 → LinksAlong Q pos
        (expandBase env newBuf baseBuf tail BASE_STEP 0 chunkNumber s).inputLink) := by
    apply @expandBase_induct env newBuf baseBuf tail (fun i t => TableFilled t ∧
      t.cursorInput = pos ∧ (i ≠ 0 → LinksAlong Q pos t.inputLink))
    · intro i number t ht
      obtain ⟨hfilled, hcursor, hlinks⟩ := ht
      refine ⟨chunkBase_filled number hfilled, hcursor, fun _ => ?_⟩
      have hc : (chunkBase env baseBuf tail t number).cursorInput = pos := hcursor
      have hl : (chunkBase env baseBuf tail t number).inputLink = t.inputLink := rfl
      by_cases hi : i = 0
      · simp only [if_pos hi]
        rw [hc]
        exact probeInput_along hQ _ _ _ hpos
      · simp only [if_neg hi]
        rw [hl]
        exact hlinks hi
    · decide
    · exact ⟨h, hcur, fun hne => absurd rfl hne⟩
  obtain ⟨j, hj, hfilled, -, hlinks⟩ := hrounds
  exact ⟨hfilled, hlinks (Nat.ne_of_gt hj)⟩

end Strings

section Extent
variable {env : EDeltaEnv} {newBuf baseBuf : Bytes} {tail : Nat}

theorem written_le {s : EncState} {pos : Nat} (h : Written newBuf baseBuf s pos) :
    s.deltaLen ≤ s.deltaBuf.length := by
  unfold Written at h
  split at h
  · exact h.2.2.1
  · exact h.1

/-- `pos` bytes are handled. What is written fits them and one literal header, and copies have
saved `saved` bytes of the delta; after a copy even the header is made up for. -/
structure Roomy (saved : Nat) (s : EncState) (pos : Nat) : Prop where
  buffer : s.deltaBuf.length ≤ pos + 4
  used : s.deltaLen + saved ≤ pos + 4
  copied : s.flag ≠ .unit2 → s.deltaLen + saved ≤ pos

/-- A copy of a last short string adds up to seven bytes more. -/
def Sized (saved stop : Nat) (s : EncState) (pos : Nat) : Prop :=
  Roomy saved s pos ∨
    (pos = stop ∧ s.deltaBuf.length ≤ pos + 11 ∧ s.deltaLen + saved ≤ pos + 11)

theorem Roomy.of_eq {saved pos : Nat} {s s' : EncState} (h : Roomy saved s pos)
    (hbuf : s'.deltaBuf = s.deltaBuf) (hlen : s'.deltaLen = s.deltaLen) (hflag : s'.flag = s.flag) :
    Roomy saved s' pos := by
  refine ⟨?_, ?_, ?_⟩
  · rw [hbuf]
    exact h.buffer
  · rw [hlen]
    exact h.used
  · rw [hlen, hflag]
    exact h.copied

variable {saved : Nat}

theorem appendLiteral_roomy {s : EncState} {length : Nat}
    (hw : Written newBuf baseBuf s s.inputPos) (h : Roomy saved s s.inputPos)
    (hlen : s.inputPos + length ≤ newBuf.length) :
    Roomy saved (appendLiteral newBuf s length) (s.inputPos + length) := by
  have hle := written_le hw
  have hxs : (slice newBuf s.inputPos length).length = length := slice_length_of_le hlen
  have hbuffer := h.buffer
  have hused := h.used
  unfold appendLiteral
  split
  case h_1 hflag =>
    refine ⟨?_, by simp only; omega, fun hne => absurd hflag hne⟩
    simp only
    rw [memcpy_length _ hle, hxs]
    omega
  case h_2 hflag =>
    have hcopied := h.copied hflag
    refine ⟨?_, by simp only; omega, fun hne => absurd rfl hne⟩
    have hhdr : s.deltaLen + 4 ≤ (memcpy s.deltaBuf s.deltaLen
        (withLength2 s.record2 length).toBytes).length := by
      rw [memcpy_length _ hle, DeltaUnit2.toBytes_length]
      omega
    simp only
    rw [memcpy_length _ hhdr, memcpy_length _ hle, DeltaUnit2.toBytes_length, hxs]
    omega

theorem shrinkLiteral_buffer {s : EncState} {k : Nat}
    (hn : getLength s.record2.flag_length + 4 ≤ s.deltaLen) (hle : s.deltaLen ≤ s.deltaBuf.length) :
    (shrinkLiteral s k).deltaLen ≤ s.deltaLen ∧
      (shrinkLiteral s k).deltaBuf.length = s.deltaBuf.length := by
  have hlt : getLength s.record2.flag_length - k < 2 ^ 31 := by
    rw [getLength_eq]
    omega
  unfold shrinkLiteral
  simp only [withLength2_length hlt]
  split
  · rw [memcpy_length _ (by omega), DeltaUnit2.toBytes_length]
    exact ⟨by simp only; omega, by omega⟩
  · exact ⟨by simp only; omega, rfl⟩

theorem patchLiteral_buffer {s : EncState} {pos : Nat} (hw : Written newBuf baseBuf s pos) :
    (patchLiteral s).deltaBuf.length = s.deltaBuf.length ∧
      (patchLiteral s).deltaLen = s.deltaLen := by
  unfold patchLiteral
  split
  case h_1 hflag =>
    unfold Written at hw
    rw [hflag] at hw
    obtain ⟨-, h4, hbuf, -⟩ := hw
    refine ⟨?_, rfl⟩
    simp only
    rw [memcpy_length _ (by omega), DeltaUnit2.toBytes_length]
    omega
  case h_2 => exact ⟨rfl, rfl⟩

theorem emitMatch_buffer {s : EncState} {dup : DeltaRecord} {length : Nat}
    (hw : Written newBuf baseBuf s s.inputPos) :
    (emitMatch newBuf baseBuf tail s dup length).flag = .unit1 ∧
      (emitMatch newBuf baseBuf tail s dup length).deltaLen ≤ s.deltaLen + 8 ∧
      (emitMatch newBuf baseBuf tail s dup length).deltaBuf.length ≤
        max s.deltaBuf.length (s.deltaLen + 8) := by
  have hle := written_le hw
  obtain ⟨hbuf, hlen⟩ := patchLiteral_buffer hw
  have hpend : (patchLiteral s).flag = .unit2 →
      getLength (patchLiteral s).record2.flag_length + 4 ≤ (patchLiteral s).deltaLen := by
    unfold Written at hw
    unfold patchLiteral
    split
    case h_1 hflag =>
      rw [hflag] at hw
      exact fun _ => hw.2.1
    case h_2 hflag => exact fun hf => absurd hf hflag
  unfold emitMatch
  generalize patchLiteral s = p at *
  simp only
  generalize hq : { p with
    cursorInput := p.cursorInput + forwardSize newBuf baseBuf tail p dup length
    cursorBase := max p.cursorBase
      (dup.nOffset + length + forwardSize newBuf baseBuf tail p dup length) } = q
  have hqlen : q.deltaLen = s.deltaLen := by rw [← hq]; exact hlen
  have hqbuf : q.deltaBuf.length = s.deltaBuf.length := by rw [← hq]; exact hbuf
  have hqpend : q.flag = .unit2 → getLength q.record2.flag_length + 4 ≤ q.deltaLen := by
    rw [← hq]
    exact hpend
  split
  case isTrue hk =>
    have hflag : q.flag = .unit2 := by
      unfold backwardSize at hk
      split at hk
      · assumption
      · exact absurd hk (Nat.lt_irrefl 0)
    obtain ⟨hslen, hsbuf⟩ := @shrinkLiteral_buffer q (backwardSize newBuf baseBuf q dup)
      (hqpend hflag) (by omega)
    unfold writeUnit1
    simp only
    rw [memcpy_length _ (by omega), DeltaUnit1.toBytes_length]
    exact ⟨trivial, by omega, by omega⟩
  case isFalse =>
    unfold writeUnit1
    simp only
    rw [memcpy_length _ (by omega), DeltaUnit1.toBytes_length]
    exact ⟨trivial, by omega, by omega⟩

variable (hnew : newBuf.length ≤ MAX_CHUNK_SIZE) (hbase : baseBuf.length ≤ MAX_CHUNK_SIZE)
include hnew hbase

theorem matchString_sized {s : EncState} {dup : DeltaRecord} {length : Nat}
    (h : EncInv newBuf baseBuf tail s s.inputPos) (hr : Roomy saved s s.inputPos)
    (hfilled : TableFilled s) (hcur : s.cursorInput = length + s.inputPos)
    (hle : s.cursorInput + tail ≤ newBuf.length) (hdup : dup ∈ s.psHTable)
    (hreg : Regular (newBuf.length - tail) s.inputPos length) :
    Sized saved (newBuf.length - tail) (matchString newBuf baseBuf tail s dup length)
      (matchString newBuf baseBuf tail s dup length).cursorInput := by
  obtain ⟨hinv, hadv⟩ := matchString_inv hnew hbase h hcur hle hdup
  have hend := hinv.pos_le
  unfold Regular at hreg
  unfold matchString at hend hadv ⊢
  split
  case isTrue hm =>
    rw [if_pos hm] at hend hadv
    obtain ⟨hflag, hlen, hbuf⟩ := @emitMatch_buffer newBuf baseBuf tail s dup length h.written
    have hpos := hfilled dup hdup
    have hle' := written_le h.written
    have hroom := hr.buffer
    have hused := hr.used
    generalize emitMatch newBuf baseBuf tail s dup length = t at *
    by_cases hshort : 13 ≤ length
    · exact Or.inl ⟨by omega, by omega, fun _ => by omega⟩
    · exact Or.inr ⟨by omega, by omega, by omega⟩
  case isFalse =>
    have happ := appendLiteral_roomy h.written hr
      (show s.inputPos + length ≤ newBuf.length by omega)
    rw [(appendLiteral_frame s length).1, hcur, Nat.add_comm length]
    exact Or.inl happ

theorem handleProbe_sized {links : List DeltaRecord} {i : Nat} {s : EncState}
    (h : EncInv newBuf baseBuf tail s s.inputPos) (hr : Roomy saved s s.inputPos)
    (hfilled : TableFilled s)
    (hfit : s.inputPos + (links.map DeltaRecord.nLength).sum + tail ≤ newBuf.length)
    (hreg : LinksAlong (Regular (newBuf.length - tail)) s.inputPos links)
    (hhit : ∀ m dup, s.probeMatch = some (m, dup) → dup ∈ s.psHTable) :
    ((handleProbe newBuf baseBuf tail links i s).2 = true →
        Sized saved (newBuf.length - tail) (handleProbe newBuf baseBuf tail links i s).1
          (handleProbe newBuf baseBuf tail links i s).1.cursorInput) ∧
      ((handleProbe newBuf baseBuf tail links i s).2 = false →
        Roomy saved (handleProbe newBuf baseBuf tail links i s).1
          (handleProbe newBuf baseBuf tail links i s).1.inputPos) := by
  induction links generalizing i s with
  | nil => exact ⟨fun hf => Bool.noConfusion hf, fun _ => (hr.of_eq rfl rfl rfl)⟩
  | cons link links ih =>
    rw [List.map_cons, List.sum_cons] at hfit
    obtain ⟨hlink, hrest⟩ := hreg
    have hlen : s.inputPos + link.nLength + tail ≤ newBuf.length := by omega
    obtain ⟨hinv, hpos, htable, hmatch⟩ := skipProbe_inv hnew h hlen
    have hroomy : Roomy saved (skipProbe newBuf s link.nLength) (s.inputPos + link.nLength) := by
      have happ := @appendLiteral_roomy newBuf baseBuf saved
        { s with cursorInput := link.nLength + s.inputPos } link.nLength h.written
        (hr.of_eq rfl rfl rfl) (show s.inputPos + link.nLength ≤ newBuf.length by omega)
      exact happ.of_eq rfl rfl rfl
    have hskip : TableFilled (skipProbe newBuf s link.nLength) := by
      unfold TableFilled
      rw [htable]
      exact hfilled
    rw [← hpos] at hinv hroomy hrest
    have hrec := @ih (i + 1) (skipProbe newBuf s link.nLength) hinv hroomy hskip (by omega) hrest
      (by rw [hmatch, htable]; exact hhit)
    unfold handleProbe
    split
    case h_1 m dup hm =>
      split
      case isTrue =>
        refine ⟨fun _ => ?_, fun hf => Bool.noConfusion hf⟩
        exact matchString_sized hnew hbase
          (s := { s with cursorInput := link.nLength + s.inputPos, flagHandleProbe := false })
          ⟨h.pos_le, h.base_le, h.table, h.flag1, h.flag2, h.written⟩ (hr.of_eq rfl rfl rfl) hfilled
          rfl (by simp only; omega) (hhit m dup hm) hlink
      case isFalse => exact hrec
    case h_2 => exact hrec

theorem encodeString_sized {s : EncState} (h : EncInv newBuf baseBuf tail s s.inputPos)
    (hr : Roomy saved s s.inputPos) (hfilled : TableFilled s) :
    Sized saved (newBuf.length - tail) (encodeString env newBuf baseBuf tail s)
      (encodeString env newBuf baseBuf tail s).cursorInput := by
  have hle := chunkGear_le (newBuf.drop s.inputPos) (newBuf.length - s.inputPos - tail)
  have hpos := h.pos_le
  have hreg := @chunkGear_stop newBuf tail s.inputPos hpos
  unfold encodeString
  simp only
  generalize chunkGear (newBuf.drop s.inputPos) (newBuf.length - s.inputPos - tail) = length at *
  have hs : EncInv newBuf baseBuf tail { s with cursorInput := length + s.inputPos } s.inputPos :=
    ⟨h.pos_le, h.base_le, h.table, h.flag1, h.flag2, h.written⟩
  have hrs : Roomy saved { s with cursorInput := length + s.inputPos } s.inputPos :=
    (hr.of_eq rfl rfl rfl)
  split
  case h_1 dup hdup =>
    exact matchString_sized hnew hbase hs hrs hfilled rfl
      (show length + s.inputPos + tail ≤ newBuf.length by omega) (env.lookup_inserted hdup).1 hreg
  case h_2 =>
    have happ := appendLiteral_roomy hs.written hrs
      (show s.inputPos + length ≤ newBuf.length by omega)
    have hcur := (@appendLiteral_frame newBuf { s with cursorInput := length + s.inputPos } length).1
    rw [hcur.trans (Nat.add_comm length s.inputPos)]
    exact Or.inl happ

omit hnew hbase

theorem expandBase_frame {chunkNumber : Nat} (s : EncState) :
    (expandBase env newBuf baseBuf tail BASE_STEP 0 chunkNumber s).deltaBuf = s.deltaBuf ∧
      (expandBase env newBuf baseBuf tail BASE_STEP 0 chunkNumber s).deltaLen = s.deltaLen ∧
      (expandBase env newBuf baseBuf tail BASE_STEP 0 chunkNumber s).flag = s.flag := by
  have hrounds : ∃ j, 0 < j ∧
      (expandBase env newBuf baseBuf tail BASE_STEP 0 chunkNumber s).deltaBuf = s.deltaBuf ∧
      (expandBase env newBuf baseBuf tail BASE_STEP 0 chunkNumber s).deltaLen = s.deltaLen ∧
      (expandBase env newBuf baseBuf tail BASE_STEP 0 chunkNumber s).flag = s.flag := by
    apply @expandBase_induct env newBuf baseBuf tail (fun _ t =>
      t.deltaBuf = s.deltaBuf ∧ t.deltaLen = s.deltaLen ∧ t.flag = s.flag)
    · exact fun _ _ _ h => h
    · decide
    · exact ⟨rfl, rfl, rfl⟩
  obtain ⟨_, _, hframe⟩ := hrounds
  exact hframe

/-- The probing of a pass writes nothing and leaves regular strings behind. -/
theorem encodeProbe_roomy {s : EncState} (hinv : LoopInv newBuf baseBuf tail s)
    (hr : Roomy saved s s.inputPos) (hfilled : TableFilled s) :
    Roomy saved (encodeProbe env newBuf baseBuf tail s) s.inputPos ∧
      TableFilled (encodeProbe env newBuf baseBuf tail s) ∧
      ((encodeProbe env newBuf baseBuf tail s).flagHandleProbe = true →
        LinksAlong (Regular (newBuf.length - tail)) s.inputPos
          (encodeProbe env newBuf baseBuf tail s).inputLink) := by
  have hpos := hinv.inv.pos_le
  unfold encodeProbe
  split
  · obtain ⟨hbuf, hlen, hflag⟩ := @expandBase_frame env newBuf baseBuf tail BASE_BEGIN
      { s with flagHandleProbe := true, probeMatch := none }
    obtain ⟨htable, hlinks⟩ := @expandBase_along env newBuf baseBuf tail _ (fun _ => chunkGear_stop)
      BASE_BEGIN s.inputPos { s with flagHandleProbe := true, probeMatch := none } hinv.cursor hpos
      hfilled
    exact ⟨hr.of_eq hbuf hlen hflag, htable, fun _ => hlinks⟩
  · exact ⟨hr, hfilled, fun ht => absurd ht (by rw [hinv.probe]; decide)⟩

theorem Sized.setInputPos {stop pos : Nat} {s : EncState} (h : Sized saved stop s pos)
    (pos' : Nat) : Sized saved stop { s with inputPos := pos' } pos := by
  rcases h with hr | hend
  · exact Or.inl (hr.of_eq rfl rfl rfl)
  · exact Or.inr hend

include hnew hbase

theorem encodePass_sized {s : EncState} (hinv : LoopInv newBuf baseBuf tail s)
    (hr : Roomy saved s s.inputPos) (hfilled : TableFilled s) :
    Sized saved (newBuf.length - tail) (encodePass env newBuf baseBuf tail s)
        (encodePass env newBuf baseBuf tail s).inputPos ∧
      TableFilled (encodePass env newBuf baseBuf tail s) := by
  obtain ⟨hp, hpos, hready⟩ := @encodeProbe_inv env newBuf baseBuf tail s hinv
  obtain ⟨hroomy, htable, hlinks⟩ := @encodeProbe_roomy env newBuf baseBuf tail saved s hinv hr hfilled
  have hcursor := @encodePass_cursor env newBuf baseBuf tail s
  refine ⟨?_, by unfold TableFilled; rw [hcursor.table]; exact htable⟩
  unfold encodePass
  generalize encodeProbe env newBuf baseBuf tail s = p at *
  rw [← hpos] at hp hready hroomy hlinks
  simp only
  cases hpf : p.flagHandleProbe with
  | true =>
    obtain ⟨hfit, hhit⟩ := hready hpf
    have hinv' := (@handleProbe_inv newBuf baseBuf tail hnew hbase p.inputLink 0 p hp hfit.1 hhit).1
    have hstep := @handleProbe_cursor newBuf baseBuf tail p.inputLink 0 p
    obtain ⟨hmatched, hrest⟩ := @handleProbe_sized newBuf baseBuf tail saved hnew hbase p.inputLink 0 p hp
      hroomy htable hfit.1 (hlinks hpf) hhit
    simp only [if_true]
    generalize handleProbe newBuf baseBuf tail p.inputLink 0 p = r at *
    cases hr2 : r.2 with
    | true =>
      simp only [if_true]
      exact (hmatched hr2).setInputPos _
    | false =>
      simp only [probeEnd, hr2, Bool.false_eq_true, if_false] at hinv' ⊢
      have htable' : TableFilled r.1 := by
        unfold TableFilled
        rw [hstep.table]
        exact htable
      exact (encodeString_sized hnew hbase hinv' (hrest hr2) htable').setInputPos _
  | false =>
    simp only [Bool.false_eq_true, if_false]
    exact (encodeString_sized hnew hbase hp hroomy htable).setInputPos _

theorem encodeLoop_sized {fuel : Nat} {s : EncState} (hinv : LoopInv newBuf baseBuf tail s)
    (hs : Sized saved (newBuf.length - tail) s s.inputPos) (hfilled : TableFilled s) :
    Sized saved (newBuf.length - tail) (encodeLoop env newBuf baseBuf tail fuel s)
      (encodeLoop env newBuf baseBuf tail fuel s).inputPos := by
  induction fuel generalizing s with
  | zero => exact hs
  | succ fuel ih =>
    unfold encodeLoop
    split
    case isTrue hlt =>
      have hr : Roomy saved s s.inputPos := by
        rcases hs with hr | hend
        · exact hr
        · exact absurd hend.1 (Nat.ne_of_lt hlt)
      obtain ⟨hsized, htable⟩ := @encodePass_sized env newBuf baseBuf tail saved hnew hbase s hinv hr hfilled
      exact ih (@encodePass_inv env newBuf baseBuf tail hnew hbase s hinv hlt).1 hsized htable
    case isFalse => exact hs

end Extent

section Bound
variable {newBuf baseBuf : Bytes}

theorem encodeInit_roomy {beg : Nat} (hlong : beg = 0 ∨ 16 < beg) :
    (encodeInit beg).deltaBuf.length ≤ beg + 4 ∧ (encodeInit beg).deltaLen ≤ beg ∧
      TableFilled (encodeInit beg) := by
  unfold encodeInit
  simp only
  split
  case isTrue hpos =>
    have h8 : (memcpy [] 0 (withLength1 ⟨setFlag 0 0, 0⟩ beg).toBytes).length = 8 := rfl
    refine ⟨?_, ?_, fun r hr => absurd hr List.not_mem_nil⟩
    · change (memcpy [] 0 (withLength1 ⟨setFlag 0 0, 0⟩ beg).toBytes).length ≤ beg + 4
      omega
    · change 0 + 8 ≤ beg
      omega
  case isFalse =>
    exact ⟨Nat.zero_le _, Nat.zero_le _, fun r hr => absurd hr List.not_mem_nil⟩

theorem writeLiteral_buffer {s : EncState} (xs : Bytes) (hle : s.deltaLen ≤ s.deltaBuf.length) :
    (writeLiteral s xs).deltaLen ≤ (writeLiteral s xs).deltaBuf.length ∧
      (writeLiteral s xs).deltaBuf.length = max s.deltaBuf.length (s.deltaLen + 4 + xs.length) := by
  have hhdr : s.deltaLen + 4 ≤ (memcpy s.deltaBuf s.deltaLen
      (withLength2 s.record2 xs.length).toBytes).length := by
    rw [memcpy_length _ hle, DeltaUnit2.toBytes_length]
    omega
  unfold writeLiteral
  simp only
  rw [memcpy_length _ hhdr, memcpy_length _ hle, DeltaUnit2.toBytes_length]
  omega

theorem begSize_long : begSize newBuf baseBuf = 0 ∨ 16 < begSize newBuf baseBuf := by
  unfold begSize
  split
  · exact Or.inr (by assumption)
  · exact Or.inl rfl

theorem endSize_long : endSize newBuf baseBuf = 0 ∨ 16 < endSize newBuf baseBuf := by
  unfold endSize
  simp only
  generalize (if newBuf.length < begSize newBuf baseBuf + tailSize newBuf baseBuf then
    newBuf.length - begSize newBuf baseBuf else tailSize newBuf baseBuf) = size
  split
  · exact Or.inr (by assumption)
  · exact Or.inl rfl

theorem writeTail_buffer {s : EncState} (baseSize : Nat) {tail : Nat}
    (hle : s.deltaLen ≤ s.deltaBuf.length) (hlong : tail = 0 ∨ 16 < tail) :
    (writeTail s baseSize tail).deltaBuf.length ≤ s.deltaBuf.length + tail := by
  unfold writeTail
  split
  · change (memcpy s.deltaBuf s.deltaLen _).length ≤ _
    rw [memcpy_length _ hle, DeltaUnit1.toBytes_length]
    omega
  · omega

/-- A delta takes at most eleven bytes of its buffer more than the new chunk has. -/
theorem deltaExtent_le (env : EDeltaEnv) (hnew : newBuf.length ≤ MAX_CHUNK_SIZE)
    (hbase : baseBuf.length ≤ MAX_CHUNK_SIZE) :
    deltaExtent env newBuf baseBuf ≤ newBuf.length + 11 := by
  have hhead := @headSize_le newBuf baseBuf
  have hbegle := @begSize_le newBuf baseBuf
  have hbeglong := @begSize_long newBuf baseBuf
  have hendlong := @endSize_long newBuf baseBuf
  obtain ⟨hend, hfit⟩ := @endSize_le newBuf baseBuf
  obtain ⟨hsettled, -, -, hloop⟩ := encodeInit_inv hbase hfit
    (show begSize newBuf baseBuf ≤ baseBuf.length by omega) beg_eq
  obtain ⟨hbuffer, hcopied, hfilled⟩ := encodeInit_roomy hbeglong
  unfold deltaExtent encodeFinal
  simp only
  generalize begSize newBuf baseBuf = beg at *
  generalize endSize newBuf baseBuf = tail at *
  split
  case isTrue hsmall =>
    split
    · have hxs : (slice newBuf beg (newBuf.length - beg - tail)).length =
          newBuf.length - beg - tail := slice_length_of_le (by omega)
      obtain ⟨hused, hlit⟩ := writeLiteral_buffer (slice newBuf beg (newBuf.length - beg - tail))
        hsettled.1
      have htail := writeTail_buffer baseBuf.length hused hendlong
      omega
    · have htail := writeTail_buffer baseBuf.length hsettled.1 hendlong
      omega
  case isFalse hbig =>
    obtain ⟨hinv, hpos⟩ := hloop (by omega)
    obtain ⟨hfinal, hstop⟩ := @encodeLoop_inv env _ _ _ hnew hbase newBuf.length _ hinv
      (Nat.le_add_left newBuf.length _)
    have hsized := @encodeLoop_sized env _ _ _ 0 hnew hbase newBuf.length _ hinv
      (Or.inl ⟨by rw [hpos]; exact hbuffer, by rw [hpos]; omega, fun _ => by rw [hpos]; exact hcopied⟩)
      hfilled
    generalize encodeLoop env newBuf baseBuf tail newBuf.length (encodeInit beg) = t at *
    obtain ⟨hbuf, hlen⟩ := patchLiteral_buffer hfinal.inv.written
    have hused := written_le hfinal.inv.written
    have htail := @writeTail_buffer (patchLiteral t) baseBuf.length tail (by omega) hendlong
    rcases hsized with hr | hlast
    · have := hr.buffer
      omega
    · omega

end Bound

end ShieldReduce.EDelta
