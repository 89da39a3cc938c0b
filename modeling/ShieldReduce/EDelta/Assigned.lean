import Mathlib.Algebra.Order.Field.Rat
import Mathlib.Data.List.GetD
import Mathlib.Tactic.Ring
import ShieldReduce.EDelta.RoundTrip

/-!
# What the encoder reads before it is assigned

`flag_handle_probe`, `probe_match` and the entries of `InputLink` are declared without a value.
The encoder is followed here with these locals kept as assigned or not, and it stops at a read of
one that is not.
-/

namespace ShieldReduce.EDelta
open Lib

/-- `cursor_input / newSize + 0.5 >= cursor_base / baseSize`, multiplied out. -/
def exactProgress (cursorInput newSize cursorBase baseSize : Nat) : Bool :=
  decide (2 * cursorBase * newSize ≤ 2 * cursorInput * baseSize + newSize * baseSize)

theorem exactProgress_iff {cursorInput newSize cursorBase baseSize : Nat} (hn : 0 < newSize)
    (hb : 0 < baseSize) :
    exactProgress cursorInput newSize cursorBase baseSize = true ↔
      (cursorBase : ℚ) / baseSize ≤ (cursorInput : ℚ) / newSize + 1 / 2 := by
  have hn' : (0 : ℚ) < newSize := Nat.cast_pos.mpr hn
  have hb' : (0 : ℚ) < baseSize := Nat.cast_pos.mpr hb
  have hcast : (cursorBase : ℚ) * (newSize * 2) ≤ (cursorInput * 2 + newSize * 1) * baseSize ↔
      cursorBase * (newSize * 2) ≤ (cursorInput * 2 + newSize * 1) * baseSize := by
    norm_cast
  unfold exactProgress
  rw [decide_eq_true_eq, div_add_div _ _ hn'.ne' two_ne_zero,
    div_le_div_iff₀ hb' (mul_pos hn' two_pos), hcast]
  have hleft : cursorBase * (newSize * 2) = 2 * cursorBase * newSize := by ring
  have hright : (cursorInput * 2 + newSize * 1) * baseSize =
      2 * cursorInput * baseSize + newSize * baseSize := by ring
  rw [hleft, hright]

/-- The locals declared without a value: the flag, and what one round of probing assigns. -/
structure Locals where
  flagHandleProbe : Option Bool
  probeMatch : Option (Option (Nat × DeltaRecord))
  inputLink : List DeltaRecord

section Assigned
variable (env : EDeltaEnv) (newBuf baseBuf : Bytes) (tail : Nat)

/-- Later rounds read `InputLink[j]` until one hits. -/
def assignedAgain (table links : List DeltaRecord) :
    Nat → Nat → Option (Option (Nat × DeltaRecord))
  | 0, _ => some none
  | left + 1, j => do
    let link ← links[j]?
    match env.lookup table link.nHash with
    | some dup => some (some (j, dup))
    | none => assignedAgain table links left (j + 1)

/-- The strings of round `i` and their hit. -/
def assignedRound (i : Nat) (s : EncState) :
    Option (List DeltaRecord × Option (Nat × DeltaRecord)) :=
  if i = 0 then some (probeInput env newBuf tail s.psHTable INPUT_TRY 0 s.cursorInput)
  else (assignedAgain env s.psHTable s.inputLink INPUT_TRY 0).map (fun hit => (s.inputLink, hit))

def assignedExpand : Nat → Nat → Nat → EncState → Option EncState
  | 0, _, _, s => some s
  | left + 1, i, chunkNumber, s => do
    let s := chunkBase env baseBuf tail s chunkNumber
    let (links, hit) ← assignedRound env newBuf tail i s
    let s := { s with inputLink := links, probeMatch := hit }
    if hit.isSome || !s.flagChunk then some s
    else assignedExpand left (i + 1) (chunkNumber * BASE_EXPAND) s

/-- The probe loop, `left` strings to go. -/
def assignedHandle (hit : Option (Nat × DeltaRecord)) (links : List DeltaRecord) :
    Nat → Nat → EncState → Option (EncState × Bool)
  | 0, _, s => some ({ s with flagHandleProbe := false }, false)
  | left + 1, i, s => do
    let link ← links[i]?
    match hit with
    | some (m, dup) =>
      if i = m then
        let s := { s with cursorInput := link.nLength + s.inputPos, flagHandleProbe := false }
        some (matchString newBuf baseBuf tail s dup link.nLength, true)
      else assignedHandle hit links left (i + 1) (skipProbe newBuf s link.nLength)
    | none => assignedHandle hit links left (i + 1) (skipProbe newBuf s link.nLength)

/-- The part behind the progress test. What an earlier round left in `probe_match` and
`InputLink` does not count as assigned. -/
def assignedProbe (flag : Option Bool) (s : EncState) : Option (Locals × EncState) :=
  if s.flagChunk && env.progress s.cursorInput newBuf.length s.cursorBase baseBuf.length then
    (assignedExpand env newBuf baseBuf tail BASE_STEP 0 BASE_BEGIN
      { s with flagHandleProbe := true, probeMatch := none }).map
      (fun s => (⟨some true, some s.probeMatch, s.inputLink⟩, s))
  else some (⟨flag, none, []⟩, s)

/-- `if (flag_handle_probe)` and the loop under it. -/
def assignedTest (locals : Locals) (s : EncState) : Option (EncState × Bool) :=
  match locals.flagHandleProbe with
  | none => none
  | some false => some (s, false)
  | some true =>
    match locals.probeMatch with
    | none => none
    | some hit => assignedHandle newBuf baseBuf tail hit locals.inputLink INPUT_TRY 0 s

/-- One pass of the main loop, `flag` being `flag_handle_probe`; both exits of the probe loop
clear it. -/
def assignedPass (flag : Option Bool) (s : EncState) : Option (Option Bool × EncState) := do
  let (locals, s) ← assignedProbe env newBuf baseBuf tail flag s
  let (s, matched) ← assignedTest newBuf baseBuf tail locals s
  let s := if matched then s else encodeString env newBuf baseBuf tail s
  some (some false, { s with inputPos := s.cursorInput })

def assignedLoop : Nat → Option Bool → EncState → Option EncState
  | 0, _, s => some s
  | fuel + 1, flag, s =>
    if s.inputPos < newBuf.length - tail then do
      let (flag, s) ← assignedPass env newBuf baseBuf tail flag s
      assignedLoop fuel flag s
    else some s

end Assigned

/-- `EDeltaEncode`, or `none` when it reads a local that has not been assigned. -/
def assignedEncode (env : EDeltaEnv) (newBuf baseBuf : Bytes) : Option Bytes := do
  let beg := begSize newBuf baseBuf
  let tail := endSize newBuf baseBuf
  let s := encodeInit beg
  let s ← if baseBuf.length ≤ beg + tail then
      if 0 < newBuf.length - beg - tail then
        some (writeLiteral s (slice newBuf beg (newBuf.length - beg - tail)))
      else some s
    else (assignedLoop env newBuf baseBuf tail newBuf.length none s).map patchLiteral
  let s := writeTail s baseBuf.length tail
  some (s.deltaBuf.take s.deltaLen)

section Reads
variable {env : EDeltaEnv} {newBuf baseBuf : Bytes} {tail : Nat}

/-- What the probe loop reads is there: all strings, or those up to the hit. -/
def LinksReach (links : List DeltaRecord) (hit : Option (Nat × DeltaRecord)) : Prop :=
  links.length ≤ INPUT_TRY ∧ (hit = none → links.length = INPUT_TRY) ∧
    ∀ m dup, hit = some (m, dup) → m < links.length

theorem probeInput_reach (table : List DeltaRecord) (left j cursor : Nat) :
    (probeInput env newBuf tail table left j cursor).1.length ≤ left ∧
      ((probeInput env newBuf tail table left j cursor).2 = none →
        (probeInput env newBuf tail table left j cursor).1.length = left) ∧
      ∀ m dup, (probeInput env newBuf tail table left j cursor).2 = some (m, dup) →
        j ≤ m ∧ m < j + (probeInput env newBuf tail table left j cursor).1.length := by
  induction left generalizing j cursor with
  | zero => exact ⟨Nat.le_refl 0, fun _ => rfl, fun m dup h => absurd h (by simp [probeInput])⟩
  | succ left ih =>
    unfold probeInput
    simp only
    split
    case h_1 dup _ =>
      refine ⟨by simp, fun h => absurd h (by simp), ?_⟩
      intro m d h
      obtain ⟨rfl, _⟩ := Prod.mk.inj (Option.some.inj h)
      exact ⟨Nat.le_refl j, Nat.lt_succ_self j⟩
    case h_2 =>
      obtain ⟨h1, h2, h3⟩ := ih (j + 1)
        (cursor + chunkGear (newBuf.drop cursor) (newBuf.length - cursor - tail))
      refine ⟨Nat.succ_le_succ h1, fun h => congrArg (· + 1) (h2 h), ?_⟩
      intro m d h
      have hm := h3 m d h
      rw [List.length_cons]
      omega

theorem probeAgain_lt {table links : List DeltaRecord} {j m : Nat} {dup : DeltaRecord}
    (h : probeAgain env table links j = some (m, dup)) : m < j + links.length := by
  induction links generalizing j with
  | nil => exact absurd h (by simp [probeAgain])
  | cons link links ih =>
    unfold probeAgain at h
    rw [List.length_cons]
    split at h
    · obtain ⟨rfl, _⟩ := Prod.mk.inj (Option.some.inj h)
      omega
    · have := ih h
      omega

theorem assignedAgain_eq {table links : List DeltaRecord} {left j : Nat}
    (h : j + left = links.length) :
    assignedAgain env table links left j = some (probeAgain env table (links.drop j) j) := by
  induction left generalizing j with
  | zero =>
    rw [Nat.add_zero] at h
    rw [List.drop_eq_nil_of_le (Nat.le_of_eq h.symm)]
    rfl
  | succ left ih =>
    have hj : j < links.length := by omega
    rw [List.drop_eq_getElem_cons hj]
    unfold assignedAgain probeAgain
    rw [List.getElem?_eq_getElem hj]
    simp only [Option.bind_eq_bind, Option.bind_some]
    cases env.lookup table links[j].nHash with
    | some dup => rfl
    | none => exact ih (by omega)

/-- Every round of base chunking reads strings that the first round assigned. -/
theorem assignedExpand_eq {left i chunkNumber : Nat} {s : EncState}
    (hready : LinksReach s.inputLink s.probeMatch ∨ (i = 0 ∧ left ≠ 0))
    (hnone : i ≠ 0 → s.probeMatch = none) :
    assignedExpand env newBuf baseBuf tail left i chunkNumber s =
        some (expandBase env newBuf baseBuf tail left i chunkNumber s) ∧
      LinksReach (expandBase env newBuf baseBuf tail left i chunkNumber s).inputLink
        (expandBase env newBuf baseBuf tail left i chunkNumber s).probeMatch ∧
      (expandBase env newBuf baseBuf tail left i chunkNumber s).flagHandleProbe =
        s.flagHandleProbe := by
  induction left generalizing i chunkNumber s with
  | zero =>
    rcases hready with hready | ⟨_, hne⟩
    · exact ⟨rfl, hready, rfl⟩
    · exact absurd rfl hne
  | succ left ih =>
    unfold assignedExpand expandBase
    have hlinks : (chunkBase env baseBuf tail s chunkNumber).inputLink = s.inputLink := rfl
    have hflag : (chunkBase env baseBuf tail s chunkNumber).flagHandleProbe = s.flagHandleProbe := rfl
    generalize chunkBase env baseBuf tail s chunkNumber = c at *
    have hread : ∃ probe, (if i = 0 then probeInput env newBuf tail c.psHTable INPUT_TRY 0 c.cursorInput
        else (c.inputLink, probeAgain env c.psHTable c.inputLink 0)) = probe ∧
        assignedRound env newBuf tail i c = some probe ∧ LinksReach probe.1 probe.2 := by
      unfold assignedRound
      by_cases hi : i = 0
      · simp only [if_pos hi]
        obtain ⟨h1, h2, h3⟩ := @probeInput_reach env newBuf tail c.psHTable INPUT_TRY 0 c.cursorInput
        refine ⟨_, rfl, rfl, h1, h2, fun m dup h => ?_⟩
        have hm := h3 m dup h
        omega
      · simp only [if_neg hi]
        rcases hready with hready | ⟨h0, _⟩
        · have hlen : c.inputLink.length = INPUT_TRY := by
            rw [hlinks]
            exact hready.2.1 (hnone hi)
          rw [@assignedAgain_eq env c.psHTable c.inputLink INPUT_TRY 0 (by omega)]
          refine ⟨_, rfl, rfl, Nat.le_of_eq hlen, fun _ => hlen, fun m dup h => ?_⟩
          have hm := probeAgain_lt h
          rw [Nat.zero_add] at hm
          exact hm
        · exact absurd h0 hi
    obtain ⟨probe, hprobe, hround, hreach⟩ := hread
    simp only
    rw [hprobe, hround]
    simp only [Option.bind_eq_bind, Option.bind_some]
    split
    case isTrue => exact ⟨rfl, hreach, hflag⟩
    case isFalse hgo =>
      rw [Bool.or_eq_true, not_or, Bool.not_eq_true, Option.isSome_eq_false_iff,
        Option.isNone_iff_eq_none] at hgo
      obtain ⟨h1, h2, h3⟩ := @ih (i + 1) (chunkNumber * BASE_EXPAND)
        { c with inputLink := probe.1, probeMatch := probe.2 } (Or.inl hreach) (fun _ => hgo.1)
      exact ⟨h1, h2, h3.trans hflag⟩

theorem assignedHandle_eq {links : List DeltaRecord} {left i : Nat} {s : EncState}
    (hreach : LinksReach links s.probeMatch) (hi : i + left = INPUT_TRY)
    (hm : ∀ m dup, s.probeMatch = some (m, dup) → i ≤ m) :
    assignedHandle newBuf baseBuf tail s.probeMatch links left i s =
        some (handleProbe newBuf baseBuf tail (links.drop i) i s) ∧
      (handleProbe newBuf baseBuf tail (links.drop i) i s).1.flagHandleProbe = false := by
  obtain ⟨hle, hnone, hsome⟩ := hreach
  induction left generalizing i s with
  | zero =>
    rw [List.drop_eq_nil_of_le (by omega)]
    exact ⟨rfl, rfl⟩
  | succ left ih =>
    have hlt : i < links.length := by
      cases hmatch : s.probeMatch with
      | none =>
        have := hnone hmatch
        omega
      | some hit => exact Nat.lt_of_le_of_lt (hm hit.1 hit.2 hmatch) (hsome hit.1 hit.2 hmatch)
    have hskip : (skipProbe newBuf s links[i].nLength).probeMatch = s.probeMatch :=
      (@appendLiteral_frame newBuf { s with cursorInput := links[i].nLength + s.inputPos } _).2.2.1
    have hrec := @ih (i + 1) (skipProbe newBuf s links[i].nLength)
    rw [hskip] at hrec
    rw [List.drop_eq_getElem_cons hlt]
    unfold assignedHandle handleProbe
    rw [List.getElem?_eq_getElem hlt]
    simp only [Option.bind_eq_bind, Option.bind_some]
    cases hmatch : s.probeMatch with
    | none =>
      rw [hmatch] at hrec hm hnone hsome
      exact hrec (by omega) (fun m dup h => absurd h (by simp)) hnone hsome
    | some hit =>
      obtain ⟨m, dup⟩ := hit
      rw [hmatch] at hrec hm hnone hsome
      simp only
      split
      case isTrue => exact ⟨rfl, matchString_flagHandleProbe _ _ _⟩
      case isFalse hne =>
        apply hrec (by omega) _ hnone hsome
        intro m' dup' h
        have hle' := hm m' dup' h
        obtain ⟨rfl, _⟩ := Prod.mk.inj (Option.some.inj h)
        omega

theorem encodeString_flagHandleProbe (s : EncState) :
    (encodeString env newBuf baseBuf tail s).flagHandleProbe = s.flagHandleProbe := by
  unfold encodeString
  simp only
  split
  · exact matchString_flagHandleProbe _ _ _
  · exact (appendLiteral_frame _ _).2.2.2

/-- A pass that chunks the base reads nothing unassigned, whatever the flag was before it. -/
theorem assignedPass_asks {s : EncState} (flag : Option Bool) (h : asks env newBuf baseBuf s = true) :
    assignedPass env newBuf baseBuf tail flag s =
        some (some false, encodePass env newBuf baseBuf tail s) ∧
      (encodePass env newBuf baseBuf tail s).flagHandleProbe = false := by
  unfold asks at h
  obtain ⟨hexpand, hreach, hflag⟩ := @assignedExpand_eq env newBuf baseBuf tail BASE_STEP 0 BASE_BEGIN
    { s with flagHandleProbe := true, probeMatch := none } (Or.inr ⟨rfl, by decide⟩)
    (fun h => absurd rfl h)
  unfold assignedPass encodePass assignedProbe encodeProbe
  simp only [h, if_true, hexpand]
  generalize expandBase env newBuf baseBuf tail BASE_STEP 0 BASE_BEGIN
    { s with flagHandleProbe := true, probeMatch := none } = p at *
  obtain ⟨hhandle, hclear⟩ := @assignedHandle_eq newBuf baseBuf tail p.inputLink INPUT_TRY 0 p hreach
    (Nat.zero_add _) (fun _ _ _ => Nat.zero_le _)
  rw [List.drop_zero] at hhandle hclear
  simp only [Option.map_some, Option.bind_eq_bind, Option.bind_some, assignedTest, hhandle, hflag,
    if_true, true_and]
  split
  · exact hclear
  · exact (encodeString_flagHandleProbe _).trans hclear

theorem assignedPass_skips {s : EncState} (h : asks env newBuf baseBuf s = false)
    (hflag : s.flagHandleProbe = false) :
    assignedPass env newBuf baseBuf tail (some false) s =
        some (some false, encodePass env newBuf baseBuf tail s) ∧
      (encodePass env newBuf baseBuf tail s).flagHandleProbe = false := by
  unfold asks at h
  unfold assignedPass encodePass assignedProbe encodeProbe
  simp only [h, Bool.false_eq_true, if_false, hflag, Option.bind_eq_bind, Option.bind_some,
    assignedTest, true_and]
  exact (encodeString_flagHandleProbe s).trans hflag

/-- Once the flag has a value, no later pass reads anything unassigned. -/
theorem assignedLoop_assigned {fuel : Nat} {s : EncState} (hflag : s.flagHandleProbe = false) :
    assignedLoop env newBuf baseBuf tail fuel (some false) s =
      some (encodeLoop env newBuf baseBuf tail fuel s) := by
  induction fuel generalizing s with
  | zero => rfl
  | succ fuel ih =>
    unfold assignedLoop encodeLoop
    split
    · have hpass : assignedPass env newBuf baseBuf tail (some false) s =
            some (some false, encodePass env newBuf baseBuf tail s) ∧
          (encodePass env newBuf baseBuf tail s).flagHandleProbe = false := by
        cases h : asks env newBuf baseBuf s with
        | true => exact assignedPass_asks (some false) h
        | false => exact assignedPass_skips h hflag
      rw [hpass.1]
      exact ih hpass.2
    · rfl

/-- The main loop as a whole: only its first pass can read the flag unassigned. -/
theorem assignedLoop_eq {fuel : Nat} {s : EncState} (hfuel : 0 < fuel) :
    assignedLoop env newBuf baseBuf tail fuel none s =
      if s.inputPos < newBuf.length - tail ∧ asks env newBuf baseBuf s = false then none
      else some (encodeLoop env newBuf baseBuf tail fuel s) := by
  obtain ⟨fuel, rfl⟩ : ∃ k, fuel = k + 1 := ⟨fuel - 1, by omega⟩
  unfold assignedLoop encodeLoop
  by_cases hlt : s.inputPos < newBuf.length - tail
  · simp only [hlt, true_and]
    cases h : asks env newBuf baseBuf s with
    | true =>
      obtain ⟨hpass, hflag⟩ := @assignedPass_asks env newBuf baseBuf tail s none h
      rw [hpass]
      exact assignedLoop_assigned hflag
    | false =>
      have hnone : assignedPass env newBuf baseBuf tail none s = none := by
        unfold asks at h
        unfold assignedPass assignedProbe
        simp only [h, Bool.false_eq_true, if_false, Option.bind_eq_bind, Option.bind_some]
        rfl
      rw [hnone]
      rfl
  · simp only [hlt, false_and, if_false]

end Reads

section Stripping
variable {newBuf baseBuf : Bytes}

theorem getElem?_ne_of_getD {a b : Bytes} {x y : Nat}
    (h : (a.getD x 0 == b.getD y 0) = false) : a[x]? ≠ b[y]? := by
  intro heq
  rw [List.getD_eq_getElem?_getD, List.getD_eq_getElem?_getD, heq, beq_self_eq_true] at h
  exact absurd h (by decide)

theorem headSize_eq : headSize newBuf baseBuf = commonPrefix baseBuf newBuf := by
  have hle := @headSize_le newBuf baseBuf
  apply eq_commonPrefix (by omega) (by omega) head_eq
  intro hb hn
  have hstop : headSize newBuf baseBuf = min baseBuf.length newBuf.length ∨
      (baseBuf.getD (headSize newBuf baseBuf) 0 == newBuf.getD (headSize newBuf baseBuf) 0) = false :=
    scan_stop (scan_le (Nat.zero_le _)) (Nat.le_add_left _ _)
  rcases hstop with hmin | hne
  · omega
  · exact getElem?_ne_of_getD hne

theorem tailSize_eq :
    tailSize newBuf baseBuf = commonPrefix baseBuf.reverse newBuf.reverse := by
  have hle := @tailSize_le newBuf baseBuf
  have htail : TailEq newBuf baseBuf (tailSize newBuf baseBuf) := tail_eq
  unfold TailEq slice at htail
  rw [List.take_of_length_le (by rw [List.length_drop]; omega),
    List.take_of_length_le (by rw [List.length_drop]; omega)] at htail
  apply eq_commonPrefix
  · rw [List.length_reverse]
    omega
  · rw [List.length_reverse]
    omega
  · rw [List.take_reverse, List.take_reverse, htail]
  · intro hb hn
    rw [List.length_reverse] at hb hn
    have hstop : tailSize newBuf baseBuf = min baseBuf.length newBuf.length ∨
        (baseBuf.getD (baseBuf.length - tailSize newBuf baseBuf - 1) 0 ==
          newBuf.getD (newBuf.length - tailSize newBuf baseBuf - 1) 0) = false :=
      scan_stop (scan_le (Nat.zero_le _)) (Nat.le_add_left _ _)
    rw [List.getElem?_reverse hb, List.getElem?_reverse hn, Nat.sub_right_comm _ 1,
      Nat.sub_right_comm _ 1]
    rcases hstop with hmin | hne
    · omega
    · exact getElem?_ne_of_getD hne

/-- A few bytes more than the base cost one copy and one literal. -/
theorem EDeltaEncode_appended (env : EDeltaEnv) {more : Bytes} (hbase : 16 < baseBuf.length)
    (hmore : more ≠ []) (hshort : more.length ≤ 16) :
    (EDeltaEncode env (baseBuf ++ more) baseBuf).length = 12 + more.length := by
  have hpos : 0 < more.length := List.length_pos_iff.mpr hmore
  have hhead : begSize (baseBuf ++ more) baseBuf = baseBuf.length := by
    have happ := commonPrefix_append baseBuf [] more
    rw [List.append_nil] at happ
    unfold begSize
    rw [headSize_eq, happ]
    unfold commonPrefix
    exact if_pos hbase
  have htail : endSize (baseBuf ++ more) baseBuf = 0 := by
    have hsize : (if (baseBuf ++ more).length < baseBuf.length + tailSize (baseBuf ++ more) baseBuf
        then (baseBuf ++ more).length - baseBuf.length
        else tailSize (baseBuf ++ more) baseBuf) ≤ more.length := by
      rw [List.length_append]
      split
      · omega
      · omega
    unfold endSize
    rw [hhead]
    exact if_neg (by omega)
  have hslice : slice (baseBuf ++ more) baseBuf.length
      ((baseBuf ++ more).length - baseBuf.length - 0) = more := by
    rw [List.length_append, Nat.sub_zero, Nat.add_sub_cancel_left]
    exact slice_append_exact baseBuf more rfl
  unfold EDeltaEncode
  simp only [hhead, htail, hslice]
  rw [if_pos (by omega), if_pos (by rw [List.length_append]; omega)]
  unfold writeTail encodeInit
  rw [if_neg (Nat.lt_irrefl 0), if_pos (by omega)]
  simp [writeLiteral, writeUnit1, memcpy]

end Stripping

/-- The first pass chunks the base, or there is no pass: the common head is not used, or head and
tail cover the base, or the head is no larger a part of the base than of the new chunk, within one
half. -/
def ProbesFirst (newBuf baseBuf : Bytes) : Prop :=
  let head := commonPrefix baseBuf newBuf
  let tail := commonPrefix baseBuf.reverse newBuf.reverse
  head ≤ 16 ∨ baseBuf.length ≤ head + (if 16 < tail then tail else 0) ∨
    2 * head * newBuf.length ≤ 2 * head * baseBuf.length + newBuf.length * baseBuf.length

instance (newBuf baseBuf : Bytes) : Decidable (ProbesFirst newBuf baseBuf) := by
  unfold ProbesFirst
  infer_instance

/-- A head that fails the exact test fills more than half of the base and less than half of the
new chunk. -/
theorem exactProgress_fails {head newSize baseSize : Nat} (hb : head ≤ baseSize)
    (h : 2 * head * baseSize + newSize * baseSize < 2 * head * newSize) :
    baseSize < 2 * head ∧ 2 * head < newSize := by
  constructor
  · by_contra hge
    have := Nat.mul_le_mul_left newSize (Nat.le_of_not_lt hge)
    rw [Nat.mul_comm newSize (2 * head)] at this
    omega
  · by_contra hge
    have h1 := Nat.mul_le_mul_right baseSize (Nat.le_of_not_lt hge)
    have h2 := Nat.mul_le_mul_left newSize hb
    have h3 : 2 * head * newSize = newSize * head + newSize * head := by
      rw [Nat.mul_comm, Nat.two_mul, Nat.mul_add]
    omega

section FirstPass
variable {newBuf baseBuf : Bytes}

/-- Where the exact test fails at the end of the head, the main loop is entered with bytes left. -/
theorem first_pass_iff :
    (¬ baseBuf.length ≤ begSize newBuf baseBuf + endSize newBuf baseBuf ∧
      begSize newBuf baseBuf < newBuf.length - endSize newBuf baseBuf ∧
      exactProgress (begSize newBuf baseBuf) newBuf.length (begSize newBuf baseBuf) baseBuf.length =
        false) ↔
    ¬ ProbesFirst newBuf baseBuf := by
  have hhead := @headSize_le newBuf baseBuf
  have htail := @tailSize_le newBuf baseBuf
  unfold ProbesFirst exactProgress endSize begSize
  rw [← headSize_eq, ← tailSize_eq]
  generalize headSize newBuf baseBuf = head at *
  generalize tailSize newBuf baseBuf = tail at *
  rw [decide_eq_false_iff_not]
  by_cases hlong : 16 < head
  · simp only [if_pos hlong]
    by_cases hprog : 2 * head * newBuf.length ≤
        2 * head * baseBuf.length + newBuf.length * baseBuf.length
    · simp only [hprog, not_true, and_false, or_true]
    · have hsizes := exactProgress_fails (by omega : head ≤ baseBuf.length)
        (Nat.lt_of_not_le hprog)
      simp only [hprog, not_false_eq_true, and_true, or_false]
      by_cases hclip : newBuf.length < head + tail
      · have hrest : 16 < newBuf.length - head := by omega
        have hlast : 16 < tail := by omega
        simp only [if_pos hclip, if_pos hrest, if_pos hlast]
        omega
      · simp only [if_neg hclip]
        split <;> omega
  · simp only [if_neg hlong, Nat.mul_zero, Nat.zero_mul, Nat.zero_add, Nat.zero_le, not_true,
      and_false, Nat.le_of_not_lt hlong, true_or]

/-- The encoder with tracked locals is the encoder, unless its first pass reads the flag. -/
theorem assignedEncode_eq (env : EDeltaEnv) :
    assignedEncode env newBuf baseBuf =
      if ¬ baseBuf.length ≤ begSize newBuf baseBuf + endSize newBuf baseBuf ∧
        begSize newBuf baseBuf < newBuf.length - endSize newBuf baseBuf ∧
        env.progress (begSize newBuf baseBuf) newBuf.length (begSize newBuf baseBuf)
          baseBuf.length = false
      then none else some (EDeltaEncode env newBuf baseBuf) := by
  have hinit : (encodeInit (begSize newBuf baseBuf)).inputPos = begSize newBuf baseBuf ∧
      asks env newBuf baseBuf (encodeInit (begSize newBuf baseBuf)) =
        env.progress (begSize newBuf baseBuf) newBuf.length (begSize newBuf baseBuf)
          baseBuf.length := by
    unfold encodeInit asks
    split
    · exact ⟨rfl, rfl⟩
    · exact ⟨rfl, rfl⟩
  unfold assignedEncode EDeltaEncode
  simp only
  by_cases hsmall : baseBuf.length ≤ begSize newBuf baseBuf + endSize newBuf baseBuf
  · simp only [hsmall, if_true, not_true, false_and, if_false]
    split <;> rfl
  · simp only [hsmall, if_false, not_false_eq_true, true_and]
    rcases Nat.eq_zero_or_pos newBuf.length with hnew | hnew
    · have hpos : ¬ begSize newBuf baseBuf < newBuf.length - endSize newBuf baseBuf := by omega
      rw [if_neg (fun h => hpos h.1), hnew]
      rfl
    · rw [assignedLoop_eq hnew, hinit.1, hinit.2]
      split <;> rfl

/-- With the exact test the encoder reads only assigned locals on the inputs whose first pass
chunks the base, and on no others. -/
theorem EDeltaEncode_assigned_iff (env : EDeltaEnv) (newBuf baseBuf : Bytes) :
    (assignedEncode { env with progress := exactProgress } newBuf baseBuf).isSome = true ↔
      ProbesFirst newBuf baseBuf := by
  rw [assignedEncode_eq]
  have hiff := @first_pass_iff newBuf baseBuf
  by_cases hfirst : ProbesFirst newBuf baseBuf
  · rw [if_neg (fun h => hiff.mp h hfirst)]
    exact ⟨fun _ => hfirst, fun _ => rfl⟩
  · rw [if_pos (hiff.mpr hfirst)]
    exact ⟨fun h => absurd h (by decide), fun h => absurd h hfirst⟩

end FirstPass

/-- Twenty common bytes are 20/21 of this base and 20/50 of the new chunk. -/
theorem EDeltaEncode_reads_unassigned :
    assignedEncode { sumEnv with progress := exactProgress }
      (List.replicate 20 0 ++ List.replicate 30 2) (List.replicate 20 0 ++ [1]) = none := by
  decide +kernel

end ShieldReduce.EDelta
