import ShieldReduce.EDelta.Assigned
import ShieldReduce.EDelta.Expansion

/-!
# Deltas longer than the buffer

Against a base of one byte the encoder finds nothing in the new chunk, or only its last byte. The
delta is then four or eleven bytes longer than the new chunk.
-/

namespace ShieldReduce.EDelta
open Lib

/-- The table of the source: a key is looked up from the newest record on. -/
def htableEnv (weakHash : Bytes → UInt64) (progress : Nat → Nat → Nat → Nat → Bool) : EDeltaEnv where
  weakHash := weakHash
  progress := progress
  lookup table key := table.find? (fun r => r.nHash == key)
  lookup_inserted := @find_nHash

section Zeros

/-- The fingerprint after `k` more zero bytes. -/
def zeros (k : Nat) (fingerprint : UInt32) : UInt32 := (fun f => gearStep f 0)^[k] fingerprint

theorem zeros_succ (k : Nat) (fingerprint : UInt32) :
    zeros (k + 1) fingerprint = zeros k (gearStep fingerprint 0) := by
  unfold zeros
  rw [Function.iterate_succ_apply]

theorem zeros_one (fingerprint : UInt32) : zeros 1 fingerprint = gearStep fingerprint 0 := by
  unfold zeros
  rw [Function.iterate_one]

theorem zeros_uncut : ∀ k < 52, gearCut (zeros (k + 1) 0) = false := by
  decide +kernel

theorem zeros_cut_one : ∀ k ∈ [45, 46, 47, 48, 49, 50, 51], gearCut (gearStep (zeros k 0) 1) = true := by
  decide +kernel

/-- A stretch of zero bytes without a cut. -/
theorem chunkGearLoop_zeros {p : Bytes} {n fuel i k : Nat} {fingerprint : UInt32}
    (hp : ∀ j < k, p.getD (i + j) 0 = 0) (hcut : ∀ j < k, gearCut (zeros (j + 1) fingerprint) = false)
    (hmax : i + k ≤ STRMAX + 1) (hn : i + k ≤ n + 1) :
    chunkGearLoop p n (fuel + k) i fingerprint =
      chunkGearLoop p n fuel (i + k) (zeros k fingerprint) := by
  induction k generalizing i fingerprint with
  | zero => rfl
  | succ k ih =>
    have hbyte := hp 0 (Nat.succ_pos k)
    have hfirst := hcut 0 (Nat.succ_pos k)
    rw [Nat.zero_add, zeros_one] at hfirst
    rw [Nat.add_zero] at hbyte
    have hrec := @ih (i + 1) (gearStep fingerprint 0)
      (fun j hj => by rw [Nat.add_assoc, Nat.add_comm 1 j]; exact hp (j + 1) (Nat.succ_lt_succ hj))
      (fun j hj => by rw [← zeros_succ]; exact hcut (j + 1) (Nat.succ_lt_succ hj)) (by omega)
      (by omega)
    rw [zeros_succ, ← Nat.add_assoc, show i + (k + 1) = i + 1 + k by omega]
    conv_lhs => unfold chunkGearLoop
    rw [if_pos (by omega : i ≤ n), hbyte]
    simp only
    rw [if_pos (by omega : i ≤ STRMAX), if_neg (Bool.eq_false_iff.mp hfirst)]
    exact hrec

/-- A string of zero bytes is cut at `STRMAX + 1`. -/
theorem chunkGear_zeros {p : Bytes} {n : Nat} (hn : 65 ≤ n)
    (hp : ∀ j, 13 ≤ j → j < 65 → p.getD j 0 = 0) : chunkGear p n = 65 := by
  obtain ⟨fuel, rfl⟩ : ∃ fuel, n = fuel + 1 + 52 := ⟨n - 53, by omega⟩
  have hrun := @chunkGearLoop_zeros p (fuel + 1 + 52) (fuel + 1) 13 52 0
    (fun j hj => hp (13 + j) (by omega) (by omega)) zeros_uncut (by decide) (by omega)
  unfold chunkGear
  rw [if_neg (by unfold STRMAX; omega)]
  change chunkGearLoop p (fuel + 1 + 52) (fuel + 1 + 52) 13 0 = 65
  rw [hrun]
  unfold chunkGearLoop
  rw [if_pos (by omega : 13 + 52 ≤ fuel + 1 + 52)]
  rfl

/-- A one after at least 58 zero bytes is a cut. -/
theorem chunkGear_one {p : Bytes} {n t : Nat} (hn : 65 ≤ n) (ht : 58 ≤ t) (ht' : t ≤ 64)
    (hp : ∀ j, 13 ≤ j → j < t → p.getD j 0 = 0) (hone : p.getD t 0 = 1) : chunkGear p n = t := by
  obtain ⟨k, rfl⟩ : ∃ k, t = 13 + k := ⟨t - 13, by omega⟩
  have hcut := zeros_cut_one k (by simp only [List.mem_cons]; omega)
  obtain ⟨fuel, rfl⟩ : ∃ fuel, n = fuel + 1 + k := ⟨n - 1 - k, by omega⟩
  have hrun := @chunkGearLoop_zeros p (fuel + 1 + k) (fuel + 1) 13 k 0
    (fun j hj => hp (13 + j) (by omega) (by omega))
    (fun j hj => zeros_uncut j (by omega)) (by unfold STRMAX; omega) (by omega)
  unfold chunkGear
  rw [if_neg (by unfold STRMAX; omega)]
  change chunkGearLoop p (fuel + 1 + k) (fuel + 1 + k) 13 0 = 13 + k
  rw [hrun]
  unfold chunkGearLoop
  rw [if_pos (by omega : 13 + k ≤ fuel + 1 + k), hone]
  simp only
  rw [if_pos (by unfold STRMAX; omega), if_pos hcut]

end Zeros

section Unmatched
variable {env : EDeltaEnv} {newBuf : Bytes} {b : UInt8} {last : Nat} {P : Nat → Prop}

/-- The length of the string of the new chunk at `pos`. -/
def nextLength (newBuf : Bytes) (pos : Nat) : Nat :=
  chunkGear (newBuf.drop pos) (newBuf.length - pos - 0)

theorem nextLength_le (newBuf : Bytes) (pos : Nat) : nextLength newBuf pos ≤ 65 := by
  unfold nextLength chunkGear
  split
  case isTrue h =>
    unfold STRMAX at h
    omega
  case isFalse hn =>
    exact (@chunkGearLoop_bounds _ _ _ (STRMIN + 1) 0 (by omega) (by decide)
      (by simp only [STRMIN, STRMAX] at *; omega)).2

/-- The new chunk is one pending literal so far, and the table only knows the byte of the base. -/
structure Unmatched (s : EncState) (pos : Nat) : Prop where
  strings : ∀ r ∈ s.psHTable, r.nOffset = 0 ∧ r.nLength = 1
  start : pos = 0 → s.flag = .none ∧ s.deltaLen = 0
  pending : 0 < pos → s.flag = .unit2 ∧ s.deltaLen = pos + 4

/-- Positions closed under cutting the next string, up to `last`, none of the strings being the
byte of the base. -/
structure Chain (newBuf : Bytes) (b : UInt8) (last : Nat) (P : Nat → Prop) : Prop where
  last_le : last ≤ newBuf.length
  next : ∀ pos, P pos → pos < last → P (pos + nextLength newBuf pos)
  next_le : ∀ pos, P pos → pos < last → pos + nextLength newBuf pos ≤ last
  unlike : ∀ pos, P pos → pos < last → slice newBuf pos (nextLength newBuf pos) ≠ [b]

theorem Chain.pos (hc : Chain newBuf b last P) {pos : Nat} (hlt : pos < last) :
    0 < nextLength newBuf pos := by
  have hle := hc.last_le
  exact chunkGear_pos (by omega)

theorem appendLiteral_unmatched {s : EncState} {length : Nat} (h : Unmatched s s.inputPos)
    (hpos : 0 < length) : Unmatched (appendLiteral newBuf s length) (s.inputPos + length) := by
  refine ⟨?_, fun h0 => by omega, fun _ => ?_⟩
  · rw [(appendLiteral_frame s length).2.1]
    exact h.strings
  · rcases Nat.eq_zero_or_pos s.inputPos with h0 | h1
    · obtain ⟨hflag, hlen⟩ := h.start h0
      simp only [appendLiteral, hflag]
      exact ⟨trivial, by omega⟩
    · obtain ⟨hflag, hlen⟩ := h.pending h1
      simp only [appendLiteral, hflag]
      exact ⟨trivial, by omega⟩

theorem matchString_unmatched {s : EncState} {dup : DeltaRecord} {length : Nat}
    (h : Unmatched s s.inputPos) (hdup : dup ∈ s.psHTable) (hpos : 0 < length)
    (hunlike : slice newBuf s.inputPos length ≠ [b]) :
    Unmatched (matchString newBuf [b] 0 s dup length) (s.inputPos + length) ∧
      (matchString newBuf [b] 0 s dup length).cursorInput = s.cursorInput := by
  obtain ⟨hoff, hlen⟩ := h.strings dup hdup
  unfold matchString
  rw [if_neg]
  · exact ⟨appendLiteral_unmatched h hpos, (appendLiteral_frame s length).1⟩
  · rintro ⟨heq, hsame⟩
    rw [hoff, heq, hlen] at hsame
    rw [heq, hlen] at hunlike
    exact hunlike hsame

theorem encodeString_unmatched (hc : Chain newBuf b last P) {s : EncState} (hP : P s.inputPos)
    (hlt : s.inputPos < last) (h : Unmatched s s.inputPos) :
    Unmatched (encodeString env newBuf [b] 0 s) (s.inputPos + nextLength newBuf s.inputPos) ∧
      (encodeString env newBuf [b] 0 s).cursorInput =
        s.inputPos + nextLength newBuf s.inputPos := by
  have hpos := hc.pos hlt
  have hunlike := hc.unlike s.inputPos hP hlt
  have hdef : chunkGear (newBuf.drop s.inputPos) (newBuf.length - s.inputPos - 0) =
      nextLength newBuf s.inputPos := rfl
  unfold encodeString
  simp only [hdef]
  generalize nextLength newBuf s.inputPos = length at *
  have hs : Unmatched { s with cursorInput := length + s.inputPos } s.inputPos :=
    ⟨h.strings, h.start, h.pending⟩
  split
  case h_1 dup hdup =>
    obtain ⟨hm, hcur⟩ := matchString_unmatched hs (env.lookup_inserted hdup).1 hpos hunlike
    exact ⟨hm, hcur.trans (Nat.add_comm _ _)⟩
  case h_2 =>
    exact ⟨appendLiteral_unmatched hs hpos,
      (appendLiteral_frame _ length).1.trans (Nat.add_comm _ _)⟩

theorem handleProbe_unmatched (hc : Chain newBuf b last P) {links : List DeltaRecord} {i : Nat}
    {s : EncState} (hP : P s.inputPos)
    (hlinks : LinksAlong (fun pos length => length = nextLength newBuf pos) s.inputPos links)
    (hroom : s.inputPos + 65 * links.length < last) (h : Unmatched s s.inputPos)
    (hhit : ∀ m dup, s.probeMatch = some (m, dup) → dup ∈ s.psHTable) :
    Unmatched (handleProbe newBuf [b] 0 links i s).1
        (probeEnd (handleProbe newBuf [b] 0 links i s)) ∧
      P (probeEnd (handleProbe newBuf [b] 0 links i s)) ∧
      probeEnd (handleProbe newBuf [b] 0 links i s) ≤ s.inputPos + 65 * links.length := by
  induction links generalizing i s with
  | nil => exact ⟨⟨h.strings, h.start, h.pending⟩, hP, Nat.le_refl _⟩
  | cons link links ih =>
    rw [List.length_cons] at hroom ⊢
    have hlt : s.inputPos < last := by omega
    have hpos := hc.pos hlt
    have hmax := nextLength_le newBuf s.inputPos
    have hnext := hc.next s.inputPos hP hlt
    have hunlike := hc.unlike s.inputPos hP hlt
    obtain ⟨hlen, hrest⟩ := hlinks
    rw [← hlen] at hpos hmax hnext hunlike
    have hs : Unmatched { s with cursorInput := link.nLength + s.inputPos } s.inputPos :=
      ⟨h.strings, h.start, h.pending⟩
    have happ := @appendLiteral_unmatched newBuf _ link.nLength hs hpos
    obtain ⟨hcur, htable, hmatch, -⟩ := @appendLiteral_frame newBuf
      { s with cursorInput := link.nLength + s.inputPos } link.nLength
    have hskip : (skipProbe newBuf s link.nLength).inputPos = s.inputPos + link.nLength :=
      hcur.trans (Nat.add_comm _ _)
    have hrec := @ih (i + 1) (skipProbe newBuf s link.nLength)
    rw [hskip] at hrec
    have htail := hrec hnext hrest (by omega) ⟨happ.strings, happ.start, happ.pending⟩
      (fun m dup hm => by
        have hmem := hhit m dup (hmatch.symm.trans hm)
        rw [← htable] at hmem
        exact hmem)
    have hskipped : Unmatched (handleProbe newBuf [b] 0 links (i + 1)
          (skipProbe newBuf s link.nLength)).1
          (probeEnd (handleProbe newBuf [b] 0 links (i + 1) (skipProbe newBuf s link.nLength))) ∧
        P (probeEnd (handleProbe newBuf [b] 0 links (i + 1) (skipProbe newBuf s link.nLength))) ∧
        probeEnd (handleProbe newBuf [b] 0 links (i + 1) (skipProbe newBuf s link.nLength)) ≤
          s.inputPos + 65 * (links.length + 1) := ⟨htail.1, htail.2.1, by omega⟩
    unfold handleProbe
    split
    case h_1 m dup hm =>
      split
      case isTrue =>
        have hf : Unmatched
            { s with cursorInput := link.nLength + s.inputPos, flagHandleProbe := false }
            s.inputPos := ⟨h.strings, h.start, h.pending⟩
        obtain ⟨hmat, hcur'⟩ := @matchString_unmatched newBuf b _ dup link.nLength hf
          (hhit m dup hm) hpos hunlike
        simp only [probeEnd, if_true]
        rw [hcur'.trans (Nat.add_comm link.nLength s.inputPos)]
        exact ⟨hmat, hnext, by omega⟩
      case isFalse => exact hskipped
    case h_2 => exact hskipped

/-- The five slots of the first call: the byte of the base, and four empty strings. -/
theorem chunkBase_byte {s : EncState} (hcur : s.cursorBase = 0) (htable : s.psHTable = []) :
    (chunkBase env [b] 0 s BASE_BEGIN).flagChunk = false ∧
      (chunkBase env [b] 0 s BASE_BEGIN).psHTable = [⟨env.weakHash [b], 0, 1⟩] := by
  unfold chunkBase
  rw [hcur, htable]
  exact ⟨Bool.and_false _, rfl⟩

/-- One call chunks the base to its end. -/
theorem expandBase_byte {s : EncState} (hcur : s.cursorBase = 0) (htable : s.psHTable = []) :
    (expandBase env newBuf [b] 0 BASE_STEP 0 BASE_BEGIN s).flagChunk = false ∧
      (expandBase env newBuf [b] 0 BASE_STEP 0 BASE_BEGIN s).psHTable = [⟨env.weakHash [b], 0, 1⟩] ∧
      (expandBase env newBuf [b] 0 BASE_STEP 0 BASE_BEGIN s).flagHandleProbe = s.flagHandleProbe ∧
      (expandBase env newBuf [b] 0 BASE_STEP 0 BASE_BEGIN s).inputLink.length ≤ INPUT_TRY := by
  obtain ⟨hflag, htab⟩ := @chunkBase_byte env b s hcur htable
  have hprobe : (chunkBase env [b] 0 s BASE_BEGIN).flagHandleProbe = s.flagHandleProbe := rfl
  unfold BASE_STEP expandBase
  generalize chunkBase env [b] 0 s BASE_BEGIN = c at *
  have hreach := (@probeInput_reach env newBuf 0 c.psHTable INPUT_TRY 0 c.cursorInput).1
  simp only [if_true, hflag, Bool.not_false, Bool.or_true]
  exact ⟨trivial, htab, hprobe, hreach⟩

/-- The first pass chunks the base and leaves several strings of the new chunk pending. -/
theorem encodePass_first (hc : Chain newBuf b last P)
    (hlast : 390 < last) (hstart : P 0)
    (hprog : env.progress 0 newBuf.length 0 1 = true)
    (hinv : LoopInv newBuf [b] 0 (encodeInit 0)) :
    Unmatched (encodePass env newBuf [b] 0 (encodeInit 0))
        (encodePass env newBuf [b] 0 (encodeInit 0)).inputPos ∧
      P (encodePass env newBuf [b] 0 (encodeInit 0)).inputPos ∧
      (encodePass env newBuf [b] 0 (encodeInit 0)).inputPos ≤ last ∧
      (encodePass env newBuf [b] 0 (encodeInit 0)).flagChunk = false ∧
      (encodePass env newBuf [b] 0 (encodeInit 0)).psHTable = [⟨env.weakHash [b], 0, 1⟩] := by
  have hcursor := @encodePass_cursor env newBuf [b] 0 (encodeInit 0)
  obtain ⟨hp, hpos, hready⟩ := @encodeProbe_inv env newBuf [b] 0 _ hinv
  have hprobe : encodeProbe env newBuf [b] 0 (encodeInit 0) =
      expandBase env newBuf [b] 0 BASE_STEP 0 BASE_BEGIN
        { encodeInit 0 with flagHandleProbe := true, probeMatch := none } := by
    unfold encodeProbe
    exact if_pos hprog
  obtain ⟨hflag, htable, hhandle, hlength⟩ := @expandBase_byte env newBuf b
    { encodeInit 0 with flagHandleProbe := true, probeMatch := none } rfl rfl
  obtain ⟨-, hlen, hunit⟩ := @expandBase_frame env newBuf [b] 0 BASE_BEGIN
    { encodeInit 0 with flagHandleProbe := true, probeMatch := none }
  have halong := (@expandBase_along env newBuf [b] 0 (fun pos length => length = nextLength newBuf pos)
    (fun _ _ => rfl) BASE_BEGIN 0 { encodeInit 0 with flagHandleProbe := true, probeMatch := none } rfl
    (Nat.zero_le _) (fun r hr => absurd hr List.not_mem_nil)).2
  rw [← hprobe] at hflag htable hhandle hlength hlen hunit halong
  rw [hcursor.flagChunk, hcursor.table]
  unfold encodePass
  generalize encodeProbe env newBuf [b] 0 (encodeInit 0) = p at *
  have hp0 : p.inputPos = 0 := hpos
  have hun : Unmatched p p.inputPos := by
    rw [hp0]
    refine ⟨fun r hr => ?_, fun _ => ⟨hunit, hlen⟩, fun h => absurd h (Nat.lt_irrefl 0)⟩
    rw [htable, List.mem_singleton] at hr
    rw [hr]
    exact ⟨rfl, rfl⟩
  unfold INPUT_TRY at hlength
  rw [← hp0] at halong hstart
  obtain ⟨hend, hPend, hle⟩ := @handleProbe_unmatched newBuf b last P hc p.inputLink 0 p hstart halong
    (by omega) hun (hready hhandle).hit
  simp only [hhandle, if_true]
  generalize handleProbe newBuf [b] 0 p.inputLink 0 p = r at *
  cases hr : r.2 with
  | true =>
    simp only [probeEnd, hr, if_true] at hend hPend hle ⊢
    exact ⟨⟨hend.strings, hend.start, hend.pending⟩, hPend, by omega, hflag, htable⟩
  | false =>
    simp only [probeEnd, hr, Bool.false_eq_true, if_false] at hend hPend hle ⊢
    have hlt : r.1.inputPos < last := by omega
    obtain ⟨hs, hcur⟩ := @encodeString_unmatched env newBuf b last P hc r.1 hPend hlt hend
    rw [hcur]
    exact ⟨⟨hs.strings, hs.start, hs.pending⟩, hc.next _ hPend hlt, hc.next_le _ hPend hlt, hflag,
      htable⟩

/-- A pass after the base is chunked handles one string. -/
theorem encodePass_string {baseBuf : Bytes} {tail : Nat} {s : EncState} (hflag : s.flagChunk = false)
    (hprobe : s.flagHandleProbe = false) :
    encodePass env newBuf baseBuf tail s =
      { encodeString env newBuf baseBuf tail s with
        inputPos := (encodeString env newBuf baseBuf tail s).cursorInput } := by
  unfold encodePass encodeProbe
  simp only [hflag, Bool.false_and, Bool.false_eq_true, if_false, hprobe]

/-- The rest of the loop up to `last`. -/
theorem encodeLoop_unmatched (hnew : newBuf.length ≤ MAX_CHUNK_SIZE) (hc : Chain newBuf b last P)
    {fuel : Nat} {s : EncState} (hinv : LoopInv newBuf [b] 0 s) (hP : P s.inputPos)
    (hle : s.inputPos ≤ last) (h : Unmatched s s.inputPos) (hflag : s.flagChunk = false)
    (hfuel : newBuf.length ≤ s.inputPos + fuel) :
    ∃ fuel' t, encodeLoop env newBuf [b] 0 fuel s = encodeLoop env newBuf [b] 0 fuel' t ∧
      newBuf.length ≤ last + fuel' ∧ LoopInv newBuf [b] 0 t ∧ t.inputPos = last ∧
      Unmatched t last ∧ t.flagChunk = false ∧ t.psHTable = s.psHTable := by
  induction fuel generalizing s with
  | zero =>
    have hlast := hc.last_le
    have heq : s.inputPos = last := by omega
    exact ⟨0, s, rfl, by omega, hinv, heq, by rw [← heq]; exact h, hflag, rfl⟩
  | succ fuel ih =>
    rcases Nat.lt_or_ge s.inputPos last with hlt | hge
    · have hlast := hc.last_le
      have hgo : s.inputPos < newBuf.length - 0 := Nat.lt_of_lt_of_le hlt hlast
      obtain ⟨hpass, hadv⟩ := @encodePass_inv env newBuf [b] 0 hnew
        (show 1 ≤ MAX_CHUNK_SIZE by decide) s hinv hgo
      obtain ⟨hstring, hcur⟩ := @encodeString_unmatched env newBuf b last P hc s hP hlt h
      have hframe := @encodeString_cursor env newBuf [b] 0 s
      have heq := @encodePass_string env newBuf [b] 0 s hflag hinv.probe
      have hpos : (encodePass env newBuf [b] 0 s).inputPos =
          s.inputPos + nextLength newBuf s.inputPos := by rw [heq]; exact hcur
      have hun : Unmatched (encodePass env newBuf [b] 0 s)
          (encodePass env newBuf [b] 0 s).inputPos := by
        rw [hpos, heq]
        exact ⟨hstring.strings, hstring.start, hstring.pending⟩
      have hchunk : (encodePass env newBuf [b] 0 s).flagChunk = false := by
        rw [heq]
        exact hframe.flagChunk.trans hflag
      have htab : (encodePass env newBuf [b] 0 s).psHTable = s.psHTable := by
        rw [heq]
        exact hframe.table
      obtain ⟨fuel', t, hrun, hrest⟩ := @ih (encodePass env newBuf [b] 0 s) hpass
        (by rw [hpos]; exact hc.next _ hP hlt) (by rw [hpos]; exact hc.next_le _ hP hlt) hun hchunk
        (by omega)
      rw [htab] at hrest
      refine ⟨fuel', t, ?_, hrest⟩
      conv_lhs => unfold encodeLoop
      rw [if_pos hgo]
      exact hrun
    · have heq : s.inputPos = last := Nat.le_antisymm hle hge
      exact ⟨fuel + 1, s, rfl, by omega, hinv, heq, by rw [← heq]; exact h, hflag, rfl⟩

theorem begSize_byte : begSize newBuf [b] = 0 := by
  have hle := @headSize_le newBuf [b]
  rw [List.length_singleton] at hle
  unfold begSize
  rw [if_neg (by omega)]

theorem endSize_byte : endSize newBuf [b] = 0 := by
  have hle := @tailSize_le newBuf [b]
  rw [List.length_singleton] at hle
  unfold endSize
  simp only
  split
  · rw [if_neg (by omega)]
  · rw [if_neg (by omega)]

theorem encodeInit_byte : LoopInv newBuf [b] 0 (encodeInit 0) := by
  have hfit := (@endSize_le newBuf [b]).2
  have heq := @beg_eq newBuf [b]
  rw [begSize_byte] at hfit heq
  rw [endSize_byte] at hfit
  exact ((@encodeInit_inv newBuf [b] 0 0 (show 1 ≤ MAX_CHUNK_SIZE by decide) hfit (Nat.zero_le _)
    heq).2.2.2 (Nat.zero_le _)).1

theorem encodeLoop_done {baseBuf : Bytes} {tail fuel : Nat} {s : EncState}
    (h : newBuf.length - tail ≤ s.inputPos) : encodeLoop env newBuf baseBuf tail fuel s = s := by
  cases fuel with
  | zero => rfl
  | succ fuel =>
    unfold encodeLoop
    rw [if_neg (Nat.not_lt.mpr h)]

/-- The loop from its start up to `last`. -/
theorem encodeLoop_byte (hnew : newBuf.length ≤ MAX_CHUNK_SIZE) (hc : Chain newBuf b last P)
    (hlast : 390 < last) (hstart : P 0) (hprog : env.progress 0 newBuf.length 0 1 = true) :
    ∃ fuel t, encodeLoop env newBuf [b] 0 newBuf.length (encodeInit 0) =
        encodeLoop env newBuf [b] 0 fuel t ∧
      newBuf.length ≤ last + fuel ∧ LoopInv newBuf [b] 0 t ∧ t.inputPos = last ∧
      Unmatched t last ∧ t.flagChunk = false ∧ t.psHTable = [⟨env.weakHash [b], 0, 1⟩] := by
  have hle := hc.last_le
  have hinv := @encodeInit_byte newBuf b
  obtain ⟨hun, hP, hpos, hflag, htable⟩ := @encodePass_first env newBuf b last P hc hlast hstart hprog
    hinv
  obtain ⟨n, hn⟩ : ∃ n, newBuf.length = n + 1 := ⟨newBuf.length - 1, by omega⟩
  have hgo : (encodeInit 0).inputPos < newBuf.length - 0 := by
    rw [hn]
    exact Nat.succ_pos n
  obtain ⟨hpass, hadv⟩ := @encodePass_inv env newBuf [b] 0 hnew (show 1 ≤ MAX_CHUNK_SIZE by decide) _
    hinv hgo
  obtain ⟨fuel, t, hrun, hrest⟩ := @encodeLoop_unmatched env newBuf b last P hnew hc n _ hpass hP hpos
    hun hflag (by omega)
  rw [htable] at hrest
  refine ⟨fuel, t, ?_, hrest⟩
  rw [hn]
  conv_lhs => unfold encodeLoop
  rw [if_pos hgo]
  exact hrun

/-- The delta buffer holds what the main loop wrote. -/
theorem deltaExtent_byte (hnew : newBuf.length ≤ MAX_CHUNK_SIZE) :
    (encodeLoop env newBuf [b] 0 newBuf.length (encodeInit 0)).deltaLen ≤
      deltaExtent env newBuf [b] := by
  have hend := (@encodeLoop_inv env newBuf [b] 0 hnew (show 1 ≤ MAX_CHUNK_SIZE by decide)
    newBuf.length _ encodeInit_byte (Nat.le_add_left _ _)).1
  obtain ⟨hbuf, -⟩ := patchLiteral_buffer hend.inv.written
  have hle := written_le hend.inv.written
  have hfinal : encodeFinal env newBuf [b] =
      patchLiteral (encodeLoop env newBuf [b] 0 newBuf.length (encodeInit 0)) := by
    unfold encodeFinal
    rw [begSize_byte, endSize_byte]
    rfl
  unfold deltaExtent
  rw [hfinal, hbuf]
  exact hle

/-- No string of the new chunk is the byte of the base: one literal. -/
theorem deltaExtent_unmatched (hnew : newBuf.length ≤ MAX_CHUNK_SIZE) (hc : Chain newBuf b last P)
    (hend : newBuf.length = last) (hlast : 390 < last) (hstart : P 0)
    (hprog : env.progress 0 newBuf.length 0 1 = true) :
    newBuf.length + 4 ≤ deltaExtent env newBuf [b] := by
  have hle := @deltaExtent_byte env newBuf b hnew
  obtain ⟨fuel, t, hrun, -, -, hpos, hun, -⟩ := @encodeLoop_byte env newBuf b last P hnew hc hlast
    hstart hprog
  rw [hrun, encodeLoop_done (by omega), (hun.pending (by omega)).2] at hle
  omega

theorem emitMatch_front {tail length : Nat} {s : EncState} {dup : DeltaRecord} {baseBuf : Bytes}
    (hoff : dup.nOffset = 0) :
    (emitMatch newBuf baseBuf tail s dup length).deltaLen = s.deltaLen + 8 := by
  have hlen : (patchLiteral s).deltaLen = s.deltaLen := by
    unfold patchLiteral
    split <;> rfl
  have hback : ∀ q : EncState, backwardSize newBuf baseBuf q dup = 0 := by
    intro q
    unfold backwardSize
    rw [hoff]
    split
    · simp only [Nat.zero_min, scan]
    · rfl
  unfold emitMatch
  simp only [hback, Nat.lt_irrefl, if_false]
  exact congrArg (· + 8) hlen

end Unmatched

section LastByte
variable {weakHash : Bytes → UInt64} {progress : Nat → Nat → Nat → Nat → Bool} {newBuf : Bytes}
  {b : UInt8} {last : Nat} {P : Nat → Prop}

/-- Only the last byte of the new chunk is the byte of the base: a literal and a copy of one
byte. -/
theorem deltaExtent_lastByte (hnew : newBuf.length ≤ MAX_CHUNK_SIZE) (hc : Chain newBuf b last P)
    (hend : newBuf.length = last + 1) (hb : slice newBuf last 1 = [b]) (hlast : 390 < last)
    (hstart : P 0) (hprog : progress 0 newBuf.length 0 1 = true) :
    newBuf.length + 11 ≤ deltaExtent (htableEnv weakHash progress) newBuf [b] := by
  have hle := @deltaExtent_byte (htableEnv weakHash progress) newBuf b hnew
  obtain ⟨fuel, t, hrun, hfuel, hinv, hpos, hun, hflag, htable⟩ :=
    @encodeLoop_byte (htableEnv weakHash progress) newBuf b last P hnew hc hlast hstart hprog
  have hone : chunkGear (newBuf.drop last) (newBuf.length - last - 0) = 1 := by
    rw [hend]
    unfold chunkGear
    rw [if_pos (by unfold STRMAX; omega)]
    omega
  have hstring : (encodeString (htableEnv weakHash progress) newBuf [b] 0 t).deltaLen =
      t.deltaLen + 8 := by
    have hlookup : (htableEnv weakHash progress).lookup t.psHTable
        ((htableEnv weakHash progress).weakHash [b]) = some ⟨weakHash [b], 0, 1⟩ := by
      rw [htable]
      unfold htableEnv
      simp only [List.find?_cons, beq_self_eq_true]
    unfold encodeString
    simp only [hpos, hone, hb, hlookup]
    unfold matchString
    rw [if_pos ⟨rfl, hb⟩]
    exact emitMatch_front rfl
  obtain ⟨n, rfl⟩ : ∃ n, fuel = n + 1 := ⟨fuel - 1, by omega⟩
  have hgo : t.inputPos < newBuf.length - 0 := by
    rw [hpos, hend]
    exact Nat.lt_succ_self last
  obtain ⟨hpass, hadv⟩ := @encodePass_inv (htableEnv weakHash progress) newBuf [b] 0 hnew
    (show 1 ≤ MAX_CHUNK_SIZE by decide) t hinv hgo
  have hdone : encodeLoop (htableEnv weakHash progress) newBuf [b] 0 (n + 1) t =
      encodePass (htableEnv weakHash progress) newBuf [b] 0 t := by
    conv_lhs => unfold encodeLoop
    rw [if_pos hgo]
    exact encodeLoop_done (by omega)
  rw [hrun, hdone, encodePass_string hflag hinv.probe] at hle
  have hlen := (hun.pending (by omega)).2
  simp only at hle
  omega

end LastByte

section Families

/-- Zero bytes never hold the byte 1. -/
theorem chain_replicate (n : Nat) : Chain (List.replicate n 0) 1 n (fun _ => True) := by
  have hlen : (List.replicate n (0 : UInt8)).length = n := List.length_replicate
  refine ⟨Nat.le_of_eq hlen.symm, fun _ _ _ => trivial, fun pos _ hlt => ?_, fun pos _ hlt h => ?_⟩
  · have hle := chunkGear_le ((List.replicate n (0 : UInt8)).drop pos)
      ((List.replicate n (0 : UInt8)).length - pos - 0)
    unfold nextLength
    omega
  · have hmem : (1 : UInt8) ∈ slice (List.replicate n 0) pos (nextLength (List.replicate n 0) pos) := by
      rw [h]
      exact List.mem_singleton_self 1
    have hzero := List.mem_of_mem_drop (List.mem_of_mem_take hmem)
    rw [List.mem_replicate] at hzero
    exact absurd hzero.2 (by decide)

/-- `n` zero bytes, but for a 1 that cuts the first string and a 2 at the end that is a string of
its own. -/
def lateMatch (n : Nat) : Bytes :=
  (List.range n).map (fun i => if i + 16316 = n then 1 else if i + 1 = n then 2 else 0)

theorem lateMatch_length (n : Nat) : (lateMatch n).length = n := by
  unfold lateMatch
  rw [List.length_map, List.length_range]

theorem lateMatch_getD {n i : Nat} (h : i < n) :
    (lateMatch n).getD i 0 = if i + 16316 = n then 1 else if i + 1 = n then 2 else 0 := by
  unfold lateMatch
  rw [List.getD_eq_getElem?_getD, List.getElem?_map, List.getElem?_range h]
  rfl

theorem lateMatch_drop {n pos j : Nat} :
    ((lateMatch n).drop pos).getD j 0 = (lateMatch n).getD (pos + j) 0 := by
  rw [List.getD_eq_getElem?_getD, List.getElem?_drop, ← List.getD_eq_getElem?_getD]

/-- The strings start at 0 and then every 65 bytes after the 1. -/
def LateStart (n pos : Nat) : Prop := pos = 0 ∨ ∃ i, pos + 16316 = n + 65 * i

theorem lateMatch_next {n pos : Nat} (hn : 16374 ≤ n) (hn' : n ≤ 16380) (h : LateStart n pos)
    (hlt : pos < n - 1) :
    (pos = 0 ∧ nextLength (lateMatch n) pos = n - 16316) ∨
      ((∃ i, pos + 16316 = n + 65 * i) ∧ pos + 66 ≤ n ∧ nextLength (lateMatch n) pos = 65) := by
  unfold nextLength
  rw [lateMatch_length]
  rcases h with rfl | ⟨i, hi⟩
  · left
    refine ⟨rfl, chunkGear_one (by omega) (by omega) (by omega) ?_ ?_⟩
    · intro j hj hjt
      rw [lateMatch_drop, lateMatch_getD (by omega), if_neg (by omega), if_neg (by omega)]
    · rw [lateMatch_drop, lateMatch_getD (by omega), if_pos (by omega)]
  · right
    have hroom : pos + 66 ≤ n := by omega
    refine ⟨⟨i, hi⟩, hroom, chunkGear_zeros (by omega) ?_⟩
    intro j hj hjt
    rw [lateMatch_drop, lateMatch_getD (by omega), if_neg (by omega), if_neg (by omega)]

theorem chain_lateMatch {n : Nat} (hn : 16374 ≤ n) (hn' : n ≤ 16380) :
    Chain (lateMatch n) 2 (n - 1) (LateStart n) := by
  have hlen := lateMatch_length n
  refine ⟨by omega, ?_, ?_, ?_⟩
  · intro pos hP hlt
    rcases lateMatch_next hn hn' hP hlt with ⟨h0, h1⟩ | ⟨⟨i, hi⟩, h0, h1⟩
    · exact Or.inr ⟨0, by omega⟩
    · exact Or.inr ⟨i + 1, by omega⟩
  · intro pos hP hlt
    rcases lateMatch_next hn hn' hP hlt with ⟨h0, h1⟩ | ⟨-, h0, h1⟩
    · omega
    · omega
  · intro pos hP hlt h
    have hlong := congrArg List.length h
    rw [slice_length, hlen, List.length_singleton] at hlong
    rcases lateMatch_next hn hn' hP hlt with ⟨h0, h1⟩ | ⟨-, h0, h1⟩
    · omega
    · omega

variable {weakHash : Bytes → UInt64} {progress : Nat → Nat → Nat → Nat → Bool}

/-- Past 16373 bytes there are a new chunk and a base whose delta is too long, whatever the hash. -/
theorem deltaExtent_exceeds (hprog : ∀ newSize baseSize, progress 0 newSize 0 baseSize = true) {n : Nat}
    (hn : 16373 < n) (hmax : n ≤ MAX_CHUNK_SIZE) :
    ∃ newBuf b, newBuf.length = n ∧
      MAX_CHUNK_SIZE < deltaExtent (htableEnv weakHash progress) newBuf [b] := by
  unfold MAX_CHUNK_SIZE at hmax ⊢
  rcases Nat.lt_or_ge 16380 n with hbig | hsmall
  · have hlen : (List.replicate n (0 : UInt8)).length = n := List.length_replicate
    have hover := @deltaExtent_unmatched (htableEnv weakHash progress) _ 1 n _
      (by unfold MAX_CHUNK_SIZE; omega) (chain_replicate n) hlen (by omega) trivial (hprog _ _)
    exact ⟨List.replicate n 0, 1, hlen, by omega⟩
  · have hlen := lateMatch_length n
    have hlast : slice (lateMatch n) (n - 1) 1 = [2] := by
      have hsucc := @slice_succ (lateMatch n) (n - 1) 0 (by omega)
      rw [Nat.add_zero, lateMatch_getD (by omega), if_neg (by omega), if_pos (by omega), slice_zero]
        at hsucc
      exact hsucc
    have hover := @deltaExtent_lastByte weakHash progress (lateMatch n) 2 (n - 1) (LateStart n)
      (by unfold MAX_CHUNK_SIZE; omega) (chain_lateMatch hn hsmall) (by omega) hlast (by omega)
      (Or.inl rfl) (hprog _ _)
    exact ⟨lateMatch n, 2, hlen, by omega⟩

/-- For each length of the new chunk: every delta fits the buffer exactly up to 16373 bytes. -/
theorem offline_delta_fits_iff (weakHash : Bytes → UInt64)
    (progress : Nat → Nat → Nat → Nat → Bool)
    (hprog : ∀ newSize baseSize, progress 0 newSize 0 baseSize = true) {n : Nat}
    (hmax : n ≤ MAX_CHUNK_SIZE) :
    (∀ newBuf baseBuf, newBuf.length = n → 1 ≤ baseBuf.length → baseBuf.length ≤ MAX_CHUNK_SIZE →
      deltaExtent (htableEnv weakHash progress) newBuf baseBuf ≤ MAX_CHUNK_SIZE) ↔ n ≤ 16373 := by
  constructor
  · intro h
    by_contra hlong
    obtain ⟨newBuf, b, hlen, hover⟩ := @deltaExtent_exceeds weakHash progress hprog n
      (Nat.lt_of_not_le hlong) hmax
    have hfits := h newBuf [b] hlen (Nat.le_refl 1) (show 1 ≤ MAX_CHUNK_SIZE by decide)
    omega
  · intro hshort newBuf baseBuf hlen _ hbase
    have hle := deltaExtent_le (htableEnv weakHash progress) (by omega : newBuf.length ≤ MAX_CHUNK_SIZE)
      hbase
    unfold MAX_CHUNK_SIZE
    omega

/-- A new chunk of 16384 zero bytes against a base of one other byte. -/
theorem offline_delta_overflows :
    MAX_CHUNK_SIZE < deltaExtent sumEnv (List.replicate MAX_CHUNK_SIZE 0) [1] := by
  have hlen : (List.replicate MAX_CHUNK_SIZE (0 : UInt8)).length = MAX_CHUNK_SIZE :=
    List.length_replicate
  have hover := @deltaExtent_unmatched sumEnv _ 1 MAX_CHUNK_SIZE _ (Nat.le_of_eq hlen)
    (chain_replicate MAX_CHUNK_SIZE) hlen (by decide) trivial rfl
  omega

/-- On both sides of the bound, under a hash of byte sums. -/
theorem offline_delta_fits_iff_bound :
    (∀ newBuf baseBuf, newBuf.length = 16373 → 1 ≤ baseBuf.length →
      baseBuf.length ≤ MAX_CHUNK_SIZE →
      deltaExtent (htableEnv sumEnv.weakHash (fun _ _ _ _ => true)) newBuf baseBuf ≤
        MAX_CHUNK_SIZE) ∧
    ¬∀ newBuf baseBuf, newBuf.length = 16374 → 1 ≤ baseBuf.length →
      baseBuf.length ≤ MAX_CHUNK_SIZE →
      deltaExtent (htableEnv sumEnv.weakHash (fun _ _ _ _ => true)) newBuf baseBuf ≤
        MAX_CHUNK_SIZE :=
  ⟨(offline_delta_fits_iff sumEnv.weakHash (fun _ _ _ _ => true) (fun _ _ => rfl) (by decide)).mpr
      (by decide),
    fun h => absurd ((offline_delta_fits_iff sumEnv.weakHash (fun _ _ _ _ => true) (fun _ _ => rfl)
      (by decide)).mp h) (by decide)⟩

end Families

end ShieldReduce.EDelta
