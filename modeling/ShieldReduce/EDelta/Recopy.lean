import ShieldReduce.EDelta.Overlong

/-!
# Deltas that copy one stretch of the base again and again

`ed3_decode` writes into a buffer of twice the bytes it is given. A copy takes eight bytes of the
delta however long it is, so a new chunk that repeats the base outgrows that buffer.
-/

namespace ShieldReduce.EDelta
open Lib

section Hash

def rotl64 (x : UInt64) (r : UInt64) : UInt64 := (x <<< r) ||| (x >>> (64 - r))

/-- The `n` bytes at the front of `p` as a little-endian word. -/
def readWord (p : Bytes) (n : Nat) : UInt64 :=
  (p.take n).foldr (fun b w => w * 256 + b.toUInt64) 0

def P1 : UInt64 := 0x9e3779b185ebca87
def P2 : UInt64 := 0xc2b2ae3d27d4eb4f
def P3 : UInt64 := 0x165667b19e3779f9
def P4 : UInt64 := 0x85ebca77c2b2ae63
def P5 : UInt64 := 0x27d4eb2f165667c5
def seed : UInt64 := 0x7fcaf1

/-- `XXHS`: one lane takes in eight bytes. -/
def lane (v x : UInt64) : UInt64 := rotl64 (v + x * P2) 31 * P1

/-- `do XXHS(v0),XXHS(v1),XXHS(v2),XXHS(v3); while (len >= 32)`, and what is left of `p`. -/
def stripes : Nat → Bytes → UInt64 × UInt64 × UInt64 × UInt64 →
    (UInt64 × UInt64 × UInt64 × UInt64) × Bytes
  | 0, p, v => (v, p)
  | fuel + 1, p, (v0, v1, v2, v3) =>
    let v := (lane v0 (readWord p 8), lane v1 (readWord (p.drop 8) 8),
      lane v2 (readWord (p.drop 16) 8), lane v3 (readWord (p.drop 24) 8))
    let p := p.drop 32
    if 32 ≤ p.length then stripes fuel p v else (v, p)

/-- `XXHF`: a lane is folded into the hash. -/
def foldLane (h v : UInt64) : UInt64 := (h ^^^ (rotl64 (v * P2) 31 * P1)) * P1 + P4

/-- The loop at `l8`. -/
def words : Nat → Bytes → UInt64 → UInt64 × Bytes
  | 0, p, h => (h, p)
  | fuel + 1, p, h =>
    if 8 ≤ p.length then
      words fuel (p.drop 8) (rotl64 (h ^^^ (rotl64 (readWord p 8 * P2) 31 * P1)) 27 * P1 + P4)
    else (h, p)

def weakHash (buf : Bytes) : UInt64 :=
  let n : UInt64 := UInt64.ofNat buf.length
  let h := seed + P5 + n
  let (h, p) :=
    if buf.length < 32 then (h, buf)
    else
      let ((v0, v1, v2, v3), p) := stripes buf.length buf
        (seed + P1 + P2, seed + P2, seed + 0, seed - P1)
      let h := rotl64 v0 1 + rotl64 v1 7 + rotl64 v2 12 + rotl64 v3 18
      (foldLane (foldLane (foldLane (foldLane h v0) v1) v2) v3 + n, p)
  let (h, p) := words p.length p h
  let (h, p) :=
    if 4 ≤ p.length then (rotl64 (h ^^^ (readWord p 4 * P1)) 23 * P2 + P3, p.drop 4) else (h, p)
  let h := p.foldl (fun h b => rotl64 (h ^^^ (b.toUInt64 * P5)) 11 * P1) h
  let h := (h ^^^ (h >>> 33)) * P2
  let h := (h ^^^ (h >>> 29)) * P3
  h ^^^ (h >>> 32)

end Hash

/-- The size of the buffer that `ed3_decode` writes the plaintext to. -/
def max_buffer_size (in_size ref_size : Nat) : Nat := (in_size + ref_size) * 2

section Scripts

/-- What a script writes, counted by its copies: each writes at most the base and takes eight
bytes. -/
theorem script_copies {baseBuf : Bytes} {ops : List Op} (h : ∀ op ∈ ops, op.Inside baseBuf) :
    ∃ copies, 8 * copies ≤ (scriptBytes ops).length ∧
      (runScript baseBuf ops).length + 8 * copies ≤
        baseBuf.length * copies + (scriptBytes ops).length := by
  rw [runScript_length]
  induction ops with
  | nil => exact ⟨0, Nat.zero_le _, Nat.zero_le _⟩
  | cons op ops ih =>
    obtain ⟨copies, hbytes, hsize⟩ := ih (fun o ho => h o (List.mem_cons_of_mem op ho))
    have hin := h op List.mem_cons_self
    rw [scriptBytes_cons, List.length_append, List.map_cons, List.sum_cons]
    cases op with
    | copy off len =>
      have hop : (opBytes (.copy off len)).length = 8 := rfl
      have hle : off + len ≤ baseBuf.length := hin
      rw [hop]
      refine ⟨copies + 1, by omega, ?_⟩
      rw [Nat.mul_succ baseBuf.length]
      change len + _ + _ ≤ _
      omega
    | insert xs =>
      have hop : (opBytes (.insert xs)).length = 4 + xs.length := by simp [opBytes]
      rw [hop]
      refine ⟨copies, by omega, ?_⟩
      change xs.length + _ + _ ≤ _
      omega

/-- A base so short that copies do not pay twice, or so long that two copies cover the chunk. -/
theorem decode_fits {env : EDeltaEnv} {newBuf baseBuf : Bytes}
    (hnew : newBuf.length ≤ MAX_CHUNK_SIZE) (hbase : baseBuf.length ≤ MAX_CHUNK_SIZE)
    (hlen : baseBuf.length ≤ 16 ∨ 8168 ≤ baseBuf.length) :
    newBuf.length ≤ max_buffer_size (EDeltaEncode env newBuf baseBuf).length baseBuf.length := by
  obtain ⟨ops, -, hbytes, hrun, hinside⟩ := EDeltaEncode_script env hnew hbase
  obtain ⟨copies, hcopies, hsize⟩ := script_copies hinside
  rw [hrun, ← hbytes] at hsize
  rw [← hbytes] at hcopies
  unfold max_buffer_size
  unfold MAX_CHUNK_SIZE at hnew
  rcases hlen with hshort | hlong
  · have hmul := Nat.mul_le_mul_right copies hshort
    omega
  · rcases Nat.lt_or_ge copies 3 with hfew | hmany
    · have hmul := Nat.mul_le_mul_left baseBuf.length (Nat.le_of_lt_succ hfew)
      omega
    · omega

end Scripts

section Copies
variable {env : EDeltaEnv} {newBuf baseBuf : Bytes}

/-- A match goes on as long as the two chunks agree. -/
theorem forwardSize_eq {s : EncState} {dup : DeltaRecord} {length : Nat}
    (hb : dup.nOffset + length ≤ baseBuf.length) (hn : s.cursorInput ≤ newBuf.length) :
    forwardSize newBuf baseBuf 0 s dup length =
      commonPrefix (baseBuf.drop (dup.nOffset + length)) (newBuf.drop s.cursorInput) := by
  obtain ⟨hjb, hjn, hsame⟩ := @forwardSize_spec newBuf baseBuf 0 s dup length hb hn
  have hstop : forwardSize newBuf baseBuf 0 s dup length =
        min (baseBuf.length - 0 - (dup.nOffset + length)) (newBuf.length - 0 - s.cursorInput) ∨
      (baseBuf.getD (dup.nOffset + length + forwardSize newBuf baseBuf 0 s dup length) 0 ==
        newBuf.getD (s.cursorInput + forwardSize newBuf baseBuf 0 s dup length) 0) = false :=
    scan_stop (scan_le (Nat.zero_le _)) (Nat.le_add_left _ _)
  apply eq_commonPrefix
  · rw [List.length_drop]
    omega
  · rw [List.length_drop]
    omega
  · exact hsame
  · intro hb' hn'
    rw [List.length_drop] at hb' hn'
    rw [List.getElem?_drop, List.getElem?_drop]
    rcases hstop with hmin | hne
    · omega
    · exact getElem?_ne_of_getD hne

/-- A match that does not reach back is one copy of the string and of what follows it. -/
theorem emitMatch_copy {s : EncState} {dup : DeltaRecord} {length : Nat}
    (hb : dup.nOffset + length ≤ baseBuf.length) (hn : s.cursorInput ≤ newBuf.length)
    (hback : dup.nOffset = 0 ∨ s.flag ≠ .unit2) :
    (emitMatch newBuf baseBuf 0 s dup length).deltaLen = s.deltaLen + 8 ∧
      (emitMatch newBuf baseBuf 0 s dup length).flag = .unit1 ∧
      (emitMatch newBuf baseBuf 0 s dup length).cursorInput = s.cursorInput +
        commonPrefix (baseBuf.drop (dup.nOffset + length)) (newBuf.drop s.cursorInput) ∧
      dup.nOffset + length + commonPrefix (baseBuf.drop (dup.nOffset + length))
        (newBuf.drop s.cursorInput) ≤ (emitMatch newBuf baseBuf 0 s dup length).cursorBase := by
  have hpatch : (patchLiteral s).deltaLen = s.deltaLen ∧ (patchLiteral s).flag = s.flag ∧
      (patchLiteral s).cursorInput = s.cursorInput := by
    unfold patchLiteral
    split
    · exact ⟨rfl, rfl, rfl⟩
    · exact ⟨rfl, rfl, rfl⟩
  obtain ⟨hlen, hflag, hcur⟩ := hpatch
  rw [← hcur] at hn
  have hforward := @forwardSize_eq newBuf baseBuf (patchLiteral s) dup length hb hn
  rw [hcur] at hforward
  have hzero : ∀ q : EncState, q.flag = s.flag → backwardSize newBuf baseBuf q dup = 0 := by
    intro q hq
    unfold backwardSize
    rw [hq]
    split
    case h_1 h2 =>
      rcases hback with h0 | hne
      · rw [h0, Nat.zero_min]
        rfl
      · exact absurd h2 hne
    case h_2 => rfl
  unfold emitMatch
  simp only [hforward]
  split
  case isTrue hk => exact ((Nat.ne_of_gt hk) (hzero _ hflag)).elim
  case isFalse =>
    unfold writeUnit1
    simp only [hlen, hcur]
    exact ⟨trivial, trivial, trivial, Nat.le_max_right _ _⟩

/-- The string that is copied: thirteen ones, the next one being a cut. -/
def ones : Bytes := List.replicate 13 1

theorem gearCut_one : gearCut (gearStep 0 1) = true := by
  decide +kernel

theorem chunkGear_ones {p : Bytes} {n : Nat} (hn : 65 ≤ n) (hone : p.getD 13 0 = 1) :
    chunkGear p n = 13 := by
  obtain ⟨fuel, rfl⟩ : ∃ fuel, n = fuel + 1 := ⟨n - 1, by omega⟩
  unfold chunkGear
  rw [if_neg (by unfold STRMAX; omega)]
  change chunkGearLoop p (fuel + 1) (fuel + 1) 13 0 = 13
  unfold chunkGearLoop
  rw [if_pos (by omega : 13 ≤ fuel + 1), hone]
  simp only
  rw [if_pos (by decide : 13 ≤ STRMAX), if_pos gearCut_one]

theorem probeInput_miss {table : List DeltaRecord} {left j cursor tail : Nat}
    (h : env.lookup table (env.weakHash (slice newBuf cursor
      (chunkGear (newBuf.drop cursor) (newBuf.length - cursor - tail)))) = none) :
    probeInput env newBuf tail table (left + 1) j cursor =
      (⟨env.weakHash (slice newBuf cursor
          (chunkGear (newBuf.drop cursor) (newBuf.length - cursor - tail))), 0,
        chunkGear (newBuf.drop cursor) (newBuf.length - cursor - tail)⟩ ::
          (probeInput env newBuf tail table left (j + 1)
            (cursor + chunkGear (newBuf.drop cursor) (newBuf.length - cursor - tail))).1,
        (probeInput env newBuf tail table left (j + 1)
          (cursor + chunkGear (newBuf.drop cursor) (newBuf.length - cursor - tail))).2) := by
  conv_lhs => unfold probeInput
  simp only [h]

theorem probeInput_hit {table : List DeltaRecord} {left j cursor tail : Nat} {dup : DeltaRecord}
    (h : env.lookup table (env.weakHash (slice newBuf cursor
      (chunkGear (newBuf.drop cursor) (newBuf.length - cursor - tail)))) = some dup) :
    probeInput env newBuf tail table (left + 1) j cursor =
      ([⟨env.weakHash (slice newBuf cursor
          (chunkGear (newBuf.drop cursor) (newBuf.length - cursor - tail))), 0,
        chunkGear (newBuf.drop cursor) (newBuf.length - cursor - tail)⟩], some (j, dup)) := by
  unfold probeInput
  simp only [h]

/-- The first round ends with the hit. -/
theorem expandBase_hit {left chunkNumber tail : Nat} {s : EncState} {links : List DeltaRecord}
    {hit : Nat × DeltaRecord}
    (h : probeInput env newBuf tail (chunkBase env baseBuf tail s chunkNumber).psHTable INPUT_TRY 0
      s.cursorInput = (links, some hit)) :
    expandBase env newBuf baseBuf tail (left + 1) 0 chunkNumber s =
      { chunkBase env baseBuf tail s chunkNumber with
        inputLink := links
        probeMatch := some hit } := by
  have hcur : (chunkBase env baseBuf tail s chunkNumber).cursorInput = s.cursorInput := rfl
  unfold expandBase
  simp only [if_true, hcur, h, Option.isSome_some, Bool.true_or]

/-- The state whose table the next string is looked up in. -/
def chunked (env : EDeltaEnv) (newBuf baseBuf : Bytes) (s : EncState) : EncState :=
  if asks env newBuf baseBuf s then chunkBase env baseBuf 0 s BASE_BEGIN else s

theorem matchString_copy {s : EncState} {dup : DeltaRecord} (hlen : dup.nLength = 13)
    (heq : slice newBuf s.inputPos 13 = slice baseBuf dup.nOffset 13) :
    matchString newBuf baseBuf 0 s dup 13 = emitMatch newBuf baseBuf 0 s dup 13 := by
  unfold matchString
  rw [if_pos ⟨hlen.symm, heq⟩]

/-- A pass at a known string is one match, whether it chunks the base first or not. -/
theorem encodePass_match {s : EncState} {dup : DeltaRecord} (hinv : LoopInv newBuf baseBuf 0 s)
    (hcut : nextLength newBuf s.inputPos = 13) (hnew : slice newBuf s.inputPos 13 = ones)
    (hlen : dup.nLength = 13) (hbase : slice baseBuf dup.nOffset 13 = ones)
    (hknown : env.lookup (chunked env newBuf baseBuf s).psHTable (env.weakHash ones) = some dup) :
    ∃ q, encodePass env newBuf baseBuf 0 s =
        { emitMatch newBuf baseBuf 0 q dup 13 with
          inputPos := (emitMatch newBuf baseBuf 0 q dup 13).cursorInput } ∧
      q.deltaLen = s.deltaLen ∧ q.flag = s.flag ∧ q.cursorInput = 13 + s.inputPos ∧
      CursorStep (chunked env newBuf baseBuf s) q := by
  have hgear : chunkGear (newBuf.drop s.inputPos) (newBuf.length - s.inputPos - 0) = 13 := hcut
  have heq : slice newBuf s.inputPos 13 = slice baseBuf dup.nOffset 13 := hnew.trans hbase.symm
  unfold chunked at hknown ⊢
  by_cases hasks : asks env newBuf baseBuf s = true
  · rw [if_pos hasks] at hknown ⊢
    have hprobe : encodeProbe env newBuf baseBuf 0 s =
        { chunkBase env baseBuf 0 s BASE_BEGIN with
          flagHandleProbe := true
          inputLink := [⟨env.weakHash ones, 0, 13⟩]
          probeMatch := some (0, dup) } := by
      have hhit := @probeInput_hit env newBuf (chunkBase env baseBuf 0 s BASE_BEGIN).psHTable 4 0
        s.inputPos 0 dup (by rw [hgear, hnew]; exact hknown)
      rw [hgear, hnew, ← hinv.cursor] at hhit
      unfold asks at hasks
      unfold encodeProbe
      rw [if_pos hasks]
      exact @expandBase_hit env newBuf baseBuf 2 BASE_BEGIN 0
        { s with flagHandleProbe := true, probeMatch := none } _ _ hhit
    refine ⟨{ chunkBase env baseBuf 0 s BASE_BEGIN with
      flagHandleProbe := false
      inputLink := [⟨env.weakHash ones, 0, 13⟩]
      probeMatch := some (0, dup)
      cursorInput := 13 + s.inputPos }, ?_, rfl, rfl, rfl, ⟨rfl, rfl, Nat.le_refl _⟩⟩
    unfold encodePass
    rw [hprobe]
    have hmatch := @matchString_copy newBuf baseBuf
      { chunkBase env baseBuf 0 s BASE_BEGIN with
        flagHandleProbe := false
        inputLink := [⟨env.weakHash ones, 0, 13⟩]
        probeMatch := some (0, dup)
        cursorInput := 13 + s.inputPos } dup hlen heq
    simp only [if_true, handleProbe]
    rw [← hmatch]
    rfl
  · rw [if_neg hasks] at hknown ⊢
    refine ⟨{ s with flagHandleProbe := false, cursorInput := 13 + s.inputPos }, ?_, rfl, rfl, rfl,
      ⟨rfl, rfl, Nat.le_refl _⟩⟩
    unfold asks at hasks
    unfold encodePass encodeProbe
    rw [if_neg hasks]
    have hmatch := @matchString_copy newBuf baseBuf
      { s with flagHandleProbe := false, cursorInput := 13 + s.inputPos } dup hlen heq
    simp only [hinv.probe, Bool.false_eq_true, if_false, encodeString, hgear, hnew, hknown]
    rw [← hmatch]

/-- `opens pos`: a string of thirteen ones and the one that cuts it. -/
def Opens (newBuf : Bytes) (pos : Nat) : Prop := ∀ j < 14, newBuf.getD (pos + j) 0 = 1

theorem slice_ones {p : Bytes} {pos : Nat} (hle : pos + 13 ≤ p.length)
    (hone : ∀ j < 13, p.getD (pos + j) 0 = 1) : slice p pos 13 = ones := by
  have hall : ∀ n, n ≤ 13 → slice p pos n = List.replicate n 1 := by
    intro n hn
    induction n with
    | zero => exact slice_zero p pos
    | succ n ih =>
      rw [slice_succ (by omega), ih (Nat.le_of_succ_le hn), hone n hn, List.replicate_succ']
  exact hall 13 (Nat.le_refl 13)

theorem opens_length {pos : Nat} (hpos : pos + 65 ≤ newBuf.length) (h : Opens newBuf pos) :
    nextLength newBuf pos = 13 := by
  unfold nextLength
  apply chunkGear_ones
  · omega
  · rw [List.getD_eq_getElem?_getD, List.getElem?_drop, ← List.getD_eq_getElem?_getD]
    exact h 13 (by decide)

theorem slice_ones_le {off : Nat} (h : slice baseBuf off 13 = ones) : off + 13 ≤ baseBuf.length := by
  have hlen := congrArg List.length h
  rw [slice_length] at hlen
  have hones : ones.length = 13 := rfl
  omega

/-- A pass at a known string is a copy that goes on as long as the chunks agree. -/
theorem encodePass_copy {s : EncState} {dup : DeltaRecord} (hinv : LoopInv newBuf baseBuf 0 s)
    (hpos : s.inputPos + 65 ≤ newBuf.length) (hopens : Opens newBuf s.inputPos)
    (hlen : dup.nLength = 13) (hbase : slice baseBuf dup.nOffset 13 = ones)
    (hfront : dup.nOffset = 0 ∨ s.flag ≠ .unit2)
    (hknown : env.lookup (chunked env newBuf baseBuf s).psHTable (env.weakHash ones) = some dup) :
    (encodePass env newBuf baseBuf 0 s).deltaLen = s.deltaLen + 8 ∧
      (encodePass env newBuf baseBuf 0 s).flag = .unit1 ∧
      (encodePass env newBuf baseBuf 0 s).inputPos = s.inputPos + 13 +
        commonPrefix (baseBuf.drop (dup.nOffset + 13)) (newBuf.drop (s.inputPos + 13)) ∧
      dup.nOffset + 13 + commonPrefix (baseBuf.drop (dup.nOffset + 13))
        (newBuf.drop (s.inputPos + 13)) ≤ (encodePass env newBuf baseBuf 0 s).cursorBase ∧
      CursorStep (chunked env newBuf baseBuf s) (encodePass env newBuf baseBuf 0 s) := by
  have hle := slice_ones_le hbase
  have hnew : slice newBuf s.inputPos 13 = ones :=
    slice_ones (by omega) (fun j hj => hopens j (Nat.lt_succ_of_lt hj))
  obtain ⟨q, hpass, hdelta, hflag, hcur, hstep⟩ := @encodePass_match env newBuf baseBuf s dup hinv
    (opens_length hpos hopens) hnew hlen hbase hknown
  rw [← hflag] at hfront
  obtain ⟨hdelta', hflag', hcur', hbase'⟩ := @emitMatch_copy newBuf baseBuf q dup 13 hle (by omega)
    hfront
  have hmatch := @emitMatch_cursor newBuf baseBuf 0 q dup 13
  rw [hcur, Nat.add_comm 13 s.inputPos] at hcur' hbase'
  rw [hpass]
  refine ⟨?_, hflag', hcur', hbase', (hstep.trans hmatch).setInputPos _⟩
  rw [← hdelta]
  exact hdelta'

theorem rollingGearV3_short {p : Bytes} {n : Nat} (hn : n ≤ 13) (number : Nat) :
    rollingGearV3 p n number = 0 :: List.replicate number n := by
  unfold rollingGearV3
  apply congrArg (0 :: ·)
  cases n with
  | zero => rfl
  | succ n =>
    unfold rollingGearLoop
    cases number with
    | zero => rfl
    | succ number => exact if_neg (Nat.not_lt.mpr hn)

/-- The base from `cursorBase` on is at most its last byte: a call inserts that byte or nothing. -/
theorem chunkBase_end {s : EncState} (hend : baseBuf.length ≤ s.cursorBase + 1) (number : Nat) :
    (chunkBase env baseBuf 0 s (number + 1)).psHTable = s.psHTable ∨
      (chunkBase env baseBuf 0 s (number + 1)).psHTable =
        ⟨env.weakHash (baseBuf.drop s.cursorBase), s.cursorBase, 1⟩ :: s.psHTable := by
  have hcuts := @rollingGearV3_short (baseBuf.drop s.cursorBase)
    (baseBuf.length - 0 - s.cursorBase) (by omega) (number + 1)
  have hrest : ∀ n : Nat, (List.takeWhile (fun r : DeltaRecord => r.nLength != 0)
      (((n :: List.replicate number n).zip (List.replicate number n)).map
        (fun c => ⟨env.weakHash (slice (baseBuf.drop s.cursorBase) c.1 (c.2 - c.1)), c.1,
          c.2 - c.1⟩))) = [] := by
    intro n
    cases number with
    | zero => rfl
    | succ number =>
      simp only [List.replicate_succ, List.zip_cons_cons, List.map_cons, Nat.sub_self,
        List.takeWhile_cons, bne_self_eq_false, Bool.false_eq_true, if_false]
  unfold chunkBase chunkingV3
  rw [hcuts]
  simp only [List.tail_cons]
  rcases Nat.lt_or_ge s.cursorBase baseBuf.length with hlt | hge
  · right
    have hone : baseBuf.length - 0 - s.cursorBase = 1 := by omega
    have hslice : slice (baseBuf.drop s.cursorBase) 0 1 = baseBuf.drop s.cursorBase := by
      unfold slice
      rw [List.drop_zero]
      exact List.take_of_length_le (by rw [List.length_drop]; omega)
    rw [hone, List.replicate_succ]
    simp only [List.zip_cons_cons, List.map_cons, List.takeWhile_cons, hrest 1, Nat.sub_zero, hslice]
    simp only [List.map_cons, List.map_nil, List.reverse_singleton, Nat.zero_add, bne_iff_ne, ne_eq,
      one_ne_zero, not_false_eq_true, if_true, List.singleton_append]
  · left
    have hzero : baseBuf.length - 0 - s.cursorBase = 0 := by omega
    rw [hzero, List.replicate_succ]
    simp only [List.zip_cons_cons, List.map_cons, List.takeWhile_cons, Nat.sub_self,
      bne_self_eq_false, Bool.false_eq_true, if_false, List.map_nil, List.reverse_nil,
      List.nil_append]

end Copies

section Repeats
variable {hash : Bytes → UInt64} {progress : Nat → Nat → Nat → Nat → Bool} {newBuf baseBuf : Bytes} {off L : Nat}
  {P : Nat → Prop}

/-- Positions of the new chunk from each of which `L` bytes are copied from `off` of the base, or
all that is left. -/
structure Stretch (newBuf baseBuf : Bytes) (off L : Nat) (P : Nat → Prop) : Prop where
  start : slice baseBuf off 13 = ones
  long : 13 ≤ L
  opens : ∀ pos, P pos → pos + 65 ≤ newBuf.length → Opens newBuf pos
  copies : ∀ pos, P pos → pos + 65 ≤ newBuf.length →
    13 + commonPrefix (baseBuf.drop (off + 13)) (newBuf.drop (pos + 13)) =
      min L (newBuf.length - pos)
  next : ∀ pos, P pos → P (pos + L)

/-- The base is chunked but for its last byte, and the table knows the string at `off`. -/
structure Known (hash : Bytes → UInt64) (baseBuf : Bytes) (off : Nat) (s : EncState) : Prop where
  ended : baseBuf.length ≤ s.cursorBase + 1
  found : ∃ dup, s.psHTable.find? (fun r => r.nHash == hash ones) = some dup ∧
    dup.nOffset = off ∧ dup.nLength = 13

/-- The bytes from `cursorBase` on are not taken for the string of ones. -/
def EndUnlike (hash : Bytes → UInt64) (baseBuf : Bytes) : Prop :=
  ∀ c, baseBuf.length ≤ c + 1 → hash (baseBuf.drop c) ≠ hash ones

theorem chunked_known {s : EncState} (hunlike : EndUnlike hash baseBuf) (h : Known hash baseBuf off s) :
    Known hash baseBuf off (chunked (htableEnv hash progress) newBuf baseBuf s) := by
  unfold chunked
  split
  case isTrue =>
    obtain ⟨dup, hdup, hoff, hlen⟩ := h.found
    refine ⟨Nat.le_trans h.ended (Nat.succ_le_succ (Nat.le_add_right _ _)), dup, ?_, hoff, hlen⟩
    rcases @chunkBase_end (htableEnv hash progress) baseBuf s h.ended 4 with hsame | hcons
    · rw [show BASE_BEGIN = 4 + 1 from rfl, hsame]
      exact hdup
    · rw [show BASE_BEGIN = 4 + 1 from rfl, hcons, List.find?_cons]
      have hne := hunlike s.cursorBase h.ended
      have hfalse : (hash (baseBuf.drop s.cursorBase) == hash ones) = false :=
        beq_eq_false_iff_ne.mpr hne
      simp only [htableEnv, hfalse]
      exact hdup
  case isFalse => exact h

/-- One pass copies the stretch once more. -/
theorem encodePass_recopy {s : EncState} (hst : Stretch newBuf baseBuf off L P)
    (hunlike : EndUnlike hash baseBuf) (hinv : LoopInv newBuf baseBuf 0 s) (hknown : Known hash baseBuf off s)
    (hflag : s.flag = .unit1) (hP : P s.inputPos) (hpos : s.inputPos + 65 ≤ newBuf.length) :
    (encodePass (htableEnv hash progress) newBuf baseBuf 0 s).deltaLen = s.deltaLen + 8 ∧
      (encodePass (htableEnv hash progress) newBuf baseBuf 0 s).flag = .unit1 ∧
      (encodePass (htableEnv hash progress) newBuf baseBuf 0 s).inputPos =
        min newBuf.length (s.inputPos + L) ∧
      Known hash baseBuf off (encodePass (htableEnv hash progress) newBuf baseBuf 0 s) := by
  have hchunked := @chunked_known hash progress newBuf baseBuf off s hunlike hknown
  obtain ⟨dup, hdup, hoff, hlen⟩ := hchunked.found
  have hcopies := hst.copies s.inputPos hP hpos
  rw [← hoff] at hcopies
  have hstart := hst.start
  rw [← hoff] at hstart
  obtain ⟨hdelta, hflag', hcur, -, hstep⟩ := @encodePass_copy (htableEnv hash progress) newBuf
    baseBuf s dup hinv hpos (hst.opens s.inputPos hP hpos) hlen hstart
    (Or.inr (by rw [hflag]; decide)) hdup
  refine ⟨hdelta, hflag', ?_, ?_⟩
  · rw [hcur]
    omega
  · refine ⟨Nat.le_trans hchunked.ended (Nat.succ_le_succ hstep.cursor), dup, ?_, hoff, hlen⟩
    rw [hstep.table]
    exact hdup

/-- After `count` passes from `p` on the new chunk is copied up to less than a string's length. -/
structure Recopied (newBuf baseBuf : Bytes) (L p d count : Nat) (t : EncState) : Prop where
  inv : LoopInv newBuf baseBuf 0 t
  filled : TableFilled t
  sized : Sized 0 newBuf.length t t.inputPos
  flag : t.flag = .unit1
  short : newBuf.length < t.inputPos + 65
  size : t.deltaLen = d + 8 * count
  pos : t.inputPos = min newBuf.length (p + L * count)
  room : ∀ c < count, p + L * c + 65 ≤ newBuf.length

theorem encodeLoop_recopy (hnew : newBuf.length ≤ MAX_CHUNK_SIZE)
    (hbase : baseBuf.length ≤ MAX_CHUNK_SIZE) (hst : Stretch newBuf baseBuf off L P)
    (hunlike : EndUnlike hash baseBuf) {fuel : Nat} {s : EncState} (hinv : LoopInv newBuf baseBuf 0 s)
    (hknown : Known hash baseBuf off s) (hflag : s.flag = .unit1) (hP : P s.inputPos)
    (hfilled : TableFilled s) (hsized : Sized 0 newBuf.length s s.inputPos)
    (hfuel : newBuf.length ≤ s.inputPos + fuel) :
    ∃ fuel' t count, encodeLoop (htableEnv hash progress) newBuf baseBuf 0 fuel s =
        encodeLoop (htableEnv hash progress) newBuf baseBuf 0 fuel' t ∧
      newBuf.length ≤ t.inputPos + fuel' ∧ Recopied newBuf baseBuf L s.inputPos s.deltaLen count t := by
  have hposle := hinv.inv.pos_le
  have hnone : newBuf.length < s.inputPos + 65 →
      Recopied newBuf baseBuf L s.inputPos s.deltaLen 0 s := by
    intro hshort
    exact ⟨hinv, hfilled, hsized, hflag, hshort, rfl, by omega, fun c hc => absurd hc (Nat.not_lt_zero c)⟩
  induction fuel generalizing s with
  | zero => exact ⟨0, s, 0, rfl, hfuel, hnone (by omega)⟩
  | succ fuel ih =>
    rcases Nat.lt_or_ge newBuf.length (s.inputPos + 65) with hshort | hroom
    · exact ⟨fuel + 1, s, 0, rfl, hfuel, hnone hshort⟩
    · have hlt : s.inputPos < newBuf.length - 0 := by omega
      obtain ⟨hdelta, hflag', hpos, hknown'⟩ := @encodePass_recopy hash progress newBuf baseBuf off L P s hst
        hunlike hinv hknown hflag hP hroom
      obtain ⟨hinv', -⟩ := @encodePass_inv (htableEnv hash progress) newBuf baseBuf 0 hnew hbase s
        hinv hlt
      have hroomy : Roomy 0 s s.inputPos := by
        rcases hsized with hr | hend
        · exact hr
        · exact absurd hend.1 (Nat.ne_of_lt hlt)
      obtain ⟨hsized', hfilled'⟩ := @encodePass_sized (htableEnv hash progress) newBuf baseBuf 0 0
        hnew hbase s hinv hroomy hfilled
      have hrun : encodeLoop (htableEnv hash progress) newBuf baseBuf 0 (fuel + 1) s =
          encodeLoop (htableEnv hash progress) newBuf baseBuf 0 fuel
            (encodePass (htableEnv hash progress) newBuf baseBuf 0 s) := by
        conv_lhs => unfold encodeLoop
        rw [if_pos hlt]
      rw [hrun]
      generalize encodePass (htableEnv hash progress) newBuf baseBuf 0 s = s' at *
      have hlong := hst.long
      rcases Nat.lt_or_ge newBuf.length (s.inputPos + L) with hend | hnext
      · refine ⟨fuel, s', 1, rfl, by omega, hinv', hfilled', hsized', hflag', by omega, by omega, by omega, ?_⟩
        intro c hc
        rw [Nat.lt_one_iff.mp hc]
        exact hroom
      · have hpos' : s'.inputPos = s.inputPos + L := by omega
        obtain ⟨fuel', t, count, heq, hfuel', hrec⟩ := @ih s' hinv' hknown' hflag'
          (by rw [hpos']; exact hst.next _ hP) hfilled' hsized' (by omega) hinv'.inv.pos_le
          (fun hshort => ⟨hinv', hfilled', hsized', hflag', hshort, rfl, by omega,
            fun c hc => absurd hc (Nat.not_lt_zero c)⟩)
        refine ⟨fuel', t, count + 1, heq, hfuel', hrec.inv, hrec.filled, hrec.sized, hrec.flag, hrec.short, ?_,
          ?_, ?_⟩
        · rw [hrec.size, hdelta]
          omega
        · rw [hrec.pos, hpos', Nat.mul_succ, Nat.add_assoc, Nat.add_comm L]
        · intro c hc
          cases c with
          | zero => exact hroom
          | succ c =>
            have hc' := hrec.room c (Nat.lt_of_succ_lt_succ hc)
            rw [hpos'] at hc'
            rw [Nat.mul_succ]
            omega

/-- The delta after such a run: eight bytes a copy, and the rest of the new chunk. -/
theorem recopied_delta (hnew : newBuf.length ≤ MAX_CHUNK_SIZE)
    (hbase : baseBuf.length ≤ MAX_CHUNK_SIZE) {p d count fuel : Nat} {t : EncState}
    (h : Recopied newBuf baseBuf L p d count t) (hfuel : newBuf.length ≤ t.inputPos + fuel) :
    (encodeLoop (htableEnv hash progress) newBuf baseBuf 0 fuel t).deltaLen ≤
      if newBuf.length ≤ p + L * count then d + 8 * count
      else d + 8 * count + (newBuf.length - (p + L * count)) + 11 := by
  have hpos := h.pos
  have hsize := h.size
  split
  case isTrue hend =>
    rw [encodeLoop_done (by omega), hsize]
  case isFalse hmore =>
    have hroomy : Roomy 0 t t.inputPos := by
      rcases h.sized with hr | hend
      · exact hr
      · omega
    have hcopied := hroomy.copied (by rw [h.flag]; decide)
    have hsaved : Roomy (t.inputPos - t.deltaLen) t t.inputPos :=
      ⟨hroomy.buffer, by omega, fun _ => by omega⟩
    have hfinal := @encodeLoop_sized (htableEnv hash progress) newBuf baseBuf 0 _ hnew hbase fuel t
      h.inv (Or.inl hsaved) h.filled
    have hstop := (@encodeLoop_inv (htableEnv hash progress) newBuf baseBuf 0 hnew hbase fuel t
      h.inv hfuel).1.inv.pos_le
    rcases hfinal with hr | hlast
    · have hused := hr.used
      omega
    · omega

theorem begSize_none (h : commonPrefix baseBuf newBuf = 0) : begSize newBuf baseBuf = 0 := by
  unfold begSize
  rw [headSize_eq, h, if_neg (Nat.not_lt_zero 16)]

theorem endSize_none (h : commonPrefix baseBuf newBuf = 0)
    (h' : commonPrefix baseBuf.reverse newBuf.reverse = 0) : endSize newBuf baseBuf = 0 := by
  unfold endSize
  rw [begSize_none h, tailSize_eq, h']
  simp only [Nat.add_zero, Nat.not_lt_zero, if_false]

theorem encodeInit_zero (hbase : baseBuf.length ≤ MAX_CHUNK_SIZE) :
    LoopInv newBuf baseBuf 0 (encodeInit 0) :=
  ((@encodeInit_inv newBuf baseBuf 0 0 hbase (Nat.zero_le _) (Nat.zero_le _) rfl).2.2.2
    (Nat.zero_le _)).1

/-- A delta whose first pass ends at the stretch. -/
theorem delta_recopy (hnew : newBuf.length ≤ MAX_CHUNK_SIZE)
    (hbase : baseBuf.length ≤ MAX_CHUNK_SIZE) (hst : Stretch newBuf baseBuf off L P)
    (hunlike : EndUnlike hash baseBuf) (hhead : commonPrefix baseBuf newBuf = 0)
    (htail : commonPrefix baseBuf.reverse newBuf.reverse = 0) {s : EncState}
    (hs : encodePass (htableEnv hash progress) newBuf baseBuf 0 (encodeInit 0) = s)
    (hpos : 0 < newBuf.length) (hknown : Known hash baseBuf off s) (hflag : s.flag = .unit1)
    (hP : P s.inputPos) :
    ∃ count, (∀ c < count, s.inputPos + L * c + 65 ≤ newBuf.length) ∧
      newBuf.length < s.inputPos + L * count + 65 ∧
      (EDeltaEncode (htableEnv hash progress) newBuf baseBuf).length ≤
        if newBuf.length ≤ s.inputPos + L * count then s.deltaLen + 8 * count
        else s.deltaLen + 8 * count + (newBuf.length - (s.inputPos + L * count)) + 11 := by
  have hinit := @encodeInit_zero newBuf baseBuf hbase
  have hlt : (encodeInit 0).inputPos < newBuf.length - 0 := hpos
  have hbasepos := slice_ones_le hst.start
  obtain ⟨hinv, hadv⟩ := @encodePass_inv (htableEnv hash progress) newBuf baseBuf 0 hnew hbase _ hinit
    hlt
  obtain ⟨hsized, hfilled⟩ := @encodePass_sized (htableEnv hash progress) newBuf baseBuf 0 0 hnew
    hbase _ hinit ⟨Nat.zero_le _, Nat.zero_le _, fun _ => Nat.le_refl _⟩
    (fun r hr => absurd hr List.not_mem_nil)
  rw [hs] at hinv hadv hsized hfilled
  obtain ⟨n, hn⟩ : ∃ n, newBuf.length = n + 1 := ⟨newBuf.length - 1, by omega⟩
  have hadv' : 0 < s.inputPos := hadv
  obtain ⟨fuel, t, count, hrun, hfuel, hrec⟩ := @encodeLoop_recopy hash progress newBuf baseBuf off L P
    hnew hbase hst hunlike n s hinv hknown hflag hP hfilled hsized (by omega)
  have hdelta := @recopied_delta hash progress newBuf baseBuf L hnew hbase s.inputPos s.deltaLen count
    fuel t hrec hfuel
  have hloop : encodeLoop (htableEnv hash progress) newBuf baseBuf 0 newBuf.length (encodeInit 0) =
      encodeLoop (htableEnv hash progress) newBuf baseBuf 0 fuel t := by
    rw [hn, ← hrun, ← hs]
    conv_lhs => unfold encodeLoop
    rw [if_pos hlt]
  have hshort := hrec.short
  rw [hrec.pos] at hshort
  refine ⟨count, hrec.room, by omega, ?_⟩
  have hlen : (EDeltaEncode (htableEnv hash progress) newBuf baseBuf).length ≤
      (encodeLoop (htableEnv hash progress) newBuf baseBuf 0 fuel t).deltaLen := by
    unfold EDeltaEncode
    rw [begSize_none hhead, endSize_none hhead htail, ← hloop]
    simp only
    rw [if_neg (by omega), List.length_take]
    have hpatch : ∀ q : EncState, (writeTail (patchLiteral q) baseBuf.length 0).deltaLen =
        q.deltaLen := by
      intro q
      unfold writeTail patchLiteral
      rw [if_neg (Nat.lt_irrefl 0)]
      split
      · rfl
      · rfl
    rw [hpatch]
    exact Nat.min_le_left _ _
  exact Nat.le_trans hlen hdelta

theorem endUnlike_snoc (init : Bytes) {b : UInt8} (hb : hash [b] ≠ hash ones)
    (hnil : hash [] ≠ hash ones) : EndUnlike hash (init ++ [b]) := by
  intro c hc
  rw [List.length_append, List.length_singleton] at hc
  rcases Nat.lt_or_ge init.length c with hgt | hle
  · rw [List.drop_eq_nil_of_le (by rw [List.length_append, List.length_singleton]; omega)]
    exact hnil
  · rw [show c = init.length by omega, List.drop_left]
    exact hb

theorem asks_init (hprog : ∀ newSize baseSize, progress 0 newSize 0 baseSize = true) :
    asks (htableEnv hash progress) newBuf baseBuf (encodeInit 0) = true := by
  unfold asks htableEnv
  exact hprog _ _

end Repeats

section Framed
variable {hash : Bytes → UInt64} {progress : Nat → Nat → Nat → Nat → Bool}

/-- A base of ones between two other bytes. -/
def framed (m : Nat) : Bytes := 2 :: (List.replicate (m - 2) 1 ++ [2])

theorem framed_length {m : Nat} (hm : 2 ≤ m) : (framed m).length = m := by
  unfold framed
  rw [List.length_cons, List.length_append, List.length_replicate, List.length_singleton]
  omega

theorem framed_getD {m i : Nat} (hi : 0 < i) (him : i + 1 < m) : (framed m).getD i 0 = 1 := by
  obtain ⟨j, rfl⟩ : ∃ j, i = j + 1 := ⟨i - 1, by omega⟩
  have hj : j < (List.replicate (m - 2) (1 : UInt8)).length := by
    rw [List.length_replicate]
    omega
  unfold framed
  rw [List.getD_cons_succ, List.getD_append _ _ _ _ hj, List.getD_replicate _ (by omega)]

theorem framed_drop {m : Nat} (hm : 79 ≤ m) :
    (framed m).drop 65 = List.replicate (m - 66) 1 ++ [2] := by
  unfold framed
  rw [List.drop_succ_cons, List.drop_append_of_le_length (by rw [List.length_replicate]; omega),
    List.drop_replicate, Nat.sub_sub]

theorem rollingGearLoop_one {p : Bytes} {n fuel left i last : Nat} (hi : i < n)
    (hone : p.getD i 0 = 1) (hlast : i ≤ last + STRMAX) :
    rollingGearLoop p n (fuel + 1) (left + 1) i last 0 =
      i :: rollingGearLoop p n fuel left (i + STRMIN + 1) i 0 := by
  conv_lhs => unfold rollingGearLoop
  simp only [if_pos hi, hone, if_pos hlast, if_pos gearCut_one]

/-- The first call cuts five strings of thirteen bytes. -/
theorem framed_cuts {m : Nat} (hm : 79 ≤ m) :
    rollingGearV3 (framed m) m 5 = [0, 13, 26, 39, 52, 65] := by
  obtain ⟨fuel, hfuel⟩ : ∃ fuel, m = fuel + 1 + 1 + 1 + 1 + 1 := ⟨m - 5, by omega⟩
  have hcut : ∀ i last fuel left, 0 < i → i < 78 → i ≤ last + STRMAX →
      rollingGearLoop (framed m) m (fuel + 1) (left + 1) i last 0 =
        i :: rollingGearLoop (framed m) m fuel left (i + STRMIN + 1) i 0 :=
    fun i last fuel left hpos hi hlast =>
      rollingGearLoop_one (by omega) (framed_getD hpos (by omega)) hlast
  have hrun : rollingGearLoop (framed m) m (fuel + 1 + 1 + 1 + 1 + 1) 5 (STRMIN + 1) 0 0 =
      [13, 26, 39, 52, 65] := by
    rw [hcut (STRMIN + 1) 0 _ 4 (by decide) (by decide) (by decide),
      hcut (STRMIN + 1 + STRMIN + 1) _ _ 3 (by decide) (by decide) (by decide),
      hcut (STRMIN + 1 + STRMIN + 1 + STRMIN + 1) _ _ 2 (by decide) (by decide) (by decide),
      hcut (STRMIN + 1 + STRMIN + 1 + STRMIN + 1 + STRMIN + 1) _ _ 1 (by decide) (by decide) (by decide),
      hcut (STRMIN + 1 + STRMIN + 1 + STRMIN + 1 + STRMIN + 1 + STRMIN + 1) _ _ 0 (by decide)
        (by decide) (by decide)]
    cases fuel with
    | zero => rfl
    | succ fuel => rfl
  unfold rollingGearV3
  rw [← hfuel] at hrun
  rw [hrun]

theorem framed_table {m : Nat} (hm : 79 ≤ m) :
    ((chunkBase (htableEnv hash progress) (framed m) 0 (encodeInit 0) BASE_BEGIN).psHTable.find?
        (fun r => r.nHash == hash ones)) = some ⟨hash ones, 52, 13⟩ ∧
      (chunkBase (htableEnv hash progress) (framed m) 0 (encodeInit 0) BASE_BEGIN).cursorBase = 65 := by
  have hlen := @framed_length m (by omega)
  have hslice : slice (framed m) 52 13 = ones :=
    slice_ones (by omega) (fun j hj => framed_getD (by omega) (by omega))
  have hcuts := @framed_cuts m hm
  unfold chunkBase chunkingV3 encodeInit
  simp only [Nat.lt_irrefl, if_false, List.drop_zero, Nat.sub_zero, hlen]
  rw [show BASE_BEGIN = 5 from rfl, hcuts]
  simp [htableEnv, hslice, List.takeWhile_cons]

theorem ones_opens {n pos : Nat} (h : pos + 65 ≤ n) : Opens (List.replicate n 1) pos :=
  fun j hj => List.getD_replicate _ (by omega)

theorem framed_stretch {m n : Nat} (hm : 79 ≤ m) :
    Stretch (List.replicate n 1) (framed m) 52 (m - 53) (fun _ => True) := by
  have hlen := @framed_length m (by omega)
  have hn : (List.replicate n (1 : UInt8)).length = n := List.length_replicate
  refine ⟨slice_ones (by omega) (fun j hj => framed_getD (by omega) (by omega)), by omega, ?_, ?_,
    fun _ _ => trivial⟩
  · intro pos _ hpos
    rw [hn] at hpos
    exact ones_opens hpos
  · intro pos _ hpos
    rw [hn] at hpos
    rw [framed_drop hm, List.drop_replicate, commonPrefix_replicate (by decide), hn]
    omega

/-- The first pass chunks the base to byte 65 and copies to its last byte. -/
theorem framed_first (hprog : ∀ newSize baseSize, progress 0 newSize 0 baseSize = true) {m n : Nat}
    (hm : 79 ≤ m) (hmn : m ≤ n) (hmax : m ≤ MAX_CHUNK_SIZE) :
    let s := encodePass (htableEnv hash progress) (List.replicate n 1) (framed m) 0 (encodeInit 0)
    s.deltaLen = 8 ∧ s.flag = .unit1 ∧ s.inputPos = m - 53 ∧ Known hash (framed m) 52 s := by
  have hlen := @framed_length m (by omega)
  have hn : (List.replicate n (1 : UInt8)).length = n := List.length_replicate
  have hst := @framed_stretch m n hm
  have hcopies := hst.copies 0 trivial (by omega)
  obtain ⟨hfind, hcursor⟩ := @framed_table hash progress m hm
  have hchunked : chunked (htableEnv hash progress) (List.replicate n 1) (framed m) (encodeInit 0) =
      chunkBase (htableEnv hash progress) (framed m) 0 (encodeInit 0) BASE_BEGIN :=
    if_pos (asks_init hprog)
  obtain ⟨hdelta, hflag, hpos, hbase, hstep⟩ := @encodePass_copy (htableEnv hash progress)
    (List.replicate n 1) (framed m) (encodeInit 0) ⟨hash ones, 52, 13⟩ (encodeInit_zero (by omega))
    (show 0 + 65 ≤ _ by omega) (hst.opens 0 trivial (by omega)) rfl hst.start (Or.inr (by decide))
    (by rw [hchunked]; exact hfind)
  have hinit : (encodeInit 0).inputPos = 0 := rfl
  rw [hinit] at hpos hbase
  rw [hn, Nat.sub_zero, Nat.min_eq_left (by omega)] at hcopies
  rw [hchunked] at hstep
  simp only at hpos hbase
  intro s
  refine ⟨hdelta, hflag, ?_, ?_, ⟨hash ones, 52, 13⟩, ?_, rfl, rfl⟩
  · change (encodePass _ _ _ _ _).inputPos = _
    omega
  · change _ ≤ (encodePass _ _ _ _ _).cursorBase + 1
    omega
  · change (encodePass _ _ _ _ _).psHTable.find? _ = _
    rw [hstep.table]
    exact hfind

theorem copies_pay {m count d : Nat} (hm : 79 ≤ m) (hmax : m ≤ 8167)
    (hroom : ∀ c < count, m - 53 + (m - 53) * c + 65 ≤ MAX_CHUNK_SIZE)
    (hend : MAX_CHUNK_SIZE < m - 53 + (m - 53) * count + 65)
    (hle : d ≤ if MAX_CHUNK_SIZE ≤ m - 53 + (m - 53) * count then 8 + 8 * count
      else 8 + 8 * count + (MAX_CHUNK_SIZE - (m - 53 + (m - 53) * count)) + 11) :
    max_buffer_size d m < MAX_CHUNK_SIZE := by
  unfold max_buffer_size
  unfold MAX_CHUNK_SIZE at *
  obtain ⟨L, rfl⟩ : ∃ L, m = L + 53 := ⟨m - 53, by omega⟩
  rw [Nat.add_sub_cancel] at hroom hend hle
  have hcopied : ∀ k, k ≤ count → L * k ≤ L * count := fun k hk => Nat.mul_le_mul_left L hk
  have hmany : 2 ≤ count := by
    by_contra hfew
    have hone := Nat.mul_le_mul_left L (show count ≤ 1 by omega)
    omega
  have hlast := hroom (count - 1) (by omega)
  rw [Nat.add_comm L, ← Nat.mul_succ, show (count - 1).succ = count by omega] at hlast
  have hcount := Nat.mul_le_mul_right count (show 26 ≤ L by omega)
  -- two copies, up to sixteen of up to 5439 bytes, or short copies
  rcases Nat.lt_or_ge count 3 with htwo | hthree
  · obtain rfl : count = 2 := by omega
    split at hle
    · omega
    · omega
  · have hfew := hcopied 3 hthree
    rcases Nat.lt_or_ge count 17 with hsixteen | hshort
    · split at hle
      · omega
      · omega
    · have hmore := hcopied 17 hshort
      split at hle
      · omega
      · omega

/-- Sixteen thousand ones against a base of up to half as many. -/
theorem framed_overflows (hprog : ∀ newSize baseSize, progress 0 newSize 0 baseSize = true)
    (htwo : hash [2] ≠ hash ones) (hnil : hash [] ≠ hash ones) {m : Nat} (hm : 79 ≤ m)
    (hmax : m ≤ 8167) :
    max_buffer_size (EDeltaEncode (htableEnv hash progress) (List.replicate MAX_CHUNK_SIZE 1)
      (framed m)).length m < MAX_CHUNK_SIZE := by
  have hlen := @framed_length m (by omega)
  have hn : (List.replicate MAX_CHUNK_SIZE (1 : UInt8)).length = MAX_CHUNK_SIZE :=
    List.length_replicate
  have hsmall : m ≤ MAX_CHUNK_SIZE := Nat.le_trans hmax (by decide)
  obtain ⟨hdelta, hflag, hpos, hknown⟩ := @framed_first hash progress hprog m MAX_CHUNK_SIZE hm hsmall
    hsmall
  have hhead : commonPrefix (framed m) (List.replicate MAX_CHUNK_SIZE 1) = 0 :=
    commonPrefix_of_ne _ _ (by decide)
  have htail : commonPrefix (framed m).reverse (List.replicate MAX_CHUNK_SIZE 1).reverse = 0 := by
    rw [List.reverse_replicate, framed, List.reverse_cons, List.reverse_append]
    exact commonPrefix_of_ne _ _ (by decide)
  obtain ⟨count, hroom, hend, hle⟩ := delta_recopy (Nat.le_of_eq hn) (by omega)
    (@framed_stretch m MAX_CHUNK_SIZE hm) (endUnlike_snoc (2 :: List.replicate (m - 2) 1) htwo hnil)
    hhead htail rfl (by rw [hn]; decide) hknown hflag trivial
  rw [hpos, hdelta, hn] at hle
  rw [hpos, hn] at hroom hend
  exact copies_pay hm hmax hroom hend hle

end Framed

section Stepped
variable {hash : Bytes → UInt64} {progress : Nat → Nat → Nat → Nat → Bool}

/-- A base of fourteen ones and then zeros. -/
def stepped (m : Nat) : Bytes := List.replicate 14 1 ++ List.replicate (m - 14) 0

/-- The string the new chunk starts with. -/
def zeroString : Bytes := List.replicate 13 0

/-- `k` times the base, between thirteen zeros and a two. -/
def repeated (m k : Nat) : Bytes := zeroString ++ ((List.replicate k (stepped m)).flatten ++ [2])

/-- The rest of the base after its string of ones. -/
def stepTail (m : Nat) : Bytes := 1 :: List.replicate (m - 14) 0

theorem stepped_eq (m : Nat) : stepped m = ones ++ stepTail m := rfl

theorem stepped_length {m : Nat} (hm : 17 ≤ m) : (stepped m).length = m := by
  unfold stepped
  rw [List.length_append, List.length_replicate, List.length_replicate]
  omega

theorem repeated_drop {m c k : Nat} (hm : 17 ≤ m) :
    (repeated m (c + (k + 1))).drop (13 + m * c) =
      stepped m ++ ((List.replicate k (stepped m)).flatten ++ [2]) := by
  have hlen := @stepped_length m hm
  have hfront : ((List.replicate c (stepped m)).flatten).length = m * c := by
    rw [List.length_flatten, List.map_replicate, List.sum_replicate_nat, hlen, Nat.mul_comm]
  unfold repeated
  rw [← List.replicate_append_replicate, List.flatten_append, List.append_assoc, List.replicate_succ,
    List.flatten_cons, List.append_assoc, ← List.drop_drop, show 13 = zeroString.length from rfl,
    List.drop_left, ← hfront, List.drop_left]

theorem repeated_length {m : Nat} (hm : 17 ≤ m) (k : Nat) : (repeated m k).length = 14 + m * k := by
  unfold repeated
  rw [List.length_append, List.length_append, List.length_flatten, List.map_replicate,
    List.sum_replicate_nat, @stepped_length m hm, Nat.mul_comm]
  change 13 + (m * k + 1) = _
  omega

theorem getD_drop {p : Bytes} {pos j : Nat} : (p.drop pos).getD j 0 = p.getD (pos + j) 0 := by
  rw [List.getD_eq_getElem?_getD, List.getElem?_drop, ← List.getD_eq_getElem?_getD]

theorem stepped_opens (rest : Bytes) {m j : Nat} (hj : j < 14) : (stepped m ++ rest).getD j 0 = 1 := by
  unfold stepped
  rw [List.append_assoc, List.getD_append _ _ _ _ (by rw [List.length_replicate]; exact hj),
    List.getD_replicate _ hj]

theorem repeated_stretch {m k : Nat} (hm : 17 ≤ m) :
    Stretch (repeated m k) (stepped m) 0 m (fun pos => ∃ c, pos = 13 + m * c) := by
  have hlen := @stepped_length m hm
  have hall := @repeated_length m hm k
  -- the base starts at such a position
  have hat : ∀ c, 13 + m * c + 65 ≤ (repeated m k).length → ∃ rest,
      (repeated m k).drop (13 + m * c) = stepped m ++ rest := by
    intro c hc
    have hlt : c < k := by
      by_contra hge
      have hmul := Nat.mul_le_mul_left m (Nat.le_of_not_lt hge)
      omega
    obtain ⟨r, rfl⟩ : ∃ r, k = c + (r + 1) := ⟨k - c - 1, by omega⟩
    exact ⟨_, repeated_drop hm⟩
  refine ⟨rfl, by omega, ?_, ?_, ?_⟩
  · rintro pos ⟨c, rfl⟩ hpos j hj
    obtain ⟨rest, hrest⟩ := hat c hpos
    rw [← getD_drop, hrest]
    exact stepped_opens rest hj
  · rintro pos ⟨c, rfl⟩ hpos
    obtain ⟨rest, hrest⟩ := hat c hpos
    have htotal := congrArg List.length hrest
    have htail : (stepTail m).length = m - 13 := by
      unfold stepTail
      rw [List.length_cons, List.length_replicate]
      omega
    rw [List.length_drop, List.length_append, hlen] at htotal
    have hdrop : ∀ tail : Bytes, (ones ++ tail).drop 13 = tail := fun tail => List.drop_left' rfl
    have hcommon := commonPrefix_append (stepTail m) [] rest
    have hnone : commonPrefix ([] : Bytes) rest = 0 := by cases rest <;> rfl
    rw [List.append_nil, hnone, htail] at hcommon
    rw [Nat.zero_add, ← @List.drop_drop _ 13 (13 + m * c), hrest, stepped_eq, List.append_assoc,
      hdrop, hdrop, hcommon]
    omega
  · rintro pos ⟨c, rfl⟩
    exact ⟨c + 1, by rw [Nat.mul_succ]; omega⟩

/-- Zeros up to the end of the base: no cut before it. -/
theorem rollingGearLoop_zeros {p : Bytes} {n fuel left i last k : Nat} {fingerprint : UInt32}
    (hn : i + k = n) (hp : ∀ j < k, p.getD (i + j) 0 = 0)
    (hcut : ∀ j < k, gearCut (zeros (j + 1) fingerprint) = false) (hmax : n ≤ last + STRMAX + 1) :
    rollingGearLoop p n (fuel + k) left i last fingerprint = List.replicate left n := by
  induction k generalizing i fingerprint with
  | zero =>
    cases fuel with
    | zero => rfl
    | succ fuel =>
      cases left with
      | zero => rfl
      | succ left =>
        unfold rollingGearLoop
        rw [if_neg (by omega)]
  | succ k ih =>
    have hbyte := hp 0 (Nat.succ_pos k)
    have hfirst := hcut 0 (Nat.succ_pos k)
    rw [Nat.zero_add, zeros_one] at hfirst
    rw [Nat.add_zero] at hbyte
    have hrec := @ih (i + 1) (gearStep fingerprint 0) (by omega)
      (fun j hj => by rw [Nat.add_assoc, Nat.add_comm 1 j]; exact hp (j + 1) (Nat.succ_lt_succ hj))
      (fun j hj => by rw [← zeros_succ]; exact hcut (j + 1) (Nat.succ_lt_succ hj))
    cases left with
    | zero => rfl
    | succ left =>
      rw [← Nat.add_assoc]
      conv_lhs => unfold rollingGearLoop
      rw [if_pos (by omega : i < n), hbyte]
      simp only
      rw [if_pos (by omega : i ≤ last + STRMAX), if_neg (Bool.eq_false_iff.mp hfirst)]
      exact hrec

theorem stepped_cuts {m : Nat} (hm : 17 ≤ m) (hmax : m ≤ 78) :
    rollingGearV3 (stepped m) m 5 = [0, 13, m, m, m, m] := by
  obtain ⟨fuel, hfuel⟩ : ∃ fuel, m = fuel + 1 := ⟨m - 1, by omega⟩
  have hone : (stepped m).getD (STRMIN + 1) 0 = 1 := by
    have := @stepped_opens [] m 13 (by decide)
    rwa [List.append_nil] at this
  have hfirst := @rollingGearLoop_one (stepped m) m fuel 4 (STRMIN + 1) 0
    (by unfold STRMIN; omega) hone (by decide)
  have hrest : rollingGearLoop (stepped m) m fuel 4 (STRMIN + 1 + STRMIN + 1) (STRMIN + 1) 0 =
      [m, m, m, m] := by
    rcases Nat.lt_or_ge m 26 with hshort | hlong
    · obtain ⟨fuel', rfl⟩ : ∃ fuel', fuel = fuel' + 1 := ⟨fuel - 1, by omega⟩
      unfold rollingGearLoop
      rw [if_neg (by unfold STRMIN; omega)]
      rfl
    · obtain ⟨k, hk⟩ : ∃ k, m = 26 + k := ⟨m - 26, by omega⟩
      obtain ⟨fuel', hfuel'⟩ : ∃ fuel', fuel = fuel' + k := ⟨25, by omega⟩
      rw [hfuel']
      apply rollingGearLoop_zeros
      · exact hk.symm
      · intro j hj
        unfold stepped STRMIN
        rw [List.getD_append_right _ _ _ _ (by rw [List.length_replicate]; omega),
          List.length_replicate, List.getD_replicate _ (by omega)]
      · exact fun j hj => zeros_uncut j (by omega)
      · unfold STRMIN STRMAX
        omega
  unfold rollingGearV3
  rw [hrest, ← hfuel] at hfirst
  rw [hfirst]
  rfl

/-- The hash tells the strings of the two chunks apart. -/
structure Unlike (hash : Bytes → UInt64) (m : Nat) : Prop where
  zeros_tail : hash (stepTail m) ≠ hash zeroString
  zeros_ones : hash ones ≠ hash zeroString
  ones_tail : hash (stepTail m) ≠ hash ones

/-- The state once the first call has chunked the base. -/
def firstChunked (env : EDeltaEnv) (baseBuf : Bytes) : EncState :=
  chunkBase env baseBuf 0 { encodeInit 0 with flagHandleProbe := true, probeMatch := none } BASE_BEGIN

theorem stepped_table {m : Nat} (hm : 17 ≤ m) (hmax : m ≤ 78) :
    (firstChunked (htableEnv hash progress) (stepped m)).psHTable =
        [⟨hash (stepTail m), 13, m - 13⟩, ⟨hash ones, 0, 13⟩] ∧
      (firstChunked (htableEnv hash progress) (stepped m)).cursorBase = m := by
  have hlen := @stepped_length m hm
  have hcuts := @stepped_cuts m hm hmax
  have hfirst : slice (stepped m) 0 13 = ones := rfl
  have hsecond : slice (stepped m) 13 (m - 13) = stepTail m := by
    have hdrop : (ones ++ stepTail m).drop 13 = stepTail m := List.drop_left' rfl
    rw [stepped_eq]
    unfold slice
    rw [hdrop]
    apply List.take_of_length_le
    unfold stepTail
    rw [List.length_cons, List.length_replicate]
    omega
  have hne : ¬ (m - 13 = 0) := by omega
  unfold firstChunked chunkBase chunkingV3 encodeInit
  simp only [Nat.lt_irrefl, if_false, List.drop_zero, Nat.sub_zero, hlen]
  rw [show BASE_BEGIN = 5 from rfl, hcuts]
  simp [htableEnv, hfirst, hsecond, hne, List.takeWhile_cons]

/-- A hit at the second probe string: the first is a literal. -/
theorem handleProbe_second {newBuf baseBuf : Bytes} {p : EncState} {first second dup : DeltaRecord}
    (h : p.probeMatch = some (1, dup)) :
    handleProbe newBuf baseBuf 0 [first, second] 0 p =
      (matchString newBuf baseBuf 0
        { skipProbe newBuf p first.nLength with
          cursorInput := second.nLength + (skipProbe newBuf p first.nLength).inputPos
          flagHandleProbe := false } dup second.nLength, true) := by
  have hskip : (skipProbe newBuf p first.nLength).probeMatch = some (1, dup) :=
    (appendLiteral_frame _ _).2.2.1.trans h
  unfold handleProbe
  rw [h]
  simp only [Nat.zero_ne_one, if_false]
  unfold handleProbe
  rw [hskip]
  simp only [Nat.zero_add, if_true]

/-- The first pass takes the thirteen zeros as a literal and copies the whole base. -/
theorem repeated_first (hprog : ∀ newSize baseSize, progress 0 newSize 0 baseSize = true)
    {m k : Nat} (hunlike : Unlike hash m) (hm : 17 ≤ m) (hmax : m ≤ 78) (hk : 5 ≤ k) :
    let s := encodePass (htableEnv hash progress) (repeated m k) (stepped m) 0 (encodeInit 0)
    s.deltaLen = 25 ∧ s.flag = .unit1 ∧ s.inputPos = 13 + m ∧ Known hash (stepped m) 0 s := by
  have hlen := @stepped_length m hm
  have hall := @repeated_length m hm k
  have hst := @repeated_stretch m k hm
  have hmul := Nat.mul_le_mul hm hk
  have hopens := hst.opens 13 ⟨0, rfl⟩ (by omega)
  have hcopies := hst.copies 13 ⟨0, rfl⟩ (by omega)
  obtain ⟨htable, hcursor⟩ := @stepped_table hash progress m hm hmax
  have hsecond : nextLength (repeated m k) 13 = 13 := opens_length (by omega) hopens
  have hfirst : nextLength (repeated m k) 0 = 13 := by
    unfold nextLength
    apply chunkGear_ones
    · omega
    · exact hopens 0 (by decide)
  have hzero : slice (repeated m k) 0 13 = zeroString := List.take_left' rfl
  have hones : slice (repeated m k) 13 13 = ones :=
    slice_ones (by omega) (fun j hj => hopens j (Nat.lt_succ_of_lt hj))
  have hmiss : (firstChunked (htableEnv hash progress) (stepped m)).psHTable.find?
      (fun r => r.nHash == hash zeroString) = none := by
    rw [htable]
    simp [hunlike.zeros_tail, hunlike.zeros_ones]
  have hfind : (firstChunked (htableEnv hash progress) (stepped m)).psHTable.find?
      (fun r => r.nHash == hash ones) = some ⟨hash ones, 0, 13⟩ := by
    rw [htable]
    simp [hunlike.ones_tail]
  unfold nextLength at hfirst hsecond
  have hhit : probeInput (htableEnv hash progress) (repeated m k) 0
      (firstChunked (htableEnv hash progress) (stepped m)).psHTable INPUT_TRY 0 0 =
      ([⟨hash zeroString, 0, 13⟩, ⟨hash ones, 0, 13⟩], some (1, ⟨hash ones, 0, 13⟩)) := by
    have hsecondHit := @probeInput_hit (htableEnv hash progress) (repeated m k)
      (firstChunked (htableEnv hash progress) (stepped m)).psHTable 3 1 13 0 ⟨hash ones, 0, 13⟩
      (by rw [hsecond, hones]; exact hfind)
    have hfirstMiss := @probeInput_miss (htableEnv hash progress) (repeated m k)
      (firstChunked (htableEnv hash progress) (stepped m)).psHTable 4 0 0 0
      (by rw [hfirst, hzero]; exact hmiss)
    rw [hsecond, hones] at hsecondHit
    rw [hfirst, hzero, Nat.zero_add, hsecondHit] at hfirstMiss
    exact hfirstMiss
  -- the state after the probing
  obtain ⟨p, hp, hlinks, hmatch, hhandle, hdelta, hflag, hpos, hfound, hcur⟩ : ∃ p,
      encodeProbe (htableEnv hash progress) (repeated m k) (stepped m) 0 (encodeInit 0) = p ∧
      p.inputLink = [⟨hash zeroString, 0, 13⟩, ⟨hash ones, 0, 13⟩] ∧
      p.probeMatch = some (1, ⟨hash ones, 0, 13⟩) ∧ p.flagHandleProbe = true ∧ p.deltaLen = 0 ∧
      p.flag = .none ∧ p.inputPos = 0 ∧
      p.psHTable.find? (fun r => r.nHash == hash ones) = some ⟨hash ones, 0, 13⟩ ∧
      p.cursorBase = m := by
    have hasks := @asks_init hash progress (repeated m k) (stepped m) hprog
    unfold asks at hasks
    refine ⟨{ firstChunked (htableEnv hash progress) (stepped m) with
      inputLink := [⟨hash zeroString, 0, 13⟩, ⟨hash ones, 0, 13⟩]
      probeMatch := some (1, ⟨hash ones, 0, 13⟩) }, ?_, rfl, rfl, rfl, rfl, rfl, rfl, hfind, hcursor⟩
    unfold encodeProbe
    rw [if_pos hasks]
    exact expandBase_hit hhit
  have hq : ∃ q : EncState, encodePass (htableEnv hash progress) (repeated m k) (stepped m) 0
      (encodeInit 0) = { emitMatch (repeated m k) (stepped m) 0 q ⟨hash ones, 0, 13⟩ 13 with
        inputPos := (emitMatch (repeated m k) (stepped m) 0 q ⟨hash ones, 0, 13⟩ 13).cursorInput } ∧
      q.deltaLen = 17 ∧ q.cursorInput = 26 ∧ q.psHTable = p.psHTable := by
    have hskip : (skipProbe (repeated m k) p 13).deltaLen = 17 ∧
        (skipProbe (repeated m k) p 13).inputPos = 13 ∧
        (skipProbe (repeated m k) p 13).psHTable = p.psHTable := by
      unfold skipProbe appendLiteral
      rw [hflag]
      simp only [hdelta, hpos]
      exact ⟨trivial, trivial, trivial⟩
    obtain ⟨hskipLen, hskipPos, hskipTable⟩ := hskip
    refine ⟨{ skipProbe (repeated m k) p 13 with
      cursorInput := 13 + (skipProbe (repeated m k) p 13).inputPos
      flagHandleProbe := false }, ?_, hskipLen, by rw [hskipPos], hskipTable⟩
    have hcopy := @matchString_copy (repeated m k) (stepped m)
      { skipProbe (repeated m k) p 13 with
        cursorInput := 13 + (skipProbe (repeated m k) p 13).inputPos
        flagHandleProbe := false } ⟨hash ones, 0, 13⟩ rfl
      (by change slice _ (skipProbe (repeated m k) p 13).inputPos 13 = _
          rw [hskipPos, hones]
          rfl)
    unfold encodePass
    rw [hp]
    simp only [hhandle, hlinks, if_true, handleProbe_second hmatch, ← hcopy]
  obtain ⟨q, hpass, hqlen, hqcur, hqtable⟩ := hq
  obtain ⟨hdelta', hflag', hcur', hbase'⟩ := @emitMatch_copy (repeated m k) (stepped m) q
    ⟨hash ones, 0, 13⟩ 13 (show 0 + 13 ≤ _ by omega) (by omega) (Or.inl rfl)
  have hstep := @emitMatch_cursor (repeated m k) (stepped m) 0 q ⟨hash ones, 0, 13⟩ 13
  simp only [hqcur] at hcur' hbase'
  rw [Nat.min_eq_left (by omega)] at hcopies
  have hwhole : 13 + commonPrefix ((stepped m).drop (0 + 13)) ((repeated m k).drop 26) = m := hcopies
  intro s
  have hs : s = _ := hpass
  rw [hs]
  refine ⟨?_, hflag', ?_, ?_, ⟨hash ones, 0, 13⟩, ?_, rfl, rfl⟩
  · change (emitMatch _ _ _ _ _ _).deltaLen = 25
    omega
  · change (emitMatch _ _ _ _ _ _).cursorInput = _
    omega
  · change _ ≤ (emitMatch _ _ _ _ _ _).cursorBase + 1
    omega
  · change (emitMatch _ _ _ _ _ _).psHTable.find? _ = _
    rw [hstep.table, hqtable]
    exact hfound

/-- Two hundred copies of the base. -/
theorem repeated_overflows (hprog : ∀ newSize baseSize, progress 0 newSize 0 baseSize = true)
    {m : Nat} (hunlike : Unlike hash m) (hzero : hash [0] ≠ hash ones) (hnil : hash [] ≠ hash ones)
    (hm : 17 ≤ m) (hmax : m ≤ 78) :
    max_buffer_size (EDeltaEncode (htableEnv hash progress) (repeated m 200) (stepped m)).length m <
      (repeated m 200).length := by
  have hlen := @stepped_length m hm
  have hall := @repeated_length m hm 200
  have hsmall : m ≤ MAX_CHUNK_SIZE := Nat.le_trans hmax (by decide)
  have hfits : (repeated m 200).length ≤ MAX_CHUNK_SIZE := by
    unfold MAX_CHUNK_SIZE
    omega
  obtain ⟨hdelta, hflag, hpos, hknown⟩ := @repeated_first hash progress hprog m 200 hunlike hm hmax
    (by decide)
  have hhead : commonPrefix (stepped m) (repeated m 200) = 0 :=
    commonPrefix_of_ne _ _ (show (1 : UInt8) ≠ 0 by decide)
  have hsnoc : stepped m = (List.replicate 14 1 ++ List.replicate (m - 15) 0) ++ [0] := by
    unfold stepped
    rw [List.append_assoc, ← List.replicate_succ', show m - 15 + 1 = m - 14 by omega]
  have htail : commonPrefix (stepped m).reverse (repeated m 200).reverse = 0 := by
    have hbaseRev : (stepped m).reverse =
        0 :: (List.replicate 14 (1 : UInt8) ++ List.replicate (m - 15) 0).reverse := by
      rw [hsnoc, List.reverse_append]
      rfl
    have hnewRev : (repeated m 200).reverse =
        2 :: (zeroString ++ (List.replicate 200 (stepped m)).flatten).reverse := by
      unfold repeated
      rw [← List.append_assoc, List.reverse_append]
      rfl
    rw [hbaseRev, hnewRev]
    exact commonPrefix_of_ne _ _ (show (0 : UInt8) ≠ 2 by decide)
  have hend : EndUnlike hash (stepped m) := by
    rw [hsnoc]
    exact endUnlike_snoc _ hzero hnil
  obtain ⟨count, hroom, hshort, hle⟩ := delta_recopy hfits (by omega) (@repeated_stretch m 200 hm) hend
    hhead htail rfl (by omega) hknown hflag ⟨1, by rw [hpos, Nat.mul_one]⟩
  rw [hpos, hdelta, hall] at hle
  rw [hpos, hall] at hroom hshort
  have hmany : 196 ≤ count := by
    by_contra hfew
    have hmul := Nat.mul_le_mul_left m (show count ≤ 195 by omega)
    omega
  have hfew : count ≤ 199 := by
    by_contra hmore
    have hlast := hroom 199 (by omega)
    omega
  have hcount : count = 196 ∨ count = 197 ∨ count = 198 ∨ count = 199 := by omega
  unfold max_buffer_size
  rcases hcount with rfl | rfl | rfl | rfl
  · split at hle <;> omega
  · split at hle <;> omega
  · split at hle <;> omega
  · split at hle <;> omega

end Stepped

section Restore

theorem weakHash_nil : weakHash [] ≠ weakHash ones := by
  decide +kernel

theorem weakHash_zero : weakHash [0] ≠ weakHash ones := by
  decide +kernel

theorem weakHash_two : weakHash [2] ≠ weakHash ones := by
  decide +kernel

theorem weakHash_unlike : ∀ m < 79, 17 ≤ m → weakHash (stepTail m) ≠ weakHash zeroString ∧
    weakHash ones ≠ weakHash zeroString ∧ weakHash (stepTail m) ≠ weakHash ones := by
  decide +kernel

variable {progress : Nat → Nat → Nat → Nat → Bool}

/-- A chunk that is stored as a delta and does not fit the buffer it is restored in. -/
def Overflows (progress : Nat → Nat → Nat → Nat → Bool) (newBuf baseBuf : Bytes) : Prop :=
  newBuf.length ≤ MAX_CHUNK_SIZE ∧
    (EDeltaEncode (htableEnv weakHash progress) newBuf baseBuf).length < newBuf.length ∧
    max_buffer_size (EDeltaEncode (htableEnv weakHash progress) newBuf baseBuf).length baseBuf.length <
      (EDeltaDecode (EDeltaEncode (htableEnv weakHash progress) newBuf baseBuf) baseBuf).length

theorem overflows_of_size {newBuf baseBuf : Bytes} (hnew : newBuf.length ≤ MAX_CHUNK_SIZE)
    (hbase : baseBuf.length ≤ MAX_CHUNK_SIZE)
    (h : max_buffer_size (EDeltaEncode (htableEnv weakHash progress) newBuf baseBuf).length
      baseBuf.length < newBuf.length) : Overflows progress newBuf baseBuf := by
  refine ⟨hnew, ?_, ?_⟩
  · unfold max_buffer_size at h
    omega
  · rw [EDeltaDecode_length _ hnew hbase]
    exact h

theorem repeated_bad (hprog : ∀ newSize baseSize, progress 0 newSize 0 baseSize = true) {m : Nat}
    (hm : 17 ≤ m) (hmax : m ≤ 78) : Overflows progress (repeated m 200) (stepped m) := by
  obtain ⟨h1, h2, h3⟩ := weakHash_unlike m (Nat.lt_succ_of_le hmax) hm
  have hlen := @stepped_length m hm
  have hall := @repeated_length m hm 200
  apply overflows_of_size
  · unfold MAX_CHUNK_SIZE
    omega
  · unfold MAX_CHUNK_SIZE
    omega
  · rw [hlen]
    exact repeated_overflows hprog ⟨h1, h2, h3⟩ weakHash_zero weakHash_nil hm hmax

theorem framed_bad (hprog : ∀ newSize baseSize, progress 0 newSize 0 baseSize = true) {m : Nat}
    (hm : 79 ≤ m) (hmax : m ≤ 8167) :
    Overflows progress (List.replicate MAX_CHUNK_SIZE 1) (framed m) := by
  have hlen := @framed_length m (by omega)
  have hall : (List.replicate MAX_CHUNK_SIZE (1 : UInt8)).length = MAX_CHUNK_SIZE :=
    List.length_replicate
  apply overflows_of_size
  · exact Nat.le_of_eq hall
  · unfold MAX_CHUNK_SIZE
    omega
  · rw [hall, hlen]
    exact framed_overflows hprog weakHash_two weakHash_nil hm hmax

/-- For each length of the base, every chunk that is stored as a delta against such a base fits the
buffer it is restored in exactly when the base is at most 16 bytes or at least 8168. -/
theorem restore_fits_iff (progress : Nat → Nat → Nat → Nat → Bool)
    (hprog : ∀ newSize baseSize, progress 0 newSize 0 baseSize = true) {m : Nat}
    (hmax : m ≤ MAX_CHUNK_SIZE) :
    (∀ newBuf baseBuf, baseBuf.length = m → 1 ≤ newBuf.length → newBuf.length ≤ MAX_CHUNK_SIZE →
      (EDeltaEncode (htableEnv weakHash progress) newBuf baseBuf).length < newBuf.length →
      (EDeltaDecode (EDeltaEncode (htableEnv weakHash progress) newBuf baseBuf) baseBuf).length ≤
        max_buffer_size (EDeltaEncode (htableEnv weakHash progress) newBuf baseBuf).length m) ↔
      m ≤ 16 ∨ 8168 ≤ m := by
  constructor
  · intro h
    by_contra hlen
    rcases Nat.lt_or_ge m 79 with hshort | hlong
    · obtain ⟨hfits, haccepted, hbad⟩ := @repeated_bad progress hprog m (by omega) (by omega)
      have hlen := @stepped_length m (by omega)
      rw [hlen] at hbad
      exact absurd (h (repeated m 200) (stepped m) hlen (Nat.zero_lt_of_lt haccepted) hfits haccepted)
        (Nat.not_le.mpr hbad)
    · obtain ⟨hfits, haccepted, hbad⟩ := @framed_bad progress hprog m hlong (by omega)
      have hlen := @framed_length m (by omega)
      rw [hlen] at hbad
      exact absurd (h (List.replicate MAX_CHUNK_SIZE 1) (framed m) hlen (Nat.zero_lt_of_lt haccepted)
        hfits haccepted) (Nat.not_le.mpr hbad)
  · intro hlen newBuf baseBuf hbase _ hnew _
    rw [EDeltaDecode_length _ hnew (by omega), ← hbase]
    exact decode_fits hnew (by omega) (by omega)

theorem exactProgress_start (newSize baseSize : Nat) : exactProgress 0 newSize 0 baseSize = true := by
  unfold exactProgress
  rw [decide_eq_true_eq, Nat.mul_zero, Nat.zero_mul]
  exact Nat.zero_le _

/-- A base of 64 bytes that is repeated two hundred times. -/
theorem restore_overflows : Overflows exactProgress (repeated 64 200) (stepped 64) :=
  repeated_bad exactProgress_start (by decide) (by decide)

/-- On both sides of the bound. -/
theorem restore_fits_iff_bound :
    (∀ newBuf baseBuf, baseBuf.length = 8168 → 1 ≤ newBuf.length → newBuf.length ≤ MAX_CHUNK_SIZE →
      (EDeltaEncode (htableEnv weakHash exactProgress) newBuf baseBuf).length < newBuf.length →
      (EDeltaDecode (EDeltaEncode (htableEnv weakHash exactProgress) newBuf baseBuf) baseBuf).length ≤
        max_buffer_size (EDeltaEncode (htableEnv weakHash exactProgress) newBuf baseBuf).length
          8168) ∧
    ¬∀ newBuf baseBuf, baseBuf.length = 8167 → 1 ≤ newBuf.length → newBuf.length ≤ MAX_CHUNK_SIZE →
      (EDeltaEncode (htableEnv weakHash exactProgress) newBuf baseBuf).length < newBuf.length →
      (EDeltaDecode (EDeltaEncode (htableEnv weakHash exactProgress) newBuf baseBuf) baseBuf).length ≤
        max_buffer_size (EDeltaEncode (htableEnv weakHash exactProgress) newBuf baseBuf).length 8167 :=
  ⟨(restore_fits_iff exactProgress exactProgress_start (by decide)).mpr (by decide),
    fun h => absurd ((restore_fits_iff exactProgress exactProgress_start (by decide)).mp h)
      (by decide)⟩

end Restore

end ShieldReduce.EDelta
