import ShieldReduce.EDelta.RoundTrip

/-!
# The tables of the encoder

The `Chunking_v3` calls of a run, each with the `BaseLink_` slots and the cut points it writes,
and the bounds they keep.
-/

namespace ShieldReduce.EDelta
open Lib

/-- A call of `Chunking_v3`: it chunks the base from `cursorBase` on and fills `chunkNumber` slots
of `BaseLink_` from `numBase` on. -/
structure ChunkCall where
  cursorBase : Nat
  numBase : Nat
  chunkNumber : Nat

section Calls
variable (env : EDeltaEnv) (newBuf baseBuf : Bytes) (tail : Nat)

/-- The cut points that a call writes to `cutEdelta_`. -/
def callCuts (c : ChunkCall) : List Nat :=
  rollingGearV3 (baseBuf.drop c.cursorBase) (baseBuf.length - tail - c.cursorBase) c.chunkNumber

def expandCalls : Nat → Nat → Nat → Nat → EncState → List ChunkCall
  | 0, _, _, _, _ => []
  | left + 1, i, chunkNumber, numBase, s =>
    let call : ChunkCall := ⟨s.cursorBase, numBase, chunkNumber⟩
    let s := chunkBase env baseBuf tail s chunkNumber
    let (links, hit) := if i = 0 then probeInput env newBuf tail s.psHTable INPUT_TRY 0 s.cursorInput
      else (s.inputLink, probeAgain env s.psHTable s.inputLink 0)
    let s := { s with inputLink := links, probeMatch := hit }
    if hit.isSome || !s.flagChunk then [call]
    else call :: expandCalls left (i + 1) (chunkNumber * BASE_EXPAND) (numBase + chunkNumber) s

/-- The calls of one pass of the main loop. -/
def passCalls (numBase : Nat) (s : EncState) : List ChunkCall :=
  if asks env newBuf baseBuf s then
    expandCalls env newBuf baseBuf tail BASE_STEP 0 BASE_BEGIN numBase
      { s with flagHandleProbe := true, probeMatch := none }
  else []

def slots (calls : List ChunkCall) : Nat := (calls.map ChunkCall.chunkNumber).sum

def loopCalls : Nat → Nat → EncState → List ChunkCall
  | 0, _, _ => []
  | fuel + 1, numBase, s =>
    if s.inputPos < newBuf.length - tail then
      let calls := passCalls env newBuf baseBuf tail numBase s
      calls ++ loopCalls fuel (numBase + slots calls) (encodePass env newBuf baseBuf tail s)
    else []

/-- The states in which the condition of the main loop is tested. -/
def loopStates : Nat → EncState → List EncState
  | 0, s => [s]
  | fuel + 1, s =>
    if s.inputPos < newBuf.length - tail then
      s :: loopStates fuel (encodePass env newBuf baseBuf tail s)
    else [s]

end Calls

/-- The calls of `EDeltaEncode`. -/
def encodeCalls (env : EDeltaEnv) (newBuf baseBuf : Bytes) : List ChunkCall :=
  let beg := begSize newBuf baseBuf
  let tail := endSize newBuf baseBuf
  if baseBuf.length ≤ beg + tail then []
  else loopCalls env newBuf baseBuf tail newBuf.length 0 (encodeInit beg)

section Bounds
variable {env : EDeltaEnv} {newBuf baseBuf : Bytes} {tail : Nat}

theorem advancing_of_zip {last : Nat} {cs : List Nat}
    (h : ∀ c ∈ (last :: cs).zip cs, c.2 - c.1 ≠ 0) : Advancing last cs := by
  induction cs generalizing last with
  | nil => trivial
  | cons c cs ih =>
    rw [List.zip_cons_cons] at h
    have hc := h (last, c) (List.mem_cons_self)
    exact ⟨by simp only at hc; omega, ih (fun x hx => h x (List.mem_cons_of_mem _ hx))⟩

/-- A call that fills every slot with a nonempty string covers 13 bytes of the base a slot, but
for the last one where the base ends. -/
theorem chunkingV3_spaced {data : Bytes} {len numOfChunks : Nat}
    (h : (chunkingV3 env data len numOfChunks).1.all (fun r => r.nLength != 0) = true) :
    13 * numOfChunks ≤ (chunkingV3 env data len numOfChunks).2 + 12 ∧
      ((chunkingV3 env data len numOfChunks).2 < len →
        13 * numOfChunks ≤ (chunkingV3 env data len numOfChunks).2) := by
  unfold chunkingV3 rollingGearV3 at h ⊢
  simp only [List.tail_cons, List.all_map, List.all_eq_true, Function.comp_apply, bne_iff_ne] at h
  have hspaced := @rollingGearLoop_spaced data len len numOfChunks (STRMIN + 1) 0 0 (by omega)
    (advancing_of_zip h)
  unfold Spaced at hspaced
  simp only [List.getLastD_cons]
  exact hspaced

/-- How many slots are in use: as many as the base covered so far allows, and once an empty string
was met one call more. -/
structure SlotsInv (baseSize tail numBase : Nat) (s : EncState) : Prop where
  total : 13 * numBase ≤ baseSize + 12 + 13 * 45
  cursor : s.flagChunk = true → 13 * numBase ≤ s.cursorBase + 12
  inside : s.flagChunk = true → s.cursorBase + tail < baseSize → 13 * numBase ≤ s.cursorBase

theorem chunkBase_slots {s : EncState} {numBase chunkNumber : Nat}
    (h : SlotsInv baseBuf.length tail numBase s) (hflag : s.flagChunk = true)
    (hbase : s.cursorBase + tail ≤ baseBuf.length) (hnum : chunkNumber ≤ 45) :
    SlotsInv baseBuf.length tail (numBase + chunkNumber)
      (chunkBase env baseBuf tail s chunkNumber) := by
  have hcursor := h.cursor hflag
  have hinside := h.inside hflag
  have hle := (chunkingV3_bounds env (baseBuf.drop s.cursorBase)
    (baseBuf.length - tail - s.cursorBase) chunkNumber).2
  have hspaced := @chunkingV3_spaced env (baseBuf.drop s.cursorBase)
    (baseBuf.length - tail - s.cursorBase) chunkNumber
  refine ⟨by omega, ?_, ?_⟩
  · simp only [chunkBase, hflag, Bool.true_and]
    intro hall
    have hsp := hspaced hall
    omega
  · simp only [chunkBase, hflag, Bool.true_and]
    intro hall hlt
    have hsp := hspaced hall
    have hin := hsp.2 (by omega)
    omega

/-- What a call may write. -/
structure CallFits (baseBuf : Bytes) (tail : Nat) (c : ChunkCall) : Prop where
  slots : 13 * (c.numBase + c.chunkNumber) ≤ baseBuf.length + 12 + 13 * 45
  cuts : (callCuts baseBuf tail c).length ≤ 46
  inside : c.cursorBase + (callCuts baseBuf tail c).getLastD 0 + tail ≤ baseBuf.length

theorem callFits {s : EncState} {numBase chunkNumber : Nat}
    (h : SlotsInv baseBuf.length tail numBase s) (hflag : s.flagChunk = true)
    (hbase : s.cursorBase + tail ≤ baseBuf.length) (hnum : chunkNumber ≤ 45) :
    CallFits baseBuf tail ⟨s.cursorBase, numBase, chunkNumber⟩ := by
  have hcursor := h.cursor hflag
  have hlast := cutsFrom_last (rollingGearV3_cuts (baseBuf.drop s.cursorBase)
    (baseBuf.length - tail - s.cursorBase) chunkNumber) (Nat.zero_le _)
  refine ⟨by simp only; omega, ?_, ?_⟩
  · unfold callCuts
    rw [rollingGearV3_length]
    exact Nat.succ_le_succ hnum
  · unfold callCuts
    simp only
    omega

/-- The rounds of one pass: every call fits, and the count of slots is the one after the last. -/
theorem expandBase_slots {left i chunkNumber numBase pos : Nat} {s : EncState}
    (hinv : EncInv newBuf baseBuf tail s pos) (h : SlotsInv baseBuf.length tail numBase s)
    (hflag : s.flagChunk = true) (hnum : chunkNumber * BASE_EXPAND ^ left ≤ 135) :
    (∀ c ∈ expandCalls env newBuf baseBuf tail left i chunkNumber numBase s,
        CallFits baseBuf tail c) ∧
      SlotsInv baseBuf.length tail
        (numBase + slots (expandCalls env newBuf baseBuf tail left i chunkNumber numBase s))
        (expandBase env newBuf baseBuf tail left i chunkNumber s) := by
  induction left generalizing i chunkNumber numBase s with
  | zero => exact ⟨fun c hc => absurd hc (by simp [expandCalls]), h⟩
  | succ left ih =>
    have h45 : chunkNumber ≤ 45 := by
      have hone := Nat.one_le_pow left BASE_EXPAND (by decide)
      have hmul := Nat.mul_le_mul_left (chunkNumber * BASE_EXPAND) hone
      rw [Nat.pow_succ', ← Nat.mul_assoc] at hnum
      unfold BASE_EXPAND at *
      omega
    have hcall := callFits h hflag hinv.base_le h45
    have hslots := @chunkBase_slots env baseBuf tail s numBase chunkNumber h hflag hinv.base_le h45
    have hnext := @chunkBase_inv env newBuf baseBuf tail s pos chunkNumber hinv
    unfold expandCalls expandBase
    simp only
    generalize chunkBase env baseBuf tail s chunkNumber = c at *
    generalize (if i = 0 then probeInput env newBuf tail c.psHTable INPUT_TRY 0 c.cursorInput
      else (c.inputLink, probeAgain env c.psHTable c.inputLink 0)) = probe at *
    split
    case isTrue =>
      refine ⟨?_, hslots.total, hslots.cursor, hslots.inside⟩
      intro d hd
      rw [List.mem_singleton.mp hd]
      exact hcall
    case isFalse hgo =>
      rw [Bool.or_eq_true, not_or, Bool.not_eq_true', Bool.not_eq_false] at hgo
      obtain ⟨hcalls, hend⟩ := @ih (i + 1) (chunkNumber * BASE_EXPAND) (numBase + chunkNumber)
        { c with inputLink := probe.1, probeMatch := probe.2 }
        ⟨hnext.pos_le, hnext.base_le, hnext.table, hnext.flag1, hnext.flag2, hnext.written⟩
        ⟨hslots.total, hslots.cursor, hslots.inside⟩ hgo.2
        (by rw [Nat.mul_assoc, ← Nat.pow_succ']; exact hnum)
      constructor
      · intro d hd
        rcases List.mem_cons.mp hd with rfl | hd
        · exact hcall
        · exact hcalls d hd
      · unfold slots at hend ⊢
        rw [List.map_cons, List.sum_cons, ← Nat.add_assoc]
        exact hend

/-- Matching and appending leave the chunking flag and the table, and never take the base cursor
back. -/
structure CursorStep (s s' : EncState) : Prop where
  flagChunk : s'.flagChunk = s.flagChunk
  table : s'.psHTable = s.psHTable
  cursor : s.cursorBase ≤ s'.cursorBase

theorem CursorStep.trans {s s' s'' : EncState} (h : CursorStep s s') (h' : CursorStep s' s'') :
    CursorStep s s'' :=
  ⟨h'.flagChunk.trans h.flagChunk, h'.table.trans h.table, Nat.le_trans h.cursor h'.cursor⟩

theorem CursorStep.setInputPos {s s' : EncState} (h : CursorStep s s') (pos : Nat) :
    CursorStep s { s' with inputPos := pos } :=
  ⟨h.flagChunk, h.table, h.cursor⟩

theorem appendLiteral_cursor (s : EncState) (length : Nat) :
    CursorStep s (appendLiteral newBuf s length) := by
  unfold appendLiteral
  split
  · exact ⟨rfl, rfl, Nat.le_refl _⟩
  · exact ⟨rfl, rfl, Nat.le_refl _⟩

theorem emitMatch_cursor (s : EncState) (dup : DeltaRecord) (length : Nat) :
    CursorStep s (emitMatch newBuf baseBuf tail s dup length) := by
  have hpatch : CursorStep s (patchLiteral s) := by
    unfold patchLiteral
    split
    · exact ⟨rfl, rfl, Nat.le_refl _⟩
    · exact ⟨rfl, rfl, Nat.le_refl _⟩
  unfold emitMatch
  apply hpatch.trans
  generalize patchLiteral s = p
  simp only
  split
  · unfold shrinkLiteral writeUnit1
    simp only
    split
    · exact ⟨rfl, rfl, Nat.le_max_left _ _⟩
    · exact ⟨rfl, rfl, Nat.le_max_left _ _⟩
  · exact ⟨rfl, rfl, Nat.le_max_left _ _⟩

theorem matchString_cursor (s : EncState) (dup : DeltaRecord) (length : Nat) :
    CursorStep s (matchString newBuf baseBuf tail s dup length) := by
  unfold matchString
  split
  · exact emitMatch_cursor s dup length
  · exact appendLiteral_cursor s length

theorem handleProbe_cursor (links : List DeltaRecord) (i : Nat) (s : EncState) :
    CursorStep s (handleProbe newBuf baseBuf tail links i s).1 := by
  induction links generalizing i s with
  | nil => exact ⟨rfl, rfl, Nat.le_refl _⟩
  | cons link links ih =>
    have hskip : CursorStep s (skipProbe newBuf s link.nLength) := by
      have happ := @appendLiteral_cursor newBuf
        { s with cursorInput := link.nLength + s.inputPos } link.nLength
      exact ⟨happ.flagChunk, happ.table, happ.cursor⟩
    have hrec := ih (i + 1) (skipProbe newBuf s link.nLength)
    have hrest : CursorStep s
        (handleProbe newBuf baseBuf tail links (i + 1) (skipProbe newBuf s link.nLength)).1 :=
      hskip.trans hrec
    unfold handleProbe
    split
    · split
      · have hstart : CursorStep s
            { s with cursorInput := link.nLength + s.inputPos, flagHandleProbe := false } :=
          ⟨rfl, rfl, Nat.le_refl _⟩
        exact hstart.trans (matchString_cursor _ _ _)
      · exact hrest
    · exact hrest

theorem encodeString_cursor (s : EncState) :
    CursorStep s (encodeString env newBuf baseBuf tail s) := by
  unfold encodeString
  simp only
  generalize chunkGear (newBuf.drop s.inputPos) (newBuf.length - s.inputPos - tail) = length
  have hstart : CursorStep s { s with cursorInput := length + s.inputPos } :=
    ⟨rfl, rfl, Nat.le_refl _⟩
  split
  · exact hstart.trans (matchString_cursor _ _ length)
  · exact hstart.trans (appendLiteral_cursor _ length)

/-- After its probing a pass only moves the base cursor ahead. -/
theorem encodePass_cursor (s : EncState) :
    CursorStep (encodeProbe env newBuf baseBuf tail s) (encodePass env newBuf baseBuf tail s) := by
  unfold encodePass
  generalize encodeProbe env newBuf baseBuf tail s = p
  simp only
  cases p.flagHandleProbe with
  | true =>
    have hhandle := @handleProbe_cursor newBuf baseBuf tail p.inputLink 0 p
    simp only [if_true]
    generalize handleProbe newBuf baseBuf tail p.inputLink 0 p = r at *
    have hstring := @encodeString_cursor env newBuf baseBuf tail r.1
    split
    · exact hhandle.setInputPos _
    · exact (hhandle.trans hstring).setInputPos _
  | false =>
    simp only [Bool.false_eq_true, if_false]
    exact (encodeString_cursor p).setInputPos _

theorem slotsInv_cursor {baseSize numBase : Nat} {s s' : EncState}
    (h : SlotsInv baseSize tail numBase s) (hstep : CursorStep s s') :
    SlotsInv baseSize tail numBase s' := by
  refine ⟨h.total, ?_, ?_⟩
  · intro hflag
    rw [hstep.flagChunk] at hflag
    exact Nat.le_trans (h.cursor hflag) (Nat.add_le_add_right hstep.cursor 12)
  · intro hflag hlt
    rw [hstep.flagChunk] at hflag
    have hle := hstep.cursor
    exact Nat.le_trans (h.inside hflag (by omega)) hle

/-- One pass: its calls fit, and the invariants hold after it. -/
theorem encodePass_slots {s : EncState} {numBase : Nat} (hinv : LoopInv newBuf baseBuf tail s)
    (h : SlotsInv baseBuf.length tail numBase s) :
    (∀ c ∈ passCalls env newBuf baseBuf tail numBase s, CallFits baseBuf tail c) ∧
      SlotsInv baseBuf.length tail (numBase + slots (passCalls env newBuf baseBuf tail numBase s))
        (encodePass env newBuf baseBuf tail s) := by
  have hcursor := @encodePass_cursor env newBuf baseBuf tail s
  have hin := hinv.inv
  unfold passCalls
  unfold encodeProbe at hcursor
  by_cases hasks : asks env newBuf baseBuf s = true
  · have hflag : s.flagChunk = true := by
      unfold asks at hasks
      exact (Bool.and_eq_true_iff.mp hasks).1
    obtain ⟨hcalls, hend⟩ := @expandBase_slots env newBuf baseBuf tail BASE_STEP 0 BASE_BEGIN numBase
      s.inputPos { s with flagHandleProbe := true, probeMatch := none }
      ⟨hin.pos_le, hin.base_le, hin.table, hin.flag1, hin.flag2, hin.written⟩
      ⟨h.total, h.cursor, h.inside⟩ hflag (by decide)
    rw [if_pos hasks]
    unfold asks at hasks
    rw [if_pos hasks] at hcursor
    exact ⟨hcalls, slotsInv_cursor hend hcursor⟩
  · rw [if_neg hasks]
    unfold asks at hasks
    rw [if_neg hasks] at hcursor
    exact ⟨fun c hc => absurd hc (List.not_mem_nil), slotsInv_cursor h hcursor⟩

/-- The whole loop: every call of it fits, and the base cursor stays in front of the tail. -/
theorem loopCalls_fit (hnew : newBuf.length ≤ MAX_CHUNK_SIZE)
    (hbase : baseBuf.length ≤ MAX_CHUNK_SIZE) {fuel numBase : Nat} {s : EncState}
    (hinv : LoopInv newBuf baseBuf tail s) (h : SlotsInv baseBuf.length tail numBase s) :
    (∀ c ∈ loopCalls env newBuf baseBuf tail fuel numBase s, CallFits baseBuf tail c) ∧
      ∀ t ∈ loopStates env newBuf baseBuf tail fuel s, t.cursorBase + tail ≤ baseBuf.length := by
  induction fuel generalizing numBase s with
  | zero =>
    refine ⟨fun c hc => absurd hc (List.not_mem_nil), ?_⟩
    intro t ht
    rw [List.mem_singleton.mp ht]
    exact hinv.inv.base_le
  | succ fuel ih =>
    unfold loopCalls loopStates
    split
    case isTrue hlt =>
      obtain ⟨hcalls, hslots⟩ := @encodePass_slots env newBuf baseBuf tail s numBase hinv h
      obtain ⟨hrest, hstates⟩ := ih
        (@encodePass_inv env newBuf baseBuf tail hnew hbase s hinv hlt).1 hslots
      constructor
      · intro c hc
        rcases List.mem_append.mp hc with hc | hc
        · exact hcalls c hc
        · exact hrest c hc
      · intro t ht
        rcases List.mem_cons.mp ht with rfl | ht
        · exact hinv.inv.base_le
        · exact hstates t ht
    case isFalse =>
      refine ⟨fun c hc => absurd hc (List.not_mem_nil), ?_⟩
      intro t ht
      rw [List.mem_singleton.mp ht]
      exact hinv.inv.base_le

end Bounds

/-- The main loop ends; no call writes past the slots of `BaseLink_` or the 1024 cut points of
`cutEdelta_`; and the base cursor never passes the tail, neither between passes nor after a call. -/
theorem EDeltaEncode_tables (env : EDeltaEnv) {newBuf baseBuf : Bytes}
    (hnew : newBuf.length ≤ MAX_CHUNK_SIZE) (hbase : baseBuf.length ≤ MAX_CHUNK_SIZE) :
    let beg := begSize newBuf baseBuf
    let tail := endSize newBuf baseBuf
    (beg + tail < baseBuf.length →
      newBuf.length - tail ≤
          (encodeLoop env newBuf baseBuf tail newBuf.length (encodeInit beg)).inputPos ∧
        ∀ s ∈ loopStates env newBuf baseBuf tail newBuf.length (encodeInit beg),
          s.cursorBase ≤ baseBuf.length - tail) ∧
      ∀ c ∈ encodeCalls env newBuf baseBuf,
        c.numBase + c.chunkNumber ≤ MAX_CHUNK_SIZE / STRMIN + 50 ∧
          (callCuts baseBuf tail c).length ≤ 1024 ∧
          c.cursorBase + (callCuts baseBuf tail c).getLastD 0 ≤ baseBuf.length - tail := by
  have hhead := @headSize_le newBuf baseBuf
  have hbeg := @begSize_le newBuf baseBuf
  obtain ⟨-, -, -, hinit⟩ := encodeInit_inv hbase (@endSize_le newBuf baseBuf).2
    (show begSize newBuf baseBuf ≤ baseBuf.length by omega) beg_eq
  have hslots : SlotsInv baseBuf.length (endSize newBuf baseBuf) 0
      (encodeInit (begSize newBuf baseBuf)) :=
    ⟨Nat.zero_le _, fun _ => Nat.zero_le _, fun _ _ => Nat.zero_le _⟩
  unfold encodeCalls
  simp only
  generalize begSize newBuf baseBuf = beg at *
  generalize endSize newBuf baseBuf = tail at *
  constructor
  · intro hlt
    obtain ⟨hinv, -⟩ := hinit (Nat.le_of_lt hlt)
    have hend := (@encodeLoop_inv env _ _ _ hnew hbase newBuf.length _ hinv (Nat.le_add_left _ _)).2
    refine ⟨by omega, fun s hs => ?_⟩
    have hle := (@loopCalls_fit env _ _ _ hnew hbase newBuf.length 0 _ hinv hslots).2 s hs
    omega
  · intro c hc
    by_cases hsmall : baseBuf.length ≤ beg + tail
    · rw [if_pos hsmall] at hc
      exact absurd hc List.not_mem_nil
    · rw [if_neg hsmall] at hc
      obtain ⟨hinv, -⟩ := hinit (by omega)
      have hfits := (@loopCalls_fit env _ _ _ hnew hbase newBuf.length 0 _ hinv hslots).1 c hc
      have hcount := hfits.slots
      have hcuts := hfits.cuts
      have hinside := hfits.inside
      unfold MAX_CHUNK_SIZE STRMIN at *
      exact ⟨by omega, by omega, by omega⟩

/-- Two calls against an unrelated base: the burst of fifteen finds its end. -/
theorem EDeltaEncode_tables_replicate :
    encodeCalls sumEnv (List.replicate 70 2) (List.replicate 70 1) ≠ [] ∧
      ∀ c ∈ encodeCalls sumEnv (List.replicate 70 2) (List.replicate 70 1),
        c.numBase + c.chunkNumber ≤ MAX_CHUNK_SIZE / STRMIN + 50 :=
  ⟨by decide +kernel,
    fun c hc => ((EDeltaEncode_tables sumEnv (by decide) (by decide)).2 c hc).1⟩

end ShieldReduce.EDelta
