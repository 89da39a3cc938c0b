import Mathlib.Algebra.BigOperators.Group.List.Basic
import ShieldReduce.Lib.Cuts
import ShieldReduce.Prototype.HandOver

/-!
# FastCDC

The client cuts a file into chunks where a rolling sum of gear values meets a mask. It reads the
file through a buffer of `readSize_` bytes, and reads again from the last cut when less than a
chunk of the largest size is left in it.
-/

namespace ShieldReduce.Prototype
open Lib Store EDelta

section Configuration

/-- The `ChunkerConfig` that FastCDC uses. -/
structure ChunkerConfig where
  maxChunkSize : UInt64
  minChunkSize : UInt64
  avgChunkSize : UInt64
  readSize : UInt64

/-- What `ChunkerInit` has set up for FastCDC, and checked. -/
structure Chunker where
  avgChunkSize : UInt64
  minChunkSize : UInt64
  maxChunkSize : UInt64
  readSize : UInt64
  bits : UInt32
  min_lt : minChunkSize < avgChunkSize
  lt_max : avgChunkSize < maxChunkSize

/-- `ChunkerInit`, up to its `exit`s; `log2` is the rounded logarithm of the C library. -/
def ChunkerInit (log2 : UInt64 → UInt32) (config : ChunkerConfig) : Option Chunker :=
  if hmin : config.minChunkSize ≥ config.avgChunkSize ∨
      config.minChunkSize ≥ config.maxChunkSize then none
  else if hmax : config.maxChunkSize ≤ config.avgChunkSize ∨
      config.maxChunkSize ≤ config.minChunkSize then none
  else some {
    avgChunkSize := config.avgChunkSize
    minChunkSize := config.minChunkSize
    maxChunkSize := config.maxChunkSize
    readSize := config.readSize * (1024 * 1024)
    bits := log2 config.avgChunkSize
    min_lt := UInt64.not_le.mp fun h => hmin (.inl h)
    lt_max := UInt64.not_le.mp fun h => hmax (.inl h) }

def DivCeil (a b : UInt32) : UInt32 :=
  let tmp := a / b
  if a % b = 0 then tmp else tmp + 1

def CompareLimit (input lower upper : UInt32) : UInt32 :=
  if input ≤ lower then lower else if input ≥ upper then upper else input

def CalNormalSize (min av max : UInt32) : UInt32 :=
  let off := min + DivCeil min 2
  let off := if off > av then av else off
  let diff := av - off
  if diff > max then max else diff

def GenerateFastCDCMask (bits : UInt32) : UInt32 := (1 <<< CompareLimit bits 1 31) - 1

namespace Chunker

def GEAR : Array UInt32 := #[
  0x5C95C078, 0x22408989, 0x2D48A214, 0x12842087, 0x530F8AFB, 0x474536B9, 0x2963B4F1, 0x44CB738B,
  0x4EA7403D, 0x4D606B6E, 0x074EC5D3, 0x3AF39D18, 0x726003CA, 0x37A62A74, 0x51A2F58E, 0x7506358E,
  0x5D4AB128, 0x4D4AE17B, 0x41E85924, 0x470C36F7, 0x4741CBE1, 0x01BB7F30, 0x617C1DE3, 0x2B0C3A1F,
  0x50C48F73, 0x21A82D37, 0x6095ACE0, 0x419167A0, 0x3CAF49B0, 0x40CEA62D, 0x66BC1C66, 0x545E1DAD,
  0x2BFA77CD, 0x6E85DA24, 0x5FB0BDC5, 0x652CFC29, 0x3A0AE1AB, 0x2837E0F3, 0x6387B70E, 0x13176012,
  0x4362C2BB, 0x66D8F4B1, 0x37FCE834, 0x2C9CD386, 0x21144296, 0x627268A8, 0x650DF537, 0x2805D579,
  0x3B21EBBD, 0x7357ED34, 0x3F58B583, 0x7150DDCA, 0x7362225E, 0x620A6070, 0x2C5EF529, 0x7B522466,
  0x768B78C0, 0x4B54E51E, 0x75FA07E5, 0x06A35FC6, 0x30B71024, 0x1C8626E1, 0x296AD578, 0x28D7BE2E,
  0x1490A05A, 0x7CEE43BD, 0x698B56E3, 0x09DC0126, 0x4ED6DF6E, 0x02C1BFC7, 0x2A59AD53, 0x29C0E434,
  0x7D6C5278, 0x507940A7, 0x5EF6BA93, 0x68B6AF1E, 0x46537276, 0x611BC766, 0x155C587D, 0x301BA847,
  0x2CC9DDA7, 0x0A438E2C, 0x0A69D514, 0x744C72D3, 0x4F326B9B, 0x7EF34286, 0x4A0EF8A7, 0x6AE06EBE,
  0x669C5372, 0x12402DCB, 0x5FEAE99D, 0x76C7F4A7, 0x6ABDB79C, 0x0DFAA038, 0x20E2282C, 0x730ED48B,
  0x069DAC2F, 0x168ECF3E, 0x2610E61F, 0x2C512C8E, 0x15FB8C06, 0x5E62BC76, 0x69555135, 0x0ADB864C,
  0x4268F914, 0x349AB3AA, 0x20EDFDB2, 0x51727981, 0x37B4B3D8, 0x5DD17522, 0x6B2CBFE4, 0x5C47CF9F,
  0x30FA1CCD, 0x23DEDB56, 0x13D1F50A, 0x64EDDEE7, 0x0820B0F7, 0x46E07308, 0x1E2D1DFD, 0x17B06C32,
  0x250036D8, 0x284DBF34, 0x68292EE0, 0x362EC87C, 0x087CB1EB, 0x76B46720, 0x104130DB, 0x71966387,
  0x482DC43F, 0x2388EF25, 0x524144E1, 0x44BD834E, 0x448E7DA3, 0x3FA6EAF9, 0x3CDA215C, 0x3A500CF3,
  0x395CB432, 0x5195129F, 0x43945F87, 0x51862CA4, 0x56EA8FF1, 0x201034DC, 0x4D328FF5, 0x7D73A909,
  0x6234D379, 0x64CFBF9C, 0x36F6589A, 0x0A2CE98A, 0x5FE4D971, 0x03BC15C5, 0x44021D33, 0x16C1932B,
  0x37503614, 0x1ACAF69D, 0x3F03B779, 0x49E61A03, 0x1F52D7EA, 0x1C6DDD5C, 0x062218CE, 0x07E7A11A,
  0x1905757A, 0x7CE00A53, 0x49F44F29, 0x4BCC70B5, 0x39FEEA55, 0x5242CEE8, 0x3CE56B85, 0x00B81672,
  0x46BEECCC, 0x3CA0AD56, 0x2396CEE8, 0x78547F40, 0x6B08089B, 0x66A56751, 0x781E7E46, 0x1E2CF856,
  0x3BC13591, 0x494A4202, 0x520494D7, 0x2D87459A, 0x757555B6, 0x42284CC1, 0x1F478507, 0x75C95DFF,
  0x35FF8DD7, 0x4E4757ED, 0x2E11F88C, 0x5E1B5048, 0x420E6699, 0x226B0695, 0x4D1679B4, 0x5A22646F,
  0x161D1131, 0x125C68D9, 0x1313E32E, 0x4AA85724, 0x21DC7EC1, 0x4FFA29FE, 0x72968382, 0x1CA8EEF3,
  0x3F3B1C28, 0x39C2FB6C, 0x6D76493F, 0x7A22A62E, 0x789B1C2A, 0x16E0CB53, 0x7DECEEEB, 0x0DC7E1C6,
  0x5C75BF3D, 0x52218333, 0x106DE4D6, 0x7DC64422, 0x65590FF4, 0x2C02EC30, 0x64A9AC67, 0x59CAB2E9,
  0x4A21D2F3, 0x0F616E57, 0x23B54EE8, 0x02730AAA, 0x2F3C634D, 0x7117FC6C, 0x01AC6F05, 0x5A9ED20C,
  0x158C4E2A, 0x42B699F0, 0x0C7C14B3, 0x02BD9641, 0x15AD56FC, 0x1C722F60, 0x7DA1AF91, 0x23E0DBCB,
  0x0E93E12B, 0x64B2791D, 0x440D2476, 0x588EA8DD, 0x4665A658, 0x7446C418, 0x1877A774, 0x5626407E,
  0x7F63BD46, 0x32D2DBD8, 0x3C790F4A, 0x772B7239, 0x6F8B2826, 0x677FF609, 0x0DC82C11, 0x23FFE354,
  0x2EAC53A6, 0x16139E09, 0x0AFD0DBC, 0x2A4D4237, 0x56A368C7, 0x234325E4, 0x2DCE9187, 0x32E8EA7E]

variable (ch : Chunker)

def normalSize : UInt32 :=
  CalNormalSize ch.minChunkSize.toUInt32 ch.avgChunkSize.toUInt32 ch.maxChunkSize.toUInt32

def maskS : UInt32 := GenerateFastCDCMask (ch.bits + 1)

def maskL : UInt32 := GenerateFastCDCMask (ch.bits - 1)

/-- `fp = (fp >> 1) + GEAR[b]` -/
def gearStep (fp : UInt32) (b : UInt8) : UInt32 := (fp >>> 1) + GEAR.getD b.toNat 0

/-- One of the two loops of `CutPoint`: the length it returns, or its `i` and `fp` at the end. -/
def cutLoop (mask : UInt32) (src : Bytes) (n i : Nat) (fp : UInt32) : Nat ⊕ Nat × UInt32 :=
  if i < n then
    let fp := gearStep fp (src.getD i 0)
    if fp &&& mask = 0 then .inl (i + 1) else cutLoop mask src n (i + 1) fp
  else .inr (i, fp)
termination_by n - i

def CutPoint (src : Bytes) (len : Nat) : Nat :=
  let i := min len ch.minChunkSize.toUInt32.toNat
  let n := min ch.normalSize.toNat len
  match cutLoop ch.maskS src n i 0 with
  | .inl length => length
  | .inr (i, fp) =>
    let n := min ch.maxChunkSize.toUInt32.toNat len
    match cutLoop ch.maskL src n i fp with
    | .inl length => length
    | .inr (i, _) => i

end Chunker

end Configuration

section FastCDC

/-- A file, as long as the positions of an `ifstream` reach. -/
structure ChunkingFile where
  data : Bytes
  fits : data.length < 2 ^ 63

structure RecipeHead where
  fileSize : UInt64
  totalChunkNum : UInt64

def le64 (w : UInt64) : Bytes := le32 w.toUInt32 ++ le32 (w >>> 32).toUInt32

def RecipeHead.toBytes (recipeHead : RecipeHead) : FileRecipeHead :=
  ⟨le64 recipeHead.fileSize ++ le64 recipeHead.totalChunkNum, by simp [le64, le32_length]⟩

/-- The counters of `FastCDC`, and what it has pushed. -/
structure Chunking where
  fileSize : UInt64
  chunkIDCnt : UInt64
  outputMQ : List Data

def Chunking.push (s : Chunking) (chunk : ChunkData) : Chunking where
  fileSize := s.fileSize + UInt64.ofNat chunk.data.length
  chunkIDCnt := s.chunkIDCnt + 1
  outputMQ := s.outputMQ ++ [.DATA_CHUNK chunk]

namespace Chunker
variable (ch : Chunker)

/-- The inner loop on a buffer that holds `len` bytes. `CutPoint` takes a length of 32 bits, and a
chunk has room for `MAX_CHUNK_SIZE` bytes; a copy past it is no chunk any more. -/
def chunkBuffer (waitingForChunkingBuffer : Bytes) (len : Nat) (fileEnd : Bool) :
    Nat → Nat → Chunking → Option (Nat × Chunking)
  | 0, _, _ => none
  | fuel + 1, localOffset, s =>
    if len - localOffset ≥ ch.maxChunkSize.toNat ∨ (fileEnd ∧ localOffset < len) then
      let src := waitingForChunkingBuffer.drop localOffset
      let cp := ch.CutPoint src ((len - localOffset) % 2 ^ 32)
      if hfits : cp ≤ MAX_CHUNK_SIZE then
        let tempChunk : ChunkData := ⟨src.take cp, (List.length_take_le _ _).trans hfits⟩
        chunkBuffer waitingForChunkingBuffer len fileEnd fuel (localOffset + cp) (s.push tempChunk)
      else none
    else some (localOffset, s)

/-- The outer loop, from a read at `totalOffset`. -/
def chunkFile (chunkingFile : ChunkingFile) : Nat → Nat → Chunking → Option Chunking
  | 0, _, _ => none
  | fuel + 1, totalOffset, s =>
    let f : InFile := ⟨chunkingFile.data.drop totalOffset, false⟩
    let len := f.gcount ch.readSize.toNat
    let (waitingForChunkingBuffer, f) :=
      f.read (List.replicate ch.readSize.toNat 0) ch.readSize.toNat
    if len = 0 then some s
    else
      match ch.chunkBuffer waitingForChunkingBuffer len f.eof fuel 0 s with
      | none => none
      | some (localOffset, s) =>
        if f.eof then some s else chunkFile chunkingFile fuel (totalOffset + localOffset) s

/-- What `FastCDC` pushes. -/
def FastCDC (chunkingFile : ChunkingFile) (fuel : Nat) : Option (List Data) :=
  (ch.chunkFile chunkingFile fuel 0 ⟨0, 0, []⟩).map fun s =>
    s.outputMQ ++ [.RECIPE_END (RecipeHead.toBytes ⟨s.fileSize, s.chunkIDCnt⟩)]

end Chunker

end FastCDC

section CutPoint
variable {ch : Chunker}

theorem calNormalSize_le (min av max : UInt32) : CalNormalSize min av max ≤ max := by
  unfold CalNormalSize
  dsimp only
  generalize av - (if min + DivCeil min 2 > av then av else min + DivCeil min 2) = diff
  split
  case isTrue => exact UInt32.le_refl max
  case isFalse h => exact UInt32.not_lt.mp h

theorem normalSize_le : ch.normalSize.toNat ≤ ch.maxChunkSize.toUInt32.toNat :=
  UInt32.le_iff_toNat_le.mp (calNormalSize_le _ _ _)

/-- A loop ends with a cut behind `i`, or at `n`. -/
theorem cutLoop_bounds (mask : UInt32) (src : Bytes) (n i : Nat) (fp : UInt32) :
    match Chunker.cutLoop mask src n i fp with
    | .inl length => i < length ∧ length ≤ n
    | .inr (i', _) => i' = max i n := by
  fun_induction Chunker.cutLoop mask src n i fp with
  | case1 i fp hlt fp' hcut => exact ⟨by omega, by omega⟩
  | case2 i fp hlt fp' hcut ih =>
    split at ih
    · exact ⟨by omega, ih.2⟩
    · omega
  | case3 i fp hge =>
    dsimp only
    omega

/-- A loop reads what stands before `n`. -/
theorem cutLoop_congr {mask : UInt32} {src src' : Bytes} {n i : Nat} {fp : UInt32}
    (h : ∀ j, j < n → src.getD j 0 = src'.getD j 0) :
    Chunker.cutLoop mask src n i fp = Chunker.cutLoop mask src' n i fp := by
  fun_induction Chunker.cutLoop mask src n i fp with
  | case1 i fp hlt fp' hcut =>
    unfold Chunker.cutLoop
    rw [if_pos hlt, ← h i hlt]
    exact (if_pos hcut).symm
  | case2 i fp hlt fp' hcut ih =>
    rw [ih]
    conv_rhs => unfold Chunker.cutLoop
    rw [if_pos hlt, ← h i hlt]
    exact (if_neg hcut).symm
  | case3 i fp hge =>
    unfold Chunker.cutLoop
    rw [if_neg hge]

theorem cutPoint_bounds (src : Bytes) (len : Nat) :
    let low := min len ch.minChunkSize.toUInt32.toNat
    let high := min ch.maxChunkSize.toUInt32.toNat len
    low ≤ ch.CutPoint src len ∧ ch.CutPoint src len ≤ max low high ∧
      (0 < high → 0 < ch.CutPoint src len) := by
  intro low high
  have hnormal := @normalSize_le ch
  have hfirst := cutLoop_bounds ch.maskS src (min ch.normalSize.toNat len) low 0
  unfold Chunker.CutPoint
  dsimp only
  split
  case h_1 length heq =>
    rw [heq] at hfirst
    obtain ⟨hlt, hle⟩ := hfirst
    exact ⟨by omega, by omega, by omega⟩
  case h_2 i fp heq =>
    rw [heq] at hfirst
    dsimp only at hfirst
    have hsecond := cutLoop_bounds ch.maskL src high i fp
    split
    case h_1 length heq' =>
      rw [heq'] at hsecond
      obtain ⟨hlt, hle⟩ := hsecond
      exact ⟨by omega, by omega, by omega⟩
    case h_2 i' fp' heq' =>
      rw [heq'] at hsecond
      dsimp only at hsecond
      exact ⟨by omega, by omega, by omega⟩

/-- `CutPoint` looks at the first `maxChunkSize_` bytes, and at the length as far as they reach. -/
theorem cutPoint_congr {src src' : Bytes} {len len' : Nat}
    (hmin : min len ch.minChunkSize.toUInt32.toNat = min len' ch.minChunkSize.toUInt32.toNat)
    (hmax : min ch.maxChunkSize.toUInt32.toNat len = min ch.maxChunkSize.toUInt32.toNat len')
    (h : ∀ j, j < min ch.maxChunkSize.toUInt32.toNat len → src.getD j 0 = src'.getD j 0) :
    ch.CutPoint src len = ch.CutPoint src' len' := by
  have hnormal := @normalSize_le ch
  have hnormals : min ch.normalSize.toNat len = min ch.normalSize.toNat len' := by omega
  unfold Chunker.CutPoint
  dsimp only
  rw [@cutLoop_congr _ src src' _ _ _ fun j hj => h j (by omega), hmin, hnormals]
  split
  · rfl
  · rw [@cutLoop_congr _ src src' _ _ _ h, hmax]

end CutPoint

section Windows
variable {ch : Chunker}

/-- `CutPoint` on all that is left of a file. -/
def Chunker.cut (ch : Chunker) (rest : Bytes) : Nat := ch.CutPoint rest rest.length

/-- A cut that goes forward, fits into a `Chunk_t`, and leaves a chunk that is long enough unless it
is the last one. -/
def Chunker.CutOk (ch : Chunker) (rest : Bytes) (cp : Nat) : Prop :=
  0 < cp ∧ cp ≤ MAX_CHUNK_SIZE ∧ (cp < rest.length → ch.minChunkSize.toNat ≤ cp)

/-- `FastCDC` cuts what is left of a file, of which its buffer has the front. -/
structure Window (ch : Chunker) (rest waitingForChunkingBuffer : Bytes) (len : Nat)
    (fileEnd : Bool) : Prop where
  len_eq : len = min ch.readSize.toNat rest.length
  fileEnd_iff : fileEnd = true ↔ rest.length < ch.readSize.toNat
  front : waitingForChunkingBuffer.take len = rest.take len

theorem min_truncated : ch.minChunkSize.toUInt32.toNat ≤ ch.maxChunkSize.toNat := by
  have hmin := UInt64.lt_iff_toNat_lt.mp ch.min_lt
  have hmax := UInt64.lt_iff_toNat_lt.mp ch.lt_max
  rw [UInt64.toNat_toUInt32]
  omega

theorem max_truncated : ch.maxChunkSize.toUInt32.toNat ≤ ch.maxChunkSize.toNat := by
  rw [UInt64.toNat_toUInt32]
  exact Nat.mod_le _ _

theorem cut_le_length (rest : Bytes) : ch.cut rest ≤ rest.length := by
  obtain ⟨-, hle, -⟩ := @cutPoint_bounds ch rest rest.length
  unfold Chunker.cut
  omega

theorem cut_le_max (rest : Bytes) : ch.cut rest ≤ ch.maxChunkSize.toNat := by
  have hmin := @min_truncated ch
  have hmax := @max_truncated ch
  obtain ⟨-, hle, -⟩ := @cutPoint_bounds ch rest rest.length
  unfold Chunker.cut
  omega

/-- Where the buffer holds a chunk of the largest size, or all that is left, `CutPoint` says of the
buffer what it says of the file. -/
theorem Window.cutPoint {rest buffer : Bytes} {len : Nat} {fileEnd : Bool}
    (hw : Window ch rest buffer len fileEnd) (hsmall : len < 2 ^ 32) {localOffset : Nat}
    (hcut : len - localOffset ≥ ch.maxChunkSize.toNat ∨ (fileEnd ∧ localOffset < len)) :
    ch.CutPoint (buffer.drop localOffset) ((len - localOffset) % 2 ^ 32) =
      ch.cut (rest.drop localOffset) := by
  have hmin := @min_truncated ch
  have hmax := @max_truncated ch
  have hlen := hw.len_eq
  have hend := hw.fileEnd_iff
  have hall : ch.maxChunkSize.toNat ≤ len - localOffset ∨ len = rest.length := by
    rcases hcut with hbig | ⟨hlast, -⟩
    · exact .inl hbig
    · have := hend.mp hlast
      exact .inr (by omega)
  have hdrop : (rest.drop localOffset).length = rest.length - localOffset := List.length_drop
  rw [Nat.mod_eq_of_lt (by omega)]
  unfold Chunker.cut
  apply cutPoint_congr
  · rw [hdrop]
    omega
  · rw [hdrop]
    omega
  · intro j hj
    have hbuf : (buffer.take len)[localOffset + j]? = (rest.take len)[localOffset + j]? := by
      rw [hw.front]
    rw [List.getElem?_take_of_lt (by omega), List.getElem?_take_of_lt (by omega)] at hbuf
    rw [List.getD_eq_getElem?_getD, List.getD_eq_getElem?_getD, List.getElem?_drop,
      List.getElem?_drop, hbuf]

theorem Window.take {rest buffer : Bytes} {len : Nat} {fileEnd : Bool}
    (hw : Window ch rest buffer len fileEnd) {localOffset cp : Nat}
    (hcp : localOffset + cp ≤ len) :
    (buffer.drop localOffset).take cp = (rest.drop localOffset).take cp := by
  have htake : ∀ xs : Bytes, (xs.drop localOffset).take cp =
      ((xs.take len).drop localOffset).take cp := by
    intro xs
    rw [List.drop_take, List.take_take, Nat.min_eq_left (by omega)]
  rw [htake buffer, hw.front, ← htake rest]

/-- The inner loop cuts as the file is cut, and leaves less than a chunk of the largest size; at the
end of the file it leaves nothing. -/
theorem chunkBuffer_cuts {rest buffer : Bytes} {len : Nat} {fileEnd : Bool}
    (hw : Window ch rest buffer len fileEnd) (hsmall : len < 2 ^ 32) (fuel : Nat)
    {localOffset : Nat} (s : Chunking) (hlocal : localOffset ≤ len)
    (hfuel : len - localOffset < fuel)
    (hcuts : EachCut ch.cut ch.CutOk (rest.drop localOffset)) :
    ∃ (localOffset' : Nat) (chunks : List ChunkData),
      ch.chunkBuffer buffer len fileEnd fuel localOffset s =
        some (localOffset', chunks.foldl Chunking.push s) ∧
      localOffset' ≤ len ∧ len - localOffset' < ch.maxChunkSize.toNat ∧
      (fileEnd = true → localOffset' = len) ∧
      CutTo ch.cut (rest.drop localOffset) (chunks.map ChunkData.data) (rest.drop localOffset') ∧
      EachCut ch.cut ch.CutOk (rest.drop localOffset') := by
  have hlen := hw.len_eq
  induction fuel generalizing localOffset s with
  | zero => exact absurd hfuel (Nat.not_lt_zero _)
  | succ fuel ih =>
    unfold Chunker.chunkBuffer
    by_cases hcond : len - localOffset ≥ ch.maxChunkSize.toNat ∨ (fileEnd ∧ localOffset < len)
    · have hpos : 0 < ch.maxChunkSize.toNat := by
        have := UInt64.lt_iff_toNat_lt.mp ch.lt_max
        omega
      have hne : rest.drop localOffset ≠ [] := by
        intro hnil
        have := congrArg List.length hnil
        rw [List.length_drop, List.length_nil] at this
        omega
      have hcp := hw.cutPoint hsmall hcond
      obtain ⟨hforward, hfits, -⟩ := hcuts.head hne
      have hinside : localOffset + ch.cut (rest.drop localOffset) ≤ len := by
        have hmax := @cut_le_max ch (rest.drop localOffset)
        have hrest := @cut_le_length ch (rest.drop localOffset)
        rw [List.length_drop] at hrest
        rcases hcond with hbig | ⟨hlast, -⟩
        · omega
        · have := hw.fileEnd_iff.mp hlast
          omega
      have htail := hcuts.tail hne
      rw [List.drop_drop] at htail
      rw [if_pos hcond]
      dsimp only
      rw [dif_pos (by rw [hcp]; exact hfits)]
      simp only [hcp, hw.take hinside]
      obtain ⟨localOffset', chunks, hrun, hle, hleft, hlast, hto, hlater⟩ :=
        ih (s.push ⟨(rest.drop localOffset).take (ch.cut (rest.drop localOffset)),
          (List.length_take_le _ _).trans hfits⟩) hinside (by omega) htail
      refine ⟨localOffset', _ :: chunks, hrun, hle, hleft, hlast, ?_, hlater⟩
      apply CutTo.step hne
      rw [List.drop_drop]
      exact hto
    · rw [if_neg hcond]
      refine ⟨localOffset, [], rfl, hlocal, by omega, ?_, .refl _, hcuts⟩
      intro hlast
      by_contra hne
      exact hcond (.inr ⟨hlast, by omega⟩)

/-- What the outer loop has in its buffer after a read. -/
theorem window_read (rest : Bytes) :
    let f : InFile := ⟨rest, false⟩
    let r := f.read (List.replicate ch.readSize.toNat 0) ch.readSize.toNat
    Window ch rest r.1 (f.gcount ch.readSize.toNat) r.2.eof := by
  intro f r
  have hcount : f.gcount ch.readSize.toNat = min ch.readSize.toNat rest.length :=
    if_neg Bool.false_ne_true
  have hfront : ∀ (buf x : Bytes), (memcpy buf 0 x).take x.length = x := InFile.take_memcpy_zero
  by_cases hfull : ch.readSize.toNat ≤ rest.length
  · have hread : r = (memcpy (List.replicate ch.readSize.toNat 0) 0 (rest.take ch.readSize.toNat),
        ⟨rest.drop ch.readSize.toNat, false⟩) := by
      change f.read _ _ = _
      unfold InFile.read
      rw [if_neg Bool.false_ne_true, if_pos hfull]
    have hlen : (rest.take ch.readSize.toNat).length = min ch.readSize.toNat rest.length :=
      List.length_take
    rw [hread, hcount]
    refine ⟨rfl, ?_, ?_⟩
    · constructor
      · intro h
        exact absurd h Bool.false_ne_true
      · intro h
        omega
    · rw [← hlen, hfront, hlen, Nat.min_eq_left hfull]
  · have hread : r = (memcpy (List.replicate ch.readSize.toNat 0) 0 rest, ⟨[], true⟩) := by
      change f.read _ _ = _
      unfold InFile.read
      rw [if_neg Bool.false_ne_true, if_neg hfull]
    rw [hread, hcount]
    refine ⟨rfl, ?_, ?_⟩
    · constructor
      · intro _
        omega
      · intro _
        rfl
    · rw [Nat.min_eq_right (by omega), hfront, List.take_length]

/-- The outer loop cuts what is left of the file. -/
theorem chunkFile_cuts (hread : ch.maxChunkSize ≤ ch.readSize) (chunkingFile : ChunkingFile)
    (fuel totalOffset : Nat) (s : Chunking)
    (hsmall : min ch.readSize.toNat (chunkingFile.data.drop totalOffset).length < 2 ^ 32)
    (hfuel : (chunkingFile.data.drop totalOffset).length + 1 < fuel)
    (hcuts : EachCut ch.cut ch.CutOk (chunkingFile.data.drop totalOffset)) :
    ∃ chunks : List ChunkData,
      ch.chunkFile chunkingFile fuel totalOffset s = some (chunks.foldl Chunking.push s) ∧
      CutTo ch.cut (chunkingFile.data.drop totalOffset) (chunks.map ChunkData.data) [] := by
  have hroom := UInt64.le_iff_toNat_le.mp hread
  have hpos := UInt64.lt_iff_toNat_lt.mp ch.lt_max
  induction fuel generalizing totalOffset s with
  | zero => exact absurd hfuel (Nat.not_lt_zero _)
  | succ fuel ih =>
    have hw := @window_read ch (chunkingFile.data.drop totalOffset)
    dsimp only at hw
    unfold Chunker.chunkFile
    dsimp only
    generalize InFile.gcount ⟨chunkingFile.data.drop totalOffset, false⟩ ch.readSize.toNat = len
      at hw ⊢
    generalize InFile.read ⟨chunkingFile.data.drop totalOffset, false⟩
      (List.replicate ch.readSize.toNat 0) ch.readSize.toNat = r at hw ⊢
    have hlen := hw.len_eq
    by_cases hnone : len = 0
    · have hnil : chunkingFile.data.drop totalOffset = [] :=
        List.length_eq_zero_iff.mp (by omega)
      rw [if_pos hnone, hnil]
      exact ⟨[], rfl, .refl _⟩
    · rw [if_neg hnone]
      obtain ⟨localOffset, chunks, hrun, hle, hleft, hlast, hto, hlater⟩ :=
        chunkBuffer_cuts hw (by omega) fuel s (Nat.zero_le len) (by omega) hcuts
      rw [hrun]
      rw [List.drop_zero] at hto
      dsimp only
      by_cases heof : r.2.eof = true
      · have hall : (chunkingFile.data.drop totalOffset).drop localOffset = [] := by
          have hshort := hw.fileEnd_iff.mp heof
          have hend := hlast heof
          apply List.drop_eq_nil_of_le
          omega
        rw [if_pos heof]
        rw [hall] at hto
        exact ⟨chunks, rfl, hto⟩
      · have hfull : len = ch.readSize.toNat := by
          have hlong : ¬(chunkingFile.data.drop totalOffset).length < ch.readSize.toNat :=
            fun h => heof (hw.fileEnd_iff.mpr h)
          omega
        have hdrop : (chunkingFile.data.drop totalOffset).drop localOffset =
            chunkingFile.data.drop (totalOffset + localOffset) := List.drop_drop
        have hnext := congrArg List.length hdrop
        rw [List.length_drop] at hnext
        rw [if_neg heof]
        rw [hdrop] at hto hlater
        obtain ⟨more, hmore, hrest⟩ :=
          ih (totalOffset + localOffset) (chunks.foldl Chunking.push s) (by omega) (by omega) hlater
        refine ⟨chunks ++ more, ?_, ?_⟩
        · rw [hmore, List.foldl_append]
        · rw [List.map_append]
          exact hto.trans hrest

/-- A buffer that holds 2 ^ 32 bytes or more is never cut below that: `CutPoint` does not see what is
above the last multiple of 2 ^ 32. -/
theorem chunkBuffer_stuck {buffer : Bytes} {len : Nat} {fileEnd : Bool} (fuel : Nat)
    {localOffset : Nat} (s : Chunking) (hbig : 2 ^ 32 ≤ len - localOffset) :
    ∀ localOffset' s', ch.chunkBuffer buffer len fileEnd fuel localOffset s =
      some (localOffset', s') → fileEnd = false ∧ 2 ^ 32 ≤ len - localOffset' := by
  intro localOffset' s' hrun
  induction fuel generalizing localOffset s with
  | zero => exact absurd hrun nofun
  | succ fuel ih =>
    unfold Chunker.chunkBuffer at hrun
    dsimp only at hrun
    split at hrun
    case isTrue =>
      split at hrun
      case isTrue =>
        obtain ⟨-, hle, -⟩ := @cutPoint_bounds ch (buffer.drop localOffset)
          ((len - localOffset) % 2 ^ 32)
        refine ih _ ?_ hrun
        omega
      case isFalse => exact absurd hrun nofun
    case isFalse hdone =>
      obtain ⟨rfl, -⟩ := Prod.ext_iff.mp (Option.some.inj hrun)
      refine ⟨?_, hbig⟩
      by_contra hend
      exact hdone (.inr ⟨Bool.eq_true_of_not_eq_false hend, by omega⟩)

theorem chunkFile_stuck (chunkingFile : ChunkingFile) (fuel totalOffset : Nat) (s : Chunking)
    (hbig : 2 ^ 32 ≤ min ch.readSize.toNat (chunkingFile.data.drop totalOffset).length) :
    ch.chunkFile chunkingFile fuel totalOffset s = none := by
  induction fuel generalizing totalOffset s with
  | zero => rfl
  | succ fuel ih =>
    have hw := @window_read ch (chunkingFile.data.drop totalOffset)
    dsimp only at hw
    unfold Chunker.chunkFile
    dsimp only
    generalize InFile.gcount ⟨chunkingFile.data.drop totalOffset, false⟩ ch.readSize.toNat = len
      at hw ⊢
    generalize InFile.read ⟨chunkingFile.data.drop totalOffset, false⟩
      (List.replicate ch.readSize.toNat 0) ch.readSize.toNat = r at hw ⊢
    have hlen := hw.len_eq
    rw [if_neg (by omega)]
    cases hrun : ch.chunkBuffer r.1 len r.2.eof fuel 0 s with
    | none => rfl
    | some out =>
      obtain ⟨hmore, hleft⟩ := chunkBuffer_stuck fuel s (by omega) out.1 out.2 hrun
      dsimp only
      rw [hmore, if_neg Bool.false_ne_true]
      apply ih
      rw [List.length_drop] at hlen ⊢
      omega

end Windows

section Chunks
variable {ch : Chunker}

/-- The chunks and the head are those of a file that is cut by `CutPoint` from its front to its
end. -/
structure ChunkedFile (ch : Chunker) (chunkingFile : ChunkingFile) (chunks : List ChunkData)
    (recipeHead : RecipeHead) : Prop where
  joined : (chunks.map ChunkData.data).flatten = chunkingFile.data
  least : ∀ chunk ∈ chunks.dropLast, ch.minChunkSize.toNat ≤ chunk.data.length
  most : ∀ chunk ∈ chunks, 0 < chunk.data.length ∧ chunk.data.length ≤ ch.maxChunkSize.toNat
  cuts : ∀ pieces, CutTo ch.cut chunkingFile.data pieces [] ↔ pieces = chunks.map ChunkData.data
  totalChunkNum : recipeHead.totalChunkNum.toNat = chunks.length
  fileSize : recipeHead.fileSize.toNat = chunkingFile.data.length

/-- `FastCDC` comes to its end, and has pushed the chunks of the file and then its head. -/
def Chunks (ch : Chunker) (chunkingFile : ChunkingFile) : Prop :=
  ∃ (fuel : Nat) (chunks : List ChunkData) (recipeHead : RecipeHead),
    ch.FastCDC chunkingFile fuel = some (chunkerData chunks recipeHead.toBytes) ∧
    ChunkedFile ch chunkingFile chunks recipeHead

theorem foldl_push (chunks : List ChunkData) (s : Chunking) :
    chunks.foldl Chunking.push s =
      ⟨s.fileSize + UInt64.ofNat (chunks.map ChunkData.data).flatten.length,
        s.chunkIDCnt + UInt64.ofNat chunks.length, s.outputMQ ++ chunks.map .DATA_CHUNK⟩ := by
  induction chunks generalizing s with
  | nil => simp
  | cons chunk chunks ih =>
    rw [List.foldl_cons, ih]
    unfold Chunking.push
    simp only [List.map_cons, List.flatten_cons, List.length_append, List.length_cons,
      UInt64.ofNat_add, UInt64.add_assoc, List.append_assoc, List.singleton_append]
    rw [UInt64.add_comm (UInt64.ofNat chunks.length)]
    rfl

/-- The pieces of a file that are sent are cuts that are in order. -/
theorem eachCut_of_pieces {rest : Bytes} {pieces : List Bytes} (h : CutTo ch.cut rest pieces [])
    (hleast : ∀ piece ∈ pieces.dropLast, ch.minChunkSize.toNat ≤ piece.length)
    (hmost : ∀ piece ∈ pieces, 0 < piece.length ∧ piece.length ≤ MAX_CHUNK_SIZE) :
    EachCut ch.cut ch.CutOk rest := by
  generalize hend : ([] : Bytes) = left at h
  induction h with
  | refl =>
    subst hend
    exact .done
  | @step rest pieces left hne hto ih =>
    have hlen : (rest.take (ch.cut rest)).length = ch.cut rest := by
      rw [List.length_take, Nat.min_eq_left (cut_le_length rest)]
    obtain ⟨hpos, hfits⟩ := hmost _ (List.mem_cons_self ..)
    rw [hlen] at hpos hfits
    refine .step hne ⟨hpos, hfits, ?_⟩ (ih ?_ ?_ hend)
    · intro hmore
      have hpieces : pieces ≠ [] := by
        rintro rfl
        rw [← hend] at hto
        have hnil := congrArg List.length hto.eq_nil
        rw [List.length_drop, List.length_nil] at hnil
        omega
      have hfirst := hleast (rest.take (ch.cut rest)) (by
        rw [List.dropLast_cons_of_ne_nil hpieces]
        exact List.mem_cons_self ..)
      rwa [hlen] at hfirst
    · intro piece hpiece
      apply hleast
      rw [List.dropLast_cons_of_ne_nil (by
        rintro rfl
        exact absurd hpiece List.not_mem_nil)]
      exact List.mem_cons_of_mem _ hpiece
    · intro piece hpiece
      exact hmost piece (List.mem_cons_of_mem _ hpiece)

/-- Cuts that are in order make pieces of the sizes that they should have. -/
theorem pieces_of_eachCut {rest : Bytes} {pieces : List Bytes} (h : CutTo ch.cut rest pieces [])
    (hcuts : EachCut ch.cut ch.CutOk rest) :
    (∀ piece ∈ pieces.dropLast, ch.minChunkSize.toNat ≤ piece.length) ∧
      ∀ piece ∈ pieces, 0 < piece.length ∧ piece.length ≤ ch.maxChunkSize.toNat := by
  generalize hend : ([] : Bytes) = left at h
  induction h with
  | refl =>
    refine ⟨?_, ?_⟩
    · intro piece hpiece
      exact absurd hpiece List.not_mem_nil
    · intro piece hpiece
      exact absurd hpiece List.not_mem_nil
  | @step rest pieces left hne hto ih =>
    have hlen : (rest.take (ch.cut rest)).length = ch.cut rest := by
      rw [List.length_take, Nat.min_eq_left (cut_le_length rest)]
    obtain ⟨hpos, -, hlong⟩ := hcuts.head hne
    obtain ⟨hleast, hmost⟩ := ih (hcuts.tail hne) hend
    refine ⟨?_, ?_⟩
    · intro piece hpiece
      by_cases hlast : pieces = []
      · rw [hlast] at hpiece
        exact absurd hpiece List.not_mem_nil
      · rw [List.dropLast_cons_of_ne_nil hlast] at hpiece
        rcases List.mem_cons.mp hpiece with rfl | hin
        · rw [hlen]
          apply hlong
          by_contra hall
          have hnil : rest.drop (ch.cut rest) = [] := List.drop_eq_nil_of_le (by omega)
          rw [hnil] at hto
          cases hto with
          | refl => exact hlast rfl
          | step hsome => exact hsome rfl
        · exact hleast piece hin
    · intro piece hpiece
      rcases List.mem_cons.mp hpiece with rfl | hin
      · rw [hlen]
        exact ⟨hpos, cut_le_max rest⟩
      · exact hmost piece hin

/-- Exactly when a file is chunked: its first window is shorter than 2 ^ 32 bytes, and each of its
cuts is in order. -/
theorem chunks_iff (hread : ch.maxChunkSize ≤ ch.readSize) (chunkingFile : ChunkingFile) :
    Chunks ch chunkingFile ↔
      min ch.readSize.toNat chunkingFile.data.length < 2 ^ 32 ∧
        EachCut ch.cut ch.CutOk chunkingFile.data := by
  constructor
  · rintro ⟨fuel, chunks, recipeHead, hrun, hchunked⟩
    refine ⟨?_, ?_⟩
    · by_contra hbig
      have hstuck := @chunkFile_stuck ch chunkingFile fuel 0 ⟨0, 0, []⟩
        (by rw [List.drop_zero]; omega)
      unfold Chunker.FastCDC at hrun
      rw [hstuck] at hrun
      exact absurd hrun nofun
    · apply eachCut_of_pieces ((hchunked.cuts _).mpr rfl)
      · intro piece hpiece
        rw [← List.map_dropLast] at hpiece
        obtain ⟨chunk, hmem, rfl⟩ := List.mem_map.mp hpiece
        exact hchunked.least chunk hmem
      · intro piece hpiece
        obtain ⟨chunk, hmem, rfl⟩ := List.mem_map.mp hpiece
        exact ⟨(hchunked.most chunk hmem).1, chunk.fits⟩
  · rintro ⟨hsmall, hcuts⟩
    obtain ⟨chunks, hrun, hto⟩ := chunkFile_cuts hread chunkingFile
      (chunkingFile.data.length + 2) 0 ⟨0, 0, []⟩ (by rwa [List.drop_zero])
      (by rw [List.drop_zero]; omega) (by rwa [List.drop_zero])
    rw [List.drop_zero] at hto
    obtain ⟨hleast, hmost⟩ := pieces_of_eachCut hto hcuts
    have hjoined : (chunks.map ChunkData.data).flatten = chunkingFile.data := by
      rw [← hto.flatten, List.append_nil]
    have hfits := chunkingFile.fits
    have hnum : chunks.length ≤ chunkingFile.data.length := by
      have hsum := List.length_le_sum_of_one_le ((chunks.map ChunkData.data).map List.length) (by
        intro size hsize
        obtain ⟨piece, hpiece, rfl⟩ := List.mem_map.mp hsize
        exact (hmost piece hpiece).1)
      rwa [List.length_map, List.length_map, ← List.length_flatten, hjoined] at hsum
    refine ⟨chunkingFile.data.length + 2, chunks,
      ⟨UInt64.ofNat chunkingFile.data.length, UInt64.ofNat chunks.length⟩, ?_, hjoined, ?_, ?_, ?_, ?_, ?_⟩
    · unfold Chunker.FastCDC
      rw [hrun, foldl_push, hjoined]
      simp [chunkerData]
    · intro chunk hchunk
      apply hleast
      rw [← List.map_dropLast]
      exact List.mem_map_of_mem hchunk
    · intro chunk hchunk
      exact hmost _ (List.mem_map_of_mem hchunk)
    · intro pieces
      constructor
      · intro hpieces
        exact hpieces.unique hto
      · rintro rfl
        exact hto
    · rw [UInt64.toNat_ofNat', Nat.mod_eq_of_lt (by omega)]
    · rw [UInt64.toNat_ofNat', Nat.mod_eq_of_lt (by omega)]

end Chunks

section Uncut
variable {ch : Chunker}

theorem compareLimit_bounds (bits : UInt32) :
    0 < (CompareLimit bits 1 31).toNat ∧ (CompareLimit bits 1 31).toNat < 32 := by
  unfold CompareLimit
  split
  case isTrue => exact ⟨by decide, by decide⟩
  case isFalse hlow =>
    have hlow := UInt32.lt_iff_toNat_lt.mp (UInt32.not_le.mp hlow)
    have hone : (1 : UInt32).toNat = 1 := rfl
    split
    case isTrue => exact ⟨by decide, by decide⟩
    case isFalse hhigh =>
      have hhigh := UInt32.lt_iff_toNat_lt.mp (UInt32.not_le.mp hhigh)
      have hlast : (31 : UInt32).toNat = 31 := rfl
      omega

/-- Every mask has its lowest bit. -/
theorem mask_odd (bits : UInt32) : (GenerateFastCDCMask bits).toNat % 2 = 1 := by
  obtain ⟨hpos, hlt⟩ := compareLimit_bounds bits
  unfold GenerateFastCDCMask
  generalize CompareLimit bits 1 31 = k at hpos hlt ⊢
  obtain ⟨j, hj⟩ := Nat.exists_eq_add_of_lt hpos
  have hk : k.toNat = j + 1 := by omega
  have hpow : 2 ^ k.toNat < 2 ^ 32 := Nat.pow_lt_pow_right (by decide) hlt
  have hshift : ((1 : UInt32) <<< k).toNat = 2 ^ k.toNat := by
    rw [UInt32.toNat_shiftLeft, Nat.mod_eq_of_lt hlt, UInt32.toNat_one, Nat.shiftLeft_eq,
      Nat.one_mul, Nat.mod_eq_of_lt hpow]
  have hle : (1 : UInt32) ≤ 1 <<< k := by
    rw [UInt32.le_iff_toNat_le, hshift]
    exact Nat.one_le_two_pow
  have hone : (1 : UInt32).toNat = 1 := rfl
  rw [UInt32.toNat_sub_of_le _ _ hle, hshift, hone, hk, Nat.pow_succ]
  have hpos : 0 < 2 ^ j := Nat.two_pow_pos j
  omega

theorem and_ne_zero {fp mask : UInt32} (hfp : fp.toNat % 2 = 1) (hmask : mask.toNat % 2 = 1) :
    fp &&& mask ≠ 0 := by
  intro hzero
  have hbit := congrArg (fun x => x.toNat.testBit 0) hzero
  simp [UInt32.toNat_and, hfp, hmask] at hbit

/-- A byte that makes the rolling sum odd. -/
def oddByte (fp : UInt32) : UInt8 := if (fp >>> 1).toNat % 2 = 0 then 5 else 0

theorem gearStep_oddByte (fp : UInt32) : (Chunker.gearStep fp (oddByte fp)).toNat % 2 = 1 := by
  unfold Chunker.gearStep oddByte
  generalize fp >>> 1 = half
  split
  case isTrue heven =>
    have hgear : Chunker.GEAR.getD (5 : UInt8).toNat 0 = 0x474536B9 := by decide +kernel
    rw [hgear, UInt32.toNat_add]
    have hodd : (0x474536B9 : UInt32).toNat = 0x474536B9 := rfl
    omega
  case isFalse hodd =>
    have hgear : Chunker.GEAR.getD (0 : UInt8).toNat 0 = 0x5C95C078 := by decide +kernel
    rw [hgear, UInt32.toNat_add]
    have heven : (0x5C95C078 : UInt32).toNat = 0x5C95C078 := rfl
    omega

/-- Bytes on which the rolling sum is odd all along. -/
def oddBytes : Nat → UInt32 → Bytes
  | 0, _ => []
  | k + 1, fp => oddByte fp :: oddBytes k (Chunker.gearStep fp (oddByte fp))

theorem oddBytes_length (k : Nat) (fp : UInt32) : (oddBytes k fp).length = k := by
  induction k generalizing fp with
  | zero => rfl
  | succ k ih => rw [oddBytes, List.length_cons, ih]

/-- A loop over such bytes finds no cut, and the next one goes on over such bytes. -/
theorem cutLoop_oddBytes {mask : UInt32} (hmask : mask.toNat % 2 = 1) {n : Nat} (front : Bytes)
    (k : Nat) (fp : UInt32) (hn : n ≤ front.length + k) :
    ∃ (front' : Bytes) (k' : Nat) (fp' : UInt32),
      Chunker.cutLoop mask (front ++ oddBytes k fp) n front.length fp = .inr (front'.length, fp') ∧
      front'.length = max front.length n ∧ front'.length + k' = front.length + k ∧
      front' ++ oddBytes k' fp' = front ++ oddBytes k fp := by
  induction k generalizing front fp with
  | zero =>
    refine ⟨front, 0, fp, ?_, by omega, rfl, rfl⟩
    unfold Chunker.cutLoop
    rw [if_neg (by omega)]
  | succ k ih =>
    by_cases hlt : front.length < n
    · have hmove : front ++ oddBytes (k + 1) fp =
          (front ++ [oddByte fp]) ++ oddBytes k (Chunker.gearStep fp (oddByte fp)) := by
        rw [oddBytes, List.append_assoc, List.singleton_append]
      have hlen : (front ++ [oddByte fp]).length = front.length + 1 := by simp
      have hbyte : (front ++ oddBytes (k + 1) fp).getD front.length 0 = oddByte fp := by
        rw [List.getD_eq_getElem?_getD, List.getElem?_append_right (Nat.le_refl _), Nat.sub_self]
        rfl
      obtain ⟨front', k', fp', hloop, hmax, hsum, hsame⟩ :=
        ih (front ++ [oddByte fp]) (Chunker.gearStep fp (oddByte fp)) (by omega)
      rw [← hmove, hlen] at hloop
      refine ⟨front', k', fp', ?_, by omega, by omega, hsame.trans hmove.symm⟩
      unfold Chunker.cutLoop
      rw [if_pos hlt, hbyte]
      dsimp only
      rw [if_neg (and_ne_zero (gearStep_oddByte fp) hmask)]
      exact hloop
    · refine ⟨front, k + 1, fp, ?_, by omega, rfl, rfl⟩
      unfold Chunker.cutLoop
      rw [if_neg hlt]

/-- Some file has a first chunk of the largest size. -/
theorem exists_uncut (hmax : ch.maxChunkSize.toNat < 2 ^ 32) :
    ∃ data : Bytes, data.length = ch.maxChunkSize.toNat ∧ ch.cut data = ch.maxChunkSize.toNat := by
  have hlow := UInt64.lt_iff_toNat_lt.mp ch.min_lt
  have hhigh := UInt64.lt_iff_toNat_lt.mp ch.lt_max
  have hnormal := @normalSize_le ch
  have hmin' : ch.minChunkSize.toUInt32.toNat = ch.minChunkSize.toNat := by
    rw [UInt64.toNat_toUInt32, Nat.mod_eq_of_lt (by omega)]
  have hmax' : ch.maxChunkSize.toUInt32.toNat = ch.maxChunkSize.toNat := by
    rw [UInt64.toNat_toUInt32, Nat.mod_eq_of_lt hmax]
  obtain ⟨front, hfront⟩ : ∃ front : Bytes, front.length = ch.minChunkSize.toNat :=
    ⟨List.replicate ch.minChunkSize.toNat 0, List.length_replicate⟩
  obtain ⟨k, hk⟩ := Nat.exists_eq_add_of_lt (hlow.trans hhigh)
  obtain ⟨front', k', fp', hfirst, hlen', hsum, hsame⟩ := cutLoop_oddBytes (mask_odd (ch.bits + 1))
    (n := min ch.normalSize.toNat ch.maxChunkSize.toNat) front (k + 1) 0 (by omega)
  obtain ⟨front'', k'', fp'', hsecond, hlen'', -, -⟩ := cutLoop_oddBytes (mask_odd (ch.bits - 1))
    (n := ch.maxChunkSize.toNat) front' k' fp' (by omega)
  rw [hsame] at hsecond
  have hlen : (front ++ oddBytes (k + 1) 0).length = ch.maxChunkSize.toNat := by
    rw [List.length_append, oddBytes_length, hfront]
    omega
  refine ⟨_, hlen, ?_⟩
  unfold Chunker.cut Chunker.CutPoint Chunker.maskS Chunker.maskL
  rw [hlen, hmin', hmax', Nat.min_eq_right (by omega), ← hfront]
  dsimp only
  rw [hfirst]
  dsimp only
  rw [Nat.min_self, hsecond]
  dsimp only
  omega

end Uncut

section Meets
variable {ch : Chunker}

/-- The cuts of every file are in order where a chunk of the largest size fits into a `Chunk_t`. -/
theorem eachCut_of_max (hmax : ch.maxChunkSize.toNat ≤ MAX_CHUNK_SIZE) (rest : Bytes) :
    EachCut ch.cut ch.CutOk rest := by
  apply EachCut.of_forall
  intro rest hne
  have hlong := List.length_pos_iff.mpr hne
  have hlow := UInt64.lt_iff_toNat_lt.mp ch.min_lt
  have hhigh := UInt64.lt_iff_toNat_lt.mp ch.lt_max
  have hroom : MAX_CHUNK_SIZE < 2 ^ 32 := by decide
  have hmin' : ch.minChunkSize.toUInt32.toNat = ch.minChunkSize.toNat := by
    rw [UInt64.toNat_toUInt32, Nat.mod_eq_of_lt (by omega)]
  have hmax' : ch.maxChunkSize.toUInt32.toNat = ch.maxChunkSize.toNat := by
    rw [UInt64.toNat_toUInt32, Nat.mod_eq_of_lt (by omega)]
  obtain ⟨hge, -, hpos⟩ := @cutPoint_bounds ch rest rest.length
  have hle := @cut_le_max ch rest
  have hforward : 0 < ch.cut rest := hpos (by omega)
  refine ⟨hforward, hforward, hle.trans hmax, ?_⟩
  intro hmore
  unfold Chunker.cut at hmore ⊢
  omega

/-- `FastCDC` chunks a file if and only if its first window is shorter than 2 ^ 32 bytes and each of
its cuts is in order. It chunks every file if and only if a chunk of the largest size fits into a
`Chunk_t` and the buffer is shorter than 2 ^ 32 bytes. -/
theorem fastCDC_chunks_iff (log2 : UInt64 → UInt32) (config : ChunkerConfig) (ch : Chunker)
    (_hinit : ChunkerInit log2 config = some ch) (hread : ch.maxChunkSize ≤ ch.readSize) :
    (∀ chunkingFile, Chunks ch chunkingFile ↔
      min ch.readSize.toNat chunkingFile.data.length < 2 ^ 32 ∧
        EachCut ch.cut ch.CutOk chunkingFile.data) ∧
    ((∀ chunkingFile, Chunks ch chunkingFile) ↔
      ch.maxChunkSize.toNat ≤ MAX_CHUNK_SIZE ∧ ch.readSize.toNat < 2 ^ 32) := by
  have hroom := UInt64.le_iff_toNat_le.mp hread
  refine ⟨chunks_iff hread, ?_, ?_⟩
  · intro hall
    have hshort : ch.readSize.toNat < 2 ^ 32 := by
      have hzeros := (chunks_iff hread ⟨List.replicate (2 ^ 32) 0, by
        rw [List.length_replicate]
        exact Nat.pow_lt_pow_right (by decide) (by decide)⟩).mp (hall _)
      have hfirst := hzeros.1
      rw [List.length_replicate] at hfirst
      omega
    obtain ⟨data, hlen, hcut⟩ := @exists_uncut ch (by omega)
    have hne : data ≠ [] := by
      intro hnil
      have hhigh := UInt64.lt_iff_toNat_lt.mp ch.lt_max
      rw [hnil, List.length_nil] at hlen
      omega
    have hfile := (chunks_iff hread ⟨data, by omega⟩).mp (hall _)
    have hfits := (hfile.2.head hne).2.1
    rw [hcut] at hfits
    exact ⟨hfits, hshort⟩
  · rintro ⟨hmax, hshort⟩ chunkingFile
    exact (chunks_iff hread chunkingFile).mpr ⟨by omega, eachCut_of_max hmax _⟩

/-- The chunk sizes of the configuration that the repository has, under a size of the buffer in
mebibytes. -/
def shippedChunker (readSize : UInt64) : Chunker :=
  ⟨8192, 4096, 16384, readSize * (1024 * 1024), 13, by decide, by decide⟩

/-- With the buffer of the repository's configuration, of 128 mebibytes. -/
theorem fastCDC_chunks_iff_shipped :
    ChunkerInit (fun _ => 13) ⟨16384, 4096, 8192, 128⟩ = some (shippedChunker 128) ∧
      (shippedChunker 128).maxChunkSize ≤ (shippedChunker 128).readSize ∧
      ((∀ chunkingFile, Chunks (shippedChunker 128) chunkingFile) ↔
        (shippedChunker 128).maxChunkSize.toNat ≤ MAX_CHUNK_SIZE ∧
          (shippedChunker 128).readSize.toNat < 2 ^ 32) :=
  ⟨rfl, by decide, (fastCDC_chunks_iff (fun _ => 13) ⟨16384, 4096, 8192, 128⟩ (shippedChunker 128)
    rfl (by decide)).2⟩

/-- The file of 2 ^ 32 zero bytes. -/
def zerosFile : ChunkingFile where
  data := List.replicate (2 ^ 32) 0
  fits := by
    rw [List.length_replicate]
    exact Nat.pow_lt_pow_right (by decide) (by decide)

/-- With a buffer of 4096 mebibytes the loop never leaves it. -/
theorem fastCDC_never_ends :
    ChunkerInit (fun _ => 13) ⟨16384, 4096, 8192, 4096⟩ = some (shippedChunker 4096) ∧
      (shippedChunker 4096).maxChunkSize ≤ (shippedChunker 4096).readSize ∧
      ¬Chunks (shippedChunker 4096) zerosFile := by
  refine ⟨rfl, by decide, fun hchunks => ?_⟩
  have hfirst := ((@chunks_iff (shippedChunker 4096) (by decide) zerosFile).mp hchunks).1
  have hsize : (shippedChunker 4096).readSize.toNat = 2 ^ 32 := by decide
  unfold zerosFile at hfirst
  rw [List.length_replicate, hsize] at hfirst
  omega

end Meets

end ShieldReduce.Prototype
