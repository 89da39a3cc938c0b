import ShieldReduce.EDelta.Decode
import ShieldReduce.EDelta.Gear

/-!
# The delta encoder

`EDeltaEncode` strips the common head and tail of the two chunks and walks the rest of the new
chunk, chunking the base in growing steps and looking each string of the input up in the table of
base strings. Unmatched strings collect in one pending literal whose header is patched late.
-/

namespace ShieldReduce.EDelta
open Lib

structure DeltaRecord where
  nHash : UInt64
  nOffset : Nat
  nLength : Nat
deriving DecidableEq, Repr

/-- What the encoder takes from outside: the window hash, the float test
`cursor_input / newSize + 0.5 >= cursor_base / baseSize`, and the table, which answers a key with
an inserted record of that key or with nothing. -/
structure EDeltaEnv where
  weakHash : Bytes → UInt64
  progress : Nat → Nat → Nat → Nat → Bool
  lookup : List DeltaRecord → UInt64 → Option DeltaRecord
  lookup_inserted : ∀ {table key r}, lookup table key = some r → r ∈ table ∧ r.nHash = key

/-- The last record in the delta buffer: `flag` 0, 1 for `DeltaUnit1`, 2 for `DeltaUnit2`. -/
inductive LastUnit where
  | none
  | unit1
  | unit2
deriving DecidableEq, Repr

structure EncState where
  deltaBuf : Bytes
  deltaLen : Nat
  cursorBase : Nat
  cursorInput : Nat
  inputPos : Nat
  record1 : DeltaUnit1
  record2 : DeltaUnit2
  flag : LastUnit
  psHTable : List DeltaRecord
  flagChunk : Bool
  flagHandleProbe : Bool
  inputLink : List DeltaRecord
  probeMatch : Option (Nat × DeltaRecord)

def BASE_BEGIN : Nat := 5
def BASE_EXPAND : Nat := 3
def BASE_STEP : Nat := 3
def INPUT_TRY : Nat := 5

/-- The common head, eight bytes at a time and then byte by byte. -/
def headSize (newBuf baseBuf : Bytes) : Nat :=
  let bound := min baseBuf.length newBuf.length
  scan 1 bound (fun j => baseBuf.getD j 0 == newBuf.getD j 0) bound
    (scan 8 bound (fun j => slice baseBuf j 8 == slice newBuf j 8) bound 0)

/-- The common tail, eight bytes at a time and then byte by byte. -/
def tailSize (newBuf baseBuf : Bytes) : Nat :=
  let bound := min baseBuf.length newBuf.length
  scan 1 bound (fun j => baseBuf.getD (baseBuf.length - j - 1) 0 ==
      newBuf.getD (newBuf.length - j - 1) 0) bound
    (scan 8 bound (fun j => slice baseBuf (baseBuf.length - j - 8) 8 ==
      slice newBuf (newBuf.length - j - 8) 8) bound 0)

/-- `begSize`: heads of at most 16 bytes are not used. -/
def begSize (newBuf baseBuf : Bytes) : Nat :=
  if 16 < headSize newBuf baseBuf then headSize newBuf baseBuf else 0

/-- `endSize` after the overlap with the head is taken off; short tails are not used. -/
def endSize (newBuf baseBuf : Bytes) : Nat :=
  let size := if newBuf.length < begSize newBuf baseBuf + tailSize newBuf baseBuf then
    newBuf.length - begSize newBuf baseBuf else tailSize newBuf baseBuf
  if 16 < size then size else 0

/-- `Chunking_v3`: the strings between the cuts, and the number of bytes they cover. -/
def chunkingV3 (env : EDeltaEnv) (data : Bytes) (len numOfChunks : Nat) : List DeltaRecord × Nat :=
  let cut := rollingGearV3 data len numOfChunks
  ((cut.zip cut.tail).map (fun c => ⟨env.weakHash (slice data c.1 (c.2 - c.1)), c.1, c.2 - c.1⟩),
    cut.getLastD 0)

def writeUnit1 (s : EncState) (record : DeltaUnit1) : EncState :=
  { s with
    deltaBuf := memcpy s.deltaBuf s.deltaLen record.toBytes
    deltaLen := s.deltaLen + 8 }

def withLength1 (record : DeltaUnit1) (length : Nat) : DeltaUnit1 :=
  { record with flag_length := setLength record.flag_length (UInt32.ofNat length) }

def withLength2 (record : DeltaUnit2) (length : Nat) : DeltaUnit2 :=
  { record with flag_length := setLength record.flag_length (UInt32.ofNat length) }

section Encoder
variable (env : EDeltaEnv) (newBuf baseBuf : Bytes) (tail : Nat)

/-- Continuous unique strings only add their bytes; the header of the pending literal is
overwritten when a copy follows or at the end. -/
def appendLiteral (s : EncState) (length : Nat) : EncState :=
  match s.flag with
  | .unit2 =>
    { s with
      deltaBuf := memcpy s.deltaBuf s.deltaLen (slice newBuf s.inputPos length)
      deltaLen := s.deltaLen + length
      record2 := withLength2 s.record2 (getLength s.record2.flag_length + length) }
  | _ =>
    let record2 := withLength2 s.record2 length
    { s with
      deltaBuf := memcpy (memcpy s.deltaBuf s.deltaLen record2.toBytes) (s.deltaLen + 4)
        (slice newBuf s.inputPos length)
      deltaLen := s.deltaLen + 4 + length
      record2 := record2
      flag := .unit2 }

/-- The final header of the pending literal. -/
def patchLiteral (s : EncState) : EncState :=
  match s.flag with
  | .unit2 =>
    let pos := s.deltaLen - getLength s.record2.flag_length - 4
    { s with deltaBuf := memcpy s.deltaBuf pos s.record2.toBytes }
  | _ => s

/-- `j`: how far the match goes on after the string. -/
def forwardSize (s : EncState) (dup : DeltaRecord) (length : Nat) : Nat :=
  let bound := min (baseBuf.length - tail - (dup.nOffset + length))
    (newBuf.length - tail - s.cursorInput)
  scan 1 bound (fun j => baseBuf.getD (dup.nOffset + length + j) 0 ==
      newBuf.getD (s.cursorInput + j) 0) bound
    (scan 8 bound (fun j => slice baseBuf (dup.nOffset + length + j) 8 ==
      slice newBuf (s.cursorInput + j) 8) bound 0)

/-- `k`: how far the match reaches back into the pending literal. -/
def backwardSize (s : EncState) (dup : DeltaRecord) : Nat :=
  match s.flag with
  | .unit2 =>
    let bound := min dup.nOffset (getLength s.record2.flag_length)
    scan 1 bound (fun k => baseBuf.getD (dup.nOffset - (k + 1)) 0 ==
      newBuf.getD (s.inputPos - (k + 1)) 0) bound 0
  | _ => 0

/-- The pending literal gives up its last `k` bytes, and disappears when none is left. -/
def shrinkLiteral (s : EncState) (k : Nat) : EncState :=
  let deltaLen := s.deltaLen - getLength s.record2.flag_length - 4
  let record2 := withLength2 s.record2 (getLength s.record2.flag_length - k)
  if 0 < getLength record2.flag_length then
    { s with
      deltaBuf := memcpy s.deltaBuf deltaLen record2.toBytes
      deltaLen := deltaLen + 4 + getLength record2.flag_length
      record2 := record2 }
  else { s with deltaLen := deltaLen, record2 := record2 }

/-- The branch at `match:` once the strings agree. -/
def emitMatch (s : EncState) (dup : DeltaRecord) (length : Nat) : EncState :=
  let s := patchLiteral s
  let j := forwardSize newBuf baseBuf tail s dup length
  let s := { s with
    cursorInput := s.cursorInput + j
    cursorBase := max s.cursorBase (dup.nOffset + length + j) }
  let record1 := withLength1 { s.record1 with nOffset := UInt32.ofNat dup.nOffset }
    (s.cursorInput - s.inputPos)
  let k := backwardSize newBuf baseBuf s dup
  if 0 < k then
    let s := shrinkLiteral s k
    let record1 := { withLength1 record1 (getLength record1.flag_length + k) with
      nOffset := UInt32.ofNat (dup.nOffset - k) }
    { writeUnit1 s record1 with record1 := record1, flag := .unit1 }
  else { writeUnit1 s record1 with record1 := record1, flag := .unit1 }

/-- A table hit is only a match when the bytes agree; otherwise the string is unique. -/
def matchString (s : EncState) (dup : DeltaRecord) (length : Nat) : EncState :=
  if length = dup.nLength ∧ slice newBuf s.inputPos length = slice baseBuf dup.nOffset length then
    emitMatch newBuf baseBuf tail s dup length
  else appendLiteral newBuf s length

/-- Chunk `chunkNumber` more strings of the base and insert them, up to the first empty one. -/
def chunkBase (s : EncState) (chunkNumber : Nat) : EncState :=
  let (links, numBytes) := chunkingV3 env (baseBuf.drop s.cursorBase)
    (baseBuf.length - tail - s.cursorBase) chunkNumber
  let inserted := (links.takeWhile (fun r => r.nLength != 0)).map
    (fun r => { r with nOffset := r.nOffset + s.cursorBase })
  { s with
    flagChunk := s.flagChunk && links.all (fun r => r.nLength != 0)
    psHTable := inserted.reverse ++ s.psHTable
    cursorBase := s.cursorBase + numBytes }

/-- The first round of probing: cut `left` more strings of the input from `cursor` on, until one
hits the table. -/
def probeInput (table : List DeltaRecord) :
    Nat → Nat → Nat → List DeltaRecord × Option (Nat × DeltaRecord)
  | 0, _, _ => ([], none)
  | left + 1, j, cursor =>
    let length := chunkGear (newBuf.drop cursor) (newBuf.length - cursor - tail)
    let link : DeltaRecord := ⟨env.weakHash (slice newBuf cursor length), 0, length⟩
    match env.lookup table link.nHash with
    | some dup => ([link], some (j, dup))
    | none =>
      let (links, hit) := probeInput table left (j + 1) (cursor + length)
      (link :: links, hit)

/-- Later rounds look the same strings up again. -/
def probeAgain (table : List DeltaRecord) : List DeltaRecord → Nat → Option (Nat × DeltaRecord)
  | [], _ => none
  | link :: links, j =>
    match env.lookup table link.nHash with
    | some dup => some (j, dup)
    | none => probeAgain table links (j + 1)

/-- The rounds `i < BASE_STEP` of base chunking, ended by a hit or by the end of the base. -/
def expandBase : Nat → Nat → Nat → EncState → EncState
  | 0, _, _, s => s
  | left + 1, i, chunkNumber, s =>
    let s := chunkBase env baseBuf tail s chunkNumber
    let (links, hit) := if i = 0 then probeInput env newBuf tail s.psHTable INPUT_TRY 0 s.cursorInput
      else (s.inputLink, probeAgain env s.psHTable s.inputLink 0)
    let s := { s with inputLink := links, probeMatch := hit }
    if hit.isSome || !s.flagChunk then s
    else expandBase left (i + 1) (chunkNumber * BASE_EXPAND) s

/-- A probe string that did not hit is unique. -/
def skipProbe (s : EncState) (length : Nat) : EncState :=
  let s := appendLiteral newBuf { s with cursorInput := length + s.inputPos } length
  { s with inputPos := s.cursorInput }

/-- The probe strings up to the one that hit; `true` when it was reached. -/
def handleProbe : List DeltaRecord → Nat → EncState → EncState × Bool
  | [], _, s => ({ s with flagHandleProbe := false }, false)
  | link :: links, i, s =>
    match s.probeMatch with
    | some (m, dup) =>
      if i = m then
        let s := { s with cursorInput := link.nLength + s.inputPos, flagHandleProbe := false }
        (matchString newBuf baseBuf tail s dup link.nLength, true)
      else handleProbe links (i + 1) (skipProbe newBuf s link.nLength)
    | none => handleProbe links (i + 1) (skipProbe newBuf s link.nLength)

/-- The next string of the input, matched or appended. -/
def encodeString (s : EncState) : EncState :=
  let length := chunkGear (newBuf.drop s.inputPos) (newBuf.length - s.inputPos - tail)
  let s := { s with cursorInput := length + s.inputPos }
  match env.lookup s.psHTable (env.weakHash (slice newBuf s.inputPos length)) with
  | some dup => matchString newBuf baseBuf tail s dup length
  | none => appendLiteral newBuf s length

/-- The part of a pass that chunks more of the base, when the progress test asks for it. -/
def encodeProbe (s : EncState) : EncState :=
  if s.flagChunk && env.progress s.cursorInput newBuf.length s.cursorBase baseBuf.length then
    expandBase env newBuf baseBuf tail BASE_STEP 0 BASE_BEGIN
      { s with flagHandleProbe := true, probeMatch := none }
  else s

/-- One pass of `while (inputPos < newSize - endSize)`. -/
def encodePass (s : EncState) : EncState :=
  let s := encodeProbe env newBuf baseBuf tail s
  let (s, matched) := if s.flagHandleProbe then handleProbe newBuf baseBuf tail s.inputLink 0 s
    else (s, false)
  let s := if matched then s else encodeString env newBuf baseBuf tail s
  { s with inputPos := s.cursorInput }

def encodeLoop : Nat → EncState → EncState
  | 0, s => s
  | fuel + 1, s =>
    if s.inputPos < newBuf.length - tail then
      encodeLoop fuel (encodePass env newBuf baseBuf tail s)
    else s

end Encoder

/-- The state before the main loop, the copy of the head already written. -/
def encodeInit (begSize : Nat) : EncState :=
  let record1 : DeltaUnit1 := ⟨setFlag 0 0, 0⟩
  let s : EncState :=
    { deltaBuf := [], deltaLen := 0, cursorBase := begSize, cursorInput := begSize,
      inputPos := begSize, record1 := record1, record2 := ⟨setFlag 0 1⟩, flag := .none,
      psHTable := [], flagChunk := true, flagHandleProbe := false, inputLink := [],
      probeMatch := none }
  if 0 < begSize then
    let record1 := withLength1 record1 begSize
    { writeUnit1 s record1 with record1 := record1, flag := .unit1 }
  else s

/-- The header and bytes of a literal that nothing is appended to. -/
def writeLiteral (s : EncState) (xs : Bytes) : EncState :=
  let record2 := withLength2 s.record2 xs.length
  { s with
    deltaBuf := memcpy (memcpy s.deltaBuf s.deltaLen record2.toBytes) (s.deltaLen + 4) xs
    deltaLen := s.deltaLen + 4 + xs.length
    record2 := record2 }

/-- The closing copy of the common tail. -/
def writeTail (s : EncState) (baseSize endSize : Nat) : EncState :=
  if 0 < endSize then
    writeUnit1 s (withLength1 { s.record1 with nOffset := UInt32.ofNat (baseSize - endSize) } endSize)
  else s

/-- `EDeltaEncode`: the delta of `newBuf` against `baseBuf`. -/
def EDeltaEncode (env : EDeltaEnv) (newBuf baseBuf : Bytes) : Bytes :=
  let beg := begSize newBuf baseBuf
  let tail := endSize newBuf baseBuf
  let s := encodeInit beg
  let s := if baseBuf.length ≤ beg + tail then
      if 0 < newBuf.length - beg - tail then
        writeLiteral s (slice newBuf beg (newBuf.length - beg - tail))
      else s
    else patchLiteral (encodeLoop env newBuf baseBuf tail newBuf.length s)
  let s := writeTail s baseBuf.length tail
  s.deltaBuf.take s.deltaLen

end ShieldReduce.EDelta
