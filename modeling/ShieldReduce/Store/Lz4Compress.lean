import ShieldReduce.Lib.Words
import ShieldReduce.Store.Lz4Block

/-!
# The LZ4 block compressor

`LZ4_compress_fast` on a 64-bit little-endian machine, from a state just initialised: no
dictionary, `base` the source itself. Positions are offsets into the source, `op` is the output
so far.
-/

namespace ShieldReduce.Store
open Lib

def LZ4_minLength : Nat := MFLIMIT + 1
def LZ4_64Klimit : Nat := 64 * 1024 + (MFLIMIT - 1)
def LZ4_skipTrigger : Nat := 6
def LZ4_HASHLOG : Nat := 12
def LZ4_DISTANCE_MAX : Nat := 65535
def LZ4_MAX_INPUT_SIZE : Nat := 0x7E000000
def LZ4_ACCELERATION_DEFAULT : Nat := 1
def LZ4_ACCELERATION_MAX : Nat := 65537

def LZ4_compressBound (isize : Nat) : Nat :=
  if LZ4_MAX_INPUT_SIZE < isize then 0 else isize + isize / 255 + 16

/-- `tableType_t`; pointers are only hashed on a 32-bit machine. -/
inductive TableType
  | byU32
  | byU16
  deriving DecidableEq

abbrev HashTable := Nat → Nat

/-- `matchIndex` and what the search that found it wrote on the way. -/
structure FoundMatch where
  ip : Nat
  matchIndex : Nat
  hashTable : HashTable

inductive CompressStep
  | return0
  | last_literals (op : Bytes) (anchor : Nat)
  | main_loop (op : Bytes) (anchor ip forwardH : Nat) (hashTable : HashTable)
  /-- `run` is what stands after the token that is still to be completed. -/
  | next_match (op : Bytes) (token : Nat) (run : Bytes) (ip matchIndex : Nat)
      (hashTable : HashTable)

def LZ4_hash4 (tableType : TableType) (sequence : Nat) : Nat :=
  if tableType = .byU16 then sequence * 2654435761 % 2 ^ 32 / 2 ^ (MINMATCH * 8 - (LZ4_HASHLOG + 1))
  else sequence * 2654435761 % 2 ^ 32 / 2 ^ (MINMATCH * 8 - LZ4_HASHLOG)

def LZ4_hash5 (tableType : TableType) (sequence : Nat) : Nat :=
  let hashLog := if tableType = .byU16 then LZ4_HASHLOG + 1 else LZ4_HASHLOG
  sequence * 2 ^ 24 % 2 ^ 64 * 889523592379 % 2 ^ 64 / 2 ^ (64 - hashLog)

def LZ4_putIndexOnHash (tableType : TableType) (idx h : Nat) (hashTable : HashTable) : HashTable :=
  fun i => if i = h then if tableType = .byU16 then idx % 2 ^ 16 else idx % 2 ^ 32 else hashTable i

def LZ4_NbCommonBytes (val : Nat) : Nat := ctz 64 val / 8

/-- `for (; len >= 255; len -= 255) *op++ = 255; *op++ = len;` -/
def putLength : Nat → Nat → Bytes
  | 0, len => [UInt8.ofNat len]
  | fuel + 1, len => if 255 ≤ len then 255 :: putLength fuel (len - 255) else [UInt8.ofNat len]

/-- Four bytes 255 at a time, then those of the rest. -/
def putMatchLength : Nat → Nat → Bytes
  | fuel + 1, matchCode =>
    if 4 * 255 ≤ matchCode then 255 :: 255 :: 255 :: 255 :: putMatchLength fuel (matchCode - 4 * 255)
    else List.replicate (matchCode / 255) 255 ++ [UInt8.ofNat (matchCode % 255)]
  | 0, matchCode => List.replicate (matchCode / 255) 255 ++ [UInt8.ofNat (matchCode % 255)]

section Compress
variable (tableType : TableType) (source : Bytes)

def LZ4_read32 (p : Nat) : Nat := leWord (slice source p 4)
def LZ4_read_ARCH (p : Nat) : Nat := leWord (slice source p 8)

def LZ4_hashPosition (p : Nat) : Nat :=
  if tableType ≠ .byU16 then LZ4_hash5 tableType (LZ4_read_ARCH source p)
  else LZ4_hash4 tableType (LZ4_read32 source p)

def LZ4_putPosition (p : Nat) (hashTable : HashTable) : HashTable :=
  LZ4_putIndexOnHash tableType p (LZ4_hashPosition tableType source p) hashTable

/-- `if ((pIn < pInLimit - (w - 1)) && (read(pMatch) == read(pIn))) { pIn += w; pMatch += w; }`
for reads of `w` bytes; the state is `pIn` and `pMatch`. -/
def countStep (pInLimit w : Nat) (st : Nat × Nat) : Nat × Nat :=
  if st.1 + (w - 1) < pInLimit ∧ leWord (slice source st.2 w) = leWord (slice source st.1 w) then
    (st.1 + w, st.2 + w)
  else st

/-- The tail of `LZ4_count`, for fewer than eight bytes. -/
def countTail (pStart pIn pMatch pInLimit : Nat) : Nat :=
  (countStep source pInLimit 1 (countStep source pInLimit 2
    (countStep source pInLimit 4 (pIn, pMatch)))).1 - pStart

def countLoop (pStart pInLimit : Nat) : Nat → Nat → Nat → Nat
  | 0, pIn, pMatch => countTail source pStart pIn pMatch pInLimit
  | fuel + 1, pIn, pMatch =>
    if pIn + 7 < pInLimit then
      let diff := LZ4_read_ARCH source pMatch ^^^ LZ4_read_ARCH source pIn
      if diff = 0 then countLoop pStart pInLimit fuel (pIn + 8) (pMatch + 8)
      else pIn + LZ4_NbCommonBytes diff - pStart
    else countTail source pStart pIn pMatch pInLimit

def LZ4_count (pIn pMatch pInLimit : Nat) : Nat :=
  if pIn + 7 < pInLimit then
    let diff := LZ4_read_ARCH source pMatch ^^^ LZ4_read_ARCH source pIn
    if diff = 0 then countLoop source pIn pInLimit pInLimit (pIn + 8) (pMatch + 8)
    else LZ4_NbCommonBytes diff
  else countLoop source pIn pInLimit pInLimit pIn pMatch

def mflimitPlusOne : Nat := source.length - MFLIMIT + 1
def matchlimit : Nat := source.length - LASTLITERALS

/-- The check against `LZ4_DISTANCE_MAX` that 16-bit positions do not need. -/
def tooFar (matchIndex current : Nat) : Prop :=
  tableType ≠ .byU16 ∧ matchIndex + LZ4_DISTANCE_MAX < current

instance (matchIndex current : Nat) : Decidable (tooFar tableType matchIndex current) :=
  inferInstanceAs (Decidable (_ ∧ _))

/-- "Find a match"; `none` is the jump to `_last_literals`. -/
def findMatch : Nat → HashTable → Nat → Nat → Nat → Nat → Option FoundMatch
  | 0, _, _, _, _, _ => none
  | fuel + 1, hashTable, forwardIp, step, searchMatchNb, forwardH =>
    let h := forwardH
    let current := forwardIp
    let matchIndex := hashTable h
    let ip := forwardIp
    let forwardIp := forwardIp + step
    let step := searchMatchNb / 2 ^ LZ4_skipTrigger
    let searchMatchNb := searchMatchNb + 1
    if mflimitPlusOne source < forwardIp then none
    else
      let forwardH := LZ4_hashPosition tableType source forwardIp
      let hashTable := LZ4_putIndexOnHash tableType current h hashTable
      if tooFar tableType matchIndex current then
        findMatch fuel hashTable forwardIp step searchMatchNb forwardH
      else if LZ4_read32 source matchIndex = LZ4_read32 source ip then
        some ⟨ip, matchIndex, hashTable⟩
      else findMatch fuel hashTable forwardIp step searchMatchNb forwardH

/-- "Catch up". -/
def catchUp (anchor : Nat) : Nat → Nat → Nat × Nat
  | ip + 1, matchIndex + 1 =>
    if anchor < ip + 1 ∧ source.getD ip 0 = source.getD matchIndex 0 then
      catchUp anchor ip matchIndex
    else (ip + 1, matchIndex + 1)
  | ip, matchIndex => (ip, matchIndex)

variable (olimit : Option Nat)

/-- `op > olimit` where the output is limited. -/
def pastLimit (op : Nat) : Bool := olimit.any (fun l => decide (l < op))

/-- "Encode Literals". -/
def encodeLiterals (op : Bytes) (anchor ip matchIndex : Nat) (hashTable : HashTable) :
    CompressStep :=
  let litLength := ip - anchor
  if pastLimit olimit (op.length + 1 + litLength + (2 + 1 + LASTLITERALS) + litLength / 255) then
    .return0
  else
    let literals := slice source anchor litLength
    if RUN_MASK ≤ litLength then
      let len := litLength - RUN_MASK
      .next_match op (RUN_MASK * 16) (putLength len len ++ literals) ip matchIndex hashTable
    else .next_match op (litLength * 16) literals ip matchIndex hashTable

/-- From the label `_next_match` to the end of the main loop's body. -/
def encodeMatch (op : Bytes) (token : Nat) (run : Bytes) (ip matchIndex : Nat)
    (hashTable : HashTable) : CompressStep :=
  let run := run ++ le16 (ip - matchIndex)
  let matchCode :=
    LZ4_count source (ip + MINMATCH) (matchIndex + MINMATCH) (matchlimit source)
  let ip := ip + matchCode + MINMATCH
  if pastLimit olimit (op.length + 1 + run.length + (1 + LASTLITERALS) + (matchCode + 240) / 255)
  then .return0
  else
    let op :=
      if ML_MASK ≤ matchCode then
        let matchCode := matchCode - ML_MASK
        op ++ UInt8.ofNat (token + ML_MASK) :: (run ++ putMatchLength matchCode matchCode)
      else op ++ UInt8.ofNat (token + matchCode) :: run
    if mflimitPlusOne source ≤ ip then .last_literals op ip
    else
      let hashTable := LZ4_putPosition tableType source (ip - 2) hashTable
      let h := LZ4_hashPosition tableType source ip
      let matchIndex := hashTable h
      let hashTable := LZ4_putIndexOnHash tableType ip h hashTable
      if ¬tooFar tableType matchIndex ip ∧ LZ4_read32 source matchIndex = LZ4_read32 source ip then
        .next_match op 0 [] ip matchIndex hashTable
      else .main_loop op ip (ip + 1) (LZ4_hashPosition tableType source (ip + 1)) hashTable

/-- "Encode Last Literals"; `none` is the return value 0. -/
def encodeLastLiterals (op : Bytes) (anchor : Nat) : Option Bytes :=
  let lastRun := source.length - anchor
  if pastLimit olimit (op.length + lastRun + 1 + (lastRun + 255 - RUN_MASK) / 255) then none
  else if RUN_MASK ≤ lastRun then
    let accumulator := lastRun - RUN_MASK
    some (op ++ UInt8.ofNat (RUN_MASK * 16) ::
      (putLength accumulator accumulator ++ slice source anchor lastRun))
  else some (op ++ UInt8.ofNat (lastRun * 16) :: slice source anchor lastRun)

variable (acceleration : Nat)

def compressStep : CompressStep → CompressStep
  | .main_loop op anchor ip forwardH hashTable =>
    match findMatch tableType source source.length hashTable ip 1
      (acceleration * 2 ^ LZ4_skipTrigger) forwardH with
    | none => .last_literals op anchor
    | some found =>
      let (ip, matchIndex) := catchUp source anchor found.ip found.matchIndex
      encodeLiterals source olimit op anchor ip matchIndex found.hashTable
  | .next_match op token run ip matchIndex hashTable =>
    encodeMatch tableType source olimit op token run ip matchIndex hashTable
  | st => st

def compressLoop : Nat → CompressStep → Option Bytes
  | _, .return0 => none
  | _, .last_literals op anchor => encodeLastLiterals source olimit op anchor
  | fuel + 1, st => compressLoop fuel (compressStep tableType source olimit acceleration st)
  | 0, _ => none

/-- A round of the main loop that stays in it, or a match at once after another, takes at least
four bytes of the source. -/
def LZ4_compress_generic_validated : Option Bytes :=
  if tableType = .byU16 ∧ LZ4_64Klimit ≤ source.length then none
  else if source.length < LZ4_minLength then encodeLastLiterals source olimit [] 0
  else
    let hashTable := LZ4_putPosition tableType source 0 (fun _ => 0)
    let ip := 1
    compressLoop tableType source olimit acceleration (2 * source.length + 2)
      (.main_loop [] 0 ip (LZ4_hashPosition tableType source ip) hashTable)

def LZ4_compress_generic : Option Bytes :=
  if LZ4_MAX_INPUT_SIZE < source.length then none
  else if source.length = 0 then if olimit = some 0 then none else some [0]
  else LZ4_compress_generic_validated tableType source olimit acceleration

end Compress

/-- `none` is the return value 0. -/
def LZ4_compress_fast (source : Bytes) (maxOutputSize acceleration : Nat) : Option Bytes :=
  let acceleration := if acceleration < 1 then LZ4_ACCELERATION_DEFAULT else acceleration
  let acceleration := if LZ4_ACCELERATION_MAX < acceleration then LZ4_ACCELERATION_MAX
    else acceleration
  let tableType := if source.length < LZ4_64Klimit then TableType.byU16 else .byU32
  let olimit := if LZ4_compressBound source.length ≤ maxOutputSize then none else some maxOutputSize
  LZ4_compress_generic tableType source olimit acceleration

end ShieldReduce.Store
