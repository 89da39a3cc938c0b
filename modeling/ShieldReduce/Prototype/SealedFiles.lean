import ShieldReduce.Lib.Stream
import ShieldReduce.Prototype.SealedIndex

/-!
# The bytes of the sealed index

`PersistDedupIndex` and `LoadDedupIndex` down to the two files, which the enclave writes and reads
through streams outside, in pieces of at most `SGX_PERSISTENCE_BUFFER_SIZE` bytes.
-/

namespace ShieldReduce.Prototype
open Lib Store

section Streams

inductive SealedFile where
  | SEALED_SKETCH
  | SEALED_FREQ_INDEX
deriving DecidableEq

/-- The files, with `outSealedFile_` and `inSealedFile_` when they are open. -/
structure SealedIO where
  files : SealedFile → Option Bytes
  outSealedFile_ : Option SealedFile
  inSealedFile_ : Option (SealedFile × InFile)

namespace SealedIO

def closed (files : SealedFile → Option Bytes) : SealedIO := ⟨files, none, none⟩

def put (io : SealedIO) (name : SealedFile) (content : Bytes) : SealedIO :=
  { io with files := Function.update io.files name (some content) }

/-- `rest` has not been read yet. -/
def reading (io : SealedIO) (name : SealedFile) (rest : Bytes) : SealedIO :=
  { io with inSealedFile_ := some (name, ⟨rest, false⟩) }

def Ocall_InitWriteSealedFile (sealedFileName : SealedFile) (io : SealedIO) : Bool × SealedIO :=
  match io.outSealedFile_ with
  | some _ => (false, io)
  | none =>
    (true, { io.put sealedFileName [] with outSealedFile_ := some sealedFileName })

/-- The stream writes to the file that it has open. -/
def Ocall_WriteSealedData (sealedDataBuffer : Bytes) (io : SealedIO) : SealedIO :=
  match io.outSealedFile_ with
  | some name => io.put name ((io.files name).getD [] ++ sealedDataBuffer)
  | none => io

def Ocall_CloseWriteSealedFile (io : SealedIO) : SealedIO := { io with outSealedFile_ := none }

/-- The size of the file, 0 where `open` fails; a stream that is open goes back to the start of its
own file. -/
def Ocall_InitReadSealedFile (sealedFileName : SealedFile) (io : SealedIO) : Nat × SealedIO :=
  match io.inSealedFile_ with
  | some (name, _) => (0, io.reading name ((io.files name).getD []))
  | none =>
    match io.files sealedFileName with
    | none => (0, io)
    | some file => (file.length, io.reading sealedFileName file)

/-- The buffer of the call outside is zero before the stream reads into it. -/
def Ocall_ReadSealedData (sealedDataSize : Nat) (io : SealedIO) : Bytes × SealedIO :=
  match io.inSealedFile_ with
  | none => (List.replicate sealedDataSize 0, io)
  | some (name, f) =>
    let (dataBuffer, f) := f.read (List.replicate sealedDataSize 0) sealedDataSize
    (dataBuffer, { io with inSealedFile_ := some (name, f) })

def Ocall_CloseReadSealedFile (io : SealedIO) : SealedIO := { io with inSealedFile_ := none }

end SealedIO

end Streams

section Pieces
open SealedIO

def SGX_PERSISTENCE_BUFFER_SIZE : Nat := 2 * 1024 * 1024

/-- The loop of `WriteBufferToFile`; `remainSize` gets smaller with every pass. -/
def writeBufferLoop (buffer : Bytes) : Nat → Nat → Nat → SealedIO → SealedIO
  | 0, _, _, io => io
  | fuel + 1, offset, remainSize, io =>
    if remainSize = 0 then io
    else if SGX_PERSISTENCE_BUFFER_SIZE < remainSize then
      writeBufferLoop buffer fuel (offset + SGX_PERSISTENCE_BUFFER_SIZE)
        (remainSize - SGX_PERSISTENCE_BUFFER_SIZE)
        (Ocall_WriteSealedData (slice buffer offset SGX_PERSISTENCE_BUFFER_SIZE) io)
    else Ocall_WriteSealedData (slice buffer offset remainSize) io

def WriteBufferToFile (buffer : Bytes) (io : SealedIO) : SealedIO :=
  writeBufferLoop buffer buffer.length 0 buffer.length io

/-- The loop of `ReadFileToBuffer`. -/
def readFileLoop : Nat → Nat → Nat → Bytes × SealedIO → Bytes × SealedIO
  | 0, _, _, st => st
  | fuel + 1, offset, remainSize, (buffer, io) =>
    if remainSize = 0 then (buffer, io)
    else if SGX_PERSISTENCE_BUFFER_SIZE < remainSize then
      let (data, io) := SealedIO.Ocall_ReadSealedData SGX_PERSISTENCE_BUFFER_SIZE io
      readFileLoop fuel (offset + SGX_PERSISTENCE_BUFFER_SIZE)
        (remainSize - SGX_PERSISTENCE_BUFFER_SIZE) (memcpy buffer offset data, io)
    else
      let (data, io) := SealedIO.Ocall_ReadSealedData remainSize io
      (memcpy buffer offset data, io)

/-- Into a buffer of `bufferSize` bytes. -/
def ReadFileToBuffer (buffer : Bytes) (bufferSize : Nat) (io : SealedIO) : Bytes × SealedIO :=
  readFileLoop bufferSize 0 bufferSize (buffer, io)

end Pieces

section Items

/-- A `size_t` as the eight bytes of its little-endian object. -/
def sizeBytes (n : Nat) : Bytes := le32 (UInt32.ofNat n) ++ le32 (UInt32.ofNat (n / 2 ^ 32))

def readSize (b : Bytes) (off : Nat) : Nat :=
  (read32 b off).toNat + 2 ^ 32 * (read32 b (off + 4)).toNat

/-- `sizeof(HeapItem_t)` -/
def HEAP_ITEM_SIZE : Nat := RECIPE_ENTRY_SIZE + 8

namespace HeapItem

def toBytes (item : HeapItem) : Bytes :=
  item.address.toBytes ++ (le32 item.chunkFreq ++ le32 (UInt32.ofNat item.idx))

/-- The `HeapItem_t` object at `off`. -/
def read (b : Bytes) (off : Nat) : HeapItem where
  address := RecipeEntry.read b off
  chunkFreq := read32 b (off + RECIPE_ENTRY_SIZE)
  idx := (read32 b (off + RECIPE_ENTRY_SIZE + 4)).toNat

end HeapItem

/-- A row of `counterArray_`. -/
def rowBytes (sketchWidth : Nat) (row : Nat → UInt32) : Bytes :=
  (List.range sketchWidth).flatMap fun p => le32 (row p)

end Items

namespace SealedIO
open EcallFreqIndex

section Persist

/-- The loop over the heap, whose items go to `tmpBuffer` one behind the other. -/
def packItems (index : Table Fp HeapItem) : List Fp → Nat → Bytes → Option Bytes
  | [], _, tmpBuffer => some tmpBuffer
  | key :: keys, offset, tmpBuffer =>
    (index.lookup key).bind fun item =>
      packItems index keys (offset + CHUNK_HASH_SIZE + HEAP_ITEM_SIZE)
        (memcpy (memcpy tmpBuffer offset key.val) (offset + CHUNK_HASH_SIZE) item.toBytes)

/-- `PersistDedupIndex`, down to the files; `garbage` is what `malloc` returns. -/
def PersistDedupIndex (sketchWidth sketchDepth : Nat) (garbage : Nat → UInt8) (f : Filter)
    (io : SealedIO) : Option SealedIO :=
  let (persistenceStatus, io) := Ocall_InitWriteSealedFile .SEALED_SKETCH io
  if persistenceStatus then
    let io := (List.range sketchDepth).foldl
      (fun io i => WriteBufferToFile (rowBytes sketchWidth (f.sketch.counterArray i)) io) io
    let io := Ocall_CloseWriteSealedFile io
    let (persistenceStatus, io) := Ocall_InitWriteSealedFile .SEALED_FREQ_INDEX io
    if persistenceStatus then
      let itemNum := f.heap.heap.length
      let requiredBufferSize := 8 + itemNum * (CHUNK_HASH_SIZE + HEAP_ITEM_SIZE)
      let tmpBuffer := (List.range requiredBufferSize).map garbage
      (packItems f.heap.index f.heap.heap 8 (memcpy tmpBuffer 0 (sizeBytes itemNum))).map
        fun tmpBuffer => Ocall_CloseWriteSealedFile (WriteBufferToFile tmpBuffer io)
    else none
  else none

end Persist

section Load

/-- A row is read over the row that is there. -/
def loadRow (sketchWidth : Nat) (row : Nat → UInt32) (io : SealedIO) : (Nat → UInt32) × SealedIO :=
  let (buffer, io) := ReadFileToBuffer (rowBytes sketchWidth row) (4 * sketchWidth) io
  (fun p => if p < sketchWidth then read32 buffer (4 * p) else row p, io)

def loadRows (sketchWidth sketchDepth : Nat) (counterArray : Nat → Nat → UInt32) (io : SealedIO) :
    (Nat → Nat → UInt32) × SealedIO :=
  (List.range sketchDepth).foldl
    (fun (counterArray, io) i =>
      let (row, io) := loadRow sketchWidth (counterArray i) io
      (Function.update counterArray i row, io))
    (counterArray, io)

/-- The loop over the items of the file. -/
def unpackItems (tmpIndexBuffer : Bytes) : Nat → Nat → EntryHeap → EntryHeap
  | 0, _, heap => heap
  | itemNum + 1, offset, heap =>
    unpackItems tmpIndexBuffer itemNum (offset + CHUNK_HASH_SIZE + HEAP_ITEM_SIZE)
      (loadItem heap (FixedBytes.read 32 tmpIndexBuffer offset,
        HeapItem.read tmpIndexBuffer (offset + CHUNK_HASH_SIZE)))

/-- `LoadDedupIndex`, from the files. -/
def LoadDedupIndex (sketchWidth sketchDepth : Nat) (garbage : Nat → UInt8) (f : Filter)
    (io : SealedIO) : Bool × Filter × SealedIO :=
  let (sealedDataSize, io) := Ocall_InitReadSealedFile .SEALED_SKETCH io
  if sealedDataSize = 0 then (false, f, io)
  else
    let (counterArray, io) := loadRows sketchWidth sketchDepth f.sketch.counterArray io
    let io := Ocall_CloseReadSealedFile io
    let f := { f with sketch := { f.sketch with counterArray := counterArray } }
    let (sealedDataSize, io) := Ocall_InitReadSealedFile .SEALED_FREQ_INDEX io
    if sealedDataSize = 0 then (false, f, io)
    else
      let (tmpIndexBuffer, io) :=
        ReadFileToBuffer ((List.range sealedDataSize).map garbage) sealedDataSize io
      let itemNum := readSize tmpIndexBuffer 0
      (true, { f with heap := unpackItems tmpIndexBuffer itemNum 8 f.heap },
        Ocall_CloseReadSealedFile io)

end Load

section Splitting
variable {io : SealedIO} {name : SealedFile}

theorem put_files (io : SealedIO) (name : SealedFile) (content : Bytes) :
    (io.put name content).files name = some content := Function.update_self ..

theorem put_put (io : SealedIO) (name : SealedFile) (a b : Bytes) :
    (io.put name a).put name b = io.put name b := by
  unfold put
  dsimp only
  rw [Function.update_idem]

theorem put_self {content : Bytes} (hfile : io.files name = some content) :
    io.put name content = io := by
  unfold put
  rw [← hfile, Function.update_eq_self]

theorem reading_reading (io : SealedIO) (name : SealedFile) (a b : Bytes) :
    (io.reading name a).reading name b = io.reading name b := rfl

theorem reading_self {rest : Bytes} (hin : io.inSealedFile_ = some (name, ⟨rest, false⟩)) :
    io.reading name rest = io := by
  unfold reading
  rw [← hin]

/-- An open file grows by what is written. -/
theorem WriteSealedData_eq {pre : Bytes} (hout : io.outSealedFile_ = some name)
    (hfile : io.files name = some pre) (data : Bytes) :
    Ocall_WriteSealedData data io = io.put name (pre ++ data) := by
  unfold Ocall_WriteSealedData
  rw [hout]
  dsimp only
  rw [hfile, Option.getD_some]

theorem writeBufferLoop_eq {buffer pre : Bytes} {fuel offset remainSize : Nat}
    (hout : io.outSealedFile_ = some name) (hfile : io.files name = some pre)
    (hfuel : remainSize ≤ fuel) :
    writeBufferLoop buffer fuel offset remainSize io =
      io.put name (pre ++ slice buffer offset remainSize) := by
  induction fuel generalizing io pre offset remainSize with
  | zero =>
    rw [Nat.le_zero.mp hfuel, slice_zero, List.append_nil, put_self hfile]
    rfl
  | succ fuel ih =>
    unfold writeBufferLoop
    by_cases hzero : remainSize = 0
    · rw [if_pos hzero, hzero, slice_zero, List.append_nil, put_self hfile]
    · rw [if_neg hzero]
      by_cases hmore : SGX_PERSISTENCE_BUFFER_SIZE < remainSize
      · have hpos : 0 < SGX_PERSISTENCE_BUFFER_SIZE := by decide
        let piece := slice buffer offset SGX_PERSISTENCE_BUFFER_SIZE
        have hrest := @ih (io.put name (pre ++ piece)) (pre ++ piece)
          (offset + SGX_PERSISTENCE_BUFFER_SIZE) (remainSize - SGX_PERSISTENCE_BUFFER_SIZE) hout
          (put_files ..) (by omega)
        rw [if_pos hmore, WriteSealedData_eq hout hfile, hrest, put_put, List.append_assoc,
          ← slice_add, Nat.add_sub_cancel' hmore.le]
      · rw [if_neg hmore, WriteSealedData_eq hout hfile]

/-- The pieces are the buffer, whatever its length. -/
theorem WriteBufferToFile_eq {pre : Bytes} (hout : io.outSealedFile_ = some name)
    (hfile : io.files name = some pre) (buffer : Bytes) :
    WriteBufferToFile buffer io = io.put name (pre ++ buffer) := by
  unfold WriteBufferToFile
  rw [writeBufferLoop_eq hout hfile (Nat.le_refl _), slice_zero_eq_take, List.take_length]

theorem ReadSealedData_eq {data rest : Bytes}
    (hin : io.inSealedFile_ = some (name, ⟨data ++ rest, false⟩)) :
    Ocall_ReadSealedData data.length io =
      (data, io.reading name rest) := by
  unfold Ocall_ReadSealedData
  rw [hin]
  dsimp only
  rw [InFile.read_append rest _ List.length_replicate]
  rfl

/-- Nothing is left to be read. -/
theorem readFile_done {buffer data rest : Bytes} {offset : Nat}
    (hin : io.inSealedFile_ = some (name, ⟨data ++ rest, false⟩)) (hlen : data.length = 0) :
    (buffer, io) =
      (memcpy buffer offset data, io.reading name rest) := by
  rw [List.length_eq_zero_iff] at hlen
  rw [hlen, List.nil_append] at hin
  rw [hlen, reading_self hin]
  unfold memcpy
  rw [List.append_nil, List.length_nil, Nat.add_zero, List.take_append_drop]

theorem readFileLoop_eq {buffer data rest : Bytes} {fuel offset remainSize : Nat}
    (hin : io.inSealedFile_ = some (name, ⟨data ++ rest, false⟩)) (hlen : data.length = remainSize)
    (hfuel : remainSize ≤ fuel) (hbuf : offset ≤ buffer.length) :
    readFileLoop fuel offset remainSize (buffer, io) =
      (memcpy buffer offset data, io.reading name rest) := by
  induction fuel generalizing io buffer data offset remainSize with
  | zero => exact readFile_done hin (by omega)
  | succ fuel ih =>
    unfold readFileLoop
    by_cases hzero : remainSize = 0
    · rw [if_pos hzero]
      exact readFile_done hin (by omega)
    · rw [if_neg hzero]
      by_cases hmore : SGX_PERSISTENCE_BUFFER_SIZE < remainSize
      · have hpos : 0 < SGX_PERSISTENCE_BUFFER_SIZE := by decide
        -- the piece and what is behind it
        obtain ⟨piece, more, hdata, hpiece⟩ : ∃ piece more, data = piece ++ more ∧
            piece.length = SGX_PERSISTENCE_BUFFER_SIZE := by
          refine ⟨_, _, (List.take_append_drop SGX_PERSISTENCE_BUFFER_SIZE data).symm, ?_⟩
          rw [List.length_take]
          omega
        rw [hdata, List.length_append] at hlen
        rw [hdata, List.append_assoc] at hin
        rw [if_pos hmore, ← hpiece, ReadSealedData_eq hin]
        dsimp only
        have hfits : offset + piece.length ≤ (memcpy buffer offset piece).length := by
          rw [memcpy_length piece hbuf]
          omega
        have hrest := @ih (io.reading name (more ++ rest))
          (memcpy buffer offset piece) more (offset + piece.length) (remainSize - piece.length)
          rfl (by omega) (by omega) hfits
        rw [hrest, reading_reading, memcpy_memcpy piece more hbuf, ← hdata]
      · rw [if_neg hmore, ← hlen, ReadSealedData_eq hin]

/-- What is read back is what has been written, whatever its length. -/
theorem ReadFileToBuffer_eq {buffer data rest : Bytes}
    (hin : io.inSealedFile_ = some (name, ⟨data ++ rest, false⟩))
    (hbuf : buffer.length = data.length) :
    ReadFileToBuffer buffer data.length io =
      (data, io.reading name rest) := by
  unfold ReadFileToBuffer
  rw [readFileLoop_eq hin rfl (Nat.le_refl _) (Nat.zero_le _)]
  unfold memcpy
  rw [List.take_zero, List.nil_append, Nat.zero_add, List.drop_eq_nil_of_le hbuf.le,
    List.append_nil]

end Splitting

section Objects

theorem sizeBytes_length (n : Nat) : (sizeBytes n).length = 8 := rfl

theorem readSize_eq {n : Nat} (hn : n < 2 ^ 64) (rest : Bytes) :
    readSize (sizeBytes n ++ rest) 0 = n := by
  have hlow : slice (sizeBytes n ++ rest) 0 4 = le32 (UInt32.ofNat n) := rfl
  have hhigh : slice (sizeBytes n ++ rest) 4 4 = le32 (UInt32.ofNat (n / 2 ^ 32)) := rfl
  unfold readSize
  rw [read32_of_slice hlow, read32_of_slice hhigh, UInt32.toNat_ofNat', UInt32.toNat_ofNat']
  omega

theorem item_length (item : HeapItem) : item.toBytes.length = HEAP_ITEM_SIZE := by
  unfold HeapItem.toBytes HEAP_ITEM_SIZE
  rw [List.length_append, RecipeEntry.toBytes_length, List.length_append, le32_length, le32_length]

theorem readItem_eq {item : HeapItem} (hidx : item.idx < 2 ^ 32) (pre post : Bytes) :
    HeapItem.read (pre ++ (item.toBytes ++ post)) pre.length = item := by
  have haddress : slice (pre ++ (item.toBytes ++ post)) pre.length RECIPE_ENTRY_SIZE =
      item.address.toBytes := by
    unfold HeapItem.toBytes
    rw [List.append_assoc]
    exact slice_mid rfl (RecipeEntry.toBytes_length _).symm
  have hfreq : slice (pre ++ (item.toBytes ++ post)) (pre.length + RECIPE_ENTRY_SIZE) 4 =
      le32 item.chunkFreq := by
    unfold HeapItem.toBytes
    rw [List.append_assoc, List.append_assoc, ← List.append_assoc pre]
    apply slice_mid _ rfl
    rw [List.length_append, RecipeEntry.toBytes_length]
  have hplace : slice (pre ++ (item.toBytes ++ post)) (pre.length + RECIPE_ENTRY_SIZE + 4) 4 =
      le32 (UInt32.ofNat item.idx) := by
    unfold HeapItem.toBytes
    rw [List.append_assoc, List.append_assoc, ← List.append_assoc pre, ← List.append_assoc _ (le32 _)]
    apply slice_mid _ rfl
    rw [List.length_append, List.length_append, RecipeEntry.toBytes_length, le32_length]
  unfold HeapItem.read
  rw [RecipeEntry.read_of_slice haddress, read32_of_slice hfreq, read32_of_slice hplace,
    UInt32.toNat_ofNat', Nat.mod_eq_of_lt hidx]

theorem rowBytes_succ (sketchWidth : Nat) (row : Nat → UInt32) :
    rowBytes (sketchWidth + 1) row = rowBytes sketchWidth row ++ le32 (row sketchWidth) := by
  unfold rowBytes
  rw [List.range_succ, List.flatMap_append, List.flatMap_singleton]

theorem rowBytes_length (sketchWidth : Nat) (row : Nat → UInt32) :
    (rowBytes sketchWidth row).length = 4 * sketchWidth := by
  induction sketchWidth with
  | zero => rfl
  | succ n ih =>
    rw [rowBytes_succ, List.length_append, ih, le32_length]
    omega

theorem read32_rowBytes {sketchWidth p : Nat} (hp : p < sketchWidth) (row : Nat → UInt32) :
    read32 (rowBytes sketchWidth row) (4 * p) = row p := by
  apply read32_of_slice
  induction sketchWidth with
  | zero => omega
  | succ n ih =>
    have hlen := rowBytes_length n row
    rw [rowBytes_succ]
    by_cases hlast : p < n
    · rw [slice_append_left (by omega)]
      exact ih hlast
    · have heq : p = n := by omega
      have hright := slice_append_right (rowBytes n row) (le32 (row n)) 0 4
      rw [hlen, Nat.add_zero, slice_zero_eq_take] at hright
      rw [heq, hright]
      rfl

end Objects

section Sketch
variable {io : SealedIO} {name : SealedFile} {sketchWidth : Nat}

/-- `counterArray_`, row by row. -/
def sketchBytes (sketchWidth sketchDepth : Nat) (counterArray : Nat → Nat → UInt32) : Bytes :=
  (List.range sketchDepth).flatMap fun i => rowBytes sketchWidth (counterArray i)

theorem sketchBytes_succ (sketchWidth sketchDepth : Nat) (counterArray : Nat → Nat → UInt32) :
    sketchBytes sketchWidth (sketchDepth + 1) counterArray =
      sketchBytes sketchWidth sketchDepth counterArray ++
        rowBytes sketchWidth (counterArray sketchDepth) := by
  unfold sketchBytes
  rw [List.range_succ, List.flatMap_append, List.flatMap_singleton]

theorem sketchBytes_ne_nil {sketchDepth : Nat} (hwidth : 0 < sketchWidth) (hdepth : 0 < sketchDepth)
    (counterArray : Nat → Nat → UInt32) :
    (sketchBytes sketchWidth sketchDepth counterArray).length ≠ 0 := by
  obtain ⟨d, hd⟩ := Nat.exists_eq_succ_of_ne_zero hdepth.ne'
  rw [hd, sketchBytes_succ, List.length_append, rowBytes_length]
  omega

theorem writeRows_eq {pre : Bytes} (hout : io.outSealedFile_ = some name)
    (hfile : io.files name = some pre) (counterArray : Nat → Nat → UInt32) (sketchDepth : Nat) :
    (List.range sketchDepth).foldl
        (fun io i => WriteBufferToFile (rowBytes sketchWidth (counterArray i)) io) io =
      io.put name (pre ++ sketchBytes sketchWidth sketchDepth counterArray) := by
  induction sketchDepth with
  | zero =>
    have hnil : sketchBytes sketchWidth 0 counterArray = [] := rfl
    rw [hnil, List.append_nil, put_self hfile]
    rfl
  | succ d ih =>
    rw [List.range_succ, List.foldl_append, ih, List.foldl_cons, List.foldl_nil,
      @WriteBufferToFile_eq (io.put name _) name _ hout (put_files ..), put_put, List.append_assoc,
      ← sketchBytes_succ]

theorem loadRow_eq {row row' : Nat → UInt32} {rest : Bytes}
    (hin : io.inSealedFile_ = some (name, ⟨rowBytes sketchWidth row ++ rest, false⟩)) :
    loadRow sketchWidth row' io =
      (fun p => if p < sketchWidth then row p else row' p,
        io.reading name rest) := by
  have hread := ReadFileToBuffer_eq hin
    ((rowBytes_length sketchWidth row').trans (rowBytes_length sketchWidth row).symm)
  rw [rowBytes_length] at hread
  unfold loadRow
  rw [hread]
  dsimp only
  congr 1
  funext p
  by_cases hp : p < sketchWidth
  · rw [if_pos hp, if_pos hp, read32_rowBytes hp]
  · rw [if_neg hp, if_neg hp]

theorem loadRows_eq {counterArray counterArray' : Nat → Nat → UInt32} {sketchDepth : Nat}
    {rest : Bytes}
    (hin : io.inSealedFile_ =
      some (name, ⟨sketchBytes sketchWidth sketchDepth counterArray ++ rest, false⟩)) :
    loadRows sketchWidth sketchDepth counterArray' io =
      (fun i p => if i < sketchDepth ∧ p < sketchWidth then counterArray i p else counterArray' i p,
        io.reading name rest) := by
  induction sketchDepth generalizing rest with
  | zero =>
    have hnil : sketchBytes sketchWidth 0 counterArray = [] := rfl
    rw [hnil, List.nil_append] at hin
    have hrow : (fun i p => if i < 0 ∧ p < sketchWidth then counterArray i p
        else counterArray' i p) = counterArray' := by
      funext i p
      rw [if_neg fun h => Nat.not_lt_zero i h.1]
    rw [hrow, reading_self hin]
    rfl
  | succ d ih =>
    rw [sketchBytes_succ, List.append_assoc] at hin
    have hrows := ih hin
    unfold loadRows at hrows ⊢
    rw [List.range_succ, List.foldl_append, hrows, List.foldl_cons, List.foldl_nil]
    dsimp only
    rw [@loadRow_eq (io.reading name _) name sketchWidth (counterArray d) _ rest rfl,
      reading_reading]
    dsimp only
    congr 1
    funext i p
    rw [Function.update_apply]
    by_cases hi : i = d
    · rw [if_pos hi, hi]
      by_cases hp : p < sketchWidth
      · rw [if_pos hp, if_pos ⟨Nat.lt_succ_self d, hp⟩]
      · rw [if_neg hp, if_neg fun h => hp h.2, if_neg fun h => hp h.2]
    · rw [if_neg hi]
      have hlt : i < d + 1 ∧ p < sketchWidth ↔ i < d ∧ p < sketchWidth := by omega
      rw [if_congr hlt rfl rfl]

end Sketch

section Items
variable {index : Table Fp HeapItem}

/-- A key and its item in the file. -/
def pairBytes (p : Fp × HeapItem) : Bytes := p.1.val ++ p.2.toBytes

theorem pairBytes_length (p : Fp × HeapItem) :
    (pairBytes p).length = CHUNK_HASH_SIZE + HEAP_ITEM_SIZE := by
  unfold pairBytes
  rw [List.length_append, item_length, p.1.property]
  rfl

theorem pairsBytes_length (pairs : List (Fp × HeapItem)) :
    (pairs.flatMap pairBytes).length = pairs.length * (CHUNK_HASH_SIZE + HEAP_ITEM_SIZE) := by
  induction pairs with
  | nil => rw [List.flatMap_nil, List.length_nil, List.length_nil, Nat.zero_mul]
  | cons p pairs ih =>
    rw [List.flatMap_cons, List.length_append, pairBytes_length, ih, List.length_cons, Nat.succ_mul,
      Nat.add_comm]

theorem packItems_eq {keys : List Fp} (hkeys : ∀ key ∈ keys, index.lookup key ≠ none)
    {offset : Nat} {tmpBuffer : Bytes} (hoff : offset ≤ tmpBuffer.length) :
    packItems index keys offset tmpBuffer =
      some (memcpy tmpBuffer offset ((keys.filterMap fun key =>
        (index.lookup key).map fun item => (key, item)).flatMap pairBytes)) := by
  induction keys generalizing offset tmpBuffer with
  | nil =>
    unfold packItems memcpy
    rw [List.filterMap_nil, List.flatMap_nil, List.append_nil, List.length_nil, Nat.add_zero,
      List.take_append_drop]
  | cons key keys ih =>
    obtain ⟨item, hitem⟩ := Option.ne_none_iff_exists'.mp (hkeys key List.mem_cons_self)
    have hsome : ((index.lookup key).map fun item => (key, item)) = some (key, item) := by
      rw [hitem, Option.map_some]
    have hcopy : memcpy (memcpy tmpBuffer offset key.val) (offset + CHUNK_HASH_SIZE) item.toBytes =
        memcpy tmpBuffer offset (pairBytes (key, item)) := by
      have hkey : key.val.length = CHUNK_HASH_SIZE := key.property
      rw [← hkey, memcpy_memcpy _ _ hoff]
      rfl
    have hnext : offset + CHUNK_HASH_SIZE + HEAP_ITEM_SIZE =
        offset + (pairBytes (key, item)).length := by
      rw [pairBytes_length, Nat.add_assoc]
    have hfits : offset + (pairBytes (key, item)).length ≤
        (memcpy tmpBuffer offset (pairBytes (key, item))).length := by
      rw [memcpy_length _ hoff]
      exact Nat.le_max_right _ _
    unfold packItems
    rw [hitem, Option.bind_some, hcopy, hnext,
      ih (fun key' hkey => hkeys key' (List.mem_cons_of_mem key hkey)) hfits,
      memcpy_memcpy _ _ hoff, List.filterMap_cons, hsome]
    dsimp only
    rw [List.flatMap_cons]

theorem unpackItems_eq {pairs : List (Fp × HeapItem)} (hidx : ∀ p ∈ pairs, p.2.idx < 2 ^ 32)
    (pre : Bytes) (heap : EntryHeap) :
    unpackItems (pre ++ pairs.flatMap pairBytes) pairs.length pre.length heap =
      pairs.foldl loadItem heap := by
  induction pairs generalizing pre heap with
  | nil => rfl
  | cons p pairs ih =>
    have hkey : FixedBytes.read 32 (pre ++ (p :: pairs).flatMap pairBytes) pre.length = p.1 := by
      apply FixedBytes.read_of_slice
      unfold pairBytes
      rw [List.flatMap_cons, List.append_assoc]
      exact slice_mid rfl p.1.property.symm
    have hitem : HeapItem.read (pre ++ (p :: pairs).flatMap pairBytes)
        (pre.length + CHUNK_HASH_SIZE) = p.2 := by
      have hread := readItem_eq (hidx p List.mem_cons_self) (pre ++ p.1.val)
        (pairs.flatMap pairBytes)
      rw [List.length_append, p.1.property, List.append_assoc, ← List.append_assoc p.1.val] at hread
      exact hread
    have hsplit : pre ++ (p :: pairs).flatMap pairBytes =
        (pre ++ pairBytes p) ++ pairs.flatMap pairBytes := by
      rw [List.flatMap_cons, List.append_assoc]
    have hnext : pre.length + CHUNK_HASH_SIZE + HEAP_ITEM_SIZE = (pre ++ pairBytes p).length := by
      rw [List.length_append, pairBytes_length, Nat.add_assoc]
    rw [List.length_cons]
    unfold unpackItems
    rw [hkey, hitem, hnext, hsplit, ih fun q hq => hidx q (List.mem_cons_of_mem p hq)]
    rfl

end Items

section RoundTrip
variable {sketchWidth sketchDepth : Nat} {f f₀ : Filter}

/-- What the two files hold. -/
def sealedFiles (sketchWidth sketchDepth : Nat) (f : Filter) : SealedFile → Option Bytes
  | .SEALED_SKETCH => some (sketchBytes sketchWidth sketchDepth f.sketch.counterArray)
  | .SEALED_FREQ_INDEX =>
    some (sizeBytes f.heap.heap.length ++ (EcallFreqIndex.PersistDedupIndex f).heap.flatMap pairBytes)

theorem initWrite_closed (name : SealedFile) (files : SealedFile → Option Bytes) :
    Ocall_InitWriteSealedFile name (closed files) =
      (true, ⟨Function.update files name (some []), some name, none⟩) := rfl

theorem close_put (name : SealedFile) (files : SealedFile → Option Bytes) (a b : Bytes) :
    Ocall_CloseWriteSealedFile
        ( SealedIO.put ⟨Function.update files name (some a), some name, none⟩ name b) =
      closed (Function.update files name (some b)) := by
  unfold Ocall_CloseWriteSealedFile put closed
  dsimp only
  rw [Function.update_idem]

theorem PersistDedupIndex_eq (hkeys : ∀ key ∈ f.heap.heap, f.heap.index.lookup key ≠ none)
    (garbage : Nat → UInt8) (files : SealedFile → Option Bytes) :
    PersistDedupIndex sketchWidth sketchDepth garbage f (closed files) =
      some (closed (sealedFiles sketchWidth sketchDepth f)) := by
  let rows := sketchBytes sketchWidth sketchDepth f.sketch.counterArray
  let pairs := (EcallFreqIndex.PersistDedupIndex f).heap
  let n := f.heap.heap.length
  have hpairs : pairs.length = n := by
    have hfst := congrArg List.length (sealed_keys hkeys)
    rw [List.length_map] at hfst
    exact hfst
  have hrows := @writeRows_eq ⟨Function.update files .SEALED_SKETCH (some []), some .SEALED_SKETCH,
    none⟩ .SEALED_SKETCH sketchWidth [] rfl rfl f.sketch.counterArray sketchDepth
  -- the buffer holds the number of items and the items, and nothing else
  have hbuffer : ∀ tmpBuffer : Bytes,
      tmpBuffer.length = 8 + n * (CHUNK_HASH_SIZE + HEAP_ITEM_SIZE) →
      packItems f.heap.index f.heap.heap 8 (memcpy tmpBuffer 0 (sizeBytes n)) =
        some (sizeBytes n ++ pairs.flatMap pairBytes) := by
    intro tmpBuffer htmp
    have hfits : 8 ≤ (memcpy tmpBuffer 0 (sizeBytes n)).length := by
      rw [memcpy_length _ (Nat.zero_le _), sizeBytes_length, Nat.zero_add]
      exact Nat.le_max_right _ _
    have hjoin := @memcpy_memcpy tmpBuffer 0 (sizeBytes n) (pairs.flatMap pairBytes) (Nat.zero_le _)
    rw [sizeBytes_length, Nat.zero_add] at hjoin
    rw [packItems_eq hkeys hfits]
    change some (memcpy _ 8 (pairs.flatMap pairBytes)) = _
    rw [hjoin]
    unfold memcpy
    rw [List.take_zero, List.nil_append, Nat.zero_add, List.length_append, sizeBytes_length,
      pairsBytes_length, hpairs, ← htmp, List.drop_length, List.append_nil]
  unfold PersistDedupIndex
  rw [initWrite_closed]
  dsimp only
  rw [if_pos rfl, hrows, List.nil_append, close_put, initWrite_closed]
  dsimp only
  rw [if_pos rfl, hbuffer _ (by rw [List.length_map, List.length_range]), Option.map_some,
    @WriteBufferToFile_eq ⟨_, some .SEALED_FREQ_INDEX, none⟩ .SEALED_FREQ_INDEX [] rfl rfl,
    List.nil_append, close_put]
  congr 2
  funext name
  cases name with
  | SEALED_SKETCH => rfl
  | SEALED_FREQ_INDEX => rfl

theorem LoadDedupIndex_eq (hwidth : 0 < sketchWidth) (hdepth : 0 < sketchDepth)
    (hlen : (EcallFreqIndex.PersistDedupIndex f).heap.length = f.heap.heap.length)
    (hsize : f.heap.heap.length < 2 ^ 64)
    (hidx : ∀ p ∈ (EcallFreqIndex.PersistDedupIndex f).heap, p.2.idx < 2 ^ 32)
    (garbage : Nat → UInt8) (f₀ : Filter) :
    LoadDedupIndex sketchWidth sketchDepth garbage f₀ (closed (sealedFiles sketchWidth sketchDepth f)) =
      (true,
        { sketch :=
            { f₀.sketch with
              counterArray := fun i p =>
                if i < sketchDepth ∧ p < sketchWidth then f.sketch.counterArray i p
                else f₀.sketch.counterArray i p }
          heap := (EcallFreqIndex.PersistDedupIndex f).heap.foldl loadItem f₀.heap },
        closed (sealedFiles sketchWidth sketchDepth f)) := by
  let files := sealedFiles sketchWidth sketchDepth f
  let rows := sketchBytes sketchWidth sketchDepth f.sketch.counterArray
  let pairs := (EcallFreqIndex.PersistDedupIndex f).heap
  let n := f.heap.heap.length
  have hsketch : Ocall_InitReadSealedFile .SEALED_SKETCH (closed files) =
      (rows.length, (closed files).reading .SEALED_SKETCH rows) := rfl
  have hindex : Ocall_InitReadSealedFile .SEALED_FREQ_INDEX (closed files) =
      ((sizeBytes n ++ pairs.flatMap pairBytes).length,
        (closed files).reading .SEALED_FREQ_INDEX (sizeBytes n ++ pairs.flatMap pairBytes)) := rfl
  have hrows := @loadRows_eq ((closed files).reading .SEALED_SKETCH rows) .SEALED_SKETCH sketchWidth
    f.sketch.counterArray f₀.sketch.counterArray sketchDepth [] (by rw [List.append_nil]; rfl)
  have hne : (sizeBytes n ++ pairs.flatMap pairBytes).length ≠ 0 := by
    rw [List.length_append, sizeBytes_length]
    omega
  have hread := @ReadFileToBuffer_eq
    ((closed files).reading .SEALED_FREQ_INDEX (sizeBytes n ++ pairs.flatMap pairBytes))
    .SEALED_FREQ_INDEX ((List.range (sizeBytes n ++ pairs.flatMap pairBytes).length).map garbage)
    (sizeBytes n ++ pairs.flatMap pairBytes) [] (by rw [List.append_nil]; rfl)
    (by rw [List.length_map, List.length_range])
  have hitems := unpackItems_eq hidx (sizeBytes n) f₀.heap
  rw [sizeBytes_length, hlen] at hitems
  unfold LoadDedupIndex
  rw [hsketch]
  dsimp only
  rw [if_neg (sketchBytes_ne_nil hwidth hdepth _), hrows]
  dsimp only
  have hclose : Ocall_CloseReadSealedFile
      (((closed files).reading .SEALED_SKETCH rows).reading .SEALED_SKETCH []) = closed files := rfl
  rw [hclose, hindex]
  dsimp only
  rw [if_neg hne, hread]
  dsimp only
  rw [readSize_eq hsize, hitems]
  rfl

/-- On its sketch the enclave reads back what the other modules say it does. -/
theorem load_refines (hlen : (EcallFreqIndex.PersistDedupIndex f).heap.length = f.heap.heap.length)
    (hsize : f.heap.heap.length < 2 ^ 64)
    (hidx : ∀ p ∈ (EcallFreqIndex.PersistDedupIndex f).heap, p.2.idx < 2 ^ 32)
    (garbage : Nat → UInt8) (f₀ : Filter) :
    (LoadDedupIndex Prototype.sketchWidth Prototype.sketchDepth garbage f₀
        (closed (sealedFiles Prototype.sketchWidth Prototype.sketchDepth f))).2.1 =
      EcallFreqIndex.LoadDedupIndex (EcallFreqIndex.PersistDedupIndex f) f₀ := by
  have hwidth : 0 < Prototype.sketchWidth := by decide
  have hdepth : 0 < Prototype.sketchDepth := by decide
  rw [LoadDedupIndex_eq hwidth hdepth hlen hsize hidx garbage f₀]
  dsimp only
  unfold EcallFreqIndex.LoadDedupIndex
  congr 2
  funext i p
  have hread : (((EcallFreqIndex.PersistDedupIndex f).sketch[i]?).bind fun row => row[p]?) =
      if i < Prototype.sketchDepth ∧ p < Prototype.sketchWidth then
        some (f.sketch.counterArray i p) else none := by
    unfold EcallFreqIndex.PersistDedupIndex
    dsimp only
    rw [List.getElem?_map]
    by_cases hi : i < Prototype.sketchDepth
    · rw [List.getElem?_range hi, Option.map_some, Option.bind_some, List.getElem?_map]
      by_cases hp : p < Prototype.sketchWidth
      · rw [List.getElem?_range hp, Option.map_some, if_pos ⟨hi, hp⟩]
      · rw [List.getElem?_eq_none (by rw [List.length_range]; omega), Option.map_none,
          if_neg fun h => hp h.2]
    · rw [List.getElem?_eq_none (by rw [List.length_range]; omega), Option.map_none,
        Option.bind_none, if_neg fun h => hi h.1]
  rw [hread]
  split
  · rw [Option.getD_some]
  · rw [Option.getD_none]

/-- A file written from a buffer is read into another buffer of its length. -/
theorem write_read (buffer tmpBuffer : Bytes) (hlen : tmpBuffer.length = buffer.length)
    (name : SealedFile) (files : SealedFile → Option Bytes) :
    ∃ io, Ocall_CloseWriteSealedFile
          (WriteBufferToFile buffer (Ocall_InitWriteSealedFile name (closed files)).2) = io ∧
      (Ocall_InitReadSealedFile name io).1 = buffer.length ∧
      (ReadFileToBuffer tmpBuffer buffer.length (Ocall_InitReadSealedFile name io).2).1 =
        buffer := by
  refine ⟨_, rfl, ?_⟩
  have hwrite : Ocall_CloseWriteSealedFile
      (WriteBufferToFile buffer (Ocall_InitWriteSealedFile name (closed files)).2) =
      closed (Function.update files name (some buffer)) := by
    have hfile : Function.update files name (some []) name = some [] := Function.update_self ..
    rw [initWrite_closed]
    dsimp only
    rw [@WriteBufferToFile_eq ⟨Function.update files name (some []), some name, none⟩ name [] rfl
      hfile, List.nil_append, close_put]
  have hopen : Ocall_InitReadSealedFile name (closed (Function.update files name (some buffer))) =
      (buffer.length,
        (closed (Function.update files name (some buffer))).reading name buffer) := by
    unfold Ocall_InitReadSealedFile closed
    dsimp only
    rw [Function.update_self]
  rw [hwrite, hopen]
  refine ⟨rfl, ?_⟩
  rw [@ReadFileToBuffer_eq _ name tmpBuffer buffer [] (by rw [List.append_nil]; rfl) hlen]

end RoundTrip

section ReadBack

/-- A heap whose places fit into `idx` is small enough for `itemNum`. -/
theorem length_of_idx {h : EntryHeap} (hok : h.Ok)
    (hidx : ∀ key it, h.index.lookup key = some it → it.idx < 2 ^ 32) :
    h.heap.length ≤ 2 ^ 32 := by
  by_contra hlong
  have hlt : 2 ^ 32 < h.heap.length := not_le.mp hlong
  have hplace : h.heap[2 ^ 32]? = some h.heap[2 ^ 32] := List.getElem?_eq_getElem hlt
  obtain ⟨it, hit⟩ := hok.located.item_isSome hplace
  have hbound := hidx _ it hit
  rw [hok.located.idx hlt.ne hplace hit] at hbound
  exact Nat.lt_irrefl _ hbound

/-- Whatever is sealed is read back, whatever stands in the memory that `malloc` returns; `idx` is a
`uint32_t`, and the counter of a chunk in a row is found by a division by the width. -/
theorem sealed_round_trip {sketchWidth sketchDepth : Nat} (hwidth : 0 < sketchWidth)
    (hdepth : 0 < sketchDepth) {f f₀ : Filter} (hok : f.heap.Ok)
    (hidx : ∀ key it, f.heap.index.lookup key = some it → it.idx < 2 ^ 32)
    (hfresh : f₀.heap = .empty) (garbage garbage' : Nat → UInt8)
    (files : SealedFile → Option Bytes) :
    (∃ io f', PersistDedupIndex sketchWidth sketchDepth garbage f (closed files) = some io ∧
      LoadDedupIndex sketchWidth sketchDepth garbage' f₀ io = (true, f', io) ∧
      (∀ i < sketchDepth, ∀ p < sketchWidth,
        f'.sketch.counterArray i p = f.sketch.counterArray i p) ∧
      f'.heap.heap = f.heap.heap ∧
      (∀ key, f'.heap.index.lookup key = f.heap.index.lookup key) ∧ f'.heap.Ok) ∧
    ∀ (buffer tmpBuffer : Bytes), tmpBuffer.length = buffer.length → ∀ name,
      ∃ io, Ocall_CloseWriteSealedFile
            (WriteBufferToFile buffer (Ocall_InitWriteSealedFile name (closed files)).2) = io ∧
        (Ocall_InitReadSealedFile name io).1 = buffer.length ∧
        (ReadFileToBuffer tmpBuffer buffer.length (Ocall_InitReadSealedFile name io).2).1 =
          buffer := by
  have hkeys : ∀ key ∈ f.heap.heap, f.heap.index.lookup key ≠ none := by
    intro key hkey
    obtain ⟨i, hi⟩ := List.mem_iff_getElem?.mp hkey
    exact (hok.located.keys key).mp ⟨i, hi⟩
  have hlen : (EcallFreqIndex.PersistDedupIndex f).heap.length = f.heap.heap.length := by
    have hfst := congrArg List.length (sealed_keys hkeys)
    rw [List.length_map] at hfst
    exact hfst
  have hsize : f.heap.heap.length < 2 ^ 64 := by
    have hle := length_of_idx hok hidx
    omega
  have hitems : ∀ p ∈ (EcallFreqIndex.PersistDedupIndex f).heap, p.2.idx < 2 ^ 32 := by
    intro p hp
    obtain ⟨key, _, hsome⟩ := List.mem_filterMap.mp hp
    obtain ⟨item, hitem, heq⟩ := Option.map_eq_some_iff.mp hsome
    rw [← heq]
    exact hidx key item hitem
  have halike := load_heap hok hfresh
  refine ⟨⟨closed (sealedFiles sketchWidth sketchDepth f), _, PersistDedupIndex_eq hkeys garbage files,
    LoadDedupIndex_eq hwidth hdepth hlen hsize hitems garbage' f₀, ?_, halike.heap, halike.index,
    halike.ok hok⟩, fun buffer tmpBuffer htmp name => write_read buffer tmpBuffer htmp name files⟩
  intro i hi p hp
  exact if_pos ⟨hi, hp⟩

/-- A sketch and a heap of three chunks: the third has moved up past both others. -/
def sampleFilter : Filter where
  sketch := ⟨fun i p => UInt32.ofNat (i + p), 7⟩
  heap := ((EntryHeap.empty.Add (FixedBytes.fill 32 1) ⟨RecipeEntry.read [] 0, 7, 0⟩).Add
    (FixedBytes.fill 32 2) ⟨RecipeEntry.read [] 0, 9, 0⟩).Add
      (FixedBytes.fill 32 3) ⟨RecipeEntry.read [1, 2, 3] 0, 5, 0⟩

theorem sealed_round_trip_sample :
    ∃ io f', PersistDedupIndex Prototype.sketchWidth Prototype.sketchDepth (fun _ => 255)
        sampleFilter (closed fun _ => none) = some io ∧
      LoadDedupIndex Prototype.sketchWidth Prototype.sketchDepth (fun _ => 255)
        ⟨.empty, .empty⟩ io = (true, f', io) ∧
      f'.sketch.counterArray 3 9 = 12 ∧
      f'.heap.heap = [FixedBytes.fill 32 3, FixedBytes.fill 32 2, FixedBytes.fill 32 1] ∧
      (f'.heap.index.lookup (FixedBytes.fill 32 3)).map (fun it => (it.chunkFreq, it.idx)) =
        some (5, 0) ∧
      (f'.heap.index.lookup (FixedBytes.fill 32 1)).map (fun it => (it.chunkFreq, it.idx)) =
        some (7, 2) := by
  have hok : sampleFilter.heap.Ok :=
    (((EntryHeap.ok_empty.add rfl _).1.add (by decide) _).1.add (by decide) _).1
  have hidx : ∀ key it, sampleFilter.heap.index.lookup key = some it → it.idx < 2 ^ 32 := by
    intro key it hit
    obtain ⟨i, hi⟩ := (hok.located.keys key).mpr (by rw [hit]; exact Option.some_ne_none it)
    have hlt := (List.getElem?_eq_some_iff.mp hi).1
    have hthree : sampleFilter.heap.heap.length = 3 := by decide +kernel
    rw [hok.located.idx hlt.ne hi hit]
    omega
  obtain ⟨⟨io, f', hpersist, hload, hcounters, hheap, hindex, _⟩, _⟩ :=
    @sealed_round_trip Prototype.sketchWidth Prototype.sketchDepth (by decide) (by decide) _
      ⟨.empty, .empty⟩ hok hidx rfl (fun _ => 255) (fun _ => 255) (fun _ => none)
  refine ⟨io, f', hpersist, hload, ?_, ?_, ?_, ?_⟩
  · rw [hcounters 3 (by decide) 9 (by decide)]
    rfl
  · rw [hheap]
    decide +kernel
  · rw [hindex]
    decide +kernel
  · rw [hindex]
    decide +kernel

end ReadBack

end SealedIO

end ShieldReduce.Prototype
