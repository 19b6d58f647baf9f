import Ucesb.Checks
import Ucesb.ChunkCursor
import Ucesb.LmdEvent

namespace Ucesb

def sizeofBufhe : Nat := 48
def sizeofFilheExtra : Nat := 2716
def sizeofFilheStrings : Nat := 2400
def sizeofFilheString : Nat := 80
def offsetofFilheLines : Nat := 312
def lmdBufHeaderMaxIusedDlen : Nat := 16360

/-- `s_bufhe_host`, without the members that are only printed. -/
structure BufHeader where
  lDlen : UInt32
  iType : UInt16
  iSubtype : UInt16
  iUsed : UInt16
  hEnd : UInt8
  hBegin : UInt8
  lBuf : UInt32
  lEvt : UInt32
  lFree1 : UInt32
  lFree2 : UInt32
  lFree3 : UInt32
deriving DecidableEq, Repr

namespace BufHeader

def decode (bs : List UInt8) : BufHeader where
  lDlen := UInt32.ofNat (rd32 bs)
  iType := UInt16.ofNat (rd16 (bs.drop 4))
  iSubtype := UInt16.ofNat (rd16 (bs.drop 6))
  iUsed := UInt16.ofNat (rd16 (bs.drop 8))
  hEnd := bs.getD 10 0
  hBegin := bs.getD 11 0
  lBuf := UInt32.ofNat (rd32 (bs.drop 12))
  lEvt := UInt32.ofNat (rd32 (bs.drop 16))
  lFree1 := UInt32.ofNat (rd32 (bs.drop 36))
  lFree2 := UInt32.ofNat (rd32 (bs.drop 40))
  lFree3 := UInt32.ofNat (rd32 (bs.drop 44))

def encode (h : BufHeader) : List UInt8 :=
  le32 h.lDlen.toNat ++ le16 h.iType.toNat ++ le16 h.iSubtype.toNat ++ le16 h.iUsed.toNat ++
    [h.hEnd, h.hBegin] ++ le32 h.lBuf.toNat ++ le32 h.lEvt.toNat ++ le32 0 ++ le32 0 ++ le32 0 ++
    le32 1 ++ le32 h.lFree1.toNat ++ le32 h.lFree2.toNat ++ le32 h.lFree3.toNat

/-- A buffer that `lmd_input_tcp.cc` puts in to keep the stream going. -/
def isDummy (h : BufHeader) : Bool :=
  h.lBuf == 0 && h.iUsed == 0 && h.lFree2 == 0 && h.lEvt == 0 &&
    h.iType == 0x2c7a && h.iSubtype == 0x28ae && h.lFree3 == 0x2faea5a9

def isFileHeader (h : BufHeader) : Bool := h.iType == 2000 && h.iSubtype == 1

def hasSticky (h : BufHeader) : Bool :=
  (h.iType == 0x4b59 && h.iSubtype == 0x5354) || (h.iType == 0x4bb3 && h.iSubtype == 0x5354)

def varsize (h : BufHeader) : Bool :=
  (h.iType == 100 && h.iSubtype == 1) || (h.iType == 0x4bb3 && h.iSubtype == 0x5354)

def isBufHeader (h : BufHeader) : Bool :=
  (h.iType == 10 && h.iSubtype == 1) || h.hasSticky || h.varsize

def sizeFromDlen (h : BufHeader) : Nat := h.lDlen.toNat * 2 + sizeofBufhe

def usedFromIused (h : BufHeader) : Nat := h.iUsed.toNat * 2

/-- The used size is in `i_used`, not in `l_free[2]`. -/
def isSmall (h : BufHeader) : Bool :=
  decide (h.lDlen.toNat ≤ lmdBufHeaderMaxIusedDlen) && !h.varsize

/-- The length of a file header in a large buffer is not the one of `l_dlen`. -/
def isLying (h : BufHeader) : Bool :=
  decide (lmdBufHeaderMaxIusedDlen < h.lDlen.toNat) && h.lEvt == 0 && h.iUsed != 0

def fileHeaderSize (h : BufHeader) : Nat :=
  if h.isFileHeader then (if h.isLying then h.usedFromIused else sizeofFilheExtra) else 0

def headerSize (h : BufHeader) : Nat := sizeofBufhe + h.fileHeaderSize

end BufHeader

/-- `EVENT_DATA_LENGTH_FROM_DLEN` and `BUFFER_USED_FROM_IUSED`, in `uint32_t`. -/
def lengthFromDlen32 (dlen : UInt32) : Nat := (dlen * 2).toNat

/-- `buf_chunk chunks[2]`, as `map_range` leaves them. -/
inductive MappedChunks
  | none
  | one (c : List UInt8)
  | two (c d : List UInt8)
deriving DecidableEq

def MappedChunks.list : MappedChunks → List (List UInt8)
  | .none => []
  | .one c => [c]
  | .two c d => [c, d]

/-- `input_buffer`. A range that is mapped is mapped as a whole. -/
structure InputBuffer where
  stream : List UInt8
  maxItemLength : Nat
  /-- Nothing if `map_range` reports an error. -/
  mapRange : Nat → Nat → Option MappedChunks
  mapped : ∀ start length m, mapRange start length = some m → m ≠ .none →
    start + length ≤ stream.length ∧ m.list.flatten = slice stream start length

inductive RecordError
  | input
  | endianMarker
  | dlenZero
  | dlenLarge
  | dlenBlocksize
  | bufferTooLarge
  | lastEventTooLarge
  | fileHeaderRead
  | typeSubtype
  | usedSmall
  | usedLarge
  | usedMore
  | bufferNumbers
  | recordData
  | emptyClaims
  | noEvents
  | fragmentHeader
  | fragmentLarger
  | internal
deriving DecidableEq

/-- The members of `lmd_source` that `read_record` and `get_event` use. The chunks are those from
`_chunk_cur` to `_chunk_end`. -/
structure LmdSource where
  cur : Nat
  swapping : Bool
  header : BufHeader
  fileHeader : List UInt8
  lastBufferNo : UInt32
  eventsLeft : UInt32
  firstBufSticky : Bool
  chunks : List (List UInt8)
deriving DecidableEq

inductive RecordStop
  /-- `read_record` returns false. -/
  | eof
  | report (e : RecordError)
  /-- An error too, after which `skip_record` lets the events of the record be read. -/
  | expectedFragment (s : LmdSource)
  /-- More is copied to `_file_header` than it can hold. -/
  | overflow
  | assertion
  /-- There are no more turns. -/
  | endless
deriving DecidableEq

namespace InputBuffer

variable (inp : InputBuffer)

def map (start length : Nat) : Except RecordStop MappedChunks :=
  match inp.mapRange start length with
  | none => .error (.report .input)
  | some m => .ok m

def readRange (start length : Nat) (short : RecordStop) : Except RecordStop (List UInt8) := do
  let m ← inp.map start length
  errorIf (m = .none) short
  return m.list.flatten

end InputBuffer

/-- `l_free[0]` tells the byte order. -/
def bufferSwapping (raw : List UInt8) : Except RecordStop Bool :=
  if rd32 (raw.drop 32) = 0x00000001 then .ok false
  else if rd32 (raw.drop 32) = 0x01000000 then .ok true
  else .error (.report .endianMarker)

structure HeaderRead where
  pos : Nat
  swapping : Bool
  header : BufHeader
deriving DecidableEq

/-- The next header that is not of a dummy buffer. -/
def readBufferHeader (inp : InputBuffer) : Nat → Nat → Except RecordStop HeaderRead
  | 0, _ => .error .endless
  | fuel + 1, cur => do
    let raw ← inp.readRange cur sizeofBufhe .eof
    let swapping ← bufferSwapping raw
    let header := BufHeader.decode (swapIf swapping raw)
    if header.isDummy then
      let _ ← inp.map (cur + sizeofBufhe) (header.lDlen.toNat * 2)
      readBufferHeader inp fuel (cur + sizeofBufhe + header.lDlen.toNat * 2)
    else return ⟨cur + sizeofBufhe, swapping, header⟩

/-- Buffers are multiples of 1024 bytes, also if `l_dlen` counts the header of a file header. -/
def blockSize (h : BufHeader) : Except RecordStop Nat :=
  if h.varsize = false ∧ (h.sizeFromDlen = 0 ∨ h.sizeFromDlen % 1024 ≠ 0) then
    if h.isFileHeader = true ∧ h.lDlen.toNat * 2 ≠ 0 ∧ h.lDlen.toNat * 2 % 1024 = 0 then
      .ok (h.lDlen.toNat * 2)
    else .error (.report .dlenBlocksize)
  else .ok h.sizeFromDlen

def bufferSizeDlen (inp : InputBuffer) (h : BufHeader) : Except RecordStop Nat := do
  errorIf (h.lDlen = 0) (.report .dlenZero)
  errorIf (0x20000000 < h.lDlen.toNat) (.report .dlenLarge)
  let size ← blockSize h
  errorIf (inp.maxItemLength < size) (.report .bufferTooLarge)
  errorIf (inp.maxItemLength < lengthFromDlen32 h.lFree1) (.report .lastEventTooLarge)
  return size

/-- The file header in memory, after the part that was read. `byteswap_32` of it changes nothing:
it does not store what it has swapped. -/
def readFileHeader (inp : InputBuffer) (r : HeaderRead) (fileHeader : List UInt8) :
    Except RecordStop (List UInt8) :=
  if r.header.isFileHeader then do
    let bs ← inp.readRange r.pos r.header.fileHeaderSize (.report .fileHeaderRead)
    errorIf (sizeofFilheExtra < bs.length) .overflow
    return bs ++ fileHeader.drop bs.length
  else do
    errorIf (r.header.isBufHeader = false) (.report .typeSubtype)
    return fileHeader

def fileHeaderUsedSize (fileHeader : List UInt8) : Nat :=
  sizeofFilheExtra - sizeofFilheStrings +
    min 30 (rd32 (fileHeader.drop offsetofFilheLines)) * sizeofFilheString

/-- `buffer_size_dlen`, once the file header has been seen. -/
def BufHeader.bufferSize (h : BufHeader) (size : Nat) : Nat :=
  if h.isFileHeader && h.isLying then h.headerSize else size

def bufUsed (h : BufHeader) (fileHeader : List UInt8) : Except RecordStop Nat :=
  if h.isSmall then do
    errorIf (h.lFree2 ≠ 0 ∧ h.lFree2.toNat ≠ h.iUsed.toNat) (.report .usedSmall)
    return h.usedFromIused
  else do
    errorIf (h.iUsed ≠ 0 ∧
        ¬(h.isFileHeader = true ∧ h.usedFromIused = fileHeaderUsedSize fileHeader))
      (.report .usedLarge)
    return lengthFromDlen32 h.lFree2

/-- A used size that is the one of the file header leaves nothing for events. -/
def BufHeader.dataUsed (h : BufHeader) (fileHeader : List UInt8) (used : Nat) : Nat :=
  if h.isFileHeader = true ∧ used = fileHeaderUsedSize fileHeader then 0 else used

/-- The numbers of the buffers are followed: gaps are let through, with a warning. -/
def BufHeader.wrongNumber (h : BufHeader) (last : UInt32) (expectFragment : Bool) : Bool :=
  last + 1 != h.lBuf && last != 0 && (decide (h.lBuf ≤ last) || expectFragment)

def BufHeader.dataSize (h : BufHeader) (size used : Nat) : Nat :=
  if h.varsize then used else size - h.headerSize

def BufHeader.unusedSize (h : BufHeader) (size used : Nat) : Nat :=
  if h.varsize then 0 else size - (h.headerSize + used)

/-- The unused part is cut from the last chunk, or with all of it from the first. -/
def cutUnused (unused : Nat) : MappedChunks → Except RecordStop (List (List UInt8))
  | .none => .error .assertion
  | .one c =>
    if c.length ≤ unused then .error .assertion else .ok [c.take (c.length - unused)]
  | .two c d =>
    if d.length ≤ unused then .ok [c.take (c.length - (unused - d.length))]
    else .ok [c, d.take (d.length - unused)]

def skipFragment (s : LmdSource) (used : Nat) : Except RecordStop LmdSource :=
  match getRange sizeofEventHeader s.chunks with
  | none => .error (.report .fragmentHeader)
  | some (raw, rest) =>
    let fragSize := lengthFromDlen32 (LmdEventHeader.decode (swapIf s.swapping raw)).lDlen
    if used < fragSize then .error (.report .fragmentLarger)
    else
      match skipRange fragSize rest with
      | none => .error (.report .internal)
      | some rest => .ok { s with chunks := rest, eventsLeft := s.eventsLeft - 1 }

/-- The part of `read_record` after the data has been mapped. -/
def setChunks (s : LmdSource) (expectFragment : Bool) (size used : Nat) (m : MappedChunks) :
    Except RecordStop LmdSource :=
  let h := s.header
  if h.unusedSize size used = h.dataSize size used then do
    errorIf (h.hEnd ≠ 0 ∨ h.hBegin ≠ 0 ∨ h.lEvt ≠ 0) (.report .emptyClaims)
    return { s with eventsLeft := 0, chunks := [] }
  else do
    errorIf (h.lEvt = 0 ∧ h.dataSize size used ≠ 0) (.report .noEvents)
    errorIf (h.dataSize size used ≤ h.unusedSize size used) .assertion
    let chunks ← cutUnused (h.unusedSize size used) m
    let s := { s with lastBufferNo := h.lBuf, eventsLeft := h.lEvt, chunks := chunks }
    if (h.hEnd == 1) = expectFragment then return s
    else if expectFragment then .error (.expectedFragment s)
    else skipFragment s used

/-- The header has been accepted: what comes before the data, the size of the buffer, and how much
of it is used. -/
structure RecordPlan where
  read : HeaderRead
  fileHeader : List UInt8
  size : Nat
  used : Nat
deriving DecidableEq

namespace RecordPlan

def dataPos (p : RecordPlan) : Nat := p.read.pos + p.read.header.fileHeaderSize

def dataSize (p : RecordPlan) : Nat := p.read.header.dataSize p.size p.used

def source (p : RecordPlan) (s : LmdSource) : LmdSource :=
  { s with
    cur := p.dataPos + p.dataSize
    swapping := p.read.swapping
    header := p.read.header
    fileHeader := p.fileHeader
    firstBufSticky := p.read.header.hasSticky }

end RecordPlan

/-- `read_record`, up to where the data is mapped. -/
def checkHeader (inp : InputBuffer) (s : LmdSource) (expectFragment : Bool) :
    Except RecordStop RecordPlan := do
  let r ← readBufferHeader inp (inp.stream.length + 1) s.cur
  let block ← bufferSizeDlen inp r.header
  let fileHeader ← readFileHeader inp r s.fileHeader
  let used ← bufUsed r.header fileHeader
  let p : RecordPlan :=
    ⟨r, fileHeader, r.header.bufferSize block, r.header.dataUsed fileHeader used⟩
  errorIf (p.size < r.header.headerSize + p.used) (.report .usedMore)
  errorIf (r.header.wrongNumber s.lastBufferNo expectFragment = true) (.report .bufferNumbers)
  return p

/-- `read_record`. That the data size is not negative has been checked with the used size. -/
def readRecord (inp : InputBuffer) (s : LmdSource) (expectFragment : Bool) :
    Except RecordStop LmdSource := do
  let p ← checkHeader inp s expectFragment
  let m ← inp.map p.dataPos p.dataSize
  errorIf (m = .none) (.report .recordData)
  setChunks (p.source s) expectFragment p.size p.used m

end Ucesb
