import Ucesb.SizeT
import Ucesb.LmdRecord
import Ucesb.StickyStore

namespace Ucesb

/-- `_buf_size` and `_stream_bufs`, as `parse_open_lmd_server` lets them pass. -/
structure StreamConf where
  bufSize : Nat
  streamBufs : Nat
  writeNative : Bool
  bufSize_block : 1024 ∣ bufSize
  size_pos : 0 < streamBufs * bufSize
  size_le : streamBufs * bufSize ≤ 0xffff0000

theorem default_pos : 0 < 8 * 0x80000 := by decide

theorem default_le : 8 * 0x80000 ≤ 0xffff0000 := by decide

def StreamConf.default : StreamConf :=
  ⟨0x80000, 8, true, ⟨512, rfl⟩, default_pos, default_le⟩

structure OutBuffer where
  hEnd : Bool
  hBegin : Bool
  lEvt : Nat
  lFree1 : UInt32
  hasSticky : Bool
  data : List UInt8
  -- no field of the source: the numbers of the events that have a fragment in the buffer
  events : List Nat

def OutBuffer.empty : OutBuffer := ⟨false, false, 0, 0, false, [], []⟩

def OutBuffer.note (b : OutBuffer) (event : LmdEventOut) (number : Nat) : OutBuffer :=
  { b with
    hasSticky := b.hasSticky || event.header.isSticky
    lEvt := b.lEvt + 1
    events := b.events ++ [number] }

/-- The members of `lmd_output_tcp` that the producer uses to place events. -/
structure TcpWriter where
  stickyStore : StickyStore
  /-- The streams that have been filled. -/
  sent : List (List OutBuffer)
  /-- `_fill_stream`: `_filled`, and the buffers it counts. -/
  fill : Option (Nat × List OutBuffer)
  cur : Option OutBuffer
  curBufLeft : Nat
  streamLeft : Nat
  streamLeftMax : Nat
  /-- What `_need_recovery_stream` and `flush_buffer` will say, in order; after that they say no. -/
  answers : List Bool
  -- no field of the source: how many events have been given to `write_event`
  calls : Nat

inductive WriteStop
  /-- The sticky store reports an error. -/
  | sticky (msg : String)
  /-- "Event is too large for the stream". -/
  | tooLarge
  /-- The assertions that lengths are even. -/
  | odd
  /-- The assertion that whole words are swapped. -/
  | align
  /-- The assertions on the space that is left. -/
  | space
  /-- A pointer is used that does not point to anything. -/
  | crash
  /-- A loop that does not end. -/
  | spin
deriving DecidableEq

def TcpWriter.init (answers : List Bool) : TcpWriter where
  stickyStore := StickyStore.empty
  sent := []
  fill := none
  cur := none
  curBufLeft := 0
  streamLeft := 0
  streamLeftMax := 0
  answers := answers
  calls := 0

namespace TcpWriter

variable (conf : StreamConf)

def modifyCur (s : TcpWriter) (f : OutBuffer → OutBuffer) : TcpWriter :=
  { s with cur := s.cur.map f }

/-- `send_buffer` and `write_buffer`: buffers are never compacted here. -/
def sendBuffer (s : TcpWriter) : Except WriteStop TcpWriter :=
  match s.cur with
  | none => .ok s
  | some b =>
    match s.fill with
    | none => .error .crash
    | some (filled, bufs) =>
      if conf.streamBufs * conf.bufSize ≤ filled + conf.bufSize then
        .ok { s with sent := s.sent ++ [bufs ++ [b]], fill := none }
      else .ok { s with fill := some (filled + conf.bufSize, bufs ++ [b]) }

/-- `get_buffer`. The first buffer loses its header, the others also that of a fragment. -/
def getBuffer (s : TcpWriter) : Except WriteStop TcpWriter :=
  match s.fill with
  | some (filled, _) => do
    errorIf (conf.streamBufs * conf.bufSize ≤ filled) .space
    let left := conf.streamBufs * conf.bufSize - filled
    let headers := sizeofBufhe + (left / conf.bufSize - 1) * (sizeofBufhe + sizeofEventHeader)
    return { s with streamLeft := sizeDiff left headers }
  | none =>
    let left := sizeDiff (conf.streamBufs * (conf.bufSize - sizeofBufhe))
      ((conf.streamBufs - 1) * sizeofEventHeader)
    .ok { s with fill := some (0, []), streamLeft := left, streamLeftMax := left }

/-- `new_buffer`, without a replay. -/
def nextBuffer (s : TcpWriter) : Except WriteStop TcpWriter := do
  let s ← s.sendBuffer conf
  let s ← s.getBuffer conf
  return { s with cur := some .empty, curBufLeft := conf.bufSize - sizeofBufhe }

def copyToBuffer (s : TcpWriter) (data : List UInt8) (swap : Bool) :
    Except WriteStop TcpWriter := do
  errorIf (s.curBufLeft < data.length) .space
  errorIf (swap = true ∧ data.length % 4 ≠ 0) .align
  return { s.modifyCur fun b => { b with data := b.data ++ swapIf swap data } with
    curBufLeft := s.curBufLeft - data.length
    streamLeft := sizeDiff s.streamLeft data.length }

def copyChunk (s : TcpWriter) (c : BufChunkSwap) : Except WriteStop TcpWriter :=
  s.copyToBuffer c.data (conf.writeNative == c.swapping)

/-- The loop that copies chunks until the buffer is full: what is left of them. -/
def fillBuffer : TcpWriter → List BufChunkSwap → Except WriteStop (TcpWriter × List BufChunkSwap)
  | _, [] => .error .crash
  | s, c :: more =>
    if s.curBufLeft < c.data.length then do
      let s' ← s.copyChunk conf ⟨c.data.take s.curBufLeft, c.swapping⟩
      return (s', ⟨c.data.drop s.curBufLeft, c.swapping⟩ :: more)
    else do
      let s ← s.copyChunk conf c
      fillBuffer s more

def copyHeader (s : TcpWriter) (header : LmdEventHeader) (size : Nat) :
    Except WriteStop TcpWriter :=
  s.copyToBuffer { header with lDlen := UInt32.ofNat (size / 2) }.encode !conf.writeNative

def noteFragment (s : TcpWriter) (event : LmdEventOut) (number : Nat) : TcpWriter :=
  s.modifyCur fun b => b.note event number

/-- An event on its way into the buffers: the size and the chunks that are left. -/
structure Cutting where
  writer : TcpWriter
  left : Nat
  rest : List BufChunkSwap

def writeFragment (event : LmdEventOut) (number : Nat) (w : Cutting) :
    Except WriteStop Cutting := do
  errorIf (w.writer.curBufLeft ≤ sizeofEventHeader) .space
  let size := w.writer.curBufLeft - sizeofEventHeader
  errorIf (w.left ≤ size) .space
  errorIf (size % 2 ≠ 0) .odd
  let s := w.writer.modifyCur fun b =>
    { b with lFree1 := UInt32.ofNat (event.getLength / 2) }
  let s ← s.copyHeader conf event.header size
  let r ← s.fillBuffer conf w.rest
  errorIf (r.1.curBufLeft ≠ 0) .space
  return ⟨(r.1.noteFragment event number).modifyCur fun b => { b with hBegin := true },
    w.left - size, r.2⟩

/-- Fragments are written while the rest of the event does not fit into the buffer. -/
def writeFragments (newBuffer : TcpWriter → Except WriteStop TcpWriter) (event : LmdEventOut)
    (number : Nat) : Nat → Cutting → Except WriteStop Cutting
  | 0, _ => .error .spin
  | fuel + 1, w =>
    if sizeofEventHeader + w.left ≤ w.writer.curBufLeft then .ok w
    else do
      let w ← writeFragment conf event number w
      let s ← newBuffer w.writer
      writeFragments newBuffer event number fuel
        { w with writer := s.modifyCur fun b => { b with hEnd := true } }

def finishEvent (event : LmdEventOut) (number : Nat) (w : Cutting) :
    Except WriteStop TcpWriter := do
  errorIf (w.left % 2 ≠ 0) .odd
  let s ← w.writer.copyHeader conf event.header w.left
  let s ← w.rest.foldlM (copyChunk conf) s
  return s.noteFragment event number

def flushStream (newBuffer : TcpWriter → Except WriteStop TcpWriter) :
    Nat → TcpWriter → Except WriteStop TcpWriter
  | 0, s => if s.streamLeft = s.streamLeftMax then .ok s else .error .spin
  | fuel + 1, s =>
    if s.streamLeft = s.streamLeftMax then .ok s
    else do
      let s ← newBuffer s
      flushStream newBuffer fuel s

/-- Buffers are flushed while `flush_buffer` says so. -/
def flushBuffers (newBuffer : TcpWriter → Except WriteStop TcpWriter) :
    Nat → TcpWriter → Except WriteStop TcpWriter
  | 0, s => .ok s
  | fuel + 1, s =>
    match s.answers with
    | true :: answers => do
      let s ← newBuffer { s with answers := answers }
      flushBuffers newBuffer fuel s
    | false :: answers => .ok { s with answers := answers }
    | [] => .ok s

/-- A header is not written without any data, so that a new buffer is taken if there is no room for
more. -/
def ensureBuffer (newBuffer : TcpWriter → Except WriteStop TcpWriter) (s : TcpWriter) :
    Except WriteStop TcpWriter :=
  if s.curBufLeft ≤ sizeofEvent101 then newBuffer s else .ok s

def makeRoom (newBuffer : TcpWriter → Except WriteStop TcpWriter) (s : TcpWriter) (length : Nat) :
    Except WriteStop TcpWriter := do
  let s ← ensureBuffer newBuffer s
  if s.streamLeft < sizeofEventHeader + length then do
    errorIf (s.streamLeftMax < sizeofEventHeader + length) .tooLarge
    flushStream newBuffer conf.streamBufs s
  else return s

/-- `write_event`, but for the sticky store. -/
def placeEvent (newBuffer : TcpWriter → Except WriteStop TcpWriter) (s : TcpWriter)
    (event : LmdEventOut) : Except WriteStop TcpWriter := do
  let number := s.calls
  let s ← makeRoom conf newBuffer { s with calls := number + 1 } event.getLength
  let w ← writeFragments conf newBuffer event number (event.getLength + 1)
    ⟨s, event.getLength, event.chunks⟩
  let s ← finishEvent conf event number w
  flushBuffers newBuffer s.answers.length s

/-- `do_sticky_replay`, where it does not say no at once. -/
def wantsReplay (s : TcpWriter) : Bool × TcpWriter :=
  match s.fill, s.answers with
  | some (0, _), answer :: answers => (answer, { s with answers := answers })
  | _, _ => (false, s)

/-- `new_buffer`. There is no replay within a replay: `do_sticky_replay` says no. -/
def newBuffer (s : TcpWriter) : Except WriteStop TcpWriter := do
  let s ← s.nextBuffer conf
  let r := s.wantsReplay
  if r.1 then do
    let s ← r.2.stickyStore.writeEvents.foldlM (placeEvent conf (nextBuffer conf)) r.2
    flushStream (nextBuffer conf) conf.streamBufs s
  else return r.2

def insertSticky (s : TcpWriter) (event : LmdEventOut) : Except WriteStop TcpWriter :=
  if event.header.isSticky then
    match s.stickyStore.insert event false with
    | .error msg => .error (.sticky msg)
    | .ok store => .ok { s with stickyStore := store }
  else .ok s

def writeEvent (s : TcpWriter) (event : LmdEventOut) : Except WriteStop TcpWriter := do
  let s ← s.insertSticky event
  s.placeEvent conf (newBuffer conf) event

def writeEvents (events : List LmdEventOut) (s : TcpWriter) : Except WriteStop TcpWriter :=
  events.foldlM (writeEvent conf) s

end TcpWriter

end Ucesb
