import Ucesb.Cells
import Ucesb.Pieces
import Ucesb.Runs
import Ucesb.SizeT

namespace Ucesb

inductive PipeReaderPhase
  | check
  | announce
  | recheck
  /-- In `select`; of a full buffer without the file. -/
  | select (full : Bool)
  | measure
  | read (segment : Nat)
  | advance (n : Nat)
  | wakeConsumer
  | eof
  | wakeAtEof
  | ended
deriving DecidableEq

inductive MapPhase
  | check
  | announce
  | recheck
  | eof
  | blocked
deriving DecidableEq

/-- What the system calls return to the reader. -/
inductive ReaderEvent
  | go
  | readable
  | woken
  | readableWoken
  | interrupted
  | bytes (n : Nat)
  | again
  | endOfFile

/-- What `map_range` returned: the chunks as offset and length in the buffer. -/
structure MappedRange where
  start : Nat
  stop : Nat
  chunks : List (Nat × Nat)
deriving DecidableEq

structure ShortRange where
  stop : Nat
  done : Nat
deriving DecidableEq

structure PipeBuffer where
  threaded : Bool
  mem : Nat → UInt8
  size : Nat
  avail : Nat
  done : Nat
  front : Nat
  reachedEof : Bool
  needReaderWakeup : Bool
  needConsumerWakeup : Bool
  wakeupDone : Nat
  wakeupAvail : Nat
  readerTokens : Nat
  consumerTokens : Nat
  reader : PipeReaderPhase
  /-- The request that the consumer is at. -/
  consumer : Option (MapPhase × Nat × Nat)
  /-- What the file has given away. -/
  taken : Nat
  /-- How far ranges have been given to the consumer. -/
  reached : Nat
  maps : List MappedRange
  shorts : List ShortRange
  aborted : Bool

namespace PipeBuffer

def receive (stream : List UInt8) (s : PipeBuffer) (n : Nat) : PipeBuffer :=
  { s with
    mem := writeCells s.mem (s.avail &&& (s.size - 1)) (slice stream s.taken n)
    taken := s.taken + n }

def segment (s : PipeBuffer) : Nat :=
  let space := s.size - sizeDiff s.avail s.done
  min (s.size - (s.avail &&& (s.size - 1))) space

def wakeConsumer (s : PipeBuffer) : PipeBuffer :=
  { s with
    needConsumerWakeup := false
    consumerTokens := s.consumerTokens + 1 }

/-- One step of `pipe_buffer::reader`. -/
def readerStep (stream : List UInt8) (s : PipeBuffer) (e : ReaderEvent) : Option PipeBuffer :=
  match s.reader, e with
  | .check, .go =>
    if ssizeDiff s.avail s.done < 0 then some { s with aborted := true }
    else if s.size ≤ sizeDiff s.avail s.done then some { s with reader := .announce }
    else some { s with reader := .select false }
  | .announce, .go => some { s with
      wakeupDone := (sizeDiff s.avail s.size + s.size / 16) % 2 ^ 64
      needReaderWakeup := true
      reader := .recheck }
  | .recheck, .go =>
    if ssizeDiff s.avail s.done ≤ 0 then some { s with aborted := true }
    else some { s with reader := .select (decide (s.size ≤ sizeDiff s.avail s.done)) }
  | .select false, .readable => some { s with reader := .measure }
  | .select _, .woken =>
    if s.readerTokens = 0 then none
    else some { s with readerTokens := s.readerTokens - 1, reader := .check }
  | .select false, .readableWoken =>
    if s.readerTokens = 0 then none
    else some { s with readerTokens := s.readerTokens - 1, reader := .measure }
  | .select _, .interrupted => some { s with reader := .check }
  | .measure, .go => some { s with reader := .read s.segment }
  | .read segment, .bytes n =>
    if 0 < n ∧ n ≤ segment ∧ s.taken + n ≤ stream.length then
      some { s.receive stream n with reader := .advance n }
    else none
  | .read segment, .endOfFile =>
    if segment = 0 ∨ s.taken = stream.length then some { s with reader := .eof } else none
  | .read _, .again => some { s with reader := .advance 0 }
  | .advance n, .go => some { s with avail := s.avail + n, reader := .wakeConsumer }
  | .wakeConsumer, .go =>
    if s.needConsumerWakeup = true ∧ 0 ≤ ssizeDiff s.avail s.wakeupAvail then
      some { s.wakeConsumer with reader := .check }
    else some { s with reader := .check }
  | .eof, .go => some { s with reachedEof := true, reader := .wakeAtEof }
  | .wakeAtEof, .go =>
    if s.needConsumerWakeup = true then some { s.wakeConsumer with reader := .ended }
    else some { s with reader := .ended }
  | _, _ => none

def mapChunks (size start stop : Nat) : List (Nat × Nat) :=
  let offset := start &&& (size - 1)
  let length := sizeDiff stop start
  let segment := size - offset
  if length ≤ segment then [(offset, length)]
  else [(offset, segment), (0, length - segment)]

def giveRange (s : PipeBuffer) (start stop : Nat) : PipeBuffer :=
  { s with
    front := stop
    consumer := none
    reached := max s.reached stop
    maps := s.maps ++ [⟨start, stop, mapChunks s.size start stop⟩] }

def giveShort (s : PipeBuffer) (stop : Nat) : PipeBuffer :=
  { s with consumer := none, shorts := s.shorts ++ [⟨stop, s.done⟩] }

/-- One step of `pipe_buffer_base::map_range`, with a reader thread. -/
def mapStep (s : PipeBuffer) : Option PipeBuffer :=
  match s.consumer with
  | none => none
  | some (.check, start, stop) =>
    if ssizeDiff s.avail stop < 0 then some { s with consumer := some (.announce, start, stop) }
    else some (s.giveRange start stop)
  | some (.announce, start, stop) => some { s with
      wakeupAvail := stop
      needConsumerWakeup := true
      consumer := some (.recheck, start, stop) }
  | some (.recheck, start, stop) =>
    if ssizeDiff s.avail stop < 0 then some { s with consumer := some (.eof, start, stop) }
    else some (s.giveRange start stop)
  | some (.eof, start, stop) =>
    if s.reachedEof = true then some (s.giveShort stop)
    else some { s with consumer := some (.blocked, start, stop) }
  | some (.blocked, start, stop) =>
    if s.consumerTokens = 0 then none
    else some { s with
      consumerTokens := s.consumerTokens - 1
      consumer := some (.announce, start, stop) }

/-- `map_range` without a reader thread: `read_now`, given what the calls of `read` return. -/
def readNow (stream : List UInt8) (s : PipeBuffer) (start stop : Nat) :
    List ReaderEvent → Option PipeBuffer
  | [] =>
    if 0 ≤ ssizeDiff s.avail stop then some (s.giveRange start stop)
    else if s.reachedEof = true then some (s.giveShort stop)
    -- "pipe_buffer too small"
    else if s.size - sizeDiff s.avail s.done = 0 then some { s.giveShort stop with aborted := true }
    else none
  | e :: es =>
    if 0 ≤ ssizeDiff s.avail stop ∨ s.reachedEof = true ∨
        s.size - sizeDiff s.avail s.done = 0 then none
    else
      let segment := min s.segment (sizeDiff stop s.avail)
      match e with
      | .bytes n =>
        if 0 < n ∧ n ≤ segment ∧ s.taken + n ≤ stream.length then
          readNow stream { s.receive stream n with avail := s.avail + n } start stop es
        else none
      | .endOfFile =>
        if segment = 0 ∨ s.taken = stream.length then
          readNow stream { s with reachedEof := true } start stop es
        else none
      | .again => readNow stream s start stop es
      | _ => none

def releaseTo (s : PipeBuffer) (stop : Nat) : PipeBuffer :=
  if s.needReaderWakeup = true ∧ 0 ≤ ssizeDiff stop s.wakeupDone then
    { s with done := stop, needReaderWakeup := false, readerTokens := s.readerTokens + 1 }
  else { s with done := stop }

end PipeBuffer

/-- The magic that was read to find out the type of the file is pushed back. -/
def pipeBufferInit (stream : List UInt8) (threaded : Bool) (size magic : Nat) : PipeBuffer where
  threaded := threaded
  mem := writeCells (fun _ => 0) 0 (stream.take magic)
  size := size
  avail := magic
  done := 0
  front := 0
  reachedEof := false
  needReaderWakeup := false
  needConsumerWakeup := false
  wakeupDone := 0
  wakeupAvail := 0
  readerTokens := 0
  consumerTokens := 0
  reader := .check
  consumer := none
  taken := magic
  reached := 0
  maps := []
  shorts := []
  aborted := false

inductive PipeBufferAct
  | reader (e : ReaderEvent)
  | map (start stop : Nat)
  | mapStep
  | mapNow (start stop : Nat) (es : List ReaderEvent)
  | release (stop : Nat)

/-- A range is not before what was released, and only what was mapped is released. -/
def pipeBufferStep (stream : List UInt8) (s : PipeBuffer) (a : PipeBufferAct) : Option PipeBuffer :=
  if s.aborted = true then none
  else match a with
    | .reader e => if s.threaded = true then s.readerStep stream e else none
    | .map start stop =>
      if s.threaded = true ∧ s.consumer = none ∧ s.done ≤ start ∧ start ≤ stop ∧ stop < 2 ^ 63 then
        some { s with consumer := some (.check, start, stop) }
      else none
    | .mapStep => s.mapStep
    | .mapNow start stop es =>
      if s.threaded = false ∧ s.done ≤ start ∧ start ≤ stop ∧ stop < 2 ^ 63 then
        s.readNow stream start stop es
      else none
    | .release stop =>
      if s.consumer = none ∧ s.done ≤ stop ∧ stop ≤ s.reached then some (s.releaseTo stop)
      else none

end Ucesb
