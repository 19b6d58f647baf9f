import Ucesb.Bytes
import Ucesb.Cells
import Ucesb.ShmRing

namespace Ucesb

/-- `ntohl` of the first word. -/
def netWord (bytes : List UInt8) : Nat := rd32 (bytes.take 4).reverse

inductive PipeInError
  /-- Message too long to be handled by pipe buffer. -/
  | tooLongToHandle
  /-- Message too long for pipe buffer. -/
  | tooLong
  /-- Pipe message length unaligned. -/
  | unaligned
  /-- Unexpected end of input. -/
  | unexpectedEnd
  /-- SHM message has no space for uint32. -/
  | noSpaceForWord
  /-- Request to resize pipe has bad magic. -/
  | badResizeMagic
  /-- An assertion: a pipe only gets larger. -/
  | smallerPipe
deriving DecidableEq

/-- The pointers are offsets from `_mem`, and `_end` is at `_size`. -/
structure PipeIn where
  mem : Nat → UInt8
  size : Nat
  cur : Nat
  readEnd : Nat

def PipeIn.avail (p : PipeIn) : List UInt8 := readCells p.mem p.cur (p.readEnd - p.cur)

def PipeIn.word (p : PipeIn) (a : Nat) : Nat := netWord (readCells p.mem a 4)

/-- The length of the message at `_cur`, or 0 if it is not complete. -/
def PipeIn.hasFullMessage (p : PipeIn) : Except PipeInError Nat :=
  if p.readEnd - p.cur < bufHeaderSize then .ok 0
  else if p.word (p.cur + 4) % 4 ≠ 0 then .error .unaligned
  else if p.word (p.cur + 4) ≤ p.readEnd - p.cur then .ok (p.word (p.cur + 4))
  else .ok 0

def PipeIn.moveStart (p : PipeIn) : Nat := if 2 * 0x1000 ≤ p.size then p.cur % 0x1000 else 0

def PipeIn.moveTo (p : PipeIn) (start : Nat) : PipeIn where
  mem := writeCells p.mem start p.avail
  size := p.size
  cur := start
  readEnd := start + (p.readEnd - p.cur)

def PipeIn.makeRoom (p : PipeIn) : Except PipeInError PipeIn :=
  if p.readEnd = p.size then
    if p.cur = p.moveStart then
      .error (if 2 * 0x1000 ≤ p.size then .tooLongToHandle else .tooLong)
    else .ok (p.moveTo p.moveStart)
  else .ok p

/-- What a call of `read` does: it is interrupted, or gives so many bytes and one more, if there are
as many and there is space for them. -/
inductive PipeRead
  | interrupted
  | bytes (more : Nat)
deriving DecidableEq

def PipeIn.readCount (p : PipeIn) (input : List UInt8) (more : Nat) : Nat :=
  min (more + 1) (min (p.size - p.readEnd) input.length)

def PipeIn.append (p : PipeIn) (bytes : List UInt8) : PipeIn :=
  { p with mem := writeCells p.mem p.readEnd bytes, readEnd := p.readEnd + bytes.length }

/-- `left` of a message: the header is taken off its length. -/
def messageLeft (length : Nat) : Nat := (length + 2 ^ 32 - bufHeaderSize) % 2 ^ 32

/-- The body is at `msg`. `_len` is 0 for a pipe, so that the size is only checked by the assertion
of `alloc_pipe`. -/
def PipeIn.requestResizePipe (p : PipeIn) (msg left : Nat) : Except PipeInError PipeIn :=
  if left < 8 then .error .noSpaceForWord
  else if p.word (msg + 4) ≠ externalWriterMagic then .error .badResizeMagic
  else if p.word msg < p.size then .error .smallerPipe
  else .ok { p with size := p.word msg }

def PipeIn.message (p : PipeIn) (length : Nat) : List UInt8 := readCells p.mem p.cur length

/-- The message is consumed before it is looked at. Of the requests, only a resize changes the
buffer. -/
def PipeIn.handleRequest (p : PipeIn) (length : Nat) : Except PipeInError PipeIn :=
  if p.word p.cur &&& externalWriterRequestLoMask = externalWriterBufResize then
    { p with cur := p.cur + length }.requestResizePipe (p.cur + bufHeaderSize) (messageLeft length)
  else .ok { p with cur := p.cur + length }

inductive PipeEnd
  | failed (e : PipeInError)
  /-- A handler ended the loop. -/
  | ended
deriving DecidableEq

/-- The messages handed out by a part of the loop, and how it ended, if it did. -/
structure PipeHandled where
  pipe : PipeIn
  handed : List (List UInt8)
  outcome : Option PipeEnd

def PipeHandled.after (m : List UInt8) (h : PipeHandled) : PipeHandled :=
  { h with handed := m :: h.handed }

/-- All messages that are complete are handled. Whether the handler of a message ends the loop (at
the end of the data, or with an error of its own) is given. -/
def PipeIn.handleMessages (ends : List UInt8 → Bool) : Nat → PipeIn → PipeHandled
  | 0, p => ⟨p, [], none⟩
  | todo + 1, p =>
    match p.hasFullMessage with
    | .error e => ⟨p, [], some (.failed e)⟩
    | .ok length =>
      if length = 0 then ⟨p, [], none⟩
      else
        match p.handleRequest length with
        | .error e => ⟨p, [p.message length], some (.failed e)⟩
        | .ok p' =>
          if ends (p.message length) then ⟨p', [p.message length], some .ended⟩
          else (handleMessages ends todo p').after (p.message length)

/-- What a run hands out, how many bytes it got for it, and how it ended. Without an outcome it
waits for the next `read`. -/
structure PipeRun where
  handed : List (List UInt8)
  received : Nat
  outcome : Option PipeEnd

def PipeRun.after (handed : List (List UInt8)) (count : Nat) (r : PipeRun) : PipeRun where
  handed := handed ++ r.handed
  received := count + r.received
  outcome := r.outcome

/-- The loop of `pipe_get_message`. It is left for the messages that are complete after a `read`,
and entered again when there is none left. -/
def pipeMessages (ends : List UInt8 → Bool) : List PipeRead → PipeIn → List UInt8 → PipeRun
  | [], _, _ => ⟨[], 0, none⟩
  | read :: reads, p, input =>
    match p.makeRoom with
    | .error e => ⟨[], 0, some (.failed e)⟩
    | .ok p =>
      match read with
      | .interrupted => pipeMessages ends reads p input
      | .bytes more =>
        if p.readCount input more = 0 then ⟨[], 0, some (.failed .unexpectedEnd)⟩
        else
          match (p.append (input.take (p.readCount input more))).handleMessages ends
            (p.readEnd + p.readCount input more - p.cur) with
          | ⟨_, handed, some outcome⟩ => ⟨handed, p.readCount input more, some outcome⟩
          | ⟨p', handed, none⟩ =>
            (pipeMessages ends reads p' (input.drop (p.readCount input more))).after handed
              (p.readCount input more)

def pipeInInit (mem : Nat → UInt8) : PipeIn := ⟨mem, externalWriterMinSharedSize, 0, 0⟩

def pipeRun (ends : List UInt8 → Bool) (mem : Nat → UInt8) (reads : List PipeRead)
    (input : List UInt8) : PipeRun :=
  pipeMessages ends reads (pipeInInit mem) input

def pipeLimit (size : Nat) : Nat := if 2 * 0x1000 ≤ size then size - 0x1000 else size

def isResize (m : List UInt8) : Bool :=
  netWord m &&& externalWriterRequestLoMask == externalWriterBufResize

def sizeAfter (size : Nat) (m : List UInt8) : Nat :=
  if isResize m then netWord (m.drop 8) else size

/-- A message tells its length and fits. A resize has a body, and makes the buffer no smaller. -/
def messageOk (size : Nat) (m : List UInt8) : Bool :=
  decide (bufHeaderSize ≤ m.length ∧ m.length % 4 = 0 ∧ netWord (m.drop 4) = m.length ∧
    m.length ≤ pipeLimit size ∧
    (isResize m → 16 ≤ m.length ∧ netWord (m.drop 12) = externalWriterMagic ∧
      size ≤ netWord (m.drop 8)))

def messagesOk : Nat → List (List UInt8) → Bool
  | _, [] => true
  | size, m :: msgs => messageOk size m && messagesOk (sizeAfter size m) msgs

/-- The messages that are complete in so many bytes, up to one that ends the loop. -/
def served (ends : List UInt8 → Bool) : Nat → List (List UInt8) → List (List UInt8)
  | _, [] => []
  | n, m :: msgs =>
    if m.length ≤ n then
      if ends m then [m] else m :: served ends (n - m.length) msgs
    else []

/-- A run over the messages, which may be followed by something that is none of them. Some bytes are
in the buffer already. -/
structure PipeFramed (ends : List UInt8 → Bool) (held : Nat) (reads : List PipeRead)
    (msgs : List (List UInt8)) (tail : List UInt8) (r : PipeRun) : Prop where
  handed : r.handed = served ends (held + r.received) msgs
  /-- A run that waits got something by every `read` that was not interrupted. -/
  progress : r.outcome = none → reads.countP (· != .interrupted) ≤ r.received
  ended : r.outcome = some .ended → ∃ m ∈ r.handed, ends m = true
  /-- There is no error before the last message is handled, and if nothing follows none but at the
  end of the input. -/
  failed : ∀ e, r.outcome = some (.failed e) → r.handed = msgs ∧
    (tail = [] → e = .unexpectedEnd ∧ held + r.received = msgs.flatten.length)

def shortMessage (tail : List UInt8) : Bool :=
  decide (bufHeaderSize ≤ tail.length ∧ netWord (tail.drop 4) < bufHeaderSize)

end Ucesb
