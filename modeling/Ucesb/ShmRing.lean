import Ucesb.GrowingRing
import Ucesb.Runs
import Mathlib.Data.BitVec

namespace Ucesb

def externalWriterBufResize : Nat := 0x05
def externalWriterBufSetupDoneRd : Nat := 0x09
def externalWriterBufNtupleFill : Nat := 0x0b
def externalWriterBufEatLinSpace : Nat := 0x0d
def externalWriterBufDone : Nat := 0x0e
def externalWriterBufAbort : Nat := 0x0f

def externalWriterRequestHiMask : Nat := 0xffff0000
def externalWriterRequestLoMask : Nat := 0x0000ffff
def externalWriterRequestHiMagic : Nat := 0x76c30000
def externalWriterMagic : Nat := 0x57e65c73 + 36

def externalWriterMinSharedSize : Nat := 4096
def shmControlSize : Nat := 192

def shmCells (len : Nat) : Nat := (len - shmControlSize) / 4

def insertBufHeader (request cells : Nat) (body : List Nat) : List Nat :=
  (request ||| externalWriterRequestHiMagic) :: 4 * cells :: body

/-- A message of the unpacker; `space` are the cells it asks for before it writes. -/
structure ShmMessage where
  request : Nat
  body : List Nat
  space : Nat
  request_lt : request < 2 ^ 16
  not_resize : request ≠ externalWriterBufResize
  not_filler : request ≠ externalWriterBufEatLinSpace
  space_le : body.length + 2 ≤ space

inductive ShmRequest
  | message (m : ShmMessage)
  /-- `set_max_message_size` with the length of the segment it comes to -/
  | resize (len : Nat)

def ShmRequest.words : ShmRequest → List Nat
  | .message m => insertBufHeader m.request (m.body.length + 2) m.body
  | .resize len => insertBufHeader externalWriterBufResize 4 [len, externalWriterMagic]

def ShmRequest.space : ShmRequest → Nat
  | .message m => m.space
  | .resize _ => 4

inductive ShmEntry
  | message (words : List Nat)
  | filler
deriving DecidableEq

inductive ProducerPhase
  | idle
  /-- at `check_space` -/
  | checking (r : ShmRequest)
  /-- the linear space is too short: the marker is to be written -/
  | filling (r : ShmRequest)
  /-- the marker has been written, `commit_buf_space` of the rest follows -/
  | wasting (r : ShmRequest)
  | writing (r : ShmRequest) (written : Nat)
  /-- the message has been written, `resize_shm` follows -/
  | resizing (len : Nat)
  /-- `commit_buf_space` follows; `resized` if `resize_shm` has increased `_avail` -/
  | committing (r : ShmRequest) (resized : Bool)

inductive ConsumerPhase
  /-- at `_done != _avail` -/
  | testing
  | fetching
  /-- a message of so many cells has been handled, `_done += expand` follows -/
  | expanding (expand cells : Nat)
  /-- `_done += length` follows; the loop ends if `stop` -/
  | finishing (cells : Nat) (stop : Bool)
  | stopped
  | failed (msg : String)
deriving DecidableEq

structure ShmSide (φ : Type) where
  len : Nat
  cur : Nat
  phase : φ

/-- The segment and both programs. The last fields record what has been asked for, what has been
written completely, what the consumer has taken, and the cells written and not yet consumed. -/
structure Shm where
  avail : BitVec 64
  done : BitVec 64
  mem : Nat → Nat
  fileLen : Nat
  producer : ShmSide ProducerPhase
  consumer : ShmSide ConsumerPhase
  sent : List ShmRequest
  placed : List ShmEntry
  taken : List ShmEntry
  unread : List Nat

/-- The beginning of `ensure_buf_space`, and the size test of `set_max_message_size`. -/
def Shm.send (s : Shm) : ShmRequest → Option Shm
  | .message m =>
    if m.space > shmCells s.producer.len then none
    else some { s with
      sent := s.sent ++ [.message m]
      producer := { s.producer with phase := .checking (.message m) } }
  | .resize len =>
    if ¬ (externalWriterMinSharedSize ∣ len ∧ len < 2 ^ 32) then none
    else if len < 4 * shmCells s.producer.len then some s
    else some { s with
      sent := s.sent ++ [.resize len]
      producer := { s.producer with phase := .checking (.resize len) } }

def Shm.commitBufSpace (s : Shm) (cells : Nat) (phase : ProducerPhase) : Shm :=
  let cur := s.producer.cur + cells
  { s with
    avail := s.avail + BitVec.ofNat 64 (4 * cells)
    producer := { s.producer with
      cur := if cur = shmCells s.producer.len then 0 else cur
      phase := phase } }

/-- Whether `_avail + space - _done > _size`. -/
def Shm.lacksSpace (s : Shm) (cells : Nat) : Bool :=
  (s.avail + BitVec.ofNat 64 (4 * cells) - s.done).toNat > 4 * shmCells s.producer.len

def Shm.writePiece (s : Shm) (r : ShmRequest) (written cells : Nat) : Shm :=
  let piece := (r.words.drop written).take cells
  let s := { s with
    mem := writeCells s.mem (s.producer.cur + written) piece
    unread := s.unread ++ List.range' (s.producer.cur + written) piece.length }
  if written + cells < r.words.length then
    { s with producer := { s.producer with phase := .writing r (written + cells) } }
  else
    { s with
      placed := s.placed ++ [.message r.words]
      producer := { s.producer with
        phase := match r with
          | .message _ => .committing r false
          | .resize len => .resizing len } }

def Shm.produce (s : Shm) (cells : Nat) : Option Shm :=
  let p := s.producer
  match p.phase with
  | .idle => none
  | .checking r =>
    if s.lacksSpace r.space then some s
    else if shmCells p.len - p.cur < r.space then
      some { s with producer := { p with phase := .filling r } }
    else some { s with producer := { p with phase := .writing r 0 } }
  | .filling r =>
    some { s with
      mem := writeCells s.mem p.cur [externalWriterBufEatLinSpace]
      unread := s.unread ++ [p.cur]
      placed := s.placed ++ [.filler]
      producer := { p with phase := .wasting r } }
  | .wasting r => some (s.commitBufSpace (shmCells p.len - p.cur) (.checking r))
  | .writing r written => some (s.writePiece r written cells)
  | .resizing len =>
    some { s with
      avail := s.avail + BitVec.ofNat 64 (len - p.len)
      fileLen := len
      producer := { p with len := len, phase := .committing (.resize len) true } }
  | .committing r _ => some (s.commitBufSpace r.words.length .idle)

def Shm.fail (s : Shm) (msg : String) : Shm :=
  { s with consumer := { s.consumer with phase := .failed msg } }

def Shm.messageAt (s : Shm) (cells : Nat) : List Nat :=
  (List.range cells).map fun i => s.mem (s.consumer.cur + i)

/-- `request_resize_shm` and what follows it for this request. -/
def Shm.requestResizeShm (s : Shm) (length : Nat) : Shm :=
  let c := s.consumer
  let newLen := s.mem (c.cur + 2)
  if length < 16 then s.fail "SHM message has no space for uint32."
  else if s.mem (c.cur + 3) ≠ externalWriterMagic then
    s.fail "Request to resize shared memory has bad magic."
  else if newLen < c.len then s.fail "Request to decrease shared memory not allowed."
  else if s.fileLen < newLen then
    s.fail "Size of resized shared memory unexpectedly small %d < %d."
  else if s.mem (c.cur + length / 4 - 1) ≠ externalWriterMagic then
    s.fail "Bad alignment after SHM resize."
  else if length ≠ 16 then s.fail "Message not completely used (req=%d,left=%d)."
  else { s with
    taken := s.taken ++ [.message (s.messageAt 4)]
    consumer := { c with len := newLen, phase := .expanding (newLen - c.len) 4 } }

def stopsLoop (request : Nat) : Bool :=
  request = externalWriterBufDone || request = externalWriterBufAbort ||
    request = externalWriterBufSetupDoneRd

/-- `handle_request`; what a message other than a resize does with its body is not part of this. -/
def Shm.handleRequest (s : Shm) (request length : Nat) : Shm :=
  let c := s.consumer
  if s.mem c.cur &&& externalWriterRequestHiMask ≠ externalWriterRequestHiMagic then
    s.fail "Bad request hi magic."
  else if request = externalWriterBufResize then s.requestResizeShm length
  else if length < 8 then s.fail "Message not completely used (req=%d,left=%d)."
  else { s with
    taken := s.taken ++ [.message (s.messageAt (length / 4))]
    consumer := { c with phase := .finishing (length / 4) (stopsLoop request) } }

/-- The body of the loop up to the update of `_done`. -/
def Shm.fetch (s : Shm) : Shm :=
  let c := s.consumer
  let linLeft := 4 * (shmCells c.len - c.cur)
  let request := s.mem c.cur &&& externalWriterRequestLoMask
  if request = externalWriterBufEatLinSpace then
    { s with
      done := s.done + BitVec.ofNat 64 linLeft
      taken := s.taken ++ [.filler]
      unread := s.unread.drop 1
      consumer := { c with cur := 0, phase := .testing } }
  else if linLeft < 8 then s.fail "Too little linear SHM space left for header (req=%d)."
  else
    let length := s.mem (c.cur + 1)
    if length % 4 ≠ 0 then s.fail "SHM message length unaligned (req=%d,len=%d)."
    else if length > linLeft then
      s.fail "SHM message length longer than linear space left (req=%d,len=%d)."
    else s.handleRequest request length

def Shm.consume (s : Shm) : Option Shm :=
  let c := s.consumer
  match c.phase with
  | .testing =>
    if s.done = s.avail then some s
    else some { s with consumer := { c with phase := .fetching } }
  | .fetching => some s.fetch
  | .expanding expand cells =>
    some { s with
      done := s.done + BitVec.ofNat 64 expand
      consumer := { c with phase := .finishing cells false } }
  | .finishing cells stop =>
    let cur := c.cur + cells
    let s := { s with
      done := s.done + BitVec.ofNat 64 (4 * cells)
      unread := s.unread.drop cells }
    if stop then some { s with consumer := { c with phase := .stopped } }
    else some { s with
      consumer := { c with
        cur := if cur = shmCells c.len then 0 else cur
        phase := .testing } }
  | .stopped => none
  | .failed _ => none

/-- What `ntuple_get_event` makes; `more` is what it returns. -/
structure ReadEvent where
  request : Nat
  body : List Nat
  more : Bool
  request_lt : request < 2 ^ 16
  not_filler : request ≠ externalWriterBufEatLinSpace

def ReadEvent.words (e : ReadEvent) : List Nat :=
  insertBufHeader e.request (e.body.length + 2) e.body

inductive ReaderPhase
  /-- at the test for the space of the largest message -/
  | looping
  /-- the marker has been written, `_avail += lin_left` follows -/
  | wasting
  | writing (written : Nat)
  | committing
  | ended
deriving DecidableEq

inductive UnpackerPhase
  /-- in `ensure_read_space` for so many bytes, at the test of the counters; the message has been
  looked at already if `body` -/
  | waiting (space : Nat) (body : Bool)
  | looking (space : Nat) (body : Bool)
  /-- a message has been given out, `message_body_done` follows -/
  | holding (cells : Nat)
  /-- after the last message -/
  | stopped
  | failed (msg : String)
deriving DecidableEq

structure ShmRead where
  avail : BitVec 64
  done : BitVec 64
  mem : Nat → Nat
  size : Nat
  maxMsg : Nat
  readerCur : Nat
  reader : ReaderPhase
  pending : List ReadEvent
  unpackerCur : Nat
  unpacker : UnpackerPhase
  /-- messages that have been written completely, and messages that the unpacker has got -/
  placed : List (List Nat)
  taken : List (List Nat)

def bufHeaderSize : Nat := 8

/-- The ring is empty and the counters are reset when the direction is reversed. -/
def readInit (mem : Nat → Nat) (size maxMsg : Nat) (events : List ReadEvent) : ShmRead where
  avail := 0
  done := 0
  mem := mem
  size := size
  maxMsg := maxMsg
  readerCur := 0
  reader := .looping
  pending := events
  unpackerCur := 0
  unpacker := .waiting bufHeaderSize false
  placed := []
  taken := []

inductive ReadAct
  /-- the next step of the reader; at most so many cells of a message are written -/
  | produce (cells : Nat)
  | consume

/-- Whether `_avail + max_msg_size - _done > _size`. -/
def ShmRead.lacksSpace (s : ShmRead) : Bool :=
  (s.avail + BitVec.ofNat 64 (4 * s.maxMsg) - s.done).toNat > 4 * s.size

def ShmRead.produce (s : ShmRead) (cells : Nat) : Option ShmRead :=
  match s.reader, s.pending with
  | .looping, _ :: _ =>
    if s.lacksSpace then some s
    else if s.size - s.readerCur < s.maxMsg then
      if s.size - s.readerCur ≠ 0 then
        some { s with
          mem := writeCells s.mem s.readerCur [externalWriterBufEatLinSpace]
          reader := .wasting }
      else some { s with readerCur := 0 }
    else some { s with reader := .writing 0 }
  | .wasting, _ =>
    some { s with
      avail := s.avail + BitVec.ofNat 64 (4 * (s.size - s.readerCur))
      readerCur := 0
      reader := .looping }
  | .writing written, e :: _ =>
    let s := { s with
      mem := writeCells s.mem (s.readerCur + written) ((e.words.drop written).take cells) }
    if written + cells < e.words.length then
      some { s with reader := .writing (written + cells) }
    else some { s with placed := s.placed ++ [e.words], reader := .committing }
  | .committing, e :: rest =>
    some { s with
      avail := s.avail + BitVec.ofNat 64 (4 * e.words.length)
      readerCur := s.readerCur + e.words.length
      pending := rest
      reader := if e.more then .looping else .ended }
  | _, _ => none

def ShmRead.fail (s : ShmRead) (msg : String) : ShmRead := { s with unpacker := .failed msg }

/-- `get_message` after `ensure_read_space` has returned, for the header and for all of it. -/
def ShmRead.gotSpace (s : ShmRead) (request space : Nat) (body : Bool) : ShmRead :=
  if body then
    { s with
      taken := s.taken ++ [(List.range (space / 4)).map fun i => s.mem (s.unpackerCur + i)]
      unpacker := if request = externalWriterBufDone || request = externalWriterBufAbort then
        .stopped else .holding (space / 4) }
  else
    let length := s.mem (s.unpackerCur + 1)
    if length < 4 then s.fail "space >= sizeof(uint32_t)"
    else { s with unpacker := .waiting length true }

/-- `ensure_read_space` once enough is available. -/
def ShmRead.look (s : ShmRead) (space : Nat) (body : Bool) : ShmRead :=
  let linLeft := 4 * (s.size - s.unpackerCur)
  let request := s.mem s.unpackerCur
  if request &&& externalWriterRequestHiMask ≠ externalWriterRequestHiMagic then
    s.fail "Bad request, hi magic wrong (0x%08x)."
  else
    let request := request &&& externalWriterRequestLoMask
    if request = externalWriterBufEatLinSpace then
      { s with
        done := s.done + BitVec.ofNat 64 linLeft
        unpackerCur := 0
        unpacker := .waiting space body }
    else if linLeft < bufHeaderSize then
      s.fail "Too little linear SHM space left for message (req=%d,size=%d)."
    else s.gotSpace request space body

def ShmRead.consume (s : ShmRead) : Option ShmRead :=
  match s.unpacker with
  | .waiting space body =>
    if (s.avail - s.done).toNat < space then some s
    else some { s with unpacker := .looking space body }
  | .looking space body => some (s.look space body)
  | .holding cells =>
    some { s with
      done := s.done + BitVec.ofNat 64 (4 * cells)
      unpackerCur := s.unpackerCur + cells
      unpacker := .waiting bufHeaderSize false }
  | .stopped => none
  | .failed _ => none

def readStep (s : ShmRead) : ReadAct → Option ShmRead
  | .produce cells => s.produce cells
  | .consume => s.consume

def ShmRead.unwritten (s : ShmRead) : List ReadEvent :=
  match s.reader with
  | .committing => s.pending.tail
  | _ => s.pending

structure ReadDelivers (s : ShmRead) (events : List ReadEvent) : Prop where
  no_error : ∀ msg, s.unpacker ≠ .failed msg
  in_order : s.taken <+: s.placed
  placed_events : s.placed ++ s.unwritten.map ReadEvent.words = events.map ReadEvent.words
  /-- the unpacker waits only when it has got all that has been placed -/
  complete : s.reader ≠ .committing → s.unpacker = .waiting bufHeaderSize false →
    (s.avail - s.done).toNat < bufHeaderSize → s.taken = s.placed

def staysLinear (s : ShmRead) (a : ReadAct) : Bool :=
  match a, s.reader with
  | .produce _, .looping => s.lacksSpace || s.maxMsg ≤ s.size - s.readerCur
  | _, _ => true

end Ucesb
