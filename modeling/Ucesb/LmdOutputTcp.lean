import Ucesb.Runs

namespace Ucesb

def lmdOutputFreeStreams : Nat := 16
def lmdOutputFilledStreams : Nat := 8

def openInfoSize : Nat := 16

inductive ReplayMark
  | none
  | first
  | more
deriving DecidableEq

structure LosFlags where
  recoveryFirst : Bool
  recoveryMore : Bool
  hasStickyEvent : Bool
  stickyLostAfter : Bool
deriving DecidableEq

def LosFlags.zero : LosFlags := ⟨false, false, false, false⟩

def LosFlags.orMark (f : LosFlags) : ReplayMark → LosFlags
  | .none => f
  | .first => { f with recoveryFirst := true }
  | .more => { f with recoveryMore := true }

/-- `_flags & LOS_FLAGS_STICKY_RECOVERY_MASK` is not zero. -/
def LosFlags.isRecovery (f : LosFlags) : Bool := f.recoveryFirst || f.recoveryMore

structure LmdOutputStream where
  flags : LosFlags
  filled : Nat
  maxFill : Nat
  created : Int
  clients : Int
  firstBuf : Nat
deriving DecidableEq

/-- The values 0, 1, 2 and 3 of `_need_recovery_stream`. -/
inductive NeedRecovery
  | no
  | first
  | more
  | unknown
deriving DecidableEq

inductive ServerMode
  | stream
  | trans
deriving DecidableEq

inductive ClientState
  | sendInfo
  | requestWait
  | streamWait
  | bufferWait
  | sendWait
  | closeWait
deriving DecidableEq

/-- What becomes of the streams ahead of a client, by the `l_buf` of their first buffer. -/
inductive ClientEvent
  | given (firstBuf : Nat) (recovery : Bool)
  | skipped (firstBuf : Nat)
deriving DecidableEq

structure LmdOutputClient where
  mode : ServerMode
  allowData : Bool
  state : ClientState
  got : Nat
  current : Option Nat
  offset : Nat
  need : NeedRecovery
  pending : Option Nat
  -- no field of the source: the history that statements about a client speak of
  log : List ClientEvent
deriving DecidableEq

def LmdOutputClient.new (mode : ServerMode) (allowData : Bool) : LmdOutputClient :=
  ⟨mode, allowData, .sendInfo, 0, none, 0, .unknown, none, []⟩

def LmdOutputClient.position (c : LmdOutputClient) : Option Nat := c.current.or c.pending

structure LmdOutputTcp where
  streams : Nat → LmdOutputStream
  allocated : List Nat
  allocStreamNo : Nat
  active : List Nat
  free : List Nat
  filled : List Nat
  fillStream : Option Nat
  numStreams : Int
  maxStreams : Int
  sendonce : Bool
  dropold : Int
  hold : Bool
  bufSize : Nat
  streamBufs : Nat
  clients : List LmdOutputClient
  needRecoveryStream : Bool
  stickyEventsSeen : Bool
  markReplayStream : ReplayMark
  needFreeStream : Bool
  nextSearchClient : Nat
  lBuf : Nat

structure TcpConf where
  maxStreams : Int
  sendonce : Bool
  dropold : Int
  hold : Bool
  bufSize : Nat
  streamBufs : Nat

/-- As `parse_open_lmd_server` leaves it. -/
def LmdOutputTcp.init (conf : TcpConf) : LmdOutputTcp where
  streams := fun _ => ⟨.zero, 0, 0, 0, 0, 0⟩
  allocated := []
  allocStreamNo := 0
  active := []
  free := []
  filled := []
  fillStream := none
  numStreams := 0
  maxStreams := if conf.maxStreams ≤ 0 then 1 else conf.maxStreams
  sendonce := conf.sendonce
  dropold := conf.dropold
  hold := conf.hold
  bufSize := conf.bufSize
  streamBufs := conf.streamBufs
  clients := []
  needRecoveryStream := false
  stickyEventsSeen := false
  markReplayStream := .none
  needFreeStream := false
  nextSearchClient := 0
  lBuf := 1

def streamsBefore (l : List Nat) (stream : Nat) : List Nat := l.takeWhile (· ≠ stream)

def streamsAfter (l : List Nat) (stream : Nat) : List Nat := (l.dropWhile (· ≠ stream)).tail

def prevStream (l : List Nat) (stream : Nat) : Option Nat := (streamsBefore l stream).getLast?

def nextStreamOf (l : List Nat) (stream : Nat) : Option Nat := (streamsAfter l stream).head?

namespace LmdOutputTcp

def flags (s : LmdOutputTcp) (stream : Nat) : LosFlags := (s.streams stream).flags

def modifyStream (s : LmdOutputTcp) (stream : Nat)
    (f : LmdOutputStream → LmdOutputStream) : LmdOutputTcp :=
  { s with streams := fun i => if i = stream then f (s.streams i) else s.streams i }

def addClients (s : LmdOutputTcp) (stream : Nat) (n : Int) : LmdOutputTcp :=
  s.modifyStream stream fun x => { x with clients := x.clients + n }

def setClient (s : LmdOutputTcp) (i : Nat) (c : LmdOutputClient) : LmdOutputTcp :=
  { s with clients := s.clients.set i c }

def addFreeStream (s : LmdOutputTcp) (stream : Nat) : LmdOutputTcp :=
  if s.free.length ≥ lmdOutputFreeStreams then
    { s with allocated := s.allocated.erase stream, numStreams := s.numStreams - 1 }
  else { s with free := s.free ++ [stream] }

/-- `none` when there are enough free streams. -/
def createFreeStream (s : LmdOutputTcp) : Option LmdOutputTcp :=
  if s.free.length ≥ lmdOutputFreeStreams / 2 then none
  else
    let stream := s.allocStreamNo + 1
    let s := s.modifyStream stream fun _ => ⟨.zero, 0, 0, 0, 0, 0⟩
    some (addFreeStream { s with
      allocated := stream :: s.allocated
      allocStreamNo := stream
      numStreams := s.numStreams + 1 } stream)

def createFreeStreams : Nat → LmdOutputTcp → LmdOutputTcp
  | 0, s => s
  | fuel + 1, s =>
    if s.numStreams < s.maxStreams then
      match s.createFreeStream with
      | none => s
      | some s => createFreeStreams fuel s
    else s

def unlinkStream (s : LmdOutputTcp) (stream : Nat) : LmdOutputTcp :=
  { s with active := s.active.erase stream }

def addClientStream (s : LmdOutputTcp) (stream : Nat) : LmdOutputTcp :=
  { s with active := s.active ++ [stream] }

def oldestUnused (s : LmdOutputTcp) : Option Nat :=
  s.active.find? fun i => (s.streams i).clients = 0

/-- The flag that `free_oldest_unused` leaves on the stream before the one it frees. -/
def markLostAfter (s : LmdOutputTcp) (stream : Nat) : LmdOutputTcp :=
  match prevStream s.active stream with
  | none => s
  | some p =>
    if (s.flags stream).hasStickyEvent then
      s.modifyStream p fun x => { x with flags := { x.flags with stickyLostAfter := true } }
    else s

/-- History only: a stream with sticky events is freed ahead of the client. -/
def noteSkip (s : LmdOutputTcp) (stream : Nat) (c : LmdOutputClient) : LmdOutputClient :=
  if (s.flags stream).hasStickyEvent &&
      c.position.any (streamsBefore s.active stream).contains then
    { c with log := c.log ++ [.skipped (s.streams stream).firstBuf] }
  else c

def noteSkipped (s : LmdOutputTcp) (stream : Nat) : LmdOutputTcp :=
  { s with clients := s.clients.map (s.noteSkip stream) }

def freeOldestUnused (s : LmdOutputTcp) : LmdOutputTcp :=
  match s.oldestUnused with
  | none => s
  | some stream =>
    (((s.noteSkipped stream).markLostAfter stream).unlinkStream stream).addFreeStream stream

/-- The loop of `free_client_stream`; the fuel is the number of active streams. -/
def freeLeading : Nat → Bool → LmdOutputTcp → Nat → LmdOutputTcp
  | 0, _, s, _ => s
  | fuel + 1, forceFree, s, stream =>
    if forceFree ∨ ((s.streams stream).clients = 0 ∧ prevStream s.active stream = none) then
      let next := nextStreamOf s.active stream
      let s := (s.unlinkStream stream).addFreeStream stream
      match next with
      | none => s
      | some next => freeLeading fuel false s next
    else s

def freeClientStream (s : LmdOutputTcp) (stream : Nat) : LmdOutputTcp :=
  freeLeading s.active.length s.sendonce (s.addClients stream (-1)) stream

end LmdOutputTcp

def matchingRecoveryStream (f : LosFlags) : NeedRecovery → Bool × NeedRecovery
  | .no => (!f.isRecovery, .no)
  | .first => if f.recoveryFirst && !f.recoveryMore then (true, .more) else (false, .first)
  | .more => (!f.isRecovery, if f.recoveryMore && !f.recoveryFirst then .more else .no)
  | .unknown => (true, .unknown) -- `assert (false)`, excluded by the callers

namespace LmdOutputTcp

def needAfter (s : LmdOutputTcp) (stream : Nat) (need : NeedRecovery) : NeedRecovery :=
  if (s.flags stream).stickyLostAfter then .first else need

/-- `prepare_skip`: the stream is too old, or already sent to somebody else. -/
def prepareSkip (s : LmdOutputTcp) (now : Int) (stream : Nat) : Bool :=
  (s.dropold ≠ 0 && !(s.flags stream).isRecovery &&
    now - (s.streams stream).created > s.dropold) ||
  (s.sendonce && (s.streams stream).clients ≠ 0)

/-- The search loop of `get_next_client_stream` over the streams that follow. -/
def searchNext (s : LmdOutputTcp) (now : Int) :
    List Nat → NeedRecovery → Option Nat × NeedRecovery
  | [], need => (none, need)
  | next :: rest, need =>
    if s.prepareSkip now next then
      searchNext s now rest
        (s.needAfter next (if (s.flags next).hasStickyEvent then .first else need))
    else
      match matchingRecoveryStream (s.flags next) need with
      | (true, need) => (some next, need)
      | (false, need) => searchNext s now rest (s.needAfter next need)

def getNextClientStream (s : LmdOutputTcp) (now : Int) (stream : Nat) (need : NeedRecovery) :
    LmdOutputTcp × Option Nat × NeedRecovery :=
  let (next, need) := s.searchNext now (streamsAfter s.active stream) (s.needAfter stream need)
  let s := match next with
    | none => s
    | some next => s.addClients next 1
  (s.freeClientStream stream, next, need)

def noteGiven (s : LmdOutputTcp) (stream : Nat) (c : LmdOutputClient) : LmdOutputClient :=
  { c with log := c.log ++ [.given (s.streams stream).firstBuf (s.flags stream).isRecovery] }

/-- `_need_recovery_stream` resolved on the first attempt. -/
def resolveNeed (seen : Bool) : NeedRecovery → NeedRecovery
  | .unknown => if seen then .first else .no
  | need => need

def askRecovery (s : LmdOutputTcp) (need : NeedRecovery) : LmdOutputTcp :=
  if need = .first then { s with needRecoveryStream := true } else s

def streamIsAvailable (s : LmdOutputTcp) (i : Nat) (c : LmdOutputClient) (stream : Nat) :
    Bool × LmdOutputTcp :=
  if c.current.isSome || c.pending.isSome then (false, s)
  else if s.sendonce && (s.streams stream).clients ≠ 0 then (false, s)
  else
    let need := resolveNeed s.stickyEventsSeen c.need
    let s := if c.need = .unknown then s.askRecovery need else s
    match matchingRecoveryStream (s.flags stream) need with
    | (false, need) => (false, s.setClient i { c with need := need })
    | (true, need) =>
      let c := s.noteGiven stream { c with need := need }
      let s := s.addClients stream 1
      if c.state ≠ .streamWait then (true, s.setClient i { c with pending := some stream })
      else (true, s.setClient i
        { c with current := some stream, offset := 0, state := .sendWait })

def nextStream (s : LmdOutputTcp) (now : Int) (i : Nat) (c : LmdOutputClient) : LmdOutputTcp :=
  match c.pending, c.current with
  | some p, _ =>
    s.setClient i { c with current := some p, pending := none, offset := 0, state := .sendWait }
  | none, none =>
    (s.askRecovery c.need).setClient i
      { c with offset := 0, state := .streamWait }
  | none, some current =>
    match s.getNextClientStream now current c.need with
    | (s', some next, need) =>
      s'.setClient i (s.noteGiven next
        { c with current := some next, offset := 0, need := need, state := .sendWait })
    | (s', none, need) =>
      (s'.askRecovery need).setClient i
        { c with current := none, offset := 0, need := need, state := .streamWait }

/-- What a client's request of twelve bytes says. -/
inductive Request
  | close
  | ping
  | data

/-- The outcome of one call of `send` or `read` on the socket of a client. -/
inductive SocketIo
  /-- not ready, `EINTR` or `EAGAIN` -/
  | again
  /-- any other error, or the time given to the client is over -/
  | failed
  /-- the return value; the last bytes of a request say `request` -/
  | returned (n : Nat) (request : Request)

/-- `n` bytes of the open info, of a request or of the current stream went over the socket;
`false` in the first component: the client is to be closed. -/
def afterTransfer (s : LmdOutputTcp) (now : Int) (i : Nat) (c : LmdOutputClient) (n : Nat)
    (request : Request) : Bool × LmdOutputTcp :=
  match c.state with
  | .sendInfo =>
    let c := { c with offset := c.offset + min n (openInfoSize - c.offset) }
    if c.offset ≥ openInfoSize then
      if !c.allowData then (true, s.setClient i { c with state := .closeWait })
      else
        let c := { c with offset := 0 }
        match c.mode with
        | .stream => (true, s.setClient i { c with state := .requestWait })
        | .trans => (true, s.nextStream now i c)
    else (true, s.setClient i c)
  | .requestWait =>
    let c := { c with got := c.got + min n (12 - c.got) }
    if c.got = 12 then
      let c := { c with got := 0 }
      match request with
      | .close => (false, s)
      | .ping => (true, s.setClient i c)
      | .data => (true, s.nextStream now i c)
    else (true, s.setClient i c)
  | .sendWait =>
    match c.current with
    | none => (true, s) -- a client that sends has a stream
    | some current =>
      let stream := s.streams current
      let c := { c with offset := c.offset + min n (stream.filled - c.offset) }
      if c.offset ≥ stream.filled then
        if stream.filled ≥ stream.maxFill then
          match c.mode with
          | .stream => (true, s.setClient i { c with state := .requestWait })
          | .trans => (true, s.nextStream now i c)
        else (true, s.setClient i { c with state := .bufferWait })
      else (true, s.setClient i c)
  | .closeWait => (false, s)
  | .streamWait | .bufferWait => (true, s)

def afterSelect (s : LmdOutputTcp) (now : Int) (i : Nat) (c : LmdOutputClient) (io : SocketIo) :
    Bool × LmdOutputTcp :=
  if c.state = .streamWait ∨ c.state = .bufferWait then (true, s) -- not looked at by select
  else
    match io with
    | .again => (true, s)
    | .failed => (false, s)
    | .returned n request => if n = 0 then (false, s) else s.afterTransfer now i c n request

def closeClient (s : LmdOutputTcp) (i : Nat) (c : LmdOutputClient) : LmdOutputTcp :=
  let s := match c.current, c.pending with
    | some stream, _ => s.freeClientStream stream
    | none, some stream => s.freeClientStream stream
    | none, none => s
  { s with clients := s.clients.eraseIdx i }

def offerStream (stream : Nat) : LmdOutputTcp → List Nat → LmdOutputTcp
  | s, [] => s
  | s, i :: rest =>
    match s.clients[i]? with
    | none => offerStream stream s rest
    | some c =>
      match s.streamIsAvailable i c stream with
      | (used, s) =>
        if used && s.sendonce then { s with nextSearchClient := i + 1 }
        else offerStream stream s rest

def searchOrder (s : LmdOutputTcp) : List Nat :=
  (List.range s.clients.length).map fun i => (i + s.nextSearchClient) % s.clients.length

def takeFilledStream (s : LmdOutputTcp) (stream : Nat) (rest : List Nat) : LmdOutputTcp :=
  { s.modifyStream stream fun x => { x with clients := 0 } with
    filled := rest
    stickyEventsSeen := s.stickyEventsSeen || (s.flags stream).hasStickyEvent }

def placeStream (s : LmdOutputTcp) (stream : Nat) : LmdOutputTcp :=
  if s.active ≠ [] ∨ (s.streams stream).clients ≠ 0 then s.addClientStream stream
  else s.addFreeStream stream

def dequeFilledStream (s : LmdOutputTcp) : Option LmdOutputTcp :=
  if s.hold && s.clients.isEmpty then none
  else
    match s.filled with
    | [] => none
    | stream :: rest =>
      let s := s.takeFilledStream stream rest
      some ((offerStream stream s s.searchOrder).placeStream stream)

def serveNeedFree (s : LmdOutputTcp) : Option LmdOutputTcp :=
  if s.needFreeStream then
    let s :=
      if s.numStreams < s.maxStreams then
        createFreeStreams (s.maxStreams - s.numStreams).toNat s
      else if !s.hold then s.freeOldestUnused
      else s
    some (if s.free ≠ [] then { s with needFreeStream := false } else s)
  else none

def serveClient (s : LmdOutputTcp) (now : Int) (i : Nat) (io : SocketIo) : Option LmdOutputTcp :=
  match s.clients[i]? with
  | none => none
  | some c =>
    match s.afterSelect now i c io with
    | (true, s) => some s
    | (false, s) => some (s.closeClient i c)

def getBuffer (s : LmdOutputTcp) (now : Int) : Option LmdOutputTcp :=
  match s.fillStream, s.free with
  | none, stream :: rest =>
    let s := s.modifyStream stream fun x =>
      { x with flags := .zero, filled := 0, maxFill := s.streamBufs * s.bufSize, created := now,
               firstBuf := s.lBuf }
    some { s with free := rest, fillStream := some stream }
  | none, [] => some { s with needFreeStream := true }
  | some _, _ => some s

def bufferDone (s : LmdOutputTcp) (stream : Nat) (hasSticky : Bool) : LmdOutputTcp :=
  { s with lBuf := s.lBuf + 1 }.modifyStream stream fun x =>
    { x with filled := x.filled + s.bufSize,
             flags := { x.flags with hasStickyEvent := x.flags.hasStickyEvent || hasSticky } }

/-- `none` while the producer has to wait for a slot in the queue of filled streams. -/
def enqueueFilled (s : LmdOutputTcp) (stream : Nat) : Option LmdOutputTcp :=
  if s.filled.length ≥ lmdOutputFilledStreams then none
  else
    some { s.modifyStream stream fun x =>
        { x with flags := x.flags.orMark s.markReplayStream } with
      filled := s.filled ++ [stream]
      fillStream := none
      markReplayStream := if s.markReplayStream = .first then .more else s.markReplayStream }

def writeBuffer (s : LmdOutputTcp) (hasSticky : Bool) : Option LmdOutputTcp :=
  match s.fillStream with
  | none => none
  | some stream =>
    let s := s.bufferDone stream hasSticky
    if (s.streams stream).filled ≥ (s.streams stream).maxFill then s.enqueueFilled stream
    else some s

def atStreamBoundary (s : LmdOutputTcp) : Bool :=
  match s.fillStream with
  | none => false
  | some stream => (s.streams stream).filled = 0

def doStickyReplay (s : LmdOutputTcp) : Option LmdOutputTcp :=
  if s.needRecoveryStream && s.atStreamBoundary && s.markReplayStream = .none then
    some { s with needRecoveryStream := false, markReplayStream := .first }
  else none

def endStickyReplay (s : LmdOutputTcp) : Option LmdOutputTcp :=
  if s.markReplayStream ≠ .none && s.atStreamBoundary then
    some { s with markReplayStream := .none }
  else none

inductive Act
  | accept (mode : ServerMode) (allowData : Bool)
  | deque
  | client (i : Nat) (io : SocketIo) (now : Int)
  /-- `lmd_output_tcp::close` takes down what is left -/
  | shutdown (i : Nat)
  | needFree
  | getBuffer (now : Int)
  | writeBuffer (hasSticky : Bool)
  | doStickyReplay
  | endStickyReplay

def step (s : LmdOutputTcp) : Act → Option LmdOutputTcp
  | .accept mode allowData =>
    some { s with clients := s.clients ++ [LmdOutputClient.new mode allowData] }
  | .deque => s.dequeFilledStream
  | .client i io now => s.serveClient now i io
  | .shutdown i => (s.clients[i]?).map fun c => s.closeClient i c
  | .needFree => s.serveNeedFree
  | .getBuffer now => s.getBuffer now
  | .writeBuffer hasSticky => s.writeBuffer hasSticky
  | .doStickyReplay => s.doStickyReplay
  | .endStickyReplay => s.endStickyReplay

end LmdOutputTcp

end Ucesb
