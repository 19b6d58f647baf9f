import Mathlib.Data.List.Basic

namespace Ucesb

/-- `int64_t`, as it wraps. -/
abbrev WrTime := BitVec 64

/-- The `uint32_t` of a payload. -/
abbrev WrWord := BitVec 32

def aidaTimeShift : WrTime := 14000

structure MultiConf where
  enableEventbuilder : Bool
  eventbuilderProcid : Nat
  eventbuilderWindow : WrTime
  aidaMaxlen : WrTime
  aidaSkipDecays : Bool
  enableDtas : Bool
  maxEvents : Int

/-- The data between `pb_start` and `pb_end`. The length of a subevent counts words of 16 bits, so
that there can be half a word more. -/
structure MultiSubevent where
  procid : Nat
  words : List WrWord
  half : Bool
deriving DecidableEq

structure MultiFileEvent where
  type : Nat
  subtype : Nat
  count : Nat
  subevents : List MultiSubevent
deriving DecidableEq

/-- What `lmd_source::get_event` comes to. -/
inductive MultiInput
  | event (e : MultiFileEvent)
  | broken (message : String)
deriving DecidableEq

/-- With the data goes, for each two words, the timestamp of the loader when they were stored. The
second two words of a SYNC have the timestamp that it sets. -/
structure AidaEntry where
  procid : Nat
  timestamp : WrTime
  data : List WrWord
  stamps : List WrTime
  fragment : Bool
  fragmentWr : WrTime
  implantWrS : WrTime
  implantWrE : WrTime
  flags : Nat
deriving DecidableEq

structure DtasEntry where
  procid : Nat
  timestamp : WrTime
  data : List WrWord
  fragment : Bool
  fragmentWr : WrTime
  pulser : Bool
deriving DecidableEq

inductive EventEntry
  | aida (e : AidaEntry)
  | dtas (e : DtasEntry)
  | trigger (timestamp : WrTime) (event : MultiFileEvent)
deriving DecidableEq

def EventEntry.timestamp : EventEntry → WrTime
  | .aida e => e.timestamp
  | .dtas e => e.timestamp
  | .trigger timestamp _ => timestamp

def EventEntry.eventNo : EventEntry → Nat
  | .trigger _ event => event.count
  | _ => 0

def EventEntry.after (a b : EventEntry) : Bool :=
  if a.timestamp = b.timestamp then b.eventNo < a.eventNo else b.timestamp.slt a.timestamp

def pushEntry (e : EventEntry) : List EventEntry → List EventEntry
  | [] => [e]
  | a :: events => if a.after e then e :: a :: events else a :: pushEntry e events

structure MultiEventSource where
  input : List MultiInput
  /-- the file is the last of the inputs -/
  lastFile : Bool
  loadEventWr : WrTime
  emitWr : WrTime
  lastMbsWr : WrTime
  emitSkip : Nat
  aidaSkip : Nat
  dtasSkip : Nat
  curAida : Option AidaEntry
  curDtas : Option DtasEntry
  events : List EventEntry
  /-- each time that stored words were gone through for an implant: the event, and its word -/
  retracks : List (AidaEntry × WrWord)

def startMulti (input : List MultiInput) (lastFile : Bool) : MultiEventSource :=
  ⟨input, lastFile, 0, 0, 0, 0, 0, 0, none, none, [], []⟩

inductive LoadStop
  | error (message : String)
  | assertion
  /-- a word that is not, or not all, in the subevent -/
  | outside
deriving DecidableEq

structure LoadStopped where
  stop : LoadStop
  source : MultiEventSource

def MultiEventSource.push (s : MultiEventSource) (e : EventEntry) : MultiEventSource :=
  { s with events := pushEntry e s.events }

def setLow (t : WrTime) (word2 : WrWord) : WrTime :=
  t &&& ~~~0x0fffffff ||| word2.setWidth 64 &&& 0x0fffffff

def low20 (word : WrWord) : WrTime := (word &&& 0x000fffff).setWidth 64

def fullTime (highTS middleTS : WrTime) (word2 : WrWord) : WrTime :=
  highTS <<< 48 ||| middleTS <<< 28 ||| word2.setWidth 64

def highOf (t : WrTime) : WrTime := t.sshiftRight 48 &&& 0xfffff

def middleOf (t : WrTime) : WrTime := t.sshiftRight 28 &&& 0xfffff

def isSync (word1 : WrWord) : Bool := word1 &&& 0xc0f00000 == 0x80500000
def isMiddle (word : WrWord) : Bool := word &&& 0xc0f00000 == 0x80400000
def isPause (word1 : WrWord) : Bool :=
  word1 &&& 0xc0f00000 == 0x80200000 || word1 &&& 0xc0f00000 == 0x80300000
def isImplant (word1 : WrWord) : Bool := word1 &&& 0xf0000000 == 0xd0000000
def isDecay (word1 : WrWord) : Bool := word1 &&& 0xf0000000 == 0xc0000000
def isAdc (word1 : WrWord) : Bool := word1 &&& 0xc0000000 == 0xc0000000
def isPulser (word1 : WrWord) : Bool := word1 &&& 0xfff00000 == 0x80800000

def feeOf (word1 : WrWord) : Nat := 1 + ((word1 >>> 16 &&& 0xfff) >>> 6 &&& 0x3f).toNat
def asicOf (word1 : WrWord) : Nat := (word1 >>> 16 &&& 0x3f).toNat / 16

structure Retrack where
  n : Nat
  lWR : WrTime
  tWR : WrTime
  /-- for each two words -/
  times : List WrTime
deriving DecidableEq

def Retrack.cycle (r : Retrack) (word1 tdata : WrWord) : Retrack :=
  if isDecay tdata && feeOf tdata == feeOf word1 && asicOf tdata == asicOf word1 then
    { r with n := if (r.tWR - r.lWR).slt 2100 then r.n + 1 else 0, lWR := r.tWR }
  else r

def retrackFrom (word1 : WrWord) : List WrWord → Retrack → Retrack
  | tdata :: low :: data, r =>
    if isSync tdata then
      match data with
      | middleRaw :: _ :: data =>
        -- the high bits are those of the implant's word
        retrackFrom word1 data { r with
          tWR := fullTime (low20 word1) (low20 middleRaw) low
          times := r.times ++ [setLow r.tWR low, fullTime (low20 word1) (low20 middleRaw) low] }
      | _ => r
    else
      retrackFrom word1 data
        (({ r with tWR := setLow r.tWR low, times := r.times ++ [setLow r.tWR low] } :
          Retrack).cycle word1 tdata)
  | _, r => r

def retrack (e : AidaEntry) (word1 : WrWord) : Retrack :=
  retrackFrom word1 e.data ⟨0, 0, e.timestamp, []⟩

def newAida (procid : Nat) (timestamp fragmentWr : WrTime) : AidaEntry :=
  ⟨procid, timestamp, [], [], true, fragmentWr, 0, 0, 0⟩

def AidaEntry.implant (e : AidaEntry) : Bool := e.flags &&& 1 == 1

/-- The loop of `load_aida`, with the event that is built. -/
structure AidaLoop where
  source : MultiEventSource
  cur : AidaEntry
  oldTs : WrTime

def AidaLoop.stopped (l : AidaLoop) (stop : LoadStop) : LoadStopped :=
  ⟨stop, { l.source with curAida := some l.cur }⟩

def AidaLoop.setWr (l : AidaLoop) (wr : WrTime) : AidaLoop :=
  { l with source := { l.source with loadEventWr := wr } }

def AidaLoop.store (l : AidaLoop) (data : List WrWord) (stamps : List WrTime) : AidaLoop :=
  { l with cur := { l.cur with
    data := l.cur.data ++ data
    stamps := l.cur.stamps ++ stamps } }

def aidaSync (word1 word2 middleRaw middleLow : WrWord) (l : AidaLoop) : AidaLoop :=
  if low20 word1 ≠ highOf (setLow l.source.loadEventWr word2) ∨
      low20 middleRaw ≠ middleOf (setLow l.source.loadEventWr word2) then
    (l.store [word1, word2, middleRaw, middleLow]
      [setLow l.source.loadEventWr word2, fullTime (low20 word1) (low20 middleRaw) word2]).setWr
      (fullTime (low20 word1) (low20 middleRaw) word2)
  else l.setWr (fullTime (low20 word1) (low20 middleRaw) word2)

/-- The timestamp of an item. PAUSE and RESUME have their own middle bits. -/
def itemTime (t : WrTime) (word1 word2 : WrWord) : WrTime :=
  if isPause word1 then fullTime (highOf (setLow t word2)) (low20 word1) word2
  else setLow t word2

/-- The start of the implant, as many cycles of the multiplexer back as there are in a row. -/
def implantStart (e : AidaEntry) (word1 : WrWord) (wr : WrTime) : WrTime :=
  wr - aidaTimeShift - (BitVec.ofNat 32 ((retrack e word1).n * 2000)).signExtend 64

def aidaImplant (word1 : WrWord) (l : AidaLoop) : AidaLoop :=
  if isImplant word1 then
    if l.cur.implantWrS = 0 then
      { l with
        cur := { l.cur with
          flags := l.cur.flags ||| 1
          implantWrE := l.source.loadEventWr
          implantWrS := implantStart l.cur word1 l.source.loadEventWr }
        source := { l.source with retracks := l.source.retracks ++ [(l.cur, word1)] } }
    else
      { l with cur := { l.cur with
        flags := l.cur.flags ||| 1
        implantWrE := l.source.loadEventWr } }
  else l

def aidaPulser (word1 : WrWord) (l : AidaLoop) : AidaLoop :=
  if isPulser word1 then { l with cur := { l.cur with flags := l.cur.flags ||| 2 } } else l

def endOfAida (conf : MultiConf) (word1 : WrWord) (l : AidaLoop) : Bool :=
  isAdc word1 && (conf.eventbuilderWindow.slt (l.source.loadEventWr - l.oldTs) ||
    conf.aidaMaxlen != 0 && conf.aidaMaxlen.slt (l.source.loadEventWr - l.cur.timestamp))

def AidaEntry.tiny (e : AidaEntry) : Bool :=
  match e.data with
  | [word1, _] => isAdc word1
  | _ => false

def finishAida (conf : MultiConf) (l : AidaLoop) : MultiEventSource :=
  if l.cur.tiny || conf.aidaSkipDecays && !l.cur.implant then l.source
  else l.source.push (.aida { l.cur with fragment := false, fragmentWr := l.oldTs })

def aidaSplit (conf : MultiConf) (procid : Nat) (word1 : WrWord) (l : AidaLoop) : AidaLoop :=
  if endOfAida conf word1 l then
    { l with
      source := finishAida conf l
      cur := newAida procid (l.source.loadEventWr - aidaTimeShift) 0 }
  else l

def aidaStore (word1 word2 : WrWord) (l : AidaLoop) : AidaLoop :=
  if isAdc word1 then
    { l with
      cur := { l.cur with
        fragmentWr := l.source.loadEventWr
        data := l.cur.data ++ [word1, word2]
        stamps := l.cur.stamps ++ [l.source.loadEventWr] }
      oldTs := l.source.loadEventWr }
  else l.store [word1, word2] [l.source.loadEventWr]

def aidaKeep (conf : MultiConf) (procid : Nat) (mbsWr : WrTime) (word1 word2 : WrWord)
    (l : AidaLoop) : AidaLoop :=
  if l.source.loadEventWr.slt l.oldTs && l.oldTs != mbsWr then
    { l with source := { l.source with aidaSkip := l.source.aidaSkip + 1 } }
  else
    aidaStore word1 word2
      (aidaSplit conf procid word1 { l with source := { l.source with aidaSkip := 0 } })

def aidaItem (conf : MultiConf) (procid : Nat) (mbsWr : WrTime) (word1 word2 : WrWord)
    (l : AidaLoop) : AidaLoop :=
  aidaKeep conf procid mbsWr word1 word2 (aidaPulser word1 (aidaImplant word1
    (l.setWr (itemTime l.source.loadEventWr word1 word2))))

/-- `while(pl_data < pl_end)`, which is also true for half a word. -/
def aidaLoop (conf : MultiConf) (procid : Nat) (mbsWr : WrTime) (half : Bool) :
    List WrWord → AidaLoop → Except LoadStopped AidaLoop
  | [], l => if half then .error (l.stopped .outside) else .ok l
  | [_], l => .error (l.stopped .outside)
  | word1 :: word2 :: data, l =>
    if isSync word1 then
      match data with
      | middleRaw :: middleLow :: data =>
        if isMiddle middleRaw then
          aidaLoop conf procid mbsWr half data (aidaSync word1 word2 middleRaw middleLow l)
        else
          .error ((l.setWr (setLow l.source.loadEventWr word2)).stopped (.error
            "AIDA Corrupt WR Timestamp (High bits not followed by middle bits)"))
      | _ => .error ((l.setWr (setLow l.source.loadEventWr word2)).stopped .outside)
    else aidaLoop conf procid mbsWr half data (aidaItem conf procid mbsWr word1 word2 l)

def curAidaOf (procid : Nat) (s : MultiEventSource) : AidaEntry :=
  match s.curAida with
  | some e =>
    if e.fragment then e else newAida procid (s.loadEventWr - aidaTimeShift) s.loadEventWr
  | none => newAida procid (s.loadEventWr - aidaTimeShift) s.loadEventWr

/-- If the first timestamp of AIDA fits the one of the subevent, then that has all the bits. -/
def firstAidaWr (oldTs mbsWr : WrTime) (word : WrWord) : WrTime :=
  if (word &&& 0x0fffffff).setWidth 64 = mbsWr &&& 0x0fffffff then mbsWr else oldTs

def saveAida (l : AidaLoop) : Except LoadStopped MultiEventSource :=
  if l.cur.data = [] then .error (l.stopped (.error "Why?"))
  else .ok { l.source with curAida := some { l.cur with fragment := true } }

def loadAida (conf : MultiConf) (se : MultiSubevent) (mbsWr : WrTime) (s : MultiEventSource) :
    Except LoadStopped MultiEventSource :=
  match se.words.drop 5 with
  | word1 :: word2 :: data => do
    let l ← aidaLoop conf se.procid mbsWr se.half (word1 :: word2 :: data)
      ⟨{ s with loadEventWr := firstAidaWr (curAidaOf se.procid s).fragmentWr mbsWr word2 },
        curAidaOf se.procid s, (curAidaOf se.procid s).fragmentWr⟩
    saveAida l
  | _ => .error ⟨.outside, { s with curAida := some (curAidaOf se.procid s) }⟩

def newDtas (procid : Nat) (timestamp fragmentWr : WrTime) : DtasEntry :=
  ⟨procid, timestamp, [], true, fragmentWr, false⟩

structure DtasLoop where
  source : MultiEventSource
  cur : DtasEntry
  oldTs : WrTime

def DtasLoop.stopped (l : DtasLoop) (stop : LoadStop) : LoadStopped :=
  ⟨stop, { l.source with curDtas := some l.cur }⟩

def blockTime (t oldTs mbsWr : WrTime) (word : WrWord) : WrTime :=
  if (t &&& ~~~0xffffffff ||| word.setWidth 64).slt oldTs &&
      t &&& ~~~0xffffffff ||| word.setWidth 64 != mbsWr then
    (t &&& ~~~0xffffffff ||| word.setWidth 64) + 0x100000000
  else t &&& ~~~0xffffffff ||| word.setWidth 64

def dtasSplit (conf : MultiConf) (procid : Nat) (wr : WrTime) (l : DtasLoop) : DtasLoop :=
  if conf.eventbuilderWindow.slt (wr - l.oldTs) then
    { l with
      source := if l.cur.data = [] then l.source
        else l.source.push (.dtas { l.cur with fragment := false, fragmentWr := l.oldTs })
      cur := newDtas procid wr 0 }
  else l

def dtasBlock (conf : MultiConf) (procid : Nat) (block : List WrWord) (wr : WrTime)
    (l : DtasLoop) : DtasLoop :=
  if wr.slt l.oldTs then
    { l with source := { l.source with loadEventWr := wr, dtasSkip := l.source.dtasSkip + 1 } }
  else
    let l := dtasSplit conf procid wr
      { l with source := { l.source with loadEventWr := wr, dtasSkip := 0 } }
    { l with
      cur := { l.cur with fragmentWr := wr, data := l.cur.data ++ block }
      oldTs := wr }

def dtasLoop (conf : MultiConf) (procid : Nat) (mbsWr : WrTime) (half : Bool) :
    List WrWord → DtasLoop → Except LoadStopped DtasLoop
  | [], l => if half then .error (l.stopped .outside) else .ok l
  | header :: time :: fine :: energy :: data, l =>
    if header &&& 0xff00ff00 ≠ 0xba00c000 then
      .error (l.stopped (.error "Not a valid DTAS Block."))
    else
      dtasLoop conf procid mbsWr half data
        (dtasBlock conf procid [header, time, fine, energy]
          (blockTime l.source.loadEventWr l.oldTs mbsWr time) l)
  | _, l => .error (l.stopped .outside)

def saveDtas (l : DtasLoop) : MultiEventSource :=
  if l.cur.data = [] then { l.source with curDtas := none }
  else { l.source.push (.dtas { l.cur with fragment := false }) with curDtas := none }

def pulserDtas (procid : Nat) (mbsWr : WrTime) : DtasEntry :=
  ⟨procid, mbsWr, [], false, mbsWr, true⟩

def loadDtasBlocks (conf : MultiConf) (se : MultiSubevent) (mbsWr : WrTime) (wr34 : WrWord)
    (data : List WrWord) (s : MultiEventSource) : Except LoadStopped MultiEventSource :=
  if wr34 = 0x12345678 then .ok { s.push (.dtas (pulserDtas se.procid mbsWr)) with curDtas := none }
  else if mbsWr.sshiftRight 32 ≠ wr34.setWidth 64 then
    .error ⟨.error "DTAS WR header did not match MBS WR header",
      { s with curDtas := some (newDtas se.procid s.loadEventWr s.loadEventWr) }⟩
  else do
    let l ← dtasLoop conf se.procid mbsWr se.half data
      ⟨{ s with loadEventWr := s.loadEventWr &&& 0xffffffff ||| wr34.setWidth 64 <<< 32 },
        newDtas se.procid s.loadEventWr s.loadEventWr, s.loadEventWr⟩
    return saveDtas l

def loadDtas (conf : MultiConf) (se : MultiSubevent) (mbsWr : WrTime) (s : MultiEventSource) :
    Except LoadStopped MultiEventSource :=
  if s.curDtas.any DtasEntry.fragment then .error ⟨.assertion, s⟩
  else
    match se.words.drop 5 with
    | wr34 :: data => loadDtasBlocks conf se mbsWr wr34 data s
    | [] =>
      .error ⟨.outside, { s with curDtas := some (newDtas se.procid s.loadEventWr s.loadEventWr) }⟩

inductive FileStatus
  | aidaEvent
  | otherEvent
  | eof
  | unknownEvent
  | dtasEvent
deriving DecidableEq

/-- The marks in the high bits of the words of a white rabbit timestamp, one after the other as long
as they are right. -/
def wrMarks : List WrWord → List WrWord → Option Bool
  | [], _ => some true
  | mark :: marks, word :: words =>
    if word &&& 0xffff0000 = mark then wrMarks marks words else some false
  | _ :: _, [] => none

def low16 (word : WrWord) : WrTime := (word &&& 0xffff).setWidth 64

def wrValue : List WrWord → WrTime
  | _ :: w1 :: w2 :: w3 :: w4 :: _ =>
    low16 w1 ||| low16 w2 <<< 16 ||| low16 w3 <<< 32 ||| low16 w4 <<< 48
  | _ => 0

def wrHeader : List WrWord := [0x03e10000, 0x04e10000, 0x05e10000, 0x06e10000]

def readWr (se : MultiSubevent) (s : MultiEventSource) : Except LoadStopped (WrTime × MultiEventSource) :=
  match wrMarks wrHeader (se.words.drop 1) with
  | some true =>
    .ok (wrValue se.words,
      { s with loadEventWr := wrValue se.words, lastMbsWr := wrValue se.words })
  | some false => .ok (0, s)
  | none => .error ⟨.outside, s⟩

def MultiSubevent.bytes (se : MultiSubevent) : Nat :=
  4 * se.words.length + if se.half then 2 else 0

def dtasProcid : Nat := 37

def loadSubevents (conf : MultiConf) (event : MultiFileEvent) :
    List MultiSubevent → MultiEventSource → Except LoadStopped (FileStatus × MultiEventSource)
  | [], s => .ok (.otherEvent, s.push (.trigger s.loadEventWr event))
  | se :: subevents, s =>
    if se.bytes < 2 then loadSubevents conf event subevents s
    else do
      let (mbsWr, s) ← readWr se s
      if se.procid = conf.eventbuilderProcid then do
        let s ← loadAida conf se mbsWr s
        return (.aidaEvent, s)
      else if conf.enableDtas ∧ se.procid = dtasProcid then do
        let s ← loadDtas conf se mbsWr s
        return (.dtasEvent, s)
      else loadSubevents conf event subevents s

def loadEvents (conf : MultiConf) (s : MultiEventSource) :
    Except LoadStopped (FileStatus × MultiEventSource) :=
  match s.input with
  | [] => .ok (.eof, s)
  | .broken message :: input => .error ⟨.error message, { s with input := input }⟩
  | .event e :: input =>
    if e.type ≠ 10 ∨ e.subtype ≠ 1 ∨ e.subevents = [] then
      .ok (.unknownEvent, { s with input := input })
    else loadSubevents conf e e.subevents { s with input := input }

end Ucesb
