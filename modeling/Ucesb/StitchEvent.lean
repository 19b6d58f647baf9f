import Ucesb.LmdEvent
import Mathlib.Tactic.Common

namespace Ucesb

/-- The data of a subevent that was located: in one piece, or from an offset in one chunk on. -/
inductive SubeventData
  | whole (data : List UInt8)
  | fragments (first : List UInt8) (offset : Nat) (more : List (List UInt8)) (length : Nat)
deriving DecidableEq

structure LocatedSubevent where
  header : List UInt8
  data : SubeventData
deriving DecidableEq

def copyFragments : List (List UInt8) → Nat → List (List UInt8)
  | [], _ => []
  | frag :: frags, length =>
    if frag.length < length then frag :: copyFragments frags (length - frag.length)
    else [frag.take length]

/-- The data as `get_subevent_data_src` puts it together. -/
def SubeventData.content : SubeventData → List UInt8
  | .whole data => data
  | .fragments first offset more length =>
    first.drop offset ++ (copyFragments more (length - (first.length - offset))).flatten

/-- The pieces that `lmd_event_out::copy` takes. It begins at the start of the first chunk. -/
def SubeventData.copied : SubeventData → List (List UInt8)
  | .whole data => if data = [] then [] else [data]
  | .fragments first offset more length =>
    first.take (first.length - offset) :: copyFragments more (length - (first.length - offset))

/-- An event, with what comes of `get_10_1_info` and `locate_subevents`. When the latter fails, the
subevents before are there. -/
structure LoopEvent where
  header : LmdEventHeader
  info : LmdEventInfo
  infoFails : Bool
  locateFails : Bool
  subevents : List LocatedSubevent
  swapping : Bool
  aidaExtra : Bool
  aidaLength : Nat
deriving DecidableEq

/-- What `get_timestamp` gives: it throws, or it finds the error bit set, or it has the stamp. -/
inductive Stamp
  | missing
  | bad
  | good (timestamp : Nat)
deriving DecidableEq

def wrStampEbidError : Nat := 0x00010000
def wrStampEbidUnused : Nat := 0xfffec0ff
def wrStampDataTimeMask : Nat := 0x0000ffff
def wrStampDataIdMask : Nat := 0xffff0000

/-- `get_wr_timestamp`, with no time slopes given. -/
def getWrTimestamp (e : LoopEvent) : Stamp :=
  match e.subevents with
  | [] => .missing
  | s :: _ =>
    let data := swapIf e.swapping s.data.content
    let word k := rd32 (data.drop (4 * k))
    if data.length < 4 then .missing
    else if word 0 &&& wrStampEbidUnused ≠ 0 then .missing
    else if word 0 &&& wrStampEbidError ≠ 0 then .bad
    else if data.length < 20 then .missing
    else if word 1 &&& wrStampDataIdMask ≠ 0x03e10000 ∨ word 2 &&& wrStampDataIdMask ≠ 0x04e10000 ∨
        word 3 &&& wrStampDataIdMask ≠ 0x05e10000 ∨ word 4 &&& wrStampDataIdMask ≠ 0x06e10000 then
      .missing
    else
      .good ((word 1 &&& wrStampDataTimeMask) ||| (word 2 &&& wrStampDataTimeMask) <<< 16 |||
        (word 3 &&& wrStampDataTimeMask) <<< 32 ||| (word 4 &&& wrStampDataTimeMask) <<< 48)

/-- The configuration, the time stamps of events, and how many subevents the unpacking gets to and
whether it goes well. `inputFilter` is the build with `USE_INPUTFILTER`. -/
structure LoopConf where
  eventStitchMode : Bool
  eventStitchValue : Int
  inputFilter : Bool
  aidaNewStitch : Bool
  allowErrors : Bool
  getTimestamp : LoopEvent → Stamp
  unpackEvent : LoopEvent → Nat × Bool

structure StitchInfo where
  lastStamp : Nat
  hasStamp : Bool
  combine : Bool
  badstamp : Bool
deriving DecidableEq

def stitchInit : StitchInfo := ⟨0, false, false, false⟩

def withinStitch (conf : LoopConf) (s : StitchInfo) (timestamp : Nat) : Bool :=
  s.hasStamp && !s.badstamp &&
    decide (Int.bmod ((timestamp : Int) - s.lastStamp) (2 ^ 64) < conf.eventStitchValue)

def specialTrigger (conf : LoopConf) (e : LoopEvent) : Bool :=
  conf.inputFilter && decide (10 ≤ e.info.iTrigger.toNat) && decide (e.info.iTrigger.toNat ≤ 13)

/-- `stitch_event`, and whether it does not throw. -/
def stitchEvent (conf : LoopConf) (e : LoopEvent) (s : StitchInfo) : StitchInfo × Bool :=
  match conf.getTimestamp e with
  | .missing => ({ s with badstamp := true, combine := false }, false)
  | .bad => ({ s with badstamp := true, combine := false, hasStamp := false }, true)
  | .good timestamp =>
    let within := withinStitch conf s timestamp
    let timestamp :=
      if conf.inputFilter && conf.aidaNewStitch && e.aidaExtra && !within then
        (timestamp + e.aidaLength) % 2 ^ 64
      else timestamp
    let combine := within && !specialTrigger conf e
    ({ lastStamp := if conf.inputFilter then timestamp else s.lastStamp
       hasStamp := if combine then s.hasStamp else true
       combine := combine
       badstamp := false }, true)

/-- An event on its way to the outputs: the stitching before and after, and how many subevents have
been put together. -/
structure Handed where
  event : LoopEvent
  before : StitchInfo
  stitch : StitchInfo
  reached : Nat

def LoopEvent.early (e : LoopEvent) : Bool := e.infoFails || e.locateFails

def lookAt (conf : LoopConf) (s : StitchInfo) (e : LoopEvent) : Handed × Bool :=
  if e.early then (⟨e, s, s, 0⟩, true)
  else if conf.eventStitchMode then
    let (stitch, ok) := stitchEvent conf e s
    if ok then
      let (reached, fine) := conf.unpackEvent e
      (⟨e, s, stitch, max 1 reached⟩, !fine)
    else (⟨e, s, stitch, 1⟩, true)
  else
    let (reached, fine) := conf.unpackEvent e
    (⟨e, s, s, reached⟩, !fine)

/-- The events that get to the outputs. With the tenth error the input is left. -/
def handedOn (conf : LoopConf) : StitchInfo → Nat → List LoopEvent → List Handed
  | _, _, [] => []
  | s, errors, e :: events =>
    let (h, fails) := lookAt conf s e
    let errors := if fails then errors + 1 else errors
    if fails && !conf.allowErrors && decide (10 ≤ errors) then []
    else h :: handedOn conf h.stitch errors events

structure SelectEvent where
  event : LoopEvent → Bool
  subevent : List UInt8 → Bool
  omitEmptyPayload : Bool

def SelectEvent.acceptEvent (o : SelectEvent) (e : LoopEvent) : Bool :=
  e.header.isSticky || o.event e

/-- `accept_final_event`; an event that is clear is `none`. -/
def SelectEvent.acceptFinalEvent (o : SelectEvent) : Option LmdEventOut → Bool
  | none => false
  | some ev => !(o.omitEmptyPayload && ev.more.isEmpty)

def LoopEvent.defragged (e : LoopEvent) (reached : Nat) : List LocatedSubevent :=
  (e.subevents.take reached).map (fun s => ⟨s.header, .whole s.data.content⟩) ++
    e.subevents.drop reached

def SelectEvent.wanted (o : SelectEvent) (e : LoopEvent) (subevents : List LocatedSubevent) :
    List LocatedSubevent :=
  if e.header.isSticky then subevents else subevents.filter fun s => o.subevent s.header

/-- `copy_header` has an assertion in either case. -/
def copyHeader (out : Option LmdEventOut) (e : LoopEvent) (combine : Bool) : Option LmdEventOut :=
  match combine, out with
  | true, some ev =>
    some { ev with info := { ev.info with iTrigger :=
      if ev.info.iTrigger < e.info.iTrigger then e.info.iTrigger else ev.info.iTrigger } }
  | false, none => some ⟨e.header, e.info, []⟩
  | _, _ => none

/-- The chunks of a subevent. Only whole words may be added to the buffer. -/
def copySubevent (swapping : Bool) (s : LocatedSubevent) : Option (List BufChunkSwap) :=
  if s.data.copied.all fun piece => piece.length % 4 = 0 then
    some (⟨s.header, false⟩ :: s.data.copied.map (⟨·, swapping⟩))
  else none

def copySubevents (swapping : Bool) : List LocatedSubevent → Option (List BufChunkSwap)
  | [] => some []
  | s :: subevents => do
    let chunks ← copySubevent swapping s
    let rest ← copySubevents swapping subevents
    some (chunks ++ rest)

/-- `lmd_event_out::copy`. The subevents have to have been looked for. -/
def copyEvent (o : SelectEvent) (out : Option LmdEventOut) (h : Handed) : Option LmdEventOut :=
  if h.event.infoFails then none
  else do
    let ev ← copyHeader out h.event h.stitch.combine
    let chunks ← copySubevents h.event.swapping (o.wanted h.event (h.event.defragged h.reached))
    some { ev with more := ev.more ++ chunks }

structure OutputState where
  event : Option LmdEventOut
  written : List LmdEventOut

def SelectEvent.dump (o : SelectEvent) (st : OutputState) : OutputState :=
  if o.acceptFinalEvent st.event then { st with written := st.written ++ st.event.toList } else st

/-- What an output does for one event. A failed assertion is `none`. -/
def outputStep (conf : LoopConf) (o : SelectEvent) (st : OutputState) (h : Handed) :
    Option OutputState :=
  let ends := !h.stitch.combine || h.stitch.badstamp
  let st := if conf.eventStitchMode && ends then o.dump st else st
  let st := if ends then { st with event := none } else st
  if !o.acceptEvent h.event then some st
  else do
    let ev ← copyEvent o st.event h
    let st := { st with event := some ev }
    if !conf.eventStitchMode || h.stitch.badstamp then
      let st := o.dump st
      some (if h.stitch.badstamp then { st with event := none } else st)
    else some st

def outputRun (conf : LoopConf) (o : SelectEvent) : OutputState → List Handed → Option OutputState
  | st, [] => some st
  | st, h :: hs => do
    let st ← outputStep conf o st h
    outputRun conf o st hs

def outputDone (conf : LoopConf) (o : SelectEvent) (st : OutputState) : List LmdEventOut :=
  if conf.eventStitchMode then (o.dump st).written else st.written

def writtenOutput (conf : LoopConf) (o : SelectEvent) (events : List LoopEvent) :
    Option (List LmdEventOut) :=
  (outputRun conf o ⟨none, []⟩ (handedOn conf stitchInit 0 events)).map (outputDone conf o)

end Ucesb
