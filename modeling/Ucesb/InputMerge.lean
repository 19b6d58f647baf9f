import Ucesb.Runs
import Ucesb.StitchEvent

namespace Ucesb

inductive MergeMode
  | eventNo
  | time
deriving DecidableEq

/-- Unpacking throws before the event number is taken, or later, or not at all. -/
inductive UnpackResult
  | early
  | late
  | ok
deriving DecidableEq

/-- An event of a file. The number goes on when the counter in the header wraps. -/
structure InputEvent where
  sticky : Bool
  unpack : UnpackResult
  number : Nat
  stamp : Stamp
deriving DecidableEq

structure MergeConf where
  mode : MergeMode
  concurrentFiles : Nat
  positive : 0 < concurrentFiles
  allowErrors : Bool
  brokenFiles : Bool

/-- An open source: what has not been read, the event read last, and what the normal event and its
time stamp are sorted by. -/
structure SourceEventBase where
  rest : List InputEvent
  current : Option InputEvent
  eventNo : Nat
  timestamp : Nat

inductive MergePhase
  | outer
  | loop
  | ended
  | aborted
deriving DecidableEq

/-- The sources by number. The source that is taken next of those that need an event is the first. -/
structure InputMergeState where
  next : Nat
  sources : List Nat
  need : List Nat
  queue : List Nat
  src : Nat → SourceEventBase
  errors : Nat
  prev : Option Nat
  emitted : List (Nat × InputEvent)
  phase : MergePhase

def setSource (src : Nat → SourceEventBase) (i : Nat) (d : SourceEventBase) :
    Nat → SourceEventBase :=
  fun j => if j = i then d else src j

/-- Unpacking of an event, and `do_merge_prepare_event_info`; whether nothing throws. A sticky event
is unpacked elsewhere, and does not set the event number. -/
def prepareEvent (conf : MergeConf) (d : SourceEventBase) (e : InputEvent) :
    SourceEventBase × Bool :=
  let d := { d with current := some e }
  if e.unpack = .early then (d, false)
  else
    let d := if e.sticky then d else { d with eventNo := e.number % 2 ^ 32 }
    if e.unpack = .late then (d, false)
    else
      match conf.mode with
      | .eventNo => (d, true)
      | .time =>
        match e.stamp with
        | .missing => (d, false)
        | .bad => ({ d with timestamp := 0 }, true)
        | .good timestamp => ({ d with timestamp := timestamp }, true)

def sortKey (conf : MergeConf) (d : SourceEventBase) : Nat :=
  match conf.mode with
  | .eventNo => d.eventNo
  | .time => d.timestamp

def compareEventsAfter (conf : MergeConf) (x y : SourceEventBase) : Bool :=
  decide (sortKey conf y < sortKey conf x)

/-- `do_check_merge_event_after` finds nothing wrong. -/
def checkMergeEventAfter (conf : MergeConf) (prev : Nat) (x : SourceEventBase) : Bool :=
  match conf.mode with
  | .eventNo =>
    if prev < x.eventNo then true
    else if x.eventNo = prev then false
    else x.eventNo &&& 0xff000000 == 0 && prev &&& 0xff000000 == 0xff000000
  | .time => true

def closeSource (st : InputMergeState) (i : Nat) : InputMergeState :=
  { st with sources := st.sources.erase i, phase := .outer }

/-- The next event of a source that has been taken from those that need one. -/
def fetchSource (conf : MergeConf) (st : InputMergeState) (i : Nat) : InputMergeState :=
  match (st.src i).rest with
  | [] => closeSource st i
  | e :: rest =>
    let (d, ok) := prepareEvent conf { st.src i with rest := rest } e
    let st := { st with src := setSource st.src i d }
    if ok then { st with queue := i :: st.queue }
    else
      let st := { st with errors := st.errors + 1 }
      if !conf.allowErrors && decide (10 ≤ st.errors) then
        if conf.brokenFiles then closeSource st i else { st with phase := .aborted }
      else { st with need := i :: st.need }

def takeEvent (conf : MergeConf) (st : InputMergeState) (i : Nat) : InputMergeState :=
  let d := st.src i
  if st.prev.all fun prev => checkMergeEventAfter conf prev d then
    { st with
      prev := some (sortKey conf d)
      need := i :: st.need
      emitted := st.emitted ++ d.current.toList.map (Prod.mk i) }
  else { st with phase := .aborted }

/-- With `_broken_files` the errors are counted anew for each file. -/
def resetErrors (conf : MergeConf) (st : InputMergeState) : InputMergeState :=
  if conf.brokenFiles then { st with errors := 0 } else st

def openSource (files : List (List InputEvent)) (st : InputMergeState) : InputMergeState :=
  { st with
    next := st.next + 1
    sources := st.sources ++ [st.next]
    need := st.next :: st.need
    src := setSource st.src st.next ⟨files[st.next]?.getD [], none, 0, 0⟩ }

def outerStep (conf : MergeConf) (files : List (List InputEvent)) (st : InputMergeState) :
    InputMergeState :=
  if st.next < files.length ∧ st.sources.length < conf.concurrentFiles then openSource files st
  else if st.next < files.length ∨ st.sources ≠ [] then { st with phase := .loop }
  else { st with phase := .ended }

/-- The loop goes on, or takes this source from the top of the queue. -/
inductive MergeAction
  | go
  | top (i : Nat)
deriving DecidableEq

def inputMergeStep (conf : MergeConf) (files : List (List InputEvent)) (st : InputMergeState) :
    MergeAction → Option InputMergeState
  | .go =>
    match st.phase with
    | .outer => some (outerStep conf files (resetErrors conf st))
    | .loop =>
      match st.need with
      | i :: need => some (fetchSource conf { st with need := need } i)
      | [] =>
        if st.queue ≠ [] then none
        else if st.next < files.length then some { st with phase := .aborted }
        else some { st with phase := .outer }
    | _ => none
  | .top i =>
    if st.phase = .loop ∧ st.need = [] ∧ i ∈ st.queue ∧
        ∀ j ∈ st.queue, compareEventsAfter conf (st.src i) (st.src j) = false then
      some (takeEvent conf { st with queue := st.queue.erase i } i)
    else none

def inputMergeInit : InputMergeState :=
  ⟨0, [], [], [], fun _ => ⟨[], none, 0, 0⟩, 0, none, [], .outer⟩

end Ucesb
