import Ucesb.Lanes
import Ucesb.Runs
import Ucesb.WrapRing

namespace Ucesb

inductive QueueFault
  /-- an `assert` of the queue fails -/
  | assertion
  /-- a slot is read that holds no item to be removed, or a field never written -/
  | readUnfilled
  /-- a slot is written while its item has not been removed -/
  | overwritten
  /-- `_next_next_item_queue` is still `-1` -/
  | noQueue
deriving DecidableEq

structure ThreadQueueItem (α : Type) where
  item : Option α
  nextItemQueue : Option Nat
deriving DecidableEq

/-- `filled` marks the slots of items that have been inserted and not removed. -/
structure ThreadQueue (τ : Type) where
  avail : UInt32
  done : UInt32
  items : Nat → τ
  filled : Nat → Bool

namespace ThreadQueue

variable {τ : Type} (n : UInt32) (q : ThreadQueue τ)

def new (t : τ) : ThreadQueue τ := ⟨0, 0, fun _ => t, fun _ => false⟩

def fill : UInt32 := wrapFill n q.avail q.done

def canInsert : Bool := q.fill n < n

def canRemove : Bool := 0 < q.fill n

def nextInsert : Except QueueFault Nat :=
  if q.canInsert n then .ok (wrapSlot n q.avail) else .error .assertion

def insert : Except QueueFault (ThreadQueue τ) :=
  if q.canInsert n then
    .ok { q with
      avail := q.avail + 1
      filled := Function.update q.filled (wrapSlot n q.avail) true }
  else .error .assertion

def nextRemove : Except QueueFault Nat :=
  if q.canRemove n then .ok (wrapSlot n q.done) else .error .assertion

def remove : Except QueueFault (ThreadQueue τ) :=
  if q.canRemove n then
    .ok { q with
      done := q.done + 1
      filled := Function.update q.filled (wrapSlot n q.done) false }
  else .error .assertion

def write (slot : Nat) (f : τ → τ) : Except QueueFault (ThreadQueue τ) :=
  if q.filled slot then .error .overwritten
  else .ok { q with items := Function.update q.items slot (f (q.items slot)) }

def read {β : Type} (slot : Nat) (f : τ → Option β) : Except QueueFault β :=
  if q.filled slot then
    match f (q.items slot) with
    | some x => .ok x
    | none => .error .readUnfilled
  else .error .readUnfilled

end ThreadQueue

structure MultiThreadQueue (α : Type) where
  nextItemQueue : Nat
  nextNextItemQueue : Option Nat
  queues : Nat → ThreadQueue (ThreadQueueItem α)

namespace MultiThreadQueue

variable {α : Type} (n : UInt32) (m : MultiThreadQueue α)

def init : MultiThreadQueue α := ⟨0, none, fun _ => .new ⟨none, none⟩⟩

def nextQueue : ThreadQueue (ThreadQueueItem α) := m.queues m.nextItemQueue

def setQueue (i : Nat) (q : ThreadQueue (ThreadQueueItem α)) : MultiThreadQueue α :=
  { m with queues := Function.update m.queues i q }

def followNext : Except QueueFault (MultiThreadQueue α) :=
  match m.nextNextItemQueue with
  | none => .error .noQueue
  | some next => .ok { m with nextItemQueue := next }

/-- `fan_out_thread_queue::next_insert`, with the slot it refers to -/
def fanOutNextInsert (next : Nat) : Except QueueFault (MultiThreadQueue α × Nat) := do
  let slot ← m.nextQueue.nextInsert n
  let q ← m.nextQueue.write slot fun t => { t with nextItemQueue := some next }
  return ({ m.setQueue m.nextItemQueue q with nextNextItemQueue := some next }, slot)

def fanOutInsert : Except QueueFault (MultiThreadQueue α) := do
  let q ← m.nextQueue.insert n
  (m.setQueue m.nextItemQueue q).followNext

/-- `fan_in_thread_queue::next_remove`, with the slot it refers to -/
def fanInNextRemove : Except QueueFault (MultiThreadQueue α × Nat) := do
  let slot ← m.nextQueue.nextRemove n
  let next ← m.nextQueue.read slot ThreadQueueItem.nextItemQueue
  return ({ m with nextNextItemQueue := some next }, slot)

def fanInRemove : Except QueueFault (MultiThreadQueue α) := do
  let q ← m.nextQueue.remove n
  (m.setQueue m.nextItemQueue q).followNext

end MultiThreadQueue

inductive EventReaderPhase (α : Type)
  /-- in `wait_for_unpack_queue_slot` -/
  | waiting
  | ready
  /-- `next_insert` has returned the slot -/
  | reserved (slot : Nat)
  /-- the item has been stored, `insert` follows -/
  | written (e : α)

inductive ProcessorPhase
  /-- in `wait_for_output_queue_slot` -/
  | waitingOut
  /-- in `wait_for_input_queue_item` -/
  | waitingIn
  | ready
  /-- `next_remove` has returned a slot and the next queue -/
  | received (recv next : Nat)
  /-- `next_insert` has returned a slot as well -/
  | reserved (recv send : Nat)
  /-- `send_item = recv_item` is done, `_unpack->remove()` follows -/
  | copied (send : Nat)
  | released (send : Nat)
  /-- the event has been processed, `_retire->insert()` follows -/
  | processed

inductive RetirePhase (α : Type)
  /-- at `_retire_queue.can_remove()` -/
  | waiting
  | ready
  /-- `next_remove` has returned the slot -/
  | reading (slot : Nat)
  /-- the event has been retired, `remove` follows -/
  | taken (e : α)

/-- One event processor with its two queues; `passed` counts the events it has passed on. -/
structure EventProcessor (α : Type) where
  unpack : ThreadQueue (ThreadQueueItem α)
  retire : ThreadQueue (ThreadQueueItem α)
  phase : ProcessorPhase
  passed : Nat

/-- The next access of `event_processor::worker`; `none` while it has to wait. -/
def EventProcessor.step {α : Type} (nOut nIn : UInt32) (process : α → α) (p : EventProcessor α) :
    Option (Except QueueFault (EventProcessor α)) :=
  match p.phase with
  | .waitingOut =>
    if p.retire.canInsert nIn then some (.ok { p with phase := .waitingIn }) else none
  | .waitingIn =>
    if p.unpack.canRemove nOut then some (.ok { p with phase := .ready }) else none
  | .ready => some do
    let recv ← p.unpack.nextRemove nOut
    let next ← p.unpack.read recv ThreadQueueItem.nextItemQueue
    return { p with phase := .received recv next }
  | .received recv next => some do
    let send ← p.retire.nextInsert nIn
    let retire ← p.retire.write send fun t => { t with nextItemQueue := some next }
    return { p with retire, phase := .reserved recv send }
  | .reserved recv send => some do
    let e ← p.unpack.read recv ThreadQueueItem.item
    let retire ← p.retire.write send fun t => { t with item := some e }
    return { p with retire, phase := .copied send }
  | .copied send => some do
    let unpack ← p.unpack.remove nOut
    return { p with unpack, phase := .released send }
  | .released send => some do
    let retire ← p.retire.write send fun t => { t with item := t.item.map process }
    return { p with retire, phase := .processed }
  | .processed => some do
    let retire ← p.retire.insert nIn
    return { p with retire, phase := .waitingOut, passed := p.passed + 1 }

/-- All threads and queues. `inserted` and `removed` record what the event reader has inserted,
with the next queue it chose, and what the retiring thread has removed. -/
structure FanState (α : Type) where
  unpackQueue : MultiThreadQueue α
  retireQueue : MultiThreadQueue α
  reader : EventReaderPhase α
  phase : Nat → ProcessorPhase
  retirer : RetirePhase α
  inserted : List (α × Nat)
  passed : Nat → Nat
  removed : List α

namespace FanState

variable {α : Type} (nOut nIn : UInt32) (process : α → α) (size : Nat) (s : FanState α)

def init : FanState α where
  unpackQueue := .init
  retireQueue := .init
  reader := .waiting
  phase := fun _ => .waitingOut
  retirer := .waiting
  inserted := []
  passed := fun _ => 0
  removed := []

def processor (w : Nat) : EventProcessor α :=
  ⟨s.unpackQueue.queues w, s.retireQueue.queues w, s.phase w, s.passed w⟩

def setProcessor (w : Nat) (p : EventProcessor α) : FanState α :=
  { s with
    unpackQueue := s.unpackQueue.setQueue w p.unpack
    retireQueue := s.retireQueue.setQueue w p.retire
    phase := Function.update s.phase w p.phase
    passed := Function.update s.passed w p.passed }

/-- The next access of the event reader, which wants to send `e` and have `next` follow. -/
def readerStep (e : α) (next : Nat) : Option (Except QueueFault (FanState α)) :=
  match s.reader with
  | .waiting =>
    if s.unpackQueue.nextQueue.canInsert nOut then some (.ok { s with reader := .ready })
    else none
  | .ready =>
    if next < size then some do
      let (unpackQueue, slot) ← s.unpackQueue.fanOutNextInsert nOut next
      return { s with unpackQueue, reader := .reserved slot }
    else none
  | .reserved slot => some do
    let q ← s.unpackQueue.nextQueue.write slot fun t => { t with item := some e }
    return { s with
      unpackQueue := s.unpackQueue.setQueue s.unpackQueue.nextItemQueue q
      reader := .written e }
  | .written e => some do
    let unpackQueue ← s.unpackQueue.fanOutInsert nOut
    return { s with
      unpackQueue
      reader := .waiting
      inserted := s.inserted ++ [(e, unpackQueue.nextItemQueue)] }

def processorStep (w : Nat) : Option (Except QueueFault (FanState α)) :=
  if w < size then
    ((s.processor w).step nOut nIn process).map fun r => r.map (s.setProcessor w)
  else none

def retireStep : Option (Except QueueFault (FanState α)) :=
  match s.retirer with
  | .waiting =>
    if s.retireQueue.nextQueue.canRemove nIn then some (.ok { s with retirer := .ready })
    else none
  | .ready => some do
    let (retireQueue, slot) ← s.retireQueue.fanInNextRemove nIn
    return { s with retireQueue, retirer := .reading slot }
  | .reading slot => some do
    let e ← s.retireQueue.nextQueue.read slot ThreadQueueItem.item
    return { s with retirer := .taken e }
  | .taken e => some do
    let retireQueue ← s.retireQueue.fanInRemove nIn
    return { s with retireQueue, retirer := .waiting, removed := s.removed ++ [e] }

end FanState

/-- The accesses that take events out of the queues again. -/
inductive DrainAction
  | processor (w : Nat)
  | retirer
deriving DecidableEq

inductive FanAction (α : Type)
  | reader (e : α) (next : Nat)
  | drain (a : DrainAction)

def drainStep {α : Type} (nOut nIn : UInt32) (process : α → α) (size : Nat) :
    Except QueueFault (FanState α) → DrainAction → Option (Except QueueFault (FanState α))
  | .error _, _ => none
  | .ok s, .processor w => s.processorStep nOut nIn process size w
  | .ok s, .retirer => s.retireStep nIn

def fanStep {α : Type} (nOut nIn : UInt32) (process : α → α) (size : Nat) :
    Except QueueFault (FanState α) → FanAction α → Option (Except QueueFault (FanState α))
  | .error _, .reader _ _ => none
  | .ok s, .reader e next => s.readerStep nOut size e next
  | r, .drain a => drainStep nOut nIn process size r a

end Ucesb
