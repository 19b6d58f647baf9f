import Ucesb.FanLane
import Mathlib.Algebra.BigOperators.Group.Finset.Basic
import Mathlib.Algebra.Order.BigOperators.Group.Finset

namespace Ucesb

section Fan

variable {α : Type} {kOut kIn size : Nat} {process : α → α} {s : FanState α}

namespace FanState

def sentTo (s : FanState α) (w : Nat) : List (α × Nat) := lane w 0 s.inserted

def collected (s : FanState α) (w : Nat) : Nat :=
  (lane w 0 (s.inserted.take s.removed.length)).length

def outLane (s : FanState α) : Nat := nextLane 0 s.inserted

def inLane (s : FanState α) : Nat := nextLane 0 (s.inserted.take s.removed.length)

def roomFor (kOut : Nat) (s : FanState α) : Prop :=
  (s.sentTo s.outLane).length - (s.processor s.outLane).consumed < 2 ^ kOut

def ReaderInv (kOut size : Nat) (s : FanState α) : Prop :=
  match s.reader with
  | .waiting => True
  | .ready => s.roomFor kOut
  | .reserved slot => s.roomFor kOut ∧ slot = (s.sentTo s.outLane).length % 2 ^ kOut ∧
    ∃ next, next < size ∧ s.unpackQueue.nextNextItemQueue = some next ∧
      ((s.unpackQueue.queues s.outLane).items slot).nextItemQueue = some next
  | .written e => s.roomFor kOut ∧
    ∃ next, next < size ∧ s.unpackQueue.nextNextItemQueue = some next ∧
      (s.unpackQueue.queues s.outLane).items ((s.sentTo s.outLane).length % 2 ^ kOut) =
        sentItem (e, next)

def RetirerInv (kIn : Nat) (process : α → α) (s : FanState α) : Prop :=
  match s.retirer with
  | .waiting => True
  | .ready => s.collected s.inLane < s.passed s.inLane
  | .reading slot => s.collected s.inLane < s.passed s.inLane ∧
    slot = s.collected s.inLane % 2 ^ kIn ∧
    ∃ x, s.inserted[s.removed.length]? = some x ∧ s.retireQueue.nextNextItemQueue = some x.2
  | .taken e => s.collected s.inLane < s.passed s.inLane ∧
    ∃ x, s.inserted[s.removed.length]? = some x ∧ s.retireQueue.nextNextItemQueue = some x.2 ∧
      e = process x.1

end FanState

structure FanInv (kOut kIn size : Nat) (process : α → α) (s : FanState α) : Prop where
  lanes : ∀ w, LaneInv kOut kIn process (s.processor w) (s.sentTo w) (s.collected w)
  outNext : s.unpackQueue.nextItemQueue = s.outLane
  inNext : s.retireQueue.nextItemQueue = s.inLane
  removed_eq : s.removed = (s.inserted.take s.removed.length).map fun x => process x.1
  next_lt : ∀ x ∈ s.inserted, x.2 < size
  reader : s.ReaderInv kOut size
  retirer : s.RetirerInv kIn process

theorem fanInv_init : FanInv kOut kIn size process FanState.init where
  lanes := by
    intro w
    exact ⟨ThreadQueue.holds_new _, Nat.le_refl _, ThreadQueue.holds_new _, Nat.le_refl _, trivial⟩
  outNext := rfl
  inNext := rfl
  removed_eq := rfl
  next_lt := by simp [FanState.init]
  reader := trivial
  retirer := trivial

theorem FanInv.removed_le (h : FanInv kOut kIn size process s) :
    s.removed.length ≤ s.inserted.length := by
  have hlen := congrArg List.length h.removed_eq
  rw [List.length_map, List.length_take] at hlen
  omega

theorem FanInv.canInsert_iff (h : FanInv kOut kIn size process s) (hOut : kOut < 31) :
    s.unpackQueue.nextQueue.canInsert (ringLen kOut) = true ↔ s.roomFor kOut := by
  have hlane := h.lanes s.outLane
  rw [MultiThreadQueue.nextQueue, h.outNext, FanState.roomFor, ← hlane.unpack_length]
  exact hlane.unpack.canInsert_iff hOut

theorem FanInv.nextInsert_eq (h : FanInv kOut kIn size process s) (hOut : kOut < 31)
    (hroom : s.roomFor kOut) :
    s.unpackQueue.nextQueue.nextInsert (ringLen kOut) =
      .ok ((s.sentTo s.outLane).length % 2 ^ kOut) := by
  have hlane := h.lanes s.outLane
  have hle := hlane.consumed_le
  have hslot := hlane.unpack.nextInsert_eq hOut (by rw [hlane.unpack_length]; exact hroom)
  rw [hlane.unpack_length, Nat.add_sub_cancel' hle] at hslot
  rw [MultiThreadQueue.nextQueue, h.outNext]
  exact hslot

/-- The event reader puts another queue in the place of the one it is at. -/
def FanState.setUnpack (s : FanState α) (q : ThreadQueue (ThreadQueueItem α)) : FanState α :=
  { s with unpackQueue := s.unpackQueue.setQueue s.outLane q }

theorem FanState.setUnpack_processor (q : ThreadQueue (ThreadQueueItem α)) (w : Nat) :
    (s.setUnpack q).processor w =
      if w = s.outLane then { s.processor w with unpack := q } else s.processor w := by
  by_cases hw : w = s.outLane
  · subst hw
    simp [setUnpack, processor, MultiThreadQueue.setQueue]
  · simp [setUnpack, processor, MultiThreadQueue.setQueue, hw]

theorem FanInv.write_unpack (h : FanInv kOut kIn size process s) (hroom : s.roomFor kOut)
    (f : ThreadQueueItem α → ThreadQueueItem α) :
    ∃ q', s.unpackQueue.nextQueue.write ((s.sentTo s.outLane).length % 2 ^ kOut) f = .ok q' ∧
      (∀ w, LaneInv kOut kIn process ((s.setUnpack q').processor w) (s.sentTo w)
        (s.collected w)) ∧
      q'.items ((s.sentTo s.outLane).length % 2 ^ kOut) =
        f ((s.unpackQueue.queues s.outLane).items ((s.sentTo s.outLane).length % 2 ^ kOut)) := by
  obtain ⟨q', hq, hlane, hitem⟩ := (h.lanes s.outLane).write_unpack hroom f
  refine ⟨q', ?_, ?_, hitem⟩
  · rw [MultiThreadQueue.nextQueue, h.outNext]
    exact hq
  · intro w
    rw [FanState.setUnpack_processor]
    split
    next hw =>
      subst hw
      exact hlane
    next => exact h.lanes w

/-- The state once the event reader has inserted the event it has stored. -/
def FanState.afterInsert (s : FanState α) (q : ThreadQueue (ThreadQueueItem α)) (x : α × Nat) :
    FanState α :=
  { s.setUnpack q with
    unpackQueue := { s.unpackQueue.setQueue s.outLane q with nextItemQueue := x.2 }
    reader := .waiting
    inserted := s.inserted ++ [x] }

theorem FanInv.take_inserted (h : FanInv kOut kIn size process s) (x : α × Nat) :
    (s.inserted ++ [x]).take s.removed.length = s.inserted.take s.removed.length :=
  List.take_append_of_le_length h.removed_le

theorem FanInv.collected_afterInsert (h : FanInv kOut kIn size process s)
    (q : ThreadQueue (ThreadQueueItem α)) (x : α × Nat) (w : Nat) :
    (s.afterInsert q x).collected w = s.collected w := by
  simp only [FanState.collected, FanState.afterInsert, FanState.setUnpack, h.take_inserted]

theorem FanInv.inLane_afterInsert (h : FanInv kOut kIn size process s)
    (q : ThreadQueue (ThreadQueueItem α)) (x : α × Nat) :
    (s.afterInsert q x).inLane = s.inLane := by
  simp only [FanState.inLane, FanState.afterInsert, FanState.setUnpack, h.take_inserted]

/-- The retirer keeps what it knows when only more is inserted and passed. -/
theorem FanInv.retirer_of_more (h : FanInv kOut kIn size process s) {s' : FanState α}
    (hretirer : s'.retirer = s.retirer)
    (hnext : s'.retireQueue.nextNextItemQueue = s.retireQueue.nextNextItemQueue)
    (hcollected : s'.collected s'.inLane = s.collected s.inLane)
    (hpassed : s.collected s.inLane < s.passed s.inLane →
      s.collected s.inLane < s'.passed s'.inLane)
    (hget : ∀ y, s.inserted[s.removed.length]? = some y →
      s'.inserted[s'.removed.length]? = some y) : s'.RetirerInv kIn process := by
  have hret := h.retirer
  unfold FanState.RetirerInv at hret ⊢
  rw [hretirer, hnext, hcollected]
  split
  case h_1 => trivial
  case h_2 heq =>
    rw [heq] at hret
    exact hpassed hret
  case h_3 heq =>
    rw [heq] at hret
    obtain ⟨hlt, hslot, y, hy, hnn⟩ := hret
    exact ⟨hpassed hlt, hslot, y, hget y hy, hnn⟩
  case h_4 heq =>
    rw [heq] at hret
    obtain ⟨hlt, y, hy, hnn, he⟩ := hret
    exact ⟨hpassed hlt, y, hget y hy, hnn, he⟩

theorem FanInv.retirer_afterInsert (h : FanInv kOut kIn size process s)
    (q : ThreadQueue (ThreadQueueItem α)) (x : α × Nat) :
    (s.afterInsert q x).RetirerInv kIn process := by
  refine h.retirer_of_more rfl rfl ?_ ?_ ?_
  · rw [h.inLane_afterInsert, h.collected_afterInsert]
  · rw [h.inLane_afterInsert]
    exact id
  · intro y hy
    change (s.inserted ++ [x])[s.removed.length]? = some y
    rw [List.getElem?_append_left (List.getElem?_eq_some_iff.mp hy).1]
    exact hy

theorem FanInv.insert (h : FanInv kOut kIn size process s) (hOut : kOut < 31)
    (hroom : s.roomFor kOut) {x : α × Nat} (hnext : x.2 < size)
    (hx : (s.unpackQueue.queues s.outLane).items ((s.sentTo s.outLane).length % 2 ^ kOut) =
      sentItem x) :
    ∃ q', s.unpackQueue.nextQueue.insert (ringLen kOut) = .ok q' ∧
      FanInv kOut kIn size process (s.afterInsert q' x) := by
  obtain ⟨q', hq, hlane⟩ := (h.lanes s.outLane).insert hOut hroom hx
  refine ⟨q', ?_, ?_, ?_, ?_, ?_, ?_, trivial, h.retirer_afterInsert q' x⟩
  · rw [MultiThreadQueue.nextQueue, h.outNext]
    exact hq
  · intro w
    have hproc : (s.afterInsert q' x).processor w = (s.setUnpack q').processor w := rfl
    have hsent : (s.afterInsert q' x).sentTo w = lane w 0 (s.inserted ++ [x]) := rfl
    rw [h.collected_afterInsert, hproc, hsent, FanState.setUnpack_processor]
    split
    next hw =>
      subst hw
      rw [FanState.outLane, lane_concat_self]
      exact hlane
    next hw =>
      rw [lane_concat_other hw]
      exact h.lanes w
  · exact nextLane_concat.symm
  · rw [h.inLane_afterInsert]
    exact h.inNext
  · change s.removed = ((s.inserted ++ [x]).take s.removed.length).map _
    rw [h.take_inserted]
    exact h.removed_eq
  · intro y hy
    rcases List.mem_append.mp hy with hy | hy
    · exact h.next_lt y hy
    · rw [List.mem_singleton.mp hy]
      exact hnext

theorem FanInv.readerStep (h : FanInv kOut kIn size process s) (hOut : kOut < 31) {e : α}
    {next : Nat} {r : Except QueueFault (FanState α)}
    (hs : s.readerStep (ringLen kOut) size e next = some r) :
    ∃ s', r = .ok s' ∧ FanInv kOut kIn size process s' := by
  have hreader := h.reader
  unfold FanState.readerStep at hs
  unfold FanState.ReaderInv at hreader
  split at hs
  case h_1 heq =>
    obtain ⟨hcan, hr⟩ := Option.ite_none_right_eq_some.mp hs
    cases hr
    exact ⟨_, rfl, h.lanes, h.outNext, h.inNext, h.removed_eq, h.next_lt,
      (h.canInsert_iff hOut).mp hcan, h.retirer⟩
  case h_2 heq =>
    obtain ⟨hnext, hr⟩ := Option.ite_none_right_eq_some.mp hs
    rw [heq] at hreader
    obtain ⟨q', hq, hlanes, hitem⟩ := h.write_unpack hreader fun t =>
      { t with nextItemQueue := some next }
    simp only [MultiThreadQueue.fanOutNextInsert, h.nextInsert_eq hOut hreader, hq, bind,
      Except.bind, pure, Except.pure, Option.some.injEq] at hr
    subst hr
    refine ⟨_, rfl, ?_, h.outNext, h.inNext, h.removed_eq, h.next_lt, ?_, h.retirer⟩
    · rw [h.outNext]
      exact hlanes
    · refine ⟨hreader, rfl, next, hnext, rfl, ?_⟩
      change ((Function.update s.unpackQueue.queues s.unpackQueue.nextItemQueue q'
        s.outLane).items ((s.sentTo s.outLane).length % 2 ^ kOut)).nextItemQueue = some next
      rw [h.outNext, Function.update_self, hitem]
  case h_3 slot heq =>
    rw [heq] at hreader
    obtain ⟨hroom, rfl, next, hnext, hnn, hset⟩ := hreader
    obtain ⟨q', hq, hlanes, hitem⟩ := h.write_unpack hroom fun t => { t with item := some e }
    simp only [hq, bind, Except.bind, pure, Except.pure, Option.some.injEq] at hs
    subst hs
    refine ⟨_, rfl, ?_, h.outNext, h.inNext, h.removed_eq, h.next_lt, ?_, h.retirer⟩
    · rw [h.outNext]
      exact hlanes
    · refine ⟨hroom, next, hnext, hnn, ?_⟩
      change (Function.update s.unpackQueue.queues s.unpackQueue.nextItemQueue q'
        s.outLane).items ((s.sentTo s.outLane).length % 2 ^ kOut) = sentItem (e, next)
      rw [h.outNext, Function.update_self, hitem, hset]
      rfl
  case h_4 e heq =>
    rw [heq] at hreader
    obtain ⟨hroom, next, hnext, hnn, hitem⟩ := hreader
    obtain ⟨q', hq, hinv⟩ := h.insert hOut hroom hnext hitem
    have hfan : s.unpackQueue.fanOutInsert (ringLen kOut) =
        .ok { s.unpackQueue.setQueue s.outLane q' with nextItemQueue := next } := by
      simp only [MultiThreadQueue.fanOutInsert, hq, bind, Except.bind,
        MultiThreadQueue.followNext, MultiThreadQueue.setQueue, hnn, h.outNext]
    simp only [hfan, bind, Except.bind, pure, Except.pure, Option.some.injEq] at hs
    subst hs
    exact ⟨_, rfl, hinv⟩

theorem FanState.setProcessor_processor (p : EventProcessor α) (v w : Nat) :
    (s.setProcessor w p).processor v = if v = w then p else s.processor v := by
  by_cases hv : v = w
  · subst hv
    simp [setProcessor, processor, MultiThreadQueue.setQueue]
  · simp [setProcessor, processor, MultiThreadQueue.setQueue, hv]

theorem FanInv.reader_setProcessor (h : FanInv kOut kIn size process s) {w : Nat}
    {p : EventProcessor α} {sent : Nat} (hadv : (s.processor w).Advances p sent) :
    (s.setProcessor w p).ReaderInv kOut size := by
  have hreader := h.reader
  have hproc := FanState.setProcessor_processor (s := s) p s.outLane w
  have hroom : s.roomFor kOut → (s.setProcessor w p).roomFor kOut := by
    intro hroom
    change (s.sentTo s.outLane).length - ((s.setProcessor w p).processor s.outLane).consumed < _
    rw [hproc]
    unfold FanState.roomFor at hroom
    split
    next hw =>
      rw [hw] at hroom ⊢
      have hle := hadv.consumed_le
      omega
    next => exact hroom
  have hitems : ((s.setProcessor w p).unpackQueue.queues s.outLane).items =
      (s.unpackQueue.queues s.outLane).items := by
    have hunpack := congrArg (fun r => r.unpack.items) hproc
    refine hunpack.trans ?_
    split
    next hw =>
      rw [hw]
      exact hadv.items_eq
    next => rfl
  unfold FanState.ReaderInv at hreader ⊢
  change match s.reader with
    | .waiting => True
    | .ready => (s.setProcessor w p).roomFor kOut
    | .reserved slot => (s.setProcessor w p).roomFor kOut ∧
      slot = (s.sentTo s.outLane).length % 2 ^ kOut ∧
      ∃ next, next < size ∧ s.unpackQueue.nextNextItemQueue = some next ∧
        (((s.setProcessor w p).unpackQueue.queues s.outLane).items slot).nextItemQueue = some next
    | .written e => (s.setProcessor w p).roomFor kOut ∧
      ∃ next, next < size ∧ s.unpackQueue.nextNextItemQueue = some next ∧
        ((s.setProcessor w p).unpackQueue.queues s.outLane).items
          ((s.sentTo s.outLane).length % 2 ^ kOut) = sentItem (e, next)
  rw [hitems]
  split
  case h_1 => trivial
  case h_2 heq =>
    simp only [heq] at hreader
    exact hroom hreader
  case h_3 heq =>
    simp only [heq] at hreader
    exact ⟨hroom hreader.1, hreader.2⟩
  case h_4 heq =>
    simp only [heq] at hreader
    exact ⟨hroom hreader.1, hreader.2⟩

theorem FanInv.retirer_setProcessor (h : FanInv kOut kIn size process s) {w : Nat}
    {p : EventProcessor α} {sent : Nat} (hadv : (s.processor w).Advances p sent) :
    (s.setProcessor w p).RetirerInv kIn process := by
  refine h.retirer_of_more rfl rfl rfl (fun hlt => ?_) fun _ hy => hy
  have hpassed := congrArg EventProcessor.passed
    (FanState.setProcessor_processor (s := s) p s.inLane w)
  change (s.setProcessor w p).passed s.inLane = _ at hpassed
  refine Nat.lt_of_lt_of_eq ?_ hpassed.symm
  split
  next hw =>
    have hle := hadv.passed_le
    rw [← hw] at hle
    exact Nat.lt_of_lt_of_le hlt hle
  next => exact hlt

def FanState.workLeft (size : Nat) (s : FanState α) : Nat :=
  (∑ w ∈ Finset.range size, (s.processor w).workLeft (s.sentTo w).length) +
    (4 * (s.inserted.length - s.removed.length) -
      match s.retirer with
      | .waiting => 0
      | .ready => 1
      | .reading _ => 2
      | .taken _ => 3)

theorem FanInv.processorStep (h : FanInv kOut kIn size process s) (hOut : kOut < 31)
    (hIn : kIn < 31) {w : Nat} {r : Except QueueFault (FanState α)}
    (hs : s.processorStep (ringLen kOut) (ringLen kIn) process size w = some r) :
    ∃ s', r = .ok s' ∧ FanInv kOut kIn size process s' ∧ s'.inserted = s.inserted ∧
      s'.workLeft size < s.workLeft size := by
  obtain ⟨hw, hs⟩ := Option.ite_none_right_eq_some.mp hs
  obtain ⟨r', hstep, hr⟩ := Option.map_eq_some_iff.mp hs
  obtain ⟨p', rfl, hlane, hadv⟩ := (h.lanes w).step hOut hIn hstep
  subst hr
  refine ⟨s.setProcessor w p', rfl, ⟨?_, h.outNext, h.inNext, h.removed_eq, h.next_lt,
    h.reader_setProcessor hadv, h.retirer_setProcessor hadv⟩, rfl, ?_⟩
  · intro v
    change LaneInv kOut kIn process _ (s.sentTo v) (s.collected v)
    rw [FanState.setProcessor_processor]
    split
    next hv =>
      rw [hv]
      exact hlane
    next => exact h.lanes v
  · refine Nat.add_lt_add_right ?_ _
    refine Finset.sum_lt_sum ?_ ⟨w, Finset.mem_range.mpr hw, ?_⟩
    · intro v _
      change EventProcessor.workLeft _ (s.sentTo v).length ≤ _
      rw [FanState.setProcessor_processor]
      split
      next hv =>
        rw [hv]
        exact Nat.le_of_lt hadv.workLeft_lt
      next => exact Nat.le_refl _
    · change EventProcessor.workLeft _ (s.sentTo w).length < _
      rw [FanState.setProcessor_processor, if_pos rfl]
      exact hadv.workLeft_lt

theorem FanInv.canRetire_iff (h : FanInv kOut kIn size process s) (hIn : kIn < 31) :
    s.retireQueue.nextQueue.canRemove (ringLen kIn) = true ↔
      s.collected s.inLane < s.passed s.inLane := by
  rw [MultiThreadQueue.nextQueue, h.inNext]
  exact (h.lanes s.inLane).canRetire_iff hIn

theorem FanInv.next_retired (h : FanInv kOut kIn size process s)
    (hlt : s.collected s.inLane < s.passed s.inLane) :
    ∃ x, s.inserted[s.removed.length]? = some x ∧
      (s.sentTo s.inLane)[s.collected s.inLane]? = some x := by
  have hle := (h.lanes s.inLane).passed_le
  exact lane_next (Nat.lt_of_lt_of_le hlt hle)

def FanState.afterRemove (s : FanState α) (q : ThreadQueue (ThreadQueueItem α)) (next : Nat)
    (e : α) : FanState α :=
  { s with
    retireQueue := { s.retireQueue.setQueue s.inLane q with nextItemQueue := next }
    retirer := .waiting
    removed := s.removed ++ [e] }

theorem FanState.afterRemove_processor (q : ThreadQueue (ThreadQueueItem α)) (next : Nat) (e : α)
    (w : Nat) : (s.afterRemove q next e).processor w =
      if w = s.inLane then { s.processor w with retire := q } else s.processor w := by
  by_cases hw : w = s.inLane
  · subst hw
    simp [afterRemove, processor, MultiThreadQueue.setQueue]
  · simp [afterRemove, processor, MultiThreadQueue.setQueue, hw]

theorem FanInv.remove (h : FanInv kOut kIn size process s) (hIn : kIn < 31)
    (hlt : s.collected s.inLane < s.passed s.inLane) {x : α × Nat}
    (hx : s.inserted[s.removed.length]? = some x) :
    ∃ q', s.retireQueue.nextQueue.remove (ringLen kIn) = .ok q' ∧
      FanInv kOut kIn size process (s.afterRemove q' x.2 (process x.1)) := by
  obtain ⟨q', hq, hlane⟩ := (h.lanes s.inLane).collect hIn hlt
  have hlen : (s.removed ++ [process x.1]).length = s.removed.length + 1 := by simp
  have htake : s.inserted.take (s.removed.length + 1) =
      s.inserted.take s.removed.length ++ [x] := by
    rw [List.take_add_one, hx]
    rfl
  refine ⟨q', ?_, ?_, h.outNext, ?_, ?_, h.next_lt, ?_, trivial⟩
  · rw [MultiThreadQueue.nextQueue, h.inNext]
    exact hq
  · intro w
    have hcol : (s.afterRemove q' x.2 (process x.1)).collected w =
        (lane w 0 (s.inserted.take (s.removed.length + 1))).length := by
      rw [← hlen]
      rfl
    rw [hcol, FanState.afterRemove_processor]
    split
    next hw =>
      rw [hw, FanState.inLane, lane_take_succ_self hx, List.length_append]
      exact hlane
    next hw =>
      rw [lane_take_succ_other hx hw]
      exact h.lanes w
  · change x.2 = nextLane 0 (s.inserted.take (s.removed ++ [process x.1]).length)
    rw [hlen, htake, nextLane_concat]
  · change s.removed ++ [process x.1] =
      (s.inserted.take (s.removed ++ [process x.1]).length).map fun x => process x.1
    rw [hlen, htake, List.map_append, ← h.removed_eq]
    rfl
  · have hreader := h.reader
    unfold FanState.ReaderInv FanState.roomFor at hreader ⊢
    exact hreader

theorem FanInv.retireStep (h : FanInv kOut kIn size process s) (hIn : kIn < 31)
    {r : Except QueueFault (FanState α)} (hs : s.retireStep (ringLen kIn) = some r) :
    ∃ s', r = .ok s' ∧ FanInv kOut kIn size process s' ∧ s'.inserted = s.inserted ∧
      s'.workLeft size < s.workLeft size := by
  have hret := h.retirer
  unfold FanState.retireStep at hs
  unfold FanState.RetirerInv at hret
  split at hs
  case h_1 heq =>
    obtain ⟨hcan, hr⟩ := Option.ite_none_right_eq_some.mp hs
    cases hr
    have hlt := (h.canRetire_iff hIn).mp hcan
    obtain ⟨x, hx, -⟩ := h.next_retired hlt
    have hm := (List.getElem?_eq_some_iff.mp hx).1
    refine ⟨_, rfl, ⟨h.lanes, h.outNext, h.inNext, h.removed_eq, h.next_lt, h.reader, hlt⟩, rfl, ?_⟩
    refine Nat.add_lt_add_left ?_ _
    simp only [heq]
    omega
  case h_2 heq =>
    rw [heq] at hret
    obtain ⟨x, hx, hfront⟩ := h.next_retired hret
    have hm := (List.getElem?_eq_some_iff.mp hx).1
    have hlane := h.lanes s.inLane
    have hslot := hlane.retire.nextRemove_eq hIn (by
      rw [hlane.retire_length]
      exact Nat.sub_pos_of_lt hret)
    have hread := hlane.read_retire hret hfront (f := ThreadQueueItem.nextItemQueue) rfl
    have hfan : s.retireQueue.fanInNextRemove (ringLen kIn) =
        .ok ({ s.retireQueue with nextNextItemQueue := some x.2 },
          s.collected s.inLane % 2 ^ kIn) := by
      simp only [FanState.processor] at hslot hread
      simp only [MultiThreadQueue.fanInNextRemove, MultiThreadQueue.nextQueue, h.inNext, hslot,
        hread, bind, Except.bind, pure, Except.pure]
    simp only [hfan, bind, Except.bind, pure, Except.pure, Option.some.injEq] at hs
    subst hs
    refine ⟨_, rfl, ⟨h.lanes, h.outNext, h.inNext, h.removed_eq, h.next_lt, h.reader, hret, rfl,
      x, hx, rfl⟩, rfl, ?_⟩
    refine Nat.add_lt_add_left ?_ _
    simp only [heq]
    omega
  case h_3 slot heq =>
    rw [heq] at hret
    obtain ⟨hlt, rfl, x, hx, hnn⟩ := hret
    obtain ⟨y, hy, hfront⟩ := h.next_retired hlt
    cases hx.symm.trans hy
    have hm := (List.getElem?_eq_some_iff.mp hx).1
    have hread := (h.lanes s.inLane).read_retire hlt hfront (f := ThreadQueueItem.item) rfl
    simp only [FanState.processor] at hread
    simp only [MultiThreadQueue.nextQueue, h.inNext, hread, bind, Except.bind, pure, Except.pure,
      Option.some.injEq] at hs
    subst hs
    refine ⟨_, rfl, ⟨h.lanes, h.outNext, h.inNext, h.removed_eq, h.next_lt, h.reader, hlt, x, hx,
      hnn, rfl⟩, rfl, ?_⟩
    refine Nat.add_lt_add_left ?_ _
    simp only [heq]
    omega
  case h_4 e heq =>
    rw [heq] at hret
    obtain ⟨hlt, x, hx, hnn, rfl⟩ := hret
    have hm := (List.getElem?_eq_some_iff.mp hx).1
    obtain ⟨q', hq, hinv⟩ := h.remove hIn hlt hx
    have hfan : s.retireQueue.fanInRemove (ringLen kIn) =
        .ok { s.retireQueue.setQueue s.inLane q' with nextItemQueue := x.2 } := by
      simp only [MultiThreadQueue.fanInRemove, hq, bind, Except.bind,
        MultiThreadQueue.followNext, MultiThreadQueue.setQueue, hnn, h.inNext]
    simp only [hfan, bind, Except.bind, pure, Except.pure, Option.some.injEq] at hs
    subst hs
    refine ⟨_, rfl, hinv, rfl, ?_⟩
    have hlen : (s.removed ++ [process x.1]).length = s.removed.length + 1 := by simp
    refine Nat.add_lt_add_left ?_ (∑ w ∈ Finset.range size, (s.processor w).workLeft _)
    simp only [heq, hlen]
    omega

theorem FanInv.all_removed (h : FanInv kOut kIn size process s) (hOut : kOut < 31)
    (hIn : kIn < 31)
    (hw : ∀ w, s.processorStep (ringLen kOut) (ringLen kIn) process size w = none)
    (hr : s.retireStep (ringLen kIn) = none) :
    s.removed = s.inserted.map fun x => process x.1 := by
  have hle := h.removed_le
  by_contra hne
  have hm : s.removed.length < s.inserted.length := by
    by_contra hge
    apply hne
    have heq := h.removed_eq
    rw [List.take_of_length_le (by omega)] at heq
    exact heq
  have hempty : ¬ s.collected s.inLane < s.passed s.inLane := by
    intro hlt
    unfold FanState.retireStep at hr
    split at hr
    case h_1 =>
      rw [if_pos ((h.canRetire_iff hIn).mpr hlt)] at hr
      cases hr
    all_goals cases hr
  have hsent : s.collected s.inLane < (s.sentTo s.inLane).length := lane_take_lt hm
  have hsize : s.inLane < size := by
    have hpos : 0 < s.inserted.length := by omega
    have hfirst := h.next_lt _ (List.getElem_mem hpos)
    exact nextLane_lt (by omega) fun x hx => h.next_lt x (List.mem_of_mem_take hx)
  have hstop := hw s.inLane
  rw [FanState.processorStep, if_pos hsize, Option.map_eq_none_iff] at hstop
  rcases (h.lanes s.inLane).step_none hOut hIn hstop with hlt | hall
  · exact hempty hlt
  · change s.passed s.inLane = _ at hall
    omega

def FanRunInv (kOut kIn size : Nat) (process : α → α) :
    Except QueueFault (FanState α) → Prop
  | .ok s => FanInv kOut kIn size process s
  | .error _ => False

theorem FanRunInv.drainStep (hOut : kOut < 31) (hIn : kIn < 31)
    {r r' : Except QueueFault (FanState α)} {a : DrainAction}
    (h : FanRunInv kOut kIn size process r)
    (hs : drainStep (ringLen kOut) (ringLen kIn) process size r a = some r') :
    ∃ s s', r = .ok s ∧ r' = .ok s' ∧ FanInv kOut kIn size process s' ∧
      s'.inserted = s.inserted ∧ s'.workLeft size < s.workLeft size := by
  cases r with
  | error f => exact h.elim
  | ok s =>
    cases a with
    | processor w =>
      obtain ⟨s', hr, hinv, hsame, hless⟩ := FanInv.processorStep h hOut hIn hs
      exact ⟨s, s', rfl, hr, hinv, hsame, hless⟩
    | retirer =>
      obtain ⟨s', hr, hinv, hsame, hless⟩ := FanInv.retireStep h hIn hs
      exact ⟨s, s', rfl, hr, hinv, hsame, hless⟩

theorem FanRunInv.step (hOut : kOut < 31) (hIn : kIn < 31)
    {r r' : Except QueueFault (FanState α)} {a : FanAction α}
    (h : FanRunInv kOut kIn size process r)
    (hs : fanStep (ringLen kOut) (ringLen kIn) process size r a = some r') :
    FanRunInv kOut kIn size process r' := by
  cases a with
  | reader e next =>
    cases r with
    | error f => exact h.elim
    | ok s =>
      obtain ⟨s', rfl, hinv⟩ := FanInv.readerStep h hOut hs
      exact hinv
  | drain a =>
    have hd : Ucesb.drainStep (ringLen kOut) (ringLen kIn) process size r a = some r' := by
      cases r <;> exact hs
    obtain ⟨s, s', -, rfl, hinv, -, -⟩ := FanRunInv.drainStep hOut hIn h hd
    exact hinv

theorem FanInv.drain_ends (h : FanInv kOut kIn size process s) (hOut : kOut < 31)
    (hIn : kIn < 31) {as : List DrainAction} {r : Except QueueFault (FanState α)}
    (hrun : runSteps (drainStep (ringLen kOut) (ringLen kIn) process size) (.ok s) as = some r) :
    as.length ≤ s.workLeft size := by
  let m : Except QueueFault (FanState α) → Nat
    | .ok s => s.workLeft size
    | .error _ => 0
  have hstep : ∀ r a r', FanRunInv kOut kIn size process r →
      Ucesb.drainStep (ringLen kOut) (ringLen kIn) process size r a = some r' →
      FanRunInv kOut kIn size process r' ∧ m r' < m r := by
    intro r a r' hinv hs
    obtain ⟨s, s', rfl, rfl, hinv', -, hless⟩ := FanRunInv.drainStep hOut hIn hinv hs
    exact ⟨hinv', hless⟩
  exact Nat.le_of_add_right_le (runSteps_measure hstep (s := .ok s) h hrun)

theorem FanInv.drain (h : FanInv kOut kIn size process s) (hOut : kOut < 31) (hIn : kIn < 31)
    {as : List DrainAction} {r : Except QueueFault (FanState α)}
    (hrun : runSteps (drainStep (ringLen kOut) (ringLen kIn) process size) (.ok s) as = some r) :
    ∃ s', r = .ok s' ∧ FanInv kOut kIn size process s' ∧ s'.inserted = s.inserted := by
  let kept (r : Except QueueFault (FanState α)) : Prop :=
    ∃ s', r = .ok s' ∧ FanInv kOut kIn size process s' ∧ s'.inserted = s.inserted
  have hstep : ∀ r a r', kept r →
      Ucesb.drainStep (ringLen kOut) (ringLen kIn) process size r a = some r' → kept r' := by
    rintro _ a r' ⟨t, rfl, hit, hsame⟩ hs
    obtain ⟨t', s', ht, rfl, hinv', hsame', -⟩ :=
      FanRunInv.drainStep (r := .ok t) hOut hIn hit hs
    cases ht
    exact ⟨s', rfl, hinv', hsame'.trans hsame⟩
  exact runSteps_inv hstep ⟨s, rfl, h, rfl⟩ hrun

/-- In every run no access faults, and what has been removed is what has been inserted first, in
that order. -/
theorem fan_keeps_order (hOut : kOut < 31) (hIn : kIn < 31) (process : α → α)
    {as : List (FanAction α)} {r : Except QueueFault (FanState α)}
    (hrun : runSteps (fanStep (ringLen kOut) (ringLen kIn) process size) (.ok FanState.init) as =
      some r) :
    ∃ s, r = .ok s ∧
      s.removed <+: (s.inserted.map fun x => process x.1) ∧
      ∀ bs r', runSteps (drainStep (ringLen kOut) (ringLen kIn) process size) (.ok s) bs =
        some r' → bs.length ≤ s.workLeft size ∧
        ∃ s', r' = .ok s' ∧ s'.inserted = s.inserted ∧
          ((∀ a, drainStep (ringLen kOut) (ringLen kIn) process size r' a = none) →
            s'.removed = s.inserted.map fun x => process x.1) := by
  have hinv : FanRunInv kOut kIn size process r :=
    runSteps_inv (fun _ _ _ hi hs => FanRunInv.step hOut hIn hi hs)
      (s := .ok FanState.init) fanInv_init hrun
  cases r with
  | error f => exact hinv.elim
  | ok s =>
    have hs : FanInv kOut kIn size process s := hinv
    refine ⟨s, rfl, ?_, ?_⟩
    · rw [hs.removed_eq]
      exact (List.take_prefix _ _).map _
    · intro bs r' hdrain
      refine ⟨hs.drain_ends hOut hIn hdrain, ?_⟩
      obtain ⟨s', rfl, hs', hsame⟩ := hs.drain hOut hIn hdrain
      refine ⟨s', rfl, hsame, ?_⟩
      intro hrest
      rw [← hsame]
      exact hs'.all_removed hOut hIn (fun w => hrest (.processor w)) (hrest .retirer)

def fanDemo : List (FanAction Nat) :=
  List.replicate 4 (.reader 10 1) ++ List.replicate 4 (.reader 20 0) ++
    List.replicate 8 (.drain (.processor 1)) ++ List.replicate 8 (.drain (.processor 0)) ++
    List.replicate 8 (.drain .retirer)

theorem fan_keeps_order_demo :
    ∃ s, runSteps (fanStep (ringLen 1) (ringLen 1) (· + 1) 2) (.ok FanState.init) fanDemo =
      some (.ok s) ∧ s.removed <+: s.inserted.map fun x => x.1 + 1 := by
  have hsome : (runSteps (fanStep (ringLen 1) (ringLen 1) (· + 1) 2) (.ok FanState.init)
      fanDemo).isSome = true := by
    decide +kernel
  obtain ⟨r, hr⟩ := Option.isSome_iff_exists.mp hsome
  obtain ⟨s, rfl, hprefix, -⟩ := fan_keeps_order (by decide) (by decide) _ hr
  exact ⟨s, hr, hprefix⟩

end Fan

end Ucesb
