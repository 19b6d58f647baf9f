import Ucesb.ThreadQueue

namespace Ucesb

namespace ThreadQueue

variable {τ β : Type} {k taken : Nat} {q : ThreadQueue τ} {xs : List τ}

def Holds (k : Nat) (q : ThreadQueue τ) (taken : Nat) (xs : List τ) : Prop :=
  RingHolds k q.avail q.done q.items q.filled taken xs

theorem holds_new (t : τ) : (new t).Holds k 0 [] := ringHolds_empty _

theorem Holds.canInsert_iff (h : q.Holds k taken xs) (hk : k < 31) :
    q.canInsert (ringLen k) = true ↔ xs.length < 2 ^ k := by
  rw [canInsert, decide_eq_true_iff]
  exact RingHolds.has_room h hk

theorem Holds.canRemove_iff (h : q.Holds k taken xs) (hk : k < 31) :
    q.canRemove (ringLen k) = true ↔ 0 < xs.length := by
  rw [canRemove, decide_eq_true_iff]
  exact RingHolds.has_item h hk

theorem Holds.nextInsert_eq (h : q.Holds k taken xs) (hk : k < 31) (hroom : xs.length < 2 ^ k) :
    q.nextInsert (ringLen k) = .ok ((taken + xs.length) % 2 ^ k) := by
  rw [nextInsert, if_pos ((h.canInsert_iff hk).mpr hroom), RingHolds.insert_slot h hk]

theorem Holds.nextRemove_eq (h : q.Holds k taken xs) (hk : k < 31) (hitem : 0 < xs.length) :
    q.nextRemove (ringLen k) = .ok (taken % 2 ^ k) := by
  rw [nextRemove, if_pos ((h.canRemove_iff hk).mpr hitem), RingHolds.remove_slot h hk]

theorem Holds.read_eq (h : q.Holds k taken xs) {x : τ} {y : β} {f : τ → Option β}
    (hx : xs[0]? = some x) (hf : f x = some y) : q.read (taken % 2 ^ k) f = .ok y := by
  have hpos : 0 < xs.length := (List.getElem?_eq_some_iff.mp hx).1
  rw [read, if_pos (RingHolds.first_filled h hpos), RingHolds.first_item h hx, hf]

theorem Holds.write_eq (h : q.Holds k taken xs) (hroom : xs.length < 2 ^ k) (f : τ → τ) :
    ∃ q', q.write ((taken + xs.length) % 2 ^ k) f = .ok q' ∧ q'.Holds k taken xs ∧
      q'.items ((taken + xs.length) % 2 ^ k) = f (q.items ((taken + xs.length) % 2 ^ k)) := by
  have hfree := RingHolds.next_not_filled h hroom
  refine ⟨{ q with
    items := Function.update q.items ((taken + xs.length) % 2 ^ k)
      (f (q.items ((taken + xs.length) % 2 ^ k))) }, ?_, RingHolds.write h hfree _, ?_⟩
  · rw [write, hfree]
    rfl
  · exact Function.update_self ..

theorem Holds.insert_eq (h : q.Holds k taken xs) (hk : k < 31) (hroom : xs.length < 2 ^ k) {x : τ}
    (hx : q.items ((taken + xs.length) % 2 ^ k) = x) :
    ∃ q', q.insert (ringLen k) = .ok q' ∧ q'.Holds k taken (xs ++ [x]) := by
  refine ⟨{ q with
    avail := q.avail + 1
    filled := Function.update q.filled (wrapSlot (ringLen k) q.avail) true }, ?_, ?_⟩
  · rw [insert, if_pos ((h.canInsert_iff hk).mpr hroom)]
  · have hpush := RingHolds.push h hroom hx
    rw [← RingHolds.insert_slot h hk] at hpush
    exact hpush

theorem Holds.remove_eq {x : τ} (h : q.Holds k taken (x :: xs)) (hk : k < 31) :
    ∃ q', q.remove (ringLen k) = .ok q' ∧ q'.Holds k (taken + 1) xs ∧ q'.items = q.items := by
  refine ⟨{ q with
    done := q.done + 1
    filled := Function.update q.filled (wrapSlot (ringLen k) q.done) false }, ?_, ?_, rfl⟩
  · rw [remove, if_pos ((h.canRemove_iff hk).mpr (by simp))]
  · have hpop := RingHolds.pop h
    rw [← RingHolds.remove_slot h hk] at hpop
    exact hpop

end ThreadQueue

section Lane

variable {α : Type} {kOut kIn : Nat} {process : α → α}

def sentItem (x : α × Nat) : ThreadQueueItem α := ⟨some x.1, some x.2⟩

def passedItem (process : α → α) (x : α × Nat) : ThreadQueueItem α := ⟨some (process x.1), some x.2⟩

/-- Events out of the queue of the processor: it lets go of an event before it passes it on. -/
def EventProcessor.consumed (p : EventProcessor α) : Nat :=
  match p.phase with
  | .released _ | .processed => p.passed + 1
  | _ => p.passed

theorem EventProcessor.passed_le_consumed (p : EventProcessor α) : p.passed ≤ p.consumed := by
  unfold consumed
  split <;> omega

/-- What the processor knows of the event it is at: the `passed`-th of its events `xs`, of which
`collected` have been retired. -/
def EventProcessor.PhaseInv (kOut kIn : Nat) (process : α → α) (p : EventProcessor α)
    (xs : List (α × Nat)) (collected : Nat) : Prop :=
  match p.phase with
  | .waitingOut => True
  | .waitingIn => p.passed - collected < 2 ^ kIn
  | .ready => p.passed - collected < 2 ^ kIn ∧ p.passed < xs.length
  | .received recv next => p.passed - collected < 2 ^ kIn ∧ recv = p.passed % 2 ^ kOut ∧
    ∃ e, xs[p.passed]? = some (e, next)
  | .reserved recv send => p.passed - collected < 2 ^ kIn ∧ recv = p.passed % 2 ^ kOut ∧
    send = p.passed % 2 ^ kIn ∧
    ∃ x, xs[p.passed]? = some x ∧ (p.retire.items send).nextItemQueue = some x.2
  | .copied send | .released send => p.passed - collected < 2 ^ kIn ∧ send = p.passed % 2 ^ kIn ∧
    ∃ x, xs[p.passed]? = some x ∧ p.retire.items send = sentItem x
  | .processed => p.passed - collected < 2 ^ kIn ∧
    ∃ x, xs[p.passed]? = some x ∧ p.retire.items (p.passed % 2 ^ kIn) = passedItem process x

structure LaneInv (kOut kIn : Nat) (process : α → α) (p : EventProcessor α) (xs : List (α × Nat))
    (collected : Nat) : Prop where
  unpack : p.unpack.Holds kOut p.consumed ((xs.drop p.consumed).map sentItem)
  consumed_le : p.consumed ≤ xs.length
  retire : p.retire.Holds kIn collected
    (((xs.take p.passed).drop collected).map (passedItem process))
  collected_le : collected ≤ p.passed
  phase : p.PhaseInv kOut kIn process xs collected

variable {p : EventProcessor α} {xs : List (α × Nat)} {collected : Nat}

theorem LaneInv.passed_le (h : LaneInv kOut kIn process p xs collected) : p.passed ≤ xs.length :=
  (p.passed_le_consumed).trans h.consumed_le

theorem LaneInv.unpack_length (_ : LaneInv kOut kIn process p xs collected) :
    ((xs.drop p.consumed).map sentItem).length = xs.length - p.consumed := by
  simp

theorem LaneInv.retire_length (h : LaneInv kOut kIn process p xs collected) :
    (((xs.take p.passed).drop collected).map (passedItem process)).length =
      p.passed - collected := by
  have hle := h.passed_le
  simp only [List.length_map, List.length_drop, List.length_take]
  omega

theorem LaneInv.retire_slot (h : LaneInv kOut kIn process p xs collected) :
    collected + (((xs.take p.passed).drop collected).map (passedItem process)).length =
      p.passed := by
  have hle := h.collected_le
  rw [h.retire_length]
  omega

theorem LaneInv.canPass_iff (h : LaneInv kOut kIn process p xs collected) (hk : kIn < 31) :
    p.retire.canInsert (ringLen kIn) = true ↔ p.passed - collected < 2 ^ kIn := by
  rw [h.retire.canInsert_iff hk, h.retire_length]

theorem LaneInv.canReceive_iff (h : LaneInv kOut kIn process p xs collected) (hk : kOut < 31) :
    p.unpack.canRemove (ringLen kOut) = true ↔ p.consumed < xs.length := by
  rw [h.unpack.canRemove_iff hk, h.unpack_length]
  omega

theorem LaneInv.canRetire_iff (h : LaneInv kOut kIn process p xs collected) (hk : kIn < 31) :
    p.retire.canRemove (ringLen kIn) = true ↔ collected < p.passed := by
  rw [h.retire.canRemove_iff hk, h.retire_length]
  omega

theorem first_sent {i : Nat} {x : α × Nat} (hx : xs[i]? = some x) :
    ((xs.drop i).map sentItem)[0]? = some (sentItem x) := by
  simp [hx]

def EventProcessor.workLeft (p : EventProcessor α) (sent : Nat) : Nat :=
  8 * (sent - p.passed) + 2 -
    match p.phase with
    | .waitingOut => 0
    | .waitingIn => 1
    | .ready => 2
    | .received _ _ => 3
    | .reserved _ _ => 4
    | .copied _ => 5
    | .released _ => 6
    | .processed => 7

structure EventProcessor.Advances (p p' : EventProcessor α) (sent : Nat) : Prop where
  consumed_le : p.consumed ≤ p'.consumed
  passed_le : p.passed ≤ p'.passed
  items_eq : p'.unpack.items = p.unpack.items
  workLeft_lt : p'.workLeft sent < p.workLeft sent

theorem LaneInv.write_retire (h : LaneInv kOut kIn process p xs collected)
    (hroom : p.passed - collected < 2 ^ kIn) (f : ThreadQueueItem α → ThreadQueueItem α) :
    ∃ q', p.retire.write (p.passed % 2 ^ kIn) f = .ok q' ∧
      q'.Holds kIn collected (((xs.take p.passed).drop collected).map (passedItem process)) ∧
      q'.items (p.passed % 2 ^ kIn) = f (p.retire.items (p.passed % 2 ^ kIn)) := by
  have hw := h.retire.write_eq (by rw [h.retire_length]; exact hroom) f
  rw [h.retire_slot] at hw
  exact hw

theorem drop_take_succ {i c : Nat} {x : α × Nat} (hc : c ≤ i) (hx : xs[i]? = some x) :
    (xs.take (i + 1)).drop c = (xs.take i).drop c ++ [x] := by
  have hi : i < xs.length := (List.getElem?_eq_some_iff.mp hx).1
  rw [List.take_add_one, hx, List.drop_append_of_le_length]
  · rfl
  · rw [List.length_take]
    omega

theorem LaneInv.step (h : LaneInv kOut kIn process p xs collected) (hOut : kOut < 31)
    (hIn : kIn < 31) {r : Except QueueFault (EventProcessor α)}
    (hs : p.step (ringLen kOut) (ringLen kIn) process = some r) :
    ∃ p', r = .ok p' ∧ LaneInv kOut kIn process p' xs collected ∧
      p.Advances p' xs.length := by
  obtain ⟨unpack, retire, phase, passed⟩ := p
  have hphase := h.phase
  have hcollected : collected ≤ passed := h.collected_le
  cases phase with
  | waitingOut =>
    simp only [EventProcessor.step, Option.ite_none_right_eq_some] at hs
    obtain ⟨hcan, hr⟩ := hs
    cases hr
    exact ⟨_, rfl, ⟨h.unpack, h.consumed_le, h.retire, h.collected_le,
      (h.canPass_iff hIn).mp hcan⟩, Nat.le_refl _, Nat.le_refl _, rfl,
      by simp only [EventProcessor.workLeft]; omega⟩
  | waitingIn =>
    simp only [EventProcessor.step, Option.ite_none_right_eq_some] at hs
    obtain ⟨hcan, hr⟩ := hs
    cases hr
    have hlt : passed < xs.length := (h.canReceive_iff hOut).mp hcan
    exact ⟨_, rfl, ⟨h.unpack, h.consumed_le, h.retire, h.collected_le, hphase, hlt⟩,
      Nat.le_refl _, Nat.le_refl _, rfl, by simp only [EventProcessor.workLeft]; omega⟩
  | ready =>
    simp only [EventProcessor.PhaseInv] at hphase
    obtain ⟨hroom, hlt⟩ := hphase
    have hx : xs[passed]? = some xs[passed] := List.getElem?_eq_getElem hlt
    have hfirst := first_sent hx
    have hslot := h.unpack.nextRemove_eq hOut (by rw [h.unpack_length]; exact Nat.sub_pos_of_lt hlt)
    have hread := h.unpack.read_eq (f := ThreadQueueItem.nextItemQueue) hfirst rfl
    simp only [EventProcessor.consumed] at hslot hread
    simp only [EventProcessor.step, hslot, hread, bind, Except.bind, pure, Except.pure,
      Option.some.injEq] at hs
    subst hs
    exact ⟨_, rfl, ⟨h.unpack, h.consumed_le, h.retire, h.collected_le, hroom, rfl, _, hx⟩,
      Nat.le_refl _, Nat.le_refl _, rfl, by simp only [EventProcessor.workLeft]; omega⟩
  | received recv next =>
    simp only [EventProcessor.PhaseInv] at hphase
    obtain ⟨hroom, hrecv, e, hx⟩ := hphase
    have hlt : passed < xs.length := (List.getElem?_eq_some_iff.mp hx).1
    have hslot := h.retire.nextInsert_eq hIn (by rw [h.retire_length]; exact hroom)
    rw [h.retire_slot] at hslot
    obtain ⟨q', hq, hholds, hitem⟩ := h.write_retire hroom fun t =>
      { t with nextItemQueue := some next }
    simp only at hslot hq
    simp only [EventProcessor.step, hslot, hq, bind, Except.bind, pure, Except.pure,
      Option.some.injEq] at hs
    subst hs
    exact ⟨_, rfl, ⟨h.unpack, h.consumed_le, hholds, h.collected_le, hroom, hrecv, rfl, _, hx,
      congrArg ThreadQueueItem.nextItemQueue hitem⟩,
      Nat.le_refl _, Nat.le_refl _, rfl, by simp only [EventProcessor.workLeft]; omega⟩
  | reserved recv send =>
    simp only [EventProcessor.PhaseInv] at hphase
    obtain ⟨hroom, rfl, rfl, x, hx, hnext⟩ := hphase
    have hlt : passed < xs.length := (List.getElem?_eq_some_iff.mp hx).1
    have hread := h.unpack.read_eq (f := ThreadQueueItem.item) (first_sent hx) rfl
    obtain ⟨q', hq, hholds, hitem⟩ := h.write_retire hroom fun t => { t with item := some x.1 }
    simp only [EventProcessor.consumed] at hread hq hnext hitem
    simp only [EventProcessor.step, hread, hq, bind, Except.bind, pure, Except.pure,
      Option.some.injEq] at hs
    subst hs
    refine ⟨_, rfl, ⟨h.unpack, h.consumed_le, hholds, h.collected_le, hroom, rfl, x, hx, ?_⟩,
      Nat.le_refl _, Nat.le_refl _, rfl, by simp only [EventProcessor.workLeft]; omega⟩
    simp only [hitem, hnext, sentItem]
  | copied send =>
    simp only [EventProcessor.PhaseInv] at hphase
    obtain ⟨hroom, hsend, x, hx, hitem⟩ := hphase
    have hlt : passed < xs.length := (List.getElem?_eq_some_iff.mp hx).1
    have hunpack := h.unpack
    simp only [EventProcessor.consumed] at hunpack
    rw [List.drop_eq_getElem_cons hlt, List.map_cons] at hunpack
    obtain ⟨q', hq, hholds, hitems⟩ := hunpack.remove_eq hOut
    simp only [EventProcessor.step, hq, bind, Except.bind, pure, Except.pure,
      Option.some.injEq] at hs
    subst hs
    exact ⟨_, rfl, ⟨hholds, hlt, h.retire, h.collected_le, hroom, hsend, x, hx, hitem⟩,
      Nat.le_succ _, Nat.le_refl _, hitems,
      by simp only [EventProcessor.workLeft]; omega⟩
  | released send =>
    simp only [EventProcessor.PhaseInv] at hphase
    obtain ⟨hroom, rfl, x, hx, hitem⟩ := hphase
    have hlt : passed < xs.length := (List.getElem?_eq_some_iff.mp hx).1
    obtain ⟨q', hq, hholds, hitem'⟩ := h.write_retire hroom fun t =>
      { t with item := t.item.map process }
    simp only at hq hitem hitem'
    simp only [EventProcessor.step, hq, bind, Except.bind, pure, Except.pure,
      Option.some.injEq] at hs
    subst hs
    refine ⟨_, rfl, ⟨h.unpack, h.consumed_le, hholds, h.collected_le, hroom, x, hx, ?_⟩,
      Nat.le_refl _, Nat.le_refl _, rfl, by simp only [EventProcessor.workLeft]; omega⟩
    simp only [hitem', hitem, sentItem, passedItem, Option.map_some]
  | processed =>
    simp only [EventProcessor.PhaseInv] at hphase
    obtain ⟨hroom, x, hx, hitem⟩ := hphase
    have hlt : passed < xs.length := (List.getElem?_eq_some_iff.mp hx).1
    have hslot := h.retire_slot
    obtain ⟨q', hq, hholds⟩ := h.retire.insert_eq hIn (by rw [h.retire_length]; exact hroom)
      (x := passedItem process x) (by rw [hslot]; exact hitem)
    simp only at hq hholds
    simp only [EventProcessor.step, hq, bind, Except.bind, pure, Except.pure,
      Option.some.injEq] at hs
    subst hs
    refine ⟨_, rfl, ⟨h.unpack, h.consumed_le, ?_, Nat.le_succ_of_le h.collected_le, trivial⟩,
      Nat.le_refl _, Nat.le_succ _, rfl, by simp only [EventProcessor.workLeft]; omega⟩
    simp only
    rw [drop_take_succ hcollected hx, List.map_append]
    exact hholds

theorem LaneInv.step_none (h : LaneInv kOut kIn process p xs collected) (hOut : kOut < 31)
    (hIn : kIn < 31) (hs : p.step (ringLen kOut) (ringLen kIn) process = none) :
    collected < p.passed ∨ p.passed = xs.length := by
  obtain ⟨unpack, retire, phase, passed⟩ := p
  have hpow : 0 < 2 ^ kIn := Nat.two_pow_pos kIn
  have hle := h.passed_le
  cases phase with
  | waitingOut =>
    simp only [EventProcessor.step, ite_eq_right_iff, reduceCtorEq, imp_false] at hs
    have hfull := mt (h.canPass_iff hIn).mpr hs
    simp only at hfull ⊢
    omega
  | waitingIn =>
    simp only [EventProcessor.step, ite_eq_right_iff, reduceCtorEq, imp_false] at hs
    have hempty := mt (h.canReceive_iff hOut).mpr hs
    simp only [EventProcessor.consumed] at hempty hle ⊢
    omega
  | _ => cases hs

theorem LaneInv.write_unpack (h : LaneInv kOut kIn process p xs collected)
    (hroom : xs.length - p.consumed < 2 ^ kOut) (f : ThreadQueueItem α → ThreadQueueItem α) :
    ∃ q', p.unpack.write (xs.length % 2 ^ kOut) f = .ok q' ∧
      LaneInv kOut kIn process { p with unpack := q' } xs collected ∧
      q'.items (xs.length % 2 ^ kOut) = f (p.unpack.items (xs.length % 2 ^ kOut)) := by
  have hslot : p.consumed + ((xs.drop p.consumed).map sentItem).length = xs.length := by
    have hle := h.consumed_le
    rw [h.unpack_length]
    omega
  obtain ⟨q', hq, hholds, hitem⟩ := h.unpack.write_eq (by rw [h.unpack_length]; exact hroom) f
  rw [hslot] at hq hitem
  exact ⟨q', hq, ⟨hholds, h.consumed_le, h.retire, h.collected_le, h.phase⟩, hitem⟩

theorem EventProcessor.PhaseInv.append {x : α × Nat}
    (h : p.PhaseInv kOut kIn process xs collected) :
    p.PhaseInv kOut kIn process (xs ++ [x]) collected := by
  have hget : ∀ (i : Nat) y, xs[i]? = some y → (xs ++ [x])[i]? = some y := by
    intro i y hy
    have hi : i < xs.length := (List.getElem?_eq_some_iff.mp hy).1
    rw [List.getElem?_append_left hi]
    exact hy
  unfold EventProcessor.PhaseInv at h ⊢
  split
  case h_1 => trivial
  case h_2 heq => simpa only [heq] using h
  case h_3 heq =>
    simp only [heq] at h
    refine ⟨h.1, ?_⟩
    rw [List.length_append]
    omega
  case h_4 heq =>
    simp only [heq] at h
    obtain ⟨hroom, hrecv, e, hx⟩ := h
    exact ⟨hroom, hrecv, e, hget _ _ hx⟩
  case h_5 heq =>
    simp only [heq] at h
    obtain ⟨hroom, hrecv, hsend, y, hy, hitem⟩ := h
    exact ⟨hroom, hrecv, hsend, y, hget _ _ hy, hitem⟩
  case h_6 heq =>
    simp only [heq] at h
    obtain ⟨hroom, hsend, y, hy, hitem⟩ := h
    exact ⟨hroom, hsend, y, hget _ _ hy, hitem⟩
  case h_7 heq =>
    simp only [heq] at h
    obtain ⟨hroom, hsend, y, hy, hitem⟩ := h
    exact ⟨hroom, hsend, y, hget _ _ hy, hitem⟩
  case h_8 heq =>
    simp only [heq] at h
    obtain ⟨hroom, y, hy, hitem⟩ := h
    exact ⟨hroom, y, hget _ _ hy, hitem⟩

theorem LaneInv.insert (h : LaneInv kOut kIn process p xs collected) (hOut : kOut < 31)
    (hroom : xs.length - p.consumed < 2 ^ kOut) {x : α × Nat}
    (hx : p.unpack.items (xs.length % 2 ^ kOut) = sentItem x) :
    ∃ q', p.unpack.insert (ringLen kOut) = .ok q' ∧
      LaneInv kOut kIn process { p with unpack := q' } (xs ++ [x]) collected := by
  have hle := h.consumed_le
  have hpassed := h.passed_le
  have hslot : p.consumed + ((xs.drop p.consumed).map sentItem).length = xs.length := by
    rw [h.unpack_length]
    omega
  obtain ⟨q', hq, hholds⟩ := h.unpack.insert_eq hOut (by rw [h.unpack_length]; exact hroom)
    (x := sentItem x) (by rw [hslot]; exact hx)
  refine ⟨q', hq, ?_, ?_, ?_, h.collected_le, h.phase.append⟩
  · change q'.Holds kOut p.consumed (((xs ++ [x]).drop p.consumed).map sentItem)
    rw [List.drop_append_of_le_length hle, List.map_append]
    exact hholds
  · change p.consumed ≤ _
    rw [List.length_append]
    omega
  · change p.retire.Holds kIn collected
      ((((xs ++ [x]).take p.passed).drop collected).map (passedItem process))
    rw [List.take_append_of_le_length hpassed]
    exact h.retire

theorem EventProcessor.PhaseInv.collect {q : ThreadQueue (ThreadQueueItem α)}
    (hq : q.items = p.retire.items) (h : p.PhaseInv kOut kIn process xs collected) :
    EventProcessor.PhaseInv kOut kIn process { p with retire := q } xs (collected + 1) := by
  have hroom : p.passed - collected < 2 ^ kIn → p.passed - (collected + 1) < 2 ^ kIn := by
    omega
  unfold EventProcessor.PhaseInv at h ⊢
  simp only [hq]
  split
  case h_1 => trivial
  case h_2 heq =>
    simp only [heq] at h
    exact hroom h
  all_goals
    rename_i heq
    simp only [heq] at h
    exact ⟨hroom h.1, h.2⟩

theorem LaneInv.collect (h : LaneInv kOut kIn process p xs collected) (hIn : kIn < 31)
    (hlt : collected < p.passed) :
    ∃ q', p.retire.remove (ringLen kIn) = .ok q' ∧
      LaneInv kOut kIn process { p with retire := q' } xs (collected + 1) := by
  have hlen : collected < (xs.take p.passed).length := by
    have hle := h.passed_le
    rw [List.length_take]
    omega
  have hretire := h.retire
  rw [List.drop_eq_getElem_cons hlen, List.map_cons] at hretire
  obtain ⟨q', hq, hholds, hitems⟩ := hretire.remove_eq hIn
  exact ⟨q', hq, ⟨h.unpack, h.consumed_le, hholds, hlt, h.phase.collect hitems⟩⟩

theorem LaneInv.read_retire {β : Type} (h : LaneInv kOut kIn process p xs collected)
    (hlt : collected < p.passed) {x : α × Nat} (hx : xs[collected]? = some x)
    {f : ThreadQueueItem α → Option β} {y : β} (hf : f (passedItem process x) = some y) :
    p.retire.read (collected % 2 ^ kIn) f = .ok y := by
  refine h.retire.read_eq (x := passedItem process x) ?_ hf
  simp [hx, hlt]

end Lane

end Ucesb
