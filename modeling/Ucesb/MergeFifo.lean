import Ucesb.MergeInsert
import Ucesb.Runs

namespace Ucesb

inductive StoreOp
  | insert (event : MergeEvent)
  /-- the source is looked at for a merged event whose window ends at `twindowEnd` -/
  | sort (twindowEnd : Nat)
deriving DecidableEq

/-- What has been taken out of the store: the time, and the bytes of the header and the data. -/
structure TakenItem where
  tstamp : Nat
  pre : List UInt8
  data : List UInt8
deriving DecidableEq

structure StoreRun where
  store : Option MergeItemStore
  taken : List TakenItem
deriving DecidableEq

def storeRunStart : StoreRun := ⟨none, []⟩

def MergeEvent.content (event : MergeEvent) : TakenItem := ⟨event.tstamp, event.pre, event.data⟩

/-- The pointers that are kept for an item within the window: `incl0_msg` and `incl->_p`. -/
def MergeItemStore.takenBy (store : MergeItemStore) (twindowEnd : Nat) : List TakenItem :=
  let acc := (store.contribute 0 twindowEnd ⟨[], none, 0, tstampMax⟩).2
  match acc.incl0, acc.incl with
  | some (pre, tstamp), (_, data) :: _ => [⟨tstamp, pre, data⟩]
  | _, _ => []

/-- `none` if the doubling of `_alloc` does not end. -/
def storeStep (fresh : UInt8) (s : StoreRun) : StoreOp → Option StoreRun
  | .insert event => do
    let store ← (openStore s.store).insert fresh event
    return { s with store := some store }
  | .sort twindowEnd =>
    match s.store with
    | none => some s
    | some store =>
      some ⟨some (store.contribute 0 twindowEnd ⟨[], none, 0, tstampMax⟩).1,
        s.taken ++ store.takenBy twindowEnd⟩

def insertions (ops : List StoreOp) : List MergeEvent :=
  ops.filterMap fun op =>
    match op with
    | .insert event => some event
    | .sort _ => none

/-- The bytes from `_offset_first` to `_used` are the items of the queue, within `_alloc`. -/
def HoldsQueue : Option MergeItemStore → List (Queued MergeEvent) → Prop
  | none, q => q = []
  | some store, q => StoreRep store q

def StoreRun.IsFifo (s : StoreRun) (inserted : List MergeEvent) : Prop :=
  ∃ q, HoldsQueue s.store q ∧ s.taken ++ q.map (·.item.content) = inserted.map MergeEvent.content

/-- The doubling of `_alloc` comes to an end, and the held items are not moved. -/
def StoreRun.fits (s : StoreRun) : StoreOp → Prop
  | .insert event =>
    let store := openStore s.store
    store.needFor event ≤ 2 ^ 31 ∧ store.movesItems (store.needFor event) = false
  | .sort _ => True

section Fifo

variable {fresh : UInt8} {s : StoreRun} {q : List (Queued MergeEvent)} {inserted : List MergeEvent}

theorem HoldsQueue.openStore {store : Option MergeItemStore} (h : HoldsQueue store q) :
    StoreRep (openStore store) q := by
  cases store with
  | none =>
    rw [show q = [] from h]
    exact StoreRep.empty
  | some store =>
    have hst : StoreRep store q := h
    unfold Ucesb.openStore
    dsimp only
    by_cases hge : store.offsetFirst ≥ store.used
    · have hu := hst.used_eq
      have hq := length_le_encodeItems q
      obtain rfl : q = [] := List.length_eq_zero_iff.mp (by omega)
      rw [if_pos hge]
      exact ⟨⟨store.buf, rfl⟩, rfl, hst.buf_length, Nat.zero_le _, hst.alloc_size⟩
    · rw [if_neg hge]
      exact hst

theorem StoreRep.takenBy_spec {store : MergeItemStore} (h : StoreRep store q) (limit : Nat) :
    store.takenBy limit ++ (afterJoin MergeEvent.tstamp limit q).map (·.item.content) =
      q.map (·.item.content) := by
  obtain ⟨-, t, hacc, -⟩ := h.contribute_spec 0 limit ⟨[], none, 0, tstampMax⟩
  unfold MergeItemStore.takenBy
  dsimp only
  rw [hacc]
  cases q with
  | nil => rfl
  | cons x q =>
    by_cases hx : x.item.tstamp ≤ limit
    · have hmark : (markNext MergeEvent.tstamp limit q).map (·.item.content) =
          q.map (·.item.content) := by
        have hitems := congrArg (List.map MergeEvent.content)
          (@markNext_items MergeEvent MergeEvent.tstamp limit q)
        rw [List.map_map, List.map_map] at hitems
        exact hitems
      simp only [contribution, afterJoin, hx, if_true, Option.toList_some, List.foldl_cons,
        List.foldl_nil, joinInto, List.map_cons, hmark]
      rfl
    · simp only [contribution, afterJoin, hx, if_false]
      rfl

theorem isFifo_sort (h : s.IsFifo inserted) (limit : Nat) :
    ∃ s', storeStep fresh s (.sort limit) = some s' ∧ s'.IsFifo inserted := by
  obtain ⟨q, hq, heq⟩ := h
  obtain ⟨store, taken⟩ := s
  cases store with
  | none => exact ⟨_, rfl, q, hq, heq⟩
  | some store =>
    have hst : StoreRep store q := hq
    refine ⟨_, rfl, afterJoin MergeEvent.tstamp limit q, (hst.contribute_spec 0 limit _).1, ?_⟩
    dsimp only at heq ⊢
    rw [List.append_assoc, hst.takenBy_spec, heq]

theorem isFifo_insert (h : s.IsFifo inserted) {event : MergeEvent} (hfit : s.fits (.insert event)) :
    ∃ s', storeStep fresh s (.insert event) = some s' ∧ s'.IsFifo (inserted ++ [event]) := by
  obtain ⟨q, hq, heq⟩ := h
  obtain ⟨store, hins, hrep⟩ := hq.openStore.insert_spec fresh event hfit.1 hfit.2
  refine ⟨{ s with store := some store }, ?_, q ++ [Queued.fresh event], hrep, ?_⟩
  · simp [storeStep, hins]
  · rw [List.map_append, List.map_append, ← heq, List.append_assoc]
    rfl

theorem AllocSize.double {alloc : Nat} (h : AllocSize alloc) : AllocSize (alloc * 2 % 2 ^ 32) := by
  obtain rfl | ⟨k, hk, rfl⟩ := h
  · exact .inl rfl
  · rcases Nat.lt_or_ge k 19 with hlt | hge
    · have hpow : 2 ^ (k + 1) ≤ 2 ^ 19 := Nat.pow_le_pow_right (by omega) hlt
      rw [Nat.pow_succ] at hpow
      refine .inr ⟨k + 1, hlt, ?_⟩
      rw [Nat.mod_eq_of_lt (by omega), Nat.pow_succ]
      omega
    · obtain rfl : k = 19 := by omega
      exact .inl rfl

theorem growAlloc_none {fuel alloc need : Nat} (h : AllocSize alloc) (hn : 2 ^ 31 < need) :
    growAlloc fuel alloc need = none := by
  induction fuel generalizing alloc with
  | zero => rfl
  | succ fuel ih =>
    have hle := h.le
    unfold growAlloc
    rw [if_pos (by omega)]
    exact ih h.double

theorem encodeItems_length_content {p q : List (Queued MergeEvent)}
    (h : p.map (·.item.content) = q.map (·.item.content)) :
    (encodeItems p).length = (encodeItems q).length := by
  induction p generalizing q with
  | nil =>
    cases q with
    | nil => rfl
    | cons y q => cases h
  | cons x p ih =>
    cases q with
    | nil => cases h
    | cons y q =>
      simp only [List.map_cons, List.cons.injEq, MergeEvent.content, TakenItem.mk.injEq] at h
      obtain ⟨⟨-, hpre, hdata⟩, htail⟩ := h
      simp only [encodeItems_cons, List.length_append, encodeItem_length, hpre, hdata, ih htail]

theorem insert_moved {store store' : MergeItemStore} {event : MergeEvent}
    (hm : store.movesItems (store.needFor event) = true)
    (h : store.insert fresh event = some store') :
    store'.offsetFirst = 0 ∧ store'.used = store.needFor event % 2 ^ 32 := by
  have hgt : store.needFor event > store.alloc := by
    unfold MergeItemStore.movesItems at hm
    simp only [Bool.and_eq_true, decide_eq_true_eq] at hm
    exact hm.1.1
  have hm' : MergeItemStore.movesItems { store with prevMeventno := event.meventno }
      (store.needFor event) = true := hm
  simp only [MergeItemStore.insert, MergeItemStore.makeSpace, hgt, hm', if_true,
    Option.bind_eq_bind, Option.bind_some] at h
  cases h
  exact ⟨rfl, rfl⟩

theorem fits_of_isFifo {s' : StoreRun} (h : s.IsFifo inserted) {event : MergeEvent}
    (hstep : storeStep fresh s (.insert event) = some s')
    (h' : s'.IsFifo (inserted ++ [event])) : s.fits (.insert event) := by
  obtain ⟨q, hq, heq⟩ := h
  obtain ⟨q', hq', heq'⟩ := h'
  have hrep := hq.openStore
  have hu := hrep.used_eq
  have hl := hrep.used_le
  have ha := hrep.alloc_size.le
  obtain ⟨store', hins, hs'⟩ := Option.bind_eq_some_iff.mp hstep
  cases hs'
  have hrep' : StoreRep store' q' := hq'
  have hmoved : (openStore s.store).movesItems ((openStore s.store).needFor event) = false := by
    by_contra hm
    rw [Bool.not_eq_false] at hm
    obtain ⟨hoff', hused'⟩ := insert_moved hm hins
    -- the items held now are the ones from before and the new one
    have hlen : (encodeItems q').length =
        (encodeItems q).length + 20 + event.pre.length + event.data.length := by
      have hq2 : q'.map (·.item.content) = (q ++ [Queued.fresh event]).map (·.item.content) := by
        dsimp only at heq'
        rw [List.map_append, ← heq, List.append_assoc] at heq'
        rw [List.map_append]
        exact List.append_cancel_left heq'
      rw [encodeItems_length_content hq2, encodeItems_append, List.length_append, encodeItems_cons,
        List.length_append, encodeItem_length]
      simp only [Queued.fresh, encodeItems, List.flatMap_nil, List.length_nil]
      omega
    have hu' := hrep'.used_eq
    have hl' := hrep'.used_le
    have ha' := hrep'.alloc_size.le
    rw [hoff', hused', hlen] at hu'
    rw [hused'] at hl'
    have hpos : (openStore s.store).offsetFirst ≠ 0 := by
      unfold MergeItemStore.movesItems at hm
      simp only [Bool.and_eq_true, decide_eq_true_eq] at hm
      exact hm.1.2
    simp only [MergeItemStore.needFor, mergeItemChunkSize] at hu' hl'
    omega
  refine ⟨?_, hmoved⟩
  by_contra hbig
  rw [Nat.not_le] at hbig
  have hsize : AllocSize (if (openStore s.store).alloc = 0 then 0x1000
      else (openStore s.store).alloc) := by
    split
    · exact .inr ⟨0, by omega, rfl⟩
    · exact hrep.alloc_size
  have hm' : MergeItemStore.movesItems { openStore s.store with prevMeventno := event.meventno }
      ((openStore s.store).needFor event) = false := hmoved
  simp [MergeItemStore.insert, MergeItemStore.makeSpace, hm',
    growAlloc_none hsize hbig, show (openStore s.store).needFor event >
      (openStore s.store).alloc by omega] at hins

theorem isFifo_step_iff (h : s.IsFifo inserted) (op : StoreOp) :
    (∃ s', storeStep fresh s op = some s' ∧ s'.IsFifo (inserted ++ insertions [op])) ↔
      s.fits op := by
  cases op with
  | insert event =>
    constructor
    · rintro ⟨s', hstep, h'⟩
      exact fits_of_isFifo h hstep h'
    · intro hfit
      exact isFifo_insert h hfit
  | sort limit =>
    constructor
    · intro _
      trivial
    · intro _
      obtain ⟨s', hstep, h'⟩ := @isFifo_sort fresh s inserted h limit
      refine ⟨s', hstep, ?_⟩
      rw [show insertions [StoreOp.sort limit] = [] from rfl, List.append_nil]
      exact h'

theorem insertions_cons (op : StoreOp) (ops : List StoreOp) :
    insertions (op :: ops) = insertions [op] ++ insertions ops := by
  unfold insertions
  rw [← List.filterMap_append]
  rfl

theorem isFifo_run_iff (h : s.IsFifo inserted) (ops : List StoreOp) :
    (∀ done, done <+: ops → ∃ s', runSteps (storeStep fresh) s done = some s' ∧
        s'.IsFifo (inserted ++ insertions done)) ↔
      StepsMeet (storeStep fresh) StoreRun.fits s ops := by
  induction ops generalizing s inserted with
  | nil =>
    constructor
    · intro _
      trivial
    · intro _ done hdone
      obtain rfl := List.prefix_nil.mp hdone
      refine ⟨s, rfl, ?_⟩
      rw [show insertions [] = [] from rfl, List.append_nil]
      exact h
  | cons op ops ih =>
    constructor
    · intro hall
      obtain ⟨s1, hrun, h1⟩ := hall [op] ((List.prefix_append [op] ops))
      have hstep : storeStep fresh s op = some s1 := by
        simpa [runSteps] using hrun
      refine ⟨(isFifo_step_iff h op).mp ⟨s1, hstep, h1⟩, ?_⟩
      intro s' hs'
      rw [hstep] at hs'
      cases hs'
      apply (ih h1).mp
      intro done hdone
      obtain ⟨s2, hrun2, h2⟩ := hall (op :: done) (List.cons_prefix_cons.mpr ⟨rfl, hdone⟩)
      refine ⟨s2, ?_, ?_⟩
      · simpa [runSteps, hstep] using hrun2
      · rw [List.append_assoc, ← insertions_cons]
        exact h2
    · rintro ⟨hfit, hrest⟩ done hdone
      cases done with
      | nil =>
        refine ⟨s, rfl, ?_⟩
        rw [show insertions [] = [] from rfl, List.append_nil]
        exact h
      | cons op' done =>
        obtain ⟨rfl, hprefix⟩ := List.cons_prefix_cons.mp hdone
        obtain ⟨s1, hstep, h1⟩ := (@isFifo_step_iff fresh s inserted h op').mpr hfit
        obtain ⟨s2, hrun2, h2⟩ := (ih h1).mpr (hrest s1 hstep) done hprefix
        refine ⟨s2, ?_, ?_⟩
        · simpa [runSteps, hstep] using hrun2
        · rw [insertions_cons, ← List.append_assoc]
          exact h2

end Fifo

/-- At every point of a run the store is the queue of the items not yet taken, exactly if every
insertion finds space without moving the items. -/
theorem store_fifo_iff (fresh : UInt8) (ops : List StoreOp) :
    (∀ done, done <+: ops → ∃ s, runSteps (storeStep fresh) storeRunStart done = some s ∧
        s.IsFifo (insertions done)) ↔
      StepsMeet (storeStep fresh) StoreRun.fits storeRunStart ops := by
  have hstart : storeRunStart.IsFifo [] := ⟨[], rfl, rfl⟩
  exact isFifo_run_iff hstart ops

def storeMoveDemo : List StoreOp :=
  [.insert ⟨0, 100, 1, [], List.replicate 1980 0, by decide, by decide⟩,
    .insert ⟨0, 200, 2, [], List.replicate 1980 0, by decide, by decide⟩,
    .sort 110,
    .insert ⟨0, 250, 3, [], List.replicate 380 0, by decide, by decide⟩]

theorem store_not_fifo :
    ¬ ∀ done, done <+: storeMoveDemo →
      ∃ s, runSteps (storeStep 0) storeRunStart done = some s ∧ s.IsFifo (insertions done) := by
  intro hall
  obtain ⟨s, hrun, q, hq, -⟩ := hall storeMoveDemo (List.prefix_refl _)
  have hstore : (runSteps (storeStep 0) storeRunStart storeMoveDemo).bind
      (fun s => s.store.map fun store => (store.used, store.alloc)) = some (4400, 4096) := by
    decide +kernel
  rw [hrun, Option.bind_some] at hstore
  obtain ⟨store, hst, hpair⟩ := Option.map_eq_some_iff.mp hstore
  rw [hst] at hq
  have hle := StoreRep.used_le hq
  rw [Prod.mk.injEq] at hpair
  omega

end Ucesb
