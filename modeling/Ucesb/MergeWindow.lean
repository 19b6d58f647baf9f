import Ucesb.MergeStore

namespace Ucesb

def pendingTimes (items : ItemsStore) : List Nat :=
  items.filterMap fun store => (store.bind MergeItemStore.first).map MergeItemChunk.tstamp

def oldestPending (items : ItemsStore) : Option Nat := (pendingTimes items).min?

/-- `ext_merge_sort_until` without a bound on the numbers; no horizon is given if everything is to
be sorted. -/
def sortUntilUnbounded (window : Nat) (items : ItemsStore) (tUntil : Option Int) :
    Option (MergedEvent × ItemsStore × Nat) :=
  match oldestPending items with
  | none => none
  | some toldest =>
    if ∃ t ∈ tUntil, (toldest : Int) ≥ t then none
    else
      let r := contributeAll (toldest + window) 0 items ⟨[], none, 0, tstampMax⟩
      some (⟨(r.2.incl0.map Prod.fst).getD [], r.2.incl, r.2.flags⟩, r.1, r.2.toldestNext)

/-- The stores after some rounds of unbounded sorting. -/
inductive SortedTo (window : Nat) (tUntil : Option Int) : ItemsStore → ItemsStore → Prop
  | refl (items) : SortedTo window tUntil items items
  | round {items items' last event tnext} :
      sortUntilUnbounded window items tUntil = some (event, items', tnext) →
      SortedTo window tUntil items' last → SortedTo window tUntil items last

/-- Every round of the sorting before an event is inserted, and of `ext_merge_sort_all`, decides as
it would with unbounded numbers. In particular no group is closed before its window is over, and
`ext_merge_sort_all` does not end while an item is pending. -/
def SortsExactly (window : Nat) (items : ItemsStore) (event : MergeEvent) : Prop :=
  (∀ items', SortedTo window (some (event.tstamp - window)) items items' →
    extMergeSortUntil window items' ((event.tstamp + 2 ^ 64 - window) % 2 ^ 64) =
      sortUntilUnbounded window items' (some (event.tstamp - window))) ∧
  (∀ items', SortedTo window none items items' →
    extMergeSortUntil window items' tstampMax = sortUntilUnbounded window items' none)

theorem first_tstamp_le {store : MergeItemStore} {item : MergeItemChunk}
    (h : store.first = some item) : item.tstamp ≤ tstampMax := by
  unfold MergeItemStore.first at h
  split at h
  · cases h
    have hlo := rd32_lt (store.buf.drop store.offsetFirst)
    have hhi := rd32_lt ((store.buf.drop store.offsetFirst).drop 4)
    simp only [decodeChunk, tstampMax]
    omega
  · cases h

theorem pendingTimes_le {items : ItemsStore} {t : Nat} (h : t ∈ pendingTimes items) :
    t ≤ tstampMax := by
  obtain ⟨store, _, hs⟩ := List.mem_filterMap.mp h
  obtain ⟨item, hi, rfl⟩ := Option.map_eq_some_iff.mp hs
  obtain ⟨store', rfl, hf⟩ := Option.bind_eq_some_iff.mp hi
  exact first_tstamp_le hf

theorem foldl_olderFirst (items : ItemsStore) (t : Nat) :
    items.foldl olderFirst t = (pendingTimes items).foldl min t := by
  induction items generalizing t with
  | nil => rfl
  | cons store items ih =>
    rw [List.foldl_cons, ih]
    unfold pendingTimes olderFirst
    rw [List.filterMap_cons]
    cases hs : store.bind MergeItemStore.first with
    | none => rfl
    | some item =>
      have hmin : (if item.tstamp < t then item.tstamp else t) = min t item.tstamp := by
        split <;> omega
      dsimp only [Option.map_some]
      rw [List.foldl_cons, hmin]

theorem findOldest_eq_pending (items : ItemsStore) :
    findOldest items = (oldestPending items).getD tstampMax := by
  unfold findOldest oldestPending
  rw [foldl_olderFirst]
  have hle : ∀ t ∈ pendingTimes items, t ≤ tstampMax := fun t h => pendingTimes_le h
  cases hp : pendingTimes items with
  | nil => rfl
  | cons t ts =>
    have ht := hle t (by rw [hp]; exact List.mem_cons_self)
    rw [List.foldl_cons, Nat.min_eq_right ht]
    rfl

section Window

variable {items : ItemsStore} {limit : Nat}

theorem consume_incl (store : MergeItemStore) (item : MergeItemChunk) (acc : InclState) :
    (store.consume item limit acc).2.incl = acc.incl := by
  unfold MergeItemStore.consume
  dsimp only
  split
  · rfl
  · split <;> rfl

theorem contribute_incl (store : MergeItemStore) (srcid : Nat) (acc : InclState) :
    (store.contribute srcid limit acc).2.incl.length =
      acc.incl.length + if ∃ item ∈ store.first, item.tstamp ≤ limit then 1 else 0 := by
  unfold MergeItemStore.contribute
  cases hf : store.first with
  | none => simp
  | some item =>
    by_cases hlt : item.tstamp > limit
    · simp [hlt, Nat.not_le.mpr hlt]
    · simp [hlt, Nat.not_lt.mp hlt, consume_incl]

theorem contributeAll_incl (srcid : Nat) (acc : InclState) :
    (contributeAll limit srcid items acc).2.incl.length =
      acc.incl.length + ((pendingTimes items).filter (· ≤ limit)).length := by
  induction items generalizing srcid acc with
  | nil => rfl
  | cons store items ih =>
    cases store with
    | none =>
      simp only [contributeAll, pendingTimes, List.filterMap_cons, Option.bind_none,
        Option.map_none]
      exact ih (srcid + 1) acc
    | some store =>
      simp only [contributeAll]
      rw [ih, contribute_incl]
      unfold pendingTimes
      rw [List.filterMap_cons]
      cases hf : store.first with
      | none => simp [hf]
      | some item =>
        by_cases hle : item.tstamp ≤ limit
        · simp [hf, hle]
          omega
        · simp [hf, hle]

end Window

section Rounds

variable {window : Nat} {items : ItemsStore}

theorem oldestPending_mem {t : Nat} (h : oldestPending items = some t) :
    t ∈ pendingTimes items ∧ ∀ u ∈ pendingTimes items, t ≤ u :=
  List.min?_eq_some_iff.mp h

theorem wrapped_window_empty {t : Nat} (h : oldestPending items = some t) (hw : window < 2 ^ 64)
    (hbig : tstampMax < t + window) :
    (contributeAll ((t + window) % 2 ^ 64) 0 items ⟨[], none, 0, tstampMax⟩).2.incl.length = 0 := by
  obtain ⟨hmem, hmin⟩ := oldestPending_mem h
  have ht := pendingTimes_le hmem
  have hlt : (t + window) % 2 ^ 64 < t := by
    unfold tstampMax at ht hbig
    rw [show t + window = t + window - 2 ^ 64 + 2 ^ 64 by omega, Nat.add_mod_right,
      Nat.mod_eq_of_lt (by omega)]
    omega
  rw [contributeAll_incl]
  have hnone : (pendingTimes items).filter (· ≤ (t + window) % 2 ^ 64) = [] := by
    apply List.filter_eq_nil_iff.mpr
    intro u hu
    have := hmin u hu
    simp only [decide_eq_true_eq]
    omega
  rw [hnone]
  rfl

theorem exact_window_nonempty {t : Nat} (h : oldestPending items = some t) :
    (contributeAll (t + window) 0 items ⟨[], none, 0, tstampMax⟩).2.incl.length ≠ 0 := by
  obtain ⟨hmem, -⟩ := oldestPending_mem h
  have hin : t ∈ (pendingTimes items).filter (· ≤ t + window) := by
    apply List.mem_filter.mpr
    exact ⟨hmem, by simp⟩
  have hpos := List.length_pos_of_mem hin
  rw [contributeAll_incl]
  omega

theorem flush_round_iff (hw : window < 2 ^ 64) :
    extMergeSortUntil window items tstampMax = sortUntilUnbounded window items none ↔
      ∀ t ∈ oldestPending items, t < tstampMax ∧ t + window ≤ tstampMax := by
  unfold extMergeSortUntil sortUntilUnbounded
  rw [findOldest_eq_pending]
  cases h : oldestPending items with
  | none => simp
  | some t =>
    have ht := pendingTimes_le (oldestPending_mem h).1
    simp only [Option.getD_some, Option.mem_def, reduceCtorEq, false_and, exists_false, if_false,
      Option.some.injEq, forall_eq']
    constructor
    · intro heq
      by_cases hmax : t ≥ tstampMax
      · rw [if_pos hmax] at heq
        cases heq
      · rw [if_neg hmax] at heq
        refine ⟨Nat.not_le.mp hmax, ?_⟩
        by_contra hbig
        have hempty := wrapped_window_empty h hw (Nat.not_le.mp hbig)
        have hne := @exact_window_nonempty window items t h
        have hincl := congrArg (fun r => (r.map fun x => x.1.incl.length).getD 0) heq
        dsimp only [Option.map_some, Option.getD_some] at hincl
        omega
    · rintro ⟨hlt, hwin⟩
      have hmod : (t + window) % 2 ^ 64 = t + window := by
        unfold tstampMax at hwin
        exact Nat.mod_eq_of_lt (by omega)
      rw [if_neg (Nat.not_le.mpr hlt), hmod]

theorem insert_round_iff {tstamp : Nat} (ht : tstamp < 2 ^ 64) (hw : window < 2 ^ 64) :
    extMergeSortUntil window items ((tstamp + 2 ^ 64 - window) % 2 ^ 64) =
        sortUntilUnbounded window items (some (tstamp - window)) ↔
      ∀ t ∈ oldestPending items, window ≤ tstamp ∨ tstamp + 2 ^ 64 ≤ t + window := by
  unfold extMergeSortUntil sortUntilUnbounded
  rw [findOldest_eq_pending]
  have hmax : (tstamp + 2 ^ 64 - window) % 2 ^ 64 ≤ tstampMax := by
    have := Nat.mod_lt (tstamp + 2 ^ 64 - window) (show 0 < 2 ^ 64 by omega)
    unfold tstampMax
    omega
  cases h : oldestPending items with
  | none =>
    rw [Option.getD_none, if_pos hmax]
    simp
  | some t =>
    simp only [Option.getD_some, Option.mem_def, Option.some.injEq, exists_eq_left', forall_eq']
    by_cases hle : window ≤ tstamp
    · have hbound : (tstamp + 2 ^ 64 - window) % 2 ^ 64 = tstamp - window := by
        rw [show tstamp + 2 ^ 64 - window = tstamp - window + 2 ^ 64 by omega, Nat.add_mod_right,
          Nat.mod_eq_of_lt (by omega)]
      rw [hbound]
      by_cases hge : t ≥ tstamp - window
      · rw [if_pos hge, if_pos (show (t : Int) ≥ tstamp - window by omega)]
        simp [hle]
      · have hmod : (t + window) % 2 ^ 64 = t + window := Nat.mod_eq_of_lt (by omega)
        rw [if_neg hge, if_neg (show ¬ (t : Int) ≥ tstamp - window by omega), hmod]
        simp [hle]
    · have hbound : (tstamp + 2 ^ 64 - window) % 2 ^ 64 = tstamp + 2 ^ 64 - window :=
        Nat.mod_eq_of_lt (by omega)
      rw [hbound, if_pos (show (t : Int) ≥ tstamp - window by omega)]
      constructor
      · intro heq
        right
        by_contra hlt
        rw [if_neg (by omega)] at heq
        cases heq
      · rintro (hle' | hge)
        · exact absurd hle' hle
        · exact if_pos (by omega)

end Rounds

/-- The comparisons are exact if the horizon of the event does not wrap (or nothing is old enough
for the wrapped one), and no group has its window reach beyond the largest time. -/
theorem sortsExactly_iff (window : UInt32) (items : ItemsStore) (event : MergeEvent) :
    SortsExactly window.toNat items event ↔
      (∀ t ∈ oldestPending items,
        window.toNat ≤ event.tstamp ∨ event.tstamp + 2 ^ 64 ≤ t + window.toNat) ∧
      ∀ items', SortedTo window.toNat none items items' → ∀ t ∈ oldestPending items',
        t < tstampMax ∧ t + window.toNat ≤ tstampMax := by
  have hw : window.toNat < 2 ^ 64 := Nat.lt_trans window.toNat_lt (by omega)
  have ht := event.tstamp_lt
  unfold SortsExactly
  constructor
  · rintro ⟨hins, hall⟩
    refine ⟨(insert_round_iff ht hw).mp (hins items (.refl items)), ?_⟩
    intro items' hreach
    exact (flush_round_iff hw).mp (hall items' hreach)
  · rintro ⟨hins, hall⟩
    refine ⟨?_, fun items' hreach => (flush_round_iff hw).mpr (hall items' hreach)⟩
    intro items' hreach
    apply (insert_round_iff ht hw).mpr
    by_cases hle : window.toNat ≤ event.tstamp
    · exact fun _ _ => .inl hle
    · -- no round is made with a horizon below zero
      cases hreach with
      | refl => exact hins
      | round hround _ =>
        unfold sortUntilUnbounded at hround
        split at hround
        · cases hround
        · rw [if_pos ⟨_, rfl, by omega⟩] at hround
          cases hround

def heldAfter (window : Nat) (event : MergeEvent) : ItemsStore :=
  ((extMergeInsertChunk 0 window [] event).map Prod.snd).getD []

theorem sorts_not_exactly :
    ¬ SortsExactly 100 (heldAfter 100 ⟨0, 50, 1, [], [7], by decide, by decide⟩)
        ⟨1, 60, 1, [], [7], by decide, by decide⟩ ∧
      ¬ SortsExactly 100 (heldAfter 100 ⟨0, tstampMax, 1, [], [7], by decide, by decide⟩)
        ⟨1, 200, 1, [], [7], by decide, by decide⟩ := by
  constructor
  · rintro ⟨hins, -⟩
    have h := (insert_round_iff (by decide) (by decide)).mp (hins _ (.refl _)) 50 (by decide +kernel)
    revert h
    decide
  · rintro ⟨-, hall⟩
    have h := (flush_round_iff (by decide)).mp (hall _ (.refl _)) tstampMax (by decide +kernel)
    exact absurd h.1 (Nat.lt_irrefl _)

end Ucesb
