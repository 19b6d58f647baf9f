import Ucesb.MergeInsert
import Ucesb.Runs

namespace Ucesb

/-- Offline stitching: the oldest pending event is joined by the first event of every other source
that is within the window, again and again. -/
def greedyStitch (window n : Nat) (seqs : Nat → List MergeEvent) :
    List (Stitched MergeEvent Nat) :=
  stitchAll MergeEvent.tstamp window (List.range n)
    (itemCount (List.range n) fun i => (seqs i).map Queued.fresh)
    fun i => (seqs i).map Queued.fresh

def arrivals (events : List MergeEvent) (i : Nat) : List MergeEvent :=
  events.filter fun e => e.srcid = i

def insertStep (fresh : UInt8) (window : Nat) (items : ItemsStore) (event : MergeEvent) :
    Option ItemsStore :=
  (extMergeInsertChunk fresh window items event).map Prod.snd

/-- An event with multi-event number at most 1 comes after all events with a smaller time. -/
def InOrder (events : List MergeEvent) : Prop :=
  events.Pairwise fun e later => e.meventno ≤ 1 → e.tstamp ≤ later.tstamp

theorem arrivals_cons (e : MergeEvent) (events : List MergeEvent) (i : Nat) :
    arrivals (e :: events) i = (if e.srcid = i then [e] else []) ++ arrivals events i := by
  unfold arrivals
  rw [List.filter_cons]
  by_cases h : e.srcid = i
  · simp [h]
  · simp [h]

theorem stitchBelow_range {bound fuel window n m : Nat} {qs : Nat → List (Queued MergeEvent)}
    (hn : ∀ i, n ≤ i → qs i = []) (hm : ∀ i, m ≤ i → qs i = []) :
    stitchBelow MergeEvent.tstamp window (List.range n) bound fuel qs =
      stitchBelow MergeEvent.tstamp window (List.range m) bound fuel qs := by
  rcases Nat.le_total n m with h | h
  · obtain ⟨k, rfl⟩ := Nat.exists_eq_add_of_le h
    rw [List.range_add]
    refine (stitchBelow_ids ?_).symm
    intro i hi
    obtain ⟨j, _, rfl⟩ := List.mem_map.mp hi
    exact hn _ (Nat.le_add_right _ _)
  · obtain ⟨k, rfl⟩ := Nat.exists_eq_add_of_le h
    rw [List.range_add]
    apply stitchBelow_ids
    intro i hi
    obtain ⟨j, _, rfl⟩ := List.mem_map.mp hi
    exact hm _ (Nat.le_add_right _ _)

theorem ItemsRep.beyond {items : ItemsStore} {qs : Nat → List (Queued MergeEvent)}
    (h : ItemsRep 0 items qs) (i : Nat) (hi : items.length ≤ i) : qs i = [] := by
  have hj := h i
  rw [Nat.zero_add, List.getD_eq_getElem?_getD, List.getElem?_eq_none hi] at hj
  exact hj

theorem itemCount_range_le {n m : Nat} {qs : Nat → List (Queued MergeEvent)}
    (h : ∀ i, m ≤ i → qs i = []) :
    itemCount (List.range n) qs ≤ itemCount (List.range m) qs := by
  unfold itemCount
  rcases Nat.le_total n m with hle | hle
  · obtain ⟨k, rfl⟩ := Nat.exists_eq_add_of_le hle
    rw [List.range_add, List.map_append, List.sum_append]
    omega
  · obtain ⟨k, rfl⟩ := Nat.exists_eq_add_of_le hle
    have hz : (((List.range k).map (m + ·)).map fun i => (qs i).length).sum = 0 := by
      apply List.sum_eq_zero
      intro x hx
      obtain ⟨i, hi, rfl⟩ := List.mem_map.mp hx
      obtain ⟨j, _, rfl⟩ := List.mem_map.mp hi
      rw [h _ (Nat.le_add_right _ _)]
      rfl
    rw [List.range_add, List.map_append, List.sum_append, hz]
    omega

theorem extMergeSortAll_spec {window n : Nat} (hw : 0 < window) {items : ItemsStore}
    {qs : Nat → List (Queued MergeEvent)} (h : ItemsRep 0 items qs) (ht : Timely window qs)
    (hn : ∀ i, n ≤ i → qs i = []) :
    extMergeSortAll window items = some ((stitchAll MergeEvent.tstamp window (List.range n)
      (itemCount (List.range n) qs) qs).map mergedOf) := by
  have hcount := itemCount_le_pendingBytes h
  rw [← List.range_eq_range'] at hcount
  have hle := @itemCount_range_le n items.length qs h.beyond
  unfold extMergeSortAll
  rw [extMergeSortAllUntil_spec (le_refl _) h ht (Nat.lt_succ_of_le hcount),
    stitchBelow_range h.beyond hn, stitchBelow_all (by omega)]
  intro i _ x hx
  have := ht i x hx
  omega

theorem sortFor_spec {window : Nat} (hw : 0 < window) {items : ItemsStore}
    {qs : Nat → List (Queued MergeEvent)} (h : ItemsRep 0 items qs) (ht : Timely window qs)
    {event : MergeEvent} (hwe : window ≤ event.tstamp) :
    ∃ bound fuel items', sortFor window items event =
        some ((stitchBelow MergeEvent.tstamp window (List.range items.length) bound fuel qs).1.map
          mergedOf, items') ∧
      ItemsRep 0 items'
        (stitchBelow MergeEvent.tstamp window (List.range items.length) bound fuel qs).2 ∧
      (bound = 0 ∨ event.meventno ≤ 1 ∧ bound + window = event.tstamp) := by
  unfold sortFor
  by_cases hm : event.meventno ≤ 1
  · have hts := event.tstamp_lt
    have hbound : (event.tstamp + 2 ^ 64 - window) % 2 ^ 64 = event.tstamp - window := by
      rw [show event.tstamp + 2 ^ 64 - window = event.tstamp - window + 2 ^ 64 by omega,
        Nat.add_mod_right, Nat.mod_eq_of_lt (by omega)]
    have hcount := itemCount_le_pendingBytes h
    rw [← List.range_eq_range'] at hcount
    obtain ⟨items', he, _, hrep⟩ := @sortBefore_spec window (event.tstamp - window) hw
      (by unfold tstampMax; omega) _ items qs h ht (Nat.lt_succ_of_le hcount)
    rw [if_pos hm, hbound]
    exact ⟨event.tstamp - window, pendingBytes items + 1, items', he, hrep, .inr ⟨hm, by omega⟩⟩
  · rw [if_neg hm]
    exact ⟨0, 0, items, rfl, h, .inl rfl⟩

theorem mem_stitchBelow {window bound fuel : Nat} {ids : List Nat}
    {qs : Nat → List (Queued MergeEvent)} {i : Nat} {x : Queued MergeEvent}
    (h : x ∈ (stitchBelow MergeEvent.tstamp window ids bound fuel qs).2 i) :
    ∃ y ∈ qs i, y.item = x.item := by
  induction fuel generalizing qs with
  | zero => exact ⟨x, h, rfl⟩
  | succ fuel ih =>
    unfold stitchBelow at h
    cases hold : oldestHead MergeEvent.tstamp ids qs with
    | none =>
      rw [hold] at h
      exact ⟨x, h, rfl⟩
    | some t0 =>
      rw [hold] at h
      dsimp only at h
      split at h
      · obtain ⟨y, hy, hyx⟩ := ih h
        obtain ⟨z, hz, hzy⟩ := mem_afterJoin hy
        exact ⟨z, hz, hzy.trans hyx⟩
      · exact ⟨x, h, rfl⟩

def Mergeable (window n : Nat) (events : List MergeEvent) : Prop :=
  ∀ e ∈ events, e.srcid < n ∧ window ≤ e.tstamp ∧ e.tstamp + window ≤ tstampMax

theorem extMergeInsertChunk_spec {fresh : UInt8} {window n : Nat} (hw : 0 < window)
    {items : ItemsStore} {qs : Nat → List (Queued MergeEvent)} (h : ItemsRep 0 items qs)
    (ht : Timely window qs) (hn : ∀ i, n ≤ i → qs i = []) {event : MergeEvent}
    (hwe : window ≤ event.tstamp) (hfit : insertFits window items event = true) :
    ∃ bound fuel items', extMergeInsertChunk fresh window items event =
        some ((stitchBelow MergeEvent.tstamp window (List.range n) bound fuel qs).1.map mergedOf,
          items') ∧
      ItemsRep 0 items' (Function.update
        (stitchBelow MergeEvent.tstamp window (List.range n) bound fuel qs).2 event.srcid
        ((stitchBelow MergeEvent.tstamp window (List.range n) bound fuel qs).2 event.srcid ++
          [Queued.fresh event])) ∧
      (bound = 0 ∨ event.meventno ≤ 1 ∧ bound + window = event.tstamp) := by
  obtain ⟨bound, fuel, items1, hsort, hrep1, hbound⟩ := sortFor_spec hw h ht hwe
  rw [stitchBelow_range h.beyond hn] at hsort hrep1
  unfold insertFits at hfit
  rw [hsort] at hfit
  simp only [Bool.and_eq_true, decide_eq_true_eq, Bool.not_eq_true'] at hfit
  have hens := hrep1.ensure event.srcid
  obtain ⟨store, hins, hst⟩ :=
    (hens.storeOf event.srcid).insert_spec fresh event hfit.1 hfit.2
  refine ⟨bound, fuel, _, ?_, hens.set (ensureItemsStore_length event.srcid_lt) hst, hbound⟩
  unfold extMergeInsertChunk
  simp only [hsort, Option.bind_eq_bind, Option.bind_some, hins]
  rfl

theorem extMergeRun_spec {fresh : UInt8} {window n : Nat} (hw : 0 < window)
    {items : ItemsStore} {qs : Nat → List (Queued MergeEvent)} {events : List MergeEvent}
    (h : ItemsRep 0 items qs) (ht : Timely window qs) (hn : ∀ i, n ≤ i → qs i = [])
    (he : Mergeable window n events) (ho : InOrder events)
    (hm : StepsMeet (insertStep fresh window) (fun items e => insertFits window items e = true)
      items events) :
    extMergeRun fresh window items events = some ((stitchAll MergeEvent.tstamp window (List.range n)
      (itemCount (List.range n) fun i => qs i ++ (arrivals events i).map Queued.fresh)
      fun i => qs i ++ (arrivals events i).map Queued.fresh).map mergedOf) := by
  induction events generalizing items qs with
  | nil =>
    have hq : (fun i => qs i ++ (arrivals [] i).map Queued.fresh) = qs := by
      funext i
      exact List.append_nil _
    rw [hq]
    exact extMergeSortAll_spec hw h ht hn
  | cons e events ih =>
    obtain ⟨hid, hwe, hmax⟩ := he e List.mem_cons_self
    obtain ⟨bound, fuel, items', hins, hrep, hbound⟩ :=
      @extMergeInsertChunk_spec fresh window n hw items qs h ht hn e hwe hm.1
    generalize hr : stitchBelow MergeEvent.tstamp window (List.range n) bound fuel qs = r at *
    have hmem : ∀ {i : Nat} {x : Queued MergeEvent}, x ∈ r.2 i → ∃ y ∈ qs i, y.item = x.item := by
      intro i x hx
      rw [← hr] at hx
      exact mem_stitchBelow hx
    -- the event has been put behind what is left of its queue
    have ht' : Timely window (Function.update r.2 e.srcid (r.2 e.srcid ++ [Queued.fresh e])) := by
      intro i x hx
      have hcase : x ∈ r.2 i ∨ x = Queued.fresh e := by
        by_cases hi : i = e.srcid
        · subst hi
          rw [Function.update_self] at hx
          simpa using hx
        · rw [Function.update_of_ne hi] at hx
          exact .inl hx
      rcases hcase with hx | rfl
      · obtain ⟨y, hy, hyx⟩ := hmem hx
        rw [← hyx]
        exact ht i y hy
      · exact hmax
    have hn' : ∀ i, n ≤ i →
        Function.update r.2 e.srcid (r.2 e.srcid ++ [Queued.fresh e]) i = [] := by
      intro i hi
      rw [Function.update_of_ne (by omega)]
      apply List.eq_nil_iff_forall_not_mem.mpr
      intro x hx
      obtain ⟨y, hy, _⟩ := hmem hx
      rw [hn i hi] at hy
      cases hy
    have hqueues : (fun i => Function.update r.2 e.srcid (r.2 e.srcid ++ [Queued.fresh e]) i ++
        (arrivals events i).map Queued.fresh) =
        fun i => r.2 i ++ (arrivals (e :: events) i).map Queued.fresh := by
      funext i
      rw [arrivals_cons]
      by_cases hi : e.srcid = i
      · subst hi
        rw [Function.update_self, if_pos rfl]
        simp
      · rw [Function.update_of_ne (Ne.symm hi), if_neg hi]
        rfl
    have hmeet := hm.2 items' (by unfold insertStep; rw [hins]; rfl)
    have hrest := ih hrep ht' hn' (fun x hx => he x (List.mem_cons_of_mem _ hx))
      (List.pairwise_cons.mp ho).2 hmeet
    rw [hqueues] at hrest
    -- nothing that is still to come would have joined the events emitted now
    have hlate : ∀ i, ∀ x ∈ (arrivals (e :: events) i).map Queued.fresh,
        bound + window ≤ x.item.tstamp := by
      intro i x hx
      obtain ⟨y, hy, rfl⟩ := List.mem_map.mp hx
      have hye : y ∈ e :: events := (List.mem_filter.mp hy).1
      have hwy := (he y hye).2.1
      show bound + window ≤ y.tstamp
      rcases hbound with hz | ⟨hno, hb⟩
      · omega
      · rcases List.mem_cons.mp hye with rfl | hy'
        · omega
        · have := (List.pairwise_cons.mp ho).1 y hy' hno
          omega
    have hall := @stitchAll_of_below MergeEvent Nat MergeEvent.tstamp window (List.range n) qs bound
      fuel _ hlate
    rw [hr] at hall
    unfold extMergeRun
    simp only [hins, Option.bind_eq_bind, Option.bind_some, hrest]
    rw [hall, List.map_append]
    rfl

theorem queueItems_arrivals {n : Nat} {events : List MergeEvent} (h : ∀ e ∈ events, e.srcid < n) :
    (queueItems (List.range n) fun i => (arrivals events i).map Queued.fresh).Perm
      (events.map fun e => (e.srcid, e)) := by
  induction events with
  | nil =>
    have hz : queueItems (List.range n) (fun i => (arrivals [] i).map Queued.fresh) = [] :=
      List.flatMap_eq_nil_iff.mpr fun i _ => rfl
    rw [hz]
    exact List.Perm.refl _
  | cons e events ih =>
    have hrest := ih fun x hx => h x (List.mem_cons_of_mem _ hx)
    obtain ⟨before, after, hsplit⟩ := List.append_of_mem (List.mem_range.mpr (h e List.mem_cons_self))
    have hnodup : (before ++ e.srcid :: after).Nodup := by
      rw [← hsplit]
      exact List.nodup_range
    have hne : ∀ i, (i ∈ before ∨ i ∈ after) → e.srcid ≠ i := by
      intro i hi heq
      subst heq
      obtain ⟨_, hafter, hdisj⟩ := List.nodup_append.mp hnodup
      rcases hi with hi | hi
      · exact hdisj _ hi _ List.mem_cons_self rfl
      · exact (List.nodup_cons.mp hafter).1 hi
    have hsame : ∀ l : List Nat, (∀ i ∈ l, e.srcid ≠ i) →
        (l.flatMap fun i => ((arrivals (e :: events) i).map Queued.fresh).map fun x => (i, x.item)) =
        l.flatMap fun i => ((arrivals events i).map Queued.fresh).map fun x => (i, x.item) := by
      intro l hl
      apply List.flatMap_congr
      intro i hi
      rw [arrivals_cons, if_neg (hl i hi)]
      rfl
    unfold queueItems at hrest ⊢
    rw [hsplit, List.flatMap_append, List.flatMap_cons] at hrest ⊢
    rw [hsame before fun i hi => hne i (.inl hi), hsame after fun i hi => hne i (.inr hi)]
    dsimp only
    rw [arrivals_cons, if_pos rfl]
    simp only [List.map_cons, List.cons_append]
    refine (List.perm_middle).trans ?_
    exact List.Perm.cons _ hrest

/-- What is emitted over a whole run is the greedy stitching of what each source has sent,
whatever the order of arrival, and every event is in one of the emitted ones. -/
theorem extMergeRun_greedy (fresh : UInt8) {window n : Nat} (hw : 0 < window)
    {seqs : Nat → List MergeEvent} {events : List MergeEvent}
    (hseqs : ∀ i, arrivals events i = seqs i) (he : Mergeable window n events)
    (ho : InOrder events)
    (hm : StepsMeet (insertStep fresh window) (fun items e => insertFits window items e = true)
      [] events) :
    extMergeRun fresh window [] events = some ((greedyStitch window n seqs).map mergedOf) ∧
      ((greedyStitch window n seqs).flatMap Stitched.members).Perm
        (events.map fun e => (e.srcid, e)) := by
  have hempty : ItemsRep 0 [] fun _ => [] := fun j => rfl
  have hnone : Timely window fun _ => [] := by
    intro i x hx
    cases hx
  have hrun := extMergeRun_spec hw hempty hnone (fun _ _ => rfl) he ho hm
  simp only [List.nil_append] at hrun
  obtain rfl : arrivals events = seqs := funext hseqs
  constructor
  · exact hrun
  · exact (stitchAll_members (le_refl _)).trans (queueItems_arrivals fun e h => (he e h).1)

/-- Two sources; the second event of source 0 is within the window of its first one. -/
def demoEvent (srcid : Fin 2) (tstamp : Fin 256) (meventno : Nat) (pre data : List UInt8) :
    MergeEvent :=
  ⟨srcid, tstamp, meventno, pre, data, by omega, by omega⟩

def stitchDemo : List MergeEvent :=
  [demoEvent 0 100 1 [1] [2, 3], demoEvent 0 105 2 [4] [5], demoEvent 1 108 1 [6] [7],
    demoEvent 0 140 1 [8] [9]]

theorem extMergeRun_greedy_demo :
    extMergeRun 0 10 [] stitchDemo =
        some ((greedyStitch 10 2 (arrivals stitchDemo)).map mergedOf) ∧
      ((greedyStitch 10 2 (arrivals stitchDemo)).flatMap Stitched.members).Perm
        (stitchDemo.map fun e => (e.srcid, e)) :=
  extMergeRun_greedy 0 (by decide) (fun _ => rfl)
    (by unfold Mergeable; decide) (by unfold InOrder; decide)
    (stepsMeet_of_check (by decide +kernel))

def heldData : List UInt8 :=
  List.replicate 380 0 ++ encodeChunk ⟨300, 0, 1980, 0⟩ ++ List.replicate 1580 0

def moveDemo : List MergeEvent :=
  [demoEvent 0 100 1 [] (List.replicate 1980 0), demoEvent 0 200 2 [] heldData,
    demoEvent 1 150 1 [] [0], demoEvent 0 250 3 [] (List.replicate 380 0)]

theorem extMergeRun_emits_stale :
    Mergeable 10 2 moveDemo ∧ InOrder moveDemo ∧
      (∀ i < 2, (arrivals moveDemo i).Pairwise fun e later => e.tstamp ≤ later.tstamp) ∧
      extMergeRun 0 10 [] moveDemo ≠
        some ((greedyStitch 10 2 (arrivals moveDemo)).map mergedOf) := by
  refine ⟨by unfold Mergeable; decide +kernel, by unfold InOrder; decide +kernel,
    by decide +kernel, ?_⟩
  have hrun : (extMergeRun 0 10 [] moveDemo).map List.length = some 5 := by decide +kernel
  have hgreedy : (greedyStitch 10 2 (arrivals moveDemo)).length = 4 := by decide +kernel
  intro h
  rw [h, Option.map_some, List.length_map, hgreedy] at hrun
  cases hrun

end Ucesb
