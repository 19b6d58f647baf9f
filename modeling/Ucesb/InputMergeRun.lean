import Mathlib.Data.List.MinMax
import Ucesb.InputMerge

namespace Ucesb

section Files

variable (conf : MergeConf) (files : List (List InputEvent))

def InputEvent.good (e : InputEvent) : Bool := e.unpack == .ok

def fileOf (i : Nat) : List InputEvent := files[i]?.getD []

def goodOf (i : Nat) : List InputEvent := (fileOf files i).filter InputEvent.good

def InputEvent.time (e : InputEvent) : Nat :=
  match e.stamp with
  | .good timestamp => timestamp
  | _ => 0

def Before (a b : InputEvent) : Prop :=
  match conf.mode with
  | .eventNo => a.number < b.number
  | .time => a.time ≤ b.time

def wrapKey (e : InputEvent) : Nat :=
  match conf.mode with
  | .eventNo => e.number % 2 ^ 32
  | .time => e.time

def Consecutive (a b : InputEvent) : Prop :=
  a.number < b.number ∧ ∀ i, ∀ c ∈ goodOf files i, ¬ (a.number < c.number ∧ c.number < b.number)

def wrapAllowed (prev next : Nat) : Prop :=
  prev < next ∨ (next ≠ prev ∧ next &&& 0xff000000 = 0 ∧ prev &&& 0xff000000 = 0xff000000)

def failing (l : List InputEvent) : Nat := (l.filter fun e => !e.good).length

structure MergeableFiles : Prop where
  stamped : conf.mode = .time → ∀ i, ∀ e ∈ goodOf files i, ∃ t, e.stamp = .good t
  normal : conf.mode = .eventNo → ∀ i, ∀ e ∈ goodOf files i, e.sticky = false
  ordered : ∀ i, (goodOf files i).Pairwise (Before conf)
  distinct : conf.mode = .eventNo → ∀ i j, i ≠ j → ∀ a ∈ goodOf files i, ∀ b ∈ goodOf files j,
    a.number ≠ b.number
  /-- Of as many files as can be open, one is over when a later file begins. -/
  enough : ∀ j (l : List Nat), l.Nodup → l.length = conf.concurrentFiles → (∀ i ∈ l, i < j) →
    ∃ i ∈ l, ∀ a ∈ goodOf files i, ∀ b ∈ goodOf files j, Before conf a b
  /-- The event number wraps only when the files are read one after the other. -/
  wrap : conf.mode = .eventNo → (∀ i, ∀ e ∈ goodOf files i, e.number < 2 ^ 32) ∨
    (conf.concurrentFiles = 1 ∧ ∀ i j, ∀ a ∈ goodOf files i, ∀ b ∈ goodOf files j,
      Consecutive files a b → wrapAllowed (a.number % 2 ^ 32) (b.number % 2 ^ 32))
  errors : conf.allowErrors = true ∨ (files.map failing).sum < 10

end Files

section State

variable (conf : MergeConf) (files : List (List InputEvent)) (st : InputMergeState)

def leftOf (i : Nat) : List InputEvent :=
  if st.next ≤ i then fileOf files i else if i ∈ st.sources then (st.src i).rest else []

def heldOf (i : Nat) : List InputEvent := if i ∈ st.queue then (st.src i).current.toList else []

def pendingOf (i : Nat) : List InputEvent :=
  heldOf st i ++ (leftOf files st i).filter InputEvent.good

def emittedOf (i : Nat) : List InputEvent :=
  (st.emitted.filter fun x => x.1 == i).map Prod.snd

structure SourcesInv : Prop where
  nodup : st.sources.Nodup
  contained : st.sources.Perm (st.need ++ st.queue)
  opened : ∀ i ∈ st.sources, i < st.next
  nextLe : st.next ≤ files.length
  few : st.sources.length ≤ conf.concurrentFiles
  full : st.phase = .loop →
    (st.next < files.length → st.sources.length = conf.concurrentFiles) ∧ st.sources ≠ []
  ended : st.phase = .ended → st.sources = [] ∧ st.next = files.length
  held : ∀ i ∈ st.queue, ∃ e, (st.src i).current = some e ∧
    sortKey conf (st.src i) = wrapKey conf e

structure EmittedInv : Prop where
  conserve : ∀ i, emittedOf st i ++ pendingOf files st i = goodOf files i
  order : ∀ x ∈ st.emitted, ∀ i, ∀ y ∈ pendingOf files st i, Before conf x.2 y
  sorted : st.emitted.Pairwise fun x y => Before conf x.2 y.2
  prev : st.prev = st.emitted.getLast?.map fun x => wrapKey conf x.2

def failsLeft : Nat := ((List.range files.length).map fun i => failing (leftOf files st i)).sum

def readLeft : Nat := ((List.range files.length).map fun i => (leftOf files st i).length).sum

structure InputMergeInv : Prop where
  sources : SourcesInv conf files st
  emitted : EmittedInv conf files st
  errors : conf.allowErrors = true ∨ st.errors + failsLeft files st < 10
  running : st.phase ≠ .aborted

def mergeMeasure : Nat :=
  4 * readLeft files st + 2 * st.queue.length + 3 * (files.length - st.next) +
    2 * st.sources.length + (if st.phase = .outer then 1 else 0)

end State

section Sums

theorem sum_range_update {n k d : Nat} {f g : Nat → Nat} (hk : k < n) (hat : f k = g k + d)
    (h : ∀ i, i ≠ k → f i = g i) :
    ((List.range n).map f).sum = ((List.range n).map g).sum + d := by
  induction n with
  | zero => omega
  | succ n ih =>
    rw [List.range_succ, List.map_append, List.map_append, List.sum_append, List.sum_append]
    simp only [List.map_cons, List.map_nil, List.sum_cons, List.sum_nil, Nat.add_zero]
    by_cases hlast : k = n
    · subst hlast
      have hsame : (List.range k).map f = (List.range k).map g := by
        apply List.map_congr_left
        intro i hi
        exact h i (Nat.ne_of_lt (List.mem_range.mp hi))
      rw [hsame, hat]
      omega
    · rw [ih (by omega), h n (Ne.symm hlast)]
      omega

theorem sum_range_getD (files : List (List InputEvent)) (f : List InputEvent → Nat) :
    ((List.range files.length).map fun i => f (fileOf files i)).sum = (files.map f).sum := by
  induction files with
  | nil => rfl
  | cons l files ih =>
    rw [List.length_cons, List.range_succ_eq_map, List.map_cons, List.sum_cons, List.map_map,
      List.map_cons, List.sum_cons, ← ih]
    rfl

end Sums

section Prepare

variable {conf : MergeConf} {files : List (List InputEvent)}

theorem prepareEvent_frame (conf : MergeConf) (d : SourceEventBase) (e : InputEvent) :
    (prepareEvent conf d e).1.rest = d.rest ∧ (prepareEvent conf d e).1.current = some e := by
  unfold prepareEvent
  dsimp only
  split
  · exact ⟨rfl, rfl⟩
  split
  · split <;> exact ⟨rfl, rfl⟩
  split
  · split <;> exact ⟨rfl, rfl⟩
  split
  · split <;> exact ⟨rfl, rfl⟩
  · split <;> exact ⟨rfl, rfl⟩
  · split <;> exact ⟨rfl, rfl⟩

theorem prepareEvent_bad (conf : MergeConf) (d : SourceEventBase) {e : InputEvent}
    (h : e.good = false) : (prepareEvent conf d e).2 = false := by
  unfold prepareEvent
  dsimp only
  split
  · rfl
  · next hearly =>
    split
    · rfl
    · next hlate =>
      have hne : e.unpack ≠ .ok := by
        intro hok
        rw [InputEvent.good, hok] at h
        cases h
      cases hu : e.unpack with
      | early => exact absurd hu hearly
      | late => exact absurd hu hlate
      | ok => exact absurd hu hne

theorem prepareEvent_good (hm : MergeableFiles conf files) (d : SourceEventBase)
    {e : InputEvent} {i : Nat} (he : e ∈ goodOf files i) : (prepareEvent conf d e).2 = true ∧
      sortKey conf (prepareEvent conf d e).1 = wrapKey conf e := by
  have hok : e.unpack = .ok := by
    have hgood := (List.mem_filter.mp he).2
    simpa [InputEvent.good] using hgood
  unfold prepareEvent
  simp only [hok, reduceCtorEq, if_false]
  cases hmode : conf.mode with
  | eventNo =>
    refine ⟨rfl, ?_⟩
    simp only [sortKey, wrapKey, hmode, hm.normal hmode i e he, Bool.false_eq_true, if_false]
  | time =>
    obtain ⟨t, ht⟩ := hm.stamped hmode i e he
    simp only [ht, sortKey, wrapKey, hmode, InputEvent.time]
    exact ⟨trivial, trivial⟩

end Prepare

section Go

variable {conf : MergeConf} {files : List (List InputEvent)} {st st' : InputMergeState}

theorem EmittedInv.congr (h : EmittedInv conf files st)
    (hpending : ∀ i, pendingOf files st' i = pendingOf files st i)
    (hemitted : st'.emitted = st.emitted) (hprev : st'.prev = st.prev) :
    EmittedInv conf files st' := by
  refine ⟨?_, ?_, ?_, ?_⟩
  · intro i
    rw [emittedOf, hemitted, hpending]
    exact h.conserve i
  · intro x hx i y hy
    rw [hemitted] at hx
    rw [hpending] at hy
    exact h.order x hx i y hy
  · rw [hemitted]
    exact h.sorted
  · rw [hprev, hemitted]
    exact h.prev

theorem pendingOf_congr (hleft : ∀ i, leftOf files st' i = leftOf files st i)
    (hheld : ∀ i, heldOf st' i = heldOf st i) (i : Nat) :
    pendingOf files st' i = pendingOf files st i := by
  rw [pendingOf, hleft, hheld]
  rfl

theorem failsLeft_congr (hleft : ∀ i, leftOf files st' i = leftOf files st i) :
    failsLeft files st' = failsLeft files st := by
  unfold failsLeft
  simp only [hleft]

theorem readLeft_congr (hleft : ∀ i, leftOf files st' i = leftOf files st i) :
    readLeft files st' = readLeft files st := by
  unfold readLeft
  simp only [hleft]

theorem SourcesInv.queue_sub (h : SourcesInv conf files st) {i : Nat} (hi : i ∈ st.queue) :
    i ∈ st.sources :=
  h.contained.mem_iff.mpr (List.mem_append_right _ hi)

theorem SourcesInv.need_sub (h : SourcesInv conf files st) {i : Nat} (hi : i ∈ st.need) :
    i ∈ st.sources :=
  h.contained.mem_iff.mpr (List.mem_append_left _ hi)

theorem SourcesInv.apart (h : SourcesInv conf files st) {i : Nat} (hi : i ∈ st.need) :
    i ∉ st.queue := by
  intro hq
  have hnodup := h.contained.nodup_iff.mp h.nodup
  exact (List.nodup_append.mp hnodup).2.2 i hi i hq rfl

theorem openSource_left (h : SourcesInv conf files st) (i : Nat) :
    leftOf files (openSource files st) i = leftOf files st i := by
  have hnot : st.next ∉ st.sources := fun hmem => Nat.lt_irrefl _ (h.opened _ hmem)
  unfold leftOf openSource setSource
  dsimp only
  by_cases hlt : st.next + 1 ≤ i
  · rw [if_pos hlt, if_pos (by omega)]
  · rw [if_neg hlt]
    by_cases heq : i = st.next
    · subst heq
      rw [if_pos (by simp), if_pos rfl, if_pos (Nat.le_refl _)]
      rfl
    · rw [if_neg (show ¬ st.next ≤ i by omega), if_neg heq]
      simp only [List.mem_append, List.mem_singleton, heq, or_false]

theorem openSource_held (h : SourcesInv conf files st) (i : Nat) :
    heldOf (openSource files st) i = heldOf st i := by
  unfold heldOf openSource setSource
  dsimp only
  split
  · next hq =>
    have hlt := h.opened i (h.queue_sub hq)
    rw [if_neg (by omega)]
  · rfl

theorem openSource_inv (h : InputMergeInv conf files st) (hnext : st.next < files.length)
    (hfew : st.sources.length < conf.concurrentFiles) (hphase : st.phase = .outer) :
    InputMergeInv conf files (openSource files st) ∧
      mergeMeasure files (openSource files st) < mergeMeasure files st := by
  have hs := h.sources
  have hleft := openSource_left hs
  have hheld := openSource_held hs
  have hnot : st.next ∉ st.sources := fun hmem => Nat.lt_irrefl _ (hs.opened _ hmem)
  refine ⟨⟨⟨?_, ?_, ?_, hnext, ?_, ?_, ?_, ?_⟩, ?_, ?_, ?_⟩, ?_⟩
  · exact List.nodup_append.mpr ⟨hs.nodup, by simp, by
      intro a ha b hb
      cases List.mem_singleton.mp hb
      exact fun heq => hnot (heq ▸ ha)⟩
  · exact List.perm_append_comm.trans (hs.contained.cons _)
  · intro i hi
    rcases List.mem_append.mp hi with hi | hi
    · exact Nat.lt_succ_of_lt (hs.opened i hi)
    · cases List.mem_singleton.mp hi
      exact Nat.lt_succ_self _
  · change (st.sources ++ [st.next]).length ≤ _
    rw [List.length_append, List.length_singleton]
    omega
  · intro hloop
    rw [show (openSource files st).phase = st.phase from rfl, hphase] at hloop
    cases hloop
  · intro hend
    rw [show (openSource files st).phase = st.phase from rfl, hphase] at hend
    cases hend
  · intro i hi
    obtain ⟨e, he, hkey⟩ := hs.held i hi
    have hlt := hs.opened i (hs.queue_sub hi)
    have hsrc : (openSource files st).src i = st.src i := by
      simp only [openSource, setSource]
      rw [if_neg (by omega)]
    rw [hsrc]
    exact ⟨e, he, hkey⟩
  · exact h.emitted.congr (pendingOf_congr hleft hheld) rfl rfl
  · rw [failsLeft_congr hleft]
    exact h.errors
  · exact h.running
  · unfold mergeMeasure
    rw [readLeft_congr hleft]
    simp only [openSource, List.length_append, List.length_singleton, hphase, if_true]
    omega

theorem InputMergeInv.enter {phase : MergePhase} (h : InputMergeInv conf files st)
    (hphase : phase ≠ .aborted)
    (hfull : phase = .loop →
      (st.next < files.length → st.sources.length = conf.concurrentFiles) ∧ st.sources ≠ [])
    (hend : phase = .ended → st.sources = [] ∧ st.next = files.length) :
    InputMergeInv conf files { st with phase := phase } :=
  { h with
    sources := { h.sources with full := hfull, ended := hend }
    emitted := h.emitted.congr (fun _ => rfl) rfl rfl
    running := hphase }

theorem InputMergeInv.fewerErrors {n : Nat} (h : InputMergeInv conf files st)
    (hn : n ≤ st.errors) : InputMergeInv conf files { st with errors := n } := by
  refine ⟨{ h.sources with nodup := h.sources.nodup }, h.emitted.congr (fun _ => rfl) rfl rfl, ?_,
    h.running⟩
  rcases h.errors with hallow | hlt
  · exact .inl hallow
  · right
    change n + failsLeft files st < 10
    omega

theorem outerStep_inv (h : InputMergeInv conf files st) (hphase : st.phase = .outer) :
    InputMergeInv conf files (outerStep conf files st) ∧
      mergeMeasure files (outerStep conf files st) < mergeMeasure files st := by
  have hs := h.sources
  have hle := hs.nextLe
  have hfew := hs.few
  have hpos := conf.positive
  unfold outerStep
  split
  · next hopen => exact openSource_inv h hopen.1 hopen.2 hphase
  · next hopen =>
    have hmeasure : ∀ phase, phase ≠ .outer →
        mergeMeasure files { st with phase := phase } < mergeMeasure files st := by
      intro phase hne
      have hleft : readLeft files { st with phase := phase } = readLeft files st := rfl
      unfold mergeMeasure
      rw [hleft]
      simp only [hne, hphase, if_true, if_false]
      omega
    have hlater : st.next < files.length → st.sources.length = conf.concurrentFiles := by
      intro hlt
      by_contra hne
      exact hopen ⟨hlt, by omega⟩
    split
    · next hmore =>
      refine ⟨h.enter (by decide) ?_ (by intro hend; cases hend), hmeasure .loop (by decide)⟩
      intro _
      refine ⟨hlater, ?_⟩
      intro hnone
      rcases hmore with hlt | hsome
      · have hlen := hlater hlt
        rw [hnone, List.length_nil] at hlen
        omega
      · exact hsome hnone
    · next hdone =>
      refine ⟨h.enter (by decide) (by intro hend; cases hend) ?_, hmeasure .ended (by decide)⟩
      intro _
      refine ⟨?_, ?_⟩
      · by_contra hne
        exact hdone (.inr hne)
      · by_contra hne
        exact hdone (.inl (by omega))

theorem resetErrors_inv (h : InputMergeInv conf files st) :
    InputMergeInv conf files (resetErrors conf st) ∧
      mergeMeasure files (resetErrors conf st) = mergeMeasure files st ∧
      (resetErrors conf st).phase = st.phase := by
  unfold resetErrors
  split
  · exact ⟨h.fewerErrors (Nat.zero_le _), rfl, rfl⟩
  · exact ⟨h, rfl, rfl⟩

end Go

section Fetch

variable {conf : MergeConf} {files : List (List InputEvent)} {st : InputMergeState} {i : Nat}
  {need : List Nat}

theorem SourcesInv.taken (h : SourcesInv conf files st) (hneed : st.need = i :: need) :
    i ∈ st.sources ∧ i ∉ st.queue ∧ i < st.next ∧ i < files.length ∧
      st.sources.Perm (i :: (need ++ st.queue)) := by
  have hmem : i ∈ st.need := by
    rw [hneed]
    exact List.mem_cons_self
  have hlt := h.opened i (h.need_sub hmem)
  have hle := h.nextLe
  have hperm := h.contained
  rw [hneed, List.cons_append] at hperm
  exact ⟨h.need_sub hmem, h.apart hmem, hlt, by omega, hperm⟩

theorem closeSource_inv (h : InputMergeInv conf files st) (hphase : st.phase = .loop)
    (hneed : st.need = i :: need) (hrest : (st.src i).rest = []) :
    InputMergeInv conf files (closeSource { st with need := need } i) ∧
      mergeMeasure files (closeSource { st with need := need } i) < mergeMeasure files st := by
  have hs := h.sources
  obtain ⟨hmem, -, hlt, -, hperm⟩ := hs.taken hneed
  have hleft : ∀ k, leftOf files (closeSource { st with need := need } i) k =
      leftOf files st k := by
    intro k
    unfold leftOf closeSource
    dsimp only
    by_cases hk : k = i
    · subst hk
      have hnext : ¬ st.next ≤ k := by omega
      simp only [hnext, hs.nodup.not_mem_erase, hmem, hrest, if_true, if_false]
    · simp only [List.mem_erase_of_ne hk]
  have hlen := List.length_erase_of_mem hmem
  have hpos := List.length_pos_of_mem hmem
  refine ⟨⟨⟨?_, ?_, ?_, hs.nextLe, ?_, ?_, ?_, hs.held⟩, ?_, ?_, ?_⟩, ?_⟩
  · exact hs.nodup.erase _
  · have herase := hperm.erase i
    rwa [List.erase_cons_head] at herase
  · intro k hk
    exact hs.opened k (List.mem_of_mem_erase hk)
  · have hfew := hs.few
    change (st.sources.erase i).length ≤ _
    omega
  · intro hloop
    cases hloop
  · intro hend
    cases hend
  · exact h.emitted.congr (pendingOf_congr hleft fun _ => rfl) rfl rfl
  · rw [failsLeft_congr hleft]
    exact h.errors
  · intro habort
    cases habort
  · unfold mergeMeasure
    rw [readLeft_congr hleft]
    simp only [closeSource, hphase, if_true, reduceCtorEq, if_false]
    omega

theorem leftOf_setSource (files : List (List InputEvent)) {d : SourceEventBase}
    {e : InputEvent} (hmem : i ∈ st.sources) (hlt : i < st.next)
    (hrest : (st.src i).rest = e :: d.rest) {st' : InputMergeState}
    (hnext : st'.next = st.next) (hsources : st'.sources = st.sources)
    (hsrc : st'.src = setSource st.src i d) :
    leftOf files st i = e :: leftOf files st' i ∧
      ∀ k, k ≠ i → leftOf files st' k = leftOf files st k := by
  unfold leftOf
  rw [hnext, hsources, hsrc]
  refine ⟨?_, ?_⟩
  · have hle : ¬ st.next ≤ i := by omega
    simp only [hle, hmem, hrest, setSource, if_true, if_false]
  · intro k hk
    rw [setSource, if_neg hk]

theorem readLeft_update {st' : InputMergeState} {e : InputEvent} (hi : i < files.length)
    (hat : leftOf files st i = e :: leftOf files st' i)
    (hother : ∀ k, k ≠ i → leftOf files st' k = leftOf files st k) :
    readLeft files st = readLeft files st' + 1 := by
  refine sum_range_update hi ?_ ?_
  · rw [hat, List.length_cons]
  · intro k hk
    rw [hother k hk]

theorem failsLeft_update {st' : InputMergeState} {e : InputEvent} (hi : i < files.length)
    (hat : leftOf files st i = e :: leftOf files st' i)
    (hother : ∀ k, k ≠ i → leftOf files st' k = leftOf files st k) :
    failsLeft files st = failsLeft files st' + (if e.good then 0 else 1) := by
  refine sum_range_update hi ?_ ?_
  · rw [hat, failing, List.filter_cons]
    cases e.good
    · rfl
    · rfl
  · intro k hk
    rw [hother k hk]

theorem SourcesInv.read (h : SourcesInv conf files st) (d : SourceEventBase) (errors : Nat)
    {need' queue : List Nat} (hcontained : st.sources.Perm (need' ++ queue))
    (hheld : ∀ k ∈ queue, k ∈ st.queue ∧ k ≠ i ∨ k = i ∧ ∃ e, d.current = some e ∧
      sortKey conf d = wrapKey conf e) :
    SourcesInv conf files { st with
      need := need', queue := queue, errors := errors, src := setSource st.src i d } := by
  refine ⟨h.nodup, hcontained, h.opened, h.nextLe, h.few, h.full, h.ended, ?_⟩
  intro k hk
  dsimp only
  rcases hheld k hk with ⟨hold, hne⟩ | ⟨rfl, hnew⟩
  · rw [setSource, if_neg hne]
    exact h.held k hold
  · rw [setSource, if_pos rfl]
    exact hnew

theorem read_good_inv {d : SourceEventBase} {e : InputEvent} (h : InputMergeInv conf files st)
    (hneed : st.need = i :: need) (hrest : (st.src i).rest = e :: d.rest) (hgood : e.good = true)
    (hcurrent : d.current = some e) (hkey : sortKey conf d = wrapKey conf e)
    {st' : InputMergeState}
    (hst : st' = { st with need := need, queue := i :: st.queue, src := setSource st.src i d }) :
    InputMergeInv conf files st' ∧ mergeMeasure files st' < mergeMeasure files st := by
  have hs := h.sources
  obtain ⟨hmem, hnot, hlt, hfile, hperm⟩ := hs.taken hneed
  have hsrc : st'.src = setSource st.src i d := by rw [hst]
  have hqueue : st'.queue = i :: st.queue := by rw [hst]
  obtain ⟨hat, hother⟩ := leftOf_setSource files hmem hlt hrest
    (show st'.next = st.next by rw [hst]) (show st'.sources = st.sources by rw [hst]) hsrc
  have hread := readLeft_update hfile hat hother
  have hfails := failsLeft_update hfile hat hother
  have hpending : ∀ k, pendingOf files st' k = pendingOf files st k := by
    intro k
    unfold pendingOf heldOf
    rw [hqueue, hsrc]
    by_cases hk : k = i
    · subst hk
      rw [hat, if_pos List.mem_cons_self, if_neg hnot, setSource, if_pos rfl, hcurrent,
        List.filter_cons, if_pos hgood]
      rfl
    · have hiff : k ∈ i :: st.queue ↔ k ∈ st.queue := by simp [hk]
      simp only [hother k hk, setSource, hk, hiff, if_false]
  refine ⟨⟨?_, h.emitted.congr hpending (by rw [hst]) (by rw [hst]), ?_, ?_⟩, ?_⟩
  · rw [hst]
    refine hs.read d st.errors (hperm.trans List.perm_middle.symm) ?_
    intro k hk
    rcases List.mem_cons.mp hk with rfl | hk
    · exact .inr ⟨rfl, e, hcurrent, hkey⟩
    · exact .inl ⟨hk, fun heq => hnot (heq ▸ hk)⟩
  · rcases h.errors with hallow | hbound
    · exact .inl hallow
    · right
      rw [hgood, if_pos rfl, Nat.add_zero] at hfails
      rw [← hfails, hst]
      exact hbound
  · rw [hst]
    exact h.running
  · have hmeasure : mergeMeasure files st' + 2 = mergeMeasure files st := by
      unfold mergeMeasure
      rw [hread, hqueue, hst]
      simp only [List.length_cons]
      omega
    omega

theorem read_bad_inv {d : SourceEventBase} {e : InputEvent} (h : InputMergeInv conf files st)
    (hneed : st.need = i :: need)
    (hrest : (st.src i).rest = e :: d.rest) (hbad : e.good = false)
    {st' : InputMergeState}
    (hst : st' = { st with
      need := i :: need, errors := st.errors + 1, src := setSource st.src i d }) :
    InputMergeInv conf files st' ∧ mergeMeasure files st' < mergeMeasure files st ∧
      (conf.allowErrors = true ∨ st.errors + 1 < 10) := by
  have hs := h.sources
  obtain ⟨hmem, hnot, hlt, hfile, hperm⟩ := hs.taken hneed
  have hsrc : st'.src = setSource st.src i d := by rw [hst]
  have hqueue : st'.queue = st.queue := by rw [hst]
  obtain ⟨hat, hother⟩ := leftOf_setSource files hmem hlt hrest
    (show st'.next = st.next by rw [hst]) (show st'.sources = st.sources by rw [hst]) hsrc
  have hread := readLeft_update hfile hat hother
  have hfails := failsLeft_update hfile hat hother
  rw [hbad] at hfails
  simp only [Bool.false_eq_true, if_false] at hfails
  have hpending : ∀ k, pendingOf files st' k = pendingOf files st k := by
    intro k
    unfold pendingOf heldOf
    rw [hqueue, hsrc]
    by_cases hk : k = i
    · subst hk
      rw [hat, if_neg hnot, if_neg hnot, List.filter_cons, hbad]
      rfl
    · simp only [hother k hk, setSource, hk, if_false]
  refine ⟨⟨?_, h.emitted.congr hpending (by rw [hst]) (by rw [hst]), ?_, ?_⟩, ?_, ?_⟩
  · rw [hst]
    refine hs.read d (st.errors + 1) hperm ?_
    intro k hk
    exact .inl ⟨hk, fun heq => hnot (heq ▸ hk)⟩
  · rcases h.errors with hallow | hbound
    · exact .inl hallow
    · right
      have herrors : st'.errors = st.errors + 1 := by rw [hst]
      omega
  · rw [hst]
    exact h.running
  · have hmeasure : mergeMeasure files st' + 4 = mergeMeasure files st := by
      unfold mergeMeasure
      rw [hread, hqueue, hst]
      simp only
      omega
    omega
  · rcases h.errors with hallow | hbound
    · exact .inl hallow
    · exact .inr (by omega)

theorem fetchSource_inv (hm : MergeableFiles conf files) (h : InputMergeInv conf files st)
    (hphase : st.phase = .loop) (hneed : st.need = i :: need) :
    InputMergeInv conf files (fetchSource conf { st with need := need } i) ∧
      mergeMeasure files (fetchSource conf { st with need := need } i) < mergeMeasure files st := by
  have hs := h.sources
  obtain ⟨hmem, hnot, hlt, hfile, hperm⟩ := hs.taken hneed
  unfold fetchSource
  dsimp only
  split
  · next hrest => exact closeSource_inv h hphase hneed hrest
  · next e rest hrest =>
    obtain ⟨hdrest, hdcurrent⟩ := prepareEvent_frame conf { st.src i with rest := rest } e
    have hbad := prepareEvent_bad conf { st.src i with rest := rest } (e := e)
    have hgood := fun he =>
      prepareEvent_good hm { st.src i with rest := rest } (e := e) (i := i) he
    generalize prepareEvent conf { st.src i with rest := rest } e = prep at *
    obtain ⟨d, ok⟩ := prep
    dsimp only at hdrest hdcurrent hbad hgood ⊢
    have hrest' : (st.src i).rest = e :: d.rest := by rw [hrest, hdrest]
    cases heq : e.good with
    | true =>
      have hin : e ∈ goodOf files i := by
        rw [← h.emitted.conserve i, pendingOf, leftOf, if_neg (by omega), if_pos hmem, hrest,
          List.filter_cons, if_pos heq]
        simp
      obtain ⟨hok, hkey⟩ := hgood hin
      rw [if_pos hok]
      exact read_good_inv h hneed hrest' heq hdcurrent hkey rfl
    | false =>
      obtain ⟨hinv, hless, hfew⟩ := read_bad_inv h hneed hrest' heq rfl
      have hlimit : (!conf.allowErrors && decide (10 ≤ st.errors + 1)) = false := by
        rcases hfew with hallow | hbound
        · rw [hallow]
          rfl
        · rw [decide_eq_false (by omega), Bool.and_false]
      rw [hbad heq, hlimit]
      exact ⟨hinv, hless⟩

end Fetch

section Top

variable {conf : MergeConf} {files : List (List InputEvent)} {st : InputMergeState} {i : Nat}

theorem Before.trans {a b c : InputEvent} (hab : Before conf a b) (hbc : Before conf b c) :
    Before conf a c := by
  cases hmode : conf.mode with
  | eventNo =>
    simp only [Before, hmode] at *
    exact Nat.lt_trans hab hbc
  | time =>
    simp only [Before, hmode] at *
    exact Nat.le_trans hab hbc

theorem pendingOf_sub (h : EmittedInv conf files st) {y : InputEvent}
    (hy : y ∈ pendingOf files st i) : y ∈ goodOf files i := by
  rw [← h.conserve i]
  exact List.mem_append_right _ hy

theorem emitted_sub (h : EmittedInv conf files st) {x : Nat × InputEvent} (hx : x ∈ st.emitted) :
    x.2 ∈ goodOf files x.1 := by
  rw [← h.conserve x.1]
  refine List.mem_append_left _ ?_
  exact List.mem_map.mpr ⟨x, List.mem_filter.mpr ⟨hx, beq_self_eq_true _⟩, rfl⟩

theorem pendingOf_queue (files : List (List InputEvent)) {e : InputEvent} (hi : i ∈ st.queue)
    (he : (st.src i).current = some e) :
    pendingOf files st i = e :: (leftOf files st i).filter InputEvent.good := by
  rw [pendingOf, heldOf, if_pos hi, he]
  rfl

theorem held_before (hm : MergeableFiles conf files) (h : InputMergeInv conf files st)
    {e y : InputEvent} (hi : i ∈ st.queue) (he : (st.src i).current = some e)
    (hy : y ∈ (leftOf files st i).filter InputEvent.good) : Before conf e y := by
  have hordered := hm.ordered i
  rw [← h.emitted.conserve i, pendingOf_queue files hi he] at hordered
  have htail := (List.pairwise_append.mp hordered).2.1
  exact (List.pairwise_cons.mp htail).1 y hy

theorem pendingOf_good_nil {k : Nat} (h : SourcesInv conf files st) (hq : k ∉ st.queue)
    (hneed : st.need = []) (hlt : k < st.next) : pendingOf files st k = [] := by
  have hsources : k ∉ st.sources := by
    intro hmem
    have hin := h.contained.mem_iff.mp hmem
    rw [hneed, List.nil_append] at hin
    exact hq hin
  rw [pendingOf, heldOf, if_neg hq, leftOf, if_neg (by omega), if_neg hsources]
  rfl

theorem top_before_held (hm : MergeableFiles conf files) (h : InputMergeInv conf files st)
    {k : Nat} {e f : InputEvent} (hi : i ∈ st.queue) (he : (st.src i).current = some e)
    (hk : k ∈ st.queue) (hf : (st.src k).current = some f) (hne : k ≠ i)
    (hmin : compareEventsAfter conf (st.src i) (st.src k) = false) : Before conf e f := by
  have hs := h.sources
  have hle : wrapKey conf e ≤ wrapKey conf f := by
    obtain ⟨e', he', hkey⟩ := hs.held i hi
    obtain ⟨f', hf', hkey'⟩ := hs.held k hk
    rw [he] at he'
    rw [hf] at hf'
    cases he'
    cases hf'
    rw [← hkey, ← hkey']
    exact Nat.le_of_not_lt (of_decide_eq_false hmin)
  have hein : e ∈ goodOf files i := pendingOf_sub h.emitted (by
    rw [pendingOf_queue files hi he]
    exact List.mem_cons_self)
  have hfin : f ∈ goodOf files k := pendingOf_sub h.emitted (by
    rw [pendingOf_queue files hk hf]
    exact List.mem_cons_self)
  cases hmode : conf.mode with
  | time =>
    simp only [Before, wrapKey, hmode] at hle ⊢
    exact hle
  | eventNo =>
    simp only [Before, wrapKey, hmode] at hle ⊢
    rcases hm.wrap hmode with hsmall | ⟨hone, -⟩
    · rw [Nat.mod_eq_of_lt (hsmall i e hein), Nat.mod_eq_of_lt (hsmall k f hfin)] at hle
      have hdistinct := hm.distinct hmode i k (Ne.symm hne) e hein f hfin
      omega
    · -- one file at a time: there is no other source
      exfalso
      have hfew := hs.few
      have hisrc := hs.queue_sub hi
      have hksrc := hs.queue_sub hk
      obtain ⟨j, hj⟩ := List.length_eq_one_iff.mp
        (show st.sources.length = 1 by
          have hpos := List.length_pos_of_mem hisrc
          omega)
      rw [hj, List.mem_singleton] at hisrc hksrc
      exact hne (hksrc.trans hisrc.symm)

theorem top_before (hm : MergeableFiles conf files) (h : InputMergeInv conf files st)
    (hphase : st.phase = .loop) (hneed : st.need = []) {e : InputEvent} (hi : i ∈ st.queue)
    (he : (st.src i).current = some e)
    (hmin : ∀ j ∈ st.queue, compareEventsAfter conf (st.src i) (st.src j) = false) {k : Nat}
    {y : InputEvent} (hy : y ∈ pendingOf files st k) :
    (k = i ∧ y = e) ∨ Before conf e y := by
  have hs := h.sources
  have hheld : ∀ j ∈ st.queue, ∃ f, (st.src j).current = some f ∧
      ((j = i ∧ f = e) ∨ Before conf e f) := by
    intro j hj
    obtain ⟨f, hf, -⟩ := hs.held j hj
    refine ⟨f, hf, ?_⟩
    by_cases hji : j = i
    · subst hji
      rw [he] at hf
      cases hf
      exact .inl ⟨rfl, rfl⟩
    · exact .inr (top_before_held hm h hi he hj hf hji (hmin j hj))
  by_cases hk : k ∈ st.queue
  · obtain ⟨f, hf, hle⟩ := hheld k hk
    rw [pendingOf_queue files hk hf] at hy
    rcases List.mem_cons.mp hy with rfl | hy
    · exact hle
    · have hfy := held_before hm h hk hf hy
      rcases hle with ⟨-, rfl⟩ | hlt
      · exact .inr hfy
      · exact .inr (hlt.trans hfy)
  · by_cases hopen : k < st.next
    · rw [pendingOf_good_nil hs hk hneed hopen] at hy
      cases hy
    · -- a file that has not been opened: some open one is over before it begins
      have hyk := pendingOf_sub h.emitted hy
      have hfile : k < files.length := by
        by_contra hge
        rw [goodOf, fileOf, List.getElem?_eq_none (by omega)] at hyk
        cases hyk
      have hfull := (hs.full hphase).1 (by omega)
      obtain ⟨j, hj, hover⟩ := hm.enough k st.sources hs.nodup hfull (by
        intro j hj
        have hlt := hs.opened j hj
        omega)
      have hjq : j ∈ st.queue := by
        have hin := hs.contained.mem_iff.mp hj
        rwa [hneed, List.nil_append] at hin
      obtain ⟨f, hf, hle⟩ := hheld j hjq
      have hfy := hover f (pendingOf_sub h.emitted (by
        rw [pendingOf_queue files hjq hf]
        exact List.mem_cons_self)) y hyk
      rcases hle with ⟨-, rfl⟩ | hlt
      · exact .inr hfy
      · exact .inr (hlt.trans hfy)

theorem checkMergeEventAfter_of_allowed {prev : Nat} {d : SourceEventBase}
    (hallowed : conf.mode = .eventNo → wrapAllowed prev d.eventNo) :
    checkMergeEventAfter conf prev d = true := by
  unfold checkMergeEventAfter
  split
  · next hmode =>
    rcases hallowed hmode with hlt | ⟨hne, hlow, hhigh⟩
    · rw [if_pos hlt]
    · split
      · rfl
      · rw [hlow, hhigh]
        rfl
  · rfl

theorem last_consecutive (hm : MergeableFiles conf files) (h : InputMergeInv conf files st)
    (hmode : conf.mode = .eventNo) (hphase : st.phase = .loop) (hneed : st.need = [])
    {e : InputEvent} (hi : i ∈ st.queue) (he : (st.src i).current = some e)
    (hmin : ∀ j ∈ st.queue, compareEventsAfter conf (st.src i) (st.src j) = false)
    {p : Nat × InputEvent} {l : List (Nat × InputEvent)} (hlast : st.emitted = l ++ [p]) :
    Consecutive files p.2 e := by
  have hbefore : ∀ a b, Before conf a b → a.number < b.number := by
    intro a b hab
    simpa only [Before, hmode] using hab
  have hpin : p ∈ st.emitted := by
    rw [hlast]
    simp
  have hein : e ∈ pendingOf files st i := by
    rw [pendingOf_queue files hi he]
    exact List.mem_cons_self
  refine ⟨hbefore _ _ (h.emitted.order p hpin i e hein), ?_⟩
  rintro k c hc ⟨hpc, hce⟩
  rw [← h.emitted.conserve k] at hc
  rcases List.mem_append.mp hc with hc | hc
  · obtain ⟨x, hx, rfl⟩ := List.mem_map.mp hc
    have hx := (List.mem_filter.mp hx).1
    have hsorted := h.emitted.sorted
    rw [hlast] at hx hsorted
    rcases List.mem_append.mp hx with hx | hx
    · have hxp := (List.pairwise_append.mp hsorted).2.2 x hx p List.mem_cons_self
      have hlt := hbefore _ _ hxp
      omega
    · cases List.mem_singleton.mp hx
      omega
  · rcases top_before hm h hphase hneed hi he hmin hc with ⟨-, rfl⟩ | hec
    · omega
    · have hlt := hbefore _ _ hec
      omega

theorem top_check (hm : MergeableFiles conf files) (h : InputMergeInv conf files st)
    (hphase : st.phase = .loop) (hneed : st.need = []) (hi : i ∈ st.queue)
    (hmin : ∀ j ∈ st.queue, compareEventsAfter conf (st.src i) (st.src j) = false) :
    (st.prev.all fun prev => checkMergeEventAfter conf prev (st.src i)) = true := by
  obtain ⟨e, he, hkey⟩ := h.sources.held i hi
  rw [h.emitted.prev]
  rcases List.eq_nil_or_concat st.emitted with hnil | ⟨l, p, hlast⟩
  · rw [hnil]
    rfl
  · rw [List.concat_eq_append] at hlast
    rw [hlast, List.getLast?_concat]
    refine checkMergeEventAfter_of_allowed ?_
    intro hmode
    have hnext := last_consecutive hm h hmode hphase hneed hi he hmin hlast
    have hpin := emitted_sub h.emitted (x := p) (by
      rw [hlast]
      simp)
    have hein : e ∈ goodOf files i := pendingOf_sub h.emitted (by
      rw [pendingOf_queue files hi he]
      exact List.mem_cons_self)
    simp only [sortKey, wrapKey, hmode] at hkey ⊢
    rw [hkey]
    rcases hm.wrap hmode with hsmall | ⟨-, hwrap⟩
    · left
      rw [Nat.mod_eq_of_lt (hsmall _ _ hpin), Nat.mod_eq_of_lt (hsmall _ _ hein)]
      exact hnext.1
    · exact hwrap _ _ _ hpin _ hein hnext

theorem emittedOf_append {st' : InputMergeState} {x : Nat × InputEvent}
    (h : st'.emitted = st.emitted ++ [x]) (k : Nat) :
    emittedOf st' k = emittedOf st k ++ if x.1 = k then [x.2] else [] := by
  rw [emittedOf, h, List.filter_append, List.map_append]
  refine congrArg (_ ++ ·) ?_
  by_cases hk : x.1 = k
  · simp [hk]
  · simp [hk]

theorem takeEvent_inv (hm : MergeableFiles conf files) (h : InputMergeInv conf files st)
    (hphase : st.phase = .loop) (hneed : st.need = []) (hi : i ∈ st.queue)
    (hmin : ∀ j ∈ st.queue, compareEventsAfter conf (st.src i) (st.src j) = false) :
    InputMergeInv conf files (takeEvent conf { st with queue := st.queue.erase i } i) ∧
      mergeMeasure files (takeEvent conf { st with queue := st.queue.erase i } i) <
        mergeMeasure files st := by
  have hs := h.sources
  obtain ⟨e, he, hkey⟩ := hs.held i hi
  have hnodup : st.queue.Nodup := by
    have hall := hs.contained.nodup_iff.mp hs.nodup
    rwa [hneed, List.nil_append] at hall
  have hpendingi := pendingOf_queue files hi he
  rw [takeEvent, if_pos (top_check hm h hphase hneed hi hmin)]
  dsimp only
  rw [he, hneed]
  generalize hst : InputMergeState.mk _ _ _ _ _ _ _ _ _ = st'
  have hqueue : st'.queue = st.queue.erase i := by rw [← hst]
  have hemitted : st'.emitted = st.emitted ++ [(i, e)] := by
    rw [← hst]
    rfl
  have hleft : ∀ k, leftOf files st' k = leftOf files st k := by
    intro k
    rw [← hst]
    rfl
  have hpending : ∀ k, pendingOf files st k =
      (if i = k then [e] else []) ++ pendingOf files st' k := by
    intro k
    by_cases hk : i = k
    · subst hk
      rw [hpendingi, if_pos rfl, pendingOf, hleft, heldOf, hqueue,
        if_neg hnodup.not_mem_erase]
      rfl
    · have hsame : heldOf st' k = heldOf st k := by
        unfold heldOf
        rw [hqueue, ← hst]
        simp only [List.mem_erase_of_ne (Ne.symm hk)]
      rw [if_neg hk, pendingOf, pendingOf, hleft, hsame]
      rfl
  have hein : e ∈ pendingOf files st i := by
    rw [hpendingi]
    exact List.mem_cons_self
  refine ⟨⟨⟨?_, ?_, ?_, ?_, ?_, ?_, ?_, ?_⟩, ⟨?_, ?_, ?_, ?_⟩, ?_, ?_⟩, ?_⟩
  · rw [← hst]
    exact hs.nodup
  · have hcontained := hs.contained
    rw [hneed, List.nil_append] at hcontained
    rw [hqueue, ← hst]
    exact hcontained.trans (List.perm_cons_erase hi)
  · rw [← hst]
    exact hs.opened
  · rw [← hst]
    exact hs.nextLe
  · rw [← hst]
    exact hs.few
  · rw [← hst]
    exact hs.full
  · rw [← hst]
    exact hs.ended
  · intro k hk
    rw [hqueue] at hk
    rw [← hst]
    exact hs.held k (List.mem_of_mem_erase hk)
  · intro k
    rw [emittedOf_append hemitted, List.append_assoc, ← hpending]
    exact h.emitted.conserve k
  · intro x hx k y hy
    have hyold : y ∈ pendingOf files st k := by
      rw [hpending]
      exact List.mem_append_right _ hy
    rw [hemitted] at hx
    rcases List.mem_append.mp hx with hx | hx
    · exact h.emitted.order x hx k y hyold
    · cases List.mem_singleton.mp hx
      by_cases hk : i = k
      · subst hk
        rw [pendingOf, heldOf, hqueue, if_neg hnodup.not_mem_erase, List.nil_append, hleft] at hy
        exact held_before hm h hi he hy
      · rcases top_before hm h hphase hneed hi he hmin hyold with ⟨hki, -⟩ | hbefore
        · exact absurd hki.symm hk
        · exact hbefore
  · rw [hemitted]
    refine List.pairwise_append.mpr ⟨h.emitted.sorted, List.pairwise_singleton _ _, ?_⟩
    intro x hx y hy
    cases List.mem_singleton.mp hy
    exact h.emitted.order x hx i e hein
  · rw [hemitted, List.getLast?_concat, ← hst]
    exact congrArg some hkey
  · rw [failsLeft_congr hleft, ← hst]
    exact h.errors
  · rw [← hst]
    exact h.running
  · have hlen := List.length_erase_of_mem hi
    have hpos := List.length_pos_of_mem hi
    unfold mergeMeasure
    rw [readLeft_congr hleft, hqueue, ← hst]
    simp only
    omega

end Top

section Run

variable {conf : MergeConf} {files : List (List InputEvent)} {st st' : InputMergeState}

theorem inputMergeStep_inv (hm : MergeableFiles conf files) (a : MergeAction)
    (h : InputMergeInv conf files st) (hstep : inputMergeStep conf files st a = some st') :
    InputMergeInv conf files st' ∧ mergeMeasure files st' < mergeMeasure files st := by
  cases a with
  | go =>
    unfold inputMergeStep at hstep
    dsimp only at hstep
    split at hstep
    · next hphase =>
      cases hstep
      obtain ⟨hreset, hmeasure, hsame⟩ := resetErrors_inv h
      rw [← hmeasure]
      exact outerStep_inv hreset (hsame.trans hphase)
    · next hphase =>
      split at hstep
      · next i need hneed =>
        cases hstep
        exact fetchSource_inv hm h hphase hneed
      · next hneed =>
        split at hstep
        · cases hstep
        · next hqueue =>
          -- the event loop is entered with a source, and left when one is closed
          exfalso
          have hcontained := h.sources.contained
          rw [hneed, not_not.mp hqueue] at hcontained
          exact (h.sources.full hphase).2 hcontained.eq_nil
    · cases hstep
  | top i =>
    unfold inputMergeStep at hstep
    dsimp only at hstep
    split at hstep
    · next hcond =>
      obtain ⟨hphase, hneed, hi, hmin⟩ := hcond
      cases hstep
      exact takeEvent_inv hm h hphase hneed hi hmin
    · cases hstep

theorem inputMergeInit_inv (hm : MergeableFiles conf files) :
    InputMergeInv conf files inputMergeInit := by
  have hleft : ∀ i, leftOf files inputMergeInit i = fileOf files i := by
    intro i
    exact if_pos (Nat.zero_le i)
  refine ⟨⟨List.nodup_nil, List.Perm.refl _, ?_, Nat.zero_le _, Nat.zero_le _, ?_, ?_, ?_⟩,
    ⟨?_, ?_, List.Pairwise.nil, rfl⟩, ?_, by decide⟩
  · intro i hi
    cases hi
  · intro hloop
    cases hloop
  · intro hend
    cases hend
  · intro i hi
    cases hi
  · intro i
    rw [pendingOf, hleft]
    rfl
  · intro x hx
    cases hx
  · rcases hm.errors with hallow | hfew
    · exact .inl hallow
    · right
      rw [failsLeft]
      simp only [hleft]
      rw [sum_range_getD files failing]
      exact (Nat.zero_add _).symm ▸ hfew

theorem inputMerge_progress (h : InputMergeInv conf files st)
    (hstop : ∀ a, inputMergeStep conf files st a = none) : st.phase = .ended := by
  have hgo := hstop .go
  cases hphase : st.phase with
  | outer => simp [inputMergeStep, hphase] at hgo
  | ended => rfl
  | aborted => exact absurd hphase h.running
  | loop =>
    exfalso
    cases hneed : st.need with
    | cons i need => simp [inputMergeStep, hphase, hneed] at hgo
    | nil =>
      have hqueue : st.queue ≠ [] := by
        intro hnil
        have hcontained := h.sources.contained
        rw [hneed, hnil] at hcontained
        exact (h.sources.full hphase).2 hcontained.eq_nil
      have hsome : st.queue.argmin (fun i => sortKey conf (st.src i)) ≠ none :=
        mt List.argmin_eq_none.mp hqueue
      obtain ⟨i, hi⟩ := Option.ne_none_iff_exists'.mp hsome
      have htop := hstop (.top i)
      rw [inputMergeStep, if_pos] at htop
      · cases htop
      · refine ⟨hphase, hneed, List.argmin_mem hi, ?_⟩
        intro j hj
        have hle := List.le_of_mem_argmin hj hi
        exact decide_eq_false (Nat.not_lt.mpr hle)

theorem ended_complete (h : InputMergeInv conf files st) (hend : st.phase = .ended) (i : Nat) :
    leftOf files st i = [] ∧ emittedOf st i = goodOf files i := by
  obtain ⟨hnone, hall⟩ := h.sources.ended hend
  have hqueue : st.queue = [] := by
    have hcontained := h.sources.contained
    rw [hnone] at hcontained
    exact (List.append_eq_nil_iff.mp hcontained.nil_eq.symm).2
  have hleft : leftOf files st i = [] := by
    rw [leftOf, hnone]
    split
    · next hle =>
      rw [fileOf, List.getElem?_eq_none (by omega)]
      rfl
    · rfl
  have hconserve := h.emitted.conserve i
  rw [pendingOf, hleft, heldOf, hqueue] at hconserve
  refine ⟨hleft, ?_⟩
  simpa using hconserve

/-- The files are merged: in every run, what has been handed on is in order, and from each file it is
what has been read of it; each open source is in exactly one of the two containers; a run comes to an
end, and then everything has been handed on. -/
theorem input_files_merged (conf : MergeConf) (files : List (List InputEvent))
    (hm : MergeableFiles conf files) (actions : List MergeAction) (st : InputMergeState)
    (hrun : runSteps (inputMergeStep conf files) inputMergeInit actions = some st) :
    st.phase ≠ .aborted ∧
      (st.sources.Nodup ∧ st.sources.Perm (st.need ++ st.queue)) ∧
      (st.emitted.Pairwise fun x y => Before conf x.2 y.2) ∧
      (∀ i, emittedOf st i <+: goodOf files i) ∧
      actions.length ≤ mergeMeasure files inputMergeInit ∧
      ((∀ a, inputMergeStep conf files st a = none) ↔ st.phase = .ended) ∧
      (st.phase = .ended → st.sources = [] ∧
        ∀ i, leftOf files st i = [] ∧ emittedOf st i = goodOf files i) := by
  have hinit := inputMergeInit_inv hm
  have hstep : ∀ s a s', InputMergeInv conf files s → inputMergeStep conf files s a = some s' →
      InputMergeInv conf files s' ∧ mergeMeasure files s' < mergeMeasure files s :=
    fun s a s' hi h => inputMergeStep_inv hm a hi h
  have h : InputMergeInv conf files st :=
    runSteps_inv (fun s a s' hi h => (hstep s a s' hi h).1) hinit hrun
  have hlength := runSteps_measure hstep hinit hrun
  refine ⟨h.running, ⟨h.sources.nodup, h.sources.contained⟩, h.emitted.sorted, ?_, by omega, ?_,
    ?_⟩
  · intro i
    exact ⟨pendingOf files st i, h.emitted.conserve i⟩
  · refine ⟨inputMerge_progress h, ?_⟩
    intro hend a
    cases a with
    | go => simp [inputMergeStep, hend]
    | top i => simp [inputMergeStep, hend]
  · intro hend
    exact ⟨(h.sources.ended hend).1, ended_complete h hend⟩

def twoAtATime : MergeConf := ⟨.eventNo, 2, by decide, false, false⟩

def numbered (number : Nat) : InputEvent := ⟨false, .ok, number, .missing⟩

def broken (number : Nat) : InputEvent := ⟨false, .late, number, .missing⟩

theorem numbered_files_mergeable :
    MergeableFiles twoAtATime [[numbered 1, broken 2, numbered 4], [numbered 3, numbered 5]] := by
  refine ⟨?_, ?_, ?_, ?_, ?_, ?_, .inr (by decide)⟩
  · intro hmode
    cases hmode
  · intro _ i
    match i with
    | 0 => decide
    | 1 => decide
    | i + 2 =>
      intro e he
      cases he
  · intro i
    match i with
    | 0 => exact (by simp [goodOf, fileOf, InputEvent.good, numbered, broken, Before, twoAtATime])
    | 1 => exact (by simp [goodOf, fileOf, InputEvent.good, numbered, Before, twoAtATime])
    | i + 2 => exact List.Pairwise.nil
  · intro _ i j hij
    match i, j with
    | 0, 0 => exact absurd rfl hij
    | 0, 1 => decide
    | 1, 0 => decide
    | 1, 1 => exact absurd rfl hij
    | i + 2, _ =>
      intro a ha
      cases ha
    | _, j + 2 =>
      intro a _ b hb
      cases hb
  · intro j l hnodup hlen hlt
    obtain ⟨a, b, rfl⟩ := List.length_eq_two.mp hlen
    have ha := hlt a (by simp)
    have hb := hlt b (by simp)
    have hne : a ≠ b := by
      intro heq
      simp [heq] at hnodup
    refine ⟨a, by simp, ?_⟩
    intro _ _ y hy
    match j with
    | 0 => omega
    | 1 => omega
    | j + 2 => cases hy
  · intro _
    left
    intro i
    match i with
    | 0 => decide
    | 1 => decide
    | i + 2 =>
      intro e he
      cases he

theorem input_files_merged_demo :
    MergeableFiles twoAtATime [[numbered 1, broken 2, numbered 4], [numbered 3, numbered 5]] ∧
      ∃ st, runSteps (inputMergeStep twoAtATime
          [[numbered 1, broken 2, numbered 4], [numbered 3, numbered 5]]) inputMergeInit
          [.go, .go, .go, .go, .go, .top 0, .go, .go, .top 1, .go, .top 0, .go, .go, .top 1,
            .go, .go] = some st ∧
        ∀ i, emittedOf st i <+: goodOf
          [[numbered 1, broken 2, numbered 4], [numbered 3, numbered 5]] i := by
  obtain ⟨st, hst⟩ := Option.isSome_iff_exists.mp (show (runSteps (inputMergeStep twoAtATime
    [[numbered 1, broken 2, numbered 4], [numbered 3, numbered 5]]) inputMergeInit
    [.go, .go, .go, .go, .go, .top 0, .go, .go, .top 1, .go, .top 0, .go, .go, .top 1,
      .go, .go]).isSome = true by decide +kernel)
  have hmerged := input_files_merged _ _ numbered_files_mergeable _ st hst
  exact ⟨numbered_files_mergeable, st, hst, hmerged.2.2.2.1⟩

theorem input_files_not_merged :
    (runSteps (inputMergeStep twoAtATime [[numbered 1, numbered 2], [numbered 2]]) inputMergeInit
      [.go, .go, .go, .go, .go, .top 0, .go, .top 0, .go, .go, .top 1]).map
        InputMergeState.phase = some .aborted := by
  decide +kernel

end Run

end Ucesb
