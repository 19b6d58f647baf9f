import Ucesb.StitchOutput

namespace Ucesb

section Marks

variable (conf : LoopConf)

def stitchAfter (events : List LoopEvent) : StitchInfo :=
  events.foldl (fun s e => (stitchEvent conf e s).1) stitchInit

def stitchMark (events : List LoopEvent) (e : LoopEvent) : Bool :=
  (stitchEvent conf e (stitchAfter conf events)).1.combine

def stampDiff (timestamp reference : Nat) : Int :=
  Int.bmod ((timestamp : Int) - reference) (2 ^ 64)

/-- Grouping by the first stamp: the reference is there when the event before had a good stamp. -/
def groupMark (reference : Option Nat) (e : LoopEvent) : Bool :=
  match reference, conf.getTimestamp e with
  | some r, .good timestamp => decide (stampDiff timestamp r < conf.eventStitchValue)
  | _, _ => false

/-- The reference is set when a group starts and stays as long as events are combined. -/
def groupReference (events : List LoopEvent) : Option Nat :=
  events.foldl (fun reference e =>
    match conf.getTimestamp e with
    | .good timestamp => if groupMark conf reference e then reference else some timestamp
    | _ => none) none

def PreviousGood (events : List LoopEvent) : Prop :=
  ∃ e timestamp, events.getLast? = some e ∧ conf.getTimestamp e = .good timestamp

/-- The stamp that is kept when a group starts with an event: for AIDA data its end, unless the
event is in the window already, as a special trigger may be. -/
def openingStamp (events : List LoopEvent) (first : LoopEvent) (timestamp : Nat) : Nat :=
  if conf.aidaNewStitch && first.aidaExtra &&
      !withinStitch conf (stitchAfter conf events) timestamp then
    (timestamp + first.aidaLength) % 2 ^ 64
  else timestamp

variable {conf}

theorem stitchAfter_snoc (events : List LoopEvent) (e : LoopEvent) :
    stitchAfter conf (events ++ [e]) = (stitchEvent conf e (stitchAfter conf events)).1 := by
  simp [stitchAfter]

theorem stitchEvent_good {e : LoopEvent} {timestamp : Nat} (s : StitchInfo)
    (h : conf.getTimestamp e = .good timestamp) :
    (stitchEvent conf e s).1.badstamp = false ∧ (stitchEvent conf e s).1.hasStamp = true ∧
      (stitchEvent conf e s).1.combine =
        (withinStitch conf s timestamp && !specialTrigger conf e) := by
  unfold stitchEvent
  rw [h]
  refine ⟨rfl, ?_, rfl⟩
  dsimp only
  split
  · next hc =>
    simp only [Bool.and_eq_true] at hc
    have hwithin := hc.1
    unfold withinStitch at hwithin
    simp only [Bool.and_eq_true] at hwithin
    exact hwithin.1.1
  · rfl

theorem stitchEvent_not_good {e : LoopEvent} (s : StitchInfo)
    (h : ∀ timestamp, conf.getTimestamp e ≠ .good timestamp) :
    (stitchEvent conf e s).1.badstamp = true ∧ (stitchEvent conf e s).1.combine = false := by
  unfold stitchEvent
  cases hs : conf.getTimestamp e with
  | missing => exact ⟨rfl, rfl⟩
  | bad => exact ⟨rfl, rfl⟩
  | good timestamp => exact absurd hs (h timestamp)

theorem stitchAfter_previous (events : List LoopEvent) :
    ((stitchAfter conf events).hasStamp = true ∧ (stitchAfter conf events).badstamp = false) ↔
      PreviousGood conf events := by
  rcases List.eq_nil_or_concat events with rfl | ⟨before, e, rfl⟩
  · simp [stitchAfter, stitchInit, PreviousGood]
  · rw [List.concat_eq_append, stitchAfter_snoc]
    by_cases hgood : ∃ timestamp, conf.getTimestamp e = .good timestamp
    · obtain ⟨timestamp, hstamp⟩ := hgood
      obtain ⟨hbad, hhas, -⟩ := stitchEvent_good (stitchAfter conf before) hstamp
      simp only [hbad, hhas, and_self, true_iff]
      exact ⟨e, timestamp, by simp, hstamp⟩
    · have hnot : ∀ timestamp, conf.getTimestamp e ≠ .good timestamp :=
        fun timestamp hstamp => hgood ⟨timestamp, hstamp⟩
      have hbad := (stitchEvent_not_good (stitchAfter conf before) hnot).1
      simp only [hbad, Bool.true_eq_false, and_false, false_iff]
      rintro ⟨d, timestamp, hlast, hstamp⟩
      rw [List.getLast?_concat] at hlast
      cases hlast
      exact hnot timestamp hstamp

theorem withinStitch_iff (events : List LoopEvent) (timestamp : Nat) :
    withinStitch conf (stitchAfter conf events) timestamp = true ↔ PreviousGood conf events ∧
      stampDiff timestamp (stitchAfter conf events).lastStamp < conf.eventStitchValue := by
  rw [← stitchAfter_previous]
  simp only [withinStitch, stampDiff, Bool.and_eq_true, Bool.not_eq_true', decide_eq_true_eq]

theorem stitchMark_iff (events : List LoopEvent) (e : LoopEvent) :
    stitchMark conf events e = true ↔ ∃ timestamp, conf.getTimestamp e = .good timestamp ∧
      PreviousGood conf events ∧
      stampDiff timestamp (stitchAfter conf events).lastStamp < conf.eventStitchValue ∧
      specialTrigger conf e = false := by
  unfold stitchMark
  by_cases hgood : ∃ timestamp, conf.getTimestamp e = .good timestamp
  · obtain ⟨timestamp, hstamp⟩ := hgood
    rw [(stitchEvent_good _ hstamp).2.2]
    simp only [Bool.and_eq_true, withinStitch_iff, Bool.not_eq_true', hstamp, Stamp.good.injEq]
    constructor
    · rintro ⟨⟨hprev, hdiff⟩, htrig⟩
      exact ⟨timestamp, rfl, hprev, hdiff, htrig⟩
    · rintro ⟨_, rfl, hprev, hdiff, htrig⟩
      exact ⟨⟨hprev, hdiff⟩, htrig⟩
  · have hnot : ∀ timestamp, conf.getTimestamp e ≠ .good timestamp :=
      fun timestamp hstamp => hgood ⟨timestamp, hstamp⟩
    simp only [(stitchEvent_not_good (stitchAfter conf events) hnot).2, Bool.false_eq_true,
      false_iff]
    rintro ⟨timestamp, hstamp, -⟩
    exact hnot timestamp hstamp

theorem stitchAfter_opening {events : List LoopEvent} {first : LoopEvent} {timestamp : Nat}
    (hfilter : conf.inputFilter = true) (hstamp : conf.getTimestamp first = .good timestamp) :
    (stitchAfter conf (events ++ [first])).lastStamp = openingStamp conf events first timestamp := by
  rw [stitchAfter_snoc]
  unfold stitchEvent openingStamp
  rw [hstamp]
  simp only [hfilter, if_true, Bool.true_and]

theorem previousGood_snoc {events : List LoopEvent} {first : LoopEvent} {timestamp : Nat}
    (hstamp : conf.getTimestamp first = .good timestamp) : PreviousGood conf (events ++ [first]) :=
  ⟨first, timestamp, by simp, hstamp⟩

end Marks

/-- In every build an event is marked exactly when it and the event before have good stamps, its
stamp is in the window after the stamp that is kept, and it is not a special trigger; and with the
input filter, the stamp kept when a group starts is the one that the next event is compared with. -/
theorem stitch_marks (conf : LoopConf) (events : List LoopEvent) (e : LoopEvent) :
    (stitchMark conf events e = true ↔ ∃ timestamp, conf.getTimestamp e = .good timestamp ∧
      PreviousGood conf events ∧
      stampDiff timestamp (stitchAfter conf events).lastStamp < conf.eventStitchValue ∧
      specialTrigger conf e = false) ∧
    ∀ before first opening, conf.inputFilter = true → events = before ++ [first] →
      conf.getTimestamp first = .good opening → stitchMark conf before first = false →
      (stitchMark conf events e = true ↔ ∃ timestamp, conf.getTimestamp e = .good timestamp ∧
        stampDiff timestamp (openingStamp conf before first opening) < conf.eventStitchValue ∧
        specialTrigger conf e = false) := by
  refine ⟨stitchMark_iff events e, ?_⟩
  rintro before first opening hfilter rfl hstamp -
  rw [stitchMark_iff, stitchAfter_opening hfilter hstamp]
  constructor
  · rintro ⟨timestamp, hgood, -, hdiff, htrig⟩
    exact ⟨timestamp, hgood, hdiff, htrig⟩
  · rintro ⟨timestamp, hgood, hdiff, htrig⟩
    exact ⟨timestamp, hgood, previousGood_snoc hstamp, hdiff, htrig⟩

theorem stitch_marks_two : ∃ timestamp, wrConf.getTimestamp (wrEvent 1 1050) = .good timestamp ∧
    stampDiff timestamp (openingStamp wrConf [] (wrEvent 1 1000) 1000) < wrConf.eventStitchValue ∧
    specialTrigger wrConf (wrEvent 1 1050) = false := by
  have hmarks := (stitch_marks wrConf [wrEvent 1 1000] (wrEvent 1 1050)).2 [] (wrEvent 1 1000) 1000
    rfl rfl (by decide +kernel) (by decide +kernel)
  exact hmarks.mp (by decide +kernel)

theorem special_trigger_not_marked : ¬ ∀ conf events e,
    stitchMark conf events e = groupMark conf (groupReference conf events) e := by
  intro h
  have hmark := h wrConf [wrEvent 1 1000] (wrEvent 12 1050)
  revert hmark
  decide +kernel

end Ucesb
