import Ucesb.StitchEvent

namespace Ucesb

/-- `stitch_event` has decided to combine this event. -/
def Handed.decided (conf : LoopConf) (h : Handed) : Bool :=
  conf.eventStitchMode && !h.event.early && h.stitch.combine

def groupStep (conf : LoopConf) (g : List (List Handed) × List Handed) (h : Handed) :
    List (List Handed) × List Handed :=
  if h.decided conf then (g.1, g.2 ++ [h]) else (g.1 ++ [g.2], [h])

def stitchGroups (conf : LoopConf) (hs : List Handed) : List (List Handed) :=
  let g := hs.foldl (groupStep conf) ([], [])
  (g.1 ++ [g.2]).filter fun g => !g.isEmpty

section Spec

variable (o : SelectEvent)

def SubeventData.pieces : SubeventData → List (List UInt8)
  | .whole data => if data = [] then [] else [data]
  | .fragments first offset more length =>
    first.drop offset :: copyFragments more (length - (first.length - offset))

def LocatedSubevent.chunks (swapping : Bool) (s : LocatedSubevent) : List BufChunkSwap :=
  ⟨s.header, false⟩ :: s.data.pieces.map (⟨·, swapping⟩)

def Handed.chunks (h : Handed) : List BufChunkSwap :=
  (o.wanted h.event (h.event.defragged h.reached)).flatMap (LocatedSubevent.chunks h.event.swapping)

def maxTrigger (t : UInt16) (hs : List Handed) : UInt16 :=
  hs.foldl (fun t h => if t < h.event.info.iTrigger then h.event.info.iTrigger else t) t

def groupEvent (g : List Handed) : Option LmdEventOut :=
  match g.filter fun h => o.acceptEvent h.event with
  | [] => none
  | first :: rest => some
    ⟨first.event.header,
      { first.event.info with iTrigger := maxTrigger first.event.info.iTrigger rest },
      (first :: rest).flatMap (Handed.chunks o)⟩

def groupedOutput (gs : List (List Handed)) : List LmdEventOut :=
  (gs.filterMap (groupEvent o)).filter fun ev => o.acceptFinalEvent (some ev)

end Spec

def InWindow (conf : LoopConf) (s : StitchInfo) (e : LoopEvent) : Prop :=
  ∃ timestamp, conf.getTimestamp e = .good timestamp ∧ withinStitch conf s timestamp = true

/-- The subevents that are copied are made of whole words, and when they are still in fragments,
they begin with the first chunk. -/
def SubeventData.Copyable : SubeventData → Prop
  | .whole data => data.length % 4 = 0
  | .fragments first offset more length =>
    offset = 0 ∧ first.length % 4 = 0 ∧
      ∀ piece ∈ copyFragments more (length - first.length), piece.length % 4 = 0

/-- What an event must be like for the outputs to handle it as it should be; `running` are the events
of the group so far. -/
structure StitchOk (conf : LoopConf) (outputs : List SelectEvent) (running : List Handed)
    (h : Handed) : Prop where
  fresh : h.event.early = true → h.before.combine = false
  info : h.event.infoFails = true → ∀ o ∈ outputs, o.acceptEvent h.event = false
  started : h.decided conf = true → ∀ o ∈ outputs, o.acceptEvent h.event = true →
    ∃ r ∈ running, o.acceptEvent r.event = true
  sticky : (h.event.header.isSticky = true ∨ ∃ r ∈ running, r.event.header.isSticky = true) →
    ¬ InWindow conf h.before h.event
  data : ∀ o ∈ outputs, o.acceptEvent h.event = true →
    ∀ s ∈ o.wanted h.event (h.event.defragged h.reached), s.data.Copyable

def StitchRunOk (conf : LoopConf) (outputs : List SelectEvent) : List Handed → List Handed → Prop
  | _, [] => True
  | running, h :: hs => StitchOk conf outputs running h ∧
      StitchRunOk conf outputs (if h.decided conf then running ++ [h] else [h]) hs

section Copy

variable {o : SelectEvent}

theorem SubeventData.Copyable.copied_eq {d : SubeventData} (h : d.Copyable) :
    d.copied = d.pieces ∧ (d.copied.all fun piece => piece.length % 4 = 0) = true := by
  cases d with
  | whole data =>
    refine ⟨rfl, ?_⟩
    have hlen : data.length % 4 = 0 := h
    simp only [SubeventData.copied]
    split
    · rfl
    · simp [hlen]
  | fragments first offset more length =>
    obtain ⟨rfl, hfirst, hmore⟩ := h
    simp only [SubeventData.copied, SubeventData.pieces, Nat.sub_zero, List.take_length,
      List.drop_zero, true_and, List.all_cons, hfirst, List.all_eq_true, decide_eq_true_eq,
      Bool.and_eq_true]
    exact hmore

theorem copySubevents_eq {swapping : Bool} {subevents : List LocatedSubevent}
    (h : ∀ s ∈ subevents, s.data.Copyable) :
    copySubevents swapping subevents =
      some (subevents.flatMap (LocatedSubevent.chunks swapping)) := by
  induction subevents with
  | nil => rfl
  | cons s subevents ih =>
    obtain ⟨heq, hall⟩ := (h s List.mem_cons_self).copied_eq
    rw [copySubevents, copySubevent, if_pos hall, ih fun t ht => h t (List.mem_cons_of_mem _ ht)]
    simp [LocatedSubevent.chunks, heq]

theorem groupEvent_append_reject {g : List Handed} {h : Handed}
    (hrej : o.acceptEvent h.event = false) : groupEvent o (g ++ [h]) = groupEvent o g := by
  unfold groupEvent
  rw [List.filter_append, List.filter_cons_of_neg (by simp [hrej]), List.filter_nil,
    List.append_nil]

theorem groupEvent_eq_none_iff {g : List Handed} :
    groupEvent o g = none ↔ ∀ r ∈ g, o.acceptEvent r.event = false := by
  unfold groupEvent
  constructor
  · intro h
    split at h
    · next hnil =>
      intro r hr
      have := List.filter_eq_nil_iff.mp hnil r hr
      simpa using this
    · cases h
  · intro h
    have hnil : (g.filter fun h => o.acceptEvent h.event) = [] := by
      rw [List.filter_eq_nil_iff]
      intro r hr
      simp [h r hr]
    rw [hnil]

theorem groupEvent_append_accept {g : List Handed} {h : Handed} {ev : LmdEventOut}
    (hacc : o.acceptEvent h.event = true) (hev : groupEvent o g = some ev) :
    groupEvent o (g ++ [h]) =
      some { ev with
        info := { ev.info with iTrigger :=
          if ev.info.iTrigger < h.event.info.iTrigger then h.event.info.iTrigger
          else ev.info.iTrigger }
        more := ev.more ++ h.chunks o } := by
  unfold groupEvent at hev ⊢
  rw [List.filter_append, List.filter_cons_of_pos (by simpa using hacc), List.filter_nil]
  split at hev
  · cases hev
  · next first rest hfilter =>
    cases hev
    simp only [hfilter, List.cons_append, maxTrigger, List.foldl_append, List.foldl_cons,
      List.foldl_nil, List.flatMap_cons, List.flatMap_append, List.flatMap_nil, List.append_nil,
      List.append_assoc]
    rfl

theorem groupEvent_single {h : Handed} (hacc : o.acceptEvent h.event = true) :
    groupEvent o [h] = some ⟨h.event.header, h.event.info, h.chunks o⟩ := by
  unfold groupEvent
  rw [List.filter_cons_of_pos (by simpa using hacc), List.filter_nil]
  simp [maxTrigger]

theorem copyEvent_single {h : Handed} (hinfo : h.event.infoFails = false)
    (hcombine : h.stitch.combine = false)
    (hdata : ∀ s ∈ o.wanted h.event (h.event.defragged h.reached), s.data.Copyable)
    (hacc : o.acceptEvent h.event = true) : copyEvent o none h = groupEvent o [h] := by
  rw [groupEvent_single hacc, copyEvent, hinfo, copySubevents_eq hdata, hcombine]
  rfl

theorem copyEvent_more {h : Handed} {g : List Handed} {ev : LmdEventOut}
    (hinfo : h.event.infoFails = false) (hcombine : h.stitch.combine = true)
    (hdata : ∀ s ∈ o.wanted h.event (h.event.defragged h.reached), s.data.Copyable)
    (hacc : o.acceptEvent h.event = true) (hev : groupEvent o g = some ev) :
    copyEvent o (groupEvent o g) h = groupEvent o (g ++ [h]) := by
  rw [groupEvent_append_accept hacc hev, copyEvent, hinfo, copySubevents_eq hdata, hcombine, hev]
  rfl

end Copy

section Run

variable {conf : LoopConf} {outputs : List SelectEvent} {o : SelectEvent}

/-- The groups as they are written: those that are over, and the running one when its event has been
written at once. -/
structure OutputInv (conf : LoopConf) (o : SelectEvent) (s : StitchInfo)
    (g : List (List Handed) × List Handed) (st : OutputState) : Prop where
  atOnce : (conf.eventStitchMode = false ∨ s.badstamp = true) →
    st.written = groupedOutput o (g.1 ++ [g.2])
  later : conf.eventStitchMode = true → s.badstamp = false →
    st.written = groupedOutput o g.1 ∧ st.event = groupEvent o g.2
  cleared : conf.eventStitchMode = true → s.badstamp = true → st.event = none

theorem groupedOutput_append (gs gs' : List (List Handed)) :
    groupedOutput o (gs ++ gs') = groupedOutput o gs ++ groupedOutput o gs' := by
  rw [groupedOutput, List.filterMap_append, List.filter_append]
  rfl

theorem groupedOutput_single (g : List Handed) : groupedOutput o [g] =
    if o.acceptFinalEvent (groupEvent o g) then (groupEvent o g).toList else [] := by
  unfold groupedOutput
  cases hev : groupEvent o g with
  | none => simp [hev, SelectEvent.acceptFinalEvent]
  | some ev =>
    simp only [List.filterMap_cons, hev, List.filterMap_nil, Option.toList_some]
    by_cases hfinal : o.acceptFinalEvent (some ev) = true
    · simp [hfinal]
    · simp [hfinal]

theorem dump_group (st : OutputState) {g : List Handed} (h : st.event = groupEvent o g) :
    (o.dump st).written = st.written ++ groupedOutput o [g] := by
  rw [groupedOutput_single, SelectEvent.dump, h]
  split
  · rfl
  · rw [List.append_nil]

theorem dump_none (st : OutputState) (h : st.event = none) : o.dump st = st := by
  rw [SelectEvent.dump, h]
  rfl

theorem OutputInv.flushed {s : StitchInfo} {g : List (List Handed) × List Handed}
    {st : OutputState} (h : OutputInv conf o s g st) :
    (if conf.eventStitchMode then o.dump st else st).written =
      groupedOutput o (g.1 ++ [g.2]) := by
  cases hmode : conf.eventStitchMode with
  | false => exact h.atOnce (.inl hmode)
  | true =>
    rw [if_pos rfl]
    cases hbad : s.badstamp with
    | true => rw [dump_none st (h.cleared hmode hbad), h.atOnce (.inr hbad)]
    | false =>
      obtain ⟨hwritten, hevent⟩ := h.later hmode hbad
      rw [dump_group st hevent, hwritten, groupedOutput_append]

structure Handed.From (conf : LoopConf) (s : StitchInfo) (h : Handed) : Prop where
  before : h.before = s
  stale : (h.event.early = true ∨ conf.eventStitchMode = false) → h.stitch = s
  stitched : h.event.early = false → conf.eventStitchMode = true →
    h.stitch = (stitchEvent conf h.event s).1

structure StitchWf (conf : LoopConf) (s : StitchInfo) (running : List Handed) : Prop where
  good : s.combine = true → s.badstamp = false
  off : conf.eventStitchMode = false → s = stitchInit
  running : s.hasStamp = true → running ≠ []

theorem lookAt_from (conf : LoopConf) (s : StitchInfo) (e : LoopEvent) :
    (lookAt conf s e).1.From conf s ∧ (lookAt conf s e).1.event = e := by
  unfold lookAt
  split
  · next hearly =>
    refine ⟨⟨rfl, fun _ => rfl, ?_⟩, rfl⟩
    intro hnot
    rw [hearly] at hnot
    cases hnot
  · next hearly =>
    split
    · next hmode =>
      have hstale : e.early = true ∨ conf.eventStitchMode = false → False := by
        rintro (h | h)
        · exact hearly h
        · rw [hmode] at h
          cases h
      dsimp only
      split
      · exact ⟨⟨rfl, fun h => (hstale h).elim, fun _ _ => rfl⟩, rfl⟩
      · exact ⟨⟨rfl, fun h => (hstale h).elim, fun _ _ => rfl⟩, rfl⟩
    · next hmode =>
      refine ⟨⟨rfl, fun _ => rfl, ?_⟩, rfl⟩
      intro _ h
      exact absurd h hmode

theorem stitchEvent_combine {s : StitchInfo} {e : LoopEvent}
    (h : (stitchEvent conf e s).1.combine = true) :
    InWindow conf s e ∧ s.hasStamp = true ∧ s.badstamp = false ∧
      (stitchEvent conf e s).1.badstamp = false := by
  unfold stitchEvent at h ⊢
  split at h
  · cases h
  · cases h
  · next timestamp hstamp =>
    simp only [Bool.and_eq_true] at h
    have hwithin := h.1
    refine ⟨⟨timestamp, hstamp, hwithin⟩, ?_⟩
    unfold withinStitch at hwithin
    simp only [Bool.and_eq_true, Bool.not_eq_true'] at hwithin
    exact ⟨hwithin.1.1, hwithin.1.2, rfl⟩

variable {s : StitchInfo} {h : Handed} {running : List Handed}

theorem Handed.From.combined (hfrom : h.From conf s) (hwf : StitchWf conf s running)
    (hok : StitchOk conf outputs running h) (hcombine : h.stitch.combine = true) :
    conf.eventStitchMode = true ∧ h.event.early = false ∧ h.decided conf = true ∧
      InWindow conf s h.event ∧ s.hasStamp = true ∧ s.badstamp = false ∧
      h.stitch.badstamp = false := by
  have hmode : conf.eventStitchMode = true := by
    by_contra hoff
    have hoff := Bool.eq_false_iff.mpr hoff
    rw [hfrom.stale (.inr hoff), hwf.off hoff] at hcombine
    cases hcombine
  have hearly : h.event.early = false := by
    by_contra hnot
    have hnot := Bool.of_not_eq_false hnot
    have hstale := hok.fresh hnot
    rw [hfrom.before] at hstale
    rw [hfrom.stale (.inl hnot), hstale] at hcombine
    cases hcombine
  have hstitch := hfrom.stitched hearly hmode
  have hdecided : h.decided conf = true := by
    rw [Handed.decided, hmode, hearly, hcombine]
    rfl
  rw [hstitch] at hcombine ⊢
  exact ⟨hmode, hearly, hdecided, stitchEvent_combine hcombine⟩

theorem Handed.decided_combine (hdec : h.decided conf = true) : h.stitch.combine = true := by
  unfold Handed.decided at hdec
  simp only [Bool.and_eq_true] at hdec
  exact hdec.2

theorem stitchWf_step (hfrom : h.From conf s) (hwf : StitchWf conf s running)
    (hok : StitchOk conf outputs running h) :
    StitchWf conf h.stitch (if h.decided conf then running ++ [h] else [h]) := by
  refine ⟨?_, ?_, ?_⟩
  · intro hcombine
    exact (hfrom.combined hwf hok hcombine).2.2.2.2.2.2
  · intro hoff
    rw [hfrom.stale (.inr hoff), hwf.off hoff]
  · intro _
    split
    · exact List.append_ne_nil_of_right_ne_nil _ (List.cons_ne_nil _ _)
    · exact List.cons_ne_nil _ _

theorem outputStep_combine {g : List (List Handed) × List Handed} {st : OutputState} (ho : o ∈ outputs)
    (hinv : OutputInv conf o s g st) (hfrom : h.From conf s) (hwf : StitchWf conf s g.2)
    (hok : StitchOk conf outputs g.2 h) (hcombine : h.stitch.combine = true) :
    ∃ st', outputStep conf o st h = some st' ∧
      OutputInv conf o h.stitch (groupStep conf g h) st' := by
  obtain ⟨hmode, hearly, hdec, -, -, hbad, hbad'⟩ := hfrom.combined hwf hok hcombine
  obtain ⟨hwritten, hevent⟩ := hinv.later hmode hbad
  have hinfo : h.event.infoFails = false := by
    unfold LoopEvent.early at hearly
    simp only [Bool.or_eq_false_iff] at hearly
    exact hearly.1
  have hgroup : groupStep conf g h = (g.1, g.2 ++ [h]) := by rw [groupStep, if_pos hdec]
  have hnew : ∀ event, event = groupEvent o (g.2 ++ [h]) →
      OutputInv conf o h.stitch (groupStep conf g h) ⟨event, st.written⟩ := by
    intro event hevent
    rw [hgroup]
    refine ⟨?_, fun _ _ => ⟨hwritten, hevent⟩, ?_⟩
    · rintro (hoff | hnot)
      · rw [hmode] at hoff
        cases hoff
      · rw [hbad'] at hnot
        cases hnot
    · intro _ hnot
      rw [hbad'] at hnot
      cases hnot
  unfold outputStep
  simp only [hcombine, hbad', hmode, Bool.not_true, Bool.or_self, Bool.and_false,
    Bool.false_eq_true, if_false]
  cases hacc : o.acceptEvent h.event with
  | false =>
    refine ⟨st, by simp, ?_⟩
    exact hnew st.event (by rw [groupEvent_append_reject hacc, hevent])
  | true =>
    obtain ⟨r, hr, hracc⟩ := hok.started hdec o ho hacc
    obtain ⟨ev, hev⟩ : ∃ ev, groupEvent o g.2 = some ev := by
      cases hnone : groupEvent o g.2 with
      | none =>
        rw [groupEvent_eq_none_iff.mp hnone r hr] at hracc
        cases hracc
      | some ev => exact ⟨ev, rfl⟩
    have hcopy := copyEvent_more hinfo hcombine (hok.data o ho hacc) hacc hev
    rw [groupEvent_append_accept hacc hev] at hcopy
    rw [hevent, hcopy]
    refine ⟨_, by simp only [Bool.not_true, Bool.false_eq_true, if_false]; rfl, ?_⟩
    exact hnew _ (groupEvent_append_accept hacc hev).symm

theorem outputStep_single {g : List (List Handed) × List Handed} {st : OutputState} (ho : o ∈ outputs)
    (hinv : OutputInv conf o s g st) (hok : StitchOk conf outputs g.2 h)
    (hcombine : h.stitch.combine = false) :
    ∃ st', outputStep conf o st h = some st' ∧
      OutputInv conf o h.stitch (groupStep conf g h) st' := by
  have hdec : h.decided conf = false := by
    rw [Handed.decided, hcombine, Bool.and_false]
  have hgroup : groupStep conf g h = (g.1 ++ [g.2], [h]) := by
    rw [groupStep, hdec]
    rfl
  have hflushed := hinv.flushed
  rw [hgroup]
  unfold outputStep
  simp only [hcombine, Bool.not_false, Bool.true_or, Bool.and_true, if_true]
  cases hacc : o.acceptEvent h.event with
  | false =>
    have hnone : groupEvent o [h] = none := by
      rw [groupEvent_eq_none_iff]
      intro r hr
      cases List.mem_singleton.mp hr
      exact hacc
    have hsame : groupedOutput o (g.1 ++ [g.2] ++ [[h]]) = groupedOutput o (g.1 ++ [g.2]) := by
      rw [groupedOutput_append, groupedOutput_single, hnone]
      exact List.append_nil _
    refine ⟨_, by rw [Bool.not_false, if_pos rfl], ?_, ?_, ?_⟩
    · intro _
      rw [hsame]
      exact hflushed
    · intro _ _
      exact ⟨hflushed, hnone.symm⟩
    · intro _ _
      rfl
  | true =>
    have hinfo : h.event.infoFails = false := by
      by_contra hnot
      have hrej := hok.info (Bool.of_not_eq_false hnot) o ho
      rw [hacc] at hrej
      cases hrej
    have hcopy := copyEvent_single hinfo hcombine (hok.data o ho hacc) hacc
    obtain ⟨ev, hev⟩ : ∃ ev, groupEvent o [h] = some ev := ⟨_, groupEvent_single hacc⟩
    rw [hcopy, hev]
    simp only [Bool.not_true, Bool.false_eq_true, if_false, Option.bind_eq_bind, Option.bind_some]
    have hwritten : ∀ st' : OutputState, st'.event = some ev →
        st'.written = groupedOutput o (g.1 ++ [g.2]) →
        (o.dump st').written = groupedOutput o (g.1 ++ [g.2] ++ [[h]]) := by
      intro st' hevent hst
      rw [dump_group st' (hevent.trans hev.symm), hst]
      exact (groupedOutput_append _ _).symm
    by_cases hnow : (!conf.eventStitchMode || h.stitch.badstamp) = true
    · rw [if_pos hnow]
      refine ⟨_, rfl, ?_, ?_, ?_⟩
      · intro _
        split
        · exact hwritten _ rfl hflushed
        · exact hwritten _ rfl hflushed
      · intro hmode hgood
        rw [hmode, hgood] at hnow
        cases hnow
      · intro _ hbad
        rw [if_pos hbad]
    · rw [if_neg hnow]
      refine ⟨_, rfl, ?_, ?_, ?_⟩
      · rintro (hoff | hbad)
        · rw [hoff] at hnow
          exact absurd rfl hnow
        · rw [hbad, Bool.or_true] at hnow
          exact absurd rfl hnow
      · intro _ _
        exact ⟨hflushed, hev.symm⟩
      · intro _ hbad
        rw [hbad, Bool.or_true] at hnow
        exact absurd rfl hnow

theorem outputStep_inv {g : List (List Handed) × List Handed} {st : OutputState} (ho : o ∈ outputs)
    (hinv : OutputInv conf o s g st) (hfrom : h.From conf s) (hwf : StitchWf conf s g.2)
    (hok : StitchOk conf outputs g.2 h) :
    ∃ st', outputStep conf o st h = some st' ∧
      OutputInv conf o h.stitch (groupStep conf g h) st' := by
  cases hcombine : h.stitch.combine with
  | true => exact outputStep_combine ho hinv hfrom hwf hok hcombine
  | false => exact outputStep_single ho hinv hok hcombine

def HandedChain (conf : LoopConf) : StitchInfo → List Handed → Prop
  | _, [] => True
  | s, h :: hs => h.From conf s ∧ HandedChain conf h.stitch hs

theorem handedOn_chain (conf : LoopConf) (s : StitchInfo) (errors : Nat) (events : List LoopEvent) :
    HandedChain conf s (handedOn conf s errors events) := by
  induction events generalizing s errors with
  | nil => trivial
  | cons e events ih =>
    unfold handedOn
    dsimp only
    generalize (if (lookAt conf s e).2 = true then errors + 1 else errors) = n
    split
    · trivial
    · exact ⟨(lookAt_from conf s e).1, ih _ _⟩

theorem groupStep_running (g : List (List Handed) × List Handed) (h : Handed) :
    (groupStep conf g h).2 = if h.decided conf then g.2 ++ [h] else [h] := by
  unfold groupStep
  split <;> rfl

theorem outputRun_inv {hs : List Handed} {g : List (List Handed) × List Handed} {st : OutputState}
    (ho : o ∈ outputs) (hinv : OutputInv conf o s g st) (hchain : HandedChain conf s hs)
    (hwf : StitchWf conf s g.2) (hok : StitchRunOk conf outputs g.2 hs) :
    ∃ st' s', outputRun conf o st hs = some st' ∧
      OutputInv conf o s' (hs.foldl (groupStep conf) g) st' := by
  induction hs generalizing s g st with
  | nil => exact ⟨st, s, rfl, hinv⟩
  | cons h hs ih =>
    obtain ⟨hfrom, hchain⟩ := hchain
    obtain ⟨hok, hrest⟩ := hok
    obtain ⟨st', hstep, hinv'⟩ := outputStep_inv ho hinv hfrom hwf hok
    have hwf' := stitchWf_step hfrom hwf hok
    rw [← groupStep_running g h] at hwf' hrest
    obtain ⟨st'', s', hrun, hfinal⟩ := ih hinv' hchain hwf' hrest
    refine ⟨st'', s', ?_, hfinal⟩
    rw [outputRun, hstep]
    exact hrun

theorem outputDone_eq {g : List (List Handed) × List Handed} {st : OutputState}
    (h : OutputInv conf o s g st) : outputDone conf o st = groupedOutput o (g.1 ++ [g.2]) := by
  have hflushed := h.flushed
  unfold outputDone
  cases hmode : conf.eventStitchMode with
  | true | false =>
    rw [hmode] at hflushed
    exact hflushed

theorem groupedOutput_filter (gs : List (List Handed)) :
    groupedOutput o (gs.filter fun g => !g.isEmpty) = groupedOutput o gs := by
  induction gs with
  | nil => rfl
  | cons g gs ih =>
    have hcons : groupedOutput o (g :: gs) = groupedOutput o [g] ++ groupedOutput o gs :=
      groupedOutput_append [g] gs
    cases g with
    | nil =>
      rw [hcons, ← ih]
      rfl
    | cons h g =>
      rw [hcons, ← ih]
      exact groupedOutput_append [h :: g] _

theorem groups_flatten (hs : List Handed) (g : List (List Handed) × List Handed) :
    (hs.foldl (groupStep conf) g).1.flatten ++ (hs.foldl (groupStep conf) g).2 =
      g.1.flatten ++ g.2 ++ hs := by
  induction hs generalizing g with
  | nil => exact (List.append_nil _).symm
  | cons h hs ih =>
    rw [List.foldl_cons, ih]
    unfold groupStep
    split
    · simp
    · simp

theorem flatten_filter_nonempty {α : Type} (gs : List (List α)) :
    (gs.filter fun g => !g.isEmpty).flatten = gs.flatten := by
  induction gs with
  | nil => rfl
  | cons g gs ih =>
    cases g with
    | nil => exact ih
    | cons a g => exact congrArg (a :: g ++ ·) ih

theorem stitchGroups_flatten (hs : List Handed) : (stitchGroups conf hs).flatten = hs := by
  unfold stitchGroups
  dsimp only
  rw [flatten_filter_nonempty, List.flatten_append, List.flatten_cons, List.flatten_nil,
    List.append_nil, groups_flatten]
  rfl

def StickyAlone (g : List Handed) : Prop := ∀ h ∈ g, h.event.header.isSticky = true → g = [h]

theorem groups_sticky {hs : List Handed} {g : List (List Handed) × List Handed}
    (hg : ∀ g' ∈ g.1 ++ [g.2], StickyAlone g') (hchain : HandedChain conf s hs)
    (hwf : StitchWf conf s g.2) (hok : StitchRunOk conf outputs g.2 hs) :
    ∀ g' ∈ (hs.foldl (groupStep conf) g).1 ++ [(hs.foldl (groupStep conf) g).2],
      StickyAlone g' := by
  induction hs generalizing s g with
  | nil => exact hg
  | cons h hs ih =>
    obtain ⟨hfrom, hchain⟩ := hchain
    obtain ⟨hok, hrest⟩ := hok
    have hwf' := stitchWf_step hfrom hwf hok
    rw [← groupStep_running g h] at hwf' hrest
    refine ih ?_ hchain hwf' hrest
    unfold groupStep
    split
    · next hdec =>
      have hwindow := (hfrom.combined hwf hok (Handed.decided_combine hdec)).2.2.2.1
      have hnone : ∀ r ∈ g.2 ++ [h], r.event.header.isSticky = false := by
        intro r hr
        by_contra hnot
        have hsticky := Bool.of_not_eq_false hnot
        rw [← hfrom.before] at hwindow
        rcases List.mem_append.mp hr with hr | hr
        · exact hok.sticky (.inr ⟨r, hr, hsticky⟩) hwindow
        · cases List.mem_singleton.mp hr
          exact hok.sticky (.inl hsticky) hwindow
      intro g' hg'
      rcases List.mem_append.mp hg' with hg' | hg'
      · exact hg g' (List.mem_append_left _ hg')
      · cases List.mem_singleton.mp hg'
        intro r hr hsticky
        rw [hnone r hr] at hsticky
        cases hsticky
    · intro g' hg'
      rcases List.mem_append.mp hg' with hg' | hg'
      · exact hg g' hg'
      · cases List.mem_singleton.mp hg'
        intro r hr _
        rw [List.mem_singleton.mp hr]

end Run

section Bytes

variable {o : SelectEvent}

def LocatedSubevent.bytes (s : LocatedSubevent) : List UInt8 := s.header ++ s.data.content

theorem SubeventData.pieces_flatten (d : SubeventData) : d.pieces.flatten = d.content := by
  cases d with
  | whole data =>
    simp only [SubeventData.pieces, SubeventData.content]
    split
    · next hnil => rw [hnil, List.flatten_nil]
    · rw [List.flatten_cons, List.flatten_nil, List.append_nil]
  | fragments first offset more length => rfl

theorem LocatedSubevent.chunks_bytes (swapping : Bool) (s : LocatedSubevent) :
    (s.chunks swapping).flatMap (·.data) = s.bytes := by
  rw [LocatedSubevent.chunks, List.flatMap_cons, LocatedSubevent.bytes, ← s.data.pieces_flatten,
    List.flatMap_map, List.flatMap_id']

theorem wanted_bytes (e : LoopEvent) (reached : Nat) :
    (o.wanted e (e.defragged reached)).flatMap LocatedSubevent.bytes =
      (o.wanted e e.subevents).flatMap LocatedSubevent.bytes := by
  have hsplit : e.subevents = e.subevents.take reached ++ e.subevents.drop reached :=
    (List.take_append_drop _ _).symm
  unfold SelectEvent.wanted LoopEvent.defragged
  split
  · nth_rewrite 3 [hsplit]
    rw [List.flatMap_append, List.flatMap_append, List.flatMap_map]
    rfl
  · nth_rewrite 3 [hsplit]
    rw [List.filter_append, List.filter_append, List.flatMap_append, List.flatMap_append,
      List.filter_map, List.flatMap_map]
    rfl

theorem Handed.chunks_bytes (h : Handed) : (h.chunks o).flatMap (·.data) =
    (o.wanted h.event h.event.subevents).flatMap LocatedSubevent.bytes := by
  rw [Handed.chunks, List.flatMap_assoc, ← wanted_bytes h.event h.reached]
  congr 1
  funext s
  exact s.chunks_bytes _

def acceptedBytes (o : SelectEvent) (hs : List Handed) : List UInt8 :=
  (hs.filter fun h => o.acceptEvent h.event).flatMap fun h =>
    (o.wanted h.event h.event.subevents).flatMap LocatedSubevent.bytes

theorem acceptedBytes_append (hs hs' : List Handed) :
    acceptedBytes o (hs ++ hs') = acceptedBytes o hs ++ acceptedBytes o hs' := by
  rw [acceptedBytes, List.filter_append, List.flatMap_append]
  rfl

def LmdEventOut.subeventBytes (ev : LmdEventOut) : List UInt8 := ev.more.flatMap (·.data)

theorem groupedOutput_bytes (gs : List (List Handed)) :
    (groupedOutput o gs).flatMap LmdEventOut.subeventBytes = acceptedBytes o gs.flatten := by
  induction gs with
  | nil => rfl
  | cons g gs ih =>
    have hcons : groupedOutput o (g :: gs) = groupedOutput o [g] ++ groupedOutput o gs :=
      groupedOutput_append [g] gs
    rw [hcons, List.flatMap_append, ih, List.flatten_cons, acceptedBytes_append]
    congr 1
    rw [groupedOutput_single]
    cases hev : groupEvent o g with
    | none =>
      have hrej := groupEvent_eq_none_iff.mp hev
      have hnil : (g.filter fun h => o.acceptEvent h.event) = [] := by
        rw [List.filter_eq_nil_iff]
        intro r hr
        simp [hrej r hr]
      rw [acceptedBytes, hnil]
      rfl
    | some ev =>
      have hbytes : ev.subeventBytes = acceptedBytes o g := by
        unfold groupEvent at hev
        split at hev
        · cases hev
        · next first rest hfilter =>
          cases hev
          rw [acceptedBytes, hfilter, LmdEventOut.subeventBytes, List.flatMap_assoc]
          congr 1
          funext h
          exact h.chunks_bytes
      rw [← hbytes, Option.toList_some]
      split
      · rw [List.flatMap_cons, List.flatMap_nil, List.append_nil]
      · next hfinal =>
        have hempty : ev.more = [] := by
          simp only [SelectEvent.acceptFinalEvent, Bool.not_eq_true', Bool.not_eq_false,
            Bool.and_eq_true, List.isEmpty_iff] at hfinal
          exact hfinal.2
        rw [LmdEventOut.subeventBytes, hempty]
        rfl

end Bytes

structure StitchedOutput (conf : LoopConf) (o : SelectEvent) (hs : List Handed)
    (written : List LmdEventOut) : Prop where
  /-- The groups are the events in order. -/
  inOrder : (stitchGroups conf hs).flatten = hs
  /-- There is one output event for each group, of the events of it that are accepted. -/
  grouped : written = groupedOutput o (stitchGroups conf hs)
  subevents : written.flatMap LmdEventOut.subeventBytes = acceptedBytes o hs
  sticky : ∀ g ∈ stitchGroups conf hs, StickyAlone g

theorem stitched_output_exact (conf : LoopConf) (outputs : List SelectEvent)
    (events : List LoopEvent)
    (hok : StitchRunOk conf outputs [] (handedOn conf stitchInit 0 events)) :
    ∀ o ∈ outputs, ∃ written, writtenOutput conf o events = some written ∧
      StitchedOutput conf o (handedOn conf stitchInit 0 events) written := by
  intro o ho
  have hinv : OutputInv conf o stitchInit ([], []) ⟨none, []⟩ := by
    refine ⟨fun _ => rfl, fun _ _ => ⟨rfl, rfl⟩, fun _ _ => rfl⟩
  have hwf : StitchWf conf stitchInit [] := by
    refine ⟨?_, fun _ => rfl, ?_⟩
    · intro h
      cases h
    · intro h
      cases h
  have hchain := handedOn_chain conf stitchInit 0 events
  obtain ⟨st, s, hrun, hfinal⟩ := outputRun_inv (g := ([], [])) ho hinv hchain hwf hok
  have halone := groups_sticky (g := ([], [])) (by simp [StickyAlone]) hchain hwf hok
  have hgrouped : outputDone conf o st =
      groupedOutput o (stitchGroups conf (handedOn conf stitchInit 0 events)) := by
    rw [outputDone_eq hfinal, stitchGroups, groupedOutput_filter]
  refine ⟨outputDone conf o st, ?_, stitchGroups_flatten _, hgrouped, ?_, ?_⟩
  · rw [writtenOutput, hrun]
    rfl
  · rw [hgrouped, groupedOutput_bytes, stitchGroups_flatten]
  · intro g hg
    exact halone g (List.mem_of_mem_filter hg)

section Decide

variable (conf : LoopConf)

instance (s : StitchInfo) (e : LoopEvent) : Decidable (InWindow conf s e) :=
  match h : conf.getTimestamp e with
  | .missing => isFalse (by rintro ⟨t, ht, -⟩; rw [h] at ht; cases ht)
  | .bad => isFalse (by rintro ⟨t, ht, -⟩; rw [h] at ht; cases ht)
  | .good t => decidable_of_iff (withinStitch conf s t = true) (by
      constructor
      · exact fun hw => ⟨t, h, hw⟩
      · rintro ⟨t', ht, hw⟩
        rw [h] at ht
        cases ht
        exact hw)

instance : DecidablePred SubeventData.Copyable
  | .whole data => inferInstanceAs (Decidable (data.length % 4 = 0))
  | .fragments first offset more length => inferInstanceAs (Decidable (offset = 0 ∧
      first.length % 4 = 0 ∧
        ∀ piece ∈ copyFragments more (length - first.length), piece.length % 4 = 0))

instance (outputs : List SelectEvent) (running : List Handed) (h : Handed) :
    Decidable (StitchOk conf outputs running h) :=
  decidable_of_iff (_ ∧ _ ∧ _ ∧ _ ∧ _)
    ⟨fun k => ⟨k.1, k.2.1, k.2.2.1, k.2.2.2.1, k.2.2.2.2⟩,
      fun k => ⟨k.fresh, k.info, k.started, k.sticky, k.data⟩⟩

instance decidableStitchRunOk (outputs : List SelectEvent) :
    (running hs : List Handed) → Decidable (StitchRunOk conf outputs running hs)
  | _, [] => inferInstanceAs (Decidable True)
  | running, h :: hs =>
    have := decidableStitchRunOk outputs (if h.decided conf then running ++ [h] else [h]) hs
    inferInstanceAs (Decidable (StitchOk conf outputs running h ∧ _))

end Decide

def wrConf : LoopConf :=
  ⟨true, 100, true, true, true, getWrTimestamp, fun e => (e.subevents.length, true)⟩

def wrSubevent (timestamp : Nat) : LocatedSubevent :=
  ⟨List.replicate 12 0, .whole (le32 0x100 ++ le32 (0x03e10000 + timestamp % 2 ^ 16) ++
    le32 0x04e10000 ++ le32 0x05e10000 ++ le32 0x06e10000)⟩

def wrEvent (trigger : UInt16) (timestamp : Nat) : LoopEvent :=
  ⟨⟨0, 10, 1⟩, ⟨0, trigger, 0⟩, false, false, [wrSubevent timestamp], false, false, 0⟩

def noStampEvent : LoopEvent :=
  ⟨⟨0, lmdEventStickyType, lmdEventStickySubtype⟩, ⟨0, 1, 0⟩, false, false,
    [⟨List.replicate 12 0, .whole []⟩], false, false, 0⟩

def takeAll : SelectEvent := ⟨fun _ => true, fun _ => true, false⟩

def notFirst : SelectEvent := ⟨fun e => e.info.iTrigger != 1, fun _ => true, false⟩

theorem stitched_output_exact_demo :
    StitchRunOk wrConf [takeAll, notFirst] []
        (handedOn wrConf stitchInit 0 [wrEvent 2 1000, wrEvent 1 1050, noStampEvent, wrEvent 2 1060]) ∧
      ∃ written, writtenOutput wrConf notFirst
          [wrEvent 2 1000, wrEvent 1 1050, noStampEvent, wrEvent 2 1060] = some written ∧
        StitchedOutput wrConf notFirst (handedOn wrConf stitchInit 0
          [wrEvent 2 1000, wrEvent 1 1050, noStampEvent, wrEvent 2 1060]) written := by
  have hok : StitchRunOk wrConf [takeAll, notFirst] [] (handedOn wrConf stitchInit 0
      [wrEvent 2 1000, wrEvent 1 1050, noStampEvent, wrEvent 2 1060]) := by
    decide +kernel
  exact ⟨hok, stitched_output_exact wrConf _ _ hok notFirst (by simp)⟩

theorem stitched_output_not_exact :
    writtenOutput wrConf notFirst [wrEvent 1 1000, wrEvent 2 1050] = none ∧
      (∃ written, writtenOutput wrConf takeAll [wrEvent 1 1000, wrEvent 1 1050,
          { wrEvent 1 2000 with locateFails := true }] = some written ∧
        written ≠ groupedOutput takeAll (stitchGroups wrConf (handedOn wrConf stitchInit 0
          [wrEvent 1 1000, wrEvent 1 1050, { wrEvent 1 2000 with locateFails := true }]))) ∧
      ∃ g ∈ stitchGroups wrConf (handedOn wrConf stitchInit 0
          [wrEvent 1 1000, { noStampEvent with subevents := [wrSubevent 1050] }]),
        ∃ h ∈ g, h.event.header.isSticky = true ∧ g.length = 2 := by
  refine ⟨by decide +kernel, ?_, by decide +kernel⟩
  have hone : (writtenOutput wrConf takeAll [wrEvent 1 1000, wrEvent 1 1050,
      { wrEvent 1 2000 with locateFails := true }]).map List.length = some 1 := by
    decide +kernel
  have htwo : (groupedOutput takeAll (stitchGroups wrConf (handedOn wrConf stitchInit 0
      [wrEvent 1 1000, wrEvent 1 1050,
        { wrEvent 1 2000 with locateFails := true }]))).length = 2 := by
    decide +kernel
  obtain ⟨written, hrun, hlen⟩ := Option.map_eq_some_iff.mp hone
  refine ⟨written, hrun, ?_⟩
  rintro rfl
  omega

end Ucesb
