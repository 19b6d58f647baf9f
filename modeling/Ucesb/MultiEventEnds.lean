import Mathlib.Order.WellFounded
import Ucesb.MultiEventInv

namespace Ucesb

def MultiRetry (conf : MultiConf) (s s' : MultiEventSource) : Prop :=
  getEventPass conf s = .ok (.again, s')

abbrev MultiRetries (conf : MultiConf) := Relation.ReflTransGen (MultiRetry conf)

def GetEventEnds (conf : MultiConf) (s : MultiEventSource) : Prop :=
  ∃ passes result, multiGetEvent conf passes s = some result

def MultiEventSource.built (s : MultiEventSource) : Nat :=
  s.curAida.toList.length + s.curDtas.toList.length

/-- What a retry has got on with. -/
inductive Progress (s s' : MultiEventSource) : Prop
  | consumed : s'.input.length < s.input.length → Progress s s'
  | discarded {first : EventEntry} {rest : List EventEntry} : s.events = first :: rest →
      s' = { s with events := rest, emitSkip := s.emitSkip + 1 } → Progress s s'
  | completed : s.input = [] → s'.built < s.built → s' = s.pushAida ∨ s' = s.pushDtas ∨
      s' = { s.pushAida.pushDtas with lastMbsWr := lastWr } → Progress s s'
  | opened : s.input = [] → s.lastMbsWr ≠ lastWr → s' = { s with lastMbsWr := lastWr } →
      Progress s s'

/-- Nothing is left to come, and the first of the queue is still waited with. -/
structure WaitsAtEnd (conf : MultiConf) (s : MultiEventSource) : Prop where
  eventbuilder : conf.enableEventbuilder = true
  maxEvents : conf.maxEvents ≠ 1
  backlog : s.events.length ≤ 1000000
  input : s.input = []
  lastFile : s.lastFile = true
  curAida : s.curAida = none
  curDtas : s.curDtas = none
  lastMbsWr : s.lastMbsWr = lastWr
  waiting : ∃ first rest, s.events = first :: rest ∧
    first.timestamp.slt (lastWr - aidaTimeShift) = false

section Built

variable {s : MultiEventSource}

theorem pushAida_none (h : s.curAida = none) : s.pushAida = s := by
  rw [MultiEventSource.pushAida, h]

theorem pushDtas_none (h : s.curDtas = none) : s.pushDtas = s := by
  rw [MultiEventSource.pushDtas, h]

theorem pushAida_curAida (h : BuiltInv s) : s.pushAida.curAida = none := by
  unfold MultiEventSource.pushAida
  split
  next e he => rw [if_pos (h.aida e he).2]
  next he => exact he

theorem pushDtas_curDtas (h : BuiltInv s) : s.pushDtas.curDtas = none := by
  unfold MultiEventSource.pushDtas
  split
  next e he => rw [if_pos (h.dtas e he)]
  next he => exact he

theorem pushAida_curDtas : s.pushAida.curDtas = s.curDtas := by
  unfold MultiEventSource.pushAida
  split
  · split <;> rfl
  · rfl

theorem pushDtas_curAida : s.pushDtas.curAida = s.curAida := by
  unfold MultiEventSource.pushDtas
  split
  · split <;> rfl
  · rfl

theorem pushAida_built (h : BuiltInv s) {cur : AidaEntry} (hcur : s.curAida = some cur) :
    s.pushAida.built < s.built := by
  unfold MultiEventSource.built
  rw [pushAida_curAida h, pushAida_curDtas, hcur, Option.toList_none, Option.toList_some,
    List.length_nil, List.length_singleton]
  omega

theorem pushDtas_built (h : BuiltInv s) {cur : DtasEntry} (hcur : s.curDtas = some cur) :
    s.pushDtas.built < s.built := by
  unfold MultiEventSource.built
  rw [pushDtas_curDtas h, pushDtas_curAida, hcur, Option.toList_none, Option.toList_some,
    List.length_nil, List.length_singleton]
  omega

theorem pushed_built (h : BuiltInv s) : s.pushAida.pushDtas.built = 0 := by
  unfold MultiEventSource.built
  rw [pushDtas_curDtas (pushAida_inv h), pushDtas_curAida, pushAida_curAida h]
  rfl

theorem built_eq_zero (h : s.built = 0) : s.curAida = none ∧ s.curDtas = none := by
  unfold MultiEventSource.built at h
  constructor
  · cases hcur : s.curAida with
    | none => rfl
    | some cur =>
      rw [hcur, Option.toList_some, List.length_singleton] at h
      omega
  · cases hcur : s.curDtas with
    | none => rfl
    | some cur =>
      rw [hcur, Option.toList_some, List.length_singleton] at h
      omega

end Built

/-- A pass that ends with a retry has got on, unless it waits at the end. -/
def GetsOn (conf : MultiConf) (s : MultiEventSource) (x : PassEnd × MultiEventSource) : Prop :=
  x.1 = .again → Progress s x.2 ∨ WaitsAtEnd conf s ∧ x.2 = s

section Pass

variable {conf : MultiConf} {s s' : MultiEventSource} {first : EventEntry}
  {rest : List EventEntry}

theorem endPass_getsOn (h : BuiltInv s) (hinput : s.input = [])
    (hwaits : s.built = 0 → s.lastFile = true → s.lastMbsWr = lastWr → s.events ≠ [] →
      WaitsAtEnd conf s) : GetsOn conf s (endPass s) := by
  unfold endPass
  split
  · exact nofun
  next hlast =>
  split
  · exact nofun
  next hevents =>
  intro _
  by_cases hbuilt : s.built = 0
  · obtain ⟨haida, hdtas⟩ := built_eq_zero hbuilt
    rw [pushAida_none haida, pushDtas_none hdtas] at hevents ⊢
    by_cases hwr : s.lastMbsWr = lastWr
    · refine .inr ⟨hwaits hbuilt (Bool.not_eq_false _ ▸ hlast) hwr hevents, ?_⟩
      rw [← hwr]
    · exact .inl (.opened hinput hwr rfl)
  · refine .inl (.completed hinput ?_ (.inr (.inr rfl)))
    change s.pushAida.pushDtas.built < s.built
    rw [pushed_built h]
    exact Nat.pos_of_ne_zero hbuilt

theorem loadPass_getsOn (h : BuiltInv s)
    (hwaits : conf.maxEvents ≠ 1 → s.input = [] → s.built = 0 → s.lastFile = true →
      s.lastMbsWr = lastWr → s.events ≠ [] → WaitsAtEnd conf s) :
    Ends (fun _ => True) (GetsOn conf s) (loadPass conf s) := by
  unfold loadPass
  split
  · exact nofun
  next hmax =>
  refine ends_bind_stop (loadEvents_spec h) (fun _ _ => trivial) fun x hx => ?_
  obtain ⟨status, s1⟩ := x
  rcases hx.step with ⟨hstatus, heq, hinput⟩ | ⟨hstatus, hlt⟩
  · dsimp only at hstatus heq
    rw [hstatus, heq]
    exact endPass_getsOn h hinput (hwaits hmax hinput)
  · cases status with
    | eof => exact (hstatus rfl).elim
    | unknownEvent => trivial
    | _ => exact fun _ => .inl (.consumed hlt)

theorem emitPass_getsOn (h : BuiltInv s) (hevents : s.events = first :: rest)
    (heventbuilder : conf.enableEventbuilder = true) (hbacklog : s.events.length ≤ 1000000) :
    Ends (fun _ => True) (GetsOn conf s) (emitPass conf first s) := by
  unfold emitPass emitFirst
  split
  · split
    · refine fun _ => .inl (.discarded hevents ?_)
      rw [hevents, List.tail_cons]
    · exact nofun
  next hripe =>
    refine loadPass_getsOn h fun hmax hinput hbuilt hlast hwr _ => ?_
    obtain ⟨haida, hdtas⟩ := built_eq_zero hbuilt
    refine ⟨heventbuilder, hmax, hbacklog, hinput, hlast, haida, hdtas, hwr, first, rest, hevents, ?_⟩
    rw [MultiEventSource.ripe, hwr] at hripe
    exact Bool.eq_false_iff.mpr hripe

theorem dtasPass_getsOn (h : BuiltInv s) (hevents : s.events = first :: rest)
    (heventbuilder : conf.enableEventbuilder = true) (hbacklog : s.events.length ≤ 1000000) :
    Ends (fun _ => True) (GetsOn conf s) (dtasPass conf first s) := by
  have hemit := emitPass_getsOn h hevents heventbuilder hbacklog
  unfold dtasPass
  split
  next cur hcur =>
    split
    · refine ends_bind_stop (loadWindow_spec h _ _) (fun _ _ => trivial)
        fun s' hs' => ?_
      rcases hs'.step with ⟨rfl, hinput⟩ | hlt
      · rw [if_pos (by rw [hcur, Option.any_some]; exact h.dtas cur hcur)]
        exact fun _ => .inl (.completed hinput (pushDtas_built h hcur) (.inr (.inl rfl)))
      · split
        · refine fun _ => .inl (.consumed ?_)
          dsimp only
          rwa [pushDtas_input]
        · exact ends_mono (emitPass_kept hs'.inv first) (fun _ _ => trivial) fun x hx _ =>
            Or.inl (.consumed (Nat.lt_of_le_of_lt hx.2 hlt))
    · exact hemit
  next => exact hemit

theorem completeAida_getsOn (h : BuiltInv s) {cur : AidaEntry} (hcur : s.curAida = some cur)
    (hearly : cur.timestamp.slt first.timestamp = true) :
    Ends (fun _ => True) (Progress s) (completeAida conf first cur s) := by
  unfold completeAida
  refine ends_bind_stop (loadWindow_spec h _ _) (fun _ _ => trivial)
    fun s' hs' => ?_
  rcases hs'.step with ⟨rfl, hinput⟩ | hlt
  · have hany : s'.curAida.any (AidaEntry.early first) = true := by
      rw [hcur, Option.any_some, AidaEntry.early, (h.aida cur hcur).2, hearly]
      rfl
    rw [if_pos hany]
    exact .completed hinput (pushAida_built h hcur) (.inl rfl)
  · change Progress s (if _ then _ else _)
    split
    · exact .consumed (by rwa [pushAida_input])
    · exact .consumed hlt

theorem queuePass_getsOn (h : BuiltInv s) (hevents : s.events = first :: rest)
    (heventbuilder : conf.enableEventbuilder = true) (hbacklog : s.events.length ≤ 1000000) :
    Ends (fun _ => True) (GetsOn conf s) (queuePass conf first s) := by
  have hdtas := dtasPass_getsOn h hevents heventbuilder hbacklog
  unfold queuePass
  split
  next cur hcur =>
    split
    next hearly =>
      exact ends_bind (completeAida_getsOn h hcur hearly) fun s' hs' _ => .inl hs'
    next => exact hdtas
  next => exact hdtas

theorem getEventPass_getsOn (h : BuiltInv s) :
    Ends (fun _ => True) (GetsOn conf s) (getEventPass conf s) := by
  unfold getEventPass
  split
  · unfold plainPass
    split
    · exact nofun
    · trivial
    · exact nofun
  next hplain =>
  split
  · trivial
  next hbacklog =>
  split
  next first rest hevents =>
    exact queuePass_getsOn h hevents (Bool.not_eq_false _ ▸ hplain) (Nat.not_lt.mp hbacklog)
  next hevents => exact loadPass_getsOn h fun _ _ _ _ _ hne => (hne hevents).elim

theorem retry_getsOn (h : BuiltInv s) (hretry : MultiRetry conf s s') :
    Progress s s' ∨ WaitsAtEnd conf s ∧ s' = s := by
  have hpass := @getEventPass_getsOn conf _ h
  rw [hretry] at hpass
  exact hpass rfl

end Pass

abbrev rankOrder : WellFoundedRelation (Nat × Nat × Nat × Nat) := inferInstance

/-- The input goes first, then what is being built, then what holds the queue back. -/
def MultiEventSource.rank (s : MultiEventSource) : Nat × Nat × Nat × Nat :=
  (s.input.length, s.built, if s.lastMbsWr = lastWr then 0 else 1, s.events.length)

section Ends

variable {conf : MultiConf} {s s' : MultiEventSource}

theorem pushed_input (s : MultiEventSource) : s.pushAida.pushDtas.input = s.input :=
  pushDtas_input.trans pushAida_input

theorem completed_input (h : s' = s.pushAida ∨ s' = s.pushDtas ∨
    s' = { s.pushAida.pushDtas with lastMbsWr := lastWr }) : s'.input = s.input := by
  rcases h with rfl | rfl | rfl
  · exact pushAida_input
  · exact pushDtas_input
  · exact pushed_input s

theorem progress_rank (h : Progress s s') : rankOrder.rel s'.rank s.rank := by
  cases h with
  | consumed hlt => exact .left _ _ hlt
  | discarded hevents heq =>
    subst heq
    unfold MultiEventSource.rank
    rw [hevents]
    exact .right _ (.right _ (.right _ (Nat.lt_succ_self _)))
  | completed hinput hbuilt heq =>
    unfold MultiEventSource.rank
    rw [completed_input heq]
    exact .right _ (.left _ _ hbuilt)
  | opened hinput hwr heq =>
    subst heq
    unfold MultiEventSource.rank
    rw [if_neg hwr, if_pos rfl]
    exact .right _ (.right _ (.left _ _ Nat.one_pos))

theorem retry_inv (h : BuiltInv s) (hretry : MultiRetry conf s s') : BuiltInv s' := by
  have hkept := @getEventPass_kept conf _ h
  rw [hretry] at hkept
  exact hkept

theorem retries_inv (h : BuiltInv s) (hretries : MultiRetries conf s s') : BuiltInv s' := by
  induction hretries with
  | refl => exact h
  | tail _ hretry ih => exact retry_inv ih hretry

theorem getEvent_again (hretry : MultiRetry conf s s') (passes : Nat) :
    multiGetEvent conf (passes + 1) s = multiGetEvent conf passes s' := by
  rw [multiGetEvent, hretry]

theorem getEventEnds_retry (hretry : MultiRetry conf s s') :
    GetEventEnds conf s ↔ GetEventEnds conf s' := by
  constructor
  · rintro ⟨passes, result, hrun⟩
    cases passes with
    | zero => exact (Option.some_ne_none result hrun.symm).elim
    | succ passes => exact ⟨passes, result, (getEvent_again hretry passes).symm.trans hrun⟩
  · rintro ⟨passes, result, hrun⟩
    exact ⟨passes + 1, result, (getEvent_again hretry passes).trans hrun⟩

theorem getEventEnds_of_retries (h : BuiltInv s)
    (hwaits : ∀ s', MultiRetries conf s s' → ¬WaitsAtEnd conf s') : GetEventEnds conf s := by
  obtain ⟨r, hr⟩ : ∃ r, r = s.rank := ⟨_, rfl⟩
  induction r using rankOrder.wf.induction generalizing s with
  | _ r ih =>
    cases hpass : getEventPass conf s with
    | error stopped => exact ⟨1, .error stopped, by rw [multiGetEvent, hpass]⟩
    | ok x =>
      obtain ⟨e, s'⟩ := x
      cases e with
      | returned e => exact ⟨1, .ok (e, s'), by rw [multiGetEvent, hpass]⟩
      | again =>
        refine (getEventEnds_retry hpass).mpr ?_
        rcases retry_getsOn h hpass with hprogress | ⟨hwait, -⟩
        · exact ih s'.rank (hr ▸ progress_rank hprogress) (retry_inv h hpass)
            (fun s'' hs'' => hwaits s'' (.head hpass hs'')) rfl
        · exact (hwaits s .refl hwait).elim

theorem waitsAtEnd_retry (h : WaitsAtEnd conf s) : MultiRetry conf s s := by
  obtain ⟨first, rest, hevents, hwait⟩ := h.waiting
  have hripe : ¬s.ripe first = true := by
    rw [MultiEventSource.ripe, h.lastMbsWr, hwait]
    exact Bool.false_ne_true
  have hload : loadEvents conf s = .ok (.eof, s) := by rw [loadEvents, h.input]
  have hend : endPass s = (.again, { s with lastMbsWr := lastWr }) := by
    rw [endPass, if_neg (by rw [h.lastFile]; exact Bool.noConfusion), pushAida_none h.curAida,
      pushDtas_none h.curDtas, if_neg (by rw [hevents]; exact List.cons_ne_nil _ _)]
  have hsame : { s with lastMbsWr := lastWr } = s := by rw [← h.lastMbsWr]
  rw [MultiRetry, getEventPass, if_neg (by rw [h.eventbuilder]; exact Bool.noConfusion),
    if_neg (Nat.not_lt.mpr h.backlog), hevents]
  dsimp only
  rw [queuePass, h.curAida]
  dsimp only
  rw [dtasPass, h.curDtas]
  dsimp only
  rw [emitPass, if_neg hripe, loadPass, if_neg h.maxEvents, hload]
  change Except.ok (endPass s) = _
  rw [hend, hsame]

theorem waitsAtEnd_forever (h : WaitsAtEnd conf s) : ¬GetEventEnds conf s := by
  rintro ⟨passes, result, hrun⟩
  induction passes with
  | zero => exact Option.some_ne_none result hrun.symm
  | succ passes ih => exact ih ((getEvent_again (waitsAtEnd_retry h) passes).symm.trans hrun)

theorem getEventEnds_retries (hretries : MultiRetries conf s s') :
    GetEventEnds conf s ↔ GetEventEnds conf s' := by
  induction hretries with
  | refl => exact Iff.rfl
  | tail _ hretry ih => exact ih.trans (getEventEnds_retry hretry)

theorem getEventEnds_iff (h : BuiltInv s) :
    GetEventEnds conf s ↔ ∀ s', MultiRetries conf s s' → ¬WaitsAtEnd conf s' :=
  ⟨fun hends _ hretries hwait =>
    waitsAtEnd_forever hwait ((getEventEnds_retries hretries).mp hends), getEventEnds_of_retries h⟩

/-- A call that does not come to wait at the end ends, and each of its retries gets on. -/
theorem get_event_ends (h : MultiReached conf s)
    (hwaits : ∀ s', MultiRetries conf s s' → ¬WaitsAtEnd conf s') :
    GetEventEnds conf s ∧ ∀ s' s'', MultiRetries conf s s' → MultiRetry conf s' s'' →
      Progress s' s'' := by
  refine ⟨getEventEnds_of_retries (reached_inv h) hwaits, fun s' s'' hretries hretry => ?_⟩
  rcases retry_getsOn (retries_inv (reached_inv h) hretries) hretry with hprogress | ⟨hwait, -⟩
  · exact hprogress
  · exact (hwaits s' hretries hwait).elim

end Ends

def loneTrigger : MultiFileEvent := ⟨10, 1, 0, [⟨1, [], false⟩]⟩

def triggerSource : MultiEventSource := startMulti [.event loneTrigger] true

theorem get_event_trigger :
    GetEventEnds plainConf triggerSource ∧ ∀ s' s'', MultiRetries plainConf triggerSource s' →
      MultiRetry plainConf s' s'' → Progress s' s'' := by
  refine get_event_ends (.start _ true) fun s' hretries hwait => ?_
  -- the event is loaded, the queue is opened, and then the event is returned
  rcases hretries.cases_head with rfl | ⟨s1, h1, hretries⟩
  · cases hwait.input
  cases h1
  rcases hretries.cases_head with rfl | ⟨s2, h2, hretries⟩
  · cases hwait.lastMbsWr
  cases h2
  rcases hretries.cases_head with rfl | ⟨s3, h3, hretries⟩
  · obtain ⟨first, rest, hevents, hslt⟩ := hwait.waiting
    cases hevents
    cases hslt
  · cases h3

theorem get_event_opens_queue :
    ¬∀ conf s, MultiReached conf s → GetEventEnds conf s ∧ ∀ s' s'', MultiRetries conf s s' →
      MultiRetry conf s' s'' →
      s''.input.length < s'.input.length ∨ s''.events.length < s'.events.length := by
  intro h
  obtain ⟨-, hretries⟩ := h plainConf triggerSource (.start _ true)
  have hload : MultiRetry plainConf triggerSource
      { startMulti [] true with events := [.trigger 0 loneTrigger] } := rfl
  rcases hretries _ _ (.single hload) rfl with hlt | hlt
  · cases hlt
  · exact absurd hlt (by decide)

end Ucesb
