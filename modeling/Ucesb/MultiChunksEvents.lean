import Ucesb.MultiChunksMap

namespace Ucesb

/-- The toggles of a multi-event, as `build_external_toggle_map` found them. -/
structure BuiltToggles (U : Type) (nToggle : Nat) where
  counter : ModuleCounter U
  trigger : MultiChunks U
  before : ExternalToggleInfo nToggle
  fresh : Nat → UInt32
  events : UInt32
  info : ExternalToggleInfo nToggle
  built : before.buildExternalToggleMap counter trigger fresh events = .ok info

/-- The ways to map a module. -/
inductive EventMapping (U : Type) (nToggle : Nat)
  | plain
  | toggle (built : BuiltToggles U nToggle) (i : Fin nToggle)
  | continuous

namespace EventMapping

variable {T U : Type} {nToggle : Nat}

def map (mapping : EventMapping U nToggle) (counter : ModuleCounter T)
    (counterStart events : UInt32) (fresh : Nat → Int) (m : MultiChunks T) :
    Except ChunkStop (MultiChunks T) :=
  match mapping with
  | plain => m.mapMultiEvents counter none counterStart events fresh
  | toggle built i => m.mapMultiEvents counter (some (built.info.map i)) counterStart events fresh
  | continuous => m.mapContinuousMultiEvents counter counterStart events fresh

/-- The number of `int`s that the toggle maps may need is in range of an `uint32`. -/
def Fits : EventMapping U nToggle → Prop
  | toggle built _ =>
    nToggle * max built.before.allocEvents (max 8 (2 * built.events.toNat)) < 2 ^ 32
  | _ => True

/-- An item belongs to the event: by its counter, by the event that its counter has among those of
the toggle, or by its place. -/
def Places (mapping : EventMapping U nToggle) (counter : ModuleCounter T) (counterStart : UInt32)
    (i : Nat) (item : T) (event : Nat) : Prop :=
  match mapping with
  | plain => event = (counter.offset item counterStart).toNat
  | toggle built t =>
    (ExternalToggleInfo.toggleEvents built.counter built.trigger t built.events.toNat)[
      (counter.offset item counterStart).toNat]? = some event
  | continuous => event = i ∧ counter.goodOffset item (counterStart + UInt32.ofNat i) = true

end EventMapping

/-- An `ERROR` is reported. -/
def Reports {α : Type} (r : Except ChunkStop α) : Prop :=
  ∃ stop, r = .error stop ∧ stop.reported = true

section

variable {T U : Type} {nToggle : Nat} {mapping : EventMapping U nToggle}
  {counter : ModuleCounter T} {counterStart events : UInt32} {fresh : Nat → Int}
  {m m' : MultiChunks T}

/-- The items of a module are mapped to events and back, and there is nothing to get at other
numbers. -/
structure MultiEventsRight (mapping : EventMapping U nToggle) (counter : ModuleCounter T)
    (counterStart events : UInt32) (m' : MultiChunks T) (multiEventNo : Nat) : Prop where
  mapped : m'.Mapped events.toNat
  placed : ∀ i item, m'.items[i]? = some item →
    ∃ e : Nat, m'.itemEvent i = (e : Int) ∧ mapping.Places counter counterStart i item e
  beyond : m'.numEvents ≤ multiEventNo → Reports (m'.mapMembers multiEventNo) ∧
    Reports (m'.watchMembers multiEventNo) ∧ Reports (m'.addCorrMembers multiEventNo)

theorem intOf_eq {v : UInt32} {e : Nat} (h : intOf v = (e : Int)) : v.toNat = e := by
  rw [intOf, BitVec.toInt_eq_toNat_cond] at h
  have hv : v.toBitVec.toNat = v.toNat := rfl
  have := v.toNat_lt
  split_ifs at h <;> omega

theorem mapMultiEvents_spec {toggleMap : Option ExternalToggleMap}
    (h : m.mapMultiEvents counter toggleMap counterStart events fresh = .ok m') :
    m'.items = m.items ∧ m'.Mapped events.toNat ∧
      ∀ i item, m'.items[i]? = some item →
        MultiChunks.counterEvent counter toggleMap counterStart events item =
          .ok (m'.itemEvent i) := by
  rw [MultiChunks.mapMultiEvents] at h
  obtain ⟨m1, hset, h⟩ := bind_eq_ok.mp h
  obtain ⟨hitems, hevents⟩ := MultiChunks.setItemEvents_spec hset
  obtain ⟨hitems', hevent, hmapped⟩ := MultiChunks.assignEvents_spec h
  refine ⟨hitems'.trans hitems, hmapped, fun i item hi => ?_⟩
  rw [hevent]
  exact hevents i item (by rw [← hitems, ← hitems']; exact hi)

theorem MultiChunks.Mapped.event {i : Nat} {item : T} (h : m.Mapped events.toNat)
    (hi : m.items[i]? = some item) : ∃ e < events.toNat, m.itemEvent i = (e : Int) :=
  h.assigned i (List.getElem?_eq_some_iff.mp hi).1

theorem map_plain (h : m.mapMultiEvents counter none counterStart events fresh = .ok m') :
    m'.items = m.items ∧ m'.Mapped events.toNat ∧
      ∀ i item, m'.items[i]? = some item → ∃ e : Nat, m'.itemEvent i = (e : Int) ∧
        e = (counter.offset item counterStart).toNat := by
  obtain ⟨hitems, hmapped, hevents⟩ := mapMultiEvents_spec h
  refine ⟨hitems, hmapped, fun i item hi => ?_⟩
  obtain ⟨e, -, he⟩ := hmapped.event hi
  have hevent := hevents i item hi
  simp only [MultiChunks.counterEvent] at hevent
  split_ifs at hevent
  exact ⟨e, he, (intOf_eq ((Except.ok.inj hevent).trans he)).symm⟩

theorem map_toggle {built : BuiltToggles U nToggle} {t : Fin nToggle}
    (hfits : (EventMapping.toggle built t).Fits)
    (h : m.mapMultiEvents counter (some (built.info.map t)) counterStart events fresh = .ok m') :
    m'.items = m.items ∧ m'.Mapped events.toNat ∧
      ∀ i item, m'.items[i]? = some item → ∃ e : Nat, m'.itemEvent i = (e : Int) ∧
        (ExternalToggleInfo.toggleEvents built.counter built.trigger t built.events.toNat)[
          (counter.offset item counterStart).toNat]? = some e := by
  obtain ⟨hitems, hmapped, hevents⟩ := mapMultiEvents_spec h
  refine ⟨hitems, hmapped, fun i item hi => ?_⟩
  obtain ⟨e, -, he⟩ := hmapped.event hi
  have hevent := hevents i item hi
  simp only [MultiChunks.counterEvent] at hevent
  split_ifs at hevent with hcnts
  have hv := intOf_eq ((Except.ok.inj hevent).trans he)
  have hget := ExternalToggleInfo.map_getElem? (not_le.mp hcnts)
  rw [ExternalToggleInfo.buildExternalToggleMap_events hfits built.built t,
    List.getElem?_map] at hget
  obtain ⟨event, hevent', hofNat⟩ := Option.map_eq_some_iff.mp hget
  have hlt : event < built.events.toNat :=
    List.mem_range.mp (List.mem_filter.mp (List.mem_of_getElem? hevent')).1
  have heq : event = e := by
    rw [← hv, ← hofNat, UInt32.toNat_ofNat_of_lt' (lt_trans hlt built.events.toNat_lt)]
  exact ⟨e, he, heq ▸ hevent'⟩

theorem map_continuous
    (h : m.mapContinuousMultiEvents counter counterStart events fresh = .ok m') :
    m'.items = m.items ∧ m'.Mapped events.toNat ∧
      ∀ i item, m'.items[i]? = some item → ∃ e : Nat, m'.itemEvent i = (e : Int) ∧
        e = i ∧ counter.goodOffset item (counterStart + UInt32.ofNat i) = true := by
  rw [MultiChunks.mapContinuousMultiEvents] at h
  split_ifs at h with hmany
  obtain ⟨m1, hset, h⟩ := bind_eq_ok.mp h
  obtain ⟨hitems, hevents⟩ := MultiChunks.setItemEvents_spec hset
  obtain ⟨hitems', hevent, hmapped⟩ := MultiChunks.assignEvents_spec h
  refine ⟨hitems'.trans hitems, hmapped, fun i item hi => ?_⟩
  obtain ⟨e, -, he⟩ := hmapped.event hi
  have hlen := (List.getElem?_eq_some_iff.mp hi).1
  rw [hitems', hitems] at hi hlen
  have hcont := hevents i item hi
  rw [MultiChunks.continuousEvent] at hcont
  split_ifs at hcont with hgood
  rw [← hevent] at hcont
  have hv := intOf_eq ((Except.ok.inj hcont).trans he)
  have hi' : i < events.toNat := lt_of_lt_of_le hlen (not_lt.mp hmany)
  rw [UInt32.toNat_ofNat_of_lt' (lt_trans hi' events.toNat_lt)] at hv
  exact ⟨e, he, hv.symm, hgood⟩

theorem EventMapping.map_spec (hfits : mapping.Fits)
    (h : mapping.map counter counterStart events fresh m = .ok m') :
    m'.items = m.items ∧ m'.Mapped events.toNat ∧
      ∀ i item, m'.items[i]? = some item →
        ∃ e : Nat, m'.itemEvent i = (e : Int) ∧ mapping.Places counter counterStart i item e :=
  match mapping with
  | plain => map_plain h
  | toggle _ _ => map_toggle hfits h
  | continuous => map_continuous h

theorem reports_error {α : Type} {stop : ChunkStop} (h : stop.reported = true) :
    Reports (.error stop : Except ChunkStop α) := ⟨stop, rfl, h⟩

theorem watchMembers_silent (m : MultiChunks T) : ¬Reports (m.watchMembers m.numEvents) := by
  rintro ⟨stop, h, hstop⟩
  rw [MultiChunks.watchMembers, if_neg (lt_irrefl _), MultiChunks.indexedItem] at h
  split_ifs at h
  · cases h
    exact nomatch hstop
  · split at h
    next =>
      cases h
      exact nomatch hstop
    next => exact nomatch h

theorem beyond_reports {multiEventNo : Nat} (h : m.numEvents < multiEventNo) :
    Reports (m.mapMembers multiEventNo) ∧ Reports (m.watchMembers multiEventNo) ∧
      Reports (m.addCorrMembers multiEventNo) := by
  rw [MultiChunks.mapMembers, MultiChunks.watchMembers, MultiChunks.addCorrMembers, if_pos h,
    if_pos h]
  exact ⟨reports_error rfl, reports_error rfl, reports_error rfl⟩

/-- A module that could be mapped is mapped right. -/
theorem multi_events_right_iff (mapping : EventMapping U nToggle) (hfits : mapping.Fits)
    (counter : ModuleCounter T) (counterStart events : UInt32) (fresh : Nat → Int)
    {m m' : MultiChunks T} (h : mapping.map counter counterStart events fresh m = .ok m')
    (multiEventNo : Nat) :
    MultiEventsRight mapping counter counterStart events m' multiEventNo ↔
      multiEventNo ≠ events.toNat := by
  obtain ⟨-, hmapped, hplaced⟩ := EventMapping.map_spec hfits h
  have hnum := hmapped.numEvents
  constructor
  · rintro hright rfl
    have hreports := (hright.beyond hnum.le).2.1
    rw [← hnum] at hreports
    exact watchMembers_silent m' hreports
  · intro hne
    refine ⟨hmapped, hplaced, fun hle => beyond_reports ?_⟩
    exact lt_of_le_of_ne hle fun heq => hne (heq.symm.trans hnum)

end

def plainCounter : ModuleCounter UInt32 where
  offset item start := item - start
  goodOffset _ _ := true
  toggleMask item := item

def noChunks : MultiChunks UInt32 := ⟨[], 0, fun _ => 0, 0, 0, fun _ => 0⟩

/-- The counter with the toggles in its lowest two bits. -/
def maskCounter : ModuleCounter UInt32 where
  offset item start := item / 4 - start
  goodOffset _ _ := true
  toggleMask item := item % 4

/-- Three events, the second of them with the second toggle. -/
def triggered : MultiChunks UInt32 := ⟨[1, 6, 9], 8, fun i => i, 3, 8, fun e => e⟩

def builtMaps : Except ChunkStop (ExternalToggleInfo 2) :=
  ExternalToggleInfo.buildExternalToggleMap maskCounter triggered ⟨0, fun _ => 0, fun _ => 0⟩
    (fun _ => 0) 3

def twoToggles : BuiltToggles UInt32 2 where
  counter := maskCounter
  trigger := triggered
  before := ⟨0, fun _ => 0, fun _ => 0⟩
  fresh := fun _ => 0
  events := 3
  info := builtMaps.toOption.getD ⟨0, fun _ => 0, fun _ => 0⟩
  built := rfl

/-- A module with items for the first toggle, the later one first. -/
theorem multi_events_right_toggle :
    ∃ m', (EventMapping.toggle twoToggles 0).map plainCounter 5 3 (fun _ => 0)
        ((noChunks.nextFree (fun _ => 0) 6).nextFree (fun _ => 0) 5) = .ok m' ∧
      m'.itemEvent 0 = 2 ∧ m'.itemEvent 1 = 0 ∧
      ∀ multiEventNo, MultiEventsRight (EventMapping.toggle twoToggles 0) plainCounter 5 3 m'
        multiEventNo ↔ multiEventNo ≠ (3 : UInt32).toNat := by
  have hfits : (EventMapping.toggle twoToggles 0).Fits :=
    show 2 * max 0 (max 8 (2 * 3)) < 2 ^ 32 by decide
  refine ⟨_, rfl, rfl, rfl, fun multiEventNo => ?_⟩
  exact multi_events_right_iff (m := (noChunks.nextFree (fun _ => 0) 6).nextFree (fun _ => 0) 5) _
    hfits plainCounter 5 3 (fun _ => 0) rfl multiEventNo

theorem multi_events_beyond :
    ∃ m', (EventMapping.plain : EventMapping UInt32 2).map plainCounter 5 1 (fun _ => 0)
        (noChunks.nextFree (fun _ => 0) 5) = .ok m' ∧
      m'.numEvents ≤ 1 ∧ m'.watchMembers 1 = .ok (some 5) ∧ m'.mapMembers 1 = .ok (some 5) :=
  ⟨_, rfl, le_rfl, rfl, rfl⟩

end Ucesb
