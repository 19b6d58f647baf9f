import Ucesb.Checks
import Mathlib.Tactic.Common
import Mathlib.Tactic.Ring
import Mathlib.Data.List.FinRange

namespace Ucesb

/-- How the functions end other than with a result.  The last two are not `ERROR`s: a loop that
does not end and an access outside an array. -/
inductive ChunkStop
  | counterOutside
  | invalidEvent
  | severalChunks
  | tooManyItems
  | badOffset
  | noToggleItem
  | toggleMaskEmpty
  | toggleMaskRange
  | beyondEvents
  | notAssigned
  | noReturn
  | outside
deriving DecidableEq

def ChunkStop.reported : ChunkStop → Bool
  | .noReturn => false
  | .outside => false
  | _ => true

/-- `multi_chunks`.  `items` are the first `_num_items` of the `_alloc_items`, and
`_event_index` is `NULL` as long as `_alloc_events` is 0. -/
structure MultiChunks (T : Type) where
  items : List T
  allocItems : Nat
  itemEvent : Nat → Int
  numEvents : Nat
  allocEvents : Nat
  eventIndex : Nat → Int

structure ModuleCounter (T : Type) where
  offset : T → UInt32 → UInt32
  goodOffset : T → UInt32 → Bool
  toggleMask : T → UInt32

/-- The value of an `unsigned int` in an `int`. -/
def intOf (v : UInt32) : Int := v.toBitVec.toInt

/-- `while (new_size < events) new_size *= 2;`.  After 32 rounds the size is 0. -/
def doubledSize (events : Nat) : Nat → Nat → Except ChunkStop Nat
  | 0, _ => .error .noReturn
  | fuel + 1, size =>
    if size < events then doubledSize events fuel (size * 2 % 2 ^ 32) else .ok size

def grownEvents (allocEvents events : Nat) : Except ChunkStop Nat :=
  doubledSize events 33 (if allocEvents ≠ 0 then allocEvents * 2 % 2 ^ 32 else 8)

namespace MultiChunks

variable {T : Type}

def clean (m : MultiChunks T) : MultiChunks T := { m with items := [], numEvents := 0 }

/-- `next_free`, with the item that is filled after it.  A new array has the contents `fresh`. -/
def nextFree (m : MultiChunks T) (fresh : Nat → Int) (item : T) : MultiChunks T :=
  let m :=
    if m.allocItems ≤ m.items.length then
      { m with allocItems := if m.allocItems ≠ 0 then m.allocItems * 2 else 8, itemEvent := fresh }
    else m
  { m with
    items := m.items ++ [item]
    itemEvent := Function.update m.itemEvent m.items.length (-1) }

/-- The round of `assign_events` for one item. -/
def assignItem (itemEvent : Nat → Int) (events : Nat) (index : Nat → Int) (item : Nat) :
    Except ChunkStop (Nat → Int) :=
  if itemEvent item < 0 ∨ (events : Int) ≤ itemEvent item then .error .invalidEvent
  else if index (itemEvent item).toNat ≠ -1 then .error .severalChunks
  else .ok (Function.update index (itemEvent item).toNat item)

/-- The start of `assign_events`: the index array is large enough. -/
def growEvents (m : MultiChunks T) (fresh : Nat → Int) (events : UInt32) :
    Except ChunkStop (MultiChunks T) :=
  if m.allocEvents < events.toNat then do
    let size ← grownEvents m.allocEvents events.toNat
    pure { m with allocEvents := size, eventIndex := fresh }
  else pure m

def assignEvents (m : MultiChunks T) (fresh : Nat → Int) (events : UInt32) :
    Except ChunkStop (MultiChunks T) := do
  let m ← m.growEvents fresh events
  let empty : Nat → Int := fun e => if e < events.toNat then -1 else m.eventIndex e
  let index ← (List.range m.items.length).foldlM (assignItem m.itemEvent events.toNat) empty
  pure { m with eventIndex := index, numEvents := events.toNat }

/-- The loops of `map_multi_events` and `map_continuous_multi_events`, with the event for an item
at its place. -/
def setItemEvents (eventOf : Nat → T → Except ChunkStop Int) (m : MultiChunks T) :
    Except ChunkStop (MultiChunks T) := do
  let itemEvent ← m.items.zipIdx.foldlM (fun itemEvent a => do
    let event ← eventOf a.2 a.1
    pure (Function.update itemEvent a.2 event)) m.itemEvent
  pure { m with itemEvent }

end MultiChunks

structure ExternalToggleMap where
  cnts : Nat
  cntToEvent : Nat → UInt32

/-- `external_toggle_info`: the counts of the maps, and the memory for all of them. -/
structure ExternalToggleInfo (nToggle : Nat) where
  allocEvents : Nat
  cnts : Fin nToggle → Nat
  memory : Nat → UInt32

namespace ExternalToggleInfo

variable {nToggle : Nat}

/-- The number of `int`s that the memory was allocated for. -/
def size (info : ExternalToggleInfo nToggle) : Nat := nToggle * info.allocEvents % 2 ^ 32

/-- The place of `_maps[i]._cnt_to_event` in the memory. -/
def start (info : ExternalToggleInfo nToggle) (i : Fin nToggle) : Nat :=
  info.allocEvents * i % 2 ^ 32

def map (info : ExternalToggleInfo nToggle) (i : Fin nToggle) : ExternalToggleMap :=
  ⟨info.cnts i, fun cnt => info.memory (info.start i + cnt)⟩

/-- The memory of `clear_alloc`, which keeps what it had. -/
def growMaps (info : ExternalToggleInfo nToggle) (fresh : Nat → UInt32) (events : UInt32) :
    Except ChunkStop (ExternalToggleInfo nToggle) :=
  if info.allocEvents < events.toNat then do
    let size ← grownEvents info.allocEvents events.toNat
    pure { info with
      allocEvents := size
      memory := fun a => if a < info.size then info.memory a else fresh a }
  else pure info

def clearAlloc (info : ExternalToggleInfo nToggle) (fresh : Nat → UInt32) (events : UInt32) :
    Except ChunkStop (ExternalToggleInfo nToggle) := do
  let info ← info.growMaps fresh events
  pure { info with cnts := fun _ => 0 }

def addEvent (info : ExternalToggleInfo nToggle) (i : Fin nToggle) (event : UInt32) :
    Except ChunkStop (ExternalToggleInfo nToggle) :=
  if info.start i + info.cnts i < info.size then
    .ok { info with
      cnts := Function.update info.cnts i (info.cnts i + 1)
      memory := Function.update info.memory (info.start i + info.cnts i) event }
  else .error .outside

/-- The item of an event, for `build_external_toggle_map`. -/
def toggleItem {U : Type} (module : MultiChunks U) (event : Nat) : Except ChunkStop U :=
  if module.allocEvents ≤ event then .error .outside
  else if module.eventIndex event < 0 then .error .noToggleItem
  else
    match module.items[(module.eventIndex event).toNat]? with
    | none => .error .outside
    | some item => .ok item

/-- A round of `build_external_toggle_map`. -/
def buildEvent {U : Type} (counter : ModuleCounter U) (module : MultiChunks U)
    (info : ExternalToggleInfo nToggle) (event : Nat) :
    Except ChunkStop (ExternalToggleInfo nToggle) := do
  let item ← toggleItem module event
  let toggleMask := counter.toggleMask item
  if toggleMask = 0 then .error .toggleMaskEmpty
  else if 2 ^ nToggle ≤ toggleMask.toNat then .error .toggleMaskRange
  else
    (List.finRange nToggle).foldlM (fun info (i : Fin nToggle) =>
      if toggleMask.toNat.testBit i.val then info.addEvent i (UInt32.ofNat event)
      else pure info) info

def buildExternalToggleMap {U : Type} (counter : ModuleCounter U) (module : MultiChunks U)
    (info : ExternalToggleInfo nToggle) (fresh : Nat → UInt32) (events : UInt32) :
    Except ChunkStop (ExternalToggleInfo nToggle) := do
  let info ← info.clearAlloc fresh events
  (List.range events.toNat).foldlM (buildEvent counter module) info

end ExternalToggleInfo

namespace MultiChunks

variable {T : Type}

/-- The event of an item in `map_multi_events`. -/
def counterEvent (counter : ModuleCounter T) (toggleMap : Option ExternalToggleMap)
    (counterStart events : UInt32) (item : T) : Except ChunkStop Int :=
  let offset := counter.offset item counterStart
  match toggleMap with
  | none => if events ≤ offset then .error .counterOutside else .ok (intOf offset)
  | some toggleMap =>
    if toggleMap.cnts ≤ offset.toNat then .error .counterOutside
    else if events ≤ toggleMap.cntToEvent offset.toNat then .error .counterOutside
    else .ok (intOf (toggleMap.cntToEvent offset.toNat))

def mapMultiEvents (counter : ModuleCounter T) (toggleMap : Option ExternalToggleMap)
    (counterStart events : UInt32) (fresh : Nat → Int) (m : MultiChunks T) :
    Except ChunkStop (MultiChunks T) := do
  let m ← m.setItemEvents fun _ => counterEvent counter toggleMap counterStart events
  m.assignEvents fresh events

/-- The event of an item in `map_continuous_multi_events`. -/
def continuousEvent (counter : ModuleCounter T) (counterStart : UInt32) (i : Nat) (item : T) :
    Except ChunkStop Int :=
  if counter.goodOffset item (counterStart + UInt32.ofNat i) then .ok (intOf (UInt32.ofNat i))
  else .error .badOffset

def mapContinuousMultiEvents (counter : ModuleCounter T) (counterStart events : UInt32)
    (fresh : Nat → Int) (m : MultiChunks T) : Except ChunkStop (MultiChunks T) :=
  if events.toNat < m.items.length then .error .tooManyItems
  else do
    let m ← m.setItemEvents (continuousEvent counter counterStart)
    m.assignEvents fresh events

def indexedItem (m : MultiChunks T) (multiEventNo : Nat) : Except ChunkStop (Option T) :=
  if m.allocEvents ≤ multiEventNo then .error .outside
  else if m.eventIndex multiEventNo < 0 then .ok none
  else
    match m.items[(m.eventIndex multiEventNo).toNat]? with
    | none => .error .outside
    | some item => .ok (some item)

def mapMembers (m : MultiChunks T) (multiEventNo : Nat) : Except ChunkStop (Option T) :=
  if m.numEvents < multiEventNo then .error .beyondEvents
  else if m.allocEvents = 0 then .error .notAssigned
  else m.indexedItem multiEventNo

def watchMembers (m : MultiChunks T) (multiEventNo : Nat) : Except ChunkStop (Option T) :=
  if m.numEvents < multiEventNo then .error .beyondEvents
  else m.indexedItem multiEventNo

def addCorrMembers (m : MultiChunks T) (multiEventNo : Nat) : Except ChunkStop (Option T) :=
  if m.numEvents < multiEventNo then .error .beyondEvents
  else m.indexedItem multiEventNo

end MultiChunks

theorem foldlM_range_inv {σ ε : Type} {f : σ → Nat → Except ε σ} (Inv : Nat → σ → Prop) {n : Nat}
    (hstep : ∀ i s s', i < n → Inv i s → f s i = .ok s' → Inv (i + 1) s') {s s' : σ}
    (h0 : Inv 0 s) (h : (List.range n).foldlM f s = .ok s') : Inv n s' := by
  induction n generalizing s' with
  | zero => exact Except.ok.inj h ▸ h0
  | succ n ih =>
    rw [List.range_succ, List.foldlM_append] at h
    obtain ⟨s1, h1, h⟩ := bind_eq_ok.mp h
    rw [List.foldlM_cons] at h
    obtain ⟨s2, h2, h⟩ := bind_eq_ok.mp h
    have hn := ih (fun i s s' hi => hstep i s s' (Nat.lt_succ_of_lt hi)) h1
    exact Except.ok.inj h ▸ hstep n s1 s2 (Nat.lt_succ_self n) hn h2

namespace MultiChunks

variable {T : Type}

/-- Every item has one of the events, and `eventIndex` is the inverse: -1 where there is no item. -/
structure Mapped (m : MultiChunks T) (events : Nat) : Prop where
  numEvents : m.numEvents = events
  assigned : ∀ i < m.items.length, ∃ e < events, m.itemEvent i = (e : Int)
  unique : ∀ i < m.items.length, ∀ j < m.items.length, m.itemEvent i = m.itemEvent j → i = j
  inverse : ∀ i < m.items.length, ∀ e : Nat, m.itemEvent i = (e : Int) → m.eventIndex e = (i : Int)
  empty : ∀ e < events, (∀ i < m.items.length, m.itemEvent i ≠ (e : Int)) → m.eventIndex e = -1

/-- The index after the first `k` items. -/
structure IndexInv (itemEvent : Nat → Int) (events k : Nat) (index : Nat → Int) : Prop where
  assigned : ∀ i < k, ∃ e < events, itemEvent i = (e : Int) ∧ index e = (i : Int)
  only : ∀ e < events, index e = -1 ∨ ∃ i < k, itemEvent i = (e : Int)

theorem assignItem_inv {itemEvent : Nat → Int} {events k : Nat} {index index' : Nat → Int}
    (h : IndexInv itemEvent events k index) (hs : assignItem itemEvent events index k = .ok index') :
    IndexInv itemEvent events (k + 1) index' := by
  rw [assignItem] at hs
  split_ifs at hs with hevent hused
  obtain rfl := Except.ok.inj hs
  obtain ⟨e, he⟩ : ∃ e : Nat, itemEvent k = (e : Int) := ⟨(itemEvent k).toNat, by omega⟩
  rw [he, Int.toNat_natCast] at hused ⊢
  have hlt : e < events := by omega
  constructor
  · intro i hi
    rcases Nat.lt_succ_iff_lt_or_eq.mp hi with hi | rfl
    · obtain ⟨e', he', heq, hindex⟩ := h.assigned i hi
      have hne : e' ≠ e := by
        rintro rfl
        omega
      exact ⟨e', he', heq, by rw [Function.update_of_ne hne, hindex]⟩
    · exact ⟨e, hlt, he, Function.update_self ..⟩
  · intro e' he'
    by_cases hee : e' = e
    · exact .inr ⟨k, Nat.lt_succ_self k, hee ▸ he⟩
    · rw [Function.update_of_ne hee]
      rcases h.only e' he' with hnone | ⟨i, hi, heq⟩
      · exact .inl hnone
      · exact .inr ⟨i, Nat.lt_succ_of_lt hi, heq⟩

theorem growEvents_spec {m m' : MultiChunks T} {fresh : Nat → Int} {events : UInt32}
    (h : m.growEvents fresh events = .ok m') :
    m'.items = m.items ∧ m'.itemEvent = m.itemEvent := by
  rw [growEvents] at h
  split_ifs at h
  · obtain ⟨size, -, h⟩ := bind_eq_ok.mp h
    obtain rfl := Except.ok.inj h
    exact ⟨rfl, rfl⟩
  · obtain rfl := Except.ok.inj h
    exact ⟨rfl, rfl⟩

theorem assignEvents_spec {m m' : MultiChunks T} {fresh : Nat → Int} {events : UInt32}
    (h : m.assignEvents fresh events = .ok m') :
    m'.items = m.items ∧ m'.itemEvent = m.itemEvent ∧ m'.Mapped events.toNat := by
  rw [assignEvents] at h
  obtain ⟨m1, hgrow, h⟩ := bind_eq_ok.mp h
  obtain ⟨index, hindex, h⟩ := bind_eq_ok.mp h
  obtain rfl := Except.ok.inj h
  have hsame := growEvents_spec hgrow
  have hinv : IndexInv m1.itemEvent events.toNat m1.items.length index := by
    refine foldlM_range_inv (IndexInv m1.itemEvent events.toNat)
      (fun k s s' _ hk hs => assignItem_inv hk hs) ⟨nofun, fun e he => .inl (if_pos he)⟩ hindex
  refine ⟨hsame.1, hsame.2, rfl, fun i hi => ?_, fun i hi j hj heq => ?_, fun i hi e he => ?_,
    fun e he hnone => ?_⟩
  · obtain ⟨e, he, heq, -⟩ := hinv.assigned i hi
    exact ⟨e, he, heq⟩
  · obtain ⟨e, -, hei, hi⟩ := hinv.assigned i hi
    obtain ⟨e', -, hej, hj⟩ := hinv.assigned j hj
    have hee : e = e' := by
      simp only at heq
      omega
    subst hee
    omega
  · obtain ⟨e', -, heq, hindex⟩ := hinv.assigned i hi
    have hee : e' = e := by
      simp only at he
      omega
    exact hee ▸ hindex
  · rcases hinv.only e he with hindex | ⟨i, hi, heq⟩
    · exact hindex
    · exact absurd heq (hnone i hi)

theorem setItemEvents_spec {eventOf : Nat → T → Except ChunkStop Int} {m m' : MultiChunks T}
    (h : m.setItemEvents eventOf = .ok m') :
    m'.items = m.items ∧
      ∀ i item, m.items[i]? = some item → eventOf i item = .ok (m'.itemEvent i) := by
  rw [setItemEvents] at h
  obtain ⟨itemEvent, hfold, h⟩ := bind_eq_ok.mp h
  obtain rfl := Except.ok.inj h
  refine ⟨rfl, ?_⟩
  have hrun : ∀ (k : Nat) (l : List T) (start result : Nat → Int),
      (l.zipIdx k).foldlM (fun itemEvent a => do
        let event ← eventOf a.2 a.1
        pure (Function.update itemEvent a.2 event)) start = Except.ok result →
      (∀ i < k, result i = start i) ∧
        ∀ i item, l[i]? = some item → eventOf (k + i) item = .ok (result (k + i)) := by
    intro k l
    induction l generalizing k with
    | nil =>
      intro start result hr
      obtain rfl := Except.ok.inj hr
      exact ⟨fun _ _ => rfl, fun i item hi => by simp at hi⟩
    | cons a l ih =>
      intro start result hr
      rw [List.zipIdx_cons, List.foldlM_cons] at hr
      obtain ⟨next, hnext, hr⟩ := bind_eq_ok.mp hr
      obtain ⟨event, hevent, hnext⟩ := bind_eq_ok.mp hnext
      obtain rfl := Except.ok.inj hnext
      obtain ⟨hbefore, hafter⟩ := ih (k + 1) _ _ hr
      constructor
      · intro i hi
        rw [hbefore i (by omega), Function.update_of_ne (by omega)]
      · intro i item hi
        cases i with
        | zero =>
          obtain rfl : a = item := by simpa using hi
          rw [Nat.add_zero, hbefore k (by omega), Function.update_self]
          exact hevent
        | succ i =>
          have := hafter i item (by simpa using hi)
          rwa [show k + 1 + i = k + (i + 1) by omega] at this
  obtain ⟨-, hevents⟩ := hrun 0 m.items m.itemEvent itemEvent hfold
  intro i item hi
  simpa using hevents i item hi

end MultiChunks

namespace ExternalToggleInfo

variable {nToggle : Nat} {info info' : ExternalToggleInfo nToggle}

def events (info : ExternalToggleInfo nToggle) (i : Fin nToggle) : List UInt32 :=
  (List.range (info.cnts i)).map (info.map i).cntToEvent

theorem map_getElem? {i : Fin nToggle} {cnt : Nat} (h : cnt < (info.map i).cnts) :
    (info.events i)[cnt]? = some ((info.map i).cntToEvent cnt) := by
  have hrange : (List.range (info.cnts i))[cnt]? = some cnt := List.getElem?_range h
  rw [events, List.getElem?_map, hrange]
  rfl

def Fits (info : ExternalToggleInfo nToggle) : Prop := nToggle * info.allocEvents < 2 ^ 32

theorem start_eq (h : info.Fits) (i : Fin nToggle) : info.start i = info.allocEvents * i := by
  have hle : info.allocEvents * i ≤ nToggle * info.allocEvents := by
    rw [Nat.mul_comm nToggle]
    exact Nat.mul_le_mul_left _ i.isLt.le
  exact Nat.mod_eq_of_lt (lt_of_le_of_lt hle h)

theorem start_disjoint (h : info.Fits) {i j : Fin nToggle} (hij : i ≠ j) {a b : Nat}
    (ha : a < info.allocEvents) (hb : b < info.allocEvents) :
    info.start i + a ≠ info.start j + b := by
  rw [start_eq h, start_eq h]
  rcases Nat.lt_or_gt_of_ne (Fin.val_ne_of_ne hij) with hlt | hlt
  · have hmul := Nat.mul_le_mul_left info.allocEvents hlt
    rw [Nat.succ_eq_add_one, Nat.mul_add, Nat.mul_one] at hmul
    omega
  · have hmul := Nat.mul_le_mul_left info.allocEvents hlt
    rw [Nat.succ_eq_add_one, Nat.mul_add, Nat.mul_one] at hmul
    omega

theorem addEvent_spec (h : info.Fits) {i : Fin nToggle} {event : UInt32}
    (hcnts : ∀ j, info.cnts j ≤ info.allocEvents) (hi : info.cnts i < info.allocEvents)
    (hs : info.addEvent i event = .ok info') :
    info'.allocEvents = info.allocEvents ∧
      ∀ j, info'.events j = info.events j ++ if j = i then [event] else [] := by
  rw [addEvent] at hs
  split_ifs at hs
  obtain rfl := Except.ok.inj hs
  refine ⟨rfl, fun j => ?_⟩
  have hkept : ∀ cnt < info.cnts j,
      Function.update info.memory (info.start i + info.cnts i) event (info.start j + cnt) =
        info.memory (info.start j + cnt) := by
    intro cnt hcnt
    refine Function.update_of_ne ?_ ..
    by_cases hji : j = i
    · subst hji
      omega
    · exact start_disjoint h hji (lt_of_lt_of_le hcnt (hcnts j)) hi
  have hold : (List.range (info.cnts j)).map (fun cnt =>
      Function.update info.memory (info.start i + info.cnts i) event (info.start j + cnt)) =
        info.events j :=
    List.map_congr_left fun cnt hcnt => hkept cnt (List.mem_range.mp hcnt)
  by_cases hji : j = i
  · subst hji
    rw [if_pos rfl, ← hold]
    show (List.range (Function.update info.cnts j (info.cnts j + 1) j)).map _ = _
    rw [Function.update_self, List.range_succ, List.map_append, List.map_singleton]
    congr 2
    exact Function.update_self ..
  · rw [if_neg hji, List.append_nil, ← hold]
    show (List.range (Function.update info.cnts i (info.cnts i + 1) j)).map _ = _
    rw [Function.update_of_ne hji]
    rfl

theorem length_events (i : Fin nToggle) : (info.events i).length = info.cnts i := by
  rw [events, List.length_map, List.length_range]

theorem addEvents_spec (h : info.Fits) {event : UInt32} {mask : Nat} {l : List (Fin nToggle)}
    (hl : l.Nodup) (hcnts : ∀ j, info.cnts j ≤ info.allocEvents)
    (hroom : ∀ j ∈ l, info.cnts j < info.allocEvents)
    (hs : l.foldlM (fun info (i : Fin nToggle) =>
      if mask.testBit i.val then info.addEvent i event else pure info) info = .ok info') :
    info'.allocEvents = info.allocEvents ∧
      ∀ j, info'.events j = info.events j ++ if j ∈ l ∧ mask.testBit j then [event] else [] := by
  induction l generalizing info with
  | nil =>
    obtain rfl := Except.ok.inj hs
    exact ⟨rfl, fun j => by simp⟩
  | cons i l ih =>
    rw [List.foldlM_cons] at hs
    obtain ⟨next, hnext, hs⟩ := bind_eq_ok.mp hs
    have hil := List.nodup_cons.mp hl
    have hi := hroom i (List.mem_cons_self ..)
    have hstep : next.allocEvents = info.allocEvents ∧
        ∀ j, next.events j = info.events j ++ if j = i ∧ mask.testBit j then [event] else [] := by
      split_ifs at hnext with hbit
      · obtain ⟨halloc, hevents⟩ := addEvent_spec h hcnts hi hnext
        refine ⟨halloc, fun j => (hevents j).trans ?_⟩
        by_cases hji : j = i
        · rw [if_pos hji, if_pos ⟨hji, hji ▸ hbit⟩]
        · rw [if_neg hji, if_neg fun hj => hji hj.1]
      · obtain rfl := Except.ok.inj hnext
        refine ⟨rfl, fun j => ?_⟩
        have hj : ¬(j = i ∧ mask.testBit j.val = true) := fun hj => hbit (hj.1 ▸ hj.2)
        rw [if_neg hj, List.append_nil]
    have hnextCnts : ∀ j, next.cnts j ≤ info.cnts j + if j = i then 1 else 0 := by
      intro j
      rw [← length_events, ← length_events, hstep.2 j, List.length_append]
      by_cases hji : j = i
      · rw [if_pos hji]
        split <;> simp
      · rw [if_neg hji, if_neg fun hj => hji hj.1]
        simp
    obtain ⟨halloc, hevents⟩ := ih (by rw [Fits, hstep.1]; exact h) hil.2
      (fun j => by
        have hnext := hnextCnts j
        have := hcnts j
        rw [hstep.1]
        split_ifs at hnext with hji
        · rw [hji] at hnext ⊢
          omega
        · omega)
      (fun j hj => by
        have hji : j ≠ i := fun hji => hil.1 (hji ▸ hj)
        have hnext := hnextCnts j
        have := hroom j (List.mem_cons_of_mem i hj)
        rw [if_neg hji] at hnext
        rw [hstep.1]
        omega) hs
    refine ⟨halloc.trans hstep.1, fun j => ?_⟩
    rw [hevents j, hstep.2 j, List.append_assoc]
    congr 1
    by_cases hji : j = i
    · subst hji
      have hleft : ¬(j ∈ l ∧ mask.testBit j.val = true) := fun hj => hil.1 hj.1
      rw [if_neg hleft]
      simp
    · simp [hji]

theorem doubledSize_spec {events fuel size r : Nat} (h : doubledSize events fuel size = .ok r) :
    events ≤ r ∧ (r ≤ size ∨ r < 2 * events) := by
  induction fuel generalizing size with
  | zero => exact nomatch h
  | succ fuel ih =>
    rw [doubledSize] at h
    split_ifs at h with hlt
    · obtain ⟨hle, hsize⟩ := ih h
      have := Nat.mod_le (size * 2) (2 ^ 32)
      exact ⟨hle, .inr (by omega)⟩
    · obtain rfl := Except.ok.inj h
      exact ⟨by omega, .inl le_rfl⟩

theorem grownEvents_spec {allocEvents events r : Nat} (hlt : allocEvents < events)
    (h : grownEvents allocEvents events = .ok r) : events ≤ r ∧ r ≤ max 8 (2 * events) := by
  obtain ⟨hle, hr⟩ := doubledSize_spec h
  have := Nat.mod_le (allocEvents * 2) (2 ^ 32)
  split_ifs at hr <;> omega

theorem clearAlloc_spec {fresh : Nat → UInt32} {events : UInt32}
    (h : info.clearAlloc fresh events = .ok info') :
    events.toNat ≤ info'.allocEvents ∧
      info'.allocEvents ≤ max info.allocEvents (max 8 (2 * events.toNat)) ∧
        ∀ i, info'.cnts i = 0 := by
  rw [clearAlloc] at h
  obtain ⟨grown, hgrow, h⟩ := bind_eq_ok.mp h
  obtain rfl := Except.ok.inj h
  rw [growMaps] at hgrow
  split_ifs at hgrow with hlt
  · obtain ⟨size, hsize, hgrow⟩ := bind_eq_ok.mp hgrow
    obtain rfl := Except.ok.inj hgrow
    obtain ⟨hle, hr⟩ := grownEvents_spec hlt hsize
    exact ⟨hle, le_trans hr (le_max_right _ _), fun _ => rfl⟩
  · obtain rfl := Except.ok.inj hgrow
    exact ⟨not_lt.mp hlt, le_max_left _ _, fun _ => rfl⟩

variable {U : Type} {counter : ModuleCounter U} {module : MultiChunks U}

def hasToggle (counter : ModuleCounter U) (module : MultiChunks U) (i : Fin nToggle)
    (event : Nat) : Bool :=
  match toggleItem module event with
  | .ok item => (counter.toggleMask item).toNat.testBit i
  | .error _ => false

def toggleEvents (counter : ModuleCounter U) (module : MultiChunks U) (i : Fin nToggle)
    (events : Nat) : List Nat :=
  (List.range events).filter (hasToggle counter module i)

theorem toggleEvents_succ (i : Fin nToggle) (events : Nat) :
    toggleEvents counter module i (events + 1) = toggleEvents counter module i events ++
      if hasToggle counter module i events then [events] else [] := by
  rw [toggleEvents, List.range_succ, List.filter_append, List.filter_singleton, toggleEvents]
  cases hasToggle counter module i events <;> rfl

/-- The maps after the first `k` events. -/
structure BuildInv (counter : ModuleCounter U) (module : MultiChunks U) (allocEvents k : Nat)
    (info : ExternalToggleInfo nToggle) : Prop where
  allocEvents : info.allocEvents = allocEvents
  events : ∀ i, info.events i = (toggleEvents counter module i k).map UInt32.ofNat

theorem BuildInv.cnts_le {allocEvents k : Nat} (h : BuildInv counter module allocEvents k info)
    (i : Fin nToggle) : info.cnts i ≤ k := by
  rw [← length_events, h.events i, List.length_map]
  exact (List.length_filter_le _ _).trans_eq List.length_range

theorem buildEvent_inv {allocEvents k : Nat} (hfits : nToggle * allocEvents < 2 ^ 32)
    (hk : k < allocEvents) (h : BuildInv counter module allocEvents k info)
    (hs : info.buildEvent counter module k = .ok info') :
    BuildInv counter module allocEvents (k + 1) info' := by
  rw [buildEvent] at hs
  obtain ⟨item, hitem, hs⟩ := bind_eq_ok.mp hs
  simp only at hs
  split_ifs at hs
  have hroom : ∀ j, info.cnts j < info.allocEvents := by
    intro j
    have := h.cnts_le j
    rw [h.allocEvents]
    omega
  obtain ⟨halloc, hevents⟩ := addEvents_spec (by rw [Fits, h.allocEvents]; exact hfits)
    (List.nodup_finRange nToggle) (fun j => (hroom j).le) (fun j _ => hroom j) hs
  refine ⟨halloc.trans h.allocEvents, fun i => ?_⟩
  have htoggle : hasToggle counter module i k = (counter.toggleMask item).toNat.testBit i := by
    rw [hasToggle, hitem]
  rw [hevents i, h.events i, toggleEvents_succ, List.map_append, htoggle]
  congr 1
  cases (counter.toggleMask item).toNat.testBit i <;> simp [List.mem_finRange]

theorem buildExternalToggleMap_events {fresh : Nat → UInt32} {events : UInt32}
    (hfits : nToggle * max info.allocEvents (max 8 (2 * events.toNat)) < 2 ^ 32)
    (h : info.buildExternalToggleMap counter module fresh events = .ok info') (i : Fin nToggle) :
    info'.events i = (toggleEvents counter module i events.toNat).map UInt32.ofNat := by
  rw [buildExternalToggleMap] at h
  obtain ⟨cleared, hclear, h⟩ := bind_eq_ok.mp h
  obtain ⟨hle, hmax, hcnts⟩ := clearAlloc_spec hclear
  have hfits' : nToggle * cleared.allocEvents < 2 ^ 32 :=
    lt_of_le_of_lt (Nat.mul_le_mul_left nToggle hmax) hfits
  have hinit : BuildInv counter module cleared.allocEvents 0 cleared :=
    ⟨rfl, fun j => List.eq_nil_of_length_eq_zero ((length_events j).trans (hcnts j))⟩
  exact (foldlM_range_inv (BuildInv counter module cleared.allocEvents)
    (fun k s s' hk hinv hs => buildEvent_inv hfits' (by omega) hinv hs) hinit h).events i

end ExternalToggleInfo

end Ucesb
