import Ucesb.DataMapRight

namespace Ucesb

/-- A property of all the `data_map`s of a table. -/
def TableAll (P : DataMap → Prop) : (s : EventShape) → MapTable s → Prop
  | .base, _ => True
  | .single, map => P map
  | .members first rest, (f, r) => TableAll P first f ∧ TableAll P rest r
  | .array .plain _ item, map => ∀ i, TableAll P item (map i)
  | .array .zeroSuppress _ item, map => ∀ i, TableAll P item (map i)
  | .array (.multi _) _ item, map => ∀ i, TableAll P item (map i)
  | .array .list _ item, map => ∀ i, TableAll P item (map i)
  | .array .listII _ item, map => TableAll P item map
  | .multiChunk item, map => TableAll P item map

theorem NonSuppressed.of_table {P : DataMap → Prop} {s : EventShape} {src : Source s}
    {table : MapTable s} {map : DataMap} {v : Nat} (ht : TableAll P s table)
    (h : NonSuppressed s src table map v) : P map := by
  induction s with
  | base => exact h.elim
  | single => exact h.1 ▸ ht
  | members first rest ih1 ih2 =>
    obtain ⟨a, b⟩ := src
    obtain ⟨f, r⟩ := table
    exact h.elim (ih1 ht.1) (ih2 ht.2)
  | array kind n item ih =>
    cases kind with
    | plain =>
      obtain ⟨i, h⟩ := h
      exact ih (ht i) h
    | zeroSuppress | multi maxEntries =>
      obtain ⟨i, a, -, h⟩ := h
      exact ih (ht i) h
    | list =>
      obtain ⟨a, -, h⟩ := h
      exact ih (ht a.1) h
    | listII =>
      obtain ⟨a, -, h⟩ := h
      exact ih ht h
  | multiChunk item ih =>
    cases src with
    | none => exact h.elim
    | some a => exact ih ht h

/-- Each `data_map` of the table is not used, or that of a mapping to a place with this property. -/
def TableSet {shapes : List DestShape} (L : DestLayout shapes) (P : DestPath → Prop)
    (s : EventShape) (table : MapTable s) : Prop :=
  TableAll (fun map => map.dest = 0 ∨ ∃ p toggleI, map.SetTo L p toggleI ∧ P p) s table

/-- A mapping that needs no offset for any of its destinations stores the values of an event that
are not suppressed, each in the slot of its insert function, and two toggles in one slot in any
order. -/
theorem mapping_right {shapes : List DestShape} (L : DestLayout shapes) {s : EventShape}
    {table : MapTable s} (ht : TableSet L (InPlace shapes) s table) (src : Source s) {e : RawEvent}
    (he : e.Sorted shapes) :
    MapsRight L (mapCalls s src table) e (mapCalled L (mapCalls s src table) e) ∧
      (∀ map v, (map, v) ∈ mapCalls s src table ↔ NonSuppressed s src table map v) ∧
      ∀ map1 map2 p d a b, map1.SetTo L p 1 → map2.SetTo L p 2 → InPlace shapes p →
        p.inner = none → shapes[p.container]? = some d → (∀ n, d.kind ≠ .multi n) →
        (∃ c slot, Inserted d (e p.container) (d.indexOf p.slot) c slot ∧
          let e' := RawEvent.modify (Function.update e p.container c) { p with slot }
            fun x => (x.putToggle 1 a).putToggle 2 b
          mapCalled L [(map1, a), (map2, b)] e = .ok e' ∧
            mapCalled L [(map2, b), (map1, a)] e = .ok e') ∧
        ∀ x : Cell, x.toggleI = 0 →
          let y := (x.putToggle 1 a).putToggle 2 b
          y.item = a ∧ y.toggleI = 1 ∧ y.toggleV 0 = a ∧ y.toggleV 1 = b := by
  refine ⟨?_, fun map v => mem_mapCalls, fun map1 map2 p d a b h1 h2 hin hinner hd hk => ⟨?_, ?_⟩⟩
  · refine mapCalled_right (fun call h => ?_) he
    obtain ⟨map, v⟩ := call
    exact (mem_mapCalls.mp h).of_table ht
  · exact mapCalled_toggles h1 h2 hin hinner hd hk he
  · exact fun x hx => putToggle_main a b hx

def twoItems (list : Bool) : List DestShape :=
  [⟨if list then .list else .zeroSuppress, 2, [.cell ⟨false, 0⟩]⟩]

def twoItemsPath (slot : Nat) : DestPath := ⟨0, slot, 0, none, .item⟩

def twoItemsOffsets : DestOffsets where
  base _ := 16
  stride _ := 8
  memberOffset _ _ := 0
  innerStride _ _ := 0
  cellOffset _ _ _ _ := 0

theorem twoItems_of (list : Bool) (p : DestPath) :
    p.Of (twoItems list) ↔ p = twoItemsPath 0 ∨ p = twoItemsPath 1 := by
  constructor
  · rintro ⟨d, m, c, hd, hslot, hm, hc, hpart⟩
    obtain ⟨container, slot, member, inner, part⟩ := p
    obtain ⟨h0, hd⟩ := List.getElem?_eq_some_iff.mp hd
    obtain rfl : container = 0 := by simpa [twoItems] using h0
    cases hd
    obtain ⟨h0, hm⟩ := List.getElem?_eq_some_iff.mp hm
    obtain rfl : member = 0 := by simpa [twoItems] using h0
    cases hm
    cases inner with
    | some place => cases hc
    | none =>
      cases hc
      cases part with
      | toggleI => cases hpart
      | toggleV k => cases hpart
      | item =>
        have hslot : slot < 2 := by
          cases list <;> exact hslot
        rcases Nat.lt_or_ge slot 1 with h | h
        · obtain rfl : slot = 0 := by omega
          exact .inl rfl
        · obtain rfl : slot = 1 := by omega
          exact .inr rfl
  · rintro (rfl | rfl)
    · exact ⟨_, _, _, rfl, by cases list <;> decide, rfl, rfl, rfl⟩
    · exact ⟨_, _, _, rfl, by cases list <;> decide, rfl, rfl, rfl⟩

def twoItemsLocate (a : BitVec 64) : Option DestPath :=
  if a = 16 then some (twoItemsPath 0) else if a = 24 then some (twoItemsPath 1) else none

theorem twoItemsLocate_iff (list : Bool) (a : BitVec 64) (p : DestPath) :
    twoItemsLocate a = some p ↔ p.Of (twoItems list) ∧ twoItemsOffsets.addr p = a := by
  have h0 : twoItemsOffsets.addr (twoItemsPath 0) = 16 := by decide
  have h1 : twoItemsOffsets.addr (twoItemsPath 1) = 24 := by decide
  rw [twoItems_of, twoItemsLocate]
  constructor
  · intro h
    split at h
    next ha =>
      cases h
      exact ⟨.inl rfl, h0.trans ha.symm⟩
    next =>
      split at h
      next ha =>
        cases h
        exact ⟨.inr rfl, h1.trans ha.symm⟩
      next => cases h
  · rintro ⟨rfl | rfl, rfl⟩
    · rw [h0]
      rfl
    · rw [h1]
      rfl

theorem twoItemsAddr_ne (list : Bool) (p : DestPath) (h : p.Of (twoItems list)) :
    twoItemsOffsets.addr p ≠ 0 := by
  rcases (twoItems_of list p).mp h with rfl | rfl
  · decide
  · decide

def twoItemsLayout (list : Bool) : DestLayout (twoItems list) where
  toDestOffsets := twoItemsOffsets
  locate := twoItemsLocate
  locate_iff := twoItemsLocate_iff list
  addr_ne := twoItemsAddr_ne list

def cleanedEvent : RawEvent :=
  fun _ => ⟨fun _ => false, fun _ => 0, 0, fun _ => 0,
    fun _ => ⟨fun _ => ⟨0, 0, fun _ => 0⟩, fun _ => ⟨0, fun _ _ => ⟨0, 0, fun _ => 0⟩⟩⟩⟩

theorem cleanedEvent_sorted (shapes : List DestShape) : cleanedEvent.Sorted shapes :=
  fun _ _ _ _ => ⟨fun _ _ _ h => absurd h (Nat.not_lt_zero _), fun _ h => absurd h (Nat.not_lt_zero _)⟩

/-- A `data_map` for the given item of a zero-suppressed array. -/
def arrayItemMap (slot : Nat) : DataMap :=
  ⟨twoItemsOffsets.addr (twoItemsPath slot), ⟨.callArrayIndex, 0, some (.array 0 slot), none⟩, 0⟩

theorem arrayItemMap_set {slot : Nat} (h : slot = 0 ∨ slot = 1) :
    (arrayItemMap slot).SetTo (twoItemsLayout false) (twoItemsPath slot) 0 := by
  rcases h with rfl | rfl
  · exact ⟨(twoItems_of _ _).mpr (.inl rfl), rfl⟩
  · exact ⟨(twoItems_of _ _).mpr (.inr rfl), rfl⟩

/-- The second value of three is not mapped, the others go to the items the other way round. -/
def swappedTable : MapTable (.array .plain 3 .single)
  | 0 => arrayItemMap 1
  | 1 => DataMap.unset
  | 2 => arrayItemMap 0

theorem mapping_right_swapped :
    let calls := mapCalls (.array .plain 3 .single) (fun i => i.val + 7) swappedTable
    calls.map Prod.snd = [7, 8, 9] ∧ MapsRight (twoItemsLayout false) calls cleanedEvent
      (mapCalled (twoItemsLayout false) calls cleanedEvent) := by
  refine ⟨rfl, (@mapping_right _ (twoItemsLayout false) (.array .plain 3 .single) swappedTable ?_
    (fun i => i.val + 7) _ (cleanedEvent_sorted _)).1⟩
  intro i
  match i with
  | 0 => exact .inr ⟨twoItemsPath 1, 0, arrayItemMap_set (.inr rfl), trivial⟩
  | 1 => exact .inl rfl
  | 2 => exact .inr ⟨twoItemsPath 0, 0, arrayItemMap_set (.inl rfl), trivial⟩

def secondItemMap : DataMap :=
  ⟨24, ⟨.callListIndex, 0, some (.list 0 1 8), none⟩, 0⟩

theorem secondItemMap_set : secondItemMap.SetTo (twoItemsLayout true) (twoItemsPath 1) 0 :=
  ⟨(twoItems_of _ _).mpr (.inr rfl), rfl⟩

theorem second_index_missed :
    secondItemMap.SetTo (twoItemsLayout true) (twoItemsPath 1) 0 ∧ cleanedEvent.Sorted (twoItems true) ∧
      ¬MapsRight (twoItemsLayout true) (mapCalls .single (7 : Nat) secondItemMap) cleanedEvent
        (mapCalled (twoItemsLayout true) (mapCalls .single (7 : Nat) secondItemMap) cleanedEvent) := by
  refine ⟨secondItemMap_set, cleanedEvent_sorted _, ?_⟩
  obtain ⟨e', hrun, hnum, hcell⟩ : ∃ e', mapCalled (twoItemsLayout true)
      (mapCalls .single (7 : Nat) secondItemMap) cleanedEvent = .ok e' ∧ (e' 0).numItems = 1 ∧
      (((e' 0).items 0).cells 0).item = 0 := ⟨_, rfl, rfl, rfl⟩
  rw [hrun]
  intro h
  cases h with
  | unset h => exact absurd h (by decide)
  | @stored _ _ _ p toggleI _ e1 _ hset hm hr =>
    cases hr
    obtain ⟨info, -, hmap, -⟩ := setDest_ok hset.2
    have h0 : toggleI = 0 := (congrArg DataMap.toggleI hmap).symm
    have hdest : twoItemsOffsets.addr p = 24 := (congrArg DataMap.dest hmap).symm
    rcases (twoItems_of _ p).mp hset.1 with rfl | rfl
    · exact absurd hdest (by decide)
    · obtain ⟨d, m, c, slot, x, inner, hd, hmem, hc, happ, rfl⟩ := hm
      cases hd
      cases hmem
      cases happ
      cases hc with
      | listed _ hlisted =>
        have hlt := hlisted.slot_lt
        have hone : c.numItems = 1 := by
          simpa [RawEvent.modify, Container.setItem, twoItemsPath] using hnum
        obtain rfl : slot = 0 := by omega
        simp [RawEvent.modify, Container.setItem, twoItemsPath, DestItem.modify, putValue, h0,
          Cell.put] at hcell
      | plain hk => cases hk
      | known hk => cases hk
      | new hk => cases hk
      | entry hk => cases hk

end Ucesb
