import Ucesb.UnitAgree

namespace Ucesb

section Strip

variable {strings : TdcpmTable StringStore} {strs : List CStr}

abbrev HoldsStrings (strings : TdcpmTable StringStore) (strs : List CStr) : Prop :=
  strings.Interns tdcpmStringTableHashCalc StringStore.Rep strs

theorem HoldsStrings.namesOf (h : HoldsStrings strings strs) :
    NamesOf (tdcpmStringTableGet strings) strs :=
  fun _ _ ha => tdcpmStringTableGet_eq h ha

theorem unitPrefix_tail {name rest : List UInt8} {mag : Int32}
    (h : unitPrefix name = some (mag, rest)) : ∃ c, name = c :: rest := by
  unfold unitPrefix at h
  split at h
  next c d rest' =>
    obtain ⟨m, -, hm⟩ := Option.map_eq_some_iff.mp h
    cases hm
    exact ⟨c, rfl⟩
  next => cases h

theorem CStr.ofChars_chars {chars : List UInt8} (h : (0 : UInt8) ∉ chars) :
    (CStr.ofChars chars).chars = chars := by
  rw [CStr.ofChars, List.takeWhile_eq_self_iff]
  intro c hc
  have hne : c ≠ 0 := fun h0 => h (h0 ▸ hc)
  simpa using hne

theorem tdcpmUnitStripPrefix_spec (h : HoldsStrings strings strs) {k : Nat} {a : CStr}
    (ha : strs[k]? = some a)
    (hok : ∀ r, unitPrefix (tdcpmStringTableGet strings k) = some r →
      enlargesWell tdcpmStringTableHashCalc tdcpmCompareStrLen ⟨strings, []⟩ (CStr.ofChars r.2)) :
    ∃ strings' more k' b,
      tdcpmUnitStripPrefix strings k = some (strings', k', prefixMag a.chars) ∧
      HoldsStrings strings' (strs ++ more) ∧ (strs ++ more)[k']? = some b ∧
      b.chars = strippedName a.chars := by
  have hname := h.namesOf k a ha
  unfold tdcpmUnitStripPrefix
  cases hp : unitPrefix (tdcpmStringTableGet strings k) with
  | none =>
    rw [hname] at hp
    refine ⟨strings, [], k, a, ?_, ?_, ?_, ?_⟩
    · simp [prefixMag, hp]
    · rw [List.append_nil]
      exact h
    · rw [List.append_nil]
      exact ha
    · simp [strippedName, hp]
  | some r =>
    obtain ⟨mag, rest⟩ := r
    obtain ⟨strings', k', more, hins, hint, hget⟩ :=
      TdcpmTable.Interns.insert_well (s := ⟨strings, []⟩) stringStore_spec h (hok _ hp)
    rw [hname] at hp
    obtain ⟨c, hc⟩ := unitPrefix_tail hp
    have hnul : (0 : UInt8) ∉ rest := by
      intro hmem
      apply a.no_nul
      rw [hc]
      exact List.mem_cons_of_mem _ hmem
    refine ⟨strings', more, k', _, ?_, hint, hget, ?_⟩
    · simp only at hins
      simp [tdcpmStringTableInsert, hins, prefixMag, hp]
    · rw [CStr.ofChars_chars hnul]
      simp [strippedName, hp]

theorem stripParts_spec {parts : List TdcpmUnitItemPart} (h : HoldsStrings strings strs)
    (hvalid : ∀ p ∈ parts, p.1 < strs.length) (hok : StripsWell strings parts) :
    ∃ strings' more stripped mag, stripParts strings parts = some (strings', stripped, mag) ∧
      HoldsStrings strings' (strs ++ more) ∧ Stripped (strs ++ more) parts stripped mag := by
  induction parts generalizing strings strs with
  | nil =>
    refine ⟨strings, [], [], 0, rfl, ?_, .nil⟩
    rw [List.append_nil]
    exact h
  | cons p ps ih =>
    obtain ⟨k, e⟩ := p
    have hk : k < strs.length := hvalid (k, e) (by simp)
    have ha : strs[k]? = some strs[k] := List.getElem?_eq_getElem hk
    obtain ⟨strings1, more1, k', b, hstrip, h1, hb, hname⟩ :=
      tdcpmUnitStripPrefix_spec h ha hok.1
    have hvalid1 : ∀ p ∈ ps, p.1 < (strs ++ more1).length := by
      intro p hp
      have hlt := hvalid p (by simp [hp])
      rw [List.length_append]
      omega
    obtain ⟨strings2, more2, stripped, mag, hrest, h2, hs⟩ := ih h1 hvalid1 (hok.2 _ hstrip)
    refine ⟨strings2, more1 ++ more2, (k', e) :: stripped, prefixMag strs[k].chars * e + mag,
      ?_, ?_, ?_⟩
    · simp [stripParts, hstrip, hrest]
    · rw [← List.append_assoc]
      exact h2
    · rw [← List.append_assoc]
      exact .cons (getElem?_append_of_some (getElem?_append_of_some ha))
        (getElem?_append_of_some hb) hname hs

end Strip

theorem TdcpmTable.insert_cases {σ α : Type} {hashCalc : α → UInt32}
    {compare : σ → Nat → α → Bool} {put : σ → α → σ} {table table' : TdcpmTable σ} {x : α}
    {index : Nat} (h : table.insert hashCalc compare put x = some (table', index)) :
    table' = table ∨ table'.store = put table.store x ∧ index = table.num ∧
      table'.num = table.num + 1 ∧ (table.num < table.alloc → table'.alloc = table.alloc) := by
  obtain ⟨r, -, h⟩ := Option.bind_eq_some_iff.mp h
  cases r with
  | some i =>
    cases h
    exact .inl rfl
  | none =>
    obtain ⟨t, hgrow, h⟩ := Option.bind_eq_some_iff.mp h
    obtain ⟨ht, -, h⟩ := Option.bind_eq_some_iff.mp h
    cases h
    have hkept : t.store = table.store ∧ t.num = table.num ∧
        (table.num < table.alloc → t.alloc = table.alloc) := by
      unfold TdcpmTable.grow at hgrow
      split at hgrow
      next hle =>
        obtain ⟨ht', -, hgrow⟩ := Option.bind_eq_some_iff.mp hgrow
        cases hgrow
        exact ⟨rfl, rfl, fun hlt => absurd hle (Nat.not_le.mpr hlt)⟩
      next =>
        cases hgrow
        exact ⟨rfl, rfl, fun _ => rfl⟩
    obtain ⟨hstore, hnum, halloc⟩ := hkept
    refine .inr ⟨?_, hnum, ?_, halloc⟩
    · dsimp only
      rw [hstore]
    · dsimp only
      rw [hnum]

def UnitsRep (store : List TdcpmUnitItem) (items : List (List TdcpmUnitItemPart)) : Prop :=
  store.map TdcpmUnitItem.unit = items

theorem unitStore_spec (makeCanonical : Bool) :
    StoreSpec tdcpmCompareUnitBuild (putUnit makeCanonical) UnitsRep := by
  constructor
  · rintro store _ k y rfl hy x
    rw [List.getElem?_map] at hy
    obtain ⟨item, hitem, rfl⟩ := Option.map_eq_some_iff.mp hy
    unfold tdcpmCompareUnitBuild
    rw [hitem]
    dsimp only
    rw [Bool.eq_iff_iff, beq_iff_eq, decide_eq_true_iff]
    exact eq_comm
  · rintro store _ rfl x
    simp [putUnit, UnitsRep]

abbrev HoldsUnits (units : UnitTable) (items : List (List TdcpmUnitItemPart)) : Prop :=
  units.Interns tdcpmUnitTableHashCalc UnitsRep items

section Enter

variable {units : UnitTable} {items : List (List TdcpmUnitItemPart)}
  {parts : List TdcpmUnitItemPart}

theorem HoldsUnits.store_length (h : HoldsUnits units items) :
    units.store.length = items.length := by
  have hrep : units.store.map TdcpmUnitItem.unit = items := h.rep
  rw [← hrep, List.length_map]

theorem HoldsUnits.item_of (h : HoldsUnits units items) {i : Nat} {u : List TdcpmUnitItemPart}
    (hu : items[i]? = some u) : ∃ item, units.store[i]? = some item ∧ item.unit = u := by
  have hrep : units.store.map TdcpmUnitItem.unit = items := h.rep
  rw [← hrep, List.getElem?_map] at hu
  exact Option.map_eq_some_iff.mp hu

theorem HoldsUnits.insert_spec (h : HoldsUnits units items) (makeCanonical : Bool)
    (hok : enlargesWell tdcpmUnitTableHashCalc tdcpmCompareUnitBuild ⟨units, []⟩ parts) :
    ∃ units' index, insertUnit makeCanonical units parts = some (units', index) ∧
      (units' = units ∧ items[index]? = some parts ∨
        parts ∉ items ∧ HoldsUnits units' (items ++ [parts]) ∧ index = items.length ∧
          units'.store = putUnit makeCanonical units.store parts ∧
          units'.num = units.num + 1 ∧ (units.num < units.alloc → units'.alloc = units.alloc)) := by
  obtain ⟨units', index, more, hins, hint, hget⟩ :=
    TdcpmTable.Interns.insert_well (s := ⟨units, []⟩) (unitStore_spec makeCanonical) h hok
  refine ⟨units', index, hins, ?_⟩
  rcases TdcpmTable.insert_cases hins with rfl | ⟨hstore, hindex, hnum, halloc⟩
  · left
    have hlen := hint.num_eq
    rw [h.num_eq, List.length_append] at hlen
    have hmore : more = [] := List.eq_nil_of_length_eq_zero (by omega)
    rw [hmore, List.append_nil] at hget
    exact ⟨rfl, hget⟩
  · right
    have hrep : units'.store.map TdcpmUnitItem.unit = items ++ more := hint.rep
    have hrep0 : units.store.map TdcpmUnitItem.unit = items := h.rep
    have hmore : more = [parts] := by
      rw [hstore, putUnit, List.map_append, hrep0] at hrep
      exact (List.append_cancel_left hrep).symm
    rw [hmore] at hint
    refine ⟨?_, hint, hindex.trans h.num_eq, hstore, hnum, halloc⟩
    intro hmem
    have hnodup := hint.nodup
    rw [List.nodup_append] at hnodup
    exact hnodup.2.2 parts hmem parts (by simp) rfl

end Enter

def ProperItem (strs : List CStr) (items : List (List TdcpmUnitItemPart)) (item : TdcpmUnitItem) :
    Prop :=
  ∃ stripped mag c, Stripped strs item.unit stripped mag ∧
    items[c]? = some (canonicalTerms stripped) ∧ item.canonical = some (c, mag)

structure UnitsInv (s : UnitRun) (strs : List CStr) (items : List (List TdcpmUnitItemPart)) :
    Prop where
  strings : HoldsStrings s.tables.strings strs
  units : HoldsUnits s.tables.units items
  entries : ∀ (i : Nat) item, s.tables.units.store[i]? = some item →
    item.canonical = some (i, 0) ∧ canonicalTerms item.unit = item.unit ∨
      ProperItem strs items item
  registered : ∀ a ∈ s.registered, ∃ item, s.tables.units.store[a.2]? = some item ∧
    item.unit = a.1 ∧ ProperItem strs items item
  fits : ∀ a ∈ s.registered, UnitFits s.names a.1

theorem ProperItem.append {strs : List CStr} {items : List (List TdcpmUnitItemPart)}
    {item : TdcpmUnitItem} (h : ProperItem strs items item) (more : List CStr)
    (entered : List (List TdcpmUnitItemPart)) :
    ProperItem (strs ++ more) (items ++ entered) item := by
  obtain ⟨stripped, mag, c, hs, hc, hcan⟩ := h
  exact ⟨stripped, mag, c, hs.append more, getElem?_append_of_some hc, hcan⟩

theorem Stripped.parts_valid {strs : List CStr} {unit stripped : List TdcpmUnitItemPart}
    {mag : Int32} (h : Stripped strs unit stripped mag) :
    ∀ p ∈ unit, ∃ a, strs[p.1]? = some a := by
  induction h with
  | nil => simp
  | cons ha _ _ _ ih =>
    intro p hp
    rcases List.mem_cons.mp hp with rfl | hp
    · exact ⟨_, ha⟩
    · exact ih p hp

theorem UnitFits.congr {names names' : Nat → List UInt8} {unit : List TdcpmUnitItemPart}
    (h : UnitFits names unit) (heq : ∀ p ∈ unit, names p.1 = names' p.1) :
    UnitFits names' unit := by
  have hdim : ∀ name, unitDim names' unit name = unitDim names unit name := by
    intro name
    unfold unitDim
    congr 1
    exact List.map_congr_left fun p hp => by rw [heq p hp]
  have hmag : unitMag names' unit = unitMag names unit := by
    unfold unitMag
    congr 1
    exact List.map_congr_left fun p hp => by rw [heq p hp]
  refine ⟨fun name => ?_, ?_⟩
  · rw [hdim]
    exact h.1 name
  · rw [hmag]
    exact h.2

section Run

variable {s : UnitRun} {strs : List CStr} {items : List (List TdcpmUnitItemPart)}

theorem UnitsInv.fits_append (h : UnitsInv s strs items) {strings : TdcpmTable StringStore}
    {more : List CStr} (hstrings : HoldsStrings strings (strs ++ more)) :
    ∀ a ∈ s.registered, UnitFits (tdcpmStringTableGet strings) a.1 := by
  intro a ha
  refine (h.fits a ha).congr ?_
  intro p hp
  obtain ⟨item, -, hunit, stripped, mag, c, hs, -, -⟩ := h.registered a ha
  rw [hunit] at hs
  obtain ⟨b, hb⟩ := hs.parts_valid p hp
  rw [hstrings.namesOf _ _ (getElem?_append_of_some hb)]
  exact h.strings.namesOf _ _ hb

theorem UnitsInv.strings_grow (h : UnitsInv s strs items) {strings : TdcpmTable StringStore}
    {more : List CStr} (hint : HoldsStrings strings (strs ++ more)) :
    UnitsInv { s with tables := { s.tables with strings := strings } } (strs ++ more) items := by
  have happ : ∀ item, ProperItem strs items item → ProperItem (strs ++ more) items item := by
    intro item hp
    have happ := hp.append more []
    rw [List.append_nil] at happ
    exact happ
  refine ⟨hint, h.units, ?_, ?_, h.fits_append hint⟩
  · intro i item hitem
    exact (h.entries i item hitem).imp id (happ item)
  · intro a ha
    obtain ⟨item, hitem, hunit, hp⟩ := h.registered a ha
    exact ⟨item, hitem, hunit, happ item hp⟩

theorem UnitsInv.ident (h : UnitsInv s strs items) {name : CStr}
    (hok : RegistersWell s (.ident name)) :
    ∃ s' more, unitStep s (.ident name) = some s' ∧ UnitsInv s' (strs ++ more) items := by
  obtain ⟨strings, index, more, hins, hint, -⟩ :=
    TdcpmTable.Interns.insert_well (s := ⟨s.tables.strings, []⟩) stringStore_spec h.strings hok
  refine ⟨_, more, ?_, h.strings_grow hint⟩
  simp only at hins
  simp [unitStep, tdcpmStringTableInsert, hins]

theorem stripped_self {parts : List TdcpmUnitItemPart} (hvalid : ∀ p ∈ parts, p.1 < strs.length)
    {names : Nat → List UInt8} (hnames : NamesOf names strs)
    (hno : ∀ p ∈ parts, unitPrefix (names p.1) = none) : Stripped strs parts parts 0 := by
  induction parts with
  | nil => exact .nil
  | cons p ps ih =>
    obtain ⟨k, e⟩ := p
    have hk : k < strs.length := hvalid (k, e) (by simp)
    have ha : strs[k]? = some strs[k] := List.getElem?_eq_getElem hk
    have hp := hno (k, e) (by simp)
    simp only [hnames _ _ ha] at hp
    have hstr : strs[k].chars = strippedName strs[k].chars := by simp [strippedName, hp]
    have hmag : prefixMag strs[k].chars * e + 0 = 0 := by simp [prefixMag, hp]
    have hrest := ih (fun q hq => hvalid q (by simp [hq])) fun q hq => hno q (by simp [hq])
    rw [← hmag]
    exact .cons ha ha hstr hrest

theorem UnitsInv.known (h : UnitsInv s strs items) {parts : List TdcpmUnitItemPart} {index : Nat}
    (hindex : items[index]? = some parts) (hvalid : ∀ p ∈ parts, p.1 < strs.length)
    (hfits : UnitFits s.names parts)
    (hown : ∀ index : Nat, s.tables.units.store[index]? = some ⟨some (index, 0), parts⟩ →
      ∀ part ∈ parts, unitPrefix (s.names part.1) = none) :
    UnitsInv ⟨s.tables, s.registered ++ [(parts, index)]⟩ strs items := by
  refine ⟨h.strings, h.units, h.entries, ?_, ?_⟩
  · intro a ha
    rcases List.mem_append.mp ha with ha | ha
    · exact h.registered a ha
    · rw [List.mem_singleton.mp ha]
      obtain ⟨item, hitem, hunit⟩ := h.units.item_of hindex
      refine ⟨item, hitem, hunit, ?_⟩
      rcases h.entries index item hitem with ⟨hcan, hform⟩ | hp
      · obtain ⟨canonical, unit⟩ := item
        dsimp only at hunit hcan hform ⊢
        subst hunit hcan
        have hself := stripped_self hvalid h.strings.namesOf (hown index hitem)
        refine ⟨unit, 0, index, hself, ?_, rfl⟩
        rw [hform]
        exact hindex
      · exact hp
  · intro a ha
    rcases List.mem_append.mp ha with ha | ha
    · exact h.fits a ha
    · rw [List.mem_singleton.mp ha]
      exact hfits

theorem HoldsUnits.set_canonical {units : UnitTable} (h : HoldsUnits units items) (index : Nat)
    (c : Nat × Int32) :
    HoldsUnits { units with
      store := units.store.modify index fun item => { item with canonical := some c } } items := by
  refine ⟨?_, h.num_eq, h.nodup, h.hashed⟩
  have hrep : units.store.map TdcpmUnitItem.unit = items := h.rep
  change (units.store.modify index _).map TdcpmUnitItem.unit = items
  rw [← hrep]
  apply List.ext_getElem?
  intro i
  rw [List.getElem?_map, List.getElem?_map, List.getElem?_modify]
  split
  · cases units.store[i]? <;> rfl
  · cases units.store[i]? <;> rfl

theorem HoldsUnits.insert_canonical {units : UnitTable} (h : HoldsUnits units items)
    {dest : List TdcpmUnitItemPart}
    (hspace : (∃ item ∈ units.store, item.unit = dest) ∨ units.num < units.alloc) :
    ∃ units' c extra, insertUnit false units dest = some (units', c) ∧
      HoldsUnits units' (items ++ extra) ∧ (items ++ extra)[c]? = some dest ∧
      units'.alloc = units.alloc ∧
      (∀ (i : Nat) item, units.store[i]? = some item → units'.store[i]? = some item) ∧
      ∀ (i : Nat) item, units'.store[i]? = some item →
        units.store[i]? = some item ∨ item = ⟨some (i, 0), dest⟩ := by
  have hmem : (∃ item ∈ units.store, item.unit = dest) → dest ∈ items := by
    rintro ⟨item, hitem, rfl⟩
    have hrep : units.store.map TdcpmUnitItem.unit = items := h.rep
    rw [← hrep]
    exact List.mem_map_of_mem hitem
  have hok : enlargesWell tdcpmUnitTableHashCalc tdcpmCompareUnitBuild ⟨units, []⟩ dest := by
    intro hle hfind
    rcases hspace with hex | hlt
    · obtain ⟨r, hr, hspec⟩ := h.find_spec (unitStore_spec false) dest
      rw [hfind] at hr
      cases hr
      exact absurd (hmem hex) hspec
    · exact absurd hle (Nat.not_le.mpr hlt)
  obtain ⟨units', c, hins, hcase⟩ := h.insert_spec false hok
  rcases hcase with ⟨rfl, hget⟩ | ⟨hnew, hint, rfl, hstore, -, halloc⟩
  · refine ⟨units', c, [], hins, ?_, ?_, rfl, fun _ _ hi => hi, fun _ _ hi => .inl hi⟩
    · rw [List.append_nil]
      exact h
    · rw [List.append_nil]
      exact hget
  · have hlt : units.num < units.alloc := hspace.resolve_left fun hex => hnew (hmem hex)
    refine ⟨units', items.length, [dest], hins, hint, by simp, halloc hlt, ?_, ?_⟩
    · intro i item hitem
      rw [hstore]
      exact getElem?_append_of_some hitem
    · intro i item hitem
      rw [hstore, putUnit] at hitem
      rcases Nat.lt_or_ge i units.store.length with hi | hi
      · rw [List.getElem?_append_left hi] at hitem
        exact .inl hitem
      · rw [List.getElem?_append_right hi] at hitem
        obtain ⟨hlen, hget⟩ := List.getElem?_eq_some_iff.mp hitem
        rw [List.length_singleton] at hlen
        obtain rfl : i = units.store.length := by omega
        right
        rw [← hget]
        simp

theorem UnitsInv.enter (h : UnitsInv s strs items) {parts : List TdcpmUnitItemPart}
    {units : UnitTable} (hvalid : ∀ p ∈ parts, p.1 < strs.length)
    (hfits : UnitFits s.names parts) (hwell : StripsWell s.tables.strings parts)
    (hunits : HoldsUnits units (items ++ [parts]))
    (hstore : units.store = putUnit true s.tables.units.store parts)
    (hspace : ∀ t, stripParts s.tables.strings parts = some t →
      (∃ item ∈ units.store, item.unit = canonicalTerms t.2.1) ∨ units.num < units.alloc) :
    ∃ tables more entered,
      tdcpmUnitMakeCanonical { s.tables with units := units } items.length parts = some tables ∧
      UnitsInv ⟨tables, s.registered ++ [(parts, items.length)]⟩ (strs ++ more)
        (items ++ entered) := by
  obtain ⟨strings, more, stripped, mag, hstrip, hstrings, hs⟩ :=
    stripParts_spec h.strings hvalid hwell
  obtain ⟨units', c, extra, hins, hunits', hc, halloc, hkeep, honly⟩ :=
    hunits.insert_canonical (hspace _ hstrip)
  have hlen := h.units.store_length
  have hset := hunits'.set_canonical items.length (c, mag)
  have hget : ∀ i : Nat, (units'.store.modify items.length fun item =>
      { item with canonical := some (c, mag) })[i]? =
      if items.length = i then some ⟨some (c, mag), parts⟩ else units'.store[i]? := by
    intro i
    rw [List.getElem?_modify]
    split
    next heq =>
      subst heq
      have hat : units.store[items.length]? = some ⟨none, parts⟩ := by
        rw [hstore, putUnit, ← hlen]
        simp
      rw [hkeep _ _ hat]
      rfl
    next => cases units'.store[i]? <;> rfl
  have hold : ∀ (i : Nat) item, s.tables.units.store[i]? = some item →
      (units'.store.modify items.length fun item =>
        { item with canonical := some (c, mag) })[i]? = some item := by
    intro i item hitem
    have hlt := (List.getElem?_eq_some_iff.mp hitem).1
    rw [hget, if_neg (by omega)]
    refine hkeep i item ?_
    rw [hstore]
    exact getElem?_append_of_some hitem
  have hproper : ProperItem (strs ++ more) (items ++ ([parts] ++ extra)) ⟨some (c, mag), parts⟩ := by
    refine ⟨stripped, mag, c, hs, ?_, rfl⟩
    rw [← List.append_assoc]
    exact hc
  refine ⟨⟨strings, { units' with store := units'.store.modify items.length fun item =>
    { item with canonical := some (c, mag) } }⟩, more, [parts] ++ extra, ?_, hstrings, ?_, ?_, ?_,
    ?_⟩
  · simp [tdcpmUnitMakeCanonical, hstrip, hins, halloc]
  · rw [← List.append_assoc]
    exact hset
  · intro i item hitem
    dsimp only at hitem
    rw [hget] at hitem
    split at hitem
    next heq =>
      cases hitem
      exact .inr hproper
    next hne =>
      rcases honly i item hitem with hitem | rfl
      · rw [hstore, putUnit] at hitem
        have hlt := (List.getElem?_eq_some_iff.mp hitem).1
        rw [List.length_append, List.length_singleton] at hlt
        rw [List.getElem?_append_left (by omega)] at hitem
        exact (h.entries i item hitem).imp id fun hp => hp.append more _
      · exact .inl ⟨rfl, canonicalTerms_idem _⟩
  · intro a ha
    rcases List.mem_append.mp ha with ha | ha
    · obtain ⟨item, hitem, hunit, hp⟩ := h.registered a ha
      exact ⟨item, hold _ _ hitem, hunit, hp.append more _⟩
    · rw [List.mem_singleton.mp ha]
      refine ⟨_, ?_, rfl, hproper⟩
      dsimp only
      rw [hget, if_pos rfl]
  · intro a ha
    rcases List.mem_append.mp ha with ha | ha
    · exact h.fits_append hstrings a ha
    · rw [List.mem_singleton.mp ha]
      refine hfits.congr ?_
      intro p hp
      have hlt : p.1 < strs.length := hvalid p hp
      have hb : strs[p.1]? = some strs[p.1] := List.getElem?_eq_getElem hlt
      refine (h.strings.namesOf _ _ hb).trans ?_
      exact (hstrings.namesOf _ _ (getElem?_append_of_some hb)).symm

theorem UnitsInv.unit (h : UnitsInv s strs items) {parts : List TdcpmUnitItemPart}
    (hvalid : ∀ p ∈ parts, p.1 < strs.length) (hok : RegistersWell s (.unit parts)) :
    ∃ s' more entered, unitStep s (.unit parts) = some s' ∧
      UnitsInv s' (strs ++ more) (items ++ entered) := by
  obtain ⟨hfits, hwell, hown, hnew⟩ := hok
  have hall : (parts.all fun part => part.1 < s.tables.strings.num) = true := by
    rw [List.all_eq_true]
    intro p hp
    rw [decide_eq_true_iff, h.strings.num_eq]
    exact hvalid p hp
  obtain ⟨units, index, hins, hcase⟩ := h.units.insert_spec true hwell
  rcases hcase with ⟨rfl, hindex⟩ | ⟨hnot, hunits, rfl, hstore, hnum, -⟩
  · refine ⟨⟨s.tables, s.registered ++ [(parts, index)]⟩, [], [], ?_, ?_⟩
    · simp [unitStep, hall, tdcpmUnitMakeFull, hins]
    · rw [List.append_nil, List.append_nil]
      exact h.known hindex hvalid hfits hown
  · have hfresh : ∀ item ∈ s.tables.units.store, item.unit ≠ parts := by
      rintro item hitem rfl
      apply hnot
      have hrep : s.tables.units.store.map TdcpmUnitItem.unit = items := h.units.rep
      rw [← hrep]
      exact List.mem_map_of_mem hitem
    obtain ⟨hstrips, hspace⟩ := hnew hfresh
    obtain ⟨tables, more, entered, hmake, hinv⟩ :=
      h.enter hvalid hfits hstrips hunits hstore fun t ht => hspace _ t hins ht
    refine ⟨_, more, entered, ?_, hinv⟩
    have hne : units.num ≠ s.tables.units.num := by omega
    simp [unitStep, hall, tdcpmUnitMakeFull, hins, hne, hmake]

theorem UnitsInv.agree (h : UnitsInv s strs items) : UnitsAgree s := by
  have hnames : NamesOf s.names strs := h.strings.namesOf
  have hnodup := h.strings.nodup
  constructor
  · intro a ha
    obtain ⟨item, hitem, hunit, stripped, mag, c, hs, hc, hcan⟩ := h.registered a ha
    rw [hunit] at hs
    obtain ⟨ref, href, hform⟩ := h.units.item_of hc
    refine ⟨item, c, mag, ref, hitem, hunit, hcan, ?_, href, ?_⟩
    · exact hs.mag_eq hnames (h.fits a ha).2
    · rw [hform]
      exact hs.isCanonical hnames hnodup (h.fits a ha)
  · intro a ha b hb
    obtain ⟨itemA, hitemA, hunitA, strA, magA, cA, hsA, hcA, hcanA⟩ := h.registered a ha
    obtain ⟨itemB, hitemB, hunitB, strB, magB, cB, hsB, hcB, hcanB⟩ := h.registered b hb
    rw [hunitA] at hsA
    rw [hunitB] at hsB
    have hiff : cA = cB ↔ unitDim s.names a.1 = unitDim s.names b.1 := by
      rw [← hsA.canonical_eq_iff hsB hnames hnodup (h.fits a ha) (h.fits b hb)]
      obtain ⟨hiA, hgetA⟩ := List.getElem?_eq_some_iff.mp hcA
      obtain ⟨hiB, hgetB⟩ := List.getElem?_eq_some_iff.mp hcB
      rw [← hgetA, ← hgetB]
      exact (List.Nodup.getElem_inj_iff h.units.nodup).symm
    refine ⟨if cA ≠ cB then none else some (magB - magA), ?_, ?_, ?_⟩
    · simp [tdcpmUnitFactor, hitemA, hitemB, hcanA, hcanB]
    · rw [← hiff]
      split
      next hne => simpa using hne
      next heq =>
        simp only [Option.isSome_some, true_iff]
        exact not_not.mp heq
    · intro m hm hfit
      split at hm
      · cases hm
      · cases hm
        rw [Int32.toInt_sub, hsA.mag_eq hnames (h.fits a ha).2, hsB.mag_eq hnames (h.fits b hb).2]
        exact toInt_of_fits hfit

end Run

theorem unitStart_inv : ∃ s items, unitStart = some s ∧ UnitsInv s [] items := by
  have hempty : HoldsUnits ⟨[], 0, 0, .init⟩ [] :=
    ⟨rfl, rfl, List.nodup_nil, .inl ⟨rfl, rfl, rfl⟩⟩
  have hstrings : HoldsStrings tdcpmStringTableInit [] := by
    refine ⟨⟨rfl, rfl, ?_⟩, rfl, List.nodup_nil, .inl ⟨rfl, rfl, rfl⟩⟩
    intro k y hy
    simp at hy
  have hok : enlargesWell tdcpmUnitTableHashCalc tdcpmCompareUnitBuild
      ⟨⟨[], 0, 0, .init⟩, []⟩ [] := enlargesWell_of_plain rfl
  obtain ⟨units, index, hins, hcase⟩ := hempty.insert_spec false hok
  rcases hcase with ⟨-, hget⟩ | ⟨-, hunits, -, hstore, -, -⟩
  · simp at hget
  · refine ⟨⟨⟨tdcpmStringTableInit, units⟩, []⟩, [[]], ?_, hstrings, hunits, ?_, ?_, ?_⟩
    · simp [unitStart, tdcpmUnitTableInit, hins]
    · intro i item hitem
      dsimp only at hitem
      rw [hstore] at hitem
      obtain ⟨hi, hget⟩ := List.getElem?_eq_some_iff.mp hitem
      obtain rfl : i = 0 := by simpa [putUnit] using hi
      rw [← hget]
      exact .inl ⟨rfl, rfl⟩
    · simp
    · simp

def BuiltFromNames (s : UnitRun) : UnitAction → Prop
  | .ident _ => True
  | .unit parts => ∀ p ∈ parts, p.1 < s.tables.strings.num

theorem UnitsInv.step {s : UnitRun} {strs : List CStr} {items : List (List TdcpmUnitItemPart)}
    {a : UnitAction} (h : UnitsInv s strs items) (hbuilt : BuiltFromNames s a)
    (hok : RegistersWell s a) :
    ∃ s' strs' items', unitStep s a = some s' ∧ UnitsInv s' strs' items' := by
  cases a with
  | ident name =>
    obtain ⟨s', more, hs, hinv⟩ := h.ident hok
    exact ⟨s', _, _, hs, hinv⟩
  | unit parts =>
    have hvalid : ∀ p ∈ parts, p.1 < strs.length := by
      intro p hp
      rw [← h.strings.num_eq]
      exact hbuilt p hp
    obtain ⟨s', more, entered, hs, hinv⟩ := h.unit hvalid hok
    exact ⟨s', _, _, hs, hinv⟩

theorem UnitsInv.run {s : UnitRun} {strs : List CStr} {items : List (List TdcpmUnitItemPart)}
    {as : List UnitAction} (h : UnitsInv s strs items)
    (hok : StepsMeet unitStep (fun s a => BuiltFromNames s a ∧ RegistersWell s a) s as) :
    ∃ s' strs' items', runSteps unitStep s as = some s' ∧ UnitsInv s' strs' items' := by
  induction as generalizing s strs items with
  | nil => exact ⟨s, strs, items, rfl, h⟩
  | cons a as ih =>
    obtain ⟨s1, strs1, items1, hstep, h1⟩ := h.step hok.1.1 hok.1.2
    obtain ⟨s2, strs2, items2, hrun, h2⟩ := ih h1 (hok.2 s1 hstep)
    refine ⟨s2, strs2, items2, ?_, h2⟩
    simpa [runSteps, hstep] using hrun

theorem stripsWell_of_room {strings : TdcpmTable StringStore} {parts : List TdcpmUnitItemPart}
    (hroom : strings.num + parts.length ≤ strings.alloc) : StripsWell strings parts := by
  induction parts generalizing strings with
  | nil => trivial
  | cons part parts ih =>
    rw [List.length_cons] at hroom
    refine ⟨fun r _ hfull => ?_, fun r hr => ih ?_⟩
    · dsimp only at hfull
      omega
    · unfold tdcpmUnitStripPrefix at hr
      split at hr
      · obtain ⟨⟨table, index⟩, hins, hr⟩ := Option.bind_eq_some_iff.mp hr
        cases hr
        rcases TdcpmTable.insert_cases hins with rfl | ⟨-, -, hnum, halloc⟩
        · dsimp only
          omega
        · have := halloc (by omega)
          dsimp only
          omega
      · cases hr
        dsimp only
        omega

theorem canonicalHasSpace_of_room {s : TdcpmUnits} {parts : List TdcpmUnitItemPart}
    (hroom : s.units.num + 1 < s.units.alloc) : CanonicalHasSpace s parts := by
  intro r t hr _
  right
  rcases TdcpmTable.insert_cases hr with heq | ⟨-, -, hnum, halloc⟩
  · rw [heq]
    omega
  · have := halloc (by omega)
    omega

theorem unitDim_le (names : Nat → List UInt8) (parts : List TdcpmUnitItemPart) (name : List UInt8) :
    (unitDim names parts name).natAbs ≤ (parts.map fun part => part.2.toInt.natAbs).sum := by
  induction parts with
  | nil => exact Nat.le_refl 0
  | cons part parts ih =>
    rw [List.map_cons, List.sum_cons]
    simp only [unitDim, List.map_cons, termSum] at ih ⊢
    split
    · exact (Int.natAbs_add_le _ _).trans (Nat.add_le_add_left ih _)
    · exact ih.trans (Nat.le_add_left _ _)

theorem UnitFits.of_small {names : Nat → List UInt8} {parts : List TdcpmUnitItemPart}
    (hsum : (parts.map fun part => part.2.toInt.natAbs).sum < 2 ^ 31)
    (hmag : FitsInt32 (unitMag names parts)) : UnitFits names parts := by
  refine ⟨fun name => ?_, hmag⟩
  have hle := unitDim_le names parts name
  constructor <;> omega

/-- Both tables have space, and the unit is a new one with small exponents. -/
def registersPlainly (s : UnitRun) : UnitAction → Bool
  | .ident name => enlargesPlain (⟨s.tables.strings, []⟩ : TableRun StringStore) name
  | .unit parts =>
    decide (((∀ p ∈ parts, p.1 < s.tables.strings.num) ∧
      (parts.map fun part => part.2.toInt.natAbs).sum < 2 ^ 31 ∧
      FitsInt32 (unitMag s.names parts)) ∧
      s.tables.strings.num + parts.length ≤ s.tables.strings.alloc ∧
      s.tables.units.num + 1 < s.tables.units.alloc ∧
      ∀ item ∈ s.tables.units.store, item.unit ≠ parts)

theorem meets_of_plainly {s : UnitRun} {a : UnitAction} (h : registersPlainly s a = true) :
    BuiltFromNames s a ∧ RegistersWell s a := by
  cases a with
  | ident name => exact ⟨trivial, enlargesWell_of_plain h⟩
  | unit parts =>
    obtain ⟨⟨hbuilt, hsum, hmag⟩, hstrings, hunits, hnew⟩ := of_decide_eq_true h
    refine ⟨hbuilt, UnitFits.of_small hsum hmag, fun hfull _ => ?_, fun index hindex => ?_, fun _ =>
      ⟨stripsWell_of_room hstrings, canonicalHasSpace_of_room hunits⟩⟩
    · dsimp only at hfull
      omega
    · exact absurd rfl (hnew _ (List.mem_of_getElem? hindex))

end Ucesb
