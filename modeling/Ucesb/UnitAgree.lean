import Ucesb.TdcpmIntern

namespace Ucesb

def strippedName (name : List UInt8) : List UInt8 := (unitPrefix name).elim name Prod.snd

def prefixMag (name : List UInt8) : Int32 := (unitPrefix name).elim 0 Prod.fst

section Meaning

variable (names : Nat → List UInt8)

def unitDim (unit : List TdcpmUnitItemPart) (name : List UInt8) : Int :=
  termSum name (unit.map fun part => (strippedName (names part.1), part.2.toInt))

def unitMag (unit : List TdcpmUnitItemPart) : Int :=
  (unit.map fun part => (prefixMag (names part.1)).toInt * part.2.toInt).sum

def FitsInt32 (x : Int) : Prop := -2 ^ 31 ≤ x ∧ x < 2 ^ 31

instance (x : Int) : Decidable (FitsInt32 x) := inferInstanceAs (Decidable (_ ∧ _))

def UnitFits (unit : List TdcpmUnitItemPart) : Prop :=
  (∀ name, FitsInt32 (unitDim names unit name)) ∧ FitsInt32 (unitMag names unit)

/-- Every name without prefix once, in order of the names' indices, with its exponent. -/
structure IsCanonicalUnit (unit canonical : List TdcpmUnitItemPart) : Prop where
  sorted : canonical.Pairwise fun a b => a.1 < b.1
  nonzero : ∀ part ∈ canonical, part.2 ≠ 0
  exponent : ∀ name, termSum name (canonical.map fun part => (names part.1, part.2.toInt)) =
    unitDim names unit name

end Meaning

def UnitRun.names (s : UnitRun) : Nat → List UInt8 := tdcpmStringTableGet s.tables.strings

/-- The entry of a registered unit has its own canonical form and magnitude. -/
def UnitRun.EntryAgrees (s : UnitRun) (unit : List TdcpmUnitItemPart) (index : Nat) : Prop :=
  ∃ item canonical mag ref, s.tables.units.store[index]? = some item ∧ item.unit = unit ∧
    item.canonical = some (canonical, mag) ∧ mag.toInt = unitMag s.names unit ∧
    s.tables.units.store[canonical]? = some ref ∧ IsCanonicalUnit s.names unit ref.unit

/-- Units have a factor if and only if they agree in all exponents, and it is the power of ten from
one magnitude to the other. -/
def UnitRun.FactorAgrees (s : UnitRun) (a b : List TdcpmUnitItemPart × Nat) : Prop :=
  ∃ factor, tdcpmUnitFactor s.tables.units a.2 b.2 = some factor ∧
    (factor.isSome = true ↔ unitDim s.names a.1 = unitDim s.names b.1) ∧
    ∀ m, factor = some m → FitsInt32 (unitMag s.names b.1 - unitMag s.names a.1) →
      m.toInt = unitMag s.names b.1 - unitMag s.names a.1

def UnitsAgree (s : UnitRun) : Prop :=
  (∀ a ∈ s.registered, s.EntryAgrees a.1 a.2) ∧
    ∀ a ∈ s.registered, ∀ b ∈ s.registered, s.FactorAgrees a b

/-- The insertions of names without prefix enlarge the string table well. -/
def StripsWell : TdcpmTable StringStore → List TdcpmUnitItemPart → Prop
  | _, [] => True
  | strings, part :: parts =>
    (∀ r, unitPrefix (tdcpmStringTableGet strings part.1) = some r →
      enlargesWell tdcpmStringTableHashCalc tdcpmCompareStrLen ⟨strings, []⟩
        (CStr.ofChars r.2)) ∧
    ∀ r, tdcpmUnitStripPrefix strings part.1 = some r → StripsWell r.1 parts

/-- Once a new unit has been entered, its canonical unit is there or has space. -/
def CanonicalHasSpace (s : TdcpmUnits) (parts : List TdcpmUnitItemPart) : Prop :=
  ∀ r t, insertUnit true s.units parts = some r → stripParts s.strings parts = some t →
    (∃ item ∈ r.1.store, item.unit = canonicalTerms t.2.1) ∨ r.1.num < r.1.alloc

def RegistersWell (s : UnitRun) : UnitAction → Prop
  | .ident name =>
    enlargesWell tdcpmStringTableHashCalc tdcpmCompareStrLen ⟨s.tables.strings, []⟩ name
  | .unit parts =>
    UnitFits s.names parts ∧
    enlargesWell tdcpmUnitTableHashCalc tdcpmCompareUnitBuild ⟨s.tables.units, []⟩ parts ∧
    (∀ index : Nat, s.tables.units.store[index]? = some ⟨some (index, 0), parts⟩ →
      ∀ part ∈ parts, unitPrefix (s.names part.1) = none) ∧
    ((∀ item ∈ s.tables.units.store, item.unit ≠ parts) →
      StripsWell s.tables.strings parts ∧ CanonicalHasSpace s.tables parts)

theorem toInt_termSum {κ : Type} [DecidableEq κ] (k : κ) (l : List (κ × Int32)) :
    (termSum k l).toInt = (termSum k (l.map fun p : κ × Int32 => (p.1, p.2.toInt))).bmod (2 ^ 32) := by
  induction l with
  | nil => rfl
  | cons p ps ih =>
    simp only [List.map_cons, termSum]
    split
    · rw [Int32.toInt_add, ih, Int.add_bmod_bmod]
    · exact ih

theorem toInt_termSum_sorted {l : List TdcpmUnitItemPart} (h : l.Pairwise fun a b => a.1 < b.1)
    (k : Nat) : termSum k (l.map fun p => (p.1, p.2.toInt)) = (termSum k l).toInt := by
  induction l with
  | nil => rfl
  | cons p ps ih =>
    obtain ⟨hp, hps⟩ := List.pairwise_cons.mp h
    simp only [List.map_cons, termSum]
    split
    next heq =>
      have hne : ∀ q ∈ ps, q.1 ≠ k := by
        intro q hq
        have := hp q hq
        omega
      rw [ih hps, termSum_eq_zero hne]
      simp
    next => exact ih hps

theorem toInt_of_fits {x : Int} (h : FitsInt32 x) : x.bmod (2 ^ 32) = x := by
  obtain ⟨hlo, hhi⟩ := h
  apply Int.bmod_eq_of_le <;> omega

/-- The prefixes are stripped from the names of all parts. -/
inductive Stripped (strs : List CStr) : List TdcpmUnitItemPart → List TdcpmUnitItemPart → Int32 → Prop
  | nil : Stripped strs [] [] 0
  | cons {k k' : Nat} {e mag : Int32} {a b : CStr} {unit stripped : List TdcpmUnitItemPart} :
      strs[k]? = some a → strs[k']? = some b → b.chars = strippedName a.chars →
      Stripped strs unit stripped mag →
      Stripped strs ((k, e) :: unit) ((k', e) :: stripped) (prefixMag a.chars * e + mag)

section Stripped

variable {strs : List CStr} {unit stripped : List TdcpmUnitItemPart} {mag : Int32}
  {names : Nat → List UInt8}

def NamesOf (names : Nat → List UInt8) (strs : List CStr) : Prop :=
  ∀ (k : Nat) a, strs[k]? = some a → names k = a.chars

theorem getElem?_append_of_some {α : Type} {l more : List α} {k : Nat} {a : α}
    (h : l[k]? = some a) : (l ++ more)[k]? = some a := by
  rw [List.getElem?_append_left (List.getElem?_eq_some_iff.mp h).1]
  exact h

theorem Stripped.append (h : Stripped strs unit stripped mag) (more : List CStr) :
    Stripped (strs ++ more) unit stripped mag := by
  induction h with
  | nil => exact .nil
  | cons ha hb hname _ ih =>
    exact .cons (getElem?_append_of_some ha) (getElem?_append_of_some hb) hname ih

theorem Stripped.valid (h : Stripped strs unit stripped mag) : ∀ p ∈ stripped, p.1 < strs.length := by
  induction h with
  | nil => simp
  | cons _ hb _ _ ih =>
    intro p hp
    rcases List.mem_cons.mp hp with rfl | hp
    · exact (List.getElem?_eq_some_iff.mp hb).1
    · exact ih p hp

theorem Stripped.mag_eq (h : Stripped strs unit stripped mag) (hnames : NamesOf names strs)
    (hfits : FitsInt32 (unitMag names unit)) : mag.toInt = unitMag names unit := by
  have hmod : mag.toInt = (unitMag names unit).bmod (2 ^ 32) := by
    clear hfits
    induction h with
    | nil => rfl
    | cons ha _ _ _ ih =>
      rw [Int32.toInt_add, Int32.toInt_mul, ih]
      simp only [unitMag, List.map_cons, List.sum_cons, hnames _ _ ha, Int.add_bmod_bmod,
        Int.bmod_add_bmod]
  rw [hmod, toInt_of_fits hfits]

theorem Stripped.sum_eq (h : Stripped strs unit stripped mag) (hnames : NamesOf names strs)
    (hnodup : strs.Nodup) {k : Nat} {b : CStr} (hk : strs[k]? = some b) :
    termSum k stripped =
      termSum b.chars (unit.map fun part => (strippedName (names part.1), part.2)) := by
  induction h with
  | nil => rfl
  | @cons i i' e mag a c unit stripped ha hc hname _ ih =>
    have hiff : i' = k ↔ strippedName (names i) = b.chars := by
      rw [hnames _ _ ha, ← hname]
      constructor
      · rintro rfl
        rw [hc] at hk
        rw [Option.some.inj hk]
      · intro heq
        have hcb : c = b := CStr.ext heq
        obtain ⟨hi, hci⟩ := List.getElem?_eq_some_iff.mp hc
        obtain ⟨hki, hbk⟩ := List.getElem?_eq_some_iff.mp hk
        exact (List.Nodup.getElem_inj_iff hnodup).mp (hci.trans (hcb.trans hbk.symm))
    simp only [List.map_cons, termSum, hiff, ih]

theorem Stripped.no_other_name (h : Stripped strs unit stripped mag) (hnames : NamesOf names strs)
    {name : List UInt8} (hname : ∀ b ∈ strs, b.chars ≠ name) : unitDim names unit name = 0 := by
  apply termSum_eq_zero
  intro p hp
  obtain ⟨part, hpart, rfl⟩ := List.mem_map.mp hp
  clear hp
  induction h with
  | nil => cases hpart
  | @cons i i' e mag a b unit stripped ha hb hstrip _ ih =>
    rcases List.mem_cons.mp hpart with rfl | hpart
    · dsimp only
      rw [hnames _ _ ha, ← hstrip]
      exact hname b (List.mem_of_getElem? hb)
    · exact ih hpart

theorem Stripped.dim_eq (h : Stripped strs unit stripped mag) (hnames : NamesOf names strs)
    (hnodup : strs.Nodup) (hfits : UnitFits names unit) {k : Nat} {b : CStr}
    (hk : strs[k]? = some b) : (termSum k stripped).toInt = unitDim names unit b.chars := by
  rw [h.sum_eq hnames hnodup hk, toInt_termSum, List.map_map]
  exact toInt_of_fits (hfits.1 b.chars)

theorem Stripped.canonical_eq_iff {unit' stripped' : List TdcpmUnitItemPart} {mag' : Int32}
    (h : Stripped strs unit stripped mag) (h' : Stripped strs unit' stripped' mag')
    (hnames : NamesOf names strs) (hnodup : strs.Nodup) (hfits : UnitFits names unit)
    (hfits' : UnitFits names unit') :
    canonicalTerms stripped = canonicalTerms stripped' ↔
      unitDim names unit = unitDim names unit' := by
  rw [canonicalTerms_eq_iff]
  constructor
  · intro heq
    funext name
    by_cases hex : ∃ b ∈ strs, b.chars = name
    · obtain ⟨b, hb, rfl⟩ := hex
      obtain ⟨k, hk⟩ := List.mem_iff_getElem?.mp hb
      rw [← h.dim_eq hnames hnodup hfits hk, ← h'.dim_eq hnames hnodup hfits' hk, heq k]
    · push Not at hex
      rw [h.no_other_name hnames hex, h'.no_other_name hnames hex]
  · intro heq k
    cases hk : strs[k]? with
    | some b =>
      rw [← Int32.toInt_inj, h.dim_eq hnames hnodup hfits hk, h'.dim_eq hnames hnodup hfits' hk, heq]
    | none =>
      have hge : strs.length ≤ k := List.getElem?_eq_none_iff.mp hk
      rw [termSum_eq_zero fun p hp => (by have := h.valid p hp; omega),
        termSum_eq_zero fun p hp => (by have := h'.valid p hp; omega)]

theorem termSum_names (hnames : NamesOf names strs) (hnodup : strs.Nodup) {k : Nat} {b : CStr}
    (hk : strs[k]? = some b) {l : List TdcpmUnitItemPart} (hl : ∀ p ∈ l, p.1 < strs.length) :
    termSum b.chars (l.map fun p => (names p.1, p.2.toInt)) =
      termSum k (l.map fun p => (p.1, p.2.toInt)) := by
  induction l with
  | nil => rfl
  | cons p ps ih =>
    have hp := hl p (by simp)
    have hiff : names p.1 = b.chars ↔ p.1 = k := by
      have ha : strs[p.1]? = some strs[p.1] := List.getElem?_eq_getElem hp
      rw [hnames _ _ ha]
      constructor
      · intro heq
        have hab : strs[p.1] = b := CStr.ext heq
        obtain ⟨hki, hbk⟩ := List.getElem?_eq_some_iff.mp hk
        exact (List.Nodup.getElem_inj_iff hnodup).mp (hab.trans hbk.symm)
      · rintro rfl
        rw [hk] at ha
        rw [Option.some.inj ha]
    simp only [List.map_cons, termSum, hiff, ih fun q hq => hl q (by simp [hq])]

theorem Stripped.isCanonical (h : Stripped strs unit stripped mag) (hnames : NamesOf names strs)
    (hnodup : strs.Nodup) (hfits : UnitFits names unit) :
    IsCanonicalUnit names unit (canonicalTerms stripped) := by
  refine ⟨canonicalTerms_pairwise _, ?_, ?_⟩
  · rintro ⟨k, e⟩ hpart
    exact (mem_canonicalTerms.mp hpart).2
  · intro name
    have hvalid : ∀ p ∈ canonicalTerms stripped, p.1 < strs.length := by
      rintro ⟨k, e⟩ hpart
      obtain ⟨hsum, hne⟩ := mem_canonicalTerms.mp hpart
      by_contra hge
      apply hne
      rw [← hsum]
      exact termSum_eq_zero fun p hp => (by have := h.valid p hp; dsimp only at hge; omega)
    by_cases hex : ∃ b ∈ strs, b.chars = name
    · obtain ⟨b, hb, rfl⟩ := hex
      obtain ⟨k, hk⟩ := List.mem_iff_getElem?.mp hb
      rw [termSum_names hnames hnodup hk hvalid, toInt_termSum_sorted (canonicalTerms_pairwise _),
        termSum_canonicalTerms, h.dim_eq hnames hnodup hfits hk]
    · push Not at hex
      rw [h.no_other_name hnames hex]
      apply termSum_eq_zero
      intro p hp
      obtain ⟨part, hpart, rfl⟩ := List.mem_map.mp hp
      have hlt := hvalid part hpart
      have ha : strs[part.1]? = some strs[part.1] := List.getElem?_eq_getElem hlt
      dsimp only
      rw [hnames _ _ ha]
      exact hex _ (List.getElem_mem hlt)

end Stripped

end Ucesb
