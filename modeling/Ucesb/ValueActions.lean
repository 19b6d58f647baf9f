import Ucesb.UnitRegister
import Ucesb.ValueMeaning

namespace Ucesb

section Parts

variable {names names' : Nat → List UInt8}

theorem unitOf_append (a b : List TdcpmUnitItemPart) :
    unitOf names (a ++ b) = unitOf names a + unitOf names b := by
  induction a with
  | nil => simp [unitOf]
  | cons part parts ih => simp [unitOf, ih, add_assoc]

theorem unitOf_congr {a : List TdcpmUnitItemPart} (h : ∀ p ∈ a, names p.1 = names' p.1) :
    unitOf names a = unitOf names' a := by
  induction a with
  | nil => rfl
  | cons part parts ih =>
    rw [unitOf, unitOf, h part (by simp), ih fun p hp => h p (by simp [hp])]

theorem toInt_neg_of_ne {x : Int32} (h : x ≠ Int32.minValue) : (-x).toInt = -x.toInt := by
  have hne : x.toInt ≠ -2 ^ 31 := fun heq => h (Int32.toInt_inj.mp heq)
  have hlo := x.le_toInt
  have hhi := x.toInt_lt
  rw [Int32.toInt_neg]
  refine toInt_of_fits ⟨?_, ?_⟩ <;> omega

theorem unitOf_neg {b : List TdcpmUnitItemPart} (h : ∀ p ∈ b, p.2 ≠ Int32.minValue) :
    unitOf names (b.map fun p => (p.1, p.2 * -1)) = -unitOf names b := by
  induction b with
  | nil => simp [unitOf]
  | cons part parts ih =>
    rw [List.map_cons, unitOf, unitOf, ih fun p hp => h p (by simp [hp]),
      Int32.mul_neg, Int32.mul_one, toInt_neg_of_ne (h part (by simp)), Finsupp.single_neg, neg_add]

theorem unitOf_mul_one (a b : List TdcpmUnitItemPart) :
    unitOf names (tdcpmUnitBuildMul a b 1) = unitOf names a + unitOf names b := by
  simp [tdcpmUnitBuildMul, unitOf_append]

theorem unitOf_mul_neg {a b : List TdcpmUnitItemPart} (h : ∀ p ∈ b, p.2 ≠ Int32.minValue) :
    unitOf names (tdcpmUnitBuildMul a b (-1)) = unitOf names a - unitOf names b := by
  rw [tdcpmUnitBuildMul, unitOf_append, unitOf_neg h, sub_eq_add_neg]

theorem unitMag_eq (a : List TdcpmUnitItemPart) :
    unitMag names a = magnitude nameMag (unitOf names a) := by
  induction a with
  | nil => simp [unitMag, unitOf]
  | cons part parts ih =>
    rw [unitOf, magnitude_add, magnitude_single, ← ih]
    rfl

theorem unitDim_eq (a : List TdcpmUnitItemPart) (name : List UInt8) :
    unitDim names a name = baseUnit strippedName (unitOf names a) name := by
  induction a with
  | nil => simp [unitDim, unitOf, termSum]
  | cons part parts ih =>
    have hsingle : baseUnit strippedName (Finsupp.single (names part.1) part.2.toInt) =
        Finsupp.single (strippedName (names part.1)) part.2.toInt := Finsupp.mapDomain_single
    rw [unitOf, baseUnit_add, Finsupp.add_apply, ← ih, hsingle, Finsupp.single_apply]
    simp only [unitDim, List.map_cons, termSum]
    split <;> simp

theorem unitDim_eq_iff {a b : List TdcpmUnitItemPart} :
    unitDim names a = unitDim names b ↔
      baseUnit strippedName (unitOf names a) = baseUnit strippedName (unitOf names b) := by
  constructor
  · intro h
    ext name
    rw [← unitDim_eq, ← unitDim_eq, h]
  · intro h
    funext name
    rw [unitDim_eq, unitDim_eq, h]

end Parts

def HoldsTables (t : TdcpmUnits) (strs : List CStr) : Prop := ∃ regs items, UnitsInv ⟨t, regs⟩ strs items

def Known (names : Nat → List UInt8) (strs : List CStr) (tokens : List ValueToken) : Prop :=
  ∀ d, .valueUnit d ∈ tokens ∨ .unit d ∈ tokens → ∀ p ∈ d.unitBld,
    ∃ a, strs[p.1]? = some a ∧ names p.1 = a.chars

structure Computed (t : TdcpmUnits) (strs : List CStr) (d : TdcpmDblUnitBuild)
    (q : Quantity (List UInt8)) (u : List UInt8 →₀ ℤ) : Prop where
  holds : HoldsTables t strs
  valid : ∀ p ∈ d.unitBld, p.1 < strs.length
  unit : unitOf t.names d.unitBld = u
  quantity : quantityIn d.value u = q

section Tables

variable {t t' : TdcpmUnits} {strs more : List CStr} {names : Nat → List UInt8}
  {tokens tokens' : List ValueToken}

theorem HoldsTables.namesOf (h : HoldsTables t strs) : NamesOf t.names strs := by
  obtain ⟨regs, items, hinv⟩ := h
  exact hinv.strings.namesOf

theorem Known.append (h : Known names strs tokens) (more : List CStr) :
    Known names (strs ++ more) tokens := by
  intro d hd p hp
  obtain ⟨a, ha, hname⟩ := h d hd p hp
  exact ⟨a, getElem?_append_of_some ha, hname⟩

theorem Known.mono (h : Known names strs tokens) (hsub : tokens' ⊆ tokens) :
    Known names strs tokens' :=
  fun d hd => h d (hd.imp (hsub ·) (hsub ·))

theorem names_later (h : HoldsTables t strs) (h' : HoldsTables t' (strs ++ more)) {k : Nat}
    (hk : k < strs.length) : t.names k = t'.names k := by
  have ha : strs[k]? = some strs[k] := List.getElem?_eq_getElem hk
  rw [h.namesOf _ _ ha, h'.namesOf _ _ (getElem?_append_of_some ha)]

theorem Computed.later {d : TdcpmDblUnitBuild} {q : Quantity (List UInt8)} {u : List UInt8 →₀ ℤ}
    (h : Computed t strs d q u) (h' : HoldsTables t' (strs ++ more)) :
    Computed t' (strs ++ more) d q u := by
  refine ⟨h', ?_, ?_, h.quantity⟩
  · intro p hp
    have := h.valid p hp
    rw [List.length_append]
    omega
  · rw [← h.unit]
    exact unitOf_congr fun p hp => (names_later h.holds h' (h.valid p hp)).symm

theorem HoldsTables.ident (h : HoldsTables t strs) {name : CStr}
    (hok : RegistersWell ⟨t, []⟩ (.ident name)) :
    ∃ strings strIdx more, tdcpmStringTableInsert t.strings name = some (strings, strIdx) ∧
      HoldsTables { t with strings := strings } (strs ++ more) ∧
      (strs ++ more)[strIdx]? = some name := by
  obtain ⟨regs, items, hinv⟩ := h
  obtain ⟨strings, strIdx, more, hins, hint, hget⟩ :=
    TdcpmTable.Interns.insert_well (s := ⟨t.strings, []⟩) stringStore_spec hinv.strings hok
  exact ⟨strings, strIdx, more, hins, ⟨regs, items, hinv.strings_grow hint⟩, hget⟩

theorem RegistersWell.of_tables {s s' : UnitRun} {a : UnitAction} (h : RegistersWell s a)
    (heq : s.tables = s'.tables) : RegistersWell s' a := by
  obtain ⟨tables, registered⟩ := s
  obtain ⟨tables', registered'⟩ := s'
  cases heq
  cases a with
  | ident name => exact h
  | unit parts => exact h

theorem unitStep_unit {s s' : UnitRun} {parts : List TdcpmUnitItemPart}
    (h : unitStep s (.unit parts) = some s') :
    ∃ index, tdcpmUnitMakeFull s.tables parts = some (s'.tables, index) ∧
      s'.registered = s.registered ++ [(parts, index)] := by
  simp only [unitStep] at h
  split at h
  · obtain ⟨r, hr, heq⟩ := Option.bind_eq_some_iff.mp h
    cases heq
    exact ⟨r.2, hr, rfl⟩
  · cases h

theorem HoldsTables.factor (h : HoldsTables t strs) {a b : List TdcpmUnitItemPart}
    (ha : ∀ p ∈ a, p.1 < strs.length) (hb : ∀ p ∈ b, p.1 < strs.length) (hok : FactorWell t a b) :
    ∃ t' more factor, tdcpmUnitBuildFactor t a b = .ok (t', factor) ∧ HoldsTables t' (strs ++ more) ∧
      (factor = none ∧
          baseUnit strippedName (unitOf t.names a) ≠ baseUnit strippedName (unitOf t.names b) ∨
        factor = some (10 ^ (magnitude nameMag (unitOf t.names b) -
            magnitude nameMag (unitOf t.names a))) ∧
          baseUnit strippedName (unitOf t.names a) =
            baseUnit strippedName (unitOf t.names b)) := by
  have hholds := h
  obtain ⟨regs, items, hinv⟩ := h
  obtain ⟨hwell, hwell', hfits⟩ := hok
  obtain ⟨s1, more1, entered1, hstep1, hinv1⟩ := hinv.unit ha (hwell.of_tables rfl)
  obtain ⟨i, hmake1, hreg1⟩ := unitStep_unit hstep1
  have hb1 : ∀ p ∈ b, p.1 < (strs ++ more1).length := by
    intro p hp
    have := hb p hp
    rw [List.length_append]
    omega
  obtain ⟨s2, more2, entered2, hstep2, hinv2⟩ := hinv1.unit hb1 ((hwell' _ hmake1).of_tables rfl)
  obtain ⟨j, hmake2, hreg2⟩ := unitStep_unit hstep2
  rw [List.append_assoc] at hinv2
  have hholds' : HoldsTables s2.tables (strs ++ (more1 ++ more2)) := ⟨_, _, hinv2⟩
  have hname : ∀ parts : List TdcpmUnitItemPart, (∀ p ∈ parts, p.1 < strs.length) →
      unitOf s2.names parts = unitOf t.names parts :=
    fun parts hparts => unitOf_congr fun p hp => (names_later hholds hholds' (hparts p hp)).symm
  obtain ⟨mag, hfactor, hiff, hmag⟩ := hinv2.agree.2 (a, i) (by simp [hreg1, hreg2]) (b, j)
    (by simp [hreg2])
  simp only [unitDim_eq_iff, unitMag_eq, hname a ha, hname b hb] at hiff hmag hfits
  refine ⟨s2.tables, more1 ++ more2, mag.map fun m => 10 ^ m.toInt, ?_, hholds', ?_⟩
  · simp only at hmake1 hmake2 hfactor
    simp [tdcpmUnitBuildFactor, hmake1, hmake2, hfactor]
  · cases mag with
    | none =>
      refine .inl ⟨rfl, ?_⟩
      intro hdim
      exact absurd (hiff.mpr hdim) (by simp)
    | some m =>
      refine .inr ⟨?_, hiff.mp rfl⟩
      rw [← hmag m rfl hfits]
      rfl

theorem Known.computed (h : HoldsTables t strs) {d : TdcpmDblUnitBuild}
    (hk : Known names strs tokens) (hd : .valueUnit d ∈ tokens ∨ .unit d ∈ tokens) :
    Computed t strs d (quantityIn d.value (unitOf names d.unitBld)) (unitOf names d.unitBld) := by
  refine ⟨h, ?_, ?_, rfl⟩
  · intro p hp
    obtain ⟨a, ha, -⟩ := hk d hd p hp
    exact (List.getElem?_eq_some_iff.mp ha).1
  · refine unitOf_congr fun p hp => ?_
    obtain ⟨a, ha, hname⟩ := hk d hd p hp
    rw [h.namesOf _ _ ha, hname]

theorem identBlock_spec (h : HoldsTables t strs) {name : CStr} {e : Int32}
    (hok : RegistersWell ⟨t, []⟩ (.ident name)) :
    ∃ t' d more, identBlock t name e = .ok (t', d) ∧
      Computed t' (strs ++ more) d (quantityIn 1 (Finsupp.single name.chars e.toInt))
        (Finsupp.single name.chars e.toInt) := by
  obtain ⟨strings, strIdx, more, hins, hholds, hget⟩ := h.ident hok
  refine ⟨{ t with strings := strings }, ⟨1, tdcpmUnitBuildNew strIdx e⟩, more, ?_, hholds, ?_, ?_,
    rfl⟩
  · simp [identBlock, hins, pure, Except.pure]
  · intro p hp
    rw [List.mem_singleton.mp hp]
    exact (List.getElem?_eq_some_iff.mp hget).1
  · simp [tdcpmUnitBuildNew, unitOf, hholds.namesOf _ _ hget]

theorem UnitPartBlock.act_spec (h : HoldsTables t strs) {b : UnitPartBlock}
    (hk : Known names strs b.tokens) (hw : b.Well t) :
    ∃ t' d more, b.act t = .ok (t', d) ∧
      Computed t' (strs ++ more) d (b.quantity names) (b.exponents names) := by
  cases b with
  | identNegPower name n =>
    obtain ⟨t', d, more, hact, hc⟩ := identBlock_spec (e := -n) h hw.1
    rw [toInt_neg_of_ne hw.2] at hc
    exact ⟨t', d, more, hact, hc⟩
  | unit d =>
    refine ⟨t, d, [], rfl, ?_⟩
    rw [List.append_nil]
    exact hk.computed h (.inr (by simp [UnitPartBlock.tokens]))
  | _ => exact identBlock_spec h hw

theorem Computed.times {d1 d2 : TdcpmDblUnitBuild} {q1 q2 : Quantity (List UInt8)}
    {u1 u2 : List UInt8 →₀ ℤ} (h1 : Computed t strs d1 q1 u1) (h2 : Computed t strs d2 q2 u2) :
    Computed t strs (prodResult d1 d2 .times) (q1.mul q2) (u1 + u2) := by
  refine ⟨h1.holds, ?_, ?_, ?_⟩
  · simp only [prodResult, tdcpmUnitBuildMul, Int32.mul_one, List.map_id', List.mem_append]
    rintro p (hp | hp)
    · exact h1.valid p hp
    · exact h2.valid p hp
  · rw [prodResult, unitOf_mul_one, h1.unit, h2.unit]
  · rw [← h1.quantity, ← h2.quantity]
    exact inUnit_mul

theorem Computed.slash {d1 d2 : TdcpmDblUnitBuild} {q1 q2 : Quantity (List UInt8)}
    {u1 u2 : List UInt8 →₀ ℤ} (h1 : Computed t strs d1 q1 u1) (h2 : Computed t strs d2 q2 u2)
    (hw : prodWell d2.unitBld .slash) :
    Computed t strs (prodResult d1 d2 .slash) (q1.div q2) (u1 - u2) := by
  refine ⟨h1.holds, ?_, ?_, ?_⟩
  · simp only [prodResult, tdcpmUnitBuildMul, List.mem_append, List.mem_map]
    rintro p (hp | ⟨p', hp', rfl⟩)
    · exact h1.valid p hp
    · exact h2.valid p' hp'
  · rw [prodResult, unitOf_mul_neg (hw rfl), h1.unit, h2.unit]
  · rw [← h1.quantity, ← h2.quantity]
    exact inUnit_div

theorem UnitPartMany.act_spec (h : HoldsTables t strs) {m : UnitPartMany}
    (hk : Known names strs m.tokens) (hw : m.Well t) :
    ∃ t' d more, m.act t = .ok (t', d) ∧
      Computed t' (strs ++ more) d (m.quantity names) (m.exponents names) := by
  induction m with
  | block b => exact b.act_spec h hk hw
  | many m b ih =>
    obtain ⟨t1, d1, more1, hact1, hc1⟩ := ih (hk.mono (by simp [UnitPartMany.tokens])) hw.1
    have hk1 : Known names (strs ++ more1) b.tokens :=
      (hk.mono (by simp [UnitPartMany.tokens])).append more1
    obtain ⟨t2, d2, more2, hact2, hc2⟩ := UnitPartBlock.act_spec hc1.holds hk1 (hw.2 _ hact1)
    refine ⟨t2, prodResult d1 d2 .times, more1 ++ more2, ?_, ?_⟩
    · simp [UnitPartMany.act, hact1, hact2, prodResult, pure, Except.pure]
    · rw [← List.append_assoc]
      exact (hc1.later hc2.holds).times hc2

theorem ValueRawUnit.act_spec (h : HoldsTables t strs) {r : ValueRawUnit}
    (hk : Known names strs r.tokens) (hw : r.Well t) :
    ∃ t' d more, r.act t = .ok (t', d) ∧
      Computed t' (strs ++ more) d (r.quantity names) (r.exponents names) := by
  cases r with
  | raw r =>
    refine ⟨t, ⟨r.value, []⟩, [], rfl, ?_⟩
    rw [List.append_nil]
    exact ⟨h, by simp, rfl, rfl⟩
  | rawUnit r m =>
    obtain ⟨t', d, more, hact, hc⟩ := UnitPartMany.act_spec h
      (hk.mono (by simp [ValueRawUnit.tokens])) hw
    refine ⟨t', ⟨r.value * d.value, d.unitBld⟩, more, ?_, hc.holds, hc.valid, hc.unit, ?_⟩
    · simp [ValueRawUnit.act, hact, pure, Except.pure]
    · have hmul : quantityIn (r.value * d.value) (0 + m.exponents names) =
          (quantityIn r.value 0).mul (quantityIn d.value (m.exponents names)) := inUnit_mul
      rw [zero_add, hc.quantity] at hmul
      exact hmul
  | valueUnit d =>
    refine ⟨t, d, [], rfl, ?_⟩
    rw [List.append_nil]
    exact hk.computed h (.inl (by simp [ValueRawUnit.tokens]))

variable {d1 d2 : TdcpmDblUnitBuild} {q1 q2 : Quantity (List UInt8)} {u1 u2 : List UInt8 →₀ ℤ}

theorem sumAct_spec (h1 : Computed t strs d1 q1 u1) (h2 : Computed t strs d2 q2 u2)
    (hw : FactorWell t d1.unitBld d2.unitBld) (op : SumOp) :
    (q1.dim ≠ q2.dim ∧ sumAct t op d1 d2 = .error (.yyerror (mismatchText op))) ∨
      q1.dim = q2.dim ∧ ∃ t' d more, sumAct t op d1 d2 = .ok (t', d) ∧
        Computed t' (strs ++ more) d (q1.add q2) u1 := by
  obtain ⟨t', more, factor, hfactor, hholds, hcase⟩ := h1.holds.factor h1.valid h2.valid hw
  rw [h1.unit, h2.unit] at hcase
  have hdim1 : q1.dim = baseUnit strippedName u1 := by rw [← h1.quantity]; rfl
  have hdim2 : q2.dim = baseUnit strippedName u2 := by rw [← h2.quantity]; rfl
  rw [hdim1, hdim2]
  rcases hcase with ⟨rfl, hne⟩ | ⟨rfl, heq⟩
  · exact .inl ⟨hne, by simp [sumAct, hfactor]⟩
  · refine .inr ⟨heq, t', ⟨_, d1.unitBld⟩, more, by simp [sumAct, hfactor]; rfl, ?_⟩
    have hlater := h1.later hholds
    refine ⟨hholds, hlater.valid, hlater.unit, ?_⟩
    rw [← h1.quantity, ← h2.quantity]
    cases op <;> exact inUnit_add

theorem prodResult_spec (h1 : Computed t strs d1 q1 u1) (h2 : Computed t strs d2 q2 u2)
    {op : ProdOp} (hw : prodWell d2.unitBld op) :
    Computed t strs (prodResult d1 d2 op) (prodQuantity q1 q2 op)
      (match op with
        | .times => u1 + u2
        | .slash => u1 - u2) := by
  cases op with
  | times => exact h1.times h2
  | slash => exact h1.slash h2 hw

end Tables

end Ucesb
