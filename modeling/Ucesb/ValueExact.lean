import Ucesb.ValueActions
import Ucesb.ValuePrecedence

namespace Ucesb

section Expressions

variable {names : Nat → List UInt8}

/-- Either the exact result has been computed, or there is none and the program has ended. -/
def Value.Outcome (names : Nat → List UInt8) (t : TdcpmUnits) (strs : List CStr) (v : Value) :
    Prop :=
  (∃ q t' d more, v.quantity names = some q ∧ v.act t = .ok (t', d) ∧
      Computed t' (strs ++ more) d q (v.exponents names)) ∨
    v.quantity names = none ∧ ∃ text, v.act t = .error (.yyerror text)

section Steps

variable {t : TdcpmUnits} {strs : List CStr} {l r v : Value}

theorem Value.Outcome.sign (h : v.Outcome names t strs) (op : SumOp) :
    (Value.sign op v).Outcome names t strs := by
  rcases h with ⟨q, t', d, more, hq, hact, hc⟩ | ⟨hnone, text, hact⟩
  · refine .inl ⟨signQuantity q op, t', signAct d op, more, by simp [Value.quantity, hq],
      by simp [Value.act, hact, pure, Except.pure], ?_⟩
    cases op with
    | plus => exact hc
    | minus => exact ⟨hc.holds, hc.valid, hc.unit, by rw [← hc.quantity]; exact inUnit_neg⟩
  · exact .inr ⟨by simp [Value.quantity, hnone], text, by simp [Value.act, hact]⟩

theorem Value.act_sum {t1 t2 : TdcpmUnits} {d1 d2 : TdcpmDblUnitBuild}
    (hl : l.act t = .ok (t1, d1)) (hr : r.act t1 = .ok (t2, d2)) {op : SumOp} :
    (Value.sum op l r).act t = sumAct t2 op d1 d2 := by
  simp [Value.act, hl, hr]

theorem Value.Outcome.sum (hl : l.Outcome names t strs)
    (hr : ∀ q t' d more, l.quantity names = some q → l.act t = .ok (t', d) →
      HoldsTables t' (strs ++ more) → r.Outcome names t' (strs ++ more))
    (hw : ∀ o, l.act t = .ok o → ∀ o', r.act o.1 = .ok o' →
      FactorWell o'.1 o.2.unitBld o'.2.unitBld) {op : SumOp}
    (hzero : op = .minus → ∀ b, (Value.sum op l r).quantity names ≠ none →
      r.quantity names = some b → b.value = 0) :
    (Value.sum op l r).Outcome names t strs := by
  rcases hl with ⟨q1, t1, d1, more1, hq1, hact1, hc1⟩ | ⟨hnone, text, hact⟩
  · rcases hr q1 t1 d1 more1 hq1 hact1 hc1.holds with
      ⟨q2, t2, d2, more2, hq2, hact2, hc2⟩ | ⟨hnone, text, hact⟩
    · have hwell := hw _ hact1 _ hact2
      rcases sumAct_spec (hc1.later hc2.holds) hc2 hwell op with
        ⟨hne, hact⟩ | ⟨heq, t', d, more, hact, hc⟩
      · refine .inr ⟨by simp [Value.quantity, hq1, hq2, hne], mismatchText op, ?_⟩
        rw [Value.act_sum hact1 hact2, hact]
      · have hq : (Value.sum op l r).quantity names = some (sumQuantity q1 q2 op) := by
          simp [Value.quantity, hq1, hq2, heq]
        have hsum : sumQuantity q1 q2 op = q1.add q2 := by
          cases op with
          | plus => rfl
          | minus => exact (Quantity.add_eq_sub_iff.mpr (hzero rfl q2 (by simp [hq]) hq2)).symm
        refine .inl ⟨_, t', d, more1 ++ (more2 ++ more), hq, ?_, ?_⟩
        · rw [Value.act_sum hact1 hact2, hact]
        · rw [← List.append_assoc, ← List.append_assoc, hsum]
          exact hc
    · exact .inr ⟨by simp [Value.quantity, hq1, hnone], text, by simp [Value.act, hact1, hact]⟩
  · exact .inr ⟨by simp [Value.quantity, hnone], text, by simp [Value.act, hact]⟩

theorem Value.Outcome.prod (hl : l.Outcome names t strs)
    (hr : ∀ q t' d more, l.quantity names = some q → l.act t = .ok (t', d) →
      HoldsTables t' (strs ++ more) → r.Outcome names t' (strs ++ more)) {op : ProdOp}
    (hw : ∀ o, l.act t = .ok o → ∀ o', r.act o.1 = .ok o' → prodWell o'.2.unitBld op)
    (hz : op = .slash → ∀ b, r.quantity names = some b → b.value ≠ 0) :
    (Value.prod op l r).Outcome names t strs := by
  rcases hl with ⟨q1, t1, d1, more1, hq1, hact1, hc1⟩ | ⟨hnone, text, hact⟩
  · rcases hr q1 t1 d1 more1 hq1 hact1 hc1.holds with
      ⟨q2, t2, d2, more2, hq2, hact2, hc2⟩ | ⟨hnone, text, hact⟩
    · have hne : ¬(op = .slash ∧ d2.value = 0) := by
        rintro ⟨rfl, hd⟩
        apply hz rfl q2 hq2
        rw [← hc2.quantity]
        exact inUnit_value_eq_zero.mpr hd
      have hc := prodResult_spec (hc1.later hc2.holds) hc2 (hw _ hact1 _ hact2)
      refine .inl ⟨prodQuantity q1 q2 op, t2, prodResult d1 d2 op, more1 ++ more2,
        by simp [Value.quantity, hq1, hq2], ?_, ?_⟩
      · simp [Value.act, hact1, hact2, prodAct, hne]
      · rw [← List.append_assoc]
        cases op <;> exact hc
    · exact .inr ⟨by simp [Value.quantity, hq1, hnone], text, by simp [Value.act, hact1, hact]⟩
  · exact .inr ⟨by simp [Value.quantity, hnone], text, by simp [Value.act, hact]⟩

theorem Value.Outcome.prodUnit (hl : l.Outcome names t strs) {m : UnitPartMany}
    (hk : Known names strs m.tokens) {op : ProdOp}
    (hw : ∀ o, l.act t = .ok o → m.Well o.1 ∧
      ∀ o', m.act o.1 = .ok o' → prodWell o'.2.unitBld op) :
    (Value.prodUnit op l m).Outcome names t strs := by
  rcases hl with ⟨q1, t1, d1, more1, hq1, hact1, hc1⟩ | ⟨hnone, text, hact⟩
  · obtain ⟨hwm, hwp⟩ := hw _ hact1
    obtain ⟨t2, d2, more2, hact2, hc2⟩ := m.act_spec hc1.holds (hk.append more1) hwm
    have hc := prodResult_spec (hc1.later hc2.holds) hc2 (hwp _ hact2)
    refine .inl ⟨prodQuantity q1 (m.quantity names) op, t2, prodResult d1 d2 op, more1 ++ more2,
      by simp [Value.quantity, hq1], ?_, ?_⟩
    · simp [Value.act, hact1, hact2, pure, Except.pure]
    · rw [← List.append_assoc]
      cases op <;> exact hc
  · exact .inr ⟨by simp [Value.quantity, hnone], text, by simp [Value.act, hact]⟩

end Steps

theorem Value.act_spec {t : TdcpmUnits} {strs : List CStr} {v : Value} (h : HoldsTables t strs)
    (hk : Known names strs v.tokens) (hw : v.Well t) (hz : v.NoZeroDivision names)
    (hs : v.SubtractsZero names) : v.Outcome names t strs := by
  induction v generalizing t strs with
  | rawUnit r =>
    obtain ⟨t', d, more, hact, hc⟩ := r.act_spec h hk hw
    exact .inl ⟨_, t', d, more, rfl, hact, hc⟩
  | sign op v ih => exact (ih h (hk.mono (by simp [Value.tokens])) hw hz hs).sign op
  | sum op l r ihl ihr =>
    obtain ⟨hwl, hwr⟩ := hw
    obtain ⟨hzl, hzr⟩ := hz
    obtain ⟨hsl, hsr, hzero⟩ := hs
    refine Value.Outcome.sum (ihl h (hk.mono (by simp [Value.tokens])) hwl hzl hsl) ?_
      (fun o ho => (hwr o ho).2) hzero
    intro q t' d more hq hact hholds
    have hk' : Known names strs r.tokens := hk.mono (by simp [Value.tokens])
    exact ihr hholds (hk'.append more) (hwr _ hact).1 hzr (hsr (by simp [hq]))
  | prod op l r ihl ihr =>
    obtain ⟨hwl, hwr⟩ := hw
    obtain ⟨hzl, hzr, hzero⟩ := hz
    obtain ⟨hsl, hsr⟩ := hs
    refine Value.Outcome.prod (ihl h (hk.mono (by simp [Value.tokens])) hwl hzl hsl) ?_
      (fun o ho => (hwr o ho).2) hzero
    intro q t' d more hq hact hholds
    have hk' : Known names strs r.tokens := hk.mono (by simp [Value.tokens])
    exact ihr hholds (hk'.append more) (hwr _ hact).1 hzr (hsr (by simp [hq]))
  | prodUnit op l m ih =>
    obtain ⟨hwl, hwm⟩ := hw
    obtain ⟨hzl, -⟩ := hz
    exact Value.Outcome.prodUnit (ih h (hk.mono (by simp [Value.tokens])) hwl hzl hs)
      (hk.mono (by simp [Value.tokens])) hwm
  | paren v ih => exact ih h (hk.mono (by simp [Value.tokens])) hw hz hs

theorem Value.Outcome.exact {t : TdcpmUnits} {strs : List CStr} {v : Value}
    (h : v.Outcome names t strs) : v.Exact names t := by
  unfold Value.Exact
  rcases h with ⟨q, t', d, more, hq, hact, hc⟩ | ⟨hnone, text, hact⟩
  · rw [hact]
    refine ⟨hc.unit, ?_⟩
    rw [hq, hc.quantity]
  · rw [hact]
    exact hnone

theorem Value.Exact.sub_zero {t : TdcpmUnits} {strs : List CStr} {l r : Value}
    (h : (Value.sum .minus l r).Exact names t) (hl : l.Outcome names t strs)
    (hr : ∀ q t' d more, l.quantity names = some q → l.act t = .ok (t', d) →
      HoldsTables t' (strs ++ more) → r.Outcome names t' (strs ++ more))
    (hw : ∀ o, l.act t = .ok o → ∀ o', r.act o.1 = .ok o' →
      FactorWell o'.1 o.2.unitBld o'.2.unitBld) {b : Quantity (List UInt8)}
    (hne : (Value.sum .minus l r).quantity names ≠ none) (hb : r.quantity names = some b) :
    b.value = 0 := by
  rcases hl with ⟨q1, t1, d1, more1, hq1, hact1, hc1⟩ | ⟨hnone, -⟩
  · rcases hr q1 t1 d1 more1 hq1 hact1 hc1.holds with
      ⟨q2, t2, d2, more2, hq2, hact2, hc2⟩ | ⟨hnone, -⟩
    · obtain rfl : q2 = b := Option.some.inj (hq2.symm.trans hb)
      have hwell := hw _ hact1 _ hact2
      rcases sumAct_spec (hc1.later hc2.holds) hc2 hwell .minus with
        ⟨hdim, -⟩ | ⟨heq, t', d, more, hact, hc⟩
      · exact absurd (by simp [Value.quantity, hq1, hq2, hdim]) hne
      · have hsum : (Value.sum .minus l r).act t = .ok (t', d) := by
          rw [Value.act_sum hact1 hact2, hact]
        have hq : (Value.sum .minus l r).quantity names = some (q1.sub q2) := by
          simp [Value.quantity, hq1, hq2, heq, sumQuantity]
        unfold Value.Exact at h
        rw [hsum, hq] at h
        have hexact : q1.sub q2 = q1.add q2 := (Option.some.inj h.2).trans hc.quantity
        exact Quantity.add_eq_sub_iff.mp hexact.symm
    · rw [hnone] at hb
      cases hb
  · exact absurd (by simp [Value.quantity, hnone]) hne

theorem Value.Outcome.quantity_of_ok {t : TdcpmUnits} {strs : List CStr} {v : Value}
    (h : v.Outcome names t strs) {o : TdcpmUnits × TdcpmDblUnitBuild} (ho : v.act t = .ok o) :
    v.quantity names ≠ none ∧ ∃ more, HoldsTables o.1 (strs ++ more) := by
  rcases h with ⟨q, t', d, more, hq, hact, hc⟩ | ⟨-, text, hact⟩
  · rw [hact] at ho
    cases ho
    exact ⟨by simp [hq], more, hc.holds⟩
  · rw [hact] at ho
    cases ho

theorem Value.Outcome.right_iff {t : TdcpmUnits} {strs : List CStr} {l r : Value}
    (hl : l.Outcome names t strs)
    (hr : ∀ o more, l.act t = .ok o → HoldsTables o.1 (strs ++ more) →
      (r.ExactThroughout names o.1 ↔ r.SubtractsZero names)) :
    (∀ o, l.act t = .ok o → r.ExactThroughout names o.1) ↔
      (l.quantity names ≠ none → r.SubtractsZero names) := by
  constructor
  · intro hex hq
    rcases hl with ⟨q, t', d, more, -, hact, hc⟩ | ⟨hnone, -⟩
    · exact (hr _ more hact hc.holds).mp (hex _ hact)
    · exact absurd hnone hq
  · intro hs o ho
    obtain ⟨hq, more, hholds⟩ := hl.quantity_of_ok ho
    exact (hr o more ho hholds).mpr (hs hq)

theorem Value.exactThroughout_iff {t : TdcpmUnits} {strs : List CStr} {v : Value}
    (h : HoldsTables t strs) (hk : Known names strs v.tokens) (hw : v.Well t)
    (hz : v.NoZeroDivision names) : v.ExactThroughout names t ↔ v.SubtractsZero names := by
  induction v generalizing t strs with
  | rawUnit r => exact ⟨fun _ => trivial, fun hs => (Value.act_spec h hk hw hz hs).exact⟩
  | sign op v ih =>
    have hiff := ih h (hk.mono (by simp [Value.tokens])) hw hz
    exact ⟨fun hex => hiff.mp hex.1,
      fun hs => ⟨hiff.mpr hs, (Value.act_spec h hk hw hz hs).exact⟩⟩
  | sum op l r ihl ihr =>
    obtain ⟨hwl, hwr⟩ := hw
    obtain ⟨hzl, hzr⟩ := hz
    have hkl : Known names strs l.tokens := hk.mono (by simp [Value.tokens])
    have hkr : Known names strs r.tokens := hk.mono (by simp [Value.tokens])
    have hiffl := ihl h hkl hwl hzl
    have hiffr : ∀ o more, l.act t = .ok o → HoldsTables o.1 (strs ++ more) →
        (r.ExactThroughout names o.1 ↔ r.SubtractsZero names) :=
      fun o more ho hholds => ihr hholds (hkr.append more) (hwr o ho).1 hzr
    constructor
    · rintro ⟨hexl, hexr, hex⟩
      have hsl := hiffl.mp hexl
      have hl := Value.act_spec h hkl hwl hzl hsl
      have hsr := (hl.right_iff hiffr).mp hexr
      refine ⟨hsl, hsr, ?_⟩
      rintro rfl b hne hb
      refine hex.sub_zero hl ?_ (fun o ho => (hwr o ho).2) hne hb
      intro q t' d more hq hact hholds
      exact Value.act_spec hholds (hkr.append more) (hwr _ hact).1 hzr (hsr (by simp [hq]))
    · intro hs
      have hl := Value.act_spec h hkl hwl hzl hs.1
      exact ⟨hiffl.mpr hs.1, (hl.right_iff hiffr).mpr hs.2.1,
        (Value.act_spec h hk ⟨hwl, hwr⟩ ⟨hzl, hzr⟩ hs).exact⟩
  | prod op l r ihl ihr =>
    obtain ⟨hwl, hwr⟩ := hw
    obtain ⟨hzl, hzr, hzero⟩ := hz
    have hkl : Known names strs l.tokens := hk.mono (by simp [Value.tokens])
    have hkr : Known names strs r.tokens := hk.mono (by simp [Value.tokens])
    have hiffl := ihl h hkl hwl hzl
    have hiffr : ∀ o more, l.act t = .ok o → HoldsTables o.1 (strs ++ more) →
        (r.ExactThroughout names o.1 ↔ r.SubtractsZero names) :=
      fun o more ho hholds => ihr hholds (hkr.append more) (hwr o ho).1 hzr
    constructor
    · rintro ⟨hexl, hexr, -⟩
      have hsl := hiffl.mp hexl
      exact ⟨hsl, ((Value.act_spec h hkl hwl hzl hsl).right_iff hiffr).mp hexr⟩
    · intro hs
      have hl := Value.act_spec h hkl hwl hzl hs.1
      exact ⟨hiffl.mpr hs.1, (hl.right_iff hiffr).mpr hs.2,
        (Value.act_spec h hk ⟨hwl, hwr⟩ ⟨hzl, hzr, hzero⟩ hs).exact⟩
  | prodUnit op l m ih =>
    have hiff := ih h (hk.mono (by simp [Value.tokens])) hw.1 hz.1
    exact ⟨fun hex => hiff.mp hex.1,
      fun hs => ⟨hiff.mpr hs, (Value.act_spec h hk hw hz hs).exact⟩⟩
  | paren v ih => exact ih h (hk.mono (by simp [Value.tokens])) hw hz

theorem Value.Outcome.exactInTable {t : TdcpmUnits} {strs : List CStr} {v : Value}
    (h : v.Outcome names t strs)
    (hw : ∀ o, v.act t = .ok o → RegistersWell ⟨o.1, []⟩ (.unit o.2.unitBld)) :
    ExactInTable names t v := by
  unfold ExactInTable
  rcases h with ⟨q, t', d, more, hq, hact, hc⟩ | ⟨hnone, text, hact⟩
  · have hwell := hw _ hact
    obtain ⟨regs, items, hinv⟩ := hc.holds
    obtain ⟨s, more', entered, hstep, hinv'⟩ := hinv.unit hc.valid (hwell.of_tables rfl)
    obtain ⟨index, hmake, hreg⟩ := unitStep_unit hstep
    have hvalue : valueUnit t v = .ok (s.tables, d.value, index) := by
      simp only at hmake
      simp [valueUnit, hact, hmake, pure, Except.pure]
    obtain ⟨item, hitem, hunit, -⟩ := hinv'.registered (d.unitBld, index) (by simp [hreg])
    rw [hvalue]
    refine ⟨item, hitem, ?_, ?_⟩
    · rw [hunit]
      exact (hc.later ⟨_, _, hinv'⟩).unit
    · rw [hq, hc.quantity]
  · have hvalue : valueUnit t v = .error (.yyerror text) := by
      simp [valueUnit, hact]
    rw [hvalue]
    exact hnone

end Expressions

theorem UsesDefined.known {s : UnitRun} {strs : List CStr}
    {items : List (List TdcpmUnitItemPart)} {tokens : List ValueToken}
    (h : UsesDefined s tokens) (hinv : UnitsInv s strs items) : Known s.names strs tokens := by
  intro d hd p hp
  obtain ⟨index, hreg⟩ := h d hd
  obtain ⟨item, -, hunit, stripped, mag, c, hs, -, -⟩ := hinv.registered _ hreg
  rw [hunit] at hs
  obtain ⟨a, ha⟩ := hs.parts_valid p hp
  exact ⟨a, ha, hinv.strings.namesOf _ _ ha⟩

/-- Every derivation is read as the one with the usual precedence. -/
theorem value_expressions_exact {start s : UnitRun} {as : List UnitAction}
    (hstart : unitStart = some start)
    (hok : StepsMeet unitStep (fun s a => BuiltFromNames s a ∧ RegistersWell s a) start as)
    (hrun : runSteps unitStep start as = some s) (v : Value) (huses : UsesDefined s v.tokens) :
    ∃ w, parseValue v.tokens = some w ∧ w.tokens = v.tokens ∧ w.Usual ∧
      (∀ w' : Value, w'.Usual → w'.tokens = v.tokens → w' = w) ∧
      (w.NoZeroDivision s.names → ValueUnitWell s.tables w →
        (w.ExactThroughout s.names s.tables ∧ ExactInTable s.names s.tables w ↔
          w.SubtractsZero s.names)) := by
  obtain ⟨w, hparse⟩ := parseValue_tokens v
  obtain ⟨husual, htokens⟩ := parseValue_usual hparse
  refine ⟨w, hparse, htokens, husual, ?_, ?_⟩
  · intro w' husual' htokens'
    have hparse' := parseValue_of_usual husual'
    rw [htokens', hparse] at hparse'
    exact (Option.some.inj hparse').symm
  · rintro hz ⟨hw, hwell⟩
    obtain ⟨start', items, hstart', hinv⟩ := unitStart_inv
    cases hstart.symm.trans hstart'
    obtain ⟨s', strs, items', hrun', hinv'⟩ := hinv.run hok
    cases hrun.symm.trans hrun'
    have hholds : HoldsTables s.tables strs := ⟨s.registered, items', hinv'⟩
    have hk : Known s.names strs w.tokens := by
      rw [htokens]
      exact huses.known hinv'
    rw [Value.exactThroughout_iff hholds hk hw hz]
    constructor
    · exact And.left
    · intro hs
      exact ⟨hs, (Value.act_spec hholds hk hw hz hs).exactInTable hwell⟩

theorem km_no_nul : (0 : UInt8) ∉ [107, 109] := by decide

theorem m_no_nul : (0 : UInt8) ∉ [109] := by decide

def kmName : CStr := ⟨[107, 109], km_no_nul⟩

def mName : CStr := ⟨[109], m_no_nul⟩

def kilometre : List UnitAction := [.ident kmName, .unit [(0, 1)]]

def kilometreAndMetres : Value :=
  .sum .plus (.rawUnit (.rawUnit (.integer 1) (.block (.ident kmName))))
    (.rawUnit (.rawUnit (.integer 2) (.block (.ident mName))))

theorem registersWell_known {t : TdcpmUnits} {parts : List TdcpmUnitItemPart}
    (hfits : UnitFits t.names parts) (hspace : t.units.num < t.units.alloc)
    (hin : ∃ item ∈ t.units.store, item.unit = parts)
    (hown : ∀ index : Nat, t.units.store[index]? = some ⟨some (index, 0), parts⟩ →
      ∀ part ∈ parts, unitPrefix (t.names part.1) = none) :
    RegistersWell ⟨t, []⟩ (.unit parts) := by
  refine ⟨hfits, ?_, hown, ?_⟩
  · intro hle
    exact absurd hle (Nat.not_le.mpr hspace)
  · intro hnot
    obtain ⟨item, hitem, hunit⟩ := hin
    exact absurd hunit (hnot item hitem)

theorem value_expressions_exact_kilometre :
    ∃ start s w, unitStart = some start ∧ runSteps unitStep start kilometre = some s ∧
      parseValue kilometreAndMetres.tokens = some w ∧
      w.ExactThroughout s.names s.tables ∧ ExactInTable s.names s.tables w := by
  have hcheck : (unitStart.bind fun start =>
      if checkSteps unitStep registersPlainly start kilometre = true then
        runSteps unitStep start kilometre else none).map
      (fun s => decide (tdcpmStringTableInsert s.tables.strings kmName =
          some (s.tables.strings, 0) ∧
        tdcpmStringTableInsert s.tables.strings mName = some (s.tables.strings, 1) ∧
        s.tables.strings.num < s.tables.strings.alloc ∧ s.tables.units.num < s.tables.units.alloc ∧
        s.tables.units.store = [⟨some (0, 0), []⟩, ⟨some (2, 3), [(0, 1)]⟩,
          ⟨some (2, 0), [(1, 1)]⟩] ∧
        tdcpmUnitMakeFull s.tables [(0, 1)] = some (s.tables, 1) ∧
        tdcpmUnitMakeFull s.tables [(1, 1)] = some (s.tables, 2) ∧
        unitMag s.names [(0, 1)] = 3 ∧ unitMag s.names [(1, 1)] = 0 ∧
        unitPrefix (s.names 1) = none)) = some true := by
    decide +kernel
  obtain ⟨s, hs, hfacts⟩ := Option.map_eq_some_iff.mp hcheck
  obtain ⟨start, hstart, hs⟩ := Option.bind_eq_some_iff.mp hs
  obtain ⟨hmeets, hrun⟩ : _ ∧ _ := by simpa using hs
  obtain ⟨hkm, hm, hspace, hunits, hstore, hfull0, hfull1, hmag0, hmag1, hprefix⟩ :=
    of_decide_eq_true hfacts
  have huses : UsesDefined s kilometreAndMetres.tokens := by
    intro d hd
    simp [kilometreAndMetres, Value.tokens, ValueRawUnit.tokens, UnitPartMany.tokens,
      UnitPartBlock.tokens, ValueRaw.token, SumOp.token] at hd
  obtain ⟨w, hparse, -, -, -, hiff⟩ := value_expressions_exact hstart
    ((stepsMeet_of_check hmeets).imp fun s a => @meets_of_plainly s a) hrun kilometreAndMetres huses
  have husual : kilometreAndMetres.Usual := ⟨trivial, trivial, by decide⟩
  obtain rfl : kilometreAndMetres = w :=
    Option.some.inj ((parseValue_of_usual husual).symm.trans hparse)
  have hident : ∀ name, RegistersWell ⟨s.tables, []⟩ (.ident name) :=
    fun name hle => absurd hle (Nat.not_le.mpr hspace)
  have hunit0 : RegistersWell ⟨s.tables, []⟩ (.unit [(0, 1)]) := by
    refine registersWell_known (.of_small (by decide) ?_) hunits (by simp [hstore]) ?_
    · exact hmag0.symm ▸ (by decide : FitsInt32 3)
    · intro index hindex
      have hmem := List.mem_of_getElem? (hstore ▸ hindex)
      simp at hmem
  have hunit1 : RegistersWell ⟨s.tables, []⟩ (.unit [(1, 1)]) := by
    refine registersWell_known (.of_small (by decide) ?_) hunits (by simp [hstore]) ?_
    · exact hmag1.symm ▸ (by decide : FitsInt32 0)
    · intro index _ part hpart
      rw [List.mem_singleton.mp hpart]
      exact hprefix
  have hact0 : (Value.rawUnit (.rawUnit (.integer 1) (.block (.ident kmName)))).act s.tables =
      .ok (s.tables, ⟨1, [(0, 1)]⟩) := by
    simp [Value.act, ValueRawUnit.act, UnitPartMany.act, UnitPartBlock.act, identBlock, hkm,
      ValueRaw.value, tdcpmUnitBuildNew, pure, Except.pure]
  have hact1 : (Value.rawUnit (.rawUnit (.integer 2) (.block (.ident mName)))).act s.tables =
      .ok (s.tables, ⟨2, [(1, 1)]⟩) := by
    simp [Value.act, ValueRawUnit.act, UnitPartMany.act, UnitPartBlock.act, identBlock, hm,
      ValueRaw.value, tdcpmUnitBuildNew, pure, Except.pure]
  have hfactor : tdcpmUnitFactor s.tables.units 1 2 = some (some (-3)) := by
    simp only [tdcpmUnitFactor, hstore]
    decide
  have hwell : ValueUnitWell s.tables kilometreAndMetres := by
    refine ⟨⟨hident _, fun o ho => ?_⟩, fun o ho => ?_⟩
    · cases hact0.symm.trans ho
      refine ⟨hident _, fun o' ho' => ?_⟩
      cases hact1.symm.trans ho'
      refine ⟨hunit0, fun o ho => ?_, ?_⟩
      · cases hfull0.symm.trans ho
        exact hunit1
      · show FitsInt32 (unitMag s.names [(1, 1)] - unitMag s.names [(0, 1)])
        rw [hmag0, hmag1]
        decide
    · rw [kilometreAndMetres, Value.act_sum hact0 hact1] at ho
      simp only [sumAct, tdcpmUnitBuildFactor, hfull0, hfull1, hfactor, orUnset_some, ok_bind,
        pure, Except.pure, Option.map_some] at ho
      cases ho
      exact hunit0
  refine ⟨start, s, kilometreAndMetres, hstart, hrun, hparse, (hiff ⟨trivial, trivial⟩ hwell).mpr ?_⟩
  exact ⟨trivial, fun _ => trivial, fun h => by cases h⟩

def fiveMinusThree : List ValueToken := [.integer 5, .minus, .integer 3]

theorem subtraction_adds :
    ∃ start w t d, unitStart = some start ∧ parseValue fiveMinusThree = some w ∧
      w.NoZeroDivision start.names ∧ w.act start.tables = .ok (t, d) ∧ d = ⟨8, []⟩ ∧
      w.quantity start.names = some (quantityIn 2 0) ∧ ¬ w.Exact start.names start.tables := by
  have hfacts : unitStart.map (fun s => decide (s.tables.units.store = [⟨some (0, 0), []⟩] ∧
      tdcpmUnitMakeFull s.tables [] = some (s.tables, 0))) = some true := by
    decide +kernel
  obtain ⟨start, hstart, hfacts⟩ := Option.map_eq_some_iff.mp hfacts
  obtain ⟨hstore, hfull⟩ := of_decide_eq_true hfacts
  have hfactor : tdcpmUnitFactor start.tables.units 0 0 = some (some 0) := by
    simp only [tdcpmUnitFactor, hstore]
    decide
  have hact : (Value.sum .minus (.rawUnit (.raw (.integer 5)))
      (.rawUnit (.raw (.integer 3)))).act start.tables = .ok (start.tables, ⟨8, []⟩) := by
    rw [Value.act_sum rfl rfl]
    simp only [sumAct, tdcpmUnitBuildFactor, hfull, hfactor, orUnset_some, ok_bind, pure, Except.pure,
      Option.map_some]
    have hvalue : sumValue (ValueRaw.integer 5).value (10 ^ (0 : Int32).toInt)
        (ValueRaw.integer 3).value .minus = 8 := by
      decide +kernel
    rw [hvalue]
  have hquantity : (Value.sum .minus (.rawUnit (.raw (.integer 5)))
      (.rawUnit (.raw (.integer 3)))).quantity start.names = some (quantityIn 2 0) := by
    have hvalue : (ValueRaw.integer 5).value + -(ValueRaw.integer 3).value = 2 := by
      decide +kernel
    simp [Value.quantity, ValueRawUnit.quantity, quantityIn, inUnit, sumQuantity, Quantity.sub,
      Quantity.add, Quantity.neg, hvalue]
  refine ⟨start, _, start.tables, ⟨8, []⟩, hstart, rfl, ⟨trivial, trivial⟩, hact, rfl, hquantity, ?_⟩
  intro hexact
  unfold Value.Exact at hexact
  rw [hact, hquantity] at hexact
  have hvalue := inUnit_inj.mp (Option.some.inj hexact.2)
  norm_num at hvalue

end Ucesb
