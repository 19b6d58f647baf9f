import Ucesb.Quantity
import Ucesb.TdcpmValues
import Ucesb.UnitAgree

namespace Ucesb

def nameMag (name : List UInt8) : ℤ := (prefixMag name).toInt

noncomputable def quantityIn (x : ℚ) (u : List UInt8 →₀ ℤ) : Quantity (List UInt8) :=
  inUnit strippedName nameMag x u

noncomputable def unitOf (names : Nat → List UInt8) : List TdcpmUnitItemPart → (List UInt8 →₀ ℤ)
  | [] => 0
  | part :: parts => Finsupp.single (names part.1) part.2.toInt + unitOf names parts

def TdcpmUnits.names (t : TdcpmUnits) : Nat → List UInt8 := tdcpmStringTableGet t.strings

section Meaning

variable (names : Nat → List UInt8)

noncomputable def UnitPartBlock.exponents : UnitPartBlock → (List UInt8 →₀ ℤ)
  | .ident name => Finsupp.single name.chars 1
  | .identInteger name n => Finsupp.single name.chars n.toInt
  | .identPower name n => Finsupp.single name.chars n.toInt
  | .identNegPower name n => Finsupp.single name.chars (-n.toInt)
  | .unit d => unitOf names d.unitBld

noncomputable def UnitPartBlock.quantity : UnitPartBlock → Quantity (List UInt8)
  | .unit d => quantityIn d.value (unitOf names d.unitBld)
  | b => quantityIn 1 (b.exponents names)

noncomputable def UnitPartMany.exponents : UnitPartMany → (List UInt8 →₀ ℤ)
  | .block b => b.exponents names
  | .many m b => m.exponents + b.exponents names

noncomputable def UnitPartMany.quantity : UnitPartMany → Quantity (List UInt8)
  | .block b => b.quantity names
  | .many m b => m.quantity.mul (b.quantity names)

noncomputable def ValueRawUnit.exponents : ValueRawUnit → (List UInt8 →₀ ℤ)
  | .raw _ => 0
  | .rawUnit _ m => m.exponents names
  | .valueUnit d => unitOf names d.unitBld

noncomputable def ValueRawUnit.quantity : ValueRawUnit → Quantity (List UInt8)
  | .raw r => quantityIn r.value 0
  | .rawUnit r m => (quantityIn r.value 0).mul (m.quantity names)
  | .valueUnit d => quantityIn d.value (unitOf names d.unitBld)

noncomputable def signQuantity (a : Quantity (List UInt8)) : SumOp → Quantity (List UInt8)
  | .plus => a
  | .minus => a.neg

noncomputable def sumQuantity (a b : Quantity (List UInt8)) : SumOp → Quantity (List UInt8)
  | .plus => a.add b
  | .minus => a.sub b

noncomputable def prodQuantity (a b : Quantity (List UInt8)) : ProdOp → Quantity (List UInt8)
  | .times => a.mul b
  | .slash => a.div b

/-- The exponents of the unit in which the result is given. -/
noncomputable def Value.exponents : Value → (List UInt8 →₀ ℤ)
  | .rawUnit r => r.exponents names
  | .sign _ v => v.exponents
  | .sum _ l _ => l.exponents
  | .prod .times l r => l.exponents + r.exponents
  | .prod .slash l r => l.exponents - r.exponents
  | .prodUnit .times l m => l.exponents + m.exponents names
  | .prodUnit .slash l m => l.exponents - m.exponents names
  | .paren v => v.exponents

open Classical in
/-- The quantity, unless terms of different dimensions are added or subtracted. -/
noncomputable def Value.quantity : Value → Option (Quantity (List UInt8))
  | .rawUnit r => some (r.quantity names)
  | .sign op v => v.quantity.map fun a => signQuantity a op
  | .sum op l r => do
    let a ← l.quantity
    let b ← r.quantity
    if a.dim = b.dim then some (sumQuantity a b op) else none
  | .prod op l r => do
    let a ← l.quantity
    let b ← r.quantity
    return prodQuantity a b op
  | .prodUnit op l m => l.quantity.map fun a => prodQuantity a (m.quantity names) op
  | .paren v => v.quantity

def Value.NoZeroDivision : Value → Prop
  | .rawUnit _ => True
  | .sign _ v => v.NoZeroDivision
  | .sum _ l r => l.NoZeroDivision ∧ r.NoZeroDivision
  | .prod op l r => l.NoZeroDivision ∧ r.NoZeroDivision ∧
      (op = .slash → ∀ b, r.quantity names = some b → b.value ≠ 0)
  | .prodUnit op l m => l.NoZeroDivision ∧ (op = .slash → (m.quantity names).value ≠ 0)
  | .paren v => v.NoZeroDivision

/-- The action gives the exact value in the unit of the result, or the program ends because of terms
that cannot be added or subtracted. -/
def Value.Exact (t : TdcpmUnits) (v : Value) : Prop :=
  match v.act t with
  | .ok (t', d) => unitOf t'.names d.unitBld = v.exponents names ∧
      v.quantity names = some (quantityIn d.value (v.exponents names))
  | .error (.yyerror _) => v.quantity names = none
  | .error .unset => False

def Value.ExactThroughout (t : TdcpmUnits) : Value → Prop
  | .rawUnit r => (Value.rawUnit r).Exact names t
  | .sign op v => v.ExactThroughout t ∧ (Value.sign op v).Exact names t
  | .sum op l r => l.ExactThroughout t ∧ (∀ o, l.act t = .ok o → r.ExactThroughout o.1) ∧
      (Value.sum op l r).Exact names t
  | .prod op l r => l.ExactThroughout t ∧ (∀ o, l.act t = .ok o → r.ExactThroughout o.1) ∧
      (Value.prod op l r).Exact names t
  | .prodUnit op l m => l.ExactThroughout t ∧ (Value.prodUnit op l m).Exact names t
  | .paren v => v.ExactThroughout t

/-- The rule `value_unit` gives the exact value, with the index of the unit. -/
def ExactInTable (t : TdcpmUnits) (v : Value) : Prop :=
  match valueUnit t v with
  | .ok (t', x, unitIdx) => ∃ item, t'.units.store[unitIdx]? = some item ∧
      unitOf t'.names item.unit = v.exponents names ∧
      v.quantity names = some (quantityIn x (v.exponents names))
  | .error (.yyerror _) => v.quantity names = none
  | .error .unset => False

/-- Nothing but zero is subtracted, in what is computed before any terms that cannot be added or
subtracted. -/
def Value.SubtractsZero : Value → Prop
  | .rawUnit _ => True
  | .sign _ v => v.SubtractsZero
  | .sum op l r => l.SubtractsZero ∧ (l.quantity names ≠ none → r.SubtractsZero) ∧
      (op = .minus → ∀ b, (Value.sum op l r).quantity names ≠ none → r.quantity names = some b →
        b.value = 0)
  | .prod _ l r => l.SubtractsZero ∧ (l.quantity names ≠ none → r.SubtractsZero)
  | .prodUnit _ l _ => l.SubtractsZero
  | .paren v => v.SubtractsZero

end Meaning

def UnitPartBlock.Well (t : TdcpmUnits) : UnitPartBlock → Prop
  | .ident name => RegistersWell ⟨t, []⟩ (.ident name)
  | .identInteger name _ => RegistersWell ⟨t, []⟩ (.ident name)
  | .identPower name _ => RegistersWell ⟨t, []⟩ (.ident name)
  | .identNegPower name n => RegistersWell ⟨t, []⟩ (.ident name) ∧ n ≠ Int32.minValue
  | .unit _ => True

def UnitPartMany.Well (t : TdcpmUnits) : UnitPartMany → Prop
  | .block b => b.Well t
  | .many m b => m.Well t ∧ ∀ o, m.act t = .ok o → b.Well o.1

def ValueRawUnit.Well (t : TdcpmUnits) : ValueRawUnit → Prop
  | .rawUnit _ m => m.Well t
  | _ => True

def FactorWell (t : TdcpmUnits) (a b : List TdcpmUnitItemPart) : Prop :=
  RegistersWell ⟨t, []⟩ (.unit a) ∧
    (∀ o, tdcpmUnitMakeFull t a = some o → RegistersWell ⟨o.1, []⟩ (.unit b)) ∧
    FitsInt32 (unitMag t.names b - unitMag t.names a)

def prodWell (b : List TdcpmUnitItemPart) (op : ProdOp) : Prop :=
  op = .slash → ∀ part ∈ b, part.2 ≠ Int32.minValue

def Value.Well (t : TdcpmUnits) : Value → Prop
  | .rawUnit r => r.Well t
  | .sign _ v => v.Well t
  | .sum _ l r => l.Well t ∧ ∀ o, l.act t = .ok o → r.Well o.1 ∧
      ∀ o', r.act o.1 = .ok o' → FactorWell o'.1 o.2.unitBld o'.2.unitBld
  | .prod op l r => l.Well t ∧ ∀ o, l.act t = .ok o → r.Well o.1 ∧
      ∀ o', r.act o.1 = .ok o' → prodWell o'.2.unitBld op
  | .prodUnit op l m => l.Well t ∧ ∀ o, l.act t = .ok o → m.Well o.1 ∧
      ∀ o', m.act o.1 = .ok o' → prodWell o'.2.unitBld op
  | .paren v => v.Well t

def ValueUnitWell (t : TdcpmUnits) (v : Value) : Prop :=
  v.Well t ∧ ∀ o, v.act t = .ok o → RegistersWell ⟨o.1, []⟩ (.unit o.2.unitBld)

/-- What an expression uses has been defined: its unit was registered then. -/
def UsesDefined (s : UnitRun) (tokens : List ValueToken) : Prop :=
  ∀ d, .valueUnit d ∈ tokens ∨ .unit d ∈ tokens → ∃ index, (d.unitBld, index) ∈ s.registered

end Ucesb
