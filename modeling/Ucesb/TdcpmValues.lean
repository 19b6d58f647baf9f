import Ucesb.TdcpmUnits
import Mathlib.Algebra.Order.Field.Rat

namespace Ucesb

structure TdcpmDblUnitBuild where
  value : ℚ
  unitBld : List TdcpmUnitItemPart
deriving DecidableEq

/-- The lexer gives `VALUE_UNIT` or `UNIT` with what has been defined for an identifier, and
`IDENTIFIER` for one that has no definition. -/
inductive ValueToken
  | double (x : ℚ)
  | integer (n : Int32)
  | identifier (name : CStr)
  | valueUnit (d : TdcpmDblUnitBuild)
  | unit (d : TdcpmDblUnitBuild)
  | plus
  | minus
  | times
  | slash
  | caret
  | opening
  | closing

inductive UnitPartBlock
  | ident (name : CStr)
  | identInteger (name : CStr) (n : Int32)
  | identPower (name : CStr) (n : Int32)
  | identNegPower (name : CStr) (n : Int32)
  | unit (d : TdcpmDblUnitBuild)

inductive UnitPartMany
  | block (b : UnitPartBlock)
  | many (m : UnitPartMany) (b : UnitPartBlock)

inductive ValueRaw
  | double (x : ℚ)
  | integer (n : Int32)

inductive ValueRawUnit
  | raw (r : ValueRaw)
  | rawUnit (r : ValueRaw) (m : UnitPartMany)
  | valueUnit (d : TdcpmDblUnitBuild)

inductive SumOp
  | plus
  | minus
deriving DecidableEq

inductive ProdOp
  | times
  | slash
deriving DecidableEq

inductive Value
  | rawUnit (r : ValueRawUnit)
  | sign (op : SumOp) (v : Value)
  | sum (op : SumOp) (l r : Value)
  | prod (op : ProdOp) (l r : Value)
  | prodUnit (op : ProdOp) (l : Value) (m : UnitPartMany)
  | paren (v : Value)

def SumOp.token : SumOp → ValueToken
  | .plus => .plus
  | .minus => .minus

def ProdOp.token : ProdOp → ValueToken
  | .times => .times
  | .slash => .slash

def UnitPartBlock.tokens : UnitPartBlock → List ValueToken
  | .ident name => [.identifier name]
  | .identInteger name n => [.identifier name, .integer n]
  | .identPower name n => [.identifier name, .caret, .integer n]
  | .identNegPower name n => [.identifier name, .caret, .minus, .integer n]
  | .unit d => [.unit d]

def UnitPartMany.tokens : UnitPartMany → List ValueToken
  | .block b => b.tokens
  | .many m b => m.tokens ++ b.tokens

def ValueRaw.token : ValueRaw → ValueToken
  | .double x => .double x
  | .integer n => .integer n

def ValueRawUnit.tokens : ValueRawUnit → List ValueToken
  | .raw r => [r.token]
  | .rawUnit r m => r.token :: m.tokens
  | .valueUnit d => [.valueUnit d]

def Value.tokens : Value → List ValueToken
  | .rawUnit r => r.tokens
  | .sign op v => op.token :: v.tokens
  | .sum op l r => l.tokens ++ op.token :: r.tokens
  | .prod op l r => l.tokens ++ op.token :: r.tokens
  | .prodUnit op l m => l.tokens ++ op.token :: m.tokens
  | .paren v => .opening :: (v.tokens ++ [.closing])

/-- `yyerror` ends the program. `unset` is for a table entry that cannot be found or has not been
set. -/
inductive ParseError
  | yyerror (text : String)
  | unset
deriving DecidableEq

def orUnset {α : Type} : Option α → Except ParseError α
  | some a => .ok a
  | none => .error .unset

section Except

variable {ε α β : Type}

@[simp] theorem ok_bind (a : α) (f : α → Except ε β) : (Except.ok a >>= f) = f a := rfl

@[simp] theorem error_bind (e : ε) (f : α → Except ε β) :
    (Except.error e >>= f) = Except.error e := rfl

@[simp] theorem ok_map (a : α) (f : α → β) : (f <$> (Except.ok a : Except ε α)) = .ok (f a) := rfl

@[simp] theorem error_map (e : ε) (f : α → β) :
    (f <$> (Except.error e : Except ε α)) = .error e := rfl

@[simp] theorem orUnset_some (a : α) : orUnset (some a) = .ok a := rfl

end Except

def tdcpmUnitBuildNew (strIdx : Nat) (exponent : Int32) : List TdcpmUnitItemPart :=
  [(strIdx, exponent)]

def tdcpmUnitBuildMul (a b : List TdcpmUnitItemPart) (mul : Int32) : List TdcpmUnitItemPart :=
  a ++ b.map fun part => (part.1, part.2 * mul)

def tdcpmUnitBuildFactor (t : TdcpmUnits) (a b : List TdcpmUnitItemPart) :
    Except ParseError (TdcpmUnits × Option ℚ) := do
  let (t, aIdx) ← orUnset (tdcpmUnitMakeFull t a)
  let (t, bIdx) ← orUnset (tdcpmUnitMakeFull t b)
  let mag ← orUnset (tdcpmUnitFactor t.units aIdx bIdx)
  return (t, mag.map fun m => 10 ^ m.toInt)

/-- The identifier is entered into the string table when the lexer finds it, which is after all
actions for what is before it. -/
def identBlock (t : TdcpmUnits) (name : CStr) (exponent : Int32) :
    Except ParseError (TdcpmUnits × TdcpmDblUnitBuild) := do
  let (strings, strIdx) ← orUnset (tdcpmStringTableInsert t.strings name)
  return ({ t with strings := strings }, ⟨1, tdcpmUnitBuildNew strIdx exponent⟩)

def UnitPartBlock.act (t : TdcpmUnits) :
    UnitPartBlock → Except ParseError (TdcpmUnits × TdcpmDblUnitBuild)
  | .ident name => identBlock t name 1
  | .identInteger name n => identBlock t name n
  | .identPower name n => identBlock t name n
  | .identNegPower name n => identBlock t name (-n)
  | .unit d => .ok (t, d)

def UnitPartMany.act (t : TdcpmUnits) :
    UnitPartMany → Except ParseError (TdcpmUnits × TdcpmDblUnitBuild)
  | .block b => b.act t
  | .many m b => do
    let (t, d1) ← m.act t
    let (t, d2) ← b.act t
    return (t, ⟨d1.value * d2.value, tdcpmUnitBuildMul d1.unitBld d2.unitBld 1⟩)

def ValueRaw.value : ValueRaw → ℚ
  | .double x => x
  | .integer n => n.toInt

def ValueRawUnit.act (t : TdcpmUnits) :
    ValueRawUnit → Except ParseError (TdcpmUnits × TdcpmDblUnitBuild)
  | .raw r => .ok (t, ⟨r.value, []⟩)
  | .rawUnit r m => do
    let (t, d) ← m.act t
    return (t, ⟨r.value * d.value, d.unitBld⟩)
  | .valueUnit d => .ok (t, d)

def signAct (d : TdcpmDblUnitBuild) : SumOp → TdcpmDblUnitBuild
  | .plus => d
  | .minus => ⟨-d.value, d.unitBld⟩

def mismatchText : SumOp → String
  | .plus => "Error: cannot add, unit mismatch between terms."
  | .minus => "Error: cannot subtract, unit mismatch between terms."

def sumValue (x factor y : ℚ) : SumOp → ℚ
  | .plus => x + factor * y
  | .minus => x + factor * y

def sumAct (t : TdcpmUnits) (op : SumOp) (d1 d2 : TdcpmDblUnitBuild) :
    Except ParseError (TdcpmUnits × TdcpmDblUnitBuild) := do
  let (t, factor) ← tdcpmUnitBuildFactor t d1.unitBld d2.unitBld
  match factor with
  | none => .error (.yyerror (mismatchText op))
  | some factor => .ok (t, ⟨sumValue d1.value factor d2.value op, d1.unitBld⟩)

def prodResult (d1 d2 : TdcpmDblUnitBuild) : ProdOp → TdcpmDblUnitBuild
  | .times => ⟨d1.value * d2.value, tdcpmUnitBuildMul d1.unitBld d2.unitBld 1⟩
  | .slash => ⟨d1.value / d2.value, tdcpmUnitBuildMul d1.unitBld d2.unitBld (-1)⟩

def prodAct (op : ProdOp) (d1 d2 : TdcpmDblUnitBuild) : Except ParseError TdcpmDblUnitBuild :=
  if op = .slash ∧ d2.value = 0 then .error (.yyerror "Warning: Division by zero.")
  else .ok (prodResult d1 d2 op)

def Value.act (t : TdcpmUnits) : Value → Except ParseError (TdcpmUnits × TdcpmDblUnitBuild)
  | .rawUnit r => r.act t
  | .sign op v => do
    let (t, d) ← v.act t
    return (t, signAct d op)
  | .sum op l r => do
    let (t, d1) ← l.act t
    let (t, d2) ← r.act t
    sumAct t op d1 d2
  | .prod op l r => do
    let (t, d1) ← l.act t
    let (t, d2) ← r.act t
    let d ← prodAct op d1 d2
    return (t, d)
  | .prodUnit op l m => do
    -- without a check of the unit's value
    let (t, d1) ← l.act t
    let (t, d2) ← m.act t
    return (t, prodResult d1 d2 op)
  | .paren v => v.act t

/-- The rule `value_unit`: the value and `_unit_idx`. -/
def valueUnit (t : TdcpmUnits) (v : Value) : Except ParseError (TdcpmUnits × ℚ × Nat) := do
  let (t, d) ← v.act t
  let (t, unitIdx) ← orUnset (tdcpmUnitMakeFull t d.unitBld)
  return (t, d.value, unitIdx)

/-- What a value to come stands after. -/
inductive StackItem
  | opening
  | sign (op : SumOp)
  | sum (op : SumOp) (l : Value)
  | prod (op : ProdOp) (l : Value)

/-- The end of what has been read. With units, `raw` is the value before them; without one, they are
the right side of a product. -/
inductive TopItem
  | empty
  | raw (r : ValueRaw)
  | ident (raw : Option ValueRaw) (before : Option UnitPartMany) (name : CStr)
  | caret (raw : Option ValueRaw) (before : Option UnitPartMany) (name : CStr)
  | caretMinus (raw : Option ValueRaw) (before : Option UnitPartMany) (name : CStr)
  | units (raw : Option ValueRaw) (m : UnitPartMany)
  | value (v : Value)

structure ParseState where
  stack : List StackItem
  top : TopItem

def addBlock (b : UnitPartBlock) : Option UnitPartMany → UnitPartMany
  | none => .block b
  | some m => .many m b

/-- If a `unit_part_block` can come next: the value and the blocks before it. -/
def unitsBefore : ParseState → Option (Option ValueRaw × Option UnitPartMany)
  | ⟨_, .raw r⟩ => some (some r, none)
  | ⟨_, .ident raw before name⟩ => some (raw, some (addBlock (.ident name) before))
  | ⟨_, .units raw m⟩ => some (raw, some m)
  | ⟨.prod _ _ :: _, .empty⟩ => some (none, none)
  | _ => none

def unitsValue : List StackItem → Option ValueRaw → UnitPartMany → Option (List StackItem × Value)
  | stack, some r, m => some (stack, .rawUnit (.rawUnit r m))
  | .prod op l :: stack, none, m => some (stack, .prodUnit op l m)
  | _, none, _ => none

def topValue : ParseState → Option (List StackItem × Value)
  | ⟨stack, .raw r⟩ => some (stack, .rawUnit (.raw r))
  | ⟨stack, .ident raw before name⟩ => unitsValue stack raw (addBlock (.ident name) before)
  | ⟨stack, .units raw m⟩ => unitsValue stack raw m
  | ⟨stack, .value v⟩ => some (stack, v)
  | _ => none

/-- The rules that are complete with the value, as long as their precedence is not below that of the
next token. -/
def reduce (p : Nat) : List StackItem → Value → List StackItem × Value
  | [], v => ([], v)
  | .opening :: stack, v => (.opening :: stack, v)
  | .sign op :: stack, v => reduce p stack (.sign op v)
  | .sum op l :: stack, v =>
    if p ≤ 1 then reduce p stack (.sum op l v) else (.sum op l :: stack, v)
  | .prod op l :: stack, v =>
    if p ≤ 2 then reduce p stack (.prod op l v) else (.prod op l :: stack, v)

def operatorStep (s : ParseState) (p : Nat) (item : Value → StackItem) : Option ParseState := do
  let (stack, v) ← topValue s
  let (stack, v) := reduce p stack v
  return ⟨item v :: stack, .empty⟩

def closingStep (s : ParseState) : Option ParseState := do
  let (stack, v) ← topValue s
  match reduce 1 stack v with
  | (.opening :: stack, v) => return ⟨stack, .value (.paren v)⟩
  | _ => none

def parseStep (s : ParseState) : ValueToken → Option ParseState
  | .double x =>
    match s.top with
    | .empty => some ⟨s.stack, .raw (.double x)⟩
    | _ => none
  | .integer n =>
    match s.top with
    | .empty => some ⟨s.stack, .raw (.integer n)⟩
    | .ident raw before name => some ⟨s.stack, .units raw (addBlock (.identInteger name n) before)⟩
    | .caret raw before name => some ⟨s.stack, .units raw (addBlock (.identPower name n) before)⟩
    | .caretMinus raw before name =>
      some ⟨s.stack, .units raw (addBlock (.identNegPower name n) before)⟩
    | _ => none
  | .identifier name => (unitsBefore s).map fun u => ⟨s.stack, .ident u.1 u.2 name⟩
  | .valueUnit d =>
    match s.top with
    | .empty => some ⟨s.stack, .value (.rawUnit (.valueUnit d))⟩
    | _ => none
  | .unit d => (unitsBefore s).map fun u => ⟨s.stack, .units u.1 (addBlock (.unit d) u.2)⟩
  | .plus =>
    match s.top with
    | .empty => some ⟨.sign .plus :: s.stack, .empty⟩
    | _ => operatorStep s 1 (.sum .plus)
  | .minus =>
    match s.top with
    | .empty => some ⟨.sign .minus :: s.stack, .empty⟩
    | .caret raw before name => some ⟨s.stack, .caretMinus raw before name⟩
    | _ => operatorStep s 1 (.sum .minus)
  | .times => operatorStep s 2 (.prod .times)
  | .slash => operatorStep s 2 (.prod .slash)
  | .caret =>
    match s.top with
    | .ident raw before name => some ⟨s.stack, .caret raw before name⟩
    | _ => none
  | .opening =>
    match s.top with
    | .empty => some ⟨.opening :: s.stack, .empty⟩
    | _ => none
  | .closing => closingStep s

def parseValue (tokens : List ValueToken) : Option Value := do
  let s ← runSteps parseStep ⟨[], .empty⟩ tokens
  let (stack, v) ← topValue s
  match reduce 1 stack v with
  | ([], v) => some v
  | _ => none

end Ucesb
