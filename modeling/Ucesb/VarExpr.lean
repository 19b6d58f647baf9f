import Ucesb.CInt

namespace Ucesb

inductive UnaryOp
  | neg
  | not
  | lnot
deriving DecidableEq

inductive BinaryOp
  | lor
  | land
  | add
  | sub
  | mul
  | div
  | rem
  | and
  | or
  | xor
  | shr
  | shl
  | ls
  | gr
  | le
  | ge
  | eq
  | neq
deriving DecidableEq

/-- `variable`. A member, an external or a cast has a value only when the generated code runs. -/
inductive VarExpr
  | const (value : BitVec 32)
  | name (name : String)
  | unary (op : UnaryOp) (rhs : VarExpr)
  | binary (op : BinaryOp) (lhs rhs : VarExpr)
  | other (value : CInt)

/-- The arguments of a structure, the defaults of its parameters, and the arguments of the structure
that it is used in. -/
inductive Arguments
  | none
  | frame (args : List (String × VarExpr)) (defaults : List (String × BitVec 32))
      (prev : Arguments)

def boolBits (b : Bool) : BitVec 32 := if b then 1 else 0

def UnaryOp.eval : UnaryOp → BitVec 32 → BitVec 32
  | .neg, x => -x
  | .not, x => ~~~x
  | .lnot, x => boolBits (x == 0)

/-- A division by zero is an error, and a shift by more than the word has no result. -/
def BinaryOp.eval : BinaryOp → BitVec 32 → BitVec 32 → Option (BitVec 32)
  | .lor, x, y => some (boolBits (x != 0 || y != 0))
  | .land, x, y => some (boolBits (x != 0 && y != 0))
  | .add, x, y => some (x + y)
  | .sub, x, y => some (x - y)
  | .mul, x, y => some (x * y)
  | .div, x, y => if y = 0 then none else some (x / y)
  | .rem, x, y => if y = 0 then none else some (x % y)
  | .and, x, y => some (x &&& y)
  | .or, x, y => some (x ||| y)
  | .xor, x, y => some (x ^^^ y)
  | .shr, x, y => if y.toNat < 32 then some (x >>> y.toNat) else none
  | .shl, x, y => if y.toNat < 32 then some (x <<< y.toNat) else none
  | .ls, x, y => some (boolBits (decide (x.toNat < y.toNat)))
  | .gr, x, y => some (boolBits (decide (y.toNat < x.toNat)))
  | .le, x, y => some (boolBits (decide (x.toNat ≤ y.toNat)))
  | .ge, x, y => some (boolBits (decide (y.toNat ≤ x.toNat)))
  | .eq, x, y => some (boolBits (x == y))
  | .neq, x, y => some (boolBits (x != y))

def VarExpr.evalIn (names : String → Option (BitVec 32)) : VarExpr → Option (BitVec 32)
  | .const value => some value
  | .name s => names s
  | .unary op rhs => (rhs.evalIn names).map op.eval
  | .binary op lhs rhs =>
    (lhs.evalIn names).bind fun x => (rhs.evalIn names).bind fun y => op.eval x y
  | .other _ => none

/-- `var_name::eval`: an argument is evaluated with the arguments around it. -/
def Arguments.eval : Arguments → String → Option (BitVec 32)
  | .none, _ => Option.none
  | .frame args defaults prev, s =>
    match args.find? fun a => a.1 == s with
    | some a => a.2.evalIn prev.eval
    | Option.none => (defaults.find? fun d => d.1 == s).map Prod.snd

def VarExpr.eval (args : Arguments) (e : VarExpr) : Option (BitVec 32) := e.evalIn args.eval

def UnaryOp.run : UnaryOp → CInt → Option CInt
  | .neg, x => x.neg
  | .not, x => some x.not
  | .lnot, x => some (.ofBool !x.isTrue)

def BinaryOp.apply : BinaryOp → CInt → CInt → Option CInt
  | .lor, x, y => some (.ofBool (x.isTrue || y.isTrue))
  | .land, x, y => some (.ofBool (x.isTrue && y.isTrue))
  | .add, x, y => CInt.arith (· + ·) (· + ·) x y
  | .sub, x, y => CInt.arith (· - ·) (· - ·) x y
  | .mul, x, y => CInt.arith (· * ·) (· * ·) x y
  | .div, x, y => x.div y
  | .rem, x, y => x.rem y
  | .and, x, y => some (CInt.bitwise (· &&& ·) x y)
  | .or, x, y => some (CInt.bitwise (· ||| ·) x y)
  | .xor, x, y => some (CInt.bitwise (· ^^^ ·) x y)
  | .shr, x, y => x.shr y
  | .shl, x, y => x.shl y
  | .ls, x, y => some (CInt.compare (fun a b => decide (a < b)) x y)
  | .gr, x, y => some (CInt.compare (fun a b => decide (b < a)) x y)
  | .le, x, y => some (CInt.compare (fun a b => decide (a ≤ b)) x y)
  | .ge, x, y => some (CInt.compare (fun a b => decide (b ≤ a)) x y)
  | .eq, x, y => some (.ofBool (x.bits == y.bits))
  | .neq, x, y => some (.ofBool (x.bits != y.bits))

/-- The right operand of `||` and `&&` is not always evaluated. -/
def BinaryOp.run (op : BinaryOp) (lhs rhs : Option CInt) : Option CInt :=
  lhs.bind fun x =>
    if op = .lor ∧ x.isTrue = true then some (.ofBool true)
    else if op = .land ∧ x.isTrue = false then some (.ofBool false)
    else rhs.bind fun y => op.apply x y

def VarExpr.runIn (names : String → Option CInt) : VarExpr → Option CInt
  | .const value => some (.literal value)
  | .name s => names s
  | .unary op rhs => (rhs.runIn names).bind op.run
  | .binary op lhs rhs => op.run (lhs.runIn names) (rhs.runIn names)
  | .other value => some value

/-- The parameters of the generated functions are `uint32`. -/
def Arguments.run : Arguments → String → Option CInt
  | .none, _ => Option.none
  | .frame args defaults prev, s =>
    match args.find? fun a => a.1 == s with
    | some a => (a.2.runIn prev.run).map CInt.toUnsigned
    | Option.none =>
      (defaults.find? fun d => d.1 == s).map fun d => (CInt.literal d.2).toUnsigned

def VarExpr.run (args : Arguments) (e : VarExpr) : Option CInt := e.runIn args.run

def VarExpr.partsIn (names : String → List (Arguments × VarExpr)) (args : Arguments) :
    VarExpr → List (Arguments × VarExpr)
  | .const value => [(args, .const value)]
  | .name s => (args, .name s) :: names s
  | .unary op rhs => (args, .unary op rhs) :: rhs.partsIn names args
  | .binary op lhs rhs =>
    (args, .binary op lhs rhs) :: (lhs.partsIn names args ++ rhs.partsIn names args)
  | .other value => [(args, .other value)]

def Arguments.parts : Arguments → String → List (Arguments × VarExpr)
  | .none, _ => []
  | .frame args _ prev, s =>
    match args.find? fun a => a.1 == s with
    | some a => a.2.partsIn prev.parts prev
    | Option.none => []

def VarExpr.parts (args : Arguments) (e : VarExpr) : List (Arguments × VarExpr) :=
  e.partsIn args.parts args

def Agrees (p : Arguments × VarExpr) : Prop :=
  ∀ v, p.2.eval p.1 = some v → (p.2.run p.1).map CInt.bits = some v

/-- The operation on `int`s is the one on words, for these operands. -/
def UnaryOp.Agrees : UnaryOp → CInt → Prop
  | .neg, x => x.signed = true → CInt.InRange (-x.bits.toInt)
  | .not, _ => True
  | .lnot, _ => True

def BinaryOp.Agrees : BinaryOp → CInt → CInt → Prop
  | .add, x, y => CInt.IfSigned (fun a b => CInt.InRange (a + b)) x y
  | .sub, x, y => CInt.IfSigned (fun a b => CInt.InRange (a - b)) x y
  | .mul, x, y => CInt.IfSigned (fun a b => CInt.InRange (a * b)) x y
  | .div, x, y => CInt.IfSigned CInt.DivAgrees x y
  | .rem, x, y => CInt.IfSigned CInt.RemAgrees x y
  | .shr, x, y => x.signed = true → 0 ≤ x.bits.toInt ∨ y.bits.toNat = 0
  | .ls, x, y => CInt.IfSigned CInt.SameSign x y
  | .gr, x, y => CInt.IfSigned CInt.SameSign x y
  | .le, x, y => CInt.IfSigned CInt.SameSign x y
  | .ge, x, y => CInt.IfSigned CInt.SameSign x y
  | .lor, _, _ => True
  | .land, _, _ => True
  | .and, _, _ => True
  | .or, _, _ => True
  | .xor, _, _ => True
  | .shl, _, _ => True
  | .eq, _, _ => True
  | .neq, _, _ => True

/-- The operands of an operation that has a value at compile time are such. -/
def OperandsAgree : Arguments × VarExpr → Prop
  | (args, .unary op rhs) =>
    ∀ x, (VarExpr.unary op rhs).eval args ≠ none → rhs.run args = some x → op.Agrees x
  | (args, .binary op lhs rhs) =>
    ∀ x y, (VarExpr.binary op lhs rhs).eval args ≠ none → lhs.run args = some x →
      rhs.run args = some y → op.Agrees x y
  | (_, .const _) => True
  | (_, .name _) => True
  | (_, .other _) => True

theorem ofBool_bits (b : Bool) : (CInt.ofBool b).bits = boolBits b := rfl

theorem UnaryOp.agrees_iff (op : UnaryOp) (x : CInt) :
    (op.run x).map CInt.bits = some (op.eval x.bits) ↔ op.Agrees x := by
  cases op with
  | neg => exact CInt.neg_yields
  | not => exact iff_of_true rfl trivial
  | lnot =>
    refine iff_of_true ?_ trivial
    show some (boolBits !(x.bits != 0)) = some (boolBits (x.bits == 0))
    rw [bne, Bool.not_not]

section Binary

variable {x y : CInt}

theorem compare_agrees {f : Int → Int → Bool} {b : Bool}
    (hb : f x.bits.toNat y.bits.toNat = b)
    (hf : f x.bits.toInt y.bits.toInt = b ↔ CInt.SameSign x.bits.toInt y.bits.toInt) :
    (some (CInt.compare f x y)).map CInt.bits = some (boolBits b) ↔
      CInt.IfSigned CInt.SameSign x y := by
  rw [Option.map_some, Option.some.injEq, ← ofBool_bits, CInt.compare, CInt.ofBool_bits_inj]
  unfold CInt.IfSigned
  by_cases hs : CInt.bothSigned x y = true
  · rw [if_pos hs, hf]
    simp [hs]
  · rw [if_neg hs, hb]
    simp [hs]

theorem sameSign_comm {a b : Int} : CInt.SameSign a b ↔ CInt.SameSign b a := Iff.comm

theorem BinaryOp.agrees_iff (op : BinaryOp) {v : BitVec 32} (hv : op.eval x.bits y.bits = some v) :
    (op.apply x y).map CInt.bits = some v ↔ op.Agrees x y := by
  have hcast : ∀ n m : Nat, decide ((n : Int) < m) = decide (n < m) := by
    intro n m
    simp
  have hcast' : ∀ n m : Nat, decide ((n : Int) ≤ m) = decide (n ≤ m) := by
    intro n m
    simp
  cases op with
  | add =>
    cases hv
    refine CInt.arith_yields_range ?_
    intro a b
    rw [BitVec.ofInt_add, BitVec.ofInt_toInt, BitVec.ofInt_toInt]
  | sub =>
    cases hv
    refine CInt.arith_yields_range ?_
    intro a b
    rw [Int.sub_eq_add_neg, BitVec.ofInt_add, BitVec.ofInt_neg, BitVec.ofInt_toInt,
      BitVec.ofInt_toInt, BitVec.sub_eq_add_neg]
  | mul =>
    cases hv
    refine CInt.arith_yields_range ?_
    intro a b
    rw [BitVec.ofInt_mul, BitVec.ofInt_toInt, BitVec.ofInt_toInt]
  | div =>
    obtain ⟨hne, rfl⟩ : y.bits ≠ 0 ∧ x.bits / y.bits = v := by
      simpa [BinaryOp.eval] using hv
    exact CInt.div_yields hne
  | rem =>
    obtain ⟨hne, rfl⟩ : y.bits ≠ 0 ∧ x.bits % y.bits = v := by
      simpa [BinaryOp.eval] using hv
    exact CInt.rem_yields hne
  | shr =>
    obtain ⟨hlt, rfl⟩ : y.bits.toNat < 32 ∧ x.bits >>> y.bits.toNat = v := by
      simpa only [BinaryOp.eval, Option.ite_none_right_eq_some, Option.some.injEq] using hv
    exact CInt.shr_yields hlt
  | shl =>
    obtain ⟨hlt, rfl⟩ : y.bits.toNat < 32 ∧ x.bits <<< y.bits.toNat = v := by
      simpa only [BinaryOp.eval, Option.ite_none_right_eq_some, Option.some.injEq] using hv
    exact iff_of_true (CInt.shl_yields hlt) trivial
  | ls =>
    cases hv
    exact compare_agrees (hcast _ _) (CInt.lt_agrees _ _)
  | gr =>
    cases hv
    exact compare_agrees (hcast _ _) ((CInt.lt_agrees _ _).trans sameSign_comm)
  | le =>
    cases hv
    exact compare_agrees (hcast' _ _) (CInt.le_agrees _ _)
  | ge =>
    cases hv
    exact compare_agrees (hcast' _ _) ((CInt.le_agrees _ _).trans sameSign_comm)
  | _ =>
    cases hv
    exact iff_of_true rfl trivial

theorem BinaryOp.run_some (op : BinaryOp) : op.run (some x) (some y) = op.apply x y := by
  unfold BinaryOp.run
  rw [Option.bind_some, Option.bind_some]
  split
  · next h =>
    obtain ⟨rfl, ht⟩ := h
    simp [BinaryOp.apply, ht]
  · split
    · next h =>
      obtain ⟨rfl, hf⟩ := h
      simp [BinaryOp.apply, hf]
    · rfl

end Binary

theorem mem_parts_self (args : Arguments) (e : VarExpr) : (args, e) ∈ e.parts args := by
  cases e <;> exact List.mem_cons_self ..

theorem partsIn_trans {args : Arguments}
    (hnames : ∀ s, ∀ p ∈ args.parts s, p.2.parts p.1 ⊆ args.parts s) (e : VarExpr) :
    ∀ p ∈ e.parts args, p.2.parts p.1 ⊆ e.parts args := by
  induction e with
  | const value | other value =>
    intro p hp
    rw [List.mem_singleton.mp hp]
    exact List.Subset.refl _
  | name s =>
    intro p hp
    rcases List.mem_cons.mp hp with rfl | hp
    · exact List.Subset.refl _
    · exact fun q hq => List.mem_cons_of_mem _ (hnames s p hp hq)
  | unary op rhs ih =>
    intro p hp
    rcases List.mem_cons.mp hp with rfl | hp
    · exact List.Subset.refl _
    · exact fun q hq => List.mem_cons_of_mem _ (ih p hp hq)
  | binary op lhs rhs ihl ihr =>
    intro p hp
    rcases List.mem_cons.mp hp with rfl | hp
    · exact List.Subset.refl _
    rcases List.mem_append.mp hp with hp | hp
    · exact fun q hq => List.mem_cons_of_mem _ (List.mem_append_left _ (ihl p hp hq))
    · exact fun q hq => List.mem_cons_of_mem _ (List.mem_append_right _ (ihr p hp hq))

theorem Arguments.parts_trans (args : Arguments) (s : String) :
    ∀ p ∈ args.parts s, p.2.parts p.1 ⊆ args.parts s := by
  induction args generalizing s with
  | none =>
    intro p hp
    cases hp
  | frame args defaults prev ih =>
    unfold Arguments.parts
    split
    · exact partsIn_trans ih _
    · intro p hp
      cases hp

theorem parts_trans {args : Arguments} {e : VarExpr} {p : Arguments × VarExpr}
    (hp : p ∈ e.parts args) : p.2.parts p.1 ⊆ e.parts args :=
  partsIn_trans args.parts_trans e p hp

section Whole

variable {args : Arguments} {op : BinaryOp} {lhs rhs : VarExpr}

theorem unary_agrees_iff {op : UnaryOp} (hr : Agrees (args, rhs)) :
    Agrees (args, .unary op rhs) ↔ OperandsAgree (args, .unary op rhs) := by
  have heval : (VarExpr.unary op rhs).eval args = (rhs.eval args).map op.eval := rfl
  have hrun : (VarExpr.unary op rhs).run args = (rhs.run args).bind op.run := rfl
  unfold Agrees OperandsAgree
  simp only [heval, hrun]
  cases hv : rhs.eval args with
  | none => simp
  | some v =>
    obtain ⟨x, hx, hbits⟩ := Option.map_eq_some_iff.mp (hr v hv)
    have hx' : rhs.run args = some x := hx
    simp only [hx', Option.map_some, Option.some.injEq, Option.bind_some, forall_eq',
      ne_eq, reduceCtorEq, not_false_eq_true, forall_const]
    rw [← hbits]
    exact op.agrees_iff x

theorem binary_agrees_iff (hl : Agrees (args, lhs)) (hr : Agrees (args, rhs)) :
    Agrees (args, .binary op lhs rhs) ↔ OperandsAgree (args, .binary op lhs rhs) := by
  have heval : (VarExpr.binary op lhs rhs).eval args =
      (lhs.eval args).bind fun x => (rhs.eval args).bind fun y => op.eval x y := rfl
  have hrun : (VarExpr.binary op lhs rhs).run args = op.run (lhs.run args) (rhs.run args) := rfl
  unfold Agrees OperandsAgree
  simp only [heval, hrun]
  cases hlv : lhs.eval args with
  | none => simp
  | some vl =>
    cases hrv : rhs.eval args with
    | none => simp
    | some vr =>
      obtain ⟨x, hx, hxbits⟩ := Option.map_eq_some_iff.mp (hl vl hlv)
      obtain ⟨y, hy, hybits⟩ := Option.map_eq_some_iff.mp (hr vr hrv)
      have hx' : lhs.run args = some x := hx
      have hy' : rhs.run args = some y := hy
      rw [← hxbits, ← hybits]
      simp only [hx', hy', Option.bind_some, op.run_some, Option.some.injEq]
      cases hv : op.eval x.bits y.bits with
      | none => simp
      | some v =>
        have hiff := op.agrees_iff hv
        simpa using hiff

theorem expr_agrees
    (hnames : ∀ s, (∀ p ∈ args.parts s, OperandsAgree p) → Agrees (args, .name s)) (e : VarExpr)
    (h : ∀ p ∈ e.parts args, OperandsAgree p) : Agrees (args, e) := by
  have hself := h (args, e) (mem_parts_self args e)
  induction e with
  | const value =>
    intro v hv
    exact hv
  | name s => exact hnames s fun p hp => h p (List.mem_cons_of_mem _ hp)
  | unary op rhs ih =>
    have hr : ∀ p ∈ rhs.parts args, OperandsAgree p := fun p hp => h p (List.mem_cons_of_mem _ hp)
    exact (unary_agrees_iff (ih hr (hr _ (mem_parts_self args rhs)))).mpr hself
  | binary op lhs rhs ihl ihr =>
    have hl : ∀ p ∈ lhs.parts args, OperandsAgree p :=
      fun p hp => h p (List.mem_cons_of_mem _ (List.mem_append_left _ hp))
    have hr : ∀ p ∈ rhs.parts args, OperandsAgree p :=
      fun p hp => h p (List.mem_cons_of_mem _ (List.mem_append_right _ hp))
    exact (binary_agrees_iff (ihl hl (hl _ (mem_parts_self args lhs)))
      (ihr hr (hr _ (mem_parts_self args rhs)))).mpr hself
  | other value =>
    intro v hv
    cases hv

theorem name_agrees (args : Arguments) (s : String) (h : ∀ p ∈ args.parts s, OperandsAgree p) :
    Agrees (args, .name s) := by
  induction args generalizing s with
  | none =>
    intro v hv
    cases hv
  | frame args defaults prev ih =>
    intro v hv
    change Arguments.eval _ s = some v at hv
    show (Arguments.run _ s).map CInt.bits = some v
    unfold Arguments.parts at h
    unfold Arguments.eval at hv
    unfold Arguments.run
    split
    · next a ha =>
      simp only [ha] at h hv
      have harg : (a.2.run prev).map CInt.bits = some v := expr_agrees ih a.2 h v hv
      rw [Option.map_map]
      exact harg
    · next ha =>
      simp only [ha] at hv
      obtain ⟨d, hd, rfl⟩ := Option.map_eq_some_iff.mp hv
      rw [hd]
      rfl

theorem operandsAgree_of_parts {p : Arguments × VarExpr} (h : ∀ q ∈ p.2.parts p.1, Agrees q) :
    OperandsAgree p := by
  obtain ⟨args, e⟩ := p
  have hself := h (args, e) (mem_parts_self args e)
  cases e with
  | unary op rhs =>
    have hr := h (args, rhs) (List.mem_cons_of_mem _ (mem_parts_self args rhs))
    exact (unary_agrees_iff hr).mp hself
  | binary op lhs rhs =>
    have hl := h (args, lhs)
      (List.mem_cons_of_mem _ (List.mem_append_left _ (mem_parts_self args lhs)))
    have hr := h (args, rhs)
      (List.mem_cons_of_mem _ (List.mem_append_right _ (mem_parts_self args rhs)))
    exact (binary_agrees_iff hl hr).mp hself
  | _ => trivial

end Whole

/-- The value at compile time is the one at run time, for an expression and all that it is made of,
if and only if every operation in it is, for its operands, the one on unsigned words. -/
theorem eval_agrees_exact (args : Arguments) (e : VarExpr) :
    (∀ p ∈ e.parts args, Agrees p) ↔ ∀ p ∈ e.parts args, OperandsAgree p := by
  constructor
  · intro h p hp
    exact operandsAgree_of_parts fun q hq => h q (parts_trans hp hq)
  · intro h p hp
    exact expr_agrees (name_agrees p.1) p.2 fun q hq => h q (parts_trans hp hq)

theorem negative_quotient_differs : ¬ ∀ args e, Agrees (args, e) := by
  intro h
  have hvalue := h .none (.binary .div (.unary .neg (.const 2)) (.const 2)) 0x7fffffff (by decide)
  revert hvalue
  decide

end Ucesb
