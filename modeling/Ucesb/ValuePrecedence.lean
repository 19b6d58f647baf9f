import Ucesb.TdcpmValues

namespace Ucesb

def Value.level : Value → Nat
  | .rawUnit _ => 3
  | .sign _ _ => 3
  | .sum _ _ _ => 1
  | .prod _ _ _ => 2
  | .prodUnit _ _ _ => 2
  | .paren _ => 3

/-- Products before sums, each of them from the left, and signs before both. -/
def Value.Usual : Value → Prop
  | .rawUnit _ => True
  | .sign _ v => v.Usual ∧ 2 < v.level
  | .sum _ l r => l.Usual ∧ r.Usual ∧ 1 < r.level
  | .prod _ l r => l.Usual ∧ r.Usual ∧ 1 < l.level ∧ 2 < r.level
  | .prodUnit _ l _ => l.Usual ∧ 1 < l.level
  | .paren v => v.Usual

theorem Value.level_pos (v : Value) : 0 < v.level := by
  cases v <;> simp [Value.level]

def StackItem.tokens : StackItem → List ValueToken
  | .opening => [.opening]
  | .sign op => [op.token]
  | .sum op l => l.tokens ++ [op.token]
  | .prod op l => l.tokens ++ [op.token]

def stackTokens : List StackItem → List ValueToken
  | [] => []
  | item :: stack => stackTokens stack ++ item.tokens

def unitsTokens (raw : Option ValueRaw) (m : Option UnitPartMany) : List ValueToken :=
  (raw.map ValueRaw.token).toList ++ m.elim [] UnitPartMany.tokens

def TopItem.tokens : TopItem → List ValueToken
  | .empty => []
  | .raw r => [r.token]
  | .ident r before name => unitsTokens r before ++ [.identifier name]
  | .caret r before name => unitsTokens r before ++ [.identifier name, .caret]
  | .caretMinus r before name => unitsTokens r before ++ [.identifier name, .caret, .minus]
  | .units r m => unitsTokens r (some m)
  | .value v => v.tokens

def ParseState.tokens (s : ParseState) : List ValueToken := stackTokens s.stack ++ s.top.tokens

@[simp] theorem unitsTokens_addBlock (raw : Option ValueRaw) (b : UnitPartBlock)
    (before : Option UnitPartMany) :
    unitsTokens raw (some (addBlock b before)) = unitsTokens raw before ++ b.tokens := by
  cases before <;> simp [unitsTokens, addBlock, UnitPartMany.tokens]

def Fits : List StackItem → Nat → Prop
  | [], _ => True
  | .opening :: _, _ => True
  | .sign _ :: _, n => 2 < n
  | .sum _ _ :: _, n => 1 < n
  | .prod _ _ :: _, n => 2 < n

theorem Fits.mono {stack : List StackItem} {m n : Nat} (h : Fits stack m) (hle : m ≤ n) :
    Fits stack n := by
  cases stack with
  | nil => trivial
  | cons item stack => cases item <;> simp only [Fits] at * <;> omega

theorem fits_three (stack : List StackItem) : Fits stack 3 := by
  cases stack with
  | nil => trivial
  | cons item stack => cases item <;> simp [Fits]

def Stacked : List StackItem → Prop
  | [] => True
  | .opening :: stack => Stacked stack
  | .sign _ :: stack => Stacked stack
  | .sum _ l :: stack => Stacked stack ∧ Fits stack 1 ∧ l.Usual
  | .prod _ l :: stack => Stacked stack ∧ Fits stack 2 ∧ l.Usual ∧ 1 < l.level

def unitsPlaced : List StackItem → Option ValueRaw → Prop
  | _, some _ => True
  | .prod _ _ :: _, none => True
  | _, none => False

def ParseState.Placed (s : ParseState) : Prop :=
  Stacked s.stack ∧
    match s.top with
    | .ident raw _ _ => unitsPlaced s.stack raw
    | .caret raw _ _ => unitsPlaced s.stack raw
    | .caretMinus raw _ _ => unitsPlaced s.stack raw
    | .units raw _ => unitsPlaced s.stack raw
    | .value v => v.Usual ∧ v.level = 3
    | _ => True

/-- A stack and a value after it, together with what they have been read from. -/
structure ReadAs (stack : List StackItem) (v : Value) (tokens : List ValueToken) : Prop where
  stacked : Stacked stack
  usual : v.Usual
  fits : Fits stack v.level
  tokens_eq : stackTokens stack ++ v.tokens = tokens

theorem unitsValue_spec {stack : List StackItem} {raw : Option ValueRaw} {m : UnitPartMany}
    (h : Stacked stack) {r : List StackItem × Value} (hr : unitsValue stack raw m = some r) :
    ReadAs r.1 r.2 (stackTokens stack ++ unitsTokens raw (some m)) ∧ 1 < r.2.level := by
  unfold unitsValue at hr
  split at hr
  next stack r' m =>
    cases hr
    exact ⟨⟨h, trivial, fits_three _, by simp [unitsTokens, Value.tokens, ValueRawUnit.tokens]⟩,
      by simp [Value.level]⟩
  next op l stack m =>
    cases hr
    obtain ⟨hs, hf, hl, hlevel⟩ := h
    refine ⟨⟨hs, ⟨hl, hlevel⟩, hf, ?_⟩, by simp [Value.level]⟩
    simp [unitsTokens, Value.tokens, stackTokens, StackItem.tokens]
  next => cases hr

theorem topValue_spec {s : ParseState} (h : s.Placed) {r : List StackItem × Value}
    (hr : topValue s = some r) : ReadAs r.1 r.2 s.tokens ∧ 1 < r.2.level := by
  obtain ⟨hs, htop⟩ := h
  unfold topValue at hr
  split at hr
  next stack r' =>
    cases hr
    refine ⟨⟨hs, trivial, fits_three _, ?_⟩, by simp [Value.level]⟩
    simp [ParseState.tokens, TopItem.tokens, Value.tokens, ValueRawUnit.tokens]
  next stack raw before name =>
    have hspec := unitsValue_spec hs hr
    simpa [ParseState.tokens, TopItem.tokens, UnitPartBlock.tokens] using hspec
  next stack raw m => exact unitsValue_spec hs hr
  next stack v =>
    cases hr
    obtain ⟨husual, hlevel⟩ := htop
    refine ⟨⟨hs, husual, ?_, rfl⟩, ?_⟩
    · dsimp only
      rw [hlevel]
      exact fits_three _
    · dsimp only
      omega
  next => cases hr

theorem reduce_spec {p : Nat} (hp : p ≤ 2) {stack : List StackItem} {v : Value}
    {tokens : List ValueToken} (h : ReadAs stack v tokens) (hlevel : p ≤ v.level) :
    ReadAs (reduce p stack v).1 (reduce p stack v).2 tokens ∧ p ≤ (reduce p stack v).2.level ∧
      Fits (reduce p stack v).1 p := by
  induction stack generalizing v with
  | nil => exact ⟨h, hlevel, trivial⟩
  | cons item stack ih =>
    obtain ⟨hs, husual, hfits, htok⟩ := h
    cases item with
    | opening => exact ⟨⟨hs, husual, hfits, htok⟩, hlevel, trivial⟩
    | sign op =>
      refine ih ⟨hs, ⟨husual, hfits⟩, fits_three _, ?_⟩ (by simp only [Value.level]; omega)
      simpa [stackTokens, StackItem.tokens, Value.tokens] using htok
    | sum op l =>
      obtain ⟨hs, hf, hl⟩ := hs
      unfold reduce
      split
      next hle =>
        refine ih ⟨hs, ⟨hl, husual, hfits⟩, hf, ?_⟩ hle
        simpa [stackTokens, StackItem.tokens, Value.tokens] using htok
      next hgt =>
        refine ⟨⟨⟨hs, hf, hl⟩, husual, hfits, htok⟩, hlevel, ?_⟩
        change 1 < p
        omega
    | prod op l =>
      obtain ⟨hs, hf, hl, hlevel'⟩ := hs
      unfold reduce
      rw [if_pos hp]
      refine ih ⟨hs, ⟨hl, husual, hlevel', hfits⟩, hf, ?_⟩ hp
      simpa [stackTokens, StackItem.tokens, Value.tokens] using htok

theorem operatorStep_spec {s s' : ParseState} {p : Nat} {item : Value → StackItem}
    {token : ValueToken} (h : s.Placed) (hp : p ≤ 2) (hs : operatorStep s p item = some s')
    (hitem : ∀ v, (item v).tokens = v.tokens ++ [token])
    (hstacked : ∀ stack v, Stacked stack → Fits stack p → v.Usual → p ≤ v.level →
      Stacked (item v :: stack)) :
    s'.Placed ∧ s'.tokens = s.tokens ++ [token] := by
  obtain ⟨r, hr, heq⟩ := Option.bind_eq_some_iff.mp hs
  cases heq
  obtain ⟨hread, hlevel⟩ := topValue_spec h hr
  obtain ⟨hread, hlevel, hfits⟩ := reduce_spec hp hread (by omega)
  refine ⟨⟨hstacked _ _ hread.stacked hfits hread.usual hlevel, trivial⟩, ?_⟩
  simp only [ParseState.tokens, TopItem.tokens, stackTokens, hitem, List.append_nil]
  rw [← List.append_assoc, hread.tokens_eq]
  rfl

theorem sumStep_spec {s s' : ParseState} {op : SumOp} (h : s.Placed)
    (hs : operatorStep s 1 (.sum op) = some s') :
    s'.Placed ∧ s'.tokens = s.tokens ++ [op.token] :=
  operatorStep_spec h (by omega) hs (fun _ => rfl) fun _ _ hs hf hv _ => ⟨hs, hf, hv⟩

theorem prodStep_spec {s s' : ParseState} {op : ProdOp} (h : s.Placed)
    (hs : operatorStep s 2 (.prod op) = some s') :
    s'.Placed ∧ s'.tokens = s.tokens ++ [op.token] :=
  operatorStep_spec h (by omega) hs (fun _ => rfl) fun _ _ hs hf hv hl => ⟨hs, hf, hv, hl⟩

theorem closingStep_spec {s s' : ParseState} (h : s.Placed) (hs : closingStep s = some s') :
    s'.Placed ∧ s'.tokens = s.tokens ++ [.closing] := by
  obtain ⟨r, hr, heq⟩ := Option.bind_eq_some_iff.mp hs
  obtain ⟨hread, hlevel⟩ := topValue_spec h hr
  obtain ⟨hread, -, -⟩ := reduce_spec (p := 1) (by omega) hread (by omega)
  dsimp only at heq
  split at heq
  next stack v hred =>
    cases heq
    rw [hred] at hread
    refine ⟨⟨hread.stacked, hread.usual, rfl⟩, ?_⟩
    rw [← hread.tokens_eq]
    simp [ParseState.tokens, TopItem.tokens, stackTokens, StackItem.tokens, Value.tokens]
  next => cases heq

theorem unitsBefore_spec {s : ParseState} (h : s.Placed)
    {u : Option ValueRaw × Option UnitPartMany} (hu : unitsBefore s = some u) :
    unitsPlaced s.stack u.1 ∧ s.top.tokens = unitsTokens u.1 u.2 := by
  unfold unitsBefore at hu
  split at hu
  next => 
    cases hu
    exact ⟨trivial, by simp [TopItem.tokens, unitsTokens]⟩
  next =>
    cases hu
    exact ⟨h.2, by simp [TopItem.tokens, UnitPartBlock.tokens]⟩
  next =>
    cases hu
    exact ⟨h.2, rfl⟩
  next =>
    cases hu
    exact ⟨trivial, rfl⟩
  next => cases hu

theorem placed_top {stack : List StackItem} {top top' : TopItem} {token : ValueToken}
    (htok : top'.tokens = top.tokens ++ [token])
    (htop : (ParseState.mk stack top').Placed) :
    (ParseState.mk stack top').Placed ∧
      (ParseState.mk stack top').tokens = (ParseState.mk stack top).tokens ++ [token] := by
  refine ⟨htop, ?_⟩
  simp only [ParseState.tokens, htok, List.append_assoc]

theorem placed_push {stack : List StackItem} (item : StackItem) {token : ValueToken}
    (h : Stacked (item :: stack)) (htok : item.tokens = [token]) :
    (ParseState.mk (item :: stack) .empty).Placed ∧
      (ParseState.mk (item :: stack) .empty).tokens =
        (ParseState.mk stack .empty).tokens ++ [token] := by
  refine ⟨⟨h, trivial⟩, ?_⟩
  simp [ParseState.tokens, TopItem.tokens, stackTokens, htok]

theorem parseStep_spec {s s' : ParseState} {token : ValueToken} (h : s.Placed)
    (hs : parseStep s token = some s') : s'.Placed ∧ s'.tokens = s.tokens ++ [token] := by
  obtain ⟨stack, top⟩ := s
  cases token with
  | double x =>
    cases top with
    | empty =>
      cases hs
      exact placed_top rfl ⟨h.1, trivial⟩
    | _ => cases hs
  | integer n =>
    cases top with
    | empty =>
      cases hs
      exact placed_top rfl ⟨h.1, trivial⟩
    | ident raw before name | caret raw before name | caretMinus raw before name =>
      cases hs
      exact placed_top (by simp [TopItem.tokens, UnitPartBlock.tokens]) ⟨h.1, h.2⟩
    | _ => cases hs
  | identifier name =>
    obtain ⟨u, hu, heq⟩ := Option.map_eq_some_iff.mp hs
    subst heq
    obtain ⟨hplaced, htok⟩ := unitsBefore_spec h hu
    exact placed_top (by rw [htok]; rfl) ⟨h.1, hplaced⟩
  | valueUnit d =>
    cases top with
    | empty =>
      cases hs
      exact placed_top rfl ⟨h.1, trivial, rfl⟩
    | _ => cases hs
  | unit d =>
    obtain ⟨u, hu, heq⟩ := Option.map_eq_some_iff.mp hs
    subst heq
    obtain ⟨hplaced, htok⟩ := unitsBefore_spec h hu
    exact placed_top (by rw [htok]; simp [TopItem.tokens, UnitPartBlock.tokens]) ⟨h.1, hplaced⟩
  | plus =>
    cases top with
    | empty =>
      cases hs
      exact placed_push (.sign .plus) h.1 rfl
    | _ => exact sumStep_spec h hs
  | minus =>
    cases top with
    | empty =>
      cases hs
      exact placed_push (.sign .minus) h.1 rfl
    | caret raw before name =>
      cases hs
      exact placed_top (by simp [TopItem.tokens]) ⟨h.1, h.2⟩
    | _ => exact sumStep_spec h hs
  | times => exact prodStep_spec h hs
  | slash => exact prodStep_spec h hs
  | caret =>
    cases top with
    | ident raw before name =>
      cases hs
      exact placed_top (by simp [TopItem.tokens]) ⟨h.1, h.2⟩
    | _ => cases hs
  | opening =>
    cases top with
    | empty =>
      cases hs
      exact placed_push .opening h.1 rfl
    | _ => cases hs
  | closing => exact closingStep_spec h hs

theorem parseRun_spec {s s' : ParseState} {tokens : List ValueToken} (h : s.Placed)
    (hs : runSteps parseStep s tokens = some s') :
    s'.Placed ∧ s'.tokens = s.tokens ++ tokens := by
  induction tokens generalizing s with
  | nil =>
    cases hs
    exact ⟨h, (List.append_nil _).symm⟩
  | cons token tokens ih =>
    obtain ⟨s1, h1, hrun⟩ := Option.bind_eq_some_iff.mp hs
    obtain ⟨hplaced, htok⟩ := parseStep_spec h h1
    obtain ⟨hplaced', htok'⟩ := ih hplaced hrun
    refine ⟨hplaced', ?_⟩
    rw [htok', htok, List.append_assoc]
    rfl

theorem parseValue_usual {tokens : List ValueToken} {v : Value}
    (h : parseValue tokens = some v) : v.Usual ∧ v.tokens = tokens := by
  obtain ⟨s, hrun, h⟩ := Option.bind_eq_some_iff.mp h
  obtain ⟨r, hr, h⟩ := Option.bind_eq_some_iff.mp h
  obtain ⟨hplaced, htok⟩ := parseRun_spec (s := ⟨[], .empty⟩) ⟨trivial, trivial⟩ hrun
  obtain ⟨hread, hlevel⟩ := topValue_spec hplaced hr
  obtain ⟨hread, -, -⟩ := reduce_spec (p := 1) (by omega) hread (by omega)
  dsimp only at h
  split at h
  next v' hred =>
    cases h
    rw [hred] at hread
    exact ⟨hread.usual, hread.tokens_eq.trans htok⟩
  next => cases h

def UnitsRead (s : ParseState) (stack : List StackItem) (raw : Option ValueRaw)
    (m : UnitPartMany) : Prop :=
  unitsBefore s = some (raw, some m) ∧ topValue s = unitsValue stack raw m ∧ s.stack = stack

theorem read_block {s : ParseState} {raw : Option ValueRaw} {before : Option UnitPartMany}
    (h : unitsBefore s = some (raw, before)) (b : UnitPartBlock) :
    ∃ s', runSteps parseStep s b.tokens = some s' ∧
      UnitsRead s' s.stack raw (addBlock b before) := by
  cases b with
  | ident name =>
    refine ⟨⟨s.stack, .ident raw before name⟩, ?_, rfl, rfl, rfl⟩
    simp [UnitPartBlock.tokens, runSteps, parseStep, h]
  | identInteger name n | identPower name n | identNegPower name n =>
    refine ⟨⟨s.stack, .units raw (addBlock _ before)⟩, ?_, rfl, rfl, rfl⟩
    simp [UnitPartBlock.tokens, runSteps, parseStep, h]
  | unit d =>
    refine ⟨⟨s.stack, .units raw (addBlock _ before)⟩, ?_, rfl, rfl, rfl⟩
    simp [UnitPartBlock.tokens, runSteps, parseStep, h]

theorem read_many {s : ParseState} {raw : Option ValueRaw}
    (h : unitsBefore s = some (raw, none)) (m : UnitPartMany) :
    ∃ s', runSteps parseStep s m.tokens = some s' ∧ UnitsRead s' s.stack raw m := by
  induction m with
  | block b => exact read_block h b
  | many m b ih =>
    obtain ⟨s1, hrun1, hbefore, -, hstack⟩ := ih
    obtain ⟨s2, hrun2, hread⟩ := read_block hbefore b
    refine ⟨s2, ?_, hstack ▸ hread⟩
    simp [UnitPartMany.tokens, runSteps_append, hrun1, hrun2]

theorem read_sumOp {s : ParseState} {r : List StackItem × Value} (h : topValue s = some r)
    (op : SumOp) : parseStep s op.token =
      some ⟨.sum op (reduce 1 r.1 r.2).2 :: (reduce 1 r.1 r.2).1, .empty⟩ := by
  obtain ⟨stack, top⟩ := s
  cases top with
  | empty | caret | caretMinus => cases h
  | _ => cases op <;> simp [SumOp.token, parseStep, operatorStep, h]

theorem read_prodOp {s : ParseState} {r : List StackItem × Value} (h : topValue s = some r)
    (op : ProdOp) : parseStep s op.token =
      some ⟨.prod op (reduce 2 r.1 r.2).2 :: (reduce 2 r.1 r.2).1, .empty⟩ := by
  cases op <;> simp [ProdOp.token, parseStep, operatorStep, h]

def sinceOpening : List StackItem → List StackItem
  | [] => []
  | .opening :: stack => .opening :: stack
  | .sign _ :: stack => sinceOpening stack
  | .sum _ _ :: stack => sinceOpening stack
  | .prod _ _ :: stack => sinceOpening stack

theorem reduce_sinceOpening (p : Nat) (stack : List StackItem) (v : Value) :
    sinceOpening (reduce p stack v).1 = sinceOpening stack := by
  induction stack generalizing v with
  | nil => rfl
  | cons item stack ih =>
    cases item with
    | opening => rfl
    | sign op => exact ih _
    | sum op l | prod op l =>
      unfold reduce
      split
      · exact ih _
      · rfl

theorem reduce_one_stack (stack : List StackItem) (v : Value) :
    (reduce 1 stack v).1 = sinceOpening stack := by
  induction stack generalizing v with
  | nil => rfl
  | cons item stack ih =>
    cases item with
    | opening => rfl
    | _ => exact ih _

theorem reduce_of_fits {p : Nat} {stack : List StackItem} (h : Fits stack p) (hp : p ≤ 2)
    (v : Value) : reduce p stack v = (stack, v) := by
  cases stack with
  | nil => rfl
  | cons item stack =>
    cases item with
    | opening => rfl
    | sum op l => exact if_neg (not_le.mpr h)
    | sign op | prod op l => exact absurd hp (not_le.mpr h)

/-- A value with the usual precedence is read as it is, as far as it fits on the stack. -/
def ReadsAsIs (stack : List StackItem) (v : Value) (r : List StackItem × Value) : Prop :=
  v.Usual → Fits stack v.level → ∀ p ≤ v.level, reduce p r.1 r.2 = reduce p stack v

theorem read_value (v : Value) (stack : List StackItem) :
    ∃ s r, runSteps parseStep ⟨stack, .empty⟩ v.tokens = some s ∧ topValue s = some r ∧
      sinceOpening r.1 = sinceOpening stack ∧ ReadsAsIs stack v r := by
  induction v generalizing stack with
  | rawUnit raw =>
    cases raw with
    | raw r =>
      refine ⟨⟨stack, .raw r⟩, _, ?_, rfl, rfl, fun _ _ _ _ => rfl⟩
      cases r <;> rfl
    | rawUnit r m =>
      obtain ⟨s, hrun, -, htop, -⟩ := read_many (s := ⟨stack, .raw r⟩) rfl m
      refine ⟨s, _, ?_, htop, rfl, fun _ _ _ _ => rfl⟩
      cases r <;> exact hrun
    | valueUnit d => exact ⟨⟨stack, .value _⟩, _, rfl, rfl, rfl, fun _ _ _ _ => rfl⟩
  | sign op v ih =>
    obtain ⟨s, r, hrun, htop, hbase, hasis⟩ := ih (.sign op :: stack)
    refine ⟨s, r, ?_, htop, hbase, ?_⟩
    · cases op <;> exact hrun
    · intro hu _ p hp
      have hlevel : (Value.sign op v).level ≤ v.level := hu.2
      exact hasis hu.1 hu.2 p (hp.trans hlevel)
  | sum op l r ihl ihr =>
    obtain ⟨s1, r1, hrun1, htop1, hbase1, hasis1⟩ := ihl stack
    obtain ⟨s2, r2, hrun2, htop2, hbase2, hasis2⟩ :=
      ihr (.sum op (reduce 1 r1.1 r1.2).2 :: (reduce 1 r1.1 r1.2).1)
    refine ⟨s2, r2, ?_, htop2, ?_, ?_⟩
    · simp [Value.tokens, runSteps_append, hrun1, runSteps, read_sumOp htop1, hrun2]
    · rw [hbase2, ← hbase1]
      exact reduce_sinceOpening 1 _ _
    · intro hu hfits p hp
      obtain ⟨hl, hr, hlevel⟩ := hu
      have hfits1 : Fits stack 1 := hfits
      have heq := hasis1 hl (hfits1.mono l.level_pos) 1 l.level_pos
      rw [reduce_of_fits hfits1 (by omega)] at heq
      rw [heq] at hasis2
      have hp1 : p ≤ 1 := hp
      rw [hasis2 hr hlevel p (by omega)]
      exact if_pos hp1
  | prod op l r ihl ihr =>
    obtain ⟨s1, r1, hrun1, htop1, hbase1, hasis1⟩ := ihl stack
    obtain ⟨s2, r2, hrun2, htop2, hbase2, hasis2⟩ :=
      ihr (.prod op (reduce 2 r1.1 r1.2).2 :: (reduce 2 r1.1 r1.2).1)
    refine ⟨s2, r2, ?_, htop2, ?_, ?_⟩
    · simp [Value.tokens, runSteps_append, hrun1, runSteps, read_prodOp htop1, hrun2]
    · rw [hbase2, ← hbase1]
      exact reduce_sinceOpening 2 _ _
    · intro hu hfits p hp
      obtain ⟨hl, hr, hlevell, hlevel⟩ := hu
      have hfits2 : Fits stack 2 := hfits
      have heq := hasis1 hl (hfits2.mono hlevell) 2 hlevell
      rw [reduce_of_fits hfits2 (by omega)] at heq
      rw [heq] at hasis2
      have hp2 : p ≤ 2 := hp
      rw [hasis2 hr hlevel p (by omega)]
      exact if_pos hp2
  | prodUnit op l m ih =>
    obtain ⟨s1, r1, hrun1, htop1, hbase1, hasis1⟩ := ih stack
    obtain ⟨s2, hrun2, -, htop2, -⟩ := read_many
      (s := ⟨.prod op (reduce 2 r1.1 r1.2).2 :: (reduce 2 r1.1 r1.2).1, .empty⟩) rfl m
    refine ⟨s2, _, ?_, htop2, ?_, ?_⟩
    · simp [Value.tokens, runSteps_append, hrun1, runSteps, read_prodOp htop1, hrun2]
    · exact (reduce_sinceOpening 2 _ _).trans hbase1
    · intro hu hfits p _
      have hfits2 : Fits stack 2 := hfits
      have heq := hasis1 hu.1 (hfits2.mono hu.2) 2 hu.2
      rw [reduce_of_fits hfits2 (by omega)] at heq
      rw [heq]
  | paren v ih =>
    obtain ⟨s, r, hrun, htop, hbase, hasis⟩ := ih (.opening :: stack)
    obtain ⟨w, hred⟩ : ∃ w, reduce 1 r.1 r.2 = (.opening :: stack, w) :=
      ⟨_, Prod.ext ((reduce_one_stack _ _).trans hbase) rfl⟩
    refine ⟨⟨stack, .value (.paren w)⟩, _, ?_, rfl, rfl, ?_⟩
    · have hopen : parseStep ⟨stack, .empty⟩ .opening = some ⟨.opening :: stack, .empty⟩ := rfl
      have hclose : parseStep s .closing = some ⟨stack, .value (.paren w)⟩ := by
        simp [parseStep, closingStep, htop, hred]
      simp [Value.tokens, runSteps_append, runSteps, hopen, hrun, hclose]
    · intro hu hfits p _
      have heq := hasis hu trivial 1 v.level_pos
      rw [hred] at heq
      cases Prod.mk.inj heq |>.2
      rfl

theorem parseValue_tokens (v : Value) : ∃ w, parseValue v.tokens = some w := by
  obtain ⟨s, r, hrun, htop, hbase, -⟩ := read_value v []
  obtain ⟨w, hred⟩ : ∃ w, reduce 1 r.1 r.2 = ([], w) :=
    ⟨_, Prod.ext ((reduce_one_stack _ _).trans hbase) rfl⟩
  refine ⟨w, ?_⟩
  simp [parseValue, hrun, htop, hred]

theorem parseValue_of_usual {v : Value} (h : v.Usual) : parseValue v.tokens = some v := by
  obtain ⟨s, r, hrun, htop, -, hasis⟩ := read_value v []
  have hred : reduce 1 r.1 r.2 = ([], v) := hasis h trivial 1 v.level_pos
  simp [parseValue, hrun, htop, hred]

end Ucesb
