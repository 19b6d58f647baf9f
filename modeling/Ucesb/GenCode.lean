import Ucesb.StructSpec

namespace Ucesb

/-- The statements of generated functions. The label `data_done` is after the body of `labelled`, and
a function that is called is given by its own statements. -/
inductive Stmt
  | read (d : StructData)
  | peek (d : StructData)
  | check (k : CheckPrefix) (d : StructData)
  | advance (d : StructData)
  | encode (stored : Lookup → Bool)
  | jumpIfEmpty
  | labelled (body : List Stmt)
  | forever (body : List Stmt)
  | ret (result : Bool)
  | ite (expr : Variable) (body bodyElse : List Stmt)
  | forLoop (index : String) (min max : Variable) (body : List Stmt)
  | unpackDecl (name : String) (args : List (String × Variable)) (fcn : List Stmt)
  | checkMatchDecl (args : List (String × Variable)) (fcn : List Stmt)
  | mark (name : String)
  | checkCount (var : Variable) (start stop : String) (offset multiplier : Variable)

/-- To the next statement, to the label, out of the function, or an error is raised. -/
inductive Flow
  | next (st : GenState)
  | jump (st : GenState)
  | ret (st : GenState) (result : Bool)
  | error
deriving DecidableEq

def Flow.andThen (flow : Flow) (f : GenState → Flow) : Flow :=
  match flow with
  | .next st => f st
  | other => other

def Flow.leave (st : GenState) : Flow → Flow
  | .next st' => .next (st.leave st')
  | .jump st' => .jump (st.leave st')
  | other => other

/-- `for ( ; ; )`, that is left by a jump or an error. -/
def runForever (f : GenState → Flow) : Nat → GenState → Flow
  | 0, _ => .error
  | fuel + 1, st => ((f st).leave st).andThen (runForever f fuel)

def runFor (index : String) (max : Variable) (f : GenState → Flow) : Nat → Nat → GenState → Flow
  | 0, _, st => .next st
  | fuel + 1, i, st =>
    if i < max.value st.env.lookup % 2 ^ 32 then
      let inner := { st with env := { st.env with locals := (index, i) :: st.env.locals } }
      ((f inner).leave st).andThen (runFor index max f fuel (i + 1))
    else .next st

def GenState.call (st : GenState) (args : List (String × Variable)) : GenState :=
  { src := st.src
    env := ⟨args.map fun a => (a.1, a.2.value st.env.lookup), []⟩
    marks := []
    word := 0 }

mutual

def Stmt.exec (mem : Memory) : Stmt → GenState → Flow
  | .read d, st =>
    match st.src.get mem d.size with
    | none => .error
    | some (w, src) => .next (st.read d w src)
  | .peek d, st =>
    match st.src.peek mem d.size with
    | none => .error
    | some w => .next (st.see d w)
  | .check k d, st =>
    if d.fits k st then .next st
    else
      match k with
      | .check => .error
      | .matching => .ret st false
      | .checkJump => .jump st
  | .advance d, st => .next (st.take d)
  | .encode stored, st => if stored st.env.lookup then .next st else .error
  | .jumpIfEmpty, st => if st.src.empty then .jump st else .next st
  | .labelled body, st =>
    match Stmt.execList mem body st with
    | .jump st' => .next st'
    | other => other
  | .forever body, st => runForever (Stmt.execList mem body) (st.src.stop - st.src.data + 1) st
  | .ret result, st => .ret st result
  | .ite expr body bodyElse, st =>
    if expr.value st.env.lookup ≠ 0 then (Stmt.execList mem body st).leave st
    else (Stmt.execList mem bodyElse st).leave st
  | .forLoop index min max body, st =>
    runFor index max (Stmt.execList mem body) (2 ^ 32) (min.value st.env.lookup % 2 ^ 32) st
  | .unpackDecl name args fcn, st =>
    match Stmt.execList mem fcn (st.call args) with
    | .next st' =>
      .next { st with
        src := st'.src
        env := { st.env with
          members := (st'.env.members.map fun x => (name ++ "." ++ x.1, x.2)) ++ st.env.members } }
    | _ => .error
  | .checkMatchDecl args fcn, st =>
    match Stmt.execList mem fcn (st.call args) with
    | .ret st' true => .next { st with src := st'.src }
    | _ => .error
  | .mark name, st => .next { st with marks := (name, st.src.data) :: st.marks }
  | .checkCount var start stop offset multiplier, st =>
    if var.value st.env.lookup * multiplier.value st.env.lookup % 2 ^ 64 =
        markDistance st start stop offset then .next st
    else .error

def Stmt.execList (mem : Memory) : List Stmt → GenState → Flow
  | [], st => .next st
  | s :: rest, st => (s.exec mem st).andThen (Stmt.execList mem rest)

end

/-- `UCT_UNPACK` and `UCT_MATCH` -/
inductive CodeType
  | unpack
  | matching
deriving DecidableEq

structure MatchEndInfo where
  hasExplicitEnd : Bool
  matchEnded : Bool
deriving DecidableEq

def MatchEndInfo.canEnd (mei : MatchEndInfo) : Bool × MatchEndInfo :=
  if mei.hasExplicitEnd then (mei.matchEnded, mei) else (true, { mei with matchEnded := true })

mutual

/-- `has_match_end`: there is a `MATCH_END` in the structure, not in those that it is made of. -/
def StructItem.hasMatchEnd : StructItem → Bool
  | .matchEnd => true
  | .list _ _ _ items => StructItem.anyMatchEnd items
  | .cond _ items none => StructItem.anyMatchEnd items
  | .cond _ items (some itemsElse) =>
    StructItem.anyMatchEnd items || StructItem.anyMatchEnd itemsElse
  | _ => false

def StructItem.anyMatchEnd : List StructItem → Bool
  | [] => false
  | item :: rest => item.hasMatchEnd || StructItem.anyMatchEnd rest

end

/-- The statements that read a data word in `__unpack`. Only a word with bit fields is encoded. -/
def genUnpackData (d : StructData) : List Stmt :=
  match d.bits, d.presence with
  | none, .required => [.read d]
  | none, .optional => [.labelled [.jumpIfEmpty, .read d]]
  | none, .several => [.labelled [.forever [.jumpIfEmpty, .read d]]]
  | some _, .required => [.read d, .check .check d, .encode d.encode]
  | some _, .optional =>
    [.labelled [.jumpIfEmpty, .peek d, .check .checkJump d, .advance d, .encode d.encode]]
  | some _, .several =>
    [.labelled
      [.forever [.jumpIfEmpty, .peek d, .check .checkJump d, .advance d, .encode d.encode]]]

def returnTrue (canEnd : Bool) : List Stmt := if canEnd then [.ret true] else []

/-- The statements that look at a data word in `__match`. A word that can be left out is checked as
one that has to be there. -/
def genMatchData (d : StructData) (canEnd : Bool) : List Stmt :=
  match d.bits, d.presence with
  | none, .required => [.read d] ++ returnTrue canEnd
  | none, _ => [.labelled [.jumpIfEmpty, .read d]] ++ returnTrue canEnd
  | some _, .required => [.read d, .check .matching d] ++ returnTrue canEnd
  | some _, _ =>
    [.labelled ([.jumpIfEmpty, .peek d, .check .matching d, .advance d] ++ returnTrue canEnd)]

mutual

def StructItem.genUnpack : StructItem → List Stmt
  | .data d => genUnpackData d
  | .decl name args body => [.unpackDecl name args (StructItem.genUnpackList body)]
  | .list index min max items => [.forLoop index min max (StructItem.genUnpackList items)]
  | .cond expr items none => [.ite expr (StructItem.genUnpackList items) []]
  | .cond expr items (some itemsElse) =>
    [.ite expr (StructItem.genUnpackList items) (StructItem.genUnpackList itemsElse)]
  | .member => []
  | .mark name => [.mark name]
  | .checkCount var start stop offset multiplier =>
    [.checkCount var start stop offset multiplier]
  | .encode stored => [.encode stored]
  | .matchEnd => []

def StructItem.genUnpackList : List StructItem → List Stmt
  | [] => []
  | item :: rest => item.genUnpack ++ StructItem.genUnpackList rest

end

def returnFalse (ended : Bool) : List Stmt := if ended then [.ret false] else []

mutual

def StructItem.genMatch : StructItem → MatchEndInfo → List Stmt × MatchEndInfo
  | .data d, mei => (genMatchData d mei.canEnd.1, mei.canEnd.2)
  | .decl _ args body, mei =>
    let fcn := StructItem.genMatchList body ⟨StructItem.anyMatchEnd body, false⟩
    ([.checkMatchDecl args (fcn.1 ++ returnFalse true)] ++ returnTrue mei.canEnd.1, mei.canEnd.2)
  | .list index min max items, mei =>
    let (body, mei) := StructItem.genMatchList items mei
    ([.forLoop index min max (body ++ returnFalse mei.matchEnded)], mei)
  | .cond expr items none, mei =>
    let (body, mei1) := StructItem.genMatchList items mei
    ([.ite expr (body ++ returnFalse mei1.matchEnded) []], mei)
  | .cond expr items (some itemsElse), mei =>
    let (body, mei1) := StructItem.genMatchList items mei
    let (bodyElse, mei2) := StructItem.genMatchList itemsElse mei
    ([.ite expr (body ++ returnFalse mei1.matchEnded) (bodyElse ++ returnFalse mei2.matchEnded)],
      { mei with matchEnded := mei.matchEnded || mei1.matchEnded && mei2.matchEnded })
  | .matchEnd, mei => ([.ret true], { mei with matchEnded := true })
  | _, mei => ([], mei)

def StructItem.genMatchList : List StructItem → MatchEndInfo → List Stmt × MatchEndInfo
  | [], mei => ([], mei)
  | item :: rest, mei =>
    let (code, mei) := item.genMatch mei
    if mei.matchEnded then (code, mei)
    else
      let (codeRest, mei) := StructItem.genMatchList rest mei
      (code ++ codeRest, mei)

end

/-- The function `__unpack` of a structure. -/
def genUnpackFcn (body : List StructItem) : List Stmt := StructItem.genUnpackList body

/-- The function `__match` of a structure. -/
def genMatchFcn (body : List StructItem) : List Stmt :=
  (StructItem.genMatchList body ⟨StructItem.anyMatchEnd body, false⟩).1 ++ returnFalse true

end Ucesb
