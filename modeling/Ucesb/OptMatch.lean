import Ucesb.MatchWalk

namespace Ucesb

/-- A candidate, by its number, with the bits that it has fixed in its first word. -/
structure MatchInfo where
  index : Nat
  mask : Nat
  value : Nat
deriving DecidableEq

def nonFixed : Nat → Nat → Nat
  | 0, x => x
  | n + 1, x => nonFixed n (x ||| x >>> 1)

def BitsCondition.getMatch (args : List (String × Variable)) : BitsCondition → Nat × Nat
  | .check x =>
    match x.eval args with
    | some value => (numBitsMask 32, value.toNat)
    | none => (0, 0)
  | .range low high =>
    match low.eval args, high.eval args with
    | some min, some max =>
      let fixed := numBitsMask 32 ^^^ nonFixed 32 (max.toNat ^^^ min.toNat)
      (fixed, max.toNat &&& fixed)
    | _, _ => (0, 0)
  | .checkCount _ _ _ _ => (0, 0)

def BitsSpec.place (b : BitsSpec) (x : Nat) : Nat :=
  x <<< b.min % 2 ^ 32 &&& numBitsMask (b.max + 1)

def BitsSpec.getMatch (args : List (String × Variable)) (b : BitsSpec) : Nat × Nat :=
  match b.cond with
  | none => (0, 0)
  | some c => (b.place (c.getMatch args).1, b.place (c.getMatch args).2)

/-- `get_match_bits` of a data word: its mask and its value. -/
def StructData.getMatchBits (args : List (String × Variable)) (d : StructData) :
    Option (Nat × Nat) :=
  if 32 < d.size.bits ∨ d.presence = .optional then none
  else
    match d.bits with
    | none => some (0, 0)
    | some bits =>
      some (bits.foldl (fun m b => m ||| (b.getMatch args).1) 0 ||| unnamedBits 32 d.size bits,
        bits.foldl (fun v b => v ||| (b.getMatch args).2) 0)

/-- The first item that is not a member, a mark or an encoding, if it is a data word. -/
def firstData : List StructItem → Option StructData
  | .member :: rest => firstData rest
  | .mark _ :: rest => firstData rest
  | .encode _ :: rest => firstData rest
  | .data d :: _ => some d
  | _ => none

/-- A candidate of a select statement. A variable of a function is not called as a parameter is. -/
structure Candidate where
  args : List (String × Variable)
  body : List StructItem
  fresh : ∀ d, firstData body = some d → d.noencode = true → ∀ a ∈ args, a.1 ≠ d.ident

def Candidate.getMatchBits (c : Candidate) : Option (WordSize × Nat × Nat) :=
  (firstData c.body).bind fun d => (d.getMatchBits c.args).map fun x => (d.size, x)

def matchInfos (size : WordSize) : Nat → List Candidate → Option (List MatchInfo)
  | _, [] => some []
  | i, c :: rest =>
    match c.getMatchBits with
    | none => none
    | some (s, mask, value) =>
      if s = size then (matchInfos size (i + 1) rest).map (⟨i, mask, value⟩ :: ·) else none

def selectInfos (items : List Candidate) : Option (WordSize × List MatchInfo) :=
  match items with
  | [] => none
  | c :: _ => c.getMatchBits.bind fun x => (matchInfos x.1 1 items).map fun infos => (x.1, infos)

def differ : List MatchInfo → Nat
  | [] => 0
  | info :: rest => rest.foldl (fun d other => d ||| (info.value ^^^ other.value)) (differ rest)

def bitsDiffer (infos : List MatchInfo) : List Nat :=
  (List.range 32).filter fun b => (differ infos).testBit b

def indexPart (peek minBit start n : Nat) : Nat :=
  (peek >>> (minBit - start)) &&& ((2 ^ n - 1) <<< start)

def indexFrom (peek : Nat) : Nat → Nat → Nat → List Nat → Nat
  | minBit, start, n, [] => indexPart peek minBit start n
  | minBit, start, n, b :: rest =>
    if b = minBit + n then indexFrom peek minBit start (n + 1) rest
    else indexPart peek minBit start n ||| indexFrom peek b (start + n) 1 rest

def matchIndex (peek : Nat) : List Nat → Nat
  | [] => 0
  | b :: rest => indexFrom peek b 0 1 rest

def MatchInfo.possible (bits : List Nat) (index : Nat) (info : MatchInfo) : Bool :=
  bits.zipIdx.all fun x => !(info.mask.testBit x.1 && info.value.testBit x.1 != index.testBit x.2)

def possibleFor (infos : List MatchInfo) (bits : List Nat) (index : Nat) : List Nat :=
  (infos.filter (MatchInfo.possible bits index)).map MatchInfo.index

def tableEntry (ambiguous : List (List Nat)) (set : List Nat) : Int × List (List Nat) :=
  match set with
  | [] => (0, ambiguous)
  | [n] => (n, ambiguous)
  | _ =>
    match ambiguous.idxOf? set with
    | some i => (-(i + 1 : Int), ambiguous)
    | none => (-(ambiguous.length + 1 : Int), ambiguous ++ [set])

def matchTable (sets : List (List Nat)) : List Int × List (List Nat) :=
  sets.foldl (fun t set => let e := tableEntry t.2 set; (t.1 ++ [e.1], e.2)) ([], [])

inductive MatchTree
  | single (index : Nat)
  | test (bit : Nat) (one zero : MatchTree)
  | full (entries : List (MatchInfo × Bool))

def notOneBit (infos : List MatchInfo) (b : Nat) (v : Bool) : Nat :=
  (infos.filter fun info => info.mask.testBit b && info.value.testBit b == v).length

def betterBit (infos : List MatchInfo) (s : Option Nat × Nat × Nat) (b : Nat) :
    Option Nat × Nat × Nat :=
  let minDiscard := min (notOneBit infos b true) (notOneBit infos b false)
  let totalDiscard := notOneBit infos b true + notOneBit infos b false
  if s.2.1 < minDiscard ∨ (minDiscard = s.2.1 ∧ s.2.2 < totalDiscard) then
    (some b, minDiscard, totalDiscard)
  else s

def selectBit (size : WordSize) (infos : List MatchInfo) : Option Nat :=
  ((List.range size.bits).reverse.foldl (betterBit infos) (none, 0, 0)).1

def selInfos (infos : List MatchInfo) (b : Nat) (v : Bool) : List MatchInfo :=
  infos.filter fun info => !(info.mask.testBit b && info.value.testBit b != v)

def MatchInfo.overlaps (a b : MatchInfo) : Bool :=
  a.mask &&& b.mask &&& (a.value ^^^ b.value) == 0

/-- All are tried, the ambiguous ones with their own `__match`. With none at all, the comparison of
all pairs does not come to an end. -/
def fullMatch (infos : List MatchInfo) : Option MatchTree :=
  if infos.isEmpty then none
  else some (.full (infos.map fun a =>
    (a, infos.any fun b => b.index != a.index && a.overlaps b)))

def genMatchDeclQuick (size : WordSize) : Nat → List MatchInfo → Option MatchTree
  | 0, _ => none
  | fuel + 1, infos =>
    match infos, selectBit size infos with
    | [info], _ => some (.single info.index)
    | _, none => fullMatch infos
    | _, some b =>
      if 3 < infos.length then
        let side := fun v =>
          if infos.length ≤ (selInfos infos b v).length then fullMatch (selInfos infos b v)
          else genMatchDeclQuick size fuel (selInfos infos b v)
        (side true).bind fun one => (side false).map fun zero => .test b one zero
      else fullMatch infos

inductive Matcher
  | table (bits : List Nat) (entries : List Int) (ambiguous : List (List Nat))
  | tree (tree : MatchTree)

/-- A shift by as many bits as the type has is undefined, an array has no negative size, and an entry
that does not fit the element type is refused by the compiler. -/
def genOptimizedMatch (size : WordSize) (infos : List MatchInfo) : Option Matcher :=
  let bits := bitsDiffer infos
  if bits.length = 32 then none
  else if 2 ^ bits.length ≤ infos.length * 2 ^ 5 then
    if bits.length = 31 then none
    else
      let t := matchTable ((List.range (2 ^ bits.length)).map (possibleFor infos bits))
      if infos.length ≤ 127 ∧ 128 < t.2.length then none else some (.table bits t.1 t.2)
  else (genMatchDeclQuick size infos.length infos).map .tree

/-- What a select statement comes to: a number (0 where nothing matches), an error for several matches
or in a matcher, or an access outside the table. -/
inductive SelectResult
  | number (n : Nat)
  | multiple
  | raised
  | outside
deriving DecidableEq

/-- `MATCH_DECL`, with what `__match` of the candidate returned. -/
def matchDecl (n : Nat) (test : Option Bool) : SelectResult → SelectResult
  | .number m =>
    match test with
    | none => .raised
    | some false => .number m
    | some true => if m ≠ 0 then .multiple else .number n
  | other => other

def selectTests (tests : List (Nat × Option Bool)) : SelectResult :=
  tests.foldl (fun r t => matchDecl t.1 t.2 r) (.number 0)

def Flow.test : Flow → Option Bool
  | .ret _ b => some b
  | _ => none

/-- `__match` of a candidate, on a copy of the buffer. -/
def Candidate.test (mem : Memory) (st : GenState) (c : Candidate) : Option Bool :=
  (Stmt.execList mem (genMatchFcn c.body) (st.call c.args)).test

def testNumber (mem : Memory) (st : GenState) (items : List Candidate) (n : Nat) : Option Bool :=
  (items[n - 1]?).bind (Candidate.test mem st)

def plainSelect (mem : Memory) (st : GenState) (items : List Candidate) : SelectResult :=
  selectTests ((List.range items.length).map fun i => (i + 1, testNumber mem st items (i + 1)))

def MatchTree.run (peek : Nat) (test : Nat → Option Bool) : MatchTree → SelectResult
  | .single n => .number n
  | .test b one zero => if peek.testBit b then one.run peek test else zero.run peek test
  | .full entries => selectTests (entries.map fun e =>
      (e.1.index,
        if peek &&& e.1.mask = e.1.value then if e.2 then test e.1.index else some true
        else some false))

def Matcher.run (peek : Nat) (test : Nat → Option Bool) : Matcher → SelectResult
  | .table bits entries ambiguous =>
    match entries[matchIndex peek bits]? with
    | none => .outside
    | some code =>
      if code < 0 then
        match ambiguous[(-code - 1).toNat]? with
        | none => .outside
        | some set => selectTests (set.map fun n => (n, test n))
      else .number code.toNat
  | .tree t => t.run peek test

end Ucesb
