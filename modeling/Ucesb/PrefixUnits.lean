import Ucesb.RangeNames
import Ucesb.TdcpmUnits
import Ucesb.TermMap

namespace Ucesb

/-- `none` is an unknown prefix. -/
def getUnitPrefix : Char → Option Int32
  | 'y' => some (-24)
  | 'z' => some (-21)
  | 'a' => some (-18)
  | 'f' => some (-15)
  | 'p' => some (-12)
  | 'n' => some (-9)
  | 'u' => some (-6)
  | 'm' => some (-3)
  | 'c' => some (-2)
  | 'd' => some (-1)
  | '#' => some 0
  | 'k' => some 3
  | 'M' => some 6
  | 'G' => some 9
  | 'T' => some 12
  | 'P' => some 15
  | 'E' => some 18
  | 'Z' => some 21
  | 'Y' => some 24
  | _ => none

abbrev UnitExponentMap := List (List Char × Int32)

structure PrefixUnitsExponent where
  blocksSimple : UnitExponentMap
  blocksPrefix : UnitExponentMap
  totalPrefix : Int32

inductive UnitError
  | multipleOperators
  | endsWithOperator
  | unexpectedMarker
  | unknownPrefix (c : Char)
  | unexpectedCharacter (c : Char)
  | unexpectedEnd
deriving DecidableEq

structure UnitBlock where
  marker : Option Int32
  unit : List Char
  exponent : Int32

def skipOperators : Int32 → List Char → Except UnitError (Int32 × List Char)
  | thisMult, [] => .ok (thisMult, [])
  | thisMult, c :: p =>
    if c = '*' then
      if thisMult ≠ 0 then .error .multipleOperators else skipOperators 1 p
    else if c = '/' then
      if thisMult ≠ 0 then .error .multipleOperators else skipOperators (-1) p
    else if c = ' ' then skipOperators thisMult p
    else .ok (thisMult, c :: p)

def readMarker (marks : Bool) (p : List Char) : Except UnitError (Option Int32 × List Char) :=
  if headIs (· = '#') p then
    if !marks then .error .unexpectedMarker
    else
      match getUnitPrefix ((p.drop 1).headD '\x00') with
      | none => .error (.unknownPrefix ((p.drop 1).headD '\x00'))
      | some power => .ok (some power, p.drop 2)
  else .ok (none, p)

def readExponent (p : List Char) : Int32 × List Char :=
  let number := fun p => headIs (· = '-') p && headIs Char.isDigit (p.drop 1)
  let p := if headIs (· = '^') p && (number (p.drop 1) || headIs Char.isDigit (p.drop 1)) then p.drop 1
    else p
  let minus := number p
  let p := if minus then p.drop 1 else p
  let digits := p.takeWhile Char.isDigit
  (if digits = [] then 1 else (if minus then -1 else 1) * Int32.ofInt (strtolInt digits),
    p.dropWhile Char.isDigit)

def readBlock (marks : Bool) (mult : Int32) (p : List Char) :
    Except UnitError (UnitBlock × List Char) :=
  match readMarker marks p with
  | .error e => .error e
  | .ok (marker, p) =>
    if !headIs Char.isAlpha p then
      .error (p.head?.elim .unexpectedEnd .unexpectedCharacter)
    else
      let exponent := readExponent (p.dropWhile Char.isAlpha)
      .ok (⟨marker, p.takeWhile Char.isAlpha, exponent.1 * mult⟩, exponent.2)

/-- The loop of `convert_units_exponent`; every round takes a character. An operator counts until
there is another one. -/
def convertLoop {σ : Type} (marks : Bool) (insert : σ → UnitBlock → σ) :
    Nat → Int32 → σ → List Char → Except UnitError σ
  | 0, _, units, _ => .ok units
  | todo + 1, mult, units, p =>
    if p = [] then .ok units
    else
      match skipOperators 0 p with
      | .error e => .error e
      | .ok (thisMult, p) =>
        if p = [] then if thisMult ≠ 0 then .error .endsWithOperator else .ok units
        else
          match readBlock marks (if thisMult ≠ 0 then thisMult else mult) p with
          | .error e => .error e
          | .ok (block, p) =>
            convertLoop marks insert todo (if thisMult ≠ 0 then thisMult else mult)
              (insert units block) p

section Tables

variable (addr : List Char → Nat)

def insertUnitReduce (unitSet : UnitExponentMap) (unit : List Char) (exponent : Int32) :
    UnitExponentMap :=
  addTerm addr unit exponent unitSet

def insertUnitBlock (units : PrefixUnitsExponent) (block : UnitBlock) : PrefixUnitsExponent :=
  match block.marker with
  | some power => { units with
      blocksPrefix := insertUnitReduce addr units.blocksPrefix block.unit block.exponent
      totalPrefix := units.totalPrefix + power * block.exponent }
  | none => { units with
      blocksSimple := insertUnitReduce addr units.blocksSimple block.unit block.exponent }

def convertUnits (str : List Char) : Except UnitError UnitExponentMap :=
  convertLoop false (fun units block => insertUnitReduce addr units block.unit block.exponent)
    str.length 1 [] str

def convertPrefixUnits (str : List Char) : Except UnitError PrefixUnitsExponent :=
  convertLoop true (insertUnitBlock addr) str.length 1 ⟨[], [], 0⟩ str

def insertBlocksExpMult (dest src : UnitExponentMap) (mult : Int32) : UnitExponentMap :=
  addTerms addr dest (src.map fun item => (item.1, mult * item.2))

def insertMult (units : PrefixUnitsExponent) (mult : Int32) (other : PrefixUnitsExponent) :
    PrefixUnitsExponent where
  blocksSimple := insertBlocksExpMult addr units.blocksSimple other.blocksSimple mult
  blocksPrefix := insertBlocksExpMult addr units.blocksPrefix other.blocksPrefix mult
  totalPrefix := units.totalPrefix + mult * other.totalPrefix

/-- A null pointer is `none`. -/
def divideUnits : Option PrefixUnitsExponent → Option PrefixUnitsExponent →
    Option PrefixUnitsExponent
  | none, none => none
  | some nom, none => some (insertMult addr ⟨[], [], 0⟩ 1 nom)
  | none, some denom => some (insertMult addr ⟨[], [], 0⟩ (-1) denom)
  | some nom, some denom => some (insertMult addr (insertMult addr ⟨[], [], 0⟩ 1 nom) (-1) denom)

/-- The loop that takes units as they are: what is left of `tmp_src` and of `tmp_pre_dest`. -/
def matchWhole : UnitExponentMap → UnitExponentMap → UnitExponentMap × UnitExponentMap
  | [], preDest => ([], preDest)
  | item :: items, preDest =>
    if preDest.any fun d => d.1 = item.1 then
      matchWhole items (insertUnitReduce addr preDest item.1 (-item.2))
    else
      let left := matchWhole items preDest
      (item :: left.1, left.2)

def splitPrefix : List Char → Option (List Char × Int32)
  | [] => none
  | c :: s2 => ((getUnitPrefix c).filter (· ≠ 0)).map fun power => (s2, power)

def matchPrefixed : UnitExponentMap → UnitExponentMap → Int32 → Option (UnitExponentMap × Int32)
  | [], preDest, total => some (preDest, total)
  | item :: items, preDest, total =>
    match splitPrefix item.1 with
    | none => none
    | some (s2, power) =>
      if preDest.any fun d => d.1 = s2 then
        matchPrefixed items (insertUnitReduce addr preDest s2 (-item.2)) (total - power * item.2)
      else none

def matchUnits : Option PrefixUnitsExponent → Option UnitExponentMap → Option Int32
  | none, none => some 0
  | dest, src =>
    let dest := dest.getD ⟨[], [], 0⟩
    let tmpSrc := insertBlocksExpMult addr (src.getD []) dest.blocksSimple (-1)
    let left := matchWhole addr tmpSrc dest.blocksPrefix
    match matchPrefixed addr left.1 left.2 dest.totalPrefix with
    | none => none
    | some (preDest, total) => if preDest ≠ [] then none else some (-total)

end Tables

end Ucesb
