import Ucesb.Runs
import Ucesb.TdcpmRehash
import Ucesb.TermSums
import Mathlib.Data.List.TakeWhile

namespace Ucesb

def tdcpmHashRound (x contrib : UInt64) : UInt64 :=
  let x := x ^^^ contrib
  let x := x ^^^ (x >>> 12)
  let x := x ^^^ (x <<< 25)
  x ^^^ (x >>> 27)

def tdcpmHashRet32 (x : UInt64) : UInt32 :=
  let x := x * 0x2545F4914F6CDD1D
  ((x >>> 32) ^^^ x).toUInt32

/-- What both tables have: the items, `_num_strings` and `_alloc_offsets` (`_num_tspecs` and
`_alloc_tspecs`), and the hash table. -/
structure TdcpmTable (σ : Type) where
  store : σ
  num : Nat
  alloc : Nat
  hashTable : TdcpmHashTable
deriving DecidableEq

section Table

variable {σ α : Type} (hashCalc : α → UInt32) (compare : σ → Nat → α → Bool) (put : σ → α → σ)

def TdcpmTable.grow (table : TdcpmTable σ) : Option (TdcpmTable σ) :=
  if table.alloc ≤ table.num then do
    let alloc := (if table.alloc = 0 then 16 else table.alloc) * 2
    let hashTable ← table.hashTable.realloc (alloc * 2)
    return { table with alloc := alloc, hashTable := hashTable }
  else some table

/-- The index of the item; `none` if a loop of the hash table does not end. -/
def TdcpmTable.insert (table : TdcpmTable σ) (x : α) : Option (TdcpmTable σ × Nat) := do
  let hash := hashCalc x
  match ← table.hashTable.find (fun index => compare table.store index x) hash with
  | some index => return (table, index)
  | none =>
    let table ← table.grow
    let hashTable ← table.hashTable.insert hash table.num
    return ({ table with
      store := put table.store x
      num := table.num + 1
      hashTable := hashTable }, table.num)

/-- A run of insertions: the table and the indices that have been returned. -/
structure TableRun (σ : Type) where
  table : TdcpmTable σ
  indices : List Nat

def insertNext (s : TableRun σ) (x : α) : Option (TableRun σ) :=
  (s.table.insert hashCalc compare put x).map fun r => ⟨r.1, s.indices ++ [r.2]⟩

/-- If the item is new and the hash table has to be enlarged for it, this is smaller than `2 ^ 32`
slots and can be enlarged in place. -/
def enlargesWell (s : TableRun σ) (x : α) : Prop :=
  s.table.alloc ≤ s.table.num →
    s.table.hashTable.find (fun index => compare s.table.store index x) (hashCalc x) = some none →
    s.table.hashTable.htable.length < 2 ^ 32 ∧ EnlargeOk s.table.hashTable.htable

end Table

structure CStr where
  chars : List UInt8
  no_nul : (0 : UInt8) ∉ chars
deriving DecidableEq

/-- The bytes of `_strings` that are in use, and `_offsets`. -/
structure StringStore where
  strings : List UInt8
  offsets : List Nat
deriving DecidableEq

def punChars : List UInt8 → UInt64
  | [] => 0
  | c :: cs => c.toUInt64 ||| (punChars cs <<< 8)

def stringHashLoop : Nat → List UInt8 → UInt64 → UInt64
  | 0, _, x => x
  | fuel + 1, str, x =>
    if str.isEmpty then x
    else stringHashLoop fuel (str.drop 8) (tdcpmHashRound x (punChars (str.take 8)))

def tdcpmStringTableHashCalc (str : CStr) : UInt32 :=
  tdcpmHashRet32 (stringHashLoop str.chars.length str.chars 0)

def strncmpEq : Nat → List UInt8 → List UInt8 → Bool
  | 0, _, _ => true
  | n + 1, a, b =>
    if a.headD 0 ≠ b.headD 0 then false
    else if a.headD 0 = 0 then true
    else strncmpEq n a.tail b.tail

def tdcpmCompareStrLen (store : StringStore) (index : Nat) (str : CStr) : Bool :=
  let ref := store.strings.drop (store.offsets.getD index 0)
  if !strncmpEq str.chars.length ref str.chars then false
  else if ref.getD str.chars.length 0 ≠ 0 then false
  else true

def StringStore.put (store : StringStore) (str : CStr) : StringStore :=
  ⟨store.strings ++ str.chars ++ [0], store.offsets ++ [store.strings.length]⟩

def tdcpmStringTableInit : TdcpmTable StringStore := ⟨⟨[], []⟩, 0, 0, .init⟩

def tdcpmStringTableInsert : TdcpmTable StringStore → CStr → Option (TdcpmTable StringStore × Nat) :=
  TdcpmTable.insert tdcpmStringTableHashCalc tdcpmCompareStrLen StringStore.put

def tdcpmStringTableGet (table : TdcpmTable StringStore) (index : Nat) : List UInt8 :=
  (table.store.strings.drop (table.store.offsets.getD index 0)).takeWhile (· ≠ 0)

structure TdcpmTspecItem where
  type : Int32
  value : UInt64
deriving DecidableEq

def tdcpmTspecTableHashCalc (item : TdcpmTspecItem) : UInt32 :=
  tdcpmHashRet32 (tdcpmHashRound (tdcpmHashRound 0 item.type.toInt64.toUInt64) item.value)

def tdcpmCompareTspec (tspecs : List TdcpmTspecItem) (index : Nat) (src : TdcpmTspecItem) : Bool :=
  match tspecs[index]? with
  | none => false
  | some ref =>
    if src.type ≠ ref.type then false
    else if src.value ≠ ref.value then false
    else true

def tdcpmTspecTableEmpty : TdcpmTable (List TdcpmTspecItem) := ⟨[], 0, 0, .init⟩

def tdcpmTspecTableInsert : TdcpmTable (List TdcpmTspecItem) → TdcpmTspecItem →
    Option (TdcpmTable (List TdcpmTspecItem) × Nat) :=
  TdcpmTable.insert tdcpmTspecTableHashCalc tdcpmCompareTspec fun tspecs item => tspecs ++ [item]

def tdcpmTspecTableGet (table : TdcpmTable (List TdcpmTspecItem)) (index : Nat) :
    Option TdcpmTspecItem := table.store[index]?

instance instAddCommMonoidInt32 : AddCommMonoid Int32 where
  add_assoc := Int32.add_assoc
  zero_add := Int32.zero_add
  add_zero := Int32.add_zero
  add_comm := Int32.add_comm
  nsmul := nsmulRec

/-- `tdcpm_unit_item_part`: `_str_idx` and `_exponent` -/
abbrev TdcpmUnitItemPart := Nat × Int32

/-- `_canonical` and `_mag_canonical` as long as they have been set, and `_unit`. -/
structure TdcpmUnitItem where
  canonical : Option (Nat × Int32)
  unit : List TdcpmUnitItemPart
deriving DecidableEq

def tdcpmUnitTableHashCalc (unit : List TdcpmUnitItemPart) : UInt32 :=
  tdcpmHashRet32 (unit.foldl (fun x part =>
    tdcpmHashRound x ((UInt64.ofNat part.1 <<< 32) ||| part.2.toInt64.toUInt64)) 0)

def tdcpmCompareUnitBuild (units : List TdcpmUnitItem) (index : Nat)
    (unit : List TdcpmUnitItemPart) : Bool :=
  match units[index]? with
  | none => false
  | some ref => unit == ref.unit

/-- `none` for `TDCPM_UNKNOWN_PREFIX` -/
def tdcpmGetUnitPrefix (c : UInt8) : Option Int32 :=
  match Char.ofNat c.toNat with
  | 'y' => some (-24)
  | 'z' => some (-21)
  | 'a' => some (-18)
  | 'f' => some (-15)
  | 'p' => some (-12)
  | 'n' => some (-9)
  | 'u' => some (-6)
  | 'm' => some (-3)
  | 'c' => some (-2)
  | 'd' => some (-1)
  | 'k' => some 3
  | 'M' => some 6
  | 'G' => some 9
  | 'T' => some 12
  | 'P' => some 15
  | 'E' => some 18
  | 'Z' => some 21
  | 'Y' => some 24
  | _ => none

/-- The magnitude of the prefix and the name without it, if the name starts with a prefix and has
more than one character. -/
def unitPrefix : List UInt8 → Option (Int32 × List UInt8)
  | c :: d :: rest => (tdcpmGetUnitPrefix c).map fun mag => (mag, d :: rest)
  | _ => none

def CStr.ofChars (chars : List UInt8) : CStr :=
  ⟨chars.takeWhile (· ≠ 0), fun h => by simpa using List.mem_takeWhile_imp h⟩

theorem CStr.ext {a b : CStr} (h : a.chars = b.chars) : a = b := by
  cases a
  cases b
  simpa using h

def tdcpmUnitStripPrefix (strings : TdcpmTable StringStore) (strIdx : Nat) :
    Option (TdcpmTable StringStore × Nat × Int32) :=
  match unitPrefix (tdcpmStringTableGet strings strIdx) with
  | some (mag, rest) => do
    let (strings, newIdx) ← tdcpmStringTableInsert strings (CStr.ofChars rest)
    return (strings, newIdx, mag)
  | none => some (strings, strIdx, 0)

/-- The parts with their prefixes stripped, and `total_mag`. -/
def stripParts : TdcpmTable StringStore → List TdcpmUnitItemPart →
    Option (TdcpmTable StringStore × List TdcpmUnitItemPart × Int32)
  | strings, [] => some (strings, [], 0)
  | strings, part :: parts => do
    let (strings, strIdx, mag) ← tdcpmUnitStripPrefix strings part.1
    let (strings, stripped, total) ← stripParts strings parts
    return (strings, (strIdx, part.2) :: stripped, mag * part.2 + total)

abbrev UnitTable := TdcpmTable (List TdcpmUnitItem)

structure TdcpmUnits where
  strings : TdcpmTable StringStore
  units : UnitTable
deriving DecidableEq

/-- A new entry: its own canonical unit, or one that is still to be made canonical. -/
def putUnit (makeCanonical : Bool) (units : List TdcpmUnitItem) (src : List TdcpmUnitItemPart) :
    List TdcpmUnitItem :=
  units ++ [⟨if makeCanonical then none else some (units.length, 0), src⟩]

def insertUnit (makeCanonical : Bool) : UnitTable → List TdcpmUnitItemPart →
    Option (UnitTable × Nat) :=
  TdcpmTable.insert tdcpmUnitTableHashCalc tdcpmCompareUnitBuild (putUnit makeCanonical)

/-- The entry is written through a pointer to it from before the canonical unit was entered: it is
not reached if the entries have been moved to a larger block meanwhile. -/
def tdcpmUnitMakeCanonical (s : TdcpmUnits) (index : Nat) (src : List TdcpmUnitItemPart) :
    Option TdcpmUnits := do
  let (strings, stripped, totalMag) ← stripParts s.strings src
  let (units, canonical) ← insertUnit false s.units (canonicalTerms stripped)
  let store := if units.alloc = s.units.alloc then
      units.store.modify index fun item => { item with canonical := some (canonical, totalMag) }
    else units.store
  return ⟨strings, { units with store := store }⟩

def tdcpmUnitMakeFull (s : TdcpmUnits) (src : List TdcpmUnitItemPart) :
    Option (TdcpmUnits × Nat) := do
  let (units, index) ← insertUnit true s.units src
  if units.num = s.units.num then return (s, index)
  else
    let s ← tdcpmUnitMakeCanonical { s with units := units } index src
    return (s, index)

/-- The power of ten, if the units have the same canonical unit; `none` where an entry has not been
set. -/
def tdcpmUnitFactor (units : UnitTable) (a b : Nat) : Option (Option Int32) := do
  let itemA ← units.store[a]?
  let itemB ← units.store[b]?
  let canonA ← itemA.canonical
  let canonB ← itemB.canonical
  return if canonA.1 ≠ canonB.1 then none else some (canonB.2 - canonA.2)

def tdcpmUnitTableInit : Option UnitTable :=
  (insertUnit false ⟨[], 0, 0, .init⟩ []).map Prod.fst

/-- What the parser does with names and units. -/
inductive UnitAction
  | ident (name : CStr)
  | unit (parts : List TdcpmUnitItemPart)
deriving DecidableEq

/-- `registered` are the units given to `tdcpm_unit_make_full`, with the index returned. -/
structure UnitRun where
  tables : TdcpmUnits
  registered : List (List TdcpmUnitItemPart × Nat)
deriving DecidableEq

/-- The parts of a unit are built from names that are in the string table. -/
def unitStep (s : UnitRun) : UnitAction → Option UnitRun
  | .ident name => do
    let (strings, _) ← tdcpmStringTableInsert s.tables.strings name
    return { s with tables := { s.tables with strings := strings } }
  | .unit parts =>
    if parts.all fun part => part.1 < s.tables.strings.num then do
      let (tables, index) ← tdcpmUnitMakeFull s.tables parts
      return ⟨tables, s.registered ++ [(parts, index)]⟩
    else none

def unitStart : Option UnitRun := do
  let units ← tdcpmUnitTableInit
  return ⟨⟨tdcpmStringTableInit, units⟩, []⟩

end Ucesb
