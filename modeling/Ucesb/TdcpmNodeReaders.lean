import Ucesb.TdcpmUnits
import Ucesb.WordReader
import Mathlib.Data.List.Basic

namespace Ucesb

/-- `_parts`: indices, or names with the top bit set. -/
abbrev TdcpmVarName := List UInt32

structure VectItem where
  value : UInt64
  unitIdx : UInt32
  tspecIdx : UInt32
deriving DecidableEq

structure HeaderItem where
  name : TdcpmVarName
  tspecIdx : UInt32
deriving DecidableEq

structure TableUnit where
  value : UInt64
  unitIdx : UInt32
deriving DecidableEq

structure TableLine where
  varName : Option TdcpmVarName
  items : List VectItem
deriving DecidableEq

/-- A table in which header and units, unless missing, and all lines have the same length. -/
structure TdcpmNodeTable where
  header : List HeaderItem
  units : List TableUnit
  lines : List TableLine
  columns : Nat
  header_length : header = [] ∨ header.length = columns
  units_length : units = [] ∨ units.length = columns
  line_length : ∀ line ∈ lines, line.items.length = columns

/-- `n_items` after the header and the units; `none` if these have different lengths. -/
def headerColumns (header : List HeaderItem) (units : List TableUnit) : Option Nat :=
  if units = [] then some header.length
  else if header.length ≠ 0 ∧ units.length ≠ header.length then none
  else some units.length

/-- The check of the lines; `none` if one has another length. -/
def lineColumns (nItems : Nat) (first : Bool) : List TableLine → Option Nat
  | [] => some nItems
  | line :: lines =>
    if (nItems ≠ 0 ∨ first = false) ∧ line.items.length ≠ nItems then none
    else lineColumns line.items.length false lines

theorem headerColumns_spec {header : List HeaderItem} {units : List TableUnit} {n : Nat}
    (h : headerColumns header units = some n) :
    (header = [] ∨ header.length = n) ∧ (units = [] ∨ units.length = n) := by
  unfold headerColumns at h
  split at h
  next hu =>
    cases h
    exact ⟨.inr rfl, .inl hu⟩
  next =>
    split at h
    · cases h
    next hlen =>
      cases h
      refine ⟨?_, .inr rfl⟩
      rcases Nat.eq_zero_or_pos header.length with hz | hpos
      · exact .inl (List.length_eq_zero_iff.mp hz)
      · right
        omega

theorem lineColumns_spec {nItems n : Nat} {first : Bool} {lines : List TableLine}
    (h : lineColumns nItems first lines = some n) :
    (nItems ≠ 0 ∨ first = false → nItems = n) ∧ ∀ line ∈ lines, line.items.length = n := by
  induction lines generalizing nItems first with
  | nil =>
    cases h
    exact ⟨fun _ => rfl, by simp⟩
  | cons line lines ih =>
    unfold lineColumns at h
    split at h
    · cases h
    next hne =>
      obtain ⟨hsame, hrest⟩ := ih h
      have hline : line.items.length = n := hsame (.inr rfl)
      refine ⟨?_, ?_⟩
      · intro hfixed
        by_contra hc
        exact hne ⟨hfixed, by omega⟩
      · intro l hl
        rcases List.mem_cons.mp hl with rfl | hl
        · exact hline
        · exact hrest l hl

theorem columns_consistent {header : List HeaderItem} {units : List TableUnit}
    {lines : List TableLine} {n : Nat}
    (h : ((headerColumns header units).bind fun m => lineColumns m true lines) = some n) :
    (header = [] ∨ header.length = n) ∧ (units = [] ∨ units.length = n) ∧
      ∀ line ∈ lines, line.items.length = n := by
  obtain ⟨m, hm, hn⟩ := Option.bind_eq_some_iff.mp h
  obtain ⟨hheader, hunits⟩ := headerColumns_spec hm
  obtain ⟨hsame, hlines⟩ := lineColumns_spec hn
  refine ⟨?_, ?_, hlines⟩
  · rcases hheader with he | he
    · exact .inl he
    · rcases Nat.eq_zero_or_pos m with hz | hpos
      · exact .inl (List.length_eq_zero_iff.mp (he.trans hz))
      · exact .inr (he.trans (hsame (.inl (by omega))))
  · rcases hunits with he | he
    · exact .inl he
    · rcases Nat.eq_zero_or_pos m with hz | hpos
      · exact .inl (List.length_eq_zero_iff.mp (he.trans hz))
      · exact .inr (he.trans (hsame (.inl (by omega))))

/-- `none` where the program ends with an error. -/
def tdcpmTableNew (header : List HeaderItem) (units : List TableUnit) (lines : List TableLine) :
    Option TdcpmNodeTable :=
  match h : (headerColumns header units).bind fun m => lineColumns m true lines with
  | none => none
  | some n =>
    have hc := columns_consistent h
    some ⟨header, units, lines, n, hc.1, hc.2.1, hc.2.2⟩

inductive TdcpmNode
  | vect (name : TdcpmVarName) (items : List VectItem)
  | table (name : TdcpmVarName) (table : TdcpmNodeTable)
  | subNode (name : TdcpmVarName) (nodes : List TdcpmNode)
  | valid (start stop : UInt32) (nodes : List TdcpmNode)

def tdcpmNodeTypeVect : UInt32 := 1
def tdcpmNodeTypeTable : UInt32 := 2
def tdcpmNodeTypeSubNode : UInt32 := 3
def tdcpmNodeTypeValid : UInt32 := 4

def serializeUInt64 (x : UInt64) : List UInt32 := [(x >>> 32).toUInt32, x.toUInt32]

/-- The words up to `_offset`, `_reserved`, and what each reservation asked for and used. -/
structure SerializeInfo where
  buf : List UInt32
  reserved : Nat
  uses : List (Nat × Nat)

def SerializeInfo.init : SerializeInfo := ⟨[], 0, []⟩

/-- `none` if the assertion fails. -/
def SerializeInfo.allocWords (words : Nat) (ser : SerializeInfo) : Option SerializeInfo :=
  if ser.reserved = 0 then some { ser with reserved := ser.buf.length + words } else none

/-- The words written since the reservation; `none` if there are more of them. -/
def SerializeInfo.commitWords (written : List UInt32) (ser : SerializeInfo) :
    Option SerializeInfo :=
  if ser.buf.length + written.length ≤ ser.reserved then
    some ⟨ser.buf ++ written, 0, ser.uses ++ [(ser.reserved - ser.buf.length, written.length)]⟩
  else none

def SerializeInfo.put (words : Nat) (written : List UInt32) (ser : SerializeInfo) :
    Option SerializeInfo :=
  (ser.allocWords words).bind (SerializeInfo.commitWords written)

def tdcpmSerializeVarNameSize (v : TdcpmVarName) : Nat := (1 + v.length) % 2 ^ 32

def tdcpmSerializeVarName (v : TdcpmVarName) : List UInt32 := UInt32.ofNat v.length :: v

def tdcpmSerializeVectSize (num : Nat) : Nat := 4 * num % 2 ^ 32

def serializeItem (item : VectItem) : List UInt32 :=
  serializeUInt64 item.value ++ [item.unitIdx, item.tspecIdx]

def tdcpmSerializeVectLoop (items : List VectItem) : List UInt32 := items.flatMap serializeItem

def tdcpmSerializeVect (items : List VectItem) : SerializeInfo → Option SerializeInfo :=
  let num := items.length % 2 ^ 32
  SerializeInfo.put (1 + tdcpmSerializeVectSize num)
    (UInt32.ofNat num :: tdcpmSerializeVectLoop items)

def serializeHeaderItem (item : HeaderItem) : List UInt32 :=
  tdcpmSerializeVarName item.name ++ [item.tspecIdx]

def serializeTableUnit (unit : TableUnit) : List UInt32 :=
  serializeUInt64 unit.value ++ [unit.unitIdx]

def serializeTableLine (line : TableLine) : List UInt32 :=
  (match line.varName with
  | none => [0]
  | some name => 1 :: tdcpmSerializeVarName name) ++ tdcpmSerializeVectLoop line.items

def tableWords (table : TdcpmNodeTable) : Nat :=
  let columns := table.columns % 2 ^ 32
  3 + (table.header.map fun item => tdcpmSerializeVarNameSize item.name + 1).sum +
    (if table.units = [] then 0 else 3 * columns % 2 ^ 32) +
    (table.lines.map fun line => 1 + (line.varName.map tdcpmSerializeVarNameSize).getD 0 +
      tdcpmSerializeVectSize columns).sum

def tableFlags (table : TdcpmNodeTable) : UInt32 :=
  let hasUnits : UInt32 := if table.units = [] then 0 else 1
  let hasNames : UInt32 := if table.header = [] then 0 else 1
  hasUnits ||| (hasNames <<< 1)

def tdcpmSerializeTable (table : TdcpmNodeTable) : SerializeInfo → Option SerializeInfo :=
  SerializeInfo.put (tableWords table)
    (UInt32.ofNat table.columns :: UInt32.ofNat table.lines.length :: tableFlags table ::
      (table.header.flatMap serializeHeaderItem ++ table.units.flatMap serializeTableUnit ++
        table.lines.flatMap serializeTableLine))

def serializeNamed (type : UInt32) (name : TdcpmVarName) : SerializeInfo → Option SerializeInfo :=
  SerializeInfo.put (1 + tdcpmSerializeVarNameSize name) (type :: tdcpmSerializeVarName name)

def SerializeInfo.patch (off : Nat) (size : UInt64) (ser : SerializeInfo) : SerializeInfo :=
  { ser with buf := (ser.buf.set off (size >>> 32).toUInt32).set (off + 1) size.toUInt32 }

section Nodes

-- `off_end - off_size` for a block between the given offsets. The source finds `off_end` from a
-- pointer to the buffer as it was before the block, so the value is not known here.
variable (blockSize : Nat → Nat → UInt64)

mutual

def tdcpmSerializeNode : TdcpmNode → SerializeInfo → Option SerializeInfo
  | .vect name items, ser =>
    (serializeNamed tdcpmNodeTypeVect name ser).bind (tdcpmSerializeVect items)
  | .table name table, ser =>
    (serializeNamed tdcpmNodeTypeTable name ser).bind (tdcpmSerializeTable table)
  | .subNode name nodes, ser =>
    ((serializeNamed tdcpmNodeTypeSubNode name ser).bind
      (SerializeInfo.put 1 [UInt32.ofNat nodes.length])).bind (serializeNodeList nodes)
  | .valid start stop nodes, ser =>
    (((ser.put 5 [tdcpmNodeTypeValid, 0, 0, start, stop]).bind
      (SerializeInfo.put 1 [UInt32.ofNat nodes.length])).bind (serializeNodeList nodes)).map
        fun done => done.patch (ser.buf.length + 1)
          (blockSize (ser.buf.length + 1) done.buf.length)

def serializeNodeList : List TdcpmNode → SerializeInfo → Option SerializeInfo
  | [], ser => some ser
  | node :: nodes, ser => (tdcpmSerializeNode node ser).bind (serializeNodeList nodes)

end

def tdcpmSerializeNodes (nodes : List TdcpmNode) (ser : SerializeInfo) : Option SerializeInfo :=
  (ser.put 1 [UInt32.ofNat nodes.length]).bind (serializeNodeList blockSize nodes)

end Nodes

inductive NodeReadError
  /-- a word is read past the end -/
  | pastEnd
  | unknownType (type : UInt32)
  /-- the text of a unit does not fit the buffer it is printed from -/
  | unitTooLong (unitIdx : UInt32)
  /-- a value cannot be assigned to a member with such a unit -/
  | unitMismatch (unitIdx leafUnit : UInt32)
  /-- more nesting than the reader was given -/
  | tooDeep
deriving DecidableEq

abbrev NodeReader := WordReader NodeReadError

def deserializeUInt32 : NodeReader UInt32 := readWord .pastEnd

def deserializeUInt64 : NodeReader UInt64 := do
  let hi ← deserializeUInt32
  let lo ← deserializeUInt32
  return (hi.toUInt64 <<< 32) ||| lo.toUInt64

def deserializeItem : NodeReader VectItem := do
  let value ← deserializeUInt64
  let unitIdx ← deserializeUInt32
  let tspecIdx ← deserializeUInt32
  return ⟨value, unitIdx, tspecIdx⟩

/-- What is visited, in order; each is printed in its own way. -/
inductive NodeVisit
  | nodes (num : Nat)
  | name (parts : TdcpmVarName)
  | vect (num : Nat)
  | item (item : VectItem)
  | table (columns rows : Nat) (hasNames hasUnits : Bool)
  | header (item : HeaderItem)
  | unit (unit : TableUnit)
  | line (varName : Option TdcpmVarName)
  | subNode
  | valid (start stop : UInt32)
deriving DecidableEq

def tdcpmDumpVarName : NodeReader TdcpmVarName := do
  let numParts ← deserializeUInt32
  readLoop deserializeUInt32 numParts.toNat

def deserializeTableUnit : NodeReader TableUnit := do
  let value ← deserializeUInt64
  let unitIdx ← deserializeUInt32
  return ⟨value, unitIdx⟩

def unitPartText (strings : TdcpmTable StringStore) (i : Nat) (part : TdcpmUnitItemPart) :
    List UInt8 :=
  let exponent := part.2.toInt.natAbs
  (if part.2 < 0 ∨ 0 < i then [if part.2 < 0 then '/'.toUInt8 else '*'.toUInt8] else []) ++
    tdcpmStringTableGet strings part.1 ++
    (if exponent ≠ 1 then '^'.toUInt8 :: (Nat.toDigits 10 exponent).map Char.toUInt8 else [])

/-- The whole text of a unit, the length of which is returned. -/
def tdcpmUnitToString (tables : TdcpmUnits) (unitIdx : UInt32) : List UInt8 :=
  let parts := (tables.units.store[unitIdx.toNat]?).elim [] TdcpmUnitItem.unit
  (parts.mapIdx (unitPartText tables.strings)).flatten

section Dump

variable (tables : TdcpmUnits)

def tdcpmDumpUnit (unitIdx : UInt32) : NodeReader Unit :=
  if 128 ≤ (tdcpmUnitToString tables unitIdx).length then stopReading (.unitTooLong unitIdx)
  else pure ()

def dumpItemUnit (item : VectItem) : NodeReader Unit :=
  if item.unitIdx ≠ 0 then tdcpmDumpUnit tables item.unitIdx else pure ()

def dumpItem : NodeReader VectItem := do
  let item ← deserializeItem
  dumpItemUnit tables item
  return item

def tdcpmDumpVectLoop (num : UInt32) : NodeReader (List NodeVisit) := do
  let items ← readLoop (dumpItem tables) num.toNat
  return items.map NodeVisit.item

def tdcpmDumpVect : NodeReader (List NodeVisit) := do
  let num ← deserializeUInt32
  let items ← tdcpmDumpVectLoop tables num
  return .vect num.toNat :: items

def dumpHeaderItem : NodeReader HeaderItem := do
  let name ← tdcpmDumpVarName
  let tspecIdx ← deserializeUInt32
  return ⟨name, tspecIdx⟩

def dumpTableUnit : NodeReader TableUnit := do
  let unit ← deserializeTableUnit
  tdcpmDumpUnit tables unit.unitIdx
  return unit

def dumpLineName (hasVarName : UInt32) : NodeReader (Option TdcpmVarName) :=
  if hasVarName ≠ 0 then do
    let name ← tdcpmDumpVarName
    return some name
  else return none

def dumpTableLine (columns : UInt32) : NodeReader (List NodeVisit) := do
  let hasVarName ← deserializeUInt32
  let varName ← dumpLineName hasVarName
  let items ← tdcpmDumpVectLoop tables columns
  return .line varName :: items

def tdcpmDumpTable : NodeReader (List NodeVisit) := do
  let columns ← deserializeUInt32
  let rows ← deserializeUInt32
  let hasNamesUnits ← deserializeUInt32
  let hasNames := (hasNamesUnits >>> 1) &&& 1
  let hasUnits := hasNamesUnits &&& 1
  let header ← readLoop dumpHeaderItem (if hasNames ≠ 0 then columns.toNat else 0)
  let units ← readLoop (dumpTableUnit tables) (if hasUnits ≠ 0 then columns.toNat else 0)
  let lines ← readLoop (dumpTableLine tables columns) rows.toNat
  return .table columns.toNat rows.toNat (hasNames ≠ 0) (hasUnits ≠ 0) ::
    (header.map NodeVisit.header ++ units.map NodeVisit.unit ++ lines.flatten)

/-- `tdcpm_dump_node`, given the reader of nodes within it. -/
def tdcpmDumpNode (dumpNodes : NodeReader (List NodeVisit)) : NodeReader (List NodeVisit) := do
  let type ← deserializeUInt32
  if type = tdcpmNodeTypeValid then
    let _ ← deserializeUInt32
    let _ ← deserializeUInt32
    let start ← deserializeUInt32
    let stop ← deserializeUInt32
    let nodes ← dumpNodes
    return .valid start stop :: nodes
  else
    let name ← tdcpmDumpVarName
    if type = tdcpmNodeTypeVect then
      let vect ← tdcpmDumpVect tables
      return .name name :: vect
    else if type = tdcpmNodeTypeTable then
      let table ← tdcpmDumpTable tables
      return .name name :: table
    else if type = tdcpmNodeTypeSubNode then
      let nodes ← dumpNodes
      return .name name :: .subNode :: nodes
    else stopReading (.unknownType type)

/-- `tdcpm_dump_nodes`, for nodes nested up to the given depth. -/
def tdcpmDumpNodes : Nat → NodeReader (List NodeVisit)
  | 0 => stopReading .tooDeep
  | depth + 1 => do
    let num ← deserializeUInt32
    let nodes ← readLoop (tdcpmDumpNode tables (tdcpmDumpNodes depth)) num.toNat
    return .nodes num.toNat :: nodes.flatten

end Dump

structure ArrayLevel where
  maxIndex : Nat
  stride : Nat

/-- A member of a structure: `_name_idx`, `_offset`, its array levels, and the unit of a leaf or the
members of a structure within. -/
inductive StructInfoItem
  | leaf (nameIdx : UInt32) (offset : Nat) (levels : List ArrayLevel) (value : UInt64)
      (unitIdx : UInt32)
  | subStruct (nameIdx : UInt32) (offset : Nat) (levels : List ArrayLevel)
      (members : List StructInfoItem)

namespace StructInfoItem

def nameIdx : StructInfoItem → UInt32
  | leaf n _ _ _ _ | subStruct n _ _ _ => n

def offset : StructInfoItem → Nat
  | leaf _ o _ _ _ | subStruct _ o _ _ => o

def levels : StructInfoItem → List ArrayLevel
  | leaf _ _ l _ _ | subStruct _ _ l _ => l

end StructInfoItem

/-- `_item` stands with the array levels from `_iter_index` on. -/
structure MatchState where
  curStruct : Option (List StructInfoItem)
  item : Option (StructInfoItem × List ArrayLevel)
  offset : Nat

def partIsName (part : UInt32) : Bool := part &&& 0x80000000 ≠ 0

def partNameIdx (part : UInt32) : UInt32 := part &&& 0x7fffffff

def MatchState.settle (item : StructInfoItem) (levels : List ArrayLevel) (state : MatchState) :
    MatchState :=
  match levels, item with
  | [], .subStruct _ _ _ members => { state with curStruct := some members, item := none }
  | [], .leaf .. => { state with curStruct := none, item := some (item, []) }
  | _ :: _, _ => { state with item := some (item, levels) }

/-- The match of one part; `none` for `no_match`. -/
def MatchState.matchPart (part : UInt32) (state : MatchState) : Option MatchState := do
  let members ← state.curStruct
  if partIsName part then
    if state.item.isSome then none
    else do
      let item ← members.find? fun item => item.nameIdx = partNameIdx part
      return MatchState.settle item item.levels { state with offset := state.offset + item.offset }
  else do
    let (item, levels) ← state.item
    let level ← levels.head?
    if part.toNat ≥ level.maxIndex then none
    else
      return MatchState.settle item levels.tail
        { state with offset := state.offset + part.toNat * level.stride }

def MatchState.noMatch (state : MatchState) : MatchState :=
  { state with curStruct := none, item := none }

/-- The parts of a name one by one; all of them are read, also after one that does not match. -/
def matchParts : Nat → MatchState → NodeReader MatchState
  | 0, state => pure state
  | n + 1, state => do
    let part ← deserializeUInt32
    match state.matchPart part with
    | some state => matchParts n state
    | none => do
      let _ ← readLoop deserializeUInt32 n
      return state.noMatch

def tdcpmMatchVarNameStruct (state : MatchState) : NodeReader MatchState := do
  let numParts ← deserializeUInt32
  matchParts numParts.toNat state

def tdcpmMatchVarNameStructLeaf (state : MatchState) : Option (Nat × UInt64 × UInt32) :=
  match state.curStruct, state.item with
  | none, some (.leaf _ _ _ value unitIdx, _) => some (state.offset, value, unitIdx)
  | _, _ => none

/-- A value in its unit, stored at an address for a member with a unit of its own. -/
structure Assignment where
  address : Nat
  item : VectItem
  leafValue : UInt64
  leafUnit : UInt32
deriving DecidableEq

section Assign

-- whether `tdcpm_unit_factor` succeeds
variable (unitFactor : UInt32 → UInt32 → Bool)

def tdcpmAssignItem (state : MatchState) (item : VectItem) : NodeReader (Option Assignment) :=
  match tdcpmMatchVarNameStructLeaf state with
  | none => pure none
  | some (address, leafValue, leafUnit) =>
    if address = 0 then pure none
    else if unitFactor item.unitIdx leafUnit then
      return some ⟨address, item, leafValue, leafUnit⟩
    else stopReading (.unitMismatch item.unitIdx leafUnit)

def assignNextItem (state : MatchState) : NodeReader (Option Assignment) := do
  let item ← deserializeItem
  tdcpmAssignItem unitFactor state item

def tdcpmAssignVectLoop (state : MatchState) (num : UInt32) : NodeReader (List Assignment) := do
  let items ← readLoop (assignNextItem unitFactor state) num.toNat
  return items.reduceOption

def tdcpmAssignVect (state : MatchState) : NodeReader (List Assignment) := do
  let num ← deserializeUInt32
  tdcpmAssignVectLoop unitFactor state num

def assignHeaderItem (state : MatchState) : NodeReader Unit := do
  let _ ← tdcpmMatchVarNameStruct state
  let _ ← deserializeUInt32
  return ()

def assignLineName (state : MatchState) (hasVarName : UInt32) : NodeReader MatchState :=
  if hasVarName ≠ 0 then tdcpmMatchVarNameStruct state else pure state

def assignTableLine (state : MatchState) (columns : UInt32) : NodeReader (List Assignment) := do
  let hasVarName ← deserializeUInt32
  let state ← assignLineName state hasVarName
  tdcpmAssignVectLoop unitFactor state columns

def tdcpmAssignTable (state : MatchState) : NodeReader (List Assignment) := do
  let columns ← deserializeUInt32
  let rows ← deserializeUInt32
  let hasNamesUnits ← deserializeUInt32
  let hasNames := (hasNamesUnits >>> 1) &&& 1
  let hasUnits := hasNamesUnits &&& 1
  let _ ← readLoop (assignHeaderItem state) (if hasNames ≠ 0 then columns.toNat else 0)
  let _ ← readLoop deserializeTableUnit (if hasUnits ≠ 0 then columns.toNat else 0)
  let lines ← readLoop (assignTableLine unitFactor state columns) rows.toNat
  return lines.flatten

/-- `tdcpm_assign_node`, given the reader of nodes within it. -/
def tdcpmAssignNode (assignNodes : MatchState → NodeReader (List Assignment)) (state : MatchState) :
    NodeReader (List Assignment) := do
  let type ← deserializeUInt32
  if type = tdcpmNodeTypeValid then
    let _ ← deserializeUInt32
    let _ ← deserializeUInt32
    let _ ← deserializeUInt32
    let _ ← deserializeUInt32
    assignNodes state
  else
    let state ← tdcpmMatchVarNameStruct state
    if type = tdcpmNodeTypeVect then tdcpmAssignVect unitFactor state
    else if type = tdcpmNodeTypeTable then tdcpmAssignTable unitFactor state
    else if type = tdcpmNodeTypeSubNode then assignNodes state
    else stopReading (.unknownType type)

/-- `tdcpm_assign_nodes`, for nodes nested up to the given depth. -/
def tdcpmAssignNodes : Nat → MatchState → NodeReader (List Assignment)
  | 0, _ => stopReading .tooDeep
  | depth + 1, state => do
    let num ← deserializeUInt32
    let nodes ← readLoop (tdcpmAssignNode unitFactor (tdcpmAssignNodes depth) state) num.toNat
    return nodes.flatten

end Assign

end Ucesb
