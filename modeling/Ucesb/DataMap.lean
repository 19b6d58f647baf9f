import Ucesb.DestInsert
import Ucesb.Correlation

namespace Ucesb

/-- `_type` of a `zero_suppress_info` under `ZZP_INFO_MASK`. -/
inductive ZzpInfoType
  | none
  | fixedList
  | callArrayIndex
  | callArrayMultiIndex
  | callListIndex
  | callListIIIndex
  | callArrayListIIIndex
  | callListListIIIndex
deriving DecidableEq

/-- What the union of `_array` and `_list` holds: the function of the container that is called, and
its index. -/
inductive InsertCall
  | array (container index : Nat)
  | multi (container index : Nat)
  | list (container index : Nat) (destOffset : BitVec 64)
deriving DecidableEq

/-- `_list_ii`, with the list as the container, item and member it is in. -/
structure ListIICall where
  container : Nat
  slot : Nat
  member : Nat
  index : Nat
  destOffset : BitVec 64
deriving DecidableEq

/-- `zero_suppress_info`.  A part that no function has set is `none`. -/
structure ZeroSuppressInfo where
  type : ZzpInfoType
  toggleMax : Nat
  insert : Option InsertCall
  listII : Option ListIICall
deriving DecidableEq

namespace ZeroSuppressInfo

def init : ZeroSuppressInfo := ⟨.none, 0, none, none⟩

/-- The constructor from another info, which takes over neither the union nor `_list_ii`. -/
def copy (src : ZeroSuppressInfo) (ignoreNoneCheck : Bool) : Except MapError ZeroSuppressInfo :=
  if !ignoreNoneCheck && src.type != .none then .error .internal
  else .ok ⟨src.type, src.toggleMax, none, none⟩

def setZzpArray (info : ZeroSuppressInfo) (container i : Nat) : Except MapError ZeroSuppressInfo :=
  if info.type != .none then .error .assertion
  else .ok { info with type := .callArrayIndex, insert := some (.array container i) }

/-- `set_zzp_list_ii`, with no list after `set_zzp_array` for a multi-entry array. -/
def setZzpListII (info : ZeroSuppressInfo) (call : Option ListIICall) :
    Except MapError ZeroSuppressInfo :=
  match info.type with
  | .callArrayIndex => .ok { info with type := .callArrayListIIIndex, listII := call }
  | .callListIndex => .ok { info with type := .callListListIIIndex, listII := call }
  | .none => .ok { info with type := .callListIIIndex, listII := call }
  | .callArrayMultiIndex => .ok { info with listII := call }
  | _ => .error .twoLevels

def setZzpMultiArray (info : ZeroSuppressInfo) (container i : Nat) :
    Except MapError ZeroSuppressInfo :=
  if info.type != .none then .error .assertion
  else
    setZzpListII
      { info with type := .callArrayMultiIndex, insert := some (.multi container i) } none

def setZzpList (info : ZeroSuppressInfo) (container i : Nat) (destOffset : BitVec 64) :
    Except MapError ZeroSuppressInfo :=
  if info.type != .none then .error .assertion
  else .ok { info with type := .callListIndex, insert := some (.list container i destOffset) }

end ZeroSuppressInfo

section
variable {shapes : List DestShape} (L : DestLayout shapes)

/-- The `zero_suppress_info` for an item of a container. -/
def containerInfo (d : DestShape) (container slot : Nat) : Except MapError ZeroSuppressInfo :=
  match d.kind with
  | .plain => .ok .init
  | .zeroSuppress => do
    let info ← ZeroSuppressInfo.init.copy false
    if d.n ≤ slot then .error (.outside slot d.n) else info.setZzpArray container slot
  | .multi maxEntries => do
    let info ← ZeroSuppressInfo.init.copy false
    if d.n ≤ slot / maxEntries then .error (.outside (slot / maxEntries) d.n)
    else info.setZzpMultiArray container (slot / maxEntries)
  | .list => do
    let info ← ZeroSuppressInfo.init.copy false
    if d.n ≤ slot then .error (.outside slot d.n)
    else info.setZzpList container slot (L.slotAddr container slot - L.slotAddr container 0)

/-- The `zero_suppress_info` for a member: a list in the item adds its own. -/
def memberInfo (p : DestPath) (m : MemberShape) (info : ZeroSuppressInfo) :
    Except MapError ZeroSuppressInfo :=
  match m, p.inner with
  | .listII n _, some (k, _) => do
    let info ← info.copy true
    if n ≤ k then .error (.outside k n)
    else
      info.setZzpListII (some ⟨p.container, p.slot, p.member, k,
        L.innerAddr p.container p.slot p.member k - L.innerAddr p.container p.slot p.member 0⟩)
  | _, _ => .ok info

/-- `zero_suppress_info_ptrs` down to a place.  For a `toggle_item` it copies all of the info, and
gives `_item` the number of toggles. -/
def zeroSuppressInfo (p : DestPath) : Except MapError ZeroSuppressInfo :=
  match shapes[p.container]? with
  | none => .error .undefined
  | some d =>
    match d.item[p.member]? with
    | none => .error .undefined
    | some m => do
      let info ← containerInfo L d p.container p.slot
      let info ← memberInfo L p m info
      match memberCell m p.inner with
      | none => .error .undefined
      | some c =>
        if c.toggle && p.part == .item then return { info with toggleMax := 2 } else return info

/-- `data_map`.  `_dest` is `NULL` in one that is not used. -/
structure DataMap where
  dest : BitVec 64
  zzpInfo : ZeroSuppressInfo
  toggleI : Nat

def DataMap.unset : DataMap := ⟨0, .init, 0⟩

/-- `_list._dest_offset`, which is in the union also for a `LIST_II`. -/
def ZeroSuppressInfo.listDestOffset (info : ZeroSuppressInfo) : BitVec 64 :=
  match info.insert with
  | some (.list _ _ destOffset) => destOffset
  | _ => 0

def DataMap.setDest (map : DataMap) (p : DestPath) (toggleI : Nat) :
    Except MapError (Bool × DataMap) :=
  if map.dest ≠ 0 then .ok (false, map)
  else
    match zeroSuppressInfo L p with
    | .error r => .error r
    | .ok info =>
      -- the offset is taken from `_dest`, which then is set to the destination
      let map : DataMap :=
        if info.type = .callListIndex ∨ info.type = .callListIIIndex then
          { map with dest := map.dest - info.listDestOffset }
        else map
      let map : DataMap := { map with dest := L.addr p, zzpInfo := info }
      if info.toggleMax = 0 ∧ toggleI ≠ 0 then .error .toggleNotExpected
      else if info.toggleMax ≠ 0 ∧ toggleI ≠ 0 then
        if info.toggleMax < toggleI then .error (.toggleTooLarge toggleI info.toggleMax)
        else .ok (true, { map with toggleI := toggleI })
      else .ok (true, map)

/-- `(*_array._call)(_item,_index)` on a container. -/
def callArray (call : Option InsertCall) (e : RawEvent) : Except MapError RawEvent :=
  match call with
  | some (.array k i) =>
    match shapes[k]? with
    | some d => .ok (Function.update e k (onInsertArray d (e k) i))
    | none => .error .undefined
  | _ => .error .undefined

/-- `(*_array._call_multi)(_item,_index)`, with the offset that it returns. -/
def callMulti (call : Option InsertCall) (e : RawEvent) : Except MapError (RawEvent × BitVec 64) :=
  match call with
  | some (.multi k i) =>
    match shapes[k]? with
    | some d =>
      match d.kind with
      | .multi maxEntries => do
        let (c, slot) ← onInsertMulti d maxEntries (e k) i
        return (Function.update e k c, L.slotAddr k slot - L.slotAddr k (i * maxEntries))
      | _ => .error .undefined
    | none => .error .undefined
  | _ => .error .undefined

def callList (call : Option InsertCall) (e : RawEvent) : Except MapError (RawEvent × BitVec 64) :=
  match call with
  | some (.list k i _) =>
    match shapes[k]? with
    | some d => do
      let (c, slot) ← doInsertList d (e k) i
      return (Function.update e k c, L.slotAddr k slot - L.slotAddr k 0)
    | none => .error .undefined
  | _ => .error .undefined

def listShape (shapes : List DestShape) (container member : Nat) :
    Option (Nat × List CellShape) :=
  match shapes[container]? with
  | none => none
  | some d =>
    match d.item[member]? with
    | some (.listII n item) => some (n, item)
    | _ => none

def callListII (call : Option ListIICall) (e : RawEvent) :
    Except MapError (RawEvent × BitVec 64) :=
  match call with
  | none => .error .undefined
  | some k =>
    match listShape shapes k.container k.member with
    | none => .error .undefined
    | some (n, item) => do
      let x := (e k.container).items k.slot
      let (l, place) ← appendItem n item (x.lists k.member)
      let x := { x with lists := Function.update x.lists k.member l }
      return (Function.update e k.container ((e k.container).setItem k.slot x),
        L.innerAddr k.container k.slot k.member place - L.innerAddr k.container k.slot k.member 0)

/-- The insert functions that `map_members` calls for the type of a destination, and the
destination with the offsets that they return. -/
def callInserts (info : ZeroSuppressInfo) (dest : BitVec 64) (e : RawEvent) :
    Except MapError (RawEvent × BitVec 64) :=
  match info.type with
  | .none => .ok (e, dest)
  | .callArrayIndex => do
    let e ← @callArray shapes info.insert e
    return (e, dest)
  | .callArrayMultiIndex => do
    let (e, offset) ← callMulti L info.insert e
    return (e, dest + offset)
  | .callListIndex => do
    let (e, offset) ← callList L info.insert e
    return (e, dest + offset)
  | .callArrayListIIIndex => do
    let (e, offset) ← callMulti L info.insert e
    let (e, offsetII) ← callListII L info.listII e
    return (e, dest + offset + offsetII)
  | .callListListIIIndex => do
    let (e, offset) ← callList L info.insert e
    let (e, offsetII) ← callListII L info.listII e
    return (e, dest + offset + offsetII)
  | .callListIIIndex => do
    let (e, offset) ← callListII L info.listII e
    return (e, dest + offset)
  | .fixedList => .error .internal

/-- The store of `map_members`.  With a toggle the pointer has to be to the `_item` of a
`toggle_item`. -/
def storeAt (dest : BitVec 64) (toggleI src : Nat) (e : RawEvent) : Except MapError RawEvent :=
  match L.locate dest with
  | none => .error .undefined
  | some p =>
    if toggleI = 0 then .ok (e.modify p (·.put p.part src))
    else if p.part = .item then .ok (e.modify p (·.putToggle toggleI src))
    else .error .undefined

def DataMap.mapMembers (map : DataMap) (src : Nat) (e : RawEvent) : Except MapError RawEvent :=
  if map.dest ≠ 0 then do
    let (e, dest) ← callInserts L map.zzpInfo map.dest e
    storeAt L dest map.toggleI src e
  else .ok e

/-- `map_members` of the values of an event, one after the other. -/
def mapCalled (calls : List (DataMap × Nat)) (e : RawEvent) : Except MapError RawEvent :=
  calls.foldlM (fun e call => call.1.mapMembers L call.2 e) e

end

/-- The mirror of an event with a `data_map` for each value.  A `raw_list_ii_map` has one for all
items. -/
def MapTable : EventShape → Type
  | .base => Unit
  | .single => DataMap
  | .members first rest => MapTable first × MapTable rest
  | .array .listII _ item => MapTable item
  | .array _ n item => Fin n → MapTable item
  | .multiChunk item => MapTable item

/-- `map_members` of the structures and arrays: the values that it goes to, each with its
`data_map`. -/
def mapCalls : (s : EventShape) → Source s → MapTable s → List (DataMap × Nat)
  | .base, _, _ => []
  | .single, value, map => [(map, value)]
  | .members first rest, (a, b), (f, r) => mapCalls first a f ++ mapCalls rest b r
  | .array .plain n item, items, map =>
    (List.finRange n).flatMap fun i => mapCalls item (items i) (map i)
  | .array .zeroSuppress n item, items, map =>
    (List.finRange n).flatMap fun i =>
      match items i with
      | none => []
      | some a => mapCalls item a (map i)
  | .array (.multi _) n item, items, map =>
    (List.finRange n).flatMap fun i => (items i).1.flatMap fun a => mapCalls item a (map i)
  | .array .list _ item, l, map => l.items.flatMap fun a => mapCalls item a.2 (map a.1)
  | .array .listII _ item, l, map => l.1.flatMap fun a => mapCalls item a map
  | .multiChunk _, none, _ => []
  | .multiChunk item, some a, map => mapCalls item a map

end Ucesb
