import Mathlib.Logic.Function.Basic
import Mathlib.Tactic.Common
import Mathlib.Data.BitVec

namespace Ucesb

/-- A member that takes a value: whether it is a `toggle_item`, and the value that `__clean`
gives it. -/
structure CellShape where
  toggle : Bool
  cleaned : Nat
deriving DecidableEq

/-- A member of the items of a container.  A `raw_list_ii_zero_suppress` has items of its own. -/
inductive MemberShape
  | cell (c : CellShape)
  | listII (n : Nat) (item : List CellShape)
deriving DecidableEq

/-- `raw_array` and the structures, `raw_array_zero_suppress`, `raw_array_multi_zero_suppress` and
`raw_list_zero_suppress`. -/
inductive DestKind
  | plain
  | zeroSuppress
  | multi (maxEntries : Nat)
  | list
deriving DecidableEq

structure DestShape where
  kind : DestKind
  n : Nat
  item : List MemberShape
deriving DecidableEq

/-- The number of `_items`.  Those of `_items[i][j]` are one after the other. -/
def DestShape.slots (d : DestShape) : Nat :=
  match d.kind with
  | .multi maxEntries => d.n * maxEntries
  | _ => d.n

/-- A `toggle_item`.  A member that is none has only the `_item`. -/
@[ext]
structure Cell where
  item : Nat
  toggleI : Nat
  toggleV : Nat → Nat

def CellShape.clean (c : CellShape) : Cell := ⟨c.cleaned, 0, fun _ => c.cleaned⟩

/-- `raw_list_ii_zero_suppress`, with the members of each item. -/
@[ext]
structure ListII where
  numItems : Nat
  items : Nat → Nat → Cell

@[ext]
structure DestItem where
  cells : Nat → Cell
  lists : Nat → ListII

/-- `clean_item`.  The items of a list stay as they are and only their number is set. -/
def cleanItem (shape : List MemberShape) (x : DestItem) : DestItem where
  cells m :=
    match shape[m]? with
    | some (.cell c) => c.clean
    | _ => x.cells m
  lists m :=
    match shape[m]? with
    | some (.listII ..) => { x.lists m with numItems := 0 }
    | _ => x.lists m

/-- The members of all kinds of containers: `_valid`, `_num_entries`, `_num_items`, the `_index`
of each item of a list, and the items, with those that are not in use. -/
@[ext]
structure Container where
  valid : Nat → Bool
  numEntries : Nat → Nat
  numItems : Nat
  index : Nat → Nat
  items : Nat → DestItem

abbrev RawEvent := Nat → Container

inductive CellPart
  | item
  | toggleI
  | toggleV (k : Nat)
deriving DecidableEq

/-- Only a `toggle_item` has other parts than `_item`. -/
def CellPart.of (c : CellShape) : CellPart → Bool
  | .item => true
  | .toggleI => c.toggle
  | .toggleV k => c.toggle && k < 2

/-- A place for a value in the raw event.  `inner` is the item and the member in a
`raw_list_ii_zero_suppress`. -/
structure DestPath where
  container : Nat
  slot : Nat
  member : Nat
  inner : Option (Nat × Nat)
  part : CellPart
deriving DecidableEq

def memberCell : MemberShape → Option (Nat × Nat) → Option CellShape
  | .cell c, none => some c
  | .listII n item, some (k, q) => if k < n then item[q]? else none
  | _, _ => none

/-- The path is that of a member with this shape, in an item of a container with this shape. -/
structure DestPath.At (shapes : List DestShape) (p : DestPath) (d : DestShape) (m : MemberShape)
    (c : CellShape) : Prop where
  shape : shapes[p.container]? = some d
  slot : p.slot < d.slots
  member : d.item[p.member]? = some m
  cell : memberCell m p.inner = some c
  part : p.part.of c = true

def DestPath.Of (shapes : List DestShape) (p : DestPath) : Prop :=
  ∃ d m c, p.At shapes d m c

/-- The offsets in the raw event.  `base` is where `_items[0]`, or its `_item`, begins,
`memberOffset` where the `_items` of a list in an item begin, and `cellOffset` where a member begins
in the item that it is in. -/
structure DestOffsets where
  base : Nat → BitVec 64
  stride : Nat → Nat
  memberOffset : Nat → Nat → Nat
  innerStride : Nat → Nat → Nat
  cellOffset : Nat → Nat → Option Nat → CellPart → Nat

namespace DestOffsets
variable (L : DestOffsets)

/-- `&_items[slot]`, or the `_item` there. -/
def slotAddr (container slot : Nat) : BitVec 64 :=
  L.base container + BitVec.ofNat 64 (slot * L.stride container)

/-- `&_items[k]` of a list in an item. -/
def innerAddr (container slot member k : Nat) : BitVec 64 :=
  L.slotAddr container slot + BitVec.ofNat 64 (L.memberOffset container member) +
    BitVec.ofNat 64 (k * L.innerStride container member)

def addr (p : DestPath) : BitVec 64 :=
  match p.inner with
  | none =>
    L.slotAddr p.container p.slot + BitVec.ofNat 64 (L.cellOffset p.container p.member none p.part)
  | some (k, q) =>
    L.innerAddr p.container p.slot p.member k +
      BitVec.ofNat 64 (L.cellOffset p.container p.member (some q) p.part)

end DestOffsets

/-- The members have addresses of their own, which are not `NULL`, and `locate` gives the member that
is at an address. -/
structure DestLayout (shapes : List DestShape) extends DestOffsets where
  locate : BitVec 64 → Option DestPath
  locate_iff : ∀ a p, locate a = some p ↔ p.Of shapes ∧ toDestOffsets.addr p = a
  addr_ne : ∀ p, p.Of shapes → toDestOffsets.addr p ≠ 0

def Cell.put (x : Cell) (part : CellPart) (src : Nat) : Cell :=
  match part with
  | .item => { x with item := src }
  | .toggleI => { x with toggleI := src }
  | .toggleV k => { x with toggleV := Function.update x.toggleV k src }

/-- The value goes to the slot of the toggle, and to `_item` if there is none so far or if the
toggle is the lowest. -/
def Cell.putToggle (x : Cell) (toggleI src : Nat) : Cell :=
  let x := { x with toggleV := Function.update x.toggleV (toggleI - 1) src }
  if x.toggleI = 0 ∨ toggleI < x.toggleI then { x with toggleI := toggleI, item := src } else x

def DestItem.modify (x : DestItem) (member : Nat) (inner : Option (Nat × Nat)) (f : Cell → Cell) :
    DestItem :=
  match inner with
  | none => { x with cells := Function.update x.cells member (f (x.cells member)) }
  | some (k, q) =>
    let l := x.lists member
    let y := Function.update (l.items k) q (f (l.items k q))
    let l := { l with items := Function.update l.items k y }
    { x with lists := Function.update x.lists member l }

def Container.setItem (c : Container) (slot : Nat) (x : DestItem) : Container :=
  { c with items := Function.update c.items slot x }

def RawEvent.modify (e : RawEvent) (p : DestPath) (f : Cell → Cell) : RawEvent :=
  Function.update e p.container
    ((e p.container).setItem p.slot (((e p.container).items p.slot).modify p.member p.inner f))

end Ucesb
