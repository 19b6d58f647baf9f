import Mathlib.Tactic.Common
import Mathlib.Tactic.Ring

namespace Ucesb

def externalWriterMarkLoop : Nat := 0x80000000

def load32 (mem : Nat → UInt8) (a : Nat) : Nat :=
  (mem a).toNat + 2 ^ 8 * (mem (a + 1)).toNat + 2 ^ 16 * (mem (a + 2)).toNat +
    2 ^ 24 * (mem (a + 3)).toNat

def store32 (mem : Nat → UInt8) (a value : Nat) : Nat → UInt8 :=
  fun b => if a ≤ b ∧ b < a + 4 then UInt8.ofNat (value / 2 ^ (8 * (b - a))) else mem b

abbrev WordStores := List (Nat × Nat)

def runStores (mem : Nat → UInt8) (stores : WordStores) : Nat → UInt8 :=
  stores.foldl (fun mem s => store32 mem s.1 s.2) mem

/-- The entries by the offsets of their items. -/
inductive PackEntry
  | item (offset : Nat)
  | loop (offset maxLoops loopSize : Nat) (items : List Nat)
deriving DecidableEq

/-- The offsets of `n` items, which have a mark each. -/
def loopOffsets : Nat → List Nat → Option (List Nat)
  | 0, _ => some []
  | n + 1, _ :: offset :: o => (loopOffsets n o).map (offset :: ·)
  | _, _ => none

/-- The walk over the pack list at setup. A list that ends within an entry is found to be malformed,
as is one with too few loop items. -/
def packEntriesFrom : Nat → List Nat → Option (List PackEntry)
  | _, [] => some []
  | fuel + 1, mark :: offset :: o =>
    if mark &&& externalWriterMarkLoop = 0 then
      (packEntriesFrom fuel o).map (.item offset :: ·)
    else
      match o with
      | maxLoops :: loopSize :: o =>
        let items := maxLoops * loopSize % 2 ^ 32
        if o.length < 2 * items % 2 ^ 32 then none
        else do
          let offsets ← loopOffsets items o
          let entries ← packEntriesFrom fuel (o.drop (2 * items))
          some (.loop offset maxLoops loopSize offsets :: entries)
      | _ => none
  | _, _ => none

def packEntries (list : List Nat) : Option (List PackEntry) :=
  if list.length < 2 ^ 30 then packEntriesFrom list.length list else none

/-- The words of `n` loop items. Nothing is checked here: past the list is outside. -/
def loopWords (itemOffset : Nat → Nat) (mem : Nat → UInt8) : Nat → List Nat → Option (List Nat)
  | 0, _ => some []
  | n + 1, _ :: offset :: o =>
    (loopWords itemOffset mem n o).map (load32 mem (itemOffset offset) :: ·)
  | _, _ => none

/-- The words of an event, or the offset of a control item that is out of bounds. -/
def packWordsFrom (itemOffset : Nat → Nat) (mem : Nat → UInt8) :
    Nat → List Nat → Option (Except Nat (List Nat))
  | _, [] => some (.ok [])
  | fuel + 1, mark :: offset :: o =>
    let value := load32 mem offset
    if mark &&& externalWriterMarkLoop = 0 then
      (packWordsFrom itemOffset mem fuel o).map fun r => r.map (value :: ·)
    else
      match o with
      | maxLoops :: loopSize :: o =>
        if maxLoops < value then some (.error offset)
        else do
          let words ← loopWords itemOffset mem (value * loopSize % 2 ^ 32) o
          let rest ← packWordsFrom itemOffset mem fuel (o.drop (2 * maxLoops * loopSize % 2 ^ 32))
          some (rest.map fun rest => value :: (words ++ rest))
      | _ => none
  | _, _ => none

def extDataWriteEvent (list : List Nat) (buf : Nat → UInt8) : Option (Except Nat (List Nat)) :=
  packWordsFrom id buf list.length list

def ntupleGetEvent (list : List Nat) (stage : Nat → UInt8) : Option (Except Nat (List Nat)) :=
  packWordsFrom (· &&& 0x3fffffff) stage list.length list

/-- `n` loop items are stored; the words that are left are returned. -/
def storeItems : Nat → List Nat → List Nat → (Nat → UInt8) → Option (List Nat × (Nat → UInt8))
  | 0, _, p, dest => some (p, dest)
  | n + 1, _ :: offset :: o, value :: p, dest => storeItems n o p (store32 dest offset value)
  | _, _, _, _ => none

/-- `extra` is what there is beyond the static items and the loops that were checked. -/
def packedFrom : Nat → List Nat → List Nat → Nat → (Nat → UInt8) → Option (Int × (Nat → UInt8))
  | _, [], p, _, dest => some (if p = [] then 0 else -4, dest)
  | fuel + 1, mark :: offset :: o, value :: p, extra, dest =>
    let dest := store32 dest offset value
    if mark &&& externalWriterMarkLoop = 0 then packedFrom fuel o p extra dest
    else
      match o with
      | maxLoops :: loopSize :: o =>
        let items := value * loopSize % 2 ^ 32
        if maxLoops < value then some (-2, dest)
        else if extra < items then some (-3, dest)
        else do
          let (p, dest) ← storeItems items o p dest
          packedFrom fuel (o.drop (2 * maxLoops * loopSize % 2 ^ 32)) p (extra - items) dest
      | _ => none
  | _, _, _, _, _ => none

def extDataWritePackedEvent (list : List Nat) (staticItems : Nat) (dest : Nat → UInt8)
    (words : List Nat) : Option (Int × (Nat → UInt8)) :=
  if words.length < staticItems then some (-1, dest)
  else packedFrom list.length list words (words.length - staticItems) dest

end Ucesb
