import Ucesb.NativeWords
import Ucesb.PackList

namespace Ucesb

def indItemTypeFloat : Nat := 0x0002
def indItemTypeIsMasked : Nat := 0x0004
def indItemTypeFloatDouble : Nat := 0x0001
def indItemTypeIntAdd1 : Nat := 0x0001
def indItemTypeIntUshort : Nat := 0x0008
def indItemTypeIntUchar : Nat := 0x0010
def indItemTypeIntIndexCut : Nat := 0x0020

def externalWriterMarkClearZero : Nat := 0x40000000
def externalWriterMarkClearNan : Nat := 0
def externalWriterMarkArrayInd1 : Nat := 0x20000000
def externalWriterMarkArrayMind : Nat := 0x10000000
def externalWriterMarkItemIndex : Nat := 0x08000000
def externalWriterMarkItemEndnum : Nat := 0x04000000
def externalWriterMarkCanary : Nat := 0x00a50000

/-- The type bits of integers that have a mark of their own, with the mark. -/
def intMarks : List (Nat × Nat) :=
  [(0x0080, 0x02000000), (0x0040, 0x01000000), (0x0100, 0x00000100), (0x0200, 0x00000200),
    (0x0400, 0x00000400), (0x0800, 0x00000800), (0x1000, 0x00001000), (0x2000, 0x00004000),
    (0x4000, 0x00002000)]

/-- One variable. It is at `off` in the event structure, and at `dest` in the ntuple. -/
structure IndItem where
  info : Nat
  off : Nat
  maskInfo : Nat
  maskOff : Nat
  dest : Nat
deriving DecidableEq

/-- The floating point operations: the word for what is stored, what is stored for a word. -/
structure FloatOps where
  word : Nat → Nat → Nat
  stored : Nat → Nat → Nat
  finite : Nat → Bool

structure IndexedItem where
  itemsPerEntry : Nat
  entries : List (List IndItem)
  uniform : ∀ e ∈ entries, e.length = itemsPerEntry
deriving DecidableEq

structure IndexItem where
  item : IndexedItem
  itemsMax : Nat
  itemsUsed : Nat
  dest : Nat
  srcOffset : Nat
  alloc : item.entries.length = itemsUsed
deriving DecidableEq

structure ArrayItem where
  item : IndexedItem
  itemsMax : Nat
  itemsUsed : Nat
  dest : Nat
  srcBitsOffset : Nat
  alloc : item.entries.length = itemsUsed
  width : itemsUsed < 2 ^ 32
deriving DecidableEq

structure Array2Item where
  item : IndexedItem
  itemsMax : Nat
  itemsUsed : Nat
  itemsMax2 : Nat
  itemsUsed2 : Nat
  dest : Nat
  dest2 : Nat
  srcBitsOffset : Nat
  numItems2Offset : List Nat
  alloc : item.entries.length = itemsUsed * itemsUsed2
  alloc2 : numItems2Offset.length = itemsUsed
  /-- There is a variable, which has the limits. -/
  vars : 0 < item.itemsPerEntry

structure CwnTuple where
  globalArray : List IndItem
  indexItems : List IndexItem
  arrayItems : List ArrayItem
  array2Items : List Array2Item

def concatSome {α β : Type} (f : α → Option (List β)) : List α → Option (List β)
  | [] => some []
  | a :: as => do
    let bs ← f a
    let rest ← concatSome f as
    some (bs ++ rest)

section Fill

def IndItem.is (i : IndItem) (flag : Nat) : Bool := i.info &&& flag != 0

def IndItem.size (i : IndItem) : Nat :=
  if i.is indItemTypeFloat then if i.is indItemTypeFloatDouble then 8 else 4
  else if i.is indItemTypeIntUshort then 2
  else if !i.is indItemTypeIntUchar then 4
  else 1

def IndItem.maskBitValid (i : IndItem) : Nat := 1 <<< (i.maskInfo &&& 0x1f)

def IndItem.maskBitOverflow (i : IndItem) : Nat := 2 <<< (i.maskInfo >>> 5 &&& 0x1f) % 2 ^ 32

def IndItem.maskValid (mem : Nat → UInt8) (i : IndItem) : Bool :=
  !i.is indItemTypeIsMasked || loadN mem i.maskOff 4 &&& i.maskBitValid != 0

def IndItem.maskOfl (mem : Nat → UInt8) (i : IndItem) : Bool :=
  i.is indItemTypeIsMasked && loadN mem i.maskOff 4 &&& i.maskBitOverflow != 0

def IndItem.intVal (mem : Nat → UInt8) (i : IndItem) : Nat :=
  (loadN mem i.off i.size + (i.info &&& indItemTypeIntAdd1)) % 2 ^ 32

def IndItem.word (ops : FloatOps) (mem : Nat → UInt8) (i : IndItem) : Nat :=
  if i.is indItemTypeFloat then
    if !i.maskValid mem then if i.maskOfl mem then 0x7f800000 else 0x7fc00000
    else ops.word i.info (loadN mem i.off i.size)
  else if !i.maskValid mem then 0
  else i.intVal mem

def IndItem.cut (mem : Nat → UInt8) (limitIndex : Nat) (i : IndItem) : Bool :=
  !i.is indItemTypeFloat && limitIndex != 0 && i.is indItemTypeIntIndexCut &&
    decide (limitIndex < i.intVal mem)

/-- The words of one entry; `some none` ends the list before the entry. Only its first item may do
that. -/
def cwnFillEntry (ops : FloatOps) (mem : Nat → UInt8) (limitIndex : Nat) (first : Bool) :
    List IndItem → Option (Option (List Nat))
  | [] => some (some [])
  | i :: items =>
    if i.cut mem limitIndex then if first then some none else none
    else
      (cwnFillEntry ops mem limitIndex false items).map fun r => r.map (i.word ops mem :: ·)

def cwnFillIndexedItem (ops : FloatOps) (mem : Nat → UInt8) (limitIndex : Nat) :
    List (List IndItem) → Option (Nat × List Nat)
  | [] => some (0, [])
  | e :: entries => do
    let r ← cwnFillEntry ops mem limitIndex true e
    match r with
    | none => some (0, [])
    | some words =>
      let (k, rest) ← cwnFillIndexedItem ops mem limitIndex entries
      some (k + 1, words ++ rest)

def cwnFillIndexItem (ops : FloatOps) (mem : Nat → UInt8) (a : IndexItem) : Option (List Nat) :=
  let items := loadN mem a.srcOffset 4
  if a.itemsMax < items then none
  else do
    let items := if a.itemsUsed < items then a.itemsUsed else items
    let (k, words) ← cwnFillIndexedItem ops mem a.itemsUsed (a.item.entries.take items)
    some (k :: words)

def skipLow (n : Nat) (s : Nat × Nat) : Nat × Nat :=
  if s.1 &&& (2 ^ n - 1) = 0 then (s.1 >>> n, s.2 + n) else s

def skipBytes : Nat → Nat × Nat → Nat × Nat
  | 0, s => s
  | fuel + 1, s => if s.1 &&& 0xff = 0 then skipBytes fuel (s.1 >>> 8, s.2 + 8) else s

def skipToBit (s : Nat × Nat) : Nat × Nat := skipLow 1 (skipLow 2 (skipLow 4 (skipBytes 8 s)))

/-- The indices of the bits of one `unsigned long`. -/
def scanLong (itemsUsed itemsMax : Nat) : Nat → Nat × Nat → Option (List Nat)
  | 0, _ => some []
  | fuel + 1, s =>
    if s.1 = 0 then some []
    else
      let (bits, index) := skipToBit s
      if itemsUsed ≤ index then if index < itemsMax then some [] else none
      else (scanLong itemsUsed itemsMax fuel (bits >>> 1, index + 1)).map (index :: ·)

/-- The indices of all bits, which are in `n` more of them. -/
def scanBits (mem : Nat → UInt8) (srcBits itemsUsed itemsMax : Nat) : Nat → Nat → Option (List Nat)
  | 0, _ => some []
  | n + 1, indexBase => do
    let here ← scanLong itemsUsed itemsMax 64 (loadN mem (srcBits + indexBase / 8) 8, indexBase)
    let rest ← scanBits mem srcBits itemsUsed itemsMax n (indexBase + 64)
    some (here ++ rest)

def longCount (itemsUsed : Nat) : Nat := (itemsUsed + 63) / 64

def cwnFillEntries (ops : FloatOps) (mem : Nat → UInt8) (entries : List (List IndItem))
    (n offset : Nat) : Option (List Nat) :=
  if offset + n ≤ entries.length then
    (cwnFillIndexedItem ops mem 0 ((entries.drop offset).take n)).map Prod.snd
  else none

def cwnFillArrayItem (ops : FloatOps) (mem : Nat → UInt8) (a : ArrayItem) : Option (List Nat) := do
  let indices ← scanBits mem a.srcBitsOffset a.itemsUsed a.itemsMax (longCount a.itemsUsed) 0
  let words ← concatSome (fun index =>
    (cwnFillEntries ops mem a.item.entries 1 index).map ((index + 1) :: ·)) indices
  some (indices.length :: words)

def scanEnds (mem : Nat → UInt8) (numItems2Offset : List Nat) :
    List Nat → Nat → Option (List (Nat × Nat))
  | [], _ => some []
  | index :: indices, items1 => do
    let offset ← numItems2Offset[index]?
    let items1 := (items1 + loadN mem offset 4) % 2 ^ 32
    let rest ← scanEnds mem numItems2Offset indices items1
    some ((index, items1) :: rest)

def cwnFillByEnds (ops : FloatOps) (mem : Nat → UInt8) (a : Array2Item) :
    List (Nat × Nat) → Nat → Option (List Nat)
  | [], _ => some []
  | (index, last) :: ends, start => do
    let words ← cwnFillEntries ops mem a.item.entries ((last + 2 ^ 32 - start) % 2 ^ 32)
      (index * a.itemsUsed2 % 2 ^ 32)
    let rest ← cwnFillByEnds ops mem a ends last
    some (words ++ rest)

def cwnFillArray2Item (ops : FloatOps) (mem : Nat → UInt8) (a : Array2Item) :
    Option (List Nat) := do
  let indices ← scanBits mem a.srcBitsOffset a.itemsUsed a.itemsMax (longCount a.itemsUsed) 0
  let ends ← scanEnds mem a.numItems2Offset indices 0
  let items1 := (ends.map Prod.snd).getLast?.getD 0
  if a.itemsMax * a.itemsMax2 % 2 ^ 32 < items1 then none
  else
    let words ← cwnFillByEnds ops mem a ends 0
    some (ends.length :: ends.flatMap (fun e => [e.1 + 1, e.2]) ++ items1 :: words)

def cwnFill (ops : FloatOps) (nt : CwnTuple) (mem : Nat → UInt8) : Option (List Nat) := do
  let global ← cwnFillEntries ops mem [nt.globalArray] 1 0
  let index ← concatSome (cwnFillIndexItem ops mem) nt.indexItems
  let array ← concatSome (cwnFillArrayItem ops mem) nt.arrayItems
  let array2 ← concatSome (cwnFillArray2Item ops mem) nt.array2Items
  some (global ++ index ++ array ++ array2)

end Fill

section Ptrs

def destOffset (dest mark : Nat) : List Nat :=
  [mark ||| externalWriterMarkCanary, dest % 2 ^ 32]

def destInt (dest mark : Nat) : List Nat := destOffset dest (mark ||| externalWriterMarkClearZero)

def destFloat (dest : Nat) : List Nat := destOffset dest externalWriterMarkClearNan

/-- `dest_int_ctrl` and `ctrl_over`, with what is between them. -/
def destIntCtrl (dest maxItems mark : Nat) (body : List Nat) : Option (List Nat) :=
  let oneIterItems := body.length / maxItems / 2
  if maxItems = 0 then none
  else if 2 * oneIterItems * maxItems ≠ body.length then none
  else some (destOffset dest (mark ||| externalWriterMarkLoop ||| externalWriterMarkClearZero) ++
    maxItems :: oneIterItems :: body)

def IndItem.mark (i : IndItem) : Nat :=
  intMarks.foldl (fun mark m => if i.is m.1 then mark ||| m.2 else mark) 0

def IndItem.ptrs (i : IndItem) : List Nat :=
  if i.is indItemTypeFloat then destFloat i.dest else destInt i.dest i.mark

def cwnPtrsIndexedItem (entries : List (List IndItem)) : List Nat :=
  entries.flatMap fun e => e.flatMap IndItem.ptrs

def cwnPtrsIndexItem (a : IndexItem) : Option (List Nat) :=
  destIntCtrl a.dest a.itemsUsed 0 (cwnPtrsIndexedItem a.item.entries)

def arrayPtrs (dest : Nat) (entries : List (List IndItem)) : List Nat :=
  entries.zipIdx.flatMap fun e =>
    destInt (dest + 4 * (e.2 + 1)) externalWriterMarkItemIndex ++ cwnPtrsIndexedItem [e.1]

def cwnPtrsArrayItem (a : ArrayItem) : Option (List Nat) :=
  destIntCtrl a.dest a.itemsUsed externalWriterMarkArrayInd1 (arrayPtrs a.dest a.item.entries)

def endPtrs (dest2 usedItems : Nat) : List Nat :=
  (List.range usedItems).flatMap fun k =>
    destInt (dest2 + 4 * (k + 1)) externalWriterMarkItemIndex ++
      destInt (dest2 + 4 * (k + 1 + usedItems)) externalWriterMarkItemEndnum

def cwnPtrsArray2Item (a : Array2Item) : Option (List Nat) := do
  let ends ← destIntCtrl a.dest2 a.itemsUsed externalWriterMarkArrayMind
    (endPtrs a.dest2 a.itemsUsed)
  let items ← destIntCtrl a.dest (a.itemsUsed * a.itemsUsed2 % 2 ^ 32) 0
    (cwnPtrsIndexedItem a.item.entries)
  some (ends ++ items)

def cwnPtrs (nt : CwnTuple) : Option (List Nat) := do
  let index ← concatSome cwnPtrsIndexItem nt.indexItems
  let array ← concatSome cwnPtrsArrayItem nt.arrayItems
  let array2 ← concatSome cwnPtrsArray2Item nt.array2Items
  let list := cwnPtrsIndexedItem [nt.globalArray] ++ index ++ array ++ array2
  if 2 ^ 32 - 1 < 4 * list.length then none else some list

end Ptrs

section Get

def setupMaskList (e : List IndItem) : List Nat :=
  (((e.filter (·.is indItemTypeIsMasked)).map IndItem.maskOff).eraseDups).mergeSort

def orMask (i : IndItem) (bits : Nat) : MemUpdate := ⟨i.maskOff, 4, fun mask => mask ||| bits⟩

def storeItem (i : IndItem) (value : Nat) : MemUpdate := ⟨i.off, i.size, fun _ => value⟩

def cwnGetItem (ops : FloatOps) (i : IndItem) (value : Nat) : List MemUpdate :=
  if i.is indItemTypeFloat then
    if !i.is indItemTypeIsMasked then [storeItem i (ops.stored i.info value)]
    else if !ops.finite value then
      if value = 0x7fc00000 then [] else [orMask i i.maskBitOverflow]
    else [orMask i i.maskBitValid, storeItem i (ops.stored i.info value)]
  else
    (if i.is indItemTypeIsMasked then [orMask i (if value ≠ 0 then i.maskBitValid else 0)] else []) ++
      [storeItem i ((value + 2 ^ 32 - (i.info &&& indItemTypeIntAdd1)) % 2 ^ 32)]

def cwnGetItems (ops : FloatOps) :
    List IndItem → List Nat → Option (List MemUpdate × List Nat)
  | [], p => some ([], p)
  | i :: items, value :: p =>
    (cwnGetItems ops items p).map fun r => (cwnGetItem ops i value ++ r.1, r.2)
  | _ :: _, [] => none

def cwnGetIndexedItem (ops : FloatOps) (masks : List Nat) (entries : List (List IndItem))
    (p : List Nat) : Option (List MemUpdate × List Nat) :=
  (cwnGetItems ops entries.flatten p).map fun r =>
    (masks.map (fun off => ⟨off, 4, fun _ => 0⟩) ++ r.1, r.2)

def cwnGetIndexItem (ops : FloatOps) (a : IndexItem) :
    List Nat → Option (List MemUpdate × List Nat)
  | [] => none
  | items :: p =>
    if a.itemsUsed < items then none
    else
      let entries := a.item.entries.take items
      (cwnGetIndexedItem ops (entries.flatMap setupMaskList) entries p).map fun r =>
        (⟨a.srcOffset, 4, fun _ => items⟩ :: r.1, r.2)

def setBit (srcBits index : Nat) : MemUpdate :=
  ⟨srcBits + 8 * (index / 64), 8, fun bits => bits ||| 1 <<< (index % 64)⟩

def cwnGetArrayEntries (ops : FloatOps) (a : ArrayItem) :
    Nat → List Nat → Option (List MemUpdate × List Nat)
  | 0, p => some ([], p)
  | _ + 1, [] => none
  | k + 1, word :: p =>
    if a.itemsUsed < word then none
    else do
      let index := (word + 2 ^ 32 - 1) % 2 ^ 32
      let e ← a.item.entries[index]?
      let (us, p) ← cwnGetIndexedItem ops (setupMaskList e) [e] p
      let (rest, p) ← cwnGetArrayEntries ops a k p
      some (setBit a.srcBitsOffset index :: us ++ rest, p)

def cwnGetArrayItem (ops : FloatOps) (a : ArrayItem) :
    List Nat → Option (List MemUpdate × List Nat)
  | [] => none
  | items :: p => cwnGetArrayEntries ops a items p

def getEach {α : Type} (get : α → List Nat → Option (List MemUpdate × List Nat)) :
    List α → List Nat → Option (List MemUpdate × List Nat)
  | [], p => some ([], p)
  | a :: as, p => do
    let (us, p) ← get a p
    let (rest, p) ← getEach get as p
    some (us ++ rest, p)

/-- What `unpack_event` gets. There is nothing for doubly indexed arrays. -/
def cwnGet (ops : FloatOps) (nt : CwnTuple) (words : List Nat) :
    Option (List MemUpdate × List Nat) := do
  let (global, p) ← cwnGetIndexedItem ops [] [nt.globalArray] words
  let (index, p) ← getEach (cwnGetIndexItem ops) nt.indexItems p
  let (array, p) ← getEach (cwnGetArrayItem ops) nt.arrayItems p
  some (global ++ index ++ array, p)

def unpackEvent (ops : FloatOps) (nt : CwnTuple) (base : Nat → UInt8) (words : List Nat) :
    Option (Nat → UInt8) := do
  let (updates, p) ← cwnGet ops nt words
  if p ≠ [] then none else some (runUpdates base updates)

end Get

end Ucesb
