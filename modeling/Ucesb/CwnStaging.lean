import Ucesb.CwnSlots
import Ucesb.WriterMessages

namespace Ucesb

inductive PtrType
  | double
  | float
  | ushort
  | uchar
  | int
  | uint
  | uint64
  | intIndexCut
  | intIndex
deriving DecidableEq

structure NtupleMask where
  off : Nat
  valid : Nat
  overflow : Nat

structure NtupleItem where
  type : PtrType
  flags : Nat
  src : Nat
  ctrlMask : Option NtupleMask

def ntupleItemDoSqrt : Nat := 0x0004
def ntupleItemDoSqrtInv : Nat := 0x0008
/-- The flags from `NTUPLE_ITEM_TS_LO` to `NTUPLE_ITEM_MULT_NON0`. They have the same bits as the
`IND_ITEM_TYPE_` marks. -/
def ntupleItemMarks : Nat := 0x7f00

def indItemTypeFloatSqrt : Nat := 0x0008
def indItemTypeFloatInv : Nat := 0x0010

section Items

def sqrtInfo (flags : Nat) : Nat :=
  (if flags &&& ntupleItemDoSqrt ≠ 0 then indItemTypeFloatSqrt else 0) |||
    if flags &&& ntupleItemDoSqrtInv ≠ 0 then indItemTypeFloatSqrt ||| indItemTypeFloatInv else 0

def typeInfo (item : NtupleItem) (firstItem : Bool) : Except NtupleStop Nat :=
  match item.type with
  | .ushort => .ok indItemTypeIntUshort
  | .uchar => .ok indItemTypeIntUchar
  | .double => .ok (indItemTypeFloat ||| indItemTypeFloatDouble ||| sqrtInfo item.flags)
  | .float => .ok (indItemTypeFloat ||| sqrtInfo item.flags)
  | .int | .uint => .ok 0
  | .uint64 => .error .other
  | .intIndexCut => if firstItem then .ok indItemTypeIntAdd1 else .error .other
  | .intIndex => .ok indItemTypeIntAdd1

def firstbit (x : Nat) : Nat := ((List.range 32).find? x.testBit).getD (2 ^ 32 - 1)

def numbits (x : Nat) : Nat := (List.range 32).countP x.testBit

def overflowShift (isFloat : Bool) (overflow : Nat) : Except NtupleStop Nat :=
  if overflow = 0 then .ok 31
  else if numbits overflow ≠ 1 ∨ overflow = 1 ∨ !isFloat then .error .other
  else .ok (firstbit overflow - 1)

def maskWords (isFloat : Bool) (mask : NtupleMask) : Except NtupleStop (Nat × Nat) :=
  if mask.valid = 0 ∨ numbits mask.valid ≠ 1 then .error .other
  else do
    let overflow ← overflowShift isFloat mask.overflow
    errorIf (2 ^ 32 - 1 < mask.off) .other
    return (firstbit mask.valid ||| overflow <<< 5, mask.off)

def initCwnVar (firstItem : Bool) (ptr : Nat) (item : NtupleItem) : Except NtupleStop IndItem := do
  let info ← typeInfo item firstItem
  let info := info ||| item.flags &&& ntupleItemMarks
  errorIf (2 ^ 32 - 1 < item.src) .other
  match item.ctrlMask with
  | none => return ⟨info, item.src, 0, 0, ptr⟩
  | some mask =>
    let words ← maskWords (info &&& indItemTypeFloat != 0) mask
    return ⟨info ||| indItemTypeIsMasked, item.src, words.1, words.2, ptr⟩

def initCwnArray (firstItem : Bool) : Nat → List NtupleItem → Except NtupleStop (List IndItem)
  | _, [] => .ok []
  | ptr, item :: items => do
    let i ← initCwnVar firstItem ptr item
    let rest ← initCwnArray firstItem (ptr + 4) items
    return i :: rest

/-- The variables of an index variable, one after the other, and where the storage continues. -/
def initCwnVars : Bool → Nat → (vars : List (List NtupleItem)) →
    Except NtupleStop { r : List (List IndItem) × Nat // r.1.length = vars.length }
  | _, ptr, [] => .ok ⟨([], ptr), rfl⟩
  | firstItem, ptr, v :: vars => do
    let items ← initCwnArray firstItem ptr v
    let rest ← initCwnVars false (ptr + 4 * v.length) vars
    return ⟨(items :: rest.1.1, rest.1.2), congrArg (· + 1) rest.2⟩

def stagedEntries (tot : Nat) (vars : List (List IndItem)) : List (List IndItem) :=
  (List.range tot).map fun k => vars.map fun v => v.getD k ⟨0, 0, 0, 0, 0⟩

theorem stagedEntries_uniform {tot : Nat} {vars : List (List IndItem)} :
    ∀ e ∈ stagedEntries tot vars, e.length = vars.length := by
  intro e he
  obtain ⟨k, -, rfl⟩ := List.mem_map.mp he
  exact List.length_map _

theorem stagedEntries_length (tot : Nat) (vars : List (List IndItem)) :
    (stagedEntries tot vars).length = tot := by
  rw [stagedEntries, List.length_map, List.length_range]

def indexedOf (tot : Nat) (vars : List (List IndItem)) : IndexedItem :=
  ⟨vars.length, stagedEntries tot vars, stagedEntries_uniform⟩

end Items

/-- An index variable with the variables that it controls. All indices that are used have an item. -/
structure IndexVar1 where
  isArray : Bool
  src : Nat
  lengthMax : Nat
  lengthUsed : Nat
  vars : List (List NtupleItem)
  used : 0 < lengthUsed ∧ lengthUsed ≤ lengthMax ∧ lengthMax < 2 ^ 32
  filled : ∀ v ∈ vars, v.length = lengthUsed

/-- The same with two indices. Every first index has the offset of its limit. -/
structure IndexVar2 where
  isArray : Bool
  src : Nat
  lengthMax : Nat
  lengthMax2 : Nat
  lengthUsed : Nat
  lengthUsed2 : Nat
  limit2 : List Nat
  vars : List (List NtupleItem)
  used : 0 < lengthUsed ∧ lengthUsed ≤ lengthMax ∧ lengthMax < 2 ^ 32
  used2 : 0 < lengthUsed2 ∧ lengthUsed2 ≤ lengthMax2 ∧ lengthMax2 < 2 ^ 32
  /-- The items are counted in 32 bits. -/
  tot : lengthUsed * lengthUsed2 < 2 ^ 32
  limits : limit2.length = lengthUsed
  filled : ∀ v ∈ vars, v.length = lengthUsed * lengthUsed2
  nonempty : 0 < vars.length

inductive StageItem
  | plain (item : NtupleItem)
  | index1 (v : IndexVar1)
  | index2 (v : IndexVar2)

def StageItem.vars : StageItem → List (List NtupleItem)
  | .plain _ => []
  | .index1 v => v.vars
  | .index2 v => v.vars

/-- The items, block by block. They are counted in 32 bits. All elements of a variable have a mask,
or none has. -/
structure StageItems where
  items : List StageItem
  count : items.length < 2 ^ 32
  masked : ∀ item ∈ items, ∀ v ∈ item.vars, ∀ i ∈ v, ∀ j ∈ v,
    i.ctrlMask.isSome = j.ctrlMask.isSome

section Storage

/-- What `storage_size` counts: bytes, the words of information and the items of the variables that
are not controlled, and the index variables of each kind. -/
structure StorageSize where
  size : Nat
  infoSlots : Nat
  itemsPerEntry : Nat
  indexVars : Nat
  arrayVars : Nat
  array2Vars : Nat

def infoSlots (item : NtupleItem) : Nat := if item.ctrlMask.isSome then 4 else 2

def storageVars (tot : Nat) (vars : List (List NtupleItem)) : Nat := vars.length * (tot * 4)

def storageSize (c : StorageSize) : StageItem → Except NtupleStop StorageSize
  | .plain item => .ok { c with
      size := c.size + 4
      infoSlots := (c.infoSlots + infoSlots item) % 2 ^ 32
      itemsPerEntry := (c.itemsPerEntry + 1) % 2 ^ 32 }
  | .index1 v =>
    if !v.isArray then .ok { c with
      size := c.size + 4 + storageVars v.lengthUsed v.vars
      indexVars := (c.indexVars + 1) % 2 ^ 32 }
    else .ok { c with
      size := c.size + 4 + v.lengthUsed * 4 + storageVars v.lengthUsed v.vars
      arrayVars := (c.arrayVars + 1) % 2 ^ 32 }
  | .index2 v =>
    if !v.isArray then .error .other
    else .ok { c with
      size := c.size + 4 + 4 + 2 * v.lengthUsed * 4 +
        storageVars (v.lengthUsed * v.lengthUsed2) v.vars
      array2Vars := (c.array2Vars + 1) % 2 ^ 32 }

end Storage

section Init

structure CwnInit where
  ptr : Nat
  slotInd : Nat
  destInd : Nat
  nt : CwnTuple

def indexItemOf (v : IndexVar1) (dest : Nat) (vars : List (List IndItem)) : IndexItem where
  item := indexedOf v.lengthUsed vars
  itemsMax := v.lengthMax
  itemsUsed := v.lengthUsed
  dest := dest
  srcOffset := v.src
  alloc := stagedEntries_length _ _

def arrayItemOf (v : IndexVar1) (dest : Nat) (vars : List (List IndItem)) : ArrayItem where
  item := indexedOf v.lengthUsed vars
  itemsMax := v.lengthMax
  itemsUsed := v.lengthUsed
  dest := dest
  srcBitsOffset := v.src
  alloc := stagedEntries_length _ _
  width := Nat.lt_of_le_of_lt v.used.2.1 v.used.2.2

def array2ItemOf (v : IndexVar2) (dest dest2 : Nat) (vars : List (List IndItem))
    (h : vars.length = v.vars.length) : Array2Item where
  item := indexedOf (v.lengthUsed * v.lengthUsed2) vars
  itemsMax := v.lengthMax
  itemsUsed := v.lengthUsed
  itemsMax2 := v.lengthMax2
  itemsUsed2 := v.lengthUsed2
  dest := dest
  dest2 := dest2
  srcBitsOffset := v.src
  numItems2Offset := v.limit2
  alloc := stagedEntries_length _ _
  alloc2 := v.limits
  vars := Nat.lt_of_lt_of_eq v.nonempty h.symm

/-- `init_cwn` for an item of a block. The place of an index variable comes before that of the
variables that it controls, for an array with the indices between. -/
def initCwn (s : CwnInit) : StageItem → Except NtupleStop CwnInit
  | .plain item => do
    let i ← initCwnVar false s.ptr item
    return { ptr := s.ptr + 4
             slotInd := (s.slotInd + infoSlots item) % 2 ^ 32
             destInd := (s.destInd + 1) % 2 ^ 32
             nt := { s.nt with globalArray := s.nt.globalArray ++ [i] } }
  | .index1 v => do
    errorIf (2 ^ 32 - 1 < v.src) .other
    if !v.isArray then
      let vars ← initCwnVars true (s.ptr + 4) v.vars
      let a := indexItemOf v s.ptr vars.1.1
      return { s with ptr := vars.1.2, nt := { s.nt with indexItems := s.nt.indexItems ++ [a] } }
    else
      let vars ← initCwnVars true (s.ptr + 4 + v.lengthUsed * 4) v.vars
      let a := arrayItemOf v s.ptr vars.1.1
      return { s with ptr := vars.1.2, nt := { s.nt with arrayItems := s.nt.arrayItems ++ [a] } }
  | .index2 v => do
    errorIf (!v.isArray) .other
    errorIf (2 ^ 32 - 1 < v.src) .other
    let ptr := s.ptr + 4 + v.lengthUsed * 4 + v.lengthUsed * 4
    let vars ← initCwnVars true (ptr + 4) v.vars
    let a := array2ItemOf v ptr s.ptr vars.1.1 vars.2
    return { s with ptr := vars.1.2, nt := { s.nt with array2Items := s.nt.array2Items ++ [a] } }

end Init

section Staged

theorem initCwnVars_ptr {tot ptr : Nat} {firstItem : Bool} {vars : List (List NtupleItem)}
    {r : { r : List (List IndItem) × Nat // r.1.length = vars.length }}
    (hfilled : ∀ v ∈ vars, v.length = tot) (h : initCwnVars firstItem ptr vars = .ok r) :
    r.1.2 = ptr + storageVars tot vars := by
  induction vars generalizing firstItem ptr with
  | nil =>
    cases h
    simp [storageVars]
  | cons v vars ih =>
    obtain ⟨items, -, h⟩ := bind_eq_ok.mp h
    obtain ⟨rest, hrest, h⟩ := bind_eq_ok.mp h
    cases h
    have hptr := ih (fun w hw => hfilled w (List.mem_cons_of_mem _ hw)) hrest
    change rest.1.2 = _
    rw [hptr, hfilled v List.mem_cons_self]
    simp only [storageVars, List.length_cons, Nat.add_one_mul]
    omega

def IndexItem.storageWords (a : IndexItem) : Nat := 1 + a.itemsUsed * a.item.itemsPerEntry

def ArrayItem.storageWords (a : ArrayItem) : Nat :=
  1 + a.itemsUsed + a.itemsUsed * a.item.itemsPerEntry

def Array2Item.storageWords (a : Array2Item) : Nat :=
  2 + 2 * a.itemsUsed + a.itemsUsed * a.itemsUsed2 * a.item.itemsPerEntry

def CwnTuple.storageWords (nt : CwnTuple) : Nat :=
  nt.globalArray.length + (nt.indexItems.map IndexItem.storageWords).sum +
    (nt.arrayItems.map ArrayItem.storageWords).sum +
    (nt.array2Items.map Array2Item.storageWords).sum

structure CwnTuple.Used (nt : CwnTuple) : Prop where
  index : ∀ a ∈ nt.indexItems, 0 < a.itemsUsed
  array : ∀ a ∈ nt.arrayItems, 0 < a.itemsUsed
  array2 : ∀ a ∈ nt.array2Items,
    0 < a.itemsUsed ∧ 0 < a.itemsUsed * a.itemsUsed2 ∧ a.itemsUsed * a.itemsUsed2 < 2 ^ 32

structure StagedSoFar (n : Nat) (c : StorageSize) (s : CwnInit) : Prop where
  size : c.size = s.ptr
  words : s.ptr = 4 * s.nt.storageWords
  slots : c.infoSlots = s.slotInd
  dests : c.itemsPerEntry = s.destInd
  index : c.indexVars = s.nt.indexItems.length % 2 ^ 32 ∧ s.nt.indexItems.length ≤ n
  array : c.arrayVars = s.nt.arrayItems.length % 2 ^ 32 ∧ s.nt.arrayItems.length ≤ n
  array2 : c.array2Vars = s.nt.array2Items.length % 2 ^ 32 ∧ s.nt.array2Items.length ≤ n
  used : s.nt.Used

variable {n : Nat} {c c' : StorageSize} {s s' : CwnInit}

theorem mod_succ {a l : Nat} (h : a = l % 2 ^ 32) : (a + 1) % 2 ^ 32 = (l + 1) % 2 ^ 32 := by omega

theorem StagedSoFar.plain {item : NtupleItem} (h : StagedSoFar n c s)
    (hc : storageSize c (.plain item) = .ok c') (hs : initCwn s (.plain item) = .ok s') :
    StagedSoFar (n + 1) c' s' := by
  cases hc
  obtain ⟨i, -, hs⟩ := bind_eq_ok.mp hs
  cases hs
  obtain ⟨hsize, hwords, hslots, hdests, hindex, harray, harray2, hused⟩ := h
  refine ⟨?_, ?_, ?_, ?_, ⟨hindex.1, hindex.2.trans (Nat.le_succ n)⟩, ⟨harray.1, harray.2.trans (Nat.le_succ n)⟩, ⟨harray2.1, harray2.2.trans (Nat.le_succ n)⟩,
    ⟨hused.1, hused.2, hused.3⟩⟩
  · rw [hsize]
  · simp only [CwnTuple.storageWords, List.length_append, List.length_singleton] at hwords ⊢
    omega
  · rw [hslots]
  · rw [hdests]

theorem StagedSoFar.index1 {v : IndexVar1} (h : StagedSoFar n c s)
    (hc : storageSize c (.index1 v) = .ok c') (hs : initCwn s (.index1 v) = .ok s') :
    StagedSoFar (n + 1) c' s' := by
  obtain ⟨hsize, hwords, hslots, hdests, hindex, harray, harray2, hused⟩ := h
  obtain ⟨-, -, hs⟩ := bind_eq_ok.mp hs
  unfold storageSize at hc
  dsimp only at hc
  split at hc
  · next hkind =>
    cases hc
    rw [if_pos hkind] at hs
    obtain ⟨vars, hvars, hs⟩ := bind_eq_ok.mp hs
    cases hs
    have hptr := initCwnVars_ptr v.filled hvars
    refine ⟨?_, ?_, hslots, hdests, ⟨?_, ?_⟩, ⟨harray.1, harray.2.trans (Nat.le_succ n)⟩, ⟨harray2.1, harray2.2.trans (Nat.le_succ n)⟩,
      ⟨?_, hused.2, hused.3⟩⟩
    · rw [hptr, hsize]
    · rw [hptr]
      simp only [CwnTuple.storageWords, List.map_append, List.map_singleton, List.sum_append,
        List.sum_singleton, IndexItem.storageWords, indexItemOf, indexedOf, vars.2,
        storageVars] at hwords ⊢
      have hcomm : v.vars.length * (v.lengthUsed * 4) = 4 * (v.lengthUsed * v.vars.length) := by
        ring
      omega
    · rw [List.length_append, List.length_singleton]
      exact mod_succ hindex.1
    · rw [List.length_append, List.length_singleton]
      omega
    · intro a ha
      rcases List.mem_append.mp ha with ha | ha
      · exact hused.index a ha
      · cases List.mem_singleton.mp ha
        exact v.used.1
  · next hkind =>
    cases hc
    rw [if_neg hkind] at hs
    obtain ⟨vars, hvars, hs⟩ := bind_eq_ok.mp hs
    cases hs
    have hptr := initCwnVars_ptr v.filled hvars
    refine ⟨?_, ?_, hslots, hdests, ⟨hindex.1, hindex.2.trans (Nat.le_succ n)⟩, ⟨?_, ?_⟩, ⟨harray2.1, harray2.2.trans (Nat.le_succ n)⟩,
      ⟨hused.1, ?_, hused.3⟩⟩
    · rw [hptr, hsize]
    · rw [hptr]
      simp only [CwnTuple.storageWords, List.map_append, List.map_singleton, List.sum_append,
        List.sum_singleton, ArrayItem.storageWords, arrayItemOf, indexedOf, vars.2,
        storageVars] at hwords ⊢
      have hcomm : v.vars.length * (v.lengthUsed * 4) = 4 * (v.lengthUsed * v.vars.length) := by
        ring
      omega
    · rw [List.length_append, List.length_singleton]
      exact mod_succ harray.1
    · rw [List.length_append, List.length_singleton]
      omega
    · intro a ha
      rcases List.mem_append.mp ha with ha | ha
      · exact hused.array a ha
      · cases List.mem_singleton.mp ha
        exact v.used.1

theorem StagedSoFar.index2 {v : IndexVar2} (h : StagedSoFar n c s)
    (hc : storageSize c (.index2 v) = .ok c') (hs : initCwn s (.index2 v) = .ok s') :
    StagedSoFar (n + 1) c' s' := by
  obtain ⟨hsize, hwords, hslots, hdests, hindex, harray, harray2, hused⟩ := h
  obtain ⟨-, -, hs⟩ := bind_eq_ok.mp hs
  obtain ⟨-, -, hs⟩ := bind_eq_ok.mp hs
  obtain ⟨vars, hvars, hs⟩ := bind_eq_ok.mp hs
  cases hs
  unfold storageSize at hc
  dsimp only at hc
  split at hc
  · cases hc
  · cases hc
    have hptr := initCwnVars_ptr v.filled hvars
    refine ⟨?_, ?_, hslots, hdests, ⟨hindex.1, hindex.2.trans (Nat.le_succ n)⟩, ⟨harray.1, harray.2.trans (Nat.le_succ n)⟩, ⟨?_, ?_⟩,
      ⟨hused.1, hused.2, ?_⟩⟩
    · simp only [hptr, hsize]
      omega
    · rw [hptr]
      simp only [CwnTuple.storageWords, List.map_append, List.map_singleton, List.sum_append,
        List.sum_singleton, Array2Item.storageWords, array2ItemOf, indexedOf, vars.2,
        storageVars] at hwords ⊢
      have hcomm : v.vars.length * (v.lengthUsed * v.lengthUsed2 * 4) =
          4 * (v.lengthUsed * v.lengthUsed2 * v.vars.length) := by ring
      omega
    · rw [List.length_append, List.length_singleton]
      exact mod_succ harray2.1
    · rw [List.length_append, List.length_singleton]
      omega
    · intro a ha
      rcases List.mem_append.mp ha with ha | ha
      · exact hused.array2 a ha
      · cases List.mem_singleton.mp ha
        exact ⟨v.used.1, Nat.mul_pos v.used.1 v.used2.1, v.tot⟩

theorem StagedSoFar.run {items : List StageItem} (h : StagedSoFar n c s)
    (hc : items.foldlM storageSize c = .ok c') (hs : items.foldlM initCwn s = .ok s') :
    StagedSoFar (n + items.length) c' s' := by
  induction items generalizing n c s with
  | nil =>
    cases hc
    cases hs
    exact h
  | cons item items ih =>
    obtain ⟨c1, hc1, hc⟩ := bind_eq_ok.mp hc
    obtain ⟨s1, hs1, hs⟩ := bind_eq_ok.mp hs
    have hnext : StagedSoFar (n + 1) c1 s1 := by
      cases item with
      | plain item => exact h.plain hc1 hs1
      | index1 v => exact h.index1 hc1 hs1
      | index2 v => exact h.index2 hc1 hs1
    have hrest := ih hnext hc hs
    rwa [List.length_cons, Nat.add_comm items.length 1, ← Nat.add_assoc]

def storageStart : StorageSize := ⟨0, 0, 0, 0, 0, 0⟩

def initStart : CwnInit := ⟨0, 0, 0, ⟨[], [], [], []⟩⟩

theorem staged_start : StagedSoFar 0 storageStart initStart :=
  ⟨rfl, rfl, rfl, rfl, ⟨rfl, Nat.le_refl _⟩, ⟨rfl, Nat.le_refl _⟩, ⟨rfl, Nat.le_refl _⟩,
    ⟨nofun, nofun, nofun⟩⟩

end Staged

end Ucesb
