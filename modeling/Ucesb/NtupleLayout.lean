import Ucesb.CwnStaging
import Mathlib.Data.List.Dedup
import Mathlib.Data.List.Sort
import Mathlib.Logic.Function.Basic

namespace Ucesb

/-- An error message, an assertion, or an access outside of what was allocated. -/
inductive LayoutStop
  | rejected
  | assertion
  | outside
deriving DecidableEq

def ntupleItemHasLimit : Nat := 0x0001
def ntupleItemIsArrayMask : Nat := 0x0002
def ntupleItemOmit : Nat := 0x0080

structure ListedItem extends NtupleItem where
  name : String
  block : String
  indexVar : String
  index : Nat
  /-- The offset in the event structure. -/
  ptrLimit2 : Option Nat
  maxLimit2 : Nat
  index2 : Nat
  limitMin : Nat
  limitMax : Nat

/-- `sni_ind2`. With one index only, `sni_ind1`, the second one is 0 of 1. -/
structure SniInd where
  one : Nat
  two : Nat
deriving DecidableEq

def SniInd.tot (ind : SniInd) : Nat := ind.one * ind.two % 2 ^ 32

def SniInd.outside (ind lim : SniInd) : Bool := lim.one ≤ ind.one || lim.two ≤ ind.two

def SniInd.expandEnd (used ind : SniInd) : SniInd :=
  ⟨max used.one (ind.one + 1), max used.two (ind.two + 1)⟩

def SniInd.linIndex (ind lim : SniInd) : Nat := (ind.one * lim.two + ind.two) % 2 ^ 32

/-- All indices, in the order of `iter`. -/
def SniInd.all (lim : SniInd) : List SniInd :=
  (List.range lim.one).flatMap fun i => (List.range lim.two).map fun j => ⟨i, j⟩

structure IndexedVar where
  name : String
  items : SniInd → Option ListedItem

/-- `_info_slots_per_entry` and `_items_per_entry` -/
structure EntrySize where
  slots : Nat
  items : Nat
deriving Inhabited

structure StagedIndexVar where
  twoD : Bool
  item : ListedItem
  lengthMax : SniInd
  lengthUsed : SniInd
  vars : List IndexedVar
  writePtrs : EntrySize

inductive BlockItem
  | plain (item : ListedItem)
  | index (v : StagedIndexVar)

structure StagedBlock where
  name : String
  items : List BlockItem

section Insert

def IndexedVar.set (v : IndexedVar) (ind : SniInd) (item : ListedItem) : IndexedVar :=
  { v with items := Function.update v.items ind (some item) }

def insertVar (item : ListedItem) (ind : SniInd) : List IndexedVar → List IndexedVar
  | [] => [IndexedVar.set ⟨item.name, fun _ => none⟩ ind item]
  | v :: vars =>
    if v.name = item.name then v.set ind item :: vars else v :: insertVar item ind vars

def StagedIndexVar.insert (v : StagedIndexVar) (item : ListedItem) (ind : SniInd) :
    Except LayoutStop StagedIndexVar :=
  if ind.outside v.lengthMax then .error .rejected
  else .ok { v with
    lengthUsed := v.lengthUsed.expandEnd ind
    vars := insertVar item ind v.vars }

def upgradeVar (twoD : Bool) (indexItem item : ListedItem) : Except LayoutStop StagedIndexVar :=
  if indexItem.type ≠ .int ∧ indexItem.type ≠ .uint then .error .rejected
  else if indexItem.flags &&& ntupleItemHasLimit = 0 then .error .rejected
  else if indexItem.limitMin ≠ 0 then .error .rejected
  else .ok { twoD := twoD
             item := indexItem
             lengthMax := ⟨indexItem.limitMax, if twoD then item.maxLimit2 else 1⟩
             lengthUsed := ⟨0, 0⟩
             vars := []
             writePtrs := ⟨0, 0⟩ }

def findIndexVar (twoD : Bool) (name : String) :
    List BlockItem → Option (List BlockItem × StagedIndexVar × List BlockItem)
  | [] => none
  | .index v :: items =>
    if v.twoD = twoD ∧ v.item.name = name then some ([], v, items)
    else (findIndexVar twoD name items).map fun r => (.index v :: r.1, r.2)
  | .plain item :: items => (findIndexVar twoD name items).map fun r => (.plain item :: r.1, r.2)

def findPlain (name : String) :
    List BlockItem → Option (List BlockItem × ListedItem × List BlockItem)
  | [] => none
  | .plain item :: items =>
    if item.name = name then some ([], item, items)
    else (findPlain name items).map fun r => (.plain item :: r.1, r.2)
  | .index v :: items => (findPlain name items).map fun r => (.index v :: r.1, r.2)

def insertIndexVar (twoD : Bool) (item : ListedItem) (ind : SniInd) (items : List BlockItem) :
    Except LayoutStop (List BlockItem) :=
  match findIndexVar twoD item.indexVar items with
  | some (before, v, after) => do
    let v ← v.insert item ind
    return before ++ .index v :: after
  | none =>
    match findPlain item.indexVar items with
    | none => .error .rejected
    | some (before, indexItem, after) => do
      let v ← upgradeVar twoD indexItem item
      let v ← v.insert item ind
      return before ++ .index v :: after

def insertItem (item : ListedItem) (items : List BlockItem) : Except LayoutStop (List BlockItem) :=
  if item.indexVar ≠ "" then
    if item.ptrLimit2.isNone then insertIndexVar false item ⟨item.index, 0⟩ items
    else insertIndexVar true item ⟨item.index, item.index2⟩ items
  else .ok (items ++ [.plain item])

def insertBlock (item : ListedItem) : List StagedBlock → Except LayoutStop (List StagedBlock)
  | [] => do
    let items ← insertItem item []
    return [⟨item.block, items⟩]
  | b :: blocks =>
    if b.name = item.block then do
      let items ← insertItem item b.items
      return { b with items := items } :: blocks
    else do
      let blocks ← insertBlock item blocks
      return b :: blocks

/-- The first part of `stage`: the blocks of a listing. -/
def stageListing (listing : List ListedItem) : Except LayoutStop (List StagedBlock) :=
  listing.foldlM (fun blocks item =>
    if item.flags &&& ntupleItemOmit ≠ 0 then .ok blocks else insertBlock item blocks) []

end Insert

/-- An index variable as it is built: it controls something, and some indices are used. -/
structure StagedIndexVar.Built (v : StagedIndexVar) : Prop where
  type : v.item.type = .int ∨ v.item.type = .uint
  limit : v.item.flags &&& ntupleItemHasLimit ≠ 0
  used : 0 < v.lengthUsed.one ∧ v.lengthUsed.one ≤ v.lengthMax.one
  used2 : 0 < v.lengthUsed.two ∧ v.lengthUsed.two ≤ v.lengthMax.two
  oneD : v.twoD = false → v.lengthMax.two = 1
  vars : v.vars ≠ []

def BlockItem.Built : BlockItem → Prop
  | .plain _ => True
  | .index v => v.Built ∧ v.writePtrs = ⟨0, 0⟩

section Built

variable {v v' : StagedIndexVar} {item : ListedItem} {ind : SniInd}

theorem insertVar_ne_nil (item : ListedItem) (ind : SniInd) (vars : List IndexedVar) :
    insertVar item ind vars ≠ [] := by
  cases vars with
  | nil => exact List.cons_ne_nil _ _
  | cons v vars =>
    rw [insertVar]
    split <;> exact List.cons_ne_nil _ _

theorem StagedIndexVar.insert_built (h : v.insert item ind = .ok v')
    (hitem : v.item.type = .int ∨ v.item.type = .uint)
    (hlimit : v.item.flags &&& ntupleItemHasLimit ≠ 0)
    (hused : v.lengthUsed.one ≤ v.lengthMax.one) (hused2 : v.lengthUsed.two ≤ v.lengthMax.two)
    (honeD : v.twoD = false → v.lengthMax.two = 1) (hfresh : v.writePtrs = ⟨0, 0⟩) :
    v'.Built ∧ v'.writePtrs = ⟨0, 0⟩ := by
  unfold StagedIndexVar.insert at h
  split at h
  · cases h
  · next hinside =>
    cases h
    rw [SniInd.outside, Bool.or_eq_true, decide_eq_true_eq, decide_eq_true_eq, not_or] at hinside
    obtain ⟨hone, htwo⟩ := hinside
    refine ⟨⟨hitem, hlimit, ?_, ?_, honeD, insertVar_ne_nil _ _ _⟩, hfresh⟩
    · change 0 < max _ _ ∧ max _ _ ≤ v.lengthMax.one
      omega
    · change 0 < max _ _ ∧ max _ _ ≤ v.lengthMax.two
      omega

theorem findIndexVar_split {twoD : Bool} {name : String} {items before after : List BlockItem}
    (h : findIndexVar twoD name items = some (before, v, after)) :
    items = before ++ .index v :: after := by
  induction items generalizing before with
  | nil => cases h
  | cons i items ih =>
    cases i with
    | plain p =>
      obtain ⟨⟨rest, v', after'⟩, hrest, heq⟩ := Option.map_eq_some_iff.mp h
      cases heq
      rw [ih hrest, List.cons_append]
    | index w =>
      rw [findIndexVar] at h
      split at h
      · cases h
        rfl
      · obtain ⟨⟨rest, v', after'⟩, hrest, heq⟩ := Option.map_eq_some_iff.mp h
        cases heq
        rw [ih hrest, List.cons_append]

theorem findPlain_split {name : String} {items before after : List BlockItem}
    (h : findPlain name items = some (before, item, after)) :
    items = before ++ .plain item :: after := by
  induction items generalizing before with
  | nil => cases h
  | cons i items ih =>
    cases i with
    | index w =>
      obtain ⟨⟨rest, v', after'⟩, hrest, heq⟩ := Option.map_eq_some_iff.mp h
      cases heq
      rw [ih hrest, List.cons_append]
    | plain p =>
      rw [findPlain] at h
      split at h
      · cases h
        rfl
      · obtain ⟨⟨rest, v', after'⟩, hrest, heq⟩ := Option.map_eq_some_iff.mp h
        cases heq
        rw [ih hrest, List.cons_append]

theorem upgradeVar_insert_built {twoD : Bool} {indexItem : ListedItem}
    (hup : upgradeVar twoD indexItem item = .ok v) (h : v.insert item ind = .ok v') :
    v'.Built ∧ v'.writePtrs = ⟨0, 0⟩ := by
  unfold upgradeVar at hup
  split at hup
  · cases hup
  · next htype =>
    split at hup
    · cases hup
    · next hlimit =>
      split at hup
      · cases hup
      · cases hup
        refine StagedIndexVar.insert_built h ?_ hlimit (Nat.zero_le _) (Nat.zero_le _) ?_ rfl
        · exact or_iff_not_imp_left.mpr fun hint => not_not.mp fun huint => htype ⟨hint, huint⟩
        · rintro rfl
          rfl

theorem insertIndexVar_built {twoD : Bool} {items items' : List BlockItem}
    (h : insertIndexVar twoD item ind items = .ok items') (hbuilt : ∀ i ∈ items, i.Built) :
    ∀ i ∈ items', i.Built := by
  unfold insertIndexVar at h
  split at h
  · next before v after hfind =>
    obtain ⟨v', hinsert, h⟩ := bind_eq_ok.mp h
    cases h
    rw [findIndexVar_split hfind] at hbuilt
    obtain ⟨hv, hfresh⟩ : v.Built ∧ v.writePtrs = ⟨0, 0⟩ :=
      hbuilt (.index v) (List.mem_append_right _ List.mem_cons_self)
    have hv' := StagedIndexVar.insert_built hinsert hv.type hv.limit hv.used.2 hv.used2.2 hv.oneD hfresh
    intro i hi
    rcases List.mem_append.mp hi with hi | hi
    · exact hbuilt i (List.mem_append_left _ hi)
    · rcases List.mem_cons.mp hi with rfl | hi
      · exact hv'
      · exact hbuilt i (List.mem_append_right _ (List.mem_cons_of_mem _ hi))
  · split at h
    · cases h
    · next before p after hfind =>
      obtain ⟨v, hup, h⟩ := bind_eq_ok.mp h
      obtain ⟨v', hinsert, h⟩ := bind_eq_ok.mp h
      cases h
      rw [findPlain_split hfind] at hbuilt
      intro i hi
      rcases List.mem_append.mp hi with hi | hi
      · exact hbuilt i (List.mem_append_left _ hi)
      · rcases List.mem_cons.mp hi with rfl | hi
        · exact upgradeVar_insert_built hup hinsert
        · exact hbuilt i (List.mem_append_right _ (List.mem_cons_of_mem _ hi))

theorem insertItem_built {items items' : List BlockItem} (h : insertItem item items = .ok items')
    (hbuilt : ∀ i ∈ items, i.Built) : ∀ i ∈ items', i.Built := by
  unfold insertItem at h
  split at h
  · split at h
    · exact insertIndexVar_built h hbuilt
    · exact insertIndexVar_built h hbuilt
  · cases h
    intro i hi
    rcases List.mem_append.mp hi with hi | hi
    · exact hbuilt i hi
    · obtain rfl := List.mem_singleton.mp hi
      trivial

theorem insertBlock_built {blocks blocks' : List StagedBlock}
    (h : insertBlock item blocks = .ok blocks') (hbuilt : ∀ b ∈ blocks, ∀ i ∈ b.items, i.Built) :
    ∀ b ∈ blocks', ∀ i ∈ b.items, i.Built := by
  induction blocks generalizing blocks' with
  | nil =>
    obtain ⟨items, hitems, h⟩ := bind_eq_ok.mp h
    cases h
    intro b hb
    obtain rfl := List.mem_singleton.mp hb
    exact insertItem_built hitems nofun
  | cons b blocks ih =>
    obtain ⟨hfirst, hrest⟩ := List.forall_mem_cons.mp hbuilt
    rw [insertBlock] at h
    split at h
    · obtain ⟨items, hitems, h⟩ := bind_eq_ok.mp h
      cases h
      exact List.forall_mem_cons.mpr ⟨insertItem_built hitems hfirst, hrest⟩
    · obtain ⟨blocks1, hblocks, h⟩ := bind_eq_ok.mp h
      cases h
      exact List.forall_mem_cons.mpr ⟨hfirst, ih hblocks hrest⟩

theorem stageListing_built {listing : List ListedItem} {blocks : List StagedBlock}
    (h : stageListing listing = .ok blocks) : ∀ b ∈ blocks, ∀ i ∈ b.items, i.Built := by
  have hrun : ∀ start : List StagedBlock, (∀ b ∈ start, ∀ i ∈ b.items, i.Built) →
      listing.foldlM (fun blocks item =>
        if item.flags &&& ntupleItemOmit ≠ 0 then .ok blocks else insertBlock item blocks) start =
          .ok blocks → ∀ b ∈ blocks, ∀ i ∈ b.items, i.Built := by
    clear h
    induction listing with
    | nil =>
      intro start hstart h
      cases h
      exact hstart
    | cons item listing ih =>
      intro start hstart h
      rw [List.foldlM_cons] at h
      obtain ⟨next, hnext, h⟩ := bind_eq_ok.mp h
      refine ih next ?_ h
      split at hnext
      · cases hnext
        exact hstart
      · exact insertBlock_built hnext hstart
  exact hrun [] nofun h

end Built

section Storage

def EntrySize.add (size : EntrySize) (item : NtupleItem) : EntrySize :=
  ⟨(size.slots + infoSlots item) % 2 ^ 32, (size.items + 1) % 2 ^ 32⟩

def IndexedVar.limit2 (var : IndexedVar) (ind : SniInd) : Option Nat :=
  (var.items ind).bind ListedItem.ptrLimit2

def checkVarVectFilled (twoD : Bool) (var : IndexedVar) (used : SniInd) : Except LayoutStop Unit :=
  if used.all.all fun ind => (var.items ind).isSome &&
      (!twoD || ((var.limit2 ind).isSome && var.limit2 ind == var.limit2 ⟨ind.one, 0⟩)) then .ok ()
  else .error .rejected

def storageIndexedVar (v : StagedIndexVar) (c : EntrySize × Nat) (var : IndexedVar) :
    Except LayoutStop (EntrySize × Nat) := do
  errorIf (v.lengthMax.one * v.lengthMax.two < v.lengthUsed.tot) .assertion
  checkVarVectFilled v.twoD var v.lengthUsed
  match var.items ⟨0, 0⟩ with
  | none => .error .outside
  | some item => return (c.1.add item.toNtupleItem, c.2 + v.lengthUsed.tot * 4)

def StagedIndexVar.isArray (v : StagedIndexVar) : Bool :=
  v.item.flags &&& ntupleItemIsArrayMask != 0

def storageSizeIndex (v : StagedIndexVar) : Nat :=
  if v.twoD then 4 + 4 + if v.isArray then 2 * v.lengthUsed.one % 2 ^ 32 * 4 else 0
  else 4 + if v.isArray then v.lengthUsed.one * 4 else 0

def storageIndexVar (v : StagedIndexVar) (size : Nat) : Except LayoutStop (StagedIndexVar × Nat) := do
  let c ← v.vars.foldlM (storageIndexedVar v) (v.writePtrs, size + storageSizeIndex v)
  return ({ v with writePtrs := c.1 }, c.2)

/-- An item of `stage_ntuple_block::storage_size`. -/
def storageItem (c : StorageSize) :
    BlockItem → Except LayoutStop (StorageSize × BlockItem)
  | .plain item => .ok ({ c with
      size := c.size + 4
      infoSlots := (c.infoSlots + infoSlots item.toNtupleItem) % 2 ^ 32
      itemsPerEntry := (c.itemsPerEntry + 1) % 2 ^ 32 }, .plain item)
  | .index v => do
    errorIf (v.twoD ∧ !v.isArray) .rejected
    let (v', size) ← storageIndexVar v c.size
    return ({ c with
      size := size
      indexVars := if !v.isArray then (c.indexVars + 1) % 2 ^ 32 else c.indexVars
      arrayVars := if v.isArray ∧ !v.twoD then (c.arrayVars + 1) % 2 ^ 32 else c.arrayVars
      array2Vars := if v.twoD then (c.array2Vars + 1) % 2 ^ 32 else c.array2Vars }, .index v')

def storageItems : StorageSize → List BlockItem → Except LayoutStop (StorageSize × List BlockItem)
  | c, [] => .ok (c, [])
  | c, item :: items => do
    let (c, item) ← storageItem c item
    let (c, items) ← storageItems c items
    return (c, item :: items)

end Storage

section Memory

def storeWords (mem : List Nat) (k : Nat) : List Nat → Except LayoutStop (List Nat)
  | [] => .ok mem
  | w :: ws => if k < mem.length then storeWords (mem.set k w) (k + 1) ws else .error .outside

def loadInfo (mem : List Nat) (k : Nat) : Except LayoutStop Nat :=
  match mem[k]? with
  | some w => .ok w
  | none => .error .outside

/-- The arrays of an `indexed_item`. -/
structure IndexedMem where
  size : EntrySize
  infos : List Nat
  dests : List Nat
deriving Inhabited

/-- `indexed_item::alloc`, with what is in the memory that `new` returns. -/
def allocIndexed (fresh : Nat → Nat) (size : EntrySize) (mult : Nat) :
    Except LayoutStop IndexedMem := do
  let words := size.slots * mult % 2 ^ 32
  let infos ← storeWords ((List.range ((words + 2) % 2 ^ 32)).map fresh) words [0, 0]
  return ⟨size, infos, (List.range (size.items * mult % 2 ^ 32)).map fresh⟩

end Memory

section Layout

structure Branch where
  offset : Nat
  length : Nat
deriving DecidableEq

structure Layout where
  ptr : Nat
  branches : List Branch

structure TypeIndices where
  slotInd : Nat
  destInd : Nat

def Layout.hbname (s : Layout) (len : Nat) : Layout :=
  { s with branches := s.branches ++ [⟨s.ptr % 2 ^ 32, len % 2 ^ 32⟩] }

def Layout.book (s : Layout) (len : Nat) : Layout :=
  { s.hbname len with ptr := s.ptr + len }

def infoWords (item : NtupleItem) (i : IndItem) : List Nat :=
  if item.ctrlMask.isSome then [i.info, i.off, i.maskInfo, i.maskOff] else [i.info, i.off]

/-- `init_cwn_var`. The words and the place of an item are stored at its index. -/
def initVar (firstItem : Bool) (index lengthUsed : Nat) (mem : IndexedMem) (ind : TypeIndices)
    (s : Layout) (item : NtupleItem) : Except LayoutStop (IndexedMem × TypeIndices × Layout) := do
  let i ← (initCwnVar firstItem s.ptr item).mapError fun _ => .rejected
  let s := if index = 0 then s.hbname (4 * lengthUsed) else s
  let words := infoWords item i
  let infos ← storeWords mem.infos (index * mem.size.slots % 2 ^ 32 + ind.slotInd) words
  let dests ← storeWords mem.dests (index * mem.size.items % 2 ^ 32 + ind.destInd) [s.ptr]
  return ({ mem with infos := infos, dests := dests },
    ⟨(ind.slotInd + words.length) % 2 ^ 32, (ind.destInd + 1) % 2 ^ 32⟩,
    { s with ptr := s.ptr + 4 })

structure VarState where
  mem : IndexedMem
  numItems2Offset : List Nat
  indices : TypeIndices
  out : Layout

def setNumLimit2Offset (offsets : List Nat) (index offset : Nat) : Except LayoutStop (List Nat) :=
  match offsets[index]? with
  | none => .error .outside
  | some old =>
    if old ≠ 2 ^ 32 - 1 ∧ old ≠ offset then .error .rejected else .ok (offsets.set index offset)

/-- With two indices, the limit of the item has to be that of its first index. -/
def noteLimit2 (v : StagedIndexVar) (offsets : List Nat) (ind : SniInd) (item : ListedItem) :
    Except LayoutStop (List Nat) :=
  if v.twoD then setNumLimit2Offset offsets ind.one (item.ptrLimit2.getD 0 % 2 ^ 32)
  else .ok offsets

/-- `stage_ntuple_indexed_var::init_cwn`, for one index. -/
def initElement (v : StagedIndexVar) (var : IndexedVar) (firstItem : Bool) (base : TypeIndices)
    (st : VarState) (ind : SniInd) : Except LayoutStop VarState :=
  match var.items ind with
  | none => .error .outside
  | some item => do
    let offsets ← noteLimit2 v st.numItems2Offset ind item
    let (mem, indices, out) ← initVar firstItem (ind.linIndex v.lengthUsed) v.lengthUsed.tot st.mem
      base st.out item.toNtupleItem
    return ⟨mem, offsets, indices, out⟩

def initIndexedVars (v : StagedIndexVar) :
    Bool → List IndexedVar → VarState → Except LayoutStop VarState
  | _, [], st => .ok st
  | firstItem, var :: vars, st => do
    let st ← v.lengthUsed.all.foldlM (initElement v var firstItem st.indices) st
    initIndexedVars v false vars st

def initVars (fresh : Nat → Nat) (v : StagedIndexVar) (numItems2Offset : List Nat) (s : Layout) :
    Except LayoutStop VarState := do
  let mem ← allocIndexed fresh v.writePtrs v.lengthUsed.tot
  let st ← initIndexedVars v true v.vars ⟨mem, numItems2Offset, ⟨0, 0⟩, s⟩
  errorIf (st.mem.size.slots ≠ st.indices.slotInd) .assertion
  errorIf (st.mem.size.items ≠ st.indices.destInd) .assertion
  return st

end Layout

section Masks

/-- The masks of an entry. What follows two words is read before it is known whether it is a mask. -/
def readEntry (infos : List Nat) : Nat → Nat → Except LayoutStop (List Nat × Nat)
  | 0, p => .ok ([], p)
  | l + 1, p => do
    let info ← loadInfo infos p
    let maskOff ← loadInfo infos (p + 3)
    if info &&& indItemTypeIsMasked ≠ 0 then
      let (offs, p) ← readEntry infos l (p + 4)
      return (maskOff :: offs, p)
    else readEntry infos l (p + 2)

/-- A `std::set`, in its order. -/
def maskSet (offs : List Nat) : List Nat := offs.dedup.insertionSort (· ≤ ·)

def readEntries (infos : List Nat) (items : Nat) :
    Nat → Nat → Except LayoutStop (List (List Nat))
  | 0, _ => .ok []
  | entries + 1, p => do
    let (offs, p) ← readEntry infos items p
    let sets ← readEntries infos items entries p
    return maskSet offs :: sets

/-- `setup_mask_list`, with the number of masks of an entry. -/
def setupMasks (mem : IndexedMem) (entriesUsed : Nat) : Except LayoutStop (Nat × List Nat) := do
  let sets ← readEntries mem.infos mem.size.items entriesUsed 0
  let masksPerEntry := (sets.head?.map List.length).getD 0
  errorIf (∃ set ∈ sets, set.length ≠ masksPerEntry) .rejected
  if masksPerEntry = 0 then return (0, [])
  else
    errorIf (masksPerEntry * entriesUsed % 2 ^ 32 < sets.flatten.length) .outside
    return (masksPerEntry, sets.flatten)

end Masks

section Stage

structure WrittenVar where
  mem : IndexedMem
  dest : Nat
  dest2 : Nat
  srcOffset : Nat
  itemsMax : Nat
  itemsUsed : Nat
  itemsMax2 : Nat
  itemsUsed2 : Nat
  numItems2Offset : List Nat
  masksPerEntry : Nat
  masks : List Nat
deriving Inhabited

/-- The branches of the number, the index and the end of each first index. -/
def book2d (v : StagedIndexVar) (s : Layout) : Layout :=
  if v.twoD then
    ((s.book 4).book (v.lengthUsed.one * 4)).book (v.lengthUsed.one * 4)
  else s

def bookIndex (v : StagedIndexVar) (s : Layout) : Layout :=
  if v.isArray ∧ !v.twoD then s.book (v.lengthUsed.one * 4) else s

def initCtrlVar (v : StagedIndexVar) (s : Layout) : Except LayoutStop Layout := do
  errorIf (v.item.flags &&& ntupleItemHasLimit = 0) .assertion
  errorIf (v.item.type ≠ .ushort ∧ v.item.type ≠ .uint ∧ v.item.type ≠ .int) .assertion
  return s.hbname 4

/-- `stage_ntuple_index_var::init_cwn`, for a list, an array and an array of two indices, with
`setup_mask_list`. -/
def initIndexVar (fresh : Nat → Nat) (v : StagedIndexVar) (s : Layout) :
    Except LayoutStop (WrittenVar × Layout) := do
  let s2 := book2d v s
  let s3 ← initCtrlVar v s2
  errorIf (2 ^ 32 - 1 < v.item.src) .rejected
  let st ← initVars fresh v (if v.twoD then List.replicate v.lengthUsed.one (2 ^ 32 - 1) else [])
    (bookIndex v { s3 with ptr := s3.ptr + 4 })
  let masks ← setupMasks st.mem v.lengthUsed.one
  return ({ mem := st.mem
            dest := s3.ptr
            dest2 := s.ptr
            srcOffset := v.item.src
            itemsMax := v.lengthMax.one
            itemsUsed := v.lengthUsed.one
            itemsMax2 := v.lengthMax.two
            itemsUsed2 := v.lengthUsed.two
            numItems2Offset := st.numItems2Offset
            masksPerEntry := masks.1
            masks := masks.2 }, st.out)

/-- The items that are laid out. The index variables are kept in the order of staging. -/
structure StageState where
  global : IndexedMem
  indices : TypeIndices
  out : Layout
  written : List WrittenVar
  indexVars : Nat
  arrayVars : Nat

/-- An item of `stage_ntuple_block::init_cwn`. -/
def initItem (fresh : Nat → Nat) (s : StageState) : BlockItem → Except LayoutStop StageState
  | .plain item => do
    let (global, indices, out) ← initVar false 0 1 s.global s.indices s.out item.toNtupleItem
    return { s with global := global, indices := indices, out := out }
  | .index v => do
    errorIf (v.twoD ∧ !v.isArray) .rejected
    let (w, out) ← initIndexVar fresh v s.out
    return { s with
      out := out
      written := s.written ++ [w]
      indexVars := if !v.isArray then s.indexVars + 1 else s.indexVars
      arrayVars := if v.isArray ∧ !v.twoD then s.arrayVars + 1 else s.arrayVars }

structure StagedLayout where
  announced : Nat
  branches : List Branch
  items : List BlockItem
  global : IndexedMem
  written : List WrittenVar

/-- The second part of `stage`: the storage is counted, announced, and laid out. -/
def layoutItems (fresh : Nat → Nat) (items : List BlockItem) : Except LayoutStop StagedLayout := do
  let (c, items) ← storageItems ⟨0, 0, 0, 0, 0, 0⟩ items
  let global ← allocIndexed fresh ⟨c.infoSlots, c.itemsPerEntry⟩ 1
  let s ← items.foldlM (initItem fresh) ⟨global, ⟨0, 0⟩, ⟨0, []⟩, [], 0, 0⟩
  errorIf (c.size ≠ s.out.ptr) .assertion
  errorIf (c.indexVars ≠ s.indexVars) .assertion
  errorIf (c.arrayVars ≠ s.arrayVars) .assertion
  errorIf (s.global.size.slots ≠ s.indices.slotInd) .assertion
  errorIf (s.global.size.items ≠ s.indices.destInd) .assertion
  return ⟨c.size % 2 ^ 32, s.out.branches, items, s.global, s.written⟩

def blockItems (blocks : List StagedBlock) : List BlockItem := blocks.flatMap StagedBlock.items

def stageNtuple (fresh : Nat → Nat) (listing : List ListedItem) : Except LayoutStop StagedLayout := do
  let blocks ← stageListing listing
  layoutItems fresh (blockItems blocks)

end Stage

end Ucesb
