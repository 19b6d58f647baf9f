import Mathlib.Data.List.Perm.Basic
import Mathlib.Tactic.Common
import Mathlib.Tactic.Ring

namespace Ucesb

/-- `ext_data_structure_item`, without what only the mapping uses.  The number stands for the
pointer to the item. -/
structure StructureItem where
  pointer : Nat
  offset : UInt32
  length : UInt32
  varName : String
  varCtrlName : String
  varType : UInt32
  limitMin : UInt32
  limitMax : UInt32
  flags : UInt32
  ctrlItem : Option Nat
deriving DecidableEq

structure StructInfo where
  items : List StructureItem
  allocated : Nat
  lastError : Option String

structure ItemCall where
  offset : UInt64
  size : UInt64
  type : UInt32
  name : String
  ctrlName : Option String
  limitMax : Int32
  flags : UInt32
  memory : Bool

inductive ItemErrno
  | nomem
  | inval
deriving DecidableEq

def noLimit : UInt32 := 0xffffffff

namespace StructInfo

def alloc : StructInfo := ⟨[], 0, none⟩

def newItem (call : ItemCall) (pointer : Nat) : StructureItem where
  pointer := pointer
  offset := call.offset.toUInt32
  length := call.size.toUInt32
  varName := call.name
  varCtrlName := call.ctrlName.getD ""
  varType := call.type
  limitMin := if 0 ≤ call.limitMax then 0 else noLimit
  limitMax := if 0 ≤ call.limitMax then call.limitMax.toUInt32 else noLimit
  flags := call.flags
  ctrlItem := none

/-- The loop over the items that there are.  The place for the new item is after the last one that
is before it, the controlling item the one with its name. -/
def checkItems (item : StructureItem) (arrayItems : UInt64) :
    List StructureItem → Nat → Nat → Option Nat → Except String (Nat × Option Nat)
  | [], _, beforeOff, ctrl => .ok (beforeOff, ctrl)
  | check :: rest, pos, beforeOff, ctrl =>
    let beforeOff := if check.offset < item.offset then pos + 1 else beforeOff
    if item.varName = check.varName then
      .error "Name collision with already declared item."
    else if check.offset < item.offset + item.length &&
        check.offset + check.length > item.offset then
      .error "Overlapping with already declared item."
    else if item.varCtrlName = check.varName then
      if check.limitMax = noLimit then .error "Missing control item limit."
      else if check.limitMax.toUInt64 > arrayItems then
        .error "Mismatch with control item limit (array too small)."
      else checkItems item arrayItems rest (pos + 1) beforeOff (some check.pointer)
    else checkItems item arrayItems rest (pos + 1) beforeOff ctrl

/-- `ext_data_struct_info_item`, for an information structure that there is: `errno` where it
fails. -/
def infoItem (info : StructInfo) (call : ItemCall) : Option ItemErrno × StructInfo :=
  if call.memory then
    let item := newItem call info.allocated
    match checkItems item (call.size / 4) info.items 0 0 none with
    | .error e => (some .inval, { info with lastError := some e })
    | .ok (beforeOff, ctrl) =>
      if item.varCtrlName ≠ "" ∧ ctrl = none then
        (some .inval, { info with lastError := some "Controlling item not found." })
      else (none, { info with
        items := info.items.insertIdx beforeOff { item with ctrlItem := ctrl }
        allocated := info.allocated + 1 })
  else (some .nomem,
    { info with lastError := some "Memory allocation failure (struct item)." })

def after (calls : List ItemCall) : StructInfo :=
  calls.foldl (fun info call => (info.infoItem call).2) alloc

end StructInfo

namespace StructureItem

def Covers (x : StructureItem) (b : Nat) : Prop :=
  x.offset.toNat ≤ b ∧ b < x.offset.toNat + x.length.toNat

def Apart (x y : StructureItem) : Prop := ∀ b, ¬(x.Covers b ∧ y.Covers b)

def Fits (x : StructureItem) : Prop := x.offset.toNat + x.length.toNat < 2 ^ 32

theorem Apart.symm {x y : StructureItem} (h : x.Apart y) : y.Apart x := fun b hb => h b hb.symm

end StructureItem

def ItemCall.RangeFits (call : ItemCall) : Prop :=
  call.offset.toUInt32.toNat + call.size.toUInt32.toNat < 2 ^ 32

structure ItemListInv (items : List StructureItem) : Prop where
  sorted : items.Pairwise fun x y => x.offset ≤ y.offset
  names : (items.map StructureItem.varName).Nodup
  ctrl : ∀ x ∈ items, (x.varCtrlName ≠ "" → x.ctrlItem ≠ none) ∧
    ∀ p ∈ x.ctrlItem, ∃ c ∈ items, c.pointer = p ∧ c.varName = x.varCtrlName
  apart : items.Pairwise fun x y => x.Fits → y.Fits → x.Apart y

section Insert

variable {item : StructureItem} {arrayItems : UInt64} {items : List StructureItem}
  {pos beforeOff place : Nat} {ctrl ctrl' : Option Nat}

/-- No check has failed: of an item before it, none of the same name, and none in its range. -/
structure Passed (item check : StructureItem) : Prop where
  name : item.varName ≠ check.varName
  range : ¬(check.offset < item.offset + item.length ∧
    item.offset < check.offset + check.length)

theorem checkItems_passed
    (h : StructInfo.checkItems item arrayItems items pos beforeOff ctrl = .ok (place, ctrl')) :
    (∀ check ∈ items, Passed item check) ∧
      (ctrl' = ctrl ∨ ∃ check ∈ items, ctrl' = some check.pointer ∧
        check.varName = item.varCtrlName ∧ check.limitMax.toUInt64 ≤ arrayItems) := by
  induction items generalizing pos beforeOff ctrl with
  | nil =>
    cases h
    exact ⟨nofun, .inl rfl⟩
  | cons check rest ih =>
    unfold StructInfo.checkItems at h
    dsimp only at h
    split at h
    · cases h
    next hname =>
    split at h
    · cases h
    next hrange =>
    have hpassed : Passed item check := ⟨hname, by simpa using hrange⟩
    split at h
    next hctrl =>
      split at h
      · cases h
      split at h
      · cases h
      next hlimit =>
      obtain ⟨hall, hfound⟩ := ih h
      refine ⟨List.forall_mem_cons.mpr ⟨hpassed, hall⟩, .inr ?_⟩
      rcases hfound with rfl | ⟨c, hc, hp⟩
      · exact ⟨check, .head _, rfl, hctrl.symm, UInt64.not_lt.mp hlimit⟩
      · exact ⟨c, .tail _ hc, hp⟩
    next =>
      obtain ⟨hall, hfound⟩ := ih h
      refine ⟨List.forall_mem_cons.mpr ⟨hpassed, hall⟩, ?_⟩
      rcases hfound with rfl | ⟨c, hc, hp⟩
      · exact .inl rfl
      · exact .inr ⟨c, .tail _ hc, hp⟩

theorem checkItems_place (hs : items.Pairwise fun x y => x.offset ≤ y.offset)
    (h : StructInfo.checkItems item arrayItems items pos beforeOff ctrl = .ok (place, ctrl')) :
    ∃ k ≤ items.length, place = (if k = 0 then beforeOff else pos + k) ∧
      (∀ x ∈ items.take k, x.offset ≤ item.offset) ∧
      ∀ x ∈ items.drop k, item.offset ≤ x.offset := by
  induction items generalizing pos beforeOff ctrl with
  | nil =>
    cases h
    exact ⟨0, Nat.le_refl _, rfl, nofun, nofun⟩
  | cons check rest ih =>
    obtain ⟨hfirst, hrest⟩ := List.pairwise_cons.mp hs
    have hnext : ∃ ctrl₁, StructInfo.checkItems item arrayItems rest (pos + 1)
        (if check.offset < item.offset then pos + 1 else beforeOff) ctrl₁ = .ok (place, ctrl') := by
      unfold StructInfo.checkItems at h
      dsimp only at h
      split at h
      · cases h
      split at h
      · cases h
      split at h
      · split at h
        · cases h
        split at h
        · cases h
        exact ⟨_, h⟩
      · exact ⟨_, h⟩
    obtain ⟨ctrl₁, hnext⟩ := hnext
    obtain ⟨k, hk, hplace, hbefore, hbehind⟩ := ih hrest hnext
    by_cases hzero : k = 0
    · subst hzero
      rw [if_pos rfl] at hplace
      by_cases hless : check.offset < item.offset
      · refine ⟨1, by simp, ?_, ?_, hbehind⟩
        · rw [hplace, if_pos hless, if_neg Nat.one_ne_zero]
        · intro x hx
          cases List.mem_singleton.mp hx
          exact UInt32.le_of_lt hless
      · refine ⟨0, Nat.zero_le _, ?_, nofun, ?_⟩
        · rw [hplace, if_neg hless, if_pos rfl]
        · refine List.forall_mem_cons.mpr ⟨UInt32.not_lt.mp hless, hbehind⟩
    · rw [if_neg hzero] at hplace
      refine ⟨k + 1, Nat.succ_le_succ hk, ?_, ?_, hbehind⟩
      · rw [hplace, if_neg (Nat.succ_ne_zero k), Nat.add_assoc, Nat.add_comm 1]
      · obtain ⟨j, rfl⟩ := Nat.exists_eq_succ_of_ne_zero hzero
        cases rest with
        | nil => exact absurd hk (Nat.not_succ_le_zero j)
        | cons y rest =>
          have hy := hbefore y (.head _)
          refine List.forall_mem_cons.mpr ⟨UInt32.le_trans (hfirst y (.head _)) hy, hbefore⟩

theorem Passed.apart {check : StructureItem} (h : Passed item check) (hi : item.Fits)
    (hc : check.Fits) : item.Apart check := by
  rintro b ⟨⟨hlo, hhi⟩, hlo', hhi'⟩
  apply h.range
  unfold StructureItem.Fits at hi hc
  rw [UInt32.lt_iff_toNat_lt, UInt32.lt_iff_toNat_lt, UInt32.toNat_add, UInt32.toNat_add,
    Nat.mod_eq_of_lt hi, Nat.mod_eq_of_lt hc]
  omega

end Insert

section Runs

variable {info : StructInfo} {call : ItemCall}

theorem infoItem_failed (h : (info.infoItem call).1 ≠ none) :
    (info.infoItem call).2.items = info.items := by
  unfold StructInfo.infoItem at h ⊢
  dsimp only at h ⊢
  split
  next hmem =>
    rw [if_pos hmem] at h
    split
    · rfl
    next hcheck =>
      rw [hcheck] at h
      dsimp only at h
      split
      · rfl
      next hctrl =>
        rw [if_neg hctrl] at h
        exact (h rfl).elim
  next => rfl

theorem infoItem_added (h : (info.infoItem call).1 = none) :
    ∃ place ctrl, StructInfo.checkItems (StructInfo.newItem call info.allocated) (call.size / 4)
        info.items 0 0 none = .ok (place, ctrl) ∧
      (call.ctrlName.getD "" ≠ "" → ctrl ≠ none) ∧
      (info.infoItem call).2.items = info.items.insertIdx place
        { StructInfo.newItem call info.allocated with ctrlItem := ctrl } := by
  unfold StructInfo.infoItem at h ⊢
  dsimp only at h ⊢
  split at h
  next hmem =>
    rw [if_pos hmem]
    cases hcheck : StructInfo.checkItems (StructInfo.newItem call info.allocated)
        (call.size / 4) info.items 0 0 none with
    | error e =>
      rw [hcheck] at h
      cases h
    | ok r =>
      rw [hcheck] at h
      dsimp only at h ⊢
      split at h
      · cases h
      next hctrl =>
        rw [if_neg hctrl]
        exact ⟨r.1, r.2, rfl, fun hname hnone => hctrl ⟨hname, hnone⟩, rfl⟩
  next => cases h

theorem insertIdx_eq {α : Type} (l : List α) (x : α) {k : Nat} (h : k ≤ l.length) :
    l.insertIdx k x = l.take k ++ x :: l.drop k := by
  induction l generalizing k with
  | nil =>
    cases Nat.le_zero.mp h
    rfl
  | cons y l ih =>
    cases k with
    | zero => rfl
    | succ k =>
      rw [List.insertIdx_succ_cons, ih (Nat.le_of_succ_le_succ h)]
      rfl

theorem infoItem_inv (h : ItemListInv info.items) : ItemListInv (info.infoItem call).2.items := by
  by_cases hok : (info.infoItem call).1 = none
  · obtain ⟨place, ctrl, hcheck, hnone, hitems⟩ := infoItem_added hok
    obtain ⟨hpassed, hfound⟩ := checkItems_passed hcheck
    obtain ⟨k, hk, hplace, hbefore, hbehind⟩ := checkItems_place h.sorted hcheck
    have hk' : place = k := by
      rw [hplace]
      split
      next hz => exact hz.symm
      next => exact Nat.zero_add k
    rw [hitems, hk', insertIdx_eq _ _ hk]
    generalize hnew : ({ StructInfo.newItem call info.allocated with ctrlItem := ctrl } :
      StructureItem) = new
    have hoff : new.offset = (StructInfo.newItem call info.allocated).offset := by rw [← hnew]
    have hname : new.varName = (StructInfo.newItem call info.allocated).varName := by rw [← hnew]
    have hperm : (info.items.take k ++ new :: info.items.drop k).Perm (new :: info.items) := by
      have hmid := @List.perm_middle _ new (info.items.take k) (info.items.drop k)
      rwa [List.take_append_drop] at hmid
    refine ⟨?_, ?_, ?_, ?_⟩
    · have hsplit := h.sorted
      rw [← List.take_append_drop k info.items] at hsplit
      obtain ⟨hs₁, hs₂, hs₁₂⟩ := List.pairwise_append.mp hsplit
      refine List.pairwise_append.mpr ⟨hs₁, List.pairwise_cons.mpr ⟨fun y hy => ?_, hs₂⟩, ?_⟩
      · rw [hoff]
        exact hbehind y hy
      · intro x hx y hy
        rcases List.mem_cons.mp hy with rfl | hy
        · rw [hoff]
          exact hbefore x hx
        · exact hs₁₂ x hx y hy
    · refine ((hperm.map StructureItem.varName).nodup_iff).mpr (List.nodup_cons.mpr ⟨?_, h.names⟩)
      intro hm
      obtain ⟨check, hcheck, heq⟩ := List.mem_map.mp hm
      exact (hpassed check hcheck).name (hname ▸ heq.symm)
    · intro x hx
      rcases List.mem_cons.mp (hperm.mem_iff.mp hx) with rfl | hx
      · subst hnew
        refine ⟨hnone, fun p hp => ?_⟩
        rcases hfound with rfl | ⟨c, hc, hptr, hcname, -⟩
        · cases hp
        · cases hptr.symm.trans hp
          exact ⟨c, hperm.mem_iff.mpr (List.mem_cons_of_mem _ hc), rfl, hcname⟩
      · obtain ⟨hctrl, hin⟩ := h.ctrl x hx
        refine ⟨hctrl, fun p hp => ?_⟩
        obtain ⟨c, hc, hrefers⟩ := hin p hp
        exact ⟨c, hperm.mem_iff.mpr (List.mem_cons_of_mem _ hc), hrefers⟩
    · refine (hperm.pairwise_iff fun hxy hy hx => (hxy hx hy).symm).mpr
        (List.pairwise_cons.mpr ⟨fun check hcheck hfits hfits' => ?_, h.apart⟩)
      have hsame : (StructInfo.newItem call info.allocated).Apart check :=
        (hpassed check hcheck).apart (by rw [← hnew] at hfits; exact hfits) hfits'
      rw [← hnew]
      exact hsame
  · rw [infoItem_failed hok]
    exact h

theorem infoItem_fits (h : ∀ x ∈ info.items, x.Fits) (hcall : call.RangeFits) :
    ∀ x ∈ (info.infoItem call).2.items, x.Fits := by
  by_cases hok : (info.infoItem call).1 = none
  · obtain ⟨place, ctrl, -, -, hitems⟩ := infoItem_added hok
    rw [hitems]
    intro x hx
    rcases List.eq_or_mem_of_mem_insertIdx hx with rfl | hx
    · exact hcall
    · exact h x hx
  · rw [infoItem_failed hok]
    exact h

theorem infoItem_allocated : (info.infoItem call).2.allocated =
    if (info.infoItem call).1 = none then info.allocated + 1 else info.allocated := by
  unfold StructInfo.infoItem
  dsimp only
  split
  · split
    · rfl
    · split <;> rfl
  · rfl

structure PointersInv (info : StructInfo) : Prop where
  nodup : (info.items.map StructureItem.pointer).Nodup
  below : ∀ x ∈ info.items, x.pointer < info.allocated

theorem infoItem_pointers (h : PointersInv info) : PointersInv (info.infoItem call).2 := by
  have halloc := @infoItem_allocated info call
  by_cases hok : (info.infoItem call).1 = none
  · obtain ⟨place, ctrl, -, -, hitems⟩ := infoItem_added hok
    rw [if_pos hok] at halloc
    constructor
    · rw [hitems]
      have hnew : info.allocated ∉ info.items.map StructureItem.pointer := by
        intro hm
        obtain ⟨x, hx, heq⟩ := List.mem_map.mp hm
        exact absurd (h.below x hx) (heq ▸ Nat.lt_irrefl _)
      by_cases hplace : place ≤ info.items.length
      · have hperm := (List.perm_insertIdx { StructInfo.newItem call info.allocated with
          ctrlItem := ctrl } info.items hplace).map StructureItem.pointer
        exact hperm.nodup_iff.mpr (List.nodup_cons.mpr ⟨hnew, h.nodup⟩)
      · rw [List.insertIdx_of_length_lt (Nat.lt_of_not_le hplace)]
        exact h.nodup
    · rw [hitems, halloc]
      intro x hx
      rcases List.eq_or_mem_of_mem_insertIdx hx with rfl | hx
      · exact Nat.lt_succ_self _
      · exact Nat.lt_succ_of_lt (h.below x hx)
  · rw [if_neg hok] at halloc
    have hitems := infoItem_failed hok
    exact ⟨hitems ▸ h.nodup, hitems ▸ halloc ▸ h.below⟩

theorem after_pointers (calls : List ItemCall) : PointersInv (StructInfo.after calls) := by
  have hrun : ∀ info : StructInfo, PointersInv info →
      PointersInv (calls.foldl (fun info call => (info.infoItem call).2) info) := by
    induction calls with
    | nil => exact fun _ h => h
    | cons call calls ih => exact fun info h => ih _ (infoItem_pointers h)
  exact hrun _ ⟨List.nodup_nil, nofun⟩

/-- An array has the space for as many items as its controlling item may say. -/
def LimitsKept (items : List StructureItem) : Prop :=
  ∀ x ∈ items, ∀ p ∈ x.ctrlItem, ∃ c ∈ items, c.pointer = p ∧ c.varName = x.varCtrlName ∧
    4 * c.limitMax.toNat ≤ x.length.toNat

theorem infoItem_limits (h : LimitsKept info.items) (hcall : call.size.toNat < 2 ^ 32) :
    LimitsKept (info.infoItem call).2.items := by
  by_cases hok : (info.infoItem call).1 = none
  · obtain ⟨place, ctrl, hcheck, -, hitems⟩ := infoItem_added hok
    have hkept : ∀ c ∈ info.items, c ∈ (info.infoItem call).2.items := by
      intro c hc
      rw [hitems]
      by_cases hplace : place ≤ info.items.length
      · exact (List.mem_insertIdx hplace).mpr (.inr hc)
      · rwa [List.insertIdx_of_length_lt (Nat.lt_of_not_le hplace)]
    intro x hx p hp
    rw [hitems] at hx
    rcases List.eq_or_mem_of_mem_insertIdx hx with rfl | hx
    · obtain ⟨-, hnone | ⟨c, hc, hptr, hname, hlimit⟩⟩ := checkItems_passed hcheck
      · rw [hnone] at hp
        cases hp
      · cases hptr.symm.trans hp
        refine ⟨c, hkept c hc, rfl, hname, ?_⟩
        have hlen : (StructInfo.newItem call info.allocated).length.toNat = call.size.toNat := by
          change call.size.toUInt32.toNat = _
          rw [UInt64.toNat_toUInt32]
          exact Nat.mod_eq_of_lt hcall
        have hle : c.limitMax.toNat ≤ call.size.toNat / 4 := by
          have := UInt64.le_iff_toNat_le.mp hlimit
          rwa [UInt32.toNat_toUInt64, UInt64.toNat_div] at this
        change 4 * c.limitMax.toNat ≤ (StructInfo.newItem call info.allocated).length.toNat
        rw [hlen]
        omega
    · obtain ⟨c, hc, hrest⟩ := h x hx p hp
      exact ⟨c, hkept c hc, hrest⟩
  · rw [infoItem_failed hok]
    exact h

theorem after_limits {calls : List ItemCall} (h : ∀ call ∈ calls, call.size.toNat < 2 ^ 32) :
    LimitsKept (StructInfo.after calls).items := by
  have hrun : ∀ info : StructInfo, LimitsKept info.items →
      LimitsKept (calls.foldl (fun info call => (info.infoItem call).2) info).items := by
    induction calls with
    | nil => exact fun _ h => h
    | cons call calls ih =>
      obtain ⟨hcall, hcalls⟩ := List.forall_mem_cons.mp h
      exact fun info hinfo => ih hcalls _ (infoItem_limits hinfo hcall)
  exact hrun _ nofun

theorem after_inv (calls : List ItemCall) : ItemListInv (StructInfo.after calls).items := by
  have hrun : ∀ info : StructInfo, ItemListInv info.items →
      ItemListInv (calls.foldl (fun info call => (info.infoItem call).2) info).items := by
    induction calls with
    | nil => exact fun _ h => h
    | cons call calls ih => exact fun info h => ih _ (infoItem_inv h)
  exact hrun _ ⟨.nil, List.nodup_nil, nofun, .nil⟩

theorem after_fits {calls : List ItemCall} (h : ∀ call ∈ calls, call.RangeFits) :
    ∀ x ∈ (StructInfo.after calls).items, x.Fits := by
  have hrun : ∀ info : StructInfo, (∀ x ∈ info.items, x.Fits) →
      ∀ x ∈ (calls.foldl (fun info call => (info.infoItem call).2) info).items, x.Fits := by
    induction calls with
    | nil => exact fun _ h => h
    | cons call calls ih =>
      obtain ⟨hcall, hcalls⟩ := List.forall_mem_cons.mp h
      exact fun info hinfo => ih hcalls _ (infoItem_fits hinfo hcall)
  exact hrun _ nofun

end Runs

/-- After any calls the list is in order, without a name twice, and with the controlling items;
calls that fail leave it as it is. -/
theorem struct_items_kept (calls : List ItemCall) :
    ItemListInv (StructInfo.after calls).items ∧
    (∀ call, ((StructInfo.after calls).infoItem call).1 ≠ none →
      ((StructInfo.after calls).infoItem call).2.items = (StructInfo.after calls).items) ∧
    ((∀ call ∈ calls, call.RangeFits) →
      (StructInfo.after calls).items.Pairwise StructureItem.Apart) := by
  refine ⟨after_inv calls, fun _ => infoItem_failed, fun hfits => ?_⟩
  have hall := after_fits hfits
  exact (after_inv calls).apart.imp_of_mem fun hx hy h => h (hall _ hx) (hall _ hy)

def plainCall (offset size : UInt64) (name : String) : ItemCall :=
  ⟨offset, size, 1, name, none, -1, 0, true⟩

theorem struct_items_kept_two :
    (StructInfo.after [plainCall 4 4 "b", plainCall 0 4 "a"]).items.Pairwise StructureItem.Apart :=
  (struct_items_kept [plainCall 4 4 "b", plainCall 0 4 "a"]).2.2
    (by simp [plainCall, ItemCall.RangeFits])

theorem struct_items_overlap :
    ¬∀ calls, (StructInfo.after calls).items.Pairwise StructureItem.Apart := by
  intro h
  have hpair := h [plainCall 0xfffffff0 0x10 "a", plainCall 0xfffffff8 4 "b"]
  have hitems : (StructInfo.after [plainCall 0xfffffff0 0x10 "a",
      plainCall 0xfffffff8 4 "b"]).items =
      [StructInfo.newItem (plainCall 0xfffffff0 0x10 "a") 0,
        StructInfo.newItem (plainCall 0xfffffff8 4 "b") 1] := by decide +kernel
  rw [hitems] at hpair
  refine (List.pairwise_cons.mp hpair).1 _ (.head _) 0xfffffff8 ⟨⟨?_, ?_⟩, ?_, ?_⟩ <;> decide

end Ucesb
