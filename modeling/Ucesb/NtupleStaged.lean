import Ucesb.NtupleIndexVar

namespace Ucesb

section Count

variable {v : StagedIndexVar}

def StagedIndexVar.counted (v : StagedIndexVar) : StagedIndexVar :=
  { v with writePtrs := ⟨v.slotsPerEntry, v.vars.length⟩ }

def BlockItem.counted : BlockItem → BlockItem
  | .plain item => .plain item
  | .index v => .index v.counted

theorem StagedIndexVar.Built.counted (h : v.Built) : v.counted.Built :=
  ⟨h.type, h.limit, h.used, h.used2, h.oneD, h.vars⟩

theorem StagedIndexVar.lens_sum (v : StagedIndexVar) :
    v.lens.sum = v.lens2d.sum + (1 + (v.lensIndex.sum + v.vars.length * v.tot)) := by
  rw [v.lens_eq, List.sum_append, List.sum_append, List.sum_append, List.sum_replicate_nat]
  rfl

theorem checkVarVectFilled_ends {twoD : Bool} {var : IndexedVar} {used : SniInd} :
    Ends (· = .rejected) (fun _ => ∀ ind ∈ used.all, ∃ item, var.items ind = some item)
      (checkVarVectFilled twoD var used) := by
  unfold checkVarVectFilled
  split
  · next hall =>
    intro ind hind
    have hhere := List.all_eq_true.mp hall ind hind
    rw [Bool.and_eq_true] at hhere
    exact Option.isSome_iff_exists.mp hhere.1
  · exact rfl

theorem storageIndexedVar_ends (hbuilt : v.Built) (hsize : 4 * (v.vars.length * v.tot) < 2 ^ 32)
    {n size : Nat} {var : IndexedVar} (hvar : v.vars[n]? = some var) :
    Ends (· = .rejected) (fun c => c = (⟨v.slotAt (n + 1), n + 1⟩, size + v.tot * 4) ∧
        ∀ ind ∈ v.lengthUsed.all, ∃ item, var.items ind = some item)
      (storageIndexedVar v (⟨v.slotAt n, n⟩, size) var) := by
  obtain ⟨hn, -⟩ := List.getElem?_eq_some_iff.mp hvar
  have htotLe : v.tot ≤ v.vars.length * v.tot := Nat.le_mul_of_pos_left _ (by omega)
  have hentry : v.vars.length ≤ v.vars.length * v.tot :=
    Nat.le_mul_of_pos_right _ (Nat.mul_pos hbuilt.used.1 hbuilt.used2.1)
  have hslots := StagedIndexVar.slotAt_end hvar
  have hslotsLe := v.slotsPerEntry_le
  have hused : v.lengthUsed.tot = v.tot := by
    rw [SniInd.tot]
    exact Nat.mod_eq_of_lt (show v.tot < 2 ^ 32 by omega)
  have hmax : v.tot ≤ v.lengthMax.one * v.lengthMax.two :=
    Nat.mul_le_mul hbuilt.used.2 hbuilt.used2.2
  unfold storageIndexedVar
  rw [hused, errorIf, if_neg (by omega)]
  simp only [bind, Except.bind]
  refine ends_bind checkVarVectFilled_ends fun _ hfilled => ?_
  obtain ⟨item, hitem⟩ := hfilled ⟨0, 0⟩ (SniInd.mem_all.mpr ⟨hbuilt.used.1, hbuilt.used2.1⟩)
  have hvarSlots : var.slots = infoSlots item.toNtupleItem := by
    rw [IndexedVar.slots, hitem]
    rfl
  rw [hitem]
  refine ⟨?_, hfilled⟩
  rw [EntrySize.add, StagedIndexVar.slotAt_succ hvar, hvarSlots]
  dsimp only
  rw [Nat.mod_eq_of_lt (by omega), Nat.mod_eq_of_lt (by omega)]

theorem storageIndexedVars_ends (hbuilt : v.Built) (hsize : 4 * (v.vars.length * v.tot) < 2 ^ 32)
    {done vars : List IndexedVar} (hvars : v.vars = done ++ vars) {size : Nat}
    (hdone : ∀ var ∈ done, ∀ ind ∈ v.lengthUsed.all, ∃ item, var.items ind = some item) :
    Ends (· = .rejected) (fun c =>
        c = (⟨v.slotsPerEntry, v.vars.length⟩, size + 4 * (v.vars.length * v.tot)) ∧ v.Filled)
      (vars.foldlM (storageIndexedVar v)
        (⟨v.slotAt done.length, done.length⟩, size + 4 * (done.length * v.tot))) := by
  induction vars generalizing done with
  | nil =>
    rw [List.append_nil] at hvars
    subst hvars
    rw [v.slotAt_all]
    exact ⟨rfl, hdone⟩
  | cons var vars ih =>
    have hvar : v.vars[done.length]? = some var := by
      rw [hvars, List.getElem?_append_right (Nat.le_refl _), Nat.sub_self]
      rfl
    rw [List.foldlM_cons]
    refine ends_bind (storageIndexedVar_ends hbuilt hsize hvar) ?_
    rintro c ⟨rfl, hfilled⟩
    have hrest := @ih (done ++ [var]) (by rw [hvars, List.append_assoc]; rfl) (by
      intro var' hvar'
      rcases List.mem_append.mp hvar' with hvar' | hvar'
      · exact hdone var' hvar'
      · obtain rfl := List.mem_singleton.mp hvar'
        exact hfilled)
    rw [List.length_append, List.length_singleton, Nat.add_one_mul done.length] at hrest
    have hbytes : size + 4 * (done.length * v.tot) + v.tot * 4 =
        size + 4 * (done.length * v.tot + v.tot) := by omega
    rw [hbytes]
    exact hrest

theorem storageSizeIndex_eq (harray : v.twoD = true → v.isArray = true)
    (hone : 2 * v.lengthUsed.one < 2 ^ 32) :
    storageSizeIndex v = 4 * (v.lens2d.sum + (1 + v.lensIndex.sum)) := by
  unfold storageSizeIndex StagedIndexVar.lens2d StagedIndexVar.lensIndex
  cases htwoD : v.twoD with
  | true =>
    rw [harray htwoD, if_pos rfl, if_pos rfl, if_pos rfl, Nat.mod_eq_of_lt hone]
    simp
    omega
  | false =>
    cases v.isArray with
    | true =>
      simp
      omega
    | false => simp

theorem storageIndexVar_ends (hbuilt : v.Built) (hfresh : v.writePtrs = ⟨0, 0⟩)
    (hsize : 4 * v.lens.sum < 2 ^ 32) (harray : v.twoD = true → v.isArray = true) {size : Nat} :
    Ends (· = .rejected) (fun r => r = (v.counted, size + 4 * v.lens.sum) ∧ v.Filled)
      (storageIndexVar v size) := by
  have hsum := v.lens_sum
  have hnum : 1 ≤ v.vars.length := List.length_pos_of_ne_nil hbuilt.vars
  have htotLe : v.tot ≤ v.vars.length * v.tot := Nat.le_mul_of_pos_left _ (by omega)
  have hone : v.lengthUsed.one ≤ v.tot := Nat.le_mul_of_pos_right _ hbuilt.used2.1
  have hbytes := storageSizeIndex_eq harray (by omega)
  have hrun := @storageIndexedVars_ends v hbuilt (by omega) [] v.vars rfl
    (size + storageSizeIndex v) nofun
  rw [List.length_nil, Nat.zero_mul, Nat.mul_zero, Nat.add_zero] at hrun
  unfold storageIndexVar
  rw [hfresh]
  refine ends_bind hrun ?_
  rintro c ⟨rfl, hfilled⟩
  refine ⟨?_, hfilled⟩
  have hall : size + storageSizeIndex v + 4 * (v.vars.length * v.tot) = size + 4 * v.lens.sum := by
    omega
  rw [hall]
  rfl

/-- The words and the number of the variables that are not controlled, and the index variables. -/
def BlockItem.plainSlots : BlockItem → Nat
  | .plain item => infoSlots item.toNtupleItem
  | .index _ => 0

def BlockItem.plainCount : BlockItem → Nat
  | .plain _ => 1
  | .index _ => 0

def BlockItem.indexCount : BlockItem → Nat
  | .plain _ => 0
  | .index v => if !v.isArray then 1 else 0

def BlockItem.arrayCount : BlockItem → Nat
  | .plain _ => 0
  | .index v => if v.isArray ∧ !v.twoD then 1 else 0

theorem BlockItem.plain_le (i : BlockItem) :
    i.plainCount + i.indexCount + i.arrayCount ≤ i.lens.sum ∧ i.plainSlots ≤ 4 * i.lens.sum := by
  cases i with
  | plain item => exact ⟨Nat.le_refl _, (infoSlots_le item.toNtupleItem).2⟩
  | index v =>
    refine ⟨?_, Nat.zero_le _⟩
    change 0 + (if !v.isArray then 1 else 0) + (if v.isArray ∧ !v.twoD then 1 else 0) ≤ v.lens.sum
    rw [v.lens_sum]
    cases v.isArray with
    | true =>
      cases v.twoD with
      | true => simp
      | false =>
        simp
        omega
    | false =>
      simp
      omega

structure Counts (items : List BlockItem) (c : StorageSize) : Prop where
  size : c.size = 4 * (items.flatMap BlockItem.lens).sum
  infoSlots : c.infoSlots = (items.map BlockItem.plainSlots).sum
  itemsPerEntry : c.itemsPerEntry = (items.map BlockItem.plainCount).sum
  indexVars : c.indexVars = (items.map BlockItem.indexCount).sum
  arrayVars : c.arrayVars = (items.map BlockItem.arrayCount).sum

theorem counts_le (items : List BlockItem) :
    (items.map BlockItem.plainCount).sum + (items.map BlockItem.indexCount).sum +
        (items.map BlockItem.arrayCount).sum ≤ (items.flatMap BlockItem.lens).sum ∧
      (items.map BlockItem.plainSlots).sum ≤ 4 * (items.flatMap BlockItem.lens).sum := by
  induction items with
  | nil => exact ⟨Nat.le_refl _, Nat.le_refl _⟩
  | cons i items ih =>
    have hi := i.plain_le
    simp only [List.map_cons, List.sum_cons, List.flatMap_cons, List.sum_append]
    omega

def BlockItem.Ready : BlockItem → Prop
  | .plain _ => True
  | .index v => v.Built ∧ v.Filled ∧ v.writePtrs = ⟨v.slotsPerEntry, v.vars.length⟩ ∧
      (v.twoD = true → v.isArray = true)

theorem flatMap_snoc (done : List BlockItem) (i : BlockItem) :
    ((done ++ [i]).flatMap BlockItem.lens).sum = (done.flatMap BlockItem.lens).sum + i.lens.sum := by
  rw [List.flatMap_append, List.sum_append, List.flatMap_singleton]

theorem map_snoc (f : BlockItem → Nat) (done : List BlockItem) (i : BlockItem) :
    ((done ++ [i]).map f).sum = (done.map f).sum + f i := by
  rw [List.map_append, List.sum_append, List.map_singleton, List.sum_singleton]

theorem storageItem_ends {done : List BlockItem} {c : StorageSize} {i : BlockItem}
    (hc : Counts done c) (hbuilt : i.Built) (hsize : Sized (done ++ [i])) :
    Ends (· = .rejected) (fun r => Counts (done ++ [i]) r.1 ∧ r.2 = i.counted ∧ i.counted.Ready)
      (storageItem c i) := by
  have hle := counts_le (done ++ [i])
  unfold Sized at hsize
  rw [flatMap_snoc] at hsize
  rw [flatMap_snoc, map_snoc, map_snoc, map_snoc, map_snoc] at hle
  obtain ⟨hcount, hslots⟩ := hle
  have hslots4 := i.plain_le
  cases i with
  | plain item =>
    have hitem := infoSlots_le item.toNtupleItem
    simp only [BlockItem.lens, BlockItem.plainCount, BlockItem.plainSlots, BlockItem.indexCount,
      BlockItem.arrayCount, List.sum_singleton] at hsize hcount hslots
    refine ⟨⟨?_, ?_, ?_, ?_, ?_⟩, rfl, trivial⟩
    · rw [flatMap_snoc]
      dsimp only
      rw [hc.size]
      rfl
    · rw [map_snoc]
      dsimp only
      have hcounted := counts_le done
      rw [hc.infoSlots]
      exact Nat.mod_eq_of_lt (by omega)
    · rw [map_snoc]
      dsimp only
      rw [hc.itemsPerEntry]
      exact Nat.mod_eq_of_lt (by omega)
    · rw [map_snoc]
      exact hc.indexVars
    · rw [map_snoc]
      exact hc.arrayVars
  | index v =>
    obtain ⟨hv, hfresh⟩ := hbuilt
    have hrejected : v.twoD = true ∧ (!v.isArray) = true → LayoutStop.rejected = .rejected :=
      fun _ => rfl
    refine ends_bind (ends_errorIf hrejected) fun _ harray => ?_
    have hisArray : v.twoD = true → v.isArray = true := by
      intro htwoD
      by_contra hnot
      exact harray ⟨htwoD, by rw [Bool.not_eq_true] at hnot; rw [hnot]; rfl⟩
    have hlens : (BlockItem.index v).lens = v.lens := rfl
    rw [hlens] at hsize hcount
    refine ends_bind (storageIndexVar_ends hv hfresh (by omega) hisArray) ?_
    rintro r ⟨rfl, hfilled⟩
    have hindex : (BlockItem.index v).indexCount = if !v.isArray then 1 else 0 := rfl
    have harr : (BlockItem.index v).arrayCount = if v.isArray ∧ !v.twoD then 1 else 0 := rfl
    refine ⟨⟨?_, ?_, ?_, ?_, ?_⟩, rfl, hv.counted, hfilled, rfl, hisArray⟩
    · rw [flatMap_snoc, hlens]
      dsimp only
      rw [hc.size]
      omega
    · rw [map_snoc]
      exact hc.infoSlots
    · rw [map_snoc]
      exact hc.itemsPerEntry
    · rw [map_snoc, hindex]
      rw [hindex] at hcount
      dsimp only
      split
      · next hcase =>
        rw [if_pos hcase] at hcount
        rw [hc.indexVars]
        exact Nat.mod_eq_of_lt (by omega)
      · exact hc.indexVars
    · rw [map_snoc, harr]
      rw [harr] at hcount
      dsimp only
      split
      · next hcase =>
        rw [if_pos hcase] at hcount
        rw [hc.arrayVars]
        exact Nat.mod_eq_of_lt (by omega)
      · exact hc.arrayVars

theorem storageItems_ends {done items : List BlockItem} {c : StorageSize} (hc : Counts done c)
    (hbuilt : ∀ i ∈ items, i.Built) (hsize : Sized (done ++ items)) :
    Ends (· = .rejected) (fun r => Counts (done ++ items) r.1 ∧ r.2 = items.map BlockItem.counted ∧
        ∀ i ∈ r.2, i.Ready) (storageItems c items) := by
  induction items generalizing done c with
  | nil =>
    rw [List.append_nil]
    exact ⟨hc, rfl, nofun⟩
  | cons i items ih =>
    obtain ⟨hi, hitems⟩ := List.forall_mem_cons.mp hbuilt
    have hsplit : done ++ i :: items = (done ++ [i]) ++ items := by
      rw [List.append_assoc]
      rfl
    rw [hsplit] at hsize ⊢
    have hfirst : Sized (done ++ [i]) := by
      unfold Sized at hsize ⊢
      rw [List.flatMap_append, List.sum_append] at hsize
      omega
    rw [storageItems]
    refine ends_bind (storageItem_ends hc hi hfirst) ?_
    rintro ⟨c', i'⟩ ⟨hc', rfl, hready⟩
    refine ends_bind (ih hc' hitems hsize) ?_
    rintro ⟨c'', items'⟩ ⟨hc'', rfl, hall⟩
    exact ⟨hc'', rfl, List.forall_mem_cons.mpr ⟨hready, hall⟩⟩

end Count

end Ucesb
