import Ucesb.CwnGet
import Ucesb.CwnStaging

namespace Ucesb

section Lists

variable {α β : Type}

theorem concatSome_some {f : α → Option (List β)} {size : α → Nat} {as : List α}
    (h : ∀ a ∈ as, ∃ l, f a = some l ∧ l.length = size a) :
    ∃ r, concatSome f as = some r ∧ r.length = (as.map size).sum := by
  induction as with
  | nil => exact ⟨[], rfl, rfl⟩
  | cons a as ih =>
    obtain ⟨l, hl, hlen⟩ := h a List.mem_cons_self
    obtain ⟨r, hr, hrest⟩ := ih fun b hb => h b (List.mem_cons_of_mem _ hb)
    refine ⟨l ++ r, ?_, ?_⟩
    · simp only [concatSome, hl, hr, Option.bind_eq_bind, Option.bind_some]
    · rw [List.length_append, hlen, hrest, List.map_cons, List.sum_cons]

theorem concatSome_length {f : α → Option (List β)} {size : α → Nat} {as : List α} {r : List β}
    (h : ∀ a ∈ as, ∀ l, f a = some l → l.length = size a) (hr : concatSome f as = some r) :
    r.length = (as.map size).sum := by
  induction as generalizing r with
  | nil =>
    cases hr
    rfl
  | cons a as ih =>
    obtain ⟨l, hl, hr⟩ := Option.bind_eq_some_iff.mp hr
    obtain ⟨rest, hrest, hr⟩ := Option.bind_eq_some_iff.mp hr
    cases hr
    rw [List.length_append, h a List.mem_cons_self l hl,
      ih (fun b hb => h b (List.mem_cons_of_mem _ hb)) hrest, List.map_cons, List.sum_cons]

theorem sum_map_le {f g : α → Nat} {as : List α} (h : ∀ a ∈ as, f a ≤ g a) :
    (as.map f).sum ≤ (as.map g).sum := by
  induction as with
  | nil => exact Nat.le_refl _
  | cons a as ih =>
    rw [List.map_cons, List.map_cons, List.sum_cons, List.sum_cons]
    exact Nat.add_le_add (h a List.mem_cons_self) (ih fun b hb => h b (List.mem_cons_of_mem _ hb))

theorem sum_map_affine {f g : α → Nat} {as : List α} {k : Nat} (h : ∀ a, f a = 2 * g a + k) :
    (as.map f).sum = 2 * (as.map g).sum + k * as.length := by
  induction as with
  | nil => rfl
  | cons a as ih =>
    simp only [List.map_cons, List.sum_cons, List.length_cons, ih, h, Nat.mul_add, Nat.mul_one]
    omega

end Lists

section Offsets

theorem destIntCtrl_length {dest maxItems mark items : Nat} {body : List Nat}
    (hmax : 0 < maxItems) (hbody : body.length = maxItems * (2 * items)) :
    ∃ l, destIntCtrl dest maxItems mark body = some l ∧ l.length = 4 + body.length := by
  unfold destIntCtrl
  have hiter : 2 * (body.length / maxItems / 2) * maxItems = body.length := by
    rw [hbody, Nat.mul_div_cancel_left _ hmax, Nat.mul_div_cancel_left _ Nat.two_pos, Nat.mul_comm]
  dsimp only
  rw [if_neg (Nat.ne_of_gt hmax), if_neg (not_not.mpr hiter)]
  refine ⟨_, rfl, ?_⟩
  simp [destOffset]
  omega

theorem ptrs_length (i : IndItem) : i.ptrs.length = 2 := by
  unfold IndItem.ptrs
  split
  · rfl
  · rfl

theorem cwnPtrsIndexedItem_length {item : IndexedItem} {entries : List (List IndItem)}
    (h : ∀ e ∈ entries, e ∈ item.entries) :
    (cwnPtrsIndexedItem entries).length = entries.length * (2 * item.itemsPerEntry) := by
  refine length_flatMap_const ?_
  intro e he
  rw [length_flatMap_const fun i _ => ptrs_length i, item.uniform e (h e he), Nat.mul_comm]

theorem arrayPtrs_length (dest : Nat) (item : IndexedItem) :
    (arrayPtrs dest item.entries).length =
      item.entries.length * (2 * (1 + item.itemsPerEntry)) := by
  rw [← List.length_zipIdx (l := item.entries) (i := 0)]
  refine length_flatMap_const ?_
  intro e he
  have hmem := List.fst_mem_of_mem_zipIdx he
  rw [List.length_append, @cwnPtrsIndexedItem_length item _ (by simpa using hmem)]
  simp [destInt, destOffset]
  omega

theorem endPtrs_length (dest2 used : Nat) : (endPtrs dest2 used).length = used * (2 * 2) := by
  have hpairs := @length_flatMap_const _ _ (fun k =>
    destInt (dest2 + 4 * (k + 1)) externalWriterMarkItemIndex ++
      destInt (dest2 + 4 * (k + 1 + used)) externalWriterMarkItemEndnum) (List.range used) 4
    fun _ _ => rfl
  rwa [List.length_range] at hpairs

theorem cwnPtrsIndexItem_length {a : IndexItem} (h : 0 < a.itemsUsed) :
    ∃ l, cwnPtrsIndexItem a = some l ∧ l.length = 2 * a.storageWords + 2 := by
  have hbody := @cwnPtrsIndexedItem_length a.item _ fun _ he => he
  rw [a.alloc] at hbody
  obtain ⟨l, hl, hlen⟩ := @destIntCtrl_length a.dest _ 0 _ _ h hbody
  refine ⟨l, hl, ?_⟩
  rw [hlen, hbody, IndexItem.storageWords, Nat.mul_left_comm]
  omega

theorem cwnPtrsArrayItem_length {a : ArrayItem} (h : 0 < a.itemsUsed) :
    ∃ l, cwnPtrsArrayItem a = some l ∧ l.length = 2 * a.storageWords + 2 := by
  have hbody := arrayPtrs_length a.dest a.item
  rw [a.alloc] at hbody
  obtain ⟨l, hl, hlen⟩ := @destIntCtrl_length a.dest _ externalWriterMarkArrayInd1 _ _
    h hbody
  refine ⟨l, hl, ?_⟩
  rw [hlen, hbody, ArrayItem.storageWords, Nat.mul_left_comm, Nat.mul_add a.itemsUsed]
  omega

theorem cwnPtrsArray2Item_length {a : Array2Item}
    (h : 0 < a.itemsUsed ∧ 0 < a.itemsUsed * a.itemsUsed2 ∧ a.itemsUsed * a.itemsUsed2 < 2 ^ 32) :
    ∃ l, cwnPtrsArray2Item a = some l ∧ l.length = 2 * a.storageWords + 4 := by
  have hbody := @cwnPtrsIndexedItem_length a.item _ fun _ he => he
  rw [a.alloc] at hbody
  obtain ⟨ends, hends, helen⟩ := @destIntCtrl_length a.dest2 _
    externalWriterMarkArrayMind _ _ h.1 (endPtrs_length a.dest2 a.itemsUsed)
  obtain ⟨items, hitems, hilen⟩ := @destIntCtrl_length a.dest _ 0 _ _ h.2.1 hbody
  refine ⟨ends ++ items, ?_, ?_⟩
  · simp only [cwnPtrsArray2Item, hends, Nat.mod_eq_of_lt h.2.2, hitems, Option.bind_eq_bind,
      Option.bind_some]
  · rw [List.length_append, helen, hilen, hbody, endPtrs_length, Array2Item.storageWords,
      Nat.mul_left_comm (a.itemsUsed * a.itemsUsed2)]
    omega

/-- The words of the offsets message, as `stage` computes them. -/
def CwnTuple.offsetWords (nt : CwnTuple) : Nat :=
  2 * nt.storageWords + 2 * (nt.indexItems.length + nt.arrayItems.length) +
    4 * nt.array2Items.length

theorem cwnPtrs_length {nt : CwnTuple} (hused : nt.Used) (hsize : 4 * nt.offsetWords < 2 ^ 32) :
    ∃ list, cwnPtrs nt = some list ∧ list.length = nt.offsetWords := by
  obtain ⟨index, hindex, hilen⟩ := @concatSome_some _ _ cwnPtrsIndexItem _ nt.indexItems
    fun a ha => cwnPtrsIndexItem_length (hused.index a ha)
  obtain ⟨array, harray, halen⟩ := @concatSome_some _ _ cwnPtrsArrayItem _ nt.arrayItems
    fun a ha => cwnPtrsArrayItem_length (hused.array a ha)
  obtain ⟨array2, harray2, ha2len⟩ := @concatSome_some _ _ cwnPtrsArray2Item _
    nt.array2Items fun a ha => cwnPtrsArray2Item_length (hused.array2 a ha)
  have hglobal : (cwnPtrsIndexedItem [nt.globalArray]).length = 2 * nt.globalArray.length := by
    rw [cwnPtrsIndexedItem, List.flatMap_singleton, length_flatMap_const fun i _ => ptrs_length i,
      Nat.mul_comm]
  have hlen : (cwnPtrsIndexedItem [nt.globalArray] ++ index ++ array ++ array2).length =
      nt.offsetWords := by
    rw [sum_map_affine fun _ => rfl] at hilen halen ha2len
    simp only [List.length_append, hglobal, hilen, halen, ha2len, CwnTuple.offsetWords,
      CwnTuple.storageWords]
    omega
  refine ⟨_, ?_, hlen⟩
  simp only [cwnPtrs, hindex, harray, harray2, Option.bind_eq_bind, Option.bind_some, hlen]
  rw [if_neg (by omega)]

end Offsets

section Event

variable {ops : FloatOps} {mem : Nat → UInt8}

def IndexItem.usedWords (mem : Nat → UInt8) (a : IndexItem) : Nat :=
  1 + (indexEntries mem a).length * a.item.itemsPerEntry

def ArrayItem.usedWords (mem : Nat → UInt8) (a : ArrayItem) : Nat :=
  1 + (filledIndices mem a.srcBitsOffset a.itemsUsed).length * (1 + a.item.itemsPerEntry)

def Array2Item.usedWords (mem : Nat → UInt8) (a : Array2Item) : Nat :=
  2 + 2 * (filledIndices mem a.srcBitsOffset a.itemsUsed).length +
    ((filledIndices mem a.srcBitsOffset a.itemsUsed).map (numItems2 mem a)).sum *
      a.item.itemsPerEntry

def CwnTuple.usedWords (mem : Nat → UInt8) (nt : CwnTuple) : Nat :=
  nt.globalArray.length + (nt.indexItems.map (IndexItem.usedWords mem)).sum +
    (nt.arrayItems.map (ArrayItem.usedWords mem)).sum +
    (nt.array2Items.map (Array2Item.usedWords mem)).sum

theorem entryWords_length {item : IndexedItem} {entries : List (List IndItem)}
    (h : ∀ e ∈ entries, e ∈ item.entries) :
    (entryWords ops mem entries).length = entries.length * item.itemsPerEntry := by
  rw [entryWords_flatMap]
  refine length_flatMap_const ?_
  intro e he
  rw [List.length_map, item.uniform e (h e he)]

theorem cwnFillIndexItem_length {a : IndexItem} {words : List Nat}
    (h : cwnFillIndexItem ops mem a = some words) : words.length = a.usedWords mem := by
  rw [cwnFillIndexItem_eq h, List.length_cons, IndexItem.usedWords,
    entryWords_length fun e he => (indexEntries_initial mem a).subset he]
  omega

theorem cwnFillArrayItem_length {a : ArrayItem} {words : List Nat}
    (h : cwnFillArrayItem ops mem a = some words) : words.length = a.usedWords mem := by
  have hvalues : ∀ index ∈ filledIndices mem a.srcBitsOffset a.itemsUsed,
      (indexWords ops mem a index).length = 1 + a.item.itemsPerEntry := by
    intro index hindex
    have hlt : index < a.item.entries.length := by
      rw [a.alloc]
      exact (mem_filledIndices.mp hindex).1
    rw [indexWords, List.length_cons, List.length_map, List.getElem?_eq_getElem hlt,
      Option.getD_some, a.item.uniform _ (List.getElem_mem hlt), Nat.add_comm]
  rw [cwnFillArrayItem_eq h, List.length_cons, ArrayItem.usedWords, length_flatMap_const hvalues]
  omega

theorem cwnFillByEnds_length {a : Array2Item} {indices : List Nat} {start : Nat}
    {ends : List (Nat × Nat)} {words : List Nat}
    (hends : scanEnds mem a.numItems2Offset indices start = some ends) (hstart : start < 2 ^ 32)
    (h : cwnFillByEnds ops mem a ends start = some words) :
    ends.length = indices.length ∧
      words.length = (indices.map (numItems2 mem a)).sum * a.item.itemsPerEntry := by
  induction indices generalizing start ends words with
  | nil =>
    cases hends
    cases h
    exact ⟨rfl, by simp⟩
  | cons index indices ih =>
    obtain ⟨offset, hoff, hends⟩ := Option.bind_eq_some_iff.mp hends
    obtain ⟨rest, hrest, hends⟩ := Option.bind_eq_some_iff.mp hends
    cases hends
    obtain ⟨here, hhere, h⟩ := Option.bind_eq_some_iff.mp h
    obtain ⟨later, hlater, h⟩ := Option.bind_eq_some_iff.mp h
    cases h
    have hnum : loadN mem offset 4 = numItems2 mem a index := by
      rw [numItems2, List.getD_eq_getElem?_getD, hoff, Option.getD_some]
    have hlt : numItems2 mem a index < 2 ^ 32 := by
      rw [← hnum]
      exact loadN_lt mem offset 4
    obtain ⟨hcount, hlen⟩ := ih hrest (Nat.mod_lt _ (by decide)) hlater
    have hitems : ((start + loadN mem offset 4) % 2 ^ 32 + 2 ^ 32 - start) % 2 ^ 32 =
        numItems2 mem a index := by omega
    rw [hitems] at hhere
    obtain ⟨hroom, rfl⟩ := cwnFillEntries_eq hhere
    refine ⟨by rw [List.length_cons, List.length_cons, hcount], ?_⟩
    rw [List.length_append, hlen, @entryWords_length _ _ a.item _ fun e he =>
      List.mem_of_mem_drop (List.mem_of_mem_take he), List.length_take, List.length_drop,
      Nat.min_eq_left (by omega), List.map_cons, List.sum_cons, Nat.add_mul]

theorem cwnFillArray2Item_length {a : Array2Item} {words : List Nat}
    (h : cwnFillArray2Item ops mem a = some words) : words.length = a.usedWords mem := by
  obtain ⟨indices, hscan, h⟩ := Option.bind_eq_some_iff.mp h
  obtain ⟨ends, hends, h⟩ := Option.bind_eq_some_iff.mp h
  dsimp only at h
  split at h
  · cases h
  · obtain ⟨ws, hws, h⟩ := Option.bind_eq_some_iff.mp h
    cases h
    cases scanBits_filled hscan
    obtain ⟨hcount, hlen⟩ := cwnFillByEnds_length hends (by decide) hws
    have hpairs := @length_flatMap_const (Nat × Nat) Nat (fun e => [e.1 + 1, e.2]) ends 2
      fun _ _ => rfl
    simp only [List.length_append, List.length_cons, hpairs, hcount, hlen, Array2Item.usedWords]
    omega

theorem cwnFill_length {nt : CwnTuple} {words : List Nat} (h : cwnFill ops nt mem = some words) :
    words.length = nt.usedWords mem := by
  obtain ⟨global, hglobal, h⟩ := Option.bind_eq_some_iff.mp h
  obtain ⟨index, hindex, h⟩ := Option.bind_eq_some_iff.mp h
  obtain ⟨array, harray, h⟩ := Option.bind_eq_some_iff.mp h
  obtain ⟨array2, harray2, h⟩ := Option.bind_eq_some_iff.mp h
  cases h
  obtain ⟨-, rfl⟩ := cwnFillEntries_eq hglobal
  rw [List.length_append, List.length_append, List.length_append,
    concatSome_length (fun a _ _ => cwnFillIndexItem_length) hindex,
    concatSome_length (fun a _ _ => cwnFillArrayItem_length) harray,
    concatSome_length (fun a _ _ => cwnFillArray2Item_length) harray2, CwnTuple.usedWords]
  simp [entryWords]

theorem usedWords_le {nt : CwnTuple} (h : ∀ a ∈ nt.array2Items, a.Within mem) :
    nt.usedWords mem ≤ nt.storageWords := by
  refine Nat.add_le_add (Nat.add_le_add (Nat.add_le_add_left ?_ _) ?_) ?_
  · refine sum_map_le fun a _ => Nat.add_le_add_left (Nat.mul_le_mul_right _ ?_) _
    rw [← a.alloc]
    exact (indexEntries_initial mem a).length_le
  · refine sum_map_le fun a _ => ?_
    have hlen := Nat.mul_le_mul_right (1 + a.item.itemsPerEntry)
      (@filledIndices_length_le mem a.srcBitsOffset a.itemsUsed)
    rw [Nat.mul_add a.itemsUsed] at hlen
    unfold ArrayItem.usedWords ArrayItem.storageWords
    omega
  · refine sum_map_le fun a ha => ?_
    have hnum : (filledIndices mem a.srcBitsOffset a.itemsUsed).length ≤ a.itemsUsed :=
      filledIndices_length_le
    have hsum := sum_le_mul (l := (filledIndices mem a.srcBitsOffset a.itemsUsed).map
      (numItems2 mem a)) a.itemsUsed2 (List.forall_mem_map.mpr (h a ha))
    rw [List.length_map] at hsum
    have htotal := Nat.mul_le_mul_right a.item.itemsPerEntry
      (hsum.trans (Nat.mul_le_mul_right a.itemsUsed2 hnum))
    unfold Array2Item.usedWords Array2Item.storageWords
    omega

end Event

end Ucesb
