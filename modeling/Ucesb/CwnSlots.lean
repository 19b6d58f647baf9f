import Ucesb.CwnFill

namespace Ucesb

section Ptrs

theorem IndItem.mark_lt (i : IndItem) : i.mark < 2 ^ 31 := by
  have hfold : ∀ (marks : List (Nat × Nat)), (∀ m ∈ marks, m.2 < 2 ^ 31) → ∀ mark < 2 ^ 31,
      marks.foldl (fun mark m => if i.is m.1 then mark ||| m.2 else mark) mark < 2 ^ 31 := by
    intro marks
    induction marks with
    | nil => exact fun _ _ h => h
    | cons m marks ih =>
      intro hall mark hmark
      apply ih fun m' hm' => hall m' (List.mem_cons_of_mem _ hm')
      dsimp only
      split
      · exact Nat.or_lt_two_pow hmark (hall m List.mem_cons_self)
      · exact hmark
  exact hfold intMarks (by decide) 0 (by decide)

theorem and_loop_eq_zero {mark : Nat} (h : mark < 2 ^ 31) : mark &&& externalWriterMarkLoop = 0 := by
  change mark &&& 2 ^ 31 = 0
  apply Nat.eq_of_testBit_eq
  intro j
  rw [Nat.testBit_and, Nat.testBit_two_pow, Nat.zero_testBit]
  by_cases hj : 31 = j
  · rw [← hj, Nat.testBit_lt_two_pow h, Bool.false_and]
  · simp [hj]

theorem and_loop_ne_zero (mark more : Nat) :
    (mark ||| externalWriterMarkLoop ||| more) &&& externalWriterMarkLoop ≠ 0 := by
  intro h
  have hbit : ((mark ||| externalWriterMarkLoop ||| more) &&& externalWriterMarkLoop).testBit 31 =
      false := by rw [h, Nat.zero_testBit]
  have hloop : externalWriterMarkLoop.testBit 31 = true := by decide
  rw [Nat.testBit_and, Nat.testBit_or, Nat.testBit_or, hloop] at hbit
  simp at hbit

theorem IndItem.ptrs_eq (i : IndItem) :
    ∃ mark, i.ptrs = [mark, i.dest % 2 ^ 32] ∧ mark &&& externalWriterMarkLoop = 0 := by
  unfold IndItem.ptrs
  split
  · exact ⟨_, rfl, and_loop_eq_zero (by decide)⟩
  · refine ⟨_, rfl, and_loop_eq_zero ?_⟩
    exact Nat.or_lt_two_pow (Nat.or_lt_two_pow i.mark_lt (by decide)) (by decide)

def OffsetsOf (body offsets : List Nat) : Prop :=
  loopOffsets offsets.length body = some offsets ∧ body.length = 2 * offsets.length

theorem OffsetsOf.nil : OffsetsOf [] [] := ⟨rfl, rfl⟩

theorem OffsetsOf.cons {body offsets : List Nat} (mark offset : Nat) (h : OffsetsOf body offsets) :
    OffsetsOf (mark :: offset :: body) (offset :: offsets) := by
  refine ⟨?_, ?_⟩
  · simp only [List.length_cons, loopOffsets, h.1, Option.map_some]
  · simp only [List.length_cons, h.2]
    omega

theorem OffsetsOf.append {b1 b2 o1 o2 : List Nat} (h1 : OffsetsOf b1 o1) (h2 : OffsetsOf b2 o2) :
    OffsetsOf (b1 ++ b2) (o1 ++ o2) := by
  induction o1 generalizing b1 with
  | nil =>
    have hnil : b1 = [] := List.eq_nil_of_length_eq_zero h1.2
    rw [hnil]
    exact h2
  | cons offset o1 ih =>
    obtain ⟨mark, offset, b1, rest, rfl, heq, hrest⟩ := loopOffsets_succ h1.1
    cases heq
    have hlen := h1.2
    simp only [List.length_cons] at hlen
    exact .cons mark offset (ih ⟨hrest, by omega⟩)

theorem OffsetsOf.flatMap {α : Type} {f g : α → List Nat} {as : List α}
    (h : ∀ a ∈ as, OffsetsOf (f a) (g a)) : OffsetsOf (as.flatMap f) (as.flatMap g) := by
  induction as with
  | nil => exact .nil
  | cons a as ih =>
    rw [List.flatMap_cons, List.flatMap_cons]
    exact (h a List.mem_cons_self).append (ih fun b hb => h b (List.mem_cons_of_mem _ hb))

def IndItem.slot (i : IndItem) : Nat := i.dest % 2 ^ 32

theorem offsetsOf_items (items : List IndItem) :
    OffsetsOf (items.flatMap IndItem.ptrs) (items.map IndItem.slot) := by
  induction items with
  | nil => exact .nil
  | cons i items ih =>
    obtain ⟨mark, hptrs, -⟩ := i.ptrs_eq
    rw [List.flatMap_cons, hptrs]
    exact .cons mark _ ih

theorem offsetsOf_entries (entries : List (List IndItem)) :
    OffsetsOf (cwnPtrsIndexedItem entries) (entries.flatMap fun e => e.map IndItem.slot) :=
  .flatMap fun e _ => offsetsOf_items e

theorem destIntCtrl_eq {dest maxItems mark : Nat} {body offsets list : List Nat}
    (hbody : OffsetsOf body offsets) (h : destIntCtrl dest maxItems mark body = some list)
    (hlen : list.length < 2 ^ 30) :
    ∃ one, PackListOf list [.loop (dest % 2 ^ 32) maxItems one offsets] ∧
      PackEntry.Counted (.loop (dest % 2 ^ 32) maxItems one offsets) ∧ 0 < maxItems ∧
      offsets.length = maxItems * one := by
  unfold destIntCtrl at h
  dsimp only at h
  split at h
  · cases h
  · next hpos =>
    split at h
    · cases h
    · next heq =>
      cases h
      have htwice : body.length / maxItems / 2 * maxItems = offsets.length := by
        have hassoc := Nat.mul_assoc 2 (body.length / maxItems / 2) maxItems
        have := hbody.2
        omega
      rw [Nat.mul_comm] at htwice
      simp only [destOffset, List.length_append, List.length_cons, List.length_nil] at hlen
      have hsmall : maxItems * (body.length / maxItems / 2) < 2 ^ 32 := by
        have := hbody.2
        omega
      refine ⟨body.length / maxItems / 2, ?_, hsmall, by omega, htwice.symm⟩
      refine .loop ?_ ?_ ?_
      · rw [Nat.or_assoc]
        exact and_loop_ne_zero _ _
      · rw [Nat.mod_eq_of_lt hsmall, htwice]
        exact hbody.1
      · rw [Nat.mod_eq_of_lt hsmall, htwice, List.drop_of_length_le (Nat.le_of_eq hbody.2)]
        exact .nil

theorem packTakes_ctrl {dest maxItems mark value c : Nat} {body offsets list : List Nat}
    (hbody : OffsetsOf body offsets) (h : destIntCtrl dest maxItems mark body = some list)
    (hlen : list.length < 2 ^ 30) (hoff : offsets.length = maxItems * c) (words : List Nat)
    (hvalue : value ≤ maxItems) (hwords : words.length = value * c) :
    PackTakes list (value :: words) ((dest % 2 ^ 32, value) :: offsets.zip words) := by
  obtain ⟨one, hof, hcount, hpos, hone⟩ := destIntCtrl_eq hbody h hlen
  have hc : c = one := Nat.eq_of_mul_eq_mul_left hpos (hoff.symm.trans hone)
  subst hc
  refine ⟨_, hof, ?_, ?_⟩
  · intro e he
    cases List.mem_singleton.mp he
    exact hcount
  · have htake : EntriesTake [.loop (dest % 2 ^ 32) maxItems c offsets] (value :: (words ++ []))
        ((dest % 2 ^ 32, value) :: (offsets.zip words ++ [])) :=
      .loop hvalue hwords .nil
    rwa [List.append_nil, List.append_nil] at htake

end Ptrs

section Zip

theorem zip_flatMap {α β γ δ : Type} {f : α → List γ} {g : β → List δ} {as : List α} {bs : List β}
    {c : Nat} (hf : ∀ a ∈ as, (f a).length = c) (hg : ∀ b ∈ bs, (g b).length = c) :
    (as.flatMap f).zip (bs.flatMap g) = (as.zip bs).flatMap fun p => (f p.1).zip (g p.2) := by
  induction as generalizing bs with
  | nil => simp
  | cons a as ih =>
    cases bs with
    | nil => simp
    | cons b bs =>
      have hlen : (f a).length = (g b).length := by
        rw [hf a List.mem_cons_self, hg b List.mem_cons_self]
      rw [List.flatMap_cons, List.flatMap_cons, List.zip_append hlen, List.zip_cons_cons,
        List.flatMap_cons, ih (fun a ha => hf a (List.mem_cons_of_mem _ ha))
          fun b hb => hg b (List.mem_cons_of_mem _ hb)]

theorem length_flatMap_const {α β : Type} {f : α → List β} {as : List α} {c : Nat}
    (h : ∀ a ∈ as, (f a).length = c) : (as.flatMap f).length = as.length * c := by
  induction as with
  | nil => simp
  | cons a as ih =>
    rw [List.flatMap_cons, List.length_append, h a List.mem_cons_self,
      ih fun b hb => h b (List.mem_cons_of_mem _ hb), List.length_cons, Nat.succ_mul, Nat.add_comm]

end Zip

section Slots

variable {ops : FloatOps} {mem : Nat → UInt8}

/-- The variables of one entry of the ntuple get the values of an entry of the event. -/
def entrySlots (ops : FloatOps) (mem : Nat → UInt8) (p : List IndItem × List IndItem) :
    List (Nat × Nat) :=
  (p.1.map IndItem.slot).zip (p.2.map (IndItem.word ops mem))

def indexEntries (mem : Nat → UInt8) (a : IndexItem) : List (List IndItem) :=
  uncutEntries mem a.itemsUsed (a.item.entries.take (min (loadN mem a.srcOffset 4) a.itemsUsed))

def indexSlots (ops : FloatOps) (mem : Nat → UInt8) (a : IndexItem) : List (Nat × Nat) :=
  (a.dest % 2 ^ 32, (indexEntries mem a).length) ::
    (a.item.entries.zip (indexEntries mem a)).flatMap (entrySlots ops mem)

/-- The filled entries are packed: each has its index and then its items at the next free place. -/
def arraySlots (ops : FloatOps) (mem : Nat → UInt8) (a : ArrayItem) : List (Nat × Nat) :=
  let indices := filledIndices mem a.srcBitsOffset a.itemsUsed
  (a.dest % 2 ^ 32, indices.length) ::
    (a.item.entries.zipIdx.zip indices).flatMap fun p =>
      ((a.dest + 4 * (p.1.2 + 1)) % 2 ^ 32, p.2 + 1) ::
        entrySlots ops mem (p.1.1, a.item.entries[p.2]?.getD [])

def numItems2 (mem : Nat → UInt8) (a : Array2Item) (index : Nat) : Nat :=
  loadN mem (a.numItems2Offset.getD index 0) 4

def endsFrom (count : Nat → Nat) : List Nat → Nat → List (Nat × Nat)
  | [], _ => []
  | index :: indices, start =>
    (index, start + count index) :: endsFrom count indices (start + count index)

def array2Entries (mem : Nat → UInt8) (a : Array2Item) : List (List IndItem) :=
  (filledIndices mem a.srcBitsOffset a.itemsUsed).flatMap fun index =>
    (a.item.entries.drop (index * a.itemsUsed2)).take (numItems2 mem a index)

def array2Slots (ops : FloatOps) (mem : Nat → UInt8) (a : Array2Item) : List (Nat × Nat) :=
  let indices := filledIndices mem a.srcBitsOffset a.itemsUsed
  (a.dest2 % 2 ^ 32, indices.length) ::
    ((List.range a.itemsUsed).zip (endsFrom (numItems2 mem a) indices 0)).flatMap (fun p =>
      [((a.dest2 + 4 * (p.1 + 1)) % 2 ^ 32, p.2.1 + 1),
        ((a.dest2 + 4 * (p.1 + 1 + a.itemsUsed)) % 2 ^ 32, p.2.2)]) ++
    (a.dest % 2 ^ 32, (array2Entries mem a).length) ::
      (a.item.entries.zip (array2Entries mem a)).flatMap (entrySlots ops mem)

def cwnSlots (ops : FloatOps) (nt : CwnTuple) (mem : Nat → UInt8) : List (Nat × Nat) :=
  entrySlots ops mem (nt.globalArray, nt.globalArray) ++
    nt.indexItems.flatMap (indexSlots ops mem) ++ nt.arrayItems.flatMap (arraySlots ops mem) ++
    nt.array2Items.flatMap (array2Slots ops mem)

theorem packTakes_items (items : List IndItem) :
    PackTakes (cwnPtrsIndexedItem [items]) (items.map (IndItem.word ops mem))
      (entrySlots ops mem (items, items)) := by
  rw [cwnPtrsIndexedItem, List.flatMap_singleton]
  induction items with
  | nil => exact .nil
  | cons i items ih =>
    obtain ⟨mark, hptrs, hmark⟩ := i.ptrs_eq
    obtain ⟨entries, hof, hcount, htake⟩ := ih
    rw [List.flatMap_cons, hptrs]
    refine ⟨.item i.slot :: entries, .item hmark hof, ?_, .item htake⟩
    intro e he
    rcases List.mem_cons.mp he with rfl | he
    · trivial
    · exact hcount e he

theorem indexEntries_initial (mem : Nat → UInt8) (a : IndexItem) :
    indexEntries mem a <+: a.item.entries :=
  (List.takeWhile_prefix _).trans (List.take_prefix _ _)

theorem cwnFillIndexItem_eq {a : IndexItem} {words : List Nat}
    (h : cwnFillIndexItem ops mem a = some words) :
    words = (indexEntries mem a).length :: entryWords ops mem (indexEntries mem a) := by
  unfold cwnFillIndexItem at h
  dsimp only at h
  split at h
  · cases h
  · have hmin : (if a.itemsUsed < loadN mem a.srcOffset 4 then a.itemsUsed
        else loadN mem a.srcOffset 4) = min (loadN mem a.srcOffset 4) a.itemsUsed := by
      split <;> omega
    rw [hmin] at h
    obtain ⟨⟨k, ws⟩, hfill, h⟩ := Option.bind_eq_some_iff.mp h
    cases h
    obtain ⟨rfl, rfl⟩ := cwnFillIndexedItem_eq hfill
    rfl

theorem entryWords_flatMap (entries : List (List IndItem)) :
    entryWords ops mem entries = entries.flatMap fun e => e.map (IndItem.word ops mem) := by
  rw [entryWords, List.map_flatten, List.flatMap_def]

theorem packTakes_entries {item : IndexedItem} {dest maxItems mark : Nat} {list : List Nat}
    (h : destIntCtrl dest maxItems mark (cwnPtrsIndexedItem item.entries) = some list)
    (hlen : list.length < 2 ^ 30) (hmax : item.entries.length = maxItems)
    (filled : List (List IndItem)) (hfilled : ∀ e ∈ filled, e ∈ item.entries)
    (hle : filled.length ≤ item.entries.length) :
    PackTakes list (filled.length :: entryWords ops mem filled)
      ((dest % 2 ^ 32, filled.length) ::
        (item.entries.zip filled).flatMap (entrySlots ops mem)) := by
  have hslots : ∀ e ∈ item.entries, (e.map IndItem.slot).length = item.itemsPerEntry := by
    intro e he
    rw [List.length_map, item.uniform e he]
  have hvalues : ∀ e ∈ filled, (e.map (IndItem.word ops mem)).length = item.itemsPerEntry := by
    intro e he
    rw [List.length_map, item.uniform e (hfilled e he)]
  have htakes := packTakes_ctrl (offsetsOf_entries item.entries) h hlen
    (by rw [length_flatMap_const hslots, hmax]) (entryWords ops mem filled)
    (Nat.le_trans hle (Nat.le_of_eq hmax)) (by rw [entryWords_flatMap, length_flatMap_const hvalues])
  rwa [entryWords_flatMap, zip_flatMap hslots hvalues, ← entryWords_flatMap] at htakes

theorem packTakes_index {a : IndexItem} {list words : List Nat}
    (hlist : cwnPtrsIndexItem a = some list) (hwords : cwnFillIndexItem ops mem a = some words)
    (hlen : list.length < 2 ^ 30) : PackTakes list words (indexSlots ops mem a) := by
  have hprefix := indexEntries_initial mem a
  rw [cwnFillIndexItem_eq hwords]
  exact packTakes_entries hlist hlen a.alloc _ (fun e he => hprefix.subset he) hprefix.length_le

theorem concatSome_eq {α β : Type} {f : α → Option (List β)} {g : α → List β} {as : List α}
    {r : List β} (h : ∀ a ∈ as, ∀ b, f a = some b → b = g a) (hr : concatSome f as = some r) :
    r = as.flatMap g := by
  induction as generalizing r with
  | nil =>
    cases hr
    rfl
  | cons a as ih =>
    obtain ⟨b, hb, hr⟩ := Option.bind_eq_some_iff.mp hr
    obtain ⟨rest, hrest, hr⟩ := Option.bind_eq_some_iff.mp hr
    cases hr
    rw [h a List.mem_cons_self b hb, ih (fun a ha => h a (List.mem_cons_of_mem _ ha)) hrest,
      List.flatMap_cons]

def indexWords (ops : FloatOps) (mem : Nat → UInt8) (a : ArrayItem) (index : Nat) : List Nat :=
  (index + 1) :: (a.item.entries[index]?.getD []).map (IndItem.word ops mem)

theorem cwnFillArrayItem_eq {a : ArrayItem} {words : List Nat}
    (h : cwnFillArrayItem ops mem a = some words) :
    words = (filledIndices mem a.srcBitsOffset a.itemsUsed).length ::
      (filledIndices mem a.srcBitsOffset a.itemsUsed).flatMap (indexWords ops mem a) := by
  obtain ⟨indices, hscan, h⟩ := Option.bind_eq_some_iff.mp h
  obtain ⟨ws, hws, h⟩ := Option.bind_eq_some_iff.mp h
  cases h
  cases scanBits_filled hscan
  refine congrArg (_ :: ·) (concatSome_eq ?_ hws)
  intro index _ b hb
  obtain ⟨r, hr, rfl⟩ := Option.map_eq_some_iff.mp hb
  obtain ⟨hle, rfl⟩ := cwnFillEntries_eq hr
  have hlt : index < a.item.entries.length := by omega
  rw [indexWords, List.getElem?_eq_getElem hlt, Option.getD_some, entryWords,
    List.drop_eq_getElem_cons hlt, List.take_succ_cons, List.take_zero, List.flatten_cons,
    List.flatten_nil, List.append_nil]

def placeOffsets (dest : Nat) (e : List IndItem × Nat) : List Nat :=
  (dest + 4 * (e.2 + 1)) % 2 ^ 32 :: e.1.map IndItem.slot

theorem offsetsOf_array (dest : Nat) (entries : List (List IndItem)) :
    OffsetsOf (arrayPtrs dest entries) (entries.zipIdx.flatMap (placeOffsets dest)) := by
  refine .flatMap ?_
  intro e _
  refine .cons _ _ ?_
  rw [cwnPtrsIndexedItem, List.flatMap_singleton]
  exact offsetsOf_items e.1

theorem packTakes_array {a : ArrayItem} {list words : List Nat}
    (hlist : cwnPtrsArrayItem a = some list) (hwords : cwnFillArrayItem ops mem a = some words)
    (hlen : list.length < 2 ^ 30) : PackTakes list words (arraySlots ops mem a) := by
  rw [cwnFillArrayItem_eq hwords]
  have hplaces : ∀ e ∈ a.item.entries.zipIdx,
      (placeOffsets a.dest e).length = a.item.itemsPerEntry + 1 := by
    intro e he
    rw [placeOffsets, List.length_cons, List.length_map,
      a.item.uniform e.1 (List.fst_mem_of_mem_zipIdx he)]
  have hvalues : ∀ index ∈ filledIndices mem a.srcBitsOffset a.itemsUsed,
      (indexWords ops mem a index).length = a.item.itemsPerEntry + 1 := by
    intro index hindex
    have hlt : index < a.item.entries.length := by
      rw [a.alloc]
      exact (mem_filledIndices.mp hindex).1
    rw [indexWords, List.length_cons, List.length_map, List.getElem?_eq_getElem hlt,
      Option.getD_some, a.item.uniform _ (List.getElem_mem hlt)]
  have htakes := packTakes_ctrl (offsetsOf_array a.dest a.item.entries) hlist hlen
    (by rw [length_flatMap_const hplaces, List.length_zipIdx, a.alloc]) _
    filledIndices_length_le (length_flatMap_const hvalues)
  rwa [zip_flatMap hplaces hvalues] at htakes

end Slots

section Array2

variable {ops : FloatOps} {mem : Nat → UInt8} {a : Array2Item}

def Array2Item.Within (mem : Nat → UInt8) (a : Array2Item) : Prop :=
  ∀ index ∈ filledIndices mem a.srcBitsOffset a.itemsUsed, numItems2 mem a index ≤ a.itemsUsed2

theorem scanEnds_eq {indices : List Nat} {start bound : Nat} {ends : List (Nat × Nat)}
    (h : scanEnds mem a.numItems2Offset indices start = some ends)
    (hle : ∀ index ∈ indices, numItems2 mem a index ≤ bound)
    (hlt : start + indices.length * bound < 2 ^ 32) :
    ends = endsFrom (numItems2 mem a) indices start := by
  induction indices generalizing start ends with
  | nil =>
    cases h
    rfl
  | cons index indices ih =>
    obtain ⟨offset, hoff, h⟩ := Option.bind_eq_some_iff.mp h
    obtain ⟨rest, hrest, h⟩ := Option.bind_eq_some_iff.mp h
    cases h
    have hnum : loadN mem offset 4 = numItems2 mem a index := by
      rw [numItems2, List.getD_eq_getElem?_getD, hoff, Option.getD_some]
    have hfirst := hle index List.mem_cons_self
    rw [List.length_cons, Nat.succ_mul] at hlt
    rw [hnum, Nat.mod_eq_of_lt (by omega)] at hrest ⊢
    rw [ih hrest (fun i hi => hle i (List.mem_cons_of_mem _ hi)) (by omega), endsFrom]

theorem endsFrom_last (count : Nat → Nat) (indices : List Nat) (start : Nat) :
    ((endsFrom count indices start).map Prod.snd).getLast?.getD start =
      start + (indices.map count).sum := by
  induction indices generalizing start with
  | nil => simp [endsFrom]
  | cons index indices ih =>
    have hrest := ih (start + count index)
    rw [endsFrom, List.map_cons, List.getLast?_cons, Option.getD_some, hrest, List.map_cons,
      List.sum_cons, Nat.add_assoc]

theorem endsFrom_length (count : Nat → Nat) (indices : List Nat) (start : Nat) :
    (endsFrom count indices start).length = indices.length := by
  induction indices generalizing start with
  | nil => rfl
  | cons index indices ih => rw [endsFrom, List.length_cons, List.length_cons, ih]

theorem sum_le_mul {l : List Nat} (bound : Nat) (h : ∀ n ∈ l, n ≤ bound) :
    l.sum ≤ l.length * bound := by
  induction l with
  | nil => simp
  | cons n l ih =>
    have hfirst := h n List.mem_cons_self
    have hrest := ih fun m hm => h m (List.mem_cons_of_mem _ hm)
    rw [List.sum_cons, List.length_cons, Nat.succ_mul]
    omega

def hitEntries (mem : Nat → UInt8) (a : Array2Item) (index : Nat) : List (List IndItem) :=
  (a.item.entries.drop (index * a.itemsUsed2)).take (numItems2 mem a index)

theorem cwnFillByEnds_eq {indices : List Nat} {start bound : Nat} {words : List Nat}
    (h : cwnFillByEnds ops mem a (endsFrom (numItems2 mem a) indices start) start = some words)
    (hle : ∀ index ∈ indices, numItems2 mem a index ≤ bound)
    (hlt : start + indices.length * bound < 2 ^ 32)
    (hoff : ∀ index ∈ indices, index * a.itemsUsed2 < 2 ^ 32) :
    words = entryWords ops mem (indices.flatMap (hitEntries mem a)) ∧
      (indices.flatMap (hitEntries mem a)).length = (indices.map (numItems2 mem a)).sum := by
  induction indices generalizing start words with
  | nil =>
    cases h
    exact ⟨rfl, rfl⟩
  | cons index indices ih =>
    obtain ⟨here, hhere, h⟩ := Option.bind_eq_some_iff.mp h
    obtain ⟨rest, hrest, h⟩ := Option.bind_eq_some_iff.mp h
    cases h
    have hfirst := hle index List.mem_cons_self
    rw [List.length_cons, Nat.succ_mul] at hlt
    have hcount : (start + numItems2 mem a index + 2 ^ 32 - start) % 2 ^ 32 =
        numItems2 mem a index := by omega
    rw [hcount, Nat.mod_eq_of_lt (hoff index List.mem_cons_self)] at hhere
    obtain ⟨hroom, rfl⟩ := cwnFillEntries_eq hhere
    obtain ⟨rfl, hlen⟩ := ih hrest (fun i hi => hle i (List.mem_cons_of_mem _ hi)) (by omega)
      fun i hi => hoff i (List.mem_cons_of_mem _ hi)
    rw [List.flatMap_cons, List.length_append, hlen, List.map_cons, List.sum_cons, hitEntries,
      List.length_take, List.length_drop]
    refine ⟨?_, by omega⟩
    rw [entryWords, entryWords, entryWords, List.flatten_append, List.map_append]

def endOffsets (a : Array2Item) (k : Nat) : List Nat :=
  [(a.dest2 + 4 * (k + 1)) % 2 ^ 32, (a.dest2 + 4 * (k + 1 + a.itemsUsed)) % 2 ^ 32]

theorem offsetsOf_ends (a : Array2Item) : OffsetsOf (endPtrs a.dest2 a.itemsUsed)
    ((List.range a.itemsUsed).flatMap (endOffsets a)) :=
  .flatMap fun _ _ => .cons _ _ (.cons _ _ .nil)

theorem Array2Item.used_lt {list : List Nat} (h : destIntCtrl a.dest
      (a.itemsUsed * a.itemsUsed2 % 2 ^ 32) 0 (cwnPtrsIndexedItem a.item.entries) = some list)
    (hlen : list.length < 2 ^ 30) : a.itemsUsed * a.itemsUsed2 < 2 ^ 32 := by
  have hslots : ∀ e ∈ a.item.entries, (e.map IndItem.slot).length = a.item.itemsPerEntry := by
    intro e he
    rw [List.length_map, a.item.uniform e he]
  obtain ⟨one, -, hcount, -, hone⟩ := destIntCtrl_eq (offsetsOf_entries a.item.entries) h hlen
  rw [length_flatMap_const hslots, a.alloc] at hone
  have hsmall : a.itemsUsed * a.itemsUsed2 % 2 ^ 32 * one < 2 ^ 32 := hcount
  have hle := Nat.mul_le_mul_left (a.itemsUsed * a.itemsUsed2) a.vars
  omega

theorem packTakes_array2 {list words : List Nat} (hlist : cwnPtrsArray2Item a = some list)
    (hwords : cwnFillArray2Item ops mem a = some words) (hlen : list.length < 2 ^ 30)
    (hwithin : a.Within mem) : PackTakes list words (array2Slots ops mem a) := by
  obtain ⟨lends, hlends, h⟩ := Option.bind_eq_some_iff.mp hlist
  obtain ⟨litems, hlitems, h⟩ := Option.bind_eq_some_iff.mp h
  cases h
  rw [List.length_append] at hlen
  have hused := Array2Item.used_lt hlitems (by omega)
  obtain ⟨indices, hscan, h⟩ := Option.bind_eq_some_iff.mp hwords
  obtain ⟨ends, hends, h⟩ := Option.bind_eq_some_iff.mp h
  dsimp only at h
  split at h
  · cases h
  · obtain ⟨ws, hws, h⟩ := Option.bind_eq_some_iff.mp h
    cases h
    cases scanBits_filled hscan
    have hnum : (filledIndices mem a.srcBitsOffset a.itemsUsed).length ≤ a.itemsUsed :=
      filledIndices_length_le
    have hroom : (filledIndices mem a.srcBitsOffset a.itemsUsed).length * a.itemsUsed2 ≤
        a.itemsUsed * a.itemsUsed2 := Nat.mul_le_mul_right _ hnum
    cases scanEnds_eq hends hwithin (by omega)
    have hoff : ∀ index ∈ filledIndices mem a.srcBitsOffset a.itemsUsed,
        index * a.itemsUsed2 < 2 ^ 32 := by
      intro index hindex
      have hlt := (mem_filledIndices.mp hindex).1
      have := Nat.mul_le_mul_right a.itemsUsed2 (Nat.le_of_lt hlt)
      omega
    obtain ⟨rfl, hcount⟩ := cwnFillByEnds_eq hws hwithin (by omega) hoff
    have hlast := endsFrom_last (numItems2 mem a)
      (filledIndices mem a.srcBitsOffset a.itemsUsed) 0
    rw [Nat.zero_add, ← hcount] at hlast
    rw [hlast, endsFrom_length]
    have htotal : (array2Entries mem a).length ≤ a.item.entries.length := by
      have hsum := sum_le_mul (l := (filledIndices mem a.srcBitsOffset a.itemsUsed).map
        (numItems2 mem a)) a.itemsUsed2 ?_
      · rw [List.length_map] at hsum
        rw [a.alloc, array2Entries]
        change ((filledIndices mem a.srcBitsOffset a.itemsUsed).flatMap (hitEntries mem a)).length ≤ _
        omega
      · intro n hn
        obtain ⟨index, hindex, rfl⟩ := List.mem_map.mp hn
        exact hwithin index hindex
    have hfilled : ∀ e ∈ array2Entries mem a, e ∈ a.item.entries := by
      intro e he
      obtain ⟨index, -, he⟩ := List.mem_flatMap.mp he
      exact List.mem_of_mem_drop (List.mem_of_mem_take he)
    have hpairs : ∀ k ∈ List.range a.itemsUsed, (endOffsets a k).length = 2 := fun _ _ => rfl
    have hvalues : ∀ e ∈ endsFrom (numItems2 mem a)
        (filledIndices mem a.srcBitsOffset a.itemsUsed) 0, [e.1 + 1, e.2].length = 2 :=
      fun _ _ => rfl
    have htakes := packTakes_ctrl (offsetsOf_ends a) hlends (by omega)
      (by rw [length_flatMap_const hpairs, List.length_range]) _ hnum
      (by rw [length_flatMap_const hvalues, endsFrom_length])
    rw [zip_flatMap hpairs hvalues] at htakes
    refine htakes.append ?_
    exact packTakes_entries hlitems (by omega) (by rw [a.alloc, Nat.mod_eq_of_lt hused]) _ hfilled
      htotal

end Array2

theorem cwnPtrs_takes {ops : FloatOps} {nt : CwnTuple} {mem : Nat → UInt8} {list words : List Nat}
    (hlist : cwnPtrs nt = some list) (hwords : cwnFill ops nt mem = some words)
    (hwithin : ∀ a ∈ nt.array2Items, a.Within mem) :
    list.length < 2 ^ 30 ∧ PackTakes list words (cwnSlots ops nt mem) := by
  obtain ⟨lindex, hlindex, h⟩ := Option.bind_eq_some_iff.mp hlist
  obtain ⟨larray, hlarray, h⟩ := Option.bind_eq_some_iff.mp h
  obtain ⟨larray2, hlarray2, h⟩ := Option.bind_eq_some_iff.mp h
  obtain ⟨wglobal, hwglobal, h'⟩ := Option.bind_eq_some_iff.mp hwords
  obtain ⟨windex, hwindex, h'⟩ := Option.bind_eq_some_iff.mp h'
  obtain ⟨warray, hwarray, h'⟩ := Option.bind_eq_some_iff.mp h'
  obtain ⟨warray2, hwarray2, h'⟩ := Option.bind_eq_some_iff.mp h'
  cases h'
  dsimp only at h
  split at h
  · cases h
  · next hsize =>
    cases h
    obtain ⟨-, rfl⟩ := cwnFillEntries_eq hwglobal
    have hglobal : entryWords ops mem (([nt.globalArray].drop 0).take 1) =
        nt.globalArray.map (IndItem.word ops mem) := by
      simp [entryWords]
    rw [hglobal]
    simp only [List.length_append] at hsize ⊢
    refine ⟨by omega, ?_⟩
    refine (((packTakes_items nt.globalArray).append ?_).append ?_).append ?_
    · exact .concat (fun a _ l w hl hw hlen => packTakes_index hl hw hlen) hlindex hwindex (by omega)
    · exact .concat (fun a _ l w hl hw hlen => packTakes_array hl hw hlen) hlarray hwarray (by omega)
    · exact .concat (fun a ha l w hl hw hlen => packTakes_array2 hl hw hlen (hwithin a ha)) hlarray2
        hwarray2 (by omega)

end Ucesb
