import Ucesb.NtupleStaged

namespace Ucesb

section Run

theorem WordsStored.take {mem mem' : List Nat} {k w : Nat} (h : WordsStored mem mem' k [w]) :
    mem'.take (k + 1) = mem.take k ++ [w] := by
  have hhere := h.holds 0 (by simp)
  rw [Nat.add_zero] at hhere
  have hbefore : mem'.take k = mem.take k := by
    refine List.ext_getElem? fun j => ?_
    rw [List.getElem?_take, List.getElem?_take]
    split
    · next hj => exact h.other j (.inl hj)
    · rfl
  rw [List.take_add_one, hbefore, hhere]
  rfl

theorem placesOf_append {done items : List BlockItem} {dests dests' : List Nat}
    {ws ws' : List WrittenVar} (hdests : dests.length = (done.map BlockItem.plainCount).sum)
    (hws : ws.length = (indexVarsOf done).length) :
    placesOf (done ++ items) (dests ++ dests') (ws ++ ws') =
      placesOf done dests ws ++ placesOf items dests' ws' := by
  induction done generalizing dests ws with
  | nil =>
    obtain rfl := List.length_eq_zero_iff.mp hdests
    obtain rfl := List.length_eq_zero_iff.mp hws
    rfl
  | cons i done ih =>
    cases i with
    | plain item =>
      rw [List.map_cons, List.sum_cons, BlockItem.plainCount] at hdests
      cases dests with
      | nil => rw [List.length_nil] at hdests; omega
      | cons d dests =>
        rw [List.length_cons] at hdests
        rw [List.cons_append, placesOf, placesOf, List.cons_append, List.tail_cons, List.tail_cons,
          ih (by omega) hws]
        rfl
    | index v =>
      rw [List.map_cons, List.sum_cons, BlockItem.plainCount] at hdests
      cases ws with
      | nil => cases hws
      | cons w ws =>
        rw [List.cons_append, placesOf, placesOf, List.cons_append, List.tail_cons, List.tail_cons,
          ih (by omega) (Nat.succ.inj hws), List.append_assoc]
        rfl

theorem indexVarsOf_append (items items' : List BlockItem) :
    indexVarsOf (items ++ items') = indexVarsOf items ++ indexVarsOf items' := by
  induction items with
  | nil => rfl
  | cons i items ih =>
    cases i with
    | plain item => exact ih
    | index v => exact congrArg (v :: ·) ih

structure ItemsLaid (size : EntrySize) (done : List BlockItem) (s : StageState) : Prop where
  entry : s.global.size = size
  infos : s.global.infos.length = size.slots + 2
  destsLength : s.global.dests.length = size.items
  indices : s.indices =
    ⟨(done.map BlockItem.plainSlots).sum, (done.map BlockItem.plainCount).sum⟩
  follows : Follows ⟨0, []⟩ (done.flatMap BlockItem.lens) s.out
  places : placesOf done (s.global.dests.take (done.map BlockItem.plainCount).sum) s.written =
    placesFrom 0 (done.flatMap BlockItem.lens)
  masks : List.Forall₂ (fun v w => MasksOfEntries v w.masksPerEntry w.masks) (indexVarsOf done)
    s.written
  indexVars : s.indexVars = (done.map BlockItem.indexCount).sum
  arrayVars : s.arrayVars = (done.map BlockItem.arrayCount).sum

def BlockItem.Uniform : BlockItem → Prop
  | .plain _ => True
  | .index v => v.Uniform

theorem initItem_ends (fresh : Nat → Nat) {size : EntrySize} {done : List BlockItem} {i : BlockItem}
    {s : StageState} (hready : i.Ready) (huniform : i.Uniform) (hsize : Sized (done ++ [i]))
    (hslots : ((done ++ [i]).map BlockItem.plainSlots).sum ≤ size.slots)
    (hitems : ((done ++ [i]).map BlockItem.plainCount).sum ≤ size.items)
    (h : ItemsLaid size done s) :
    Ends (· = .rejected) (ItemsLaid size (done ++ [i])) (initItem fresh s i) := by
  have hle := counts_le (done ++ [i])
  unfold Sized at hsize
  rw [flatMap_snoc] at hsize hle
  rw [map_snoc] at hslots hitems
  rw [map_snoc, map_snoc, map_snoc, map_snoc] at hle
  obtain ⟨hcount, hslotsLe⟩ := hle
  have hptr := h.follows.ptr
  have hlens : (done ++ [i]).flatMap BlockItem.lens = done.flatMap BlockItem.lens ++ i.lens := by
    rw [List.flatMap_append, List.flatMap_singleton]
  have htaken : (s.global.dests.take (done.map BlockItem.plainCount).sum).length =
      (done.map BlockItem.plainCount).sum := by
    rw [List.length_take, h.destsLength]
    omega
  have hwritten : s.written.length = (indexVarsOf done).length := h.masks.length_eq.symm
  dsimp only at hptr
  cases i with
  | plain item =>
    change _ + infoSlots item.toNtupleItem ≤ size.slots at hslots
    change _ + 1 ≤ size.items at hitems
    have hone : (BlockItem.plain item).lens = [1] := rfl
    rw [hone, List.sum_singleton] at hsize
    have hslot4 := infoSlots_le item.toNtupleItem
    change _ ∧ _ at hslot4
    have hdone := counts_le done
    have hslots32 : (done.map BlockItem.plainSlots).sum + infoSlots item.toNtupleItem < 2 ^ 32 := by
      omega
    refine ends_bind (initVar_ends ?_ ?_) ?_
    · rw [h.infos, h.indices]
      dsimp only
      omega
    · rw [h.destsLength, h.indices]
      dsimp only
      omega
    rintro ⟨global, indices, out⟩ ⟨words, infos, dests, hwords, hinfos, hdests, heq⟩
    cases heq
    rw [h.indices] at hdests
    simp only [Nat.zero_mul, Nat.zero_mod, Nat.zero_add] at hdests
    have hfollows : Follows s.out [1] { s.out.hbname (4 * 1) with ptr := s.out.ptr + 4 } :=
      @book_follows s.out 1 (by omega)
    refine ⟨h.entry, ?_, ?_, ?_, ?_, ?_, ?_, ?_, ?_⟩
    · rw [← h.infos]
      exact hinfos.length
    · rw [← h.destsLength]
      exact hdests.length
    · rw [map_snoc, map_snoc, h.indices]
      dsimp only
      rw [Nat.mod_eq_of_lt hslots32, Nat.mod_eq_of_lt (by omega)]
      rfl
    · rw [hlens]
      exact h.follows.trans hfollows
    · rw [map_snoc, hlens, placesFrom_append]
      have htake := hdests.take
      have happend := @placesOf_append done [.plain item]
        (s.global.dests.take (done.map BlockItem.plainCount).sum) [s.out.ptr] s.written []
        htaken hwritten
      rw [List.append_nil, h.places] at happend
      change placesOf _ (dests.take (_ + 1)) s.written = _
      rw [htake, happend, hptr, Nat.zero_add]
      rfl
    · rw [indexVarsOf_append]
      change List.Forall₂ _ (indexVarsOf done ++ []) s.written
      rw [List.append_nil]
      exact h.masks
    · rw [map_snoc]
      exact h.indexVars
    · rw [map_snoc]
      exact h.arrayVars
  | index v =>
    obtain ⟨hbuilt, hfilled, hcounted, -⟩ := hready
    have hlensV : (BlockItem.index v).lens = v.lens := rfl
    rw [hlensV] at hsize hlens
    have hrejected : v.twoD = true ∧ (!v.isArray) = true → LayoutStop.rejected = .rejected :=
      fun _ => rfl
    refine ends_bind (ends_errorIf hrejected) fun _ _ => ?_
    refine ends_bind (initIndexVar_ends fresh hbuilt huniform hfilled hcounted ?_ ?_) ?_
    · omega
    · omega
    rintro ⟨w, out⟩ hlaid
    refine ⟨h.entry, h.infos, h.destsLength, ?_, ?_, ?_, ?_, ?_, ?_⟩
    · rw [map_snoc, map_snoc]
      exact h.indices
    · rw [hlens]
      exact h.follows.trans hlaid.follows
    · rw [map_snoc, hlens, placesFrom_append]
      have happend := @placesOf_append done [.index v]
        (s.global.dests.take (done.map BlockItem.plainCount).sum) [] s.written [w]
        htaken hwritten
      rw [List.append_nil, h.places] at happend
      change placesOf _ (s.global.dests.take (_ + 0)) (s.written ++ [w]) = _
      rw [Nat.add_zero, happend]
      congr 1
      change varPlaces v w ++ [] = _
      rw [List.append_nil, hlaid.places, hptr]
    · rw [indexVarsOf_append]
      exact List.rel_append h.masks (.cons hlaid.masks .nil)
    · rw [map_snoc]
      dsimp only
      rw [h.indexVars]
      change _ = _ + (if !v.isArray then 1 else 0)
      split <;> rfl
    · rw [map_snoc]
      dsimp only
      rw [h.arrayVars]
      change _ = _ + (if v.isArray ∧ !v.twoD then 1 else 0)
      split <;> rfl

theorem initItems_ends (fresh : Nat → Nat) {size : EntrySize} {done items : List BlockItem}
    {s : StageState} (hready : ∀ i ∈ items, i.Ready) (huniform : ∀ i ∈ items, i.Uniform)
    (hsize : Sized (done ++ items))
    (hslots : ((done ++ items).map BlockItem.plainSlots).sum = size.slots)
    (hitems : ((done ++ items).map BlockItem.plainCount).sum = size.items)
    (h : ItemsLaid size done s) :
    Ends (· = .rejected) (ItemsLaid size (done ++ items)) (items.foldlM (initItem fresh) s) := by
  induction items generalizing done s with
  | nil =>
    rw [List.append_nil]
    exact h
  | cons i items ih =>
    obtain ⟨hi, hrest⟩ := List.forall_mem_cons.mp hready
    obtain ⟨hui, hurest⟩ := List.forall_mem_cons.mp huniform
    have hsplit : done ++ i :: items = (done ++ [i]) ++ items := by
      rw [List.append_assoc]
      rfl
    rw [hsplit] at hsize hslots hitems ⊢
    have hfirst : Sized (done ++ [i]) := by
      unfold Sized at hsize ⊢
      rw [List.flatMap_append, List.sum_append] at hsize
      omega
    rw [List.foldlM_cons]
    refine ends_bind (initItem_ends fresh hi hui hfirst ?_ ?_ h) fun s' hs' =>
      ih hrest hurest hsize hslots hitems hs'
    · rw [List.map_append, List.sum_append] at hslots
      omega
    · rw [List.map_append, List.sum_append] at hitems
      omega

end Run

section Layout

variable {items : List BlockItem}

theorem counted_lens (items : List BlockItem) :
    (items.map BlockItem.counted).flatMap BlockItem.lens = items.flatMap BlockItem.lens := by
  rw [List.flatMap_map]
  congr 1
  funext i
  cases i with
  | plain item => rfl
  | index v => rfl

theorem counted_indexVars (items : List BlockItem) :
    indexVarsOf (items.map BlockItem.counted) =
      (indexVarsOf items).map StagedIndexVar.counted := by
  induction items with
  | nil => rfl
  | cons i items ih =>
    cases i with
    | plain item => exact ih
    | index v => exact congrArg (v.counted :: ·) ih

structure LaidExactly (items : List BlockItem) (out : StagedLayout) : Prop where
  counted : out.items = items.map BlockItem.counted
  ready : ∀ i ∈ out.items, i.Ready
  announced : out.announced = 4 * (items.flatMap BlockItem.lens).sum
  branches : out.branches = branchesFrom 0 (items.flatMap BlockItem.lens)
  places : placesOf out.items out.global.dests out.written =
    placesFrom 0 (items.flatMap BlockItem.lens)
  masks : List.Forall₂ (fun v w => MasksOfEntries v w.masksPerEntry w.masks)
    (indexVarsOf out.items) out.written

theorem layoutItems_ends (fresh : Nat → Nat) (hbuilt : ∀ i ∈ items, i.Built)
    (huniform : ∀ i ∈ items, i.Uniform) (hsize : Sized items) :
    Ends (· = .rejected) (LaidExactly items) (layoutItems fresh items) := by
  have hle := counts_le items
  have hbytes : 4 * (items.flatMap BlockItem.lens).sum < 2 ^ 32 := hsize
  unfold layoutItems
  refine ends_bind (@storageItems_ends [] items ⟨0, 0, 0, 0, 0, 0⟩ ⟨rfl, rfl, rfl, rfl, rfl⟩ hbuilt
    hsize) ?_
  rintro ⟨c, items'⟩ ⟨hc, rfl, hready⟩
  rw [List.nil_append] at hc
  have huniform' : ∀ i ∈ items.map BlockItem.counted, i.Uniform := by
    intro i' hi'
    obtain ⟨i, hi, rfl⟩ := List.mem_map.mp hi'
    have hhere := huniform i hi
    cases i with
    | plain item => trivial
    | index v => exact hhere
  have hcounted : ∀ f : BlockItem → Nat, (∀ i, f i.counted = f i) →
      ((items.map BlockItem.counted).map f).sum = (items.map f).sum := by
    intro f hf
    rw [List.map_map]
    congr 2
    funext i
    exact hf i
  have hsame : ∀ i : BlockItem, i.counted.plainSlots = i.plainSlots ∧
      i.counted.plainCount = i.plainCount ∧ i.counted.indexCount = i.indexCount ∧
      i.counted.arrayCount = i.arrayCount := by
    intro i
    cases i with
    | plain item => exact ⟨rfl, rfl, rfl, rfl⟩
    | index v => exact ⟨rfl, rfl, rfl, rfl⟩
  have hplainSlots := hcounted BlockItem.plainSlots fun i => (hsame i).1
  have hplainCount := hcounted BlockItem.plainCount fun i => (hsame i).2.1
  have hindexCount := hcounted BlockItem.indexCount fun i => (hsame i).2.2.1
  have harrayCount := hcounted BlockItem.arrayCount fun i => (hsame i).2.2.2
  have hslots := hc.infoSlots
  have hitems := hc.itemsPerEntry
  dsimp only at hslots hitems
  have hslotsTwo : (items.map BlockItem.plainSlots).sum + 2 < 2 ^ 32 := by omega
  obtain ⟨infos, halloc, hlength⟩ := @allocIndexed_eq fresh ⟨c.infoSlots, c.itemsPerEntry⟩ 1
    (by dsimp only; omega) (by dsimp only; omega)
  dsimp only
  rw [halloc]
  simp only [bind, Except.bind]
  have hinit : ItemsLaid ⟨c.infoSlots, c.itemsPerEntry⟩ []
      ⟨⟨⟨c.infoSlots, c.itemsPerEntry⟩, infos,
        (List.range (c.itemsPerEntry * 1)).map fresh⟩, ⟨0, 0⟩, ⟨0, []⟩, [], 0, 0⟩ := by
    refine ⟨rfl, ?_, ?_, rfl, Follows.refl _, rfl, .nil, rfl, rfl⟩
    · rw [hlength, Nat.mul_one]
    · rw [List.length_map, List.length_range, Nat.mul_one]
  have hrun := @initItems_ends fresh _ [] _ _ hready huniform'
    (by unfold Sized; rw [List.nil_append, counted_lens]; exact hbytes)
    (by rw [List.nil_append, hplainSlots, hslots]) (by rw [List.nil_append, hplainCount, hitems]) hinit
  rw [List.nil_append] at hrun
  cases hs : (items.map BlockItem.counted).foldlM (initItem fresh) _ with
  | error e =>
    rw [hs] at hrun
    exact hrun
  | ok s =>
    rw [hs] at hrun
    have hptr := hrun.follows.ptr
    rw [counted_lens, Nat.zero_add] at hptr
    have hindices := hrun.indices
    rw [hplainSlots, hplainCount] at hindices
    have hsizeEq : c.size = s.out.ptr := by rw [hc.size, hptr]
    have hindexVars : c.indexVars = s.indexVars := by rw [hc.indexVars, hrun.indexVars, hindexCount]
    have harrayVars : c.arrayVars = s.arrayVars := by rw [hc.arrayVars, hrun.arrayVars, harrayCount]
    have hslotInd : s.global.size.slots = s.indices.slotInd := by rw [hrun.entry, hindices, hslots]
    have hdestInd : s.global.size.items = s.indices.destInd := by rw [hrun.entry, hindices, hitems]
    simp only [errorIf, hsizeEq, hindexVars, harrayVars, hslotInd, hdestInd, ne_eq, not_true,
      if_false]
    refine ⟨rfl, hready, ?_, ?_, ?_, hrun.masks⟩
    · change s.out.ptr % 2 ^ 32 = _
      rw [hptr]
      exact Nat.mod_eq_of_lt hbytes
    · change s.out.branches = _
      rw [hrun.follows.branches, counted_lens]
      rfl
    · change placesOf _ s.global.dests s.written = _
      have hplaces := hrun.places
      have hlen : s.global.dests.length = c.itemsPerEntry := hrun.destsLength
      rw [hplainCount, ← hitems, ← hlen, List.take_length, counted_lens] at hplaces
      exact hplaces

end Layout

section Right

variable {items : List BlockItem} {out : StagedLayout}

theorem mem_consecutive {start n place : Nat} (h : place ∈ consecutive start n) :
    ∃ k < n, place = start + 4 * k := by
  obtain ⟨k, hk, rfl⟩ := List.mem_map.mp h
  exact ⟨k, List.mem_range.mp hk, rfl⟩

theorem flatten_slice {α : Type} {lists : List (List α)} {n k : Nat} {l : List α}
    (h : ∀ l ∈ lists, l.length = n) (hk : lists[k]? = some l) :
    (lists.flatten.drop (k * n)).take n = l := by
  induction lists generalizing k with
  | nil => cases hk
  | cons first lists ih =>
    obtain ⟨hfirst, hlists⟩ := List.forall_mem_cons.mp h
    cases k with
    | zero =>
      obtain rfl := Option.some.inj hk
      rw [Nat.zero_mul, List.drop_zero, List.flatten_cons, ← hfirst, List.take_left]
    | succ k =>
      rw [Nat.add_one_mul, Nat.add_comm, ← List.drop_drop, List.flatten_cons, ← hfirst,
        List.drop_left, hfirst]
      exact ih hlists hk

theorem masksRight_iff {v : StagedIndexVar} {w : WrittenVar} (hbuilt : v.Built)
    (huniform : v.Uniform) (hfilled : v.Filled) (h : MasksOfEntries v w.masksPerEntry w.masks) :
    MasksRight v w ↔ ¬v.MasksShort := by
  have hall : ∀ l ∈ (List.range v.lengthUsed.one).map v.masksAt, l.length = w.masksPerEntry := by
    intro l hl
    obtain ⟨e, he, rfl⟩ := List.mem_map.mp hl
    exact h.same e (List.mem_range.mp he)
  have hlength := flatten_length_same hall
  rw [List.length_map, List.length_range, ← h.masks] at hlength
  have hbeyond : ∀ k, v.lengthUsed.one ≤ k →
      (w.masks.drop (k * w.masksPerEntry)).take w.masksPerEntry = [] := by
    intro k hk
    have hmul := Nat.mul_le_mul_right w.masksPerEntry hk
    rw [List.drop_eq_nil_of_le (by rw [hlength, Nat.mul_comm]; exact hmul), List.take_nil]
  constructor
  · rintro hright ⟨htwoD, htwo, var, hvar, ind, hind, item, hitem, hmasked⟩
    have hlast : (⟨v.lengthUsed.one - 1, v.lengthUsed.two - 1⟩ : SniInd) ∈ v.lengthUsed.all := by
      have hused := hbuilt.used.1
      exact SniInd.mem_all.mpr ⟨Nat.sub_lt hused Nat.one_pos, Nat.sub_lt hbuilt.used2.1 Nat.one_pos⟩
    obtain ⟨last, hlastItem⟩ := hfilled var hvar _ hlast
    have hlastMasked := huniform var hvar ind hind _ hlast item last hitem hlastItem
    rw [hmasked] at hlastMasked
    obtain ⟨mask, hmask⟩ := Option.isSome_iff_exists.mp hlastMasked.symm
    have hlist := hright _ hlast
    dsimp only at hlist
    rw [hbeyond _ ?_] at hlist
    · have hnone := (hlist.mem mask.off).mpr
        ⟨last, List.mem_filterMap.mpr ⟨var, hvar, hlastItem⟩, mask, hmask, rfl⟩
      cases hnone
    · have hmul := Nat.mul_le_mul_left (v.lengthUsed.one - 1) htwo
      have hone := hbuilt.used.1
      omega
  · intro hshort ind hind
    obtain ⟨hone, htwo⟩ := SniInd.mem_all.mp hind
    by_cases hk : ind.one * v.lengthUsed.two + ind.two < v.lengthUsed.one
    · have hnth : v.lengthUsed.nth (ind.one * v.lengthUsed.two + ind.two) = ind := by
        rw [SniInd.nth, Nat.mul_comm, Nat.mul_add_div (by omega), Nat.mul_add_mod,
          Nat.div_eq_of_lt htwo, Nat.mod_eq_of_lt htwo]
        rfl
      have hentry : ((List.range v.lengthUsed.one).map v.masksAt)[ind.one * v.lengthUsed.two +
          ind.two]? = some (v.masksAt (ind.one * v.lengthUsed.two + ind.two)) := by
        rw [List.getElem?_map, List.getElem?_range hk]
        rfl
      rw [h.masks, flatten_slice hall hentry, StagedIndexVar.masksAt, hnth]
      exact maskSet_maskListOf _
    · rw [hbeyond _ (by omega)]
      refine ⟨.nil, fun off => ⟨nofun, ?_⟩⟩
      rintro ⟨item, hitem, mask, hmask, -⟩
      obtain ⟨var, hvar, hthere⟩ := List.mem_filterMap.mp hitem
      refine absurd ⟨?_, ?_, var, hvar, ind, hind, item, hthere, ?_⟩ hshort
      · by_contra hnot
        rw [Bool.not_eq_true] at hnot
        have hmax := hbuilt.oneD hnot
        have hused := hbuilt.used2.2
        have htwoOne : v.lengthUsed.two = 1 := by omega
        rw [htwoOne] at hk htwo
        omega
      · by_contra hnot
        have htwoOne : v.lengthUsed.two = 1 := by omega
        rw [htwoOne] at hk
        omega
      · rw [hmask]
        rfl

theorem LaidExactly.right_iff (h : LaidExactly items out)
    (huniform : ∀ i ∈ out.items, i.Uniform) :
    StagedRight out ↔ ∀ v ∈ indexVarsOf out.items, ¬v.MasksShort := by
  have hmem : ∀ v ∈ indexVarsOf out.items, BlockItem.index v ∈ out.items := by
    intro v
    induction out.items with
    | nil => exact nofun
    | cons i items ih =>
      cases i with
      | plain item => exact fun hv => List.mem_cons_of_mem _ (ih hv)
      | index v' =>
        intro hv
        rcases List.mem_cons.mp hv with rfl | hv
        · exact List.mem_cons_self
        · exact List.mem_cons_of_mem _ (ih hv)
  have hiff : ∀ v ∈ indexVarsOf out.items, ∀ w, MasksOfEntries v w.masksPerEntry w.masks →
      (MasksRight v w ↔ ¬v.MasksShort) := by
    intro v hv w hw
    obtain ⟨hbuilt, hfilled, -⟩ := h.ready _ (hmem v hv)
    exact masksRight_iff hbuilt (huniform _ (hmem v hv)) hfilled hw
  have hmasks := h.masks
  constructor
  · intro hright v hv
    have hboth := hright.masks
    revert hmasks hboth hiff hv
    generalize indexVarsOf out.items = vars
    generalize out.written = ws
    intro hiff hmasks hv hboth
    induction hboth with
    | nil => cases hv
    | @cons v' w' vars' ws' hfirst hrest ih =>
      cases hmasks with
      | cons hmask hmasks =>
        rcases List.mem_cons.mp hv with rfl | hv
        · exact (hiff _ List.mem_cons_self _ hmask).mp hfirst
        · exact ih (fun v hv => hiff v (List.mem_cons_of_mem _ hv)) hmasks hv
  · intro hshort
    refine ⟨?_, ?_, ?_, ?_, ?_⟩
    · rw [h.places, placesFrom_flatten]
      exact consecutive_nodup _ _
    · rw [h.places, placesFrom_flatten, h.announced]
      intro place hplace
      obtain ⟨k, hk, rfl⟩ := mem_consecutive hplace
      omega
    · rw [h.places, h.branches]
      exact branchesFrom_places _ _
    · rw [h.branches]
      exact branchesFrom_disjoint _ _
    · revert hmasks hshort hiff
      generalize indexVarsOf out.items = vars
      generalize out.written = ws
      intro hiff hmasks hshort
      induction hmasks with
      | nil => exact .nil
      | cons hmask hrest ih =>
        refine .cons ((hiff _ List.mem_cons_self _ hmask).mpr (hshort _ List.mem_cons_self)) ?_
        exact ih (fun v hv => hiff v (List.mem_cons_of_mem _ hv))
          fun v hv => hshort v (List.mem_cons_of_mem _ hv)

end Right

section Listing

variable {items : List BlockItem}

theorem storageItems_lens {items items' : List BlockItem} {c c' : StorageSize}
    (h : storageItems c items = .ok (c', items')) :
    items'.flatMap BlockItem.lens = items.flatMap BlockItem.lens := by
  induction items generalizing c c' items' with
  | nil =>
    cases h
    rfl
  | cons i items ih =>
    obtain ⟨⟨c1, i1⟩, hi, h⟩ := bind_eq_ok.mp h
    obtain ⟨⟨c2, items2⟩, hrest, h⟩ := bind_eq_ok.mp h
    cases h
    rw [List.flatMap_cons, List.flatMap_cons, ih hrest]
    congr 1
    cases i with
    | plain item =>
      cases hi
      rfl
    | index v =>
      obtain ⟨-, hi⟩ := errorIf_bind_ok.mp hi
      obtain ⟨⟨v', size⟩, hv, hi⟩ := bind_eq_ok.mp hi
      obtain ⟨c3, -, hv⟩ := bind_eq_ok.mp hv
      cases hv
      cases hi
      rfl

theorem varPlaces_length (v : StagedIndexVar) (w : WrittenVar) :
    (varPlaces v w).flatten.length = v.lens.sum := by
  have helements : (((List.range v.vars.length).map (elementPlaces v w)).map List.length).sum =
      v.vars.length * v.tot := by
    have hlength : ∀ u ∈ List.range v.vars.length,
        (List.length ∘ elementPlaces v w) u = v.tot := by
      intro u _
      rw [Function.comp_apply, elementPlaces, List.length_map, List.length_range]
      rfl
    rw [List.map_map, List.map_congr_left hlength, List.map_const', List.length_range,
      List.sum_replicate_nat]
  rw [v.lens_sum, List.length_flatten]
  unfold varPlaces StagedIndexVar.lens2d StagedIndexVar.lensIndex
  simp only [List.map_append, List.map_cons, List.sum_append, List.sum_cons, helements]
  split <;> split <;> simp [consecutive_length]

theorem placesOf_length (items : List BlockItem) (dests : List Nat) (ws : List WrittenVar) :
    (placesOf items dests ws).flatten.length = (items.flatMap BlockItem.lens).sum := by
  induction items generalizing dests ws with
  | nil => rfl
  | cons i items ih =>
    cases i with
    | plain item =>
      rw [placesOf, List.flatten_cons, List.length_append, ih, List.flatMap_cons, List.sum_append]
      rfl
    | index v =>
      rw [placesOf, List.flatten_append, List.length_append, ih, varPlaces_length,
        List.flatMap_cons, List.sum_append]
      rfl

theorem StagedRight.sized {fresh : Nat → Nat} {out : StagedLayout}
    (hout : layoutItems fresh items = .ok out) (h : StagedRight out) : Sized items := by
  have hsub : (placesOf out.items out.global.dests out.written).flatten ⊆
      consecutive 0 (out.announced / 4) := by
    intro place hplace
    obtain ⟨haligned, hinside⟩ := h.inside place hplace
    exact List.mem_map.mpr ⟨place / 4, List.mem_range.mpr (by omega), by omega⟩
  have hle := (List.subperm_of_subset h.own hsub).length_le
  rw [placesOf_length, consecutive_length] at hle
  obtain ⟨⟨c, items'⟩, hcount, hout⟩ := bind_eq_ok.mp hout
  obtain ⟨global, -, hout⟩ := bind_eq_ok.mp hout
  obtain ⟨s, -, hout⟩ := bind_eq_ok.mp hout
  obtain ⟨-, hout⟩ := errorIf_bind_ok.mp hout
  obtain ⟨-, hout⟩ := errorIf_bind_ok.mp hout
  obtain ⟨-, hout⟩ := errorIf_bind_ok.mp hout
  obtain ⟨-, hout⟩ := errorIf_bind_ok.mp hout
  obtain ⟨-, hout⟩ := errorIf_bind_ok.mp hout
  cases hout
  dsimp only at hle
  rw [storageItems_lens hcount] at hle
  unfold Sized
  have hmod := Nat.mod_lt c.size (show 0 < 2 ^ 32 by decide)
  omega

theorem layoutRight_iff (fresh : Nat → Nat) (hbuilt : ∀ i ∈ items, i.Built)
    (huniform : ∀ i ∈ items, i.Uniform) (hsize : Sized items) :
    LayoutRight fresh items ↔ (layoutItems fresh items ≠ .error .rejected →
      ∀ v ∈ indexVarsOf items, ¬v.MasksShort) := by
  have hends := layoutItems_ends fresh hbuilt huniform hsize
  cases hlayout : layoutItems fresh items with
  | error e =>
    rw [hlayout] at hends
    obtain rfl : e = .rejected := hends
    exact ⟨fun _ hne => absurd rfl hne, fun _ hne => absurd hlayout hne⟩
  | ok out =>
    rw [hlayout] at hends
    have huniform' : ∀ i ∈ out.items, i.Uniform := by
      rw [hends.counted]
      intro i' hi'
      obtain ⟨i, hi, rfl⟩ := List.mem_map.mp hi'
      have hhere := huniform i hi
      cases i with
      | plain item => trivial
      | index v => exact hhere
    have hright := hends.right_iff huniform'
    rw [hends.counted, counted_indexVars] at hright
    have hsame : (∀ v ∈ (indexVarsOf items).map StagedIndexVar.counted, ¬v.MasksShort) ↔
        ∀ v ∈ indexVarsOf items, ¬v.MasksShort := List.forall_mem_map
    rw [hsame] at hright
    constructor
    · intro h _
      obtain ⟨out', hout', hstaged⟩ := h (by rw [hlayout]; exact nofun)
      obtain rfl := Except.ok.inj (hlayout.symm.trans hout')
      exact hright.mp hstaged
    · exact fun h _ => ⟨out, hlayout, hright.mpr (h nofun)⟩

theorem blockItems_built {listing : List ListedItem} {blocks : List StagedBlock}
    (h : stageListing listing = .ok blocks) : ∀ i ∈ blockItems blocks, i.Built := by
  intro i hi
  obtain ⟨b, hb, hi⟩ := List.mem_flatMap.mp hi
  exact stageListing_built h b hb i hi

/-- The layout of a listing is right in a storage of 32 bits, with uniform masks that are not too
few. -/
theorem staged_layout_right (fresh : Nat → Nat) {listing : List ListedItem}
    {blocks : List StagedBlock} (h : stageListing listing = .ok blocks) :
    ((∀ i ∈ blockItems blocks, i.Uniform) → Sized (blockItems blocks) →
      (∀ v ∈ indexVarsOf (blockItems blocks), ¬v.MasksShort) →
        LayoutRight fresh (blockItems blocks)) ∧
    ((∀ i ∈ blockItems blocks, i.Uniform) → LayoutRight fresh (blockItems blocks) →
      layoutItems fresh (blockItems blocks) ≠ .error .rejected →
        Sized (blockItems blocks) ∧ ∀ v ∈ indexVarsOf (blockItems blocks), ¬v.MasksShort) := by
  have hbuilt := blockItems_built h
  constructor
  · intro huniform hsize hmasks
    exact (layoutRight_iff fresh hbuilt huniform hsize).mpr fun _ => hmasks
  · intro huniform hright haccepted
    obtain ⟨out, hout, hstaged⟩ := hright haccepted
    have hsize := hstaged.sized hout
    exact ⟨hsize, (layoutRight_iff fresh hbuilt huniform hsize).mp hright haccepted⟩

def demoIndex : ListedItem where
  type := .int
  flags := ntupleItemHasLimit ||| ntupleItemIsArrayMask
  src := 0
  ctrlMask := none
  name := "m"
  block := ""
  indexVar := ""
  index := 0
  ptrLimit2 := none
  maxLimit2 := 0
  index2 := 0
  limitMin := 0
  limitMax := 1

def demoHit (index2 : Nat) : ListedItem where
  type := .float
  flags := 0
  src := 16 + 8 * index2
  ctrlMask := some ⟨20 + 8 * index2, 1, 0⟩
  name := "x"
  block := ""
  indexVar := "m"
  index := 0
  ptrLimit2 := some 8
  maxLimit2 := 2
  index2 := index2
  limitMin := 0
  limitMax := 0

def demoVar (hits : List Nat) : IndexedVar :=
  hits.foldl (fun var hit => var.set ⟨0, hit⟩ (demoHit hit)) ⟨"x", fun _ => none⟩

def demoItems (hits : List Nat) : List BlockItem :=
  [.index ⟨true, demoIndex, ⟨1, 2⟩, ⟨1, hits.length⟩, [demoVar hits], ⟨0, 0⟩⟩]

theorem staged_layout_right_demo :
    LayoutRight (fun _ => 0) (demoItems [0]) := by
  have hbuilt : stageListing [demoIndex, demoHit 0] = .ok [⟨"", demoItems [0]⟩] := rfl
  have hitems : blockItems [⟨"", demoItems [0]⟩] = demoItems [0] := rfl
  have hright := (staged_layout_right (fun _ => 0) hbuilt).1
  rw [hitems] at hright
  refine hright ?_ ?_ ?_
  · intro i hi
    obtain rfl := List.mem_singleton.mp hi
    intro var hvar ind hind ind' hind' item item' hitem hitem'
    obtain rfl := List.mem_singleton.mp hind
    obtain rfl := List.mem_singleton.mp hind'
    obtain rfl := Option.some.inj (hitem.symm.trans hitem')
    rfl
  · unfold Sized
    decide
  · intro v hv
    obtain rfl := List.mem_singleton.mp hv
    exact fun h => absurd h.2.1 (by decide)

theorem second_hit_without_masks :
    ¬∀ fresh listing blocks, stageListing listing = .ok blocks →
      LayoutRight fresh (blockItems blocks) := by
  intro h
  have hright : LayoutRight (fun _ => 0) (demoItems [0, 1]) :=
    h (fun _ => 0) [demoIndex, demoHit 0, demoHit 1] [⟨"", demoItems [0, 1]⟩] rfl
  have hmem : ∀ i ∈ demoItems [0, 1], i.Built := by
    intro i hi
    obtain rfl := List.mem_singleton.mp hi
    exact ⟨⟨.inl rfl, by decide, by decide, by decide, nofun, List.cons_ne_nil _ _⟩, rfl⟩
  have huniform : ∀ i ∈ demoItems [0, 1], i.Uniform := by
    intro i hi
    obtain rfl := List.mem_singleton.mp hi
    intro var hvar ind hind ind' hind' item item' hitem hitem'
    obtain rfl := List.mem_singleton.mp hvar
    have hall : ∀ ind ∈ SniInd.all ⟨1, 2⟩,
        ((demoVar [0, 1]).items ind).map (fun item => item.ctrlMask.isSome) = some true := by
      decide
    have hmasked := hall ind hind
    have hmasked' := hall ind' hind'
    rw [hitem] at hmasked
    rw [hitem'] at hmasked'
    exact Option.some.inj (hmasked.trans hmasked'.symm)
  have haccepted : layoutItems (fun _ => 0) (demoItems [0, 1]) ≠ .error .rejected := by
    have hok : (layoutItems (fun _ => 0) (demoItems [0, 1])).toBool = true := by decide +kernel
    intro herror
    rw [herror] at hok
    cases hok
  have hsized : Sized (demoItems [0, 1]) := by
    unfold Sized
    decide
  have hnone := (layoutRight_iff (fun _ => 0) hmem huniform hsized).mp hright haccepted
  exact hnone _ List.mem_cons_self ⟨rfl, by decide, demoVar [0, 1], List.mem_cons_self, ⟨0, 0⟩,
    by decide, demoHit 0, rfl, rfl⟩

end Listing

end Ucesb
