import Ucesb.NtupleMasks

namespace Ucesb

section Run

variable {v : StagedIndexVar} {start : Nat} {branches : List Branch} {st : VarState}

theorem initIndexedVars_ends (hbuilt : v.Built) (huniform : v.Uniform) (hfilled : v.Filled)
    (hsize : start + 4 * (v.vars.length * v.tot) + 4 ≤ 2 ^ 32) (hstart : 4 ≤ start)
    {done vars : List IndexedVar} (hvars : v.vars = done ++ vars) (firstItem : Bool)
    (h : ElementsLaid v start branches done.length 0 st) :
    Ends (· = .rejected) (ElementsLaid v start branches v.vars.length 0)
      (initIndexedVars v firstItem vars st) := by
  have htot : 0 < v.tot := Nat.mul_pos hbuilt.used.1 hbuilt.used2.1
  induction vars generalizing done firstItem st with
  | nil =>
    rw [List.append_nil] at hvars
    rw [hvars]
    exact h
  | cons var vars ih =>
    have hvar : v.vars[done.length]? = some var := by
      rw [hvars, List.getElem?_append_right (Nat.le_refl _), Nat.sub_self]
      rfl
    have hindices : st.indices = ⟨v.slotAt done.length, done.length⟩ := by
      rw [h.indices, if_pos rfl]
    rw [initIndexedVars, SniInd.all_eq, List.foldlM_map, hindices]
    refine ends_bind (foldlM_range_ends (fun k s hk hs => ?_) h) fun st' hst' => ?_
    · exact initElement_ends hbuilt huniform hfilled hvar hk hsize hstart hs
    · have hnext := hst'.next htot
      refine @ih _ (done ++ [var]) ?_ false ?_
      · rw [hvars, List.append_assoc]
        rfl
      · rw [List.length_append, List.length_singleton]
        exact hnext

theorem allocIndexed_eq (fresh : Nat → Nat) {size : EntrySize} {mult : Nat}
    (hslots : size.slots * mult + 2 < 2 ^ 32) (hitems : size.items * mult < 2 ^ 32) :
    ∃ infos, allocIndexed fresh size mult =
        .ok ⟨size, infos, (List.range (size.items * mult)).map fresh⟩ ∧
      infos.length = size.slots * mult + 2 := by
  have hfits : size.slots * mult + [0, 0].length ≤
      ((List.range (size.slots * mult + 2)).map fresh).length := by
    rw [List.length_map, List.length_range]
    exact Nat.le_refl _
  obtain ⟨infos, hinfos, hstored⟩ := storeWords_ok hfits
  refine ⟨infos, ?_, ?_⟩
  · unfold allocIndexed
    dsimp only
    rw [Nat.mod_eq_of_lt (by omega : size.slots * mult < 2 ^ 32), Nat.mod_eq_of_lt hslots,
      Nat.mod_eq_of_lt hitems, hinfos]
    rfl
  · rw [hstored.length, List.length_map, List.length_range]

theorem initVars_ends (fresh : Nat → Nat) {offsets : List Nat} {s : Layout} (hbuilt : v.Built)
    (huniform : v.Uniform) (hfilled : v.Filled)
    (hsize : s.ptr + 4 * (v.vars.length * v.tot) + 4 ≤ 2 ^ 32) (hstart : 4 ≤ s.ptr)
    (hcounted : v.writePtrs = ⟨v.slotsPerEntry, v.vars.length⟩)
    (hoffsets : v.twoD = true → offsets.length = v.lengthUsed.one) :
    Ends (· = .rejected) (ElementsLaid v s.ptr s.branches v.vars.length 0)
      (initVars fresh v offsets s) := by
  have hentries : v.slotsPerEntry * v.tot ≤ 4 * (v.vars.length * v.tot) := by
    have hle := Nat.mul_le_mul_right v.tot v.slotsPerEntry_le
    rwa [Nat.mul_assoc] at hle
  have hone : 1 ≤ v.vars.length := List.length_pos_of_ne_nil hbuilt.vars
  have htot : v.tot ≤ v.vars.length * v.tot := Nat.le_mul_of_pos_left _ hone
  have hused : v.lengthUsed.tot = v.tot := by
    rw [SniInd.tot]
    exact Nat.mod_eq_of_lt (show v.tot < 2 ^ 32 by omega)
  obtain ⟨infos, halloc, hlength⟩ := @allocIndexed_eq fresh v.writePtrs v.tot
    (by rw [hcounted]; dsimp only; omega) (by rw [hcounted]; dsimp only; omega)
  rw [hcounted] at hlength halloc
  unfold initVars
  rw [hused, hcounted, halloc]
  simp only [bind, Except.bind]
  have hinit : ElementsLaid v s.ptr s.branches 0 0
      ⟨⟨⟨v.slotsPerEntry, v.vars.length⟩, infos,
        (List.range (v.vars.length * v.tot)).map fresh⟩, offsets, ⟨0, 0⟩, s⟩ := by
    refine ⟨rfl, hlength, ?_, ?_, ?_, hoffsets, ?_, ?_, rfl⟩
    · rw [List.length_map, List.length_range]
    · rintro u e (⟨hu, -⟩ | ⟨-, he⟩)
      · omega
      · omega
    · rintro u e (⟨hu, -⟩ | ⟨-, he⟩)
      · omega
      · omega
    · rw [Nat.zero_mul]
      rfl
    · exact (List.append_nil _).symm
  have hrun := initIndexedVars_ends hbuilt huniform hfilled hsize hstart
    (List.nil_append v.vars).symm true hinit
  cases hst : initIndexedVars v true v.vars _ with
  | error e =>
    rw [hst] at hrun
    exact hrun
  | ok st =>
    rw [hst] at hrun
    have hslots : st.mem.size.slots = st.indices.slotInd := by
      rw [hrun.size, hrun.indices, if_pos rfl]
      exact v.slotAt_all.symm
    have hitems : st.mem.size.items = st.indices.destInd := by
      rw [hrun.size, hrun.indices, if_pos rfl]
    dsimp only
    rw [errorIf, if_neg (not_not.mpr hslots)]
    dsimp only
    rw [errorIf, if_neg (not_not.mpr hitems)]
    exact hrun

end Run

section Follows

structure Follows (s : Layout) (lens : List Nat) (out : Layout) : Prop where
  ptr : out.ptr = s.ptr + 4 * lens.sum
  branches : out.branches = s.branches ++ branchesFrom s.ptr lens

theorem Follows.refl (s : Layout) : Follows s [] s := ⟨rfl, (List.append_nil _).symm⟩

theorem Follows.trans {s s1 s2 : Layout} {lens lens' : List Nat} (h : Follows s lens s1)
    (h' : Follows s1 lens' s2) : Follows s (lens ++ lens') s2 := by
  refine ⟨?_, ?_⟩
  · rw [h'.ptr, h.ptr, List.sum_append]
    omega
  · rw [h'.branches, h.branches, h.ptr, branchesFrom_append, List.append_assoc]

theorem book_follows {s : Layout} {n : Nat} (h : s.ptr + 4 * n < 2 ^ 32) :
    Follows s [n] (s.book (n * 4)) := by
  refine ⟨?_, ?_⟩
  · change s.ptr + n * 4 = s.ptr + 4 * (n + 0)
    omega
  · change s.branches ++ [_] = s.branches ++ [_]
    rw [Nat.mod_eq_of_lt (by omega), Nat.mod_eq_of_lt (by omega), Nat.mul_comm]

def StagedIndexVar.lens2d (v : StagedIndexVar) : List Nat :=
  if v.twoD then [1, v.lengthUsed.one, v.lengthUsed.one] else []

def StagedIndexVar.lensIndex (v : StagedIndexVar) : List Nat :=
  if v.isArray ∧ !v.twoD then [v.lengthUsed.one] else []

theorem StagedIndexVar.lens_eq (v : StagedIndexVar) : v.lens = v.lens2d ++
    ([1] ++ (v.lensIndex ++ List.replicate v.vars.length v.tot)) := rfl

theorem book2d_follows {v : StagedIndexVar} {s : Layout} (h : s.ptr + 4 * v.lens2d.sum < 2 ^ 32) :
    Follows s v.lens2d (book2d v s) := by
  unfold StagedIndexVar.lens2d at h ⊢
  unfold book2d
  split
  · next htwoD =>
    rw [if_pos htwoD] at h
    simp only [List.sum_cons, List.sum_nil] at h
    have hone : Follows s [1] (s.book 4) := book_follows (by omega)
    have hindex : Follows (s.book 4) [v.lengthUsed.one] ((s.book 4).book (v.lengthUsed.one * 4)) := by
      refine book_follows ?_
      rw [hone.ptr]
      simp only [List.sum_cons, List.sum_nil]
      omega
    refine (hone.trans hindex).trans (book_follows ?_)
    rw [(hone.trans hindex).ptr]
    simp only [List.cons_append, List.nil_append, List.sum_cons, List.sum_nil]
    omega
  · exact Follows.refl s

theorem bookIndex_follows {v : StagedIndexVar} {s : Layout}
    (h : s.ptr + 4 * v.lensIndex.sum < 2 ^ 32) : Follows s v.lensIndex (bookIndex v s) := by
  unfold StagedIndexVar.lensIndex at h ⊢
  unfold bookIndex
  split
  · next harray =>
    rw [if_pos harray] at h
    refine book_follows ?_
    simpa using h
  · exact Follows.refl s

end Follows

section IndexVar

variable {v : StagedIndexVar} {s : Layout}

theorem placesFrom_replicate (start n len : Nat) :
    placesFrom start (List.replicate n len) =
      (List.range n).map fun u => consecutive (start + 4 * (u * len)) len := by
  induction n with
  | zero => rfl
  | succ n ih =>
    rw [List.replicate_succ', placesFrom_append, ih, List.range_succ, List.map_append,
      List.sum_replicate_nat]
    rfl

structure VarLaid (v : StagedIndexVar) (s : Layout) (w : WrittenVar) (out : Layout) : Prop where
  follows : Follows s v.lens out
  places : varPlaces v w = placesFrom s.ptr v.lens
  masks : MasksOfEntries v w.masksPerEntry w.masks

theorem elementPlaces_eq {start : Nat} {branches : List Branch} {st : VarState} {w : WrittenVar}
    (h : ElementsLaid v start branches v.vars.length 0 st) (hmem : w.mem = st.mem) :
    (List.range v.vars.length).map (elementPlaces v w) =
      placesFrom start (List.replicate v.vars.length v.tot) := by
  rw [placesFrom_replicate]
  refine List.map_congr_left fun u hu => List.map_congr_left fun k hk => ?_
  have hdest := h.dests u k (.inl ⟨List.mem_range.mp hu, List.mem_range.mp hk⟩)
  rw [hmem, h.size, List.getD_eq_getElem?_getD, hdest, Option.getD_some]
  omega

theorem initIndexVar_ends (fresh : Nat → Nat) (hbuilt : v.Built) (huniform : v.Uniform)
    (hfilled : v.Filled) (hcounted : v.writePtrs = ⟨v.slotsPerEntry, v.vars.length⟩)
    (hsize : s.ptr + 4 * v.lens.sum < 2 ^ 32) (haligned : s.ptr % 4 = 0) :
    Ends (· = .rejected) (fun r => VarLaid v s r.1 r.2) (initIndexVar fresh v s) := by
  have hsum : v.lens.sum = v.lens2d.sum + (1 + (v.lensIndex.sum + v.vars.length * v.tot)) := by
    rw [v.lens_eq, List.sum_append, List.sum_append, List.sum_append, List.sum_replicate_nat]
    rfl
  have h2d := @book2d_follows v s (by omega)
  have hptr2 := h2d.ptr
  have hctrl : initCtrlVar v (book2d v s) = .ok ((book2d v s).hbname 4) := by
    unfold initCtrlVar
    rw [errorIf, if_neg hbuilt.limit]
    have htype : ¬(v.item.type ≠ .ushort ∧ v.item.type ≠ .uint ∧ v.item.type ≠ .int) := by
      rintro ⟨-, huint, hint⟩
      rcases hbuilt.type with htype | htype
      · exact hint htype
      · exact huint htype
    simp only [bind, Except.bind]
    rw [errorIf, if_neg htype]
    rfl
  have hone : Follows (book2d v s) [1] ((book2d v s).book 4) := @book_follows _ 1 (by omega)
  have hptr3 := hone.ptr
  simp only [List.sum_cons, List.sum_nil] at hptr3
  have hindex := @bookIndex_follows v ((book2d v s).book 4) (by omega)
  have hptr4 := hindex.ptr
  unfold initIndexVar
  dsimp only
  rw [hctrl]
  simp only [bind, Except.bind]
  by_cases hsrc : 2 ^ 32 - 1 < v.item.src
  · rw [errorIf, if_pos hsrc]
    exact rfl
  rw [errorIf, if_neg hsrc]
  dsimp only
  refine @ends_bind _ _ _ _
    (ElementsLaid v (bookIndex v ((book2d v s).book 4)).ptr (bookIndex v ((book2d v s).book 4)).branches
      v.vars.length 0) _ _ _ ?_ fun st hst => ?_
  · refine initVars_ends fresh hbuilt huniform hfilled (by omega) (by omega) hcounted ?_
    intro htwoD
    rw [if_pos htwoD, List.length_replicate]
  · refine ends_bind (setupMasks_ends hbuilt huniform hfilled (by omega) hst) fun masks hmasks => ?_
    have hvars : Follows (bookIndex v ((book2d v s).book 4)) (List.replicate v.vars.length v.tot)
        st.out := by
      refine ⟨?_, ?_⟩
      · rw [hst.ptr, List.sum_replicate_nat, Nat.add_zero]
      · rw [hst.branches, if_pos rfl]
    refine ⟨h2d.trans (hone.trans (hindex.trans hvars)), ?_, hmasks⟩
    have helements := @elementPlaces_eq v _ _ st
      { mem := st.mem
        dest := (book2d v s).ptr
        dest2 := s.ptr
        srcOffset := v.item.src
        itemsMax := v.lengthMax.one
        itemsUsed := v.lengthUsed.one
        itemsMax2 := v.lengthMax.two
        itemsUsed2 := v.lengthUsed.two
        numItems2Offset := st.numItems2Offset
        masksPerEntry := masks.1
        masks := masks.2 } hst rfl
    rw [v.lens_eq, placesFrom_append, placesFrom_append, placesFrom_append, ← h2d.ptr, ← hone.ptr,
      ← hindex.ptr, ← helements]
    unfold varPlaces
    have hsingle : placesFrom (book2d v s).ptr [1] = [[(book2d v s).ptr]] := rfl
    rw [hsingle, List.singleton_append]
    refine congrArg₂ _ ?_ (congrArg₂ List.cons rfl (congrArg₂ _ ?_ rfl))
    · unfold StagedIndexVar.lens2d
      split
      · rw [Nat.mul_comm]
        rfl
      · rfl
    · unfold StagedIndexVar.lensIndex
      split
      · rfl
      · rfl

end IndexVar

end Ucesb
