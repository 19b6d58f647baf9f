import Ucesb.NtupleVars

namespace Ucesb

section Masks

variable {v : StagedIndexVar} {start : Nat} {branches : List Branch} {st : VarState}

def maskOffs (items : List ListedItem) : List Nat :=
  items.filterMap fun item => item.ctrlMask.map NtupleMask.off

theorem maskSet_ordered (offs : List Nat) : (maskSet offs).Pairwise (· < ·) := by
  have hsorted : (maskSet offs).Pairwise (· ≤ ·) := List.pairwise_insertionSort (· ≤ ·) _
  have hnodup : (maskSet offs).Nodup := (List.perm_insertionSort (· ≤ ·) _).nodup_iff.mpr (List.nodup_dedup offs)
  exact (hsorted.and hnodup).imp fun h => Nat.lt_of_le_of_ne h.1 h.2

theorem mem_maskSet {offs : List Nat} {off : Nat} : off ∈ maskSet offs ↔ off ∈ offs := by
  rw [maskSet, List.mem_insertionSort, List.mem_dedup]

theorem maskSet_length (offs : List Nat) : (maskSet offs).length ≤ offs.length := by
  rw [maskSet, List.length_insertionSort]
  exact (List.dedup_sublist offs).length_le

theorem maskSet_maskListOf (items : List ListedItem) : MaskListOf items (maskSet (maskOffs items)) := by
  refine ⟨maskSet_ordered _, fun off => ?_⟩
  rw [mem_maskSet, maskOffs, List.mem_filterMap]
  constructor
  · rintro ⟨item, hitem, hoff⟩
    obtain ⟨mask, hmask, rfl⟩ := Option.map_eq_some_iff.mp hoff
    exact ⟨item, hitem, mask, hmask, rfl⟩
  · rintro ⟨item, hitem, mask, hmask, rfl⟩
    exact ⟨item, hitem, Option.map_eq_some_iff.mpr ⟨mask, hmask, rfl⟩⟩

theorem loadInfo_ok {mem : List Nat} {k w : Nat} (h : mem[k]? = some w) : loadInfo mem k = .ok w := by
  rw [loadInfo, h]

theorem readEntry_eq (hbuilt : v.Built) (huniform : v.Uniform) (hfilled : v.Filled)
    (h : ElementsLaid v start branches v.vars.length 0 st) {e : Nat} (he : e < v.tot) {l u : Nat}
    (hu : u + l = v.vars.length) :
    readEntry st.mem.infos l (e * v.slotsPerEntry + v.slotAt u) =
      .ok (maskOffs ((v.vars.drop u).filterMap fun var => var.items (v.lengthUsed.nth e)),
        e * v.slotsPerEntry + v.slotsPerEntry) := by
  induction l generalizing u with
  | zero =>
    obtain rfl : u = v.vars.length := hu
    rw [readEntry, List.drop_length, v.slotAt_all]
    rfl
  | succ l ih =>
    have hlt : u < v.vars.length := by omega
    have hvar := List.getElem?_eq_getElem hlt
    have hmem := SniInd.nth_mem he
    obtain ⟨item, hitem⟩ := hfilled _ (List.getElem_mem hlt) _ hmem
    obtain ⟨words, hwords, hholds⟩ := h.words u e (.inl ⟨hlt, he⟩) _ item hvar hitem
    have hslots := huniform.slots hbuilt hvar hmem hitem hfilled
    have hend := entry_inside he (StagedIndexVar.slotAt_end hvar)
    have hsucc := StagedIndexVar.slotAt_succ hvar
    have htwo := (infoSlots_le item.toNtupleItem).1
    have hlength := hwords.length
    have hrest := ih (u := u + 1) (by omega)
    have hin : e * v.slotsPerEntry + v.slotAt u + 3 < st.mem.infos.length := by
      rw [h.infos]
      omega
    rw [List.drop_eq_getElem_cons hlt, List.filterMap_cons, hitem, readEntry]
    simp only [maskOffs, List.filterMap_cons]
    have hload := List.getElem?_eq_getElem hin
    rcases hwords.masked with ⟨hnone, info, off, rfl, hplain⟩ | ⟨mask, info, off, maskInfo, hmask, rfl, hmarked⟩
    · have hinfo : st.mem.infos[e * v.slotsPerEntry + v.slotAt u]? = some info := hholds 0 (by simp)
      rw [loadInfo_ok hinfo, loadInfo_ok hload, hnone]
      simp only [bind, Except.bind, hplain]
      have hnext : e * v.slotsPerEntry + v.slotAt u + 2 =
          e * v.slotsPerEntry + v.slotAt (u + 1) := by
        rw [hsucc, ← hslots, ← hlength]
        rfl
      rw [if_neg fun hne => hne rfl, hnext, hrest]
      rfl
    · have hinfo : st.mem.infos[e * v.slotsPerEntry + v.slotAt u]? = some info := hholds 0 (by simp)
      have hmaskOff := hholds 3 (by simp)
      rw [loadInfo_ok hinfo, loadInfo_ok hmaskOff, hmask]
      simp only [bind, Except.bind]
      have hnext : e * v.slotsPerEntry + v.slotAt u + 4 =
          e * v.slotsPerEntry + v.slotAt (u + 1) := by
        rw [hsucc, ← hslots, ← hlength]
        rfl
      rw [if_pos hmarked, hnext, hrest]
      rfl

def StagedIndexVar.masksAt (v : StagedIndexVar) (e : Nat) : List Nat :=
  maskSet (maskOffs (v.entry (v.lengthUsed.nth e)))

theorem readEntries_eq (hbuilt : v.Built) (huniform : v.Uniform) (hfilled : v.Filled)
    (h : ElementsLaid v start branches v.vars.length 0 st) {entries e : Nat}
    (he : e + entries ≤ v.tot) :
    readEntries st.mem.infos v.vars.length entries (e * v.slotsPerEntry) =
      .ok ((List.range entries).map fun i => v.masksAt (e + i)) := by
  induction entries generalizing e with
  | zero => rfl
  | succ entries ih =>
    have hentry := readEntry_eq hbuilt huniform hfilled h (e := e) (by omega) (l := v.vars.length)
      (u := 0) (Nat.zero_add _)
    have hrest := ih (e := e + 1) (by omega)
    rw [Nat.add_one_mul] at hrest
    have hzero : v.slotAt 0 = 0 := rfl
    rw [hzero, Nat.add_zero, List.drop_zero] at hentry
    rw [readEntries, hentry]
    simp only [bind, Except.bind, hrest]
    rw [List.range_succ_eq_map, List.map_cons, List.map_map]
    have hsame : (fun i => v.masksAt (e + 1 + i)) = (fun i => v.masksAt (e + i)) ∘ Nat.succ := by
      funext i
      rw [Function.comp_apply]
      congr 1
      omega
    rw [hsame]
    rfl

theorem masksAt_length (v : StagedIndexVar) (e : Nat) : (v.masksAt e).length ≤ v.vars.length := by
  refine (maskSet_length _).trans ?_
  exact (List.length_filterMap_le ..).trans (List.length_filterMap_le ..)

/-- The masks of the first entries, which all have the same number of masks. -/
structure MasksOfEntries (v : StagedIndexVar) (masksPerEntry : Nat) (masks : List Nat) : Prop where
  same : ∀ e < v.lengthUsed.one, (v.masksAt e).length = masksPerEntry
  masks : masks = ((List.range v.lengthUsed.one).map v.masksAt).flatten

theorem flatten_length_same {α : Type} {lists : List (List α)} {n : Nat}
    (h : ∀ l ∈ lists, l.length = n) : lists.flatten.length = n * lists.length := by
  induction lists with
  | nil => rfl
  | cons l lists ih =>
    obtain ⟨hl, hlists⟩ := List.forall_mem_cons.mp h
    rw [List.flatten_cons, List.length_append, hl, ih hlists, List.length_cons, Nat.mul_succ,
      Nat.add_comm]

theorem setupMasks_ends (hbuilt : v.Built) (huniform : v.Uniform) (hfilled : v.Filled)
    (hsize : 4 * (v.vars.length * v.tot) < 2 ^ 32)
    (h : ElementsLaid v start branches v.vars.length 0 st) :
    Ends (· = .rejected) (fun r => MasksOfEntries v r.1 r.2)
      (setupMasks st.mem v.lengthUsed.one) := by
  have hone : v.lengthUsed.one ≤ v.tot := Nat.le_mul_of_pos_right _ hbuilt.used2.1
  have hread := @readEntries_eq _ _ _ _ hbuilt huniform hfilled h v.lengthUsed.one 0
    (by omega)
  simp only [Nat.zero_mul, Nat.zero_add] at hread
  have hitems : st.mem.size.items = v.vars.length := by rw [h.size]
  unfold setupMasks
  rw [hitems, hread]
  simp only [bind, Except.bind]
  generalize hsets : (List.range v.lengthUsed.one).map (fun i => v.masksAt i) = sets
  generalize hn : (sets.head?.map List.length).getD 0 = n
  by_cases hdiffer : ∃ set ∈ sets, set.length ≠ n
  · rw [errorIf, if_pos hdiffer]
    exact rfl
  · rw [errorIf, if_neg hdiffer]
    have hall : ∀ set ∈ sets, set.length = n := by
      intro set hset
      by_contra hne
      exact hdiffer ⟨set, hset, hne⟩
    have hsame : ∀ e < v.lengthUsed.one, (v.masksAt e).length = n := by
      intro e he
      refine hall _ ?_
      rw [← hsets]
      exact List.mem_map_of_mem (List.mem_range.mpr he)
    have hlength := flatten_length_same hall
    have hcount : sets.length = v.lengthUsed.one := by
      rw [← hsets, List.length_map, List.length_range]
    dsimp only
    split
    · next hzero =>
      refine ⟨fun e he => ?_, ?_⟩
      · rw [hsame e he, hzero]
      · rw [hsets]
        refine (List.length_eq_zero_iff.mp ?_).symm
        rw [hlength, hzero, Nat.zero_mul]
    · have hle : n ≤ v.vars.length := by
        rw [← hsame 0 hbuilt.used.1]
        exact masksAt_length v 0
      have hproduct : n * v.lengthUsed.one ≤ v.vars.length * v.tot := Nat.mul_le_mul hle hone
      rw [errorIf, if_neg]
      · exact ⟨hsame, by rw [hsets]⟩
      · rw [hlength, hcount, Nat.mod_eq_of_lt (by omega)]
        exact Nat.lt_irrefl _

end Masks

end Ucesb
