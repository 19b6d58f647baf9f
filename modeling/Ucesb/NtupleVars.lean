import Ucesb.NtuplePlaces

namespace Ucesb

theorem initVar_ends {firstItem : Bool} {index lengthUsed : Nat} {mem : IndexedMem}
    {ind : TypeIndices} {s : Layout} {item : NtupleItem}
    (hslot : index * mem.size.slots % 2 ^ 32 + ind.slotInd + infoSlots item ≤ mem.infos.length)
    (hdest : index * mem.size.items % 2 ^ 32 + ind.destInd < mem.dests.length) :
    Ends (· = .rejected) (fun r => ∃ words infos dests, WordsOf item words ∧
      WordsStored mem.infos infos (index * mem.size.slots % 2 ^ 32 + ind.slotInd) words ∧
      WordsStored mem.dests dests (index * mem.size.items % 2 ^ 32 + ind.destInd) [s.ptr] ∧
      r = ({ mem with infos := infos, dests := dests },
        ⟨(ind.slotInd + infoSlots item) % 2 ^ 32, (ind.destInd + 1) % 2 ^ 32⟩,
        { (if index = 0 then s.hbname (4 * lengthUsed) else s) with ptr := s.ptr + 4 }))
      (initVar firstItem index lengthUsed mem ind s item) := by
  have hptr : (if index = 0 then s.hbname (4 * lengthUsed) else s).ptr = s.ptr := by
    split <;> rfl
  unfold initVar
  cases hi : initCwnVar firstItem s.ptr item with
  | error e => exact rfl
  | ok i =>
    have hwords := infoWords_length item i
    obtain ⟨infos, hinfos, hstored⟩ := @storeWords_ok mem.infos (infoWords item i)
      (index * mem.size.slots % 2 ^ 32 + ind.slotInd) (by omega)
    obtain ⟨dests, hdests, hstored'⟩ := @storeWords_ok mem.dests [s.ptr]
      (index * mem.size.items % 2 ^ 32 + ind.destInd) (by rw [List.length_singleton]; omega)
    simp only [Except.mapError, bind, Except.bind]
    rw [hinfos, hptr]
    dsimp only
    rw [hdests, hwords]
    exact ⟨infoWords item i, infos, dests, ⟨firstItem, s.ptr, i, hi, rfl⟩, hstored, hstored', rfl⟩

theorem foldlM_range_ends {σ ε : Type} {stop : ε → Prop} {f : σ → Nat → Except ε σ}
    {Inv : Nat → σ → Prop} {n : Nat}
    (hstep : ∀ k s, k < n → Inv k s → Ends stop (Inv (k + 1)) (f s k)) {s : σ} (h : Inv 0 s) :
    Ends stop (Inv n) ((List.range n).foldlM f s) := by
  induction n with
  | zero => exact h
  | succ n ih =>
    rw [List.range_succ, List.foldlM_append]
    refine ends_bind (ih fun k s hk => hstep k s (Nat.lt_succ_of_lt hk)) fun s' hs' => ?_
    rw [List.foldlM_cons]
    exact ends_bind (hstep n s' (Nat.lt_succ_self n) hs') fun s'' hs'' => hs''

section Slots

def IndexedVar.slots (var : IndexedVar) : Nat :=
  ((var.items ⟨0, 0⟩).map fun item => infoSlots item.toNtupleItem).getD 0

def StagedIndexVar.slotAt (v : StagedIndexVar) (n : Nat) : Nat :=
  ((v.vars.take n).map IndexedVar.slots).sum

def StagedIndexVar.slotsPerEntry (v : StagedIndexVar) : Nat := (v.vars.map IndexedVar.slots).sum

def StagedIndexVar.tot (v : StagedIndexVar) : Nat := v.lengthUsed.one * v.lengthUsed.two

variable {v : StagedIndexVar}

theorem infoSlots_le (item : NtupleItem) : 2 ≤ infoSlots item ∧ infoSlots item ≤ 4 := by
  unfold infoSlots
  split <;> omega

theorem IndexedVar.slots_le (var : IndexedVar) : var.slots ≤ 4 := by
  unfold IndexedVar.slots
  cases var.items ⟨0, 0⟩ with
  | none => exact Nat.zero_le _
  | some item => exact (infoSlots_le item.toNtupleItem).2

theorem StagedIndexVar.slotsPerEntry_le (v : StagedIndexVar) :
    v.slotsPerEntry ≤ 4 * v.vars.length := by
  unfold StagedIndexVar.slotsPerEntry
  induction v.vars with
  | nil => exact Nat.zero_le _
  | cons var vars ih =>
    have hle := var.slots_le
    rw [List.map_cons, List.sum_cons, List.length_cons]
    omega

theorem StagedIndexVar.slotAt_succ {n : Nat} {var : IndexedVar} (h : v.vars[n]? = some var) :
    v.slotAt (n + 1) = v.slotAt n + var.slots := by
  unfold StagedIndexVar.slotAt
  rw [List.take_add_one, h, List.map_append, List.sum_append]
  rfl

theorem StagedIndexVar.slotAt_le (v : StagedIndexVar) {n m : Nat} (h : n ≤ m) :
    v.slotAt n ≤ v.slotAt m := by
  obtain ⟨d, rfl⟩ := Nat.exists_eq_add_of_le h
  unfold StagedIndexVar.slotAt
  rw [List.take_add, List.map_append, List.sum_append]
  exact Nat.le_add_right _ _

theorem StagedIndexVar.slotAt_all (v : StagedIndexVar) :
    v.slotAt v.vars.length = v.slotsPerEntry := by
  rw [StagedIndexVar.slotAt, List.take_length, StagedIndexVar.slotsPerEntry]

theorem StagedIndexVar.slotAt_end {n : Nat} {var : IndexedVar} (h : v.vars[n]? = some var) :
    v.slotAt n + var.slots ≤ v.slotsPerEntry := by
  obtain ⟨hlt, -⟩ := List.getElem?_eq_some_iff.mp h
  rw [← StagedIndexVar.slotAt_succ h, ← v.slotAt_all]
  exact v.slotAt_le hlt

def StagedIndexVar.Filled (v : StagedIndexVar) : Prop :=
  ∀ var ∈ v.vars, ∀ ind ∈ v.lengthUsed.all, ∃ item, var.items ind = some item

theorem StagedIndexVar.Uniform.slots (h : v.Uniform) (hbuilt : v.Built) {n : Nat}
    {var : IndexedVar} (hvar : v.vars[n]? = some var) {ind : SniInd} (hind : ind ∈ v.lengthUsed.all)
    {item : ListedItem} (hitem : var.items ind = some item) (hfilled : v.Filled) :
    infoSlots item.toNtupleItem = var.slots := by
  have hmem := List.mem_of_getElem? hvar
  have hfirst : (⟨0, 0⟩ : SniInd) ∈ v.lengthUsed.all :=
    SniInd.mem_all.mpr ⟨hbuilt.used.1, hbuilt.used2.1⟩
  obtain ⟨first, hzero⟩ := hfilled var hmem _ hfirst
  have hsame := h var hmem ind hind _ hfirst item first hitem hzero
  rw [IndexedVar.slots, hzero, Option.map_some, Option.getD_some, infoSlots, infoSlots, hsame]

end Slots

section Elements

variable {v : StagedIndexVar} {start : Nat} {branches : List Branch}

/-- Elements that are laid out: those of earlier variables, and earlier ones. -/
def ElementLaid (v : StagedIndexVar) (n k u e : Nat) : Prop :=
  u < n ∧ e < v.tot ∨ u = n ∧ e < k

structure ElementsLaid (v : StagedIndexVar) (start : Nat) (branches : List Branch) (n k : Nat)
    (st : VarState) : Prop where
  size : st.mem.size = ⟨v.slotsPerEntry, v.vars.length⟩
  infos : st.mem.infos.length = v.slotsPerEntry * v.tot + 2
  destsLength : st.mem.dests.length = v.vars.length * v.tot
  words : ∀ u e, ElementLaid v n k u e → ∀ var item, v.vars[u]? = some var →
    var.items (v.lengthUsed.nth e) = some item →
      ∃ words, WordsOf item.toNtupleItem words ∧
        HoldsWords st.mem.infos (e * v.slotsPerEntry + v.slotAt u) words
  dests : ∀ u e, ElementLaid v n k u e →
    st.mem.dests[e * v.vars.length + u]? = some (start + 4 * (u * v.tot + e))
  offsets : v.twoD = true → st.numItems2Offset.length = v.lengthUsed.one
  ptr : st.out.ptr = start + 4 * (n * v.tot + k)
  branches : st.out.branches =
    branches ++ branchesFrom start (List.replicate (if k = 0 then n else n + 1) v.tot)
  indices : st.indices = if k = 0 then ⟨v.slotAt n, n⟩ else ⟨v.slotAt (n + 1), n + 1⟩

theorem ElementsLaid.next {n : Nat} {st : VarState} (htot : 0 < v.tot)
    (h : ElementsLaid v start branches n v.tot st) :
    ElementsLaid v start branches (n + 1) 0 st := by
  have hlaid : ∀ u e, ElementLaid v (n + 1) 0 u e → ElementLaid v n v.tot u e := by
    rintro u e (⟨hu, he⟩ | ⟨-, he⟩)
    · rcases Nat.lt_succ_iff_lt_or_eq.mp hu with hu | rfl
      · exact .inl ⟨hu, he⟩
      · exact .inr ⟨rfl, he⟩
    · omega
  refine ⟨h.size, h.infos, h.destsLength, fun u e hue => h.words u e (hlaid u e hue),
    fun u e hue => h.dests u e (hlaid u e hue), h.offsets, ?_, ?_, ?_⟩
  · rw [h.ptr, Nat.add_zero, Nat.add_one_mul n]
  · rw [h.branches, if_neg (by omega), if_pos rfl]
  · rw [h.indices, if_neg (by omega), if_pos rfl]

theorem setNumLimit2Offset_ends {offsets : List Nat} {index offset : Nat}
    (h : index < offsets.length) :
    Ends (· = .rejected) (fun offsets' => offsets'.length = offsets.length)
      (setNumLimit2Offset offsets index offset) := by
  unfold setNumLimit2Offset
  rw [List.getElem?_eq_getElem h]
  dsimp only
  split
  · exact rfl
  · exact List.length_set ..

theorem noteLimit2_ends {offsets : List Nat} {ind : SniInd} {item : ListedItem}
    (h : v.twoD = true → offsets.length = v.lengthUsed.one) (hone : ind.one < v.lengthUsed.one) :
    Ends (· = .rejected) (fun offsets' => v.twoD = true → offsets'.length = v.lengthUsed.one)
      (noteLimit2 v offsets ind item) := by
  unfold noteLimit2
  split
  · next htwoD =>
    refine ends_mono (setNumLimit2Offset_ends ?_) (fun _ he => he) fun offsets' hlen _ => ?_
    · rw [h htwoD]
      exact hone
    · rw [hlen, h htwoD]
  · exact h

theorem initElement_ends {n k : Nat} {st : VarState} {var : IndexedVar} {firstItem : Bool}
    (hbuilt : v.Built) (huniform : v.Uniform) (hfilled : v.Filled)
    (hvar : v.vars[n]? = some var) (hk : k < v.tot)
    (hsize : start + 4 * (v.vars.length * v.tot) + 4 ≤ 2 ^ 32) (hstart : 4 ≤ start)
    (h : ElementsLaid v start branches n k st) :
    Ends (· = .rejected) (ElementsLaid v start branches n (k + 1))
      (initElement v var firstItem ⟨v.slotAt n, n⟩ st (v.lengthUsed.nth k)) := by
  have hmem := SniInd.nth_mem hk
  obtain ⟨hone, htwo⟩ := SniInd.mem_all.mp hmem
  obtain ⟨hn, -⟩ := List.getElem?_eq_some_iff.mp hvar
  obtain ⟨item, hitem⟩ := hfilled var (List.mem_of_getElem? hvar) _ hmem
  have hslots := huniform.slots hbuilt hvar hmem hitem hfilled
  have hend := StagedIndexVar.slotAt_end hvar
  -- all products are below the bytes of the storage
  have hentries : v.slotsPerEntry * v.tot ≤ 4 * (v.vars.length * v.tot) := by
    have hle := Nat.mul_le_mul_right v.tot v.slotsPerEntry_le
    rwa [Nat.mul_assoc] at hle
  have hslotIn := entry_inside hk hend
  have hdestIn := @entry_inside k v.tot v.vars.length n 1 hk (Nat.succ_le_of_lt hn)
  have htot : v.tot ≤ v.vars.length * v.tot := Nat.le_mul_of_pos_left _ (by omega)
  have hentry : v.slotsPerEntry ≤ v.slotsPerEntry * v.tot := Nat.le_mul_of_pos_right _ (by omega)
  have hvars : v.vars.length ≤ v.vars.length * v.tot := Nat.le_mul_of_pos_right _ (by omega)
  have hvarTot : n * v.tot + k < v.vars.length * v.tot := by
    have hle := Nat.mul_le_mul_right v.tot (Nat.succ_le_of_lt hn)
    rw [Nat.succ_mul] at hle
    omega
  have hlin : (v.lengthUsed.nth k).linIndex v.lengthUsed = k := by
    rw [SniInd.linIndex, SniInd.nth_lin, Nat.mod_eq_of_lt (by omega)]
  have hused : v.lengthUsed.tot = v.tot := by
    rw [SniInd.tot]
    exact Nat.mod_eq_of_lt (show v.tot < 2 ^ 32 by omega)
  have hslotMod : k * v.slotsPerEntry % 2 ^ 32 = k * v.slotsPerEntry := Nat.mod_eq_of_lt (by omega)
  have hdestMod : k * v.vars.length % 2 ^ 32 = k * v.vars.length := Nat.mod_eq_of_lt (by omega)
  unfold initElement
  rw [hitem]
  dsimp only
  refine ends_bind (noteLimit2_ends h.offsets hone) fun offsets hoffsets => ?_
  rw [hlin, hused]
  refine ends_bind (initVar_ends ?_ ?_) ?_
  · rw [h.size, hslotMod, h.infos, hslots]
    dsimp only
    omega
  · rw [h.size, hdestMod, h.destsLength]
    dsimp only
    omega
  rintro ⟨mem, indices, out⟩ ⟨words, infos, dests, hwords, hinfos, hdests, heq⟩
  cases heq
  rw [h.size, hslotMod] at hinfos
  rw [h.size, hdestMod] at hdests
  dsimp only at hinfos hdests
  have hwordsLength : words.length = var.slots := by rw [hwords.length, hslots]
  refine ⟨h.size, ?_, ?_, ?_, ?_, hoffsets, ?_, ?_, ?_⟩
  · rw [hinfos.length, h.infos]
  · rw [hdests.length, h.destsLength]
  · intro u e hue var' item' hvar' hitem'
    by_cases hnew : u = n ∧ e = k
    · obtain ⟨rfl, rfl⟩ := hnew
      obtain rfl := Option.some.inj (hvar.symm.trans hvar')
      obtain rfl := Option.some.inj (hitem.symm.trans hitem')
      exact ⟨words, hwords, hinfos.holds⟩
    · have hold : ElementLaid v n k u e := by
        rcases hue with hue | ⟨hu, he⟩
        · exact .inl hue
        · exact .inr ⟨hu, by omega⟩
      obtain ⟨words', hwords', hholds⟩ := h.words u e hold var' item' hvar' hitem'
      refine ⟨words', hwords', hinfos.keeps hholds ?_⟩
      have he : e < v.tot := by
        rcases hold with ⟨-, he⟩ | ⟨-, he⟩
        · exact he
        · omega
      have hlength : words'.length = var'.slots := by
        rw [hwords'.length, huniform.slots hbuilt hvar' (SniInd.nth_mem he) hitem' hfilled]
      rw [hlength, hwordsLength]
      refine entries_apart (StagedIndexVar.slotAt_end hvar') hend ?_
      rcases hold with ⟨hu, -⟩ | ⟨-, he⟩
      · refine .inr (.inl ?_)
        rw [← StagedIndexVar.slotAt_succ hvar']
        exact v.slotAt_le hu
      · exact .inl (by omega)
  · intro u e hue
    by_cases hnew : u = n ∧ e = k
    · obtain ⟨rfl, rfl⟩ := hnew
      have hhere := hdests.holds 0 (by rw [List.length_singleton]; omega)
      rw [Nat.add_zero] at hhere
      rw [hhere, h.ptr]
      rfl
    · have hold : ElementLaid v n k u e := by
        rcases hue with hue | ⟨hu, he⟩
        · exact .inl hue
        · exact .inr ⟨hu, by omega⟩
      rw [hdests.other _ ?_]
      · exact h.dests u e hold
      · have hu : u < v.vars.length := by
          rcases hold with ⟨hu, -⟩ | ⟨hu, -⟩
          · omega
          · omega
        have hapart := @entries_apart e k v.vars.length u n 1 1 (by omega) (by omega) (by
          rcases hold with ⟨hu, -⟩ | ⟨-, he⟩
          · omega
          · omega)
        rw [List.length_singleton]
        omega
  · rw [h.ptr]
    dsimp only
    omega
  · by_cases hzero : k = 0
    · subst hzero
      rw [if_pos rfl, if_neg (by omega)]
      change st.out.branches ++ [_] = _
      rw [h.branches, h.ptr, if_pos rfl, List.append_assoc, List.replicate_succ', branchesFrom_append,
        List.sum_replicate_nat, Nat.mod_eq_of_lt (by omega), Nat.mod_eq_of_lt (by omega)]
      rfl
    · rw [if_neg hzero, if_neg (by omega)]
      change st.out.branches = _
      rw [h.branches, if_neg hzero]
  · dsimp only
    rw [if_neg (Nat.succ_ne_zero k), hslots, StagedIndexVar.slotAt_succ hvar,
      Nat.mod_eq_of_lt (by omega), Nat.mod_eq_of_lt (by omega)]

end Elements

end Ucesb
