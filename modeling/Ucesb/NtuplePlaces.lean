import Ucesb.NtupleLayout
import Mathlib.Data.List.Pairwise

namespace Ucesb

def consecutive (start n : Nat) : List Nat := (List.range n).map fun k => start + 4 * k

def elementPlaces (v : StagedIndexVar) (w : WrittenVar) (n : Nat) : List Nat :=
  (List.range (v.lengthUsed.one * v.lengthUsed.two)).map fun k =>
    w.mem.dests.getD (k * w.mem.size.items + n) 0

/-- The places of an index variable: its number, indices and ends, itself, its indices, and the
variables that it controls. -/
def varPlaces (v : StagedIndexVar) (w : WrittenVar) : List (List Nat) :=
  (if v.twoD then [[w.dest2], consecutive (w.dest2 + 4) v.lengthUsed.one,
    consecutive (w.dest2 + 4 + v.lengthUsed.one * 4) v.lengthUsed.one] else []) ++
  ([w.dest] :: ((if v.isArray ∧ !v.twoD then [consecutive (w.dest + 4) v.lengthUsed.one] else []) ++
    (List.range v.vars.length).map (elementPlaces v w)))

def placesOf : List BlockItem → List Nat → List WrittenVar → List (List Nat)
  | [], _, _ => []
  | .plain _ :: items, dests, ws => [dests.headD 0] :: placesOf items dests.tail ws
  | .index v :: items, dests, ws => varPlaces v (ws.headD default) ++ placesOf items dests ws.tail

def indexVarsOf : List BlockItem → List StagedIndexVar
  | [] => []
  | .plain _ :: items => indexVarsOf items
  | .index v :: items => v :: indexVarsOf items

structure MaskListOf (items : List ListedItem) (masks : List Nat) : Prop where
  ordered : masks.Pairwise (· < ·)
  mem : ∀ off, off ∈ masks ↔ ∃ item ∈ items, ∃ mask, item.ctrlMask = some mask ∧ mask.off = off

def StagedIndexVar.entry (v : StagedIndexVar) (ind : SniInd) : List ListedItem :=
  v.vars.filterMap fun var => var.items ind

def MasksRight (v : StagedIndexVar) (w : WrittenVar) : Prop :=
  ∀ ind ∈ v.lengthUsed.all, MaskListOf (v.entry ind)
    ((w.masks.drop ((ind.one * v.lengthUsed.two + ind.two) * w.masksPerEntry)).take w.masksPerEntry)

/-- Every item has its own place, and the branches hold their items one after the other. -/
structure StagedRight (out : StagedLayout) : Prop where
  own : (placesOf out.items out.global.dests out.written).flatten.Nodup
  inside : ∀ place ∈ (placesOf out.items out.global.dests out.written).flatten,
    place % 4 = 0 ∧ place + 4 ≤ out.announced
  branches : List.Forall₂ (fun b places => places = consecutive b.offset places.length ∧
    b.length = 4 * places.length) out.branches (placesOf out.items out.global.dests out.written)
  disjoint : out.branches.Pairwise fun a b =>
    a.offset + a.length ≤ b.offset ∨ b.offset + b.length ≤ a.offset
  masks : List.Forall₂ MasksRight (indexVarsOf out.items) out.written

/-- What is not rejected is laid out, with no assertion and no access outside of what is allocated. -/
def LayoutRight (fresh : Nat → Nat) (items : List BlockItem) : Prop :=
  layoutItems fresh items ≠ .error .rejected →
    ∃ out, layoutItems fresh items = .ok out ∧ StagedRight out

def StagedIndexVar.Uniform (v : StagedIndexVar) : Prop :=
  ∀ var ∈ v.vars, ∀ ind ∈ v.lengthUsed.all, ∀ ind' ∈ v.lengthUsed.all, ∀ item item',
    var.items ind = some item → var.items ind' = some item' →
      item.ctrlMask.isSome = item'.ctrlMask.isSome

/-- An array of two indices that has masks, and more than one second index. -/
def StagedIndexVar.MasksShort (v : StagedIndexVar) : Prop :=
  v.twoD = true ∧ 1 < v.lengthUsed.two ∧ ∃ var ∈ v.vars, ∃ ind ∈ v.lengthUsed.all, ∃ item,
    var.items ind = some item ∧ item.ctrlMask.isSome = true

def StagedIndexVar.lens (v : StagedIndexVar) : List Nat :=
  (if v.twoD then [1, v.lengthUsed.one, v.lengthUsed.one] else []) ++
  (1 :: ((if v.isArray ∧ !v.twoD then [v.lengthUsed.one] else []) ++
    List.replicate v.vars.length (v.lengthUsed.one * v.lengthUsed.two)))

def BlockItem.lens : BlockItem → List Nat
  | .plain _ => [1]
  | .index v => v.lens

def Sized (items : List BlockItem) : Prop := 4 * (items.flatMap BlockItem.lens).sum < 2 ^ 32

section Consecutive

def branchesFrom : Nat → List Nat → List Branch
  | _, [] => []
  | start, len :: lens => ⟨start, 4 * len⟩ :: branchesFrom (start + 4 * len) lens

def placesFrom : Nat → List Nat → List (List Nat)
  | _, [] => []
  | start, len :: lens => consecutive start len :: placesFrom (start + 4 * len) lens

theorem branchesFrom_append (start : Nat) (lens lens' : List Nat) :
    branchesFrom start (lens ++ lens') =
      branchesFrom start lens ++ branchesFrom (start + 4 * lens.sum) lens' := by
  induction lens generalizing start with
  | nil => rfl
  | cons len lens ih =>
    rw [List.cons_append, branchesFrom, branchesFrom, ih, List.cons_append, List.sum_cons,
      Nat.mul_add, Nat.add_assoc]

theorem placesFrom_append (start : Nat) (lens lens' : List Nat) :
    placesFrom start (lens ++ lens') =
      placesFrom start lens ++ placesFrom (start + 4 * lens.sum) lens' := by
  induction lens generalizing start with
  | nil => rfl
  | cons len lens ih =>
    rw [List.cons_append, placesFrom, placesFrom, ih, List.cons_append, List.sum_cons,
      Nat.mul_add, Nat.add_assoc]

theorem consecutive_length (start n : Nat) : (consecutive start n).length = n := by
  rw [consecutive, List.length_map, List.length_range]

theorem consecutive_add (start m n : Nat) :
    consecutive start (m + n) = consecutive start m ++ consecutive (start + 4 * m) n := by
  unfold consecutive
  rw [List.range_add, List.map_append, List.map_map]
  congr 1
  refine List.map_congr_left fun k _ => ?_
  rw [Function.comp_apply]
  omega

theorem placesFrom_flatten (start : Nat) (lens : List Nat) :
    (placesFrom start lens).flatten = consecutive start lens.sum := by
  induction lens generalizing start with
  | nil => rfl
  | cons len lens ih => rw [placesFrom, List.flatten_cons, ih, List.sum_cons, consecutive_add]

theorem consecutive_nodup (start n : Nat) : (consecutive start n).Nodup := by
  refine List.Nodup.map (fun a b h => ?_) List.nodup_range
  omega

theorem branchesFrom_places (start : Nat) (lens : List Nat) :
    List.Forall₂ (fun (b : Branch) places => places = consecutive b.offset places.length ∧
      b.length = 4 * places.length) (branchesFrom start lens) (placesFrom start lens) := by
  induction lens generalizing start with
  | nil => exact .nil
  | cons len lens ih =>
    refine .cons ⟨?_, ?_⟩ (ih _)
    · rw [consecutive_length]
    · rw [consecutive_length]

theorem branchesFrom_start {start : Nat} {lens : List Nat} :
    ∀ b ∈ branchesFrom start lens, start ≤ b.offset := by
  induction lens generalizing start with
  | nil => exact nofun
  | cons len lens ih =>
    intro b hb
    rcases List.mem_cons.mp hb with rfl | hb
    · exact Nat.le_refl _
    · have := ih b hb
      omega

theorem branchesFrom_disjoint (start : Nat) (lens : List Nat) :
    (branchesFrom start lens).Pairwise fun a b =>
      a.offset + a.length ≤ b.offset ∨ b.offset + b.length ≤ a.offset := by
  induction lens generalizing start with
  | nil => exact .nil
  | cons len lens ih => exact .cons (fun b hb => .inl (branchesFrom_start b hb)) (ih _)

end Consecutive

section Indices

def SniInd.nth (lim : SniInd) (k : Nat) : SniInd := ⟨k / lim.two, k % lim.two⟩

theorem SniInd.all_eq (lim : SniInd) :
    lim.all = (List.range (lim.one * lim.two)).map lim.nth := by
  obtain ⟨one, two⟩ := lim
  unfold SniInd.all SniInd.nth
  dsimp only
  induction one with
  | zero =>
    rw [Nat.zero_mul]
    rfl
  | succ one ih =>
    rw [List.range_succ, List.flatMap_append, ih, List.flatMap_singleton, Nat.succ_mul,
      List.range_add, List.map_append, List.map_map]
    congr 1
    refine List.map_congr_left fun j hj => ?_
    have hlt := List.mem_range.mp hj
    rw [Function.comp_apply, Nat.mul_comm one two, Nat.mul_add_div (by omega), Nat.mul_add_mod,
      Nat.div_eq_of_lt hlt, Nat.mod_eq_of_lt hlt, Nat.add_zero]

theorem SniInd.nth_lin {lim : SniInd} {k : Nat} : (lim.nth k).one * lim.two + (lim.nth k).two = k :=
  Nat.div_add_mod' k lim.two

theorem SniInd.mem_all {lim ind : SniInd} :
    ind ∈ lim.all ↔ ind.one < lim.one ∧ ind.two < lim.two := by
  unfold SniInd.all
  rw [List.mem_flatMap]
  constructor
  · rintro ⟨i, hi, hind⟩
    obtain ⟨j, hj, rfl⟩ := List.mem_map.mp hind
    exact ⟨List.mem_range.mp hi, List.mem_range.mp hj⟩
  · rintro ⟨hone, htwo⟩
    exact ⟨ind.one, List.mem_range.mpr hone, List.mem_map.mpr ⟨ind.two, List.mem_range.mpr htwo, rfl⟩⟩

theorem SniInd.nth_mem {lim : SniInd} {k : Nat} (h : k < lim.one * lim.two) :
    lim.nth k ∈ lim.all := by
  rw [SniInd.all_eq]
  exact List.mem_map_of_mem (List.mem_range.mpr h)

end Indices

section Store

def HoldsWords (mem : List Nat) (k : Nat) (ws : List Nat) : Prop :=
  ∀ j < ws.length, mem[k + j]? = ws[j]?

structure WordsStored (mem mem' : List Nat) (k : Nat) (ws : List Nat) : Prop where
  length : mem'.length = mem.length
  holds : HoldsWords mem' k ws
  other : ∀ j, j < k ∨ k + ws.length ≤ j → mem'[j]? = mem[j]?

theorem storeWords_ok {mem ws : List Nat} {k : Nat} (h : k + ws.length ≤ mem.length) :
    ∃ mem', storeWords mem k ws = .ok mem' ∧ WordsStored mem mem' k ws := by
  induction ws generalizing mem k with
  | nil => exact ⟨mem, rfl, rfl, nofun, fun _ _ => rfl⟩
  | cons w ws ih =>
    rw [List.length_cons] at h
    have hset : k + 1 + ws.length ≤ (mem.set k w).length := by
      rw [List.length_set]
      omega
    obtain ⟨mem', hmem, hstored⟩ := ih hset
    refine ⟨mem', ?_, ?_, ?_, ?_⟩
    · rw [storeWords, if_pos (by omega), hmem]
    · rw [hstored.length, List.length_set]
    · intro j hj
      cases j with
      | zero =>
        rw [Nat.add_zero, hstored.other k (.inl (Nat.lt_succ_self k)),
          List.getElem?_set_self (by omega)]
        rfl
      | succ j =>
        have hrest := hstored.holds j (Nat.lt_of_succ_lt_succ hj)
        rwa [Nat.add_right_comm, Nat.add_assoc] at hrest
    · intro j hj
      rw [List.length_cons] at hj
      rw [hstored.other j (by omega), List.getElem?_set_ne (by omega)]

theorem WordsStored.keeps {mem mem' ws ws' : List Nat} {k a : Nat} (h : WordsStored mem mem' k ws)
    (hold : HoldsWords mem a ws') (happart : a + ws'.length ≤ k ∨ k + ws.length ≤ a) :
    HoldsWords mem' a ws' := by
  intro j hj
  rw [h.other (a + j) (by omega)]
  exact hold j hj

theorem entries_apart {k k' S a a' l l' : Nat} (h : a + l ≤ S) (h' : a' + l' ≤ S)
    (hne : k ≠ k' ∨ a + l ≤ a' ∨ a' + l' ≤ a) :
    k * S + a + l ≤ k' * S + a' ∨ k' * S + a' + l' ≤ k * S + a := by
  rcases Nat.lt_trichotomy k k' with hlt | rfl | hlt
  · have hmul := Nat.mul_le_mul_right S (Nat.succ_le_of_lt hlt)
    rw [Nat.succ_mul] at hmul
    omega
  · omega
  · have hmul := Nat.mul_le_mul_right S (Nat.succ_le_of_lt hlt)
    rw [Nat.succ_mul] at hmul
    omega

theorem entry_inside {k T S a l : Nat} (hk : k < T) (h : a + l ≤ S) : k * S + a + l ≤ S * T := by
  have hmul := Nat.mul_le_mul_right S (Nat.succ_le_of_lt hk)
  rw [Nat.succ_mul, Nat.mul_comm T S] at hmul
  omega

end Store

section Words

/-- What `init_cwn_var` stores for an item. -/
def WordsOf (item : NtupleItem) (words : List Nat) : Prop :=
  ∃ firstItem ptr i, initCwnVar firstItem ptr item = .ok i ∧ words = infoWords item i

theorem infoWords_length (item : NtupleItem) (i : IndItem) :
    (infoWords item i).length = infoSlots item := by
  unfold infoWords infoSlots
  split <;> rfl

theorem WordsOf.length {item : NtupleItem} {words : List Nat} (h : WordsOf item words) :
    words.length = infoSlots item := by
  obtain ⟨firstItem, ptr, i, -, rfl⟩ := h
  exact infoWords_length item i

theorem sqrtInfo_masked (flags : Nat) : sqrtInfo flags &&& indItemTypeIsMasked = 0 := by
  unfold sqrtInfo
  split <;> split <;> decide

theorem typeInfo_masked {item : NtupleItem} {firstItem : Bool} {info : Nat}
    (h : typeInfo item firstItem = .ok info) : info &&& indItemTypeIsMasked = 0 := by
  unfold typeInfo at h
  cases htype : item.type with
  | ushort | uchar | int | uint | intIndex =>
    rw [htype] at h
    cases h
    decide
  | uint64 =>
    rw [htype] at h
    cases h
  | intIndexCut =>
    rw [htype] at h
    dsimp only at h
    split at h
    · cases h
      decide
    · cases h
  | double | float =>
    rw [htype] at h
    cases h
    rw [Nat.and_or_distrib_right, sqrtInfo_masked]
    decide

theorem marks_masked (info flags : Nat) (h : info &&& indItemTypeIsMasked = 0) :
    (info ||| flags &&& ntupleItemMarks) &&& indItemTypeIsMasked = 0 := by
  rw [Nat.and_or_distrib_right, h, Nat.and_assoc]
  have hmarks : ntupleItemMarks &&& indItemTypeIsMasked = 0 := by decide
  rw [hmarks, Nat.and_zero]
  rfl

theorem WordsOf.masked {item : NtupleItem} {words : List Nat} (h : WordsOf item words) :
    (item.ctrlMask = none ∧ ∃ info off, words = [info, off] ∧ info &&& indItemTypeIsMasked = 0) ∨
      ∃ mask info off maskInfo, item.ctrlMask = some mask ∧ words = [info, off, maskInfo, mask.off] ∧
        info &&& indItemTypeIsMasked ≠ 0 := by
  obtain ⟨firstItem, ptr, i, hi, rfl⟩ := h
  unfold initCwnVar at hi
  obtain ⟨info, hinfo, hi⟩ := bind_eq_ok.mp hi
  obtain ⟨-, hi⟩ := errorIf_bind_ok.mp hi
  have hplain := marks_masked info item.flags (typeInfo_masked hinfo)
  cases hmask : item.ctrlMask with
  | none =>
    rw [hmask] at hi
    cases hi
    refine .inl ⟨rfl, _, item.src, ?_, hplain⟩
    rw [infoWords, hmask]
    rfl
  | some mask =>
    rw [hmask] at hi
    obtain ⟨words, hwords, hi⟩ := bind_eq_ok.mp hi
    cases hi
    have hoff : words.2 = mask.off := by
      unfold maskWords at hwords
      split at hwords
      · cases hwords
      · obtain ⟨overflow, -, hwords⟩ := bind_eq_ok.mp hwords
        obtain ⟨-, hwords⟩ := errorIf_bind_ok.mp hwords
        cases hwords
        rfl
    refine .inr ⟨mask, info ||| item.flags &&& ntupleItemMarks ||| indItemTypeIsMasked, item.src,
      words.1, rfl, ?_, ?_⟩
    · rw [infoWords, hmask, ← hoff]
      rfl
    · rw [Nat.and_or_distrib_right, hplain]
      decide

end Words

end Ucesb
