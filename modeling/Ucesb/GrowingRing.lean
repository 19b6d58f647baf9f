import Mathlib.Data.List.Induction
import Mathlib.Tactic.Common
import Mathlib.Tactic.Ring

namespace Ucesb

section GrowingRing

variable {α : Type}

structure RingPos where
  cur : Nat
  size : Nat
deriving DecidableEq

inductive RingItem (α : Type)
  /-- The words of a message, and by how much the ring grows with it. -/
  | message (words : List α) (grow : Nat)
  | filler

def RingItem.extent (p : RingPos) : RingItem α → Nat
  | .message words _ => words.length
  | .filler => p.size - p.cur

def RingItem.growth : RingItem α → Nat
  | .message _ grow => grow
  | .filler => 0

def RingPos.advance (p : RingPos) (n : Nat) : RingPos :=
  ⟨if p.cur + n = p.size then 0 else p.cur + n, p.size⟩

def RingPos.after (p : RingPos) : RingItem α → RingPos
  | .message words grow => RingPos.advance ⟨p.cur, p.size + grow⟩ words.length
  | .filler => ⟨0, p.size⟩

/-- The cells that are written for an item: of a filler only the first one. -/
def RingItem.cells (p : RingPos) : RingItem α → List Nat
  | .message words _ => List.range' p.cur words.length
  | .filler => [p.cur]

def WordsAt (mem : Nat → α) (cur : Nat) (words : List α) : Prop :=
  ∀ i, (h : i < words.length) → mem (cur + i) = words[i]

def RingItem.At (mark : α) (ok : RingPos → List α → Nat → Prop) (mem : Nat → α) (p : RingPos) :
    RingItem α → Prop
  | .message words grow =>
    words ≠ [] ∧ p.cur + words.length ≤ p.size ∧ WordsAt mem p.cur words ∧ ok p words grow
  | .filler => mem p.cur = mark

def RingLaid (mark : α) (ok : RingPos → List α → Nat → Prop) (mem : Nat → α) :
    RingPos → List (RingItem α) → Prop
  | _, [] => True
  | p, item :: items => item.At mark ok mem p ∧ RingLaid mark ok mem (p.after item) items

def ringEnd (p : RingPos) : List (RingItem α) → RingPos
  | [] => p
  | item :: items => ringEnd (p.after item) items

def ringExtent (p : RingPos) : List (RingItem α) → Nat
  | [] => 0
  | item :: items => item.extent p + ringExtent (p.after item) items

def ringGrowth (items : List (RingItem α)) : Nat := (items.map RingItem.growth).sum

def ringCells (p : RingPos) : List (RingItem α) → List Nat
  | [] => []
  | item :: items => item.cells p ++ ringCells (p.after item) items

def writeCells (mem : Nat → α) (cur : Nat) (words : List α) : Nat → α :=
  fun a => if a < cur then mem a else (words[a - cur]?).getD (mem a)

variable {mark : α} {ok : RingPos → List α → Nat → Prop} {mem mem' : Nat → α} {p : RingPos}
  {items : List (RingItem α)} {item : RingItem α}

theorem RingPos.lt_of_advance {n : Nat} (hn : 0 < n)
    (h : (p.advance n).cur < (p.advance n).size) : p.cur < p.size := by
  unfold RingPos.advance at h
  dsimp only at h
  split at h
  · omega
  · omega

theorem ringEnd_append (p : RingPos) (items more : List (RingItem α)) :
    ringEnd p (items ++ more) = ringEnd (ringEnd p items) more := by
  induction items generalizing p with
  | nil => rfl
  | cons item items ih => exact ih _

theorem ringExtent_append (p : RingPos) (items more : List (RingItem α)) :
    ringExtent p (items ++ more) = ringExtent p items + ringExtent (ringEnd p items) more := by
  induction items generalizing p with
  | nil => exact (Nat.zero_add _).symm
  | cons item items ih =>
    simp only [List.cons_append, ringExtent, ringEnd, ih]
    omega

theorem ringCells_append (p : RingPos) (items more : List (RingItem α)) :
    ringCells p (items ++ more) = ringCells p items ++ ringCells (ringEnd p items) more := by
  induction items generalizing p with
  | nil => rfl
  | cons item items ih =>
    simp only [List.cons_append, ringCells, ringEnd, ih, List.append_assoc]

theorem ringLaid_append (items more : List (RingItem α)) :
    RingLaid mark ok mem p (items ++ more) ↔
      RingLaid mark ok mem p items ∧ RingLaid mark ok mem (ringEnd p items) more := by
  induction items generalizing p with
  | nil => exact ⟨fun h => ⟨trivial, h⟩, fun h => h.2⟩
  | cons item items ih =>
    simp only [List.cons_append, RingLaid, ringEnd, ih, and_assoc]

theorem ringEnd_size (p : RingPos) (items : List (RingItem α)) :
    (ringEnd p items).size = p.size + ringGrowth items := by
  induction items generalizing p with
  | nil => rfl
  | cons item items ih =>
    rw [ringEnd, ih]
    cases item with
    | message words grow =>
      simp only [RingPos.after, RingPos.advance, ringGrowth, List.map_cons, RingItem.growth,
        List.sum_cons]
      omega
    | filler => simp [RingPos.after, ringGrowth, RingItem.growth]

theorem wordsAt_congr {cur : Nat} {words : List α}
    (h : ∀ a ∈ List.range' cur words.length, mem' a = mem a) (hw : WordsAt mem cur words) :
    WordsAt mem' cur words := by
  intro i hi
  rw [h _ (List.mem_range'_1.mpr ⟨Nat.le_add_right _ _, by omega⟩)]
  exact hw i hi

theorem ringLaid_congr (h : ∀ a ∈ ringCells p items, mem' a = mem a)
    (hl : RingLaid mark ok mem p items) : RingLaid mark ok mem' p items := by
  induction items generalizing p with
  | nil => trivial
  | cons item items ih =>
    refine ⟨?_, ih (fun a ha => h a (List.mem_append_right _ ha)) hl.2⟩
    have hcells : ∀ a ∈ item.cells p, mem' a = mem a :=
      fun a ha => h a (List.mem_append_left _ ha)
    have hat := hl.1
    cases item with
    | message words grow =>
      obtain ⟨hne, hfit, hwords, hok⟩ := hat
      exact ⟨hne, hfit, wordsAt_congr hcells hwords, hok⟩
    | filler =>
      have hm : mem p.cur = mark := hat
      show mem' p.cur = mark
      rw [hcells p.cur List.mem_cons_self]
      exact hm

/-- The items lie in one stretch up to the end position, or go round the end of the ring once. -/
def RingRegion (p : RingPos) (e : RingPos) (extent : Nat) (cells : List Nat) : Prop :=
  (e.cur = p.cur + extent ∧ ∀ a ∈ cells, p.cur ≤ a ∧ a < e.cur) ∨
  ∃ top, p.size ≤ top ∧ top ≤ e.size ∧ e.cur ≤ p.cur ∧ extent + p.cur = top + e.cur ∧
    ∀ a ∈ cells, p.cur ≤ a ∧ a < top ∨ a < e.cur

theorem item_region {words : List α} {grow : Nat} (e : RingPos) {a : Nat}
    (ha : a ∈ (RingItem.message words grow).cells e) : e.cur ≤ a ∧ a < e.cur + words.length := by
  have := List.mem_range'_1.mp ha
  omega

theorem ring_region (hp : p.cur < p.size) (hl : RingLaid mark ok mem p items)
    (hx : ringExtent p items ≤ p.size) :
    (ringEnd p items).cur < (ringEnd p items).size ∧ p.size ≤ (ringEnd p items).size ∧
      RingRegion p (ringEnd p items) (ringExtent p items) (ringCells p items) := by
  induction items using List.reverseRecOn with
  | nil =>
    refine ⟨hp, Nat.le_refl _, .inl ⟨rfl, ?_⟩⟩
    intro a ha
    cases ha
  | append_singleton items item ih =>
    obtain ⟨hli, hlast, -⟩ := (ringLaid_append items [item]).mp hl
    rw [ringExtent_append] at hx ⊢
    obtain ⟨hlt, hsize, hreg⟩ := ih hli (by omega)
    rw [ringEnd_append, ringCells_append]
    simp only [ringEnd, ringExtent, ringCells, Nat.add_zero, List.append_nil] at hx ⊢
    generalize ringEnd p items = e at *
    cases item with
    | message words grow =>
      obtain ⟨hne, hfit, -, -⟩ := hlast
      have hpos := List.length_pos_iff.mpr hne
      have hcell := fun (a : Nat) (ha : a ∈ (RingItem.message words grow).cells e) =>
        item_region e ha
      simp only [RingItem.extent] at hx ⊢
      simp only [RingPos.after, RingPos.advance]
      rcases hreg with ⟨hcur, hcells⟩ | ⟨top, h1, h2, h3, h4, hcells⟩
      · by_cases hend : e.cur + words.length = e.size + grow
        · rw [if_pos hend]
          refine ⟨by omega, by omega, .inr ⟨e.size + grow, by omega, Nat.le_refl _, by simp,
            by simp only; omega, ?_⟩⟩
          intro a ha
          rcases List.mem_append.mp ha with ha | ha
          · have := hcells a ha
            omega
          · have := hcell a ha
            omega
        · rw [if_neg hend]
          refine ⟨by omega, by omega, .inl ⟨by simp only; omega, ?_⟩⟩
          intro a ha
          simp only
          rcases List.mem_append.mp ha with ha | ha
          · have := hcells a ha
            omega
          · have := hcell a ha
            omega
      · -- what is left of the free cells ends before the first item
        rw [if_neg (by omega)]
        refine ⟨by omega, by omega, .inr ⟨top, h1, by simp only; omega,
          by simp only; omega, by simp only; omega, ?_⟩⟩
        intro a ha
        simp only
        rcases List.mem_append.mp ha with ha | ha
        · have := hcells a ha
          omega
        · have := hcell a ha
          omega
    | filler =>
      simp only [RingItem.extent] at hx ⊢
      simp only [RingPos.after, RingItem.cells]
      rcases hreg with ⟨hcur, hcells⟩ | ⟨top, h1, h2, h3, h4, hcells⟩
      · refine ⟨by omega, hsize, .inr ⟨e.size, hsize, Nat.le_refl _, by simp, by simp only; omega, ?_⟩⟩
        intro a ha
        rcases List.mem_append.mp ha with ha | ha
        · have := hcells a ha
          omega
        · cases List.mem_singleton.mp ha
          omega
      · exfalso
        omega

theorem free_cell {n a : Nat} (hp : p.cur < p.size) (hl : RingLaid mark ok mem p items)
    (hx : ringExtent p items + n ≤ p.size) (ha : (ringEnd p items).cur ≤ a)
    (han : a < (ringEnd p items).cur + n) : a ∉ ringCells p items := by
  obtain ⟨_, _, hreg⟩ := ring_region hp hl (by omega)
  intro hmem
  rcases hreg with ⟨hcur, hcells⟩ | ⟨top, h1, h2, h3, h4, hcells⟩
  · have := hcells a hmem
    omega
  · have := hcells a hmem
    omega

theorem writeCells_of_lt {cur a : Nat} {words : List α} (h : a < cur) :
    writeCells mem cur words a = mem a := by
  simp only [writeCells, h, if_true]

theorem writeCells_of_ge {cur a : Nat} {words : List α} (h : cur + words.length ≤ a) :
    writeCells mem cur words a = mem a := by
  unfold writeCells
  rw [if_neg (by omega), List.getElem?_eq_none (by omega)]
  rfl

theorem writeCells_at {cur i : Nat} {words : List α} (h : i < words.length) :
    writeCells mem cur words (cur + i) = words[i] := by
  unfold writeCells
  rw [if_neg (by omega), Nat.add_sub_cancel_left, List.getElem?_eq_getElem h]
  rfl

theorem ringLaid_write {n off : Nat} {words : List α} (hp : p.cur < p.size)
    (hl : RingLaid mark ok mem p items) (hx : ringExtent p items + n ≤ p.size)
    (hoff : (ringEnd p items).cur ≤ off)
    (hn : off + words.length ≤ (ringEnd p items).cur + n) :
    RingLaid mark ok (writeCells mem off words) p items := by
  apply ringLaid_congr _ hl
  intro a ha
  by_cases h1 : a < off
  · exact writeCells_of_lt h1
  · by_cases h2 : off + words.length ≤ a
    · exact writeCells_of_ge h2
    · exact absurd ha (free_cell hp hl hx (by omega) (by omega))

theorem wordsAt_write {cur k n : Nat} {words : List α}
    (h : WordsAt mem cur (words.take k)) :
    WordsAt (writeCells mem (cur + k) ((words.drop k).take n)) cur (words.take (k + n)) := by
  intro i hi
  rw [List.length_take] at hi
  rw [List.getElem_take]
  by_cases hik : i < k
  · rw [writeCells_of_lt (by omega)]
    have := h i (by rw [List.length_take]; omega)
    rw [this, List.getElem_take]
  · have hlen : i - k < ((words.drop k).take n).length := by
      rw [List.length_take, List.length_drop]
      omega
    have hw := @writeCells_at α mem (cur + k) (i - k) _ hlen
    rw [show cur + k + (i - k) = cur + i by omega] at hw
    rw [hw, List.getElem_take, List.getElem_drop]
    congr 1
    omega

end GrowingRing

end Ucesb
