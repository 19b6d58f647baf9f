import Mathlib.Data.List.Sort
import Mathlib.Tactic.Ring

namespace Ucesb

def increment (memory : Int → Int) (a : Int) : Int → Int :=
  Function.update memory a (memory a + 1)

def dcLineStart (n i : Nat) : Nat := i * (2 * n + 1 - i) / 2

def dcTotalItems (n : Nat) : Nat := (n + 1) * n / 2

def addListDiag (n : Nat) : List Nat → (Int → Int) → (Int → Int)
  | [], memory => memory
  | p1 :: list, memory =>
    addListDiag n list
      (list.foldl (fun memory (p2 : Nat) => increment memory (dcLineStart n p1 - p1 + p2))
        (increment memory (dcLineStart n p1)))

/-- `dense_corr2::add_lists_two`, with `_sum1`, `_sum2` and `_corr` after each other. -/
def addListsTwo (n : Nat) (list1 list2 : List Nat) (memory : Int → Int) : Int → Int :=
  let memory := list1.foldl (fun memory (p1 : Nat) => increment memory p1) memory
  let memory := list2.foldl (fun memory (p2 : Nat) => increment memory (n + p2)) memory
  list1.foldl (fun memory (p1 : Nat) =>
    list2.foldl (fun memory (p2 : Nat) => increment memory (2 * n + p1 * n + p2)) memory) memory

/-- The number of cells in the rows before row `i`: row `i` has the cells from `(i, i)` to
`(i, n - 1)`. -/
def rowStart (n : Nat) : Nat → Nat
  | 0 => 0
  | i + 1 => rowStart n i + (n - i)

/-- The cell `(i, j)` of the triangle, `i ≤ j`. -/
def triangleCell (n i j : Nat) : Int := rowStart n i + j - i

theorem dcLineStart_eq {n i : Nat} (h : i ≤ n) : dcLineStart n i = rowStart n i := by
  induction i with
  | zero => simp [dcLineStart, rowStart]
  | succ i ih =>
    rw [rowStart, ← ih (by omega), dcLineStart, dcLineStart]
    obtain ⟨k, rfl⟩ : ∃ k, n = i + 1 + k := ⟨n - (i + 1), by omega⟩
    have hstep : (i + 1) * (2 * (i + 1 + k) + 1 - (i + 1)) =
        i * (2 * (i + 1 + k) + 1 - i) + (k + 1) * 2 := by
      rw [show 2 * (i + 1 + k) + 1 - (i + 1) = i + 2 * k + 2 by omega,
        show 2 * (i + 1 + k) + 1 - i = i + 2 * k + 3 by omega]
      ring
    rw [hstep, Nat.add_mul_div_right _ _ (by omega : 0 < 2)]
    omega

theorem dcTotalItems_eq (n : Nat) : dcTotalItems n = rowStart n n := by
  rw [← dcLineStart_eq le_rfl, dcLineStart, dcTotalItems]
  congr 1
  rw [show 2 * n + 1 - n = n + 1 by omega, Nat.mul_comm]

theorem rowStart_mono {n i j : Nat} (h : i ≤ j) : rowStart n i ≤ rowStart n j := by
  induction h with
  | refl => exact le_rfl
  | step _ ih => exact le_trans ih (Nat.le_add_right _ _)

theorem triangleCell_inside {n i j : Nat} (hij : i ≤ j) (hj : j < n) :
    0 ≤ triangleCell n i j ∧ triangleCell n i j < dcTotalItems n := by
  have hrow : rowStart n (i + 1) ≤ rowStart n n := rowStart_mono (by omega)
  rw [rowStart] at hrow
  rw [dcTotalItems_eq, triangleCell]
  omega

theorem triangleCell_row_lt {n i j k l : Nat} (hj : j < n) (hik : i < k) (hkl : k ≤ l) :
    triangleCell n i j < triangleCell n k l := by
  have hrow : rowStart n (i + 1) ≤ rowStart n k := rowStart_mono hik
  rw [rowStart] at hrow
  rw [triangleCell, triangleCell]
  omega

/-- The addresses that `addListDiag` counts at. -/
def diagAddresses (n : Nat) : List Nat → List Int
  | [] => []
  | p1 :: list =>
    (dcLineStart n p1 : Int) :: (list.map fun (p2 : Nat) => (dcLineStart n p1 : Int) - p1 + p2) ++
      diagAddresses n list

theorem foldl_increment {α : Type} (address : α → Int) (l : List α) (memory : Int → Int) (a : Int) :
    l.foldl (fun memory x => increment memory (address x)) memory a =
      memory a + (l.map address).count a := by
  induction l generalizing memory with
  | nil => simp
  | cons x l ih =>
    rw [List.foldl_cons, ih, increment, Function.update_apply, List.map_cons, List.count_cons]
    by_cases h : a = address x
    · simp [h]
      ring
    · have h' : address x ≠ a := fun he => h he.symm
      simp [h, h']

theorem addListDiag_apply (n : Nat) (list : List Nat) (memory : Int → Int) (a : Int) :
    addListDiag n list memory a = memory a + (diagAddresses n list).count a := by
  induction list generalizing memory with
  | nil => simp [addListDiag, diagAddresses]
  | cons p1 list ih =>
    have hself := foldl_increment (fun a : Int => a) [(dcLineStart n p1 : Int)] memory a
    rw [List.map_id', List.foldl_cons, List.foldl_nil] at hself
    have hcount : (diagAddresses n (p1 :: list)).count a = [(dcLineStart n p1 : Int)].count a +
        (list.map fun (p2 : Nat) => (dcLineStart n p1 : Int) - p1 + p2).count a +
          (diagAddresses n list).count a := by
      rw [diagAddresses, List.count_append, List.count_cons, List.count_singleton]
      omega
    rw [addListDiag, ih, foldl_increment fun p2 : Nat => (dcLineStart n p1 : Int) - p1 + p2, hself,
      hcount]
    omega

/-- `memory'` is `memory` with one more count in each cell `(i, j)`, `i ≤ j`, of the items that are
present. -/
structure DiagCounted (n : Nat) (present : Nat → Prop) (memory memory' : Int → Int) : Prop where
  cells : ∀ i j, present i → present j → i ≤ j →
    memory' (triangleCell n i j) = memory (triangleCell n i j) + 1
  others : ∀ a, (∀ i j, present i → present j → i ≤ j → a ≠ triangleCell n i j) →
    memory' a = memory a
  inside : ∀ i j, present i → present j → i ≤ j →
    0 ≤ triangleCell n i j ∧ triangleCell n i j < dcTotalItems n

theorem mem_diagAddresses {n : Nat} {list : List Nat} (hsorted : list.Pairwise (· < ·))
    (hlt : ∀ i ∈ list, i < n) {a : Int} :
    a ∈ diagAddresses n list ↔ ∃ i j, i ∈ list ∧ j ∈ list ∧ i ≤ j ∧ a = triangleCell n i j := by
  induction list with
  | nil => simp [diagAddresses]
  | cons p1 list ih =>
    have hp := List.pairwise_cons.mp hsorted
    have hline : dcLineStart n p1 = rowStart n p1 :=
      dcLineStart_eq (hlt p1 (List.mem_cons_self ..)).le
    rw [diagAddresses, List.cons_append, List.mem_cons, List.mem_append, List.mem_map,
      ih hp.2 fun i hi => hlt i (List.mem_cons_of_mem p1 hi)]
    constructor
    · rintro (rfl | ⟨p2, hp2, rfl⟩ | ⟨i, j, hi, hj, hij, rfl⟩)
      · exact ⟨p1, p1, List.mem_cons_self .., List.mem_cons_self .., le_rfl,
          by rw [triangleCell, hline]; omega⟩
      · exact ⟨p1, p2, List.mem_cons_self .., List.mem_cons_of_mem p1 hp2, (hp.1 p2 hp2).le,
          by rw [triangleCell, hline]; omega⟩
      · exact ⟨i, j, List.mem_cons_of_mem p1 hi, List.mem_cons_of_mem p1 hj, hij, rfl⟩
    · rintro ⟨i, j, hi, hj, hij, rfl⟩
      rcases List.mem_cons.mp hi with rfl | hi
      · rcases List.mem_cons.mp hj with rfl | hj
        · exact .inl (by rw [triangleCell, hline]; omega)
        · exact .inr (.inl ⟨j, hj, by rw [triangleCell, hline]; omega⟩)
      · rcases List.mem_cons.mp hj with rfl | hj
        · have := hp.1 i (by assumption)
          omega
        · exact .inr (.inr ⟨i, j, hi, hj, hij, rfl⟩)

theorem diagAddresses_nodup {n : Nat} {list : List Nat} (hsorted : list.Pairwise (· < ·))
    (hlt : ∀ i ∈ list, i < n) : (diagAddresses n list).Nodup := by
  induction list with
  | nil => exact List.nodup_nil
  | cons p1 list ih =>
    have hp := List.pairwise_cons.mp hsorted
    have hlt' : ∀ i ∈ list, i < n := fun i hi => hlt i (List.mem_cons_of_mem p1 hi)
    have hp1 : p1 < n := hlt p1 (List.mem_cons_self ..)
    have hline : dcLineStart n p1 = rowStart n p1 := dcLineStart_eq hp1.le
    have hrow : (dcLineStart n p1 : Int) ::
        (list.map fun (p2 : Nat) => (dcLineStart n p1 : Int) - p1 + p2) =
          (p1 :: list).map (triangleCell n p1) := by
      rw [List.map_cons, triangleCell, hline]
      congr 1
      · omega
      · refine List.map_congr_left fun p2 _ => ?_
        rw [triangleCell]
        omega
    rw [diagAddresses, hrow]
    refine List.nodup_append.mpr ⟨?_, ih hp.2 hlt', ?_⟩
    · refine List.Pairwise.map _ (fun j l hjl h => ?_) hsorted
      rw [triangleCell, triangleCell] at h
      omega
    · intro a ha b hb hab
      obtain ⟨j, hj, rfl⟩ := List.mem_map.mp ha
      obtain ⟨k, l, hk, hl, hkl, rfl⟩ := (mem_diagAddresses hp.2 hlt').mp hb
      exact absurd hab (triangleCell_row_lt (hlt j hj) (hp.1 k hk) hkl).ne

theorem addListDiag_counted {n : Nat} {list : List Nat} (hsorted : list.Pairwise (· < ·))
    (hlt : ∀ i ∈ list, i < n) (memory : Int → Int) :
    DiagCounted n (· ∈ list) memory (addListDiag n list memory) where
  cells i j hi hj hij := by
    have hmem := (mem_diagAddresses hsorted hlt).mpr ⟨i, j, hi, hj, hij, rfl⟩
    rw [addListDiag_apply, List.count_eq_one_of_mem (diagAddresses_nodup hsorted hlt) hmem]
    rfl
  others a ha := by
    have hmem : a ∉ diagAddresses n list := by
      rw [mem_diagAddresses hsorted hlt]
      rintro ⟨i, j, hi, hj, hij, heq⟩
      exact ha i j hi hj hij heq
    rw [addListDiag_apply, List.count_eq_zero_of_not_mem hmem]
    simp
  inside i j _ hj hij := triangleCell_inside hij (hlt j hj)

theorem diagAddresses_twice {n x : Nat} {list : List Nat} (h : [x, x].Sublist list) :
    2 ≤ (diagAddresses n list).count (dcLineStart n x : Int) := by
  induction list with
  | nil => exact absurd h.length_le (by simp)
  | cons p1 list ih =>
    rw [diagAddresses, List.count_append, List.count_cons]
    cases h with
    | cons _ h =>
      have := ih h
      omega
    | cons_cons _ h =>
      have hx : x ∈ list := List.singleton_sublist.mp h
      have hmap : 0 < (list.map fun (p2 : Nat) => (dcLineStart n x : Int) - x + p2).count
          (dcLineStart n x : Int) :=
        List.count_pos_iff.mpr (List.mem_map.mpr ⟨x, hx, by omega⟩)
      simp only [BEq.rfl, if_true]
      omega

theorem DiagCounted.nodup {n : Nat} {list : List Nat} {present : Nat → Prop} {memory : Int → Int}
    (hlt : ∀ i ∈ list, i < n) (hpresent : ∀ i ∈ list, present i)
    (h : DiagCounted n present memory (addListDiag n list memory)) : list.Nodup := by
  rw [List.nodup_iff_sublist]
  intro x hx
  have hmem : x ∈ list := hx.subset (List.mem_cons_self ..)
  have hcell : (dcLineStart n x : Int) = triangleCell n x x := by
    rw [triangleCell, dcLineStart_eq (hlt x hmem).le]
    omega
  have htwice := diagAddresses_twice (n := n) hx
  have hone := h.cells x x (hpresent x hmem) (hpresent x hmem) le_rfl
  rw [addListDiag_apply, ← hcell] at hone
  omega

end Ucesb
