import Mathlib.Data.List.Basic

namespace Ucesb

section Lanes

variable {α : Type}

def nextLane : Nat → List (α × Nat) → Nat
  | cur, [] => cur
  | _, x :: xs => nextLane x.2 xs

/-- The entries of lane `q`, where `cur` is the lane of the first entry. -/
def lane (q : Nat) : Nat → List (α × Nat) → List (α × Nat)
  | _, [] => []
  | cur, x :: xs => if cur = q then x :: lane q x.2 xs else lane q x.2 xs

variable {q cur : Nat} {x : α × Nat} {xs ys : List (α × Nat)}

theorem nextLane_append : nextLane cur (xs ++ ys) = nextLane (nextLane cur xs) ys := by
  induction xs generalizing cur with
  | nil => rfl
  | cons x xs ih => exact ih

theorem lane_append : lane q cur (xs ++ ys) = lane q cur xs ++ lane q (nextLane cur xs) ys := by
  induction xs generalizing cur with
  | nil => rfl
  | cons x xs ih =>
    simp only [List.cons_append, lane, nextLane]
    split
    · rw [ih, List.cons_append]
    · exact ih

@[simp]
theorem nextLane_concat : nextLane cur (xs ++ [x]) = x.2 := by
  rw [nextLane_append]
  rfl

theorem lane_concat_self : lane (nextLane cur xs) cur (xs ++ [x]) =
    lane (nextLane cur xs) cur xs ++ [x] := by
  rw [lane_append]
  simp [lane]

theorem lane_concat_other (h : q ≠ nextLane cur xs) : lane q cur (xs ++ [x]) = lane q cur xs := by
  rw [lane_append]
  simp [lane, Ne.symm h]

theorem nextLane_lt {size : Nat} (hcur : cur < size) (h : ∀ x ∈ xs, x.2 < size) :
    nextLane cur xs < size := by
  induction xs generalizing cur with
  | nil => exact hcur
  | cons x xs ih => exact ih (h x (by simp)) (fun y hy => h y (by simp [hy]))

theorem lane_next {m : Nat}
    (h : (lane (nextLane cur (xs.take m)) cur (xs.take m)).length <
      (lane (nextLane cur (xs.take m)) cur xs).length) :
    ∃ x, xs[m]? = some x ∧
      (lane (nextLane cur (xs.take m)) cur xs)[(lane (nextLane cur (xs.take m)) cur
        (xs.take m)).length]? = some x := by
  have hsplit : lane (nextLane cur (xs.take m)) cur xs =
      lane (nextLane cur (xs.take m)) cur (xs.take m) ++
        lane (nextLane cur (xs.take m)) (nextLane cur (xs.take m)) (xs.drop m) := by
    rw [← lane_append, List.take_append_drop]
  cases hd : xs.drop m with
  | nil =>
    rw [hsplit, hd] at h
    simp [lane] at h
  | cons x rest =>
    have hx : xs[m]? = some x := by
      rw [← List.head?_drop, hd]
      rfl
    refine ⟨x, hx, ?_⟩
    rw [hsplit, hd, List.getElem?_append_right (Nat.le_refl _)]
    simp [lane]

theorem lane_take_lt {m : Nat} (h : m < xs.length) :
    (lane (nextLane cur (xs.take m)) cur (xs.take m)).length <
      (lane (nextLane cur (xs.take m)) cur xs).length := by
  have hsplit : lane (nextLane cur (xs.take m)) cur xs =
      lane (nextLane cur (xs.take m)) cur (xs.take m) ++
        lane (nextLane cur (xs.take m)) (nextLane cur (xs.take m)) (xs.drop m) := by
    rw [← lane_append, List.take_append_drop]
  rw [hsplit, List.drop_eq_getElem_cons h]
  simp [lane]

theorem lane_take_succ_self {m : Nat} (h : xs[m]? = some x) :
    lane (nextLane cur (xs.take m)) cur (xs.take (m + 1)) =
      lane (nextLane cur (xs.take m)) cur (xs.take m) ++ [x] := by
  rw [List.take_add_one, h]
  exact lane_concat_self

theorem lane_take_succ_other {m : Nat} (h : xs[m]? = some x)
    (hq : q ≠ nextLane cur (xs.take m)) :
    lane q cur (xs.take (m + 1)) = lane q cur (xs.take m) := by
  rw [List.take_add_one, h]
  exact lane_concat_other hq

end Lanes

end Ucesb
