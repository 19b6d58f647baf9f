import Mathlib.Data.List.Perm.Basic

namespace Ucesb

section ArrayHeap

variable {α : Type} (less : α → α → Bool)

def swapAt (l : List α) (i j : Nat) : List α :=
  match l[i]?, l[j]? with
  | some a, some b => (l.set i b).set j a
  | _, _ => l

/-- `compare_less` of two slots; `false` for a slot beyond the entries. -/
def lessAt (l : List α) (i j : Nat) : Bool :=
  match l[i]?, l[j]? with
  | some a, some b => less a b
  | _, _ => false

/-- The slot that the item in `parent` has to change places with, or `parent` itself. -/
def heapMoveTo (l : List α) (parent : Nat) : Nat :=
  let child1 := parent * 2 + 1
  let child2 := child1 + 1
  let moveTo := if lessAt less l child1 parent then child1 else parent
  if lessAt less l child2 moveTo then child2 else moveTo

def heapMoveDown : Nat → List α → Nat → List α
  | 0, l, _ => l
  | fuel + 1, l, parent =>
    let moveTo := heapMoveTo less l parent
    if moveTo = parent then l else heapMoveDown fuel (swapAt l parent moveTo) moveTo

/-- The hole at `insertAt` moves up until the new item fits. -/
def heapSiftUp : Nat → List α → Nat → α → List α
  | 0, l, insertAt, item => l.set insertAt item
  | fuel + 1, l, insertAt, item =>
    if insertAt = 0 then l.set insertAt item
    else
      match l[(insertAt - 1) / 2]? with
      | none => l.set insertAt item
      | some parent =>
        if less parent item then l.set insertAt item
        else heapSiftUp fuel (l.set insertAt parent) ((insertAt - 1) / 2) item

def heapInsert (l : List α) (item : α) : List α :=
  heapSiftUp less l.length (l ++ [item]) l.length item

variable {less}

theorem swapAt_perm (l : List α) (i j : Nat) : (swapAt l i j).Perm l := by
  unfold swapAt
  split
  · rename_i a b ha hb
    obtain ⟨hi, rfl⟩ := List.getElem?_eq_some_iff.mp ha
    obtain ⟨hj, rfl⟩ := List.getElem?_eq_some_iff.mp hb
    exact List.set_set_perm hi hj
  · exact List.Perm.refl l

theorem heapMoveDown_perm (fuel : Nat) (l : List α) (parent : Nat) :
    (heapMoveDown less fuel l parent).Perm l := by
  induction fuel generalizing l parent with
  | zero => exact List.Perm.refl l
  | succ fuel ih =>
    unfold heapMoveDown
    dsimp only
    split
    · exact List.Perm.refl l
    · exact (ih _ _).trans (swapAt_perm l _ _)

theorem heapSiftUp_perm (fuel : Nat) (l : List α) (insertAt : Nat) (item : α)
    (h : insertAt < l.length) : (heapSiftUp less fuel l insertAt item).Perm (l.set insertAt item) := by
  induction fuel generalizing l insertAt with
  | zero => exact List.Perm.refl _
  | succ fuel ih =>
    unfold heapSiftUp
    split
    · exact List.Perm.refl _
    · rename_i hne
      split
      · exact List.Perm.refl _
      · rename_i parent hp
        split
        · exact List.Perm.refl _
        · have hlt : (insertAt - 1) / 2 < insertAt := by omega
          have hlen : (insertAt - 1) / 2 < (l.set insertAt parent).length := by
            rw [List.length_set]
            omega
          refine (ih _ _ hlen).trans ?_
          obtain ⟨hpl, rfl⟩ := List.getElem?_eq_some_iff.mp hp
          have hs := @List.set_set_perm α (l.set insertAt item) insertAt ((insertAt - 1) / 2)
            (by rw [List.length_set]; exact h) (by rw [List.length_set]; exact hpl)
          simpa [List.getElem_set_ne (show insertAt ≠ (insertAt - 1) / 2 by omega)] using hs

theorem heapInsert_perm (l : List α) (item : α) : (heapInsert less l item).Perm (item :: l) := by
  unfold heapInsert
  refine (heapSiftUp_perm _ _ _ _ (by simp)).trans ?_
  rw [show (l ++ [item]).set l.length item = l ++ [item] by simp]
  exact List.perm_append_singleton item l

end ArrayHeap

end Ucesb
