import Ucesb.GrowingRing

namespace Ucesb

section Cells

variable {α : Type} {mem mem' : Nat → α}

def readCells (mem : Nat → α) (start n : Nat) : List α := (List.range' start n).map mem

@[simp] theorem readCells_length (mem : Nat → α) (start n : Nat) :
    (readCells mem start n).length = n := by
  simp [readCells]

@[simp] theorem readCells_zero (mem : Nat → α) (start : Nat) : readCells mem start 0 = [] := rfl

theorem readCells_split (mem : Nat → α) (start m n : Nat) :
    readCells mem start (m + n) = readCells mem start m ++ readCells mem (start + m) n := by
  unfold readCells
  rw [← List.map_append, List.range'_append_1]

theorem readCells_between {a b c : Nat} (hab : a ≤ b) (hbc : b ≤ c) :
    readCells mem a (c - a) = readCells mem a (b - a) ++ readCells mem b (c - b) := by
  have hlen : c - a = (b - a) + (c - b) := by omega
  have hstart : a + (b - a) = b := by omega
  rw [hlen, readCells_split, hstart]

theorem readCells_congr {start n : Nat} (h : ∀ a, start ≤ a → a < start + n → mem' a = mem a) :
    readCells mem' start n = readCells mem start n := by
  apply List.map_congr_left
  intro a ha
  obtain ⟨hlo, hhi⟩ := List.mem_range'_1.mp ha
  exact h a hlo hhi

theorem readCells_write_before {start n cur : Nat} {words : List α} (h : start + n ≤ cur) :
    readCells (writeCells mem cur words) start n = readCells mem start n := by
  apply readCells_congr
  intro a _ ha
  exact writeCells_of_lt (by omega)

theorem readCells_write (mem : Nat → α) (cur : Nat) (words : List α) :
    readCells (writeCells mem cur words) cur words.length = words := by
  apply List.ext_getElem
  · exact readCells_length _ _ _
  · intro i _ hi
    simp only [readCells, List.getElem_map, List.getElem_range', Nat.one_mul]
    exact writeCells_at hi

theorem readCells_write_append {start cur : Nat} {words : List α} (h : start ≤ cur) :
    readCells (writeCells mem cur words) start (cur + words.length - start) =
      readCells mem start (cur - start) ++ words := by
  rw [readCells_between h (Nat.le_add_right cur words.length), readCells_write_before (by omega),
    Nat.add_sub_cancel_left, readCells_write]

end Cells

end Ucesb
