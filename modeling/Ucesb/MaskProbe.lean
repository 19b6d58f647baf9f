import Mathlib.Algebra.BigOperators.Group.Finset.Basic
import Mathlib.Algebra.Order.BigOperators.Group.Finset
import Mathlib.Data.Nat.Bitwise
import Mathlib.Data.Nat.Find

namespace Ucesb

section MaskProbe

variable {β : Type}

/-- First slot, from `slot` on, at which `stop` holds of the slot number and what is there. -/
def probeFrom (t : List β) (mask : Nat) (stop : Nat → β → Bool) : Nat → Nat → Option Nat
  | 0, _ => none
  | fuel + 1, slot =>
    match t[slot]? with
    | none => none
    | some b => if stop slot b then some slot else probeFrom t mask stop fuel ((slot + 1) &&& mask)

/-- The number of slots from `home` to `slot`. -/
def displacement (size home slot : Nat) : Nat := (slot + (size - home % size)) % size

theorem displacement_add {size home j : Nat} (hj : j < size) :
    displacement size home ((home + j) % size) = j := by
  have hpos : 0 < size := by omega
  have hlt := Nat.mod_lt home hpos
  unfold displacement
  rw [Nat.mod_add_mod, ← Nat.mod_add_div home size]
  rw [show home % size + size * (home / size) + j +
      (size - (home % size + size * (home / size)) % size) =
      j + size * (home / size) + (home % size + (size - (home % size + size * (home / size)) % size))
      by omega]
  rw [Nat.add_mul_mod_self_left, Nat.mod_mod,
    show home % size + (size - home % size) = size by omega, Nat.add_mod_right,
    Nat.add_mul_mod_self_left, Nat.mod_eq_of_lt hj]

theorem add_displacement {size home slot : Nat} (h : slot < size) :
    (home + displacement size home slot) % size = slot := by
  have hpos : 0 < size := by omega
  have hlt := Nat.mod_lt home hpos
  have hd := Nat.mod_add_div home size
  unfold displacement
  rw [Nat.add_mod_mod]
  rw [show home + (slot + (size - home % size)) = slot + size * (home / size + 1) by
    rw [Nat.mul_add, Nat.mul_one]; omega]
  rw [Nat.add_mul_mod_self_left, Nat.mod_eq_of_lt h]

theorem displacement_lt {size home slot : Nat} (h : 0 < size) :
    displacement size home slot < size := Nat.mod_lt _ h

theorem probeFrom_eq_some {t : List β} {k mask : Nat} {stop : Nat → β → Bool}
    (hn : t.length = 2 ^ k) (hm : mask = t.length - 1) {b : β} :
    ∀ j fuel home, j < fuel → t[(home + j) % t.length]? = some b →
      stop ((home + j) % t.length) b = true →
      (∀ m < j, ∀ c, t[(home + m) % t.length]? = some c →
        stop ((home + m) % t.length) c = false) →
      probeFrom t mask stop fuel (home % t.length) = some ((home + j) % t.length) := by
  have hpos : 0 < t.length := by
    rw [hn]
    exact Nat.two_pow_pos k
  intro j
  induction j with
  | zero =>
    intro fuel home hf hj hs _
    obtain ⟨fuel, rfl⟩ := Nat.exists_eq_add_one_of_ne_zero (Nat.ne_of_gt hf)
    rw [Nat.add_zero] at hj hs ⊢
    simp [probeFrom, hj, hs]
  | succ j ih =>
    intro fuel home hf hj hs hb
    obtain ⟨fuel, rfl⟩ := Nat.exists_eq_add_one_of_ne_zero (Nat.ne_of_gt (Nat.zero_lt_of_lt hf))
    have hlt : home % t.length < t.length := Nat.mod_lt _ hpos
    have h0 : stop (home % t.length) t[home % t.length] = false :=
      hb 0 (Nat.succ_pos j) _ (by rw [Nat.add_zero, List.getElem?_eq_getElem hlt])
    have hstep : (home % t.length + 1) &&& mask = (home + 1) % t.length := by
      rw [hm, hn, Nat.and_two_pow_sub_one_eq_mod, Nat.mod_add_mod]
    have hshift : ∀ m, home + 1 + m = home + (m + 1) := by
      intro m
      omega
    have hnext := ih fuel (home + 1) (by omega) (by rw [hshift]; exact hj)
      (by rw [hshift]; exact hs)
      (fun m hm' c hc => by rw [hshift] at hc ⊢; exact hb (m + 1) (by omega) c hc)
    simp only [probeFrom, List.getElem?_eq_getElem hlt, h0, hstep]
    rw [if_neg (by simp), hnext, hshift]

theorem probeFrom_finds {t : List β} {k mask : Nat} {stop : Nat → β → Bool}
    (hn : t.length = 2 ^ k) (hm : mask = t.length - 1) (home : Nat) {i : Nat} {b : β}
    (hi : t[i]? = some b) (hs : stop i b = true) :
    ∃ j c, j < t.length ∧
      probeFrom t mask stop t.length (home &&& mask) = some ((home + j) % t.length) ∧
      t[(home + j) % t.length]? = some c ∧ stop ((home + j) % t.length) c = true ∧
      ∀ m < j, ∀ d, t[(home + m) % t.length]? = some d →
        stop ((home + m) % t.length) d = false := by
  have hlt : i < t.length := (List.getElem?_eq_some_iff.mp hi).1
  have hpos : 0 < t.length := by omega
  have hex : ∃ j, ∃ c, t[(home + j) % t.length]? = some c ∧
      stop ((home + j) % t.length) c = true := by
    refine ⟨displacement t.length home i, b, ?_⟩
    rw [add_displacement hlt]
    exact ⟨hi, hs⟩
  classical
  obtain ⟨c, hc, hstop⟩ := Nat.find_spec hex
  have hbefore : ∀ m < Nat.find hex, ∀ d, t[(home + m) % t.length]? = some d →
      stop ((home + m) % t.length) d = false := by
    intro m hmj d hd
    by_contra hne
    exact Nat.find_min hex hmj ⟨d, hd, by simpa using hne⟩
  have hjn : Nat.find hex < t.length := by
    have hle : Nat.find hex ≤ displacement t.length home i := by
      refine Nat.find_min' hex ⟨b, ?_⟩
      rw [add_displacement hlt]
      exact ⟨hi, hs⟩
    exact Nat.lt_of_le_of_lt hle (displacement_lt hpos)
  have hmask : home &&& mask = home % t.length := by
    rw [hm, hn, Nat.and_two_pow_sub_one_eq_mod]
  refine ⟨Nat.find hex, c, hjn, ?_, hc, hstop, hbefore⟩
  rw [hmask]
  exact probeFrom_eq_some hn hm _ _ home hjn hc hstop hbefore

end MaskProbe

end Ucesb
