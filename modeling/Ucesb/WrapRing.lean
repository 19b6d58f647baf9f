import Mathlib.Data.Nat.Bitwise
import Mathlib.Data.Nat.ModEq
import Mathlib.Data.List.Basic
import Mathlib.Logic.Function.Basic

namespace Ucesb

section WrapRing

variable {τ : Type} {k : Nat}

def wrapFill (n avail done : UInt32) : UInt32 := (avail - done) &&& (2 * n - 1)

def wrapSlot (n count : UInt32) : Nat := (count &&& (n - 1)).toNat

/-- A ring length that is a positive `int` and a power of two. -/
def ringLen (k : Nat) : UInt32 := UInt32.ofNat (2 ^ k)

theorem ringLen_toNat (hk : k < 31) : (ringLen k).toNat = 2 ^ k := by
  have h : 2 ^ k < 2 ^ 32 := Nat.pow_lt_pow_right (by omega) (by omega)
  simpa [ringLen] using h

theorem ringLen_sub_one (hk : k < 31) : (ringLen k - 1).toNat = 2 ^ k - 1 := by
  have h : 2 ^ k < 2 ^ 32 := Nat.pow_lt_pow_right (by omega) (by omega)
  have hpos : 0 < 2 ^ k := Nat.two_pow_pos k
  rw [UInt32.toNat_sub, ringLen_toNat hk]
  simp only [UInt32.toNat_one]
  omega

theorem two_ringLen_sub_one (hk : k < 31) : (2 * ringLen k - 1).toNat = 2 ^ (k + 1) - 1 := by
  have h : 2 ^ (k + 1) < 2 ^ 32 := Nat.pow_lt_pow_right (by omega) (by omega)
  have hpos : 0 < 2 ^ k := Nat.two_pow_pos k
  have htwo : (2 : UInt32).toNat = 2 := rfl
  rw [UInt32.toNat_sub, UInt32.toNat_mul, ringLen_toNat hk, htwo]
  simp only [UInt32.toNat_one]
  rw [pow_succ] at h ⊢
  omega

theorem wrapSlot_ofNat (hk : k < 31) (count : Nat) :
    wrapSlot (ringLen k) (UInt32.ofNat count) = count % 2 ^ k := by
  have hdvd : 2 ^ k ∣ 2 ^ 32 := Nat.pow_dvd_pow 2 (by omega)
  rw [wrapSlot, UInt32.toNat_and, ringLen_sub_one hk, Nat.and_two_pow_sub_one_eq_mod,
    UInt32.toNat_ofNat']
  exact Nat.mod_mod_of_dvd _ hdvd

theorem wrapFill_ofNat (hk : k < 31) {avail done : Nat} (hle : done ≤ avail)
    (hfit : avail ≤ done + 2 ^ k) :
    (wrapFill (ringLen k) (UInt32.ofNat avail) (UInt32.ofNat done)).toNat = avail - done := by
  have hdvd : 2 ^ (k + 1) ∣ 2 ^ 32 := Nat.pow_dvd_pow 2 (by omega)
  have hsub : UInt32.ofNat avail - UInt32.ofNat done = UInt32.ofNat (avail - done) := by
    exact (UInt32.ofNat_sub hle).symm
  rw [wrapFill, hsub, UInt32.toNat_and, two_ringLen_sub_one hk, Nat.and_two_pow_sub_one_eq_mod,
    UInt32.toNat_ofNat', Nat.mod_mod_of_dvd _ hdvd]
  apply Nat.mod_eq_of_lt
  rw [pow_succ]
  have hpos : 0 < 2 ^ k := Nat.two_pow_pos k
  omega

/-- The ring has taken out `done` items and holds `xs`, each in its cell; the marked cells are
those of `xs`. -/
structure RingHolds (k : Nat) (avail done : UInt32) (items : Nat → τ) (filled : Nat → Bool)
    (taken : Nat) (xs : List τ) : Prop where
  done_eq : done = UInt32.ofNat taken
  avail_eq : avail = UInt32.ofNat (taken + xs.length)
  fits : xs.length ≤ 2 ^ k
  items_eq : ∀ i x, xs[i]? = some x → items ((taken + i) % 2 ^ k) = x
  filled_iff : ∀ j, filled j = true ↔ ∃ i, i < xs.length ∧ j = (taken + i) % 2 ^ k

variable {avail done : UInt32} {items : Nat → τ} {filled : Nat → Bool} {taken : Nat} {xs : List τ}

theorem ringHolds_empty (items : Nat → τ) : RingHolds k 0 0 items (fun _ => false) 0 [] where
  done_eq := rfl
  avail_eq := rfl
  fits := Nat.zero_le _
  items_eq := by simp
  filled_iff := by simp

theorem RingHolds.fill (h : RingHolds k avail done items filled taken xs) (hk : k < 31) :
    (wrapFill (ringLen k) avail done).toNat = xs.length := by
  have hfits := h.fits
  rw [h.avail_eq, h.done_eq, wrapFill_ofNat hk (by omega) (by omega)]
  omega

theorem RingHolds.has_room (h : RingHolds k avail done items filled taken xs) (hk : k < 31) :
    wrapFill (ringLen k) avail done < ringLen k ↔ xs.length < 2 ^ k := by
  rw [UInt32.lt_iff_toNat_lt, h.fill hk, ringLen_toNat hk]

theorem RingHolds.has_item (h : RingHolds k avail done items filled taken xs) (hk : k < 31) :
    0 < wrapFill (ringLen k) avail done ↔ 0 < xs.length := by
  rw [UInt32.lt_iff_toNat_lt, h.fill hk]
  rfl

theorem RingHolds.insert_slot (h : RingHolds k avail done items filled taken xs) (hk : k < 31) :
    wrapSlot (ringLen k) avail = (taken + xs.length) % 2 ^ k := by
  rw [h.avail_eq, wrapSlot_ofNat hk]

theorem RingHolds.remove_slot (h : RingHolds k avail done items filled taken xs) (hk : k < 31) :
    wrapSlot (ringLen k) done = taken % 2 ^ k := by
  rw [h.done_eq, wrapSlot_ofNat hk]

theorem ringCell_inj {a i j : Nat} (hi : i < 2 ^ k) (hj : j < 2 ^ k)
    (h : (a + i) % 2 ^ k = (a + j) % 2 ^ k) : i = j := by
  have hmod : i ≡ j [MOD 2 ^ k] := Nat.ModEq.add_left_cancel' a h
  exact Nat.ModEq.eq_of_lt_of_lt hmod hi hj

theorem RingHolds.next_not_filled (h : RingHolds k avail done items filled taken xs)
    (hroom : xs.length < 2 ^ k) : filled ((taken + xs.length) % 2 ^ k) = false := by
  rw [Bool.eq_false_iff, ne_eq, h.filled_iff]
  rintro ⟨i, hi, hj⟩
  have hij := ringCell_inj hroom (by omega) hj
  omega

theorem RingHolds.first_filled (h : RingHolds k avail done items filled taken xs)
    (hitem : 0 < xs.length) : filled (taken % 2 ^ k) = true := by
  rw [h.filled_iff]
  exact ⟨0, hitem, rfl⟩

theorem RingHolds.first_item (h : RingHolds k avail done items filled taken xs) {x : τ}
    (hx : xs[0]? = some x) : items (taken % 2 ^ k) = x :=
  h.items_eq 0 x hx

theorem RingHolds.write (h : RingHolds k avail done items filled taken xs) {j : Nat}
    (hj : filled j = false) (y : τ) :
    RingHolds k avail done (Function.update items j y) filled taken xs where
  done_eq := h.done_eq
  avail_eq := h.avail_eq
  fits := h.fits
  items_eq := by
    intro i x hx
    have hi : i < xs.length := (List.getElem?_eq_some_iff.mp hx).1
    have hf : filled ((taken + i) % 2 ^ k) = true := (h.filled_iff _).mpr ⟨i, hi, rfl⟩
    have hne : (taken + i) % 2 ^ k ≠ j := by
      intro he
      rw [he, hj] at hf
      cases hf
    rw [Function.update_of_ne hne]
    exact h.items_eq i x hx
  filled_iff := h.filled_iff

theorem RingHolds.push (h : RingHolds k avail done items filled taken xs)
    (hroom : xs.length < 2 ^ k) {x : τ} (hx : items ((taken + xs.length) % 2 ^ k) = x) :
    RingHolds k (avail + 1) done items
      (Function.update filled ((taken + xs.length) % 2 ^ k) true) taken (xs ++ [x]) where
  done_eq := h.done_eq
  avail_eq := by
    rw [h.avail_eq, List.length_append, List.length_singleton, ← Nat.add_assoc]
    exact (UInt32.ofNat_add _ 1).symm
  fits := by
    rw [List.length_append, List.length_singleton]
    omega
  items_eq := by
    intro i y hy
    by_cases hi : i < xs.length
    · rw [List.getElem?_append_left hi] at hy
      exact h.items_eq i y hy
    · have hlen := (List.getElem?_eq_some_iff.mp hy).1
      rw [List.length_append, List.length_singleton] at hlen
      have hie : i = xs.length := by omega
      subst hie
      rw [List.getElem?_concat_length] at hy
      rw [hx]
      exact Option.some.inj hy
  filled_iff := by
    intro j
    rw [List.length_append, List.length_singleton]
    by_cases hj : j = (taken + xs.length) % 2 ^ k
    · subst hj
      rw [Function.update_self]
      exact ⟨fun _ => ⟨xs.length, by omega, rfl⟩, fun _ => rfl⟩
    · rw [Function.update_of_ne hj, h.filled_iff]
      constructor
      · rintro ⟨i, hi, hji⟩
        exact ⟨i, by omega, hji⟩
      · rintro ⟨i, hi, hji⟩
        have hne : i ≠ xs.length := by
          rintro rfl
          exact hj hji
        exact ⟨i, by omega, hji⟩

theorem RingHolds.pop {x : τ} (h : RingHolds k avail done items filled taken (x :: xs)) :
    RingHolds k avail (done + 1) items (Function.update filled (taken % 2 ^ k) false)
      (taken + 1) xs where
  done_eq := by
    rw [h.done_eq]
    exact (UInt32.ofNat_add _ 1).symm
  avail_eq := by
    rw [h.avail_eq, List.length_cons]
    congr 1
    omega
  fits := by
    have hfits := h.fits
    rw [List.length_cons] at hfits
    omega
  items_eq := by
    intro i y hy
    have hnext := h.items_eq (i + 1) y (by simpa using hy)
    rw [Nat.add_right_comm]
    exact hnext
  filled_iff := by
    intro j
    have hfits := h.fits
    rw [List.length_cons] at hfits
    by_cases hj : j = taken % 2 ^ k
    · subst hj
      rw [Function.update_self]
      refine ⟨fun hf => (Bool.false_ne_true hf).elim, ?_⟩
      rintro ⟨i, hi, hji⟩
      have hzero : (taken + 0) % 2 ^ k = (taken + (i + 1)) % 2 ^ k := by
        rw [Nat.add_zero, hji, Nat.add_right_comm, Nat.add_assoc]
      have := ringCell_inj (by omega) (by omega) hzero
      omega
    · rw [Function.update_of_ne hj, h.filled_iff, List.length_cons]
      constructor
      · rintro ⟨i, hi, hji⟩
        cases i with
        | zero => exact absurd hji hj
        | succ i => exact ⟨i, by omega, by rw [hji, Nat.add_right_comm, Nat.add_assoc]⟩
      · rintro ⟨i, hi, hji⟩
        exact ⟨i + 1, by omega, by rw [hji, Nat.add_right_comm, Nat.add_assoc]⟩

end WrapRing

end Ucesb
