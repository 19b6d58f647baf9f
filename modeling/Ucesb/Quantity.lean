import Mathlib.Algebra.BigOperators.Finsupp.Basic
import Mathlib.Algebra.Order.Field.Rat
import Mathlib.Data.Finsupp.Basic
import Mathlib.Tactic.FieldSimp
import Mathlib.Tactic.Linarith
import Mathlib.Tactic.Ring

namespace Ucesb

@[ext] structure Quantity (β : Type) where
  value : ℚ
  dim : β →₀ ℤ

namespace Quantity

variable {β : Type}

def neg (a : Quantity β) : Quantity β := ⟨-a.value, a.dim⟩

def add (a b : Quantity β) : Quantity β := ⟨a.value + b.value, a.dim⟩

def sub (a b : Quantity β) : Quantity β := a.add b.neg

noncomputable def mul (a b : Quantity β) : Quantity β := ⟨a.value * b.value, a.dim + b.dim⟩

noncomputable def div (a b : Quantity β) : Quantity β := ⟨a.value / b.value, a.dim - b.dim⟩

theorem add_eq_sub_iff {a b : Quantity β} : a.add b = a.sub b ↔ b.value = 0 := by
  simp only [sub, add, neg, Quantity.mk.injEq, and_true]
  constructor
  · intro h
    linarith
  · intro h
    rw [h, neg_zero]

end Quantity

section InUnit

variable {ν β : Type} (base : ν → β) (mag : ν → ℤ)

/-- The power of ten of a unit, which is given by the exponents of the names. -/
noncomputable def magnitude (u : ν →₀ ℤ) : ℤ := u.sum fun n e => mag n * e

@[simp] theorem magnitude_zero : magnitude mag 0 = 0 := Finsupp.sum_zero_index

@[simp] theorem magnitude_single (n : ν) (e : ℤ) :
    magnitude mag (Finsupp.single n e) = mag n * e :=
  Finsupp.sum_single_index (mul_zero _)

@[simp] theorem magnitude_add (u w : ν →₀ ℤ) :
    magnitude mag (u + w) = magnitude mag u + magnitude mag w := by
  classical
  exact Finsupp.sum_add_index' (fun _ => mul_zero _) fun n => mul_add (mag n)

@[simp] theorem magnitude_neg (u : ν →₀ ℤ) : magnitude mag (-u) = -magnitude mag u := by
  have h := magnitude_add mag u (-u)
  rw [add_neg_cancel, magnitude_zero] at h
  omega

@[simp] theorem magnitude_sub (u w : ν →₀ ℤ) :
    magnitude mag (u - w) = magnitude mag u - magnitude mag w := by
  rw [sub_eq_add_neg, magnitude_add, magnitude_neg]
  omega

noncomputable def baseUnit (u : ν →₀ ℤ) : β →₀ ℤ := u.mapDomain base

@[simp] theorem baseUnit_zero : baseUnit base 0 = 0 := Finsupp.mapDomain_zero

@[simp] theorem baseUnit_add (u w : ν →₀ ℤ) :
    baseUnit base (u + w) = baseUnit base u + baseUnit base w :=
  Finsupp.mapDomain_add

@[simp] theorem baseUnit_sub (u w : ν →₀ ℤ) :
    baseUnit base (u - w) = baseUnit base u - baseUnit base w := by
  have h := baseUnit_add base (u - w) w
  rw [sub_add_cancel] at h
  rw [h, add_sub_cancel_right]

/-- The quantity of a number in a unit. -/
noncomputable def inUnit (x : ℚ) (u : ν →₀ ℤ) : Quantity β :=
  ⟨x * 10 ^ magnitude mag u, baseUnit base u⟩

variable {base mag} {x y : ℚ} {u w : ν →₀ ℤ}

theorem inUnit_inj : inUnit base mag x u = inUnit base mag y u ↔ x = y := by
  simp only [inUnit, Quantity.mk.injEq, and_true]
  constructor
  · intro h
    exact mul_right_cancel₀ (zpow_ne_zero _ (by norm_num)) h
  · intro h
    rw [h]

theorem inUnit_value_eq_zero : (inUnit base mag x u).value = 0 ↔ x = 0 := by
  simp only [inUnit, mul_eq_zero]
  constructor
  · rintro (h | h)
    · exact h
    · exact absurd h (zpow_ne_zero _ (by norm_num))
  · exact .inl

theorem inUnit_neg : inUnit base mag (-x) u = (inUnit base mag x u).neg := by
  simp [inUnit, Quantity.neg]

theorem inUnit_mul :
    inUnit base mag (x * y) (u + w) = (inUnit base mag x u).mul (inUnit base mag y w) := by
  have hpow : (10 : ℚ) ^ (magnitude mag u + magnitude mag w) =
      10 ^ magnitude mag u * 10 ^ magnitude mag w := zpow_add₀ (by norm_num) _ _
  simp only [inUnit, Quantity.mul, magnitude_add, baseUnit_add, hpow, Quantity.mk.injEq, and_true]
  ring

theorem inUnit_div :
    inUnit base mag (x / y) (u - w) = (inUnit base mag x u).div (inUnit base mag y w) := by
  have hpow : (10 : ℚ) ^ (magnitude mag u - magnitude mag w) =
      10 ^ magnitude mag u / 10 ^ magnitude mag w := zpow_sub₀ (by norm_num) _ _
  simp only [inUnit, Quantity.div, magnitude_sub, baseUnit_sub, hpow, Quantity.mk.injEq, and_true]
  rw [div_mul_div_comm]

theorem inUnit_add :
    inUnit base mag (x + 10 ^ (magnitude mag w - magnitude mag u) * y) u =
      (inUnit base mag x u).add (inUnit base mag y w) := by
  have hpow : (10 : ℚ) ^ (magnitude mag w - magnitude mag u) =
      10 ^ magnitude mag w / 10 ^ magnitude mag u := zpow_sub₀ (by norm_num) _ _
  simp only [inUnit, Quantity.add, hpow, Quantity.mk.injEq, and_true]
  field_simp

end InUnit

end Ucesb
