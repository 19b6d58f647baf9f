import Mathlib.Tactic.Common
import Mathlib.Tactic.Ring

namespace Ucesb

/-- The difference, as `size_t`. -/
def sizeDiff (a b : Nat) : Nat := (((a : Int) - b) % 2 ^ 64).toNat

/-- The difference, as `ssize_t`. -/
def ssizeDiff (a b : Nat) : Int := ((a : Int) - b).bmod (2 ^ 64)

theorem sizeDiff_eq {a b : Nat} (h : b ≤ a) (hlt : a - b < 2 ^ 64) : sizeDiff a b = a - b := by
  unfold sizeDiff
  omega

theorem ssizeDiff_eq {a b : Nat} (hlo : b < a + 2 ^ 63) (hhi : a < b + 2 ^ 63) :
    ssizeDiff a b = (a : Int) - b := by
  unfold ssizeDiff
  rw [Int.bmod_eq_of_le]
  · omega
  · omega

end Ucesb
