import Mathlib.Tactic.Common
import Mathlib.Tactic.Ring

namespace Ucesb

section NativeWords

variable {mem : Nat → UInt8}

def loadN (mem : Nat → UInt8) (a : Nat) : Nat → Nat
  | 0 => 0
  | n + 1 => (mem a).toNat + 256 * loadN mem (a + 1) n

def storeN (mem : Nat → UInt8) (a n value : Nat) : Nat → UInt8 :=
  fun b => if a ≤ b ∧ b < a + n then UInt8.ofNat (value / 256 ^ (b - a)) else mem b

theorem loadN_lt (mem : Nat → UInt8) (a n : Nat) : loadN mem a n < 256 ^ n := by
  induction n generalizing a with
  | zero => exact Nat.zero_lt_one
  | succ n ih =>
    have hbyte := (mem a).toNat_lt
    have hrest := ih (a + 1)
    rw [loadN, Nat.pow_succ]
    omega

theorem loadN_congr {mem mem' : Nat → UInt8} {a n : Nat}
    (h : ∀ b, a ≤ b → b < a + n → mem' b = mem b) : loadN mem' a n = loadN mem a n := by
  induction n generalizing a with
  | zero => rfl
  | succ n ih =>
    rw [loadN, loadN, h a (Nat.le_refl _) (by omega), ih]
    intro b hlo hhi
    exact h b (by omega) (by omega)

theorem loadN_eq_of_bytes {value : Nat} {a n : Nat}
    (h : ∀ i, i < n → mem (a + i) = UInt8.ofNat (value / 256 ^ i)) :
    loadN mem a n = value % 256 ^ n := by
  induction n generalizing a value with
  | zero => rw [loadN, Nat.pow_zero, Nat.mod_one]
  | succ n ih =>
    have hfirst := h 0 (by omega)
    rw [Nat.add_zero, Nat.pow_zero, Nat.div_one] at hfirst
    have hrest : loadN mem (a + 1) n = value / 256 % 256 ^ n := by
      apply ih
      intro i hi
      have hbyte := h (i + 1) (by omega)
      rw [Nat.pow_succ, Nat.mul_comm (256 ^ i), ← Nat.div_div_eq_div_mul] at hbyte
      rw [← hbyte]
      congr 1
      omega
    have hpow : 256 ^ (n + 1) = 256 * 256 ^ n := by rw [Nat.pow_succ, Nat.mul_comm]
    rw [loadN, hfirst, hrest, UInt8.toNat_ofNat', hpow, Nat.mod_mul]

theorem loadN_storeN (mem : Nat → UInt8) (a n value : Nat) :
    loadN (storeN mem a n value) a n = value % 256 ^ n := by
  apply loadN_eq_of_bytes
  intro i hi
  unfold storeN
  rw [if_pos (by omega), Nat.add_sub_cancel_left]

def Apart (a n b m : Nat) : Prop := a + n ≤ b ∨ b + m ≤ a

theorem loadN_storeN_apart {a n b m value : Nat} (h : Apart a n b m) :
    loadN (storeN mem b m value) a n = loadN mem a n := by
  apply loadN_congr
  intro c hlo hhi
  unfold storeN
  rw [if_neg]
  unfold Apart at h
  omega

structure MemUpdate where
  addr : Nat
  len : Nat
  f : Nat → Nat

def MemUpdate.apply (mem : Nat → UInt8) (u : MemUpdate) : Nat → UInt8 :=
  storeN mem u.addr u.len (u.f (loadN mem u.addr u.len))

def runUpdates (mem : Nat → UInt8) (us : List MemUpdate) : Nat → UInt8 :=
  us.foldl MemUpdate.apply mem

theorem runUpdates_apart (mem : Nat → UInt8) {us : List MemUpdate} {a n : Nat}
    (h : ∀ u ∈ us, Apart a n u.addr u.len) : loadN (runUpdates mem us) a n = loadN mem a n := by
  induction us generalizing mem with
  | nil => rfl
  | cons u us ih =>
    have hrest := ih (u.apply mem) fun v hv => h v (List.mem_cons_of_mem _ hv)
    rw [runUpdates, List.foldl_cons]
    exact hrest.trans (loadN_storeN_apart (h u List.mem_cons_self))

theorem runUpdates_value (mem : Nat → UInt8) {us : List MemUpdate} {a n value : Nat}
    (hsome : ∃ u ∈ us, u.addr = a ∧ u.len = n)
    (h : ∀ u ∈ us, Apart a n u.addr u.len ∨ u = ⟨a, n, fun _ => value⟩) (hn : 0 < n) :
    loadN (runUpdates mem us) a n = value % 256 ^ n := by
  induction us generalizing mem with
  | nil =>
    obtain ⟨u, hu, -⟩ := hsome
    cases hu
  | cons u us ih =>
    have hus : ∀ v ∈ us, Apart a n v.addr v.len ∨ v = ⟨a, n, fun _ => value⟩ :=
      fun v hv => h v (List.mem_cons_of_mem _ hv)
    rw [runUpdates, List.foldl_cons]
    by_cases hlater : ∃ v ∈ us, v.addr = a ∧ v.len = n
    · exact ih (u.apply mem) hlater hus
    · have hrest : ∀ v ∈ us, Apart a n v.addr v.len := by
        intro v hv
        rcases hus v hv with hapart | rfl
        · exact hapart
        · exact absurd ⟨_, hv, rfl, rfl⟩ hlater
      refine (runUpdates_apart _ hrest).trans ?_
      obtain ⟨w, hw, haddr, hlen⟩ := hsome
      have hhere : w = u := by
        rcases List.mem_cons.mp hw with rfl | hw
        · rfl
        · exact absurd ⟨w, hw, haddr, hlen⟩ hlater
      subst hhere
      rcases h w List.mem_cons_self with hapart | rfl
      · unfold Apart at hapart
        omega
      · exact loadN_storeN mem a n value

theorem runUpdates_or (mem : Nat → UInt8) (us : List MemUpdate) {a n j : Nat}
    (h : ∀ u ∈ us, Apart a n u.addr u.len ∨ ∃ m, u = ⟨a, n, fun old => old ||| m⟩)
    (hj : j < 8 * n) :
    (loadN (runUpdates mem us) a n).testBit j = true ↔
      (loadN mem a n).testBit j = true ∨
        ∃ u ∈ us, u.addr = a ∧ u.len = n ∧ (u.f 0).testBit j = true := by
  induction us generalizing mem with
  | nil => simp [runUpdates]
  | cons u us ih =>
    have hrest := ih (u.apply mem) fun v hv => h v (List.mem_cons_of_mem _ hv)
    rw [runUpdates, List.foldl_cons]
    refine hrest.trans ?_
    simp only [List.mem_cons, or_and_right, exists_or, exists_eq_left]
    rw [← or_assoc]
    refine or_congr ?_ Iff.rfl
    rcases h u List.mem_cons_self with hapart | ⟨m, rfl⟩
    · rw [MemUpdate.apply, loadN_storeN_apart hapart]
      constructor
      · exact .inl
      · rintro (hold | ⟨rfl, rfl, -⟩)
        · exact hold
        · unfold Apart at hapart
          omega
    · have hpow : 256 ^ n = 2 ^ (8 * n) := by rw [Nat.pow_mul]
      rw [MemUpdate.apply, loadN_storeN, hpow, Nat.testBit_mod_two_pow, Nat.testBit_or]
      simp [hj]

end NativeWords

end Ucesb
