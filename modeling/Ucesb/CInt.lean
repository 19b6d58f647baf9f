import Mathlib.Tactic.Ring
import Mathlib.Data.Int.Init

namespace Ucesb

structure CInt where
  signed : Bool
  bits : BitVec 32
deriving DecidableEq

namespace CInt

def value (x : CInt) : Int := if x.signed then x.bits.toInt else x.bits.toNat

def InRange (x : Int) : Prop := -2 ^ 31 ≤ x ∧ x < 2 ^ 31

instance decidableInRange (x : Int) : Decidable (InRange x) :=
  inferInstanceAs (Decidable (_ ∧ _))

/-- The result of an operation on `int`s. -/
def ofInt (x : Int) : Option CInt := if InRange x then some ⟨true, BitVec.ofInt 32 x⟩ else none

def literal (v : BitVec 32) : CInt := ⟨decide (v.toNat < 2 ^ 31), v⟩

def toUnsigned (x : CInt) : CInt := ⟨false, x.bits⟩

def ofBool (b : Bool) : CInt := ⟨true, if b then 1 else 0⟩

def isTrue (x : CInt) : Bool := x.bits != 0

def bothSigned (l r : CInt) : Bool := l.signed && r.signed

def neg (x : CInt) : Option CInt :=
  if x.signed then ofInt (-x.bits.toInt) else some ⟨false, -x.bits⟩

def not (x : CInt) : CInt := ⟨x.signed, ~~~x.bits⟩

/-- The operands are converted to `unsigned int` unless both are `int`. -/
def arith (f : Int → Int → Int) (g : BitVec 32 → BitVec 32 → BitVec 32) (l r : CInt) :
    Option CInt :=
  if bothSigned l r then ofInt (f l.bits.toInt r.bits.toInt) else some ⟨false, g l.bits r.bits⟩

def div (l r : CInt) : Option CInt :=
  if r.bits = 0 then none else arith Int.tdiv (· / ·) l r

def rem (l r : CInt) : Option CInt :=
  if r.bits = 0 ∨ (bothSigned l r = true ∧ ¬ InRange (l.bits.toInt.tdiv r.bits.toInt)) then none
  else arith Int.tmod (· % ·) l r

def bitwise (g : BitVec 32 → BitVec 32 → BitVec 32) (l r : CInt) : CInt :=
  ⟨bothSigned l r, g l.bits r.bits⟩

def shl (l r : CInt) : Option CInt :=
  if 0 ≤ r.value ∧ r.value < 32 then some ⟨l.signed, l.bits <<< r.value.toNat⟩ else none

def shr (l r : CInt) : Option CInt :=
  if 0 ≤ r.value ∧ r.value < 32 then
    some ⟨l.signed, if l.signed then l.bits.sshiftRight r.value.toNat
      else l.bits >>> r.value.toNat⟩
  else none

/-- `<` and `<=`, of the values after the conversion. -/
def compare (f : Int → Int → Bool) (l r : CInt) : CInt :=
  ofBool (if bothSigned l r then f l.bits.toInt r.bits.toInt else f l.bits.toNat r.bits.toNat)

def equal (l r : CInt) : CInt := ofBool (l.bits == r.bits)

section Negative

variable {v : BitVec 32}

theorem toInt_cases (v : BitVec 32) :
    (v.toNat < 2 ^ 31 ∧ v.toInt = v.toNat) ∨
      (2 ^ 31 ≤ v.toNat ∧ v.toNat < 2 ^ 32 ∧ v.toInt = (v.toNat : Int) - 2 ^ 32) := by
  have hlt := v.isLt
  rw [BitVec.toInt_eq_toNat_cond]
  split
  · left
    omega
  · right
    omega

theorem ofInt_bits_eq (x : Int) (v : BitVec 32) :
    BitVec.ofInt 32 x = v ↔ x % 2 ^ 32 = v.toNat := by
  rw [← BitVec.toNat_inj, BitVec.toNat_ofInt]
  have hlt := v.isLt
  omega

theorem ofInt_yields (x : Int) (v : BitVec 32) :
    (ofInt x).map bits = some v ↔ InRange x ∧ x % 2 ^ 32 = v.toNat := by
  unfold ofInt
  split
  · next h =>
    rw [Option.map_some, Option.some.injEq, ofInt_bits_eq]
    simp [h]
  · next h => simp [h]

theorem toInt_split (v : BitVec 32) :
    (∃ n : Nat, v.toNat = n ∧ v.toInt = n ∧ n < 2 ^ 31) ∨
      ∃ n : Nat, v.toNat + n = 2 ^ 32 ∧ v.toInt = -n ∧ 0 < n ∧ n ≤ 2 ^ 31 := by
  rcases toInt_cases v with ⟨hlt, heq⟩ | ⟨hge, hlt, heq⟩
  · exact .inl ⟨v.toNat, rfl, heq, hlt⟩
  · refine .inr ⟨2 ^ 32 - v.toNat, ?_, ?_, ?_, ?_⟩
    · omega
    · omega
    · omega
    · omega

end Negative

/-- The quotient of two `int`s has the bits of the unsigned quotient. -/
def DivAgrees (l r : Int) : Prop :=
  (0 ≤ l ∧ 0 ≤ r) ∨ l = r ∨ r = 1 ∨ (0 ≤ l ∧ l < -r)

def RemAgrees (l r : Int) : Prop :=
  (0 ≤ l ∧ 0 ≤ r) ∨ l = r ∨ (0 < r ∧ r ∣ l ∧ r ∣ 2 ^ 32) ∨ (0 ≤ l ∧ l < -r)

section Division

variable {a b p q : Nat}

theorem tdiv_nonneg_neg (ha : a < 2 ^ 31) (hq : 0 < q) :
    (InRange ((a : Int).tdiv (-(q : Int))) ∧ (a : Int).tdiv (-(q : Int)) % 2 ^ 32 = 0) ↔ a < q := by
  rw [Int.tdiv_neg, ← Int.ofNat_tdiv]
  have hle : a / q ≤ a := Nat.div_le_self a q
  constructor
  · rintro ⟨-, hmod⟩
    apply (Nat.div_eq_zero_iff_lt hq).mp
    generalize a / q = k at *
    omega
  · intro hlt
    rw [Nat.div_eq_of_lt hlt]
    decide

theorem tdiv_neg_nonneg (hp : 0 < p) (hple : p ≤ 2 ^ 31) (hb : 0 < b) (hblt : b < 2 ^ 31) :
    (InRange ((-(p : Int)).tdiv b) ∧
      (-(p : Int)).tdiv b % 2 ^ 32 = ((2 ^ 32 - p) / b : Nat)) ↔ b = 1 := by
  rw [Int.neg_tdiv, ← Int.ofNat_tdiv]
  constructor
  · rintro ⟨-, hmod⟩
    by_contra hne
    -- the unsigned quotient is small and not zero, the signed one is zero or large
    have hsmall : (2 ^ 32 - p) / b ≤ (2 ^ 32 - p) / 2 := Nat.div_le_div_left (by omega) (by omega)
    have hpos : 0 < (2 ^ 32 - p) / b := Nat.div_pos (by omega) hb
    have hquot : p / b ≤ p / 2 := Nat.div_le_div_left (by omega) (by omega)
    generalize p / b = k at *
    generalize (2 ^ 32 - p) / b = m at *
    omega
  · rintro rfl
    rw [Nat.div_one, Nat.div_one]
    unfold InRange
    omega

theorem tdiv_neg_neg (hp : 0 < p) (hple : p ≤ 2 ^ 31) (hq : 0 < q) (hqle : q ≤ 2 ^ 31) :
    (InRange ((-(p : Int)).tdiv (-(q : Int))) ∧
      (-(p : Int)).tdiv (-(q : Int)) % 2 ^ 32 = ((2 ^ 32 - p) / (2 ^ 32 - q) : Nat)) ↔ p = q := by
  rw [Int.neg_tdiv_neg, ← Int.ofNat_tdiv]
  have hle : p / q ≤ p := Nat.div_le_self p q
  have hone : (2 ^ 32 - p) / (2 ^ 32 - q) < 2 := Nat.div_lt_of_lt_mul (by omega)
  rcases Nat.lt_trichotomy p q with hlt | rfl | hgt
  · have hzero : p / q = 0 := Nat.div_eq_of_lt hlt
    have hpos : 0 < (2 ^ 32 - p) / (2 ^ 32 - q) := Nat.div_pos (by omega) (by omega)
    omega
  · have h1 : p / p = 1 := Nat.div_self hp
    have h2 : (2 ^ 32 - p) / (2 ^ 32 - p) = 1 := Nat.div_self (by omega)
    rw [h1, h2]
    simp [InRange]
  · have hpos : 0 < p / q := Nat.div_pos (by omega) hq
    have hzero : (2 ^ 32 - p) / (2 ^ 32 - q) = 0 := Nat.div_eq_of_lt (by omega)
    omega

theorem tdiv_agrees {l r : BitVec 32} (hr : r ≠ 0) :
    (InRange (l.toInt.tdiv r.toInt) ∧ l.toInt.tdiv r.toInt % 2 ^ 32 = (l / r).toNat) ↔
      DivAgrees l.toInt r.toInt := by
  have hr0 : r.toNat ≠ 0 := by
    intro h0
    exact hr (BitVec.eq_of_toNat_eq (by simpa using h0))
  unfold DivAgrees
  rw [BitVec.toNat_udiv]
  obtain ⟨a, hla, hl, ha⟩ | ⟨p, hlp, hl, hp, hple⟩ := toInt_split l
  · obtain ⟨b, hrb, hrv, hb⟩ | ⟨q, hrq, hrv, hq, hqle⟩ := toInt_split r
    · rw [hl, hrv, hla, hrb, ← Int.ofNat_tdiv]
      have hle : a / b ≤ a := Nat.div_le_self a b
      refine iff_of_true ?_ (.inl ⟨by omega, by omega⟩)
      generalize a / b = k at *
      refine ⟨?_, ?_⟩
      · unfold InRange
        omega
      · omega
    · have hzero : l.toNat / r.toNat = 0 := Nat.div_eq_of_lt (by omega)
      rw [hl, hrv, hzero, Nat.cast_zero, tdiv_nonneg_neg ha hq]
      omega
  · have hlv : l.toNat = 2 ^ 32 - p := by
      omega
    obtain ⟨b, hrb, hrv, hb⟩ | ⟨q, hrq, hrv, hq, hqle⟩ := toInt_split r
    · rw [hl, hrv, hlv, hrb, tdiv_neg_nonneg hp hple (by omega) hb]
      omega
    · have hrv' : r.toNat = 2 ^ 32 - q := by
        omega
      rw [hl, hrv, hlv, hrv', tdiv_neg_neg hp hple hq hqle]
      omega

theorem tmod_nonneg_neg (ha : a < 2 ^ 31) (hq : 0 < q) :
    (InRange ((a : Int).tdiv (-(q : Int))) ∧ InRange ((a : Int).tmod (-(q : Int))) ∧
      (a : Int).tmod (-(q : Int)) % 2 ^ 32 = a) ↔ a < q := by
  rw [Int.tdiv_neg, Int.tmod_neg, ← Int.ofNat_tdiv, ← Int.ofNat_tmod]
  have hle : a / q ≤ a := Nat.div_le_self a q
  have hmle : a % q ≤ a := Nat.mod_le a q
  have hmlt : a % q < q := Nat.mod_lt a hq
  constructor
  · rintro ⟨-, -, hmod⟩
    generalize a % q = m at *
    omega
  · intro hlt
    rw [Nat.mod_eq_of_lt hlt]
    unfold InRange
    generalize a / q = k at *
    omega

theorem tmod_neg_nonneg (hp : 0 < p) (hple : p ≤ 2 ^ 31) (hb : 0 < b) (hblt : b < 2 ^ 31) :
    (InRange ((-(p : Int)).tdiv b) ∧ InRange ((-(p : Int)).tmod b) ∧
      (-(p : Int)).tmod b % 2 ^ 32 = ((2 ^ 32 - p) % b : Nat)) ↔ b ∣ p ∧ b ∣ 2 ^ 32 := by
  rw [Int.neg_tdiv, Int.neg_tmod, ← Int.ofNat_tdiv, ← Int.ofNat_tmod]
  have hle : p / b ≤ p := Nat.div_le_self p b
  have hmlt : p % b < b := Nat.mod_lt p hb
  have hult : (2 ^ 32 - p) % b < b := Nat.mod_lt _ hb
  have hsum : 2 ^ 32 - p + p = 2 ^ 32 := by
    omega
  constructor
  · rintro ⟨-, -, hmod⟩
    -- a remainder that is not zero is negative, and the unsigned one is below the divisor
    have hzero : p % b = 0 ∧ (2 ^ 32 - p) % b = 0 := by
      generalize p % b = m at *
      generalize (2 ^ 32 - p) % b = u at *
      omega
    have hdvd : b ∣ p := Nat.dvd_of_mod_eq_zero hzero.1
    refine ⟨hdvd, ?_⟩
    rw [← hsum]
    exact Nat.dvd_add (Nat.dvd_of_mod_eq_zero hzero.2) hdvd
  · rintro ⟨hdvd, hdvd'⟩
    have hm : p % b = 0 := Nat.mod_eq_zero_of_dvd hdvd
    have hu : (2 ^ 32 - p) % b = 0 := Nat.mod_eq_zero_of_dvd (Nat.dvd_sub hdvd' hdvd)
    rw [hm, hu]
    unfold InRange
    generalize p / b = k at *
    omega

theorem tmod_neg_neg (hp : 0 < p) (hple : p ≤ 2 ^ 31) (hq : 0 < q) (hqle : q ≤ 2 ^ 31) :
    (InRange ((-(p : Int)).tdiv (-(q : Int))) ∧ InRange ((-(p : Int)).tmod (-(q : Int))) ∧
      (-(p : Int)).tmod (-(q : Int)) % 2 ^ 32 = ((2 ^ 32 - p) % (2 ^ 32 - q) : Nat)) ↔ p = q := by
  rw [Int.neg_tdiv_neg, Int.tmod_neg, Int.neg_tmod, ← Int.ofNat_tdiv, ← Int.ofNat_tmod]
  have hmlt : p % q < q := Nat.mod_lt p hq
  rcases Nat.lt_trichotomy p q with hlt | rfl | hgt
  · have hm : p % q = p := Nat.mod_eq_of_lt hlt
    have hu : (2 ^ 32 - p) % (2 ^ 32 - q) = q - p := by
      rw [Nat.mod_eq_sub_mod (by omega), Nat.mod_eq_of_lt (by omega)]
      omega
    rw [hm, hu]
    omega
  · have h1 : p / p = 1 := Nat.div_self hp
    rw [h1, Nat.mod_self, Nat.mod_self]
    simp [InRange]
  · have hu : (2 ^ 32 - p) % (2 ^ 32 - q) = 2 ^ 32 - p := Nat.mod_eq_of_lt (by omega)
    rw [hu]
    generalize p % q = m at *
    omega

theorem tmod_agrees {l r : BitVec 32} (hr : r ≠ 0) :
    (InRange (l.toInt.tdiv r.toInt) ∧ InRange (l.toInt.tmod r.toInt) ∧
      l.toInt.tmod r.toInt % 2 ^ 32 = (l % r).toNat) ↔ RemAgrees l.toInt r.toInt := by
  have hr0 : r.toNat ≠ 0 := by
    intro h0
    exact hr (BitVec.eq_of_toNat_eq (by simpa using h0))
  unfold RemAgrees
  rw [BitVec.toNat_umod]
  obtain ⟨a, hla, hl, ha⟩ | ⟨p, hlp, hl, hp, hple⟩ := toInt_split l
  · obtain ⟨b, hrb, hrv, hb⟩ | ⟨q, hrq, hrv, hq, hqle⟩ := toInt_split r
    · rw [hl, hrv, hla, hrb, ← Int.ofNat_tdiv, ← Int.ofNat_tmod]
      have hle : a / b ≤ a := Nat.div_le_self a b
      have hmle : a % b ≤ a := Nat.mod_le a b
      refine iff_of_true ?_ (.inl ⟨by omega, by omega⟩)
      unfold InRange
      generalize a / b = k at *
      generalize a % b = m at *
      omega
    · have hsmall : l.toNat % r.toNat = a := by
        rw [hla]
        exact Nat.mod_eq_of_lt (by omega)
      rw [hl, hrv, hsmall, tmod_nonneg_neg ha hq]
      omega
  · have hlv : l.toNat = 2 ^ 32 - p := by
      omega
    obtain ⟨b, hrb, hrv, hb⟩ | ⟨q, hrq, hrv, hq, hqle⟩ := toInt_split r
    · rw [hl, hrv, hlv, hrb, tmod_neg_nonneg hp hple (by omega) hb]
      have hdvd : (b : Int) ∣ -(p : Int) ↔ b ∣ p := by
        rw [Int.dvd_neg, Int.natCast_dvd_natCast]
      have hdvd' : (b : Int) ∣ 2 ^ 32 ↔ b ∣ 2 ^ 32 := by
        exact_mod_cast Int.natCast_dvd_natCast (m := b) (n := 2 ^ 32)
      rw [hdvd, hdvd']
      constructor
      · intro h
        exact .inr (.inr (.inl ⟨by omega, h⟩))
      · rintro (h | h | h | h)
        · omega
        · omega
        · exact h.2
        · omega
    · have hrv' : r.toNat = 2 ^ 32 - q := by
        omega
      rw [hl, hrv, hlv, hrv', tmod_neg_neg hp hple hq hqle]
      omega

end Division

/-- A condition on the operands where both are `int`s. -/
def IfSigned (P : Int → Int → Prop) (l r : CInt) : Prop :=
  bothSigned l r = true → P l.bits.toInt r.bits.toInt

section Yields

variable {l r x : CInt}

theorem neg_yields : x.neg.map bits = some (-x.bits) ↔
    (x.signed = true → InRange (-x.bits.toInt)) := by
  unfold neg
  split
  · next h =>
    rw [ofInt_yields, ← ofInt_bits_eq, BitVec.ofInt_neg, BitVec.ofInt_toInt]
    simp [h]
  · next h => simp [h]

theorem arith_yields {f : Int → Int → Int} {g : BitVec 32 → BitVec 32 → BitVec 32} :
    (arith f g l r).map bits = some (g l.bits r.bits) ↔
      IfSigned (fun _ _ => InRange (f l.bits.toInt r.bits.toInt) ∧
        f l.bits.toInt r.bits.toInt % 2 ^ 32 = (g l.bits r.bits).toNat) l r := by
  unfold arith IfSigned
  split
  · next h =>
    rw [ofInt_yields]
    simp [h]
  · next h => simp [h]

theorem arith_yields_range {f : Int → Int → Int} {g : BitVec 32 → BitVec 32 → BitVec 32}
    (h : ∀ a b : BitVec 32, BitVec.ofInt 32 (f a.toInt b.toInt) = g a b) :
    (arith f g l r).map bits = some (g l.bits r.bits) ↔
      IfSigned (fun a b => InRange (f a b)) l r := by
  rw [arith_yields]
  unfold IfSigned
  rw [← ofInt_bits_eq, h]
  simp

theorem div_yields (hr : r.bits ≠ 0) :
    (div l r).map bits = some (l.bits / r.bits) ↔ IfSigned DivAgrees l r := by
  unfold div
  rw [if_neg hr, arith_yields]
  unfold IfSigned
  rw [tdiv_agrees hr]

theorem rem_yields (hr : r.bits ≠ 0) :
    (rem l r).map bits = some (l.bits % r.bits) ↔ IfSigned RemAgrees l r := by
  unfold rem IfSigned
  rw [← tmod_agrees hr]
  by_cases hs : bothSigned l r = true
  · by_cases hq : InRange (l.bits.toInt.tdiv r.bits.toInt)
    · rw [if_neg (fun h => h.elim hr fun k => k.2 hq), arith_yields]
      simp [IfSigned, hs, hq]
    · rw [if_pos (by simp [hs, hq])]
      simp [hs, hq]
  · rw [if_neg (fun h => h.elim hr fun k => hs k.1), arith_yields]
    simp [IfSigned, hs]

theorem value_of_small (h : r.bits.toNat < 32) : r.value = r.bits.toNat := by
  unfold value
  rcases toInt_cases r.bits with ⟨-, heq⟩ | ⟨hge, -⟩
  · split
    · exact heq
    · rfl
  · omega

theorem shl_yields (h : r.bits.toNat < 32) :
    (shl l r).map bits = some (l.bits <<< r.bits.toNat) := by
  unfold shl
  rw [value_of_small h, if_pos (by omega)]
  rfl

theorem sshiftRight_agrees (a : BitVec 32) {n : Nat} (hn : n < 32) :
    a.sshiftRight n = a >>> n ↔ 0 ≤ a.toInt ∨ n = 0 := by
  rw [← BitVec.toInt_inj, BitVec.toInt_sshiftRight, Int.shiftRight_eq_div_pow]
  have hpow : (0 : Int) < (2 ^ n : Nat) := Int.natCast_pos.mpr (Nat.two_pow_pos n)
  rcases toInt_cases a with ⟨hlt, heq⟩ | ⟨hge, hlt, heq⟩
  · refine iff_of_true ?_ (.inl (by omega))
    have hle : a.toNat / 2 ^ n ≤ a.toNat := Nat.div_le_self _ _
    have hnat : (a >>> n).toNat = a.toNat / 2 ^ n := by
      rw [BitVec.toNat_ushiftRight, Nat.shiftRight_eq_div_pow]
    rcases toInt_cases (a >>> n) with ⟨-, heq'⟩ | ⟨hge', -⟩
    · rw [heq, heq', hnat]
      norm_cast
    · omega
  · by_cases hzero : n = 0
    · subst hzero
      simp
    · refine iff_of_false ?_ (by omega)
      intro hsame
      have hneg : a.toInt / (2 ^ n : Nat) < 0 := Int.ediv_neg_of_neg_of_pos (by omega) hpow
      have hnat : (a >>> n).toNat = a.toNat / 2 ^ n := by
        rw [BitVec.toNat_ushiftRight, Nat.shiftRight_eq_div_pow]
      have hhalf : a.toNat / 2 ^ n ≤ a.toNat / 2 ^ 1 :=
        Nat.div_le_div_left (Nat.pow_le_pow_right (by decide) (by omega)) (by decide)
      rcases toInt_cases (a >>> n) with ⟨-, heq'⟩ | ⟨hge', -⟩
      · omega
      · omega

theorem shr_yields (h : r.bits.toNat < 32) :
    (shr l r).map bits = some (l.bits >>> r.bits.toNat) ↔
      (l.signed = true → 0 ≤ l.bits.toInt ∨ r.bits.toNat = 0) := by
  unfold shr
  rw [value_of_small h, if_pos (by omega), Option.map_some, Option.some.injEq, Int.toNat_natCast]
  cases hs : l.signed with
  | true => simpa using sshiftRight_agrees l.bits h
  | false => simp

def SameSign (a b : Int) : Prop := 0 ≤ a ↔ 0 ≤ b

theorem lt_agrees (a b : BitVec 32) :
    decide (a.toInt < b.toInt) = decide (a.toNat < b.toNat) ↔ SameSign a.toInt b.toInt := by
  unfold SameSign
  rw [decide_eq_decide]
  rcases toInt_cases a with ⟨ha', ha⟩ | ⟨ha', -, ha⟩
  · rcases toInt_cases b with ⟨hb', hb⟩ | ⟨hb', -, hb⟩
    · omega
    · omega
  · rcases toInt_cases b with ⟨hb', hb⟩ | ⟨hb', -, hb⟩
    · omega
    · omega

theorem le_agrees (a b : BitVec 32) :
    decide (a.toInt ≤ b.toInt) = decide (a.toNat ≤ b.toNat) ↔ SameSign a.toInt b.toInt := by
  unfold SameSign
  rw [decide_eq_decide]
  rcases toInt_cases a with ⟨ha', ha⟩ | ⟨ha', -, ha⟩
  · rcases toInt_cases b with ⟨hb', hb⟩ | ⟨hb', -, hb⟩
    · omega
    · omega
  · rcases toInt_cases b with ⟨hb', hb⟩ | ⟨hb', -, hb⟩
    · omega
    · omega

theorem ofBool_bits_inj (b c : Bool) : (ofBool b).bits = (ofBool c).bits ↔ b = c := by
  cases b <;> cases c <;> decide

end Yields

end CInt

end Ucesb
