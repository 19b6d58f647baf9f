import Ucesb.OptMatchBits

namespace Ucesb

def SameBit (min max j : Nat) : Prop :=
  ∀ v v', min ≤ v → v ≤ max → min ≤ v' → v' ≤ max → v.testBit j = v'.testBit j

theorem SameBit.div_eq {min max j : Nat} (hle : min ≤ max) (h : SameBit min max j) :
    min / 2 ^ j = max / 2 ^ j := by
  have hdiv := Nat.div_le_div_right (c := 2 ^ j) hle
  rcases Nat.eq_or_lt_of_le hdiv with heq | hlt
  · exact heq
  · have hpos : 0 < 2 ^ j := Nat.two_pow_pos j
    have hnext : (min / 2 ^ j + 1) * 2 ^ j ≤ max := by
      calc
        (min / 2 ^ j + 1) * 2 ^ j ≤ max / 2 ^ j * 2 ^ j := Nat.mul_le_mul_right _ hlt
        _ ≤ max := Nat.div_mul_le_self ..
    have hmin : min ≤ (min / 2 ^ j + 1) * 2 ^ j := by
      have := Nat.lt_div_mul_add hpos (a := min)
      rw [Nat.add_mul, Nat.one_mul]
      exact this.le
    have hbit := h _ _ le_rfl hle hmin hnext
    have hquot : (min / 2 ^ j + 1) * 2 ^ j / 2 ^ j = min / 2 ^ j + 1 := Nat.mul_div_cancel _ hpos
    rw [Nat.testBit_eq_decide_div_mod_eq, Nat.testBit_eq_decide_div_mod_eq, hquot,
      decide_eq_decide] at hbit
    omega

theorem nonFixed_iff {min max j : Nat} (hmax : max < 2 ^ 32) (hle : min ≤ max) :
    (nonFixed 32 (max ^^^ min)).testBit j = false ↔ SameBit min max j := by
  constructor
  · intro h v v' hv hv1 hv' hv1'
    rw [range_fixed hmax hv hv1 h, range_fixed hmax hv' hv1' h]
  · intro h
    rw [Bool.eq_false_iff]
    intro hbit
    obtain ⟨k, -, hk⟩ := (nonFixed_testBit 32 _ j).mp hbit
    have hdiv := congrArg (Nat.testBit · k) (h.div_eq hle)
    simp only [Nat.testBit_div_two_pow] at hdiv
    rw [Nat.testBit_xor, Nat.add_comm j k, hdiv, Bool.xor_self] at hk
    cases hk

theorem unnamedBits_field {bits : List BitsSpec} {b : BitsSpec} {size : WordSize} {i : Nat}
    (hb : b ∈ bits) (hmin : b.min ≤ i) (hmax : i ≤ b.max) (hi : i < 32) :
    (unnamedBits 32 size bits).testBit i = false := by
  rw [unnamedBits, foldl_and_testBit, Bool.and_eq_false_iff]
  refine .inr (List.all_eq_false.mpr ⟨b, hb, ?_⟩)
  have h1 : i < b.max + 1 := by omega
  have h2 : ¬i < b.min := by omega
  simp [Nat.testBit_xor, numBitsMask_testBit, hi, h1, h2]

theorem getMatch_outside {args : List (String × Variable)} {b : BitsSpec} {i : Nat}
    (h : i < b.min ∨ b.max < i) :
    (b.getMatch args).1.testBit i = false ∧ (b.getMatch args).2.testBit i = false := by
  unfold BitsSpec.getMatch
  cases b.cond with
  | none => simp
  | some c =>
    have hno : ∀ x, (b.place x).testBit i = false := by
      intro x
      rw [place_testBit]
      rcases h with h | h
      · simp [Nat.not_le.mpr h]
      · simp [Nat.not_le.mpr h]
    exact ⟨hno _, hno _⟩

theorem getMatchBits_field {args : List (String × Variable)} {d : StructData}
    {bits : List BitsSpec} {b : BitsSpec} {mask value i : Nat} (hd : d.bits = some bits)
    (hb : b ∈ bits) (hapart : ∀ c ∈ bits, c ≠ b → c.max < b.min ∨ b.max < c.min)
    (h : d.getMatchBits args = some (mask, value)) (hmin : b.min ≤ i) (hmax : i ≤ b.max)
    (hi : i < 32) :
    mask.testBit i = (b.getMatch args).1.testBit i ∧
      value.testBit i = (b.getMatch args).2.testBit i := by
  have hother : ∀ c ∈ bits, c ≠ b → (c.getMatch args).1.testBit i = false ∧
      (c.getMatch args).2.testBit i = false := by
    intro c hc hne
    refine getMatch_outside ?_
    have := hapart c hc hne
    omega
  have hany : ∀ g : BitsSpec → Nat, (∀ c ∈ bits, c ≠ b → (g c).testBit i = false) →
      (bits.any fun c => (g c).testBit i) = (g b).testBit i := by
    intro g hg
    rw [Bool.eq_iff_iff, List.any_eq_true]
    constructor
    · rintro ⟨c, hc, hbit⟩
      by_cases hcb : c = b
      · exact hcb ▸ hbit
      · rw [hg c hc hcb] at hbit
        cases hbit
    · exact fun hbit => ⟨b, hb, hbit⟩
  unfold StructData.getMatchBits at h
  rw [hd] at h
  split at h
  next => cases h
  next =>
    cases h
    refine ⟨?_, ?_⟩
    · rw [Nat.testBit_or, foldl_or_testBit, unnamedBits_field hb hmin hmax hi, Bool.or_false,
        Nat.zero_testBit, Bool.false_or]
      exact hany (fun c => (c.getMatch args).1) fun c hc hne => (hother c hc hne).1
    · rw [foldl_or_testBit, Nat.zero_testBit, Bool.false_or]
      exact hany (fun c => (c.getMatch args).2) fun c hc hne => (hother c hc hne).2

section
variable {args : List (String × Variable)} {b : BitsSpec} {low high : Variable}
  {min max : BitVec 32}

theorem range_mask_testBit (hc : b.cond = some (.range low high))
    (hlow : low.eval args = some min) (hhigh : high.eval args = some max) (i : Nat) :
    (b.getMatch args).1.testBit i = (decide (i < 32) && decide (b.min ≤ i) && decide (i ≤ b.max) &&
        !(nonFixed 32 (max.toNat ^^^ min.toNat)).testBit (i - b.min)) ∧
      (b.getMatch args).2.testBit i =
        ((b.getMatch args).1.testBit i && max.toNat.testBit (i - b.min)) := by
  have hmatch : b.getMatch args =
      (b.place (numBitsMask 32 ^^^ nonFixed 32 (max.toNat ^^^ min.toNat)),
        b.place (max.toNat &&& (numBitsMask 32 ^^^ nonFixed 32 (max.toNat ^^^ min.toNat)))) := by
    simp only [BitsSpec.getMatch, hc, BitsCondition.getMatch, hlow, hhigh]
  rw [hmatch]
  simp only [place_testBit, Nat.testBit_and, Nat.testBit_xor (_ : Nat), numBitsMask_testBit]
  by_cases hi : i < 32
  · have hj : i - b.min < 32 := by omega
    simp only [hi, hj, decide_true, Bool.true_and, Bool.true_xor]
    refine ⟨trivial, ?_⟩
    cases decide (b.min ≤ i) <;> cases decide (i ≤ b.max) <;> simp [Bool.and_comm]
  · simp [hi]

/-- A word with its field in the range has the value under the mask, and the mask has all bits of the
field that are the same for the values of the range. -/
theorem range_bits_exact (hb : b.max < 32) (hc : b.cond = some (.range low high))
    (hlow : low.eval args = some min) (hhigh : high.eval args = some max)
    (hle : min.toNat ≤ max.toNat) :
    (∀ w, min.toNat ≤ b.field w → b.field w ≤ max.toNat →
      w &&& (b.getMatch args).1 = (b.getMatch args).2) ∧
    (∀ i, (b.getMatch args).1.testBit i = true ↔
      b.min ≤ i ∧ i ≤ b.max ∧ SameBit min.toNat max.toNat (i - b.min)) ∧
    ∀ (d : StructData) (bits : List BitsSpec) (mask value : Nat), d.bits = some bits → b ∈ bits →
      (∀ c ∈ bits, c ≠ b → c.max < b.min ∨ b.max < c.min) →
      d.getMatchBits args = some (mask, value) →
      ∀ i, b.min ≤ i → i ≤ b.max →
        (∀ w, min.toNat ≤ b.field w → b.field w ≤ max.toNat →
          (w &&& mask).testBit i = value.testBit i) ∧
        (mask.testBit i = true ↔ SameBit min.toNat max.toNat (i - b.min)) := by
  have hmask : ∀ i, (b.getMatch args).1.testBit i = true ↔
      b.min ≤ i ∧ i ≤ b.max ∧ SameBit min.toNat max.toNat (i - b.min) := by
    intro i
    rw [(range_mask_testBit hc hlow hhigh i).1, ← nonFixed_iff max.isLt hle]
    simp only [Bool.and_eq_true, decide_eq_true_eq, Bool.not_eq_true', and_assoc]
    exact ⟨fun h => h.2, fun h => ⟨by omega, h⟩⟩
  have hword : ∀ w, min.toNat ≤ b.field w → b.field w ≤ max.toNat →
      w &&& (b.getMatch args).1 = (b.getMatch args).2 := by
    intro w hwmin hwmax
    apply Nat.eq_of_testBit_eq
    intro i
    rw [Nat.testBit_and, (range_mask_testBit hc hlow hhigh i).2]
    cases hbit : (b.getMatch args).1.testBit i with
    | false => rw [Bool.and_false, Bool.false_and]
    | true =>
      obtain ⟨hmin, hmax, hsame⟩ := (hmask i).mp hbit
      rw [Bool.and_true, Bool.true_and, ← field_testBit b w i hmin hmax]
      exact hsame _ _ hwmin hwmax hle le_rfl
  refine ⟨hword, hmask, fun d bits mask value hd hmem hapart hmatch i hmin hmax => ?_⟩
  obtain ⟨h1, h2⟩ := getMatchBits_field hd hmem hapart hmatch hmin hmax (by omega)
  refine ⟨fun w hwmin hwmax => ?_, ?_⟩
  · rw [Nat.testBit_and, h1, h2, ← Nat.testBit_and, hword w hwmin hwmax]
  · rw [h1, hmask i]
    exact ⟨fun h => h.2.2, fun h => ⟨hmin, hmax, h⟩⟩

end

theorem topField_ordered : 28 ≤ 31 := by omega

def topField : BitsSpec := ⟨28, 31, some (.range (.const 4) (.const 5)), topField_ordered⟩

theorem range_bits_top :
    topField.getMatch [] = (0xe0000000, 0x40000000) ∧
      ∀ i, (topField.getMatch []).1.testBit i = true ↔
        28 ≤ i ∧ i ≤ 31 ∧ SameBit 4 5 (i - 28) :=
  ⟨by decide,
    (@range_bits_exact [] topField (.const 4) (.const 5) 4 5 (by decide) rfl rfl rfl (by decide)).2.1⟩

end Ucesb
