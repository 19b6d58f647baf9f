import Mathlib.Data.Nat.Bits
import Mathlib.Tactic.Common
import Mathlib.Tactic.Ring

namespace Ucesb

section BucketMasks

def bucketBits : Nat := 32

def maskBit (mask : Nat → Nat) (p : Nat) : Bool := (mask (p / bucketBits)).testBit (p % bucketBits)

def setWord (masks : Nat → Nat → Nat) (level word value : Nat) : Nat → Nat → Nat :=
  fun l w => if l = level ∧ w = word then value else masks l w

/-- The masks are followed down from `level`; from the first bit on that has to be set, the words
below are not in use and start with just their bit. -/
def maskItem (item : Nat) (masks : Nat → Nat → Nat) (fresh : Bool) (level : Nat) :
    Nat → Nat → Nat → Nat
  | 0 => masks
  | left + 1 =>
    let here := item / bucketBits ^ left
    let word := here / bucketBits
    let bit := 2 ^ (here % bucketBits)
    if fresh = true then maskItem item (setWord masks level word bit) true (level + 1) left
    else if maskBit (masks level) here = false then
      maskItem item (setWord masks level word (masks level word ||| bit)) true (level + 1) left
    else maskItem item masks false (level + 1) left

def markedFrom (masks : Nat → Nat → Nat) (level : Nat) : Nat → Nat → Prop
  | 0, x => maskBit (masks level) x = true
  | left + 1, x => maskBit (masks level) (x / bucketBits ^ (left + 1)) = true ∧
      markedFrom masks (level + 1) left x

theorem maskBit_congr {mask mask' : Nat → Nat} {p : Nat}
    (h : mask' (p / bucketBits) = mask (p / bucketBits)) : maskBit mask' p = maskBit mask p := by
  unfold maskBit
  rw [h]

theorem setWord_other {masks : Nat → Nat → Nat} {level word value l w : Nat}
    (h : l ≠ level ∨ w ≠ word) : setWord masks level word value l w = masks l w := by
  unfold setWord
  rw [if_neg]
  rintro ⟨rfl, rfl⟩
  simp at h

theorem maskBit_set_fresh {masks : Nat → Nat → Nat} {level here p : Nat}
    (hp : p / bucketBits = here / bucketBits) :
    maskBit (setWord masks level (here / bucketBits) (2 ^ (here % bucketBits)) level) p =
      decide (p = here) := by
  simp only [maskBit, setWord, hp, and_self, if_true, Nat.testBit_two_pow]
  congr 1
  have h1 := Nat.div_add_mod p bucketBits
  have h2 := Nat.div_add_mod here bucketBits
  apply propext
  constructor
  · intro h
    rw [← h1, ← h2, hp, h]
  · rintro rfl
    rfl

theorem maskBit_set_more {masks : Nat → Nat → Nat} {level here p : Nat}
    (hp : p / bucketBits = here / bucketBits) :
    maskBit (setWord masks level (here / bucketBits)
      (masks level (here / bucketBits) ||| 2 ^ (here % bucketBits)) level) p =
      (maskBit (masks level) p || decide (p = here)) := by
  have hfresh : maskBit (setWord masks level (here / bucketBits) (2 ^ (here % bucketBits)) level) p =
      decide (p = here) := maskBit_set_fresh hp
  simp only [maskBit, setWord, hp, and_self, if_true, Nat.testBit_or] at hfresh ⊢
  rw [hfresh]

variable {masks masks' : Nat → Nat → Nat} {item level left x : Nat} {fresh : Bool}

theorem maskItem_above (h : x < level) (w : Nat) :
    maskItem item masks fresh level left x w = masks x w := by
  induction left generalizing masks fresh level with
  | zero => rfl
  | succ left ih =>
    unfold maskItem
    dsimp only
    split
    · rw [ih (by omega), setWord_other (.inl (by omega))]
    split
    · rw [ih (by omega), setWord_other (.inl (by omega))]
    · rw [ih (by omega)]

theorem markedFrom_congr (h : ∀ l, level ≤ l → ∀ w, masks' l w = masks l w) :
    markedFrom masks' level left x ↔ markedFrom masks level left x := by
  induction left generalizing level with
  | zero =>
    unfold markedFrom
    rw [maskBit_congr (h level (Nat.le_refl _) _)]
  | succ left ih =>
    unfold markedFrom
    rw [maskBit_congr (h level (Nat.le_refl _) _),
      ih fun l hl => h l (Nat.le_of_succ_le hl)]

theorem markedFrom_setWord {word value : Nat} :
    markedFrom (setWord masks level word value) (level + 1) left x ↔
      markedFrom masks (level + 1) left x := by
  apply markedFrom_congr
  intro l hl w
  exact setWord_other (.inl (by omega))

theorem div_pow_succ (x left : Nat) :
    x / bucketBits ^ (left + 1) / bucketBits = x / bucketBits ^ (left + 2) := by
  rw [Nat.div_div_eq_div_mul, ← Nat.pow_succ]

theorem markedFrom_elsewhere (h : x / bucketBits ^ (left + 1) ≠ item / bucketBits ^ (left + 1)) :
    markedFrom (maskItem item masks fresh level (left + 1)) level left x ↔
      markedFrom masks level left x := by
  induction left generalizing masks fresh level with
  | zero =>
    simp only [Nat.zero_add, Nat.pow_one] at h
    unfold markedFrom maskItem maskItem
    simp only [Nat.pow_zero, Nat.div_one]
    split
    · rw [maskBit_congr (setWord_other (.inr h))]
    split
    · rw [maskBit_congr (setWord_other (.inr h))]
    · rfl
  | succ left ih =>
    have hword : x / bucketBits ^ (left + 1) / bucketBits ≠
        item / bucketBits ^ (left + 1) / bucketBits := by
      rw [div_pow_succ, div_pow_succ]
      exact h
    have hbelow : x / bucketBits ^ (left + 1) ≠ item / bucketBits ^ (left + 1) := by
      intro heq
      exact hword (by rw [heq])
    unfold markedFrom
    rw [maskItem]
    split
    · rw [maskBit_congr (maskItem_above (by omega) _),
        maskBit_congr (setWord_other (.inr hword)), ih hbelow, markedFrom_setWord]
    split
    · rw [maskBit_congr (maskItem_above (by omega) _),
        maskBit_congr (setWord_other (.inr hword)), ih hbelow, markedFrom_setWord]
    · rw [maskBit_congr (maskItem_above (by omega) _), ih hbelow]

theorem markedFrom_fresh (h : x / bucketBits ^ (left + 1) = item / bucketBits ^ (left + 1)) :
    markedFrom (maskItem item masks true level (left + 1)) level left x ↔ x = item := by
  induction left generalizing masks level with
  | zero =>
    simp only [Nat.zero_add, Nat.pow_one] at h
    unfold markedFrom maskItem maskItem
    simp only [Nat.pow_zero, Nat.div_one, if_true]
    rw [maskBit_set_fresh h, decide_eq_true_iff]
  | succ left ih =>
    rw [← div_pow_succ, ← div_pow_succ] at h
    unfold markedFrom
    rw [maskItem]
    simp only [if_true]
    rw [maskBit_congr (maskItem_above (by omega) _), maskBit_set_fresh h, decide_eq_true_iff]
    constructor
    · rintro ⟨heq, hm⟩
      exact (ih heq).mp hm
    · rintro rfl
      exact ⟨rfl, (ih rfl).mpr rfl⟩

theorem markedFrom_maskItem :
    markedFrom (maskItem item masks false level (left + 1)) level left x ↔
      markedFrom masks level left x ∨ x = item := by
  by_cases h : x / bucketBits ^ (left + 1) = item / bucketBits ^ (left + 1)
  · induction left generalizing masks level with
    | zero =>
      simp only [Nat.zero_add, Nat.pow_one] at h
      unfold markedFrom maskItem maskItem
      simp only [Nat.pow_zero, Nat.div_one, Bool.false_eq_true, if_false]
      split
      · rw [maskBit_set_more h, Bool.or_eq_true, decide_eq_true_iff]
      · next hset =>
        rw [Bool.not_eq_false] at hset
        constructor
        · exact .inl
        · rintro (hx | rfl)
          · exact hx
          · exact hset
    | succ left ih =>
      rw [← div_pow_succ, ← div_pow_succ] at h
      unfold markedFrom
      rw [maskItem]
      simp only [Bool.false_eq_true, if_false]
      by_cases hsame : x / bucketBits ^ (left + 1) = item / bucketBits ^ (left + 1)
      · split
        · next hnot =>
          rw [maskBit_congr (maskItem_above (by omega) _), maskBit_set_more h,
            markedFrom_fresh hsame, hsame, hnot]
          simp
        · next hset =>
          rw [Bool.not_eq_false] at hset
          rw [maskBit_congr (maskItem_above (by omega) _), ih hsame, hsame, hset]
          simp
      · have hne : x ≠ item := by
          rintro rfl
          exact hsame rfl
        split
        · rw [maskBit_congr (maskItem_above (by omega) _), maskBit_set_more h,
            markedFrom_elsewhere hsame, markedFrom_setWord]
          simp [hsame, hne]
        · rw [maskBit_congr (maskItem_above (by omega) _), markedFrom_elsewhere hsame]
          simp [hne]
  · rw [markedFrom_elsewhere h]
    constructor
    · exact .inl
    · rintro (hx | rfl)
      · exact hx
      · exact absurd rfl h

theorem markedFrom_foldl (items : List Nat) :
    markedFrom (items.foldl (fun masks item => maskItem item masks false 0 (left + 1)) masks) 0
        left x ↔ markedFrom masks 0 left x ∨ x ∈ items := by
  induction items generalizing masks with
  | nil => simp
  | cons item items ih =>
    rw [List.foldl_cons, ih, markedFrom_maskItem, List.mem_cons, or_assoc]

theorem not_markedFrom_zero (h : ∀ w, masks level w = 0) : ¬ markedFrom masks level left x := by
  cases left with
  | zero => simp [markedFrom, maskBit, h]
  | succ left => simp [markedFrom, maskBit, h]

/-- As long as the low `n` bits are clear, they are shifted out. -/
def skipZeros (n : Nat) : Nat → Nat × Nat → Nat × Nat
  | 0, s => s
  | fuel + 1, (bits, index) =>
    if bits &&& (2 ^ n - 1) = 0 then skipZeros n fuel (bits >>> n, index + n) else (bits, index)

/-- The next bit that is set, in steps of six and then of one; the bits behind it remain. -/
def nextBit (s : Nat × Nat) : Option (Nat × (Nat × Nat)) :=
  if s.1 = 0 then none
  else
    let s := skipZeros 1 bucketBits (skipZeros 6 bucketBits s)
    some (s.2, (s.1 >>> 1, s.2 + 1))

def bucketIter : Nat → Nat × Nat → List Nat
  | 0, _ => []
  | fuel + 1, s =>
    match nextBit s with
    | none => []
    | some (index, s') => index :: bucketIter fuel s'

def bucketItems (masks : Nat → Nat → Nat) (level : Nat) : Nat → Nat → List Nat
  | 0, word => bucketIter (bucketBits + 1) (masks level word, word * bucketBits)
  | left + 1, word =>
    (bucketIter (bucketBits + 1) (masks level word, word * bucketBits)).flatMap
      (bucketItems masks (level + 1) left)

def setBits : Nat → Nat → Nat → List Nat
  | 0, _, _ => []
  | w + 1, bits, index =>
    if bits % 2 = 1 then index :: setBits w (bits / 2) (index + 1)
    else setBits w (bits / 2) (index + 1)

theorem mem_setBits {w bits index : Nat} :
    x ∈ setBits w bits index ↔ ∃ j < w, bits.testBit j = true ∧ x = index + j := by
  induction w generalizing bits index with
  | zero => simp [setBits]
  | succ w ih =>
    have hmem : x ∈ setBits (w + 1) bits index ↔
        (bits.testBit 0 = true ∧ x = index) ∨ x ∈ setBits w (bits / 2) (index + 1) := by
      rw [setBits, Nat.testBit_zero]
      split
      · next hodd => simp [hodd]
      · next heven => simp [heven]
    rw [hmem, ih]
    constructor
    · rintro (⟨hb, rfl⟩ | ⟨j, hj, hb, rfl⟩)
      · exact ⟨0, by omega, hb, rfl⟩
      · rw [← Nat.testBit_succ] at hb
        exact ⟨j + 1, by omega, hb, by omega⟩
    · rintro ⟨j, hj, hb, rfl⟩
      cases j with
      | zero => exact .inl ⟨hb, rfl⟩
      | succ j =>
        rw [Nat.testBit_succ] at hb
        exact .inr ⟨j, by omega, hb, by omega⟩

theorem setBits_sorted (w bits index : Nat) : (setBits w bits index).Pairwise (· < ·) := by
  induction w generalizing bits index with
  | zero => exact List.Pairwise.nil
  | succ w ih =>
    unfold setBits
    split
    · refine List.pairwise_cons.mpr ⟨?_, ih _ _⟩
      intro y hy
      obtain ⟨j, -, -, rfl⟩ := mem_setBits.mp hy
      omega
    · exact ih _ _

theorem setBits_shift (t w b index : Nat) :
    setBits (t + w) (b * 2 ^ t) index = setBits w b (index + t) := by
  induction t generalizing index with
  | zero => simp
  | succ t ih =>
    have heven : b * 2 ^ (t + 1) = 2 * (b * 2 ^ t) := by
      rw [Nat.pow_succ]
      ac_rfl
    have hlen : t + 1 + w = (t + w) + 1 := by omega
    rw [hlen, setBits, heven, if_neg (by omega), Nat.mul_div_cancel_left _ (by decide), ih]
    congr 1
    omega

theorem setBits_zero (w index : Nat) : setBits w 0 index = [] := by
  induction w generalizing index with
  | zero => rfl
  | succ w ih => exact ih (index + 1)

theorem skipZeros_spec {n fuel bits : Nat} (index : Nat) (hn : 0 < n) (h0 : bits ≠ 0)
    (hlt : bits < 2 ^ fuel) :
    ∃ b t, skipZeros n fuel (bits, index) = (b, index + t) ∧ bits = b * 2 ^ t ∧ b % 2 ^ n ≠ 0 := by
  induction fuel generalizing bits index with
  | zero => omega
  | succ fuel ih =>
    rw [skipZeros, Nat.and_two_pow_sub_one_eq_mod]
    by_cases hz : bits % 2 ^ n = 0
    · rw [if_pos hz, Nat.shiftRight_eq_div_pow]
      have hmul : bits = bits / 2 ^ n * 2 ^ n := (Nat.div_mul_cancel (Nat.dvd_of_mod_eq_zero hz)).symm
      have hpos : bits / 2 ^ n ≠ 0 := by
        intro hq
        rw [hq, Nat.zero_mul] at hmul
        exact h0 hmul
      have hsmall : bits / 2 ^ n < 2 ^ fuel := by
        have h2 : 2 ≤ 2 ^ n := by
          calc 2 = 2 ^ 1 := rfl
            _ ≤ 2 ^ n := Nat.pow_le_pow_right (by decide) hn
        apply Nat.div_lt_of_lt_mul
        calc bits < 2 ^ (fuel + 1) := hlt
          _ = 2 * 2 ^ fuel := by rw [Nat.pow_succ, Nat.mul_comm]
          _ ≤ 2 ^ n * 2 ^ fuel := Nat.mul_le_mul_right _ h2
      obtain ⟨b, t, hs, hb, hodd⟩ := ih (index + n) hpos hsmall
      refine ⟨b, n + t, ?_, ?_, hodd⟩
      · rw [hs, Nat.add_assoc]
      · calc bits = bits / 2 ^ n * 2 ^ n := hmul
          _ = b * 2 ^ t * 2 ^ n := by rw [← hb]
          _ = b * 2 ^ (n + t) := by rw [Nat.mul_assoc, ← Nat.pow_add, Nat.add_comm t n]
    · rw [if_neg hz]
      exact ⟨bits, 0, rfl, by simp, hz⟩

theorem nextBit_spec {bits : Nat} (index : Nat) (h0 : bits ≠ 0) (hlt : bits < 2 ^ bucketBits) :
    ∃ b t, nextBit (bits, index) = some (index + t, (b / 2, index + t + 1)) ∧
      bits = b * 2 ^ t ∧ b % 2 = 1 := by
  obtain ⟨b6, t6, hs6, hb6, hne6⟩ := skipZeros_spec (n := 6) index (by decide) h0 hlt
  have hb60 : b6 ≠ 0 := by
    rintro rfl
    exact hne6 rfl
  have hb6lt : b6 < 2 ^ bucketBits := by
    have hpos : 0 < 2 ^ t6 := Nat.two_pow_pos t6
    have hle : b6 ≤ b6 * 2 ^ t6 := Nat.le_mul_of_pos_right b6 hpos
    omega
  obtain ⟨b, t, hs, hb, hne⟩ := skipZeros_spec (n := 1) (index + t6) (by decide) hb60 hb6lt
  refine ⟨b, t6 + t, ?_, ?_, by omega⟩
  · simp only [nextBit, h0, if_false, hs6, hs, Nat.shiftRight_eq_div_pow, Nat.pow_one,
      Nat.add_assoc]
  · rw [hb6, hb, Nat.mul_assoc, ← Nat.pow_add, Nat.add_comm t t6]

theorem bucketIter_eq {w fuel bits index : Nat} (hw : w ≤ bucketBits) (hfuel : w < fuel)
    (hlt : bits < 2 ^ w) : bucketIter fuel (bits, index) = setBits w bits index := by
  induction fuel generalizing w bits index with
  | zero => omega
  | succ fuel ih =>
    unfold bucketIter
    by_cases h0 : bits = 0
    · subst h0
      rw [setBits_zero]
      rfl
    · have hbig : bits < 2 ^ bucketBits :=
        Nat.lt_of_lt_of_le hlt (Nat.pow_le_pow_right (by decide) hw)
      obtain ⟨b, t, hnext, hb, hodd⟩ := nextBit_spec index h0 hbig
      have htw : t < w := by
        by_contra hge
        have hle : 2 ^ w ≤ 2 ^ t := Nat.pow_le_pow_right (by decide) (by omega)
        have hmul : 2 ^ t ≤ b * 2 ^ t := Nat.le_mul_of_pos_left _ (by omega)
        omega
      obtain ⟨v, rfl⟩ : ∃ v, w = t + (v + 1) := ⟨w - t - 1, by omega⟩
      have hbv : b < 2 ^ (v + 1) := by
        rw [hb, Nat.pow_add, Nat.mul_comm (2 ^ t)] at hlt
        exact Nat.lt_of_mul_lt_mul_right hlt
      have hhalf : b / 2 < 2 ^ v := by
        rw [Nat.pow_succ] at hbv
        omega
      rw [hnext, hb, setBits_shift, setBits, if_pos hodd]
      dsimp only
      rw [ih (by omega) (by omega) hhalf]

def WordsFit (masks : Nat → Nat → Nat) : Prop := ∀ l w, masks l w < 2 ^ bucketBits

theorem setWord_fit {word value : Nat} (h : WordsFit masks) (hv : value < 2 ^ bucketBits) :
    WordsFit (setWord masks level word value) := by
  intro l w
  unfold setWord
  split
  · exact hv
  · exact h l w

theorem maskItem_fit (h : WordsFit masks) : WordsFit (maskItem item masks fresh level left) := by
  induction left generalizing masks fresh level with
  | zero => exact h
  | succ left ih =>
    have hbit : 2 ^ (item / bucketBits ^ left % bucketBits) < 2 ^ bucketBits :=
      Nat.pow_lt_pow_right (by decide) (Nat.mod_lt _ (by decide))
    unfold maskItem
    dsimp only
    split
    · exact ih (setWord_fit h hbit)
    split
    · exact ih (setWord_fit h (Nat.or_lt_two_pow (h _ _) hbit))
    · exact ih h

theorem foldl_maskItem_fit (h : WordsFit masks) (items : List Nat) :
    WordsFit (items.foldl (fun masks item => maskItem item masks false level left) masks) := by
  induction items generalizing masks with
  | nil => exact h
  | cons item items ih => exact ih (maskItem_fit h)

theorem mem_bucketIter (h : WordsFit masks) {word : Nat} :
    x ∈ bucketIter (bucketBits + 1) (masks level word, word * bucketBits) ↔
      x / bucketBits = word ∧ maskBit (masks level) x = true := by
  rw [bucketIter_eq (Nat.le_refl _) (by omega) (h level word), mem_setBits]
  constructor
  · rintro ⟨j, hj, hb, rfl⟩
    have hdiv : (word * bucketBits + j) / bucketBits = word := by
      unfold bucketBits at hj ⊢
      omega
    have hmod : (word * bucketBits + j) % bucketBits = j := by
      unfold bucketBits at hj ⊢
      omega
    refine ⟨hdiv, ?_⟩
    unfold maskBit
    rw [hdiv, hmod]
    exact hb
  · rintro ⟨rfl, hb⟩
    refine ⟨x % bucketBits, Nat.mod_lt _ (by decide), hb, ?_⟩
    rw [Nat.mul_comm, Nat.div_add_mod]

theorem mem_bucketItems (h : WordsFit masks) {word : Nat} :
    x ∈ bucketItems masks level left word ↔
      x / bucketBits ^ (left + 1) = word ∧ markedFrom masks level left x := by
  induction left generalizing level word with
  | zero =>
    rw [bucketItems, mem_bucketIter h, Nat.zero_add, Nat.pow_one]
    rfl
  | succ left ih =>
    rw [bucketItems, List.mem_flatMap, markedFrom, ← div_pow_succ]
    constructor
    · rintro ⟨p, hp, hx⟩
      obtain ⟨hword, hbit⟩ := (mem_bucketIter h).mp hp
      obtain ⟨rfl, hbelow⟩ := ih.mp hx
      exact ⟨hword, hbit, hbelow⟩
    · rintro ⟨hword, hbit, hbelow⟩
      exact ⟨_, (mem_bucketIter h).mpr ⟨hword, hbit⟩, ih.mpr ⟨rfl, hbelow⟩⟩

theorem flatMap_sorted {keys : List Nat} {f : Nat → List Nat} {d : Nat}
    (hkeys : keys.Pairwise (· < ·)) (hkey : ∀ k, ∀ y ∈ f k, y / d = k)
    (hf : ∀ k, (f k).Pairwise (· < ·)) : (keys.flatMap f).Pairwise (· < ·) := by
  induction keys with
  | nil => exact List.Pairwise.nil
  | cons k keys ih =>
    obtain ⟨hhead, htail⟩ := List.pairwise_cons.mp hkeys
    rw [List.flatMap_cons]
    refine List.pairwise_append.mpr ⟨hf k, ih htail, ?_⟩
    intro a ha b hb
    obtain ⟨k', hk', hb⟩ := List.mem_flatMap.mp hb
    have hlt := hhead k' hk'
    by_contra hge
    have hdiv : b / d ≤ a / d := Nat.div_le_div_right (by omega)
    rw [hkey k a ha, hkey k' b hb] at hdiv
    omega

theorem bucketItems_sorted (h : WordsFit masks) (word : Nat) :
    (bucketItems masks level left word).Pairwise (· < ·) := by
  have hiter : ∀ level word,
      (bucketIter (bucketBits + 1) (masks level word, word * bucketBits)).Pairwise (· < ·) := by
    intro level word
    rw [bucketIter_eq (Nat.le_refl _) (by omega) (h level word)]
    exact setBits_sorted _ _ _
  induction left generalizing level word with
  | zero => exact hiter level word
  | succ left ih =>
    refine flatMap_sorted (d := bucketBits ^ (left + 1)) (hiter level word) ?_ ih
    intro p y hy
    exact ((mem_bucketItems h).mp hy).1

end BucketMasks

/-- `while (store_offset > limit)`: groups of seven bits; the rest goes into the last byte. An offset
has at most 30 bits. -/
def offsetBytes (limit : Nat) : Nat → Nat → List UInt8 × Nat
  | 0, store => ([], store)
  | fuel + 1, store =>
    if limit < store then
      let (bytes, last) := offsetBytes limit fuel (store >>> 7)
      (UInt8.ofNat (0x80 ||| (store &&& 0x7f)) :: bytes, last)
    else ([], store)

/-- One item, at a distance of `store` items. -/
def compactItem (store : Nat) (value : UInt32) : List UInt8 :=
  let v := value.toNat
  if v = 0 then
    let (bytes, last) := offsetBytes 0x0f 5 store
    bytes ++ [UInt8.ofNat (3 <<< 5 ||| 1 <<< 4 ||| last)]
  else if v = 0x7fc00000 then
    let (bytes, last) := offsetBytes 0x0f 5 store
    bytes ++ [UInt8.ofNat (3 <<< 5 ||| last)]
  else if v < 2 ^ 5 then
    (offsetBytes 0 5 store).1 ++ [UInt8.ofNat (0 <<< 5 ||| v)]
  else if v < 2 ^ 13 then
    (offsetBytes 0 5 store).1 ++ [UInt8.ofNat (1 <<< 5 ||| v >>> 8), UInt8.ofNat v]
  else
    let (bytes, last) := offsetBytes 0x1f 5 store
    bytes ++ [UInt8.ofNat (2 <<< 5 ||| last), UInt8.ofNat (v >>> 24), UInt8.ofNat (v >>> 16),
      UInt8.ofNat (v >>> 8), UInt8.ofNat v]

/-- The distance in items; it is asserted that it is a whole number of them. -/
def storeOffset (offset cur : Nat) : Option Nat :=
  let store := (offset + 2 ^ 32 - cur) % 2 ^ 32
  if store &&& 3 ≠ 0 then none else some (store >>> 2)

/-- The items in turn, with the 32-bit values by their offsets in the staging array. The offset
behind the last one is returned too. -/
def compactItems (length : Nat) (ptr : Nat → UInt32) : Nat → List Nat → Option (List UInt8 × Nat)
  | cur, [] => some ([], cur)
  | cur, item :: items => do
    let offset := item * 4 % 2 ^ 32
    let store ← storeOffset offset cur
    if length < offset + 4 then none
    else
      let (bytes, last) ← compactItems length ptr (offset + 4) items
      some (compactItem store (ptr offset) ++ bytes, last)

/-- If the last item is not filled, a zero is written to it, such that all offsets are checked. -/
def compactEnd (length cur : Nat) : Option (List UInt8) :=
  if cur = length then some []
  else (storeOffset (length - 4) cur).map fun store => compactItem store 0

def rewriteMaxBytesPerItem (length : Nat) : Nat :=
  if length < 2 ^ (4 + 2) then 5
  else if length < 2 ^ (4 + 7 + 2) then 6
  else if length < 2 ^ (4 + 7 + 7 + 2) then 7
  else if length < 2 ^ (4 + 7 + 7 + 7 + 2) then 8
  else 9

def numMasks (length : Nat) : Nat :=
  ((((length + 3) / 4 * 4 + 31) / 32 + 31) / 32 + 31) / 32

def eventMasks (stale : Nat → Nat → Nat) (offsets : List Nat) : Nat → Nat → Nat :=
  (offsets.map (· / 4)).foldl (fun masks item => maskItem item masks false 0 3)
    fun level word => if level = 0 then 0 else stale level word

def eventItems (length : Nat) (masks : Nat → Nat → Nat) : List Nat :=
  (List.range (numMasks length)).flatMap (bucketItems masks 0 2)

/-- The compact event for a list of offsets that are filled, in the order in which they were, with a
message header of some words. The length is checked against what was reserved. -/
def compactEvent (length words : Nat) (ptr : Nat → UInt32) (stale : Nat → Nat → Nat)
    (offsets : List Nat) : Option (List UInt8) := do
  if offsets.any fun offset => length < offset + 4 then none
  else
    let items := eventItems length (eventMasks stale offsets)
    let (bytes, last) ← compactItems length ptr 0 items
    let tail ← compactEnd length last
    let compact := bytes ++ tail
    let maxLength := (rewriteMaxBytesPerItem length * (offsets.length + 1) + 3) / 4 * 4 + 4 * words
    if (4 * words + compact.length + 3) / 4 * 4 ≤ maxLength then some compact else none

/-- `ext_data_write_bitpacked_event`. `shift` is 2 at the begin of an item. -/
def bitpackedFrom (destSize : Nat) (dest : Nat → UInt32) (offset shift : Nat) :
    List UInt8 → Except Int (Nat → UInt32)
  | [] =>
    if shift ≠ 2 then .error (-1)
    else if offset ≠ destSize then .error (-6)
    else .ok dest
  | b :: src =>
    let v := b.toNat
    if v &&& 0x80 ≠ 0 then
      bitpackedFrom destSize dest ((offset + (v &&& 0x7f) <<< shift) % 2 ^ 32) (shift + 7) src
    else if v >>> 5 = 0 then
      if destSize < offset + 4 then .error (-4)
      else bitpackedFrom destSize (Function.update dest offset (UInt32.ofNat (v &&& 0x1f)))
        ((offset + 4) % 2 ^ 32) 2 src
    else if v >>> 5 = 1 then
      match src with
      | [] => .error (-2)
      | b0 :: src =>
        if destSize < offset + 4 then .error (-4)
        else bitpackedFrom destSize
          (Function.update dest offset (UInt32.ofNat ((v &&& 0x1f) <<< 8 ||| b0.toNat)))
          ((offset + 4) % 2 ^ 32) 2 src
    else if v >>> 5 = 2 then
      match src with
      | b3 :: b2 :: b1 :: b0 :: src =>
        let offset := (offset + (v &&& 0x1f) <<< shift) % 2 ^ 32
        if destSize < offset + 4 then .error (-4)
        else bitpackedFrom destSize
          (Function.update dest offset (UInt32.ofNat
            (b3.toNat <<< 24 ||| b2.toNat <<< 16 ||| b1.toNat <<< 8 ||| b0.toNat)))
          ((offset + 4) % 2 ^ 32) 2 src
      | _ => .error (-3)
    else
      let offset := (offset + (v &&& 0x0f) <<< shift) % 2 ^ 32
      if destSize < offset + 4 then .error (-4)
      else bitpackedFrom destSize
        (Function.update dest offset (UInt32.ofNat (0x7fc00000 <<< (v &&& 0x10))))
        ((offset + 4) % 2 ^ 32) 2 src

def extDataWriteBitpackedEvent (dest : Nat → UInt32) (destSize : Nat) (src : List UInt8) :
    Except Int (Nat → UInt32) :=
  bitpackedFrom destSize dest 0 2 src

end Ucesb
