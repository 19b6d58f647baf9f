import Mathlib.Logic.Function.Basic
import Mathlib.Tactic.Common
import Mathlib.Tactic.Ring
import Mathlib.Data.List.Range

namespace Ucesb

/-- The words of a `bitsone`, of which `BITSONE_CONTAINERS` are there. -/
abbrev BitsWords := Nat → BitVec 64

def bitsContainers (n : Nat) : Nat := (n + 64 - 1) / 64

namespace Bitsone

def clear : BitsWords := fun _ => 0

/-- `set`, or nothing if the assertion fails. -/
def set (n : Nat) (bits : BitsWords) (i : Nat) : Option BitsWords :=
  if i < n then
    some (Function.update bits (i / 64) (bits (i / 64) ||| (1#64 <<< (i % 64))))
  else none

def get (n : Nat) (bits : BitsWords) (i : Nat) : Option Bool :=
  if i < n then some (((bits (i / 64) >>> (i % 64)) &&& 1#64) != 0#64) else none

def getSet (n : Nat) (bits : BitsWords) (i : Nat) : Option (Bool × BitsWords) :=
  if i < n then
    let prev := bits (i / 64)
    some (((prev >>> (i % 64)) &&& 1#64) != 0#64,
      Function.update bits (i / 64) (prev ||| (1#64 <<< (i % 64))))
  else none

structure Iterator where
  left : BitVec 64
  index : Nat
  i : Nat

def Iterator.init : Iterator := ⟨0, 0, 0⟩

def findWord (n : Nat) (bits : BitsWords) (i : Nat) : Option Nat :=
  if i < bitsContainers n then
    if bits i = 0 then findWord n bits (i + 1) else some i
  else none
termination_by bitsContainers n - i

/-- The loop over the bytes that are zero, which does not end for a word that is zero. -/
def skipBytes (left : BitVec 64) (index : Nat) : Option (BitVec 64 × Nat) :=
  if left = 0 then none
  else if left &&& 0xff = 0 then skipBytes (left >>> 8) (index + 8)
  else some (left, index)
termination_by left.toNat
decreasing_by
  have hne : left.toNat ≠ 0 := fun h => ‹left ≠ 0› (BitVec.eq_of_toNat_eq h)
  rw [BitVec.toNat_ushiftRight, Nat.shiftRight_eq_div_pow]
  exact Nat.div_lt_self (by omega) (by omega)

/-- The shift by `k` if the bits of the mask are zero. -/
def skipBits (k : Nat) (mask : BitVec 64) (p : BitVec 64 × Nat) : BitVec 64 × Nat :=
  if p.1 &&& mask = 0 then (p.1 >>> k, p.2 + k) else p

/-- `next`, from a word on that is not zero. -/
def takeBit (left : BitVec 64) (index i : Nat) : Option (Int × Iterator) := do
  let p ← skipBytes left index
  let p := skipBits 1 0x1 (skipBits 2 0x3 (skipBits 4 0xf p))
  return (p.2, ⟨p.1 >>> 1, p.2 + 1, i⟩)

def next (n : Nat) (bits : BitsWords) (iter : Iterator) : Option (Int × Iterator) :=
  if iter.left = 0 then
    match findWord n bits iter.i with
    | none => some (-1, { iter with left := 0, i := max iter.i (bitsContainers n) })
    | some i => takeBit (bits i) (i * 64) (i + 1)
  else takeBit iter.left iter.index iter.i

/-- What a number of calls of `next` return. -/
def nexts (n : Nat) (bits : BitsWords) : Nat → Iterator → Option (List Int)
  | 0, _ => some []
  | k + 1, iter => do
    let (x, iter) ← next n bits iter
    let rest ← nexts n bits k iter
    return x :: rest

inductive Call
  | set (i : Nat)
  | getSet (i : Nat)
  | clear

def call (n : Nat) (bits : BitsWords) : Call → Option BitsWords
  | .set i => set n bits i
  | .getSet i => (getSet n bits i).map (·.2)
  | .clear => some clear

def calls (n : Nat) (cs : List Call) : Option BitsWords := cs.foldlM (call n) clear

def marked (present : Nat → Bool) : Call → Nat → Bool
  | .set i => Function.update present i true
  | .getSet i => Function.update present i true
  | .clear => fun _ => false

def allMarked (cs : List Call) : Nat → Bool := cs.foldl marked fun _ => false

def Holds (n : Nat) (bits : BitsWords) (present : Nat → Bool) : Prop :=
  (∀ x, (bits (x / 64)).getLsbD (x % 64) = present x) ∧ ∀ x, present x = true → x < n

theorem holds_clear (n : Nat) : Holds n clear fun _ => false :=
  ⟨fun _ => BitVec.getLsbD_zero, fun _ h => absurd h nofun⟩

theorem holds_mark {n : Nat} {bits : BitsWords} {present : Nat → Bool} {i : Nat}
    (h : Holds n bits present) (hi : i < n) :
    Holds n (Function.update bits (i / 64) (bits (i / 64) ||| (1#64 <<< (i % 64))))
      (Function.update present i true) := by
  refine ⟨fun x => ?_, fun x hx => ?_⟩
  · by_cases hword : x / 64 = i / 64
    · rw [hword, Function.update_self, BitVec.getLsbD_or, BitVec.getLsbD_shiftLeft, ← hword, h.1 x]
      by_cases hxi : x = i
      · subst hxi
        simp [Nat.mod_lt]
      · have hne : ¬(x % 64 - i % 64 = 0 ∧ ¬x % 64 < i % 64) := by omega
        rw [Function.update_of_ne hxi]
        simp only [BitVec.getLsbD_one]
        grind
    · have hxi : x ≠ i := fun hx => hword (hx ▸ rfl)
      rw [Function.update_of_ne hword, Function.update_of_ne hxi, h.1 x]
  · by_cases hxi : x = i
    · exact hxi ▸ hi
    · rw [Function.update_of_ne hxi] at hx
      exact h.2 x hx

theorem calls_hold {n : Nat} {cs : List Call} {bits bits' : BitsWords} {present : Nat → Bool}
    (h : Holds n bits present) (hcs : cs.foldlM (call n) bits = some bits') :
    Holds n bits' (cs.foldl marked present) := by
  induction cs generalizing bits present with
  | nil =>
    cases hcs
    exact h
  | cons c cs ih =>
    rw [List.foldlM_cons] at hcs
    obtain ⟨bits1, hc, hcs⟩ := Option.bind_eq_some_iff.mp hcs
    refine ih ?_ hcs
    cases c with
    | clear =>
      cases hc
      exact holds_clear n
    | set i =>
      simp only [call, set] at hc
      split at hc
      next hi =>
        cases hc
        exact holds_mark h hi
      next => cases hc
    | getSet i =>
      simp only [call, getSet] at hc
      split at hc
      next hi =>
        cases hc
        exact holds_mark h hi
      next => cases hc

def Shifted (w : BitVec 64) (base : Nat) (p : BitVec 64 × Nat) : Prop :=
  ∃ s, p = (w >>> s, base + s) ∧ ∀ j < s, w.getLsbD j = false

theorem Shifted.shift {w : BitVec 64} {base k : Nat} {p : BitVec 64 × Nat} (h : Shifted w base p)
    (hk : ∀ j < k, p.1.getLsbD j = false) : Shifted w base (p.1 >>> k, p.2 + k) := by
  obtain ⟨s, rfl, hs⟩ := h
  refine ⟨s + k, ?_, fun j hj => ?_⟩
  · rw [← BitVec.shiftRight_add, Nat.add_assoc]
  · by_cases hjs : j < s
    · exact hs j hjs
    · have := hk (j - s) (by omega)
      rwa [BitVec.getLsbD_ushiftRight, Nat.add_sub_cancel' (by omega)] at this

theorem and_mask_zero {k : Nat} (hk : k ≤ 64) (x : BitVec 64) :
    x &&& BitVec.ofNat 64 (2 ^ k - 1) = 0 ↔ ∀ j < k, x.getLsbD j = false := by
  have hmask : ∀ j < 64, (BitVec.ofNat 64 (2 ^ k - 1)).getLsbD j = decide (j < k) := by
    intro j hj
    rw [BitVec.getLsbD_ofNat, Nat.testBit_two_pow_sub_one]
    simp [hj]
  constructor
  · intro h j hj
    have hbit := congrArg (BitVec.getLsbD · j) h
    simpa [BitVec.getLsbD_and, hmask j (by omega), hj] using hbit
  · intro h
    refine BitVec.eq_of_getLsbD_eq fun j hj => ?_
    rw [BitVec.getLsbD_and, hmask j hj]
    by_cases hjk : j < k
    · simp [h j hjk]
    · simp [hjk]

theorem skipBytes_spec {w : BitVec 64} {base : Nat} (left : BitVec 64) (index : Nat)
    (h : Shifted w base (left, index)) (hne : left ≠ 0) :
    ∃ p, skipBytes left index = some p ∧ Shifted w base p ∧
      ∃ j < 8, p.1.getLsbD j = true := by
  induction left, index using skipBytes.induct with
  | case1 index => exact absurd rfl hne
  | case2 left index _ hzero ih =>
    have hlow := (and_mask_zero (k := 8) (by decide) left).mp hzero
    rw [skipBytes, if_neg hne, if_pos hzero]
    refine ih (h.shift hlow) fun h0 => hne (BitVec.eq_of_getLsbD_eq fun j hj => ?_)
    by_cases hj8 : j < 8
    · rw [hlow j hj8]
      exact BitVec.getLsbD_zero.symm
    · have := congrArg (BitVec.getLsbD · (j - 8)) h0
      simpa [BitVec.getLsbD_ushiftRight, Nat.add_sub_cancel' (Nat.not_lt.mp hj8)] using this
  | case3 left index _ hsome =>
    rw [skipBytes, if_neg hne, if_neg hsome]
    refine ⟨_, rfl, h, ?_⟩
    by_contra hno
    refine hsome ((and_mask_zero (k := 8) (by decide) left).mpr fun j hj => ?_)
    exact Bool.eq_false_iff.mpr fun hbit => hno ⟨j, hj, hbit⟩

theorem skipBits_spec {w : BitVec 64} {base k : Nat} {p : BitVec 64 × Nat} (hk : k ≤ 64)
    (h : Shifted w base p) (hlow : ∃ j < k + k, p.1.getLsbD j = true) :
    Shifted w base (skipBits k (BitVec.ofNat 64 (2 ^ k - 1)) p) ∧
      ∃ j < k, (skipBits k (BitVec.ofNat 64 (2 ^ k - 1)) p).1.getLsbD j = true := by
  unfold skipBits
  split
  next hzero =>
    have hno := (and_mask_zero hk p.1).mp hzero
    obtain ⟨j, hj, hbit⟩ := hlow
    have hge : k ≤ j := by
      by_contra hlt
      rw [hno j (by omega)] at hbit
      cases hbit
    refine ⟨h.shift hno, j - k, by omega, ?_⟩
    rwa [BitVec.getLsbD_ushiftRight, Nat.add_sub_cancel' hge]
  next hsome =>
    refine ⟨h, ?_⟩
    by_contra hno
    exact hsome ((and_mask_zero hk p.1).mpr fun j hj =>
      Bool.eq_false_iff.mpr fun hbit => hno ⟨j, hj, hbit⟩)

theorem takeBit_spec {left : BitVec 64} (hne : left ≠ 0) (index i : Nat) :
    ∃ s, takeBit left index i = some (((index + s : Nat) : Int), ⟨left >>> (s + 1), index + s + 1, i⟩) ∧
      left.getLsbD s = true ∧ ∀ j < s, left.getLsbD j = false := by
  have hstart : Shifted left index (left, index) :=
    ⟨0, by simp, fun _ h => absurd h (Nat.not_lt_zero _)⟩
  obtain ⟨p, hp, hp8, hlow8⟩ := skipBytes_spec left index hstart hne
  obtain ⟨hp4, hlow4⟩ := skipBits_spec (k := 4) (by decide) hp8 hlow8
  obtain ⟨hp2, hlow2⟩ := skipBits_spec (k := 2) (by decide) hp4 hlow4
  obtain ⟨⟨s, hs, hzero⟩, j, hj, hbit⟩ := skipBits_spec (k := 1) (by decide) hp2 hlow2
  obtain rfl : j = 0 := by omega
  refine ⟨s, ?_, ?_, hzero⟩
  · have htake : takeBit left index i = some
        (((skipBits 1 0x1 (skipBits 2 0x3 (skipBits 4 0xf p))).2 : Int),
          ⟨(skipBits 1 0x1 (skipBits 2 0x3 (skipBits 4 0xf p))).1 >>> 1,
            (skipBits 1 0x1 (skipBits 2 0x3 (skipBits 4 0xf p))).2 + 1, i⟩) := by
      rw [takeBit, hp]
      rfl
    have hs' : skipBits 1 0x1 (skipBits 2 0x3 (skipBits 4 0xf p)) = (left >>> s, index + s) := hs
    rw [htake, hs', BitVec.shiftRight_add]
  · rw [hs, BitVec.getLsbD_ushiftRight] at hbit
    exact hbit

theorem findWord_spec (n : Nat) (bits : BitsWords) (i : Nat) :
    (findWord n bits i = none ∧ ∀ k, i ≤ k → k < bitsContainers n → bits k = 0) ∨
      ∃ w, findWord n bits i = some w ∧ i ≤ w ∧ w < bitsContainers n ∧ bits w ≠ 0 ∧
        ∀ k, i ≤ k → k < w → bits k = 0 := by
  induction i using findWord.induct n bits with
  | case1 i hlt hzero ih =>
    rw [findWord, if_pos hlt, if_pos hzero]
    rcases ih with ⟨hnone, hall⟩ | ⟨w, hw, hle, hlt', hne, hall⟩
    · refine .inl ⟨hnone, fun k hk hkn => ?_⟩
      rcases Nat.eq_or_lt_of_le hk with rfl | hk
      · exact hzero
      · exact hall k hk hkn
    · refine .inr ⟨w, hw, by omega, hlt', hne, fun k hk hkw => ?_⟩
      rcases Nat.eq_or_lt_of_le hk with rfl | hk
      · exact hzero
      · exact hall k hk hkw
  | case2 i hlt hne =>
    rw [findWord, if_pos hlt, if_neg hne]
    exact .inr ⟨i, rfl, le_rfl, hlt, hne, fun k hk hki => by omega⟩
  | case3 i hge =>
    rw [findWord, if_neg hge]
    exact .inl ⟨rfl, fun k hk hkn => by omega⟩

def Ahead (n : Nat) (bits : BitsWords) (iter : Iterator) (x : Nat) : Prop :=
  (∃ j, x = iter.index + j ∧ iter.left.getLsbD j = true) ∨
    iter.i ≤ x / 64 ∧ x / 64 < bitsContainers n ∧ (bits (x / 64)).getLsbD (x % 64) = true

def Below (iter : Iterator) : Prop :=
  ∀ j, iter.left.getLsbD j = true → iter.index + j < iter.i * 64

/-- The iterator has given the least index that was ahead, and all others still are. -/
def Gave (n : Nat) (bits : BitsWords) (iter : Iterator) (x : Nat) (iter' : Iterator) : Prop :=
  Below iter' ∧ Ahead n bits iter x ∧ (∀ y, Ahead n bits iter y → x ≤ y) ∧
    ∀ y, Ahead n bits iter' y ↔ Ahead n bits iter y ∧ y ≠ x

theorem takeBit_gave {n : Nat} {bits : BitsWords} {iter : Iterator} (hbelow : Below iter)
    (hne : iter.left ≠ 0) :
    ∃ (x : Nat) (iter' : Iterator),
      takeBit iter.left iter.index iter.i = some ((x : Int), iter') ∧ Gave n bits iter x iter' := by
  obtain ⟨s, htake, hbit, hzero⟩ := takeBit_spec hne iter.index iter.i
  have hx := hbelow s hbit
  refine ⟨iter.index + s, _, htake, fun j hj => ?_, .inl ⟨s, rfl, hbit⟩, ?_, fun y => ⟨?_, ?_⟩⟩
  · rw [BitVec.getLsbD_ushiftRight] at hj
    have := hbelow _ hj
    dsimp only
    omega
  · rintro y (⟨j, rfl, hj⟩ | ⟨hle, -, -⟩)
    · by_contra hlt
      rw [hzero j (by omega)] at hj
      cases hj
    · omega
  · rintro (⟨j, rfl, hj⟩ | h)
    · rw [BitVec.getLsbD_ushiftRight] at hj
      dsimp only
      exact ⟨.inl ⟨s + 1 + j, by omega, hj⟩, by omega⟩
    · have hle : iter.i ≤ y / 64 := h.1
      exact ⟨.inr h, by omega⟩
  · rintro ⟨⟨j, rfl, hj⟩ | h, hne'⟩
    · have hjs : ¬j < s := by
        intro hlt
        rw [hzero j hlt] at hj
        cases hj
      refine .inl ⟨j - s - 1, by dsimp only; omega, ?_⟩
      rw [BitVec.getLsbD_ushiftRight]
      rwa [show s + 1 + (j - s - 1) = j by omega]
    · exact .inr h

theorem next_spec {n : Nat} {bits : BitsWords} {iter : Iterator} (hbelow : Below iter) :
    (∃ (x : Nat) (iter' : Iterator), next n bits iter = some ((x : Int), iter') ∧
        Gave n bits iter x iter') ∨
      (∀ y, ¬Ahead n bits iter y) ∧ ∃ iter', next n bits iter = some (-1, iter') ∧ Below iter' ∧
        ∀ y, ¬Ahead n bits iter' y := by
  unfold next
  by_cases hleft : iter.left = 0
  · rw [if_pos hleft]
    have hnone : ∀ j, ¬iter.left.getLsbD j = true := by
      intro j hj
      rw [hleft] at hj
      exact absurd (hj.symm.trans BitVec.getLsbD_zero) nofun
    rcases findWord_spec n bits iter.i with ⟨hw, hall⟩ | ⟨w, hw, hle, hlt, hne, hall⟩
    · right
      rw [hw]
      refine ⟨?_, _, rfl, fun j hj => absurd (hj.symm.trans BitVec.getLsbD_zero) nofun, ?_⟩
      · rintro y (⟨j, -, hj⟩ | ⟨hi, hn, hy⟩)
        · exact hnone j hj
        · rw [hall _ hi hn] at hy
          exact absurd (hy.symm.trans BitVec.getLsbD_zero) nofun
      · rintro y (⟨j, -, hj⟩ | ⟨hi, hn, -⟩)
        · exact absurd (hj.symm.trans BitVec.getLsbD_zero) nofun
        · have := Nat.le_max_right iter.i (bitsContainers n)
          dsimp only at hi
          omega
    · left
      rw [hw]
      have hword : Below ⟨bits w, w * 64, w + 1⟩ := by
        intro j hj
        have := BitVec.lt_of_getLsbD hj
        dsimp only
        omega
      obtain ⟨x, iter', htake, hbelow', hx, hmin, hrest⟩ :=
        takeBit_gave (n := n) hword hne
      -- what is ahead is not changed by the change to the next word
      have hsame : ∀ y, Ahead n bits ⟨bits w, w * 64, w + 1⟩ y ↔ Ahead n bits iter y := by
        intro y
        constructor
        · rintro (⟨j, rfl, hj⟩ | ⟨hi, hn, hy⟩)
          · have hj64 := BitVec.lt_of_getLsbD hj
            have hdiv : (w * 64 + j) / 64 = w := by omega
            have hmod : (w * 64 + j) % 64 = j := by omega
            refine .inr ⟨?_, ?_, ?_⟩
            · dsimp only
              omega
            · dsimp only
              omega
            · rw [hdiv, hmod]
              exact hj
          · dsimp only at hi
            exact .inr ⟨by omega, hn, hy⟩
        · rintro (⟨j, -, hj⟩ | ⟨hi, hn, hy⟩)
          · exact absurd hj (hnone j)
          · rcases Nat.lt_trichotomy (y / 64) w with h | h | h
            · rw [hall _ hi h] at hy
              exact absurd (hy.symm.trans BitVec.getLsbD_zero) nofun
            · refine .inl ⟨y % 64, ?_, ?_⟩
              · dsimp only
                omega
              · rw [h] at hy
                exact hy
            · exact .inr ⟨h, hn, hy⟩
      refine ⟨x, iter', htake, hbelow', (hsame x).mp hx, fun y hy => hmin y ((hsame y).mpr hy), ?_⟩
      exact fun y => (hrest y).trans (and_congr_left fun _ => hsame y)
  · rw [if_neg hleft]
    exact .inl (takeBit_gave hbelow hleft)

theorem nexts_eq {n : Nat} {bits : BitsWords} (k : Nat) {l : List Nat} {iter : Iterator}
    (hbelow : Below iter) (hl : l.Pairwise (· < ·)) (hmem : ∀ y, y ∈ l ↔ Ahead n bits iter y) :
    nexts n bits k iter =
      some (((l.map fun x : Nat => (x : Int)) ++ List.replicate k (-1)).take k) := by
  induction k generalizing l iter with
  | zero => simp [nexts]
  | succ k ih =>
    rw [nexts]
    rcases next_spec (n := n) hbelow with
      ⟨x, iter', hnext, hbelow', hx, hmin, hrest⟩ | ⟨hnone, iter', hnext, hbelow', hnone'⟩
    · cases l with
      | nil => exact absurd ((hmem x).mpr hx) List.not_mem_nil
      | cons a l =>
        obtain ⟨hal, hl'⟩ := List.pairwise_cons.mp hl
        have hxa : x = a := by
          have hle := hmin a ((hmem a).mp List.mem_cons_self)
          rcases List.mem_cons.mp ((hmem x).mpr hx) with h | h
          · exact h
          · have := hal x h
            omega
        subst hxa
        have hmem' : ∀ y, y ∈ l ↔ Ahead n bits iter' y := by
          intro y
          rw [hrest y, ← hmem y, List.mem_cons]
          constructor
          · intro hy
            have := hal y hy
            exact ⟨.inr hy, by omega⟩
          · rintro ⟨hy | hy, hne⟩
            · exact absurd hy hne
            · exact hy
        rw [hnext]
        simp only [Option.bind_eq_bind, Option.bind_some, ih hbelow' hl' hmem']
        simp [List.replicate_succ', ← List.append_assoc, List.take_append]
    · obtain rfl : l = [] := by
        refine List.eq_nil_iff_forall_not_mem.mpr fun y hy => hnone y ((hmem y).mp hy)
      rw [hnext]
      simp only [Option.bind_eq_bind, Option.bind_some,
        ih hbelow' List.Pairwise.nil fun y => ⟨fun h => absurd h List.not_mem_nil,
          fun h => absurd h (hnone' y)⟩]
      simp [List.replicate_succ]

theorem and_one_ne (x : BitVec 64) : (x &&& 1#64 != 0#64) = x.getLsbD 0 := by
  have hzero := and_mask_zero (k := 1) (by decide) x
  cases hbit : x.getLsbD 0 with
  | true =>
    refine bne_iff_ne.mpr fun h => ?_
    exact absurd (hbit.symm.trans (hzero.mp h 0 Nat.one_pos)) nofun
  | false =>
    refine bne_eq_false_iff_eq.mpr (hzero.mpr fun j hj => ?_)
    obtain rfl : j = 0 := by omega
    exact hbit

theorem get_eq {n : Nat} {bits : BitsWords} {present : Nat → Bool} (h : Holds n bits present)
    (i : Nat) : get n bits i = if i < n then some (present i) else none := by
  rw [get, and_one_ne, BitVec.getLsbD_ushiftRight, Nat.add_zero, h.1 i]

/-- After any calls the iterator gives the indices that are set, each once and in their order, and
then -1 for ever. -/
theorem iteration_exact (n : Nat) (cs : List Call) (bits : BitsWords)
    (hcs : calls n cs = some bits) :
    (∀ x, get n bits x = some true ↔ allMarked cs x = true) ∧
      ∃ l : List Nat, l.Pairwise (· < ·) ∧ (∀ x, x ∈ l ↔ get n bits x = some true) ∧
        ∀ k, nexts n bits k .init =
          some (((l.map fun x : Nat => (x : Int)) ++ List.replicate k (-1)).take k) := by
  have hholds := calls_hold (holds_clear n) hcs
  have hget : ∀ x, get n bits x = some true ↔ allMarked cs x = true := by
    intro x
    rw [get_eq hholds]
    split
    next => exact Option.some_inj
    next hx => exact ⟨nofun, fun h => absurd (hholds.2 x h) hx⟩
  refine ⟨hget, (List.range n).filter (allMarked cs), List.pairwise_lt_range.filter _,
    fun x => ?_, fun k => ?_⟩
  · rw [hget, List.mem_filter, List.mem_range]
    exact and_iff_right_of_imp (hholds.2 x)
  · refine nexts_eq k (fun j hj => absurd (hj.symm.trans BitVec.getLsbD_zero) nofun)
      (List.pairwise_lt_range.filter _) fun x => ?_
    rw [List.mem_filter, List.mem_range]
    constructor
    · rintro ⟨hx, hmark⟩
      refine .inr ⟨Nat.zero_le _, ?_, (hholds.1 x).trans hmark⟩
      rw [bitsContainers]
      omega
    · rintro (⟨j, -, hj⟩ | ⟨-, -, hx⟩)
      · exact absurd (hj.symm.trans BitVec.getLsbD_zero) nofun
      · have hmark := (hholds.1 x).symm.trans hx
        exact ⟨hholds.2 x hmark, hmark⟩

theorem iteration_exact_two :
    ∃ bits, calls 70 [.set 65, .getSet 3, .set 65] = some bits ∧
      ∃ l : List Nat, l.Pairwise (· < ·) ∧ ∀ x, x ∈ l ↔ get 70 bits x = some true := by
  obtain ⟨bits, hbits⟩ : ∃ bits, calls 70 [.set 65, .getSet 3, .set 65] = some bits := ⟨_, rfl⟩
  obtain ⟨-, l, hl, hmem, -⟩ := iteration_exact 70 _ bits hbits
  exact ⟨bits, hbits, l, hl, hmem⟩

end Bitsone

end Ucesb
