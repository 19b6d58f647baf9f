import Ucesb.StructSpec
import Mathlib.Tactic.Common
import Mathlib.Tactic.IntervalCases

namespace Ucesb

/-- `__BYTE_ORDER`, and the parameters of `__data_src`. -/
structure SrcMode where
  bigEndian : Bool
  swapping : Bool
  scramble : Bool

structure SrcBuffer where
  base : Nat
  aligned : 4 ∣ base
  bytes : List UInt8

def SrcBuffer.stop (b : SrcBuffer) : Nat := b.base + b.bytes.length

def SrcBuffer.load (b : SrcBuffer) (a n : Nat) : Option (List UInt8) :=
  if b.base ≤ a ∧ a + n ≤ b.stop then some ((b.bytes.drop (a - b.base)).take n) else none

def valueOf (bigEndian : Bool) (bs : List UInt8) : Nat :=
  (if bigEndian then bs else bs.reverse).foldl (fun v b => 256 * v + b.toNat) 0

def bswapWord16 (x : Nat) : Nat := 256 * (x % 256) + x / 256 % 256

def bswapWord32 (x : Nat) : Nat :=
  256 * (256 * (256 * (x % 256) + x / 256 % 256) + x / 65536 % 256) + x / 16777216 % 256

section Code

variable (m : SrcMode) (b : SrcBuffer)

def loadWord32 (src : Nat) : Option Nat :=
  (b.load src 4).map fun bs =>
    if m.swapping then bswapWord32 (valueOf m.bigEndian bs) else valueOf m.bigEndian bs

def loadWord : WordSize → Nat → Option Nat
  | .w8, src => (b.load (if m.scramble then src ^^^ 3 else src) 1).map (valueOf m.bigEndian)
  | .w16, src => (b.load (if m.scramble then src ^^^ 2 else src) 2).map fun bs =>
      if m.swapping then bswapWord16 (valueOf m.bigEndian bs) else valueOf m.bigEndian bs
  | .w32, src => loadWord32 m b src
  | .w64, src => do
    let first ← loadWord32 m b src
    let second ← loadWord32 m b (src + 4)
    some (if m.bigEndian ^^ !m.swapping then first <<< 32 ||| second else second <<< 32 ||| first)

structure SrcState where
  data : Nat
  thisRead : Int
  prevRead : Int

def SrcState.reading (s : SrcState) (mark : Int) : SrcState :=
  { s with prevRead := if s.thisRead ≥ 0 then s.thisRead else s.prevRead, thisRead := mark }

/-- `get_uint8` to `get_uint64` -/
def SrcState.get (s : SrcState) (size : WordSize) : Option (SrcState × Option Nat) :=
  let src := s.data
  let s := { s with data := s.data + size.bytes }
  if s.data > b.stop ∨ s.data % size.align ≠ 0 then some (s, none)
  else (loadWord m b size src).map fun v => (s.reading size.bytes, some v)

/-- `peek_uint8` to `peek_uint64` -/
def SrcState.peek (s : SrcState) (size : WordSize) : Option (SrcState × Option Nat) :=
  if s.data + size.bytes > b.stop ∨ s.data % size.align ≠ 0 then some (s, none)
  else (loadWord m b size s.data).map fun v => (s.reading (-size.bytes), some v)

def SrcState.advance (s : SrcState) (offset : Nat) : SrcState := { s with data := s.data + offset }

inductive SrcOp
  | get (size : WordSize)
  | peek (size : WordSize)
  | advance (size : WordSize)

def SrcState.step (s : SrcState) : SrcOp → Option (SrcState × Option Nat)
  | .get size => s.get m b size
  | .peek size => s.peek m b size
  | .advance size => some (s.advance size.bytes, none)

/-- The bytes of a word. When the source is scrambled, every 32-bit word has been turned round. -/
def itemBytes (size : WordSize) (a : Nat) : List UInt8 :=
  let place :=
    match m.scramble, size with
    | true, .w8 => 4 * (a / 4) + (3 - a % 4)
    | true, .w16 => 4 * (a / 4) + (2 - a % 4)
    | _, _ => a
  (b.bytes.drop (place - b.base)).take size.bytes

def storedNumber (size : WordSize) (a : Nat) : Nat :=
  valueOf (m.bigEndian ^^ m.swapping) (itemBytes m b size a)

/-- A value is the number that is stored, and looking at a word finds what getting it finds. -/
def SrcState.ReadRight (s : SrcState) (size : WordSize) (r : Option Nat) : Prop :=
  (∀ v, r = some v → v = storedNumber m b size s.data) ∧
    (∃ s', s.get m b size = some (s', r)) ∧ ∃ s', s.peek m b size = some (s', r)

def SrcState.StepRight (s : SrcState) : SrcOp → Option Nat → Prop
  | .get size, r | .peek size, r => s.ReadRight m b size r
  | .advance _, _ => True

def SrcState.RunRight (s : SrcState) : List SrcOp → Prop
  | [] => True
  | op :: ops => ∃ s' r, s.step m b op = some (s', r) ∧ s.StepRight m b op r ∧ s'.RunRight ops

/-- In a scrambled source a small word is inside of a 32-bit word that is whole, or at least on the side
of it that is there; the two halves of a 64-bit word are the same. -/
def WordMeets (a : Nat) : WordSize → Prop
  | .w8 => m.scramble = true → 4 * (a / 4) + (3 - a % 4) + 1 ≤ b.stop
  | .w16 => m.scramble = true → 4 * (a / 4) + (2 - a % 4) + 2 ≤ b.stop
  | .w32 => True
  | .w64 => b.load a 4 = b.load (a + 4) 4

def OpMeets (a : Nat) : SrcOp → Prop
  | .get size | .peek size => a + size.bytes ≤ b.stop → a % size.align = 0 → WordMeets m b a size
  | .advance _ => True

def SrcOp.moves : SrcOp → Nat
  | .get size | .advance size => size.bytes
  | .peek _ => 0

def RunMeets (a : Nat) : List SrcOp → Prop
  | [] => True
  | op :: ops => OpMeets m b a op ∧ RunMeets (a + op.moves) ops

end Code

section Words

variable {m : SrcMode} {b : SrcBuffer} {s : SrcState} {a : Nat}

theorem xor_low (a k : Nat) (hk : k < 4) : a ^^^ k = 4 * (a / 4) + (a % 4 ^^^ k) := by
  have hdiv : (a ^^^ k) / 4 = a / 4 := by
    have h := Nat.xor_div_two_pow (a := a) (b := k) (n := 2)
    rwa [Nat.div_eq_of_lt (show k < 2 ^ 2 from hk), Nat.xor_zero] at h
  have hmod : (a ^^^ k) % 4 = a % 4 ^^^ k := by
    have h := Nat.xor_mod_two_pow (a := a) (b := k) (n := 2)
    rwa [Nat.mod_eq_of_lt (show k < 2 ^ 2 from hk)] at h
  have hsplit := Nat.div_add_mod (a ^^^ k) 4
  rw [hdiv, hmod] at hsplit
  exact hsplit.symm

theorem xor_three (a : Nat) : a ^^^ 3 = 4 * (a / 4) + (3 - a % 4) := by
  rw [xor_low a 3 (by decide)]
  have hlt : a % 4 < 4 := Nat.mod_lt a (by decide)
  congr 1
  interval_cases a % 4 <;> rfl

theorem xor_two (a : Nat) (heven : a % 2 = 0) : a ^^^ 2 = 4 * (a / 4) + (2 - a % 4) := by
  rw [xor_low a 2 (by decide)]
  have hcases : a % 4 = 0 ∨ a % 4 = 2 := by omega
  rcases hcases with hr | hr
  · rw [hr]
    rfl
  · rw [hr]
    rfl

theorem add_bytes_mod (a : Nat) (size : WordSize) : (a + size.bytes) % size.align = a % size.align := by
  cases size with
  | w8 => exact Nat.add_mod_right a 1
  | w16 => exact Nat.add_mod_right a 2
  | w32 => exact Nat.add_mod_right a 4
  | w64 => exact Nat.add_mul_mod_self_left a 4 2

theorem load_eq_some {n : Nat} {bs : List UInt8} (h : b.load a n = some bs) :
    bs = (b.bytes.drop (a - b.base)).take n ∧ bs.length = n := by
  unfold SrcBuffer.load SrcBuffer.stop at h
  split at h
  · next hin =>
    obtain rfl := Option.some.inj h
    refine ⟨rfl, ?_⟩
    rw [List.length_take, List.length_drop]
    omega
  · cases h

theorem load_inside {n : Nat} (hlow : b.base ≤ a) (hhigh : a + n ≤ b.stop) :
    b.load a n = some ((b.bytes.drop (a - b.base)).take n) := if_pos ⟨hlow, hhigh⟩

theorem load_outside {n : Nat} (hhigh : ¬a + n ≤ b.stop) : b.load a n = none :=
  if_neg fun h => hhigh h.2

theorem exists_two {bs : List UInt8} (h : bs.length = 2) : ∃ x y, bs = [x, y] := by
  match bs, h with
  | [x, y], _ => exact ⟨x, y, rfl⟩

theorem exists_four {bs : List UInt8} (h : bs.length = 4) : ∃ x y z w, bs = [x, y, z, w] := by
  match bs, h with
  | [x, y, z, w], _ => exact ⟨x, y, z, w, rfl⟩

theorem valueOf_two (bigEndian : Bool) (x y : UInt8) :
    valueOf bigEndian [x, y] =
      if bigEndian then 256 * x.toNat + y.toNat else 256 * y.toNat + x.toNat := by
  cases bigEndian with
  | true => simp [valueOf]
  | false => simp [valueOf]

theorem valueOf_four (bigEndian : Bool) (x y z w : UInt8) :
    valueOf bigEndian [x, y, z, w] =
      if bigEndian then 256 * (256 * (256 * x.toNat + y.toNat) + z.toNat) + w.toNat
      else 256 * (256 * (256 * w.toNat + z.toNat) + y.toNat) + x.toNat := by
  cases bigEndian with
  | true => simp [valueOf]
  | false => simp [valueOf]

theorem bswapWord16_valueOf {bs : List UInt8} (h : bs.length = 2) (bigEndian swapping : Bool) :
    (if swapping then bswapWord16 (valueOf bigEndian bs) else valueOf bigEndian bs) =
      valueOf (bigEndian ^^ swapping) bs := by
  obtain ⟨x, y, rfl⟩ := exists_two h
  have hx := x.toNat_lt
  have hy := y.toNat_lt
  rw [valueOf_two, valueOf_two]
  unfold bswapWord16
  cases swapping with
  | false => simp
  | true =>
    cases bigEndian with
    | true =>
      simp
      omega
    | false =>
      simp
      omega

theorem bswapWord32_digits {x y z w : Nat} (hx : x < 256) (hy : y < 256) (hz : z < 256)
    (hw : w < 256) :
    bswapWord32 (256 * (256 * (256 * x + y) + z) + w) = 256 * (256 * (256 * w + z) + y) + x := by
  have h0 : (256 * (256 * (256 * x + y) + z) + w) % 256 = w := by omega
  have h1 : (256 * (256 * (256 * x + y) + z) + w) / 256 % 256 = z := by omega
  have h2 : (256 * (256 * (256 * x + y) + z) + w) / 65536 % 256 = y := by omega
  have h3 : (256 * (256 * (256 * x + y) + z) + w) / 16777216 % 256 = x := by omega
  rw [bswapWord32, h0, h1, h2, h3]

theorem bswapWord32_valueOf {bs : List UInt8} (h : bs.length = 4) (bigEndian swapping : Bool) :
    (if swapping then bswapWord32 (valueOf bigEndian bs) else valueOf bigEndian bs) =
      valueOf (bigEndian ^^ swapping) bs := by
  obtain ⟨x, y, z, w, rfl⟩ := exists_four h
  rw [valueOf_four, valueOf_four]
  cases swapping with
  | false => simp
  | true =>
    cases bigEndian with
    | true => exact bswapWord32_digits x.toNat_lt y.toNat_lt z.toNat_lt w.toNat_lt
    | false => exact bswapWord32_digits w.toNat_lt z.toNat_lt y.toNat_lt x.toNat_lt

theorem valueOf_four_lt {bs : List UInt8} (h : bs.length = 4) (bigEndian : Bool) :
    valueOf bigEndian bs < 2 ^ 32 := by
  obtain ⟨x, y, z, w, rfl⟩ := exists_four h
  have hx := x.toNat_lt
  have hy := y.toNat_lt
  have hz := z.toNat_lt
  have hw := w.toNat_lt
  rw [valueOf_four]
  split
  · omega
  · omega

theorem valueOf_four_inj {bs bs' : List UInt8} (h : bs.length = 4) (h' : bs'.length = 4)
    {bigEndian : Bool} (heq : valueOf bigEndian bs = valueOf bigEndian bs') : bs = bs' := by
  obtain ⟨x, y, z, w, rfl⟩ := exists_four h
  obtain ⟨x', y', z', w', rfl⟩ := exists_four h'
  have hx := x.toNat_lt
  have hy := y.toNat_lt
  have hz := z.toNat_lt
  have hw := w.toNat_lt
  have hx' := x'.toNat_lt
  have hy' := y'.toNat_lt
  have hz' := z'.toNat_lt
  have hw' := w'.toNat_lt
  have hsame : x.toNat = x'.toNat ∧ y.toNat = y'.toNat ∧ z.toNat = z'.toNat ∧
      w.toNat = w'.toNat := by
    rw [valueOf_four, valueOf_four] at heq
    split at heq
    · omega
    · omega
  simp only [UInt8.toNat_inj] at hsame
  obtain ⟨rfl, rfl, rfl, rfl⟩ := hsame
  rfl

theorem valueOf_eight {bs bs' : List UInt8} (h : bs.length = 4) (h' : bs'.length = 4)
    (bigEndian : Bool) :
    valueOf bigEndian (bs ++ bs') =
      if bigEndian then 2 ^ 32 * valueOf true bs + valueOf true bs'
      else 2 ^ 32 * valueOf false bs' + valueOf false bs := by
  obtain ⟨x, y, z, w, rfl⟩ := exists_four h
  obtain ⟨x', y', z', w', rfl⟩ := exists_four h'
  cases bigEndian with
  | true =>
    simp only [valueOf, List.cons_append, List.nil_append, if_true, List.foldl_cons,
      List.foldl_nil]
    omega
  | false =>
    simp only [valueOf, List.cons_append, List.nil_append, Bool.false_eq_true, if_false,
      List.reverse_cons, List.reverse_nil, List.foldl_cons, List.foldl_nil]
    omega

theorem shift_or_eq {first second : Nat} (h : second < 2 ^ 32) :
    first <<< 32 ||| second = 2 ^ 32 * first + second := by
  rw [← Nat.shiftLeft_add_eq_or_of_lt h, Nat.shiftLeft_eq, Nat.mul_comm]

end Words

section Steps

variable {m : SrcMode} {b : SrcBuffer} {s : SrcState} {a : Nat} {size : WordSize}

theorem loadWord32_eq {bs : List UInt8} (h : b.load a 4 = some bs) :
    loadWord32 m b a = some (valueOf (m.bigEndian ^^ m.swapping) bs) := by
  rw [loadWord32, h, Option.map_some, bswapWord32_valueOf (load_eq_some h).2]

theorem loadWord64_eq {first second : List UInt8} (h : b.load a 4 = some first)
    (h' : b.load (a + 4) 4 = some second) :
    loadWord m b .w64 a = some (valueOf (m.bigEndian ^^ m.swapping) (second ++ first)) := by
  have hfirst := (load_eq_some h).2
  have hsecond := (load_eq_some h').2
  unfold loadWord
  simp only [loadWord32_eq h, loadWord32_eq h', Option.bind_eq_bind, Option.bind_some,
    shift_or_eq (valueOf_four_lt hfirst _), shift_or_eq (valueOf_four_lt hsecond _),
    valueOf_eight hsecond hfirst]
  cases m.bigEndian with
  | true | false =>
    cases m.swapping with
    | true => rfl
    | false => rfl

theorem valueOf_one (bigEndian bigEndian' : Bool) {bs : List UInt8} (h : bs.length = 1) :
    valueOf bigEndian bs = valueOf bigEndian' bs := by
  match bs, h with
  | [x], _ =>
    cases bigEndian <;> cases bigEndian' <;> rfl

theorem load_map_iff {n place : Nat} {f : List UInt8 → Nat} {v : Nat} (hlow : b.base ≤ place)
    (hv : ∀ bs, b.load place n = some bs → f bs = v) :
    (b.load place n).map f = some v ↔ place + n ≤ b.stop := by
  by_cases hhigh : place + n ≤ b.stop
  · have hload := load_inside hlow hhigh
    exact iff_of_true (by rw [hload, Option.map_some, hv _ hload]) hhigh
  · exact iff_of_false (by rw [load_outside hhigh]; nofun) hhigh

theorem loadWord_right_iff (hlow : b.base ≤ a) (hhigh : a + size.bytes ≤ b.stop)
    (haligned : a % size.align = 0) :
    loadWord m b size a = some (storedNumber m b size a) ↔ WordMeets m b a size := by
  have hbase := b.aligned
  cases size with
  | w8 =>
    rw [loadWord]
    cases hscramble : m.scramble with
    | true =>
      rw [if_pos rfl, xor_three]
      refine (load_map_iff (by omega) fun bs hbs => ?_).trans ?_
      · obtain ⟨hbytes, hlength⟩ := load_eq_some hbs
        unfold storedNumber itemBytes
        rw [hscramble, valueOf_one _ (m.bigEndian ^^ m.swapping) hlength, hbytes]
        rfl
      · rw [WordMeets, hscramble]
        exact ⟨fun h _ => h, fun h => h rfl⟩
    | false =>
      rw [if_neg Bool.false_ne_true]
      refine (load_map_iff hlow fun bs hbs => ?_).trans ?_
      · obtain ⟨hbytes, hlength⟩ := load_eq_some hbs
        unfold storedNumber itemBytes
        rw [hscramble, valueOf_one _ (m.bigEndian ^^ m.swapping) hlength, hbytes]
        rfl
      · rw [WordMeets, hscramble]
        exact iff_of_true hhigh nofun
  | w16 =>
    have heven : a % 2 = 0 := haligned
    rw [loadWord]
    cases hscramble : m.scramble with
    | true =>
      rw [if_pos rfl, xor_two a heven]
      refine (load_map_iff (by omega) fun bs hbs => ?_).trans ?_
      · obtain ⟨hbytes, hlength⟩ := load_eq_some hbs
        unfold storedNumber itemBytes
        rw [hscramble, bswapWord16_valueOf hlength, hbytes]
        rfl
      · rw [WordMeets, hscramble]
        exact ⟨fun h _ => h, fun h => h rfl⟩
    | false =>
      rw [if_neg Bool.false_ne_true]
      refine (load_map_iff hlow fun bs hbs => ?_).trans ?_
      · obtain ⟨hbytes, hlength⟩ := load_eq_some hbs
        unfold storedNumber itemBytes
        rw [hscramble, bswapWord16_valueOf hlength, hbytes]
        rfl
      · rw [WordMeets, hscramble]
        exact iff_of_true hhigh nofun
  | w32 =>
    refine iff_of_true ?_ trivial
    rw [loadWord, loadWord32_eq (load_inside hlow hhigh)]
    unfold storedNumber itemBytes
    cases m.scramble with
    | true => rfl
    | false => rfl
  | w64 =>
    have hhigh : a + 8 ≤ b.stop := hhigh
    have hfirst := load_inside (b := b) (n := 4) hlow (by omega)
    have hsecond := load_inside (b := b) (a := a + 4) (n := 4) (by omega) (by omega)
    have hstored : storedNumber m b .w64 a = valueOf (m.bigEndian ^^ m.swapping)
        ((b.bytes.drop (a - b.base)).take 4 ++ (b.bytes.drop (a + 4 - b.base)).take 4) := by
      have hsplit : (b.bytes.drop (a - b.base)).take 8 =
          (b.bytes.drop (a - b.base)).take 4 ++ (b.bytes.drop (a + 4 - b.base)).take 4 := by
        rw [show a + 4 - b.base = a - b.base + 4 by omega, ← List.drop_drop]
        exact List.take_add (i := 4) (j := 4)
      rw [← hsplit]
      unfold storedNumber itemBytes
      cases m.scramble with
      | true => rfl
      | false => rfl
    rw [loadWord64_eq hfirst hsecond, hstored, WordMeets, hfirst, hsecond, Option.some_inj,
      Option.some_inj]
    have hlength := (load_eq_some hfirst).2
    have hlength' := (load_eq_some hsecond).2
    constructor
    · intro heq
      rw [valueOf_eight hlength' hlength, valueOf_eight hlength hlength'] at heq
      cases hbig : m.bigEndian ^^ m.swapping with
      | true =>
        rw [hbig] at heq
        simp only [if_true] at heq
        have hlt := valueOf_four_lt hlength true
        have hlt' := valueOf_four_lt hlength' true
        have hsame : valueOf true ((b.bytes.drop (a - b.base)).take 4) =
            valueOf true ((b.bytes.drop (a + 4 - b.base)).take 4) := by omega
        exact valueOf_four_inj hlength hlength' hsame
      | false =>
        rw [hbig] at heq
        simp only [Bool.false_eq_true, if_false] at heq
        have hlt := valueOf_four_lt hlength false
        have hlt' := valueOf_four_lt hlength' false
        have hsame : valueOf false ((b.bytes.drop (a - b.base)).take 4) =
            valueOf false ((b.bytes.drop (a + 4 - b.base)).take 4) := by omega
        exact valueOf_four_inj hlength hlength' hsame
    · intro heq
      rw [heq]

theorem get_eq (m : SrcMode) (b : SrcBuffer) (s : SrcState) (size : WordSize) :
    s.get m b size =
      if s.data + size.bytes ≤ b.stop ∧ s.data % size.align = 0 then
        (loadWord m b size s.data).map fun v =>
          ((s.advance size.bytes).reading size.bytes, some v)
      else some (s.advance size.bytes, none) := by
  unfold SrcState.get
  dsimp only
  rw [add_bytes_mod]
  split
  · rw [if_neg (by omega)]
    rfl
  · rw [if_pos (by omega)]
    rfl

theorem peek_eq (m : SrcMode) (b : SrcBuffer) (s : SrcState) (size : WordSize) :
    s.peek m b size =
      if s.data + size.bytes ≤ b.stop ∧ s.data % size.align = 0 then
        (loadWord m b size s.data).map fun v => (s.reading (-size.bytes), some v)
      else some (s, none) := by
  unfold SrcState.peek
  split
  · rw [if_neg (by omega)]
  · rw [if_pos (by omega)]

theorem readRight_iff (hlow : b.base ≤ s.data) :
    (∃ r, s.ReadRight m b size r) ↔
      (s.data + size.bytes ≤ b.stop → s.data % size.align = 0 →
        WordMeets m b s.data size) := by
  by_cases hin : s.data + size.bytes ≤ b.stop ∧ s.data % size.align = 0
  · have hright := loadWord_right_iff (m := m) hlow hin.1 hin.2
    constructor
    · rintro ⟨r, hvalue, ⟨s', hget⟩, -⟩ - -
      rw [get_eq, if_pos hin] at hget
      obtain ⟨v, hv, heq⟩ := Option.map_eq_some_iff.mp hget
      refine hright.mp ?_
      rw [hv, hvalue v (congrArg Prod.snd heq).symm]
    · intro hmeets
      have hload := hright.mpr (hmeets hin.1 hin.2)
      refine ⟨some (storedNumber m b size s.data), fun v hv => (Option.some.inj hv).symm, ?_, ?_⟩
      · exact ⟨_, by rw [get_eq, if_pos hin, hload]; rfl⟩
      · exact ⟨_, by rw [peek_eq, if_pos hin, hload]; rfl⟩
  · refine iff_of_true ?_ fun hhigh haligned => absurd ⟨hhigh, haligned⟩ hin
    refine ⟨none, nofun, ?_, ?_⟩
    · exact ⟨_, by rw [get_eq, if_neg hin]⟩
    · exact ⟨_, by rw [peek_eq, if_neg hin]⟩

theorem get_data {s' : SrcState} {r : Option Nat} (h : s.get m b size = some (s', r)) :
    s'.data = s.data + size.bytes := by
  rw [get_eq] at h
  split at h
  · obtain ⟨v, -, heq⟩ := Option.map_eq_some_iff.mp h
    cases heq
    rfl
  · cases h
    rfl

theorem peek_data {s' : SrcState} {r : Option Nat} (h : s.peek m b size = some (s', r)) :
    s'.data = s.data := by
  rw [peek_eq] at h
  split at h
  · obtain ⟨v, -, heq⟩ := Option.map_eq_some_iff.mp h
    cases heq
    rfl
  · cases h
    rfl

theorem step_data {op : SrcOp} {s' : SrcState} {r : Option Nat}
    (h : s.step m b op = some (s', r)) : s'.data = s.data + op.moves := by
  cases op with
  | get size => exact get_data h
  | peek size => exact peek_data h
  | advance size =>
    cases h
    rfl

theorem stepRight_iff (hlow : b.base ≤ s.data) (op : SrcOp) :
    (∃ s' r, s.step m b op = some (s', r) ∧ s.StepRight m b op r) ↔ OpMeets m b s.data op := by
  cases op with
  | get size =>
    refine Iff.trans ?_ (readRight_iff hlow)
    constructor
    · rintro ⟨s', r, -, hright⟩
      exact ⟨r, hright⟩
    · rintro ⟨r, hright⟩
      obtain ⟨s', hget⟩ := hright.2.1
      exact ⟨s', r, hget, hright⟩
  | peek size =>
    refine Iff.trans ?_ (readRight_iff hlow)
    constructor
    · rintro ⟨s', r, -, hright⟩
      exact ⟨r, hright⟩
    · rintro ⟨r, hright⟩
      obtain ⟨s', hpeek⟩ := hright.2.2
      exact ⟨s', r, hpeek, hright⟩
  | advance size => exact iff_of_true ⟨_, _, rfl, trivial⟩ trivial

theorem runRight_iff (hlow : b.base ≤ s.data) (ops : List SrcOp) :
    s.RunRight m b ops ↔ RunMeets m b s.data ops := by
  induction ops generalizing s with
  | nil => exact Iff.rfl
  | cons op ops ih =>
    rw [SrcState.RunRight, RunMeets, ← stepRight_iff hlow op]
    constructor
    · rintro ⟨s', r, hstep, hright, hrest⟩
      have hdata := step_data hstep
      rw [ih (by omega), hdata] at hrest
      exact ⟨⟨s', r, hstep, hright⟩, hrest⟩
    · rintro ⟨⟨s', r, hstep, hright⟩, hrest⟩
      have hdata := step_data hstep
      refine ⟨s', r, hstep, hright, ?_⟩
      rwa [ih (by omega), hdata]

end Steps

def SrcBuffer.start (b : SrcBuffer) : SrcState := ⟨b.base, 0, 0⟩

/-- All sequences of operations on a buffer. -/
theorem subevent_words_right_iff (m : SrcMode) (b : SrcBuffer) (ops : List SrcOp) :
    b.start.RunRight m b ops ↔ RunMeets m b b.base ops :=
  runRight_iff (Nat.le_refl _) ops

theorem halves_exchanged :
    ¬∀ (m : SrcMode) (b : SrcBuffer) (ops : List SrcOp), b.start.RunRight m b ops := by
  intro h
  have hright := h ⟨false, false, false⟩ ⟨0, ⟨0, rfl⟩, [1, 0, 0, 0, 0, 0, 0, 0]⟩ [.get .w64]
  obtain ⟨s', r, hstep, ⟨hvalue, -⟩, -⟩ := hright
  have hr : r = some (2 ^ 32) := (congrArg Prod.snd (Option.some.inj hstep)).symm
  exact absurd (hvalue _ hr) (by decide)

end Ucesb
