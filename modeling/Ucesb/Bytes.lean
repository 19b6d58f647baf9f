import Mathlib.Data.List.Basic
import Mathlib.Tactic.Ring

namespace Ucesb

/-- Little-endian bytes of a 16-bit quantity; larger values are truncated as by a store. -/
def le16 (n : Nat) : List UInt8 :=
  [UInt8.ofNat n, UInt8.ofNat (n / 256)]

/-- Little-endian bytes of a 32-bit quantity; larger values are truncated as by a store. -/
def le32 (n : Nat) : List UInt8 :=
  [UInt8.ofNat n, UInt8.ofNat (n / 256), UInt8.ofNat (n / 65536), UInt8.ofNat (n / 16777216)]

def rd16 : List UInt8 → Nat
  | a :: b :: _ => a.toNat + 256 * b.toNat
  | _ => 0

def rd32 : List UInt8 → Nat
  | a :: b :: c :: d :: _ => a.toNat + 256 * b.toNat + 65536 * c.toNat + 16777216 * d.toNat
  | _ => 0

def bswap32 : List UInt8 → List UInt8
  | a :: b :: c :: d :: rest => d :: c :: b :: a :: bswap32 rest
  | _ => []

/-- `bswap32` under a flag, as the copies of the source take it. -/
def swapIf (swap : Bool) (bs : List UInt8) : List UInt8 :=
  if swap then bswap32 bs else bs

@[simp] theorem le32_length (n : Nat) : (le32 n).length = 4 := rfl

theorem rd16_le16 (n : Nat) (rest : List UInt8) : rd16 (le16 n ++ rest) = n % 2 ^ 16 := by
  simp only [le16, rd16, List.cons_append, List.nil_append, UInt8.toNat_ofNat']
  omega

theorem rd32_le32 (n : Nat) (rest : List UInt8) : rd32 (le32 n ++ rest) = n % 2 ^ 32 := by
  simp only [le32, rd32, List.cons_append, List.nil_append, UInt8.toNat_ofNat']
  omega

theorem rd32_lt (bs : List UInt8) : rd32 bs < 2 ^ 32 := by
  unfold rd32
  split
  next a b c d _ =>
    have ha := a.toNat_lt
    have hb := b.toNat_lt
    have hc := c.toNat_lt
    have hd := d.toNat_lt
    omega
  next => omega

theorem wordInduction {motive : (xs : List UInt8) → 4 ∣ xs.length → Prop}
    (nil : motive [] (by simp))
    (word : ∀ a b c d rest (hr : 4 ∣ rest.length), motive rest hr →
      motive (a :: b :: c :: d :: rest) (by simp only [List.length_cons]; omega))
    (xs : List UInt8) (h : 4 ∣ xs.length) : motive xs h := by
  induction xs using bswap32.induct with
  | case1 a b c d rest ih =>
    have hr : 4 ∣ rest.length := by
      simp only [List.length_cons] at h
      omega
    exact word a b c d rest hr (ih hr)
  | case2 xs hshort =>
    match xs, hshort, h with
    | [], _, _ => exact nil
    | [_], _, h => simp at h
    | [_, _], _, h => simp at h
    | [_, _, _], _, h => simp at h
    | a :: b :: c :: d :: rest, hshort, _ => exact absurd rfl (hshort a b c d rest)

theorem bswap32_length {xs : List UInt8} (h : 4 ∣ xs.length) :
    (bswap32 xs).length = xs.length := by
  induction xs, h using wordInduction with
  | nil => rfl
  | word a b c d rest _ ih => simp [bswap32, ih]

@[simp] theorem swapIf_false (bs : List UInt8) : swapIf false bs = bs := rfl

theorem swapIf_length (swap : Bool) {xs : List UInt8} (h : 4 ∣ xs.length) :
    (swapIf swap xs).length = xs.length := by
  cases swap
  · rfl
  · exact bswap32_length h

end Ucesb
