import Mathlib.Data.List.Basic
import Mathlib.Tactic.Ring

namespace Ucesb

section Pieces

variable {α : Type}

def slice (data : List α) (offset len : Nat) : List α := (data.drop offset).take len

/-- `memmove` inside an array. -/
def memmove (data : List α) (dest src len : Nat) : List α :=
  data.take dest ++ slice data src len ++ data.drop (dest + len)

/-- The pieces follow each other between `lo` and `hi`. -/
def Laid (lo : Nat) : List (Nat × Nat) → Nat → Prop
  | [], hi => lo ≤ hi
  | (offset, len) :: ps, hi => lo ≤ offset ∧ Laid (offset + len) ps hi

def movePieces (data : List α) (dest : Nat) : List (Nat × Nat) → List α
  | [] => data
  | (offset, len) :: ps => movePieces (memmove data dest offset len) (dest + len) ps

def piecesLength (ps : List (Nat × Nat)) : Nat := (ps.map (·.2)).sum

def contents (data : List α) (ps : List (Nat × Nat)) : List α :=
  ps.flatMap fun p => slice data p.1 p.2

theorem laid_le {lo hi : Nat} {ps : List (Nat × Nat)} (h : Laid lo ps hi) : lo ≤ hi := by
  induction ps generalizing lo with
  | nil => exact h
  | cons p ps ih =>
    have := ih h.2
    have := h.1
    omega

theorem laid_mono {lo lo' hi hi' : Nat} {ps : List (Nat × Nat)} (h : Laid lo ps hi)
    (hlo : lo' ≤ lo) (hhi : hi ≤ hi') : Laid lo' ps hi' := by
  induction ps generalizing lo lo' with
  | nil => exact Nat.le_trans hlo (Nat.le_trans h hhi)
  | cons p ps ih => exact ⟨Nat.le_trans hlo h.1, ih h.2 (Nat.le_refl _)⟩

theorem laid_append {lo hi : Nat} {ps qs : List (Nat × Nat)} :
    Laid lo (ps ++ qs) hi ↔ ∃ mid, Laid lo ps mid ∧ Laid mid qs hi := by
  induction ps generalizing lo with
  | nil =>
    constructor
    · intro h
      exact ⟨lo, Nat.le_refl lo, h⟩
    · rintro ⟨mid, hlo, h⟩
      exact laid_mono h hlo (Nat.le_refl hi)
  | cons p ps ih =>
    constructor
    · rintro ⟨hp, h⟩
      obtain ⟨mid, h1, h2⟩ := ih.mp h
      exact ⟨mid, ⟨hp, h1⟩, h2⟩
    · rintro ⟨mid, ⟨hp, h1⟩, h2⟩
      exact ⟨hp, ih.mpr ⟨mid, h1, h2⟩⟩

theorem laid_sublist {lo hi : Nat} {ps qs : List (Nat × Nat)} (hs : List.Sublist ps qs)
    (h : Laid lo qs hi) : Laid lo ps hi := by
  induction hs generalizing lo with
  | slnil => exact h
  | cons q _ ih =>
    have hq := h.1
    exact laid_mono (ih h.2) (by omega) (Nat.le_refl hi)
  | cons_cons q _ ih => exact ⟨h.1, ih h.2⟩

theorem slice_length {data : List α} {offset len : Nat} (h : offset + len ≤ data.length) :
    (slice data offset len).length = len := by
  simp only [slice, List.length_take, List.length_drop]
  omega

theorem slice_append_left {data : List α} {offset len : Nat} (h : offset + len ≤ data.length)
    (ys : List α) : slice (data ++ ys) offset len = slice data offset len := by
  rw [slice, List.drop_append_of_le_length (by omega), List.take_append_of_le_length, slice]
  rw [List.length_drop]
  omega

theorem slice_congr {data data' : List α} {lo offset len : Nat} (hlo : lo ≤ offset)
    (h : data.drop lo = data'.drop lo) : slice data offset len = slice data' offset len := by
  obtain ⟨k, rfl⟩ := Nat.exists_eq_add_of_le hlo
  rw [slice, slice, ← List.drop_drop, ← List.drop_drop, h]

theorem contents_congr {data data' : List α} {lo hi : Nat} {ps : List (Nat × Nat)}
    (hl : Laid lo ps hi) (h : data.drop lo = data'.drop lo) :
    contents data ps = contents data' ps := by
  induction ps generalizing lo with
  | nil => rfl
  | cons p ps ih =>
    have hdrop : data.drop (p.1 + p.2) = data'.drop (p.1 + p.2) := by
      have hle : lo ≤ p.1 + p.2 := Nat.le_trans hl.1 (Nat.le_add_right _ _)
      obtain ⟨k, hk⟩ := Nat.exists_eq_add_of_le hle
      rw [hk, ← List.drop_drop, ← List.drop_drop, h]
    have htail : contents data ps = contents data' ps := ih hl.2 hdrop
    simp only [contents, List.flatMap_cons] at htail ⊢
    rw [slice_congr hl.1 h, htail]

theorem contents_length {data : List α} {lo hi : Nat} {ps : List (Nat × Nat)}
    (hl : Laid lo ps hi) (hhi : hi ≤ data.length) :
    (contents data ps).length = piecesLength ps := by
  induction ps generalizing lo with
  | nil => rfl
  | cons p ps ih =>
    have hle := laid_le hl.2
    have htail := ih hl.2
    simp only [contents, piecesLength] at htail
    simp [contents, piecesLength, slice_length (Nat.le_trans hle hhi), htail]

theorem movePieces_eq {data : List α} {dest lo hi : Nat} {ps : List (Nat × Nat)}
    (hl : Laid lo ps hi) (hdest : dest ≤ lo) (hhi : hi ≤ data.length) :
    movePieces data dest ps =
      data.take dest ++ contents data ps ++ data.drop (dest + piecesLength ps) := by
  induction ps generalizing data dest lo with
  | nil => simp [movePieces, contents, piecesLength]
  | cons p ps ih =>
    obtain ⟨offset, len⟩ := p
    obtain ⟨hlo, hrest⟩ := hl
    have hle := laid_le hrest
    have htk : (data.take dest).length = dest := by
      rw [List.length_take]
      omega
    have hsl : (slice data offset len).length = len := slice_length (by omega)
    have hpre : (data.take dest ++ slice data offset len).length = dest + len := by
      rw [List.length_append, htk, hsl]
    have hdrop : (memmove data dest offset len).drop (dest + len) = data.drop (dest + len) := by
      rw [memmove, ← hpre, List.drop_left]
    have htake : (memmove data dest offset len).take (dest + len) =
        data.take dest ++ slice data offset len := by
      rw [memmove, ← hpre, List.take_left]
    have hlen : (memmove data dest offset len).length = data.length := by
      rw [memmove, List.length_append, hpre, List.length_drop]
      omega
    have hcont : contents (memmove data dest offset len) ps = contents data ps :=
      contents_congr (laid_mono hrest (by omega) (Nat.le_refl hi)) hdrop
    rw [movePieces, ih hrest (by omega) (by omega), htake, hcont]
    have hdd : (memmove data dest offset len).drop (dest + len + piecesLength ps) =
        data.drop (dest + piecesLength ((offset, len) :: ps)) := by
      rw [← List.drop_drop, hdrop, List.drop_drop]
      simp [piecesLength, Nat.add_assoc]
    rw [hdd]
    simp [contents]

end Pieces

end Ucesb
