import Mathlib.Data.List.Basic
import Mathlib.Data.List.Nodup
import Mathlib.Tactic.Ring

namespace Ucesb

structure AgeBlock (ι : Type) where
  id : ι
  cap : Nat

structure AgePiece (ι : Type) where
  block : ι
  start : Nat
  stop : Nat
  cost : Nat

section AgeRing

variable {ι : Type} {blocks : List (AgeBlock ι)} {pieces : List (AgePiece ι)} {pos : Nat}

def capSum (blocks : List (AgeBlock ι)) : Nat := (blocks.map AgeBlock.cap).sum

@[simp] theorem capSum_nil : capSum ([] : List (AgeBlock ι)) = 0 := rfl

@[simp] theorem capSum_cons (b : AgeBlock ι) (blocks : List (AgeBlock ι)) :
    capSum (b :: blocks) = b.cap + capSum blocks := by
  simp [capSum]

@[simp] theorem capSum_append (xs ys : List (AgeBlock ι)) :
    capSum (xs ++ ys) = capSum xs + capSum ys := by
  simp [capSum]

def costSum (pieces : List (AgePiece ι)) : Nat := (pieces.map AgePiece.cost).sum

@[simp] theorem costSum_nil : costSum ([] : List (AgePiece ι)) = 0 := rfl

@[simp] theorem costSum_cons (p : AgePiece ι) (pieces : List (AgePiece ι)) :
    costSum (p :: pieces) = p.cost + costSum pieces := by
  simp [costSum]

@[simp] theorem costSum_append (xs ys : List (AgePiece ι)) :
    costSum (xs ++ ys) = costSum xs + costSum ys := by
  simp [costSum]

def Placed (blocks : List (AgeBlock ι)) (pos : Nat) (p : AgePiece ι) : Prop :=
  ∃ before b after, blocks = before ++ b :: after ∧ p.block = b.id ∧ p.start ≤ p.stop ∧
    p.stop ≤ b.cap ∧ pos ≤ capSum before + p.start ∧ capSum before + p.stop = pos + p.cost

def LaidOut (blocks : List (AgeBlock ι)) : Nat → List (AgePiece ι) → Prop
  | _, [] => True
  | pos, p :: pieces => Placed blocks pos p ∧ LaidOut blocks (pos + p.cost) pieces

theorem laidOut_append {xs ys : List (AgePiece ι)} :
    LaidOut blocks pos (xs ++ ys) ↔
      LaidOut blocks pos xs ∧ LaidOut blocks (pos + costSum xs) ys := by
  induction xs generalizing pos with
  | nil => simp [LaidOut]
  | cons x xs ih =>
    rw [List.cons_append, LaidOut, LaidOut, ih, costSum_cons, Nat.add_assoc, and_assoc]

theorem Placed.appendBlock {p : AgePiece ι} (h : Placed blocks pos p) (b : AgeBlock ι) :
    Placed (blocks ++ [b]) pos p := by
  obtain ⟨before, c, after, rfl, hrest⟩ := h
  exact ⟨before, c, after ++ [b], by simp, hrest⟩

theorem LaidOut.appendBlock (h : LaidOut blocks pos pieces) (b : AgeBlock ι) :
    LaidOut (blocks ++ [b]) pos pieces := by
  induction pieces generalizing pos with
  | nil => trivial
  | cons p pieces ih => exact ⟨h.1.appendBlock b, ih h.2⟩

theorem Placed.mem {p : AgePiece ι} (h : Placed blocks pos p) :
    ∃ b ∈ blocks, p.block = b.id ∧ p.start ≤ p.stop ∧ p.stop ≤ b.cap := by
  obtain ⟨before, b, after, rfl, hid, hle, hcap, -, -⟩ := h
  exact ⟨b, by simp, hid, hle, hcap⟩

theorem LaidOut.placed (h : LaidOut blocks pos pieces) {p : AgePiece ι} (hp : p ∈ pieces) :
    ∃ pos', pos ≤ pos' ∧ Placed blocks pos' p := by
  induction pieces generalizing pos with
  | nil => cases hp
  | cons q pieces ih =>
    rcases List.mem_cons.mp hp with rfl | hp
    · exact ⟨pos, Nat.le_refl _, h.1⟩
    · obtain ⟨pos', hle, hplaced⟩ := ih h.2 hp
      exact ⟨pos', by omega, hplaced⟩

theorem split_unique (hnodup : (blocks.map AgeBlock.id).Nodup)
    {before before' after after' : List (AgeBlock ι)} {b b' : AgeBlock ι}
    (h : blocks = before ++ b :: after) (h' : blocks = before' ++ b' :: after')
    (hid : b.id = b'.id) : before = before' ∧ b = b' := by
  induction before generalizing blocks before' with
  | nil =>
    cases before' with
    | nil =>
      rw [h] at h'
      cases h'
      exact ⟨rfl, rfl⟩
    | cons c before' =>
      rw [h] at h' hnodup
      cases h'
      rw [List.nil_append, List.map_cons, List.nodup_cons] at hnodup
      exact absurd (List.mem_map.mpr ⟨b', by simp, hid.symm⟩) hnodup.1
  | cons c before ih =>
    cases before' with
    | nil =>
      rw [h] at h' hnodup
      cases h'
      rw [List.cons_append, List.map_cons, List.nodup_cons] at hnodup
      exact absurd (List.mem_map.mpr ⟨b, by simp, hid⟩) hnodup.1
    | cons c' before' =>
      rw [h] at h' hnodup
      rw [List.cons_append, List.cons_append, List.cons.injEq] at h'
      rw [List.cons_append, List.map_cons, List.nodup_cons] at hnodup
      obtain ⟨hb, hbb⟩ := ih hnodup.2 rfl h'.2
      exact ⟨by rw [h'.1, hb], hbb⟩

theorem Placed.before (hnodup : (blocks.map AgeBlock.id).Nodup) {pos' : Nat} {p q : AgePiece ι}
    (hp : Placed blocks pos p) (hq : Placed blocks pos' q) (hle : pos + p.cost ≤ pos')
    (hblock : p.block = q.block) : p.stop ≤ q.start := by
  obtain ⟨before, b, after, hsplit, hid, -, -, -, hstop⟩ := hp
  obtain ⟨before', b', after', hsplit', hid', -, -, hstart, -⟩ := hq
  obtain ⟨rfl, -⟩ := split_unique hnodup hsplit hsplit' (by rw [← hid, hblock, hid'])
  omega

theorem LaidOut.pairwise (h : LaidOut blocks pos pieces)
    (hnodup : (blocks.map AgeBlock.id).Nodup) :
    pieces.Pairwise fun p q => p.block = q.block → p.stop ≤ q.start := by
  induction pieces generalizing pos with
  | nil => exact .nil
  | cons p pieces ih =>
    refine List.pairwise_cons.mpr ⟨?_, ih h.2⟩
    intro q hq hblock
    obtain ⟨pos', hle, hplaced⟩ := h.2.placed hq
    exact h.1.before hnodup hplaced hle hblock

end AgeRing

end Ucesb
