import Ucesb.AgeRing
import Ucesb.Runs
import Ucesb.ThreadBuffer

namespace Ucesb

def TbBuf.block (b : TbBuf) : AgeBlock Nat := ⟨b.id, b.size - tbBufSize⟩

def TbItem.piece (i : TbItem) : AgePiece Nat :=
  ⟨i.buf, i.start - tbBufSize, i.stop - tbBufSize, i.reclaim⟩

def tbBlocks (ring : List TbBuf) : List (AgeBlock Nat) := ring.map TbBuf.block

def tbPieces (live : List TbItem) : List (AgePiece Nat) := live.map TbItem.piece

def toReclaim (live : List TbItem) : Nat := costSum (tbPieces live)

def ThreadBuffer.curLeft (s : ThreadBuffer) : Nat := s.cur.size - s.curUsed

structure TbInv (s : ThreadBuffer) : Prop where
  used_ge : tbBufSize ≤ s.curUsed
  used_le : s.curUsed ≤ s.cur.size
  sizes : ∀ b ∈ s.ring, tbBufSize ≤ b.size ∧ b.size < 2 ^ 64
  nodup : (s.ring.map TbBuf.id).Nodup
  ids : ∀ b ∈ s.ring, b.id < s.fresh
  total : s.total = capSum (tbBlocks s.ring)
  total_lt : s.total < 2 ^ 64
  counts : s.allocated = s.reclaimed + toReclaim s.live
  space : toReclaim s.live + s.curLeft ≤ s.total
  laid : LaidOut (tbBlocks s.ring) (s.total - s.curLeft - toReclaim s.live) (tbPieces s.live)
  items : ∀ i ∈ s.live, tbBufSize ≤ i.start ∧ i.start + i.size ≤ i.stop
  latest : ∀ i, s.live.getLast? = some i → i.buf = s.cur.id ∧ i.stop = s.curUsed

theorem tbPieces_append (xs ys : List TbItem) :
    tbPieces (xs ++ ys) = tbPieces xs ++ tbPieces ys :=
  List.map_append

theorem costSum_tbPieces (live : List TbItem) : costSum (tbPieces live) = toReclaim live := rfl

theorem toReclaim_concat (live : List TbItem) (i : TbItem) :
    toReclaim (live ++ [i]) = toReclaim live + i.reclaim := by
  simp [toReclaim, tbPieces, TbItem.piece]

section Safe

variable {s : ThreadBuffer}

theorem TbInv.enter (h : TbInv s) (allocSize fresh : Nat) {left : List TbBuf} {next : TbBuf}
    {size total : Nat} (hrange : tbBufSize + alignSize size + 0x1000 < 2 ^ 64)
    (hsize : size ≤ alignSize size)
    (hleft : ∀ b ∈ left, b ∈ s.older) (hnodup : ((left ++ [s.cur] ++ [next]).map TbBuf.id).Nodup)
    (hids : ∀ b ∈ left ++ [s.cur] ++ [next], b.id < fresh)
    (hroom : tbBufSize + alignSize size ≤ next.size) (hnext : next.size < 2 ^ 64)
    (htotal : total = capSum (tbBlocks (left ++ [s.cur] ++ [next]))) (hlt : total < 2 ^ 64)
    (hspace : toReclaim s.live + s.curLeft ≤ capSum (tbBlocks (left ++ [s.cur])))
    (hlaid : LaidOut (tbBlocks (left ++ [s.cur]))
      (capSum (tbBlocks (left ++ [s.cur])) - s.curLeft - toReclaim s.live) (tbPieces s.live)) :
    TbInv { s.enter left next size s.curLeft with
      total := total, allocSize := allocSize, fresh := fresh } := by
  have hused : (tbBufSize + alignSize size) % 2 ^ 64 = tbBufSize + alignSize size :=
    Nat.mod_eq_of_lt (by omega)
  have hblocks : tbBlocks (left ++ [s.cur] ++ [next]) =
      tbBlocks (left ++ [s.cur]) ++ [next.block] :=
    List.map_append
  have hcap : next.block.cap = next.size - tbBufSize := rfl
  rw [hblocks, capSum_append, capSum_cons, capSum_nil] at htotal
  have hlive := toReclaim_concat s.live ⟨next.id, tbBufSize, size, tbBufSize + alignSize size,
    s.curLeft + alignSize size⟩
  dsimp only at hlive
  have hcur : ({ s.enter left next size s.curLeft with
      total := total, allocSize := allocSize, fresh := fresh } : ThreadBuffer).curLeft =
      next.size - (tbBufSize + alignSize size) := by
    simp only [ThreadBuffer.curLeft, ThreadBuffer.enter, hused]
  exact {
    used_ge := by
      simp only [ThreadBuffer.enter, hused]
      omega
    used_le := by
      simp only [ThreadBuffer.enter, hused]
      exact hroom
    sizes := by
      intro b hb
      rcases List.mem_append.mp hb with hb | hb
      · rcases List.mem_append.mp hb with hb | hb
        · exact h.sizes b (List.mem_append_left _ (hleft b hb))
        · exact h.sizes b (List.mem_append_right _ hb)
      · rw [List.mem_singleton] at hb
        subst hb
        exact ⟨Nat.le_trans (Nat.le_add_right _ _) hroom, hnext⟩
    nodup := hnodup
    ids := hids
    total := by
      dsimp only [ThreadBuffer.ring, ThreadBuffer.enter]
      rw [hblocks, capSum_append, capSum_cons, capSum_nil]
      exact htotal
    total_lt := hlt
    counts := by
      have hcounts := h.counts
      simp only [ThreadBuffer.enter, hlive]
      omega
    space := by
      rw [hcur]
      simp only [ThreadBuffer.enter, hlive]
      omega
    laid := by
      rw [hcur]
      simp only [ThreadBuffer.ring, ThreadBuffer.enter, hlive, hblocks]
      rw [show total - (next.size - (tbBufSize + alignSize size)) -
        (toReclaim s.live + (s.curLeft + alignSize size)) =
        capSum (tbBlocks (left ++ [s.cur])) - s.curLeft - toReclaim s.live by omega,
        tbPieces_append, laidOut_append, costSum_tbPieces]
      refine ⟨hlaid.appendBlock _, ?_, trivial⟩
      refine ⟨tbBlocks (left ++ [s.cur]), next.block, [], rfl, rfl, ?_, ?_, ?_, ?_⟩
      · simp only [TbItem.piece]
        omega
      · simp only [TbItem.piece]
        omega
      · simp only [TbItem.piece]
        omega
      · simp only [TbItem.piece]
        omega
    items := by
      intro i hi
      rcases List.mem_append.mp hi with hi | hi
      · exact h.items i hi
      · cases List.mem_singleton.mp hi
        dsimp only
        omega
    latest := by
      intro i hi
      simp only [ThreadBuffer.enter, List.getLast?_concat, Option.some.injEq] at hi
      subst hi
      exact ⟨rfl, hused.symm⟩ }

theorem TbInv.append (h : TbInv s) {size : Nat} (hsize : size ≤ alignSize size)
    (hroom : alignSize size ≤ s.curLeft) :
    TbInv { s with
      curUsed := s.curUsed + alignSize size
      allocated := s.allocated + alignSize size
      live := s.live ++
        [⟨s.cur.id, s.curUsed, size, s.curUsed + alignSize size, alignSize size⟩] } := by
  have hlive := toReclaim_concat s.live
    ⟨s.cur.id, s.curUsed, size, s.curUsed + alignSize size, alignSize size⟩
  have hspace := h.space
  have hge := h.used_ge
  have hle := h.used_le
  have hblocks : tbBlocks s.ring = tbBlocks s.older ++ [s.cur.block] := List.map_append
  have htotal := h.total
  rw [hblocks, capSum_append, capSum_cons, capSum_nil] at htotal
  have hcap : s.cur.block.cap = s.cur.size - tbBufSize := rfl
  unfold ThreadBuffer.curLeft at hroom hspace
  dsimp only at hlive
  exact { h with
    used_ge := by
      dsimp only
      omega
    used_le := by
      dsimp only
      omega
    counts := by
      have hcounts := h.counts
      dsimp only
      omega
    space := by
      dsimp only [ThreadBuffer.curLeft]
      omega
    laid := by
      have hlaid := h.laid
      unfold ThreadBuffer.curLeft at hlaid
      dsimp only [ThreadBuffer.curLeft, ThreadBuffer.ring]
      rw [hlive, show s.total - (s.cur.size - (s.curUsed + alignSize size)) -
        (toReclaim s.live + alignSize size) =
        s.total - (s.cur.size - s.curUsed) - toReclaim s.live by omega, tbPieces_append,
        laidOut_append, costSum_tbPieces]
      refine ⟨hlaid, ?_, trivial⟩
      refine ⟨tbBlocks s.older, s.cur.block, [], hblocks, rfl, ?_, ?_, ?_, ?_⟩
      · simp only [TbItem.piece]
        omega
      · simp only [TbItem.piece]
        omega
      · simp only [TbItem.piece]
        omega
      · simp only [TbItem.piece]
        omega
    items := by
      intro i hi
      rcases List.mem_append.mp hi with hi | hi
      · exact h.items i hi
      · cases List.mem_singleton.mp hi
        dsimp only
        omega
    latest := by
      intro i hi
      simp only [List.getLast?_concat, Option.some.injEq] at hi
      subst hi
      exact ⟨rfl, rfl⟩ }

theorem TbKept.of_ring {s' : ThreadBuffer} (hring : s'.ring = s.ring) (hcur : s'.cur = s.cur) :
    TbKept s s' where
  freed := by
    intro b hb hnot
    rw [hring] at hnot
    exact absurd hb hnot
  entered := by
    intro hne
    rw [hcur] at hne
    exact absurd rfl hne

theorem TbInv.reclaim (h : TbInv s) {s' : ThreadBuffer} (hs' : s.reclaim = some s') :
    TbInv s' ∧ TbKept s s' := by
  unfold ThreadBuffer.reclaim at hs'
  split at hs'
  · cases hs'
  · next i live hlive =>
    cases hs'
    refine ⟨?_, TbKept.of_ring rfl rfl⟩
    have hsum : toReclaim s.live = i.reclaim + toReclaim live := by
      rw [hlive]
      exact costSum_cons _ _
    have hspace := h.space
    have hcounts := h.counts
    have hlaid := h.laid
    exact { h with
      counts := by
        dsimp only
        omega
      space := by
        unfold ThreadBuffer.curLeft at *
        dsimp only
        omega
      laid := by
        rw [hlive] at hlaid
        have hrest := hlaid.2
        unfold ThreadBuffer.curLeft at *
        dsimp only [ThreadBuffer.ring]
        rw [← hlive] at hrest
        rwa [show s.total - (s.cur.size - s.curUsed) - toReclaim s.live + i.piece.cost =
          s.total - (s.cur.size - s.curUsed) - toReclaim live by
            dsimp only [TbItem.piece]
            omega] at hrest
      items := by
        intro j hj
        exact h.items j (by rw [hlive]; exact List.mem_cons_of_mem _ hj)
      latest := by
        intro j hj
        refine h.latest j ?_
        rw [hlive]
        cases live with
        | nil => cases hj
        | cons k live => rwa [List.getLast?_cons_cons] }

end Safe

end Ucesb
