import Ucesb.StickyRun

namespace Ucesb

/-- How many bytes of an array of `n` no piece covers. -/
def uncovered (n : Nat) (ps : List (Nat × Nat)) : Nat :=
  (List.range n).countP fun i => ps.all fun p => !decide (p.1 ≤ i ∧ i < p.1 + p.2)

def MetaEntry.isLive : MetaEntry → Bool
  | .event ev => decide (ev.liveSub ≠ 0)
  | .subevent sev => sev.isLive

structure StickyStore.Accounted (s : StickyStore) : Prop where
  data : s.dataRevoked = uncovered s.data.length (piecesOf s.groups)
  metas : s.metaRevoked = sizeofMetaEntry * s.metas.countP (! ·.isLive)
  hash : s.hashUsed = (usedOf s.hash).length
  filled : s.hashUsed = filled s.hash

theorem uncovered_from {lo hi n : Nat} {ps : List (Nat × Nat)} (h : Laid lo ps hi)
    (hn : hi ≤ n) :
    ((List.range' lo (n - lo)).countP fun i =>
        ps.all fun p => !decide (p.1 ≤ i ∧ i < p.1 + p.2)) + piecesLength ps = n - lo := by
  induction ps generalizing lo with
  | nil => simp [piecesLength]
  | cons p ps ih =>
    obtain ⟨o, len⟩ := p
    have hlo := h.1
    have hend := laid_le h.2
    have hsplit : List.range' lo (n - lo) =
        List.range' lo (o - lo) ++ (List.range' o len ++ List.range' (o + len) (n - (o + len))) := by
      rw [List.range'_append_1]
      have hmid : o = lo + (o - lo) := by omega
      conv_rhs => rw [hmid]
      rw [Nat.add_sub_cancel_left, List.range'_append_1]
      congr 1
      omega
    have hbefore : (List.range' lo (o - lo)).countP (fun i =>
        ((o, len) :: ps).all fun p => !decide (p.1 ≤ i ∧ i < p.1 + p.2)) = o - lo := by
      rw [List.countP_eq_length.mpr, List.length_range']
      intro i hi
      rw [List.mem_range'_1] at hi
      rw [List.all_eq_true]
      intro p hp
      have hge : o ≤ p.1 := by
        rcases List.mem_cons.mp hp with rfl | hp
        · exact Nat.le_refl o
        · have := laid_ge h.2 p hp
          omega
      simp
      omega
    have hin : (List.range' o len).countP (fun i =>
        ((o, len) :: ps).all fun p => !decide (p.1 ≤ i ∧ i < p.1 + p.2)) = 0 := by
      rw [List.countP_eq_zero]
      intro i hi
      rw [List.mem_range'_1] at hi
      simp [hi.1, hi.2]
    have hafter : (List.range' (o + len) (n - (o + len))).countP (fun i =>
          ((o, len) :: ps).all fun p => !decide (p.1 ≤ i ∧ i < p.1 + p.2)) =
        (List.range' (o + len) (n - (o + len))).countP fun i =>
          ps.all fun p => !decide (p.1 ≤ i ∧ i < p.1 + p.2) := by
      apply List.countP_congr
      intro i hi
      rw [List.mem_range'_1] at hi
      have hout : decide (o ≤ i ∧ i < o + len) = false := by
        rw [decide_eq_false_iff_not]
        omega
      rw [List.all_cons, hout]
      simp
    have htail := ih h.2
    rw [hsplit, List.countP_append, List.countP_append, hbefore, hin, hafter, piecesLength_cons]
    omega

theorem uncovered_laid {hi n : Nat} {ps : List (Nat × Nat)} (h : Laid 0 ps hi) (hn : hi ≤ n) :
    uncovered n ps + piecesLength ps = n := by
  have hfrom := uncovered_from h hn
  rw [Nat.sub_zero, ← List.range_eq_range'] at hfrom
  exact hfrom

/-- Where the live subevents are in `_meta`. -/
def liveOffsets (pos : Nat) (gs : List MetaGroup) : List Nat := (itemsOf [] pos gs).map (·.1)

theorem items_offsets (data : List UInt8) (pos : Nat) (gs : List MetaGroup) :
    (itemsOf data pos gs).map (·.1) = liveOffsets pos gs := by
  rw [liveOffsets]
  induction gs generalizing pos with
  | nil => rfl
  | cons g gs ih =>
    rw [itemsOf, itemsOf, List.map_append, List.map_append, ih]
    congr 1
    exact subItems_fst rfl

theorem liveOffsets_relocate (dest pos : Nat) (gs : List MetaGroup) :
    liveOffsets pos (relocateGroups dest gs) = liveOffsets pos gs :=
  relocateGroups_fst [] [] dest pos gs

theorem liveOffsets_nodup (pos : Nat) (gs : List MetaGroup) : (liveOffsets pos gs).Nodup :=
  itemsOf_fst_nodup [] pos gs

theorem liveSubs_offsets {pos : Nat} {gs : List MetaGroup} (h : GroupsOk (fun _ => 0) pos gs) :
    (liveSubs pos gs).map (·.1) = liveOffsets pos gs := by
  have hsub : ∀ (i : Nat) (header : List UInt8) (subs : List MetaSubevent),
      ((subs.zipIdx i).filterMap fun p => p.1.dataOffset.map fun d => (p.2, d)).map (·.1) =
        (subItems [] header i subs).map (·.1) := by
    intro i header subs
    induction subs generalizing i with
    | nil => rfl
    | cons sev subs ih =>
      cases hd : sev.dataOffset <;> simp [List.zipIdx_cons, subItems, hd, ih]
  rw [liveOffsets]
  induction gs generalizing pos with
  | nil => rfl
  | cons g gs ih =>
    have hpos : pos + g.entries.length = pos + 1 + g.subs.length := by
      rw [entries_length]
      omega
    have htail := ih h.2
    rw [hpos] at htail
    rw [liveSubs, itemsOf, hpos, List.map_append, List.map_append, htail]
    congr 1
    by_cases hz : g.ev.liveSub = 0
    · have hs : subItems [] (g.header []) (pos + 1) g.subs = [] := by
        apply List.map_eq_nil_iff.mp
        rw [subItems_snd, subPieces_eq_nil h.1 hz, List.map_nil]
      rw [if_pos hz, hs]
      rfl
    · rw [if_neg hz]
      exact hsub (pos + 1) (g.header []) g.subs

structure CountOk (hash : List (HashSlot Nat)) (used pend : Nat) (offs : List Nat) : Prop where
  size : hash = [] ∨ ∃ k, hash.length = 2 ^ k
  clean : HashSlot.discarded ∉ hash
  exact : (usedOf hash).Perm offs
  count : used = offs.length
  room : used + pend ≤ hash.length / 2

theorem countOk_filled {hash : List (HashSlot Nat)} {used pend : Nat} {offs : List Nat}
    (h : CountOk hash used pend offs) : filled hash = used := by
  rw [filled_eq_usedOf h.clean, h.exact.length_eq, h.count]

theorem populateHash_count {k : Nat} {L : List (Nat × Nat)} {s : StickyStore}
    (hn : s.hash.length = 2 ^ k) (hclean : HashSlot.discarded ∉ s.hash)
    (hused : filled s.hash = s.hashUsed) (hroom : s.hashUsed + L.length ≤ s.hash.length / 2) :
    ∃ t, L.foldlM (fun (s : StickyStore) (p : Nat × Nat) => s.insertHash p.1 p.2) s =
        .ok { s with hash := t, hashUsed := s.hashUsed + L.length } ∧
      t.length = s.hash.length ∧ HashSlot.discarded ∉ t ∧
      (usedOf t).Perm (usedOf s.hash ++ L.map (·.1)) := by
  induction L generalizing s with
  | nil => exact ⟨s.hash, by simp; rfl, rfl, hclean, by simp⟩
  | cons p L ih =>
    rw [List.length_cons] at hroom
    have hpos := Nat.two_pow_pos k
    obtain ⟨i, slot, hfree, hi, hslot, _⟩ :=
      findFree_spec hn (by omega) (stickySubeventHash (s.data.drop p.2))
    have hstep : s.insertHash p.1 p.2 =
        .ok { s with hash := s.hash.set i (.used p.1), hashUsed := s.hashUsed + 1 } := by
      rw [StickyStore.insertHash, hfree]
    have hclean' := discarded_notMem_set hclean i p.1
    have hput := @usedOf_put _ _ _ _ p.1 hi hslot
    have hfill : filled (s.hash.set i (.used p.1)) = s.hashUsed + 1 := by
      rw [filled_eq_usedOf hclean', hput.length_eq, List.length_append, ← filled_eq_usedOf hclean,
        hused]
      rfl
    obtain ⟨t, hfold, hlen, hct, hperm⟩ :=
      @ih { s with hash := s.hash.set i (.used p.1), hashUsed := s.hashUsed + 1 }
        (by rw [← hn]; simp) hclean' hfill (by simp only [List.length_set]; omega)
    refine ⟨t, ?_, by simpa using hlen, hct, ?_⟩
    · have hsum : s.hashUsed + (p :: L).length = s.hashUsed + 1 + L.length := by
        rw [List.length_cons]
        omega
      rw [List.foldlM_cons, hstep, hsum]
      exact hfold
    · have happ := hput.append_right (L.map (·.1))
      rw [List.append_assoc, List.singleton_append] at happ
      exact hperm.trans happ

theorem populateHash_countOk {s : StickyStore} {gs : List MetaGroup} {o top pend : Nat}
    (h : CoreInv s gs o 0 top) (hn : s.hash = [] ∨ ∃ k, s.hash.length = 2 ^ k)
    (hroom : (liveOffsets 0 gs).length + pend ≤ s.hash.length / 2) :
    ∃ t, s.populateHash = .ok { s with hash := t, hashUsed := (liveOffsets 0 gs).length } ∧
      t.length = s.hash.length ∧ CountOk t (liveOffsets 0 gs).length pend (liveOffsets 0 gs) := by
  have hfst := liveSubs_offsets (coreInv_groups h)
  have hlen : (liveSubs 0 gs).length = (liveOffsets 0 gs).length := by
    rw [← hfst, List.length_map]
  have hclean : HashSlot.discarded ∉ List.replicate s.hash.length (.empty : HashSlot Nat) := by
    intro hm
    cases List.eq_of_mem_replicate hm
  have hrep : filled (List.replicate s.hash.length (.empty : HashSlot Nat)) = 0 := by
    rw [filled_eq_usedOf hclean, usedOf_replicate_empty]
    rfl
  rcases hn with hn | ⟨k, hn⟩
  · have hz : liveOffsets 0 gs = [] := by
      apply List.length_eq_zero_iff.mp
      simp [hn] at hroom
      simp [hroom]
    have hL : liveSubs 0 gs = [] := by
      rw [hz] at hfst
      exact List.map_eq_nil_iff.mp hfst
    rw [hz] at hroom ⊢
    refine ⟨[], ?_, by simp [hn], .inl rfl, by simp, List.Perm.nil, rfl, ?_⟩
    · simp [StickyStore.populateHash, coreInv_iter h, hL, hn]
      rfl
    · simpa [hn] using hroom
  · obtain ⟨t, hfold, htlen, hct, hperm⟩ := @populateHash_count k (liveSubs 0 gs)
      { s with hash := List.replicate s.hash.length .empty, hashUsed := 0 }
      (by simpa using hn) hclean hrep (by simp only [List.length_replicate]; omega)
    simp only [usedOf_replicate_empty, List.length_replicate, Nat.zero_add, List.nil_append,
      hlen, hfst] at hfold htlen hperm
    refine ⟨t, ?_, htlen, .inr ⟨k, htlen.trans hn⟩, hct, hperm, rfl, by omega⟩
    rw [StickyStore.populateHash, coreInv_iter h]
    exact hfold

/-- What is not live has been counted. `E` bounds the pieces. -/
structure AccountInv (s : StickyStore) (gs : List MetaGroup) (openPos pend top E : Nat) : Prop
    extends CoreInv s gs openPos pend top where
  data : s.dataRevoked + piecesLength (piecesOf gs) = top
  dead : s.metaRevoked = sizeofMetaEntry * s.metas.countP (! ·.isLive)
  table : CountOk s.hash s.hashUsed pend (liveOffsets 0 gs)
  piece : ∀ p ∈ piecesOf gs, p.2 ≤ E

theorem accountInv_empty (E : Nat) : AccountInv StickyStore.empty [] 0 0 0 E :=
  ⟨storeInv_empty.toCoreInv, rfl, rfl,
    ⟨.inl rfl, by simp [StickyStore.empty], List.Perm.nil, rfl, Nat.le_refl 0⟩, by simp⟩

theorem accounted_of_inv {s : StickyStore} {gs : List MetaGroup} {o E : Nat}
    (h : AccountInv s gs o 0 s.data.length E) : s.Accounted := by
  have hun := uncovered_laid h.laid (Nat.le_refl _)
  have hdata := h.data
  refine ⟨?_, h.dead, ?_, (countOk_filled h.table).symm⟩
  · rw [coreInv_iter h.toCoreInv]
    omega
  · rw [h.table.exact.length_eq, h.table.count]

section Reserve

variable {s : StickyStore} {gs : List MetaGroup} {o top E : Nat}

theorem growSize_le {need fuel sz : Nat} :
    growSize (fun sz => decide (need > sz)) fuel sz ≤ max sz (2 * need) := by
  induction fuel generalizing sz with
  | zero => exact Nat.le_max_left _ _
  | succ fuel ih =>
    rw [growSize]
    split
    next hs =>
      have hlt : need > sz := by simpa using hs
      have hle := @ih (sz * 2)
      omega
    next => exact Nat.le_max_left _ _

theorem relocateSubs_lengths (dest : Nat) (subs : List MetaSubevent) :
    (subPieces (relocateSubs dest subs)).map (·.2) = (subPieces subs).map (·.2) := by
  induction subs generalizing dest with
  | nil => rfl
  | cons sev subs ih =>
    simp only [subPieces] at ih
    cases hd : sev.dataOffset <;> simp [relocateSubs, subPieces, hd, ih]

theorem relocateGroups_lengths (dest : Nat) (gs : List MetaGroup) :
    (piecesOf (relocateGroups dest gs)).map (·.2) = (piecesOf gs).map (·.2) := by
  induction gs generalizing dest with
  | nil => rfl
  | cons g gs ih =>
    by_cases hz : g.ev.liveSub = 0
    · simp [relocateGroups, hz, MetaGroup.pieces, ih]
    · simp [relocateGroups, hz, MetaGroup.pieces, ih, relocateSubs_lengths]

theorem relocateGroups_dead (dest : Nat) (gs : List MetaGroup) :
    (flatMetas (relocateGroups dest gs)).countP (! ·.isLive) =
      (flatMetas gs).countP (! ·.isLive) := by
  have hsubs : ∀ (dest : Nat) (subs : List MetaSubevent),
      ((relocateSubs dest subs).map MetaEntry.subevent).countP (! ·.isLive) =
        (subs.map MetaEntry.subevent).countP (! ·.isLive) := by
    intro dest subs
    have h := congrArg (List.countP (! ·)) (relocateSubs_isLive dest subs)
    simpa [List.countP_map, Function.comp_def, MetaEntry.isLive] using h
  induction gs generalizing dest with
  | nil => rfl
  | cons g gs ih =>
    by_cases hz : g.ev.liveSub = 0
    · rw [relocateGroups, if_pos hz, flatMetas_cons, flatMetas_cons, List.countP_append,
        List.countP_append, ih]
    · rw [relocateGroups, if_neg hz, flatMetas_cons, flatMetas_cons, List.countP_append,
        List.countP_append, ih, MetaGroup.entries, MetaGroup.entries, List.countP_cons,
        List.countP_cons, hsubs]
      rfl

theorem compactData_account (h : AccountInv s gs o 0 top E) :
    AccountInv s.compactData (relocateGroups 0 gs) o 0 s.compactData.data.length E ∧
      s.compactData.data.length = piecesLength (piecesOf gs) := by
  have hcore := compactData_core h.toCoreInv
  have hlen := contents_length h.laid h.top_le
  have hmap := relocateGroups_lengths 0 gs
  rw [compactData_eq h.toCoreInv] at hcore ⊢
  refine ⟨⟨hcore, ?_, ?_, ?_, ?_⟩, hlen⟩
  · simp only [hlen, piecesLength, hmap, Nat.zero_add]
  · simp only [relocateGroups_dead, h.dead, h.metas]
  · rw [liveOffsets_relocate]
    exact h.table
  · intro p hp
    have hm : p.2 ∈ (piecesOf gs).map (·.2) := hmap ▸ List.mem_map_of_mem hp
    obtain ⟨q, hq, he⟩ := List.mem_map.mp hm
    exact he ▸ h.piece q hq

theorem reserveData_account (h : AccountInv s gs o 0 s.data.length E) (evLen : Nat) :
    ∃ gs', AccountInv (s.reserveData evLen) gs' o 0 (s.reserveData evLen).data.length E ∧
      (s.reserveData evLen).dataAlloc ≤
        max s.dataAlloc (max 1024 (2 * (2 * piecesLength (piecesOf gs) + evLen))) ∧
      (s.reserveData evLen).metaAlloc = s.metaAlloc ∧ (s.reserveData evLen).hash = s.hash ∧
      liveOffsets 0 gs' = liveOffsets 0 gs ∧
      (piecesOf gs').map (·.2) = (piecesOf gs).map (·.2) := by
  have hdata := h.data
  rw [StickyStore.reserveData]
  split
  next =>
    by_cases hdue : s.dataRevoked > s.data.length / 2
    · obtain ⟨hinv, hlen⟩ := compactData_account h
      rw [if_pos hdue]
      refine ⟨_, ⟨⟨hinv.metas, hinv.groups, hinv.laid, hinv.top_le, hinv.header⟩, hinv.data,
        hinv.dead, hinv.table, hinv.piece⟩, ?_, rfl, rfl, liveOffsets_relocate 0 0 gs,
        relocateGroups_lengths 0 gs⟩
      have hgrow := @growSize_le (s.compactData.data.length + evLen)
        (s.compactData.data.length + evLen) (max s.compactData.dataAlloc 1024)
      have hkeep : s.compactData.dataAlloc = s.dataAlloc := rfl
      simp only
      omega
    · rw [if_neg hdue]
      refine ⟨gs, ⟨⟨h.metas, h.groups, h.laid, h.top_le, h.header⟩, h.data, h.dead, h.table,
        h.piece⟩, ?_, rfl, rfl, rfl, rfl⟩
      have hgrow := @growSize_le (s.data.length + evLen) (s.data.length + evLen)
        (max s.dataAlloc 1024)
      simp only
      omega
  next => exact ⟨gs, h, Nat.le_max_left _ _, rfl, rfl, rfl, rfl⟩

theorem accountInv_append_data (h : AccountInv s gs o 0 top E) (raw : List UInt8) :
    AccountInv { s with data := s.data ++ raw } gs o 0 top E := by
  refine ⟨⟨h.metas, h.groups, h.laid, ?_, h.header⟩, h.data, h.dead, h.table, h.piece⟩
  rw [List.length_append]
  exact Nat.le_trans h.top_le (Nat.le_add_right _ _)

theorem live_entries {pos : Nat} {gs : List MetaGroup} (h : GroupsOk (fun _ => 0) pos gs) :
    (flatMetas gs).countP (·.isLive) = (piecesOf gs).length := by
  induction gs generalizing pos with
  | nil => rfl
  | cons g gs ih =>
    have hsubs : (g.subs.map MetaEntry.subevent).countP (·.isLive) = (subPieces g.subs).length := by
      rw [subPieces_length, List.countP_map]
      rfl
    rw [flatMetas_cons, piecesOf_cons, List.countP_append, List.length_append, ih h.2,
      MetaGroup.entries, List.countP_cons, hsubs, MetaGroup.pieces]
    by_cases hz : g.ev.liveSub = 0
    · rw [subPieces_eq_nil h.1 hz]
      simp [MetaEntry.isLive, hz]
    · simp [MetaEntry.isLive, hz]

theorem pieces_length_le {pos : Nat} {gs : List MetaGroup} (h : GroupsOk (fun _ => 0) pos gs) :
    (piecesOf gs).length ≤ 2 * (liveOffsets pos gs).length := by
  induction gs generalizing pos with
  | nil => exact Nat.zero_le _
  | cons g gs ih =>
    have hcount := congrArg List.length (subItems_snd [] (g.header []) (pos + 1) g.subs)
    have htail := ih h.2
    have hlive : g.ev.liveSub = g.subs.countP (·.isLive) + 0 := h.1.liveSub
    rw [List.length_map, List.length_map, subPieces_length] at hcount
    rw [liveOffsets, List.length_map] at htail
    rw [liveOffsets, List.length_map, itemsOf, piecesOf_cons, List.length_append,
      List.length_append, MetaGroup.pieces]
    split
    · simp only [List.length_nil]
      omega
    · rw [List.length_cons, subPieces_length]
      omega

theorem dead_add_live (metas : List MetaEntry) :
    metas.countP (! ·.isLive) + metas.countP (·.isLive) = metas.length := by
  rw [Nat.add_comm, eq_comm]
  simpa using List.length_eq_countP_add_countP (fun x : MetaEntry => x.isLive)

theorem compactMetaGroups_dead (dest : Nat) (gs : List MetaGroup) :
    (flatMetas (compactMetaGroups dest gs)).countP (! ·.isLive) = 0 := by
  induction gs generalizing dest with
  | nil => rfl
  | cons g gs ih =>
    by_cases hz : g.ev.liveSub = 0
    · rw [compactMetaGroups, if_pos hz, ih]
    · rw [compactMetaGroups, if_neg hz, flatMetas_cons, List.countP_append, ih, Nat.add_zero,
        List.countP_eq_zero]
      intro x hx
      rcases List.mem_cons.mp hx with rfl | hx
      · simp [MetaEntry.isLive, hz]
      · obtain ⟨sev, hsev, rfl⟩ := List.mem_map.mp hx
        obtain ⟨old, hold, rfl⟩ := List.mem_map.mp hsev
        have hl := (List.mem_filter.mp hold).2
        have hlive : MetaEntry.isLive (.subevent { old with evOffset := dest }) = true := hl
        rw [hlive]
        simp

theorem liveOffsets_length (data : List UInt8) (pos : Nat) (gs : List MetaGroup) :
    (liveOffsets pos gs).length = (carried data gs).length := by
  rw [← items_offsets data, ← itemsOf_snd data pos, List.length_map, List.length_map]

theorem reserveMeta_account {s' : StickyStore} {metaAdd : Nat} {recalc : Bool}
    (h : AccountInv s gs o 0 top E) (hr : s.reserveMeta metaAdd = (s', recalc)) :
    ∃ gs' metas n alloc, s' = { s with metas := metas, metaRevoked := n, metaAlloc := alloc } ∧
      CoreInv s' gs' o 0 top ∧ piecesOf gs' = piecesOf gs ∧
      n = sizeofMetaEntry * metas.countP (! ·.isLive) ∧
      (liveOffsets 0 gs').length = (liveOffsets 0 gs).length ∧ (recalc = false → gs' = gs) ∧
      alloc ≤ max s.metaAlloc (max 256 (2 * (2 * (sizeofMetaEntry * (piecesOf gs).length) +
        metaAdd))) := by
  have hg := coreInv_groups h.toCoreInv
  have h24 : sizeofMetaEntry = 24 := rfl
  rw [StickyStore.reserveMeta] at hr
  split at hr
  next =>
    by_cases hdue : s.metaRevoked > sizeofMetaEntry * s.metas.length / 2
    · simp only [hdue, decide_true, if_true, Prod.mk.injEq] at hr
      obtain ⟨rfl, rfl⟩ := hr
      have hc := compactMeta_core h.toCoreInv
      have hdead := compactMetaGroups_dead 0 gs
      rw [← coreInv_iter h.toCoreInv] at hdead
      refine ⟨compactMetaGroups 0 gs, _, _, _, rfl,
        ⟨hc.metas, hc.groups, hc.laid, hc.top_le, hc.header⟩, compactMetaGroups_pieces 0 gs,
        ?_, ?_, by simp, ?_⟩
      · simp only [StickyStore.compactMeta, hdead, Nat.mul_zero]
      · rw [liveOffsets_length s.data, liveOffsets_length s.data, ← liveLists_flatten,
          ← liveLists_flatten, compactMetaGroups_lists s.data hg]
      · have hlive := live_entries (coreInv_groups hc)
        have hsum := dead_add_live (flatMetas (compactMetaGroups 0 gs))
        rw [compactMetaGroups_dead, hlive, compactMetaGroups_pieces] at hsum
        have hmetas : s.compactMeta.metas.length = (piecesOf gs).length := by
          rw [hc.metas, ← hsum, Nat.zero_add]
        have hgrow := @growSize_le (sizeofMetaEntry * s.compactMeta.metas.length + metaAdd)
          (sizeofMetaEntry * s.compactMeta.metas.length + metaAdd) (max s.compactMeta.metaAlloc 256)
        have hkeep : s.compactMeta.metaAlloc = s.metaAlloc := rfl
        rw [hmetas] at hgrow ⊢
        omega
    · simp only [hdue, decide_false, Bool.false_eq_true, if_false, Prod.mk.injEq] at hr
      obtain ⟨rfl, rfl⟩ := hr
      refine ⟨gs, _, _, _, rfl, ⟨h.metas, h.groups, h.laid, h.top_le, h.header⟩, rfl, h.dead, rfl,
        fun _ => rfl, ?_⟩
      have hlive := live_entries hg
      have hsum := dead_add_live s.metas
      have hdead := h.dead
      rw [← h.metas] at hlive
      have hgrow := @growSize_le (sizeofMetaEntry * s.metas.length + metaAdd)
        (sizeofMetaEntry * s.metas.length + metaAdd) (max s.metaAlloc 256)
      rw [h24] at *
      omega
  next =>
    simp only [Prod.mk.injEq] at hr
    obtain ⟨rfl, rfl⟩ := hr
    exact ⟨gs, _, _, _, rfl, h.toCoreInv, rfl, h.dead, rfl, fun _ => rfl, Nat.le_max_left _ _⟩

theorem reserveHash_account {numSev : Nat} {recalc : Bool} (h : CoreInv s gs o 0 top)
    (hsize : s.hash = [] ∨ ∃ k, s.hash.length = 2 ^ k)
    (hcount : s.hashUsed = (liveOffsets 0 gs).length)
    (htable : recalc = false → CountOk s.hash s.hashUsed 0 (liveOffsets 0 gs)) :
    ∃ t used, s.reserveHash numSev recalc = .ok { s with hash := t, hashUsed := used } ∧
      CountOk t used numSev (liveOffsets 0 gs) ∧
      t.length ≤ max s.hash.length (max 16 (4 * ((liveOffsets 0 gs).length + numSev))) := by
  refine reserveHash_cases hsize (fun t hn hroom hle => ?_) fun hrecalc hroom => ?_
  · obtain ⟨t', hpop, hlen, ht⟩ := @populateHash_countOk { s with hash := t } gs o top numSev
      ⟨h.metas, h.groups, h.laid, h.top_le, h.header⟩ hn (by dsimp only; omega)
    dsimp only at hlen
    exact ⟨t', _, hpop, ht, by omega⟩
  · have ht := htable hrecalc
    exact ⟨⟨ht.size, ht.clean, ht.exact, ht.count, by omega⟩, by omega⟩

end Reserve

end Ucesb
