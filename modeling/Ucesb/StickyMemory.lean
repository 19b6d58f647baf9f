import Ucesb.StickyAccount

namespace Ucesb

section Supersede

variable {gs₁ gs₂ : List MetaGroup} {ev : MetaEvent} {subs₁ subs₂ : List MetaSubevent}
  {sev : MetaSubevent} {n pos d : Nat}

theorem supersede_bytes (h : GroupOk n pos ⟨ev, subs₁ ++ sev :: subs₂⟩)
    (hd : sev.dataOffset = some d) :
    piecesLength (MetaGroup.pieces ⟨ev, subs₁ ++ sev :: subs₂⟩) =
      piecesLength (MetaGroup.pieces ⟨ev.decLive, subs₁ ++ sev.kill :: subs₂⟩) +
        (sev.dataLength + if ev.liveSub - 1 = 0 then ev.dataLength else 0) := by
  have hne := decLive_live h hd
  have hk : subPieces (sev.kill :: subs₂) = subPieces subs₂ := rfl
  have hs : subPieces (sev :: subs₂) = (d, sev.dataLength) :: subPieces subs₂ := by
    simp [subPieces, hd]
  have hold : MetaGroup.pieces ⟨ev, subs₁ ++ sev :: subs₂⟩ =
      (ev.dataOffset, ev.dataLength) ::
        (subPieces subs₁ ++ (d, sev.dataLength) :: subPieces subs₂) := by
    rw [MetaGroup.pieces, if_neg hne, subPieces_append, hs]
  have hdec : ev.decLive.liveSub = ev.liveSub - 1 := rfl
  by_cases hz : ev.liveSub - 1 = 0
  · have hnew : MetaGroup.pieces ⟨ev.decLive, subs₁ ++ sev.kill :: subs₂⟩ = [] := by
      rw [MetaGroup.pieces, hdec, if_pos hz]
    -- it was the only one left
    have hlive : ev.liveSub = (subs₁ ++ sev :: subs₂).countP (·.isLive) + n := h.liveSub
    rw [← subPieces_length, subPieces_append, hs, List.length_append, List.length_cons] at hlive
    have h₁ : subPieces subs₁ = [] := List.length_eq_zero_iff.mp (by omega)
    have h₂ : subPieces subs₂ = [] := List.length_eq_zero_iff.mp (by omega)
    rw [hold, hnew, if_pos hz, h₁, h₂]
    simp [piecesLength]
    omega
  · have hnew : MetaGroup.pieces ⟨ev.decLive, subs₁ ++ sev.kill :: subs₂⟩ =
        (ev.dataOffset, ev.dataLength) :: (subPieces subs₁ ++ subPieces subs₂) := by
      rw [MetaGroup.pieces, hdec, if_neg hz, subPieces_append, hk]
      rfl
    rw [hold, hnew, if_neg hz]
    simp [piecesLength]
    omega

theorem supersede_dead (hne : ev.liveSub ≠ 0) (hd : sev.dataOffset = some d) :
    (flatMetas (gs₁ ++ ⟨ev.decLive, subs₁ ++ sev.kill :: subs₂⟩ :: gs₂)).countP (! ·.isLive) =
      (flatMetas (gs₁ ++ ⟨ev, subs₁ ++ sev :: subs₂⟩ :: gs₂)).countP (! ·.isLive) +
        (1 + if ev.liveSub - 1 = 0 then 1 else 0) := by
  have hs : (MetaEntry.subevent sev).isLive = true := by
    rw [MetaEntry.isLive, MetaSubevent.isLive, hd]
    rfl
  have hk : (MetaEntry.subevent sev.kill).isLive = false := rfl
  have hev : (MetaEntry.event ev).isLive = true := decide_eq_true hne
  have hdec : (MetaEntry.event ev.decLive).isLive = decide (ev.liveSub - 1 ≠ 0) := rfl
  simp only [flatMetas_append, flatMetas_cons, MetaGroup.entries, List.countP_append,
    List.countP_cons, List.map_append, List.map_cons, hs, hk, hev, hdec]
  by_cases hz : ev.liveSub - 1 = 0 <;> simp [hz] <;> omega

theorem supersede_offsets (hd : sev.dataOffset = some d) :
    (liveOffsets 0 (gs₁ ++ ⟨ev, subs₁ ++ sev :: subs₂⟩ :: gs₂)).Perm
      (((flatMetas gs₁).length + (subs₁.length + 1)) ::
        liveOffsets 0 (gs₁ ++ ⟨ev.decLive, subs₁ ++ sev.kill :: subs₂⟩ :: gs₂)) := by
  obtain ⟨hlists, hx⟩ := @supersede_lists gs₁ gs₂ ev subs₁ subs₂ sev d [] hd
  have hn := liveOffsets_nodup 0 (gs₁ ++ ⟨ev, subs₁ ++ sev :: subs₂⟩ :: gs₂)
  have hmem : (flatMetas gs₁).length + (subs₁.length + 1) ∈
      liveOffsets 0 (gs₁ ++ ⟨ev, subs₁ ++ sev :: subs₂⟩ :: gs₂) := List.mem_map.mpr ⟨_, hx, rfl⟩
  have herase := List.perm_cons_erase hmem
  rw [hn.erase_eq_filter] at herase
  refine herase.trans (List.Perm.cons _ (List.Perm.of_eq ?_))
  rw [liveOffsets, liveOffsets, ← itemLists_flatten [] 0 (gs₁ ++ ⟨ev.decLive, _⟩ :: gs₂), hlists,
    map_filter_flatten, itemLists_flatten, List.filter_map]
  congr 1
  apply List.filter_congr
  intro y _
  rw [Function.comp, bne, beq_eq_decide, decide_not]

end Supersede

section Table

variable {hash : List (HashSlot Nat)} {used pend start entry off : Nat} {offs offs' : List Nat}

theorem countOk_size (h : CountOk hash used (pend + 1) offs) : ∃ k, hash.length = 2 ^ k := by
  have hroom := h.room
  rcases h.size with hnil | hk
  · simp [hnil] at hroom
  · exact hk

theorem findFree_discarded (h : CountOk hash used (pend + 1) offs)
    (hreach : Reach hash start entry) (hentry : hash[entry]? = some (.used off)) :
    findFree (hash.set entry .discarded) start = some entry := by
  obtain ⟨k, hk⟩ := countOk_size h
  have hroom := h.room
  have hfilled := countOk_filled h
  have hle := filled_set_of_ne_empty (s := .discarded) hentry (by simp)
  have hlt : entry < hash.length := (List.getElem?_eq_some_iff.mp hentry).1
  obtain ⟨i, slot, hfree, hi, hslot, _, hdis⟩ :=
    @findFree_spec _ (hash.set entry .discarded) k (by rw [List.length_set, hk])
      (by rw [List.length_set]; omega) start
  have hne : slot ≠ .empty := by
    apply hdis entry (reach_set hreach (by simp))
    rw [List.getElem?_set, if_pos rfl, if_pos hlt]
  have hd : slot = .discarded := by
    cases slot with
    | empty => exact absurd rfl hne
    | discarded => rfl
    | used a => cases hslot
  rw [hfree, Option.some.injEq]
  by_contra hie
  rw [List.getElem?_set, if_neg (Ne.symm hie), hd] at hi
  exact h.clean (List.mem_of_getElem? hi)

theorem countOk_replace (h : CountOk hash used (pend + 1) offs)
    (hentry : hash[entry]? = some (.used off)) {dest : Nat}
    (hperm : (offs ++ [dest]).Perm (off :: offs')) :
    CountOk (hash.set entry (.used dest)) used pend offs' := by
  obtain ⟨k, hk⟩ := countOk_size h
  have hroom := h.room
  refine ⟨.inr ⟨k, by rw [List.length_set, hk]⟩, discarded_notMem_set h.clean entry dest, ?_, ?_,
    by rw [List.length_set]; omega⟩
  · have hset : (dest :: usedOf hash).Perm (off :: usedOf (hash.set entry (.used dest))) :=
      @usedOf_set _ _ _ _ (.used dest) hentry
    refine List.Perm.cons_inv (a := off) (hset.symm.trans (List.Perm.trans ?_ hperm))
    exact (h.exact.cons dest).trans (List.perm_append_singleton dest offs).symm
  · have hlen := hperm.length_eq
    rw [List.length_append, List.length_singleton, List.length_cons] at hlen
    have := h.count
    omega

theorem countOk_new (h : CountOk hash used (pend + 1) offs) (start dest : Nat) :
    ∃ i, findFree hash start = some i ∧
      CountOk (hash.set i (.used dest)) (used + 1) pend (offs ++ [dest]) := by
  obtain ⟨k, hk⟩ := countOk_size h
  have hroom := h.room
  have hfilled := countOk_filled h
  obtain ⟨i, slot, hfree, hi, hslot, _⟩ := findFree_spec hk (by omega) start
  refine ⟨i, hfree, .inr ⟨k, by rw [List.length_set, hk]⟩, discarded_notMem_set h.clean i dest,
    (usedOf_put hi hslot).trans (h.exact.append_right _), ?_, by rw [List.length_set]; omega⟩
  rw [List.length_append, List.length_singleton, h.count]

end Table

section Enter

variable {s s₁ : StickyStore} {gs gs₁ : List MetaGroup} {openPos pend top len dest E : Nat}
  {header : List UInt8} {offs : List Nat}

def StickyStore.sizes (s : StickyStore) : Nat × Nat × Nat :=
  (s.dataAlloc, s.metaAlloc, s.hash.length)

theorem enterHash_account (h₁ : CoreInv s₁ gs₁ openPos pend top)
    (ho : Opened s₁.data gs₁ openPos header)
    (hdata : s₁.dataRevoked + piecesLength (piecesOf gs₁) = top)
    (hdead : s₁.metaRevoked = sizeofMetaEntry * s₁.metas.countP (! ·.isLive))
    (hpiece : ∀ p ∈ piecesOf gs₁, p.2 ≤ E)
    (htab : CountOk s₁.hash s₁.hashUsed (pend + 1) offs)
    (hoffs : liveOffsets 0 gs₁ = offs ++ [dest]) (bs : List UInt8) :
    ∃ s' gs', s₁.enterHash bs true dest = .ok s' ∧ AccountInv s' gs' openPos pend top E ∧
      Opened s'.data gs' openPos header ∧ s'.data = s₁.data ∧ s'.sizes = s₁.sizes := by
  obtain ⟨k, hk⟩ := countOk_size htab
  have hroom := htab.room
  have hfilled := countOk_filled htab
  obtain ⟨entry, hfind, hreach, hcase⟩ :=
    findSame_spec hk (by omega) (s₁.sameId bs) (stickySubeventHash bs)
  rw [StickyStore.enterHash, hfind]
  simp only [if_true]
  rcases hcase with ⟨off, hoff, hsame⟩ | ⟨hempty, _⟩
  · obtain ⟨gsa, ev, subs₁, sev, subs₂, gsb, d, rfl, rfl, hd⟩ := sameId_true h₁ hsame
    have hg := groupsOk_cons_inv h₁.groups
    have heq := supersede_eq h₁ entry
    have hcore := supersede_core hd h₁ entry
    have hbytes := supersede_bytes hg hd
    have hcount := @supersede_dead gsa gsb _ subs₁ subs₂ _ _ (decLive_live hg hd) hd
    have hperm := @supersede_offsets gsa gsb ev subs₁ subs₂ sev d hd
    rw [hoffs] at hperm
    have hfree := findFree_discarded htab hreach hoff
    rw [StickyStore.vacate, hoff]
    simp only
    rw [heq] at hcore ⊢
    simp only [hfree, List.set_set]
    refine ⟨_, _, rfl, ⟨⟨hcore.metas, hcore.groups, hcore.laid, hcore.top_le, hcore.header⟩,
      ?_, ?_, countOk_replace htab hoff hperm, ?_⟩, opened_replace ho (by simp) rfl, rfl, ?_⟩
    · simp only [piecesOf_append, piecesOf_cons, piecesLength_append] at hdata ⊢
      omega
    · simp only [hcount, hdead, h₁.metas]
      split <;> simp only [Nat.mul_add] <;> omega
    · exact fun p hp => hpiece p ((supersede_pieces hg hd).subset hp)
    · simp [StickyStore.sizes]
  · obtain ⟨i, hfree, hnew⟩ := countOk_new htab (stickySubeventHash bs) dest
    rw [StickyStore.vacate, hempty]
    simp only [hfree]
    rw [← hoffs] at hnew
    exact ⟨_, gs₁, rfl, ⟨⟨h₁.metas, h₁.groups, h₁.laid, h₁.top_le, h₁.header⟩, hdata, hdead, hnew,
      hpiece⟩, ho, rfl, by simp [StickyStore.sizes]⟩

theorem insertSubevent_account {discardRevoke : Bool}
    (h : AccountInv s gs openPos (pend + 1) top E) (ho : Opened s.data gs openPos header)
    (hlen : top + len ≤ s.data.length) (hE : len ≤ E)
    (hkeep : (!discardRevoke || !subIsRevoke (s.data.drop top)) = true) :
    ∃ s' gs', s.insertSubevent discardRevoke openPos top len = .ok s' ∧
      AccountInv s' gs' openPos pend (top + len) E ∧ Opened s'.data gs' openPos header ∧
      s'.data = s.data ∧ s'.sizes = s.sizes := by
  obtain ⟨gs₁, h₁, ho₁, hpieces, C, o, hC, hC₁⟩ := enter_core h.toCoreInv ho hlen
  have hoffs : liveOffsets 0 gs₁ = liveOffsets 0 gs ++ [s.metas.length] := by
    rw [← items_offsets s.data, ← items_offsets s.data, items_of_lists hC, items_of_lists hC₁]
    simp
  rw [StickyStore.insertSubevent]
  simp only [hkeep, if_true]
  refine enterHash_account h₁ ho₁ ?_ ?_ ?_ h.table hoffs (s.data.drop top)
  · have hdata := h.data
    have hone : piecesLength [(top, len)] = len := by simp [piecesLength]
    rw [hpieces, piecesLength_append, hone]
    simp only
    omega
  · simp only [h.dead, List.countP_append, List.countP_singleton, MetaEntry.isLive,
      MetaSubevent.isLive, Option.isSome_some, Bool.not_true, Bool.false_eq_true, if_false,
      Nat.add_zero]
  · intro p hp
    rw [hpieces] at hp
    rcases List.mem_append.mp hp with hp | hp
    · exact h.piece p hp
    · rw [List.mem_singleton.mp hp]
      exact hE

theorem insertSubevents_account {discardRevoke : Bool} {evDataOff evLen fuel off : Nat}
    {subs : List (List UInt8)} (h : AccountInv s gs openPos subs.length (evDataOff + off) E)
    (ho : Opened s.data gs openPos header) (hdata : s.data.drop (evDataOff + off) = subs.flatten)
    (hend : evDataOff + evLen = s.data.length) (hw : SubeventWalk subs)
    (hkeep : ∀ b ∈ subs, discardRevoke = true → subIsRevoke b = false)
    (hE : ∀ b ∈ subs, b.length ≤ E) (hfuel : subs.length ≤ fuel) :
    ∃ s' gs', insertSubevents discardRevoke openPos evDataOff evLen fuel off s = .ok s' ∧
      AccountInv s' gs' openPos 0 s'.data.length E ∧ s'.sizes = s.sizes := by
  induction subs generalizing fuel off s gs with
  | nil =>
    have hoff : off = evLen := by
      have hle := List.drop_eq_nil_iff.mp hdata
      have := h.top_le
      omega
    refine ⟨s, gs, ?_, ?_, rfl⟩
    · cases fuel with
      | zero => rfl
      | succ fuel => rw [insertSubevents, if_pos hoff]
    · rw [hoff, hend] at h
      exact h
  | cons b subs ih =>
    obtain ⟨fuel, rfl⟩ := Nat.exists_eq_add_one_of_ne_zero (show fuel ≠ 0 by simp at hfuel; omega)
    obtain ⟨hd, hd', hlen⟩ := drop_flatten_cons hdata
    have h8 : 8 ≤ b.length := hw.2.1 ▸ eight_le_subLength b
    have hsub : subLength (s.data.drop (evDataOff + off)) = b.length := by
      rw [hd, subLength_append _ h8, hw.2.1]
    have hrev : (!discardRevoke || !subIsRevoke (s.data.drop (evDataOff + off))) = true := by
      rw [hd, subIsRevoke_append _ h8]
      cases discardRevoke with
      | false => rfl
      | true => rw [hkeep b (by simp) rfl]; rfl
    have htop := h.top_le
    obtain ⟨s₁, gs₁, hins, hinv, hopen, hds, hsz⟩ :=
      insertSubevent_account h ho (by omega) (hE b (by simp)) hrev
    rw [Nat.add_assoc] at hinv hd'
    obtain ⟨s', gs', hrec, hinv', hsz'⟩ := ih hinv hopen (by rw [hds]; exact hd')
      (by rw [hds]; exact hend) hw.2.2 (fun c hc => hkeep c (by simp [hc]))
      (fun c hc => hE c (by simp [hc])) (by simpa using hfuel)
    refine ⟨s', gs', ?_, hinv', hsz'.trans hsz⟩
    rw [insertSubevents, if_neg (by omega), hsub]
    simp only [hins]
    exact hrec

end Enter

section Insert

variable {s : StickyStore} {gs : List MetaGroup} {o top E : Nat}

theorem reserve_account (h : AccountInv s gs o 0 top E) (metaAdd numSev : Nat) :
    ∃ s' gs', (s.reserveMeta metaAdd).1.reserveHash numSev (s.reserveMeta metaAdd).2 = .ok s' ∧
      CoreInv s' gs' o 0 top ∧ s'.data = s.data ∧ s'.dataRevoked = s.dataRevoked ∧
      piecesOf gs' = piecesOf gs ∧
      s'.metaRevoked = sizeofMetaEntry * s'.metas.countP (! ·.isLive) ∧
      CountOk s'.hash s'.hashUsed numSev (liveOffsets 0 gs') ∧ s'.dataAlloc = s.dataAlloc ∧
      s'.metaAlloc ≤ max s.metaAlloc (max 256 (2 * (2 * (sizeofMetaEntry *
        (piecesOf gs).length) + metaAdd))) ∧
      s'.hash.length ≤ max s.hash.length (max 16 (4 * ((liveOffsets 0 gs).length + numSev))) := by
  generalize hr : s.reserveMeta metaAdd = p
  obtain ⟨s₁, recalc⟩ := p
  obtain ⟨gs₁, metas, n, alloc, hs₁, h₁, hpieces, hdead, hlen, hsame, halloc⟩ :=
    reserveMeta_account h hr
  have hcount : s₁.hashUsed = (liveOffsets 0 gs₁).length := by
    rw [hlen, ← h.table.count, hs₁]
  have htable : recalc = false → CountOk s₁.hash s₁.hashUsed 0 (liveOffsets 0 gs₁) := by
    intro hrec
    rw [hsame hrec, hs₁]
    exact h.table
  obtain ⟨t, used, hres, hok, hle⟩ := @reserveHash_account s₁ gs₁ o top numSev recalc h₁
    (by rw [hs₁]; exact h.table.size) hcount htable
  rw [hlen] at hle
  subst hs₁
  exact ⟨_, gs₁, hres, ⟨h₁.metas, h₁.groups, h₁.laid, h₁.top_le, h₁.header⟩, rfl, rfl, hpieces,
    hdead, hok, rfl, halloc, hle⟩

theorem countedAsserts_of_account (h : AccountInv s gs o 0 top E) (numSev : Nat) :
    s.countedAsserts numSev = true := by
  obtain ⟨s', gs', hres, hcore, _⟩ :=
    reserve_account h (sizeofMetaEntry + numSev * sizeofMetaEntry) numSev
  rw [StickyStore.countedAsserts]
  simp only [hres, iterates_of_core hcore, verifyMeta_of_core hcore,
    compactMeta_asserts h.toCoreInv, ite_self, Bool.and_self]

theorem piecesLength_le_mul {ps : List (Nat × Nat)} (h : ∀ p ∈ ps, p.2 ≤ E) :
    piecesLength ps ≤ ps.length * E := by
  induction ps with
  | nil => simp [piecesLength]
  | cons p ps ih =>
    have hp := h p (by simp)
    have htail := ih fun q hq => h q (by simp [hq])
    rw [piecesLength_cons, List.length_cons, Nat.succ_mul]
    omega

theorem piecesLength_le (h : AccountInv s gs o 0 top E) :
    piecesLength (piecesOf gs) ≤ 2 * (liveOffsets 0 gs).length * E :=
  Nat.le_trans (piecesLength_le_mul h.piece)
    (Nat.mul_le_mul_right E (pieces_length_le (coreInv_groups h.toCoreInv)))

theorem openEvent_account {evDataOff rawLen n : Nat} (h : CoreInv s gs o 0 evDataOff)
    (hdata : s.dataRevoked + piecesLength (piecesOf gs) = evDataOff)
    (hdead : s.metaRevoked = sizeofMetaEntry * s.metas.countP (! ·.isLive))
    (htab : CountOk s.hash s.hashUsed n (liveOffsets 0 gs)) (hpiece : ∀ p ∈ piecesOf gs, p.2 ≤ E)
    (hn : n ≠ 0) (hend : evDataOff + rawLen ≤ s.data.length) (hraw : sizeofEvent101 ≤ rawLen)
    (hE : rawLen ≤ E) :
    AccountInv { s with metas := s.metas ++ [.event ⟨evDataOff, rawLen, n, n⟩] }
        (gs ++ [⟨⟨evDataOff, rawLen, n, n⟩, []⟩]) s.metas.length n (evDataOff + rawLen) E ∧
      Opened s.data (gs ++ [⟨⟨evDataOff, rawLen, n, n⟩, []⟩]) s.metas.length
        (slice s.data evDataOff rawLen) := by
  obtain ⟨hcore, hopen, hlists⟩ := @openEvent_core _ _ _ _ evDataOff rawLen n h (Nat.le_refl _)
    hend hraw
  have hpieces : piecesOf (gs ++ [⟨⟨evDataOff, rawLen, n, n⟩, []⟩]) =
      piecesOf gs ++ [(evDataOff, rawLen)] := by
    rw [piecesOf_append]
    simp [MetaGroup.pieces, hn, subPieces]
  refine ⟨⟨hcore, ?_, ?_, ?_, ?_⟩, hopen⟩
  · have hone : piecesLength [(evDataOff, rawLen)] = rawLen := by simp [piecesLength]
    rw [hpieces, piecesLength_append, hone]
    simp only
    omega
  · simp [hdead, List.countP_append, MetaEntry.isLive, hn]
  · rw [← items_offsets s.data, ← itemLists_flatten, hlists, List.flatten_append,
      itemLists_flatten]
    simp only [List.flatten_cons, List.flatten_nil, List.append_nil, items_offsets]
    exact htab
  · intro p hp
    rw [hpieces] at hp
    rcases List.mem_append.mp hp with hp | hp
    · exact hpiece p hp
    · rw [List.mem_singleton.mp hp]
      exact hE

/-- Bounds of the three arrays, for `N` live subevents and events of up to `E` bytes. -/
def dataBound (N E : Nat) : Nat := max 1024 (2 * (2 * (2 * N * E) + E))

def metaBound (N E : Nat) : Nat := max 256 (2 * (2 * (sizeofMetaEntry * (2 * N)) +
  (sizeofMetaEntry + E * sizeofMetaEntry)))

def hashBound (N E : Nat) : Nat := max 16 (4 * (N + E))

structure StickyStore.Bounded (s : StickyStore) (N E : Nat) : Prop where
  data : s.dataAlloc ≤ dataBound N E
  metas : s.metaAlloc ≤ metaBound N E
  hash : s.hash.length ≤ hashBound N E

theorem insert_account {e : LmdEventOut} {subs : List (List UInt8)} {discardRevoke : Bool}
    (h : AccountInv s gs o 0 s.data.length E) (he : e.Accepted subs)
    (hsome : subs.dropWhile subIsTstamp ≠ [])
    (hkeep : ∀ b ∈ subs.dropWhile subIsTstamp, discardRevoke = true → subIsRevoke b = false)
    (hE : e.getLength + sizeofEventHeader ≤ E) :
    ∃ s' gs' o' gs₁, s.insert e discardRevoke = .ok s' ∧
      AccountInv s' gs' o' 0 s'.data.length E ∧
      AccountInv (s.copied e) gs₁ o 0 (s.reserveData (e.getLength + sizeofEventHeader)).data.length
        E ∧
      ∀ N, (liveOffsets 0 gs).length ≤ N → s.Bounded N E → s'.Bounded N E := by
  have hwl := write_length he.copyable
  have hsplit := he.write_split
  have hwalk := he.walk_rest
  rw [insert_eq_counted he, StickyStore.insertCounted]
  generalize htst : (subs.takeWhile subIsTstamp).flatten = tst at *
  generalize hrest : subs.dropWhile subIsTstamp = rest at *
  obtain ⟨gs₁, h₁, hda, hma, hha, hoffs₁, hlens₁⟩ :=
    reserveData_account h (e.getLength + sizeofEventHeader)
  have hlive : (piecesOf gs₁).length = (piecesOf gs).length := by
    simpa using congrArg List.length hlens₁
  have h₂ : AccountInv (s.copied e) gs₁ o 0
      (s.reserveData (e.getLength + sizeofEventHeader)).data.length E :=
    accountInv_append_data h₁ e.write
  have hcopied : (s.copied e).data =
      (s.reserveData (e.getLength + sizeofEventHeader)).data ++ e.write := rfl
  have hsz₂ : (s.copied e).dataAlloc = (s.reserveData (e.getLength + sizeofEventHeader)).dataAlloc ∧
      (s.copied e).metaAlloc = s.metaAlloc ∧ (s.copied e).hash = s.hash := ⟨rfl, hma, hha⟩
  generalize (s.reserveData (e.getLength + sizeofEventHeader)).data = data₁ at *
  generalize (s.reserveData (e.getLength + sizeofEventHeader)).dataAlloc = alloc₁ at *
  obtain ⟨s₃, gs₃, hres, h₃, hd₃, hrev₃, hpieces₃, hdead₃, htab₃, hda₃, hma₃, hha₃⟩ :=
    reserve_account h₂ (sizeofMetaEntry + rest.length * sizeofMetaEntry) rest.length
  have h16 : sizeofEvent101 = 16 := rfl
  have h16w := sixteen_le_write he.copyable
  have hlen₃ : s₃.data.length = data₁.length + e.write.length := by
    rw [hd₃, hcopied, List.length_append]
  have hwlen : e.write.length = sizeofEvent101 + (tst.length + rest.flatten.length) := by
    have hl := congrArg List.length hsplit
    rw [List.length_drop, List.length_append] at hl
    omega
  obtain ⟨hinv, hopen⟩ := @openEvent_account s₃ gs₃ o E data₁.length (sizeofEvent101 + tst.length)
    rest.length h₃ (by rw [hrev₃, hpieces₃]; exact h₂.data) hdead₃ htab₃
    (by rw [hpieces₃]; exact h₂.piece) (fun hz => hsome (List.length_eq_zero_iff.mp hz))
    (by omega) (by omega) (by omega)
  have hsubs : s₃.data.drop (data₁.length + (sizeofEvent101 + tst.length)) = rest.flatten := by
    rw [hd₃, hcopied, ← List.drop_drop, List.drop_left, ← List.drop_drop, hsplit, List.drop_left]
  have hrestE : ∀ b ∈ rest, b.length ≤ E := by
    intro b hb
    have hle := (List.sublist_flatten_of_mem hb).length_le
    omega
  have hnum := walk_length_le hwalk
  obtain ⟨s', gs', hins, hinv', hsz'⟩ := @insertSubevents_account _ _ _ _ _ discardRevoke _
    (e.getLength + sizeofEventHeader) (e.getLength + sizeofEventHeader) _ _ hinv hopen hsubs
    (by rw [← hwl]; exact hlen₃.symm) hwalk hkeep hrestE (by omega)
  refine ⟨s', gs', _, gs₁, ?_, hinv', h₂, ?_⟩
  · simp only [bind, Except.bind, hres]
    exact hins
  · intro N hN hb
    simp only [StickyStore.sizes, Prod.mk.injEq] at hsz'
    obtain ⟨hd', hm', hh'⟩ := hsz'
    have hbytes : piecesLength (piecesOf gs) ≤ 2 * N * E :=
      Nat.le_trans (piecesLength_le h) (Nat.mul_le_mul_right E (by omega))
    have hnums := pieces_length_le (coreInv_groups h.toCoreInv)
    have h24 : sizeofMetaEntry = 24 := rfl
    rw [hoffs₁] at hha₃
    rw [hlive, h24] at hma₃
    refine ⟨?_, ?_, ?_⟩
    · have hold := hb.data
      rw [dataBound] at hold ⊢
      omega
    · have hold := hb.metas
      rw [metaBound, h24] at hold ⊢
      omega
    · have hold := hb.hash
      rw [hashBound] at hold ⊢
      rw [hsz₂.2.2] at hha₃
      omega

end Insert

section Run

variable {s : StickyStore} {gs : List MetaGroup} {o E : Nat} {e : LmdEventOut}

theorem countOverflows_error {raw : List UInt8} {fuel off n len : Nat}
    (h : countOverflows raw fuel off n = true) :
    ∃ msg, countSubevents raw fuel off n len = .error msg := by
  induction fuel generalizing off n len with
  | zero => cases h
  | succ fuel ih =>
    rw [countOverflows] at h
    rw [countSubevents]
    by_cases hend : off = raw.length
    · rw [if_pos hend] at h
      cases h
    · rw [if_neg hend] at h ⊢
      by_cases hhead : off + sizeofSubevent101 > raw.length
      · rw [if_pos hhead] at h
        cases h
      · rw [if_neg hhead] at h ⊢
        by_cases hover : off + subLength (raw.drop off) > raw.length
        · simp only [hover, if_true]
          exact ⟨_, rfl⟩
        · rw [if_neg hover] at h
          simp only [hover, if_false]
          split at h
          next htst =>
            rw [if_pos htst]
            split at h
            next => cases h
            next hz =>
              rw [if_neg hz]
              exact ih h
          next htst =>
            rw [if_neg htst]
            exact ih h

theorem checks_not_overflows (h : e.stickyChecks = true) : e.overflows = false := by
  rw [LmdEventOut.stickyChecks, Bool.and_eq_true] at h
  rw [LmdEventOut.overflows, h.1, Bool.true_and]
  cases hover : countOverflows e.write (e.getLength + sizeofEventHeader) sizeofEvent101 0 with
  | false => rfl
  | true =>
    obtain ⟨msg, hmsg⟩ := @countOverflows_error _ _ _ _ sizeofEvent101 hover
    have hok := h.2
    rw [hmsg] at hok
    cases hok

/-- The insertion leaves nothing behind that is not live: it does not fail, the event has a
subevent besides its leading time stamps, and no revoke is discarded. -/
def StickyOp.Counted : StickyOp → Prop
  | .insert e discardRevoke => e.Copyable ∧ e.stickyChecks = true ∧ e.numSev ≠ 0 ∧
      (discardRevoke = true → ∀ subs, e.Accepted subs →
        ∀ b ∈ subs.dropWhile subIsTstamp, subIsRevoke b = false)
  | .writeEvents => True

def StickyOp.length : StickyOp → Nat
  | .insert e _ => e.getLength + sizeofEventHeader
  | .writeEvents => 0

def StickyStore.liveSubevents (s : StickyStore) : Nat :=
  (s.groups.map fun g => g.subs.countP (·.isLive)).sum

theorem liveSubevents_eq {top : Nat} (h : CoreInv s gs o 0 top) :
    s.liveSubevents = (liveOffsets 0 gs).length := by
  rw [StickyStore.liveSubevents, coreInv_iter h, ← itemLists_lengths [] 0 gs, liveOffsets,
    List.length_map, ← itemLists_flatten, List.length_flatten]

theorem stickyStep_account {op : StickyOp} (h : AccountInv s gs o 0 s.data.length E)
    (hop : op.Counted) (hE : op.length ≤ E) :
    ∃ s' gs' o', s.step op = some s' ∧ AccountInv s' gs' o' 0 s'.data.length E ∧
      ∀ N, s.liveSubevents ≤ N → s.Bounded N E → s'.Bounded N E := by
  have hlive := liveSubevents_eq h.toCoreInv
  cases op with
  | writeEvents =>
    refine ⟨s, gs, o, ?_, h, fun _ _ hb => hb⟩
    rw [StickyStore.step, writeAsserts_of_core h.toCoreInv, if_pos rfl]
  | insert e discardRevoke =>
    obtain ⟨hc, hchk, hnum, hrev⟩ := hop
    obtain ⟨subs, hacc⟩ := checks_accepted hc hchk
    have hsome : subs.dropWhile subIsTstamp ≠ [] := by
      intro hz
      rw [LmdEventOut.numSev, countSubevents_write hacc, hz] at hnum
      exact hnum rfl
    obtain ⟨s', gs', o', gs₁, hins, hinv, hcop, hbound⟩ := insert_account h hacc hsome
      (fun b hb hdis => hrev hdis subs hacc b hb) hE
    have hend : s.insertEnd e discardRevoke = .stored s' := by
      rw [StickyStore.insertEnd, if_pos hc, hins]
    have hassert : s.insertAsserts e discardRevoke = true := by
      rw [StickyStore.insertAsserts, verifyMeta_of_core h.toCoreInv,
        compactData_asserts h.toCoreInv, checks_not_overflows hchk, ite_self]
      simp [hend, countedAsserts_of_account hcop, verifyMeta_of_core hinv.toCoreInv]
    refine ⟨s', gs', o', ?_, hinv, ?_⟩
    · rw [StickyStore.step, hassert, if_pos rfl, hend]
    · intro N hN
      rw [hlive] at hN
      exact hbound N hN

theorem stickyRun_account {ops : List StickyOp} (h : ∀ op ∈ ops, op.Counted)
    (hE : ∀ op ∈ ops, op.length ≤ E) :
    ∃ s gs o, StickyStore.empty.runOps ops = some s ∧ AccountInv s gs o 0 s.data.length E ∧
      ∀ N, (∀ before t, before <+: ops → StickyStore.empty.runOps before = some t →
        t.liveSubevents ≤ N) → s.Bounded N E := by
  induction ops using List.reverseRecOn with
  | nil =>
    refine ⟨StickyStore.empty, [], 0, rfl, accountInv_empty E, ?_⟩
    exact fun _ _ => ⟨Nat.zero_le _, Nat.zero_le _, Nat.zero_le _⟩
  | append_singleton ops op ih =>
    obtain ⟨s, gs, o, hrun, hinv, hbound⟩ :=
      ih (fun p hp => h p (by simp [hp])) fun p hp => hE p (by simp [hp])
    obtain ⟨s', gs', o', hstep, hinv', hbound'⟩ :=
      stickyStep_account hinv (h op (by simp)) (hE op (by simp))
    refine ⟨s', gs', o', ?_, hinv', ?_⟩
    · rw [StickyStore.runOps] at hrun ⊢
      rw [List.foldlM_append, hrun]
      simpa using hstep
    · intro N hN
      exact hbound' N (hN ops s (List.prefix_append ops [op]) hrun)
        (hbound N fun before t hb ht => hN before t (hb.trans (List.prefix_append ops [op])) ht)

theorem exists_length_bound (ops : List StickyOp) : ∃ E, ∀ op ∈ ops, op.length ≤ E := by
  induction ops with
  | nil => exact ⟨0, by simp⟩
  | cons op ops ih =>
    obtain ⟨E, hE⟩ := ih
    refine ⟨max op.length E, ?_⟩
    intro p hp
    rcases List.mem_cons.mp hp with rfl | hp
    · exact Nat.le_max_left _ _
    · exact Nat.le_trans (hE p hp) (Nat.le_max_right _ _)

/-- In every run of insertions that leave nothing behind uncounted, the counters are exact; and
as long as at most `N` subevents are live and no event has more than `E` bytes, the arrays stay
within bounds that do not depend on the run. -/
theorem sticky_accounting {ops : List StickyOp} (h : ∀ op ∈ ops, op.Counted) :
    ∃ s, StickyStore.empty.runOps ops = some s ∧ s.Accounted ∧
      ∀ N E, (∀ op ∈ ops, op.length ≤ E) →
        (∀ before t, before <+: ops → StickyStore.empty.runOps before = some t →
          t.liveSubevents ≤ N) → s.Bounded N E := by
  obtain ⟨E₀, hE₀⟩ := exists_length_bound ops
  obtain ⟨s, gs, o, hrun, hinv, _⟩ := stickyRun_account h hE₀
  refine ⟨s, hrun, accounted_of_inv hinv, ?_⟩
  intro N E hE hN
  obtain ⟨s', _, _, hrun', _, hbound⟩ := stickyRun_account h hE
  rw [hrun, Option.some.injEq] at hrun'
  rw [hrun']
  exact hbound N hN

theorem sticky_accounting_two : ∃ s, StickyStore.empty.runOps
      [.insert (stickyEvent 1 [plainSub 5 1, plainSub 6 2]) true, .writeEvents,
        .insert (stickyEvent 2 [plainSub 5 3, revokeSub 6]) false] = some s ∧ s.Accounted := by
  obtain ⟨s, hrun, hacc, _⟩ := @sticky_accounting
    [.insert (stickyEvent 1 [plainSub 5 1, plainSub 6 2]) true, .writeEvents,
      .insert (stickyEvent 2 [plainSub 5 3, revokeSub 6]) false] (by
    intro op hop
    simp only [List.mem_cons, List.not_mem_nil, or_false] at hop
    rcases hop with rfl | rfl | rfl
    · refine ⟨by decide, by decide +kernel, by decide +kernel, ?_⟩
      intro _ subs hacc
      rw [← accepted_located hacc (storable_noShort stickyEvent_storable true subs hacc)]
      decide
    · trivial
    · exact ⟨by decide, by decide +kernel, by decide +kernel, by simp⟩)
  exact ⟨s, hrun, hacc⟩

theorem discarded_revoke_uncounted : ¬ ∀ (ops : List StickyOp) (s : StickyStore),
    StickyStore.empty.runOps ops = some s → s.Accounted := by
  intro h
  cases hrun : StickyStore.empty.runOps [.insert (stickyEvent 1 [revokeSub 6]) true] with
  | none =>
    have hsome : (StickyStore.empty.runOps
        [.insert (stickyEvent 1 [revokeSub 6]) true]).isSome = true := by decide +kernel
    rw [hrun] at hsome
    cases hsome
  | some s =>
    have hused : (StickyStore.empty.runOps [.insert (stickyEvent 1 [revokeSub 6]) true]).map
        (fun s => (s.hashUsed, (usedOf s.hash).length)) = some (1, 0) := by decide +kernel
    have hacc := (h _ s hrun).hash
    rw [hrun, Option.map_some, Option.some.injEq, Prod.mk.injEq] at hused
    omega

end Run

end Ucesb
