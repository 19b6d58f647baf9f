import Ucesb.StickyMemory

namespace Ucesb

/-- The slots that are not empty are within the count, and this within half of the table. -/
structure ProbeTable (hash : List (HashSlot Nat)) (used pend : Nat) (offs : List Nat) : Prop where
  size : hash = [] ∨ ∃ k, hash.length = 2 ^ k
  filled : filled hash ≤ used
  room : used + pend ≤ hash.length / 2
  exact : (usedOf hash).Perm offs

structure ProbeInv (s : StickyStore) (gs : List MetaGroup) (openPos pend top : Nat) : Prop
    extends CoreInv s gs openPos pend top where
  table : ProbeTable s.hash s.hashUsed pend (liveOffsets 0 gs)

theorem probeInv_empty : ProbeInv StickyStore.empty [] 0 0 0 :=
  ⟨storeInv_empty.toCoreInv, .inl rfl, Nat.le_refl 0, Nat.le_refl 0, List.Perm.nil⟩

section Table

variable {hash : List (HashSlot Nat)} {used pend : Nat} {offs offs' : List Nat}

theorem ProbeTable.count (h : ProbeTable hash used pend offs) : offs.length ≤ used := by
  rw [← h.exact.length_eq]
  exact Nat.le_trans (usedOf_length_le hash) h.filled

theorem ProbeTable.pow (h : ProbeTable hash used (pend + 1) offs) : ∃ k, hash.length = 2 ^ k := by
  have hroom := h.room
  rcases h.size with hnil | hk
  · simp [hnil] at hroom
  · exact hk

theorem ProbeTable.lt (h : ProbeTable hash used pend offs) (hne : hash ≠ []) :
    Ucesb.filled hash < hash.length := by
  have hpos := List.length_pos_iff.mpr hne
  have hroom := h.room
  have hfilled := h.filled
  omega

theorem ProbeTable.new (h : ProbeTable hash used (pend + 1) offs) :
    ProbeTable hash (used + 1) pend offs := by
  have hroom := h.room
  have hfilled := h.filled
  exact ⟨h.size, by omega, by omega, h.exact⟩

theorem ProbeTable.discard {entry off : Nat} (h : ProbeTable hash used (pend + 1) offs)
    (hentry : hash[entry]? = some (.used off)) (hperm : offs.Perm (off :: offs')) :
    ProbeTable (hash.set entry .discarded) used pend offs' := by
  have hroom := h.room
  have hle := filled_set_of_ne_empty (s := .discarded) hentry (by simp)
  refine ⟨?_, Nat.le_trans hle h.filled, by rw [List.length_set]; omega, ?_⟩
  · obtain ⟨k, hk⟩ := h.pow
    exact .inr ⟨k, by rw [List.length_set, hk]⟩
  · exact List.Perm.cons_inv ((usedOf_discard hentry).symm.trans (h.exact.trans hperm))

theorem ProbeTable.put {i dest : Nat} {slot : HashSlot Nat} (h : ProbeTable hash used pend offs)
    (hi : hash[i]? = some slot) (hslot : slot.isFree = true)
    (hle : Ucesb.filled (hash.set i (.used dest)) ≤ used) :
    ProbeTable (hash.set i (.used dest)) used pend (offs ++ [dest]) := by
  refine ⟨?_, hle, by rw [List.length_set]; exact h.room, ?_⟩
  · rcases h.size with hnil | ⟨k, hk⟩
    · rw [hnil] at hi
      simp at hi
    · exact .inr ⟨k, by rw [List.length_set, hk]⟩
  · exact (usedOf_put hi hslot).trans (h.exact.append_right _)

end Table

section Reserve

variable {s : StickyStore} {gs : List MetaGroup} {o top : Nat}

theorem compactData_probe (h : ProbeInv s gs o 0 top) :
    ProbeInv s.compactData (relocateGroups 0 gs) o 0 s.compactData.data.length := by
  have hcore := compactData_core h.toCoreInv
  refine ⟨hcore, ?_⟩
  rw [compactData_eq h.toCoreInv, liveOffsets_relocate]
  exact h.table

theorem reserveData_probe (h : ProbeInv s gs o 0 top) (evLen : Nat) :
    ∃ gs' top', ProbeInv (s.reserveData evLen) gs' o 0 top' := by
  rw [StickyStore.reserveData]
  split
  next =>
    by_cases hdue : s.dataRevoked > s.data.length / 2
    · have hinv := compactData_probe h
      rw [if_pos hdue]
      exact ⟨_, _, ⟨hinv.metas, hinv.groups, hinv.laid, hinv.top_le, hinv.header⟩, hinv.table⟩
    · rw [if_neg hdue]
      exact ⟨gs, top, ⟨h.metas, h.groups, h.laid, h.top_le, h.header⟩, h.table⟩
  next => exact ⟨gs, top, h⟩

theorem copied_probe (h : ProbeInv s gs o 0 top) (e : LmdEventOut) :
    ∃ gs' top', ProbeInv (s.copied e) gs' o 0 top' ∧
      top' ≤ (s.reserveData (e.getLength + sizeofEventHeader)).data.length := by
  obtain ⟨gs', top', h'⟩ := reserveData_probe h (e.getLength + sizeofEventHeader)
  refine ⟨gs', top', ⟨⟨h'.metas, h'.groups, h'.laid, ?_, h'.header⟩, h'.table⟩, h'.top_le⟩
  rw [StickyStore.copied, List.length_append]
  exact Nat.le_trans h'.top_le (Nat.le_add_right _ _)

theorem countOk_probe {hash : List (HashSlot Nat)} {used pend : Nat} {offs : List Nat}
    (h : CountOk hash used pend offs) : ProbeTable hash used pend offs :=
  ⟨h.size, Nat.le_of_eq (countOk_filled h), h.room, h.exact⟩

theorem reserveHash_probe {numSev : Nat} {recalc : Bool} (h : CoreInv s gs o 0 top)
    (hsize : s.hash = [] ∨ ∃ k, s.hash.length = 2 ^ k)
    (hcount : (liveOffsets 0 gs).length ≤ s.hashUsed)
    (htable : recalc = false → ProbeTable s.hash s.hashUsed 0 (liveOffsets 0 gs)) :
    ∃ t used, s.reserveHash numSev recalc = .ok { s with hash := t, hashUsed := used } ∧
      ProbeTable t used numSev (liveOffsets 0 gs) := by
  refine reserveHash_cases hsize (fun t hn hroom _ => ?_) fun hrecalc hroom => ?_
  · obtain ⟨t', hpop, -, ht⟩ := @populateHash_countOk { s with hash := t } gs o top numSev
      ⟨h.metas, h.groups, h.laid, h.top_le, h.header⟩ hn (by dsimp only; omega)
    exact ⟨t', _, hpop, countOk_probe ht⟩
  · have ht := htable hrecalc
    exact ⟨ht.size, ht.filled, by omega, ht.exact⟩

theorem reserve_probe (h : ProbeInv s gs o 0 top) (metaAdd numSev : Nat) :
    ∃ s' gs', (s.reserveMeta metaAdd).1.reserveHash numSev (s.reserveMeta metaAdd).2 = .ok s' ∧
      CoreInv s' gs' o 0 top ∧ s'.data = s.data ∧
      ProbeTable s'.hash s'.hashUsed numSev (liveOffsets 0 gs') := by
  generalize hr : s.reserveMeta metaAdd = p
  obtain ⟨s₁, recalc⟩ := p
  obtain ⟨gs₁, h₁, hdata, hhash, hused, hlists, hsame⟩ := reserveMeta_inv h.toCoreInv hr
  have hlen : (liveOffsets 0 gs₁).length = (liveOffsets 0 gs).length := by
    rw [liveOffsets_length s.data, liveOffsets_length s.data, ← liveLists_flatten,
      ← liveLists_flatten, hlists]
  have hcount : (liveOffsets 0 gs₁).length ≤ s₁.hashUsed := by
    rw [hlen, hused]
    exact h.table.count
  have htable : recalc = false → ProbeTable s₁.hash s₁.hashUsed 0 (liveOffsets 0 gs₁) := by
    intro hrec
    rw [(hsame hrec).1, hhash, hused]
    exact h.table
  obtain ⟨t, used, hres, hok⟩ := @reserveHash_probe s₁ gs₁ o top numSev recalc h₁
    (by rw [hhash]; exact h.table.size) hcount htable
  exact ⟨_, gs₁, hres, ⟨h₁.metas, h₁.groups, h₁.laid, h₁.top_le, h₁.header⟩, hdata, hok⟩

end Reserve

section Enter

variable {s s₁ : StickyStore} {gs gs₁ : List MetaGroup} {openPos pend top len dest : Nat}
  {header : List UInt8} {offs : List Nat}

theorem enterHash_probe (keep : Bool) (h₁ : CoreInv s₁ gs₁ openPos pend top)
    (ho : Opened s₁.data gs₁ openPos header)
    (htab : ProbeTable s₁.hash s₁.hashUsed (pend + 1) offs)
    (hoffs : liveOffsets 0 gs₁ = offs ++ if keep then [dest] else []) (bs : List UInt8) :
    ∃ s' gs', s₁.enterHash bs keep dest = .ok s' ∧ ProbeInv s' gs' openPos pend top ∧
      Opened s'.data gs' openPos header ∧ s'.data = s₁.data := by
  obtain ⟨k, hk⟩ := htab.pow
  have hlt := htab.lt (List.length_pos_iff.mp (hk ▸ Nat.two_pow_pos k))
  obtain ⟨entry, hfind, hreach, hcase⟩ :=
    findSame_spec hk hlt (s₁.sameId bs) (stickySubeventHash bs)
  -- what is left of the old offsets, and a slot that the new one may be put in
  obtain ⟨s₂, gs₂, offs₂, hs₂, hcore, hopen, hdata₂, hoffs₂, htab₂, hput⟩ :
      ∃ s₂ gs₂ offs₂, s₁.vacate entry = s₂ ∧ CoreInv s₂ gs₂ openPos pend top ∧
        Opened s₂.data gs₂ openPos header ∧ s₂.data = s₁.data ∧
        (liveOffsets 0 gs₂).Perm (offs₂ ++ if keep then [dest] else []) ∧
        ProbeTable s₂.hash s₂.hashUsed pend offs₂ ∧
        ∀ i slot, s₂.hash[i]? = some slot →
          (∀ e, Reach s₂.hash (stickySubeventHash bs) e → s₂.hash[e]? = some .discarded →
            slot ≠ .empty) →
          filled (s₂.hash.set i (.used dest)) ≤ s₂.hashUsed := by
    rcases hcase with ⟨off, hoff, hsame⟩ | ⟨hempty, -⟩
    · obtain ⟨gsa, ev, subs₁, sev, subs₂, gsb, d, rfl, rfl, hd⟩ := sameId_true h₁ hsame
      have heq := supersede_eq h₁ entry
      have hcore := supersede_core hd h₁ entry
      have hperm := @supersede_offsets gsa gsb ev subs₁ subs₂ sev d hd
      generalize (flatMetas gsa).length + (subs₁.length + 1) = off at *
      have hmem : off ∈ offs := htab.exact.mem_iff.mp (mem_usedOf.mpr (List.mem_of_getElem? hoff))
      have herase := List.perm_cons_erase hmem
      have htab₂ := htab.discard hoff herase
      refine ⟨s₁.supersede entry off, _, offs.erase off, by rw [StickyStore.vacate, hoff], hcore,
        ?_, ?_, ?_, ?_, ?_⟩
      · rw [heq]
        exact opened_replace ho (by simp) rfl
      · rw [heq]
      · rw [hoffs] at hperm
        exact List.Perm.cons_inv (hperm.symm.trans (herase.append_right _))
      · rw [heq]
        exact htab₂
      · rw [heq]
        intro i slot hi hslot
        have hlen : entry < s₁.hash.length := (List.getElem?_eq_some_iff.mp hoff).1
        have hne : slot ≠ .empty := by
          apply hslot entry (reach_set hreach (by simp))
          rw [List.getElem?_set, if_pos rfl, if_pos hlen]
        exact Nat.le_trans (filled_set_of_ne_empty hi hne) htab₂.filled
    · refine ⟨{ s₁ with hashUsed := s₁.hashUsed + 1 }, gs₁, offs,
        by rw [StickyStore.vacate, hempty],
        ⟨h₁.metas, h₁.groups, h₁.laid, h₁.top_le, h₁.header⟩, ho, rfl, hoffs ▸ List.Perm.refl _,
        htab.new, ?_⟩
      intro i slot _ _
      have hle := filled_set_le s₁.hash i (.used dest)
      have hfilled := htab.filled
      simp only
      omega
  rw [StickyStore.enterHash, hfind]
  simp only [hs₂]
  cases keep with
  | false =>
    rw [if_neg (by simp), List.append_nil] at hoffs₂
    exact ⟨s₂, gs₂, rfl, ⟨hcore, htab₂.size, htab₂.filled, htab₂.room,
      htab₂.exact.trans hoffs₂.symm⟩, hopen, hdata₂⟩
  | true =>
    rw [if_pos rfl] at hoffs₂
    have hlen : s₂.hash.length = 2 ^ k := by
      rw [← hs₂, StickyStore.vacate]
      split
      · unfold StickyStore.supersede
        split
        · split
          · simpa using hk
          · exact hk
        · exact hk
      · exact hk
    have hlt₂ := htab₂.lt (List.length_pos_iff.mp (hlen ▸ Nat.two_pow_pos k))
    obtain ⟨i, slot, hfree, hi, hslot, -, hdis⟩ :=
      findFree_spec hlen hlt₂ (stickySubeventHash bs)
    have htab₃ := htab₂.put hi hslot (hput i slot hi hdis)
    refine ⟨{ s₂ with hash := s₂.hash.set i (.used dest) }, gs₂, by rw [if_pos rfl, hfree],
      ⟨⟨hcore.metas, hcore.groups, hcore.laid, hcore.top_le, hcore.header⟩, htab₃.size,
        htab₃.filled, htab₃.room, htab₃.exact.trans hoffs₂.symm⟩, hopen, hdata₂⟩

theorem insertSubevent_probe (h : ProbeInv s gs openPos (pend + 1) top)
    (ho : Opened s.data gs openPos header) (hlen : top + len ≤ s.data.length)
    (discardRevoke : Bool) :
    ∃ s' gs', s.insertSubevent discardRevoke openPos top len = .ok s' ∧
      ProbeInv s' gs' openPos pend (top + len) ∧ Opened s'.data gs' openPos header ∧
      s'.data = s.data := by
  rw [StickyStore.insertSubevent]
  generalize (!discardRevoke || !subIsRevoke (s.data.drop top)) = keep
  cases keep with
  | false =>
    obtain ⟨gs₁, h₁, ho₁, hlists⟩ := uncount_core h.toCoreInv ho hlen
    obtain ⟨hd, hh, hu⟩ := uncount_same s openPos
    have hoffs : liveOffsets 0 gs₁ = liveOffsets 0 gs ++ if false then [s.metas.length] else [] := by
      rw [← items_offsets s.data, ← items_offsets s.data, ← itemLists_flatten, hlists,
        itemLists_flatten]
      simp
    obtain ⟨s', gs', hent, hinv, hop, hdat⟩ := enterHash_probe false h₁ (hd ▸ ho₁)
      (by rw [hh, hu]; exact h.table) hoffs (s.data.drop top)
    exact ⟨s', gs', hent, hinv, hop, hdat.trans hd⟩
  | true =>
    obtain ⟨gs₁, h₁, ho₁, -, C, o, hC, hC₁⟩ := enter_core h.toCoreInv ho hlen
    have hoffs : liveOffsets 0 gs₁ = liveOffsets 0 gs ++ if true then [s.metas.length] else [] := by
      rw [← items_offsets s.data, ← items_offsets s.data, items_of_lists hC, items_of_lists hC₁]
      simp
    exact enterHash_probe true h₁ ho₁ h.table hoffs (s.data.drop top)

theorem insertSubevents_probe {discardRevoke : Bool} {evDataOff evLen fuel off : Nat}
    {subs : List (List UInt8)} (h : ProbeInv s gs openPos subs.length (evDataOff + off))
    (ho : Opened s.data gs openPos header) (hdata : s.data.drop (evDataOff + off) = subs.flatten)
    (hend : evDataOff + evLen = s.data.length) (hw : SubeventWalk subs)
    (hfuel : subs.length ≤ fuel) :
    ∃ s' gs' top', insertSubevents discardRevoke openPos evDataOff evLen fuel off s = .ok s' ∧
      ProbeInv s' gs' openPos 0 top' := by
  induction subs generalizing fuel off s gs with
  | nil =>
    have hoff : off = evLen := by
      have hle := List.drop_eq_nil_iff.mp hdata
      have := h.top_le
      omega
    refine ⟨s, gs, _, ?_, h⟩
    cases fuel with
    | zero => rfl
    | succ fuel => rw [insertSubevents, if_pos hoff]
  | cons b subs ih =>
    obtain ⟨fuel, rfl⟩ := Nat.exists_eq_add_one_of_ne_zero (show fuel ≠ 0 by simp at hfuel; omega)
    obtain ⟨hd, hd', hlen⟩ := drop_flatten_cons hdata
    have h8 : 8 ≤ b.length := hw.2.1 ▸ eight_le_subLength b
    have hsub : subLength (s.data.drop (evDataOff + off)) = b.length := by
      rw [hd, subLength_append _ h8, hw.2.1]
    have htop := h.top_le
    obtain ⟨s₁, gs₁, hins, hinv, hopen, hds⟩ :=
      @insertSubevent_probe _ _ _ _ _ b.length _ h ho (by omega) discardRevoke
    rw [Nat.add_assoc] at hinv hd'
    obtain ⟨s', gs', top', hrec, hinv'⟩ := ih hinv hopen (by rw [hds]; exact hd')
      (by rw [hds]; exact hend) hw.2.2 (by simpa using hfuel)
    refine ⟨s', gs', top', ?_, hinv'⟩
    rw [insertSubevents, if_neg (by omega), hsub]
    simp only [hins]
    exact hrec

end Enter

section Insert

variable {s : StickyStore} {gs : List MetaGroup} {o top : Nat} {e : LmdEventOut}

theorem insert_probe {subs : List (List UInt8)} (h : ProbeInv s gs o 0 top) (he : e.Accepted subs)
    (discardRevoke : Bool) :
    ∃ s' gs' o' top', s.insert e discardRevoke = .ok s' ∧ ProbeInv s' gs' o' 0 top' := by
  have hwl := write_length he.copyable
  have h16w := sixteen_le_write he.copyable
  have h16 : sizeofEvent101 = 16 := rfl
  have hsplit := he.write_split
  have hwalk := he.walk_rest
  rw [insert_eq_counted he, StickyStore.insertCounted]
  generalize (subs.takeWhile subIsTstamp).flatten = tst at *
  generalize subs.dropWhile subIsTstamp = rest at *
  obtain ⟨gs₁, top₁, h₁, htop₁⟩ := copied_probe h e
  have hcopied : (s.copied e).data =
      (s.reserveData (e.getLength + sizeofEventHeader)).data ++ e.write := rfl
  generalize (s.reserveData (e.getLength + sizeofEventHeader)).data = data₁ at *
  obtain ⟨s₃, gs₃, hres, h₃, hd₃, htab₃⟩ :=
    reserve_probe h₁ (sizeofMetaEntry + rest.length * sizeofMetaEntry) rest.length
  have hlen₃ : s₃.data.length = data₁.length + e.write.length := by
    rw [hd₃, hcopied, List.length_append]
  have hwlen : e.write.length = sizeofEvent101 + (tst.length + rest.flatten.length) := by
    have hl := congrArg List.length hsplit
    rw [List.length_drop, List.length_append] at hl
    omega
  obtain ⟨hcore, hopen, hlists⟩ := @openEvent_core s₃ gs₃ o top₁ data₁.length
    (sizeofEvent101 + tst.length) rest.length h₃ htop₁ (by omega) (by omega)
  have hoffs := congrArg (fun lists => lists.flatten.map (·.1)) hlists
  simp only [List.flatten_append, List.flatten_cons, List.flatten_nil, List.append_nil,
    itemLists_flatten, items_offsets] at hoffs
  have hinv : ProbeInv { s₃ with metas := s₃.metas ++ [.event
      ⟨data₁.length, sizeofEvent101 + tst.length, rest.length, rest.length⟩] } _ _ _ _ :=
    ⟨hcore, by rw [hoffs]; exact htab₃⟩
  have hsubs : s₃.data.drop (data₁.length + (sizeofEvent101 + tst.length)) = rest.flatten := by
    rw [hd₃, hcopied, ← List.drop_drop, List.drop_left, ← List.drop_drop, hsplit, List.drop_left]
  have hnum := walk_length_le hwalk
  obtain ⟨s', gs', top', hins, hinv'⟩ := @insertSubevents_probe _ _ _ _ discardRevoke _
    (e.getLength + sizeofEventHeader) (e.getLength + sizeofEventHeader) _ _ hinv hopen hsubs
    (by rw [← hwl]; exact hlen₃.symm) hwalk (by omega)
  refine ⟨s', gs', _, top', ?_, hinv'⟩
  simp only [bind, Except.bind, hres]
  exact hins

theorem insertEnd_probe (h : ProbeInv s gs o 0 top) (e : LmdEventOut) (discardRevoke : Bool) :
    s.insertEnd e discardRevoke ≠ .endless ∧
      ∀ s', s.insertEnd e discardRevoke = .stored s' ∨ s.insertEnd e discardRevoke = .failed s' →
        ∃ gs' o' top', ProbeInv s' gs' o' 0 top' := by
  rw [StickyStore.insertEnd]
  by_cases hc : e.Copyable
  · rw [if_pos hc]
    cases hchk : e.stickyChecks with
    | true =>
      obtain ⟨subs, hacc⟩ := checks_accepted hc hchk
      obtain ⟨s₁, gs₁, o₁, top₁, hins, hinv⟩ := insert_probe h hacc discardRevoke
      rw [hins]
      refine ⟨by rintro ⟨⟩, ?_⟩
      rintro s' (hs | hs)
      · cases hs
        exact ⟨gs₁, o₁, top₁, hinv⟩
      · cases hs
    | false =>
      obtain ⟨msg, hmsg⟩ := insert_error_of_checks hchk s discardRevoke
      obtain ⟨gs₁, top₁, hinv, -⟩ := copied_probe h e
      simp only [hmsg, Bool.false_eq_true, if_false]
      cases hover : e.overflows with
      | true => exact ⟨by rintro ⟨⟩, fun s' hs => by rcases hs with hs | hs <;> cases hs⟩
      | false =>
        refine ⟨by rintro ⟨⟩, ?_⟩
        rintro s' (hs | hs)
        · cases hs
        · cases hs
          exact ⟨gs₁, o, top₁, hinv⟩
  · rw [if_neg hc]
    exact ⟨by rintro ⟨⟩, fun s' hs => by rcases hs with hs | hs <;> cases hs⟩

end Insert

/-- The store after an operation, also if one of the assertions that only debugging has would not
hold. There is none after an abort. -/
def StickyStore.next (s : StickyStore) : StickyOp → Option StickyStore
  | .insert e discardRevoke =>
    match s.insertEnd e discardRevoke with
    | .stored s' => some s'
    | .failed s' => some s'
    | .aborted => none
    | .endless => none
  | .writeEvents => some s

def StickyStore.reach (s : StickyStore) (ops : List StickyOp) : Option StickyStore :=
  ops.foldlM StickyStore.next s

theorem next_probe {s s' : StickyStore} {gs : List MetaGroup} {o top : Nat} {op : StickyOp}
    (h : ProbeInv s gs o 0 top) (hs : s.next op = some s') :
    ∃ gs' o' top', ProbeInv s' gs' o' 0 top' := by
  cases op with
  | writeEvents =>
    cases hs
    exact ⟨gs, o, top, h⟩
  | insert e discardRevoke =>
    refine (insertEnd_probe h e discardRevoke).2 s' ?_
    rw [StickyStore.next] at hs
    split at hs
    next heq =>
      cases hs
      exact .inl heq
    next heq =>
      cases hs
      exact .inr heq
    next => cases hs
    next => cases hs

theorem reach_probe {s s' : StickyStore} {gs : List MetaGroup} {o top : Nat} {ops : List StickyOp}
    (h : ProbeInv s gs o 0 top) (hs : s.reach ops = some s') :
    ∃ gs' o' top', ProbeInv s' gs' o' 0 top' := by
  induction ops generalizing s gs o top with
  | nil =>
    cases hs
    exact ⟨gs, o, top, h⟩
  | cons op ops ih =>
    rw [StickyStore.reach, List.foldlM_cons, Option.bind_eq_bind, Option.bind_eq_some_iff] at hs
    obtain ⟨s₁, hstep, hrest⟩ := hs
    obtain ⟨gs₁, o₁, top₁, h₁⟩ := next_probe h hstep
    exact ih h₁ hrest

/-- In every state of a run, with any events: the table is at most half used, so that it has an
empty slot once it is allocated, and every search of a subevent's id ends; and no call of `insert`
goes on without end. -/
theorem sticky_probes_end {ops : List StickyOp} {s : StickyStore}
    (h : StickyStore.empty.reach ops = some s) :
    filled s.hash ≤ s.hashUsed ∧ s.hashUsed ≤ s.hash.length / 2 ∧
      (s.hash ≠ [] → ∃ i : Nat, s.hash[i]? = some .empty) ∧
      (s.hash ≠ [] → ∀ (same : Nat → Bool) (bs : List UInt8),
        (∃ i, findSame s.hash same (stickySubeventHash bs) = some i ∧
          (s.hash[i]? = some .empty ∨ ∃ off, s.hash[i]? = some (.used off) ∧ same off = true)) ∧
        ∃ i slot, findFree s.hash (stickySubeventHash bs) = some i ∧ s.hash[i]? = some slot ∧
          slot.isFree = true) ∧
      ∀ e discardRevoke, s.insertEnd e discardRevoke ≠ .endless := by
  obtain ⟨gs, o, top, hinv⟩ := reach_probe probeInv_empty h
  have htab := hinv.table
  refine ⟨htab.filled, by simpa using htab.room, fun hne => exists_empty (htab.lt hne), ?_,
    fun e discardRevoke => (insertEnd_probe hinv e discardRevoke).1⟩
  intro hne same bs
  obtain ⟨k, hk⟩ := htab.size.resolve_left hne
  constructor
  · obtain ⟨i, hfind, -, hcase⟩ := findSame_spec hk (htab.lt hne) same (stickySubeventHash bs)
    refine ⟨i, hfind, ?_⟩
    rcases hcase with hsame | ⟨hempty, -⟩
    · exact .inr hsame
    · exact .inl hempty
  · obtain ⟨i, slot, hfree, hi, hslot, -⟩ :=
      findFree_spec hk (htab.lt hne) (stickySubeventHash bs)
    exact ⟨i, slot, hfree, hi, hslot⟩

theorem sticky_probes_end_short : ∃ s, StickyStore.empty.reach shortSubRun = some s ∧
    filled s.hash ≤ s.hashUsed ∧ s.hashUsed ≤ s.hash.length / 2 ∧
    ∀ e discardRevoke, s.insertEnd e discardRevoke ≠ .endless := by
  have hsome : (StickyStore.empty.reach shortSubRun).isSome = true := by decide +kernel
  obtain ⟨s, hs⟩ := Option.isSome_iff_exists.mp hsome
  obtain ⟨hfilled, hused, -, -, hend⟩ := sticky_probes_end hs
  exact ⟨s, hs, hfilled, hused, hend⟩

theorem no_table_first : StickyStore.empty.reach [] = some StickyStore.empty ∧
    ¬ ∃ i : Nat, StickyStore.empty.hash[i]? = some .empty := by
  refine ⟨rfl, ?_⟩
  rintro ⟨i, hi⟩
  simp [StickyStore.empty] at hi

end Ucesb
