import Ucesb.StickyAssert
import Ucesb.StickyLog

namespace Ucesb

inductive StickyOp where
  | insert (e : LmdEventOut) (discardRevoke : Bool)
  | writeEvents
deriving DecidableEq, Repr

def StickyStore.step (s : StickyStore) : StickyOp → Option StickyStore
  | .insert e discardRevoke =>
    if s.insertAsserts e discardRevoke then
      match s.insertEnd e discardRevoke with
      | .stored s' => some s'
      | .failed s' => some s'
      | _ => none
    else none
  | .writeEvents => if s.writeAsserts then some s else none

def StickyStore.runOps (s : StickyStore) (ops : List StickyOp) : Option StickyStore :=
  ops.foldlM StickyStore.step s

/-- No event that `insert` accepts has a piece too short for its header. -/
def StickyOp.NoShort : StickyOp → Prop
  | .insert e _ => ∀ subs, e.Accepted subs → ∀ b ∈ subs, ¬ rd32 b < 2
  | .writeEvents => True

/-- `insert` gets through the event: what is swapped is whole words, and no payload overflows. -/
def StickyOp.Passes : StickyOp → Prop
  | .insert e _ => e.Copyable ∧ e.overflows = false
  | .writeEvents => True

theorem accepted_sub_length {e : LmdEventOut} {subs : List (List UInt8)} (h : e.Accepted subs) :
    ∀ b ∈ subs, b.length < 2 ^ 63 := by
  intro b hb
  have hle : b.length ≤ subs.flatten.length := (List.sublist_flatten_of_mem hb).length_le
  have hn := LmdEventOut.native_length h.copyable
  have hsize := h.size
  rw [LmdEventOut.native_eq, List.length_append, h.data] at hn
  omega

theorem accepted_locate {e : LmdEventOut} {subs : List (List UInt8)} (h : e.Accepted subs)
    (hlong : ∀ b ∈ subs, ¬ rd32 b < 2) : locateSubevents (nativeData e.more) = .ok subs := by
  have hwhole : ∀ b ∈ subs, WholeSubevent b := fun b hb => walk_whole h.walk hb (hlong b hb)
  rw [h.data]
  exact locateSubeventsLoop_flatten hwhole (accepted_sub_length h) (Nat.le_refl _)

theorem accepted_located {e : LmdEventOut} {subs : List (List UInt8)} (h : e.Accepted subs)
    (hlong : ∀ b ∈ subs, ¬ rd32 b < 2) : e.located = subs := by
  rw [LmdEventOut.located, accepted_locate h hlong]

theorem accepted_storable {e : LmdEventOut} {subs : List (List UInt8)} (h : e.Accepted subs)
    (hlong : ∀ b ∈ subs, ¬ rd32 b < 2) : e.Storable := by
  have hlocated := accepted_located h hlong
  refine ⟨⟨h.copyable, ?_⟩, h.size, h.sticky, ?_⟩
  · rw [hlocated]
    exact accepted_locate h hlong
  · rw [LmdEventOut.stickySubs, hlocated]
    exact h.tstampFirst

theorem accepted_sound {e : LmdEventOut} {subs : List (List UInt8)} (h : e.Accepted subs)
    (hlong : ∀ b ∈ subs, ¬ rd32 b < 2) : e.Sound := by
  have hlocated := accepted_located h hlong
  exact ⟨hlocated.symm ▸ h,
    hlocated.symm ▸ fun b hb => walk_whole h.walk hb (hlong b hb)⟩

/-- What an operation does to the events that are held, with their live subevents. -/
def StickyOp.effect (op : StickyOp) (held : List (List (List UInt8 × List UInt8))) :
    List (List (List UInt8 × List UInt8)) :=
  match op with
  | .insert e discardRevoke =>
    if e.stickyChecks
      then writeGroup subKey held (subWrites discardRevoke e.storedHeader e.stickySubs) else held
  | .writeEvents => held

section Step

variable {s : StickyStore} {gs : List MetaGroup} {o top : Nat} {op : StickyOp}

theorem countedAsserts_of_inv (h : StoreInv s gs o 0 top) (numSev : Nat) :
    s.countedAsserts numSev = true := by
  obtain ⟨s', gs', hres, hcore, _⟩ :=
    reserve_inv h (sizeofMetaEntry + numSev * sizeofMetaEntry) numSev
  rw [StickyStore.countedAsserts]
  simp only [hres, iterates_of_core hcore, verifyMeta_of_core hcore,
    compactMeta_asserts h.toCoreInv, ite_self, Bool.and_self]

theorem insertEnd_inv {e : LmdEventOut} (h : StoreInv s gs o 0 top) (hc : e.Copyable)
    (hov : e.overflows = false) (hlong : ∀ subs, e.Accepted subs → ∀ b ∈ subs, ¬ rd32 b < 2)
    (discardRevoke : Bool) :
    ∃ s' gs' o' top', StoreInv s' gs' o' 0 top' ∧
      (s.insertEnd e discardRevoke = .stored s' ∨ s.insertEnd e discardRevoke = .failed s') ∧
      liveLists s'.data gs' = (StickyOp.insert e discardRevoke).effect (liveLists s.data gs) := by
  rw [StickyStore.insertEnd, if_pos hc]
  cases hchk : e.stickyChecks with
  | true =>
    obtain ⟨subs, hacc⟩ := checks_accepted hc hchk
    obtain ⟨s', gs', o', top', hins, hinv, hlists⟩ :=
      insert_inv h (accepted_sound hacc (hlong subs hacc)) discardRevoke
    refine ⟨s', gs', o', top', hinv, .inl (by rw [hins]), ?_⟩
    rw [hlists, StickyOp.effect, hchk, if_pos rfl]
  | false =>
    obtain ⟨msg, hmsg⟩ := insert_error_of_checks hchk s discardRevoke
    obtain ⟨gs', top', hinv, _, hlists⟩ := copied_inv h e
    refine ⟨s.copied e, gs', o, top', hinv, .inr (by simp [hmsg, hov]), ?_⟩
    rw [hlists, StickyOp.effect, hchk, if_neg (by simp)]

theorem insertAsserts_of_inv {e : LmdEventOut} (h : StoreInv s gs o 0 top)
    (hc : e.Copyable) (hov : e.overflows = false)
    (hlong : ∀ subs, e.Accepted subs → ∀ b ∈ subs, ¬ rd32 b < 2) (discardRevoke : Bool) :
    s.insertAsserts e discardRevoke = true := by
  obtain ⟨s', gs', o', top', hinv, hend, _⟩ := insertEnd_inv h hc hov hlong discardRevoke
  obtain ⟨gs₁, top₁, h₁, _⟩ := copied_inv h e
  rw [StickyStore.insertAsserts, verifyMeta_of_core h.toCoreInv, compactData_asserts h.toCoreInv, hov,
    ite_self]
  rcases hend with hend | hend <;>
    simp [hend, countedAsserts_of_inv h₁, verifyMeta_of_core hinv.toCoreInv]

theorem stickyStep_inv (h : StoreInv s gs o 0 top) (hshort : op.NoShort) :
    (op.Passes ∧ ∃ s' gs' o' top', s.step op = some s' ∧ StoreInv s' gs' o' 0 top' ∧
      liveLists s'.data gs' = op.effect (liveLists s.data gs)) ∨
    (¬ op.Passes ∧ s.step op = none) := by
  cases op with
  | writeEvents =>
    refine .inl ⟨trivial, s, gs, o, top, ?_, h, rfl⟩
    rw [StickyStore.step, writeAsserts_of_core h.toCoreInv, if_pos rfl]
  | insert e discardRevoke =>
    by_cases hc : e.Copyable
    · cases hov : e.overflows with
      | false =>
        obtain ⟨s', gs', o', top', hinv, hend, hlists⟩ :=
          insertEnd_inv h hc hov hshort discardRevoke
        refine .inl ⟨⟨hc, hov⟩, s', gs', o', top', ?_, hinv, hlists⟩
        rw [StickyStore.step, insertAsserts_of_inv h hc hov hshort, if_pos rfl]
        rcases hend with hend | hend <;> rw [hend]
      | true =>
        refine .inr ⟨fun hp => absurd (hov.symm.trans hp.2) (by simp), ?_⟩
        rw [StickyStore.step, StickyStore.insertAsserts, hov]
        simp
    · refine .inr ⟨fun hp => hc hp.1, ?_⟩
      rw [StickyStore.step, StickyStore.insertEnd, if_neg hc]
      simp

end Step

/-- The counts are right, the hash table has exactly the live subevents, each where a search
finds it, and what is live lies in the data. -/
structure StickyStore.Consistent (s : StickyStore) : Prop where
  counts : ∀ g ∈ s.groups, g.ev.liveSub = g.subs.countP (·.isLive)
  hashed : ∀ off sev d, s.metas[off]? = some (.subevent sev) → sev.dataOffset = some d →
    ∃ entry, s.hash[entry]? = some (.used off) ∧
      Reach s.hash (stickySubeventHash (s.data.drop d)) entry ∧
      ∀ entry', s.hash[entry']? = some (.used off) → entry' = entry
  pointed : ∀ off, HashSlot.used off ∈ s.hash →
    ∃ sev d, s.metas[off]? = some (.subevent sev) ∧ sev.dataOffset = some d
  events : ∀ g ∈ s.groups, g.ev.liveSub ≠ 0 →
    g.ev.dataOffset + g.ev.dataLength ≤ s.data.length
  subevents : ∀ g ∈ s.groups, ∀ sev ∈ g.subs, ∀ d, sev.dataOffset = some d →
    d + sev.dataLength ≤ s.data.length

theorem live_item {data : List UInt8} {gs : List MetaGroup} {off d : Nat} {sev : MetaSubevent}
    (h : (flatMetas gs)[off]? = some (.subevent sev)) (hd : sev.dataOffset = some d) :
    ∃ header, (off, header, slice data d sev.dataLength) ∈ itemsOf data 0 gs := by
  obtain ⟨gs₁, ⟨ev, subs⟩, gs₂, subs₁, subs₂, rfl, hsub, rfl⟩ := flatMetas_subevent h
  simp only at hsub
  subst hsub
  exact ⟨_, (supersede_lists data hd).2⟩

theorem consistent_of_inv {s : StickyStore} {gs : List MetaGroup} {o top : Nat}
    (h : StoreInv s gs o 0 top) : s.Consistent := by
  have hcore := h.toCoreInv
  have hg := coreInv_groups hcore
  have hiter := coreInv_iter hcore
  have hpiece : ∀ p ∈ piecesOf gs, p.1 + p.2 ≤ s.data.length :=
    fun p hp => Nat.le_trans (laid_mem h.laid p hp) h.top_le
  have hcount : ∀ g ∈ gs, g.ev.liveSub = g.subs.countP (·.isLive) := by
    intro g hm
    obtain ⟨_, hok⟩ := groupsOk_mem hg hm
    exact hok.liveSub
  have hpieces : ∀ g ∈ gs, g.ev.liveSub ≠ 0 →
      ∀ p ∈ (g.ev.dataOffset, g.ev.dataLength) :: subPieces g.subs, p ∈ piecesOf gs := by
    intro g hm hz p hp
    refine List.mem_flatMap.mpr ⟨g, hm, ?_⟩
    rw [MetaGroup.pieces, if_neg hz]
    exact hp
  refine ⟨?_, ?_, ?_, ?_, ?_⟩
  · rw [hiter]
    exact hcount
  · intro off sev d hget hd
    rw [h.metas] at hget
    obtain ⟨header, hx⟩ := @live_item s.data gs off d sev hget hd
    obtain ⟨entry, hentry, hreach⟩ := h.table.found _ (List.mem_map_of_mem hx)
    refine ⟨entry, hentry, ?_, ?_⟩
    · rw [stickySubeventHash_congr (subId_drop (h.whole _ hx))]
      exact hreach
    · intro entry' hentry'
      have hn := h.table.exact.nodup_iff.mpr (itemsOf_fst_nodup s.data 0 gs)
      exact usedOf_slot_unique hn entry' entry hentry' hentry
  · intro off hoff
    obtain ⟨i, hi⟩ := List.mem_iff_getElem?.mp hoff
    obtain ⟨x, hx, rfl⟩ := tableOk_item h.table hi
    obtain ⟨sev, d, _, hget, hd, _⟩ := itemsOf_mem hx
    exact ⟨sev, d, by rw [h.metas]; exact hget, hd⟩
  · intro g hm hz
    rw [hiter] at hm
    exact hpiece _ (hpieces g hm hz _ List.mem_cons_self)
  · intro g hm sev hsev d hd
    rw [hiter] at hm
    have hmem : (d, sev.dataLength) ∈ subPieces g.subs :=
      List.mem_filterMap.mpr ⟨sev, hsev, by simp [hd]⟩
    have hz : g.ev.liveSub ≠ 0 := by
      rw [hcount g hm, ← subPieces_length]
      exact Nat.ne_of_gt (List.length_pos_of_mem hmem)
    exact hpiece _ (hpieces g hm hz _ (List.mem_cons_of_mem _ hmem))

theorem stickyRun_inv {s s' : StickyStore} {gs : List MetaGroup} {o top : Nat} {ops : List StickyOp}
    (h : StoreInv s gs o 0 top) (hshort : ∀ op ∈ ops, op.NoShort) (hrun : s.runOps ops = some s') :
    ∃ gs' o' top', StoreInv s' gs' o' 0 top' := by
  induction ops generalizing s gs o top with
  | nil =>
    cases hrun
    exact ⟨gs, o, top, h⟩
  | cons op ops ih =>
    rw [StickyStore.runOps, List.foldlM_cons, Option.bind_eq_bind, Option.bind_eq_some_iff] at hrun
    obtain ⟨s₁, hstep, hrest⟩ := hrun
    rcases stickyStep_inv h (hshort op (by simp)) with ⟨_, s₂, gs₂, o₂, top₂, hs₂, hinv, _⟩ | ⟨_, hnone⟩
    · rw [hstep, Option.some.injEq] at hs₂
      subst hs₂
      exact ih hinv (fun p hp => hshort p (by simp [hp])) hrest
    · rw [hstep] at hnone
      cases hnone

theorem stickyRun_passes {s : StickyStore} {gs : List MetaGroup} {o top : Nat} {ops : List StickyOp}
    (h : StoreInv s gs o 0 top) (hsafe : ∀ op ∈ ops, op.NoShort ∧ op.Passes) :
    ∃ s', s.runOps ops = some s' := by
  induction ops generalizing s gs o top with
  | nil => exact ⟨s, rfl⟩
  | cons op ops ih =>
    obtain ⟨hshort, hpass⟩ := hsafe op (by simp)
    rcases stickyStep_inv h hshort with ⟨_, s₁, gs₁, o₁, top₁, hs₁, hinv, _⟩ | ⟨hno, _⟩
    · obtain ⟨s', hs'⟩ := ih hinv fun p hp => hsafe p (by simp [hp])
      exact ⟨s', by rw [StickyStore.runOps, List.foldlM_cons, hs₁]; exact hs'⟩
    · exact absurd hpass hno

/-- In every run in which no payload overflows its event and no accepted event has a piece
shorter than a header, all assertions hold and every state reached is consistent. -/
theorem sticky_store_consistent {ops : List StickyOp} (h : ∀ op ∈ ops, op.NoShort ∧ op.Passes) :
    ∃ s, StickyStore.empty.runOps ops = some s ∧ s.Consistent := by
  obtain ⟨s, hs⟩ := stickyRun_passes storeInv_empty h
  obtain ⟨gs, o, top, hinv⟩ := stickyRun_inv storeInv_empty (fun op hop => (h op hop).1) hs
  exact ⟨s, hs, consistent_of_inv hinv⟩

theorem storable_noShort {e : LmdEventOut} (h : e.Storable) (discardRevoke : Bool) :
    (StickyOp.insert e discardRevoke).NoShort := by
  intro subs hacc
  have hs := Storable.sound h
  exact walk_long hacc.walk hs.whole (hacc.data.symm.trans hs.data)

theorem stickyEvent_storable : (stickyEvent 1 [plainSub 5 1, plainSub 6 2]).Storable :=
  ⟨⟨by decide, rfl⟩, by decide, by decide, by decide⟩

theorem sticky_store_consistent_two : ∃ s, StickyStore.empty.runOps
    [.insert (stickyEvent 1 [plainSub 5 1, plainSub 6 2]) true, .writeEvents,
      .insert (stickyEvent 1 [plainSub 5 1, plainSub 6 2]) true] = some s ∧ s.Consistent := by
  apply sticky_store_consistent
  have hins : (StickyOp.insert (stickyEvent 1 [plainSub 5 1, plainSub 6 2]) true).NoShort ∧
      (StickyOp.insert (stickyEvent 1 [plainSub 5 1, plainSub 6 2]) true).Passes :=
    ⟨storable_noShort stickyEvent_storable true, by decide, by decide +kernel⟩
  intro op hop
  simp only [List.mem_cons, List.not_mem_nil, or_false] at hop
  rcases hop with rfl | rfl | rfl
  · exact hins
  · exact ⟨trivial, trivial⟩
  · exact hins

def overflowEvent : LmdEventOut := stickyEvent 1 [le32 5 ++ le32 5 ++ le32 0 ++ le32 1]

theorem payload_overflow_asserts :
    ¬ ∀ ops : List StickyOp, ∃ s, StickyStore.empty.runOps ops = some s ∧ s.Consistent := by
  intro h
  obtain ⟨s, hs, _⟩ := h [.insert overflowEvent false]
  have hnone : StickyStore.empty.runOps [.insert overflowEvent false] = none := by decide +kernel
  rw [hnone] at hs
  cases hs

/-- The event replayed for live subevents with the header of their event. -/
def replayOf : List (List UInt8 × List UInt8) → LmdEventOut
  | [] => ⟨LmdEventHeader.decode [], LmdEventInfo.decode [], []⟩
  | (header, b) :: held =>
    { header := LmdEventHeader.decode header
      info := LmdEventInfo.decode (header.drop sizeofEventHeader)
      more :=
        (if header.length - sizeofEvent101 = 0 then []
          else [⟨header.drop sizeofEvent101, false⟩]) ++
        ((header, b) :: held).map fun p => ⟨p.2, false⟩ }

theorem decode_append {header : List UInt8} (rest : List UInt8)
    (h : sizeofEvent101 ≤ header.length) :
    LmdEventHeader.decode (header ++ rest) = LmdEventHeader.decode header ∧
      LmdEventInfo.decode ((header ++ rest).drop sizeofEventHeader) =
        LmdEventInfo.decode (header.drop sizeofEventHeader) := by
  have h16 : 16 ≤ header.length := h
  have hrd16 : ∀ k, k + 2 ≤ 16 → rd16 ((header ++ rest).drop k) = rd16 (header.drop k) := by
    intro k hk
    rw [List.drop_append_of_le_length (by omega), rd16_append _ (by rw [List.length_drop]; omega)]
  have hrd32 : ∀ k, k + 4 ≤ 16 → rd32 ((header ++ rest).drop k) = rd32 (header.drop k) := by
    intro k hk
    rw [List.drop_append_of_le_length (by omega), rd32_append _ (by rw [List.length_drop]; omega)]
  constructor
  · rw [LmdEventHeader.decode, LmdEventHeader.decode, rd32_append _ (by omega),
      hrd16 4 (by omega), hrd16 6 (by omega)]
  · simp only [LmdEventInfo.decode, sizeofEventHeader, List.drop_drop]
    rw [hrd16 8 (by omega), hrd16 10 (by omega), hrd32 12 (by omega)]

theorem replayEvent_eq {s : StickyStore} {g : MetaGroup} {pos : Nat} (hg : GroupOk 0 pos g)
    (hz : g.ev.liveSub ≠ 0) (hlen : sizeofEvent101 ≤ g.ev.dataLength)
    (hend : g.ev.dataOffset + g.ev.dataLength ≤ s.data.length) :
    s.replayEvent g = replayOf (g.carried s.data) := by
  have hsubs : (g.subs.filterMap fun sev => sev.dataOffset.map fun d =>
      (⟨slice s.data d sev.dataLength, false⟩ : BufChunkSwap)) =
      (g.carried s.data).map fun p => ⟨p.2, false⟩ := by
    rw [MetaGroup.carried, List.map_map, subPieces, List.map_filterMap]
    congr 1
    funext sev
    cases sev.dataOffset <;> rfl
  have hne : g.carried s.data ≠ [] := by
    have hlive := hg.liveSub
    rw [← subPieces_length] at hlive
    rw [MetaGroup.carried, ne_eq, List.map_eq_nil_iff]
    intro hnil
    rw [hnil] at hlive
    exact hz hlive
  have hhead : ∀ p ∈ g.carried s.data, p.1 = slice s.data g.ev.dataOffset g.ev.dataLength := by
    intro p hp
    obtain ⟨q, _, rfl⟩ := List.mem_map.mp hp
    rfl
  rw [StickyStore.replayEvent, hsubs]
  cases hcar : g.carried s.data with
  | nil => exact absurd hcar hne
  | cons p held =>
    have hp := hhead p (by rw [hcar]; simp)
    obtain ⟨header, b⟩ := p
    simp only at hp
    have hsl := slice_length hend
    obtain ⟨hdec, hinfo⟩ := decode_append ((s.data.drop g.ev.dataOffset).drop g.ev.dataLength)
      (Nat.le_trans hlen (Nat.le_of_eq hsl.symm))
    have hsrc : slice s.data g.ev.dataOffset g.ev.dataLength ++
        (s.data.drop g.ev.dataOffset).drop g.ev.dataLength = s.data.drop g.ev.dataOffset := by
      rw [slice, List.take_append_drop]
    rw [hsrc] at hdec hinfo
    have hmore : slice (s.data.drop g.ev.dataOffset) sizeofEvent101
        (g.ev.dataLength - sizeofEvent101) =
        (slice s.data g.ev.dataOffset g.ev.dataLength).drop sizeofEvent101 := by
      rw [slice, slice, List.drop_take]
    simp only [replayOf, hp, hsl, hmore, hdec, hinfo]

theorem replayEvents_eq {s : StickyStore} {gs : List MetaGroup} {pos : Nat}
    (hg : GroupsOk (fun _ => 0) pos gs) (hh : ∀ g ∈ gs, sizeofEvent101 ≤ g.ev.dataLength)
    (hpiece : ∀ p ∈ piecesOf gs, p.1 + p.2 ≤ s.data.length) :
    (gs.filter (·.ev.liveSub ≠ 0)).map s.replayEvent = (liveLists s.data gs).map replayOf := by
  rw [liveLists]
  induction gs generalizing pos with
  | nil => rfl
  | cons g gs ih =>
    simp only [piecesOf_cons, List.mem_append] at hpiece
    have htail := ih hg.2 (fun g hm => hh g (by simp [hm])) (fun p hp => hpiece p (.inr hp))
    have hempty : (g.carried s.data).isEmpty = decide (g.ev.liveSub = 0) := by
      have hlive := hg.1.liveSub
      rw [← subPieces_length, Nat.add_zero] at hlive
      rw [MetaGroup.carried, hlive]
      cases subPieces g.subs <;> simp
    rw [List.filter_cons, List.map_cons, List.filter_cons, hempty]
    by_cases hz : g.ev.liveSub = 0
    · simpa [hz] using htail
    · have hpc : (g.ev.dataOffset, g.ev.dataLength) ∈ g.pieces := by
        rw [MetaGroup.pieces, if_neg hz]
        exact List.mem_cons_self
      rw [if_pos (by simp [hz]), if_pos (by simp [hz]), List.map_cons, List.map_cons, htail,
        replayEvent_eq hg.1 hz (hh g (by simp)) (hpiece _ (.inl hpc))]

theorem writeEvents_eq {s : StickyStore} {gs : List MetaGroup} {o top : Nat}
    (h : StoreInv s gs o 0 top) : s.writeEvents = (liveLists s.data gs).map replayOf := by
  rw [StickyStore.writeEvents, coreInv_iter h.toCoreInv]
  exact replayEvents_eq (coreInv_groups h.toCoreInv) h.header
    fun p hp => Nat.le_trans (laid_mem h.laid p hp) h.top_le

theorem runOps_same {s t : StickyStore} {gs hs : List MetaGroup} {o o' top top' : Nat}
    {ops : List StickyOp} (h : StoreInv s gs o 0 top) (h' : StoreInv t hs o' 0 top')
    (hlists : liveLists s.data gs = liveLists t.data hs) (hshort : ∀ op ∈ ops, op.NoShort) :
    (s.runOps ops).map StickyStore.writeEvents = (t.runOps ops).map StickyStore.writeEvents := by
  induction ops generalizing s t gs hs o o' top top' with
  | nil =>
    change some s.writeEvents = some t.writeEvents
    rw [writeEvents_eq h, writeEvents_eq h', hlists]
  | cons op ops ih =>
    have hop := hshort op (by simp)
    have hrest : ∀ p ∈ ops, p.NoShort := fun p hp => hshort p (by simp [hp])
    have hrun : ∀ s : StickyStore, s.runOps (op :: ops) = (s.step op).bind fun s => s.runOps ops :=
      fun _ => rfl
    rw [hrun, hrun]
    rcases stickyStep_inv h hop with ⟨hp, s₁, gs₁, o₁, top₁, hs₁, hinv, hl⟩ | ⟨hp, hs₁⟩
    · rcases stickyStep_inv h' hop with ⟨_, t₁, hs₂, o₂, top₂, ht₁, hinv', hl'⟩ | ⟨hno, _⟩
      · rw [hs₁, ht₁]
        exact ih hinv hinv' (by rw [hl, hl', hlists]) hrest
      · exact absurd hp hno
    · rcases stickyStep_inv h' hop with ⟨hyes, _⟩ | ⟨_, ht₁⟩
      · exact absurd hyes hp
      · rw [hs₁, ht₁]

/-- A failed insertion is not seen in what is replayed, then or after any operations. -/
theorem failed_insert_unseen {before after : List StickyOp} {s s' : StickyStore} {e : LmdEventOut}
    {discardRevoke : Bool} (hshort : ∀ op ∈ before ++ after, op.NoShort)
    (hs : StickyStore.empty.runOps before = some s)
    (hf : s.insertEnd e discardRevoke = .failed s') :
    (s'.runOps after).map StickyStore.writeEvents =
      (s.runOps after).map StickyStore.writeEvents := by
  obtain ⟨gs, o, top, hinv⟩ := stickyRun_inv storeInv_empty
    (fun op hop => hshort op (List.mem_append_left _ hop)) hs
  have hs' : s' = s.copied e := by
    rw [StickyStore.insertEnd] at hf
    split at hf
    next =>
      split at hf
      next => cases hf
      next =>
        split at hf
        · cases hf
        · split at hf
          · cases hf
          · cases hf
            rfl
    next => cases hf
  obtain ⟨gs', top', hinv', _, hlists⟩ := copied_inv hinv e
  rw [hs']
  exact runOps_same hinv' hinv hlists fun op hop => hshort op (List.mem_append_right _ hop)

def cutEvent : LmdEventOut :=
  stickyEvent 4 [le32 2 ++ le32 1 ++ le32 0 ++ List.replicate 60 0 ++ le32 0]

theorem failed_insert_unseen_two : ∃ s, StickyStore.empty.runOps
      [.insert (stickyEvent 1 [plainSub 5 1, plainSub 6 2]) true] = some s ∧
    s.insertEnd cutEvent true = .failed (s.copied cutEvent) ∧
    ((s.copied cutEvent).runOps [.insert (stickyEvent 1 [plainSub 5 1, plainSub 6 2]) true]).map
        StickyStore.writeEvents =
      (s.runOps [.insert (stickyEvent 1 [plainSub 5 1, plainSub 6 2]) true]).map
        StickyStore.writeEvents := by
  have hshort : ∀ op ∈ [StickyOp.insert (stickyEvent 1 [plainSub 5 1, plainSub 6 2]) true] ++
      [.insert (stickyEvent 1 [plainSub 5 1, plainSub 6 2]) true], op.NoShort := by
    intro op hop
    simp only [List.cons_append, List.nil_append, List.mem_cons, List.not_mem_nil, or_false,
      or_self] at hop
    rw [hop]
    exact storable_noShort stickyEvent_storable true
  have hchk : ((StickyStore.empty.runOps
      [.insert (stickyEvent 1 [plainSub 5 1, plainSub 6 2]) true]).map fun s =>
        s.insertEnd cutEvent true == .failed (s.copied cutEvent)) = some true := by decide +kernel
  obtain ⟨s, hs, hend⟩ := Option.map_eq_some_iff.mp hchk
  have hf := beq_iff_eq.mp hend
  exact ⟨s, hs, hf, failed_insert_unseen hshort hs hf⟩

def bigSub (id n : Nat) : List UInt8 :=
  le32 (2 + n / 2) ++ le32 id ++ le32 0 ++ List.replicate n 0

def shortSubRun : List StickyOp :=
  [.insert (stickyEvent 1 [le32 0 ++ le32 7, bigSub 5 288]) false,
    .insert (stickyEvent 2 [bigSub 5 288]) false, .insert (stickyEvent 3 [bigSub 5 288]) false]

def laterInsert : List StickyOp :=
  [.insert (stickyEvent 5 [le32 4 ++ le32 7 ++ le32 146 ++ le32 9]) false]

theorem failed_insert_seen :
    ¬ ∀ (before after : List StickyOp) (s s' : StickyStore) (e : LmdEventOut)
      (discardRevoke : Bool), StickyStore.empty.runOps before = some s →
      s.insertEnd e discardRevoke = .failed s' →
      (s'.runOps after).map StickyStore.writeEvents =
        (s.runOps after).map StickyStore.writeEvents := by
  intro h
  have hrun : ((StickyStore.empty.runOps shortSubRun).map fun s =>
      (s.insertEnd cutEvent false == .failed (s.copied cutEvent),
        ((s.copied cutEvent).runOps laterInsert).map fun t => t.writeEvents.length,
        (s.runOps laterInsert).map fun t => t.writeEvents.length)) =
      some (true, some 3, some 2) := by decide +kernel
  obtain ⟨s, hs, hall⟩ := Option.map_eq_some_iff.mp hrun
  simp only [Prod.mk.injEq] at hall
  obtain ⟨hend, h3, h2⟩ := hall
  have heq := h shortSubRun laterInsert s _ cutEvent false hs (beq_iff_eq.mp hend)
  have hlen := congrArg (Option.map List.length) heq
  rw [Option.map_map, Option.map_map] at hlen
  have hcomp : (List.length ∘ StickyStore.writeEvents) = fun t => t.writeEvents.length := rfl
  rw [hcomp, h3, h2] at hlen
  cases hlen

end Ucesb
