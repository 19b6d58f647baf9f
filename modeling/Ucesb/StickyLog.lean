import Ucesb.StickyEvent
import Mathlib.Data.List.TakeWhile

namespace Ucesb

structure StickyCarrier where
  iType : UInt16
  iSubtype : UInt16
  info : LmdEventInfo
  tstamps : List (List UInt8)
deriving DecidableEq, Repr

def LmdEventOut.carrier (e : LmdEventOut) : StickyCarrier :=
  ⟨e.header.iType, e.header.iSubtype, e.info, e.tstamps⟩

def LmdEventOut.carriedSubs (e : LmdEventOut) : List (StickyCarrier × List UInt8) :=
  e.stickySubs.map fun b => (e.carrier, b)

def carrierOfHeader (bs : List UInt8) : StickyCarrier :=
  let header := LmdEventHeader.decode bs
  let tstamps := match locateSubevents (bs.drop sizeofEvent101) with
    | .ok subs => subs
    | .error _ => []
  ⟨header.iType, header.iSubtype, LmdEventInfo.decode (bs.drop sizeofEventHeader), tstamps⟩

def FromEvent (p : List UInt8 × List UInt8) : Prop :=
  ∃ e : LmdEventOut, e.Storable ∧ p.1 = e.storedHeader ∧ p.2 ∈ e.stickySubs

theorem located_sub_length {e : LmdEventOut} (he : e.Storable) :
    ∀ b ∈ e.located, b.length < 2 ^ 63 := by
  intro b hb
  have hlt := storable_lt he
  obtain ⟨hflat, _⟩ := located_flatten he.toLocated hlt
  have hn := LmdEventOut.native_length he.copyable
  rw [LmdEventOut.native_eq, List.length_append, hflat] at hn
  have hle : b.length ≤ e.located.flatten.length := (List.sublist_flatten_of_mem hb).length_le
  omega

theorem carrierOfHeader_storedHeader {e : LmdEventOut} (he : e.Storable) :
    carrierOfHeader e.storedHeader = e.carrier := by
  obtain ⟨_, hwhole⟩ := located_flatten he.toLocated (storable_lt he)
  have hts : e.tstamps ⊆ e.located := List.takeWhile_subset _
  have hloc : locateSubevents e.tstamps.flatten = .ok e.tstamps :=
    locateSubeventsLoop_flatten (fun b hb => hwhole b (hts hb))
      (fun b hb => located_sub_length he b (hts hb)) (Nat.le_refl _)
  have hdrop : e.storedHeader.drop sizeofEvent101 = e.tstamps.flatten := rfl
  have hinfo : e.storedHeader.drop sizeofEventHeader = e.info.encode ++ e.tstamps.flatten := rfl
  have hhead : LmdEventHeader.decode e.storedHeader =
      { e.header with lDlen := UInt32.ofNat (e.getLength / 2) } := by
    rw [LmdEventOut.storedHeader, List.append_assoc, LmdEventHeader.decode_encode]
  rw [carrierOfHeader, hdrop, hloc, hinfo, hhead, LmdEventInfo.decode_encode]
  rfl

theorem takeWhile_append_of_split {p : List UInt8 → Bool} {xs ys : List (List UInt8)}
    (hx : ∀ x ∈ xs, p x = true) (hy : ∀ y ∈ ys, p y = false) :
    (xs ++ ys).takeWhile p = xs ∧ (xs ++ ys).dropWhile p = ys := by
  have htake : ys.takeWhile p = [] := by
    cases ys with
    | nil => rfl
    | cons y ys => simp [hy y (by simp)]
  have hdrop : ys.dropWhile p = ys := by
    cases ys with
    | nil => rfl
    | cons y ys => simp [hy y (by simp)]
  rw [List.takeWhile_append_of_pos hx, List.dropWhile_append_of_pos hx, htake, hdrop,
    List.append_nil]
  exact ⟨rfl, rfl⟩

section Replay

variable {s : StickyStore} {g : MetaGroup} {e : LmdEventOut}

theorem replayEvent_header (hh : g.header s.data = e.storedHeader) :
    (s.replayEvent g).header = { e.header with lDlen := UInt32.ofNat (e.getLength / 2) } ∧
      (s.replayEvent g).info = e.info := by
  have hsrc : s.data.drop g.ev.dataOffset =
      e.storedHeader ++ (s.data.drop g.ev.dataOffset).drop g.ev.dataLength := by
    rw [← hh, MetaGroup.header, slice, List.take_append_drop]
  constructor
  · simp only [StickyStore.replayEvent]
    rw [hsrc, LmdEventOut.storedHeader, List.append_assoc, List.append_assoc,
      LmdEventHeader.decode_encode]
  · simp only [StickyStore.replayEvent]
    rw [hsrc]
    change LmdEventInfo.decode (e.info.encode ++ _) = _
    rw [LmdEventInfo.decode_encode]

theorem replayEvent_data (hh : g.header s.data = e.storedHeader)
    (hend : g.ev.dataOffset + g.ev.dataLength ≤ s.data.length) :
    nativeData (s.replayEvent g).more =
      (e.tstamps ++ (subPieces g.subs).map fun p => slice s.data p.1 p.2).flatten := by
  have hlen : g.ev.dataLength = sizeofEvent101 + e.tstamps.flatten.length := by
    rw [← storedHeader_length, ← hh, MetaGroup.header, slice_length hend]
  have hmore : slice (s.data.drop g.ev.dataOffset) sizeofEvent101
      (g.ev.dataLength - sizeofEvent101) = e.tstamps.flatten := by
    have hdrop : e.storedHeader.drop sizeofEvent101 = e.tstamps.flatten := rfl
    rw [slice, ← hdrop, ← hh, MetaGroup.header, slice, List.drop_take]
  have hsubs : nativeData (g.subs.filterMap fun sev => sev.dataOffset.map fun d =>
      (⟨slice s.data d sev.dataLength, false⟩ : BufChunkSwap)) =
      ((subPieces g.subs).map fun p => slice s.data p.1 p.2).flatten := by
    induction g.subs with
    | nil => rfl
    | cons sev subs ih =>
      simp only [nativeData, subPieces] at ih
      cases hd : sev.dataOffset <;> simp [nativeData, subPieces, hd, ih]
  rw [List.flatten_append, ← hsubs]
  simp only [StickyStore.replayEvent, nativeData, List.flatMap_append]
  congr 1
  rw [hmore]
  split
  next hz =>
    have : e.tstamps.flatten = [] := List.length_eq_zero_iff.mp (by omega)
    simp [this]
  next => simp

theorem replayEvent_carried (he : e.Storable) (hh : g.header s.data = e.storedHeader)
    (hend : g.ev.dataOffset + g.ev.dataLength ≤ s.data.length)
    (hsub : ∀ p ∈ g.carried s.data, FromEvent p) :
    (s.replayEvent g).carriedSubs =
      (g.carried s.data).map fun p => (carrierOfHeader p.1, p.2) := by
  obtain ⟨_, hwhole⟩ := located_flatten he.toLocated (storable_lt he)
  have hts : e.tstamps ⊆ e.located := List.takeWhile_subset _
  have hfrom : ∀ b ∈ (subPieces g.subs).map (fun p => slice s.data p.1 p.2),
      ∃ e' : LmdEventOut, e'.Storable ∧ b ∈ e'.stickySubs := by
    intro b hb
    obtain ⟨p, hp, rfl⟩ := List.mem_map.mp hb
    obtain ⟨e', he', _, hm⟩ := hsub _ (List.mem_map_of_mem hp)
    exact ⟨e', he', hm⟩
  have hloc : locateSubevents (nativeData (s.replayEvent g).more) =
      .ok (e.tstamps ++ (subPieces g.subs).map fun p => slice s.data p.1 p.2) := by
    rw [replayEvent_data hh hend]
    refine locateSubeventsLoop_flatten ?_ ?_ (Nat.le_refl _)
    · intro b hb
      rcases List.mem_append.mp hb with hb | hb
      · exact hwhole b (hts hb)
      · obtain ⟨e', he', hm⟩ := hfrom b hb
        exact stickySubs_whole (Storable.sound he') b hm
    · intro b hb
      rcases List.mem_append.mp hb with hb | hb
      · exact located_sub_length he b (hts hb)
      · obtain ⟨e', he', hm⟩ := hfrom b hb
        exact located_sub_length he' b (List.dropWhile_subset _ hm)
  have hlocated : (s.replayEvent g).located =
      e.tstamps ++ (subPieces g.subs).map fun p => slice s.data p.1 p.2 := by
    rw [LmdEventOut.located, hloc]
  obtain ⟨htake, hdrop⟩ := @takeWhile_append_of_split subIsTstamp e.tstamps
    ((subPieces g.subs).map fun p => slice s.data p.1 p.2)
    (fun b hb => List.mem_takeWhile_imp hb) (by
      intro b hb
      obtain ⟨e', he', hm⟩ := hfrom b hb
      exact he'.tstampFirst b hm)
  obtain ⟨hhead, hinfo⟩ := replayEvent_header hh
  have hcar : (s.replayEvent g).carrier = e.carrier := by
    rw [LmdEventOut.carrier, LmdEventOut.tstamps, hlocated, htake, hhead, hinfo]
    rfl
  rw [LmdEventOut.carriedSubs, hcar, LmdEventOut.stickySubs, hlocated, hdrop, MetaGroup.carried,
    List.map_map, List.map_map]
  apply List.map_congr_left
  intro p _
  have hheader : slice s.data g.ev.dataOffset g.ev.dataLength = e.storedHeader := hh
  simp [hheader, carrierOfHeader_storedHeader he]

end Replay

theorem group_fromEvent {data : List UInt8} {g : MetaGroup} {pos : Nat} (hg : GroupOk 0 pos g)
    (hz : g.ev.liveSub ≠ 0) (hfrom : ∀ p ∈ g.carried data, FromEvent p) :
    ∃ e : LmdEventOut, e.Storable ∧ g.header data = e.storedHeader := by
  have hne : subPieces g.subs ≠ [] := by
    intro hnil
    have hlive := hg.liveSub
    rw [← subPieces_length, hnil] at hlive
    exact hz hlive
  obtain ⟨p, hp⟩ := List.exists_mem_of_ne_nil _ hne
  obtain ⟨e, he, hh, _⟩ := hfrom _ (List.mem_map_of_mem hp)
  exact ⟨e, he, hh⟩

theorem replayGroups_carried {s : StickyStore} {gs : List MetaGroup} {pos : Nat}
    (hg : GroupsOk (fun _ => 0) pos gs)
    (hpieces : ∀ p ∈ piecesOf gs, p.1 + p.2 ≤ s.data.length)
    (hfrom : ∀ p ∈ carried s.data gs, FromEvent p) :
    ((gs.filter (·.ev.liveSub ≠ 0)).map s.replayEvent).flatMap LmdEventOut.carriedSubs =
      (carried s.data gs).map fun p => (carrierOfHeader p.1, p.2) := by
  induction gs generalizing pos with
  | nil => rfl
  | cons g gs ih =>
    simp only [carried_cons, List.mem_append, piecesOf_cons] at hfrom hpieces
    have htail := ih hg.2 (fun p hp => hpieces p (.inr hp)) (fun p hp => hfrom p (.inr hp))
    rw [List.filter_cons, carried_cons, List.map_append, ← htail]
    by_cases hz : g.ev.liveSub = 0
    · have hnil : g.carried s.data = [] := by
        rw [MetaGroup.carried, subPieces_eq_nil hg.1 hz, List.map_nil]
      rw [if_neg (by simp [hz]), hnil, List.map_nil, List.nil_append]
    · have hpc : g.pieces = (g.ev.dataOffset, g.ev.dataLength) :: subPieces g.subs := by
        simp [MetaGroup.pieces, hz]
      have hend := hpieces (g.ev.dataOffset, g.ev.dataLength) (.inl (by simp [hpc]))
      obtain ⟨e, he, hh⟩ := group_fromEvent hg.1 hz fun p hp => hfrom p (.inl hp)
      rw [if_pos (by simp [hz]), List.map_cons, List.flatMap_cons,
        replayEvent_carried he hh hend fun p hp => hfrom p (.inl hp)]

theorem writeEvents_carried {s : StickyStore} {gs : List MetaGroup} {o top : Nat}
    (h : StoreInv s gs o 0 top) (hfrom : ∀ p ∈ carried s.data gs, FromEvent p) :
    s.writeEvents.flatMap LmdEventOut.carriedSubs =
      (carried s.data gs).map fun p => (carrierOfHeader p.1, p.2) := by
  rw [StickyStore.writeEvents, coreInv_iter h.toCoreInv]
  exact replayGroups_carried (coreInv_groups h.toCoreInv)
    (fun p hp => Nat.le_trans (laid_mem h.laid p hp) h.top_le) hfrom

theorem replayed_sticky {s : StickyStore} {gs : List MetaGroup} {o top : Nat}
    (h : StoreInv s gs o 0 top) (hfrom : ∀ p ∈ carried s.data gs, FromEvent p) :
    ∀ e ∈ s.writeEvents, e.header.isSticky = true := by
  intro e he
  rw [StickyStore.writeEvents, coreInv_iter h.toCoreInv] at he
  obtain ⟨g, hg, rfl⟩ := List.mem_map.mp he
  obtain ⟨hg, hz⟩ := List.mem_filter.mp hg
  obtain ⟨pos, hok⟩ := groupsOk_mem (coreInv_groups h.toCoreInv) hg
  obtain ⟨e, hst, hh⟩ := group_fromEvent hok (by simpa using hz) fun p hp =>
    hfrom p (List.mem_flatMap.mpr ⟨g, hg, hp⟩)
  rw [(replayEvent_header hh).1]
  exact hst.sticky

/-- A sequence of calls of `insert`, each with its `discard_revoke`. -/
def insertAll (log : List (LmdEventOut × Bool)) : Except String StickyStore :=
  log.foldlM (fun s p => s.insert p.1 p.2) StickyStore.empty

def carriedKey (p : StickyCarrier × List UInt8) : Nat × Nat := subId p.2

/-- The calls as a sequence of writes, the revokes that are discarded being writes of nothing. -/
def logWrites (log : List (LmdEventOut × Bool)) : List ((StickyCarrier × List UInt8) × Bool) :=
  log.flatMap fun p => subWrites p.2 p.1.carrier p.1.stickySubs

theorem insert_storable {s s' : StickyStore} {e : LmdEventOut} {discardRevoke : Bool}
    (hl : e.Located) (h : s.insert e discardRevoke = .ok s') : e.Storable := by
  rw [StickyStore.insert, decode_write] at h
  simp only [UInt32.toNat_ofNat'] at h
  split at h
  next => cases h
  next hsize =>
    have hsize : e.getLength / 2 % 2 ^ 32 * 2 = e.getLength := by simpa using hsize
    split at h
    next => cases h
    next =>
      split at h
      next => cases h
      next hsticky =>
        obtain ⟨r, hcount, _⟩ := except_bind_ok h
        obtain ⟨hflat, hwhole⟩ := located_flatten hl (by omega)
        have hwalk := walk_of_whole hwhole
        have hcopy := hl.copyable
        have hts := countSubevents_tstamps (write_drop hflat) (sixteen_le_write hcopy) hwalk
          (accepted_length_le hcopy hflat hwalk) hcount
        have hsticky : LmdEventHeader.isSticky
            { e.header with lDlen := UInt32.ofNat (e.getLength / 2) } = true := by
          simpa using hsticky
        exact ⟨hl, hsize, hsticky, hts⟩

structure Holds (s : StickyStore) (log : List (LmdEventOut × Bool)) : Prop where
  inv : ∃ gs o top, StoreInv s gs o 0 top ∧
    carried s.data gs = runWrites subKey []
      (log.flatMap fun p => subWrites p.2 p.1.storedHeader p.1.stickySubs)
  storable : ∀ p ∈ log, p.1.Storable

theorem holds_empty : Holds StickyStore.empty [] :=
  ⟨⟨[], 0, 0, storeInv_empty, rfl⟩, by simp⟩

theorem holds_insert {s : StickyStore} {log : List (LmdEventOut × Bool)} {e : LmdEventOut}
    (h : Holds s log) (he : e.Storable) (discardRevoke : Bool) :
    ∃ s', s.insert e discardRevoke = .ok s' ∧ Holds s' (log ++ [(e, discardRevoke)]) := by
  obtain ⟨⟨gs, o, top, hinv, hcar⟩, hst⟩ := h
  obtain ⟨s', gs', o', top', hins, hinv', hit⟩ := insert_inv hinv (Storable.sound he) discardRevoke
  refine ⟨s', hins, ⟨gs', o', top', hinv', ?_⟩, ?_⟩
  · have hflat := congrArg List.flatten hit
    rw [writeGroup_flatten, liveLists_flatten, liveLists_flatten] at hflat
    rw [hflat, hcar, List.flatMap_append, runWrites_append]
    simp
  · intro p hp
    rcases List.mem_append.mp hp with hp | hp
    · exact hst p hp
    · rw [List.mem_singleton.mp hp]
      exact he

theorem foldlM_holds {s s' : StickyStore} {log rest : List (LmdEventOut × Bool)}
    (h : Holds s log) (hl : ∀ p ∈ rest, p.1.Located)
    (hf : rest.foldlM (fun s p => s.insert p.1 p.2) s = .ok s') : Holds s' (log ++ rest) := by
  induction rest generalizing s log with
  | nil =>
    cases hf
    simpa using h
  | cons p rest ih =>
    rw [List.foldlM_cons] at hf
    obtain ⟨s₁, hins, hrest⟩ := except_bind_ok hf
    obtain ⟨s₂, hins₂, hh⟩ := holds_insert h (insert_storable (hl p (by simp)) hins) p.2
    rw [hins] at hins₂
    cases hins₂
    have := ih hh (fun q hq => hl q (by simp [hq])) hrest
    simpa using this

theorem insertAll_holds {s : StickyStore} {log : List (LmdEventOut × Bool)}
    (hl : ∀ p ∈ log, p.1.Located) (h : insertAll log = .ok s) : Holds s log := by
  simpa using foldlM_holds holds_empty hl h

theorem holds_fromEvent {s : StickyStore} {log : List (LmdEventOut × Bool)} (h : Holds s log) :
    ∃ gs o top, StoreInv s gs o 0 top ∧ (∀ p ∈ carried s.data gs, FromEvent p) ∧
      carried s.data gs = runWrites subKey []
        (log.flatMap fun p => subWrites p.2 p.1.storedHeader p.1.stickySubs) := by
  obtain ⟨⟨gs, o, top, hinv, hcar⟩, hst⟩ := h
  refine ⟨gs, o, top, hinv, ?_, hcar⟩
  intro p hp
  rw [hcar] at hp
  rcases runWrites_mem hp with hp | hp
  · simp at hp
  · obtain ⟨q, hq, hw⟩ := List.mem_flatMap.mp hp
    obtain ⟨b, hb, he⟩ := List.mem_map.mp hw
    have hpair : (q.1.storedHeader, b) = p := congrArg Prod.fst he
    subst hpair
    exact ⟨q.1, hst q hq, rfl, hb⟩

theorem holds_replay {s : StickyStore} {log : List (LmdEventOut × Bool)} (h : Holds s log) :
    s.writeEvents.flatMap LmdEventOut.carriedSubs = runWrites carriedKey [] (logWrites log) := by
  obtain ⟨gs, o, top, hinv, hfrom, hcar⟩ := holds_fromEvent h
  have hst := h.storable
  rw [writeEvents_carried hinv hfrom, hcar,
    @runWrites_map _ _ _ _ subKey carriedKey (fun p => (carrierOfHeader p.1, p.2)) fun _ => rfl]
  congr 1
  rw [List.map_flatMap, logWrites]
  apply List.flatMap_congr
  intro p hp
  simp [subWrites, carrierOfHeader_storedHeader (hst p hp)]

theorem holds_sticky {s : StickyStore} {log : List (LmdEventOut × Bool)} (h : Holds s log) :
    ∀ e ∈ s.writeEvents, e.header.isSticky = true := by
  obtain ⟨gs, o, top, hinv, hfrom, _⟩ := holds_fromEvent h
  exact replayed_sticky hinv hfrom

/-- The replay is the last-writer-wins map of the calls: for every id the last version that
was inserted, once, in an event like the one that carried it. -/
theorem writeEvents_lastWriter {log : List (LmdEventOut × Bool)} {s : StickyStore}
    (hl : ∀ p ∈ log, p.1.Located) (h : insertAll log = .ok s) :
    s.writeEvents.flatMap LmdEventOut.carriedSubs = runWrites carriedKey [] (logWrites log) ∧
      ∀ id, (s.writeEvents.flatMap LmdEventOut.carriedSubs).filter (fun p => subId p.2 = id) =
        (lastWrite carriedKey (logWrites log) id).toList := by
  have hreplay := holds_replay (insertAll_holds hl h)
  refine ⟨hreplay, ?_⟩
  intro id
  rw [hreplay]
  exact runWrites_filter carriedKey (logWrites log) id

def plainSub (id value : Nat) : List UInt8 := le32 4 ++ le32 id ++ le32 0 ++ le32 value

def revokeSub (id : Nat) : List UInt8 := le32 lmdSubeventStickyDlenRevoke ++ le32 id ++ le32 0

def stickyEvent (count : UInt32) (subs : List (List UInt8)) : LmdEventOut :=
  ⟨⟨0, lmdEventStickyType, lmdEventStickySubtype⟩, ⟨0, 1, count⟩, subs.map (⟨·, false⟩)⟩

theorem writeEvents_lastWriter_demo : ∃ s,
    insertAll [(stickyEvent 1 [plainSub 5 1, plainSub 6 2], true),
      (stickyEvent 2 [plainSub 5 3, revokeSub 6], true)] = .ok s ∧
    s.writeEvents.flatMap LmdEventOut.carriedSubs =
      runWrites carriedKey [] (logWrites [(stickyEvent 1 [plainSub 5 1, plainSub 6 2], true),
        (stickyEvent 2 [plainSub 5 3, revokeSub 6], true)]) := by
  have hl : ∀ p ∈ [(stickyEvent 1 [plainSub 5 1, plainSub 6 2], true),
      (stickyEvent 2 [plainSub 5 3, revokeSub 6], true)], p.1.Located := by
    intro p hp
    simp only [List.mem_cons, List.not_mem_nil, or_false] at hp
    rcases hp with rfl | rfl
    · exact ⟨by decide, rfl⟩
    · exact ⟨by decide, rfl⟩
  cases h : insertAll [(stickyEvent 1 [plainSub 5 1, plainSub 6 2], true),
      (stickyEvent 2 [plainSub 5 3, revokeSub 6], true)] with
  | ok s => exact ⟨s, rfl, (writeEvents_lastWriter hl h).1⟩
  | error msg =>
    have hok : (insertAll [(stickyEvent 1 [plainSub 5 1, plainSub 6 2], true),
      (stickyEvent 2 [plainSub 5 3, revokeSub 6], true)]).isOk = true := by decide +kernel
    rw [h] at hok
    cases hok

def tstampLog : List (LmdEventOut × Bool) :=
  [(stickyEvent 1 [plainSub 0x1000a 3, plainSub 5 1], false),
    (stickyEvent 2 [plainSub 0x1000a 4, plainSub 6 1], false)]

theorem writeEvents_tstamp_twice :
    ¬ ∀ (log : List (LmdEventOut × Bool)) (s : StickyStore), (∀ p ∈ log, p.1.Located) →
      insertAll log = .ok s → ∀ b ∈ log.flatMap (·.1.located),
      ((s.writeEvents.flatMap (·.located)).filter fun c => subId c = subId b).length ≤ 1 := by
  intro hall
  have hl : ∀ p ∈ tstampLog, p.1.Located := by
    intro p hp
    simp only [tstampLog, List.mem_cons, List.not_mem_nil, or_false] at hp
    rcases hp with rfl | rfl
    · exact ⟨by decide, rfl⟩
    · exact ⟨by decide, rfl⟩
  cases h : insertAll tstampLog with
  | ok s =>
    have hlen := hall tstampLog s hl h (plainSub 0x1000a 3) (by decide +kernel)
    have htwo : ((insertAll tstampLog).map fun s => ((s.writeEvents.flatMap (·.located)).filter
        fun c => subId c = subId (plainSub 0x1000a 3)).length) = .ok 2 := by rfl
    rw [h] at htwo
    simp only [Except.map, Except.ok.injEq] at htwo
    omega
  | error msg =>
    have hok : (insertAll tstampLog).isOk = true := by decide +kernel
    rw [h] at hok
    cases hok

end Ucesb
