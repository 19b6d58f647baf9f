import Ucesb.StickyEvent

namespace Ucesb

/-- Whether the loop that counts comes to a subevent whose payload overflows the event, where it
asserts `false`. -/
def countOverflows (raw : List UInt8) : Nat → Nat → Nat → Bool
  | 0, _, _ => false
  | fuel + 1, off, numSev =>
    if off = raw.length then false
    else if off + sizeofSubevent101 > raw.length then false
    else if off + subLength (raw.drop off) > raw.length then true
    else if subIsTstamp (raw.drop off) then
      if numSev ≠ 0 then false
      else countOverflows raw fuel (off + subLength (raw.drop off)) numSev
    else countOverflows raw fuel (off + subLength (raw.drop off)) (numSev + 1)

def LmdEventOut.headerChecks (e : LmdEventOut) : Bool :=
  decide (e.getLength / 2 % 2 ^ 32 * 2 = e.getLength) && e.header.isSticky

def LmdEventOut.stickyChecks (e : LmdEventOut) : Bool :=
  e.headerChecks &&
    (countSubevents e.write (e.getLength + sizeofEventHeader) sizeofEvent101 0 sizeofEvent101).isOk

def LmdEventOut.overflows (e : LmdEventOut) : Bool :=
  e.headerChecks && countOverflows e.write (e.getLength + sizeofEventHeader) sizeofEvent101 0

/-- How a call of `insert` ends: with an error the copied data stays behind. -/
inductive InsertEnd where
  | stored (s : StickyStore)
  | failed (s : StickyStore)
  | aborted
  | endless
deriving DecidableEq, Repr

def StickyStore.insertEnd (s : StickyStore) (e : LmdEventOut) (discardRevoke : Bool) : InsertEnd :=
  if e.Copyable then
    match s.insert e discardRevoke with
    | .ok s' => .stored s'
    | .error _ =>
      if e.stickyChecks then .endless
      else if e.overflows then .aborted
      else .failed (s.copied e)
  else .aborted

section Checks

variable {e : LmdEventOut} {subs : List (List UInt8)}

theorem accepted_checks (h : e.Accepted subs) : e.stickyChecks = true := by
  rw [LmdEventOut.stickyChecks, LmdEventOut.headerChecks, countSubevents_write h]
  rw [decide_eq_true h.size, h.sticky]
  rfl

theorem checks_accepted (hc : e.Copyable) (h : e.stickyChecks = true) :
    ∃ subs, e.Accepted subs := by
  rw [LmdEventOut.stickyChecks, LmdEventOut.headerChecks, Bool.and_eq_true, Bool.and_eq_true,
    decide_eq_true_eq] at h
  obtain ⟨⟨hsize, hsticky⟩, hok⟩ := h
  cases hcount : countSubevents e.write (e.getLength + sizeofEventHeader) sizeofEvent101 0
      sizeofEvent101 with
  | error msg =>
    rw [hcount] at hok
    cases hok
  | ok r =>
    have hwl := write_length hc
    obtain ⟨subs, hflat, hw⟩ := countSubevents_walk hcount (by omega) (sixteen_le_write hc)
    have hdata : nativeData e.more = subs.flatten := by
      rw [← hflat, write_eq]
      rfl
    exact ⟨subs, hc, hsize, hsticky, hdata, hw,
      countSubevents_tstamps hflat (sixteen_le_write hc) hw (accepted_length_le hc hdata hw) hcount⟩

theorem insert_error_of_checks (h : e.stickyChecks = false) (s : StickyStore)
    (discardRevoke : Bool) : ∃ msg, s.insert e discardRevoke = .error msg := by
  rw [LmdEventOut.stickyChecks, LmdEventOut.headerChecks] at h
  rw [StickyStore.insert, decode_write]
  simp only [UInt32.toNat_ofNat']
  split
  next => exact ⟨_, rfl⟩
  next hsize =>
    split
    next => exact ⟨_, rfl⟩
    next =>
      split
      next => exact ⟨_, rfl⟩
      next hsticky =>
        have hx : LmdEventHeader.isSticky
            { e.header with lDlen := UInt32.ofNat (e.getLength / 2) } = true := by
          simpa using hsticky
        have hs : e.header.isSticky = true := hx
        have hz : e.getLength / 2 % 2 ^ 32 * 2 = e.getLength := by simpa using hsize
        rw [hs, decide_eq_true hz, Bool.true_and, Bool.true_and] at h
        cases hcount : countSubevents e.write (e.getLength + sizeofEventHeader) sizeofEvent101 0
            sizeofEvent101 with
        | ok r =>
          rw [hcount] at h
          cases h
        | error msg => exact ⟨msg, rfl⟩

theorem insertEnd_checks (hc : e.Copyable) (s : StickyStore) (discardRevoke : Bool) :
    ((∃ s', s.insertEnd e discardRevoke = .stored s') ∨
      s.insertEnd e discardRevoke = .endless) ↔ e.stickyChecks = true := by
  rw [StickyStore.insertEnd, if_pos hc]
  cases hchk : e.stickyChecks with
  | true => cases s.insert e discardRevoke <;> simp
  | false =>
    obtain ⟨msg, hmsg⟩ := insert_error_of_checks hchk s discardRevoke
    simp only [hmsg, Bool.false_eq_true, if_false]
    split <;> simp

end Checks

/-- Those of `verify_meta` for one event, at offset `pos`. -/
def MetaGroup.verify (dataEnd pos : Nat) (g : MetaGroup) : Bool :=
  g.subs.length == g.ev.numSub &&
  (g.ev.liveSub == 0 || decide (g.ev.dataOffset + g.ev.dataLength ≤ dataEnd)) &&
  (g.subs.all fun sev => match sev.dataOffset with
    | none => true
    | some d => sev.evOffset == pos && decide (0 < d) && decide (d + sev.dataLength ≤ dataEnd)) &&
  g.subs.countP (·.isLive) == g.ev.liveSub

def verifyGroups (dataEnd : Nat) : Nat → List MetaGroup → Bool
  | _, [] => true
  | pos, g :: gs => g.verify dataEnd pos && verifyGroups dataEnd (pos + g.entries.length) gs

/-- `iter_ev_offset == _meta_end` at the end of the loops over the events. -/
def StickyStore.iterates (s : StickyStore) : Bool :=
  (s.groups.map fun g => 1 + g.ev.numSub).sum == s.metas.length

def StickyStore.verifyMeta (s : StickyStore) : Bool :=
  verifyGroups s.data.length 0 s.groups && s.iterates

/-- `dest_ptr <= src_ptr`, for every piece that is moved. -/
def movesDown : Nat → List (Nat × Nat) → Bool
  | _, [] => true
  | dest, (src, len) :: ps => decide (dest ≤ src) && movesDown (dest + len) ps

def StickyStore.compactDataAsserts (s : StickyStore) : Bool :=
  s.verifyMeta && movesDown 0 (piecesOf s.groups) && s.iterates && s.compactData.verifyMeta

/-- `dsev <= sev`, in the inner loop of `compact_meta`. -/
def subsMoveDown : Nat → Nat → List MetaSubevent → Bool
  | _, _, [] => true
  | src, dest, sev :: subs =>
    if sev.isLive then decide (dest ≤ src) && subsMoveDown (src + 1) (dest + 1) subs
    else subsMoveDown (src + 1) dest subs

def eventsMoveDown : Nat → Nat → List MetaGroup → Bool
  | _, _, [] => true
  | src, dest, g :: gs =>
    if g.ev.liveSub = 0 then eventsMoveDown (src + g.entries.length) dest gs
    else
      decide (dest ≤ src) && subsMoveDown (src + 1) (dest + 1) g.subs &&
        eventsMoveDown (src + g.entries.length)
          (dest + 1 + (g.subs.filter (·.isLive)).length) gs

def StickyStore.compactMetaAsserts (s : StickyStore) : Bool :=
  s.verifyMeta && eventsMoveDown 0 0 s.groups && s.iterates && s.compactMeta.verifyMeta

/-- The number of subevents that the loop of `insert` counts. -/
def LmdEventOut.numSev (e : LmdEventOut) : Nat :=
  match countSubevents e.write (e.getLength + sizeofEventHeader) sizeofEvent101 0
    sizeofEvent101 with
  | .ok r => r.1
  | .error _ => 0

/-- The assertions that are met once the event has passed the checks. Those at the end of
`populate_hash` are made here also when the table stays as it is. -/
def StickyStore.countedAsserts (s : StickyStore) (numSev : Nat) : Bool :=
  let metaAdd := sizeofMetaEntry + numSev * sizeofMetaEntry
  (if sizeofMetaEntry * s.metas.length + metaAdd > s.metaAlloc ∧
      s.metaRevoked > sizeofMetaEntry * s.metas.length / 2
    then s.compactMetaAsserts else true) &&
  (match (s.reserveMeta metaAdd).1.reserveHash numSev (s.reserveMeta metaAdd).2 with
    | .ok s' => s'.iterates && s'.verifyMeta
    | .error _ => true)

def StickyStore.insertAsserts (s : StickyStore) (e : LmdEventOut) (discardRevoke : Bool) : Bool :=
  s.verifyMeta &&
  (if s.data.length + (e.getLength + sizeofEventHeader) > s.dataAlloc ∧
      s.dataRevoked > s.data.length / 2
    then s.compactDataAsserts else true) &&
  !e.overflows &&
  (match s.insertEnd e discardRevoke with
    | .stored s' => (s.copied e).countedAsserts e.numSev && s'.verifyMeta
    | _ => true)

/-- The loop of `write_events` asserts that the header of every event is there. -/
def StickyStore.writeAsserts (s : StickyStore) : Bool :=
  s.verifyMeta &&
  (s.groups.filter (·.ev.liveSub ≠ 0)).all (fun g => decide (sizeofEvent101 ≤ g.ev.dataLength)) &&
  s.iterates

section Core

variable {s : StickyStore} {gs : List MetaGroup} {o top : Nat}

theorem laid_ge {lo hi : Nat} {ps : List (Nat × Nat)} (h : Laid lo ps hi) :
    ∀ p ∈ ps, lo ≤ p.1 := by
  induction ps generalizing lo with
  | nil => simp
  | cons q ps ih =>
    intro p hp
    rcases List.mem_cons.mp hp with rfl | hp
    · exact h.1
    · have := ih h.2 p hp
      have := h.1
      omega

theorem verifyGroups_of_core {pos lo hi dataEnd : Nat} {gs : List MetaGroup}
    (hg : GroupsOk (fun _ => 0) pos gs) (hl : Laid lo (piecesOf gs) hi) (hhi : hi ≤ dataEnd)
    (hh : ∀ g ∈ gs, sizeofEvent101 ≤ g.ev.dataLength) : verifyGroups dataEnd pos gs = true := by
  induction gs generalizing pos lo with
  | nil => rfl
  | cons g gs ih =>
    rw [piecesOf_cons] at hl
    obtain ⟨mid, hl₁, hl₂⟩ := laid_append.mp hl
    have hmid := laid_le hl₂
    have hsize := hh g (by simp)
    have h16 : sizeofEvent101 = 16 := rfl
    rw [verifyGroups, ih hg.2 hl₂ fun g hm => hh g (by simp [hm]), Bool.and_true]
    have hnum := hg.1.numSub
    have hlive := hg.1.liveSub
    rw [Nat.add_zero] at hnum hlive
    have hev : g.ev.liveSub ≠ 0 → g.ev.dataOffset + g.ev.dataLength ≤ dataEnd := by
      intro hz
      rw [MetaGroup.pieces, if_neg hz] at hl₁
      have := laid_le hl₁.2
      omega
    have hsub : ∀ sev ∈ g.subs, ∀ d, sev.dataOffset = some d →
        sev.evOffset = pos ∧ 0 < d ∧ d + sev.dataLength ≤ dataEnd := by
      intro sev hsev d hd
      have hmem : (d, sev.dataLength) ∈ subPieces g.subs :=
        List.mem_filterMap.mpr ⟨sev, hsev, by simp [hd]⟩
      have hz : g.ev.liveSub ≠ 0 := by
        rw [hlive, ← subPieces_length]
        exact Nat.ne_of_gt (List.length_pos_of_mem hmem)
      rw [MetaGroup.pieces, if_neg hz] at hl₁
      have hge := laid_ge hl₁.2 _ hmem
      have hle := laid_mem hl₁.2 _ hmem
      simp only at hge hle
      exact ⟨hg.1.evOffset sev hsev, by omega, by omega⟩
    have hall : (g.subs.all fun sev => match sev.dataOffset with
        | none => true
        | some d => sev.evOffset == pos && decide (0 < d) &&
            decide (d + sev.dataLength ≤ dataEnd)) = true := by
      rw [List.all_eq_true]
      intro sev hsev
      cases hd : sev.dataOffset with
      | none => rfl
      | some d =>
        obtain ⟨he, hpos, hle⟩ := hsub sev hsev d hd
        simp [he, hpos, hle]
    rw [MetaGroup.verify, hall]
    by_cases hz : g.ev.liveSub = 0
    · simp [hnum, hlive ▸ hz, hz]
    · simp [hnum, ← hlive, hev hz]

theorem iterates_of_core (h : CoreInv s gs o 0 top) : s.iterates = true := by
  have hsum : ∀ (gs : List MetaGroup) (pos : Nat), GroupsOk (fun _ => 0) pos gs →
      (gs.map fun g => 1 + g.ev.numSub).sum = (flatMetas gs).length := by
    intro gs
    induction gs with
    | nil => exact fun _ _ => rfl
    | cons g gs ih =>
      intro pos hg
      have hnum : g.ev.numSub = g.subs.length + 0 := hg.1.numSub
      rw [List.map_cons, List.sum_cons, ih _ hg.2, flatMetas_cons, List.length_append,
        entries_length]
      omega
  rw [StickyStore.iterates, coreInv_iter h, h.metas, hsum gs 0 (coreInv_groups h), beq_self_eq_true]

theorem verifyMeta_of_core (h : CoreInv s gs o 0 top) : s.verifyMeta = true := by
  rw [StickyStore.verifyMeta, coreInv_iter h, iterates_of_core h,
    verifyGroups_of_core (coreInv_groups h) h.laid h.top_le h.header]
  rfl

theorem movesDown_of_laid {dest lo hi : Nat} {ps : List (Nat × Nat)} (h : Laid lo ps hi)
    (hle : dest ≤ lo) : movesDown dest ps = true := by
  induction ps generalizing dest lo with
  | nil => rfl
  | cons p ps ih =>
    have := h.1
    rw [movesDown, ih h.2 (by omega)]
    simp
    omega

theorem compactData_asserts (h : CoreInv s gs o 0 top) : s.compactDataAsserts = true := by
  rw [StickyStore.compactDataAsserts, verifyMeta_of_core h, coreInv_iter h,
    movesDown_of_laid h.laid (Nat.le_refl 0), iterates_of_core h,
    verifyMeta_of_core (compactData_core h)]
  rfl

theorem subsMoveDown_of_le {src dest : Nat} (subs : List MetaSubevent) (h : dest ≤ src) :
    subsMoveDown src dest subs = true := by
  induction subs generalizing src dest with
  | nil => rfl
  | cons sev subs ih =>
    rw [subsMoveDown, ih (by omega), ih (by omega)]
    simp [h]

theorem eventsMoveDown_of_le {src dest : Nat} (gs : List MetaGroup) (h : dest ≤ src) :
    eventsMoveDown src dest gs = true := by
  induction gs generalizing src dest with
  | nil => rfl
  | cons g gs ih =>
    have hle := List.length_filter_le (fun sev : MetaSubevent => sev.isLive) g.subs
    rw [eventsMoveDown, ih (by omega), ih (by rw [entries_length]; omega),
      subsMoveDown_of_le g.subs (by omega)]
    simp [h]

theorem compactMeta_asserts (h : CoreInv s gs o 0 top) : s.compactMetaAsserts = true := by
  rw [StickyStore.compactMetaAsserts, verifyMeta_of_core h, eventsMoveDown_of_le _ (Nat.le_refl 0),
    iterates_of_core h, verifyMeta_of_core (compactMeta_core h)]
  rfl

theorem writeAsserts_of_core (h : CoreInv s gs o 0 top) : s.writeAsserts = true := by
  have hall : (s.groups.filter (·.ev.liveSub ≠ 0)).all
      (fun g => decide (sizeofEvent101 ≤ g.ev.dataLength)) = true := by
    rw [List.all_eq_true]
    intro g hg
    rw [coreInv_iter h] at hg
    exact decide_eq_true (h.header g (List.mem_filter.mp hg).1)
  rw [StickyStore.writeAsserts, verifyMeta_of_core h, iterates_of_core h, hall]
  rfl

end Core

end Ucesb
