import Ucesb.SubeventChunks
import Mathlib.Data.List.Forall2

namespace Ucesb

/-- What one turn of `locate_subevents` records, from some place in the chunks of an event. -/
def Recorded (sticky swapping : Bool) (s : LocatedSubevent) : Prop :=
  ∃ src offset cursor, CursorOk src offset ∧ (cursorRest src offset).length < 2 ^ 32 ∧
    locateSubevent sticky swapping src offset = .ok (s, cursor)

section Recorded

variable {sticky swapping : Bool} {s : LocatedSubevent}

theorem locateSubevent_cases {src : List (List UInt8)} {offset : Nat}
    {r : LocatedSubevent × List (List UInt8) × Nat} (hok : CursorOk src offset)
    (hsmall : (cursorRest src offset).length < 2 ^ 32)
    (h : locateSubevent sticky swapping src offset = .ok r) :
    sizeofSubevent101 ≤ (cursorRest src offset).length ∧
      r.1.header = swapIf swapping ((cursorRest src offset).take sizeofSubevent101) ∧
      getSubeventDataSrc sticky r.1 = r.1.data.content ∧
      r.1.data.content.length = subDataLength sticky r.1.header ∧
      subDataLength sticky r.1.header < 2 ^ 32 ∧
      CursorOk r.2.1 r.2.2 ∧ (cursorRest r.2.1 r.2.2).length < 2 ^ 32 := by
  by_cases hhead : sizeofSubevent101 ≤ (cursorRest src offset).length
  · generalize hheader : swapIf swapping ((cursorRest src offset).take sizeofSubevent101) = header
    by_cases hdata : subDataLength sticky header ≤
        ((cursorRest src offset).drop sizeofSubevent101).length
    · obtain ⟨data, src', offset', hloc, hcontent, hdsrc, hrest, hok', _⟩ :=
        locateSubevent_ok hok rfl rfl hhead hsmall hheader.symm rfl hdata
      rw [h, Except.ok.injEq] at hloc
      subst hloc
      rw [List.length_drop] at hdata
      refine ⟨hhead, rfl, hdsrc, ?_, by simp only; omega, hok', ?_⟩
      · simp only [hcontent, List.length_take, List.length_drop]
        omega
      · simp only [hrest, List.length_drop]
        omega
    · rw [locateSubevent_missing hok rfl hhead hheader.symm rfl (by omega)] at h
      cases h
  · rw [locateSubevent_short (by omega)] at h
    cases h

theorem locateChunksLoop_recorded {fuel : Nat} {src : List (List UInt8)} {offset : Nat}
    {found : List LocatedSubevent} (hok : CursorOk src offset)
    (hsmall : (cursorRest src offset).length < 2 ^ 32)
    (h : locateChunksLoop sticky swapping fuel src offset = .ok found) :
    ∀ s ∈ found, Recorded sticky swapping s := by
  induction fuel generalizing src offset found with
  | zero =>
    cases h
    simp
  | succ fuel ih =>
    rw [locateChunksLoop] at h
    split at h
    next =>
      cases h
      simp
    next =>
      split at h
      next => cases h
      next info src' offset' hloc =>
        obtain ⟨_, _, _, _, _, hok', hsmall'⟩ := locateSubevent_cases hok hsmall hloc
        cases hrec : locateChunksLoop sticky swapping fuel src' offset' with
        | error msg =>
          rw [hrec] at h
          cases h
        | ok rest =>
          rw [hrec] at h
          cases h
          intro s hs
          rcases List.mem_cons.mp hs with rfl | hs
          · exact ⟨src, offset, _, hok, hsmall, hloc⟩
          · exact ih hok' hsmall' hrec s hs

theorem locateChunks_recorded {e : EventChunks} {found : List LocatedSubevent}
    (h : locateChunks sticky swapping e.chunks = .ok found) :
    ∀ s ∈ found, Recorded sticky swapping s := by
  have hsmall := e.small
  have hzero := cursorRest_zero e.chunks
  rw [locateChunks] at h
  by_cases hshort : (cursorRest e.chunks 0).length < sizeofEvent101 - sizeofEventHeader
  · rw [getRangeMany_none hshort] at h
    cases h
  · obtain ⟨src, offset, hget, hrest, hok, _⟩ :=
      getRangeMany_spec (Nat.le_of_not_lt hshort) (by decide) (cursorOk_zero e.chunks) rfl
    rw [hget] at h
    refine locateChunksLoop_recorded hok ?_ h
    rw [hrest, List.length_drop, hzero]
    omega

theorem recorded_src (h : Recorded sticky swapping s) :
    getSubeventDataSrc sticky s = s.data.content := by
  obtain ⟨src, offset, cursor, hok, hsmall, hloc⟩ := h
  exact (locateSubevent_cases hok hsmall hloc).2.2.1

theorem recorded_src_again (h : Recorded sticky swapping s) :
    getSubeventDataSrc sticky ⟨s.header, .whole s.data.content⟩ = s.data.content := by
  obtain ⟨src, offset, cursor, hok, hsmall, hloc⟩ := h
  obtain ⟨_, _, _, hlen, hlt, _⟩ := locateSubevent_cases hok hsmall hloc
  rw [getSubeventDataSrc]
  cases hr : (sticky && subIsRevoke s.header) with
  | true =>
    rw [subDataLength, hr, if_pos rfl, List.length_eq_zero_iff] at hlen
    exact hlen.symm
  | false =>
    simp only [Bool.false_eq_true, if_false]
    rw [subDataLength_small hlt hr, ← hlen, List.take_length]

end Recorded

structure RecordedEvent where
  event : LoopEvent
  recorded : ∀ s ∈ event.subevents, Recorded event.header.isSticky event.swapping s

/-- The pieces are whole words, and the first is taken from where the data starts. -/
def SubeventData.CopiesWhole : SubeventData → Prop
  | .whole data => data.length % 4 = 0
  | .fragments first offset more length =>
    (first.length - offset) % 4 = 0 ∧
      (∀ piece ∈ copyFragments more (length - (first.length - offset)), piece.length % 4 = 0) ∧
      first.take (first.length - offset) = first.drop offset

/-- The bytes of the chunks that are made for a subevent are those of the subevent. -/
def CopiedAs (sticky swapping : Bool) (s : LocatedSubevent) (chunks : List BufChunkSwap) : Prop :=
  copySubevent swapping s = some chunks ∧
    chunks.flatMap (·.data) = s.header ++ getSubeventDataSrc sticky s

section Copy

variable {sticky swapping : Bool} {s : LocatedSubevent}

theorem copiedAs_iff (h : getSubeventDataSrc sticky s = s.data.content) :
    (∃ chunks, CopiedAs sticky swapping s chunks) ↔ s.data.CopiesWhole := by
  have hbytes : (⟨s.header, false⟩ :: s.data.copied.map (⟨·, swapping⟩) : List BufChunkSwap).flatMap
      (·.data) = s.header ++ s.data.copied.flatten := by
    rw [List.flatMap_cons, List.flatMap_map, List.flatMap_id']
  have hiff : (∃ chunks, CopiedAs sticky swapping s chunks) ↔
      (∀ piece ∈ s.data.copied, piece.length % 4 = 0) ∧ s.data.copied.flatten = s.data.content := by
    simp only [CopiedAs, copySubevent, h]
    constructor
    · rintro ⟨chunks, hcopy, hdata⟩
      split at hcopy
      next hall =>
        cases hcopy
        rw [hbytes, List.append_cancel_left_eq] at hdata
        exact ⟨by simpa using hall, hdata⟩
      next => cases hcopy
    · rintro ⟨hall, hdata⟩
      refine ⟨_, by rw [if_pos (by simpa using hall)], ?_⟩
      rw [hbytes, hdata]
  rw [hiff]
  cases hdata : s.data with
  | whole data =>
    simp only [SubeventData.copied, SubeventData.content, SubeventData.CopiesWhole]
    split
    next hnil => simp [hnil]
    next => simp
  | fragments first offset more length =>
    have hlen : (first.take (first.length - offset)).length = first.length - offset := by
      rw [List.length_take]
      omega
    simp only [SubeventData.copied, SubeventData.content, SubeventData.CopiesWhole,
      List.mem_cons, forall_eq_or_imp, hlen, List.flatten_cons, List.append_cancel_right_eq,
      and_assoc]

theorem copySubevents_groups {subevents : List LocatedSubevent} {groups : List (List BufChunkSwap)}
    (h : List.Forall₂ (fun s g => copySubevent swapping s = some g) subevents groups) :
    copySubevents swapping subevents = some groups.flatten := by
  induction h with
  | nil => rfl
  | cons hs _ ih =>
    rw [copySubevents, hs, ih]
    rfl

end Copy

/-- `copy` gives each accepted subevent its header and its own data exactly if the data is whole
words in every piece, and starts with its chunk where it is still in fragments. -/
theorem copy_subevents_iff (o : SelectEvent) (e : RecordedEvent) (reached : Nat) :
    (∃ groups, copySubevents e.event.swapping (o.wanted e.event (e.event.defragged reached)) =
        some groups.flatten ∧
      List.Forall₂ (CopiedAs e.event.header.isSticky e.event.swapping)
        (o.wanted e.event (e.event.defragged reached)) groups) ↔
    ∀ s ∈ o.wanted e.event (e.event.defragged reached), s.data.CopiesWhole := by
  have hsrc : ∀ s ∈ o.wanted e.event (e.event.defragged reached),
      getSubeventDataSrc e.event.header.isSticky s = s.data.content := by
    intro s hs
    have hmem : s ∈ e.event.defragged reached := by
      rw [SelectEvent.wanted] at hs
      split at hs
      next => exact hs
      next => exact (List.mem_filter.mp hs).1
    rcases List.mem_append.mp hmem with hm | hm
    · obtain ⟨s₀, hs₀, rfl⟩ := List.mem_map.mp hm
      exact recorded_src_again (e.recorded s₀ (List.mem_of_mem_take hs₀))
    · exact recorded_src (e.recorded s (List.mem_of_mem_drop hm))
  generalize o.wanted e.event (e.event.defragged reached) = wanted at hsrc ⊢
  constructor
  · rintro ⟨groups, _, hall⟩
    clear * - hall hsrc
    induction hall with
    | nil => simp
    | cons hg _ ih =>
      intro s hs
      rcases List.mem_cons.mp hs with rfl | hs
      · exact (copiedAs_iff (hsrc s List.mem_cons_self)).mp ⟨_, hg⟩
      · exact ih (fun t ht => hsrc t (List.mem_cons_of_mem _ ht)) s hs
  · intro hall
    have hgroups : ∃ groups, List.Forall₂
        (CopiedAs e.event.header.isSticky e.event.swapping) wanted groups := by
      induction wanted with
      | nil => exact ⟨[], List.Forall₂.nil⟩
      | cons s wanted ih =>
        obtain ⟨groups, hrest⟩ := ih (fun t ht => hsrc t (List.mem_cons_of_mem s ht))
          fun t ht => hall t (List.mem_cons_of_mem s ht)
        obtain ⟨g, hg⟩ := (copiedAs_iff (hsrc s List.mem_cons_self)).mpr (hall s List.mem_cons_self)
        exact ⟨g :: groups, List.Forall₂.cons hg hrest⟩
    obtain ⟨groups, hgroups⟩ := hgroups
    exact ⟨groups, copySubevents_groups (hgroups.imp fun _ _ h => h.1), hgroups⟩

def splitChunks : List (List UInt8) :=
  [List.replicate 8 0 ++ le32 6 ++ le32 0 ++ le32 0 ++ le32 7, le32 9]

theorem splitChunks_small : splitChunks.flatten.length < 2 ^ 32 := by decide

def splitSubevent : LocatedSubevent :=
  ⟨le32 6 ++ le32 0 ++ le32 0, .fragments (List.replicate 8 0 ++ le32 6 ++ le32 0 ++ le32 0 ++ le32 7)
    20 [le32 9] 8⟩

theorem splitSubevent_located :
    locateChunks false false splitChunks = .ok [splitSubevent] := by decide +kernel

def splitEvent : RecordedEvent where
  event := ⟨⟨16, lmdEvent101Type, lmdEvent101Subtype⟩, ⟨0, 0, 0⟩, false, false, [splitSubevent],
    false, false, 0⟩
  recorded := @locateChunks_recorded false false ⟨splitChunks, splitChunks_small⟩ _
    splitSubevent_located

theorem split_subevent_copied_wrong :
    ¬ ∀ (o : SelectEvent) (e : RecordedEvent) (reached : Nat), ∃ groups,
      copySubevents e.event.swapping (o.wanted e.event (e.event.defragged reached)) =
        some groups.flatten ∧
      List.Forall₂ (CopiedAs e.event.header.isSticky e.event.swapping)
        (o.wanted e.event (e.event.defragged reached)) groups := by
  intro h
  obtain ⟨groups, hcopy, hall⟩ := h ⟨fun _ => true, fun _ => true, false⟩ splitEvent 0
  have hwanted : SelectEvent.wanted ⟨fun _ => true, fun _ => true, false⟩ splitEvent.event
      (splitEvent.event.defragged 0) = [splitSubevent] := by decide
  rw [hwanted] at hall
  cases hall with
  | cons hs htail =>
    have hcs : copySubevent false splitSubevent =
        some [⟨le32 6 ++ le32 0 ++ le32 0, false⟩, ⟨le32 0, false⟩, ⟨le32 9, false⟩] := by decide
    have hg := hs.1.symm.trans hcs
    rw [Option.some.injEq] at hg
    have hdata := hs.2
    rw [hg] at hdata
    revert hdata
    decide

end Ucesb
