import Ucesb.MultiEvent

namespace Ucesb

def ReadsInside {α : Type} (x : Except LoadStopped α) : Prop :=
  ∀ st, x = .error st → st.stop ≠ .outside

/-- The words of a timestamp are there, up to the first without its mark. -/
def MarksInside : List WrWord → List WrWord → Prop
  | [], _ => True
  | _ :: _, [] => False
  | mark :: marks, word :: words => word &&& 0xffff0000 = mark → MarksInside marks words

/-- The items of AIDA are whole, and a SYNC has both its items, up to a SYNC that is corrupt. There
is no half of a word at the end. -/
inductive AidaInside (half : Bool) : List WrWord → Prop
  | nil : half = false → AidaInside half []
  | item {word1 word2 : WrWord} {data : List WrWord} :
      isSync word1 = false → AidaInside half data → AidaInside half (word1 :: word2 :: data)
  | corrupt {word1 word2 middleRaw middleLow : WrWord} {data : List WrWord} :
      isSync word1 = true → isMiddle middleRaw = false →
      AidaInside half (word1 :: word2 :: middleRaw :: middleLow :: data)
  | sync {word1 word2 middleRaw middleLow : WrWord} {data : List WrWord} :
      isSync word1 = true → isMiddle middleRaw = true → AidaInside half data →
      AidaInside half (word1 :: word2 :: middleRaw :: middleLow :: data)

/-- Blocks of four words, up to one that is not valid. -/
inductive DtasInside (half : Bool) : List WrWord → Prop
  | nil : half = false → DtasInside half []
  | invalid {header time fine energy : WrWord} {data : List WrWord} :
      header &&& 0xff00ff00 ≠ 0xba00c000 →
      DtasInside half (header :: time :: fine :: energy :: data)
  | block {header time fine energy : WrWord} {data : List WrWord} :
      header &&& 0xff00ff00 = 0xba00c000 → DtasInside half data →
      DtasInside half (header :: time :: fine :: energy :: data)

def MultiSubevent.mbsWr (se : MultiSubevent) : WrTime :=
  if wrMarks wrHeader (se.words.drop 1) = some true then wrValue se.words else 0

def AidaPayload (se : MultiSubevent) : Prop :=
  7 ≤ se.words.length ∧ AidaInside se.half (se.words.drop 5)

/-- After the timestamp there is a word. It is the pulser's, or not the one of the timestamp, or
there are whole blocks after it. -/
def DtasPayload (se : MultiSubevent) : Prop :=
  ∃ wr34 data, se.words.drop 5 = wr34 :: data ∧
    (wr34 = 0x12345678 ∨ se.mbsWr.sshiftRight 32 ≠ wr34.setWidth 64 ∨ DtasInside se.half data)

/-- Up to the subevent that is loaded. An event that is already being built is none to go on with
for DTAS. -/
def SubeventsInside (conf : MultiConf) (building : Bool) : List MultiSubevent → Prop
  | [] => True
  | se :: subevents =>
    if se.bytes < 2 then SubeventsInside conf building subevents
    else
      MarksInside wrHeader (se.words.drop 1) ∧
      if se.procid = conf.eventbuilderProcid then AidaPayload se
      else if conf.enableDtas ∧ se.procid = dtasProcid then building = false → DtasPayload se
      else SubeventsInside conf building subevents

section Loops

variable {conf : MultiConf} {procid : Nat} {mbsWr : WrTime} {half : Bool} {data : List WrWord}

theorem readsInside_ok {α : Type} (a : α) : ReadsInside (.ok a) := fun _ h => by cases h

theorem readsInside_bind {α β : Type} {x : Except LoadStopped α} {f : α → Except LoadStopped β}
    (hf : ∀ a, x = .ok a → ReadsInside (f a)) : ReadsInside (x >>= f) ↔ ReadsInside x := by
  cases x with
  | error st =>
    constructor <;> intro h st' hst' <;> cases hst' <;> exact h st rfl
  | ok a => exact iff_of_true (hf a rfl) (readsInside_ok a)

theorem readsInside_map {α β : Type} {x : Except LoadStopped α} {g : α → β} :
    ReadsInside (x >>= fun a => pure (g a)) ↔ ReadsInside x :=
  readsInside_bind fun a _ => readsInside_ok (g a)

theorem readsInside_error {α : Type} {st : LoadStopped} :
    ReadsInside (.error st : Except LoadStopped α) ↔ st.stop ≠ .outside :=
  ⟨fun h => h st rfl, fun h _ heq => by cases heq; exact h⟩

theorem aidaLoop_inside (data : List WrWord) (l : AidaLoop) :
    ReadsInside (aidaLoop conf procid mbsWr half data l) ↔ AidaInside half data := by
  induction data, l using aidaLoop.induct conf procid mbsWr half with
  | case1 l hhalf =>
    rw [aidaLoop, if_pos hhalf, readsInside_error]
    refine iff_of_false (fun h => h rfl) fun h => ?_
    cases h with
    | nil h => exact Bool.noConfusion (h.symm.trans hhalf)
  | case2 l hhalf =>
    rw [aidaLoop, if_neg hhalf]
    exact iff_of_true (readsInside_ok l) (.nil (Bool.eq_false_iff.mpr hhalf))
  | case3 word l =>
    rw [aidaLoop, readsInside_error]
    exact iff_of_false (fun h => h rfl) fun h => by cases h
  | case4 word1 word2 l hsync middleRaw middleLow data hmiddle ih =>
    rw [aidaLoop, if_pos hsync, if_pos hmiddle, ih]
    constructor
    · exact .sync hsync hmiddle
    · intro h
      cases h with
      | item hsync' => exact Bool.noConfusion (hsync'.symm.trans hsync)
      | corrupt _ hmiddle' => exact Bool.noConfusion (hmiddle'.symm.trans hmiddle)
      | sync _ _ h => exact h
  | case5 word1 word2 l hsync middleRaw middleLow data hmiddle =>
    rw [aidaLoop, if_pos hsync, if_neg hmiddle, readsInside_error]
    exact iff_of_true (fun h => by cases h) (.corrupt hsync (Bool.eq_false_iff.mpr hmiddle))
  | case6 word1 word2 data l hsync hshort =>
    have hrun : aidaLoop conf procid mbsWr half (word1 :: word2 :: data) l =
        .error ((l.setWr (setLow l.source.loadEventWr word2)).stopped .outside) := by
      rcases data with _ | ⟨middleRaw, _ | ⟨middleLow, data⟩⟩
      · rw [aidaLoop, if_pos hsync]
        simp
      · rw [aidaLoop, if_pos hsync]
        simp
      · exact (hshort _ _ _ rfl).elim
    rw [hrun, readsInside_error]
    refine iff_of_false (fun h => h rfl) fun h => ?_
    cases h with
    | item hsync' => exact Bool.noConfusion (hsync'.symm.trans hsync)
    | corrupt _ _ => exact hshort _ _ _ rfl
    | sync _ _ _ => exact hshort _ _ _ rfl
  | case7 word1 word2 data l hsync ih =>
    rw [aidaLoop.eq_def]
    dsimp only
    rw [if_neg hsync, ih]
    have hitem := Bool.eq_false_iff.mpr hsync
    constructor
    · exact .item hitem
    · intro h
      cases h with
      | item _ h => exact h
      | corrupt hsync' => exact absurd hsync' hsync
      | sync hsync' => exact absurd hsync' hsync

theorem dtasLoop_inside (data : List WrWord) (l : DtasLoop) :
    ReadsInside (dtasLoop conf procid mbsWr half data l) ↔ DtasInside half data := by
  induction data, l using dtasLoop.induct conf procid mbsWr half with
  | case1 l hhalf =>
    rw [dtasLoop, if_pos hhalf, readsInside_error]
    refine iff_of_false (fun h => h rfl) fun h => ?_
    cases h with
    | nil h => exact Bool.noConfusion (h.symm.trans hhalf)
  | case2 l hhalf =>
    rw [dtasLoop, if_neg hhalf]
    exact iff_of_true (readsInside_ok l) (.nil (Bool.eq_false_iff.mpr hhalf))
  | case3 l header time fine energy data hheader =>
    rw [dtasLoop, if_pos hheader, readsInside_error]
    exact iff_of_true (fun h => by cases h) (.invalid hheader)
  | case4 l header time fine energy data hheader ih =>
    rw [dtasLoop, if_neg hheader, ih]
    constructor
    · exact .block (not_not.mp hheader)
    · intro h
      cases h with
      | invalid h => exact absurd h hheader
      | block _ h => exact h
  | case5 data l hnil hshort =>
    rw [dtasLoop, readsInside_error]
    · refine iff_of_false (fun h => h rfl) fun h => ?_
      cases h with
      | nil _ => exact hnil rfl
      | invalid _ => exact hshort _ _ _ _ _ rfl
      | block _ _ => exact hshort _ _ _ _ _ rfl
    · exact hnil
    · exact hshort

end Loops

section Load

variable {conf : MultiConf} {se : MultiSubevent} {mbsWr : WrTime} {s : MultiEventSource}

theorem loadAida_inside : ReadsInside (loadAida conf se mbsWr s) ↔ AidaPayload se := by
  have hdrop := List.length_drop (l := se.words) (i := 5)
  unfold loadAida AidaPayload
  split
  next word1 word2 data hwords =>
    rw [hwords] at hdrop
    simp only [List.length_cons] at hdrop
    rw [readsInside_bind fun l _ => ?_, aidaLoop_inside, ← hwords]
    · exact (and_iff_right (by omega)).symm
    · unfold saveAida
      split
      · exact readsInside_error.mpr fun h => by cases h
      · exact readsInside_ok _
  next hshort =>
    rw [readsInside_error]
    refine iff_of_false (fun h => h rfl) fun ⟨hlen, _⟩ => ?_
    rcases hwords : se.words.drop 5 with _ | ⟨word1, _ | ⟨word2, data⟩⟩
    · rw [hwords, List.length_nil] at hdrop
      omega
    · rw [hwords, List.length_singleton] at hdrop
      omega
    · exact hshort _ _ _ hwords

theorem loadDtas_inside (hmbs : mbsWr = se.mbsWr) :
    ReadsInside (loadDtas conf se mbsWr s) ↔
      (s.curDtas.any DtasEntry.fragment = false → DtasPayload se) := by
  subst hmbs
  unfold loadDtas DtasPayload
  split
  next hbuilding =>
    rw [readsInside_error, hbuilding]
    exact iff_of_true (fun h => by cases h) fun h => by cases h
  next hbuilding =>
    rw [imp_iff_right (Bool.eq_false_iff.mpr hbuilding)]
    split
    next wr34 data hwords =>
      have hloop : ReadsInside (loadDtasBlocks conf se se.mbsWr wr34 data s) ↔
          (wr34 = 0x12345678 ∨ se.mbsWr.sshiftRight 32 ≠ wr34.setWidth 64 ∨
            DtasInside se.half data) := by
        unfold loadDtasBlocks
        split
        next hpulser => exact iff_of_true (readsInside_ok _) (.inl hpulser)
        next hpulser =>
        split
        next hheader =>
          exact iff_of_true (readsInside_error.mpr fun h => by cases h) (.inr (.inl hheader))
        next hheader =>
          rw [readsInside_map, dtasLoop_inside]
          exact ⟨fun h => .inr (.inr h), fun h =>
            (h.resolve_left hpulser).resolve_left hheader⟩
      rw [hloop]
      constructor
      · exact fun h => ⟨wr34, data, hwords, h⟩
      · rintro ⟨wr34', data', hwords', h⟩
        cases hwords.symm.trans hwords'
        exact h
    next hwords =>
      rw [readsInside_error]
      refine iff_of_false (fun h => h rfl) ?_
      rintro ⟨wr34, data, hwords', -⟩
      cases hwords.symm.trans hwords'

theorem marksInside_iff (marks words : List WrWord) :
    MarksInside marks words ↔ wrMarks marks words ≠ none := by
  induction marks generalizing words with
  | nil => exact iff_of_true trivial (by simp [wrMarks])
  | cons mark marks ih =>
    cases words with
    | nil => exact iff_of_false (fun h => h) (by simp [wrMarks])
    | cons word words =>
      rw [MarksInside, wrMarks, ih]
      split
      next hmark => rw [imp_iff_right hmark]
      next hmark => exact iff_of_true (fun h => absurd h hmark) (by simp)

theorem readWr_inside : MarksInside wrHeader (se.words.drop 1) ↔
    ∃ s', readWr se s = .ok (se.mbsWr, s') ∧ s'.curDtas = s.curDtas := by
  rw [marksInside_iff, readWr, MultiSubevent.mbsWr]
  split
  next h =>
    rw [if_pos h]
    exact iff_of_true (by rw [h]; simp) ⟨_, rfl, rfl⟩
  next h =>
    rw [if_neg (by rw [h]; simp)]
    exact iff_of_true (by rw [h]; simp) ⟨_, rfl, rfl⟩
  next h => exact iff_of_false (fun hn => hn h) fun ⟨_, hn, _⟩ => by cases hn

theorem readWr_outside (h : ¬MarksInside wrHeader (se.words.drop 1)) :
    readWr se s = .error ⟨.outside, s⟩ := by
  rw [marksInside_iff, not_not] at h
  rw [readWr, h]

theorem loadSubevents_inside (event : MultiFileEvent) (subevents : List MultiSubevent) :
    ReadsInside (loadSubevents conf event subevents s) ↔
      SubeventsInside conf (s.curDtas.any DtasEntry.fragment) subevents := by
  induction subevents generalizing s with
  | nil => exact iff_of_true (readsInside_ok _) trivial
  | cons se subevents ih =>
    unfold loadSubevents SubeventsInside
    split
    · exact ih
    by_cases hmarks : MarksInside wrHeader (se.words.drop 1)
    · obtain ⟨s', hread, hdtas⟩ := (readWr_inside (s := s)).mp hmarks
      rw [and_iff_right hmarks, hread, ← hdtas]
      change ReadsInside (if se.procid = conf.eventbuilderProcid then _ else _) ↔ _
      split
      · rw [readsInside_map, loadAida_inside]
      split
      · rw [readsInside_map, loadDtas_inside rfl]
      · exact ih
    · rw [readWr_outside hmarks]
      refine iff_of_false (fun h => h _ rfl rfl) fun h => hmarks h.1

/-- Loading an event reads only words of its subevents exactly when the payloads are whole. -/
theorem load_events_inside_iff (conf : MultiConf) (s : MultiEventSource) :
    ReadsInside (loadEvents conf s) ↔ ∀ e input, s.input = .event e :: input → e.type = 10 →
      e.subtype = 1 →
      SubeventsInside conf (s.curDtas.any DtasEntry.fragment) e.subevents := by
  unfold loadEvents
  split
  next hinput =>
    exact iff_of_true (readsInside_ok _) fun e input h => by cases hinput.symm.trans h
  next message input hinput =>
    refine iff_of_true (readsInside_error.mpr fun h => by cases h) fun e input h => ?_
    cases hinput.symm.trans h
  next e input hinput =>
    split
    next hother =>
      refine iff_of_true (readsInside_ok _) fun e' input' h htype hsubtype => ?_
      cases hinput.symm.trans h
      rw [(hother.resolve_left (not_not.mpr htype)).resolve_left (not_not.mpr hsubtype)]
      trivial
    next hother =>
      rw [not_or, not_or, not_not, not_not] at hother
      rw [loadSubevents_inside]
      constructor
      · intro h e' input' h' _ _
        cases hinput.symm.trans h'
        exact h
      · exact fun h => h e input hinput hother.1 hother.2.1

end Load

def syncEnd : MultiSubevent :=
  ⟨90, [0x200, 0x03e10000, 0x04e10000, 0x05e10000, 0x06e10000, 0x80500000, 0], false⟩

def plainConf : MultiConf := ⟨true, 90, 2200, 0, false, false, -1⟩

theorem load_sync_end :
    ¬ReadsInside (loadEvents plainConf (startMulti [.event ⟨10, 1, 0, [syncEnd]⟩] true)) :=
  fun h => h _ rfl rfl

end Ucesb
