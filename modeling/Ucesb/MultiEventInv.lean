import Mathlib.Data.Nat.Init
import Ucesb.MultiEventGet
import Ucesb.MultiEventReads

namespace Ucesb

structure BuiltInv (s : MultiEventSource) : Prop where
  aida : ∀ e ∈ s.curAida, Stored e.data e.stamps ∧ e.fragment = true
  dtas : ∀ e ∈ s.curDtas, e.fragment = true
  log : ∀ x ∈ s.retracks, Stored x.1.data x.1.stamps

structure Kept (s0 s : MultiEventSource) : Prop where
  inv : BuiltInv s
  input : s.input = s0.input
  lastFile : s.lastFile = s0.lastFile

structure AidaKept (s0 : MultiEventSource) (l : AidaLoop) : Prop where
  cur : Stored l.cur.data l.cur.stamps
  fragment : l.cur.fragment = true
  dtas : ∀ e ∈ l.source.curDtas, e.fragment = true
  log : ∀ x ∈ l.source.retracks, Stored x.1.data x.1.stamps
  input : l.source.input = s0.input
  lastFile : l.source.lastFile = s0.lastFile

section Aida

variable {conf : MultiConf} {procid : Nat} {mbsWr : WrTime} {half : Bool} {s0 : MultiEventSource}
  {l : AidaLoop} {word1 word2 : WrWord}

theorem AidaKept.stopped (h : AidaKept s0 l) (stop : LoadStop) : Kept s0 (l.stopped stop).source where
  inv := by
    refine ⟨fun e he => ?_, h.dtas, h.log⟩
    cases he
    exact ⟨h.cur, h.fragment⟩
  input := h.input
  lastFile := h.lastFile

theorem AidaKept.setWr (h : AidaKept s0 l) (wr : WrTime) : AidaKept s0 (l.setWr wr) :=
  ⟨h.cur, h.fragment, h.dtas, h.log, h.input, h.lastFile⟩

theorem AidaKept.store {data : List WrWord} {stamps : List WrTime} (h : AidaKept s0 l)
    (hstored : Stored data stamps) : AidaKept s0 (l.store data stamps) :=
  ⟨h.cur.append hstored, h.fragment, h.dtas, h.log, h.input, h.lastFile⟩

theorem aidaSync_kept (h : AidaKept s0 l) (hsync : isSync word1 = true)
    (middleRaw middleLow : WrWord) : AidaKept s0 (aidaSync word1 word2 middleRaw middleLow l) := by
  unfold aidaSync
  split
  · exact (h.store (.sync hsync (setLow_sameLow _ _) .nil)).setWr _
  · exact h.setWr _

theorem aidaImplant_kept (h : AidaKept s0 l) : AidaKept s0 (aidaImplant word1 l) := by
  unfold aidaImplant
  split
  · split
    · refine ⟨h.cur, h.fragment, h.dtas, fun x hx => ?_, h.input, h.lastFile⟩
      rcases List.mem_append.mp hx with hx | hx
      · exact h.log x hx
      · rw [List.mem_singleton.mp hx]
        exact h.cur
    · exact ⟨h.cur, h.fragment, h.dtas, h.log, h.input, h.lastFile⟩
  · exact h

theorem aidaImplant_wr : (aidaImplant word1 l).source.loadEventWr = l.source.loadEventWr := by
  unfold aidaImplant
  split
  · split <;> rfl
  · rfl

theorem aidaPulser_kept (h : AidaKept s0 l) : AidaKept s0 (aidaPulser word1 l) := by
  unfold aidaPulser
  split
  · exact ⟨h.cur, h.fragment, h.dtas, h.log, h.input, h.lastFile⟩
  · exact h

theorem aidaPulser_wr : (aidaPulser word1 l).source.loadEventWr = l.source.loadEventWr := by
  unfold aidaPulser
  split <;> rfl

theorem aidaSplit_kept (h : AidaKept s0 l) : AidaKept s0 (aidaSplit conf procid word1 l) := by
  unfold aidaSplit finishAida
  split
  · split
    · exact ⟨.nil, rfl, h.dtas, h.log, h.input, h.lastFile⟩
    · exact ⟨.nil, rfl, h.dtas, h.log, h.input, h.lastFile⟩
  · exact h

theorem aidaSplit_wr :
    (aidaSplit conf procid word1 l).source.loadEventWr = l.source.loadEventWr := by
  unfold aidaSplit finishAida
  split
  · split <;> rfl
  · rfl

theorem aidaStore_kept (h : AidaKept s0 l) (hsync : isSync word1 = false)
    (hlow : SameLow l.source.loadEventWr word2) : AidaKept s0 (aidaStore word1 word2 l) := by
  have hstored : Stored [word1, word2] [l.source.loadEventWr] := .item hsync hlow .nil
  unfold aidaStore
  split
  · exact ⟨h.cur.append hstored, h.fragment, h.dtas, h.log, h.input, h.lastFile⟩
  · exact h.store hstored

theorem aidaKeep_kept (h : AidaKept s0 l) (hsync : isSync word1 = false)
    (hlow : SameLow l.source.loadEventWr word2) :
    AidaKept s0 (aidaKeep conf procid mbsWr word1 word2 l) := by
  unfold aidaKeep
  split
  · exact ⟨h.cur, h.fragment, h.dtas, h.log, h.input, h.lastFile⟩
  · have hskip : AidaKept s0 { l with source := { l.source with aidaSkip := 0 } } :=
      ⟨h.cur, h.fragment, h.dtas, h.log, h.input, h.lastFile⟩
    exact aidaStore_kept (aidaSplit_kept hskip) hsync (by rw [aidaSplit_wr]; exact hlow)

theorem itemTime_sameLow (t : WrTime) (word1 word2 : WrWord) :
    SameLow (itemTime t word1 word2) word2 := by
  unfold itemTime
  split
  · exact fullTime_sameLow _ _ _
  · exact setLow_sameLow _ _

theorem aidaItem_kept (h : AidaKept s0 l) (hsync : isSync word1 = false) :
    AidaKept s0 (aidaItem conf procid mbsWr word1 word2 l) := by
  unfold aidaItem
  refine aidaKeep_kept (aidaPulser_kept (aidaImplant_kept (h.setWr _))) hsync ?_
  rw [aidaPulser_wr, aidaImplant_wr]
  exact itemTime_sameLow _ _ _

theorem aidaLoop_kept (data : List WrWord) (l : AidaLoop) (h : AidaKept s0 l) :
    Ends (fun st => Kept s0 st.source) (AidaKept s0) (aidaLoop conf procid mbsWr half data l) := by
  induction data, l using aidaLoop.induct conf procid mbsWr half with
  | case1 l hhalf =>
    rw [aidaLoop, if_pos hhalf]
    exact h.stopped _
  | case2 l hhalf =>
    rw [aidaLoop, if_neg hhalf]
    exact h
  | case3 word l =>
    rw [aidaLoop]
    exact h.stopped _
  | case4 word1 word2 l hsync middleRaw middleLow data hmiddle ih =>
    rw [aidaLoop, if_pos hsync, if_pos hmiddle]
    exact ih (aidaSync_kept h hsync _ _)
  | case5 word1 word2 l hsync middleRaw middleLow data hmiddle =>
    rw [aidaLoop, if_pos hsync, if_neg hmiddle]
    exact (h.setWr _).stopped _
  | case6 word1 word2 data l hsync hshort =>
    rcases data with _ | ⟨middleRaw, _ | ⟨middleLow, data⟩⟩
    · rw [aidaLoop, if_pos hsync]
      · exact (h.setWr _).stopped _
      · exact hshort
    · rw [aidaLoop, if_pos hsync]
      · exact (h.setWr _).stopped _
      · exact hshort
    · exact (hshort _ _ _ rfl).elim
  | case7 word1 word2 data l hsync ih =>
    rw [aidaLoop.eq_def]
    dsimp only
    rw [if_neg hsync]
    exact ih (aidaItem_kept h (Bool.eq_false_iff.mpr hsync))

theorem curAidaOf_kept {s : MultiEventSource} (h : BuiltInv s) (procid : Nat) :
    Stored (curAidaOf procid s).data (curAidaOf procid s).stamps ∧
      (curAidaOf procid s).fragment = true := by
  unfold curAidaOf
  split
  next e he =>
    split
    · exact h.aida e he
    · exact ⟨.nil, rfl⟩
  next => exact ⟨.nil, rfl⟩

theorem loadAida_kept {s : MultiEventSource} (h : BuiltInv s) (se : MultiSubevent) :
    Ends (fun st => Kept s st.source) (Kept s) (loadAida conf se mbsWr s) := by
  obtain ⟨hcur, hfragment⟩ := curAidaOf_kept h se.procid
  unfold loadAida
  split
  next word1 word2 data hwords =>
    refine ends_bind (aidaLoop_kept _ _ ⟨hcur, hfragment, h.dtas, h.log, rfl, rfl⟩) fun l hl => ?_
    unfold saveAida
    split
    · exact hl.stopped _
    · refine ⟨⟨fun e he => ?_, hl.dtas, hl.log⟩, hl.input, hl.lastFile⟩
      cases he
      exact ⟨hl.cur, rfl⟩
  next =>
    refine ⟨⟨fun e he => ?_, h.dtas, h.log⟩, rfl, rfl⟩
    cases he
    exact ⟨hcur, hfragment⟩

end Aida

structure DtasKept (s0 : MultiEventSource) (l : DtasLoop) : Prop where
  fragment : l.cur.fragment = true
  aida : ∀ e ∈ l.source.curAida, Stored e.data e.stamps ∧ e.fragment = true
  log : ∀ x ∈ l.source.retracks, Stored x.1.data x.1.stamps
  input : l.source.input = s0.input
  lastFile : l.source.lastFile = s0.lastFile

section Dtas

variable {conf : MultiConf} {procid : Nat} {mbsWr : WrTime} {half : Bool}
  {s0 s : MultiEventSource} {l : DtasLoop}

theorem DtasKept.stopped (h : DtasKept s0 l) (stop : LoadStop) : Kept s0 (l.stopped stop).source where
  inv := by
    refine ⟨h.aida, fun e he => ?_, h.log⟩
    cases he
    exact h.fragment
  input := h.input
  lastFile := h.lastFile

theorem dtasBlock_kept (h : DtasKept s0 l) (block : List WrWord) (wr : WrTime) :
    DtasKept s0 (dtasBlock conf procid block wr l) := by
  unfold dtasBlock dtasSplit
  split
  · exact ⟨h.fragment, h.aida, h.log, h.input, h.lastFile⟩
  dsimp only
  split
  · refine ⟨rfl, ?_, ?_, ?_, ?_⟩
    · dsimp only
      split <;> exact h.aida
    · dsimp only
      split <;> exact h.log
    · dsimp only
      split <;> exact h.input
    · dsimp only
      split <;> exact h.lastFile
  · exact ⟨h.fragment, h.aida, h.log, h.input, h.lastFile⟩

theorem dtasLoop_kept (data : List WrWord) (l : DtasLoop) (h : DtasKept s0 l) :
    Ends (fun st => Kept s0 st.source) (DtasKept s0) (dtasLoop conf procid mbsWr half data l) := by
  induction data, l using dtasLoop.induct conf procid mbsWr half with
  | case1 l hhalf =>
    rw [dtasLoop, if_pos hhalf]
    exact h.stopped _
  | case2 l hhalf =>
    rw [dtasLoop, if_neg hhalf]
    exact h
  | case3 l header time fine energy data hheader =>
    rw [dtasLoop, if_pos hheader]
    exact h.stopped _
  | case4 l header time fine energy data hheader ih =>
    rw [dtasLoop, if_neg hheader]
    exact ih (dtasBlock_kept h _ _)
  | case5 data l hnil hshort =>
    rw [dtasLoop]
    · exact h.stopped _
    · exact hnil
    · exact hshort

theorem loadDtasBlocks_kept (h : BuiltInv s) (se : MultiSubevent) (wr34 : WrWord)
    (data : List WrWord) :
    Ends (fun st => Kept s st.source) (Kept s) (loadDtasBlocks conf se mbsWr wr34 data s) := by
  unfold loadDtasBlocks
  split
  · exact ⟨⟨h.aida, fun e he => (by cases he), h.log⟩, rfl, rfl⟩
  split
  · refine ⟨⟨h.aida, fun e he => ?_, h.log⟩, rfl, rfl⟩
    cases he
    rfl
  · refine ends_bind (dtasLoop_kept _ _ ⟨rfl, h.aida, h.log, rfl, rfl⟩) fun l hl => ?_
    change Kept s (saveDtas l)
    unfold saveDtas
    split
    · exact ⟨⟨hl.aida, fun e he => (by cases he), hl.log⟩, hl.input, hl.lastFile⟩
    · exact ⟨⟨hl.aida, fun e he => (by cases he), hl.log⟩, hl.input, hl.lastFile⟩

theorem loadDtas_kept (h : BuiltInv s) (se : MultiSubevent) :
    Ends (fun st => Kept s st.source) (Kept s) (loadDtas conf se mbsWr s) := by
  unfold loadDtas
  split
  · exact ⟨h, rfl, rfl⟩
  split
  · exact loadDtasBlocks_kept h se _ _
  · refine ⟨⟨h.aida, fun e he => ?_, h.log⟩, rfl, rfl⟩
    cases he
    rfl

end Dtas

structure Loaded (s : MultiEventSource) (x : FileStatus × MultiEventSource) : Prop where
  inv : BuiltInv x.2
  lastFile : x.2.lastFile = s.lastFile
  step : x.1 = .eof ∧ x.2 = s ∧ s.input = [] ∨
    x.1 ≠ .eof ∧ x.2.input.length < s.input.length

structure Windowed (s s' : MultiEventSource) : Prop where
  inv : BuiltInv s'
  lastFile : s'.lastFile = s.lastFile
  step : s' = s ∧ s.input = [] ∨ s'.input.length < s.input.length

section Load

variable {conf : MultiConf} {s : MultiEventSource}

theorem readWr_kept (h : BuiltInv s) (se : MultiSubevent) :
    Ends (fun st => Kept s st.source) (fun x => Kept s x.2) (readWr se s) := by
  unfold readWr
  split
  · exact ⟨⟨h.aida, h.dtas, h.log⟩, rfl, rfl⟩
  · exact ⟨h, rfl, rfl⟩
  · exact ⟨h, rfl, rfl⟩

theorem loadSubevents_kept (h : BuiltInv s) (event : MultiFileEvent)
    (subevents : List MultiSubevent) :
    Ends (fun st => Kept s st.source) (fun x => x.1 ≠ .eof ∧ Kept s x.2)
      (loadSubevents conf event subevents s) := by
  induction subevents generalizing s with
  | nil => exact ⟨by rintro ⟨⟩, ⟨h.aida, h.dtas, h.log⟩, rfl, rfl⟩
  | cons se subevents ih =>
    unfold loadSubevents
    split
    · exact ih h
    refine ends_bind (readWr_kept h se) fun x hx => ?_
    obtain ⟨mbsWr, s1⟩ := x
    have htrans : ∀ s', Kept s1 s' → Kept s s' := fun s' hs' =>
      ⟨hs'.inv, hs'.input.trans hx.input, hs'.lastFile.trans hx.lastFile⟩
    dsimp only
    split
    · refine ends_bind (ends_mono (loadAida_kept hx.inv se) (fun _ => htrans _) htrans)
        fun s' hs' => ?_
      exact ⟨by rintro ⟨⟩, hs'⟩
    split
    · refine ends_bind (ends_mono (loadDtas_kept hx.inv se) (fun _ => htrans _) htrans)
        fun s' hs' => ?_
      exact ⟨by rintro ⟨⟩, hs'⟩
    · exact ends_mono (ih hx.inv) (fun _ => htrans _) fun _ h => ⟨h.1, htrans _ h.2⟩

theorem loadEvents_spec (h : BuiltInv s) :
    Ends (fun st => BuiltInv st.source) (Loaded s) (loadEvents conf s) := by
  unfold loadEvents
  split
  next hinput => exact ⟨h, rfl, .inl ⟨rfl, rfl, hinput⟩⟩
  next message input hinput => exact ⟨h.aida, h.dtas, h.log⟩
  next e input hinput =>
    have hrest : BuiltInv { s with input := input } := ⟨h.aida, h.dtas, h.log⟩
    have hshort : input.length < s.input.length := by
      rw [hinput]
      exact Nat.lt_succ_self _
    split
    · exact ⟨hrest, rfl, .inr ⟨nofun, hshort⟩⟩
    · refine ends_mono (loadSubevents_kept hrest e e.subevents) (fun _ h => h.inv) fun x hx => ?_
      refine ⟨hx.2.inv, hx.2.lastFile, .inr ⟨hx.1, ?_⟩⟩
      rw [hx.2.input]
      exact hshort

theorem loadUntil_kept (h : BuiltInv s) (wanted : FileStatus) (start : WrTime) (turns : Nat) :
    Ends (fun st => BuiltInv st.source)
      (fun s' => BuiltInv s' ∧ s'.lastFile = s.lastFile ∧ s'.input.length ≤ s.input.length)
      (loadUntil conf wanted start turns s) := by
  induction turns generalizing s with
  | zero => exact ⟨h, rfl, Nat.le_refl _⟩
  | succ turns ih =>
    unfold loadUntil
    refine ends_bind (loadEvents_spec h) fun x hx => ?_
    have hle : x.2.input.length ≤ s.input.length := by
      rcases hx.step with ⟨-, heq, -⟩ | ⟨-, hlt⟩
      · exact Nat.le_of_eq (by rw [heq])
      · exact Nat.le_of_lt hlt
    obtain ⟨status, s1⟩ := x
    dsimp only
    split
    · exact ⟨hx.inv, hx.lastFile, hle⟩
    · exact ends_mono (ih hx.inv) (fun _ h => h) fun s' h' =>
        ⟨h'.1, h'.2.1.trans hx.lastFile, Nat.le_trans h'.2.2 hle⟩

theorem loadWindow_spec (h : BuiltInv s) (wanted : FileStatus) (start : WrTime) :
    Ends (fun st => BuiltInv st.source) (Windowed s) (loadWindow conf wanted start s) := by
  unfold loadWindow loadUntil
  refine ends_bind (loadEvents_spec h) fun x hx => ?_
  obtain ⟨status, s1⟩ := x
  dsimp only
  rcases hx.step with ⟨hstatus, heq, hinput⟩ | ⟨hstatus, hlt⟩
  · rw [if_pos (.inr (.inl hstatus))]
    exact ⟨hx.inv, hx.lastFile, .inl ⟨heq, hinput⟩⟩
  · split
    · exact ⟨hx.inv, hx.lastFile, .inr hlt⟩
    · exact ends_mono (loadUntil_kept hx.inv wanted start s.input.length) (fun _ h => h)
        fun s' h' => ⟨h'.1, h'.2.1.trans hx.lastFile, .inr (Nat.lt_of_le_of_lt h'.2.2 hlt)⟩

/-- One turn of the loop. -/
def loadTurn (conf : MultiConf) (wanted : FileStatus) (start : WrTime)
    (next : MultiEventSource → Except LoadStopped MultiEventSource) (s : MultiEventSource) :
    Except LoadStopped MultiEventSource := do
  let (status, s) ← loadEvents conf s
  if status = wanted ∨ status = .eof ∨
      (s.loadEventWr - start).slt conf.eventbuilderWindow = false then return s
  else next s

theorem loadTurn_congr {f g : MultiEventSource → Except LoadStopped MultiEventSource}
    (h : BuiltInv s) (wanted : FileStatus) (start : WrTime)
    (hnext : ∀ s', BuiltInv s' → s'.input.length < s.input.length → f s' = g s') :
    loadTurn conf wanted start f s = loadTurn conf wanted start g s := by
  have hload := @loadEvents_spec conf _ h
  unfold loadTurn
  cases hevents : loadEvents conf s with
  | error stopped => rfl
  | ok x =>
    rw [hevents] at hload
    obtain ⟨status, s1⟩ := x
    change (if _ then _ else _) = if _ then _ else _
    split
    · rfl
    next hcond =>
      rcases hload.step with ⟨hstatus, -⟩ | ⟨-, hlt⟩
      · exact (hcond (.inr (.inl hstatus))).elim
      · exact hnext _ hload.inv hlt

theorem loadUntil_eq_loadWindow (h : BuiltInv s) (wanted : FileStatus) (start : WrTime)
    {turns : Nat} (hturns : s.input.length < turns) :
    loadUntil conf wanted start turns s = loadWindow conf wanted start s := by
  induction turns using Nat.strong_induction_on generalizing s with
  | h turns ih =>
    obtain ⟨turns, rfl⟩ := Nat.exists_eq_add_one_of_ne_zero (Nat.ne_zero_of_lt hturns)
    exact loadTurn_congr h wanted start fun s' h' hlt =>
      (ih turns (Nat.lt_succ_self _) h' (by omega)).trans (ih _ hturns h' hlt).symm

theorem loadWindow_eq (h : BuiltInv s) (wanted : FileStatus) (start : WrTime) :
    loadWindow conf wanted start s =
      loadTurn conf wanted start (loadWindow conf wanted start) s :=
  loadTurn_congr h wanted start fun _ h' hlt => loadUntil_eq_loadWindow h' wanted start hlt

end Load

section Pass

variable {conf : MultiConf} {s : MultiEventSource} {first : EventEntry}

theorem pushAida_inv (h : BuiltInv s) : BuiltInv s.pushAida := by
  unfold MultiEventSource.pushAida
  split
  · split
    · exact ⟨fun e he => (by cases he), h.dtas, h.log⟩
    · exact h
  · exact h

theorem pushDtas_inv (h : BuiltInv s) : BuiltInv s.pushDtas := by
  unfold MultiEventSource.pushDtas
  split
  · split
    · exact ⟨h.aida, fun e he => (by cases he), h.log⟩
    · exact h
  · exact h

theorem pushAida_input : s.pushAida.input = s.input := by
  unfold MultiEventSource.pushAida
  split
  · split <;> rfl
  · rfl

theorem pushDtas_input : s.pushDtas.input = s.input := by
  unfold MultiEventSource.pushDtas
  split
  · split <;> rfl
  · rfl

theorem endPass_kept (h : BuiltInv s) : BuiltInv (endPass s).2 ∧ (endPass s).2.input = s.input := by
  have hpushed : s.pushAida.pushDtas.input = s.input := pushDtas_input.trans pushAida_input
  obtain ⟨haida, hdtas, hlog⟩ := pushDtas_inv (pushAida_inv h)
  unfold endPass
  split
  · exact ⟨h, rfl⟩
  split
  · exact ⟨⟨haida, hdtas, hlog⟩, hpushed⟩
  · exact ⟨⟨haida, hdtas, hlog⟩, hpushed⟩

theorem loadPass_kept (h : BuiltInv s) :
    Ends (fun st => BuiltInv st.source)
      (fun x => BuiltInv x.2 ∧ x.2.input.length ≤ s.input.length) (loadPass conf s) := by
  unfold loadPass
  split
  · exact ⟨h, Nat.le_refl _⟩
  refine ends_bind (loadEvents_spec h) fun x hx => ?_
  have hle : x.2.input.length ≤ s.input.length := by
    rcases hx.step with ⟨-, heq, -⟩ | ⟨-, hlt⟩
    · exact Nat.le_of_eq (by rw [heq])
    · exact Nat.le_of_lt hlt
  obtain ⟨status, s1⟩ := x
  have hend := endPass_kept hx.inv
  cases status with
  | eof => exact ⟨hend.1, by rw [hend.2]; exact hle⟩
  | unknownEvent => exact hx.inv
  | _ => exact ⟨hx.inv, hle⟩

theorem emitPass_kept (h : BuiltInv s) (first : EventEntry) :
    Ends (fun st => BuiltInv st.source)
      (fun x => BuiltInv x.2 ∧ x.2.input.length ≤ s.input.length) (emitPass conf first s) := by
  unfold emitPass emitFirst
  split
  · split
    · exact ⟨⟨h.aida, h.dtas, h.log⟩, Nat.le_refl _⟩
    · exact ⟨⟨h.aida, h.dtas, h.log⟩, Nat.le_refl _⟩
  · exact loadPass_kept h

theorem dtasPass_kept (h : BuiltInv s) (first : EventEntry) :
    Ends (fun st => BuiltInv st.source) (fun x => BuiltInv x.2) (dtasPass conf first s) := by
  have hemit : ∀ s', BuiltInv s' → Ends (fun st => BuiltInv st.source) (fun x => BuiltInv x.2)
      (emitPass conf first s') := fun s' hs' =>
    ends_mono (emitPass_kept hs' first) (fun _ h => h) fun _ h => h.1
  unfold dtasPass
  split
  · split
    · refine ends_bind (loadWindow_spec h _ _) fun s' hs' => ?_
      split
      · exact pushDtas_inv hs'.inv
      · exact hemit s' hs'.inv
    · exact hemit s h
  · exact hemit s h

theorem completeAida_kept (h : BuiltInv s) (first : EventEntry) (cur : AidaEntry) :
    Ends (fun st => BuiltInv st.source) BuiltInv (completeAida conf first cur s) := by
  unfold completeAida
  refine ends_bind (loadWindow_spec h _ _) fun s' hs' => ?_
  change BuiltInv (if _ then _ else _)
  split
  · exact pushAida_inv hs'.inv
  · exact hs'.inv

theorem getEventPass_kept (h : BuiltInv s) :
    Ends (fun st => BuiltInv st.source) (fun x => BuiltInv x.2) (getEventPass conf s) := by
  unfold getEventPass
  split
  · unfold plainPass
    split
    · exact h
    · exact ⟨h.aida, h.dtas, h.log⟩
    · exact ⟨h.aida, h.dtas, h.log⟩
  split
  · exact h
  split
  · unfold queuePass
    split
    · split
      · exact ends_bind (completeAida_kept h _ _) fun s' hs' => hs'
      · exact dtasPass_kept h _
    · exact dtasPass_kept h _
  · exact ends_mono (loadPass_kept h) (fun _ h => h) fun _ h => h.1

theorem reached_inv (h : MultiReached conf s) : BuiltInv s := by
  induction h with
  | start input lastFile =>
    exact ⟨fun e he => (by cases he), fun e he => (by cases he), fun x hx => (by cases hx)⟩
  | passed _ hpass ih | stopped _ hpass ih =>
    have hkept := @getEventPass_kept conf _ ih
    rw [hpass] at hkept
    exact hkept
  | next_file input lastFile _ ih => exact ⟨ih.aida, ih.dtas, ih.log⟩

/-- Whenever the stored words of an event are gone through again, the timestamps that come out are
those that they were stored with exactly when the upper bits are kept. -/
theorem retrack_times_iff (h : MultiReached conf s) {e : AidaEntry} {word1 : WrWord}
    (hlog : (e, word1) ∈ s.retracks) :
    (retrack e word1).times = e.stamps ↔ UpperKept word1 e.timestamp e.data e.stamps :=
  retrack_times e word1 ((reached_inv h).log _ hlog)

end Pass

def syncImplant (word1 : WrWord) : MultiFileEvent :=
  ⟨10, 1, 0, [⟨90, [0x200, 0x03e10000, 0x04e10001, 0x05e10000, 0x06e10000,
    0x80500001, 0x00010000, 0x80400000, 0x00010000, word1, 0x00010010], false⟩]⟩

def syncEntry : AidaEntry :=
  { newAida 90 0xc950 0x10000 with
    data := [0x80500001, 0x00010000, 0x80400000, 0x00010000]
    stamps := [0x10000, 0x1000000010000] }

theorem reached_implant (word1 : WrWord) (h : word1 = 0xd0000001 ∨ word1 = 0xd0000000) :
    ∃ s, MultiReached plainConf s ∧ (syncEntry, word1) ∈ s.retracks := by
  rcases h with rfl | rfl
  · refine ⟨_, .passed (.start [.event (syncImplant 0xd0000001)] true) rfl, ?_⟩
    decide
  · refine ⟨_, .passed (.start [.event (syncImplant 0xd0000000)] true) rfl, ?_⟩
    decide

theorem retrack_sync_kept :
    ∃ s, MultiReached plainConf s ∧ (syncEntry, 0xd0000001) ∈ s.retracks ∧
      (retrack syncEntry 0xd0000001).times = syncEntry.stamps := by
  obtain ⟨s, hs, hlog⟩ := reached_implant 0xd0000001 (.inl rfl)
  refine ⟨s, hs, hlog, (retrack_times_iff hs hlog).mpr ?_⟩
  exact .sync (by decide) (by decide) (by decide) .nil

theorem retrack_sync_lost :
    ¬∀ conf s, MultiReached conf s → ∀ x ∈ s.retracks, (retrack x.1 x.2).times = x.1.stamps := by
  intro h
  obtain ⟨s, hs, hlog⟩ := reached_implant 0xd0000000 (.inr rfl)
  exact absurd (h _ _ hs _ hlog) (by decide)

end Ucesb
