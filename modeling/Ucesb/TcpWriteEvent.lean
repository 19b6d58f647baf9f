import Ucesb.TcpWriteSpace

namespace Ucesb

def Seen (s : TcpWriter) (n : Nat) : Prop := ∃ stream ∈ s.streams, n ∈ streamEvents stream

/-- What has been written since: all of the new events, and nothing of the old ones. -/
structure Later (s s' : TcpWriter) : Prop where
  calls : s.calls ≤ s'.calls
  old : ∀ n < s.calls, Seen s' n ↔ Seen s n
  new : ∀ n, s.calls ≤ n → n < s'.calls → Seen s' n

structure WriterInv (conf : StreamConf) (s : TcpWriter) : Prop where
  place : AtStart s ∨ ∃ bufs b, InStream conf s bufs b
  marks : Marks s.streams s.calls

structure AtBuffer (conf : StreamConf) (s : TcpWriter) : Prop where
  place : ∃ bufs b, InStream conf s bufs b
  marks : Marks s.streams s.calls

structure AtNewStream (conf : StreamConf) (s : TcpWriter) : Prop extends AtBuffer conf s where
  fresh : s.streamLeft = s.streamLeftMax

section Later

variable {s s' s'' : TcpWriter}

theorem later_of_streams (hcalls : s'.calls = s.calls) (h : ∀ n, Seen s' n ↔ Seen s n) :
    Later s s' where
  calls := Nat.le_of_eq hcalls.symm
  old n _ := h n
  new n hlo hhi := absurd hhi (by omega)

theorem Later.refl (s : TcpWriter) : Later s s := later_of_streams rfl fun _ => Iff.rfl

theorem Later.trans (h : Later s s') (h' : Later s' s'') : Later s s'' where
  calls := Nat.le_trans h.calls h'.calls
  old n hn := (h'.old n (Nat.lt_of_lt_of_le hn h.calls)).trans (h.old n hn)
  new n hlo hhi := by
    by_cases hn : n < s'.calls
    · exact (h'.old n hn).mpr (h.new n hlo hn)
    · exact h'.new n (Nat.not_lt.mp hn) hhi

theorem seen_snoc {sent : List (List OutBuffer)} {bufs : List OutBuffer} {b : OutBuffer} {n : Nat}
    (h : s.streams = sent ++ [bufs ++ [b]]) : Seen s n ↔
      (∃ stream ∈ sent, n ∈ streamEvents stream) ∨ n ∈ streamEvents bufs ∨ n ∈ b.events := by
  unfold Seen
  rw [h]
  simp only [List.mem_append, List.mem_singleton, or_and_right, exists_or, exists_eq_left,
    streamEvents_append, streamEvents_singleton]

end Later

/-- What the loops of `write_event` need of `new_buffer`, with replays and without. -/
structure GivesBuffers (conf : StreamConf) (newBuffer : TcpWriter → Except WriteStop TcpWriter) :
    Prop where
  within : ∀ {s bufs b}, InStream conf s bufs b → bufs.length + 1 < conf.streamBufs →
    ∃ s', newBuffer s = .ok s' ∧ NextIn conf s s' (bufs ++ [b]) ∧ s'.sent = s.sent
  turn : ∀ {s}, WriterInv conf s →
    (AtStart s ∨ ∃ bufs b, InStream conf s bufs b ∧ bufs.length + 1 = conf.streamBufs) →
    Ends WriteStop.Tolerated (fun s' => AtNewStream conf s' ∧ Later s s') (newBuffer s)

section Steps

variable {conf : StreamConf} {newBuffer : TcpWriter → Except WriteStop TcpWriter}
  {s s' : TcpWriter} {bufs : List OutBuffer} {b : OutBuffer}

theorem AtBuffer.inv (h : AtBuffer conf s) : WriterInv conf s := ⟨.inr h.place, h.marks⟩

theorem nextIn_streams (h : NextIn conf s s' bufs) :
    s'.streams = s'.sent ++ [bufs ++ [OutBuffer.empty]] := h.place.streams

theorem within_atBuffer (h : InStream conf s bufs b) (hm : Marks s.streams s.calls)
    (hn : NextIn conf s s' (bufs ++ [b])) (hsent : s'.sent = s.sent) :
    AtBuffer conf s' ∧ Later s s' := by
  have hs := h.streams
  have hs' := nextIn_streams hn
  rw [hsent] at hs'
  refine ⟨⟨⟨_, _, hn.place⟩, ?_⟩, later_of_streams hn.calls fun n => ?_⟩
  · rw [hs', hn.calls]
    rw [hs] at hm
    exact hm.nextBuffer (by simp) rfl
  · rw [seen_snoc hs, seen_snoc hs', streamEvents_append, streamEvents_singleton]
    simp [OutBuffer.empty]

theorem turned_atBuffer (hm : Marks s.streams s.calls) (hn : NextIn conf s s' [])
    (hsent : s'.sent = s.streams) : AtNewStream conf s' ∧ Later s s' := by
  have hs' := nextIn_streams hn
  rw [hsent] at hs'
  refine ⟨⟨⟨⟨_, _, hn.place⟩, ?_⟩, ?_⟩, later_of_streams hn.calls fun n => ?_⟩
  · rw [hs', hn.calls]
    exact hm.newStream
  · rw [hn.place.stream, hn.place.max, hn.left]
    rfl
  · rw [seen_snoc hs']
    simp [OutBuffer.empty, streamEvents, Seen]

theorem GivesBuffers.ends (hg : GivesBuffers conf newBuffer) (h : WriterInv conf s) :
    Ends WriteStop.Tolerated
      (fun s' => AtBuffer conf s' ∧ Later s s' ∧ s'.curBufLeft = conf.payload) (newBuffer s) := by
  have hturn : (AtStart s ∨ ∃ bufs b, InStream conf s bufs b ∧
      bufs.length + 1 = conf.streamBufs) → Ends WriteStop.Tolerated
      (fun s' => AtBuffer conf s' ∧ Later s s' ∧ s'.curBufLeft = conf.payload) (newBuffer s) := by
    intro hend
    refine ends_mono (hg.turn h hend) (fun _ he => he) ?_
    rintro s' ⟨hnew, hlater⟩
    obtain ⟨bufs', b', hin⟩ := hnew.place
    exact ⟨hnew.toAtBuffer, hlater, hin.fresh hnew.fresh⟩
  rcases h.place with hstart | ⟨bufs, b, hin⟩
  · exact hturn (.inl hstart)
  · have hroom := hin.room
    by_cases hlast : bufs.length + 1 = conf.streamBufs
    · exact hturn (.inr ⟨bufs, b, hin, hlast⟩)
    · obtain ⟨s', hs', hnext, hsent⟩ := hg.within hin (by omega)
      rw [hs']
      obtain ⟨hplaced, hlater⟩ := within_atBuffer hin h.marks hnext hsent
      exact ⟨hplaced, hlater, hnext.left⟩

theorem flushStream_done (h : s.streamLeft = s.streamLeftMax) (fuel : Nat) :
    TcpWriter.flushStream newBuffer fuel s = .ok s := by
  cases fuel <;> rw [TcpWriter.flushStream, if_pos h]

theorem flushStream_ends (hg : GivesBuffers conf newBuffer) {fuel : Nat}
    (h : InStream conf s bufs b) (hm : Marks s.streams s.calls)
    (hfuel : conf.streamBufs ≤ fuel + bufs.length) :
    Ends WriteStop.Tolerated (fun s' => AtNewStream conf s' ∧ Later s s')
      (TcpWriter.flushStream newBuffer fuel s) := by
  have hroom := h.room
  induction fuel generalizing s bufs b with
  | zero => omega
  | succ fuel ih =>
    rw [TcpWriter.flushStream]
    split
    next hfresh => exact ⟨⟨⟨⟨bufs, b, h⟩, hm⟩, hfresh⟩, Later.refl s⟩
    next =>
      by_cases hlast : bufs.length + 1 = conf.streamBufs
      · refine ends_bind (hg.turn ⟨.inr ⟨bufs, b, h⟩, hm⟩ (.inr ⟨bufs, b, h, hlast⟩)) ?_
        rintro s' ⟨hnew, hlater⟩
        rw [flushStream_done hnew.fresh]
        exact ⟨hnew, hlater⟩
      · obtain ⟨s', hs', hnext, hsent⟩ := hg.within h (by omega)
        obtain ⟨hplaced, hlater⟩ := within_atBuffer h hm hnext hsent
        rw [hs']
        refine ends_mono (ih hnext.place hplaced.marks ?_ hnext.place.room) (fun _ he => he) ?_
        · rw [List.length_append, List.length_singleton]
          omega
        · rintro s'' ⟨hnew, hlater'⟩
          exact ⟨hnew, hlater.trans hlater'⟩

theorem makeRoom_ends (hg : GivesBuffers conf newBuffer) (h : WriterInv conf s) (length : Nat) :
    Ends WriteStop.Tolerated (fun s' => AtBuffer conf s' ∧ Later s s' ∧
        sizeofEventHeader + length ≤ s'.streamLeft ∧ sizeofEventHeader < s'.curBufLeft)
      (TcpWriter.makeRoom conf newBuffer s length) := by
  have hpay : 976 ≤ conf.payload := by
    have hge := conf.bufSize_ge
    rw [StreamConf.payload, sizeofBufhe]
    omega
  unfold TcpWriter.makeRoom
  have hfirst : Ends WriteStop.Tolerated (fun s' => AtBuffer conf s' ∧ Later s s' ∧
      sizeofEventHeader < s'.curBufLeft)
      (TcpWriter.ensureBuffer newBuffer s) := by
    unfold TcpWriter.ensureBuffer
    split
    next =>
      refine ends_mono (hg.ends h) (fun _ he => he) ?_
      rintro s' ⟨hplaced, hlater, hleft⟩
      exact ⟨hplaced, hlater, by rw [sizeofEventHeader]; omega⟩
    next hmore =>
      rw [sizeofEvent101] at hmore
      rcases h.place with hstart | hplace
      · exact absurd hstart.2.2 (by omega)
      · exact ⟨⟨hplace, h.marks⟩, Later.refl s, by rw [sizeofEventHeader]; omega⟩
  refine ends_bind hfirst ?_
  rintro s₁ ⟨hplaced, hlater, hroom⟩
  split
  next =>
    refine ends_bind (ends_errorIf fun _ => trivial) ?_
    intro u hmax
    obtain ⟨bufs, b, hin⟩ := hplaced.place
    refine ends_mono (flushStream_ends hg hin hplaced.marks (Nat.le_add_right _ _))
      (fun _ he => he) ?_
    rintro s₂ ⟨hnew, hlater'⟩
    obtain ⟨bufs', b', hin'⟩ := hnew.place
    have hleft := hin'.fresh hnew.fresh
    have hfresh := hnew.fresh
    rw [hin'.max, ← hin.max] at hfresh
    exact ⟨hnew.toAtBuffer, hlater.trans hlater', by omega, by rw [sizeofEventHeader]; omega⟩
  next hfit => exact ⟨hplaced, hlater, Nat.not_lt.mp hfit, hroom⟩

end Steps

/-- The event `n` is being written; it had no fragment in `s₀`. -/
structure Writing (conf : StreamConf) (s₀ : TcpWriter) (n : Nat) (w : TcpWriter.Cutting) : Prop where
  place : ∃ bufs b, InStream conf w.writer bufs b
  marks : Marks w.writer.streams w.writer.calls
  sent : w.writer.sent = s₀.sent
  calls : w.writer.calls = s₀.calls
  others : ∀ m, m ≠ n → (Seen w.writer m ↔ Seen s₀ m)
  fits : sizeofEventHeader + w.left ≤ w.writer.streamLeft
  room : sizeofEventHeader < w.writer.curBufLeft
  rest : chunksLength w.rest = w.left

section Event

variable {conf : StreamConf} {newBuffer : TcpWriter → Except WriteStop TcpWriter}
  {s s' s₀ : TcpWriter} {bufs : List OutBuffer} {b b' : OutBuffer} {event : LmdEventOut} {n : Nat}
  {w w' : TcpWriter.Cutting}

structure FragmentWritten (conf : StreamConf) (n : Nat) (bufs : List OutBuffer) (b : OutBuffer)
    (w : TcpWriter.Cutting) (b' : OutBuffer) (w' : TcpWriter.Cutting) : Prop where
  place : InStream conf w'.writer bufs b'
  hEnd : b'.hEnd = b.hEnd
  events : b'.events = b.events ++ [n]
  full : w'.writer.curBufLeft = 0
  sent : w'.writer.sent = w.writer.sent
  calls : w'.writer.calls = w.writer.calls
  left : w'.left + (w.writer.curBufLeft - sizeofEventHeader) = w.left
  rest : chunksLength w'.rest = w'.left

theorem writeFragment_ends (h : InStream conf w.writer bufs b)
    (hlong : w.writer.curBufLeft < sizeofEventHeader + w.left)
    (hroom : sizeofEventHeader < w.writer.curBufLeft) (hrest : chunksLength w.rest = w.left) :
    Ends WriteStop.Tolerated (fun w' => ∃ b', FragmentWritten conf n bufs b w b' w')
      (TcpWriter.writeFragment conf event n w) := by
  unfold TcpWriter.writeFragment
  refine ends_bind (ends_errorIf fun hle => absurd hle (by omega)) ?_
  intro u _
  refine ends_bind (ends_errorIf fun hle => absurd hle (by omega)) ?_
  intro u _
  refine ends_bind (ends_errorIf fun _ => trivial) ?_
  intro u _
  have hin := h.modifyCur fun b => { b with lFree1 := UInt32.ofNat (event.getLength / 2) }
  refine ends_bind (copyHeader_ends hin (Nat.le_of_lt hroom)) ?_
  rintro s₁ ⟨b₁, h₁⟩
  have hleft : s₁.curBufLeft + sizeofEventHeader = w.writer.curBufLeft := h₁.left
  refine ends_bind (fillBuffer_ends h₁.place (by omega)) ?_
  rintro ⟨s₂, rest⟩ ⟨b₂, h₂, hlen⟩
  have hfull := h₂.left
  dsimp only at h₂ hlen hfull
  refine ends_bind (ends_errorIf fun hne => absurd (show s₂.curBufLeft = 0 by omega) hne) ?_
  intro u hz
  have hnote := (h₂.place.modifyCur fun b => b.note event n).modifyCur
    fun b => { b with hBegin := true }
  refine ⟨_, ⟨hnote, ?_, ?_, ?_, ?_, ?_, ?_, ?_⟩⟩
  · exact h₂.hEnd.trans h₁.hEnd
  · show b₂.events ++ [n] = b.events ++ [n]
    rw [h₂.events, h₁.events]
  · show s₂.curBufLeft = 0
    omega
  · exact h₂.sent.trans h₁.sent
  · exact h₂.calls.trans h₁.calls
  · dsimp only
    omega
  · dsimp only
    omega

theorem nextFragment (hg : GivesBuffers conf newBuffer) (h : Writing conf s₀ n w)
    (hn : n < s₀.calls) (hunseen : ∀ stream ∈ s₀.sent, n ∉ streamEvents stream)
    (hin : InStream conf w.writer bufs b)
    (hlong : w.writer.curBufLeft < sizeofEventHeader + w.left)
    (hw : FragmentWritten conf n bufs b w b' w') :
    ∃ s', newBuffer w'.writer = .ok s' ∧
      Writing conf s₀ n { w' with writer := s'.modifyCur fun b => { b with hEnd := true } } := by
  have hroom := h.room
  have hfits := h.fits
  have hspace := hin.stream
  have hk : conf.streamBufs - 1 - bufs.length ≠ 0 := by
    intro hz
    rw [hz, Nat.zero_mul] at hspace
    omega
  obtain ⟨j, hj⟩ := Nat.exists_eq_add_one_of_ne_zero hk
  have hmul : (j + 1) * conf.extra = j * conf.extra + conf.extra := Nat.succ_mul _ _
  obtain ⟨s', hs', hnext, hsent⟩ := hg.within hw.place (by omega)
  have hplace := hnext.place.modifyCur fun b => { b with hEnd := true }
  have hold := hin.streams
  have hnew := hplace.streams
  have hsent' : (s'.modifyCur fun b => { b with hEnd := true }).sent = s₀.sent :=
    hsent.trans (hw.sent.trans h.sent)
  have hcalls' : (s'.modifyCur fun b => { b with hEnd := true }).calls = s₀.calls :=
    hnext.calls.trans (hw.calls.trans h.calls)
  rw [hsent'] at hnew
  rw [h.sent] at hold
  refine ⟨s', hs', ⟨_, _, hplace⟩, ?_, hsent', hcalls', ?_, ?_, ?_, hw.rest⟩
  · have hm := h.marks
    rw [hold, h.calls] at hm
    show Marks (s'.modifyCur _).streams (s'.modifyCur _).calls
    rw [hnew, hcalls']
    exact (hm.note hw.hEnd hw.events hn hunseen).nextBuffer (by simp) rfl
  · intro m hm
    rw [← h.others m hm, seen_snoc hold]
    show Seen (s'.modifyCur _) m ↔ _
    rw [seen_snoc hnew, streamEvents_append, streamEvents_singleton, hw.events]
    simp [OutBuffer.empty, hm]
  · show sizeofEventHeader + w'.left ≤ s'.streamLeft
    have hs := hnext.place.stream
    have hleft := hw.left
    have hpay := conf.payload_eq
    have hl : conf.streamBufs - 1 - (bufs ++ [b']).length = j := by
      rw [List.length_append, List.length_singleton]
      omega
    rw [hl, hnext.left] at hs
    rw [hj] at hspace
    omega
  · show sizeofEventHeader < s'.curBufLeft
    have hge := conf.bufSize_ge
    rw [hnext.left, StreamConf.payload, sizeofEventHeader, sizeofBufhe]
    omega

theorem writeFragments_ends (hg : GivesBuffers conf newBuffer) {fuel : Nat}
    (h : Writing conf s₀ n w) (hn : n < s₀.calls)
    (hunseen : ∀ stream ∈ s₀.sent, n ∉ streamEvents stream) (hfuel : w.left < fuel) :
    Ends WriteStop.Tolerated (fun w' => Writing conf s₀ n w' ∧
        sizeofEventHeader + w'.left ≤ w'.writer.curBufLeft)
      (TcpWriter.writeFragments conf newBuffer event n fuel w) := by
  induction fuel generalizing w with
  | zero => omega
  | succ fuel ih =>
    rw [TcpWriter.writeFragments]
    split
    next hfit => exact ⟨h, hfit⟩
    next hlong =>
      obtain ⟨bufs, b, hin⟩ := h.place
      have hroom := h.room
      refine ends_bind (writeFragment_ends hin (Nat.not_le.mp hlong) h.room h.rest) ?_
      rintro w' ⟨b', hw⟩
      obtain ⟨s', hs', hnext⟩ := nextFragment hg h hn hunseen hin (Nat.not_le.mp hlong) hw
      have hleft := hw.left
      rw [hs']
      exact ih hnext (by dsimp only; omega)

theorem finishEvent_ends (h : Writing conf s₀ n w)
    (hfit : sizeofEventHeader + w.left ≤ w.writer.curBufLeft) (hn : n < s₀.calls)
    (hunseen : ∀ stream ∈ s₀.sent, n ∉ streamEvents stream) :
    Ends WriteStop.Tolerated (fun s' => AtBuffer conf s' ∧ s'.calls = s₀.calls ∧ Seen s' n ∧
        ∀ m, m ≠ n → (Seen s' m ↔ Seen s₀ m))
      (TcpWriter.finishEvent conf event n w) := by
  obtain ⟨bufs, b, hin⟩ := h.place
  have hrest := h.rest
  unfold TcpWriter.finishEvent
  refine ends_bind (ends_errorIf fun _ => trivial) ?_
  intro u _
  refine ends_bind (copyHeader_ends hin (by omega)) ?_
  rintro s₁ ⟨b₁, h₁⟩
  have hleft := h₁.left
  refine ends_bind (copyChunks_ends h₁.place (by omega)) ?_
  rintro s₂ ⟨b₂, h₂⟩
  have hcopied := h₁.trans h₂
  have hplace := hcopied.place.modifyCur fun b => b.note event n
  have hold := hin.streams
  rw [h.sent] at hold
  have hsent : (s₂.noteFragment event n).sent = s₀.sent := hcopied.sent.trans h.sent
  have hcalls : (s₂.noteFragment event n).calls = s₀.calls := hcopied.calls.trans h.calls
  have hnew : (s₂.noteFragment event n).streams = s₀.sent ++ [bufs ++ [b₂.note event n]] := by
    rw [← hsent]
    exact hplace.streams
  refine ⟨⟨⟨bufs, _, hplace⟩, ?_⟩, hcalls, ?_, ?_⟩
  · have hm := h.marks
    rw [hold, h.calls] at hm
    rw [hnew, hcalls]
    refine hm.note hcopied.hEnd ?_ hn hunseen
    rw [OutBuffer.note, hcopied.events]
  · rw [seen_snoc hnew]
    exact .inr (.inr (List.mem_append_right _ (List.mem_singleton.mpr rfl)))
  · intro m hm
    rw [← h.others m hm, seen_snoc hold, seen_snoc hnew, OutBuffer.note, hcopied.events]
    simp [hm]

theorem WriterInv.of_place {answers : List Bool} {store : StickyStore} {calls : Nat}
    (h : WriterInv conf s) (hle : s.calls ≤ calls) : WriterInv conf { s with
      answers := answers
      stickyStore := store
      calls := calls } where
  place := by
    rcases h.place with hstart | ⟨bufs, b, hin⟩
    · exact .inl hstart
    · exact .inr ⟨bufs, b, hin.fill, hin.cur, hin.room, hin.left_le, hin.stream, hin.max⟩
  marks := h.marks.mono hle

theorem AtBuffer.of_answers (h : AtBuffer conf s) (answers : List Bool) :
    AtBuffer conf { s with answers := answers } ∧ Later s { s with answers := answers } := by
  obtain ⟨bufs, b, hin⟩ := h.place
  exact ⟨⟨⟨bufs, b, hin.fill, hin.cur, hin.room, hin.left_le, hin.stream, hin.max⟩, h.marks⟩,
    later_of_streams rfl fun _ => Iff.rfl⟩

theorem flushBuffers_ends (hg : GivesBuffers conf newBuffer) {fuel : Nat} (h : AtBuffer conf s) :
    Ends WriteStop.Tolerated (fun s' => AtBuffer conf s' ∧ Later s s')
      (TcpWriter.flushBuffers newBuffer fuel s) := by
  induction fuel generalizing s with
  | zero => exact ⟨h, Later.refl s⟩
  | succ fuel ih =>
    rw [TcpWriter.flushBuffers]
    split
    next answers _ =>
      obtain ⟨h₁, hl₁⟩ := h.of_answers answers
      refine ends_bind (hg.ends h₁.inv) ?_
      rintro s₂ ⟨h₂, hl₂, -⟩
      refine ends_mono (ih h₂) (fun _ he => he) ?_
      rintro s₃ ⟨h₃, hl₃⟩
      exact ⟨h₃, hl₁.trans (hl₂.trans hl₃)⟩
    next answers _ => exact h.of_answers answers
    next => exact ⟨h, Later.refl s⟩

theorem placeEvent_ends (hg : GivesBuffers conf newBuffer) (h : WriterInv conf s) :
    Ends WriteStop.Tolerated (fun s' => AtBuffer conf s' ∧ Later s s')
      (TcpWriter.placeEvent conf newBuffer s event) := by
  unfold TcpWriter.placeEvent
  have hstart : WriterInv conf { s with calls := s.calls + 1 } := h.of_place (Nat.le_succ _)
  have hnew : ¬Seen { s with calls := s.calls + 1 } s.calls := by
    rintro ⟨stream, hs, hn⟩
    exact absurd (h.marks.known stream hs _ hn) (by omega)
  refine ends_bind (makeRoom_ends hg hstart event.getLength) ?_
  rintro s₁ ⟨h₁, hl₁, hfits, hroom⟩
  have hcalls : s.calls < s₁.calls := hl₁.calls
  obtain ⟨bufs, b, hin⟩ := h₁.place
  have hunseen : ∀ stream ∈ s₁.sent, s.calls ∉ streamEvents stream := by
    intro stream hs hn
    refine hnew ((hl₁.old s.calls (Nat.lt_succ_self _)).mp ⟨stream, ?_, hn⟩)
    rw [hin.streams]
    exact List.mem_append_left _ hs
  have hwriting : Writing conf s₁ s.calls ⟨s₁, event.getLength, event.chunks⟩ :=
    ⟨h₁.place, h₁.marks, rfl, rfl, fun _ _ => Iff.rfl, hfits, hroom, rfl⟩
  refine ends_bind (writeFragments_ends hg hwriting hcalls hunseen (Nat.lt_succ_self _)) ?_
  rintro w ⟨hw, hfit⟩
  refine ends_bind (finishEvent_ends hw hfit hcalls hunseen) ?_
  rintro s₂ ⟨h₂, hcalls₂, hseen, hothers⟩
  refine ends_mono (flushBuffers_ends hg h₂) (fun _ he => he) ?_
  rintro s₃ ⟨h₃, hl₃⟩
  refine ⟨h₃, Later.trans ⟨?_, ?_, ?_⟩ hl₃⟩
  · omega
  · intro n hn
    rw [hothers n (by omega), hl₁.old n (Nat.lt_succ_of_lt hn)]
    exact Iff.rfl
  · intro n hlo hhi
    by_cases heq : n = s.calls
    · rw [heq]
      exact hseen
    · rw [hothers n heq]
      exact hl₁.new n (Nat.lt_of_le_of_ne hlo (Ne.symm heq)) (by omega)

theorem nextBuffer_turned (hend : AtStart s ∨ ∃ bufs b,
    InStream conf s bufs b ∧ bufs.length + 1 = conf.streamBufs) :
    ∃ s', s.nextBuffer conf = .ok s' ∧ NextIn conf s s' [] ∧ s'.sent = s.streams := by
  rcases hend with hstart | ⟨bufs, b, hin, hlast⟩
  · obtain ⟨s', hs', hnext, hsent⟩ := @nextBuffer_start conf s hstart
    exact ⟨s', hs', hnext, by rw [hsent, hstart.streams]⟩
  · obtain ⟨s', hs', hnext, hsent⟩ := nextBuffer_turn hin hlast
    exact ⟨s', hs', hnext, by rw [hsent, hin.streams]⟩

theorem nextBuffer_gives (conf : StreamConf) : GivesBuffers conf (TcpWriter.nextBuffer conf) where
  within h hroom := nextBuffer_within h hroom
  turn h hend := by
    obtain ⟨s', hs', hnext, hsent⟩ := nextBuffer_turned hend
    rw [hs']
    exact turned_atBuffer h.marks hnext hsent

theorem placeEvents_ends (hg : GivesBuffers conf newBuffer) {events : List LmdEventOut}
    (h : AtBuffer conf s) : Ends WriteStop.Tolerated (fun s' => AtBuffer conf s' ∧ Later s s')
      (events.foldlM (TcpWriter.placeEvent conf newBuffer) s) := by
  induction events generalizing s with
  | nil => exact ⟨h, Later.refl s⟩
  | cons e events ih =>
    rw [List.foldlM_cons]
    refine ends_bind (placeEvent_ends hg h.inv) ?_
    rintro s₁ ⟨h₁, hl₁⟩
    refine ends_mono (ih h₁) (fun _ he => he) ?_
    rintro s₂ ⟨h₂, hl₂⟩
    exact ⟨h₂, hl₁.trans hl₂⟩

theorem newBuffer_gives (conf : StreamConf) : GivesBuffers conf (TcpWriter.newBuffer conf) where
  within {s bufs b} h hroom := by
    obtain ⟨s', hs', hnext, hsent⟩ := nextBuffer_within h hroom
    refine ⟨s', ?_, hnext, hsent⟩
    unfold TcpWriter.newBuffer
    rw [hs']
    have hfill := hnext.place.fill
    have hpos : (bufs ++ [b]).length * conf.bufSize ≠ 0 := by
      have hge := conf.bufSize_ge
      rw [List.length_append, List.length_singleton, Nat.succ_mul]
      omega
    have hno : s'.wantsReplay = (false, s') := by
      unfold TcpWriter.wantsReplay
      split
      next hz _ =>
        rw [hfill] at hz
        exact absurd (congrArg Prod.fst (Option.some.inj hz)) hpos
      next => rfl
    show (if s'.wantsReplay.1 = true then _ else _) = _
    rw [hno]
    rfl
  turn {s} h hend := by
    obtain ⟨s', hs', hnext, hsent⟩ := nextBuffer_turned hend
    obtain ⟨hnew, hlater⟩ := turned_atBuffer h.marks hnext hsent
    unfold TcpWriter.newBuffer
    rw [hs']
    show Ends _ _ (if s'.wantsReplay.1 = true then _ else _)
    have hreplay : AtNewStream conf s'.wantsReplay.2 ∧ Later s' s'.wantsReplay.2 := by
      unfold TcpWriter.wantsReplay
      split
      next answer answers _ _ =>
        obtain ⟨hat, hl⟩ := hnew.toAtBuffer.of_answers answers
        exact ⟨⟨hat, hnew.fresh⟩, hl⟩
      next => exact ⟨hnew, Later.refl s'⟩
    split
    next =>
      refine ends_bind (placeEvents_ends (nextBuffer_gives conf) hreplay.1.toAtBuffer) ?_
      rintro s₁ ⟨h₁, hl₁⟩
      obtain ⟨bufs, b, hin⟩ := h₁.place
      refine ends_mono (flushStream_ends (nextBuffer_gives conf) hin h₁.marks
        (Nat.le_add_right _ _)) (fun _ he => he) ?_
      rintro s₂ ⟨h₂, hl₂⟩
      exact ⟨h₂, hlater.trans (hreplay.2.trans (hl₁.trans hl₂))⟩
    next => exact ⟨hreplay.1, hlater.trans hreplay.2⟩

theorem writeEvent_ends (h : WriterInv conf s) :
    Ends WriteStop.Tolerated (fun s' => WriterInv conf s' ∧ Later s s')
      (s.writeEvent conf event) := by
  unfold TcpWriter.writeEvent
  have hinsert : Ends WriteStop.Tolerated (fun s' => WriterInv conf s' ∧ Later s s')
      (s.insertSticky event) := by
    unfold TcpWriter.insertSticky
    split
    next =>
      split
      next => trivial
      next store _ => exact ⟨h.of_place (Nat.le_refl _), later_of_streams rfl fun _ => Iff.rfl⟩
    next => exact ⟨h, Later.refl s⟩
  refine ends_bind hinsert ?_
  rintro s₁ ⟨h₁, hl₁⟩
  refine ends_mono (placeEvent_ends (newBuffer_gives conf) h₁) (fun _ he => he) ?_
  rintro s₂ ⟨h₂, hl₂⟩
  exact ⟨h₂.inv, hl₁.trans hl₂⟩

theorem writeEvents_ends {events : List LmdEventOut} (h : WriterInv conf s) :
    Ends WriteStop.Tolerated (fun s' => WriterInv conf s' ∧ Later s s')
      (TcpWriter.writeEvents conf events s) := by
  unfold TcpWriter.writeEvents
  induction events generalizing s with
  | nil => exact ⟨h, Later.refl s⟩
  | cons e events ih =>
    rw [List.foldlM_cons]
    refine ends_bind (writeEvent_ends h) ?_
    rintro s₁ ⟨h₁, hl₁⟩
    refine ends_mono (ih h₁) (fun _ he => he) ?_
    rintro s₂ ⟨h₂, hl₂⟩
    exact ⟨h₂, hl₁.trans hl₂⟩

end Event

/-- Every event is written to exactly one stream, no stream starts with a continuation, and no
assertion on the space fails. -/
theorem events_within_streams (conf : StreamConf) (answers : List Bool)
    (events : List LmdEventOut) :
    Ends WriteStop.Tolerated (fun s => (∀ n < s.calls, Seen s n) ∧ NoneSpans s.streams ∧
        ∀ stream ∈ s.streams, StartsWhole stream)
      (TcpWriter.writeEvents conf events (TcpWriter.init answers)) := by
  have hinit : WriterInv conf (TcpWriter.init answers) := ⟨.inl ⟨rfl, rfl, rfl⟩, marks_nil 0⟩
  refine ends_mono (writeEvents_ends hinit) (fun _ he => he) ?_
  rintro s ⟨h, hl⟩
  exact ⟨fun n hn => hl.new n (Nat.zero_le n) hn, h.marks.spans, h.marks.starts⟩

/-- Of an event of 32 bytes in a buffer with room for 24, the rest goes to the next buffer. -/
example : (TcpWriter.writeFragments StreamConf.default (TcpWriter.nextBuffer StreamConf.default)
      ⟨⟨0, 10, 1⟩, ⟨0, 1, 7⟩, [⟨List.replicate 24 0, false⟩]⟩ 0 33
      ⟨{ TcpWriter.init [] with
          fill := some (0, []), cur := some .empty, curBufLeft := 32, streamLeft := 64 }, 32,
        [⟨List.replicate 32 0, false⟩]⟩).toOption.map
      (fun w => (w.left, w.writer.streams.map (·.map fun b => (b.hEnd, b.hBegin, b.lEvt)))) =
    some (8, [[(false, true, 1), (true, false, 0)]]) := by
  decide +kernel

end Ucesb
