import Ucesb.LmdOutputTcp
import Ucesb.StickyLog
import Ucesb.TcpWriteEvent

namespace Ucesb

structure FilledStream where
  bufs : List OutBuffer
  flags : LosFlags

/-- The writer with `_mark_replay_stream`, and the filled streams as they were queued. -/
structure MarkedWriter where
  writer : TcpWriter
  markReplayStream : ReplayMark
  queue : List FilledStream

def ReplayMark.next : ReplayMark → ReplayMark
  | .first => .more
  | mark => mark

def fillFlags (bufs : List OutBuffer) : LosFlags :=
  { LosFlags.zero with hasStickyEvent := bufs.any OutBuffer.hasSticky }

/-- The end of `write_buffer`, for each stream that has been filled. -/
def enqueueStreams : ReplayMark → List (List OutBuffer) → List FilledStream × ReplayMark
  | mark, [] => ([], mark)
  | mark, bufs :: more =>
    let r := enqueueStreams mark.next more
    (⟨bufs, (fillFlags bufs).orMark mark⟩ :: r.1, r.2)

namespace MarkedWriter

variable (conf : StreamConf)

def goOn (s : MarkedWriter) (w : TcpWriter) : MarkedWriter :=
  let r := enqueueStreams s.markReplayStream (w.sent.drop s.writer.sent.length)
  ⟨w, r.2, s.queue ++ r.1⟩

def doStickyReplay (s : MarkedWriter) : Bool × MarkedWriter :=
  match s.markReplayStream with
  | .none => (s.writer.wantsReplay.1, { s with writer := s.writer.wantsReplay.2 })
  | _ => (false, s)

def markReplay (s : MarkedWriter) (replay : Bool) : MarkedWriter :=
  { s with markReplayStream := if replay then .first else .none }

def replay (s : MarkedWriter) : Except WriteStop MarkedWriter := do
  let s := s.markReplay true
  let w ← s.writer.stickyStore.writeEvents.foldlM
    (TcpWriter.placeEvent conf (TcpWriter.nextBuffer conf)) s.writer
  let s := s.goOn w
  let w ← TcpWriter.flushStream (TcpWriter.nextBuffer conf) conf.streamBufs s.writer
  return (s.goOn w).markReplay false

def newBuffer (s : MarkedWriter) : Except WriteStop MarkedWriter := do
  let w ← s.writer.nextBuffer conf
  let r := (s.goOn w).doStickyReplay
  if r.1 then r.2.replay conf else return r.2

end MarkedWriter

/-- Where the writer comes to between the fragments of events: a buffer is taken, an event is
written, and what others say or have put into the sticky store is anything. -/
inductive WriterReached (conf : StreamConf) : TcpWriter → Prop
  | start (answers : List Bool) : WriterReached conf (TcpWriter.init answers)
  | newBuffer {s s' : TcpWriter} :
      WriterReached conf s → s.newBuffer conf = .ok s' → WriterReached conf s'
  | writeEvent {s s' : TcpWriter} (event : LmdEventOut) :
      WriterReached conf s → s.writeEvent conf event = .ok s' → WriterReached conf s'
  | others {s : TcpWriter} (store : StickyStore) (answers : List Bool) :
      WriterReached conf s →
      WriterReached conf { s with stickyStore := store, answers := answers }

def RecoveryStreams : List FilledStream → Prop
  | [] => False
  | stream :: more =>
    (stream.flags.recoveryFirst = true ∧ stream.flags.recoveryMore = false) ∧
      ∀ a ∈ more, a.flags.recoveryFirst = false ∧ a.flags.recoveryMore = true

def StickyStore.HasLive (s : StickyStore) : Prop := ∃ g ∈ s.groups, g.ev.liveSub ≠ 0

section Marks

variable {streams : List (List OutBuffer)}

theorem enqueue_more (streams : List (List OutBuffer)) :
    (enqueueStreams .more streams).2 = .more ∧ ∀ a ∈ (enqueueStreams .more streams).1,
      a.flags.recoveryFirst = false ∧ a.flags.recoveryMore = true := by
  induction streams with
  | nil => exact ⟨rfl, fun a ha => (by cases ha)⟩
  | cons bufs streams ih =>
    refine ⟨ih.1, fun a ha => ?_⟩
    rcases List.mem_cons.mp ha with rfl | ha
    · exact ⟨rfl, rfl⟩
    · exact ih.2 a ha

theorem enqueue_first : RecoveryStreams (enqueueStreams .first streams).1 ↔ streams ≠ [] := by
  cases streams with
  | nil => exact iff_of_false (fun h => h) fun h => h rfl
  | cons bufs streams =>
    exact iff_of_true ⟨⟨rfl, rfl⟩, (enqueue_more streams).2⟩ (List.cons_ne_nil _ _)

theorem enqueue_append (mark : ReplayMark) (streams more : List (List OutBuffer)) :
    enqueueStreams mark (streams ++ more) =
      ((enqueueStreams mark streams).1 ++
        (enqueueStreams (enqueueStreams mark streams).2 more).1,
        (enqueueStreams (enqueueStreams mark streams).2 more).2) := by
  induction streams generalizing mark with
  | nil => rfl
  | cons bufs streams ih =>
    rw [List.cons_append, enqueueStreams, enqueueStreams, ih]
    rfl

theorem hasLive_iff (s : StickyStore) : s.HasLive ↔ s.writeEvents ≠ [] := by
  rw [StickyStore.writeEvents, ne_eq, List.map_eq_nil_iff, List.filter_eq_nil_iff]
  simp [StickyStore.HasLive]

end Marks

structure Onward (conf : StreamConf) (s s' : TcpWriter) : Prop where
  place : ∃ bufs b, InStream conf s' bufs b
  sent : s.sent <+: s'.sent
  used : s'.sent = s.sent → s.streamLeft < conf.streamMax → s'.streamLeft < conf.streamMax

def Used (conf : StreamConf) (s s' : TcpWriter) : Prop :=
  s'.sent = s.sent → s'.streamLeft < conf.streamMax

section Onward

variable {conf : StreamConf} {s s' s'' : TcpWriter} {bufs : List OutBuffer} {b : OutBuffer}

theorem onward_refl (h : InStream conf s bufs b) : Onward conf s s :=
  ⟨⟨bufs, b, h⟩, List.prefix_rfl, fun _ hlt => hlt⟩

theorem sent_eq (h : s.sent <+: s'.sent) (h' : s'.sent <+: s''.sent) (heq : s''.sent = s.sent) :
    s'.sent = s.sent := by
  rw [heq] at h'
  exact h'.eq_of_length (Nat.le_antisymm h'.length_le h.length_le)

theorem Onward.trans (h : Onward conf s s') (h' : Onward conf s' s'') : Onward conf s s'' where
  place := h'.place
  sent := h.sent.trans h'.sent
  used heq hlt := by
    have hsame := sent_eq h.sent h'.sent heq
    exact h'.used (heq.trans hsame.symm) (h.used hsame hlt)

theorem Used.onward (hsent : s.sent <+: s'.sent) (h : Used conf s s') (h' : Onward conf s' s'') :
    Used conf s s'' := by
  intro heq
  have hsame := sent_eq hsent h'.sent heq
  exact h'.used (heq.trans hsame.symm) (h hsame)

theorem nextBuffer_onward (h : InStream conf s bufs b) :
    Ends (fun _ => True) (Onward conf s) (s.nextBuffer conf) := by
  have hroom := h.room
  by_cases hlast : bufs.length + 1 = conf.streamBufs
  · obtain ⟨s', hs', hnext, hsent⟩ := nextBuffer_turn h hlast
    rw [hs']
    refine ⟨⟨_, _, hnext.place⟩, ?_, fun heq => ?_⟩
    · rw [hsent]
      exact List.prefix_append _ _
    · rw [hsent] at heq
      exact absurd heq (by simp)
  · obtain ⟨s', hs', hnext, hsent⟩ := nextBuffer_within h (by omega)
    rw [hs']
    refine ⟨⟨_, _, hnext.place⟩, hsent ▸ List.prefix_rfl, fun _ _ => ?_⟩
    obtain ⟨m, hm⟩ : ∃ m, conf.streamBufs - 1 - bufs.length = m + 1 :=
      Nat.exists_eq_add_one_of_ne_zero (by omega)
    have hmul : (conf.streamBufs - 1) * conf.extra = m * conf.extra + (bufs.length + 1) * conf.extra := by
      rw [← Nat.add_mul]
      congr 1
      omega
    have hone : (bufs.length + 1) * conf.extra = bufs.length * conf.extra + conf.extra :=
      Nat.succ_mul _ _
    have hge := conf.bufSize_ge
    have hpos := conf.bufSize_eq
    rw [hnext.place.stream, hnext.left, List.length_append, List.length_singleton,
      show conf.streamBufs - 1 - (bufs.length + 1) = m by omega, StreamConf.streamMax]
    omega

theorem ensureBuffer_onward (h : InStream conf s bufs b) : Ends (fun _ => True) (Onward conf s)
    (TcpWriter.ensureBuffer (TcpWriter.nextBuffer conf) s) := by
  unfold TcpWriter.ensureBuffer
  split
  · exact nextBuffer_onward h
  · exact onward_refl h

theorem flushStream_onward (fuel : Nat) (h : InStream conf s bufs b) :
    Ends (fun _ => True) (Onward conf s)
      (TcpWriter.flushStream (TcpWriter.nextBuffer conf) fuel s) := by
  induction fuel generalizing s bufs b with
  | zero =>
    rw [TcpWriter.flushStream]
    split
    · exact onward_refl h
    · trivial
  | succ fuel ih =>
    rw [TcpWriter.flushStream]
    split
    · exact onward_refl h
    · refine ends_bind (nextBuffer_onward h) fun s' hs' => ?_
      obtain ⟨bufs', b', hin⟩ := hs'.place
      exact ends_mono (ih hin) (fun _ he => he) fun _ h => hs'.trans h

theorem Onward.of_answers (h : Onward conf s s') (answers : List Bool) :
    Onward conf s { s' with answers := answers } := by
  obtain ⟨⟨bufs, b, hin⟩, hsent, hused⟩ := h
  exact ⟨⟨bufs, b, hin.fill, hin.cur, hin.room, hin.left_le, hin.stream, hin.max⟩, hsent, hused⟩

theorem flushBuffers_onward (fuel : Nat) (h : InStream conf s bufs b) :
    Ends (fun _ => True) (Onward conf s)
      (TcpWriter.flushBuffers (TcpWriter.nextBuffer conf) fuel s) := by
  induction fuel generalizing s bufs b with
  | zero => exact onward_refl h
  | succ fuel ih =>
    rw [TcpWriter.flushBuffers]
    split
    next answers _ =>
      have hasked := (onward_refl h).of_answers answers
      obtain ⟨bufs₁, b₁, hin₁⟩ := hasked.place
      refine ends_bind (nextBuffer_onward hin₁) fun s' hs' => ?_
      obtain ⟨bufs₂, b₂, hin₂⟩ := hs'.place
      exact ends_mono (ih hin₂) (fun _ he => he) fun _ h => (hasked.trans hs').trans h
    next answers _ => exact (onward_refl h).of_answers answers
    next => exact onward_refl h

theorem makeRoom_onward (h : InStream conf s bufs b) (length : Nat) :
    Ends (fun _ => True) (Onward conf s)
      (TcpWriter.makeRoom conf (TcpWriter.nextBuffer conf) s length) := by
  unfold TcpWriter.makeRoom
  refine ends_bind (ensureBuffer_onward h) fun s' hs' => ?_
  obtain ⟨bufs', b', hin⟩ := hs'.place
  split
  · refine ends_bind (ends_errorIf fun _ => trivial) fun u _ => ?_
    exact ends_mono (flushStream_onward _ hin) (fun _ he => he) fun _ h => hs'.trans h
  · exact hs'

theorem finishEvent_used {event : LmdEventOut} {n : Nat} {w : TcpWriter.Cutting}
    (h : Writing conf s n w) (hfit : sizeofEventHeader + w.left ≤ w.writer.curBufLeft) :
    Ends (fun _ => True) (fun s' => s'.sent = s.sent ∧ (∃ bufs b, InStream conf s' bufs b) ∧
      s'.streamLeft < conf.streamMax) (TcpWriter.finishEvent conf event n w) := by
  obtain ⟨bufs, b, hin⟩ := h.place
  have hrest := h.rest
  unfold TcpWriter.finishEvent
  refine ends_bind (ends_errorIf fun _ => trivial) fun u _ => ?_
  refine ends_bind_stop (copyHeader_ends hin (by omega)) (fun _ _ => trivial) ?_
  rintro s₁ ⟨b₁, h₁⟩
  have hleft := h₁.left
  refine ends_bind_stop (copyChunks_ends h₁.place (by omega)) (fun _ _ => trivial) ?_
  rintro s₂ ⟨b₂, h₂⟩
  have hleft₂ := h₂.left
  have hle := hin.left_le
  have hk : (conf.streamBufs - 1 - bufs.length) * conf.extra ≤
      (conf.streamBufs - 1) * conf.extra := Nat.mul_le_mul_right _ (Nat.sub_le _ _)
  refine ⟨(h₂.sent.trans h₁.sent).trans h.sent,
    ⟨bufs, _, h₂.place.modifyCur fun b => b.note event n⟩, ?_⟩
  change s₂.streamLeft < conf.streamMax
  rw [h₂.place.stream, StreamConf.streamMax]
  rw [sizeofEventHeader] at hleft
  omega

theorem ends_and {ε α : Type} {stop stop' : ε → Prop} {post post' : α → Prop} {x : Except ε α}
    (h : Ends stop post x) (h' : Ends stop' post' x) : Ends stop (fun a => post a ∧ post' a) x := by
  cases x with
  | error e => exact h
  | ok a => exact ⟨h, h'⟩

theorem placeEvent_used (h : AtBuffer conf s) (event : LmdEventOut) :
    Ends (fun _ => True) (fun s' => Onward conf s s' ∧ Used conf s s')
      (TcpWriter.placeEvent conf (TcpWriter.nextBuffer conf) s event) := by
  unfold TcpWriter.placeEvent
  have hg := nextBuffer_gives conf
  have hcounted : WriterInv conf { s with calls := s.calls + 1 } := h.inv.of_place (Nat.le_succ _)
  obtain ⟨bufs, b, hin⟩ := h.place
  have hin' : InStream conf { s with calls := s.calls + 1 } bufs b :=
    ⟨hin.fill, hin.cur, hin.room, hin.left_le, hin.stream, hin.max⟩
  refine ends_bind (ends_and (makeRoom_onward hin' event.getLength)
    (makeRoom_ends hg hcounted event.getLength)) ?_
  rintro s₁ ⟨honward, h₁, hl₁, hfits, hroom⟩
  have hcalls : s.calls < s₁.calls := hl₁.calls
  have hunseen : ∀ stream ∈ s₁.sent, s.calls ∉ streamEvents stream := by
    intro stream hs hn
    obtain ⟨bufs₁, b₁, hin₁⟩ := h₁.place
    obtain ⟨old, hold, hmem⟩ := (hl₁.old s.calls (Nat.lt_succ_self _)).mp
      ⟨stream, hin₁.streams ▸ List.mem_append_left _ hs, hn⟩
    exact absurd (h.marks.known old hold _ hmem) (Nat.lt_irrefl _)
  have hwriting : Writing conf s₁ s.calls ⟨s₁, event.getLength, event.chunks⟩ :=
    ⟨h₁.place, h₁.marks, rfl, rfl, fun _ _ => Iff.rfl, hfits, hroom, rfl⟩
  refine ends_bind_stop (writeFragments_ends hg hwriting hcalls hunseen
    (Nat.lt_succ_self _)) (fun _ _ => trivial) ?_
  rintro w ⟨hw, hfit⟩
  refine ends_bind (finishEvent_used hw hfit) ?_
  rintro s₂ ⟨hsent, ⟨bufs₂, b₂, hin₂⟩, hlt⟩
  have h₂ : Onward conf s s₂ := ⟨⟨bufs₂, b₂, hin₂⟩, hsent ▸ honward.sent, fun _ _ => hlt⟩
  refine ends_mono (flushBuffers_onward _ hin₂) (fun _ he => he) fun s₃ h₃ => ⟨h₂.trans h₃, ?_⟩
  exact Used.onward h₂.sent (fun _ => hlt) h₃

theorem placeEvents_used (h : AtBuffer conf s) (events : List LmdEventOut) :
    Ends (fun _ => True)
      (fun s' => Onward conf s s' ∧ (events ≠ [] → Used conf s s') ∧ (events = [] → s' = s))
      (events.foldlM (TcpWriter.placeEvent conf (TcpWriter.nextBuffer conf)) s) := by
  induction events generalizing s with
  | nil =>
    obtain ⟨bufs, b, hin⟩ := h.place
    exact ⟨onward_refl hin, fun hne => (hne rfl).elim, fun _ => rfl⟩
  | cons e events ih =>
    rw [List.foldlM_cons]
    refine ends_bind (ends_and (placeEvent_used h e)
      (placeEvent_ends (nextBuffer_gives conf) h.inv)) ?_
    rintro s₁ ⟨⟨honward, hused⟩, h₁, -⟩
    refine ends_mono (ih h₁) (fun _ he => he) ?_
    rintro s₂ ⟨honward₂, -⟩
    exact ⟨honward.trans honward₂, fun _ => hused.onward honward.sent honward₂, nofun⟩

theorem flushStream_filled (h : AtBuffer conf s) (fuel : Nat) :
    Ends (fun _ => True) (fun s' => s.sent <+: s'.sent ∧
      (s.streamLeft < conf.streamMax → s'.streamLeft = s'.streamLeftMax → s'.sent ≠ s.sent) ∧
      (s.streamLeft = s.streamLeftMax → s' = s))
      (TcpWriter.flushStream (TcpWriter.nextBuffer conf) fuel s) := by
  obtain ⟨bufs, b, hin⟩ := h.place
  have hstays : Ends (fun _ => True) (fun s' => s.streamLeft = s.streamLeftMax → s' = s)
      (TcpWriter.flushStream (TcpWriter.nextBuffer conf) fuel s) := by
    by_cases hfresh : s.streamLeft = s.streamLeftMax
    · rw [flushStream_done hfresh]
      exact fun _ => rfl
    · exact ends_mono (flushStream_onward fuel hin) (fun _ he => he) fun _ _ hsame =>
        (hfresh hsame).elim
  refine ends_mono (ends_and (flushStream_onward fuel hin) hstays) (fun _ he => he) ?_
  rintro s' ⟨hs', hsame⟩
  refine ⟨hs'.sent, fun hlt hfresh heq => ?_, hsame⟩
  obtain ⟨bufs', b', hin'⟩ := hs'.place
  have hused := hs'.used heq hlt
  rw [hfresh, hin'.max] at hused
  exact Nat.lt_irrefl _ hused

end Onward

/-- `do_sticky_replay` says yes to `new_buffer`. -/
def Replays (conf : StreamConf) (s s' : MarkedWriter) : Prop :=
  ∃ w, s.writer.nextBuffer conf = .ok w ∧ (s.goOn w).doStickyReplay = (true, s')

section Replay

variable {conf : StreamConf} {s s' : MarkedWriter} {w w' : TcpWriter}

theorem goOn_goOn (h : s.writer.sent <+: w.sent) (h' : w.sent <+: w'.sent) :
    (s.goOn w).goOn w' = s.goOn w' := by
  obtain ⟨new, hnew⟩ := h
  obtain ⟨new', hnew'⟩ := h'
  have hdrop : w.sent.drop s.writer.sent.length = new := by rw [← hnew, List.drop_left]
  have hdrop' : w'.sent.drop w.sent.length = new' := by rw [← hnew', List.drop_left]
  have hall : w'.sent.drop s.writer.sent.length = new ++ new' := by
    rw [← hnew', ← hnew, List.append_assoc, List.drop_left]
  unfold MarkedWriter.goOn
  dsimp only
  rw [hdrop, hdrop', hall, enqueue_append, List.append_assoc]

theorem enqueue_none (streams : List (List OutBuffer)) : (enqueueStreams .none streams).2 = .none := by
  induction streams with
  | nil => rfl
  | cons bufs streams ih => exact ih

theorem replay_writer (s : MarkedWriter) : (s.replay conf).map MarkedWriter.writer =
    (s.writer.stickyStore.writeEvents.foldlM
      (TcpWriter.placeEvent conf (TcpWriter.nextBuffer conf)) s.writer) >>=
      TcpWriter.flushStream (TcpWriter.nextBuffer conf) conf.streamBufs := by
  change Except.map _ (s.writer.stickyStore.writeEvents.foldlM
    (TcpWriter.placeEvent conf (TcpWriter.nextBuffer conf)) s.writer >>= _) = _
  cases s.writer.stickyStore.writeEvents.foldlM
    (TcpWriter.placeEvent conf (TcpWriter.nextBuffer conf)) s.writer with
  | error e => rfl
  | ok w =>
    change Except.map _ (TcpWriter.flushStream (TcpWriter.nextBuffer conf) conf.streamBufs w >>= _) =
      TcpWriter.flushStream (TcpWriter.nextBuffer conf) conf.streamBufs w
    cases TcpWriter.flushStream (TcpWriter.nextBuffer conf) conf.streamBufs w with
    | error e => rfl
    | ok w' => rfl

theorem newBuffer_writer (hmark : s.markReplayStream = .none) :
    (s.newBuffer conf).map MarkedWriter.writer = s.writer.newBuffer conf := by
  unfold MarkedWriter.newBuffer TcpWriter.newBuffer
  cases hnext : s.writer.nextBuffer conf with
  | error e => rfl
  | ok w =>
    have hgone : s.goOn w = ⟨w, .none, (s.goOn w).queue⟩ := by
      unfold MarkedWriter.goOn
      dsimp only
      rw [hmark, enqueue_none]
    have hasks : (s.goOn w).doStickyReplay =
        (w.wantsReplay.1, ⟨w.wantsReplay.2, .none, (s.goOn w).queue⟩) := by
      rw [hgone]
      rfl
    change Except.map _ (if (s.goOn w).doStickyReplay.1 = true then _ else _) =
      if w.wantsReplay.1 = true then _ else _
    rw [hasks]
    split
    · exact replay_writer _
    · rfl

theorem replays_atNewStream (h : WriterInv conf s.writer) (hreplay : Replays conf s s') :
    AtNewStream conf s'.writer := by
  obtain ⟨w, hnext, hyes⟩ := hreplay
  have hends := (nextBuffer_gives conf).ends h
  rw [hnext] at hends
  obtain ⟨hat, -, hleft⟩ := hends
  obtain ⟨bufs, b, hin⟩ := hat.place
  unfold MarkedWriter.doStickyReplay at hyes
  split at hyes
  next hmark =>
    obtain ⟨hwants, rfl⟩ := Prod.mk.inj hyes
    change AtNewStream conf w.wantsReplay.2
    change w.wantsReplay.1 = true at hwants
    unfold TcpWriter.wantsReplay at hwants ⊢
    split at hwants
    next filled answer answers hfill hanswers =>
      rw [hin.fill] at hfill
      have hzero : bufs.length * conf.bufSize = 0 := congrArg Prod.fst (Option.some.inj hfill)
      have hlen : bufs.length = 0 := by
        have hge := conf.bufSize_ge
        rcases Nat.mul_eq_zero.mp hzero with hz | hz
        · exact hz
        · omega
      refine ⟨(hat.of_answers answers).1, ?_⟩
      change w.streamLeft = w.streamLeftMax
      rw [hin.stream, hin.max, hleft, hlen]
      rfl
    next => cases hwants
  next => cases hyes

theorem replay_spec (h : AtNewStream conf s.writer) :
    Ends WriteStop.Tolerated (fun s' => ∃ streams, s'.queue = s.queue ++ streams ∧
      s'.markReplayStream = .none ∧
      (RecoveryStreams streams ↔ s.writer.stickyStore.HasLive)) (s.replay conf) := by
  have hg := nextBuffer_gives conf
  unfold MarkedWriter.replay
  refine ends_bind (ends_and (placeEvents_ends hg h.toAtBuffer)
    (placeEvents_used h.toAtBuffer s.writer.stickyStore.writeEvents)) ?_
  rintro w₁ ⟨⟨h₁, -⟩, honward, hused, hsame⟩
  obtain ⟨bufs, b, hin₁⟩ := h₁.place
  refine ends_bind (ends_and (flushStream_ends hg hin₁ h₁.marks (Nat.le_add_right _ _))
    (flushStream_filled h₁ conf.streamBufs)) ?_
  rintro w₂ ⟨⟨h₂, -⟩, hsent, hfilled, hstays⟩
  have hgone := @goOn_goOn (s.markReplay true) w₁ w₂ honward.sent hsent
  refine ⟨(enqueueStreams .first (w₂.sent.drop s.writer.sent.length)).1, ?_, rfl, ?_⟩
  · change (((s.markReplay true).goOn w₁).goOn w₂).queue = _
    rw [hgone]
    rfl
  rw [enqueue_first, hasLive_iff]
  constructor
  · intro hne hnil
    have hw₁ := hsame hnil
    have hw₂ : w₂ = s.writer := (hstays (hw₁ ▸ h.fresh)).trans hw₁
    rw [hw₂, List.drop_length] at hne
    exact hne rfl
  · intro hne hnil
    have heq : w₂.sent = s.writer.sent :=
      (honward.sent.trans hsent).eq_of_length_le (List.drop_eq_nil_iff.mp hnil) |>.symm
    have hsame₁ : w₁.sent = s.writer.sent := sent_eq honward.sent hsent heq
    exact hfilled (hused hne hsame₁) h₂.fresh (heq.trans hsame₁.symm)

theorem reached_writerInv {s : TcpWriter} (h : WriterReached conf s) : WriterInv conf s := by
  induction h with
  | start answers => exact ⟨.inl ⟨rfl, rfl, rfl⟩, marks_nil 0⟩
  | newBuffer _ hok ih =>
    have hends := (newBuffer_gives conf).ends ih
    rw [hok] at hends
    exact hends.1.inv
  | writeEvent event _ hok ih =>
    have hends := @writeEvent_ends _ _ event ih
    rw [hok] at hends
    exact hends.1
  | others store answers _ ih => exact ih.of_place (Nat.le_refl _)

/-- The streams of a replay are a recovery exactly when a subevent in the sticky store is live. -/
theorem replay_streams_iff (hreached : WriterReached conf s.writer)
    (hreplay : Replays conf s s') :
    Ends WriteStop.Tolerated (fun s'' => ∃ streams, s''.queue = s'.queue ++ streams ∧
      s''.markReplayStream = .none ∧
      (RecoveryStreams streams ↔ s'.writer.stickyStore.HasLive)) (s.newBuffer conf) := by
  have hspec := replay_spec (replays_atNewStream (reached_writerInv hreached) hreplay)
  obtain ⟨w, hnext, hyes⟩ := hreplay
  unfold MarkedWriter.newBuffer
  rw [hnext]
  change Ends _ _ (if (s.goOn w).doStickyReplay.1 = true then _ else _)
  rw [hyes, if_pos rfl]
  exact hspec

end Replay

theorem oneBuffer_pos : 0 < 1 * 1024 := by decide

theorem oneBuffer_le : 1 * 1024 ≤ 0xffff0000 := by decide

def oneBuffer : StreamConf := ⟨1024, 1, true, ⟨1, rfl⟩, oneBuffer_pos, oneBuffer_le⟩

def stickyWriter (subs : List (List UInt8)) : MarkedWriter :=
  match (TcpWriter.init [false]).writeEvent oneBuffer (stickyEvent 1 subs) with
  | .ok w => ⟨{ w with answers := [true] }, .none, []⟩
  | .error _ => ⟨TcpWriter.init [true], .none, []⟩

theorem stickyWriter_reached (subs : List (List UInt8)) :
    WriterReached oneBuffer (stickyWriter subs).writer := by
  unfold stickyWriter
  split
  next w hw => exact .others w.stickyStore [true] (.writeEvent _ (.start [false]) hw)
  next => exact .start [true]

theorem replay_live_sub : ∃ s', Replays oneBuffer (stickyWriter [plainSub 5 1]) s' ∧
    Ends WriteStop.Tolerated (fun s'' => ∃ streams, s''.queue = s'.queue ++ streams ∧
      RecoveryStreams streams) ((stickyWriter [plainSub 5 1]).newBuffer oneBuffer) := by
  have hreplays : Replays oneBuffer (stickyWriter [plainSub 5 1]) _ := ⟨_, rfl, rfl⟩
  refine ⟨_, hreplays, ends_mono (replay_streams_iff (stickyWriter_reached _) hreplays)
    (fun _ he => he) ?_⟩
  rintro s'' ⟨streams, hqueue, -, hiff⟩
  exact ⟨streams, hqueue, hiff.mpr ⟨_, .head _, nofun⟩⟩

theorem replay_without_live : ¬∀ conf s s', WriterReached conf s.writer → Replays conf s s' →
    Ends WriteStop.Tolerated (fun s'' => ∃ streams, s''.queue = s'.queue ++ streams ∧
      RecoveryStreams streams) (s.newBuffer conf) := by
  intro h
  have hreplays : Replays oneBuffer (stickyWriter []) _ := ⟨_, rfl, rfl⟩
  obtain ⟨streams, hqueue, hrecovery⟩ := h _ _ _ (stickyWriter_reached []) hreplays
  rw [List.self_eq_append_right.mp hqueue] at hrecovery
  exact hrecovery

end Ucesb
