import Ucesb.ExtPipeBuf
import Ucesb.PipeFramingRun
import Ucesb.WriterMessages

namespace Ucesb

def netBytes (w : Nat) : List UInt8 := (le32 w).reverse

/-- The message of `set_max_message_size`. -/
def resizeMessage (size : Nat) : List UInt8 :=
  netBytes (externalWriterRequestHiMagic ||| externalWriterBufResize) ++ netBytes 16 ++
    netBytes size ++ netBytes externalWriterMagic

namespace ExtPipeBuf

/-- `ensure_buf_space`, and `commit_buf_space` of the message that was put there. -/
def send (b : ExtPipeBuf) (space : Nat) (msg : List UInt8) : ExtPipeBuf :=
  if (b.ensureBufSpace space).error = none then (b.ensureBufSpace space).commitBufSpace msg
  else b.ensureBufSpace space

/-- `set_max_message_size`, given the largest message with its header. -/
def setMaxMessageSize (b : ExtPipeBuf) (size : Nat) : ExtPipeBuf :=
  if wantedSize size < b.size then b
  else (b.send 16 (resizeMessage (wantedSize size))).resizeAlloc (wantedSize size)

end ExtPipeBuf

structure PipeLink where
  writer : ExtPipeBuf
  sent : List (List UInt8)
  /-- Written to the pipe, and not read. -/
  transit : List UInt8
  reader : PipeIn
  handed : List (List UInt8)
  failed : Option PipeEnd

inductive LinkAct
  | send (space : Nat) (msg : List UInt8)
  | flush
  | setMaxMessageSize (size : Nat)
  /-- A `read` that gives at most one byte more than this. -/
  | read (more : Nat)

namespace PipeLink

def wrote (s : PipeLink) (b : ExtPipeBuf) (msgs : List (List UInt8)) : PipeLink :=
  { s with
    writer := b
    sent := s.sent ++ msgs
    transit := s.transit ++ b.written.drop s.writer.written.length }

/-- A turn of the loop of `pipe_get_message`, with the messages that are complete by then. -/
def read (s : PipeLink) (more : Nat) : PipeLink :=
  match s.reader.makeRoom with
  | .error e => { s with failed := some (.failed e) }
  | .ok p =>
    let count := p.readCount s.transit more
    let handled := (p.append (s.transit.take count)).handleMessages (fun _ => false)
      (p.readEnd + count - p.cur)
    { s with
      transit := s.transit.drop count
      reader := handled.pipe
      handed := s.handed ++ handled.handed
      failed := handled.outcome }

end PipeLink

/-- While the pipe is empty, `read` waits. -/
def linkStep (s : PipeLink) (a : LinkAct) : Option PipeLink :=
  if s.writer.error = none ∧ s.failed = none then
    match a with
    | .send space msg => some (s.wrote (s.writer.send space msg) [msg])
    | .flush => some (s.wrote s.writer.flush [])
    | .setMaxMessageSize size => some (s.wrote (s.writer.setMaxMessageSize size)
        (if wantedSize size < s.writer.size then [] else [resizeMessage (wantedSize size)]))
    | .read more => if s.transit = [] then none else some (s.read more)
  else none

def linkInit (mem : Nat → UInt8) : PipeLink := ⟨extPipeBufInit, [], [], pipeInInit mem, [], none⟩

/-- A message has its length in its header, is no request to resize, and is no longer than the steps
of the write mark. -/
def LinkAct.fits (s : PipeLink) : LinkAct → Bool
  | .send space msg => decide (msg.length ≤ space ∧ space ≤ pipeLimit s.writer.size ∧
      msg.length ≤ ExtPipeBuf.markStep s.writer.size ∧ bufHeaderSize ≤ msg.length ∧
      msg.length % 4 = 0 ∧ netWord (msg.drop 4) = msg.length) && !isResize msg
  | .flush => true
  | .setMaxMessageSize size => decide (size ≤ 2 ^ 30 - 1024)
  | .read _ => true

structure MarkAhead (b : ExtPipeBuf) : Prop where
  ahead : b.cur < b.writeMark ∨ b.cur = b.size
  size : b.size = 0x1000 ∨ 0x40000 ≤ b.size

structure Wrote (b b' : ExtPipeBuf) (msgs : List (List UInt8)) (size : Nat) : Prop where
  inv : PipeBufInv b'
  alive : b'.error = none
  mark : MarkAhead b'
  committed : b'.committed = b.committed ++ msgs.flatten
  written : b.written <+: b'.written
  size : b'.size = size

section Writer

variable {b : ExtPipeBuf} {space size : Nat} {msg : List UInt8}

theorem markStep_large (h : size = 0x1000 ∨ 0x40000 ≤ size) :
    1024 ≤ ExtPipeBuf.markStep size ∧ (0x2000 ≤ size → 0x1000 ≤ ExtPipeBuf.markStep size) := by
  unfold ExtPipeBuf.markStep
  split
  · omega
  · omega

theorem Wrote.trans {b' b'' : ExtPipeBuf} {msgs msgs' : List (List UInt8)} {size' : Nat}
    (h : Wrote b b' msgs size) (h' : Wrote b' b'' msgs' size') :
    Wrote b b'' (msgs ++ msgs') size' where
  inv := h'.inv
  alive := h'.alive
  mark := h'.mark
  committed := by
    rw [h'.committed, h.committed, List.flatten_append, List.append_assoc]
  written := h.written.trans h'.written
  size := h'.size

theorem fullWrite_ok {start count : Nat}
    (h : (b.fullWrite start count).error ≠ some .unexpectedEnd) :
    ∃ w bytes, b.fullWrite start count =
      { b with writes := b.writes ++ [w], written := b.written ++ bytes } := by
  unfold ExtPipeBuf.fullWrite at h ⊢
  split
  · next hzero =>
    rw [if_pos hzero] at h
    exact absurd rfl h
  · exact ⟨_, _, rfl⟩

theorem flush_wrote (h : PipeBufInv b) (halive : b.error = none) (hmark : MarkAhead b) :
    Wrote b b.flush [] b.size := by
  have hinv := h.flush
  by_cases heq : b.cur = b.beginWrite
  · rw [ExtPipeBuf.flush, if_pos heq]
    exact ⟨h, halive, hmark, by simp, List.prefix_rfl, rfl⟩
  · rw [ExtPipeBuf.flush, if_neg heq] at hinv ⊢
    dsimp only at hinv ⊢
    obtain ⟨w, bytes, hw⟩ := fullWrite_ok hinv.noFault
    rw [hw] at hinv ⊢
    exact ⟨hinv, halive, ⟨hmark.ahead, hmark.size⟩, by simp, List.prefix_append _ _, rfl⟩

theorem ensure_wrote (h : PipeBufInv b) (halive : b.error = none) (hmark : MarkAhead b)
    (hspace : space ≤ pipeLimit b.size) :
    Wrote b (b.ensureBufSpace space) [] b.size ∧ (b.ensureBufSpace space).space = space := by
  have hlimit : space ≤ b.size ∧ (b.size < 2 * 0x1000 ∨ b.cur % 0x1000 + space ≤ b.size) := by
    unfold pipeLimit at hspace
    split at hspace
    · omega
    · omega
  have hinv := @PipeBufInv.ensure b h space (.inr (.inr hlimit.2))
  unfold ExtPipeBuf.ensureBufSpace at hinv ⊢
  rw [if_neg (Nat.not_lt.mpr hlimit.1)] at hinv ⊢
  by_cases hroom : b.cur + space ≤ b.size
  · rw [if_pos hroom] at hinv ⊢
    exact ⟨⟨hinv, halive, ⟨hmark.ahead, hmark.size⟩, by simp, List.prefix_rfl, rfl⟩, rfl⟩
  rw [if_neg hroom] at hinv ⊢
  have hstart : (if 2 * 0x1000 ≤ b.size then b.cur % 0x1000 else 0) <
      ExtPipeBuf.markStep b.size := by
    obtain ⟨hpos, hpage⟩ := markStep_large hmark.size
    split
    · omega
    · omega
  by_cases heq : b.cur = b.beginWrite
  · rw [if_pos heq] at hinv ⊢
    exact ⟨⟨hinv, halive, ⟨.inl hstart, hmark.size⟩, by simp [ExtPipeBuf.restartPointers],
      List.prefix_rfl, rfl⟩, rfl⟩
  · rw [if_neg heq] at hinv ⊢
    obtain ⟨w, bytes, hw⟩ := fullWrite_ok hinv.noFault
    rw [hw] at hinv ⊢
    exact ⟨⟨hinv, halive, ⟨.inl hstart, hmark.size⟩, by simp [ExtPipeBuf.restartPointers],
      List.prefix_append _ _, rfl⟩, rfl⟩

theorem commit_wrote (h : PipeBufInv b) (halive : b.error = none) (hmark : MarkAhead b)
    (hmsg : msg.length ≤ b.space) (hpos : 0 < msg.length)
    (hstep : msg.length ≤ ExtPipeBuf.markStep b.size) :
    Wrote b (b.commitBufSpace msg) [msg] b.size := by
  have hcur := h.cur_le
  have hbegin := h.begin_le
  have hahead : b.cur < b.writeMark := hmark.ahead.resolve_right (by omega)
  have hinv := h.commit hmsg (by omega)
  have hcommitted : (b.advance msg).committed = b.committed ++ [msg].flatten := by
    simp [ExtPipeBuf.advance]
  unfold ExtPipeBuf.commitBufSpace at hinv ⊢
  dsimp only at hinv ⊢
  by_cases hpassed : (b.advance msg).writeMark ≤ (b.advance msg).cur
  · rw [if_pos hpassed] at hinv ⊢
    obtain ⟨w, bytes, hw⟩ := fullWrite_ok hinv.noFault
    rw [hw] at hinv ⊢
    refine ⟨hinv, halive, ⟨.inl ?_, hmark.size⟩, hcommitted, List.prefix_append _ _, rfl⟩
    change b.cur + msg.length < b.writeMark + ExtPipeBuf.markStep b.size
    omega
  · rw [if_neg hpassed] at hinv ⊢
    exact ⟨hinv, halive, ⟨.inl (Nat.not_le.mp hpassed), hmark.size⟩, hcommitted,
      List.prefix_rfl, rfl⟩

theorem send_wrote (h : PipeBufInv b) (halive : b.error = none) (hmark : MarkAhead b)
    (hlen : msg.length ≤ space) (hspace : space ≤ pipeLimit b.size) (hpos : 0 < msg.length)
    (hstep : msg.length ≤ ExtPipeBuf.markStep b.size) :
    Wrote b (b.send space msg) [msg] b.size := by
  obtain ⟨he, hroom⟩ := ensure_wrote h halive hmark hspace
  have hc := @commit_wrote _ msg he.inv he.alive he.mark (by rw [hroom]; exact hlen) hpos
    (by rw [he.size]; exact hstep)
  rw [he.size] at hc
  rw [ExtPipeBuf.send, if_pos he.alive]
  exact he.trans hc

theorem resizeAlloc_wrote (h : PipeBufInv b) (halive : b.error = none) (hmark : MarkAhead b)
    (hle : b.size ≤ size) (hlt : size < 2 ^ 32) (hlarge : 0x40000 ≤ size) :
    Wrote b (b.resizeAlloc size) [] size := by
  have hf := flush_wrote h halive hmark
  have hbegin := PipeBufInv.flush_begin b
  have hcur := hf.inv.cur_le
  rw [hf.size] at hcur
  refine ⟨h.resize hle hlt, hf.alive, ⟨?_, .inr hlarge⟩, hf.committed, hf.written, rfl⟩
  unfold ExtPipeBuf.resizeAlloc ExtPipeBuf.alloc
  dsimp only
  rw [hbegin]
  split
  · omega
  · omega

theorem wantedSize_large (h : size ≤ 2 ^ 30 - 1024) : 0x40000 ≤ wantedSize size := by
  unfold wantedSize externalWriterMinSharedSize
  omega

theorem netWord_netBytes (w : Nat) (rest : List UInt8) :
    netWord (netBytes w ++ rest) = w % 2 ^ 32 := by
  rw [netWord_append (show 4 ≤ (netBytes w).length from Nat.le_refl 4)]
  have hword := rd32_le32 w []
  rwa [List.append_nil] at hword

theorem resizeMessage_length (size : Nat) : (resizeMessage size).length = 16 := rfl

theorem resizeMessage_ok {size' : Nat} (h : size = 0x1000 ∨ 0x40000 ≤ size) (hle : size ≤ size')
    (hlt : size' < 2 ^ 32) :
    messageOk size (resizeMessage size') = true ∧ sizeAfter size (resizeMessage size') = size' := by
  have hrequest : isResize (resizeMessage size') = true := by
    rw [isResize, resizeMessage, List.append_assoc, List.append_assoc, netWord_netBytes]
    decide
  have hsize : netWord ((resizeMessage size').drop 8) = size' := by
    refine (netWord_netBytes size' (netBytes externalWriterMagic)).trans (Nat.mod_eq_of_lt hlt)
  have hlen : 16 ≤ pipeLimit size := by
    unfold pipeLimit
    split
    · omega
    · omega
  refine ⟨decide_eq_true ⟨?_, ?_, ?_, hlen, fun _ => ⟨Nat.le_refl 16, ?_, ?_⟩⟩, ?_⟩
  · rw [resizeMessage_length]
    decide
  · rw [resizeMessage_length]
  · exact netWord_netBytes 16 (netBytes size' ++ netBytes externalWriterMagic)
  · exact netWord_netBytes externalWriterMagic []
  · rw [hsize]
    exact hle
  · rw [sizeAfter, if_pos hrequest, hsize]

theorem setMaxMessageSize_wrote (h : PipeBufInv b) (halive : b.error = none) (hmark : MarkAhead b)
    (hsize : size ≤ 2 ^ 30 - 1024) (hgrow : ¬wantedSize size < b.size) :
    Wrote b (b.setMaxMessageSize size) [resizeMessage (wantedSize size)] (wantedSize size) := by
  have hlimit : 16 ≤ pipeLimit b.size := by
    have hlarge := hmark.size
    unfold pipeLimit
    split
    · omega
    · omega
  have hsent := @send_wrote b 16 (resizeMessage (wantedSize size)) h halive hmark (Nat.le_refl 16)
    hlimit (Nat.succ_pos 15) (Nat.le_trans (by rw [resizeMessage_length]; decide)
      (markStep_large hmark.size).1)
  have hresized := resizeAlloc_wrote hsent.inv hsent.alive hsent.mark
    (by rw [hsent.size]; exact Nat.not_lt.mp hgrow) (wantedSize_lt size) (wantedSize_large hsize)
  rw [ExtPipeBuf.setMaxMessageSize, if_neg hgrow]
  exact hsent.trans hresized

end Writer

/-- Whatever the writer sends next, the reader has before it the messages that it has not handed out,
and then that. -/
structure LinkInv (s : PipeLink) : Prop where
  writer : PipeBufInv s.writer
  alive : s.writer.error = none
  mark : MarkAhead s.writer
  reading : s.failed = none
  left : ∃ left, s.sent = s.handed ++ left ∧ PipeIdle s.reader left ∧
    ∀ more, messagesOk s.writer.size more = true →
      PipePending s.reader (s.transit ++ s.writer.pending ++ more.flatten) (left ++ more) []

section Link

variable {s s' : PipeLink}

theorem linkInit_inv (mem : Nat → UInt8) : LinkInv (linkInit mem) := by
  refine ⟨extPipeBufInit_inv, rfl, ⟨.inl (show 0 < 1024 by decide), .inl rfl⟩, rfl, [], rfl, ?_, ?_⟩
  · rintro _ _ ⟨⟩
  intro more hmore
  have hpending := (pipePending_init mem hmore []).1
  rwa [List.append_nil] at hpending

theorem LinkInv.wrote (h : LinkInv s) {b : ExtPipeBuf} {msgs : List (List UInt8)} {size : Nat}
    (hw : Wrote s.writer b msgs size)
    (hok : ∀ more, messagesOk size more = true → messagesOk s.writer.size (msgs ++ more) = true) :
    LinkInv (s.wrote b msgs) := by
  obtain ⟨left, hsent, hidle, hpending⟩ := h.left
  obtain ⟨bytes, hbytes⟩ := hw.written
  have hmoved : bytes ++ b.pending = s.writer.pending ++ msgs.flatten := by
    have hstream := hw.inv.stream
    rw [hw.committed, ← h.writer.stream, ← hbytes, List.append_assoc, List.append_assoc] at hstream
    exact List.append_cancel_left hstream
  have htransit : (s.wrote b msgs).transit = s.transit ++ bytes := by
    unfold PipeLink.wrote
    rw [← hbytes, List.drop_left]
  have hnext : ∀ more, messagesOk b.size more = true →
      PipePending s.reader ((s.wrote b msgs).transit ++ b.pending ++ more.flatten)
        (left ++ msgs ++ more) [] := by
    intro more hmore
    rw [hw.size] at hmore
    have hp := hpending (msgs ++ more) (hok more hmore)
    rwa [List.flatten_append, ← List.append_assoc, List.append_assoc s.transit, ← hmoved,
      ← List.append_assoc s.transit, ← htransit, ← List.append_assoc] at hp
  refine ⟨hw.inv, hw.alive, hw.mark, h.reading, left ++ msgs, ?_, ?_, hnext⟩
  · change s.sent ++ msgs = s.handed ++ (left ++ msgs)
    rw [hsent, List.append_assoc]
  · intro m rest heq
    cases left with
    | cons m' left =>
      cases heq
      exact hidle _ _ rfl
    | nil =>
      have hbefore := (hpending [] rfl).bytes
      have hheader := (hnext [] rfl).ok
      rw [heq] at hheader
      obtain ⟨hm, -⟩ := Bool.and_eq_true_iff.mp hheader
      obtain ⟨hlen, -⟩ := of_decide_eq_true hm
      have hempty : s.reader.avail = [] := by
        simp only [List.flatten_nil, List.append_nil, List.append_eq_nil_iff] at hbefore
        exact hbefore.1
      change s.reader.avail.length < m.length
      rw [hempty]
      unfold bufHeaderSize at hlen
      exact Nat.lt_of_lt_of_le (by decide) hlen

theorem PipePending.handle_never {p : PipeIn} {input : List UInt8} {msgs : List (List UInt8)}
    (h : PipePending p input msgs []) {todo : Nat} (htodo : p.avail.length ≤ todo) :
    ∃ p' handled left, msgs = handled ++ left ∧ PipePending p' input left [] ∧ PipeIdle p' left ∧
      p.handleMessages (fun _ => false) todo = ⟨p', handled, none⟩ := by
  rcases @PipePending.handle_quiet (fun _ => false) p input [] msgs h (.inl rfl) todo htodo with
    ⟨p', handled, left, hsplit, -, hpending, hidle, -, heq⟩ | ⟨-, -, hne, -⟩ |
    ⟨-, -, m, -, -, -, hends, -⟩
  · exact ⟨p', handled, left, hsplit, hpending, hidle, heq⟩
  · exact absurd rfl hne
  · cases hends

theorem LinkInv.read (h : LinkInv s) (more : Nat) :
    LinkInv (s.read more) ∧ (s.transit ≠ [] → (s.read more).transit.length < s.transit.length) := by
  obtain ⟨left, hsent, hidle, hpending⟩ := h.left
  have hnow := hpending [] rfl
  rw [List.append_nil] at hnow
  rcases hnow.makeRoom hidle with ⟨p, hroom, -, -, hspace⟩ | ⟨e, -, rfl, hlen⟩
  · obtain ⟨hvalid, hsize, havail, -⟩ := hnow.valid.makeRoom hroom
    have hcount : p.readCount s.transit more ≤ p.size - p.readEnd ∧
        p.readCount s.transit more ≤ s.transit.length ∧
        (s.transit ≠ [] → 0 < p.readCount s.transit more) := by
      unfold PipeIn.readCount
      refine ⟨by omega, by omega, fun hne => ?_⟩
      have hpos := List.length_pos_iff.mpr hne
      omega
    unfold PipeLink.read
    rw [hroom]
    dsimp only
    generalize p.readCount s.transit more = count at *
    have htake : (s.transit.take count).length = count := by
      rw [List.length_take]
      omega
    obtain ⟨hvalid', havail'⟩ := hvalid.append (by rw [htake]; exact hcount.1)
    have htodo : (p.append (s.transit.take count)).avail.length ≤ p.readEnd + count - p.cur := by
      have hcur := hvalid.cur_le
      rw [havail', List.length_append, htake, PipeIn.avail_length]
      omega
    have hgot : ∀ more, messagesOk s.writer.size more = true →
        PipePending (p.append (s.transit.take count))
          (s.transit.drop count ++ s.writer.pending ++ more.flatten) (left ++ more) [] := by
      intro more hmore
      obtain ⟨-, hok, hbytes⟩ := hpending more hmore
      refine ⟨hvalid', by rw [← hsize] at hok; exact hok, ?_⟩
      rw [← hbytes, havail', havail]
      simp only [List.append_assoc]
      rw [← List.append_assoc (s.transit.take count), List.take_append_drop]
    obtain ⟨p', handled, left', hsplit, -, hidle', heq⟩ := (hgot [] rfl).handle_never htodo
    rw [List.append_nil] at hsplit
    rw [heq]
    refine ⟨⟨h.writer, h.alive, h.mark, rfl, left', ?_, hidle', fun more hmore => ?_⟩, fun hne => ?_⟩
    · dsimp only
      rw [hsent, hsplit, List.append_assoc]
    · obtain ⟨q, handled', left'', hsplit', hpending', -, heq'⟩ :=
        (hgot more hmore).handle_never htodo
      rw [heq] at heq'
      cases heq'
      rw [hsplit, List.append_assoc] at hsplit'
      rw [List.append_cancel_left hsplit']
      exact hpending'
    · have hpos := hcount.2.2 hne
      rw [List.length_drop]
      omega
  · have hbytes := hnow.bytes
    simp only [List.flatten_nil, List.append_nil, List.append_eq_nil_iff] at hbytes
    rw [hbytes.1] at hlen
    cases hlen

theorem linkStep_inv {a : LinkAct} (h : LinkInv s) (hfits : a.fits s = true)
    (hs : linkStep s a = some s') : LinkInv s' := by
  unfold linkStep at hs
  rw [if_pos ⟨h.alive, h.reading⟩] at hs
  cases a with
  | send space msg =>
    cases hs
    simp only [LinkAct.fits, Bool.and_eq_true, decide_eq_true_eq, Bool.not_eq_true'] at hfits
    obtain ⟨⟨hlen, hspace, hstep, hheader, haligned, hlength⟩, hplain⟩ := hfits
    have hpos : 0 < msg.length := Nat.lt_of_lt_of_le (by decide) hheader
    refine h.wrote (send_wrote h.writer h.alive h.mark hlen hspace hpos hstep) fun more hmore => ?_
    have hok : messageOk s.writer.size msg = true :=
      decide_eq_true ⟨hheader, haligned, hlength, hlen.trans hspace, fun hre => by
        rw [hplain] at hre
        cases hre⟩
    have hafter : sizeAfter s.writer.size msg = s.writer.size := by
      rw [sizeAfter, hplain]
      rfl
    change (messageOk s.writer.size msg && messagesOk (sizeAfter s.writer.size msg) more) = true
    rw [hok, hafter, hmore]
    rfl
  | flush =>
    cases hs
    exact h.wrote (flush_wrote h.writer h.alive h.mark) fun _ hmore => hmore
  | setMaxMessageSize size =>
    cases hs
    have hsize := of_decide_eq_true hfits
    by_cases hgrow : wantedSize size < s.writer.size
    · rw [if_pos hgrow, ExtPipeBuf.setMaxMessageSize, if_pos hgrow]
      exact h.wrote ⟨h.writer, h.alive, h.mark, by simp, List.prefix_rfl, rfl⟩ fun _ hmore => hmore
    · rw [if_neg hgrow]
      refine h.wrote (setMaxMessageSize_wrote h.writer h.alive h.mark hsize hgrow)
        fun more hmore => ?_
      obtain ⟨hok, hafter⟩ := resizeMessage_ok h.mark.size (Nat.not_lt.mp hgrow) (wantedSize_lt size)
      change (messageOk s.writer.size _ && messagesOk (sizeAfter s.writer.size _) more) = true
      rw [hok, hafter, hmore]
      rfl
  | read more =>
    dsimp only at hs
    split at hs
    · cases hs
    · cases hs
      exact (h.read more).1

end Link

structure LinkSound (s : PipeLink) : Prop where
  writer : s.writer.error = none
  reader : s.failed = none
  order : s.handed <+: s.sent
  /-- As long as there is something in the pipe the reader gets on. -/
  progress : s.transit ≠ [] → ∀ more, ∃ s', linkStep s (.read more) = some s' ∧
    s'.transit.length < s.transit.length
  /-- With everything written and read there is no message left. -/
  complete : s.writer.beginWrite = s.writer.cur → s.transit = [] → s.handed = s.sent

theorem LinkInv.sound {s : PipeLink} (h : LinkInv s) : LinkSound s := by
  obtain ⟨left, hsent, hidle, hpending⟩ := h.left
  refine ⟨h.alive, h.reading, ⟨left, hsent.symm⟩, fun hne more => ?_, fun hflushed hempty => ?_⟩
  · refine ⟨s.read more, ?_, (h.read more).2 hne⟩
    unfold linkStep
    rw [if_pos ⟨h.alive, h.reading⟩]
    exact if_neg hne
  · have hbytes := (hpending [] rfl).bytes
    have hnone : s.writer.pending = [] := by
      rw [ExtPipeBuf.pending, hflushed, Nat.sub_self, readCells_zero]
    cases left with
    | nil => rw [hsent, List.append_nil]
    | cons m left =>
      have hlt := hidle m left rfl
      have hlen := congrArg List.length hbytes
      simp only [hempty, hnone, List.append_nil, List.flatten_nil, List.flatten_cons,
        List.length_append] at hlen
      omega

/-- In any order of the steps of both processes, with the buffers resized at any time, no side fails,
and the messages are handed out in order, each once and whole. -/
theorem pipe_link_sound {mem : Nat → UInt8} {acts : List LinkAct} {s : PipeLink}
    (hfits : StepsMeet linkStep (fun s a => a.fits s = true) (linkInit mem) acts)
    (h : runSteps linkStep (linkInit mem) acts = some s) : LinkSound s :=
  (runSteps_inv_of_meet (fun _ _ _ hi hf hs => linkStep_inv hi hf hs) (linkInit_inv mem) hfits
    h).sound

def linkDemo : List LinkAct :=
  [.send 12 [0x76, 0xc3, 0, 8, 0, 0, 0, 8], .flush, .read 4, .setMaxMessageSize 100, .read 10,
    .read 50, .send 8 [0x76, 0xc3, 0, 9, 0, 0, 0, 8]]

theorem pipe_link_sound_demo :
    ∃ s, runSteps linkStep (linkInit fun _ => 0) linkDemo = some s ∧
      s.handed = [[0x76, 0xc3, 0, 8, 0, 0, 0, 8], resizeMessage 0x40000] ∧ LinkSound s := by
  have hrun : ((runSteps linkStep (linkInit fun _ => 0) linkDemo).map PipeLink.handed) =
      some [[0x76, 0xc3, 0, 8, 0, 0, 0, 8], resizeMessage 0x40000] := by
    decide +kernel
  obtain ⟨s, hs, hhanded⟩ := Option.map_eq_some_iff.mp hrun
  exact ⟨s, hs, hhanded, pipe_link_sound (stepsMeet_of_check (by decide +kernel)) hs⟩

end Ucesb
