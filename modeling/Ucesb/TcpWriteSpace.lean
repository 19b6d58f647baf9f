import Ucesb.TcpWrite

namespace Ucesb

def streamEvents (stream : List OutBuffer) : List Nat := stream.flatMap (·.events)

/-- The first buffer of a stream does not start with the continuation of an event. -/
def StartsWhole (stream : List OutBuffer) : Prop := ∀ b ∈ stream.head?, b.hEnd = false

def NoneSpans (streams : List (List OutBuffer)) : Prop :=
  streams.Pairwise fun a b => ∀ n ∈ streamEvents a, n ∉ streamEvents b

structure Marks (streams : List (List OutBuffer)) (calls : Nat) : Prop where
  starts : ∀ stream ∈ streams, StartsWhole stream
  spans : NoneSpans streams
  known : ∀ stream ∈ streams, ∀ n ∈ streamEvents stream, n < calls

section Marks

variable {streams : List (List OutBuffer)} {stream bufs : List OutBuffer} {b b' : OutBuffer}
  {calls calls' n : Nat}

theorem streamEvents_append (stream more : List OutBuffer) :
    streamEvents (stream ++ more) = streamEvents stream ++ streamEvents more :=
  List.flatMap_append

theorem streamEvents_singleton (b : OutBuffer) : streamEvents [b] = b.events := by
  simp [streamEvents]

theorem startsWhole_append (h : stream ≠ []) (more : List OutBuffer) :
    StartsWhole (stream ++ more) ↔ StartsWhole stream := by
  cases stream with
  | nil => exact absurd rfl h
  | cons b stream => rfl

theorem marks_nil (calls : Nat) : Marks [] calls where
  starts _ h := by cases h
  spans := List.Pairwise.nil
  known _ h := by cases h

theorem Marks.mono (h : Marks streams calls) (hle : calls ≤ calls') : Marks streams calls' where
  starts := h.starts
  spans := h.spans
  known stream hs n hn := Nat.lt_of_lt_of_le (h.known stream hs n hn) hle

theorem marks_snoc (h : Marks streams calls) (hstart : StartsWhole stream)
    (hknown : ∀ n ∈ streamEvents stream, n < calls)
    (hnew : ∀ a ∈ streams, ∀ n ∈ streamEvents a, n ∉ streamEvents stream) :
    Marks (streams ++ [stream]) calls where
  starts a ha := by
    rcases List.mem_append.mp ha with ha | ha
    · exact h.starts a ha
    · rw [List.mem_singleton.mp ha]
      exact hstart
  spans := by
    refine List.pairwise_append.mpr ⟨h.spans, List.pairwise_singleton _ _, ?_⟩
    intro a ha c hc
    rw [List.mem_singleton.mp hc]
    exact hnew a ha
  known a ha := by
    rcases List.mem_append.mp ha with ha | ha
    · exact h.known a ha
    · rw [List.mem_singleton.mp ha]
      exact hknown

theorem Marks.init (h : Marks (streams ++ [stream]) calls) : Marks streams calls where
  starts a ha := h.starts a (List.mem_append_left _ ha)
  spans := (List.pairwise_append.mp h.spans).1
  known a ha := h.known a (List.mem_append_left _ ha)

theorem Marks.last (h : Marks (streams ++ [stream]) calls) :
    StartsWhole stream ∧ (∀ n ∈ streamEvents stream, n < calls) ∧
      ∀ a ∈ streams, ∀ n ∈ streamEvents a, n ∉ streamEvents stream := by
  have hmem : stream ∈ streams ++ [stream] := List.mem_append_right _ (List.mem_singleton.mpr rfl)
  refine ⟨h.starts stream hmem, h.known stream hmem, fun a ha => ?_⟩
  exact (List.pairwise_append.mp h.spans).2.2 a ha stream (List.mem_singleton.mpr rfl)

theorem Marks.newStream (h : Marks streams calls) :
    Marks (streams ++ [[OutBuffer.empty]]) calls := by
  refine marks_snoc h ?_ ?_ ?_
  · intro b hb
    cases hb
    rfl
  · intro n hn
    rw [streamEvents_singleton] at hn
    cases hn
  · intro a _ n _ hn
    rw [streamEvents_singleton] at hn
    cases hn

theorem Marks.nextBuffer (h : Marks (streams ++ [stream]) calls) (hne : stream ≠ [])
    (hb : b.events = []) : Marks (streams ++ [stream ++ [b]]) calls := by
  obtain ⟨hstart, hknown, hnew⟩ := h.last
  have hevents : streamEvents (stream ++ [b]) = streamEvents stream := by
    rw [streamEvents_append, streamEvents_singleton, hb, List.append_nil]
  refine marks_snoc h.init ((startsWhole_append hne _).mpr hstart) ?_ ?_
  · rw [hevents]
    exact hknown
  · rw [hevents]
    exact hnew

theorem Marks.note (h : Marks (streams ++ [bufs ++ [b]]) calls) (hend : b'.hEnd = b.hEnd)
    (hevents : b'.events = b.events ++ [n]) (hn : n < calls)
    (hnew : ∀ a ∈ streams, n ∉ streamEvents a) : Marks (streams ++ [bufs ++ [b']]) calls := by
  obtain ⟨hstart, hknown, hold⟩ := h.last
  have he : streamEvents (bufs ++ [b']) = streamEvents (bufs ++ [b]) ++ [n] := by
    rw [streamEvents_append, streamEvents_append, streamEvents_singleton, streamEvents_singleton,
      hevents, List.append_assoc]
  refine marks_snoc h.init ?_ ?_ ?_
  · cases bufs with
    | nil =>
      intro c hc
      cases hc
      rw [hend]
      exact hstart b rfl
    | cons a bufs => exact hstart
  · intro m hm
    rw [he] at hm
    rcases List.mem_append.mp hm with hm | hm
    · exact hknown m hm
    · rw [List.mem_singleton.mp hm]
      exact hn
  · intro a ha m hm hm'
    rw [he] at hm'
    rcases List.mem_append.mp hm' with hm' | hm'
    · exact hold a ha m hm hm'
    · rw [List.mem_singleton.mp hm'] at hm
      exact hnew a ha hm

end Marks

def WriteStop.Tolerated : WriteStop → Prop
  | .sticky _ => True
  | .tooLarge => True
  | .odd => True
  | .align => True
  | .space => False
  | .crash => False
  | .spin => False

namespace StreamConf

variable (conf : StreamConf)

def payload : Nat := conf.bufSize - sizeofBufhe

def extra : Nat := conf.bufSize - (sizeofBufhe + sizeofEventHeader)

def streamMax : Nat := conf.payload + (conf.streamBufs - 1) * conf.extra

theorem streamBufs_pos : 0 < conf.streamBufs := Nat.pos_of_mul_pos_right conf.size_pos

theorem bufSize_ge : 1024 ≤ conf.bufSize :=
  Nat.le_of_dvd (Nat.pos_of_mul_pos_left conf.size_pos) conf.bufSize_block

theorem payload_eq : conf.payload = conf.extra + sizeofEventHeader := by
  have hge := conf.bufSize_ge
  rw [payload, extra, sizeofBufhe, sizeofEventHeader]
  omega

theorem bufSize_eq : conf.bufSize = conf.extra + 56 := by
  have hge := conf.bufSize_ge
  rw [extra, sizeofBufhe, sizeofEventHeader]
  omega

theorem buffers_le {k : Nat} (h : k ≤ conf.streamBufs) : k * conf.bufSize ≤ 0xffff0000 :=
  Nat.le_trans (Nat.mul_le_mul_right _ h) conf.size_le

theorem newStream_space : sizeDiff (conf.streamBufs * (conf.bufSize - sizeofBufhe))
    ((conf.streamBufs - 1) * sizeofEventHeader) = conf.streamMax := by
  obtain ⟨m, hm⟩ := Nat.exists_eq_add_one_of_ne_zero (Nat.ne_of_gt conf.streamBufs_pos)
  have hle := conf.size_le
  have hp : conf.bufSize - sizeofBufhe = conf.extra + 8 := conf.payload_eq
  rw [conf.bufSize_eq, hm] at hle
  have hbig : (m + 1) * (conf.extra + 56) = m * conf.extra + 56 * m + conf.extra + 56 := by ring
  have hall : (m + 1) * (conf.extra + 8) = m * conf.extra + 8 * m + conf.extra + 8 := by ring
  rw [streamMax, payload, hp, hm, Nat.add_sub_cancel, hall, sizeofEventHeader, sizeDiff_eq]
  · omega
  · omega
  · omega

theorem streamMax_lt : conf.streamMax < 2 ^ 64 := by
  obtain ⟨m, hm⟩ := Nat.exists_eq_add_one_of_ne_zero (Nat.ne_of_gt conf.streamBufs_pos)
  have hle := conf.size_le
  rw [conf.bufSize_eq, hm] at hle
  have hbig : (m + 1) * (conf.extra + 56) = m * conf.extra + 56 * m + conf.extra + 56 := by ring
  rw [streamMax, payload_eq, hm, Nat.add_sub_cancel, sizeofEventHeader]
  omega

theorem sameStream_space {k : Nat} (hk : k < conf.streamBufs) :
    sizeDiff (conf.streamBufs * conf.bufSize - k * conf.bufSize)
      (sizeofBufhe + ((conf.streamBufs * conf.bufSize - k * conf.bufSize) / conf.bufSize - 1) *
        (sizeofBufhe + sizeofEventHeader)) =
      conf.payload + (conf.streamBufs - 1 - k) * conf.extra := by
  obtain ⟨j, hj⟩ := Nat.exists_eq_add_of_lt hk
  have hle := conf.buffers_le (show j + 1 ≤ conf.streamBufs by omega)
  have hleft : conf.streamBufs * conf.bufSize - k * conf.bufSize = (j + 1) * conf.bufSize := by
    rw [← Nat.sub_mul]
    congr 1
    omega
  have hdiv : (j + 1) * conf.bufSize / conf.bufSize = j + 1 :=
    Nat.mul_div_cancel _ (Nat.lt_of_lt_of_le (by omega) conf.bufSize_ge)
  have hk' : conf.streamBufs - 1 - k = j := by omega
  rw [hleft, hdiv, hk', Nat.add_sub_cancel]
  rw [conf.bufSize_eq] at hle ⊢
  have hbig : (j + 1) * (conf.extra + 56) = j * conf.extra + 56 * j + conf.extra + 56 := by ring
  rw [payload_eq, hbig, sizeofBufhe, sizeofEventHeader, sizeDiff_eq]
  · omega
  · omega
  · omega

end StreamConf

/-- The writer is at a buffer of a stream, after the buffers `bufs`. -/
structure InStream (conf : StreamConf) (s : TcpWriter) (bufs : List OutBuffer) (b : OutBuffer) :
    Prop where
  fill : s.fill = some (bufs.length * conf.bufSize, bufs)
  cur : s.cur = some b
  room : bufs.length < conf.streamBufs
  left_le : s.curBufLeft ≤ conf.payload
  stream : s.streamLeft = s.curBufLeft + (conf.streamBufs - 1 - bufs.length) * conf.extra
  max : s.streamLeftMax = conf.streamMax

def AtStart (s : TcpWriter) : Prop := s.fill = none ∧ s.cur = none ∧ s.curBufLeft = 0

def TcpWriter.streams (s : TcpWriter) : List (List OutBuffer) :=
  s.sent ++ match s.fill, s.cur with
    | some (_, bufs), some b => [bufs ++ [b]]
    | _, _ => []

section Buffers

variable {conf : StreamConf} {s s' s'' : TcpWriter} {bufs : List OutBuffer} {b b' : OutBuffer}

theorem InStream.streams (h : InStream conf s bufs b) : s.streams = s.sent ++ [bufs ++ [b]] := by
  rw [TcpWriter.streams, h.fill, h.cur]

theorem AtStart.streams (h : AtStart s) : s.streams = s.sent := by
  rw [TcpWriter.streams, h.1]
  exact List.append_nil _

theorem InStream.fresh (h : InStream conf s bufs b) (hmax : s.streamLeft = s.streamLeftMax) :
    s.curBufLeft = conf.payload := by
  have hle := h.left_le
  have hk : (conf.streamBufs - 1 - bufs.length) * conf.extra ≤
      (conf.streamBufs - 1) * conf.extra := Nat.mul_le_mul_right _ (Nat.sub_le _ _)
  rw [h.stream, h.max, StreamConf.streamMax] at hmax
  omega

theorem InStream.streamLeft_lt (h : InStream conf s bufs b) : s.streamLeft < 2 ^ 64 := by
  have hle := h.left_le
  have hmax := conf.streamMax_lt
  have hk : (conf.streamBufs - 1 - bufs.length) * conf.extra ≤
      (conf.streamBufs - 1) * conf.extra := Nat.mul_le_mul_right _ (Nat.sub_le _ _)
  rw [StreamConf.streamMax] at hmax
  rw [h.stream]
  omega

theorem InStream.modifyCur (h : InStream conf s bufs b) (f : OutBuffer → OutBuffer) :
    InStream conf (s.modifyCur f) bufs (f b) where
  fill := h.fill
  cur := by rw [TcpWriter.modifyCur, h.cur]; rfl
  room := h.room
  left_le := h.left_le
  stream := h.stream
  max := h.max

structure NextIn (conf : StreamConf) (s s' : TcpWriter) (bufs : List OutBuffer) : Prop where
  place : InStream conf s' bufs .empty
  left : s'.curBufLeft = conf.payload
  calls : s'.calls = s.calls
  answers : s'.answers = s.answers

theorem nextBuffer_eq (hsend : s.sendBuffer conf = .ok s') (hget : s'.getBuffer conf = .ok s'') :
    s.nextBuffer conf =
      .ok { s'' with cur := some .empty, curBufLeft := conf.bufSize - sizeofBufhe } := by
  unfold TcpWriter.nextBuffer
  rw [hsend]
  show (s'.getBuffer conf >>= _) = _
  rw [hget]
  rfl

theorem nextBuffer_within (h : InStream conf s bufs b)
    (hroom : bufs.length + 1 < conf.streamBufs) :
    ∃ s', s.nextBuffer conf = .ok s' ∧ NextIn conf s s' (bufs ++ [b]) ∧ s'.sent = s.sent := by
  have hlt := Nat.mul_lt_mul_of_pos_right hroom (Nat.lt_of_lt_of_le (by omega) conf.bufSize_ge)
  have hone : (bufs.length + 1) * conf.bufSize = bufs.length * conf.bufSize + conf.bufSize :=
    Nat.succ_mul _ _
  have hsend : s.sendBuffer conf =
      .ok { s with fill := some ((bufs.length + 1) * conf.bufSize, bufs ++ [b]) } := by
    rw [TcpWriter.sendBuffer, h.cur, h.fill]
    dsimp only
    rw [if_neg (by omega), hone]
  have hget : TcpWriter.getBuffer conf
      { s with fill := some ((bufs.length + 1) * conf.bufSize, bufs ++ [b]) } = .ok
      { s with
        fill := some ((bufs.length + 1) * conf.bufSize, bufs ++ [b])
        streamLeft := conf.payload + (conf.streamBufs - 1 - (bufs.length + 1)) * conf.extra } := by
    rw [TcpWriter.getBuffer]
    dsimp only
    rw [errorIf, if_neg (by omega), conf.sameStream_space hroom]
    rfl
  have hlength : (bufs ++ [b]).length = bufs.length + 1 := by
    rw [List.length_append, List.length_singleton]
  refine ⟨_, nextBuffer_eq hsend hget, ⟨⟨?_, rfl, ?_, Nat.le_refl _, ?_, h.max⟩, rfl, rfl, rfl⟩,
    rfl⟩
  · rw [hlength]
  · rw [hlength]
    exact hroom
  · rw [hlength]
    rfl

theorem nextBuffer_new (hsend : s.sendBuffer conf = .ok s') (hfill : s'.fill = none) :
    ∃ s'', s.nextBuffer conf = .ok s'' ∧ NextIn conf s' s'' [] ∧ s''.sent = s'.sent := by
  have hget : s'.getBuffer conf = .ok { s' with
      fill := some (0, [])
      streamLeft := conf.streamMax
      streamLeftMax := conf.streamMax } := by
    rw [TcpWriter.getBuffer, hfill]
    dsimp only
    rw [conf.newStream_space]
  refine ⟨_, nextBuffer_eq hsend hget, ⟨⟨?_, rfl, conf.streamBufs_pos, Nat.le_refl _, rfl, rfl⟩,
    rfl, rfl, rfl⟩, rfl⟩
  rw [List.length_nil, Nat.zero_mul]

theorem nextBuffer_turn (h : InStream conf s bufs b)
    (hlast : bufs.length + 1 = conf.streamBufs) :
    ∃ s', s.nextBuffer conf = .ok s' ∧ NextIn conf s s' [] ∧
      s'.sent = s.sent ++ [bufs ++ [b]] := by
  have hone : (bufs.length + 1) * conf.bufSize = bufs.length * conf.bufSize + conf.bufSize :=
    Nat.succ_mul _ _
  have hsend : s.sendBuffer conf =
      .ok { s with sent := s.sent ++ [bufs ++ [b]], fill := none } := by
    rw [TcpWriter.sendBuffer, h.cur, h.fill]
    dsimp only
    rw [if_pos (by rw [← hlast, hone])]
  obtain ⟨s', hs', hnext, hsent⟩ := nextBuffer_new hsend rfl
  exact ⟨s', hs', ⟨hnext.place, hnext.left, hnext.calls, hnext.answers⟩, hsent⟩

theorem nextBuffer_start (h : AtStart s) :
    ∃ s', s.nextBuffer conf = .ok s' ∧ NextIn conf s s' [] ∧ s'.sent = s.sent := by
  have hsend : s.sendBuffer conf = .ok s := by
    rw [TcpWriter.sendBuffer, h.2.1]
  exact nextBuffer_new hsend h.1

structure Copied (conf : StreamConf) (bufs : List OutBuffer) (b : OutBuffer) (s : TcpWriter)
    (b' : OutBuffer) (s' : TcpWriter) (n : Nat) : Prop where
  place : InStream conf s' bufs b'
  hEnd : b'.hEnd = b.hEnd
  events : b'.events = b.events
  left : s'.curBufLeft + n = s.curBufLeft
  sent : s'.sent = s.sent
  calls : s'.calls = s.calls

theorem Copied.trans {n n' : Nat} {b'' : OutBuffer} (h : Copied conf bufs b s b' s' n)
    (h' : Copied conf bufs b' s' b'' s'' n') : Copied conf bufs b s b'' s'' (n + n') where
  place := h'.place
  hEnd := h'.hEnd.trans h.hEnd
  events := h'.events.trans h.events
  left := by
    have hl := h.left
    have hl' := h'.left
    omega
  sent := h'.sent.trans h.sent
  calls := h'.calls.trans h.calls

theorem copyToBuffer_ends {data : List UInt8} {swap : Bool} (h : InStream conf s bufs b)
    (hfit : data.length ≤ s.curBufLeft) :
    Ends WriteStop.Tolerated (fun s' => ∃ b', Copied conf bufs b s b' s' data.length)
      (s.copyToBuffer data swap) := by
  unfold TcpWriter.copyToBuffer
  refine ends_bind (ends_errorIf fun hlt => absurd hlt (by omega)) ?_
  intro u _
  refine ends_bind (ends_errorIf fun _ => trivial) ?_
  intro u _
  have hpay := h.left_le
  have hbig := h.streamLeft_lt
  have hin := h.modifyCur fun b => { b with data := b.data ++ swapIf swap data }
  refine ⟨_, ⟨hin.fill, hin.cur, hin.room, ?_, ?_, hin.max⟩, rfl, rfl, ?_, rfl, rfl⟩
  · show s.curBufLeft - data.length ≤ _
    omega
  · show sizeDiff s.streamLeft data.length = s.curBufLeft - data.length + _
    have hs := h.stream
    rw [sizeDiff_eq (by omega) (by omega)]
    omega
  · show s.curBufLeft - data.length + data.length = s.curBufLeft
    omega

theorem copyChunk_ends {c : BufChunkSwap} (h : InStream conf s bufs b)
    (hfit : c.data.length ≤ s.curBufLeft) :
    Ends WriteStop.Tolerated (fun s' => ∃ b', Copied conf bufs b s b' s' c.data.length)
      (s.copyChunk conf c) := copyToBuffer_ends h hfit

theorem copyHeader_ends {header : LmdEventHeader} {size : Nat} (h : InStream conf s bufs b)
    (hfit : sizeofEventHeader ≤ s.curBufLeft) :
    Ends WriteStop.Tolerated (fun s' => ∃ b', Copied conf bufs b s b' s' sizeofEventHeader)
      (s.copyHeader conf header size) := copyToBuffer_ends h hfit

theorem chunksLength_cons (c : BufChunkSwap) (cs : List BufChunkSwap) :
    chunksLength (c :: cs) = c.data.length + chunksLength cs := by
  rw [chunksLength, chunksLength, List.map_cons, List.sum_cons]

theorem fillBuffer_ends {rest : List BufChunkSwap} (h : InStream conf s bufs b)
    (hlong : s.curBufLeft < chunksLength rest) :
    Ends WriteStop.Tolerated (fun r => ∃ b', Copied conf bufs b s b' r.1 s.curBufLeft ∧
        chunksLength r.2 + s.curBufLeft = chunksLength rest)
      (s.fillBuffer conf rest) := by
  induction rest generalizing s b with
  | nil => exact absurd hlong (Nat.not_lt_zero _)
  | cons c more ih =>
    rw [TcpWriter.fillBuffer]
    rw [chunksLength_cons] at hlong ⊢
    split
    next hlt =>
      have htake : (c.data.take s.curBufLeft).length = s.curBufLeft := by
        rw [List.length_take]
        omega
      have hcopy := copyChunk_ends h
        (show (BufChunkSwap.mk (c.data.take s.curBufLeft) c.swapping).data.length ≤ _ from
          Nat.le_of_eq htake)
      refine ends_bind hcopy ?_
      rintro s' ⟨b', hs'⟩
      rw [htake] at hs'
      refine ⟨b', hs', ?_⟩
      rw [chunksLength_cons, List.length_drop]
      omega
    next hge =>
      refine ends_bind (copyChunk_ends h (Nat.not_lt.mp hge)) ?_
      rintro s' ⟨b', hs'⟩
      have hleft := hs'.left
      refine ends_mono (ih hs'.place (by omega)) (fun _ he => he) ?_
      rintro ⟨s'', rest'⟩ ⟨b'', hcopied, hlen⟩
      have hsum : c.data.length + s'.curBufLeft = s.curBufLeft := by omega
      rw [← hsum]
      exact ⟨b'', hs'.trans hcopied, by omega⟩

theorem copyChunks_ends {rest : List BufChunkSwap} (h : InStream conf s bufs b)
    (hfit : chunksLength rest ≤ s.curBufLeft) :
    Ends WriteStop.Tolerated (fun s' => ∃ b', Copied conf bufs b s b' s' (chunksLength rest))
      (rest.foldlM (TcpWriter.copyChunk conf) s) := by
  induction rest generalizing s b with
  | nil => exact ⟨b, h, rfl, rfl, rfl, rfl, rfl⟩
  | cons c more ih =>
    rw [chunksLength_cons] at hfit ⊢
    rw [List.foldlM_cons]
    refine ends_bind (copyChunk_ends h (by omega)) ?_
    rintro s' ⟨b', hs'⟩
    have hleft := hs'.left
    refine ends_mono (ih hs'.place (by omega)) (fun _ he => he) ?_
    rintro s'' ⟨b'', hs''⟩
    exact ⟨b'', hs'.trans hs''⟩

end Buffers

end Ucesb
