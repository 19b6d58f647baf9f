import Ucesb.LmdRecordSafe

namespace Ucesb

inductive EventError
  | eventHeader
  | eventLarger
  | fragmentLarger
  | fragmentRecord
  | nextRecord
  | swappingChanged
  | fragmentHeader
  | fragmentType
  | finalLarger
  | eventCount
  | finalRecord
deriving DecidableEq

inductive EventStop
  /-- `get_event` returns no event; with `_close_is_error` this is reported. -/
  | eof
  | error (e : EventError)
  /-- `read_record` stops. -/
  | record (e : RecordStop)
  | assertion
  /-- There are no more turns. -/
  | endless
deriving DecidableEq

/-- `lmd_event`, as `get_event` leaves it. -/
structure SourceEvent where
  header : LmdEventHeader
  swapping : Bool
  hasSticky : Bool
  chunks : List (List UInt8)
deriving DecidableEq

/-- A call of `read_record`; for an event that goes on, the end of the file is an error. -/
def getRecord (inp : InputBuffer) (s : LmdSource) (expectFragment : Bool) :
    Except EventStop LmdSource :=
  match readRecord inp s expectFragment with
  | .ok s' => .ok s'
  | .error .eof => .error (if expectFragment then .error .nextRecord else .eof)
  | .error e => .error (.record e)

def findRecord (inp : InputBuffer) : Nat → LmdSource → Except EventStop LmdSource
  | 0, _ => .error .endless
  | fuel + 1, s =>
    if s.chunks = [] then do
      let s' ← getRecord inp s false
      findRecord inp fuel s'
    else .ok s

def getEventHeader (s : LmdSource) (e : EventError) :
    Except EventStop (LmdEventHeader × LmdSource) :=
  match getRange sizeofEventHeader s.chunks with
  | none => .error (.error e)
  | some (raw, rest) =>
    .ok (LmdEventHeader.decode (swapIf s.swapping raw), { s with chunks := rest })

/-- `copy_range`, which copies all there is. -/
def copyRange (src : List (List UInt8)) : Except EventStop (List (List UInt8)) :=
  if 2 < src.length then .error .assertion else .ok src

/-- An event that is being put together: `size` bytes are in the buffer at hand, and `total` bytes
of the event from there on. -/
structure Gathering where
  source : LmdSource
  chunks : List (List UInt8)
  size : Nat
  total : Nat

/-- One turn of the loop over the fragments: the fragment of this buffer is taken, and the header
of the next one is read. The second component tells if that is the last one. -/
def addFragment (inp : InputBuffer) (header : LmdEventHeader) (swapping : Bool) (g : Gathering) :
    Except EventStop (Gathering × Bool) := do
  errorIf (g.total < g.size) (.error .fragmentLarger)
  let cs ← copyRange g.source.chunks
  errorIf (cs.flatten.length ≠ g.size) (.error .fragmentRecord)
  let s ← getRecord inp g.source true
  errorIf (s.swapping ≠ swapping) (.error .swappingChanged)
  let r ← getEventHeader s .fragmentHeader
  errorIf (r.1.iType ≠ header.iType ∨ r.1.iSubtype ≠ header.iSubtype) (.error .fragmentType)
  let g' : Gathering :=
    ⟨r.2, g.chunks ++ cs, lengthFromDlen32 r.1.lDlen, g.total - g.size⟩
  if g'.size = g'.total then return (g', true)
  else if r.2.header.hBegin = 0 then do
    errorIf (g'.total < g'.size) (.error .finalLarger)
    return (g', true)
  else do
    errorIf (r.2.eventsLeft ≠ 1) (.error .eventCount)
    return (g', false)

def gatherFragments (inp : InputBuffer) (header : LmdEventHeader) (swapping : Bool) :
    Nat → Gathering → Except EventStop Gathering
  | 0, _ => .error .endless
  | fuel + 1, g => do
    let r ← addFragment inp header swapping g
    if r.2 then return r.1 else gatherFragments inp header swapping fuel r.1

def takeData (s : LmdSource) (size : Nat) (e : EventError) :
    Except EventStop (List (List UInt8) × LmdSource) :=
  match getRangeChunks size s.chunks with
  | none => .error (.error e)
  | some (cs, rest) => .ok (cs, { s with chunks := rest })

/-- The event at the cursor is the last one of the buffer, and is marked to go on. -/
def LmdSource.isFragmented (s : LmdSource) : Bool :=
  s.eventsLeft - 1 == 0 && s.header.hBegin != 0

def getEvent (inp : InputBuffer) (s : LmdSource) : Except EventStop (SourceEvent × LmdSource) := do
  let s ← findRecord inp (inp.stream.length + 1) s
  let r ← getEventHeader s .eventHeader
  let src := { r.2 with eventsLeft := s.eventsLeft - 1 }
  if s.isFragmented then do
    -- the header gets the length of the whole event
    let header := { r.1 with lDlen := s.header.lFree1 }
    let g ← gatherFragments inp header s.swapping (inp.stream.length + 1)
      ⟨src, [], lengthFromDlen32 r.1.lDlen, lengthFromDlen32 s.header.lFree1⟩
    let d ← takeData { g.source with eventsLeft := g.source.eventsLeft - 1 } g.size .finalRecord
    return (⟨header, s.swapping, s.firstBufSticky, g.chunks ++ d.1⟩, d.2)
  else do
    errorIf (2 < src.chunks.length) .assertion
    let d ← takeData src (lengthFromDlen32 r.1.lDlen) .eventLarger
    return (⟨r.1, s.swapping, s.firstBufSticky, d.1⟩, d.2)

section Progress

variable {inp : InputBuffer} {s s' : LmdSource} {expectFragment : Bool}

theorem getRecord_ok_iff :
    getRecord inp s expectFragment = .ok s' ↔ readRecord inp s expectFragment = .ok s' := by
  unfold getRecord
  cases readRecord inp s expectFragment with
  | ok s'' => simp
  | error e => cases e <;> simp

theorem getEventHeader_eq {e : EventError} {r : LmdEventHeader × LmdSource}
    (h : getEventHeader s e = .ok r) : ∃ raw rest,
      getRange sizeofEventHeader s.chunks = some (raw, rest) ∧
      r = (LmdEventHeader.decode (swapIf s.swapping raw), { s with chunks := rest }) := by
  unfold getEventHeader at h
  split at h
  next => cases h
  next raw rest hget => exact ⟨raw, rest, hget, (Except.ok.inj h).symm⟩

end Progress

section Fragments

variable {inp : InputBuffer} {header : LmdEventHeader} {swapping : Bool} {g g' : Gathering}

structure FragmentAdded (inp : InputBuffer) (g g' : Gathering) (last : Bool) : Prop where
  size_le : g.size ≤ g.total
  chunks : g'.chunks.flatten.length = g.chunks.flatten.length + g.size
  total : g'.total = g.total - g.size
  next : ∃ s' raw rest, readRecord inp g.source true = .ok s' ∧
    getRange sizeofEventHeader s'.chunks = some (raw, rest) ∧
    g'.source = { s' with chunks := rest } ∧
    g'.size = lengthFromDlen32 (LmdEventHeader.decode (swapIf s'.swapping raw)).lDlen
  last_iff : last = true ↔ g'.size = g'.total ∨ g'.source.header.hBegin = 0
  last_le : last = true → g'.size ≤ g'.total

theorem addFragment_spec {last : Bool} (h : addFragment inp header swapping g = .ok (g', last)) :
    FragmentAdded inp g g' last := by
  unfold addFragment at h
  obtain ⟨hle, h⟩ := errorIf_bind_ok.mp h
  obtain ⟨cs, hcs, h⟩ := bind_eq_ok.mp h
  obtain ⟨hlen, h⟩ := errorIf_bind_ok.mp h
  obtain ⟨s', hs', h⟩ := bind_eq_ok.mp h
  obtain ⟨-, h⟩ := errorIf_bind_ok.mp h
  obtain ⟨r, hr, h⟩ := bind_eq_ok.mp h
  obtain ⟨-, h⟩ := errorIf_bind_ok.mp h
  obtain ⟨raw, rest, hget, rfl⟩ := getEventHeader_eq hr
  have hnext := getRecord_ok_iff.mp hs'
  rw [not_not] at hlen
  have hchunks : (g.chunks ++ cs).flatten.length = g.chunks.flatten.length + g.size := by
    rw [List.flatten_append, List.length_append, hlen]
  dsimp only at h
  split at h
  next heq =>
    cases h
    exact ⟨Nat.not_lt.mp hle, hchunks, rfl, ⟨s', raw, rest, hnext, hget, rfl, rfl⟩,
      ⟨fun _ => .inl heq, fun _ => rfl⟩, fun _ => Nat.le_of_eq heq⟩
  next hne =>
    split at h
    next hb =>
      obtain ⟨hsize, h⟩ := errorIf_bind_ok.mp h
      cases h
      exact ⟨Nat.not_lt.mp hle, hchunks, rfl, ⟨s', raw, rest, hnext, hget, rfl, rfl⟩,
        ⟨fun _ => .inr hb, fun _ => rfl⟩, fun _ => Nat.not_lt.mp hsize⟩
    next hb =>
      obtain ⟨-, h⟩ := errorIf_bind_ok.mp h
      cases h
      refine ⟨Nat.not_lt.mp hle, hchunks, rfl, ⟨s', raw, rest, hnext, hget, rfl, rfl⟩, ?_, ?_⟩
      · simp [hne, hb]
      · simp

/-- The fragments are of `total` bytes from the buffer at hand on, as their headers say: where a
buffer is not marked to go on, its fragment is all that is missing. -/
def FragmentsAddUp (inp : InputBuffer) : Nat → LmdSource → Nat → Nat → Prop
  | 0, _, _, _ => True
  | fuel + 1, s, size, total =>
    ∀ s' raw rest, readRecord inp s true = .ok s' →
      getRange sizeofEventHeader s'.chunks = some (raw, rest) →
      lengthFromDlen32 (LmdEventHeader.decode (swapIf s'.swapping raw)).lDlen = total - size ∨
        s'.header.hBegin ≠ 0 ∧
          FragmentsAddUp inp fuel { s' with chunks := rest }
            (lengthFromDlen32 (LmdEventHeader.decode (swapIf s'.swapping raw)).lDlen)
            (total - size)

theorem fragmentsAddUp_succ {fuel : Nat} {last : Bool} (h : FragmentAdded inp g g' last) :
    FragmentsAddUp inp (fuel + 1) g.source g.size g.total ↔
      g'.size = g'.total ∨ g'.source.header.hBegin ≠ 0 ∧
        FragmentsAddUp inp fuel g'.source g'.size g'.total := by
  obtain ⟨s', raw, rest, hs', hget, hsrc, hsize⟩ := h.next
  rw [FragmentsAddUp, h.total, hsize, hsrc]
  constructor
  · intro hadd
    exact hadd s' raw rest hs' hget
  · intro hadd s'' raw' rest' hs'' hget'
    cases hs'.symm.trans hs''
    cases hget.symm.trans hget'
    exact hadd

theorem gatherFragments_spec {fuel : Nat}
    (h : gatherFragments inp header swapping fuel g = .ok g') :
    g'.chunks.flatten.length + g'.total = g.chunks.flatten.length + g.total ∧
      g'.size ≤ g'.total ∧
      (g'.size = g'.total ↔ FragmentsAddUp inp fuel g.source g.size g.total) := by
  induction fuel generalizing g with
  | zero => cases h
  | succ fuel ih =>
    rw [gatherFragments] at h
    obtain ⟨⟨g₁, last⟩, ha, h⟩ := bind_eq_ok.mp h
    have hadd := addFragment_spec ha
    have hle := hadd.size_le
    have hchunks := hadd.chunks
    have htotal := hadd.total
    rw [fragmentsAddUp_succ hadd]
    dsimp only at h
    split at h
    next hlast =>
      cases h
      refine ⟨by omega, hadd.last_le hlast, fun heq => .inl heq, ?_⟩
      rintro (heq | ⟨hb, -⟩)
      · exact heq
      · exact (hadd.last_iff.mp hlast).resolve_right hb
    next hmore =>
      obtain ⟨hlen, hsize, hiff⟩ := ih h
      have hnot := mt hadd.last_iff.mpr hmore
      rw [not_or] at hnot
      refine ⟨by omega, hsize, hiff.trans ⟨fun hf => .inr ⟨hnot.2, hf⟩, ?_⟩⟩
      rintro (heq | ⟨-, hf⟩)
      · exact absurd heq hnot.1
      · exact hf

end Fragments

section Event

variable {inp : InputBuffer} {s s' : LmdSource} {ev : SourceEvent}

/-- The length of the next event fits in 32 bits, and its fragments add up to it. -/
def WholeEvent (inp : InputBuffer) (s : LmdSource) : Prop :=
  ∀ first header src, findRecord inp (inp.stream.length + 1) s = .ok first →
    getEventHeader first .eventHeader = .ok (header, src) →
    if first.isFragmented then
      first.header.lFree1.toNat < 2 ^ 31 ∧
        FragmentsAddUp inp (inp.stream.length + 1) { src with eventsLeft := first.eventsLeft - 1 }
          (lengthFromDlen32 header.lDlen) (lengthFromDlen32 first.header.lFree1)
    else header.lDlen.toNat < 2 ^ 31

theorem takeData_spec {size : Nat} {e : EventError} {d : List (List UInt8) × LmdSource}
    (h : takeData s size e = .ok d) : d.1.flatten.length = size := by
  unfold takeData at h
  split at h
  next => cases h
  next cs rest hget =>
    cases h
    obtain ⟨hcs, -, hle⟩ := getRangeChunks_spec hget
    rw [hcs, List.length_take, Nat.min_eq_left hle]

theorem lengthFromDlen32_eq_iff (dlen : UInt32) :
    lengthFromDlen32 dlen = dlen.toNat * 2 ↔ dlen.toNat < 2 ^ 31 := by
  rw [lengthFromDlen32_eq]
  omega

/-- The data of an event that is delivered has the length that its header says exactly when that
length fits in 32 bits and the last fragment is not short. -/
theorem event_length_iff (h : getEvent inp s = .ok (ev, s')) :
    ev.chunks.flatten.length = ev.header.lDlen.toNat * 2 ↔ WholeEvent inp s := by
  unfold getEvent at h
  obtain ⟨first, hfirst, h⟩ := bind_eq_ok.mp h
  obtain ⟨⟨header, src⟩, hheader, h⟩ := bind_eq_ok.mp h
  have hwhole : WholeEvent inp s ↔ if first.isFragmented then
      first.header.lFree1.toNat < 2 ^ 31 ∧
        FragmentsAddUp inp (inp.stream.length + 1) { src with eventsLeft := first.eventsLeft - 1 }
          (lengthFromDlen32 header.lDlen) (lengthFromDlen32 first.header.lFree1)
      else header.lDlen.toNat < 2 ^ 31 := by
    constructor
    · intro hw
      exact hw first header src hfirst hheader
    · intro hw first' header' src' hfirst' hheader'
      cases hfirst.symm.trans hfirst'
      cases hheader.symm.trans hheader'
      exact hw
  rw [hwhole]
  dsimp only at h
  split at h
  next hfrag =>
    obtain ⟨g, hg, h⟩ := bind_eq_ok.mp h
    obtain ⟨d, hd, h⟩ := bind_eq_ok.mp h
    cases h
    obtain ⟨hlen, hle, hiff⟩ := gatherFragments_spec hg
    rw [if_pos hfrag, ← hiff, ← lengthFromDlen32_eq_iff, List.flatten_append, List.length_append,
      takeData_spec hd]
    have hge : lengthFromDlen32 first.header.lFree1 ≤ first.header.lFree1.toNat * 2 := by
      rw [lengthFromDlen32_eq]
      exact Nat.mod_le _ _
    simp only [List.flatten_nil, List.length_nil, Nat.zero_add] at hlen
    dsimp only
    omega
  next hfrag =>
    obtain ⟨-, h⟩ := errorIf_bind_ok.mp h
    obtain ⟨d, hd, h⟩ := bind_eq_ok.mp h
    cases h
    rw [if_neg hfrag, takeData_spec hd]
    exact lengthFromDlen32_eq_iff header.lDlen

end Event

def varsizeHeader : BufHeader :=
  { BufHeader.decode [] with iType := 100, iSubtype := 1, lBuf := 1, lEvt := 1 }

def shortFragmentInput : InputBuffer :=
  pipeInput ({ varsizeHeader with lDlen := 6, lFree2 := 6, hBegin := 1, lFree1 := 4 }.encode ++
    (LmdEventHeader.mk 2 10 1).encode ++ [1, 2, 3, 4] ++
    { varsizeHeader with lDlen := 5, lFree2 := 5, hEnd := 1, lBuf := 2 }.encode ++
    (LmdEventHeader.mk 1 10 1).encode ++ [5, 6]) (2 ^ 20)

def longEventInput : InputBuffer :=
  pipeInput ({ varsizeHeader with lDlen := 5, lFree2 := 5 }.encode ++
    (LmdEventHeader.mk 0x80000001 10 1).encode ++ [1, 2]) (2 ^ 20)

/-- What is delivered: the data, and the length that the header declares. -/
def delivered (inp : InputBuffer) : Option (List UInt8 × Nat) :=
  match getEvent inp lmdSourceInit with
  | .ok (ev, _) => some (ev.chunks.flatten, ev.header.lDlen.toNat * 2)
  | .error _ => none

theorem wrong_lengths_delivered :
    delivered shortFragmentInput = some ([1, 2, 3, 4, 5, 6], 8) ∧
      delivered longEventInput = some ([1, 2], 2 ^ 32 + 2) := by
  decide +kernel

def fragmentedInput : InputBuffer :=
  pipeInput ({ varsizeHeader with lDlen := 6, lFree2 := 6, hBegin := 1, lFree1 := 4 }.encode ++
    (LmdEventHeader.mk 2 10 1).encode ++ [1, 2, 3, 4] ++
    { varsizeHeader with lDlen := 6, lFree2 := 6, hEnd := 1, lBuf := 2 }.encode ++
    (LmdEventHeader.mk 2 10 1).encode ++ [5, 6, 7, 8]) (2 ^ 20)

theorem delivered_eq_some {inp : InputBuffer} {data : List UInt8} {declared : Nat}
    (h : delivered inp = some (data, declared)) : ∃ ev s',
      getEvent inp lmdSourceInit = .ok (ev, s') ∧ ev.chunks.flatten = data := by
  unfold delivered at h
  split at h
  next ev s' hget =>
    cases h
    exact ⟨ev, s', hget, rfl⟩
  next => cases h

theorem event_length_fragmented : ∃ ev s',
    getEvent fragmentedInput lmdSourceInit = .ok (ev, s') ∧
      ev.chunks.flatten = [1, 2, 3, 4, 5, 6, 7, 8] ∧
      (ev.chunks.flatten.length = ev.header.lDlen.toNat * 2 ↔
        WholeEvent fragmentedInput lmdSourceInit) := by
  have h : delivered fragmentedInput = some ([1, 2, 3, 4, 5, 6, 7, 8], 8) := by
    decide +kernel
  obtain ⟨ev, s', hget, hdata⟩ := delivered_eq_some h
  exact ⟨ev, s', hget, hdata, event_length_iff hget⟩

end Ucesb
