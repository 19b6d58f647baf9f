import Ucesb.LmdRecord

namespace Ucesb

def RecordStop.Reported : RecordStop → Prop
  | .eof => True
  | .report _ => True
  | .expectedFragment _ => True
  | .overflow => False
  | .assertion => False
  | .endless => False

/-- The number of bytes that the header declares as used by events, without a limit to the size
of a number. -/
def BufHeader.declaredUsed (h : BufHeader) (fileHeader : List UInt8) : Nat :=
  h.dataUsed fileHeader (if h.isSmall then h.usedFromIused else h.lFree2.toNat * 2)

/-- The fragment that `read_record` skips, with its header. -/
def skippedFragment (h : BufHeader) (swapping expectFragment : Bool) (data : List UInt8) : Nat :=
  if (h.hEnd == 1) = expectFragment then 0
  else sizeofEventHeader + lengthFromDlen32
    (LmdEventHeader.decode (swapIf swapping (data.take sizeofEventHeader))).lDlen

/-- The cursor covers the first `used` bytes of the mapped buffer, after a skipped fragment. -/
def Covers (s : LmdSource) (expectFragment : Bool) (m : MappedChunks) (used : Nat) : Prop :=
  used ≤ m.list.flatten.length ∧
    s.chunks.flatten = (m.list.flatten.take used).drop
      (skippedFragment s.header s.swapping expectFragment (m.list.flatten.take used))

section Input

variable {inp : InputBuffer} {start length : Nat}

theorem map_eq_ok {m : MappedChunks} :
    inp.map start length = .ok m ↔ inp.mapRange start length = some m := by
  unfold InputBuffer.map
  cases inp.mapRange start length <;> simp

theorem map_ends : Ends RecordStop.Reported (fun _ => True) (inp.map start length) := by
  unfold InputBuffer.map
  cases inp.mapRange start length with
  | none => trivial
  | some m => trivial

theorem readRange_eq_ok {short : RecordStop} {bs : List UInt8} :
    inp.readRange start length short = .ok bs ↔
      ∃ m, inp.mapRange start length = some m ∧ m ≠ .none ∧ m.list.flatten = bs := by
  unfold InputBuffer.readRange
  simp only [bind_eq_ok, map_eq_ok]
  constructor
  · rintro ⟨m, hm, u, hne, hbs⟩
    exact ⟨m, hm, errorIf_eq_ok.mp hne, Except.ok.inj hbs⟩
  · rintro ⟨m, hm, hne, hbs⟩
    exact ⟨m, hm, (), errorIf_eq_ok.mpr hne, congrArg Except.ok hbs⟩

theorem readRange_ends {short : RecordStop} (h : short.Reported) :
    Ends RecordStop.Reported (fun _ => True) (inp.readRange start length short) := by
  unfold InputBuffer.readRange
  refine ends_bind map_ends ?_
  intro m _
  refine ends_bind (ends_errorIf fun _ => h) ?_
  intro u _
  trivial

theorem mapped_length {m : MappedChunks} (h : inp.mapRange start length = some m)
    (hne : m ≠ .none) : m.list.flatten.length = length := by
  obtain ⟨hle, hflat⟩ := inp.mapped start length m h hne
  rw [hflat, slice_length hle]

theorem readRange_length {short : RecordStop} {bs : List UInt8}
    (h : inp.readRange start length short = .ok bs) : bs.length = length := by
  obtain ⟨m, hm, hne, rfl⟩ := readRange_eq_ok.mp h
  exact mapped_length hm hne

end Input

section Header

variable {inp : InputBuffer} {h : BufHeader} {r : HeaderRead} {fileHeader : List UInt8}

theorem bufferSwapping_ends (raw : List UInt8) :
    Ends RecordStop.Reported (fun _ => True) (bufferSwapping raw) := by
  unfold bufferSwapping
  split
  next => trivial
  next => split <;> trivial

theorem readRange_le {start length : Nat} {short : RecordStop} {bs : List UInt8}
    (h : inp.readRange start length short = .ok bs) : start + length ≤ inp.stream.length := by
  obtain ⟨m, hm, hne, -⟩ := readRange_eq_ok.mp h
  exact (inp.mapped start length m hm hne).1

theorem readBufferHeader_ends {fuel cur : Nat} (hpos : 0 < fuel)
    (hf : inp.stream.length < cur + fuel) :
    Ends RecordStop.Reported (fun _ => True) (readBufferHeader inp fuel cur) := by
  induction fuel generalizing cur with
  | zero => omega
  | succ fuel ih =>
    rw [readBufferHeader]
    cases hraw : inp.readRange cur sizeofBufhe .eof with
    | error e =>
      have hread := @readRange_ends inp cur sizeofBufhe .eof trivial
      rw [hraw] at hread
      exact hread
    | ok raw =>
      have hle := readRange_le hraw
      rw [sizeofBufhe] at hle
      show Ends _ _ (bufferSwapping raw >>= _)
      refine ends_bind (bufferSwapping_ends raw) ?_
      intro swapping _
      dsimp only
      split
      next =>
        refine ends_bind map_ends ?_
        intro m _
        exact ih (by omega) (by rw [sizeofBufhe]; omega)
      next => trivial

theorem bufferSizeDlen_ends : Ends RecordStop.Reported (fun _ => True) (bufferSizeDlen inp h) := by
  unfold bufferSizeDlen
  refine ends_bind (ends_errorIf fun _ => trivial) ?_
  intro u _
  refine ends_bind (ends_errorIf fun _ => trivial) ?_
  intro u _
  refine @ends_bind _ _ _ _ (fun _ => True) _ _ _ ?_ ?_
  · unfold blockSize
    split
    next => split <;> trivial
    next => trivial
  · intro size _
    refine ends_bind (ends_errorIf fun _ => trivial) ?_
    intro u _
    refine ends_bind (ends_errorIf fun _ => trivial) ?_
    intro u _
    trivial

theorem bufUsed_ends : Ends RecordStop.Reported (fun _ => True) (bufUsed h fileHeader) := by
  unfold bufUsed
  split
  next =>
    refine ends_bind (ends_errorIf fun _ => trivial) ?_
    intro u _
    trivial
  next =>
    refine ends_bind (ends_errorIf fun _ => trivial) ?_
    intro u _
    trivial

theorem lengthFromDlen32_lt (dlen : UInt32) : lengthFromDlen32 dlen < 2 ^ 32 :=
  (dlen * 2).toNat_lt

theorem lengthFromDlen32_eq (dlen : UInt32) : lengthFromDlen32 dlen = dlen.toNat * 2 % 2 ^ 32 :=
  UInt32.toNat_mul dlen 2

theorem bufUsed_eq {used : Nat} (hu : bufUsed h fileHeader = .ok used) :
    used = if h.isSmall then h.usedFromIused else lengthFromDlen32 h.lFree2 := by
  unfold bufUsed at hu
  split at hu
  next hs =>
    rw [if_pos hs]
    exact (Except.ok.inj (errorIf_bind_ok.mp hu).2).symm
  next hs =>
    rw [if_neg hs]
    exact (Except.ok.inj (errorIf_bind_ok.mp hu).2).symm

theorem bufUsed_lt {used : Nat} (hu : bufUsed h fileHeader = .ok used) : used < 2 ^ 32 := by
  rw [bufUsed_eq hu]
  split
  next =>
    have hi := h.iUsed.toNat_lt
    rw [BufHeader.usedFromIused]
    omega
  next => exact lengthFromDlen32_lt _

theorem bufferSizeDlen_lt {size : Nat} (hs : bufferSizeDlen inp h = .ok size) : size < 2 ^ 32 := by
  unfold bufferSizeDlen at hs
  obtain ⟨-, hs⟩ := errorIf_bind_ok.mp hs
  obtain ⟨hl, hs⟩ := errorIf_bind_ok.mp hs
  obtain ⟨size', hblock, hs⟩ := bind_eq_ok.mp hs
  obtain ⟨-, hs⟩ := errorIf_bind_ok.mp hs
  obtain ⟨-, hs⟩ := errorIf_bind_ok.mp hs
  cases hs
  unfold blockSize at hblock
  split at hblock
  next =>
    split at hblock
    next =>
      cases hblock
      omega
    next => cases hblock
  next =>
    cases hblock
    rw [BufHeader.sizeFromDlen, sizeofBufhe]
    omega

def OverlongFileHeader (inp : InputBuffer) (r : HeaderRead) : Prop :=
  r.header.isFileHeader = true ∧ sizeofFilheExtra < r.header.fileHeaderSize ∧
    ∃ m, inp.mapRange r.pos r.header.fileHeaderSize = some m ∧ m ≠ .none

theorem readFileHeader_ends (hno : ¬OverlongFileHeader inp r) :
    Ends RecordStop.Reported (fun _ => True) (readFileHeader inp r fileHeader) := by
  unfold readFileHeader
  split
  next hfile =>
    cases hr : inp.readRange r.pos r.header.fileHeaderSize (.report .fileHeaderRead) with
    | error e =>
      have hends := @readRange_ends inp r.pos r.header.fileHeaderSize
        (.report .fileHeaderRead) trivial
      rw [hr] at hends
      exact hends
    | ok bs =>
      show Ends _ _ (errorIf _ _ >>= _)
      refine ends_bind (ends_errorIf ?_) ?_
      · intro hlong
        rw [readRange_length hr] at hlong
        obtain ⟨m, hm, hne, -⟩ := readRange_eq_ok.mp hr
        exact absurd ⟨hfile, hlong, m, hm, hne⟩ hno
      · intro u _
        trivial
  next =>
    refine ends_bind (ends_errorIf fun _ => trivial) ?_
    intro u _
    trivial

theorem readFileHeader_overflow (h : OverlongFileHeader inp r) :
    readFileHeader inp r fileHeader = .error .overflow := by
  obtain ⟨hfile, hlong, m, hm, hne⟩ := h
  have hr := @readRange_eq_ok inp r.pos r.header.fileHeaderSize (.report .fileHeaderRead)
    m.list.flatten
  unfold readFileHeader
  rw [if_pos hfile, hr.mpr ⟨m, hm, hne, rfl⟩]
  refine bind_eq_error.mpr (.inr ⟨m.list.flatten, rfl, bind_eq_error.mpr (.inl ?_)⟩)
  rw [errorIf_eq_error, mapped_length hm hne]
  exact ⟨hlong, rfl⟩

end Header

section Chunks

variable {s s' : LmdSource} {expectFragment : Bool} {m : MappedChunks} {size used unused : Nat}

theorem cutUnused_spec (hne : m ≠ .none) (h : unused < m.list.flatten.length) :
    ∃ cs, cutUnused unused m = .ok cs ∧
      cs.flatten = m.list.flatten.take (m.list.flatten.length - unused) := by
  cases m with
  | none => exact absurd rfl hne
  | one c =>
    simp only [MappedChunks.list, List.flatten_cons, List.flatten_nil, List.append_nil] at h ⊢
    exact ⟨_, if_neg (by omega), by simp⟩
  | two c d =>
    simp only [MappedChunks.list, List.flatten_cons, List.flatten_nil, List.append_nil,
      List.length_append] at h ⊢
    rw [cutUnused]
    split
    next hle =>
      refine ⟨_, rfl, ?_⟩
      rw [List.take_append_of_le_length (by omega), List.flatten_cons, List.flatten_nil,
        List.append_nil]
      congr 1
      omega
    next hlt =>
      refine ⟨_, rfl, ?_⟩
      have hc : c.take (c.length + d.length - unused) = c := List.take_of_length_le (by omega)
      have hd : c.length + d.length - unused - c.length = d.length - unused := by omega
      rw [List.take_append, hc, hd, List.flatten_cons, List.flatten_cons, List.flatten_nil,
        List.append_nil]

def SameRecord (s s' : LmdSource) : Prop :=
  s'.header = s.header ∧ s'.swapping = s.swapping ∧ s'.fileHeader = s.fileHeader ∧ s'.cur = s.cur

theorem skipFragment_ends (hfrag : ¬(s.header.hEnd == 1) = expectFragment) :
    Ends RecordStop.Reported (fun s' => SameRecord s s' ∧
        s'.chunks.flatten = s.chunks.flatten.drop
          (skippedFragment s.header s.swapping expectFragment s.chunks.flatten))
      (skipFragment s used) := by
  unfold skipFragment
  split
  next => trivial
  next raw rest hget =>
    obtain ⟨hraw, hrest, -⟩ := getRange_spec hget
    dsimp only
    split
    next => trivial
    next =>
      split
      next => trivial
      next rest' hskip =>
        refine ⟨⟨rfl, rfl, rfl, rfl⟩, ?_⟩
        rw [skippedFragment, if_neg hfrag, (skipRange_spec hskip).1, hrest, List.drop_drop, hraw]

theorem unused_add_used {h : BufHeader} (hfit : h.headerSize + used ≤ size) :
    h.unusedSize size used + used = h.dataSize size used := by
  unfold BufHeader.unusedSize BufHeader.dataSize
  split <;> omega

theorem setChunks_ends (hfit : s.header.headerSize + used ≤ size) (hne : m ≠ .none)
    (hlen : m.list.flatten.length = s.header.dataSize size used) :
    Ends RecordStop.Reported (fun s' => SameRecord s s' ∧ Covers s' expectFragment m used)
      (setChunks s expectFragment size used m) := by
  have hsum := unused_add_used hfit
  unfold setChunks
  dsimp only
  split
  next hempty =>
    refine ends_bind (ends_errorIf fun _ => trivial) ?_
    intro u _
    have hz : used = 0 := by omega
    subst hz
    exact ⟨⟨rfl, rfl, rfl, rfl⟩, Nat.zero_le _, by simp⟩
  next hdata =>
    refine ends_bind (ends_errorIf fun _ => trivial) ?_
    intro u _
    refine ends_bind (ends_errorIf fun hle => absurd (show _ = _ by omega) hdata) ?_
    intro u _
    obtain ⟨cs, hcut, hflat⟩ := @cutUnused_spec m (s.header.unusedSize size used) hne (by omega)
    rw [hcut]
    show Ends _ _ (ite _ _ _)
    have hused : cs.flatten = m.list.flatten.take used := by
      rw [hflat]
      congr 1
      omega
    split
    next hexp =>
      refine ⟨⟨rfl, rfl, rfl, rfl⟩, by omega, ?_⟩
      rw [skippedFragment, if_pos hexp]
      exact hused
    next hexp =>
      split
      next => trivial
      next =>
        refine ends_mono (@skipFragment_ends _ expectFragment used hexp) (fun _ h => h) ?_
        rintro s' ⟨⟨hh, hs, hf, hc⟩, hchunks⟩
        refine ⟨⟨hh, hs, hf, hc⟩, by omega, ?_⟩
        rw [hchunks, hh, hs]
        dsimp only
        rw [hused]

/-- The fragment at the start of the data has a header and ends within the data. -/
def FragmentSkips (swapping : Bool) (cs : List (List UInt8)) (used : Nat) : Prop :=
  match getRange sizeofEventHeader cs with
  | none => False
  | some (raw, rest) =>
    lengthFromDlen32 (LmdEventHeader.decode (swapIf swapping raw)).lDlen ≤ used ∧
      (skipRange (lengthFromDlen32 (LmdEventHeader.decode (swapIf swapping raw)).lDlen)
        rest).isSome = true

/-- The event count and the fragment marks of the header agree with the used size. -/
def EventsAgree (h : BufHeader) (swapping expectFragment : Bool) (size used : Nat)
    (m : MappedChunks) : Prop :=
  if used = 0 then h.hEnd = 0 ∧ h.hBegin = 0 ∧ h.lEvt = 0
  else h.lEvt ≠ 0 ∧ ((h.hEnd == 1) = expectFragment ∨ expectFragment = false ∧
    ∃ cs, cutUnused (h.unusedSize size used) m = .ok cs ∧ FragmentSkips swapping cs used)

theorem skipFragment_ok_iff :
    (∃ s', skipFragment s used = .ok s') ↔ FragmentSkips s.swapping s.chunks used := by
  unfold skipFragment FragmentSkips
  cases getRange sizeofEventHeader s.chunks with
  | none => simp
  | some r =>
    obtain ⟨raw, rest⟩ := r
    dsimp only
    generalize lengthFromDlen32 (LmdEventHeader.decode (swapIf s.swapping raw)).lDlen = n
    by_cases hn : used < n
    · simp [if_pos hn, Nat.not_le.mpr hn]
    · cases skipRange n rest with
      | none => simp [if_neg hn]
      | some rest' => simp [if_neg hn, Nat.not_lt.mp hn]

theorem setChunks_ok_iff (hfit : s.header.headerSize + used ≤ size) (hne : m ≠ .none)
    (hlen : m.list.flatten.length = s.header.dataSize size used) :
    (∃ s', setChunks s expectFragment size used m = .ok s') ↔
      EventsAgree s.header s.swapping expectFragment size used m := by
  have hsum := unused_add_used hfit
  unfold setChunks EventsAgree
  dsimp only
  by_cases hz : used = 0
  · rw [if_pos (by omega), if_pos hz]
    simp only [errorIf_bind_ok, not_or, not_not, exists_and_left]
    exact ⟨fun h => h.1, fun h => ⟨h, _, rfl⟩⟩
  · rw [if_neg (by omega), if_neg hz]
    obtain ⟨cs, hcut, -⟩ := @cutUnused_spec m (s.header.unusedSize size used) hne (by omega)
    have hpos : s.header.dataSize size used ≠ 0 := by omega
    have hlt : ¬s.header.dataSize size used ≤ s.header.unusedSize size used := by omega
    simp only [errorIf_bind_ok, hcut, exists_and_left, hpos, hlt, not_false_eq_true, true_and,
      and_true, ne_eq, Except.ok.injEq, exists_eq_left']
    refine and_congr_right fun _ => ?_
    show (∃ s', ite _ _ _ = _) ↔ _
    by_cases hexp : (s.header.hEnd == 1) = expectFragment
    · rw [if_pos hexp]
      exact ⟨fun _ => .inl hexp, fun _ => ⟨_, rfl⟩⟩
    · rw [if_neg hexp]
      cases expectFragment with
      | true => simp [hexp]
      | false =>
        rw [if_neg (by simp), skipFragment_ok_iff]
        simp [hexp]

end Chunks

section Record

variable {inp : InputBuffer} {s s' : LmdSource} {expectFragment : Bool} {p : RecordPlan}

structure Planned (inp : InputBuffer) (s : LmdSource) (expectFragment : Bool) (p : RecordPlan) :
    Prop where
  read : readBufferHeader inp (inp.stream.length + 1) s.cur = .ok p.read
  block : ∃ block, bufferSizeDlen inp p.read.header = .ok block ∧
    p.size = p.read.header.bufferSize block
  fileHeader : readFileHeader inp p.read s.fileHeader = .ok p.fileHeader
  used : ∃ used, bufUsed p.read.header p.fileHeader = .ok used ∧
    p.used = p.read.header.dataUsed p.fileHeader used
  fits : p.read.header.headerSize + p.used ≤ p.size
  number : p.read.header.wrongNumber s.lastBufferNo expectFragment = false

theorem checkHeader_ok_iff : checkHeader inp s expectFragment = .ok p ↔
    Planned inp s expectFragment p := by
  unfold checkHeader
  simp only [bind_eq_ok, errorIf_eq_ok, Nat.not_lt, Bool.not_eq_true]
  constructor
  · rintro ⟨r, hr, block, hblock, fileHeader, hfile, used, hused, u, hfit, u', hnumber, hp⟩
    cases hp
    exact ⟨hr, ⟨block, hblock, rfl⟩, hfile, ⟨used, hused, rfl⟩, hfit, hnumber⟩
  · rintro ⟨hr, ⟨block, hblock, hsize⟩, hfile, ⟨used, hused, heq⟩, hfit, hnumber⟩
    obtain ⟨r, fileHeader, size, used'⟩ := p
    dsimp only at hsize heq
    subst hsize heq
    exact ⟨r, hr, block, hblock, fileHeader, hfile, used, hused, (), hfit, (), hnumber, rfl⟩

def FileHeaderOverrun (inp : InputBuffer) (s : LmdSource) : Prop :=
  ∃ r block, readBufferHeader inp (inp.stream.length + 1) s.cur = .ok r ∧
    bufferSizeDlen inp r.header = .ok block ∧ OverlongFileHeader inp r

theorem checkHeader_overrun (h : FileHeaderOverrun inp s) :
    checkHeader inp s expectFragment = .error .overflow := by
  obtain ⟨r, block, hr, hblock, hlong⟩ := h
  unfold checkHeader
  rw [hr]
  show (bufferSizeDlen inp r.header >>= _) = _
  rw [hblock]
  show (readFileHeader inp r s.fileHeader >>= _) = _
  rw [readFileHeader_overflow hlong]
  rfl

theorem checkHeader_ends (hno : ¬FileHeaderOverrun inp s) :
    Ends RecordStop.Reported (fun _ => True) (checkHeader inp s expectFragment) := by
  unfold checkHeader
  cases hr : readBufferHeader inp (inp.stream.length + 1) s.cur with
  | error e =>
    have hends := @readBufferHeader_ends inp (inp.stream.length + 1) s.cur (by omega) (by omega)
    rw [hr] at hends
    exact hends
  | ok r =>
    show Ends _ _ (bufferSizeDlen inp r.header >>= _)
    cases hblock : bufferSizeDlen inp r.header with
    | error e =>
      have hends := @bufferSizeDlen_ends inp r.header
      rw [hblock] at hends
      exact hends
    | ok block =>
      show Ends _ _ (readFileHeader inp r s.fileHeader >>= _)
      refine ends_bind (readFileHeader_ends fun hlong => hno ⟨r, block, hr, hblock, hlong⟩) ?_
      intro fileHeader _
      refine ends_bind bufUsed_ends ?_
      intro used _
      refine ends_bind (ends_errorIf fun _ => trivial) ?_
      intro u _
      refine ends_bind (ends_errorIf fun _ => trivial) ?_
      intro u _
      trivial

theorem planned_ends (hp : Planned inp s expectFragment p) {m : MappedChunks}
    (hm : inp.mapRange p.dataPos p.dataSize = some m) (hne : m ≠ .none) :
    readRecord inp s expectFragment = setChunks (p.source s) expectFragment p.size p.used m := by
  unfold readRecord
  rw [checkHeader_ok_iff.mpr hp]
  show (inp.map p.dataPos p.dataSize >>= _) = _
  rw [map_eq_ok.mpr hm]
  show (errorIf (m = .none) _ >>= _) = _
  rw [errorIf, if_neg hne]
  rfl

theorem Planned.dataSize_lt (hp : Planned inp s expectFragment p) : p.dataSize < 2 ^ 32 := by
  obtain ⟨used, hused, heq⟩ := hp.used
  obtain ⟨block, hblock, hsize⟩ := hp.block
  have hu := bufUsed_lt hused
  have hb := bufferSizeDlen_lt hblock
  rw [RecordPlan.dataSize, BufHeader.dataSize]
  split
  next =>
    rw [heq, BufHeader.dataUsed]
    split <;> omega
  next =>
    rw [hsize, BufHeader.bufferSize]
    split <;> omega

/-- The used size is declared in a number that overflows when it is doubled, and what is left of it
passes all checks. -/
def WrappedUsed (inp : InputBuffer) (s : LmdSource) (expectFragment : Bool) : Prop :=
  ∃ p m, Planned inp s expectFragment p ∧ p.read.header.isSmall = false ∧
    2 ^ 31 ≤ p.read.header.lFree2.toNat ∧
    inp.mapRange p.dataPos p.dataSize = some m ∧ m ≠ .none ∧
    EventsAgree p.read.header p.read.swapping expectFragment p.size p.used m

def CoversDeclared (inp : InputBuffer) (s : LmdSource) (expectFragment : Bool) (s' : LmdSource) :
    Prop :=
  ∃ r m length, readBufferHeader inp (inp.stream.length + 1) s.cur = .ok r ∧
    s'.header = r.header ∧ s'.swapping = r.swapping ∧
    s'.cur = r.pos + r.header.fileHeaderSize + length ∧
    inp.mapRange (r.pos + r.header.fileHeaderSize) length = some m ∧ m ≠ .none ∧
    Covers s' expectFragment m (s'.header.declaredUsed s'.fileHeader)

def RecordSafe (inp : InputBuffer) (s : LmdSource) (expectFragment : Bool) : Prop :=
  Ends RecordStop.Reported (CoversDeclared inp s expectFragment) (readRecord inp s expectFragment)

theorem Planned.declared (hp : Planned inp s expectFragment p)
    (h : p.read.header.isSmall = true ∨ p.read.header.lFree2.toNat < 2 ^ 31) :
    p.read.header.declaredUsed p.fileHeader = p.used := by
  obtain ⟨used, hused, heq⟩ := hp.used
  rw [heq, BufHeader.declaredUsed, bufUsed_eq hused]
  congr 1
  split
  next => rfl
  next hs =>
    have hlt := h.resolve_left hs
    rw [lengthFromDlen32_eq]
    omega

theorem declaredUsed_ge {h : BufHeader} (hs : h.isSmall = false) (hl : 2 ^ 31 ≤ h.lFree2.toNat)
    (fileHeader : List UInt8) : 2 ^ 32 ≤ h.declaredUsed fileHeader := by
  have hmin : min 30 (rd32 (fileHeader.drop offsetofFilheLines)) ≤ 30 := Nat.min_le_left _ _
  rw [BufHeader.declaredUsed, hs, if_neg (by simp), BufHeader.dataUsed, if_neg]
  · omega
  · rintro ⟨-, he⟩
    rw [fileHeaderUsedSize, sizeofFilheExtra, sizeofFilheStrings, sizeofFilheString] at he
    omega

theorem overrun_not_safe (h : FileHeaderOverrun inp s) : ¬RecordSafe inp s expectFragment := by
  intro hsafe
  rw [RecordSafe, readRecord, checkHeader_overrun h] at hsafe
  exact hsafe

theorem wrapped_not_safe (h : WrappedUsed inp s expectFragment) :
    ¬RecordSafe inp s expectFragment := by
  obtain ⟨p, m, hp, hsmall, hl, hm, hne, hagree⟩ := h
  intro hsafe
  have hlen := mapped_length hm hne
  have hends := @setChunks_ends (p.source s) expectFragment m p.size p.used hp.fits hne hlen
  obtain ⟨s', hs'⟩ := (@setChunks_ok_iff (p.source s) expectFragment m p.size p.used hp.fits hne
    hlen).mpr hagree
  rw [RecordSafe, planned_ends hp hm hne, hs'] at hsafe
  rw [hs'] at hends
  obtain ⟨⟨hhead, -, hfile, hcur⟩, -⟩ := hends
  obtain ⟨r, m', length, hr, -, -, hcur', hm', hne', hle, -⟩ := hsafe
  cases hp.read.symm.trans hr
  have hge := declaredUsed_ge hsmall hl p.fileHeader
  have hlt := hp.dataSize_lt
  have hlength : length = p.dataSize := by
    have hc : p.dataPos + p.dataSize = p.dataPos + length := hcur.symm.trans hcur'
    omega
  rw [mapped_length hm' hne', hhead, hfile] at hle
  have hle' : p.read.header.declaredUsed p.fileHeader ≤ length := hle
  omega

theorem readRecord_ends (hover : ¬FileHeaderOverrun inp s) :
    Ends RecordStop.Reported (fun s' => ∃ p m, Planned inp s expectFragment p ∧
        inp.mapRange p.dataPos p.dataSize = some m ∧ m ≠ .none ∧
        setChunks (p.source s) expectFragment p.size p.used m = .ok s')
      (readRecord inp s expectFragment) := by
  have hcheck := @checkHeader_ends inp s expectFragment hover
  cases hc : checkHeader inp s expectFragment with
  | error e =>
    rw [hc] at hcheck
    rw [readRecord, hc]
    exact hcheck
  | ok p =>
    have hp := checkHeader_ok_iff.mp hc
    cases hm : inp.mapRange p.dataPos p.dataSize with
    | none =>
      rw [readRecord, hc]
      show Ends _ _ (inp.map p.dataPos p.dataSize >>= _)
      rw [InputBuffer.map, hm]
      trivial
    | some m =>
      by_cases hne : m = .none
      · rw [readRecord, hc]
        show Ends _ _ (inp.map p.dataPos p.dataSize >>= _)
        rw [map_eq_ok.mpr hm, hne]
        trivial
      · have hends := @setChunks_ends (p.source s) expectFragment m p.size p.used hp.fits hne
          (mapped_length hm hne)
        rw [planned_ends hp hm hne]
        cases hset : setChunks (p.source s) expectFragment p.size p.used m with
        | error e =>
          rw [hset] at hends
          exact hends
        | ok s' => exact ⟨p, m, hp, hm, hne, hset⟩

/-- `read_record` is safe, but for a file header that is longer than its structure and for a used
size that overflows. -/
theorem read_record_safe_iff (inp : InputBuffer) (s : LmdSource) (expectFragment : Bool) :
    RecordSafe inp s expectFragment ↔
      ¬FileHeaderOverrun inp s ∧ ¬WrappedUsed inp s expectFragment := by
  constructor
  · intro hsafe
    exact ⟨fun h => overrun_not_safe h hsafe, fun h => wrapped_not_safe h hsafe⟩
  rintro ⟨hover, hwrap⟩
  refine ends_mono (readRecord_ends hover) (fun _ h => h) ?_
  rintro s' ⟨p, m, hp, hm, hne, hset⟩
  have hlen := mapped_length hm hne
  have hends := @setChunks_ends (p.source s) expectFragment m p.size p.used hp.fits hne hlen
  rw [hset] at hends
  obtain ⟨⟨hhead, hswap, hfile, hcur⟩, hcovers⟩ := hends
  refine ⟨p.read, m, p.dataSize, hp.read, hhead, hswap, hcur, hm, hne, ?_⟩
  have hdecl : p.read.header.declaredUsed p.fileHeader = p.used := by
    apply hp.declared
    by_contra hn
    rw [not_or, Bool.not_eq_true, Nat.not_lt] at hn
    have hagree := (@setChunks_ok_iff (p.source s) expectFragment m p.size p.used hp.fits
      hne hlen).mp ⟨s', hset⟩
    exact hwrap ⟨p, m, hp, hn.1, hn.2, hm, hne, hagree⟩
  rw [hhead, hfile]
  show Covers s' expectFragment m (p.read.header.declaredUsed p.fileHeader)
  rw [hdecl]
  exact hcovers

end Record

theorem pipe_mapped {stream : List UInt8} {size start length : Nat} {m : MappedChunks}
    (h : (if size < length ∧ start + size ≤ stream.length then none
      else if stream.length < start + length then some .none
      else if length ≤ size - start % size then some (.one (slice stream start length))
      else some (.two (slice stream start (size - start % size))
        (slice stream (start + (size - start % size)) (length - (size - start % size))))) = some m)
    (hne : m ≠ MappedChunks.none) :
    start + length ≤ stream.length ∧ m.list.flatten = slice stream start length := by
  split at h
  next => cases h
  next =>
    split at h
    next => exact absurd (Option.some.inj h).symm hne
    next hlen =>
      refine ⟨Nat.not_lt.mp hlen, ?_⟩
      split at h
      next =>
        cases h
        simp [MappedChunks.list]
      next hwrap =>
        cases h
        have hsum : length = size - start % size + (length - (size - start % size)) := by omega
        simp only [MappedChunks.list, List.flatten_cons, List.flatten_nil, List.append_nil]
        conv_rhs => rw [hsum, slice, List.take_add, List.drop_drop]
        rfl

/-- A `pipe_buffer` of `size` bytes, from which all that comes before a range has been released. -/
def pipeInput (stream : List UInt8) (size : Nat) : InputBuffer where
  stream := stream
  maxItemLength := size / 3
  mapRange start length :=
    if size < length ∧ start + size ≤ stream.length then none
    else if stream.length < start + length then some .none
    else if length ≤ size - start % size then some (.one (slice stream start length))
    else some (.two (slice stream start (size - start % size))
      (slice stream (start + (size - start % size)) (length - (size - start % size))))
  mapped _ _ _ h hne := pipe_mapped h hne

/-- The members of `lmd_source` after `new_file`. -/
def lmdSourceInit : LmdSource where
  cur := 0
  swapping := false
  header := BufHeader.decode []
  fileHeader := List.replicate sizeofFilheExtra 0
  lastBufferNo := 0
  eventsLeft := 0
  firstBufSticky := false
  chunks := []

def overlongHeader : BufHeader :=
  { BufHeader.decode [] with lDlen := 16872, iType := 2000, iSubtype := 1, iUsed := 1359 }

def wrappedHeader : BufHeader :=
  { BufHeader.decode [] with
    lDlen := 8, iType := 100, iSubtype := 1, lEvt := 1, lFree2 := 0x80000004 }

def overlongInput : InputBuffer :=
  pipeInput (overlongHeader.encode ++ List.replicate 2718 0) (2 ^ 20)

def wrappedInput : InputBuffer :=
  pipeInput (wrappedHeader.encode ++ (LmdEventHeader.mk 0 10 1).encode) (2 ^ 20)

theorem hostile_headers_accepted :
    ¬RecordSafe overlongInput lmdSourceInit false ∧
      ¬RecordSafe wrappedInput lmdSourceInit false := by
  refine ⟨overrun_not_safe ?_, wrapped_not_safe ?_⟩
  · refine ⟨⟨48, false, overlongHeader⟩, 33792, ?_, ?_, by decide +kernel, by decide +kernel,
      .one (List.replicate 2718 0), ?_, by decide⟩
    · decide +kernel
    · decide +kernel
    · decide +kernel
  · refine ⟨⟨⟨48, false, wrappedHeader⟩, List.replicate sizeofFilheExtra 0, 64, 8⟩,
      .one (LmdEventHeader.mk 0 10 1).encode, ?_, by decide +kernel, by decide +kernel,
      by decide +kernel, by decide, ?_⟩
    · apply checkHeader_ok_iff.mp
      decide +kernel
    · rw [EventsAgree, if_neg (by decide)]
      exact ⟨by decide +kernel, .inl (by decide +kernel)⟩

end Ucesb
