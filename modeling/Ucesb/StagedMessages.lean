import Ucesb.CwnLengths

namespace Ucesb

section Stage

def stageLayout (st : StageItems) : Except NtupleStop (StorageSize × CwnTuple) := do
  let c ← st.items.foldlM storageSize storageStart
  let s ← st.items.foldlM initCwn initStart
  errorIf (c.size ≠ s.ptr) .assertion
  errorIf (c.indexVars ≠ s.nt.indexItems.length) .assertion
  errorIf (c.arrayVars ≠ s.nt.arrayItems.length) .assertion
  errorIf (c.infoSlots ≠ s.slotInd) .assertion
  errorIf (c.itemsPerEntry ≠ s.destInd) .assertion
  return (c, s.nt)

def StorageSize.arrayEntries (c : StorageSize) : Nat := c.size / 4

def StorageSize.ctrlWords (c : StorageSize) : Nat :=
  2 * (c.indexVars + c.arrayVars) % 2 ^ 32 + 4 * c.array2Vars % 2 ^ 32

def ewbStringSpace (len : Nat) : Nat := 4 + (len + 1 + 3) / 4 * 4

def maxNamedStringSize (str : Nat × Nat) : Nat :=
  (8 + ewbStringSpace str.1 + ewbStringSpace str.2) % 2 ^ 32

/-- The largest message. A named string has the lengths of its name and its value. -/
def StorageSize.maxSize (c : StorageSize) (namedStrs : List (Nat × Nat)) : Nat :=
  namedStrs.foldl (fun size str => max size (maxNamedStringSize str))
    ((1 + c.arrayEntries + c.ctrlWords) * 4)

def StorageSize.offsetsSize (c : StorageSize) : Nat := (2 * c.arrayEntries + c.ctrlWords) * 4

structure StagedNtuple where
  w : ExtWriter
  c : StorageSize
  nt : CwnTuple

/-- `stage` up to the offsets message. -/
def stageSetup (w : ExtWriter) (st : StageItems) (namedStrs : List (Nat × Nat)) :
    Except NtupleStop StagedNtuple := do
  let layout ← stageLayout st
  errorIf (2 ^ 32 - 1 < layout.1.maxSize namedStrs) .other
  let w ← setMaxMessageSize w (layout.1.maxSize namedStrs)
  errorIf (∃ str ∈ namedStrs, w.buf.size < maxNamedStringSize str) .other
  errorIf (2 ^ 32 - 1 < layout.1.offsetsSize) .other
  return ⟨w, layout.1, layout.2⟩

def stageOffsets (bigEndian : Bool) (s : StagedNtuple) : Except NtupleStop SentMessage := do
  let m ← prepareSendOffsets bigEndian s.w s.c.offsetsSize
  match cwnPtrs s.nt with
  | none => .error .assertion
  | some list =>
    errorIf (list.length ≠ s.c.offsetsSize / 4) .assertion
    sendOffsetsFill bigEndian m list.length

structure NtupleEvent where
  mem : Nat → UInt8
  raw : Option Nat

/-- `paw_ntuple::event` checks the raw data. -/
def stagedEvent (bigEndian : Bool) (ops : FloatOps) (s : StagedNtuple) (ev : NtupleEvent) :
    Except NtupleStop SentMessage := do
  errorIf (s.w.maxRawWords < ev.raw.getD 0) .other
  errorIf (2 ^ 32 - 1 < (1 + s.c.arrayEntries) * 4) .assertion
  let m ← prepareSendFillX bigEndian s.w ((1 + s.c.arrayEntries) * 4) ev.raw
  match cwnFill ops s.nt ev.mem with
  | none => .error .other
  | some words => sendOffsetsFill bigEndian m (1 + words.length)

def NtupleMessagesRight (bigEndian : Bool) (ops : FloatOps) (w : ExtWriter) (st : StageItems)
    (namedStrs : List (Nat × Nat)) (events : List NtupleEvent) : Prop :=
  Ends (· = .other)
    (fun s => MessageRight bigEndian s.w (stageOffsets bigEndian s) ∧
      ∀ ev ∈ events, MessageRight bigEndian s.w (stagedEvent bigEndian ops s ev))
    (stageSetup w st namedStrs)

end Stage

section Layout

theorem storageSize_stops {c : StorageSize} {item : StageItem} :
    Ends (· = .other) (fun _ => True) (storageSize c item) := by
  unfold storageSize
  split
  · trivial
  · split
    · trivial
    · trivial
  · split
    · rfl
    · trivial

theorem typeInfo_stops {item : NtupleItem} {firstItem : Bool} :
    Ends (· = .other) (fun _ => True) (typeInfo item firstItem) := by
  unfold typeInfo
  split
  any_goals trivial
  split
  · trivial
  · rfl

theorem maskWords_stops {isFloat : Bool} {mask : NtupleMask} :
    Ends (· = .other) (fun _ => True) (maskWords isFloat mask) := by
  unfold maskWords
  split
  · rfl
  · refine @ends_bind _ _ _ _ (fun _ => True) _ _ _ ?_ fun _ _ =>
      ends_bind (ends_errorIf fun _ => rfl) fun _ _ => trivial
    unfold overflowShift
    split
    · trivial
    · split
      · rfl
      · trivial

theorem initCwnVar_stops {firstItem : Bool} {ptr : Nat} {item : NtupleItem} :
    Ends (· = .other) (fun _ => True) (initCwnVar firstItem ptr item) := by
  refine ends_bind typeInfo_stops fun info _ => ends_bind (ends_errorIf fun _ => rfl) fun _ _ => ?_
  split
  · trivial
  · exact ends_bind maskWords_stops fun _ _ => trivial

theorem initCwnArray_stops {firstItem : Bool} {ptr : Nat} {items : List NtupleItem} :
    Ends (· = .other) (fun _ => True) (initCwnArray firstItem ptr items) := by
  induction items generalizing ptr with
  | nil => trivial
  | cons item items ih =>
    exact ends_bind initCwnVar_stops fun _ _ => ends_bind ih fun _ _ => trivial

theorem initCwnVars_stops {firstItem : Bool} {ptr : Nat} {vars : List (List NtupleItem)} :
    Ends (· = .other) (fun _ => True) (initCwnVars firstItem ptr vars) := by
  induction vars generalizing firstItem ptr with
  | nil => trivial
  | cons v vars ih =>
    exact ends_bind initCwnArray_stops fun _ _ => ends_bind ih fun _ _ => trivial

theorem initCwn_stops {s : CwnInit} {item : StageItem} :
    Ends (· = .other) (fun _ => True) (initCwn s item) := by
  cases item with
  | plain item => exact ends_bind initCwnVar_stops fun _ _ => trivial
  | index1 v =>
    refine ends_bind (ends_errorIf fun _ => rfl) fun _ _ => ?_
    split
    · exact ends_bind initCwnVars_stops fun _ _ => trivial
    · exact ends_bind initCwnVars_stops fun _ _ => trivial
  | index2 v =>
    exact ends_bind (ends_errorIf fun _ => rfl) fun _ _ =>
      ends_bind (ends_errorIf fun _ => rfl) fun _ _ => ends_bind initCwnVars_stops fun _ _ => trivial

theorem foldlM_stops {α β : Type} {f : β → α → Except NtupleStop β} {as : List α} {b : β}
    (h : ∀ b a, Ends (· = .other) (fun _ => True) (f b a)) :
    Ends (· = .other) (fun _ => True) (as.foldlM f b) := by
  induction as generalizing b with
  | nil => trivial
  | cons a as ih => exact ends_bind (h b a) fun _ _ => ih

structure LayoutOf (c : StorageSize) (nt : CwnTuple) : Prop where
  size : c.size = 4 * nt.storageWords
  index : c.indexVars = nt.indexItems.length
  array : c.arrayVars = nt.arrayItems.length
  array2 : c.array2Vars = nt.array2Items.length
  used : nt.Used

theorem stageLayout_ends (st : StageItems) :
    Ends (· = .other) (fun l => LayoutOf l.1 l.2) (stageLayout st) := by
  refine ends_iff.mpr ⟨?_, ?_⟩
  · intro l h
    obtain ⟨c, hc, h⟩ := bind_eq_ok.mp h
    obtain ⟨s, hs, h⟩ := bind_eq_ok.mp h
    have hstaged := staged_start.run hc hs
    have hcount := st.count
    obtain ⟨-, -, h⟩ := bind_eq_ok.mp h
    obtain ⟨-, -, h⟩ := bind_eq_ok.mp h
    obtain ⟨-, -, h⟩ := bind_eq_ok.mp h
    obtain ⟨-, -, h⟩ := bind_eq_ok.mp h
    obtain ⟨-, -, h⟩ := bind_eq_ok.mp h
    cases h
    obtain ⟨hsize, hwords, -, -, hindex, harray, harray2, hused⟩ := hstaged
    exact ⟨hsize.trans hwords, by rw [hindex.1]; exact Nat.mod_eq_of_lt (by omega),
      by rw [harray.1]; exact Nat.mod_eq_of_lt (by omega),
      by rw [harray2.1]; exact Nat.mod_eq_of_lt (by omega), hused⟩
  · intro e h
    rcases bind_eq_error.mp h with h | ⟨c, hc, h⟩
    · exact (ends_iff.mp (foldlM_stops fun _ _ => storageSize_stops)).2 e h
    · rcases bind_eq_error.mp h with h | ⟨s, hs, h⟩
      · exact (ends_iff.mp (foldlM_stops fun _ _ => initCwn_stops)).2 e h
      · have hstaged := staged_start.run hc hs
        have hcount := st.count
        obtain ⟨hsize, hwords, hslots, hdests, hindex, harray, -, -⟩ := hstaged
        have hnone : (do
            errorIf (c.size ≠ s.ptr) .assertion
            errorIf (c.indexVars ≠ s.nt.indexItems.length) .assertion
            errorIf (c.arrayVars ≠ s.nt.arrayItems.length) .assertion
            errorIf (c.infoSlots ≠ s.slotInd) .assertion
            errorIf (c.itemsPerEntry ≠ s.destInd) .assertion
            return (c, s.nt) : Except NtupleStop (StorageSize × CwnTuple)) = .ok (c, s.nt) :=
          errorIf_bind_ok.mpr ⟨not_not.mpr hsize, errorIf_bind_ok.mpr ⟨by omega,
            errorIf_bind_ok.mpr ⟨by omega, errorIf_bind_ok.mpr ⟨not_not.mpr hslots,
              errorIf_bind_ok.mpr ⟨not_not.mpr hdests, rfl⟩⟩⟩⟩⟩
        rw [hnone] at h
        cases h

/-- An event needs no more words than there are places in the tuple. For a tuple that was staged
these are the words that `storage_size` counted. -/
theorem filled_event_in_storage {ops : FloatOps} {nt : CwnTuple} {mem : Nat → UInt8}
    {words : List Nat} (h : cwnFill ops nt mem = some words)
    (hwithin : ∀ a ∈ nt.array2Items, a.Within mem) :
    words.length ≤ nt.storageWords ∧
      ∀ st c, stageLayout st = .ok (c, nt) → 4 * words.length ≤ c.size := by
  have hle : words.length ≤ nt.storageWords := by
    rw [cwnFill_length h]
    exact usedWords_le hwithin
  refine ⟨hle, fun st c hlayout => ?_⟩
  have hsize := ((ends_iff.mp (stageLayout_ends st)).1 (c, nt) hlayout).size
  dsimp only at hsize
  omega

def pairVar : IndexVar2 where
  isArray := true
  src := 40
  lengthMax := 1
  lengthMax2 := 2
  lengthUsed := 1
  lengthUsed2 := 2
  limit2 := [16]
  vars := [[⟨.uint, 0, 48, none⟩, ⟨.uint, 0, 52, none⟩]]
  used := by decide
  used2 := by decide
  tot := by decide
  limits := rfl
  filled := by decide
  nonempty := by decide

def pairItems : StageItems where
  items := [.plain ⟨.uint, 0, 0, none⟩, .index2 pairVar]
  count := by decide
  masked := by decide

def pairStorage : StorageSize := ⟨28, 2, 1, 0, 0, 1⟩

def pairTuple : CwnTuple where
  globalArray := [⟨0, 0, 0, 0, 0⟩]
  indexItems := []
  arrayItems := []
  array2Items := [array2ItemOf pairVar 16 4 [[⟨0, 48, 0, 0, 20⟩, ⟨0, 52, 0, 0, 24⟩]] rfl]

theorem filled_event_in_storage_demo : ∃ words,
    cwnFill singleOps pairTuple demoMem = some words ∧
      stageLayout pairItems = .ok (pairStorage, pairTuple) ∧ words.length = 7 ∧
        words.length ≤ pairTuple.storageWords ∧ 4 * words.length ≤ pairStorage.size := by
  have hlayout : stageLayout pairItems = .ok (pairStorage, pairTuple) := rfl
  have hfill : ((cwnFill singleOps pairTuple demoMem).map List.length) = some 7 := by
    decide +kernel
  obtain ⟨words, hwords, hlen⟩ := Option.map_eq_some_iff.mp hfill
  obtain ⟨hle, hsize⟩ := filled_event_in_storage hwords fun a ha => by
    obtain rfl := List.mem_singleton.mp ha
    unfold Array2Item.Within
    decide +kernel
  exact ⟨words, hwords, hlayout, hlen, hle, hsize _ _ hlayout⟩

end Layout

section Setup

variable {w : ExtWriter} {st : StageItems} {namedStrs : List (Nat × Nat)}

theorem le_foldl_max {α : Type} {f : α → Nat} {as : List α} {size : Nat} :
    size ≤ as.foldl (fun size a => max size (f a)) size := by
  induction as generalizing size with
  | nil => exact Nat.le_refl _
  | cons a as ih => exact (Nat.le_max_left _ _).trans ih

theorem length_le_sum {α : Type} {f : α → Nat} {as : List α} (h : ∀ a, 1 ≤ f a) :
    as.length ≤ (as.map f).sum := by
  induction as with
  | nil => exact Nat.le_refl _
  | cons a as ih =>
    have hfirst := h a
    rw [List.length_cons, List.map_cons, List.sum_cons]
    omega

theorem ctrl_le_storage (nt : CwnTuple) :
    nt.indexItems.length + nt.arrayItems.length + nt.array2Items.length ≤ nt.storageWords := by
  have hindex := @length_le_sum _ IndexItem.storageWords nt.indexItems
    fun a => Nat.le_add_right 1 _
  have harray := @length_le_sum _ ArrayItem.storageWords nt.arrayItems
    fun a => by unfold ArrayItem.storageWords; omega
  have harray2 := @length_le_sum _ Array2Item.storageWords nt.array2Items
    fun a => by unfold Array2Item.storageWords; omega
  unfold CwnTuple.storageWords
  omega

structure SetupOf (w : ExtWriter) (namedStrs : List (Nat × Nat)) (s : StagedNtuple) : Prop where
  used : s.nt.Used
  buf : s.w.buf.size = w.arrangedSize (s.c.maxSize namedStrs)
  sort : s.w.sortU32Words = w.sortU32Words
  raw : s.w.maxRawWords = w.maxRawWords
  entries : s.c.arrayEntries = s.nt.storageWords
  offsets : s.c.offsetsSize = 4 * s.nt.offsetWords
  offsets_lt : 4 * s.nt.offsetWords < 2 ^ 32
  largest : (1 + s.nt.storageWords) * 4 ≤ s.c.maxSize namedStrs ∧
    4 + 2 * s.nt.offsetWords ≤ s.c.maxSize namedStrs
  max_lt : s.c.maxSize namedStrs < 2 ^ 32

theorem stageSetup_ends : Ends (· = .other) (SetupOf w namedStrs) (stageSetup w st namedStrs) := by
  refine ends_bind (stageLayout_ends st) ?_
  rintro ⟨c, nt⟩ hlayout
  obtain ⟨hsize, hindex, harray, harray2, hused⟩ := hlayout
  refine ends_bind (ends_errorIf fun _ => rfl) fun _ hmax => ?_
  obtain ⟨w', hw', hbuf, hsort, hraw⟩ := setMaxMessageSize_ok w (c.maxSize namedStrs)
  dsimp only at hsize hindex harray harray2 hmax ⊢
  rw [hw']
  refine @ends_bind _ _ _ _ (· = w') _ _ _ rfl ?_
  rintro _ rfl
  refine ends_bind (ends_errorIf fun _ => rfl) fun _ _ => ?_
  refine ends_bind (ends_errorIf fun _ => rfl) fun _ hoffsets => ?_
  have hentries : c.arrayEntries = nt.storageWords := by
    rw [StorageSize.arrayEntries, hsize, Nat.mul_div_cancel_left _ (by decide)]
  have hle : (1 + c.arrayEntries + c.ctrlWords) * 4 ≤ c.maxSize namedStrs := le_foldl_max
  have hctrl := ctrl_le_storage nt
  have hwords : c.ctrlWords =
      2 * (nt.indexItems.length + nt.arrayItems.length) + 4 * nt.array2Items.length := by
    rw [StorageSize.ctrlWords, hindex, harray, harray2]
    omega
  have hsum : c.offsetsSize = 4 * nt.offsetWords := by
    rw [StorageSize.offsetsSize, hentries, hwords, CwnTuple.offsetWords]
    omega
  have hlt : 4 * nt.offsetWords < 2 ^ 32 := by omega
  have hfill : (1 + nt.storageWords) * 4 ≤ c.maxSize namedStrs := by omega
  have hhalf : 4 + 2 * nt.offsetWords ≤ c.maxSize namedStrs := by
    unfold CwnTuple.offsetWords
    omega
  have hmaxlt : c.maxSize namedStrs < 2 ^ 32 := by omega
  exact ⟨hused, hbuf, hsort, hraw, hentries, hsum, hlt, ⟨hfill, hhalf⟩, hmaxlt⟩

end Setup

section Messages

variable {bigEndian : Bool} {ops : FloatOps} {w : ExtWriter} {namedStrs : List (Nat × Nat)}
  {s : StagedNtuple}

def CwnTuple.offsetsSpace (nt : CwnTuple) : Nat := 12 + 4 * nt.offsetWords

def ExtWriter.fillBytes (w : ExtWriter) (ev : NtupleEvent) (values : Nat) : Nat :=
  8 + 4 * (w.fillStart (ev.raw.getD 0) + 1 + values)

def OffsetsFit (bigEndian : Bool) (size : Nat) (nt : CwnTuple) : Prop :=
  nt.offsetsSpace ≤ size ∧ LengthPasses bigEndian nt.offsetsSpace nt.offsetsSpace

def NtupleEvent.Sent (ops : FloatOps) (w : ExtWriter) (nt : CwnTuple) (ev : NtupleEvent) : Prop :=
  (w.maxRawWords = 0 ∨ ev.raw.isSome) ∧ (cwnFill ops nt ev.mem).isSome

/-- With no more raw data than announced, the space for all items fits into a buffer. If the event
is sent then it has no more values than there are items, and the length passes. -/
def EventFits (bigEndian : Bool) (ops : FloatOps) (size : Nat) (w : ExtWriter) (nt : CwnTuple)
    (ev : NtupleEvent) : Prop :=
  ev.raw.getD 0 ≤ w.maxRawWords →
    w.fillBytes ev nt.storageWords % 2 ^ 32 ≤ size ∧
    (ev.Sent ops w nt →
      w.fillBytes ev nt.storageWords ≤ size ∧ nt.usedWords ev.mem ≤ nt.storageWords ∧
      LengthPasses bigEndian (w.fillBytes ev nt.storageWords)
        (w.fillBytes ev (nt.usedWords ev.mem)))

theorem WriterBuf.size_lt (b : WriterBuf) : b.size < 2 ^ 32 := by
  have hlen := b.bounds.2
  unfold WriterBuf.size
  split
  · omega
  · exact hlen

theorem stageOffsets_right_iff (h : SetupOf w namedStrs s) :
    MessageRight bigEndian s.w (stageOffsets bigEndian s) ↔
      OffsetsFit bigEndian (w.arrangedSize (s.c.maxSize namedStrs)) s.nt := by
  obtain ⟨list, hlist, hlen⟩ := cwnPtrs_length h.used h.offsets_lt
  have hbuf := s.w.buf.size_lt
  have hspace : 8 + 4 + s.c.offsetsSize = s.nt.offsetsSpace := by
    rw [h.offsets, CwnTuple.offsetsSpace]
  have hwritten : 8 + 4 + 4 * list.length = s.nt.offsetsSpace := by
    rw [hlen, CwnTuple.offsetsSpace]
  rw [OffsetsFit, ← h.buf, stageOffsets, prepareSendOffsets, hspace, hlist]
  by_cases hfits : s.w.buf.size < s.nt.offsetsSpace % 2 ^ 32
  · have hstop : errorIf (s.w.buf.size < s.nt.offsetsSpace % 2 ^ 32) NtupleStop.space =
        .error .space := if_pos hfits
    have hno : ¬s.nt.offsetsSpace ≤ s.w.buf.size := by omega
    simp only [hstop]
    constructor
    · intro hright
      cases hright
    · intro hright
      exact absurd hright.1 hno
  · have hgo : errorIf (s.w.buf.size < s.nt.offsetsSpace % 2 ^ 32) NtupleStop.space = .ok () :=
      if_neg hfits
    have heq : errorIf (list.length ≠ s.c.offsetsSize / 4) NtupleStop.assertion = .ok () := by
      refine if_neg (not_not.mpr ?_)
      rw [hlen, h.offsets, Nat.mul_div_cancel_left _ (by decide)]
    simp only [hgo, heq]
    refine (send_right_iff (Nat.not_lt.mp hfits) (Nat.mod_lt _ (by decide)) (.inl rfl) rfl).trans ?_
    dsimp only
    rw [hwritten]
    constructor
    · rintro ⟨hle, hpass⟩
      have hlt : s.nt.offsetsSpace < 2 ^ 32 := by omega
      rw [Nat.mod_eq_of_lt hlt] at hfits hpass
      exact ⟨Nat.not_lt.mp hfits, hpass⟩
    · rintro ⟨hle, hpass⟩
      rw [Nat.mod_eq_of_lt (by omega)]
      exact ⟨Nat.le_refl _, hpass⟩

theorem fillSpace_eq (w : ExtWriter) (ev : NtupleEvent) (entries : Nat) :
    sizeNtupleFill ((1 + entries) * 4) w.sortU32Words w.maxRawWords (ev.raw.getD 0) =
      w.fillBytes ev entries := by
  unfold sizeNtupleFill ExtWriter.fillBytes ExtWriter.fillStart
  omega

theorem eventFits_setup (h : SetupOf w namedStrs s) (size : Nat) (ev : NtupleEvent) :
    EventFits bigEndian ops size s.w s.nt ev ↔ EventFits bigEndian ops size w s.nt ev := by
  unfold EventFits NtupleEvent.Sent ExtWriter.fillBytes ExtWriter.fillStart
  rw [h.sort, h.raw]

theorem stagedEvent_right_iff (h : SetupOf w namedStrs s) (ev : NtupleEvent) :
    MessageRight bigEndian s.w (stagedEvent bigEndian ops s ev) ↔
      EventFits bigEndian ops (w.arrangedSize (s.c.maxSize namedStrs)) w s.nt ev := by
  rw [← eventFits_setup h]
  have hbuf := s.w.buf.size_lt
  have hmax := h.max_lt
  have hlargest := h.largest.1
  have hsize : errorIf (2 ^ 32 - 1 < (1 + s.nt.storageWords) * 4) NtupleStop.assertion = .ok () :=
    if_neg (by omega)
  rw [EventFits, ← h.buf, stagedEvent, prepareSendFillX, h.entries, fillSpace_eq, hsize]
  by_cases hraw : s.w.maxRawWords < ev.raw.getD 0
  · have hstop : errorIf (s.w.maxRawWords < ev.raw.getD 0) NtupleStop.other = .error .other :=
      if_pos hraw
    rw [hstop]
    exact iff_of_true rfl fun hle => absurd hle (Nat.not_le.mpr hraw)
  · have hgo : errorIf (s.w.maxRawWords < ev.raw.getD 0) NtupleStop.other = .ok () := if_neg hraw
    rw [hgo, forall_prop_of_true (Nat.not_lt.mp hraw)]
    by_cases hfits : s.w.buf.size < s.w.fillBytes ev s.nt.storageWords % 2 ^ 32
    · have hstop : errorIf (s.w.buf.size < s.w.fillBytes ev s.nt.storageWords % 2 ^ 32)
          NtupleStop.space = .error .space := if_pos hfits
      simp only [hstop]
      constructor
      · intro hright
        cases hright
      · intro hright
        exact absurd hright.1 (Nat.not_le.mpr hfits)
    · have hgo : errorIf (s.w.buf.size < s.w.fillBytes ev s.nt.storageWords % 2 ^ 32)
          NtupleStop.space = .ok () := if_neg hfits
      simp only [hgo]
      rw [and_iff_right (Nat.not_lt.mp hfits)]
      by_cases hnone : s.w.maxRawWords ≠ 0 ∧ (s.w.maxRawWords < ev.raw.getD 0 ∨ ev.raw = none)
      · have hstop : errorIf (s.w.maxRawWords ≠ 0 ∧
            (s.w.maxRawWords < ev.raw.getD 0 ∨ ev.raw = none)) NtupleStop.other = .error .other :=
          if_pos hnone
        simp only [hstop]
        refine iff_of_true rfl fun hsent => ?_
        rcases hsent.1 with hzero | hsome
        · exact absurd hzero hnone.1
        · rw [hnone.2.resolve_left hraw] at hsome
          cases hsome
      · have hgo : errorIf (s.w.maxRawWords ≠ 0 ∧
            (s.w.maxRawWords < ev.raw.getD 0 ∨ ev.raw = none)) NtupleStop.other = .ok () :=
          if_neg hnone
        simp only [hgo]
        cases hfill : cwnFill ops s.nt ev.mem with
        | none =>
          refine iff_of_true rfl fun hsent => ?_
          have hsome := hsent.2
          rw [hfill] at hsome
          cases hsome
        | some words =>
          have hsent : ev.Sent ops s.w s.nt := by
            refine ⟨?_, by rw [hfill]; rfl⟩
            by_cases hzero : s.w.maxRawWords = 0
            · exact .inl hzero
            · refine .inr (Option.isSome_iff_ne_none.mpr fun hr => hnone ⟨hzero, .inr hr⟩)
          rw [forall_prop_of_true hsent]
          have hwritten : 8 + 4 * s.w.fillStart (ev.raw.getD 0) + 4 * (1 + words.length) =
              s.w.fillBytes ev (s.nt.usedWords ev.mem) := by
            rw [cwnFill_length hfill, ExtWriter.fillBytes]
            omega
          refine (send_right_iff (Nat.not_lt.mp hfits) (Nat.mod_lt _ (by decide)) (.inr rfl)
            rfl).trans ?_
          dsimp only
          rw [hwritten]
          -- What precedes the values is written whole, so a space that has wrapped is too small.
          have hsame : s.w.fillBytes ev (s.nt.usedWords ev.mem) ≤
              s.w.fillBytes ev s.nt.storageWords ↔
                s.nt.usedWords ev.mem ≤ s.nt.storageWords := by
            unfold ExtWriter.fillBytes
            omega
          have hwrap : s.w.fillBytes ev s.nt.storageWords <
              s.w.fillBytes ev (s.nt.usedWords ev.mem) + 2 ^ 32 := by
            unfold ExtWriter.fillBytes
            omega
          constructor
          · rintro ⟨hle, hpass⟩
            have hlt : s.w.fillBytes ev s.nt.storageWords < 2 ^ 32 := by omega
            rw [Nat.mod_eq_of_lt hlt] at hfits hle hpass
            exact ⟨Nat.not_lt.mp hfits, hsame.mp hle, hpass⟩
          · rintro ⟨hle, hused, hpass⟩
            rw [Nat.mod_eq_of_lt (by omega)]
            exact ⟨hsame.mpr hused, hpass⟩

theorem messages_have_room (h : SetupOf w namedStrs s)
    (hlt : sizeNtupleFill (s.c.maxSize namedStrs) w.sortU32Words w.maxRawWords w.maxRawWords ≤
      2 ^ 30 - 1024) :
    s.nt.offsetsSpace ≤ w.arrangedSize (s.c.maxSize namedStrs) ∧
      ∀ ev : NtupleEvent, ev.raw.getD 0 ≤ w.maxRawWords →
        w.fillBytes ev s.nt.storageWords ≤ w.arrangedSize (s.c.maxSize namedStrs) := by
  obtain ⟨hfill, hoffsets⟩ := h.largest
  refine ⟨arrangedSize_ge hlt ?_, fun ev hraw => arrangedSize_ge hlt ?_⟩
  · unfold CwnTuple.offsetsSpace sizeNtupleFill
    omega
  · unfold ExtWriter.fillBytes ExtWriter.fillStart sizeNtupleFill
    split
    · omega
    · omega

end Messages

/-- The largest message with its header is not beyond what is counted in 32 bits, no second length
is beyond the one used, and the lengths pass. -/
def WithinLimits (bigEndian : Bool) (w : ExtWriter) (namedStrs : List (Nat × Nat))
    (events : List NtupleEvent) (s : StagedNtuple) : Prop :=
  sizeNtupleFill (s.c.maxSize namedStrs) w.sortU32Words w.maxRawWords w.maxRawWords ≤
      2 ^ 30 - 1024 ∧
    LengthPasses bigEndian s.nt.offsetsSpace s.nt.offsetsSpace ∧
    ∀ ev ∈ events, ev.raw.getD 0 ≤ w.maxRawWords →
      (∀ a ∈ s.nt.array2Items, a.Within ev.mem) ∧
      LengthPasses bigEndian (w.fillBytes ev s.nt.storageWords)
        (w.fillBytes ev (s.nt.usedWords ev.mem))

theorem WithinLimits.fits {bigEndian : Bool} {w : ExtWriter} {namedStrs : List (Nat × Nat)}
    {events : List NtupleEvent} {s : StagedNtuple} (h : WithinLimits bigEndian w namedStrs events s)
    (hsetup : SetupOf w namedStrs s) (ops : FloatOps) :
    OffsetsFit bigEndian (w.arrangedSize (s.c.maxSize namedStrs)) s.nt ∧
      ∀ ev ∈ events, EventFits bigEndian ops (w.arrangedSize (s.c.maxSize namedStrs)) w s.nt ev := by
  obtain ⟨hlt, hoffsets, hevents⟩ := h
  obtain ⟨hspace, hroom⟩ := messages_have_room hsetup hlt
  refine ⟨⟨hspace, hoffsets⟩, fun ev hev hraw => ?_⟩
  obtain ⟨hwithin, hpass⟩ := hevents ev hev hraw
  have hfill := hroom ev hraw
  exact ⟨(Nat.mod_le _ _).trans hfill, fun _ => ⟨hfill, usedWords_le hwithin, hpass⟩⟩

/-- The messages are right if and only if, once an ntuple is staged, the offsets message and the
event messages fit the buffer with their lengths. They do within the limits. -/
theorem ntuple_messages_right_iff (bigEndian : Bool) (ops : FloatOps) (w : ExtWriter)
    (st : StageItems) (namedStrs : List (Nat × Nat)) (events : List NtupleEvent) :
    (NtupleMessagesRight bigEndian ops w st namedStrs events ↔
      ∀ s, stageSetup w st namedStrs = .ok s →
        OffsetsFit bigEndian (w.arrangedSize (s.c.maxSize namedStrs)) s.nt ∧
        ∀ ev ∈ events,
          EventFits bigEndian ops (w.arrangedSize (s.c.maxSize namedStrs)) w s.nt ev) ∧
      ((∀ s, stageSetup w st namedStrs = .ok s → WithinLimits bigEndian w namedStrs events s) →
        NtupleMessagesRight bigEndian ops w st namedStrs events) := by
  have hends := ends_iff.mp (@stageSetup_ends w st namedStrs)
  have hiff : NtupleMessagesRight bigEndian ops w st namedStrs events ↔
      ∀ s, stageSetup w st namedStrs = .ok s →
        OffsetsFit bigEndian (w.arrangedSize (s.c.maxSize namedStrs)) s.nt ∧
        ∀ ev ∈ events,
          EventFits bigEndian ops (w.arrangedSize (s.c.maxSize namedStrs)) w s.nt ev := by
    rw [NtupleMessagesRight, ends_iff, and_iff_left hends.2]
    refine forall_congr' fun s => forall_congr' fun hs => ?_
    have hsetup := hends.1 s hs
    exact and_congr (stageOffsets_right_iff hsetup)
      (forall_congr' fun ev => forall_congr' fun _ => stagedEvent_right_iff hsetup ev)
  exact ⟨hiff, fun h => hiff.mpr fun s hs => (h s hs).fits (hends.1 s hs) ops⟩

section Example

def plainOps : FloatOps := ⟨fun _ bits => bits, fun _ word => word, fun _ => true⟩

theorem demoPages : externalWriterMinSharedSize ∣ externalWriterMinSharedSize ∧
    externalWriterMinSharedSize ≤ externalWriterMinSharedSize ∧
    externalWriterMinSharedSize < 2 ^ 32 := by decide

def rawWriter : ExtWriter where
  buf := ⟨false, externalWriterMinSharedSize, demoPages.1, demoPages.2⟩
  sortU32Words := 1
  maxRawWords := 16376

def triggerItem : NtupleItem := ⟨.uint, 0, 0, none⟩

def triggerItems : StageItems where
  items := [.plain triggerItem]
  count := by decide
  masked := by
    intro item hitem v hv
    cases List.mem_singleton.mp hitem
    cases hv

def triggerStorage : StorageSize := ⟨4, 2, 1, 0, 0, 0⟩

def triggerTuple : CwnTuple := ⟨[⟨0, 0, 0, 0, 0⟩], [], [], []⟩

theorem ntuple_length_swapped : ¬NtupleMessagesRight false plainOps rawWriter triggerItems []
    [⟨fun _ => 0, some 16376⟩] := by
  intro h
  obtain ⟨w, hw, -⟩ := setMaxMessageSize_ok rawWriter (triggerStorage.maxSize [])
  have hlayout : stageLayout triggerItems = .ok (triggerStorage, triggerTuple) := rfl
  have hsetup : stageSetup rawWriter triggerItems [] = .ok ⟨w, triggerStorage, triggerTuple⟩ :=
    bind_eq_ok.mpr ⟨_, hlayout, errorIf_bind_ok.mpr ⟨by decide, bind_eq_ok.mpr ⟨w, hw,
      errorIf_bind_ok.mpr ⟨by simp, errorIf_bind_ok.mpr ⟨by decide, rfl⟩⟩⟩⟩⟩
  have hfits := (ntuple_messages_right_iff _ _ _ _ _ _).1.mp h _ hsetup
  have hevent := hfits.2 _ List.mem_cons_self (by decide)
  have hbytes : rawWriter.fillBytes ⟨fun _ => 0, some 16376⟩ 1 = 65536 := by decide
  have hwords : triggerTuple.storageWords = 1 ∧ triggerTuple.usedWords (fun _ => 0) = 1 := by decide
  have hpass := (hevent.2 ⟨.inr rfl, rfl⟩).2.2
  dsimp only at hpass
  rw [hwords.1, hwords.2, hbytes] at hpass
  rcases hpass with hbig | hle
  · cases hbig
  · exact absurd hle (by decide)

end Example

end Ucesb
