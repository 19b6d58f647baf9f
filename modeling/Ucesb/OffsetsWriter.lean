import Mathlib.Data.List.Perm.Subperm
import Ucesb.EventMerge
import Ucesb.OffsetsMessage

namespace Ucesb

def arrayMarks : Nat := externalWriterMarkArrayInd1 ||| externalWriterMarkArrayMind
def indexMarks : Nat := externalWriterMarkItemIndex ||| externalWriterMarkItemEndnum

def useStage (stageLength : Nat) (uses : Nat → Nat) (offset : Nat) :
    Except OffsetsStop (Nat → Nat) := do
  errorIf (stageLength ≤ offset) (.rejected "Offset entry is outside stage array.")
  errorIf (offset &&& 3 ≠ 0) (.rejected "Offset entry is unaligned.")
  errorIf (stageLength < offset + 4) (.fault .stage)
  return Function.update uses offset ((uses offset + 1) % 2 ^ 32)

structure WriterList where
  list : OrigList
  marks : List Nat
  uses : Nat → Nat
  hadLoop : Bool
  expectMind : Bool

def checkEntryMark (s : WriterList) (mark : Nat) : Except OffsetsStop Unit := do
  errorIf (mark &&& externalWriterMarkMergeInfo ≠ 0 ∧ s.hadLoop = true)
    (.rejected "Mark entry has merge info after loop item, offset not fixed.")
  errorIf (mark &&& externalWriterMarkLoop = 0 ∧ mark &&& arrayMarks ≠ 0)
    (.rejected "Mark entry has loop specialisation info but is not loop control.")
  errorIf (mark &&& externalWriterMarkLoop ≠ 0 ∧ mark &&& indexMarks ≠ 0)
    (.rejected "Mark entry has array index item info but is loop control.")
  errorIf (s.expectMind = true ∧ mark &&& externalWriterMarkLoop = 0)
    (.rejected "Mark entry expected to be 2nd loop after m-ind loop, but is not loop control.")

/-- `i` is the index within the loop that `control` is the mark of. -/
def checkItemMark (control i mark : Nat) : Except OffsetsStop Unit := do
  errorIf (mark &&& externalWriterMarkLoop ≠ 0)
    (.rejected "Controlled offset array item is marked as control item.")
  errorIf (mark &&& externalWriterMarkItemIndex ≠ 0 ∧ i ≠ 0)
    (.rejected "Controlled offset array item is marked as index at non-0 index.")
  errorIf (mark &&& externalWriterMarkItemEndnum ≠ 0 ∧ i ≠ 1)
    (.rejected "Controlled offset array item is marked as endnum at non-1 index.")
  errorIf (control &&& arrayMarks ≠ 0 ∧ i = 0 ∧ mark &&& externalWriterMarkItemIndex = 0)
    (.rejected "Controlled offset array item is not marked as index, but at index 0.")
  errorIf (control &&& externalWriterMarkArrayMind ≠ 0 ∧ i = 1 ∧
      mark &&& externalWriterMarkItemEndnum = 0)
    (.rejected "Controlled offset array item is not marked as index, but at index 1.")

structure WriterItems where
  copied : List Nat
  rest : List Nat
  uses : Nat → Nat

/-- The loops over `max_loops` and `loop_size`, for the items that are left. -/
def writerItems (stageLength control loopSize : Nat) :
    Nat → Nat → List Nat → (Nat → Nat) → Except OffsetsStop WriterItems
  | 0, _, o, uses => .ok ⟨[], o, uses⟩
  | n + 1, i, mark :: offset :: o, uses => do
    let uses ← useStage stageLength uses offset
    checkItemMark control i mark
    let next := if i + 1 = loopSize then 0 else i + 1
    let r ← writerItems stageLength control loopSize n next o uses
    return { r with copied := mark :: offset :: r.copied }
  | _, _, _, _ => .error (.fault .message)

def checkLoop (mark : Nat) : Except OffsetsStop Unit :=
  errorIf (mark &&& externalWriterMarkClearZero = 0)
    (.rejected "Offset ctrl entry marker says clean float (NaN).")

def checkLimits (mark maxLoops loopSize left : Nat) : Except OffsetsStop Unit := do
  errorIf (mark &&& externalWriterMarkArrayMind ≠ 0 ∧ loopSize ≠ 2)
    (.rejected "Mark ctrl entry specifies multi-index loop, but loop_size != 2.")
  errorIf (left < 2 * (maxLoops * loopSize) % 2 ^ 32)
    (.rejected "Offset ctrl entry specifies controlled entries overflowing array.")

def checkEntry (stageLength : Nat) (s : WriterList) (mark offset : Nat) :
    Except OffsetsStop (Nat → Nat) := do
  errorIf (mark &&& externalWriterMarkCanaryMask ≠ externalWriterMarkCanary)
    (.rejected "Mark entry has bad canary.")
  let uses ← useStage stageLength s.uses offset
  checkEntryMark s mark
  return uses

def WriterList.used (s : WriterList) (offset : Nat) : Nat → Nat :=
  Function.update s.uses offset ((s.uses offset + 1) % 2 ^ 32)

def WriterList.item (s : WriterList) (mark offset : Nat) (uses : Nat → Nat) : WriterList :=
  ⟨⟨s.list.packList ++ [mark, offset], (s.list.staticPackItems + 1) % 2 ^ 32,
    s.list.maxPackItems⟩, s.marks ++ [mark], uses, s.hadLoop,
    mark &&& externalWriterMarkArrayMind != 0⟩

def WriterList.loop (s : WriterList) (mark offset maxLoops loopSize : Nat) (copied : List Nat)
    (uses : Nat → Nat) : WriterList :=
  ⟨⟨s.list.packList ++ [mark, offset, maxLoops, loopSize] ++ copied,
    (s.list.staticPackItems + 1) % 2 ^ 32,
    (s.list.maxPackItems + maxLoops * loopSize % 2 ^ 32) % 2 ^ 32⟩, s.marks ++ [mark], uses, true,
    mark &&& externalWriterMarkArrayMind != 0⟩

def writerListFrom (stageLength : Nat) : Nat → List Nat → WriterList → Except OffsetsStop WriterList
  | _, [], s => .ok s
  | fuel + 1, mark :: offset :: o, s => do
    let uses ← checkEntry stageLength s mark offset
    if mark &&& externalWriterMarkLoop = 0 then
      writerListFrom stageLength fuel o (s.item mark offset uses)
    else do
      checkLoop mark
      match o with
      | maxLoops :: loopSize :: o => do
        checkLimits mark maxLoops loopSize o.length
        let r ← writerItems stageLength mark loopSize (maxLoops * loopSize) 0 o uses
        writerListFrom stageLength fuel r.rest
          (s.loop mark offset maxLoops loopSize r.copied r.uses)
      | _ => .error (.rejected "Offset ctrl entry overflows array.")
  | _, _, _ => .error (.fault .message)

def checkUsed (stageLength : Nat) (uses : Nat → Nat) : Nat → Nat → Except OffsetsStop Unit
  | 0, _ => .ok ()
  | n + 1, p =>
    if stageLength ≤ p then .ok ()
    else do
      errorIf (stageLength < p + 4) (.fault .stage)
      errorIf (uses p ≠ 1) (.rejected "Stage area item is not used exactly once.")
      checkUsed stageLength uses n (p + 4)

/-- What there is when the message comes. The checksum is that of the structure, if it is known. -/
structure OffsetsWriter where
  curStructure : Bool
  xorSum : Option Nat
  offsetLength : Nat
  stageLength : Nat
  tsMergeWindow : Nat
deriving DecidableEq

def checkMergeMarks (tsMergeWindow : Nat) (marks : List Nat) : Except OffsetsStop Unit := do
  errorIf (tsMergeWindow ≠ 0 ∧ ∀ mark ∈ marks, mark &&& externalWriterMarkTsLo = 0)
    (.rejected "Cannot merge (time_stitch) without TSTAMPLO.")
  errorIf (tsMergeWindow ≠ 0 ∧ ∀ mark ∈ marks, mark &&& externalWriterMarkTsHi = 0)
    (.rejected "Cannot merge (time_stitch) without TSTAMPHI.")
  errorIf (tsMergeWindow ≠ 0 ∧ ∀ mark ∈ marks, mark &&& externalWriterMarkTsSrcid = 0)
    (.rejected "Cannot merge (time_stitch) without TSTAMPSRCID.")

def writerFinish (w : OffsetsWriter) (s : WriterList) : Except OffsetsStop OrigList := do
  errorIf (s.expectMind = true) (.rejected "Missing expected 2nd loop after m-ind loop.")
  checkUsed w.stageLength s.uses w.stageLength 0
  checkMergeMarks w.tsMergeWindow s.marks
  return { s.list with
    maxPackItems := (s.list.maxPackItems + s.list.staticPackItems) % 2 ^ 32 }

def OffsetsWriter.mismatch (w : OffsetsWriter) (xor : Nat) : Bool :=
  xor != 0 && w.xorSum.any (· != xor)

def writerStart : WriterList := ⟨⟨[], 0, 0⟩, [], fun _ => 0, false, false⟩

@[irreducible]
def requestArrayOffsetsMessage (w : OffsetsWriter) (m : OffsetsMessage) :
    Except OffsetsStop OrigList := do
  errorIf (w.curStructure = false)
    (.rejected "Cannot allocate offsets - no structure being defined.")
  errorIf ((m.length + 2 ^ 32 - 8) % 2 ^ 32 < 4)
    (.rejected "SHM message has no space for uint32.")
  match m.body with
  | [] => .error (.fault .message)
  | xor :: o => do
    errorIf (w.mismatch xor = true) (.rejected "Mismatch between received and calculated xor_sum.")
    errorIf (w.offsetLength ≠ 0) (.rejected "Offset already allocated.")
    let s ← writerListFrom w.stageLength o.length o writerStart
    writerFinish w s

/-- A list that is taken over can be walked safely, and any other is refused within the message and
the stage array. -/
def WriterListSound (w : OffsetsWriter) (m : OffsetsMessage) : Prop :=
  Ends (fun stop => ∃ message, stop = .rejected message)
    (fun s => WalkSafe s.packList s.staticPackItems s.maxPackItems w.stageLength)
    (requestArrayOffsetsMessage w m)

def HalfOutside (stageLength offset : Nat) : Prop :=
  offset < stageLength ∧ offset &&& 3 = 0 ∧ stageLength < offset + 4

def ItemPasses (stageLength control i mark offset : Nat) : Prop :=
  offset &&& 3 = 0 ∧ offset + 4 ≤ stageLength ∧ checkItemMark control i mark = .ok ()

def EntryPasses (stageLength : Nat) (s : WriterList) (mark offset : Nat) : Prop :=
  mark &&& externalWriterMarkCanaryMask = externalWriterMarkCanary ∧
    offset &&& 3 = 0 ∧ offset + 4 ≤ stageLength ∧ checkEntryMark s mark = .ok ()

/-- The items of a loop, of which there are too few. All that come before are right. -/
inductive ItemsOverrun (stageLength control loopSize : Nat) : Nat → Nat → List Nat → Prop
  | short {n i : Nat} {o : List Nat} :
      o.length < 2 → ItemsOverrun stageLength control loopSize (n + 1) i o
  | stage {n i mark offset : Nat} {o : List Nat} : HalfOutside stageLength offset →
      ItemsOverrun stageLength control loopSize (n + 1) i (mark :: offset :: o)
  | next {n i mark offset : Nat} {o : List Nat} :
      ItemPasses stageLength control i mark offset →
      ItemsOverrun stageLength control loopSize n (if i + 1 = loopSize then 0 else i + 1) o →
      ItemsOverrun stageLength control loopSize (n + 1) i (mark :: offset :: o)

/-- All the items of a loop are there and right, and have been counted. -/
inductive ItemsPass (stageLength control loopSize : Nat) :
    Nat → Nat → List Nat → (Nat → Nat) → WriterItems → Prop
  | nil {i : Nat} {o : List Nat} {uses : Nat → Nat} :
      ItemsPass stageLength control loopSize 0 i o uses ⟨[], o, uses⟩
  | next {n i mark offset : Nat} {o : List Nat} {uses : Nat → Nat} {r : WriterItems} :
      ItemPasses stageLength control i mark offset →
      ItemsPass stageLength control loopSize n (if i + 1 = loopSize then 0 else i + 1) o
        (Function.update uses offset ((uses offset + 1) % 2 ^ 32)) r →
      ItemsPass stageLength control loopSize (n + 1) i (mark :: offset :: o) uses
        { r with copied := mark :: offset :: r.copied }

/-- The entries before are right. Then one is cut off after its mark, or is only half in the stage
array, or is a loop with too few items, the number of which comes out small enough; or all entries
are right, and the stage array ends with a part of a word. -/
inductive WriterOverrun (stageLength : Nat) : WriterList → List Nat → Prop
  | mark {s : WriterList} {mark : Nat} : WriterOverrun stageLength s [mark]
  | stage {s : WriterList} {mark offset : Nat} {o : List Nat} :
      mark &&& externalWriterMarkCanaryMask = externalWriterMarkCanary →
      HalfOutside stageLength offset → WriterOverrun stageLength s (mark :: offset :: o)
  | count {s : WriterList} {mark offset maxLoops loopSize : Nat} {o : List Nat} :
      EntryPasses stageLength s mark offset → mark &&& externalWriterMarkLoop ≠ 0 →
      checkLoop mark = .ok () → checkLimits mark maxLoops loopSize o.length = .ok () →
      ItemsOverrun stageLength mark loopSize (maxLoops * loopSize) 0 o →
      WriterOverrun stageLength s (mark :: offset :: maxLoops :: loopSize :: o)
  | item {s : WriterList} {mark offset : Nat} {o : List Nat} :
      EntryPasses stageLength s mark offset → mark &&& externalWriterMarkLoop = 0 →
      WriterOverrun stageLength (s.item mark offset (s.used offset)) o →
      WriterOverrun stageLength s (mark :: offset :: o)
  | loop {s : WriterList} {mark offset maxLoops loopSize : Nat} {o : List Nat} {r : WriterItems} :
      EntryPasses stageLength s mark offset → mark &&& externalWriterMarkLoop ≠ 0 →
      checkLoop mark = .ok () → checkLimits mark maxLoops loopSize o.length = .ok () →
      ItemsPass stageLength mark loopSize (maxLoops * loopSize) 0 o (s.used offset) r →
      WriterOverrun stageLength (s.loop mark offset maxLoops loopSize r.copied r.uses) r.rest →
      WriterOverrun stageLength s (mark :: offset :: maxLoops :: loopSize :: o)
  | stageEnd {s : WriterList} : s.expectMind = false → stageLength % 4 ≠ 0 →
      (∀ k, 4 * k + 4 ≤ stageLength → s.uses (4 * k) = 1) → WriterOverrun stageLength s []

def Refused (stop : OffsetsStop) : Prop := ∃ message, stop = .rejected message

section Checks

variable {stageLength control loopSize n i offset mark : Nat} {o : List Nat} {uses : Nat → Nat}
  {s : WriterList}

theorem ends_refuse {c : Prop} [Decidable c] {message : String} {stop : OffsetsStop → Prop}
    (h : ∀ e, Refused e → stop e) :
    Ends stop (fun _ => ¬c) (errorIf c (OffsetsStop.rejected message)) :=
  ends_errorIf fun _ => h _ ⟨message, rfl⟩

theorem ends_refused {c : Prop} [Decidable c] {message : String} :
    Ends Refused (fun _ => True) (errorIf c (OffsetsStop.rejected message)) :=
  ends_mono (ends_refuse fun _ h => h) (fun _ h => h) fun _ _ => trivial

theorem ends_check {x : Except OffsetsStop Unit} {stop : OffsetsStop → Prop}
    (h : Ends Refused (fun _ => True) x) (hstop : ∀ e, Refused e → stop e) :
    Ends stop (fun _ => x = .ok ()) x := by
  cases x with
  | error e => exact hstop e h
  | ok u => rfl

theorem checkEntryMark_ends (s : WriterList) (mark : Nat) :
    Ends Refused (fun _ => True) (checkEntryMark s mark) := by
  unfold checkEntryMark
  refine ends_bind (ends_refuse fun _ h => h) fun _ _ => ?_
  refine ends_bind (ends_refuse fun _ h => h) fun _ _ => ?_
  refine ends_bind (ends_refuse fun _ h => h) fun _ _ => ?_
  exact ends_refused

theorem checkItemMark_ends (control i mark : Nat) :
    Ends Refused (fun _ => True) (checkItemMark control i mark) := by
  unfold checkItemMark
  refine ends_bind (ends_refuse fun _ h => h) fun _ _ => ?_
  refine ends_bind (ends_refuse fun _ h => h) fun _ _ => ?_
  refine ends_bind (ends_refuse fun _ h => h) fun _ _ => ?_
  refine ends_bind (ends_refuse fun _ h => h) fun _ _ => ?_
  exact ends_refused

theorem checkLoop_ends (mark : Nat) : Ends Refused (fun _ => True) (checkLoop mark) :=
  ends_refused

theorem checkLimits_ends (mark maxLoops loopSize left : Nat) :
    Ends Refused (fun _ => True) (checkLimits mark maxLoops loopSize left) := by
  unfold checkLimits
  refine ends_bind (ends_refuse fun _ h => h) fun _ _ => ?_
  exact ends_refused

theorem checkMergeMarks_ends (tsMergeWindow : Nat) (marks : List Nat) :
    Ends Refused (fun _ => True) (checkMergeMarks tsMergeWindow marks) := by
  unfold checkMergeMarks
  refine ends_bind (ends_refuse fun _ h => h) fun _ _ => ?_
  refine ends_bind (ends_refuse fun _ h => h) fun _ _ => ?_
  exact ends_refused

theorem useStage_ends (stageLength : Nat) (uses : Nat → Nat) (offset : Nat) :
    Ends (fun e => Refused e ∨ HalfOutside stageLength offset)
      (fun uses' => offset &&& 3 = 0 ∧ offset + 4 ≤ stageLength ∧
        uses' = Function.update uses offset ((uses offset + 1) % 2 ^ 32))
      (useStage stageLength uses offset) := by
  unfold useStage
  refine ends_bind (ends_refuse fun _ => .inl) fun _ hin => ?_
  refine ends_bind (ends_refuse fun _ => .inl) fun _ haligned => ?_
  have haligned := not_not.mp haligned
  refine ends_bind (ends_errorIf fun hhalf => .inr ⟨by omega, haligned, hhalf⟩) fun _ hwhole => ?_
  exact ⟨haligned, by omega, rfl⟩

theorem useStage_ok (hoffset : offset &&& 3 = 0) (h : offset + 4 ≤ stageLength) :
    useStage stageLength uses offset =
      .ok (Function.update uses offset ((uses offset + 1) % 2 ^ 32)) := by
  unfold useStage errorIf
  rw [if_neg (by omega), if_neg (not_not.mpr hoffset), if_neg (by omega)]
  rfl

theorem useStage_fault (h : HalfOutside stageLength offset) :
    useStage stageLength uses offset = .error (.fault .stage) := by
  obtain ⟨hin, hoffset, hhalf⟩ := h
  unfold useStage errorIf
  rw [if_neg (by omega), if_neg (not_not.mpr hoffset), if_pos hhalf]
  rfl

theorem writerItems_ends (stageLength control loopSize n i : Nat) (o : List Nat)
    (uses : Nat → Nat) :
    Ends (fun e => Refused e ∨ ItemsOverrun stageLength control loopSize n i o)
      (ItemsPass stageLength control loopSize n i o uses)
      (writerItems stageLength control loopSize n i o uses) := by
  induction n generalizing i o uses with
  | zero =>
    unfold writerItems
    exact .nil
  | succ n ih =>
    rcases o with _ | ⟨mark, _ | ⟨offset, o⟩⟩
    · exact .inr (.short (by simp))
    · exact .inr (.short (by simp))
    unfold writerItems
    refine ends_bind_stop (useStage_ends _ _ _)
      (fun e h => h.imp_right ItemsOverrun.stage) fun uses' h => ?_
    obtain ⟨haligned, hinside, rfl⟩ := h
    refine ends_bind (ends_check (checkItemMark_ends _ _ _) fun _ => .inl) fun _ hmark => ?_
    have hpasses : ItemPasses stageLength control i mark offset := ⟨haligned, hinside, hmark⟩
    refine ends_bind_stop (ih _ o _)
      (fun e h => h.imp_right (ItemsOverrun.next hpasses)) fun r hr => ?_
    exact ItemsPass.next hpasses hr

theorem writerItems_ok {r : WriterItems}
    (h : ItemsPass stageLength control loopSize n i o uses r) :
    writerItems stageLength control loopSize n i o uses = .ok r := by
  induction h with
  | nil =>
    unfold writerItems
    rfl
  | next hpasses _ ih =>
    obtain ⟨haligned, hinside, hmark⟩ := hpasses
    unfold writerItems
    rw [useStage_ok haligned hinside, hmark]
    simp only [bind, Except.bind]
    rw [ih]
    rfl

theorem writerItems_fault (h : ItemsOverrun stageLength control loopSize n i o)
    (uses : Nat → Nat) :
    ∃ f, writerItems stageLength control loopSize n i o uses = .error (.fault f) := by
  induction h generalizing uses with
  | @short n i o hshort =>
    rcases o with _ | ⟨mark, _ | ⟨offset, o⟩⟩
    · exact ⟨_, rfl⟩
    · exact ⟨_, rfl⟩
    · simp only [List.length_cons] at hshort
      omega
  | stage hhalf =>
    unfold writerItems
    rw [useStage_fault hhalf]
    exact ⟨_, rfl⟩
  | @next n i mark offset o hpasses _ ih =>
    obtain ⟨haligned, hinside, hmark⟩ := hpasses
    obtain ⟨f, hf⟩ := ih (Function.update uses offset ((uses offset + 1) % 2 ^ 32))
    refine ⟨f, ?_⟩
    unfold writerItems
    rw [useStage_ok haligned hinside, hmark]
    simp only [bind, Except.bind]
    rw [hf]

theorem ItemsPass.items {r : WriterItems}
    (h : ItemsPass stageLength control loopSize n i o uses r) :
    2 * n ≤ o.length ∧ r.copied = o.take (2 * n) ∧ r.rest = o.drop (2 * n) ∧
      ∃ items, loopOffsets n o = some items ∧ ∀ a ∈ items, a + 4 ≤ stageLength := by
  induction h with
  | nil => exact ⟨Nat.zero_le _, rfl, rfl, [], rfl, by simp⟩
  | @next n i mark offset o uses r hpasses _ ih =>
    obtain ⟨htwice, hcopied, hrest, items, hitems, hinside⟩ := ih
    have hsucc : 2 * (n + 1) = 2 * n + 1 + 1 := by omega
    refine ⟨?_, ?_, ?_, offset :: items, ?_, ?_⟩
    · simp only [List.length_cons]
      omega
    · rw [hsucc, List.take_succ_cons, List.take_succ_cons, ← hcopied]
    · rw [hsucc, List.drop_succ_cons, List.drop_succ_cons, ← hrest]
    · rw [loopOffsets, hitems]
      rfl
    · intro a ha
      rcases List.mem_cons.mp ha with rfl | ha
      · exact hpasses.2.1
      · exact hinside a ha

theorem checkEntry_ends (stageLength : Nat) (s : WriterList) (mark offset : Nat) :
    Ends (fun e => Refused e ∨
        mark &&& externalWriterMarkCanaryMask = externalWriterMarkCanary ∧
          HalfOutside stageLength offset)
      (fun uses => EntryPasses stageLength s mark offset ∧ uses = s.used offset)
      (checkEntry stageLength s mark offset) := by
  unfold checkEntry
  refine ends_bind (ends_refuse fun _ => .inl) fun _ hcanary => ?_
  have hcanary := not_not.mp hcanary
  refine ends_bind_stop (useStage_ends _ _ _)
    (fun e h => h.imp_right fun hhalf => ⟨hcanary, hhalf⟩) fun uses h => ?_
  obtain ⟨haligned, hinside, rfl⟩ := h
  refine ends_bind (ends_check (checkEntryMark_ends _ _) fun _ => .inl) fun _ hmark => ?_
  exact ⟨⟨hcanary, haligned, hinside, hmark⟩, rfl⟩

theorem checkEntry_ok (h : EntryPasses stageLength s mark offset) :
    checkEntry stageLength s mark offset = .ok (s.used offset) := by
  obtain ⟨hcanary, haligned, hinside, hmark⟩ := h
  unfold checkEntry errorIf
  rw [if_neg (not_not.mpr hcanary), useStage_ok haligned hinside, hmark]
  rfl

theorem checkEntry_fault
    (hcanary : mark &&& externalWriterMarkCanaryMask = externalWriterMarkCanary)
    (h : HalfOutside stageLength offset) :
    checkEntry stageLength s mark offset = .error (.fault .stage) := by
  unfold checkEntry errorIf
  rw [if_neg (not_not.mpr hcanary), useStage_fault h]
  rfl

end Checks

section List

variable {w : OffsetsWriter} {fuel : Nat} {list : List Nat} {s : WriterList}

theorem checkUsed_ends (stageLength : Nat) (uses : Nat → Nat) (n j : Nat) :
    Ends (fun e => Refused e ∨ stageLength % 4 ≠ 0 ∧
        ∀ k, j ≤ k → 4 * k + 4 ≤ stageLength → uses (4 * k) = 1)
      (fun _ => True) (checkUsed stageLength uses n (4 * j)) := by
  induction n generalizing j with
  | zero => trivial
  | succ n ih =>
    unfold checkUsed
    split
    · trivial
    next hin =>
      refine ends_bind (ends_errorIf fun hpart => .inr ⟨by omega, ?_⟩) fun _ _ => ?_
      · intro k hk hwhole
        omega
      refine ends_bind (ends_refuse fun _ => .inl) fun _ hused => ?_
      have hnext := ih (j + 1)
      rw [Nat.mul_add, Nat.mul_one] at hnext
      refine ends_mono hnext (fun e h => h.imp_right fun hrest => ⟨hrest.1, ?_⟩) fun _ h => h
      intro k hk hwhole
      rcases Nat.eq_or_lt_of_le hk with rfl | hk
      · exact not_not.mp hused
      · exact hrest.2 k hk hwhole

theorem checkUsed_fault {stageLength n j : Nat} {uses : Nat → Nat} (hpart : stageLength % 4 ≠ 0)
    (hused : ∀ k, 4 * k + 4 ≤ stageLength → uses (4 * k) = 1) (hj : 4 * j < stageLength)
    (hn : stageLength ≤ 4 * j + n) :
    checkUsed stageLength uses n (4 * j) = .error (.fault .stage) := by
  induction n generalizing j with
  | zero => omega
  | succ n ih =>
    unfold checkUsed errorIf
    rw [if_neg (by omega)]
    by_cases hwhole : 4 * j + 4 ≤ stageLength
    · rw [if_neg (by omega), if_neg (not_not.mpr (hused j hwhole))]
      have hnext := @ih (j + 1) (by omega) (by omega)
      rw [Nat.mul_add, Nat.mul_one] at hnext
      exact hnext
    · rw [if_pos (by omega)]
      rfl

theorem writerFinish_ends (w : OffsetsWriter) (s : WriterList) :
    Ends (fun e => Refused e ∨ WriterOverrun w.stageLength s [])
      (fun l => l = ⟨s.list.packList, s.list.staticPackItems,
        (s.list.maxPackItems + s.list.staticPackItems) % 2 ^ 32⟩) (writerFinish w s) := by
  unfold writerFinish
  refine ends_bind (ends_refuse fun _ => .inl) fun _ hmind => ?_
  refine ends_bind_stop (checkUsed_ends w.stageLength s.uses w.stageLength 0)
    (fun e h => h.imp_right fun hused => ?_) fun _ _ => ?_
  · exact .stageEnd (Bool.eq_false_iff.mpr hmind) hused.1 fun k => hused.2 k (Nat.zero_le _)
  exact ends_bind (ends_check (checkMergeMarks_ends _ _) fun _ => .inl) fun _ _ => rfl

def TakenOver (w : OffsetsWriter) (s : WriterList) (list : List Nat) (l : OrigList) : Prop :=
  ∃ entries, PackListOf list entries ∧ (∀ e ∈ entries, e.Counted) ∧
    (∀ a ∈ entryOffsets entries, a + 4 ≤ w.stageLength) ∧
    l = ⟨s.list.packList ++ list, s.list.staticPackItems + entries.length,
      s.list.maxPackItems + s.list.staticPackItems + (entryOffsets entries).length⟩

theorem TakenOver.item {mark offset : Nat} {o : List Nat} {l : OrigList}
    (hentry : EntryPasses w.stageLength s mark offset) (hmark : mark &&& externalWriterMarkLoop = 0)
    (hstatic : s.list.staticPackItems + 1 < 2 ^ 32)
    (h : TakenOver w (s.item mark offset (s.used offset)) o l) :
    TakenOver w s (mark :: offset :: o) l := by
  obtain ⟨entries, hlist, hcount, hinside, rfl⟩ := h
  refine ⟨.item offset :: entries, .item hmark hlist, ?_, ?_, ?_⟩
  · intro e he
    rcases List.mem_cons.mp he with rfl | he
    · trivial
    · exact hcount e he
  · intro a ha
    rcases List.mem_cons.mp ha with rfl | ha
    · exact hentry.2.2.1
    · exact hinside a ha
  · rw [entryOffsets_cons, List.length_append, List.length_cons]
    simp only [WriterList.item, PackEntry.offsets, List.length_cons, List.length_nil,
      Nat.mod_eq_of_lt hstatic, List.append_assoc, List.cons_append, List.nil_append]
    congr 1
    · omega
    · omega

theorem TakenOver.loop {mark offset maxLoops loopSize : Nat} {o : List Nat} {r : WriterItems}
    {l : OrigList} (hentry : EntryPasses w.stageLength s mark offset)
    (hmark : mark &&& externalWriterMarkLoop ≠ 0)
    (hr : ItemsPass w.stageLength mark loopSize (maxLoops * loopSize) 0 o (s.used offset) r)
    (hstatic : s.list.staticPackItems + 1 < 2 ^ 32)
    (hmax : s.list.maxPackItems + maxLoops * loopSize < 2 ^ 32)
    (h : TakenOver w (s.loop mark offset maxLoops loopSize r.copied r.uses) r.rest l) :
    TakenOver w s (mark :: offset :: maxLoops :: loopSize :: o) l := by
  obtain ⟨entries, hlist, hcount, hinside, rfl⟩ := h
  obtain ⟨htwice, hcopied, hrest, items, hitems, hitemsIn⟩ := hr.items
  have hcounted : maxLoops * loopSize < 2 ^ 32 := by omega
  have hmod : maxLoops * loopSize % 2 ^ 32 = maxLoops * loopSize := Nat.mod_eq_of_lt hcounted
  have hlength := (loopOffsets_length hitems).1
  rw [hrest] at hlist
  refine ⟨.loop offset maxLoops loopSize items :: entries, ?_, ?_, ?_, ?_⟩
  · refine .loop hmark ?_ ?_
    · rw [hmod]
      exact hitems
    · rw [hmod]
      exact hlist
  · intro e he
    rcases List.mem_cons.mp he with rfl | he
    · exact hcounted
    · exact hcount e he
  · intro a ha
    rw [entryOffsets_cons, PackEntry.offsets] at ha
    rcases List.mem_cons.mp ha with rfl | ha
    · exact hentry.2.2.1
    rcases List.mem_append.mp ha with ha | ha
    · exact hitemsIn a ha
    · exact hinside a ha
  · rw [entryOffsets_cons, List.length_append, List.length_cons, hcopied, hrest]
    simp only [WriterList.loop, PackEntry.offsets, List.length_cons, hmod,
      Nat.mod_eq_of_lt hstatic, Nat.mod_eq_of_lt hmax, List.append_assoc, List.take_append_drop,
      List.cons_append, List.nil_append]
    congr 1
    · omega
    · omega

theorem takenOver_nil (w : OffsetsWriter) (s : WriterList)
    (hmax : s.list.maxPackItems + s.list.staticPackItems < 2 ^ 32) :
    Ends (fun e => Refused e ∨ WriterOverrun w.stageLength s []) (TakenOver w s [])
      (writerFinish w s) := by
  refine ends_mono (writerFinish_ends w s) (fun _ h => h) fun l hl => ?_
  refine ⟨[], .nil, by simp, by simp [entryOffsets], ?_⟩
  rw [hl, List.append_nil, Nat.mod_eq_of_lt hmax]
  rfl

theorem writerList_ends (hlen : list.length < 2 ^ 30) (hfuel : list.length ≤ fuel)
    (hstatic : s.list.staticPackItems + list.length < 2 ^ 31)
    (hmax : s.list.maxPackItems + list.length < 2 ^ 31) :
    Ends (fun e => Refused e ∨ WriterOverrun w.stageLength s list) (TakenOver w s list)
      (writerListFrom w.stageLength fuel list s >>= writerFinish w) := by
  induction fuel generalizing list s with
  | zero =>
    obtain rfl := List.length_eq_zero_iff.mp (Nat.le_zero.mp hfuel)
    exact takenOver_nil w s (by omega)
  | succ fuel ih =>
    rcases list with _ | ⟨mark, _ | ⟨offset, o⟩⟩
    · exact takenOver_nil w s (by omega)
    · exact .inr .mark
    simp only [List.length_cons] at hlen hfuel hstatic hmax
    unfold writerListFrom
    rw [bind_assoc]
    refine ends_bind_stop (checkEntry_ends w.stageLength s mark offset)
      (fun e h => h.imp_right fun hhalf => .stage hhalf.1 hhalf.2) fun uses h => ?_
    obtain ⟨hentry, rfl⟩ := h
    by_cases hmark : mark &&& externalWriterMarkLoop = 0
    · rw [if_pos hmark]
      have hmod : (s.item mark offset (s.used offset)).list.staticPackItems =
          s.list.staticPackItems + 1 := Nat.mod_eq_of_lt (by omega)
      refine ends_mono (@ih o (s.item mark offset (s.used offset)) (by omega) (by omega)
        (by omega) (Nat.lt_of_le_of_lt (Nat.add_le_add_left (by omega) _) hmax)) ?_ ?_
      · exact fun e h => h.imp_right (.item hentry hmark)
      · exact fun l h => h.item hentry hmark (by omega)
    rw [if_neg hmark, bind_assoc]
    refine ends_bind (ends_check (checkLoop_ends mark) fun _ => .inl) fun _ hloop => ?_
    rcases o with _ | ⟨maxLoops, _ | ⟨loopSize, o⟩⟩
    · exact .inl ⟨_, rfl⟩
    · exact .inl ⟨_, rfl⟩
    simp only [List.length_cons] at hlen hfuel hstatic hmax
    dsimp only
    rw [bind_assoc]
    refine ends_bind (ends_check (checkLimits_ends _ _ _ _) fun _ => .inl) fun _ hlimits => ?_
    rw [bind_assoc]
    refine ends_bind_stop (writerItems_ends _ _ _ _ _ _ _)
      (fun e h => h.imp_right (.count hentry hmark hloop hlimits)) fun r hr => ?_
    obtain ⟨htwice, -, hrest, -⟩ := hr.items
    have hleft : r.rest.length = o.length - 2 * (maxLoops * loopSize) := by
      rw [hrest, List.length_drop]
    have hmod : (s.loop mark offset maxLoops loopSize r.copied r.uses).list.staticPackItems =
        s.list.staticPackItems + 1 := Nat.mod_eq_of_lt (by omega)
    have hmod' : (s.loop mark offset maxLoops loopSize r.copied r.uses).list.maxPackItems =
        s.list.maxPackItems + maxLoops * loopSize := by
      simp only [WriterList.loop]
      rw [Nat.mod_eq_of_lt (show maxLoops * loopSize < 2 ^ 32 by omega),
        Nat.mod_eq_of_lt (by omega)]
    refine ends_mono (@ih r.rest (s.loop mark offset maxLoops loopSize r.copied r.uses) (by omega)
      (by omega) (by omega) (by omega)) ?_ ?_
    · exact fun e h => h.imp_right (.loop hentry hmark hloop hlimits hr)
    · exact fun l h => h.loop hentry hmark hr (by omega) (by omega)

theorem writerList_fault (h : WriterOverrun w.stageLength s list) (hfuel : list.length ≤ fuel) :
    ∃ f, (writerListFrom w.stageLength fuel list s >>= writerFinish w) = .error (.fault f) := by
  obtain ⟨stageLength, hstage⟩ : ∃ n, w.stageLength = n := ⟨_, rfl⟩
  rw [hstage] at h
  induction h generalizing fuel with
  | mark =>
    obtain ⟨fuel, rfl⟩ : ∃ n, fuel = n + 1 := ⟨fuel - 1, by simp at hfuel; omega⟩
    exact ⟨_, rfl⟩
  | stage hcanary hhalf =>
    obtain ⟨fuel, rfl⟩ : ∃ n, fuel = n + 1 := ⟨fuel - 1, by simp at hfuel; omega⟩
    unfold writerListFrom
    rw [hstage, checkEntry_fault hcanary hhalf]
    exact ⟨_, rfl⟩
  | @count s mark offset maxLoops loopSize o hentry hmark hloop hlimits hover =>
    obtain ⟨fuel, rfl⟩ : ∃ n, fuel = n + 1 := ⟨fuel - 1, by simp at hfuel; omega⟩
    obtain ⟨f, hf⟩ := writerItems_fault hover (s.used offset)
    refine ⟨f, ?_⟩
    unfold writerListFrom
    rw [hstage, checkEntry_ok hentry]
    simp only [bind, Except.bind]
    rw [if_neg hmark, hloop]
    dsimp only
    rw [hlimits]
    dsimp only
    rw [hf]
  | @item s mark offset o hentry hmark _ ih =>
    obtain ⟨fuel, rfl⟩ : ∃ n, fuel = n + 1 := ⟨fuel - 1, by simp at hfuel; omega⟩
    simp only [List.length_cons] at hfuel
    obtain ⟨f, hf⟩ := @ih fuel (by omega)
    refine ⟨f, ?_⟩
    unfold writerListFrom
    rw [hstage] at hf ⊢
    rw [checkEntry_ok hentry]
    simp only [bind, Except.bind]
    rw [if_pos hmark]
    exact hf
  | @loop s mark offset maxLoops loopSize o r hentry hmark hloop hlimits hr _ ih =>
    obtain ⟨fuel, rfl⟩ : ∃ n, fuel = n + 1 := ⟨fuel - 1, by simp at hfuel; omega⟩
    simp only [List.length_cons] at hfuel
    obtain ⟨-, -, hrest, -⟩ := hr.items
    obtain ⟨f, hf⟩ := @ih fuel (by rw [hrest, List.length_drop]; omega)
    refine ⟨f, ?_⟩
    unfold writerListFrom
    rw [hstage] at hf ⊢
    rw [checkEntry_ok hentry]
    simp only [bind, Except.bind]
    rw [if_neg hmark, hloop]
    dsimp only
    rw [hlimits]
    dsimp only
    rw [writerItems_ok hr]
    exact hf
  | @stageEnd s hmind hpart hused =>
    have hfinish : writerFinish w s = .error (.fault .stage) := by
      unfold writerFinish errorIf
      rw [if_neg (by rw [hmind]; exact Bool.false_ne_true), hstage]
      have hcheck := @checkUsed_fault stageLength stageLength 0 s.uses hpart hused (by omega)
        (by omega)
      rw [Nat.mul_zero] at hcheck
      rw [hcheck]
      rfl
    refine ⟨.stage, ?_⟩
    cases fuel with
    | zero => exact hfinish
    | succ fuel => exact hfinish

end List

section Used

variable {stageLength : Nat} {uses : Nat → Nat} {offsets : List Nat}

/-- Every place of the stage array that has been used is listed. -/
def Listed (uses : Nat → Nat) (offsets : List Nat) : Prop := ∀ p, uses p ≠ 0 → p ∈ offsets

theorem Listed.use (h : Listed uses offsets) (offset n : Nat) :
    Listed (Function.update uses offset n) (offset :: offsets) := by
  intro p hp
  by_cases heq : p = offset
  · exact heq ▸ List.mem_cons_self
  · rw [Function.update_of_ne heq] at hp
    exact List.mem_cons_of_mem _ (h p hp)

theorem ItemsPass.listed {control loopSize n i : Nat} {o : List Nat} {r : WriterItems}
    (h : ItemsPass stageLength control loopSize n i o uses r) (hlisted : Listed uses offsets) :
    ∃ offsets', Listed r.uses offsets' ∧
      2 * offsets'.length + r.rest.length = 2 * offsets.length + o.length := by
  induction h generalizing offsets with
  | nil => exact ⟨offsets, hlisted, rfl⟩
  | @next n i mark offset o uses r hpasses _ ih =>
    obtain ⟨offsets', hlisted', hlength⟩ := ih (hlisted.use offset _)
    refine ⟨offsets', hlisted', ?_⟩
    simp only [List.length_cons] at hlength ⊢
    omega

/-- Each entry, and each item of a loop, takes two words of the list at least. -/
theorem writerListFrom_listed {fuel : Nat} {list : List Nat} {s : WriterList}
    (hlisted : Listed s.uses offsets) :
    Ends (fun _ => True)
      (fun s' => ∃ offsets', Listed s'.uses offsets' ∧
        2 * offsets'.length ≤ 2 * offsets.length + list.length)
      (writerListFrom stageLength fuel list s) := by
  induction fuel generalizing list s offsets with
  | zero =>
    rcases list with _ | ⟨mark, _ | ⟨offset, o⟩⟩
    · exact ⟨offsets, hlisted, Nat.le_refl _⟩
    · trivial
    · trivial
  | succ fuel ih =>
    rcases list with _ | ⟨mark, _ | ⟨offset, o⟩⟩
    · exact ⟨offsets, hlisted, Nat.le_refl _⟩
    · trivial
    unfold writerListFrom
    refine ends_bind_stop (checkEntry_ends stageLength s mark offset)
      (fun _ _ => trivial) fun uses h => ?_
    obtain ⟨-, rfl⟩ := h
    have hused : Listed (s.used offset) (offset :: offsets) := hlisted.use offset _
    split
    · refine ends_mono (@ih (offset :: offsets) o (s.item mark offset (s.used offset)) hused)
        (fun _ _ => trivial) fun s' h => ?_
      obtain ⟨offsets', hlisted', hlength⟩ := h
      refine ⟨offsets', hlisted', ?_⟩
      simp only [List.length_cons] at hlength ⊢
      omega
    · refine ends_bind_stop (checkLoop_ends mark) (fun _ _ => trivial)
        fun _ _ => ?_
      rcases o with _ | ⟨maxLoops, _ | ⟨loopSize, o⟩⟩
      · trivial
      · trivial
      refine ends_bind_stop (checkLimits_ends _ _ _ _) (fun _ _ => trivial)
        fun _ _ => ?_
      refine ends_bind_stop (writerItems_ends _ _ _ _ _ _ _) (fun _ _ => trivial) fun r hr => ?_
      obtain ⟨items, hitems, hcount⟩ := hr.listed hused
      refine ends_mono (@ih items r.rest
        (s.loop mark offset maxLoops loopSize r.copied r.uses) hitems)
        (fun _ _ => trivial) fun s' h => ?_
      obtain ⟨offsets', hlisted', hlength⟩ := h
      refine ⟨offsets', hlisted', ?_⟩
      simp only [List.length_cons] at hcount ⊢
      omega

theorem checkUsed_once {n j : Nat} (h : checkUsed stageLength uses n (4 * j) = .ok ())
    (hn : stageLength ≤ 4 * j + n) {k : Nat} (hk : j ≤ k) (hin : 4 * k < stageLength) :
    uses (4 * k) = 1 := by
  induction n generalizing j with
  | zero => omega
  | succ n ih =>
    unfold checkUsed at h
    rw [if_neg (by omega)] at h
    obtain ⟨-, -, h⟩ := bind_eq_ok.mp h
    obtain ⟨_, hused, h⟩ := bind_eq_ok.mp h
    rcases Nat.eq_or_lt_of_le hk with rfl | hk
    · by_contra hne
      unfold errorIf at hused
      rw [if_pos hne] at hused
      cases hused
    · rw [show 4 * j + 4 = 4 * (j + 1) by omega] at h
      exact ih h (by omega) hk

theorem stageLength_le (hlisted : Listed uses offsets)
    (hused : checkUsed stageLength uses stageLength 0 = .ok ()) :
    stageLength ≤ 4 * offsets.length := by
  have hsub : (List.range ((stageLength + 3) / 4)).map (4 * ·) ⊆ offsets := by
    intro p hp
    obtain ⟨k, hk, rfl⟩ := List.mem_map.mp hp
    have hin := List.mem_range.mp hk
    have hone := @checkUsed_once stageLength uses stageLength 0 hused (by omega) k (Nat.zero_le _)
      (by omega)
    exact hlisted _ (by rw [hone]; decide)
  have hnodup : ((List.range ((stageLength + 3) / 4)).map (4 * ·)).Nodup :=
    List.nodup_range.map fun a b hab => Nat.eq_of_mul_eq_mul_left (by decide) hab
  have hlength := (List.subperm_of_subset hnodup hsub).length_le
  rw [List.length_map, List.length_range] at hlength
  omega

end Used

section Writer

variable {w : OffsetsWriter} {m : OffsetsMessage}

/-- The list of a message is refused, or has no entry that leads out of it or out of the stage
array. -/
def WriterListGood (w : OffsetsWriter) (m : OffsetsMessage) : Prop :=
  w.curStructure = true → 8 ≤ m.length ∧ ∀ xor o, m.body = xor :: o → w.mismatch xor = false →
    w.offsetLength = 0 → ¬WriterOverrun w.stageLength writerStart o

theorem writerSound_of_refused {message : String}
    (h : requestArrayOffsetsMessage w m = .error (.rejected message)) : WriterListSound w m := by
  rw [WriterListSound, h]
  exact ⟨message, rfl⟩

theorem not_writerSound_of_fault {f : OffsetsFault}
    (h : requestArrayOffsetsMessage w m = .error (.fault f)) : ¬WriterListSound w m := by
  rw [WriterListSound, h]
  rintro ⟨message, hmessage⟩
  cases hmessage

theorem requestArrayOffsets_short (hstruct : w.curStructure = true) (h : m.length < 8) :
    requestArrayOffsetsMessage w m = .error (.fault .message) := by
  have hbody : m.body = [] := by
    rcases m.whole with hwhole | ⟨-, hnone⟩
    · omega
    · exact hnone
  unfold requestArrayOffsetsMessage errorIf
  rw [if_neg (by simp [hstruct]), if_neg (by omega), hbody]
  rfl

theorem requestArrayOffsets_empty (hstruct : w.curStructure = true) (h : 8 ≤ m.length)
    (hbody : m.body = []) : ∃ message,
      requestArrayOffsetsMessage w m = .error (.rejected message) := by
  have hlength : m.length = 8 := by
    rcases m.whole with hwhole | ⟨hshort, -⟩
    · rw [hbody] at hwhole
      exact hwhole
    · omega
  refine ⟨"SHM message has no space for uint32.", ?_⟩
  unfold requestArrayOffsetsMessage errorIf
  rw [if_neg (by simp [hstruct]), hlength, if_pos (by decide)]
  rfl

theorem requestArrayOffsets_body (hstruct : w.curStructure = true) {xor : Nat} {o : List Nat}
    (hbody : m.body = xor :: o) :
    o.length < 2 ^ 30 ∧ requestArrayOffsetsMessage w m = (do
      errorIf (w.mismatch xor = true)
        (.rejected "Mismatch between received and calculated xor_sum.")
      errorIf (w.offsetLength ≠ 0) (.rejected "Offset already allocated.")
      let s ← writerListFrom w.stageLength o.length o writerStart
      writerFinish w s) := by
  have hheader := m.header
  have hlength : m.length = 8 + 4 * (o.length + 1) := by
    rcases m.whole with hwhole | ⟨-, hnone⟩
    · rw [hwhole, hbody, List.length_cons]
    · rw [hbody] at hnone
      cases hnone
  have hstructure : errorIf (w.curStructure = false) (OffsetsStop.rejected
      "Cannot allocate offsets - no structure being defined.") = .ok () :=
    if_neg (by simp [hstruct])
  have hspace : errorIf ((m.length + 2 ^ 32 - 8) % 2 ^ 32 < 4)
      (OffsetsStop.rejected "SHM message has no space for uint32.") = .ok () :=
    if_neg (by omega)
  refine ⟨by omega, ?_⟩
  unfold requestArrayOffsetsMessage
  rw [hstructure, hspace, hbody]
  rfl

theorem writerListSound_list (hstruct : w.curStructure = true) {xor : Nat} {o : List Nat}
    (hbody : m.body = xor :: o) :
    WriterListSound w m ↔ (w.mismatch xor = false → w.offsetLength = 0 →
      ¬WriterOverrun w.stageLength writerStart o) := by
  obtain ⟨hlen, hrun⟩ := requestArrayOffsets_body hstruct hbody
  have hwords : ∀ x ∈ o, x < 2 ^ 32 := fun x hx => m.words x (by rw [hbody]; simp [hx])
  by_cases hmismatch : w.mismatch xor = true
  · have hrefused : requestArrayOffsetsMessage w m =
        .error (.rejected "Mismatch between received and calculated xor_sum.") := by
      rw [hrun, errorIf, if_pos hmismatch]
      rfl
    refine iff_of_true (writerSound_of_refused hrefused) fun h => ?_
    rw [hmismatch] at h
    cases h
  by_cases hallocated : w.offsetLength = 0
  · have hgo : requestArrayOffsetsMessage w m =
        (writerListFrom w.stageLength o.length o writerStart >>= writerFinish w) := by
      rw [hrun, errorIf, if_neg hmismatch, errorIf, if_neg (not_not.mpr hallocated)]
      rfl
    constructor
    · intro hsound _ _ hover
      obtain ⟨f, hf⟩ := writerList_fault hover (Nat.le_refl _)
      exact not_writerSound_of_fault (hgo.trans hf) hsound
    · intro hgood
      have hgood := hgood (Bool.eq_false_iff.mpr hmismatch) hallocated
      rw [WriterListSound, hgo]
      refine ends_mono (@writerList_ends w o.length o writerStart hlen (Nat.le_refl _)
        (by change 0 + _ < _; omega) (by change 0 + _ < _; omega)) ?_ ?_
      · exact fun e h => h.resolve_right hgood
      · rintro l ⟨entries, hlist, hcount, hinside, rfl⟩
        have hsafe := (walkSafe_iff hlist hlen hwords).mpr ⟨hcount, hinside⟩
        simp only [writerStart, List.nil_append, Nat.zero_add]
        exact hsafe
  · have hrefused : requestArrayOffsetsMessage w m =
        .error (.rejected "Offset already allocated.") := by
      rw [hrun, errorIf, if_neg hmismatch, errorIf, if_pos hallocated]
      rfl
    exact iff_of_true (writerSound_of_refused hrefused) fun _ h => absurd h hallocated

/-- Each item of the stage array takes two words of the message, the length of which is a word. -/
theorem accepted_stageLength {l : OrigList} (h : requestArrayOffsetsMessage w m = .ok l) :
    w.stageLength ≤ 2 ^ 31 := by
  have hstruct : w.curStructure = true := by
    by_contra hno
    unfold requestArrayOffsetsMessage at h
    rw [errorIf, if_pos (Bool.eq_false_iff.mpr hno)] at h
    cases h
  cases hbody : m.body with
  | nil =>
    unfold requestArrayOffsetsMessage at h
    obtain ⟨-, -, h⟩ := bind_eq_ok.mp h
    obtain ⟨-, -, h⟩ := bind_eq_ok.mp h
    rw [hbody] at h
    cases h
  | cons xor o =>
    obtain ⟨hlen, hrun⟩ := requestArrayOffsets_body hstruct hbody
    rw [hrun] at h
    obtain ⟨-, -, h⟩ := bind_eq_ok.mp h
    obtain ⟨-, -, h⟩ := bind_eq_ok.mp h
    obtain ⟨s, hs, h⟩ := bind_eq_ok.mp h
    have hstart : Listed writerStart.uses [] := fun p hp => absurd rfl hp
    obtain ⟨offsets, hlisted, hcount⟩ :=
      (ends_iff.mp (@writerListFrom_listed w.stageLength [] o.length o writerStart hstart)).1 s hs
    unfold writerFinish at h
    obtain ⟨-, -, h⟩ := bind_eq_ok.mp h
    obtain ⟨_, hused, -⟩ := bind_eq_ok.mp h
    have hstage := stageLength_le hlisted hused
    rw [List.length_nil] at hcount
    omega

theorem writerListSound_iff (w : OffsetsWriter) (m : OffsetsMessage) :
    WriterListSound w m ↔ WriterListGood w m := by
  unfold WriterListGood
  by_cases hstruct : w.curStructure = true
  · rw [imp_iff_right hstruct]
    by_cases hshort : m.length < 8
    · exact iff_of_false (not_writerSound_of_fault (requestArrayOffsets_short hstruct hshort))
        fun h => by omega
    have hlength := Nat.not_lt.mp hshort
    cases hbody : m.body with
    | nil =>
      obtain ⟨message, hmessage⟩ := requestArrayOffsets_empty hstruct hlength hbody
      refine iff_of_true (writerSound_of_refused hmessage) ⟨hlength, ?_⟩
      intro xor o hcons
      cases hcons
    | cons xor o =>
      rw [writerListSound_list hstruct hbody]
      constructor
      · intro hgood
        refine ⟨hlength, fun xor' o' hcons => ?_⟩
        cases hcons
        exact hgood
      · exact fun h => h.2 xor o rfl
  · have hrefused : requestArrayOffsetsMessage w m =
        .error (.rejected "Cannot allocate offsets - no structure being defined.") := by
      unfold requestArrayOffsetsMessage
      rw [errorIf, if_pos (Bool.eq_false_iff.mpr hstruct)]
      rfl
    exact iff_of_true (writerSound_of_refused hrefused) fun h => absurd h hstruct

end Writer

/-- The client and the writer treat a message soundly exactly when its list is good for them. -/
theorem pack_list_validation_iff (clistr : Bool) (size : Nat) (w : OffsetsWriter)
    (m : OffsetsMessage) :
    (ClientListSound clistr size m ↔
      (clistr = true → 8 ≤ m.length ∧ ∀ xor o, m.body = xor :: o → ClientListGood size o)) ∧
    (WriterListSound w m ↔ WriterListGood w m) :=
  ⟨clientListSound_iff clistr size m, writerListSound_iff w m⟩

theorem pack_list_validation_fails :
    (∃ m : OffsetsMessage, m.length = 16 ∧ m.body = [0, externalWriterMarkCanary] ∧
      ¬ClientListSound true 4 m ∧ ¬WriterListSound ⟨true, none, 0, 4, 0⟩ m) ∧
    ∃ m : OffsetsMessage, m.length = 28 ∧
      m.body = [0, externalWriterMarkLoop, 0, 0x10000, 0x10000] ∧ ¬ClientListSound true 4 m := by
  constructor
  · refine ⟨⟨16, [0, externalWriterMarkCanary], by decide, .inl rfl, by decide⟩, rfl, rfl, ?_, ?_⟩
    · rw [clientListSound_iff]
      intro h
      exact ((h rfl).2 _ _ rfl).1 ListOverrun.mark
    · rw [writerListSound_iff]
      intro h
      exact (h rfl).2 _ _ rfl rfl rfl WriterOverrun.mark
  · refine ⟨⟨28, [0, externalWriterMarkLoop, 0, 0x10000, 0x10000], by decide, .inl rfl, by decide⟩,
      rfl, rfl, ?_⟩
    rw [clientListSound_iff]
    intro h
    obtain ⟨hcount, -⟩ := ((h rfl).2 _ _ rfl).2 [.loop 0 0x10000 0x10000 []]
      (.loop (by decide) (by rfl) .nil)
    have hcounted := hcount _ (List.mem_singleton.mpr rfl)
    exact absurd hcounted (by decide)

end Ucesb
