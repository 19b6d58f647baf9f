import Ucesb.SignalId
import Mathlib.Data.Nat.Digits.Defs

namespace Ucesb

def putChar (mem : List Char) (k : Nat) (c : Char) : Option (List Char) :=
  if k < mem.length then some (mem.set k c) else none

def putText (mem : List Char) (k : Nat) : List Char → Option (List Char)
  | [] => some mem
  | c :: text => (putChar mem k c).bind fun mem => putText mem (k + 1) text

def sprintf (mem : List Char) (dest : Nat) (text : List Char) : Option (List Char × Nat) :=
  (putText mem dest (text ++ ['\x00'])).map fun mem => (mem, dest + text.length)

def snprintf (mem : List Char) (ptr size : Nat) (text : List Char) : Option (List Char) :=
  if size = 0 then some mem else putText mem ptr (text.take (size - 1) ++ ['\x00'])

def decimal (v : Int) : List Char :=
  if v < 0 then '-' :: Nat.toDigits 10 v.natAbs else Nat.toDigits 10 v.natAbs

def SigPart.pawText : SigPart → List Char
  | .name text => text
  | .index i extra => if extra.limit then decimal i else decimal (toInt32 (i + 1))

def lessSize (size length : Nat) : Nat :=
  if length ≤ size then size - length else size + 2 ^ 64 - length

/-- The loop of `signal_id::format_paw`. The index that is omitted is `none` for `(size_t) -1`. -/
def formatPawLoop (omitIndex omitIndex2 : Option Nat) :
    Nat → Option PartKind → List Char → Nat → Nat → SignalId → Option (List Char × Nat)
  | _, _, mem, ptr, _, [] => some (mem, ptr)
  | i, prevType, mem, ptr, size, part :: parts =>
    if omitIndex = some i ∨ omitIndex2 = some i then
      formatPawLoop omitIndex omitIndex2 (i + 1) prevType mem ptr size parts
    else do
      let (mem, ptr, size) ←
        if prevType = some part.kind ∧ 0 < size then
          (putChar mem ptr '_').map fun mem => (mem, ptr + 1, size - 1)
        else some (mem, ptr, size)
      let mem ← snprintf mem ptr size part.pawText
      formatPawLoop omitIndex omitIndex2 (i + 1) (some part.kind) mem
        (ptr + part.pawText.length) (lessSize size part.pawText.length) parts

def formatPaw (id : SignalId) (mem : List Char) (size : Nat) (omitIndex omitIndex2 : Option Nat) :
    Option (List Char × Nat) := do
  let mem ← putChar mem 0 '\x00'
  formatPawLoop omitIndex omitIndex2 0 none mem 0 size id

def diffParts (i : Nat) (diffIndex diffLength : Int) : SignalId → SignalId → Option (Int × Int)
  | .name text :: parts, .name text' :: rhs =>
    if text ≠ text' then none else diffParts (i + 1) diffIndex diffLength parts rhs
  | .index v extra :: parts, .index v' extra' :: rhs =>
    if extra ≠ extra' then none
    else if v ≠ v' then
      if diffIndex ≠ -1 then none else diffParts (i + 1) i (toInt32 (v' - v)) parts rhs
    else diffParts (i + 1) diffIndex diffLength parts rhs
  | [], [] => some (diffIndex, diffLength)
  | _, _ => none

def difference (id rhs : SignalId) : Option (Int × Int) :=
  if id.length ≠ rhs.length then none else diffParts 0 (-1) 0 id rhs

/-- What a part needs for `generate_indexed`. -/
def SigPart.need : SigPart → Nat
  | .name text => text.length
  | .index .. => 16

def SigPart.indexedText (i : Nat) (diffIndex diffOffset : Int) : SigPart → List Char
  | .name text => text
  | .index v _ => decimal (toInt32 (v + (if diffIndex = i then diffOffset else 0) + 1))

def generateLoop (diffIndex diffOffset : Int) :
    Nat → Option PartKind → List Char → Nat → SignalId → Option (List Char × Nat)
  | _, _, mem, dest, [] => some (mem, dest)
  | i, prevType, mem, dest, part :: parts => do
    let (mem, dest) ← if prevType = some part.kind then sprintf mem dest ['_'] else some (mem, dest)
    let (mem, dest) ← sprintf mem dest (part.indexedText i diffIndex diffOffset)
    generateLoop diffIndex diffOffset (i + 1) (some part.kind) mem dest parts

def indexedLength (id : SignalId) : Nat := id.length + (id.map SigPart.need).sum

/-- `signal_id::generate_indexed`, with what is in the memory that `malloc` returns. -/
def generateIndexed (fresh : Nat → Char) (id : SignalId) (diffIndex diffOffset : Int) :
    Option (List Char) :=
  (generateLoop diffIndex diffOffset 0 none ((List.range (indexedLength id)).map fresh) 0 id).map
    Prod.fst

def cString (mem : List Char) : List Char := mem.takeWhile (· ≠ '\x00')

/-- The parts one after the other, with an underscore between two of the same kind. -/
def joinParts : Option PartKind → List (PartKind × List Char) → List Char
  | _, [] => []
  | prevType, (kind, text) :: parts =>
    (if prevType = some kind then ['_'] else []) ++ (text ++ joinParts (some kind) parts)

def pawName (id : SignalId) : List Char :=
  joinParts none (id.map fun part => (part.kind, part.pawText))

def indexedTexts (diffIndex diffOffset : Int) : Nat → SignalId → List (PartKind × List Char)
  | _, [] => []
  | i, part :: parts => (part.kind, part.indexedText i diffIndex diffOffset) ::
      indexedTexts diffIndex diffOffset (i + 1) parts

def SigPart.text : SigPart → List Char
  | .name text => text
  | .index v _ => decimal (toInt32 (v + 1))

def nameOf (id : SignalId) : List Char :=
  joinParts none (id.map fun part => (part.kind, part.text))

section Memory

def Printed (mem : List Char) (text : List Char) : Prop := text ++ ['\x00'] <+: mem

theorem putText_eq {mem text : List Char} {k : Nat} (hfits : k + text.length ≤ mem.length) :
    putText mem k text = some (mem.take k ++ (text ++ mem.drop (k + text.length))) := by
  induction text generalizing mem k with
  | nil => simp [putText]
  | cons c text ih =>
    rw [List.length_cons] at hfits
    rw [putText, putChar, if_pos (by omega), Option.bind_some, ih (by simp; omega)]
    have htake : (mem.set k c).take (k + 1) = mem.take k ++ [c] := by
      rw [List.take_add_one, List.getElem?_set_self (by omega), List.take_set_of_le (Nat.le_refl k)]
      rfl
    have hdrop : (mem.set k c).drop (k + 1 + text.length) = mem.drop (k + (text.length + 1)) := by
      rw [List.drop_set_of_lt (by omega), Nat.add_right_comm, Nat.add_assoc]
    rw [htake, hdrop, List.length_cons, List.append_assoc]
    rfl

theorem putText_written {mem done text : List Char} (hdone : done <+: mem)
    (hfits : done.length + text.length ≤ mem.length) :
    ∃ mem', putText mem done.length text = some mem' ∧ mem'.length = mem.length ∧
      done ++ text <+: mem' := by
  refine ⟨_, putText_eq hfits, ?_, ?_⟩
  · simp only [List.length_append, List.length_take, List.length_drop]
    omega
  · rw [← List.prefix_iff_eq_take.mp hdone, ← List.append_assoc]
    exact List.prefix_append ..

theorem sprintf_printed {mem done text : List Char} (hdone : done <+: mem)
    (hfits : done.length + text.length < mem.length) :
    ∃ mem', sprintf mem done.length text = some (mem', (done ++ text).length) ∧
      mem'.length = mem.length ∧ Printed mem' (done ++ text) := by
  obtain ⟨mem', hput, hlen, hpre⟩ := @putText_written _ _ (text ++ ['\x00']) hdone
    (by simp; omega)
  refine ⟨mem', ?_, hlen, ?_⟩
  · rw [sprintf, hput, Option.map_some, List.length_append]
  · rw [Printed, List.append_assoc]
    exact hpre

theorem snprintf_printed {mem done text : List Char} {size : Nat} (hdone : done <+: mem)
    (hsize : done.length + size = mem.length) (hfits : text.length < size) :
    ∃ mem', snprintf mem done.length size text = some mem' ∧ mem'.length = mem.length ∧
      Printed mem' (done ++ text) := by
  obtain ⟨mem', hput, hlen, hpre⟩ := @putText_written _ _ (text ++ ['\x00']) hdone
    (by simp; omega)
  refine ⟨mem', ?_, hlen, ?_⟩
  · rw [snprintf, if_neg (by omega), List.take_of_length_le (by omega), hput]
  · rw [Printed, List.append_assoc]
    exact hpre

theorem Printed.done {mem text : List Char} (h : Printed mem text) : text <+: mem :=
  (List.prefix_append ..).trans h

theorem Printed.cString {mem text : List Char} (h : Printed mem text) (htext : '\x00' ∉ text) :
    cString mem = text := by
  obtain ⟨rest, rfl⟩ := h
  rw [Ucesb.cString, List.append_assoc, List.takeWhile_append_of_pos, List.singleton_append,
    List.takeWhile_cons_of_neg (by simp), List.append_nil]
  intro c hc
  exact decide_eq_true fun heq => htext (heq ▸ hc)

end Memory

section Print

theorem formatPawLoop_printed {parts : SignalId} {i ptr size : Nat} {prevType : Option PartKind}
    {mem done : List Char} (hdone : Printed mem done) (hptr : ptr = done.length)
    (hsize : ptr + size = mem.length)
    (hfits : (joinParts prevType (parts.map fun part => (part.kind, part.pawText))).length < size) :
    ∃ mem', formatPawLoop none none i prevType mem ptr size parts = some (mem', (done ++
        joinParts prevType (parts.map fun part => (part.kind, part.pawText))).length) ∧
      Printed mem' (done ++ joinParts prevType (parts.map fun part => (part.kind, part.pawText))) := by
  subst hptr
  induction parts generalizing i size prevType mem done with
  | nil => exact ⟨mem, by simp [formatPawLoop, joinParts], by simpa [joinParts] using hdone⟩
  | cons part parts ih =>
    simp only [List.map_cons, joinParts, List.length_append] at hfits
    by_cases hsame : prevType = some part.kind
    · rw [if_pos hsame, List.length_singleton] at hfits
      have hlt : done.length < mem.length := by omega
      obtain ⟨mem1, hput1, hlen1, hpre1⟩ := @putText_written _ _ ['_'] hdone.done hlt
      have hchar : putChar mem done.length '_' = some mem1 := by
        rw [← hput1, putText, putChar, if_pos hlt]
        rfl
      obtain ⟨mem2, hput2, hlen2, hpre2⟩ := @snprintf_printed _ _ part.pawText
        (size - 1) hpre1 (by simp; omega) (by omega)
      have hleft : (done ++ ['_'] ++ part.pawText).length + (size - 1 - part.pawText.length) =
          mem2.length := by
        simp
        omega
      obtain ⟨mem3, hrec, hpre3⟩ := @ih (i + 1) _ (some part.kind) _ _ hpre2 (by omega)
        hleft
      refine ⟨mem3, ?_, ?_⟩
      · rw [formatPawLoop, if_neg (by simp), if_pos ⟨hsame, by omega⟩, hchar]
        rw [List.length_append, List.length_singleton] at hput2
        simp only [Option.map_some, Option.bind_eq_bind, Option.bind_some, hput2]
        rw [lessSize, if_pos (by omega)]
        simpa [joinParts, hsame, Nat.add_assoc, Nat.add_comm 1] using hrec
      · simpa [joinParts, hsame] using hpre3
    · rw [if_neg hsame, List.length_nil, Nat.zero_add] at hfits
      obtain ⟨mem2, hput2, hlen2, hpre2⟩ := @snprintf_printed _ _ part.pawText _ hdone.done hsize
        (by omega)
      have hleft : (done ++ part.pawText).length + (size - part.pawText.length) = mem2.length := by
        simp
        omega
      obtain ⟨mem3, hrec, hpre3⟩ := @ih (i + 1) _ (some part.kind) _ _ hpre2 (by omega)
        hleft
      refine ⟨mem3, ?_, ?_⟩
      · rw [formatPawLoop, if_neg (by simp), if_neg fun h => hsame h.1]
        simp only [Option.bind_eq_bind, Option.bind_some, hput2]
        rw [lessSize, if_pos (by omega)]
        simpa [joinParts, hsame, Nat.add_assoc] using hrec
      · simpa [joinParts, hsame] using hpre3

theorem formatPaw_printed {id : SignalId} {mem : List Char}
    (hlarge : (pawName id).length < mem.length) :
    ∃ mem', formatPaw id mem mem.length none none = some (mem', (pawName id).length) ∧
      Printed mem' (pawName id) := by
  obtain ⟨mem1, hput, hlen, hpre⟩ := @putText_written mem _ ['\x00'] List.nil_prefix
    (by simp; omega)
  have hchar : putChar mem 0 '\x00' = some mem1 := by
    rw [← hput, List.length_nil, putText]
    cases putChar mem 0 '\x00' <;> rfl
  obtain ⟨mem', hloop, hprinted⟩ := @formatPawLoop_printed id 0 _ mem.length
    none mem1 [] hpre rfl (by simp; omega) hlarge
  refine ⟨mem', ?_, hprinted⟩
  rw [formatPaw, hchar]
  exact hloop

theorem generateLoop_printed {diffIndex diffOffset : Int} {parts : SignalId} {i dest : Nat}
    {prevType : Option PartKind} {mem done : List Char} (hdone : done <+: mem)
    (hdest : dest = done.length) (hparts : parts ≠ [] ∨ Printed mem done)
    (hfits : (done ++ joinParts prevType (indexedTexts diffIndex diffOffset i parts)).length <
      mem.length) :
    ∃ mem' dest', generateLoop diffIndex diffOffset i prevType mem dest parts = some (mem', dest') ∧
      Printed mem' (done ++ joinParts prevType (indexedTexts diffIndex diffOffset i parts)) := by
  subst hdest
  induction parts generalizing i prevType mem done with
  | nil =>
    refine ⟨mem, done.length, rfl, ?_⟩
    simpa [indexedTexts, joinParts] using hparts.resolve_left (· rfl)
  | cons part parts ih =>
    simp only [indexedTexts, joinParts, List.length_append] at hfits
    by_cases hsame : prevType = some part.kind
    · rw [if_pos hsame, List.length_singleton] at hfits
      obtain ⟨mem1, hput1, hlen1, hpre1⟩ := @sprintf_printed _ _ ['_'] hdone (by simp; omega)
      obtain ⟨mem2, hput2, hlen2, hpre2⟩ := @sprintf_printed _ _
        (part.indexedText i diffIndex diffOffset) hpre1.done (by simp; omega)
      obtain ⟨mem3, dest3, hrec, hpre3⟩ := @ih (i + 1) (some part.kind) _ _ hpre2.done
        (.inr hpre2) (by simp; omega)
      refine ⟨mem3, dest3, ?_, ?_⟩
      · rw [generateLoop, if_pos hsame, hput1]
        simp only [Option.bind_eq_bind, Option.bind_some, hput2]
        exact hrec
      · simpa [indexedTexts, joinParts, hsame] using hpre3
    · rw [if_neg hsame, List.length_nil, Nat.zero_add] at hfits
      obtain ⟨mem2, hput2, hlen2, hpre2⟩ := @sprintf_printed _ _
        (part.indexedText i diffIndex diffOffset) hdone (by omega)
      obtain ⟨mem3, dest3, hrec, hpre3⟩ := @ih (i + 1) (some part.kind) _ _ hpre2.done
        (.inr hpre2) (by simp; omega)
      refine ⟨mem3, dest3, ?_, ?_⟩
      · rw [generateLoop, if_neg hsame]
        simp only [Option.bind_eq_bind, Option.bind_some, hput2]
        exact hrec
      · simpa [indexedTexts, joinParts, hsame] using hpre3

end Print

end Ucesb
