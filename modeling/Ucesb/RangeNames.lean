import Ucesb.SignalId
import Mathlib.Data.List.TakeWhile

namespace Ucesb

inductive RangeError
  | notStartingWithCharacter
  | expectedDigit
  | refusingIndex
  | highBelowLow
  | unrecognizedCharacter (c : Char)
deriving DecidableEq

/-- An error is reported, or what happens is not defined. -/
inductive RangeStop
  | error (e : RangeError)
  | undefined
deriving DecidableEq

def headIs (p : Char → Bool) (text : List Char) : Bool := (text.head?.map p).getD false

/-- One round of the loop over a name: whether there was a backslash, and the new `end`. The character
behind the terminating zero cannot be read. -/
def nameRound (text : List Char) : Option (Bool × List Char) :=
  let end1 := text.dropWhile Char.isAlpha
  if headIs (· = '\\') end1 then
    let end2 := if headIs (· = '_') (end1.drop 1) then (end1.drop 1).dropWhile (· = '_') else end1
    if end2 = [] then none
    else if headIs Char.isDigit (end2.drop 1) then
      some (true, (end2.drop 1).dropWhile Char.isDigit)
    else some (true, end2)
  else some (false, end1)

/-- `for ( ; ; )`, where the inner `none` is not defined. -/
def nameLoop : Nat → List Char → Option (Option (List Char))
  | 0, _ => none
  | fuel + 1, text =>
    match nameRound text with
    | none => some none
    | some (true, rest) => nameLoop fuel rest
    | some (false, rest) => some (some rest)

/-- What is stored for an index range. There is no integer below the smallest one. -/
def storedRange (index index2 : Int) (ordered : index ≤ index2) : Except RangeStop SigPartRange :=
  if -2 ^ 31 < index then
    .ok (.index (index - 1) (index2 - 1) (Int.sub_le_sub_right ordered 1))
  else .error .undefined

def highRange (index : Int) (start : List Char) : Except RangeStop (SigPartRange × List Char) :=
  let index2 := strtolInt (start.takeWhile Char.isDigit)
  if !headIs Char.isDigit start then .error (.error .expectedDigit)
  else if index2 ≥ 0x1000000 then .error (.error .refusingIndex)
  else if h : index2 < index then .error (.error .highBelowLow)
  else (storedRange index index2 (Int.not_lt.mp h)).map
    fun part => (part, start.dropWhile Char.isDigit)

def indexRange (start : List Char) : Except RangeStop (SigPartRange × List Char) :=
  let index := strtolInt (start.takeWhile Char.isDigit)
  let rest := start.dropWhile Char.isDigit
  if index ≥ 0x1000000 then .error (.error .refusingIndex)
  else if headIs (· = '-') rest then highRange index (rest.drop 1)
  else (storedRange index index (Int.le_refl index)).map fun part => (part, rest)

/-- One round of the loop over the string: what is pushed, and the new `start`. -/
def dissectRound (fuel : Nat) (c : Char) (text : List Char) :
    Option (Except RangeStop (Option SigPartRange × List Char)) :=
  if c = '_' then some (.ok (none, text))
  else if c = '?' then some (.ok (some .wildcard, text))
  else if c = '*' then some (.ok (some .wildcards, text))
  else if c.isAlpha then
    (nameLoop fuel text).map fun
      | none => .error .undefined
      | some rest =>
        let name := (c :: text).take ((c :: text).length - rest.length)
        .ok (some (.name (name.filter (· ≠ '\\'))), rest)
  else if c.isDigit then
    some ((indexRange (c :: text)).map fun read => (some read.1, read.2))
  else some (.error (.error (.unrecognizedCharacter c)))

def dissectRangeLoop : Nat → List SigPartRange → List Char →
    Option (Except RangeStop (List SigPartRange))
  | _, id, [] => some (.ok id)
  | 0, _, _ :: _ => none
  | fuel + 1, id, c :: text =>
    (dissectRound fuel c text).bind fun
      | .error stop => some (.error stop)
      | .ok (part, start) => dissectRangeLoop fuel (id ++ part.toList) start

def dissectNameRange (fuel : Nat) (name : List Char) :
    Option (Except RangeStop (List SigPartRange)) :=
  if headIs (fun c => c.isAlpha || c = '*' || c = '?') name then dissectRangeLoop fuel [] name
  else some (.error (.error .notStartingWithCharacter))

def numberOf (digits : List Char) : Nat := Nat.ofDigitChars 10 digits 0

/-- The rest of a name, without the backslashes, and what follows it. A backslash escapes all the
underscores, or all the digits, that come next. -/
inductive NameRest : List Char → List Char → List Char → Prop
  | stops {text} (noLetter : headIs Char.isAlpha text = false)
      (noEscape : headIs (· = '\\') text = false) : NameRest text [] text
  | letter {c text name rest} (letter : c.isAlpha = true) (more : NameRest text name rest) :
      NameRest (c :: text) (c :: name) rest
  | underscores {text name rest} (escaped : headIs (· = '_') text = true)
      (more : NameRest (text.dropWhile (· = '_')) name rest) :
      NameRest ('\\' :: text) (text.takeWhile (· = '_') ++ name) rest
  | digits {text name rest} (escaped : headIs Char.isDigit text = true)
      (more : NameRest (text.dropWhile Char.isDigit) name rest) :
      NameRest ('\\' :: text) (text.takeWhile Char.isDigit ++ name) rest

/-- The parts of a string, to one of which every character belongs. Indices are counted from one, and
stored from zero. -/
inductive ReadsRange : List Char → List SigPartRange → Prop
  | nil : ReadsRange [] []
  | underscore {text parts} (more : ReadsRange text parts) : ReadsRange ('_' :: text) parts
  | wildcard {text parts} (more : ReadsRange text parts) :
      ReadsRange ('?' :: text) (.wildcard :: parts)
  | wildcards {text parts} (more : ReadsRange text parts) :
      ReadsRange ('*' :: text) (.wildcards :: parts)
  | name {c text name rest parts} (letter : c.isAlpha = true) (run : NameRest text name rest)
      (more : ReadsRange rest parts) : ReadsRange (c :: text) (.name (c :: name) :: parts)
  | index {text low rest parts} {i : Int} {ordered} (digit : headIs Char.isDigit text = true)
      (all : low = text.takeWhile Char.isDigit) (ends : rest = text.dropWhile Char.isDigit)
      (single : headIs (· = '-') rest = false) (one : 1 ≤ numberOf low)
      (stored : i = numberOf low - 1) (more : ReadsRange rest parts) :
      ReadsRange text (.index i i ordered :: parts)
  | range {text low high start parts} {i j : Int} {ordered}
      (digit : headIs Char.isDigit text = true) (allLow : low = text.takeWhile Char.isDigit)
      (dash : text.dropWhile Char.isDigit = '-' :: start)
      (digitHigh : headIs Char.isDigit start = true) (allHigh : high = start.takeWhile Char.isDigit)
      (one : 1 ≤ numberOf low) (storedLow : i = numberOf low - 1)
      (storedHigh : j = numberOf high - 1)
      (more : ReadsRange (start.dropWhile Char.isDigit) parts) :
      ReadsRange text (.index i j ordered :: parts)

def RightRange (name : List Char) : Except RangeStop (List SigPartRange) → Prop
  | .error (.error _) => True
  | .error .undefined => False
  | .ok parts => ReadsRange name parts

/-- How the loop over a name goes. After a run of escaped underscores the next character is not looked
at, if a digit follows it. -/
inductive NameScan : Bool → List Char → List Char → List Char → Prop
  | stops {text} (noLetter : headIs Char.isAlpha text = false)
      (noEscape : headIs (· = '\\') text = false) : NameScan true text [] text
  | letter {b c text name rest} (letter : c.isAlpha = true) (more : NameScan b text name rest) :
      NameScan b (c :: text) (c :: name) rest
  | underscores {b text left name rest} (escaped : headIs (· = '_') text = true)
      (after : left = text.dropWhile (· = '_')) (inside : left ≠ [])
      (apart : headIs (· = '\\') left = true ∨ headIs Char.isDigit (left.drop 1) = false)
      (more : NameScan b left name rest) :
      NameScan b ('\\' :: text) (text.takeWhile (· = '_') ++ name) rest
  | digits {b text name rest} (escaped : headIs Char.isDigit text = true)
      (more : NameScan b (text.dropWhile Char.isDigit) name rest) :
      NameScan b ('\\' :: text) (text.takeWhile Char.isDigit ++ name) rest
  | swallowed {b text x left name rest} (escaped : headIs (· = '_') text = true)
      (after : text.dropWhile (· = '_') = x :: left) (noEscape : x ≠ '\\')
      (digit : headIs Char.isDigit left = true)
      (more : NameScan b (left.dropWhile Char.isDigit) name rest) :
      NameScan false ('\\' :: text)
        (text.takeWhile (· = '_') ++ x :: (left.takeWhile Char.isDigit ++ name)) rest

section Names

variable {b : Bool} {text name rest : List Char}

theorem headIs_dropWhile (p : Char → Bool) (text : List Char) :
    headIs p (text.dropWhile p) = false := by
  induction text with
  | nil => rfl
  | cons c text ih =>
    rw [List.dropWhile_cons]
    split
    · exact ih
    · next hc => exact Bool.eq_false_iff.mpr hc

theorem dropWhile_of_not_headIs {p : Char → Bool} (h : headIs p text = false) :
    text.dropWhile p = text := by
  cases text with
  | nil => rfl
  | cons c text => exact List.dropWhile_cons_of_neg (Bool.eq_false_iff.mp h)

theorem exists_cons_of_headIs {p : Char → Bool} (h : headIs p text = true) :
    ∃ c left, text = c :: left ∧ p c = true := by
  cases text with
  | nil => cases h
  | cons c left => exact ⟨c, left, rfl, h⟩

theorem headIs_eq {c : Char} (h : headIs (· = c) text = true) : ∃ left, text = c :: left := by
  obtain ⟨c', left, rfl, hc⟩ := exists_cons_of_headIs h
  exact ⟨left, by rw [of_decide_eq_true hc]⟩

theorem NameScan.nameRest (h : NameScan true text name rest) : NameRest text name rest := by
  generalize hb : true = b at h
  induction h with
  | stops noLetter noEscape => exact .stops noLetter noEscape
  | letter letter more ih => exact .letter letter (ih hb)
  | underscores escaped after inside apart more ih => exact .underscores escaped (after ▸ ih hb)
  | digits escaped more ih => exact .digits escaped (ih hb)
  | swallowed escaped after noEscape digit more ih => cases hb

theorem not_both_headIs {p q : Char → Bool} (hpq : ∀ c, p c = true → q c = false)
    (h : headIs p text = true) : headIs q text = false := by
  obtain ⟨c, left, rfl, hc⟩ := exists_cons_of_headIs h
  exact hpq c hc

theorem digit_not_underscore (c : Char) (h : Char.isDigit c = true) : decide (c = '_') = false := by
  refine decide_eq_false ?_
  rintro rfl
  exact absurd h (by decide)

theorem underscore_not_digit (c : Char) (h : decide (c = '_') = true) : Char.isDigit c = false := by
  rw [of_decide_eq_true h]
  decide

theorem nameRest_letter {c : Char} (hc : c.isAlpha = true) (h : NameRest (c :: text) name rest) :
    ∃ more, name = c :: more ∧ NameRest text more rest := by
  cases h with
  | stops noLetter noEscape => exact absurd hc (Bool.eq_false_iff.mp noLetter)
  | letter letter more => exact ⟨_, rfl, more⟩
  | underscores escaped more => exact absurd hc (by decide)
  | digits escaped more => exact absurd hc (by decide)

theorem nameRest_underscores (hu : headIs (· = '_') text = true)
    (h : NameRest ('\\' :: text) name rest) :
    ∃ more, name = text.takeWhile (· = '_') ++ more ∧
      NameRest (text.dropWhile (· = '_')) more rest := by
  cases h with
  | stops noLetter noEscape => cases noEscape
  | letter letter more => exact absurd letter (by decide)
  | underscores escaped more => exact ⟨_, rfl, more⟩
  | digits escaped more =>
    rw [not_both_headIs digit_not_underscore escaped] at hu
    cases hu

theorem nameRest_digits (hd : headIs Char.isDigit text = true)
    (h : NameRest ('\\' :: text) name rest) :
    ∃ more, name = text.takeWhile Char.isDigit ++ more ∧
      NameRest (text.dropWhile Char.isDigit) more rest := by
  cases h with
  | stops noLetter noEscape => cases noEscape
  | letter letter more => exact absurd letter (by decide)
  | underscores escaped more =>
    rw [not_both_headIs underscore_not_digit escaped] at hd
    cases hd
  | digits escaped more => exact ⟨_, rfl, more⟩

theorem nameRest_other {c : Char} (hc : c ≠ '\\') (h : NameRest (c :: text) name rest) :
    name = [] ∨ ∃ more, name = c :: more ∧ NameRest text more rest := by
  cases h with
  | stops noLetter noEscape => exact .inl rfl
  | letter letter more => exact .inr ⟨_, rfl, more⟩
  | underscores escaped more => exact absurd rfl hc
  | digits escaped more => exact absurd rfl hc

theorem digit_not_letter {c : Char} (h : c.isDigit = true) : c.isAlpha = false :=
  Bool.eq_false_iff.mpr (@ofChar_other .index .name _ h nofun)

theorem nameRest_digit_stops (hd : headIs Char.isDigit text = true) (h : NameRest text name rest) :
    name = [] := by
  obtain ⟨c, left, rfl, hc⟩ := exists_cons_of_headIs hd
  cases h with
  | stops noLetter noEscape => rfl
  | letter letter more =>
    rw [digit_not_letter hc] at letter
    cases letter
  | underscores escaped more => exact absurd hc (by decide)
  | digits escaped more => exact absurd hc (by decide)

theorem NameScan.unique {rest' : List Char} (h : NameScan b text name rest)
    (hdoc : NameRest text name rest') : b = true ∧ rest = rest' := by
  induction h generalizing rest' with
  | stops noLetter noEscape =>
    generalize hname : ([] : List Char) = name' at hdoc
    cases hdoc with
    | stops => exact ⟨rfl, rfl⟩
    | letter letter more => cases hname
    | underscores escaped more => cases noEscape
    | digits escaped more => cases noEscape
  | letter letter more ih =>
    obtain ⟨name', hname, hmore⟩ := nameRest_letter letter hdoc
    obtain rfl := (List.cons_eq_cons.mp hname).2
    exact ih hmore
  | underscores escaped after inside apart more ih =>
    obtain ⟨name', hname, hmore⟩ := nameRest_underscores escaped hdoc
    obtain rfl := List.append_cancel_left hname
    exact ih (after ▸ hmore)
  | digits escaped more ih =>
    obtain ⟨name', hname, hmore⟩ := nameRest_digits escaped hdoc
    obtain rfl := List.append_cancel_left hname
    exact ih hmore
  | swallowed escaped after noEscape digit more ih =>
    obtain ⟨name', hname, hmore⟩ := nameRest_underscores escaped hdoc
    have hrest := List.append_cancel_left hname
    rw [after, ← hrest] at hmore
    -- The documented name has at most the character that was not looked at.
    rcases nameRest_other noEscape hmore with hnone | ⟨more', hmore', hleft⟩
    · cases hnone
    · have hdigits := nameRest_digit_stops digit hleft
      rw [← (List.cons_eq_cons.mp hmore').2] at hdigits
      obtain ⟨d, left', rfl, hd⟩ := exists_cons_of_headIs digit
      rw [List.takeWhile_cons_of_pos hd] at hdigits
      cases hdigits

theorem NameScan.letters (h : NameScan b (text.dropWhile Char.isAlpha) name rest) :
    NameScan b text (text.takeWhile Char.isAlpha ++ name) rest := by
  induction text with
  | nil => exact h
  | cons c text ih =>
    by_cases hc : c.isAlpha = true
    · rw [List.dropWhile_cons_of_pos hc] at h
      rw [List.takeWhile_cons_of_pos hc]
      exact .letter hc (ih h)
    · rw [List.dropWhile_cons_of_neg hc] at h
      rw [List.takeWhile_cons_of_neg hc]
      exact h

theorem nameLoop_scan {fuel : Nat} (h : nameLoop fuel text = some (some rest)) :
    ∃ b name, NameScan b text name rest := by
  induction fuel generalizing text with
  | zero => cases h
  | succ fuel ih =>
    suffices hend : ∃ b name, NameScan b (text.dropWhile Char.isAlpha) name rest by
      obtain ⟨b, name, hscan⟩ := hend
      exact ⟨b, _, hscan.letters⟩
    have hletter := headIs_dropWhile Char.isAlpha text
    rw [nameLoop, nameRound] at h
    generalize text.dropWhile Char.isAlpha = end1 at h hletter
    by_cases hescape : headIs (· = '\\') end1 = true
    · obtain ⟨left, rfl⟩ := headIs_eq hescape
      simp only [hescape, if_true, List.drop_one, List.tail_cons] at h
      by_cases hunder : headIs (· = '_') left = true
      · rw [if_pos hunder] at h
        cases hleft : left.dropWhile (· = '_') with
        | nil =>
          rw [hleft] at h
          cases h
        | cons x after =>
          rw [hleft, if_neg (List.cons_ne_nil x after)] at h
          by_cases hdigit : headIs Char.isDigit after = true
          · rw [List.tail_cons, if_pos hdigit] at h
            obtain ⟨b, name, hscan⟩ := ih h
            by_cases hx : x = '\\'
            · subst hx
              exact ⟨b, _, .underscores hunder hleft.symm (List.cons_ne_nil _ _) (.inl rfl)
                (.digits hdigit hscan)⟩
            · exact ⟨false, _, .swallowed hunder hleft hx hdigit hscan⟩
          · rw [List.tail_cons, if_neg hdigit] at h
            obtain ⟨b, name, hscan⟩ := ih h
            exact ⟨b, _, .underscores hunder hleft.symm (List.cons_ne_nil _ _)
              (.inr (Bool.eq_false_iff.mpr hdigit)) hscan⟩
      · rw [if_neg hunder, if_neg (List.cons_ne_nil _ _)] at h
        by_cases hdigit : headIs Char.isDigit left = true
        · rw [List.tail_cons, if_pos hdigit] at h
          obtain ⟨b, name, hscan⟩ := ih h
          exact ⟨b, _, .digits hdigit hscan⟩
        · rw [List.tail_cons, if_neg hdigit] at h
          exact ih h
    · simp only [hescape] at h
      obtain rfl := Option.some.inj (Option.some.inj h)
      exact ⟨true, [], .stops hletter (Bool.eq_false_iff.mpr hescape)⟩

theorem nameLoop_letter {c : Char} (hc : c.isAlpha = true) (fuel : Nat) (text : List Char) :
    nameLoop fuel (c :: text) = nameLoop fuel text := by
  cases fuel with
  | zero => rfl
  | succ fuel =>
    have hround : nameRound (c :: text) = nameRound text := by
      rw [nameRound, nameRound, List.dropWhile_cons_of_pos hc]
    rw [nameLoop, nameLoop, hround]

theorem nameRound_digits (hd : headIs Char.isDigit text = true) :
    nameRound ('\\' :: text) = some (true, text.dropWhile Char.isDigit) := by
  have hend : ('\\' :: text).dropWhile Char.isAlpha = '\\' :: text :=
    List.dropWhile_cons_of_neg (by decide)
  have hunder : headIs (· = '_') text = false := not_both_headIs digit_not_underscore hd
  have hescape : headIs (· = '\\') ('\\' :: text) = true := rfl
  rw [nameRound, hend]
  simp only [hescape, if_true, List.drop_one, List.tail_cons, hunder, hd, Bool.false_eq_true,
    if_false, reduceCtorEq]

theorem nameRound_underscores {x : Char} {left : List Char} (hu : headIs (· = '_') text = true)
    (hleft : text.dropWhile (· = '_') = x :: left) :
    nameRound ('\\' :: text) =
      some (true, if headIs Char.isDigit left then left.dropWhile Char.isDigit else x :: left) := by
  have hend : ('\\' :: text).dropWhile Char.isAlpha = '\\' :: text :=
    List.dropWhile_cons_of_neg (by decide)
  have hescape : headIs (· = '\\') ('\\' :: text) = true := rfl
  rw [nameRound, hend]
  simp only [hescape, if_true, List.drop_one, List.tail_cons, hu, hleft, reduceCtorEq, if_false]
  split
  · rfl
  · rfl

theorem NameScan.nameLoop (h : NameScan b text name rest) :
    ∃ fuel, nameLoop fuel text = some (some rest) := by
  induction h with
  | @stops text noLetter noEscape =>
    refine ⟨1, ?_⟩
    rw [Ucesb.nameLoop, nameRound, dropWhile_of_not_headIs noLetter]
    simp only [noEscape]
    rfl
  | letter letter more ih =>
    obtain ⟨fuel, hfuel⟩ := ih
    exact ⟨fuel, (nameLoop_letter letter ..).trans hfuel⟩
  | digits escaped more ih =>
    obtain ⟨fuel, hfuel⟩ := ih
    refine ⟨fuel + 1, ?_⟩
    rw [Ucesb.nameLoop, nameRound_digits escaped]
    exact hfuel
  | @underscores b text left name rest escaped after inside apart more ih =>
    obtain ⟨fuel, hfuel⟩ := ih
    obtain ⟨x, left', rfl⟩ := List.exists_cons_of_ne_nil inside
    by_cases hdigit : headIs Char.isDigit left' = true
    · -- The digits are taken in the same round.
      have hx : x = '\\' := by
        rcases apart with hx | hnone
        · exact of_decide_eq_true hx
        · rw [List.drop_one, List.tail_cons, hdigit] at hnone
          cases hnone
      subst hx
      cases fuel with
      | zero => cases hfuel
      | succ fuel =>
        refine ⟨fuel + 1, ?_⟩
        rw [Ucesb.nameLoop, nameRound_digits hdigit] at hfuel
        rw [Ucesb.nameLoop, nameRound_underscores escaped after.symm, if_pos hdigit]
        exact hfuel
    · refine ⟨fuel + 1, ?_⟩
      rw [Ucesb.nameLoop, nameRound_underscores escaped after.symm, if_neg hdigit]
      exact hfuel
  | swallowed escaped after noEscape digit more ih =>
    obtain ⟨fuel, hfuel⟩ := ih
    refine ⟨fuel + 1, ?_⟩
    rw [Ucesb.nameLoop, nameRound_underscores escaped after, if_pos digit]
    exact hfuel

theorem filter_digits {digits : List Char} (h : ∀ c ∈ digits, c.isDigit = true) :
    digits.filter (· ≠ '\\') = digits := by
  refine List.filter_eq_self.mpr fun c hc => decide_eq_true ?_
  rintro rfl
  exact absurd (h _ hc) (by decide)

theorem filter_underscores (text : List Char) :
    (text.takeWhile (· = '_')).filter (· ≠ '\\') = text.takeWhile (· = '_') := by
  refine List.filter_eq_self.mpr fun c hc => decide_eq_true ?_
  rintro rfl
  exact absurd (List.mem_takeWhile_imp hc) (by decide)

theorem NameScan.raw (h : NameScan b text name rest) :
    ∃ raw, text = raw ++ rest ∧ raw.filter (· ≠ '\\') = name := by
  induction h with
  | stops noLetter noEscape => exact ⟨[], rfl, rfl⟩
  | @letter b c text name rest letter more ih =>
    obtain ⟨raw, rfl, hraw⟩ := ih
    refine ⟨c :: raw, rfl, ?_⟩
    rw [List.filter_cons_of_pos, hraw]
    refine decide_eq_true ?_
    rintro rfl
    exact absurd letter (by decide)
  | @underscores b text left name rest escaped after inside apart more ih =>
    obtain ⟨raw, hsplit, hraw⟩ := ih
    refine ⟨'\\' :: (text.takeWhile (· = '_') ++ raw), ?_, ?_⟩
    · rw [List.cons_append, List.append_assoc, ← hsplit, after, List.takeWhile_append_dropWhile]
    · rw [List.filter_cons_of_neg (by decide), List.filter_append, filter_underscores, hraw]
  | @digits b text name rest escaped more ih =>
    obtain ⟨raw, hsplit, hraw⟩ := ih
    refine ⟨'\\' :: (text.takeWhile Char.isDigit ++ raw), ?_, ?_⟩
    · rw [List.cons_append, List.append_assoc, ← hsplit, List.takeWhile_append_dropWhile]
    · rw [List.filter_cons_of_neg (by decide), List.filter_append,
        filter_digits fun c hc => List.mem_takeWhile_imp hc, hraw]
  | @swallowed b text x left name rest escaped after noEscape digit more ih =>
    obtain ⟨raw, hsplit, hraw⟩ := ih
    refine ⟨'\\' :: (text.takeWhile (· = '_') ++ x :: (left.takeWhile Char.isDigit ++ raw)), ?_, ?_⟩
    · simp only [List.cons_append, List.append_assoc]
      rw [← hsplit, List.takeWhile_append_dropWhile, ← after, List.takeWhile_append_dropWhile]
    · rw [List.filter_cons_of_neg (by decide), List.filter_append, filter_underscores,
        List.filter_cons_of_pos (by simpa using noEscape), List.filter_append,
        filter_digits fun c hc => List.mem_takeWhile_imp hc, hraw]

end Names

end Ucesb
