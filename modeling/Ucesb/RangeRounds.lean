import Ucesb.RangeNames

namespace Ucesb

def Accepted (digits : List Char) : Prop :=
  -2 ^ 31 < strtolInt digits ∧ strtolInt digits < 0x1000000

def CountedFromOne (digits : List Char) : Prop :=
  1 ≤ numberOf digits ∧ numberOf digits < 0x1000000

instance (digits : List Char) : Decidable (CountedFromOne digits) :=
  inferInstanceAs (Decidable (_ ∧ _))

/-- One round that goes on with the rest of the string, and what it pushes. -/
inductive RangeRound : Bool → List Char → Option SigPartRange → List Char → Prop
  | underscore {text} : RangeRound true ('_' :: text) none text
  | wildcard {text} : RangeRound true ('?' :: text) (some .wildcard) text
  | wildcards {text} : RangeRound true ('*' :: text) (some .wildcards) text
  | name {b c text name rest} (letter : c.isAlpha = true) (scan : NameScan b text name rest) :
      RangeRound b (c :: text) (some (.name (c :: name))) rest
  | index {text low rest ordered} (digit : headIs Char.isDigit text = true)
      (all : low = text.takeWhile Char.isDigit) (ends : rest = text.dropWhile Char.isDigit)
      (single : headIs (· = '-') rest = false) (accepted : Accepted low) :
      RangeRound (decide (CountedFromOne low)) text
        (some (.index (strtolInt low - 1) (strtolInt low - 1) ordered)) rest
  | range {text low high start ordered} (digit : headIs Char.isDigit text = true)
      (allLow : low = text.takeWhile Char.isDigit)
      (dash : text.dropWhile Char.isDigit = '-' :: start)
      (digitHigh : headIs Char.isDigit start = true) (allHigh : high = start.takeWhile Char.isDigit)
      (accepted : Accepted low) (acceptedHigh : Accepted high) :
      RangeRound (decide (CountedFromOne low ∧ CountedFromOne high)) text
        (some (.index (strtolInt low - 1) (strtolInt high - 1) ordered))
        (start.dropWhile Char.isDigit)

/-- An error is reported here. -/
inductive RangeReported : List Char → Prop
  | unrecognized {c text} (other : c ≠ '_' ∧ c ≠ '?' ∧ c ≠ '*') (noLetter : c.isAlpha = false)
      (noDigit : c.isDigit = false) : RangeReported (c :: text)
  | refused {text} (digit : headIs Char.isDigit text = true)
      (large : 0x1000000 ≤ strtolInt (text.takeWhile Char.isDigit)) : RangeReported text
  | dash {text start} (digit : headIs Char.isDigit text = true)
      (dash : text.dropWhile Char.isDigit = '-' :: start)
      (noDigit : headIs Char.isDigit start = false) : RangeReported text
  | high {text start} (digit : headIs Char.isDigit text = true)
      (dash : text.dropWhile Char.isDigit = '-' :: start)
      (wrong : 0x1000000 ≤ strtolInt (start.takeWhile Char.isDigit) ∨
        strtolInt (start.takeWhile Char.isDigit) < strtolInt (text.takeWhile Char.isDigit)) :
      RangeReported text

/-- An error is met, or the end of the string with everything right so far. -/
inductive ReadAsDocumented : Bool → List Char → Prop
  | done : ReadAsDocumented true []
  | round {b right text part rest} (round : RangeRound right text part rest)
      (more : ReadAsDocumented (b && right) rest) : ReadAsDocumented b text
  | reported {b text} (reported : RangeReported text) : ReadAsDocumented b text

section Indices

variable {text : List Char}

theorem strtolInt_of_small {digits : List Char} (h : numberOf digits < 0x1000000) :
    strtolInt digits = numberOf digits := by
  have hmin : min (Nat.ofDigitChars 10 digits 0) (2 ^ 63 - 1) = numberOf digits := by
    rw [← numberOf]
    omega
  rw [strtolInt, hmin]
  exact toInt32_eq (by omega) (by omega)

theorem indexRange_cases (digit : headIs Char.isDigit text = true) :
    (RangeReported text ∧ ∃ e, indexRange text = .error (.error e)) ∨
      indexRange text = .error .undefined ∨
      ∃ right part rest, indexRange text = .ok (part, rest) ∧
        RangeRound right text (some part) rest := by
  unfold indexRange
  dsimp only
  by_cases hlow : 0x1000000 ≤ strtolInt (text.takeWhile Char.isDigit)
  · rw [if_pos hlow]
    exact .inl ⟨.refused digit hlow, _, rfl⟩
  · rw [if_neg hlow]
    by_cases hdash : headIs (· = '-') (text.dropWhile Char.isDigit) = true
    · obtain ⟨start, hstart⟩ := headIs_eq hdash
      rw [if_pos hdash, hstart, List.drop_one, List.tail_cons]
      unfold highRange
      dsimp only
      by_cases hdigit : headIs Char.isDigit start = true
      · rw [if_neg (by simp [hdigit])]
        by_cases hhigh : 0x1000000 ≤ strtolInt (start.takeWhile Char.isDigit)
        · rw [if_pos hhigh]
          exact .inl ⟨.high digit hstart (.inl hhigh), _, rfl⟩
        · rw [if_neg hhigh]
          split
          · next hbelow => exact .inl ⟨.high digit hstart (.inr hbelow), _, rfl⟩
          · next hordered =>
            unfold storedRange
            split
            · next hsmall =>
              exact .inr (.inr ⟨_, _, _, rfl, .range digit rfl hstart hdigit rfl
                ⟨hsmall, by omega⟩ ⟨by omega, by omega⟩⟩)
            · exact .inr (.inl rfl)
      · rw [if_pos (by simp [hdigit])]
        exact .inl ⟨.dash digit hstart (Bool.eq_false_iff.mpr hdigit), _, rfl⟩
    · rw [if_neg hdash]
      unfold storedRange
      split
      · next hsmall =>
        exact .inr (.inr ⟨_, _, _, rfl, .index digit rfl rfl (Bool.eq_false_iff.mpr hdash)
          ⟨hsmall, by omega⟩⟩)
      · exact .inr (.inl rfl)

theorem indexRange_dash {start : List Char} (dash : text.dropWhile Char.isDigit = '-' :: start)
    (hlow : ¬0x1000000 ≤ strtolInt (text.takeWhile Char.isDigit)) :
    indexRange text = highRange (strtolInt (text.takeWhile Char.isDigit)) start := by
  have hhead : headIs (· = '-') (text.dropWhile Char.isDigit) = true := by
    rw [dash]
    rfl
  unfold indexRange
  dsimp only
  rw [if_neg hlow, if_pos hhead, dash, List.drop_one, List.tail_cons]

theorem indexRange_refused (hlow : 0x1000000 ≤ strtolInt (text.takeWhile Char.isDigit)) :
    indexRange text = .error (.error .refusingIndex) := if_pos hlow

theorem RangeReported.indexRange (h : RangeReported text) (digit : headIs Char.isDigit text = true) :
    ∃ e, indexRange text = .error (.error e) := by
  by_cases hlow : 0x1000000 ≤ strtolInt (text.takeWhile Char.isDigit)
  · exact ⟨_, indexRange_refused hlow⟩
  · cases h with
    | unrecognized other noLetter noDigit => cases noDigit.symm.trans digit
    | refused _ large => exact absurd large hlow
    | dash _ dash noDigit =>
      exact ⟨_, (indexRange_dash dash hlow).trans (if_pos (by simp [noDigit]))⟩
    | @high _ start _ dash wrong =>
      rw [indexRange_dash dash hlow]
      unfold highRange
      dsimp only
      split
      · exact ⟨_, rfl⟩
      · split
        · exact ⟨_, rfl⟩
        · next hhigh => exact ⟨_, dif_pos (wrong.resolve_left hhigh)⟩

end Indices

section Rounds

variable {fuel : Nat} {c : Char} {text : List Char}

theorem digit_char (h : c.isDigit = true) : c ≠ '_' ∧ c ≠ '?' ∧ c ≠ '*' ∧ c.isAlpha = false := by
  refine ⟨?_, ?_, ?_, digit_not_letter h⟩
  · rintro rfl
    exact absurd h (by decide)
  · rintro rfl
    exact absurd h (by decide)
  · rintro rfl
    exact absurd h (by decide)

theorem letter_char (h : c.isAlpha = true) : c ≠ '_' ∧ c ≠ '?' ∧ c ≠ '*' := by
  refine ⟨?_, ?_, ?_⟩
  · rintro rfl
    exact absurd h (by decide)
  · rintro rfl
    exact absurd h (by decide)
  · rintro rfl
    exact absurd h (by decide)

theorem dissectRound_letter (h : c.isAlpha = true) :
    dissectRound fuel c text = (nameLoop fuel text).map fun
      | none => .error .undefined
      | some rest => .ok (some (.name
          (((c :: text).take ((c :: text).length - rest.length)).filter (· ≠ '\\'))), rest) := by
  obtain ⟨hunder, hone, hmany⟩ := letter_char h
  rw [dissectRound, if_neg hunder, if_neg hone, if_neg hmany]
  exact if_pos h

theorem dissectRound_digit (h : c.isDigit = true) :
    dissectRound fuel c text =
      some ((indexRange (c :: text)).map fun read => (some read.1, read.2)) := by
  obtain ⟨hunder, hone, hmany, hletter⟩ := digit_char h
  rw [dissectRound, if_neg hunder, if_neg hone, if_neg hmany, if_neg (by simp [hletter]), if_pos h]

theorem NameScan.pushed {b : Bool} {name rest : List Char} (h : NameScan b text name rest)
    (hc : c.isAlpha = true) :
    ((c :: text).take ((c :: text).length - rest.length)).filter (· ≠ '\\') = c :: name := by
  obtain ⟨raw, rfl, hraw⟩ := h.raw
  have hescape : c ≠ '\\' := by
    rintro rfl
    exact absurd hc (by decide)
  have hlength : (c :: (raw ++ rest)).length - rest.length = (c :: raw).length := by
    simp only [List.length_cons, List.length_append]
    omega
  rw [hlength, ← List.cons_append, List.take_left, List.filter_cons_of_pos (by simpa using hescape),
    hraw]

theorem dissectRound_cases {read : Except RangeStop (Option SigPartRange × List Char)}
    (h : dissectRound fuel c text = some read) :
    (RangeReported (c :: text) ∧ ∃ e, read = .error (.error e)) ∨ read = .error .undefined ∨
      ∃ right part rest, read = .ok (part, rest) ∧ RangeRound right (c :: text) part rest := by
  by_cases hletter : c.isAlpha = true
  · rw [dissectRound_letter hletter] at h
    cases hloop : nameLoop fuel text with
    | none =>
      rw [hloop] at h
      cases h
    | some result =>
      rw [hloop] at h
      cases result with
      | none => exact .inr (.inl (Option.some.inj h).symm)
      | some rest =>
        obtain ⟨b, name, hscan⟩ := nameLoop_scan hloop
        refine .inr (.inr ⟨b, _, rest, (Option.some.inj h).symm, ?_⟩)
        rw [hscan.pushed hletter]
        exact .name hletter hscan
  · by_cases hdigit : c.isDigit = true
    · rw [dissectRound_digit hdigit] at h
      obtain rfl := Option.some.inj h
      rcases @indexRange_cases (c :: text) hdigit with
        ⟨hreported, e, he⟩ | hnone | ⟨right, part, rest, hok, hround⟩
      · exact .inl ⟨hreported, e, by rw [he]; rfl⟩
      · exact .inr (.inl (by rw [hnone]; rfl))
      · exact .inr (.inr ⟨right, some part, rest, by rw [hok]; rfl, hround⟩)
    · unfold dissectRound at h
      split at h
      · next hc =>
        subst hc
        exact .inr (.inr ⟨true, none, text, (Option.some.inj h).symm, .underscore⟩)
      · next hunder =>
        split at h
        · next hc =>
          subst hc
          exact .inr (.inr ⟨true, _, text, (Option.some.inj h).symm, .wildcard⟩)
        · next hone =>
          split at h
          · next hc =>
            subst hc
            exact .inr (.inr ⟨true, _, text, (Option.some.inj h).symm, .wildcards⟩)
          · next hmany =>
            exact .inl ⟨.unrecognized ⟨hunder, hone, hmany⟩ (Bool.eq_false_iff.mpr hletter)
              (Bool.eq_false_iff.mpr hdigit), _, (Option.some.inj h).symm⟩

theorem RangeReported.dissectRound (h : RangeReported text) :
    ∃ c left e, text = c :: left ∧
      ∀ fuel, dissectRound fuel c left = some (.error (.error e)) := by
  have hdigits : ∀ {text : List Char}, RangeReported text → headIs Char.isDigit text = true →
      ∃ c left e, text = c :: left ∧
        ∀ fuel, Ucesb.dissectRound fuel c left = some (.error (.error e)) := by
    intro text h digit
    obtain ⟨e, he⟩ := h.indexRange digit
    obtain ⟨c, left, rfl, hc⟩ := exists_cons_of_headIs digit
    refine ⟨c, left, e, rfl, fun fuel => ?_⟩
    rw [dissectRound_digit hc, he]
    rfl
  cases h with
  | @unrecognized c left other noLetter noDigit =>
    refine ⟨c, left, .unrecognizedCharacter c, rfl, fun fuel => ?_⟩
    rw [Ucesb.dissectRound, if_neg other.1, if_neg other.2.1, if_neg other.2.2,
      if_neg (by simp [noLetter]), if_neg (by simp [noDigit])]
  | refused digit large => exact hdigits (.refused digit large) digit
  | dash digit dash noDigit => exact hdigits (.dash digit dash noDigit) digit
  | high digit dash wrong => exact hdigits (.high digit dash wrong) digit

theorem RangeRound.dissectRound {right : Bool} {part : Option SigPartRange} {rest : List Char}
    (h : RangeRound right text part rest) :
    ∃ c left fuel, text = c :: left ∧ dissectRound fuel c left = some (.ok (part, rest)) := by
  cases h with
  | underscore => exact ⟨'_', rest, 0, rfl, rfl⟩
  | wildcard => exact ⟨'?', rest, 0, rfl, rfl⟩
  | wildcards => exact ⟨'*', rest, 0, rfl, rfl⟩
  | @name b c left name rest letter scan =>
    obtain ⟨fuel, hfuel⟩ := scan.nameLoop
    refine ⟨c, left, fuel, rfl, ?_⟩
    rw [dissectRound_letter letter, hfuel, ← scan.pushed letter]
    rfl
  | index digit all ends single accepted =>
    subst all ends
    obtain ⟨c, left, rfl, hc⟩ := exists_cons_of_headIs digit
    refine ⟨c, left, 0, rfl, ?_⟩
    rw [dissectRound_digit hc, indexRange, if_neg (Int.not_le.mpr accepted.2),
      if_neg (by simp [single]), storedRange, if_pos accepted.1]
    rfl
  | @range _ low high start ordered digit allLow dash digitHigh allHigh accepted acceptedHigh =>
    subst allLow allHigh
    obtain ⟨c, left, rfl, hc⟩ := exists_cons_of_headIs digit
    refine ⟨c, left, 0, rfl, ?_⟩
    rw [dissectRound_digit hc, indexRange_dash dash (Int.not_le.mpr accepted.2), highRange,
      if_neg (by simp [digitHigh]), if_neg (Int.not_le.mpr acceptedHigh.2), dif_neg (by omega),
      storedRange, if_pos accepted.1]
    rfl

theorem RangeRound.readsRange {part : Option SigPartRange} {rest : List Char}
    {parts : List SigPartRange} (h : RangeRound true text part rest) (more : ReadsRange rest parts) :
    ReadsRange text (part.toList ++ parts) := by
  generalize hright : true = right at h
  cases h with
  | underscore => exact .underscore more
  | wildcard => exact .wildcard more
  | wildcards => exact .wildcards more
  | name letter scan =>
    subst hright
    exact .name letter scan.nameRest more
  | index digit all ends single accepted =>
    obtain ⟨hone, hsmall⟩ := of_decide_eq_true hright.symm
    exact .index digit all ends single hone (by rw [strtolInt_of_small hsmall]) more
  | range digit allLow dash digitHigh allHigh accepted acceptedHigh =>
    obtain ⟨⟨hone, hsmall⟩, -, hsmallHigh⟩ := of_decide_eq_true hright.symm
    exact .range digit allLow dash digitHigh allHigh hone (by rw [strtolInt_of_small hsmall])
      (by rw [strtolInt_of_small hsmallHigh]) more

theorem readsRange_single {parts : List SigPartRange} (noLetter : c.isAlpha = false)
    (noDigit : c.isDigit = false) (h : ReadsRange (c :: text) parts) :
    (c = '_' ∧ ReadsRange text parts) ∨
      (c = '?' ∧ ∃ more, parts = .wildcard :: more ∧ ReadsRange text more) ∨
      c = '*' ∧ ∃ more, parts = .wildcards :: more ∧ ReadsRange text more := by
  generalize htext : c :: text = text' at h
  cases h with
  | nil => cases htext
  | underscore more =>
    obtain ⟨rfl, rfl⟩ := List.cons_eq_cons.mp htext
    exact .inl ⟨rfl, more⟩
  | wildcard more =>
    obtain ⟨rfl, rfl⟩ := List.cons_eq_cons.mp htext
    exact .inr (.inl ⟨rfl, _, rfl, more⟩)
  | wildcards more =>
    obtain ⟨rfl, rfl⟩ := List.cons_eq_cons.mp htext
    exact .inr (.inr ⟨rfl, _, rfl, more⟩)
  | name letter run more =>
    obtain ⟨rfl, rfl⟩ := List.cons_eq_cons.mp htext
    cases noLetter.symm.trans letter
  | index digit all ends single one stored more =>
    subst htext
    cases noDigit.symm.trans digit
  | range digit allLow dash digitHigh allHigh one storedLow storedHigh more =>
    subst htext
    cases noDigit.symm.trans digit

theorem readsRange_name {parts : List SigPartRange} (letter : c.isAlpha = true)
    (h : ReadsRange (c :: text) parts) :
    ∃ name rest more, parts = .name (c :: name) :: more ∧ NameRest text name rest ∧
      ReadsRange rest more := by
  have hdigit : ¬c.isDigit = true := fun hdigit => by
    rw [digit_not_letter hdigit] at letter
    cases letter
  generalize htext : c :: text = text' at h
  cases h with
  | nil => cases htext
  | name letter run more =>
    obtain ⟨rfl, rfl⟩ := List.cons_eq_cons.mp htext
    exact ⟨_, _, _, rfl, run, more⟩
  | index digit all ends single one stored more =>
    subst htext
    exact absurd digit hdigit
  | range digit allLow dash digitHigh allHigh one storedLow storedHigh more =>
    subst htext
    exact absurd digit hdigit
  | _ =>
    obtain ⟨rfl, rfl⟩ := List.cons_eq_cons.mp htext
    exact absurd letter (by decide)

/-- What is documented for a string that begins with a digit. -/
inductive ReadsIndex (text : List Char) (i j : Int) (more : List SigPartRange) : Prop
  | single (dash : headIs (· = '-') (text.dropWhile Char.isDigit) = false)
      (one : 1 ≤ numberOf (text.takeWhile Char.isDigit))
      (low : i = numberOf (text.takeWhile Char.isDigit) - 1) (same : j = i)
      (rest : ReadsRange (text.dropWhile Char.isDigit) more)
  | range {start} (dash : text.dropWhile Char.isDigit = '-' :: start)
      (one : 1 ≤ numberOf (text.takeWhile Char.isDigit))
      (low : i = numberOf (text.takeWhile Char.isDigit) - 1)
      (high : j = numberOf (start.takeWhile Char.isDigit) - 1)
      (rest : ReadsRange (start.dropWhile Char.isDigit) more)

theorem readsRange_digit {i j : Int} {ordered : i ≤ j} {more : List SigPartRange}
    (digit : headIs Char.isDigit text = true) (h : ReadsRange text (.index i j ordered :: more)) :
    ReadsIndex text i j more := by
  cases h with
  | underscore more => cases digit
  | index digit all ends single one stored more =>
    subst all ends
    exact .single single one stored rfl more
  | range digit allLow dash digitHigh allHigh one storedLow storedHigh more =>
    subst allLow allHigh
    exact .range dash one storedLow storedHigh more

theorem RangeRound.right_of_readsRange {right : Bool} {part : Option SigPartRange}
    {rest : List Char} {parts : List SigPartRange} (h : RangeRound right text part rest)
    (hreads : ReadsRange text (part.toList ++ parts)) : right = true ∧ ReadsRange rest parts := by
  cases h with
  | underscore =>
    rcases readsRange_single (by decide) (by decide) hreads with ⟨-, more⟩ | ⟨hc, -⟩ | ⟨hc, -⟩
    · exact ⟨rfl, more⟩
    · exact absurd hc (by decide)
    · exact absurd hc (by decide)
  | wildcard =>
    rcases readsRange_single (by decide) (by decide) hreads with
      ⟨hc, -⟩ | ⟨-, more, hparts, hmore⟩ | ⟨hc, -⟩
    · exact absurd hc (by decide)
    · obtain rfl := (List.cons_eq_cons.mp hparts).2
      exact ⟨rfl, hmore⟩
    · exact absurd hc (by decide)
  | wildcards =>
    rcases readsRange_single (by decide) (by decide) hreads with
      ⟨hc, -⟩ | ⟨hc, -⟩ | ⟨-, more, hparts, hmore⟩
    · exact absurd hc (by decide)
    · exact absurd hc (by decide)
    · obtain rfl := (List.cons_eq_cons.mp hparts).2
      exact ⟨rfl, hmore⟩
  | name letter scan =>
    obtain ⟨name', rest', more, hparts, hrun, hmore⟩ := readsRange_name letter hreads
    obtain ⟨hname, rfl⟩ := List.cons_eq_cons.mp hparts
    obtain rfl := (List.cons_eq_cons.mp (SigPartRange.name.inj hname)).2
    obtain ⟨hright, rfl⟩ := scan.unique hrun
    exact ⟨hright, hmore⟩
  | index digit all ends single accepted =>
    subst all ends
    have hsmall := accepted.2
    cases readsRange_digit digit hreads with
    | single dash one low same rest => exact ⟨decide_eq_true ⟨one, by omega⟩, rest⟩
    | range dash one low high rest =>
      rw [dash] at single
      cases single
  | range digit allLow dash digitHigh allHigh accepted acceptedHigh =>
    subst allLow allHigh
    have hsmall := accepted.2
    have hsmallHigh := acceptedHigh.2
    cases readsRange_digit digit hreads with
    | single hnone one low same rest =>
      rw [dash] at hnone
      cases hnone
    | range dash' one low high rest =>
      obtain rfl := (List.cons_eq_cons.mp (dash.symm.trans dash')).2
      exact ⟨decide_eq_true ⟨⟨one, by omega⟩, by omega, by omega⟩, rest⟩

end Rounds

section Runs

theorem nameLoop_more {fuel more : Nat} {text : List Char} {r : Option (List Char)}
    (h : nameLoop fuel text = some r) (hle : fuel ≤ more) : nameLoop more text = some r := by
  induction fuel generalizing more text with
  | zero => cases h
  | succ fuel ih =>
    obtain ⟨more, rfl⟩ := Nat.exists_eq_succ_of_ne_zero (by omega : more ≠ 0)
    rw [nameLoop] at h ⊢
    split at h
    · exact h
    · exact ih h (by omega)
    · exact h

theorem dissectRound_more {fuel more : Nat} {c : Char} {text : List Char}
    {read : Except RangeStop (Option SigPartRange × List Char)}
    (h : dissectRound fuel c text = some read) (hle : fuel ≤ more) :
    dissectRound more c text = some read := by
  by_cases hletter : c.isAlpha = true
  · rw [dissectRound_letter hletter] at h ⊢
    obtain ⟨r, hr, hread⟩ := Option.map_eq_some_iff.mp h
    rw [nameLoop_more hr hle]
    exact congrArg some hread
  · unfold dissectRound at h ⊢
    rw [if_neg hletter] at h ⊢
    exact h

theorem dissectRangeLoop_more {fuel more : Nat} {id : List SigPartRange} {text : List Char}
    {result : Except RangeStop (List SigPartRange)}
    (h : dissectRangeLoop fuel id text = some result) (hle : fuel ≤ more) :
    dissectRangeLoop more id text = some result := by
  induction fuel generalizing more id text with
  | zero =>
    cases text with
    | nil => simpa [dissectRangeLoop] using h
    | cons c text => cases h
  | succ fuel ih =>
    cases text with
    | nil => simpa [dissectRangeLoop] using h
    | cons c text =>
      obtain ⟨more, rfl⟩ := Nat.exists_eq_succ_of_ne_zero (by omega : more ≠ 0)
      obtain ⟨read, hread, hrest⟩ := Option.bind_eq_some_iff.mp h
      refine Option.bind_eq_some_iff.mpr ⟨read, dissectRound_more hread (by omega), ?_⟩
      cases read with
      | error stop => exact hrest
      | ok step => exact ih hrest (by omega)

theorem dissectRangeLoop_ends {fuel : Nat} {id : List SigPartRange} {text : List Char}
    {result : Except RangeStop (List SigPartRange)}
    (h : dissectRangeLoop fuel id text = some result) :
    (∃ e, result = .error (.error e) ∧ ∀ b, ReadAsDocumented b text) ∨
      result = .error .undefined ∨
      ∃ parts, result = .ok (id ++ parts) ∧
        (ReadsRange text parts → ReadAsDocumented true text) := by
  induction fuel generalizing id text with
  | zero =>
    cases text with
    | nil => exact .inr (.inr ⟨[], by simpa [dissectRangeLoop] using h.symm, fun _ => .done⟩)
    | cons c text => cases h
  | succ fuel ih =>
    cases text with
    | nil => exact .inr (.inr ⟨[], by simpa [dissectRangeLoop] using h.symm, fun _ => .done⟩)
    | cons c text =>
      obtain ⟨read, hread, hrest⟩ := Option.bind_eq_some_iff.mp h
      rcases dissectRound_cases hread with ⟨hreported, e, rfl⟩ | rfl | ⟨right, part, rest, rfl, hround⟩
      · exact .inl ⟨e, (Option.some.inj hrest).symm, fun b => .reported hreported⟩
      · exact .inr (.inl (Option.some.inj hrest).symm)
      · rcases ih hrest with ⟨e, he, hall⟩ | hnone | ⟨parts, hparts, hdoc⟩
        · exact .inl ⟨e, he, fun b => .round hround (hall _)⟩
        · exact .inr (.inl hnone)
        · refine .inr (.inr ⟨part.toList ++ parts, by rw [hparts, List.append_assoc], ?_⟩)
          intro hreads
          obtain ⟨rfl, hmore⟩ := hround.right_of_readsRange hreads
          exact .round hround (hdoc hmore)

theorem ReadAsDocumented.loop {b : Bool} {text : List Char} (h : ReadAsDocumented b text)
    (id : List SigPartRange) :
    ∃ fuel, (∃ e, dissectRangeLoop fuel id text = some (.error (.error e))) ∨
      ∃ parts, dissectRangeLoop fuel id text = some (.ok (id ++ parts)) ∧
        b = true ∧ ReadsRange text parts := by
  induction h generalizing id with
  | done => exact ⟨0, .inr ⟨[], by simp [dissectRangeLoop], rfl, .nil⟩⟩
  | @round b right text part rest round more ih =>
    obtain ⟨c, left, fuel1, rfl, hround⟩ := round.dissectRound
    obtain ⟨fuel2, hloop⟩ := ih (id ++ part.toList)
    have hstep : ∀ {result}, dissectRangeLoop fuel2 (id ++ part.toList) rest = some result →
        dissectRangeLoop (max fuel1 fuel2 + 1) id (c :: left) = some result := by
      intro result hresult
      refine Option.bind_eq_some_iff.mpr ⟨_, dissectRound_more hround (Nat.le_max_left ..), ?_⟩
      exact dissectRangeLoop_more hresult (Nat.le_max_right ..)
    refine ⟨max fuel1 fuel2 + 1, ?_⟩
    rcases hloop with ⟨e, he⟩ | ⟨parts, hparts, hright, hreads⟩
    · exact .inl ⟨e, hstep he⟩
    · obtain ⟨rfl, rfl⟩ := Bool.and_eq_true_iff.mp hright
      refine .inr ⟨part.toList ++ parts, ?_, rfl, round.readsRange hreads⟩
      rw [← List.append_assoc]
      exact hstep hparts
  | reported reported =>
    obtain ⟨c, left, e, rfl, hround⟩ := reported.dissectRound
    exact ⟨1, .inl ⟨e, Option.bind_eq_some_iff.mpr ⟨_, hround 0, rfl⟩⟩⟩

def EndsRight (name : List Char) : Prop :=
  ∃ fuel result, dissectNameRange fuel name = some result ∧ RightRange name result

theorem dissectNameRange_right_iff (name : List Char) :
    EndsRight name ↔ (headIs (fun c => c.isAlpha || c = '*' || c = '?') name = true →
      ReadAsDocumented true name) := by
  unfold EndsRight dissectNameRange
  constructor
  · rintro ⟨fuel, result, hresult, hright⟩ hstart
    rw [if_pos hstart] at hresult
    rcases dissectRangeLoop_ends hresult with ⟨e, rfl, hall⟩ | rfl | ⟨parts, rfl, hdoc⟩
    · exact hall true
    · exact hright.elim
    · exact hdoc hright
  · intro h
    by_cases hstart : headIs (fun c => c.isAlpha || c = '*' || c = '?') name = true
    · obtain ⟨fuel, ⟨e, he⟩ | ⟨parts, hparts, -, hreads⟩⟩ := (h hstart).loop []
      · exact ⟨fuel, _, (if_pos hstart).trans he, trivial⟩
      · exact ⟨fuel, _, (if_pos hstart).trans hparts, hreads⟩
    · exact ⟨0, _, if_neg hstart, trivial⟩

theorem nameLoop_stuck {text : List Char} (h : nameRound text = some (true, text)) (fuel : Nat) :
    nameLoop fuel text = none := by
  induction fuel with
  | zero => rfl
  | succ fuel ih =>
    rw [nameLoop, h]
    exact ih

theorem backslash_never_ends : ¬EndsRight ['a', '\\', 'b'] := by
  rintro ⟨fuel, result, hresult, -⟩
  have hround : ∀ fuel, dissectRound fuel 'a' ['\\', 'b'] = none := fun fuel =>
    congrArg (Option.map _) (nameLoop_stuck rfl fuel)
  cases fuel with
  | zero => cases hresult
  | succ fuel =>
    change (dissectRound fuel 'a' ['\\', 'b']).bind _ = some result at hresult
    rw [hround] at hresult
    cases hresult

end Runs

end Ucesb
