import Mathlib.Data.List.Basic
import Mathlib.Tactic.Common
import Mathlib.Tactic.Ring

namespace Ucesb

/-- `SIG_PART_INDEX_LIMIT`, `SIG_PART_INDEX_ZZP` and `SIG_PART_MULTI_ENTRY` -/
structure IndexExtra where
  limit : Bool
  zzp : Bool
  multiEntry : Bool
deriving DecidableEq

def noExtra : IndexExtra := ⟨false, false, false⟩

/-- An index with something extra is only used for an id that will only be printed. -/
inductive SigPart
  | name (name : List Char)
  | index (index : Int) (extra : IndexExtra)
deriving DecidableEq

abbrev SignalId := List SigPart

inductive PartKind
  | name
  | index
deriving DecidableEq

def SigPart.kind : SigPart → PartKind
  | .name _ => .name
  | .index .. => .index

/-- What `operator==` compares. -/
def SigPart.plain : SigPart → SigPart
  | .name text => .name text
  | .index i _ => .index i noExtra

/-- The conversion to `int`, and the result of a sum or difference of two of them. -/
def toInt32 (v : Int) : Int := (BitVec.ofInt 32 v).toInt

theorem toInt32_eq {v : Int} (hlow : -2 ^ 31 ≤ v) (hhigh : v < 2 ^ 31) : toInt32 v = v := by
  rw [toInt32, BitVec.toInt_ofInt]
  exact Int.bmod_eq_of_le (by omega) (by omega)

/-- `(int) strtol(digits,NULL,10)`, with a `long` of 64 bits. -/
def strtolInt (digits : List Char) : Int :=
  toInt32 (min (Nat.ofDigitChars 10 digits 0) (2 ^ 63 - 1) : Nat)

inductive DissectError
  | notStartingWithCharacter
  | indexingStartsAt1
  | refusingIndex
  | unrecognizedCharacter (c : Char)
deriving DecidableEq

/-- The loop over the name. `strtol` ends with the last digit. -/
def dissectParts (id : SignalId) : List Char → Except DissectError SignalId
  | [] => .ok id
  | c :: start =>
    if c = '_' then dissectParts id start
    else if c.isAlpha then
      dissectParts (id ++ [.name (c :: start.takeWhile Char.isAlpha)])
        (start.dropWhile Char.isAlpha)
    else if c.isDigit then
      let index := strtolInt (c :: start.takeWhile Char.isDigit)
      if index ≤ 0 then .error .indexingStartsAt1
      else if index ≥ 0x1000000 then .error .refusingIndex
      else dissectParts (id ++ [.index (index - 1) noExtra]) (start.dropWhile Char.isDigit)
    else .error (.unrecognizedCharacter c)
termination_by start => start.length
decreasing_by
  · exact Nat.lt_succ_self _
  · exact Nat.lt_succ_of_le (List.dropWhile_sublist _).length_le
  · exact Nat.lt_succ_of_le (List.dropWhile_sublist _).length_le

theorem isAlpha_iff {c : Char} :
    c.isAlpha = true ↔ (65 ≤ c.toNat ∧ c.toNat ≤ 90) ∨ (97 ≤ c.toNat ∧ c.toNat ≤ 122) := by
  have hletter : c.isAlpha = (decide (c.val ≥ 'A'.val ∧ c.val ≤ 'Z'.val) ||
      decide (c.val ≥ 'a'.val) && decide (c.val ≤ 'z'.val)) := rfl
  rw [hletter]
  simp only [Bool.or_eq_true, Bool.and_eq_true, decide_eq_true_eq, UInt32.le_iff_toNat_le, ge_iff_le]
  rfl

theorem isDigit_iff {c : Char} : c.isDigit = true ↔ 48 ≤ c.toNat ∧ c.toNat ≤ 57 := by
  simp only [Char.isDigit, Bool.and_eq_true, decide_eq_true_eq, UInt32.le_iff_toNat_le, ge_iff_le]
  rfl

def PartKind.ofChar : PartKind → Char → Bool
  | .name, c => c.isAlpha
  | .index, c => c.isDigit

structure TextOf (kind : PartKind) (text : List Char) : Prop where
  nonempty : text ≠ []
  chars : ∀ c ∈ text, kind.ofChar c = true

theorem ofChar_other {kind other : PartKind} {c : Char} (h : kind.ofChar c = true)
    (hne : other ≠ kind) : ¬other.ofChar c = true := by
  intro hother
  cases kind with
  | name =>
    cases other with
    | name => exact hne rfl
    | index =>
      have hdigit := isDigit_iff.mp hother
      have halpha := isAlpha_iff.mp h
      omega
  | index =>
    cases other with
    | name =>
      have hdigit := isDigit_iff.mp h
      have halpha := isAlpha_iff.mp hother
      omega
    | index => exact hne rfl

theorem not_ofChar_underscore (kind : PartKind) : ¬kind.ofChar '_' = true := by
  cases kind with
  | name => decide
  | index => decide

theorem takeWhile_stops {p : Char → Bool} {text rest : List Char} (htext : ∀ c ∈ text, p c = true)
    (hrest : rest.takeWhile p = []) : (text ++ rest).takeWhile p = text := by
  rw [List.takeWhile_append_of_pos htext, hrest, List.append_nil]

theorem dropWhile_stops {p : Char → Bool} {text rest : List Char} (htext : ∀ c ∈ text, p c = true)
    (hrest : rest.takeWhile p = []) : (text ++ rest).dropWhile p = rest := by
  rw [List.dropWhile_append_of_pos htext]
  have hsplit := List.takeWhile_append_dropWhile (p := p) (l := rest)
  rwa [hrest, List.nil_append] at hsplit

def dissectName (name : List Char) : Except DissectError SignalId :=
  if (name.head?.map Char.isAlpha).getD false then dissectParts [] name
  else .error .notStartingWithCharacter

/-- A high range index is not below the low one. -/
inductive SigPartRange
  | name (name : List Char)
  | index (min max : Int) (ordered : min ≤ max)
  | wildcard
  | wildcards

def sameIgnoringCase (a b : List Char) : Bool := a.map Char.toLower == b.map Char.toLower

/-- The checks for a part that is not `*`: the types, the names, the indices. -/
def SigPartRange.accepts : SigPartRange → SigPart → Bool
  | .name text, .name idText => sameIgnoringCase text idText
  | .name _, .index .. => false
  | .index min max _, .index i extra => extra == noExtra && !(min > i || max < i)
  | .index .., .name _ => false
  | .wildcard, _ => true
  | .wildcards, _ => false

def tryAmounts (encloses : List SigPart → Bool) (subChannel : Bool) : List SigPart → Bool
  | [] => encloses [] || subChannel
  | idPart :: j => encloses (idPart :: j) || tryAmounts encloses subChannel j

def signalIdRangeEncloses (subChannel : Bool) : List SigPartRange → List SigPart → Bool
  | [], _ => true
  | .wildcards :: i, j => tryAmounts (signalIdRangeEncloses subChannel i) subChannel j
  | _ :: _, [] => subChannel
  | part :: i, idPart :: j => part.accepts idPart && signalIdRangeEncloses subChannel i j

def encloses (parts : List SigPartRange) (id : SignalId) (subChannel : Bool) : Bool :=
  signalIdRangeEncloses subChannel parts id

/-- What one part of an id must be, for a part of a pattern that takes exactly one. -/
inductive SigPartRange.Takes : SigPartRange → SigPart → Prop
  | name {name idName} (same : name.map Char.toLower = idName.map Char.toLower) :
    Takes (.name name) (.name idName)
  | index {min max i ordered} (low : min ≤ i) (high : i ≤ max) :
    Takes (.index min max ordered) (.index i noExtra)
  | wildcard {part} : Takes .wildcard part

/-- The parts can be split among the parts of the pattern. -/
inductive SplitsAmong : List SigPartRange → List SigPart → Prop
  | nil : SplitsAmong [] []
  | wildcards (run : List SigPart) {i j} (rest : SplitsAmong i j) : SplitsAmong (.wildcards :: i) (run ++ j)
  | part {part idPart i j} (takes : part.Takes idPart) (rest : SplitsAmong i j) :
    SplitsAmong (part :: i) (idPart :: j)

def Selects (parts : List SigPartRange) (id : SignalId) : Prop :=
  ∃ taken, taken <+: id ∧ SplitsAmong parts taken

theorem accepts_iff {part : SigPartRange} {idPart : SigPart} :
    part.accepts idPart = true ↔ part.Takes idPart := by
  constructor
  · intro h
    cases part with
    | name name =>
      cases idPart with
      | name idName => exact .name (beq_iff_eq.mp h)
      | index index extra => cases h
    | index min max ordered =>
      cases idPart with
      | name idName => cases h
      | index index extra =>
        simp only [SigPartRange.accepts, Bool.and_eq_true, beq_iff_eq, Bool.not_eq_true',
          Bool.or_eq_false_iff, decide_eq_false_iff_not] at h
        obtain ⟨rfl, hlow, hhigh⟩ := h
        exact .index (by omega) (by omega)
    | wildcard => exact .wildcard
    | wildcards => cases h
  · intro h
    cases h with
    | name same => exact beq_iff_eq.mpr same
    | index low high =>
      simp only [SigPartRange.accepts, Bool.and_eq_true, beq_iff_eq, Bool.not_eq_true',
        Bool.or_eq_false_iff, decide_eq_false_iff_not]
      exact ⟨trivial, by omega, by omega⟩
    | wildcard => rfl

theorem tryAmounts_iff {f : List SigPart → Bool} {subChannel : Bool} {j : List SigPart} :
    tryAmounts f subChannel j = true ↔
      subChannel = true ∨ ∃ run rest, j = run ++ rest ∧ f rest = true := by
  induction j with
  | nil =>
    rw [tryAmounts, Bool.or_eq_true, or_comm]
    refine or_congr_right ⟨fun h => ⟨[], [], rfl, h⟩, ?_⟩
    rintro ⟨run, rest, hsplit, hf⟩
    obtain ⟨-, rfl⟩ := List.append_eq_nil_iff.mp hsplit.symm
    exact hf
  | cons idPart j ih =>
    rw [tryAmounts, Bool.or_eq_true, ih]
    constructor
    · rintro (hf | hsub | ⟨run, rest, rfl, hf⟩)
      · exact .inr ⟨[], idPart :: j, rfl, hf⟩
      · exact .inl hsub
      · exact .inr ⟨idPart :: run, rest, rfl, hf⟩
    · rintro (hsub | ⟨run, rest, hsplit, hf⟩)
      · exact .inr (.inl hsub)
      · cases run with
        | nil =>
          rw [List.nil_append] at hsplit
          exact .inl (hsplit ▸ hf)
        | cons first run =>
          obtain ⟨rfl, rfl⟩ := List.cons_eq_cons.mp hsplit
          exact .inr (.inr ⟨run, rest, rfl, hf⟩)

theorem selects_nil (id : SignalId) : Selects [] id := ⟨[], List.nil_prefix, .nil⟩

theorem selects_wildcards {i : List SigPartRange} {j : SignalId} :
    Selects (.wildcards :: i) j ↔ ∃ run rest, j = run ++ rest ∧ Selects i rest := by
  constructor
  · rintro ⟨taken, ⟨left, rfl⟩, hsplits⟩
    cases hsplits with
    | wildcards run rest =>
      exact ⟨run, _, List.append_assoc .., _, List.prefix_append .., rest⟩
    | part takes rest => cases takes
  · rintro ⟨run, rest, rfl, taken, hprefix, hsplits⟩
    exact ⟨run ++ taken, (List.prefix_append_right_inj run).mpr hprefix, .wildcards run hsplits⟩

theorem selects_cons {part : SigPartRange} {i : List SigPartRange} {idPart : SigPart}
    {j : SignalId} (hpart : part ≠ .wildcards) :
    Selects (part :: i) (idPart :: j) ↔ part.Takes idPart ∧ Selects i j := by
  constructor
  · rintro ⟨taken, hprefix, hsplits⟩
    cases hsplits with
    | wildcards run rest => exact absurd rfl hpart
    | part takes rest =>
      obtain ⟨rfl, hrest⟩ := List.cons_prefix_cons.mp hprefix
      exact ⟨takes, _, hrest, rest⟩
  · rintro ⟨htakes, taken, hprefix, hsplits⟩
    exact ⟨idPart :: taken, List.cons_prefix_cons.mpr ⟨rfl, hprefix⟩, .part htakes hsplits⟩

theorem not_selects_empty {part : SigPartRange} {i : List SigPartRange}
    (hpart : part ≠ .wildcards) : ¬Selects (part :: i) [] := by
  rintro ⟨taken, hprefix, hsplits⟩
  cases List.prefix_nil.mp hprefix
  generalize hnil : ([] : List SigPart) = taken at hsplits
  cases hsplits with
  | wildcards run rest => exact absurd rfl hpart
  | part takes rest => cases hnil

theorem exists_splits (i : List SigPartRange) : ∃ j, SplitsAmong i j := by
  induction i with
  | nil => exact ⟨[], .nil⟩
  | cons part i ih =>
    obtain ⟨j, hj⟩ := ih
    cases part with
    | name name => exact ⟨.name name :: j, .part (.name rfl) hj⟩
    | index min max ordered =>
      exact ⟨.index min noExtra :: j, .part (.index (Int.le_refl _) ordered) hj⟩
    | wildcard => exact ⟨.name [] :: j, .part .wildcard hj⟩
    | wildcards => exact ⟨[] ++ j, .wildcards [] hj⟩

theorem encloses_iff_selects (i : List SigPartRange) (j : SignalId) :
    signalIdRangeEncloses false i j = true ↔ Selects i j := by
  induction i generalizing j with
  | nil => exact iff_of_true rfl (selects_nil j)
  | cons part i ih =>
    by_cases hpart : part = .wildcards
    · subst hpart
      rw [signalIdRangeEncloses, tryAmounts_iff, selects_wildcards]
      simp only [ih, Bool.false_eq_true, false_or]
    · cases j with
      | nil =>
        rw [signalIdRangeEncloses]
        · exact iff_of_false Bool.false_ne_true (not_selects_empty hpart)
        · exact hpart
      | cons idPart j =>
        rw [signalIdRangeEncloses, Bool.and_eq_true, accepts_iff, ih, selects_cons hpart]
        exact hpart

theorem encloses_sub_iff_selects (i : List SigPartRange) (j : SignalId) :
    signalIdRangeEncloses true i j = true ↔ ∃ further, Selects i (j ++ further) := by
  induction i generalizing j with
  | nil => exact iff_of_true rfl ⟨[], selects_nil _⟩
  | cons part i ih =>
    by_cases hpart : part = .wildcards
    · subst hpart
      rw [signalIdRangeEncloses, tryAmounts_iff]
      obtain ⟨further, hsplits⟩ := exists_splits i
      refine iff_of_true (.inl rfl) ⟨further, selects_wildcards.mpr ⟨j, further, rfl, ?_⟩⟩
      exact ⟨further, List.prefix_refl _, hsplits⟩
    · cases j with
      | nil =>
        rw [signalIdRangeEncloses]
        · obtain ⟨further, hsplits⟩ := exists_splits (part :: i)
          exact iff_of_true rfl ⟨further, further, List.prefix_refl _, hsplits⟩
        · exact hpart
      | cons idPart j =>
        rw [signalIdRangeEncloses, Bool.and_eq_true, accepts_iff, ih]
        · simp only [List.cons_append, selects_cons hpart, exists_and_left]
        · exact hpart

/-- A pattern selects what can be split, and with sub channels also what can be continued so. -/
theorem encloses_meaning (parts : List SigPartRange) (id : SignalId) :
    (encloses parts id false = true ↔ Selects parts id) ∧
      (encloses parts id true = true ↔ Selects parts id ∨ ∃ further, Selects parts (id ++ further)) := by
  refine ⟨encloses_iff_selects parts id, (encloses_sub_iff_selects parts id).trans ?_⟩
  constructor
  · exact .inr
  · rintro (hid | hfurther)
    · exact ⟨[], (List.append_nil id).symm ▸ hid⟩
    · exact hfurther

end Ucesb
