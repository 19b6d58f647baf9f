import Mathlib.Tactic.Common
import Mathlib.Tactic.Ring
import Ucesb.Checks

namespace Ucesb

/-- The number of `s_strings`. -/
def maxFilheLines : Nat := 30

/-- The size of the array `string` of a comment. -/
def filheStringSize : Nat := 78

structure FilheString where
  stringL : UInt16
  string : List UInt8
deriving DecidableEq

def FilheString.empty : FilheString := ⟨0, List.replicate filheStringSize 0⟩

/-- `s_filhe_extra_host`.  The strings other than the comments are the label, the file, the user,
the run and the explanation. -/
structure FilheExtra where
  others : List FilheString
  filheLines : UInt32
  strings : List FilheString
  strings_length : strings.length = maxFilheLines

def FilheExtra.zero : FilheExtra where
  others := [30, 86, 30, 66, 66].map fun size => ⟨0, List.replicate size 0⟩
  filheLines := 0
  strings := List.replicate maxFilheLines .empty
  strings_length := List.length_replicate

/-- A line that is not in `s_strings` is written. -/
inductive FilheFault
  | outside (line : Nat)
deriving DecidableEq

/-- `strncpy` with the size of the array. -/
def strncpyFilhe (comment : List UInt8) : List UInt8 :=
  comment.take filheStringSize ++ List.replicate (filheStringSize - comment.length) 0

def FilheExtra.setLine (h : FilheExtra) (line : Nat) (s : FilheString) :
    Except FilheFault FilheExtra :=
  if line < maxFilheLines then
    .ok { h with
      strings := h.strings.set line s
      strings_length := by rw [List.length_set, h.strings_length] }
  else .error (.outside line)

/-- In the midst of `set_file_header`, with the lines that have been written. -/
structure HeaderLines where
  header : FilheExtra
  commentIndex : Nat
  written : List Nat

namespace HeaderLines

/-- The first comment is added, or takes the place of the last line.  Its length is limited. -/
def addFirst (header : FilheExtra) (comment : List UInt8) : Except FilheFault HeaderLines :=
  let length := UInt16.ofNat comment.length
  let line : FilheString :=
    ⟨if length.toNat > filheStringSize then UInt16.ofNat filheStringSize else length,
      strncpyFilhe comment⟩
  if header.filheLines.toNat < maxFilheLines then do
    let written ← { header with filheLines := header.filheLines + 1 }.setLine
      header.filheLines.toNat line
    return ⟨written, header.filheLines.toNat, [header.filheLines.toNat]⟩
  else do
    let written ← header.setLine (maxFilheLines - 1) line
    return ⟨written, maxFilheLines - 1, [maxFilheLines - 1]⟩

/-- The second comment, and the third.  `filhe_lines` is not looked at. -/
def addComment (s : HeaderLines) (comment : List UInt8) : Except FilheFault HeaderLines :=
  if comment ≠ [] ∧ s.commentIndex < maxFilheLines then do
    let line := s.header.filheLines.toNat
    let written ← { s.header with filheLines := s.header.filheLines + 1 }.setLine line
      ⟨UInt16.ofNat comment.length, strncpyFilhe comment⟩
    return ⟨written, line, s.written ++ [line]⟩
  else .ok s

end HeaderLines

def setFileHeader (extra : Option FilheExtra) (comment comment2 comment3 : List UInt8) :
    Except FilheFault HeaderLines := do
  let s ← HeaderLines.addFirst (extra.getD .zero) comment
  let s ← s.addComment comment2
  s.addComment comment3

def FilheString.zeroPadding (s : FilheString) : FilheString :=
  let l := if s.stringL.toNat > s.string.length then UInt16.ofNat s.string.length else s.stringL
  ⟨l, s.string.take l.toNat ++ List.replicate (s.string.length - l.toNat) 0⟩

def FilheExtra.zeroPadding (h : FilheExtra) : FilheExtra :=
  let lines := if h.filheLines.toNat > maxFilheLines then UInt32.ofNat maxFilheLines
    else h.filheLines
  { others := h.others.map FilheString.zeroPadding
    filheLines := lines
    strings := (h.strings.map FilheString.zeroPadding).take lines.toNat ++
      List.replicate (maxFilheLines - lines.toNat) .empty
    strings_length := by
      have hle : lines.toNat ≤ maxFilheLines := by
        unfold lines
        split
        · decide
        next h => exact Nat.not_lt.mp h
      rw [List.length_append, List.length_take, List.length_map, h.strings_length,
        List.length_replicate]
      omega }

/-- Nothing is written outside of `s_strings`; from a header with no more lines than there are,
such a header is made, and no line that was written is said to be longer than the array. -/
def HeaderKept (extra : FilheExtra) (r : Except FilheFault HeaderLines) : Prop :=
  ∃ s, r = .ok s ∧ (extra.filheLines.toNat ≤ maxFilheLines →
    s.header.filheLines.toNat ≤ maxFilheLines ∧
    ∀ line ∈ s.written, ∀ x ∈ s.header.strings[line]?, x.stringL.toNat ≤ filheStringSize)

def commentLines (comment : List UInt8) : Nat := if comment = [] then 0 else 1

section Kept

variable {header : FilheExtra} {s s' : HeaderLines} {comment comment2 comment3 : List UInt8}
  {line : Nat} {x : FilheString}

def HeaderLines.Clean (s : HeaderLines) : Prop :=
  ∀ line ∈ s.written, ∀ x ∈ s.header.strings[line]?, x.stringL.toNat ≤ filheStringSize

structure LinesInv (s : HeaderLines) : Prop where
  index : s.commentIndex < maxFilheLines
  below : ∀ line ∈ s.written, line < s.header.filheLines.toNat

theorem setLine_ok (h : line < maxFilheLines) : ∃ header', header.setLine line x = .ok header' ∧
    header'.filheLines = header.filheLines ∧ header'.strings = header.strings.set line x := by
  unfold FilheExtra.setLine
  rw [if_pos h]
  exact ⟨_, rfl, rfl, rfl⟩

theorem setLine_outside (h : maxFilheLines ≤ line) :
    header.setLine line x = .error (.outside line) := if_neg (Nat.not_lt.mpr h)

theorem addFirst_spec (header : FilheExtra) (comment : List UInt8) :
    ∃ s, HeaderLines.addFirst header comment = .ok s ∧ LinesInv s ∧ s.Clean ∧
      s.header.filheLines.toNat =
        if header.filheLines.toNat < maxFilheLines then header.filheLines.toNat + 1
        else header.filheLines.toNat := by
  have hclean : ∀ (h' : FilheExtra) (l i : Nat) (x : FilheString),
      x.stringL.toNat ≤ filheStringSize → h'.strings = header.strings.set l x →
      HeaderLines.Clean ⟨h', i, [l]⟩ := by
    intro h' l i x hx hset line hline y hy
    cases List.mem_singleton.mp hline
    have hy' : (header.strings.set l x)[l]? = some y := hset ▸ hy
    rw [List.getElem?_set_self'] at hy'
    cases hold : header.strings[l]? with
    | none =>
      rw [hold] at hy'
      cases hy'
    | some z =>
      rw [hold] at hy'
      cases hy'
      exact hx
  have hlimited : (if (UInt16.ofNat comment.length).toNat > filheStringSize then
      UInt16.ofNat filheStringSize else UInt16.ofNat comment.length).toNat ≤ filheStringSize := by
    split
    · decide
    next h => exact Nat.not_lt.mp h
  unfold HeaderLines.addFirst
  dsimp only
  split
  next hless =>
    obtain ⟨h', hset, hlines, hstrings⟩ := @setLine_ok
      { header with filheLines := header.filheLines + 1 } header.filheLines.toNat
      ⟨_, strncpyFilhe comment⟩ hless
    have hsucc : h'.filheLines.toNat = header.filheLines.toNat + 1 := by
      rw [hlines]
      change (header.filheLines + 1).toNat = _
      rw [UInt32.toNat_add]
      exact Nat.mod_eq_of_lt (Nat.lt_of_le_of_lt hless (by decide))
    rw [hset]
    refine ⟨_, rfl, ⟨hless, fun line hline => ?_⟩, hclean _ _ _ _ hlimited hstrings, hsucc⟩
    cases List.mem_singleton.mp hline
    exact hsucc ▸ Nat.lt_succ_self _
  next hmore =>
    obtain ⟨h', hset, hlines, hstrings⟩ := @setLine_ok header (maxFilheLines - 1)
      ⟨_, strncpyFilhe comment⟩ (by decide)
    rw [hset]
    refine ⟨_, rfl, ⟨Nat.lt_succ_self 29, fun line hline => ?_⟩, hclean _ _ _ _ hlimited hstrings,
      congrArg UInt32.toNat hlines⟩
    cases List.mem_singleton.mp hline
    change _ < h'.filheLines.toNat
    rw [hlines]
    exact Nat.lt_of_lt_of_le (by decide) (Nat.not_lt.mp hmore)

theorem addComment_nil : s.addComment [] = .ok s := if_neg fun h => h.1 rfl

theorem addComment_ok (h : LinesInv s) (hcomment : comment ≠ [])
    (hless : s.header.filheLines.toNat < maxFilheLines) :
    ∃ s', s.addComment comment = .ok s' ∧ LinesInv s' ∧
      s'.header.filheLines.toNat = s.header.filheLines.toNat + 1 ∧
      (s'.Clean ↔ s.Clean ∧ comment.length % 2 ^ 16 ≤ filheStringSize) := by
  unfold HeaderLines.addComment
  rw [if_pos ⟨hcomment, h.index⟩]
  obtain ⟨h', hset, hlines, hstrings⟩ := @setLine_ok
    { s.header with filheLines := s.header.filheLines + 1 } s.header.filheLines.toNat
    ⟨UInt16.ofNat comment.length, strncpyFilhe comment⟩ hless
  have hsucc : h'.filheLines.toNat = s.header.filheLines.toNat + 1 := by
    rw [hlines]
    change (s.header.filheLines + 1).toNat = _
    rw [UInt32.toNat_add]
    exact Nat.mod_eq_of_lt (Nat.lt_of_le_of_lt hless (by decide))
  have hnew : h'.strings[s.header.filheLines.toNat]? =
      some ⟨UInt16.ofNat comment.length, strncpyFilhe comment⟩ := by
    rw [hstrings]
    exact List.getElem?_set_self (s.header.strings_length ▸ hless)
  have hother : ∀ line ∈ s.written, h'.strings[line]? = s.header.strings[line]? := by
    intro line hline
    rw [hstrings]
    exact List.getElem?_set_ne (Nat.ne_of_gt (h.below line hline))
  dsimp only
  rw [hset]
  refine ⟨_, rfl, ⟨hless, fun line hline => ?_⟩, hsucc, ?_⟩
  · change line < h'.filheLines.toNat
    rw [hsucc]
    rcases List.mem_append.mp hline with hline | hline
    · exact Nat.lt_succ_of_lt (h.below line hline)
    · cases List.mem_singleton.mp hline
      exact Nat.lt_succ_self _
  · constructor
    · intro hclean
      refine ⟨fun line hline y hy => ?_, ?_⟩
      · exact hclean line (List.mem_append_left _ hline) y ((hother line hline).trans hy)
      · have := hclean _ (List.mem_append_right _ (.head _)) _ hnew
        rwa [UInt16.toNat_ofNat'] at this
    · rintro ⟨hclean, hlen⟩ line hline y hy
      rcases List.mem_append.mp hline with hline | hline
      · exact hclean line hline y ((hother line hline).symm.trans hy)
      · cases List.mem_singleton.mp hline
        cases hnew.symm.trans hy
        rwa [UInt16.toNat_ofNat']

theorem addComment_outside (h : LinesInv s) (hcomment : comment ≠ [])
    (hmore : maxFilheLines ≤ s.header.filheLines.toNat) :
    s.addComment comment = .error (.outside s.header.filheLines.toNat) := by
  unfold HeaderLines.addComment
  rw [if_pos ⟨hcomment, h.index⟩]
  dsimp only
  rw [setLine_outside hmore]
  rfl

theorem addComment_iff (h : LinesInv s) (comment : List UInt8) :
    (∃ s', s.addComment comment = .ok s') ↔
      comment = [] ∨ s.header.filheLines.toNat < maxFilheLines := by
  by_cases hcomment : comment = []
  · subst hcomment
    exact iff_of_true ⟨s, addComment_nil⟩ (.inl rfl)
  · by_cases hless : s.header.filheLines.toNat < maxFilheLines
    · obtain ⟨t, ht, -⟩ := addComment_ok h hcomment hless
      exact iff_of_true ⟨t, ht⟩ (.inr hless)
    · rw [addComment_outside h hcomment (Nat.not_lt.mp hless)]
      exact iff_of_false (fun ⟨_, he⟩ => by cases he) fun ho => ho.elim hcomment hless

theorem addComment_done (h : LinesInv s) (hs : s.addComment comment = .ok s') :
    LinesInv s' ∧
      s'.header.filheLines.toNat = s.header.filheLines.toNat + commentLines comment ∧
      (s'.Clean ↔ s.Clean ∧ comment.length % 2 ^ 16 ≤ filheStringSize) := by
  by_cases hcomment : comment = []
  · subst hcomment
    cases addComment_nil.symm.trans hs
    exact ⟨h, rfl, (and_iff_left (Nat.zero_le _)).symm⟩
  · have hless := ((addComment_iff h comment).mp ⟨s', hs⟩).resolve_left hcomment
    obtain ⟨t, ht, hinv, hlines, hclean⟩ := addComment_ok h hcomment hless
    cases ht.symm.trans hs
    rw [commentLines, if_neg hcomment]
    exact ⟨hinv, hlines, hclean⟩

theorem zeroPadding_length (x : FilheString) : x.zeroPadding.string.length = x.string.length ∧
    x.zeroPadding.stringL.toNat ≤ x.string.length := by
  have hle : (if x.stringL.toNat > x.string.length then UInt16.ofNat x.string.length
      else x.stringL).toNat ≤ x.string.length := by
    split
    · rw [UInt16.toNat_ofNat']
      exact Nat.mod_le _ _
    next h => exact Nat.not_lt.mp h
  refine ⟨?_, hle⟩
  unfold FilheString.zeroPadding
  dsimp only
  rw [List.length_append, List.length_take, List.length_replicate]
  omega

theorem zeroPadding_clean (header : FilheExtra) :
    header.zeroPadding.filheLines.toNat ≤ maxFilheLines ∧
    ∀ x ∈ header.zeroPadding.others ++ header.zeroPadding.strings,
      x.stringL.toNat ≤ x.string.length := by
  have hpadded : ∀ l : List FilheString, ∀ x ∈ l.map FilheString.zeroPadding,
      x.stringL.toNat ≤ x.string.length := by
    intro l x hx
    obtain ⟨y, -, rfl⟩ := List.mem_map.mp hx
    obtain ⟨hlen, hle⟩ := zeroPadding_length y
    exact hlen ▸ hle
  constructor
  · unfold FilheExtra.zeroPadding
    dsimp only
    split
    · decide
    next h => exact Nat.not_lt.mp h
  · intro x hx
    rcases List.mem_append.mp hx with hx | hx
    · exact hpadded _ x hx
    · rcases List.mem_append.mp hx with hx | hx
      · exact hpadded _ x (List.mem_of_mem_take hx)
      · rw [List.eq_of_mem_replicate hx]
        exact Nat.zero_le _

end Kept

/-- The header is as it should be exactly when there is only the first comment, or when there is a
line for each of the comments and the others are not too long for theirs. -/
theorem header_kept_iff (extra : Option FilheExtra) (comment comment2 comment3 : List UInt8) :
    HeaderKept (extra.getD .zero) (setFileHeader extra comment comment2 comment3) ↔
      (comment2 = [] ∧ comment3 = []) ∨
      ((extra.getD .zero).filheLines.toNat + commentLines comment2 + commentLines comment3 <
          maxFilheLines ∧
        comment2.length % 2 ^ 16 ≤ filheStringSize ∧
        comment3.length % 2 ^ 16 ≤ filheStringSize) := by
  obtain ⟨s₁, hfirst, hinv₁, hclean₁, hlines₁⟩ := addFirst_spec (extra.getD .zero) comment
  have hall : ∀ s, setFileHeader extra comment comment2 comment3 = .ok s ↔
      ∃ s₂, s₁.addComment comment2 = .ok s₂ ∧ s₂.addComment comment3 = .ok s := by
    intro s
    unfold setFileHeader
    rw [hfirst]
    change (s₁.addComment comment2 >>= fun s => s.addComment comment3) = _ ↔ _
    exact bind_eq_ok
  generalize (extra.getD .zero) = header at hlines₁ ⊢
  have hone : ∀ c : List UInt8, c ≠ [] → commentLines c = 1 := fun c hc => if_neg hc
  have hnil : commentLines [] = 0 := rfl
  constructor
  · rintro ⟨s, hs, hkept⟩
    obtain ⟨s₂, hs₂, hs₃⟩ := (hall s).mp hs
    obtain ⟨hinv₂, hlines₂, hclean₂⟩ := addComment_done hinv₁ hs₂
    obtain ⟨-, hlines₃, hclean₃⟩ := addComment_done hinv₂ hs₃
    have hplace₂ := (addComment_iff hinv₁ comment2).mp ⟨s₂, hs₂⟩
    have hplace₃ := (addComment_iff hinv₂ comment3).mp ⟨s, hs₃⟩
    by_cases hless : header.filheLines.toNat < maxFilheLines
    · rw [if_pos hless] at hlines₁
      obtain ⟨-, hclean⟩ := hkept (Nat.le_of_lt hless)
      obtain ⟨hclean', hlen₃⟩ := hclean₃.mp hclean
      have hlen₂ := (hclean₂.mp hclean').2
      by_cases h₂ : comment2 = []
      · by_cases h₃ : comment3 = []
        · exact .inl ⟨h₂, h₃⟩
        · have := hplace₃.resolve_left h₃
          rw [hone comment3 h₃]
          subst h₂
          exact .inr ⟨by omega, hlen₂, hlen₃⟩
      · have hroom₂ := hplace₂.resolve_left h₂
        rw [hone comment2 h₂] at hlines₂ ⊢
        by_cases h₃ : comment3 = []
        · subst h₃
          exact .inr ⟨by omega, hlen₂, hlen₃⟩
        · have := hplace₃.resolve_left h₃
          rw [hone comment3 h₃]
          exact .inr ⟨by omega, hlen₂, hlen₃⟩
    · rw [if_neg hless] at hlines₁
      exact .inl ⟨hplace₂.resolve_right (by omega), hplace₃.resolve_right (by omega)⟩
  · intro hcond
    have hroom : (comment2 = [] ∨ s₁.header.filheLines.toNat < maxFilheLines) ∧
        (comment3 = [] ∨
          s₁.header.filheLines.toNat + commentLines comment2 < maxFilheLines) := by
      rcases hcond with ⟨h₂, h₃⟩ | ⟨hfew, -, -⟩
      · exact ⟨.inl h₂, .inl h₃⟩
      · rw [if_pos (by omega)] at hlines₁
        rw [hlines₁]
        constructor
        · by_cases h₂ : comment2 = []
          · exact .inl h₂
          · have := hone comment2 h₂
            exact .inr (by omega)
        · by_cases h₃ : comment3 = []
          · exact .inl h₃
          · have := hone comment3 h₃
            exact .inr (by omega)
    obtain ⟨s₂, hs₂⟩ := (addComment_iff hinv₁ comment2).mpr hroom.1
    obtain ⟨hinv₂, hlines₂, hclean₂⟩ := addComment_done hinv₁ hs₂
    obtain ⟨s, hs₃⟩ := (addComment_iff hinv₂ comment3).mpr (hlines₂ ▸ hroom.2)
    obtain ⟨-, hlines₃, hclean₃⟩ := addComment_done hinv₂ hs₃
    refine ⟨s, (hall s).mpr ⟨s₂, hs₂, hs₃⟩, fun hle => ⟨?_, ?_⟩⟩
    · rcases hcond with ⟨rfl, rfl⟩ | ⟨hfew, -, -⟩
      · rw [hlines₃, hlines₂, hlines₁, hnil]
        split
        · omega
        · exact hle
      · rw [if_pos (by omega)] at hlines₁
        omega
    · refine hclean₃.mpr ⟨hclean₂.mpr ⟨hclean₁, ?_⟩, ?_⟩
      · rcases hcond with ⟨rfl, -⟩ | ⟨-, hlen, -⟩
        · exact Nat.zero_le _
        · exact hlen
      · rcases hcond with ⟨-, rfl⟩ | ⟨-, -, hlen⟩
        · exact Nat.zero_le _
        · exact hlen

theorem header_line_outside : ¬∀ extra comment comment2 comment3,
    HeaderKept (extra.getD .zero) (setFileHeader extra comment comment2 comment3) := by
  intro h
  obtain ⟨s, hs, -⟩ := h (some { FilheExtra.zero with filheLines := 29 }) [65] [66] []
  cases hs

end Ucesb
