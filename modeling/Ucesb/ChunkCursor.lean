import Ucesb.Pieces

namespace Ucesb

section Cursor

variable {α : Type}

/-- The loop of `get_range_many`, from the start of a chunk. -/
def getRangeRest : Nat → List (List α) → Option (List α × List (List α) × Nat)
  | 0, src => some ([], src, 0)
  | _ + 1, [] => none
  | length + 1, c :: src =>
    if length + 1 ≥ c.length then
      (getRangeRest (length + 1 - c.length) src).map fun r => (c ++ r.1, r.2)
    else some (c.take (length + 1), c :: src, length + 1)

/-- `get_range_many`: the bytes that are copied, and the cursor after them. -/
def getRangeMany (length : Nat) : List (List α) → Nat → Option (List α × List (List α) × Nat)
  | [], _ => none
  | c :: src, offset =>
    if offset + length < c.length then
      some (slice c offset length, c :: src, offset + length)
    else
      (getRangeRest (length - (c.length - offset)) src).map fun r => (c.drop offset ++ r.1, r.2)

/-- `get_range` into memory, from the chunks of one record: the bytes, and what is left. A second
chunk that is used up stays as an empty one. -/
def getRange (length : Nat) : List (List α) → Option (List α × List (List α))
  | [] => none
  | c :: src =>
    if length < c.length then some (c.take length, c.drop length :: src)
    else if length - c.length = 0 then some (c, src)
    else
      match src with
      | [] => none
      | d :: more =>
        if d.length < length - c.length then none
        else some (c ++ d.take (length - c.length), d.drop (length - c.length) :: more)

def skipRange (length : Nat) (src : List (List α)) : Option (List (List α)) :=
  (getRange length src).map Prod.snd

/-- `get_range` into chunks: the bytes stay where they are. -/
def getRangeChunks (length : Nat) : List (List α) → Option (List (List α) × List (List α))
  | [] => none
  | c :: src =>
    if length < c.length then some ([c.take length], c.drop length :: src)
    else if length - c.length = 0 then some ([c], src)
    else
      match src with
      | [] => none
      | d :: more =>
        if d.length < length - c.length then none
        else if length - c.length = d.length then some ([c, d], more)
        else some ([c, d.take (length - c.length)], d.drop (length - c.length) :: more)

def cursorRest : List (List α) → Nat → List α
  | [], _ => []
  | c :: src, offset => c.drop offset ++ src.flatten

/-- Where a read leaves the cursor: at the start of a chunk, or inside one. -/
def CursorOk : List (List α) → Nat → Prop
  | [], offset => offset = 0
  | c :: _, offset => offset = 0 ∨ offset < c.length

def trailingEmpty : List (List α) → Nat
  | [] => 0
  | c :: src => if (c :: src).flatten.isEmpty then src.length + 1 else trailingEmpty src

/-- The cursor has `t` empty chunks after the last byte. -/
def CursorTail (t : Nat) (src : List (List α)) (offset : Nat) : Prop :=
  if (cursorRest src offset).isEmpty then src.length = t else trailingEmpty src = t

theorem trailingEmpty_cons {c : List α} {src : List (List α)} (h : c ≠ []) :
    trailingEmpty (c :: src) = if src.flatten.isEmpty then src.length else trailingEmpty src := by
  have hne : (c :: src).flatten.isEmpty = false := by
    cases c with
    | nil => exact absurd rfl h
    | cons a c => rfl
  rw [trailingEmpty, hne, if_neg (by simp)]
  split
  next he =>
    cases src with
    | nil => rfl
    | cons d src => rw [trailingEmpty, he, if_pos rfl, List.length_cons]
  next => rfl

theorem trailingEmpty_next {c : List α} {src : List (List α)} {t : Nat}
    (hne : (c :: src).flatten ≠ []) (h : trailingEmpty (c :: src) = t) :
    if src.flatten.isEmpty then src.length = t else trailingEmpty src = t := by
  by_cases hc : c = []
  · have hs : src.flatten.isEmpty = false := by
      rw [List.isEmpty_eq_false_iff]
      rw [hc, List.flatten_cons, List.nil_append] at hne
      exact hne
    have hf : (c :: src).flatten.isEmpty = false := by
      rw [List.isEmpty_eq_false_iff]
      exact hne
    rw [trailingEmpty, hf, if_neg (by simp)] at h
    rw [hs, if_neg (by simp)]
    exact h
  · rw [trailingEmpty_cons hc] at h
    split at h
    next he => rw [if_pos he]; exact h
    next he => rw [if_neg he]; exact h

theorem cursorTail_next {c : List α} {src : List (List α)} {t offset : Nat}
    (hne : cursorRest (c :: src) offset ≠ []) (h : CursorTail t (c :: src) offset) :
    if src.flatten.isEmpty then src.length = t else trailingEmpty src = t := by
  rw [CursorTail, if_neg (by simpa using hne)] at h
  refine trailingEmpty_next ?_ h
  intro hf
  rw [List.flatten_cons, List.append_eq_nil_iff] at hf
  rw [cursorRest, hf.1, hf.2, List.drop_nil] at hne
  exact hne rfl

theorem cursorRest_zero (src : List (List α)) : cursorRest src 0 = src.flatten := by
  cases src <;> rfl

theorem cursorOk_zero (src : List (List α)) : CursorOk src 0 := by
  cases src with
  | nil => rfl
  | cons c src => exact .inl rfl

theorem getRangeRest_spec {length t : Nat} {src : List (List α)} (h : length ≤ src.flatten.length)
    (ht : if src.flatten.isEmpty then src.length = t else trailingEmpty src = t) :
    ∃ src' offset', getRangeRest length src = some (src.flatten.take length, src', offset') ∧
      cursorRest src' offset' = src.flatten.drop length ∧ CursorOk src' offset' ∧
      CursorTail t src' offset' := by
  induction src generalizing length with
  | nil =>
    have hz : length = 0 := by simpa using h
    subst hz
    exact ⟨[], 0, rfl, rfl, rfl, by simpa [CursorTail, cursorRest] using ht⟩
  | cons c src ih =>
    cases length with
    | zero =>
      refine ⟨c :: src, 0, rfl, rfl, .inl rfl, ?_⟩
      rw [CursorTail, cursorRest_zero]
      exact ht
    | succ n =>
      rw [getRangeRest]
      rw [List.flatten_cons, List.length_append] at h
      have hne : (c :: src).flatten ≠ [] := by
        intro he
        have hl := congrArg List.length he
        rw [List.flatten_cons, List.length_append] at hl
        simp only [List.length_nil] at hl
        omega
      rw [if_neg (by simpa using hne)] at ht
      by_cases hge : n + 1 ≥ c.length
      · obtain ⟨src', offset', hget, hrest, hok, htail⟩ :=
          @ih (n + 1 - c.length) (by omega) (trailingEmpty_next hne ht)
        refine ⟨src', offset', ?_, ?_, hok, htail⟩
        · rw [if_pos hge, hget, List.flatten_cons, List.take_append]
          simp only [Option.map_some]
          rw [List.take_of_length_le hge]
        · rw [hrest, List.flatten_cons, List.drop_append, List.drop_of_length_le hge,
            List.nil_append]
      · refine ⟨c :: src, n + 1, ?_, ?_, .inr (by omega), ?_⟩
        · rw [if_neg hge, List.flatten_cons, List.take_append_of_le_length (by omega)]
        · rw [cursorRest, List.flatten_cons, List.drop_append_of_le_length (by omega)]
        · have hr : (cursorRest (c :: src) (n + 1)).isEmpty = false := by
            rw [cursorRest, List.isEmpty_eq_false_iff]
            intro he
            have hl := congrArg List.length he
            rw [List.length_append, List.length_drop] at hl
            simp only [List.length_nil] at hl
            omega
          rw [CursorTail, hr, if_neg (by simp)]
          exact ht

theorem getRangeRest_none {length : Nat} {src : List (List α)} (h : src.flatten.length < length) :
    getRangeRest length src = none := by
  induction src generalizing length with
  | nil =>
    obtain ⟨n, rfl⟩ := Nat.exists_eq_add_one_of_ne_zero (Nat.ne_of_gt h)
    rfl
  | cons c src ih =>
    rw [List.flatten_cons, List.length_append] at h
    obtain ⟨n, rfl⟩ := Nat.exists_eq_add_one_of_ne_zero (show length ≠ 0 by omega)
    rw [getRangeRest, if_pos (by omega), ih (by omega)]
    rfl

theorem getRangeMany_spec {length t offset : Nat} {src : List (List α)}
    (hl : length ≤ (cursorRest src offset).length) (hpos : 0 < length)
    (hok : CursorOk src offset) (ht : trailingEmpty src = t) :
    ∃ src' offset', getRangeMany length src offset =
        some ((cursorRest src offset).take length, src', offset') ∧
      cursorRest src' offset' = (cursorRest src offset).drop length ∧ CursorOk src' offset' ∧
      CursorTail t src' offset' := by
  cases src with
  | nil => simp [cursorRest] at hl; omega
  | cons c src =>
    have hoff : offset ≤ c.length := by
      rcases hok with h | h <;> omega
    rw [cursorRest, List.length_append, List.length_drop] at hl
    rw [getRangeMany]
    by_cases hin : offset + length < c.length
    · refine ⟨c :: src, offset + length, ?_, ?_, .inr hin, ?_⟩
      · rw [if_pos hin, cursorRest, List.take_append_of_le_length (by rw [List.length_drop]; omega),
          slice]
      · rw [cursorRest, cursorRest, List.drop_append_of_le_length (by rw [List.length_drop]; omega),
          List.drop_drop]
      · have hr : (cursorRest (c :: src) (offset + length)).isEmpty = false := by
          rw [cursorRest, List.isEmpty_eq_false_iff]
          intro he
          have hz := congrArg List.length he
          rw [List.length_append, List.length_drop] at hz
          simp only [List.length_nil] at hz
          omega
        rw [CursorTail, hr, if_neg (by simp)]
        exact ht
    · have hne : (c :: src).flatten ≠ [] := by
        intro he
        have hz := congrArg List.length he
        rw [List.flatten_cons, List.length_append] at hz
        simp only [List.length_nil] at hz
        omega
      have hdrop : (c.drop offset).length ≤ length := by
        rw [List.length_drop]
        omega
      obtain ⟨src', offset', hget, hrest, hok', htail⟩ :=
        @getRangeRest_spec α (length - (c.length - offset)) t src (by omega)
          (trailingEmpty_next hne ht)
      refine ⟨src', offset', ?_, ?_, hok', htail⟩
      · rw [if_neg hin, hget, cursorRest, List.take_append, List.take_of_length_le hdrop,
          List.length_drop]
        rfl
      · rw [hrest, cursorRest, List.drop_append, List.drop_of_length_le hdrop, List.length_drop,
          List.nil_append]

theorem getRangeMany_none {length offset : Nat} {src : List (List α)}
    (hl : (cursorRest src offset).length < length) : getRangeMany length src offset = none := by
  cases src with
  | nil => rfl
  | cons c src =>
    rw [cursorRest, List.length_append, List.length_drop] at hl
    rw [getRangeMany, if_neg (by omega), getRangeRest_none (by omega)]
    rfl

theorem getRange_spec {length : Nat} {src src' : List (List α)} {bs : List α}
    (h : getRange length src = some (bs, src')) :
    bs = src.flatten.take length ∧ src'.flatten = src.flatten.drop length ∧
      length ≤ src.flatten.length := by
  cases src with
  | nil => cases h
  | cons c src =>
    rw [getRange.eq_def] at h
    simp only at h
    rw [List.flatten_cons, List.length_append, List.take_append, List.drop_append]
    split at h
    next hlt =>
      cases h
      have hz : length - c.length = 0 := by omega
      rw [hz, List.take_zero, List.append_nil, List.drop_zero, List.flatten_cons]
      exact ⟨rfl, rfl, by omega⟩
    next hge =>
      rw [List.take_of_length_le (by omega), List.drop_of_length_le (by omega), List.nil_append]
      split at h
      next hz =>
        cases h
        rw [hz, List.take_zero, List.append_nil, List.drop_zero]
        exact ⟨rfl, rfl, by omega⟩
      next hz =>
        cases src with
        | nil => cases h
        | cons d more =>
          simp only at h
          split at h
          next => cases h
          next hle =>
            cases h
            rw [List.flatten_cons, List.flatten_cons, List.length_append,
              List.take_append_of_le_length (by omega), List.drop_append_of_le_length (by omega)]
            exact ⟨rfl, rfl, by omega⟩

theorem skipRange_spec {length : Nat} {src src' : List (List α)}
    (h : skipRange length src = some src') :
    src'.flatten = src.flatten.drop length ∧ length ≤ src.flatten.length := by
  obtain ⟨⟨bs, rest⟩, hget, rfl⟩ := Option.map_eq_some_iff.mp h
  exact (getRange_spec hget).2

theorem getRangeChunks_spec {length : Nat} {src src' dest : List (List α)}
    (h : getRangeChunks length src = some (dest, src')) :
    dest.flatten = src.flatten.take length ∧ src'.flatten = src.flatten.drop length ∧
      length ≤ src.flatten.length := by
  cases src with
  | nil => cases h
  | cons c src =>
    rw [getRangeChunks.eq_def] at h
    simp only at h
    rw [List.flatten_cons, List.length_append, List.take_append, List.drop_append]
    split at h
    next hlt =>
      cases h
      have hz : length - c.length = 0 := by omega
      rw [hz, List.take_zero, List.append_nil, List.drop_zero, List.flatten_cons]
      exact ⟨by simp, rfl, by omega⟩
    next hge =>
      rw [List.take_of_length_le (by omega), List.drop_of_length_le (by omega), List.nil_append]
      split at h
      next hz =>
        cases h
        rw [hz, List.take_zero, List.drop_zero]
        exact ⟨by simp, rfl, by omega⟩
      next hz =>
        cases src with
        | nil => cases h
        | cons d more =>
          simp only at h
          rw [List.flatten_cons, List.length_append]
          split at h
          next => cases h
          next hle =>
            split at h
            next heq =>
              cases h
              rw [heq, List.take_left, List.drop_left]
              exact ⟨by simp, rfl, by omega⟩
            next hne =>
              cases h
              rw [List.take_append_of_le_length (by omega),
                List.drop_append_of_le_length (by omega)]
              exact ⟨by simp, rfl, by omega⟩

end Cursor

end Ucesb
