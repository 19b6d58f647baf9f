import Ucesb.ChunkCursor
import Mathlib.Tactic.Common

namespace Ucesb

section Fresh

variable {α : Type}

def Fresh (src : List (List α)) (offset : Nat) : Prop :=
  ∀ c, src.head? = some c → offset < c.length

/-- No chunk of length zero follows on the bytes that are read, up to the `n`th one. -/
def NoGap (src : List (List α)) (n : Nat) : Prop :=
  ∀ before after, src = before ++ [] :: after → before ≠ [] → n ≠ before.flatten.length

theorem fresh_nil (offset : Nat) : Fresh ([] : List (List α)) offset := nofun

theorem fresh_cons {c : List α} {src : List (List α)} {offset : Nat} :
    Fresh (c :: src) offset ↔ offset < c.length := by
  constructor
  · exact fun h => h c rfl
  · rintro h c' hc
    cases hc
    exact h

theorem fresh_end {src : List (List α)} {offset : Nat} (h : Fresh src offset) :
    src = [] ↔ cursorRest src offset = [] := by
  cases src with
  | nil => exact iff_of_true rfl rfl
  | cons c src =>
    have hlt := fresh_cons.mp h
    refine iff_of_false (by simp) ?_
    rw [cursorRest, List.append_eq_nil_iff, List.drop_eq_nil_iff]
    omega

theorem noGap_one (c : List α) (n : Nat) : NoGap [c] n := by
  intro before after h hne
  have hlen := congrArg List.length h
  simp only [List.length_append, List.length_cons, List.length_nil] at hlen
  have hpos := List.length_pos_iff.mpr hne
  omega

theorem noGap_two {c d : List α} {n : Nat} : NoGap [c, d] n ↔ (d = [] → n ≠ c.length) := by
  constructor
  · rintro h rfl
    have hn := h [c] [] rfl (by simp)
    simpa using hn
  · intro h before after heq hne
    have hlen := congrArg List.length heq
    simp only [List.length_append, List.length_cons, List.length_nil] at hlen
    have hpos := List.length_pos_iff.mpr hne
    obtain ⟨x, rfl⟩ := List.length_eq_one_iff.mp (show before.length = 1 by omega)
    rw [List.singleton_append] at heq
    cases heq
    simpa using h rfl

theorem noGap_cons {c : List α} {src : List (List α)} {n : Nat} :
    NoGap (c :: src) n ↔
      ∀ before after, src = before ++ [] :: after → n ≠ c.length + before.flatten.length := by
  constructor
  · intro h before after heq
    have hn := h (c :: before) after (by rw [heq, List.cons_append]) (by simp)
    rwa [List.flatten_cons, List.length_append] at hn
  · intro h before after heq hne
    cases before with
    | nil => exact absurd rfl hne
    | cons b before =>
      cases heq
      rw [List.flatten_cons, List.length_append]
      exact h before after rfl

theorem getRangeRest_fresh {length offset' : Nat} {src src' : List (List α)} {out : List α}
    (h : getRangeRest length src = some (out, src', offset')) :
    Fresh src' offset' ↔
      ∀ before after, src = before ++ [] :: after → length ≠ before.flatten.length := by
  induction src generalizing length out with
  | nil =>
    cases length with
    | zero =>
      cases h
      refine iff_of_true (fresh_nil 0) ?_
      intro before after heq
      simp at heq
    | succ n => cases h
  | cons c src ih =>
    cases length with
    | zero =>
      cases h
      rw [fresh_cons]
      constructor
      · intro hpos before after heq
        cases before with
        | nil =>
          cases heq
          cases hpos
        | cons b before =>
          cases heq
          rw [List.flatten_cons, List.length_append]
          omega
      · intro hno
        by_contra hz
        have hc : c = [] := List.length_eq_zero_iff.mp (by omega)
        exact hno [] src (by rw [hc]; rfl) rfl
    | succ n =>
      rw [getRangeRest] at h
      by_cases hge : n + 1 ≥ c.length
      · rw [if_pos hge] at h
        obtain ⟨⟨rest, src₁, offset₁⟩, hrest, heq⟩ := Option.map_eq_some_iff.mp h
        cases heq
        rw [ih hrest]
        constructor
        · intro hno before after heq
          cases before with
          | nil => rintro ⟨⟩
          | cons b before =>
            cases heq
            have hn := hno before after rfl
            rw [List.flatten_cons, List.length_append]
            omega
        · intro hno before after heq
          have hn := hno (c :: before) after (by rw [heq, List.cons_append])
          rw [List.flatten_cons, List.length_append] at hn
          omega
      · rw [if_neg hge] at h
        cases h
        rw [fresh_cons]
        refine iff_of_true (by omega) ?_
        intro before after heq
        cases before with
        | nil => rintro ⟨⟩
        | cons b before =>
          cases heq
          rw [List.flatten_cons, List.length_append]
          omega

theorem getRangeRest_some {length : Nat} {src : List (List α)} (h : length ≤ src.flatten.length) :
    ∃ src' offset', getRangeRest length src = some (src.flatten.take length, src', offset') ∧
      cursorRest src' offset' = src.flatten.drop length := by
  have htail : ∃ t, if src.flatten.isEmpty then src.length = t else trailingEmpty src = t := by
    split
    · exact ⟨_, rfl⟩
    · exact ⟨_, rfl⟩
  obtain ⟨t, ht⟩ := htail
  obtain ⟨src', offset', hget, hrest, -⟩ := getRangeRest_spec h ht
  exact ⟨src', offset', hget, hrest⟩

theorem getRangeRest_iff {length : Nat} {src : List (List α)} :
    getRangeRest length src = none ↔ src.flatten.length < length := by
  constructor
  · intro h
    by_contra hge
    obtain ⟨src', offset', hget, -⟩ := getRangeRest_some (Nat.le_of_not_lt hge)
    rw [hget] at h
    cases h
  · exact getRangeRest_none

end Fresh

section Many

variable {α : Type} {length offset offset' : Nat} {src src' : List (List α)} {out : List α}

theorem getRangeMany_iff (hoff : ∀ c, src.head? = some c → offset ≤ c.length) :
    getRangeMany length src offset = none ↔
      src = [] ∨ (cursorRest src offset).length < length := by
  cases src with
  | nil => exact iff_of_true rfl (.inl rfl)
  | cons c src =>
    have hle := hoff c rfl
    rw [getRangeMany, cursorRest, List.length_append, List.length_drop]
    by_cases hin : offset + length < c.length
    · rw [if_pos hin]
      refine iff_of_false (by rintro ⟨⟩) ?_
      rintro (h | h)
      · cases h
      · omega
    · rw [if_neg hin, Option.map_eq_none_iff, getRangeRest_iff]
      constructor
      · intro h
        exact .inr (by omega)
      · rintro (h | h)
        · cases h
        · omega

theorem getRangeMany_some (hoff : ∀ c, src.head? = some c → offset ≤ c.length)
    (h : getRangeMany length src offset = some (out, src', offset')) :
    out = (cursorRest src offset).take length ∧
      cursorRest src' offset' = (cursorRest src offset).drop length ∧
      (Fresh src' offset' ↔ NoGap src (offset + length)) := by
  cases src with
  | nil => cases h
  | cons c src =>
    have hle := hoff c rfl
    rw [getRangeMany] at h
    by_cases hin : offset + length < c.length
    · rw [if_pos hin] at h
      cases h
      have hlen : length ≤ (c.drop offset).length := by
        rw [List.length_drop]
        omega
      refine ⟨?_, ?_, ?_⟩
      · rw [cursorRest, List.take_append_of_le_length hlen, slice]
      · rw [cursorRest, cursorRest, List.drop_append_of_le_length hlen, List.drop_drop]
      · rw [fresh_cons, noGap_cons]
        refine iff_of_true hin ?_
        intro before after _
        omega
    · rw [if_neg hin] at h
      obtain ⟨⟨rest, src₁, offset₁⟩, hrest, heq⟩ := Option.map_eq_some_iff.mp h
      cases heq
      have hle' : length - (c.length - offset) ≤ src.flatten.length := by
        by_contra hlt
        rw [getRangeRest_none (by omega)] at hrest
        cases hrest
      obtain ⟨src₂, offset₂, hget, hcur⟩ := getRangeRest_some hle'
      have hdrop : (c.drop offset).length ≤ length := by
        rw [List.length_drop]
        omega
      have hfresh := getRangeRest_fresh hrest
      rw [hget] at hrest
      cases hrest
      refine ⟨?_, ?_, ?_⟩
      · rw [cursorRest, List.take_append, List.take_of_length_le hdrop, List.length_drop]
      · rw [hcur, cursorRest, List.drop_append, List.drop_of_length_le hdrop, List.length_drop,
          List.nil_append]
      · rw [hfresh, noGap_cons]
        refine forall₃_congr fun before after _ => ?_
        omega

end Many

section Two

variable {α : Type} {length : Nat} {src rest : List (List α)} {out : List α}

def TakesBoth (src : List (List α)) (n : Nat) : Prop :=
  ∃ c d, src = [c, d] ∧ c.length < n ∧ n = c.length + d.length

theorem getRange_iff (h2 : src.length ≤ 2) :
    getRange length src = none ↔ src = [] ∨ src.flatten.length < length := by
  match src, h2 with
  | [], _ => exact iff_of_true rfl (.inl rfl)
  | [c], _ =>
    simp only [getRange, List.flatten_cons, List.flatten_nil, List.append_nil]
    by_cases hlt : length < c.length
    · simp [hlt]
      omega
    · by_cases hz : length - c.length = 0
      · simp [hlt, hz]
        omega
      · simp [hlt, hz]
        omega
  | [c, d], _ =>
    simp only [getRange, List.flatten_cons, List.flatten_nil, List.append_nil, List.length_append]
    by_cases hlt : length < c.length
    · simp [hlt]
      omega
    · by_cases hz : length - c.length = 0
      · simp [hlt, hz]
        omega
      · by_cases hd : d.length < length - c.length
        · simp [hlt, hz, hd]
          omega
        · simp [hlt, hz, hd]
          omega

theorem getRange_fresh (h2 : src.length ≤ 2) (h : getRange length src = some (out, rest)) :
    Fresh rest 0 ↔ NoGap src length ∧ ¬ TakesBoth src length := by
  match src, h2 with
  | [], _ => cases h
  | [c], _ =>
    have hboth : ¬ TakesBoth [c] length := by
      rintro ⟨c', d', heq, -⟩
      cases heq
    rw [getRange] at h
    by_cases hlt : length < c.length
    · rw [if_pos hlt] at h
      cases h
      refine iff_of_true (fresh_cons.mpr ?_) ⟨noGap_one c length, hboth⟩
      rw [List.length_drop]
      omega
    · by_cases hz : length - c.length = 0
      · rw [if_neg hlt, if_pos hz] at h
        cases h
        exact iff_of_true (fresh_nil 0) ⟨noGap_one _ length, hboth⟩
      · rw [if_neg hlt, if_neg hz] at h
        cases h
  | [c, d], _ =>
    rw [noGap_two]
    have hboth : TakesBoth [c, d] length ↔ c.length < length ∧ length = c.length + d.length := by
      constructor
      · rintro ⟨c', d', heq, hc⟩
        cases heq
        exact hc
      · exact fun hc => ⟨c, d, rfl, hc⟩
    rw [hboth]
    rw [getRange.eq_def] at h
    dsimp only at h
    by_cases hlt : length < c.length
    · rw [if_pos hlt] at h
      cases h
      rw [fresh_cons, List.length_drop]
      refine iff_of_true (by omega) ⟨fun _ => by omega, by omega⟩
    · by_cases hz : length - c.length = 0
      · rw [if_neg hlt, if_pos hz] at h
        cases h
        rw [fresh_cons, List.length_pos_iff]
        constructor
        · intro hd
          exact ⟨fun hnil => absurd hnil hd, by omega⟩
        · rintro ⟨hgap, -⟩ hnil
          exact hgap hnil (by omega)
      · rw [if_neg hlt, if_neg hz] at h
        by_cases hd : d.length < length - c.length
        · rw [if_pos hd] at h
          cases h
        · rw [if_neg hd] at h
          cases h
          rw [fresh_cons, List.length_drop]
          constructor
          · intro hpos
            exact ⟨fun _ => by omega, by omega⟩
          · rintro ⟨-, hne⟩
            omega

theorem getRangeChunks_iff (h2 : src.length ≤ 2) :
    getRangeChunks length src = none ↔ src = [] ∨ src.flatten.length < length := by
  rw [← getRange_iff h2]
  match src, h2 with
  | [], _ => exact iff_of_true rfl rfl
  | [c], _ =>
    simp only [getRange, getRangeChunks]
    split
    · simp
    split <;> simp
  | [c, d], _ =>
    simp only [getRange, getRangeChunks]
    split
    · simp
    split
    · simp
    split
    · simp
    split <;> simp

theorem getRangeChunks_fresh {dest : List (List α)} (h2 : src.length ≤ 2)
    (h : getRangeChunks length src = some (dest, rest)) : Fresh rest 0 ↔ NoGap src length := by
  match src, h2 with
  | [], _ => cases h
  | [c], _ =>
    rw [getRangeChunks] at h
    by_cases hlt : length < c.length
    · rw [if_pos hlt] at h
      cases h
      refine iff_of_true (fresh_cons.mpr ?_) (noGap_one c length)
      rw [List.length_drop]
      omega
    · by_cases hz : length - c.length = 0
      · rw [if_neg hlt, if_pos hz] at h
        cases h
        exact iff_of_true (fresh_nil 0) (noGap_one c length)
      · rw [if_neg hlt, if_neg hz] at h
        cases h
  | [c, d], _ =>
    rw [noGap_two]
    rw [getRangeChunks.eq_def] at h
    dsimp only at h
    by_cases hlt : length < c.length
    · rw [if_pos hlt] at h
      cases h
      rw [fresh_cons, List.length_drop]
      exact iff_of_true (by omega) fun _ => by omega
    · by_cases hz : length - c.length = 0
      · rw [if_neg hlt, if_pos hz] at h
        cases h
        rw [fresh_cons, List.length_pos_iff]
        constructor
        · exact fun hd hnil => absurd hnil hd
        · exact fun hgap hnil => hgap hnil (by omega)
      · rw [if_neg hlt, if_neg hz] at h
        by_cases hd : d.length < length - c.length
        · rw [if_pos hd] at h
          cases h
        · rw [if_neg hd] at h
          by_cases heq : length - c.length = d.length
          · rw [if_pos heq] at h
            cases h
            exact iff_of_true (fresh_nil 0) fun _ => by omega
          · rw [if_neg heq] at h
            cases h
            rw [fresh_cons, List.length_drop]
            exact iff_of_true (by omega) fun _ => by omega

end Two

section Calls

variable {α : Type}

inductive RangeCall where
  | get (length : UInt64)
  | getChunks (length : UInt64)
  | skip (length : UInt64)
  | getMany (length : UInt64)
deriving DecidableEq, Repr

def RangeCall.length : RangeCall → Nat
  | .get length => length.toNat
  | .getChunks length => length.toNat
  | .skip length => length.toNat
  | .getMany length => length.toNat

/-- The chunks from `_chunk_cur` on, and those of an event with the offset for `get_range_many`,
which leaves the chunks themselves as they are. -/
structure Cursors (α : Type) where
  cur : List (List α)
  src : List (List α)
  offset : Nat
deriving DecidableEq, Repr

/-- `false`, or `true` with the bytes that were copied or given as chunks; `overrun` when more is
copied than there is. -/
inductive Answer (α : Type) where
  | failed
  | given (bs : List α)
  | overrun
deriving DecidableEq, Repr

def answerCur (s : Cursors α) : Option (List α × List (List α)) → Answer α × Cursors α
  | none => (.failed, { s with cur := s.cur.tail })
  | some (bs, cur) => (.given bs, { s with cur })

/-- `offset+length < src->_length`, with a sum that wraps. -/
def Wraps (src : List (List α)) (offset length : Nat) : Prop :=
  2 ^ 64 ≤ offset + length ∧ (offset + length) % 2 ^ 64 < (src.headD []).length

instance (src : List (List α)) (offset length : Nat) : Decidable (Wraps src offset length) :=
  inferInstanceAs (Decidable (_ ∧ _))

def Cursors.call (s : Cursors α) : RangeCall → Answer α × Cursors α
  | .get length => answerCur s (getRange length.toNat s.cur)
  | .getChunks length =>
    answerCur s ((getRangeChunks length.toNat s.cur).map fun r => (r.1.flatten, r.2))
  | .skip length => answerCur s ((skipRange length.toNat s.cur).map fun cur => ([], cur))
  | .getMany length =>
    if Wraps s.src s.offset length.toNat then (.overrun, s)
    else
      match getRangeMany length.toNat s.src s.offset with
      | none => (.failed, { s with src := [], offset := if s.src = [] then s.offset else 0 })
      | some (bs, src, offset) => (.given bs, { s with src, offset })

def RangeCall.chunks (s : Cursors α) : RangeCall → List (List α)
  | .getMany _ => s.src
  | _ => s.cur

def RangeCall.offset (s : Cursors α) : RangeCall → Nat
  | .getMany _ => s.offset
  | _ => 0

def RangeCall.remaining (s : Cursors α) (c : RangeCall) : List α :=
  cursorRest (c.chunks s) (c.offset s)

def RangeCall.taken (s : Cursors α) (c : RangeCall) : List α :=
  match c with
  | .skip _ => []
  | _ => (c.remaining s).take c.length

/-- The bytes are taken, and the cursor is left at the end, or at a chunk with bytes. -/
structure TakesRange (bytes taken : List α) (n : Nat) (bs : List α) (src : List (List α))
    (offset : Nat) : Prop where
  enough : n ≤ bytes.length
  taken : bs = taken
  rest : cursorRest src offset = bytes.drop n
  atEnd : src = [] ↔ cursorRest src offset = []
  fresh : Fresh src offset

/-- The call is `take` and `drop` on what remains, and it fails exactly when too little remains. -/
def RightCall (s : Cursors α) (c : RangeCall) : Prop :=
  match s.call c with
  | (.failed, _) => (c.remaining s).length < c.length
  | (.given bs, s') =>
    TakesRange (c.remaining s) (c.taken s) c.length bs (c.chunks s') (c.offset s')
  | (.overrun, _) => False

def CallOk (s : Cursors α) (c : RangeCall) : Prop :=
  (c.chunks s = [] → c.length ≠ 0) ∧ NoGap (c.chunks s) (c.offset s + c.length) ∧
    match c with
    | .get length => ¬ TakesBoth s.cur length.toNat
    | .skip length => ¬ TakesBoth s.cur length.toNat
    | .getChunks _ => True
    | .getMany length => ¬ Wraps s.src s.offset length.toNat

structure Cursors.Ok (s : Cursors α) : Prop where
  two : s.cur.length ≤ 2
  inside : ∀ c, s.src.head? = some c → s.offset ≤ c.length

variable {s : Cursors α}

theorem noGap_short {src : List (List α)} {n : Nat} (h : src = [] ∨ src.flatten.length < n) :
    NoGap src n := by
  intro before after heq hne
  rcases h with rfl | h
  · simp at heq
  · rw [heq, List.flatten_append, List.length_append] at h
    omega

theorem not_takesBoth_short {src : List (List α)} {n : Nat}
    (h : src = [] ∨ src.flatten.length < n) : ¬ TakesBoth src n := by
  rintro ⟨c, d, rfl, -, hn⟩
  simp at h
  omega

theorem right_of_answer {n : Nat} {r : Option (List α × List (List α))} {P : Prop}
    {taken : List α} (hnone : r = none ↔ s.cur = [] ∨ s.cur.flatten.length < n)
    (hsome : ∀ bs cur, r = some (bs, cur) → bs = taken ∧
      cur.flatten = s.cur.flatten.drop n ∧ (Fresh cur 0 ↔ P))
    (hshort : s.cur = [] ∨ s.cur.flatten.length < n → P) :
    (match answerCur s r with
      | (.failed, _) => s.cur.flatten.length < n
      | (.given bs, s') => TakesRange s.cur.flatten taken n bs s'.cur 0
      | (.overrun, _) => False) ↔ (s.cur = [] → n ≠ 0) ∧ P := by
  cases r with
  | none =>
    have hcase := hnone.mp rfl
    have hP := hshort hcase
    change s.cur.flatten.length < n ↔ _
    constructor
    · intro hlt
      exact ⟨fun _ => by omega, hP⟩
    · rintro ⟨hzero, -⟩
      rcases hcase with hnil | hlt
      · have hn := hzero hnil
        rw [hnil, List.flatten_nil, List.length_nil]
        omega
      · exact hlt
  | some p =>
    obtain ⟨bs, cur⟩ := p
    obtain ⟨hbs, hrest, hfresh⟩ := hsome bs cur rfl
    have hnot : ¬ (s.cur = [] ∨ s.cur.flatten.length < n) := fun hcase => nomatch hnone.mpr hcase
    rw [not_or] at hnot
    change TakesRange s.cur.flatten taken n bs cur 0 ↔ _
    constructor
    · intro h
      exact ⟨fun hnil => absurd hnil hnot.1, hfresh.mp h.fresh⟩
    · rintro ⟨-, hP⟩
      have hf := hfresh.mpr hP
      refine ⟨by omega, hbs, ?_, fresh_end hf, hf⟩
      rw [cursorRest_zero, hrest]

theorem get_right (h : s.Ok) (length : UInt64) :
    RightCall s (.get length) ↔ CallOk s (.get length) := by
  have hmain := right_of_answer (n := length.toNat) (r := getRange length.toNat s.cur)
    (getRange_iff h.two) (fun bs cur hget => by
      obtain ⟨hbs, hrest, -⟩ := getRange_spec hget
      exact ⟨hbs, hrest, getRange_fresh h.two hget⟩)
    fun hcase => And.intro (noGap_short hcase) (not_takesBoth_short hcase)
  simp only [RightCall, CallOk, Cursors.call, RangeCall.remaining, RangeCall.taken, RangeCall.chunks,
    RangeCall.offset, RangeCall.length, cursorRest_zero, Nat.zero_add]
  exact hmain

theorem skip_right (h : s.Ok) (length : UInt64) :
    RightCall s (.skip length) ↔ CallOk s (.skip length) := by
  have hnone : (skipRange length.toNat s.cur).map (fun cur => (([] : List α), cur)) = none ↔
      s.cur = [] ∨ s.cur.flatten.length < length.toNat := by
    rw [Option.map_eq_none_iff, skipRange, Option.map_eq_none_iff]
    exact getRange_iff h.two
  have hmain := right_of_answer hnone (fun bs cur hget => by
      obtain ⟨cur', hskip, heq⟩ := Option.map_eq_some_iff.mp hget
      cases heq
      obtain ⟨⟨bs', rest⟩, hrange, heq⟩ := Option.map_eq_some_iff.mp hskip
      cases heq
      exact ⟨rfl, (getRange_spec hrange).2.1, getRange_fresh h.two hrange⟩)
    fun hcase => And.intro (noGap_short hcase) (not_takesBoth_short hcase)
  simp only [RightCall, CallOk, Cursors.call, RangeCall.remaining, RangeCall.taken, RangeCall.chunks,
    RangeCall.offset, RangeCall.length, cursorRest_zero, Nat.zero_add]
  exact hmain

theorem getChunks_right (h : s.Ok) (length : UInt64) :
    RightCall s (.getChunks length) ↔ CallOk s (.getChunks length) := by
  have hnone : (getRangeChunks length.toNat s.cur).map (fun r => (r.1.flatten, r.2)) = none ↔
      s.cur = [] ∨ s.cur.flatten.length < length.toNat := by
    rw [Option.map_eq_none_iff]
    exact getRangeChunks_iff h.two
  have hmain := right_of_answer hnone (fun bs cur hget => by
      obtain ⟨⟨dest, cur'⟩, hrange, heq⟩ := Option.map_eq_some_iff.mp hget
      cases heq
      obtain ⟨hdest, hrest, -⟩ := getRangeChunks_spec hrange
      exact ⟨hdest, hrest, getRangeChunks_fresh h.two hrange⟩)
    noGap_short
  simp only [RightCall, CallOk, Cursors.call, RangeCall.remaining, RangeCall.taken, RangeCall.chunks,
    RangeCall.offset, RangeCall.length, cursorRest_zero, Nat.zero_add, and_true]
  exact hmain

theorem getMany_right (h : s.Ok) (length : UInt64) :
    RightCall s (.getMany length) ↔ CallOk s (.getMany length) := by
  simp only [RightCall, CallOk, Cursors.call, RangeCall.remaining, RangeCall.taken, RangeCall.chunks,
    RangeCall.offset, RangeCall.length]
  by_cases hwrap : Wraps s.src s.offset length.toNat
  · rw [if_pos hwrap]
    exact iff_of_false id fun hok => hok.2.2 hwrap
  · rw [if_neg hwrap]
    cases hget : getRangeMany length.toNat s.src s.offset with
    | none =>
      have hcase := (getRangeMany_iff h.inside).mp hget
      have hgap : NoGap s.src (s.offset + length.toNat) := by
        refine noGap_short ?_
        cases hsrc : s.src with
        | nil => exact .inl rfl
        | cons c src =>
          have hle := h.inside c (by rw [hsrc]; rfl)
          rw [hsrc, cursorRest, List.length_append, List.length_drop] at hcase
          rw [List.flatten_cons, List.length_append]
          rcases hcase with hnil | hlt
          · cases hnil
          · exact .inr (by omega)
      dsimp only
      constructor
      · intro hlt
        exact ⟨fun _ => by omega, hgap, hwrap⟩
      · rintro ⟨hzero, -, -⟩
        rcases hcase with hnil | hlt
        · have hn := hzero hnil
          rw [hnil, cursorRest, List.length_nil]
          omega
        · exact hlt
    | some p =>
      obtain ⟨bs, src, offset⟩ := p
      obtain ⟨hbs, hrest, hfresh⟩ := getRangeMany_some h.inside hget
      have hnot : ¬ (s.src = [] ∨ (cursorRest s.src s.offset).length < length.toNat) := by
        intro hcase
        rw [(getRangeMany_iff h.inside).mpr hcase] at hget
        cases hget
      rw [not_or] at hnot
      dsimp only
      constructor
      · intro ht
        exact ⟨fun hnil => absurd hnil hnot.1, hfresh.mp ht.fresh, hwrap⟩
      · rintro ⟨-, hgap, -⟩
        have hf := hfresh.mpr hgap
        exact ⟨by omega, hbs, hrest, fresh_end hf, hf⟩

theorem call_right (h : s.Ok) (c : RangeCall) : RightCall s c ↔ CallOk s c := by
  cases c with
  | get length => exact get_right h length
  | getChunks length => exact getChunks_right h length
  | skip length => exact skip_right h length
  | getMany length => exact getMany_right h length

theorem getRange_length_le {n : Nat} {src rest : List (List α)} {bs : List α}
    (h : getRange n src = some (bs, rest)) : rest.length ≤ src.length := by
  cases src with
  | nil => cases h
  | cons c src =>
    rw [getRange.eq_def] at h
    dsimp only at h
    split at h
    · cases h
      exact Nat.le_refl _
    split at h
    · cases h
      exact Nat.le_succ _
    cases src with
    | nil => cases h
    | cons d more =>
      dsimp only at h
      split at h
      · cases h
      · cases h
        exact Nat.le_succ _

theorem getRangeChunks_length_le {n : Nat} {src rest dest : List (List α)}
    (h : getRangeChunks n src = some (dest, rest)) : rest.length ≤ src.length := by
  cases src with
  | nil => cases h
  | cons c src =>
    rw [getRangeChunks.eq_def] at h
    dsimp only at h
    split at h
    · cases h
      exact Nat.le_refl _
    split at h
    · cases h
      exact Nat.le_succ _
    cases src with
    | nil => cases h
    | cons d more =>
      dsimp only at h
      split at h
      · cases h
      split at h
      · cases h
        exact (Nat.le_succ _).trans (Nat.le_succ _)
      · cases h
        exact Nat.le_succ _

theorem answerCur_ok (h : s.Ok) {r : Option (List α × List (List α))}
    (hr : ∀ bs cur, r = some (bs, cur) → cur.length ≤ s.cur.length) : (answerCur s r).2.Ok := by
  have htwo := h.two
  cases r with
  | none =>
    refine ⟨?_, h.inside⟩
    change s.cur.tail.length ≤ 2
    rw [List.length_tail]
    omega
  | some p => exact ⟨(hr p.1 p.2 rfl).trans htwo, h.inside⟩

theorem call_ok (h : s.Ok) {c : RangeCall} (hright : RightCall s c) : (s.call c).2.Ok := by
  cases c with
  | get length => exact answerCur_ok h fun bs cur hget => getRange_length_le hget
  | getChunks length =>
    refine answerCur_ok h fun bs cur hget => ?_
    obtain ⟨⟨dest, cur'⟩, hrange, heq⟩ := Option.map_eq_some_iff.mp hget
    cases heq
    exact getRangeChunks_length_le hrange
  | skip length =>
    refine answerCur_ok h fun bs cur hget => ?_
    obtain ⟨cur', hskip, heq⟩ := Option.map_eq_some_iff.mp hget
    cases heq
    obtain ⟨⟨bs', rest⟩, hrange, heq⟩ := Option.map_eq_some_iff.mp hskip
    cases heq
    exact getRange_length_le hrange
  | getMany length =>
    rw [RightCall] at hright
    rw [Cursors.call] at hright ⊢
    by_cases hwrap : Wraps s.src s.offset length.toNat
    · rw [if_pos hwrap] at hright
      cases hright
    · rw [if_neg hwrap] at hright ⊢
      cases hget : getRangeMany length.toNat s.src s.offset with
      | none => exact ⟨h.two, nofun⟩
      | some p =>
        rw [hget] at hright
        exact ⟨h.two, fun c hc => Nat.le_of_lt (hright.fresh c hc)⟩

def AllRight (s : Cursors α) : List RangeCall → Prop
  | [] => True
  | c :: calls => RightCall s c ∧ AllRight (s.call c).2 calls

def AllOk (s : Cursors α) : List RangeCall → Prop
  | [] => True
  | c :: calls => CallOk s c ∧ AllOk (s.call c).2 calls

end Calls

/-- Any sequence of calls, on any chunks: all of them are right iff all of them meet the condition. -/
theorem calls_right {α : Type} (cur src : List (List α)) (h2 : cur.length ≤ 2)
    (calls : List RangeCall) : AllRight ⟨cur, src, 0⟩ calls ↔ AllOk ⟨cur, src, 0⟩ calls := by
  have hok : (⟨cur, src, 0⟩ : Cursors α).Ok := ⟨h2, fun c _ => Nat.zero_le _⟩
  generalize (⟨cur, src, 0⟩ : Cursors α) = s at hok
  induction calls generalizing s with
  | nil => exact Iff.rfl
  | cons c calls ih =>
    rw [AllRight, AllOk, call_right hok c]
    refine and_congr_right fun hc => ?_
    exact ih _ (call_ok hok ((call_right hok c).mpr hc))

theorem calls_right_demo :
    AllRight ⟨[[1, 2, 3], [4, 5, 6]], [[7], [8, 9], [10]], 0⟩
        [.skip 1, .getMany 2, .get 3, .getChunks 2, .getMany 2] ↔
      AllOk ⟨[[1, 2, 3], [4, 5, 6]], [[7], [8, 9], [10]], 0⟩
        [.skip 1, .getMany 2, .get 3, .getChunks 2, .getMany 2] :=
  calls_right [[1, 2, 3], [4, 5, 6]] [[7], [8, 9], [10]] (by decide) _

theorem used_up_stays :
    (⟨[[1, 2], [3]], [], 0⟩ : Cursors Nat).call (.get 3) = (.given [1, 2, 3], ⟨[[]], [], 0⟩) ∧
      ¬ AllRight (⟨[[1, 2], [3]], [], 0⟩ : Cursors Nat) [.get 3] := by
  refine ⟨rfl, ?_⟩
  rintro ⟨hright, -⟩
  have hend := hright.atEnd.mpr rfl
  cases hend

end Ucesb
