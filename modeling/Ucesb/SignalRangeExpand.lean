import Ucesb.SignalRoundTrip
import Ucesb.Checks
import Mathlib.Data.List.TakeWhile

namespace Ucesb

/-- `var_name`, `var_sub` and `var_index`. A missing index is -1. -/
inductive VarName
  | name (name : List Char)
  | sub (name : List Char) (index : Int) (child : VarName)
  | index (name : List Char) (index index2 : Int)

def VarName.Parsed : VarName → Prop
  | .name _ => True
  | .sub _ i child => (i = -1 ∨ 0 ≤ i ∧ i < 0x1000000) ∧ child.Parsed
  | .index _ i i2 => (0 ≤ i ∧ i < 0x1000000) ∧ (i2 = -1 ∨ 0 ≤ i2 ∧ i2 < 0x1000)

def diffAt (index : Nat) (i i' : Int) (diffIndex diffLength : Int) : Option (Int × Int) :=
  if i ≠ i' then
    if diffIndex ≠ -1 then none else some (index, i' - i)
  else some (diffIndex, diffLength)

/-- `difference` of two identifiers, from some index on. -/
def identDiff : Nat → Int → Int → VarName → VarName → Option (Int × Int)
  | index, diffIndex, diffLength, .sub first i child, .sub last i' child' =>
    if first ≠ last then none
    else (diffAt index i i' diffIndex diffLength).bind fun d =>
      identDiff (index + 1) d.1 d.2 child child'
  | index, diffIndex, diffLength, .index first i i2, .index last i' i2' =>
    if first ≠ last then none
    else (diffAt index i i' diffIndex diffLength).bind fun d =>
      diffAt (index + 1) i2 i2' d.1 d.2
  | _, diffIndex, diffLength, .name first, .name last =>
    if first ≠ last then none else some (diffIndex, diffLength)
  | _, _, _, _, _ => none

/-- `generate_indexed` for an identifier. -/
def VarName.generate (diffIndex diffOffset : Int) : Nat → VarName → VarName
  | place, .sub text i child =>
    .sub text (if diffIndex = place then i + diffOffset else i)
      (child.generate diffIndex diffOffset (place + 1))
  | place, .index text i i2 =>
    .index text (if diffIndex = place then i + diffOffset else i)
      (if diffIndex = (place + 1 : Nat) then i2 + diffOffset else i2)
  | _, .name text => .name text

def signalTagToggle2 : Nat := 0x0008

structure SignalSpec (Types : Type) where
  orderIndex : Int
  sticky : Int
  name : List Char
  ident : Option VarName × Option VarName
  types : Types
  tag : Nat

def signalSpec {Types : Type} (orderIndex sticky : Int) (name : List Char) (ident : VarName)
    (types : Types) (tag : Nat) : SignalSpec Types where
  orderIndex := orderIndex
  sticky := sticky
  name := name
  ident := if tag &&& signalTagToggle2 ≠ 0 then (none, some ident) else (some ident, none)
  types := types
  tag := tag

/-- `signal_spec_range`, with what it is made from. -/
structure SignalSpecRange (Types : Type) where
  orderIndex : Int
  sticky : Int
  name : List Char
  ident : VarName
  nameLast : List Char
  identLast : VarName
  types : Types
  tag : Nat
  parsed : ident.Parsed
  parsedLast : identLast.Parsed

inductive ExpandError
  | dissect (e : DissectError)
  | namesCannotRange
  | multipleToggle
  | noIdent
  | identsCannotRange
  | differentLengths
  | outside

section Code

variable {Types : Type}

def SignalSpecRange.spec (r : SignalSpecRange Types) : SignalSpec Types :=
  signalSpec r.orderIndex r.sticky r.name r.ident r.types r.tag

def toggleIdent : Option VarName × Option VarName → Except ExpandError VarName
  | (some ident, none) | (none, some ident) => .ok ident
  | (some _, some _) => .error .multipleToggle
  | (none, none) => .error .noIdent

def towards (d : Int) (i : Nat) : Int := if 0 ≤ d then i else -i

/-- One signal of the range. The text is copied out of the memory that it is printed to. -/
def expandOne (fresh : Nat → Char) (r : SignalSpecRange Types) (idFirst : SignalId)
    (ident : VarName) (nameDiff identDiff : Int × Int) (i : Nat) :
    Except ExpandError (SignalSpec Types) :=
  match generateIndexed fresh idFirst nameDiff.1 (towards nameDiff.2 i) with
  | none => .error .outside
  | some mem => .ok (signalSpec r.orderIndex r.sticky (cString mem)
      (ident.generate identDiff.1 (towards identDiff.2 i) 0) r.types r.tag)

/-- `expand_insert_signal_to_all`, with the signals that are inserted. -/
def expandRange (fresh : Nat → Char) (r : SignalSpecRange Types) :
    Except ExpandError (List (SignalSpec Types)) := do
  let idFirst ← (dissectName r.name).mapError .dissect
  let idLast ← (dissectName r.nameLast).mapError .dissect
  let nameDiff ← (difference idFirst idLast).elim (.error .namesCannotRange) .ok
  let ident ← toggleIdent r.spec.ident
  let identDiff ← (identDiff 0 (-1) 0 ident r.identLast).elim (.error .identsCannotRange) .ok
  if nameDiff.2.natAbs ≠ identDiff.2.natAbs then .error .differentLengths
  else (List.range (nameDiff.2.natAbs + 1)).mapM (expandOne fresh r idFirst ident nameDiff identDiff)

end Code

def SigPart.move (d : Int) : SigPart → SigPart
  | .name text => .name text
  | .index v extra => .index (v + d) extra

def moveName (id : SignalId) (k : Nat) (d : Int) : SignalId := id.modify k (SigPart.move d)

/-- The index at a place of an identifier; a name with two indices has two places. -/
def VarName.indexAt : VarName → Nat → Option Int
  | .sub _ i _, 0 => some i
  | .sub _ _ child, k + 1 => child.indexAt k
  | .index _ i _, 0 => some i
  | .index _ _ i2, 1 => some i2
  | .index .., _ + 2 => none
  | .name _, _ => none

def VarName.move (d : Int) : VarName → Nat → VarName
  | .sub text i child, 0 => .sub text (i + d) child
  | .sub text i child, k + 1 => .sub text i (child.move d k)
  | .index text i i2, 0 => .index text (i + d) i2
  | .index text i i2, 1 => .index text i (i2 + d)
  | .index text i i2, _ + 2 => .index text i i2
  | .name text, _ => .name text

def VarName.Present (v : VarName) (k : Nat) : Prop := ∃ i, v.indexAt k = some i ∧ i ≠ -1

structure RangeEnds {Types : Type} (r : SignalSpecRange Types) (first last : SignalId) (kName : Nat)
    (dName : Int) (kIdent : Nat) (dIdent : Int) : Prop where
  readFirst : dissectName r.name = .ok first
  readLast : dissectName r.nameLast = .ok last
  name : last = moveName first kName dName
  nameIndex : dName ≠ 0 → ∃ i extra, first[kName]? = some (.index i extra)
  ident : r.identLast = r.ident.move dIdent kIdent
  identIndex : dIdent ≠ 0 → ∃ i, r.ident.indexAt kIdent = some i
  length : dName.natAbs = dIdent.natAbs

structure RangeEnumerated {Types : Type} (r : SignalSpecRange Types) (first last : SignalId) (kName : Nat)
    (dName : Int) (kIdent : Nat) (dIdent : Int) (specs : List (SignalSpec Types)) : Prop where
  specs : specs = (List.range (dName.natAbs + 1)).map fun i =>
    signalSpec r.orderIndex r.sticky (nameOf (moveName first kName (towards dName i)))
      (r.ident.move (towards dIdent i) kIdent) r.types r.tag
  name : ∀ i ≤ dName.natAbs, dissectName (nameOf (moveName first kName (towards dName i))) =
    .ok (moveName first kName (towards dName i))
  lastName : moveName first kName (towards dName dName.natAbs) = last
  lastIdent : r.ident.move (towards dIdent dName.natAbs) kIdent = r.identLast

/-- What is accepted is a range, in a place that has an index at both ends, and is enumerated. -/
def ExpandsRight {Types : Type} (fresh : Nat → Char) (r : SignalSpecRange Types) : Prop :=
  ∀ specs, expandRange fresh r = .ok specs → ∃ first last kName dName kIdent dIdent,
    RangeEnds r first last kName dName kIdent dIdent ∧
      (dIdent ≠ 0 → r.ident.Present kIdent ∧ r.identLast.Present kIdent) ∧
      RangeEnumerated r first last kName dName kIdent dIdent specs

def IndexMissing {Types : Type} (r : SignalSpecRange Types) : Prop :=
  ∃ first last kName dName kIdent dIdent, RangeEnds r first last kName dName kIdent dIdent ∧
    dIdent ≠ 0 ∧ (r.ident.indexAt kIdent = some (-1) ∨ r.identLast.indexAt kIdent = some (-1))

section Idents

theorem VarName.move_zero (v : VarName) (k : Nat) : v.move 0 k = v := by
  induction v generalizing k with
  | name text => rfl
  | sub text i child ih =>
    cases k with
    | zero => rw [VarName.move, Int.add_zero]
    | succ k => rw [VarName.move, ih]
  | index text i i2 =>
    match k with
    | 0 => rw [VarName.move, Int.add_zero]
    | 1 => rw [VarName.move, Int.add_zero]
    | _ + 2 => rfl

theorem diffAt_eq_some {place : Nat} {i i' diffIndex diffLength k d : Int}
    (h : diffAt place i i' diffIndex diffLength = some (k, d)) :
    (i' = i ∧ k = diffIndex ∧ d = diffLength) ∨
      (i' ≠ i ∧ diffIndex = -1 ∧ k = place ∧ d = i' - i) := by
  unfold diffAt at h
  split at h
  · next hne =>
    split at h
    · cases h
    · next hnone =>
      cases h
      exact .inr ⟨Ne.symm hne, not_not.mp hnone, rfl, rfl⟩
  · next hsame =>
    cases h
    exact .inl ⟨(not_not.mp hsame).symm, rfl, rfl⟩

theorem diffAt_same (place : Nat) (i diffIndex diffLength : Int) :
    diffAt place i i diffIndex diffLength = some (diffIndex, diffLength) :=
  if_neg fun hne => hne rfl

theorem diffAt_first {place : Nat} {i d : Int} (hd : d ≠ 0) (diffLength : Int) :
    diffAt place i (i + d) (-1) diffLength = some ((place : Int), d) := by
  unfold diffAt
  rw [if_pos (by omega), if_neg (by omega)]
  congr 2
  omega

theorem identDiff_eq_some {place : Nat} {diffIndex diffLength k d : Int} {v w : VarName}
    (h : identDiff place diffIndex diffLength v w = some (k, d)) (hplace : diffIndex < place) :
    (w = v ∧ k = diffIndex ∧ d = diffLength) ∨
      (diffIndex = -1 ∧ d ≠ 0 ∧ ∃ n : Nat, k = place + n ∧ w = v.move d n ∧
        ∃ i, v.indexAt n = some i) := by
  induction v generalizing place diffIndex diffLength w with
  | name first =>
    cases w with
    | sub last i' child' => cases h
    | index last i' i2' => cases h
    | name last =>
      rw [identDiff] at h
      split at h
      · cases h
      · next hsame =>
        cases h
        exact .inl ⟨by rw [not_not.mp hsame], rfl, rfl⟩
  | sub first i child ih =>
    cases w with
    | name last => cases h
    | index last i' i2' => cases h
    | sub last i' child' =>
      rw [identDiff] at h
      split at h
      · cases h
      · next hsame =>
        obtain rfl := not_not.mp hsame
        obtain ⟨⟨k1, d1⟩, hat, hrest⟩ := Option.bind_eq_some_iff.mp h
        rcases diffAt_eq_some hat with ⟨rfl, rfl, rfl⟩ | ⟨hne, hnone, rfl, rfl⟩
        · rcases ih hrest (by omega) with ⟨rfl, rfl, rfl⟩ | ⟨hnone, hd, n, rfl, rfl, hn⟩
          · exact .inl ⟨rfl, rfl, rfl⟩
          · exact .inr ⟨hnone, hd, n + 1, by omega, rfl, hn⟩
        · rcases ih hrest (by omega) with ⟨rfl, rfl, rfl⟩ | ⟨hnone', -⟩
          · refine .inr ⟨hnone, by omega, 0, by omega, ?_, i, rfl⟩
            rw [VarName.move]
            congr 1
            omega
          · omega
  | index first i i2 =>
    cases w with
    | name last => cases h
    | sub last i' child' => cases h
    | index last i' i2' =>
      rw [identDiff] at h
      split at h
      · cases h
      · next hsame =>
        obtain rfl := not_not.mp hsame
        obtain ⟨⟨k1, d1⟩, hat, hrest⟩ := Option.bind_eq_some_iff.mp h
        rcases diffAt_eq_some hat with ⟨rfl, rfl, rfl⟩ | ⟨hne, hnone, rfl, rfl⟩
        · rcases diffAt_eq_some hrest with ⟨rfl, rfl, rfl⟩ | ⟨hne, hnone, rfl, rfl⟩
          · exact .inl ⟨rfl, rfl, rfl⟩
          · refine .inr ⟨hnone, by omega, 1, by omega, ?_, i2, rfl⟩
            rw [VarName.move]
            congr 1
            omega
        · rcases diffAt_eq_some hrest with ⟨rfl, rfl, rfl⟩ | ⟨-, hnone', -⟩
          · refine .inr ⟨hnone, by omega, 0, by omega, ?_, i, rfl⟩
            rw [VarName.move]
            congr 1
            omega
          · omega

theorem identDiff_same (place : Nat) (diffIndex diffLength : Int) (v : VarName) :
    identDiff place diffIndex diffLength v v = some (diffIndex, diffLength) := by
  induction v generalizing place with
  | name text => exact if_neg fun hne => hne rfl
  | sub text i child ih =>
    rw [identDiff, if_neg (fun hne => hne rfl), diffAt_same, Option.bind_some, ih]
  | index text i i2 =>
    rw [identDiff, if_neg (fun hne => hne rfl), diffAt_same, Option.bind_some, diffAt_same]

theorem identDiff_move {v : VarName} {n : Nat} {i d : Int} (h : v.indexAt n = some i) (hd : d ≠ 0)
    (place : Nat) (diffLength : Int) :
    identDiff place (-1) diffLength v (v.move d n) = some ((place : Int) + n, d) := by
  induction v generalizing place n with
  | name text => cases h
  | sub text i' child ih =>
    cases n with
    | zero =>
      rw [VarName.move, identDiff, if_neg (fun hne => hne rfl), diffAt_first hd, Option.bind_some,
        identDiff_same]
      simp
    | succ n =>
      rw [VarName.move, identDiff, if_neg (fun hne => hne rfl), diffAt_same, Option.bind_some,
        ih h]
      simp
      omega
  | index text i' i2 =>
    match n with
    | 0 =>
      rw [VarName.move, identDiff, if_neg (fun hne => hne rfl), diffAt_first hd, Option.bind_some,
        diffAt_same]
      simp
    | 1 =>
      rw [VarName.move, identDiff, if_neg (fun hne => hne rfl), diffAt_same, Option.bind_some,
        diffAt_first hd]
      simp
    | _ + 2 => cases h

theorem generate_before {diffIndex : Int} {place : Nat} (h : diffIndex < place) (d : Int)
    (v : VarName) : v.generate diffIndex d place = v := by
  induction v generalizing place with
  | name text => rfl
  | sub text i child ih => rw [VarName.generate, if_neg (by omega), ih (by omega)]
  | index text i i2 => rw [VarName.generate, if_neg (by omega), if_neg (by omega)]

theorem generate_move (place n : Nat) (d : Int) (v : VarName) :
    v.generate ((place : Int) + n) d place = v.move d n := by
  induction v generalizing place n with
  | name text => rfl
  | sub text i child ih =>
    cases n with
    | zero => rw [VarName.generate, if_pos (by omega), generate_before (by omega), VarName.move]
    | succ n =>
      have hplace : (place : Int) + (n + 1 : Nat) = (place + 1 : Nat) + n := by omega
      rw [VarName.generate, if_neg (by omega), hplace, ih, VarName.move]
  | index text i i2 =>
    match n with
    | 0 => rw [VarName.generate, if_pos (by omega), if_neg (by omega), VarName.move]
    | 1 => rw [VarName.generate, if_neg (by omega), if_pos (by omega), VarName.move]
    | n + 2 => rw [VarName.generate, if_neg (by omega), if_neg (by omega), VarName.move]

end Idents

section Names

theorem moveName_zero (id : SignalId) (k : Nat) : moveName id k 0 = id := by
  have hmove : SigPart.move 0 = fun part => part := by
    funext part
    cases part with
    | name text => rfl
    | index v extra => rw [SigPart.move, Int.add_zero]
  rw [moveName, hmove]
  exact List.modify_id ..

theorem diffParts_eq_some {i : Nat} {diffIndex diffLength k d : Int} {parts rhs : SignalId}
    (h : diffParts i diffIndex diffLength parts rhs = some (k, d)) (hplace : diffIndex < i) :
    (rhs = parts ∧ k = diffIndex ∧ d = diffLength) ∨
      (diffIndex = -1 ∧ ∃ (n : Nat) (v move : Int) (extra : IndexExtra), k = i + n ∧ parts[n]? = some (.index v extra) ∧
        move ≠ 0 ∧ d = toInt32 move ∧ rhs = moveName parts n move) := by
  induction parts generalizing i diffIndex diffLength rhs with
  | nil =>
    cases rhs with
    | nil =>
      cases h
      exact .inl ⟨rfl, rfl, rfl⟩
    | cons part rhs => cases h
  | cons part parts ih =>
    cases part with
    | name text =>
      cases rhs with
      | nil => cases h
      | cons part' rhs =>
        cases part' with
        | index v' extra' => cases h
        | name text' =>
          rw [diffParts] at h
          split at h
          · cases h
          · next hsame =>
            obtain rfl := not_not.mp hsame
            rcases ih h (by omega) with ⟨rfl, rfl, rfl⟩ | ⟨hnone, n, v, move, extra, rfl, hn, hmove, rfl, rfl⟩
            · exact .inl ⟨rfl, rfl, rfl⟩
            · exact .inr ⟨hnone, n + 1, v, move, extra, by omega, hn, hmove, rfl, rfl⟩
    | index v extra =>
      cases rhs with
      | nil => cases h
      | cons part' rhs =>
        cases part' with
        | name text' => cases h
        | index v' extra' =>
          rw [diffParts] at h
          split at h
          · cases h
          · next hextra =>
            obtain rfl := not_not.mp hextra
            split at h
            · next hne =>
              split at h
              · cases h
              · next hnone =>
                rcases ih h (by omega) with ⟨rfl, rfl, rfl⟩ | ⟨hnone', -⟩
                · refine .inr ⟨not_not.mp hnone, 0, v, v' - v, extra, by omega, rfl, by omega, rfl, ?_⟩
                  rw [moveName, List.modify_zero_cons, SigPart.move]
                  congr 2
                  omega
                · omega
            · next hsame =>
              obtain rfl := not_not.mp hsame
              rcases ih h (by omega) with
                ⟨rfl, rfl, rfl⟩ | ⟨hnone, n, v1, move, extra1, rfl, hn, hmove, rfl, rfl⟩
              · exact .inl ⟨rfl, rfl, rfl⟩
              · exact .inr ⟨hnone, n + 1, v1, move, extra1, by omega, hn, hmove, rfl, rfl⟩

theorem diffParts_same (i : Nat) (diffIndex diffLength : Int) (parts : SignalId) :
    diffParts i diffIndex diffLength parts parts = some (diffIndex, diffLength) := by
  induction parts generalizing i with
  | nil => rfl
  | cons part parts ih =>
    cases part with
    | name text => rw [diffParts, if_neg (fun hne => hne rfl), ih]
    | index v extra =>
      rw [diffParts, if_neg (fun hne => hne rfl), if_neg (fun hne => hne rfl), ih]

theorem diffParts_move {parts : SignalId} {n : Nat} {v d : Int} {extra : IndexExtra}
    (h : parts[n]? = some (.index v extra)) (hd : d ≠ 0) (i : Nat) (diffLength : Int) :
    diffParts i (-1) diffLength parts (moveName parts n d) = some ((i : Int) + n, toInt32 d) := by
  induction parts generalizing i n with
  | nil => cases h
  | cons part parts ih =>
    cases n with
    | zero =>
      obtain rfl := Option.some.inj h
      rw [moveName, List.modify_zero_cons, SigPart.move, diffParts, if_neg (fun hne => hne rfl),
        if_pos (by omega), if_neg (fun hne => hne rfl), diffParts_same]
      congr 3
      omega
    | succ n =>
      have hrest : parts[n]? = some (.index v extra) := h
      have hcons : moveName (part :: parts) (n + 1) d = part :: moveName parts n d := rfl
      rw [hcons]
      cases part with
      | name text =>
        rw [diffParts, if_neg (fun hne => hne rfl), ih hrest]
        congr 2
        omega
      | index v1 extra1 =>
        rw [diffParts, if_neg (fun hne => hne rfl), if_neg (fun hne => hne rfl), ih hrest]
        congr 2
        omega

/-- An id as it is read: it can be printed and read again, with nothing extra. -/
structure DissectedId (id : SignalId) : Prop where
  readable : ReadableId id
  plain : ∀ part ∈ id, part.plain = part

theorem dissectParts_parts {id id' : SignalId} {text : List Char}
    (h : dissectParts id text = .ok id')
    (hid : ∀ part ∈ id, part.Readable ∧ part.plain = part) :
    (∀ part ∈ id', part.Readable ∧ part.plain = part) ∧ id <+: id' := by
  induction id, text using dissectParts.induct generalizing id' with
  | case1 id =>
    rw [dissectParts] at h
    cases h
    exact ⟨hid, List.prefix_refl _⟩
  | case2 id start ih =>
    rw [dissectParts, if_pos rfl] at h
    exact ih h hid
  | case3 id c start hunder hletter ih =>
    rw [dissectParts, if_neg hunder, if_pos hletter] at h
    have hpart : ∀ part ∈ id ++ [SigPart.name (c :: start.takeWhile Char.isAlpha)],
        part.Readable ∧ part.plain = part := by
      intro part hmem
      rcases List.mem_append.mp hmem with hmem | hmem
      · exact hid part hmem
      · obtain rfl := List.mem_singleton.mp hmem
        refine ⟨⟨List.cons_ne_nil _ _, fun c' hc' => ?_⟩, rfl⟩
        rcases List.mem_cons.mp hc' with rfl | hc'
        · exact hletter
        · exact List.mem_takeWhile_imp hc'
    obtain ⟨hall, hprefix⟩ := ih h hpart
    exact ⟨hall, (List.prefix_append _ _).trans hprefix⟩
  | case4 id c start hunder hletter hdigit index =>
    rename_i hlow
    rw [dissectParts, if_neg hunder, if_neg hletter, if_pos hdigit] at h
    dsimp only at h
    rw [if_pos hlow] at h
    cases h
  | case5 id c start hunder hletter hdigit index hlow =>
    rename_i hhigh
    rw [dissectParts, if_neg hunder, if_neg hletter, if_pos hdigit] at h
    dsimp only at h
    rw [if_neg hlow, if_pos hhigh] at h
    cases h
  | case6 id c start hunder hletter hdigit index hlow hhigh =>
    rename_i ih
    rw [dissectParts, if_neg hunder, if_neg hletter, if_pos hdigit] at h
    dsimp only at h
    rw [if_neg hlow, if_neg hhigh] at h
    have hpart : ∀ part ∈ id ++ [SigPart.index (strtolInt (c :: start.takeWhile Char.isDigit) - 1) noExtra],
        part.Readable ∧ part.plain = part := by
      intro part hmem
      rcases List.mem_append.mp hmem with hmem | hmem
      · exact hid part hmem
      · obtain rfl := List.mem_singleton.mp hmem
        exact ⟨⟨by omega, by omega⟩, rfl⟩
    obtain ⟨hall, hprefix⟩ := ih h hpart
    exact ⟨hall, (List.prefix_append _ _).trans hprefix⟩
  | case7 id c start hunder hletter hdigit =>
    rw [dissectParts, if_neg hunder, if_neg hletter, if_neg hdigit] at h
    cases h

end Names

end Ucesb
