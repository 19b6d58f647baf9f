import Ucesb.SignalRangeExpand

namespace Ucesb

section Names

theorem dissectName_dissected {name : List Char} {id : SignalId} (h : dissectName name = .ok id) :
    DissectedId id := by
  unfold dissectName at h
  split at h
  · next hstarts =>
    cases name with
    | nil => cases hstarts
    | cons c start =>
      have hletter : c.isAlpha = true := hstarts
      have hunder : c ≠ '_' := by
        rintro rfl
        exact absurd hletter (by decide)
      rw [dissectParts, if_neg hunder, if_pos hletter] at h
      obtain ⟨hall, hprefix⟩ := dissectParts_parts h fun part hmem => by
        obtain rfl := List.mem_singleton.mp hmem
        refine ⟨⟨List.cons_ne_nil _ _, fun c' hc' => ?_⟩, rfl⟩
        rcases List.mem_cons.mp hc' with rfl | hc'
        · exact hletter
        · exact List.mem_takeWhile_imp hc'
      obtain ⟨rest, rfl⟩ := hprefix
      exact ⟨⟨rfl, fun part hpart => (hall part hpart).1⟩, fun part hpart => (hall part hpart).2⟩
  · cases h

theorem DissectedId.dissectName {id : SignalId} (h : DissectedId id) :
    dissectName (nameOf id) = .ok id := by
  rw [h.readable.dissectName, List.map_congr_left (g := fun part => part) h.plain, List.map_id']

theorem moveName_getElem? (id : SignalId) (k j : Nat) (d : Int) :
    (moveName id k d)[j]? = id[j]?.map fun part => if k = j then part.move d else part := by
  rw [moveName, List.getElem?_modify]
  rfl

theorem moveName_head_kind (id : SignalId) (k : Nat) (d : Int) :
    (moveName id k d).head?.map SigPart.kind = id.head?.map SigPart.kind := by
  rw [List.head?_eq_getElem?, List.head?_eq_getElem?, moveName_getElem?, Option.map_map]
  congr 1
  funext part
  rw [Function.comp_apply]
  split
  · cases part <;> rfl
  · rfl

theorem DissectedId.between {id : SignalId} {k : Nat} {d e : Int} (h : DissectedId id)
    (hmoved : DissectedId (moveName id k d)) (he : 0 ≤ e ∧ e ≤ d ∨ d ≤ e ∧ e ≤ 0) :
    DissectedId (moveName id k e) := by
  have hparts : ∀ part ∈ moveName id k e, part.Readable ∧ part.plain = part := by
    intro part hpart
    obtain ⟨j, hj⟩ := List.mem_iff_getElem?.mp hpart
    rw [moveName_getElem?] at hj
    obtain ⟨part0, hj0, rfl⟩ := Option.map_eq_some_iff.mp hj
    have hpart0 := List.mem_of_getElem? hj0
    have hread0 := h.readable.parts part0 hpart0
    have hplain0 := h.plain part0 hpart0
    split
    · next hk =>
      subst hk
      have hthere : part0.move d ∈ moveName id k d := by
        refine List.mem_of_getElem? (i := k) ?_
        rw [moveName_getElem?, hj0, Option.map_some, if_pos rfl]
      have hread := hmoved.readable.parts _ hthere
      cases part0 with
      | name text => exact ⟨hread0, rfl⟩
      | index v extra =>
        have hextra : SigPart.index v noExtra = .index v extra := hplain0
        obtain ⟨-, rfl⟩ := SigPart.index.inj hextra
        obtain ⟨hlow0, hhigh0⟩ := hread0
        obtain ⟨hlow, hhigh⟩ := hread
        exact ⟨⟨by omega, by omega⟩, rfl⟩
    · exact ⟨hread0, hplain0⟩
  refine ⟨⟨?_, fun part hpart => (hparts part hpart).1⟩, fun part hpart => (hparts part hpart).2⟩
  rw [moveName_head_kind]
  exact h.readable.starts

theorem indexedTexts_before {diffIndex : Int} {i : Nat} (h : diffIndex < i) (d : Int)
    (parts : SignalId) :
    indexedTexts diffIndex d i parts = parts.map fun part => (part.kind, part.text) := by
  induction parts generalizing i with
  | nil => rfl
  | cons part parts ih =>
    rw [indexedTexts, ih (by omega), List.map_cons]
    cases part with
    | name text => rfl
    | index v extra =>
      rw [SigPart.indexedText, if_neg (by omega), Int.add_zero]
      rfl

theorem indexedTexts_move (i n : Nat) (d : Int) (parts : SignalId) :
    indexedTexts ((i : Int) + n) d i parts =
      (moveName parts n d).map fun part => (part.kind, part.text) := by
  induction parts generalizing i n with
  | nil => rw [moveName, List.modify_nil]; rfl
  | cons part parts ih =>
    cases n with
    | zero =>
      rw [indexedTexts, indexedTexts_before (by omega), moveName, List.modify_zero_cons]
      cases part with
      | name text => rfl
      | index v extra =>
        rw [SigPart.indexedText, if_pos (by omega)]
        rfl
    | succ n =>
      have hplace : (i : Int) + (n + 1 : Nat) = (i + 1 : Nat) + n := by omega
      have hcons : moveName (part :: parts) (n + 1) d = part :: moveName parts n d := rfl
      rw [indexedTexts, hplace, ih, hcons, List.map_cons]
      cases part with
      | name text => rfl
      | index v extra =>
        rw [SigPart.indexedText, if_neg (by omega), Int.add_zero]
        rfl

end Names

section Differences

def diffPair (k : Nat) (d : Int) : Int × Int := if d = 0 then (-1, 0) else (k, d)

theorem diffPair_snd (k : Nat) (d : Int) : (diffPair k d).2 = d := by
  unfold diffPair
  split
  · next hzero => exact hzero.symm
  · rfl

theorem toInt32_moved {id : SignalId} {k : Nat} {v d : Int} {extra : IndexExtra}
    (hat : id[k]? = some (.index v extra)) (h : ReadableId id)
    (hmoved : ReadableId (moveName id k d)) : toInt32 d = d := by
  obtain ⟨hlow, hhigh⟩ := h.parts _ (List.mem_of_getElem? hat)
  have hthere : (moveName id k d)[k]? = some (.index (v + d) extra) := by
    rw [moveName_getElem?, hat, Option.map_some, if_pos rfl]
    rfl
  obtain ⟨hlow', hhigh'⟩ := hmoved.parts _ (List.mem_of_getElem? hthere)
  exact toInt32_eq (by omega) (by omega)

theorem difference_eq_some {a b : SignalId} {nameDiff : Int × Int}
    (h : difference a b = some nameDiff) (ha : DissectedId a) (hb : DissectedId b) :
    ∃ k d, nameDiff = diffPair k d ∧ b = moveName a k d ∧
      (d ≠ 0 → ∃ v extra, a[k]? = some (.index v extra)) := by
  obtain ⟨place, length⟩ := nameDiff
  unfold difference at h
  split at h
  · cases h
  · rcases diffParts_eq_some h (by omega) with ⟨rfl, rfl, rfl⟩ | ⟨-, n, v, d, extra, rfl, hn, hd, rfl, rfl⟩
    · exact ⟨0, 0, rfl, (moveName_zero _ _).symm, fun hne => absurd rfl hne⟩
    · refine ⟨n, d, ?_, rfl, fun _ => ⟨v, extra, hn⟩⟩
      rw [diffPair, if_neg hd, toInt32_moved hn ha.readable hb.readable]
      congr 1
      omega

theorem difference_move {a : SignalId} {k : Nat} {d : Int} (ha : DissectedId a)
    (hb : DissectedId (moveName a k d)) (hat : d ≠ 0 → ∃ v extra, a[k]? = some (.index v extra)) :
    difference a (moveName a k d) = some (diffPair k d) := by
  have hlength : (moveName a k d).length = a.length := List.length_modify ..
  rw [difference, if_neg (by omega)]
  by_cases hd : d = 0
  · subst hd
    rw [moveName_zero, diffParts_same]
    rfl
  · obtain ⟨v, extra, hn⟩ := hat hd
    rw [diffParts_move hn hd, toInt32_moved hn ha.readable hb.readable, diffPair, if_neg hd]
    congr 2
    omega

theorem identDiff_pair {v w : VarName} {diff : Int × Int} (h : identDiff 0 (-1) 0 v w = some diff) :
    ∃ k d, diff = diffPair k d ∧ w = v.move d k ∧ (d ≠ 0 → ∃ i, v.indexAt k = some i) := by
  obtain ⟨place, length⟩ := diff
  rcases identDiff_eq_some h (by omega) with ⟨rfl, rfl, rfl⟩ | ⟨-, hd, n, rfl, rfl, hn⟩
  · exact ⟨0, 0, rfl, (w.move_zero 0).symm, fun hne => absurd rfl hne⟩
  · refine ⟨n, length, ?_, rfl, fun _ => hn⟩
    rw [diffPair, if_neg hd]
    congr 1
    omega

theorem identDiff_moved {v : VarName} {k : Nat} {d : Int}
    (hat : d ≠ 0 → ∃ i, v.indexAt k = some i) :
    identDiff 0 (-1) 0 v (v.move d k) = some (diffPair k d) := by
  by_cases hd : d = 0
  · subst hd
    rw [VarName.move_zero, identDiff_same]
    rfl
  · obtain ⟨i, hi⟩ := hat hd
    rw [identDiff_move hi hd, diffPair, if_neg hd]
    congr 2
    omega

theorem diffPair_inj {k k' : Nat} {d d' : Int} (h : diffPair k d = diffPair k' d') (hd : d ≠ 0) :
    k' = k ∧ d' = d := by
  have hsnd := congrArg Prod.snd h
  rw [diffPair_snd, diffPair_snd] at hsnd
  subst hsnd
  rw [diffPair, diffPair, if_neg hd, if_neg hd] at h
  have hfst := congrArg Prod.fst h
  exact ⟨by omega, rfl⟩

end Differences

section Expand

variable {Types : Type} {r : SignalSpecRange Types} {first last : SignalId} {kName kIdent : Nat}
  {dName dIdent : Int}

theorem towards_zero (i : Nat) (hi : i ≤ (0 : Int).natAbs) : towards 0 i = 0 := by
  have hzero : i = 0 := Nat.le_zero.mp hi
  rw [hzero]
  rfl

theorem towards_between {d : Int} {i : Nat} (hi : i ≤ d.natAbs) :
    0 ≤ towards d i ∧ towards d i ≤ d ∨ d ≤ towards d i ∧ towards d i ≤ 0 := by
  unfold towards
  split <;> omega

theorem towards_last (d : Int) : towards d d.natAbs = d := by
  unfold towards
  split <;> omega

theorem indexedTexts_pair (id : SignalId) (k : Nat) {d : Int} {i : Nat} (hi : i ≤ d.natAbs) :
    indexedTexts (diffPair k d).1 (towards (diffPair k d).2 i) 0 id =
      (moveName id k (towards d i)).map fun part => (part.kind, part.text) := by
  by_cases hd : d = 0
  · subst hd
    rw [towards_zero i hi, moveName_zero]
    exact indexedTexts_unchanged (.inl rfl) 0 id
  · have hmove := indexedTexts_move 0 k (towards d i) id
    rw [diffPair, if_neg hd]
    rwa [Int.natCast_zero, Int.zero_add] at hmove

theorem generate_pair (v : VarName) (k : Nat) {d : Int} {i : Nat} (hi : i ≤ d.natAbs) :
    v.generate (diffPair k d).1 (towards (diffPair k d).2 i) 0 = v.move (towards d i) k := by
  by_cases hd : d = 0
  · subst hd
    rw [towards_zero i hi, VarName.move_zero]
    exact generate_before (show (-1 : Int) < 0 by decide) _ v
  · have hmove := generate_move 0 k (towards d i) v
    rw [diffPair, if_neg hd]
    rwa [Int.natCast_zero, Int.zero_add] at hmove

theorem expandOne_eq (fresh : Nat → Char) (r : SignalSpecRange Types) (hfirst : DissectedId first)
    (hlast : DissectedId (moveName first kName dName)) (hlength : dName.natAbs = dIdent.natAbs)
    {i : Nat} (hi : i ≤ dName.natAbs) :
    expandOne fresh r first r.ident (diffPair kName dName) (diffPair kIdent dIdent) i =
      .ok (signalSpec r.orderIndex r.sticky (nameOf (moveName first kName (towards dName i)))
        (r.ident.move (towards dIdent i) kIdent) r.types r.tag) := by
  have hne : first ≠ [] := by
    rintro rfl
    cases hfirst.readable.starts
  have hmoved := hfirst.between hlast (towards_between hi)
  obtain ⟨mem, hmem, hprinted⟩ := generateIndexed_printed fresh hne (diffPair kName dName).1
    (towards (diffPair kName dName).2 i)
  rw [indexedTexts_pair first kName hi] at hprinted
  unfold expandOne
  rw [hmem]
  dsimp only
  have hstring : cString mem = nameOf (moveName first kName (towards dName i)) :=
    hprinted.cString hmoved.readable.no_zero
  rw [hstring, generate_pair r.ident kIdent (hlength ▸ hi)]

theorem mapM_ok {ε α β : Type} {f : α → Except ε β} {g : α → β} {l : List α}
    (h : ∀ a ∈ l, f a = .ok (g a)) : l.mapM f = .ok (l.map g) := by
  induction l with
  | nil => rfl
  | cons a l ih =>
    rw [List.mapM_cons, h a List.mem_cons_self, ih fun b hb => h b (List.mem_cons_of_mem _ hb)]
    rfl

theorem toggleIdent_spec (r : SignalSpecRange Types) : toggleIdent r.spec.ident = .ok r.ident := by
  unfold SignalSpecRange.spec signalSpec
  dsimp only
  split <;> rfl

def rangeSpecs (r : SignalSpecRange Types) (first : SignalId) (kName : Nat) (dName : Int)
    (kIdent : Nat) (dIdent : Int) : List (SignalSpec Types) :=
  (List.range (dName.natAbs + 1)).map fun i =>
    signalSpec r.orderIndex r.sticky (nameOf (moveName first kName (towards dName i)))
      (r.ident.move (towards dIdent i) kIdent) r.types r.tag

theorem expandRange_eq (fresh : Nat → Char)
    (h : RangeEnds r first last kName dName kIdent dIdent) :
    expandRange fresh r = .ok (rangeSpecs r first kName dName kIdent dIdent) := by
  have hfirst := dissectName_dissected h.readFirst
  have hlast := dissectName_dissected h.readLast
  rw [h.name] at hlast
  unfold expandRange
  rw [h.readFirst, h.readLast, h.name]
  simp only [Except.mapError, bind, Except.bind]
  rw [difference_move hfirst hlast h.nameIndex, toggleIdent_spec]
  simp only [Option.elim_some]
  rw [h.ident, identDiff_moved h.identIndex]
  simp only [Option.elim_some]
  rw [if_neg (by rw [diffPair_snd, diffPair_snd]; exact not_not.mpr h.length), diffPair_snd]
  refine mapM_ok fun i hi => expandOne_eq fresh r hfirst hlast h.length ?_
  exact Nat.le_of_lt_succ (List.mem_range.mp hi)

theorem elim_eq_ok {α : Type} {x : Option α} {e : ExpandError} {a : α}
    (h : x.elim (Except.error e) Except.ok = Except.ok a) : x = some a := by
  cases x with
  | none => cases h
  | some b => exact congrArg some (Except.ok.inj h)

theorem mapError_eq_ok {α : Type} {x : Except DissectError α} {a : α}
    (h : x.mapError ExpandError.dissect = .ok a) : x = .ok a := by
  cases x with
  | error e => cases h
  | ok b => exact congrArg Except.ok (Except.ok.inj h)

theorem expandRange_ends {fresh : Nat → Char} {specs : List (SignalSpec Types)}
    (h : expandRange fresh r = .ok specs) :
    ∃ first last kName dName kIdent dIdent, RangeEnds r first last kName dName kIdent dIdent := by
  unfold expandRange at h
  obtain ⟨first, hfirst, h⟩ := bind_eq_ok.mp h
  obtain ⟨last, hlast, h⟩ := bind_eq_ok.mp h
  obtain ⟨nameDiff, hname, h⟩ := bind_eq_ok.mp h
  obtain ⟨ident, htoggle, h⟩ := bind_eq_ok.mp h
  obtain ⟨identDiff, hident, h⟩ := bind_eq_ok.mp h
  have hreadFirst := mapError_eq_ok hfirst
  have hreadLast := mapError_eq_ok hlast
  obtain rfl : r.ident = ident := Except.ok.inj ((toggleIdent_spec r).symm.trans htoggle)
  obtain ⟨kName, dName, rfl, hmoved, hindex⟩ := difference_eq_some (elim_eq_ok hname)
    (dissectName_dissected hreadFirst) (dissectName_dissected hreadLast)
  obtain ⟨kIdent, dIdent, rfl, hidentMoved, hidentIndex⟩ := identDiff_pair (elim_eq_ok hident)
  rw [diffPair_snd, diffPair_snd] at h
  split at h
  · cases h
  · next hlength =>
    exact ⟨first, last, kName, dName, kIdent, dIdent, hreadFirst, hreadLast, hmoved, hindex,
      hidentMoved, hidentIndex, not_not.mp hlength⟩

theorem RangeEnds.enumerated (h : RangeEnds r first last kName dName kIdent dIdent) :
    RangeEnumerated r first last kName dName kIdent dIdent
      (rangeSpecs r first kName dName kIdent dIdent) := by
  have hfirst := dissectName_dissected h.readFirst
  have hlast := dissectName_dissected h.readLast
  rw [h.name] at hlast
  refine ⟨rfl, fun i hi => (hfirst.between hlast (towards_between hi)).dissectName, ?_, ?_⟩
  · rw [towards_last, h.name]
  · rw [h.length, towards_last, h.ident]

theorem RangeEnds.ident_unique {first' last' : SignalId} {kName' kIdent' : Nat}
    {dName' dIdent' : Int} (h : RangeEnds r first last kName dName kIdent dIdent)
    (h' : RangeEnds r first' last' kName' dName' kIdent' dIdent') (hne : dIdent ≠ 0) :
    kIdent' = kIdent ∧ dIdent' = dIdent := by
  have hfound := identDiff_moved h.identIndex
  have hfound' := identDiff_moved h'.identIndex
  rw [← h.ident] at hfound
  rw [← h'.ident] at hfound'
  exact diffPair_inj (Option.some.inj (hfound.symm.trans hfound')) hne

theorem VarName.indexAt_move {v : VarName} {k : Nat} {i : Int} (h : v.indexAt k = some i) (d : Int) :
    (v.move d k).indexAt k = some (i + d) := by
  induction v generalizing k with
  | name text => cases h
  | sub text i' child ih =>
    cases k with
    | zero =>
      obtain rfl := Option.some.inj h
      rfl
    | succ k => exact ih h
  | index text i' i2 =>
    match k with
    | 0 =>
      obtain rfl := Option.some.inj h
      rfl
    | 1 =>
      obtain rfl := Option.some.inj h
      rfl
    | _ + 2 => cases h

/-- The expansion is right, but for the places where one end has no index. -/
theorem expandsRight_iff (fresh : Nat → Char) (r : SignalSpecRange Types) :
    ExpandsRight fresh r ↔ ¬IndexMissing r := by
  constructor
  · rintro hright ⟨first, last, kName, dName, kIdent, dIdent, hends, hne, hmissing⟩
    obtain ⟨first', last', kName', dName', kIdent', dIdent', hends', hpresent, -⟩ :=
      hright _ (expandRange_eq fresh hends)
    obtain ⟨rfl, rfl⟩ := hends.ident_unique hends' hne
    obtain ⟨⟨i, hi, hthere⟩, ⟨i', hi', hthere'⟩⟩ := hpresent hne
    rcases hmissing with hnone | hnone
    · rw [hi] at hnone
      exact hthere (Option.some.inj hnone)
    · rw [hi'] at hnone
      exact hthere' (Option.some.inj hnone)
  · intro hnone specs hspecs
    obtain ⟨first, last, kName, dName, kIdent, dIdent, hends⟩ := expandRange_ends hspecs
    refine ⟨first, last, kName, dName, kIdent, dIdent, hends, fun hne => ?_, ?_⟩
    · obtain ⟨i, hi⟩ := hends.identIndex hne
      have hi' : r.identLast.indexAt kIdent = some (i + dIdent) := by
        rw [hends.ident]
        exact VarName.indexAt_move hi dIdent
      refine ⟨⟨i, hi, fun hmissing => hnone ?_⟩, ⟨i + dIdent, hi', fun hmissing => hnone ?_⟩⟩
      · subst hmissing
        exact ⟨first, last, kName, dName, kIdent, dIdent, hends, hne, .inl hi⟩
      · rw [hmissing] at hi'
        exact ⟨first, last, kName, dName, kIdent, dIdent, hends, hne, .inr hi'⟩
    · obtain rfl : rangeSpecs r first kName dName kIdent dIdent = specs :=
        Except.ok.inj ((expandRange_eq fresh hends).symm.trans hspecs)
      exact hends.enumerated

def missingRange : SignalSpecRange Unit where
  orderIndex := 0
  sticky := 0
  name := ['A', '1']
  ident := .sub ['a'] (-1) (.name ['b'])
  nameLast := ['A', '2']
  identLast := .sub ['a'] 0 (.name ['b'])
  types := ()
  tag := 0
  parsed := by simp [VarName.Parsed]
  parsedLast := by simp [VarName.Parsed]

theorem missing_index_expanded : ¬∀ r : SignalSpecRange Unit, ExpandsRight (fun _ => 'x') r := by
  intro h
  refine (expandsRight_iff _ missingRange).mp (h missingRange)
    ⟨[.name ['A'], .index 0 noExtra], [.name ['A'], .index 1 noExtra], 1, 1, 0, 1,
      ⟨?_, ?_, rfl, fun _ => ⟨0, noExtra, rfl⟩, rfl, fun _ => ⟨-1, rfl⟩, rfl⟩, by decide, .inl rfl⟩
  · simp [missingRange, dissectName, dissectParts, strtolInt, toInt32]
    decide
  · simp [missingRange, dissectName, dissectParts, strtolInt, toInt32]
    decide

end Expand

end Ucesb
