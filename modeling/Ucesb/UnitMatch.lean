import Mathlib.Data.Char
import Mathlib.Data.List.Infix
import Mathlib.Data.List.Lex
import Mathlib.Logic.Equiv.List
import Ucesb.PrefixUnits

namespace Ucesb

def writtenBlocks (marks : Bool) (str : List Char) : Except UnitError (List UnitBlock) :=
  convertLoop marks (fun blocks block => blocks ++ [block]) str.length 1 [] str

def UnitBlock.term (b : UnitBlock) : List Char × Int32 := (b.unit, b.exponent)

def simpleTerms (blocks : List UnitBlock) : List (List Char × Int32) :=
  (blocks.filter fun b => b.marker.isNone).map UnitBlock.term

def prefixTerms (blocks : List UnitBlock) : List (List Char × Int32) :=
  (blocks.filter fun b => b.marker.isSome).map UnitBlock.term

def writtenPrefix (blocks : List UnitBlock) : Int32 :=
  (blocks.map fun b => b.marker.getD 0 * b.exponent).sum

section Reading

variable {marks : Bool} {mult : Int32} {p rest : List Char}

theorem convertLoop_eq {σ : Type} (insert : σ → UnitBlock → σ) (todo : Nat) (units : σ)
    (blocks : List UnitBlock) :
    convertLoop marks insert todo mult (blocks.foldl insert units) p =
      (convertLoop marks (fun blocks block => blocks ++ [block]) todo mult blocks p).map
        fun blocks => blocks.foldl insert units := by
  induction todo generalizing mult p blocks with
  | zero => rfl
  | succ todo ih =>
    unfold convertLoop
    split
    · rfl
    split
    · rfl
    split
    · split
      · rfl
      · rfl
    split
    · rfl
    next block rest _ =>
      rw [← ih, List.foldl_append, List.foldl_cons, List.foldl_nil]

theorem skipOperators_length {thisMult thisMult' : Int32}
    (h : skipOperators thisMult p = .ok (thisMult', rest)) : rest.length ≤ p.length := by
  induction p generalizing thisMult with
  | nil =>
    cases h
    exact Nat.le_refl _
  | cons c p ih =>
    unfold skipOperators at h
    rw [List.length_cons]
    split at h
    · split at h
      · cases h
      · exact Nat.le_succ_of_le (ih h)
    split at h
    · split at h
      · cases h
      · exact Nat.le_succ_of_le (ih h)
    split at h
    · exact Nat.le_succ_of_le (ih h)
    · cases h
      exact Nat.le_refl _

theorem readExponent_length (p : List Char) : (readExponent p).2.length ≤ p.length := by
  have hdrop : ∀ (b : Bool) (q : List Char), (if b then q.drop 1 else q).length ≤ q.length := by
    rintro (_ | _) q
    · exact Nat.le_refl _
    · rw [if_pos rfl, List.length_drop]
      omega
  unfold readExponent
  refine (List.dropWhile_sublist _).length_le.trans ?_
  exact (hdrop _ _).trans (hdrop _ _)

theorem readBlock_length {block : UnitBlock} (h : readBlock marks mult p = .ok (block, rest)) :
    rest.length < p.length := by
  unfold readBlock at h
  split at h
  · cases h
  next marker q hmarker =>
    have hq : q.length ≤ p.length := by
      unfold readMarker at hmarker
      split at hmarker
      · split at hmarker
        · cases hmarker
        split at hmarker
        · cases hmarker
        · cases hmarker
          rw [List.length_drop]
          omega
      · cases hmarker
        exact Nat.le_refl _
    split at h
    · cases h
    next hletter =>
      cases h
      refine lt_of_lt_of_le ?_ hq
      refine lt_of_le_of_lt (readExponent_length _) ?_
      cases q with
      | nil => exact absurd rfl hletter
      | cons c q =>
        have hc : c.isAlpha = true := by simpa [headIs] using hletter
        rw [List.dropWhile_cons_of_pos hc, List.length_cons]
        exact Nat.lt_succ_of_le (List.dropWhile_sublist _).length_le

theorem convertLoop_enough {σ : Type} (insert : σ → UnitBlock → σ) {todo : Nat} (units : σ)
    (more : Nat) (h : p.length ≤ todo) :
    convertLoop marks insert (todo + more) mult units p =
      convertLoop marks insert todo mult units p := by
  induction todo generalizing mult units p with
  | zero =>
    obtain rfl := List.length_eq_zero_iff.mp (Nat.le_zero.mp h)
    cases more with
    | zero => rfl
    | succ more => rfl
  | succ todo ih =>
    rw [Nat.succ_add]
    unfold convertLoop
    split
    · rfl
    split
    · rfl
    next thisMult q hskip =>
      split
      · rfl
      split
      · rfl
      next block rest hblock =>
        have hq := skipOperators_length hskip
        have hrest := readBlock_length hblock
        exact ih _ (by omega)

end Reading

section Written

variable {addr : List Char → Nat} {str : List Char} {blocks : List UnitBlock}

theorem foldl_insertUnitBlock (units : PrefixUnitsExponent) :
    blocks.foldl (insertUnitBlock addr) units =
      ⟨addTerms addr units.blocksSimple (simpleTerms blocks),
        addTerms addr units.blocksPrefix (prefixTerms blocks),
        units.totalPrefix + writtenPrefix blocks⟩ := by
  induction blocks generalizing units with
  | nil =>
    rw [show writtenPrefix [] = 0 from rfl, Int32.add_zero]
    rfl
  | cons b blocks ih =>
    rw [List.foldl_cons, ih]
    obtain ⟨marker, unit, exponent⟩ := b
    cases marker with
    | none =>
      simp only [insertUnitBlock, simpleTerms, prefixTerms, writtenPrefix, List.filter_cons]
      simp [addTerms, insertUnitReduce, UnitBlock.term]
    | some power =>
      simp only [insertUnitBlock, simpleTerms, prefixTerms, writtenPrefix, List.filter_cons]
      simp [addTerms, insertUnitReduce, UnitBlock.term, Int32.add_assoc]

theorem convertPrefixUnits_eq (h : writtenBlocks true str = .ok blocks) :
    convertPrefixUnits addr str =
      .ok ⟨addTerms addr [] (simpleTerms blocks), addTerms addr [] (prefixTerms blocks),
        writtenPrefix blocks⟩ := by
  have hloop := @convertLoop_eq true 1 str _ (insertUnitBlock addr) str.length ⟨[], [], 0⟩ []
  rw [show convertLoop true _ str.length 1 [] str = _ from h] at hloop
  rw [convertPrefixUnits]
  refine hloop.trans ?_
  rw [Except.map, foldl_insertUnitBlock, Int32.zero_add]

theorem convertUnits_eq (h : writtenBlocks false str = .ok blocks) :
    convertUnits addr str = .ok (addTerms addr [] (blocks.map UnitBlock.term)) := by
  have hloop := @convertLoop_eq false 1 str _
    (fun units block => insertUnitReduce addr units block.unit block.exponent) str.length [] []
  rw [show convertLoop false _ str.length 1 [] str = _ from h] at hloop
  rw [convertUnits]
  refine hloop.trans ?_
  rw [Except.map, addTerms, List.foldl_map]
  rfl

end Written

def negTerms (terms : List (List Char × Int32)) : List (List Char × Int32) :=
  terms.map fun item => (item.1, -item.2)

def baseTerms (items : List (List Char × Int32)) : List (List Char × Int32) :=
  items.filterMap fun item => (splitPrefix item.1).map fun r => (r.1, item.2)

def splitPower (items : List (List Char × Int32)) : Int32 :=
  (items.map fun item => (splitPrefix item.1).elim 0 Prod.snd * item.2).sum

def splitItems (preDest left : List (List Char × Int32)) : List (List Char × Int32) :=
  left.filter fun item => termSum item.1 preDest = 0

def wholeItems (preDest left : List (List Char × Int32)) : List (List Char × Int32) :=
  left.filter fun item => termSum item.1 preDest ≠ 0

/-- With `left` of the source, every unit is one of the destination, or a prefix and one, and the
exponents agree. -/
structure UnitsAgreeBy (preDest left : List (List Char × Int32)) (total power : Int32) : Prop where
  read : ∀ item ∈ splitItems preDest left, ∃ s2 tens, splitPrefix item.1 = some (s2, tens) ∧
    termSum s2 preDest ≠ 0
  agree : ∀ unit, termSum unit preDest =
    termSum unit (wholeItems preDest left) + termSum unit (baseTerms (splitItems preDest left))
  factor : power = splitPower (splitItems preDest left) - total

/-- From no unit on do those that are read with a prefix sum up to zero for its base. -/
def Uncancelled (items : List (List Char × Int32)) : Prop :=
  ∀ item rest, item :: rest <:+ items → ∀ s2 tens, splitPrefix item.1 = some (s2, tens) →
    termSum s2 (baseTerms (item :: rest)) ≠ 0

section Matching

variable {addr : List Char → Nat} {preDest tmpSrc items : UnitExponentMap} {total : Int32}

theorem any_iff (hr : Ranked addr preDest) (hz : NoZeros preDest) (unit : List Char) :
    (preDest.any fun d => d.1 = unit) = true ↔ termSum unit preDest ≠ 0 := by
  rw [← hr.mem_keys hz]
  simp [List.any_eq_true]

theorem neg_ne_zero {e : Int32} (h : e ≠ 0) : -e ≠ 0 := by
  intro hneg
  apply h
  grind

theorem termSum_single (unit v : List Char) (e : Int32) :
    termSum v [(unit, e)] = if unit = v then e else 0 := by
  simp [termSum]

theorem matchWhole_spec (haddr : Function.Injective addr) (hr : Ranked addr preDest)
    (hz : NoZeros preDest) (htmp : Ranked addr tmpSrc) (hztmp : NoZeros tmpSrc) :
    (matchWhole addr tmpSrc preDest).1 = splitItems preDest tmpSrc ∧
      Ranked addr (matchWhole addr tmpSrc preDest).2 ∧ NoZeros (matchWhole addr tmpSrc preDest).2 ∧
      ∀ v, termSum v preDest = termSum v (matchWhole addr tmpSrc preDest).2 +
        termSum v (wholeItems preDest tmpSrc) := by
  induction tmpSrc generalizing preDest with
  | nil => exact ⟨rfl, hr, hz, fun v => (Int32.add_zero _).symm⟩
  | cons item tmpSrc ih =>
    obtain ⟨hitem, htmp'⟩ := List.pairwise_cons.mp htmp
    obtain ⟨hitem0, hztmp'⟩ := List.forall_mem_cons.mp hztmp
    unfold matchWhole
    by_cases hthere : termSum item.1 preDest = 0
    · rw [if_neg (by rw [any_iff hr hz]; exact not_not.mpr hthere)]
      obtain ⟨hleft, hrest⟩ := ih hr hz htmp' hztmp'
      unfold splitItems wholeItems
      rw [List.filter_cons_of_pos (by simpa using hthere),
        List.filter_cons_of_neg (by simpa using hthere)]
      exact ⟨congrArg _ hleft, hrest⟩
    · rw [if_pos ((any_iff hr hz _).mpr hthere)]
      -- the other units have other names, so that they are found as before
      have hsame : ∀ q ∈ tmpSrc, termSum q.1 (insertUnitReduce addr preDest item.1 (-item.2)) =
          termSum q.1 preDest := by
        intro q hq
        have hne : item.1 ≠ q.1 := fun heq => by
          have hlt := hitem q hq
          rw [heq] at hlt
          exact lt_irrefl _ hlt
        rw [insertUnitReduce, termSum_addTerm haddr, termSum_single, if_neg hne, Int32.add_zero]
      obtain ⟨hleft, hr', hz', hsum⟩ := ih (hr.addTerm item.1 (-item.2))
        (hz.addTerm (neg_ne_zero hitem0)) htmp' hztmp'
      refine ⟨?_, hr', hz', ?_⟩
      · refine hleft.trans ?_
        unfold splitItems
        rw [List.filter_cons_of_neg (by simpa using hthere)]
        exact List.filter_congr fun q hq => by rw [← hsame q hq]; rfl
      · intro v
        have hv := hsum v
        have hwhole : wholeItems (addTerm addr item.1 (-item.2) preDest) tmpSrc =
            wholeItems preDest tmpSrc :=
          List.filter_congr fun q hq => by rw [← hsame q hq]; rfl
        rw [termSum_addTerm haddr, termSum_single, hwhole] at hv
        have hcons : wholeItems preDest (item :: tmpSrc) = item :: wholeItems preDest tmpSrc :=
          List.filter_cons_of_pos (by simpa using hthere)
        rw [hcons, termSum]
        unfold insertUnitReduce
        split at hv
        · rw [if_pos ‹_›]
          grind
        · rw [if_neg ‹_›]
          grind

theorem baseTerms_cons (item : List Char × Int32) {s2 : List Char} {tens : Int32}
    (h : splitPrefix item.1 = some (s2, tens)) :
    baseTerms (item :: items) = (s2, item.2) :: baseTerms items := by
  rw [baseTerms, List.filterMap_cons, h]
  rfl

theorem matchPrefixed_spec {result : UnitExponentMap × Int32} (haddr : Function.Injective addr)
    (hr : Ranked addr preDest) (hz : NoZeros preDest) (hzi : NoZeros items)
    (h : matchPrefixed addr items preDest total = some result) :
    Ranked addr result.1 ∧ NoZeros result.1 ∧
      (∀ v, termSum v preDest = termSum v result.1 + termSum v (baseTerms items)) ∧
      result.2 = total - splitPower items ∧
      ∀ item ∈ items, ∃ s2 tens, splitPrefix item.1 = some (s2, tens) ∧ termSum s2 preDest ≠ 0 := by
  induction items generalizing preDest total with
  | nil =>
    cases h
    exact ⟨hr, hz, fun v => (Int32.add_zero _).symm, (Int32.sub_zero _).symm, nofun⟩
  | cons item items ih =>
    obtain ⟨hitem, hzi'⟩ := List.forall_mem_cons.mp hzi
    unfold matchPrefixed at h
    split at h
    · cases h
    next s2 tens hsplit =>
      split at h
      next hany =>
        have hthere := (any_iff hr hz s2).mp hany
        obtain ⟨hr', hz', hsum, htotal, hread⟩ :=
          ih (hr.addTerm s2 (-item.2)) (hz.addTerm (neg_ne_zero hitem)) hzi' h
        have hbefore : ∀ v, termSum v (insertUnitReduce addr preDest s2 (-item.2)) =
            termSum v preDest + if s2 = v then -item.2 else 0 := by
          intro v
          rw [insertUnitReduce, termSum_addTerm haddr, termSum_single]
        refine ⟨hr', hz', ?_, ?_, ?_⟩
        · intro v
          have hv := (hbefore v).symm.trans (hsum v)
          rw [baseTerms_cons item hsplit, termSum]
          split at hv
          · rw [if_pos ‹_›]
            grind
          · rw [if_neg ‹_›]
            grind
        · rw [htotal, splitPower, splitPower, List.map_cons, List.sum_cons, hsplit]
          simp only [Option.elim_some]
          grind
        · intro q hq
          rcases List.mem_cons.mp hq with rfl | hq
          · exact ⟨s2, tens, hsplit, hthere⟩
          · obtain ⟨base, power, hbase, hne⟩ := hread q hq
            refine ⟨base, power, hbase, fun hzero => hne ?_⟩
            have hb := hbefore base
            rw [hzero] at hb
            split at hb
            next heq =>
              subst heq
              exact absurd hzero hthere
            next =>
              refine hb.trans ?_
              grind
      · cases h

theorem matchPrefixed_some_iff (haddr : Function.Injective addr) (hr : Ranked addr preDest)
    (hz : NoZeros preDest) (hzi : NoZeros items)
    (hread : ∀ item ∈ items, ∃ s2 tens, splitPrefix item.1 = some (s2, tens))
    (hsum : ∀ v, termSum v preDest = termSum v (baseTerms items)) :
    (∃ result, matchPrefixed addr items preDest total = some result) ↔ Uncancelled items := by
  induction items generalizing preDest total with
  | nil =>
    refine iff_of_true ⟨_, rfl⟩ ?_
    intro item rest hsuffix
    cases List.suffix_nil.mp hsuffix
  | cons item items ih =>
    obtain ⟨hitem, hzi'⟩ := List.forall_mem_cons.mp hzi
    obtain ⟨⟨s2, tens, hsplit⟩, hread'⟩ := List.forall_mem_cons.mp hread
    have hcons : Uncancelled (item :: items) ↔
        termSum s2 (baseTerms (item :: items)) ≠ 0 ∧ Uncancelled items := by
      constructor
      · intro h
        exact ⟨h _ _ List.suffix_rfl _ _ hsplit,
          fun q rest hsuffix => h q rest (hsuffix.trans (List.suffix_cons _ _))⟩
      · rintro ⟨hfirst, hrest⟩ q rest hsuffix base power hbase
        rcases List.suffix_cons_iff.mp hsuffix with heq | hsuffix
        · cases heq
          rw [hsplit] at hbase
          cases hbase
          exact hfirst
        · exact hrest q rest hsuffix base power hbase
    rw [hcons]
    unfold matchPrefixed
    rw [hsplit]
    dsimp only
    by_cases hthere : termSum s2 preDest = 0
    · rw [if_neg (by rw [any_iff hr hz]; exact not_not.mpr hthere)]
      refine iff_of_false (by rintro ⟨_, ⟨⟩⟩) ?_
      rintro ⟨hne, -⟩
      exact hne ((hsum s2).symm.trans hthere)
    · rw [if_pos ((any_iff hr hz _).mpr hthere), insertUnitReduce,
        ih (hr.addTerm s2 (-item.2)) (hz.addTerm (neg_ne_zero hitem)) hzi' hread' ?_]
      · rw [← hsum s2, and_iff_right hthere]
      · intro v
        have hv := hsum v
        rw [baseTerms_cons item hsplit, termSum] at hv
        rw [termSum_addTerm haddr, termSum_single, hv]
        split
        · grind
        · grind

theorem Ranked.eq_nil (hr : Ranked addr preDest) (hz : NoZeros preDest)
    (hsum : ∀ v, termSum v preDest = 0) : preDest = [] := by
  refine List.eq_nil_iff_forall_not_mem.mpr fun p hp => ?_
  exact (hr.mem_keys hz p.1).mp ⟨p, hp, rfl⟩ (hsum p.1)

theorem termSum_wholeItems {v : List Char} {left : List (List Char × Int32)}
    (h : termSum v preDest = 0) : termSum v (wholeItems preDest left) = 0 := by
  refine termSum_eq_zero fun p hp => ?_
  rintro rfl
  have hne := (List.mem_filter.mp hp).2
  exact of_decide_eq_true hne h

theorem matchUnits_iff {dest : PrefixUnitsExponent} {src : UnitExponentMap} {power : Int32}
    (haddr : Function.Injective addr) (hr : Ranked addr dest.blocksPrefix)
    (hz : NoZeros dest.blocksPrefix) (hzs : NoZeros dest.blocksSimple) (hrs : Ranked addr src)
    (hzsrc : NoZeros src) :
    matchUnits addr (some dest) (some src) = some power ↔
      UnitsAgreeBy dest.blocksPrefix (addTerms addr src (negTerms dest.blocksSimple))
          dest.totalPrefix power ∧
        Uncancelled (splitItems dest.blocksPrefix
          (addTerms addr src (negTerms dest.blocksSimple))) := by
  have hleft : insertBlocksExpMult addr src dest.blocksSimple (-1) =
      addTerms addr src (negTerms dest.blocksSimple) := by
    unfold insertBlocksExpMult negTerms
    congr 1
    exact List.map_congr_left fun item _ => by rw [Int32.neg_mul, Int32.one_mul]
  have hneg : NoZeros (negTerms dest.blocksSimple) := by
    intro p hp
    obtain ⟨item, hitem, rfl⟩ := List.mem_map.mp hp
    exact neg_ne_zero (hzs item hitem)
  have hrl := hrs.addTerms (negTerms dest.blocksSimple)
  have hzl := @NoZeros.addTerms _ _ _ _ addr _ _ hzsrc hneg
  obtain ⟨hfst, hr', hz', hsum⟩ := matchWhole_spec haddr hr hz hrl hzl
  have hzi : NoZeros (splitItems dest.blocksPrefix
      (addTerms addr src (negTerms dest.blocksSimple))) :=
    fun p hp => hzl p (List.mem_filter.mp hp).1
  unfold matchUnits
  simp only [Option.getD_some, hleft, hfst]
  constructor
  · intro h
    split at h
    · cases h
    next preDest total hrun =>
      split at h
      · cases h
      next hempty =>
        cases h
        obtain ⟨-, -, hbase, htotal, hread⟩ := matchPrefixed_spec haddr hr' hz' hzi hrun
        have hgone : preDest = [] := not_not.mp hempty
        have hcancel : ∀ v, termSum v (matchWhole addr
            (addTerms addr src (negTerms dest.blocksSimple)) dest.blocksPrefix).2 =
            termSum v (baseTerms (splitItems dest.blocksPrefix
              (addTerms addr src (negTerms dest.blocksSimple)))) := by
          intro v
          rw [hbase v, hgone, termSum, Int32.zero_add]
        refine ⟨⟨?_, ?_, ?_⟩, ?_⟩
        · intro item hitem
          obtain ⟨s2, tens, hsplit, hne⟩ := hread item hitem
          refine ⟨s2, tens, hsplit, fun hzero => hne ?_⟩
          have hs := hsum s2
          rw [hzero, termSum_wholeItems hzero, Int32.add_zero] at hs
          exact hs.symm
        · intro unit
          rw [hsum unit, hcancel unit, Int32.add_comm]
        · rw [show total = _ from htotal]
          grind
        · refine (matchPrefixed_some_iff haddr hr' hz' hzi ?_ hcancel).mp ⟨_, hrun⟩
          intro item hitem
          obtain ⟨s2, tens, hsplit, -⟩ := hread item hitem
          exact ⟨s2, tens, hsplit⟩
  · rintro ⟨hagree, hfree⟩
    have hcancel : ∀ v, termSum v (matchWhole addr
        (addTerms addr src (negTerms dest.blocksSimple)) dest.blocksPrefix).2 =
        termSum v (baseTerms (splitItems dest.blocksPrefix
          (addTerms addr src (negTerms dest.blocksSimple)))) := by
      intro v
      have hv := (hsum v).symm.trans (hagree.agree v)
      grind
    obtain ⟨⟨preDest, total⟩, hrun⟩ :=
      (@matchPrefixed_some_iff addr _ _ dest.totalPrefix haddr hr' hz' hzi (fun item hitem => by
        obtain ⟨s2, tens, hsplit, -⟩ := hagree.read item hitem
        exact ⟨s2, tens, hsplit⟩) hcancel).mpr hfree
    obtain ⟨hrp, hzp, hbase, htotal, -⟩ := matchPrefixed_spec haddr hr' hz' hzi hrun
    have hgone : preDest = [] := by
      refine hrp.eq_nil hzp fun v => ?_
      have hv := (hbase v).symm.trans (hcancel v)
      dsimp only at hv
      grind
    rw [hrun]
    dsimp only
    rw [if_neg (not_not.mpr hgone), show total = _ from htotal, hagree.factor]
    congr 1
    grind

end Matching

/-- No units that are read with one base have exponents with the sum zero. -/
def NoSumCancels (items : List (List Char × Int32)) : Prop :=
  ∀ l, l.Sublist items → l ≠ [] → ∀ s2,
    (∀ item ∈ l, ∃ tens, splitPrefix item.1 = some (s2, tens)) → (l.map Prod.snd).sum ≠ 0

section Orders

variable {items left left' pre pre' : List (List Char × Int32)} {total power : Int32}

theorem termSum_baseTerms (s2 : List Char) (items : List (List Char × Int32)) :
    termSum s2 (baseTerms items) =
      ((items.filter fun item => (splitPrefix item.1).map Prod.fst = some s2).map Prod.snd).sum := by
  induction items with
  | nil => rfl
  | cons item items ih =>
    rw [List.filter_cons]
    cases hsplit : splitPrefix item.1 with
    | none =>
      rw [baseTerms, List.filterMap_cons, hsplit]
      exact ih
    | some r =>
      rw [baseTerms_cons item hsplit, termSum, ih]
      by_cases hr : r.1 = s2
      · simp [hr]
      · simp [hr]

theorem uncancelled_of_perm {items' : List (List Char × Int32)} (h : NoSumCancels items)
    (hperm : items'.Perm items) : Uncancelled items' := by
  intro item rest hsuffix s2 tens hsplit
  rw [termSum_baseTerms]
  have hsub : ((item :: rest).filter fun q => (splitPrefix q.1).map Prod.fst = some s2).Sublist
      items' := List.filter_sublist.trans hsuffix.sublist
  obtain ⟨l, hl, hsub⟩ := hsub.subperm.trans hperm.subperm
  rw [← (hl.map Prod.snd).sum_eq]
  refine h l hsub ?_ s2 ?_
  · rintro rfl
    have hmem : item ∈ (item :: rest).filter fun q => (splitPrefix q.1).map Prod.fst = some s2 := by
      simp [hsplit]
    rw [List.nil_perm.mp hl] at hmem
    cases hmem
  · intro q hq
    have hq' := (List.mem_filter.mp (hl.mem_iff.mp hq)).2
    obtain ⟨r, hr, rfl⟩ := Option.map_eq_some_iff.mp (of_decide_eq_true hq')
    exact ⟨r.2, hr⟩

theorem UnitsAgreeBy.congr (h : UnitsAgreeBy pre left total power)
    (hpre : ∀ u, termSum u pre = termSum u pre') (hperm : left.Perm left') :
    UnitsAgreeBy pre' left' total power := by
  have hsplit : (splitItems pre left).Perm (splitItems pre' left') := by
    unfold splitItems
    simp only [hpre]
    exact hperm.filter _
  have hwhole : (wholeItems pre left).Perm (wholeItems pre' left') := by
    unfold wholeItems
    simp only [hpre]
    exact hperm.filter _
  refine ⟨?_, ?_, ?_⟩
  · intro item hitem
    obtain ⟨s2, tens, hs, hne⟩ := h.read item (hsplit.mem_iff.mpr hitem)
    exact ⟨s2, tens, hs, hpre s2 ▸ hne⟩
  · intro unit
    rw [← hpre, h.agree, termSum_perm hwhole, baseTerms, termSum_perm (hsplit.filterMap _)]
    rfl
  · rw [h.factor, splitPower, (hsplit.map _).sum_eq]
    rfl

theorem exists_code : ∃ code : List Char → Nat, Function.Injective code := by
  refine ⟨fun a => Encodable.encode (a.map Char.toNat), ?_⟩
  refine Encodable.encode_injective.comp (List.map_injective_iff.mpr ?_)
  exact fun _ _ h => Char.toNat_inj.mp h

theorem exists_late (early late : List (List Char)) :
    ∃ addr : List Char → Nat, Function.Injective addr ∧
      ∀ a ∈ early, a ∉ late → ∀ b ∈ late, addr a < addr b := by
  obtain ⟨code, hcode⟩ := exists_code
  obtain ⟨bound, hbound⟩ : ∃ bound, ∀ a ∈ early, code a ≤ bound := by
    induction early with
    | nil => exact ⟨0, nofun⟩
    | cons a early ih =>
      obtain ⟨bound, hbound⟩ := ih
      refine ⟨max (code a) bound, List.forall_mem_cons.mpr ⟨le_max_left _ _, ?_⟩⟩
      exact fun b hb => (hbound b hb).trans (le_max_right _ _)
  refine ⟨fun a => if a ∈ late then 2 * (code a + bound) + 1 else 2 * code a, ?_, ?_⟩
  · intro a b hab
    apply hcode
    dsimp only at hab
    split at hab <;> split at hab <;> omega
  · intro a ha hnot b hb
    have := hbound a ha
    dsimp only
    rw [if_neg hnot, if_pos hb]
    omega

theorem Ranked.split {addr : List Char → Nat} {m : List (List Char × Int32)} (h : Ranked addr m)
    (late : List Char × Int32 → Bool)
    (hlate : ∀ a ∈ m, late a = false → ∀ b ∈ m, late b = true → addr a.1 < addr b.1) :
    m.filter late <:+ m := by
  induction m with
  | nil => exact List.suffix_rfl
  | cons p m ih =>
    obtain ⟨hp, hm⟩ := List.pairwise_cons.mp h
    cases hlp : late p with
    | true =>
      have hall : ∀ q ∈ p :: m, late q = true := by
        intro q hq
        rcases List.mem_cons.mp hq with rfl | hq
        · exact hlp
        · by_contra hnot
          have hlt := hlate q (List.mem_cons_of_mem _ hq) (by simpa using hnot) p
            (List.mem_cons_self ..) hlp
          have := hp q hq
          omega
      rw [List.filter_eq_self.mpr hall]
    | false =>
      rw [List.filter_cons_of_neg (by simp [hlp])]
      refine (ih hm fun a ha hl b hb => ?_).trans (List.suffix_cons _ _)
      exact hlate a (List.mem_cons_of_mem _ ha) hl b (List.mem_cons_of_mem _ hb)

theorem noSumCancels_of_orders (hnodup : (items.map Prod.fst).Nodup)
    (h : ∀ addr, Function.Injective addr → ∃ items', items'.Perm items ∧ Ranked addr items' ∧
      Uncancelled items') : NoSumCancels items := by
  intro l hl hne s2 hbase hzero
  obtain ⟨addr, haddr, hlate⟩ := exists_late (items.map Prod.fst) (l.map Prod.fst)
  obtain ⟨items', hperm, hranked, hfree⟩ := h addr haddr
  have hsuffix := hranked.split (fun item => item.1 ∈ l.map Prod.fst) (by
    intro a ha hnot b hb hlb
    exact hlate a.1 (List.mem_map_of_mem (hperm.mem_iff.mp ha)) (of_decide_eq_false hnot) b.1
      (of_decide_eq_true hlb))
  have hsame : (items'.filter fun item => item.1 ∈ l.map Prod.fst).Perm l := by
    have hnodup' : (items'.map Prod.fst).Nodup := (hperm.map Prod.fst).nodup_iff.mpr hnodup
    refine (List.perm_ext_iff_of_nodup (hnodup'.of_map.filter _)
      (hnodup.of_map.sublist hl)).mpr fun p => ?_
    rw [List.mem_filter, hperm.mem_iff]
    constructor
    · rintro ⟨hp, hkey⟩
      obtain ⟨q, hq, heq⟩ := List.mem_map.mp (of_decide_eq_true hkey)
      rwa [← List.inj_on_of_nodup_map hnodup (hl.subset hq) hp heq]
    · intro hp
      exact ⟨hl.subset hp, decide_eq_true (List.mem_map_of_mem hp)⟩
  cases hcase : items'.filter fun item => item.1 ∈ l.map Prod.fst with
  | nil =>
    rw [hcase] at hsame
    exact hne (List.nil_perm.mp hsame)
  | cons item rest =>
    rw [hcase] at hsame hsuffix
    obtain ⟨tens, hsplit⟩ := hbase item (hsame.mem_iff.mp (List.mem_cons_self ..))
    apply hfree item rest hsuffix s2 tens hsplit
    have hall : (item :: rest).filter (fun q => (splitPrefix q.1).map Prod.fst = some s2) =
        item :: rest := by
      rw [List.filter_eq_self]
      intro q hq
      obtain ⟨t, ht⟩ := hbase q (hsame.mem_iff.mp hq)
      simp [ht]
    rw [termSum_baseTerms, hall, (hsame.map Prod.snd).sum_eq, hzero]

end Orders

structure MapRight (m terms : List (List Char × Int32)) : Prop where
  noZeros : NoZeros m
  sums : ∀ unit, termSum unit m = termSum unit terms

/-- What is left of the source without the part of the destination that has no prefixes. -/
def leftTerms (destBlocks srcBlocks : List UnitBlock) : List (List Char × Int32) :=
  canonicalTerms (srcBlocks.map UnitBlock.term ++ negTerms (simpleTerms destBlocks))

/-- The tables are right, and matching comes to what is meant, in every order. -/
def UnitsRight (dest src : List Char) (destBlocks srcBlocks : List UnitBlock) : Prop :=
  ∀ addr : List Char → Nat, Function.Injective addr → ∃ destUnits srcUnits,
    convertPrefixUnits addr dest = .ok destUnits ∧ convertUnits addr src = .ok srcUnits ∧
    MapRight destUnits.blocksSimple (simpleTerms destBlocks) ∧
    MapRight destUnits.blocksPrefix (prefixTerms destBlocks) ∧
    destUnits.totalPrefix = writtenPrefix destBlocks ∧
    MapRight srcUnits (srcBlocks.map UnitBlock.term) ∧
    ∀ power, matchUnits addr (some destUnits) (some srcUnits) = some power ↔
      UnitsAgreeBy (prefixTerms destBlocks) (leftTerms destBlocks srcBlocks)
        (writtenPrefix destBlocks) power

structure UnitsMeet (destBlocks srcBlocks : List UnitBlock) : Prop where
  simple : ∀ unit, ¬LoneZero (coefficients unit (simpleTerms destBlocks))
  prefixed : ∀ unit, ¬LoneZero (coefficients unit (prefixTerms destBlocks))
  source : ∀ unit, ¬LoneZero (coefficients unit (srcBlocks.map UnitBlock.term))
  cancel : ∀ power, UnitsAgreeBy (prefixTerms destBlocks) (leftTerms destBlocks srcBlocks)
      (writtenPrefix destBlocks) power →
    NoSumCancels (splitItems (prefixTerms destBlocks) (leftTerms destBlocks srcBlocks))

/-- The exponents and the total prefix of the one minus those of the other. -/
structure DividesRight (nom denom units : PrefixUnitsExponent) : Prop where
  simple : ∀ u, termSum u units.blocksSimple = termSum u nom.blocksSimple - termSum u denom.blocksSimple
  prefixed : ∀ u, termSum u units.blocksPrefix =
    termSum u nom.blocksPrefix - termSum u denom.blocksPrefix
  total : units.totalPrefix = nom.totalPrefix - denom.totalPrefix

section Right

variable {addr : List Char → Nat} {destBlocks srcBlocks : List UnitBlock} {dest src : List Char}

theorem termSum_mult (mult : Int32) (u : List Char) (m : UnitExponentMap) :
    termSum u (m.map fun item => (item.1, mult * item.2)) = mult * termSum u m := by
  induction m with
  | nil => exact (Int32.mul_zero ..).symm
  | cons item m ih =>
    rw [List.map_cons, termSum, termSum, ih]
    split
    · grind
    · rfl

theorem termSum_insertBlocks (haddr : Function.Injective addr) (u : List Char)
    (m m' : UnitExponentMap) (mult : Int32) :
    termSum u (insertBlocksExpMult addr m m' mult) = termSum u m + mult * termSum u m' := by
  rw [insertBlocksExpMult, termSum_addTerms haddr, termSum_mult]

theorem divideUnits_right (haddr : Function.Injective addr)
    (nom denom : Option PrefixUnitsExponent) :
    (divideUnits addr nom denom).isSome = (nom.isSome || denom.isSome) ∧
      ∀ units, divideUnits addr nom denom = some units →
        DividesRight (nom.getD ⟨[], [], 0⟩) (denom.getD ⟨[], [], 0⟩) units := by
  have hnil : ∀ u, termSum u ([] : UnitExponentMap) = 0 := fun _ => rfl
  cases nom with
  | none =>
    cases denom with
    | none => exact ⟨rfl, nofun⟩
    | some denom =>
      refine ⟨rfl, ?_⟩
      rintro units ⟨⟩
      simp only [Option.getD_none, Option.getD_some, insertMult]
      refine ⟨fun u => ?_, fun u => ?_, ?_⟩
      · rw [termSum_insertBlocks haddr, hnil]
        grind
      · rw [termSum_insertBlocks haddr, hnil]
        grind
      · grind
  | some nom =>
    cases denom with
    | none =>
      refine ⟨rfl, ?_⟩
      rintro units ⟨⟩
      simp only [Option.getD_none, Option.getD_some, insertMult]
      refine ⟨fun u => ?_, fun u => ?_, ?_⟩
      · rw [termSum_insertBlocks haddr, hnil]
        grind
      · rw [termSum_insertBlocks haddr, hnil]
        grind
      · grind
    | some denom =>
      refine ⟨rfl, ?_⟩
      rintro units ⟨⟩
      simp only [Option.getD_some, insertMult]
      refine ⟨fun u => ?_, fun u => ?_, ?_⟩
      · rw [termSum_insertBlocks haddr, termSum_insertBlocks haddr, hnil]
        grind
      · rw [termSum_insertBlocks haddr, termSum_insertBlocks haddr, hnil]
        grind
      · grind

theorem mapRight_iff (haddr : Function.Injective addr) (terms : List (List Char × Int32)) :
    MapRight (addTerms addr [] terms) terms ↔ ∀ u, ¬LoneZero (coefficients u terms) := by
  rw [← noZeros_addTerms_iff haddr]
  refine ⟨fun h => h.noZeros, fun h => ⟨h, fun u => ?_⟩⟩
  rw [termSum_addTerms haddr, termSum, zero_add]

theorem termSum_neg (u : List Char) (terms : List (List Char × Int32)) :
    termSum u (negTerms terms) = -termSum u terms := by
  induction terms with
  | nil => exact Int32.neg_zero.symm
  | cons p terms ih =>
    rw [negTerms, List.map_cons, termSum, termSum, ← negTerms, ih]
    split
    · grind
    · rfl

theorem left_perm (haddr : Function.Injective addr)
    (hsimple : MapRight (addTerms addr [] (simpleTerms destBlocks)) (simpleTerms destBlocks))
    (hsource : MapRight (addTerms addr [] (srcBlocks.map UnitBlock.term))
      (srcBlocks.map UnitBlock.term)) :
    Ranked addr (addTerms addr (addTerms addr [] (srcBlocks.map UnitBlock.term))
        (negTerms (addTerms addr [] (simpleTerms destBlocks)))) ∧
      (addTerms addr (addTerms addr [] (srcBlocks.map UnitBlock.term))
        (negTerms (addTerms addr [] (simpleTerms destBlocks)))).Perm
        (leftTerms destBlocks srcBlocks) := by
  have hempty : Ranked addr ([] : UnitExponentMap) := List.Pairwise.nil
  have hranked := (hempty.addTerms (srcBlocks.map UnitBlock.term)).addTerms
    (negTerms (addTerms addr [] (simpleTerms destBlocks)))
  have hsum : ∀ u, termSum u (addTerms addr (addTerms addr [] (srcBlocks.map UnitBlock.term))
      (negTerms (addTerms addr [] (simpleTerms destBlocks)))) =
      termSum u (srcBlocks.map UnitBlock.term ++ negTerms (simpleTerms destBlocks)) := by
    intro u
    rw [termSum_addTerms haddr, hsource.sums, termSum_append, termSum_neg, termSum_neg, hsimple.sums]
  refine ⟨hranked, hranked.perm_canonicalTerms (hsource.noZeros.addTerms ?_) fun u => ?_⟩
  · intro p hp
    obtain ⟨item, hitem, rfl⟩ := List.mem_map.mp hp
    exact neg_ne_zero (hsimple.noZeros item hitem)
  · convert hsum u

theorem match_read_iff (haddr : Function.Injective addr)
    (hsimple : MapRight (addTerms addr [] (simpleTerms destBlocks)) (simpleTerms destBlocks))
    (hmarked : MapRight (addTerms addr [] (prefixTerms destBlocks)) (prefixTerms destBlocks))
    (hsource : MapRight (addTerms addr [] (srcBlocks.map UnitBlock.term))
      (srcBlocks.map UnitBlock.term)) :
    ∃ items, items.Perm (splitItems (prefixTerms destBlocks) (leftTerms destBlocks srcBlocks)) ∧
      Ranked addr items ∧
      ∀ power, matchUnits addr (some ⟨addTerms addr [] (simpleTerms destBlocks),
          addTerms addr [] (prefixTerms destBlocks), writtenPrefix destBlocks⟩)
          (some (addTerms addr [] (srcBlocks.map UnitBlock.term))) = some power ↔
        UnitsAgreeBy (prefixTerms destBlocks) (leftTerms destBlocks srcBlocks)
          (writtenPrefix destBlocks) power ∧ Uncancelled items := by
  have hempty : Ranked addr ([] : UnitExponentMap) := List.Pairwise.nil
  obtain ⟨hranked, hperm⟩ := left_perm haddr hsimple hsource
  have hsplit : splitItems (addTerms addr [] (prefixTerms destBlocks)) =
      splitItems (prefixTerms destBlocks) := by
    funext left
    unfold splitItems
    simp only [hmarked.sums]
  refine ⟨_, hperm.filter _, hranked.filter _, fun power => ?_⟩
  rw [matchUnits_iff haddr (hempty.addTerms _) hmarked.noZeros hsimple.noZeros
    (hempty.addTerms _) hsource.noZeros, hsplit]
  refine and_congr_left fun _ => ⟨fun h => h.congr hmarked.sums hperm, fun h => ?_⟩
  exact h.congr (fun u => (hmarked.sums u).symm) hperm.symm

theorem UnitsRight.meet (h : UnitsRight dest src destBlocks srcBlocks)
    (hd : writtenBlocks true dest = .ok destBlocks) (hs : writtenBlocks false src = .ok srcBlocks) :
    UnitsMeet destBlocks srcBlocks := by
  have hread : ∀ addr, Function.Injective addr →
      MapRight (addTerms addr [] (simpleTerms destBlocks)) (simpleTerms destBlocks) ∧
      MapRight (addTerms addr [] (prefixTerms destBlocks)) (prefixTerms destBlocks) ∧
      MapRight (addTerms addr [] (srcBlocks.map UnitBlock.term)) (srcBlocks.map UnitBlock.term) ∧
      ∀ power, matchUnits addr (some ⟨addTerms addr [] (simpleTerms destBlocks),
          addTerms addr [] (prefixTerms destBlocks), writtenPrefix destBlocks⟩)
          (some (addTerms addr [] (srcBlocks.map UnitBlock.term))) = some power ↔
        UnitsAgreeBy (prefixTerms destBlocks) (leftTerms destBlocks srcBlocks)
          (writtenPrefix destBlocks) power := by
    intro addr haddr
    obtain ⟨d, s, hdest, hsrc, h1, h2, -, h3, h4⟩ := h addr haddr
    rw [convertPrefixUnits_eq hd] at hdest
    rw [convertUnits_eq hs] at hsrc
    cases hdest
    cases hsrc
    exact ⟨h1, h2, h3, h4⟩
  obtain ⟨code, hcode⟩ := exists_code
  obtain ⟨h1, h2, h3, -⟩ := hread code hcode
  refine ⟨(mapRight_iff hcode _).mp h1, (mapRight_iff hcode _).mp h2,
    (mapRight_iff hcode _).mp h3, fun power hagree => ?_⟩
  refine noSumCancels_of_orders ?_ fun addr haddr => ?_
  · refine (List.pairwise_map.mpr ?_).sublist (List.filter_sublist.map _)
    exact (canonicalTerms_pairwise _).imp fun hlt => hlt.ne
  · obtain ⟨h1, h2, h3, h4⟩ := hread addr haddr
    obtain ⟨items, hperm, hranked, hiff⟩ := match_read_iff haddr h1 h2 h3
    exact ⟨items, hperm, hranked, ((hiff power).mp ((h4 power).mpr hagree)).2⟩

theorem unit_matching_right_iff (dest src : List Char) (destBlocks srcBlocks : List UnitBlock)
    (hd : writtenBlocks true dest = .ok destBlocks)
    (hs : writtenBlocks false src = .ok srcBlocks) :
    (∀ addr, Function.Injective addr → ∀ nom denom,
      (divideUnits addr nom denom).isSome = (nom.isSome || denom.isSome) ∧
      ∀ units, divideUnits addr nom denom = some units →
        DividesRight (nom.getD ⟨[], [], 0⟩) (denom.getD ⟨[], [], 0⟩) units) ∧
    (UnitsRight dest src destBlocks srcBlocks ↔ UnitsMeet destBlocks srcBlocks) := by
  refine ⟨fun addr haddr => divideUnits_right haddr, ?_⟩
  refine ⟨fun h => h.meet hd hs, fun h addr haddr => ?_⟩
  have hsimple := (mapRight_iff haddr _).mpr h.simple
  have hmarked := (mapRight_iff haddr _).mpr h.prefixed
  have hsource := (mapRight_iff haddr _).mpr h.source
  obtain ⟨items, hperm, -, hiff⟩ := match_read_iff haddr hsimple hmarked hsource
  refine ⟨_, _, convertPrefixUnits_eq hd, convertUnits_eq hs, hsimple, hmarked, rfl, hsource,
    fun power => ?_⟩
  rw [hiff power, and_iff_left_iff_imp]
  exact fun hagree => uncancelled_of_perm (h.cancel power hagree) hperm

theorem unit_matching_right_two :
    UnitsRight "#cm/s".toList "km/s".toList
      [⟨some (-2), ['m'], 1⟩, ⟨none, ['s'], -1⟩]
      [⟨none, ['k', 'm'], 1⟩, ⟨none, ['s'], -1⟩] := by
  refine (unit_matching_right_iff _ _ _ _ rfl rfl).2.mpr ⟨?_, ?_, ?_, fun _ _ => ?_⟩
  · exact fun unit => not_loneZero fun c hc => by
      obtain ⟨p, hp, rfl⟩ := List.mem_map.mp hc
      exact (show ∀ q ∈ simpleTerms _, q.2 ≠ 0 by decide) p (List.mem_filter.mp hp).1
  · exact fun unit => not_loneZero fun c hc => by
      obtain ⟨p, hp, rfl⟩ := List.mem_map.mp hc
      exact (show ∀ q ∈ prefixTerms _, q.2 ≠ 0 by decide) p (List.mem_filter.mp hp).1
  · exact fun unit => not_loneZero fun c hc => by
      obtain ⟨p, hp, rfl⟩ := List.mem_map.mp hc
      exact (show ∀ q ∈ List.map UnitBlock.term _, q.2 ≠ 0 by decide) p (List.mem_filter.mp hp).1
  · have hleft : splitItems (prefixTerms [⟨some (-2), ['m'], 1⟩, ⟨none, ['s'], -1⟩])
        (leftTerms [⟨some (-2), ['m'], 1⟩, ⟨none, ['s'], -1⟩]
          [⟨none, ['k', 'm'], 1⟩, ⟨none, ['s'], -1⟩]) = [(['k', 'm'], 1)] := by decide
    rw [hleft]
    intro l hl hne s2 _
    rcases List.sublist_singleton.mp hl with rfl | rfl
    · exact absurd rfl hne
    · decide

theorem cancelled_metre :
    ¬ ∀ dest src destBlocks srcBlocks, writtenBlocks true dest = .ok destBlocks →
      writtenBlocks false src = .ok srcBlocks → UnitsRight dest src destBlocks srcBlocks := by
  intro h
  have hmeet := (h "##m".toList "m*km/mm".toList [⟨some 0, ['m'], 1⟩]
    [⟨none, ['m'], 1⟩, ⟨none, ['k', 'm'], 1⟩, ⟨none, ['m', 'm'], -1⟩] rfl rfl).meet rfl rfl
  have hleft : leftTerms [⟨some 0, ['m'], 1⟩]
      [⟨none, ['m'], 1⟩, ⟨none, ['k', 'm'], 1⟩, ⟨none, ['m', 'm'], -1⟩] =
      [(['k', 'm'], 1), (['m'], 1), (['m', 'm'], -1)] := by decide
  have hcancel := hmeet.cancel 6
  rw [hleft] at hcancel
  refine hcancel ⟨?_, ?_, by decide⟩ [(['k', 'm'], 1), (['m', 'm'], -1)] (by decide) (by decide)
    ['m'] ?_ (by decide)
  · intro item hitem
    have hsplit : ∀ q ∈ splitItems (prefixTerms [⟨some 0, ['m'], 1⟩])
        [(['k', 'm'], 1), (['m'], 1), (['m', 'm'], -1)],
        (splitPrefix q.1).map Prod.fst = some ['m'] := by decide
    obtain ⟨r, hr, hbase⟩ := Option.map_eq_some_iff.mp (hsplit item hitem)
    exact ⟨r.1, r.2, hr, by rw [hbase]; decide⟩
  · intro unit
    by_cases hunit : ['m'] = unit
    · subst hunit
      decide
    · simp [prefixTerms, wholeItems, splitItems, baseTerms, splitPrefix, getUnitPrefix, termSum,
        UnitBlock.term, hunit]
  · intro item hitem
    have hsplit : ∀ q ∈ [((['k', 'm'] : List Char), (1 : Int32)), (['m', 'm'], -1)],
        (splitPrefix q.1).map Prod.fst = some ['m'] := by decide
    obtain ⟨r, hr, hbase⟩ := Option.map_eq_some_iff.mp (hsplit item hitem)
    exact ⟨r.2, by rw [hr, ← hbase]⟩

end Right

end Ucesb
