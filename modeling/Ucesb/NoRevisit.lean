import Ucesb.QuickTree

namespace Ucesb

structure SeveralItem where
  candidate : Candidate
  noRevisit : Bool

/-- A `select several` statement. Where it is not the last item of the subevent, a match of the
optimised matcher is checked by `CHECK_SPURIOUS_MATCH_DECL`. -/
structure SelectSeveral where
  items : List SeveralItem
  lastSubeventItem : Bool

namespace SelectSeveral

variable (s : SelectSeveral)

/-- The candidates for the optimised matcher; without them the items are tested one by one. -/
def infos : Option (WordSize × List MatchInfo) :=
  selectInfos (s.items.map SeveralItem.candidate)

def noRevisit (n : Nat) : Bool :=
  match n with
  | 0 => false
  | i + 1 => (s.items[i]?).any SeveralItem.noRevisit

/-- `index_check_visit`: how many of the items before have the check. -/
def visitIndex (n : Nat) : Nat := (s.items.take (n - 1)).countP SeveralItem.noRevisit

/-- `num_check_visit`, the size of the visit array. -/
def numCheckVisit : Nat := s.items.countP SeveralItem.noRevisit

end SelectSeveral

/-- Where the unpacking of an item is called: at a leaf of the tree, or in the switch. -/
inductive SelectDispatch
  | leaf (n : Nat)
  | switch (r : SelectResult)
deriving DecidableEq

def MatchTree.dispatch (peek : Nat) (test : Nat → Option Bool) : MatchTree → SelectDispatch
  | .single n => .leaf n
  | .test b one zero =>
    if peek.testBit b then one.dispatch peek test else zero.dispatch peek test
  | .full entries => .switch ((MatchTree.full entries).run peek test)

def Matcher.dispatch (peek : Nat) (test : Nat → Option Bool) : Matcher → SelectDispatch
  | .table bits entries ambiguous => .switch ((Matcher.table bits entries ambiguous).run peek test)
  | .tree t => t.dispatch peek test

/-- One turn of the loop: the next word, the results of the tests of the items there, and whether
the unpacking of an item goes well. -/
structure SeveralRound where
  peek : Option Nat
  test : Nat → Option Bool
  unpacks : Nat → Bool

/-- How the loop is left. -/
inductive SeveralEnd
  | emptied
  | noMatch
  | spurious
  | failed
  | duplicate (n : Nat)
deriving DecidableEq

namespace SelectSeveral

variable (s : SelectSeveral)

/-- The matcher that is generated, if any; the outer `none` where the generator gives nothing. -/
def matcher : Option (Option Matcher) :=
  match s.infos with
  | none => some none
  | some (size, infos) => (genOptimizedMatch size infos).map some

def dispatch (m : Option Matcher) (r : SeveralRound) : SelectDispatch :=
  match m with
  | none => .switch (selectTests ((List.range s.items.length).map fun i => (i + 1, r.test (i + 1))))
  | some m =>
    match r.peek with
    | none => .switch .raised
    | some w => m.dispatch w r.test

/-- `CHECK_SPURIOUS_MATCH_DECL`, where there is a label to go to. -/
def checkSpurious (m : Option Matcher) (r : SeveralRound) (n : Nat) : Option SeveralEnd :=
  if m.isNone || s.lastSubeventItem then none
  else
    match r.test n with
    | some true => none
    | some false => some .spurious
    | none => some .failed

/-- `UNPACK_DECL`, and what comes after it. -/
def unpackDecl (r : SeveralRound) (n : Nat) (rest : List Nat × SeveralEnd) :
    List Nat × SeveralEnd :=
  if r.unpacks n then (n :: rest.1, rest.2) else ([n], .failed)

/-- The loop, with the visit array: the items that occur, and how it ends. At a leaf of the tree
there is no `UNPACK_CHECK_NO_REVISIT`. -/
def loop (m : Option Matcher) : List Nat → List SeveralRound → List Nat × SeveralEnd
  | _, [] => ([], .emptied)
  | visited, r :: rounds =>
    match s.dispatch m r with
    | .leaf n =>
      match s.checkSpurious m r n with
      | some e => ([], e)
      | none => unpackDecl r n (loop m visited rounds)
    | .switch (.number n) =>
      if n = 0 then ([], .noMatch)
      else
        match s.checkSpurious m r n with
        | some e => ([], e)
        | none =>
          if s.noRevisit n then
            if s.visitIndex n ∈ visited then ([n], .duplicate n)
            else unpackDecl r n (loop m (s.visitIndex n :: visited) rounds)
          else unpackDecl r n (loop m visited rounds)
    | .switch _ => ([], .failed)

def Consistent (r : SeveralRound) : Prop :=
  ∀ size infos w, s.infos = some (size, infos) → r.peek = some w → TestedInfos infos r.test w

/-- A second occurrence ends the loop as a duplicate, and nothing else does. -/
structure ReportsDuplicates (seen : List Nat) (r : List Nat × SeveralEnd) : Prop where
  reported : ∀ before n after, r.1 = before ++ n :: after → s.noRevisit n = true →
    n ∈ seen ++ before → after = [] ∧ r.2 = .duplicate n
  repeated : ∀ n, r.2 = .duplicate n →
    ∃ before, r.1 = before ++ [n] ∧ n ∈ seen ++ before ∧ s.noRevisit n = true

/-- The items that may not come twice have places of their own in the visit array. -/
def DistinctVisits : Prop :=
  (∀ n, s.noRevisit n = true → s.visitIndex n < s.numCheckVisit) ∧
    ∀ m n, s.noRevisit m = true → s.noRevisit n = true → s.visitIndex m = s.visitIndex n → m = n

def Enforces (m : Option Matcher) : Prop :=
  s.DistinctVisits ∧ ∀ rounds : List SeveralRound, (∀ r ∈ rounds, s.Consistent r) →
    s.ReportsDuplicates [] (s.loop m [] rounds)

end SelectSeveral

section Visits

variable {s : SelectSeveral} {m n : Nat}

theorem noRevisit_item (h : s.noRevisit n = true) :
    ∃ item, 0 < n ∧ s.items[n - 1]? = some item ∧ item.noRevisit = true := by
  cases n with
  | zero => cases h
  | succ i =>
    unfold SelectSeveral.noRevisit at h
    dsimp only at h
    cases hitem : s.items[i]? with
    | none =>
      rw [hitem] at h
      cases h
    | some item =>
      rw [hitem] at h
      exact ⟨item, Nat.succ_pos i, hitem, h⟩

theorem countP_take_item (h : s.noRevisit n = true) :
    (s.items.take n).countP SeveralItem.noRevisit = s.visitIndex n + 1 := by
  obtain ⟨item, hpos, hitem, hno⟩ := noRevisit_item h
  obtain ⟨i, rfl⟩ : ∃ i, n = i + 1 := ⟨n - 1, by omega⟩
  rw [Nat.add_sub_cancel] at hitem
  rw [List.take_add_one, hitem, List.countP_append, SelectSeveral.visitIndex, Nat.add_sub_cancel]
  simp [hno]

theorem visitIndex_lt (hlt : m < n) (h : s.noRevisit m = true) :
    s.visitIndex m < s.visitIndex n := by
  have hitem := countP_take_item h
  have hle : (s.items.take m).countP SeveralItem.noRevisit ≤ s.visitIndex n :=
    (List.take_sublist_take_left (by omega)).countP_le
  omega

theorem distinct_visits (s : SelectSeveral) : s.DistinctVisits := by
  refine ⟨?_, ?_⟩
  · intro n hn
    have hitem := countP_take_item hn
    have hle : (s.items.take n).countP SeveralItem.noRevisit ≤ s.numCheckVisit :=
      (List.take_sublist _ _).countP_le
    omega
  · intro m n hm hn heq
    by_contra hne
    rcases Nat.lt_or_gt_of_ne hne with hlt | hlt
    · have := visitIndex_lt hlt hm
      omega
    · have := visitIndex_lt hlt hn
      omega

end Visits

section Loop

variable {s : SelectSeveral} {seen visited : List Nat} {m : Option Matcher}

theorem reports_none {e : SeveralEnd} (he : ∀ n, e ≠ .duplicate n) :
    s.ReportsDuplicates seen ([], e) := by
  refine ⟨?_, ?_⟩
  · intro before n after h
    simp at h
  · intro n h
    exact absurd h (he n)

theorem reports_unpack {r : SeveralRound} {n : Nat} {rest : List Nat × SeveralEnd}
    (hfirst : s.noRevisit n = true → n ∉ seen) (hrest : s.ReportsDuplicates (seen ++ [n]) rest) :
    s.ReportsDuplicates seen (SelectSeveral.unpackDecl r n rest) := by
  unfold SelectSeveral.unpackDecl
  split
  · refine ⟨?_, ?_⟩
    · intro before k after h hk hmem
      cases before with
      | nil =>
        obtain ⟨rfl, -⟩ := List.cons.inj h
        rw [List.append_nil] at hmem
        exact absurd hmem (hfirst hk)
      | cons b before =>
        obtain ⟨rfl, htail⟩ := List.cons.inj h
        refine hrest.reported before k after htail hk ?_
        simpa using hmem
    · intro k hk
      obtain ⟨before, hocc, hmem, hno⟩ := hrest.repeated k hk
      refine ⟨n :: before, ?_, by simpa using hmem, hno⟩
      show n :: rest.1 = _
      rw [hocc, List.cons_append]
  · refine ⟨?_, ?_⟩
    · intro before k after h hk hmem
      cases before with
      | nil =>
        obtain ⟨rfl, -⟩ := List.cons.inj h
        rw [List.append_nil] at hmem
        exact absurd hmem (hfirst hk)
      | cons b before =>
        obtain ⟨-, htail⟩ := List.cons.inj h
        simp at htail
    · intro k hk
      cases hk

theorem checkSpurious_not_duplicate {r : SeveralRound} {n k : Nat} {e : SeveralEnd}
    (h : s.checkSpurious m r n = some e) : e ≠ .duplicate k := by
  unfold SelectSeveral.checkSpurious at h
  split at h
  · cases h
  · split at h
    · cases h
    · cases h
      simp
    · cases h
      simp

def Visited (s : SelectSeveral) (visited seen : List Nat) : Prop :=
  ∀ n, s.noRevisit n = true → (s.visitIndex n ∈ visited ↔ n ∈ seen)

theorem Visited.mark {n : Nat} (h : Visited s visited seen) (hn : s.noRevisit n = true) :
    Visited s (s.visitIndex n :: visited) (seen ++ [n]) := by
  intro k hk
  rw [List.mem_cons, List.mem_append, List.mem_singleton, h k hk]
  constructor
  · rintro (heq | hmem)
    · exact .inr ((distinct_visits s).2 k n hk hn heq)
    · exact .inl hmem
  · rintro (hmem | rfl)
    · exact .inr hmem
    · exact .inl rfl

theorem Visited.skip {n : Nat} (h : Visited s visited seen) (hn : s.noRevisit n = false) :
    Visited s visited (seen ++ [n]) := by
  intro k hk
  rw [List.mem_append, List.mem_singleton, h k hk, or_iff_left]
  rintro rfl
  rw [hn] at hk
  cases hk

theorem loop_reports {rounds : List SeveralRound} (hvisited : Visited s visited seen)
    (hleaf : ∀ r ∈ rounds, ∀ n, s.dispatch m r = .leaf n → s.noRevisit n = false) :
    s.ReportsDuplicates seen (s.loop m visited rounds) := by
  induction rounds generalizing visited seen with
  | nil => exact reports_none (by simp)
  | cons r rounds ih =>
    have hrest : ∀ r ∈ rounds, ∀ n, s.dispatch m r = .leaf n → s.noRevisit n = false :=
      fun r hr => hleaf r (List.mem_cons_of_mem _ hr)
    unfold SelectSeveral.loop
    split
    · next n hd =>
      have hno := hleaf r (List.mem_cons_self ..) n hd
      split
      · next e he => exact reports_none fun k => checkSpurious_not_duplicate he
      · refine reports_unpack (fun h => ?_) (ih (hvisited.skip hno) hrest)
        rw [hno] at h
        cases h
    · next n hd =>
      split
      · exact reports_none (by simp)
      · split
        · next e he => exact reports_none fun k => checkSpurious_not_duplicate he
        · split
          · next hno =>
            split
            · next hmem =>
              have hseen := (hvisited n hno).mp hmem
              refine ⟨?_, ?_⟩
              · intro before k after h hk hin
                cases before with
                | nil =>
                  obtain ⟨rfl, rfl⟩ := List.cons.inj h
                  exact ⟨rfl, rfl⟩
                | cons b before =>
                  obtain ⟨-, htail⟩ := List.cons.inj h
                  simp at htail
              · intro k hk
                cases hk
                exact ⟨[], rfl, by simpa using hseen, hno⟩
            · next hmem =>
              refine reports_unpack (fun _ hin => hmem ((hvisited n hno).mpr hin)) ?_
              exact ih (hvisited.mark hno) hrest
          · next hno =>
            have hno := Bool.eq_false_iff.mpr hno
            refine reports_unpack (fun h => ?_) (ih (hvisited.skip hno) hrest)
            rw [hno] at h
            cases h
    · exact reports_none (by simp)

end Loop

/-- The sets of candidates that the tests of a word lead to. -/
inductive QuickPath (size : WordSize) (w : Nat) (infos : List MatchInfo) : List MatchInfo → Prop
  | all : QuickPath size w infos infos
  | side {s : List MatchInfo} {b : Nat} (reached : QuickPath size w infos s) (many : 3 < s.length)
      (bit : selectBit size s = some b)
      (less : (selInfos s b (w.testBit b)).length < s.length) :
      QuickPath size w infos (selInfos s b (w.testBit b))

section Path

variable {size : WordSize} {w w' : Nat} {infos s u : List MatchInfo} {info : MatchInfo}

theorem QuickPath.head (h : QuickPath size w s u) :
    u = s ∨ ∃ b, 3 < s.length ∧ selectBit size s = some b ∧
      (selInfos s b (w.testBit b)).length < s.length ∧
      QuickPath size w (selInfos s b (w.testBit b)) u := by
  induction h with
  | all => exact .inl rfl
  | side _ many bit less ih =>
    right
    rcases ih with rfl | ⟨b', hmany, hbit, hless, hrest⟩
    · exact ⟨_, many, bit, less, .all⟩
    · exact ⟨b', hmany, hbit, hless, .side hrest many bit less⟩

theorem QuickPath.trans (hu : QuickPath size w s u) (hs : QuickPath size w infos s) :
    QuickPath size w infos u := by
  induction hu with
  | all => exact hs
  | side _ many bit less ih => exact .side ih many bit less

theorem QuickPath.subset (h : QuickPath size w infos s) : s ⊆ infos := by
  induction h with
  | all => exact List.Subset.refl _
  | side _ _ _ _ ih =>
    intro x hx
    exact ih (List.mem_filter.mp hx).1

theorem QuickPath.adapt (h : QuickPath size w infos s) (hinfo : info ∈ s)
    (hfixed : ∀ b, info.mask.testBit b = true → w'.testBit b = info.value.testBit b)
    (hother : ∀ b, info.mask.testBit b = false → w'.testBit b = w.testBit b) :
    QuickPath size w' infos s := by
  induction h with
  | all => exact .all
  | @side s b _ many bit less ih =>
    obtain ⟨hmem, hcompat⟩ := List.mem_filter.mp hinfo
    have hsame : w'.testBit b = w.testBit b := by
      cases hm : info.mask.testBit b with
      | false => exact hother b hm
      | true =>
        rw [hfixed b hm]
        simpa [hm] using hcompat
    have hw := ih hmem
    rw [← hsame] at less ⊢
    exact .side hw many bit less

theorem fullMatch_dispatch {n : Nat} {t : MatchTree} {test : Nat → Option Bool}
    (h : fullMatch s = some t) : t.dispatch w test ≠ .leaf n := by
  unfold fullMatch at h
  split at h
  · cases h
  · cases h
    simp [MatchTree.dispatch]

theorem dispatch_leaf {fuel n : Nat} {t : MatchTree} (test : Nat → Option Bool)
    (h : genMatchDeclQuick size fuel s = some t) :
    t.dispatch w test = .leaf n ↔ ∃ info, QuickPath size w s [info] ∧ info.index = n := by
  induction fuel generalizing s t with
  | zero => cases h
  | succ fuel ih =>
    obtain ⟨less, hless, ⟨only, rfl, rfl⟩ | ⟨hlen, hstop, hfull⟩ |
      ⟨b, one, zero, hmany, hbit, rfl, hside⟩⟩ := genMatchDeclQuick_cases h
    · simp only [MatchTree.dispatch, SelectDispatch.leaf.injEq]
      constructor
      · rintro rfl
        exact ⟨only, .all, rfl⟩
      · rintro ⟨info, hpath, rfl⟩
        rcases hpath.head with heq | ⟨b, hmany, -⟩
        · rw [(List.cons.inj heq).1]
        · simp at hmany
    · have hswitch : t.dispatch w test ≠ .leaf n := fullMatch_dispatch hfull
      refine iff_of_false hswitch ?_
      rintro ⟨info, hpath, -⟩
      rcases hpath.head with rfl | ⟨b, hmany, hbit, -⟩
      · exact hlen rfl
      · rcases hstop with hnone | hfew
        · rw [hnone] at hbit
          cases hbit
        · omega
    · cases Nat.succ.inj hless
      have hgo : (MatchTree.test b one zero).dispatch w test =
          (if w.testBit b = true then one else zero).dispatch w test := by
        rw [MatchTree.dispatch]
        split
        · rfl
        · rfl
      have hv := hside (w.testBit b)
      rw [hgo]
      split at hv
      · next hall =>
        refine iff_of_false (fullMatch_dispatch hv) ?_
        rintro ⟨info, hpath, -⟩
        rcases hpath.head with rfl | ⟨b', -, hbit', hlt, -⟩
        · simp at hmany
        · cases hbit.symm.trans hbit'
          omega
      · next hless' =>
        rw [ih hv]
        constructor
        · rintro ⟨info, hpath, hn⟩
          exact ⟨info, hpath.trans (.side .all hmany hbit (by omega)), hn⟩
        · rintro ⟨info, hpath, hn⟩
          rcases hpath.head with rfl | ⟨b', -, hbit', -, hrest⟩
          · simp at hmany
          · cases hbit.symm.trans hbit'
            exact ⟨info, hrest, hn⟩

end Path

section Bits

variable {args : List (String × Variable)} {mask value : Nat}

theorem BitsCondition.getMatch_within (c : BitsCondition) (i : Nat)
    (h : (c.getMatch args).2.testBit i = true) : (c.getMatch args).1.testBit i = true := by
  cases c with
  | check x =>
    cases hx : x.eval args with
    | none => simp [BitsCondition.getMatch, hx] at h
    | some v =>
      simp only [BitsCondition.getMatch, hx, numBitsMask_testBit, decide_eq_true_eq] at h ⊢
      by_contra hge
      rw [Nat.testBit_lt_two_pow (Nat.lt_of_lt_of_le v.isLt
        (Nat.pow_le_pow_right (by decide) (Nat.not_lt.mp hge)))] at h
      cases h
  | range low high =>
    cases hlow : low.eval args with
    | none => simp [BitsCondition.getMatch, hlow] at h
    | some min =>
      cases hhigh : high.eval args with
      | none => simp [BitsCondition.getMatch, hlow, hhigh] at h
      | some max =>
        simp only [BitsCondition.getMatch, hlow, hhigh, Nat.testBit_and, Bool.and_eq_true] at h ⊢
        exact h.2
  | checkCount a b c d => simp [BitsCondition.getMatch] at h

theorem BitsSpec.getMatch_within (b : BitsSpec) (i : Nat)
    (h : (b.getMatch args).2.testBit i = true) : (b.getMatch args).1.testBit i = true := by
  unfold BitsSpec.getMatch at h ⊢
  split at h
  · simp at h
  · next c hc =>
    dsimp only at h ⊢
    rw [place_testBit, Bool.and_eq_true] at h ⊢
    exact ⟨h.1, c.getMatch_within _ h.2⟩

theorem StructData.getMatchBits_within {d : StructData}
    (h : d.getMatchBits args = some (mask, value)) (i : Nat) (hi : value.testBit i = true) :
    mask.testBit i = true := by
  unfold StructData.getMatchBits at h
  split at h
  · cases h
  · split at h
    · cases h
      simp at hi
    · next bits _ =>
      cases h
      rw [foldl_or_testBit, Nat.zero_testBit, Bool.false_or, List.any_eq_true] at hi
      obtain ⟨b, hb, hv⟩ := hi
      rw [Nat.testBit_or, foldl_or_testBit, Nat.zero_testBit, Bool.false_or, Bool.or_eq_true,
        List.any_eq_true]
      exact .inl ⟨b, hb, b.getMatch_within i hv⟩

theorem selectInfos_within {size : WordSize} {items : List Candidate} {infos : List MatchInfo}
    (h : selectInfos items = some (size, infos)) {info : MatchInfo} (hinfo : info ∈ infos) (i : Nat)
    (hi : info.value.testBit i = true) : info.mask.testBit i = true := by
  obtain ⟨k, hk⟩ := List.mem_iff_getElem?.mp hinfo
  obtain ⟨-, c, -, hbits⟩ := (matchInfos_spec (selectInfos_spec h)).2 k info hk
  obtain ⟨d, -, hd⟩ := Option.bind_eq_some_iff.mp hbits
  obtain ⟨⟨mask, value⟩, hx, heq⟩ := Option.map_eq_some_iff.mp hd
  cases heq
  exact StructData.getMatchBits_within hx i hi

theorem selectInfos_nodup {size : WordSize} {items : List Candidate} {infos : List MatchInfo}
    (h : selectInfos items = some (size, infos)) : (infos.map MatchInfo.index).Nodup := by
  rw [selectInfos_index h]
  refine List.Nodup.map ?_ List.nodup_range
  intro a b hab
  simpa using hab

/-- A word with the bits that the candidate has fixed, and others as they are in a given word. -/
def MatchInfo.fill (info : MatchInfo) (w : Nat) : Nat := w ^^^ ((w ^^^ info.value) &&& info.mask)

theorem MatchInfo.fill_testBit (info : MatchInfo) (w b : Nat) : (info.fill w).testBit b =
    if info.mask.testBit b then info.value.testBit b else w.testBit b := by
  rw [MatchInfo.fill, Nat.testBit_xor, Nat.testBit_and, Nat.testBit_xor]
  cases info.mask.testBit b <;> cases info.value.testBit b <;> cases w.testBit b <;> rfl

theorem MatchInfo.fill_hit {info : MatchInfo} (w : Nat)
    (hwithin : ∀ i, info.value.testBit i = true → info.mask.testBit i = true) :
    info.hit (info.fill w) = true := by
  refine decide_eq_true ?_
  apply Nat.eq_of_testBit_eq
  intro i
  rw [Nat.testBit_and, MatchInfo.fill_testBit]
  have hi := hwithin i
  cases hm : info.mask.testBit i with
  | true => simp
  | false =>
    cases hv : info.value.testBit i with
    | true => exact absurd (hi hv) (by simp [hm])
    | false => simp

end Bits

/-- No word leads, in a tree of bit tests, to a single candidate that may not come twice. -/
def SinglesRevisit (s : SelectSeveral) : Prop :=
  ∀ size infos, s.infos = some (size, infos) →
    ¬ 2 ^ (bitsDiffer infos).length ≤ infos.length * 2 ^ 5 →
    ∀ w info, QuickPath size w infos [info] → s.noRevisit info.index = false

section Enforce

variable {s : SelectSeveral} {m : Option Matcher}

theorem matcher_cases (h : s.matcher = some m) :
    (s.infos = none ∧ m = none) ∨ ∃ size infos, s.infos = some (size, infos) ∧
      ((∃ bits entries ambiguous, m = some (.table bits entries ambiguous) ∧
        2 ^ (bitsDiffer infos).length ≤ infos.length * 2 ^ 5) ∨
      ∃ t, m = some (.tree t) ∧ ¬ 2 ^ (bitsDiffer infos).length ≤ infos.length * 2 ^ 5 ∧
        genMatchDeclQuick size infos.length infos = some t) := by
  unfold SelectSeveral.matcher at h
  split at h
  · next hnone => exact .inl ⟨hnone, (Option.some.inj h).symm⟩
  · next size infos hinfos =>
    obtain ⟨m', hm', rfl⟩ := Option.map_eq_some_iff.mp h
    refine .inr ⟨size, infos, hinfos, ?_⟩
    unfold genOptimizedMatch at hm'
    dsimp only at hm'
    split at hm'
    · cases hm'
    · split at hm'
      · next hsmall =>
        split at hm'
        · cases hm'
        · split at hm'
          · cases hm'
          · cases hm'
            exact .inl ⟨_, _, _, rfl, hsmall⟩
      · next hlarge =>
        obtain ⟨t, ht, rfl⟩ := Option.map_eq_some_iff.mp hm'
        exact .inr ⟨t, rfl, hlarge, ht⟩

theorem dispatch_leaf_revisit (h : s.matcher = some m) (hsingle : SinglesRevisit s)
    (r : SeveralRound) (n : Nat) (hleaf : s.dispatch m r = .leaf n) : s.noRevisit n = false := by
  unfold SelectSeveral.dispatch at hleaf
  rcases matcher_cases h with ⟨-, rfl⟩ | ⟨size, infos, hinfos,
    ⟨bits, entries, ambiguous, rfl, -⟩ | ⟨t, rfl, hlarge, ht⟩⟩
  · cases hleaf
  · dsimp only at hleaf
    split at hleaf
    · cases hleaf
    · cases hleaf
  · dsimp only at hleaf
    split at hleaf
    · cases hleaf
    · next w _ =>
      obtain ⟨info, hpath, rfl⟩ := (dispatch_leaf r.test ht).mp hleaf
      exact hsingle size infos hinfos hlarge w info hpath

def onlyRound (w n : Nat) : SeveralRound where
  peek := some w
  test := fun k => if k = n then some true else some false
  unpacks := fun _ => true

theorem onlyRound_consistent {size : WordSize} {infos : List MatchInfo}
    (hinfos : s.infos = some (size, infos)) {info : MatchInfo} (hinfo : info ∈ infos) {w : Nat}
    (hhit : info.hit w = true) : s.Consistent (onlyRound w info.index) := by
  intro size' infos' w' hinfos' hw'
  cases hinfos.symm.trans hinfos'
  cases hw'
  refine ⟨?_, ?_, selectInfos_nodup hinfos⟩
  · intro x hx htest
    have hindex : x.index = info.index := by
      by_contra hne
      simp [onlyRound, hne] at htest
    rw [List.inj_on_of_nodup_map (selectInfos_nodup hinfos) hx hinfo hindex]
    exact hhit
  · intro x hx
    have hmem : x.index ∈ infos.map MatchInfo.index := List.mem_map_of_mem hx
    rw [selectInfos_index hinfos] at hmem
    obtain ⟨k, -, hk⟩ := List.mem_map.mp hmem
    omega

theorem loop_leaf_twice {w n : Nat} (hleaf : s.dispatch m (onlyRound w n) = .leaf n) :
    s.loop m [] [onlyRound w n, onlyRound w n] = ([n, n], .emptied) := by
  have hcheck : s.checkSpurious m (onlyRound w n) n = none := by
    unfold SelectSeveral.checkSpurious
    split
    · rfl
    · simp [onlyRound]
  simp only [SelectSeveral.loop, hleaf, hcheck, SelectSeveral.unpackDecl]
  rfl

end Enforce

/-- With the matcher that is generated, an item that may not come twice is reported when it does, for
every data sequence, if and only if no such item is alone at a leaf of the tree of bit tests that a
word gets to. -/
theorem norevisit_exact {s : SelectSeveral} {m : Option Matcher} (hgen : s.matcher = some m) :
    s.Enforces m ↔ SinglesRevisit s := by
  constructor
  · rintro ⟨-, hall⟩ size infos hinfos hlarge w info hpath
    by_contra hno
    have hno := Bool.of_not_eq_false hno
    have hmem : info ∈ infos := hpath.subset (List.mem_singleton_self _)
    have hhit := info.fill_hit w fun i hi => selectInfos_within hinfos hmem i hi
    have hpath' : QuickPath size (info.fill w) infos [info] := by
      refine hpath.adapt (List.mem_singleton_self _) ?_ ?_
      · intro b hb
        rw [info.fill_testBit, if_pos hb]
      · intro b hb
        rw [info.fill_testBit, hb]
        rfl
    have hleaf : s.dispatch m (onlyRound (info.fill w) info.index) = .leaf info.index := by
      rcases matcher_cases hgen with ⟨hnone, -⟩ | ⟨size', infos', hinfos',
        ⟨_, _, _, -, hsmall⟩ | ⟨t, rfl, -, ht⟩⟩
      · rw [hinfos] at hnone
        cases hnone
      · cases hinfos.symm.trans hinfos'
        exact absurd hsmall hlarge
      · cases hinfos.symm.trans hinfos'
        exact (dispatch_leaf _ ht).mpr ⟨info, hpath', rfl⟩
    have hcons := onlyRound_consistent hinfos hmem hhit
    have hrep := hall [onlyRound (info.fill w) info.index, onlyRound (info.fill w) info.index] (by
      intro r hr
      simp only [List.mem_cons, List.not_mem_nil, or_false, or_self] at hr
      rw [hr]
      exact hcons)
    rw [loop_leaf_twice hleaf] at hrep
    have hend := (hrep.reported [info.index] info.index [] rfl hno (by simp)).2
    cases hend
  · intro hsingle
    refine ⟨distinct_visits s, ?_⟩
    intro rounds _
    apply loop_reports
    · intro n _
      simp
    · intro r _ n hleaf
      exact dispatch_leaf_revisit hgen hsingle r n hleaf

def twoOnce : SelectSeveral := ⟨twoValues.map (⟨·, true⟩), true⟩

theorem norevisit_exact_two :
    ∃ m, twoOnce.matcher = some m ∧ (twoOnce.Enforces m ↔ SinglesRevisit twoOnce) := by
  have hsome : twoOnce.matcher.isSome = true := by
    decide +kernel
  obtain ⟨m, hm⟩ := Option.isSome_iff_exists.mp hsome
  exact ⟨m, hm, norevisit_exact hm⟩

def wordItem (value : BitVec 32) (noRevisit : Bool) : SeveralItem :=
  ⟨wordCandidate [⟨0, 31, some (.check (.const value)), word_bits_ordered⟩], noRevisit⟩

def fourWords : SelectSeveral :=
  ⟨[wordItem 0xff false, wordItem 0x100 false, wordItem 0x200 false, wordItem 0x400 true], true⟩

theorem norevisit_not_checked : ∃ m, fourWords.matcher = some m ∧ ¬ fourWords.Enforces m := by
  have hleaf : (fourWords.matcher.map fun m => fourWords.dispatch m (onlyRound 0x400 4)) =
      some (.leaf 4) := by
    decide +kernel
  have hinfos : fourWords.infos = some (.w32, [⟨1, 0xffffffff, 0xff⟩, ⟨2, 0xffffffff, 0x100⟩,
      ⟨3, 0xffffffff, 0x200⟩, ⟨4, 0xffffffff, 0x400⟩]) := by
    decide +kernel
  obtain ⟨m, hm, hleaf⟩ := Option.map_eq_some_iff.mp hleaf
  refine ⟨m, hm, ?_⟩
  rintro ⟨-, hall⟩
  have hcons : fourWords.Consistent (onlyRound 0x400 4) :=
    onlyRound_consistent hinfos (show (⟨4, 0xffffffff, 0x400⟩ : MatchInfo) ∈ _ by simp) (by decide)
  have hrep := hall [onlyRound 0x400 4, onlyRound 0x400 4] (by
    intro r hr
    simp only [List.mem_cons, List.not_mem_nil, or_false, or_self] at hr
    rw [hr]
    exact hcons)
  rw [loop_leaf_twice hleaf] at hrep
  have hend := (hrep.reported [4] 4 [] rfl (by decide) (by simp)).2
  cases hend

end Ucesb
