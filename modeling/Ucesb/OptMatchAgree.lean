import Mathlib.Data.List.Dedup
import Mathlib.Data.List.Induction
import Mathlib.Data.List.Perm.Basic
import Ucesb.OptMatchBits

namespace Ucesb

section Tests

variable {α : Type} {f : α → Nat × Option Bool} {p : α → Bool}

def selectFrom (tests : List (Nat × Option Bool)) (r : SelectResult) : SelectResult :=
  tests.foldl (fun r t => matchDecl t.1 t.2 r) r

theorem selectFrom_stop (tests : List (Nat × Option Bool)) {r : SelectResult}
    (h : ∀ m, r ≠ .number m) : selectFrom tests r = r := by
  induction tests with
  | nil => rfl
  | cons t tests ih =>
    have hsame : matchDecl t.1 t.2 r = r := by
      cases r with
      | number m => exact absurd rfl (h m)
      | _ => rfl
    change selectFrom tests (matchDecl t.1 t.2 r) = r
    rw [hsame]
    exact ih

theorem selectFrom_filter_false {l : List α} (h : ∀ a ∈ l, p a = false → (f a).2 = some false)
    (r : SelectResult) : selectFrom ((l.filter p).map f) r = selectFrom (l.map f) r := by
  induction l generalizing r with
  | nil => rfl
  | cons a l ih =>
    have hl : ∀ x ∈ l, p x = false → (f x).2 = some false :=
      fun x hx => h x (List.mem_cons_of_mem a hx)
    cases hp : p a with
    | true =>
      rw [List.filter_cons_of_pos hp]
      exact ih hl _
    | false =>
      rw [List.filter_cons_of_neg (by simp [hp])]
      have hfalse := h a List.mem_cons_self hp
      have hskip : matchDecl (f a).1 (f a).2 r = r := by
        rw [hfalse]
        cases r with
        | _ => rfl
      rw [ih hl]
      change _ = selectFrom (l.map f) (matchDecl (f a).1 (f a).2 r)
      rw [hskip]

theorem selectFrom_filter {l : List α} (h : ∀ a ∈ l, (f a).2 = some true → p a = true) (m : Nat)
    (hraised : selectFrom (l.map f) (.number m) ≠ .raised) :
    selectFrom ((l.filter p).map f) (.number m) = selectFrom (l.map f) (.number m) := by
  induction l generalizing m with
  | nil => rfl
  | cons a l ih =>
    have hl : ∀ x ∈ l, (f x).2 = some true → p x = true :=
      fun x hx => h x (List.mem_cons_of_mem a hx)
    change selectFrom (l.map f) (matchDecl (f a).1 (f a).2 (.number m)) ≠ .raised at hraised
    change _ = selectFrom (l.map f) (matchDecl (f a).1 (f a).2 (.number m))
    cases hfa : (f a).2 with
    | none =>
      rw [hfa] at hraised
      exact absurd (selectFrom_stop _ (by intro m hm; cases hm)) hraised
    | some b =>
      rw [hfa] at hraised
      cases b with
      | false =>
        have hrest := ih hl m hraised
        cases hp : p a with
        | true =>
          rw [List.filter_cons_of_pos hp]
          change selectFrom ((l.filter p).map f) (matchDecl (f a).1 (f a).2 (.number m)) = _
          rw [hfa]
          exact hrest
        | false =>
          rw [List.filter_cons_of_neg (by simp [hp])]
          exact hrest
      | true =>
        rw [List.filter_cons_of_pos (h a List.mem_cons_self hfa)]
        change selectFrom ((l.filter p).map f) (matchDecl (f a).1 (f a).2 (.number m)) = _
        rw [hfa]
        by_cases hm : m ≠ 0
        · simp only [matchDecl, if_pos hm]
          rw [selectFrom_stop _ (by intro m hm; cases hm),
            selectFrom_stop _ (by intro m hm; cases hm)]
        · simp only [matchDecl, if_neg hm] at hraised ⊢
          exact ih hl (f a).1 hraised

theorem selectFrom_none {l : List α} (hindex : ∀ a ∈ l, (f a).1 ≠ 0) {m k : Nat}
    (h : selectFrom (l.map f) (.number m) = .number k) (hk : k = 0) :
    m = 0 ∧ ∀ a ∈ l, (f a).2 = some false := by
  induction l generalizing m with
  | nil =>
    cases h
    exact ⟨hk, by intro a ha; cases ha⟩
  | cons a l ih =>
    have hl : ∀ x ∈ l, (f x).1 ≠ 0 := fun x hx => hindex x (List.mem_cons_of_mem a hx)
    change selectFrom (l.map f) (matchDecl (f a).1 (f a).2 (.number m)) = .number k at h
    cases hfa : (f a).2 with
    | none =>
      rw [hfa, matchDecl, selectFrom_stop _ (by intro m hm; cases hm)] at h
      cases h
    | some b =>
      rw [hfa] at h
      cases b with
      | false =>
        obtain ⟨hm, hall⟩ := ih hl h
        refine ⟨hm, ?_⟩
        intro x hx
        rcases List.mem_cons.mp hx with rfl | hx
        · exact hfa
        · exact hall x hx
      | true =>
        exfalso
        by_cases hm : m ≠ 0
        · simp only [matchDecl, if_pos hm] at h
          rw [selectFrom_stop _ (by intro m hm; cases hm)] at h
          cases h
        · simp only [matchDecl, if_neg hm] at h
          exact hindex a List.mem_cons_self (ih hl h).1

theorem matchDecl_ne_outside (n : Nat) (t : Option Bool) {r : SelectResult} (h : r ≠ .outside) :
    matchDecl n t r ≠ .outside := by
  cases r with
  | number m =>
    cases t with
    | none => simp [matchDecl]
    | some b =>
      cases b with
      | false => simp [matchDecl]
      | true =>
        simp only [matchDecl]
        split
        · simp
        · simp
  | multiple => simp [matchDecl]
  | raised => simp [matchDecl]
  | outside => exact absurd rfl h

theorem selectFrom_ne_outside (tests : List (Nat × Option Bool)) {r : SelectResult}
    (h : r ≠ .outside) : selectFrom tests r ≠ .outside := by
  induction tests generalizing r with
  | nil => exact h
  | cons t tests ih => exact ih (matchDecl_ne_outside t.1 t.2 h)

end Tests

/-- What the optimised matcher may come to: the same, or a candidate whose own test fails. -/
def Acceptable (test : Nat → Option Bool) (plain opt : SelectResult) : Prop :=
  opt ≠ .outside ∧ (plain ≠ .raised → opt = plain ∨
    (plain = .number 0 ∧ ∃ n, opt = .number n ∧ test n = some false))

def MatchInfo.hit (peek : Nat) (info : MatchInfo) : Bool := decide (peek &&& info.mask = info.value)

/-- The candidates of a select statement, with the results of their own tests at a word. -/
structure TestedInfos (infos : List MatchInfo) (test : Nat → Option Bool) (peek : Nat) : Prop where
  hits : ∀ info ∈ infos, test info.index = some true → info.hit peek = true
  numbered : ∀ info ∈ infos, info.index ≠ 0
  distinct : (infos.map MatchInfo.index).Nodup

def plainTests (infos : List MatchInfo) (test : Nat → Option Bool) : SelectResult :=
  selectTests (infos.map fun info => (info.index, test info.index))

section Select

variable {infos : List MatchInfo} {test : Nat → Option Bool} {peek : Nat}

theorem TestedInfos.filter {p : MatchInfo → Bool} (h : TestedInfos infos test peek)
    (hp : ∀ info ∈ infos, info.hit peek = true → p info = true)
    (hraised : plainTests infos test ≠ .raised) :
    plainTests (infos.filter p) test = plainTests infos test := by
  refine selectFrom_filter ?_ 0 hraised
  intro info hmem htrue
  exact hp info hmem (h.hits info hmem htrue)

theorem TestedInfos.acceptable_filter {p : MatchInfo → Bool} (h : TestedInfos infos test peek)
    (hp : ∀ info ∈ infos, info.hit peek = true → p info = true) :
    Acceptable test (plainTests infos test) (plainTests (infos.filter p) test) := by
  refine ⟨selectFrom_ne_outside _ (by simp), ?_⟩
  intro hraised
  exact .inl (h.filter hp hraised)

theorem TestedInfos.acceptable_single {p : MatchInfo → Bool} {a : MatchInfo}
    (h : TestedInfos infos test peek)
    (hp : ∀ info ∈ infos, info.hit peek = true → p info = true) (ha : infos.filter p = [a]) :
    Acceptable test (plainTests infos test) (.number a.index) := by
  refine ⟨by simp, ?_⟩
  intro hraised
  have hplain := h.filter hp hraised
  rw [ha] at hplain
  cases htest : test a.index with
  | none =>
    simp only [plainTests, List.map_cons, List.map_nil, htest] at hplain
    exact absurd hplain.symm hraised
  | some b =>
    simp only [plainTests, List.map_cons, List.map_nil, htest] at hplain
    cases b with
    | true => exact .inl hplain
    | false => exact .inr ⟨hplain.symm, a.index, rfl, htest⟩

theorem TestedInfos.acceptable_none {p : MatchInfo → Bool} (h : TestedInfos infos test peek)
    (hp : ∀ info ∈ infos, info.hit peek = true → p info = true) (ha : infos.filter p = []) :
    Acceptable test (plainTests infos test) (.number 0) := by
  refine ⟨by simp, ?_⟩
  intro hraised
  have hplain := h.filter hp hraised
  rw [ha] at hplain
  exact .inl hplain

end Select

section Tree

variable {infos : List MatchInfo} {test : Nat → Option Bool} {peek : Nat}

theorem overlaps_of_hits {a b : MatchInfo} (ha : a.hit peek = true) (hb : b.hit peek = true) :
    a.overlaps b = true := by
  have ha := of_decide_eq_true ha
  have hb := of_decide_eq_true hb
  rw [MatchInfo.overlaps, beq_iff_eq]
  apply Nat.eq_of_testBit_eq
  intro i
  have hai := congrArg (fun x => Nat.testBit x i) ha
  have hbi := congrArg (fun x => Nat.testBit x i) hb
  simp only [Nat.testBit_and] at hai hbi
  simp only [Nat.testBit_and, Nat.testBit_xor, Nat.zero_testBit, ← hai, ← hbi]
  cases peek.testBit i <;> cases a.mask.testBit i <;> cases b.mask.testBit i <;> rfl

structure HitsAmong (infos s : List MatchInfo) (peek : Nat) : Prop where
  sub : ∀ info ∈ s, info ∈ infos
  hits : s.filter (MatchInfo.hit peek) = infos.filter (MatchInfo.hit peek)

theorem fullMatch_acceptable {s : List MatchInfo} {t : MatchTree}
    (h : TestedInfos infos test peek) (hs : HitsAmong infos s peek)
    (ht : fullMatch s = some t) : Acceptable test (plainTests infos test) (t.run peek test) := by
  unfold fullMatch at ht
  split at ht
  · cases ht
  · cases ht
    have hself : ∀ info ∈ infos, info.hit peek = true → info.hit peek = true := fun _ _ hh => hh
    have hrun : (MatchTree.full (s.map fun a =>
          (a, s.any fun b => b.index != a.index && a.overlaps b))).run peek test =
        selectTests ((infos.filter (MatchInfo.hit peek)).map fun a =>
          (a.index, if (s.any fun b => b.index != a.index && a.overlaps b) then test a.index
            else some true)) := by
      rw [MatchTree.run, List.map_map, ← hs.hits]
      have hleave := selectFrom_filter_false (l := s) (p := MatchInfo.hit peek)
        (f := fun a => (a.index,
          if peek &&& a.mask = a.value then
            if (s.any fun b => b.index != a.index && a.overlaps b) then test a.index
            else some true
          else some false))
        (by
          intro a _ hmiss
          exact if_neg (of_decide_eq_false hmiss)) (.number 0)
      refine Eq.trans hleave.symm ?_
      unfold selectTests selectFrom
      refine congrArg (fun l => List.foldl _ _ l) ?_
      apply List.map_congr_left
      intro a ha
      have hhit := of_decide_eq_true (List.mem_filter.mp ha).2
      rw [if_pos hhit]
    rw [hrun]
    by_cases hclear : ∃ a ∈ infos.filter (MatchInfo.hit peek),
        (s.any fun b => b.index != a.index && a.overlaps b) = false
    · obtain ⟨a, ha, hnot⟩ := hclear
      have honly : infos.filter (MatchInfo.hit peek) = [a] := by
        have hall : ∀ b ∈ infos.filter (MatchInfo.hit peek), b = a := by
          intro b hb
          have hbs : b ∈ s := by
            rw [← hs.hits] at hb
            exact (List.mem_filter.mp hb).1
          have hno := List.any_eq_false.mp hnot b hbs
          have hover := overlaps_of_hits (List.mem_filter.mp ha).2 (List.mem_filter.mp hb).2
          have hindex : b.index = a.index := by
            by_contra hne
            apply hno
            rw [hover, Bool.and_true]
            simpa using hne
          exact List.inj_on_of_nodup_map h.distinct (List.mem_filter.mp hb).1
            (List.mem_filter.mp ha).1 hindex
        have hnodup : (infos.filter (MatchInfo.hit peek)).Nodup :=
          (List.Nodup.of_map _ h.distinct).filter _
        cases hlist : infos.filter (MatchInfo.hit peek) with
        | nil =>
          rw [hlist] at ha
          cases ha
        | cons b rest =>
          rw [hlist] at hall hnodup
          cases hall b List.mem_cons_self
          cases rest with
          | nil => rfl
          | cons c rest =>
            cases hall c (by simp)
            simp at hnodup
      rw [honly]
      simp only [List.map_cons, List.map_nil, hnot]
      exact h.acceptable_single hself honly
    · have hsame : ((infos.filter (MatchInfo.hit peek)).map fun a =>
          (a.index, if (s.any fun b => b.index != a.index && a.overlaps b) then test a.index
            else some true)) =
          (infos.filter (MatchInfo.hit peek)).map fun a => (a.index, test a.index) := by
        apply List.map_congr_left
        intro a ha
        have hyes : (s.any fun b => b.index != a.index && a.overlaps b) = true := by
          by_contra hne
          exact hclear ⟨a, ha, Bool.not_eq_true _ ▸ hne⟩
        rw [if_pos hyes]
      rw [hsame]
      exact h.acceptable_filter hself

theorem HitsAmong.side {s : List MatchInfo} (hs : HitsAmong infos s peek) (b : Nat) :
    HitsAmong infos (selInfos s b (peek.testBit b)) peek := by
  refine ⟨fun info hinfo => hs.sub info (List.mem_filter.mp hinfo).1, ?_⟩
  rw [← hs.hits, selInfos, List.filter_filter]
  apply List.filter_congr
  intro info _
  cases hhit : info.hit peek with
  | false => rfl
  | true =>
    have hbit := congrArg (fun x => Nat.testBit x b) (of_decide_eq_true hhit)
    simp only [Nat.testBit_and] at hbit
    rw [← hbit]
    cases peek.testBit b <;> cases info.mask.testBit b <;> rfl

theorem TestedInfos.acceptable_leaf {info : MatchInfo} (h : TestedInfos infos test peek)
    (hs : HitsAmong infos [info] peek) :
    Acceptable test (plainTests infos test) (.number info.index) := by
  have hself : ∀ info ∈ infos, info.hit peek = true → info.hit peek = true := fun _ _ hh => hh
  have hhits := hs.hits
  cases hhit : info.hit peek with
  | true =>
    rw [List.filter_cons_of_pos hhit, List.filter_nil] at hhits
    exact h.acceptable_single hself hhits.symm
  | false =>
    rw [List.filter_cons_of_neg (by simp [hhit]), List.filter_nil] at hhits
    obtain ⟨-, hnone⟩ := h.acceptable_none hself hhits.symm
    refine ⟨by simp, ?_⟩
    intro hraised
    have hplain : plainTests infos test = .number 0 := by
      rcases hnone hraised with heq | ⟨hzero, -⟩
      · exact heq.symm
      · exact hzero
    have hfalse := (selectFrom_none h.numbered hplain rfl).2 info (hs.sub info List.mem_cons_self)
    exact .inr ⟨hplain, info.index, rfl, hfalse⟩

theorem genMatchDeclQuick_acceptable (h : TestedInfos infos test peek) (size : WordSize)
    {fuel : Nat} {s : List MatchInfo} {t : MatchTree} (hs : HitsAmong infos s peek)
    (ht : genMatchDeclQuick size fuel s = some t) :
    Acceptable test (plainTests infos test) (t.run peek test) := by
  induction fuel generalizing s t with
  | zero => cases ht
  | succ fuel ih =>
    have hside : ∀ b v tree, HitsAmong infos (selInfos s b v) peek →
        (if s.length ≤ (selInfos s b v).length then fullMatch (selInfos s b v)
          else genMatchDeclQuick size fuel (selInfos s b v)) = some tree →
        Acceptable test (plainTests infos test) (tree.run peek test) := by
      intro b v tree hv htree
      split at htree
      · exact fullMatch_acceptable h hv htree
      · exact ih hv htree
    unfold genMatchDeclQuick at ht
    split at ht
    · cases ht
      exact h.acceptable_leaf hs
    · exact fullMatch_acceptable h hs ht
    · next b _ _ =>
      split at ht
      · obtain ⟨one, hone, ht⟩ := Option.bind_eq_some_iff.mp ht
        obtain ⟨zero, hzero, ht⟩ := Option.map_eq_some_iff.mp ht
        cases ht
        have hbit := hs.side b
        rw [MatchTree.run]
        cases hpeek : peek.testBit b with
        | true =>
          rw [hpeek] at hbit
          exact hside b true one hbit hone
        | false =>
          rw [hpeek] at hbit
          exact hside b false zero hbit hzero
      · exact fullMatch_acceptable h hs ht

end Tree

section Table

variable {infos : List MatchInfo} {test : Nat → Option Bool} {peek : Nat}

theorem indexPart_testBit {peek minBit start n : Nat} (h : start ≤ minBit) (k : Nat) :
    (indexPart peek minBit start n).testBit k =
      (decide (start ≤ k) && decide (k < start + n) && peek.testBit (minBit + (k - start))) := by
  rw [indexPart, Nat.testBit_and, Nat.testBit_shiftRight, Nat.testBit_shiftLeft,
    Nat.testBit_two_pow_sub_one]
  by_cases hk : start ≤ k
  · rw [show minBit - start + k = minBit + (k - start) by omega]
    have hiff : decide (k - start < n) = decide (k < start + n) := by
      rw [decide_eq_decide]
      omega
    simp only [hk, hiff, decide_true, Bool.true_and]
    exact Bool.and_comm _ _
  · simp [hk]

theorem indexFrom_testBit (peek : Nat) (rest : List Nat) (minBit start n : Nat)
    (h : start ≤ minBit) (hsorted : ∀ b ∈ rest, minBit + n ≤ b) (hrest : rest.Pairwise (· < ·))
    (k : Nat) :
    (indexFrom peek minBit start n rest).testBit k =
      if k < start then false
      else if k < start + n then peek.testBit (minBit + (k - start))
      else (rest[k - (start + n)]?).any fun b => peek.testBit b := by
  induction rest generalizing minBit start n with
  | nil =>
    rw [indexFrom, indexPart_testBit h]
    by_cases hk : k < start
    · simp [hk, Nat.not_le.mpr hk]
    · by_cases hn : k < start + n
      · simp [hk, hn, Nat.not_lt.mp hk]
      · simp [hk, hn]
  | cons b rest ih =>
    obtain ⟨hb, hrest⟩ := List.pairwise_cons.mp hrest
    have hge := hsorted b List.mem_cons_self
    rw [indexFrom]
    split
    · next heq =>
      rw [ih minBit start (n + 1) h (by
        intro c hc
        have := hb c hc
        omega) hrest]
      by_cases hk : k < start
      · simp [hk]
      · simp only [hk, if_false]
        by_cases hn : k < start + n
        · rw [if_pos (by omega), if_pos hn]
        · rw [if_neg hn]
          by_cases hlast : k = start + n
          · rw [if_pos (by omega), hlast, Nat.sub_self, List.getElem?_cons_zero, Option.any_some, heq]
            congr 1
            omega
          · rw [if_neg (by omega), show k - (start + n) = k - (start + (n + 1)) + 1 by omega,
              List.getElem?_cons_succ]
    · next hne =>
      rw [Nat.testBit_or, indexPart_testBit h, ih b (start + n) 1 (by omega) (by
        intro c hc
        have := hb c hc
        omega) hrest]
      by_cases hk : k < start
      · simp [hk, Nat.not_le.mpr hk, show k < start + n by omega]
      · by_cases hn : k < start + n
        · simp [hk, hn, Nat.not_lt.mp hk]
        · simp only [hk, hn, if_false, decide_false, Bool.and_false, Bool.false_and, Bool.false_or]
          by_cases hlast : k < start + n + 1
          · rw [if_pos hlast, show k - (start + n) = 0 by omega, List.getElem?_cons_zero,
              Option.any_some, Nat.add_zero]
          · rw [if_neg hlast, show k - (start + n) = k - (start + n + 1) + 1 by omega,
              List.getElem?_cons_succ]

theorem matchIndex_testBit (peek : Nat) {bits : List Nat} (h : bits.Pairwise (· < ·)) (k : Nat) :
    (matchIndex peek bits).testBit k = (bits[k]?).any fun b => peek.testBit b := by
  cases bits with
  | nil => simp [matchIndex]
  | cons b rest =>
    obtain ⟨hb, hrest⟩ := List.pairwise_cons.mp h
    rw [matchIndex, indexFrom_testBit peek rest b 0 1 (Nat.zero_le _) hb hrest]
    cases k with
    | zero => simp
    | succ k => simp

theorem matchIndex_lt (peek : Nat) {bits : List Nat} (h : bits.Pairwise (· < ·)) :
    matchIndex peek bits < 2 ^ bits.length := by
  apply Nat.lt_pow_two_of_testBit
  intro k hk
  rw [matchIndex_testBit peek h, List.getElem?_eq_none hk]
  rfl

def EntryFor (ambiguous : List (List Nat)) (set : List Nat) (code : Int) : Prop :=
  match set with
  | [] => code = 0
  | [n] => code = n
  | _ => ∃ i : Nat, code = -(i + 1 : Int) ∧ ambiguous[i]? = some set

theorem EntryFor.mono {ambiguous : List (List Nat)} {set : List Nat} {code : Int}
    (h : EntryFor ambiguous set code) (more : List (List Nat)) :
    EntryFor (ambiguous ++ more) set code := by
  match set, h with
  | [], h => exact h
  | [n], h => exact h
  | a :: b :: rest, ⟨i, hcode, hi⟩ =>
    refine ⟨i, hcode, ?_⟩
    rw [List.getElem?_append_left (List.getElem?_eq_some_iff.mp hi).1]
    exact hi

structure TableSpec (sets : List (List Nat)) (t : List Int × List (List Nat)) : Prop where
  length : t.1.length = sets.length
  entry : ∀ (k : Nat) (set : List Nat), sets[k]? = some set →
    ∃ code, t.1[k]? = some code ∧ EntryFor t.2 set code
  nodup : t.2.Nodup
  mem : ∀ set, set ∈ t.2 ↔ set ∈ sets ∧ 2 ≤ set.length

theorem tableEntry_spec (ambiguous : List (List Nat)) (set : List Nat) :
    EntryFor (tableEntry ambiguous set).2 set (tableEntry ambiguous set).1 ∧
      ∃ more, (tableEntry ambiguous set).2 = ambiguous ++ more ∧
        (more = [] ∧ (set ∈ ambiguous ∨ set.length < 2) ∨
          more = [set] ∧ set ∉ ambiguous ∧ 2 ≤ set.length) := by
  match set with
  | [] => exact ⟨rfl, [], by simp [tableEntry], .inl ⟨rfl, .inr (by simp)⟩⟩
  | [n] => exact ⟨rfl, [], by simp [tableEntry], .inl ⟨rfl, .inr (by simp)⟩⟩
  | a :: b :: rest =>
    cases hidx : ambiguous.idxOf? (a :: b :: rest) with
    | some i =>
      obtain ⟨hlt, hbeq, -⟩ := List.findIdx?_eq_some_iff_getElem.mp hidx
      have hget : ambiguous[i]? = some (a :: b :: rest) := by
        rw [List.getElem?_eq_getElem hlt, beq_iff_eq.mp hbeq]
      simp only [tableEntry, hidx]
      refine ⟨⟨i, rfl, hget⟩, [], by simp, .inl ⟨rfl, .inl ?_⟩⟩
      exact List.mem_of_getElem? hget
    | none =>
      simp only [tableEntry, hidx]
      refine ⟨⟨ambiguous.length, rfl, by simp⟩, [a :: b :: rest], rfl, .inr ⟨rfl, ?_, by simp⟩⟩
      exact List.idxOf?_eq_none_iff.mp hidx

theorem matchTable_spec (sets : List (List Nat)) : TableSpec sets (matchTable sets) := by
  induction sets using List.reverseRecOn with
  | nil =>
    refine ⟨rfl, ?_, List.nodup_nil, by simp [matchTable]⟩
    intro k set hk
    cases hk
  | append_singleton sets set ih =>
    obtain ⟨hentry, more, hmore, hcase⟩ := tableEntry_spec (matchTable sets).2 set
    have hstep : matchTable (sets ++ [set]) =
        ((matchTable sets).1 ++ [(tableEntry (matchTable sets).2 set).1],
          (tableEntry (matchTable sets).2 set).2) := by
      rw [matchTable, List.foldl_append]
      rfl
    rw [hstep]
    refine ⟨?_, ?_, ?_, ?_⟩
    · simp only [List.length_append, ih.length, List.length_singleton]
    · intro k set' hk
      by_cases hlt : k < sets.length
      · rw [List.getElem?_append_left hlt] at hk
        obtain ⟨code, hcode, hfor⟩ := ih.entry k set' hk
        refine ⟨code, ?_, ?_⟩
        · rw [List.getElem?_append_left (by rw [ih.length]; exact hlt)]
          exact hcode
        · change EntryFor (tableEntry (matchTable sets).2 set).2 set' code
          rw [hmore]
          exact hfor.mono more
      · rw [List.getElem?_append_right (by omega)] at hk
        have hzero : k - sets.length = 0 := by
          by_contra hne
          rw [List.getElem?_eq_none (by simp; omega)] at hk
          cases hk
        rw [hzero] at hk
        cases hk
        refine ⟨_, ?_, hentry⟩
        rw [List.getElem?_append_right (by rw [ih.length]; omega), ih.length, hzero]
        rfl
    · change (tableEntry (matchTable sets).2 set).2.Nodup
      rw [hmore]
      rcases hcase with ⟨rfl, -⟩ | ⟨rfl, hnew, -⟩
      · simpa using ih.nodup
      · refine List.nodup_append.mpr ⟨ih.nodup, List.nodup_singleton _, ?_⟩
        intro a ha b hb heq
        cases List.mem_singleton.mp hb
        exact hnew (heq ▸ ha)
    · intro x
      change x ∈ (tableEntry (matchTable sets).2 set).2 ↔ _
      rw [hmore, List.mem_append, ih.mem, List.mem_append, List.mem_singleton]
      rcases hcase with ⟨rfl, hold⟩ | ⟨rfl, -, hlen⟩
      · constructor
        · rintro (⟨hx, hlen⟩ | hx)
          · exact ⟨.inl hx, hlen⟩
          · cases hx
        · rintro ⟨hx | rfl, hlen⟩
          · exact .inl ⟨hx, hlen⟩
          · rcases hold with hin | hshort
            · exact .inl ((ih.mem x).mp hin)
            · omega
      · rw [List.mem_singleton]
        constructor
        · rintro (⟨hx, hlen⟩ | rfl)
          · exact ⟨.inl hx, hlen⟩
          · exact ⟨.inr rfl, hlen⟩
        · rintro ⟨hx | rfl, hlen⟩
          · exact .inl ⟨hx, hlen⟩
          · exact .inr rfl

theorem possible_of_hit {bits : List Nat} (hbits : bits.Pairwise (· < ·)) {info : MatchInfo}
    (h : info.hit peek = true) : info.possible bits (matchIndex peek bits) = true := by
  rw [MatchInfo.possible, List.all_eq_true]
  rintro ⟨b, k⟩ hmem
  have hk : bits[k]? = some b := by
    have hzip := List.mem_zipIdx_iff_getElem?.mp hmem
    simpa using hzip
  have hbit := congrArg (fun x => Nat.testBit x b) (of_decide_eq_true h)
  simp only [Nat.testBit_and] at hbit
  rw [matchIndex_testBit peek hbits, hk, Option.any_some, ← hbit]
  cases peek.testBit b <;> cases info.mask.testBit b <;> rfl

theorem bitsDiffer_sorted (infos : List MatchInfo) : (bitsDiffer infos).Pairwise (· < ·) :=
  List.pairwise_lt_range.filter _

theorem table_acceptable (h : TestedInfos infos test peek) {bits : List Nat}
    (hbits : bits.Pairwise (· < ·)) {t : List Int × List (List Nat)}
    (ht : TableSpec ((List.range (2 ^ bits.length)).map (possibleFor infos bits)) t) :
    Acceptable test (plainTests infos test) ((Matcher.table bits t.1 t.2).run peek test) := by
  have hlt := matchIndex_lt peek hbits
  have hp : ∀ info ∈ infos, info.hit peek = true →
      info.possible bits (matchIndex peek bits) = true :=
    fun info _ hhit => possible_of_hit hbits hhit
  obtain ⟨code, hcode, hentry⟩ := ht.entry (matchIndex peek bits)
    (possibleFor infos bits (matchIndex peek bits)) (by
      rw [List.getElem?_map, List.getElem?_range hlt]
      rfl)
  simp only [Matcher.run, hcode]
  cases hset : infos.filter (MatchInfo.possible bits (matchIndex peek bits)) with
  | nil =>
    rw [possibleFor, hset] at hentry
    cases (show code = 0 from hentry)
    exact h.acceptable_none hp hset
  | cons a rest =>
    cases rest with
    | nil =>
      rw [possibleFor, hset] at hentry
      cases (show code = (a.index : Int) from hentry)
      rw [if_neg (by omega), Int.toNat_natCast]
      exact h.acceptable_single hp hset
    | cons b rest =>
      have hmany : possibleFor infos bits (matchIndex peek bits) =
          a.index :: b.index :: rest.map MatchInfo.index := by
        rw [possibleFor, hset]
        rfl
      rw [hmany] at hentry
      obtain ⟨i, hi, hget⟩ := hentry
      rw [if_pos (by omega), show (-code - 1).toNat = i by omega, hget, ← hmany]
      change Acceptable test _ (selectTests
        ((possibleFor infos bits (matchIndex peek bits)).map fun n => (n, test n)))
      rw [possibleFor, List.map_map]
      exact h.acceptable_filter hp

def ambiguousSets (infos : List MatchInfo) (bits : List Nat) : List (List Nat) :=
  (((List.range (2 ^ bits.length)).map (possibleFor infos bits)).filter
    fun set => decide (2 ≤ set.length)).dedup

theorem TableSpec.ambiguous_length {bits : List Nat} {t : List Int × List (List Nat)}
    (h : TableSpec ((List.range (2 ^ bits.length)).map (possibleFor infos bits)) t) :
    t.2.length = (ambiguousSets infos bits).length := by
  have hperm : t.2.Perm (ambiguousSets infos bits) := by
    refine (List.perm_ext_iff_of_nodup h.nodup (List.nodup_dedup _)).mpr ?_
    intro set
    rw [h.mem, List.mem_dedup, List.mem_filter, decide_eq_true_eq]
  exact hperm.length_eq

end Table

section Sets

variable {size : WordSize} {infos : List MatchInfo}

/-- The sets of candidates that the splitting on single bits comes to. -/
inductive QuickSet (size : WordSize) (infos : List MatchInfo) : List MatchInfo → Prop
  | all : QuickSet size infos infos
  | side {s : List MatchInfo} {b : Nat} (v : Bool) (reached : QuickSet size infos s)
      (many : 3 < s.length) (bit : selectBit size s = some b)
      (less : (selInfos s b v).length < s.length) : QuickSet size infos (selInfos s b v)

theorem QuickSet.head {s u : List MatchInfo} (h : QuickSet size s u) :
    u = s ∨ ∃ b v, 3 < s.length ∧ selectBit size s = some b ∧
      (selInfos s b v).length < s.length ∧ QuickSet size (selInfos s b v) u := by
  induction h with
  | all => exact .inl rfl
  | side v _ many bit less ih =>
    right
    rcases ih with rfl | ⟨b', v', hmany, hbit, hless, hrest⟩
    · exact ⟨_, v, many, bit, less, .all⟩
    · exact ⟨b', v', hmany, hbit, hless, .side v hrest many bit less⟩

theorem QuickSet.trans {s u : List MatchInfo} (hu : QuickSet size s u)
    (hs : QuickSet size infos s) : QuickSet size infos u := by
  induction hu with
  | all => exact hs
  | side v _ many bit less ih => exact .side v ih many bit less

theorem fullMatch_isSome {s : List MatchInfo} : (fullMatch s).isSome = true ↔ s ≠ [] := by
  unfold fullMatch
  cases s with
  | nil => simp
  | cons a s => simp

theorem genMatchDeclQuick_isSome {fuel : Nat} {s : List MatchInfo} (hfuel : s.length ≤ fuel) :
    (genMatchDeclQuick size fuel s).isSome = true ↔ ∀ u, QuickSet size s u → u ≠ [] := by
  induction fuel generalizing s with
  | zero =>
    have hnil : s = [] := List.length_eq_zero_iff.mp (by omega)
    subst hnil
    refine iff_of_false (by simp [genMatchDeclQuick]) ?_
    intro h
    exact h [] .all rfl
  | succ fuel ih =>
    have hstop : (¬ 3 < s.length ∨ selectBit size s = none) →
        ((∀ u, QuickSet size s u → u ≠ []) ↔ s ≠ []) := by
      intro hs
      refine ⟨fun h => h s .all, ?_⟩
      intro hne u hu
      rcases hu.head with rfl | ⟨b, v, hmany, hbit, -, -⟩
      · exact hne
      · rcases hs with hfew | hnone
        · exact absurd hmany hfew
        · rw [hnone] at hbit
          cases hbit
    have hside : ∀ b v, 3 < s.length → selectBit size s = some b →
        (((if s.length ≤ (selInfos s b v).length then fullMatch (selInfos s b v)
          else genMatchDeclQuick size fuel (selInfos s b v))).isSome = true ↔
        ((selInfos s b v).length < s.length → ∀ u, QuickSet size (selInfos s b v) u → u ≠ [])) := by
      intro b v hmany hbit
      split
      · next hle =>
        refine iff_of_true (fullMatch_isSome.mpr ?_) (fun hlt => absurd hlt (by omega))
        intro hnil
        rw [hnil, List.length_nil] at hle
        omega
      · next hlt =>
        rw [ih (by omega)]
        exact ⟨fun h _ => h, fun h => h (by omega)⟩
    unfold genMatchDeclQuick
    split
    · next info _ =>
      rw [hstop (.inl (by simp))]
      simp
    · next hbit =>
      rw [hstop (.inr hbit)]
      exact fullMatch_isSome
    · next b _ hbit =>
      split
      · next hmany =>
        have htrue := hside b true hmany hbit
        have hfalse := hside b false hmany hbit
        have hboth : ∀ (one zero : Option MatchTree),
            (one.bind fun x => zero.map fun y => MatchTree.test b x y).isSome =
              (one.isSome && zero.isSome) := by
          intro one zero
          cases one with
          | none => rfl
          | some x =>
            cases zero with
            | none => rfl
            | some y => rfl
        rw [hboth, Bool.and_eq_true, htrue, hfalse]
        constructor
        · rintro ⟨hone, hzero⟩ u hu
          rcases hu.head with rfl | ⟨b', v, -, hbit', hless, hrest⟩
          · intro hnil
            rw [hnil] at hmany
            simp at hmany
          · rw [hbit] at hbit'
            cases hbit'
            cases v with
            | true => exact hone hless u hrest
            | false => exact hzero hless u hrest
        · intro h
          exact ⟨fun hless u hu => h u (hu.trans (.side true .all hmany hbit hless)),
            fun hless u hu => h u (hu.trans (.side false .all hmany hbit hless))⟩
      · next hfew =>
        rw [hstop (.inl hfew)]
        exact fullMatch_isSome

end Sets

section Agree

/-- The condition on the candidates under which there is an optimised matcher. -/
def OptMatchable (size : WordSize) (infos : List MatchInfo) : Prop :=
  (bitsDiffer infos).length ≠ 32 ∧
    if 2 ^ (bitsDiffer infos).length ≤ infos.length * 2 ^ 5 then
      (bitsDiffer infos).length ≠ 31 ∧
        (infos.length ≤ 127 → (ambiguousSets infos (bitsDiffer infos)).length ≤ 128)
    else ∀ s, QuickSet size infos s → s ≠ []

theorem genOptimizedMatch_isSome (size : WordSize) (infos : List MatchInfo) :
    (genOptimizedMatch size infos).isSome = true ↔ OptMatchable size infos := by
  have hlen := (matchTable_spec ((List.range (2 ^ (bitsDiffer infos).length)).map
    (possibleFor infos (bitsDiffer infos)))).ambiguous_length
  unfold genOptimizedMatch OptMatchable
  dsimp only
  rw [hlen]
  split
  · next h32 => simp [h32]
  · next h32 =>
    split
    · split
      · next h31 => simp [h31]
      · next h31 =>
        split
        · next hmany =>
          refine iff_of_false (by simp) ?_
          rintro ⟨-, -, hfew⟩
          have hle := hfew hmany.1
          omega
        · next hfew =>
          refine iff_of_true rfl ⟨h32, h31, ?_⟩
          intro hsmall
          omega
    · rw [Option.isSome_map, genMatchDeclQuick_isSome (Nat.le_refl _)]
      exact ⟨fun h => ⟨h32, h⟩, fun h => h.2⟩

theorem genOptimizedMatch_acceptable {size : WordSize} {infos : List MatchInfo} {m : Matcher}
    {test : Nat → Option Bool} {peek : Nat} (h : TestedInfos infos test peek)
    (hm : genOptimizedMatch size infos = some m) :
    Acceptable test (plainTests infos test) (m.run peek test) := by
  unfold genOptimizedMatch at hm
  dsimp only at hm
  split at hm
  · cases hm
  · split at hm
    · split at hm
      · cases hm
      · split at hm
        · cases hm
        · cases hm
          exact table_acceptable h (bitsDiffer_sorted infos) (matchTable_spec _)
    · obtain ⟨t, ht, rfl⟩ := Option.map_eq_some_iff.mp hm
      exact genMatchDeclQuick_acceptable h size ⟨fun _ hh => hh, rfl⟩ ht

theorem matchInfos_spec {size : WordSize} {i : Nat} {items : List Candidate}
    {infos : List MatchInfo} (h : matchInfos size i items = some infos) :
    infos.length = items.length ∧ ∀ k info, infos[k]? = some info → info.index = i + k ∧
      ∃ c, items[k]? = some c ∧ c.getMatchBits = some (size, info.mask, info.value) := by
  induction items generalizing i infos with
  | nil =>
    cases h
    refine ⟨rfl, ?_⟩
    intro k info hk
    cases hk
  | cons c rest ih =>
    unfold matchInfos at h
    split at h
    · cases h
    · next s mask value hbits =>
      split at h
      · next hs =>
        subst hs
        obtain ⟨infosRest, hrest, rfl⟩ := Option.map_eq_some_iff.mp h
        obtain ⟨hlen, hspec⟩ := ih hrest
        refine ⟨by simp [hlen], ?_⟩
        intro k info hk
        cases k with
        | zero =>
          cases hk
          exact ⟨rfl, c, rfl, hbits⟩
        | succ k =>
          obtain ⟨hindex, hc⟩ := hspec k info hk
          exact ⟨by omega, hc⟩
      · cases h

theorem selectInfos_spec {size : WordSize} {items : List Candidate} {infos : List MatchInfo}
    (h : selectInfos items = some (size, infos)) : matchInfos size 1 items = some infos := by
  unfold selectInfos at h
  split at h
  · cases h
  · obtain ⟨x, -, hx⟩ := Option.bind_eq_some_iff.mp h
    obtain ⟨infos', hinfos, heq⟩ := Option.map_eq_some_iff.mp hx
    cases heq
    exact hinfos

theorem selectInfos_index {size : WordSize} {items : List Candidate} {infos : List MatchInfo}
    (h : selectInfos items = some (size, infos)) :
    infos.map MatchInfo.index = (List.range items.length).map (· + 1) := by
  obtain ⟨hlen, hspec⟩ := matchInfos_spec (selectInfos_spec h)
  apply List.ext_getElem?
  intro k
  rw [List.getElem?_map, List.getElem?_map]
  by_cases hk : k < infos.length
  · rw [List.getElem?_eq_getElem hk, List.getElem?_range (by omega)]
    have hindex := (hspec k infos[k] (List.getElem?_eq_getElem hk)).1
    simp [hindex, Nat.add_comm]
  · rw [List.getElem?_eq_none (by omega), List.getElem?_eq_none (by simp; omega)]
    rfl

variable {mem : Memory} {st : GenState}

theorem selectInfos_plain {size : WordSize} {items : List Candidate} {infos : List MatchInfo}
    (h : selectInfos items = some (size, infos)) :
    plainSelect mem st items = plainTests infos (testNumber mem st items) := by
  have hindex := congrArg (List.map fun n => (n, testNumber mem st items n)) (selectInfos_index h)
  rw [List.map_map, List.map_map] at hindex
  unfold plainSelect plainTests
  exact congrArg selectTests hindex.symm

theorem selectInfos_tested {size : WordSize} {items : List Candidate} {infos : List MatchInfo}
    (h : selectInfos items = some (size, infos)) {w : Nat}
    (hpeek : st.src.peek mem size = some w) :
    TestedInfos infos (testNumber mem st items) w := by
  obtain ⟨hlen, hspec⟩ := matchInfos_spec (selectInfos_spec h)
  refine ⟨?_, ?_, ?_⟩
  · intro info hmem htest
    obtain ⟨k, hk⟩ := List.mem_iff_getElem?.mp hmem
    obtain ⟨hindex, c, hc, hbits⟩ := hspec k info hk
    rw [testNumber, hindex, Nat.add_sub_cancel_left, hc, Option.bind_some] at htest
    exact decide_eq_true (test_getMatchBits hbits hpeek htest)
  · intro info hmem
    obtain ⟨k, hk⟩ := List.mem_iff_getElem?.mp hmem
    have hindex := (hspec k info hk).1
    omega
  · rw [selectInfos_index h]
    refine List.Nodup.map ?_ List.nodup_range
    intro a b hab
    simpa using hab

/-- The optimised matcher and the plain tests, at a word: one candidate is selected by both, several
matches are reported by both, and where no candidate matches none is selected, or one that does not
match; never is there an access outside the table. -/
def OptAgrees (test : Nat → Option Bool) (plain opt : SelectResult) : Prop :=
  opt ≠ .outside ∧ (∀ n, n ≠ 0 → plain = .number n → opt = .number n) ∧
    (plain = .multiple → opt = .multiple) ∧
    (plain = .number 0 → opt = .number 0 ∨ ∃ n, opt = .number n ∧ test n = some false)

theorem Acceptable.agrees {test : Nat → Option Bool} {plain opt : SelectResult}
    (h : Acceptable test plain opt) : OptAgrees test plain opt := by
  obtain ⟨hinside, hsame⟩ := h
  refine ⟨hinside, ?_, ?_, ?_⟩
  · intro n hn hplain
    rcases hsame (by simp [hplain]) with heq | ⟨hzero, -⟩
    · rw [heq, hplain]
    · rw [hplain] at hzero
      cases hzero
      exact absurd rfl hn
  · intro hplain
    rcases hsame (by simp [hplain]) with heq | ⟨hzero, -⟩
    · rw [heq, hplain]
    · rw [hplain] at hzero
      cases hzero
  · intro hplain
    rcases hsame (by simp [hplain]) with heq | ⟨-, hother⟩
    · exact .inl (heq.trans hplain)
    · exact .inr hother

/-- There is an optimised matcher that agrees with the plain tests at every word exactly under the
condition on the candidates. -/
theorem optimized_match_agrees_iff (items : List Candidate) (size : WordSize)
    (infos : List MatchInfo) (h : selectInfos items = some (size, infos)) :
    (∃ m, genOptimizedMatch size infos = some m ∧ ∀ mem st w, st.src.peek mem size = some w →
      OptAgrees (testNumber mem st items) (plainSelect mem st items)
        (m.run w (testNumber mem st items))) ↔ OptMatchable size infos := by
  rw [← genOptimizedMatch_isSome]
  constructor
  · rintro ⟨m, hm, -⟩
    rw [hm]
    rfl
  · intro hsome
    obtain ⟨m, hm⟩ := Option.isSome_iff_exists.mp hsome
    refine ⟨m, hm, ?_⟩
    intro mem st w hpeek
    rw [selectInfos_plain h]
    exact (genOptimizedMatch_acceptable (selectInfos_tested h hpeek) hm).agrees

def wordCandidate (bits : List BitsSpec) : Candidate where
  args := []
  body := [.data ⟨.w32, "word", true, .required, some bits, fun _ => true, fun _ => rfl⟩]
  fresh := by
    intro d _ _ a ha
    cases ha

def rangeBits (low high : BitVec 32) : BitsSpec :=
  ⟨0, 7, some (.range (.const low) (.const high)), by decide⟩

def valueBits (value : BitVec 32) : BitsSpec :=
  ⟨8, 15, some (.check (.const value)), by decide⟩

def twoValues : List Candidate :=
  [wordCandidate [rangeBits 1 2, valueBits 5], wordCandidate [rangeBits 1 2, valueBits 6]]

theorem optimized_match_agrees_two :
    ∃ infos, selectInfos twoValues = some (.w32, infos) ∧ ∃ m,
      genOptimizedMatch .w32 infos = some m ∧ ∀ mem st w, st.src.peek mem .w32 = some w →
        OptAgrees (testNumber mem st twoValues) (plainSelect mem st twoValues)
          (m.run w (testNumber mem st twoValues)) := by
  have hinfos : selectInfos twoValues =
      some (.w32, [⟨1, 0xfffffffc, 0x500⟩, ⟨2, 0xfffffffc, 0x600⟩]) := by decide +kernel
  have hok : OptMatchable .w32 [⟨1, 0xfffffffc, 0x500⟩, ⟨2, 0xfffffffc, 0x600⟩] := by
    rw [← genOptimizedMatch_isSome]
    decide +kernel
  exact ⟨_, hinfos, (optimized_match_agrees_iff twoValues .w32 _ hinfos).mpr hok⟩

def fourRanges : List Candidate :=
  [wordCandidate [rangeBits 1 2, valueBits 0xff],
    wordCandidate [rangeBits 3 4, ⟨8, 15, none, by decide⟩],
    wordCandidate [rangeBits 5 8, ⟨8, 15, none, by decide⟩],
    wordCandidate [rangeBits 9 16, ⟨8, 15, none, by decide⟩]]

theorem word_bits_ordered : 0 ≤ 31 := by decide

def allBits : List Candidate :=
  [wordCandidate [⟨0, 31, some (.check (.const 0)), word_bits_ordered⟩],
    wordCandidate [⟨0, 31, some (.check (.const 0xffffffff)), word_bits_ordered⟩]]

def oneBitEach : List Candidate :=
  (List.finRange 8).map fun (b : Fin 8) => wordCandidate
    [⟨0, 22 + b, none, by omega⟩, ⟨23 + b, 23 + b, some (.check (.const 1)), by omega⟩,
      ⟨24 + b, 31, none, by have hb := b.isLt; omega⟩]

def HasAgreeingMatch (items : List Candidate) : Prop :=
  ∃ size infos m, selectInfos items = some (size, infos) ∧ genOptimizedMatch size infos = some m ∧
    ∀ mem st w, st.src.peek mem size = some w →
      OptAgrees (testNumber mem st items) (plainSelect mem st items)
        (m.run w (testNumber mem st items))

theorem no_match_of_none {items : List Candidate}
    (h : (selectInfos items).all (fun x => (genOptimizedMatch x.1 x.2).isNone) = true) :
    ¬ HasAgreeingMatch items := by
  rintro ⟨size, infos, m, hinfos, hm, -⟩
  rw [hinfos, Option.all_some, hm] at h
  cases h

theorem optimized_match_missing :
    ¬ HasAgreeingMatch fourRanges ∧ ¬ HasAgreeingMatch allBits ∧ ¬ HasAgreeingMatch oneBitEach := by
  refine ⟨no_match_of_none ?_, no_match_of_none ?_, no_match_of_none ?_⟩
  · decide +kernel
  · decide +kernel
  · decide +kernel

end Agree

end Ucesb
