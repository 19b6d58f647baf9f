import Mathlib.Tactic.Ring
import Ucesb.OptMatchAgree

namespace Ucesb

section Select

variable {infos : List MatchInfo}

def minDiscard (infos : List MatchInfo) (b : Nat) : Nat :=
  min (notOneBit infos b true) (notOneBit infos b false)

def totalDiscard (infos : List MatchInfo) (b : Nat) : Nat :=
  notOneBit infos b true + notOneBit infos b false

theorem betterBit_eq (s : Option Nat × Nat × Nat) (b : Nat) : betterBit infos s b =
    if s.2.1 < minDiscard infos b ∨
      (minDiscard infos b = s.2.1 ∧ s.2.2 < totalDiscard infos b) then
        (some b, minDiscard infos b, totalDiscard infos b) else s :=
  rfl

structure BestBit (infos : List MatchInfo) (seen : List Nat) (s : Option Nat × Nat × Nat) :
    Prop where
  chosen : ∀ b, s.1 = some b → b ∈ seen ∧ s.2.1 = minDiscard infos b ∧
    s.2.2 = totalDiscard infos b
  unset : s.1 = none → s.2.1 = 0 ∧ s.2.2 = 0
  best : ∀ b ∈ seen, minDiscard infos b < s.2.1 ∨
    (minDiscard infos b = s.2.1 ∧ totalDiscard infos b ≤ s.2.2)

theorem BestBit.step {seen : List Nat} {s : Option Nat × Nat × Nat} (h : BestBit infos seen s)
    (b : Nat) : BestBit infos (seen ++ [b]) (betterBit infos s b) := by
  rw [betterBit_eq]
  by_cases hc : s.2.1 < minDiscard infos b ∨
      (minDiscard infos b = s.2.1 ∧ s.2.2 < totalDiscard infos b)
  · rw [if_pos hc]
    refine ⟨?_, ?_, ?_⟩
    · intro b' hb'
      cases hb'
      exact ⟨by simp, rfl, rfl⟩
    · intro hnone
      cases hnone
    · intro b' hb'
      show _ < minDiscard infos b ∨ _ = minDiscard infos b ∧ _ ≤ totalDiscard infos b
      rcases List.mem_append.mp hb' with hb' | hb'
      · have hbest := h.best b' hb'
        omega
      · rw [List.mem_singleton.mp hb']
        omega
  · rw [if_neg hc]
    refine ⟨?_, h.unset, ?_⟩
    · intro b' hb'
      obtain ⟨hmem, hrest⟩ := h.chosen b' hb'
      exact ⟨List.mem_append_left _ hmem, hrest⟩
    · intro b' hb'
      rcases List.mem_append.mp hb' with hb' | hb'
      · exact h.best b' hb'
      · rw [List.mem_singleton.mp hb']
        omega

theorem foldl_betterBit (bits seen : List Nat) {s : Option Nat × Nat × Nat}
    (h : BestBit infos seen s) : BestBit infos (seen ++ bits) (bits.foldl (betterBit infos) s) := by
  induction bits generalizing seen s with
  | nil => simpa using h
  | cons b bits ih =>
    have hrest := ih (seen ++ [b]) (h.step b)
    simpa using hrest

theorem selectBit_best (size : WordSize) (infos : List MatchInfo) :
    BestBit infos (List.range size.bits).reverse
      ((List.range size.bits).reverse.foldl (betterBit infos) (none, 0, 0)) := by
  have hstart : BestBit infos [] (none, 0, 0) := by
    refine ⟨?_, fun _ => ⟨rfl, rfl⟩, ?_⟩
    · intro b hb
      cases hb
    · intro b hb
      cases hb
  simpa using foldl_betterBit (List.range size.bits).reverse [] hstart

end Select

section Stuck

variable {size : WordSize} {s : List MatchInfo} {b : Nat} {v : Bool}

def FixedTo (s : List MatchInfo) (b : Nat) (v : Bool) : Prop :=
  ∀ info ∈ s, info.mask.testBit b = true ∧ info.value.testBit b = v

def Splits (s : List MatchInfo) (b : Nat) : Prop :=
  ∀ v, ∃ info ∈ s, info.mask.testBit b = true ∧ info.value.testBit b = v

/-- More than three candidates, no bit tells any two of them apart, and there is a bit that all of
them have fixed. -/
def Stuck (size : WordSize) (s : List MatchInfo) : Prop :=
  3 < s.length ∧ (∀ b < size.bits, ¬ Splits s b) ∧ ∃ b < size.bits, ∃ v, FixedTo s b v

theorem notOneBit_le : notOneBit s b v ≤ s.length := List.length_filter_le _ _

theorem notOneBit_eq_length : notOneBit s b v = s.length ↔ FixedTo s b v := by
  unfold notOneBit FixedTo
  rw [List.length_filter_eq_length_iff]
  simp

theorem notOneBit_pos : 0 < notOneBit s b v ↔
    ∃ info ∈ s, info.mask.testBit b = true ∧ info.value.testBit b = v := by
  unfold notOneBit
  rw [List.length_pos_iff_exists_mem]
  simp

theorem minDiscard_pos : 0 < minDiscard s b ↔ Splits s b := by
  unfold minDiscard Splits
  rw [Nat.lt_min, notOneBit_pos, notOneBit_pos]
  constructor
  · rintro ⟨htrue, hfalse⟩ v
    cases v with
    | true => exact htrue
    | false => exact hfalse
  · intro h
    exact ⟨h true, h false⟩

theorem selInfos_eq_nil : selInfos s b v = [] ↔ FixedTo s b (!v) := by
  unfold selInfos FixedTo
  rw [List.filter_eq_nil_iff]
  constructor
  · intro h info hinfo
    have := h info hinfo
    cases hm : info.mask.testBit b <;> cases hv : info.value.testBit b <;> cases v <;> simp_all
  · intro h info hinfo
    obtain ⟨hm, hv⟩ := h info hinfo
    simp [hm, hv]

theorem stuck_iff (hmany : 3 < s.length) :
    (∃ b v, selectBit size s = some b ∧ selInfos s b v = []) ↔ Stuck size s := by
  have hbest := selectBit_best size s
  have hmem : ∀ b, b ∈ (List.range size.bits).reverse ↔ b < size.bits := by
    intro b
    simp
  constructor
  · rintro ⟨b, v, hbit, hnil⟩
    have hfixed := selInfos_eq_nil.mp hnil
    obtain ⟨hb, hmin, -⟩ := hbest.chosen b hbit
    have hnone : minDiscard s b = 0 := by
      by_contra hpos
      obtain ⟨info, hinfo, -, hv⟩ := minDiscard_pos.mp (Nat.pos_of_ne_zero hpos) v
      have hv' := (hfixed info hinfo).2
      rw [hv] at hv'
      cases v <;> cases hv'
    refine ⟨hmany, ?_, b, (hmem b).mp hb, !v, hfixed⟩
    intro b' hb' hsplit
    have hpos := minDiscard_pos.mpr hsplit
    have hle := hbest.best b' ((hmem b').mpr hb')
    omega
  · rintro ⟨-, hsplit, b', hb', v', hfixed'⟩
    have htotal' : s.length ≤ totalDiscard s b' := by
      have hall := notOneBit_eq_length.mpr hfixed'
      unfold totalDiscard
      cases v' with
      | true => omega
      | false => omega
    have hle := hbest.best b' ((hmem b').mpr hb')
    have hmin' : minDiscard s b' = 0 := by
      by_contra hpos
      exact hsplit b' hb' (minDiscard_pos.mp (Nat.pos_of_ne_zero hpos))
    cases hbit : selectBit size s with
    | none =>
      obtain ⟨hm, ht⟩ := hbest.unset hbit
      omega
    | some b =>
      obtain ⟨hb, hm, ht⟩ := hbest.chosen b hbit
      have hmin : minDiscard s b = 0 := by
        by_contra hpos
        exact hsplit b ((hmem b).mp hb) (minDiscard_pos.mp (Nat.pos_of_ne_zero hpos))
      -- one of the counts is zero, so the other one is the total
      have hone := @notOneBit_le s b true
      have hzero := @notOneBit_le s b false
      have hcount : min (notOneBit s b true) (notOneBit s b false) = 0 := hmin
      have htotal : s.length ≤ notOneBit s b true + notOneBit s b false := by
        unfold totalDiscard at ht
        omega
      by_cases hall : notOneBit s b true = s.length
      · exact ⟨b, false, rfl, selInfos_eq_nil.mpr (notOneBit_eq_length.mp hall)⟩
      · have hall' : notOneBit s b false = s.length := by
          omega
        exact ⟨b, true, rfl, selInfos_eq_nil.mpr (notOneBit_eq_length.mp hall')⟩

theorem quickSets_nonempty {infos : List MatchInfo} (hne : infos ≠ []) :
    (∀ s, QuickSet size infos s → s ≠ []) ↔ ∀ s, QuickSet size infos s → ¬ Stuck size s := by
  constructor
  · intro h s hs hstuck
    obtain ⟨b, v, hbit, hnil⟩ := (stuck_iff hstuck.1).mpr hstuck
    refine h _ (.side v hs hstuck.1 hbit ?_) hnil
    have hmany := hstuck.1
    rw [hnil, List.length_nil]
    omega
  · intro h s hs
    cases hs with
    | all => exact hne
    | side v reached many bit less =>
      intro hnil
      exact h _ reached ((stuck_iff many).mp ⟨_, v, bit, hnil⟩)

end Stuck

def MatchInfo.compatible (path : List (Nat × Bool)) (info : MatchInfo) : Bool :=
  path.all fun x => !(info.mask.testBit x.1 && info.value.testBit x.1 != x.2)

/-- The tests on the way to each leaf, and the numbers of the candidates listed there. -/
def MatchTree.leaves : MatchTree → List (List (Nat × Bool) × List Nat)
  | .single n => [([], [n])]
  | .full entries => [([], entries.map fun e => e.1.index)]
  | .test b one zero => one.leaves.map (fun l => ((b, true) :: l.1, l.2)) ++
      zero.leaves.map fun l => ((b, false) :: l.1, l.2)

def MatchTree.calls : MatchTree → List (List (Nat × Bool))
  | .single _ => [[]]
  | .full _ => [[]]
  | .test b one zero =>
    [] :: (one.calls.map (fun p => (b, true) :: p) ++ zero.calls.map fun p => (b, false) :: p)

/-- A leaf lists just the candidates that the tests leave, and there is one at every call. -/
structure MatchTree.Lists (t : MatchTree) (infos : List MatchInfo) : Prop where
  leaves : ∀ leaf ∈ t.leaves,
    leaf.2 = (infos.filter (MatchInfo.compatible leaf.1)).map MatchInfo.index
  calls : ∀ path ∈ t.calls, infos.filter (MatchInfo.compatible path) ≠ []

section Lists

variable {size : WordSize} {s : List MatchInfo} {t : MatchTree}

theorem filter_compatible_nil : s.filter (MatchInfo.compatible []) = s := by
  simp [MatchInfo.compatible]

theorem filter_compatible_cons (b : Nat) (v : Bool) (path : List (Nat × Bool)) :
    (selInfos s b v).filter (MatchInfo.compatible path) =
      s.filter (MatchInfo.compatible ((b, v) :: path)) := by
  rw [selInfos, List.filter_filter]
  apply List.filter_congr
  intro info _
  simp only [MatchInfo.compatible, List.all_cons]
  exact Bool.and_comm _ _

theorem fullMatch_lists (h : fullMatch s = some t) : t.Lists s := by
  unfold fullMatch at h
  split at h
  · cases h
  · next hne =>
    cases h
    refine ⟨?_, ?_⟩
    · intro leaf hleaf
      rw [List.mem_singleton.mp hleaf, filter_compatible_nil, List.map_map]
      rfl
    · intro path hpath
      rw [List.mem_singleton.mp hpath, filter_compatible_nil]
      simpa using hne

theorem test_lists {b : Nat} {one zero : MatchTree} (hne : s ≠ [])
    (hone : one.Lists (selInfos s b true)) (hzero : zero.Lists (selInfos s b false)) :
    (MatchTree.test b one zero).Lists s := by
  refine ⟨?_, ?_⟩
  · intro leaf hleaf
    rcases List.mem_append.mp hleaf with hleaf | hleaf
    · obtain ⟨l, hl, rfl⟩ := List.mem_map.mp hleaf
      rw [← filter_compatible_cons]
      exact hone.leaves l hl
    · obtain ⟨l, hl, rfl⟩ := List.mem_map.mp hleaf
      rw [← filter_compatible_cons]
      exact hzero.leaves l hl
  · intro path hpath
    rcases List.mem_cons.mp hpath with rfl | hpath
    · rw [filter_compatible_nil]
      exact hne
    rcases List.mem_append.mp hpath with hpath | hpath
    · obtain ⟨p, hp, rfl⟩ := List.mem_map.mp hpath
      rw [← filter_compatible_cons]
      exact hone.calls p hp
    · obtain ⟨p, hp, rfl⟩ := List.mem_map.mp hpath
      rw [← filter_compatible_cons]
      exact hzero.calls p hp

theorem genMatchDeclQuick_cases {fuel : Nat} (h : genMatchDeclQuick size fuel s = some t) :
    ∃ less, fuel = less + 1 ∧ ((∃ info, s = [info] ∧ t = .single info.index) ∨
      (s.length ≠ 1 ∧ (selectBit size s = none ∨ s.length ≤ 3) ∧ fullMatch s = some t) ∨
      ∃ b one zero, 3 < s.length ∧ selectBit size s = some b ∧ t = .test b one zero ∧
        ∀ v, (if s.length ≤ (selInfos s b v).length then fullMatch (selInfos s b v)
          else genMatchDeclQuick size less (selInfos s b v)) = some (if v = true then one else zero)) := by
  cases fuel with
  | zero => cases h
  | succ less =>
    refine ⟨less, rfl, ?_⟩
    unfold genMatchDeclQuick at h
    split at h
    · next info =>
      exact .inl ⟨info, rfl, (Option.some.inj h).symm⟩
    · next hmore hbit =>
      refine .inr (.inl ⟨?_, .inl hbit, h⟩)
      intro hlen
      obtain ⟨info, rfl⟩ := List.length_eq_one_iff.mp hlen
      exact hmore info rfl
    · next b hmore hbit =>
      split at h
      · next hmany =>
        obtain ⟨one, hone, h⟩ := Option.bind_eq_some_iff.mp h
        obtain ⟨zero, hzero, h⟩ := Option.map_eq_some_iff.mp h
        refine .inr (.inr ⟨b, one, zero, hmany, hbit, h.symm, ?_⟩)
        intro v
        cases v with
        | true => exact hone
        | false => exact hzero
      · next hfew =>
        refine .inr (.inl ⟨?_, .inr (Nat.not_lt.mp hfew), h⟩)
        intro hlen
        obtain ⟨info, rfl⟩ := List.length_eq_one_iff.mp hlen
        exact hmore info rfl

theorem genMatchDeclQuick_lists {fuel : Nat} (h : genMatchDeclQuick size fuel s = some t) :
    t.Lists s := by
  induction fuel generalizing s t with
  | zero => cases h
  | succ fuel ih =>
    obtain ⟨less, hless, ⟨info, rfl, rfl⟩ | ⟨-, -, hfull⟩ | ⟨b, one, zero, hmany, -, rfl, hside⟩⟩ :=
      genMatchDeclQuick_cases h
    · refine ⟨?_, ?_⟩
      · intro leaf hleaf
        rw [List.mem_singleton.mp hleaf, filter_compatible_nil]
        rfl
      · intro path hpath
        rw [List.mem_singleton.mp hpath, filter_compatible_nil]
        exact List.cons_ne_nil _ _
    · exact fullMatch_lists hfull
    · cases Nat.succ.inj hless
      have hsub : ∀ v, (if v = true then one else zero).Lists (selInfos s b v) := by
        intro v
        have hv := hside v
        split at hv
        · exact fullMatch_lists hv
        · exact ih hv
      refine test_lists ?_ (hsub true) (hsub false)
      intro hnil
      rw [hnil, List.length_nil] at hmany
      omega

theorem genMatchDeclQuick_full {fuel : Nat} (hlen : s.length ≠ 1)
    (hstop : selectBit size s = none ∨ s.length ≤ 3) :
    genMatchDeclQuick size (fuel + 1) s = fullMatch s := by
  unfold genMatchDeclQuick
  split
  · exact absurd rfl hlen
  · rfl
  · next b hmore hbit =>
    rcases hstop with hnone | hfew
    · rw [hnone] at hbit
      cases hbit
    · exact if_neg (by omega)

theorem genMatchDeclQuick_test {fuel b : Nat} {one zero : MatchTree} (hmany : 3 < s.length)
    (hbit : selectBit size s = some b)
    (hside : ∀ v, (if s.length ≤ (selInfos s b v).length then fullMatch (selInfos s b v)
      else genMatchDeclQuick size fuel (selInfos s b v)) = some (if v = true then one else zero)) :
    genMatchDeclQuick size (fuel + 1) s = some (.test b one zero) := by
  unfold genMatchDeclQuick
  split
  · simp at hmany
  · next hnone =>
    rw [hbit] at hnone
    cases hnone
  · next b' hmore hbit' =>
    cases hbit.symm.trans hbit'
    rw [if_pos hmany]
    dsimp only
    rw [hside true, hside false]
    rfl

theorem genMatchDeclQuick_mono {fuel fuel' : Nat} (hle : fuel ≤ fuel')
    (h : genMatchDeclQuick size fuel s = some t) : genMatchDeclQuick size fuel' s = some t := by
  induction fuel generalizing s t fuel' with
  | zero => cases h
  | succ fuel ih =>
    obtain ⟨fuel', rfl⟩ : ∃ less, fuel' = less + 1 := ⟨fuel' - 1, by omega⟩
    obtain ⟨less, hless, ⟨info, rfl, rfl⟩ | ⟨hlen, hstop, hfull⟩ |
      ⟨b, one, zero, hmany, hbit, rfl, hside⟩⟩ := genMatchDeclQuick_cases h
    · rfl
    · rw [genMatchDeclQuick_full hlen hstop]
      exact hfull
    · cases Nat.succ.inj hless
      apply genMatchDeclQuick_test hmany hbit
      intro v
      have hv := hside v
      split at hv
      · next hfull =>
        rw [if_pos hfull]
        exact hv
      · next hfull =>
        rw [if_neg hfull]
        exact ih (by omega) hv

end Lists

def QuickTreeOk (size : WordSize) (infos : List MatchInfo) : Prop :=
  ∃ t, (∀ fuel, infos.length ≤ fuel → genMatchDeclQuick size fuel infos = some t) ∧ t.Lists infos

/-- The generator comes to an end with the right tree if and only if it does not get to more than
three candidates which it cannot tell apart, but which all have one bit fixed. -/
theorem quick_tree_exact {size : WordSize} {infos : List MatchInfo} (_hsize : size.bits ≤ 32)
    (hne : infos ≠ []) :
    QuickTreeOk size infos ↔ ∀ s, QuickSet size infos s → ¬ Stuck size s := by
  rw [← quickSets_nonempty hne]
  constructor
  · rintro ⟨t, hend, -⟩
    apply (genMatchDeclQuick_isSome (Nat.le_refl _)).mp
    rw [hend _ (Nat.le_refl _)]
    rfl
  · intro h
    obtain ⟨t, ht⟩ := Option.isSome_iff_exists.mp
      ((genMatchDeclQuick_isSome (Nat.le_refl _)).mpr h)
    exact ⟨t, fun fuel hfuel => genMatchDeclQuick_mono hfuel ht, genMatchDeclQuick_lists ht⟩

/-- Eight candidates, by a number of three bits that is there three times, and one more that has only
the highest of the bits. -/
def tripledNumbers : List MatchInfo :=
  (List.range 8).map (fun i => ⟨i + 1, 0x1ff, i * 0x49⟩) ++ [⟨9, 0x100, 0x100⟩]

def sidesOf (s : List MatchInfo) : List (List MatchInfo) :=
  (selectBit .w32 s).elim [] fun b => [selInfos s b true, selInfos s b false]

def tripledSets : List (List MatchInfo) :=
  tripledNumbers :: (sidesOf tripledNumbers ++ (sidesOf tripledNumbers).flatMap sidesOf)

theorem tripledSets_closed : ∀ s ∈ tripledSets, 3 < s.length →
    ∀ b ∈ selectBit .w32 s, ∀ v, selInfos s b v ∈ tripledSets := by
  decide +kernel

theorem mem_tripledSets {s : List MatchInfo} (h : QuickSet .w32 tripledNumbers s) :
    s ∈ tripledSets := by
  induction h with
  | all => exact List.mem_cons_self
  | side v reached many bit less ih => exact tripledSets_closed _ ih many _ bit v

theorem tripledSets_not_stuck : ∀ s ∈ tripledSets, ¬ Stuck .w32 s := by
  unfold Stuck Splits FixedTo
  decide +kernel

/-- Too many bits for a table; the tree tests two of them, and has the pairs of three candidates to
compare at two of its leaves. -/
theorem quick_tree_exact_nine : WordSize.bits .w32 ≤ 32 ∧ tripledNumbers ≠ [] ∧
    tripledNumbers.length * 2 ^ 5 < 2 ^ (bitsDiffer tripledNumbers).length ∧
    QuickTreeOk .w32 tripledNumbers :=
  ⟨by decide, by decide, by decide +kernel,
    (quick_tree_exact (by decide) (by decide)).mpr fun s hs =>
      tripledSets_not_stuck s (mem_tripledSets hs)⟩

def commonBit : List MatchInfo :=
  [⟨1, 0x800000ff, 0x800000ff⟩, ⟨2, 0x80000000, 0x80000000⟩, ⟨3, 0x80000000, 0x80000000⟩,
    ⟨4, 0x80000000, 0x80000000⟩]

theorem common_bit_never_ends : commonBit ≠ [] ∧
    ¬ 2 ^ (bitsDiffer commonBit).length ≤ commonBit.length * 2 ^ 5 ∧
    ¬ QuickTreeOk .w32 commonBit := by
  refine ⟨by decide, by decide +kernel, ?_⟩
  rintro ⟨t, hend, -⟩
  have hnone : (genMatchDeclQuick .w32 4 commonBit).isSome = false := by
    decide +kernel
  rw [hend 4 (Nat.le_refl _)] at hnone
  cases hnone

end Ucesb
