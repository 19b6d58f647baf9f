import Mathlib.Algebra.BigOperators.Group.List.Basic
import Mathlib.Data.List.Sort
import Mathlib.Tactic.Ring

namespace Ucesb

section TermSums

variable {κ M : Type} [DecidableEq κ] [AddCommMonoid M]

def termSum (k : κ) : List (κ × M) → M
  | [] => 0
  | p :: ps => if p.1 = k then p.2 + termSum k ps else termSum k ps

theorem termSum_eq_zero {k : κ} {l : List (κ × M)} (h : ∀ p ∈ l, p.1 ≠ k) : termSum k l = 0 := by
  induction l with
  | nil => rfl
  | cons p ps ih =>
    rw [termSum, if_neg (h p (by simp))]
    exact ih fun q hq => h q (by simp [hq])

theorem termSum_perm {k : κ} {l l' : List (κ × M)} (h : l.Perm l') :
    termSum k l = termSum k l' := by
  induction h with
  | nil => rfl
  | cons p _ ih =>
    unfold termSum
    split
    · rw [ih]
    · exact ih
  | swap p q l =>
    unfold termSum
    unfold termSum
    split <;> split <;> simp [add_left_comm]
  | trans _ _ ih1 ih2 => exact ih1.trans ih2

/-- Terms one after the other: equal keys are added up, and a sum that is zero is dropped. -/
def mergeTerms [DecidableEq M] (cur : κ × M) : List (κ × M) → List (κ × M)
  | [] => if cur.2 ≠ 0 then [cur] else []
  | p :: ps =>
    if cur.1 = p.1 then mergeTerms (cur.1, cur.2 + p.2) ps
    else if cur.2 ≠ 0 then cur :: mergeTerms p ps
    else mergeTerms p ps

end TermSums

section Canonical

variable {κ M : Type} [LinearOrder κ] [AddCommMonoid M] [DecidableEq M]

theorem mergeTerms_key_ge {cur : κ × M} {ps : List (κ × M)}
    (h : (cur :: ps).Pairwise fun a b => a.1 ≤ b.1) : ∀ q ∈ mergeTerms cur ps, cur.1 ≤ q.1 := by
  induction ps generalizing cur with
  | nil =>
    intro q hq
    unfold mergeTerms at hq
    split at hq
    · rw [List.mem_singleton.mp hq]
    · cases hq
  | cons p ps ih =>
    obtain ⟨hcur, hps⟩ := List.pairwise_cons.mp h
    have hp := hcur p (by simp)
    intro q hq
    unfold mergeTerms at hq
    split at hq
    next heq =>
      have hsorted : ((cur.1, cur.2 + p.2) :: ps).Pairwise fun a b => a.1 ≤ b.1 :=
        List.pairwise_cons.mpr ⟨fun r hr => hcur r (by simp [hr]), hps.of_cons⟩
      exact ih hsorted q hq
    next hne =>
      have hrest : ∀ r ∈ mergeTerms p ps, cur.1 ≤ r.1 := fun r hr => hp.trans (ih hps r hr)
      split at hq
      · rcases List.mem_cons.mp hq with rfl | hq
        · exact le_refl _
        · exact hrest q hq
      · exact hrest q hq

theorem mergeTerms_pairwise {cur : κ × M} {ps : List (κ × M)}
    (h : (cur :: ps).Pairwise fun a b => a.1 ≤ b.1) :
    (mergeTerms cur ps).Pairwise fun a b => a.1 < b.1 := by
  induction ps generalizing cur with
  | nil =>
    unfold mergeTerms
    split <;> simp
  | cons p ps ih =>
    obtain ⟨hcur, hps⟩ := List.pairwise_cons.mp h
    unfold mergeTerms
    split
    next heq =>
      refine ih ?_
      exact List.pairwise_cons.mpr ⟨fun r hr => hcur r (by simp [hr]), hps.of_cons⟩
    next hne =>
      have hlt : cur.1 < p.1 := lt_of_le_of_ne (hcur p (by simp)) hne
      split
      · refine List.pairwise_cons.mpr ⟨?_, ih hps⟩
        intro r hr
        exact lt_of_lt_of_le hlt (mergeTerms_key_ge hps r hr)
      · exact ih hps

theorem mem_mergeTerms {cur : κ × M} {ps : List (κ × M)} {k : κ} {e : M}
    (h : (cur :: ps).Pairwise fun a b => a.1 ≤ b.1) :
    (k, e) ∈ mergeTerms cur ps ↔ termSum k (cur :: ps) = e ∧ e ≠ 0 := by
  induction ps generalizing cur with
  | nil =>
    obtain ⟨a, c⟩ := cur
    simp only [mergeTerms, termSum, add_zero]
    by_cases hc : c = 0
    · subst hc
      simp [eq_comm]
    · by_cases hk : a = k
      · subst hk
        simp only [hc, ne_eq, not_false_eq_true, if_true, List.mem_singleton, Prod.mk.injEq,
          true_and]
        constructor
        · rintro rfl
          exact ⟨rfl, hc⟩
        · rintro ⟨rfl, -⟩
          rfl
      · simp [hc, hk, Ne.symm hk, eq_comm]
  | cons p ps ih =>
    obtain ⟨hcur, hps⟩ := List.pairwise_cons.mp h
    have hp := hcur p (by simp)
    unfold mergeTerms
    split
    next heq =>
      have hsum : termSum k ((cur.1, cur.2 + p.2) :: ps) = termSum k (cur :: p :: ps) := by
        simp only [termSum, ← heq]
        split <;> simp [add_assoc]
      have hsorted : ((cur.1, cur.2 + p.2) :: ps).Pairwise fun a b => a.1 ≤ b.1 :=
        List.pairwise_cons.mpr ⟨fun r hr => hcur r (by simp [hr]), hps.of_cons⟩
      rw [ih hsorted, hsum]
    next hne =>
      have hlt : cur.1 < p.1 := lt_of_le_of_ne hp hne
      have hgt : ∀ q ∈ p :: ps, cur.1 < q.1 := by
        intro q hq
        rcases List.mem_cons.mp hq with rfl | hq
        · exact hlt
        · exact lt_of_lt_of_le hlt ((List.pairwise_cons.mp hps).1 q hq)
      have hzero : termSum cur.1 (p :: ps) = 0 := termSum_eq_zero fun q hq => (hgt q hq).ne'
      by_cases hk : cur.1 = k
      · have hnot : (k, e) ∉ mergeTerms p ps := by
          intro hmem
          have hge := mergeTerms_key_ge hps _ hmem
          rw [← hk] at hge
          exact absurd hge (not_le.mpr hlt)
        have hsum : termSum k (cur :: p :: ps) = cur.2 := by
          subst hk
          rw [termSum, if_pos rfl, hzero, add_zero]
        rw [hsum]
        split
        next hc =>
          rw [List.mem_cons]
          constructor
          · rintro (heq | hmem)
            · rw [← heq] at hc ⊢
              exact ⟨rfl, hc⟩
            · exact absurd hmem hnot
          · rintro ⟨rfl, -⟩
            exact .inl (Prod.ext hk.symm rfl)
        next hc =>
          constructor
          · exact fun hmem => absurd hmem hnot
          · rintro ⟨rfl, he⟩
            exact absurd he hc
      · have hsum : termSum k (cur :: p :: ps) = termSum k (p :: ps) := by
          rw [termSum, if_neg hk]
        rw [hsum, ← ih hps]
        split
        · rw [List.mem_cons]
          constructor
          · rintro (heq | hmem)
            · exact absurd (congrArg Prod.fst heq).symm hk
            · exact hmem
          · exact .inr
        · exact Iff.rfl

def canonicalTerms (l : List (κ × M)) : List (κ × M) :=
  match l.insertionSort fun a b => a.1 ≤ b.1 with
  | [] => []
  | p :: ps => mergeTerms p ps

omit [AddCommMonoid M] [DecidableEq M] in
theorem sorted_terms (l : List (κ × M)) :
    (l.insertionSort fun a b => a.1 ≤ b.1).Pairwise fun a b => a.1 ≤ b.1 := by
  have htotal : Std.Total fun a b : κ × M => a.1 ≤ b.1 := ⟨fun a b => le_total a.1 b.1⟩
  have htrans : IsTrans (κ × M) fun a b => a.1 ≤ b.1 := ⟨fun _ _ _ h1 h2 => h1.trans h2⟩
  exact List.pairwise_insertionSort _ l

theorem mem_canonicalTerms {l : List (κ × M)} {k : κ} {e : M} :
    (k, e) ∈ canonicalTerms l ↔ termSum k l = e ∧ e ≠ 0 := by
  have hsorted := sorted_terms l
  have hsum := termSum_perm (k := k) (List.perm_insertionSort (fun a b => a.1 ≤ b.1) l)
  unfold canonicalTerms
  split
  next heq =>
    rw [heq] at hsum
    rw [← hsum]
    simp only [List.not_mem_nil, termSum, false_iff, not_and, not_not]
    exact fun h => h.symm
  next p ps heq =>
    rw [heq] at hsorted hsum
    rw [mem_mergeTerms hsorted, hsum]

theorem canonicalTerms_pairwise (l : List (κ × M)) :
    (canonicalTerms l).Pairwise fun a b => a.1 < b.1 := by
  have hsorted := sorted_terms l
  unfold canonicalTerms
  split
  · exact List.Pairwise.nil
  next p ps heq =>
    rw [heq] at hsorted
    exact mergeTerms_pairwise hsorted

theorem canonicalTerms_eq_iff {l l' : List (κ × M)} :
    canonicalTerms l = canonicalTerms l' ↔ ∀ k, termSum k l = termSum k l' := by
  constructor
  · intro heq k
    by_contra hne
    by_cases hz : termSum k l = 0
    · have hmem := (mem_canonicalTerms (l := l')).mpr ⟨rfl, fun h => hne (hz.trans h.symm)⟩
      rw [← heq] at hmem
      exact hne (mem_canonicalTerms.mp hmem).1
    · have hmem := (mem_canonicalTerms (l := l)).mpr ⟨rfl, hz⟩
      rw [heq] at hmem
      exact hne (mem_canonicalTerms.mp hmem).1.symm
  · intro h
    have hnodup : ∀ l : List (κ × M), (canonicalTerms l).Nodup := by
      intro l
      refine (canonicalTerms_pairwise l).imp ?_
      rintro a b hab rfl
      exact lt_irrefl _ hab
    have hperm : (canonicalTerms l).Perm (canonicalTerms l') := by
      rw [List.perm_ext_iff_of_nodup (hnodup l) (hnodup l')]
      rintro ⟨k, e⟩
      rw [mem_canonicalTerms, mem_canonicalTerms, h k]
    refine List.Perm.eq_of_pairwise ?_ (canonicalTerms_pairwise l) (canonicalTerms_pairwise l') hperm
    intro a b _ _ hab hba
    exact absurd hab (lt_asymm hba)

theorem termSum_canonicalTerms (l : List (κ × M)) (k : κ) :
    termSum k (canonicalTerms l) = termSum k l := by
  have hself : ∀ c : List (κ × M), c.Pairwise (fun a b => a.1 < b.1) → ∀ e, (k, e) ∈ c →
      termSum k c = e := by
    intro c hc e he
    induction c with
    | nil => cases he
    | cons p ps ih =>
      obtain ⟨hp, hps⟩ := List.pairwise_cons.mp hc
      rcases List.mem_cons.mp he with rfl | hmem
      · have hrest : termSum k ps = 0 := termSum_eq_zero fun q hq => (hp q hq).ne'
        rw [termSum, if_pos rfl, hrest, add_zero]
      · have hne : p.1 ≠ k := (hp _ hmem).ne
        rw [termSum, if_neg hne]
        exact ih hps hmem
  by_cases hz : termSum k l = 0
  · rw [hz]
    apply termSum_eq_zero
    rintro ⟨a, e⟩ hmem rfl
    have hsum := mem_canonicalTerms.mp hmem
    exact hsum.2 (hsum.1.symm.trans hz)
  · exact hself _ (canonicalTerms_pairwise l) _ (mem_canonicalTerms.mpr ⟨rfl, hz⟩)

theorem canonicalTerms_idem (l : List (κ × M)) :
    canonicalTerms (canonicalTerms l) = canonicalTerms l :=
  canonicalTerms_eq_iff.mpr (termSum_canonicalTerms l)

end Canonical

end Ucesb
