import Mathlib.Data.List.Induction
import Ucesb.TermSums

namespace Ucesb

section TermMap

variable {κ M : Type} [AddCommMonoid M] [DecidableEq M]

def addTerm (rank : κ → Nat) (k : κ) (c : M) : List (κ × M) → List (κ × M)
  | [] => [(k, c)]
  | p :: ps =>
    if rank k < rank p.1 then (k, c) :: p :: ps
    else if rank p.1 < rank k then p :: addTerm rank k c ps
    else if p.2 + c = 0 then ps
    else (p.1, p.2 + c) :: ps

def addTerms (rank : κ → Nat) (m : List (κ × M)) (terms : List (κ × M)) : List (κ × M) :=
  terms.foldl (fun m p => addTerm rank p.1 p.2 m) m

def Ranked (rank : κ → Nat) (m : List (κ × M)) : Prop := m.Pairwise fun a b => rank a.1 < rank b.1

def NoZeros (m : List (κ × M)) : Prop := ∀ p ∈ m, p.2 ≠ 0

variable {rank : κ → Nat} {k : κ} {c : M} {m terms : List (κ × M)}

omit [AddCommMonoid M] [DecidableEq M] in
theorem Ranked.nodup_keys (h : Ranked rank m) : (m.map Prod.fst).Nodup := by
  refine List.pairwise_map.mpr (h.imp ?_)
  intro a b hlt heq
  rw [heq] at hlt
  exact lt_irrefl _ hlt

theorem addTerm_keys {p : κ × M} (h : p ∈ addTerm rank k c m) : p.1 = k ∨ ∃ q ∈ m, q.1 = p.1 := by
  induction m with
  | nil =>
    rw [addTerm, List.mem_singleton] at h
    exact .inl (by rw [h])
  | cons q m ih =>
    unfold addTerm at h
    split at h
    · rcases List.mem_cons.mp h with rfl | h
      · exact .inl rfl
      · exact .inr ⟨p, h, rfl⟩
    split at h
    · rcases List.mem_cons.mp h with rfl | h
      · exact .inr ⟨p, by simp, rfl⟩
      · rcases ih h with hk | ⟨r, hr, heq⟩
        · exact .inl hk
        · exact .inr ⟨r, by simp [hr], heq⟩
    split at h
    · exact .inr ⟨p, by simp [h], rfl⟩
    · rcases List.mem_cons.mp h with rfl | h
      · exact .inr ⟨q, by simp, rfl⟩
      · exact .inr ⟨p, by simp [h], rfl⟩

theorem Ranked.addTerm (h : Ranked rank m) (k : κ) (c : M) : Ranked rank (addTerm rank k c m) := by
  induction m with
  | nil => exact List.pairwise_singleton _ _
  | cons q m ih =>
    obtain ⟨hq, hm⟩ := List.pairwise_cons.mp h
    unfold Ucesb.addTerm
    split
    next hlt =>
      refine List.pairwise_cons.mpr ⟨?_, h⟩
      intro p hp
      rcases List.mem_cons.mp hp with rfl | hp
      · exact hlt
      · exact hlt.trans (hq p hp)
    split
    next hlt =>
      refine List.pairwise_cons.mpr ⟨?_, ih hm⟩
      intro p hp
      rcases addTerm_keys hp with hk | ⟨r, hr, heq⟩
      · rw [hk]
        exact hlt
      · rw [← heq]
        exact hq r hr
    split
    · exact hm
    · exact List.pairwise_cons.mpr ⟨hq, hm⟩

theorem NoZeros.addTerm (h : NoZeros m) (hc : c ≠ 0) : NoZeros (addTerm rank k c m) := by
  induction m with
  | nil =>
    intro p hp
    rw [List.mem_singleton.mp hp]
    exact hc
  | cons q m ih =>
    obtain ⟨hq, hm⟩ := List.forall_mem_cons.mp h
    unfold Ucesb.addTerm
    split
    · exact List.forall_mem_cons.mpr ⟨hc, h⟩
    split
    · exact List.forall_mem_cons.mpr ⟨hq, ih hm⟩
    split
    · exact hm
    next hne => exact List.forall_mem_cons.mpr ⟨hne, hm⟩

theorem Ranked.addTerms (h : Ranked rank m) (terms : List (κ × M)) :
    Ranked rank (addTerms rank m terms) := by
  induction terms generalizing m with
  | nil => exact h
  | cons p terms ih => exact ih (h.addTerm p.1 p.2)

theorem NoZeros.addTerms (h : NoZeros m) (hterms : NoZeros terms) :
    NoZeros (addTerms rank m terms) := by
  induction terms generalizing m with
  | nil => exact h
  | cons p terms ih =>
    obtain ⟨hp, hterms⟩ := List.forall_mem_cons.mp hterms
    exact ih (h.addTerm hp) hterms

variable [DecidableEq κ]

omit [DecidableEq M] in
theorem termSum_append (k : κ) (l l' : List (κ × M)) :
    termSum k (l ++ l') = termSum k l + termSum k l' := by
  induction l with
  | nil => rw [List.nil_append, termSum, zero_add]
  | cons p l ih =>
    rw [List.cons_append, termSum, termSum, ih]
    split
    · rw [add_assoc]
    · rfl

theorem termSum_addTerm (hrank : Function.Injective rank) (v : κ) :
    termSum v (addTerm rank k c m) = termSum v m + termSum v [(k, c)] := by
  induction m with
  | nil => rw [addTerm, termSum, zero_add]
  | cons q m ih =>
    unfold addTerm
    split
    · exact (termSum_append v [(k, c)] (q :: m)).trans (add_comm _ _)
    split
    · rw [termSum, termSum, ih]
      split
      · rw [add_assoc]
      · rfl
    next hge hle =>
      obtain rfl : k = q.1 := hrank (by omega)
      have hsum : termSum v (q :: m) + termSum v [(q.1, c)] =
          termSum v ((q.1, q.2 + c) :: m) := by
        rw [add_comm, ← termSum_append]
        simp only [termSum, List.cons_append, List.nil_append]
        split
        · rw [← add_assoc, add_comm c]
        · rfl
      rw [hsum]
      split
      next hzero =>
        rw [termSum, hzero]
        split
        · rw [zero_add]
        · rfl
      · rfl

theorem termSum_addTerms (hrank : Function.Injective rank) (v : κ) :
    termSum v (addTerms rank m terms) = termSum v m + termSum v terms := by
  induction terms generalizing m with
  | nil => exact (add_zero _).symm
  | cons p terms ih =>
    have hcons := termSum_append v [p] terms
    rw [List.singleton_append] at hcons
    rw [addTerms, List.foldl_cons, ← addTerms, ih, termSum_addTerm hrank, hcons, add_assoc]

omit [DecidableEq M] in
theorem Ranked.termSum_mem (h : Ranked rank m) {p : κ × M} (hp : p ∈ m) : termSum p.1 m = p.2 := by
  induction m with
  | nil => cases hp
  | cons q m ih =>
    obtain ⟨hq, hm⟩ := List.pairwise_cons.mp h
    rcases List.mem_cons.mp hp with rfl | hp
    · have hrest : termSum p.1 m = 0 := termSum_eq_zero fun r hr heq => by
        have hlt := hq r hr
        rw [heq] at hlt
        exact lt_irrefl _ hlt
      rw [termSum, if_pos rfl, hrest, add_zero]
    · have hne : q.1 ≠ p.1 := fun heq => by
        have hlt := hq p hp
        rw [heq] at hlt
        exact lt_irrefl _ hlt
      rw [termSum, if_neg hne, ih hm hp]

omit [DecidableEq M] in
theorem Ranked.mem_keys (h : Ranked rank m) (hz : NoZeros m) (k : κ) :
    (∃ p ∈ m, p.1 = k) ↔ termSum k m ≠ 0 := by
  constructor
  · rintro ⟨p, hp, rfl⟩
    rw [h.termSum_mem hp]
    exact hz p hp
  · intro hne
    by_contra hnone
    exact hne (termSum_eq_zero fun p hp heq => hnone ⟨p, hp, heq⟩)

theorem Ranked.perm_canonicalTerms {κ M : Type} [LinearOrder κ] [AddCommMonoid M] [DecidableEq M]
    {rank : κ → Nat} {m terms : List (κ × M)} (h : Ranked rank m) (hz : NoZeros m)
    (hsum : ∀ k, termSum k m = termSum k terms) : m.Perm (canonicalTerms terms) := by
  have hnodup : (canonicalTerms terms).Nodup := by
    refine (canonicalTerms_pairwise terms).imp ?_
    rintro a b hab rfl
    exact lt_irrefl _ hab
  rw [List.perm_ext_iff_of_nodup h.nodup_keys.of_map hnodup]
  rintro ⟨k, e⟩
  rw [mem_canonicalTerms, ← hsum]
  constructor
  · intro hmem
    exact ⟨h.termSum_mem hmem, hz _ hmem⟩
  · rintro ⟨rfl, hne⟩
    obtain ⟨p, hp, rfl⟩ := (h.mem_keys hz k).mpr hne
    rw [h.termSum_mem hp]
    exact hp

def keptStep (o : Option M) (c : M) : Option M :=
  match o with
  | none => some c
  | some f => if f + c = 0 then none else some (f + c)

/-- The coefficients of one key sum up to zero, and at their end are an odd number of zeros. -/
def LoneZero (cs : List M) : Prop :=
  cs.sum = 0 ∧ (cs.reverse.takeWhile (· = 0)).length % 2 = 1

instance (cs : List M) : Decidable (LoneZero cs) := inferInstanceAs (Decidable (_ ∧ _))

theorem not_loneZero {cs : List M} (h : ∀ c ∈ cs, c ≠ 0) : ¬LoneZero cs := by
  rintro ⟨-, hodd⟩
  cases hlast : cs.reverse with
  | nil =>
    rw [hlast] at hodd
    cases hodd
  | cons c rest =>
    have hc : c ≠ 0 := h c (List.mem_reverse.mp (hlast ▸ List.mem_cons_self ..))
    rw [hlast, List.takeWhile_cons_of_neg (by simpa using hc)] at hodd
    cases hodd

theorem kept_spec (cs : List M) :
    (cs.foldl keptStep none = none → cs.sum = 0 ∧ ¬LoneZero cs) ∧
      ∀ f, cs.foldl keptStep none = some f → f = cs.sum ∧ (f = 0 → LoneZero cs) := by
  induction cs using List.reverseRecOn with
  | nil => exact ⟨fun _ => ⟨rfl, fun h => nomatch h.2⟩, nofun⟩
  | append_singleton cs c ih =>
    have hsum : (cs ++ [c]).sum = cs.sum + c := by rw [List.sum_append, List.sum_singleton]
    have hlone : LoneZero (cs ++ [c]) ↔ c = 0 ∧ cs.sum = 0 ∧ ¬LoneZero cs := by
      unfold LoneZero
      rw [hsum, List.reverse_append, List.reverse_singleton, List.singleton_append,
        List.takeWhile_cons]
      by_cases hc : c = 0
      · simp only [hc, decide_true, if_true, List.length_cons, add_zero, true_and]
        refine and_congr_right fun hzero => ?_
        rw [and_iff_right hzero]
        omega
      · simp [hc]
    rw [List.foldl_append, List.foldl_cons, List.foldl_nil, hsum, hlone]
    cases hkept : cs.foldl keptStep none with
    | none =>
      obtain ⟨hzero, hnot⟩ := ih.1 hkept
      refine ⟨nofun, ?_⟩
      rintro f hf
      cases hf
      exact ⟨by rw [hzero, zero_add], fun hc => ⟨hc, hzero, hnot⟩⟩
    | some f =>
      obtain ⟨rfl, hlone⟩ := ih.2 f hkept
      unfold keptStep
      dsimp only
      split
      next hzero =>
        refine ⟨fun _ => ⟨hzero, ?_⟩, nofun⟩
        rintro ⟨-, hprev, hnot⟩
        exact hnot (hlone hprev)
      next hne =>
        refine ⟨nofun, ?_⟩
        rintro f hf
        cases hf
        exact ⟨rfl, fun hzero => absurd hzero hne⟩

def coefficients (k : κ) (terms : List (κ × M)) : List M :=
  (terms.filter fun p => p.1 = k).map Prod.snd

def keptOf (k : κ) (m : List (κ × M)) : Option M := (m.find? fun p => p.1 = k).map Prod.snd

omit [AddCommMonoid M] [DecidableEq M] in
theorem keptOf_none (h : ∀ p ∈ m, p.1 ≠ k) : keptOf k m = none := by
  have hnone : m.find? (fun p => p.1 = k) = none := by
    rw [List.find?_eq_none]
    exact fun p hp => by simpa using h p hp
  rw [keptOf, hnone, Option.map_none]

omit [AddCommMonoid M] [DecidableEq M] in
theorem keptOf_cons (v : κ) (p : κ × M) (m : List (κ × M)) :
    keptOf v (p :: m) = if p.1 = v then some p.2 else keptOf v m := by
  unfold keptOf
  rw [List.find?_cons]
  split <;> split <;> simp_all

theorem keptOf_addTerm (hm : Ranked rank m) (hrank : Function.Injective rank) (v : κ) :
    keptOf v (addTerm rank k c m) = if k = v then keptStep (keptOf v m) c else keptOf v m := by
  induction m with
  | nil => rw [addTerm, keptOf_cons]; rfl
  | cons q m ih =>
    obtain ⟨hq, hm'⟩ := List.pairwise_cons.mp hm
    have hne : ∀ {w}, rank w ≤ rank q.1 → ∀ p ∈ m, p.1 ≠ w := by
      rintro w hw p hp rfl
      have := hq p hp
      omega
    unfold addTerm
    split
    next hlt =>
      rw [keptOf_cons]
      split
      next hk =>
        subst hk
        rw [keptOf_none]
        · rfl
        · intro p hp
          rcases List.mem_cons.mp hp with rfl | hp
          · exact fun heq => absurd (heq ▸ hlt) (lt_irrefl _)
          · exact hne (Nat.le_of_lt hlt) p hp
      · rfl
    split
    next hlt =>
      rw [keptOf_cons, keptOf_cons, ih hm']
      split
      next hqv =>
        have hkv : k ≠ v := fun heq => by
          rw [heq, hqv] at hlt
          exact absurd hlt (lt_irrefl _)
        rw [if_neg hkv]
      · rfl
    next hge hle =>
      obtain rfl : k = q.1 := hrank (by omega)
      rw [keptOf_cons]
      by_cases hqv : q.1 = v
      · subst hqv
        rw [if_pos rfl, if_pos rfl, keptStep]
        split
        · exact keptOf_none (hne le_rfl)
        · rw [keptOf_cons, if_pos rfl]
      · rw [if_neg hqv, if_neg hqv]
        split
        · rfl
        · rw [keptOf_cons, if_neg hqv]

theorem keptOf_addTerms (hm : Ranked rank m) (hrank : Function.Injective rank) (v : κ) :
    keptOf v (addTerms rank m terms) = (coefficients v terms).foldl keptStep (keptOf v m) := by
  induction terms generalizing m with
  | nil => rfl
  | cons p terms ih =>
    rw [addTerms, List.foldl_cons, ← addTerms, ih (hm.addTerm p.1 p.2), keptOf_addTerm hm hrank]
    unfold coefficients
    by_cases hp : p.1 = v
    · rw [if_pos hp, List.filter_cons_of_pos (by simpa using hp), List.map_cons, List.foldl_cons]
    · rw [if_neg hp, List.filter_cons_of_neg (by simpa using hp)]

omit [DecidableEq M] in
theorem Ranked.noZeros_iff (h : Ranked rank m) : NoZeros m ↔ ∀ v, keptOf v m ≠ some 0 := by
  constructor
  · intro hz v hv
    obtain ⟨p, hp, hp0⟩ := Option.map_eq_some_iff.mp hv
    exact hz p (List.mem_of_find?_eq_some hp) hp0
  · intro hkept p hp hp0
    apply hkept p.1
    induction m with
    | nil => cases hp
    | cons q m ih =>
      obtain ⟨hq, hm⟩ := List.pairwise_cons.mp h
      rw [keptOf_cons]
      rcases List.mem_cons.mp hp with rfl | hp
      · rw [if_pos rfl, hp0]
      · have hne : q.1 ≠ p.1 := fun heq => by
          have hlt := hq p hp
          rw [heq] at hlt
          exact lt_irrefl _ hlt
        rw [if_neg hne]
        refine ih hm (fun v hv => hkept v ?_) hp
        rw [keptOf_cons]
        split
        next hqv =>
          obtain ⟨r, hr, -⟩ := Option.map_eq_some_iff.mp hv
          have hlt := hq r (List.mem_of_find?_eq_some hr)
          have hrv : r.1 = v := by simpa using List.find?_some hr
          rw [hqv, hrv] at hlt
          exact absurd hlt (lt_irrefl _)
        · exact hv

theorem noZeros_addTerms_iff (hrank : Function.Injective rank) (terms : List (κ × M)) :
    NoZeros (addTerms rank [] terms) ↔ ∀ v, ¬LoneZero (coefficients v terms) := by
  have hempty : Ranked rank ([] : List (κ × M)) := List.Pairwise.nil
  rw [(hempty.addTerms terms).noZeros_iff]
  refine forall_congr' fun v => not_congr ?_
  rw [keptOf_addTerms hempty hrank]
  obtain ⟨hnone, hsome⟩ := kept_spec (coefficients v terms)
  rw [keptOf_none (m := []) (by simp)]
  constructor
  · intro h
    exact (hsome 0 h).2 rfl
  · intro hlone
    cases hkept : (coefficients v terms).foldl keptStep none with
    | none => exact absurd hlone (hnone hkept).2
    | some f => rw [(hsome f hkept).1, hlone.1]

end TermMap

end Ucesb
