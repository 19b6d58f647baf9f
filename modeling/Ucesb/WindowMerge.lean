import Mathlib.Data.List.MinMax
import Mathlib.Algebra.Order.BigOperators.Group.List
import Mathlib.Tactic.Linarith

namespace Ucesb

section WindowMerge

variable {α κ : Type} (ts : α → Nat) (window : Nat)

/-- An item in a queue; `prevWithin` if the item before it was stitched in the same window. -/
structure Queued (α : Type) where
  item : α
  prevWithin : Bool
deriving DecidableEq

/-- A stitched event: the item that gives the header, the members, and the flags. -/
structure Stitched (α κ : Type) where
  header : Option α
  members : List (κ × α)
  prevWithin : Bool
  nextWithin : Bool
deriving DecidableEq

def Queued.fresh (a : α) : Queued α := ⟨a, false⟩

variable (ids : List κ) (qs : κ → List (Queued α))

def headTs (q : List (Queued α)) : Option Nat := q.head?.map fun x => ts x.item

def oldestHead : Option Nat := (ids.filterMap fun i => headTs ts (qs i)).min?

def nextInside (limit : Nat) (q : List (Queued α)) : Bool :=
  (q.head?).any fun x => ts x.item ≤ limit

def markNext (limit : Nat) : List (Queued α) → List (Queued α)
  | [] => []
  | x :: q => if ts x.item ≤ limit then { x with prevWithin := true } :: q else x :: q

/-- What a queue contributes: its head and whether the next item would have matched too. -/
def contribution (limit : Nat) (i : κ) : List (Queued α) → Option (κ × Queued α × Bool)
  | [] => none
  | x :: q => if ts x.item ≤ limit then some (i, x, nextInside ts limit q) else none

def afterJoin (limit : Nat) : List (Queued α) → List (Queued α)
  | [] => []
  | x :: q => if ts x.item ≤ limit then markNext ts limit q else x :: q

def joinHeads (limit : Nat) : List (κ × Queued α × Bool) :=
  ids.filterMap fun i => contribution ts limit i (qs i)

def stitched (t0 : Nat) (joined : List (κ × Queued α × Bool)) : Stitched α κ where
  header := (joined.find? fun m => ts m.2.1.item = t0).map fun m => m.2.1.item
  members := joined.map fun m => (m.1, m.2.1.item)
  prevWithin := joined.any fun m => m.2.1.prevWithin
  nextWithin := joined.any fun m => m.2.2

/-- The events stitched while the oldest head is below the bound, and what is left. -/
def stitchBelow (bound : Nat) : Nat → (κ → List (Queued α)) →
    List (Stitched α κ) × (κ → List (Queued α))
  | 0, qs => ([], qs)
  | fuel + 1, qs =>
    match oldestHead ts ids qs with
    | none => ([], qs)
    | some t0 =>
      if t0 < bound then
        let r := stitchBelow bound fuel fun i => afterJoin ts (t0 + window) (qs i)
        (stitched ts t0 (joinHeads ts ids qs (t0 + window)) :: r.1, r.2)
      else ([], qs)

def stitchAll : Nat → (κ → List (Queued α)) → List (Stitched α κ)
  | 0, _ => []
  | fuel + 1, qs =>
    match oldestHead ts ids qs with
    | none => []
    | some t0 =>
      stitched ts t0 (joinHeads ts ids qs (t0 + window)) ::
        stitchAll fuel fun i => afterJoin ts (t0 + window) (qs i)

def itemCount : Nat := (ids.map fun i => (qs i).length).sum

variable {ts window ids qs}

theorem oldestHead_le {t0 : Nat} (h : oldestHead ts ids qs = some t0) {i : κ} (hi : i ∈ ids)
    {x : Queued α} {q : List (Queued α)} (hq : qs i = x :: q) : t0 ≤ ts x.item := by
  have hm : ts x.item ∈ ids.filterMap fun i => headTs ts (qs i) :=
    List.mem_filterMap.mpr ⟨i, hi, by rw [hq]; rfl⟩
  exact (List.min?_eq_some_iff.mp h).2 _ hm

theorem oldestHead_mem {t0 : Nat} (h : oldestHead ts ids qs = some t0) :
    ∃ i ∈ ids, ∃ x q, qs i = x :: q ∧ ts x.item = t0 := by
  obtain ⟨i, hi, he⟩ := List.mem_filterMap.mp (List.min?_eq_some_iff.mp h).1
  cases hq : qs i with
  | nil =>
    rw [hq] at he
    cases he
  | cons x q =>
    rw [hq] at he
    exact ⟨i, hi, x, q, hq, Option.some.inj he⟩

theorem oldestHead_none (h : oldestHead ts ids qs = none) {i : κ} (hi : i ∈ ids) : qs i = [] := by
  cases hq : qs i with
  | nil => rfl
  | cons x q =>
    have hm : ts x.item ∈ ids.filterMap fun i => headTs ts (qs i) :=
      List.mem_filterMap.mpr ⟨i, hi, by rw [hq]; rfl⟩
    rw [List.min?_eq_none_iff.mp h] at hm
    cases hm

theorem oldestHead_eq_of {t0 : Nat} (hle : ∀ i ∈ ids, ∀ x q, qs i = x :: q → t0 ≤ ts x.item)
    (hmem : ∃ i ∈ ids, ∃ x q, qs i = x :: q ∧ ts x.item = t0) :
    oldestHead ts ids qs = some t0 := by
  apply List.min?_eq_some_iff.mpr
  constructor
  · obtain ⟨i, hi, x, q, hq, he⟩ := hmem
    exact List.mem_filterMap.mpr ⟨i, hi, by rw [hq, ← he]; rfl⟩
  · intro t ht
    obtain ⟨i, hi, he⟩ := List.mem_filterMap.mp ht
    cases hq : qs i with
    | nil =>
      rw [hq] at he
      cases he
    | cons x q =>
      rw [hq] at he
      cases he
      exact hle i hi x q hq

theorem markNext_length (limit : Nat) (q : List (Queued α)) :
    (markNext ts limit q).length = q.length := by
  cases q with
  | nil => rfl
  | cons x q =>
    simp only [markNext]
    split <;> rfl

theorem afterJoin_length_le (limit : Nat) (q : List (Queued α)) :
    (afterJoin ts limit q).length ≤ q.length := by
  cases q with
  | nil => exact le_refl _
  | cons x q =>
    simp only [afterJoin]
    split
    · rw [markNext_length]
      exact Nat.le_succ _
    · exact le_refl _

theorem itemCount_afterJoin (window : Nat) {t0 : Nat} (h : oldestHead ts ids qs = some t0) :
    itemCount ids (fun i => afterJoin ts (t0 + window) (qs i)) < itemCount ids qs := by
  obtain ⟨i, hi, x, q, hq, he⟩ := oldestHead_mem h
  unfold itemCount
  apply List.sum_lt_sum
  · intro j _
    exact afterJoin_length_le _ _
  · refine ⟨i, hi, ?_⟩
    simp only [hq, afterJoin]
    rw [if_pos (by omega), markNext_length]
    exact Nat.lt_succ_self _

theorem stitchAll_fuel {fuel : Nat} (h : itemCount ids qs ≤ fuel) :
    stitchAll ts window ids fuel qs = stitchAll ts window ids (itemCount ids qs) qs := by
  induction fuel using Nat.strongRecOn generalizing qs with
  | _ fuel ih =>
    cases hold : oldestHead ts ids qs with
    | none =>
      have hz : ∀ k, stitchAll ts window ids k qs = [] := by
        intro k
        cases k with
        | zero => rfl
        | succ k =>
          unfold stitchAll
          rw [hold]
      rw [hz, hz]
    | some t0 =>
      have hlt := itemCount_afterJoin window hold
      obtain ⟨n, hn⟩ : ∃ n, itemCount ids qs = n + 1 := ⟨itemCount ids qs - 1, by omega⟩
      obtain ⟨m, hm⟩ : ∃ m, fuel = m + 1 := ⟨fuel - 1, by omega⟩
      rw [hn, hm]
      unfold stitchAll
      rw [hold]
      dsimp only
      rw [ih m (by omega) (by omega), ih n (by omega) (by omega)]

theorem markNext_append {limit : Nat} (q : List (Queued α)) {later : List (Queued α)}
    (h : ∀ x ∈ later, limit < ts x.item) :
    markNext ts limit (q ++ later) = markNext ts limit q ++ later := by
  cases q with
  | cons x q =>
    simp only [List.cons_append, markNext]
    split <;> rfl
  | nil =>
    cases later with
    | nil => rfl
    | cons x later =>
      have hx := h x List.mem_cons_self
      simp only [List.nil_append, markNext]
      rw [if_neg (by omega)]

theorem nextInside_append {limit : Nat} (q : List (Queued α)) {later : List (Queued α)}
    (h : ∀ x ∈ later, limit < ts x.item) :
    nextInside ts limit (q ++ later) = nextInside ts limit q := by
  cases q with
  | cons x q => rfl
  | nil =>
    cases later with
    | nil => rfl
    | cons x later =>
      have hx := h x List.mem_cons_self
      simp [nextInside, hx]

theorem contribution_append {limit : Nat} (i : κ) (q : List (Queued α)) {later : List (Queued α)}
    (h : ∀ x ∈ later, limit < ts x.item) :
    contribution ts limit i (q ++ later) = contribution ts limit i q := by
  cases q with
  | cons x q =>
    simp only [List.cons_append, contribution]
    rw [nextInside_append q h]
  | nil =>
    cases later with
    | nil => rfl
    | cons x later =>
      have hx := h x List.mem_cons_self
      simp only [List.nil_append, contribution]
      rw [if_neg (by omega)]

theorem afterJoin_append {limit : Nat} (q : List (Queued α)) {later : List (Queued α)}
    (h : ∀ x ∈ later, limit < ts x.item) :
    afterJoin ts limit (q ++ later) = afterJoin ts limit q ++ later := by
  cases q with
  | cons x q =>
    simp only [List.cons_append, afterJoin]
    rw [markNext_append q h]
    split <;> rfl
  | nil =>
    cases later with
    | nil => rfl
    | cons x later =>
      have hx := h x List.mem_cons_self
      simp only [List.nil_append, afterJoin]
      rw [if_neg (by omega)]

theorem oldestHead_append {t0 : Nat} {later : κ → List (Queued α)}
    (h : oldestHead ts ids qs = some t0) (hl : ∀ i, ∀ x ∈ later i, t0 ≤ ts x.item) :
    oldestHead ts ids (fun i => qs i ++ later i) = some t0 := by
  apply oldestHead_eq_of
  · intro i hi x q hq
    cases hqs : qs i with
    | nil =>
      rw [hqs] at hq
      exact hl i x (by rw [show later i = x :: q from hq]; exact List.mem_cons_self)
    | cons y p =>
      rw [hqs] at hq
      simp only [List.cons_append, List.cons.injEq] at hq
      rw [← hq.1]
      exact oldestHead_le h hi hqs
  · obtain ⟨i, hi, x, q, hq, he⟩ := oldestHead_mem h
    exact ⟨i, hi, x, q ++ later i, by rw [hq]; rfl, he⟩

theorem stitchAll_of_below {bound fuel : Nat} {later : κ → List (Queued α)}
    (hl : ∀ i, ∀ x ∈ later i, bound + window ≤ ts x.item) :
    stitchAll ts window ids (itemCount ids fun i => qs i ++ later i) (fun i => qs i ++ later i) =
      (stitchBelow ts window ids bound fuel qs).1 ++
        stitchAll ts window ids
          (itemCount ids fun i => (stitchBelow ts window ids bound fuel qs).2 i ++ later i)
          (fun i => (stitchBelow ts window ids bound fuel qs).2 i ++ later i) := by
  induction fuel generalizing qs with
  | zero => rfl
  | succ fuel ih =>
    unfold stitchBelow
    cases hold : oldestHead ts ids qs with
    | none => rfl
    | some t0 =>
      by_cases hb : t0 < bound
      · simp only [hb, if_true]
        have hlate : ∀ i, ∀ x ∈ later i, t0 + window < ts x.item := by
          intro i x hx
          have := hl i x hx
          omega
        have hold' := oldestHead_append hold
          (fun i x hx => by have := hlate i x hx; omega : ∀ i, ∀ x ∈ later i, t0 ≤ ts x.item)
        have hrest : (fun i => afterJoin ts (t0 + window) (qs i ++ later i)) =
            fun i => afterJoin ts (t0 + window) (qs i) ++ later i := by
          funext i
          exact afterJoin_append _ (hlate i)
        have hjoin : joinHeads ts ids (fun i => qs i ++ later i) (t0 + window) =
            joinHeads ts ids qs (t0 + window) := by
          unfold joinHeads
          congr 1
          funext i
          exact contribution_append i _ (hlate i)
        have hlt := itemCount_afterJoin window hold'
        obtain ⟨n, hn⟩ : ∃ n, itemCount ids (fun i => qs i ++ later i) = n + 1 :=
          ⟨itemCount ids (fun i => qs i ++ later i) - 1, by omega⟩
        rw [hn]
        conv_lhs => unfold stitchAll
        rw [hold']
        dsimp only
        rw [hjoin, hrest] at *
        rw [stitchAll_fuel (by omega), ih]
        rfl
      · simp only [hb, if_false]
        rfl

theorem markNext_items (limit : Nat) (q : List (Queued α)) :
    (markNext ts limit q).map Queued.item = q.map Queued.item := by
  cases q with
  | nil => rfl
  | cons x q =>
    simp only [markNext]
    split <;> rfl

theorem queue_items (limit : Nat) (i : κ) (q : List (Queued α)) :
    q.map Queued.item = ((contribution ts limit i q).toList.map fun m => m.2.1.item) ++
      (afterJoin ts limit q).map Queued.item := by
  cases q with
  | nil => rfl
  | cons x q =>
    simp only [contribution, afterJoin]
    split
    · rw [markNext_items]
      rfl
    · rfl

theorem mem_afterJoin {limit : Nat} {q : List (Queued α)} {y : Queued α}
    (h : y ∈ afterJoin ts limit q) : ∃ x ∈ q, x.item = y.item := by
  have hm : y.item ∈ q.map Queued.item := by
    rw [@queue_items α Unit ts limit () q]
    exact List.mem_append_right _ (List.mem_map_of_mem h)
  obtain ⟨x, hx, he⟩ := List.mem_map.mp hm
  exact ⟨x, hx, he⟩

theorem stitchBelow_all {bound fuel : Nat} (hf : itemCount ids qs ≤ fuel)
    (hb : ∀ i ∈ ids, ∀ x ∈ qs i, ts x.item < bound) :
    (stitchBelow ts window ids bound fuel qs).1 =
      stitchAll ts window ids (itemCount ids qs) qs := by
  rw [← stitchAll_fuel hf]
  clear hf
  induction fuel generalizing qs with
  | zero => rfl
  | succ fuel ih =>
    unfold stitchBelow stitchAll
    cases hold : oldestHead ts ids qs with
    | none => rfl
    | some t0 =>
      obtain ⟨i, hi, x, q, hq, he⟩ := oldestHead_mem hold
      have hlt : t0 < bound := by
        rw [← he]
        exact hb i hi x (by rw [hq]; exact List.mem_cons_self)
      simp only [hlt, if_true]
      rw [ih]
      intro j hj y hy
      obtain ⟨z, hz, hzy⟩ := mem_afterJoin hy
      rw [← hzy]
      exact hb j hj z hz

def queueItems (ids : List κ) (qs : κ → List (Queued α)) : List (κ × α) :=
  ids.flatMap fun i => (qs i).map fun x => (i, x.item)

theorem queueItems_perm (limit : Nat) :
    (queueItems ids qs).Perm ((joinHeads ts ids qs limit).map (fun m => (m.1, m.2.1.item)) ++
      queueItems ids fun i => afterJoin ts limit (qs i)) := by
  induction ids with
  | nil => exact List.Perm.refl _
  | cons i ids ih =>
    have hi : (qs i).map (fun x => (i, x.item)) =
        ((contribution ts limit i (qs i)).toList.map fun m => (m.1, m.2.1.item)) ++
          (afterJoin ts limit (qs i)).map fun x => (i, x.item) := by
      cases hq : qs i with
      | nil => rfl
      | cons x q =>
        have hitems := @markNext_items α ts limit q
        simp only [contribution, afterJoin]
        split
        · have h2 := congrArg (List.map fun a => (i, a)) hitems
          simp only [List.map_map] at h2
          simp only [List.map_cons, Option.toList_some, List.map_nil, List.cons_append,
            List.nil_append, List.cons.injEq, true_and]
          exact h2.symm
        · rfl
    have hjoin : joinHeads ts (i :: ids) qs limit =
        (contribution ts limit i (qs i)).toList ++ joinHeads ts ids qs limit := by
      unfold joinHeads
      rw [List.filterMap_cons]
      cases contribution ts limit i (qs i) <;> rfl
    unfold queueItems at ih ⊢
    rw [List.flatMap_cons, List.flatMap_cons, hi, hjoin, List.map_append]
    refine (List.Perm.append_left _ ih).trans ?_
    rw [List.append_assoc, List.append_assoc]
    apply List.Perm.append_left
    rw [← List.append_assoc, ← List.append_assoc]
    exact List.perm_append_comm.append_right _

theorem stitchAll_members {fuel : Nat} (hf : itemCount ids qs ≤ fuel) :
    ((stitchAll ts window ids fuel qs).flatMap Stitched.members).Perm (queueItems ids qs) := by
  induction fuel generalizing qs with
  | zero =>
    have hz : ∀ i ∈ ids, qs i = [] := by
      intro i hi
      have hsum := List.single_le_sum (l := ids.map fun i => (qs i).length)
        (fun _ _ => Nat.zero_le _) _ (List.mem_map_of_mem hi)
      unfold itemCount at hf
      exact List.length_eq_zero_iff.mp (by omega)
    have he : queueItems ids qs = [] := by
      unfold queueItems
      apply List.flatMap_eq_nil_iff.mpr
      intro i hi
      rw [hz i hi]
      rfl
    rw [he]
    exact List.Perm.refl _
  | succ fuel ih =>
    unfold stitchAll
    cases hold : oldestHead ts ids qs with
    | none =>
      have he : queueItems ids qs = [] := by
        unfold queueItems
        apply List.flatMap_eq_nil_iff.mpr
        intro i hi
        rw [oldestHead_none hold hi]
        rfl
      rw [he]
      exact List.Perm.refl _
    | some t0 =>
      have hlt := itemCount_afterJoin window hold
      dsimp only
      rw [List.flatMap_cons]
      exact (List.Perm.append_left _ (ih (by omega))).trans
        (queueItems_perm (t0 + window)).symm

theorem oldestHead_ids {extra : List κ} (h : ∀ i ∈ extra, qs i = []) :
    oldestHead ts (ids ++ extra) qs = oldestHead ts ids qs := by
  have hz : extra.filterMap (fun i => headTs ts (qs i)) = [] := by
    apply List.filterMap_eq_nil_iff.mpr
    intro i hi
    rw [h i hi]
    rfl
  unfold oldestHead
  rw [List.filterMap_append, hz, List.append_nil]

theorem joinHeads_ids {limit : Nat} {extra : List κ} (h : ∀ i ∈ extra, qs i = []) :
    joinHeads ts (ids ++ extra) qs limit = joinHeads ts ids qs limit := by
  have hz : extra.filterMap (fun i => contribution ts limit i (qs i)) = [] := by
    apply List.filterMap_eq_nil_iff.mpr
    intro i hi
    rw [h i hi]
    rfl
  unfold joinHeads
  rw [List.filterMap_append, hz, List.append_nil]

theorem stitchBelow_ids {bound fuel : Nat} {extra : List κ} (h : ∀ i ∈ extra, qs i = []) :
    stitchBelow ts window (ids ++ extra) bound fuel qs =
      stitchBelow ts window ids bound fuel qs := by
  induction fuel generalizing qs with
  | zero => rfl
  | succ fuel ih =>
    unfold stitchBelow
    rw [oldestHead_ids h]
    cases hold : oldestHead ts ids qs with
    | none => rfl
    | some t0 =>
      dsimp only
      rw [joinHeads_ids h, ih]
      intro i hi
      rw [h i hi]
      rfl

end WindowMerge

end Ucesb
