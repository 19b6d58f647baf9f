import Mathlib.Data.Finset.Sort
import Mathlib.Tactic.Ring

namespace Ucesb

section Least

variable {κ : Type} [LinearOrder κ]

def leastPos : List (Option κ) → Option Nat
  | [] => none
  | none :: keys => (leastPos keys).map (· + 1)
  | some k :: keys =>
    match leastPos keys with
    | none => some 0
    | some p =>
      match keys[p]? with
      | some (some k') => if k' < k then some (p + 1) else some 0
      | _ => some 0

theorem leastPos_none {keys : List (Option κ)} :
    leastPos keys = none ↔ ∀ o ∈ keys, o = none := by
  induction keys with
  | nil => simp [leastPos]
  | cons o keys ih =>
    cases o with
    | none => simp [leastPos, ih]
    | some k =>
      simp only [leastPos, List.mem_cons, forall_eq_or_imp, reduceCtorEq, false_and, iff_false]
      split
      · simp
      · split
        · split <;> simp
        · simp

theorem leastPos_some {keys : List (Option κ)} {p : Nat} (h : leastPos keys = some p) :
    ∃ pre k post, keys = pre ++ some k :: post ∧ p = pre.length ∧
      (∀ k', some k' ∈ pre → k < k') ∧ ∀ k', some k' ∈ post → k ≤ k' := by
  induction keys generalizing p with
  | nil => simp [leastPos] at h
  | cons o keys ih =>
    cases o with
    | none =>
      simp only [leastPos, Option.map_eq_some_iff] at h
      obtain ⟨q, hq, rfl⟩ := h
      obtain ⟨pre, k, post, rfl, rfl, hpre, hpost⟩ := ih hq
      refine ⟨none :: pre, k, post, rfl, rfl, ?_, hpost⟩
      intro k' hk'
      exact hpre k' (by simpa using hk')
    | some k₀ =>
      simp only [leastPos] at h
      cases hq : leastPos keys with
      | none =>
        rw [hq] at h
        refine ⟨[], k₀, keys, rfl, by simpa using h.symm, by simp, ?_⟩
        intro k' hk'
        exact absurd (leastPos_none.mp hq _ hk') (by simp)
      | some q =>
        obtain ⟨pre, k, post, rfl, rfl, hpre, hpost⟩ := ih hq
        simp only [hq, List.getElem?_append_right (Nat.le_refl _), Nat.sub_self,
          List.getElem?_cons_zero] at h
        split at h
        next hlt =>
          refine ⟨some k₀ :: pre, k, post, rfl, by simpa using h.symm, ?_, hpost⟩
          intro k' hk'
          rcases List.mem_cons.mp hk' with hk' | hk'
          · simpa [Option.some.inj hk'] using hlt
          · exact hpre k' hk'
        next hge =>
          have hle : k₀ ≤ k := not_lt.mp hge
          refine ⟨[], k₀, pre ++ some k :: post, rfl, by simpa using h.symm, by simp, ?_⟩
          intro k' hk'
          rcases List.mem_append.mp hk' with hk' | hk'
          · exact hle.trans (hpre k' hk').le
          · rcases List.mem_cons.mp hk' with hk' | hk'
            · simpa [Option.some.inj hk'] using hle
            · exact hle.trans (hpost k' hk')

theorem leastPos_append {pre post : List (Option κ)} {k : κ} (hpre : ∀ k', some k' ∈ pre → k < k')
    (hpost : ∀ k', some k' ∈ post → k ≤ k') :
    leastPos (pre ++ some k :: post) = some pre.length := by
  induction pre with
  | nil =>
    simp only [List.nil_append, leastPos, List.length_nil]
    split
    · rfl
    next p hp =>
      obtain ⟨pre', k', post', rfl, rfl, -, -⟩ := leastPos_some hp
      have := hpost k' (by simp)
      simp [not_lt.mpr this]
  | cons o pre ih =>
    have hih := ih fun k' hk' => hpre k' (List.mem_cons_of_mem _ hk')
    cases o with
    | none => simp [leastPos, hih]
    | some k₀ =>
      have hlt := hpre k₀ (by simp)
      simp [leastPos, hih, hlt]

end Least

section Groups

variable {κ α : Type}

/-- The groups that there is room for. The first that does not fit is cut, and is the last one. -/
def cutGroups : Nat → List (κ × List α) → List (κ × List α)
  | _, [] => []
  | room, (k, es) :: gs =>
    if es.length ≤ room then (k, es) :: cutGroups (room - es.length) gs else [(k, es.take room)]

theorem cutGroups_head? (room : Nat) (gs : List (κ × List α)) :
    (cutGroups room gs).head?.map Prod.fst = gs.head?.map Prod.fst := by
  rcases gs with _ | ⟨⟨k, es⟩, gs⟩
  · rfl
  · by_cases h : es.length ≤ room <;> simp [cutGroups, h]

theorem cutGroups_keys (room : Nat) (gs : List (κ × List α)) :
    ((cutGroups room gs).map Prod.fst).Sublist (gs.map Prod.fst) := by
  induction gs generalizing room with
  | nil => simp [cutGroups]
  | cons g gs ih =>
    obtain ⟨k, es⟩ := g
    by_cases h : es.length ≤ room
    · simpa [cutGroups, h] using ih (room - es.length)
    · simp [cutGroups, h]

theorem cutGroups_length_le (room : Nat) (gs : List (κ × List α)) :
    (cutGroups room gs).length ≤ gs.length := by
  simpa using (cutGroups_keys room gs).length_le

theorem cutGroups_entries (room : Nat) (gs : List (κ × List α)) :
    (cutGroups room gs).flatMap Prod.snd = (gs.flatMap Prod.snd).take room := by
  induction gs generalizing room with
  | nil => simp [cutGroups]
  | cons g gs ih =>
    obtain ⟨k, es⟩ := g
    by_cases h : es.length ≤ room
    · simp [cutGroups, h, ih, List.take_append, List.take_of_length_le h]
    · simp [cutGroups, h, List.take_append_of_le_length (Nat.not_le.mp h).le]

def groupCount (gss : List (List (κ × List α))) : Nat := (gss.map List.length).sum

def allEntries (gss : List (List (κ × List α))) : List α := gss.flatten.flatMap Prod.snd

@[simp] theorem groupCount_append (gss gss' : List (List (κ × List α))) :
    groupCount (gss ++ gss') = groupCount gss + groupCount gss' := by
  simp [groupCount]

@[simp] theorem groupCount_cons (gs : List (κ × List α)) (gss : List (List (κ × List α))) :
    groupCount (gs :: gss) = gs.length + groupCount gss := by
  simp [groupCount]

theorem groupCount_eq_zero {gss : List (List (κ × List α))} (h : ∀ gs ∈ gss, gs = []) :
    groupCount gss = 0 := by
  induction gss with
  | nil => rfl
  | cons gs gss ih =>
    have hrest := ih fun gs hgs => h gs (List.mem_cons_of_mem _ hgs)
    simp [hrest, h gs]

theorem head_split {gss : List (List (κ × List α))} {pre post : List (Option κ)} {k : κ}
    (h : gss.map (fun gs => gs.head?.map Prod.fst) = pre ++ some k :: post) :
    ∃ pre' es gs post', gss = pre' ++ ((k, es) :: gs) :: post' ∧
      pre'.map (fun gs => gs.head?.map Prod.fst) = pre ∧
      post'.map (fun gs => gs.head?.map Prod.fst) = post := by
  obtain ⟨pre', rest, rfl, hpre, hrest⟩ := List.map_eq_append_iff.mp h
  obtain ⟨gs₀, post', rfl, hgs, hpost⟩ := List.map_eq_cons_iff.mp hrest
  cases gs₀ with
  | nil => simp at hgs
  | cons g gs =>
    obtain ⟨k', es⟩ := g
    obtain rfl : k' = k := by simpa using hgs
    exact ⟨pre', es, gs, post', rfl, hpre, hpost⟩

end Groups

section Join

variable {κ α : Type} [LinearOrder κ]

def joinCons (g : κ × List α) : List (κ × List α) → List (κ × List α)
  | [] => [g]
  | g' :: gs => if g.1 = g'.1 then (g.1, g.2 ++ g'.2) :: gs else g :: g' :: gs

def joinGroups : List (κ × List α) → List (κ × List α)
  | [] => []
  | g :: gs => joinCons g (joinGroups gs)

def joinSnoc : List (κ × List α) → κ × List α → List (κ × List α)
  | [], g => [g]
  | [g'], g => if g'.1 = g.1 then [(g'.1, g'.2 ++ g.2)] else [g', g]
  | g' :: gs, g => g' :: joinSnoc gs g

def keyEntries (k : κ) (gs : List (κ × List α)) : List α :=
  (gs.filter fun g => g.1 = k).flatMap Prod.snd

/-- The keys of all sources in order, each with the entries of all sources. -/
def mergedGroups (gss : List (List (κ × List α))) : List (κ × List α) :=
  ((gss.flatten.map Prod.fst).toFinset.sort (· ≤ ·)).map fun k => (k, keyEntries k gss.flatten)

theorem joinSnoc_cons_cons (g₁ g₂ : κ × List α) (gs : List (κ × List α)) (g : κ × List α) :
    joinSnoc (g₁ :: g₂ :: gs) g = g₁ :: joinSnoc (g₂ :: gs) g := rfl

theorem joinCons_joinSnoc (p q : κ × List α) (gs : List (κ × List α)) :
    joinCons p (joinSnoc gs q) = joinSnoc (joinCons p gs) q := by
  rcases gs with _ | ⟨g, _ | ⟨g', gs⟩⟩
  · simp [joinCons, joinSnoc]
  · by_cases hgq : g.1 = q.1 <;> by_cases hpg : p.1 = g.1 <;>
      simp_all [joinCons, joinSnoc, List.append_assoc]
  · by_cases hpg : p.1 = g.1 <;> simp [joinCons, joinSnoc_cons_cons, hpg]

theorem joinGroups_concat (gs : List (κ × List α)) (g : κ × List α) :
    joinGroups (gs ++ [g]) = joinSnoc (joinGroups gs) g := by
  induction gs with
  | nil => rfl
  | cons g' gs ih => simp only [List.cons_append, joinGroups, ih, joinCons_joinSnoc]

theorem joinSnoc_same (gs : List (κ × List α)) (k : κ) (es es' : List α) :
    joinSnoc (gs ++ [(k, es)]) (k, es') = gs ++ [(k, es ++ es')] := by
  induction gs with
  | nil => simp [joinSnoc]
  | cons g gs ih =>
    cases gs with
    | nil => simp [joinSnoc]
    | cons g' gs => simpa [joinSnoc_cons_cons] using ih

theorem joinSnoc_new {gs : List (κ × List α)} {g : κ × List α}
    (h : gs.getLast?.map Prod.fst ≠ some g.1) : joinSnoc gs g = gs ++ [g] := by
  induction gs with
  | nil => rfl
  | cons g' gs ih =>
    cases gs with
    | nil => simpa [joinSnoc] using h
    | cons g'' gs =>
      rw [List.getLast?_cons_cons] at h
      rw [joinSnoc_cons_cons, ih h]
      rfl

theorem cutGroups_joinCons {room : Nat} {k : κ} {es : List α} (h : es.length ≤ room)
    (gs : List (κ × List α)) :
    cutGroups room (joinCons (k, es) gs) = joinCons (k, es) (cutGroups (room - es.length) gs) := by
  rcases gs with _ | ⟨⟨k', es'⟩, gs⟩
  · simp [joinCons, cutGroups, h]
  · by_cases hk : k = k'
    · by_cases hl : es'.length ≤ room - es.length
      · have hle : es.length + es'.length ≤ room := by omega
        simp [joinCons, cutGroups, hk, hl, hle, Nat.sub_sub]
      · have hle : ¬ es.length + es'.length ≤ room := by omega
        simp [joinCons, cutGroups, hk, hl, hle, List.take_append, List.take_of_length_le h]
    · by_cases hl : es'.length ≤ room - es.length <;> simp [joinCons, cutGroups, hk, h, hl]

theorem cutGroups_joinCons_cut {room : Nat} {k : κ} {es : List α} (h : room < es.length)
    (gs : List (κ × List α)) : cutGroups room (joinCons (k, es) gs) = [(k, es.take room)] := by
  rcases gs with _ | ⟨⟨k', es'⟩, gs⟩
  · simp [joinCons, cutGroups, Nat.not_le.mpr h]
  · by_cases hk : k = k'
    · have hle : ¬ es.length + es'.length ≤ room := by omega
      simp [joinCons, cutGroups, hk, hle, List.take_append_of_le_length h.le]
    · simp [joinCons, cutGroups, hk, Nat.not_le.mpr h]

@[simp] theorem keyEntries_append (k : κ) (gs gs' : List (κ × List α)) :
    keyEntries k (gs ++ gs') = keyEntries k gs ++ keyEntries k gs' := by
  simp [keyEntries]

theorem keyEntries_cons (k : κ) (g : κ × List α) (gs : List (κ × List α)) :
    keyEntries k (g :: gs) = (if g.1 = k then g.2 else []) ++ keyEntries k gs := by
  by_cases h : g.1 = k <;> simp [keyEntries, h]

theorem keyEntries_eq_nil {k : κ} {gs : List (κ × List α)} (h : ∀ g ∈ gs, g.1 ≠ k) :
    keyEntries k gs = [] := by
  simp only [keyEntries, List.flatMap_eq_nil_iff, List.mem_filter, decide_eq_true_eq]
  intro g hg
  exact absurd hg.2 (h g hg.1)

theorem sort_toFinset_cons {k : κ} {ks : List κ} (h : ∀ k' ∈ ks, k ≤ k') :
    (k :: ks).toFinset.sort (· ≤ ·) = k :: (ks.toFinset.erase k).sort (· ≤ ·) := by
  rw [List.toFinset_cons, ← Finset.insert_erase (Finset.mem_insert_self k ks.toFinset),
    Finset.erase_insert_eq_erase, Finset.sort_insert _ _ (Finset.notMem_erase k _)]
  intro k' hk'
  exact h k' (List.mem_toFinset.mp (Finset.mem_of_mem_erase hk'))

theorem joinCons_of_ne {g : κ × List α} {gs : List (κ × List α)} (h : ∀ g' ∈ gs, g'.1 ≠ g.1) :
    joinCons g gs = g :: gs := by
  cases gs with
  | nil => rfl
  | cons g' gs => simp [joinCons, Ne.symm (h g' (by simp))]

theorem mergedGroups_take {pre post : List (List (κ × List α))} {k : κ} {es : List α}
    {gs : List (κ × List α)} (hpre : ∀ g ∈ pre.flatten, k < g.1) (hgs : ∀ g ∈ gs, k ≤ g.1)
    (hpost : ∀ g ∈ post.flatten, k ≤ g.1) :
    mergedGroups (pre ++ ((k, es) :: gs) :: post) =
      joinCons (k, es) (mergedGroups (pre ++ gs :: post)) := by
  set l := (pre ++ gs :: post).flatten with hl
  have hmem : ∀ k' ∈ l.map Prod.fst, k ≤ k' := by
    intro k' hk'
    obtain ⟨g, hg, rfl⟩ := List.mem_map.mp hk'
    simp only [hl, List.flatten_append, List.flatten_cons, List.mem_append] at hg
    rcases hg with hg | hg | hg
    · exact (hpre g hg).le
    · exact hgs g hg
    · exact hpost g hg
  have hkeys : ((pre ++ ((k, es) :: gs) :: post).flatten.map Prod.fst).toFinset =
      (k :: l.map Prod.fst).toFinset := by
    ext k'
    simp [hl, or_left_comm]
  have hsame : keyEntries k (pre ++ ((k, es) :: gs) :: post).flatten = es ++ keyEntries k l := by
    have hnil : keyEntries k pre.flatten = [] := keyEntries_eq_nil fun g hg => (hpre g hg).ne'
    simp [hl, hnil, keyEntries_cons]
  have hother : ∀ k', k' ≠ k →
      keyEntries k' (pre ++ ((k, es) :: gs) :: post).flatten = keyEntries k' l := by
    intro k' hk'
    simp [hl, keyEntries_cons, hk'.symm]
  have hrest : ((l.map Prod.fst).toFinset.erase k).sort.map
        (fun k' => (k', keyEntries k' (pre ++ ((k, es) :: gs) :: post).flatten)) =
      ((l.map Prod.fst).toFinset.erase k).sort.map (fun k' => (k', keyEntries k' l)) := by
    refine List.map_congr_left fun k' hk' => ?_
    rw [hother k' (Finset.ne_of_mem_erase ((Finset.mem_sort _).mp hk'))]
  have hleft : mergedGroups (pre ++ ((k, es) :: gs) :: post) =
      (k, es ++ keyEntries k l) ::
        ((l.map Prod.fst).toFinset.erase k).sort.map (fun k' => (k', keyEntries k' l)) := by
    rw [mergedGroups, hkeys, sort_toFinset_cons hmem, List.map_cons, hrest, hsame]
  rw [hleft, mergedGroups, ← hl]
  by_cases hk : k ∈ (l.map Prod.fst).toFinset
  · nth_rewrite 2 [← Finset.insert_erase hk]
    rw [Finset.sort_insert _ _ (Finset.notMem_erase k _)]
    · simp [joinCons]
    · exact fun k' hk' => hmem k' (List.mem_toFinset.mp (Finset.mem_of_mem_erase hk'))
  · have hnil : keyEntries k l = [] :=
      keyEntries_eq_nil fun g hg he => hk (List.mem_toFinset.mpr (he ▸ List.mem_map_of_mem hg))
    rw [Finset.erase_eq_of_notMem hk, hnil, List.append_nil, joinCons_of_ne]
    intro g hg
    obtain ⟨k', hk', rfl⟩ := List.mem_map.mp hg
    rintro rfl
    exact hk ((Finset.mem_sort _).mp hk')

/-- The sources are taken from, until the room is used up. What is taken comes with the source. -/
inductive Taking : Nat → List (List (κ × List α)) → List (Nat × κ × List α) →
    List (List (κ × List α)) → Prop
  | done {room gss} : (∀ gs ∈ gss, gs = []) → Taking room gss [] gss
  | take {room pre k es gs post taken left} :
      (∀ g ∈ pre.flatten, k < g.1) → (∀ g ∈ post.flatten, k ≤ g.1) → es.length ≤ room →
      Taking (room - es.length) (pre ++ gs :: post) taken left →
      Taking room (pre ++ ((k, es) :: gs) :: post) ((pre.length, k, es) :: taken) left
  | cut {room pre k es gs post} :
      (∀ g ∈ pre.flatten, k < g.1) → (∀ g ∈ post.flatten, k ≤ g.1) → room < es.length →
      Taking room (pre ++ ((k, es) :: gs) :: post) [(pre.length, k, es.take room)]
        (pre ++ ((k, es.drop room) :: gs) :: post)

abbrev KeysSorted (gs : List (κ × List α)) : Prop := gs.Pairwise fun g g' => g.1 < g'.1

theorem sorted_of_take {pre post : List (List (κ × List α))} {g : κ × List α}
    {gs : List (κ × List α)} (hs : ∀ gs' ∈ pre ++ (g :: gs) :: post, KeysSorted gs') :
    ∀ gs' ∈ pre ++ gs :: post, KeysSorted gs' := by
  intro gs' hgs'
  rcases List.mem_append.mp hgs' with h | h
  · exact hs gs' (by simp [h])
  · rcases List.mem_cons.mp h with rfl | h
    · exact (hs (g :: gs') (by simp)).of_cons
    · exact hs gs' (by simp [h])

theorem Taking.joined {room : Nat} {gss left : List (List (κ × List α))}
    {taken : List (Nat × κ × List α)} (h : Taking room gss taken left)
    (hs : ∀ gs ∈ gss, KeysSorted gs) :
    joinGroups (taken.map Prod.snd) = cutGroups room (mergedGroups gss) := by
  induction h with
  | done hnil => simp [mergedGroups, List.flatten_eq_nil_iff.mpr hnil, joinGroups, cutGroups]
  | @take room pre k es gs post taken left hpre hpost hroom _ ih =>
    have hgs := hs _ (by simp : (k, es) :: gs ∈ pre ++ ((k, es) :: gs) :: post)
    rw [mergedGroups_take hpre (fun g hg => (List.rel_of_pairwise_cons hgs hg).le) hpost,
      cutGroups_joinCons hroom, ← ih (sorted_of_take hs)]
    rfl
  | @cut room pre k es gs post hpre hpost hroom =>
    have hgs := hs _ (by simp : (k, es) :: gs ∈ pre ++ ((k, es) :: gs) :: post)
    rw [mergedGroups_take hpre (fun g hg => (List.rel_of_pairwise_cons hgs hg).le) hpost,
      cutGroups_joinCons_cut hroom]
    rfl

theorem keys_above_heads {gss : List (List (κ × List α))} {r : κ → κ → Prop} [IsTrans κ r] {k : κ}
    (hr : ∀ a b, a < b → r a b) (hs : ∀ gs ∈ gss, KeysSorted gs)
    (h : ∀ k', some k' ∈ gss.map (fun gs => gs.head?.map Prod.fst) → r k k') :
    ∀ g ∈ gss.flatten, r k g.1 := by
  intro g hg
  obtain ⟨gs, hgs, hg⟩ := List.mem_flatten.mp hg
  cases gs with
  | nil => simp at hg
  | cons g₀ gs =>
    have h₀ : r k g₀.1 := h g₀.1 (List.mem_map.mpr ⟨_, hgs, rfl⟩)
    rcases List.mem_cons.mp hg with rfl | hg
    · exact h₀
    · exact IsTrans.trans _ _ _ h₀ (hr _ _ (List.rel_of_pairwise_cons (hs _ hgs) hg))

theorem exists_taking (room : Nat) (gss : List (List (κ × List α)))
    (hs : ∀ gs ∈ gss, KeysSorted gs) :
    ∃ taken left, Taking room gss taken left ∧
      taken.length + groupCount left ≤ groupCount gss + 1 ∧ taken.length ≤ groupCount gss := by
  induction hn : groupCount gss using Nat.strong_induction_on generalizing room gss with
  | _ n ih =>
    cases hp : leastPos (gss.map fun gs => gs.head?.map Prod.fst) with
    | none =>
      have hnil : ∀ gs ∈ gss, gs = [] := by
        intro gs hgs
        simpa using leastPos_none.mp hp _ (List.mem_map_of_mem hgs)
      exact ⟨[], gss, .done hnil, by simp [hn], by simp⟩
    | some p =>
      obtain ⟨pre, k, post, hsplit, -, hpre, hpost⟩ := leastPos_some hp
      obtain ⟨pre, es, gs, post, rfl, rfl, rfl⟩ := head_split hsplit
      have hpre' := keys_above_heads (fun _ _ h => h) (fun gs' h => hs gs' (by simp [h])) hpre
      have hpost' := keys_above_heads (fun _ _ h => h.le) (fun gs' h => hs gs' (by simp [h])) hpost
      by_cases hroom : es.length ≤ room
      · obtain ⟨taken, left, ht, hc, hl⟩ := ih (groupCount (pre ++ gs :: post))
          (by simp at hn ⊢; omega) (room - es.length) _ (sorted_of_take hs) rfl
        refine ⟨_, left, .take hpre' hpost' hroom ht, ?_, ?_⟩ <;>
          simp at hn hc hl ⊢ <;> omega
      · refine ⟨_, _, .cut hpre' hpost' (Nat.not_le.mp hroom), ?_, ?_⟩ <;> simp at hn ⊢ <;> omega

theorem Taking.groupCount_le {room : Nat} {gss left : List (List (κ × List α))}
    {taken : List (Nat × κ × List α)} (h : Taking room gss taken left) :
    groupCount gss ≤ taken.length + groupCount left := by
  induction h with
  | done => simp
  | take _ _ _ _ ih =>
    simp at ih ⊢
    omega
  | cut => simp

theorem Taking.left_nil_iff {room : Nat} {gss left : List (List (κ × List α))}
    {taken : List (Nat × κ × List α)} (h : Taking room gss taken left) :
    (∀ gs ∈ left, gs = []) ↔ (allEntries gss).length ≤ room := by
  induction h with
  | done hnil => simpa [allEntries, List.flatten_eq_nil_iff.mpr hnil] using hnil
  | take _ _ hroom _ ih =>
    rw [ih]
    simp [allEntries]
    omega
  | @cut room pre k es gs post _ _ hroom =>
    have hleft : ¬ ∀ gs' ∈ pre ++ ((k, es.drop room) :: gs) :: post, gs' = [] :=
      fun h => List.cons_ne_nil _ _ (h ((k, es.drop room) :: gs) (by simp))
    have hlong : ¬ (allEntries (pre ++ ((k, es) :: gs) :: post)).length ≤ room := by
      simp [allEntries]
      omega
    exact iff_of_false hleft hlong

theorem joinGroups_entries (gs : List (κ × List α)) :
    (joinGroups gs).flatMap Prod.snd = gs.flatMap Prod.snd := by
  induction gs with
  | nil => rfl
  | cons g gs ih =>
    have hcons : ∀ gs' : List (κ × List α),
        (joinCons g gs').flatMap Prod.snd = g.2 ++ gs'.flatMap Prod.snd := by
      intro gs'
      rcases gs' with _ | ⟨g', gs'⟩
      · rfl
      · by_cases h : g.1 = g'.1 <;> simp [joinCons, h]
    simp [joinGroups, hcons, ih]

theorem joinSnoc_length (gs : List (κ × List α)) (g : κ × List α) :
    gs.length ≤ (joinSnoc gs g).length := by
  induction gs with
  | nil => simp
  | cons g' gs ih =>
    cases gs with
    | nil => by_cases h : g'.1 = g.1 <;> simp [joinSnoc, h]
    | cons g'' gs => simpa [joinSnoc_cons_cons] using ih

theorem joinGroups_length_append (gs gs' : List (κ × List α)) :
    (joinGroups gs).length ≤ (joinGroups (gs ++ gs')).length := by
  induction gs' generalizing gs with
  | nil => simp
  | cons g gs' ih =>
    have hstep := ih (gs ++ [g])
    rw [joinGroups_concat, List.append_assoc] at hstep
    exact (joinSnoc_length _ g).trans hstep

theorem joinCons_head? (g : κ × List α) (gs : List (κ × List α)) :
    (joinCons g gs).head?.map Prod.fst = some g.1 := by
  rcases gs with _ | ⟨g', gs⟩
  · rfl
  · by_cases h : g.1 = g'.1 <;> simp [joinCons, h]

theorem joinGroups_ne_nil {gs : List (κ × List α)} (h : gs ≠ []) : joinGroups gs ≠ [] := by
  cases gs with
  | nil => exact absurd rfl h
  | cons g gs =>
    intro hnil
    have := joinCons_head? g (joinGroups gs)
    simp only [joinGroups] at hnil
    simp [hnil] at this

theorem Taking.head_key {room : Nat} {gss left : List (List (κ × List α))}
    {x : Nat × κ × List α} {taken : List (Nat × κ × List α)}
    (h : Taking room gss (x :: taken) left) (hs : ∀ gs ∈ gss, KeysSorted gs) :
    (mergedGroups gss).head?.map Prod.fst = some x.2.1 := by
  rw [← cutGroups_head? room, ← h.joined hs]
  exact joinCons_head? _ _

theorem mergedGroups_sorted (gss : List (List (κ × List α))) : KeysSorted (mergedGroups gss) := by
  rw [KeysSorted, mergedGroups, List.pairwise_map]
  exact (Finset.sortedLT_sort _).pairwise

theorem mergedGroups_length (gss : List (List (κ × List α))) :
    (mergedGroups gss).length = (gss.flatten.map Prod.fst).toFinset.card := by
  rw [mergedGroups, List.length_map, Finset.length_sort]

theorem mergedGroups_head_mem {gss : List (List (κ × List α))} {k : κ}
    (h : (mergedGroups gss).head?.map Prod.fst = some k) : k ∈ gss.flatten.map Prod.fst := by
  obtain ⟨g, hg, rfl⟩ := Option.map_eq_some_iff.mp h
  obtain ⟨k, hk, rfl⟩ := List.mem_map.mp (List.mem_of_head? hg)
  exact List.mem_toFinset.mp ((Finset.mem_sort _).mp hk)

theorem cutGroups_sorted {gs : List (κ × List α)} (room : Nat) (h : KeysSorted gs) :
    KeysSorted (cutGroups room gs) := by
  rw [KeysSorted, ← List.pairwise_map (R := (· < ·)) (f := Prod.fst)] at h ⊢
  exact h.sublist (cutGroups_keys room gs)

end Join

end Ucesb
