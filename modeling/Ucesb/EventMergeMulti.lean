import Ucesb.EventParts

namespace Ucesb

/-- A source in the first loop: its last end number, the groups that it still has, and what comes
after the loop. -/
structure Waiting where
  endBefore : Nat
  groups : List (Nat × List (List Nat))
  tail : List Nat

def Waiting.source (w : Waiting) : MultiSource :=
  match w.groups with
  | [] => ⟨w.tail, none⟩
  | (index, es) :: gs =>
    ⟨pairWords (headsFrom (w.endBefore + es.length) gs) ++ w.tail,
      some ⟨index, w.endBefore + es.length, es.length, gs.length⟩⟩

theorem Waiting.source_key (w : Waiting) : w.source.key = w.groups.head?.map Prod.fst := by
  obtain ⟨endBefore, groups, tail⟩ := w
  cases groups with
  | nil => rfl
  | cons g gs => rfl

def Waiting.Bounded (w : Waiting) : Prop :=
  w.endBefore + (w.groups.flatMap Prod.snd).length < 2 ^ 31

theorem firstIndices_eq (xs : List (List (Nat × List (List Nat)) × List Nat)) :
    firstIndices (xs.map fun x => x.1.length :: (pairWords (headsFrom 0 x.1) ++ x.2)) =
      some (xs.map fun x => (⟨0, x.1, x.2⟩ : Waiting).source, groupCount (xs.map Prod.fst)) := by
  induction xs with
  | nil => rfl
  | cons x xs ih =>
    obtain ⟨gs, tail⟩ := x
    cases gs with
    | nil =>
      simp only [List.map_cons, List.length_nil, firstIndices, if_true, ih]
      simp [headsFrom, Waiting.source]
    | cons g gs =>
      obtain ⟨index, es⟩ := g
      simp only [List.map_cons, List.length_cons, Nat.add_one_ne_zero, if_false, headsFrom,
        pairWords_cons, List.cons_append, firstIndices, ih]
      simp [Waiting.source]

def mergeStateOf (ws : List Waiting) (done : List (Nat × List (List Nat)))
    (plan : List (Nat × Nat)) (overflow : Bool) : MultiMerge where
  sources := ws.map Waiting.source
  words := 0 :: pairWords (headsFrom 0 (joinGroups done))
  loops := (joinGroups done).length
  curIndex := ((joinGroups done).getLast?.map Prod.fst).getD (2 ^ 32 - 1)
  curEnd := (done.flatMap Prod.snd).length
  plan := plan
  overflow := overflow

theorem loopsToUse_eq {maxLoops loops val : Nat} (hl : loops ≤ maxLoops) (hm : maxLoops < 2 ^ 31)
    (hv : val < 2 ^ 31) : loopsToUse maxLoops loops val = min val (maxLoops - loops) := by
  simp only [loopsToUse, Nat.mod_eq_of_lt (show loops + val < 2 ^ 32 by omega)]
  split <;> omega

theorem dropLast_end (A : List Nat) (i e e' : Nat) :
    (0 :: (A ++ [i, e])).dropLast ++ [e'] = 0 :: (A ++ [i, e']) := by
  have hsplit : 0 :: (A ++ [i, e]) = (0 :: (A ++ [i])) ++ [e] := by simp
  rw [hsplit, List.dropLast_concat]
  simp

theorem mergeStateOf_put {ws : List Waiting} {done : List (Nat × List (List Nat))}
    {plan : List (Nat × Nat)} {overflow : Bool} {dataMaxLoops s index endnum items left : Nat}
    {es : List (List Nat)}
    (hu : loopsToUse dataMaxLoops (done.flatMap Prod.snd).length items = es.length)
    (hsum : (done.flatMap Prod.snd).length + es.length < 2 ^ 32)
    (hlen : (joinGroups (done ++ [(index, es)])).length < 2 ^ 32)
    (hnone : done = [] → index ≠ 2 ^ 32 - 1) :
    (mergeStateOf ws done plan overflow).put dataMaxLoops s ⟨index, endnum, items, left⟩ =
      mergeStateOf ws (done ++ [(index, es)]) (plan ++ [(s, es.length)]) overflow := by
  have hend := congrArg List.length (joinGroups_entries done)
  by_cases hcur : ((joinGroups done).getLast?.map Prod.fst) = some index
  · obtain ⟨⟨index', es'⟩, hlast, rfl⟩ := Option.map_eq_some_iff.mp hcur
    obtain ⟨gs, hgs⟩ := List.getLast?_eq_some_iff.mp hlast
    rw [hgs] at hend
    simp only [List.flatMap_append, List.flatMap_cons, List.flatMap_nil, List.append_nil,
      List.length_append] at hend
    simp only [mergeStateOf, MultiMerge.put, joinGroups_concat, hu, hgs, joinSnoc_same,
      List.flatMap_append, List.flatMap_cons, List.flatMap_nil, List.append_nil,
      List.length_append, Nat.mod_eq_of_lt hsum]
    simp [headsFrom_append, headsFrom, ← hend, Nat.add_assoc, dropLast_end]
  · have hne : index ≠ ((joinGroups done).getLast?.map Prod.fst).getD (2 ^ 32 - 1) := by
      cases hl : (joinGroups done).getLast? with
      | none =>
        refine hnone ?_
        by_contra hd
        exact joinGroups_ne_nil hd (List.getLast?_eq_none_iff.mp hl)
      | some l => simpa [hl, eq_comm] using hcur
    have hnew : joinSnoc (joinGroups done) (index, es) = joinGroups done ++ [(index, es)] :=
      joinSnoc_new hcur
    rw [joinGroups_concat, hnew, List.length_append, List.length_singleton] at hlen
    norm_num at hne
    simp only [mergeStateOf, MultiMerge.put, joinGroups_concat, hu, hnew,
      List.flatMap_append, List.flatMap_cons, List.flatMap_nil, List.append_nil,
      List.length_append, Nat.mod_eq_of_lt hsum]
    simp [headsFrom_append, headsFrom, hend, hne, dropLast_end]
    omega

theorem leastPos_sources {pre post : List Waiting} {w : Waiting} {k : Nat} {es : List (List Nat)}
    {gs : List (Nat × List (List Nat))} (hw : w.groups = (k, es) :: gs)
    (hpre : ∀ g ∈ (pre.map Waiting.groups).flatten, k < g.1)
    (hpost : ∀ g ∈ (post.map Waiting.groups).flatten, k ≤ g.1) :
    leastPos (((pre ++ w :: post).map Waiting.source).map MultiSource.key) = some pre.length := by
  have hhead : ∀ (ws : List Waiting) (k' : Nat),
      some k' ∈ (ws.map Waiting.source).map MultiSource.key →
      ∃ g ∈ (ws.map Waiting.groups).flatten, g.1 = k' := by
    intro ws k' hk'
    simp only [List.map_map, List.mem_map, Function.comp, Waiting.source_key] at hk'
    obtain ⟨w', hw', hk'⟩ := hk'
    obtain ⟨g, hg, rfl⟩ := Option.map_eq_some_iff.mp hk'
    exact ⟨g, List.mem_flatten.mpr ⟨_, List.mem_map_of_mem hw', List.mem_of_head? hg⟩, rfl⟩
  have hkey : w.source.key = some k := by rw [Waiting.source_key, hw]; rfl
  rw [List.map_append, List.map_cons, List.map_append, List.map_cons, hkey]
  have h := @leastPos_append Nat _ ((pre.map Waiting.source).map MultiSource.key)
    ((post.map Waiting.source).map MultiSource.key) k
    (fun k' hk' => by obtain ⟨g, hg, rfl⟩ := hhead _ _ hk'; exact hpre g hg)
    (fun k' hk' => by obtain ⟨g, hg, rfl⟩ := hhead _ _ hk'; exact hpost g hg)
  simpa using h

def Waiting.next (w : Waiting) (es : List (List Nat)) (gs : List (Nat × List (List Nat))) :
    Waiting := ⟨w.endBefore + es.length, gs, w.tail⟩

def planOf (taken : List (Nat × Nat × List (List Nat))) : List (Nat × Nat) :=
  taken.map fun x => (x.1, x.2.2.length)

theorem getElem?_sources (pre : List Waiting) (w : Waiting) (post : List Waiting) :
    ((pre ++ w :: post).map Waiting.source)[pre.length]? = some w.source := by
  simp

theorem set_sources (pre : List Waiting) (w : Waiting) (post : List Waiting) (src : MultiSource) :
    ((pre ++ w :: post).map Waiting.source).set pre.length src =
      pre.map Waiting.source ++ src :: post.map Waiting.source := by
  rw [List.map_append, List.map_cons, ← List.length_map Waiting.source,
    List.set_append_right _ _ (Nat.le_refl _)]
  simp

theorem Waiting.source_cons {w : Waiting} {k : Nat} {es : List (List Nat)}
    {gs : List (Nat × List (List Nat))} (hw : w.groups = (k, es) :: gs) :
    w.source = ⟨pairWords (headsFrom (w.endBefore + es.length) gs) ++ w.tail,
      some ⟨k, w.endBefore + es.length, es.length, gs.length⟩⟩ := by
  obtain ⟨endBefore, groups, tail⟩ := w
  subst hw
  rfl

theorem mergeStateOf_sources {ws ws' : List Waiting} {sources : List MultiSource}
    (h : ws'.map Waiting.source = sources) (done : List (Nat × List (List Nat)))
    (plan : List (Nat × Nat)) (overflow : Bool) :
    mergeStateOf ws' done plan overflow =
      { mergeStateOf ws done plan overflow with sources := sources } := by
  simp [mergeStateOf, h]

theorem mergeIndices_take {dataMaxLoops fuel : Nat} {pre post : List Waiting} {w : Waiting}
    {done : List (Nat × List (List Nat))} {plan : List (Nat × Nat)} {k : Nat}
    {es : List (List Nat)} {gs : List (Nat × List (List Nat))} (hw : w.groups = (k, es) :: gs)
    (hpre : ∀ g ∈ (pre.map Waiting.groups).flatten, k < g.1)
    (hpost : ∀ g ∈ (post.map Waiting.groups).flatten, k ≤ g.1)
    (hroom : (done.flatMap Prod.snd).length + es.length ≤ dataMaxLoops)
    (hmax : dataMaxLoops < 2 ^ 31) (hb : w.Bounded)
    (hlen : (joinGroups (done ++ [(k, es)])).length < 2 ^ 32)
    (hnone : done = [] → k ≠ 2 ^ 32 - 1) :
    mergeIndices dataMaxLoops (fuel + 1) (mergeStateOf (pre ++ w :: post) done plan false) =
      mergeIndices dataMaxLoops fuel (mergeStateOf (pre ++ w.next es gs :: post)
        (done ++ [(k, es)]) (plan ++ [(pre.length, es.length)]) false) := by
  have hleast : leastPos ((mergeStateOf (pre ++ w :: post) done plan false).sources.map
      MultiSource.key) = some pre.length := leastPos_sources hw hpre hpost
  have hget : (mergeStateOf (pre ++ w :: post) done plan false).sources[pre.length]? =
      some w.source := getElem?_sources pre w post
  have hset := set_sources pre w post
  have hlt : w.endBefore + (es.length + (gs.flatMap Prod.snd).length) < 2 ^ 31 := by
    simpa [Waiting.Bounded, hw] using hb
  have huse : loopsToUse dataMaxLoops (done.flatMap Prod.snd).length es.length = es.length := by
    rw [loopsToUse_eq (by omega) hmax (by omega)]
    omega
  have hput : ∀ endnum left,
      (mergeStateOf (pre ++ w :: post) done plan false).put dataMaxLoops pre.length
        ⟨k, endnum, es.length, left⟩ = mergeStateOf (pre ++ w :: post) (done ++ [(k, es)])
          (plan ++ [(pre.length, es.length)]) false :=
    fun _ _ => mergeStateOf_put huse (by omega) hlen hnone
  have hcur : (mergeStateOf (pre ++ w :: post) done plan false).curEnd =
    (done.flatMap Prod.snd).length := rfl
  rw [mergeIndices]
  simp only [hleast, hget, Waiting.source_cons hw, hcur, huse, Nat.lt_irrefl, if_false, hput]
  cases gs with
  | nil =>
    have hnext : (pre ++ w.next es [] :: post).map Waiting.source =
        ((pre ++ w :: post).map Waiting.source).set pre.length ⟨w.tail, none⟩ := by
      rw [hset, List.map_append, List.map_cons]
      rfl
    simp only [headsFrom, pairWords_nil, List.nil_append, List.length_nil, if_true]
    rw [mergeStateOf_sources hnext]
    rfl
  | cons g gs =>
    obtain ⟨k', es'⟩ := g
    simp only [List.flatMap_cons, List.length_append] at hlt
    have hitems : (w.endBefore + es.length + es'.length + 2 ^ 32 - (w.endBefore + es.length)) %
        2 ^ 32 = es'.length := by omega
    have hnext : (pre ++ w.next es ((k', es') :: gs) :: post).map Waiting.source =
        ((pre ++ w :: post).map Waiting.source).set pre.length
          ⟨pairWords (headsFrom (w.endBefore + es.length + es'.length) gs) ++ w.tail,
            some ⟨k', w.endBefore + es.length + es'.length, es'.length, gs.length⟩⟩ := by
      rw [hset, List.map_append, List.map_cons]
      rfl
    simp only [headsFrom, pairWords_cons, List.cons_append, List.length_cons,
      Nat.add_one_ne_zero, if_false, Nat.add_sub_cancel, hitems]
    rw [mergeStateOf_sources hnext]
    rfl

theorem mergeIndices_cut {dataMaxLoops fuel room : Nat} {pre post : List Waiting} {w : Waiting}
    {done : List (Nat × List (List Nat))} {plan : List (Nat × Nat)} {k : Nat}
    {es : List (List Nat)} {gs : List (Nat × List (List Nat))} (hw : w.groups = (k, es) :: gs)
    (hpre : ∀ g ∈ (pre.map Waiting.groups).flatten, k < g.1)
    (hpost : ∀ g ∈ (post.map Waiting.groups).flatten, k ≤ g.1)
    (hdone : (done.flatMap Prod.snd).length + room = dataMaxLoops) (hroom : room < es.length)
    (hmax : dataMaxLoops < 2 ^ 31) (hb : w.Bounded)
    (hlen : (joinGroups (done ++ [(k, es.take room)])).length < 2 ^ 32)
    (hnone : done = [] → k ≠ 2 ^ 32 - 1) :
    mergeIndices dataMaxLoops (fuel + 1) (mergeStateOf (pre ++ w :: post) done plan false) =
      some (mergeStateOf
        (pre ++ w.next (es.take room) ((k, es.drop room) :: gs) :: post)
        (done ++ [(k, es.take room)]) (plan ++ [(pre.length, (es.take room).length)]) true) := by
  have hleast : leastPos ((mergeStateOf (pre ++ w :: post) done plan false).sources.map
      MultiSource.key) = some pre.length := leastPos_sources hw hpre hpost
  have hget : (mergeStateOf (pre ++ w :: post) done plan false).sources[pre.length]? =
      some w.source := getElem?_sources pre w post
  have hlt : w.endBefore + (es.length + (gs.flatMap Prod.snd).length) < 2 ^ 31 := by
    simpa [Waiting.Bounded, hw] using hb
  have htake : (es.take room).length = room := by
    rw [List.length_take]
    omega
  have huse : loopsToUse dataMaxLoops (done.flatMap Prod.snd).length es.length = room := by
    rw [loopsToUse_eq (by omega) hmax (by omega)]
    omega
  have hput : ∀ endnum left,
      (mergeStateOf (pre ++ w :: post) done plan false).put dataMaxLoops pre.length
        ⟨k, endnum, es.length, left⟩ = mergeStateOf (pre ++ w :: post)
          (done ++ [(k, es.take room)]) (plan ++ [(pre.length, (es.take room).length)]) false :=
    fun _ _ => mergeStateOf_put (huse.trans htake.symm) (by omega) hlen hnone
  have hcur : (mergeStateOf (pre ++ w :: post) done plan false).curEnd =
    (done.flatMap Prod.snd).length := rfl
  have hends : w.endBefore + room + (es.length - room) = w.endBefore + es.length := by omega
  have hnext : (pre ++ w.next (es.take room) ((k, es.drop room) :: gs) :: post).map
        Waiting.source =
      ((pre ++ w :: post).map Waiting.source).set pre.length
        ⟨pairWords (headsFrom (w.endBefore + es.length) gs) ++ w.tail,
          some ⟨k, w.endBefore + es.length, es.length - room, gs.length⟩⟩ := by
    rw [set_sources, List.map_append, List.map_cons]
    simp [Waiting.next, Waiting.source, htake, hends]
  rw [mergeIndices]
  simp only [hleast, hget, Waiting.source_cons hw, hcur, huse, if_pos hroom, hput]
  simp [mergeStateOf, hnext]

theorem bounded_replace {pre post : List Waiting} {w w' : Waiting}
    (hb : ∀ v ∈ pre ++ w :: post, v.Bounded) (hw : w'.Bounded) :
    ∀ v ∈ pre ++ w' :: post, v.Bounded := by
  intro v hv
  rcases List.mem_append.mp hv with hv | hv
  · exact hb v (by simp [hv])
  · rcases List.mem_cons.mp hv with rfl | hv
    · exact hw
    · exact hb v (by simp [hv])

theorem mergeIndices_taking {dataMaxLoops room : Nat}
    {gss left : List (List (Nat × List (List Nat)))}
    {taken : List (Nat × Nat × List (List Nat))} (h : Taking room gss taken left)
    (hmax : dataMaxLoops < 2 ^ 31) {ws : List Waiting} (hws : ws.map Waiting.groups = gss)
    (hb : ∀ w ∈ ws, w.Bounded) {done : List (Nat × List (List Nat))} {plan : List (Nat × Nat)}
    {fuel : Nat} (hdone : (done.flatMap Prod.snd).length + room = dataMaxLoops)
    (hfuel : taken.length < fuel)
    (hlen : (joinGroups (done ++ taken.map Prod.snd)).length < 2 ^ 32)
    (hnone : done = [] → ∀ x ∈ taken.head?, x.2.1 ≠ 2 ^ 32 - 1) :
    ∃ ws', ws'.map Waiting.groups = left ∧ ws'.map Waiting.tail = ws.map Waiting.tail ∧
      (∀ w ∈ ws', w.Bounded) ∧
      mergeIndices dataMaxLoops fuel (mergeStateOf ws done plan false) =
        some (mergeStateOf ws' (done ++ taken.map Prod.snd) (plan ++ planOf taken)
          (left.any fun gs => !gs.isEmpty)) := by
  induction h generalizing ws done plan fuel with
  | @done room gss hnil =>
    cases fuel with
    | zero => simp at hfuel
    | succ fuel =>
      have hleast : leastPos ((mergeStateOf ws done plan false).sources.map MultiSource.key) =
          none := by
        refine leastPos_none.mpr fun o ho => ?_
        simp only [mergeStateOf, List.map_map, List.mem_map, Function.comp,
          Waiting.source_key] at ho
        obtain ⟨w, hw, rfl⟩ := ho
        have hg : w.groups = [] := hnil _ (hws ▸ List.mem_map_of_mem hw)
        rw [hg]
        rfl
      have hany : (gss.any fun gs => !gs.isEmpty) = false := by
        simpa using hnil
      refine ⟨ws, hws, rfl, hb, ?_⟩
      simp [mergeIndices, hleast, planOf, hany]
  | @take room pre k es gs post taken left hpre hpost hroom ht ih =>
    obtain ⟨pre', rest, rfl, rfl, hrest⟩ := List.map_eq_append_iff.mp hws
    obtain ⟨w, post', rfl, hw, rfl⟩ := List.map_eq_cons_iff.mp hrest
    cases fuel with
    | zero => simp at hfuel
    | succ fuel =>
      simp only [List.length_cons] at hfuel
      rw [List.map_cons, List.append_cons] at hlen
      have hbw := hb w (by simp)
      have hstep := @mergeIndices_take dataMaxLoops fuel pre' post' w done plan k es gs hw hpre
        hpost (by omega) hmax hbw ((joinGroups_length_append _ _).trans_lt hlen)
        (fun hd => hnone hd _ rfl)
      have hnext : (w.next es gs).Bounded := by
        simp only [Waiting.Bounded, Waiting.next, hw, List.flatMap_cons,
          List.length_append] at hbw ⊢
        omega
      obtain ⟨ws', hleft, htail, hb', hrun⟩ := @ih (pre' ++ w.next es gs :: post')
        (by simp [Waiting.next]) (bounded_replace hb hnext) (done ++ [(k, es)])
        (plan ++ [(pre'.length, es.length)]) fuel
        (by simp only [List.flatMap_append, List.flatMap_cons, List.flatMap_nil, List.append_nil,
          List.length_append]; omega)
        (by omega) hlen (by simp)
      refine ⟨ws', hleft, ?_, hb', ?_⟩
      · rw [htail]
        simp [Waiting.next]
      · rw [hstep, hrun]
        simp [planOf]
  | @cut room pre k es gs post hpre hpost hroom =>
    obtain ⟨pre', rest, rfl, rfl, hrest⟩ := List.map_eq_append_iff.mp hws
    obtain ⟨w, post', rfl, hw, rfl⟩ := List.map_eq_cons_iff.mp hrest
    cases fuel with
    | zero => simp at hfuel
    | succ fuel =>
      have hbw := hb w (by simp)
      have hstep := @mergeIndices_cut dataMaxLoops fuel room pre' post' w done plan k es gs hw hpre
        hpost hdone hroom hmax hbw hlen (fun hd => hnone hd _ rfl)
      have hnext : (w.next (es.take room) ((k, es.drop room) :: gs)).Bounded := by
        simp only [Waiting.Bounded, Waiting.next, hw, List.flatMap_cons,
          List.length_append, List.length_take, List.length_drop] at hbw ⊢
        omega
      refine ⟨_, ?_, ?_, bounded_replace hb hnext, ?_⟩
      · simp [Waiting.next]
      · simp [Waiting.next]
      · rw [hstep]
        simp [planOf]

theorem restItems_eq {prevEnd : Nat} (items : Nat) {gs : List (Nat × List (List Nat))}
    (tail : List Nat)
    (he : prevEnd + (gs.flatMap Prod.snd).length < 2 ^ 31)
    (hi : items + (gs.flatMap Prod.snd).length < 2 ^ 31) :
    restItems gs.length prevEnd items (pairWords (headsFrom prevEnd gs) ++ tail) =
      some (items + (gs.flatMap Prod.snd).length, tail) := by
  induction gs generalizing prevEnd items with
  | nil => simp [restItems, headsFrom]
  | cons g gs ih =>
    obtain ⟨k, es⟩ := g
    simp only [List.flatMap_cons, List.length_append] at he hi
    have hitems : (items + (prevEnd + es.length + 2 ^ 32 - prevEnd) % 2 ^ 32) % 2 ^ 32 =
        items + es.length := by omega
    simp only [List.length_cons, headsFrom, pairWords_cons, List.cons_append, restItems, hitems]
    rw [ih _ (by omega) (by omega), List.flatMap_cons, List.length_append, Nat.add_assoc]

theorem skipPlan_eq {ws : List Waiting} (hb : ∀ w ∈ ws, w.Bounded) :
    skipPlan (ws.map Waiting.source) =
      some (ws.map fun w => ((w.groups.flatMap Prod.snd).length, w.tail)) := by
  induction ws with
  | nil => rfl
  | cons w ws ih =>
    have hrest := ih fun w hw => hb w (List.mem_cons_of_mem _ hw)
    have hbw := hb w (by simp)
    cases hg : w.groups with
    | nil =>
      have hsrc : w.source = ⟨w.tail, none⟩ := by
        obtain ⟨endBefore, groups, tail⟩ := w
        subst hg
        rfl
      simp [hsrc, skipPlan, hrest, hg]
    | cons g gs =>
      obtain ⟨k, es⟩ := g
      simp only [Waiting.Bounded, hg, List.flatMap_cons, List.length_append] at hbw
      have hitems := restItems_eq es.length w.tail
        (show w.endBefore + es.length + (gs.flatMap Prod.snd).length < 2 ^ 31 by omega) (by omega)
      rw [List.map_cons, Waiting.source_cons hg, skipPlan, hitems, hrest]
      simp [hg]

theorem pending_le (ws : List Waiting) :
    (ws.map Waiting.source).countP (fun src => src.pending.isSome) ≤
      groupCount (ws.map Waiting.groups) := by
  induction ws with
  | nil => simp
  | cons w ws ih =>
    obtain ⟨endBefore, groups, tail⟩ := w
    cases groups with
    | nil => simpa [Waiting.source, groupCount] using ih
    | cons g gs =>
      simp only [List.map_cons, Waiting.source, List.countP_cons, groupCount_cons,
        List.length_cons, Option.isSome_some, if_true]
      omega

theorem nextWords_eq {α : Type} (xs : List α) (f : α → Nat) (g : α → List Nat) :
    nextWords (xs.map fun x => f x :: g x) = some (xs.map f, xs.map g) := by
  induction xs with
  | nil => rfl
  | cons x xs ih => simp [nextWords, ih]

def dataWords (u : List (Nat × List (List Nat)) × List Nat) : List Nat :=
  (u.1.flatMap Prod.snd).flatten ++ u.2

def EntriesOk (dataMaxLoops size : Nat) (gs : List (Nat × List (List Nat))) : Prop :=
  (gs.flatMap Prod.snd).length ≤ dataMaxLoops ∧ ∀ e ∈ gs.flatMap Prod.snd, e.length = size

theorem copy_count {dataMaxLoops size : Nat} (hsize : dataMaxLoops * size < 2 ^ 31)
    {es : List (List Nat)} (hl : es.length ≤ dataMaxLoops) (he : ∀ e ∈ es, e.length = size) :
    es.length * size % 2 ^ 32 = es.flatten.length := by
  have hle : es.length * size ≤ dataMaxLoops * size := Nat.mul_le_mul_right _ hl
  rw [flatten_length he, Nat.mod_eq_of_lt (by omega)]

theorem copyPlan_step {size n : Nat} {A : List Nat} (hn : n * size % 2 ^ 32 = A.length)
    (plan : List (Nat × Nat)) (pre post : List (List Nat)) (B : List Nat) :
    copyPlan size ((pre.length, n) :: plan) (pre ++ (A ++ B) :: post) =
      (copyPlan size plan (pre ++ B :: post)).map fun r => (A ++ r.1, r.2) := by
  have hlen : ¬ (A ++ B).length < A.length := by simp
  have hget : (pre ++ (A ++ B) :: post)[pre.length]? = some (A ++ B) := by simp
  simp only [copyPlan, hget, hn, hlen, if_false, List.take_left, List.drop_left]
  simp

theorem entriesOk_replace {dataMaxLoops size : Nat}
    {pre post : List (List (Nat × List (List Nat)) × List Nat)}
    {u u' : List (Nat × List (List Nat)) × List Nat}
    (hok : ∀ v ∈ pre ++ u :: post, EntriesOk dataMaxLoops size v.1)
    (hu : EntriesOk dataMaxLoops size u'.1) :
    ∀ v ∈ pre ++ u' :: post, EntriesOk dataMaxLoops size v.1 := by
  intro v hv
  rcases List.mem_append.mp hv with hv | hv
  · exact hok v (by simp [hv])
  · rcases List.mem_cons.mp hv with rfl | hv
    · exact hu
    · exact hok v (by simp [hv])

theorem copyPlan_taking {dataMaxLoops size room : Nat} (hsize : dataMaxLoops * size < 2 ^ 31)
    {gss left : List (List (Nat × List (List Nat)))}
    {taken : List (Nat × Nat × List (List Nat))} (h : Taking room gss taken left)
    {us : List (List (Nat × List (List Nat)) × List Nat)} (hus : us.map Prod.fst = gss)
    (hok : ∀ u ∈ us, EntriesOk dataMaxLoops size u.1) :
    ∃ us' : List (List (Nat × List (List Nat)) × List Nat),
      us'.map Prod.fst = left ∧ us'.map Prod.snd = us.map Prod.snd ∧
      (∀ u ∈ us', EntriesOk dataMaxLoops size u.1) ∧
      copyPlan size (planOf taken) (us.map dataWords) =
        some ((taken.flatMap fun x => x.2.2).flatten, us'.map dataWords) := by
  induction h generalizing us with
  | done => exact ⟨us, hus, rfl, hok, rfl⟩
  | @take room pre k es gs post taken left hpre hpost hroom _ ih =>
    obtain ⟨pre', rest, rfl, rfl, hrest⟩ := List.map_eq_append_iff.mp hus
    obtain ⟨⟨_, tail⟩, post', rfl, rfl, rfl⟩ := List.map_eq_cons_iff.mp hrest
    obtain ⟨hle, hes⟩ := hok ((k, es) :: gs, tail) (by simp)
    simp only [List.flatMap_cons, List.length_append, List.mem_append] at hle hes
    have hcount := copy_count hsize (show es.length ≤ dataMaxLoops by omega)
      (fun e he => hes e (.inl he))
    have hgs : (gs.flatMap Prod.snd).length ≤ dataMaxLoops := by omega
    have hnext : EntriesOk dataMaxLoops size (gs, tail).1 := ⟨hgs, fun e he => hes e (.inr he)⟩
    obtain ⟨us', hleft, htail, hok', hrun⟩ := @ih (pre' ++ (gs, tail) :: post') (by simp)
      (entriesOk_replace hok hnext)
    refine ⟨us', hleft, by rw [htail]; simp, hok', ?_⟩
    have hstep := copyPlan_step hcount (planOf taken) (pre'.map dataWords) (post'.map dataWords)
      ((gs.flatMap Prod.snd).flatten ++ tail)
    simp only [List.length_map] at hstep
    simp only [planOf, List.map_append, List.map_cons, dataWords, List.flatMap_cons,
      List.flatten_append, List.append_assoc, List.length_map] at hstep hrun ⊢
    rw [hstep, hrun]
    rfl
  | @cut room pre k es gs post hpre hpost hroom =>
    obtain ⟨pre', rest, rfl, rfl, hrest⟩ := List.map_eq_append_iff.mp hus
    obtain ⟨⟨_, tail⟩, post', rfl, rfl, rfl⟩ := List.map_eq_cons_iff.mp hrest
    obtain ⟨hle, hes⟩ := hok ((k, es) :: gs, tail) (by simp)
    simp only [List.flatMap_cons, List.length_append, List.mem_append] at hle hes
    have hcount := copy_count hsize (show (es.take room).length ≤ dataMaxLoops by simp; omega)
      (fun e he => hes e (.inl (List.mem_of_mem_take he)))
    have hnext : EntriesOk dataMaxLoops size ((k, es.drop room) :: gs, tail).1 := by
      refine ⟨?_, ?_⟩
      · simp only [List.flatMap_cons, List.length_append, List.length_drop]
        omega
      · intro e he
        simp only [List.flatMap_cons, List.mem_append] at he
        exact hes e (he.imp_left List.mem_of_mem_drop)
    refine ⟨pre' ++ ((k, es.drop room) :: gs, tail) :: post', by simp, by simp,
      entriesOk_replace hok hnext, ?_⟩
    have hstep := copyPlan_step hcount [] (pre'.map dataWords) (post'.map dataWords)
      ((es.drop room).flatten ++ ((gs.flatMap Prod.snd).flatten ++ tail))
    have hsplit : es.flatten = (es.take room).flatten ++ (es.drop room).flatten := by
      rw [← List.flatten_append, List.take_append_drop]
    simp only [planOf, List.map_append, List.map_cons, List.map_nil, dataWords,
      List.flatMap_cons, List.flatten_append, List.append_assoc, List.length_map, hsplit,
      List.flatMap_nil, List.append_nil] at hstep ⊢
    rw [hstep]
    simp [copyPlan]

theorem skipItems_eq {dataMaxLoops size : Nat} (hsize : dataMaxLoops * size < 2 ^ 31)
    {ws : List Waiting} {us : List (List (Nat × List (List Nat)) × List Nat)}
    (h : ws.map Waiting.groups = us.map Prod.fst)
    (hok : ∀ u ∈ us, EntriesOk dataMaxLoops size u.1) :
    skipItems size (ws.map fun w => ((w.groups.flatMap Prod.snd).length, w.tail))
      (us.map dataWords) = some (us.map Prod.snd) := by
  induction us generalizing ws with
  | nil =>
    obtain rfl : ws = [] := by simpa using h
    rfl
  | cons u us ih =>
    obtain ⟨w, ws, rfl, hw, hws⟩ := List.map_eq_cons_iff.mp h
    obtain ⟨hle, hes⟩ := hok u (by simp)
    have hcount := copy_count hsize hle hes
    have hlen : ¬ (dataWords u).length < (u.1.flatMap Prod.snd).flatten.length := by
      simp [dataWords]
    simp only [List.map_cons, skipItems, hw, hcount, hlen, if_false,
      ih hws fun u hu => hok u (List.mem_cons_of_mem _ hu)]
    simp [dataWords]

def waitingOf (y : List (Nat × List (List Nat)) × List Nat) : Waiting :=
  ⟨0, y.1, (y.1.flatMap Prod.snd).length :: dataWords y⟩

theorem multiOf_words (gs : List (Nat × List (List Nat))) :
    (multiOf gs).words = gs.length :: (pairWords (headsFrom 0 gs) ++
      ((gs.flatMap Prod.snd).length :: (gs.flatMap Prod.snd).flatten)) := by
  rw [multiOf, EventPart.words, headsFrom_length]

theorem firstIndices_multiOf (ys : List (List (Nat × List (List Nat)) × List Nat)) :
    firstIndices (ys.map fun y => (multiOf y.1).words ++ y.2) =
      some ((ys.map waitingOf).map Waiting.source, groupCount (ys.map Prod.fst)) := by
  have h := firstIndices_eq
    (ys.map fun y => (y.1, (y.1.flatMap Prod.snd).length :: dataWords y))
  simpa [Function.comp_def, multiOf_words, dataWords, waitingOf] using h

theorem mergeIndices_start {dataMaxLoops size : Nat} (hmax : dataMaxLoops < 2 ^ 31)
    {ys : List (List (Nat × List (List Nat)) × List Nat)}
    (hs : ∀ gs ∈ ys.map Prod.fst, KeysSorted gs) (hok : ∀ y ∈ ys, EntriesOk dataMaxLoops size y.1)
    (hunion : (mergedGroups (ys.map Prod.fst)).length < 2 ^ 32)
    (hnone : (mergedGroups (ys.map Prod.fst)).head?.map Prod.fst ≠ some (2 ^ 32 - 1)) :
    ∃ taken left ws, Taking dataMaxLoops (ys.map Prod.fst) taken left ∧
      taken.length + groupCount left ≤ groupCount (ys.map Prod.fst) + 1 ∧
      ws.map Waiting.groups = left ∧ ws.map Waiting.tail = (ys.map waitingOf).map Waiting.tail ∧
      (∀ w ∈ ws, w.Bounded) ∧
      mergeIndices dataMaxLoops (groupCount (ys.map Prod.fst) + 1)
          (multiStart ((ys.map waitingOf).map Waiting.source)) =
        some (mergeStateOf ws (taken.map Prod.snd) (planOf taken)
          (left.any fun gs => !gs.isEmpty)) := by
  obtain ⟨taken, left, ht, hcount, hlen⟩ := exists_taking dataMaxLoops (ys.map Prod.fst) hs
  have hbounded : ∀ w ∈ ys.map waitingOf, w.Bounded := by
    intro w hw
    obtain ⟨y, hy, rfl⟩ := List.mem_map.mp hw
    have := (hok y hy).1
    simp only [Waiting.Bounded, waitingOf]
    omega
  have hfirst : ∀ x ∈ taken.head?, x.2.1 ≠ 2 ^ 32 - 1 := by
    intro x hx hkey
    cases taken with
    | nil => simp at hx
    | cons x' taken =>
      obtain rfl : x' = x := by simpa using hx
      exact hnone (hkey ▸ ht.head_key hs)
  have hjoined : (joinGroups ([] ++ taken.map Prod.snd)).length < 2 ^ 32 := by
    rw [List.nil_append, ht.joined hs]
    exact (cutGroups_length_le _ _).trans_lt hunion
  obtain ⟨ws, hws, htail, hb, hrun⟩ := @mergeIndices_taking dataMaxLoops dataMaxLoops _ _ _ ht hmax
    (ys.map waitingOf) (by simp [waitingOf]) hbounded [] [] (groupCount (ys.map Prod.fst) + 1)
    (by simp) (by omega) hjoined (fun _ => hfirst)
  exact ⟨taken, left, ws, ht, hcount, hws, htail, hb, hrun⟩

theorem keysSorted_fst {ys : List (List (Nat × List (List Nat)) × List Nat)}
    (hs : ∀ y ∈ ys, KeysSorted y.1) : ∀ gs ∈ ys.map Prod.fst, KeysSorted gs := by
  intro gs hgs
  obtain ⟨y, hy, rfl⟩ := List.mem_map.mp hgs
  exact hs y hy

theorem mergeMultiArray_eq {dataMaxLoops size : Nat} (hmax : dataMaxLoops < 2 ^ 31)
    (hsize : dataMaxLoops * size < 2 ^ 31) {ys : List (List (Nat × List (List Nat)) × List Nat)}
    (hs : ∀ y ∈ ys, KeysSorted y.1) (hok : ∀ y ∈ ys, EntriesOk dataMaxLoops size y.1)
    (hunion : (mergedGroups (ys.map Prod.fst)).length < 2 ^ 32)
    (hnone : (mergedGroups (ys.map Prod.fst)).head?.map Prod.fst ≠ some (2 ^ 32 - 1))
    (htot : groupCount (ys.map Prod.fst) < 2 ^ 32 - 1) :
    mergeMultiArray dataMaxLoops size (ys.map fun y => (multiOf y.1).words ++ y.2) =
      some ⟨(multiOf (cutGroups dataMaxLoops (mergedGroups (ys.map Prod.fst)))).words,
        ys.map Prod.snd, decide (dataMaxLoops < (allEntries (ys.map Prod.fst)).length)⟩ := by
  obtain ⟨taken, left, ws, ht, hcount, hws, htail, hb, hrun⟩ :=
    mergeIndices_start hmax (keysSorted_fst hs) hok hunion hnone
  obtain ⟨us, hleft, hrest, hok', hcopy⟩ := copyPlan_taking hsize ht rfl hok
  have hskip := skipPlan_eq hb
  have hpend := pending_le ws
  rw [hws] at hpend
  have hnext : nextWords (ws.map Waiting.tail) =
      some (ys.map fun y => (y.1.flatMap Prod.snd).length, ys.map dataWords) := by
    rw [htail, List.map_map]
    exact nextWords_eq ys _ _
  have hitems := skipItems_eq hsize (hws.trans hleft.symm) hok'
  have hover : (left.any fun gs => !gs.isEmpty) =
      decide (dataMaxLoops < (allEntries (ys.map Prod.fst)).length) := by
    rw [Bool.eq_iff_iff, decide_eq_true_eq, ← Nat.not_le, ← ht.left_nil_iff]
    simp
  have hfit : ¬ (groupCount (ys.map Prod.fst) + 1) % 2 ^ 32 < (planOf taken).length +
      (ws.map Waiting.source).countP (fun src => src.pending.isSome) := by
    rw [planOf, List.length_map, Nat.mod_eq_of_lt (by omega)]
    omega
  have hdata : (taken.map Prod.snd).flatMap Prod.snd = taken.flatMap fun x => x.2.2 := by
    simp [List.flatMap_map]
  have hentries := joinGroups_entries (taken.map Prod.snd)
  rw [hdata] at hentries
  have hsnd : (ws.map fun w => ((w.groups.flatMap Prod.snd).length, w.tail)).map Prod.snd =
      ws.map Waiting.tail := by simp
  simp only [mergeMultiArray, firstIndices_multiOf, Option.bind_eq_bind, Option.bind_some, hrun]
  simp only [mergeStateOf, hskip, Option.bind_some, hfit, if_false, hsnd, hnext, hcopy, hitems,
    hrest, hover, List.set_cons_zero]
  rw [multiOf_words, ← ht.joined (keysSorted_fst hs), hentries, hdata]
  rfl

theorem mergeMultiArray_uncounted {dataMaxLoops size : Nat} (hmax : dataMaxLoops < 2 ^ 31)
    {ys : List (List (Nat × List (List Nat)) × List Nat)} (hs : ∀ y ∈ ys, KeysSorted y.1)
    (hok : ∀ y ∈ ys, EntriesOk dataMaxLoops size y.1)
    (hunion : (mergedGroups (ys.map Prod.fst)).length < 2 ^ 32)
    (hnone : (mergedGroups (ys.map Prod.fst)).head?.map Prod.fst ≠ some (2 ^ 32 - 1))
    (hfits : (allEntries (ys.map Prod.fst)).length ≤ dataMaxLoops)
    (htot : 2 ^ 32 - 1 ≤ groupCount (ys.map Prod.fst)) :
    mergeMultiArray dataMaxLoops size (ys.map fun y => (multiOf y.1).words ++ y.2) = none := by
  obtain ⟨taken, left, ws, ht, -, -, -, hb, hrun⟩ :=
    mergeIndices_start hmax (keysSorted_fst hs) hok hunion hnone
  have hnil : groupCount left = 0 := groupCount_eq_zero (ht.left_nil_iff.mpr hfits)
  have hcount := ht.groupCount_le
  have hfull : (groupCount (ys.map Prod.fst) + 1) % 2 ^ 32 < (planOf taken).length +
      (ws.map Waiting.source).countP (fun src => src.pending.isSome) := by
    rw [planOf, List.length_map]
    omega
  simp only [mergeMultiArray, firstIndices_multiOf, Option.bind_eq_bind, Option.bind_some, hrun]
  simp only [mergeStateOf, skipPlan_eq hb, Option.bind_some, hfull, if_true]

end Ucesb
