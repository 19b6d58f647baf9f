import Ucesb.EventMergeMulti

namespace Ucesb

theorem exists_map_of_forall {α β : Type} {f : α → β} {P : α → Prop} {l : List β}
    (h : ∀ b ∈ l, ∃ a, b = f a ∧ P a) : ∃ as : List α, l = as.map f ∧ ∀ a ∈ as, P a := by
  induction l with
  | nil => exact ⟨[], rfl, by simp⟩
  | cons b l ih =>
    obtain ⟨a, rfl, ha⟩ := h b (by simp)
    obtain ⟨as, rfl, has⟩ := ih fun b hb => h b (List.mem_cons_of_mem _ hb)
    refine ⟨a :: as, rfl, fun a' ha' => ?_⟩
    rcases List.mem_cons.mp ha' with rfl | ha'
    · exact ha
    · exact has a' ha'

theorem mergeArrayFrom_eq {maxLoops size loops : Nat} (hmax : maxLoops < 2 ^ 31)
    (hsize : maxLoops * size < 2 ^ 31) (hl : loops ≤ maxLoops)
    {xs : List (List (List Nat) × List Nat)} (hn : ∀ x ∈ xs, x.1.length ≤ maxLoops)
    (he : ∀ x ∈ xs, ∀ e ∈ x.1, e.length = size) :
    mergeArrayFrom maxLoops size loops (xs.map fun x => x.1.length :: (x.1.flatten ++ x.2)) =
      some ⟨loops + ((xs.flatMap Prod.fst).take (maxLoops - loops)).length,
        ((xs.flatMap Prod.fst).take (maxLoops - loops)).flatten, xs.map Prod.snd,
        decide (maxLoops < loops + (xs.flatMap Prod.fst).length)⟩ := by
  induction xs generalizing loops with
  | nil =>
    have hnot : ¬ maxLoops < loops := by omega
    simp [mergeArrayFrom, hnot]
  | cons x xs ih =>
    obtain ⟨es, rest⟩ := x
    have hes : es.length ≤ maxLoops := hn (es, rest) (by simp)
    have hsz : ∀ e ∈ es, e.length = size := he (es, rest) (by simp)
    have huse := loopsToUse_eq hl hmax (show es.length < 2 ^ 31 by omega)
    have htake : es.take (loopsToUse maxLoops loops es.length) = es.take (maxLoops - loops) := by
      rw [huse, List.take_eq_take_iff]
      omega
    -- what is used and what is skipped
    have hcopy := copy_count hsize
      (show (es.take (loopsToUse maxLoops loops es.length)).length ≤ maxLoops by
        rw [List.length_take]; omega) (fun e h => hsz e (List.mem_of_mem_take h))
    have hskip := copy_count hsize
      (show (es.drop (loopsToUse maxLoops loops es.length)).length ≤ maxLoops by
        rw [List.length_drop]; omega) (fun e h => hsz e (List.mem_of_mem_drop h))
    have hlen : (es.take (loopsToUse maxLoops loops es.length)).length =
        loopsToUse maxLoops loops es.length := by
      rw [List.length_take, huse]
      omega
    rw [hlen] at hcopy
    rw [List.length_drop] at hskip
    have hsplit : es.flatten ++ rest =
        (es.take (loopsToUse maxLoops loops es.length)).flatten ++
          ((es.drop (loopsToUse maxLoops loops es.length)).flatten ++ rest) := by
      rw [← List.append_assoc, ← List.flatten_append, List.take_append_drop]
    have hfit : ¬ (es.flatten ++ rest).length <
        (es.take (loopsToUse maxLoops loops es.length)).flatten.length +
          (es.drop (loopsToUse maxLoops loops es.length)).flatten.length := by
      rw [hsplit]
      simp only [List.length_append]
      omega
    have hrun := @ih (loops + loopsToUse maxLoops loops es.length) (by omega)
      (fun x hx => hn x (List.mem_cons_of_mem _ hx)) (fun x hx => he x (List.mem_cons_of_mem _ hx))
    have hmod : (loops + loopsToUse maxLoops loops es.length) % 2 ^ 32 =
        loops + loopsToUse maxLoops loops es.length := by
      rw [Nat.mod_eq_of_lt (by omega)]
    have hmod' : (loops + es.length) % 2 ^ 32 = loops + es.length := by
      rw [Nat.mod_eq_of_lt (by omega)]
    have hroom : maxLoops - (loops + loopsToUse maxLoops loops es.length) =
        maxLoops - loops - es.length := by omega
    simp only [List.map_cons, mergeArrayFrom, hcopy, hskip, hfit, if_false, hmod, hrun, hmod']
    have hused : (es.flatten ++ rest).take
        (es.take (loopsToUse maxLoops loops es.length)).flatten.length =
          (es.take (maxLoops - loops)).flatten := by
      rw [hsplit, List.take_left, htake]
    have hleft : (es.flatten ++ rest).drop
        ((es.take (loopsToUse maxLoops loops es.length)).flatten.length +
          (es.drop (loopsToUse maxLoops loops es.length)).flatten.length) = rest := by
      rw [hsplit, ← List.drop_drop, List.drop_left, List.drop_left]
    have hcount : (es.take (maxLoops - loops)).length = loopsToUse maxLoops loops es.length := by
      rw [← htake, hlen]
    simp only [hused, hleft, hroom, Option.map_some, Option.some.injEq, ArrayMerge.mk.injEq,
      List.flatMap_cons, List.take_append, List.length_append, List.flatten_append, hcount,
      true_and]
    refine ⟨by omega, ?_⟩
    rw [Bool.eq_iff_iff, Bool.or_eq_true, decide_eq_true_eq, decide_eq_true_eq, decide_eq_true_eq]
    omega

def PartMark.flags : PartMark → List EventPart → Nat
  | .item mark, parts => itemFlags mark (parts.map EventPart.value)
  | .loop maxLoops _, parts =>
    if maxLoops < (parts.flatMap EventPart.entries).length then extFileMergeArrayOverflow else 0
  | .multi _ dataMaxLoops _, parts =>
    if dataMaxLoops < (allEntries (parts.map EventPart.groups)).length then
      extFileMergeArrayMindexOverflow
    else 0

def mergedParts (cols : List (PartMark × List EventPart)) : List EventPart :=
  cols.map fun c => c.1.merged c.2

def mergedFlags (flags : Nat) (cols : List (PartMark × List EventPart)) : Nat :=
  cols.foldl (fun f c => f ||| c.1.flags c.2) flags

theorem columns_cons {α : Type} (pm : PartMark) (pms : List PartMark) (zs : List α)
    (f : α → EventPart) (g : α → List EventPart) :
    columns (pm :: pms) (zs.map fun z => f z :: g z) =
      (pm, zs.map f) :: columns pms (zs.map g) := by
  simp [columns, List.filterMap_map, Function.comp_def]

theorem events_split {pm : PartMark} {pms : List PartMark} {events : List (List EventPart)}
    (hf : ∀ ev ∈ events, List.Forall₂ PartMark.Fits (pm :: pms) ev)
    (hi : ∀ ev ∈ events, ∀ part ∈ ev, part.Indexed) :
    ∃ zs : List (EventPart × List EventPart), events = zs.map (fun z => z.1 :: z.2) ∧
      (∀ z ∈ zs, pm.Fits z.1 ∧ z.1.Indexed) ∧
      (∀ ev ∈ zs.map Prod.snd, List.Forall₂ PartMark.Fits pms ev) ∧
      ∀ ev ∈ zs.map Prod.snd, ∀ part ∈ ev, part.Indexed := by
  have hall : ∀ ev ∈ events, ∃ z : EventPart × List EventPart, ev = z.1 :: z.2 ∧
      ((pm.Fits z.1 ∧ z.1.Indexed) ∧ List.Forall₂ PartMark.Fits pms z.2 ∧
        ∀ part ∈ z.2, part.Indexed) := by
    intro ev hev
    match ev, hf ev hev, hi ev hev with
    | part :: parts, .cons hfit hrest, hind =>
      exact ⟨(part, parts), rfl, ⟨hfit, hind part (by simp)⟩, hrest,
        fun p hp => hind p (List.mem_cons_of_mem _ hp)⟩
  obtain ⟨zs, hzs, hz⟩ := exists_map_of_forall hall
  refine ⟨zs, hzs, fun z h => (hz z h).1, ?_, ?_⟩
  · intro ev hev
    obtain ⟨z, hmem, rfl⟩ := List.mem_map.mp hev
    exact (hz z hmem).2.1
  · intro ev hev
    obtain ⟨z, hmem, rfl⟩ := List.mem_map.mp hev
    exact (hz z hmem).2.2

theorem item_step {zs : List (EventPart × List EventPart)} (hne : zs ≠ []) {mark : Nat}
    (hz : ∀ z ∈ zs, (PartMark.item mark).Fits z.1) (words : List Nat) (flags : Nat) :
    MergeState.item ⟨(zs.map fun z => z.1 :: z.2).map partsWords, words, flags⟩ mark =
      some ⟨(zs.map Prod.snd).map partsWords,
        words ++ ((PartMark.item mark).merged (zs.map Prod.fst)).words,
        flags ||| (PartMark.item mark).flags (zs.map Prod.fst)⟩ := by
  have hwords : (zs.map fun z => z.1 :: z.2).map partsWords =
      zs.map fun z => z.1.value :: partsWords z.2 := by
    rw [List.map_map]
    refine List.map_congr_left fun z hmem => ?_
    match z, hz z hmem with
    | (.item value, parts), _ => rfl
  have hsome : ¬ (zs.map fun z => z.1.value :: partsWords z.2) = [] := by simpa using hne
  rw [hwords, MergeState.item]
  simp [hsome, nextWords_eq, PartMark.merged, PartMark.flags, EventPart.words, Function.comp_def]

theorem array_step {zs : List (EventPart × List EventPart)} {maxLoops size : Nat}
    (hmax : maxLoops < 2 ^ 31) (hsize : maxLoops * size < 2 ^ 31)
    (hz : ∀ z ∈ zs, (PartMark.loop maxLoops size).Fits z.1) (words : List Nat) (flags : Nat) :
    MergeState.array ⟨(zs.map fun z => z.1 :: z.2).map partsWords, words, flags⟩ maxLoops size =
      some ⟨(zs.map Prod.snd).map partsWords,
        words ++ ((PartMark.loop maxLoops size).merged (zs.map Prod.fst)).words,
        flags ||| (PartMark.loop maxLoops size).flags (zs.map Prod.fst)⟩ := by
  have hfits : ∀ z ∈ zs, z.1.entries.length ≤ maxLoops ∧ ∀ e ∈ z.1.entries, e.length = size := by
    intro z hmem
    match z, hz z hmem with
    | (.loop entries, parts), h => exact h
  have hwords : (zs.map fun z => z.1 :: z.2).map partsWords =
      (zs.map fun z => (z.1.entries, partsWords z.2)).map
        fun x => x.1.length :: (x.1.flatten ++ x.2) := by
    rw [List.map_map, List.map_map]
    refine List.map_congr_left fun z hmem => ?_
    match z, hz z hmem with
    | (.loop entries, parts), _ => rfl
  have hrun := @mergeArrayFrom_eq maxLoops size 0 hmax hsize (Nat.zero_le _)
    (zs.map fun z => (z.1.entries, partsWords z.2))
    (by
      intro x hx
      obtain ⟨z, hmem, rfl⟩ := List.mem_map.mp hx
      exact (hfits z hmem).1)
    (by
      intro x hx
      obtain ⟨z, hmem, rfl⟩ := List.mem_map.mp hx
      exact (hfits z hmem).2)
  rw [hwords, MergeState.array, hrun]
  simp [PartMark.merged, PartMark.flags, EventPart.words, Function.comp_def, List.flatMap_map]

theorem multi_step {zs : List (EventPart × List EventPart)} {maxLoops dataMaxLoops size : Nat}
    (hloops : maxLoops * 2 < 2 ^ 31) (hmax : dataMaxLoops < 2 ^ 31)
    (hsize : dataMaxLoops * size < 2 ^ 31)
    (hz : ∀ z ∈ zs, (PartMark.multi maxLoops dataMaxLoops size).Fits z.1)
    (hi : ∀ z ∈ zs, z.1.Indexed)
    (hm : (PartMark.multi maxLoops dataMaxLoops size).Mergeable (zs.map Prod.fst))
    (words : List Nat) (flags : Nat) :
    MergeState.multiArray ⟨(zs.map fun z => z.1 :: z.2).map partsWords, words, flags⟩
        dataMaxLoops size =
      some ⟨(zs.map Prod.snd).map partsWords,
        words ++ ((PartMark.multi maxLoops dataMaxLoops size).merged (zs.map Prod.fst)).words,
        flags ||| (PartMark.multi maxLoops dataMaxLoops size).flags (zs.map Prod.fst)⟩ := by
  have hgroups : ∀ z ∈ zs, z.1 = multiOf z.1.groups ∧ EntriesOk dataMaxLoops size z.1.groups := by
    intro z hmem
    match z, hz z hmem, hi z hmem with
    | (.multi heads data, parts), hfit, hind =>
      have hdata := hind.groups_entries
      refine ⟨hind.eq_multiOf, ?_, ?_⟩
      · rw [hdata]
        exact hfit.2.1
      · rw [hdata]
        exact hfit.2.2
  have hwords : (zs.map fun z => z.1 :: z.2).map partsWords =
      (zs.map fun z => (z.1.groups, partsWords z.2)).map
        fun y => (multiOf y.1).words ++ y.2 := by
    rw [List.map_map, List.map_map]
    refine List.map_congr_left fun z hmem => ?_
    simp only [Function.comp, partsWords_cons]
    rw [← (hgroups z hmem).1]
  have hfst : (zs.map fun z => (z.1.groups, partsWords z.2)).map Prod.fst =
      (zs.map Prod.fst).map EventPart.groups := by simp
  obtain ⟨hunion, hnone, htot⟩ := hm
  rw [← hfst] at hunion hnone htot
  have hrun := @mergeMultiArray_eq dataMaxLoops size hmax hsize
    (zs.map fun z => (z.1.groups, partsWords z.2))
    (by
      intro y hy
      obtain ⟨z, hmem, rfl⟩ := List.mem_map.mp hy
      exact (hi z hmem).sorted)
    (by
      intro y hy
      obtain ⟨z, hmem, rfl⟩ := List.mem_map.mp hy
      exact (hgroups z hmem).2)
    (by omega) hnone htot
  rw [hwords, MergeState.multiArray, hrun, hfst]
  simp [PartMark.merged, PartMark.flags, Function.comp_def]

theorem mergeMarks_item {m : PackMark} (h : m.loop = none) (marks : List PackMark)
    (st : MergeState) :
    mergeMarks (m :: marks) st = (st.item m.mark).bind (mergeMarks marks) := by
  rw [mergeMarks.eq_def]
  simp only [h]

theorem mergeMarks_array {m : PackMark} {maxLoops size : Nat} (h : m.loop = some (maxLoops, size))
    (hm : m.isMind = false) (marks : List PackMark) (st : MergeState) :
    mergeMarks (m :: marks) st = (st.array maxLoops size).bind (mergeMarks marks) := by
  rw [mergeMarks.eq_def]
  simp only [h, hm, Bool.false_eq_true, if_false]

theorem mergeMarks_multi {m d : PackMark} {maxLoops size dataMaxLoops dataSize : Nat}
    (h : m.loop = some (maxLoops, size)) (hm : m.isMind = true)
    (hd : d.loop = some (dataMaxLoops, dataSize)) (marks : List PackMark) (st : MergeState) :
    mergeMarks (m :: d :: marks) st =
      (st.multiArray dataMaxLoops dataSize).bind (mergeMarks marks) := by
  obtain ⟨mark, offset, loop, items⟩ := d
  subst hd
  rw [mergeMarks.eq_def]
  simp only [h, hm, if_true]

theorem mergeMarks_parts {marks : List PackMark} {pms : List PartMark} (hp : PartsOf marks pms)
    {events : List (List EventPart)} (hne : events ≠ [])
    (hf : ∀ ev ∈ events, List.Forall₂ PartMark.Fits pms ev)
    (hi : ∀ ev ∈ events, ∀ part ∈ ev, part.Indexed)
    (hm : ∀ c ∈ columns pms events, c.1.Mergeable c.2) (words : List Nat) (flags : Nat) :
    mergeMarks marks ⟨events.map partsWords, words, flags⟩ =
      some ⟨events.map fun _ => [], words ++ partsWords (mergedParts (columns pms events)),
        mergedFlags flags (columns pms events)⟩ := by
  induction hp generalizing events words flags with
  | nil =>
    have hnil : events.map partsWords = events.map fun _ => [] := by
      refine List.map_congr_left fun ev hev => ?_
      cases hf ev hev
      rfl
    simp [mergeMarks, hnil, columns, mergedParts, mergedFlags, partsWords]
  | @item m marks pms hloop _ ih =>
    obtain ⟨zs, rfl, hz, hf', hi'⟩ := events_split hf hi
    rw [columns_cons] at hm ⊢
    have hstep := @item_step zs (by simpa using hne) m.mark (fun z h => (hz z h).1) words flags
    rw [mergeMarks_item hloop, hstep, Option.bind_some,
      ih (by simpa using hne) hf' hi' fun c hc => hm c (List.mem_cons_of_mem _ hc)]
    simp [mergedParts, mergedFlags]
  | @loop m marks pms maxLoops size hloop hmind hmax hsize _ ih =>
    obtain ⟨zs, rfl, hz, hf', hi'⟩ := events_split hf hi
    rw [columns_cons] at hm ⊢
    have hstep := @array_step zs maxLoops size hmax hsize (fun z h => (hz z h).1) words flags
    rw [mergeMarks_array hloop hmind, hstep, Option.bind_some,
      ih (by simpa using hne) hf' hi' fun c hc => hm c (List.mem_cons_of_mem _ hc)]
    simp [mergedParts, mergedFlags]
  | @multi m d marks pms maxLoops dataMaxLoops size hloop hmind hd hloops hmax hsize _ ih =>
    obtain ⟨zs, rfl, hz, hf', hi'⟩ := events_split hf hi
    rw [columns_cons] at hm ⊢
    have hstep := @multi_step zs maxLoops dataMaxLoops size hloops hmax hsize
      (fun z h => (hz z h).1) (fun z h => (hz z h).2) (hm _ List.mem_cons_self)
      words flags
    rw [mergeMarks_multi hloop hmind hd, hstep, Option.bind_some,
      ih (by simpa using hne) hf' hi' fun c hc => hm c (List.mem_cons_of_mem _ hc)]
    simp [mergedParts, mergedFlags]

theorem mergedGroups_entries_mem {gss : List (List (Nat × List (List Nat)))} {e : List Nat}
    (h : e ∈ (mergedGroups gss).flatMap Prod.snd) : e ∈ allEntries gss := by
  simp only [mergedGroups, List.mem_flatMap, List.mem_map, keyEntries] at h
  obtain ⟨g, ⟨k, -, rfl⟩, he⟩ := h
  obtain ⟨g, hg, he⟩ := List.mem_flatMap.mp he
  exact List.mem_flatMap.mpr ⟨g, List.mem_of_mem_filter hg, he⟩

theorem merged_fits {pm : PartMark} {parts : List EventPart} (hf : ∀ part ∈ parts, pm.Fits part)
    (hi : ∀ part ∈ parts, part.Indexed) (hm : pm.Mergeable parts) : pm.Fits (pm.merged parts) := by
  cases pm with
  | item mark => trivial
  | loop maxLoops size =>
    refine ⟨by simp, fun e he => ?_⟩
    obtain ⟨part, hpart, he⟩ := List.mem_flatMap.mp (List.mem_of_mem_take he)
    match part, hf part hpart, he with
    | .loop entries, hfit, he => exact hfit.2 e he
  | multi maxLoops dataMaxLoops size =>
    refine ⟨?_, ?_, ?_⟩
    · rw [headsFrom_length]
      exact (cutGroups_length_le _ _).trans hm.1
    · rw [cutGroups_entries, List.length_take]
      exact Nat.min_le_left _ _
    · intro e he
      rw [cutGroups_entries] at he
      have hmem := mergedGroups_entries_mem (List.mem_of_mem_take he)
      obtain ⟨g, hg, he⟩ := List.mem_flatMap.mp hmem
      obtain ⟨gs, hgs, hg⟩ := List.mem_flatten.mp hg
      obtain ⟨part, hpart, rfl⟩ := List.mem_map.mp hgs
      match part, hf part hpart, hi part hpart with
      | .multi heads data, hfit, hind =>
        have hdata := hind.groups_entries
        refine hfit.2.2 e ?_
        rw [← hdata]
        exact List.mem_flatMap.mpr ⟨g, hg, he⟩

theorem merged_indexed (pm : PartMark) (parts : List EventPart) : (pm.merged parts).Indexed := by
  cases pm with
  | item | loop => trivial
  | multi => exact multiOf_indexed (cutGroups_sorted _ (mergedGroups_sorted _))

theorem mergedParts_fits {pms : List PartMark} {events : List (List EventPart)}
    (hf : ∀ ev ∈ events, List.Forall₂ PartMark.Fits pms ev)
    (hi : ∀ ev ∈ events, ∀ part ∈ ev, part.Indexed)
    (hm : ∀ c ∈ columns pms events, c.1.Mergeable c.2) :
    List.Forall₂ PartMark.Fits pms (mergedParts (columns pms events)) := by
  induction pms generalizing events with
  | nil => exact .nil
  | cons pm pms ih =>
    obtain ⟨zs, rfl, hz, hf', hi'⟩ := events_split hf hi
    rw [columns_cons] at hm ⊢
    refine .cons (merged_fits ?_ ?_ (hm _ List.mem_cons_self)) (ih hf' hi' fun c hc =>
      hm c (List.mem_cons_of_mem _ hc))
    · intro part hpart
      obtain ⟨z, hmem, rfl⟩ := List.mem_map.mp hpart
      exact (hz z hmem).1
    · intro part hpart
      obtain ⟨z, hmem, rfl⟩ := List.mem_map.mp hpart
      exact (hz z hmem).2

theorem mergedFlags_bit (bit flags : Nat) (cols : List (PartMark × List EventPart)) :
    mergedFlags flags cols &&& bit ≠ 0 ↔
      flags &&& bit ≠ 0 ∨ ∃ c ∈ cols, c.1.flags c.2 &&& bit ≠ 0 := by
  induction cols generalizing flags with
  | nil => simp [mergedFlags]
  | cons c cols ih =>
    have hcons : mergedFlags flags (c :: cols) = mergedFlags (flags ||| c.1.flags c.2) cols := rfl
    rw [hcons, ih, Nat.and_or_distrib_right, ne_eq, Nat.or_eq_zero_iff, List.exists_mem_cons_iff]
    tauto

theorem itemFlags_cases (mark : Nat) (values : List Nat) :
    itemFlags mark values = 0 ∨ itemFlags mark values = extFileMergeMultipleFvalue ∨
      itemFlags mark values = extFileMergeMultipleIvalue := by
  simp only [itemFlags]
  split
  · split
    · exact .inr (.inl rfl)
    · exact .inr (.inr rfl)
  · exact .inl rfl

theorem flags_loopOverflows (pm : PartMark) (parts : List EventPart) :
    pm.flags parts &&& extFileMergeArrayOverflow ≠ 0 ↔ pm.loopOverflows parts := by
  cases pm with
  | item mark =>
    rcases itemFlags_cases mark (parts.map EventPart.value) with h | h | h <;>
      simp [PartMark.flags, PartMark.loopOverflows, h, extFileMergeArrayOverflow,
        extFileMergeMultipleFvalue, extFileMergeMultipleIvalue]
  | loop maxLoops size =>
    simp only [PartMark.flags, PartMark.loopOverflows]
    split
    next h => exact iff_of_true (by decide) h
    next h => exact iff_of_false (by decide) h
  | multi maxLoops dataMaxLoops size =>
    simp only [PartMark.flags, PartMark.loopOverflows]
    split <;> simp [extFileMergeArrayOverflow, extFileMergeArrayMindexOverflow]

theorem flags_multiOverflows (pm : PartMark) (parts : List EventPart) :
    pm.flags parts &&& extFileMergeArrayMindexOverflow ≠ 0 ↔ pm.multiOverflows parts := by
  cases pm with
  | item mark =>
    rcases itemFlags_cases mark (parts.map EventPart.value) with h | h | h <;>
      simp [PartMark.flags, PartMark.multiOverflows, h, extFileMergeArrayMindexOverflow,
        extFileMergeMultipleFvalue, extFileMergeMultipleIvalue]
  | loop maxLoops size =>
    simp only [PartMark.flags, PartMark.multiOverflows]
    split <;> simp [extFileMergeArrayOverflow, extFileMergeArrayMindexOverflow]
  | multi maxLoops dataMaxLoops size =>
    simp only [PartMark.flags, PartMark.multiOverflows]
    split
    next h => exact iff_of_true (by decide) h
    next h => exact iff_of_false (by decide) h

def setPartAt (parts : List EventPart) (p : Option Nat) (value : Nat) : List EventPart :=
  match p with
  | none => parts
  | some p => parts.set p (.item value)

def LeadsTo (pms : List PartMark) (p : Nat) : Prop :=
  ∀ k ≤ p, ∃ mark, pms[k]? = some (.item mark)

theorem LeadsTo.tail {pm : PartMark} {pms : List PartMark} {p : Nat}
    (h : LeadsTo (pm :: pms) (p + 1)) : LeadsTo pms p := fun k hk => h (k + 1) (by omega)

theorem partsWords_set {pms : List PartMark} {parts : List EventPart} {p : Nat}
    (hf : List.Forall₂ PartMark.Fits pms parts) (hp : LeadsTo pms p) (value : Nat) :
    (partsWords parts).set p value = partsWords (parts.set p (.item value)) ∧
      List.Forall₂ PartMark.Fits pms (parts.set p (.item value)) := by
  induction hf generalizing p with
  | nil =>
    obtain ⟨mark, h⟩ := hp 0 (Nat.zero_le _)
    simp at h
  | @cons pm part pms parts hfit hrest ih =>
    obtain ⟨mark, h⟩ := hp 0 (Nat.zero_le _)
    obtain rfl : pm = .item mark := by simpa using h
    match part, hfit with
    | .item v, hfit =>
      cases p with
      | zero => exact ⟨rfl, .cons trivial hrest⟩
      | succ p =>
        obtain ⟨hset, hfits⟩ := ih hp.tail
        refine ⟨?_, .cons hfit hfits⟩
        simpa [EventPart.words] using hset

theorem partsWords_setPartAt {pms : List PartMark} {parts : List EventPart} {p : Option Nat}
    (hf : List.Forall₂ PartMark.Fits pms parts) (hp : ∀ q ∈ p, LeadsTo pms q) (value : Nat) :
    setWordAt (partsWords parts) p value = partsWords (setPartAt parts p value) ∧
      List.Forall₂ PartMark.Fits pms (setPartAt parts p value) := by
  cases p with
  | none => exact ⟨rfl, hf⟩
  | some q => exact partsWords_set hf (hp q rfl) value

def ItemMark (bit : Nat) (marks : List PackMark) : Prop :=
  ∀ m ∈ marks, m.loop ≠ none → m.mark &&& bit = 0

theorem markOffset_after_loop {stageLength bit : Nat}
    (hbit : ∀ mark : Nat, mark &&& bit ≠ 0 → mark &&& externalWriterMarkMergeInfo ≠ 0)
    {marks : List PackMark} {expect : Bool} (hc : checkMarks stageLength true expect marks = true) :
    markOffset bit marks = none := by
  induction marks generalizing expect with
  | nil => rfl
  | cons m marks ih =>
    simp only [checkMarks, Bool.and_eq_true, Bool.and_true, Bool.not_eq_true',
      PackMark.hasMergeInfo, bne_eq_false_iff_eq] at hc
    obtain ⟨⟨-, hinfo⟩, hrest⟩ := hc
    have hm : m.mark &&& bit = 0 := by
      by_contra h
      exact hbit _ h hinfo
    have hnone : markOffset bit marks = none := by
      split at hrest
      next =>
        simp only [Bool.and_eq_true] at hrest
        exact ih hrest.2
      next =>
        simp only [Bool.and_eq_true] at hrest
        exact ih hrest.2
    simp [markOffset, hnone, hm]

theorem markOffset_leadsTo {stageLength bit : Nat}
    (hbit : ∀ mark : Nat, mark &&& bit ≠ 0 → mark &&& externalWriterMarkMergeInfo ≠ 0)
    {marks : List PackMark} {pms : List PartMark} (hp : PartsOf marks pms) {hadLoop expect : Bool}
    (hc : checkMarks stageLength hadLoop expect marks = true) (hi : ItemMark bit marks) {p : Nat}
    (h : markOffset bit marks = some p) : LeadsTo pms p := by
  -- the mark is not on a loop, and there is none after it
  have hloop : ∀ {m : PackMark} {marks : List PackMark} {hadLoop expect : Bool} {p : Nat},
      checkMarks stageLength hadLoop expect (m :: marks) = true → ItemMark bit (m :: marks) →
      m.loop ≠ none → markOffset bit (m :: marks) ≠ some p := by
    intro m marks hadLoop expect p hc hi hm h
    cases hl : m.loop with
    | none => exact hm hl
    | some sizes =>
      simp only [checkMarks, hl, Bool.and_eq_true] at hc
      have hnone := markOffset_after_loop hbit hc.2.2
      simp [markOffset, hnone, hi m (by simp) hm] at h
  induction hp generalizing hadLoop expect p with
  | nil => simp [markOffset] at h
  | @item m marks pms hm _ ih =>
    simp only [checkMarks, hm, Bool.and_eq_true] at hc
    simp only [markOffset] at h
    split at h
    next q hq =>
      obtain rfl : q + 1 = p := by simpa using h
      have hrest := ih hc.2.2 (fun m hm => hi m (List.mem_cons_of_mem _ hm)) hq
      intro k hk
      cases k with
      | zero => exact ⟨m.mark, rfl⟩
      | succ k => exact hrest k (by omega)
    next =>
      split at h
      next => simp at h
      next =>
        obtain rfl : 0 = p := by simpa using h
        intro k hk
        obtain rfl : k = 0 := by omega
        exact ⟨m.mark, rfl⟩
  | @loop m marks pms maxLoops size hm => exact absurd h (hloop hc hi (by simp [hm]))
  | @multi m d marks pms maxLoops dataMaxLoops size hm =>
    exact absurd h (hloop hc hi (by simp [hm]))

theorem setPartAt_indexed {parts : List EventPart} (h : ∀ part ∈ parts, part.Indexed)
    (p : Option Nat) (value : Nat) : ∀ part ∈ setPartAt parts p value, part.Indexed := by
  cases p with
  | none => exact h
  | some p =>
    intro part hpart
    rcases List.mem_or_eq_of_mem_set hpart with hpart | rfl
    · exact h part hpart
    · trivial

def OffsetArray.parts (oa : OffsetArray) (words : List Nat) : List EventPart :=
  eventParts (partMarks oa.marks) words

def OffsetArray.columns (oa : OffsetArray) (sources : List (List Nat)) :
    List (PartMark × List EventPart) :=
  Ucesb.columns (partMarks oa.marks) (sources.map oa.parts)

theorem mergeInfo_of_bit {bit : Nat} (h : externalWriterMarkMergeInfo &&& bit = bit) (mark : Nat)
    (hm : mark &&& bit ≠ 0) : mark &&& externalWriterMarkMergeInfo ≠ 0 := by
  intro hzero
  rw [← h, ← Nat.and_assoc, hzero, Nat.zero_and] at hm
  exact hm rfl

theorem ItemMark.of_or {bit bit' : Nat} {marks : List PackMark}
    (h : ItemMark (bit ||| bit') marks) : ItemMark bit marks ∧ ItemMark bit' marks := by
  have hboth : ∀ m ∈ marks, m.loop ≠ none → m.mark &&& bit = 0 ∧ m.mark &&& bit' = 0 := by
    intro m hm hl
    have := h m hm hl
    rwa [Nat.and_or_distrib_left, Nat.or_eq_zero_iff] at this
  exact ⟨fun m hm hl => (hboth m hm hl).1, fun m hm hl => (hboth m hm hl).2⟩

theorem requestArrayOffsets_offsets {stageLength tsMergeWindow : Nat} {list : List Nat}
    {oa : OffsetArray} (h : requestArrayOffsets stageLength tsMergeWindow list = some oa) :
    checkMarks stageLength false false oa.marks = true ∧
      oa.poffsetMrgStat = markOffset externalWriterMarkMrgStat oa.marks ∧
      oa.poffsetMrgMask = markOffset externalWriterMarkMrgMask oa.marks := by
  simp only [requestArrayOffsets] at h
  split at h
  next =>
    obtain ⟨marks, -, h⟩ := Option.bind_eq_some_iff.mp h
    split at h
    next hc =>
      simp only [Bool.and_eq_true] at hc
      cases h
      exact ⟨hc.1.1, rfl, rfl⟩
    next => simp at h
  next => simp at h

/-- Events of a list are merged part by part. -/
theorem events_merged_by_pack_list {stageLength tsMergeWindow : Nat} {list : List Nat}
    {oa : OffsetArray} (h : requestArrayOffsets stageLength tsMergeWindow list = some oa)
    (hctrl : ItemMark (externalWriterMarkMrgStat ||| externalWriterMarkMrgMask) oa.marks)
    {sources : List (List Nat)} (hne : sources ≠ [])
    (hfill : ∀ words ∈ sources, oa.ntupleFill words = true)
    (hind : ∀ words ∈ sources, ∀ part ∈ oa.parts words, part.Indexed)
    (hm : ∀ c ∈ oa.columns sources, c.1.Mergeable c.2) (flags srcidMask : Nat) :
    ∃ st words, mergeMarks oa.marks ⟨sources, [], flags⟩ = some st ∧
      (∀ left ∈ st.sources, left = []) ∧
      extMergeDoMerge oa sources flags srcidMask = some (words, st.flags) ∧
      oa.ntupleFill words = true ∧ (∀ part ∈ oa.parts words, part.Indexed) ∧
      oa.parts words = setPartAt (setPartAt (mergedParts (oa.columns sources))
        oa.poffsetMrgStat st.flags) oa.poffsetMrgMask srcidMask ∧
      (st.flags &&& extFileMergeArrayOverflow ≠ 0 ↔
        flags &&& extFileMergeArrayOverflow ≠ 0 ∨
          ∃ c ∈ oa.columns sources, c.1.loopOverflows c.2) ∧
      (st.flags &&& extFileMergeArrayMindexOverflow ≠ 0 ↔
        flags &&& extFileMergeArrayMindexOverflow ≠ 0 ∨
          ∃ c ∈ oa.columns sources, c.1.multiOverflows c.2) := by
  have hp := requestArrayOffsets_partsOf h
  obtain ⟨hcheck, hstat, hmask⟩ := requestArrayOffsets_offsets h
  obtain ⟨hstatItem, hmaskItem⟩ := hctrl.of_or
  -- the sources by their parts
  obtain ⟨events, rfl, hf⟩ := exists_map_of_forall fun words hw => by
    obtain ⟨parts, hf, hw⟩ := (ntupleFill_iff hp words).mp (hfill words hw)
    exact ⟨parts, hw, hf⟩
  have hparts : (events.map partsWords).map oa.parts = events := by
    rw [List.map_map, List.map_congr_left (g := id)]
    · simp
    · exact fun ev hev => eventParts_of_words (hf ev hev)
  have hi : ∀ ev ∈ events, ∀ part ∈ ev, part.Indexed := by
    intro ev hev part hpart
    refine hind (partsWords ev) (List.mem_map_of_mem hev) part ?_
    rwa [OffsetArray.parts, eventParts_of_words (hf ev hev)]
  have hcols : oa.columns (events.map partsWords) = columns (partMarks oa.marks) events := by
    rw [OffsetArray.columns, hparts]
  rw [hcols] at hm ⊢
  have hrun := mergeMarks_parts hp (by simpa using hne) hf hi hm [] flags
  have hfits := mergedParts_fits hf hi hm
  -- the items that are written at the end
  obtain ⟨hset, hfits⟩ := partsWords_setPartAt (p := oa.poffsetMrgStat) hfits (by
    intro q hq
    rw [hstat] at hq
    exact markOffset_leadsTo (mergeInfo_of_bit (by decide)) hp hcheck hstatItem hq)
    (mergedFlags flags (columns (partMarks oa.marks) events))
  obtain ⟨hset', hfits'⟩ := partsWords_setPartAt (p := oa.poffsetMrgMask) hfits (by
    intro q hq
    rw [hmask] at hq
    exact markOffset_leadsTo (mergeInfo_of_bit (by decide)) hp hcheck hmaskItem hq) srcidMask
  have hread := eventParts_of_words hfits'
  refine ⟨_, _, hrun, by simp, ?_, (ntupleFill_iff hp _).mpr ⟨_, hfits', rfl⟩, ?_, hread, ?_, ?_⟩
  · have hall : (events.map fun _ => ([] : List Nat)).all (· == []) = true := by simp
    simp only [extMergeDoMerge, hrun, Option.bind_some, hall, if_true, List.nil_append, hset, hset']
  · rw [OffsetArray.parts, hread]
    refine setPartAt_indexed (setPartAt_indexed ?_ _ _) _ _
    intro part hpart
    obtain ⟨c, -, rfl⟩ := List.mem_map.mp hpart
    exact merged_indexed c.1 c.2
  · rw [mergedFlags_bit]
    simp only [flags_loopOverflows]
  · rw [mergedFlags_bit]
    simp only [flags_multiOverflows]

def multiPackList (maxLoops dataMaxLoops : Nat) : List Nat :=
  [0x40a52100, 0, 0x40a52200, 4, 0x40a52400, 8, 0x40a51000, 12, 0xd0a50000, 16, maxLoops, 2] ++
    (List.range maxLoops).flatMap (fun k => [0x48a50000, 20 + 8 * k, 0x44a50000, 24 + 8 * k]) ++
    [0xc0a50000, 20 + 8 * maxLoops, dataMaxLoops, 1] ++
    (List.range dataMaxLoops).flatMap fun k => [0x40a50000, 24 + 8 * maxLoops + 4 * k]

def multiOffsets (maxLoops dataMaxLoops : Nat) : OffsetArray :=
  (requestArrayOffsets (24 + 8 * maxLoops + 4 * dataMaxLoops) 1
    (multiPackList maxLoops dataMaxLoops)).getD ⟨[], none, none⟩

theorem mergeable_multi {maxLoops dataMaxLoops size : Nat} {parts : List EventPart}
    (hcard : ((parts.map EventPart.groups).flatten.map Prod.fst).toFinset.card ≤ maxLoops)
    (hkeys : 2 ^ 32 - 1 ∉ (parts.map EventPart.groups).flatten.map Prod.fst)
    (htot : groupCount (parts.map EventPart.groups) < 2 ^ 32 - 1) :
    (PartMark.multi maxLoops dataMaxLoops size).Mergeable parts := by
  refine ⟨?_, fun h => hkeys (mergedGroups_head_mem h), htot⟩
  rwa [mergedGroups_length]

def twoSources : List (List Nat) :=
  [[5, 0, 1, 0, 2, 1, 1, 2, 2, 2, 7, 8], [5, 0, 2, 0, 1, 2, 1, 1, 9]]

theorem events_merged_two :
    ∃ st words, mergeMarks (multiOffsets 3 2).marks ⟨twoSources, [], 0⟩ = some st ∧
      (∀ left ∈ st.sources, left = []) ∧
      extMergeDoMerge (multiOffsets 3 2) twoSources 0 3 = some (words, st.flags) ∧
      (multiOffsets 3 2).ntupleFill words = true ∧
      (∀ part ∈ (multiOffsets 3 2).parts words, part.Indexed) ∧
      (multiOffsets 3 2).parts words =
        setPartAt (setPartAt (mergedParts ((multiOffsets 3 2).columns twoSources))
          (multiOffsets 3 2).poffsetMrgStat st.flags) (multiOffsets 3 2).poffsetMrgMask 3 ∧
      (st.flags &&& extFileMergeArrayOverflow ≠ 0 ↔ 0 &&& extFileMergeArrayOverflow ≠ 0 ∨
        ∃ c ∈ (multiOffsets 3 2).columns twoSources, c.1.loopOverflows c.2) ∧
      (st.flags &&& extFileMergeArrayMindexOverflow ≠ 0 ↔
        0 &&& extFileMergeArrayMindexOverflow ≠ 0 ∨
          ∃ c ∈ (multiOffsets 3 2).columns twoSources, c.1.multiOverflows c.2) := by
  have haccept : requestArrayOffsets 56 1 (multiPackList 3 2) = some (multiOffsets 3 2) := by
    decide +kernel
  have hctrl : ItemMark (externalWriterMarkMrgStat ||| externalWriterMarkMrgMask)
      (multiOffsets 3 2).marks := by
    unfold ItemMark
    decide +kernel
  have hfill : ∀ words ∈ twoSources, (multiOffsets 3 2).ntupleFill words = true := by
    decide +kernel
  have hind : ∀ words ∈ twoSources, ∀ part ∈ (multiOffsets 3 2).parts words, part.Indexed := by
    decide +kernel
  have hcols : (multiOffsets 3 2).columns twoSources =
      [(.item 0x40a52100, [.item 5, .item 5]), (.item 0x40a52200, [.item 0, .item 0]),
        (.item 0x40a52400, [.item 1, .item 2]), (.item 0x40a51000, [.item 0, .item 0]),
        (.multi 3 2 1, [.multi [(1, 1), (2, 2)] [[7], [8]], .multi [(2, 1)] [[9]]])] := by
    decide +kernel
  refine events_merged_by_pack_list haccept hctrl (by decide) hfill hind ?_ 0 3
  intro c hc
  rw [hcols] at hc
  simp only [List.mem_cons, List.not_mem_nil, or_false] at hc
  rcases hc with rfl | rfl | rfl | rfl | rfl
  · trivial
  · trivial
  · trivial
  · trivial
  · exact mergeable_multi (by decide +kernel) (by decide +kernel) (by decide +kernel)

def EventPart.increasing : EventPart → Bool
  | .multi heads _ =>
    decide ((heads.map Prod.fst).Pairwise (· < ·)) && decide ((heads.map Prod.snd).Pairwise (· ≤ ·))
  | _ => true

/-- For a list and events that are accepted, the parts that come out, if they are accepted again,
and the flags. -/
def mergeAccepted (stageLength : Nat) (list : List Nat) (sources : List (List Nat)) :
    Option (Option (List EventPart × Bool × Nat)) :=
  (requestArrayOffsets stageLength 1 list).bind fun oa =>
    if sources.all fun words =>
        oa.ntupleFill words && (oa.parts words).all EventPart.increasing then
      some ((extMergeDoMerge oa sources 0 0).map fun r => (oa.parts r.1, oa.ntupleFill r.1, r.2))
    else none

def flagsOnLoopList : List Nat :=
  [0x40a52100, 0, 0x40a52200, 4, 0x40a52400, 8, 0xc0a51000, 12, 1, 1, 0x40a50000, 16]

theorem mergeMarks_items_none {items marks : List PackMark} (hitems : ∀ m ∈ items, m.loop = none)
    {sources : List (List Nat)} (hne : sources ≠ [])
    (h : ∀ words flags, mergeMarks marks ⟨sources, words, flags⟩ = none) {α : Type} {xs : List α}
    {pre tail : α → List Nat} (hpre : ∀ x, (pre x).length = items.length)
    (htail : xs.map tail = sources) (words : List Nat) (flags : Nat) :
    mergeMarks (items ++ marks) ⟨xs.map fun x => pre x ++ tail x, words, flags⟩ = none := by
  induction items generalizing pre words flags with
  | nil =>
    have hnil : (xs.map fun x => pre x ++ tail x) = sources := by
      rw [← htail]
      exact List.map_congr_left fun x _ => by rw [List.length_eq_zero_iff.mp (hpre x)]; rfl
    rw [hnil]
    exact h words flags
  | cons m items ih =>
    have hcons : (xs.map fun x => pre x ++ tail x) =
        xs.map fun x => (pre x).headD 0 :: ((pre x).tail ++ tail x) := by
      refine List.map_congr_left fun x _ => ?_
      cases hp : pre x with
      | nil => simpa [hp] using hpre x
      | cons v vs => rfl
    have hsome : ¬ (xs.map fun x => (pre x).headD 0 :: ((pre x).tail ++ tail x)) = [] := by
      rw [← htail] at hne
      simpa using hne
    rw [List.cons_append, mergeMarks_item (hitems m (by simp)), MergeState.item, hcons,
      if_neg hsome, nextWords_eq, Option.map_some, Option.bind_some]
    exact ih (fun m hm => hitems m (List.mem_cons_of_mem _ hm)) (fun x => by simp [hpre x]) _ _

theorem multiOffsets_one_zero : multiOffsets 1 0 =
    ⟨[⟨0x40a52100, 0, none, []⟩, ⟨0x40a52200, 4, none, []⟩, ⟨0x40a52400, 8, none, []⟩,
      ⟨0x40a51000, 12, none, []⟩,
      ⟨0xd0a50000, 16, some (1, 2), [(0x48a50000, 20), (0x44a50000, 24)]⟩,
      ⟨0xc0a50000, 28, some (0, 1), []⟩], some 3, none⟩ := by decide +kernel

theorem many_indices_refused {n : Nat} (hn : 2 ^ 32 - 1 ≤ n) (words : List Nat) (flags : Nat) :
    mergeMarks (multiOffsets 1 0).marks
      ⟨(List.range n).map fun srcid => [0, 0, srcid, 0] ++ [1, 1, 0, 0], words, flags⟩ = none := by
  have hmarks : (multiOffsets 1 0).marks =
      [⟨0x40a52100, 0, none, []⟩, ⟨0x40a52200, 4, none, []⟩, ⟨0x40a52400, 8, none, []⟩,
        ⟨0x40a51000, 12, none, []⟩] ++
      [⟨0xd0a50000, 16, some (1, 2), [(0x48a50000, 20), (0x44a50000, 24)]⟩,
        ⟨0xc0a50000, 28, some (0, 1), []⟩] := by
    rw [multiOffsets_one_zero]
    rfl
  have hfst : ((List.range n).map fun _ => (([(1, [])], []) :
      List (Nat × List (List Nat)) × List Nat)).map Prod.fst =
        List.replicate n [(1, ([] : List (List Nat)))] := by simp
  have hkeys : ∀ k ∈ (List.replicate n [(1, ([] : List (List Nat)))]).flatten.map Prod.fst,
      k = 1 := by
    intro k hk
    obtain ⟨g, hg, rfl⟩ := List.mem_map.mp hk
    obtain ⟨gs, hgs, hg⟩ := List.mem_flatten.mp hg
    rw [List.eq_of_mem_replicate hgs] at hg
    simpa using congrArg Prod.fst (List.mem_singleton.mp hg)
  have hmulti := @mergeMultiArray_uncounted 0 1 (by decide)
    ((List.range n).map fun _ => ([(1, [])], []))
    (by simp [KeysSorted]) (by simp [EntriesOk])
    (by
      rw [hfst, mergedGroups_length]
      refine lt_of_le_of_lt (Finset.card_le_card (t := {1}) ?_) (by decide)
      intro k hk
      simpa using hkeys k (List.mem_toFinset.mp hk))
    (by
      rw [hfst]
      intro h
      exact absurd (hkeys _ (mergedGroups_head_mem h)) (by decide))
    (by rw [hfst]; simp [allEntries]) (by rw [hfst]; simpa [groupCount] using hn)
  rw [hmarks]
  refine mergeMarks_items_none (by simp) ?_ ?_ (fun _ => rfl) rfl words flags
  · simp
    omega
  · intro words flags
    rw [List.map_map] at hmulti
    have hnone : mergeMultiArray 0 1 ((List.range n).map fun _ => [1, 1, 0, 0]) = none := hmulti
    rw [mergeMarks_multi rfl rfl rfl, MergeState.multiArray, hnone]
    rfl

theorem mergeAccepted_many {n : Nat} (hn : 2 ^ 32 - 1 ≤ n) :
    mergeAccepted 32 (multiPackList 1 0)
      ((List.range n).map fun srcid => [0, 0, srcid, 0] ++ [1, 1, 0, 0]) = some none := by
  have haccept : requestArrayOffsets 32 1 (multiPackList 1 0) = some (multiOffsets 1 0) := by
    decide +kernel
  have hall : (((List.range n).map fun srcid => [0, 0, srcid, 0] ++ [1, 1, 0, 0]).all fun words =>
      (multiOffsets 1 0).ntupleFill words &&
        ((multiOffsets 1 0).parts words).all EventPart.increasing) = true := by
    rw [List.all_eq_true]
    intro words hw
    obtain ⟨srcid, -, rfl⟩ := List.mem_map.mp hw
    rw [multiOffsets_one_zero]
    rfl
  rw [mergeAccepted, haccept, Option.bind_some, if_pos hall, extMergeDoMerge,
    many_indices_refused hn]
  rfl

theorem merge_other_than_union :
    mergeAccepted 52 (multiPackList 3 1) [[5, 0, 1, 0, 1, 1, 1, 1, 7],
        [5, 0, 2, 0, 1, 2, 1, 1, 8], [5, 0, 3, 0, 1, 3, 1, 1, 9]] =
      some (some ([.item 5, .item 0, .item 1, .item 0x20, .multi [(1, 1), (2, 1)] [[7]]],
        true, 0x20)) ∧
    mergeAccepted 52 (multiPackList 3 1) [[5, 0, 1, 0, 1, 1, 0, 1, 7]] = some none ∧
    mergeAccepted 40 (multiPackList 1 2) [[5, 0, 1, 0, 1, 1, 1, 1, 7],
        [5, 0, 2, 0, 1, 2, 1, 1, 8]] =
      some (some ([.item 5, .item 0, .item 1, .item 0, .multi [(1, 1), (2, 2)] [[7], [8]]],
        false, 0)) ∧
    mergeAccepted 36 (multiPackList 1 1) [[5, 0, 1, 0, 1, 2 ^ 32 - 1, 1, 1, 7]] =
      some (some ([.item 5, .item 0, .item 1, .item 0, .multi [] [[7]]], true, 0)) ∧
    mergeAccepted 20 flagsOnLoopList [[5, 0, 1, 1, 7]] =
      some (some ([.item 5, .item 0, .item 1, .loop []], false, 0)) ∧
    mergeAccepted 32 (multiPackList 1 0)
      ((List.range (2 ^ 32)).map fun srcid => [0, 0, srcid, 0] ++ [1, 1, 0, 0]) = some none := by
  exact ⟨by decide +kernel, by decide +kernel, by decide +kernel, by decide +kernel,
    by decide +kernel, mergeAccepted_many (by decide)⟩

end Ucesb
