import Ucesb.PackRoundTrip

namespace Ucesb

def traceItems : Nat → List Nat → List Nat → Option (List Nat × WordStores)
  | 0, _, p => some (p, [])
  | n + 1, _ :: offset :: o, value :: p =>
    (traceItems n o p).map fun r => (r.1, (offset, value) :: r.2)
  | _, _, _ => none

/-- The loops of `ext_data_write_packed_event` and of `request_ntuple_fill`. A control item that is
out of bounds and words that are too few or too many are errors; outside of the list and of the words
is `none`. -/
def traceFrom : Nat → List Nat → List Nat → Nat → Option (Int × WordStores)
  | _, [], p, _ => some (if p = [] then 0 else -4, [])
  | fuel + 1, mark :: offset :: o, value :: p, extra =>
    if mark &&& externalWriterMarkLoop = 0 then
      (traceFrom fuel o p extra).map fun r => (r.1, (offset, value) :: r.2)
    else
      match o with
      | maxLoops :: loopSize :: o =>
        let items := value * loopSize % 2 ^ 32
        if maxLoops < value then some (-2, [(offset, value)])
        else if extra < items then some (-3, [(offset, value)])
        else do
          let (p, stores) ← traceItems items o p
          let r ← traceFrom fuel (o.drop (2 * maxLoops * loopSize % 2 ^ 32)) p (extra - items)
          some (r.1, (offset, value) :: (stores ++ r.2))
      | _ => none
  | _, _, _, _ => none

def tracePacked (list : List Nat) (staticItems : Nat) (words : List Nat) :
    Option (Int × WordStores) :=
  if words.length < staticItems then some (-1, [])
  else traceFrom list.length list words (words.length - staticItems)

/-- Whatever the words of an event, the walk stays within the list and the words, stores within the
structure, and no more than so many items. -/
def WalkSafe (list : List Nat) (staticItems maxItems size : Nat) : Prop :=
  ∀ words, ∃ code stores, tracePacked list staticItems words = some (code, stores) ∧
    (∀ s ∈ stores, s.1 + 4 ≤ size) ∧ stores.length ≤ maxItems

def PackEntry.offsets : PackEntry → List Nat
  | .item offset => [offset]
  | .loop offset _ _ items => offset :: items

def entryOffsets (entries : List PackEntry) : List Nat := entries.flatMap PackEntry.offsets

section Trace

variable {n fuel extra : Nat} {o p list : List Nat} {dest : Nat → UInt8}

theorem storeItems_trace (n : Nat) (o p : List Nat) (dest : Nat → UInt8) :
    storeItems n o p dest = (traceItems n o p).map fun r => (r.1, runStores dest r.2) := by
  induction n generalizing o p dest with
  | zero => rfl
  | succ n ih =>
    rcases o with _ | ⟨mark, _ | ⟨offset, o⟩⟩
    · rfl
    · rfl
    · cases p with
      | nil => rfl
      | cons value p =>
        rw [storeItems, traceItems, ih, Option.map_map]
        rfl

theorem packedFrom_trace (fuel : Nat) (list p : List Nat) (extra : Nat) (dest : Nat → UInt8) :
    packedFrom fuel list p extra dest =
      (traceFrom fuel list p extra).map fun r => (r.1, runStores dest r.2) := by
  induction fuel generalizing list p extra dest with
  | zero =>
    rcases list with _ | ⟨mark, _ | ⟨offset, o⟩⟩
    · rfl
    · rfl
    · rfl
  | succ fuel ih =>
    rcases list with _ | ⟨mark, _ | ⟨offset, o⟩⟩
    · rfl
    · rfl
    cases p with
    | nil => rfl
    | cons value p =>
      rw [packedFrom.eq_def, traceFrom.eq_def]
      dsimp only
      split
      · rw [ih, Option.map_map]
        rfl
      rcases o with _ | ⟨maxLoops, _ | ⟨loopSize, o⟩⟩
      · rfl
      · rfl
      dsimp only
      split
      · rfl
      split
      · rfl
      rw [storeItems_trace]
      cases traceItems (value * loopSize % 2 ^ 32) o p with
      | none => rfl
      | some r =>
        simp only [Option.map_some, Option.bind_eq_bind, Option.bind_some, ih]
        cases traceFrom fuel (o.drop (2 * maxLoops * loopSize % 2 ^ 32)) r.1
            (extra - value * loopSize % 2 ^ 32) with
        | none => rfl
        | some r' =>
          simp only [Option.map_some, Option.bind_some, runStores, List.foldl_cons,
            List.foldl_append]

theorem extDataWritePackedEvent_trace (list : List Nat) (staticItems : Nat) (dest : Nat → UInt8)
    (words : List Nat) :
    extDataWritePackedEvent list staticItems dest words =
      (tracePacked list staticItems words).map fun r => (r.1, runStores dest r.2) := by
  unfold extDataWritePackedEvent tracePacked
  split
  · rfl
  · exact packedFrom_trace _ _ _ _ _

theorem traceItems_eq {items : List Nat} (h : loopOffsets n o = some items) {m : Nat}
    (hm : m ≤ n) (hp : m ≤ p.length) :
    ∃ stores, traceItems m o p = some (p.drop m, stores) ∧
      stores.map Prod.fst = items.take m := by
  induction n generalizing o items m p with
  | zero =>
    cases Nat.le_zero.mp hm
    exact ⟨[], rfl, rfl⟩
  | succ n ih =>
    obtain ⟨mark, offset, o', rest, rfl, rfl, hrest⟩ := loopOffsets_succ h
    cases m with
    | zero => exact ⟨[], rfl, rfl⟩
    | succ m =>
      cases p with
      | nil => cases hp
      | cons value p =>
        obtain ⟨stores, hrun, hfst⟩ := ih hrest (Nat.le_of_succ_le_succ hm)
          (Nat.le_of_succ_le_succ hp)
        refine ⟨(offset, value) :: stores, ?_, ?_⟩
        · rw [traceItems, hrun]
          rfl
        · rw [List.map_cons, hfst, List.take_succ_cons]

theorem traceItems_none (h : o.length < 2 * n) : traceItems n o p = none := by
  induction n generalizing o p with
  | zero => cases h
  | succ n ih =>
    rcases o with _ | ⟨mark, _ | ⟨offset, o⟩⟩
    · rfl
    · rfl
    · cases p with
      | nil => rfl
      | cons value p =>
        simp only [List.length_cons] at h
        rw [traceItems, ih (by omega)]
        rfl

end Trace

section Walk

variable {fuel extra size : Nat} {list p : List Nat} {entries : List PackEntry}

theorem traceFrom_loop {mark offset maxLoops loopSize value m : Nat} {o items : List Nat}
    (hmark : mark &&& externalWriterMarkLoop ≠ 0)
    (hitems : loopOffsets (maxLoops * loopSize % 2 ^ 32) o = some items)
    (hcount : maxLoops * loopSize < 2 ^ 32) (hlen : o.length < 2 ^ 30) (hvalue : value ≤ maxLoops)
    (hm : m = value * loopSize) (hp : m ≤ p.length) :
    ∃ stores, stores.map Prod.fst = items.take m ∧
      traceFrom (fuel + 1) (mark :: offset :: maxLoops :: loopSize :: o) (value :: p) extra =
        if extra < m then some (-3, [(offset, value)])
        else (traceFrom fuel (o.drop (2 * (maxLoops * loopSize % 2 ^ 32))) (p.drop m)
            (extra - m)).map fun r => (r.1, (offset, value) :: (stores ++ r.2)) := by
  obtain ⟨-, hskip, hmod, hle, -⟩ := loop_counts hitems hcount hlen hvalue
  obtain ⟨stores, hrun, hfst⟩ := traceItems_eq hitems (hm ▸ hle) hp
  refine ⟨stores, hfst, ?_⟩
  rw [traceFrom.eq_def]
  dsimp only
  rw [if_neg hmark, if_neg (by omega), hmod, ← hm, hrun, hskip, Option.map_eq_bind]
  rfl

theorem entryOffsets_cons (e : PackEntry) (entries : List PackEntry) :
    entryOffsets (e :: entries) = e.offsets ++ entryOffsets entries := List.flatMap_cons

theorem entries_length_le (entries : List PackEntry) :
    entries.length ≤ (entryOffsets entries).length := by
  induction entries with
  | nil => exact Nat.le_refl _
  | cons e entries ih =>
    have hone : 1 ≤ e.offsets.length := by
      cases e with
      | item offset => exact Nat.le_refl _
      | loop offset maxLoops loopSize items => exact Nat.succ_le_succ (Nat.zero_le _)
    rw [entryOffsets_cons, List.length_append, List.length_cons]
    omega

theorem traceFrom_safe (h : PackListOf list entries) (hlen : list.length < 2 ^ 30)
    (hcount : ∀ e ∈ entries, e.Counted) (hfuel : entries.length ≤ fuel)
    (hp : p.length = entries.length + extra) :
    ∃ code stores, traceFrom fuel list p extra = some (code, stores) ∧
      (∀ s ∈ stores, s.1 ∈ entryOffsets entries) ∧
      stores.length ≤ (entryOffsets entries).length := by
  induction h generalizing fuel p extra with
  | nil =>
    refine ⟨_, [], by unfold traceFrom; rfl, ?_, Nat.le_refl _⟩
    intro s hs
    cases hs
  | @item mark offset o entries hmark _ ih =>
    rw [List.length_cons] at hfuel hp
    simp only [List.length_cons] at hlen
    obtain ⟨fuel, rfl⟩ : ∃ k, fuel = k + 1 := ⟨fuel - 1, by omega⟩
    cases p with
    | nil =>
      rw [List.length_nil] at hp
      omega
    | cons value p =>
      rw [List.length_cons] at hp
      obtain ⟨code, stores, hrun, hin, hle⟩ := @ih fuel extra p (by omega)
        (fun e he => hcount e (List.mem_cons_of_mem _ he)) (by omega) (by omega)
      refine ⟨code, (offset, value) :: stores, ?_, ?_, ?_⟩
      · rw [traceFrom.eq_def]
        dsimp only
        rw [if_pos hmark, hrun]
        rfl
      · intro s hs
        rcases List.mem_cons.mp hs with rfl | hs
        · exact List.mem_cons_self
        · exact List.mem_cons_of_mem _ (hin s hs)
      · exact Nat.succ_le_succ hle
  | @loop mark offset maxLoops loopSize o items entries hmark hitems _ ih =>
    rw [List.length_cons] at hfuel hp
    simp only [List.length_cons] at hlen
    obtain ⟨fuel, rfl⟩ : ∃ k, fuel = k + 1 := ⟨fuel - 1, by omega⟩
    have hcounted : maxLoops * loopSize < 2 ^ 32 := hcount _ List.mem_cons_self
    cases p with
    | nil =>
      rw [List.length_nil] at hp
      omega
    | cons value p =>
      rw [List.length_cons] at hp
      have hfirst : ∀ s ∈ [(offset, value)],
          s.1 ∈ entryOffsets (.loop offset maxLoops loopSize items :: entries) := by
        intro s hs
        cases List.mem_singleton.mp hs
        exact List.mem_cons_self
      by_cases hvalue : maxLoops < value
      · refine ⟨-2, [(offset, value)], ?_, hfirst, Nat.succ_le_succ (Nat.zero_le _)⟩
        rw [traceFrom.eq_def]
        dsimp only
        rw [if_neg hmark, if_pos hvalue]
      by_cases hshort : extra < value * loopSize
      · have hmod : value * loopSize % 2 ^ 32 = value * loopSize :=
          Nat.mod_eq_of_lt (Nat.lt_of_le_of_lt (Nat.mul_le_mul_right _ (Nat.not_lt.mp hvalue))
            hcounted)
        refine ⟨-3, [(offset, value)], ?_, hfirst, Nat.succ_le_succ (Nat.zero_le _)⟩
        rw [traceFrom.eq_def]
        dsimp only
        rw [if_neg hmark, if_neg hvalue, hmod, if_pos hshort]
      · obtain ⟨stores, hfst, hrun⟩ := @traceFrom_loop fuel extra p mark offset maxLoops loopSize
          value _ o items hmark hitems hcounted (by omega) (Nat.not_lt.mp hvalue) rfl (by omega)
        obtain ⟨code, stores', hrest, hin, hle⟩ := @ih fuel (extra - value * loopSize)
          (p.drop (value * loopSize)) (by rw [List.length_drop]; omega)
          (fun e he => hcount e (List.mem_cons_of_mem _ he)) (by omega)
          (by rw [List.length_drop]; omega)
        refine ⟨code, (offset, value) :: (stores ++ stores'), ?_, ?_, ?_⟩
        · rw [hrun, if_neg hshort, hrest]
          rfl
        · intro s hs
          rw [entryOffsets_cons, PackEntry.offsets]
          rcases List.mem_cons.mp hs with rfl | hs
          · exact List.mem_cons_self
          refine List.mem_cons_of_mem _ (List.mem_append.mpr ?_)
          rcases List.mem_append.mp hs with hs | hs
          · have hs' : s.1 ∈ items.take (value * loopSize) := hfst ▸ List.mem_map_of_mem hs
            exact .inl (List.mem_of_mem_take hs')
          · exact .inr (hin s hs)
        · have hlength : stores.length = (items.take (value * loopSize)).length := by
            rw [← hfst, List.length_map]
          rw [List.length_take] at hlength
          rw [entryOffsets_cons, PackEntry.offsets]
          simp only [List.length_cons, List.length_append, List.cons_append]
          omega

def PackEntry.fullWords : PackEntry → List Nat
  | .item _ => [0]
  | .loop _ maxLoops _ items => maxLoops :: List.replicate items.length 0

theorem traceFrom_full (h : PackListOf list entries) (hlen : list.length < 2 ^ 30)
    (hcount : ∀ e ∈ entries, e.Counted) (hfuel : entries.length ≤ fuel)
    (hextra : extra + entries.length = (entryOffsets entries).length) :
    ∃ stores, traceFrom fuel list (entries.flatMap PackEntry.fullWords) extra = some (0, stores) ∧
      stores.map Prod.fst = entryOffsets entries := by
  induction h generalizing fuel extra with
  | nil => exact ⟨[], by unfold traceFrom; rfl, rfl⟩
  | @item mark offset o entries hmark _ ih =>
    rw [entryOffsets_cons, List.length_append, List.length_cons] at hextra
    rw [List.length_cons] at hfuel
    simp only [List.length_cons] at hlen
    simp only [PackEntry.offsets, List.length_cons, List.length_nil] at hextra
    obtain ⟨fuel, rfl⟩ : ∃ k, fuel = k + 1 := ⟨fuel - 1, by omega⟩
    obtain ⟨stores, hrun, hfst⟩ := @ih fuel extra (by omega)
      (fun e he => hcount e (List.mem_cons_of_mem _ he)) (by omega) (by omega)
    refine ⟨(offset, 0) :: stores, ?_, ?_⟩
    · rw [List.flatMap_cons, PackEntry.fullWords, List.cons_append, List.nil_append,
        traceFrom.eq_def]
      dsimp only
      rw [if_pos hmark, hrun]
      rfl
    · rw [List.map_cons, hfst]
      rfl
  | @loop mark offset maxLoops loopSize o items entries hmark hitems _ ih =>
    rw [entryOffsets_cons, List.length_append, List.length_cons] at hextra
    rw [List.length_cons] at hfuel
    simp only [List.length_cons] at hlen
    simp only [PackEntry.offsets, List.length_cons] at hextra
    obtain ⟨fuel, rfl⟩ : ∃ k, fuel = k + 1 := ⟨fuel - 1, by omega⟩
    have hcounted : maxLoops * loopSize < 2 ^ 32 := hcount _ List.mem_cons_self
    have hrest := entries_length_le entries
    obtain ⟨-, -, -, -, hlength⟩ := loop_counts hitems hcounted (by omega) (Nat.le_refl _)
    obtain ⟨stores', hrest, hfst'⟩ := @ih fuel (extra - items.length)
      (by rw [List.length_drop]; omega) (fun e he => hcount e (List.mem_cons_of_mem _ he))
      (by omega) (by omega)
    obtain ⟨stores, hfst, hrun⟩ := @traceFrom_loop fuel extra
      (List.replicate items.length 0 ++ entries.flatMap PackEntry.fullWords) mark offset maxLoops
      loopSize maxLoops items.length o items hmark hitems hcounted (by omega) (Nat.le_refl _)
      hlength (by rw [List.length_append, List.length_replicate]; omega)
    refine ⟨(offset, maxLoops) :: (stores ++ stores'), ?_, ?_⟩
    · rw [List.flatMap_cons, PackEntry.fullWords, List.cons_append, hrun, if_neg (by omega),
        List.drop_left' List.length_replicate, hrest]
      rfl
    · rw [List.map_cons, List.map_append, hfst, hfst', List.take_length]
      rfl

theorem fullWords_length (entries : List PackEntry) :
    (entries.flatMap PackEntry.fullWords).length = (entryOffsets entries).length := by
  unfold entryOffsets
  induction entries with
  | nil => rfl
  | cons e entries ih =>
    rw [List.flatMap_cons, List.flatMap_cons, List.length_append, List.length_append, ih]
    congr 1
    cases e with
    | item offset => rfl
    | loop offset maxLoops loopSize items =>
      simp only [PackEntry.fullWords, PackEntry.offsets, List.length_cons, List.length_replicate]

theorem tracePacked_full (h : PackListOf list entries) (hlen : list.length < 2 ^ 30)
    (hcount : ∀ e ∈ entries, e.Counted) :
    ∃ stores, tracePacked list entries.length (entries.flatMap PackEntry.fullWords) =
        some (0, stores) ∧ stores.map Prod.fst = entryOffsets entries := by
  have hstatic := entries_length_le entries
  unfold tracePacked
  rw [fullWords_length entries, if_neg (by omega)]
  exact traceFrom_full h hlen hcount h.length_le (by omega)

theorem exists_large_count {maxLoops loopSize : Nat} (hloop : loopSize < 2 ^ 32)
    (h : 2 ^ 32 ≤ maxLoops * loopSize) :
    ∃ value, value ≤ maxLoops ∧ 2 ^ 31 ≤ value * loopSize % 2 ^ 32 := by
  have hpos : 0 < loopSize := by
    rcases Nat.eq_zero_or_pos loopSize with rfl | hpos
    · omega
    · exact hpos
  have hdiv := Nat.div_add_mod' (2 ^ 32 - 1) loopSize
  have hmod := Nat.mod_lt (2 ^ 32 - 1) hpos
  have hone : 1 ≤ (2 ^ 32 - 1) / loopSize := Nat.div_pos (by omega) hpos
  generalize (2 ^ 32 - 1) / loopSize = value at hdiv hone
  have hmul := Nat.mul_le_mul_right loopSize hone
  refine ⟨value, ?_, ?_⟩
  · by_contra hlt
    have hle := Nat.mul_le_mul_right loopSize (Nat.le_of_lt (Nat.not_le.mp hlt))
    omega
  · rw [Nat.mod_eq_of_lt (by omega)]
    omega

theorem traceFrom_wrapped (h : PackListOf list entries) (hlen : list.length < 2 ^ 30)
    (hwords : ∀ w ∈ list, w < 2 ^ 32) (hwrap : ∃ e ∈ entries, ¬e.Counted) :
    ∃ lead, ∀ tail fuel extra, entries.length ≤ fuel → 2 ^ 32 ≤ extra →
      traceFrom fuel list (lead ++ tail) extra = none := by
  induction h with
  | nil =>
    obtain ⟨e, he, -⟩ := hwrap
    cases he
  | @item mark offset o entries hmark _ ih =>
    simp only [List.length_cons] at hlen
    have hlater : ∃ e ∈ entries, ¬e.Counted := by
      obtain ⟨e, he, hno⟩ := hwrap
      rcases List.mem_cons.mp he with rfl | he
      · exact absurd trivial hno
      · exact ⟨e, he, hno⟩
    obtain ⟨lead, hlead⟩ := ih (by omega) (fun w hw => hwords w (by simp [hw])) hlater
    refine ⟨0 :: lead, fun tail fuel extra hfuel hextra => ?_⟩
    rw [List.length_cons] at hfuel
    obtain ⟨fuel, rfl⟩ : ∃ k, fuel = k + 1 := ⟨fuel - 1, by omega⟩
    rw [List.cons_append, traceFrom.eq_def]
    dsimp only
    rw [if_pos hmark, hlead tail fuel extra (by omega) hextra]
    rfl
  | @loop mark offset maxLoops loopSize o items entries hmark hitems _ ih =>
    simp only [List.length_cons] at hlen
    by_cases hcounted : maxLoops * loopSize < 2 ^ 32
    · have hlater : ∃ e ∈ entries, ¬e.Counted := by
        obtain ⟨e, he, hno⟩ := hwrap
        rcases List.mem_cons.mp he with rfl | he
        · exact absurd hcounted hno
        · exact ⟨e, he, hno⟩
      obtain ⟨lead, hlead⟩ := ih (by rw [List.length_drop]; omega)
        (fun w hw => hwords w (by simp [List.mem_of_mem_drop hw])) hlater
      refine ⟨0 :: lead, fun tail fuel extra hfuel hextra => ?_⟩
      rw [List.length_cons] at hfuel
      obtain ⟨fuel, rfl⟩ : ∃ k, fuel = k + 1 := ⟨fuel - 1, by omega⟩
      obtain ⟨stores, -, hrun⟩ := @traceFrom_loop fuel extra (lead ++ tail) mark offset maxLoops
        loopSize 0 0 o items hmark hitems hcounted (by omega) (Nat.zero_le _) (Nat.zero_mul _).symm
        (Nat.zero_le _)
      rw [List.cons_append, hrun, if_neg (Nat.not_lt_zero _), List.drop_zero,
        hlead tail fuel (extra - 0) (by omega) hextra]
      rfl
    · obtain ⟨value, hvalue, hlarge⟩ := exists_large_count (hwords loopSize (by simp))
        (Nat.not_lt.mp hcounted)
      refine ⟨[value], fun tail fuel extra hfuel hextra => ?_⟩
      rw [List.length_cons] at hfuel
      obtain ⟨fuel, rfl⟩ : ∃ k, fuel = k + 1 := ⟨fuel - 1, by omega⟩
      have hlt := Nat.mod_lt (value * loopSize) (show 0 < 2 ^ 32 by decide)
      rw [List.cons_append, List.nil_append, traceFrom.eq_def]
      dsimp only
      rw [if_neg hmark, if_neg (by omega), if_neg (by omega), traceItems_none (by omega)]
      rfl

theorem walkSafe_iff (h : PackListOf list entries) (hlen : list.length < 2 ^ 30)
    (hwords : ∀ w ∈ list, w < 2 ^ 32) :
    WalkSafe list entries.length (entryOffsets entries).length size ↔
      (∀ e ∈ entries, e.Counted) ∧ ∀ a ∈ entryOffsets entries, a + 4 ≤ size := by
  constructor
  · intro hsafe
    have hcount : ∀ e ∈ entries, e.Counted := by
      by_contra hno
      push Not at hno
      obtain ⟨lead, hlead⟩ := traceFrom_wrapped h hlen hwords hno
      obtain ⟨code, stores, hrun, -⟩ :=
        hsafe (lead ++ List.replicate (entries.length + 2 ^ 32) 0)
      have hlength : (lead ++ List.replicate (entries.length + 2 ^ 32) 0).length =
          lead.length + entries.length + 2 ^ 32 := by
        rw [List.length_append, List.length_replicate, Nat.add_assoc]
      unfold tracePacked at hrun
      rw [hlength, if_neg (by omega), hlead _ _ _ h.length_le (by omega)] at hrun
      cases hrun
    refine ⟨hcount, fun a ha => ?_⟩
    obtain ⟨stores, hfull, hfst⟩ := tracePacked_full h hlen hcount
    obtain ⟨code, stores', hrun, hinside, -⟩ := hsafe (entries.flatMap PackEntry.fullWords)
    obtain ⟨-, rfl⟩ := Prod.mk.inj (Option.some.inj (hfull.symm.trans hrun))
    rw [← hfst] at ha
    obtain ⟨s, hs, rfl⟩ := List.mem_map.mp ha
    exact hinside s hs
  · rintro ⟨hcount, hinside⟩ words
    unfold tracePacked
    split
    · exact ⟨-1, [], rfl, by simp, Nat.zero_le _⟩
    · obtain ⟨code, stores, hrun, hin, hle⟩ := @traceFrom_safe list.length
        (words.length - entries.length) list words entries h hlen hcount h.length_le (by omega)
      exact ⟨code, stores, hrun, fun s hs => hinside _ (hin s hs), hle⟩

end Walk

end Ucesb
