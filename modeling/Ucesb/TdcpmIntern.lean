import Ucesb.TdcpmUnits

namespace Ucesb

section Intern

variable {σ α : Type} [DecidableEq α] {hashCalc : α → UInt32} {compare : σ → Nat → α → Bool}
  {put : σ → α → σ} {rep : σ → List α → Prop}

structure TdcpmTable.Interns (hashCalc : α → UInt32) (rep : σ → List α → Prop)
    (table : TdcpmTable σ) (items : List α) : Prop where
  rep : rep table.store items
  num_eq : table.num = items.length
  nodup : items.Nodup
  hashed : items = [] ∧ table.alloc = 0 ∧ table.hashTable = .init ∨
    table.hashTable.Holds (items.map hashCalc) ∧
      table.hashTable.htable.length = 2 * table.alloc ∧ items.length ≤ table.alloc

structure StoreSpec (compare : σ → Nat → α → Bool) (put : σ → α → σ) (rep : σ → List α → Prop) :
    Prop where
  compare_eq : ∀ s items k y, rep s items → items[k]? = some y →
    ∀ x, compare s k x = decide (y = x)
  put_rep : ∀ s items, rep s items → ∀ x, rep (put s x) (items ++ [x])

variable (hstore : StoreSpec compare put rep)

include hstore in
theorem TdcpmTable.Interns.find_spec {table : TdcpmTable σ} {items : List α}
    (h : table.Interns hashCalc rep items) (x : α) :
    ∃ r, table.hashTable.find (fun index => compare table.store index x) (hashCalc x) = some r ∧
      match r with
      | some index => items[index]? = some x
      | none => x ∉ items := by
  rcases h.hashed with ⟨rfl, -, hinit⟩ | ⟨hhold, -, -⟩
  · refine ⟨none, ?_, List.not_mem_nil⟩
    rw [hinit]
    rfl
  · obtain ⟨r, hr, hspec⟩ := hhold.find_spec (fun index => compare table.store index x) (hashCalc x)
    refine ⟨r, hr, ?_⟩
    cases r with
    | some index =>
      obtain ⟨hidx, hcmp⟩ := hspec
      obtain ⟨y, hy, -⟩ := List.getElem?_map .. ▸ hidx |> Option.map_eq_some_iff.mp
      dsimp only at hcmp ⊢
      rw [hstore.compare_eq _ _ _ _ h.rep hy, decide_eq_true_eq] at hcmp
      rw [hy, hcmp]
    | none =>
      intro hmem
      obtain ⟨k, hk⟩ := List.mem_iff_getElem?.mp hmem
      have hno := hspec k (by rw [List.getElem?_map, hk]; rfl)
      rw [hstore.compare_eq _ _ _ _ h.rep hk, decide_eq_false_iff_not] at hno
      exact hno rfl

omit [DecidableEq α] in
theorem TdcpmTable.Interns.grow_spec {table : TdcpmTable σ} {items : List α}
    (h : table.Interns hashCalc rep items)
    (hgrow : table.alloc ≤ table.num →
      table.hashTable.htable.length < 2 ^ 32 ∧ EnlargeOk table.hashTable.htable) :
    ∃ table', table.grow = some table' ∧ table'.store = table.store ∧ table'.num = table.num ∧
      table'.hashTable.Holds (items.map hashCalc) ∧
      table'.hashTable.htable.length = 2 * table'.alloc ∧ items.length < table'.alloc := by
  have hnum := h.num_eq
  unfold TdcpmTable.grow
  by_cases hle : table.alloc ≤ table.num
  · rw [if_pos hle]
    rcases h.hashed with ⟨rfl, halloc, hinit⟩ | ⟨hhold, hlen, hroom⟩
    · obtain ⟨ht, hre, hh, hsize⟩ := @init_realloc 6 (by omega) (by omega)
      refine ⟨{ table with alloc := 32, hashTable := ht }, ?_, rfl, rfl, hh, hsize, by simp⟩
      rw [halloc, hinit]
      dsimp only
      rw [show (if (0 : Nat) = 0 then 16 else 0) * 2 * 2 = 2 ^ 6 from rfl, hre]
      rfl
    · obtain ⟨hsmall, hok⟩ := hgrow hle
      obtain ⟨ht, hre, hh, hsize⟩ := hhold.realloc_spec hok hsmall
      have hpos : table.alloc ≠ 0 := by
        have := hhold.room
        omega
      refine ⟨{ table with alloc := table.alloc * 2, hashTable := ht }, ?_, rfl, rfl, hh, ?_, ?_⟩
      · dsimp only
        rw [if_neg hpos, show table.alloc * 2 * 2 = 2 * table.hashTable.htable.length by omega, hre]
        rfl
      · dsimp only
        omega
      · dsimp only
        omega
  · rw [if_neg hle]
    rcases h.hashed with ⟨rfl, halloc, -⟩ | ⟨hhold, hlen, hroom⟩
    · omega
    · exact ⟨table, rfl, rfl, rfl, hhold, hlen, by omega⟩

include hstore in
theorem TdcpmTable.Interns.insert_spec {table : TdcpmTable σ} {items : List α}
    (h : table.Interns hashCalc rep items) (x : α)
    (hgrow : table.alloc ≤ table.num → x ∉ items →
      table.hashTable.htable.length < 2 ^ 32 ∧ EnlargeOk table.hashTable.htable) :
    ∃ table' index more, table.insert hashCalc compare put x = some (table', index) ∧
      table'.Interns hashCalc rep (items ++ more) ∧ (items ++ more)[index]? = some x := by
  obtain ⟨r, hfind, hspec⟩ := h.find_spec hstore x
  unfold TdcpmTable.insert
  cases r with
  | some index =>
    refine ⟨table, index, [], ?_, ?_, ?_⟩
    · simp [hfind]
    · rw [List.append_nil]
      exact h
    · rw [List.append_nil]
      exact hspec
  | none =>
    obtain ⟨t1, hg, hsame, hnum, hhold, hlen, hroom⟩ := h.grow_spec fun hle => hgrow hle hspec
    have hroom2 : (items.map hashCalc).length + 1 < t1.hashTable.htable.length := by
      rw [List.length_map]
      have hpos : 0 < t1.alloc := by omega
      have := hhold.size
      obtain ⟨k, hk, -, hpow⟩ := this
      omega
    obtain ⟨ht, hins, hh, hsize⟩ := hhold.insert_spec (hashCalc x) hroom2
    rw [List.length_map] at hins
    have hnum' : t1.num = items.length := hnum.trans h.num_eq
    refine ⟨{ t1 with store := put t1.store x, num := t1.num + 1, hashTable := ht }, t1.num, [x],
      ?_, ?_, ?_⟩
    · simp [hfind, hg, hnum', hins]
    · refine ⟨?_, ?_, ?_, .inr ⟨?_, hsize.trans hlen, ?_⟩⟩
      · dsimp only
        rw [hsame]
        exact hstore.put_rep _ _ h.rep x
      · simp [hnum']
      · rw [List.nodup_append]
        refine ⟨h.nodup, List.nodup_singleton x, ?_⟩
        rintro a ha b hb rfl
        rw [List.mem_singleton] at hb
        exact hspec (hb ▸ ha)
      · rw [List.map_append]
        exact hh
      · dsimp only
        rw [List.length_append, List.length_singleton]
        omega
    · rw [hnum']
      simp

include hstore in
theorem TdcpmTable.Interns.insert_well {s : TableRun σ} {items : List α}
    (h : s.table.Interns hashCalc rep items) {x : α} (hok : enlargesWell hashCalc compare s x) :
    ∃ table' index more, s.table.insert hashCalc compare put x = some (table', index) ∧
      table'.Interns hashCalc rep (items ++ more) ∧ (items ++ more)[index]? = some x := by
  refine h.insert_spec hstore x ?_
  intro hle hx
  obtain ⟨r, hfind, hspec⟩ := h.find_spec hstore x
  cases r with
  | some index => exact absurd (List.mem_of_getElem? hspec) hx
  | none => exact hok hle hfind

/-- The run so far: every item stands in the table under the index that was returned for it. -/
structure TableRun.Gave (hashCalc : α → UInt32) (rep : σ → List α → Prop) (s : TableRun σ)
    (xs : List α) : Prop where
  length : s.indices.length = xs.length
  interns : ∃ items, s.table.Interns hashCalc rep items ∧
    ∀ (i : Nat) x, xs[i]? = some x → ∃ index, s.indices[i]? = some index ∧ items[index]? = some x

include hstore in
theorem TableRun.Gave.next {s : TableRun σ} {xs : List α} (h : s.Gave hashCalc rep xs) (x : α)
    (hok : enlargesWell hashCalc compare s x) :
    ∃ s', insertNext hashCalc compare put s x = some s' ∧ s'.Gave hashCalc rep (xs ++ [x]) := by
  obtain ⟨hlen, items, hint, hall⟩ := h
  obtain ⟨table', index, more, hins, hint', hget⟩ := hint.insert_well hstore hok
  refine ⟨⟨table', s.indices ++ [index]⟩, ?_, ?_, items ++ more, hint', ?_⟩
  · simp [insertNext, hins]
  · simp [hlen]
  · intro i y hy
    dsimp only
    rcases Nat.lt_or_ge i xs.length with hlt | hge
    · rw [List.getElem?_append_left hlt] at hy
      obtain ⟨k, hk, hik⟩ := hall i y hy
      refine ⟨k, ?_, ?_⟩
      · rw [List.getElem?_append_left (by omega)]
        exact hk
      · rw [List.getElem?_append_left (List.getElem?_eq_some_iff.mp hik).1]
        exact hik
    · rw [List.getElem?_append_right hge] at hy
      obtain ⟨hi, hyx⟩ := List.getElem?_eq_some_iff.mp hy
      rw [List.length_singleton] at hi
      obtain rfl : i = xs.length := by omega
      refine ⟨index, ?_, ?_⟩
      · rw [List.getElem?_append_right (by omega), hlen]
        simp
      · rw [hget, ← hyx]
        simp

include hstore in
theorem TableRun.Gave.run {s : TableRun σ} {xs ys : List α} (h : s.Gave hashCalc rep xs)
    (hok : StepsMeet (insertNext hashCalc compare put) (enlargesWell hashCalc compare) s ys) :
    ∃ s', runSteps (insertNext hashCalc compare put) s ys = some s' ∧
      s'.Gave hashCalc rep (xs ++ ys) := by
  induction ys generalizing s xs with
  | nil =>
    refine ⟨s, rfl, ?_⟩
    rw [List.append_nil]
    exact h
  | cons y ys ih =>
    obtain ⟨s1, hstep, h1⟩ := h.next hstore y hok.1
    obtain ⟨s2, hrun, h2⟩ := ih h1 (hok.2 s1 hstep)
    refine ⟨s2, ?_, ?_⟩
    · simpa [runSteps, hstep] using hrun
    · rw [List.append_assoc] at h2
      exact h2

omit [DecidableEq α] in
theorem TableRun.Gave.index_eq_iff {s : TableRun σ} {xs : List α} (h : s.Gave hashCalc rep xs)
    {i j : Nat} {x y : α} (hx : xs[i]? = some x) (hy : xs[j]? = some y) :
    s.indices[i]? = s.indices[j]? ↔ x = y := by
  obtain ⟨-, items, hint, hall⟩ := h
  obtain ⟨k, hk, hkx⟩ := hall i x hx
  obtain ⟨l, hl, hly⟩ := hall j y hy
  rw [hk, hl, Option.some.injEq]
  constructor
  · rintro rfl
    rw [hkx] at hly
    exact Option.some.inj hly
  · rintro rfl
    obtain ⟨hk', hkx⟩ := List.getElem?_eq_some_iff.mp hkx
    obtain ⟨hl', hly⟩ := List.getElem?_eq_some_iff.mp hly
    exact (List.Nodup.getElem_inj_iff hint.nodup).mp (hkx.trans hly.symm)

end Intern

structure StringStore.Rep (store : StringStore) (items : List CStr) : Prop where
  strings : store.strings = items.flatMap fun s => s.chars ++ [0]
  offsets : store.offsets.length = items.length
  offset : ∀ (k : Nat) y, items[k]? = some y → ∃ rest,
    store.strings.drop (store.offsets.getD k 0) = y.chars ++ 0 :: rest

theorem strncmpEq_spec {a b rest : List UInt8} (ha : 0 ∉ a) (hb : 0 ∉ b) :
    (strncmpEq b.length (a ++ 0 :: rest) b && (a ++ 0 :: rest).getD b.length 0 == 0) =
      decide (a = b) := by
  induction b generalizing a with
  | nil =>
    cases a with
    | nil => rfl
    | cons x a =>
      have hx : x ≠ 0 := fun h => ha (by simp [h])
      simp [strncmpEq, hx]
  | cons y b ih =>
    have hy : y ≠ 0 := fun h => hb (by simp [h])
    cases a with
    | nil => simp [strncmpEq, Ne.symm hy]
    | cons x a =>
      have ha' : 0 ∉ a := fun h => ha (List.mem_cons_of_mem _ h)
      have hb' : 0 ∉ b := fun h => hb (List.mem_cons_of_mem _ h)
      by_cases hxy : x = y
      · subst hxy
        have hrest := ih ha' hb'
        simp only [strncmpEq, List.length_cons, List.cons_append, List.headD_cons, ne_eq,
          not_true_eq_false, if_false, hy, List.tail_cons, List.getD_cons_succ, hrest]
        simp
      · simp [strncmpEq, hxy]

theorem takeWhile_cstr {a rest : List UInt8} (ha : 0 ∉ a) :
    (a ++ 0 :: rest).takeWhile (· ≠ 0) = a := by
  induction a with
  | nil => rfl
  | cons x a ih =>
    have hx : x ≠ 0 := fun h => ha (by simp [h])
    have hrest := ih fun h => ha (List.mem_cons_of_mem _ h)
    simp only [List.cons_append, List.takeWhile_cons, hx, ne_eq, not_false_eq_true, decide_true,
      if_true]
    rw [hrest]

theorem tdcpmStringTableGet_eq {table : TdcpmTable StringStore} {items : List CStr} {k : Nat}
    {x : CStr} (h : table.Interns tdcpmStringTableHashCalc StringStore.Rep items)
    (hx : items[k]? = some x) : tdcpmStringTableGet table k = x.chars := by
  obtain ⟨rest, hdrop⟩ := h.rep.offset k x hx
  unfold tdcpmStringTableGet
  rw [hdrop, takeWhile_cstr x.no_nul]

theorem stringStore_spec :
    StoreSpec tdcpmCompareStrLen StringStore.put StringStore.Rep := by
  constructor
  · intro store items k y hrep hy x
    obtain ⟨rest, hdrop⟩ := hrep.offset k y hy
    have hspec := @strncmpEq_spec y.chars x.chars rest y.no_nul x.no_nul
    have hiff : (y = x) ↔ y.chars = x.chars := by
      cases y
      cases x
      simp
    unfold tdcpmCompareStrLen
    dsimp only
    rw [hdrop]
    simp only [hiff]
    rw [← hspec]
    cases strncmpEq x.chars.length (y.chars ++ 0 :: rest) x.chars with
    | false => rfl
    | true =>
      by_cases hz : (y.chars ++ 0 :: rest).getD x.chars.length 0 = 0
      · simp only [Bool.not_true, Bool.false_eq_true, if_false, hz, ne_eq, not_true_eq_false,
          Bool.true_and, beq_self_eq_true]
      · simp only [Bool.not_true, Bool.false_eq_true, if_false, hz, ne_eq, not_false_eq_true,
          if_true, Bool.true_and]
        exact (beq_eq_false_iff_ne.mpr hz).symm
  · intro store items hrep x
    refine ⟨?_, ?_, ?_⟩
    · simp [StringStore.put, hrep.strings]
    · simp [StringStore.put, hrep.offsets]
    · intro k y hy
      unfold StringStore.put
      dsimp only
      rcases Nat.lt_or_ge k items.length with hlt | hge
      · rw [List.getElem?_append_left hlt] at hy
        obtain ⟨rest, hdrop⟩ := hrep.offset k y hy
        have hoff := hrep.offsets
        have hlen : store.offsets.getD k 0 ≤ store.strings.length := by
          by_contra hc
          rw [List.drop_eq_nil_of_le (by omega)] at hdrop
          simp at hdrop
        refine ⟨rest ++ x.chars ++ [0], ?_⟩
        have hget : (store.offsets ++ [store.strings.length]).getD k 0 = store.offsets.getD k 0 := by
          rw [List.getD_eq_getElem?_getD, List.getD_eq_getElem?_getD,
            List.getElem?_append_left (by omega)]
        rw [hget, List.append_assoc, List.drop_append_of_le_length hlen, hdrop]
        simp
      · rw [List.getElem?_append_right hge] at hy
        obtain ⟨hi, rfl⟩ := List.getElem?_eq_some_iff.mp hy
        rw [List.length_singleton] at hi
        have hoff := hrep.offsets
        have hget : (store.offsets ++ [store.strings.length]).getD k 0 = store.strings.length := by
          rw [List.getD_eq_getElem?_getD, List.getElem?_append_right (by omega)]
          simp [show k - store.offsets.length = 0 by omega]
        refine ⟨[], ?_⟩
        rw [hget, List.append_assoc, List.drop_left]
        simp

theorem tspecStore_spec :
    StoreSpec tdcpmCompareTspec (fun tspecs item => tspecs ++ [item])
      (fun tspecs (items : List TdcpmTspecItem) => tspecs = items) := by
  constructor
  · rintro store _ k y rfl hy x
    unfold tdcpmCompareTspec
    rw [hy]
    dsimp only
    obtain ⟨yt, yv⟩ := y
    obtain ⟨xt, xv⟩ := x
    by_cases ht : xt = yt
    · by_cases hv : xv = yv
      · simp [ht, hv]
      · simp [ht, hv, Ne.symm hv]
    · simp [ht, Ne.symm ht]
  · rintro store _ rfl x
    rfl

/-- What interning is: the run ends, equal items and only these have equal indices, and the item
is what is got back. -/
def InternsRun {σ α β : Type} (insert : TableRun σ → α → Option (TableRun σ))
    (get : TdcpmTable σ → Nat → β) (value : α → β) (empty : TdcpmTable σ) (xs : List α) : Prop :=
  ∃ s, runSteps insert ⟨empty, []⟩ xs = some s ∧ s.indices.length = xs.length ∧
    (∀ (i j : Nat) x y, xs[i]? = some x → xs[j]? = some y →
      (s.indices[i]? = s.indices[j]? ↔ x = y)) ∧
    ∀ (i : Nat) x index, xs[i]? = some x → s.indices[i]? = some index → get s.table index = value x

def insertString : TableRun StringStore → CStr → Option (TableRun StringStore) :=
  insertNext tdcpmStringTableHashCalc tdcpmCompareStrLen StringStore.put

def insertTspec : TableRun (List TdcpmTspecItem) → TdcpmTspecItem →
    Option (TableRun (List TdcpmTspecItem)) :=
  insertNext tdcpmTspecTableHashCalc tdcpmCompareTspec fun tspecs item => tspecs ++ [item]

/-- Both tables intern, in every run whose enlargements of the hash table all go well. -/
theorem tables_intern (strs : List CStr) (tspecs : List TdcpmTspecItem)
    (hstrs : StepsMeet insertString (enlargesWell tdcpmStringTableHashCalc tdcpmCompareStrLen)
      ⟨tdcpmStringTableInit, []⟩ strs)
    (htspecs : StepsMeet insertTspec (enlargesWell tdcpmTspecTableHashCalc tdcpmCompareTspec)
      ⟨tdcpmTspecTableEmpty, []⟩ tspecs) :
    InternsRun insertString tdcpmStringTableGet CStr.chars tdcpmStringTableInit strs ∧
      InternsRun insertTspec tdcpmTspecTableGet some tdcpmTspecTableEmpty tspecs := by
  constructor
  · have hstart : TableRun.Gave tdcpmStringTableHashCalc StringStore.Rep
        ⟨tdcpmStringTableInit, []⟩ [] := by
      refine ⟨rfl, [], ⟨⟨rfl, rfl, ?_⟩, rfl, List.nodup_nil, .inl ⟨rfl, rfl, rfl⟩⟩, ?_⟩
      · intro k y hy
        simp at hy
      · intro i x hx
        simp at hx
    obtain ⟨s, hrun, hgave⟩ := hstart.run stringStore_spec hstrs
    rw [List.nil_append] at hgave
    refine ⟨s, hrun, hgave.length, fun i j x y hx hy => hgave.index_eq_iff hx hy, ?_⟩
    intro i x index hx hindex
    obtain ⟨-, items, hint, hall⟩ := hgave
    obtain ⟨k, hk, hkx⟩ := hall i x hx
    rw [hindex] at hk
    cases hk
    exact tdcpmStringTableGet_eq hint hkx
  · have hstart : TableRun.Gave tdcpmTspecTableHashCalc
        (fun tspecs (items : List TdcpmTspecItem) => tspecs = items)
        ⟨tdcpmTspecTableEmpty, []⟩ [] := by
      refine ⟨rfl, [], ⟨rfl, rfl, List.nodup_nil, .inl ⟨rfl, rfl, rfl⟩⟩, ?_⟩
      intro i x hx
      simp at hx
    obtain ⟨s, hrun, hgave⟩ := hstart.run tspecStore_spec htspecs
    rw [List.nil_append] at hgave
    refine ⟨s, hrun, hgave.length, fun i j x y hx hy => hgave.index_eq_iff hx hy, ?_⟩
    intro i x index hx hindex
    obtain ⟨-, items, hint, hall⟩ := hgave
    obtain ⟨k, hk, hkx⟩ := hall i x hx
    rw [hindex] at hk
    cases hk
    unfold tdcpmTspecTableGet
    rw [hint.rep, hkx]

/-- No entry has wrapped round the end of the table. -/
def noneWraps (t : List HashEntry) : Bool :=
  (List.range t.length).all fun slot =>
    match t[slot]? with
    | some (some (hash, _)) => decide (newHome t hash ≤ slot ∨ t.length ≤ newHome t hash)
    | _ => true

theorem enlargeOk_of_noneWraps {t : List HashEntry} (h : noneWraps t = true) : EnlargeOk t := by
  intro slot hash index hget hlt hhome
  have hslot := List.all_eq_true.mp h slot
    (List.mem_range.mpr (List.getElem?_eq_some_iff.mp hget).1)
  rw [hget] at hslot
  have := of_decide_eq_true hslot
  omega

def enlargesPlain {σ α : Type} (s : TableRun σ) (_ : α) : Bool :=
  decide (s.table.num < s.table.alloc) ||
    decide (s.table.hashTable.htable.length < 2 ^ 32) && noneWraps s.table.hashTable.htable

theorem enlargesWell_of_plain {σ α : Type} {hashCalc : α → UInt32}
    {compare : σ → Nat → α → Bool} {s : TableRun σ} {x : α} (h : enlargesPlain s x = true) :
    enlargesWell hashCalc compare s x := by
  intro hfull _
  rcases Bool.or_eq_true_iff.mp h with hroom | hplain
  · exact absurd (of_decide_eq_true hroom) (Nat.not_lt.mpr hfull)
  · obtain ⟨hlen, hwraps⟩ := Bool.and_eq_true_iff.mp hplain
    exact ⟨of_decide_eq_true hlen, enlargeOk_of_noneWraps hwraps⟩

def letterStrings : List CStr :=
  (List.finRange 33).map fun i : Fin 33 => ⟨[UInt8.ofNat (65 + i.val)], by revert i; decide⟩

def timeSpecs : List TdcpmTspecItem :=
  (List.finRange 33).map fun i : Fin 33 => ⟨3, UInt64.ofNat i.val⟩

/-- Both tables are enlarged from 32 to 64 items, and an item of before is found again. -/
theorem tables_intern_demo :
    (InternsRun insertString tdcpmStringTableGet CStr.chars tdcpmStringTableInit
        (letterStrings ++ [⟨[66], by decide⟩]) ∧
      InternsRun insertTspec tdcpmTspecTableGet some tdcpmTspecTableEmpty
        (timeSpecs ++ [⟨3, 1⟩])) ∧
      (runSteps insertString ⟨tdcpmStringTableInit, []⟩ (letterStrings ++ [⟨[66], by decide⟩])).map
        (fun s => (s.table.alloc, s.indices[33]?)) = some (64, some 1) ∧
      (runSteps insertTspec ⟨tdcpmTspecTableEmpty, []⟩ (timeSpecs ++ [⟨3, 1⟩])).map
        (fun s => (s.table.alloc, s.indices[33]?)) = some (64, some 1) := by
  refine ⟨tables_intern _ _ ?_ ?_, by decide +kernel, by decide +kernel⟩
  · exact (stepsMeet_of_check (by decide +kernel)).imp fun s x => @enlargesWell_of_plain _ _ _ _ s x
  · exact (stepsMeet_of_check (by decide +kernel)).imp fun s x => @enlargesWell_of_plain _ _ _ _ s x

def lostStrings : List CStr :=
  ⟨[97, 101], by decide⟩ :: ⟨[98, 105], by decide⟩ ::
    (List.finRange 31).map fun i : Fin 31 => ⟨[UInt8.ofNat (65 + i.val)], by revert i; decide⟩

theorem string_table_loses :
    ¬ InternsRun insertString tdcpmStringTableGet CStr.chars tdcpmStringTableInit
      (lostStrings ++ [⟨[98, 105], by decide⟩]) := by
  rintro ⟨s, hrun, -, hsame, -⟩
  have hidx : (runSteps insertString ⟨tdcpmStringTableInit, []⟩
      (lostStrings ++ [⟨[98, 105], by decide⟩])).map (fun s => (s.indices[1]?, s.indices[33]?)) =
      some (some 1, some 33) := by
    decide +kernel
  rw [hrun, Option.map_some, Option.some.injEq, Prod.mk.injEq] at hidx
  have heq := (hsame 1 33 ⟨[98, 105], by decide⟩ ⟨[98, 105], by decide⟩ (by decide +kernel)
    (by decide +kernel)).mpr rfl
  rw [hidx.1, hidx.2] at heq
  cases heq

end Ucesb
