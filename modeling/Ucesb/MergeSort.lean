import Ucesb.MergeStore

namespace Ucesb

def joinInto (acc : InclState) (m : Nat × Queued MergeEvent × Bool) : InclState :=
  { acc with
    incl := acc.incl ++ [(m.1, m.2.1.item.data)]
    incl0 := if (match acc.incl0 with
        | none => true
        | some (_, tstamp) => decide (m.2.1.item.tstamp < tstamp))
      then some (m.2.1.item.pre, m.2.1.item.tstamp) else acc.incl0
    flags := acc.flags ||| mergeFlags m.2.1.prevWithin m.2.2 }

def mergedOf (s : Stitched MergeEvent Nat) : MergedEvent where
  header := (s.header.map MergeEvent.pre).getD []
  incl := s.members.map fun m => (m.1, m.2.data)
  flags := mergeFlags s.prevWithin s.nextWithin

/-- `toldest_next` is not beyond the time of the first item of the queue. -/
def BelowHead (t : Nat) (q : List (Queued MergeEvent)) : Prop :=
  ∀ x ∈ q.head?, t ≤ x.item.tstamp

theorem StoreRep.consume_spec {store : MergeItemStore} {x : Queued MergeEvent}
    {q : List (Queued MergeEvent)} (h : StoreRep store (x :: q)) (limit : Nat) (acc : InclState) :
    StoreRep (store.consume (chunkOf x) limit acc).1 (markNext MergeEvent.tstamp limit q) ∧
    ∃ t, (store.consume (chunkOf x) limit acc).2 = { acc with
        flags := acc.flags ||| mergeFlags false (nextInside MergeEvent.tstamp limit q)
        toldestNext := t } ∧
      t ≤ acc.toldestNext ∧ BelowHead t q := by
  have hadv := h.advance
  unfold MergeItemStore.consume
  dsimp only
  cases q with
  | nil =>
    rw [hadv.first_nil]
    refine ⟨hadv, acc.toldestNext, ?_, le_refl _, ?_⟩
    · show acc = _
      have hz : acc.flags ||| mergeFlags false false = acc.flags := Nat.or_zero _
      rw [show nextInside MergeEvent.tstamp limit [] = false from rfl, hz]
    · intro y hy
      cases hy
  | cons y q =>
    rw [hadv.first_cons]
    dsimp only
    have hmin : BelowHead (min acc.toldestNext y.item.tstamp) (y :: q) := by
      intro z hz
      cases hz
      exact Nat.min_le_right _ _
    by_cases hy : y.item.tstamp ≤ limit
    · rw [if_pos (show (chunkOf y).tstamp ≤ limit from hy)]
      have hmark : markNext MergeEvent.tstamp limit (y :: q) = { y with prevWithin := true } :: q := by
        simp only [markNext, hy, if_true]
      have hnext : nextInside MergeEvent.tstamp limit (y :: q) = true := by
        simp [nextInside, hy]
      rw [hmark, hnext]
      exact ⟨hadv.mark, _, rfl, Nat.min_le_left _ _, hmin⟩
    · rw [if_neg (show ¬ (chunkOf y).tstamp ≤ limit from hy)]
      have hmark : markNext MergeEvent.tstamp limit (y :: q) = y :: q := by
        simp only [markNext, hy, if_false]
      have hnext : nextInside MergeEvent.tstamp limit (y :: q) = false := by
        simp [nextInside, hy]
      have hz : acc.flags ||| mergeFlags false false = acc.flags := Nat.or_zero _
      rw [hmark, hnext, hz]
      exact ⟨hadv, _, rfl, Nat.min_le_left _ _, hmin⟩

theorem belowHead_markNext {t limit : Nat} {q : List (Queued MergeEvent)} (h : BelowHead t q) :
    BelowHead t (markNext MergeEvent.tstamp limit q) := by
  cases q with
  | nil => exact h
  | cons x q =>
    intro y hy
    simp only [markNext] at hy
    split at hy
    · cases hy
      exact h x rfl
    · exact h y hy

theorem StoreRep.message {store : MergeItemStore} {x : Queued MergeEvent}
    {q : List (Queued MergeEvent)} (h : StoreRep store (x :: q)) :
    ∃ rest, store.buf.drop (store.offsetFirst + mergeItemChunkSize) =
      x.item.pre ++ (x.item.data ++ rest) := by
  obtain ⟨tail, ht⟩ := h.items
  refine ⟨encodeItems q ++ tail, ?_⟩
  rw [← List.drop_drop, ht, encodeItems_cons, encodeItem]
  simp only [List.append_assoc]
  exact List.drop_left' (encodeChunk_length _)

theorem StoreRep.contribute_spec {store : MergeItemStore} {q : List (Queued MergeEvent)}
    (h : StoreRep store q) (srcid limit : Nat) (acc : InclState) :
    StoreRep (store.contribute srcid limit acc).1 (afterJoin MergeEvent.tstamp limit q) ∧
    ∃ t, (store.contribute srcid limit acc).2 =
        { (contribution MergeEvent.tstamp limit srcid q).toList.foldl joinInto acc with
          toldestNext := t } ∧
      t ≤ acc.toldestNext ∧ BelowHead t (afterJoin MergeEvent.tstamp limit q) := by
  unfold MergeItemStore.contribute
  cases q with
  | nil =>
    rw [h.first_nil]
    refine ⟨h, acc.toldestNext, rfl, le_refl _, ?_⟩
    intro y hy
    cases hy
  | cons x q =>
    rw [h.first_cons]
    dsimp only
    by_cases hx : x.item.tstamp ≤ limit
    · obtain ⟨rest, hmsg⟩ := h.message
      rw [if_neg (show ¬ (chunkOf x).tstamp > limit from Nat.not_lt.mpr hx), hmsg]
      have hpre : (x.item.pre ++ (x.item.data ++ rest)).take (chunkOf x).prelen = x.item.pre :=
        List.take_left' rfl
      have hdata : ((x.item.pre ++ (x.item.data ++ rest)).drop (chunkOf x).prelen).take
          (chunkOf x).plen = x.item.data := by
        have hd : (x.item.pre ++ (x.item.data ++ rest)).drop (chunkOf x).prelen =
            x.item.data ++ rest := List.drop_left' rfl
        rw [hd]
        exact List.take_left' rfl
      rw [hpre, hdata]
      have hafter : afterJoin MergeEvent.tstamp limit (x :: q) =
          markNext MergeEvent.tstamp limit q := by
        simp only [afterJoin, hx, if_true]
      have hcontr : contribution MergeEvent.tstamp limit srcid (x :: q) =
          some (srcid, x, nextInside MergeEvent.tstamp limit q) := by
        simp only [contribution, hx, if_true]
      rw [hafter, hcontr]
      obtain ⟨hrep, t, hacc, hle, hbelow⟩ := h.consume_spec limit { acc with
        incl := acc.incl ++ [(srcid, x.item.data)]
        incl0 := if (match acc.incl0 with
            | none => true
            | some (_, tstamp) => decide (x.item.tstamp < tstamp))
          then some (x.item.pre, x.item.tstamp) else acc.incl0
        flags := acc.flags ||| mergeFlags x.prevWithin false }
      refine ⟨hrep, t, hacc.trans ?_, hle, belowHead_markNext hbelow⟩
      dsimp only [Option.toList_some, List.foldl_cons, List.foldl_nil, joinInto]
      rw [Nat.or_assoc, mergeFlags_or, Bool.or_false, Bool.false_or]
    · rw [if_pos (show (chunkOf x).tstamp > limit from Nat.not_le.mp hx)]
      have hafter : afterJoin MergeEvent.tstamp limit (x :: q) = x :: q := by
        simp only [afterJoin, hx, if_false]
      have hcontr : contribution MergeEvent.tstamp limit srcid (x :: q) = none := by
        simp only [contribution, hx, if_false]
      rw [hafter, hcontr]
      refine ⟨h, _, rfl, Nat.min_le_left _ _, ?_⟩
      intro y hy
      cases hy
      exact Nat.min_le_right _ _

/-- The stores from source id `k` on hold the queues. -/
def ItemsRep (k : Nat) (items : ItemsStore) (qs : Nat → List (Queued MergeEvent)) : Prop :=
  ∀ j, match items.getD j none with
    | none => qs (k + j) = []
    | some store => StoreRep store (qs (k + j))

theorem itemsRep_cons {k : Nat} {store : Option MergeItemStore} {items : ItemsStore}
    {qs : Nat → List (Queued MergeEvent)} :
    ItemsRep k (store :: items) qs ↔
      (match store with
        | none => qs k = []
        | some store => StoreRep store (qs k)) ∧ ItemsRep (k + 1) items qs := by
  constructor
  · intro h
    refine ⟨h 0, ?_⟩
    intro j
    have hj := h (j + 1)
    rw [show k + 1 + j = k + (j + 1) by omega]
    exact hj
  · rintro ⟨h0, h⟩ j
    cases j with
    | zero => exact h0
    | succ j =>
      have hj := h j
      rw [show k + 1 + j = k + (j + 1) by omega] at hj
      exact hj

theorem foldl_joinInto_toldestNext (joined : List (Nat × Queued MergeEvent × Bool))
    (acc : InclState) (t : Nat) :
    joined.foldl joinInto { acc with toldestNext := t } =
      { joined.foldl joinInto acc with toldestNext := t } := by
  induction joined generalizing acc with
  | nil => rfl
  | cons m joined ih =>
    simp only [List.foldl_cons]
    exact ih (joinInto acc m)

theorem contributeAll_spec {limit k : Nat} {items : ItemsStore}
    {qs : Nat → List (Queued MergeEvent)} (h : ItemsRep k items qs) (acc : InclState) :
    (contributeAll limit k items acc).1.length = items.length ∧
    ItemsRep k (contributeAll limit k items acc).1
      (fun i => afterJoin MergeEvent.tstamp limit (qs i)) ∧
    ∃ t, (contributeAll limit k items acc).2 =
        { (joinHeads MergeEvent.tstamp (List.range' k items.length) qs limit).foldl joinInto acc with
          toldestNext := t } ∧
      t ≤ acc.toldestNext ∧
      ∀ i, BelowHead t (afterJoin MergeEvent.tstamp limit (qs (k + i))) := by
  induction items generalizing k acc with
  | nil =>
    have hnil : ∀ i, qs (k + i) = [] := fun i => h i
    refine ⟨rfl, ?_, acc.toldestNext, rfl, le_refl _, ?_⟩
    · intro j
      show afterJoin MergeEvent.tstamp limit (qs (k + j)) = []
      rw [hnil]
      rfl
    · intro i x hx
      rw [hnil] at hx
      cases hx
  | cons store items ih =>
    obtain ⟨h0, hrest⟩ := itemsRep_cons.mp h
    -- the heads that join, from this source and from the ones after it
    have hjoin : joinHeads MergeEvent.tstamp (List.range' k (items.length + 1)) qs limit =
        (contribution MergeEvent.tstamp limit k (qs k)).toList ++
          joinHeads MergeEvent.tstamp (List.range' (k + 1) items.length) qs limit := by
      rw [List.range'_succ]
      unfold joinHeads
      rw [List.filterMap_cons]
      cases contribution MergeEvent.tstamp limit k (qs k) <;> rfl
    have hshift : ∀ {t : Nat}, BelowHead t (afterJoin MergeEvent.tstamp limit (qs k)) →
        (∀ i, BelowHead t (afterJoin MergeEvent.tstamp limit (qs (k + 1 + i)))) →
        ∀ i, BelowHead t (afterJoin MergeEvent.tstamp limit (qs (k + i))) := by
      intro t ht hts i
      cases i with
      | zero => exact ht
      | succ i =>
        rw [show k + (i + 1) = k + 1 + i by omega]
        exact hts i
    rw [List.length_cons, hjoin, List.foldl_append]
    cases store with
    | none =>
      have hq : qs k = [] := h0
      obtain ⟨hlen, hrep, t, hacc, hle, hbelow⟩ := ih hrest acc
      simp only [contributeAll, List.length_cons]
      refine ⟨by rw [hlen], itemsRep_cons.mpr ⟨?_, hrep⟩, t, ?_, hle, hshift ?_ hbelow⟩
      · show afterJoin MergeEvent.tstamp limit (qs k) = []
        rw [hq]
        rfl
      · rw [hacc, hq]
        rfl
      · intro x hx
        rw [hq] at hx
        cases hx
    | some store =>
      obtain ⟨hst, t0, hacc0, hle0, hbelow0⟩ :=
        StoreRep.contribute_spec (h0 : StoreRep store (qs k)) k limit acc
      obtain ⟨hlen, hrep, t, hacc, hle, hbelow⟩ :=
        ih hrest (store.contribute k limit acc).2
      simp only [contributeAll, List.length_cons]
      refine ⟨by rw [hlen], itemsRep_cons.mpr ⟨hst, hrep⟩, t, ?_, ?_, hshift ?_ hbelow⟩
      · rw [hacc, hacc0, foldl_joinInto_toldestNext]
      · rw [hacc0] at hle
        exact le_trans hle hle0
      · intro x hx
        rw [hacc0] at hle
        exact le_trans hle (hbelow0 x hx)

theorem foldl_joinInto_incl (joined : List (Nat × Queued MergeEvent × Bool)) (acc : InclState) :
    (joined.foldl joinInto acc).incl = acc.incl ++ joined.map fun m => (m.1, m.2.1.item.data) := by
  induction joined generalizing acc with
  | nil => exact (List.append_nil _).symm
  | cons m joined ih =>
    rw [List.foldl_cons, ih, List.map_cons]
    simp only [joinInto, List.append_assoc, List.singleton_append]

theorem foldl_joinInto_flags (joined : List (Nat × Queued MergeEvent × Bool)) {acc : InclState}
    {p n : Bool} (h : acc.flags = mergeFlags p n) :
    (joined.foldl joinInto acc).flags =
      mergeFlags (p || joined.any fun m => m.2.1.prevWithin) (n || joined.any fun m => m.2.2) := by
  induction joined generalizing acc p n with
  | nil => simpa using h
  | cons m joined ih =>
    have hm : (joinInto acc m).flags = mergeFlags (p || m.2.1.prevWithin) (n || m.2.2) := by
      simp only [joinInto]
      rw [h, mergeFlags_or]
    rw [List.foldl_cons, ih hm]
    simp only [List.any_cons, Bool.or_assoc]

theorem foldl_joinInto_incl0_keep {t0 : Nat} {joined : List (Nat × Queued MergeEvent × Bool)}
    {acc : InclState} {pre : List UInt8} (hacc : acc.incl0 = some (pre, t0))
    (hle : ∀ m ∈ joined, t0 ≤ m.2.1.item.tstamp) :
    (joined.foldl joinInto acc).incl0 = some (pre, t0) := by
  induction joined generalizing acc with
  | nil => exact hacc
  | cons m joined ih =>
    have hm := hle m List.mem_cons_self
    rw [List.foldl_cons]
    apply ih
    · simp only [joinInto, hacc]
      rw [if_neg]
      rw [decide_eq_true_iff]
      omega
    · intro m' hm'
      exact hle m' (List.mem_cons_of_mem _ hm')

theorem foldl_joinInto_incl0 {t0 : Nat} {joined : List (Nat × Queued MergeEvent × Bool)}
    {acc : InclState} (hacc : ∀ p ∈ acc.incl0, t0 < p.2)
    (hle : ∀ m ∈ joined, t0 ≤ m.2.1.item.tstamp)
    (hex : ∃ m ∈ joined, m.2.1.item.tstamp = t0) :
    (joined.foldl joinInto acc).incl0.map Prod.fst =
      ((joined.find? fun m => m.2.1.item.tstamp = t0).map fun m => m.2.1.item).map
        MergeEvent.pre := by
  induction joined generalizing acc with
  | nil =>
    obtain ⟨m, hm, _⟩ := hex
    cases hm
  | cons m joined ih =>
    have hm := hle m List.mem_cons_self
    have hle' : ∀ m' ∈ joined, t0 ≤ m'.2.1.item.tstamp :=
      fun m' hm' => hle m' (List.mem_cons_of_mem _ hm')
    rw [List.foldl_cons]
    by_cases ht : m.2.1.item.tstamp = t0
    · have hnew : (joinInto acc m).incl0 = some (m.2.1.item.pre, t0) := by
        simp only [joinInto]
        rw [if_pos, ht]
        cases h0 : acc.incl0 with
        | none => rfl
        | some p =>
          have := hacc p h0
          exact decide_eq_true (by omega)
      rw [foldl_joinInto_incl0_keep hnew hle', List.find?_cons_of_pos (by simpa using ht)]
      rfl
    · rw [List.find?_cons_of_neg (by simpa using ht)]
      apply ih
      · intro p hp
        have hor : (joinInto acc m).incl0 = some (m.2.1.item.pre, m.2.1.item.tstamp) ∨
            (joinInto acc m).incl0 = acc.incl0 := ite_eq_or_eq _ _ _
        rcases hor with hnew | hkeep
        · rw [hnew] at hp
          cases hp
          show t0 < m.2.1.item.tstamp
          omega
        · rw [hkeep] at hp
          exact hacc p hp
      · exact hle'
      · obtain ⟨m', hm', he⟩ := hex
        rcases List.mem_cons.mp hm' with rfl | hm'
        · exact absurd he ht
        · exact ⟨m', hm', he⟩

theorem foldl_joinInto_merged {t0 t : Nat} {joined : List (Nat × Queued MergeEvent × Bool)}
    (hle : ∀ m ∈ joined, t0 ≤ m.2.1.item.tstamp) (hex : ∃ m ∈ joined, m.2.1.item.tstamp = t0)
    {r : InclState}
    (hr : r = { joined.foldl joinInto ⟨[], none, 0, tstampMax⟩ with toldestNext := t }) :
    (⟨(r.incl0.map Prod.fst).getD [], r.incl, r.flags⟩ : MergedEvent) =
      mergedOf (stitched MergeEvent.tstamp t0 joined) := by
  have h0 := @foldl_joinInto_incl0 t0 joined ⟨[], none, 0, tstampMax⟩ (by simp) hle hex
  have hi := foldl_joinInto_incl joined ⟨[], none, 0, tstampMax⟩
  have hf := @foldl_joinInto_flags joined ⟨[], none, 0, tstampMax⟩ false false rfl
  rw [hr]
  simp only [mergedOf, stitched, MergedEvent.mk.injEq]
  rw [h0, hi, hf]
  simp only [List.nil_append, List.map_map, Bool.false_or, true_and, and_true]
  rfl

def headOrMax (q : List (Queued MergeEvent)) : Nat := (headTs MergeEvent.tstamp q).getD tstampMax

theorem headOrMax_le (q : List (Queued MergeEvent)) : headOrMax q ≤ tstampMax := by
  cases q with
  | nil => exact le_refl _
  | cons x q =>
    have := x.item.tstamp_lt
    show x.item.tstamp ≤ tstampMax
    unfold tstampMax
    omega

theorem findOldest_foldl {k : Nat} {items : ItemsStore} {qs : Nat → List (Queued MergeEvent)}
    (h : ItemsRep k items qs) {t : Nat} (ht : t ≤ tstampMax) :
    items.foldl olderFirst t =
      ((List.range' k items.length).map fun i => headOrMax (qs i)).foldl min t := by
  induction items generalizing k t with
  | nil => rfl
  | cons store items ih =>
    obtain ⟨h0, hrest⟩ := itemsRep_cons.mp h
    rw [List.length_cons, List.range'_succ, List.map_cons, List.foldl_cons, List.foldl_cons]
    have hmin : min t (headOrMax (qs k)) ≤ tstampMax := le_trans (Nat.min_le_left _ _) ht
    rw [← ih hrest hmin]
    congr 1
    cases store with
    | none =>
      have hq : qs k = [] := h0
      rw [hq]
      exact (Nat.min_eq_left ht).symm
    | some store =>
      have hst : StoreRep store (qs k) := h0
      cases hq : qs k with
      | nil =>
        rw [hq] at hst
        simp only [olderFirst, Option.bind_some, hst.first_nil]
        exact (Nat.min_eq_left ht).symm
      | cons x q =>
        rw [hq] at hst
        simp only [olderFirst, Option.bind_some, hst.first_cons]
        show (if x.item.tstamp < t then x.item.tstamp else t) = min t x.item.tstamp
        rw [Nat.min_def]
        split <;> split <;> omega

theorem foldl_min_le (l : List Nat) (t : Nat) : l.foldl min t ≤ t ∧ ∀ x ∈ l, l.foldl min t ≤ x := by
  induction l generalizing t with
  | nil =>
    refine ⟨le_refl _, ?_⟩
    intro x hx
    cases hx
  | cons y l ih =>
    obtain ⟨h1, h2⟩ := ih (min t y)
    refine ⟨le_trans h1 (Nat.min_le_left _ _), ?_⟩
    intro x hx
    rcases List.mem_cons.mp hx with rfl | hx
    · exact le_trans h1 (Nat.min_le_right _ _)
    · exact h2 x hx

theorem foldl_min_mem (l : List Nat) (t : Nat) : l.foldl min t = t ∨ l.foldl min t ∈ l := by
  induction l generalizing t with
  | nil => exact .inl rfl
  | cons y l ih =>
    rw [List.foldl_cons]
    rcases ih (min t y) with h | h
    · rcases Nat.le_total t y with hty | hty
      · rw [h, Nat.min_eq_left hty]
        exact .inl rfl
      · rw [h, Nat.min_eq_right hty]
        exact .inr List.mem_cons_self
    · exact .inr (List.mem_cons_of_mem _ h)

theorem findOldest_eq {items : ItemsStore} {qs : Nat → List (Queued MergeEvent)}
    (h : ItemsRep 0 items qs) :
    findOldest items = (oldestHead MergeEvent.tstamp (List.range items.length) qs).getD tstampMax := by
  unfold findOldest
  rw [findOldest_foldl h (le_refl _), ← List.range_eq_range']
  generalize hl : (List.range items.length).map (fun i => headOrMax (qs i)) = l
  obtain ⟨hmax, hall⟩ := foldl_min_le l tstampMax
  cases hold : oldestHead MergeEvent.tstamp (List.range items.length) qs with
  | none =>
    rcases foldl_min_mem l tstampMax with he | he
    · exact he
    · rw [← hl] at he
      obtain ⟨i, hi, he'⟩ := List.mem_map.mp he
      rw [hl] at he'
      rw [← he', oldestHead_none hold hi]
      rfl
  | some t0 =>
    obtain ⟨i, hi, x, q, hq, hx⟩ := oldestHead_mem hold
    have hle : l.foldl min tstampMax ≤ t0 := by
      apply hall
      rw [← hl]
      refine List.mem_map.mpr ⟨i, hi, ?_⟩
      rw [hq, ← hx]
      rfl
    apply le_antisymm hle
    show t0 ≤ l.foldl min tstampMax
    have ht0 : t0 ≤ tstampMax := by
      have := headOrMax_le (qs i)
      rw [hq] at this
      rw [← hx]
      exact this
    rcases foldl_min_mem l tstampMax with he | he
    · rw [he]
      exact ht0
    · rw [← hl] at he
      obtain ⟨j, hj, he'⟩ := List.mem_map.mp he
      rw [hl] at he'
      rw [← he']
      cases hqj : qs j with
      | nil => exact ht0
      | cons y p => exact oldestHead_le hold hj hqj

section SortUntil

variable {window tUntil : Nat} {items : ItemsStore} {qs : Nat → List (Queued MergeEvent)}

theorem extMergeSortUntil_none (h : ItemsRep 0 items qs) (hu : tUntil ≤ tstampMax)
    (hold : ∀ t0 ∈ oldestHead MergeEvent.tstamp (List.range items.length) qs, tUntil ≤ t0) :
    extMergeSortUntil window items tUntil = none := by
  have hge : tUntil ≤ findOldest items := by
    rw [findOldest_eq h]
    cases ho : oldestHead MergeEvent.tstamp (List.range items.length) qs with
    | none => exact hu
    | some t0 => exact hold t0 ho
  unfold extMergeSortUntil
  exact if_pos hge

theorem extMergeSortUntil_some (h : ItemsRep 0 items qs) {t0 : Nat}
    (hold : oldestHead MergeEvent.tstamp (List.range items.length) qs = some t0)
    (hlt : t0 < tUntil) (hw : t0 + window ≤ tstampMax) :
    ∃ items' toldestNext, extMergeSortUntil window items tUntil =
        some (mergedOf (stitched MergeEvent.tstamp t0
          (joinHeads MergeEvent.tstamp (List.range items.length) qs (t0 + window))),
          items', toldestNext) ∧
      items'.length = items.length ∧
      ItemsRep 0 items' (fun i => afterJoin MergeEvent.tstamp (t0 + window) (qs i)) ∧
      ∀ i, BelowHead toldestNext (afterJoin MergeEvent.tstamp (t0 + window) (qs i)) := by
  have hold' : findOldest items = t0 := by
    rw [findOldest_eq h, hold]
    rfl
  have hend : (t0 + window) % 2 ^ 64 = t0 + window := by
    unfold tstampMax at hw
    exact Nat.mod_eq_of_lt (by omega)
  obtain ⟨hlen, hrep, t, hacc, -, hbelow⟩ :=
    @contributeAll_spec (t0 + window) 0 items qs h ⟨[], none, 0, tstampMax⟩
  rw [← List.range_eq_range'] at hacc
  have hjoined : ∀ m ∈ joinHeads MergeEvent.tstamp (List.range items.length) qs (t0 + window),
      t0 ≤ m.2.1.item.tstamp := by
    intro m hm
    obtain ⟨i, hi, hc⟩ := List.mem_filterMap.mp hm
    cases hq : qs i with
    | nil =>
      rw [hq] at hc
      cases hc
    | cons x q =>
      rw [hq, contribution] at hc
      split at hc
      · cases hc
        exact oldestHead_le hold hi hq
      · cases hc
  have hmem : ∃ m ∈ joinHeads MergeEvent.tstamp (List.range items.length) qs (t0 + window),
      m.2.1.item.tstamp = t0 := by
    obtain ⟨i, hi, x, q, hq, hx⟩ := oldestHead_mem hold
    refine ⟨(i, x, nextInside MergeEvent.tstamp (t0 + window) q), ?_, hx⟩
    refine List.mem_filterMap.mpr ⟨i, hi, ?_⟩
    rw [hq, contribution, if_pos (by omega)]
  refine ⟨_, t, ?_, hlen, hrep, ?_⟩
  · unfold extMergeSortUntil
    dsimp only
    rw [hold', if_neg (by omega), hend, foldl_joinInto_merged hjoined hmem hacc, hacc]
  · intro i
    have hi := hbelow i
    rw [Nat.zero_add] at hi
    exact hi

end SortUntil

def Timely (window : Nat) (qs : Nat → List (Queued MergeEvent)) : Prop :=
  ∀ i, ∀ x ∈ qs i, x.item.tstamp + window ≤ tstampMax

theorem timely_afterJoin {window limit : Nat} {qs : Nat → List (Queued MergeEvent)}
    (h : Timely window qs) : Timely window fun i => afterJoin MergeEvent.tstamp limit (qs i) := by
  intro i x hx
  obtain ⟨y, hy, he⟩ := mem_afterJoin hx
  rw [← he]
  exact h i y hy

theorem oldestHead_of_belowHead {window : Nat} (hw : 0 < window) {ids : List Nat}
    {qs : Nat → List (Queued MergeEvent)} (ht : Timely window qs)
    (h : ∀ i, BelowHead tstampMax (qs i)) : oldestHead MergeEvent.tstamp ids qs = none := by
  cases hold : oldestHead MergeEvent.tstamp ids qs with
  | none => rfl
  | some t0 =>
    obtain ⟨i, _, x, q, hq, _⟩ := oldestHead_mem hold
    have h1 := h i x (by rw [hq]; rfl)
    have h2 := ht i x (by rw [hq]; exact List.mem_cons_self)
    omega

section SortLoops

variable {window tUntil : Nat}

theorem sortBefore_spec (hw : 0 < window) (hu : tUntil ≤ tstampMax) {fuel : Nat}
    {items : ItemsStore} {qs : Nat → List (Queued MergeEvent)} (h : ItemsRep 0 items qs)
    (ht : Timely window qs) (hf : itemCount (List.range items.length) qs < fuel) :
    ∃ items', sortBefore window tUntil fuel items =
        some ((stitchBelow MergeEvent.tstamp window (List.range items.length) tUntil fuel qs).1.map
          mergedOf, items') ∧
      items'.length = items.length ∧
      ItemsRep 0 items'
        (stitchBelow MergeEvent.tstamp window (List.range items.length) tUntil fuel qs).2 := by
  induction fuel generalizing items qs with
  | zero => exact absurd hf (Nat.not_lt_zero _)
  | succ fuel ih =>
    unfold sortBefore stitchBelow
    cases hold : oldestHead MergeEvent.tstamp (List.range items.length) qs with
    | none =>
      rw [extMergeSortUntil_none h hu (by simp [hold])]
      exact ⟨items, rfl, rfl, h⟩
    | some t0 =>
      by_cases hlt : t0 < tUntil
      · obtain ⟨i, _, x, q, hq, hx⟩ := oldestHead_mem hold
        have hwin : t0 + window ≤ tstampMax := by
          rw [← hx]
          exact ht i x (by rw [hq]; exact List.mem_cons_self)
        obtain ⟨items', tn, he, hlen, hrep, hbelow⟩ := extMergeSortUntil_some h hold hlt hwin
        have hcount := itemCount_afterJoin window hold
        obtain ⟨items2, he2, hlen2, hrep2⟩ :=
          ih hrep (timely_afterJoin ht) (by rw [hlen]; omega)
        rw [hlen] at he2 hlen2 hrep2
        rw [he]
        simp only [hlt, if_true]
        by_cases htn : tn = tstampMax
        · -- nothing is left, and another round would have found that out
          have hnone := @oldestHead_of_belowHead window hw (List.range items.length) _
            (@timely_afterJoin window (t0 + window) qs ht) (fun i => by rw [← htn]; exact hbelow i)
          have hdone : ∀ k, stitchBelow MergeEvent.tstamp window (List.range items.length) tUntil k
              (fun i => afterJoin MergeEvent.tstamp (t0 + window) (qs i)) =
              ([], fun i => afterJoin MergeEvent.tstamp (t0 + window) (qs i)) := by
            intro k
            cases k with
            | zero => rfl
            | succ k =>
              unfold stitchBelow
              rw [hnone]
          rw [if_pos htn, hdone]
          exact ⟨items', rfl, hlen, hrep⟩
        · rw [if_neg htn, he2]
          exact ⟨items2, rfl, hlen2, hrep2⟩
      · rw [extMergeSortUntil_none h hu (by rw [hold]; rintro _ ⟨⟩; omega)]
        simp only [hlt, if_false]
        exact ⟨items, rfl, rfl, h⟩

theorem extMergeSortAllUntil_spec (hu : tUntil ≤ tstampMax) {fuel : Nat}
    {items : ItemsStore} {qs : Nat → List (Queued MergeEvent)} (h : ItemsRep 0 items qs)
    (ht : Timely window qs) (hf : itemCount (List.range items.length) qs < fuel) :
    extMergeSortAllUntil window tUntil fuel items =
      some ((stitchBelow MergeEvent.tstamp window (List.range items.length) tUntil fuel qs).1.map
        mergedOf) := by
  induction fuel generalizing items qs with
  | zero => exact absurd hf (Nat.not_lt_zero _)
  | succ fuel ih =>
    unfold extMergeSortAllUntil stitchBelow
    cases hold : oldestHead MergeEvent.tstamp (List.range items.length) qs with
    | none =>
      rw [extMergeSortUntil_none h hu (by simp [hold])]
      rfl
    | some t0 =>
      by_cases hlt : t0 < tUntil
      · obtain ⟨i, _, x, q, hq, hx⟩ := oldestHead_mem hold
        have hwin : t0 + window ≤ tstampMax := by
          rw [← hx]
          exact ht i x (by rw [hq]; exact List.mem_cons_self)
        obtain ⟨items', tn, he, hlen, hrep, -⟩ := extMergeSortUntil_some h hold hlt hwin
        have hcount := itemCount_afterJoin window hold
        have he2 := ih hrep (timely_afterJoin ht) (by rw [hlen]; omega)
        rw [hlen] at he2
        rw [he]
        simp only [hlt, if_true]
        rw [he2]
        rfl
      · rw [extMergeSortUntil_none h hu (by rw [hold]; rintro _ ⟨⟩; omega)]
        simp only [hlt, if_false]
        rfl

end SortLoops

theorem itemCount_le_pendingBytes {k : Nat} {items : ItemsStore}
    {qs : Nat → List (Queued MergeEvent)} (h : ItemsRep k items qs) :
    itemCount (List.range' k items.length) qs ≤ pendingBytes items := by
  induction items generalizing k with
  | nil => exact le_refl _
  | cons store items ih =>
    obtain ⟨h0, hrest⟩ := itemsRep_cons.mp h
    have htail := ih hrest
    have hhead : (qs k).length ≤ (store.map fun s => s.used - s.offsetFirst).getD 0 := by
      cases store with
      | none =>
        have hq : qs k = [] := h0
        rw [hq]
        exact le_refl _
      | some store =>
        have hu := StoreRep.used_eq (h0 : StoreRep store (qs k))
        have hl := length_le_encodeItems (qs k)
        show (qs k).length ≤ store.used - store.offsetFirst
        omega
    unfold itemCount pendingBytes at *
    rw [List.length_cons, List.range'_succ, List.map_cons, List.map_cons, List.sum_cons,
      List.sum_cons]
    exact Nat.add_le_add hhead htail

end Ucesb
