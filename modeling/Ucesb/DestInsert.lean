import Ucesb.DestContainer
import Mathlib.Order.Basic

namespace Ucesb

/-- Where a mapping ends: an `ERROR`, a failed assertion, or a pointer to no member or a call through
a pointer that is not set. -/
inductive MapError
  | outside (i n : Nat)
  | tooManyEntries (num maxEntries : Nat)
  | tooManyItems (num n : Nat)
  | toggleNotExpected
  | toggleTooLarge (toggleI toggleMax : Nat)
  | twoLevels
  | internal
  | assertion
  | undefined
deriving DecidableEq

def CellShape.cleanAll (item : List CellShape) (x : Nat → Cell) : Nat → Cell :=
  fun q => match item[q]? with
  | some c => c.clean
  | none => x q

def onInsertArray (d : DestShape) (c : Container) (i : Nat) : Container :=
  if c.valid i then c
  else { c.setItem i (cleanItem d.item (c.items i)) with valid := Function.update c.valid i true }

/-- `raw_array_multi_zero_suppress::on_insert_index`, with the place of the entry in `_items`. -/
def onInsertMulti (d : DestShape) (maxEntries : Nat) (c : Container) (i : Nat) :
    Except MapError (Container × Nat) :=
  let num := if c.valid i then c.numEntries i else 0
  let slot := i * maxEntries + num
  if maxEntries ≤ num then .error (.tooManyEntries num maxEntries)
  else
    .ok ({ c.setItem slot (cleanItem d.item (c.items slot)) with
      valid := Function.update c.valid i true
      numEntries := Function.update c.numEntries i (num + 1) }, slot)

/-- The binary search of `raw_list_zero_suppress::do_insert_index`: the item with the index, or the
place to insert it at. -/
def searchIndex (index : Nat → Nat) (i first last : Nat) : Nat ⊕ Nat :=
  if first < last then
    if index ((first + last) / 2) = i then .inl ((first + last) / 2)
    else if i < index ((first + last) / 2) then searchIndex index i first ((first + last) / 2)
    else searchIndex index i ((first + last) / 2 + 1) last
  else .inr last
termination_by last - first

/-- `memmove` of the items from `last` on. -/
def moveItems {α : Type} (x : Nat → α) (last num : Nat) : Nat → α :=
  fun k => if last < k ∧ k ≤ num then x (k - 1) else x k

def clearSetIndex (d : DestShape) (c : Container) (k i : Nat) : Container :=
  { c.setItem k (cleanItem d.item (c.items k)) with index := Function.update c.index k i }

/-- `raw_list_zero_suppress::do_insert_index`, with the place of the item in `_items`. -/
def doInsertList (d : DestShape) (c : Container) (i : Nat) : Except MapError (Container × Nat) :=
  if c.numItems = 0 ∨ c.index (c.numItems - 1) < i then
    if c.numItems < d.n then
      .ok (clearSetIndex d { c with numItems := c.numItems + 1 } c.numItems i, c.numItems)
    else .error .assertion
  else if c.index (c.numItems - 1) = i then .ok (c, c.numItems - 1)
  else
    match searchIndex c.index i 0 c.numItems with
    | .inl check => .ok (c, check)
    | .inr last =>
      if (last = c.numItems ∨ i < c.index last) ∧ (last = 0 ∨ c.index (last - 1) < i) then
        let c' := { c with
          numItems := c.numItems + 1
          index := moveItems c.index last c.numItems
          items := moveItems c.items last c.numItems }
        .ok (clearSetIndex d c' last i, last)
      else .error .assertion

/-- `raw_list_ii_zero_suppress::append_item`, with the place of the item. -/
def appendItem (n : Nat) (item : List CellShape) (l : ListII) : Except MapError (ListII × Nat) :=
  if n ≤ l.numItems then .error (.tooManyItems l.numItems n)
  else
    .ok (⟨l.numItems + 1,
      Function.update l.items l.numItems (CellShape.cleanAll item (l.items l.numItems))⟩,
      l.numItems)

/-- The used items of a list are sorted, with an index once, and the indices are inside the list. -/
structure SortedList (d : DestShape) (c : Container) : Prop where
  sorted : ∀ k l, k < l → l < c.numItems → c.index k < c.index l
  index_lt : ∀ k, k < c.numItems → c.index k < d.n

def RawEvent.Sorted (shapes : List DestShape) (e : RawEvent) : Prop :=
  ∀ k d, shapes[k]? = some d → d.kind = .list → SortedList d (e k)

def Container.Has (c : Container) (i : Nat) (x : DestItem) : Prop :=
  ∃ k < c.numItems, c.index k = i ∧ c.items k = x

/-- What the insert function of a list has to do: the item of the index is the one that was in the
list, or cleaned, and all other items are as before. -/
structure ListInserted (d : DestShape) (c : Container) (i : Nat) (c' : Container) (slot : Nat) :
    Prop where
  slot_lt : slot < c'.numItems
  index_eq : c'.index slot = i
  sorted : SortedList d c'
  old : ∀ x, c.Has i x → c'.items slot = x
  new : (¬∃ x, c.Has i x) → ∃ x, c'.items slot = cleanItem d.item x
  other : ∀ j x, j ≠ i → (c'.Has j x ↔ c.Has j x)
  valid_eq : c'.valid = c.valid
  entries_eq : c'.numEntries = c.numEntries

/-- What an insert function of each kind of container has to do for an index: the container after
it, and the place of the item that it gives. -/
inductive Inserted (d : DestShape) (c : Container) (i : Nat) : Container → Nat → Prop
  | plain (hk : d.kind = .plain) : Inserted d c i c i
  | known (hk : d.kind = .zeroSuppress) (hv : c.valid i = true) : Inserted d c i c i
  | new (hk : d.kind = .zeroSuppress) (hv : c.valid i = false) :
    Inserted d c i
      { c.setItem i (cleanItem d.item (c.items i)) with valid := Function.update c.valid i true } i
  | entry {maxEntries num : Nat} (hk : d.kind = .multi maxEntries)
    (hnum : num = if c.valid i then c.numEntries i else 0) (hlt : num < maxEntries) :
    Inserted d c i
      { c.setItem (i * maxEntries + num) (cleanItem d.item (c.items (i * maxEntries + num))) with
        valid := Function.update c.valid i true
        numEntries := Function.update c.numEntries i (num + 1) } (i * maxEntries + num)
  | listed {c' : Container} {slot : Nat} (hk : d.kind = .list) (h : ListInserted d c i c' slot) :
    Inserted d c i c' slot

section
variable {d : DestShape} {c c' : Container} {i slot : Nat}

theorem onInsertArray_inserted (hk : d.kind = .zeroSuppress) :
    Inserted d c i (onInsertArray d c i) i := by
  unfold onInsertArray
  split
  next hv => exact .known hk hv
  next hv => exact .new hk (by simpa using hv)

theorem onInsertMulti_inserted {maxEntries : Nat} (hk : d.kind = .multi maxEntries)
    (h : onInsertMulti d maxEntries c i = .ok (c', slot)) : Inserted d c i c' slot := by
  rw [onInsertMulti] at h
  generalize hnum : (if c.valid i then c.numEntries i else 0) = num at h
  by_cases hlt : maxEntries ≤ num
  · simp [hlt] at h
  · simp only [hlt, if_false, Except.ok.injEq, Prod.mk.injEq] at h
    obtain ⟨rfl, rfl⟩ := h
    exact .entry hk hnum.symm (by omega)

theorem searchIndex_spec (hs : SortedList d c) {first last : Nat} (hle : first ≤ last)
    (hlast : last ≤ c.numItems) (hbelow : ∀ k < first, c.index k < i)
    (habove : ∀ k, last ≤ k → k < c.numItems → i < c.index k) :
    (∃ k < c.numItems, c.index k = i ∧ searchIndex c.index i first last = .inl k) ∨
      ∃ k ≤ c.numItems, searchIndex c.index i first last = .inr k ∧
        (∀ l < k, c.index l < i) ∧ ∀ l, k ≤ l → l < c.numItems → i < c.index l := by
  induction first, last using searchIndex.induct c.index i with
  | case1 first last hlt heq =>
    rw [searchIndex, if_pos hlt, if_pos heq]
    exact .inl ⟨_, by omega, heq, rfl⟩
  | case2 first last hlt hne hi ih =>
    rw [searchIndex, if_pos hlt, if_neg hne, if_pos hi]
    refine ih (by omega) (by omega) hbelow fun k hk hkn => ?_
    rcases Nat.eq_or_lt_of_le hk with rfl | hk
    · exact hi
    · exact lt_trans hi (hs.sorted _ k hk hkn)
  | case3 first last hlt hne hi ih =>
    rw [searchIndex, if_pos hlt, if_neg hne, if_neg hi]
    refine ih (by omega) hlast (fun k hk => ?_) habove
    have hlow : c.index ((first + last) / 2) < i := by omega
    rcases Nat.eq_or_lt_of_le (Nat.le_of_lt_succ hk) with rfl | hk
    · exact hlow
    · exact lt_trans (hs.sorted k _ hk (by omega)) hlow
  | case4 first last hge =>
    rw [searchIndex, if_neg hge]
    have heq : first = last := by omega
    exact .inr ⟨last, hlast, rfl, heq ▸ hbelow, habove⟩

/-- The list after a new item has come in at `last`. -/
def insertListAt (d : DestShape) (c : Container) (last i : Nat) : Container :=
  clearSetIndex d { c with
    numItems := c.numItems + 1
    index := moveItems c.index last c.numItems
    items := moveItems c.items last c.numItems } last i

theorem moveItems_below {α : Type} {x : Nat → α} {last num k : Nat} (h : k ≤ last) :
    moveItems x last num k = x k :=
  if_neg (by omega)

theorem moveItems_above {α : Type} {x : Nat → α} {last num k : Nat} (h : last ≤ k) (hk : k < num) :
    moveItems x last num (k + 1) = x k :=
  if_pos (by omega)

theorem moveItems_end {α : Type} (x : Nat → α) (num : Nat) : moveItems x num num = x := by
  funext k
  exact if_neg (by omega)

theorem clearSetIndex_end :
    clearSetIndex d { c with numItems := c.numItems + 1 } c.numItems i =
      insertListAt d c c.numItems i := by
  simp only [insertListAt, moveItems_end]

theorem insertListAt_place {last k : Nat} (hne : k ≠ last) (hk : k < c.numItems + 1)
    (hlast : last ≤ c.numItems) :
    ∃ l < c.numItems, (k < last ∧ l = k ∨ last < k ∧ k = l + 1) ∧
      (insertListAt d c last i).index k = c.index l ∧
      (insertListAt d c last i).items k = c.items l := by
  simp only [insertListAt, clearSetIndex, Container.setItem, Function.update_of_ne hne]
  rcases Nat.lt_or_gt_of_ne hne with hlt | hgt
  · exact ⟨k, by omega, .inl ⟨hlt, rfl⟩, moveItems_below (by omega), moveItems_below (by omega)⟩
  · obtain ⟨l, rfl⟩ := Nat.exists_eq_add_of_lt (Nat.zero_lt_of_lt hgt)
    rw [Nat.zero_add] at hgt hk ⊢
    exact ⟨l, by omega, .inr ⟨hgt, rfl⟩, moveItems_above (by omega) (by omega),
      moveItems_above (by omega) (by omega)⟩

theorem insertListAt_new {last : Nat} :
    (insertListAt d c last i).index last = i ∧
      ∃ x, (insertListAt d c last i).items last = cleanItem d.item x := by
  simp [insertListAt, clearSetIndex, Container.setItem]

theorem insertListAt_inserted (hs : SortedList d c) (hi : i < d.n) {last : Nat}
    (hlast : last ≤ c.numItems) (hbelow : ∀ k < last, c.index k < i)
    (habove : ∀ k, last ≤ k → k < c.numItems → i < c.index k) :
    ListInserted d c i (insertListAt d c last i) last := by
  have hnum : (insertListAt d c last i).numItems = c.numItems + 1 := rfl
  have hno : ¬∃ x, c.Has i x := by
    rintro ⟨x, k, hkn, hki, -⟩
    rcases Nat.lt_or_ge k last with h | h
    · exact absurd (hbelow k h) (by omega)
    · exact absurd (habove k h hkn) (by omega)
  -- where the index of a place is, relative to the new one
  have hplace : ∀ k, k < c.numItems + 1 →
      k = last ∧ (insertListAt d c last i).index k = i ∨
        k < last ∧ (insertListAt d c last i).index k < i ∨
        last < k ∧ i < (insertListAt d c last i).index k := by
    intro k hkn
    by_cases hkl : k = last
    · subst hkl
      exact .inl ⟨rfl, insertListAt_new.1⟩
    · obtain ⟨l, hl, hor, hidx, -⟩ := insertListAt_place (d := d) (i := i) hkl hkn hlast
      rw [hidx]
      rcases hor with ⟨hlt, rfl⟩ | ⟨hgt, rfl⟩
      · exact .inr (.inl ⟨hlt, hbelow l hlt⟩)
      · exact .inr (.inr ⟨hgt, habove l (by omega) hl⟩)
  refine ⟨by omega, insertListAt_new.1, ⟨fun k l hkl hl => ?_, fun k hkn => ?_⟩,
    fun x hx => absurd ⟨x, hx⟩ hno, fun _ => insertListAt_new.2, fun j x hj => ⟨?_, ?_⟩, rfl, rfl⟩
  · rw [hnum] at hl
    have hpk := hplace k (by omega)
    have hpl := hplace l hl
    by_cases hside : (k < last ↔ l < last) ∧ k ≠ last ∧ l ≠ last
    · obtain ⟨a, ha, hora, hidxa, -⟩ :=
        insertListAt_place (d := d) (i := i) hside.2.1 (by omega) hlast
      obtain ⟨b, hb, horb, hidxb, -⟩ := insertListAt_place (d := d) (i := i) hside.2.2 hl hlast
      rw [hidxa, hidxb]
      exact hs.sorted a b (by omega) hb
    · omega
  · by_cases hkl : k = last
    · rw [hkl, insertListAt_new.1]
      exact hi
    · obtain ⟨l, hl, -, hidx, -⟩ := insertListAt_place (d := d) (i := i) hkl hkn hlast
      rw [hidx]
      exact hs.index_lt l hl
  · rintro ⟨k, hkn, hkj, hkx⟩
    have hkl : k ≠ last := by
      intro h
      rw [h] at hkj
      exact hj (hkj.symm.trans insertListAt_new.1)
    obtain ⟨l, hl, -, hidx, hitem⟩ := insertListAt_place (d := d) (i := i) hkl hkn hlast
    exact ⟨l, hl, hidx ▸ hkj, hitem ▸ hkx⟩
  · rintro ⟨l, hl, hlj, hlx⟩
    rcases Nat.lt_or_ge l last with hlt | hge
    · obtain ⟨l', -, hor, hidx, hitem⟩ :=
        insertListAt_place (d := d) (c := c) (i := i) (k := l) (by omega) (by omega) hlast
      obtain rfl : l' = l := by omega
      exact ⟨l', by omega, hidx.trans hlj, hitem.trans hlx⟩
    · obtain ⟨l', -, hor, hidx, hitem⟩ :=
        insertListAt_place (d := d) (c := c) (i := i) (k := l + 1) (by omega) (by omega) hlast
      obtain rfl : l' = l := by omega
      exact ⟨l' + 1, by omega, hidx.trans hlj, hitem.trans hlx⟩

theorem SortedList.unique (hs : SortedList d c) {k l : Nat} (hk : k < c.numItems)
    (hl : l < c.numItems) (h : c.index k = c.index l) : k = l := by
  rcases lt_trichotomy k l with hlt | heq | hgt
  · exact absurd (hs.sorted k l hlt hl) (by omega)
  · exact heq
  · exact absurd (hs.sorted l k hgt hk) (by omega)

theorem SortedList.le_index (hs : SortedList d c) {k : Nat} (hk : k < c.numItems) :
    k ≤ c.index k := by
  induction k with
  | zero => exact Nat.zero_le _
  | succ k ih =>
    have := hs.sorted k (k + 1) (by omega) hk
    have := ih (by omega)
    omega

theorem known_inserted (hs : SortedList d c) (hlt : slot < c.numItems)
    (hi : c.index slot = i) : ListInserted d c i c slot := by
  refine ⟨hlt, hi, hs, fun x hx => ?_, fun h => absurd ⟨_, slot, hlt, hi, rfl⟩ h,
    fun _ _ _ => Iff.rfl, rfl, rfl⟩
  obtain ⟨k, hkn, hki, hkx⟩ := hx
  exact hs.unique hkn hlt (hki.trans hi.symm) ▸ hkx

theorem doInsertList_spec (hs : SortedList d c) (hi : i < d.n) :
    ∃ c' slot, doInsertList d c i = .ok (c', slot) ∧ ListInserted d c i c' slot := by
  rw [doInsertList]
  split
  next hpast =>
    have hbelow : ∀ k < c.numItems, c.index k < i := by
      intro k hkn
      have hlast : c.index (c.numItems - 1) < i := hpast.resolve_left (by omega)
      rcases Nat.eq_or_lt_of_le (Nat.le_sub_one_of_lt hkn) with rfl | hlt
      · exact hlast
      · exact lt_trans (hs.sorted k _ hlt (by omega)) hlast
    have hroom : c.numItems < d.n := by
      rcases Nat.eq_zero_or_pos c.numItems with h0 | hpos
      · omega
      · have := hs.le_index (k := c.numItems - 1) (by omega)
        have := hbelow (c.numItems - 1) (by omega)
        omega
    rw [if_pos hroom, clearSetIndex_end]
    exact ⟨_, _, rfl, insertListAt_inserted hs hi le_rfl hbelow fun k h h' => by omega⟩
  next hpast =>
    split
    next hlast => exact ⟨_, _, rfl, known_inserted hs (by omega) hlast⟩
    next =>
      rcases searchIndex_spec hs (i := i) (Nat.zero_le c.numItems) le_rfl (by omega)
        (by omega) with ⟨k, hkn, hki, heq⟩ | ⟨last, hle, heq, hbelow, habove⟩
      · rw [heq]
        exact ⟨_, _, rfl, known_inserted hs hkn hki⟩
      · have hassert : (last = c.numItems ∨ i < c.index last) ∧
            (last = 0 ∨ c.index (last - 1) < i) := by
          refine ⟨?_, ?_⟩
          · exact (Nat.eq_or_lt_of_le hle).imp_right fun h => habove last le_rfl h
          · exact (Nat.eq_zero_or_pos last).imp_right fun h => hbelow (last - 1) (by omega)
        rw [heq]
        simp only [if_pos hassert]
        exact ⟨_, _, rfl, insertListAt_inserted hs hi hle hbelow habove⟩

theorem SortedList.num_le (hs : SortedList d c) : c.numItems ≤ d.n := by
  rcases Nat.eq_zero_or_pos c.numItems with h | h
  · omega
  · have := hs.le_index (k := c.numItems - 1) (by omega)
    have := hs.index_lt (c.numItems - 1) (by omega)
    omega

/-- Calls of `insert_index`, where what is done with the item that each returns is up to the
caller. -/
def insertRun (d : DestShape) (calls : List (Nat × (DestItem → DestItem))) (c : Container) :
    Except MapError Container :=
  calls.foldlM (fun c call => do
    let (c', slot) ← doInsertList d c call.1
    return c'.setItem slot (call.2 (c'.items slot))) c

theorem insertRun_sorted {calls : List (Nat × (DestItem → DestItem))} (hs : SortedList d c)
    (hcalls : ∀ call ∈ calls, call.1 < d.n) :
    ∃ c', insertRun d calls c = .ok c' ∧ SortedList d c' := by
  induction calls generalizing c with
  | nil => exact ⟨c, rfl, hs⟩
  | cons call calls ih =>
    obtain ⟨c', slot, hok, hins⟩ := doInsertList_spec hs (hcalls _ List.mem_cons_self)
    have hnext : SortedList d (c'.setItem slot (call.2 (c'.items slot))) :=
      ⟨hins.sorted.sorted, hins.sorted.index_lt⟩
    obtain ⟨c'', hrun, hs''⟩ := ih hnext fun call h => hcalls call (List.mem_cons_of_mem _ h)
    refine ⟨c'', ?_, hs''⟩
    rw [insertRun, List.foldlM_cons, hok]
    exact hrun

/-- After any calls on a cleaned list its used items are sorted, with an index once and at most as
many as there is room for, and the next call gives the item of its index. -/
theorem list_sorted_map (n : Nat) (item : List MemberShape)
    (calls : List (Nat × (DestItem → DestItem))) (hcalls : ∀ call ∈ calls, call.1 < n)
    (c : Container) (hc : c.numItems = 0) :
    ∃ c', insertRun ⟨.list, n, item⟩ calls c = .ok c' ∧ SortedList ⟨.list, n, item⟩ c' ∧
      c'.numItems ≤ n ∧
      ∀ i < n, ∃ c'' slot, doInsertList ⟨.list, n, item⟩ c' i = .ok (c'', slot) ∧
        ListInserted ⟨.list, n, item⟩ c' i c'' slot ∧ c''.numItems ≤ n ∧
        ∀ y, (∀ x, (c''.setItem slot y).Has i x ↔ x = y) ∧
          ∀ j x, j ≠ i → ((c''.setItem slot y).Has j x ↔ c'.Has j x) := by
  have hclean : SortedList ⟨.list, n, item⟩ c := ⟨fun _ _ _ h => by omega, fun _ h => by omega⟩
  obtain ⟨c', hrun, hs⟩ := insertRun_sorted hclean hcalls
  refine ⟨c', hrun, hs, hs.num_le, fun i hi => ?_⟩
  obtain ⟨c'', slot, hok, hins⟩ := doInsertList_spec hs hi
  refine ⟨c'', slot, hok, hins, hins.sorted.num_le, fun y => ⟨fun x => ⟨?_, ?_⟩, fun j x hj => ?_⟩⟩
  · rintro ⟨k, hk, hki, rfl⟩
    obtain rfl := hins.sorted.unique hk hins.slot_lt (hki.trans hins.index_eq.symm)
    exact Function.update_self ..
  · rintro rfl
    exact ⟨slot, hins.slot_lt, hins.index_eq, Function.update_self ..⟩
  · rw [← hins.other j x hj]
    have hne : ∀ k, c''.index k = j → k ≠ slot := by
      rintro k hk rfl
      exact hj (hk.symm.trans hins.index_eq)
    refine exists_congr fun k => and_congr_right fun hk => and_congr_right fun hkj => ?_
    simp only [Container.setItem, Function.update_of_ne (hne k hkj)]

end

theorem list_sorted_map_one :
    ∃ c, insertRun ⟨.list, 2, []⟩ [(1, id), (0, id)]
        ⟨fun _ => false, fun _ => 0, 0, fun _ => 0, fun _ =>
          ⟨fun _ => ⟨0, 0, fun _ => 0⟩, fun _ => ⟨0, fun _ _ => ⟨0, 0, fun _ => 0⟩⟩⟩⟩ = .ok c ∧
      SortedList ⟨.list, 2, []⟩ c := by
  obtain ⟨c, hrun, hs, -⟩ := list_sorted_map 2 [] [(1, id), (0, id)] (by simp)
    ⟨fun _ => false, fun _ => 0, 0, fun _ => 0, fun _ =>
      ⟨fun _ => ⟨0, 0, fun _ => 0⟩, fun _ => ⟨0, fun _ _ => ⟨0, 0, fun _ => 0⟩⟩⟩⟩ rfl
  exact ⟨c, hrun, hs⟩

end Ucesb
