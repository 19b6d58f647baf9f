import Ucesb.MaskProbe

namespace Ucesb

/-- `tdcpm_hash_table_entry`: the hash and the index; `none` if `_index` is all ones. -/
abbrev HashEntry := Option (UInt32 × Nat)

/-- `htable` is empty before the first allocation. -/
structure TdcpmHashTable where
  htable : List HashEntry
  mask : Nat
deriving DecidableEq

def TdcpmHashTable.init : TdcpmHashTable := ⟨[], 0⟩

/-- The index found, if any; `none` as long as the search has not ended. -/
def TdcpmHashTable.find (table : TdcpmHashTable) (compare : Nat → Bool) (hash : UInt32) :
    Option (Option Nat) :=
  if table.mask = 0 then some none
  else do
    let slot ← probeFrom table.htable table.mask
      (fun _ entry =>
        match entry with
        | none => true
        | some (h, index) => h == hash && compare index)
      table.htable.length (hash.toNat &&& table.mask)
    return (table.htable.getD slot none).map Prod.snd

def TdcpmHashTable.insert (table : TdcpmHashTable) (hash : UInt32) (index : Nat) :
    Option TdcpmHashTable := do
  let slot ← probeFrom table.htable table.mask (fun _ entry => entry.isNone)
    table.htable.length (hash.toNat &&& table.mask)
  return { table with htable := table.htable.set slot (some (hash, index)) }

/-- The entry in slot `i` is moved to the first unused slot from its home on, unless it is met
itself before that. -/
def rehashSlot (mask : Nat) (t : List HashEntry) (i : Nat) : Option (List HashEntry × Bool) :=
  match t.getD i none with
  | none => some (t, false)
  | some (hash, index) => do
    let slot ← probeFrom t mask (fun j entry => j == i || entry.isNone) t.length
      (hash.toNat &&& mask)
    return if slot = i then (t, false)
      else ((t.set slot (some (hash, index))).set i none, true)

/-- One pass over `count` slots; whether any entry was moved. -/
def rehashPass (mask : Nat) : Nat → Nat → List HashEntry → Option (List HashEntry × Bool)
  | 0, _, t => some (t, false)
  | count + 1, i, t => do
    let r ← rehashSlot mask t i
    let rest ← rehashPass mask count (i + 1) r.1
    return (rest.1, r.2 || rest.2)

def rehashLoop (mask oldEntries : Nat) : Nat → List HashEntry → Option (List HashEntry)
  | 0, _ => none
  | fuel + 1, t => do
    let r ← rehashPass mask oldEntries 0 t
    if r.2 then rehashLoop mask oldEntries fuel r.1 else return r.1

/-- `_mask` has 32 bits, and so has `_mask + 1`. -/
def TdcpmHashTable.realloc (table : TdcpmHashTable) (entries : Nat) : Option TdcpmHashTable := do
  let oldEntries := if table.htable = [] then 0 else (table.mask + 1) % 2 ^ 32
  let mask := (entries - 1) % 2 ^ 32
  let t := table.htable.take oldEntries ++ List.replicate (entries - oldEntries) none
  let htable ← rehashLoop mask oldEntries (entries * entries + 1) t
  return ⟨htable, mask⟩

def Reached (t : List HashEntry) (hash : UInt32) (slot : Nat) : Prop :=
  ∃ j, slot = (hash.toNat + j) % t.length ∧
    ∀ m < j, t[(hash.toNat + m) % t.length]? ≠ some none

def entriesOf (t : List HashEntry) : List (UInt32 × Nat) := t.filterMap id

/-- The table holds the items of the given hashes, each under its index, where they are found. -/
structure TdcpmHashTable.Holds (table : TdcpmHashTable) (hashes : List UInt32) : Prop where
  size : ∃ k, 0 < k ∧ k ≤ 32 ∧ table.htable.length = 2 ^ k
  mask_eq : table.mask = table.htable.length - 1
  room : hashes.length < table.htable.length
  entries : (entriesOf table.htable).Perm (hashes.mapIdx fun i h => (h, i))
  reached : ∀ slot hash index, table.htable[slot]? = some (some (hash, index)) →
    Reached table.htable hash slot

theorem mem_entriesOf {t : List HashEntry} {e : UInt32 × Nat} :
    e ∈ entriesOf t ↔ ∃ i : Nat, t[i]? = some (some e) := by
  unfold entriesOf
  rw [List.mem_filterMap]
  constructor
  · rintro ⟨s, hs, rfl⟩
    exact List.mem_iff_getElem?.mp hs
  · rintro ⟨i, hi⟩
    exact ⟨_, List.mem_iff_getElem?.mpr ⟨i, hi⟩, rfl⟩

theorem exists_unused {t : List HashEntry} (h : (entriesOf t).length < t.length) :
    ∃ i : Nat, t[i]? = some none := by
  by_contra hc
  have hall : ∀ s ∈ t, (id s : HashEntry).isSome = true := by
    intro s hs
    cases s with
    | none => exact absurd (List.mem_iff_getElem?.mp hs) hc
    | some e => rfl
  have := @List.length_filterMap_eq_countP _ _ id t
  rw [List.countP_eq_length.mpr hall] at this
  unfold entriesOf at h
  omega

section Find

variable {table : TdcpmHashTable} {hashes : List UInt32}

theorem TdcpmHashTable.Holds.unused (h : table.Holds hashes) :
    ∃ i : Nat, table.htable[i]? = some none := by
  apply exists_unused
  have hlen := h.entries.length_eq
  have hroom := h.room
  rw [List.length_mapIdx] at hlen
  omega

theorem TdcpmHashTable.Holds.mem_iff (h : table.Holds hashes) {hash : UInt32} {index : Nat} :
    (∃ i : Nat, table.htable[i]? = some (some (hash, index))) ↔ hashes[index]? = some hash := by
  rw [← mem_entriesOf, h.entries.mem_iff, List.mem_mapIdx]
  constructor
  · rintro ⟨i, hi, heq⟩
    cases heq
    exact List.getElem?_eq_getElem hi
  · intro heq
    obtain ⟨hi, rfl⟩ := List.getElem?_eq_some_iff.mp heq
    exact ⟨index, hi, rfl⟩

theorem TdcpmHashTable.Holds.mask_pos (h : table.Holds hashes) : table.mask ≠ 0 := by
  obtain ⟨k, hk, -, hlen⟩ := h.size
  have hpow : 2 ^ 1 ≤ 2 ^ k := Nat.pow_le_pow_right (by omega) hk
  have := h.mask_eq
  omega

theorem TdcpmHashTable.Holds.find_spec (h : table.Holds hashes) (compare : Nat → Bool)
    (hash : UInt32) :
    ∃ r, table.find compare hash = some r ∧
      match r with
      | some index => hashes[index]? = some hash ∧ compare index = true
      | none => ∀ index, hashes[index]? = some hash → compare index = false := by
  obtain ⟨k, -, -, hlen⟩ := h.size
  obtain ⟨i, hi⟩ := h.unused
  obtain ⟨j, c, hj, hp, hc, hs, hb⟩ := @probeFrom_finds _ _ _ _
    (fun _ entry =>
      match entry with
      | none => true
      | some (h, index) => h == hash && compare index)
    hlen h.mask_eq hash.toNat i none hi rfl
  refine ⟨(table.htable.getD ((hash.toNat + j) % table.htable.length) none).map Prod.snd, ?_, ?_⟩
  · unfold TdcpmHashTable.find
    rw [if_neg h.mask_pos]
    simp only [hp, Option.bind_eq_bind, Option.bind_some]
    rfl
  · rw [List.getD_eq_getElem?_getD, hc, Option.getD_some]
    cases c with
    | some e =>
      obtain ⟨h', index⟩ := e
      simp only [Bool.and_eq_true, beq_iff_eq] at hs
      obtain ⟨rfl, hcmp⟩ := hs
      exact ⟨h.mem_iff.mp ⟨_, hc⟩, hcmp⟩
    | none =>
      intro index hidx
      obtain ⟨slot, hslot⟩ := h.mem_iff.mpr hidx
      obtain ⟨js, rfl, hjs⟩ := h.reached _ _ _ hslot
      rcases Nat.lt_trichotomy j js with hlt | rfl | hlt
      · exact absurd hc (hjs j hlt)
      · rw [hc] at hslot
        cases hslot
      · have hno := hb js hlt _ hslot
        simpa using hno

end Find

theorem entriesOf_set_some {t : List HashEntry} {slot : Nat} {e : UInt32 × Nat}
    (h : t[slot]? = some none) : (entriesOf (t.set slot (some e))).Perm (e :: entriesOf t) := by
  obtain ⟨hlt, hget⟩ := List.getElem?_eq_some_iff.mp h
  have hsplit : t = t.take slot ++ none :: t.drop (slot + 1) := by
    rw [← hget]
    simp
  rw [List.set_eq_take_append_cons_drop, if_pos hlt]
  unfold entriesOf
  conv_rhs => rw [hsplit]
  simp only [List.filterMap_append, List.filterMap_cons, id]
  exact List.perm_middle

theorem entriesOf_set_none {t : List HashEntry} {slot : Nat} {e : UInt32 × Nat}
    (h : t[slot]? = some (some e)) : (e :: entriesOf (t.set slot none)).Perm (entriesOf t) := by
  have hlt := (List.getElem?_eq_some_iff.mp h).1
  have hback : (t.set slot none).set slot (some e) = t := by
    obtain ⟨hlt', hget⟩ := List.getElem?_eq_some_iff.mp h
    rw [List.set_set, ← hget]
    exact List.set_getElem_self hlt'
  have hp := @entriesOf_set_some (t.set slot none) slot e (by rw [List.getElem?_set_self hlt])
  rw [hback] at hp
  exact hp.symm

theorem reached_set_some {t : List HashEntry} {hash : UInt32} {slot i : Nat} {e : UInt32 × Nat}
    (h : Reached t hash slot) : Reached (t.set i (some e)) hash slot := by
  obtain ⟨j, rfl, hj⟩ := h
  refine ⟨j, by rw [List.length_set], ?_⟩
  intro m hm
  rw [List.length_set, List.getElem?_set]
  split
  · split <;> simp
  · exact hj m hm

theorem TdcpmHashTable.Holds.insert_spec {table : TdcpmHashTable} {hashes : List UInt32}
    (h : table.Holds hashes) (hash : UInt32)
    (hroom : hashes.length + 1 < table.htable.length) :
    ∃ table', table.insert hash hashes.length = some table' ∧ table'.Holds (hashes ++ [hash]) ∧
      table'.htable.length = table.htable.length := by
  obtain ⟨k, hk, hk32, hlen⟩ := h.size
  obtain ⟨i, hi⟩ := h.unused
  obtain ⟨j, c, hj, hp, hc, hs, hb⟩ := @probeFrom_finds _ _ _ _
    (fun _ (entry : HashEntry) => entry.isNone) hlen h.mask_eq hash.toNat i none hi rfl
  obtain rfl : c = none := Option.isNone_iff_eq_none.mp hs
  refine ⟨{ table with
    htable := table.htable.set ((hash.toNat + j) % table.htable.length)
      (some (hash, hashes.length)) }, ?_, ?_, ?_⟩
  · unfold TdcpmHashTable.insert
    simp only [hp, Option.bind_eq_bind, Option.bind_some]
    rfl
  · refine ⟨⟨k, hk, hk32, by rw [List.length_set]; exact hlen⟩, ?_, ?_, ?_, ?_⟩
    · rw [List.length_set]
      exact h.mask_eq
    · rw [List.length_set, List.length_append, List.length_singleton]
      exact hroom
    · refine (entriesOf_set_some hc).trans ?_
      rw [List.mapIdx_append]
      simp only [List.mapIdx_cons, List.mapIdx_nil, Nat.zero_add]
      exact (List.Perm.cons _ h.entries).trans (List.perm_append_singleton _ _).symm
    · intro slot hash' index hslot
      dsimp only at hslot ⊢
      rw [List.getElem?_set] at hslot
      split at hslot
      · rename_i heq
        split at hslot
        · cases hslot
          subst heq
          apply reached_set_some
          refine ⟨j, rfl, ?_⟩
          intro m hm hnone
          have := hb m hm none hnone
          cases this
        · cases hslot
      · exact reached_set_some (h.reached slot hash' index hslot)
  · exact List.length_set ..

theorem rehashSlot_spec {t : List HashEntry} {k mask i : Nat} (hlen : t.length = 2 ^ k)
    (hmask : mask = t.length - 1) (hi : i < t.length) :
    (t[i]? = some none ∧ rehashSlot mask t i = some (t, false)) ∨
    ∃ hash index j, t[i]? = some (some (hash, index)) ∧ j < t.length ∧
      (∀ m < j, (hash.toNat + m) % t.length ≠ i ∧
        t[(hash.toNat + m) % t.length]? ≠ some none) ∧
      ((i = (hash.toNat + j) % t.length ∧ rehashSlot mask t i = some (t, false)) ∨
        ((hash.toNat + j) % t.length ≠ i ∧ t[(hash.toNat + j) % t.length]? = some none ∧
          rehashSlot mask t i = some ((t.set ((hash.toNat + j) % t.length)
            (some (hash, index))).set i none, true))) := by
  have hget : t[i]? = some (t.get ⟨i, hi⟩) := List.getElem?_eq_getElem hi
  unfold rehashSlot
  rw [List.getD_eq_getElem?_getD, hget, Option.getD_some]
  cases hc : t.get ⟨i, hi⟩ with
  | none => exact .inl ⟨rfl, rfl⟩
  | some e =>
    obtain ⟨hash, index⟩ := e
    rw [hc] at hget
    right
    obtain ⟨j, c, hj, hp, hcj, hs, hb⟩ := @probeFrom_finds _ t k mask
      (fun j entry => j == i || entry.isNone) hlen hmask hash.toNat i _ hget (by simp)
    refine ⟨hash, index, j, rfl, hj, ?_, ?_⟩
    · intro m hm
      have hlt : (hash.toNat + m) % t.length < t.length := Nat.mod_lt _ (by omega)
      have hno := hb m hm _ (List.getElem?_eq_getElem hlt)
      simp only [Bool.or_eq_false_iff, beq_eq_false_iff_ne] at hno
      refine ⟨hno.1, ?_⟩
      rw [List.getElem?_eq_getElem hlt]
      intro hnone
      rw [Option.some.inj hnone] at hno
      cases hno.2
    · simp only [hp, Option.bind_eq_bind, Option.bind_some]
      by_cases heq : (hash.toNat + j) % t.length = i
      · left
        rw [if_pos heq]
        exact ⟨heq.symm, rfl⟩
      · right
        rw [if_neg heq]
        refine ⟨heq, ?_, rfl⟩
        simp only [Bool.or_eq_true, beq_iff_eq, heq, false_or] at hs
        rw [hcj, Option.isNone_iff_eq_none.mp hs]

end Ucesb
