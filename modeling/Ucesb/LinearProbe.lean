import Mathlib.Data.List.Basic
import Mathlib.Data.Nat.Find
import Mathlib.Data.Nat.Bitwise

namespace Ucesb

inductive HashSlot (α : Type) where
  | empty
  | discarded
  | used (a : α)
deriving DecidableEq, Repr

section Probe

variable {α : Type}

def HashSlot.isEmpty : HashSlot α → Bool
  | .empty => true
  | _ => false

def HashSlot.isFree : HashSlot α → Bool
  | .used _ => false
  | _ => true

/-- First entry, from `entry` on and wrapping, whose slot is accepted by `stop`. -/
def probe (t : List (HashSlot α)) (stop : HashSlot α → Bool) : Nat → Nat → Option Nat
  | 0, _ => none
  | fuel + 1, entry =>
    match t[entry]? with
    | none => none
    | some slot =>
      if stop slot then some entry
      else probe t stop fuel ((entry + 1) &&& (t.length - 1))

/-- The entry is met by a probe from `start` before any empty slot. -/
def Reach (t : List (HashSlot α)) (start entry : Nat) : Prop :=
  ∃ j, entry = (start + j) % t.length ∧
    ∀ m < j, t[(start + m) % t.length]? ≠ some .empty

def filled (t : List (HashSlot α)) : Nat := t.countP (! ·.isEmpty)

def HashSlot.item? : HashSlot α → Option α
  | .used a => some a
  | _ => none

def usedOf (t : List (HashSlot α)) : List α := t.filterMap HashSlot.item?

def Findable (t : List (HashSlot α)) (items : List (α × Nat)) : Prop :=
  ∀ x ∈ items, ∃ i, t[i]? = some (.used x.1) ∧ Reach t x.2 i

theorem mem_usedOf {t : List (HashSlot α)} {a : α} : a ∈ usedOf t ↔ HashSlot.used a ∈ t := by
  rw [usedOf, List.mem_filterMap]
  constructor
  · rintro ⟨slot, hm, ha⟩
    cases slot with
    | used b =>
      rw [HashSlot.item?, Option.some.injEq] at ha
      exact ha ▸ hm
    | empty => cases ha
    | discarded => cases ha
  · exact fun h => ⟨_, h, rfl⟩

theorem usedOf_cons (s : HashSlot α) (t : List (HashSlot α)) :
    usedOf (s :: t) = s.item?.toList ++ usedOf t := by
  cases s <;> rfl

theorem usedOf_length_le (t : List (HashSlot α)) : (usedOf t).length ≤ filled t := by
  induction t with
  | nil => exact Nat.le_refl 0
  | cons s t ih =>
    have hs : s.item?.toList.length ≤ if !s.isEmpty then 1 else 0 := by
      cases s <;> simp [HashSlot.item?, HashSlot.isEmpty]
    rw [usedOf_cons, List.length_append, filled, List.countP_cons, ← filled]
    omega

theorem usedOf_slot_unique {t : List (HashSlot α)} {a : α} (h : (usedOf t).Nodup) :
    ∀ i j : Nat, t[i]? = some (.used a) → t[j]? = some (.used a) → i = j := by
  induction t with
  | nil => simp
  | cons s t ih =>
    rw [usedOf_cons, List.nodup_append] at h
    have hhead : s = .used a → ∀ i : Nat, t[i]? ≠ some (.used a) := by
      intro hs i hi
      subst hs
      exact h.2.2 a (by simp [HashSlot.item?]) a (mem_usedOf.mpr (List.mem_of_getElem? hi)) rfl
    intro i j hi hj
    cases i with
    | zero =>
      cases j with
      | zero => rfl
      | succ j => exact absurd hj (hhead (by simpa using hi) j)
    | succ i =>
      cases j with
      | zero => exact absurd hi (hhead (by simpa using hj) i)
      | succ j => exact congrArg (· + 1) (ih h.2.1 i j hi hj)

theorem usedOf_set {t : List (HashSlot α)} {i : Nat} {old new : HashSlot α}
    (h : t[i]? = some old) :
    (new.item?.toList ++ usedOf t).Perm (old.item?.toList ++ usedOf (t.set i new)) := by
  induction t generalizing i with
  | nil => simp at h
  | cons s t ih =>
    cases i with
    | zero =>
      rw [List.getElem?_cons_zero, Option.some.injEq] at h
      subst h
      rw [List.set_cons_zero, usedOf_cons, usedOf_cons, ← List.append_assoc, ← List.append_assoc]
      exact List.perm_append_comm.append_right _
    | succ i =>
      rw [List.set_cons_succ, usedOf_cons, usedOf_cons]
      have hih := (ih h).append_left s.item?.toList
      rw [← List.append_assoc, ← List.append_assoc] at hih ⊢
      exact (List.perm_append_comm.append_right _).trans
        (hih.trans (List.perm_append_comm.append_right _))

theorem usedOf_put {t : List (HashSlot α)} {i : Nat} {s : HashSlot α} {a : α}
    (h : t[i]? = some s) (hs : s.isFree = true) :
    (usedOf (t.set i (.used a))).Perm (usedOf t ++ [a]) := by
  have hset := (@usedOf_set _ _ _ _ (.used a) h).symm
  have hold : s.item? = none := by cases s <;> first | rfl | cases hs
  rw [hold] at hset
  exact hset.trans List.perm_append_comm

theorem usedOf_discard {t : List (HashSlot α)} {i : Nat} {a : α} (h : t[i]? = some (.used a)) :
    (usedOf t).Perm (a :: usedOf (t.set i .discarded)) :=
  @usedOf_set _ _ _ _ .discarded h

theorem usedOf_replicate_empty (n : Nat) :
    usedOf (List.replicate n (.empty : HashSlot α)) = [] := by
  rw [usedOf, List.filterMap_eq_nil_iff]
  intro s hs
  rw [List.eq_of_mem_replicate hs]
  rfl

theorem filled_eq_usedOf {t : List (HashSlot α)} (h : HashSlot.discarded ∉ t) :
    filled t = (usedOf t).length := by
  induction t with
  | nil => rfl
  | cons s t ih =>
    have htail := ih fun hm => h (List.mem_cons_of_mem s hm)
    rw [usedOf_cons, List.length_append, ← htail, filled, List.countP_cons, ← filled,
      Nat.add_comm]
    cases s with
    | empty => rfl
    | used a => rfl
    | discarded => exact absurd List.mem_cons_self h

theorem discarded_notMem_set {t : List (HashSlot α)} (h : HashSlot.discarded ∉ t) (i : Nat)
    (a : α) : HashSlot.discarded ∉ t.set i (.used a) := by
  intro hm
  rcases List.mem_or_eq_of_mem_set hm with hm | he
  · exact h hm
  · cases he

theorem exists_empty {t : List (HashSlot α)} (h : filled t < t.length) :
    ∃ i : Nat, t[i]? = some .empty := by
  by_contra hc
  have hall : ∀ s ∈ t, (!s.isEmpty) = true := by
    intro s hs
    cases s with
    | empty => exact absurd (List.mem_iff_getElem?.mp hs) hc
    | discarded => rfl
    | used a => rfl
  have := List.countP_eq_length.mpr hall
  unfold filled at h
  omega

theorem probe_eq_some {t : List (HashSlot α)} {stop : HashSlot α → Bool} {k : Nat}
    (hn : t.length = 2 ^ k) {slot : HashSlot α} (hs : stop slot = true) :
    ∀ j fuel start, j < fuel → t[(start + j) % t.length]? = some slot →
      (∀ m < j, ∀ s, t[(start + m) % t.length]? = some s → stop s = false) →
      probe t stop fuel (start % t.length) = some ((start + j) % t.length) := by
  have hpos : 0 < t.length := by
    rw [hn]
    exact Nat.two_pow_pos k
  intro j
  induction j with
  | zero =>
    intro fuel start hf hj _
    obtain ⟨fuel, rfl⟩ := Nat.exists_eq_add_one_of_ne_zero (Nat.ne_of_gt hf)
    simp only [Nat.add_zero] at hj
    simp [probe, hj, hs]
  | succ j ih =>
    intro fuel start hf hj hb
    obtain ⟨fuel, rfl⟩ := Nat.exists_eq_add_one_of_ne_zero (Nat.ne_of_gt (Nat.zero_lt_of_lt hf))
    have hlt : start % t.length < t.length := Nat.mod_lt _ hpos
    have h0 : stop t[start % t.length] = false :=
      hb 0 (Nat.succ_pos j) _ (by rw [Nat.add_zero, List.getElem?_eq_getElem hlt])
    have hstep : (start % t.length + 1) &&& (t.length - 1) = (start + 1) % t.length := by
      rw [hn, Nat.and_two_pow_sub_one_eq_mod, Nat.mod_add_mod]
    have hnext := ih fuel (start + 1) (by omega) (by rw [← hj]; congr 2; omega)
      (fun m hm s hms => hb (m + 1) (by omega) s (by rw [← hms]; congr 2; omega))
    simp only [probe, List.getElem?_eq_getElem hlt, h0, hstep]
    rw [if_neg (by simp), hnext]
    congr 2
    omega

theorem probe_finds {t : List (HashSlot α)} {k : Nat} (hn : t.length = 2 ^ k)
    (hf : filled t < t.length) (stop : HashSlot α → Bool) (hs : stop .empty = true)
    (start : Nat) :
    ∃ j slot, probe t stop t.length (start &&& (t.length - 1)) = some ((start + j) % t.length) ∧
      t[(start + j) % t.length]? = some slot ∧ stop slot = true ∧
      ∀ m < j, ∀ s, t[(start + m) % t.length]? = some s → stop s = false := by
  have hpos : 0 < t.length := by omega
  obtain ⟨i, hi⟩ := exists_empty hf
  have hlt : i < t.length := (List.getElem?_eq_some_iff.mp hi).1
  have hex : ∃ j, ∃ s, t[(start + j) % t.length]? = some s ∧ stop s = true := by
    refine ⟨i + (t.length - start % t.length), .empty, ?_, hs⟩
    have hm : (start + (i + (t.length - start % t.length))) % t.length = i := by
      have hsm := Nat.mod_lt start hpos
      have hd := Nat.div_add_mod start t.length
      have : start + (i + (t.length - start % t.length)) =
          i + t.length * (start / t.length + 1) := by
        rw [Nat.mul_add, Nat.mul_one]
        omega
      rw [this, Nat.add_mul_mod_self_left, Nat.mod_eq_of_lt hlt]
    rw [hm, hi]
  classical
  let j := Nat.find hex
  obtain ⟨slot, hj, hstop⟩ := Nat.find_spec hex
  have hbefore : ∀ m < j, ∀ s, t[(start + m) % t.length]? = some s → stop s = false := by
    intro m hm s hms
    have := Nat.find_min hex hm
    by_contra hc
    exact this ⟨s, hms, by simpa using hc⟩
  have hjn : j < t.length := by
    by_contra hc
    have hlow : j - t.length < j := by omega
    have heq : (start + (j - t.length)) % t.length = (start + j) % t.length := by
      have : start + j = start + (j - t.length) + t.length := by omega
      rw [this, Nat.add_mod_right]
    exact Nat.find_min hex hlow ⟨slot, by rw [heq]; exact hj, hstop⟩
  refine ⟨j, slot, ?_, hj, hstop, hbefore⟩
  have hmask : start &&& (t.length - 1) = start % t.length := by
    rw [hn, Nat.and_two_pow_sub_one_eq_mod]
  rw [hmask]
  exact probe_eq_some hn hstop j t.length start hjn hj hbefore

/-- A free entry for an item that starts at `start`. -/
def findFree (t : List (HashSlot α)) (start : Nat) : Option Nat :=
  probe t HashSlot.isFree t.length (start &&& (t.length - 1))

/-- The entry of an item accepted by `same`, else the empty slot that ends the search. -/
def findSame (t : List (HashSlot α)) (same : α → Bool) (start : Nat) : Option Nat :=
  probe t (fun | .empty => true | .discarded => false | .used a => same a) t.length
    (start &&& (t.length - 1))

theorem reach_set {t : List (HashSlot α)} {start entry i : Nat} {s : HashSlot α}
    (h : Reach t start entry) (hs : s ≠ .empty) : Reach (t.set i s) start entry := by
  obtain ⟨j, rfl, hj⟩ := h
  refine ⟨j, by rw [List.length_set], ?_⟩
  intro m hm
  rw [List.length_set, List.getElem?_set]
  split
  next =>
    split
    next => simpa using hs
    next => simp
  next => exact hj m hm

theorem findable_set {t : List (HashSlot α)} {items items' : List (α × Nat)} {i : Nat}
    {s : HashSlot α} (h : Findable t items) (hs : s ≠ .empty)
    (hi : ∀ x ∈ items', x ∈ items ∧ t[i]? ≠ some (.used x.1)) : Findable (t.set i s) items' := by
  intro x hx
  obtain ⟨hmem, hne⟩ := hi x hx
  obtain ⟨e, he, hr⟩ := h x hmem
  refine ⟨e, ?_, reach_set hr hs⟩
  rw [List.getElem?_set, if_neg, he]
  intro hie
  exact hne (hie ▸ he)

theorem findable_put {t : List (HashSlot α)} {items : List (α × Nat)} {i start : Nat}
    {s : HashSlot α} {a : α} (h : Findable t items) (hi : t[i]? = some s)
    (hs : s.isFree = true) (hr : Reach t start i) :
    Findable (t.set i (.used a)) (items ++ [(a, start)]) := by
  have hlt : i < t.length := (List.getElem?_eq_some_iff.mp hi).1
  have hother : ∀ x ∈ items, x ∈ items ∧ t[i]? ≠ some (.used x.1) := by
    intro x hx
    refine ⟨hx, ?_⟩
    rw [hi]
    rintro ⟨⟩
    simp [HashSlot.isFree] at hs
  intro x hx
  rcases List.mem_append.mp hx with hx | hx
  · exact findable_set h (by simp) hother x hx
  · obtain rfl := List.mem_singleton.mp hx
    refine ⟨i, ?_, reach_set hr (by simp)⟩
    rw [List.getElem?_set, if_pos rfl, if_pos hlt]

theorem filled_set_le (t : List (HashSlot α)) (i : Nat) (s : HashSlot α) :
    filled (t.set i s) ≤ filled t + 1 := by
  induction t generalizing i with
  | nil => simp [filled]
  | cons a t ih =>
    cases i with
    | zero =>
      simp only [List.set_cons_zero, filled, List.countP_cons]
      split <;> split <;> omega
    | succ i =>
      have := ih i
      simp only [filled, List.set_cons_succ, List.countP_cons] at this ⊢
      omega

theorem filled_set_of_ne_empty {t : List (HashSlot α)} {i : Nat} {s s' : HashSlot α}
    (h : t[i]? = some s') (hs : s' ≠ .empty) : filled (t.set i s) ≤ filled t := by
  induction t generalizing i with
  | nil => simp at h
  | cons a t ih =>
    cases i with
    | zero =>
      simp only [List.getElem?_cons_zero, Option.some.injEq] at h
      subst h
      have ha : (!a.isEmpty) = true := by
        cases a <;> first | rfl | exact absurd rfl hs
      simp only [List.set_cons_zero, filled, List.countP_cons, ha]
      split <;> simp
    | succ i =>
      have := ih h
      simp only [filled, List.set_cons_succ, List.countP_cons] at this ⊢
      omega

theorem findFree_spec {t : List (HashSlot α)} {k : Nat} (hn : t.length = 2 ^ k)
    (hf : filled t < t.length) (start : Nat) :
    ∃ i slot, findFree t start = some i ∧ t[i]? = some slot ∧ slot.isFree = true ∧
      Reach t start i ∧
      ∀ e, Reach t start e → t[e]? = some .discarded → slot ≠ .empty := by
  obtain ⟨j, slot, hp, hj, hs, hb⟩ :=
    probe_finds hn hf HashSlot.isFree rfl start
  refine ⟨_, slot, hp, hj, hs, ⟨j, rfl, ?_⟩, ?_⟩
  · intro m hm he
    simpa [HashSlot.isFree] using hb m hm _ he
  · rintro e ⟨je, rfl, hje⟩ hd rfl
    rcases Nat.lt_trichotomy j je with hlt | rfl | hlt
    · exact hje j hlt hj
    · simp [hj] at hd
    · simpa [HashSlot.isFree] using hb je hlt _ hd

theorem findSame_spec {t : List (HashSlot α)} {k : Nat} (hn : t.length = 2 ^ k)
    (hf : filled t < t.length) (same : α → Bool) (start : Nat) :
    ∃ i, findSame t same start = some i ∧ Reach t start i ∧
      ((∃ a, t[i]? = some (.used a) ∧ same a = true) ∨
        (t[i]? = some .empty ∧
          ∀ e a, Reach t start e → t[e]? = some (.used a) → same a = false)) := by
  obtain ⟨j, slot, hp, hj, hs, hb⟩ := probe_finds hn hf
    (fun | .empty => true | .discarded => false | .used a => same a) rfl start
  have hreach : Reach t start ((start + j) % t.length) :=
    ⟨j, rfl, fun m hm he => by simpa using hb m hm _ he⟩
  refine ⟨_, hp, hreach, ?_⟩
  cases slot with
  | discarded => simp at hs
  | used a => exact .inl ⟨a, hj, hs⟩
  | empty =>
    refine .inr ⟨hj, ?_⟩
    rintro e a ⟨je, rfl, hje⟩ hu
    rcases Nat.lt_trichotomy j je with hlt | rfl | hlt
    · exact absurd hj (hje j hlt)
    · simp [hj] at hu
    · exact hb je hlt _ hu

end Probe

end Ucesb
