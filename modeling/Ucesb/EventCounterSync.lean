import Mathlib.Data.List.Induction
import Mathlib.Data.List.Nodup
import Mathlib.Data.Nat.Bits
import Mathlib.Logic.Function.Basic
import Mathlib.Tactic.Common
import Mathlib.Tactic.Ring

namespace Ucesb

structure CounterEvent (n : Nat) where
  items : List (Fin n × BitVec 32)
  reference : BitVec 32
  once : (items.map Prod.fst).Nodup

structure CounterSync (n : Nat) where
  offset : Fin n → BitVec 32
  valid : Fin n → Bool

def wrongOffset : BitVec 32 := 0xe474adbc#32

def counterMask (bits : Nat) : BitVec 32 := if bits = 32 then 0xffffffff#32 else (1#32 <<< bits) - 1#32

section Check

variable {n : Nat}

def CounterSync.reset : CounterSync n := ⟨fun _ => wrongOffset, fun _ => false⟩

def checkCounter (mask reference : BitVec 32) (s : CounterSync n) (item : Fin n × BitVec 32) :
    CounterSync n × Bool :=
  let diff := item.2 - reference
  if (diff ^^^ s.offset item.1) &&& mask = 0#32 then (s, false)
  else
    (⟨Function.update s.offset item.1 (diff &&& mask), Function.update s.valid item.1 true⟩,
      s.valid item.1)

def checkCounters (mask reference : BitVec 32) :
    CounterSync n → List (Fin n × BitVec 32) → CounterSync n × List (Fin n)
  | s, [] => (s, [])
  | s, item :: items =>
    let r := checkCounter mask reference s item
    let rest := checkCounters mask reference r.1 items
    (rest.1, if r.2 then item.1 :: rest.2 else rest.2)

def checkSync (bits bitsRef : Nat) (s : CounterSync n) (e : CounterEvent n) :
    CounterSync n × List (Fin n) :=
  checkCounters (counterMask bits &&& counterMask bitsRef) e.reference s e.items

def syncedBy (bits bitsRef : Nat) (events : List (CounterEvent n)) : CounterSync n :=
  events.foldl (fun s e => (checkSync bits bitsRef s e).1) .reset

end Check

section Masks

theorem counterMask_toNat {bits : Nat} (h : bits ≤ 32) : (counterMask bits).toNat = 2 ^ bits - 1 := by
  unfold counterMask
  split
  · next heq =>
    rw [heq]
    rfl
  · next hne =>
    have hlt : 2 ^ bits < 2 ^ 32 := Nat.pow_lt_pow_right (by decide) (by omega)
    have hpos : 0 < 2 ^ bits := Nat.two_pow_pos bits
    have hone : (1#32 <<< bits).toNat = 2 ^ bits := by
      rw [BitVec.toNat_shiftLeft, BitVec.toNat_ofNat, Nat.shiftLeft_eq]
      change 1 * 2 ^ bits % 2 ^ 32 = 2 ^ bits
      rw [Nat.one_mul, Nat.mod_eq_of_lt hlt]
    rw [BitVec.toNat_sub_of_le, hone]
    · rfl
    · rw [BitVec.le_def, hone]
      exact hpos

theorem and_mask_toNat (x : BitVec 32) {bits : Nat} (h : bits ≤ 32) :
    (x &&& counterMask bits).toNat = x.toNat % 2 ^ bits := by
  rw [BitVec.toNat_and, counterMask_toNat h, Nat.and_two_pow_sub_one_eq_mod]

theorem and_masks_toNat (x : BitVec 32) {bits bitsRef : Nat} (h : bits ≤ 32) (hr : bitsRef ≤ 32) :
    (x &&& (counterMask bits &&& counterMask bitsRef)).toNat = x.toNat % 2 ^ min bits bitsRef := by
  rw [← BitVec.and_assoc, and_mask_toNat _ hr, and_mask_toNat _ h]
  rcases Nat.le_total bits bitsRef with hle | hle
  · rw [Nat.min_eq_left hle]
    exact Nat.mod_eq_of_lt (Nat.lt_of_lt_of_le (Nat.mod_lt _ (Nat.two_pow_pos _))
      (Nat.pow_le_pow_right Nat.two_pos hle))
  · rw [Nat.min_eq_right hle, Nat.mod_mod_of_dvd _ (Nat.pow_dvd_pow 2 hle)]

theorem and_xor_distrib (x y m : BitVec 32) : (x ^^^ y) &&& m = (x &&& m) ^^^ (y &&& m) := by
  ext i
  simp only [BitVec.getElem_and, BitVec.getElem_xor, Bool.and_xor_distrib_right]

theorem masked_eq_iff (x y : BitVec 32) {bits bitsRef : Nat} (h : bits ≤ 32) (hr : bitsRef ≤ 32) :
    (x ^^^ y) &&& (counterMask bits &&& counterMask bitsRef) = 0#32 ↔
      x.toNat % 2 ^ min bits bitsRef = y.toNat % 2 ^ min bits bitsRef := by
  rw [← and_masks_toNat x h hr, ← and_masks_toNat y h hr, and_xor_distrib]
  exact BitVec.xor_eq_zero_iff.trans BitVec.toNat_inj.symm

end Masks

section Modules

variable {n bits bitsRef : Nat} {i : Fin n}

def CounterEvent.diff (bits bitsRef : Nat) (e : CounterEvent n) (i : Fin n) : Option Nat :=
  (e.items.find? (·.1 = i)).map fun item =>
    (item.2 - e.reference).toNat % 2 ^ min bits bitsRef

def lastDiff (bits bitsRef : Nat) (events : List (CounterEvent n)) (i : Fin n) : Option Nat :=
  events.reverse.findSome? (·.diff bits bitsRef i)

def wrongDiff (bits bitsRef : Nat) : Nat := wrongOffset.toNat % 2 ^ min bits bitsRef

/-- In every event there is a warning for exactly the modules that were seen before with another
difference. -/
def MismatchesReported (bits bitsRef : Nat) (events : List (CounterEvent n)) : Prop :=
  ∀ before e after, events = before ++ e :: after → ∀ i,
    i ∈ (checkSync bits bitsRef (syncedBy bits bitsRef before) e).2 ↔
      ∃ d, e.diff bits bitsRef i = some d ∧ ∃ l, lastDiff bits bitsRef before i = some l ∧ l ≠ d

/-- The first difference of a module is the one that the state starts with, and there is another. -/
def PatternHides (bits bitsRef : Nat) (events : List (CounterEvent n)) (i : Fin n) : Prop :=
  events.findSome? (·.diff bits bitsRef i) = some (wrongDiff bits bitsRef) ∧
    ∃ e ∈ events, ∃ d, e.diff bits bitsRef i = some d ∧ d ≠ wrongDiff bits bitsRef

theorem checkCounters_absent {mask reference : BitVec 32} {items : List (Fin n × BitVec 32)}
    (s : CounterSync n) (h : i ∉ items.map Prod.fst) :
    (checkCounters mask reference s items).1.offset i = s.offset i ∧
      (checkCounters mask reference s items).1.valid i = s.valid i ∧
      i ∉ (checkCounters mask reference s items).2 := by
  induction items generalizing s with
  | nil => exact ⟨rfl, rfl, List.not_mem_nil⟩
  | cons item items ih =>
    rw [List.map_cons, List.mem_cons, not_or] at h
    obtain ⟨hoff, hvalid, hnone⟩ := ih (checkCounter mask reference s item).1 h.2
    refine ⟨hoff.trans ?_, hvalid.trans ?_, ?_⟩
    · unfold checkCounter
      dsimp only
      split
      · rfl
      · exact Function.update_of_ne h.1 _ _
    · unfold checkCounter
      dsimp only
      split
      · rfl
      · exact Function.update_of_ne h.1 _ _
    · change i ∉ (if (checkCounter mask reference s item).2 then item.1 :: _ else _)
      split
      · rw [List.mem_cons, not_or]
        exact ⟨h.1, hnone⟩
      · exact hnone

/-- What comes of the state of a module with a difference, and if there is a warning. -/
def ModuleChecked (mask diff offset : BitVec 32) (valid : Bool) (offset' : BitVec 32)
    (valid' : Bool) (warned : Prop) : Prop :=
  if (diff ^^^ offset) &&& mask = 0#32 then offset' = offset ∧ valid' = valid ∧ ¬warned
  else offset' = diff &&& mask ∧ valid' = true ∧ (warned ↔ valid = true)

theorem checkCounters_present {mask reference counter : BitVec 32}
    {items : List (Fin n × BitVec 32)} (s : CounterSync n)
    (honce : (items.map Prod.fst).Nodup) (h : items.find? (·.1 = i) = some (i, counter)) :
    ModuleChecked mask (counter - reference) (s.offset i) (s.valid i)
      ((checkCounters mask reference s items).1.offset i)
      ((checkCounters mask reference s items).1.valid i)
      (i ∈ (checkCounters mask reference s items).2) := by
  induction items generalizing s with
  | nil => cases h
  | cons item items ih =>
    rw [List.map_cons, List.nodup_cons] at honce
    rw [List.find?_cons] at h
    split at h
    · cases h
      obtain ⟨hoff, hvalid, hnone⟩ :=
        @checkCounters_absent _ _ mask reference _
          (checkCounter mask reference s (i, counter)).1 honce.1
      simp only [checkCounters]
      rw [hoff, hvalid]
      unfold ModuleChecked checkCounter
      dsimp only
      split
      · next hsame =>
        simp only [checkCounter, hsame, ↓reduceIte] at hnone
        exact ⟨rfl, rfl, hnone⟩
      · next hdiffers =>
        simp only [checkCounter, hdiffers, ↓reduceIte] at hnone
        refine ⟨Function.update_self _ _ _, Function.update_self _ _ _, ?_⟩
        split
        · next hwarn => exact iff_of_true List.mem_cons_self hwarn
        · next hquiet => exact iff_of_false hnone hquiet
    · next hne =>
      have hne : i ≠ item.1 := by
        rintro rfl
        simp at hne
      have hrest := ih (checkCounter mask reference s item).1 honce.2 h
      have hsame : (checkCounter mask reference s item).1.offset i = s.offset i ∧
          (checkCounter mask reference s item).1.valid i = s.valid i := by
        unfold checkCounter
        dsimp only
        split
        · exact ⟨rfl, rfl⟩
        · exact ⟨Function.update_of_ne hne _ _, Function.update_of_ne hne _ _⟩
      rw [hsame.1, hsame.2] at hrest
      have hmem : i ∈ (checkCounters mask reference s (item :: items)).2 ↔
          i ∈ (checkCounters mask reference (checkCounter mask reference s item).1 items).2 := by
        simp only [checkCounters]
        split
        · rw [List.mem_cons, or_iff_right hne]
        · exact Iff.rfl
      unfold ModuleChecked at hrest ⊢
      rw [hmem]
      exact hrest

end Modules

section Runs

variable {n bits bitsRef : Nat} {i : Fin n}

theorem diff_none {e : CounterEvent n} (h : e.diff bits bitsRef i = none) :
    i ∉ e.items.map Prod.fst := by
  rw [CounterEvent.diff, Option.map_eq_none_iff, List.find?_eq_none] at h
  intro hmem
  obtain ⟨item, hitem, rfl⟩ := List.mem_map.mp hmem
  exact h item hitem (by simp)

theorem diff_some {e : CounterEvent n} {d : Nat} (h : e.diff bits bitsRef i = some d) :
    ∃ counter, e.items.find? (·.1 = i) = some (i, counter) ∧
      (counter - e.reference).toNat % 2 ^ min bits bitsRef = d := by
  obtain ⟨⟨j, counter⟩, hfind, hd⟩ := Option.map_eq_some_iff.mp h
  have hj : j = i := by simpa using List.find?_some hfind
  subst hj
  exact ⟨counter, hfind, hd⟩

theorem lastDiff_append (before : List (CounterEvent n)) (e : CounterEvent n) :
    lastDiff bits bitsRef (before ++ [e]) i =
      (e.diff bits bitsRef i).or (lastDiff bits bitsRef before i) := by
  rw [lastDiff, List.reverse_append, List.reverse_singleton, List.singleton_append,
    List.findSome?_cons, lastDiff]
  cases e.diff bits bitsRef i with
  | none => rfl
  | some d => rfl

/-- What is known of a module after some events: the last difference, and that it is valid once it
was seen with a difference that the state does not start with. -/
structure ModuleTracked (bits bitsRef : Nat) (before : List (CounterEvent n)) (s : CounterSync n)
    (i : Fin n) : Prop where
  offset : (s.offset i).toNat % 2 ^ min bits bitsRef =
    (lastDiff bits bitsRef before i).getD (wrongDiff bits bitsRef)
  valid : s.valid i = false ↔ ∀ e ∈ before, ∀ d, e.diff bits bitsRef i = some d →
    d = wrongDiff bits bitsRef

theorem syncedBy_append (before : List (CounterEvent n)) (e : CounterEvent n) :
    syncedBy bits bitsRef (before ++ [e]) =
      (checkSync bits bitsRef (syncedBy bits bitsRef before) e).1 := by
  rw [syncedBy, List.foldl_append]
  rfl

theorem ModuleTracked.step {before : List (CounterEvent n)} {s : CounterSync n}
    (hb : bits ≤ 32) (hr : bitsRef ≤ 32) (h : ModuleTracked bits bitsRef before s i)
    (e : CounterEvent n) :
    ModuleTracked bits bitsRef (before ++ [e]) (checkSync bits bitsRef s e).1 i := by
  have hall : (∀ a ∈ before ++ [e], ∀ d, a.diff bits bitsRef i = some d →
      d = wrongDiff bits bitsRef) ↔ (∀ a ∈ before, ∀ d, a.diff bits bitsRef i = some d →
        d = wrongDiff bits bitsRef) ∧
      ∀ d, e.diff bits bitsRef i = some d → d = wrongDiff bits bitsRef := by
    simp only [List.forall_mem_append, List.forall_mem_singleton]
  cases hdiff : e.diff bits bitsRef i with
  | none =>
    obtain ⟨hoff, hvalid, -⟩ := @checkCounters_absent _ _
      (counterMask bits &&& counterMask bitsRef) e.reference _ s (diff_none hdiff)
    refine ⟨?_, ?_⟩
    · rw [lastDiff_append, hdiff, Option.none_or]
      exact (congrArg (fun v => BitVec.toNat v % _) hoff).trans h.offset
    · rw [hall, hdiff, checkSync, hvalid, h.valid]
      exact ⟨fun h => ⟨h, nofun⟩, And.left⟩
  | some d =>
    obtain ⟨counter, hfind, rfl⟩ := diff_some hdiff
    have hchecked := @checkCounters_present _ _ (counterMask bits &&& counterMask bitsRef)
      e.reference _ _ s e.once hfind
    unfold ModuleChecked at hchecked
    change ModuleTracked bits bitsRef _ (checkCounters _ _ s e.items).1 i
    split at hchecked
    · next hsame =>
      rw [masked_eq_iff _ _ hb hr] at hsame
      refine ⟨?_, ?_⟩
      · rw [lastDiff_append, hdiff, Option.some_or, Option.getD_some, hchecked.1, hsame]
      · rw [hchecked.2.1, h.valid, hall, hdiff]
        refine ⟨fun hbefore => ⟨hbefore, ?_⟩, And.left⟩
        rintro _ ⟨⟩
        -- All differences so far are the same as the one that the state starts with.
        rw [hsame, h.offset]
        cases hlast : lastDiff bits bitsRef before i with
        | none => rfl
        | some l =>
          obtain ⟨a, ha, hl⟩ := List.exists_of_findSome?_eq_some hlast
          exact hbefore a (List.mem_reverse.mp ha) l hl
    · next hdiffers =>
      rw [masked_eq_iff _ _ hb hr, h.offset] at hdiffers
      refine ⟨?_, ?_⟩
      · rw [lastDiff_append, hdiff, Option.some_or, Option.getD_some, hchecked.1,
          and_masks_toNat _ hb hr, Nat.mod_mod]
      · rw [hchecked.2.1, hall, hdiff]
        refine iff_of_false nofun ?_
        rintro ⟨hbefore, hhere⟩
        apply hdiffers
        rw [hhere _ rfl]
        cases hlast : lastDiff bits bitsRef before i with
        | none => rfl
        | some l =>
          obtain ⟨a, ha, hl⟩ := List.exists_of_findSome?_eq_some hlast
          exact (hbefore a (List.mem_reverse.mp ha) l hl).symm

theorem module_tracked (hb : bits ≤ 32) (hr : bitsRef ≤ 32) (events : List (CounterEvent n))
    (i : Fin n) : ModuleTracked bits bitsRef events (syncedBy bits bitsRef events) i := by
  induction events using List.reverseRecOn with
  | nil => exact ⟨rfl, iff_of_true rfl nofun⟩
  | append_singleton before e ih =>
    rw [syncedBy_append]
    exact ih.step hb hr e

theorem warned_iff (hb : bits ≤ 32) (hr : bitsRef ≤ 32) (before : List (CounterEvent n))
    (e : CounterEvent n) (i : Fin n) :
    i ∈ (checkSync bits bitsRef (syncedBy bits bitsRef before) e).2 ↔
      ∃ d, e.diff bits bitsRef i = some d ∧
        (lastDiff bits bitsRef before i).getD (wrongDiff bits bitsRef) ≠ d ∧
        (syncedBy bits bitsRef before).valid i = true := by
  have htracked := module_tracked hb hr before i
  cases hdiff : e.diff bits bitsRef i with
  | none =>
    obtain ⟨-, -, hnone⟩ := @checkCounters_absent _ _
      (counterMask bits &&& counterMask bitsRef) e.reference _
      (syncedBy bits bitsRef before) (diff_none hdiff)
    exact iff_of_false hnone nofun
  | some d =>
    obtain ⟨counter, hfind, rfl⟩ := diff_some hdiff
    have hchecked := @checkCounters_present _ _ (counterMask bits &&& counterMask bitsRef)
      e.reference _ _ (syncedBy bits bitsRef before) e.once hfind
    unfold ModuleChecked at hchecked
    split at hchecked
    · next hsame =>
      rw [masked_eq_iff _ _ hb hr, htracked.offset] at hsame
      refine iff_of_false hchecked.2.2 ?_
      rintro ⟨_, ⟨⟩, hne, -⟩
      exact hne hsame.symm
    · next hdiffers =>
      rw [masked_eq_iff _ _ hb hr, htracked.offset] at hdiffers
      refine hchecked.2.2.trans ⟨fun hvalid => ⟨_, rfl, Ne.symm hdiffers, hvalid⟩, ?_⟩
      rintro ⟨_, -, -, hvalid⟩
      exact hvalid

theorem tracked_last (hb : bits ≤ 32) (hr : bitsRef ≤ 32) {before : List (CounterEvent n)}
    (h : (syncedBy bits bitsRef before).valid i = true) :
    ∃ l, lastDiff bits bitsRef before i = some l := by
  cases hlast : lastDiff bits bitsRef before i with
  | some l => exact ⟨l, rfl⟩
  | none =>
    rw [lastDiff, List.findSome?_eq_none_iff] at hlast
    have hfresh := (module_tracked hb hr before i).valid.mpr fun e he d hd => by
      rw [hlast e (List.mem_reverse.mpr he)] at hd
      cases hd
    rw [hfresh] at h
    cases h

end Runs

section Exact

variable {n bits bitsRef : Nat}

theorem exists_first {α : Type} {p : α → Prop} {l : List α} (h : ∃ a ∈ l, p a) :
    ∃ before a after, l = before ++ a :: after ∧ p a ∧ ∀ b ∈ before, ¬p b := by
  induction l with
  | nil =>
    obtain ⟨a, ha, -⟩ := h
    cases ha
  | cons a l ih =>
    by_cases hp : p a
    · exact ⟨[], a, l, rfl, hp, nofun⟩
    · obtain ⟨b, hb, hpb⟩ := h
      rcases List.mem_cons.mp hb with rfl | hb
      · exact absurd hpb hp
      · obtain ⟨before, c, after, rfl, hc, hnone⟩ := ih ⟨b, hb, hpb⟩
        refine ⟨a :: before, c, after, rfl, hc, ?_⟩
        intro x hx
        rcases List.mem_cons.mp hx with rfl | hx
        · exact hp
        · exact hnone x hx

/-- The check reports mismatches as it should if and only if no module starts with the difference
that stands for none, and changes it. -/
theorem mismatches_reported_iff (hb : bits ≤ 32) (hr : bitsRef ≤ 32)
    (events : List (CounterEvent n)) :
    MismatchesReported bits bitsRef events ↔ ∀ i, ¬PatternHides bits bitsRef events i := by
  constructor
  · rintro h i ⟨hfirst, hother⟩
    obtain ⟨before, e, after, rfl, ⟨d, hd, hne⟩, hnone⟩ := exists_first hother
    have hbefore : ∀ a ∈ before, ∀ d, a.diff bits bitsRef i = some d →
        d = wrongDiff bits bitsRef := by
      intro a ha d hd
      by_contra hd'
      exact hnone a ha ⟨d, hd, hd'⟩
    have hfresh := (module_tracked hb hr before i).valid.mpr hbefore
    have hquiet : i ∉ (checkSync bits bitsRef (syncedBy bits bitsRef before) e).2 := by
      rw [warned_iff hb hr, hfresh]
      rintro ⟨_, -, -, hvalid⟩
      cases hvalid
    refine hquiet ((h before e after rfl i).mpr ⟨d, hd, ?_⟩)
    rw [List.findSome?_append, List.findSome?_cons, hd] at hfirst
    cases hlast : lastDiff bits bitsRef before i with
    | none =>
      have hseen : before.findSome? (·.diff bits bitsRef i) = none := by
        rw [lastDiff, List.findSome?_eq_none_iff] at hlast
        rw [List.findSome?_eq_none_iff]
        exact fun a ha => hlast a (List.mem_reverse.mpr ha)
      rw [hseen, Option.none_or] at hfirst
      exact absurd (Option.some.inj hfirst) hne
    | some l =>
      obtain ⟨a, ha, hl⟩ := List.exists_of_findSome?_eq_some hlast
      refine ⟨l, rfl, ?_⟩
      rw [hbefore a (List.mem_reverse.mp ha) l hl]
      exact Ne.symm hne
  · rintro h before e after rfl i
    rw [warned_iff hb hr]
    constructor
    · rintro ⟨d, hd, hne, hvalid⟩
      obtain ⟨l, hl⟩ := tracked_last hb hr hvalid
      rw [hl, Option.getD_some] at hne
      exact ⟨d, hd, l, hl, hne⟩
    · rintro ⟨d, hd, l, hl, hne⟩
      refine ⟨d, hd, by rwa [hl], ?_⟩
      by_contra hfresh
      have hbefore := (module_tracked hb hr before i).valid.mp (Bool.eq_false_iff.mpr hfresh)
      obtain ⟨a, ha, hal⟩ := List.exists_of_findSome?_eq_some hl
      have hlwrong := hbefore a (List.mem_reverse.mp ha) l hal
      refine h i ⟨?_, e, by simp, d, hd, fun hdw => hne (hlwrong.trans hdw.symm)⟩
      rw [List.findSome?_append]
      cases hseen : before.findSome? (·.diff bits bitsRef i) with
      | none =>
        rw [List.findSome?_eq_none_iff] at hseen
        rw [hseen a (List.mem_reverse.mp ha)] at hal
        cases hal
      | some f =>
        obtain ⟨b, hbm, hf⟩ := List.exists_of_findSome?_eq_some hseen
        rw [hbefore b hbm f hf, Option.some_or]

def counterEvent (counter : BitVec 32) : CounterEvent 1 := ⟨[(0, counter)], 0#32, List.nodup_singleton _⟩

theorem mismatches_reported_demo :
    MismatchesReported 16 32 [counterEvent 7#32, counterEvent 8#32] := by
  refine (mismatches_reported_iff (by decide) (by decide) _).mpr ?_
  rintro i ⟨hfirst, -⟩
  rw [Subsingleton.elim i 0] at hfirst
  revert hfirst
  decide

theorem mismatch_hidden :
    ¬MismatchesReported 16 32 [counterEvent 0xadbc#32, counterEvent 0xadbd#32] := by
  intro h
  have hwarn := (h [counterEvent 0xadbc#32] (counterEvent 0xadbd#32) [] rfl 0).mpr
    ⟨0xadbd, by decide, 0xadbc, by decide, by decide⟩
  revert hwarn
  decide

end Exact

end Ucesb
