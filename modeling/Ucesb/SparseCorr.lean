import Mathlib.Data.Finset.Card
import Mathlib.Data.Finset.Range
import Mathlib.Logic.Function.Basic
import Mathlib.Tactic.Common
import Mathlib.Tactic.Ring

namespace Ucesb

structure PCorr where
  ptr : List (BitVec 32)
  alloc : Nat
  ptrOffset : Nat → Int

/-- The conversion to `short`. -/
def toShort (v : Nat) : Int := ((v + 2 ^ 15) % 2 ^ 16 : Nat) - 2 ^ 15

section Code

variable (buckets chunk : Nat)

def PCorr.clear : PCorr := ⟨[], 0, fun _ => -1⟩

def PCorr.allocBucket (p : PCorr) (bucket : Nat) : PCorr where
  ptr := p.ptr ++ List.replicate chunk 0#32
  ptrOffset := Function.update p.ptrOffset bucket (toShort p.alloc)
  alloc := p.alloc + 1

def PCorr.haveBucket (p : PCorr) (bucket : Nat) : Option PCorr :=
  if bucket < buckets then
    some (if p.ptrOffset bucket = -1 then p.allocBucket chunk bucket else p)
  else none

def PCorr.place (p : PCorr) (bucket offset : Nat) : Option Nat :=
  if 0 ≤ p.ptrOffset bucket then some ((p.ptrOffset bucket).toNat * chunk + offset) else none

def incr (ptr : List (BitVec 32)) (k : Nat) : Option (List (BitVec 32)) :=
  ptr[k]?.map fun v => ptr.set k (v + 1)

def PCorr.add (p : PCorr) (start : Nat) : Option PCorr := do
  let bucket := start / chunk
  let p ← p.haveBucket buckets chunk bucket
  let k ← p.place chunk bucket (start - bucket * chunk)
  let ptr ← incr p.ptr k
  some { p with ptr := ptr }

def addRun (stop : Nat) : Nat → Nat → Nat → List (BitVec 32) → Option (List (BitVec 32) × Nat)
  | 0, start, _, ptr => some (ptr, start)
  | left + 1, start, k, ptr =>
    if start < stop then (incr ptr k).bind (addRun stop left (start + 1) (k + 1))
    else some (ptr, start)

def PCorr.addLoop (stop : Nat) : Nat → Nat → PCorr → Option PCorr
  | 0, start, p => if start < stop then none else some p
  | fuel + 1, start, p =>
    if start < stop then do
      let bucket := start / chunk
      let offset := start - bucket * chunk
      let p ← p.haveBucket buckets chunk bucket
      let k ← p.place chunk bucket offset
      let r ← addRun stop (chunk - offset) start k p.ptr
      PCorr.addLoop stop fuel r.2 { p with ptr := r.1 }
    else some p

/-- `add` of a range. Every round of the loop takes at least one step. -/
def PCorr.addRange (p : PCorr) (start stop : Nat) : Option PCorr :=
  PCorr.addLoop buckets chunk stop (stop - start) start p

/-- `*(p_dest++) = *(p_src++)`, a number of times. -/
def copyRun (src : List (BitVec 32)) : Nat → Nat → Nat → List (BitVec 32) → Option (List (BitVec 32))
  | 0, _, _, dest => some dest
  | left + 1, kSrc, kDest, dest =>
    src[kSrc]?.bind fun v =>
      if kDest < dest.length then copyRun src left (kSrc + 1) (kDest + 1) (dest.set kDest v)
      else none

def PCorr.mergeBucket (rhs p : PCorr) (b : Nat) : Option PCorr :=
  if rhs.ptrOffset b = -1 then some p
  else do
    let p ← p.haveBucket buckets chunk b
    let kSrc ← rhs.place chunk b 0
    let kDest ← p.place chunk b 0
    let ptr ← copyRun rhs.ptr chunk kSrc kDest p.ptr
    some { p with ptr := ptr }

def PCorr.merge (p rhs : PCorr) : Option PCorr :=
  (List.range buckets).foldlM (PCorr.mergeBucket buckets chunk rhs) p

end Code

section Inv

variable {buckets chunk : Nat} {p : PCorr}

def PCorr.allocated (buckets : Nat) (p : PCorr) : Finset Nat :=
  (Finset.range buckets).filter (p.ptrOffset · ≠ -1)

structure PCorr.Inv (buckets chunk : Nat) (p : PCorr) : Prop where
  length : p.ptr.length = p.alloc * chunk
  card : (p.allocated buckets).card = p.alloc
  range : ∀ b, p.ptrOffset b = -1 ∨ b < buckets ∧ 0 ≤ p.ptrOffset b ∧ p.ptrOffset b < p.alloc
  inj : ∀ b b', p.ptrOffset b ≠ -1 → p.ptrOffset b = p.ptrOffset b' → b = b'

def PCorr.cell (chunk : Nat) (p : PCorr) (j : Nat) : BitVec 32 :=
  if p.ptrOffset (j / chunk) = -1 then 0#32
  else p.ptr.getD ((p.ptrOffset (j / chunk)).toNat * chunk + j % chunk) 0#32

theorem PCorr.cell_free {j : Nat} (h : p.ptrOffset (j / chunk) = -1) : p.cell chunk j = 0#32 :=
  if_pos h

theorem PCorr.cell_used {j : Nat} (h : p.ptrOffset (j / chunk) ≠ -1) :
    p.cell chunk j = p.ptr.getD ((p.ptrOffset (j / chunk)).toNat * chunk + j % chunk) 0#32 :=
  if_neg h

theorem PCorr.clear_inv : PCorr.Inv buckets chunk .clear where
  length := (Nat.zero_mul _).symm
  card := by simp [PCorr.allocated, PCorr.clear]
  range := fun _ => .inl rfl
  inj := fun _ _ h => absurd rfl h

theorem toShort_eq {v : Nat} (h : v < 2 ^ 15) : toShort v = v := by
  unfold toShort
  omega

theorem PCorr.Inv.alloc_lt (h : p.Inv buckets chunk) {b : Nat} (hb : b < buckets)
    (hfree : p.ptrOffset b = -1) : p.alloc < buckets := by
  have hall := Finset.card_range buckets
  rw [← h.card]
  refine Nat.lt_of_lt_of_eq (Finset.card_lt_card ?_) hall
  refine ⟨Finset.filter_subset _ _, fun hsub => ?_⟩
  have hmem := hsub (Finset.mem_range.mpr hb)
  exact (Finset.mem_filter.mp hmem).2 hfree

theorem PCorr.Inv.allocBucket (h : p.Inv buckets chunk) (hbuckets : buckets ≤ 2 ^ 15) {b : Nat}
    (hb : b < buckets) (hfree : p.ptrOffset b = -1) : (p.allocBucket chunk b).Inv buckets chunk := by
  have halloc := h.alloc_lt hb hfree
  have hshort : toShort p.alloc = p.alloc := toShort_eq (by omega)
  refine ⟨?_, ?_, ?_, ?_⟩
  · simp only [PCorr.allocBucket, List.length_append, h.length, List.length_replicate,
      Nat.add_one_mul]
  · have hnew : (p.allocBucket chunk b).allocated buckets = insert b (p.allocated buckets) := by
      ext b'
      simp only [PCorr.allocated, PCorr.allocBucket, Finset.mem_filter, Finset.mem_range,
        Finset.mem_insert, hshort]
      by_cases heq : b' = b
      · subst heq
        simp only [Function.update_self, true_or, iff_true]
        exact ⟨hb, by omega⟩
      · simp only [Function.update_of_ne heq, heq, false_or]
    rw [hnew, Finset.card_insert_of_notMem, h.card]
    · rfl
    · exact fun hmem => (Finset.mem_filter.mp hmem).2 hfree
  · intro b'
    change Function.update p.ptrOffset b (toShort p.alloc) b' = -1 ∨ b' < buckets ∧
      0 ≤ Function.update p.ptrOffset b (toShort p.alloc) b' ∧
      Function.update p.ptrOffset b (toShort p.alloc) b' < ((p.alloc + 1 : Nat) : Int)
    by_cases heq : b' = b
    · subst heq
      rw [Function.update_self, hshort]
      exact .inr ⟨hb, by omega, by omega⟩
    · rw [Function.update_of_ne heq]
      rcases h.range b' with hnone | ⟨hlt, hge, hle⟩
      · exact .inl hnone
      · exact .inr ⟨hlt, hge, by omega⟩
  · intro b1 b2 hne heq
    change Function.update p.ptrOffset b (toShort p.alloc) b1 ≠ -1 at hne
    change Function.update p.ptrOffset b (toShort p.alloc) b1 =
      Function.update p.ptrOffset b (toShort p.alloc) b2 at heq
    by_cases h1 : b1 = b
    · by_cases h2 : b2 = b
      · rw [h1, h2]
      · rw [h1, Function.update_self, Function.update_of_ne h2, hshort] at heq
        have := h.range b2
        omega
    · by_cases h2 : b2 = b
      · rw [h2, Function.update_self, Function.update_of_ne h1, hshort] at heq
        have := h.range b1
        omega
      · rw [Function.update_of_ne h1] at hne heq
        rw [Function.update_of_ne h2] at heq
        exact h.inj b1 b2 hne heq

theorem PCorr.Inv.allocBucket_cell (h : p.Inv buckets chunk) (hchunk : 0 < chunk)
    (hbuckets : buckets ≤ 2 ^ 15) {b : Nat} (hb : b < buckets) (hfree : p.ptrOffset b = -1)
    (j : Nat) : (p.allocBucket chunk b).cell chunk j = p.cell chunk j := by
  have halloc := h.alloc_lt hb hfree
  have hshort : toShort p.alloc = p.alloc := toShort_eq (by omega)
  have hoffset : (p.allocBucket chunk b).ptrOffset = Function.update p.ptrOffset b p.alloc := by
    rw [PCorr.allocBucket, hshort]
  by_cases heq : j / chunk = b
  · have hnew : (p.allocBucket chunk b).ptrOffset (j / chunk) = p.alloc := by
      rw [hoffset, heq, Function.update_self]
    have hfree' : p.ptrOffset (j / chunk) = -1 := (congrArg p.ptrOffset heq).trans hfree
    have hzero : p.cell chunk j = 0#32 := PCorr.cell_free hfree'
    have hused : (p.allocBucket chunk b).ptrOffset (j / chunk) ≠ -1 := by
      rw [hnew]
      exact nofun
    rw [hzero, PCorr.cell_used hused, hnew, Int.toNat_natCast, List.getD_eq_getElem?_getD]
    change ((p.ptr ++ List.replicate chunk 0#32)[_]?).getD 0#32 = 0#32
    rw [List.getElem?_append_right (by rw [h.length]; omega), h.length,
      Nat.add_sub_cancel_left, List.getElem?_replicate, if_pos (Nat.mod_lt j hchunk),
      Option.getD_some]
  · have hold : (p.allocBucket chunk b).ptrOffset (j / chunk) = p.ptrOffset (j / chunk) := by
      rw [hoffset, Function.update_of_ne heq]
    by_cases hused : p.ptrOffset (j / chunk) = -1
    · rw [PCorr.cell_free hused]
      exact PCorr.cell_free (hold.trans hused)
    · have hlt : (p.ptrOffset (j / chunk)).toNat * chunk + j % chunk < p.ptr.length := by
        have hrange := (h.range (j / chunk)).resolve_left hused
        have hmod := Nat.mod_lt j hchunk
        have hle := Nat.mul_le_mul_right chunk
          (show (p.ptrOffset (j / chunk)).toNat + 1 ≤ p.alloc by omega)
        rw [Nat.add_one_mul] at hle
        rw [h.length]
        omega
      rw [PCorr.cell_used hused, PCorr.cell_used (p := p.allocBucket chunk b) (by rwa [hold]), hold,
        List.getD_eq_getElem?_getD, List.getD_eq_getElem?_getD]
      exact congrArg (·.getD 0#32) (List.getElem?_append_left hlt)

theorem PCorr.Inv.haveBucket (h : p.Inv buckets chunk) (hchunk : 0 < chunk)
    (hbuckets : buckets ≤ 2 ^ 15) {b : Nat} (hb : b < buckets) :
    ∃ p', p.haveBucket buckets chunk b = some p' ∧ p'.Inv buckets chunk ∧ p'.ptrOffset b ≠ -1 ∧
      (∀ j, p'.cell chunk j = p.cell chunk j) ∧
      ∀ b', b' ≠ b → p'.ptrOffset b' = p.ptrOffset b' := by
  unfold PCorr.haveBucket
  rw [if_pos hb]
  split
  · next hfree =>
    refine ⟨_, rfl, h.allocBucket hbuckets hb hfree, ?_,
      h.allocBucket_cell hchunk hbuckets hb hfree, fun b' hne => Function.update_of_ne hne _ _⟩
    have halloc := h.alloc_lt hb hfree
    change Function.update p.ptrOffset b (toShort p.alloc) b ≠ -1
    rw [Function.update_self, toShort_eq (by omega)]
    omega
  · next hused => exact ⟨p, rfl, h, hused, fun _ => rfl, fun _ _ => rfl⟩

theorem PCorr.Inv.place (h : p.Inv buckets chunk) {b c : Nat} (hused : p.ptrOffset b ≠ -1)
    (hc : c < chunk) : ∃ k < p.ptr.length, p.place chunk b c = some k ∧
      k = (p.ptrOffset b).toNat * chunk + c := by
  obtain ⟨-, hge, hlt⟩ := (h.range b).resolve_left hused
  refine ⟨(p.ptrOffset b).toNat * chunk + c, ?_, if_pos hge, rfl⟩
  have hle := Nat.mul_le_mul_right chunk (show (p.ptrOffset b).toNat + 1 ≤ p.alloc by omega)
  rw [Nat.add_one_mul] at hle
  rw [h.length]
  omega

theorem PCorr.Inv.cell_set (h : p.Inv buckets chunk) {b c : Nat} (hused : p.ptrOffset b ≠ -1)
    (hc : c < chunk) (v : BitVec 32) (j : Nat) :
    PCorr.cell chunk { p with ptr := p.ptr.set ((p.ptrOffset b).toNat * chunk + c) v } j =
      if j = b * chunk + c then v else p.cell chunk j := by
  obtain ⟨k, hk, -, rfl⟩ := h.place hused hc
  have hchunk : 0 < chunk := by omega
  split
  · next heq =>
    have hdiv : j / chunk = b := by
      rw [heq, Nat.mul_comm, Nat.mul_add_div hchunk, Nat.div_eq_of_lt hc, Nat.add_zero]
    have hmod : j % chunk = c := by
      rw [heq, Nat.mul_comm, Nat.mul_add_mod, Nat.mod_eq_of_lt hc]
    refine (PCorr.cell_used (by rwa [hdiv])).trans ?_
    rw [hdiv, hmod, List.getD_eq_getElem?_getD]
    exact congrArg (·.getD 0#32) (List.getElem?_set_self hk)
  · next hne =>
    by_cases hj : p.ptrOffset (j / chunk) = -1
    · rw [PCorr.cell_free (p := p) hj]
      exact PCorr.cell_free hj
    · rw [PCorr.cell_used (p := p) hj]
      refine (PCorr.cell_used (p := { p with ptr := p.ptr.set _ v }) hj).trans ?_
      rw [List.getD_eq_getElem?_getD,
        List.getD_eq_getElem?_getD, List.getElem?_set_ne]
      intro hsame
      apply hne
      have hmod := Nat.mod_lt j hchunk
      have hoff : (p.ptrOffset b).toNat = (p.ptrOffset (j / chunk)).toNat := by
        have hdiv := congrArg (· / chunk) hsame
        simp only [Nat.mul_comm _ chunk, Nat.mul_add_div hchunk, Nat.div_eq_of_lt hc,
          Nat.div_eq_of_lt hmod, Nat.add_zero] at hdiv
        exact hdiv
      have hb := (h.range b).resolve_left hused
      have hb' := (h.range (j / chunk)).resolve_left hj
      have hbucket := h.inj b (j / chunk) hused (by omega)
      rw [hoff] at hsame
      rw [hbucket, Nat.add_left_cancel hsame, Nat.mul_comm, Nat.div_add_mod]

theorem PCorr.Inv.set (h : p.Inv buckets chunk) (k : Nat) (v : BitVec 32) :
    PCorr.Inv buckets chunk { p with ptr := p.ptr.set k v } :=
  ⟨(List.length_set ..).trans h.length, h.card, h.range, h.inj⟩

theorem PCorr.cell_eq_getD {b c : Nat} (hused : p.ptrOffset b ≠ -1) (hc : c < chunk) :
    p.cell chunk (b * chunk + c) = p.ptr.getD ((p.ptrOffset b).toNat * chunk + c) 0#32 := by
  have hchunk : 0 < chunk := by omega
  have hdiv : (b * chunk + c) / chunk = b := by
    rw [Nat.mul_comm, Nat.mul_add_div hchunk, Nat.div_eq_of_lt hc, Nat.add_zero]
  have hmod : (b * chunk + c) % chunk = c := by
    rw [Nat.mul_comm, Nat.mul_add_mod, Nat.mod_eq_of_lt hc]
  rw [PCorr.cell_used (by rwa [hdiv]), hdiv, hmod]

theorem PCorr.Inv.incr (h : p.Inv buckets chunk) {b c : Nat} (hused : p.ptrOffset b ≠ -1)
    (hc : c < chunk) :
    ∃ ptr, incr p.ptr ((p.ptrOffset b).toNat * chunk + c) = some ptr ∧
      PCorr.Inv buckets chunk { p with ptr := ptr } ∧
      ∀ j, PCorr.cell chunk { p with ptr := ptr } j =
        p.cell chunk j + if j = b * chunk + c then 1 else 0 := by
  obtain ⟨k, hk, -, rfl⟩ := h.place hused hc
  refine ⟨_, by rw [Ucesb.incr, List.getElem?_eq_getElem hk, Option.map_some], h.set _ _, ?_⟩
  intro j
  rw [h.cell_set hused hc]
  split
  · next heq =>
    rw [heq, PCorr.cell_eq_getD hused hc, List.getD_eq_getElem?_getD, List.getElem?_eq_getElem hk,
      Option.getD_some]
  · exact (BitVec.add_zero _).symm

end Inv

section Operations

variable {buckets chunk : Nat} {p : PCorr}

theorem PCorr.Inv.place_eq (h : p.Inv buckets chunk) {b c : Nat} (hused : p.ptrOffset b ≠ -1)
    (hc : c < chunk) : p.place chunk b c = some ((p.ptrOffset b).toNat * chunk + c) := by
  obtain ⟨k, -, hplace, rfl⟩ := h.place hused hc
  exact hplace

theorem sub_div_mul (j chunk : Nat) : j - j / chunk * chunk = j % chunk := by
  have hdiv := Nat.div_add_mod j chunk
  rw [Nat.mul_comm] at hdiv
  omega

theorem PCorr.Inv.add (h : p.Inv buckets chunk) (hchunk : 0 < chunk) (hbuckets : buckets ≤ 2 ^ 15)
    {start : Nat} (hstart : start < buckets * chunk) :
    ∃ p', p.add buckets chunk start = some p' ∧ p'.Inv buckets chunk ∧
      ∀ j, p'.cell chunk j = p.cell chunk j + if j = start then 1 else 0 := by
  have hb : start / chunk < buckets := (Nat.div_lt_iff_lt_mul hchunk).mpr hstart
  obtain ⟨p', hp', hinv, hused, hcell, -⟩ := h.haveBucket hchunk hbuckets hb
  obtain ⟨ptr, hptr, hinv', hcell'⟩ := hinv.incr hused (Nat.mod_lt start hchunk)
  refine ⟨{ p' with ptr := ptr }, ?_, hinv', ?_⟩
  · simp only [PCorr.add, hp', sub_div_mul, hinv.place_eq hused (Nat.mod_lt start hchunk), hptr,
      Option.bind_eq_bind, Option.bind_some]
  · intro j
    rw [hcell', hcell, Nat.mul_comm (start / chunk), Nat.div_add_mod]

theorem count_ranges {a b c j : Nat} (hab : a ≤ b) (hbc : b ≤ c) :
    ((if a ≤ j ∧ j < b then 1 else 0) + if b ≤ j ∧ j < c then 1 else 0 : BitVec 32) =
      if a ≤ j ∧ j < c then 1 else 0 := by
  by_cases hj : j < b
  · rw [if_neg (show ¬(b ≤ j ∧ j < c) by omega)]
    by_cases ha : a ≤ j
    · rw [if_pos ⟨ha, hj⟩, if_pos ⟨ha, by omega⟩]
      rfl
    · rw [if_neg (by omega), if_neg (by omega)]
      rfl
  · rw [if_neg (show ¬(a ≤ j ∧ j < b) by omega)]
    by_cases hc : j < c
    · rw [if_pos ⟨by omega, hc⟩, if_pos ⟨by omega, hc⟩]
      rfl
    · rw [if_neg (by omega), if_neg (by omega)]
      rfl

theorem PCorr.Inv.addRun (h : p.Inv buckets chunk) {b stop : Nat} (hused : p.ptrOffset b ≠ -1)
    (left c : Nat) (hleft : c + left = chunk) :
    ∃ ptr, addRun stop left (b * chunk + c) ((p.ptrOffset b).toNat * chunk + c) p.ptr =
        some (ptr, max (b * chunk + c) (min stop (b * chunk + c + left))) ∧
      PCorr.Inv buckets chunk { p with ptr := ptr } ∧
      ∀ j, PCorr.cell chunk { p with ptr := ptr } j = p.cell chunk j +
        if b * chunk + c ≤ j ∧ j < max (b * chunk + c) (min stop (b * chunk + c + left))
          then 1 else 0 := by
  induction left generalizing p c with
  | zero =>
    have hsame : max (b * chunk + c) (min stop (b * chunk + c + 0)) = b * chunk + c := by omega
    refine ⟨p.ptr, by rw [Ucesb.addRun, hsame], h, fun j => ?_⟩
    rw [hsame, if_neg (by omega)]
    exact (BitVec.add_zero _).symm
  | succ left ih =>
    unfold Ucesb.addRun
    split
    · next hlt =>
      obtain ⟨ptr1, hptr1, hinv1, hcell1⟩ := h.incr hused (show c < chunk by omega)
      obtain ⟨ptr2, hptr2, hinv2, hcell2⟩ := ih (p := { p with ptr := ptr1 }) hinv1 hused (c + 1)
        (by omega)
      have hstop : max (b * chunk + (c + 1)) (min stop (b * chunk + (c + 1) + left)) =
          max (b * chunk + c) (min stop (b * chunk + c + (left + 1))) := by omega
      rw [hstop] at hptr2 hcell2
      refine ⟨ptr2, ?_, hinv2, fun j => ?_⟩
      · rw [hptr1, Option.bind_some]
        exact hptr2
      · rw [hcell2, hcell1, BitVec.add_assoc, ← count_ranges (Nat.le_succ (b * chunk + c))
          (show b * chunk + c + 1 ≤ max (b * chunk + c)
            (min stop (b * chunk + c + (left + 1))) by omega)]
        congr 2
        refine if_congr ?_ rfl rfl
        omega
    · next hge =>
      have hsame : max (b * chunk + c) (min stop (b * chunk + c + (left + 1))) =
          b * chunk + c := by omega
      refine ⟨p.ptr, by rw [hsame], h, fun j => ?_⟩
      rw [hsame, if_neg (by omega)]
      exact (BitVec.add_zero _).symm

theorem PCorr.Inv.addLoop (h : p.Inv buckets chunk) (hchunk : 0 < chunk)
    (hbuckets : buckets ≤ 2 ^ 15) {stop : Nat} (hstop : stop ≤ buckets * chunk)
    (fuel start : Nat) (hfuel : stop - start ≤ fuel) :
    ∃ p', PCorr.addLoop buckets chunk stop fuel start p = some p' ∧ p'.Inv buckets chunk ∧
      ∀ j, p'.cell chunk j = p.cell chunk j + if start ≤ j ∧ j < stop then 1 else 0 := by
  induction fuel generalizing p start with
  | zero =>
    refine ⟨p, if_neg (by omega), h, fun j => ?_⟩
    rw [if_neg (by omega)]
    exact (BitVec.add_zero _).symm
  | succ fuel ih =>
    by_cases hlt : start < stop
    · have hb : start / chunk < buckets := (Nat.div_lt_iff_lt_mul hchunk).mpr (by omega)
      have hmod := Nat.mod_lt start hchunk
      have hsplit : start / chunk * chunk + start % chunk = start := by
        rw [Nat.mul_comm, Nat.div_add_mod]
      obtain ⟨p1, hp1, hinv1, hused, hcell1, -⟩ := h.haveBucket hchunk hbuckets hb
      obtain ⟨ptr, hptr, hinv2, hcell2⟩ := @PCorr.Inv.addRun _ _ _ hinv1 _ stop hused
        (chunk - start % chunk) (start % chunk) (by omega)
      rw [hsplit] at hptr hcell2
      obtain ⟨p3, hp3, hinv3, hcell3⟩ := ih (p := { p1 with ptr := ptr }) hinv2
        (max start (min stop (start + (chunk - start % chunk)))) (by omega)
      refine ⟨p3, ?_, hinv3, fun j => ?_⟩
      · unfold PCorr.addLoop
        simp only [if_pos hlt, hp1, sub_div_mul, hinv1.place_eq hused hmod, hptr,
          Option.bind_eq_bind, Option.bind_some]
        exact hp3
      · rw [hcell3, hcell2, hcell1, BitVec.add_assoc, count_ranges (by omega) (by omega)]
    · refine ⟨p, if_neg hlt, h, fun j => ?_⟩
      rw [if_neg (by omega)]
      exact (BitVec.add_zero _).symm

theorem PCorr.Inv.addRange (h : p.Inv buckets chunk) (hchunk : 0 < chunk)
    (hbuckets : buckets ≤ 2 ^ 15) {start stop : Nat} (hstop : stop ≤ buckets * chunk) :
    ∃ p', p.addRange buckets chunk start stop = some p' ∧ p'.Inv buckets chunk ∧
      ∀ j, p'.cell chunk j = p.cell chunk j + if start ≤ j ∧ j < stop then 1 else 0 :=
  h.addLoop hchunk hbuckets hstop _ _ (Nat.le_refl _)

theorem PCorr.Inv.copyRun {rhs : PCorr} (h : p.Inv buckets chunk) (hrhs : rhs.Inv buckets chunk)
    {b : Nat} (hused : p.ptrOffset b ≠ -1) (hsrc : rhs.ptrOffset b ≠ -1) (left c : Nat)
    (hleft : c + left = chunk) :
    ∃ ptr, copyRun rhs.ptr left ((rhs.ptrOffset b).toNat * chunk + c)
        ((p.ptrOffset b).toNat * chunk + c) p.ptr = some ptr ∧
      PCorr.Inv buckets chunk { p with ptr := ptr } ∧
      ∀ j, PCorr.cell chunk { p with ptr := ptr } j =
        if b * chunk + c ≤ j ∧ j < b * chunk + chunk then rhs.cell chunk j else p.cell chunk j := by
  induction left generalizing p c with
  | zero =>
    refine ⟨p.ptr, rfl, h, fun j => ?_⟩
    rw [if_neg (by omega)]
  | succ left ih =>
    have hc : c < chunk := by omega
    obtain ⟨kSrc, hkSrc, -, rfl⟩ := hrhs.place hsrc hc
    obtain ⟨kDest, hkDest, -, rfl⟩ := h.place hused hc
    obtain ⟨ptr, hptr, hinv, hcell⟩ := ih (h.set ((p.ptrOffset b).toNat * chunk + c)
      rhs.ptr[(rhs.ptrOffset b).toNat * chunk + c]) hused (c + 1) (by omega)
    refine ⟨ptr, ?_, hinv, fun j => ?_⟩
    · unfold Ucesb.copyRun
      rw [List.getElem?_eq_getElem hkSrc, Option.bind_some, if_pos hkDest]
      exact hptr
    · rw [hcell, h.cell_set hused hc]
      by_cases heq : j = b * chunk + c
      · subst heq
        rw [if_neg (by omega), if_pos rfl, if_pos (by omega), PCorr.cell_eq_getD hsrc hc,
          List.getD_eq_getElem?_getD, List.getElem?_eq_getElem hkSrc, Option.getD_some]
      · rw [if_neg heq]
        refine if_congr ?_ rfl rfl
        omega

theorem div_eq_iff_between {j b chunk : Nat} (hchunk : 0 < chunk) :
    j / chunk = b ↔ b * chunk ≤ j ∧ j < b * chunk + chunk := by
  rw [Nat.div_eq_iff hchunk]
  omega

theorem PCorr.Inv.mergeBucket {rhs : PCorr} (h : p.Inv buckets chunk)
    (hrhs : rhs.Inv buckets chunk) (hchunk : 0 < chunk) (hbuckets : buckets ≤ 2 ^ 15) {b : Nat}
    (hb : b < buckets) :
    ∃ p', PCorr.mergeBucket buckets chunk rhs p b = some p' ∧ p'.Inv buckets chunk ∧
      ∀ j, p'.cell chunk j =
        if j / chunk = b ∧ rhs.ptrOffset b ≠ -1 then rhs.cell chunk j else p.cell chunk j := by
  unfold PCorr.mergeBucket
  split
  · next hnone =>
    refine ⟨p, rfl, h, fun j => ?_⟩
    rw [if_neg fun hj => hj.2 hnone]
  · next hsrc =>
    obtain ⟨p1, hp1, hinv1, hused, hcell1, -⟩ := h.haveBucket hchunk hbuckets hb
    obtain ⟨ptr, hptr, hinv, hcell⟩ := hinv1.copyRun hrhs hused hsrc chunk 0 (by omega)
    refine ⟨{ p1 with ptr := ptr }, ?_, hinv, fun j => ?_⟩
    · simp only [hp1, hrhs.place_eq hsrc hchunk, hinv1.place_eq hused hchunk, hptr,
        Option.bind_eq_bind, Option.bind_some]
    · rw [hcell, hcell1]
      refine if_congr ?_ rfl rfl
      rw [Nat.add_zero, and_iff_left hsrc, div_eq_iff_between hchunk]

theorem foldlM_range_some {σ : Type} {f : σ → Nat → Option σ} {Inv : Nat → σ → Prop} {n : Nat}
    (hstep : ∀ i s, i < n → Inv i s → ∃ s', f s i = some s' ∧ Inv (i + 1) s') {s : σ}
    (h0 : Inv 0 s) : ∃ s', (List.range n).foldlM f s = some s' ∧ Inv n s' := by
  induction n with
  | zero => exact ⟨s, rfl, h0⟩
  | succ n ih =>
    obtain ⟨s1, h1, hinv1⟩ := ih fun i s hi => hstep i s (Nat.lt_succ_of_lt hi)
    obtain ⟨s2, h2, hinv2⟩ := hstep n s1 (Nat.lt_succ_self n) hinv1
    refine ⟨s2, ?_, hinv2⟩
    rw [List.range_succ, List.foldlM_append, h1]
    simp only [Option.bind_eq_bind, Option.bind_some, List.foldlM_cons, h2, List.foldlM_nil]
    rfl

structure PCorr.Merged (buckets chunk : Nat) (rhs p : PCorr) (b : Nat) (p' : PCorr) : Prop where
  inv : p'.Inv buckets chunk
  cell : ∀ j, p'.cell chunk j =
    if j / chunk < b ∧ rhs.ptrOffset (j / chunk) ≠ -1 then rhs.cell chunk j else p.cell chunk j

theorem PCorr.Inv.merge {rhs : PCorr} (h : p.Inv buckets chunk) (hrhs : rhs.Inv buckets chunk)
    (hchunk : 0 < chunk) (hbuckets : buckets ≤ 2 ^ 15) :
    ∃ p', p.merge buckets chunk rhs = some p' ∧ p'.Inv buckets chunk ∧
      ∀ j < buckets * chunk, p'.cell chunk j =
        if rhs.ptrOffset (j / chunk) ≠ -1 then rhs.cell chunk j else p.cell chunk j := by
  have hstep : ∀ b p1, b < buckets → PCorr.Merged buckets chunk rhs p b p1 →
      ∃ p2, PCorr.mergeBucket buckets chunk rhs p1 b = some p2 ∧
        PCorr.Merged buckets chunk rhs p (b + 1) p2 := by
    rintro b p1 hb ⟨hinv1, hcell1⟩
    obtain ⟨p2, hp2, hinv2, hcell2⟩ := hinv1.mergeBucket hrhs hchunk hbuckets hb
    refine ⟨p2, hp2, hinv2, fun j => ?_⟩
    rw [hcell2, hcell1]
    by_cases heq : j / chunk = b
    · rw [heq]
      by_cases hsrc : rhs.ptrOffset b = -1
      · rw [if_neg fun h => h.2 hsrc, if_neg fun h => h.2 hsrc, if_neg fun h => h.2 hsrc]
      · rw [if_pos ⟨rfl, hsrc⟩, if_pos ⟨Nat.lt_succ_self b, hsrc⟩]
    · rw [if_neg fun h => heq h.1]
      refine if_congr (and_congr_left fun _ => ?_) rfl rfl
      omega
  have hstart : PCorr.Merged buckets chunk rhs p 0 p :=
    ⟨h, fun j => by rw [if_neg fun hj => Nat.not_lt_zero _ hj.1]⟩
  obtain ⟨p', hp', hinv, hcell⟩ := foldlM_range_some hstep hstart
  refine ⟨p', hp', hinv, fun j hj => ?_⟩
  rw [hcell]
  exact if_congr (and_iff_right ((Nat.div_lt_iff_lt_mul hchunk).mpr hj)) rfl rfl

end Operations

end Ucesb
