import Ucesb.TdcpmHash

namespace Ucesb

def newHome (t : List HashEntry) (hash : UInt32) : Nat := hash.toNat % (2 * t.length)

/-- The entry in the slot stays there: its home is not behind it in the enlarged table, and those
in between stay as well. -/
inductive Stays (t : List HashEntry) : Nat → Prop
  | mk {slot hash index} : t[slot]? = some (some (hash, index)) → newHome t hash ≤ slot →
      (∀ s, newHome t hash ≤ s → s < slot → Stays t s) → Stays t slot

/-- Every entry that has wrapped round the end of the old table, and has its home there in the
enlarged one as well, finds all entries from its home to the end staying. -/
def EnlargeOk (t : List HashEntry) : Prop :=
  ∀ slot hash index, t[slot]? = some (some (hash, index)) → slot < newHome t hash →
    newHome t hash < t.length → ∀ s, newHome t hash ≤ s → s < t.length → Stays t s

/-- A table on the way from `t` to the enlarged one. -/
structure Rehashing (t u : List HashEntry) : Prop where
  size : u.length = 2 * t.length
  entries : (entriesOf u).Perm (entriesOf t)
  stays : ∀ s, Stays t s → u[s]? = t[s]?
  /-- the new half is reached through the new half and entries that stay -/
  upper : ∀ slot hash index, t.length ≤ slot → u[slot]? = some (some (hash, index)) →
    newHome t hash ≤ slot ∧
    (∀ s, newHome t hash ≤ s → s < slot → t.length ≤ s → u[s]? ≠ some none) ∧
    ∀ s, newHome t hash ≤ s → s < t.length → Stays t s
  wrapped : ∀ slot hash index, u[slot]? = some (some (hash, index)) → slot < newHome t hash →
    newHome t hash < t.length → ∀ s, newHome t hash ≤ s → s < t.length → Stays t s

section Rehash

variable {t u : List HashEntry}

theorem Stays.used {slot : Nat} (h : Stays t slot) : ∃ e, t[slot]? = some (some e) := by
  cases h with
  | mk hslot _ _ => exact ⟨_, hslot⟩

theorem Stays.lt {slot : Nat} (h : Stays t slot) : slot < t.length := by
  obtain ⟨e, he⟩ := h.used
  exact (List.getElem?_eq_some_iff.mp he).1

theorem Rehashing.start (h : EnlargeOk t) :
    Rehashing t (t ++ List.replicate t.length none) := by
  have hlow : ∀ s : Nat, s < t.length →
      (t ++ List.replicate t.length (none : HashEntry))[s]? = t[s]? := by
    intro s hs
    exact List.getElem?_append_left hs
  have hhigh : ∀ s : Nat, t.length ≤ s → ∀ e,
      (t ++ List.replicate t.length (none : HashEntry))[s]? ≠ some (some e) := by
    intro s hs e he
    rw [List.getElem?_append_right hs, List.getElem?_replicate] at he
    split at he <;> cases he
  refine ⟨?_, ?_, ?_, ?_, ?_⟩
  · rw [List.length_append, List.length_replicate]
    omega
  · unfold entriesOf
    rw [List.filterMap_append, List.filterMap_replicate_of_none rfl, List.append_nil]
  · intro s hs
    exact hlow s hs.lt
  · intro slot hash index hslot he
    exact absurd he (hhigh slot hslot _)
  · intro slot hash index he hw hhome
    by_cases hslot : slot < t.length
    · rw [hlow slot hslot] at he
      exact h slot hash index he hw hhome
    · exact absurd he (hhigh slot (by omega) _)

theorem passed_slots {home j slot size : Nat} (hhome : home < size) (hj : j < size)
    (hslot : slot = (home + j) % size) :
    (home + j < size ∧ slot = home + j) ∨ (size ≤ home + j ∧ slot = home + j - size) := by
  rcases Nat.lt_or_ge (home + j) size with h | h
  · exact .inl ⟨h, by rw [hslot, Nat.mod_eq_of_lt h]⟩
  · refine .inr ⟨h, ?_⟩
    rw [hslot, Nat.mod_eq_sub_mod h, Nat.mod_eq_of_lt (by omega)]

/-- From its home the entry in the slot `i` is tried in `j` slots, all of them used and none of them
its own, before it comes to the free slot `d`. -/
structure Probe (u : List HashEntry) (home i j d : Nat) : Prop where
  home_lt : home < u.length
  reaches : (home + j < u.length ∧ d = home + j) ∨ (u.length ≤ home + j ∧ d = home + j - u.length)
  straight : ∀ m < j, home + m < u.length → home + m ≠ i ∧ u[home + m]? ≠ some none
  wrapped : ∀ m < j, u.length ≤ home + m → home + m - u.length ≠ i
  free : u[d]? = some none
  ne : d ≠ i

theorem probe_of_passed {i j : Nat} {hash : UInt32} (hsize : u.length = 2 * t.length)
    (hj : j < u.length)
    (hpass : ∀ m < j, (hash.toNat + m) % u.length ≠ i ∧
      u[(hash.toNat + m) % u.length]? ≠ some none)
    (hne : (hash.toNat + j) % u.length ≠ i)
    (hfree : u[(hash.toNat + j) % u.length]? = some none) :
    Probe u (newHome t hash) i j ((hash.toNat + j) % u.length) := by
  have hhome : newHome t hash < u.length := by
    rw [hsize]
    exact Nat.mod_lt _ (by omega)
  have hmod : ∀ m, (hash.toNat + m) % u.length = (newHome t hash + m) % u.length := by
    intro m
    unfold newHome
    rw [hsize, Nat.mod_add_mod]
  simp only [hmod] at hpass hne hfree ⊢
  refine ⟨hhome, passed_slots hhome hj rfl, fun m hm hlt => ?_, fun m hm hge => ?_, hfree, hne⟩
  · have := hpass m hm
    rwa [Nat.mod_eq_of_lt hlt] at this
  · have := (hpass m hm).1
    rwa [Nat.mod_eq_sub_mod hge, Nat.mod_eq_of_lt (by omega)] at this

/-- If the probe goes past the old end or wraps, the entry stood before its home. -/
theorem Probe.before {home i j d : Nat} (h : Probe u home i j d) (hi : i < t.length)
    (hsize : u.length = 2 * t.length) (hout : t.length ≤ d ∨ d < home) : i < home := by
  by_contra hge
  rw [Nat.not_lt] at hge
  have hm : i - home < j := by
    rcases h.reaches with ⟨-, heq⟩ | ⟨hwrap, -⟩ <;> omega
  exact (h.straight _ hm (by omega)).1 (by omega)

/-- A probe that ends in the new half did not wrap, or it would have met the entry itself. -/
theorem Probe.upper {home i j d : Nat} (h : Probe u home i j d) (hi : i < t.length)
    (hsize : u.length = 2 * t.length) (hd : t.length ≤ d) :
    home + j < u.length ∧ d = home + j := by
  have hhome := h.home_lt
  rcases h.reaches with hc | ⟨hwrap, heq⟩
  · exact hc
  · exfalso
    rcases Nat.lt_or_ge i home with hlt | hge
    · exact h.wrapped (u.length - home + i) (by omega) (by omega) (by omega)
    · exact (h.straight (i - home) (by omega) (by omega)).1 (by omega)

/-- The slots that stay are neither left nor filled. -/
theorem Rehashing.stays_ne (h : Rehashing t u) {i j d s : Nat} {hash : UInt32} {index : Nat}
    (hi : i < t.length) (hget : u[i]? = some (some (hash, index)))
    (hp : Probe u (newHome t hash) i j d) (hs : Stays t s) : s ≠ i ∧ s ≠ d := by
  have hsize := h.size
  constructor
  · rintro rfl
    cases hs with
    | mk hslot hle hbetween =>
      rw [← h.stays s (.mk hslot hle hbetween), hget] at hslot
      cases hslot
      rcases Nat.lt_trichotomy j (s - newHome t hash) with hlt | heq | hgt
      · have hmid : Stays t (newHome t hash + j) := hbetween _ (by omega) (by omega)
        obtain ⟨e', he'⟩ := hmid.used
        rw [← h.stays _ hmid] at he'
        rcases hp.reaches with ⟨-, rfl⟩ | ⟨hge, -⟩
        · rw [hp.free] at he'
          cases he'
        · omega
      · rcases hp.reaches with ⟨-, hd⟩ | ⟨hge, -⟩
        · exact hp.ne (by omega)
        · omega
      · exact (hp.straight (s - newHome t hash) hgt (by omega)).1 (by omega)
  · rintro rfl
    obtain ⟨e, he⟩ := hs.used
    rw [← h.stays s hs, hp.free] at he
    cases he

theorem getElem?_moved {i d s : Nat} {e : UInt32 × Nat} (hi : i < u.length) (hd : d < u.length) :
    ((u.set d (some e)).set i none)[s]? =
      if s = i then some none else if s = d then some (some e) else u[s]? := by
  rw [List.getElem?_set, List.getElem?_set, List.length_set]
  by_cases h1 : i = s
  · rw [if_pos h1, if_pos h1.symm, if_pos hi]
  · rw [if_neg h1, if_neg (Ne.symm h1)]
    by_cases h2 : d = s
    · rw [if_pos h2, if_pos h2.symm, if_pos hd]
    · rw [if_neg h2, if_neg (Ne.symm h2)]

theorem Rehashing.move (h : Rehashing t u) {i j : Nat} {hash : UInt32} {index : Nat}
    (hi : i < t.length) (hget : u[i]? = some (some (hash, index))) (hj : j < u.length)
    (hpass : ∀ m < j, (hash.toNat + m) % u.length ≠ i ∧
      u[(hash.toNat + m) % u.length]? ≠ some none)
    (hne : (hash.toNat + j) % u.length ≠ i)
    (hfree : u[(hash.toNat + j) % u.length]? = some none) :
    Rehashing t ((u.set ((hash.toNat + j) % u.length) (some (hash, index))).set i none) := by
  have hsize := h.size
  have hp := probe_of_passed hsize hj hpass hne hfree
  generalize (hash.toNat + j) % u.length = d at hne hfree hp ⊢
  have hnew : ∀ s : Nat, _ := fun s => @getElem?_moved u i d s (hash, index) (by omega)
    (List.getElem?_eq_some_iff.mp hfree).1
  refine ⟨?_, ?_, ?_, ?_, ?_⟩
  · rw [List.length_set, List.length_set]
    exact hsize
  · have hgetd : (u.set d (some (hash, index)))[i]? = some (some (hash, index)) := by
      rw [List.getElem?_set, if_neg hne, hget]
    have h1 := entriesOf_set_none hgetd
    have h2 := h1.trans (entriesOf_set_some hfree)
    exact (List.Perm.cons_inv h2).trans h.entries
  · intro s hs
    obtain ⟨h1, h2⟩ := h.stays_ne hi hget hp hs
    rw [hnew, if_neg h1, if_neg h2]
    exact h.stays s hs
  · intro slot hash' index' hslot he
    rw [hnew, if_neg (by omega)] at he
    by_cases hsd : slot = d
    · rw [if_pos hsd] at he
      cases he
      subst hsd
      obtain ⟨hlt, hd⟩ := hp.upper hi hsize hslot
      refine ⟨by omega, ?_, ?_⟩
      · intro s h1 h2 h3
        rw [hnew, if_neg (by omega), if_neg (by omega)]
        have := (hp.straight (s - newHome t hash) (by omega) (by omega)).2
        rwa [Nat.add_sub_cancel' h1] at this
      · intro s h1 h2
        have hlow : newHome t hash < t.length := by omega
        exact h.wrapped i hash index hget (hp.before hi hsize (.inl hslot)) hlow s h1 h2
    · rw [if_neg hsd] at he
      obtain ⟨h1, h2, h3⟩ := h.upper slot hash' index' hslot he
      refine ⟨h1, ?_, h3⟩
      intro s hs1 hs2 hs3
      rw [hnew, if_neg (by omega)]
      split
      · simp
      · exact h2 s hs1 hs2 hs3
  · intro slot hash' index' he hw hlow
    rw [hnew] at he
    split at he
    · cases he
    · split at he
      · rename_i hsd
        cases he
        exact h.wrapped i hash index hget (hp.before hi hsize (.inr (hsd ▸ hw))) hlow
      · exact h.wrapped slot hash' index' he hw hlow

def slotCost (u : List HashEntry) (slot : Nat) : Nat :=
  match u[slot]? with
  | some (some (hash, _)) => displacement u.length hash.toNat slot
  | _ => 0

def tableCost (u : List HashEntry) : Nat := ∑ slot ∈ Finset.range u.length, slotCost u slot

theorem tableCost_le (u : List HashEntry) : tableCost u ≤ u.length * u.length := by
  have hslot : ∀ s ∈ Finset.range u.length, slotCost u s ≤ u.length := by
    intro s hs
    have hpos : 0 < u.length := by
      have := Finset.mem_range.mp hs
      omega
    unfold slotCost
    split
    · exact Nat.le_of_lt (displacement_lt hpos)
    · exact Nat.zero_le _
  have hsum := Finset.sum_le_card_nsmul _ _ _ hslot
  rw [Finset.card_range] at hsum
  exact hsum

theorem tableCost_move {i j : Nat} {hash : UInt32} {index : Nat} (hi : i < u.length)
    (hget : u[i]? = some (some (hash, index))) (hj : j < u.length)
    (hpass : ∀ m < j, (hash.toNat + m) % u.length ≠ i)
    (hne : (hash.toNat + j) % u.length ≠ i)
    (hfree : u[(hash.toNat + j) % u.length]? = some none) :
    tableCost ((u.set ((hash.toNat + j) % u.length) (some (hash, index))).set i none) <
      tableCost u := by
  have hdisp : j < displacement u.length hash.toNat i := by
    have hback := @add_displacement u.length hash.toNat i hi
    rcases Nat.lt_trichotomy (displacement u.length hash.toNat i) j with hlt | heq | hgt
    · exact absurd hback (hpass _ hlt)
    · rw [heq] at hback
      exact absurd hback hne
    · exact hgt
  have hdj := @displacement_add u.length hash.toNat j hj
  have hdlt : (hash.toNat + j) % u.length < u.length := Nat.mod_lt _ (by omega)
  generalize hd : (hash.toNat + j) % u.length = d at hne hfree hdj hdlt ⊢
  have hmemi : i ∈ Finset.range u.length := Finset.mem_range.mpr hi
  have hmemd : d ∈ (Finset.range u.length).erase i :=
    Finset.mem_erase.mpr ⟨hne, Finset.mem_range.mpr hdlt⟩
  have hlen : ((u.set d (some (hash, index))).set i none).length = u.length := by
    rw [List.length_set, List.length_set]
  have hother : ∀ s ∈ ((Finset.range u.length).erase i).erase d,
      slotCost ((u.set d (some (hash, index))).set i none) s = slotCost u s := by
    intro s hs
    obtain ⟨hsd, hs⟩ := Finset.mem_erase.mp hs
    have hsi := (Finset.mem_erase.mp hs).1
    unfold slotCost
    rw [hlen, List.getElem?_set_ne (Ne.symm hsi), List.getElem?_set_ne (Ne.symm hsd)]
  have hnewi : slotCost ((u.set d (some (hash, index))).set i none) i = 0 := by
    unfold slotCost
    rw [List.getElem?_set_self (by rw [List.length_set]; exact hi)]
  have hnewd : slotCost ((u.set d (some (hash, index))).set i none) d = j := by
    unfold slotCost
    rw [List.getElem?_set_ne (Ne.symm hne), List.getElem?_set_self hdlt, hlen]
    exact hdj
  have holdi : slotCost u i = displacement u.length hash.toNat i := by
    unfold slotCost
    rw [hget]
  have holdd : slotCost u d = 0 := by
    unfold slotCost
    rw [hfree]
  -- only these two slots change their cost
  have hsplit : ∀ f : Nat → Nat, (Finset.range u.length).sum f =
      f i + (f d + (((Finset.range u.length).erase i).erase d).sum f) := by
    intro f
    rw [Finset.add_sum_erase _ f hmemd, Finset.add_sum_erase _ f hmemi]
  have hrest : (((Finset.range u.length).erase i).erase d).sum
      (slotCost ((u.set d (some (hash, index))).set i none)) =
      (((Finset.range u.length).erase i).erase d).sum (slotCost u) := Finset.sum_congr rfl hother
  have hnew := hsplit (slotCost ((u.set d (some (hash, index))).set i none))
  have hold := hsplit (slotCost u)
  rw [hrest, hnewi, hnewd] at hnew
  rw [holdi, holdd] at hold
  show (Finset.range ((u.set d (some (hash, index))).set i none).length).sum
    (slotCost ((u.set d (some (hash, index))).set i none)) < (Finset.range u.length).sum (slotCost u)
  rw [hlen]
  omega

section Passes

variable {k mask : Nat} (hlen : 2 * t.length = 2 ^ k) (hmask : mask = 2 * t.length - 1)

include hlen hmask

theorem rehashPass_spec {count i : Nat} (h : Rehashing t u) (hi : i + count ≤ t.length) :
    ∃ u' any, rehashPass mask count i u = some (u', any) ∧ Rehashing t u' ∧
      (any = true → tableCost u' < tableCost u) ∧
      (any = false → u' = u ∧ ∀ s, i ≤ s → s < i + count → ∀ hash index,
        u[s]? = some (some (hash, index)) → Reached u hash s) := by
  induction count generalizing i u with
  | zero =>
    refine ⟨u, false, rfl, h, by simp, ?_⟩
    intro _
    refine ⟨rfl, ?_⟩
    intro s h1 h2
    omega
  | succ count ih =>
    have hsize := h.size
    have hilt : i < u.length := by omega
    unfold rehashPass
    rcases @rehashSlot_spec u k mask i (by rw [hsize]; exact hlen) (by rw [hsize]; exact hmask)
      hilt with ⟨hnone, hslot⟩ | ⟨hash, index, j, hget, hj, hpass, hcase⟩
    · obtain ⟨u', any, hrest, hre, hmore, hstill⟩ := @ih u (i + 1) h (by omega)
      refine ⟨u', any, ?_, hre, hmore, ?_⟩
      · simp [hslot, hrest]
      · intro hany
        obtain ⟨rfl, hall⟩ := hstill hany
        refine ⟨rfl, ?_⟩
        intro s h1 h2 hash index hs
        rcases Nat.eq_or_lt_of_le h1 with rfl | h1
        · rw [hnone] at hs
          cases hs
        · exact hall s h1 (by omega) hash index hs
    · rcases hcase with ⟨heq, hslot⟩ | ⟨hne, hfree, hslot⟩
      · obtain ⟨u', any, hrest, hre, hmore, hstill⟩ := @ih u (i + 1) h (by omega)
        refine ⟨u', any, ?_, hre, hmore, ?_⟩
        · simp [hslot, hrest]
        · intro hany
          obtain ⟨rfl, hall⟩ := hstill hany
          refine ⟨rfl, ?_⟩
          intro s h1 h2 hash' index' hs
          rcases Nat.eq_or_lt_of_le h1 with rfl | h1
          · rw [hget] at hs
            cases hs
            exact ⟨j, heq, fun m hm => (hpass m hm).2⟩
          · exact hall s h1 (by omega) hash' index' hs
      · have hmove := h.move (by omega) hget hj hpass hne hfree
        have hcost := tableCost_move hilt hget hj (fun m hm => (hpass m hm).1) hne hfree
        obtain ⟨u', any, hrest, hre, hmore, hstill⟩ := @ih _ (i + 1) hmove (by omega)
        refine ⟨u', true, ?_, hre, ?_, by simp⟩
        · simp [hslot, hrest]
        · intro _
          cases hany : any with
          | true => exact Nat.lt_trans (hmore hany) hcost
          | false =>
            rw [(hstill hany).1]
            exact hcost

theorem rehashLoop_spec {fuel : Nat} (h : Rehashing t u) (hf : tableCost u < fuel) :
    ∃ u', rehashLoop mask t.length fuel u = some u' ∧ Rehashing t u' ∧
      ∀ s < t.length, ∀ hash index, u'[s]? = some (some (hash, index)) → Reached u' hash s := by
  induction fuel generalizing u with
  | zero => omega
  | succ fuel ih =>
    obtain ⟨u', any, hpass, hre, hmore, hstill⟩ :=
      @rehashPass_spec t u k mask hlen hmask t.length 0 h (by omega)
    unfold rehashLoop
    cases hany : any with
    | true =>
      rw [hany] at hpass
      have hless := hmore hany
      obtain ⟨v, hv, hrv, hall⟩ := ih hre (by omega)
      refine ⟨v, ?_, hrv, hall⟩
      simp [hpass, hv]
    | false =>
      rw [hany] at hpass
      obtain ⟨rfl, hall⟩ := hstill hany
      refine ⟨u', ?_, hre, ?_⟩
      · simp [hpass]
      · intro s hs hash index he
        exact hall s (Nat.zero_le s) (by omega) hash index he

end Passes

theorem Rehashing.reached (h : Rehashing t u) {slot : Nat} {hash : UInt32} {index : Nat}
    (hslot : t.length ≤ slot) (hget : u[slot]? = some (some (hash, index))) :
    Reached u hash slot := by
  obtain ⟨hle, hup, hstays⟩ := h.upper slot hash index hslot hget
  have hlt : slot < u.length := (List.getElem?_eq_some_iff.mp hget).1
  have hmod : ∀ m, newHome t hash + m ≤ slot →
      (hash.toNat + m) % u.length = newHome t hash + m := by
    intro m hm
    have : (hash.toNat + m) % u.length = (newHome t hash + m) % u.length := by
      unfold newHome
      rw [h.size, Nat.mod_add_mod]
    rw [this, Nat.mod_eq_of_lt (by omega)]
  refine ⟨slot - newHome t hash, ?_, ?_⟩
  · rw [hmod _ (by omega)]
    omega
  · intro m hm
    rw [hmod m (by omega)]
    by_cases hlow : newHome t hash + m < t.length
    · have hst := hstays _ (Nat.le_add_right _ m) hlow
      obtain ⟨e, he⟩ := hst.used
      rw [h.stays _ hst, he]
      simp
    · exact hup _ (Nat.le_add_right _ m) (by omega) (by omega)

end Rehash

theorem TdcpmHashTable.Holds.realloc_spec {table : TdcpmHashTable} {hashes : List UInt32}
    (h : table.Holds hashes) (hok : EnlargeOk table.htable)
    (hsmall : table.htable.length < 2 ^ 32) :
    ∃ table', table.realloc (2 * table.htable.length) = some table' ∧ table'.Holds hashes ∧
      table'.htable.length = 2 * table.htable.length := by
  obtain ⟨k, hk, -, hlen⟩ := h.size
  have hpos : 0 < table.htable.length := by
    rw [hlen]
    exact Nat.two_pow_pos k
  have hk32 : k + 1 ≤ 32 := by
    by_contra hc
    have hpow : 2 ^ 32 ≤ 2 ^ k := Nat.pow_le_pow_right (by omega) (by omega)
    omega
  have hlen2 : 2 * table.htable.length = 2 ^ (k + 1) := by
    rw [hlen, Nat.pow_succ]
    omega
  have hold : (if table.htable = [] then 0 else (table.mask + 1) % 2 ^ 32) =
      table.htable.length := by
    rw [if_neg (List.ne_nil_of_length_pos hpos), h.mask_eq, Nat.sub_add_cancel hpos,
      Nat.mod_eq_of_lt hsmall]
  have hmask : (2 * table.htable.length - 1) % 2 ^ 32 = 2 * table.htable.length - 1 := by
    have hpow : 2 ^ (k + 1) ≤ 2 ^ 32 := Nat.pow_le_pow_right (by omega) hk32
    exact Nat.mod_eq_of_lt (by omega)
  have htake : table.htable.take table.htable.length ++
      List.replicate (2 * table.htable.length - table.htable.length) none =
      table.htable ++ List.replicate table.htable.length none := by
    rw [List.take_length]
    congr 2
    omega
  have hstart := Rehashing.start hok
  have hcost := tableCost_le (table.htable ++ List.replicate table.htable.length none)
  rw [hstart.size] at hcost
  obtain ⟨u, hu, hre, hlow⟩ := rehashLoop_spec hlen2 hmask hstart (Nat.lt_succ_of_le hcost)
  refine ⟨⟨u, 2 * table.htable.length - 1⟩, ?_, ?_, hre.size⟩
  · unfold TdcpmHashTable.realloc
    dsimp only
    rw [hold, htake, hmask]
    rw [hmask] at hu
    simp [hu]
  · refine ⟨⟨k + 1, by omega, hk32, hre.size.trans hlen2⟩, ?_, ?_, hre.entries.trans h.entries, ?_⟩
    · dsimp only
      rw [hre.size]
    · have := h.room
      have := hre.size
      dsimp only
      omega
    · intro slot hash index hget
      by_cases hslot : slot < table.htable.length
      · exact hlow slot hslot hash index hget
      · exact hre.reached (by omega) hget

theorem init_realloc {k : Nat} (hk : 0 < k) (hk32 : k ≤ 32) :
    ∃ table', TdcpmHashTable.init.realloc (2 ^ k) = some table' ∧ table'.Holds [] ∧
      table'.htable.length = 2 ^ k := by
  have hpow : 2 ^ k ≤ 2 ^ 32 := Nat.pow_le_pow_right (by omega) hk32
  have hpos := Nat.two_pow_pos k
  have hmask : (2 ^ k - 1) % 2 ^ 32 = 2 ^ k - 1 := Nat.mod_eq_of_lt (by omega)
  refine ⟨⟨List.replicate (2 ^ k) none, 2 ^ k - 1⟩, ?_, ?_, List.length_replicate⟩
  · unfold TdcpmHashTable.realloc
    rw [hmask]
    simp [TdcpmHashTable.init, rehashLoop, rehashPass]
  · refine ⟨⟨k, hk, hk32, List.length_replicate⟩, ?_, ?_, ?_, ?_⟩
    · dsimp only
      rw [List.length_replicate]
    · dsimp only
      rw [List.length_replicate]
      exact hpos
    · unfold entriesOf
      rw [List.filterMap_replicate_of_none rfl]
      exact List.Perm.refl _
    · intro slot hash index hget
      dsimp only at hget
      rw [List.getElem?_replicate] at hget
      split at hget <;> cases hget

end Ucesb
