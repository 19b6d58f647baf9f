import Ucesb.StickyStep

namespace Ucesb

/-- Subevents of the event, as `locate_subevents` finds them. -/
def LmdEventOut.located (e : LmdEventOut) : List (List UInt8) :=
  match locateSubevents (nativeData e.more) with
  | .ok subs => subs
  | .error _ => []

def LmdEventOut.tstamps (e : LmdEventOut) : List (List UInt8) := e.located.takeWhile subIsTstamp

def LmdEventOut.stickySubs (e : LmdEventOut) : List (List UInt8) :=
  e.located.dropWhile subIsTstamp

/-- The event passed the checks of `locate_subevents` and of `copy_to_buffer`. -/
structure LmdEventOut.Located (e : LmdEventOut) : Prop where
  copyable : e.Copyable
  located : locateSubevents (nativeData e.more) = .ok e.located

/-- The checks that `insert` makes. -/
structure LmdEventOut.Storable (e : LmdEventOut) : Prop extends e.Located where
  size : e.getLength / 2 % 2 ^ 32 * 2 = e.getLength
  sticky : e.header.isSticky = true
  tstampFirst : ∀ b ∈ e.stickySubs, subIsTstamp b = false

def LmdEventOut.storedHeader (e : LmdEventOut) : List UInt8 :=
  { e.header with lDlen := UInt32.ofNat (e.getLength / 2) }.encode ++ e.info.encode ++
    e.tstamps.flatten

/-- Pieces as the loops of `insert` step through the data: each is as long as its own `l_dlen`
gives, and starts where a header still fits. -/
def SubeventWalk : List (List UInt8) → Prop
  | [] => True
  | b :: subs => sizeofSubevent101 ≤ (b :: subs).flatten.length ∧ subLength b = b.length ∧
      SubeventWalk subs

theorem walk_of_whole {subs : List (List UInt8)} (h : ∀ b ∈ subs, WholeSubevent b) :
    SubeventWalk subs := by
  induction subs with
  | nil => trivial
  | cons b subs ih =>
    have hb := h b (by simp)
    refine ⟨?_, hb.length, ih fun c hc => h c (by simp [hc])⟩
    rw [List.flatten_cons, List.length_append]
    exact Nat.le_trans hb.header (Nat.le_add_right _ _)

theorem walk_length_le {subs : List (List UInt8)} (h : SubeventWalk subs) :
    subs.length ≤ subs.flatten.length := by
  induction subs with
  | nil => simp
  | cons b subs ih =>
    have htail := ih h.2.2
    have hb := eight_le_subLength b
    rw [h.2.1] at hb
    rw [List.length_cons, List.flatten_cons, List.length_append]
    omega

theorem walk_append_right {xs ys : List (List UInt8)} (h : SubeventWalk (xs ++ ys)) :
    SubeventWalk ys := by
  induction xs with
  | nil => exact h
  | cons b xs ih => exact ih h.2.2

theorem walk_whole {subs : List (List UInt8)} {b : List UInt8} (hw : SubeventWalk subs) (hb : b ∈ subs)
    (hlong : ¬ rd32 b < 2) : WholeSubevent b := by
  induction subs with
  | nil => simp at hb
  | cons c subs ih =>
    rcases List.mem_cons.mp hb with rfl | hb
    · rw [← subLength_lt_header, hw.2.1, Nat.not_lt] at hlong
      exact ⟨hlong, hw.2.1⟩
    · exact ih hw.2.2 hb

theorem walk_bad {subs whole : List (List UInt8)} {rest : List UInt8} (hw : SubeventWalk subs)
    (hlong : ∀ b ∈ subs, ¬ rd32 b < 2) (hwhole : ∀ b ∈ whole, WholeSubevent b)
    (h : subs.flatten = whole.flatten ++ rest) (hrest : sizeofSubevent101 ≤ rest.length)
    (hrev : subIsRevoke rest = false) (hbad : rd32 rest < 2 ∨ rest.length < 8 + 2 * rd32 rest) :
    False := by
  have h12 : sizeofSubevent101 = 12 := rfl
  induction whole generalizing subs with
  | nil =>
    rw [List.flatten_nil, List.nil_append] at h
    cases subs with
    | nil =>
      rw [← h] at hrest
      simp [h12] at hrest
    | cons b subs =>
      have h8 : 8 ≤ b.length := hw.2.1 ▸ eight_le_subLength b
      rw [List.flatten_cons] at h
      have hrd : rd32 rest = rd32 b := by rw [← h, rd32_append _ (by omega)]
      have hrevb : subIsRevoke b = false := by rw [← hrev, ← h, subIsRevoke_append _ h8]
      have hlen := subLength_eq b
      rw [hw.2.1, hrevb, if_neg (by simp)] at hlen
      have hle : b.length ≤ rest.length := by
        rw [← h, List.length_append]
        omega
      have := hlong b (by simp)
      omega
  | cons p whole ih =>
    have hp := hwhole p (by simp)
    have hph := hp.header
    cases subs with
    | nil =>
      have hz := congrArg List.length h
      simp at hz
      omega
    | cons b subs =>
      have h8 : 8 ≤ b.length := hw.2.1 ▸ eight_le_subLength b
      rw [List.flatten_cons, List.flatten_cons, List.append_assoc] at h
      have hlen : b.length = p.length := by
        rw [← hw.2.1, ← hp.length, ← subLength_append subs.flatten h8, h,
          subLength_append _ (by omega)]
      obtain ⟨rfl, htail⟩ := List.append_inj h hlen
      exact ih hw.2.2 (fun c hc => hlong c (by simp [hc])) (fun c hc => hwhole c (by simp [hc]))
        htail

theorem walk_short {subs : List (List UInt8)} (hw : SubeventWalk subs) (h : ∃ b ∈ subs, rd32 b < 2) :
    ∃ (whole : List (List UInt8)) (rest : List UInt8), subs.flatten = whole.flatten ++ rest ∧
      (∀ b ∈ whole, WholeSubevent b) ∧ sizeofSubevent101 ≤ rest.length ∧ rd32 rest < 2 := by
  induction subs with
  | nil => simp at h
  | cons b subs ih =>
    have h8 : 8 ≤ b.length := hw.2.1 ▸ eight_le_subLength b
    by_cases hb : rd32 b < 2
    · refine ⟨[], (b :: subs).flatten, rfl, by simp, hw.1, ?_⟩
      rw [List.flatten_cons, rd32_append _ (by omega)]
      exact hb
    · obtain ⟨c, hc, hshort⟩ := h
      have hc : c ∈ subs := by
        rcases List.mem_cons.mp hc with rfl | hc
        · exact absurd hshort hb
        · exact hc
      obtain ⟨whole, rest, hflat, hwhole, hrest, hs⟩ := ih hw.2.2 ⟨c, hc, hshort⟩
      refine ⟨b :: whole, rest, by simp [hflat], ?_, hrest, hs⟩
      intro d hd
      rcases List.mem_cons.mp hd with rfl | hd
      · exact walk_whole hw (by simp) hb
      · exact hwhole d hd

theorem walk_long {subs whole : List (List UInt8)} (hw : SubeventWalk subs)
    (hwhole : ∀ b ∈ whole, WholeSubevent b) (h : subs.flatten = whole.flatten) :
    ∀ b ∈ subs, ¬ rd32 b < 2 := by
  intro b hb hs
  obtain ⟨before, rest, hflat, hbefore, hrest, hshort⟩ := walk_short hw ⟨b, hb, hs⟩
  have hlong : ∀ c ∈ whole, ¬ rd32 c < 2 := by
    intro c hc
    rw [← subLength_lt_header, (hwhole c hc).length, Nat.not_lt]
    exact (hwhole c hc).header
  have hrev : subIsRevoke rest = false := by
    rw [subIsRevoke, beq_eq_false_iff_ne]
    intro heq
    rw [heq] at hshort
    exact absurd hshort (by decide)
  exact walk_bad (walk_of_whole hwhole) hlong hbefore (h.symm.trans hflat) hrest hrev
    (.inl hshort)

section Count

variable {raw : List UInt8}

theorem drop_flatten_cons {raw b : List UInt8} {subs : List (List UInt8)} {off : Nat}
    (h : raw.drop off = (b :: subs).flatten) :
    raw.drop off = b ++ subs.flatten ∧ raw.drop (off + b.length) = subs.flatten ∧
      raw.length - off = b.length + subs.flatten.length := by
  rw [List.flatten_cons] at h
  refine ⟨h, ?_, ?_⟩
  · rw [← List.drop_drop, h, List.drop_left]
  · rw [← List.length_drop, h, List.length_append]

theorem countSubevents_cons {fuel off n rawLen : Nat} {b : List UInt8} {subs : List (List UInt8)}
    (h : raw.drop off = (b :: subs).flatten) (hw : SubeventWalk (b :: subs)) :
    countSubevents raw (fuel + 1) off n rawLen =
      if subIsTstamp b then
        if n ≠ 0 then
          .error s!"Trying to store sticky event with tstamp subevent ({subType (b ++ subs.flatten)}/{subSubtype (b ++ subs.flatten)}) as non-fist subevent."
        else countSubevents raw fuel (off + b.length) n (rawLen + b.length)
      else countSubevents raw fuel (off + b.length) (n + 1) rawLen := by
  obtain ⟨hd, hd', hlen⟩ := drop_flatten_cons h
  obtain ⟨hroom, hb, _⟩ := hw
  have h8 : 8 ≤ b.length := hb ▸ eight_le_subLength b
  have h12 : sizeofSubevent101 = 12 := rfl
  rw [List.flatten_cons, List.length_append] at hroom
  rw [countSubevents, if_neg (by omega), if_neg (by omega)]
  simp only [hd, subLength_append subs.flatten h8, hb, subIsTstamp_append subs.flatten h8]
  rw [if_neg (by omega)]

theorem countSubevents_nil {fuel off n rawLen : Nat} (h : raw.drop off = []) (hle : off ≤ raw.length) :
    countSubevents raw fuel off n rawLen = .ok (n, rawLen) := by
  have hoff : off = raw.length := by
    have := List.drop_eq_nil_iff.mp h
    omega
  cases fuel with
  | zero => rfl
  | succ fuel => rw [countSubevents, if_pos hoff]

theorem countSubevents_later {fuel off n rawLen : Nat} {subs : List (List UInt8)}
    (h : raw.drop off = subs.flatten) (hle : off ≤ raw.length) (hw : SubeventWalk subs)
    (hfuel : subs.length ≤ fuel) (ht : ∀ b ∈ subs, subIsTstamp b = false) :
    countSubevents raw fuel off n rawLen = .ok (n + subs.length, rawLen) := by
  induction subs generalizing fuel off n with
  | nil => exact countSubevents_nil h hle
  | cons b subs ih =>
    obtain ⟨fuel, rfl⟩ := Nat.exists_eq_add_one_of_ne_zero (show fuel ≠ 0 by simp at hfuel; omega)
    obtain ⟨_, hd', hlen⟩ := drop_flatten_cons h
    have h8 : 8 ≤ b.length := hw.2.1 ▸ eight_le_subLength b
    rw [countSubevents_cons h hw, ht b (by simp), if_neg (by simp),
      ih hd' (by omega) hw.2.2 (by simpa using hfuel)
        (fun c hc => ht c (by simp [hc]))]
    congr 2
    rw [List.length_cons]
    omega

theorem countSubevents_first {fuel off rawLen : Nat} {subs : List (List UInt8)}
    (h : raw.drop off = subs.flatten) (hle : off ≤ raw.length) (hw : SubeventWalk subs)
    (hfuel : subs.length ≤ fuel)
    (ht : ∀ b ∈ subs.dropWhile subIsTstamp, subIsTstamp b = false) :
    countSubevents raw fuel off 0 rawLen = .ok ((subs.dropWhile subIsTstamp).length,
      rawLen + (subs.takeWhile subIsTstamp).flatten.length) := by
  induction subs generalizing fuel off rawLen with
  | nil => simpa using countSubevents_nil h hle
  | cons b subs ih =>
    obtain ⟨fuel, rfl⟩ := Nat.exists_eq_add_one_of_ne_zero (show fuel ≠ 0 by simp at hfuel; omega)
    obtain ⟨_, hd', hlen⟩ := drop_flatten_cons h
    have h8 : 8 ≤ b.length := hw.2.1 ▸ eight_le_subLength b
    cases hts : subIsTstamp b with
    | false =>
      rw [List.dropWhile_cons_of_neg (by simp [hts])] at ht ⊢
      rw [List.takeWhile_cons_of_neg (by simp [hts])]
      have hlater : countSubevents raw (fuel + 1) off 0 rawLen = _ :=
        countSubevents_later h hle hw hfuel ht
      simpa using hlater
    | true =>
      rw [List.dropWhile_cons_of_pos hts] at ht ⊢
      rw [countSubevents_cons h hw, hts, if_pos rfl, if_neg (by simp),
        ih hd' (by omega) hw.2.2 (by simpa using hfuel) ht,
        List.takeWhile_cons_of_pos hts, List.flatten_cons, List.length_append, Nat.add_assoc]

theorem countSubevents_tstamps {fuel off n rawLen : Nat} {r : Nat × Nat} {subs : List (List UInt8)}
    (h : raw.drop off = subs.flatten) (hle : off ≤ raw.length) (hw : SubeventWalk subs)
    (hfuel : subs.length ≤ fuel) (hok : countSubevents raw fuel off n rawLen = .ok r) :
    ∀ b ∈ (if n = 0 then subs.dropWhile subIsTstamp else subs), subIsTstamp b = false := by
  induction subs generalizing fuel off n rawLen with
  | nil => simp
  | cons b subs ih =>
    obtain ⟨fuel, rfl⟩ := Nat.exists_eq_add_one_of_ne_zero (show fuel ≠ 0 by simp at hfuel; omega)
    obtain ⟨_, hd', hlen⟩ := drop_flatten_cons h
    have h8 : 8 ≤ b.length := hw.2.1 ▸ eight_le_subLength b
    have hrest : ∀ m l, countSubevents raw fuel (off + b.length) m l = .ok r →
        ∀ b ∈ (if m = 0 then subs.dropWhile subIsTstamp else subs), subIsTstamp b = false :=
      fun m l => ih hd' (by omega) hw.2.2 (by simpa using hfuel)
    rw [countSubevents_cons h hw] at hok
    cases hts : subIsTstamp b with
    | false =>
      rw [hts, if_neg (by simp)] at hok
      have htail := hrest _ _ hok
      rw [if_neg (Nat.succ_ne_zero n)] at htail
      rw [List.dropWhile_cons_of_neg (by simp [hts]), ite_self]
      intro c hc
      rcases List.mem_cons.mp hc with rfl | hc
      · exact hts
      · exact htail c hc
    | true =>
      rw [hts, if_pos rfl] at hok
      split at hok
      next => cases hok
      next hn =>
        have hn : n = 0 := by simpa using hn
        have htail := hrest _ _ hok
        rw [if_pos hn] at htail ⊢
        rw [List.dropWhile_cons_of_pos hts]
        exact htail

theorem countSubevents_walk {fuel off n rawLen : Nat} {r : Nat × Nat}
    (hok : countSubevents raw fuel off n rawLen = .ok r) (hfuel : raw.length - off ≤ fuel)
    (hle : off ≤ raw.length) :
    ∃ subs : List (List UInt8), raw.drop off = subs.flatten ∧ SubeventWalk subs := by
  induction fuel generalizing off n rawLen with
  | zero => exact ⟨[], List.drop_eq_nil_iff.mpr (by omega), trivial⟩
  | succ fuel ih =>
    rw [countSubevents] at hok
    split at hok
    next hend => exact ⟨[], List.drop_eq_nil_iff.mpr (by omega), trivial⟩
    next =>
      split at hok
      next => cases hok
      next hroom =>
        simp only at hok
        split at hok
        next => cases hok
        next hnext =>
          have h8 := eight_le_subLength (raw.drop off)
          have hdrop : (raw.drop off).length = raw.length - off := List.length_drop
          obtain ⟨subs, hflat, hw⟩ : ∃ subs : List (List UInt8),
              raw.drop (off + subLength (raw.drop off)) = subs.flatten ∧ SubeventWalk subs := by
            split at hok
            next =>
              split at hok
              next => cases hok
              next => exact ih hok (by omega) (by omega)
            next => exact ih hok (by omega) (by omega)
          have hsplit : raw.drop off =
              (raw.drop off).take (subLength (raw.drop off)) ++ subs.flatten := by
            rw [← hflat, ← List.drop_drop, List.take_append_drop]
          have hlen : ((raw.drop off).take (subLength (raw.drop off))).length =
              subLength (raw.drop off) := by
            rw [List.length_take]
            omega
          refine ⟨(raw.drop off).take (subLength (raw.drop off)) :: subs, ?_, ?_, ?_, hw⟩
          · rw [List.flatten_cons]
            exact hsplit
          · rw [List.flatten_cons, ← hsplit]
            omega
          · have happ := subLength_append subs.flatten (hlen.symm ▸ h8)
            rw [← hsplit] at happ
            exact happ.symm.trans hlen.symm

end Count

def subWrites {α : Type} (discardRevoke : Bool) (header : α) (subs : List (List UInt8)) :
    List ((α × List UInt8) × Bool) :=
  subs.map fun b => ((header, b), !discardRevoke || !subIsRevoke b)

theorem lists_step {C : List (List StickyItem)} {o new : List StickyItem} {b : List UInt8}
    {w : (List UInt8 × List UInt8) × Bool} (hb : w.1.2 = b)
    (hnew : new.map (·.2) = if w.2 then [w.1] else []) :
    (C.map (List.filter (otherId b))).map (List.map (·.2)) =
        (C.map (List.map (·.2))).map (List.filter fun p => subKey p ≠ subKey w.1) ∧
      (o.filter (otherId b) ++ new).map (·.2) = putLast subKey (o.map (·.2)) w.1 w.2 := by
  subst hb
  constructor
  · rw [List.map_map, List.map_map]
    exact List.map_congr_left fun l _ => filter_map_snd l w.1.2
  · rw [List.map_append, filter_map_snd, hnew, putLast]
    rfl

theorem insertSubevents_inv {discardRevoke : Bool} {openPos evDataOff evLen fuel off : Nat}
    {header : List UInt8} {subs : List (List UInt8)} {s : StickyStore} {gs : List MetaGroup}
    {C : List (List StickyItem)} {o : List StickyItem}
    (h : StoreInv s gs openPos subs.length (evDataOff + off))
    (ho : Opened s.data gs openPos header) (hC : itemLists s.data 0 gs = C ++ [o])
    (hdata : s.data.drop (evDataOff + off) = subs.flatten)
    (hend : evDataOff + evLen = s.data.length)
    (hw : ∀ b ∈ subs, WholeSubevent b) (hfuel : subs.length ≤ fuel) :
    ∃ s' gs', insertSubevents discardRevoke openPos evDataOff evLen fuel off s = .ok s' ∧
      StoreInv s' gs' openPos 0 (evDataOff + evLen) ∧
      (gs'.map fun g => g.carried s'.data) =
        (C.map (List.map (·.2))).map (List.filter fun p =>
          (subWrites discardRevoke header subs).all fun w => subKey p ≠ subKey w.1) ++
        [runWrites subKey (o.map (·.2)) (subWrites discardRevoke header subs)] := by
  induction subs generalizing fuel off s gs C o with
  | nil =>
    have hoff : off = evLen := by
      have hle := List.drop_eq_nil_iff.mp hdata
      have := h.top_le
      omega
    refine ⟨s, gs, ?_, hoff ▸ h, ?_⟩
    · cases fuel with
      | zero => rfl
      | succ fuel => rw [insertSubevents, if_pos hoff]
    · have hall : ∀ l : List (List UInt8 × List UInt8), l.filter (fun p =>
          (subWrites discardRevoke header []).all fun w => subKey p ≠ subKey w.1) = l :=
        fun l => List.filter_eq_self.mpr fun _ _ => rfl
      rw [← itemLists_snd s.data 0 gs, hC, List.map_append, List.map_congr_left fun l _ => hall l,
        List.map_id']
      rfl
  | cons b subs ih =>
    obtain ⟨fuel, rfl⟩ := Nat.exists_eq_add_one_of_ne_zero (show fuel ≠ 0 by simp at hfuel; omega)
    obtain ⟨hd, hd', hlen⟩ := drop_flatten_cons hdata
    have hb := hw b (by simp)
    have hh := hb.header
    have h12 : sizeofSubevent101 = 12 := rfl
    have hsl : slice s.data (evDataOff + off) b.length = b := by
      rw [slice, hd, List.take_left]
    have htop := h.top_le
    obtain ⟨s₁, gs₁, hins, hinv, hopen, hds, C', o', new, hC', hC₁, hnew⟩ :=
      insertSubevent_inv h ho (hsl.symm ▸ hb) (by omega) discardRevoke
    obtain ⟨rfl, hoo⟩ := List.append_inj' (hC.symm.trans hC') rfl
    cases hoo
    rw [hsl] at hC₁ hnew
    rw [Nat.add_assoc] at hinv hd'
    obtain ⟨s', gs', hrec, hinv', hlists⟩ := ih hinv hopen hC₁ (by rw [hds]; exact hd')
      (by rw [hds]; exact hend) (fun c hc => hw c (by simp [hc])) (by simpa using hfuel)
    refine ⟨s', gs', ?_, hinv', ?_⟩
    · have hsub : subLength (s.data.drop (evDataOff + off)) = b.length := by
        rw [hd, subLength_append _ (by omega), hb.length]
      rw [insertSubevents, if_neg (by omega), hsub]
      simp only [hins]
      exact hrec
    · obtain ⟨hCm, hom⟩ := @lists_step C o new b
        ((header, b), !discardRevoke || !subIsRevoke b) rfl hnew
      rw [hlists, hCm, hom, List.map_map]
      congr 1
      apply List.map_congr_left
      intro l _
      rw [Function.comp, List.filter_filter]
      apply List.filter_congr
      intro p _
      rw [subWrites, subWrites, List.map_cons, List.all_cons, Bool.and_comm]

theorem openEvent_core {s : StickyStore} {gs : List MetaGroup} {o top evDataOff rawLen n : Nat}
    (h : CoreInv s gs o 0 top) (htop : top ≤ evDataOff)
    (hend : evDataOff + rawLen ≤ s.data.length) (hraw : sizeofEvent101 ≤ rawLen) :
    CoreInv { s with metas := s.metas ++ [.event ⟨evDataOff, rawLen, n, n⟩] }
        (gs ++ [⟨⟨evDataOff, rawLen, n, n⟩, []⟩]) s.metas.length n (evDataOff + rawLen) ∧
      Opened s.data (gs ++ [⟨⟨evDataOff, rawLen, n, n⟩, []⟩]) s.metas.length
        (slice s.data evDataOff rawLen) ∧
      itemLists s.data 0 (gs ++ [⟨⟨evDataOff, rawLen, n, n⟩, []⟩]) =
        itemLists s.data 0 gs ++ [[]] := by
  have hml : s.metas.length = (flatMetas gs).length := by rw [h.metas]
  have hlists : itemLists s.data 0 (gs ++ [⟨⟨evDataOff, rawLen, n, n⟩, []⟩]) =
      itemLists s.data 0 gs ++ [[]] := by
    rw [itemLists_append]
    rfl
  refine ⟨⟨?_, ?_, ?_, hend, ?_⟩, ⟨gs, _, rfl, hml.symm, rfl⟩, hlists⟩
  · simp [h.metas, MetaGroup.entries]
  · rw [hml]
    refine groupsOk_replace_last (coreInv_groups h) ?_ ⟨?_, ?_, by simp⟩
    · intro p hp
      rw [pendAt_of_lt n hp]
    · simp [pendAt]
    · simp [pendAt]
  · rw [piecesOf_append]
    refine laid_append.mpr ⟨top, h.laid, ?_⟩
    by_cases hn : n = 0
    · simp [MetaGroup.pieces, hn, Laid]
      omega
    · simp [MetaGroup.pieces, hn, Laid, subPieces, htop]
  · intro g hg'
    rcases List.mem_append.mp hg' with hg' | hg'
    · exact h.header g hg'
    · rw [List.mem_singleton.mp hg']
      exact hraw

theorem openEvent_inv {s : StickyStore} {gs : List MetaGroup} {o top evDataOff rawLen n : Nat}
    (h : CoreInv s gs o 0 top) (hw : ∀ x ∈ itemsOf s.data 0 gs, WholeSubevent x.2.2)
    (hids : ((itemsOf s.data 0 gs).map fun x => subId x.2.2).Nodup)
    (htable : TableOk s.hash s.hashUsed n (itemsOf s.data 0 gs))
    (htop : top ≤ evDataOff) (hend : evDataOff + rawLen ≤ s.data.length)
    (hraw : sizeofEvent101 ≤ rawLen) :
    StoreInv { s with metas := s.metas ++ [.event ⟨evDataOff, rawLen, n, n⟩] }
        (gs ++ [⟨⟨evDataOff, rawLen, n, n⟩, []⟩]) s.metas.length n (evDataOff + rawLen) ∧
      Opened s.data (gs ++ [⟨⟨evDataOff, rawLen, n, n⟩, []⟩]) s.metas.length
        (slice s.data evDataOff rawLen) ∧
      itemLists s.data 0 (gs ++ [⟨⟨evDataOff, rawLen, n, n⟩, []⟩]) =
        itemLists s.data 0 gs ++ [[]] := by
  obtain ⟨hcore, hopen, hlists⟩ := @openEvent_core _ _ _ _ _ _ n h htop hend hraw
  have hitems : itemsOf s.data 0 (gs ++ [⟨⟨evDataOff, rawLen, n, n⟩, []⟩]) =
      itemsOf s.data 0 gs := by
    rw [← itemLists_flatten, hlists, ← itemLists_flatten]
    simp
  refine ⟨⟨hcore, ?_, ?_, ?_⟩, hopen, hlists⟩
  · simp only [hitems]
    exact hw
  · simp only [hitems]
    exact hids
  · simp only [hitems]
    exact htable

/-- The checks that `insert` makes, for whatever bytes it is given: `subs` are the pieces that
its loops step through. -/
structure LmdEventOut.Accepted (e : LmdEventOut) (subs : List (List UInt8)) : Prop where
  copyable : e.Copyable
  size : e.getLength / 2 % 2 ^ 32 * 2 = e.getLength
  sticky : e.header.isSticky = true
  data : nativeData e.more = subs.flatten
  walk : SubeventWalk subs
  tstampFirst : ∀ b ∈ subs.dropWhile subIsTstamp, subIsTstamp b = false

structure LmdEventOut.Sound (e : LmdEventOut) : Prop extends e.Accepted e.located where
  whole : ∀ b ∈ e.located, WholeSubevent b

section Raw

variable {e : LmdEventOut}

theorem write_eq (e : LmdEventOut) :
    e.write = { e.header with lDlen := UInt32.ofNat (e.getLength / 2) }.encode ++ e.info.encode ++
      nativeData e.more := by
  rw [LmdEventOut.write, LmdEventOut.native_eq, List.append_assoc]

theorem located_flatten (h : e.Located) (hlen : e.getLength < 2 ^ 63) :
    nativeData e.more = e.located.flatten ∧ ∀ b ∈ e.located, WholeSubevent b := by
  have hn := LmdEventOut.native_length h.copyable
  rw [LmdEventOut.native_eq, List.length_append, LmdEventInfo.encode_length] at hn
  obtain ⟨hflat, hwhole⟩ := locateSubeventsLoop_ok (Nat.le_refl _) (by omega) h.located
  exact ⟨hflat.symm, hwhole⟩

theorem write_length (h : e.Copyable) : e.write.length = e.getLength + sizeofEventHeader := by
  rw [LmdEventOut.write, List.length_append, LmdEventOut.native_length h,
    LmdEventHeader.encode_length, sizeofEventHeader]
  omega

theorem eight_le_getLength (e : LmdEventOut) : 8 ≤ e.getLength := by
  simp [LmdEventOut.getLength, LmdEventOut.chunks, chunksLength]

theorem storable_lt (h : e.Storable) : e.getLength < 2 ^ 63 := by
  have := h.size
  omega

theorem Storable.sound (h : e.Storable) : e.Sound := by
  obtain ⟨hflat, hwhole⟩ := located_flatten h.toLocated (storable_lt h)
  exact ⟨⟨h.copyable, h.size, h.sticky, hflat, walk_of_whole hwhole, h.tstampFirst⟩, hwhole⟩

theorem storedHeader_append (h : e.Sound) : e.write = e.storedHeader ++ e.stickySubs.flatten := by
  have hsplit : e.located = e.tstamps ++ e.stickySubs := by
    rw [LmdEventOut.tstamps, LmdEventOut.stickySubs, List.takeWhile_append_dropWhile]
  rw [write_eq, h.data, hsplit, List.flatten_append, LmdEventOut.storedHeader, List.append_assoc,
    List.append_assoc, List.append_assoc]

theorem storedHeader_length (e : LmdEventOut) :
    e.storedHeader.length = sizeofEvent101 + e.tstamps.flatten.length := by
  rw [LmdEventOut.storedHeader, List.length_append, List.length_append,
    LmdEventHeader.encode_length, LmdEventInfo.encode_length, sizeofEvent101]

theorem stickySubs_whole (h : e.Sound) : ∀ b ∈ e.stickySubs, WholeSubevent b :=
  fun b hb => h.whole b (List.dropWhile_subset _ hb)

end Raw

theorem decode_write (e : LmdEventOut) :
    LmdEventHeader.decode e.write =
      { e.header with lDlen := UInt32.ofNat (e.getLength / 2) } := by
  rw [LmdEventOut.write, LmdEventHeader.decode_encode]

def StickyStore.copied (s : StickyStore) (e : LmdEventOut) : StickyStore :=
  let s := s.reserveData (e.getLength + sizeofEventHeader)
  { s with data := s.data ++ e.write }

/-- The part of `insert` after the checks. -/
def StickyStore.insertCounted (s : StickyStore) (e : LmdEventOut) (discardRevoke : Bool)
    (numSev evRawDataLen : Nat) : Except String StickyStore := do
  let evDataOff := (s.reserveData (e.getLength + sizeofEventHeader)).data.length
  let (s, recalcHash) := (s.copied e).reserveMeta (sizeofMetaEntry + numSev * sizeofMetaEntry)
  let s ← s.reserveHash numSev recalcHash
  insertSubevents discardRevoke s.metas.length evDataOff (e.getLength + sizeofEventHeader)
    (e.getLength + sizeofEventHeader) evRawDataLen
    { s with metas := s.metas ++ [.event ⟨evDataOff, evRawDataLen, numSev, numSev⟩] }

section Accepted

variable {e : LmdEventOut} {subs : List (List UInt8)}

theorem write_drop (h : nativeData e.more = subs.flatten) :
    e.write.drop sizeofEvent101 = subs.flatten := by
  rw [write_eq, h]
  rfl

theorem LmdEventOut.Accepted.write_split (h : e.Accepted subs) :
    e.write.drop sizeofEvent101 =
      (subs.takeWhile subIsTstamp).flatten ++ (subs.dropWhile subIsTstamp).flatten := by
  rw [write_drop h.data, ← List.flatten_append, List.takeWhile_append_dropWhile]

theorem LmdEventOut.Accepted.walk_rest (h : e.Accepted subs) :
    SubeventWalk (subs.dropWhile subIsTstamp) := by
  have hw := h.walk
  rw [← @List.takeWhile_append_dropWhile _ subIsTstamp subs] at hw
  exact walk_append_right hw

theorem sixteen_le_write (h : e.Copyable) : sizeofEvent101 ≤ e.write.length := by
  have h8 := eight_le_getLength e
  rw [write_length h, sizeofEvent101, sizeofEventHeader]
  omega

theorem accepted_length_le (h : e.Copyable) (hdata : nativeData e.more = subs.flatten)
    (hw : SubeventWalk subs) : subs.length ≤ e.getLength + sizeofEventHeader := by
  have hle := walk_length_le hw
  rw [← write_drop hdata, List.length_drop, write_length h] at hle
  omega

theorem countSubevents_write (h : e.Accepted subs) :
    countSubevents e.write (e.getLength + sizeofEventHeader) sizeofEvent101 0 sizeofEvent101 =
      .ok ((subs.dropWhile subIsTstamp).length,
        sizeofEvent101 + (subs.takeWhile subIsTstamp).flatten.length) :=
  countSubevents_first (write_drop h.data) (sixteen_le_write h.copyable) h.walk
    (accepted_length_le h.copyable h.data h.walk) h.tstampFirst

theorem insert_eq_counted (h : e.Accepted subs) (s : StickyStore) (discardRevoke : Bool) :
    s.insert e discardRevoke = s.insertCounted e discardRevoke
      (subs.dropWhile subIsTstamp).length
      (sizeofEvent101 + (subs.takeWhile subIsTstamp).flatten.length) := by
  have h8 := eight_le_getLength e
  have hsize : (UInt32.ofNat (e.getLength / 2)).toNat * 2 = e.getLength := by
    rw [UInt32.toNat_ofNat']
    exact h.size
  have hsticky : LmdEventHeader.isSticky
      { e.header with lDlen := UInt32.ofNat (e.getLength / 2) } = true := h.sticky
  rw [StickyStore.insert, decode_write]
  simp only [hsize, hsticky, Bool.not_true, countSubevents_write h]
  rw [if_neg (by simp), if_neg (by rw [sizeofEvent101, sizeofEventHeader]; omega),
    if_neg (by simp)]
  rfl

end Accepted

theorem reserve_inv {s : StickyStore} {gs : List MetaGroup} {o top : Nat}
    (h : StoreInv s gs o 0 top) (metaAdd numSev : Nat) :
    ∃ s' gs', (s.reserveMeta metaAdd).1.reserveHash numSev (s.reserveMeta metaAdd).2 = .ok s' ∧
      CoreInv s' gs' o 0 top ∧ s'.data = s.data ∧
      (∀ x ∈ itemsOf s'.data 0 gs', WholeSubevent x.2.2) ∧
      ((itemsOf s'.data 0 gs').map fun x => subId x.2.2).Nodup ∧
      TableOk s'.hash s'.hashUsed numSev (itemsOf s'.data 0 gs') ∧
      liveLists s'.data gs' = liveLists s.data gs := by
  generalize hr : s.reserveMeta metaAdd = p
  obtain ⟨s₁, recalc⟩ := p
  obtain ⟨gs₁, h₁, hd₁, hh₁, hu₁, hlists₁, hsame₁⟩ := reserveMeta_inv h.toCoreInv hr
  have hsnd₁ := @items_snd _ _ 0 0 _ _ hlists₁
  have hwhole₁ : ∀ x ∈ itemsOf s₁.data 0 gs₁, WholeSubevent x.2.2 := by
    rw [hd₁]
    exact items_whole hsnd₁ h.whole
  have hcount₁ : (itemsOf s₁.data 0 gs₁).length ≤ s₁.hashUsed := by
    rw [hd₁, items_length hsnd₁, hu₁]
    exact tableOk_count h.table
  have htable₁ : recalc = false → TableOk s₁.hash s₁.hashUsed 0 (itemsOf s₁.data 0 gs₁) := by
    intro hrec
    obtain ⟨rfl, hm⟩ := hsame₁ hrec
    rw [hh₁, hu₁, hd₁]
    exact h.table
  obtain ⟨t, used, hres, htable⟩ := @reserveHash_inv s₁ gs₁ o top numSev recalc h₁
    (by rw [hh₁]; exact h.table.size) hwhole₁ hcount₁ htable₁
  refine ⟨_, gs₁, hres, ⟨h₁.metas, h₁.groups, h₁.laid, h₁.top_le, h₁.header⟩, hd₁, hwhole₁,
    ?_, htable, ?_⟩
  · simp only [hd₁, items_ids hsnd₁]
    exact h.ids
  · simp only [hd₁]
    exact hlists₁

theorem copied_inv {s : StickyStore} {gs : List MetaGroup} {o top : Nat}
    (h : StoreInv s gs o 0 top) (e : LmdEventOut) :
    ∃ gs' top', StoreInv (s.copied e) gs' o 0 top' ∧
      top' ≤ (s.reserveData (e.getLength + sizeofEventHeader)).data.length ∧
      liveLists (s.copied e).data gs' = liveLists s.data gs := by
  obtain ⟨gs₁, top₁, h₁, hit₁⟩ := reserveData_inv h (e.getLength + sizeofEventHeader)
  refine ⟨gs₁, top₁, storeInv_append_data h₁ e.write, h₁.top_le, ?_⟩
  have hlists := (itemLists_append_data h₁.toCoreInv e.write).trans hit₁
  have hcar := congrArg (List.map (List.map fun x : StickyItem => x.2)) hlists
  rw [itemLists_snd, itemLists_snd] at hcar
  rw [liveLists, liveLists, ← hcar]
  rfl

theorem insert_inv {s : StickyStore} {gs : List MetaGroup} {o top : Nat} {e : LmdEventOut}
    (h : StoreInv s gs o 0 top) (he : e.Sound) (discardRevoke : Bool) :
    ∃ s' gs' o' top', s.insert e discardRevoke = .ok s' ∧ StoreInv s' gs' o' 0 top' ∧
      liveLists s'.data gs' = writeGroup subKey (liveLists s.data gs)
        (subWrites discardRevoke e.storedHeader e.stickySubs) := by
  have hwl := write_length he.copyable
  have hraw := storedHeader_append he
  have h16 : sizeofEvent101 = 16 := rfl
  have hsh := storedHeader_length e
  obtain ⟨gs₂, top₂, h₂, htop₂, hlists₂⟩ := copied_inv h e
  have hcopied : (s.copied e).data =
      (s.reserveData (e.getLength + sizeofEventHeader)).data ++ e.write := rfl
  rw [insert_eq_counted he.toAccepted, ← LmdEventOut.tstamps, ← LmdEventOut.stickySubs, ← hsh,
    StickyStore.insertCounted]
  generalize (s.reserveData (e.getLength + sizeofEventHeader)).data = data₁ at *
  -- room in the other two arrays
  obtain ⟨s₄, gs₄, hres, h₄, hd₄, hwhole₄, hids, htable, hlists₄⟩ :=
    reserve_inv h₂ (sizeofMetaEntry + e.stickySubs.length * sizeofMetaEntry) e.stickySubs.length
  have hlen₄ : s₄.data.length = data₁.length + e.write.length := by
    rw [hd₄, hcopied, List.length_append]
  have hwlen : e.write.length = e.storedHeader.length + e.stickySubs.flatten.length := by
    rw [hraw, List.length_append]
  obtain ⟨h₅, hopen, hit₅⟩ := openEvent_inv h₄ hwhole₄ hids htable htop₂
    (by rw [hlen₄]; omega) (by rw [hsh]; omega : sizeofEvent101 ≤ e.storedHeader.length)
  have hheader : slice s₄.data data₁.length e.storedHeader.length = e.storedHeader := by
    rw [hd₄, hcopied, hraw, slice, List.drop_left, List.take_left]
  have hsubs : s₄.data.drop (data₁.length + e.storedHeader.length) = e.stickySubs.flatten := by
    rw [hd₄, hcopied, hraw, ← List.drop_drop, List.drop_left, List.drop_left]
  have hfuel : e.stickySubs.length ≤ e.getLength + sizeofEventHeader := by
    have hle := walk_length_le (walk_of_whole (stickySubs_whole he))
    omega
  rw [hheader] at hopen
  obtain ⟨s', gs', hins, hinv, hlists⟩ :=
    @insertSubevents_inv discardRevoke _ _ (e.getLength + sizeofEventHeader) _ _ _ _ _ _ _ _
      h₅ hopen hit₅ hsubs (by rw [← hwl]; exact hlen₄.symm) (stickySubs_whole he) hfuel
  refine ⟨s', gs', _, _, ?_, hinv, ?_⟩
  · simp only [bind, Except.bind, hres]
    exact hins
  · rw [← hlists₂, ← hlists₄, liveLists, hlists, itemLists_snd, liveLists, writeGroup_nonempty,
      writeGroup]
    rfl

end Ucesb
