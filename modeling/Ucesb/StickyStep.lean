import Ucesb.StickyInsert
import Ucesb.LastWriter

namespace Ucesb

theorem sameId_item {s : StickyStore} {gs : List MetaGroup} {openPos pend top : Nat}
    (h : CoreInv s gs openPos pend top) {x : StickyItem} (hx : x ∈ itemsOf s.data 0 gs)
    (hw : WholeSubevent x.2.2) (bs : List UInt8) :
    s.sameId bs x.1 = (subId bs == subId x.2.2) := by
  obtain ⟨sev, d, _, hget, hd, hsl⟩ := itemsOf_mem hx
  rw [hsl] at hw ⊢
  rw [Nat.sub_zero, ← h.metas] at hget
  simp only [StickyStore.sameId, hget, hd]
  rw [subId_drop hw]

theorem sameId_true {s : StickyStore} {gs : List MetaGroup} {openPos pend top off : Nat}
    (h : CoreInv s gs openPos pend top) {bs : List UInt8} (hs : s.sameId bs off = true) :
    ∃ gs₁ ev subs₁ sev subs₂ gs₂ d, gs = gs₁ ++ ⟨ev, subs₁ ++ sev :: subs₂⟩ :: gs₂ ∧
      off = (flatMetas gs₁).length + (subs₁.length + 1) ∧ sev.dataOffset = some d := by
  rw [StickyStore.sameId, h.metas] at hs
  split at hs
  next sev hget =>
    split at hs
    next d hd =>
      obtain ⟨gs₁, g, gs₂, subs₁, subs₂, rfl, hsub, hoff⟩ := flatMetas_subevent hget
      obtain ⟨ev, subs⟩ := g
      simp only at hsub
      subst hsub
      exact ⟨gs₁, ev, subs₁, sev, subs₂, gs₂, d, rfl, hoff, hd⟩
    next => simp at hs
  next => simp at hs

def subKey (p : List UInt8 × List UInt8) : Nat × Nat := subId p.2

/-- The table once an older version of the subevent is gone: `rest` are the items left, and
the entry `dest` may be put in. -/
structure Cleared (hash : List (HashSlot Nat)) (used dest pend start : Nat)
    (rest : List StickyItem) : Prop where
  size : ∃ k, hash.length = 2 ^ k
  filled : filled hash ≤ used
  room : used + pend ≤ hash.length / 2
  exact : (usedOf hash).Perm (rest.map (·.1))
  found : Findable hash (rest.map fun x => (x.1, stickySubeventHash x.2.2))
  put : ∀ i slot, hash[i]? = some slot →
    (∀ e, Reach hash start e → hash[e]? = some .discarded → slot ≠ .empty) →
    Ucesb.filled (hash.set i (.used dest)) ≤ used

def otherId (bs : List UInt8) (x : StickyItem) : Bool := subId x.2.2 ≠ subId bs

theorem map_filter_flatten {α : Type} (p : α → Bool) (L : List (List α)) :
    (L.map (List.filter p)).flatten = L.flatten.filter p := List.filter_flatten.symm

section Clear

variable {s s₁ : StickyStore} {gs gs₁ : List MetaGroup} {openPos pend top top' : Nat}
  {header bs : List UInt8} {C : List (List StickyItem)} {o new : List StickyItem}

theorem items_of_lists {data : List UInt8} (h : itemLists data 0 gs = C ++ [o]) :
    itemsOf data 0 gs = C.flatten ++ o := by
  rw [← itemLists_flatten, h]
  simp

theorem clear_found (h : StoreInv s gs openPos (pend + 1) top)
    (h₁ : CoreInv s₁ gs₁ openPos pend top') (ho : Opened s₁.data gs₁ openPos header)
    (hhash : s₁.hash = s.hash) (hused : s₁.hashUsed = s.hashUsed)
    (hC : itemLists s.data 0 gs = C ++ [o]) (hC₁ : itemLists s₁.data 0 gs₁ = C ++ [o ++ new])
    (hnew : ∀ x ∈ new, x.1 = s.metas.length) (hw : ∀ x ∈ new, WholeSubevent x.2.2) {k entry off : Nat} (hk : s.hash.length = 2 ^ k)
    (hreach : Reach s.hash (stickySubeventHash bs) entry)
    (hentry : s.hash[entry]? = some (.used off)) (hsame : s₁.sameId bs off = true) :
    ∃ gs₂, CoreInv (s₁.supersede entry off) gs₂ openPos pend top' ∧
      Opened s₁.data gs₂ openPos header ∧ (s₁.supersede entry off).data = s₁.data ∧
      itemLists s₁.data 0 gs₂ =
        C.map (List.filter (otherId bs)) ++ [o.filter (otherId bs) ++ new] ∧
      Cleared (s₁.supersede entry off).hash (s₁.supersede entry off).hashUsed s.metas.length pend
        (stickySubeventHash bs) ((itemsOf s.data 0 gs).filter (otherId bs)) := by
  obtain ⟨gsa, ev, subs₁, sev, subs₂, gsb, d, rfl, rfl, hd⟩ := sameId_true h₁ hsame
  have heq := supersede_eq h₁ entry
  obtain ⟨hlists, hx₁⟩ := @supersede_lists gsa gsb ev subs₁ subs₂ sev d s₁.data hd
  have hcore := supersede_core hd h₁ entry
  generalize (flatMetas gsa).length + (subs₁.length + 1) = off at *
  have hitems := items_of_lists hC
  have hitems₁ : itemsOf s₁.data 0 (gsa ++ ⟨ev, subs₁ ++ sev :: subs₂⟩ :: gsb) =
      itemsOf s.data 0 gs ++ new := by
    rw [items_of_lists hC₁, hitems, List.append_assoc]
  have hwhole : ∀ y ∈ itemsOf s.data 0 gs ++ new, WholeSubevent y.2.2 := by
    intro y hy
    rcases List.mem_append.mp hy with hy | hy
    · exact h.whole y hy
    · exact hw y hy
  have hid := sameId_item h₁ hx₁ (hwhole _ (hitems₁ ▸ hx₁)) bs
  rw [hsame, eq_comm, beq_iff_eq] at hid
  have hlt : ∀ y ∈ itemsOf s.data 0 gs, y.1 < s.metas.length := by
    intro y hy
    obtain ⟨_, _, _, hget, _⟩ := itemsOf_mem hy
    rw [h.metas]
    exact (List.getElem?_eq_some_iff.mp hget).1
  obtain ⟨z, hz, hzoff⟩ := tableOk_item h.table hentry
  rw [hitems₁] at hx₁
  have hx : (off, slice s₁.data ev.dataOffset ev.dataLength, slice s₁.data d sev.dataLength) ∈
      itemsOf s.data 0 gs := by
    rcases List.mem_append.mp hx₁ with hx | hx
    · exact hx
    · have hoff : off = s.metas.length := hnew _ hx
      have := hlt z hz
      omega
  have hnewf : new.filter (fun y => y.1 ≠ off) = new := by
    apply List.filter_eq_self.mpr
    intro y hy
    have := hnew y hy
    have := hlt _ hx
    simp only [decide_eq_true_eq] at this ⊢
    omega
  -- among the old items, those at another offset are those with another id
  have hcongr : ∀ y ∈ itemsOf s.data 0 gs, decide (y.1 ≠ off) = otherId bs y := by
    intro y hy
    have hysame := sameId_item h₁ (hitems₁ ▸ List.mem_append_left new hy) (h.whole y hy) bs
    have hiff : y.1 = off ↔ subId y.2.2 = subId bs := by
      constructor
      · intro he
        rw [he, hsame, eq_comm, beq_iff_eq] at hysame
        exact hysame.symm
      · intro he
        rw [List.inj_on_of_nodup_map h.ids hy hx (he.trans hid)]
    simp [otherId, hiff]
  have hpart : itemLists s₁.data 0 (gsa ++ ⟨ev.decLive, subs₁ ++ sev.kill :: subs₂⟩ :: gsb) =
      C.map (List.filter (otherId bs)) ++ [o.filter (otherId bs) ++ new] := by
    rw [hlists, hC₁, List.map_append, List.map_singleton, List.filter_append, hnewf]
    congr 1
    · apply List.map_congr_left
      intro l hl
      apply List.filter_congr
      intro y hy
      exact hcongr y (by rw [hitems]; exact List.mem_append_left _ (List.mem_flatten_of_mem hl hy))
    · congr 2
      apply List.filter_congr
      intro y hy
      exact hcongr y (by rw [hitems]; exact List.mem_append_right _ hy)
  have hfilter : (itemsOf s.data 0 gs).filter (otherId bs) =
      (itemsOf s.data 0 gs).filter (fun y => y.1 ≠ off) :=
    List.filter_congr fun y hy => (hcongr y hy).symm
  have hperm : ((itemsOf s.data 0 gs).map (·.1)).Perm
      (off :: ((itemsOf s.data 0 gs).filter (otherId bs)).map (·.1)) := by
    have hn := itemsOf_fst_nodup s.data 0 gs
    have hmem : off ∈ (itemsOf s.data 0 gs).map (·.1) := List.mem_map.mpr ⟨_, hx, rfl⟩
    have herase := List.perm_cons_erase hmem
    rw [hn.erase_eq_filter] at herase
    rw [hfilter]
    refine herase.trans (List.Perm.cons _ (List.Perm.of_eq ?_))
    rw [List.filter_map]
    congr 1
    apply List.filter_congr
    intro y _
    rw [Function.comp, bne, beq_eq_decide, decide_not]
  have hfilled := filled_set_of_ne_empty (s := .discarded) hentry (by simp)
  rw [heq] at hcore ⊢
  refine ⟨_, hcore, opened_replace ho (by simp) rfl, rfl, hpart, ?_⟩
  simp only [hhash, hused]
  refine ⟨⟨k, by simp [hk]⟩, Nat.le_trans hfilled h.table.filled, ?_, ?_, ?_, ?_⟩
  · have := h.table.room
    rw [List.length_set]
    omega
  · exact List.Perm.cons_inv ((usedOf_discard hentry).symm.trans (h.table.exact.trans hperm))
  · apply findable_set h.table.found (by simp)
    intro y hy
    obtain ⟨z, hz, rfl⟩ := List.mem_map.mp hy
    rw [hfilter] at hz
    obtain ⟨hzm, hzo⟩ := List.mem_filter.mp hz
    refine ⟨List.mem_map_of_mem hzm, ?_⟩
    rw [hentry]
    intro he
    cases he
    simp at hzo
  · intro i slot hi hslot
    have hlt : entry < s.hash.length := (List.getElem?_eq_some_iff.mp hentry).1
    have hne : slot ≠ .empty := by
      apply hslot entry (reach_set hreach (by simp))
      rw [List.getElem?_set, if_pos rfl, if_pos hlt]
    have := filled_set_of_ne_empty (s := .used s.metas.length) hi hne
    have := h.table.filled
    omega

theorem clear_absent (h : StoreInv s gs openPos (pend + 1) top)
    (h₁ : CoreInv s₁ gs₁ openPos pend top')
    (hitems : ∀ y ∈ itemsOf s.data 0 gs, y ∈ itemsOf s₁.data 0 gs₁) {k : Nat}
    (hk : s.hash.length = 2 ^ k)
    (hnone : ∀ e a, Reach s.hash (stickySubeventHash bs) e → s.hash[e]? = some (.used a) →
      s₁.sameId bs a = false) :
    (∀ y ∈ itemsOf s.data 0 gs, otherId bs y = true) ∧
      Cleared s.hash (s.hashUsed + 1) s.metas.length pend (stickySubeventHash bs)
        ((itemsOf s.data 0 gs).filter (otherId bs)) := by
  have htab := h.table
  have hother : ∀ y ∈ itemsOf s.data 0 gs, otherId bs y = true := by
    intro y hy
    by_contra hc
    have hid : subId y.2.2 = subId bs := by simpa [otherId] using hc
    obtain ⟨i, hi, hr⟩ := htab.found (y.1, stickySubeventHash y.2.2)
      (List.mem_map_of_mem (f := fun x : StickyItem => (x.1, stickySubeventHash x.2.2)) hy)
    rw [stickySubeventHash_congr hid] at hr
    have hfalse := hnone i y.1 hr hi
    rw [sameId_item h₁ (hitems y hy) (h.whole y hy) bs, hid] at hfalse
    simp at hfalse
  refine ⟨hother, ?_⟩
  rw [List.filter_eq_self.mpr hother]
  have := htab.room
  have := htab.filled
  refine ⟨⟨k, hk⟩, by omega, by omega, htab.exact, htab.found, ?_⟩
  intro i slot _ _
  have := filled_set_le s.hash i (.used s.metas.length)
  omega

end Clear

theorem filter_map_snd (items : List StickyItem) (bs : List UInt8) :
    (items.filter (otherId bs)).map (·.2) =
      (items.map (·.2)).filter fun p => subId p.2 ≠ subId bs := by
  rw [List.filter_map]
  rfl

section Table

variable {hash : List (HashSlot Nat)} {used dest pend : Nat} {bs header b : List UInt8}
  {rest : List StickyItem}

theorem cleared_table (h : Cleared hash used dest pend (stickySubeventHash bs) rest) :
    TableOk hash used pend rest :=
  ⟨.inr h.size, h.filled, h.room, h.exact, h.found⟩

theorem cleared_put (h : Cleared hash used dest pend (stickySubeventHash bs) rest)
    (hid : subId bs = subId b) :
    ∃ entry, findFree hash (stickySubeventHash bs) = some entry ∧
      TableOk (hash.set entry (.used dest)) used pend (rest ++ [(dest, header, b)]) := by
  obtain ⟨k, hk⟩ := h.size
  have hpos := Nat.two_pow_pos k
  have hlt : filled hash < hash.length := by
    have := h.filled
    have := h.room
    omega
  obtain ⟨i, slot, hfree, hi, hslot, hreach, hdis⟩ := findFree_spec hk hlt (stickySubeventHash bs)
  refine ⟨i, hfree, .inr ⟨k, by simp [hk]⟩, h.put i slot hi hdis, by simpa using h.room, ?_, ?_⟩
  · rw [List.map_append]
    exact (usedOf_put hi hslot).trans (h.exact.append_right _)
  · rw [List.map_append]
    have hput := findable_put (a := dest) h.found hi hslot hreach
    rwa [stickySubeventHash_congr hid] at hput

end Table

section Step

variable {s s₁ : StickyStore} {gs gs₁ : List MetaGroup} {openPos pend top top' len : Nat}
  {header bs b : List UInt8} {C : List (List StickyItem)} {o : List StickyItem}

theorem enterHash_inv (keep : Bool) (h : StoreInv s gs openPos (pend + 1) top)
    (h₁ : CoreInv s₁ gs₁ openPos pend top') (ho : Opened s₁.data gs₁ openPos header)
    (hdata : s₁.data = s.data) (hhash : s₁.hash = s.hash) (hused : s₁.hashUsed = s.hashUsed)
    (hid : subId bs = subId b) (hb : WholeSubevent b) (hC : itemLists s.data 0 gs = C ++ [o])
    (hC₁ : itemLists s₁.data 0 gs₁ =
      C ++ [o ++ if keep then [(s.metas.length, header, b)] else []]) :
    ∃ s' gs', s₁.enterHash bs keep s.metas.length = .ok s' ∧
      StoreInv s' gs' openPos pend top' ∧ Opened s'.data gs' openPos header ∧ s'.data = s.data ∧
      itemLists s'.data 0 gs' = C.map (List.filter (otherId b)) ++
        [o.filter (otherId b) ++ if keep then [(s.metas.length, header, b)] else []] := by
  have htab := h.table
  have hroom := htab.room
  have hitems := items_of_lists hC
  have hitems₁ := items_of_lists hC₁
  rw [← List.append_assoc, ← hitems] at hitems₁
  have hother : otherId bs = otherId b := by
    funext x
    rw [otherId, otherId, hid]
  obtain ⟨k, hk⟩ : ∃ k, s.hash.length = 2 ^ k := by
    rcases htab.size with hnil | hk
    · simp [hnil] at hroom
    · exact hk
  have hlt : filled s.hash < s.hash.length := by
    have := htab.filled
    omega
  obtain ⟨entry, hfind, hreach, hcase⟩ := findSame_spec hk hlt (s₁.sameId bs) (stickySubeventHash bs)
  rw [← hhash] at hfind
  have hnewW : ∀ x ∈ (if keep then [(s.metas.length, header, b)] else []),
      WholeSubevent x.2.2 := by
    intro x hx
    cases keep
    · simp at hx
    · rw [if_pos rfl, List.mem_singleton] at hx
      rw [hx]
      exact hb
  -- both outcomes of the search leave a store `s₂` in which no older version is live
  obtain ⟨s₂, gs₂, hs₂, hcore, hopen, hdata₂, hlists₂, hclear⟩ :
      ∃ s₂ gs₂, s₁.vacate entry = s₂ ∧
        CoreInv s₂ gs₂ openPos pend top' ∧ Opened s₂.data gs₂ openPos header ∧
        s₂.data = s₁.data ∧
        itemLists s₂.data 0 gs₂ = C.map (List.filter (otherId b)) ++
          [o.filter (otherId b) ++ if keep then [(s.metas.length, header, b)] else []] ∧
        Cleared s₂.hash s₂.hashUsed s.metas.length pend (stickySubeventHash bs)
          ((itemsOf s.data 0 gs).filter (otherId b)) := by
    rcases hcase with ⟨off, hoff, hsame⟩ | ⟨hempty, hnone⟩
    · have hnew : ∀ x ∈ (if keep then [(s.metas.length, header, b)] else []),
          x.1 = s.metas.length := by
        intro x hx
        cases keep
        · simp at hx
        · rw [if_pos rfl, List.mem_singleton] at hx
          rw [hx]
      obtain ⟨gs₂, hc, hop, hd, hli, hcl⟩ :=
        clear_found h h₁ ho hhash hused hC hC₁ hnew hnewW hk hreach hoff hsame
      rw [hother] at hli hcl
      refine ⟨_, gs₂, by rw [StickyStore.vacate, hhash, hoff], hc, ?_, hd, ?_, hcl⟩
      · rw [hd]
        exact hop
      · rw [hd]
        exact hli
    · obtain ⟨hall, hcl⟩ := clear_absent h h₁
        (fun y hy => hitems₁ ▸ List.mem_append_left _ hy) hk hnone
      rw [hother] at hall hcl
      have hempty₁ : s₁.hash[entry]? = some .empty := by rw [hhash, hempty]
      refine ⟨{ s₁ with hashUsed := s₁.hashUsed + 1 }, gs₁,
        by rw [StickyStore.vacate, hempty₁],
        ⟨h₁.metas, h₁.groups, h₁.laid, h₁.top_le, h₁.header⟩, ho, rfl, ?_, ?_⟩
      · have hCf : C.map (List.filter (otherId b)) = C := by
          rw [List.map_congr_left fun l hl => List.filter_eq_self.mpr fun y hy => hall y
            (by rw [hitems]; exact List.mem_append_left _ (List.mem_flatten_of_mem hl hy))]
          exact List.map_id' C
        have hof : o.filter (otherId b) = o :=
          List.filter_eq_self.mpr fun y hy => hall y
            (by rw [hitems]; exact List.mem_append_right _ hy)
        rw [hCf, hof]
        exact hC₁
      · simp only [hhash, hused]
        exact hcl
  have hitems₂ : itemsOf s₂.data 0 gs₂ = (itemsOf s.data 0 gs).filter (otherId b) ++
      if keep then [(s.metas.length, header, b)] else [] := by
    rw [items_of_lists hlists₂, map_filter_flatten, hitems, List.filter_append, List.append_assoc]
  have hnodup : (((itemsOf s.data 0 gs).filter (otherId b)).map fun x => subId x.2.2).Nodup :=
    h.ids.sublist (List.filter_sublist.map _)
  have hwhole : ∀ x ∈ itemsOf s₂.data 0 gs₂, WholeSubevent x.2.2 := by
    intro x hx
    rw [hitems₂] at hx
    rcases List.mem_append.mp hx with hx | hx
    · exact h.whole x (List.mem_filter.mp hx).1
    · exact hnewW x hx
  rw [StickyStore.enterHash, hfind]
  simp only [hs₂]
  cases keep with
  | false =>
    rw [if_neg (by simp), List.append_nil] at hitems₂
    refine ⟨s₂, gs₂, rfl, ⟨hcore, hwhole, ?_, ?_⟩, hopen, hdata₂.trans hdata, hlists₂⟩
    · rw [hitems₂]
      exact hnodup
    · rw [hitems₂]
      exact cleared_table hclear
  | true =>
    obtain ⟨i, hfree, htable⟩ := @cleared_put _ _ _ _ _ header _ _ hclear hid
    refine ⟨{ s₂ with hash := s₂.hash.set i (.used s.metas.length) }, gs₂, by rw [if_pos rfl, hfree],
      ⟨⟨hcore.metas, hcore.groups, hcore.laid, hcore.top_le, hcore.header⟩, hwhole, ?_, ?_⟩,
      hopen, hdata₂.trans hdata, hlists₂⟩
    · simp only [hitems₂, if_true, List.map_append, List.map_cons, List.map_nil]
      rw [List.nodup_append]
      refine ⟨hnodup, by simp, ?_⟩
      intro x hx y hy
      obtain ⟨z, hz, rfl⟩ := List.mem_map.mp hx
      rw [List.mem_singleton.mp hy]
      simpa [otherId] using (List.mem_filter.mp hz).2
    · simp only [hitems₂, if_true]
      exact htable

theorem insertSubevent_inv (h : StoreInv s gs openPos (pend + 1) top)
    (ho : Opened s.data gs openPos header) (hb : WholeSubevent (slice s.data top len))
    (hlen : top + len ≤ s.data.length) (discardRevoke : Bool) :
    ∃ s' gs', s.insertSubevent discardRevoke openPos top len = .ok s' ∧
      StoreInv s' gs' openPos pend (top + len) ∧ Opened s'.data gs' openPos header ∧
      s'.data = s.data ∧
      ∃ C o new, itemLists s.data 0 gs = C ++ [o] ∧ itemLists s'.data 0 gs' =
          C.map (List.filter (otherId (slice s.data top len))) ++
            [o.filter (otherId (slice s.data top len)) ++ new] ∧
        new.map (·.2) = if !discardRevoke || !subIsRevoke (slice s.data top len)
          then [(header, slice s.data top len)] else [] := by
  have hid := subId_drop hb
  have hrev : subIsRevoke (s.data.drop top) = subIsRevoke (slice s.data top len) := by
    have happ := subIsRevoke_append ((s.data.drop top).drop len)
      (Nat.le_trans (by decide) hb.header)
    rw [slice, List.take_append_drop] at happ
    exact happ
  rw [StickyStore.insertSubevent, hrev]
  generalize hkeep : (!discardRevoke || !subIsRevoke (slice s.data top len)) = keep
  cases keep with
  | false =>
    obtain ⟨gs₁, h₁, ho₁, hlists⟩ := uncount_core h.toCoreInv ho hlen
    obtain ⟨hd, hh, hu⟩ := uncount_same s openPos
    obtain ⟨gs₀, g, rfl, hpos, hhead⟩ := id ho
    have hC : itemLists s.data 0 (gs₀ ++ [g]) = itemLists s.data 0 gs₀ ++
        [subItems s.data (g.header s.data) ((flatMetas gs₀).length + 1) g.subs] := by
      rw [itemLists_append, Nat.zero_add]
      rfl
    obtain ⟨s', gs', hent, hinv, hop, hdat, hli⟩ := @enterHash_inv _ _ _ _ _ _ _ _ header _ _ _ _
      false h h₁ (hd ▸ ho₁) hd hh hu hid hb hC (by rw [hd, hlists, hC]; simp)
    exact ⟨s', gs', hent, hinv, hop, hdat, _, _, [], hC, hli, rfl⟩
  | true =>
    obtain ⟨gs₁, h₁, ho₁, _, C, o, hC, hC₁⟩ := enter_core h.toCoreInv ho hlen
    obtain ⟨s', gs', hent, hinv, hop, hdat, hli⟩ :=
      enterHash_inv true h h₁ ho₁ rfl rfl rfl hid hb hC hC₁
    exact ⟨s', gs', hent, hinv, hop, hdat, C, o, _, hC, hli, rfl⟩

end Step

end Ucesb
