import Ucesb.StickyInv
import Mathlib.Data.List.Nodup

namespace Ucesb

theorem coreInv_groups {s : StickyStore} {gs : List MetaGroup} {o top : Nat}
    (h : CoreInv s gs o 0 top) : GroupsOk (fun _ => 0) 0 gs := by
  have hg := h.groups
  rwa [pendAt_zero] at hg

theorem coreInv_iter {s : StickyStore} {gs : List MetaGroup} {o top : Nat}
    (h : CoreInv s gs o 0 top) : s.groups = gs := by
  rw [StickyStore.groups, h.metas]
  exact iterEvents_flatMetas (coreInv_groups h) (Nat.le_refl _)

theorem compactData_eq {s : StickyStore} {gs : List MetaGroup} {o top : Nat}
    (h : CoreInv s gs o 0 top) :
    s.compactData = { s with
      data := contents s.data (piecesOf gs)
      dataRevoked := 0
      metas := flatMetas (relocateGroups 0 gs) } := by
  have hc := contents_length h.laid h.top_le
  rw [StickyStore.compactData, coreInv_iter h, compactGroups_eq,
    movePieces_eq h.laid (Nat.le_refl 0) h.top_le]
  simp only [List.take_zero, List.nil_append, Nat.zero_add]
  rw [← hc, List.take_left]

theorem compactData_core {s : StickyStore} {gs : List MetaGroup} {o top : Nat}
    (h : CoreInv s gs o 0 top) :
    CoreInv s.compactData (relocateGroups 0 gs) o 0 s.compactData.data.length := by
  have hc := contents_length h.laid h.top_le
  have hlaid := @relocateGroups_laid 0 gs
  rw [compactData_eq h]
  refine ⟨rfl, ?_, ?_, Nat.le_refl _, relocateGroups_header h.header⟩
  · rw [pendAt_zero]
    exact relocateGroups_ok (coreInv_groups h)
  · rw [Nat.zero_add] at hlaid
    simp only [hc]
    exact hlaid

theorem compactData_inv {s : StickyStore} {gs : List MetaGroup} {o top : Nat}
    (h : StoreInv s gs o 0 top) :
    StoreInv s.compactData (relocateGroups 0 gs) o 0 s.compactData.data.length ∧
      itemLists s.compactData.data 0 (relocateGroups 0 gs) = itemLists s.data 0 gs := by
  have hg := coreInv_groups h.toCoreInv
  have hlists := relocateGroups_lists hg h.laid h.top_le
  have hitems := relocateGroups_items hg h.laid h.top_le
  have hcore := compactData_core h.toCoreInv
  rw [compactData_eq h.toCoreInv] at hcore ⊢
  refine ⟨⟨hcore, ?_, ?_, ?_⟩, hlists⟩
  · simp only [hitems]
    exact h.whole
  · simp only [hitems]
    exact h.ids
  · simp only [hitems]
    exact h.table

theorem itemsOf_congr {data data' : List UInt8} {pend : Nat → Nat} {pos : Nat}
    {gs : List MetaGroup} (hg : GroupsOk pend pos gs)
    (h : ∀ p ∈ piecesOf gs, slice data' p.1 p.2 = slice data p.1 p.2) :
    itemsOf data' pos gs = itemsOf data pos gs := by
  induction gs generalizing pos with
  | nil => rfl
  | cons g gs ih =>
    rw [itemsOf, itemsOf, ih hg.2 fun p hp => h p (by simp [hp])]
    congr 1
    have hfst := @subItems_fst data' data (g.header data') (g.header data) (pos + 1) g.subs _ rfl
    have hsnd : (subItems data' (g.header data') (pos + 1) g.subs).map (·.2) =
        (subItems data (g.header data) (pos + 1) g.subs).map (·.2) := by
      rw [subItems_snd, subItems_snd]
      apply List.map_congr_left
      intro p hp
      have hcount : 0 < g.subs.countP (·.isLive) := by
        rw [← subPieces_length]
        exact List.length_pos_of_mem hp
      have hlive : g.ev.liveSub ≠ 0 := by
        have := hg.1.liveSub
        omega
      have hpieces : g.pieces = (g.ev.dataOffset, g.ev.dataLength) :: subPieces g.subs := by
        simp [MetaGroup.pieces, hlive]
      have hhead := h (g.ev.dataOffset, g.ev.dataLength) (by simp [hpieces])
      have hbody := h p (by simp [hpieces, hp])
      rw [MetaGroup.header, MetaGroup.header, hhead, hbody]
    rw [List.zip_of_prod hfst hsnd]
    exact (List.zip_of_prod rfl rfl).symm

theorem laid_mem {lo hi : Nat} {ps : List (Nat × Nat)} (h : Laid lo ps hi) :
    ∀ p ∈ ps, p.1 + p.2 ≤ hi := by
  induction ps generalizing lo with
  | nil => simp
  | cons q ps ih =>
    intro p hp
    rcases List.mem_cons.mp hp with rfl | hp
    · exact laid_le h.2
    · exact ih h.2 p hp

theorem itemLists_append_data {s : StickyStore} {gs : List MetaGroup} {o pend top : Nat}
    (h : CoreInv s gs o pend top) (raw : List UInt8) :
    itemLists (s.data ++ raw) 0 gs = itemLists s.data 0 gs := by
  rw [List.eq_iff_flatten_eq, itemLists_flatten, itemLists_flatten, itemLists_lengths,
    itemLists_lengths]
  refine ⟨itemsOf_congr h.groups ?_, rfl⟩
  intro p hp
  exact slice_append_left (Nat.le_trans (laid_mem h.laid p hp) h.top_le) raw

theorem itemsOf_append_data {s : StickyStore} {gs : List MetaGroup} {o pend top : Nat}
    (h : CoreInv s gs o pend top) (raw : List UInt8) :
    itemsOf (s.data ++ raw) 0 gs = itemsOf s.data 0 gs := by
  rw [← itemLists_flatten, itemLists_append_data h, itemLists_flatten]

theorem storeInv_append_data {s : StickyStore} {gs : List MetaGroup} {o pend top : Nat}
    (h : StoreInv s gs o pend top) (raw : List UInt8) :
    StoreInv { s with data := s.data ++ raw } gs o pend top := by
  have hitems := itemsOf_append_data h.toCoreInv raw
  exact { h with
    top_le := by
      rw [List.length_append]
      exact Nat.le_trans h.top_le (Nat.le_add_right _ _)
    whole := by
      simp only [hitems]
      exact h.whole
    ids := by
      simp only [hitems]
      exact h.ids
    table := by
      simp only [hitems]
      exact h.table }

theorem reserveData_inv {s : StickyStore} {gs : List MetaGroup} {o top : Nat}
    (h : StoreInv s gs o 0 top) (evLen : Nat) :
    ∃ gs' top', StoreInv (s.reserveData evLen) gs' o 0 top' ∧
      itemLists (s.reserveData evLen).data 0 gs' = itemLists s.data 0 gs := by
  rw [StickyStore.reserveData]
  split
  next =>
    by_cases hdue : s.dataRevoked > s.data.length / 2
    · obtain ⟨hinv, hitems⟩ := compactData_inv h
      rw [if_pos hdue]
      exact ⟨_, _, ⟨⟨hinv.metas, hinv.groups, hinv.laid, hinv.top_le, hinv.header⟩,
        hinv.whole, hinv.ids, hinv.table⟩, hitems⟩
    · rw [if_neg hdue]
      exact ⟨gs, top, ⟨⟨h.metas, h.groups, h.laid, h.top_le, h.header⟩,
        h.whole, h.ids, h.table⟩, rfl⟩
  next => exact ⟨gs, top, h, rfl⟩

theorem growSize_pow {small : Nat → Bool} {fuel sz k : Nat} (h : sz = 2 ^ k) :
    ∃ k', growSize small fuel sz = 2 ^ k' := by
  induction fuel generalizing sz k with
  | zero => exact ⟨k, h⟩
  | succ fuel ih =>
    rw [growSize]
    split
    · exact @ih (sz * 2) (k + 1) (by rw [h, Nat.pow_succ])
    · exact ⟨k, h⟩

theorem growSize_half {need fuel sz : Nat} (h : need ≤ fuel + sz / 2) (hsz : 2 ≤ sz) :
    need ≤ growSize (fun sz => decide (need > sz / 2)) fuel sz / 2 := by
  induction fuel generalizing sz with
  | zero => simpa [growSize] using h
  | succ fuel ih =>
    rw [growSize]
    split
    · exact ih (by omega) (by omega)
    next hs => simpa using hs

theorem growSize_table {hash : List (HashSlot Nat)} {small : Nat → Bool} {fuel : Nat}
    (h : hash = [] ∨ ∃ k, hash.length = 2 ^ k) :
    ∃ k, growSize small fuel (max hash.length 16) = 2 ^ k := by
  rcases h with rfl | ⟨k, hk⟩
  · exact growSize_pow (show _ = 2 ^ 4 by simp)
  · rcases Nat.le_total hash.length 16 with hle | hle
    · rw [Nat.max_eq_right hle]
      exact growSize_pow (show 16 = 2 ^ 4 by rfl)
    · rw [Nat.max_eq_left hle]
      exact growSize_pow hk

theorem items_snd {data data' : List UInt8} {pos pos' : Nat} {gs gs' : List MetaGroup}
    (h : liveLists data' gs' = liveLists data gs) :
    (itemsOf data' pos' gs').map (·.2) = (itemsOf data pos gs).map (·.2) := by
  rw [itemsOf_snd, itemsOf_snd, ← liveLists_flatten, ← liveLists_flatten, h]

theorem items_length {xs ys : List StickyItem} (h : xs.map (·.2) = ys.map (·.2)) :
    xs.length = ys.length := by
  simpa using congrArg List.length h

theorem items_ids {xs ys : List StickyItem} (h : xs.map (·.2) = ys.map (·.2)) :
    (xs.map fun x => subId x.2.2) = ys.map fun x => subId x.2.2 := by
  have hids := congrArg (List.map fun p : List UInt8 × List UInt8 => subId p.2) h
  rw [List.map_map, List.map_map] at hids
  exact hids

theorem items_whole {xs ys : List StickyItem} (h : xs.map (·.2) = ys.map (·.2))
    (hw : ∀ y ∈ ys, WholeSubevent y.2.2) : ∀ x ∈ xs, WholeSubevent x.2.2 := by
  intro x hx
  have hmem : x.2 ∈ ys.map (·.2) := h ▸ List.mem_map_of_mem hx
  obtain ⟨y, hy, he⟩ := List.mem_map.mp hmem
  rw [← he]
  exact hw y hy

theorem compactMeta_core {s : StickyStore} {gs : List MetaGroup} {o top : Nat}
    (h : CoreInv s gs o 0 top) : CoreInv s.compactMeta (compactMetaGroups 0 gs) o 0 top := by
  refine ⟨?_, ?_, ?_, h.top_le, compactMetaGroups_header h.header⟩
  · simp only [StickyStore.compactMeta, coreInv_iter h]
  · rw [pendAt_zero]
    exact compactMetaGroups_ok (coreInv_groups h)
  · rw [compactMetaGroups_pieces]
    exact h.laid

theorem reserveMeta_inv {s s' : StickyStore} {gs : List MetaGroup} {o top metaAdd : Nat}
    {recalc : Bool} (h : CoreInv s gs o 0 top) (hr : s.reserveMeta metaAdd = (s', recalc)) :
    ∃ gs', CoreInv s' gs' o 0 top ∧ s'.data = s.data ∧ s'.hash = s.hash ∧
      s'.hashUsed = s.hashUsed ∧
      liveLists s.data gs' = liveLists s.data gs ∧
      (recalc = false → gs' = gs ∧ s'.metas = s.metas) := by
  rw [StickyStore.reserveMeta] at hr
  split at hr
  next =>
    by_cases hdue : s.metaRevoked > sizeofMetaEntry * s.metas.length / 2
    · simp only [hdue, decide_true, if_true, Prod.mk.injEq] at hr
      obtain ⟨rfl, rfl⟩ := hr
      have hc := compactMeta_core h
      exact ⟨compactMetaGroups 0 gs, ⟨hc.metas, hc.groups, hc.laid, hc.top_le, hc.header⟩,
        rfl, rfl, rfl, compactMetaGroups_lists s.data (coreInv_groups h), by simp⟩
    · simp only [hdue, decide_false, Bool.false_eq_true, if_false, Prod.mk.injEq] at hr
      obtain ⟨rfl, rfl⟩ := hr
      exact ⟨gs, ⟨h.metas, h.groups, h.laid, h.top_le, h.header⟩, rfl, rfl, rfl, rfl,
        fun _ => ⟨rfl, rfl⟩⟩
  next =>
    simp only [Prod.mk.injEq] at hr
    obtain ⟨rfl, rfl⟩ := hr
    exact ⟨gs, h, rfl, rfl, rfl, rfl, fun _ => ⟨rfl, rfl⟩⟩

theorem growSize_half_le {need fuel sz : Nat} :
    growSize (fun sz => decide (need > sz / 2)) fuel sz ≤ max sz (4 * need) := by
  induction fuel generalizing sz with
  | zero => exact Nat.le_max_left _ _
  | succ fuel ih =>
    rw [growSize]
    split
    next hs =>
      have hlt : need > sz / 2 := by simpa using hs
      have hle := @ih (sz * 2)
      omega
    next => exact Nat.le_max_left _ _

theorem reserveHash_cases {s : StickyStore} {numSev : Nat} {recalc : Bool}
    {table : List (HashSlot Nat) → Nat → Prop}
    (hsize : s.hash = [] ∨ ∃ k, s.hash.length = 2 ^ k)
    (hpopulate : ∀ t, (t = [] ∨ ∃ k, t.length = 2 ^ k) → s.hashUsed + numSev ≤ t.length / 2 →
      t.length ≤ max s.hash.length (max 16 (4 * (s.hashUsed + numSev))) →
      ∃ t' used, { s with hash := t }.populateHash = .ok { s with hash := t', hashUsed := used } ∧
        table t' used)
    (hkeep : recalc = false → s.hashUsed + numSev ≤ s.hash.length / 2 → table s.hash s.hashUsed) :
    ∃ t used, s.reserveHash numSev recalc = .ok { s with hash := t, hashUsed := used } ∧
      table t used := by
  by_cases hneed : s.hashUsed + numSev > s.hash.length / 2
  · obtain ⟨k, hk⟩ := @growSize_table s.hash
      (fun sz => decide (s.hashUsed + numSev > sz / 2)) (s.hashUsed + numSev) hsize
    have hhalf := @growSize_half (s.hashUsed + numSev) (s.hashUsed + numSev)
      (max s.hash.length 16) (by omega) (by omega)
    have hle := @growSize_half_le (s.hashUsed + numSev) (s.hashUsed + numSev)
      (max s.hash.length 16)
    rw [StickyStore.reserveHash]
    simp only [hneed, if_true]
    rw [hk] at hhalf hle ⊢
    have hgt : 2 ^ k > s.hash.length := by omega
    simp only [hgt, true_or, decide_true, if_true, Bool.or_true]
    exact hpopulate _ (.inr ⟨k, by simp⟩) (by simpa using hhalf) (by
      rw [List.length_replicate]
      omega)
  · have hno : ¬(s.hash.length > s.hash.length ∨ s.hash.length < s.hash.length / 4) := by omega
    rw [StickyStore.reserveHash]
    simp only [hneed, if_false, hno, decide_false, Bool.or_false, Bool.false_eq_true]
    cases recalc with
    | true =>
      rw [if_pos rfl]
      exact hpopulate s.hash hsize (by omega) (by omega)
    | false => exact ⟨s.hash, s.hashUsed, rfl, hkeep rfl (by omega)⟩

theorem reserveHash_inv {s : StickyStore} {gs : List MetaGroup} {o top numSev : Nat}
    {recalc : Bool} (h : CoreInv s gs o 0 top) (hsize : s.hash = [] ∨ ∃ k, s.hash.length = 2 ^ k)
    (hw : ∀ x ∈ itemsOf s.data 0 gs, WholeSubevent x.2.2)
    (hcount : (itemsOf s.data 0 gs).length ≤ s.hashUsed)
    (htable : recalc = false → TableOk s.hash s.hashUsed 0 (itemsOf s.data 0 gs)) :
    ∃ t used, s.reserveHash numSev recalc = .ok { s with hash := t, hashUsed := used } ∧
      TableOk t used numSev (itemsOf s.data 0 gs) := by
  refine reserveHash_cases hsize (fun t ht hroom _ => ?_) fun hrecalc hroom => ?_
  · exact @populateHash_ok { s with hash := t } gs numSev h.metas (coreInv_groups h) hw ht
      (by dsimp only; omega)
  · have ht := htable hrecalc
    exact ⟨ht.size, ht.filled, by omega, ht.exact, ht.found⟩

def Opened (data : List UInt8) (gs : List MetaGroup) (openPos : Nat) (header : List UInt8) :
    Prop :=
  ∃ gs₀ g, gs = gs₀ ++ [g] ∧ (flatMetas gs₀).length = openPos ∧ g.header data = header

theorem opened_replace {data header : List UInt8} {gs₁ gs₂ : List MetaGroup} {g g' : MetaGroup}
    {openPos : Nat} (h : Opened data (gs₁ ++ g :: gs₂) openPos header)
    (hlen : g'.subs.length = g.subs.length) (hhead : g'.header data = g.header data) :
    Opened data (gs₁ ++ g' :: gs₂) openPos header := by
  obtain ⟨gs₀, last, heq, hpos, hh⟩ := h
  rcases List.eq_nil_or_concat gs₂ with rfl | ⟨init, x, rfl⟩
  · obtain ⟨rfl, hl⟩ := List.append_inj' heq rfl
    cases hl
    exact ⟨gs₁, g', rfl, hpos, hhead.trans hh⟩
  · have heq' : (gs₁ ++ g :: init) ++ [x] = gs₀ ++ [last] := by simpa using heq
    obtain ⟨hinit, hl⟩ := List.append_inj' heq' rfl
    cases hl
    refine ⟨gs₁ ++ g' :: init, last, by simp, ?_, hh⟩
    rw [← hpos, ← hinit]
    simp [hlen]

theorem map_filter_ne_of_nodup {α β : Type} [DecidableEq β] {f : α → β} {A B : List (List α)}
    {u v : List α} {x : α} (hn : ((A ++ (u ++ x :: v) :: B).flatten.map f).Nodup) :
    (A ++ (u ++ x :: v) :: B).map (List.filter fun y => f y ≠ f x) = A ++ (u ++ v) :: B := by
  have hflat : (A ++ (u ++ x :: v) :: B).flatten = (A.flatten ++ u) ++ x :: (v ++ B.flatten) := by
    simp
  rw [hflat, List.map_append, List.map_cons, List.nodup_middle, List.nodup_cons,
    ← List.map_append] at hn
  have hne : ∀ y ∈ A.flatten ++ u ++ (v ++ B.flatten), decide (f y ≠ f x) = true := by
    intro y hy
    rw [decide_eq_true_eq]
    intro he
    exact hn.1 (he ▸ List.mem_map_of_mem hy)
  simp only [List.mem_append] at hne
  have hself : ∀ L : List (List α), (∀ y ∈ L.flatten, decide (f y ≠ f x) = true) →
      L.map (List.filter fun y => f y ≠ f x) = L := by
    intro L hL
    rw [List.map_congr_left fun l hl =>
      List.filter_eq_self.mpr fun y hy => hL y (List.mem_flatten_of_mem hl hy)]
    exact List.map_id' L
  rw [List.map_append, List.map_cons, hself A fun y hy => hne y (.inl (.inl hy)),
    hself B fun y hy => hne y (.inr (.inr hy)), List.filter_append,
    List.filter_eq_self.mpr fun y hy => hne y (.inl (.inr hy)),
    List.filter_cons_of_neg (by simp),
    List.filter_eq_self.mpr fun y hy => hne y (.inr (.inl hy))]

def MetaSubevent.kill (sev : MetaSubevent) : MetaSubevent := { sev with dataOffset := none }

def MetaEvent.decLive (ev : MetaEvent) : MetaEvent := { ev with liveSub := ev.liveSub - 1 }

section Supersede

variable {s : StickyStore} {gs₁ gs₂ : List MetaGroup} {ev : MetaEvent}
  {subs₁ subs₂ : List MetaSubevent} {sev : MetaSubevent} {openPos pend top n pos d : Nat}

theorem supersede_eq
    (h : CoreInv s (gs₁ ++ ⟨ev, subs₁ ++ sev :: subs₂⟩ :: gs₂) openPos pend top) (entry : Nat) :
    s.supersede entry ((flatMetas gs₁).length + (subs₁.length + 1)) = { s with
      metas := flatMetas (gs₁ ++ ⟨ev.decLive, subs₁ ++ sev.kill :: subs₂⟩ :: gs₂)
      dataRevoked := s.dataRevoked + sev.dataLength +
        if ev.liveSub - 1 = 0 then ev.dataLength else 0
      metaRevoked := s.metaRevoked + sizeofMetaEntry +
        if ev.liveSub - 1 = 0 then sizeofMetaEntry else 0
      hash := s.hash.set entry .discarded } := by
  have hsub := flatMetas_getElem_subevent gs₁ gs₂ ev subs₁ subs₂ sev
  have hev := flatMetas_getElem_event gs₁ gs₂ ⟨ev, subs₁ ++ sev :: subs₂⟩
  have hoff : sev.evOffset = (flatMetas gs₁).length :=
    (groupsOk_cons_inv h.groups).evOffset sev (by simp)
  have hkill : sev.kill = ⟨(flatMetas gs₁).length, none, sev.dataLength⟩ := by
    rw [← hoff]
    rfl
  rw [← h.metas] at hsub hev
  rw [StickyStore.supersede, hsub, hkill]
  simp only [hoff, hev, decide_eq_true_eq]
  rw [h.metas, flatMetas_set_subevent, flatMetas_set_event]
  rfl

theorem decLive_live (h : GroupOk n pos ⟨ev, subs₁ ++ sev :: subs₂⟩) (hd : sev.dataOffset = some d) :
    ev.liveSub ≠ 0 := by
  have hlive := h.liveSub
  simp only [List.countP_append, List.countP_cons, MetaSubevent.isLive, hd, Option.isSome_some,
    if_true] at hlive
  omega

theorem supersede_lists (data : List UInt8) (hd : sev.dataOffset = some d) :
    itemLists data 0 (gs₁ ++ ⟨ev.decLive, subs₁ ++ sev.kill :: subs₂⟩ :: gs₂) =
        (itemLists data 0 (gs₁ ++ ⟨ev, subs₁ ++ sev :: subs₂⟩ :: gs₂)).map
          (List.filter fun x => x.1 ≠ (flatMetas gs₁).length + (subs₁.length + 1)) ∧
      ((flatMetas gs₁).length + (subs₁.length + 1), slice data ev.dataOffset ev.dataLength,
          slice data d sev.dataLength) ∈
        itemsOf data 0 (gs₁ ++ ⟨ev, subs₁ ++ sev :: subs₂⟩ :: gs₂) := by
  obtain ⟨A, u, v, B, hsplit⟩ := itemLists_split data gs₁ gs₂ ev subs₁ subs₂
  have hold := hsplit ev sev rfl rfl
  have hnew := hsplit ev.decLive sev.kill rfl rfl
  simp only [subItems, hd, MetaSubevent.kill, List.append_assoc, List.singleton_append,
    List.nil_append] at hold hnew
  have hn := itemsOf_fst_nodup data 0 (gs₁ ++ ⟨ev, subs₁ ++ sev :: subs₂⟩ :: gs₂)
  rw [← itemLists_flatten, hold] at hn
  refine ⟨?_, ?_⟩
  · rw [hold]
    exact hnew.trans (map_filter_ne_of_nodup hn).symm
  · rw [← itemLists_flatten, hold]
    simp

theorem supersede_pieces (h : GroupOk n pos ⟨ev, subs₁ ++ sev :: subs₂⟩)
    (hd : sev.dataOffset = some d) :
    List.Sublist (piecesOf (gs₁ ++ ⟨ev.decLive, subs₁ ++ sev.kill :: subs₂⟩ :: gs₂))
      (piecesOf (gs₁ ++ ⟨ev, subs₁ ++ sev :: subs₂⟩ :: gs₂)) := by
  have hpieces : List.Sublist (MetaGroup.pieces ⟨ev.decLive, subs₁ ++ sev.kill :: subs₂⟩)
      (MetaGroup.pieces ⟨ev, subs₁ ++ sev :: subs₂⟩) := by
    have hk : subPieces (sev.kill :: subs₂) = subPieces subs₂ := rfl
    have hs : subPieces (sev :: subs₂) = (d, sev.dataLength) :: subPieces subs₂ := by
      simp [subPieces, hd]
    rw [MetaGroup.pieces, MetaGroup.pieces, if_neg (decLive_live h hd)]
    split
    · exact List.nil_sublist _
    · rw [subPieces_append, subPieces_append, hk, hs]
      exact ((List.Sublist.refl _).append (List.sublist_cons_self _ _)).cons_cons _
  rw [piecesOf_append, piecesOf_append, piecesOf_cons, piecesOf_cons]
  exact (List.Sublist.refl _).append (hpieces.append (List.Sublist.refl _))

theorem supersede_core (hd : sev.dataOffset = some d)
    (h : CoreInv s (gs₁ ++ ⟨ev, subs₁ ++ sev :: subs₂⟩ :: gs₂) openPos pend top) (entry : Nat) :
    CoreInv (s.supersede entry ((flatMetas gs₁).length + (subs₁.length + 1)))
      (gs₁ ++ ⟨ev.decLive, subs₁ ++ sev.kill :: subs₂⟩ :: gs₂) openPos pend top := by
  have heq := supersede_eq h entry
  rw [heq]
  have hg := groupsOk_cons_inv h.groups
  have hcount : (subs₁ ++ sev :: subs₂).countP (·.isLive) =
      (subs₁ ++ sev.kill :: subs₂).countP (·.isLive) + 1 := by
    simp [MetaSubevent.isLive, MetaSubevent.kill, hd]
    omega
  have hlive := hg.liveSub
  refine ⟨rfl, groupsOk_replace h.groups ?_ ⟨?_, ?_, ?_⟩,
    laid_sublist (supersede_pieces hg hd) h.laid, h.top_le, ?_⟩
  · simp
  · simpa [MetaEvent.decLive] using hg.numSub
  · simp only [MetaEvent.decLive] at hlive ⊢
    omega
  · intro x hx
    rcases List.mem_append.mp hx with hx | hx
    · exact hg.evOffset x (by simp [hx])
    · rcases List.mem_cons.mp hx with rfl | hx
      · exact hg.evOffset sev (by simp)
      · exact hg.evOffset x (by simp [hx])
  · intro g hg'
    rcases List.mem_append.mp hg' with hg' | hg'
    · exact h.header g (by simp [hg'])
    · rcases List.mem_cons.mp hg' with rfl | hg'
      · exact h.header ⟨ev, subs₁ ++ sev :: subs₂⟩ (by simp)
      · exact h.header g (by simp [hg'])

end Supersede

section Enter

variable {s : StickyStore} {gs : List MetaGroup} {openPos pend top len : Nat}
  {header : List UInt8}

theorem pendAt_of_lt {pos : Nat} (n : Nat) (h : pos < openPos) : pendAt openPos n pos = 0 := by
  rw [pendAt, if_neg (Nat.ne_of_lt h)]

theorem opened_pieces {gs₀ : List MetaGroup} {g : MetaGroup}
    (h : CoreInv s (gs₀ ++ [g]) (flatMetas gs₀).length (pend + 1) top) :
    g.ev.liveSub ≠ 0 := by
  have hg := (groupsOk_cons_inv h.groups).liveSub
  rw [pendAt, if_pos rfl] at hg
  omega

theorem enter_core (h : CoreInv s gs openPos (pend + 1) top) (ho : Opened s.data gs openPos header)
    (hlen : top + len ≤ s.data.length) :
    ∃ gs', CoreInv { s with metas := s.metas ++ [.subevent ⟨openPos, some top, len⟩] } gs'
        openPos pend (top + len) ∧ Opened s.data gs' openPos header ∧
      piecesOf gs' = piecesOf gs ++ [(top, len)] ∧
      ∃ C o, itemLists s.data 0 gs = C ++ [o] ∧
        itemLists s.data 0 gs' = C ++ [o ++ [(s.metas.length, header, slice s.data top len)]] := by
  obtain ⟨gs₀, g, rfl, rfl, rfl⟩ := ho
  have hg := groupsOk_cons_inv h.groups
  have hg₀ := (groupsOk_append.mp h.groups).1
  have hne := opened_pieces h
  rw [pendAt, if_pos rfl] at hg
  have hlists : itemLists s.data 0
      (gs₀ ++ [⟨g.ev, g.subs ++ [⟨(flatMetas gs₀).length, some top, len⟩]⟩]) =
      itemLists s.data 0 gs₀ ++
        [subItems s.data (g.header s.data) ((flatMetas gs₀).length + 1) g.subs ++
          [(s.metas.length, g.header s.data, slice s.data top len)]] := by
    have hml : s.metas.length = (flatMetas gs₀).length + 1 + g.subs.length := by
      rw [h.metas]
      simp
      omega
    rw [itemLists_append, hml]
    simp [itemLists, subItems_append, subItems, MetaGroup.header]
  have hold : itemLists s.data 0 (gs₀ ++ [g]) = itemLists s.data 0 gs₀ ++
      [subItems s.data (g.header s.data) ((flatMetas gs₀).length + 1) g.subs] := by
    rw [itemLists_append, Nat.zero_add]
    rfl
  have hpieces : piecesOf (gs₀ ++
      [⟨g.ev, g.subs ++ [⟨(flatMetas gs₀).length, some top, len⟩]⟩]) =
      piecesOf (gs₀ ++ [g]) ++ [(top, len)] := by
    simp [MetaGroup.pieces, hne, subPieces]
  refine ⟨gs₀ ++ [⟨g.ev, g.subs ++ [⟨(flatMetas gs₀).length, some top, len⟩]⟩],
    ⟨?_, groupsOk_replace_last hg₀ ?_ ⟨?_, ?_, ?_⟩, ?_, hlen, ?_⟩,
    ⟨gs₀, _, rfl, rfl, rfl⟩, hpieces, _, _, hold, hlists⟩
  · simp only [h.metas]
    simp [MetaGroup.entries, flatMetas]
  · intro p hp
    rw [pendAt_of_lt pend hp, pendAt_of_lt (pend + 1) hp]
  · rw [pendAt, if_pos rfl, List.length_append]
    have := hg.numSub
    simp only [List.length_singleton]
    omega
  · have hl := hg.liveSub
    rw [pendAt, if_pos rfl]
    simp only [List.countP_append, List.countP_singleton, MetaSubevent.isLive, Option.isSome_some,
      if_true] at hl ⊢
    omega
  · intro sev hs
    rcases List.mem_append.mp hs with hs | hs
    · exact hg.evOffset sev hs
    · rw [List.mem_singleton.mp hs]
  · rw [hpieces]
    exact laid_append.mpr ⟨top, h.laid, Nat.le_refl top, Nat.le_refl (top + len)⟩
  · intro g' hg'
    rcases List.mem_append.mp hg' with hg' | hg'
    · exact h.header g' (by simp [hg'])
    · rw [List.mem_singleton.mp hg']
      exact h.header g (by simp)

theorem uncount_same (s : StickyStore) (evOffset : Nat) :
    (s.uncount evOffset).data = s.data ∧ (s.uncount evOffset).hash = s.hash ∧
      (s.uncount evOffset).hashUsed = s.hashUsed := by
  unfold StickyStore.uncount
  split <;> simp

theorem uncount_core (h : CoreInv s gs openPos (pend + 1) top)
    (ho : Opened s.data gs openPos header) (hlen : top + len ≤ s.data.length) :
    ∃ gs', CoreInv (s.uncount openPos) gs' openPos pend (top + len) ∧
      Opened s.data gs' openPos header ∧ itemLists s.data 0 gs' = itemLists s.data 0 gs := by
  obtain ⟨gs₀, g, rfl, rfl, rfl⟩ := ho
  have hg := groupsOk_cons_inv h.groups
  have hg₀ := (groupsOk_append.mp h.groups).1
  rw [pendAt, if_pos rfl] at hg
  have hev := flatMetas_getElem_event gs₀ [] g
  rw [← h.metas] at hev
  have hlists : itemLists s.data 0 (gs₀ ++
      [⟨{ g.ev with numSub := g.ev.numSub - 1, liveSub := g.ev.liveSub - 1 }, g.subs⟩]) =
      itemLists s.data 0 (gs₀ ++ [g]) := by
    rw [itemLists_append, itemLists_append]
    simp [itemLists, MetaGroup.header]
  have hs : s.uncount (flatMetas gs₀).length = { s with metas := flatMetas (gs₀ ++
      [⟨{ g.ev with numSub := g.ev.numSub - 1, liveSub := g.ev.liveSub - 1 }, g.subs⟩]) } := by
    rw [StickyStore.uncount, hev]
    simp only [h.metas, flatMetas_set_event]
  rw [hs]
  refine ⟨_, ⟨rfl, groupsOk_replace_last hg₀ ?_ ⟨?_, ?_, hg.evOffset⟩, ?_, hlen, ?_⟩,
    ⟨gs₀, _, rfl, rfl, rfl⟩, hlists⟩
  · intro p hp
    rw [pendAt_of_lt pend hp, pendAt_of_lt (pend + 1) hp]
  · rw [pendAt, if_pos rfl]
    have := hg.numSub
    simp only
    omega
  · rw [pendAt, if_pos rfl]
    have := hg.liveSub
    simp only
    omega
  · refine laid_mono (laid_sublist ?_ h.laid) (Nat.le_refl 0) (Nat.le_add_right top len)
    have hne := opened_pieces h
    rw [piecesOf_append, piecesOf_append, piecesOf_cons, piecesOf_cons]
    refine (List.Sublist.refl _).append (List.Sublist.append ?_ (List.Sublist.refl _))
    rw [MetaGroup.pieces, MetaGroup.pieces, if_neg hne]
    split
    · exact List.nil_sublist _
    · exact List.Sublist.refl _
  · intro g' hg'
    rcases List.mem_append.mp hg' with hg' | hg'
    · exact h.header g' (by simp [hg'])
    · rw [List.mem_singleton.mp hg']
      exact h.header g (by simp)

end Enter

end Ucesb
