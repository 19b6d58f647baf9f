import Ucesb.StickyCompact
import Mathlib.Data.List.Forall2

namespace Ucesb

abbrev StickyItem := Nat × List UInt8 × List UInt8

def subItems (data header : List UInt8) : Nat → List MetaSubevent → List StickyItem
  | _, [] => []
  | i, sev :: subs =>
    match sev.dataOffset with
    | none => subItems data header (i + 1) subs
    | some d => (i, header, slice data d sev.dataLength) :: subItems data header (i + 1) subs

def MetaGroup.header (data : List UInt8) (g : MetaGroup) : List UInt8 :=
  slice data g.ev.dataOffset g.ev.dataLength

def itemsOf (data : List UInt8) : Nat → List MetaGroup → List StickyItem
  | _, [] => []
  | pos, g :: gs =>
    subItems data (g.header data) (pos + 1) g.subs ++ itemsOf data (pos + g.entries.length) gs

def itemLists (data : List UInt8) : Nat → List MetaGroup → List (List StickyItem)
  | _, [] => []
  | pos, g :: gs =>
    subItems data (g.header data) (pos + 1) g.subs :: itemLists data (pos + g.entries.length) gs

theorem itemLists_flatten (data : List UInt8) (pos : Nat) (gs : List MetaGroup) :
    (itemLists data pos gs).flatten = itemsOf data pos gs := by
  induction gs generalizing pos with
  | nil => rfl
  | cons g gs ih => rw [itemLists, List.flatten_cons, ih, itemsOf]

theorem itemLists_append (data : List UInt8) (pos : Nat) (gs hs : List MetaGroup) :
    itemLists data pos (gs ++ hs) =
      itemLists data pos gs ++ itemLists data (pos + (flatMetas gs).length) hs := by
  induction gs generalizing pos with
  | nil => simp [itemLists, flatMetas]
  | cons g gs ih => simp [itemLists, ih, Nat.add_assoc]

theorem subItems_append (data header : List UInt8) (i : Nat) (xs ys : List MetaSubevent) :
    subItems data header i (xs ++ ys) =
      subItems data header i xs ++ subItems data header (i + xs.length) ys := by
  induction xs generalizing i with
  | nil => simp [subItems]
  | cons sev xs ih =>
    have hlen : i + (sev :: xs).length = i + 1 + xs.length := by
      rw [List.length_cons]
      omega
    rw [List.cons_append, hlen]
    cases hd : sev.dataOffset <;> simp [subItems, hd, ih]

theorem subItems_snd (data header : List UInt8) (i : Nat) (subs : List MetaSubevent) :
    (subItems data header i subs).map (·.2) =
      (subPieces subs).map fun p => (header, slice data p.1 p.2) := by
  induction subs generalizing i with
  | nil => rfl
  | cons sev subs ih =>
    simp only [subPieces] at ih
    cases hd : sev.dataOffset <;> simp [subItems, subPieces, hd, ih]

theorem itemsOf_snd (data : List UInt8) (pos : Nat) (gs : List MetaGroup) :
    (itemsOf data pos gs).map (·.2) = carried data gs := by
  induction gs generalizing pos with
  | nil => rfl
  | cons g gs ih =>
    simp [itemsOf, ih, subItems_snd, MetaGroup.carried, MetaGroup.header]

theorem itemLists_snd (data : List UInt8) (pos : Nat) (gs : List MetaGroup) :
    (itemLists data pos gs).map (List.map (·.2)) = gs.map fun g => g.carried data := by
  induction gs generalizing pos with
  | nil => rfl
  | cons g gs ih =>
    rw [itemLists, List.map_cons, List.map_cons, ih, subItems_snd]
    rfl

theorem itemLists_lengths (data : List UInt8) (pos : Nat) (gs : List MetaGroup) :
    (itemLists data pos gs).map List.length = gs.map fun g => g.subs.countP (·.isLive) := by
  induction gs generalizing pos with
  | nil => rfl
  | cons g gs ih =>
    have hlen := congrArg List.length (subItems_snd data (g.header data) (pos + 1) g.subs)
    rw [List.length_map, List.length_map, subPieces_length] at hlen
    rw [itemLists, List.map_cons, List.map_cons, ih, hlen]

theorem subItems_fst {data data' header header' : List UInt8} {i : Nat}
    {subs subs' : List MetaSubevent} (h : subs.map (·.isLive) = subs'.map (·.isLive)) :
    (subItems data header i subs).map (·.1) = (subItems data' header' i subs').map (·.1) := by
  induction subs generalizing i subs' with
  | nil =>
    rw [List.map_nil, eq_comm, List.map_eq_nil_iff] at h
    rw [h]
    rfl
  | cons sev subs ih =>
    cases subs' with
    | nil => simp at h
    | cons sev' subs' =>
      simp only [List.map_cons, List.cons.injEq, MetaSubevent.isLive] at h
      have htail : (subItems data header (i + 1) subs).map (·.1) =
          (subItems data' header' (i + 1) subs').map (·.1) := ih h.2
      cases hd : sev.dataOffset <;> cases hd' : sev'.dataOffset <;> simp [hd, hd'] at h
      · simpa [subItems, hd, hd'] using htail
      · simpa [subItems, hd, hd'] using htail

theorem relocateGroups_fst (data data' : List UInt8) (dest pos : Nat) (gs : List MetaGroup) :
    (itemsOf data pos (relocateGroups dest gs)).map (·.1) =
      (itemsOf data' pos gs).map (·.1) := by
  induction gs generalizing dest pos with
  | nil => rfl
  | cons g gs ih =>
    by_cases hz : g.ev.liveSub = 0
    · simp only [relocateGroups, hz, if_true, itemsOf, List.map_append, ih]
      rw [subItems_fst rfl]
    · simp only [relocateGroups, hz, if_false, itemsOf, List.map_append, ih, entries_length,
        relocateSubs_length]
      rw [subItems_fst (relocateSubs_isLive _ g.subs)]

theorem relocateGroups_items {data : List UInt8} {lo hi pos : Nat} {gs : List MetaGroup}
    (h : GroupsOk (fun _ => 0) pos gs) (hl : Laid lo (piecesOf gs) hi)
    (hhi : hi ≤ data.length) :
    itemsOf (contents data (piecesOf gs)) pos (relocateGroups 0 gs) = itemsOf data pos gs := by
  have hc := relocateGroups_carried [] [] h hl hhi
  rw [List.nil_append, List.append_nil, List.length_nil] at hc
  have hsnd : (itemsOf (contents data (piecesOf gs)) pos (relocateGroups 0 gs)).map (·.2) =
      (itemsOf data pos gs).map (·.2) := by
    rw [itemsOf_snd, itemsOf_snd, hc]
  rw [List.zip_of_prod (relocateGroups_fst _ data 0 pos gs) hsnd]
  exact (List.zip_of_prod rfl rfl).symm

theorem relocateGroups_lists {data : List UInt8} {lo hi pos : Nat} {gs : List MetaGroup}
    (h : GroupsOk (fun _ => 0) pos gs) (hl : Laid lo (piecesOf gs) hi)
    (hhi : hi ≤ data.length) :
    itemLists (contents data (piecesOf gs)) pos (relocateGroups 0 gs) = itemLists data pos gs := by
  rw [List.eq_iff_flatten_eq, itemLists_flatten, itemLists_flatten, relocateGroups_items h hl hhi,
    itemLists_lengths, itemLists_lengths]
  refine ⟨rfl, ?_⟩
  generalize 0 = dest
  clear h hl hhi
  induction gs generalizing dest with
  | nil => rfl
  | cons g gs ih =>
    by_cases hz : g.ev.liveSub = 0
    · rw [relocateGroups, if_pos hz, List.map_cons, List.map_cons, ih]
    · rw [relocateGroups, if_neg hz, List.map_cons, List.map_cons, ih, relocateSubs_live]

theorem itemLists_split (data : List UInt8) (gs₁ gs₂ : List MetaGroup) (ev : MetaEvent)
    (subs₁ subs₂ : List MetaSubevent) :
    ∃ A u v B, ∀ (ev' : MetaEvent) (sev : MetaSubevent),
      ev'.dataOffset = ev.dataOffset → ev'.dataLength = ev.dataLength →
      itemLists data 0 (gs₁ ++ ⟨ev', subs₁ ++ sev :: subs₂⟩ :: gs₂) =
        A ++ (u ++ subItems data (slice data ev.dataOffset ev.dataLength)
          ((flatMetas gs₁).length + (subs₁.length + 1)) [sev] ++ v) :: B := by
  refine ⟨itemLists data 0 gs₁, subItems data (slice data ev.dataOffset ev.dataLength)
      ((flatMetas gs₁).length + 1) subs₁, subItems data (slice data ev.dataOffset ev.dataLength)
      ((flatMetas gs₁).length + (subs₁.length + 1) + 1) subs₂,
    itemLists data ((flatMetas gs₁).length + (subs₁.length + 1) + 1 + subs₂.length) gs₂, ?_⟩
  intro ev' sev ho hl
  have hsubs : subItems data (slice data ev.dataOffset ev.dataLength)
      ((flatMetas gs₁).length + 1) (subs₁ ++ [sev] ++ subs₂) =
      subItems data (slice data ev.dataOffset ev.dataLength) ((flatMetas gs₁).length + 1) subs₁ ++
      subItems data (slice data ev.dataOffset ev.dataLength)
        ((flatMetas gs₁).length + (subs₁.length + 1)) [sev] ++
      subItems data (slice data ev.dataOffset ev.dataLength)
        ((flatMetas gs₁).length + (subs₁.length + 1) + 1) subs₂ := by
    rw [subItems_append, subItems_append]
    congr 2
    · congr 1
      omega
    · simp
      omega
  have hpos : 0 + (flatMetas gs₁).length + (subs₁.length + (subs₂.length + 1) + 1) =
      (flatMetas gs₁).length + (subs₁.length + 1) + 1 + subs₂.length := by omega
  rw [List.append_assoc, List.singleton_append] at hsubs
  rw [itemLists_append, itemLists, entries_length, MetaGroup.header, ho, hl, List.length_append,
    List.length_cons, hpos, Nat.zero_add, hsubs]

theorem subItems_mem {data header : List UInt8} {i : Nat} {subs : List MetaSubevent}
    {x : StickyItem} (h : x ∈ subItems data header i subs) :
    ∃ sev d, i ≤ x.1 ∧ subs[x.1 - i]? = some sev ∧ sev.dataOffset = some d ∧
      x.2 = (header, slice data d sev.dataLength) := by
  induction subs generalizing i with
  | nil => simp [subItems] at h
  | cons sev subs ih =>
    have later : x ∈ subItems data header (i + 1) subs → ∃ sev' d, i ≤ x.1 ∧
        (sev :: subs)[x.1 - i]? = some sev' ∧ sev'.dataOffset = some d ∧
        x.2 = (header, slice data d sev'.dataLength) := by
      intro hx
      obtain ⟨sev', d, hle, hget, hd, hsl⟩ := ih hx
      refine ⟨sev', d, by omega, ?_, hd, hsl⟩
      have hsub : x.1 - i = x.1 - (i + 1) + 1 := by omega
      rw [hsub, List.getElem?_cons_succ, hget]
    cases hd : sev.dataOffset with
    | none =>
      rw [subItems, hd] at h
      exact later h
    | some d =>
      rw [subItems, hd] at h
      rcases List.mem_cons.mp h with rfl | hx
      · exact ⟨sev, d, Nat.le_refl i, by simp, hd, rfl⟩
      · exact later hx

theorem subItems_sorted (data header : List UInt8) (i : Nat) (subs : List MetaSubevent) :
    (subItems data header i subs).Pairwise (fun x y => x.1 < y.1) := by
  induction subs generalizing i with
  | nil => exact List.Pairwise.nil
  | cons sev subs ih =>
    cases hd : sev.dataOffset with
    | none =>
      rw [subItems, hd]
      exact ih (i + 1)
    | some d =>
      rw [subItems, hd]
      refine List.Pairwise.cons ?_ (ih (i + 1))
      intro y hy
      obtain ⟨_, _, hle, _⟩ := subItems_mem hy
      exact hle

theorem itemsOf_mem {data : List UInt8} {gs : List MetaGroup} {pos : Nat} {x : StickyItem}
    (h : x ∈ itemsOf data pos gs) :
    ∃ sev d, pos ≤ x.1 ∧ (flatMetas gs)[x.1 - pos]? = some (.subevent sev) ∧
      sev.dataOffset = some d ∧ x.2.2 = slice data d sev.dataLength := by
  induction gs generalizing pos with
  | nil => simp [itemsOf] at h
  | cons g gs ih =>
    rcases List.mem_append.mp h with hx | hx
    · obtain ⟨sev, d, hle, hget, hd, hsl⟩ := subItems_mem hx
      refine ⟨sev, d, by omega, ?_, hd, by rw [hsl]⟩
      have hsub : x.1 - pos = x.1 - (pos + 1) + 1 := by omega
      have hlt : x.1 - (pos + 1) < (g.subs.map MetaEntry.subevent).length := by
        rw [List.length_map]
        exact (List.getElem?_eq_some_iff.mp hget).1
      rw [flatMetas_cons, MetaGroup.entries, List.cons_append, hsub, List.getElem?_cons_succ,
        List.getElem?_append_left hlt, List.getElem?_map, hget]
      rfl
    · obtain ⟨sev, d, hle, hget, hd, hsl⟩ := ih hx
      refine ⟨sev, d, by omega, ?_, hd, hsl⟩
      rw [flatMetas_cons, List.getElem?_append_right (by omega), Nat.sub_sub, hget]

theorem itemsOf_sorted (data : List UInt8) (pos : Nat) (gs : List MetaGroup) :
    (itemsOf data pos gs).Pairwise (fun x y => x.1 < y.1) := by
  induction gs generalizing pos with
  | nil => exact List.Pairwise.nil
  | cons g gs ih =>
    refine List.pairwise_append.mpr ⟨subItems_sorted _ _ _ _, ih _, ?_⟩
    intro x hx y hy
    obtain ⟨_, _, hle, hget, _⟩ := subItems_mem hx
    obtain ⟨_, _, hley, _⟩ := itemsOf_mem hy
    have hlt := (List.getElem?_eq_some_iff.mp hget).1
    rw [entries_length] at hley
    omega

theorem itemsOf_fst_nodup (data : List UInt8) (pos : Nat) (gs : List MetaGroup) :
    ((itemsOf data pos gs).map (·.1)).Nodup := by
  rw [List.nodup_iff_pairwise_ne, List.pairwise_map]
  exact (itemsOf_sorted data pos gs).imp fun h => Nat.ne_of_lt h

def pendAt (openPos pend : Nat) : Nat → Nat := fun pos => if pos = openPos then pend else 0

structure TableOk (hash : List (HashSlot Nat)) (used pend : Nat) (items : List StickyItem) :
    Prop where
  size : hash = [] ∨ ∃ k, hash.length = 2 ^ k
  filled : filled hash ≤ used
  room : used + pend ≤ hash.length / 2
  exact : (usedOf hash).Perm (items.map (·.1))
  found : Findable hash (items.map fun x => (x.1, stickySubeventHash x.2.2))

/-- The arrays of the store between two insertions (`pend = 0`), or while the event at
`openPos` is inserted and `pend` of its subevents, with data from `top` on, are to come. -/
structure CoreInv (s : StickyStore) (gs : List MetaGroup) (openPos pend top : Nat) : Prop where
  metas : s.metas = flatMetas gs
  groups : GroupsOk (pendAt openPos pend) 0 gs
  laid : Laid 0 (piecesOf gs) top
  top_le : top ≤ s.data.length
  header : ∀ g ∈ gs, sizeofEvent101 ≤ g.ev.dataLength

structure StoreInv (s : StickyStore) (gs : List MetaGroup) (openPos pend top : Nat) : Prop
    extends CoreInv s gs openPos pend top where
  whole : ∀ x ∈ itemsOf s.data 0 gs, WholeSubevent x.2.2
  ids : ((itemsOf s.data 0 gs).map fun x => subId x.2.2).Nodup
  table : TableOk s.hash s.hashUsed pend (itemsOf s.data 0 gs)

theorem pendAt_zero (openPos : Nat) : pendAt openPos 0 = fun _ => 0 := by
  funext pos
  simp [pendAt]

theorem storeInv_empty : StoreInv StickyStore.empty [] 0 0 0 where
  metas := rfl
  groups := trivial
  laid := Nat.le_refl 0
  top_le := Nat.le_refl 0
  header := by simp
  whole := by simp [itemsOf]
  ids := by simp [itemsOf]
  table :=
    { size := .inl rfl
      filled := Nat.le_refl 0
      room := Nat.le_refl 0
      exact := List.Perm.nil
      found := by simp [Findable, itemsOf] }

theorem stickySubeventHash_congr {a b : List UInt8} (h : subId a = subId b) :
    stickySubeventHash a = stickySubeventHash b := by
  simp [stickySubeventHash, h]

theorem subId_drop {data : List UInt8} {d len : Nat} (h : WholeSubevent (slice data d len)) :
    subId (data.drop d) = subId (slice data d len) := by
  have happ := subId_append ((data.drop d).drop len) h.header
  rw [slice, List.take_append_drop] at happ
  exact happ

theorem tableOk_count {hash : List (HashSlot Nat)} {used pend : Nat} {items : List StickyItem}
    (h : TableOk hash used pend items) : items.length ≤ used := by
  have hlen := h.exact.length_eq
  rw [List.length_map] at hlen
  rw [← hlen]
  exact Nat.le_trans (usedOf_length_le hash) h.filled

theorem tableOk_item {hash : List (HashSlot Nat)} {used pend i off : Nat}
    {items : List StickyItem} (h : TableOk hash used pend items)
    (hi : hash[i]? = some (.used off)) : ∃ x ∈ items, x.1 = off :=
  List.mem_map.mp (h.exact.mem_iff.mp (mem_usedOf.mpr (List.mem_of_getElem? hi)))

/-- `populate_hash` reads the offset and the id of an item. -/
def ItemAt (data : List UInt8) (p : Nat × Nat) (x : StickyItem) : Prop :=
  p.1 = x.1 ∧ subId (data.drop p.2) = subId x.2.2

theorem zipIdx_items {data header : List UInt8} {i : Nat} {subs : List MetaSubevent}
    (hw : ∀ x ∈ subItems data header i subs, WholeSubevent x.2.2) :
    List.Forall₂ (ItemAt data)
      ((subs.zipIdx i).filterMap fun p => p.1.dataOffset.map fun d => (p.2, d))
      (subItems data header i subs) := by
  induction subs generalizing i with
  | nil => exact List.Forall₂.nil
  | cons sev subs ih =>
    cases hd : sev.dataOffset with
    | none =>
      rw [subItems, hd] at hw ⊢
      simpa [List.zipIdx_cons, hd] using ih hw
    | some d =>
      rw [subItems, hd] at hw ⊢
      have htail := ih fun x hx => hw x (List.mem_cons_of_mem _ hx)
      have hhead : ItemAt data (i, d) (i, header, slice data d sev.dataLength) :=
        ⟨rfl, subId_drop (hw (i, header, slice data d sev.dataLength) (by simp))⟩
      simpa [List.zipIdx_cons, hd] using And.intro hhead htail

theorem liveSubs_items {data : List UInt8} {pos : Nat} {gs : List MetaGroup}
    (h : GroupsOk (fun _ => 0) pos gs) (hw : ∀ x ∈ itemsOf data pos gs, WholeSubevent x.2.2) :
    List.Forall₂ (ItemAt data) (liveSubs pos gs) (itemsOf data pos gs) := by
  induction gs generalizing pos with
  | nil => exact List.Forall₂.nil
  | cons g gs ih =>
    simp only [itemsOf, List.mem_append] at hw
    have htail := ih h.2 fun x hx => hw x (.inr hx)
    have hpos : pos + g.entries.length = pos + 1 + g.subs.length := by
      rw [entries_length]
      omega
    rw [hpos] at htail
    simp only [liveSubs, itemsOf, hpos]
    refine List.rel_append ?_ htail
    by_cases hz : g.ev.liveSub = 0
    · have hs : subItems data (g.header data) (pos + 1) g.subs = [] := by
        apply List.map_eq_nil_iff.mp
        rw [subItems_snd, subPieces_eq_nil h.1 hz, List.map_nil]
      rw [if_pos hz, hs]
      exact List.Forall₂.nil
    · rw [if_neg hz]
      exact zipIdx_items fun x hx => hw x (.inl hx)

theorem populateHash_fold {data : List UInt8} {k : Nat} {L : List (Nat × Nat)}
    {items : List StickyItem} {s : StickyStore} {done : List (Nat × Nat)}
    (hdata : s.data = data) (hn : s.hash.length = 2 ^ k)
    (hL : List.Forall₂ (ItemAt data) L items)
    (hf : filled s.hash ≤ s.hashUsed) (hroom : s.hashUsed + items.length ≤ s.hash.length / 2)
    (hdone : Findable s.hash done) :
    ∃ t, L.foldlM (fun (s : StickyStore) (p : Nat × Nat) => s.insertHash p.1 p.2) s =
        .ok { s with hash := t, hashUsed := s.hashUsed + items.length } ∧
      t.length = s.hash.length ∧ filled t ≤ s.hashUsed + items.length ∧
      (usedOf t).Perm (usedOf s.hash ++ items.map (·.1)) ∧
      Findable t (done ++ items.map fun x => (x.1, stickySubeventHash x.2.2)) := by
  induction hL generalizing s done with
  | nil =>
    exact ⟨s.hash, by simp; rfl, rfl, by simpa using hf, by simp, by simpa using hdone⟩
  | @cons p x L items hp _ ih =>
    obtain ⟨off, d⟩ := p
    obtain ⟨hoff, hid⟩ := hp
    have hoff : off = x.1 := hoff
    subst hdata
    simp only [List.length_cons] at hroom
    have hpos := Nat.two_pow_pos k
    have hlt : filled s.hash < s.hash.length := by omega
    obtain ⟨i, slot, hfree, hi, hslot, hreach, _⟩ :=
      findFree_spec hn hlt (stickySubeventHash (s.data.drop d))
    have hstep : s.insertHash off d =
        .ok { s with hash := s.hash.set i (.used off), hashUsed := s.hashUsed + 1 } := by
      rw [StickyStore.insertHash, hfree]
    have hput : Findable (s.hash.set i (.used off))
        (done ++ [(off, stickySubeventHash (s.data.drop d))]) :=
      findable_put hdone hi hslot hreach
    have hle := filled_set_le s.hash i (.used off)
    obtain ⟨t, hfold, hlen, hfil, hperm, hfnd⟩ :=
      @ih { s with hash := s.hash.set i (.used off), hashUsed := s.hashUsed + 1 } _
      rfl (by rw [← hn]; simp) (by simp; omega) (by simp; omega) hput
    have hused : s.hashUsed + 1 + items.length = s.hashUsed + (x :: items).length := by
      rw [List.length_cons]
      omega
    simp only [List.length_set, hused] at hlen hfil hfold
    refine ⟨t, ?_, hlen, hfil, ?_, ?_⟩
    · rw [List.foldlM_cons, hstep]
      exact hfold
    · have hput := (@usedOf_put _ _ _ _ off hi hslot).append_right (items.map (·.1))
      rw [List.append_assoc, List.singleton_append, hoff] at hput
      exact hperm.trans (hoff ▸ hput)
    · rw [stickySubeventHash_congr hid, List.append_assoc] at hfnd
      rw [hoff] at hfnd
      exact hfnd

theorem populateHash_ok {s : StickyStore} {gs : List MetaGroup} {pend : Nat}
    (hm : s.metas = flatMetas gs) (hg : GroupsOk (fun _ => 0) 0 gs)
    (hw : ∀ x ∈ itemsOf s.data 0 gs, WholeSubevent x.2.2)
    (hn : s.hash = [] ∨ ∃ k, s.hash.length = 2 ^ k)
    (hroom : (itemsOf s.data 0 gs).length + pend ≤ s.hash.length / 2) :
    ∃ t used, s.populateHash = .ok { s with hash := t, hashUsed := used } ∧
      TableOk t used pend (itemsOf s.data 0 gs) := by
  have hgroups : s.groups = gs := by
    rw [StickyStore.groups, hm]
    exact iterEvents_flatMetas hg (Nat.le_refl _)
  have hL := liveSubs_items hg hw
  have hrep : filled (List.replicate s.hash.length (.empty : HashSlot Nat)) = 0 := by
    simp [filled, List.countP_replicate, HashSlot.isEmpty]
  rcases hn with hn | ⟨k, hn⟩
  · have hz : itemsOf s.data 0 gs = [] := by
      apply List.length_eq_zero_iff.mp
      simp [hn] at hroom
      simp [hroom]
    refine ⟨[], 0, ?_, ?_⟩
    · rw [hz, List.forall₂_nil_right_iff] at hL
      simp [StickyStore.populateHash, hgroups, hL, hn]
      rfl
    · rw [hz]
      refine ⟨.inl rfl, Nat.le_refl 0, ?_, List.Perm.nil, by simp [Findable]⟩
      simp [hn] at hroom
      simp [hroom]
  · obtain ⟨t, hfold, hlen, hfil, hperm, hfnd⟩ := @populateHash_fold s.data k _ _
      { s with hash := List.replicate s.hash.length .empty, hashUsed := 0 } []
      rfl (by simpa using hn) hL (by simp [hrep]) (by simp; omega) (by simp [Findable])
    simp only [usedOf_replicate_empty, List.length_replicate, Nat.zero_add, List.nil_append]
      at hfold hlen hfil hperm hfnd
    refine ⟨t, _, ?_, ⟨.inr ⟨k, hlen.trans hn⟩, hfil, by omega, hperm, hfnd⟩⟩
    rw [StickyStore.populateHash, hgroups]
    exact hfold

end Ucesb
