import Ucesb.StickyStore

namespace Ucesb

/-- The book-keeping of one event at offset `pos`, of whose subevents `pend` are yet to be
entered. -/
structure GroupOk (pend pos : Nat) (g : MetaGroup) : Prop where
  numSub : g.ev.numSub = g.subs.length + pend
  liveSub : g.ev.liveSub = g.subs.countP (·.isLive) + pend
  evOffset : ∀ sev ∈ g.subs, sev.evOffset = pos

def GroupsOk (pend : Nat → Nat) : Nat → List MetaGroup → Prop
  | _, [] => True
  | pos, g :: gs => GroupOk (pend pos) pos g ∧ GroupsOk pend (pos + g.entries.length) gs

def subPieces (subs : List MetaSubevent) : List (Nat × Nat) :=
  subs.filterMap fun sev => sev.dataOffset.map fun d => (d, sev.dataLength)

def MetaGroup.pieces (g : MetaGroup) : List (Nat × Nat) :=
  if g.ev.liveSub = 0 then [] else (g.ev.dataOffset, g.ev.dataLength) :: subPieces g.subs

def piecesOf (gs : List MetaGroup) : List (Nat × Nat) := gs.flatMap MetaGroup.pieces

def MetaGroup.carried (data : List UInt8) (g : MetaGroup) : List (List UInt8 × List UInt8) :=
  (subPieces g.subs).map fun p =>
    (slice data g.ev.dataOffset g.ev.dataLength, slice data p.1 p.2)

def carried (data : List UInt8) (gs : List MetaGroup) : List (List UInt8 × List UInt8) :=
  gs.flatMap fun g => g.carried data

def liveLists (data : List UInt8) (gs : List MetaGroup) : List (List (List UInt8 × List UInt8)) :=
  (gs.map fun g => g.carried data).filter (! ·.isEmpty)

theorem liveLists_flatten (data : List UInt8) (gs : List MetaGroup) :
    (liveLists data gs).flatten = carried data gs := by
  rw [liveLists, List.flatten_filter_not_isEmpty, carried, List.flatMap_def]

@[simp] theorem entries_length (g : MetaGroup) : g.entries.length = g.subs.length + 1 := by
  simp [MetaGroup.entries]

@[simp] theorem flatMetas_nil : flatMetas [] = [] := rfl

@[simp] theorem piecesOf_nil : piecesOf [] = [] := rfl

@[simp] theorem flatMetas_cons (g : MetaGroup) (gs : List MetaGroup) :
    flatMetas (g :: gs) = g.entries ++ flatMetas gs := by
  simp [flatMetas]

@[simp] theorem flatMetas_append (gs hs : List MetaGroup) :
    flatMetas (gs ++ hs) = flatMetas gs ++ flatMetas hs := by
  simp [flatMetas]

@[simp] theorem carried_append (data : List UInt8) (gs hs : List MetaGroup) :
    carried data (gs ++ hs) = carried data gs ++ carried data hs := by
  simp [carried]

@[simp] theorem carried_cons (data : List UInt8) (g : MetaGroup) (gs : List MetaGroup) :
    carried data (g :: gs) = g.carried data ++ carried data gs := by
  simp [carried]

@[simp] theorem piecesOf_append (gs hs : List MetaGroup) :
    piecesOf (gs ++ hs) = piecesOf gs ++ piecesOf hs := by
  simp [piecesOf]

@[simp] theorem piecesOf_cons (g : MetaGroup) (gs : List MetaGroup) :
    piecesOf (g :: gs) = g.pieces ++ piecesOf gs := by
  simp [piecesOf]

@[simp] theorem subPieces_append (xs ys : List MetaSubevent) :
    subPieces (xs ++ ys) = subPieces xs ++ subPieces ys := by
  simp [subPieces]

theorem subPieces_length (subs : List MetaSubevent) :
    (subPieces subs).length = subs.countP (·.isLive) := by
  induction subs with
  | nil => rfl
  | cons sev subs ih =>
    simp only [subPieces] at ih
    cases hd : sev.dataOffset <;> simp [subPieces, MetaSubevent.isLive, hd, ih]

theorem subPieces_eq_nil {g : MetaGroup} {pos : Nat} (h : GroupOk 0 pos g)
    (hz : g.ev.liveSub = 0) : subPieces g.subs = [] := by
  apply List.length_eq_zero_iff.mp
  rw [subPieces_length]
  have := h.liveSub
  omega

theorem groupsOk_append {pend : Nat → Nat} {pos : Nat} {gs hs : List MetaGroup} :
    GroupsOk pend pos (gs ++ hs) ↔
      GroupsOk pend pos gs ∧ GroupsOk pend (pos + (flatMetas gs).length) hs := by
  induction gs generalizing pos with
  | nil => simp [GroupsOk, flatMetas]
  | cons g gs ih =>
    simp only [List.cons_append, GroupsOk, ih, flatMetas_cons, List.length_append, and_assoc,
      Nat.add_assoc]

theorem filterMap_subevent (subs : List MetaSubevent) :
    (subs.map MetaEntry.subevent).filterMap MetaEntry.subevent? = subs := by
  rw [List.filterMap_map]
  exact List.filterMap_some

theorem iterEvents_flatMetas {pos fuel : Nat} {gs : List MetaGroup}
    (h : GroupsOk (fun _ => 0) pos gs) (hf : (flatMetas gs).length ≤ fuel) :
    iterEvents fuel (flatMetas gs) = gs := by
  induction gs generalizing pos fuel with
  | nil => cases fuel <;> rfl
  | cons g gs ih =>
    rw [flatMetas_cons, List.length_append, entries_length] at hf
    obtain ⟨fuel, rfl⟩ := Nat.exists_eq_add_one_of_ne_zero (show fuel ≠ 0 by omega)
    have hn : g.ev.numSub = (g.subs.map MetaEntry.subevent).length := by
      rw [List.length_map]
      exact h.1.numSub
    rw [flatMetas_cons, MetaGroup.entries, List.cons_append, iterEvents, hn, List.take_left,
      List.drop_left, filterMap_subevent, ih h.2 (by omega)]

theorem flatMetas_subevent {gs : List MetaGroup} {off : Nat} {sev : MetaSubevent}
    (h : (flatMetas gs)[off]? = some (.subevent sev)) :
    ∃ gs₁ g gs₂ subs₁ subs₂, gs = gs₁ ++ g :: gs₂ ∧ g.subs = subs₁ ++ sev :: subs₂ ∧
      off = (flatMetas gs₁).length + (subs₁.length + 1) := by
  induction gs generalizing off with
  | nil => simp [flatMetas] at h
  | cons g gs ih =>
    rw [flatMetas_cons, List.getElem?_append] at h
    split at h
    next hlt =>
      rw [MetaGroup.entries] at h
      cases off with
      | zero => simp at h
      | succ off =>
        rw [List.getElem?_cons_succ, List.getElem?_map, Option.map_eq_some_iff] at h
        obtain ⟨sev', hs, he⟩ := h
        cases he
        obtain ⟨hlt, hs⟩ := List.getElem?_eq_some_iff.mp hs
        refine ⟨[], g, gs, g.subs.take off, g.subs.drop (off + 1), rfl, ?_, ?_⟩
        · rw [← hs, List.getElem_cons_drop, List.take_append_drop]
        · rw [List.length_take, Nat.min_eq_left (Nat.le_of_lt hlt)]
          simp [flatMetas]
    next hge =>
      obtain ⟨gs₁, g', gs₂, subs₁, subs₂, rfl, hsub, hoff⟩ := ih h
      refine ⟨g :: gs₁, g', gs₂, subs₁, subs₂, rfl, hsub, ?_⟩
      rw [flatMetas_cons, List.length_append]
      omega

theorem flatMetas_getElem_event (gs₁ gs₂ : List MetaGroup) (g : MetaGroup) :
    (flatMetas (gs₁ ++ g :: gs₂))[(flatMetas gs₁).length]? = some (.event g.ev) := by
  rw [flatMetas_append, List.getElem?_append_right (Nat.le_refl _), Nat.sub_self]
  rfl

theorem flatMetas_getElem_subevent (gs₁ gs₂ : List MetaGroup) (ev : MetaEvent)
    (subs₁ subs₂ : List MetaSubevent) (sev : MetaSubevent) :
    (flatMetas (gs₁ ++ ⟨ev, subs₁ ++ sev :: subs₂⟩ :: gs₂))[
      (flatMetas gs₁).length + (subs₁.length + 1)]? = some (.subevent sev) := by
  rw [flatMetas_append, List.getElem?_append_right (Nat.le_add_right _ _),
    Nat.add_sub_cancel_left, flatMetas_cons]
  simp [MetaGroup.entries]

theorem flatMetas_set_event (gs₁ gs₂ : List MetaGroup) (g : MetaGroup) (ev : MetaEvent) :
    (flatMetas (gs₁ ++ g :: gs₂)).set (flatMetas gs₁).length (.event ev) =
      flatMetas (gs₁ ++ ⟨ev, g.subs⟩ :: gs₂) := by
  rw [flatMetas_append, List.set_append_right _ _ (Nat.le_refl _), Nat.sub_self,
    flatMetas_append]
  rfl

theorem flatMetas_set_subevent (gs₁ gs₂ : List MetaGroup) (ev : MetaEvent)
    (subs₁ subs₂ : List MetaSubevent) (sev sev' : MetaSubevent) :
    (flatMetas (gs₁ ++ ⟨ev, subs₁ ++ sev :: subs₂⟩ :: gs₂)).set
        ((flatMetas gs₁).length + (subs₁.length + 1)) (.subevent sev') =
      flatMetas (gs₁ ++ ⟨ev, subs₁ ++ sev' :: subs₂⟩ :: gs₂) := by
  rw [flatMetas_append, List.set_append_right _ _ (Nat.le_add_right _ _),
    Nat.add_sub_cancel_left, flatMetas_append, flatMetas_cons, flatMetas_cons]
  simp [MetaGroup.entries]

theorem groupsOk_mem {pend : Nat → Nat} {pos : Nat} {gs : List MetaGroup} {g : MetaGroup}
    (h : GroupsOk pend pos gs) (hm : g ∈ gs) : ∃ p, GroupOk (pend p) p g := by
  induction gs generalizing pos with
  | nil => simp at hm
  | cons g' gs ih =>
    rcases List.mem_cons.mp hm with rfl | hm
    · exact ⟨pos, h.1⟩
    · exact ih h.2 hm

theorem groupsOk_cons_inv {pend : Nat → Nat} {gs₁ gs₂ : List MetaGroup} {g : MetaGroup}
    (h : GroupsOk pend 0 (gs₁ ++ g :: gs₂)) :
    GroupOk (pend (flatMetas gs₁).length) (flatMetas gs₁).length g := by
  have h2 := (groupsOk_append.mp h).2
  rw [Nat.zero_add] at h2
  exact h2.1

theorem groupsOk_congr {pend pend' : Nat → Nat} {pos : Nat} {gs : List MetaGroup}
    (h : GroupsOk pend pos gs)
    (hp : ∀ p, pos ≤ p → p < pos + (flatMetas gs).length → pend' p = pend p) :
    GroupsOk pend' pos gs := by
  induction gs generalizing pos with
  | nil => trivial
  | cons g gs ih =>
    rw [flatMetas_cons, List.length_append, entries_length] at hp
    refine ⟨?_, ih h.2 ?_⟩
    · rw [hp pos (Nat.le_refl pos) (by omega)]
      exact h.1
    · intro p hle hlt
      rw [entries_length] at hle hlt
      exact hp p (by omega) (by omega)

theorem groupsOk_replace {pend : Nat → Nat} {gs₁ gs₂ : List MetaGroup} {g g' : MetaGroup}
    (h : GroupsOk pend 0 (gs₁ ++ g :: gs₂)) (hlen : g'.subs.length = g.subs.length)
    (hg : GroupOk (pend (flatMetas gs₁).length) (flatMetas gs₁).length g') :
    GroupsOk pend 0 (gs₁ ++ g' :: gs₂) := by
  obtain ⟨h1, h2⟩ := groupsOk_append.mp h
  refine groupsOk_append.mpr ⟨h1, ?_⟩
  rw [Nat.zero_add] at h2 ⊢
  refine ⟨hg, ?_⟩
  have h3 := h2.2
  rw [entries_length] at h3 ⊢
  rw [hlen]
  exact h3

theorem groupsOk_replace_last {pend pend' : Nat → Nat} {gs : List MetaGroup} {g' : MetaGroup}
    (h : GroupsOk pend 0 gs)
    (hp : ∀ p, p < (flatMetas gs).length → pend' p = pend p)
    (hg : GroupOk (pend' (flatMetas gs).length) (flatMetas gs).length g') :
    GroupsOk pend' 0 (gs ++ [g']) := by
  refine groupsOk_append.mpr ⟨groupsOk_congr h ?_, ?_, trivial⟩
  · intro p _ hlt
    exact hp p (by omega)
  · rw [Nat.zero_add]
    exact hg

/-- The subevents after `compact_data` has moved the live ones to `dest` on. -/
def relocateSubs (dest : Nat) : List MetaSubevent → List MetaSubevent
  | [] => []
  | sev :: subs =>
    match sev.dataOffset with
    | none => sev :: relocateSubs dest subs
    | some _ =>
      { sev with dataOffset := some dest } :: relocateSubs (dest + sev.dataLength) subs

def relocateGroups (dest : Nat) : List MetaGroup → List MetaGroup
  | [] => []
  | g :: gs =>
    if g.ev.liveSub = 0 then g :: relocateGroups dest gs
    else
      ⟨{ g.ev with dataOffset := dest }, relocateSubs (dest + g.ev.dataLength) g.subs⟩ ::
        relocateGroups (dest + piecesLength g.pieces) gs

theorem movePieces_append {α : Type} (data : List α) (dest : Nat) (ps qs : List (Nat × Nat)) :
    movePieces data dest (ps ++ qs) =
      movePieces (movePieces data dest ps) (dest + piecesLength ps) qs := by
  induction ps generalizing data dest with
  | nil => rfl
  | cons p ps ih => simp [movePieces, ih, piecesLength, Nat.add_assoc]

theorem piecesLength_append (ps qs : List (Nat × Nat)) :
    piecesLength (ps ++ qs) = piecesLength ps + piecesLength qs := by
  simp [piecesLength]

theorem piecesLength_cons (p : Nat × Nat) (ps : List (Nat × Nat)) :
    piecesLength (p :: ps) = p.2 + piecesLength ps := by
  simp [piecesLength]

theorem compactSubs_eq (data : List UInt8) (dest : Nat) (subs : List MetaSubevent) :
    compactSubs data dest subs =
      (movePieces data dest (subPieces subs), dest + piecesLength (subPieces subs),
        relocateSubs dest subs) := by
  induction subs generalizing data dest with
  | nil => rfl
  | cons sev subs ih =>
    cases hd : sev.dataOffset with
    | none => simp [compactSubs, relocateSubs, subPieces, hd, ih]
    | some src =>
      have hp : subPieces (sev :: subs) = (src, sev.dataLength) :: subPieces subs := by
        simp [subPieces, hd]
      simp only [compactSubs, relocateSubs, hd, ih, hp, movePieces, piecesLength_cons,
        Nat.add_assoc]

theorem compactGroups_eq (data : List UInt8) (dest : Nat) (gs : List MetaGroup) :
    compactGroups data dest gs =
      (movePieces data dest (piecesOf gs), dest + piecesLength (piecesOf gs),
        relocateGroups dest gs) := by
  induction gs generalizing data dest with
  | nil => rfl
  | cons g gs ih =>
    by_cases hz : g.ev.liveSub = 0
    · have hp : g.pieces = [] := by simp [MetaGroup.pieces, hz]
      simp [compactGroups, relocateGroups, hz, ih, hp]
    · have hp : g.pieces = (g.ev.dataOffset, g.ev.dataLength) :: subPieces g.subs := by
        simp [MetaGroup.pieces, hz]
      simp only [compactGroups, relocateGroups, hz, if_false, compactSubs_eq, ih, piecesOf_cons,
        hp, movePieces_append, movePieces, piecesLength_append, piecesLength_cons, Nat.add_assoc]

section Relocated

variable {data : List UInt8} {lo hi : Nat}

theorem slice_middle {α : Type} (pre xs post : List α) :
    slice (pre ++ xs ++ post) pre.length xs.length = xs := by
  rw [slice, List.append_assoc, List.drop_left, List.take_left]

theorem relocateSubs_slices {subs : List MetaSubevent} (pre post : List UInt8)
    (hl : Laid lo (subPieces subs) hi) (hhi : hi ≤ data.length) :
    (subPieces (relocateSubs pre.length subs)).map
        (fun p => slice (pre ++ contents data (subPieces subs) ++ post) p.1 p.2) =
      (subPieces subs).map fun p => slice data p.1 p.2 := by
  induction subs generalizing lo pre with
  | nil => rfl
  | cons sev subs ih =>
    cases hd : sev.dataOffset with
    | none =>
      have hp : subPieces (sev :: subs) = subPieces subs := by simp [subPieces, hd]
      have hr : subPieces (relocateSubs pre.length (sev :: subs)) =
          subPieces (relocateSubs pre.length subs) := by
        simp [relocateSubs, subPieces, hd]
      rw [hp] at hl ⊢
      rw [hr]
      exact ih pre hl
    | some src =>
      have hp : subPieces (sev :: subs) = (src, sev.dataLength) :: subPieces subs := by
        simp [subPieces, hd]
      have hr : subPieces (relocateSubs pre.length (sev :: subs)) =
          (pre.length, sev.dataLength) ::
            subPieces (relocateSubs (pre.length + sev.dataLength) subs) := by
        simp [relocateSubs, subPieces, hd]
      rw [hp] at hl ⊢
      have hlen : (slice data src sev.dataLength).length = sev.dataLength :=
        slice_length (Nat.le_trans (laid_le hl.2) hhi)
      have hcont : contents data ((src, sev.dataLength) :: subPieces subs) =
          slice data src sev.dataLength ++ contents data (subPieces subs) := by
        simp [contents]
      have htail := ih (pre ++ slice data src sev.dataLength) hl.2
      rw [List.length_append, hlen] at htail
      rw [hr, hcont, List.map_cons, List.map_cons]
      congr 1
      · have hmid := slice_middle pre (slice data src sev.dataLength)
          (contents data (subPieces subs) ++ post)
        rw [hlen] at hmid
        simpa using hmid
      · simpa using htail

theorem relocateSubs_laid (dest : Nat) (subs : List MetaSubevent) :
    Laid dest (subPieces (relocateSubs dest subs)) (dest + piecesLength (subPieces subs)) := by
  induction subs generalizing dest with
  | nil => exact Nat.le_refl dest
  | cons sev subs ih =>
    cases hd : sev.dataOffset with
    | none => simpa [relocateSubs, subPieces, hd] using ih dest
    | some src =>
      have := ih (dest + sev.dataLength)
      simp only [subPieces] at this
      simp [relocateSubs, subPieces, hd, Laid, piecesLength_cons, ← Nat.add_assoc, this]

theorem relocateSubs_isLive (dest : Nat) (subs : List MetaSubevent) :
    (relocateSubs dest subs).map (·.isLive) = subs.map (·.isLive) := by
  induction subs generalizing dest with
  | nil => rfl
  | cons sev subs ih =>
    simp only [MetaSubevent.isLive] at ih ⊢
    cases hd : sev.dataOffset <;> simp [relocateSubs, hd, ih]

theorem relocateSubs_length (dest : Nat) (subs : List MetaSubevent) :
    (relocateSubs dest subs).length = subs.length := by
  simpa using congrArg List.length (relocateSubs_isLive dest subs)

theorem relocateSubs_live (dest : Nat) (subs : List MetaSubevent) :
    (relocateSubs dest subs).countP (·.isLive) = subs.countP (·.isLive) := by
  have h := congrArg (List.countP id) (relocateSubs_isLive dest subs)
  simpa [List.countP_map] using h

theorem relocateSubs_evOffset {dest pos : Nat} {subs : List MetaSubevent}
    (h : ∀ sev ∈ subs, sev.evOffset = pos) :
    ∀ sev ∈ relocateSubs dest subs, sev.evOffset = pos := by
  induction subs generalizing dest with
  | nil => simp [relocateSubs]
  | cons sev subs ih =>
    have hs := h sev (by simp)
    have ht : ∀ dest, ∀ sev ∈ relocateSubs dest subs, sev.evOffset = pos :=
      fun _ => ih fun sev hm => h sev (by simp [hm])
    cases hd : sev.dataOffset with
    | none => simpa [relocateSubs, hd, hs] using ht dest
    | some src => simpa [relocateSubs, hd, hs] using ht (dest + sev.dataLength)

theorem relocateGroups_ok {dest pos : Nat} {gs : List MetaGroup}
    (h : GroupsOk (fun _ => 0) pos gs) :
    GroupsOk (fun _ => 0) pos (relocateGroups dest gs) := by
  induction gs generalizing dest pos with
  | nil => trivial
  | cons g gs ih =>
    by_cases hz : g.ev.liveSub = 0
    · rw [relocateGroups, if_pos hz]
      exact ⟨h.1, ih h.2⟩
    · rw [relocateGroups, if_neg hz]
      have hg := h.1
      refine ⟨⟨?_, ?_, relocateSubs_evOffset hg.evOffset⟩, ?_⟩
      · rw [relocateSubs_length]
        exact hg.numSub
      · rw [relocateSubs_live]
        exact hg.liveSub
      · have htail := h.2
        rw [entries_length] at htail ⊢
        rw [relocateSubs_length]
        exact ih htail

theorem relocateGroups_header {n dest : Nat} {gs : List MetaGroup}
    (h : ∀ g ∈ gs, n ≤ g.ev.dataLength) : ∀ g ∈ relocateGroups dest gs, n ≤ g.ev.dataLength := by
  induction gs generalizing dest with
  | nil => simp [relocateGroups]
  | cons g gs ih =>
    have hg := h g (by simp)
    have ht : ∀ dest, ∀ g ∈ relocateGroups dest gs, n ≤ g.ev.dataLength :=
      fun _ => ih fun g hm => h g (by simp [hm])
    by_cases hz : g.ev.liveSub = 0
    · simpa [relocateGroups, hz, hg] using ht dest
    · simpa [relocateGroups, hz, hg] using ht (dest + piecesLength g.pieces)

theorem relocateGroups_laid {dest : Nat} {gs : List MetaGroup} :
    Laid dest (piecesOf (relocateGroups dest gs)) (dest + piecesLength (piecesOf gs)) := by
  induction gs generalizing dest with
  | nil => exact Nat.le_refl dest
  | cons g gs ih =>
    by_cases hz : g.ev.liveSub = 0
    · have hp : g.pieces = [] := by simp [MetaGroup.pieces, hz]
      rw [relocateGroups, if_pos hz, piecesOf_cons, piecesOf_cons, hp]
      exact ih
    · have hsub := relocateSubs_laid (dest + g.ev.dataLength) g.subs
      rw [relocateGroups, if_neg hz, piecesOf_cons, piecesOf_cons, piecesLength_append,
        ← Nat.add_assoc]
      refine laid_append.mpr ⟨dest + piecesLength g.pieces, ?_, ih⟩
      simp only [MetaGroup.pieces, hz, if_false]
      refine ⟨Nat.le_refl dest, ?_⟩
      rw [piecesLength_cons, ← Nat.add_assoc]
      exact hsub

theorem relocateGroups_carried {pos : Nat} {gs : List MetaGroup} (pre post : List UInt8)
    (h : GroupsOk (fun _ => 0) pos gs) (hl : Laid lo (piecesOf gs) hi)
    (hhi : hi ≤ data.length) :
    carried (pre ++ contents data (piecesOf gs) ++ post) (relocateGroups pre.length gs) =
      carried data gs := by
  induction gs generalizing lo pos pre with
  | nil => rfl
  | cons g gs ih =>
    by_cases hz : g.ev.liveSub = 0
    · have hp : g.pieces = [] := by simp [MetaGroup.pieces, hz]
      have hs := subPieces_eq_nil h.1 hz
      rw [piecesOf_cons, hp] at hl ⊢
      have htail := ih pre h.2 hl
      rw [relocateGroups, if_pos hz, carried_cons, carried_cons]
      simpa [MetaGroup.carried, hs] using htail
    · have hp : g.pieces = (g.ev.dataOffset, g.ev.dataLength) :: subPieces g.subs := by
        simp [MetaGroup.pieces, hz]
      rw [piecesOf_cons] at hl ⊢
      obtain ⟨mid, hl1, hl2⟩ := laid_append.mp hl
      have hmid := Nat.le_trans (laid_le hl2) hhi
      have hplen := contents_length hl1 hmid
      rw [hp] at hl1
      have hlen : (slice data g.ev.dataOffset g.ev.dataLength).length = g.ev.dataLength :=
        slice_length (Nat.le_trans (laid_le hl1.2) hmid)
      have hcont : contents data (g.pieces ++ piecesOf gs) =
          contents data g.pieces ++ contents data (piecesOf gs) := by
        simp [contents]
      have hgc : contents data g.pieces =
          slice data g.ev.dataOffset g.ev.dataLength ++ contents data (subPieces g.subs) := by
        simp [hp, contents]
      have htail := ih (pre ++ contents data g.pieces) h.2 hl2
      rw [List.length_append, hplen] at htail
      rw [relocateGroups, if_neg hz, carried_cons, carried_cons, hcont]
      congr 1
      · have hsubs := relocateSubs_slices (pre ++ slice data g.ev.dataOffset g.ev.dataLength)
          (contents data (piecesOf gs) ++ post) hl1.2 hmid
        rw [List.length_append, hlen] at hsubs
        have hhead := slice_middle pre (slice data g.ev.dataOffset g.ev.dataLength)
          (contents data (subPieces g.subs) ++ contents data (piecesOf gs) ++ post)
        rw [hlen] at hhead
        have hpair := congrArg (List.map
          (Prod.mk (slice data g.ev.dataOffset g.ev.dataLength))) hsubs
        simp only [List.map_map] at hpair
        simp only [MetaGroup.carried, hgc]
        simp only [List.append_assoc] at hhead hpair ⊢
        rw [hhead]
        exact hpair
      · simpa using htail

end Relocated

theorem compactMetaGroups_ok {dest pos : Nat} {gs : List MetaGroup}
    (h : GroupsOk (fun _ => 0) pos gs) :
    GroupsOk (fun _ => 0) dest (compactMetaGroups dest gs) := by
  induction gs generalizing dest pos with
  | nil => trivial
  | cons g gs ih =>
    by_cases hz : g.ev.liveSub = 0
    · rw [compactMetaGroups, if_pos hz]
      exact ih h.2
    · rw [compactMetaGroups, if_neg hz]
      have hl := h.1.liveSub
      refine ⟨⟨?_, ?_, ?_⟩, ?_⟩
      · simpa [List.countP_eq_length_filter] using hl
      · simpa [List.countP_map, Function.comp_def, MetaSubevent.isLive, List.countP_filter]
          using hl
      · intro sev hs
        obtain ⟨old, _, rfl⟩ := List.mem_map.mp hs
        rfl
      · rw [entries_length, Nat.add_comm _ 1, ← Nat.add_assoc]
        exact ih h.2

theorem compactMetaGroups_header {n dest : Nat} {gs : List MetaGroup}
    (h : ∀ g ∈ gs, n ≤ g.ev.dataLength) :
    ∀ g ∈ compactMetaGroups dest gs, n ≤ g.ev.dataLength := by
  induction gs generalizing dest with
  | nil => simp [compactMetaGroups]
  | cons g gs ih =>
    have hg := h g (by simp)
    have ht : ∀ dest, ∀ g ∈ compactMetaGroups dest gs, n ≤ g.ev.dataLength :=
      fun _ => ih fun g hm => h g (by simp [hm])
    by_cases hz : g.ev.liveSub = 0
    · simpa [compactMetaGroups, hz] using ht dest
    · simpa [compactMetaGroups, hz, hg] using ht _

theorem subPieces_compactMeta (dest : Nat) (subs : List MetaSubevent) :
    subPieces ((subs.filter (·.isLive)).map fun sev => { sev with evOffset := dest }) =
      subPieces subs := by
  induction subs with
  | nil => rfl
  | cons sev subs ih =>
    cases hd : sev.dataOffset with
    | none =>
      have hf : (sev :: subs).filter (·.isLive) = subs.filter (·.isLive) := by
        simp [MetaSubevent.isLive, hd]
      have hp : subPieces (sev :: subs) = subPieces subs := by simp [subPieces, hd]
      rw [hf, hp, ih]
    | some d =>
      have hf : (sev :: subs).filter (·.isLive) = sev :: subs.filter (·.isLive) := by
        simp [MetaSubevent.isLive, hd]
      have hp : subPieces (sev :: subs) = (d, sev.dataLength) :: subPieces subs := by
        simp [subPieces, hd]
      rw [hf, hp, ← ih]
      simp [subPieces, hd]

theorem compactMetaGroups_pieces (dest : Nat) (gs : List MetaGroup) :
    piecesOf (compactMetaGroups dest gs) = piecesOf gs := by
  induction gs generalizing dest with
  | nil => rfl
  | cons g gs ih =>
    by_cases hz : g.ev.liveSub = 0
    · simp [compactMetaGroups, hz, MetaGroup.pieces, ih]
    · simp [compactMetaGroups, hz, MetaGroup.pieces, ih, subPieces_compactMeta]

theorem compactMetaGroups_lists {dest pos : Nat} {gs : List MetaGroup} (data : List UInt8)
    (h : GroupsOk (fun _ => 0) pos gs) :
    liveLists data (compactMetaGroups dest gs) = liveLists data gs := by
  have hcons : ∀ g gs, liveLists data (g :: gs) =
      if !(g.carried data).isEmpty then g.carried data :: liveLists data gs
        else liveLists data gs := by
    intro g gs
    rw [liveLists, List.map_cons, List.filter_cons, ← liveLists]
  induction gs generalizing dest pos with
  | nil => rfl
  | cons g gs ih =>
    by_cases hz : g.ev.liveSub = 0
    · have hs : g.carried data = [] := by
        rw [MetaGroup.carried, subPieces_eq_nil h.1 hz, List.map_nil]
      rw [compactMetaGroups, if_pos hz, ih h.2, hcons, hs]
      rfl
    · have hs : MetaGroup.carried data ⟨{ g.ev with numSub := g.ev.liveSub },
            (g.subs.filter (·.isLive)).map fun sev => { sev with evOffset := dest }⟩ =
          g.carried data := by
        rw [MetaGroup.carried, MetaGroup.carried, subPieces_compactMeta]
      rw [compactMetaGroups, if_neg hz, hcons, hcons, ih h.2, hs]

end Ucesb
