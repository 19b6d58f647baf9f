import Ucesb.ClientWrite

namespace Ucesb

def clearValue (mark : Nat) : Nat :=
  0x7fc00000 <<< ((mark &&& externalWriterMarkClearZero) >>> 26) % 2 ^ 32

def clearLoopItems (size : Nat) : Nat → List Nat → Except ClientFault WordStores
  | 0, _ => .ok []
  | n + 1, mark :: offset :: o => do
    errorIf (size < offset + 4) .struct
    let stores ← clearLoopItems size n o
    return (offset, clearValue mark) :: stores
  | _, _ => .error .packList

def clearLists (zzp : Bool) (size items : Nat) (o : List Nat) : Except ClientFault WordStores :=
  if zzp then clearLoopItems size items o else .ok []

def clearEventFrom (size : Nat) (zzp : Bool) : Nat → List Nat → Except ClientFault WordStores
  | _, [] => .ok []
  | fuel + 1, mark :: offset :: o => do
    errorIf (size < offset + 4) .struct
    if mark &&& externalWriterMarkLoop = 0 then do
      let stores ← clearEventFrom size zzp fuel o
      return (offset, clearValue mark) :: stores
    else
      match o with
      | maxLoops :: loopSize :: o => do
        let items ← clearLists zzp size (maxLoops * loopSize % 2 ^ 32) o
        let stores ← clearEventFrom size zzp fuel (o.drop (2 * maxLoops * loopSize % 2 ^ 32))
        return (offset, clearValue mark) :: (items ++ stores)
      | _ => .error .packList
  | _, _ => .error .packList

/-- `ext_data_clear_event`, for a structure that was set up with a pack list. -/
def extDataClearEvent (state : ExtDataState) (clistr : ClientStruct) (size : Nat) (zzp : Bool) :
    Except ClientStop WordStores := do
  errorIf (state ≠ .setupRead ∧ state ≠ .setupWrite)
    (.error "Client context has not had setup.")
  errorIf (size ≠ clistr.structSize) (.error "Buffer size mismatch.")
  faultOf (clearEventFrom size zzp clistr.packList.length clistr.packList)

/-- Here `o` is where the reverse list says. -/
def clearControlled (size value : Nat) (o : List Nat) : Except ClientFault WordStores :=
  match o with
  | maxLoops :: loopSize :: o => clearLoopItems size (min value maxLoops * loopSize % 2 ^ 32) o
  | _ => .error .packList

/-- `item` is the offset of the item in the structure. -/
def extDataClearZzpLists (clistr : ClientStruct) (mem : Nat → UInt8) (item : Nat) :
    Except ClientFault WordStores := do
  errorIf (clistr.structSize ≤ item) .reversePack
  let value ← loadItem clistr.structSize mem item
  clearControlled clistr.structSize value (clistr.packList.drop (clistr.setup.reversePack item))

def PackItem.clear (i : PackItem) : Nat × Nat := (i.offset, clearValue i.mark)

/-- The items of a loop that are in use, with a control item that is limited to what it may be. -/
def PackLoop.inUse (mem : Nat → UInt8) (l : PackLoop) : List PackItem :=
  l.items.take (min (load32 mem l.control.offset) l.maxLoops * l.loopSize)

/-- The items in use are cleared and no other memory. When they are filled again they are as after
clearing everything. -/
structure ClearsLoop (clistr : ClientStruct) (mem : Nat → UInt8) (l : PackLoop) : Prop where
  clears : ∃ stores, extDataClearZzpLists clistr mem l.control.offset = .ok stores ∧
    ∀ m, runStores m stores = runStores m ((l.inUse mem).map PackItem.clear)
  refilled : ∀ stores all, extDataClearZzpLists clistr mem l.control.offset = .ok stores →
    extDataClearEvent .setupWrite clistr clistr.structSize true = .ok all →
    ∀ m fill, ∀ i ∈ l.inUse mem, load32 (runStores (runStores m stores) fill) i.offset =
      load32 (runStores (runStores m all) fill) i.offset

/-- There is nothing to clear, nor is there with the mark and the offset of the next item as the
limits of the loop. -/
def NothingToClear (mem : Nat → UInt8) (l : PackLoop) (after : List PackElement) : Prop :=
  (∃ i ∈ (l.items ++ packItems after).head?,
    min (load32 mem l.control.offset) i.mark * i.offset % 2 ^ 32 = 0) ∧
  min (load32 mem l.control.offset) l.maxLoops * l.loopSize = 0

section Stores

variable {m : Nat → UInt8} {stores : WordStores} {b : Nat}

def Touches (stores : WordStores) (b : Nat) : Prop := ∃ s ∈ stores, s.1 ≤ b ∧ b < s.1 + 4

theorem runStores_untouched (m : Nat → UInt8) (h : ¬Touches stores b) :
    runStores m stores b = m b := by
  induction stores generalizing m with
  | nil => rfl
  | cons s stores ih =>
    have hrest : ¬Touches stores b := fun ⟨t, ht, hb⟩ => h ⟨t, List.mem_cons_of_mem _ ht, hb⟩
    have hhere : ¬(s.1 ≤ b ∧ b < s.1 + 4) := fun hb => h ⟨s, List.mem_cons_self, hb⟩
    change runStores (store32 m s.1 s.2) stores b = _
    rw [ih _ hrest, store32, if_neg hhere]

theorem runStores_touched (h : Touches stores b) : ∃ c, ∀ m, runStores m stores b = c := by
  induction stores with
  | nil =>
    obtain ⟨s, hs, -⟩ := h
    cases hs
  | cons s stores ih =>
    by_cases hrest : Touches stores b
    · obtain ⟨c, hc⟩ := ih hrest
      exact ⟨c, fun m => hc _⟩
    · obtain ⟨t, ht, hb⟩ := h
      have hts : t = s := by
        rcases List.mem_cons.mp ht with rfl | ht
        · rfl
        · exact absurd ⟨t, ht, hb⟩ hrest
      refine ⟨UInt8.ofNat (s.2 / 2 ^ (8 * (b - s.1))), fun m => ?_⟩
      change runStores (store32 m s.1 s.2) stores b = _
      rw [runStores_untouched _ hrest, store32, if_pos (hts ▸ hb)]

theorem exists_ne_byte (c : UInt8) : ∃ d : UInt8, d ≠ c := by
  by_cases h : c = 0
  · exact ⟨1, by rw [h]; decide⟩
  · exact ⟨0, Ne.symm h⟩

theorem touches_of_same {stores' : WordStores}
    (h : ∀ m, runStores m stores = runStores m stores') (ht : Touches stores b) :
    Touches stores' b := by
  by_contra hno
  obtain ⟨c, hc⟩ := runStores_touched ht
  obtain ⟨d, hd⟩ := exists_ne_byte c
  have hkept := runStores_untouched (fun _ => d) hno
  rw [← h, hc] at hkept
  exact hd hkept.symm

end Stores

section Clear

variable {size n : Nat} {items : List PackItem} {o : List Nat} {stores : WordStores}

theorem clearLoopItems_succ {mark offset : Nat}
    (h : clearLoopItems size (n + 1) (mark :: offset :: o) = .ok stores) :
    ∃ rest, stores = (offset, clearValue mark) :: rest ∧ clearLoopItems size n o = .ok rest := by
  obtain ⟨-, h⟩ := errorIf_bind_ok.mp h
  obtain ⟨rest, hrest, h⟩ := bind_eq_ok.mp h
  cases h
  exact ⟨rest, rfl, hrest⟩

theorem clearLoopItems_zero (size : Nat) (o : List Nat) : clearLoopItems size 0 o = .ok [] := by
  unfold clearLoopItems
  rfl

theorem clearLoopItems_items (h : clearLoopItems size n (items.flatMap PackItem.words ++ o) =
      .ok stores) :
    stores = (items.take n).map PackItem.clear ∨
      items.length < n ∧ ∃ mark offset rest, o = mark :: offset :: rest ∧
        (offset, clearValue mark) ∈ stores := by
  induction items generalizing n stores with
  | nil =>
    cases n with
    | zero =>
      rw [clearLoopItems_zero] at h
      cases h
      exact .inl rfl
    | succ n =>
      rcases o with _ | ⟨mark, _ | ⟨offset, o⟩⟩
      · cases h
      · cases h
      · obtain ⟨rest, rfl, -⟩ := clearLoopItems_succ h
        exact .inr ⟨Nat.succ_pos n, mark, offset, o, rfl, List.mem_cons_self⟩
  | cons i items ih =>
    cases n with
    | zero =>
      rw [clearLoopItems_zero] at h
      cases h
      exact .inl rfl
    | succ n =>
      obtain ⟨rest, rfl, hrest⟩ := clearLoopItems_succ h
      rcases ih hrest with rfl | ⟨hlt, mark, offset, next, ho, hmem⟩
      · exact .inl rfl
      · exact .inr ⟨Nat.succ_lt_succ hlt, mark, offset, next, ho, List.mem_cons_of_mem _ hmem⟩

theorem clearLoopItems_length (h : clearLoopItems size n o = .ok stores) : stores.length = n := by
  induction n generalizing o stores with
  | zero =>
    rw [clearLoopItems_zero] at h
    cases h
    rfl
  | succ n ih =>
    rcases o with _ | ⟨mark, _ | ⟨offset, o⟩⟩
    · cases h
    · cases h
    · obtain ⟨rest, rfl, hrest⟩ := clearLoopItems_succ h
      rw [List.length_cons, ih hrest]

end Clear

section Walk

variable {es : List PackElement}

theorem packWords_head {i : PackItem} {is : List PackItem} (h : packItems es = i :: is) :
    ∃ rest, packWords es = i.mark :: i.offset :: rest := by
  cases es with
  | nil => cases h
  | cons e es =>
    cases e with
    | item j single | loop l =>
      obtain ⟨rfl, -⟩ := List.cons.inj h
      exact ⟨_, rfl⟩

theorem packWords_of_no_items (h : packItems es = []) : packWords es = [] := by
  cases es with
  | nil => rfl
  | cons e es =>
    cases e with
    | item j single => cases h
    | loop l => cases h

end Walk

section Everything

variable {size fuel : Nat} {es : List PackElement} {m m' : Nat → UInt8} {b : Nat}

theorem clearLoopItems_eq {items : List PackItem} (o : List Nat)
    (hinside : ∀ i ∈ items, i.offset + 4 ≤ size) :
    clearLoopItems size items.length (items.flatMap PackItem.words ++ o) =
      .ok (items.map PackItem.clear) := by
  induction items with
  | nil => exact clearLoopItems_zero _ _
  | cons i items ih =>
    have hhere := hinside i List.mem_cons_self
    have hrest := ih fun j hj => hinside j (List.mem_cons_of_mem _ hj)
    change (do
      errorIf (size < i.offset + 4) ClientFault.struct
      let stores ← clearLoopItems size items.length (items.flatMap PackItem.words ++ o)
      return (i.offset, clearValue i.mark) :: stores) = _
    rw [hrest, errorIf, if_neg (by omega)]
    rfl

theorem clearEventFrom_eq (hinside : ∀ i ∈ packItems es, i.offset + 4 ≤ size)
    (hlength : (packWords es).length < 2 ^ 30) (hfuel : es.length ≤ fuel) :
    clearEventFrom size true fuel (packWords es) = .ok ((packItems es).map PackItem.clear) := by
  induction es generalizing fuel with
  | nil =>
    unfold clearEventFrom
    rfl
  | cons e es ih =>
    rw [packWords_cons, List.length_append] at hlength
    rw [List.length_cons] at hfuel
    obtain ⟨fuel, rfl⟩ : ∃ n, fuel = n + 1 := ⟨fuel - 1, by omega⟩
    have hnext : clearEventFrom size true fuel (packWords es) = _ :=
      ih (fun i hi => hinside i (by simp_all [packItems])) (by omega) (by omega)
    rw [packWords_cons]
    cases e with
    | item i single =>
      have hhere : i.offset + 4 ≤ size := hinside i (by simp [packItems, PackElement.items])
      simp only [PackElement.words, PackItem.words, List.cons_append, List.nil_append]
      rw [clearEventFrom.eq_def]
      dsimp only
      rw [errorIf, if_neg (by omega), if_pos single, hnext]
      rfl
    | loop l =>
      have hhere : l.control.offset + 4 ≤ size :=
        hinside _ (by simp [packItems, PackElement.items])
      have hitems : ∀ i ∈ l.items, i.offset + 4 ≤ size := fun i hi =>
        hinside i (by simp [packItems, PackElement.items, hi])
      have hcount := l.count_lt (by omega)
      have hcounted := l.counted
      have hdrop : 2 * l.maxLoops * l.loopSize % 2 ^ 32 =
          (l.items.flatMap PackItem.words).length := by
        rw [words_flatMap_length, hcounted, Nat.mul_assoc, Nat.mod_eq_of_lt (by omega)]
      simp only [PackElement.words, PackItem.words, List.cons_append, List.nil_append]
      rw [clearEventFrom.eq_def]
      dsimp only
      rw [errorIf, if_neg (by omega), if_neg l.marked, hdrop, List.drop_left, hnext,
        Nat.mod_eq_of_lt (by omega), ← hcounted, clearLists, if_pos rfl, clearLoopItems_eq _ hitems]
      change Except.ok _ = _
      rw [packItems_loop, List.map_cons, List.map_append]
      rfl

theorem runStores_congr (fill : WordStores) (h : m b = m' b) :
    runStores m fill b = runStores m' fill b := by
  induction fill generalizing m m' with
  | nil => exact h
  | cons s fill ih =>
    have hstep : store32 m s.1 s.2 b = store32 m' s.1 s.2 b := by
      unfold store32
      rw [h]
    exact ih hstep

theorem runStores_items {items : List PackItem} {i : PackItem} (m : Nat → UInt8)
    (hapart : items.Pairwise fun i j => Apart i.offset 4 j.offset 4) (hi : i ∈ items)
    (hb : i.offset ≤ b ∧ b < i.offset + 4) :
    runStores m (items.map PackItem.clear) b =
      UInt8.ofNat (clearValue i.mark / 2 ^ (8 * (b - i.offset))) := by
  induction items generalizing m with
  | nil => cases hi
  | cons j items ih =>
    obtain ⟨hj, hrest⟩ := List.pairwise_cons.mp hapart
    change runStores (store32 m j.offset (clearValue j.mark)) (items.map PackItem.clear) b = _
    rcases List.mem_cons.mp hi with rfl | hi
    · have hlater : ¬Touches (items.map PackItem.clear) b := by
        rintro ⟨s, hs, hlo, hhi⟩
        obtain ⟨k, hk, rfl⟩ := List.mem_map.mp hs
        have hik := hj k hk
        unfold PackItem.clear at hlo hhi
        unfold Apart at hik
        omega
      rw [runStores_untouched _ hlater, store32, if_pos hb]
    · exact ih _ hrest hi

end Everything

section Loop

variable {size : Nat} {list : ApartPackList size} {before after : List PackElement} {l : PackLoop}
  {mem : Nat → UInt8} {stores : WordStores}

def ClientPackList.struct (list : ClientPackList size) : ClientStruct :=
  ⟨packWords list.elements, list.setup, size⟩

theorem zzp_eq (h : list.elements = before ++ .loop l :: after) (mem : Nat → UInt8) :
    extDataClearZzpLists list.struct mem l.control.offset =
      clearControlled size (load32 mem l.control.offset)
        (l.items.flatMap PackItem.words ++ packWords after) := by
  have hinside : l.control.offset + 4 ≤ size :=
    list.inside _ (by simp [h, packItems, PackElement.items])
  unfold extDataClearZzpLists ClientPackList.struct
  dsimp only
  rw [drop_reversePack h, errorIf, if_neg (by omega), loadItem, errorIf, if_neg (by omega)]
  rfl

theorem clearControlled_next {i : PackItem} {is : List PackItem}
    (hnext : l.items ++ packItems after = i :: is) (value : Nat) :
    ∃ o, l.items.flatMap PackItem.words ++ packWords after = i.mark :: i.offset :: o ∧
      clearControlled size value (l.items.flatMap PackItem.words ++ packWords after) =
        clearLoopItems size (min value i.mark * i.offset % 2 ^ 32) o := by
  have hwords : ∃ o, l.items.flatMap PackItem.words ++ packWords after =
      i.mark :: i.offset :: o := by
    cases hitems : l.items with
    | nil =>
      rw [hitems] at hnext
      exact packWords_head hnext
    | cons j js =>
      rw [hitems] at hnext
      obtain ⟨rfl, -⟩ := List.cons.inj hnext
      exact ⟨_, rfl⟩
  obtain ⟨o, ho⟩ := hwords
  exact ⟨o, ho, by rw [ho]; rfl⟩

theorem PackLoop.inUse_length (mem : Nat → UInt8) (l : PackLoop) :
    (l.inUse mem).length = min (load32 mem l.control.offset) l.maxLoops * l.loopSize := by
  have hle := Nat.mul_le_mul_right l.loopSize (Nat.min_le_right (load32 mem l.control.offset)
    l.maxLoops)
  rw [PackLoop.inUse, List.length_take, l.counted]
  omega

theorem first_missed (h : list.elements = before ++ .loop l :: after) {i : PackItem}
    {is : List PackItem} (hitems : l.items = i :: is) {n : Nat}
    (hstores : clearLoopItems size n (is.flatMap PackItem.words ++ packWords after) = .ok stores) :
    ¬Touches stores i.offset ∨
      ∃ j ∈ packItems after, Touches stores j.offset := by
  have hapart := (List.pairwise_cons.mp (list.apart_from h)).2
  rw [hitems, List.cons_append, List.pairwise_cons] at hapart
  rcases clearLoopItems_items hstores with rfl | ⟨-, mark, offset, rest, ho, hmem⟩
  · left
    rintro ⟨s, hs, hlo, hhi⟩
    obtain ⟨j, hj, rfl⟩ := List.mem_map.mp hs
    have hij := hapart.1 j (List.mem_append_left _ (List.mem_of_mem_take hj))
    unfold PackItem.clear at hlo hhi
    unfold Apart at hij
    omega
  · right
    cases hafter : packItems after with
    | nil =>
      rw [packWords_of_no_items hafter] at ho
      cases ho
    | cons j js =>
      obtain ⟨rest', hrest⟩ := packWords_head hafter
      rw [hrest] at ho
      obtain ⟨-, hoffset⟩ := List.cons.inj ho
      obtain ⟨hoffset, -⟩ := List.cons.inj hoffset
      refine ⟨j, List.mem_cons_self, _, hmem, ?_⟩
      dsimp only
      omega

theorem inUse_of_same (h : list.elements = before ++ .loop l :: after)
    (hzzp : extDataClearZzpLists list.struct mem l.control.offset = .ok stores)
    (hsame : ∀ m, runStores m stores = runStores m ((l.inUse mem).map PackItem.clear)) :
    l.inUse mem = [] := by
  have hsymm := fun m => (hsame m).symm
  by_contra hne
  obtain ⟨i, is, hitems⟩ : ∃ i is, l.items = i :: is := by
    cases hl : l.items with
    | nil => exact absurd (by rw [PackLoop.inUse, hl, List.take_nil]) hne
    | cons i is => exact ⟨i, is, rfl⟩
  have hfirst : i ∈ l.inUse mem := by
    obtain ⟨k, hk⟩ : ∃ k, min (load32 mem l.control.offset) l.maxLoops * l.loopSize = k + 1 := by
      have hpos := List.length_pos_iff.mpr hne
      rw [PackLoop.inUse_length] at hpos
      exact ⟨_, (Nat.sub_add_cancel hpos).symm⟩
    rw [PackLoop.inUse, hk, hitems, List.take_succ_cons]
    exact List.mem_cons_self
  have hnext : l.items ++ packItems after = i :: (is ++ packItems after) := by
    rw [hitems, List.cons_append]
  obtain ⟨o, ho, hclear⟩ := @clearControlled_next size after l i _ hnext
    (load32 mem l.control.offset)
  rw [zzp_eq h, hclear] at hzzp
  have hrest : o = is.flatMap PackItem.words ++ packWords after := by
    rw [hitems] at ho
    exact ((List.cons.inj (List.cons.inj ho).2).2).symm
  rw [hrest] at hzzp
  rcases first_missed h hitems hzzp with hmiss | ⟨j, hj, htouch⟩
  · refine hmiss (touches_of_same hsymm ⟨i.clear, List.mem_map_of_mem hfirst, ?_⟩)
    unfold PackItem.clear
    dsimp only
    omega
  · obtain ⟨s, hs, hlo, hhi⟩ := touches_of_same hsame htouch
    obtain ⟨k, hk, rfl⟩ := List.mem_map.mp hs
    have hapart := (List.pairwise_cons.mp (list.apart_from h)).2
    have hkj := (List.pairwise_append.mp hapart).2.2 k (List.mem_of_mem_take hk) j hj
    unfold PackItem.clear at hlo hhi
    unfold Apart at hkj
    omega

theorem eq_nil_of_same (hsame : ∀ m, runStores m stores = runStores m []) : stores = [] := by
  cases stores with
  | nil => rfl
  | cons s stores =>
    have htouch : Touches (s :: stores) s.1 := ⟨s, List.mem_cons_self, by omega⟩
    obtain ⟨t, ht, -⟩ := touches_of_same hsame htouch
    cases ht

theorem refilled_of_same (hshort : (packWords list.elements).length < 2 ^ 30)
    (h : list.elements = before ++ .loop l :: after)
    (hzzp : extDataClearZzpLists list.struct mem l.control.offset = .ok stores)
    (hsame : ∀ m, runStores m stores = runStores m ((l.inUse mem).map PackItem.clear)) :
    ∀ stores' all, extDataClearZzpLists list.struct mem l.control.offset = .ok stores' →
      extDataClearEvent .setupWrite list.struct list.struct.structSize true = .ok all →
      ∀ m fill, ∀ i ∈ l.inUse mem, load32 (runStores (runStores m stores') fill) i.offset =
        load32 (runStores (runStores m all) fill) i.offset := by
  intro stores' all hstores' hall m fill i hi
  have hstores : stores = stores' := Except.ok.inj (hzzp.symm.trans hstores')
  have heverything : all = (packItems list.elements).map PackItem.clear := by
    obtain ⟨-, hall⟩ := errorIf_bind_ok.mp hall
    obtain ⟨-, hall⟩ := errorIf_bind_ok.mp hall
    unfold ClientPackList.struct at hall
    dsimp only at hall
    rw [clearEventFrom_eq list.inside hshort (elements_length_le _)] at hall
    exact (Except.ok.inj hall).symm
  have hitems := (List.pairwise_cons.mp (list.apart_from h)).2
  have hinUse : (l.inUse mem).Pairwise fun i j => Apart i.offset 4 j.offset 4 :=
    (List.pairwise_append.mp hitems).1.sublist (List.take_sublist _ _)
  have hmem : i ∈ packItems list.elements := by
    rw [h, packItems_append, packItems_loop]
    exact List.mem_append_right _ (List.mem_cons_of_mem _
      (List.mem_append_left _ (List.mem_of_mem_take hi)))
  have hbyte : ∀ b, i.offset ≤ b ∧ b < i.offset + 4 →
      runStores (runStores m stores') fill b = runStores (runStores m all) fill b := by
    intro b hb
    apply runStores_congr
    rw [← hstores, hsame, heverything, runStores_items m hinUse hi hb,
      runStores_items m list.apart hmem hb]
  unfold load32
  rw [hbyte i.offset (by omega), hbyte (i.offset + 1) (by omega), hbyte (i.offset + 2) (by omega),
    hbyte (i.offset + 3) (by omega)]

theorem clearsLoop_iff (hshort : (packWords list.elements).length < 2 ^ 30)
    (h : list.elements = before ++ .loop l :: after) :
    ClearsLoop list.struct mem l ↔ NothingToClear mem l after := by
  constructor
  · rintro ⟨⟨stores, hzzp, hsame⟩, -⟩
    have hnone := inUse_of_same h hzzp hsame
    have hcount := PackLoop.inUse_length mem l
    rw [hnone, List.length_nil] at hcount
    rw [hnone, List.map_nil] at hsame
    rw [eq_nil_of_same hsame, zzp_eq h] at hzzp
    refine ⟨?_, hcount.symm⟩
    cases hnext : l.items ++ packItems after with
    | nil =>
      obtain ⟨hl, hafter⟩ := List.append_eq_nil_iff.mp hnext
      rw [hl, packWords_of_no_items hafter] at hzzp
      cases hzzp
    | cons i is =>
      obtain ⟨o, -, hclear⟩ := @clearControlled_next size after l i is hnext
        (load32 mem l.control.offset)
      rw [hclear] at hzzp
      exact ⟨i, rfl, (clearLoopItems_length hzzp).symm⟩
  · rintro ⟨⟨i, hi, hzero⟩, hcount⟩
    have hnone : l.inUse mem = [] := by
      rw [← List.length_eq_zero_iff, PackLoop.inUse_length, hcount]
    obtain ⟨is, hnext⟩ : ∃ is, l.items ++ packItems after = i :: is := by
      cases hnext : l.items ++ packItems after with
      | nil =>
        rw [hnext] at hi
        cases hi
      | cons j js =>
        rw [hnext] at hi
        cases hi
        exact ⟨js, rfl⟩
    obtain ⟨o, -, hclear⟩ := @clearControlled_next size after l i is hnext
      (load32 mem l.control.offset)
    have hzzp : extDataClearZzpLists list.struct mem l.control.offset = .ok [] := by
      rw [zzp_eq h, hclear, hzero, clearLoopItems_zero]
    have hsame : ∀ m, runStores m [] = runStores m ((l.inUse mem).map PackItem.clear) := by
      rw [hnone]
      exact fun m => rfl
    exact ⟨⟨[], hzzp, hsame⟩, refilled_of_same hshort h hzzp hsame⟩

/-- For a control item of a pack list as it is set up. -/
theorem clear_zzp_lists_iff {slo : StructureLayout} {sizeInfo : Nat}
    (hlayout : checkLayout slo sizeInfo size = .ok ()) (list : ApartPackList size)
    (hlist : slo.packList = packWords list.elements)
    (h : list.elements = before ++ .loop l :: after) (mem : Nat → UInt8) :
    ∃ clistr, setupStruct slo sizeInfo size = .ok clistr ∧
      (ClearsLoop clistr mem l ↔ NothingToClear mem l after) :=
  ⟨list.struct, setupStruct_eq hlayout list.toClientPackList hlist, clearsLoop_iff (hlist ▸ layout_short hlayout) h⟩

end Loop

section Short

theorem shortLoop_marked : 0x80a50000 &&& externalWriterMarkLoop ≠ 0 := by decide

def shortLoop : PackLoop :=
  ⟨⟨0x80a50000, 0⟩, 2, 1, [⟨externalWriterMarkCanary, 4⟩, ⟨externalWriterMarkCanary, 8⟩],
    shortLoop_marked, rfl⟩

def behindLoop : List PackElement :=
  [.item ⟨externalWriterMarkCanary, 12⟩ canary_single, .item ⟨externalWriterMarkCanary, 16⟩
    canary_single, .item ⟨externalWriterMarkCanary, 20⟩ canary_single]

theorem short_inside : ∀ i ∈ packItems (.loop shortLoop :: behindLoop), i.offset + 4 ≤ 24 := by
  decide

theorem short_apart : (packItems (.loop shortLoop :: behindLoop)).Pairwise
    fun i j => Apart i.offset 4 j.offset 4 := by
  unfold Apart
  decide

def shortList : ApartPackList 24 := ⟨⟨.loop shortLoop :: behindLoop, short_inside⟩, short_apart⟩

def shortLayout : StructureLayout :=
  ⟨0x57e65c97, 104, 24, 24, [⟨0, 24, 0⟩], packWords shortList.elements⟩

theorem clear_zzp_lists_misses :
    ∃ clistr, setupStruct shortLayout 104 24 = .ok clistr ∧
      extDataClearZzpLists clistr (fun b => if b = 0 then 1 else 0) 0 =
        .ok [(8, 0x7fc00000), (12, 0x7fc00000), (16, 0x7fc00000), (20, 0x7fc00000)] ∧
      ¬ClearsLoop clistr (fun b => if b = 0 then 1 else 0) shortLoop := by
  refine ⟨shortList.struct, setupStruct_eq rfl shortList.toClientPackList rfl, rfl, fun hclears => ?_⟩
  have hnone := (@clearsLoop_iff 24 shortList [] behindLoop shortLoop _ (by decide) rfl).mp hclears
  revert hnone
  exact mt And.right (by decide)

theorem clear_zzp_lists_unused :
    ∃ clistr, setupStruct shortLayout 104 24 = .ok clistr ∧
      ClearsLoop clistr (fun _ => 0) shortLoop := by
  obtain ⟨clistr, hsetup, hiff⟩ := @clear_zzp_lists_iff 24 [] behindLoop shortLoop shortLayout 104
    rfl shortList rfl rfl fun _ => 0
  exact ⟨clistr, hsetup, hiff.mpr ⟨⟨_, rfl, by decide⟩, by decide⟩⟩

end Short

end Ucesb
