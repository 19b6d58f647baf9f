import Ucesb.CwnSlots

namespace Ucesb

/-- What is stored in the event structure. -/
inductive CwnVar
  | item (i : IndItem)
  | mask (off : Nat)
  | index (a : IndexItem)
  | bits (a : ArrayItem)
deriving DecidableEq

def CwnVar.addr : CwnVar → Nat
  | .item i => i.off
  | .mask off => off
  | .index a => a.srcOffset
  | .bits a => a.srcBitsOffset

def CwnVar.len : CwnVar → Nat
  | .item i => i.size
  | .mask _ => 4
  | .index _ => 4
  | .bits a => 8 * longCount a.itemsUsed

def CwnTuple.items (nt : CwnTuple) : List IndItem :=
  nt.globalArray ++ nt.indexItems.flatMap (fun a => a.item.entries.flatten) ++
    nt.arrayItems.flatMap fun a => a.item.entries.flatten

def CwnTuple.vars (nt : CwnTuple) : List CwnVar :=
  nt.items.map .item ++ (nt.items.filter (·.is indItemTypeIsMasked)).map (fun i => .mask i.maskOff) ++
    nt.indexItems.map .index ++ nt.arrayItems.map .bits

def CwnTuple.Separate (nt : CwnTuple) : Prop :=
  ∀ v ∈ nt.vars, ∀ w ∈ nt.vars, v ≠ w → Apart v.addr v.len w.addr w.len

def arrayEntries (mem : Nat → UInt8) (a : ArrayItem) : List (List IndItem) :=
  (filledIndices mem a.srcBitsOffset a.itemsUsed).map fun index => a.item.entries[index]?.getD []

def CwnTuple.filledItems (nt : CwnTuple) (mem : Nat → UInt8) : List IndItem :=
  nt.globalArray ++ nt.indexItems.flatMap (fun a => (indexEntries mem a).flatten) ++
    nt.arrayItems.flatMap fun a => (arrayEntries mem a).flatten

section Updates

variable {ops : FloatOps} {mem : Nat → UInt8} {nt : CwnTuple}

def IndItem.got (ops : FloatOps) (mem : Nat → UInt8) (i : IndItem) : Nat :=
  if i.is indItemTypeFloat then ops.stored i.info (i.word ops mem)
  else (i.word ops mem + 2 ^ 32 - (i.info &&& indItemTypeIntAdd1)) % 2 ^ 32

def CwnVar.Updated (ops : FloatOps) (mem : Nat → UInt8) : CwnVar → MemUpdate → Prop
  | .item i, u => u = storeItem i (i.got ops mem)
  | .mask off, u => u.addr = off ∧ u.len = 4
  | .index a, u => u = ⟨a.srcOffset, 4, fun _ => (indexEntries mem a).length⟩
  | .bits a, u => ∃ k ∈ filledIndices mem a.srcBitsOffset a.itemsUsed, u = setBit a.srcBitsOffset k

theorem CwnVar.Updated.inside {v : CwnVar} {u : MemUpdate} (h : v.Updated ops mem u) :
    v.addr ≤ u.addr ∧ u.addr + u.len ≤ v.addr + v.len := by
  cases v with
  | item i | index a =>
    cases h
    exact ⟨Nat.le_refl _, Nat.le_refl _⟩
  | mask off =>
    obtain ⟨haddr, hlen⟩ := h
    rw [haddr, hlen]
    exact ⟨Nat.le_refl _, Nat.le_refl _⟩
  | bits a =>
    obtain ⟨k, hk, rfl⟩ := h
    have hlt := (mem_filledIndices.mp hk).1
    simp only [CwnVar.addr, CwnVar.len, setBit, longCount]
    omega

/-- The word of an item is stored: not if it is a mark for what a mask has to say. -/
def IndItem.GetsStored (ops : FloatOps) (mem : Nat → UInt8) (i : IndItem) : Prop :=
  i.is indItemTypeFloat = false ∨ i.is indItemTypeIsMasked = false ∨
    ops.finite (i.word ops mem) = true

def CwnVar.Done (ops : FloatOps) (mem : Nat → UInt8) (updates : List MemUpdate) : CwnVar → Prop
  | .item i => i.GetsStored ops mem → storeItem i (i.got ops mem) ∈ updates
  | .mask _ => True
  | .index a => ⟨a.srcOffset, 4, fun _ => (indexEntries mem a).length⟩ ∈ updates
  | .bits a => ∀ k ∈ filledIndices mem a.srcBitsOffset a.itemsUsed,
      setBit a.srcBitsOffset k ∈ updates

theorem CwnVar.Done.mono {u1 u2 : List MemUpdate} {v : CwnVar} (h : v.Done ops mem u1)
    (hsub : u1 ⊆ u2) : v.Done ops mem u2 := by
  cases v with
  | item i => exact fun hstored => hsub (h hstored)
  | mask off => trivial
  | index a => exact hsub h
  | bits a => exact fun k hk => hsub (h k hk)

structure UpdatesOf (ops : FloatOps) (mem : Nat → UInt8) (vars done : List CwnVar)
    (updates : List MemUpdate) : Prop where
  known : ∀ u ∈ updates, ∃ v ∈ vars, v.Updated ops mem u
  done : ∀ v ∈ done, v ∈ vars ∧ v.Done ops mem updates

variable {vars : List CwnVar}

theorem UpdatesOf.append {d1 d2 : List CwnVar} {u1 u2 : List MemUpdate}
    (h1 : UpdatesOf ops mem vars d1 u1) (h2 : UpdatesOf ops mem vars d2 u2) :
    UpdatesOf ops mem vars (d1 ++ d2) (u1 ++ u2) := by
  refine ⟨?_, ?_⟩
  · intro u hu
    rcases List.mem_append.mp hu with hu | hu
    · exact h1.known u hu
    · exact h2.known u hu
  · intro v hv
    rcases List.mem_append.mp hv with hv | hv
    · exact ⟨(h1.done v hv).1, (h1.done v hv).2.mono (List.subset_append_left _ _)⟩
    · exact ⟨(h2.done v hv).1, (h2.done v hv).2.mono (List.subset_append_right _ _)⟩

theorem UpdatesOf.nil : UpdatesOf ops mem vars [] [] :=
  ⟨fun _ hu => absurd hu List.not_mem_nil, fun _ hv => absurd hv List.not_mem_nil⟩

theorem UpdatesOf.none {v : CwnVar} (hv : v ∈ vars) (h : v.Done ops mem []) :
    UpdatesOf ops mem vars [v] [] := by
  refine ⟨fun _ hu => absurd hu List.not_mem_nil, ?_⟩
  intro w hw
  cases List.mem_singleton.mp hw
  exact ⟨hv, h⟩

theorem UpdatesOf.update {u : MemUpdate} {v : CwnVar} (hv : v ∈ vars)
    (hu : v.Updated ops mem u) : UpdatesOf ops mem vars [] [u] := by
  refine ⟨?_, fun _ hv => absurd hv List.not_mem_nil⟩
  intro u' hu'
  cases List.mem_singleton.mp hu'
  exact ⟨v, hv, hu⟩

theorem UpdatesOf.single {u : MemUpdate} {v : CwnVar} (hv : v ∈ vars)
    (hu : v.Updated ops mem u) (h : v.Done ops mem [u]) : UpdatesOf ops mem vars [v] [u] := by
  refine ⟨(UpdatesOf.update hv hu).known, ?_⟩
  intro w hw
  cases List.mem_singleton.mp hw
  exact ⟨hv, h⟩

theorem UpdatesOf.cons {done : List CwnVar} {updates : List MemUpdate}
    {u : MemUpdate} {v : CwnVar} (hv : v ∈ vars) (hu : v.Updated ops mem u)
    (h : UpdatesOf ops mem vars done updates) : UpdatesOf ops mem vars done (u :: updates) :=
  (UpdatesOf.update hv hu).append h

theorem CwnTuple.item_mem_vars {i : IndItem} (h : i ∈ nt.items) : CwnVar.item i ∈ nt.vars := by
  simp only [CwnTuple.vars, List.mem_append, List.mem_map]
  exact .inl (.inl (.inl ⟨i, h, rfl⟩))

theorem CwnTuple.mask_mem_vars {i : IndItem} (h : i ∈ nt.items)
    (hmask : i.is indItemTypeIsMasked = true) : CwnVar.mask i.maskOff ∈ nt.vars := by
  simp only [CwnTuple.vars, List.mem_append, List.mem_map, List.mem_filter]
  exact .inl (.inl (.inr ⟨i, ⟨h, hmask⟩, rfl⟩))

theorem CwnTuple.index_mem_vars {a : IndexItem} (h : a ∈ nt.indexItems) :
    CwnVar.index a ∈ nt.vars := by
  simp only [CwnTuple.vars, List.mem_append, List.mem_map]
  exact .inl (.inr ⟨a, h, rfl⟩)

theorem CwnTuple.bits_mem_vars {a : ArrayItem} (h : a ∈ nt.arrayItems) :
    CwnVar.bits a ∈ nt.vars := by
  simp only [CwnTuple.vars, List.mem_append, List.mem_map]
  exact .inr ⟨a, h, rfl⟩

theorem updatesOf_getItem {i : IndItem} (h : i ∈ nt.items) :
    UpdatesOf ops mem nt.vars [.item i] (cwnGetItem ops i (i.word ops mem)) := by
  have hitem := CwnTuple.item_mem_vars h
  have hstore : UpdatesOf ops mem nt.vars [.item i] [storeItem i (i.got ops mem)] :=
    .single hitem rfl fun _ => List.mem_singleton.mpr rfl
  unfold cwnGetItem
  split
  · next hfloat =>
    have hgot : ops.stored i.info (i.word ops mem) = i.got ops mem := by
      rw [IndItem.got, if_pos hfloat]
    rw [hgot]
    split
    · exact hstore
    · next hmask =>
      have hmask' : i.is indItemTypeIsMasked = true := by simpa using hmask
      have hvar := CwnTuple.mask_mem_vars h hmask'
      split
      · next hfinite =>
        have hdone : UpdatesOf ops mem nt.vars [.item i] [] := by
          refine .none hitem ?_
          rintro (hint | hplain | hword)
          · rw [hfloat] at hint
            cases hint
          · rw [hmask'] at hplain
            cases hplain
          · simp [hword] at hfinite
        split
        · exact hdone
        · exact hdone.cons hvar ⟨rfl, rfl⟩
      · exact .cons hvar ⟨rfl, rfl⟩ hstore
  · next hint =>
    have hgot : (i.word ops mem + 2 ^ 32 - (i.info &&& indItemTypeIntAdd1)) % 2 ^ 32 =
        i.got ops mem := by
      rw [IndItem.got, if_neg hint]
    rw [hgot]
    split
    · next hmask => exact .cons (CwnTuple.mask_mem_vars h hmask) ⟨rfl, rfl⟩ hstore
    · exact hstore

theorem updatesOf_items {items : List IndItem} (h : ∀ i ∈ items, i ∈ nt.items) :
    UpdatesOf ops mem nt.vars (items.map .item)
      (items.flatMap fun i => cwnGetItem ops i (i.word ops mem)) := by
  induction items with
  | nil => exact .nil
  | cons i items ih =>
    rw [List.flatMap_cons]
    exact (updatesOf_getItem (h i List.mem_cons_self)).append
      (ih fun j hj => h j (List.mem_cons_of_mem _ hj))

theorem mem_setupMaskList {e : List IndItem} {off : Nat} (h : off ∈ setupMaskList e) :
    ∃ i ∈ e, i.is indItemTypeIsMasked = true ∧ i.maskOff = off := by
  rw [setupMaskList, List.mem_mergeSort, List.mem_eraseDups, List.mem_map] at h
  obtain ⟨i, hi, hoff⟩ := h
  obtain ⟨hi, hmask⟩ := List.mem_filter.mp hi
  exact ⟨i, hi, hmask, hoff⟩

theorem updatesOf_clears (masks : List Nat) (h : ∀ off ∈ masks, CwnVar.mask off ∈ nt.vars) :
    UpdatesOf ops mem nt.vars [] (masks.map fun off => ⟨off, 4, fun _ => 0⟩) := by
  refine ⟨?_, fun v hv => absurd hv List.not_mem_nil⟩
  intro u hu
  obtain ⟨off, hoff, rfl⟩ := List.mem_map.mp hu
  exact ⟨_, h off hoff, rfl, rfl⟩

end Updates

section Get

variable {ops : FloatOps} {mem : Nat → UInt8} {nt : CwnTuple}

theorem cwnGetItems_eq (items : List IndItem) (p : List Nat) :
    cwnGetItems ops items (items.map (IndItem.word ops mem) ++ p) =
      some (items.flatMap fun i => cwnGetItem ops i (i.word ops mem), p) := by
  induction items with
  | nil => rfl
  | cons i items ih =>
    rw [List.map_cons, List.cons_append, cwnGetItems, ih]
    rfl

def GetsBack (ops : FloatOps) (mem : Nat → UInt8) (nt : CwnTuple) (done : List CwnVar)
    (words : List Nat) (get : List Nat → Option (List MemUpdate × List Nat)) : Prop :=
  ∀ p, ∃ updates, get (words ++ p) = some (updates, p) ∧ UpdatesOf ops mem nt.vars done updates

theorem getsBack_entries (masks : List Nat) {entries : List (List IndItem)}
    (hitems : ∀ i ∈ entries.flatten, i ∈ nt.items)
    (hmasks : ∀ off ∈ masks, ∃ e ∈ entries, off ∈ setupMaskList e) :
    GetsBack ops mem nt (entries.flatten.map .item) (entryWords ops mem entries)
      (cwnGetIndexedItem ops masks entries) := by
  intro p
  refine ⟨masks.map (fun off => ⟨off, 4, fun _ => 0⟩) ++
    entries.flatten.flatMap (fun i => cwnGetItem ops i (i.word ops mem)), ?_, ?_⟩
  · rw [cwnGetIndexedItem, entryWords, cwnGetItems_eq]
    rfl
  · change UpdatesOf ops mem nt.vars ([] ++ entries.flatten.map .item) _
    refine (updatesOf_clears masks ?_).append (updatesOf_items hitems)
    intro off hoff
    obtain ⟨e, he, hoff⟩ := hmasks off hoff
    obtain ⟨i, hi, hmask, rfl⟩ := mem_setupMaskList hoff
    exact CwnTuple.mask_mem_vars (hitems i (List.mem_flatten.mpr ⟨e, he, hi⟩)) hmask

theorem getsBack_index {a : IndexItem} {words : List Nat}
    (h : cwnFillIndexItem ops mem a = some words) (ha : a ∈ nt.indexItems) :
    GetsBack ops mem nt (.index a :: (indexEntries mem a).flatten.map .item) words
      (cwnGetIndexItem ops a) := by
  have hprefix := indexEntries_initial mem a
  have hlen := hprefix.length_le
  rw [a.alloc] at hlen
  rw [cwnFillIndexItem_eq h]
  have hitems : ∀ i ∈ (indexEntries mem a).flatten, i ∈ nt.items := by
    intro i hi
    obtain ⟨e, he, hi⟩ := List.mem_flatten.mp hi
    refine List.mem_append_left _ (List.mem_append_right _ ?_)
    exact List.mem_flatMap.mpr ⟨a, ha, List.mem_flatten.mpr ⟨e, hprefix.subset he, hi⟩⟩
  have htake : a.item.entries.take (indexEntries mem a).length = indexEntries mem a :=
    (List.prefix_iff_eq_take.mp hprefix).symm
  intro p
  obtain ⟨updates, hrun, hupdates⟩ : ∃ updates, _ ∧ UpdatesOf ops mem nt.vars _ updates :=
    getsBack_entries ((indexEntries mem a).flatMap setupMaskList) hitems
      (fun off hoff => List.mem_flatMap.mp hoff) p
  refine ⟨⟨a.srcOffset, 4, fun _ => (indexEntries mem a).length⟩ :: updates, ?_, ?_⟩
  · rw [List.cons_append, cwnGetIndexItem, if_neg (by omega)]
    dsimp only
    rw [htake, hrun]
    rfl
  · have hcount : UpdatesOf ops mem nt.vars [.index a]
        [⟨a.srcOffset, 4, fun _ => (indexEntries mem a).length⟩] :=
      .single (CwnTuple.index_mem_vars ha) rfl (List.mem_singleton.mpr rfl)
    exact hcount.append hupdates

theorem getsBack_arrayEntries {a : ArrayItem} (ha : a ∈ nt.arrayItems) {indices : List Nat}
    (h : ∀ k ∈ indices, k ∈ filledIndices mem a.srcBitsOffset a.itemsUsed) (p : List Nat) :
    ∃ updates, cwnGetArrayEntries ops a indices.length
        (indices.flatMap (indexWords ops mem a) ++ p) = some (updates, p) ∧
      UpdatesOf ops mem nt.vars
        ((indices.map fun k => a.item.entries[k]?.getD []).flatten.map .item) updates ∧
      ∀ k ∈ indices, setBit a.srcBitsOffset k ∈ updates := by
  induction indices with
  | nil => exact ⟨[], rfl, .nil,
      fun _ hk => absurd hk List.not_mem_nil⟩
  | cons k indices ih =>
    obtain ⟨rest, hrest, hupdates, hbits⟩ := ih fun j hj => h j (List.mem_cons_of_mem _ hj)
    have hk := h k List.mem_cons_self
    have hwidth := a.width
    have hused := (mem_filledIndices.mp hk).1
    have hlt : k < a.item.entries.length := by
      rw [a.alloc]
      exact hused
    have hentry : a.item.entries[k]? = some a.item.entries[k] := List.getElem?_eq_getElem hlt
    have hitems : ∀ i ∈ [a.item.entries[k]].flatten, i ∈ nt.items := by
      intro i hi
      rw [List.flatten_cons, List.flatten_nil, List.append_nil] at hi
      refine List.mem_append_right _ (List.mem_flatMap.mpr ⟨a, ha, ?_⟩)
      exact List.mem_flatten.mpr ⟨_, List.getElem_mem hlt, hi⟩
    obtain ⟨here, hhere, hhereUpdates⟩ : ∃ updates, _ ∧ UpdatesOf ops mem nt.vars _ updates :=
      getsBack_entries (setupMaskList a.item.entries[k]) hitems
        (fun off hoff => ⟨_, List.mem_singleton.mpr rfl, hoff⟩)
        (indices.flatMap (indexWords ops mem a) ++ p)
    rw [entryWords, List.flatten_cons, List.flatten_nil, List.append_nil] at hhere
    have hindex : (k + 1 + 2 ^ 32 - 1) % 2 ^ 32 = k := by omega
    refine ⟨setBit a.srcBitsOffset k :: here ++ rest, ?_, ?_, ?_⟩
    · rw [List.flatMap_cons, indexWords, hentry, Option.getD_some, List.cons_append,
        List.cons_append, List.append_assoc, List.length_cons, cwnGetArrayEntries,
        if_neg (by omega), hindex]
      simp only [hentry, Option.bind_eq_bind, Option.bind_some, hhere, hrest]
    · rw [List.map_cons, hentry, Option.getD_some, List.flatten_cons, List.map_append]
      rw [List.flatten_cons, List.flatten_nil, List.append_nil] at hhereUpdates
      exact (hhereUpdates.cons (CwnTuple.bits_mem_vars ha) ⟨k, hk, rfl⟩).append hupdates
    · intro j hj
      rcases List.mem_cons.mp hj with rfl | hj
      · exact List.mem_append_left _ List.mem_cons_self
      · exact List.mem_append_right _ (hbits j hj)

theorem getsBack_array {a : ArrayItem} {words : List Nat}
    (h : cwnFillArrayItem ops mem a = some words) (ha : a ∈ nt.arrayItems) :
    GetsBack ops mem nt (.bits a :: (arrayEntries mem a).flatten.map .item) words
      (cwnGetArrayItem ops a) := by
  intro p
  obtain ⟨updates, hrun, hupdates, hbits⟩ := getsBack_arrayEntries ha (fun k hk => hk) p
  rw [cwnFillArrayItem_eq h]
  refine ⟨updates, hrun, hupdates.known, ?_⟩
  intro v hv
  rcases List.mem_cons.mp hv with rfl | hv
  · exact ⟨CwnTuple.bits_mem_vars ha, hbits⟩
  · exact hupdates.done v hv

theorem getsBack_each {α : Type} {fill : α → Option (List Nat)} {done : α → List CwnVar}
    {get : α → List Nat → Option (List MemUpdate × List Nat)} {as : List α} {words : List Nat}
    (h : ∀ a ∈ as, ∀ w, fill a = some w → GetsBack ops mem nt (done a) w (get a))
    (hfill : concatSome fill as = some words) :
    GetsBack ops mem nt (as.flatMap done) words (getEach get as) := by
  induction as generalizing words with
  | nil =>
    cases hfill
    exact fun p => ⟨[], rfl, .nil⟩
  | cons a as ih =>
    obtain ⟨w, hw, hfill⟩ := Option.bind_eq_some_iff.mp hfill
    obtain ⟨ws, hws, hfill⟩ := Option.bind_eq_some_iff.mp hfill
    cases hfill
    intro p
    obtain ⟨rest, hrest, hrestUpdates⟩ := ih (fun b hb => h b (List.mem_cons_of_mem _ hb)) hws p
    obtain ⟨here, hhere, hhereUpdates⟩ := h a List.mem_cons_self w hw (ws ++ p)
    refine ⟨here ++ rest, ?_, ?_⟩
    · rw [List.append_assoc, getEach, hhere]
      simp only [Option.bind_eq_bind, Option.bind_some, hrest]
    · rw [List.flatMap_cons]
      exact hhereUpdates.append hrestUpdates

def CwnTuple.gotVars (nt : CwnTuple) (mem : Nat → UInt8) : List CwnVar :=
  nt.globalArray.map .item ++
    nt.indexItems.flatMap (fun a => .index a :: (indexEntries mem a).flatten.map .item) ++
    nt.arrayItems.flatMap fun a => .bits a :: (arrayEntries mem a).flatten.map .item

theorem cwnGet_updates {words : List Nat} (h : cwnFill ops nt mem = some words) :
    ∃ updates rest, cwnGet ops nt words = some (updates, rest) ∧
      concatSome (cwnFillArray2Item ops mem) nt.array2Items = some rest ∧
      UpdatesOf ops mem nt.vars (nt.gotVars mem) updates := by
  obtain ⟨wglobal, hwglobal, h⟩ := Option.bind_eq_some_iff.mp h
  obtain ⟨windex, hwindex, h⟩ := Option.bind_eq_some_iff.mp h
  obtain ⟨warray, hwarray, h⟩ := Option.bind_eq_some_iff.mp h
  obtain ⟨warray2, hwarray2, h⟩ := Option.bind_eq_some_iff.mp h
  cases h
  obtain ⟨-, rfl⟩ := cwnFillEntries_eq hwglobal
  have hitems : ∀ i ∈ [nt.globalArray].flatten, i ∈ nt.items := by
    intro i hi
    rw [List.flatten_cons, List.flatten_nil, List.append_nil] at hi
    exact List.mem_append_left _ (List.mem_append_left _ hi)
  obtain ⟨u1, hrun1, hu1⟩ : ∃ updates, _ ∧ UpdatesOf ops mem nt.vars _ updates :=
    getsBack_entries [] hitems (fun _ hoff => absurd hoff List.not_mem_nil)
      (windex ++ (warray ++ warray2))
  obtain ⟨u2, hrun2, hu2⟩ :=
    getsBack_each (fun a ha w hw => getsBack_index hw ha) hwindex (warray ++ warray2)
  obtain ⟨u3, hrun3, hu3⟩ :=
    getsBack_each (fun a ha w hw => getsBack_array hw ha) hwarray warray2
  rw [List.flatten_cons, List.flatten_nil, List.append_nil] at hu1
  refine ⟨u1 ++ u2 ++ u3, warray2, ?_, hwarray2, (hu1.append hu2).append hu3⟩
  · have hglobal : ([nt.globalArray].drop 0).take 1 = [nt.globalArray] := rfl
    rw [hglobal, List.append_assoc, List.append_assoc, cwnGet, hrun1]
    simp only [Option.bind_eq_bind, Option.bind_some, hrun2, hrun3]

end Get

section Restored

variable {ops : FloatOps} {mem : Nat → UInt8} {nt : CwnTuple}

structure CwnRestored (nt : CwnTuple) (mem base mem' : Nat → UInt8) : Prop where
  items : ∀ i ∈ nt.filledItems mem, i.is indItemTypeFloat = false → i.maskValid mem = true →
    loadN mem' i.off i.size = loadN mem i.off i.size
  /-- What is not there was filled as zero. -/
  absent : ∀ i ∈ nt.filledItems mem, i.is indItemTypeFloat = false → i.maskValid mem = false →
    loadN mem' i.off i.size = (2 ^ 32 - (i.info &&& indItemTypeIntAdd1)) % 256 ^ i.size
  counts : ∀ a ∈ nt.indexItems, loadN mem' a.srcOffset 4 = (indexEntries mem a).length
  indices : ∀ a ∈ nt.arrayItems, ∀ k, k < a.itemsUsed →
    (bitAt mem' a.srcBitsOffset k = true ↔
      bitAt base a.srcBitsOffset k = true ∨ bitAt mem a.srcBitsOffset k = true)

theorem IndItem.size_cases {i : IndItem} (hint : i.is indItemTypeFloat = false) :
    i.size = 1 ∨ i.size = 2 ∨ i.size = 4 := by
  unfold IndItem.size
  rw [hint]
  simp only [Bool.false_eq_true, if_false]
  split
  · omega
  split
  · omega
  · omega

theorem IndItem.got_valid {i : IndItem} (hint : i.is indItemTypeFloat = false)
    (hvalid : i.maskValid mem = true) :
    i.got ops mem % 256 ^ i.size = loadN mem i.off i.size := by
  have hlt := loadN_lt mem i.off i.size
  have hadd : i.info &&& indItemTypeIntAdd1 ≤ 1 := Nat.and_le_right
  have hword : i.word ops mem =
      (loadN mem i.off i.size + (i.info &&& indItemTypeIntAdd1)) % 2 ^ 32 := by
    simp [IndItem.word, hint, hvalid, IndItem.intVal]
  have hgot : i.got ops mem = (i.word ops mem + 2 ^ 32 - (i.info &&& indItemTypeIntAdd1)) %
      2 ^ 32 := by
    simp [IndItem.got, hint]
  have hsmall : 256 ^ i.size ≤ 2 ^ 32 := by
    rcases IndItem.size_cases hint with h | h | h <;> rw [h] <;> decide
  rw [hgot, hword]
  have heq : ((loadN mem i.off i.size + (i.info &&& indItemTypeIntAdd1)) % 2 ^ 32 + 2 ^ 32 -
      (i.info &&& indItemTypeIntAdd1)) % 2 ^ 32 = loadN mem i.off i.size := by omega
  rw [heq, Nat.mod_eq_of_lt hlt]

theorem IndItem.got_absent {i : IndItem} (hint : i.is indItemTypeFloat = false)
    (hvalid : i.maskValid mem = false) :
    i.got ops mem % 256 ^ i.size =
      (2 ^ 32 - (i.info &&& indItemTypeIntAdd1)) % 256 ^ i.size := by
  have hadd : i.info &&& indItemTypeIntAdd1 ≤ 1 := Nat.and_le_right
  have hgot : i.got ops mem = (2 ^ 32 - (i.info &&& indItemTypeIntAdd1)) % 2 ^ 32 := by
    simp [IndItem.got, hint, IndItem.word, hvalid]
  have hdvd : 256 ^ i.size ∣ 2 ^ 32 := by
    rcases IndItem.size_cases hint with h | h | h <;> rw [h] <;> decide
  rw [hgot, Nat.mod_mod_of_dvd _ hdvd]

theorem apart_of_updated {v w : CwnVar} {u : MemUpdate} {a n : Nat} (hsep : nt.Separate)
    (hv : v ∈ nt.vars) (hw : w ∈ nt.vars) (hne : v ≠ w) (hu : w.Updated ops mem u)
    (hlo : v.addr ≤ a) (hhi : a + n ≤ v.addr + v.len) : Apart a n u.addr u.len := by
  have hapart := hsep v hv w hw hne
  have hinside := hu.inside
  unfold Apart at hapart ⊢
  omega

theorem IndItem.size_pos (i : IndItem) : 0 < i.size := by
  unfold IndItem.size
  split_ifs <;> omega

theorem loadN_got {updates : List MemUpdate} (hsep : nt.Separate)
    (h : UpdatesOf ops mem nt.vars (nt.gotVars mem) updates) (base : Nat → UInt8) {i : IndItem}
    (hi : i ∈ nt.filledItems mem) (hstored : i.GetsStored ops mem) :
    loadN (runUpdates base updates) i.off i.size = i.got ops mem % 256 ^ i.size := by
  have hgot : CwnVar.item i ∈ nt.gotVars mem := by
    simp only [CwnTuple.filledItems, CwnTuple.gotVars, List.mem_append, List.mem_flatMap,
      List.mem_map, List.mem_cons] at hi ⊢
    rcases hi with (hi | ⟨a, ha, hi⟩) | ⟨a, ha, hi⟩
    · exact .inl (.inl ⟨i, hi, rfl⟩)
    · exact .inl (.inr ⟨a, ha, .inr ⟨i, hi, rfl⟩⟩)
    · exact .inr ⟨a, ha, .inr ⟨i, hi, rfl⟩⟩
  obtain ⟨hvar, hdone⟩ := h.done _ hgot
  refine runUpdates_value base ⟨_, hdone hstored, rfl, rfl⟩ ?_ i.size_pos
  intro u hu
  obtain ⟨v, hv, hupd⟩ := h.known u hu
  by_cases hsame : v = .item i
  · subst hsame
    exact .inr hupd
  · exact .inl (apart_of_updated hsep hvar hv (Ne.symm hsame) hupd (Nat.le_refl _)
      (Nat.le_refl _))

theorem cwnRestored_of_updates {updates : List MemUpdate} (hsep : nt.Separate)
    (h : UpdatesOf ops mem nt.vars (nt.gotVars mem) updates) (base : Nat → UInt8) :
    CwnRestored nt mem base (runUpdates base updates) := by
  refine ⟨?_, ?_, ?_, ?_⟩
  · intro i hi hint hvalid
    rw [loadN_got hsep h base hi (.inl hint), IndItem.got_valid hint hvalid]
  · intro i hi hint hvalid
    rw [loadN_got hsep h base hi (.inl hint), IndItem.got_absent hint hvalid]
  · intro a ha
    have hgot : CwnVar.index a ∈ nt.gotVars mem := by
      simp only [CwnTuple.gotVars, List.mem_append, List.mem_flatMap, List.mem_cons]
      exact .inl (.inr ⟨a, ha, .inl rfl⟩)
    obtain ⟨hvar, hdone⟩ := h.done _ hgot
    have hvalue : loadN (runUpdates base updates) a.srcOffset 4 =
        (indexEntries mem a).length % 256 ^ 4 := by
      refine runUpdates_value base ⟨_, hdone, rfl, rfl⟩ ?_ (by decide)
      intro u hu
      obtain ⟨v, hv, hupd⟩ := h.known u hu
      by_cases hsame : v = .index a
      · subst hsame
        exact .inr hupd
      · exact .inl (apart_of_updated hsep hvar hv (Ne.symm hsame) hupd (Nat.le_refl _)
          (Nat.le_refl _))
    have hlt := loadN_lt mem a.srcOffset 4
    have hle : (indexEntries mem a).length ≤ loadN mem a.srcOffset 4 := by
      refine Nat.le_trans (List.takeWhile_prefix _).length_le ?_
      rw [List.length_take]
      omega
    rw [hvalue, Nat.mod_eq_of_lt (by omega)]
  · intro a ha k hk
    have hgot : CwnVar.bits a ∈ nt.gotVars mem := by
      simp only [CwnTuple.gotVars, List.mem_append, List.mem_flatMap, List.mem_cons]
      exact .inr ⟨a, ha, .inl rfl⟩
    obtain ⟨hvar, hdone⟩ := h.done _ hgot
    have hapart : ∀ u ∈ updates, (∃ j ∈ filledIndices mem a.srcBitsOffset a.itemsUsed,
        u = setBit a.srcBitsOffset j) ∨
        Apart (a.srcBitsOffset + 8 * (k / 64)) 8 u.addr u.len := by
      intro u hu
      obtain ⟨v, hv, hupd⟩ := h.known u hu
      by_cases hsame : v = .bits a
      · subst hsame
        exact .inl hupd
      · right
        refine apart_of_updated hsep hvar hv (Ne.symm hsame) hupd ?_ ?_
        · exact Nat.le_add_right _ _
        · simp only [CwnVar.addr, CwnVar.len, longCount]
          omega
    have hbits := runUpdates_or base updates (a := a.srcBitsOffset + 8 * (k / 64)) (n := 8)
      (j := k % 64) ?_ (by omega)
    · unfold bitAt
      refine hbits.trans (or_congr Iff.rfl ?_)
      constructor
      · rintro ⟨u, hu, haddr, hlen, hbit⟩
        rcases hapart u hu with ⟨j, hj, rfl⟩ | hapart
        · have hword : 8 * (j / 64) = 8 * (k / 64) := Nat.add_left_cancel haddr
          simp only [setBit, Nat.zero_or, Nat.shiftLeft_eq, Nat.one_mul, Nat.testBit_two_pow,
            decide_eq_true_eq] at hbit
          have hjk : j = k := by omega
          subst hjk
          exact (mem_filledIndices.mp hj).2
        · unfold Apart at hapart
          omega
      · intro hbit
        refine ⟨_, hdone k (mem_filledIndices.mpr ⟨hk, hbit⟩), rfl, rfl, ?_⟩
        simp [setBit, Nat.shiftLeft_eq]
    · intro u hu
      rcases hapart u hu with ⟨j, -, rfl⟩ | hapart
      · by_cases hword : j / 64 = k / 64
        · exact .inr ⟨_, by rw [setBit, hword]⟩
        · left
          simp only [setBit, Apart]
          omega
      · exact .inl hapart

end Restored

/-- The filled words go to the variables that they are of, and the integers come back from them. -/
structure CwnAgree (ops : FloatOps) (nt : CwnTuple) (mem : Nat → UInt8) (list words : List Nat) :
    Prop where
  /-- Each word has one slot, in order. -/
  slots : words = (cwnSlots ops nt mem).map Prod.snd
  parsed : ∃ entries, packEntries list = some entries ∧ ∀ dest,
    extDataWritePackedEvent list entries.length dest words =
      some (0, storeSlots dest (cwnSlots ops nt mem))
  /-- Only the words of doubly indexed arrays are left. -/
  restored : nt.Separate → ∀ base, ∃ updates rest, cwnGet ops nt words = some (updates, rest) ∧
    CwnRestored nt mem base (runUpdates base updates) ∧
    (nt.array2Items = [] → unpackEvent ops nt base words = some (runUpdates base updates))

theorem cwn_fill_ptrs_get_agree (ops : FloatOps) {nt : CwnTuple} {mem : Nat → UInt8}
    {list words : List Nat} (hlist : cwnPtrs nt = some list)
    (hwords : cwnFill ops nt mem = some words) (hwithin : ∀ a ∈ nt.array2Items, a.Within mem) :
    CwnAgree ops nt mem list words := by
  obtain ⟨hlen, htakes⟩ := cwnPtrs_takes hlist hwords hwithin
  refine ⟨htakes.words_eq, htakes.packed hlen, ?_⟩
  intro hsep base
  obtain ⟨updates, rest, hget, hrest, hupdates⟩ := cwnGet_updates hwords
  refine ⟨updates, rest, hget, cwnRestored_of_updates hsep hupdates base, ?_⟩
  intro hnone
  rw [hnone] at hrest
  cases hrest
  rw [unpackEvent, hget]
  rfl

def singleOps : FloatOps := ⟨fun _ bits => bits, fun _ word => word, fun word => word / 2 ^ 23 % 256 != 255⟩

def intItem (off dest : Nat) : IndItem := ⟨0, off, 0, 0, dest⟩

def demoArray2 : Array2Item where
  item := ⟨1, [[intItem 48 44], [intItem 52 48]], by decide⟩
  itemsMax := 1
  itemsUsed := 1
  itemsMax2 := 2
  itemsUsed2 := 2
  dest := 40
  dest2 := 28
  srcBitsOffset := 40
  numItems2Offset := [56]
  alloc := rfl
  alloc2 := rfl
  vars := by decide

def demoTuple : CwnTuple where
  globalArray := [intItem 0 0]
  indexItems := [⟨⟨1, [[intItem 8 8], [intItem 12 12]], by decide⟩, 3, 2, 4, 4, rfl⟩]
  arrayItems := [⟨⟨1, [[⟨0x15, 24, 0, 28, 20⟩], [⟨0x15, 25, 0, 32, 24⟩]], by decide⟩, 2, 2, 16, 16,
    rfl, by decide⟩]
  array2Items := []

def demoMem : Nat → UInt8 :=
  fun b => if b = 4 then 3 else if b = 16 then 2 else if b = 32 then 1 else if b = 40 then 1
    else if b = 56 then 2
    else if b = 0 ∨ b = 8 ∨ b = 12 ∨ b = 25 ∨ b = 48 ∨ b = 52 then UInt8.ofNat (b + 1) else 0

instance (a n b m : Nat) : Decidable (Apart a n b m) :=
  inferInstanceAs (Decidable (_ ∨ _))

instance (nt : CwnTuple) : Decidable nt.Separate :=
  inferInstanceAs (Decidable (∀ v ∈ nt.vars, ∀ w ∈ nt.vars, v ≠ w → _))

theorem cwn_fill_ptrs_get_agree_demo :
    ∃ list words, cwnPtrs demoTuple = some list ∧ cwnFill singleOps demoTuple demoMem = some words ∧
      demoTuple.Separate ∧ CwnAgree singleOps demoTuple demoMem list words := by
  have hlist : (cwnPtrs demoTuple).isSome = true := by decide +kernel
  have hwords : cwnFill singleOps demoTuple demoMem = some [1, 2, 9, 13, 1, 2, 27] := by
    decide +kernel
  obtain ⟨list, hlist⟩ := Option.isSome_iff_exists.mp hlist
  refine ⟨list, _, hlist, hwords, by decide +kernel, ?_⟩
  exact cwn_fill_ptrs_get_agree singleOps hlist hwords fun a ha => absurd ha List.not_mem_nil

theorem cwn_array2_not_got :
    ∃ list words, cwnPtrs { demoTuple with array2Items := [demoArray2] } = some list ∧
      cwnFill singleOps { demoTuple with array2Items := [demoArray2] } demoMem = some words ∧
      demoArray2.Within demoMem ∧
      ∀ base, unpackEvent singleOps { demoTuple with array2Items := [demoArray2] } base words =
        none := by
  have hlist : (cwnPtrs { demoTuple with array2Items := [demoArray2] }).isSome = true := by
    decide +kernel
  have hwords : cwnFill singleOps { demoTuple with array2Items := [demoArray2] } demoMem =
      some [1, 2, 9, 13, 1, 2, 27, 1, 1, 2, 2, 49, 53] := by
    decide +kernel
  have hget : (cwnGet singleOps { demoTuple with array2Items := [demoArray2] }
      [1, 2, 9, 13, 1, 2, 27, 1, 1, 2, 2, 49, 53]).map Prod.snd = some [1, 1, 2, 2, 49, 53] := by
    decide +kernel
  obtain ⟨list, hlist⟩ := Option.isSome_iff_exists.mp hlist
  refine ⟨list, _, hlist, hwords, ?_, ?_⟩
  · unfold Array2Item.Within
    decide +kernel
  · intro base
    obtain ⟨⟨updates, rest⟩, hrun, hrest⟩ := Option.map_eq_some_iff.mp hget
    cases hrest
    rw [unpackEvent, hrun]
    rfl

end Ucesb
