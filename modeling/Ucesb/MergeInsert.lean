import Ucesb.MergeSort

namespace Ucesb

theorem growAlloc_spec {need : Nat} (hn : need ≤ 2 ^ 31) {fuel k : Nat} (hk : k ≤ 19)
    (hf : 19 - k < fuel) :
    ∃ k', k ≤ k' ∧ k' ≤ 19 ∧ need ≤ 4096 * 2 ^ k' ∧
      growAlloc fuel (4096 * 2 ^ k) need = some (4096 * 2 ^ k') := by
  induction fuel generalizing k with
  | zero => omega
  | succ fuel ih =>
    unfold growAlloc
    by_cases hlt : 4096 * 2 ^ k < need
    · have hk' : k < 19 := by
        apply Nat.lt_of_le_of_ne hk
        rintro rfl
        norm_num at hlt hn
        omega
      have hpow : 2 ^ (k + 1) ≤ 2 ^ 19 := Nat.pow_le_pow_right (by omega) hk'
      have hdouble : 4096 * 2 ^ k * 2 % 2 ^ 32 = 4096 * 2 ^ (k + 1) := by
        rw [Nat.pow_succ] at hpow ⊢
        rw [Nat.mod_eq_of_lt (by omega)]
        omega
      obtain ⟨k', h1, h2, h3, h4⟩ := ih hk' (by omega)
      rw [if_pos hlt, hdouble]
      exact ⟨k', by omega, h2, h3, h4⟩
    · rw [if_neg hlt]
      exact ⟨k, le_refl _, hk, by omega, rfl⟩

section Insert

variable {store : MergeItemStore} {q : List (Queued MergeEvent)}

theorem StoreRep.makeSpace_spec (h : StoreRep store q) (fresh : UInt8) {need : Nat}
    (hn : need ≤ 2 ^ 31) (hm : store.movesItems need = false) :
    ∃ store', store.makeSpace fresh need = some store' ∧ StoreRep store' q ∧
      need ≤ store'.alloc ∧ store'.used = store.used := by
  unfold MergeItemStore.makeSpace
  by_cases hgt : need > store.alloc
  · have hgrow : ∃ alloc, growAlloc 64 (if store.alloc = 0 then 0x1000 else store.alloc) need =
        some alloc ∧ need ≤ alloc ∧ store.alloc ≤ alloc ∧ AllocSize alloc := by
      obtain hz | ⟨k, hk, he⟩ := h.alloc_size
      · obtain ⟨k', _, h2, h3, h4⟩ := @growAlloc_spec need hn 64 0 (by omega) (by omega)
        rw [if_pos hz]
        exact ⟨_, h4, h3, by omega, .inr ⟨k', h2, rfl⟩⟩
      · obtain ⟨k', h1, h2, h3, h4⟩ := @growAlloc_spec need hn 64 k hk (by omega)
        have hpos : 0 < 2 ^ k := Nat.two_pow_pos k
        rw [if_neg (by omega), he]
        exact ⟨_, h4, h3, Nat.mul_le_mul_left _ (Nat.pow_le_pow_right (by omega) h1),
          Or.inr ⟨k', h2, rfl⟩⟩
    obtain ⟨alloc, hg, hna, hle, hsize⟩ := hgrow
    have hb := h.buf_length
    have hu := h.used_eq
    have hl := h.used_le
    obtain ⟨tail, ht⟩ := h.items
    rw [if_pos hgt, if_neg (by rw [hm]; exact Bool.false_ne_true), hg]
    refine ⟨_, rfl, ?_, hna, rfl⟩
    constructor
    · refine ⟨tail ++ List.replicate (alloc - store.buf.length) fresh, ?_⟩
      dsimp only
      rw [List.drop_append_of_le_length (by omega), ht, List.append_assoc]
    · exact hu
    · dsimp only
      rw [List.length_append, List.length_replicate]
      omega
    · exact le_trans hl hle
    · exact hsize
  · rw [if_neg hgt]
    exact ⟨store, rfl, h, by omega, rfl⟩

theorem writeAt_end {xs tail bs : List UInt8} :
    writeAt (xs ++ tail) xs.length bs = xs ++ bs ++ tail.drop bs.length := by
  unfold writeAt
  rw [List.take_left, List.drop_append, List.drop_eq_nil_of_le (by omega), List.nil_append,
    Nat.add_sub_cancel_left]

theorem StoreRep.insert_spec (h : StoreRep store q) (fresh : UInt8) (event : MergeEvent)
    (hn : store.needFor event ≤ 2 ^ 31) (hm : store.movesItems (store.needFor event) = false) :
    ∃ store', store.insert fresh event = some store' ∧
      StoreRep store' (q ++ [Queued.fresh event]) := by
  have h0 : StoreRep { store with prevMeventno := event.meventno } q :=
    ⟨h.items, h.used_eq, h.buf_length, h.used_le, h.alloc_size⟩
  obtain ⟨s, hs, hrep, hna, hused⟩ := h0.makeSpace_spec fresh hn hm
  dsimp only at hused
  have hu := hrep.used_eq
  have hb := hrep.buf_length
  obtain ⟨tail, ht⟩ := hrep.items
  have hnew : encodeChunk ⟨event.tstamp, event.pre.length, event.data.length, 0⟩ ++ event.pre ++
      event.data = encodeItem (Queued.fresh event) := by
    simp [encodeItem, chunkOf, Queued.fresh, mergeFlags]
  have hlen := encodeItem_length (Queued.fresh event)
  simp only [Queued.fresh] at hlen
  have hneed : store.needFor event % 2 ^ 32 = s.used + (encodeItem (Queued.fresh event)).length := by
    rw [Nat.mod_eq_of_lt (by omega)]
    simp only [MergeItemStore.needFor, mergeItemChunkSize, Queued.fresh]
    omega
  have hfit : s.used + (encodeItem (Queued.fresh event)).length ≤ s.alloc := by
    rw [Nat.mod_eq_of_lt (by omega)] at hneed
    omega
  refine ⟨{ s with
    buf := writeAt s.buf s.used (encodeItem (Queued.fresh event))
    used := store.needFor event % 2 ^ 32 }, ?_, ?_⟩
  · unfold MergeItemStore.insert
    simp only [hs, Option.bind_eq_bind, Option.bind_some, hnew]
    rfl
  · have hone : encodeItems [Queued.fresh event] = encodeItem (Queued.fresh event) := by
      rw [encodeItems_cons]
      exact List.append_nil _
    constructor
    · refine ⟨tail.drop (encodeItem (Queued.fresh event)).length, ?_⟩
      dsimp only
      rw [writeAt_drop (by omega) (by omega), ht, hu, Nat.add_sub_cancel_left, writeAt_end,
        encodeItems_append, hone]
    · dsimp only
      rw [hneed, encodeItems_append, hone, List.length_append]
      omega
    · dsimp only
      rw [writeAt_length (by omega), hb]
    · dsimp only
      rw [hneed]
      exact hfit
    · exact hrep.alloc_size

end Insert

section Stores

variable {items : ItemsStore} {qs : Nat → List (Queued MergeEvent)}

theorem growItemsStore_gt {fuel n srcid : Nat} (h : srcid < n * 2 ^ fuel) :
    srcid < growItemsStore fuel n srcid := by
  induction fuel generalizing n with
  | zero => simpa [growItemsStore] using h
  | succ fuel ih =>
    unfold growItemsStore
    by_cases hge : srcid ≥ n
    · rw [if_pos hge]
      apply ih
      rw [Nat.pow_succ] at h
      calc srcid < n * (2 ^ fuel * 2) := h
        _ = n * 2 * 2 ^ fuel := by ring
    · rw [if_neg hge]
      omega

theorem ensureItemsStore_length {srcid : Nat} (h : srcid < 2 ^ 32) :
    srcid < (ensureItemsStore items srcid).length := by
  unfold ensureItemsStore
  by_cases hge : srcid ≥ items.length
  · have hgrow : srcid < growItemsStore 32 (if items.length = 0 then 16 else items.length) srcid := by
      apply growItemsStore_gt
      split <;> omega
    rw [if_pos hge, List.length_append, List.length_replicate]
    omega
  · rw [if_neg hge]
    omega

theorem ensureItemsStore_getD (srcid j : Nat) :
    (ensureItemsStore items srcid).getD j none = items.getD j none := by
  unfold ensureItemsStore
  split
  · rw [List.getD_eq_getElem?_getD, List.getD_eq_getElem?_getD, List.getElem?_append]
    split
    · rfl
    · rw [List.getElem?_eq_none (l := items) (by omega), List.getElem?_replicate]
      split <;> split <;> rfl
  · rfl

theorem ItemsRep.ensure (h : ItemsRep 0 items qs) (srcid : Nat) :
    ItemsRep 0 (ensureItemsStore items srcid) qs := by
  intro j
  rw [ensureItemsStore_getD]
  exact h j

theorem ItemsRep.storeOf (h : ItemsRep 0 items qs) (srcid : Nat) :
    StoreRep (storeOf items srcid) (qs srcid) := by
  have hs := h srcid
  rw [Nat.zero_add] at hs
  unfold Ucesb.storeOf
  cases hd : items.getD srcid none with
  | none =>
    rw [hd] at hs
    rw [show qs srcid = [] from hs]
    exact StoreRep.empty
  | some store =>
    rw [hd] at hs
    have hst : StoreRep store (qs srcid) := hs
    unfold openStore
    dsimp only
    by_cases hge : store.offsetFirst ≥ store.used
    · have hu := hst.used_eq
      have hq := length_le_encodeItems (qs srcid)
      have hnil : qs srcid = [] := List.length_eq_zero_iff.mp (by omega)
      rw [if_pos hge, hnil]
      exact ⟨⟨store.buf, rfl⟩, rfl, hst.buf_length, Nat.zero_le _, hst.alloc_size⟩
    · rw [if_neg hge]
      exact hst

theorem ItemsRep.set (h : ItemsRep 0 items qs) {srcid : Nat} (hlt : srcid < items.length)
    {store : MergeItemStore} {q : List (Queued MergeEvent)} (hs : StoreRep store q) :
    ItemsRep 0 (items.set srcid (some store)) (Function.update qs srcid q) := by
  intro j
  have hj := h j
  rw [Nat.zero_add] at hj ⊢
  by_cases he : j = srcid
  · subst he
    rw [List.getD_eq_getElem?_getD, List.getElem?_set_self hlt, Function.update_self]
    exact hs
  · rw [List.getD_eq_getElem?_getD, List.getElem?_set_ne (Ne.symm he),
      ← List.getD_eq_getElem?_getD, Function.update_of_ne he]
    exact hj

end Stores

/-- The event finds space at the end of its store, and the items there need not be moved. -/
def insertFits (window : Nat) (items : ItemsStore) (event : MergeEvent) : Bool :=
  match sortFor window items event with
  | none => true
  | some sorted =>
    let store := storeOf (ensureItemsStore sorted.2 event.srcid) event.srcid
    store.needFor event ≤ 2 ^ 31 && !store.movesItems (store.needFor event)

end Ucesb
