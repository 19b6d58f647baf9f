import Ucesb.Bytes
import Ucesb.Pieces
import Ucesb.WindowMerge

namespace Ucesb

/-- An event to be stitched: the words that are read from its data, the header bytes before the
data, and the data. -/
structure MergeEvent where
  srcid : Nat
  tstamp : Nat
  meventno : Nat
  pre : List UInt8
  data : List UInt8
  srcid_lt : srcid < 2 ^ 32
  tstamp_lt : tstamp < 2 ^ 64

theorem mergeEvent_eq_iff {a b : MergeEvent} :
    (a.srcid = b.srcid ∧ a.tstamp = b.tstamp ∧ a.meventno = b.meventno ∧ a.pre = b.pre ∧
      a.data = b.data) ↔ a = b := by
  cases a
  cases b
  simp

instance : DecidableEq MergeEvent := fun _ _ => decidable_of_iff _ mergeEvent_eq_iff

structure MergeItemChunk where
  tstamp : Nat
  prelen : Nat
  plen : Nat
  flags : Nat
deriving DecidableEq

def mergeItemChunkSize : Nat := 20

def extFileMergeNextSrcidWithinWindow : Nat := 1
def extFileMergePrevSrcidWithinWindow : Nat := 2

/-- `merge_item_store`: `buf` is what has been allocated. -/
structure MergeItemStore where
  prevMeventno : Nat
  offsetFirst : Nat
  used : Nat
  alloc : Nat
  buf : List UInt8
deriving DecidableEq

/-- What `ext_merge_do_merge` is given, and the flags with it. -/
structure MergedEvent where
  header : List UInt8
  incl : List (Nat × List UInt8)
  flags : Nat
deriving DecidableEq

def encodeChunk (c : MergeItemChunk) : List UInt8 :=
  le32 (c.tstamp % 2 ^ 32) ++ le32 (c.tstamp / 2 ^ 32) ++ le32 c.prelen ++ le32 c.plen ++
    le32 c.flags

def decodeChunk (bs : List UInt8) : MergeItemChunk where
  tstamp := rd32 (bs.drop 4) * 2 ^ 32 + rd32 bs
  prelen := rd32 (bs.drop 8)
  plen := rd32 (bs.drop 12)
  flags := rd32 (bs.drop 16)

def writeAt (buf : List UInt8) (offset : Nat) (bs : List UInt8) : List UInt8 :=
  buf.take offset ++ bs ++ buf.drop (offset + bs.length)

def MergeItemStore.first (store : MergeItemStore) : Option MergeItemChunk :=
  if store.offsetFirst < store.used then some (decodeChunk (store.buf.drop store.offsetFirst))
  else none

abbrev ItemsStore := List (Option MergeItemStore)

def tstampMax : Nat := 2 ^ 64 - 1

def olderFirst (toldest : Nat) (store : Option MergeItemStore) : Nat :=
  match store.bind MergeItemStore.first with
  | none => toldest
  | some item => if item.tstamp < toldest then item.tstamp else toldest

def findOldest (items : ItemsStore) : Nat := items.foldl olderFirst tstampMax

structure InclState where
  incl : List (Nat × List UInt8)
  incl0 : Option (List UInt8 × Nat)
  flags : Nat
  toldestNext : Nat
deriving DecidableEq

/-- The store moves past its first item; the next one is looked at and possibly marked. -/
def MergeItemStore.consume (store : MergeItemStore) (item : MergeItemChunk) (twindowEnd : Nat)
    (acc : InclState) : MergeItemStore × InclState :=
  let store := { store with
    offsetFirst := (store.offsetFirst + mergeItemChunkSize + item.prelen + item.plen) % 2 ^ 32 }
  match store.first with
  | none => (store, acc)
  | some item2 =>
    let acc := { acc with toldestNext := min acc.toldestNext item2.tstamp }
    if item2.tstamp ≤ twindowEnd then
      let flags := le32 (item2.flags ||| extFileMergePrevSrcidWithinWindow)
      ({ store with buf := writeAt store.buf (store.offsetFirst + 16) flags },
        { acc with flags := acc.flags ||| extFileMergeNextSrcidWithinWindow })
    else (store, acc)

def MergeItemStore.contribute (store : MergeItemStore) (srcid twindowEnd : Nat)
    (acc : InclState) : MergeItemStore × InclState :=
  match store.first with
  | none => (store, acc)
  | some item =>
    if item.tstamp > twindowEnd then
      (store, { acc with toldestNext := min acc.toldestNext item.tstamp })
    else
      let msg := store.buf.drop (store.offsetFirst + mergeItemChunkSize)
      let pre := msg.take item.prelen
      let data := (msg.drop item.prelen).take item.plen
      let older := match acc.incl0 with
        | none => true
        | some (_, tstamp) => item.tstamp < tstamp
      store.consume item twindowEnd { acc with
        incl := acc.incl ++ [(srcid, data)]
        incl0 := if older then some (pre, item.tstamp) else acc.incl0
        flags := acc.flags ||| item.flags }

def contributeAll (twindowEnd : Nat) : Nat → ItemsStore → InclState → ItemsStore × InclState
  | _, [], acc => ([], acc)
  | srcid, none :: items, acc =>
    let r := contributeAll twindowEnd (srcid + 1) items acc
    (none :: r.1, r.2)
  | srcid, some store :: items, acc =>
    let c := store.contribute srcid twindowEnd acc
    let r := contributeAll twindowEnd (srcid + 1) items c.2
    (some c.1 :: r.1, r.2)

/-- `none` if there is nothing to be stitched yet; else the event, the stores and
`toldest_next`. -/
def extMergeSortUntil (window : Nat) (items : ItemsStore) (tUntil : Nat) :
    Option (MergedEvent × ItemsStore × Nat) :=
  let toldest := findOldest items
  if toldest ≥ tUntil then none
  else
    let r := contributeAll ((toldest + window) % 2 ^ 64) 0 items ⟨[], none, 0, tstampMax⟩
    some (⟨(r.2.incl0.map Prod.fst).getD [], r.2.incl, r.2.flags⟩, r.1, r.2.toldestNext)

/-- The loop of `ext_merge_insert_chunk`; `none` if the fuel does not suffice. -/
def sortBefore (window tUntil : Nat) : Nat → ItemsStore → Option (List MergedEvent × ItemsStore)
  | 0, _ => none
  | fuel + 1, items =>
    match extMergeSortUntil window items tUntil with
    | none => some ([], items)
    | some (event, items, toldestNext) =>
      if toldestNext = tstampMax then some ([event], items)
      else (sortBefore window tUntil fuel items).map fun r => (event :: r.1, r.2)

def extMergeSortAllUntil (window tUntil : Nat) : Nat → ItemsStore → Option (List MergedEvent)
  | 0, _ => none
  | fuel + 1, items =>
    match extMergeSortUntil window items tUntil with
    | none => some []
    | some (event, items, _) => (extMergeSortAllUntil window tUntil fuel items).map (event :: ·)

def pendingBytes (items : ItemsStore) : Nat :=
  (items.map fun store => (store.map fun s => s.used - s.offsetFirst).getD 0).sum

def extMergeSortAll (window : Nat) (items : ItemsStore) : Option (List MergedEvent) :=
  extMergeSortAllUntil window tstampMax (pendingBytes items + 1) items

/-- `_alloc_items_store` doubles until it is beyond the source id. -/
def growItemsStore : Nat → Nat → Nat → Nat
  | 0, n, _ => n
  | fuel + 1, n, srcid => if srcid ≥ n then growItemsStore fuel (n * 2) srcid else n

def ensureItemsStore (items : ItemsStore) (srcid : Nat) : ItemsStore :=
  if srcid ≥ items.length then
    let n := growItemsStore 32 (if items.length = 0 then 16 else items.length) srcid
    items ++ List.replicate (n - items.length) none
  else items

def openStore : Option MergeItemStore → MergeItemStore
  | none => ⟨0, 0, 0, 0, []⟩
  | some store =>
    if store.offsetFirst ≥ store.used then { store with offsetFirst := 0, used := 0 } else store

/-- `none` if the doubling never ends. -/
def growAlloc : Nat → Nat → Nat → Option Nat
  | 0, _, _ => none
  | fuel + 1, alloc, need =>
    if alloc < need then growAlloc fuel (alloc * 2 % 2 ^ 32) need else some alloc

/-- Whether the items are moved to the beginning of the buffer instead of allocating more. -/
def MergeItemStore.movesItems (store : MergeItemStore) (need : Nat) : Bool :=
  need > store.alloc && store.offsetFirst ≠ 0 && store.offsetFirst * 2 % 2 ^ 32 < need

/-- Space for `need` bytes; `fresh` is what the memory holds that has just been allocated. -/
def MergeItemStore.makeSpace (fresh : UInt8) (store : MergeItemStore) (need : Nat) :
    Option MergeItemStore :=
  if need > store.alloc then
    if store.movesItems need then
      some { store with
        buf := memmove store.buf 0 store.offsetFirst (store.used - store.offsetFirst)
        used := store.used - store.offsetFirst
        offsetFirst := 0 }
    else do
      let alloc ← growAlloc 64 (if store.alloc = 0 then 0x1000 else store.alloc) need
      return { store with
        alloc := alloc
        buf := store.buf ++ List.replicate (alloc - store.buf.length) fresh }
  else some store

def MergeItemStore.needFor (store : MergeItemStore) (event : MergeEvent) : Nat :=
  store.used + mergeItemChunkSize + event.pre.length + event.data.length

def MergeItemStore.insert (fresh : UInt8) (store : MergeItemStore) (event : MergeEvent) :
    Option MergeItemStore := do
  let need := store.needFor event
  let store ← { store with prevMeventno := event.meventno }.makeSpace fresh need
  return { store with
    buf := writeAt store.buf store.used
      (encodeChunk ⟨event.tstamp, event.pre.length, event.data.length, 0⟩ ++
        event.pre ++ event.data)
    used := need % 2 ^ 32 }

def storeOf (items : ItemsStore) (srcid : Nat) : MergeItemStore := openStore (items.getD srcid none)

def sortFor (window : Nat) (items : ItemsStore) (event : MergeEvent) :
    Option (List MergedEvent × ItemsStore) :=
  if event.meventno ≤ 1 then
    sortBefore window ((event.tstamp + 2 ^ 64 - window) % 2 ^ 64) (pendingBytes items + 1) items
  else some ([], items)

def extMergeInsertChunk (fresh : UInt8) (window : Nat) (items : ItemsStore) (event : MergeEvent) :
    Option (List MergedEvent × ItemsStore) := do
  let sorted ← sortFor window items event
  let items := ensureItemsStore sorted.2 event.srcid
  let store ← (storeOf items event.srcid).insert fresh event
  return (sorted.1, items.set event.srcid (some store))

def extMergeRun (fresh : UInt8) (window : Nat) :
    ItemsStore → List MergeEvent → Option (List MergedEvent)
  | items, [] => extMergeSortAll window items
  | items, event :: events => do
    let r ← extMergeInsertChunk fresh window items event
    let rest ← extMergeRun fresh window r.2 events
    return r.1 ++ rest

def mergeFlags (prevWithin nextWithin : Bool) : Nat :=
  (if prevWithin then extFileMergePrevSrcidWithinWindow else 0) |||
    (if nextWithin then extFileMergeNextSrcidWithinWindow else 0)

def chunkOf (x : Queued MergeEvent) : MergeItemChunk :=
  ⟨x.item.tstamp, x.item.pre.length, x.item.data.length, mergeFlags x.prevWithin false⟩

def encodeItem (x : Queued MergeEvent) : List UInt8 :=
  encodeChunk (chunkOf x) ++ x.item.pre ++ x.item.data

def encodeItems (q : List (Queued MergeEvent)) : List UInt8 := q.flatMap encodeItem

def AllocSize (alloc : Nat) : Prop := alloc = 0 ∨ ∃ k, k ≤ 19 ∧ alloc = 4096 * 2 ^ k

structure StoreRep (store : MergeItemStore) (q : List (Queued MergeEvent)) : Prop where
  items : ∃ tail, store.buf.drop store.offsetFirst = encodeItems q ++ tail
  used_eq : store.used = store.offsetFirst + (encodeItems q).length
  buf_length : store.buf.length = store.alloc
  used_le : store.used ≤ store.alloc
  alloc_size : AllocSize store.alloc

theorem AllocSize.le {alloc : Nat} (h : AllocSize alloc) : alloc ≤ 2 ^ 31 := by
  obtain rfl | ⟨k, hk, rfl⟩ := h
  · omega
  · calc 4096 * 2 ^ k ≤ 4096 * 2 ^ 19 := Nat.mul_le_mul_left _ (Nat.pow_le_pow_right (by omega) hk)
      _ = 2 ^ 31 := by norm_num

theorem encodeChunk_length (c : MergeItemChunk) : (encodeChunk c).length = 20 := by
  simp [encodeChunk]

theorem encodeItem_length (x : Queued MergeEvent) :
    (encodeItem x).length = 20 + x.item.pre.length + x.item.data.length := by
  simp only [encodeItem, List.length_append, encodeChunk_length]

theorem encodeItems_cons (x : Queued MergeEvent) (q : List (Queued MergeEvent)) :
    encodeItems (x :: q) = encodeItem x ++ encodeItems q := by
  simp only [encodeItems, List.flatMap_cons]

theorem encodeItems_append (p q : List (Queued MergeEvent)) :
    encodeItems (p ++ q) = encodeItems p ++ encodeItems q := by
  simp only [encodeItems, List.flatMap_append]

theorem length_le_encodeItems (q : List (Queued MergeEvent)) :
    q.length ≤ (encodeItems q).length := by
  induction q with
  | nil => exact le_refl _
  | cons x q ih =>
    rw [encodeItems_cons, List.length_append, encodeItem_length, List.length_cons]
    omega

theorem decodeChunk_encodeChunk {c : MergeItemChunk} (rest : List UInt8) (ht : c.tstamp < 2 ^ 64)
    (hpre : c.prelen < 2 ^ 32) (hp : c.plen < 2 ^ 32) (hf : c.flags < 2 ^ 32) :
    decodeChunk (encodeChunk c ++ rest) = c := by
  have hdrop : ∀ (a b : List UInt8) (n : Nat), a.length = n → (a ++ b).drop n = b := by
    intro a b n h
    rw [← h, List.drop_left]
  unfold encodeChunk decodeChunk
  have h4 : (le32 (c.tstamp % 2 ^ 32) ++ le32 (c.tstamp / 2 ^ 32) ++ le32 c.prelen ++
      le32 c.plen ++ le32 c.flags ++ rest).drop 4 =
      le32 (c.tstamp / 2 ^ 32) ++ (le32 c.prelen ++ (le32 c.plen ++ (le32 c.flags ++ rest))) := by
    simp only [List.append_assoc]
    exact hdrop _ _ 4 rfl
  have h8 : (le32 (c.tstamp % 2 ^ 32) ++ le32 (c.tstamp / 2 ^ 32) ++ le32 c.prelen ++
      le32 c.plen ++ le32 c.flags ++ rest).drop 8 =
      le32 c.prelen ++ (le32 c.plen ++ (le32 c.flags ++ rest)) := by
    rw [show (8 : Nat) = 4 + 4 from rfl, ← List.drop_drop, h4]
    exact hdrop _ _ 4 rfl
  have h12 : (le32 (c.tstamp % 2 ^ 32) ++ le32 (c.tstamp / 2 ^ 32) ++ le32 c.prelen ++
      le32 c.plen ++ le32 c.flags ++ rest).drop 12 = le32 c.plen ++ (le32 c.flags ++ rest) := by
    rw [show (12 : Nat) = 8 + 4 from rfl, ← List.drop_drop, h8]
    exact hdrop _ _ 4 rfl
  have h16 : (le32 (c.tstamp % 2 ^ 32) ++ le32 (c.tstamp / 2 ^ 32) ++ le32 c.prelen ++
      le32 c.plen ++ le32 c.flags ++ rest).drop 16 = le32 c.flags ++ rest := by
    rw [show (16 : Nat) = 12 + 4 from rfl, ← List.drop_drop, h12]
    exact hdrop _ _ 4 rfl
  rw [h4, h8, h12, h16]
  simp only [List.append_assoc, rd32_le32, Nat.mod_mod]
  rw [Nat.mod_eq_of_lt (show c.tstamp / 2 ^ 32 < 2 ^ 32 by omega), Nat.mod_eq_of_lt hpre,
    Nat.mod_eq_of_lt hp, Nat.mod_eq_of_lt hf, Nat.div_add_mod']

theorem mergeFlags_lt (p n : Bool) : mergeFlags p n < 2 ^ 32 := by
  cases p <;> cases n <;> decide

theorem mergeFlags_or (p n p' n' : Bool) :
    mergeFlags p n ||| mergeFlags p' n' = mergeFlags (p || p') (n || n') := by
  cases p <;> cases n <;> cases p' <;> cases n' <;> rfl

theorem decodeChunk_encodeItem {x : Queued MergeEvent} (rest : List UInt8)
    (h : (encodeItem x).length ≤ 2 ^ 31) : decodeChunk (encodeItem x ++ rest) = chunkOf x := by
  rw [encodeItem_length] at h
  have hx : encodeItem x ++ rest = encodeChunk (chunkOf x) ++ (x.item.pre ++ (x.item.data ++ rest)) := by
    simp only [encodeItem, List.append_assoc]
  rw [hx]
  apply decodeChunk_encodeChunk
  · exact x.item.tstamp_lt
  · simp only [chunkOf]
    omega
  · simp only [chunkOf]
    omega
  · exact mergeFlags_lt _ _

namespace StoreRep

variable {store : MergeItemStore} {q : List (Queued MergeEvent)} {x : Queued MergeEvent}

theorem first_nil (h : StoreRep store []) : store.first = none := by
  unfold MergeItemStore.first
  rw [if_neg]
  rw [h.used_eq]
  exact Nat.lt_irrefl _

theorem item_le (h : StoreRep store (x :: q)) : (encodeItem x).length ≤ 2 ^ 31 := by
  have hu := h.used_eq
  have hl := h.used_le
  have ha := h.alloc_size.le
  rw [encodeItems_cons, List.length_append] at hu
  omega

theorem first_cons (h : StoreRep store (x :: q)) : store.first = some (chunkOf x) := by
  have hu := h.used_eq
  obtain ⟨tail, ht⟩ := h.items
  rw [encodeItems_cons, List.length_append, encodeItem_length] at hu
  unfold MergeItemStore.first
  rw [if_pos (by omega), ht, encodeItems_cons, List.append_assoc,
    decodeChunk_encodeItem _ h.item_le]

theorem advance (h : StoreRep store (x :: q)) :
    StoreRep { store with
      offsetFirst := (store.offsetFirst + mergeItemChunkSize + (chunkOf x).prelen +
        (chunkOf x).plen) % 2 ^ 32 } q := by
  have hu := h.used_eq
  have hl := h.used_le
  have ha := h.alloc_size.le
  have hx := encodeItem_length x
  obtain ⟨tail, ht⟩ := h.items
  rw [encodeItems_cons, List.length_append] at hu
  have hoff : (store.offsetFirst + mergeItemChunkSize + (chunkOf x).prelen + (chunkOf x).plen) %
      2 ^ 32 = store.offsetFirst + (encodeItem x).length := by
    simp only [mergeItemChunkSize, chunkOf]
    rw [Nat.mod_eq_of_lt (by omega)]
    omega
  rw [hoff]
  constructor
  · refine ⟨tail, ?_⟩
    dsimp only
    rw [← List.drop_drop, ht, encodeItems_cons, List.append_assoc, List.drop_left]
  · dsimp only
    omega
  · exact h.buf_length
  · exact h.used_le
  · exact h.alloc_size

end StoreRep

theorem writeAt_length {buf bs : List UInt8} {offset : Nat} (h : offset + bs.length ≤ buf.length) :
    (writeAt buf offset bs).length = buf.length := by
  simp only [writeAt, List.length_append, List.length_take, List.length_drop]
  omega

theorem writeAt_drop {buf bs : List UInt8} {lo offset : Nat} (hlo : lo ≤ offset)
    (h : offset ≤ buf.length) :
    (writeAt buf offset bs).drop lo = writeAt (buf.drop lo) (offset - lo) bs := by
  have hlen : lo ≤ (buf.take offset).length := by
    rw [List.length_take]
    omega
  unfold writeAt
  rw [List.append_assoc, List.drop_append_of_le_length hlen, List.drop_take, List.drop_drop,
    List.append_assoc]
  congr 3
  omega

theorem writeAt_flags (c : MergeItemChunk) (flags : Nat) (rest : List UInt8) :
    writeAt (encodeChunk c ++ rest) 16 (le32 flags) =
      encodeChunk { c with flags := flags } ++ rest := by
  have hpre : (le32 (c.tstamp % 2 ^ 32) ++ le32 (c.tstamp / 2 ^ 32) ++ le32 c.prelen ++
      le32 c.plen).length = 16 := rfl
  have htake : (encodeChunk c ++ rest).take 16 =
      le32 (c.tstamp % 2 ^ 32) ++ le32 (c.tstamp / 2 ^ 32) ++ le32 c.prelen ++ le32 c.plen := by
    rw [encodeChunk, List.append_assoc, ← hpre, List.take_left]
  have hdrop : (encodeChunk c ++ rest).drop (16 + 4) = rest := by
    exact List.drop_left' (encodeChunk_length c)
  unfold writeAt
  rw [htake, le32_length, hdrop]
  rfl

namespace StoreRep

variable {store : MergeItemStore} {q : List (Queued MergeEvent)} {x : Queued MergeEvent}

theorem mark (h : StoreRep store (x :: q)) :
    StoreRep { store with
      buf := writeAt store.buf (store.offsetFirst + 16)
        (le32 ((chunkOf x).flags ||| extFileMergePrevSrcidWithinWindow)) }
      ({ x with prevWithin := true } :: q) := by
  have hu := h.used_eq
  have hl := h.used_le
  have hb := h.buf_length
  have hx := encodeItem_length x
  obtain ⟨tail, ht⟩ := h.items
  rw [encodeItems_cons, List.length_append] at hu
  have hflags : (chunkOf x).flags ||| extFileMergePrevSrcidWithinWindow = mergeFlags true false := by
    simp only [chunkOf]
    cases x.prevWithin <;> rfl
  rw [hflags]
  constructor
  · refine ⟨tail, ?_⟩
    dsimp only
    rw [writeAt_drop (by omega) (by omega), ht, Nat.add_sub_cancel_left, encodeItems_cons,
      encodeItems_cons, encodeItem, encodeItem]
    simp only [List.append_assoc]
    rw [writeAt_flags]
    rfl
  · dsimp only
    rw [encodeItems_cons, List.length_append, encodeItem_length]
    dsimp only
    omega
  · dsimp only
    rw [writeAt_length, hb]
    rw [le32_length]
    omega
  · exact h.used_le
  · exact h.alloc_size

theorem empty : StoreRep ⟨0, 0, 0, 0, []⟩ [] := by
  constructor
  · exact ⟨[], rfl⟩
  · rfl
  · rfl
  · exact le_refl _
  · exact .inl rfl

end StoreRep

end Ucesb
