import Ucesb.DataMap
import Ucesb.Checks

namespace Ucesb

/-- A value of the event that is not suppressed, and the `data_map` at its place. -/
def NonSuppressed : (s : EventShape) → Source s → MapTable s → DataMap → Nat → Prop
  | .base, _, _, _, _ => False
  | .single, value, map, d, v => d = map ∧ v = value
  | .members first rest, (a, b), (f, r), d, v =>
    NonSuppressed first a f d v ∨ NonSuppressed rest b r d v
  | .array .plain _ item, items, map, d, v => ∃ i, NonSuppressed item (items i) (map i) d v
  | .array .zeroSuppress _ item, items, map, d, v =>
    ∃ i a, items i = some a ∧ NonSuppressed item a (map i) d v
  | .array (.multi _) _ item, items, map, d, v =>
    ∃ i, ∃ a ∈ (items i).1, NonSuppressed item a (map i) d v
  | .array .list _ item, l, map, d, v => ∃ a ∈ l.items, NonSuppressed item a.2 (map a.1) d v
  | .array .listII _ item, l, map, d, v => ∃ a ∈ l.1, NonSuppressed item a map d v
  | .multiChunk _, none, _, _, _ => False
  | .multiChunk item, some a, map, d, v => NonSuppressed item a map d v

theorem mem_mapCalls {s : EventShape} {src : Source s} {table : MapTable s} {map : DataMap}
    {v : Nat} : (map, v) ∈ mapCalls s src table ↔ NonSuppressed s src table map v := by
  induction s with
  | base => simp [mapCalls, NonSuppressed]
  | single =>
    rw [mapCalls, List.mem_singleton]
    exact Prod.mk_inj
  | members first rest ih1 ih2 =>
    obtain ⟨a, b⟩ := src
    obtain ⟨f, r⟩ := table
    rw [mapCalls, List.mem_append, ih1, ih2]
    rfl
  | array kind n item ih =>
    cases kind with
    | plain => simp [mapCalls, NonSuppressed, ih]
    | zeroSuppress =>
      simp only [mapCalls, NonSuppressed, List.mem_flatMap, List.mem_finRange, true_and]
      refine exists_congr fun i => ?_
      cases src i with
      | none => simp
      | some a => simp [ih]
    | multi maxEntries => simp [mapCalls, NonSuppressed, ih]
    | list => simp only [mapCalls, NonSuppressed, List.mem_flatMap, ih]
    | listII =>
      simp only [mapCalls, NonSuppressed, List.mem_flatMap]
      exact exists_congr fun a => and_congr_right fun _ => ih
  | multiChunk item ih =>
    cases src with
    | none => simp [mapCalls, NonSuppressed]
    | some a => exact ih

/-- The index that the insert function of a container is called with for a slot. -/
def DestShape.indexOf (d : DestShape) (slot : Nat) : Nat :=
  match d.kind with
  | .multi maxEntries => slot / maxEntries
  | _ => slot

def DestItem.append (x : DestItem) (member : Nat) (item : List CellShape) : DestItem :=
  let l := x.lists member
  let items := Function.update l.items l.numItems (CellShape.cleanAll item (l.items l.numItems))
  { x with lists := Function.update x.lists member ⟨l.numItems + 1, items⟩ }

/-- What an append to a list in the item has to do for a member: the item after it, and the place
in the list. -/
inductive Appended (m : MemberShape) (member : Nat) (x : DestItem) :
    Option (Nat × Nat) → DestItem → Option (Nat × Nat) → Prop
  | cell {c : CellShape} (hm : m = .cell c) : Appended m member x none x none
  | item {n k q : Nat} {item : List CellShape} (hm : m = .listII n item)
    (hlt : (x.lists member).numItems < n) :
    Appended m member x (some (k, q)) (x.append member item) (some ((x.lists member).numItems, q))

def putValue (part : CellPart) (toggleI v : Nat) (x : Cell) : Cell :=
  if toggleI = 0 then x.put part v else x.putToggle toggleI v

section
variable {shapes : List DestShape} (L : DestLayout shapes)

/-- What the mapping of a value to a place has to do: insert its index and append, and store the
value at the slot that these give. -/
def ValueMapped (shapes : List DestShape) (p : DestPath) (toggleI v : Nat) (e e' : RawEvent) : Prop :=
  ∃ d m c slot x inner, shapes[p.container]? = some d ∧ d.item[p.member]? = some m ∧
    Inserted d (e p.container) (d.indexOf p.slot) c slot ∧
    Appended m p.member (c.items slot) p.inner x inner ∧
    e' = RawEvent.modify (Function.update e p.container (c.setItem slot x))
      { p with slot, inner } (putValue p.part toggleI v)

/-- There is no room for another entry or item. -/
inductive NoRoom (shapes : List DestShape) (p : DestPath) (e : RawEvent) : MapError → Prop
  | entries {d : DestShape} {maxEntries num : Nat} (hd : shapes[p.container]? = some d)
    (hk : d.kind = .multi maxEntries)
    (hnum : num = if (e p.container).valid (d.indexOf p.slot) then
      (e p.container).numEntries (d.indexOf p.slot) else 0)
    (hfull : maxEntries ≤ num) : NoRoom shapes p e (.tooManyEntries num maxEntries)
  | items {d : DestShape} {c : Container} {slot n : Nat} {item : List CellShape} {l : ListII}
    (hd : shapes[p.container]? = some d) (hm : d.item[p.member]? = some (.listII n item))
    (hc : Inserted d (e p.container) (d.indexOf p.slot) c slot)
    (hl : l = (c.items slot).lists p.member) (hfull : n ≤ l.numItems) :
    NoRoom shapes p e (.tooManyItems l.numItems n)

/-- The `data_map` is that of a mapping to the place. -/
def DataMap.SetTo (map : DataMap) (p : DestPath) (toggleI : Nat) : Prop :=
  p.Of shapes ∧ DataMap.unset.setDest L p toggleI = .ok (true, map)

/-- The values are mapped one after the other, until there is no room for one. -/
inductive MapsRight : List (DataMap × Nat) → RawEvent → Except MapError RawEvent → Prop
  | done {e : RawEvent} : MapsRight [] e (.ok e)
  | unset {map : DataMap} {v : Nat} {calls : List (DataMap × Nat)} {e : RawEvent}
    {r : Except MapError RawEvent} (h : map.dest = 0) (hr : MapsRight calls e r) :
    MapsRight ((map, v) :: calls) e r
  | stored {map : DataMap} {v : Nat} {calls : List (DataMap × Nat)} {p : DestPath} {toggleI : Nat}
    {e e' : RawEvent} {r : Except MapError RawEvent} (hset : map.SetTo L p toggleI)
    (h : ValueMapped shapes p toggleI v e e') (hr : MapsRight calls e' r) :
    MapsRight ((map, v) :: calls) e r
  | full {map : DataMap} {v : Nat} {calls : List (DataMap × Nat)} {p : DestPath} {toggleI : Nat}
    {e : RawEvent} {err : MapError} (hset : map.SetTo L p toggleI) (h : NoRoom shapes p e err) :
    MapsRight ((map, v) :: calls) e (.error err)

/-- The offset of the place in its container, and in the list that it is in, is zero, and there is
no list in an item of a container that inserts. -/
def InPlace (shapes : List DestShape) (p : DestPath) : Prop :=
  match (shapes[p.container]?).map DestShape.kind, p.inner with
  | some .plain, none => True
  | some .plain, some (k, _) => k = 0
  | some .zeroSuppress, none => True
  | some (.multi maxEntries), none => p.slot % maxEntries = 0
  | some .list, none => p.slot = 0
  | _, _ => False

end

section
variable {shapes : List DestShape} {L : DestLayout shapes} {d : DestShape} {m : MemberShape}
  {k : CellShape} {p : DestPath} {map : DataMap} {toggleI : Nat} {e : RawEvent}

theorem setDest_ok (h : DataMap.unset.setDest L p toggleI = .ok (true, map)) :
    ∃ info, zeroSuppressInfo L p = .ok info ∧ map = ⟨L.addr p, info, toggleI⟩ ∧
      (toggleI ≠ 0 → info.toggleMax ≠ 0) := by
  rw [DataMap.setDest, if_neg (by simp [DataMap.unset])] at h
  cases hinfo : zeroSuppressInfo L p with
  | error r => simp [hinfo] at h
  | ok info =>
    simp only [hinfo] at h
    refine ⟨info, rfl, ?_⟩
    by_cases hnot : info.toggleMax = 0 ∧ toggleI ≠ 0
    · simp [hnot] at h
    · rw [if_neg hnot] at h
      by_cases htoggle : info.toggleMax ≠ 0 ∧ toggleI ≠ 0
      · rw [if_pos htoggle] at h
        split at h
        next => cases h
        next =>
          simp only [Except.ok.injEq, Prod.mk.injEq, true_and] at h
          refine ⟨h.symm, fun _ => htoggle.1⟩
      · rw [if_neg htoggle] at h
        simp only [Except.ok.injEq, Prod.mk.injEq, true_and] at h
        have h0 : toggleI = 0 := by omega
        refine ⟨?_, fun hne => absurd h0 hne⟩
        rw [← h, h0]
        split <;> rfl

theorem zeroSuppressInfo_ok {info : ZeroSuppressInfo} (hp : p.At shapes d m k)
    (h : zeroSuppressInfo L p = .ok info) :
    ∃ base below, containerInfo L d p.container p.slot = .ok base ∧
      memberInfo L p m base = .ok below ∧ info.type = below.type ∧ info.insert = below.insert ∧
      info.listII = below.listII ∧
      (info.toggleMax ≠ 0 → p.part = .item ∨ below.toggleMax ≠ 0) := by
  simp only [zeroSuppressInfo, hp.shape, hp.member] at h
  obtain ⟨base, hbase, h⟩ := bind_eq_ok.mp h
  obtain ⟨below, hbelow, h⟩ := bind_eq_ok.mp h
  simp only [hp.cell] at h
  refine ⟨base, below, hbase, hbelow, ?_⟩
  split at h
  next htoggle =>
    cases h
    simp only [Bool.and_eq_true, beq_iff_eq] at htoggle
    exact ⟨rfl, rfl, rfl, fun _ => .inl htoggle.2⟩
  next =>
    cases h
    exact ⟨rfl, rfl, rfl, .inr⟩

theorem setItem_self (c : Container) (slot : Nat) : c.setItem slot (c.items slot) = c := by
  rw [Container.setItem, Function.update_eq_self]

theorem memberCell_none (h : memberCell m none = some k) : m = .cell k := by
  cases m with
  | cell c => exact congrArg MemberShape.cell (Option.some.inj h)
  | listII n item => cases h

theorem memberCell_some {a q : Nat} (h : memberCell m (some (a, q)) = some k) :
    ∃ n item, m = .listII n item ∧ a < n ∧ item[q]? = some k := by
  cases m with
  | cell c => cases h
  | listII n item =>
    by_cases ha : a < n
    · exact ⟨n, item, rfl, ha, by simpa [memberCell, ha] using h⟩
    · simp [memberCell, ha] at h

theorem addr_slot (hinner : p.inner = none) (slot : Nat) :
    L.addr p + (L.slotAddr p.container slot - L.slotAddr p.container p.slot) =
      L.addr { p with slot } := by
  simp only [DestOffsets.addr, hinner]
  ring

theorem addr_inner {a q : Nat} (hinner : p.inner = some (a, q)) (place : Nat) :
    L.addr p + (L.innerAddr p.container p.slot p.member place -
        L.innerAddr p.container p.slot p.member a) =
      L.addr { p with inner := some (place, q) } := by
  simp only [DestOffsets.addr, hinner]
  ring

/-- What is known after the insert functions have been called for a place. -/
def InsertsDone (L : DestLayout shapes) (p : DestPath) (d : DestShape) (m : MemberShape)
    (e : RawEvent) (r : RawEvent × BitVec 64) : Prop :=
  ∃ c slot x inner, Inserted d (e p.container) (d.indexOf p.slot) c slot ∧
    Appended m p.member (c.items slot) p.inner x inner ∧
    r = (Function.update e p.container (c.setItem slot x), L.addr { p with slot, inner })

theorem containerInfo_plain {container slot : Nat} (hk : d.kind = .plain) :
    containerInfo L d container slot = .ok .init := by
  simp only [containerInfo, hk]

theorem containerInfo_zeroSuppress {container slot : Nat} (hk : d.kind = .zeroSuppress)
    (hs : slot < d.n) : containerInfo L d container slot =
      .ok ⟨.callArrayIndex, 0, some (.array container slot), none⟩ := by
  simp only [containerInfo, hk, if_neg (Nat.not_le.mpr hs)]
  rfl

theorem containerInfo_multi {container slot maxEntries : Nat} (hk : d.kind = .multi maxEntries)
    (hs : slot / maxEntries < d.n) : containerInfo L d container slot =
      .ok ⟨.callArrayMultiIndex, 0, some (.multi container (slot / maxEntries)), none⟩ := by
  simp only [containerInfo, hk, if_neg (Nat.not_le.mpr hs)]
  rfl

theorem containerInfo_list {container slot : Nat} (hk : d.kind = .list) (hs : slot < d.n) :
    containerInfo L d container slot = .ok ⟨.callListIndex, 0, some (.list container slot
      (L.slotAddr container slot - L.slotAddr container 0)), none⟩ := by
  simp only [containerInfo, hk, if_neg (Nat.not_le.mpr hs)]
  rfl

theorem memberInfo_cell {info : ZeroSuppressInfo} (hinner : p.inner = none) :
    memberInfo L p m info = .ok info := by
  cases m <;> simp only [memberInfo, hinner]

def listCall (L : DestLayout shapes) (p : DestPath) (a : Nat) : ListIICall :=
  ⟨p.container, p.slot, p.member, a,
    L.innerAddr p.container p.slot p.member a - L.innerAddr p.container p.slot p.member 0⟩

theorem memberInfo_list {info : ZeroSuppressInfo} {a q n : Nat} {item : List CellShape}
    (hinner : p.inner = some (a, q)) (hm : m = .listII n item) (ha : a < n) :
    memberInfo L p m info =
      ZeroSuppressInfo.setZzpListII ⟨info.type, info.toggleMax, none, none⟩
        (some (listCall L p a)) := by
  simp only [memberInfo, hinner, hm, if_neg (Nat.not_le.mpr ha)]
  rfl

theorem callListII_done {a q n : Nat} {item : List CellShape} (hd : shapes[p.container]? = some d)
    (hmember : d.item[p.member]? = some m) (hk : d.kind = .plain) (hinner : p.inner = some (0, q))
    (hm : m = .listII n item) :
    Ends (NoRoom shapes p e) (fun r => InsertsDone L p d m e (r.1, L.addr p + r.2))
      (callListII L (some (listCall L p a)) e) := by
  have hindex : d.indexOf p.slot = p.slot := by simp only [DestShape.indexOf, hk]
  have hc : Inserted d (e p.container) (d.indexOf p.slot) (e p.container) p.slot := by
    rw [hindex]
    exact .plain hk
  have hshape : listShape shapes p.container p.member = some (n, item) := by
    simp only [listShape, hd, hmember, hm]
  simp only [callListII, listCall, hshape]
  by_cases hfull : n ≤ (((e p.container).items p.slot).lists p.member).numItems
  · rw [appendItem, if_pos hfull]
    exact .items hd (hm ▸ hmember) hc rfl hfull
  · rw [appendItem, if_neg hfull]
    refine ⟨e p.container, p.slot, _, _, hc, ?_, congrArg (Prod.mk _) (addr_inner hinner _)⟩
    rw [hinner]
    exact .item hm (by omega)

def insertSlot (d : DestShape) (c : Container) (i : Nat) : Except MapError (Container × Nat) :=
  match d.kind with
  | .plain => .ok (c, i)
  | .zeroSuppress => .ok (onInsertArray d c i, i)
  | .multi maxEntries => onInsertMulti d maxEntries c i
  | .list => doInsertList d c i

theorem callInserts_cell {info : ZeroSuppressInfo} (hp : p.At shapes d m k)
    (hin : InPlace shapes p) (hinner : p.inner = none) (hinfo : zeroSuppressInfo L p = .ok info) :
    callInserts L info (L.addr p) e =
        (insertSlot d (e p.container) (d.indexOf p.slot)).map (fun r =>
          (Function.update e p.container r.1, L.addr { p with slot := r.2 })) ∧
      (info.toggleMax ≠ 0 → p.part = .item) := by
  obtain ⟨base, below, hbase, hbelow, htype, hinsert, -, htoggle⟩ := zeroSuppressInfo_ok hp hinfo
  rw [memberInfo_cell hinner, Except.ok.injEq] at hbelow
  subst hbelow
  have hslot := hp.slot
  simp only [InPlace, hp.shape, Option.map_some, hinner] at hin
  simp only [DestShape.slots] at hslot
  unfold callInserts insertSlot DestShape.indexOf
  cases hkind : d.kind with
  | plain =>
    rw [containerInfo_plain hkind, Except.ok.injEq] at hbase
    subst hbase
    rw [htype]
    refine ⟨?_, fun h => (htoggle h).resolve_right (· rfl)⟩
    simp only [Except.map, Function.update_eq_self]
    rfl
  | zeroSuppress =>
    rw [hkind] at hslot
    rw [containerInfo_zeroSuppress hkind hslot, Except.ok.injEq] at hbase
    subst hbase
    rw [htype, hinsert]
    refine ⟨?_, fun h => (htoggle h).resolve_right (· rfl)⟩
    simp only [callArray, hp.shape]
    rfl
  | multi maxEntries =>
    rw [hkind] at hslot hin
    have hi : p.slot / maxEntries < d.n := Nat.div_lt_of_lt_mul (Nat.mul_comm .. ▸ hslot)
    rw [containerInfo_multi hkind hi, Except.ok.injEq] at hbase
    subst hbase
    have hfirst : p.slot / maxEntries * maxEntries = p.slot := Nat.div_mul_cancel
      (Nat.dvd_of_mod_eq_zero hin)
    rw [htype, hinsert]
    refine ⟨?_, fun h => (htoggle h).resolve_right (· rfl)⟩
    simp only [callMulti, hp.shape, hkind]
    cases onInsertMulti d maxEntries (e p.container) (p.slot / maxEntries) with
    | error r => rfl
    | ok r =>
      have haddr := addr_slot (L := L) hinner r.2
      rw [← hfirst, hfirst] at haddr
      rw [hfirst]
      exact congrArg (fun a => Except.ok (Function.update e p.container r.1, a)) haddr
  | list =>
    rw [hkind] at hslot hin
    rw [containerInfo_list hkind hslot, Except.ok.injEq] at hbase
    subst hbase
    rw [htype, hinsert]
    refine ⟨?_, fun h => (htoggle h).resolve_right (· rfl)⟩
    simp only [callList, hp.shape]
    cases doInsertList d (e p.container) p.slot with
    | error r => rfl
    | ok r =>
      have haddr := addr_slot (L := L) hinner r.2
      rw [hin] at haddr
      exact congrArg (fun a => Except.ok (Function.update e p.container r.1, a)) haddr

theorem insertSlot_ends (hd : shapes[p.container]? = some d) (hslot : p.slot < d.slots)
    (he : e.Sorted shapes) :
    Ends (NoRoom shapes p e)
      (fun r => Inserted d (e p.container) (d.indexOf p.slot) r.1 r.2)
      (insertSlot d (e p.container) (d.indexOf p.slot)) := by
  unfold insertSlot
  cases hkind : d.kind with
  | plain => exact Inserted.plain hkind
  | zeroSuppress => exact onInsertArray_inserted hkind
  | multi maxEntries =>
    dsimp only
    cases hmulti : onInsertMulti d maxEntries (e p.container) (d.indexOf p.slot) with
    | ok r => exact onInsertMulti_inserted hkind hmulti
    | error r =>
      rw [onInsertMulti] at hmulti
      by_cases hfull : maxEntries ≤ if (e p.container).valid (d.indexOf p.slot) then
          (e p.container).numEntries (d.indexOf p.slot) else 0
      · simp only [if_pos hfull, Except.error.injEq] at hmulti
        rw [← hmulti]
        exact .entries hd hkind rfl hfull
      · simp [hfull] at hmulti
  | list =>
    have hi : d.indexOf p.slot < d.n := by
      simpa only [DestShape.slots, DestShape.indexOf, hkind] using hslot
    obtain ⟨c, slot, hok, hc⟩ := doInsertList_spec (he _ d hd hkind) hi
    simp only [hok]
    exact .listed hkind hc

theorem callInserts_list {info : ZeroSuppressInfo} {a q : Nat} (hp : p.At shapes d m k)
    (hin : InPlace shapes p) (hinner : p.inner = some (a, q))
    (hinfo : zeroSuppressInfo L p = .ok info) :
    Ends (NoRoom shapes p e) (InsertsDone L p d m e) (callInserts L info (L.addr p) e) ∧
      (info.toggleMax ≠ 0 → p.part = .item) := by
  obtain ⟨base, below, hbase, hbelow, htype, -, hlist, htoggle⟩ := zeroSuppressInfo_ok hp hinfo
  obtain ⟨n, item, hm, ha, -⟩ := memberCell_some (hinner ▸ hp.cell)
  simp only [InPlace, hp.shape, Option.map_some, hinner] at hin
  cases hkind : d.kind with
  | plain =>
    simp only [hkind] at hin
    subst hin
    rw [containerInfo_plain hkind, Except.ok.injEq] at hbase
    subst hbase
    rw [memberInfo_list hinner hm ha] at hbelow
    cases hbelow
    unfold callInserts
    rw [htype, hlist]
    refine ⟨?_, fun h => (htoggle h).resolve_right (· rfl)⟩
    exact ends_bind (callListII_done hp.shape hp.member hkind hinner hm) fun r hr => hr
  | _ => simp [hkind] at hin

theorem callInserts_inPlace {info : ZeroSuppressInfo} (hp : p.At shapes d m k)
    (hin : InPlace shapes p) (he : e.Sorted shapes) (hinfo : zeroSuppressInfo L p = .ok info) :
    Ends (NoRoom shapes p e) (InsertsDone L p d m e) (callInserts L info (L.addr p) e) ∧
      (info.toggleMax ≠ 0 → p.part = .item) := by
  cases hinner : p.inner with
  | some place => exact callInserts_list hp hin hinner hinfo
  | none =>
    obtain ⟨heq, hpart⟩ := callInserts_cell (e := e) hp hin hinner hinfo
    refine ⟨?_, hpart⟩
    have hends := insertSlot_ends hp.shape hp.slot he
    rw [heq]
    cases hslot : insertSlot d (e p.container) (d.indexOf p.slot) with
    | error r =>
      rw [hslot] at hends
      exact hends
    | ok r =>
      rw [hslot] at hends
      refine ⟨r.1, r.2, r.1.items r.2, none, hends, ?_, ?_⟩
      · rw [hinner]
        exact .cell (memberCell_none (hinner ▸ hp.cell))
      · rw [setItem_self, ← hinner]

theorem Inserted.slot_lt {c c' : Container} {slot place : Nat} (hslot : slot < d.slots)
    (h : Inserted d c (d.indexOf slot) c' place) : place < d.slots := by
  cases h with
  | plain hk | known hk | new hk => simpa only [DestShape.indexOf, hk] using hslot
  | @entry maxEntries num hk hnum hlt =>
    simp only [DestShape.slots, hk, DestShape.indexOf] at hslot ⊢
    have hi : slot / maxEntries < d.n := Nat.div_lt_of_lt_mul (Nat.mul_comm .. ▸ hslot)
    calc
      slot / maxEntries * maxEntries + num < slot / maxEntries * maxEntries + maxEntries := by omega
      _ = (slot / maxEntries + 1) * maxEntries := (Nat.succ_mul ..).symm
      _ ≤ d.n * maxEntries := Nat.mul_le_mul_right _ hi
  | listed hk h =>
    have hi := h.index_eq
    simp only [DestShape.slots, hk, DestShape.indexOf] at hslot hi ⊢
    have := h.sorted.le_index h.slot_lt
    omega

theorem Appended.cell_eq {x x' : DestItem} {member : Nat} {inner inner' : Option (Nat × Nat)}
    (hcell : memberCell m inner = some k) (h : Appended m member x inner x' inner') :
    memberCell m inner' = some k := by
  cases h with
  | cell hm => exact hcell
  | item hm hlt =>
    obtain ⟨n, item, hm', -, hq⟩ := memberCell_some hcell
    cases hm.symm.trans hm'
    simp [hm, memberCell, hlt, hq]

theorem modify_self (e : RawEvent) (p : DestPath) (f : Cell → Cell) :
    e.modify p f p.container = (e p.container).setItem p.slot
      (((e p.container).items p.slot).modify p.member p.inner f) :=
  Function.update_self ..

theorem modify_other (e : RawEvent) (p : DestPath) (f : Cell → Cell) {j : Nat}
    (hj : j ≠ p.container) : e.modify p f j = e j :=
  Function.update_of_ne hj ..

theorem ValueMapped.sorted {v : Nat} {e' : RawEvent} (he : e.Sorted shapes)
    (h : ValueMapped shapes p toggleI v e e') : e'.Sorted shapes := by
  obtain ⟨d, m, c, slot, x, inner, hd, -, hc, -, rfl⟩ := h
  intro j d' hj hkind
  by_cases hjp : j = p.container
  · subst hjp
    cases hd.symm.trans hj
    have hs : SortedList d c := by
      cases hc with
      | plain hk | known hk | new hk | entry hk => exact absurd (hk.symm.trans hkind) nofun
      | listed _ h => exact h.sorted
    have hself := modify_self (Function.update e p.container (c.setItem slot x))
      { p with slot, inner } (putValue p.part toggleI v)
    rw [Function.update_self] at hself
    rw [hself]
    exact ⟨hs.sorted, hs.index_lt⟩
  · rw [modify_other _ { p with slot, inner } _ hjp, Function.update_of_ne hjp]
    exact he j d' hj hkind

theorem mapMembers_right {v : Nat} (hset : map.SetTo L p toggleI) (hin : InPlace shapes p)
    (he : e.Sorted shapes) :
    Ends (NoRoom shapes p e) (ValueMapped shapes p toggleI v e) (map.mapMembers L v e) := by
  obtain ⟨⟨d, m, k, hp⟩, hdest⟩ := hset
  obtain ⟨info, hinfo, rfl, htoggle⟩ := setDest_ok hdest
  obtain ⟨hcalls, hpart⟩ := callInserts_inPlace hp hin he hinfo
  rw [DataMap.mapMembers, if_pos (L.addr_ne p ⟨d, m, k, hp⟩)]
  refine ends_bind hcalls ?_
  rintro _ ⟨c, slot, x, inner, hc, happ, rfl⟩
  have hat : DestPath.At shapes { p with slot, inner } d m k :=
    ⟨hp.shape, hc.slot_lt hp.slot, hp.member, happ.cell_eq hp.cell, hp.part⟩
  have hlocate := (L.locate_iff _ _).mpr ⟨⟨d, m, k, hat⟩, rfl⟩
  simp only [storeAt, hlocate]
  by_cases h0 : toggleI = 0
  · rw [if_pos h0]
    refine ⟨d, m, c, slot, x, inner, hp.shape, hp.member, hc, happ, ?_⟩
    exact congrArg (RawEvent.modify _ _) (funext fun y => (if_pos h0).symm)
  · rw [if_neg h0, if_pos (hpart (htoggle h0))]
    refine ⟨d, m, c, slot, x, inner, hp.shape, hp.member, hc, happ, ?_⟩
    exact congrArg (RawEvent.modify _ _) (funext fun y => (if_neg h0).symm)

theorem mapCalled_right {calls : List (DataMap × Nat)}
    (hcalls : ∀ call ∈ calls, call.1.dest = 0 ∨
      ∃ p toggleI, call.1.SetTo L p toggleI ∧ InPlace shapes p)
    (he : e.Sorted shapes) : MapsRight L calls e (mapCalled L calls e) := by
  induction calls generalizing e with
  | nil => exact .done
  | cons call calls ih =>
    obtain ⟨map, v⟩ := call
    have hrest := fun call h => hcalls call (List.mem_cons_of_mem _ h)
    rcases hcalls _ List.mem_cons_self with hunset | ⟨p, toggleI, hset, hin⟩
    · have hstep : map.mapMembers L v e = .ok e := if_neg (not_not.mpr hunset)
      rw [mapCalled, List.foldlM_cons, hstep]
      exact .unset hunset (ih hrest he)
    · have hstep := mapMembers_right (v := v) hset hin he
      rw [mapCalled, List.foldlM_cons]
      cases hmap : map.mapMembers L v e with
      | error r =>
        rw [hmap] at hstep
        exact .full hset hstep
      | ok e' =>
        rw [hmap] at hstep
        exact .stored hset hstep (ih hrest (ValueMapped.sorted he hstep))

theorem putToggle_comm (x : Cell) (a b : Nat) :
    (x.putToggle 1 a).putToggle 2 b = (x.putToggle 2 b).putToggle 1 a := by
  have hcomm : Function.update (Function.update x.toggleV 0 a) 1 b =
      Function.update (Function.update x.toggleV 1 b) 0 a :=
    Function.update_comm (by decide) a b x.toggleV
  unfold Cell.putToggle
  rcases Nat.lt_trichotomy x.toggleI 1 with h | h | h
  · have h0 : x.toggleI = 0 := by omega
    simp [h0, hcomm]
  · simp [h, hcomm]
  · by_cases h2 : 2 < x.toggleI
    · simp [h, h2, hcomm]
    · have h2 : x.toggleI = 2 := by omega
      simp [h2, hcomm]

theorem putToggle_main {x : Cell} (a b : Nat) (h : x.toggleI = 0) :
    let y := (x.putToggle 1 a).putToggle 2 b
    y.item = a ∧ y.toggleI = 1 ∧ y.toggleV 0 = a ∧ y.toggleV 1 = b := by
  simp [Cell.putToggle, h]

theorem item_modify_modify (x : DestItem) (member : Nat) (inner : Option (Nat × Nat))
    (f g : Cell → Cell) :
    (x.modify member inner f).modify member inner g = x.modify member inner (g ∘ f) := by
  cases inner with
  | none => simp [DestItem.modify]
  | some place => simp [DestItem.modify]

theorem modify_modify (e : RawEvent) (p : DestPath) (f g : Cell → Cell) :
    (e.modify p f).modify p g = e.modify p (g ∘ f) := by
  unfold RawEvent.modify
  simp [Container.setItem, item_modify_modify]

theorem doInsertList_known {c : Container} {i slot : Nat} (hs : SortedList d c)
    (hlt : slot < c.numItems) (hi : c.index slot = i) : doInsertList d c i = .ok (c, slot) := by
  have hlast : i ≤ c.index (c.numItems - 1) := by
    rcases Nat.eq_or_lt_of_le (Nat.le_sub_one_of_lt hlt) with heq | hlast
    · rw [← heq, hi]
    · have := hs.sorted slot _ hlast (by omega)
      omega
  rw [doInsertList, if_neg (by omega)]
  split
  next heq => rw [hs.unique (by omega) hlt (heq.trans hi.symm)]
  next =>
    rcases searchIndex_spec hs (i := i) (Nat.zero_le c.numItems) le_rfl (by omega) (by omega) with
      ⟨k, hkn, hki, heq⟩ | ⟨last, hle, -, hbelow, habove⟩
    · rw [heq, hs.unique hkn hlt (hki.trans hi.symm)]
    · rcases Nat.lt_or_ge slot last with h | h
      · exact absurd (hbelow slot h) (by omega)
      · exact absurd (habove slot h hlt) (by omega)

theorem insertSlot_again {c c' : Container} {slot place : Nat} (hk : ∀ n, d.kind ≠ .multi n)
    (hc : Inserted d c (d.indexOf slot) c' place) (x : DestItem) :
    insertSlot d (c'.setItem place x) (d.indexOf slot) = .ok (c'.setItem place x, place) := by
  unfold insertSlot
  cases hc with
  | plain hkind => simp only [hkind]
  | known hkind hv =>
    simp only [hkind, onInsertArray, Container.setItem, hv, if_true]
  | new hkind hv =>
    simp only [hkind, onInsertArray, Container.setItem, Function.update_self, if_true]
  | entry hkind => exact absurd hkind (hk _)
  | listed hkind h =>
    simp only [hkind]
    exact doInsertList_known ⟨h.sorted.sorted, h.sorted.index_lt⟩ h.slot_lt h.index_eq

theorem mapMembers_slot {v : Nat} {c : Container} {slot : Nat} (hset : map.SetTo L p toggleI)
    (hin : InPlace shapes p) (hinner : p.inner = none) (hd : shapes[p.container]? = some d)
    (hslot : insertSlot d (e p.container) (d.indexOf p.slot) = .ok (c, slot))
    (hlt : slot < d.slots) :
    map.mapMembers L v e = .ok (RawEvent.modify (Function.update e p.container c) { p with slot }
      (putValue p.part toggleI v)) := by
  obtain ⟨⟨d', m, k, hp⟩, hdest⟩ := hset
  cases hd.symm.trans hp.shape
  obtain ⟨info, hinfo, rfl, htoggle⟩ := setDest_ok hdest
  obtain ⟨heq, hpart⟩ := callInserts_cell (e := e) hp hin hinner hinfo
  have hat : DestPath.At shapes { p with slot } d m k :=
    ⟨hp.shape, hlt, hp.member, hp.cell, hp.part⟩
  have hlocate := (L.locate_iff _ _).mpr ⟨⟨d, m, k, hat⟩, rfl⟩
  rw [DataMap.mapMembers, if_pos (L.addr_ne p ⟨d, m, k, hp⟩), heq, hslot]
  simp only [Except.map, bind, Except.bind, storeAt, hlocate]
  by_cases h0 : toggleI = 0
  · rw [if_pos h0]
    exact congrArg (fun f => Except.ok (RawEvent.modify _ _ f)) (funext fun y => (if_pos h0).symm)
  · rw [if_neg h0, if_pos (hpart (htoggle h0))]
    exact congrArg (fun f => Except.ok (RawEvent.modify _ _ f)) (funext fun y => (if_neg h0).symm)

theorem mapCalled_toggles {map1 map2 : DataMap} {a b : Nat} (hset1 : map1.SetTo L p 1)
    (hset2 : map2.SetTo L p 2) (hin : InPlace shapes p) (hinner : p.inner = none)
    (hd : shapes[p.container]? = some d) (hk : ∀ n, d.kind ≠ .multi n) (he : e.Sorted shapes) :
    ∃ c slot, Inserted d (e p.container) (d.indexOf p.slot) c slot ∧
      let e' := RawEvent.modify (Function.update e p.container c) { p with slot }
        fun x => (x.putToggle 1 a).putToggle 2 b
      mapCalled L [(map1, a), (map2, b)] e = .ok e' ∧
        mapCalled L [(map2, b), (map1, a)] e = .ok e' := by
  have hp := hset1.1
  obtain ⟨d', m, k, hp⟩ := hp
  cases hd.symm.trans hp.shape
  have hends := insertSlot_ends hp.shape hp.slot he
  cases hslot : insertSlot d (e p.container) (d.indexOf p.slot) with
  | error r =>
    rw [hslot] at hends
    cases hends with
    | entries hd' hkind => 
      cases hd.symm.trans hd'
      exact absurd hkind (hk _)
    | items hd' hm => 
      cases hd.symm.trans hd'
      have hcell := memberCell_none (hinner ▸ hp.cell)
      exact absurd (Option.some.inj (hm.symm.trans hp.member)) (by rw [hcell]; exact nofun)
  | ok r =>
    rw [hslot] at hends
    obtain ⟨c, slot⟩ := r
    have hlt := hends.slot_lt hp.slot
    refine ⟨c, slot, hends, ?_⟩
    have hsecond : ∀ {map1 map2 : DataMap} {t1 t2 v1 v2 : Nat}, map1.SetTo L p t1 →
        map2.SetTo L p t2 → mapCalled L [(map1, v1), (map2, v2)] e =
          .ok (RawEvent.modify (Function.update e p.container c) { p with slot }
            (putValue p.part t2 v2 ∘ putValue p.part t1 v1)) := by
      intro map1 map2 t1 t2 v1 v2 h1 h2
      have hagain : insertSlot d (RawEvent.modify (Function.update e p.container c) { p with slot }
          (putValue p.part t1 v1) p.container) (d.indexOf p.slot) =
          .ok (RawEvent.modify (Function.update e p.container c) { p with slot }
            (putValue p.part t1 v1) p.container, slot) := by
        rw [modify_self _ { p with slot }, Function.update_self]
        exact insertSlot_again hk hends _
      simp only [mapCalled, List.foldlM_cons, List.foldlM_nil,
        mapMembers_slot h1 hin hinner hd hslot hlt, bind, Except.bind]
      rw [mapMembers_slot h2 hin hinner hd hagain hlt, Function.update_eq_self, modify_modify]
      rfl
    refine ⟨hsecond hset1 hset2, (hsecond hset2 hset1).trans ?_⟩
    exact congrArg (fun f => Except.ok (RawEvent.modify _ _ f))
      (funext fun x => (putToggle_comm x a b).symm)

end

end Ucesb
