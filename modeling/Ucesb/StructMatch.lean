import Mathlib.Data.List.Nodup
import Mathlib.Logic.Function.Basic
import Ucesb.ClientFetch
import Ucesb.StructItems

namespace Ucesb

def extDataItemFlagsOptional : UInt32 := 0x01
def extDataItemTypeMask : UInt32 := 0x07

def mapMatch : UInt32 := 0x0001
def mapNoDest : UInt32 := 0x0002
def mapNotFound : UInt32 := 0x0004
def mapTypeMismatch : UInt32 := 0x0008
def mapCtrlMismatch : UInt32 := 0x0010
def mapArrayFewer : UInt32 := 0x0020
def mapArrayMore : UInt32 := 0x0040
def mapOptNotFound : UInt32 := 0x0100

/-- The temporaries of the items, by the pointers to them.  `_child_item` is both the first child
of a controlling item and the next child after one. -/
structure Matching where
  toSuccess : Nat → UInt32
  fromSuccess : Nat → UInt32
  matchItem : Nat → Option StructureItem
  childItem : Nat → Option StructureItem
  allToSameFrom : Bool
  mapSuccess : UInt32

/-- The children that one comes to, no more of them than there are items. -/
def childChain (childItem : Nat → Option StructureItem) : Nat → Nat → List StructureItem
  | 0, _ => []
  | fuel + 1, p =>
    match childItem p with
    | none => []
    | some child => child :: childChain childItem fuel child.pointer

/-- Where `_child_item` is still `NULL`. -/
def childChainEnd (childItem : Nat → Option StructureItem) (fuel p : Nat) : Nat :=
  ((childChain childItem fuel p).getLast?.map StructureItem.pointer).getD p

def lengthSuccess (item found : StructureItem) : UInt32 × UInt32 :=
  if item.length = found.length then (mapMatch, mapMatch)
  else if item.length < found.length then (mapArrayFewer, mapArrayMore)
  else (mapArrayMore, mapArrayFewer)

namespace Matching

def start : Matching := ⟨fun _ => 0, fun _ => 0, fun _ => none, fun _ => none, true, 0⟩

def noMatch (s : Matching) (item : StructureItem) (found : Option StructureItem)
    (success : UInt32) : Matching :=
  { s with
    toSuccess := Function.update s.toSuccess item.pointer success
    fromSuccess :=
      match found with
      | none => s.fromSuccess
      | some found => Function.update s.fromSuccess found.pointer success
    allToSameFrom := false }

def addChild (s : Matching) (fuel : Nat) (item : StructureItem) : Matching :=
  match item.ctrlItem with
  | none => s
  | some p =>
    { s with childItem :=
        Function.update s.childItem (childChainEnd s.childItem fuel p) (some item) }

def goodMatch (s : Matching) (fuel : Nat) (item found : StructureItem) : Matching :=
  addChild { s with
    matchItem := Function.update s.matchItem item.pointer (some found)
    toSuccess := Function.update s.toSuccess item.pointer (lengthSuccess item found).1
    fromSuccess := Function.update s.fromSuccess found.pointer (lengthSuccess item found).2
    allToSameFrom := s.allToSameFrom &&
      (item.offset = found.offset && item.length = found.length) } fuel item

/-- One item of the client: by its name, its type and its controlling item. -/
def matchOne (server : List StructureItem) (fuel : Nat) (s : Matching) (item : StructureItem) :
    Matching :=
  let s :=
    match server.find? fun found => item.varName = found.varName with
    | none =>
      s.noMatch item none
        (if item.flags &&& extDataItemFlagsOptional ≠ 0 then mapOptNotFound else mapNotFound)
    | some found =>
      if item.varType &&& extDataItemTypeMask ≠ found.varType &&& extDataItemTypeMask then
        s.noMatch item (some found) mapTypeMismatch
      else if item.varCtrlName ≠ found.varCtrlName then
        s.noMatch item (some found) mapCtrlMismatch
      else s.goodMatch fuel item found
  { s with mapSuccess := s.mapSuccess ||| s.toSuccess item.pointer }

def markNoDest (s : Matching) (found : StructureItem) : Matching :=
  if s.fromSuccess found.pointer = 0 then
    { s with
      fromSuccess := Function.update s.fromSuccess found.pointer mapNoDest
      mapSuccess := s.mapSuccess ||| mapNoDest }
  else s

def matchItems (server client : List StructureItem) : Matching :=
  server.foldl markNoDest (client.foldl (matchOne server client.length) start)

def children (s : Matching) (fuel : Nat) (item : StructureItem) : List StructureItem :=
  childChain s.childItem fuel item.pointer

/-- An item counts as many entries as it has words in the list, half of them. -/
def itemCount (s : Matching) (fuel : Nat) (item : StructureItem) : Nat :=
  if item.ctrlItem.isSome then 0
  else
    match s.matchItem item.pointer with
    | none => 0
    | some _ =>
      match s.children fuel item with
      | [] => 1
      | children => 1 + children.length + 1

def childWords (s : Matching) (child : StructureItem) : List Nat :=
  match s.matchItem child.pointer with
  | none => []
  | some found => [found.offset.toNat, child.offset.toNat]

def maxLoops (item found : StructureItem) : Nat := min found.limitMax.toNat item.limitMax.toNat

def itemWords (s : Matching) (fuel : Nat) (item : StructureItem) : List Nat :=
  if item.ctrlItem.isSome then []
  else
    match s.matchItem item.pointer with
    | none => []
    | some found =>
      match s.children fuel item with
      | [] => [found.offset.toNat, item.offset.toNat]
      | children =>
        [found.offset.toNat ||| mapListMarkLoop, item.offset.toNat, maxLoops item found,
          children.length] ++ children.flatMap s.childWords

end Matching

/-- `ext_data_struct_match_items`: what it says of the items, and the map list. -/
def extDataStructMatchItems (memory : Bool) (server client : List StructureItem) :
    Except String (Matching × List Nat) :=
  let s := Matching.matchItems server client
  if memory then .ok (s, client.flatMap (s.itemWords client.length))
  else .error "Memory allocation failure (map list)."

/-- The item of the server: of the same name, the same type and with a controlling item of the same
name. -/
def matchOf (server : List StructureItem) (item : StructureItem) : Option StructureItem :=
  (server.find? fun found => item.varName = found.varName).filter fun found =>
    item.varType &&& extDataItemTypeMask = found.varType &&& extDataItemTypeMask &&
      item.varCtrlName = found.varCtrlName

def isMatch (success : UInt32) : Prop :=
  success = mapMatch ∨ success = mapArrayFewer ∨ success = mapArrayMore

/-- The matched items that are controlled by the item, in the order of the list. -/
def kids (server client : List StructureItem) (p : Nat) : List StructureItem :=
  client.filter fun x => x.ctrlItem = some p && (matchOf server x).isSome

def FlatControls (server client : List StructureItem) : Prop :=
  ∀ x ∈ client, (matchOf server x).isSome → ∀ p ∈ x.ctrlItem,
    ∀ y ∈ client, y.pointer = p → y.ctrlItem = none

def ChildChain (childItem : Nat → Option StructureItem) : Nat → List StructureItem → Prop
  | p, [] => childItem p = none
  | p, x :: rest => childItem p = some x ∧ ChildChain childItem x.pointer rest

section Chains

variable {childItem : Nat → Option StructureItem} {p q fuel : Nat} {l : List StructureItem}
  {x : StructureItem}

theorem ChildChain.chain (h : ChildChain childItem p l) (hfuel : l.length ≤ fuel) :
    childChain childItem fuel p = l := by
  induction l generalizing p fuel with
  | nil =>
    cases fuel with
    | zero => rfl
    | succ fuel =>
      have hnone : childItem p = none := h
      rw [childChain, hnone]
  | cons x rest ih =>
    cases fuel with
    | zero => exact absurd hfuel (Nat.not_succ_le_zero _)
    | succ fuel =>
      rw [childChain, h.1]
      exact congrArg (x :: ·) (ih h.2 (Nat.le_of_succ_le_succ hfuel))

theorem ChildChain.update (h : ChildChain childItem p l) {v : Option StructureItem}
    (hq : q ∉ p :: l.map StructureItem.pointer) :
    ChildChain (Function.update childItem q v) p l := by
  induction l generalizing p with
  | nil =>
    have hne : p ≠ q := fun he => hq (he ▸ .head _)
    exact (Function.update_of_ne hne v childItem).trans h
  | cons x rest ih =>
    have hne : p ≠ q := fun he => hq (he ▸ .head _)
    exact ⟨(Function.update_of_ne hne _ _).trans h.1, ih h.2 fun hm => hq (.tail _ hm)⟩

theorem ChildChain.add (h : ChildChain childItem p l)
    (hnodup : (p :: l.map StructureItem.pointer).Nodup)
    (hnew : x.pointer ∉ p :: l.map StructureItem.pointer) (hfree : childItem x.pointer = none) :
    ChildChain (Function.update childItem ((l.getLast?.map StructureItem.pointer).getD p) (some x))
      p (l ++ [x]) := by
  induction l generalizing p with
  | nil =>
    refine ⟨Function.update_self _ _ _, ?_⟩
    have hne : x.pointer ≠ p := fun he => hnew (he ▸ .head _)
    exact (Function.update_of_ne hne _ _).trans hfree
  | cons y rest ih =>
    obtain ⟨hout, hrest⟩ := List.nodup_cons.mp hnodup
    have hend : (((y :: rest).getLast?.map StructureItem.pointer).getD p) =
        ((rest.getLast?.map StructureItem.pointer).getD y.pointer) := by
      cases rest with
      | nil => rfl
      | cons z rest =>
        rw [List.getLast?_cons_cons, List.getLast?_eq_some_getLast (List.cons_ne_nil z rest)]
        rfl
    have hmem : ((rest.getLast?.map StructureItem.pointer).getD y.pointer) ∈
        y.pointer :: rest.map StructureItem.pointer := by
      cases hlast : rest.getLast? with
      | none => exact .head _
      | some z =>
        have hz : z.pointer ∈ rest.map StructureItem.pointer :=
          List.mem_map_of_mem (List.mem_of_getLast? hlast)
        exact .tail _ hz
    rw [hend]
    refine ⟨?_, ih h.2 hrest (fun hm => hnew (.tail _ hm))⟩
    have hne : p ≠ ((rest.getLast?.map StructureItem.pointer).getD y.pointer) :=
      fun he => hout (he ▸ hmem)
    exact (Function.update_of_ne hne _ _).trans h.1

end Chains

section Matched

variable {server client done : List StructureItem} {s : Matching} {x y found : StructureItem}
  {fuel : Nat}

theorem matchOne_none (h : matchOf server x = none) :
    (s.matchOne server fuel x).matchItem = s.matchItem ∧
    (s.matchOne server fuel x).childItem = s.childItem ∧
    ∃ success, ¬isMatch success ∧
      (s.matchOne server fuel x).toSuccess = Function.update s.toSuccess x.pointer success := by
  unfold matchOf at h
  unfold Matching.matchOne
  cases hfind : server.find? fun found => decide (x.varName = found.varName) with
  | none =>
    refine ⟨rfl, rfl, _, ?_, rfl⟩
    split
    · unfold isMatch
      decide
    · unfold isMatch
      decide
  | some found =>
    rw [hfind] at h
    dsimp only
    split
    · exact ⟨rfl, rfl, _, by unfold isMatch; decide, rfl⟩
    next htype =>
    split
    · exact ⟨rfl, rfl, _, by unfold isMatch; decide, rfl⟩
    next hctrl =>
    rw [not_not] at htype hctrl
    simp [htype, hctrl] at h

theorem addChild_same (s : Matching) (fuel : Nat) (x : StructureItem) :
    (s.addChild fuel x).matchItem = s.matchItem ∧
      (s.addChild fuel x).toSuccess = s.toSuccess := by
  unfold Matching.addChild
  split <;> exact ⟨rfl, rfl⟩

theorem matchOne_some (h : matchOf server x = some found) :
    (s.matchOne server fuel x).matchItem =
      Function.update s.matchItem x.pointer (some found) ∧
    (s.matchOne server fuel x).childItem = (s.addChild fuel x).childItem ∧
    ∃ success, isMatch success ∧
      (s.matchOne server fuel x).toSuccess = Function.update s.toSuccess x.pointer success := by
  unfold matchOf at h
  obtain ⟨hfind, hok⟩ := Option.filter_eq_some_iff.mp h
  simp only [Bool.and_eq_true, decide_eq_true_eq] at hok
  unfold Matching.matchOne
  rw [hfind]
  dsimp only
  rw [if_neg (not_not.mpr hok.1), if_neg (not_not.mpr hok.2)]
  unfold Matching.goodMatch
  refine ⟨(addChild_same _ _ _).1, ?_, _, ?_, (addChild_same _ _ _).2⟩
  · unfold Matching.addChild
    split <;> rfl
  · unfold isMatch lengthSuccess
    split
    · exact .inl rfl
    · split
      · exact .inr (.inl rfl)
      · exact .inr (.inr rfl)

structure MatchedInv (server client done : List StructureItem) (s : Matching) : Prop where
  matched : ∀ x ∈ done, s.matchItem x.pointer = matchOf server x
  fresh : ∀ p, (∀ x ∈ done, x.pointer ≠ p) → s.matchItem p = none
  success : ∀ x ∈ done, isMatch (s.toSuccess x.pointer) ↔ (matchOf server x).isSome
  chains : FlatControls server client → ∀ p,
    (∀ x ∈ done, (matchOf server x).isSome → x.ctrlItem ≠ none → x.pointer ≠ p) →
    ChildChain s.childItem p (kids server done p)

theorem kids_snoc (p : Nat) : kids server (done ++ [x]) p = kids server done p ++
    if x.ctrlItem = some p ∧ (matchOf server x).isSome then [x] else [] := by
  unfold kids
  rw [List.filter_append]
  congr 1
  by_cases hx : x.ctrlItem = some p ∧ (matchOf server x).isSome
  · rw [if_pos hx]
    simp [hx]
  · rw [if_neg hx]
    simpa using hx

theorem mem_kids {p : Nat} (h : y ∈ kids server done p) :
    y ∈ done ∧ y.ctrlItem = some p ∧ (matchOf server y).isSome := by
  simpa [kids] using h

theorem pointer_inj (hn : (client.map StructureItem.pointer).Nodup) (hx : x ∈ client)
    (hy : y ∈ client) (he : x.pointer = y.pointer) : x = y :=
  List.inj_on_of_nodup_map hn hx hy he

theorem addChild_chains (hn : (client.map StructureItem.pointer).Nodup)
    (hsub : (done ++ [x]).Sublist client) (h : MatchedInv server client done s)
    (hflat : FlatControls server client) (hmatch : (matchOf server x).isSome) {p : Nat}
    (hp : ∀ z ∈ done ++ [x], (matchOf server z).isSome → z.ctrlItem ≠ none → z.pointer ≠ p) :
    ChildChain (s.addChild client.length x).childItem p (kids server (done ++ [x]) p) := by
  have hx : x ∈ client := hsub.subset (by simp)
  have hdone : ∀ z ∈ done, z ∈ client := fun z hz => hsub.subset (List.mem_append_left _ hz)
  have hnodup : ((done ++ [x]).map StructureItem.pointer).Nodup :=
    (hsub.map StructureItem.pointer).nodup hn
  rw [List.map_append, List.nodup_append] at hnodup
  have hnew : ∀ z ∈ done, z.pointer ≠ x.pointer := fun z hz =>
    hnodup.2.2 z.pointer (List.mem_map_of_mem hz) x.pointer (.head _)
  have hlen : done.length ≤ client.length :=
    ((List.sublist_append_left done [x]).trans hsub).length_le
  rw [kids_snoc]
  unfold Matching.addChild
  cases hctrl : x.ctrlItem with
  | none =>
    rw [if_neg (by simp), List.append_nil]
    exact h.chains hflat p fun z hz => hp z (List.mem_append_left _ hz)
  | some q =>
    have hqflat := hflat x hx hmatch q hctrl
    have hvalid : ∀ z ∈ done, (matchOf server z).isSome → z.ctrlItem ≠ none → z.pointer ≠ q :=
      fun z hz _ hc he => hc (hqflat z (hdone z hz) he)
    have hchain := h.chains hflat q hvalid
    have hklen : (kids server done q).length ≤ client.length :=
      Nat.le_trans (List.length_filter_le _ _) hlen
    have hkq : ∀ r, q ∉ (kids server done r).map StructureItem.pointer := by
      intro r hm
      obtain ⟨z, hz, he⟩ := List.mem_map.mp hm
      obtain ⟨hzd, hzc, -⟩ := mem_kids hz
      have := hqflat z (hdone z hzd) he
      rw [hzc] at this
      cases this
    dsimp only
    unfold childChainEnd
    rw [hchain.chain hklen]
    by_cases hpq : p = q
    · subst hpq
      rw [if_pos ⟨rfl, hmatch⟩]
      have hxp : x.pointer ∉ p :: (kids server done p).map StructureItem.pointer := by
        intro hm
        rcases List.mem_cons.mp hm with he | hm
        · have := hqflat x hx he
          rw [hctrl] at this
          cases this
        · obtain ⟨z, hz, he⟩ := List.mem_map.mp hm
          exact hnew z (mem_kids hz).1 he
      refine hchain.add (List.nodup_cons.mpr ⟨hkq p, ?_⟩) hxp ?_
      · have hsublist : (kids server done p).Sublist done := List.filter_sublist
        exact (hsublist.map StructureItem.pointer).nodup hnodup.1
      · have hempty : kids server done x.pointer = [] := by
          refine List.eq_nil_iff_forall_not_mem.mpr fun z hz => ?_
          obtain ⟨hzd, hzc, hzm⟩ := mem_kids hz
          have := hflat z (hdone z hzd) hzm x.pointer hzc x hx rfl
          rw [hctrl] at this
          cases this
        have := h.chains hflat x.pointer fun z hz _ _ => hnew z hz
        rwa [hempty] at this
    · rw [if_neg (fun h => hpq (Option.some.inj h.1).symm), List.append_nil]
      refine (h.chains hflat p fun z hz => hp z (List.mem_append_left _ hz)).update ?_
      cases hlast : (kids server done q).getLast? with
      | none =>
        intro hm
        rcases List.mem_cons.mp hm with he | hm
        · exact hpq he.symm
        · exact hkq p hm
      | some z =>
        have hz := mem_kids (List.mem_of_getLast? hlast)
        intro hm
        rcases List.mem_cons.mp hm with he | hm
        · exact hp z (List.mem_append_left _ hz.1) hz.2.2 (by rw [hz.2.1]; exact nofun) he
        · obtain ⟨w, hw, he⟩ := List.mem_map.mp hm
          have hw' := mem_kids hw
          have hzw : w = z := pointer_inj hn (hdone w hw'.1) (hdone z hz.1) he
          rw [hzw, hz.2.1] at hw'
          exact hpq (Option.some.inj hw'.2.1).symm

theorem matchOne_inv (hn : (client.map StructureItem.pointer).Nodup)
    (hsub : (done ++ [x]).Sublist client) (h : MatchedInv server client done s) :
    MatchedInv server client (done ++ [x]) (s.matchOne server client.length x) := by
  have hnodup : ((done ++ [x]).map StructureItem.pointer).Nodup :=
    (hsub.map StructureItem.pointer).nodup hn
  rw [List.map_append, List.nodup_append] at hnodup
  have hnew : ∀ z ∈ done, z.pointer ≠ x.pointer := fun z hz =>
    hnodup.2.2 z.pointer (List.mem_map_of_mem hz) x.pointer (.head _)
  cases hmatch : matchOf server x with
  | none =>
    obtain ⟨hitem, hchild, success, hno, hsuccess⟩ :=
      @matchOne_none server s x client.length hmatch
    refine ⟨fun z hz => ?_, fun p hp => ?_, fun z hz => ?_, fun hflat p hp => ?_⟩
    · rw [hitem]
      rcases List.mem_append.mp hz with hz | hz
      · exact h.matched z hz
      · cases List.mem_singleton.mp hz
        rw [hmatch]
        exact h.fresh _ hnew
    · rw [hitem]
      exact h.fresh p fun z hz => hp z (List.mem_append_left _ hz)
    · rw [hsuccess]
      rcases List.mem_append.mp hz with hz | hz
      · rw [Function.update_of_ne (hnew z hz)]
        exact h.success z hz
      · cases List.mem_singleton.mp hz
        rw [Function.update_self, hmatch]
        exact iff_of_false hno nofun
    · rw [hchild, kids_snoc, hmatch, if_neg (by simp), List.append_nil]
      exact h.chains hflat p fun z hz => hp z (List.mem_append_left _ hz)
  | some found =>
    obtain ⟨hitem, hchild, success, hyes, hsuccess⟩ :=
      @matchOne_some server s x found client.length hmatch
    refine ⟨fun z hz => ?_, fun p hp => ?_, fun z hz => ?_, fun hflat p hp => ?_⟩
    · rw [hitem]
      rcases List.mem_append.mp hz with hz | hz
      · rw [Function.update_of_ne (hnew z hz)]
        exact h.matched z hz
      · cases List.mem_singleton.mp hz
        rw [Function.update_self, hmatch]
    · rw [hitem, Function.update_of_ne fun he => hp x (by simp) he.symm]
      exact h.fresh p fun z hz => hp z (List.mem_append_left _ hz)
    · rw [hsuccess]
      rcases List.mem_append.mp hz with hz | hz
      · rw [Function.update_of_ne (hnew z hz)]
        exact h.success z hz
      · cases List.mem_singleton.mp hz
        rw [Function.update_self, hmatch]
        exact iff_of_true hyes rfl
    · rw [hchild]
      exact addChild_chains hn hsub h hflat (by rw [hmatch]; rfl) hp

theorem matchAll_inv {todo : List StructureItem} (hn : (client.map StructureItem.pointer).Nodup)
    (hsub : (done ++ todo).Sublist client) (h : MatchedInv server client done s) :
    MatchedInv server client (done ++ todo)
      (todo.foldl (Matching.matchOne server client.length) s) := by
  induction todo generalizing done s with
  | nil =>
    rw [List.append_nil]
    exact h
  | cons x todo ih =>
    rw [List.append_cons] at hsub ⊢
    exact ih hsub (matchOne_inv hn ((List.sublist_append_left _ _).trans hsub) h)

theorem markNoDest_same (s : Matching) (server : List StructureItem) :
    (server.foldl Matching.markNoDest s).matchItem = s.matchItem ∧
      (server.foldl Matching.markNoDest s).childItem = s.childItem ∧
      (server.foldl Matching.markNoDest s).toSuccess = s.toSuccess := by
  induction server generalizing s with
  | nil => exact ⟨rfl, rfl, rfl⟩
  | cons found server ih =>
    obtain ⟨h₁, h₂, h₃⟩ := ih (s.markNoDest found)
    rw [List.foldl_cons, h₁, h₂, h₃]
    unfold Matching.markNoDest
    split <;> exact ⟨rfl, rfl, rfl⟩

theorem matchItems_inv (hn : (client.map StructureItem.pointer).Nodup) :
    MatchedInv server client client (Matching.matchItems server client) := by
  have hstart : MatchedInv server client [] Matching.start :=
    ⟨nofun, fun _ _ => rfl, nofun, fun _ _ _ => rfl⟩
  have hall := @matchAll_inv server client [] Matching.start client hn (List.Sublist.refl _) hstart
  obtain ⟨hitem, hchild, hsuccess⟩ := markNoDest_same
    (client.foldl (Matching.matchOne server client.length) .start) server
  unfold Matching.matchItems
  refine ⟨?_, ?_, ?_, ?_⟩
  · rw [hitem]
    exact hall.matched
  · rw [hitem]
    exact hall.fresh
  · rw [hsuccess]
    exact hall.success
  · rw [hchild]
    exact hall.chains

theorem matchItems_children (hn : (client.map StructureItem.pointer).Nodup)
    (hflat : FlatControls server client) (hx : x ∈ client) (hctrl : x.ctrlItem = none) :
    (Matching.matchItems server client).children client.length x =
      kids server client x.pointer := by
  refine ((matchItems_inv hn).chains hflat x.pointer fun z hz _ hc he => hc ?_).chain
    (List.length_filter_le _ _)
  rw [pointer_inj hn hz hx he]
  exact hctrl

end Matched

end Ucesb
