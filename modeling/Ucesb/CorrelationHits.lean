import Ucesb.Correlation

namespace Ucesb

/-- The channels of a structure, in the order of `forChannels`. -/
def channels : (s : EventShape) → List (Channel s)
  | .base => []
  | .single => [.single]
  | .members first rest => (channels first).map .first ++ (channels rest).map .rest
  | .array _ n item => (List.finRange n).flatMap fun i => (channels item).map fun c => .item i c
  | .multiChunk item => (channels item).map .chunk

theorem forChannels_eq {σ : Type} : (s : EventShape) → (f : Channel s → σ → σ) → (st : σ) →
    forChannels s f st = (channels s).foldl (fun st c => f c st) st
  | .base, _, _ => rfl
  | .single, _, _ => rfl
  | .members first rest, f, st => by
    rw [forChannels, forChannels_eq first, forChannels_eq rest, channels, List.foldl_append,
      List.foldl_map, List.foldl_map]
  | .array kind n item, f, st => by
    rw [forChannels, channels, List.foldl_flatMap]
    congr
    funext st i
    rw [forChannels_eq item, List.foldl_map]
  | .multiChunk item, f, st => by
    rw [forChannels, forChannels_eq item, channels, List.foldl_map]

theorem channels_ordered : (s : EventShape) → (channels s).Pairwise Precedes
  | .base => List.Pairwise.nil
  | .single => List.pairwise_singleton ..
  | .members first rest => by
    refine List.pairwise_append.mpr ⟨?_, ?_, fun c hc d hd => ?_⟩
    · exact (channels_ordered first).map _ fun _ _ h => h
    · exact (channels_ordered rest).map _ fun _ _ h => h
    · obtain ⟨c, -, rfl⟩ := List.mem_map.mp hc
      obtain ⟨d, -, rfl⟩ := List.mem_map.mp hd
      trivial
  | .array kind n item => by
    refine List.pairwise_flatMap.mpr ⟨fun i _ => ?_, ?_⟩
    · exact (channels_ordered item).map _ fun _ _ h => .inr ⟨rfl, h⟩
    · refine (List.pairwise_lt_finRange n).imp fun {i j} hij c hc d hd => ?_
      obtain ⟨c, -, rfl⟩ := List.mem_map.mp hc
      obtain ⟨d, -, rfl⟩ := List.mem_map.mp hd
      exact .inl hij
  | .multiChunk item => (channels_ordered item).map _ fun _ _ h => h

theorem listII_length_le {n : Nat} {item : EventShape}
    (l : Source (.array .listII n item)) : l.1.length ≤ n := l.2

/-- The channels that an event has a value for, in the order in which they are met. -/
def hits : (s : EventShape) → Source s → List (Channel s)
  | .base, _ => []
  | .single, value => if corrItemNonzero value then [.single] else []
  | .members first rest, (a, b) => (hits first a).map .first ++ (hits rest b).map .rest
  | .array .plain n item, items =>
    (List.finRange n).flatMap fun i => (hits item (items i)).map fun c => .item i c
  | .array .zeroSuppress n item, items =>
    (List.finRange n).flatMap fun i =>
      match items i with
      | none => []
      | some a => (hits item a).map fun c => .item i c
  | .array (.multi _) n item, items =>
    (List.finRange n).flatMap fun i =>
      (items i).1.flatMap fun a => (hits item a).map fun c => .item i c
  | .array .list _ item, l => l.items.flatMap fun a => (hits item a.2).map fun c => .item a.1 c
  | .array .listII _ item, l =>
    (List.finRange l.1.length).flatMap fun j =>
      (hits item (l.1.get j)).map fun c => .item (j.castLE (listII_length_le l)) c
  | .multiChunk _, none => []
  | .multiChunk item, some a => (hits item a).map .chunk

theorem foldl_eq_append {α β : Type} {f : List β → α → List β} {g : α → List β}
    (h : ∀ list a, f list a = list ++ g a) (l : List α) (list : List β) :
    l.foldl f list = list ++ l.flatMap g := by
  induction l generalizing list with
  | nil => simp
  | cons a l ih => rw [List.foldl_cons, ih, h, List.flatMap_cons, List.append_assoc]

theorem addCorrMembers_eq : (s : EventShape) → (src : Source s) → (index : Channel s → Option Nat) →
    (list : List Nat) → addCorrMembers s src index list = list ++ (hits s src).filterMap index
  | .base, _, _, list => (List.append_nil list).symm
  | .single, value, index, list => by
    rw [addCorrMembers, hits]
    cases hi : index .single <;> cases hv : corrItemNonzero value <;>
      simp [hi]
  | .members first rest, (a, b), index, list => by
    rw [addCorrMembers, addCorrMembers_eq first, addCorrMembers_eq rest, hits,
      List.filterMap_append, List.filterMap_map, List.filterMap_map, List.append_assoc]
    rfl
  | .array .plain n item, items, index, list => by
    rw [addCorrMembers, hits, List.filterMap_flatMap]
    refine foldl_eq_append (fun list i => ?_) _ _
    rw [addCorrMembers_eq item, List.filterMap_map]
    rfl
  | .array .zeroSuppress n item, items, index, list => by
    rw [addCorrMembers, hits, List.filterMap_flatMap]
    refine foldl_eq_append (fun list i => ?_) _ _
    cases items i with
    | none => exact (List.append_nil list).symm
    | some a =>
      simp only
      rw [addCorrMembers_eq item, List.filterMap_map]
      rfl
  | .array (.multi _) n item, items, index, list => by
    rw [addCorrMembers, hits, List.filterMap_flatMap]
    refine foldl_eq_append (fun list i => ?_) _ _
    rw [List.filterMap_flatMap]
    refine foldl_eq_append (fun list a => ?_) _ _
    rw [addCorrMembers_eq item, List.filterMap_map]
    rfl
  | .array .list n item, l, index, list => by
    rw [addCorrMembers, hits, List.filterMap_flatMap]
    refine foldl_eq_append (fun list a => ?_) _ _
    rw [addCorrMembers_eq item, List.filterMap_map]
    rfl
  | .array .listII n item, l, index, list => by
    rw [addCorrMembers, hits, List.filterMap_flatMap]
    refine foldl_eq_append (fun list j => ?_) _ _
    rw [addCorrMembers_eq item, List.filterMap_map]
    rfl
  | .multiChunk _, none, _, list => (List.append_nil list).symm
  | .multiChunk item, some a, index, list => by
    rw [addCorrMembers, addCorrMembers_eq item, hits, List.filterMap_map]
    rfl

def SingleHits : (s : EventShape) → Source s → Prop
  | .base, _ => True
  | .single, _ => True
  | .members first rest, (a, b) => SingleHits first a ∧ SingleHits rest b
  | .array .plain _ item, items => ∀ i, SingleHits item (items i)
  | .array .zeroSuppress _ item, items => ∀ i, ∀ a ∈ items i, SingleHits item a
  | .array (.multi _) _ item, items =>
    ∀ i, (items i).1.length ≤ 1 ∧ ∀ a ∈ (items i).1, SingleHits item a
  | .array .list _ item, l => ∀ a ∈ l.items, SingleHits item a.2
  | .array .listII _ item, l => ∀ a ∈ l.1, SingleHits item a
  | .multiChunk _, none => True
  | .multiChunk item, some a => SingleHits item a

theorem items_ordered {α : Type} {n : Nat} {kind : RawArrayKind} {item : EventShape} {l : List α}
    {place : α → Fin n} {content : α → List (Channel item)}
    (hl : l.Pairwise fun a b => place a < place b)
    (h : ∀ a ∈ l, (content a).Pairwise Precedes) :
    (l.flatMap fun a => (content a).map fun c => @Channel.item kind n item (place a) c).Pairwise
      Precedes := by
  refine List.pairwise_flatMap.mpr ⟨fun a ha => ?_, ?_⟩
  · exact (h a ha).map _ fun _ _ h => .inr ⟨rfl, h⟩
  · refine hl.imp fun {a b} hab c hc d hd => ?_
    obtain ⟨c, -, rfl⟩ := List.mem_map.mp hc
    obtain ⟨d, -, rfl⟩ := List.mem_map.mp hd
    exact .inl hab

theorem hits_ordered : (s : EventShape) → (src : Source s) → SingleHits s src →
    (hits s src).Pairwise Precedes
  | .base, _, _ => List.Pairwise.nil
  | .single, value, _ => by
    rw [hits]
    split
    next => exact List.pairwise_singleton ..
    next => exact List.Pairwise.nil
  | .members first rest, (a, b), h => by
    refine List.pairwise_append.mpr ⟨?_, ?_, fun c hc d hd => ?_⟩
    · exact (hits_ordered first a h.1).map _ fun _ _ h => h
    · exact (hits_ordered rest b h.2).map _ fun _ _ h => h
    · obtain ⟨c, -, rfl⟩ := List.mem_map.mp hc
      obtain ⟨d, -, rfl⟩ := List.mem_map.mp hd
      trivial
  | .array .plain n item, items, h =>
    items_ordered (List.pairwise_lt_finRange n) fun i _ => hits_ordered item (items i) (h i)
  | .array .zeroSuppress n item, items, h => by
    have hcontent : hits (.array .zeroSuppress n item) items = (List.finRange n).flatMap fun i =>
        ((items i).elim [] (hits item)).map fun c => .item i c := by
      rw [hits]
      congr
      funext i
      cases items i <;> rfl
    rw [hcontent]
    refine items_ordered (List.pairwise_lt_finRange n) fun i _ => ?_
    cases hi : items i with
    | none => exact List.Pairwise.nil
    | some a => exact hits_ordered item a (h i a hi)
  | .array (.multi m) n item, items, h => by
    have hcontent : hits (.array (.multi m) n item) items = (List.finRange n).flatMap fun i =>
        ((items i).1.flatMap (hits item)).map fun c => .item i c := by
      rw [hits]
      congr
      funext i
      rw [List.map_flatMap]
    rw [hcontent]
    refine items_ordered (List.pairwise_lt_finRange n) fun i _ => ?_
    obtain ⟨hlen, hi⟩ := h i
    match hentries : (items i).1 with
    | [] => exact List.Pairwise.nil
    | [a] =>
      rw [List.flatMap_singleton]
      exact hits_ordered item a (hi a (hentries ▸ List.mem_singleton_self a))
    | _ :: _ :: _ =>
      rw [hentries] at hlen
      simp at hlen
  | .array .list n item, l, h =>
    items_ordered l.sorted fun a ha => hits_ordered item a.2 (h a ha)
  | .array .listII n item, l, h => by
    have hplace : (List.finRange l.1.length).Pairwise fun j k => j.castLE l.2 < k.castLE l.2 :=
      List.pairwise_lt_finRange _
    exact items_ordered hplace fun j _ =>
      hits_ordered item (l.1.get j) (h _ (List.get_mem l.1 j))
  | .multiChunk _, none, _ => List.Pairwise.nil
  | .multiChunk item, some a, h => (hits_ordered item a h).map _ fun _ _ h => h

structure Enumerated {s : EventShape} (info : EnumerateInfo s) : Prop where
  lt : ∀ c k, info.index c = some k → k < info.nextIndex
  unique : ∀ c d k, info.index c = some k → info.index d = some k → c = d

theorem EnumerateInfo.start_enumerated (s : EventShape) : Enumerated (EnumerateInfo.start s) :=
  ⟨nofun, nofun⟩

theorem EnumerateInfo.channel_enumerated {s : EventShape} {info : EnumerateInfo s}
    (h : Enumerated info) (requested : Channel s → Bool) (c : Channel s) :
    Enumerated (info.channel requested c) := by
  rw [EnumerateInfo.channel]
  split_ifs
  · exact h
  · constructor
    · intro d k hd
      simp only [Function.update_apply] at hd
      split_ifs at hd with hdc
      · cases hd
        exact Nat.lt_succ_self _
      · exact Nat.lt_succ_of_lt (h.lt d k hd)
    · intro d e k hd he
      simp only [Function.update_apply] at hd he
      split_ifs at hd he with hdc hec hec
      · exact hdc.trans hec.symm
      · cases hd
        exact absurd (h.lt e _ he) (Nat.lt_irrefl _)
      · cases he
        exact absurd (h.lt d _ hd) (Nat.lt_irrefl _)
      · exact h.unique d e k hd he

theorem enumerateCorrelations_enumerated {s : EventShape} {info : EnumerateInfo s}
    (h : Enumerated info) (requested : Channel s → Bool) :
    Enumerated (enumerateCorrelations requested info) := by
  rw [enumerateCorrelations, forChannels_eq]
  generalize channels s = l
  induction l generalizing info with
  | nil => exact h
  | cons c l ih => exact ih (EnumerateInfo.channel_enumerated h requested c)

/-- The indices follow the order of the channels, and those that are left come later. -/
structure IndexInOrder {s : EventShape} (info : EnumerateInfo s) (left : List (Channel s)) : Prop where
  before : ∀ c k, info.index c = some k → ∀ d ∈ left, Precedes c d
  mono : ∀ c d k l, info.index c = some k → info.index d = some l → Precedes c d → k < l

theorem EnumerateInfo.channel_inOrder {s : EventShape} {info : EnumerateInfo s} {c : Channel s}
    {left : List (Channel s)} (he : Enumerated info) (h : IndexInOrder info (c :: left))
    (hleft : ∀ d ∈ left, Precedes c d) (requested : Channel s → Bool) :
    IndexInOrder (info.channel requested c) left := by
  rw [EnumerateInfo.channel]
  split_ifs
  · exact ⟨fun d k hd e he => h.before d k hd e (List.mem_cons_of_mem c he), h.mono⟩
  · constructor
    · intro d k hd e hmem
      simp only [Function.update_apply] at hd
      split_ifs at hd with hdc
      · exact hdc ▸ hleft e hmem
      · exact h.before d k hd e (List.mem_cons_of_mem c hmem)
    · intro d e k l hd hel hde
      simp only [Function.update_apply] at hd hel
      split_ifs at hd hel with hdc hec hec
      · obtain rfl : d = e := hdc.trans hec.symm
        exact absurd hde (Precedes.irrefl d)
      · obtain rfl := hdc
        have hed := h.before e l hel d (List.mem_cons_self ..)
        exact absurd (hde.trans hed) (Precedes.irrefl d)
      · cases hel
        exact he.lt d k hd
      · exact h.mono d e k l hd hel hde

theorem enumerateCorrelations_inOrder {s : EventShape} (requested : Channel s → Bool) :
    IndexInOrder (enumerateCorrelations requested (EnumerateInfo.start s)) [] := by
  rw [enumerateCorrelations, forChannels_eq]
  have he := EnumerateInfo.start_enumerated s
  have h : IndexInOrder (EnumerateInfo.start s) (channels s) := ⟨nofun, nofun⟩
  have hl := channels_ordered s
  generalize channels s = l at h hl
  generalize EnumerateInfo.start s = info at h he
  induction l generalizing info with
  | nil => exact h
  | cons c l ih =>
    have hl' := List.pairwise_cons.mp hl
    exact ih hl'.2 _ (EnumerateInfo.channel_inOrder he h hl'.1 requested)
      (EnumerateInfo.channel_enumerated he requested c)

end Ucesb
