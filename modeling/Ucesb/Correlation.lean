import Mathlib.Tactic.Common
import Mathlib.Tactic.Ring
import Mathlib.Data.List.FinRange
import Mathlib.Data.List.Pairwise

namespace Ucesb

/-- `raw_array`, `raw_array_zero_suppress`, `raw_array_multi_zero_suppress`,
`raw_list_zero_suppress` and `raw_list_ii_zero_suppress`. -/
inductive RawArrayKind
  | plain
  | zeroSuppress
  | multi (maxEntries : Nat)
  | list
  | listII
deriving DecidableEq

/-- The members of a structure of the event, in their order.  `base` is a base class, which has
nothing to count, and `multiChunk` a member with several events. -/
inductive EventShape
  | base
  | single
  | members (first rest : EventShape)
  | array (kind : RawArrayKind) (n : Nat) (item : EventShape)
  | multiChunk (item : EventShape)
deriving DecidableEq

/-- A place for a `data_correlation`, which is the same for all kinds of arrays. -/
inductive Channel : EventShape → Type
  | single : Channel .single
  | first {first rest : EventShape} (c : Channel first) : Channel (.members first rest)
  | rest {first rest : EventShape} (c : Channel rest) : Channel (.members first rest)
  | item {kind : RawArrayKind} {n : Nat} {item : EventShape} (i : Fin n) (c : Channel item) :
      Channel (.array kind n item)
  | chunk {item : EventShape} (c : Channel item) : Channel (.multiChunk item)
deriving DecidableEq

/-- The items of a `raw_list_zero_suppress`: `do_insert_index` keeps them sorted and has an index
once. -/
structure ListItems (n : Nat) (α : Type) where
  items : List (Fin n × α)
  sorted : items.Pairwise fun a b => a.1 < b.1

/-- The contents of an event.  An item that is not valid has no entry, and a member with several
events gives the entry of the event that is looked at. -/
def Source : EventShape → Type
  | .base => Unit
  | .single => Nat
  | .members first rest => Source first × Source rest
  | .array .plain n item => Fin n → Source item
  | .array .zeroSuppress n item => Fin n → Option (Source item)
  | .array (.multi maxEntries) n item =>
    Fin n → { entries : List (Source item) // entries.length ≤ maxEntries }
  | .array .list n item => ListItems n (Source item)
  | .array .listII n item => { items : List (Source item) // items.length ≤ n }
  | .multiChunk item => Option (Source item)

/-- A call for each channel of a structure, in the order of `struct_fcncall.hh` and of the loops
of `raw_array_correlation`. -/
def forChannels {σ : Type} : (s : EventShape) → (Channel s → σ → σ) → σ → σ
  | .base, _, st => st
  | .single, f, st => f .single st
  | .members first rest, f, st =>
    forChannels rest (fun c => f (.rest c)) (forChannels first (fun c => f (.first c)) st)
  | .array _ n item, f, st =>
    (List.finRange n).foldl (fun st i => forChannels item (fun c => f (.item i c)) st) st
  | .multiChunk item, f, st => forChannels item (fun c => f (.chunk c)) st

/-- `enumerate_correlations_info`, with the index of each channel. -/
structure EnumerateInfo (s : EventShape) where
  index : Channel s → Option Nat
  nextIndex : Nat

def EnumerateInfo.start (s : EventShape) : EnumerateInfo s := ⟨fun _ => none, 0⟩

/-- `enumerate_correlations` of a `data_correlation`. -/
def EnumerateInfo.channel {s : EventShape} (requested : Channel s → Bool) (c : Channel s)
    (info : EnumerateInfo s) : EnumerateInfo s :=
  if !requested c || (info.index c).isSome then info
  else ⟨Function.update info.index c (some info.nextIndex), info.nextIndex + 1⟩

def enumerateCorrelations {s : EventShape} (requested : Channel s → Bool)
    (info : EnumerateInfo s) : EnumerateInfo s :=
  forChannels s (EnumerateInfo.channel requested) info

def corrItemNonzero (value : Nat) : Bool := value != 0

/-- `add_corr_members` of all the structures and arrays.  What is listed is the index of each
channel with a value, and a channel that is not requested has none. -/
def addCorrMembers : (s : EventShape) → Source s → (Channel s → Option Nat) → List Nat → List Nat
  | .base, _, _, list => list
  | .single, value, index, list =>
    match index .single with
    | none => list
    | some k => if corrItemNonzero value then list ++ [k] else list
  | .members first rest, (a, b), index, list =>
    addCorrMembers rest b (fun c => index (.rest c))
      (addCorrMembers first a (fun c => index (.first c)) list)
  | .array .plain n item, items, index, list =>
    (List.finRange n).foldl
      (fun list i => addCorrMembers item (items i) (fun c => index (.item i c)) list) list
  | .array .zeroSuppress n item, items, index, list =>
    (List.finRange n).foldl
      (fun list i =>
        match items i with
        | none => list
        | some a => addCorrMembers item a (fun c => index (.item i c)) list) list
  | .array (.multi _) n item, items, index, list =>
    (List.finRange n).foldl
      (fun list i =>
        (items i).1.foldl
          (fun list a => addCorrMembers item a (fun c => index (.item i c)) list) list) list
  | .array .list _ item, l, index, list =>
    l.items.foldl (fun list a => addCorrMembers item a.2 (fun c => index (.item a.1 c)) list) list
  | .array .listII _ item, l, index, list =>
    (List.finRange l.1.length).foldl
      (fun list j =>
        addCorrMembers item (l.1.get j) (fun c => index (.item (j.castLE l.2) c)) list) list
  | .multiChunk _, none, _, list => list
  | .multiChunk item, some a, index, list => addCorrMembers item a (fun c => index (.chunk c)) list

def Precedes : {s : EventShape} → Channel s → Channel s → Prop
  | _, .single, .single => False
  | _, .first c, .first d => Precedes c d
  | _, .first _, .rest _ => True
  | _, .rest _, .first _ => False
  | _, .rest c, .rest d => Precedes c d
  | _, .item i c, .item j d => i < j ∨ i = j ∧ Precedes c d
  | _, .chunk c, .chunk d => Precedes c d

theorem Precedes.irrefl {s : EventShape} (c : Channel s) : ¬Precedes c c := by
  induction c with
  | single => exact id
  | first c ih => exact ih
  | rest c ih => exact ih
  | item i c ih =>
    rintro (h | ⟨-, h⟩)
    · exact lt_irrefl i h
    · exact ih h
  | chunk c ih => exact ih

theorem Precedes.trans {s : EventShape} {b c d : Channel s} (hbc : Precedes b c)
    (hcd : Precedes c d) : Precedes b d := by
  induction b with
  | single => cases c; exact hbc.elim
  | first b ih =>
    cases c with
    | first c =>
      cases d with
      | first d => exact ih hbc hcd
      | rest d => trivial
    | rest c =>
      cases d with
      | first d => exact hcd.elim
      | rest d => trivial
  | rest b ih =>
    cases c with
    | first c => exact hbc.elim
    | rest c =>
      cases d with
      | first d => exact hcd.elim
      | rest d => exact ih hbc hcd
  | item i b ih =>
    cases c with
    | item j c =>
      cases d with
      | item k d =>
        rcases hbc with h | ⟨rfl, h⟩
        · rcases hcd with h' | ⟨rfl, -⟩
          · exact .inl (lt_trans h h')
          · exact .inl h
        · rcases hcd with h' | ⟨rfl, h'⟩
          · exact .inl h'
          · exact .inr ⟨rfl, ih h h'⟩
  | chunk b ih =>
    cases c with
    | chunk c =>
      cases d with
      | chunk d => exact ih hbc hcd

theorem Precedes.total {s : EventShape} (c d : Channel s) :
    Precedes c d ∨ c = d ∨ Precedes d c := by
  induction c with
  | single => cases d; exact .inr (.inl rfl)
  | first c ih =>
    cases d with
    | first d => exact (ih d).imp_right fun h => h.imp_left (congrArg Channel.first)
    | rest d => exact .inl trivial
  | rest c ih =>
    cases d with
    | first d => exact .inr (.inr trivial)
    | rest d => exact (ih d).imp_right fun h => h.imp_left (congrArg Channel.rest)
  | item i c ih =>
    cases d with
    | item j d =>
      rcases lt_trichotomy i j with h | rfl | h
      · exact .inl (.inl h)
      · rcases ih d with h | rfl | h
        · exact .inl (.inr ⟨rfl, h⟩)
        · exact .inr (.inl rfl)
        · exact .inr (.inr (.inr ⟨rfl, h⟩))
      · exact .inr (.inr (.inl h))
  | chunk c ih =>
    cases d with
    | chunk d => exact (ih d).imp_right fun h => h.imp_left (congrArg Channel.chunk)

end Ucesb
