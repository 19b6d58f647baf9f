import Mathlib.Data.List.TakeWhile
import Ucesb.CwnGet

namespace Ucesb

section ReadBack

variable {ops : FloatOps} {nt : CwnTuple} {mem : Nat → UInt8} {words : List Nat}

/-- An item that the event has a value for. With a mask, the words that are not finite stand for
no value. -/
structure IndItem.HasValue (ops : FloatOps) (mem : Nat → UInt8) (i : IndItem) : Prop where
  valid : i.maskValid mem = true
  stored : i.GetsStored ops mem

/-- The scalars, the controlling counts and the elements of the arrays are there again. -/
structure EventRestored (ops : FloatOps) (nt : CwnTuple) (mem base mem' : Nat → UInt8) : Prop where
  values : ∀ i ∈ nt.filledItems mem, i.HasValue ops mem →
    loadN mem' i.off i.size = loadN mem i.off i.size
  counts : ∀ a ∈ nt.indexItems, loadN mem' a.srcOffset 4 = loadN mem a.srcOffset 4
  indices : ∀ a ∈ nt.arrayItems, ∀ k, k < a.itemsUsed →
    (bitAt mem' a.srcBitsOffset k = true ↔
      bitAt base a.srcBitsOffset k = true ∨ bitAt mem a.srcBitsOffset k = true)

/-- Whatever was in the event structure before, the words are consumed and the event is there. -/
def EventReadBack (ops : FloatOps) (nt : CwnTuple) (mem : Nat → UInt8) (words : List Nat) : Prop :=
  ∀ base, ∃ mem', unpackEvent ops nt base words = some mem' ∧ EventRestored ops nt mem base mem'

def IndexItem.Whole (mem : Nat → UInt8) (a : IndexItem) : Prop :=
  loadN mem a.srcOffset 4 ≤ a.itemsUsed ∧
    ∀ e ∈ a.item.entries.take (loadN mem a.srcOffset 4), ∀ i ∈ e, i.cut mem a.itemsUsed = false

/-- A floating point value that the single precision of the ntuple does not change. -/
def IndItem.Single (ops : FloatOps) (mem : Nat → UInt8) (i : IndItem) : Prop :=
  ops.stored i.info (ops.word i.info (loadN mem i.off i.size)) % 256 ^ i.size =
    loadN mem i.off i.size

/-- What comes back of an event: the integers, the floating point values by way of the words of the
ntuple, and of a list the entries that were filled. -/
structure EventGotBack (ops : FloatOps) (nt : CwnTuple) (mem base mem' : Nat → UInt8) : Prop where
  integers : ∀ i ∈ nt.filledItems mem, i.is indItemTypeFloat = false → i.maskValid mem = true →
    loadN mem' i.off i.size = loadN mem i.off i.size
  floats : ∀ i ∈ nt.filledItems mem, i.is indItemTypeFloat = true → i.HasValue ops mem →
    loadN mem' i.off i.size =
      ops.stored i.info (ops.word i.info (loadN mem i.off i.size)) % 256 ^ i.size
  counts : ∀ a ∈ nt.indexItems, loadN mem' a.srcOffset 4 = (indexEntries mem a).length
  wholeCounts : ∀ a ∈ nt.indexItems, a.Whole mem →
    loadN mem' a.srcOffset 4 = loadN mem a.srcOffset 4
  indices : ∀ a ∈ nt.arrayItems, ∀ k, k < a.itemsUsed →
    (bitAt mem' a.srcBitsOffset k = true ↔
      bitAt base a.srcBitsOffset k = true ∨ bitAt mem a.srcBitsOffset k = true)

structure EventReadable (ops : FloatOps) (nt : CwnTuple) (mem : Nat → UInt8) : Prop where
  noArray2 : nt.array2Items = []
  counts : ∀ a ∈ nt.indexItems, a.Whole mem
  floats : ∀ i ∈ nt.filledItems mem, i.is indItemTypeFloat = true → i.HasValue ops mem →
    i.Single ops mem

theorem length_indexEntries_iff (a : IndexItem) :
    (indexEntries mem a).length = loadN mem a.srcOffset 4 ↔ a.Whole mem := by
  have hprefix := List.takeWhile_prefix
    (fun e : List IndItem => e.all fun i => !i.cut mem a.itemsUsed)
    (l := a.item.entries.take (min (loadN mem a.srcOffset 4) a.itemsUsed))
  have halloc := a.alloc
  constructor
  · intro hlen
    have hle := hprefix.length_le
    rw [List.length_take] at hle
    have hcount : loadN mem a.srcOffset 4 ≤ a.itemsUsed := by
      rw [indexEntries, uncutEntries] at hlen
      omega
    rw [indexEntries, uncutEntries, Nat.min_eq_left hcount] at hlen
    rw [Nat.min_eq_left hcount] at hprefix
    have hwhole := hprefix.eq_of_length (by
      rw [hlen, List.length_take]
      omega)
    refine ⟨hcount, fun e he i hi => ?_⟩
    have hall := List.takeWhile_eq_self_iff.mp hwhole e he
    simpa using List.all_eq_true.mp hall i hi
  · rintro ⟨hcount, huncut⟩
    have hself : indexEntries mem a = a.item.entries.take (loadN mem a.srcOffset 4) := by
      rw [indexEntries, uncutEntries, Nat.min_eq_left hcount, List.takeWhile_eq_self_iff]
      intro e he
      simpa using huncut e he
    rw [hself, List.length_take]
    omega

theorem got_float {i : IndItem} (hfloat : i.is indItemTypeFloat = true)
    (hvalid : i.maskValid mem = true) :
    i.got ops mem = ops.stored i.info (ops.word i.info (loadN mem i.off i.size)) := by
  simp [IndItem.got, IndItem.word, hfloat, hvalid]

theorem concatSome_array2_nil {as : List Array2Item}
    (h : concatSome (cwnFillArray2Item ops mem) as = some []) : as = [] := by
  cases as with
  | nil => rfl
  | cons a as =>
    obtain ⟨w, hw, h⟩ := Option.bind_eq_some_iff.mp h
    obtain ⟨ws, -, h⟩ := Option.bind_eq_some_iff.mp h
    obtain ⟨indices, -, hw⟩ := Option.bind_eq_some_iff.mp hw
    obtain ⟨ends, -, hw⟩ := Option.bind_eq_some_iff.mp hw
    dsimp only at hw
    split at hw
    next => cases hw
    next =>
      obtain ⟨body, -, hw⟩ := Option.bind_eq_some_iff.mp hw
      cases hw
      have := congrArg List.length (Option.some.inj h)
      simp at this

theorem value_restored_iff {updates : List MemUpdate} (hsep : nt.Separate)
    (hu : UpdatesOf ops mem nt.vars (nt.gotVars mem) updates) (base : Nat → UInt8) {i : IndItem}
    (hi : i ∈ nt.filledItems mem) (hvalue : i.HasValue ops mem) :
    loadN (runUpdates base updates) i.off i.size = loadN mem i.off i.size ↔
      (i.is indItemTypeFloat = true → i.Single ops mem) := by
  rw [loadN_got hsep hu base hi hvalue.stored]
  cases hfloat : i.is indItemTypeFloat with
  | false => exact iff_of_true (IndItem.got_valid hfloat hvalue.valid) nofun
  | true =>
    rw [got_float hfloat hvalue.valid]
    exact ⟨fun h _ => h, fun h => h rfl⟩

end ReadBack

theorem event_whole_iff (ops : FloatOps) {nt : CwnTuple} (hsep : nt.Separate)
    {mem : Nat → UInt8} {words : List Nat} (hwords : cwnFill ops nt mem = some words) :
    EventReadBack ops nt mem words ↔ EventReadable ops nt mem := by
  obtain ⟨updates, rest, hget, hrest, hu⟩ := cwnGet_updates hwords
  have hrestored := cwnRestored_of_updates hsep hu
  have hcounts : ∀ (base : Nat → UInt8), ∀ a ∈ nt.indexItems,
      loadN (runUpdates base updates) a.srcOffset 4 = loadN mem a.srcOffset 4 ↔ a.Whole mem := by
    intro base a ha
    rw [(hrestored base).counts a ha]
    exact length_indexEntries_iff a
  constructor
  · intro hback
    obtain ⟨mem', hunpack, hevent⟩ := hback mem
    rw [unpackEvent, hget] at hunpack
    simp only [Option.bind_eq_bind, Option.bind_some] at hunpack
    split at hunpack
    next => cases hunpack
    next hnil =>
      obtain rfl := Option.some.inj hunpack
      rw [not_not.mp hnil] at hrest
      refine ⟨concatSome_array2_nil hrest, fun a ha => ?_, fun i hi hfloat hvalue => ?_⟩
      · exact (hcounts mem a ha).mp (hevent.counts a ha)
      · exact (value_restored_iff hsep hu mem hi hvalue).mp (hevent.values i hi hvalue) hfloat
  · intro hreadable base
    have hnil : rest = [] := by
      rw [hreadable.noArray2] at hrest
      exact (Option.some.inj hrest).symm
    refine ⟨runUpdates base updates, ?_, ?_, ?_, (hrestored base).indices⟩
    · rw [unpackEvent, hget, hnil]
      rfl
    · intro i hi hvalue
      exact (value_restored_iff hsep hu base hi hvalue).mpr fun hfloat =>
        hreadable.floats i hi hfloat hvalue
    · exact fun a ha => (hcounts base a ha).mpr (hreadable.counts a ha)

/-- Without doubly indexed arrays, `unpack_event` consumes the words that `event` made, and the
event comes back. -/
theorem event_read_back (ops : FloatOps) {nt : CwnTuple} (hsep : nt.Separate)
    (hnone : nt.array2Items = []) {mem : Nat → UInt8} {words : List Nat}
    (hwords : cwnFill ops nt mem = some words) (base : Nat → UInt8) :
    ∃ mem', unpackEvent ops nt base words = some mem' ∧ EventGotBack ops nt mem base mem' := by
  obtain ⟨updates, rest, hget, hrest, hu⟩ := cwnGet_updates hwords
  have hrestored := cwnRestored_of_updates hsep hu base
  rw [hnone] at hrest
  cases hrest
  refine ⟨runUpdates base updates, ?_, hrestored.items, fun i hi hfloat hvalue => ?_,
    hrestored.counts, fun a ha hwhole => ?_, hrestored.indices⟩
  · rw [unpackEvent, hget]
    rfl
  · rw [loadN_got hsep hu base hi hvalue.stored, got_float hfloat hvalue.valid]
  · rw [hrestored.counts a ha]
    exact (length_indexEntries_iff a).mpr hwhole

theorem event_read_back_demo :
    ∃ words, cwnFill singleOps demoTuple demoMem = some words ∧
      ∃ mem', unpackEvent singleOps demoTuple (fun _ => 0) words = some mem' ∧
        EventGotBack singleOps demoTuple demoMem (fun _ => 0) mem' := by
  have hwords : cwnFill singleOps demoTuple demoMem = some [1, 2, 9, 13, 1, 2, 27] := by
    decide +kernel
  have hsep : demoTuple.Separate := by decide +kernel
  exact ⟨_, hwords, event_read_back singleOps hsep rfl hwords fun _ => 0⟩

theorem event_not_read_back :
    (∃ words, demoTuple.Separate ∧ cwnFill singleOps demoTuple demoMem = some words ∧
      ¬EventReadBack singleOps demoTuple demoMem words) ∧
    ∃ nt words, nt.Separate ∧ cwnFill singleOps nt demoMem = some words ∧
      ∀ base, unpackEvent singleOps nt base words = none := by
  have hcut : cwnFill singleOps demoTuple demoMem = some [1, 2, 9, 13, 1, 2, 27] := by
    decide +kernel
  have hsep : demoTuple.Separate := by decide +kernel
  have harray2 : cwnFill singleOps ⟨[], [], [], [demoArray2]⟩ demoMem =
      some [1, 1, 2, 2, 49, 53] := by
    decide +kernel
  refine ⟨⟨_, hsep, hcut, fun hback => ?_⟩, _, _, by decide +kernel, harray2, fun base => rfl⟩
  have hreadable := (event_whole_iff singleOps hsep hcut).mp hback
  have hcount := (hreadable.counts _ (List.mem_singleton_self _)).1
  exact absurd hcount (by decide +kernel)

end Ucesb
