import Ucesb.CompactRoundTrip
import Ucesb.OffsetsWriter

namespace Ucesb

section Marks

/-- `(size + 3) & ~3`, which is 0 for the three largest sizes. -/
def maskBytes (size : UInt32) : Nat := ((size + 3) &&& ~~~3).toNat

/-- `_num_masks`, for each level. -/
def numMasksAt (size : UInt32) : Nat → Nat
  | 0 => (((maskBytes size + 31) / 32 + 31) / 32 + 31) / 32
  | 1 => ((maskBytes size + 31) / 32 + 31) / 32
  | _ => (maskBytes size + 31) / 32

/-- The marks of an event, in the words as they are left by the one before.  An offset outside of the
array is an error. -/
def markEvent (size : UInt32) (masks : Nat → Nat → Nat) (offsets : List Nat) :
    Option (Nat → Nat → Nat) :=
  if offsets.any fun offset => size.toNat < offset + 4 then none
  else some (eventMasks masks offsets)

def visitItems (size : UInt32) (masks : Nat → Nat → Nat) : List Nat :=
  (List.range (numMasksAt size 0)).flatMap (bucketItems masks 0 2)

def markEvents (size : UInt32) (masks : Nat → Nat → Nat) : List (List Nat) →
    Option (List (List Nat))
  | [] => some []
  | offsets :: events => do
    let masks ← markEvent size masks offsets
    let rest ← markEvents size masks events
    return (visitItems size masks).map (· * 4) :: rest

def Visits (offsets visited : List Nat) : Prop :=
  visited.Pairwise (· < ·) ∧ ∀ o, o ∈ visited ↔ o ∈ offsets

/-- What is checked of the offsets, when they are given and when they are marked. -/
def Inside (size : UInt32) (offsets : List Nat) : Prop :=
  ∀ o ∈ offsets, 4 ∣ o ∧ o + 4 ≤ size.toNat

variable {size : UInt32} {masks : Nat → Nat → Nat} {offsets : List Nat} {events lists : List (List Nat)}

theorem bits_and_not_three (b : BitVec 32) : (b &&& ~~~3#32).toNat = b.toNat / 4 * 4 := by
  have hshift : b &&& ~~~3#32 = (b >>> 2) <<< 2 := by
    apply BitVec.eq_of_getElem_eq
    intro i hi
    simp only [BitVec.getElem_and, BitVec.getElem_not, BitVec.getElem_shiftLeft]
    have hthree : (3#32)[i] = decide (i < 2) := Nat.testBit_two_pow_sub_one 2 i
    rw [hthree]
    by_cases h2 : i < 2
    · simp [h2]
    · have h : 2 + (i - 2) = i := by omega
      simp [h2, h, BitVec.getLsbD_eq_getElem hi]
  have hlt := b.isLt
  rw [hshift, BitVec.toNat_shiftLeft, BitVec.toNat_ushiftRight, Nat.shiftRight_eq_div_pow,
    Nat.shiftLeft_eq, Nat.mod_eq_of_lt (by omega)]

theorem maskBytes_eq (size : UInt32) : maskBytes size = (size.toNat + 3) % 2 ^ 32 / 4 * 4 := by
  have h := bits_and_not_three (size.toBitVec + 3)
  rw [BitVec.toNat_add] at h
  exact h

theorem visitItems_eq (h : size.toNat + 3 < 2 ^ 32) (masks : Nat → Nat → Nat) :
    visitItems size masks = eventItems size.toNat masks := by
  rw [visitItems, numMasksAt, maskBytes_eq, Nat.mod_eq_of_lt h, eventItems, numMasks]

theorem visitItems_wrap (h : ¬ size.toNat + 3 < 2 ^ 32) (masks : Nat → Nat → Nat) :
    visitItems size masks = [] := by
  have hlt := size.toNat_lt
  have h0 : (size.toNat + 3) % 2 ^ 32 / 4 * 4 = 0 := by omega
  rw [visitItems, numMasksAt, maskBytes_eq, h0]
  rfl

theorem mark_inside {o l : Nat} (hwrap : size.toNat + 3 < 2 ^ 32) (h : o + 4 ≤ size.toNat)
    (hl : l ≤ 2) : o / 4 / bucketBits ^ (2 - l) / bucketBits < numMasksAt size l := by
  have hbytes : maskBytes size = (size.toNat + 3) / 4 * 4 := by
    rw [maskBytes_eq, Nat.mod_eq_of_lt hwrap]
  unfold bucketBits
  rcases Nat.lt_trichotomy l 1 with h0 | rfl | h2
  · obtain rfl : l = 0 := by omega
    rw [numMasksAt, hbytes]
    omega
  · rw [numMasksAt, hbytes]
    omega
  · obtain rfl : l = 2 := by omega
    simp only [numMasksAt, hbytes]
    omega

theorem markEvent_some (hin : Inside size offsets) :
    markEvent size masks offsets = some (eventMasks masks offsets) := by
  rw [markEvent, if_neg]
  rw [List.any_eq_true]
  rintro ⟨o, ho, hlong⟩
  have := (hin o ho).2
  have := of_decide_eq_true hlong
  omega

theorem visits_event (hmasks : WordsFit masks) (hwrap : size.toNat + 3 < 2 ^ 32)
    (hin : Inside size offsets) :
    Visits offsets ((visitItems size (eventMasks masks offsets)).map (· * 4)) := by
  rw [visitItems_eq hwrap]
  refine ⟨?_, fun o => ?_⟩
  · rw [List.pairwise_map]
    refine (eventItems_sorted hmasks size.toNat offsets).imp fun {a b} hab => ?_
    omega
  · rw [List.mem_map]
    constructor
    · rintro ⟨x, hx, rfl⟩
      exact (mem_eventItems hmasks hin x).mp hx
    · intro ho
      have h4 : o / 4 * 4 = o := Nat.div_mul_cancel (hin o ho).1
      refine ⟨o / 4, (mem_eventItems hmasks hin _).mpr ?_, h4⟩
      rw [h4]
      exact ho

theorem markEvents_visits (hmasks : WordsFit masks) (hwrap : size.toNat + 3 < 2 ^ 32)
    (hin : ∀ offsets ∈ events, Inside size offsets) :
    ∃ lists, markEvents size masks events = some lists ∧ List.Forall₂ Visits events lists := by
  induction events generalizing masks with
  | nil => exact ⟨[], rfl, .nil⟩
  | cons offsets events ih =>
    have hhead := hin offsets List.mem_cons_self
    obtain ⟨lists, hlists, hall⟩ := ih (eventMasks_fit hmasks offsets)
      fun o ho => hin o (List.mem_cons_of_mem _ ho)
    refine ⟨_, ?_, .cons (visits_event hmasks hwrap hhead) hall⟩
    rw [markEvents, markEvent_some hhead]
    simp only [Option.bind_eq_bind, Option.bind_some, hlists]
    rfl

theorem markEvents_wrap (hwrap : ¬ size.toNat + 3 < 2 ^ 32)
    (hin : ∀ offsets ∈ events, Inside size offsets) :
    markEvents size masks events = some (events.map fun _ => []) := by
  induction events generalizing masks with
  | nil => rfl
  | cons offsets events ih =>
    rw [markEvents, markEvent_some (hin offsets List.mem_cons_self)]
    simp only [Option.bind_eq_bind, Option.bind_some]
    rw [ih fun o ho => hin o (List.mem_cons_of_mem _ ho), visitItems_wrap hwrap]
    rfl

theorem visits_nothing_iff :
    List.Forall₂ Visits events (events.map fun _ => []) ↔ ∀ offsets ∈ events, offsets = [] := by
  rw [List.forall₂_map_right_iff, List.forall₂_same]
  refine forall₂_congr fun offsets _ => ?_
  constructor
  · rintro ⟨-, h⟩
    exact List.eq_nil_iff_forall_not_mem.mpr fun o ho => List.not_mem_nil ((h o).mpr ho)
  · rintro rfl
    exact ⟨.nil, fun o => Iff.rfl⟩

end Marks

/-- Items are filled through a list that has been taken over for the array. -/
def Fillable (size : UInt32) : Prop :=
  ∃ w m list, w.stageLength = size.toNat ∧ requestArrayOffsetsMessage w m = .ok list

theorem Fillable.no_wrap {size : UInt32} (h : Fillable size) : size.toNat + 3 < 2 ^ 32 := by
  obtain ⟨w, m, list, hstage, haccepted⟩ := h
  have hle := accepted_stageLength haccepted
  omega

/-- Whatever the words hold before the first event, each event goes through its own offsets, each
once and in their order, and all words that are used are in the masks. -/
theorem marks_right (size : UInt32) (stale : Nat → Nat → UInt32) (events : List (List Nat))
    (hin : ∀ offsets ∈ events, Inside size offsets)
    (hfill : ∀ offsets ∈ events, offsets ≠ [] → Fillable size) :
    (∃ lists, markEvents size (fun l w => (stale l w).toNat) events = some lists ∧
        List.Forall₂ Visits events lists) ∧
      ∀ offsets ∈ events, ∀ o ∈ offsets, ∀ l ≤ 2,
        o / 4 / bucketBits ^ (2 - l) / bucketBits < numMasksAt size l := by
  have hnonempty : ∀ offsets ∈ events, ∀ o ∈ offsets, Fillable size := by
    intro offsets hmem o ho
    exact hfill offsets hmem (List.ne_nil_of_mem ho)
  constructor
  · by_cases hwrap : size.toNat + 3 < 2 ^ 32
    · exact markEvents_visits (fun l w => (stale l w).toNat_lt) hwrap hin
    · refine ⟨_, markEvents_wrap hwrap hin, visits_nothing_iff.mpr ?_⟩
      intro offsets hmem
      exact List.eq_nil_iff_forall_not_mem.mpr fun o ho =>
        hwrap (hnonempty offsets hmem o ho).no_wrap
  · intro offsets hmem o ho l hl
    exact mark_inside (hnonempty offsets hmem o ho).no_wrap (hin offsets hmem o ho).2 hl

theorem marks_right_two :
    (∃ lists, markEvents 16 (fun _ _ => (7 : UInt32).toNat) [[12, 0, 4, 8, 12], [4, 0]] =
          some lists ∧
        List.Forall₂ Visits [[12, 0, 4, 8, 12], [4, 0]] lists) ∧
      ∀ offsets ∈ [[12, 0, 4, 8, 12], [4, 0]], ∀ o ∈ offsets, ∀ l ≤ 2,
        o / 4 / bucketBits ^ (2 - l) / bucketBits < numMasksAt 16 l := by
  have hfillable : Fillable 16 := by
    let plain := externalWriterMarkCanary
    let control := externalWriterMarkCanary ||| externalWriterMarkLoop ||| externalWriterMarkClearZero
    refine ⟨⟨true, none, 0, 16, 0⟩, ⟨52, [0, plain, 0, control, 4, 1, 2, plain, 8, plain, 12],
      by decide, .inl rfl, by decide⟩, ⟨[plain, 0, control, 4, 1, 2, plain, 8, plain, 12], 2, 4⟩,
      rfl, ?_⟩
    decide +kernel
  exact marks_right 16 (fun _ _ => 7) [[12, 0, 4, 8, 12], [4, 0]] (by unfold Inside; decide)
    fun _ _ _ => hfillable

section Reserve

/-- What comes with an event, within the `left` bytes of its message: the words to sort on, the
indices, the raw words after their number, and the marker. -/
structure FillMessage where
  sort : List UInt32
  structIndex : UInt32
  ntupleIndex : UInt32
  raw : Option (List UInt32)
  left : UInt32
  fits : 4 * (sort.length + (raw.elim 0 fun raw => 1 + raw.length) + 3) ≤ left.toNat

variable (msg : FillMessage)

def FillMessage.rawWords : UInt32 :=
  msg.raw.elim 0 fun raw => 1 + UInt32.ofNat raw.length

def maxLength (size : UInt32) (items : Nat) : Nat :=
  (rewriteMaxBytesPerItem size.toNat * (items + 1) + 3) / 4 * 4 + 8 +
    (UInt32.ofNat msg.sort.length + msg.rawWords + 3).toNat * 4

def FillMessage.words (length mark : UInt32) : List UInt32 :=
  [0x76c3000b, length] ++ msg.sort ++ [msg.structIndex, msg.ntupleIndex] ++
    (msg.raw.elim [] fun raw => UInt32.ofNat raw.length :: raw) ++ [mark]

def itemOffset (item : Nat) : Nat := item * 4 % 2 ^ 32

def itemStore (length cur item : Nat) : Option Nat :=
  (storeOffset (itemOffset item) cur).bind fun store =>
    if length < itemOffset item + 4 then none else some store

def packedItems (length : Nat) (ptr : Nat → UInt32) : Nat → List Nat → List UInt8 × Option Nat
  | cur, [] => ([], some cur)
  | cur, item :: items =>
    (itemStore length cur item).elim ([], none) fun store =>
      let (bytes, last) := packedItems length ptr (itemOffset item + 4) items
      (compactItem store (ptr (itemOffset item)) ++ bytes, last)

def endJump (length cur : Nat) : Option (List UInt8) :=
  if cur = length then some []
  else (storeOffset ((length + 2 ^ 32 - 4) % 2 ^ 32) cur).map fun store => compactItem store 0

/-- What is written, and the length for the header. There is none when an assertion has failed
before. -/
structure PackedChunk where
  words : List UInt32
  bytes : List UInt8
  newLength : Option UInt32

def packEvent (size : UInt32) (ptr : Nat → UInt32) (stale : Nat → Nat → Nat) (offsets : List Nat) :
    Option PackedChunk := do
  let masks ← markEvent size stale offsets
  let (bytes, cur) := packedItems size.toNat ptr 0 (visitItems size masks)
  match cur.bind (endJump size.toNat) with
  | none => return { words := msg.words 0xffffffff 0, bytes, newLength := none }
  | some tail =>
    let compact := bytes ++ tail
    let mark := 0x80000000 ||| UInt32.ofNat compact.length
    let dest := 4 * (msg.words 0 mark).length + compact.length
    let newLength := UInt32.ofNat ((dest + 3) / 4 * 4)
    return {
      words := msg.words newLength mark
      bytes := compact ++ List.replicate ((4 - dest % 4) % 4) 0
      newLength := some newLength }

variable {msg} {size : UInt32} {ptr : Nat → UInt32} {offsets : List Nat}

theorem packedItems_eq {length cur last : Nat} {items : List Nat} {bytes : List UInt8}
    (h : compactItems length ptr cur items = some (bytes, last)) :
    packedItems length ptr cur items = (bytes, some last) := by
  induction items generalizing cur bytes with
  | nil =>
    cases h
    rfl
  | cons item items ih =>
    unfold compactItems at h
    unfold packedItems
    change ((storeOffset (itemOffset item) cur).bind fun store =>
      if length < itemOffset item + 4 then none
      else (compactItems length ptr (itemOffset item + 4) items).bind fun p =>
        some (compactItem store (ptr (itemOffset item)) ++ p.1, p.2)) = some (bytes, last) at h
    obtain ⟨store, hstore, h⟩ := Option.bind_eq_some_iff.mp h
    by_cases hin : length < itemOffset item + 4
    · rw [if_pos hin] at h
      cases h
    · rw [if_neg hin] at h
      obtain ⟨⟨rest, stop⟩, hrest, h⟩ := Option.bind_eq_some_iff.mp h
      cases h
      have hitem : itemStore length cur item = some store := by
        rw [itemStore, hstore, Option.bind_some, if_neg hin]
      rw [hitem, Option.elim_some, ih hrest]

theorem fillWords_length (length mark : UInt32) :
    4 * (msg.words length mark).length =
      8 + (UInt32.ofNat msg.sort.length + msg.rawWords + 3).toNat * 4 := by
  have hfits := msg.fits
  have hlt := msg.left.toNat_lt
  unfold FillMessage.words FillMessage.rawWords
  cases hraw : msg.raw with
  | none =>
    rw [hraw] at hfits
    simp only [Option.elim_none] at hfits
    simp only [Option.elim_none, List.length_append, List.length_cons, List.length_nil,
      UInt32.toNat_add, UInt32.toNat_ofNat']
    have h0 : (0 : UInt32).toNat = 0 := rfl
    have h3 : (3 : UInt32).toNat = 3 := rfl
    rw [h0, h3]
    omega
  | some raw =>
    rw [hraw] at hfits
    simp only [Option.elim_some] at hfits
    simp only [Option.elim_some, List.length_append, List.length_cons, List.length_nil,
      UInt32.toNat_add, UInt32.toNat_ofNat']
    have h1 : (1 : UInt32).toNat = 1 := rfl
    have h3 : (3 : UInt32).toNat = 3 := rfl
    rw [h1, h3]
    omega

theorem visitItems_run {stale : Nat → Nat → Nat} (hstale : WordsFit stale)
    (hin : Inside size offsets) :
    ∃ bytes last, packedItems size.toNat ptr 0 (visitItems size (eventMasks stale offsets)) =
        (bytes, some last) ∧
      4 ∣ last ∧ last ≤ size.toNat ∧
        bytes.length ≤ rewriteMaxBytesPerItem size.toNat * offsets.length := by
  by_cases hwrap : size.toNat + 3 < 2 ^ 32
  · rw [visitItems_eq hwrap]
    have hitems : ∀ i ∈ eventItems size.toNat (eventMasks stale offsets),
        0 ≤ i * 4 ∧ i * 4 + 4 ≤ size.toNat := by
      intro i hi
      exact ⟨Nat.zero_le _, (hin _ ((mem_eventItems hstale hin i).mp hi)).2⟩
    obtain ⟨bytes, last, hbytes, hrun⟩ := compactItems_run ptr size.toNat_lt (Nat.zero_le _)
      (Nat.dvd_zero 4) (eventItems_sorted hstale size.toNat offsets) hitems
    refine ⟨bytes, last, packedItems_eq hbytes, hrun.aligned, hrun.last_le, ?_⟩
    exact hrun.bytes_le.trans
      (Nat.mul_le_mul_left _ (eventItems_length_le hstale hin))
  · rw [visitItems_wrap hwrap]
    exact ⟨[], 0, rfl, Nat.dvd_zero 4, Nat.zero_le _, Nat.zero_le _⟩

theorem endJump_some {length last : Nat} (hlt : length < 2 ^ 32) (h4 : 4 ∣ last)
    (hle : last ≤ length) : (∃ tail, endJump length last = some tail) ↔ 4 ∣ length := by
  unfold endJump
  by_cases heq : last = length
  · rw [if_pos heq]
    exact iff_of_true ⟨[], rfl⟩ (heq ▸ h4)
  · rw [if_neg heq]
    have hand : ((length + 2 ^ 32 - 4) % 2 ^ 32 + 2 ^ 32 - last) % 2 ^ 32 &&& 3 = length % 4 := by
      have hmod : ∀ x : Nat, x &&& 3 = x % 4 := fun x => Nat.and_two_pow_sub_one_eq_mod x 2
      rw [hmod]
      omega
    unfold storeOffset
    simp only [hand]
    split
    · refine iff_of_false nofun ?_
      omega
    · exact iff_of_true ⟨_, rfl⟩ (by omega)

theorem endJump_length {length last : Nat} {tail : List UInt8} (hlt : length < 2 ^ 32)
    (h4 : 4 ∣ last) (hle : last ≤ length) (h : endJump length last = some tail) :
    tail.length ≤ rewriteMaxBytesPerItem length := by
  have hlen : 4 ∣ length := (endJump_some hlt h4 hle).mp ⟨tail, h⟩
  unfold endJump at h
  by_cases heq : last = length
  · rw [if_pos heq] at h
    cases h
    exact Nat.zero_le _
  · rw [if_neg heq] at h
    have hroom : (length + 2 ^ 32 - 4) % 2 ^ 32 = length - 4 := by omega
    have hroom' : last ≤ length - 4 := by omega
    obtain ⟨store, hstore, hdist⟩ := storeOffset_eq hroom' (by omega) h4 (by omega)
    rw [hroom, hstore] at h
    cases h
    exact compactItem_fits (by omega) hlt

end Reserve

/-- Whatever is filled, the message fits into what was reserved for it, as far as it is written; it is
written for the arrays of whole items. -/
theorem packed_fits (msg : FillMessage) (size : UInt32) (ptr : Nat → UInt32)
    (stale : Nat → Nat → UInt32) (offsets : List Nat) (hin : Inside size offsets) :
    ∃ chunk, packEvent msg size ptr (fun l w => (stale l w).toNat) offsets = some chunk ∧
      4 * chunk.words.length + chunk.bytes.length ≤ maxLength msg size offsets.length ∧
      (∀ newLength, chunk.newLength = some newLength →
        newLength.toNat ≤ maxLength msg size offsets.length) ∧
      ((∃ newLength, chunk.newLength = some newLength) ↔ 4 ∣ size.toNat) := by
  have hstale : WordsFit fun l w => (stale l w).toNat := fun l w => (stale l w).toNat_lt
  obtain ⟨bytes, last, hrun, h4, hle, hlen⟩ :=
    @visitItems_run size ptr offsets _ hstale hin
  have hsome := endJump_some size.toNat_lt h4 hle
  unfold packEvent
  rw [markEvent_some hin]
  simp only [Option.bind_eq_bind, Option.bind_some, hrun]
  cases hjump : endJump size.toNat last with
  | none =>
    refine ⟨_, rfl, ?_, nofun, ?_⟩
    · unfold maxLength
      rw [fillWords_length, Nat.mul_add, Nat.mul_one]
      dsimp only
      omega
    · rw [hjump] at hsome
      rw [← hsome]
      exact iff_of_false nofun nofun
  | some tail =>
    have htail := endJump_length size.toNat_lt h4 hle hjump
    have hcompact : (bytes ++ tail).length ≤
        rewriteMaxBytesPerItem size.toNat * (offsets.length + 1) := by
      rw [List.length_append, Nat.mul_add, Nat.mul_one]
      omega
    have hwords : ∀ length mark, 4 * (msg.words length mark).length =
        8 + (UInt32.ofNat msg.sort.length + msg.rawWords + 3).toNat * 4 := fillWords_length
    refine ⟨_, rfl, ?_, ?_, iff_of_true ⟨_, rfl⟩ (hsome.mp ⟨tail, hjump⟩)⟩
    · unfold maxLength
      simp only [hwords, List.length_append, List.length_replicate] at hcompact ⊢
      omega
    · intro newLength h
      cases h
      unfold maxLength
      rw [hwords, UInt32.toNat_ofNat']
      omega

theorem packed_fits_three :
    ∃ chunk, packEvent ⟨[3], 0, 0, some [5, 6], 100, by decide⟩ 400
        (fun o => UInt32.ofNat (o * 4099)) (fun _ _ => (7 : UInt32).toNat) [40, 0, 40] =
          some chunk ∧
      4 * chunk.words.length + chunk.bytes.length ≤
        maxLength ⟨[3], 0, 0, some [5, 6], 100, by decide⟩ 400 3 ∧
      (∀ newLength, chunk.newLength = some newLength →
        newLength.toNat ≤ maxLength ⟨[3], 0, 0, some [5, 6], 100, by decide⟩ 400 3) ∧
      ((∃ newLength, chunk.newLength = some newLength) ↔ 4 ∣ (400 : UInt32).toNat) :=
  packed_fits ⟨[3], 0, 0, some [5, 6], 100, by decide⟩ 400 (fun o => UInt32.ofNat (o * 4099))
    (fun _ _ => 7) [40, 0, 40] (by unfold Inside; decide)

end Ucesb
