import Ucesb.Checks
import Ucesb.CompactEvent

namespace Ucesb

inductive DecodeFault
  /-- a byte behind the end of the message -/
  | read
  /-- a word that is not within the destination -/
  | write
  /-- by 32 bits or more -/
  | shift
  /-- the turns given to a loop are used up -/
  | endless
deriving DecidableEq

inductive DecodeStop
  | code (n : Int)
  | fault (f : DecodeFault)
deriving DecidableEq

def readByte : List UInt8 → Except DecodeStop (Nat × List UInt8)
  | [] => .error (.fault .read)
  | b :: src => .ok (b.toNat, src)

/-- `<<` on 32 bits. -/
def shiftLeft (v shift : Nat) : Except DecodeStop Nat := do
  errorIf (32 ≤ shift) (.fault .shift)
  return v <<< shift % 2 ^ 32

structure ItemStart where
  offset : Nat
  shift : Nat
  v : Nat
  src : List UInt8
deriving DecidableEq

def offsetGroups : Nat → Nat → Nat → Nat → List UInt8 → Except DecodeStop ItemStart
  | 0, _, _, _, _ => .error (.fault .endless)
  | fuel + 1, offset, shift, v, src =>
    if v &&& 0x80 ≠ 0 then do
      let group ← shiftLeft (v &&& 0x7f) shift
      errorIf (src = []) (.code (-1))
      let (v, src) ← readByte src
      offsetGroups fuel ((offset + group) % 2 ^ 32) (shift + 7) v src
    else .ok ⟨offset, shift, v, src⟩

structure ItemRead where
  offset : Nat
  value : Nat
  src : List UInt8
deriving DecidableEq

def readWord4 (src : List UInt8) : Except DecodeStop (Nat × List UInt8) := do
  let (b3, src) ← readByte src
  let (b2, src) ← readByte src
  let (b1, src) ← readByte src
  let (b0, src) ← readByte src
  return (b3 <<< 24 ||| b2 <<< 16 ||| b1 <<< 8 ||| b0, src)

def decodedValue (i : ItemStart) : Except DecodeStop ItemRead :=
  if i.v >>> 5 = 0 then .ok ⟨i.offset, i.v &&& 0x1f, i.src⟩
  else if i.v >>> 5 = 1 then do
    errorIf (i.src = []) (.code (-2))
    let (low, src) ← readByte i.src
    return ⟨i.offset, (i.v &&& 0x1f) <<< 8 ||| low, src⟩
  else if i.v >>> 5 = 2 then do
    let high ← shiftLeft (i.v &&& 0x1f) i.shift
    errorIf (i.src.length ≤ 3) (.code (-3))
    let (value, src) ← readWord4 i.src
    return ⟨(i.offset + high) % 2 ^ 32, value, src⟩
  else do
    let high ← shiftLeft (i.v &&& 0x0f) i.shift
    -- `0x10` shifts all bits out: zero, not the pattern
    let value ← shiftLeft 0x7fc00000 (i.v &&& 0x10)
    return ⟨(i.offset + high) % 2 ^ 32, value, i.src⟩

def readItem (offset : Nat) (src : List UInt8) : Except DecodeStop ItemRead := do
  let (v, src) ← readByte src
  let start ← offsetGroups (src.length + 1) offset 2 v src
  decodedValue start

def storeWord (destSize : Nat) (dest : Nat → UInt32) (offset value : Nat) :
    Except DecodeStop (Nat → UInt32) := do
  errorIf (destSize < offset + 4) (.fault .write)
  return Function.update dest offset (UInt32.ofNat value)

structure Decoded where
  dest : Nat → UInt32
  offset : Nat
  src : List UInt8

def bitpackedItems (destSize : Nat) : Nat → (Nat → UInt32) → Nat → List UInt8 →
    Except DecodeStop Decoded
  | fuel, dest, offset, src =>
    if src = [] then .ok ⟨dest, offset, src⟩
    else
      match fuel with
      | 0 => .error (.fault .endless)
      | fuel + 1 => do
        let item ← readItem offset src
        errorIf (destSize < item.offset + 4) (.code (-4))
        let dest ← storeWord destSize dest item.offset item.value
        bitpackedItems destSize fuel dest ((item.offset + 4) % 2 ^ 32) item.src

def decodeBitpacked (destSize : Nat) (dest : Nat → UInt32) (msg : List UInt8) :
    Except DecodeStop Decoded := do
  let d ← bitpackedItems destSize msg.length dest 0 msg
  errorIf (d.offset ≠ destSize) (.code (-6))
  return d

/-- Nothing undefined is done, and success means that all of the message and of the destination has
been gone through. -/
def BitpackedSafe (destSize : Nat) (dest : Nat → UInt32) (msg : List UInt8) : Prop :=
  Ends (fun stop => ∃ n, stop = .code n) (fun d => d.src = [] ∧ d.offset = destSize)
    (decodeBitpacked destSize dest msg)

def groupsValue : Nat → List UInt8 → Nat
  | _, [] => 0
  | shift, g :: gs => g.toNat % 128 * 2 ^ shift + groupsValue (shift + 7) gs

def highValue (shift : Nat) (t : UInt8) : Nat :=
  if t.toNat < 0x40 then 0
  else if t.toNat < 0x60 then t.toNat % 32 * 2 ^ shift
  else t.toNat % 16 * 2 ^ shift

def valueBytes (t : UInt8) : Nat :=
  if t.toNat < 0x20 then 0
  else if t.toNat < 0x40 then 1
  else if t.toNat < 0x60 then 4
  else 0

structure ItemBytes (groups : List UInt8) (t : UInt8) (value : List UInt8) : Prop where
  groups : ∀ g ∈ groups, 0x80 ≤ g.toNat
  last : t.toNat < 0x80
  value : value.length = valueBytes t

def itemDistance (groups : List UInt8) (t : UInt8) : Nat :=
  groupsValue 2 groups + highValue (2 + 7 * groups.length) t

def FarStart (msg : List UInt8) : Prop :=
  ∃ groups b rest, msg = groups ++ b :: rest ∧ groups.length = 5 ∧
    (∀ g ∈ groups, 0x80 ≤ g.toNat) ∧ 0x40 ≤ b.toNat

/-- An item starts with too many bits of its offset, and all items before it are whole and within
the destination. -/
inductive FarItem (destSize : Nat) : Nat → List UInt8 → Prop
  | here {offset : Nat} {msg : List UInt8} : FarStart msg → FarItem destSize offset msg
  | later {offset o : Nat} {groups value rest : List UInt8} {t : UInt8} :
      ItemBytes groups t value → o = (offset + itemDistance groups t) % 2 ^ 32 →
      o + 4 ≤ destSize → FarItem destSize ((o + 4) % 2 ^ 32) rest →
      FarItem destSize offset (groups ++ t :: (value ++ rest))

section Item

variable {fuel offset shift destSize : Nat} {v b t : UInt8} {src groups value rest : List UInt8}

theorem and_byte (b : UInt8) : (b.toNat &&& 0x80 = 0 ↔ b.toNat < 0x80) ∧
    b.toNat &&& 0x7f = b.toNat % 128 ∧ b.toNat &&& 0x1f = b.toNat % 32 ∧
    b.toNat &&& 0x0f = b.toNat % 16 ∧ b.toNat >>> 5 = b.toNat / 32 := by
  have hall : ∀ x < 256, (x &&& 0x80 = 0 ↔ x < 0x80) := by decide +kernel
  exact ⟨hall _ b.toNat_lt, Nat.and_two_pow_sub_one_eq_mod _ 7,
    Nat.and_two_pow_sub_one_eq_mod _ 5, Nat.and_two_pow_sub_one_eq_mod _ 4,
    Nat.shiftRight_eq_div_pow _ 5⟩

theorem shiftLeft_ok (h : shift < 32) (x : Nat) :
    shiftLeft x shift = .ok (x * 2 ^ shift % 2 ^ 32) := by
  rw [shiftLeft, errorIf, if_neg (by omega), Nat.shiftLeft_eq]
  rfl

theorem shiftLeft_far (h : 32 ≤ shift) (x : Nat) :
    shiftLeft x shift = .error (.fault .shift) := by
  rw [shiftLeft, errorIf, if_pos h]
  rfl

theorem offsetGroups_last (ht : t.toNat < 0x80) :
    offsetGroups (fuel + 1) offset shift t.toNat src = .ok ⟨offset, shift, t.toNat, src⟩ := by
  have hflag := (and_byte t).1
  rw [offsetGroups, if_neg (by omega)]

theorem offsetGroups_far (hb : 0x80 ≤ b.toNat) (hs : 32 ≤ shift) :
    offsetGroups (fuel + 1) offset shift b.toNat src = .error (.fault .shift) := by
  have hflag := (and_byte b).1
  rw [offsetGroups, if_pos (by omega), shiftLeft_far hs]
  rfl

theorem offsetGroups_end (hb : 0x80 ≤ b.toNat) (hs : shift < 32) :
    offsetGroups (fuel + 1) offset shift b.toNat [] = .error (.code (-1)) := by
  have hflag := (and_byte b).1
  rw [offsetGroups, if_pos (by omega), shiftLeft_ok hs]
  rfl

theorem offsetGroups_group (hv : 0x80 ≤ v.toNat) (hs : shift < 32) :
    offsetGroups (fuel + 1) offset shift v.toNat (b :: src) =
      offsetGroups fuel ((offset + v.toNat % 128 * 2 ^ shift) % 2 ^ 32) (shift + 7) b.toNat
        src := by
  obtain ⟨hflag, hlow, -⟩ := and_byte v
  rw [offsetGroups, if_pos (by omega), hlow, shiftLeft_ok hs]
  simp [errorIf, readByte, bind, Except.bind]

theorem offsetGroups_run {k : Nat} (hsplit : v :: src = groups ++ b :: rest)
    (hgroups : ∀ g ∈ groups, 0x80 ≤ g.toNat) (hk : groups.length + k ≤ 5)
    (hoffset : offset < 2 ^ 32) (hfuel : src.length < fuel) :
    ∃ fuel', offsetGroups fuel offset (2 + 7 * k) v.toNat src =
      offsetGroups (fuel' + 1) ((offset + groupsValue (2 + 7 * k) groups) % 2 ^ 32)
        (2 + 7 * (groups.length + k)) b.toNat rest := by
  induction groups generalizing v src offset fuel k with
  | nil =>
    obtain ⟨rfl, rfl⟩ := List.cons.inj hsplit
    refine ⟨fuel - 1, ?_⟩
    simp only [groupsValue, Nat.add_zero, List.length_nil, Nat.zero_add]
    rw [Nat.mod_eq_of_lt hoffset, Nat.sub_add_cancel (by omega)]
  | cons g groups ih =>
    obtain ⟨rfl, hsrc⟩ := List.cons.inj hsplit
    rw [List.length_cons] at hk
    obtain ⟨fuel, rfl⟩ : ∃ n, fuel = n + 1 := ⟨fuel - 1, by omega⟩
    cases src with
    | nil => simp at hsrc
    | cons v' src =>
      have hlt : 2 + 7 * k < 32 := by omega
      rw [offsetGroups_group (hgroups v (by simp)) hlt]
      obtain ⟨fuel', hrun⟩ := ih (k := k + 1) hsrc (fun g hg => hgroups g (by simp [hg]))
        (by omega) (Nat.mod_lt (offset + v.toNat % 128 * 2 ^ (2 + 7 * k)) (by decide))
        (by simpa using hfuel)
      refine ⟨fuel', ?_⟩
      rw [show 2 + 7 * k + 7 = 2 + 7 * (k + 1) by omega, hrun]
      congr 1
      · rw [groupsValue, show 2 + 7 * k + 7 = 2 + 7 * (k + 1) by omega]
        omega
      · rw [List.length_cons]
        omega

theorem decodedValue_far (ht : 0x40 ≤ t.toNat) (hs : 32 ≤ shift) :
    decodedValue ⟨offset, shift, t.toNat, src⟩ = .error (.fault .shift) := by
  have hdiv := (and_byte t).2.2.2.2
  unfold decodedValue
  simp only [hdiv]
  rw [if_neg (by omega), if_neg (by omega)]
  split
  · rw [shiftLeft_far hs]
    rfl
  · rw [shiftLeft_far hs]
    rfl

theorem decodedValue_ok (shift : Nat) (rest : List UInt8) (ht : t.toNat < 0x80)
    (hoffset : offset < 2 ^ 32) (hs : t.toNat < 0x40 ∨ shift < 32)
    (hvalue : value.length = valueBytes t) :
    ∃ x, decodedValue ⟨offset, shift, t.toNat, value ++ rest⟩ =
      .ok ⟨(offset + highValue shift t) % 2 ^ 32, x, rest⟩ := by
  obtain ⟨-, -, h5, h4, hdiv⟩ := and_byte t
  unfold decodedValue
  unfold valueBytes at hvalue
  unfold highValue
  simp only [hdiv, h5, h4]
  by_cases h0 : t.toNat < 0x20
  · rw [if_pos h0] at hvalue
    rw [if_pos (by omega), if_pos (by omega), List.length_eq_zero_iff.mp hvalue, Nat.add_zero,
      Nat.mod_eq_of_lt hoffset]
    exact ⟨_, rfl⟩
  rw [if_neg h0] at hvalue
  rw [if_neg (by omega)]
  by_cases h1 : t.toNat < 0x40
  · rw [if_pos h1] at hvalue
    obtain ⟨low, rfl⟩ := List.length_eq_one_iff.mp hvalue
    rw [if_pos (by omega), if_pos h1, Nat.add_zero, Nat.mod_eq_of_lt hoffset]
    exact ⟨_, rfl⟩
  rw [if_neg h1] at hvalue
  have hlt : shift < 32 := hs.resolve_left h1
  rw [if_neg (by omega), if_neg h1, shiftLeft_ok hlt, shiftLeft_ok hlt]
  by_cases h2 : t.toNat < 0x60
  · rw [if_pos h2] at hvalue
    rw [if_pos (by omega), if_pos h2]
    obtain ⟨b3, b2, b1, b0, rfl⟩ : ∃ b3 b2 b1 b0, value = [b3, b2, b1, b0] := by
      match value, hvalue with
      | [b3, b2, b1, b0], _ => exact ⟨b3, b2, b1, b0, rfl⟩
    refine ⟨b3.toNat <<< 24 ||| b2.toNat <<< 16 ||| b1.toNat <<< 8 ||| b0.toNat, ?_⟩
    rw [← Nat.add_mod_mod]
    rfl
  · rw [if_neg h2] at hvalue
    have h10 : t.toNat &&& 0x10 < 32 :=
      Nat.lt_of_le_of_lt Nat.and_le_right (by decide)
    rw [if_neg (by omega), if_neg h2, List.length_eq_zero_iff.mp hvalue, shiftLeft_ok h10]
    refine ⟨0x7fc00000 * 2 ^ (t.toNat &&& 0x10) % 2 ^ 32, ?_⟩
    rw [← Nat.add_mod_mod]
    rfl

theorem readItem_cons (offset : Nat) (v : UInt8) (src : List UInt8) :
    readItem offset (v :: src) =
      (offsetGroups (src.length + 1) offset 2 v.toNat src >>= decodedValue) := rfl

theorem readItem_far {msg : List UInt8} (hoffset : offset < 2 ^ 32) (h : FarStart msg) :
    readItem offset msg = .error (.fault .shift) := by
  obtain ⟨groups, b, rest, hmsg, hlen, hgroups, hb⟩ := h
  cases msg with
  | nil => simp at hmsg
  | cons v src =>
    obtain ⟨fuel, hrun⟩ := offsetGroups_run (k := 0) hmsg hgroups (by omega) hoffset
      (Nat.lt_succ_self src.length)
    rw [readItem_cons, hrun, hlen]
    by_cases hcont : 0x80 ≤ b.toNat
    · rw [offsetGroups_far hcont (by omega)]
      rfl
    · rw [offsetGroups_last (Nat.not_le.mp hcont)]
      exact decodedValue_far hb (by omega)

theorem farStart_of_groups (hgroups : ∀ g ∈ groups, 0x80 ≤ g.toNat)
    (h : 6 ≤ groups.length ∨ groups.length = 5 ∧ 0x40 ≤ t.toNat) :
    FarStart (groups ++ t :: rest) := by
  rcases h with h | ⟨hlen, ht⟩
  · have h5 : 5 < groups.length := h
    refine ⟨groups.take 5, groups[5], groups.drop 6 ++ t :: rest, ?_, by simp; omega,
      fun g hg => hgroups g (List.mem_of_mem_take hg), ?_⟩
    · rw [← List.cons_append, List.getElem_cons_drop, ← List.append_assoc, List.take_append_drop]
    · have := hgroups groups[5] (List.getElem_mem h5)
      omega
  · exact ⟨groups, t, rest, rfl, hlen, hgroups, ht⟩

theorem near_groups (hgroups : ∀ g ∈ groups, 0x80 ≤ g.toNat)
    (hnear : ¬FarStart (groups ++ t :: rest)) :
    groups.length ≤ 5 ∧ (t.toNat < 0x40 ∨ 2 + 7 * groups.length < 32) := by
  constructor
  · by_contra h
    exact hnear (farStart_of_groups hgroups (by omega))
  · by_contra h
    exact hnear (farStart_of_groups hgroups (by omega))

theorem exists_cons (groups : List UInt8) (t : UInt8) (rest : List UInt8) :
    ∃ v src, groups ++ t :: rest = v :: src := by
  cases groups with
  | nil => exact ⟨t, _, rfl⟩
  | cons g groups => exact ⟨g, _, rfl⟩

theorem readItem_type (hoffset : offset < 2 ^ 32) (hgroups : ∀ g ∈ groups, 0x80 ≤ g.toNat)
    (ht : t.toNat < 0x80) (hlen : groups.length ≤ 5) :
    readItem offset (groups ++ t :: rest) =
      decodedValue ⟨(offset + groupsValue 2 groups) % 2 ^ 32, 2 + 7 * groups.length, t.toNat,
        rest⟩ := by
  obtain ⟨v, src, hsplit⟩ := exists_cons groups t rest
  obtain ⟨fuel, hrun⟩ := offsetGroups_run (k := 0) hsplit.symm hgroups (by omega) hoffset
    (Nat.lt_succ_self src.length)
  rw [hsplit, readItem_cons, hrun, offsetGroups_last ht]
  rfl

theorem readItem_whole (hoffset : offset < 2 ^ 32) (hitem : ItemBytes groups t value)
    (hnear : ¬FarStart (groups ++ t :: (value ++ rest))) :
    ∃ x, readItem offset (groups ++ t :: (value ++ rest)) =
      .ok ⟨(offset + itemDistance groups t) % 2 ^ 32, x, rest⟩ := by
  obtain ⟨hlen, hshift⟩ := near_groups hitem.groups hnear
  have hlast : (offset + groupsValue 2 groups) % 2 ^ 32 < 2 ^ 32 := Nat.mod_lt _ (by decide)
  obtain ⟨x, hx⟩ := decodedValue_ok (2 + 7 * groups.length) rest hitem.last hlast hshift hitem.value
  refine ⟨x, ?_⟩
  rw [readItem_type hoffset hitem.groups hitem.last hlen, hx, itemDistance, ← Nat.add_assoc,
    Nat.mod_add_mod]

theorem groups_split (msg : List UInt8) :
    (∀ g ∈ msg, 0x80 ≤ g.toNat) ∨ ∃ groups t rest, msg = groups ++ t :: rest ∧
      (∀ g ∈ groups, 0x80 ≤ g.toNat) ∧ t.toNat < 0x80 := by
  induction msg with
  | nil => exact .inl (by simp)
  | cons v msg ih =>
    by_cases hv : v.toNat < 0x80
    · exact .inr ⟨[], v, msg, rfl, by simp, hv⟩
    · rcases ih with hall | ⟨groups, t, rest, rfl, hgroups, ht⟩
      · exact .inl (by simpa using ⟨by omega, hall⟩)
      · exact .inr ⟨v :: groups, t, rest, rfl, by simpa using ⟨by omega, hgroups⟩, ht⟩

theorem readItem_unfinished {msg : List UInt8} (hoffset : offset < 2 ^ 32) (hne : msg ≠ [])
    (hgroups : ∀ g ∈ msg, 0x80 ≤ g.toNat) (hnear : ¬FarStart msg) :
    readItem offset msg = .error (.code (-1)) := by
  have hlast := List.dropLast_append_getLast hne
  have hlt : 0x80 ≤ (msg.getLast hne).toNat := hgroups _ (List.getLast_mem hne)
  rw [← hlast] at hnear ⊢
  have hinit : ∀ g ∈ msg.dropLast, 0x80 ≤ g.toNat :=
    fun g hg => hgroups g (List.dropLast_subset msg hg)
  obtain ⟨hlen, hshift⟩ := near_groups hinit hnear
  obtain ⟨v, src, hsplit⟩ := exists_cons msg.dropLast (msg.getLast hne) []
  obtain ⟨fuel, hrun⟩ := offsetGroups_run (k := 0) hsplit.symm hinit (by omega) hoffset
    (Nat.lt_succ_self src.length)
  rw [hsplit, readItem_cons, hrun, offsetGroups_end hlt (by omega)]
  rfl

theorem decodedValue_short (ht : t.toNat < 0x80) (hs : t.toNat < 0x40 ∨ shift < 32)
    (hshort : rest.length < valueBytes t) :
    ∃ n, decodedValue ⟨offset, shift, t.toNat, rest⟩ = .error (.code n) := by
  obtain ⟨-, -, h5, -, hdiv⟩ := and_byte t
  unfold valueBytes at hshort
  unfold decodedValue
  simp only [hdiv, h5]
  split at hshort
  · omega
  rw [if_neg (by omega)]
  split at hshort
  · rw [if_pos (by omega), List.length_eq_zero_iff.mp (Nat.lt_one_iff.mp hshort)]
    exact ⟨-2, rfl⟩
  rw [if_neg (by omega)]
  split at hshort
  · rw [if_pos (by omega), shiftLeft_ok (by omega)]
    refine ⟨-3, ?_⟩
    show (errorIf (rest.length ≤ 3) (DecodeStop.code (-3)) >>= _) = _
    rw [errorIf, if_pos (by omega)]
    rfl
  · omega

theorem readItem_cases {msg : List UInt8} (hoffset : offset < 2 ^ 32) (hne : msg ≠ [])
    (hnear : ¬FarStart msg) :
    (∃ groups t value rest, msg = groups ++ t :: (value ++ rest) ∧ ItemBytes groups t value) ∨
      ∃ n, readItem offset msg = .error (.code n) := by
  rcases groups_split msg with hall | ⟨groups, t, rest, rfl, hgroups, ht⟩
  · exact .inr ⟨-1, readItem_unfinished hoffset hne hall hnear⟩
  · by_cases hlen : valueBytes t ≤ rest.length
    · left
      exact ⟨groups, t, rest.take (valueBytes t), rest.drop (valueBytes t), by simp, hgroups, ht,
        by simp [hlen]⟩
    · right
      obtain ⟨hle, hshift⟩ := near_groups hgroups hnear
      rw [readItem_type hoffset hgroups ht hle]
      exact decodedValue_short ht hshift (Nat.not_le.mp hlen)

end Item

section Items

variable {fuel offset destSize : Nat} {dest : Nat → UInt32} {msg : List UInt8}

theorem bitpackedItems_nil :
    bitpackedItems destSize fuel dest offset [] = .ok ⟨dest, offset, []⟩ := by
  unfold bitpackedItems
  rfl

theorem bitpackedItems_whole {groups value rest : List UInt8} {t : UInt8} {o : Nat}
    (destSize fuel : Nat) (dest : Nat → UInt32) (hoffset : offset < 2 ^ 32)
    (hitem : ItemBytes groups t value)
    (hnear : ¬FarStart (groups ++ t :: (value ++ rest)))
    (ho : o = (offset + itemDistance groups t) % 2 ^ 32) :
    ∃ dest', bitpackedItems destSize (fuel + 1) dest offset (groups ++ t :: (value ++ rest)) =
      if destSize < o + 4 then .error (.code (-4))
      else bitpackedItems destSize fuel dest' ((o + 4) % 2 ^ 32) rest := by
  obtain ⟨x, hx⟩ := readItem_whole hoffset hitem hnear
  refine ⟨Function.update dest o (UInt32.ofNat x), ?_⟩
  rw [bitpackedItems, if_neg (by simp), hx, ← ho]
  by_cases h : destSize < o + 4
  · simp [errorIf, h, bind, Except.bind]
  · simp [errorIf, storeWord, h, bind, Except.bind, pure, Except.pure]

theorem bitpackedItems_far (hoffset : offset < 2 ^ 32) (h : FarStart msg)
    (hfuel : msg.length ≤ fuel) :
    bitpackedItems destSize fuel dest offset msg = .error (.fault .shift) := by
  have hne : msg ≠ [] := by
    obtain ⟨groups, b, rest, rfl, -⟩ := h
    simp
  obtain ⟨fuel, rfl⟩ : ∃ n, fuel = n + 1 :=
    ⟨fuel - 1, by have := List.length_pos_iff.mpr hne; omega⟩
  rw [bitpackedItems, if_neg hne, readItem_far hoffset h]
  rfl

theorem bitpackedItems_code (hne : msg ≠ []) {n : Int}
    (h : readItem offset msg = .error (.code n)) :
    bitpackedItems destSize (fuel + 1) dest offset msg = .error (.code n) := by
  rw [bitpackedItems, if_neg hne, h]
  rfl

theorem lt_word (n : Nat) : n % 2 ^ 32 < 2 ^ 32 := Nat.mod_lt n (by decide)

theorem farItem_of_fault {f : DecodeFault} (hoffset : offset < 2 ^ 32) (hfuel : msg.length ≤ fuel)
    (h : bitpackedItems destSize fuel dest offset msg = .error (.fault f)) :
    FarItem destSize offset msg := by
  induction fuel generalizing dest offset msg with
  | zero =>
    rw [List.length_eq_zero_iff.mp (Nat.le_zero.mp hfuel), bitpackedItems_nil] at h
    cases h
  | succ fuel ih =>
    by_cases hne : msg = []
    · rw [hne, bitpackedItems_nil] at h
      cases h
    by_cases hfar : FarStart msg
    · exact FarItem.here hfar
    rcases readItem_cases hoffset hne hfar with ⟨groups, t, value, rest, rfl, hitem⟩ | ⟨n, hn⟩
    · obtain ⟨dest', hstep⟩ := bitpackedItems_whole destSize fuel dest hoffset hitem hfar rfl
      rw [hstep] at h
      split at h
      · cases h
      next hle =>
        refine FarItem.later hitem rfl (Nat.not_lt.mp hle) (ih (lt_word _) ?_ h)
        simp only [List.length_append, List.length_cons] at hfuel
        omega
    · rw [bitpackedItems_code hne hn] at h
      cases h

theorem fault_of_farItem (h : FarItem destSize offset msg) (hoffset : offset < 2 ^ 32)
    (hfuel : msg.length ≤ fuel) :
    bitpackedItems destSize fuel dest offset msg = .error (.fault .shift) := by
  induction h generalizing fuel dest with
  | here hstart => exact bitpackedItems_far hoffset hstart hfuel
  | @later offset o groups value rest t hitem ho hle _ ih =>
    by_cases hfar : FarStart (groups ++ t :: (value ++ rest))
    · exact bitpackedItems_far hoffset hfar hfuel
    · simp only [List.length_append, List.length_cons] at hfuel
      obtain ⟨fuel, rfl⟩ : ∃ n, fuel = n + 1 := ⟨fuel - 1, by omega⟩
      obtain ⟨dest', hstep⟩ := bitpackedItems_whole destSize fuel dest hoffset hitem hfar ho
      rw [hstep, if_neg (Nat.not_lt.mpr hle)]
      exact ih (lt_word _) (by omega)

theorem bitpackedItems_src {d : Decoded}
    (h : bitpackedItems destSize fuel dest offset msg = .ok d) : d.src = [] := by
  induction fuel generalizing dest offset msg with
  | zero =>
    rw [bitpackedItems] at h
    split at h
    next hnil =>
      cases h
      exact hnil
    next => cases h
  | succ fuel ih =>
    rw [bitpackedItems] at h
    split at h
    next hnil =>
      cases h
      exact hnil
    next =>
      obtain ⟨item, -, h⟩ := bind_eq_ok.mp h
      obtain ⟨-, h⟩ := errorIf_bind_ok.mp h
      obtain ⟨dest', -, h⟩ := bind_eq_ok.mp h
      exact ih h

end Items

/-- The decoder is safe, but for items with more bits in their offset than it has. -/
theorem bitpacked_safe_iff (destSize : Nat) (dest : Nat → UInt32) (msg : List UInt8) :
    BitpackedSafe destSize dest msg ↔ ¬FarItem destSize 0 msg := by
  rw [BitpackedSafe, ends_iff]
  constructor
  · rintro ⟨-, hstop⟩ hfar
    have hrun : decodeBitpacked destSize dest msg = .error (.fault .shift) := by
      rw [decodeBitpacked, fault_of_farItem hfar (by decide) (Nat.le_refl _)]
      rfl
    obtain ⟨n, hn⟩ := hstop _ hrun
    cases hn
  · intro hnear
    constructor
    · intro d hd
      obtain ⟨d', hitems, hd⟩ := bind_eq_ok.mp hd
      obtain ⟨hsize, hd⟩ := errorIf_bind_ok.mp hd
      cases hd
      exact ⟨bitpackedItems_src hitems, Decidable.not_not.mp hsize⟩
    · intro stop hstop
      cases stop with
      | code n => exact ⟨n, rfl⟩
      | fault f =>
        rcases bind_eq_error.mp hstop with hitems | ⟨d, -, hsize⟩
        · exact absurd (farItem_of_fault (by decide) (Nat.le_refl _) hitems) hnear
        · rcases bind_eq_error.mp hsize with herr | ⟨-, -, hret⟩
          · exact DecodeStop.noConfusion (errorIf_eq_error.mp herr).2
          · cases hret

theorem far_shift_done :
    ¬BitpackedSafe 4 (fun _ => 0) [0x80, 0x80, 0x80, 0x80, 0x80, 0x80, 0x01] := by
  intro h
  have hrun : decodeBitpacked 4 (fun _ => 0) [0x80, 0x80, 0x80, 0x80, 0x80, 0x80, 0x01] =
      .error (.fault .shift) := rfl
  rw [BitpackedSafe, hrun] at h
  obtain ⟨n, hn⟩ := h
  cases hn

end Ucesb
