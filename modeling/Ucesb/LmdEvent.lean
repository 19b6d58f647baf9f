import Ucesb.Bytes

namespace Ucesb

def lmdEvent101Type : UInt16 := 10
def lmdEvent101Subtype : UInt16 := 1
def lmdEventStickyType : UInt16 := 0x4b59
def lmdEventStickySubtype : UInt16 := 0x5354

structure LmdEventHeader where
  lDlen : UInt32
  iType : UInt16
  iSubtype : UInt16
deriving DecidableEq, Repr

structure LmdEventInfo where
  iDummy : UInt16
  iTrigger : UInt16
  lCount : UInt32
deriving DecidableEq, Repr

def sizeofEventHeader : Nat := 8
def sizeofEvent101 : Nat := 16

def LmdEventHeader.encode (h : LmdEventHeader) : List UInt8 :=
  le32 h.lDlen.toNat ++ le16 h.iType.toNat ++ le16 h.iSubtype.toNat

def LmdEventHeader.decode (bs : List UInt8) : LmdEventHeader :=
  ⟨UInt32.ofNat (rd32 bs), UInt16.ofNat (rd16 (bs.drop 4)), UInt16.ofNat (rd16 (bs.drop 6))⟩

def LmdEventInfo.encode (i : LmdEventInfo) : List UInt8 :=
  le16 i.iDummy.toNat ++ le16 i.iTrigger.toNat ++ le32 i.lCount.toNat

def LmdEventInfo.decode (bs : List UInt8) : LmdEventInfo :=
  ⟨UInt16.ofNat (rd16 bs), UInt16.ofNat (rd16 (bs.drop 2)), UInt32.ofNat (rd32 (bs.drop 4))⟩

def LmdEventHeader.isSticky (h : LmdEventHeader) : Bool :=
  h.iType == lmdEventStickyType && h.iSubtype == lmdEventStickySubtype

/-- `buf_chunk_swap`: `swapping` is set if the data is not in host byte order. -/
structure BufChunkSwap where
  data : List UInt8
  swapping : Bool
deriving DecidableEq, Repr

/-- `lmd_event_out`. The first chunk of an event is always its `_info` (`has_subevents` asserts
it), so only the chunks after it are kept. -/
structure LmdEventOut where
  header : LmdEventHeader
  info : LmdEventInfo
  more : List BufChunkSwap
deriving DecidableEq, Repr

def LmdEventOut.chunks (e : LmdEventOut) : List BufChunkSwap :=
  ⟨e.info.encode, false⟩ :: e.more

def chunksLength (cs : List BufChunkSwap) : Nat :=
  (cs.map (·.data.length)).sum

def LmdEventOut.getLength (e : LmdEventOut) : Nat := chunksLength e.chunks

def nativeData (cs : List BufChunkSwap) : List UInt8 :=
  cs.flatMap fun c => swapIf c.swapping c.data

def LmdEventOut.native (e : LmdEventOut) : List UInt8 := nativeData e.chunks

def LmdEventOut.write (e : LmdEventOut) : List UInt8 :=
  { e.header with lDlen := UInt32.ofNat (e.getLength / 2) }.encode ++ e.native

def BufChunkSwap.Aligned (c : BufChunkSwap) : Prop := 4 ∣ c.data.length

/-- `copy_to_buffer` swaps whole words only (it asserts so), and takes any length where it does not
swap. -/
def LmdEventOut.Copyable (e : LmdEventOut) : Prop :=
  ∀ c ∈ e.more, c.swapping = true → c.Aligned

instance (c : BufChunkSwap) : Decidable c.Aligned := inferInstanceAs (Decidable (4 ∣ c.data.length))

instance instDecidableCopyable (e : LmdEventOut) : Decidable e.Copyable :=
  inferInstanceAs (Decidable (∀ c ∈ e.more, c.swapping = true → c.Aligned))

@[simp] theorem LmdEventHeader.encode_length (h : LmdEventHeader) : h.encode.length = 8 := rfl

@[simp] theorem LmdEventInfo.encode_length (i : LmdEventInfo) : i.encode.length = 8 := rfl

theorem LmdEventHeader.decode_encode (h : LmdEventHeader) (rest : List UInt8) :
    LmdEventHeader.decode (h.encode ++ rest) = h := by
  have hd : rd32 (h.encode ++ rest) = h.lDlen.toNat % 2 ^ 32 := by
    rw [LmdEventHeader.encode, List.append_assoc, List.append_assoc, rd32_le32]
  have ht : rd16 ((h.encode ++ rest).drop 4) = h.iType.toNat % 2 ^ 16 :=
    rd16_le16 _ (le16 h.iSubtype.toNat ++ rest)
  have hs : rd16 ((h.encode ++ rest).drop 6) = h.iSubtype.toNat % 2 ^ 16 := rd16_le16 _ rest
  simp [LmdEventHeader.decode, hd, ht, hs]

theorem LmdEventInfo.decode_encode (i : LmdEventInfo) (rest : List UInt8) :
    LmdEventInfo.decode (i.encode ++ rest) = i := by
  have hd : rd16 (i.encode ++ rest) = i.iDummy.toNat % 2 ^ 16 := by
    rw [LmdEventInfo.encode, List.append_assoc, List.append_assoc, rd16_le16]
  have ht : rd16 ((i.encode ++ rest).drop 2) = i.iTrigger.toNat % 2 ^ 16 :=
    rd16_le16 _ (le32 i.lCount.toNat ++ rest)
  have hc : rd32 ((i.encode ++ rest).drop 4) = i.lCount.toNat % 2 ^ 32 := rd32_le32 _ rest
  simp [LmdEventInfo.decode, hd, ht, hc]

theorem nativeData_length {cs : List BufChunkSwap}
    (h : ∀ c ∈ cs, c.swapping = true → c.Aligned) :
    (nativeData cs).length = chunksLength cs := by
  induction cs with
  | nil => rfl
  | cons c cs ih =>
    have hc : (swapIf c.swapping c.data).length = c.data.length := by
      cases hs : c.swapping with
      | false => rfl
      | true => exact swapIf_length true (h c (by simp) hs)
    have ht := ih fun d hd => h d (by simp [hd])
    simp only [nativeData, chunksLength] at ht
    simp [nativeData, chunksLength, hc, ht]

theorem LmdEventOut.native_eq (e : LmdEventOut) :
    e.native = e.info.encode ++ nativeData e.more := by
  simp [LmdEventOut.native, LmdEventOut.chunks, nativeData]

theorem LmdEventOut.native_length {e : LmdEventOut} (h : e.Copyable) :
    e.native.length = e.getLength := by
  rw [LmdEventOut.native_eq, List.length_append, nativeData_length h]
  simp [LmdEventOut.getLength, LmdEventOut.chunks, chunksLength]

def lmdSubeventStickyTstampType : Nat := 10
def lmdSubeventStickyTstampSubtype : Nat := 1
def lmdSubeventStickyDlenRevoke : Nat := 0xffffffff
def sizeofSubevent101 : Nat := 12

def subType (bs : List UInt8) : Nat := rd16 (bs.drop 4)

def subSubtype (bs : List UInt8) : Nat := rd16 (bs.drop 6)

/-- The words compared by `sticky_subevent_same_id`. -/
def subId (bs : List UInt8) : Nat × Nat := (rd32 (bs.drop 4), rd32 (bs.drop 8))

def subIsTstamp (bs : List UInt8) : Bool :=
  subType bs == lmdSubeventStickyTstampType && subSubtype bs == lmdSubeventStickyTstampSubtype

def subIsRevoke (bs : List UInt8) : Bool := rd32 bs == lmdSubeventStickyDlenRevoke

/-- `SUBEVENT_DATA_LENGTH_FROM_DLEN`, computed in `size_t`. -/
def subeventDataLengthFromDlen (dlen : Nat) : Nat := (dlen + (2 ^ 64 - 2)) * 2 % 2 ^ 64

def subPayloadSize (bs : List UInt8) : Nat :=
  if subIsRevoke bs then 0 else subeventDataLengthFromDlen (rd32 bs)

/-- `sizeof (lmd_subevent_10_1_host) + sev_payload_size`, computed in `size_t`. -/
def subLength (bs : List UInt8) : Nat := (sizeofSubevent101 + subPayloadSize bs) % 2 ^ 64

/-- `lmd_event::locate_subevents` of a sticky event, on the data after the event header. -/
def locateSubeventsLoop : Nat → List UInt8 → Except String (List (List UInt8))
  | 0, _ => .ok []
  | fuel + 1, bs =>
    if bs.isEmpty then .ok []
    else if bs.length < sizeofSubevent101 then
      .error "Subevent header not complete before end of event."
    else
      let dataLength := subPayloadSize bs
      let left := bs.length - sizeofSubevent101
      if left < dataLength then
        .error s!"Subevent ({subType bs}/{subSubtype bs}) length {dataLength} bytes, not complete before end of event, {dataLength - left} bytes missing."
      else do
        let rest ← locateSubeventsLoop fuel (bs.drop (sizeofSubevent101 + dataLength))
        return bs.take (sizeofSubevent101 + dataLength) :: rest

def locateSubevents (bs : List UInt8) : Except String (List (List UInt8)) :=
  locateSubeventsLoop bs.length bs

/-- A subevent as `locate_subevents` delimits it. -/
structure WholeSubevent (b : List UInt8) : Prop where
  header : sizeofSubevent101 ≤ b.length
  length : subLength b = b.length

theorem rd32_append {xs : List UInt8} (ys : List UInt8) (h : 4 ≤ xs.length) :
    rd32 (xs ++ ys) = rd32 xs := by
  match xs, h with
  | a :: b :: c :: d :: rest, _ => rfl

theorem rd16_append {xs : List UInt8} (ys : List UInt8) (h : 2 ≤ xs.length) :
    rd16 (xs ++ ys) = rd16 xs := by
  match xs, h with
  | a :: b :: rest, _ => rfl

theorem subId_append {b : List UInt8} (ys : List UInt8) (h : sizeofSubevent101 ≤ b.length) :
    subId (b ++ ys) = subId b := by
  simp only [sizeofSubevent101] at h
  simp only [subId]
  rw [List.drop_append_of_le_length (by omega), List.drop_append_of_le_length (by omega),
    rd32_append _ (by simp; omega), rd32_append _ (by simp; omega)]

section Header

variable {b : List UInt8} (ys : List UInt8) (h : 8 ≤ b.length)

include h

theorem subIsTstamp_append : subIsTstamp (b ++ ys) = subIsTstamp b := by
  simp only [subIsTstamp, subType, subSubtype]
  rw [List.drop_append_of_le_length (by omega), List.drop_append_of_le_length (by omega),
    rd16_append _ (by simp; omega), rd16_append _ (by simp; omega)]

theorem subIsRevoke_append : subIsRevoke (b ++ ys) = subIsRevoke b := by
  rw [subIsRevoke, subIsRevoke, rd32_append _ (by omega)]

theorem subPayloadSize_append : subPayloadSize (b ++ ys) = subPayloadSize b := by
  rw [subPayloadSize, subIsRevoke_append ys h, rd32_append _ (by omega), subPayloadSize]

theorem subLength_append : subLength (b ++ ys) = subLength b := by
  rw [subLength, subPayloadSize_append ys h, subLength]

end Header

theorem subLength_eq (bs : List UInt8) :
    subLength bs = if subIsRevoke bs then sizeofSubevent101 else 8 + 2 * rd32 bs := by
  have hlt := rd32_lt bs
  unfold subLength subPayloadSize
  split
  next => decide
  next =>
    simp only [subeventDataLengthFromDlen, sizeofSubevent101]
    omega

theorem eight_le_subLength (bs : List UInt8) : 8 ≤ subLength bs := by
  rw [subLength_eq]
  split
  next => decide
  next => omega

theorem subLength_lt_header (bs : List UInt8) : subLength bs < sizeofSubevent101 ↔ rd32 bs < 2 := by
  rw [subLength_eq]
  split
  next hr =>
    have hrd : rd32 bs = lmdSubeventStickyDlenRevoke := by simpa [subIsRevoke] using hr
    simp [hrd, lmdSubeventStickyDlenRevoke]
  next =>
    simp only [sizeofSubevent101]
    omega

theorem subPayloadSize_cases (bs : List UInt8) :
    (2 ^ 64 - 4 ≤ subPayloadSize bs ∧ subPayloadSize bs < 2 ^ 64) ∨
      subPayloadSize bs + sizeofSubevent101 < 2 ^ 64 := by
  have hlt := rd32_lt bs
  unfold subPayloadSize
  split
  next => exact .inr (by decide)
  next =>
    simp only [subeventDataLengthFromDlen, sizeofSubevent101]
    omega

theorem except_bind_ok {α β : Type} {x : Except String α} {f : α → Except String β} {b : β}
    (h : (x >>= f) = .ok b) : ∃ a, x = .ok a ∧ f a = .ok b := by
  cases x with
  | error e => cases h
  | ok a => exact ⟨a, rfl, h⟩

theorem locateSubeventsLoop_ok {fuel : Nat} {bs : List UInt8} {subs : List (List UInt8)}
    (hfuel : bs.length ≤ fuel) (hlen : bs.length < 2 ^ 63)
    (h : locateSubeventsLoop fuel bs = .ok subs) :
    subs.flatten = bs ∧ ∀ b ∈ subs, WholeSubevent b := by
  induction fuel generalizing bs subs with
  | zero =>
    cases h
    have : bs = [] := List.length_eq_zero_iff.mp (by omega)
    simp [this]
  | succ fuel ih =>
    rw [locateSubeventsLoop] at h
    split at h
    next he =>
      cases h
      simp [List.isEmpty_iff.mp he]
    next =>
      split at h
      next => cases h
      next hhead =>
        simp only [] at h
        split at h
        next => cases h
        next hleft =>
          obtain ⟨rest, hrest, hb⟩ := except_bind_ok h
          cases hb
          have h12 : sizeofSubevent101 = 12 := rfl
          have hdrop : (bs.drop (sizeofSubevent101 + subPayloadSize bs)).length =
              bs.length - (sizeofSubevent101 + subPayloadSize bs) := List.length_drop
          obtain ⟨hflat, hwhole⟩ := ih (by omega) (by omega) hrest
          refine ⟨by simp [hflat], ?_⟩
          intro b hb
          rcases List.mem_cons.mp hb with rfl | hb
          · have htake : (bs.take (sizeofSubevent101 + subPayloadSize bs)).length =
                sizeofSubevent101 + subPayloadSize bs := by
              rw [List.length_take]
              omega
            have hhd : sizeofSubevent101 ≤
                (bs.take (sizeofSubevent101 + subPayloadSize bs)).length := by omega
            refine ⟨hhd, ?_⟩
            have happ := subLength_append (bs.drop (sizeofSubevent101 + subPayloadSize bs))
              (Nat.le_trans (by decide) hhd)
            rw [List.take_append_drop] at happ
            rw [← happ, htake, subLength, Nat.mod_eq_of_lt (by omega)]
          · exact hwhole b hb

theorem WholeSubevent.payload {b : List UInt8} (hb : WholeSubevent b) (hlen : b.length < 2 ^ 63) :
    sizeofSubevent101 + subPayloadSize b = b.length := by
  have h := hb.length
  have hh := hb.header
  have hc := subPayloadSize_cases b
  have h12 : sizeofSubevent101 = 12 := rfl
  unfold subLength at h
  omega

theorem locateSubeventsLoop_flatten {subs : List (List UInt8)} {fuel : Nat}
    (hw : ∀ b ∈ subs, WholeSubevent b) (hlen : ∀ b ∈ subs, b.length < 2 ^ 63)
    (hfuel : subs.flatten.length ≤ fuel) :
    locateSubeventsLoop fuel subs.flatten = .ok subs := by
  induction subs generalizing fuel with
  | nil => cases fuel <;> rfl
  | cons b subs ih =>
    have h12 : sizeofSubevent101 = 12 := rfl
    have hb := hw b (by simp)
    have hh := hb.header
    simp only [List.flatten_cons, List.length_append] at hfuel ⊢
    have hp := hb.payload (hlen b (by simp))
    obtain ⟨fuel, rfl⟩ := Nat.exists_eq_add_one_of_ne_zero (show fuel ≠ 0 by omega)
    have hpay : subPayloadSize (b ++ subs.flatten) = subPayloadSize b :=
      subPayloadSize_append _ (by omega)
    have hne : (b ++ subs.flatten).isEmpty = false := by
      cases b with
      | nil => simp at hh; omega
      | cons a b => rfl
    have hrest : locateSubeventsLoop fuel subs.flatten = .ok subs :=
      ih (fun c hc => hw c (by simp [hc])) (fun c hc => hlen c (by simp [hc])) (by omega)
    rw [locateSubeventsLoop, if_neg (by simp [hne]), if_neg (by simp; omega)]
    simp only []
    rw [if_neg (by rw [hpay, List.length_append]; omega), hpay, hp, List.drop_left,
      List.take_left, hrest]
    rfl

end Ucesb
