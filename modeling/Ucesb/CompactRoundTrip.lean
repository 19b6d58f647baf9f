import Mathlib.Data.List.Nodup
import Mathlib.Data.List.Perm.Subperm
import Ucesb.CompactEvent

namespace Ucesb

section Bytes

theorem groupByte (n : Nat) :
    (UInt8.ofNat (0x80 ||| (n &&& 0x7f))).toNat &&& 0x80 ≠ 0 ∧
      (UInt8.ofNat (0x80 ||| (n &&& 0x7f))).toNat &&& 0x7f = n % 128 := by
  have hall : ∀ x < 128, (0x80 ||| x) % 256 &&& 0x80 ≠ 0 ∧ (0x80 ||| x) % 256 &&& 0x7f = x := by
    decide
  have hmod : n &&& 0x7f = n % 128 := Nat.and_two_pow_sub_one_eq_mod n 7
  rw [hmod, UInt8.toNat_ofNat']
  exact hall (n % 128) (Nat.mod_lt _ (by decide))

theorem typeByte {t x : Nat} (ht : t < 4) (hx : x < 32) :
    (UInt8.ofNat (t <<< 5 ||| x)).toNat &&& 0x80 = 0 ∧
      (UInt8.ofNat (t <<< 5 ||| x)).toNat >>> 5 = t ∧
      (UInt8.ofNat (t <<< 5 ||| x)).toNat &&& 0x1f = x := by
  have hall : ∀ t < 4, ∀ x < 32, (t <<< 5 ||| x) % 256 &&& 0x80 = 0 ∧
      ((t <<< 5 ||| x) % 256) >>> 5 = t ∧ (t <<< 5 ||| x) % 256 &&& 0x1f = x := by
    decide
  rw [UInt8.toNat_ofNat']
  exact hall t ht x hx

theorem specialByte {k x : Nat} (hk : k < 2) (hx : x < 16) :
    (UInt8.ofNat (3 <<< 5 ||| k <<< 4 ||| x)).toNat &&& 0x80 = 0 ∧
      (UInt8.ofNat (3 <<< 5 ||| k <<< 4 ||| x)).toNat >>> 5 = 3 ∧
      (UInt8.ofNat (3 <<< 5 ||| k <<< 4 ||| x)).toNat &&& 0x0f = x ∧
      (UInt8.ofNat (3 <<< 5 ||| k <<< 4 ||| x)).toNat &&& 0x10 = 16 * k := by
  have hall : ∀ k < 2, ∀ x < 16, (3 <<< 5 ||| k <<< 4 ||| x) % 256 &&& 0x80 = 0 ∧
      ((3 <<< 5 ||| k <<< 4 ||| x) % 256) >>> 5 = 3 ∧ (3 <<< 5 ||| k <<< 4 ||| x) % 256 &&& 0x0f = x ∧
      (3 <<< 5 ||| k <<< 4 ||| x) % 256 &&& 0x10 = 16 * k := by
    decide
  rw [UInt8.toNat_ofNat']
  exact hall k hk x hx

theorem or_low {x y i : Nat} (hy : y < 2 ^ i) : x * 2 ^ i ||| y = x * 2 ^ i + y := by
  rw [Nat.mul_comm]
  exact (Nat.two_pow_add_eq_or_of_lt hy x).symm

theorem value13 {v : Nat} (_hv : v < 2 ^ 13) :
    (v >>> 8) <<< 8 ||| (UInt8.ofNat v).toNat = v := by
  rw [UInt8.toNat_ofNat', Nat.shiftRight_eq_div_pow, Nat.shiftLeft_eq, or_low (by omega)]
  omega

theorem value32 {v : Nat} (hv : v < 2 ^ 32) :
    (UInt8.ofNat (v >>> 24)).toNat <<< 24 ||| (UInt8.ofNat (v >>> 16)).toNat <<< 16 |||
      (UInt8.ofNat (v >>> 8)).toNat <<< 8 ||| (UInt8.ofNat v).toNat = v := by
  simp only [UInt8.toNat_ofNat', Nat.shiftRight_eq_div_pow, Nat.shiftLeft_eq]
  have h1 : v / 2 ^ 24 % 2 ^ 8 * 2 ^ 24 ||| v / 2 ^ 16 % 2 ^ 8 * 2 ^ 16 =
      (v / 2 ^ 24 % 2 ^ 8 * 2 ^ 8 + v / 2 ^ 16 % 2 ^ 8) * 2 ^ 16 := by
    rw [or_low (by omega)]
    omega
  have h2 : (v / 2 ^ 24 % 2 ^ 8 * 2 ^ 8 + v / 2 ^ 16 % 2 ^ 8) * 2 ^ 16 ||| v / 2 ^ 8 % 2 ^ 8 * 2 ^ 8 =
      ((v / 2 ^ 24 % 2 ^ 8 * 2 ^ 8 + v / 2 ^ 16 % 2 ^ 8) * 2 ^ 8 + v / 2 ^ 8 % 2 ^ 8) * 2 ^ 8 := by
    rw [or_low (by omega)]
    omega
  rw [h1, h2, or_low (by omega)]
  omega

end Bytes

section Offsets

variable {limit fuel store offset shift destSize : Nat} {dest : Nat → UInt32}

theorem offsetBytes_last (h : store < (limit + 1) * 2 ^ (7 * fuel)) :
    (offsetBytes limit fuel store).2 ≤ limit := by
  induction fuel generalizing store with
  | zero =>
    change store ≤ limit
    omega
  | succ fuel ih =>
    unfold offsetBytes
    split
    · refine ih ?_
      rw [Nat.shiftRight_eq_div_pow]
      apply Nat.div_lt_of_lt_mul
      calc store < (limit + 1) * 2 ^ (7 * (fuel + 1)) := h
        _ = 2 ^ 7 * ((limit + 1) * 2 ^ (7 * fuel)) := by
          rw [Nat.mul_succ, Nat.pow_add]
          ac_rfl
    · next hle =>
      change store ≤ limit
      omega

theorem offsetBytes_length {j : Nat} (h : store < (limit + 1) * 2 ^ (7 * j)) :
    (offsetBytes limit fuel store).1.length ≤ j := by
  induction fuel generalizing store j with
  | zero => exact Nat.zero_le _
  | succ fuel ih =>
    unfold offsetBytes
    split
    · next hlt =>
      cases j with
      | zero => omega
      | succ j =>
        refine Nat.succ_le_succ (ih ?_)
        rw [Nat.shiftRight_eq_div_pow]
        apply Nat.div_lt_of_lt_mul
        calc store < (limit + 1) * 2 ^ (7 * (j + 1)) := h
          _ = 2 ^ 7 * ((limit + 1) * 2 ^ (7 * j)) := by
            rw [Nat.mul_succ, Nat.pow_add]
            ac_rfl
    · exact Nat.zero_le _

theorem bitpacked_groups (limit fuel : Nat) (h : offset + store * 2 ^ shift < 2 ^ 32) (rest : List UInt8) :
    ∃ o s, bitpackedFrom destSize dest offset shift ((offsetBytes limit fuel store).1 ++ rest) =
        bitpackedFrom destSize dest o s rest ∧
      o + (offsetBytes limit fuel store).2 * 2 ^ s = offset + store * 2 ^ shift := by
  induction fuel generalizing store offset shift with
  | zero => exact ⟨offset, shift, rfl, rfl⟩
  | succ fuel ih =>
    unfold offsetBytes
    split
    · obtain ⟨hflag, hlow⟩ := groupByte store
      have hshift : store >>> 7 = store / 128 := Nat.shiftRight_eq_div_pow store 7
      have hpow : 2 ^ (shift + 7) = 128 * 2 ^ shift := by
        rw [Nat.pow_add, Nat.mul_comm]
      have hsplit : store % 128 * 2 ^ shift + store / 128 * 2 ^ (shift + 7) =
          store * 2 ^ shift := by
        calc store % 128 * 2 ^ shift + store / 128 * 2 ^ (shift + 7)
            = (store % 128 + 128 * (store / 128)) * 2 ^ shift := by
              rw [hpow, Nat.add_mul]
              congr 1
              ac_rfl
          _ = store * 2 ^ shift := by rw [Nat.mod_add_div]
      have hoffset : (offset + (store % 128) <<< shift) % 2 ^ 32 =
          offset + store % 128 * 2 ^ shift := by
        rw [Nat.shiftLeft_eq, Nat.mod_eq_of_lt (by omega)]
      have hbound : offset + store % 128 * 2 ^ shift + (store >>> 7) * 2 ^ (shift + 7) < 2 ^ 32 := by
        rw [hshift]
        omega
      obtain ⟨o, s, hrun, hsum⟩ := ih hbound
      refine ⟨o, s, ?_, ?_⟩
      · rw [List.cons_append, bitpackedFrom.eq_def]
        dsimp only
        rw [if_pos hflag, hlow, hoffset]
        exact hrun
      · dsimp only
        rw [hsum, hshift]
        omega
    · exact ⟨offset, shift, rfl, rfl⟩

variable {o s x : Nat}

theorem bitpacked_special {k : Nat} (hk : k < 2) (hx : x < 16) (hend : o + x * 2 ^ s + 4 ≤ destSize)
    (hsize : destSize < 2 ^ 32) (rest : List UInt8) :
    bitpackedFrom destSize dest o s (UInt8.ofNat (3 <<< 5 ||| k <<< 4 ||| x) :: rest) =
      bitpackedFrom destSize
        (Function.update dest (o + x * 2 ^ s) (UInt32.ofNat (0x7fc00000 <<< (16 * k))))
        (o + x * 2 ^ s + 4) 2 rest := by
  obtain ⟨hflag, htype, hlow, hbit⟩ := specialByte hk hx
  have hoffset : (o + x <<< s) % 2 ^ 32 = o + x * 2 ^ s := by
    rw [Nat.shiftLeft_eq, Nat.mod_eq_of_lt (by omega)]
  rw [bitpackedFrom.eq_def]
  dsimp only
  rw [if_neg (not_not.mpr hflag), htype, if_neg (by decide), if_neg (by decide), if_neg (by decide),
    hlow, hbit, hoffset, if_neg (by omega), Nat.mod_eq_of_lt (by omega)]

theorem bitpacked_small (hx : x < 2 ^ 5) (hend : o + 4 ≤ destSize) (hsize : destSize < 2 ^ 32)
    (rest : List UInt8) :
    bitpackedFrom destSize dest o s (UInt8.ofNat (0 <<< 5 ||| x) :: rest) =
      bitpackedFrom destSize (Function.update dest o (UInt32.ofNat x)) (o + 4) 2 rest := by
  obtain ⟨hflag, htype, hlow⟩ := typeByte (t := 0) (by decide) hx
  rw [bitpackedFrom.eq_def]
  dsimp only
  rw [if_neg (not_not.mpr hflag), htype, if_pos rfl, hlow, if_neg (by omega),
    Nat.mod_eq_of_lt (by omega)]

theorem bitpacked_13 {v : Nat} (hv : v < 2 ^ 13) (hend : o + 4 ≤ destSize)
    (hsize : destSize < 2 ^ 32) (rest : List UInt8) :
    bitpackedFrom destSize dest o s
        (UInt8.ofNat (1 <<< 5 ||| v >>> 8) :: UInt8.ofNat v :: rest) =
      bitpackedFrom destSize (Function.update dest o (UInt32.ofNat v)) (o + 4) 2 rest := by
  have hhigh : v >>> 8 < 32 := by
    rw [Nat.shiftRight_eq_div_pow]
    omega
  obtain ⟨hflag, htype, hlow⟩ := typeByte (t := 1) (by decide) hhigh
  rw [bitpackedFrom.eq_def]
  dsimp only
  rw [if_neg (not_not.mpr hflag), htype, if_neg (by decide), if_pos rfl, hlow, if_neg (by omega),
    value13 hv, Nat.mod_eq_of_lt (by omega)]

theorem bitpacked_full {v : Nat} (hv : v < 2 ^ 32) (hx : x < 32)
    (hend : o + x * 2 ^ s + 4 ≤ destSize) (hsize : destSize < 2 ^ 32) (rest : List UInt8) :
    bitpackedFrom destSize dest o s
        (UInt8.ofNat (2 <<< 5 ||| x) :: UInt8.ofNat (v >>> 24) :: UInt8.ofNat (v >>> 16) ::
          UInt8.ofNat (v >>> 8) :: UInt8.ofNat v :: rest) =
      bitpackedFrom destSize (Function.update dest (o + x * 2 ^ s) (UInt32.ofNat v))
        (o + x * 2 ^ s + 4) 2 rest := by
  obtain ⟨hflag, htype, hlow⟩ := typeByte (t := 2) (by decide) hx
  have hoffset : (o + x <<< s) % 2 ^ 32 = o + x * 2 ^ s := by
    rw [Nat.shiftLeft_eq, Nat.mod_eq_of_lt (by omega)]
  rw [bitpackedFrom.eq_def]
  dsimp only
  rw [if_neg (not_not.mpr hflag), htype, if_neg (by decide), if_neg (by decide), if_pos rfl,
    hlow, hoffset, if_neg (by omega), value32 hv, Nat.mod_eq_of_lt (by omega)]

theorem bitpacked_item {value : UInt32} (hend : offset + 4 * store + 4 ≤ destSize)
    (hsize : destSize < 2 ^ 32) (rest : List UInt8) :
    bitpackedFrom destSize dest offset 2 (compactItem store value ++ rest) =
      bitpackedFrom destSize (Function.update dest (offset + 4 * store) value)
        (offset + 4 * store + 4) 2 rest := by
  have hsum : offset + store * 2 ^ 2 < 2 ^ 32 := by omega
  have hvalue : UInt32.ofNat value.toNat = value := UInt32.ofNat_toNat
  have hspecial : (offsetBytes 0x0f 5 store).2 ≤ 0x0f := offsetBytes_last (by omega)
  have hzero : (offsetBytes 0 5 store).2 ≤ 0 := offsetBytes_last (by omega)
  have hfull : (offsetBytes 0x1f 5 store).2 ≤ 0x1f := offsetBytes_last (by omega)
  unfold compactItem
  dsimp only
  split
  · next hv =>
    rw [List.append_assoc]
    obtain ⟨o, s, hrun, hos⟩ := bitpacked_groups 0x0f 5 hsum _
    rw [hrun, List.cons_append, List.nil_append, bitpacked_special (k := 1) (by decide) (by omega)
      (by omega) hsize]
    have hat : o + (offsetBytes 0x0f 5 store).2 * 2 ^ s = offset + 4 * store := by omega
    rw [hat, ← hvalue, hv]
    rfl
  split
  · next hv =>
    rw [List.append_assoc]
    obtain ⟨o, s, hrun, hos⟩ := bitpacked_groups 0x0f 5 hsum _
    rw [hrun]
    change bitpackedFrom destSize dest o s
      (UInt8.ofNat (3 <<< 5 ||| 0 <<< 4 ||| (offsetBytes 0x0f 5 store).2) :: rest) = _
    have hat : o + (offsetBytes 0x0f 5 store).2 * 2 ^ s = offset + 4 * store := by omega
    rw [bitpacked_special (by decide) (by omega) (by omega) hsize, hat, ← hvalue, hv]
    rfl
  split
  · next hv =>
    rw [List.append_assoc]
    obtain ⟨o, s, hrun, hos⟩ := bitpacked_groups 0 5 hsum _
    have hat : o = offset + 4 * store := by
      rw [Nat.le_zero.mp hzero] at hos
      omega
    rw [hrun, List.cons_append, List.nil_append, bitpacked_small hv (by omega) hsize, hat, hvalue]
  split
  · next hv =>
    rw [List.append_assoc]
    obtain ⟨o, s, hrun, hos⟩ := bitpacked_groups 0 5 hsum _
    have hat : o = offset + 4 * store := by
      rw [Nat.le_zero.mp hzero] at hos
      omega
    rw [hrun, List.cons_append, List.cons_append, List.nil_append, bitpacked_13 hv (by omega) hsize,
      hat, hvalue]
  · rw [List.append_assoc]
    obtain ⟨o, s, hrun, hos⟩ := bitpacked_groups 0x1f 5 hsum _
    have hat : o + (offsetBytes 0x1f 5 store).2 * 2 ^ s = offset + 4 * store := by omega
    rw [hrun]
    simp only [List.cons_append, List.nil_append]
    rw [bitpacked_full value.toNat_lt (by omega) (by omega) hsize, hat, hvalue]

theorem compactItem_length {j : Nat} {value : UInt32} (h : store < 2 ^ (4 + 7 * j)) :
    (compactItem store value).length ≤ 5 + j := by
  have h16 : store < (0x0f + 1) * 2 ^ (7 * j) := by
    rw [Nat.pow_add] at h
    exact h
  have h32 : store < (0x1f + 1) * 2 ^ (7 * j) := by
    have hle : (0x0f + 1) * 2 ^ (7 * j) ≤ (0x1f + 1) * 2 ^ (7 * j) :=
      Nat.mul_le_mul_right _ (by decide)
    omega
  have h1 : store < (0 + 1) * 2 ^ (7 * (j + 1)) := by
    have hle : 2 ^ (4 + 7 * j) ≤ 2 ^ (7 * (j + 1)) := Nat.pow_le_pow_right (by decide) (by omega)
    omega
  have hspecial : (offsetBytes 0x0f 5 store).1.length ≤ j := offsetBytes_length h16
  have hfull : (offsetBytes 0x1f 5 store).1.length ≤ j := offsetBytes_length h32
  have hsmall : (offsetBytes 0 5 store).1.length ≤ j + 1 := offsetBytes_length h1
  unfold compactItem
  dsimp only
  split
  · rw [List.length_append, List.length_singleton]
    omega
  split
  · rw [List.length_append, List.length_singleton]
    omega
  split
  · rw [List.length_append, List.length_singleton]
    omega
  split
  · rw [List.length_append]
    simp only [List.length_cons, List.length_nil]
    omega
  · rw [List.length_append]
    simp only [List.length_cons, List.length_nil]
    omega

theorem compactItem_fits {length : Nat} {value : UInt32} (h : 4 * store < length)
    (hlt : length < 2 ^ 32) : (compactItem store value).length ≤ rewriteMaxBytesPerItem length := by
  unfold rewriteMaxBytesPerItem
  split
  · exact compactItem_length (j := 0) (by omega)
  split
  · exact compactItem_length (j := 1) (by omega)
  split
  · exact compactItem_length (j := 2) (by omega)
  split
  · exact compactItem_length (j := 3) (by omega)
  · exact compactItem_length (j := 4) (by omega)

end Offsets

section Items

variable {length cur : Nat} {ptr : Nat → UInt32}

theorem storeOffset_eq {offset : Nat} (hle : cur ≤ offset) (hlt : offset < 2 ^ 32)
    (h4 : 4 ∣ cur) (h4' : 4 ∣ offset) :
    ∃ store, storeOffset offset cur = some store ∧ cur + 4 * store = offset := by
  refine ⟨(offset - cur) / 4, ?_, by omega⟩
  have hsub : (offset + 2 ^ 32 - cur) % 2 ^ 32 = offset - cur := by omega
  have hand : (offset - cur) &&& 3 = (offset - cur) % 4 := Nat.and_two_pow_sub_one_eq_mod _ 2
  unfold storeOffset
  dsimp only
  rw [hsub, hand, if_neg (by omega), Nat.shiftRight_eq_div_pow]

def fillItems (ptr : Nat → UInt32) (dest : Nat → UInt32) (items : List Nat) : Nat → UInt32 :=
  items.foldl (fun dest item => Function.update dest (item * 4) (ptr (item * 4))) dest

theorem fillItems_apply (dest : Nat → UInt32) (items : List Nat) (o : Nat) :
    fillItems ptr dest items o = if o ∈ items.map (· * 4) then ptr o else dest o := by
  induction items generalizing dest with
  | nil => rfl
  | cons item items ih =>
    rw [fillItems, List.foldl_cons]
    change fillItems ptr _ items o = _
    rw [ih, List.map_cons]
    by_cases hin : o ∈ items.map (· * 4)
    · rw [if_pos hin, if_pos (List.mem_cons_of_mem _ hin)]
    · rw [if_neg hin]
      by_cases heq : o = item * 4
      · rw [heq, Function.update_self, if_pos List.mem_cons_self]
      · rw [Function.update_of_ne heq, if_neg]
        intro hmem
        rcases List.mem_cons.mp hmem with h | h
        · exact heq h
        · exact hin h

structure CompactRun (length cur : Nat) (ptr : Nat → UInt32) (items : List Nat)
    (bytes : List UInt8) (last : Nat) : Prop where
  aligned : 4 ∣ last
  cur_le : cur ≤ last
  last_le : last ≤ length
  items_le : ∀ item ∈ items, item * 4 + 4 ≤ last
  bytes_le : bytes.length ≤ rewriteMaxBytesPerItem length * items.length
  decoded : ∀ dest rest, bitpackedFrom length dest cur 2 (bytes ++ rest) =
    bitpackedFrom length (fillItems ptr dest items) last 2 rest

theorem compactItems_run (ptr : Nat → UInt32) {items : List Nat} (hlt : length < 2 ^ 32) (hcur : cur ≤ length)
    (h4 : 4 ∣ cur) (hsorted : items.Pairwise (· < ·))
    (hin : ∀ item ∈ items, cur ≤ item * 4 ∧ item * 4 + 4 ≤ length) :
    ∃ bytes last, compactItems length ptr cur items = some (bytes, last) ∧
      CompactRun length cur ptr items bytes last := by
  induction items generalizing cur with
  | nil =>
    refine ⟨[], cur, rfl, h4, Nat.le_refl _, hcur, ?_, Nat.zero_le _, ?_⟩
    · rintro item ⟨⟩
    · intro dest rest
      rfl
  | cons item items ih =>
    obtain ⟨hhead, htail⟩ := List.pairwise_cons.mp hsorted
    obtain ⟨hlo, hhi⟩ := hin item List.mem_cons_self
    have hoffset : item * 4 % 2 ^ 32 = item * 4 := Nat.mod_eq_of_lt (by omega)
    obtain ⟨store, hstore, hdist⟩ := storeOffset_eq hlo (by omega) h4 (Nat.dvd_mul_left 4 item)
    have hnext : ∀ i ∈ items, item * 4 + 4 ≤ i * 4 ∧ i * 4 + 4 ≤ length := by
      intro i hi
      have := hhead i hi
      have := (hin i (List.mem_cons_of_mem _ hi)).2
      omega
    obtain ⟨bytes, last, hrun, hr⟩ := ih hhi (by omega) htail hnext
    refine ⟨compactItem store (ptr (item * 4)) ++ bytes, last, ?_, ?_⟩
    · unfold compactItems
      simp only [hoffset, hstore, hrun, if_neg (Nat.not_lt.mpr hhi), Option.bind_eq_bind,
        Option.bind_some]
    · refine ⟨hr.aligned, ?_, hr.last_le, ?_, ?_, ?_⟩
      · have := hr.cur_le
        omega
      · intro i hi
        rcases List.mem_cons.mp hi with rfl | hi
        · exact hr.cur_le
        · exact hr.items_le i hi
      · have hfits : (compactItem store (ptr (item * 4))).length ≤ rewriteMaxBytesPerItem length :=
          compactItem_fits (by omega) hlt
        have hrest := hr.bytes_le
        rw [List.length_append, List.length_cons, Nat.mul_add, Nat.mul_one]
        omega
      · intro dest rest
        rw [List.append_assoc, bitpacked_item (by omega) hlt, hdist, hr.decoded]
        rfl

theorem eventMasks_fit {stale : Nat → Nat → Nat} (hstale : WordsFit stale) (offsets : List Nat) :
    WordsFit (eventMasks stale offsets) := by
  apply foldl_maskItem_fit
  intro l w
  dsimp only
  split
  · exact Nat.two_pow_pos _
  · exact hstale l w

theorem mem_eventItems {stale : Nat → Nat → Nat} {offsets : List Nat} (hstale : WordsFit stale)
    (hin : ∀ o ∈ offsets, 4 ∣ o ∧ o + 4 ≤ length) (x : Nat) :
    x ∈ eventItems length (eventMasks stale offsets) ↔ x * 4 ∈ offsets := by
  have hmarked : markedFrom (eventMasks stale offsets) 0 2 x ↔ x ∈ offsets.map (· / 4) := by
    unfold eventMasks
    rw [markedFrom_foldl]
    constructor
    · rintro (h | h)
      · exact absurd h (not_markedFrom_zero fun w => rfl)
      · exact h
    · exact .inr
  have hitem : x ∈ offsets.map (· / 4) ↔ x * 4 ∈ offsets := by
    rw [List.mem_map]
    constructor
    · rintro ⟨o, ho, rfl⟩
      rw [Nat.div_mul_cancel (hin o ho).1]
      exact ho
    · intro h
      exact ⟨x * 4, h, by omega⟩
  rw [eventItems, List.mem_flatMap, ← hitem, ← hmarked]
  constructor
  · rintro ⟨word, -, hx⟩
    exact ((mem_bucketItems (eventMasks_fit hstale offsets)).mp hx).2
  · intro hx
    have hmem := hitem.mp (hmarked.mp hx)
    have hlen := (hin _ hmem).2
    refine ⟨x / bucketBits ^ 3, ?_, (mem_bucketItems (eventMasks_fit hstale offsets)).mpr ⟨rfl, hx⟩⟩
    rw [List.mem_range]
    unfold numMasks bucketBits
    omega

theorem eventItems_sorted {stale : Nat → Nat → Nat} (hstale : WordsFit stale) (length : Nat)
    (offsets : List Nat) :
    (eventItems length (eventMasks stale offsets)).Pairwise (· < ·) := by
  have hfit := eventMasks_fit hstale offsets
  refine flatMap_sorted (d := bucketBits ^ 3) List.pairwise_lt_range ?_ (bucketItems_sorted hfit)
  intro word y hy
  exact ((mem_bucketItems hfit).mp hy).1

theorem eventItems_length_le {stale : Nat → Nat → Nat} {offsets : List Nat}
    (hstale : WordsFit stale) (hin : ∀ o ∈ offsets, 4 ∣ o ∧ o + 4 ≤ length) :
    (eventItems length (eventMasks stale offsets)).length ≤ offsets.length := by
  have hnodup : ((eventItems length (eventMasks stale offsets)).map (· * 4)).Nodup := by
    apply List.Nodup.map
    · intro a b hab
      dsimp only at hab
      omega
    · exact (eventItems_sorted hstale length offsets).imp Nat.ne_of_lt
  have hsub : (eventItems length (eventMasks stale offsets)).map (· * 4) ⊆ offsets := by
    intro o ho
    obtain ⟨i, hi, rfl⟩ := List.mem_map.mp ho
    exact (mem_eventItems hstale hin i).mp hi
  have hle := (hnodup.subperm hsub).length_le
  rwa [List.length_map] at hle

theorem compactEnd_run {last : Nat} (h4 : 4 ∣ length) (hlt : length < 2 ^ 32) (hlast : 4 ∣ last)
    (hle : last ≤ length) (dest : Nat → UInt32) :
    ∃ tail dest', compactEnd length last = some tail ∧
      tail.length ≤ rewriteMaxBytesPerItem length ∧
      bitpackedFrom length dest last 2 tail = .ok dest' ∧
      ∀ o, dest' o = dest o ∨ last ≤ o ∧ o + 4 = length ∧ dest' o = 0 := by
  unfold compactEnd
  by_cases heq : last = length
  · rw [if_pos heq]
    refine ⟨[], dest, rfl, Nat.zero_le _, ?_, fun o => .inl rfl⟩
    rw [bitpackedFrom, heq, if_neg (by decide), if_neg (by simp)]
  · rw [if_neg heq]
    have hroom : last ≤ length - 4 := by omega
    obtain ⟨store, hstore, hdist⟩ := storeOffset_eq hroom (by omega) hlast (by omega)
    refine ⟨compactItem store 0, Function.update dest (length - 4) 0, by rw [hstore]; rfl,
      compactItem_fits (by omega) hlt, ?_, ?_⟩
    · have hdec : bitpackedFrom length dest last 2 (compactItem store 0 ++ []) =
          bitpackedFrom length (Function.update dest (last + 4 * store) 0) (last + 4 * store + 4) 2
            [] := bitpacked_item (by omega) hlt []
      have hend : last + 4 * store + 4 = length := by omega
      rw [List.append_nil] at hdec
      rw [hdec, hend, hdist, bitpackedFrom, if_neg (by decide), if_neg (by simp)]
    · intro o
      by_cases ho : o = length - 4
      · refine .inr ⟨by omega, by omega, ?_⟩
        rw [ho, Function.update_self]
      · exact .inl (Function.update_of_ne ho _ _)

end Items

/-- The event is read back from its compact form: every filled item, and no other one, except that
the last one of the array may become zero. -/
theorem compact_event_read_back {length words : Nat} {ptr dest : Nat → UInt32}
    {stale : Nat → Nat → Nat} {offsets : List Nat} (h4 : 4 ∣ length) (hlt : length < 2 ^ 32)
    (hstale : WordsFit stale) (hin : ∀ o ∈ offsets, 4 ∣ o ∧ o + 4 ≤ length) :
    ∃ bytes dest', compactEvent length words ptr stale offsets = some bytes ∧
      extDataWriteBitpackedEvent dest length bytes = .ok dest' ∧
      (∀ o ∈ offsets, dest' o = ptr o) ∧
      ∀ o, o ∉ offsets → dest' o = dest o ∨ o + 4 = length ∧ dest' o = 0 := by
  have hmem := mem_eventItems hstale hin
  have hsorted := eventItems_sorted hstale length offsets
  have hitems : ∀ i ∈ eventItems length (eventMasks stale offsets),
      0 ≤ i * 4 ∧ i * 4 + 4 ≤ length := by
    intro i hi
    exact ⟨Nat.zero_le _, (hin _ ((hmem i).mp hi)).2⟩
  obtain ⟨bytes, last, hbytes, hrun⟩ :=
    compactItems_run ptr hlt (Nat.zero_le _) (Nat.dvd_zero 4) hsorted hitems
  obtain ⟨tail, dest', htail, htailLen, hdec, hdest⟩ := compactEnd_run h4 hlt hrun.aligned
    hrun.last_le (fillItems ptr dest (eventItems length (eventMasks stale offsets)))
  have hcount := eventItems_length_le hstale hin
  have hbound : (bytes ++ tail).length ≤
      rewriteMaxBytesPerItem length * (offsets.length + 1) := by
    have hmul := Nat.mul_le_mul_left (rewriteMaxBytesPerItem length) hcount
    have hb := hrun.bytes_le
    rw [List.length_append, Nat.mul_add, Nat.mul_one]
    omega
  refine ⟨bytes ++ tail, dest', ?_, ?_, ?_, ?_⟩
  · have hany : ¬ (offsets.any fun offset => decide (length < offset + 4)) = true := by
      rw [List.any_eq_true]
      rintro ⟨o, ho, hlong⟩
      have := (hin o ho).2
      have := of_decide_eq_true hlong
      omega
    unfold compactEvent
    rw [if_neg hany]
    simp only [hbytes, htail, Option.bind_eq_bind, Option.bind_some]
    rw [if_pos (by omega)]
  · unfold extDataWriteBitpackedEvent
    rw [hrun.decoded, hdec]
  · intro o ho
    obtain ⟨i, rfl⟩ := (hin o ho).1
    rw [Nat.mul_comm] at ho ⊢
    have hi := (hmem i).mpr ho
    have hfilled : fillItems ptr dest (eventItems length (eventMasks stale offsets)) (i * 4) =
        ptr (i * 4) := by
      rw [fillItems_apply, if_pos (List.mem_map_of_mem hi)]
    have hbefore := hrun.items_le i hi
    rcases hdest (i * 4) with h | ⟨h, -, -⟩
    · rw [h, hfilled]
    · omega
  · intro o ho
    have hnot : fillItems ptr dest (eventItems length (eventMasks stale offsets)) o = dest o := by
      rw [fillItems_apply, if_neg]
      intro hmap
      obtain ⟨i, hi, rfl⟩ := List.mem_map.mp hmap
      exact ho ((hmem i).mp hi)
    rcases hdest o with h | ⟨-, h, h0⟩
    · exact .inl (h.trans hnot)
    · exact .inr ⟨h, h0⟩

theorem compact_event_read_back_demo :
    ∃ bytes dest', compactEvent 100 5 (fun o => UInt32.ofNat (o * o * o * 4099)) (fun _ _ => 7)
        [40, 0, 4, 4, 20, 96, 44] = some bytes ∧
      extDataWriteBitpackedEvent (fun _ => 1) 100 bytes = .ok dest' ∧
      (∀ o ∈ [40, 0, 4, 4, 20, 96, 44], dest' o = UInt32.ofNat (o * o * o * 4099)) ∧
      ∀ o, o ∉ [40, 0, 4, 4, 20, 96, 44] → dest' o = 1 ∨ o + 4 = 100 ∧ dest' o = 0 :=
  compact_event_read_back (by decide) (by decide) (fun _ _ => by decide) (by decide)

end Ucesb
