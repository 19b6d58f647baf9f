import Ucesb.CwnItems
import Ucesb.PackRoundTrip

namespace Ucesb

section Skip

def Skipped (s r : Nat × Nat) : Prop :=
  ∃ t, r = (s.1 >>> t, s.2 + t) ∧ ∀ j, j < t → s.1.testBit j = false

theorem Skipped.refl (s : Nat × Nat) : Skipped s s := ⟨0, rfl, fun _ hj => absurd hj (by omega)⟩

theorem Skipped.trans {s r q : Nat × Nat} (h : Skipped s r) (h' : Skipped r q) : Skipped s q := by
  obtain ⟨t, rfl, ht⟩ := h
  obtain ⟨u, rfl, hu⟩ := h'
  refine ⟨t + u, ?_, ?_⟩
  · rw [Nat.shiftRight_add, Nat.add_assoc]
  · intro j hj
    by_cases hlow : j < t
    · exact ht j hlow
    · have hbit := hu (j - t) (by omega)
      rw [Nat.testBit_shiftRight] at hbit
      rwa [show t + (j - t) = j by omega] at hbit

theorem skipped_of_mod {s : Nat × Nat} {n : Nat} (h : s.1 % 2 ^ n = 0) :
    Skipped s (s.1 >>> n, s.2 + n) := by
  refine ⟨n, rfl, ?_⟩
  intro j hj
  have hbit : (s.1 % 2 ^ n).testBit j = false := by rw [h, Nat.zero_testBit]
  rw [Nat.testBit_mod_two_pow] at hbit
  simpa [hj] using hbit

theorem skipLow_spec {s : Nat × Nat} {n : Nat} (h : s.1 % 2 ^ (n + n) ≠ 0) :
    Skipped s (skipLow n s) ∧ (skipLow n s).1 % 2 ^ n ≠ 0 := by
  unfold skipLow
  rw [Nat.and_two_pow_sub_one_eq_mod]
  split
  · next hlow =>
    refine ⟨skipped_of_mod hlow, ?_⟩
    rw [Nat.pow_add, Nat.mod_mul, hlow, Nat.zero_add] at h
    change (s.1 >>> n) % 2 ^ n ≠ 0
    rw [Nat.shiftRight_eq_div_pow]
    intro hzero
    rw [hzero] at h
    exact h (Nat.mul_zero _)
  · next hlow => exact ⟨Skipped.refl s, hlow⟩

theorem skipBytes_spec {s : Nat × Nat} (fuel : Nat) (hne : s.1 ≠ 0) (hlt : s.1 < 2 ^ (8 * fuel)) :
    Skipped s (skipBytes fuel s) ∧ (skipBytes fuel s).1 % 2 ^ 8 ≠ 0 := by
  induction fuel generalizing s with
  | zero =>
    simp only [Nat.mul_zero, Nat.pow_zero] at hlt
    omega
  | succ fuel ih =>
    have hand : s.1 &&& 0xff = s.1 % 2 ^ 8 := Nat.and_two_pow_sub_one_eq_mod _ 8
    unfold skipBytes
    rw [hand]
    split
    · next hlow =>
      have hdiv : s.1 >>> 8 = s.1 / 2 ^ 8 := Nat.shiftRight_eq_div_pow _ _
      have hbound : s.1 >>> 8 < 2 ^ (8 * fuel) := by
        rw [hdiv]
        apply Nat.div_lt_of_lt_mul
        rwa [← Nat.pow_add, show 8 + 8 * fuel = 8 * (fuel + 1) by omega]
      have hnext := ih (s := (s.1 >>> 8, s.2 + 8)) (by omega) hbound
      exact ⟨(skipped_of_mod hlow).trans hnext.1, hnext.2⟩
    · next hlow => exact ⟨Skipped.refl s, hlow⟩

theorem skipToBit_spec {s : Nat × Nat} (hne : s.1 ≠ 0) (hlt : s.1 < 2 ^ 64) :
    ∃ t, skipToBit s = (s.1 >>> t, s.2 + t) ∧ (∀ j, j < t → s.1.testBit j = false) ∧
      s.1.testBit t = true := by
  obtain ⟨h8, hb8⟩ := skipBytes_spec 8 hne hlt
  obtain ⟨h4, hb4⟩ := skipLow_spec (n := 4) hb8
  obtain ⟨h2, hb2⟩ := skipLow_spec (n := 2) hb4
  obtain ⟨h1, hb1⟩ := skipLow_spec (n := 1) hb2
  obtain ⟨t, ht, hlow⟩ := ((h8.trans h4).trans h2).trans h1
  refine ⟨t, ht, hlow, ?_⟩
  rw [ht] at hb1
  have hodd : (s.1 >>> t).testBit 0 = true := by
    rw [Nat.testBit_zero]
    simp only [decide_eq_true_eq]
    have : s.1 >>> t % 2 ≠ 0 := hb1
    omega
  rwa [Nat.testBit_shiftRight, Nat.add_zero] at hodd

end Skip

section Scan

variable {mem : Nat → UInt8} {srcBits used itemsMax : Nat}

theorem filter_range_append {p : Nat → Bool} (s t n : Nat) (h : ∀ k, s ≤ k → k < s + t → p k = false) :
    (List.range' s (t + n)).filter p = (List.range' (s + t) n).filter p := by
  rw [← List.range'_append_1, List.filter_append]
  have hnone : (List.range' s t).filter p = [] := by
    rw [List.filter_eq_nil_iff]
    intro k hk
    rw [List.mem_range'_1] at hk
    simp [h k hk.1 hk.2]
  rw [hnone, List.nil_append]

theorem scanLong_eq {fuel n : Nat} {s : Nat × Nat} {l : List Nat}
    (h : scanLong used itemsMax fuel s = some l) (hlt : s.1 < 2 ^ n) (hn : n ≤ 64)
    (hfuel : n ≤ fuel) :
    l = (List.range' s.2 n).filter fun k => decide (k < used) && s.1.testBit (k - s.2) := by
  induction fuel generalizing n s l with
  | zero =>
    cases Nat.le_zero.mp hfuel
    cases h
    rfl
  | succ fuel ih =>
    unfold scanLong at h
    split at h
    · next hzero =>
      cases h
      symm
      rw [List.filter_eq_nil_iff]
      intro k _
      simp [hzero]
    · next hne =>
      have hlt64 : s.1 < 2 ^ 64 := Nat.lt_of_lt_of_le hlt (Nat.pow_le_pow_right (by omega) hn)
      obtain ⟨t, heq, hlow, hbit⟩ := skipToBit_spec hne hlt64
      have htn : t < n := by
        by_contra hge
        have hfalse : s.1.testBit t = false := Nat.testBit_lt_two_pow
          (Nat.lt_of_lt_of_le hlt (Nat.pow_le_pow_right (by omega) (Nat.not_lt.mp hge)))
        rw [hfalse] at hbit
        cases hbit
      rw [heq] at h
      dsimp only at h
      obtain ⟨m, rfl⟩ : ∃ m, n = t + (1 + m) := ⟨n - t - 1, by omega⟩
      rw [filter_range_append]
      · split at h
        · next hused =>
          split at h
          · cases h
            symm
            rw [List.filter_eq_nil_iff]
            intro k hk
            rw [List.mem_range'_1] at hk
            simp only [Bool.and_eq_true, decide_eq_true_eq, not_and]
            omega
          · cases h
        · next hused =>
          obtain ⟨rest, hrest, rfl⟩ := Option.map_eq_some_iff.mp h
          have hshift : s.1 >>> t >>> 1 < 2 ^ m := by
            rw [← Nat.shiftRight_add, Nat.shiftRight_eq_div_pow]
            apply Nat.div_lt_of_lt_mul
            rwa [← Nat.pow_add, Nat.add_assoc]
          have hih := ih hrest hshift (by omega) (by omega)
          rw [hih, Nat.add_comm 1 m, List.range'_succ, List.filter_cons_of_pos]
          · congr 1
            apply List.filter_congr
            intro k hk
            rw [List.mem_range'_1] at hk
            dsimp only
            rw [← Nat.shiftRight_add, Nat.testBit_shiftRight,
              show t + 1 + (k - (s.2 + t + 1)) = k - s.2 by omega]
          · simp only [Bool.and_eq_true, decide_eq_true_eq]
            exact ⟨by omega, by rwa [Nat.add_sub_cancel_left]⟩
      · intro k hlo hhi
        rw [hlow (k - s.2) (by omega), Bool.and_false]

theorem long_lt (mem : Nat → UInt8) (a : Nat) : loadN mem a 8 < 2 ^ 64 := by
  have h := loadN_lt mem a 8
  rwa [show (256 : Nat) = 2 ^ 8 from rfl, ← Nat.pow_mul] at h

def bitAt (mem : Nat → UInt8) (srcBits k : Nat) : Bool :=
  (loadN mem (srcBits + 8 * (k / 64)) 8).testBit (k % 64)

theorem scanBits_eq {n m : Nat} {l : List Nat}
    (h : scanBits mem srcBits used itemsMax n (64 * m) = some l) :
    l = (List.range' (64 * m) (64 * n)).filter fun k => decide (k < used) && bitAt mem srcBits k := by
  induction n generalizing m l with
  | zero =>
    cases h
    rfl
  | succ n ih =>
    rw [scanBits] at h
    obtain ⟨here, hhere, h⟩ := Option.bind_eq_some_iff.mp h
    obtain ⟨rest, hrest, h⟩ := Option.bind_eq_some_iff.mp h
    cases h
    have hlong := scanLong_eq hhere (long_lt mem _) (Nat.le_refl 64) (Nat.le_refl 64)
    have hlater := ih (m := m + 1) hrest
    rw [hlong, hlater, show 64 * (n + 1) = 64 + 64 * n by omega, ← List.range'_append_1,
      List.filter_append, show 64 * (m + 1) = 64 * m + 64 by omega]
    refine congrArg (· ++ _) (List.filter_congr ?_)
    intro k hk
    rw [List.mem_range'_1] at hk
    unfold bitAt
    rw [show 64 * m / 8 = 8 * (k / 64) by omega, show k % 64 = k - 64 * m by omega]

def filledIndices (mem : Nat → UInt8) (srcBits used : Nat) : List Nat :=
  (List.range used).filter (bitAt mem srcBits)

theorem mem_filledIndices {k : Nat} :
    k ∈ filledIndices mem srcBits used ↔ k < used ∧ bitAt mem srcBits k = true := by
  rw [filledIndices, List.mem_filter, List.mem_range]

theorem filledIndices_length_le : (filledIndices mem srcBits used).length ≤ used := by
  have hle := List.length_filter_le (bitAt mem srcBits) (List.range used)
  rwa [List.length_range] at hle

theorem scanBits_filled {l : List Nat}
    (h : scanBits mem srcBits used itemsMax (longCount used) 0 = some l) :
    l = filledIndices mem srcBits used := by
  have hscan := scanBits_eq (m := 0) h
  have hcount : 64 * longCount used = used + (64 * longCount used - used) := by
    unfold longCount
    omega
  rw [hscan, hcount, Nat.mul_zero, ← List.range'_append_1, List.filter_append, filledIndices,
    List.range_eq_range']
  have hnone : (List.range' (0 + used) (64 * longCount used - used)).filter
      (fun k => decide (k < used) && bitAt mem srcBits k) = [] := by
    rw [List.filter_eq_nil_iff]
    intro k hk
    rw [List.mem_range'_1] at hk
    simp only [Bool.and_eq_true, decide_eq_true_eq, not_and]
    omega
  rw [hnone, List.append_nil]
  apply List.filter_congr
  intro k hk
  rw [List.mem_range'_1] at hk
  rw [decide_eq_true (by omega), Bool.true_and]

end Scan

section Words

variable {ops : FloatOps} {mem : Nat → UInt8} {limitIndex : Nat}

def entryWords (ops : FloatOps) (mem : Nat → UInt8) (entries : List (List IndItem)) : List Nat :=
  entries.flatten.map (IndItem.word ops mem)

theorem cwnFillEntry_eq {first : Bool} {e : List IndItem} {r : Option (List Nat)}
    (h : cwnFillEntry ops mem limitIndex first e = some r) :
    r = if e.all (fun i => !i.cut mem limitIndex) then some (e.map (IndItem.word ops mem))
      else none := by
  induction e generalizing first r with
  | nil =>
    cases h
    rfl
  | cons i items ih =>
    unfold cwnFillEntry at h
    rw [List.all_cons]
    split at h
    · next hcut =>
      rw [hcut]
      split at h
      · cases h
        rfl
      · cases h
    · next hcut =>
      obtain ⟨rest, hrest, rfl⟩ := Option.map_eq_some_iff.mp h
      rw [Bool.eq_false_iff.mpr hcut, ih hrest, Bool.not_false, Bool.true_and]
      split
      · rfl
      · rfl

theorem cwnFillEntry_uncut (first : Bool) (e : List IndItem) :
    cwnFillEntry ops mem 0 first e = some (some (e.map (IndItem.word ops mem))) := by
  induction e generalizing first with
  | nil => rfl
  | cons i items ih =>
    have huncut : i.cut mem 0 = false := by simp [IndItem.cut]
    simp [cwnFillEntry, huncut, ih]

def uncutEntries (mem : Nat → UInt8) (limitIndex : Nat) (entries : List (List IndItem)) :
    List (List IndItem) :=
  entries.takeWhile fun e => e.all fun i => !i.cut mem limitIndex

theorem cwnFillIndexedItem_eq {entries : List (List IndItem)} {k : Nat} {words : List Nat}
    (h : cwnFillIndexedItem ops mem limitIndex entries = some (k, words)) :
    k = (uncutEntries mem limitIndex entries).length ∧
      words = entryWords ops mem (uncutEntries mem limitIndex entries) := by
  induction entries generalizing k words with
  | nil =>
    cases h
    exact ⟨rfl, rfl⟩
  | cons e entries ih =>
    obtain ⟨r, hr, h⟩ := Option.bind_eq_some_iff.mp h
    have hentry := cwnFillEntry_eq hr
    unfold uncutEntries
    rw [List.takeWhile_cons]
    split at hentry
    · next hall =>
      rw [if_pos hall]
      subst hentry
      obtain ⟨⟨k, rest⟩, hrest, h⟩ := Option.bind_eq_some_iff.mp h
      cases h
      obtain ⟨rfl, rfl⟩ := ih hrest
      simp [uncutEntries, entryWords]
    · next hall =>
      rw [hentry] at h
      cases h
      rw [if_neg hall]
      exact ⟨rfl, rfl⟩

theorem cwnFillIndexedItem_uncut (entries : List (List IndItem)) :
    cwnFillIndexedItem ops mem 0 entries = some (entries.length, entryWords ops mem entries) := by
  induction entries with
  | nil => rfl
  | cons e entries ih =>
    simp [cwnFillIndexedItem, cwnFillEntry_uncut, ih, entryWords]

theorem cwnFillEntries_eq {entries : List (List IndItem)} {n offset : Nat} {words : List Nat}
    (h : cwnFillEntries ops mem entries n offset = some words) :
    offset + n ≤ entries.length ∧
      words = entryWords ops mem ((entries.drop offset).take n) := by
  unfold cwnFillEntries at h
  split at h
  · next hle =>
    rw [cwnFillIndexedItem_uncut] at h
    cases h
    exact ⟨hle, rfl⟩
  · cases h

end Words

section Take

/-- The entries take the words, and assign each to an offset. -/
inductive EntriesTake : List PackEntry → List Nat → List (Nat × Nat) → Prop
  | nil : EntriesTake [] [] []
  | item {offset value : Nat} {entries : List PackEntry} {p : List Nat} {slots : List (Nat × Nat)}
      (h : EntriesTake entries p slots) :
      EntriesTake (.item offset :: entries) (value :: p) ((offset, value) :: slots)
  | loop {offset maxLoops loopSize value : Nat} {items words : List Nat}
      {entries : List PackEntry} {p : List Nat} {slots : List (Nat × Nat)}
      (hvalue : value ≤ maxLoops) (hwords : words.length = value * loopSize)
      (h : EntriesTake entries p slots) :
      EntriesTake (.loop offset maxLoops loopSize items :: entries) (value :: (words ++ p))
        ((offset, value) :: (items.zip words ++ slots))

def storeSlots (dest : Nat → UInt8) (slots : List (Nat × Nat)) : Nat → UInt8 :=
  slots.foldl (fun dest s => store32 dest s.1 s.2) dest

theorem EntriesTake.length_le {entries : List PackEntry} {words : List Nat}
    {slots : List (Nat × Nat)} (h : EntriesTake entries words slots) :
    entries.length ≤ words.length := by
  induction h with
  | nil => exact Nat.le_refl _
  | item _ ih => exact Nat.succ_le_succ ih
  | loop _ _ _ ih =>
    simp only [List.length_cons, List.length_append]
    omega

theorem EntriesTake.append {e1 e2 : List PackEntry} {w1 w2 : List Nat} {s1 s2 : List (Nat × Nat)}
    (h1 : EntriesTake e1 w1 s1) (h2 : EntriesTake e2 w2 s2) :
    EntriesTake (e1 ++ e2) (w1 ++ w2) (s1 ++ s2) := by
  induction h1 with
  | nil => exact h2
  | item _ ih => exact .item ih
  | loop hvalue hwords _ ih =>
    simp only [List.cons_append, List.append_assoc]
    exact .loop hvalue hwords ih

theorem loopOffsets_append {n : Nat} {o items : List Nat} (h : loopOffsets n o = some items)
    (o' : List Nat) : loopOffsets n (o ++ o') = some items := by
  induction n generalizing o items with
  | zero => exact h
  | succ n ih =>
    obtain ⟨mark, offset, o, rest, rfl, rfl, hrest⟩ := loopOffsets_succ h
    simp only [List.cons_append, loopOffsets, ih hrest, Option.map_some]

theorem PackListOf.append {l1 l2 : List Nat} {e1 e2 : List PackEntry} (h1 : PackListOf l1 e1)
    (h2 : PackListOf l2 e2) : PackListOf (l1 ++ l2) (e1 ++ e2) := by
  induction h1 with
  | nil => exact h2
  | item hmark _ ih => exact .item hmark ih
  | loop hmark hitems _ ih =>
    simp only [List.cons_append]
    refine .loop hmark (loopOffsets_append hitems _) ?_
    rwa [List.drop_append_of_le_length (loopOffsets_length hitems).2]

theorem storeItems_zip {n : Nat} {o items words : List Nat} (h : loopOffsets n o = some items)
    (hle : words.length ≤ n) (p : List Nat) (dest : Nat → UInt8) :
    storeItems words.length o (words ++ p) dest = some (p, storeSlots dest (items.zip words)) := by
  induction words generalizing n o items dest with
  | nil =>
    rw [List.zip_nil_right]
    rfl
  | cons value words ih =>
    obtain ⟨n, rfl⟩ : ∃ m, n = m + 1 := ⟨n - 1, by simp only [List.length_cons] at hle; omega⟩
    obtain ⟨mark, offset, o, rest, rfl, rfl, hrest⟩ := loopOffsets_succ h
    exact ih hrest (by simpa using hle) _

variable {list : List Nat} {entries : List PackEntry} {words : List Nat} {slots : List (Nat × Nat)}

theorem packedFrom_take {fuel : Nat} (hof : PackListOf list entries)
    (htake : EntriesTake entries words slots) (hcount : ∀ e ∈ entries, e.Counted)
    (hlen : list.length < 2 ^ 30) (hfuel : entries.length ≤ fuel) (dest : Nat → UInt8) :
    packedFrom fuel list words (words.length - entries.length) dest =
      some (0, storeSlots dest slots) := by
  induction hof generalizing fuel words slots dest with
  | nil =>
    cases htake
    unfold packedFrom
    rfl
  | @item mark offset o entries hmark _ ih =>
    cases htake with
    | @item _ value _ p slots htake =>
      simp only [List.length_cons] at hfuel hlen
      obtain ⟨fuel, rfl⟩ : ∃ j, fuel = j + 1 := ⟨fuel - 1, by omega⟩
      have hrest := ih htake (fun e he => hcount e (List.mem_cons_of_mem _ he)) (by omega)
        (Nat.le_of_succ_le_succ hfuel) (store32 dest offset value)
      have hextra : p.length + 1 - (entries.length + 1) = p.length - entries.length := by omega
      unfold packedFrom
      simp only [hmark, if_true, List.length_cons, hextra]
      exact hrest
  | @loop mark offset maxLoops loopSize o items entries hmark hitems _ ih =>
    cases htake with
    | @loop _ _ _ value _ vals _ p slots hvalue hvals htake =>
      simp only [List.length_cons] at hfuel hlen
      obtain ⟨fuel, rfl⟩ : ∃ j, fuel = j + 1 := ⟨fuel - 1, by omega⟩
      obtain ⟨-, hskip, hmod, hle, -⟩ :=
        loop_counts hitems (hcount _ List.mem_cons_self) (by omega) hvalue
      have hstatic := htake.length_le
      have hrest := ih htake (fun e he => hcount e (List.mem_cons_of_mem _ he))
        (by rw [List.length_drop]; omega) (Nat.le_of_succ_le_succ hfuel)
        (storeSlots (store32 dest offset value) (items.zip vals))
      have hextra : vals.length + p.length + 1 - (entries.length + 1) - vals.length =
          p.length - entries.length := by omega
      unfold packedFrom
      dsimp only
      rw [if_neg hmark, if_neg (by omega), hmod, hskip, ← hvals]
      simp only [List.length_cons, List.length_append]
      rw [if_neg (by omega), storeItems_zip hitems (by omega)]
      simp only [Option.bind_eq_bind, Option.bind_some, hextra, hrest]
      simp [storeSlots, List.foldl_append]

theorem packEntriesFrom_of {fuel : Nat} (hof : PackListOf list entries)
    (hcount : ∀ e ∈ entries, e.Counted) (hlen : list.length < 2 ^ 30)
    (hfuel : entries.length ≤ fuel) : packEntriesFrom fuel list = some entries := by
  induction hof generalizing fuel with
  | nil =>
    unfold packEntriesFrom
    rfl
  | @item mark offset o entries hmark _ ih =>
    simp only [List.length_cons] at hfuel hlen
    obtain ⟨fuel, rfl⟩ : ∃ j, fuel = j + 1 := ⟨fuel - 1, by omega⟩
    have hrest := ih (fun e he => hcount e (List.mem_cons_of_mem _ he)) (by omega)
      (Nat.le_of_succ_le_succ hfuel)
    unfold packEntriesFrom
    simp only [hmark, if_true, hrest, Option.map_some]
  | @loop mark offset maxLoops loopSize o items entries hmark hitems _ ih =>
    simp only [List.length_cons] at hfuel hlen
    obtain ⟨fuel, rfl⟩ : ∃ j, fuel = j + 1 := ⟨fuel - 1, by omega⟩
    have hrest := ih (fun e he => hcount e (List.mem_cons_of_mem _ he))
      (by rw [List.length_drop]; omega) (Nat.le_of_succ_le_succ hfuel)
    have htwice := (loopOffsets_length hitems).2
    unfold packEntriesFrom
    dsimp only
    rw [if_neg hmark, if_neg (by omega), hitems, hrest]
    rfl

def PackTakes (list words : List Nat) (slots : List (Nat × Nat)) : Prop :=
  ∃ entries, PackListOf list entries ∧ (∀ e ∈ entries, e.Counted) ∧ EntriesTake entries words slots

theorem PackTakes.append {l1 l2 w1 w2 : List Nat} {s1 s2 : List (Nat × Nat)}
    (h1 : PackTakes l1 w1 s1) (h2 : PackTakes l2 w2 s2) :
    PackTakes (l1 ++ l2) (w1 ++ w2) (s1 ++ s2) := by
  obtain ⟨e1, hof1, hcount1, htake1⟩ := h1
  obtain ⟨e2, hof2, hcount2, htake2⟩ := h2
  refine ⟨e1 ++ e2, hof1.append hof2, ?_, htake1.append htake2⟩
  intro e he
  rcases List.mem_append.mp he with he | he
  · exact hcount1 e he
  · exact hcount2 e he

theorem PackTakes.nil : PackTakes [] [] [] :=
  ⟨[], .nil, fun _ he => absurd he List.not_mem_nil, .nil⟩

theorem PackTakes.packed (h : PackTakes list words slots) (hlen : list.length < 2 ^ 30) :
    ∃ entries, packEntries list = some entries ∧ ∀ dest,
      extDataWritePackedEvent list entries.length dest words = some (0, storeSlots dest slots) := by
  obtain ⟨entries, hof, hcount, htake⟩ := h
  refine ⟨entries, ?_, ?_⟩
  · rw [packEntries, if_pos hlen]
    exact packEntriesFrom_of hof hcount hlen hof.length_le
  · intro dest
    have hle := htake.length_le
    rw [extDataWritePackedEvent, if_neg (by omega)]
    exact packedFrom_take hof htake hcount hlen hof.length_le dest

theorem EntriesTake.words_eq (hof : PackListOf list entries)
    (htake : EntriesTake entries words slots) (hcount : ∀ e ∈ entries, e.Counted) :
    words = slots.map Prod.snd := by
  induction hof generalizing words slots with
  | nil =>
    cases htake
    rfl
  | item _ _ ih =>
    cases htake with
    | item htake =>
      rw [List.map_cons, ← ih htake fun e he => hcount e (List.mem_cons_of_mem _ he)]
  | @loop mark offset maxLoops loopSize o items entries _ hitems _ ih =>
    cases htake with
    | @loop _ _ _ value _ vals _ p slots hvalue hvals htake =>
      have hsmall : maxLoops * loopSize < 2 ^ 32 := hcount _ List.mem_cons_self
      have hlength := (loopOffsets_length hitems).1
      have hle := Nat.mul_le_mul_right loopSize hvalue
      rw [Nat.mod_eq_of_lt hsmall] at hlength
      rw [List.map_cons, List.map_append, List.map_snd_zip (by omega),
        ← ih htake fun e he => hcount e (List.mem_cons_of_mem _ he)]

theorem PackTakes.words_eq (h : PackTakes list words slots) : words = slots.map Prod.snd := by
  obtain ⟨entries, hof, hcount, htake⟩ := h
  exact htake.words_eq hof hcount

theorem PackTakes.concat {α : Type} {f g : α → Option (List Nat)} {spec : α → List (Nat × Nat)}
    {as : List α} {list words : List Nat}
    (h : ∀ a ∈ as, ∀ l w, f a = some l → g a = some w → l.length < 2 ^ 30 → PackTakes l w (spec a))
    (hf : concatSome f as = some list) (hg : concatSome g as = some words)
    (hlen : list.length < 2 ^ 30) : PackTakes list words (as.flatMap spec) := by
  induction as generalizing list words with
  | nil =>
    cases hf
    cases hg
    exact .nil
  | cons a as ih =>
    obtain ⟨l, hl, hf⟩ := Option.bind_eq_some_iff.mp hf
    obtain ⟨ls, hls, hf⟩ := Option.bind_eq_some_iff.mp hf
    obtain ⟨w, hw, hg⟩ := Option.bind_eq_some_iff.mp hg
    obtain ⟨ws, hws, hg⟩ := Option.bind_eq_some_iff.mp hg
    cases hf
    cases hg
    rw [List.length_append] at hlen
    rw [List.flatMap_cons]
    exact (h a List.mem_cons_self l w hl hw (by omega)).append
      (ih (fun b hb => h b (List.mem_cons_of_mem _ hb)) hls hws (by omega))

end Take

end Ucesb
