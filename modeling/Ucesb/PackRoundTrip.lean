import Ucesb.PackList

namespace Ucesb

section Memory

variable {stage dest : Nat → UInt8}

theorem load32_byte (mem : Nat → UInt8) (a : Nat) {i : Nat} (hi : i < 4) :
    UInt8.ofNat (load32 mem a / 2 ^ (8 * i)) = mem (a + i) := by
  have h0 := (mem a).toNat_lt
  have h1 := (mem (a + 1)).toNat_lt
  have h2 := (mem (a + 2)).toNat_lt
  have h3 := (mem (a + 3)).toNat_lt
  apply UInt8.toNat_inj.mp
  rw [UInt8.toNat_ofNat']
  unfold load32
  obtain rfl | rfl | rfl | rfl : i = 0 ∨ i = 1 ∨ i = 2 ∨ i = 3 := by omega
  · simp only [Nat.mul_zero, Nat.add_zero]
    omega
  · omega
  · omega
  · omega

theorem load32_lt (mem : Nat → UInt8) (a : Nat) : load32 mem a < 2 ^ 32 := by
  have h0 := (mem a).toNat_lt
  have h1 := (mem (a + 1)).toNat_lt
  have h2 := (mem (a + 2)).toNat_lt
  have h3 := (mem (a + 3)).toNat_lt
  unfold load32
  omega

def restore (stage dest : Nat → UInt8) (offsets : List Nat) : Nat → UInt8 :=
  offsets.foldl (fun dest offset => store32 dest offset (load32 stage offset)) dest

theorem store32_load32 (a b : Nat) :
    store32 dest a (load32 stage a) b = if a ≤ b ∧ b < a + 4 then stage b else dest b := by
  unfold store32
  split
  · next h =>
    have hb : a + (b - a) = b := by omega
    rw [load32_byte stage a (by omega), hb]
  · rfl

theorem restore_apply (stage dest : Nat → UInt8) (offsets : List Nat) (b : Nat) :
    restore stage dest offsets b =
      if ∃ a ∈ offsets, a ≤ b ∧ b < a + 4 then stage b else dest b := by
  induction offsets generalizing dest with
  | nil => simp [restore]
  | cons a offsets ih =>
    change restore stage (store32 dest a (load32 stage a)) offsets b = _
    rw [ih, store32_load32]
    by_cases hlater : ∃ c ∈ offsets, c ≤ b ∧ b < c + 4
    · obtain ⟨c, hc, hb⟩ := hlater
      rw [if_pos ⟨c, hc, hb⟩, if_pos ⟨c, List.mem_cons_of_mem _ hc, hb⟩]
    · rw [if_neg hlater]
      by_cases hhere : a ≤ b ∧ b < a + 4
      · rw [if_pos hhere, if_pos ⟨a, List.mem_cons_self, hhere⟩]
      · rw [if_neg hhere, if_neg]
        rintro ⟨c, hc, hb⟩
        rcases List.mem_cons.mp hc with rfl | hc
        · exact hhere hb
        · exact hlater ⟨c, hc, hb⟩

end Memory

def PackEntry.used (mem : Nat → UInt8) : PackEntry → List Nat
  | .item offset => [offset]
  | .loop offset _ loopSize items => offset :: items.take (load32 mem offset * loopSize)

def usedItems (mem : Nat → UInt8) (entries : List PackEntry) : List Nat :=
  entries.flatMap (PackEntry.used mem)

def PackEntry.Bounded (mem : Nat → UInt8) : PackEntry → Prop
  | .item _ => True
  | .loop offset maxLoops _ _ => load32 mem offset ≤ maxLoops

def PackEntry.Counted : PackEntry → Prop
  | .item _ => True
  | .loop _ maxLoops loopSize _ => maxLoops * loopSize < 2 ^ 32

instance (mem : Nat → UInt8) : DecidablePred (PackEntry.Bounded mem)
  | .item _ => inferInstanceAs (Decidable True)
  | .loop offset maxLoops _ _ => inferInstanceAs (Decidable (load32 mem offset ≤ maxLoops))

instance : DecidablePred PackEntry.Counted
  | .item _ => inferInstanceAs (Decidable True)
  | .loop _ maxLoops loopSize _ => inferInstanceAs (Decidable (maxLoops * loopSize < 2 ^ 32))

def PackEntry.LowItems : PackEntry → Prop
  | .item _ => True
  | .loop _ _ _ items => ∀ a ∈ items, a < 2 ^ 30

/-- The entries that a list spells out. -/
inductive PackListOf : List Nat → List PackEntry → Prop
  | nil : PackListOf [] []
  | item {mark offset : Nat} {o : List Nat} {entries : List PackEntry}
      (hmark : mark &&& externalWriterMarkLoop = 0) (h : PackListOf o entries) :
      PackListOf (mark :: offset :: o) (.item offset :: entries)
  | loop {mark offset maxLoops loopSize : Nat} {o items : List Nat} {entries : List PackEntry}
      (hmark : mark &&& externalWriterMarkLoop ≠ 0)
      (hitems : loopOffsets (maxLoops * loopSize % 2 ^ 32) o = some items)
      (h : PackListOf (o.drop (2 * (maxLoops * loopSize % 2 ^ 32))) entries) :
      PackListOf (mark :: offset :: maxLoops :: loopSize :: o)
        (.loop offset maxLoops loopSize items :: entries)

theorem PackListOf.length_le {list : List Nat} {entries : List PackEntry}
    (h : PackListOf list entries) : entries.length ≤ list.length := by
  induction h with
  | nil => exact Nat.le_refl _
  | item _ _ ih =>
    simp only [List.length_cons]
    omega
  | loop _ _ _ ih =>
    rw [List.length_drop] at ih
    simp only [List.length_cons]
    omega

theorem packListOf_of_entries {fuel : Nat} {list : List Nat} {entries : List PackEntry}
    (h : packEntriesFrom fuel list = some entries) : PackListOf list entries := by
  induction fuel generalizing list entries with
  | zero =>
    rcases list with _ | ⟨mark, _ | ⟨offset, o⟩⟩
    · cases h
      exact .nil
    · cases h
    · cases h
  | succ fuel ih =>
    unfold packEntriesFrom at h
    split at h
    · cases h
      exact .nil
    · next heq =>
      cases heq
      split at h
      · next hmark =>
        obtain ⟨rest, hrest, rfl⟩ := Option.map_eq_some_iff.mp h
        exact .item hmark (ih hrest)
      · next hmark =>
        split at h
        · dsimp only at h
          split at h
          · cases h
          · obtain ⟨offsets, hoff, h⟩ := Option.bind_eq_some_iff.mp h
            obtain ⟨rest, hrest, h⟩ := Option.bind_eq_some_iff.mp h
            cases h
            exact .loop hmark hoff (ih hrest)
        · cases h
    · cases h

section Loops

variable {n m : Nat} {o items : List Nat} {mem stage : Nat → UInt8}

theorem loopOffsets_succ (h : loopOffsets (n + 1) o = some items) :
    ∃ mark offset o' rest, o = mark :: offset :: o' ∧ items = offset :: rest ∧
      loopOffsets n o' = some rest := by
  rcases o with _ | ⟨mark, _ | ⟨offset, o'⟩⟩
  · cases h
  · cases h
  · obtain ⟨rest, hrest, rfl⟩ := Option.map_eq_some_iff.mp h
    exact ⟨mark, offset, o', rest, rfl, rfl, hrest⟩

theorem loopOffsets_length (h : loopOffsets n o = some items) :
    items.length = n ∧ 2 * n ≤ o.length := by
  induction n generalizing o items with
  | zero =>
    cases h
    exact ⟨rfl, Nat.zero_le _⟩
  | succ n ih =>
    obtain ⟨mark, offset, o', rest, rfl, rfl, hrest⟩ := loopOffsets_succ h
    obtain ⟨hlen, hle⟩ := ih hrest
    simp only [List.length_cons]
    omega

theorem loopWords_eq (f : Nat → Nat) (h : loopOffsets n o = some items) (hm : m ≤ n) :
    loopWords f mem m o = some ((items.take m).map fun a => load32 mem (f a)) := by
  induction n generalizing o items m with
  | zero =>
    cases Nat.le_zero.mp hm
    rfl
  | succ n ih =>
    obtain ⟨mark, offset, o', rest, rfl, rfl, hrest⟩ := loopOffsets_succ h
    cases m with
    | zero => rfl
    | succ m =>
      rw [loopWords, ih hrest (by omega)]
      rfl

theorem storeItems_eq (h : loopOffsets n o = some items) (hm : m ≤ n) (p : List Nat)
    (dest : Nat → UInt8) :
    storeItems m o ((items.take m).map (load32 stage) ++ p) dest =
      some (p, restore stage dest (items.take m)) := by
  induction n generalizing o items m dest with
  | zero =>
    cases Nat.le_zero.mp hm
    rfl
  | succ n ih =>
    obtain ⟨mark, offset, o', rest, rfl, rfl, hrest⟩ := loopOffsets_succ h
    cases m with
    | zero => rfl
    | succ m => exact ih hrest (by omega) _

end Loops

section Walk

variable {list : List Nat} {entries : List PackEntry} {stage : Nat → UInt8} {fuel : Nat}

/-- The words of an entry, the loop items taken from where `f` says. -/
def PackEntry.words (f : Nat → Nat) (mem : Nat → UInt8) : PackEntry → List Nat
  | .item offset => [load32 mem offset]
  | .loop offset _ loopSize items => load32 mem offset ::
      (items.take (load32 mem offset * loopSize)).map fun a => load32 mem (f a)

theorem loop_counts {maxLoops loopSize value : Nat} {o items : List Nat}
    (hitems : loopOffsets (maxLoops * loopSize % 2 ^ 32) o = some items)
    (hcount : maxLoops * loopSize < 2 ^ 32) (hlen : o.length < 2 ^ 30) (hvalue : value ≤ maxLoops) :
    maxLoops * loopSize % 2 ^ 32 = maxLoops * loopSize ∧
      2 * maxLoops * loopSize % 2 ^ 32 = 2 * (maxLoops * loopSize % 2 ^ 32) ∧
      value * loopSize % 2 ^ 32 = value * loopSize ∧
      value * loopSize ≤ maxLoops * loopSize % 2 ^ 32 ∧ items.length = maxLoops * loopSize := by
  have hmod : maxLoops * loopSize % 2 ^ 32 = maxLoops * loopSize := Nat.mod_eq_of_lt hcount
  have hle : value * loopSize ≤ maxLoops * loopSize := Nat.mul_le_mul_right _ hvalue
  obtain ⟨hlength, htwice⟩ := loopOffsets_length hitems
  rw [hmod] at hlength htwice ⊢
  have htwo : 2 * maxLoops * loopSize = 2 * (maxLoops * loopSize) := Nat.mul_assoc _ _ _
  refine ⟨rfl, ?_, Nat.mod_eq_of_lt (by omega), hle, hlength⟩
  rw [htwo, Nat.mod_eq_of_lt (by omega)]

theorem packWordsFrom_eq (f : Nat → Nat) (h : PackListOf list entries) (hfuel : entries.length ≤ fuel)
    (hlen : list.length < 2 ^ 30) (hbound : ∀ e ∈ entries, e.Bounded stage)
    (hcount : ∀ e ∈ entries, e.Counted) :
    packWordsFrom f stage fuel list = some (.ok (entries.flatMap (PackEntry.words f stage))) := by
  induction h generalizing fuel with
  | nil =>
    unfold packWordsFrom
    rfl
  | @item mark offset o entries hmark _ ih =>
    simp only [List.length_cons] at hfuel hlen
    obtain ⟨fuel, rfl⟩ : ∃ k, fuel = k + 1 := ⟨fuel - 1, by omega⟩
    have hrest : packWordsFrom f stage fuel o = _ := ih (by omega) (by omega)
      (fun e he => hbound e (List.mem_cons_of_mem _ he))
      (fun e he => hcount e (List.mem_cons_of_mem _ he))
    unfold packWordsFrom
    simp only [hmark, if_true, hrest]
    rfl
  | @loop mark offset maxLoops loopSize o items entries hmark hitems _ ih =>
    simp only [List.length_cons] at hfuel hlen
    obtain ⟨fuel, rfl⟩ : ∃ k, fuel = k + 1 := ⟨fuel - 1, by omega⟩
    have hvalue : load32 stage offset ≤ maxLoops := hbound _ List.mem_cons_self
    obtain ⟨-, hskip, hmod, hle, -⟩ :=
      loop_counts hitems (hcount _ List.mem_cons_self) (by omega) hvalue
    have hrest : packWordsFrom f stage fuel (o.drop (2 * (maxLoops * loopSize % 2 ^ 32))) = _ :=
      ih (by omega) (by rw [List.length_drop]; omega)
      (fun e he => hbound e (List.mem_cons_of_mem _ he))
      (fun e he => hcount e (List.mem_cons_of_mem _ he))
    unfold packWordsFrom
    dsimp only
    rw [if_neg hmark, if_neg (by omega), hskip, hmod, hrest, loopWords_eq f hitems hle]
    simp only [Option.bind_eq_bind, Option.bind_some, Except.map, List.flatMap_cons,
      PackEntry.words, List.cons_append]

theorem words_low {entries : List PackEntry} (h : ∀ e ∈ entries, e.LowItems) :
    entries.flatMap (PackEntry.words (· &&& 0x3fffffff) stage) =
      entries.flatMap (PackEntry.words id stage) := by
  rw [List.flatMap_def, List.flatMap_def]
  congr 1
  apply List.map_congr_left
  intro e he
  cases e with
  | item offset => rfl
  | loop offset maxLoops loopSize items =>
    have hlow : ∀ a ∈ items, a < 2 ^ 30 := h _ he
    simp only [PackEntry.words]
    congr 1
    apply List.map_congr_left
    intro a ha
    have hmod : a &&& 0x3fffffff = a % 2 ^ 30 := Nat.and_two_pow_sub_one_eq_mod a 30
    rw [hmod, Nat.mod_eq_of_lt (hlow a (List.mem_of_mem_take ha)), id]

theorem packWords_length (stage : Nat → UInt8) (entries : List PackEntry) :
    entries.length ≤ (entries.flatMap (PackEntry.words id stage)).length := by
  induction entries with
  | nil => exact Nat.le_refl _
  | cons e entries ih =>
    have hone : 1 ≤ (PackEntry.words id stage e).length := by
      cases e with
      | item offset => exact Nat.le_refl _
      | loop offset maxLoops loopSize items => exact Nat.succ_le_succ (Nat.zero_le _)
    rw [List.flatMap_cons, List.length_append, List.length_cons]
    omega

theorem packedFrom_eq (fuel : Nat) (h : PackListOf list entries) (hfuel : entries.length ≤ fuel)
    (hlen : list.length < 2 ^ 30) (hbound : ∀ e ∈ entries, e.Bounded stage)
    (hcount : ∀ e ∈ entries, e.Counted) (tail : List Nat) {k : Nat} (hk : entries.length ≤ k)
    (hkle : k ≤ (entries.flatMap (PackEntry.words id stage) ++ tail).length) (dest : Nat → UInt8) :
    ∃ code dest', packedFrom fuel list
        ((entries.flatMap (PackEntry.words id stage) ++ tail).take k) (k - entries.length) dest =
          some (code, dest') ∧
      (code = 0 ↔ k = (entries.flatMap (PackEntry.words id stage)).length) ∧
      (code = 0 → dest' = restore stage dest (usedItems stage entries)) := by
  induction h generalizing fuel k dest with
  | nil =>
    have hnil : packedFrom fuel [] (tail.take k) k dest =
        some (if tail.take k = [] then 0 else -4, dest) := by
      unfold packedFrom
      rfl
    refine ⟨_, dest, hnil, ?_, fun _ => rfl⟩
    change k ≤ tail.length at hkle
    simp only [List.flatMap_nil, List.length_nil, List.take_eq_nil_iff]
    constructor
    · intro hcode
      by_contra hne
      have htail : tail ≠ [] := by
        rintro rfl
        exact hne (Nat.le_zero.mp hkle)
      simp [hne, htail] at hcode
    · rintro rfl
      simp
  | @item mark offset o entries hmark _ ih =>
    simp only [List.length_cons] at hfuel hlen hk
    obtain ⟨fuel, rfl⟩ : ∃ j, fuel = j + 1 := ⟨fuel - 1, by omega⟩
    obtain ⟨k, rfl⟩ : ∃ j, k = j + 1 := ⟨k - 1, by omega⟩
    simp only [List.flatMap_cons, PackEntry.words, List.cons_append, List.nil_append,
      List.length_cons] at hkle
    obtain ⟨code, dest', hrun, hcode, hdest⟩ := ih fuel (k := k) (by omega) (by omega)
      (fun e he => hbound e (List.mem_cons_of_mem _ he))
      (fun e he => hcount e (List.mem_cons_of_mem _ he)) (by omega) (by omega)
      (store32 dest offset (load32 stage offset))
    refine ⟨code, dest', ?_, ?_, hdest⟩
    · have hextra : k + 1 - (entries.length + 1) = k - entries.length := by omega
      simp only [List.flatMap_cons, PackEntry.words, List.cons_append, List.nil_append,
        List.take_succ_cons, List.length_cons, hextra]
      unfold packedFrom
      simp only [hmark, if_true]
      exact hrun
    · simp only [List.flatMap_cons, PackEntry.words, List.cons_append, List.nil_append,
        List.length_cons]
      omega
  | @loop mark offset maxLoops loopSize o items entries hmark hitems _ ih =>
    simp only [List.length_cons] at hfuel hlen hk
    obtain ⟨fuel, rfl⟩ : ∃ j, fuel = j + 1 := ⟨fuel - 1, by omega⟩
    obtain ⟨k, rfl⟩ : ∃ j, k = j + 1 := ⟨k - 1, by omega⟩
    have hvalue : load32 stage offset ≤ maxLoops := hbound _ List.mem_cons_self
    obtain ⟨-, hskip, hmod, hle, -⟩ :=
      loop_counts hitems (hcount _ List.mem_cons_self) (by omega) hvalue
    have hvals : ((items.take (load32 stage offset * loopSize)).map (load32 stage)).length =
        load32 stage offset * loopSize := by
      rw [List.length_map, List.length_take, (loopOffsets_length hitems).1]
      omega
    have hwords : ((PackEntry.loop offset maxLoops loopSize items :: entries).flatMap
        (PackEntry.words id stage)) = load32 stage offset ::
          ((items.take (load32 stage offset * loopSize)).map (load32 stage) ++
            entries.flatMap (PackEntry.words id stage)) := rfl
    have hstatic := packWords_length stage entries
    have hextra : k + 1 - (entries.length + 1) = k - entries.length := by omega
    rw [hwords] at hkle ⊢
    simp only [List.cons_append, List.length_cons, List.length_append, hvals] at hkle
    rw [List.cons_append, List.take_succ_cons, List.length_cons, hextra, List.length_cons,
      List.length_append, hvals, packedFrom]
    dsimp only
    rw [if_neg hmark, if_neg (by omega), hmod]
    by_cases hshort : k - entries.length < load32 stage offset * loopSize
    · rw [if_pos hshort]
      refine ⟨-3, _, rfl, ?_, by rintro ⟨⟩⟩
      constructor
      · rintro ⟨⟩
      · intro hall
        omega
    · rw [if_neg hshort, hskip]
      obtain ⟨j, rfl⟩ : ∃ j, k = load32 stage offset * loopSize + j := ⟨k - load32 stage offset * loopSize, by omega⟩
      have htake : ((items.take (load32 stage offset * loopSize)).map (load32 stage) ++
          entries.flatMap (PackEntry.words id stage) ++ tail).take
            (load32 stage offset * loopSize + j) =
          (items.take (load32 stage offset * loopSize)).map (load32 stage) ++
            (entries.flatMap (PackEntry.words id stage) ++ tail).take j := by
        rw [List.append_assoc, List.take_append, hvals, Nat.add_sub_cancel_left,
          List.take_of_length_le (by rw [hvals]; omega)]
      rw [htake, storeItems_eq hitems hle]
      obtain ⟨code, dest', hrun, hcode, hdest⟩ := ih fuel (k := j) (by omega)
        (by rw [List.length_drop]; omega) (fun e he => hbound e (List.mem_cons_of_mem _ he))
        (fun e he => hcount e (List.mem_cons_of_mem _ he)) (by omega)
        (by rw [List.length_append]; omega)
        (restore stage (store32 dest offset (load32 stage offset))
          (items.take (load32 stage offset * loopSize)))
      refine ⟨code, dest', ?_, by omega, ?_⟩
      · have hleft : load32 stage offset * loopSize + j - entries.length -
            load32 stage offset * loopSize = j - entries.length := by omega
        simp only [Option.bind_eq_bind, Option.bind_some, hleft]
        exact hrun
      · intro h0
        rw [hdest h0]
        simp only [usedItems, restore, List.flatMap_cons, PackEntry.used, List.cons_append,
          List.foldl_cons, List.foldl_append]

end Walk

structure PackRoundTrip (list : List Nat) (entries : List PackEntry) (stage : Nat → UInt8)
    (words : List Nat) : Prop where
  clientWrites : extDataWriteEvent list stage = some (.ok words)
  writerGets : (∀ e ∈ entries, e.LowItems) → ntupleGetEvent list stage = some (.ok words)
  /-- Byte by byte, just the items of the event are copied. -/
  restored : ∀ dest, ∃ dest', extDataWritePackedEvent list entries.length dest words =
    some (0, dest') ∧ ∀ b, dest' b =
      if ∃ a ∈ usedItems stage entries, a ≤ b ∧ b < a + 4 then stage b else dest b
  consumed : ∀ dest tail k, k ≤ (words ++ tail).length →
    ((∃ dest', extDataWritePackedEvent list entries.length dest ((words ++ tail).take k) =
      some (0, dest')) ↔ k = words.length)

/-- For a list that the setup accepts, and that has no loop with more items than 32 bits count, an
event is restored, and a different number of words is refused. -/
theorem pack_list_round_trip {list : List Nat} {entries : List PackEntry} {stage : Nat → UInt8}
    (hlist : packEntries list = some entries) (hbound : ∀ e ∈ entries, e.Bounded stage)
    (hcount : ∀ e ∈ entries, e.Counted) : ∃ words, PackRoundTrip list entries stage words := by
  unfold packEntries at hlist
  split at hlist
  · next hlen =>
    have hof := packListOf_of_entries hlist
    have hfuel := hof.length_le
    refine ⟨entries.flatMap (PackEntry.words id stage), ?_, ?_, ?_, ?_⟩
    · exact packWordsFrom_eq id hof hfuel hlen hbound hcount
    · intro hlow
      rw [← words_low hlow]
      exact packWordsFrom_eq _ hof hfuel hlen hbound hcount
    · intro dest
      have hstatic := packWords_length stage entries
      obtain ⟨code, dest', hrun, hcode, hdest⟩ := packedFrom_eq list.length hof hfuel hlen hbound
        hcount [] hstatic (Nat.le_of_eq (by rw [List.append_nil])) dest
      have h0 := hcode.mpr rfl
      rw [List.append_nil, List.take_length, h0] at hrun
      refine ⟨dest', ?_, ?_⟩
      · unfold extDataWritePackedEvent
        rw [if_neg (by omega), hrun]
      · intro b
        rw [hdest h0, restore_apply]
    · intro dest tail k hk
      have hstatic := packWords_length stage entries
      have hlength : ((entries.flatMap (PackEntry.words id stage) ++ tail).take k).length = k := by
        rw [List.length_take]
        omega
      unfold extDataWritePackedEvent
      rw [hlength]
      by_cases hshort : k < entries.length
      · rw [if_pos hshort]
        constructor
        · rintro ⟨dest', ⟨⟩⟩
        · intro heq
          omega
      · rw [if_neg hshort]
        obtain ⟨code, dest', hrun, hcode, -⟩ := packedFrom_eq list.length hof hfuel hlen hbound
          hcount tail (Nat.not_lt.mp hshort) hk dest
        rw [hrun, ← hcode]
        constructor
        · rintro ⟨d, ⟨⟩⟩
          rfl
        · rintro rfl
          exact ⟨dest', rfl⟩
  · cases hlist

def packDemo : List Nat :=
  [0, 0, 0x80000000, 4, 3, 2, 0, 8, 0, 12, 0, 16, 0, 20, 0, 24, 0, 28, 0, 32]

def packStage : Nat → UInt8 :=
  fun b => if b = 4 then 1 else if 4 < b ∧ b < 8 then 0 else UInt8.ofNat b

theorem pack_list_round_trip_demo :
    ∃ entries words, packEntries packDemo = some entries ∧
      PackRoundTrip packDemo entries packStage words := by
  have hlist : packEntries packDemo =
      some [.item 0, .loop 4 3 2 [8, 12, 16, 20, 24, 28], .item 32] := by
    decide +kernel
  have hbound : ∀ e ∈ [PackEntry.item 0, .loop 4 3 2 [8, 12, 16, 20, 24, 28], .item 32],
      e.Bounded packStage := by
    decide +kernel
  obtain ⟨words, hwords⟩ := pack_list_round_trip hlist hbound (by decide)
  exact ⟨_, words, hlist, hwords⟩

def packOverflow : List Nat := [0x80000000, 0, 0x10000, 0x10000]

def oneAtZero : Nat → UInt8 := fun b => if b = 0 then 1 else 0

theorem pack_loop_count_overflows :
    ∃ entries, packEntries packOverflow = some entries ∧
      (∀ e ∈ entries, e.Bounded oneAtZero) ∧ extDataWriteEvent packOverflow oneAtZero = none ∧
      ∀ words, ¬ PackRoundTrip packOverflow entries oneAtZero words := by
  have hlist : packEntries packOverflow = some [.loop 0 0x10000 0x10000 []] := by
    decide +kernel
  have hnone : extDataWriteEvent packOverflow oneAtZero = none := by
    decide +kernel
  refine ⟨_, hlist, by decide, hnone, ?_⟩
  intro words h
  have := h.clientWrites
  rw [hnone] at this
  cases this

end Ucesb
