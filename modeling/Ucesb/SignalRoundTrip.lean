import Ucesb.SignalNames

namespace Ucesb

section Memory

theorem toInt32_bounds (v : Int) : -2 ^ 31 ≤ toInt32 v ∧ toInt32 v < 2 ^ 31 :=
  ⟨BitVec.le_toInt _, BitVec.toInt_lt⟩

theorem decimal_toInt32_length (v : Int) : (decimal (toInt32 v)).length ≤ 16 := by
  obtain ⟨hlow, hhigh⟩ := toInt32_bounds v
  have hdigits := Nat.toDigits_length 10 (toInt32 v).natAbs 10 (by decide) (by omega)
  unfold decimal
  split
  · rw [List.length_cons]
    omega
  · omega

theorem SigPart.indexedText_length (part : SigPart) (i : Nat) (diffIndex diffOffset : Int) :
    (part.indexedText i diffIndex diffOffset).length ≤ part.need := by
  cases part with
  | name text => exact Nat.le_refl _
  | index v extra => exact decimal_toInt32_length _

theorem joinParts_indexed_length (diffIndex diffOffset : Int) (i : Nat) (prevType : Option PartKind)
    (parts : SignalId) :
    (joinParts prevType (indexedTexts diffIndex diffOffset i parts)).length ≤
      indexedLength parts := by
  unfold indexedLength
  induction parts generalizing i prevType with
  | nil => exact Nat.zero_le _
  | cons part parts ih =>
    have htext := part.indexedText_length i diffIndex diffOffset
    have hrest := ih (i + 1) (some part.kind)
    have hunder : (if prevType = some part.kind then ['_'] else []).length ≤ 1 := by
      split
      · exact Nat.le_refl _
      · exact Nat.zero_le _
    simp only [indexedTexts, joinParts, List.length_append, List.map_cons, List.sum_cons,
      List.length_cons]
    omega

theorem joinParts_indexed_fits (diffIndex diffOffset : Int) {parts : SignalId} (hne : parts ≠ []) :
    (joinParts none (indexedTexts diffIndex diffOffset 0 parts)).length < indexedLength parts := by
  cases parts with
  | nil => exact absurd rfl hne
  | cons part parts =>
    have htext := part.indexedText_length 0 diffIndex diffOffset
    have hrest := joinParts_indexed_length diffIndex diffOffset 1 (some part.kind) parts
    have hlength : indexedLength (part :: parts) = 1 + part.need + indexedLength parts := by
      simp only [indexedLength, List.map_cons, List.sum_cons, List.length_cons]
      omega
    simp only [indexedTexts, joinParts, List.length_append, reduceCtorEq, if_false,
      List.length_nil, Nat.zero_add]
    omega

theorem generateIndexed_printed (fresh : Nat → Char) {id : SignalId} (hne : id ≠ [])
    (diffIndex diffOffset : Int) :
    ∃ mem, generateIndexed fresh id diffIndex diffOffset = some mem ∧
      Printed mem (joinParts none (indexedTexts diffIndex diffOffset 0 id)) := by
  obtain ⟨mem, dest, hloop, hprinted⟩ := @generateLoop_printed diffIndex diffOffset id 0 0 none
    ((List.range (indexedLength id)).map fresh) [] List.nil_prefix rfl (.inl hne)
    (by simpa using joinParts_indexed_fits diffIndex diffOffset hne)
  exact ⟨mem, by rw [generateIndexed, hloop]; rfl, hprinted⟩

end Memory

section Difference

theorem toInt32_shift (v v' : Int) : toInt32 (v + toInt32 (v' - v) + 1) = toInt32 (v' + 1) := by
  unfold toInt32
  rw [BitVec.toInt_ofInt, BitVec.toInt_ofInt, BitVec.toInt_ofInt, Int.add_right_comm,
    Int.add_bmod_bmod]
  congr 1
  omega

theorem diffParts_texts {i : Nat} {diffIndex diffLength k d : Int} {parts rhs : SignalId}
    (h : diffParts i diffIndex diffLength parts rhs = some (k, d)) (hindex : diffIndex < i) :
    (diffIndex ≠ -1 → k = diffIndex ∧ d = diffLength) ∧ (diffIndex = -1 → k = -1 ∨ i ≤ k) ∧
      indexedTexts k d i parts = rhs.map fun part => (part.kind, part.text) := by
  induction parts generalizing i diffIndex diffLength rhs with
  | nil =>
    cases rhs with
    | nil =>
      cases h
      exact ⟨fun _ => ⟨rfl, rfl⟩, fun h => .inl h, rfl⟩
    | cons part rhs => cases h
  | cons part parts ih =>
    cases part with
    | name text =>
      cases rhs with
      | nil => cases h
      | cons part' rhs =>
        cases part' with
        | index v' extra' => cases h
        | name text' =>
          rw [diffParts] at h
          split at h
          · cases h
          · next hsame =>
            obtain rfl := not_not.mp hsame
            obtain ⟨hkept, hlater, htexts⟩ := ih h (by omega)
            refine ⟨hkept, fun hnone => (hlater hnone).imp_right (by omega), ?_⟩
            rw [indexedTexts, htexts]
            rfl
    | index v extra =>
      cases rhs with
      | nil => cases h
      | cons part' rhs =>
        cases part' with
        | name text' => cases h
        | index v' extra' =>
          rw [diffParts] at h
          split at h
          · cases h
          · split at h
            · split at h
              · cases h
              · next hnone =>
                obtain rfl := not_not.mp hnone
                obtain ⟨hkept, -, htexts⟩ := ih h (by omega)
                obtain ⟨rfl, rfl⟩ := hkept (by omega)
                refine ⟨fun hne => absurd rfl hne, fun _ => .inr (Int.le_refl _), ?_⟩
                rw [indexedTexts, htexts, SigPart.indexedText, if_pos rfl, toInt32_shift]
                rfl
            · next hsame =>
              obtain rfl := not_not.mp hsame
              obtain ⟨hkept, hlater, htexts⟩ := ih h (by omega)
              refine ⟨hkept, fun hnone => (hlater hnone).imp_right (by omega), ?_⟩
              have hother : k ≠ i := by
                by_cases hnone : diffIndex = -1
                · rcases hlater hnone with hk | hk
                  · omega
                  · omega
                · rw [(hkept hnone).1]
                  omega
              rw [indexedTexts, htexts, SigPart.indexedText, if_neg hother, Int.add_zero]
              rfl

theorem difference_texts {a b : SignalId} {k d : Int} (h : difference a b = some (k, d)) :
    indexedTexts k d 0 a = b.map fun part => (part.kind, part.text) := by
  unfold difference at h
  split at h
  · cases h
  · exact (diffParts_texts h (by omega)).2.2

theorem difference_printed (fresh : Nat → Char) {a b : SignalId} {k d : Int}
    (h : difference a b = some (k, d)) (hdiff : k ≠ -1) :
    ∃ mem, generateIndexed fresh a k d = some mem ∧ Printed mem (nameOf b) := by
  have hne : a ≠ [] := by
    rintro rfl
    cases b with
    | nil =>
      cases h
      exact hdiff rfl
    | cons part b => cases h
  have hprinted := generateIndexed_printed fresh hne k d
  rwa [difference_texts h] at hprinted

end Difference

section Reading

/-- A part that can be read back: a name of letters, or an index that is not refused. -/
def SigPart.Readable : SigPart → Prop
  | .name text => text ≠ [] ∧ ∀ c ∈ text, c.isAlpha = true
  | .index i _ => 0 ≤ i ∧ i + 1 < 0x1000000

structure ReadableId (id : SignalId) : Prop where
  starts : id.head?.map SigPart.kind = some .name
  parts : ∀ part ∈ id, part.Readable

theorem SigPart.Readable.text {part : SigPart} (h : part.Readable) : TextOf part.kind part.text := by
  cases part with
  | name text => exact ⟨h.1, h.2⟩
  | index i extra =>
    have hvalue : toInt32 (i + 1) = i + 1 := toInt32_eq (by have := h.1; omega) (by have := h.2; omega)
    have hdecimal : (SigPart.index i extra).text = Nat.toDigits 10 (i + 1).natAbs := by
      rw [SigPart.text, hvalue, decimal, if_neg (by have := h.1; omega)]
    rw [hdecimal]
    exact ⟨Nat.toDigits_ne_nil, fun c hc => Nat.isDigit_of_mem_toDigits (by decide) (by decide) hc⟩

theorem strtolInt_text {i : Int} {extra : IndexExtra} (h : (SigPart.index i extra).Readable) :
    strtolInt (SigPart.index i extra).text = i + 1 := by
  have hlow := h.1
  have hhigh := h.2
  rw [SigPart.text, toInt32_eq (by omega) (by omega), decimal, if_neg (by omega), strtolInt,
    Nat.ofDigitChars_ten_toDigits]
  have hmin : ((min (i + 1).natAbs (2 ^ 63 - 1) : Nat) : Int) = i + 1 := by omega
  rw [hmin]
  exact toInt32_eq (by omega) (by omega)

theorem joinParts_stops {kind : PartKind} {parts : SignalId}
    (hparts : ∀ part ∈ parts, part.Readable) :
    (joinParts (some kind) (parts.map fun part => (part.kind, part.text))).takeWhile kind.ofChar =
      [] := by
  cases parts with
  | nil => rfl
  | cons part parts =>
    rw [List.map_cons, joinParts]
    split
    · exact List.takeWhile_cons_of_neg (not_ofChar_underscore kind)
    · next hne =>
      obtain ⟨hnonempty, hchars⟩ := (hparts part List.mem_cons_self).text
      obtain ⟨c, text, htext⟩ := List.exists_cons_of_ne_nil hnonempty
      rw [htext, List.nil_append]
      have hc := hchars c (htext ▸ List.mem_cons_self)
      exact List.takeWhile_cons_of_neg (ofChar_other hc fun heq => hne (congrArg some heq))

theorem dissectParts_underscore (id : SignalId) (c : Prop) [Decidable c] (rest : List Char) :
    dissectParts id ((if c then ['_'] else []) ++ rest) = dissectParts id rest := by
  split
  · rw [List.singleton_append, dissectParts, if_pos rfl]
  · rfl

theorem dissectParts_part (id : SignalId) {part : SigPart} (h : part.Readable) {rest : List Char}
    (hrest : rest.takeWhile part.kind.ofChar = []) :
    dissectParts id (part.text ++ rest) = dissectParts (id ++ [part.plain]) rest := by
  obtain ⟨hnonempty, hchars⟩ := h.text
  obtain ⟨c, text, htext⟩ := List.exists_cons_of_ne_nil hnonempty
  rw [htext] at hchars
  obtain ⟨hc, hchars⟩ := List.forall_mem_cons.mp hchars
  have hunder : c ≠ '_' := by
    rintro rfl
    exact not_ofChar_underscore _ hc
  rw [htext, List.cons_append, dissectParts, if_neg hunder]
  cases part with
  | name s =>
    rw [if_pos (show c.isAlpha = true from hc)]
    have htake := takeWhile_stops (p := Char.isAlpha) hchars hrest
    have hdrop := dropWhile_stops (p := Char.isAlpha) hchars hrest
    rw [htake, hdrop, ← htext]
    rfl
  | index i extra =>
    have hnot : ¬c.isAlpha = true := @ofChar_other _ .name _ hc (by rintro ⟨⟩)
    have htake := takeWhile_stops (p := Char.isDigit) hchars hrest
    have hdrop := dropWhile_stops (p := Char.isDigit) hchars hrest
    rw [if_neg hnot, if_pos (show c.isDigit = true from hc), htake, hdrop, ← htext,
      strtolInt_text h]
    have hlow := h.1
    have hhigh := h.2
    dsimp only
    rw [if_neg (by omega), if_neg (by omega), Int.add_sub_cancel]
    rfl

theorem dissectParts_join {parts : SignalId} (hparts : ∀ part ∈ parts, part.Readable)
    (id : SignalId) (prevType : Option PartKind) :
    dissectParts id (joinParts prevType (parts.map fun part => (part.kind, part.text))) =
      .ok (id ++ parts.map SigPart.plain) := by
  induction parts generalizing id prevType with
  | nil => simp [joinParts, dissectParts]
  | cons part parts ih =>
    obtain ⟨hpart, hparts⟩ := List.forall_mem_cons.mp hparts
    rw [List.map_cons, joinParts, dissectParts_underscore,
      dissectParts_part id hpart (joinParts_stops hparts), ih hparts, List.map_cons,
      List.append_assoc]
    rfl

theorem ReadableId.dissectName {id : SignalId} (h : ReadableId id) :
    dissectName (nameOf id) = .ok (id.map SigPart.plain) := by
  cases id with
  | nil => cases h.starts
  | cons part parts =>
    have hpart := h.parts part List.mem_cons_self
    obtain ⟨hnonempty, hchars⟩ := hpart.text
    obtain ⟨c, text, htext⟩ := List.exists_cons_of_ne_nil hnonempty
    have hkind : part.kind = .name := Option.some.inj h.starts
    have hc := hchars c (htext ▸ List.mem_cons_self)
    rw [hkind] at hc
    have hhead : (nameOf (part :: parts)).head? = some c := by
      rw [nameOf, List.map_cons, joinParts, if_neg (by rintro ⟨⟩), htext]
      rfl
    rw [Ucesb.dissectName, hhead, if_pos (show ((some c).map Char.isAlpha).getD false = true from hc),
      nameOf, dissectParts_join h.parts]
    rfl

theorem ReadableId.no_zero {id : SignalId} (h : ReadableId id) : '\x00' ∉ nameOf id := by
  have hparts := h.parts
  clear h
  unfold nameOf
  generalize none = prevType
  induction id generalizing prevType with
  | nil => simp [joinParts]
  | cons part parts ih =>
    obtain ⟨hpart, hparts⟩ := List.forall_mem_cons.mp hparts
    rw [List.map_cons, joinParts, List.mem_append, List.mem_append]
    rintro (hunder | htext | hrest)
    · split at hunder
      · exact absurd (List.mem_singleton.mp hunder) (by decide)
      · cases hunder
    · have hc := hpart.text.chars _ htext
      cases hkind : part.kind with
      | name | index =>
        rw [hkind] at hc
        exact absurd hc (by decide)
    · exact ih hparts _ hrest

end Reading

section RoundTrip

def NoLimit (id : SignalId) : Prop :=
  ∀ part ∈ id, ∀ i extra, part = .index i extra → extra.limit = false

theorem pawName_eq {id : SignalId} (h : NoLimit id) : pawName id = nameOf id := by
  unfold pawName nameOf
  congr 1
  refine List.map_congr_left fun part hpart => ?_
  cases part with
  | name text => rfl
  | index i extra =>
    rw [SigPart.pawText, SigPart.text, if_neg]
    rw [h _ hpart i extra rfl]
    exact Bool.false_ne_true

theorem indexedTexts_unchanged {diffIndex diffOffset : Int} (h : diffIndex = -1 ∨ diffOffset = 0)
    (i : Nat) (parts : SignalId) :
    indexedTexts diffIndex diffOffset i parts = parts.map fun part => (part.kind, part.text) := by
  induction parts generalizing i with
  | nil => rfl
  | cons part parts ih =>
    rw [indexedTexts, ih, List.map_cons]
    congr 2
    cases part with
    | name text => rfl
    | index v extra =>
      have hzero : (if diffIndex = i then diffOffset else 0) = 0 := by
        split
        · omega
        · rfl
      rw [SigPart.indexedText, SigPart.text, hzero, Int.add_zero]

/-- The printers and the reader agree. -/
theorem signal_names_round_trip (fresh : Nat → Char) :
    (∀ id, ReadableId id → NoLimit id → ∀ mem : List Char, (pawName id).length < mem.length →
      ∃ mem', formatPaw id mem mem.length none none = some (mem', (pawName id).length) ∧
        dissectName (cString mem') = .ok (id.map SigPart.plain)) ∧
    (∀ id, ReadableId id → ∀ diffIndex diffOffset, diffIndex = -1 ∨ diffOffset = 0 →
      ∃ mem, generateIndexed fresh id diffIndex diffOffset = some mem ∧
        dissectName (cString mem) = .ok (id.map SigPart.plain)) ∧
    ∀ a b k d, difference a b = some (k, d) → k ≠ -1 →
      ∃ mem, generateIndexed fresh a k d = some mem ∧ Printed mem (nameOf b) := by
  refine ⟨?_, ?_, fun a b k d h hdiff => difference_printed fresh h hdiff⟩
  · intro id hid hlimit mem hlarge
    obtain ⟨mem', hformat, hprinted⟩ := formatPaw_printed hlarge
    refine ⟨mem', hformat, ?_⟩
    rw [pawName_eq hlimit] at hprinted
    rw [hprinted.cString hid.no_zero, hid.dissectName]
  · intro id hid diffIndex diffOffset hsame
    have hne : id ≠ [] := by
      rintro rfl
      cases hid.starts
    obtain ⟨mem, hgenerate, hprinted⟩ := generateIndexed_printed fresh hne diffIndex diffOffset
    refine ⟨mem, hgenerate, ?_⟩
    rw [indexedTexts_unchanged hsame] at hprinted
    rw [hprinted.cString hid.no_zero]
    exact hid.dissectName

def demoId : SignalId :=
  [.name ['T', 'F', 'W'], .index 0 noExtra, .name ['A'], .index 1 noExtra]

theorem signal_names_round_trip_demo :
    ∃ mem', formatPaw demoId (List.replicate 8 'x') 8 none none = some (mem', 6) ∧
      dissectName (cString mem') = .ok demoId :=
  (signal_names_round_trip fun _ => 'x').1 demoId
    ⟨rfl, by simp [demoId, SigPart.Readable]⟩ (by simp [NoLimit, demoId, noExtra])
    (List.replicate 8 'x') (by decide)

theorem limit_not_read_back :
    ¬∀ id, ReadableId id → ∀ mem : List Char, (pawName id).length < mem.length →
      ∃ mem' n, formatPaw id mem mem.length none none = some (mem', n) ∧
        ∃ id', dissectName (cString mem') = .ok id' ∧
          id'.map SigPart.plain = id.map SigPart.plain := by
  intro h
  obtain ⟨mem', n, hformat, id', hread, hsame⟩ := h [.name ['A'], .index 5 ⟨true, false, false⟩]
    ⟨rfl, by simp [SigPart.Readable]⟩ (List.replicate 8 'x') (by decide)
  have hmem : mem' = ['A', '5', '\x00', 'x', 'x', 'x', 'x', 'x'] :=
    congrArg Prod.fst (Option.some.inj (hformat.symm.trans rfl))
  rw [hmem] at hread
  have hread' : dissectName ['A', '5'] = .ok id' := hread
  have hid : id' = [.name ['A'], .index 4 noExtra] := by
    have hvalue : dissectName ['A', '5'] = .ok [.name ['A'], .index 4 noExtra] := by
      simp [dissectName, dissectParts, strtolInt, toInt32]
      decide
    exact (Except.ok.inj (hread'.symm.trans hvalue))
  rw [hid] at hsame
  exact absurd hsame (by decide)

end RoundTrip

end Ucesb
