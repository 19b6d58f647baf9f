import Ucesb.Checks
import Ucesb.PackedWalk

namespace Ucesb

/-- The list comes in a message. A message may say that it is shorter than its header. -/
structure OffsetsMessage where
  length : Nat
  body : List Nat
  header : length < 2 ^ 32
  whole : length = 8 + 4 * body.length ∨ length < 8 ∧ body = []
  words : ∀ w ∈ body, w < 2 ^ 32

inductive OffsetsFault
  /-- a word behind the end of the message, and of the copy -/
  | message
  /-- a word that is not within the stage array -/
  | stage
deriving DecidableEq

inductive OffsetsStop
  | rejected (message : String)
  | fault (f : OffsetsFault)
deriving DecidableEq

structure OrigList where
  packList : List Nat
  staticPackItems : Nat
  maxPackItems : Nat
deriving DecidableEq

def copyItems : Nat → List Nat → Except OffsetsStop (List Nat × List Nat)
  | 0, o => .ok ([], o)
  | n + 1, mark :: offset :: o => do
    let (d, o) ← copyItems n o
    return (mark :: offset :: d, o)
  | _, _ => .error (.fault .message)

def copyListFrom : Nat → List Nat → OrigList → Except OffsetsStop OrigList
  | _, [], s => .ok s
  | fuel + 1, mark :: offset :: o, s =>
    if mark &&& externalWriterMarkLoop = 0 then
      copyListFrom fuel o ⟨s.packList ++ [mark, offset], (s.staticPackItems + 1) % 2 ^ 32,
        s.maxPackItems⟩
    else
      match o with
      | maxLoops :: loopSize :: o => do
        let items := maxLoops * loopSize % 2 ^ 32
        errorIf (o.length < 2 * items % 2 ^ 32)
          (.rejected "Pack-list malformed, too many loop items.")
        let (d, o) ← copyItems items o
        copyListFrom fuel o ⟨s.packList ++ [mark, offset, maxLoops, loopSize] ++ d,
          (s.staticPackItems + 1) % 2 ^ 32, (s.maxPackItems + items) % 2 ^ 32⟩
      | _ => .error (.fault .message)
  | _, _, _ => .error (.fault .message)

/-- `clistr` is whether there is a structure that the list is for. -/
@[irreducible]
def arrayOffsetsMessage (clistr : Bool) (m : OffsetsMessage) : Except OffsetsStop OrigList := do
  let lengthLeft := (m.length + 2 ^ 32 - 8) % 2 ^ 32
  errorIf (lengthLeft < 4) (.rejected "Bad array offsets message size during setup.")
  errorIf (clistr = false) (.rejected "Cannot handle offset message without structure.")
  match m.body with
  | [] => .error (.fault .message)
  | _ :: o => do
    let packListItems := (lengthLeft - 4) / 4
    let s ← copyListFrom o.length o ⟨[], 0, 0⟩
    errorIf (s.packList.length ≠ packListItems) (.rejected "Pack-list malformed, copy failure.")
    return ⟨s.packList, s.staticPackItems, (s.maxPackItems + s.staticPackItems) % 2 ^ 32⟩

/-- A list that is taken over can be walked safely, and any other is refused within the message. -/
def ClientListSound (clistr : Bool) (size : Nat) (m : OffsetsMessage) : Prop :=
  Ends (fun stop => ∃ message, stop = .rejected message)
    (fun s => WalkSafe s.packList s.staticPackItems s.maxPackItems size)
    (arrayOffsetsMessage clistr m)

/-- An entry is cut off at the end of the list, or a loop has more items than can be counted as
words with 32 bits, so that the number of words comes out small enough. -/
inductive ListOverrun : List Nat → Prop
  | mark {mark : Nat} : ListOverrun [mark]
  | control {mark offset : Nat} {o : List Nat} :
      mark &&& externalWriterMarkLoop ≠ 0 → o.length < 2 → ListOverrun (mark :: offset :: o)
  | count {mark offset maxLoops loopSize : Nat} {o : List Nat} :
      mark &&& externalWriterMarkLoop ≠ 0 →
      2 * (maxLoops * loopSize % 2 ^ 32) % 2 ^ 32 ≤ o.length →
      o.length < 2 * (maxLoops * loopSize % 2 ^ 32) →
      ListOverrun (mark :: offset :: maxLoops :: loopSize :: o)
  | item {mark offset : Nat} {o : List Nat} :
      mark &&& externalWriterMarkLoop = 0 → ListOverrun o → ListOverrun (mark :: offset :: o)
  | loop {mark offset maxLoops loopSize : Nat} {o : List Nat} :
      mark &&& externalWriterMarkLoop ≠ 0 →
      2 * (maxLoops * loopSize % 2 ^ 32) ≤ o.length →
      ListOverrun (o.drop (2 * (maxLoops * loopSize % 2 ^ 32))) →
      ListOverrun (mark :: offset :: maxLoops :: loopSize :: o)

/-- The list of a message is not cut off within an entry, and if all its loops are there, they have
not more items than 32 bits count and all items are in the structure. -/
def ClientListGood (size : Nat) (list : List Nat) : Prop :=
  ¬ListOverrun list ∧ ∀ entries, PackListOf list entries →
    (∀ e ∈ entries, e.Counted) ∧ ∀ a ∈ entryOffsets entries, a + 4 ≤ size

section Copy

variable {n fuel : Nat} {o list : List Nat} {s : OrigList} {entries : List PackEntry}

theorem copyItems_eq (h : 2 * n ≤ o.length) :
    copyItems n o = .ok (o.take (2 * n), o.drop (2 * n)) := by
  induction n generalizing o with
  | zero => rfl
  | succ n ih =>
    rcases o with _ | ⟨mark, _ | ⟨offset, o⟩⟩
    · cases h
    · simp only [List.length_cons, List.length_nil] at h
      omega
    · simp only [List.length_cons] at h
      rw [copyItems, ih (by omega)]
      rfl

theorem copyItems_fault (h : o.length < 2 * n) : copyItems n o = .error (.fault .message) := by
  induction n generalizing o with
  | zero => cases h
  | succ n ih =>
    rcases o with _ | ⟨mark, _ | ⟨offset, o⟩⟩
    · rfl
    · rfl
    · simp only [List.length_cons] at h
      rw [copyItems, ih (by omega)]
      rfl

theorem copyListFrom_loop {mark offset maxLoops loopSize : Nat}
    (hmark : mark &&& externalWriterMarkLoop ≠ 0)
    (hitems : 2 * (maxLoops * loopSize % 2 ^ 32) ≤ o.length) (hlen : o.length < 2 ^ 30) :
    copyListFrom (fuel + 1) (mark :: offset :: maxLoops :: loopSize :: o) s =
      copyListFrom fuel (o.drop (2 * (maxLoops * loopSize % 2 ^ 32)))
        ⟨s.packList ++ [mark, offset, maxLoops, loopSize] ++
            o.take (2 * (maxLoops * loopSize % 2 ^ 32)),
          (s.staticPackItems + 1) % 2 ^ 32,
          (s.maxPackItems + maxLoops * loopSize % 2 ^ 32) % 2 ^ 32⟩ := by
  have hmod : 2 * (maxLoops * loopSize % 2 ^ 32) % 2 ^ 32 = 2 * (maxLoops * loopSize % 2 ^ 32) :=
    Nat.mod_eq_of_lt (by omega)
  rw [copyListFrom.eq_def]
  dsimp only
  rw [if_neg hmark, hmod, errorIf, if_neg (by omega), copyItems_eq hitems]
  rfl

theorem copyListFrom_whole (h : PackListOf list entries) (hlen : list.length < 2 ^ 30)
    (hfuel : entries.length ≤ fuel) (hstatic : s.staticPackItems + entries.length < 2 ^ 32)
    (hmax : s.maxPackItems + (entryOffsets entries).length < 2 ^ 32) :
    ∃ items, items + entries.length = (entryOffsets entries).length ∧
      copyListFrom fuel list s =
        .ok ⟨s.packList ++ list, s.staticPackItems + entries.length, s.maxPackItems + items⟩ := by
  induction h generalizing fuel s with
  | nil =>
    refine ⟨0, rfl, ?_⟩
    unfold copyListFrom
    rw [List.append_nil]
    rfl
  | @item mark offset o entries hmark _ ih =>
    rw [entryOffsets_cons, List.length_append] at hmax
    rw [List.length_cons] at hfuel hstatic
    simp only [List.length_cons, PackEntry.offsets, List.length_nil] at hlen hmax
    obtain ⟨fuel, rfl⟩ : ∃ k, fuel = k + 1 := ⟨fuel - 1, by omega⟩
    have hmod : (s.staticPackItems + 1) % 2 ^ 32 = s.staticPackItems + 1 :=
      Nat.mod_eq_of_lt (by omega)
    obtain ⟨items, hitems, hrun⟩ := @ih fuel ⟨s.packList ++ [mark, offset], s.staticPackItems + 1,
      s.maxPackItems⟩ (by omega) (by omega) (by dsimp only; omega) (by dsimp only; omega)
    refine ⟨items, ?_, ?_⟩
    · rw [entryOffsets_cons, List.length_append, List.length_cons]
      simp only [PackEntry.offsets, List.length_cons, List.length_nil]
      omega
    · rw [copyListFrom.eq_def]
      dsimp only
      rw [if_pos hmark, hmod, hrun, List.append_assoc, List.length_cons]
      simp only [List.cons_append, List.nil_append]
      congr 2
      omega
  | @loop mark offset maxLoops loopSize o loopItems entries hmark hloop _ ih =>
    obtain ⟨hcount, htwice⟩ := loopOffsets_length hloop
    rw [entryOffsets_cons, List.length_append] at hmax
    rw [List.length_cons] at hfuel hstatic
    simp only [List.length_cons, PackEntry.offsets] at hlen hmax
    obtain ⟨fuel, rfl⟩ : ∃ k, fuel = k + 1 := ⟨fuel - 1, by omega⟩
    have hmod : (s.staticPackItems + 1) % 2 ^ 32 = s.staticPackItems + 1 :=
      Nat.mod_eq_of_lt (by omega)
    have hmod' : (s.maxPackItems + maxLoops * loopSize % 2 ^ 32) % 2 ^ 32 =
        s.maxPackItems + maxLoops * loopSize % 2 ^ 32 := Nat.mod_eq_of_lt (by omega)
    obtain ⟨items, hitems, hrun⟩ := @ih fuel ⟨s.packList ++ [mark, offset, maxLoops, loopSize] ++
      o.take (2 * (maxLoops * loopSize % 2 ^ 32)), s.staticPackItems + 1,
      s.maxPackItems + maxLoops * loopSize % 2 ^ 32⟩ (by rw [List.length_drop]; omega) (by omega)
      (by dsimp only; omega) (by dsimp only; omega)
    refine ⟨maxLoops * loopSize % 2 ^ 32 + items, ?_, ?_⟩
    · rw [entryOffsets_cons, List.length_append, List.length_cons]
      simp only [PackEntry.offsets, List.length_cons]
      omega
    · rw [copyListFrom_loop hmark htwice (by omega), hmod, hmod', hrun, List.length_cons]
      simp only [List.append_assoc, List.take_append_drop, List.cons_append, List.nil_append]
      congr 2
      · omega
      · omega

theorem not_overrun_of_packList (h : PackListOf list entries) (hlen : list.length < 2 ^ 30) :
    ¬ListOverrun list := by
  induction h with
  | nil => exact fun hover => nomatch hover
  | @item mark offset o entries hmark _ ih =>
    simp only [List.length_cons] at hlen
    intro hover
    cases hover with
    | control hloop _ => exact hloop hmark
    | count hloop _ _ => exact hloop hmark
    | item _ hrest => exact ih (by omega) hrest
    | loop hloop _ _ => exact hloop hmark
  | @loop mark offset maxLoops loopSize o loopItems entries hmark hloop _ ih =>
    obtain ⟨-, htwice⟩ := loopOffsets_length hloop
    simp only [List.length_cons] at hlen
    intro hover
    cases hover with
    | control _ hshort =>
      simp only [List.length_cons] at hshort
      omega
    | count _ _ hshort => omega
    | item hitem _ => exact hmark hitem
    | loop _ _ hrest => exact ih (by rw [List.length_drop]; omega) hrest

theorem loopOffsets_exists {n : Nat} {o : List Nat} (h : 2 * n ≤ o.length) :
    ∃ items, loopOffsets n o = some items := by
  induction n generalizing o with
  | zero => exact ⟨[], rfl⟩
  | succ n ih =>
    rcases o with _ | ⟨mark, _ | ⟨offset, o⟩⟩
    · cases h
    · simp only [List.length_cons, List.length_nil] at h
      omega
    · simp only [List.length_cons] at h
      obtain ⟨items, hitems⟩ := @ih o (by omega)
      exact ⟨offset :: items, by rw [loopOffsets, hitems]; rfl⟩

theorem copyListFrom_cases (hlen : list.length < 2 ^ 30) (hfuel : list.length ≤ fuel) :
    (∃ entries, PackListOf list entries) ∨
    (ListOverrun list ∧ ∀ s, copyListFrom fuel list s = .error (.fault .message)) ∨
    ((∀ entries, ¬PackListOf list entries) ∧ ¬ListOverrun list ∧
      ∀ s, ∃ message, copyListFrom fuel list s = .error (.rejected message)) := by
  induction fuel generalizing list with
  | zero =>
    rw [List.length_eq_zero_iff.mp (Nat.le_zero.mp hfuel)]
    exact .inl ⟨[], .nil⟩
  | succ fuel ih =>
    rcases list with _ | ⟨mark, _ | ⟨offset, o⟩⟩
    · exact .inl ⟨[], .nil⟩
    · exact .inr (.inl ⟨.mark, fun s => rfl⟩)
    simp only [List.length_cons] at hlen hfuel
    by_cases hmark : mark &&& externalWriterMarkLoop = 0
    · have hstep : ∀ s, copyListFrom (fuel + 1) (mark :: offset :: o) s =
          copyListFrom fuel o ⟨s.packList ++ [mark, offset], (s.staticPackItems + 1) % 2 ^ 32,
            s.maxPackItems⟩ := by
        intro s
        rw [copyListFrom.eq_def]
        dsimp only
        rw [if_pos hmark]
      rcases @ih o (by omega) (by omega) with ⟨entries, hlist⟩ | ⟨hover, hrun⟩ |
        ⟨hno, hnot, hrun⟩
      · exact .inl ⟨_, .item hmark hlist⟩
      · exact .inr (.inl ⟨.item hmark hover, fun s => (hstep s).trans (hrun _)⟩)
      · refine .inr (.inr ⟨?_, ?_, fun s => by rw [hstep s]; exact hrun _⟩)
        · intro entries hlist
          cases hlist with
          | item _ hrest => exact hno _ hrest
          | loop hloop _ _ => exact hloop hmark
        · intro hover
          cases hover with
          | control hloop _ => exact hloop hmark
          | count hloop _ _ => exact hloop hmark
          | item _ hrest => exact hnot hrest
          | loop hloop _ _ => exact hloop hmark
    · rcases o with _ | ⟨maxLoops, _ | ⟨loopSize, o⟩⟩
      · refine .inr (.inl ⟨.control hmark (by simp), fun s => ?_⟩)
        rw [copyListFrom.eq_def]
        dsimp only
        rw [if_neg hmark]
      · refine .inr (.inl ⟨.control hmark (by simp), fun s => ?_⟩)
        rw [copyListFrom.eq_def]
        dsimp only
        rw [if_neg hmark]
      simp only [List.length_cons] at hlen hfuel
      by_cases hrefused : o.length < 2 * (maxLoops * loopSize % 2 ^ 32) % 2 ^ 32
      · refine .inr (.inr ⟨?_, ?_, fun s =>
          ⟨"Pack-list malformed, too many loop items.", ?_⟩⟩)
        · intro entries hlist
          cases hlist with
          | item hitem _ => exact hmark hitem
          | loop _ hloop _ =>
            have htwice := (loopOffsets_length hloop).2
            have hle := Nat.mod_le (2 * (maxLoops * loopSize % 2 ^ 32)) (2 ^ 32)
            omega
        · intro hover
          have hle := Nat.mod_le (2 * (maxLoops * loopSize % 2 ^ 32)) (2 ^ 32)
          cases hover with
          | control _ hshort =>
            simp only [List.length_cons] at hshort
            omega
          | count _ hfits _ => omega
          | item hitem _ => exact hmark hitem
          | loop _ hfits _ => omega
        · rw [copyListFrom.eq_def]
          dsimp only
          rw [if_neg hmark, errorIf, if_pos hrefused]
          rfl
      by_cases hover : o.length < 2 * (maxLoops * loopSize % 2 ^ 32)
      · refine .inr (.inl ⟨.count hmark (Nat.not_lt.mp hrefused) hover, fun s => ?_⟩)
        rw [copyListFrom.eq_def]
        dsimp only
        rw [if_neg hmark, errorIf, if_neg hrefused, copyItems_fault hover]
        rfl
      have hwhole := Nat.not_lt.mp hover
      have hstep := fun s => @copyListFrom_loop fuel o s mark offset maxLoops loopSize hmark hwhole
        (by omega)
      rcases @ih (o.drop (2 * (maxLoops * loopSize % 2 ^ 32))) (by rw [List.length_drop]; omega)
        (by rw [List.length_drop]; omega) with ⟨entries, hlist⟩ | ⟨hover', hrun⟩ |
          ⟨hno, hnot, hrun⟩
      · obtain ⟨items, hitems⟩ := loopOffsets_exists hwhole
        exact .inl ⟨_, .loop hmark hitems hlist⟩
      · exact .inr (.inl ⟨.loop hmark hwhole hover', fun s => (hstep s).trans (hrun _)⟩)
      · refine .inr (.inr ⟨?_, ?_, fun s => by rw [hstep s]; exact hrun _⟩)
        · intro entries hlist
          cases hlist with
          | item hitem _ => exact hmark hitem
          | loop _ _ hrest => exact hno _ hrest
        · intro hover'
          cases hover' with
          | control _ hshort =>
            simp only [List.length_cons] at hshort
            omega
          | count _ _ hshort => omega
          | item hitem _ => exact hmark hitem
          | loop _ _ hrest => exact hnot hrest

end Copy

section Message

variable {size : Nat} {m : OffsetsMessage}

theorem entryOffsets_length_le {list : List Nat} {entries : List PackEntry}
    (h : PackListOf list entries) : 2 * (entryOffsets entries).length ≤ list.length := by
  induction h with
  | nil => exact Nat.le_refl _
  | item _ _ ih =>
    rw [entryOffsets_cons, List.length_append]
    simp only [PackEntry.offsets, List.length_cons, List.length_nil]
    omega
  | loop _ hloop _ ih =>
    obtain ⟨hcount, htwice⟩ := loopOffsets_length hloop
    rw [List.length_drop] at ih
    rw [entryOffsets_cons, List.length_append]
    simp only [PackEntry.offsets, List.length_cons]
    omega

theorem arrayOffsets_list {xor : Nat} {o : List Nat} (hbody : m.body = xor :: o) :
    o.length < 2 ^ 30 ∧ arrayOffsetsMessage true m = (do
      let s ← copyListFrom o.length o ⟨[], 0, 0⟩
      errorIf (s.packList.length ≠ o.length) (.rejected "Pack-list malformed, copy failure.")
      return ⟨s.packList, s.staticPackItems, (s.maxPackItems + s.staticPackItems) % 2 ^ 32⟩) := by
  have hheader := m.header
  have hlength : m.length = 8 + 4 * (o.length + 1) := by
    rcases m.whole with hwhole | ⟨-, hnone⟩
    · rw [hwhole, hbody, List.length_cons]
    · rw [hbody] at hnone
      cases hnone
  have hleft : (m.length + 2 ^ 32 - 8) % 2 ^ 32 = 4 * (o.length + 1) := by omega
  have hitems : (4 * (o.length + 1) - 4) / 4 = o.length := by omega
  refine ⟨by omega, ?_⟩
  have hcheck : errorIf (4 * (o.length + 1) < 4)
      (OffsetsStop.rejected "Bad array offsets message size during setup.") = .ok () :=
    if_neg (by omega)
  unfold arrayOffsetsMessage
  simp only [hleft, hcheck, hbody, hitems]
  rfl

theorem arrayOffsets_short (h : m.length < 8) :
    arrayOffsetsMessage true m = .error (.fault .message) := by
  have hbody : m.body = [] := by
    rcases m.whole with hwhole | ⟨-, hnone⟩
    · omega
    · exact hnone
  have hcheck : errorIf ((m.length + 2 ^ 32 - 8) % 2 ^ 32 < 4)
      (OffsetsStop.rejected "Bad array offsets message size during setup.") = .ok () :=
    if_neg (by omega)
  unfold arrayOffsetsMessage
  simp only [hcheck, hbody]
  rfl

theorem arrayOffsets_empty (h : 8 ≤ m.length) (hbody : m.body = []) :
    arrayOffsetsMessage true m =
      .error (.rejected "Bad array offsets message size during setup.") := by
  have hlength : m.length = 8 := by
    rcases m.whole with hwhole | ⟨hshort, -⟩
    · rw [hbody] at hwhole
      exact hwhole
    · omega
  unfold arrayOffsetsMessage
  rw [hlength]
  rfl

theorem arrayOffsets_no_structure (m : OffsetsMessage) :
    ∃ message, arrayOffsetsMessage false m = .error (.rejected message) := by
  unfold arrayOffsetsMessage
  by_cases hsize : (m.length + 2 ^ 32 - 8) % 2 ^ 32 < 4
  · have hcheck : errorIf ((m.length + 2 ^ 32 - 8) % 2 ^ 32 < 4)
        (OffsetsStop.rejected "Bad array offsets message size during setup.") = .error _ :=
      if_pos hsize
    simp only [hcheck]
    exact ⟨_, rfl⟩
  · have hcheck : errorIf ((m.length + 2 ^ 32 - 8) % 2 ^ 32 < 4)
        (OffsetsStop.rejected "Bad array offsets message size during setup.") = .ok () :=
      if_neg hsize
    simp only [hcheck]
    exact ⟨_, rfl⟩

theorem sound_of_rejected {clistr : Bool} {message : String}
    (h : arrayOffsetsMessage clistr m = .error (.rejected message)) :
    ClientListSound clistr size m := by
  rw [ClientListSound, h]
  exact ⟨message, rfl⟩

theorem not_sound_of_fault {clistr : Bool} {f : OffsetsFault}
    (h : arrayOffsetsMessage clistr m = .error (.fault f)) : ¬ClientListSound clistr size m := by
  rw [ClientListSound, h]
  rintro ⟨message, hmessage⟩
  cases hmessage

theorem clientListSound_list {xor : Nat} {o : List Nat} (hbody : m.body = xor :: o) :
    ClientListSound true size m ↔ ClientListGood size o := by
  obtain ⟨hlen, hrun⟩ := arrayOffsets_list hbody
  have hwords : ∀ w ∈ o, w < 2 ^ 32 := fun w hw => m.words w (by rw [hbody]; simp [hw])
  have hwhole : ∀ entries, PackListOf o entries →
      (ClientListSound true size m ↔ (∀ e ∈ entries, e.Counted) ∧
        ∀ a ∈ entryOffsets entries, a + 4 ≤ size) := by
    intro entries hlist
    have hstatic := hlist.length_le
    have hitems := entryOffsets_length_le hlist
    obtain ⟨items, hsum, hcopy⟩ := @copyListFrom_whole o.length o ⟨[], 0, 0⟩ entries hlist hlen
      hstatic (by dsimp only; omega) (by dsimp only; omega)
    have hok : arrayOffsetsMessage true m =
        .ok ⟨o, entries.length, (entryOffsets entries).length⟩ := by
      rw [hrun, hcopy]
      simp only [List.nil_append, Nat.zero_add, bind, Except.bind, errorIf, ne_eq, not_true_eq_false,
        if_false, pure, Except.pure, hsum]
      rw [Nat.mod_eq_of_lt (by omega)]
    rw [ClientListSound, hok, ends_ok, walkSafe_iff hlist hlen hwords]
  rcases @copyListFrom_cases o.length o hlen (Nat.le_refl _) with ⟨entries, hlist⟩ |
    ⟨hover, hfault⟩ | ⟨hno, hnot, hrefused⟩
  · constructor
    · intro hsound
      exact ⟨not_overrun_of_packList hlist hlen, fun entries' h => (hwhole entries' h).mp hsound⟩
    · intro hgood
      exact (hwhole entries hlist).mpr (hgood.2 entries hlist)
  · have herror : arrayOffsetsMessage true m = .error (.fault .message) := by
      rw [hrun, hfault]
      rfl
    exact iff_of_false (not_sound_of_fault herror) fun hgood => hgood.1 hover
  · obtain ⟨message, hmessage⟩ := hrefused ⟨[], 0, 0⟩
    have herror : arrayOffsetsMessage true m = .error (.rejected message) := by
      rw [hrun, hmessage]
      rfl
    exact iff_of_true (sound_of_rejected herror)
      ⟨hnot, fun entries h => absurd h (hno entries)⟩

theorem clientListSound_iff (clistr : Bool) (size : Nat) (m : OffsetsMessage) :
    ClientListSound clistr size m ↔
      (clistr = true → 8 ≤ m.length ∧ ∀ xor o, m.body = xor :: o → ClientListGood size o) := by
  cases clistr with
  | false =>
    obtain ⟨message, hmessage⟩ := arrayOffsets_no_structure m
    exact iff_of_true (sound_of_rejected hmessage) fun h => Bool.noConfusion h
  | true =>
    simp only [forall_const]
    by_cases hshort : m.length < 8
    · exact iff_of_false (not_sound_of_fault (arrayOffsets_short hshort)) fun h => by omega
    have hlength := Nat.not_lt.mp hshort
    cases hbody : m.body with
    | nil =>
      refine iff_of_true (sound_of_rejected (arrayOffsets_empty hlength hbody)) ⟨hlength, ?_⟩
      intro xor o hcons
      cases hcons
    | cons xor o =>
      rw [clientListSound_list hbody]
      constructor
      · intro hgood
        refine ⟨hlength, fun xor' o' hcons => ?_⟩
        cases hcons
        exact hgood
      · exact fun h => h.2 xor o rfl

end Message

end Ucesb
