import Ucesb.ChunkCursor
import Ucesb.StitchEvent

namespace Ucesb

def subDataLength (sticky : Bool) (header : List UInt8) : Nat :=
  if sticky && subIsRevoke header then 0 else subeventDataLengthFromDlen (rd32 header)

/-- `SUBEVENT_DATA_LENGTH_FROM_DLEN`, computed in `uint32_t`. -/
def subeventDataLength32 (dlen : Nat) : Nat := (dlen + (2 ^ 32 - 2)) * 2 % 2 ^ 32

/-- What `%d` prints. -/
def int32 (n : Nat) : Int := (BitVec.ofNat 32 n).toInt

def infoIncomplete : String := "Event header (second part) not complete before end of event."

def headerIncomplete : String := "Subevent header not complete before end of event."

def subeventIncomplete (header : List UInt8) (missing : Nat) : String :=
  s!"Subevent ({subType header}/{subSubtype header}) length {int32 (subeventDataLength32 (rd32 header))} bytes, not complete before end of event, {int32 missing} bytes missing."

/-- The loop over the further chunks of the data of a subevent; an error gives what is missing. -/
def skipFragments : Nat → List (List UInt8) → Except Nat (List (List UInt8) × Nat)
  | left, [] => .error left
  | left, c :: src =>
    if left ≤ c.length then .ok (if c.length = left then (src, 0) else (c :: src, left))
    else skipFragments (left - c.length) src

def chunkLeft : List (List UInt8) → Nat → List UInt8
  | [], _ => []
  | c :: _, offset => c.drop offset

/-- One turn of the loop of `locate_subevents`. -/
def locateSubevent (sticky swapping : Bool) (src : List (List UInt8)) (offset : Nat) :
    Except String (LocatedSubevent × List (List UInt8) × Nat) :=
  match getRangeMany sizeofSubevent101 src offset with
  | none => .error headerIncomplete
  | some (raw, src, offset) =>
    let header := swapIf swapping raw
    let dataLength := subDataLength sticky header
    let left := (chunkLeft src offset).length
    if dataLength ≤ left then
      .ok (⟨header, .whole ((chunkLeft src offset).take dataLength)⟩,
        if left = dataLength then (src.tail, 0) else (src, offset + dataLength))
    else
      match skipFragments (dataLength - left) src.tail with
      | .error missing => .error (subeventIncomplete header missing)
      | .ok cursor =>
        .ok (⟨header, .fragments (src.headD []) offset src.tail dataLength⟩, cursor)

def locateChunksLoop (sticky swapping : Bool) :
    Nat → List (List UInt8) → Nat → Except String (List LocatedSubevent)
  | 0, _, _ => .ok []
  | fuel + 1, src, offset =>
    if src.isEmpty then .ok []
    else
      match locateSubevent sticky swapping src offset with
      | .error msg => .error msg
      | .ok (info, src, offset) =>
        (locateChunksLoop sticky swapping fuel src offset).map (info :: ·)

/-- `get_10_1_info`, which reads the second part of the event header, and `locate_subevents`. -/
def locateChunks (sticky swapping : Bool) (chunks : List (List UInt8)) :
    Except String (List LocatedSubevent) :=
  match getRangeMany (sizeofEvent101 - sizeofEventHeader) chunks 0 with
  | none => .error infoIncomplete
  | some (_, src, offset) =>
    locateChunksLoop sticky swapping (chunks.flatten.length + 1) src offset

/-- `get_subevent_data_src`: the bytes from `start` to `end`. -/
def getSubeventDataSrc (sticky : Bool) (s : LocatedSubevent) : List UInt8 :=
  if sticky && subIsRevoke s.header then []
  else
    let dataLength := subeventDataLength32 (rd32 s.header)
    match s.data with
    | .whole data => data.take dataLength
    | .fragments first offset more _ =>
      (SubeventData.fragments first offset more dataLength).content

def subeventsOf (sticky swapping : Bool) (chunks : List (List UInt8)) :
    Except String (List (List UInt8 × List UInt8)) :=
  (locateChunks sticky swapping chunks).map
    (List.map fun s => (s.header, getSubeventDataSrc sticky s))

/-- The same from one string of bytes: headers, each followed by its data. -/
def parseSubevents (sticky swapping : Bool) :
    Nat → List UInt8 → Except String (List (List UInt8 × List UInt8))
  | 0, _ => .ok []
  | fuel + 1, bs =>
    if bs.isEmpty then .ok []
    else if bs.length < sizeofSubevent101 then .error headerIncomplete
    else
      let header := swapIf swapping (bs.take sizeofSubevent101)
      let dataLength := subDataLength sticky header
      let rest := bs.drop sizeofSubevent101
      if rest.length < dataLength then
        .error (subeventIncomplete header (dataLength - rest.length))
      else
        (parseSubevents sticky swapping fuel (rest.drop dataLength)).map
          ((header, rest.take dataLength) :: ·)

def parseEvent (sticky swapping : Bool) (bs : List UInt8) :
    Except String (List (List UInt8 × List UInt8)) :=
  if bs.length < sizeofEvent101 - sizeofEventHeader then .error infoIncomplete
  else parseSubevents sticky swapping (bs.length + 1) (bs.drop (sizeofEvent101 - sizeofEventHeader))

section Locate

variable {sticky swapping : Bool} {src : List (List UInt8)} {offset t : Nat}

theorem chunkLeft_append (src : List (List UInt8)) (offset : Nat) :
    cursorRest src offset = chunkLeft src offset ++ src.tail.flatten := by
  cases src <;> rfl

theorem skipFragments_eq {left : Nat} (hpos : 0 < left) (src : List (List UInt8)) :
    skipFragments left src =
      match getRangeRest left src with
      | none => .error (left - src.flatten.length)
      | some (_, cursor) => .ok cursor := by
  induction src generalizing left with
  | nil =>
    obtain ⟨n, rfl⟩ := Nat.exists_eq_add_one_of_ne_zero (Nat.ne_of_gt hpos)
    rfl
  | cons c src ih =>
    obtain ⟨n, rfl⟩ := Nat.exists_eq_add_one_of_ne_zero (Nat.ne_of_gt hpos)
    rw [skipFragments, getRangeRest]
    rcases Nat.lt_trichotomy (n + 1) c.length with hlt | heq | hgt
    · rw [if_pos (by omega), if_neg (by omega), if_neg (by omega)]
    · rw [if_pos (by omega), if_pos heq.symm, if_pos (by omega), heq, Nat.sub_self, getRangeRest]
      rfl
    · rw [if_neg (by omega), if_pos (by omega), ih (by omega)]
      cases getRangeRest (n + 1 - c.length) src with
      | none =>
        simp only [Option.map_none, List.flatten_cons, List.length_append, Nat.sub_sub]
      | some r => rfl

theorem copyFragments_flatten {length : Nat} (hpos : 0 < length) {src : List (List UInt8)}
    (h : length ≤ src.flatten.length) :
    (copyFragments src length).flatten = src.flatten.take length := by
  induction src generalizing length with
  | nil => simp at h; omega
  | cons c src ih =>
    rw [List.flatten_cons, List.length_append] at h
    rw [copyFragments, List.flatten_cons, List.take_append]
    split
    next hlt =>
      have hc : c.take length = c := List.take_of_length_le (by omega)
      rw [List.flatten_cons, ih (by omega) (by omega), hc]
    next hge =>
      have hz : length - c.length = 0 := by omega
      rw [hz, List.take_zero, List.append_nil, List.flatten_cons, List.flatten_nil,
        List.append_nil]

theorem content_fragments (src : List (List UInt8)) (offset length : Nat) :
    (SubeventData.fragments (src.headD []) offset src.tail length).content =
      chunkLeft src offset ++
        (copyFragments src.tail (length - (chunkLeft src offset).length)).flatten := by
  cases src with
  | nil => simp [SubeventData.content, chunkLeft]
  | cons c src => rw [SubeventData.content, chunkLeft, List.length_drop]; rfl

theorem subDataLength_small {header : List UInt8} (h : subDataLength sticky header < 2 ^ 32)
    (hr : (sticky && subIsRevoke header) = false) :
    subeventDataLength32 (rd32 header) = subDataLength sticky header := by
  have hlt := rd32_lt header
  rw [subDataLength, hr, if_neg (by simp), subeventDataLengthFromDlen] at h ⊢
  rw [subeventDataLength32]
  omega

theorem cursor_advance {d : Nat} (hd : d ≤ (chunkLeft src offset).length)
    (hok : CursorOk src offset) (ht : CursorTail t src offset) :
    ∃ src' offset', (if (chunkLeft src offset).length = d then (src.tail, 0)
        else (src, offset + d)) = (src', offset') ∧
      cursorRest src' offset' = (cursorRest src offset).drop d ∧ CursorOk src' offset' ∧
      CursorTail (if d = 0 ∧ cursorRest src offset = [] then t - 1 else t) src' offset' := by
  cases src with
  | nil =>
    have hz : d = 0 := by simpa [chunkLeft] using hd
    have htz : 0 = t := ht
    subst hz htz
    exact ⟨[], 0, rfl, rfl, rfl, rfl⟩
  | cons c src =>
    simp only [chunkLeft, List.length_drop] at hd ⊢
    have hoff : offset ≤ c.length := by
      rcases hok with h | h <;> omega
    by_cases heq : c.length - offset = d
    · rw [if_pos heq]
      refine ⟨src, 0, rfl, ?_, cursorOk_zero src, ?_⟩
      · rw [cursorRest_zero, cursorRest, List.drop_append, List.length_drop, heq, Nat.sub_self,
          List.drop_of_length_le (by rw [List.length_drop]; omega)]
        rfl
      · by_cases hrest : cursorRest (c :: src) offset = []
        · have hnil : c.drop offset = [] ∧ src.flatten = [] := by
            simpa [cursorRest] using hrest
          have hz : d = 0 := by
            have hl := congrArg List.length hnil.1
            rw [List.length_drop, List.length_nil] at hl
            omega
          rw [CursorTail, hrest] at ht
          have ht' : src.length + 1 = t := ht
          rw [if_pos ⟨hz, hrest⟩, CursorTail, cursorRest_zero, hnil.2, List.isEmpty_nil, if_pos rfl]
          omega
        · rw [if_neg (fun h => hrest h.2), CursorTail, cursorRest_zero]
          exact cursorTail_next hrest ht
    · rw [if_neg heq]
      have hne : ∀ k, offset + k < c.length → cursorRest (c :: src) (offset + k) ≠ [] := by
        intro k hk he
        have hl := congrArg List.length he
        rw [cursorRest, List.length_append, List.length_drop, List.length_nil] at hl
        omega
      refine ⟨c :: src, offset + d, rfl, ?_, .inr (by omega), ?_⟩
      · rw [cursorRest, cursorRest, List.drop_append_of_le_length (by rw [List.length_drop]; omega),
          List.drop_drop]
      · rw [if_neg (fun h => hne 0 (by omega) h.2), CursorTail, if_neg (by simpa using hne d (by omega))]
        rw [CursorTail, if_neg (by simpa using hne 0 (by omega))] at ht
        exact ht

theorem locateSubevent_ok {rest : List UInt8} (hok : CursorOk src offset)
    (ht : trailingEmpty src = t) (hrest : cursorRest src offset = rest)
    (hhead : sizeofSubevent101 ≤ rest.length) (hsmall : rest.length < 2 ^ 32)
    {header : List UInt8} (hheader : header = swapIf swapping (rest.take sizeofSubevent101)) {d : Nat}
    (hd : d = subDataLength sticky header) (hdata : d ≤ (rest.drop sizeofSubevent101).length) :
    ∃ data src' offset', locateSubevent sticky swapping src offset =
        .ok (⟨header, data⟩, src', offset') ∧
      data.content = (rest.drop sizeofSubevent101).take d ∧
      getSubeventDataSrc sticky ⟨header, data⟩ = data.content ∧
      cursorRest src' offset' = (rest.drop sizeofSubevent101).drop d ∧ CursorOk src' offset' ∧
      CursorTail (if d = 0 ∧ rest.drop sizeofSubevent101 = [] then t - 1 else t) src' offset' := by
  subst hrest
  obtain ⟨src₁, offset₁, hget, hrest₁, hok₁, htail₁⟩ :=
    getRangeMany_spec hhead (by decide) hok ht
  rw [← hrest₁] at hdata ⊢
  have hlen₁ : (cursorRest src₁ offset₁).length < 2 ^ 32 := by
    rw [hrest₁, List.length_drop]
    omega
  have hlen32 : (sticky && subIsRevoke header) = false → subeventDataLength32 (rd32 header) = d := by
    intro hr
    rw [hd] at hdata ⊢
    exact subDataLength_small (by omega) hr
  rw [locateSubevent, hget]
  simp only [← hheader, ← hd]
  by_cases hin : d ≤ (chunkLeft src₁ offset₁).length
  · obtain ⟨src₂, offset₂, hcur, hrest₂, hok₂, htail₂⟩ := cursor_advance hin hok₁ htail₁
    refine ⟨_, src₂, offset₂, by rw [if_pos hin, hcur], ?_, ?_, hrest₂, hok₂, htail₂⟩
    · rw [SubeventData.content, chunkLeft_append, List.take_append_of_le_length hin]
    · rw [getSubeventDataSrc, SubeventData.content]
      cases hr : (sticky && subIsRevoke header) with
      | true =>
        have hz : d = 0 := by rw [hd, subDataLength, hr, if_pos rfl]
        rw [hz]
        rfl
      | false =>
        simp only [Bool.false_eq_true, if_false, hlen32 hr]
        rw [List.take_take, Nat.min_self]
  · have hlt : (chunkLeft src₁ offset₁).length < d := Nat.lt_of_not_le hin
    have hr : (sticky && subIsRevoke header) = false := by
      rw [Bool.eq_false_iff]
      intro hr
      rw [hd, subDataLength, hr, if_pos rfl] at hlt
      omega
    have hflat : (cursorRest src₁ offset₁).length =
        (chunkLeft src₁ offset₁).length + src₁.tail.flatten.length := by
      rw [chunkLeft_append, List.length_append]
    have htail' : if src₁.tail.flatten.isEmpty then src₁.tail.length = t
        else trailingEmpty src₁.tail = t := by
      have hne : (cursorRest src₁ offset₁) ≠ [] := by
        intro he
        rw [he] at hdata
        simp at hdata
        omega
      cases src₁ with
      | nil => exact absurd rfl hne
      | cons c cs => exact cursorTail_next hne htail₁
    obtain ⟨src₂, offset₂, hget₂, hrest₂, hok₂, htail₂⟩ :=
      @getRangeRest_spec _ (d - (chunkLeft src₁ offset₁).length) t src₁.tail (by omega) htail'
    rw [if_neg hin, skipFragments_eq (by omega), hget₂]
    refine ⟨_, src₂, offset₂, rfl, ?_, ?_, ?_, hok₂, ?_⟩
    · rw [content_fragments, copyFragments_flatten (by omega) (by omega), chunkLeft_append,
        List.take_append, List.take_of_length_le (Nat.le_of_lt hlt)]
    · rw [getSubeventDataSrc]
      simp only [hr, Bool.false_eq_true, if_false, hlen32 hr]
    · rw [hrest₂, chunkLeft_append, List.drop_append, List.drop_of_length_le (Nat.le_of_lt hlt),
        List.nil_append]
    · rw [if_neg (by omega)]
      exact htail₂

theorem locateSubevent_short (hshort : (cursorRest src offset).length < sizeofSubevent101) :
    locateSubevent sticky swapping src offset = .error headerIncomplete := by
  rw [locateSubevent, getRangeMany_none hshort]

theorem locateSubevent_missing {rest header : List UInt8} {d : Nat} (hok : CursorOk src offset)
    (hrest : cursorRest src offset = rest) (hhead : sizeofSubevent101 ≤ rest.length)
    (hheader : header = swapIf swapping (rest.take sizeofSubevent101))
    (hd : d = subDataLength sticky header) (hdata : (rest.drop sizeofSubevent101).length < d) :
    locateSubevent sticky swapping src offset = .error (subeventIncomplete header
      (d - (rest.drop sizeofSubevent101).length)) := by
  subst hrest
  obtain ⟨src₁, offset₁, hget, hrest₁, _, _⟩ := getRangeMany_spec hhead (by decide) hok rfl
  rw [← hrest₁] at hdata ⊢
  rw [chunkLeft_append, List.length_append] at hdata
  rw [locateSubevent, hget]
  simp only [← hheader, ← hd]
  rw [if_neg (by omega), skipFragments_eq (by omega), getRangeRest_none (by omega)]
  simp only [chunkLeft_append, List.length_append, Nat.sub_sub]

/-- Chunks that are empty at the end are taken for data, except for one after a subevent
without data. -/
def EndsClean (t : Nat) (subs : List (List UInt8 × List UInt8)) : Prop :=
  t = 0 ∨ t = 1 ∧ ∃ s, subs.getLast? = some s ∧ s.2 = []

def endOf (t : Nat) (parsed : Except String (List (List UInt8 × List UInt8))) :
    Except String (List (List UInt8 × List UInt8)) → Prop := fun found =>
  match parsed with
  | .error msg => found = .error msg
  | .ok subs => (EndsClean t subs ∧ found = .ok subs) ∨
      (¬ EndsClean t subs ∧ found = .error headerIncomplete)

theorem endsClean_nil : EndsClean t [] ↔ t = 0 := by
  simp [EndsClean]

theorem endsClean_last {header bs : List UInt8} {d : Nat} (hend : bs.drop d = [])
    (hd : d ≤ bs.length) :
    EndsClean t [(header, bs.take d)] ↔ EndsClean (if d = 0 ∧ bs = [] then t - 1 else t) [] := by
  rw [endsClean_nil, EndsClean]
  have hle := List.drop_eq_nil_iff.mp hend
  have hall : bs.take d = bs := List.take_of_length_le hle
  simp only [List.getLast?_singleton, Option.some.injEq, exists_eq_left', hall]
  by_cases hbs : bs = []
  · have hz : d = 0 := by
      rw [hbs] at hd
      exact Nat.le_zero.mp hd
    simp only [hz, hbs, and_self, if_true, and_true]
    omega
  · simp only [hbs, and_false, if_false, or_false]

theorem endOf_cons {t' : Nat} {x : List UInt8 × List UInt8}
    {parsed found : Except String (List (List UInt8 × List UInt8))} (h : endOf t' parsed found)
    (hiff : ∀ subs, parsed = .ok subs → (EndsClean t (x :: subs) ↔ EndsClean t' subs)) :
    endOf t (parsed.map (x :: ·)) (found.map (x :: ·)) := by
  cases parsed with
  | error msg =>
    have hfound : found = .error msg := h
    rw [hfound]
    rfl
  | ok subs =>
    have hx := hiff subs rfl
    rcases h with ⟨hclean, rfl⟩ | ⟨hclean, rfl⟩
    · exact .inl ⟨hx.mpr hclean, rfl⟩
    · exact .inr ⟨fun h => hclean (hx.mp h), rfl⟩

theorem parseSubevents_ne_nil {fuel : Nat} {bs : List UInt8} {subs : List (List UInt8 × List UInt8)}
    (hf : bs.length < fuel) (hne : bs ≠ [])
    (h : parseSubevents sticky swapping fuel bs = .ok subs) : subs ≠ [] := by
  obtain ⟨fuel, rfl⟩ := Nat.exists_eq_add_one_of_ne_zero (show fuel ≠ 0 by omega)
  rw [parseSubevents, if_neg (by simpa using hne)] at h
  split at h
  next => cases h
  next =>
    simp only at h
    split at h
    next => cases h
    next =>
      cases hp : parseSubevents sticky swapping fuel _ with
      | error msg =>
        rw [hp] at h
        cases h
      | ok rest =>
        rw [hp] at h
        cases h
        simp

theorem locateChunksLoop_spec {fuel : Nat} {rest : List UInt8} (hrest : cursorRest src offset = rest)
    (hf : rest.length < fuel) (hok : CursorOk src offset) (ht : CursorTail t src offset)
    (hsmall : rest.length < 2 ^ 32) :
    endOf t (parseSubevents sticky swapping fuel rest)
      ((locateChunksLoop sticky swapping fuel src offset).map
        (List.map fun s => (s.header, getSubeventDataSrc sticky s))) := by
  induction fuel generalizing src offset t rest with
  | zero => omega
  | succ fuel ih =>
    rw [parseSubevents, locateChunksLoop]
    by_cases hnil : rest = []
    · rw [CursorTail, hrest, hnil, List.isEmpty_nil, if_pos rfl] at ht
      rw [hnil, List.isEmpty_nil, if_pos rfl, endOf]
      by_cases hz : t = 0
      · left
        have hsrc : src = [] := List.length_eq_zero_iff.mp (ht.trans hz)
        rw [hsrc]
        exact ⟨.inl hz, rfl⟩
      · right
        have hsrc : src.isEmpty = false := by
          rw [List.isEmpty_eq_false_iff]
          intro he
          rw [he] at ht
          exact hz ht.symm
        refine ⟨?_, ?_⟩
        · rintro (h | ⟨_, s, hs, _⟩)
          · exact hz h
          · cases hs
        · rw [hsrc, if_neg (by simp), locateSubevent_short (by rw [hrest, hnil]; decide)]
          rfl
    · have hsrc : src.isEmpty = false := by
        rw [List.isEmpty_eq_false_iff]
        intro he
        rw [he] at hrest
        exact hnil hrest.symm
      rw [CursorTail, hrest, if_neg (by simpa using hnil)] at ht
      have hne : rest.isEmpty = false := by simpa using hnil
      simp only [hne, hsrc, Bool.false_eq_true, if_false]
      by_cases hhead : rest.length < sizeofSubevent101
      · rw [if_pos hhead, locateSubevent_short (by rw [hrest]; exact hhead)]
        rfl
      · rw [if_neg hhead]
        generalize hheader : swapIf swapping (rest.take sizeofSubevent101) = header
        generalize hd : subDataLength sticky header = d
        by_cases hdata : (rest.drop sizeofSubevent101).length < d
        · rw [if_pos hdata, locateSubevent_missing hok hrest (by omega) hheader.symm hd.symm hdata]
          rfl
        · obtain ⟨data, src', offset', hloc, hcontent, hdsrc, hrest', hok', htail'⟩ :=
            locateSubevent_ok hok ht hrest (by omega) hsmall hheader.symm hd.symm (by omega)
          have hlen' : ((rest.drop sizeofSubevent101).drop d).length < rest.length := by
            rw [List.length_drop, List.length_drop]
            have h12 : sizeofSubevent101 = 12 := rfl
            omega
          have hrec := ih hrest' (by omega) hok' htail' (by omega)
          rw [if_neg hdata, hloc]
          simp only
          have hcons : ∀ found : Except String (List LocatedSubevent),
              (found.map (⟨header, data⟩ :: ·)).map
                (List.map fun s => (s.header, getSubeventDataSrc sticky s)) =
              (found.map (List.map fun s => (s.header, getSubeventDataSrc sticky s))).map
                ((header, (rest.drop sizeofSubevent101).take d) :: ·) := by
            intro found
            cases found with
            | error msg => rfl
            | ok infos =>
              simp only [Except.map, List.map_cons, hdsrc, hcontent]
          rw [hcons]
          refine endOf_cons hrec ?_
          intro subs hsubs
          by_cases hend : (rest.drop sizeofSubevent101).drop d = []
          · -- this was the last subevent
            have hno : subs = [] := by
              rw [hend] at hsubs
              cases fuel with
              | zero => cases hsubs; rfl
              | succ fuel => cases hsubs; rfl
            subst hno
            exact endsClean_last hend (by omega)
          · have hlast := parseSubevents_ne_nil (by omega) hend hsubs
            have hne' : rest.drop sizeofSubevent101 ≠ [] := by
              intro he
              rw [he] at hend
              simp at hend
            rw [EndsClean, EndsClean, List.getLast?_cons_of_ne_nil hlast,
              if_neg (fun h => hne' h.2)]

end Locate

/-- The chunks of an event; `get_event` computes their total length in 32 bits. -/
structure EventChunks where
  chunks : List (List UInt8)
  small : chunks.flatten.length < 2 ^ 32

theorem locateChunks_spec (sticky swapping : Bool) (e : EventChunks) :
    endOf (trailingEmpty e.chunks) (parseEvent sticky swapping e.chunks.flatten)
      (subeventsOf sticky swapping e.chunks) := by
  have hsmall := e.small
  have h8 : sizeofEvent101 - sizeofEventHeader = 8 := rfl
  have hzero := cursorRest_zero e.chunks
  rw [parseEvent, subeventsOf, locateChunks, h8]
  by_cases hshort : e.chunks.flatten.length < 8
  · rw [if_pos hshort, getRangeMany_none (by rw [hzero]; exact hshort)]
    rfl
  · rw [if_neg hshort]
    obtain ⟨src, offset, hget, hrest, hok, htail⟩ :=
      @getRangeMany_spec _ 8 _ 0 e.chunks (by rw [hzero]; omega) (by decide)
        (cursorOk_zero e.chunks) rfl
    rw [hget]
    rw [hzero] at hrest
    exact locateChunksLoop_spec hrest (by rw [List.length_drop]; omega) hok htail
      (by rw [List.length_drop]; omega)

/-- Where the event is cut does not matter, except that chunks which are empty at its end are
taken for data. -/
theorem subevents_independent_of_chunks (sticky swapping : Bool) (e : EventChunks) :
    subeventsOf sticky swapping e.chunks = parseEvent sticky swapping e.chunks.flatten ↔
      ∀ subs, parseEvent sticky swapping e.chunks.flatten = .ok subs →
        EndsClean (trailingEmpty e.chunks) subs := by
  have hspec := locateChunks_spec sticky swapping e
  cases hparse : parseEvent sticky swapping e.chunks.flatten with
  | error msg =>
    rw [hparse] at hspec
    have hfound : subeventsOf sticky swapping e.chunks = .error msg := hspec
    simp [hfound]
  | ok subs =>
    rw [hparse] at hspec
    rcases hspec with ⟨hclean, hfound⟩ | ⟨hclean, hfound⟩
    · simp [hfound, hclean]
    · simp [hfound, hclean]

def emptyLastChunks : List (List UInt8) :=
  [List.replicate 8 0 ++ le32 4 ++ le32 0 ++ le32 0 ++ le32 7, []]

theorem emptyLastChunks_small : emptyLastChunks.flatten.length < 2 ^ 32 := by decide

def emptyLastFragment : EventChunks := ⟨emptyLastChunks, emptyLastChunks_small⟩

theorem empty_last_fragment_rejected : ¬ ∀ (sticky swapping : Bool) (e : EventChunks),
    subeventsOf sticky swapping e.chunks = parseEvent sticky swapping e.chunks.flatten := by
  intro h
  have hfound : subeventsOf false false emptyLastFragment.chunks = .error headerIncomplete := by
    decide +kernel
  have hparse : parseEvent false false emptyLastFragment.chunks.flatten =
      .ok [(le32 4 ++ le32 0 ++ le32 0, le32 7)] := by decide +kernel
  have heq := h false false emptyLastFragment
  rw [hfound, hparse] at heq
  cases heq

end Ucesb
