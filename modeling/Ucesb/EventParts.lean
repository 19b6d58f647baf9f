import Ucesb.EventMerge

namespace Ucesb

inductive PartMark
  | item (mark : Nat)
  | loop (maxLoops loopSize : Nat)
  | multi (maxLoops dataMaxLoops dataLoopSize : Nat)
deriving DecidableEq

def partMarks : List PackMark → List PartMark
  | [] => []
  | m :: marks =>
    match m.loop with
    | none => .item m.mark :: partMarks marks
    | some (maxLoops, loopSize) =>
      if m.isMind then
        match marks with
        | ⟨_, _, some (dataMaxLoops, dataLoopSize), _⟩ :: marks =>
          .multi maxLoops dataMaxLoops dataLoopSize :: partMarks marks
        | _ => []
      else .loop maxLoops loopSize :: partMarks marks

/-- Of a multi-index array, the indices with the end numbers, and the data. -/
inductive EventPart
  | item (value : Nat)
  | loop (entries : List (List Nat))
  | multi (heads : List (Nat × Nat)) (data : List (List Nat))
deriving DecidableEq

def splitEntries (size : Nat) : Nat → List Nat → List (List Nat)
  | 0, _ => []
  | n + 1, words => words.take size :: splitEntries size n (words.drop size)

def indexPairs : Nat → List Nat → List (Nat × Nat)
  | n + 1, index :: endnum :: words => (index, endnum) :: indexPairs n words
  | _, _ => []

def eventParts : List PartMark → List Nat → List EventPart
  | .item _ :: pms, value :: words => .item value :: eventParts pms words
  | .loop _ size :: pms, n :: words =>
    .loop (splitEntries size n words) :: eventParts pms (words.drop (n * size))
  | .multi _ _ size :: pms, n :: words =>
    match words.drop (2 * n) with
    | [] => []
    | k :: data =>
      .multi (indexPairs n words) (splitEntries size k data) ::
        eventParts pms (data.drop (k * size))
  | _, _ => []

def pairWords (heads : List (Nat × Nat)) : List Nat := heads.flatMap fun h => [h.1, h.2]

def EventPart.words : EventPart → List Nat
  | .item value => [value]
  | .loop entries => entries.length :: entries.flatten
  | .multi heads data =>
    heads.length :: (pairWords heads ++ (data.length :: data.flatten))

def partsWords (parts : List EventPart) : List Nat := parts.flatMap EventPart.words

def PartMark.Fits : PartMark → EventPart → Prop
  | .item _, .item _ => True
  | .loop maxLoops size, .loop entries =>
    entries.length ≤ maxLoops ∧ ∀ e ∈ entries, e.length = size
  | .multi maxLoops dataMaxLoops size, .multi heads data =>
    heads.length ≤ maxLoops ∧ data.length ≤ dataMaxLoops ∧ ∀ e ∈ data, e.length = size
  | _, _ => False

/-- The marks that make up a list of parts, with what the checks of the list say. -/
inductive PartsOf : List PackMark → List PartMark → Prop
  | nil : PartsOf [] []
  | item {m marks pms} : m.loop = none → PartsOf marks pms →
      PartsOf (m :: marks) (.item m.mark :: pms)
  | loop {m marks pms maxLoops size} : m.loop = some (maxLoops, size) → m.isMind = false →
      maxLoops < 2 ^ 31 → maxLoops * size < 2 ^ 31 → PartsOf marks pms →
      PartsOf (m :: marks) (.loop maxLoops size :: pms)
  | multi {m d marks pms maxLoops dataMaxLoops size} : m.loop = some (maxLoops, 2) →
      m.isMind = true → d.loop = some (dataMaxLoops, size) → maxLoops * 2 < 2 ^ 31 →
      dataMaxLoops < 2 ^ 31 → dataMaxLoops * size < 2 ^ 31 → PartsOf marks pms →
      PartsOf (m :: d :: marks) (.multi maxLoops dataMaxLoops size :: pms)

def LoopBounds (m : PackMark) : Prop :=
  ∀ maxLoops size, m.loop = some (maxLoops, size) → maxLoops < 2 ^ 31 ∧ maxLoops * size < 2 ^ 31

theorem itemMarks_length {n : Nat} {o : List Nat} {items : List (Nat × Nat)}
    (h : itemMarks n o = some items) : 2 * n ≤ o.length := by
  induction n generalizing o items with
  | zero => simp
  | succ n ih =>
    match o, h with
    | mark :: offset :: o, h =>
      simp only [itemMarks, Option.map_eq_some_iff] at h
      obtain ⟨items, hi, -⟩ := h
      have := ih hi
      simp only [List.length_cons]
      omega

theorem packMarksFrom_bounds {fuel : Nat} {o : List Nat} {marks : List PackMark}
    (h : packMarksFrom fuel o = some marks) (hl : o.length < 2 ^ 30) :
    ∀ m ∈ marks, LoopBounds m := by
  induction fuel generalizing o marks with
  | zero =>
    match o, h with
    | [], h => simp [packMarksFrom] at h; simp [h]
    | _ :: _, h => simp [packMarksFrom] at h
  | succ fuel ih =>
    match o, h with
    | [], h => simp [packMarksFrom] at h; simp [h]
    | [_], h => simp [packMarksFrom] at h
    | mark :: offset :: o, h =>
      simp only [packMarksFrom] at h
      split at h
      · obtain ⟨marks, hm, rfl⟩ := Option.map_eq_some_iff.mp h
        intro m hmem
        rcases List.mem_cons.mp hmem with rfl | hmem
        · exact fun _ _ h => nomatch h
        · exact ih hm (by simp at hl; omega) m hmem
      · split at h
        next maxLoops loopSize o =>
          split at h
          next hmax =>
            simp only [Option.bind_eq_bind, Option.bind_eq_some_iff, Option.some.injEq] at h
            obtain ⟨items, hi, marks, hm, rfl⟩ := h
            have hlen := itemMarks_length hi
            simp only [List.length_cons] at hl
            intro m hmem
            rcases List.mem_cons.mp hmem with rfl | hmem
            · rintro _ _ ⟨⟩
              exact ⟨hmax, by omega⟩
            · exact ih hm (by simp only [List.length_drop]; omega) m hmem
          next => simp at h
        next => simp at h

theorem checkMarks_partsOf {stageLength : Nat} {hadLoop expect : Bool} {marks : List PackMark}
    (h : checkMarks stageLength hadLoop expect marks = true) (hb : ∀ m ∈ marks, LoopBounds m) :
    PartsOf marks (partMarks marks) := by
  induction hn : marks.length using Nat.strong_induction_on generalizing marks hadLoop expect with
  | _ n ih =>
    cases marks with
    | nil => exact .nil
    | cons m marks =>
      have hlen : marks.length < n := by simp at hn; omega
      have hbounds := hb m (by simp)
      have hrest : ∀ m ∈ marks, LoopBounds m := fun m hm => hb m (List.mem_cons_of_mem _ hm)
      obtain ⟨mark, offset, loop, items⟩ := m
      cases loop with
      | none =>
        simp only [checkMarks, Bool.and_eq_true] at h
        exact .item rfl (ih _ hlen h.2.2 hrest rfl)
      | some sizes =>
        obtain ⟨maxLoops, size⟩ := sizes
        obtain ⟨hmax, hprod⟩ := hbounds maxLoops size rfl
        simp only [checkMarks, PackMark.checkLoop, Bool.and_eq_true] at h
        cases hm : PackMark.isMind ⟨mark, offset, some (maxLoops, size), items⟩ with
        | false =>
          rw [partMarks]
          simp only [hm, Bool.false_eq_true, if_false]
          exact .loop rfl hm hmax hprod (ih _ hlen h.2.2 hrest rfl)
        | true =>
          -- the next entry has to be the loop with the data
          obtain rfl : size = 2 := by simpa [hm] using h.2.1.1.2
          have hnext := h.2.2
          rw [hm] at hnext
          match marks, hnext, hrest with
          | ⟨mark', offset', none, items'⟩ :: marks, hnext, _ => simp [checkMarks] at hnext
          | ⟨mark', offset', some (dataMaxLoops, dataSize), items'⟩ :: marks, hnext, hrest =>
            obtain ⟨hmax', hprod'⟩ := hrest _ List.mem_cons_self dataMaxLoops dataSize rfl
            simp only [checkMarks, Bool.and_eq_true] at hnext
            simp only [partMarks, hm, if_true]
            simp only [List.length_cons] at hlen
            exact .multi rfl hm rfl hprod hmax' hprod'
              (ih _ (by omega) hnext.2.2 (fun m h => hrest m (List.mem_cons_of_mem _ h)) rfl)

theorem requestArrayOffsets_partsOf {stageLength tsMergeWindow : Nat} {list : List Nat}
    {oa : OffsetArray} (h : requestArrayOffsets stageLength tsMergeWindow list = some oa) :
    PartsOf oa.marks (partMarks oa.marks) := by
  simp only [requestArrayOffsets] at h
  split at h
  next hlen =>
    obtain ⟨marks, hm, h⟩ := Option.bind_eq_some_iff.mp h
    split at h
    next hc =>
      simp only [Bool.and_eq_true] at hc
      cases h
      exact checkMarks_partsOf hc.1.1 (packMarksFrom_bounds hm hlen)
    next => simp at h
  next => simp at h

theorem splitEntries_length (size n : Nat) (words : List Nat) :
    (splitEntries size n words).length = n := by
  induction n generalizing words with
  | zero => rfl
  | succ n ih => simp [splitEntries, ih]

theorem splitEntries_sizes {size n : Nat} {words : List Nat} (h : n * size ≤ words.length) :
    ∀ e ∈ splitEntries size n words, e.length = size := by
  induction n generalizing words with
  | zero => simp [splitEntries]
  | succ n ih =>
    have hmul : (n + 1) * size = n * size + size := by ring
    intro e he
    rcases List.mem_cons.mp he with rfl | he
    · simp only [List.length_take]
      omega
    · exact ih (by simp only [List.length_drop]; omega) e he

theorem splitEntries_flatten (size n : Nat) (words : List Nat) :
    (splitEntries size n words).flatten = words.take (n * size) := by
  induction n generalizing words with
  | zero => simp [splitEntries]
  | succ n ih =>
    have hmul : (n + 1) * size = size + n * size := by ring
    rw [splitEntries, List.flatten_cons, ih, hmul, List.take_add]

theorem splitEntries_append (size n : Nat) (words : List Nat) :
    words = (splitEntries size n words).flatten ++ words.drop (n * size) := by
  rw [splitEntries_flatten, List.take_append_drop]

theorem splitEntries_of_flatten {size : Nat} {entries : List (List Nat)}
    (h : ∀ e ∈ entries, e.length = size) (rest : List Nat) :
    splitEntries size entries.length (entries.flatten ++ rest) = entries := by
  induction entries with
  | nil => rfl
  | cons e entries ih =>
    have he := h e (by simp)
    simp [splitEntries, he, ih fun e he => h e (List.mem_cons_of_mem _ he)]

theorem flatten_length {size : Nat} {entries : List (List Nat)}
    (h : ∀ e ∈ entries, e.length = size) : entries.flatten.length = entries.length * size := by
  rw [List.length_flatten, List.map_congr_left h, List.map_const', List.sum_replicate_nat]

@[simp] theorem pairWords_cons (h : Nat × Nat) (heads : List (Nat × Nat)) :
    pairWords (h :: heads) = h.1 :: h.2 :: pairWords heads := rfl

@[simp] theorem pairWords_nil : pairWords [] = [] := rfl

@[simp] theorem pairWords_append (heads heads' : List (Nat × Nat)) :
    pairWords (heads ++ heads') = pairWords heads ++ pairWords heads' := by
  simp [pairWords]

@[simp] theorem pairWords_length (heads : List (Nat × Nat)) :
    (pairWords heads).length = 2 * heads.length := by
  induction heads with
  | nil => rfl
  | cons h heads ih => simp [ih]; omega

theorem indexPairs_of_words (heads : List (Nat × Nat)) (rest : List Nat) :
    indexPairs heads.length (pairWords heads ++ rest) = heads := by
  induction heads with
  | nil => simp [indexPairs]
  | cons h heads ih => simpa [indexPairs] using ih

theorem indexPairs_spec {n : Nat} {words : List Nat} (h : 2 * n ≤ words.length) :
    (indexPairs n words).length = n ∧ pairWords (indexPairs n words) = words.take (2 * n) := by
  induction n generalizing words with
  | zero => simp [indexPairs]
  | succ n ih =>
    match words, h with
    | index :: endnum :: words, h =>
      obtain ⟨hl, hw⟩ := @ih words (by simp at h; omega)
      simp [indexPairs, hl, hw, Nat.mul_add]

theorem eventParts_of_words {pms : List PartMark} {parts : List EventPart}
    (h : List.Forall₂ PartMark.Fits pms parts) : eventParts pms (partsWords parts) = parts := by
  induction h with
  | nil => rfl
  | @cons pm part pms parts hf _ ih =>
    simp only [partsWords, List.flatMap_cons] at ih ⊢
    match pm, part, hf with
    | .item mark, .item value, _ => simp [EventPart.words, eventParts, ih]
    | .loop maxLoops size, .loop entries, hf =>
      simp [EventPart.words, eventParts, splitEntries_of_flatten hf.2,
        List.drop_left' (flatten_length hf.2), ih]
    | .multi maxLoops dataMaxLoops size, .multi heads data, hf =>
      have hdrop : ∀ rest, (pairWords heads ++ rest).drop (2 * heads.length) = rest :=
        fun rest => List.drop_left' (pairWords_length heads)
      simp [EventPart.words, eventParts, hdrop, indexPairs_of_words,
        splitEntries_of_flatten hf.2.2, List.drop_left' (flatten_length hf.2.2), ih]

@[simp] theorem partsWords_cons (part : EventPart) (parts : List EventPart) :
    partsWords (part :: parts) = part.words ++ partsWords parts := rfl

theorem fillFrom_loop {m : PackMark} {maxLoops size : Nat} (hm : m.loop = some (maxLoops, size))
    (hb : maxLoops * size < 2 ^ 31) (marks : List PackMark) (value : Nat) (p : List Nat)
    (extra : Nat) :
    fillFrom (m :: marks) (value :: p) extra = true ↔
      value ≤ maxLoops ∧ value * size ≤ extra ∧
        fillFrom marks (p.drop (value * size)) (extra - value * size) = true := by
  simp only [fillFrom, hm, Bool.and_eq_true, decide_eq_true_eq, and_assoc]
  refine and_congr_right fun hv => ?_
  have hle : value * size ≤ maxLoops * size := Nat.mul_le_mul_right _ hv
  rw [Nat.mod_eq_of_lt (by omega)]

theorem fillFrom_parts {marks : List PackMark} {pms : List PartMark} (hp : PartsOf marks pms)
    {words : List Nat} {extra : Nat} (hl : marks.length + extra = words.length)
    (h : fillFrom marks words extra = true) :
    ∃ parts, List.Forall₂ PartMark.Fits pms parts ∧ words = partsWords parts := by
  induction hp generalizing words extra with
  | nil =>
    obtain rfl : words = [] := by simpa [fillFrom] using h
    exact ⟨[], .nil, rfl⟩
  | @item m marks pms hm _ ih =>
    cases words with
    | nil => simp at hl
    | cons value words =>
      simp only [fillFrom, hm] at h
      obtain ⟨parts, hf, hw⟩ := ih (by simp at hl; omega) h
      exact ⟨.item value :: parts, .cons trivial hf, by rw [hw]; rfl⟩
  | @loop m marks pms maxLoops size hm _ _ hb _ ih =>
    cases words with
    | nil => simp at hl
    | cons value words =>
      obtain ⟨hv, hx, h⟩ := (fillFrom_loop hm hb _ _ _ _).mp h
      simp only [List.length_cons] at hl
      obtain ⟨parts, hf, hw⟩ := ih (by simp only [List.length_drop]; omega) h
      refine ⟨.loop (splitEntries size value words) :: parts, .cons ⟨?_, ?_⟩ hf, ?_⟩
      · rwa [splitEntries_length]
      · exact splitEntries_sizes (by omega)
      · rw [partsWords_cons, ← hw, EventPart.words, splitEntries_length, List.cons_append,
          ← splitEntries_append]
  | @multi m d marks pms maxLoops dataMaxLoops size hm _ hd hb _ hb' _ ih =>
    cases words with
    | nil => simp at hl
    | cons value words =>
      obtain ⟨hv, hx, h⟩ := (fillFrom_loop hm hb _ _ _ _).mp h
      simp only [List.length_cons] at hl
      obtain ⟨hlen, hpairs⟩ := @indexPairs_spec value words (by omega)
      have hsplit : words = pairWords (indexPairs value words) ++ words.drop (value * 2) := by
        rw [hpairs, Nat.mul_comm 2, List.take_append_drop]
      cases hdrop : words.drop (value * 2) with
      | nil =>
        have := congrArg List.length hdrop
        simp only [List.length_drop, List.length_nil] at this
        omega
      | cons value' data =>
        have hlen' := congrArg List.length hdrop
        simp only [List.length_drop, List.length_cons] at hlen'
        rw [hdrop] at h hsplit
        obtain ⟨hv', hx', h⟩ := (fillFrom_loop hd hb' _ _ _ _).mp h
        obtain ⟨parts, hf, hw⟩ := ih (by simp only [List.length_drop]; omega) h
        refine ⟨.multi (indexPairs value words) (splitEntries size value' data) :: parts,
          .cons ⟨?_, ?_, ?_⟩ hf, ?_⟩
        · rwa [hlen]
        · rwa [splitEntries_length]
        · exact splitEntries_sizes (by omega)
        · rw [partsWords_cons, ← hw, EventPart.words, hlen, splitEntries_length]
          simp only [List.cons_append, List.append_assoc, ← splitEntries_append]
          rw [← hsplit]

theorem parts_fillFrom {marks : List PackMark} {pms : List PartMark} (hp : PartsOf marks pms)
    {parts : List EventPart} (hf : List.Forall₂ PartMark.Fits pms parts) :
    ∃ extra, (partsWords parts).length = marks.length + extra ∧
      fillFrom marks (partsWords parts) extra = true := by
  induction hp generalizing parts with
  | nil =>
    cases hf
    exact ⟨0, rfl, rfl⟩
  | @item m marks pms hm _ ih =>
    match parts, hf with
    | .item value :: parts, .cons _ hf =>
      obtain ⟨extra, hl, h⟩ := ih hf
      refine ⟨extra, ?_, ?_⟩
      · simp [EventPart.words, hl]
        omega
      · simpa [EventPart.words, fillFrom, hm] using h
  | @loop m marks pms maxLoops size hm _ _ hb _ ih =>
    match parts, hf with
    | .loop entries :: parts, .cons hfits hf =>
      obtain ⟨extra, hl, h⟩ := ih hf
      have hlen := flatten_length hfits.2
      refine ⟨entries.length * size + extra, ?_, ?_⟩
      · simp only [partsWords_cons, EventPart.words, List.length_append, List.length_cons, hl, hlen]
        omega
      · rw [partsWords_cons, EventPart.words, List.cons_append]
        refine (fillFrom_loop hm hb _ _ _ _).mpr ⟨hfits.1, by omega, ?_⟩
        rw [List.drop_left' hlen, Nat.add_sub_cancel_left]
        exact h
  | @multi m d marks pms maxLoops dataMaxLoops size hm _ hd hb _ hb' _ ih =>
    match parts, hf with
    | .multi heads data :: parts, .cons hfits hf =>
      obtain ⟨extra, hl, h⟩ := ih hf
      have hlen := flatten_length hfits.2.2
      refine ⟨2 * heads.length + data.length * size + extra, ?_, ?_⟩
      · simp only [partsWords_cons, EventPart.words, List.length_append, List.length_cons, hl, hlen,
          pairWords_length]
        omega
      · rw [partsWords_cons, EventPart.words, List.cons_append]
        refine (fillFrom_loop hm hb _ _ _ _).mpr ⟨hfits.1, by omega, ?_⟩
        rw [List.append_assoc, List.drop_left' (by rw [pairWords_length, Nat.mul_comm]),
          List.cons_append]
        refine (fillFrom_loop hd hb' _ _ _ _).mpr ⟨hfits.2.1, by omega, ?_⟩
        have hextra : 2 * heads.length + data.length * size + extra - heads.length * 2 -
            data.length * size = extra := by omega
        rw [List.drop_left' hlen, hextra]
        exact h

theorem ntupleFill_iff {oa : OffsetArray} {pms : List PartMark} (hp : PartsOf oa.marks pms)
    (words : List Nat) :
    oa.ntupleFill words = true ↔
      ∃ parts, List.Forall₂ PartMark.Fits pms parts ∧ words = partsWords parts := by
  simp only [OffsetArray.ntupleFill, Bool.and_eq_true, decide_eq_true_eq]
  constructor
  · rintro ⟨hlen, h⟩
    exact fillFrom_parts hp (by omega) h
  · rintro ⟨parts, hf, rfl⟩
    obtain ⟨extra, hl, h⟩ := parts_fillFrom hp hf
    rw [hl, Nat.add_sub_cancel_left]
    exact ⟨by omega, h⟩

def groupsFrom : Nat → List (Nat × Nat) → List (List Nat) → List (Nat × List (List Nat))
  | _, [], _ => []
  | prevEnd, (index, endnum) :: heads, data =>
    (index, data.take (endnum - prevEnd)) ::
      groupsFrom endnum heads (data.drop (endnum - prevEnd))

def headsFrom : Nat → List (Nat × List (List Nat)) → List (Nat × Nat)
  | _, [] => []
  | prevEnd, (index, es) :: gs =>
    (index, prevEnd + es.length) :: headsFrom (prevEnd + es.length) gs

/-- The indices increase strictly, the end numbers do not decrease, and the last one is the number
of data items. -/
def EventPart.Indexed : EventPart → Prop
  | .multi heads data =>
    (heads.map Prod.fst).Pairwise (· < ·) ∧ (heads.map Prod.snd).Pairwise (· ≤ ·) ∧
      (heads.getLast?.map Prod.snd).getD 0 = data.length
  | _ => True

instance decidableIndexed : DecidablePred EventPart.Indexed := fun part =>
  match part with
  | .multi heads data =>
    inferInstanceAs (Decidable ((heads.map Prod.fst).Pairwise (· < ·) ∧
      (heads.map Prod.snd).Pairwise (· ≤ ·) ∧
      (heads.getLast?.map Prod.snd).getD 0 = data.length))
  | .item _ => .isTrue trivial
  | .loop _ => .isTrue trivial

def multiOf (gs : List (Nat × List (List Nat))) : EventPart :=
  .multi (headsFrom 0 gs) (gs.flatMap Prod.snd)

@[simp] theorem headsFrom_length (prevEnd : Nat) (gs : List (Nat × List (List Nat))) :
    (headsFrom prevEnd gs).length = gs.length := by
  induction gs generalizing prevEnd with
  | nil => rfl
  | cons g gs ih => simp [headsFrom, ih]

theorem headsFrom_append (prevEnd : Nat) (gs gs' : List (Nat × List (List Nat))) :
    headsFrom prevEnd (gs ++ gs') =
      headsFrom prevEnd gs ++ headsFrom (prevEnd + (gs.flatMap Prod.snd).length) gs' := by
  induction gs generalizing prevEnd with
  | nil => simp [headsFrom]
  | cons g gs ih => simp [headsFrom, ih, Nat.add_assoc]

theorem groupsFrom_spec {prevEnd : Nat} {heads : List (Nat × Nat)} {data : List (List Nat)}
    (hle : ∀ h ∈ heads, prevEnd ≤ h.2) (hs : (heads.map Prod.snd).Pairwise (· ≤ ·))
    (hlast : (heads.getLast?.map Prod.snd).getD prevEnd = prevEnd + data.length) :
    headsFrom prevEnd (groupsFrom prevEnd heads data) = heads ∧
      (groupsFrom prevEnd heads data).flatMap Prod.snd = data := by
  induction heads generalizing prevEnd data with
  | nil =>
    have hnil : data = [] := by simpa using hlast
    simp [groupsFrom, headsFrom, hnil]
  | cons h heads ih =>
    obtain ⟨index, endnum⟩ := h
    have hend := hle (index, endnum) (by simp)
    simp only [List.map_cons, List.pairwise_cons, List.mem_map, forall_exists_index, and_imp,
      forall_apply_eq_imp_iff₂] at hs
    -- the last end number is at least this one, so that there is enough data for it
    have hlast' : (heads.getLast?.map Prod.snd).getD endnum = prevEnd + data.length := by
      cases heads with
      | nil => simpa using hlast
      | cons h' heads => simpa [List.getLast?_cons] using hlast
    have henough : endnum ≤ prevEnd + data.length := by
      rw [← hlast']
      cases hl : heads.getLast? with
      | none => simp
      | some l => simpa using hs.1 l (List.mem_of_getLast? hl)
    have hlen : (data.take (endnum - prevEnd)).length = endnum - prevEnd := by
      rw [List.length_take]
      omega
    obtain ⟨hh, hd⟩ := @ih endnum (data.drop (endnum - prevEnd)) hs.1 hs.2
      (by rw [hlast', List.length_drop]; omega)
    have hsum : prevEnd + (endnum - prevEnd) = endnum := by omega
    simp only [groupsFrom, headsFrom, hlen, hsum, hh, List.flatMap_cons, hd, List.take_append_drop,
      and_self]

theorem groupsFrom_keys (prevEnd : Nat) (heads : List (Nat × Nat)) (data : List (List Nat)) :
    (groupsFrom prevEnd heads data).map Prod.fst = heads.map Prod.fst := by
  induction heads generalizing prevEnd data with
  | nil => rfl
  | cons h heads ih => simp [groupsFrom, ih]

def EventPart.groups : EventPart → List (Nat × List (List Nat))
  | .multi heads data => groupsFrom 0 heads data
  | _ => []

theorem EventPart.Indexed.eq_multiOf {heads : List (Nat × Nat)} {data : List (List Nat)}
    (h : (EventPart.multi heads data).Indexed) :
    EventPart.multi heads data = multiOf (EventPart.multi heads data).groups := by
  obtain ⟨hh, hd⟩ := @groupsFrom_spec 0 heads data (by simp) h.2.1
    (by simpa using h.2.2)
  simp only [multiOf, groups, hh, hd]

theorem EventPart.Indexed.groups_entries {heads : List (Nat × Nat)} {data : List (List Nat)}
    (h : (EventPart.multi heads data).Indexed) :
    (EventPart.multi heads data).groups.flatMap Prod.snd = data := by
  injection h.eq_multiOf with _ hdata
  exact hdata.symm

theorem EventPart.Indexed.sorted {part : EventPart} (h : part.Indexed) :
    KeysSorted part.groups := by
  cases part with
  | item | loop => exact .nil
  | multi heads data =>
    have hk := h.1
    rw [← groupsFrom_keys 0 heads data, List.pairwise_map] at hk
    exact hk

theorem headsFrom_keys (prevEnd : Nat) (gs : List (Nat × List (List Nat))) :
    (headsFrom prevEnd gs).map Prod.fst = gs.map Prod.fst := by
  induction gs generalizing prevEnd with
  | nil => rfl
  | cons g gs ih => simp [headsFrom, ih]

theorem headsFrom_ends (prevEnd : Nat) (gs : List (Nat × List (List Nat))) :
    (∀ h ∈ headsFrom prevEnd gs, prevEnd ≤ h.2) ∧
    ((headsFrom prevEnd gs).map Prod.snd).Pairwise (· ≤ ·) ∧
      ((headsFrom prevEnd gs).getLast?.map Prod.snd).getD prevEnd =
        prevEnd + (gs.flatMap Prod.snd).length := by
  induction gs generalizing prevEnd with
  | nil => simp [headsFrom]
  | cons g gs ih =>
    obtain ⟨index, es⟩ := g
    obtain ⟨hle, hs, hlast⟩ := ih (prevEnd + es.length)
    refine ⟨?_, ?_, ?_⟩
    · intro h hh
      rcases List.mem_cons.mp hh with rfl | hh
      · simp
      · have := hle h hh
        omega
    · simpa [headsFrom, hs] using fun b a h => hle (a, b) h
    · rw [headsFrom, List.getLast?_cons]
      cases hl : (headsFrom (prevEnd + es.length) gs).getLast? with
      | none | some l =>
        rw [hl] at hlast
        simp at hlast ⊢
        omega

theorem multiOf_indexed {gs : List (Nat × List (List Nat))} (h : KeysSorted gs) :
    (multiOf gs).Indexed := by
  obtain ⟨-, hs, hlast⟩ := headsFrom_ends 0 gs
  refine ⟨?_, hs, by simpa using hlast⟩
  rw [headsFrom_keys, List.pairwise_map]
  exact h

def EventPart.value : EventPart → Nat
  | .item value => value
  | _ => 0

def EventPart.entries : EventPart → List (List Nat)
  | .loop entries => entries
  | _ => []

def columns : List PartMark → List (List EventPart) → List (PartMark × List EventPart)
  | [], _ => []
  | pm :: pms, events => (pm, events.filterMap List.head?) :: columns pms (events.map List.tail)

/-- A loop has the entries of all sources, a multi-index array the indices of all sources. -/
def PartMark.merged : PartMark → List EventPart → EventPart
  | .item mark, parts => .item (itemValue mark (parts.map EventPart.value))
  | .loop maxLoops _, parts => .loop ((parts.flatMap EventPart.entries).take maxLoops)
  | .multi _ dataMaxLoops _, parts =>
    multiOf (cutGroups dataMaxLoops (mergedGroups (parts.map EventPart.groups)))

def PartMark.loopOverflows : PartMark → List EventPart → Prop
  | .loop maxLoops _, parts => maxLoops < (parts.flatMap EventPart.entries).length
  | _, _ => False

def PartMark.multiOverflows : PartMark → List EventPart → Prop
  | .multi _ dataMaxLoops _, parts =>
    dataMaxLoops < (allEntries (parts.map EventPart.groups)).length
  | _, _ => False

/-- What the merging of multi-index arrays relies on: there are not more different indices than the
first loop has space for, the least one is not that which stands for none, and all of them can be
counted. -/
def PartMark.Mergeable : PartMark → List EventPart → Prop
  | .multi maxLoops _ _, parts =>
    (mergedGroups (parts.map EventPart.groups)).length ≤ maxLoops ∧
      (mergedGroups (parts.map EventPart.groups)).head?.map Prod.fst ≠ some (2 ^ 32 - 1) ∧
      groupCount (parts.map EventPart.groups) < 2 ^ 32 - 1
  | _, _ => True

end Ucesb
