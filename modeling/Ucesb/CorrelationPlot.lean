import Ucesb.CorrelationHits
import Ucesb.DenseCorr

namespace Ucesb

/-- A `detector_request` without a level. -/
structure DetectorRequest (s : EventShape) where
  encloses : Channel s → Bool
  exclude : Bool

/-- `detector_requests::add_detector_request`, with the pattern that `dissect_name_range` makes of
the name. -/
def addDetectorRequest {s : EventShape}
    (dissectNameRange : List Char → Option (Channel s → Bool)) :
    List Char → Option (DetectorRequest s)
  | '!' :: name => (dissectNameRange name).map (⟨·, true⟩)
  | name => (dissectNameRange name).map (⟨·, false⟩)

/-- `detector_requests::prepare` does not report an error. -/
def requestsPrepared {s : EventShape} (requests : List (DetectorRequest s)) : Bool :=
  !(requests.any (·.exclude) && requests.any (!·.exclude))

/-- `detector_requests::is_channel_requested`, for requests without a level. -/
def isChannelRequested {s : EventShape} (requests : List (DetectorRequest s)) (c : Channel s) :
    Bool :=
  if requests.any (·.exclude) then !(requests.any fun r => r.encloses c && r.exclude)
  else (requests.any fun r => r.encloses c && !r.exclude) || requests.isEmpty

def isSpace (ch : Char) : Bool := ch == ' ' || (9 ≤ ch.toNat && ch.toNat ≤ 13)

def digitsValue (digits : List Char) : Nat :=
  (digits.takeWhile Char.isDigit).foldl (fun v ch => 10 * v + (ch.toNat - 48)) 0

/-- `atoi`: a `strtol` that is cut to an `int`. -/
def atoi (string : List Char) : Int :=
  let v : Int :=
    match string.dropWhile isSpace with
    | '-' :: digits => -digitsValue digits
    | '+' :: digits => digitsValue digits
    | digits => digitsValue digits
  (BitVec.ofInt 32 (max (-2 ^ 63) (min v (2 ^ 63 - 1)))).toInt

/-- What `correlation_init` has when it comes to a character of the command. -/
structure CorrelationInit (s : EventShape) where
  listN : Int
  corr2Plot : Bool
  needSort : Bool
  requests : List (DetectorRequest s)
  info : EnumerateInfo s

def CorrelationInit.start (s : EventShape) : CorrelationInit s :=
  ⟨1, false, false, [], EnumerateInfo.start s⟩

section

variable {s : EventShape} (dissectNameRange : List Char → Option (Channel s → Bool))

def CorrelationInit.request (init : CorrelationInit s) (request : List Char) :
    Option (CorrelationInit s) :=
  let detector post := (addDetectorRequest dissectNameRange post).map fun r =>
    { init with requests := init.requests ++ [r] }
  if request = ['h', 'e', 'l', 'p'] then none
  else
    match request with
    | 'm' :: 'i' :: 'x' :: '=' :: ch :: post => some { init with listN := atoi (ch :: post) }
    | ['2', 'd'] => some { init with corr2Plot := true }
    | 'D' :: 'E' :: 'T' :: '=' :: ch :: post => detector (ch :: post)
    | 'd' :: 'e' :: 't' :: '=' :: ch :: post => detector (ch :: post)
    | _ => detector request

def CorrelationInit.group (init : CorrelationInit s) : Option (CorrelationInit s) :=
  if requestsPrepared init.requests && init.requests.all fun r => (channels s).any r.encloses then
    some { init with
      info := enumerateCorrelations (isChannelRequested init.requests) init.info
      requests := [] }
  else none

/-- The loops over the groups and their requests.  What follows the last separator is the name of
the file. -/
def CorrelationInit.run : List Char → List Char → CorrelationInit s → Option (CorrelationInit s)
  | [], filename, init => if filename = ['h', 'e', 'l', 'p'] then none else init.group
  | ch :: command, request, init =>
    if ch = ',' then do
      let init ← init.request dissectNameRange request
      run command [] init
    else if ch = ':' then do
      let init ← init.request dissectNameRange request
      let init ← { init with needSort := true }.group
      run command [] init
    else run command (request ++ [ch]) init

/-- `correlation_plot`.  A list is what there is between `_buffer` and `_cur`, and `n` the number
of entries that were allocated for it. -/
structure CorrelationPlot (s : EventShape) where
  index : Channel s → Option Nat
  n : Nat
  lists : List (List Nat)
  listN : Nat
  listI : Nat
  wrapped : Bool
  needSort : Bool
  corr : Option (Int → Int)
  corr2 : Option (Int → Int)

def correlationInit (command : List Char) : Option (CorrelationPlot s) := do
  let init ← CorrelationInit.run dissectNameRange command [] (CorrelationInit.start s)
  if init.listN < 1 then none
  else
    let corr2Plot := decide (1 < init.listN) || init.corr2Plot
    some
      { index := init.info.index
        n := init.info.nextIndex
        lists := List.replicate init.listN.toNat []
        listN := init.listN.toNat
        listI := 0
        wrapped := false
        needSort := init.needSort
        corr := if corr2Plot then none else some fun _ => 0
        corr2 := if corr2Plot then some fun _ => 0 else none }

end

namespace CorrelationPlot

variable {s : EventShape}

/-- `_list_i` of the next event. -/
def nextListI (plot : CorrelationPlot s) : Nat :=
  if plot.listN ≤ plot.listI + 1 then 0 else plot.listI + 1

/-- `_wrapped_i` after an event. -/
def nextWrapped (plot : CorrelationPlot s) : Bool :=
  plot.wrapped || decide (plot.listN ≤ plot.listI + 1)

/-- The entries that an event makes, `list_i`. -/
def filled (plot : CorrelationPlot s) (src : Source s) : List Nat :=
  let list := addCorrMembers s src plot.index []
  if plot.needSort then list.mergeSort else list

/-- `list_old`, when `list_i` has been filled. -/
def listOld (plot : CorrelationPlot s) (src : Source s) : List Nat :=
  (plot.lists.set plot.listI (plot.filled src)).getD plot.nextListI []

def oneEvent (plot : CorrelationPlot s) (src : Source s) : CorrelationPlot s :=
  { plot with
    lists := plot.lists.set plot.listI (plot.filled src)
    listI := plot.nextListI
    wrapped := plot.nextWrapped
    corr := if plot.nextWrapped then plot.corr.map (addListDiag plot.n (plot.filled src))
      else plot.corr
    corr2 := if plot.nextWrapped then
        plot.corr2.map (addListsTwo plot.n (plot.filled src) (plot.listOld src))
      else plot.corr2 }

def Present (plot : CorrelationPlot s) (src : Source s) (i : Nat) : Prop :=
  ∃ c ∈ hits s src, plot.index c = some i

def counted (plot : CorrelationPlot s) (src : Source s) : List (List Nat) :=
  if plot.nextWrapped then
    if plot.corr2.isSome then [plot.filled src, plot.listOld src] else [plot.filled src]
  else []

/-- An event is counted inside the arrays, and each pair of its items once. -/
structure CountsInside (plot : CorrelationPlot s) (src : Source s) : Prop where
  fits : (plot.filled src).length ≤ plot.n
  sorted : ∀ list ∈ plot.counted src, list.Pairwise (· ≤ ·)
  diag : ∀ memory, plot.corr = some memory → ∃ memory', (plot.oneEvent src).corr = some memory' ∧
    DiagCounted plot.n (plot.Present src) memory memory'

def selectedHits (plot : CorrelationPlot s) (src : Source s) : List (Channel s) :=
  (hits s src).filter fun c => (plot.index c).isSome

/-- With `dense_corr`: no channel is hit twice.  Without groups of requests the hits also have to
come in the order of the channels. -/
def HitOnce (plot : CorrelationPlot s) (src : Source s) : Prop :=
  if plot.needSort then (plot.selectedHits src).Nodup
  else (plot.selectedHits src).Pairwise Precedes

/-- With `dense_corr2`: there are not more hits than channels, and no lists out of order are
counted. -/
structure HitsFit (plot : CorrelationPlot s) (src : Source s) : Prop where
  fits : (plot.selectedHits src).length ≤ plot.n
  inOrder : plot.nextWrapped = true → plot.needSort = false →
    (plot.selectedHits src).Pairwise fun c d => ¬Precedes d c
  oldSorted : plot.nextWrapped = true → plot.listN ≠ 1 →
    (plot.lists.getD plot.nextListI []).Pairwise (· ≤ ·)

def HitsAllowed (plot : CorrelationPlot s) (src : Source s) : Prop :=
  if plot.corr.isSome then plot.HitOnce src else plot.HitsFit src

/-- What `correlation_init` sets up and the events keep. -/
structure PlotInv (plot : CorrelationPlot s) : Prop where
  lt : ∀ c k, plot.index c = some k → k < plot.n
  unique : ∀ c d k, plot.index c = some k → plot.index d = some k → c = d
  mono : plot.needSort = false →
    ∀ c d k l, plot.index c = some k → plot.index d = some l → Precedes c d → k < l
  listN_pos : 0 < plot.listN
  listI_lt : plot.listI < plot.listN
  lists_length : plot.lists.length = plot.listN
  one_plot : plot.corr2.isSome = !plot.corr.isSome
  corr_listN : plot.corr.isSome → plot.listN = 1

theorem oneEvent_inv {plot : CorrelationPlot s} (h : plot.PlotInv) (src : Source s) :
    (plot.oneEvent src).PlotInv where
  lt := h.lt
  unique := h.unique
  mono := h.mono
  listN_pos := h.listN_pos
  listI_lt := by
    have := h.listN_pos
    show plot.nextListI < plot.listN
    rw [nextListI]
    split_ifs <;> omega
  lists_length := by
    show (plot.lists.set _ _).length = plot.listN
    rw [List.length_set, h.lists_length]
  one_plot := by
    have := h.one_plot
    rw [oneEvent]
    split_ifs <;> simpa using this
  corr_listN hcorr := by
    refine h.corr_listN ?_
    rw [oneEvent] at hcorr
    split_ifs at hcorr <;> simpa using hcorr

theorem foldl_inv {plot : CorrelationPlot s} (h : plot.PlotInv) (events : List (Source s)) :
    (events.foldl oneEvent plot).PlotInv := by
  induction events generalizing plot with
  | nil => exact h
  | cons src events ih => exact ih (oneEvent_inv h src)

end CorrelationPlot

section

variable {s : EventShape} {dissectNameRange : List Char → Option (Channel s → Bool)}

/-- The indices while the command is looked at.  Until there is a separator of groups they have
not been given out yet. -/
structure CorrelationInit.Inv (init : CorrelationInit s) : Prop where
  enumerated : Enumerated init.info
  first : init.needSort = false → init.info = EnumerateInfo.start s

theorem CorrelationInit.request_inv {init init' : CorrelationInit s} {request : List Char}
    (h : init.Inv) (he : init.request dissectNameRange request = some init') : init'.Inv := by
  simp only [CorrelationInit.request] at he
  split_ifs at he
  split at he
  next => exact Option.some.inj he ▸ ⟨h.enumerated, h.first⟩
  next => exact Option.some.inj he ▸ ⟨h.enumerated, h.first⟩
  all_goals
    obtain ⟨r, -, rfl⟩ := Option.map_eq_some_iff.mp he
    exact ⟨h.enumerated, h.first⟩

structure CorrelationInit.Done (init : CorrelationInit s) : Prop where
  enumerated : Enumerated init.info
  inOrder : init.needSort = false → IndexInOrder init.info []

theorem CorrelationInit.group_done {init init' : CorrelationInit s} (h : init.Inv)
    (he : init.group = some init') : init'.Done := by
  rw [CorrelationInit.group] at he
  split_ifs at he
  obtain rfl := Option.some.inj he
  refine ⟨enumerateCorrelations_enumerated h.enumerated _, fun hsort => ?_⟩
  show IndexInOrder (enumerateCorrelations _ init.info) []
  rw [h.first hsort]
  exact enumerateCorrelations_inOrder _

theorem CorrelationInit.run_done {command request : List Char} {init init' : CorrelationInit s}
    (h : init.Inv) (he : CorrelationInit.run dissectNameRange command request init = some init') :
    init'.Done := by
  induction command generalizing request init with
  | nil =>
    rw [CorrelationInit.run] at he
    split_ifs at he
    exact CorrelationInit.group_done h he
  | cons ch command ih =>
    rw [CorrelationInit.run] at he
    split_ifs at he
    · obtain ⟨init1, h1, he⟩ := Option.bind_eq_some_iff.mp he
      exact ih (CorrelationInit.request_inv h h1) he
    · obtain ⟨init1, h1, he⟩ := Option.bind_eq_some_iff.mp he
      obtain ⟨init2, h2, he⟩ := Option.bind_eq_some_iff.mp he
      have hinv := CorrelationInit.request_inv h h1
      rw [CorrelationInit.group] at h2
      split_ifs at h2
      obtain rfl := Option.some.inj h2
      exact ih ⟨enumerateCorrelations_enumerated hinv.enumerated _, fun h => Bool.noConfusion h⟩ he
    · exact ih h he

theorem correlationInit_inv {command : List Char} {plot : CorrelationPlot s}
    (h : correlationInit dissectNameRange command = some plot) : plot.PlotInv := by
  rw [correlationInit] at h
  obtain ⟨init, hrun, h⟩ := Option.bind_eq_some_iff.mp h
  split_ifs at h with hn
  obtain rfl := Option.some.inj h
  have hdone := CorrelationInit.run_done ⟨EnumerateInfo.start_enumerated s, fun _ => rfl⟩ hrun
  refine ⟨hdone.enumerated.lt, hdone.enumerated.unique, fun hsort => (hdone.inOrder hsort).mono,
    ?_, ?_, ?_, ?_, ?_⟩
  · show 0 < init.listN.toNat
    omega
  · show 0 < init.listN.toNat
    omega
  · exact List.length_replicate
  · cases hc : decide (1 < init.listN) || init.corr2Plot <;> simp
  · intro hcorr
    show init.listN.toNat = 1
    by_cases h1 : 1 < init.listN
    · simp [h1] at hcorr
    · omega

end

namespace CorrelationPlot

variable {s : EventShape} {plot : CorrelationPlot s} {src : Source s}

theorem filled_perm (plot : CorrelationPlot s) (src : Source s) :
    (plot.filled src).Perm ((hits s src).filterMap plot.index) := by
  rw [filled, addCorrMembers_eq, List.nil_append]
  split_ifs
  · exact List.mergeSort_perm _ _
  · exact List.Perm.refl _

theorem length_filled (plot : CorrelationPlot s) (src : Source s) :
    (plot.filled src).length = (plot.selectedHits src).length := by
  rw [(plot.filled_perm src).length_eq, List.length_filterMap_eq_countP, selectedHits,
    List.countP_eq_length_filter]

theorem mem_filled {i : Nat} : i ∈ plot.filled src ↔ plot.Present src i := by
  rw [(plot.filled_perm src).mem_iff, List.mem_filterMap, Present]

theorem filled_lt (h : plot.PlotInv) : ∀ i ∈ plot.filled src, i < plot.n := by
  intro i hi
  obtain ⟨c, -, hc⟩ := mem_filled.mp hi
  exact h.lt c i hc

theorem pairwise_entries {R : Nat → Nat → Prop} {R' : Channel s → Channel s → Prop}
    (h : ∀ c d k l, plot.index c = some k → plot.index d = some l → (R k l ↔ R' c d)) :
    ((hits s src).filterMap plot.index).Pairwise R ↔ (plot.selectedHits src).Pairwise R' := by
  rw [selectedHits, List.pairwise_filterMap, List.pairwise_filter]
  have hpair : ∀ c d, (∀ k, plot.index c = some k → ∀ l, plot.index d = some l → R k l) ↔
      ((plot.index c).isSome = true → (plot.index d).isSome = true → R' c d) := by
    intro c d
    constructor
    · intro hr hc hd
      obtain ⟨k, hk⟩ := Option.isSome_iff_exists.mp hc
      obtain ⟨l, hl⟩ := Option.isSome_iff_exists.mp hd
      exact (h c d k l hk hl).mp (hr k hk l hl)
    · intro hr k hk l hl
      exact (h c d k l hk hl).mpr (hr (hk ▸ rfl) (hl ▸ rfl))
  exact List.Pairwise.iff hpair

theorem nodup_filled (h : plot.PlotInv) :
    (plot.filled src).Nodup ↔ (plot.selectedHits src).Nodup := by
  rw [(plot.filled_perm src).nodup_iff]
  refine pairwise_entries fun c d k l hc hd => not_congr ⟨fun hkl => ?_, fun hcd => ?_⟩
  · exact h.unique c d k hc (hkl ▸ hd)
  · rw [hcd, hd] at hc
    exact (Option.some.inj hc).symm

theorem lt_iff_precedes (h : plot.PlotInv) (hsort : plot.needSort = false) {c d : Channel s}
    {k l : Nat} (hc : plot.index c = some k) (hd : plot.index d = some l) :
    k < l ↔ Precedes c d := by
  refine ⟨fun hkl => ?_, h.mono hsort c d k l hc hd⟩
  rcases Precedes.total c d with hcd | rfl | hdc
  · exact hcd
  · rw [hc] at hd
    cases hd
    exact absurd hkl (Nat.lt_irrefl k)
  · have := h.mono hsort d c l k hd hc hdc
    omega

theorem filled_sorted (hsort : plot.needSort = true) : (plot.filled src).Pairwise (· ≤ ·) := by
  rw [filled, if_pos hsort]
  exact List.pairwise_mergeSort' (· ≤ ·) _

theorem filled_unsorted (hsort : plot.needSort = false) :
    plot.filled src = (hits s src).filterMap plot.index := by
  rw [filled, addCorrMembers_eq, List.nil_append, hsort]
  rfl

theorem filled_ascending (h : plot.PlotInv) :
    (plot.filled src).Pairwise (· < ·) ↔ plot.HitOnce src := by
  rw [HitOnce]
  cases hsort : plot.needSort with
  | false =>
    rw [filled_unsorted hsort]
    exact pairwise_entries fun c d k l hc hd => lt_iff_precedes h hsort hc hd
  | true =>
    rw [if_pos rfl, ← nodup_filled h]
    refine ⟨fun hlt => hlt.imp fun hab => hab.ne, fun hnodup => ?_⟩
    exact ((filled_sorted hsort).and hnodup).imp fun hab => lt_of_le_of_ne hab.1 hab.2

theorem ascending_of_nodup {l : List Nat} (hsorted : l.Pairwise (· ≤ ·)) (h : l.Nodup) :
    l.Pairwise (· < ·) :=
  (hsorted.and h).imp fun hab => lt_of_le_of_ne hab.1 hab.2

theorem length_le_of_ascending {l : List Nat} {n : Nat} (h : l.Pairwise (· < ·))
    (hlt : ∀ i ∈ l, i < n) : l.length ≤ n := by
  have hnodup : l.Nodup := h.imp fun hab => hab.ne
  have hsub := (List.subperm_of_subset hnodup fun i hi => List.mem_range.mpr (hlt i hi)).length_le
  rwa [List.length_range] at hsub

theorem nextWrapped_of_one (hn : plot.listN = 1) : plot.nextWrapped = true := by
  have : plot.listN ≤ plot.listI + 1 := by omega
  rw [nextWrapped, decide_eq_true this, Bool.or_true]

theorem diag_filled (h : plot.PlotInv) (hlt : (plot.filled src).Pairwise (· < ·))
    (memory : Int → Int) :
    DiagCounted plot.n (plot.Present src) memory (addListDiag plot.n (plot.filled src) memory) := by
  have hpresent : plot.Present src = (· ∈ plot.filled src) :=
    funext fun i => propext mem_filled.symm
  rw [hpresent]
  exact addListDiag_counted hlt (filled_lt h) memory

theorem counts_dense (h : plot.PlotInv) {memory : Int → Int} (hcorr : plot.corr = some memory) :
    plot.CountsInside src ↔ (plot.filled src).Pairwise (· < ·) := by
  have hsome : plot.corr.isSome = true := hcorr ▸ rfl
  have hwrapped := nextWrapped_of_one (h.corr_listN hsome)
  have hcorr2 : plot.corr2.isSome = false := by rw [h.one_plot, hsome]; rfl
  have hcounted : plot.counted src = [plot.filled src] := by
    rw [counted, hwrapped, hcorr2]
    rfl
  have hnext : (plot.oneEvent src).corr = some (addListDiag plot.n (plot.filled src) memory) := by
    rw [oneEvent, hwrapped, hcorr]
    rfl
  constructor
  · intro hc
    have hsorted : (plot.filled src).Pairwise (· ≤ ·) :=
      hc.sorted _ (hcounted ▸ List.mem_singleton_self _)
    obtain ⟨memory', hmem, hdiag⟩ := hc.diag memory hcorr
    obtain rfl := Option.some.inj (hnext.symm.trans hmem)
    exact ascending_of_nodup hsorted
      (hdiag.nodup (filled_lt h) fun i hi => mem_filled.mp hi)
  · intro hlt
    refine ⟨length_le_of_ascending hlt (filled_lt h), fun list hl => ?_, fun memory₂ hm => ?_⟩
    · rw [hcounted, List.mem_singleton] at hl
      exact hl ▸ hlt.imp fun hab => hab.le
    · obtain rfl := Option.some.inj (hcorr.symm.trans hm)
      exact ⟨_, hnext, diag_filled h hlt memory⟩

theorem listOld_one (h : plot.PlotInv) (hn : plot.listN = 1) :
    plot.listOld src = plot.filled src := by
  have hlen := h.lists_length
  have hlt := h.listI_lt
  have hnext : plot.nextListI = plot.listI := by
    rw [nextListI]
    split_ifs <;> omega
  rw [listOld, hnext, List.getD_eq_getElem?_getD, List.getElem?_set_self (by omega)]
  rfl

theorem listOld_other (h : plot.PlotInv) (hn : plot.listN ≠ 1) :
    plot.listOld src = plot.lists.getD plot.nextListI [] := by
  have hlt := h.listI_lt
  have hnext : plot.listI ≠ plot.nextListI := by
    rw [nextListI]
    split_ifs <;> omega
  rw [listOld, List.getD_eq_getElem?_getD, List.getElem?_set_ne hnext,
    List.getD_eq_getElem?_getD]

theorem filled_inOrder (h : plot.PlotInv) : (plot.filled src).Pairwise (· ≤ ·) ↔
    (plot.needSort = false → (plot.selectedHits src).Pairwise fun c d => ¬Precedes d c) := by
  cases hsort : plot.needSort with
  | true => exact ⟨fun _ => nofun, fun _ => filled_sorted hsort⟩
  | false =>
    rw [filled_unsorted hsort, pairwise_entries fun c d k l hc hd =>
      not_lt.symm.trans (not_congr (lt_iff_precedes h hsort hd hc))]
    exact ⟨fun h _ => h, fun h => h rfl⟩

theorem counts_mixed (h : plot.PlotInv) (hcorr : plot.corr = none) :
    plot.CountsInside src ↔ plot.HitsFit src := by
  have hcorr2 : plot.corr2.isSome = true := by rw [h.one_plot, hcorr]; rfl
  have hcounted : ∀ list, list ∈ plot.counted src ↔
      plot.nextWrapped = true ∧ (list = plot.filled src ∨ list = plot.listOld src) := by
    intro list
    rw [counted, hcorr2]
    cases plot.nextWrapped <;> simp
  constructor
  · intro hc
    refine ⟨plot.length_filled src ▸ hc.fits, fun hw => ?_, fun hw hn => ?_⟩
    · exact (filled_inOrder h).mp (hc.sorted _ ((hcounted _).mpr ⟨hw, .inl rfl⟩))
    · rw [← @listOld_other s plot src h hn]
      exact hc.sorted _ ((hcounted _).mpr ⟨hw, .inr rfl⟩)
  · intro hf
    refine ⟨(plot.length_filled src).symm ▸ hf.fits, fun list hl => ?_, fun memory hm => ?_⟩
    · obtain ⟨hw, hl⟩ := (hcounted list).mp hl
      have hfilled := (filled_inOrder h).mpr (hf.inOrder hw)
      rcases hl with rfl | rfl
      · exact hfilled
      · by_cases hn : plot.listN = 1
        · exact (listOld_one h hn).symm ▸ hfilled
        · exact (listOld_other h hn).symm ▸ hf.oldSorted hw hn
    · rw [hcorr] at hm
      exact nomatch hm

theorem counts_iff (h : plot.PlotInv) : plot.CountsInside src ↔ plot.HitsAllowed src := by
  rw [HitsAllowed]
  cases hcorr : plot.corr with
  | none => exact counts_mixed h hcorr
  | some memory => exact (counts_dense h hcorr).trans (filled_ascending h)

theorem hitOnce_of_single (plot : CorrelationPlot s) (h : SingleHits s src) :
    plot.HitOnce src := by
  have hordered : (plot.selectedHits src).Pairwise Precedes :=
    (hits_ordered s src h).sublist List.filter_sublist
  rw [HitOnce]
  split_ifs
  · exact hordered.imp fun {c d} hcd (heq : c = d) => Precedes.irrefl d (heq ▸ hcd)
  · exact hordered

def ListsSorted (plot : CorrelationPlot s) : Prop :=
  ∀ list ∈ plot.lists, list.Pairwise (· ≤ ·)

theorem filled_of_single (h : plot.PlotInv) (hs : SingleHits s src) :
    (plot.filled src).Pairwise (· < ·) :=
  (filled_ascending h).mpr (plot.hitOnce_of_single hs)

theorem oneEvent_sorted (h : plot.PlotInv) (hl : plot.ListsSorted) (hs : SingleHits s src) :
    (plot.oneEvent src).ListsSorted := by
  intro list hmem
  rcases List.mem_or_eq_of_mem_set hmem with hmem | rfl
  · exact hl list hmem
  · exact (filled_of_single h hs).imp fun hab => hab.le

theorem hitsAllowed_of_single (h : plot.PlotInv) (hl : plot.ListsSorted) (hs : SingleHits s src) :
    plot.HitsAllowed src := by
  have hlt := filled_of_single h hs
  rw [HitsAllowed]
  split_ifs
  · exact plot.hitOnce_of_single hs
  · refine ⟨plot.length_filled src ▸ length_le_of_ascending hlt (filled_lt h), fun _ => ?_,
      fun _ _ => ?_⟩
    · exact (filled_inOrder h).mp (hlt.imp fun hab => hab.le)
    · rw [List.getD_eq_getElem?_getD]
      cases hget : plot.lists[plot.nextListI]? with
      | none => exact List.Pairwise.nil
      | some list => exact hl list (List.mem_of_getElem? hget)

theorem counts_of_single (h : plot.PlotInv) (hl : plot.ListsSorted) {events : List (Source s)}
    (hevents : ∀ src ∈ events, SingleHits s src) (hs : SingleHits s src) :
    (events.foldl oneEvent plot).CountsInside src := by
  induction events generalizing plot with
  | nil => exact (counts_iff h).mpr (hitsAllowed_of_single h hl hs)
  | cons src' events ih =>
    exact ih (oneEvent_inv h src') (oneEvent_sorted h hl (hevents src' (List.mem_cons_self ..)))
      fun src'' hmem => hevents src'' (List.mem_cons_of_mem src' hmem)

end CorrelationPlot

/-- After any events, the next one is counted inside the arrays just when its hits are allowed. -/
theorem correlation_counts_iff {s : EventShape}
    (dissectNameRange : List Char → Option (Channel s → Bool)) (command : List Char)
    {plot : CorrelationPlot s} (h : correlationInit dissectNameRange command = some plot)
    (events : List (Source s)) (src : Source s) :
    (events.foldl CorrelationPlot.oneEvent plot).CountsInside src ↔
      (events.foldl CorrelationPlot.oneEvent plot).HitsAllowed src :=
  CorrelationPlot.counts_iff (CorrelationPlot.foldl_inv (correlationInit_inv h) events)

def twoHits : Source (.array (.multi 2) 1 .single) := fun _ => ⟨[(5 : Nat), (7 : Nat)], le_rfl⟩

def threeHits : Source (.array (.multi 2) 3 .single) := fun i => ⟨[i.val + 5], one_le_two⟩

def outerHits : Source (.array (.multi 2) 3 .single) :=
  fun i => if i = 1 then ⟨[], Nat.zero_le 2⟩ else ⟨[(7 : Nat)], one_le_two⟩

/-- Three entries, after an event with two. -/
theorem correlation_counts_three :
    ∃ plot, correlationInit (s := .array (.multi 2) 3 .single) (fun _ => some fun _ => true)
        ['a', ',', 'f'] = some plot ∧ (plot.selectedHits threeHits).length = 3 ∧
      (plot.oneEvent outerHits).CountsInside threeHits := by
  obtain ⟨plot, hinit, hlists, hlen⟩ : ∃ plot,
      correlationInit (s := .array (.multi 2) 3 .single) (fun _ => some fun _ => true)
        ['a', ',', 'f'] = some plot ∧ plot.lists = [[]] ∧
      (plot.selectedHits threeHits).length = 3 := ⟨_, rfl, rfl, rfl⟩
  have hsorted : plot.ListsSorted := by
    intro list hlist
    rw [hlists] at hlist
    cases List.mem_singleton.mp hlist
    exact List.Pairwise.nil
  have houter : SingleHits _ outerHits := by
    intro i
    unfold outerHits
    split
    · exact ⟨Nat.zero_le 1, nofun⟩
    · exact ⟨le_rfl, fun _ _ => trivial⟩
  have hthree : SingleHits _ threeHits := fun i => ⟨le_rfl, fun _ _ => trivial⟩
  have hinv := correlationInit_inv hinit
  refine ⟨plot, hinit, hlen, (correlation_counts_iff (fun _ => some fun _ => true) ['a', ',', 'f']
    hinit [outerHits] threeHits).mpr ?_⟩
  exact CorrelationPlot.hitsAllowed_of_single (CorrelationPlot.oneEvent_inv hinv _)
    (CorrelationPlot.oneEvent_sorted hinv hsorted houter) hthree

theorem correlation_counts_outside :
    ∃ plot, correlationInit (s := .array (.multi 2) 1 .single) (fun _ => some fun _ => true)
        ['a', ',', 'f'] = some plot ∧ ¬plot.CountsInside twoHits :=
  ⟨_, rfl, fun h => absurd (show 2 ≤ 1 from h.fits) (by decide)⟩

end Ucesb
