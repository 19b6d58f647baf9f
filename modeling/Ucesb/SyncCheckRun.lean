import Ucesb.SyncCheck

namespace Ucesb

section Kind

variable {fit : SyncFit} {x : TstampSyncInfo} {flag : Nat}

theorem findPeak_flags (fit : SyncFit) (x : TstampSyncInfo) :
    (findPeak fit x).flags ∈ [0, 0x100, 0x200, 0x400, 0x800] ∧
      ((findPeak fit x).peak = -1 → (findPeak fit x).flags ≠ 0) ∧
      (findPeak fit x).event = x.event := by
  unfold findPeak
  split
  · simp [syncInfoNoValue]
  · split
    · simp [syncInfoNoPeakFit]
    · split
      · simp [syncInfoNoPeakFit]
      · split
        · simp [syncInfoOutsidePeak]
        · simp [syncInfoAmbiguousPeak]
        · next n _ =>
          have hpos : (n : Int) ≠ -1 := by omega
          simp [hpos]

def markFlags : List Nat :=
  [syncInfoOutOfOrderTs, syncInfoOutOfOrderRefsTs, syncInfoNoEnclosingRefs, syncInfoLocalTrigger,
    syncInfoSpurious, syncInfoNoRefPeak, syncInfoPeakMismatch, syncInfoPeakMatch]

theorem kind_of_flags {f : Nat} (h : x.flags = f)
    (hf : (syncKinds.find? fun k => f &&& k.1 != 0).isSome = true) : x.kind ≠ none := by
  unfold TstampSyncInfo.kind
  rw [h]
  simpa [Option.isSome_iff_ne_none] using hf

theorem mark_kind (hflag : flag ∈ markFlags) : ((findPeak fit x).mark flag).kind ≠ none := by
  have hmem := (findPeak_flags fit x).1
  refine kind_of_flags (show _ = (findPeak fit x).flags ||| flag from rfl) ?_
  generalize (findPeak fit x).flags = f at hmem
  have hall : ∀ f ∈ [0, 0x100, 0x200, 0x400, 0x800], ∀ flag ∈ markFlags,
      (syncKinds.find? fun k => (f ||| flag) &&& k.1 != 0).isSome = true := by
    decide
  exact hall f hmem flag hflag

theorem noPeak_kind (h : (findPeak fit x).peak = -1) : (findPeak fit x).kind ≠ none := by
  obtain ⟨hmem, hflags, -⟩ := findPeak_flags fit x
  have hne := hflags h
  refine kind_of_flags rfl ?_
  generalize (findPeak fit x).flags = f at hmem hne
  have hall : ∀ f ∈ [0, 0x100, 0x200, 0x400, 0x800], f ≠ 0 →
      (syncKinds.find? fun k => f &&& k.1 != 0).isSome = true := by
    decide
  exact hall f hmem hne

theorem mark_event (fit : SyncFit) (x : TstampSyncInfo) (flag : Nat) :
    ((findPeak fit x).mark flag).event = x.event :=
  (findPeak_flags fit x).2.2

theorem matchPeak_kind (fit : SyncFit) (x : TstampSyncInfo) (refPeak : Int) :
    (matchPeak (findPeak fit x) refPeak).event = x.event ∧
      (matchPeak (findPeak fit x) refPeak).kind ≠ none := by
  unfold matchPeak
  split
  · next hpeak => exact ⟨(findPeak_flags fit x).2.2, noPeak_kind hpeak⟩
  · split
    · exact ⟨mark_event fit x _, mark_kind (by decide)⟩
    · split
      · exact ⟨mark_event fit x _, mark_kind (by decide)⟩
      · exact ⟨mark_event fit x _, mark_kind (by decide)⟩

end Kind

def Classifies (length : Nat)
    (treat : Nat → List TstampSyncInfo → TstampSyncInfo → TstampSyncInfo) : Prop :=
  ∀ i list x, list.length = length →
    (treat i list x).event = x.event ∧ (treat i list x).kind ≠ none

theorem classifies_mark (fit : SyncFit) (length : Nat) {flag : Nat} (h : flag ∈ markFlags) :
    Classifies length fun _ _ x => (findPeak fit x).mark flag :=
  fun _ _ x _ => ⟨mark_event fit x flag, mark_kind h⟩

theorem classifies_check (fit : SyncFit) {length cur : Nat} (tPrev tCur tNext : Nat)
    (hcur : cur < length) : Classifies length (checkItem fit cur tPrev tCur tNext) := by
  intro i list x hlen
  have hmark : ∀ flag, flag ∈ markFlags → ((findPeak fit x).mark flag).event = x.event ∧
      ((findPeak fit x).mark flag).kind ≠ none :=
    fun flag h => ⟨mark_event fit x flag, mark_kind h⟩
  unfold checkItem
  split
  · exact hmark _ (by decide)
  · split
    · exact hmark _ (by decide)
    · split
      · next hnone =>
        -- the reference is in the list
        rw [List.getElem?_eq_none_iff, List.length_set] at hnone
        omega
      · split
        · exact hmark _ (by decide)
        · exact matchPeak_kind fit x _

section Scan

variable (stop : TstampSyncInfo → Bool)
  {treat : Nat → List TstampSyncInfo → TstampSyncInfo → TstampSyncInfo}

structure ScanSpec (list : List TstampSyncInfo) (i todo : Nat)
    (r : List TstampSyncInfo × Nat × List Nat) : Prop where
  events : r.1.map TstampSyncInfo.event = list.map TstampSyncInfo.event
  ge : i ≤ r.2.1
  le : r.2.1 ≤ i + todo
  inside : i ≤ list.length → r.2.1 ≤ list.length
  treated : r.2.2 = List.range' i (r.2.1 - i)
  before : ∀ k, k < i → r.1[k]? = list[k]?
  kinds : ∀ k x, i ≤ k → k < r.2.1 → r.1[k]? = some x → x.kind ≠ none

theorem ScanSpec.refl (list : List TstampSyncInfo) (i todo : Nat) :
    ScanSpec list i todo (list, i, []) where
  events := rfl
  ge := Nat.le_refl _
  le := Nat.le_add_right _ _
  inside := id
  treated := by
    simp
  before := fun _ _ => rfl
  kinds := fun k x hge hlt => absurd hge (Nat.not_le.mpr hlt)

theorem map_event_set {list : List TstampSyncInfo} {i : Nat} {x y : TstampSyncInfo}
    (hx : list[i]? = some x) (hy : y.event = x.event) :
    (list.set i y).map TstampSyncInfo.event = list.map TstampSyncInfo.event := by
  rw [List.map_set, hy]
  apply List.ext_getElem?
  intro k
  rw [List.getElem?_set]
  split
  · next hk =>
    subst hk
    rw [List.getElem?_map, hx]
    split
    · rfl
    · next hlen =>
      rw [List.length_map] at hlen
      rw [List.getElem?_eq_none (Nat.not_lt.mp hlen)] at hx
      cases hx
  · rfl

theorem scanItems_spec {length : Nat} (htreat : Classifies length treat) (todo : Nat)
    {list : List TstampSyncInfo} (hlen : list.length = length) (i : Nat) :
    ScanSpec list i todo (scanItems stop treat todo list i) := by
  induction todo generalizing list i with
  | zero => exact ScanSpec.refl list i 0
  | succ todo ih =>
    unfold scanItems
    split
    · exact ScanSpec.refl list i _
    · next x hx =>
      split
      · exact ScanSpec.refl list i _
      · obtain ⟨hevent, hkind⟩ := htreat i list x hlen
        have hlt : i < list.length := (List.getElem?_eq_some_iff.mp hx).1
        have hnext := ih (show (list.set i (treat i list x)).length = length by simpa using hlen)
          (i + 1)
        generalize scanItems stop treat todo (list.set i (treat i list x)) (i + 1) = r at hnext
        have hge := hnext.ge
        exact {
          events := hnext.events.trans (map_event_set hx hevent)
          ge := by
            dsimp only
            omega
          le := by
            have hle := hnext.le
            dsimp only
            omega
          inside := by
            intro _
            have hin := hnext.inside
            rw [List.length_set] at hin
            exact hin hlt
          treated := by
            dsimp only
            rw [hnext.treated, show r.2.1 - i = r.2.1 - (i + 1) + 1 by omega, List.range'_succ]
          before := by
            intro k hk
            dsimp only
            rw [hnext.before k (by omega), List.getElem?_set_ne (by omega)]
          kinds := by
            intro k y hik hkr hy
            rcases Nat.eq_or_lt_of_le hik with rfl | hik
            · dsimp only at hy
              rw [hnext.before i (Nat.lt_succ_self i), List.getElem?_set_self hlt] at hy
              cases hy
              exact hkind
            · exact hnext.kinds k y hik hkr hy }

theorem scanItems_all {length : Nat} (todo : Nat)
    {list : List TstampSyncInfo} (hlen : list.length = length) (i : Nat) (hle : i + todo ≤ length) :
    (scanItems (fun _ => false) treat todo list i).2.1 = i + todo := by
  induction todo generalizing list i with
  | zero => rfl
  | succ todo ih =>
    unfold scanItems
    split
    · next hnone =>
      rw [List.getElem?_eq_none_iff] at hnone
      omega
    · next x hx =>
      rw [if_neg (by decide)]
      dsimp only
      rw [ih (by simpa using hlen) (i + 1) (by omega)]
      omega

end Scan

structure Scanned (list : List TstampSyncInfo) (old : Nat) (s : SyncScan) : Prop where
  events : s.list.map TstampSyncInfo.event = list.map TstampSyncInfo.event
  ge : old ≤ s.iCheck
  inside : s.iCheck ≤ list.length
  treated : s.treated = List.range' old (s.iCheck - old)
  kinds : ∀ k x, old ≤ k → k < s.iCheck → s.list[k]? = some x → x.kind ≠ none

section Round

variable {list : List TstampSyncInfo} {old : Nat} {s : SyncScan} {fit : SyncFit}

theorem Scanned.length_eq (h : Scanned list old s) : s.list.length = list.length := by
  have hlen := congrArg List.length h.events
  rwa [List.length_map, List.length_map] at hlen

theorem Scanned.init (hold : old ≤ list.length) : Scanned list old ⟨list, old, []⟩ where
  events := rfl
  ge := Nat.le_refl _
  inside := hold
  treated := by
    simp
  kinds := fun k x hge hlt => absurd hge (Nat.not_le.mpr hlt)

theorem Scanned.scan (h : Scanned list old s) (stop : TstampSyncInfo → Bool)
    {treat : Nat → List TstampSyncInfo → TstampSyncInfo → TstampSyncInfo}
    (htreat : Classifies list.length treat) (limit : Nat) :
    Scanned list old (s.scan stop treat limit) ∧
      (s.scan stop treat limit).iCheck ≤ max s.iCheck limit := by
  have hspec := scanItems_spec stop htreat (limit - s.iCheck) h.length_eq s.iCheck
  have hge := h.ge
  have hge' := hspec.ge
  have hle' := hspec.le
  unfold SyncScan.scan
  generalize scanItems stop treat (limit - s.iCheck) s.list s.iCheck = r at hspec hge' hle'
  refine ⟨⟨hspec.events.trans h.events, Nat.le_trans hge hge', ?_, ?_, ?_⟩, ?_⟩
  · have hin := hspec.inside
    rw [h.length_eq] at hin
    exact hin h.inside
  · dsimp only
    rw [h.treated, hspec.treated, show r.2.1 - old = (s.iCheck - old) + (r.2.1 - s.iCheck) by omega,
      ← List.range'_append_1, show old + (s.iCheck - old) = s.iCheck by omega]
  · intro k x hk hlt hx
    rcases Nat.lt_or_ge k s.iCheck with hbefore | hafter
    · rw [hspec.before k hbefore] at hx
      exact h.kinds k x hk hbefore hx
    · exact hspec.kinds k x hafter hlt hx
  · dsimp only
    omega

theorem Scanned.modify (h : Scanned list old s) (fit : SyncFit) {cur : Nat}
    (hcur : s.iCheck ≤ max old cur) :
    Scanned list old { s with list := s.list.modify cur (findPeak fit) } where
  events := by
    refine Eq.trans ?_ h.events
    apply List.ext_getElem?
    intro k
    simp only [List.getElem?_map, List.getElem?_modify]
    cases s.list[k]? with
    | none => rfl
    | some x =>
      simp only [Option.map_eq_map, Option.map_some, Option.some.injEq]
      split
      · exact (findPeak_flags fit x).2.2
      · rfl
  ge := h.ge
  inside := h.inside
  treated := h.treated
  kinds := by
    intro k x hk hlt hx
    dsimp only at hlt hx
    rw [List.getElem?_modify_ne _ _ (by omega)] at hx
    exact h.kinds k x hk hlt hx

theorem Scanned.triple (h : Scanned list old s) (fit : SyncFit) (prev : Nat) {cur next : Nat}
    (hcheck : s.iCheck ≤ max old cur) (hcur : cur < next) (hnext : next < list.length) :
    Scanned list old (analyseTriple fit s prev cur next) ∧
      (analyseTriple fit s prev cur next).iCheck ≤ max old next := by
  unfold analyseTriple
  split
  · obtain ⟨hscan, hle⟩ := h.scan (fun _ => false)
      (classifies_mark fit list.length (show syncInfoOutOfOrderRefsTs ∈ markFlags by decide)) next
    exact ⟨hscan, by omega⟩
  · obtain ⟨hscan, hle⟩ := (h.modify fit hcheck).scan
      (fun x => decide (TstampSyncInfo.timestampAt s.list prev +
        (TstampSyncInfo.timestampAt s.list cur - TstampSyncInfo.timestampAt s.list prev) / 2 ≤
          x.event.timestamp))
      (classifies_mark fit list.length (show syncInfoNoEnclosingRefs ∈ markFlags by decide)) next
    obtain ⟨hscan', hle'⟩ := hscan.scan
      (fun x => decide (TstampSyncInfo.timestampAt s.list cur +
        (TstampSyncInfo.timestampAt s.list next - TstampSyncInfo.timestampAt s.list cur) / 2 <
          x.event.timestamp))
      (classifies_check fit (TstampSyncInfo.timestampAt s.list prev)
        (TstampSyncInfo.timestampAt s.list cur) (TstampSyncInfo.timestampAt s.list next)
        (show cur < list.length by omega)) next
    refine ⟨hscan', ?_⟩
    dsimp only at hle
    omega

theorem Scanned.triples (h : Scanned list old s) {refs : List Nat} (hsorted : refs.Pairwise (· < ·))
    (hrefs : ∀ r ∈ refs, r < list.length)
    (hcheck : ∀ prev cur rest, refs = prev :: cur :: rest → s.iCheck ≤ max old cur) :
    Scanned list old (analyseTriples fit s refs) := by
  fun_induction analyseTriples fit s refs with
  | case1 s prev cur next refs ih =>
    obtain ⟨hprev, hsorted⟩ := List.pairwise_cons.mp hsorted
    have hcur : cur < next := (List.pairwise_cons.mp hsorted).1 next List.mem_cons_self
    obtain ⟨htriple, hle⟩ := h.triple fit prev (hcheck prev cur _ rfl) hcur
      (hrefs next (by simp))
    refine ih htriple hsorted (fun r hr => hrefs r (List.mem_cons_of_mem _ hr)) ?_
    intro prev' cur' rest heq
    cases heq
    exact hle
  | case2 s refs hshort => exact h

theorem analyseValues_scanned (fit : SyncFit) (refId : Nat) (hold : old ≤ list.length)
    {stop atLeast : Nat} (hstop : stop ≤ list.length) (hleast : atLeast ≤ list.length) :
    Scanned list old (analyseValues refId fit list old stop atLeast) ∧
      atLeast ≤ (analyseValues refId fit list old stop atLeast).iCheck := by
  have htriples : Scanned list old
      (analyseTriples fit ⟨list, old, []⟩ (refIndices refId list stop)) := by
    refine (Scanned.init hold).triples ?_ ?_ ?_
    · exact List.Pairwise.filter _ List.pairwise_lt_range
    · intro r hr
      have hlt := List.mem_range.mp (List.mem_of_mem_filter hr)
      omega
    · intro _ cur _ _
      exact Nat.le_max_left old cur
  unfold analyseValues
  generalize analyseTriples fit ⟨list, old, []⟩ (refIndices refId list stop) = s at htriples
  refine ⟨(htriples.scan _ (classifies_mark fit list.length
    (show syncInfoNoEnclosingRefs ∈ markFlags by decide)) atLeast).1, ?_⟩
  rcases Nat.lt_or_ge s.iCheck atLeast with hlt | hge
  · unfold SyncScan.scan
    dsimp only
    rw [scanItems_all _ htriples.length_eq _ (by omega)]
    omega
  · have hspec := scanItems_spec (fun _ => false) (classifies_mark fit list.length
      (show syncInfoNoEnclosingRefs ∈ markFlags by decide)) (atLeast - s.iCheck)
      htriples.length_eq s.iCheck
    exact Nat.le_trans hge hspec.ge

end Round

theorem lastRefBelow_lt {refId : Nat} {list : List TstampSyncInfo} {n i : Nat}
    (h : lastRefBelow refId list n = some i) : i < n := by
  induction n with
  | zero => cases h
  | succ n ih =>
    unfold lastRefBelow at h
    split at h
    · cases h
      exact Nat.lt_succ_self _
    · exact Nat.lt_succ_of_lt (ih h)

theorem lastRefEnd_le (refId : Nat) (list : List TstampSyncInfo) :
    lastRefEnd refId list ≤ list.length := by
  unfold lastRefEnd
  cases hlast : lastRefBelow refId list list.length with
  | none => exact Nat.zero_le _
  | some last => exact lastRefBelow_lt hlast

theorem midRef_le (refId : Nat) (list : List TstampSyncInfo) :
    midRef refId list ≤ list.length := by
  unfold midRef
  cases hlast : lastRefBelow refId list list.length with
  | none => exact Nat.zero_le _
  | some last =>
    have hlt := lastRefBelow_lt hlast
    cases hmid : lastRefBelow refId list last with
    | none => simp [hmid]
    | some mid =>
      have hlt' := lastRefBelow_lt hmid
      simp only [Option.bind_some, hmid, Option.getD_some]
      omega

theorem analyseExtent_le (refId : Nat) (toEnd : Bool) (list : List TstampSyncInfo) :
    (analyseExtent refId toEnd list).1 ≤ list.length ∧
      (analyseExtent refId toEnd list).2 ≤ list.length := by
  have hlast := lastRefEnd_le refId list
  have hmid := midRef_le refId list
  unfold analyseExtent
  split
  · exact ⟨Nat.le_refl _, Nat.le_refl _⟩
  · split
    · dsimp only
      omega
    · exact ⟨hlast, hmid⟩

theorem analyseExtent_pos (refId : Nat) {list : List TstampSyncInfo} (h : 2 ≤ list.length) :
    0 < (analyseExtent refId false list).2 := by
  unfold analyseExtent
  rw [if_neg (by decide)]
  split
  · dsimp only
    omega
  · next hmid => exact Nat.pos_of_ne_zero hmid

def countedAs (id : Nat) (kind : SyncKind) (x : TstampSyncInfo) : Bool :=
  decide (x.event.id < 64 ∧ x.event.id = id ∧ x.kind = some kind)

theorem foldl_countItem (items : List TstampSyncInfo) (account : Nat → SyncKind → Nat) (id : Nat)
    (kind : SyncKind) :
    items.foldl countItem account id kind = account id kind + items.countP (countedAs id kind) := by
  induction items generalizing account with
  | nil => rfl
  | cons x items ih =>
    rw [List.foldl_cons, ih, List.countP_cons]
    unfold countItem countedAs
    by_cases h : x.event.id < 64 ∧ x.event.id = id ∧ x.kind = some kind
    · rw [if_pos h, if_pos (decide_eq_true h)]
      omega
    · rw [if_neg h, if_neg (by simpa using h)]
      omega

/-- What has been seen is what was written, and then what is in the buffer and not classified. -/
structure SyncInv (s : SyncCheck) (seen : List SyncEvent) : Prop where
  dumpNext : s.iDumpNext = s.iCheckNext
  inside : s.iCheckNext ≤ s.list.length
  alloc : s.list.length ≤ syncNumAlloc
  events : s.dumped.map TstampSyncInfo.event ++
    (s.list.drop s.iCheckNext).map TstampSyncInfo.event = seen
  removed : s.removed + s.iCheckNext = s.dumped.length
  classified : s.classified = List.range s.dumped.length
  kinds : ∀ x ∈ s.dumped, x.kind ≠ none
  counted : ∀ id kind, s.account id kind = s.dumped.countP (countedAs id kind)

section Run

variable {s : SyncCheck} {seen : List SyncEvent}

theorem mem_window {α : Type} {list : List α} {low high : Nat} {x : α}
    (h : x ∈ (list.take high).drop low) : ∃ k, low ≤ k ∧ k < high ∧ list[k]? = some x := by
  obtain ⟨n, hn⟩ := List.mem_iff_getElem?.mp h
  rw [List.getElem?_drop] at hn
  have hlt : low + n < high := by
    have hbound := (List.getElem?_eq_some_iff.mp hn).1
    rw [List.length_take] at hbound
    omega
  rw [List.getElem?_take_of_lt hlt] at hn
  exact ⟨low + n, Nat.le_add_right _ _, hlt, hn⟩

theorem window_append_drop {α : Type} (list : List α) {low high : Nat} (h : low ≤ high) :
    (list.take high).drop low ++ list.drop high = list.drop low := by
  rw [List.drop_take, show list.drop high = (list.drop low).drop (high - low) by
    rw [List.drop_drop]
    congr 1
    omega]
  exact List.take_append_drop _ _

theorem SyncInv.analyse (h : SyncInv s seen) (refId : Nat) (fits : Nat → SyncFit) (toEnd : Bool) :
    ∃ s', s.analyse refId fits toEnd = some s' ∧ SyncInv s' seen ∧
      s'.list.length = s.list.length - (analyseExtent refId toEnd s.list).2 := by
  obtain ⟨hstop, hmid⟩ := analyseExtent_le refId toEnd s.list
  obtain ⟨hscan, hleast⟩ := analyseValues_scanned (fits s.rounds) refId h.inside hstop hmid
  unfold SyncCheck.analyse SyncCheck.analysed
  generalize (analyseExtent refId toEnd s.list).2 = mid at *
  generalize analyseValues refId (fits s.rounds) s.list s.iCheckNext _ mid = r at *
  rw [if_neg (by omega)]
  have hge := hscan.ge
  have hin := hscan.inside
  have hlen := hscan.length_eq
  have hwindow : ((r.list.take r.iCheck).drop s.iCheckNext).length = r.iCheck - s.iCheckNext := by
    rw [List.length_drop, List.length_take]
    omega
  refine ⟨_, rfl, ?_, by simp only [List.length_drop, hlen]⟩
  exact {
    dumpNext := rfl
    inside := by
      simp only [List.length_drop]
      omega
    alloc := by
      have halloc := h.alloc
      simp only [List.length_drop]
      omega
    events := by
      dsimp only
      rw [h.dumpNext, List.drop_drop, show mid + (r.iCheck - mid) = r.iCheck by omega,
        List.map_append, List.append_assoc, ← List.map_append, window_append_drop _ hge,
        List.map_drop, hscan.events, ← List.map_drop]
      exact h.events
    removed := by
      have hremoved := h.removed
      simp only [h.dumpNext, List.length_append, hwindow]
      omega
    classified := by
      dsimp only
      rw [h.dumpNext, h.classified, hscan.treated, List.map_add_range', List.length_append, hwindow,
        h.removed, List.range_eq_range', List.range_eq_range', ← List.range'_append_1, Nat.zero_add]
    kinds := by
      intro x hx
      rcases List.mem_append.mp hx with hx | hx
      · exact h.kinds x hx
      · rw [h.dumpNext] at hx
        obtain ⟨k, hlow, hhigh, hk⟩ := mem_window hx
        exact hscan.kinds k x hlow hhigh hk
    counted := by
      intro id kind
      dsimp only
      rw [foldl_countItem, h.counted, h.dumpNext, List.countP_append] }

theorem SyncInv.analyse_frees (h : SyncInv s seen) (refId : Nat) (fits : Nat → SyncFit)
    (hfull : 2 ≤ s.list.length) :
    ∃ s', s.analyse refId fits false = some s' ∧ SyncInv s' seen ∧
      s'.list.length < s.list.length := by
  obtain ⟨s', hs', hinv, hlen⟩ := h.analyse refId fits false
  have hpos := analyseExtent_pos refId hfull
  exact ⟨s', hs', hinv, by omega⟩

theorem SyncInv.push (h : SyncInv s seen) (e : SyncEvent) (hroom : s.list.length < syncNumAlloc) :
    SyncInv { s with list := s.list ++ [⟨e, 0, 0⟩] } (seen ++ [e]) where
  dumpNext := h.dumpNext
  inside := by
    have hinside := h.inside
    simp only [List.length_append]
    omega
  alloc := by
    simp only [List.length_append, List.length_singleton]
    omega
  events := by
    simp only [List.drop_append_of_le_length h.inside, List.map_append, ← List.append_assoc,
      h.events]
    rfl
  removed := h.removed
  classified := h.classified
  kinds := h.kinds
  counted := h.counted

theorem SyncInv.accountEvent (h : SyncInv s seen) (refId : Nat) (fits : Nat → SyncFit)
    (e : SyncEvent) :
    ∃ s', s.accountEvent refId fits e = some s' ∧ SyncInv s' (seen ++ [e]) := by
  unfold SyncCheck.accountEvent
  split
  · next hfull =>
    obtain ⟨s', hs', hinv, hlt⟩ := h.analyse_frees refId fits (Nat.le_trans (by decide) hfull)
    have hroom : s'.list.length < syncNumAlloc := Nat.lt_of_lt_of_le hlt h.alloc
    rw [hs', Option.bind_some, if_pos hroom]
    exact ⟨_, rfl, hinv.push e hroom⟩
  · next hfull =>
    have hroom : s.list.length < syncNumAlloc := Nat.not_le.mp hfull
    rw [Option.bind_some, if_pos hroom]
    exact ⟨_, rfl, h.push e hroom⟩

theorem SyncInv.accountAll (h : SyncInv s seen) (refId : Nat) (fits : Nat → SyncFit)
    (events : List SyncEvent) :
    ∃ s', s.accountAll refId fits events = some s' ∧ SyncInv s' (seen ++ events) := by
  induction events generalizing s seen with
  | nil => exact ⟨s, rfl, by rwa [List.append_nil]⟩
  | cons e events ih =>
    obtain ⟨s', hs', hinv⟩ := h.accountEvent refId fits e
    obtain ⟨s'', hs'', hinv'⟩ := ih hinv
    refine ⟨s'', ?_, ?_⟩
    · unfold SyncCheck.accountAll
      rw [hs']
      exact hs''
    · rwa [List.append_assoc] at hinv'

end Run

end Ucesb
