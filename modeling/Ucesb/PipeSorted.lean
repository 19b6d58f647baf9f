import Ucesb.HeapOrder
import Ucesb.PipeMerge

namespace Ucesb

section Keys

theorem sortWordsLess_asymm {words : Nat} {v1 v2 : List UInt32} {t1 t2 : Bool}
    (ht : t1 = true → t2 = false) (h : sortWordsLess words v1 v2 t1 = true) :
    sortWordsLess words v2 v1 t2 = false := by
  induction words generalizing v1 v2 with
  | zero => exact ht h
  | succ words ih =>
    simp only [sortWordsLess, UInt32.lt_iff_toNat_lt, gt_iff_lt] at h ⊢
    split at h
    · rename_i hlt
      rw [if_neg (by omega), if_pos hlt]
    · split at h
      · cases h
      · rename_i h1 h2
        rw [if_neg h2, if_neg h1]
        exact ih h

theorem sortWordsLess_trans {words : Nat} {v1 v2 v3 : List UInt32} {t21 t32 t31 : Bool}
    (ht : t21 = false → t32 = false → t31 = false)
    (h21 : sortWordsLess words v2 v1 t21 = false) (h32 : sortWordsLess words v3 v2 t32 = false) :
    sortWordsLess words v3 v1 t31 = false := by
  induction words generalizing v1 v2 v3 with
  | zero => exact ht h21 h32
  | succ words ih =>
    simp only [sortWordsLess, UInt32.lt_iff_toNat_lt, gt_iff_lt] at h21 h32 ⊢
    split at h21
    · cases h21
    · split at h32
      · cases h32
      · rename_i h1 h2
        rw [if_neg (by omega)]
        split at h21
        · rw [if_pos (by omega)]
        · split at h32
          · rw [if_pos (by omega)]
          · rw [if_neg (by omega)]
            exact ih h21 h32

theorem sortWordsLess_false {words : Nat} {v1 v2 : List UInt32} {tie : Bool}
    (h : sortWordsLess words v1 v2 tie = false) : sortWordsLess words v1 v2 false = false := by
  induction words generalizing v1 v2 with
  | zero => rfl
  | succ words ih =>
    simp only [sortWordsLess] at h ⊢
    split at h
    · cases h
    · rename_i hlt
      rw [if_neg hlt]
      split at h
      · rename_i hgt
        rw [if_pos hgt]
      · rename_i hgt
        rw [if_neg hgt]
        exact ih h

def SortLe (words : Nat) (v1 v2 : List UInt32) : Prop := sortWordsLess words v2 v1 false = false

theorem SortLe.trans {words : Nat} {v1 v2 v3 : List UInt32} (h12 : SortLe words v1 v2)
    (h23 : SortLe words v2 v3) : SortLe words v1 v3 :=
  sortWordsLess_trans (fun _ _ => rfl) h12 h23

variable {ε : Type}

theorem commNextItemCompareLess_strictWeak (words : Nat) :
    StrictWeak (@commNextItemCompareLess ε words) := by
  constructor
  · intro c1 c2 h
    apply sortWordsLess_asymm _ h
    cases c1.keepAliveEvent <;> cases c2.keepAliveEvent <;> decide
  · intro c1 c2 c3 h21 h32
    apply sortWordsLess_trans _ h21 h32
    cases c1.keepAliveEvent <;> cases c2.keepAliveEvent <;> cases c3.keepAliveEvent <;> decide

end Keys

section Sorted

variable {ε : Type} {words : Nat}

def PipeItem.isKeepAlive : PipeItem ε → Bool
  | .event _ _ => false
  | .keepAlive _ => true

def PipeMsg.item : PipeMsg ε → Option (PipeItem ε)
  | .ntupleFill sort event => some (.event sort event)
  | .keepAlive sort => some (.keepAlive sort)
  | _ => none

def PipeComm.items (comm : PipeComm ε) : List (PipeItem ε) := comm.pending.filterMap PipeMsg.item

/-- The item that is next to be taken from the source, unless another message is. -/
def PipeComm.nextItem (comm : PipeComm ε) : Option (PipeItem ε) :=
  comm.pending.head?.bind PipeMsg.item

/-- An item comes before another one: by the sort words, and an event before a keep-alive. -/
def itemLess (words : Nat) (x y : PipeItem ε) : Bool :=
  sortWordsLess words x.sort y.sort (!x.isKeepAlive && y.isKeepAlive)

/-- `pre_handle_request` on the next message. Where this is no item, `_raw_sort_u32` keeps pointing
to where the last one was in the buffer, which may hold anything by now. -/
def PreHandled (comm comm' : PipeComm ε) : Prop :=
  comm' = comm.preHandleRequest ∨
    comm.nextItem = none ∧ ∃ stale, comm' = { comm with rawSort := stale }

/-- Runs of the loops, with the items that the main loop has taken and the sources of these. -/
inductive MergeReach (words : Nat) (start : PipeState ε) :
    List (Nat × PipeItem ε) → PipeState ε → Prop
  | start : MergeReach words start [] start
  | setup {taken s t comm rest} : MergeReach words start taken s → s.waiting = comm :: rest →
      setupStep words s comm rest = .next t → MergeReach words start taken t
  | merge {taken s comm others msg msgs events comm'} : MergeReach words start taken s →
      s.waiting = [] → ¬ (s.heap.length > 1 ∧ words = 0) → s.heap = comm :: others →
      comm.pending = msg :: msgs → handleRequest comm.src msg = some events → msgs ≠ [] →
      PreHandled { comm with pending := msgs } comm' →
      MergeReach words start (taken ++ (msg.item.map (comm.src, ·)).toList)
        { s with
          heap := heapMoveDown (commNextItemCompareLess words) (others.length + 1)
            (comm' :: others) 0
          handled := s.handled ++ events }

theorem PipeReach.mergeReach {start s : PipeState ε} (h : PipeReach words start s) :
    ∃ taken, MergeReach words start taken s := by
  induction h with
  | start => exact ⟨[], .start⟩
  | @next s t _ hstep ih =>
    obtain ⟨taken, hr⟩ := ih
    unfold pipeStep at hstep
    cases hw : s.waiting with
    | cons comm rest =>
      rw [hw] at hstep
      exact ⟨taken, .setup hr hw hstep⟩
    | nil =>
      rw [hw] at hstep
      dsimp only at hstep
      split at hstep
      · cases hstep
      · rename_i hmulti
        unfold mergeStep at hstep
        cases hh : s.heap with
        | nil =>
          rw [hh] at hstep
          cases hstep
        | cons comm others =>
          rw [hh] at hstep
          dsimp only at hstep
          cases hp : comm.pending with
          | nil =>
            rw [hp] at hstep
            cases hstep
          | cons msg msgs =>
            rw [hp] at hstep
            dsimp only at hstep
            cases he : handleRequest comm.src msg with
            | none =>
              rw [he] at hstep
              cases hstep
            | some events =>
              rw [he] at hstep
              dsimp only at hstep
              split at hstep
              · cases hstep
              · rename_i hmsgs
                cases hstep
                refine ⟨_, .merge hr hw hmulti hh hp he ?_ (.inl rfl)⟩
                simpa using hmsgs

def takenFrom (taken : List (Nat × PipeItem ε)) (i : Nat) : List (PipeItem ε) :=
  (taken.filter fun x => x.1 = i).map Prod.snd

def takenEvents (taken : List (Nat × PipeItem ε)) : List (Nat × ε) :=
  taken.filterMap fun x =>
    match x.2 with
    | .event _ event => some (x.1, event)
    | .keepAlive _ => none

/-- The key by which the source stands in the heap is that of its next item. -/
def PipeComm.Keyed (comm : PipeComm ε) : Prop :=
  ∀ x ∈ comm.nextItem, comm.rawSort = x.sort ∧ comm.keepAliveEvent = x.isKeepAlive

/-- A source has skipped some keep-alives while it was set up, and delivers the rest in order. -/
def DeliversFrom (source : PipeSource ε words) (taken : List (PipeItem ε)) (comm : PipeComm ε) :
    Prop :=
  ∃ skipped, (∀ x ∈ skipped, x.isKeepAlive = true) ∧
    source.items = skipped ++ (taken ++ comm.items)

def PipeComm.Delivering (comm : PipeComm ε) : Prop :=
  comm.pending = comm.items.map PipeItem.msg ++ [.done]

structure SortInv (sources : List (PipeSource ε words)) (taken : List (Nat × PipeItem ε))
    (s : PipeState ε) : Prop where
  ordered : HeapOrdered (commNextItemCompareLess words) s.heap
  keyed : ∀ c ∈ s.heap, c.Keyed
  delivering : ∀ c ∈ s.heap, c.Delivering
  setting : ∀ c ∈ s.waiting, ∃ setups : List UInt32,
    c.pending = setups.map .setup ++ (c.items.map PipeItem.msg ++ [.done])
  /-- nothing is taken before all sources are set up -/
  waits : s.waiting ≠ [] → taken = []
  handled : s.handled = takenEvents taken
  sorted : (taken.map fun x => x.2.sort).Pairwise (SortLe words)
  ahead : ∀ x ∈ taken, ∀ c ∈ s.heap, ∀ y ∈ c.items, SortLe words x.2.sort y.sort
  srcs : (s.comms.map PipeComm.src).Perm (List.range sources.length)
  delivers : ∀ c ∈ s.comms, ∀ source, sources[c.src]? = some source →
    DeliversFrom source (takenFrom taken c.src) c

@[simp] theorem PipeItem.item_msg (x : PipeItem ε) : x.msg.item = some x := by
  cases x <;> rfl

theorem filterMap_item_msg (xs : List (PipeItem ε)) :
    (xs.map PipeItem.msg).filterMap PipeMsg.item = xs := by
  induction xs with
  | nil => rfl
  | cons x xs ih => simp [ih]

theorem PreHandled.same {comm comm' : PipeComm ε} (h : PreHandled comm comm') :
    comm'.src = comm.src ∧ comm'.pending = comm.pending := by
  rcases h with rfl | ⟨-, stale, rfl⟩
  · exact preHandleRequest_same comm
  · exact ⟨rfl, rfl⟩

theorem PreHandled.keyed {comm comm' : PipeComm ε} (h : PreHandled comm comm') : comm'.Keyed := by
  intro x hx
  have hnext : comm'.nextItem = comm.nextItem := by
    unfold PipeComm.nextItem
    rw [h.same.2]
  rw [hnext] at hx
  rcases h with rfl | ⟨hnone, -⟩
  · unfold PipeComm.nextItem at hx
    unfold PipeComm.preHandleRequest
    cases hp : comm.pending with
    | nil =>
      rw [hp] at hx
      cases hx
    | cons msg msgs =>
      rw [hp] at hx
      cases msg with
      | ntupleFill sort event | keepAlive sort =>
        cases hx
        exact ⟨rfl, rfl⟩
      | _ => cases hx
  · rw [hnone] at hx
    cases hx

section Frame

variable {sources : List (PipeSource ε words)} {taken : List (Nat × PipeItem ε)}
  {s : PipeState ε}

theorem SortInv.src_ne (h : SortInv sources taken s) {c d : PipeComm ε}
    {others : List (PipeComm ε)} (hs : s.comms.Perm (c :: others)) (hd : d ∈ others) :
    d.src ≠ c.src := by
  have hnodup : ((c :: others).map PipeComm.src).Nodup :=
    ((hs.map _).symm.trans h.srcs).nodup_iff.mpr List.nodup_range
  intro heq
  apply (List.nodup_cons.mp hnodup).1
  rw [← heq]
  exact List.mem_map_of_mem hd

theorem SortInv.source (h : SortInv sources taken s) {c : PipeComm ε} (hc : c ∈ s.comms) :
    ∃ source, sources[c.src]? = some source ∧ DeliversFrom source (takenFrom taken c.src) c := by
  have hmem : c.src ∈ List.range sources.length := h.srcs.mem_iff.mp (List.mem_map_of_mem hc)
  have hlt := List.mem_range.mp hmem
  exact ⟨_, List.getElem?_eq_getElem hlt, h.delivers c hc _ (List.getElem?_eq_getElem hlt)⟩

theorem SortInv.items_sorted (h : SortInv sources taken s) {c : PipeComm ε} (hc : c ∈ s.comms) :
    c.items.Pairwise fun x y => SortLe words x.sort y.sort := by
  obtain ⟨source, -, skipped, -, heq⟩ := h.source hc
  have hsorted := source.sorted
  rw [heq] at hsorted
  exact (List.pairwise_append.mp (List.pairwise_append.mp hsorted).2.1).2.1

theorem SortInv.srcs_replace (h : SortInv sources taken s) {t : PipeState ε} {c d : PipeComm ε}
    {others : List (PipeComm ε)} (hs : s.comms.Perm (c :: others))
    (ht : t.comms.Perm (d :: others)) (hsrc : d.src = c.src) :
    (t.comms.map PipeComm.src).Perm (List.range sources.length) := by
  refine (ht.map _).trans (List.Perm.trans ?_ h.srcs)
  rw [List.map_cons, hsrc]
  exact (hs.map PipeComm.src).symm

theorem SortInv.delivers_replace (h : SortInv sources taken s) {t : PipeState ε}
    {c d : PipeComm ε} {others : List (PipeComm ε)} {more : List (Nat × PipeItem ε)}
    (hs : s.comms.Perm (c :: others)) (ht : t.comms.Perm (d :: others)) (hsrc : d.src = c.src)
    (hmore : ∀ x ∈ more, x.1 = c.src)
    (hd : ∀ source : PipeSource ε words, DeliversFrom source (takenFrom taken c.src) c →
      DeliversFrom source (takenFrom (taken ++ more) c.src) d) :
    ∀ e ∈ t.comms, ∀ source, sources[e.src]? = some source →
      DeliversFrom source (takenFrom (taken ++ more) e.src) e := by
  intro e he source hsource
  rcases List.mem_cons.mp (ht.mem_iff.mp he) with rfl | he
  · rw [hsrc] at hsource ⊢
    exact hd source (h.delivers c (hs.mem_iff.mpr List.mem_cons_self) source hsource)
  · have hne := h.src_ne hs he
    have hnone : takenFrom (taken ++ more) e.src = takenFrom taken e.src := by
      have hfilter : more.filter (fun x => x.1 = e.src) = [] := by
        apply List.filter_eq_nil_iff.mpr
        intro x hx
        simp only [decide_eq_true_eq]
        rw [hmore x hx]
        exact Ne.symm hne
      unfold takenFrom
      rw [List.filter_append, hfilter, List.append_nil]
    rw [hnone]
    exact h.delivers e (hs.mem_iff.mpr (List.mem_cons_of_mem _ he)) source hsource

theorem sortInv_start (sources : List (PipeSource ε words)) :
    SortInv sources [] (pipeStart sources) := by
  have hitems : ∀ source : PipeSource ε words, ∀ i, (source.comm i).items = source.items := by
    intro source i
    unfold PipeComm.items PipeSource.comm PipeSource.messages
    have hsetups : (source.setups.map PipeMsg.setup).filterMap (@PipeMsg.item ε) = [] :=
      List.filterMap_eq_nil_iff.mpr (by simp [PipeMsg.item])
    rw [List.filterMap_append, List.filterMap_append, hsetups, filterMap_item_msg]
    exact List.append_nil _
  constructor
  · intro i _ a b ha
    cases ha
  · intro c hc
    cases hc
  · intro c hc
    cases hc
  · intro c hc
    obtain ⟨i, hi, rfl⟩ := List.mem_mapIdx.mp hc
    refine ⟨sources[i].setups, ?_⟩
    rw [hitems]
    exact List.append_assoc _ _ _
  · intro _
    rfl
  · rfl
  · exact List.Pairwise.nil
  · intro x hx
    cases hx
  · unfold PipeState.comms pipeStart
    rw [List.append_nil]
    apply List.Perm.of_eq
    apply List.ext_getElem
    · simp
    · intro i h1 h2
      simp [PipeSource.comm]
  · intro c hc source hsource
    unfold PipeState.comms pipeStart at hc
    rw [List.append_nil] at hc
    obtain ⟨i, hi, rfl⟩ := List.mem_mapIdx.mp hc
    have heq : sources[i]? = some source := hsource
    rw [List.getElem?_eq_getElem hi] at heq
    refine ⟨[], (fun x hx => by cases hx), ?_⟩
    rw [← Option.some.inj heq, hitems]
    rfl

theorem SortInv.pass (h : SortInv sources taken s) {comm : PipeComm ε}
    {rest : List (PipeComm ε)} (hw : s.waiting = comm :: rest) {msg : PipeMsg ε}
    {msgs : List (PipeMsg ε)} (hp : comm.pending = msg :: msgs)
    (hskip : ∀ x ∈ msg.item, x.isKeepAlive = true)
    (hset : ∃ setups : List UInt32, msgs = setups.map .setup ++
      ((PipeComm.items { comm with pending := msgs }).map PipeItem.msg ++ [.done])) :
    SortInv sources taken { s with waiting := { comm with pending := msgs } :: rest } := by
  obtain rfl : taken = [] := h.waits (by rw [hw]; exact List.cons_ne_nil _ _)
  have hs : s.comms.Perm (comm :: (rest ++ s.heap)) := by
    unfold PipeState.comms
    rw [hw]
    exact List.Perm.refl _
  have ht : (PipeState.comms { s with waiting := { comm with pending := msgs } :: rest }).Perm
      ({ comm with pending := msgs } :: (rest ++ s.heap)) := List.Perm.refl _
  refine ⟨h.ordered, h.keyed, h.delivering, ?_, fun _ => rfl, h.handled, h.sorted, h.ahead,
    h.srcs_replace hs ht rfl, ?_⟩
  · intro c hc
    rcases List.mem_cons.mp hc with rfl | hc
    · exact hset
    · exact h.setting c (by rw [hw]; exact List.mem_cons_of_mem _ hc)
  · have hd := h.delivers_replace hs ht rfl
      (show ∀ x ∈ ([] : List (Nat × PipeItem ε)), x.1 = comm.src by simp)
    apply hd
    rintro source ⟨skipped, hka, heq⟩
    refine ⟨skipped ++ msg.item.toList, ?_, ?_⟩
    · intro x hx
      rcases List.mem_append.mp hx with hx | hx
      · exact hka x hx
      · exact hskip x (Option.mem_toList.mp hx)
    · have hitems : comm.items =
          msg.item.toList ++ PipeComm.items { comm with pending := msgs } := by
        unfold PipeComm.items
        rw [hp, List.filterMap_cons]
        cases msg.item <;> rfl
      rw [heq, hitems]
      simp [takenFrom]

theorem SortInv.setup_step (h : SortInv sources taken s) {t : PipeState ε} {comm : PipeComm ε}
    {rest : List (PipeComm ε)} (hw : s.waiting = comm :: rest)
    (hstep : setupStep words s comm rest = .next t) : SortInv sources taken t := by
  have hcomm : comm ∈ s.waiting := by
    rw [hw]
    exact List.mem_cons_self
  obtain ⟨setups, hpend⟩ := h.setting comm hcomm
  unfold setupStep at hstep
  cases hp : comm.pending with
  | nil =>
    rw [hp] at hstep
    cases hstep
  | cons msg msgs =>
    rw [hp] at hstep hpend
    cases msg with
    | done => cases hstep
    | abort => cases hstep
    | setup r =>
      cases hstep
      apply h.pass hw hp (fun x hx => by cases hx)
      have hitems : PipeComm.items { comm with pending := msgs } = comm.items := by
        unfold PipeComm.items
        rw [hp]
        rfl
      rw [hitems]
      cases setups with
      | nil =>
        cases hi : comm.items with
        | nil =>
          rw [hi] at hpend
          cases hpend
        | cons x xs =>
          rw [hi] at hpend
          cases x <;> cases hpend
      | cons r' setups => exact ⟨setups, (List.cons.inj hpend).2⟩
    | keepAlive sort =>
      cases hstep
      apply h.pass hw hp (fun x hx => by cases hx; rfl)
      have hitems : comm.items = .keepAlive sort :: PipeComm.items { comm with pending := msgs } := by
        unfold PipeComm.items
        rw [hp]
        rfl
      rw [hitems] at hpend
      cases setups with
      | nil => exact ⟨[], (List.cons.inj hpend).2⟩
      | cons r setups => cases (List.cons.inj hpend).1
    | ntupleFill sort event =>
      cases hstep
      obtain rfl : taken = [] := h.waits (by rw [hw]; exact List.cons_ne_nil _ _)
      have hpre : PreHandled comm comm.preHandleRequest := .inl rfl
      have hperm := @heapInsert_perm _ (commNextItemCompareLess words) s.heap comm.preHandleRequest
      have hs : s.comms.Perm (comm :: (rest ++ s.heap)) := by
        unfold PipeState.comms
        rw [hw]
        exact List.Perm.refl _
      have ht : (PipeState.comms { s with
          waiting := rest
          heap := heapInsert (commNextItemCompareLess words) s.heap comm.preHandleRequest }).Perm
          (comm.preHandleRequest :: (rest ++ s.heap)) :=
        (List.Perm.append_left rest hperm).trans List.perm_middle
      have hitems : comm.preHandleRequest.items = comm.items := by
        unfold PipeComm.items
        rw [hpre.same.2]
      refine ⟨heapInsert_ordered (commNextItemCompareLess_strictWeak words) h.ordered _, ?_, ?_, ?_,
        fun _ => rfl, h.handled, h.sorted, (fun x hx => by cases hx),
        h.srcs_replace hs ht hpre.same.1, ?_⟩
      · intro c hc
        rcases List.mem_cons.mp (hperm.mem_iff.mp hc) with rfl | hc
        · exact hpre.keyed
        · exact h.keyed c hc
      · intro c hc
        rcases List.mem_cons.mp (hperm.mem_iff.mp hc) with rfl | hc
        · unfold PipeComm.Delivering
          rw [hpre.same.2, hitems, hp]
          cases setups with
          | nil => exact hpend
          | cons r setups => cases (List.cons.inj hpend).1
        · exact h.delivering c hc
      · intro c hc
        exact h.setting c (by rw [hw]; exact List.mem_cons_of_mem _ hc)
      · have hd := h.delivers_replace hs ht hpre.same.1
          (show ∀ x ∈ ([] : List (Nat × PipeItem ε)), x.1 = comm.src by simp)
        apply hd
        rintro source ⟨skipped, hka, heq⟩
        refine ⟨skipped, hka, ?_⟩
        rw [hitems, List.append_nil]
        exact heq

theorem PipeComm.Delivering.nextItem {c : PipeComm ε} (h : c.Delivering) :
    c.nextItem = c.items.head? := by
  unfold PipeComm.nextItem
  rw [h]
  cases c.items with
  | nil => rfl
  | cons x xs => simp

theorem SortInv.root_le (h : SortInv sources taken s) {comm : PipeComm ε}
    {others : List (PipeComm ε)} (hh : s.heap = comm :: others) {c : PipeComm ε}
    (hc : c ∈ others) : commNextItemCompareLess words c comm = false := by
  obtain ⟨i, hi, rfl⟩ := List.mem_iff_getElem.mp hc
  have hroot := h.ordered.root_le (commNextItemCompareLess_strictWeak words) (i + 1) (by omega)
  rw [hh] at hroot
  exact hroot _ _ (by simp [hi]) (by simp)

theorem SortInv.nextItem_le (h : SortInv sources taken s) {comm : PipeComm ε}
    {others : List (PipeComm ε)} (hh : s.heap = comm :: others) {x : PipeItem ε}
    (hx : comm.nextItem = some x) {c : PipeComm ε} (hc : c ∈ others) {y : PipeItem ε}
    (hy : c.nextItem = some y) : itemLess words y x = false := by
  have hcomm : comm ∈ s.heap := by
    rw [hh]
    exact List.mem_cons_self
  have hcs : c ∈ s.heap := by
    rw [hh]
    exact List.mem_cons_of_mem _ hc
  have hless := h.root_le hh hc
  obtain ⟨hx1, hx2⟩ := h.keyed comm hcomm x hx
  obtain ⟨hy1, hy2⟩ := h.keyed c hcs y hy
  unfold commNextItemCompareLess at hless
  rw [hx1, hx2, hy1, hy2] at hless
  exact hless

theorem SortInv.ahead_of_root (h : SortInv sources taken s) {comm : PipeComm ε}
    {others : List (PipeComm ε)} (hh : s.heap = comm :: others) {x : PipeItem ε}
    {left : List (PipeItem ε)} (hx : comm.items = x :: left) :
    (∀ y ∈ left, SortLe words x.sort y.sort) ∧
      ∀ c ∈ others, ∀ y ∈ c.items, SortLe words x.sort y.sort := by
  have hmem : ∀ c ∈ s.heap, c ∈ s.comms := fun c hc => List.mem_append_right _ hc
  have hcomm : comm ∈ s.heap := by
    rw [hh]
    exact List.mem_cons_self
  constructor
  · intro y hy
    have hsorted := h.items_sorted (hmem comm hcomm)
    rw [hx] at hsorted
    exact (List.pairwise_cons.mp hsorted).1 y hy
  · intro c hc y hy
    have hcs : c ∈ s.heap := by
      rw [hh]
      exact List.mem_cons_of_mem _ hc
    have hsorted := h.items_sorted (hmem c hcs)
    cases hi : c.items with
    | nil =>
      rw [hi] at hy
      cases hy
    | cons y0 ys =>
      rw [hi] at hy hsorted
      have hnx : comm.nextItem = some x := by
        rw [(h.delivering comm hcomm).nextItem, hx]
        rfl
      have hny : c.nextItem = some y0 := by
        rw [(h.delivering c hcs).nextItem, hi]
        rfl
      have hfirst : SortLe words x.sort y0.sort :=
        sortWordsLess_false (h.nextItem_le hh hnx hc hny)
      rcases List.mem_cons.mp hy with rfl | hy
      · exact hfirst
      · exact hfirst.trans ((List.pairwise_cons.mp hsorted).1 y hy)

theorem SortInv.merge_step (h : SortInv sources taken s) {comm comm' : PipeComm ε}
    {others : List (PipeComm ε)} {msg : PipeMsg ε} {msgs : List (PipeMsg ε)}
    {events : List (Nat × ε)} (hw : s.waiting = []) (hh : s.heap = comm :: others)
    (hp : comm.pending = msg :: msgs) (hreq : handleRequest comm.src msg = some events)
    (hpre : PreHandled { comm with pending := msgs } comm') :
    SortInv sources (taken ++ (msg.item.map (comm.src, ·)).toList)
      { s with
        heap := heapMoveDown (commNextItemCompareLess words) (others.length + 1)
          (comm' :: others) 0
        handled := s.handled ++ events } := by
  have hcomm : comm ∈ s.heap := by
    rw [hh]
    exact List.mem_cons_self
  have hothers : ∀ c ∈ others, c ∈ s.heap := by
    intro c hc
    rw [hh]
    exact List.mem_cons_of_mem _ hc
  -- the message is an item, since nothing else but DONE is left in a source
  obtain ⟨x, left, hitems⟩ : ∃ x left, comm.items = x :: left := by
    cases hi : comm.items with
    | nil =>
      have hd := h.delivering comm hcomm
      unfold PipeComm.Delivering at hd
      rw [hi, hp] at hd
      cases (List.cons.inj hd).1
      cases hreq
    | cons x left => exact ⟨x, left, rfl⟩
  obtain ⟨rfl, rfl⟩ : msg = x.msg ∧ msgs = left.map PipeItem.msg ++ [.done] := by
    have hd := h.delivering comm hcomm
    unfold PipeComm.Delivering at hd
    rw [hitems, hp] at hd
    exact List.cons.inj hd
  have hitems' : comm'.items = left := by
    unfold PipeComm.items
    rw [hpre.same.2]
    dsimp only
    rw [List.filterMap_append, filterMap_item_msg]
    exact List.append_nil _
  have hsrc : comm'.src = comm.src := hpre.same.1
  have hnew : (x.msg.item.map (comm.src, ·)).toList = [(comm.src, x)] := by
    simp
  have hperm := @heapMoveDown_perm _ (commNextItemCompareLess words) (others.length + 1)
    (comm' :: others) 0
  have hs : s.comms.Perm (comm :: others) := by
    unfold PipeState.comms
    rw [hw, hh]
    exact List.Perm.refl _
  have ht : (PipeState.comms { s with
      heap := heapMoveDown (commNextItemCompareLess words) (others.length + 1) (comm' :: others) 0
      handled := s.handled ++ events }).Perm (comm' :: others) := by
    unfold PipeState.comms
    dsimp only
    rw [hw]
    exact hperm
  obtain ⟨haheadLeft, haheadOthers⟩ := h.ahead_of_root hh hitems
  have hordered := h.ordered
  rw [hh] at hordered
  rw [hnew]
  refine ⟨heapMoveDown_root_ordered (commNextItemCompareLess_strictWeak words) hordered, ?_, ?_, ?_,
    ?_, ?_, ?_, ?_, h.srcs_replace hs ht hsrc, ?_⟩
  · intro c hc
    rcases List.mem_cons.mp (hperm.mem_iff.mp hc) with rfl | hc
    · exact hpre.keyed
    · exact h.keyed c (hothers c hc)
  · intro c hc
    rcases List.mem_cons.mp (hperm.mem_iff.mp hc) with rfl | hc
    · unfold PipeComm.Delivering
      rw [hpre.same.2, hitems']
    · exact h.delivering c (hothers c hc)
  · intro c hc
    exact h.setting c hc
  · intro hne
    exact absurd hw hne
  · show s.handled ++ events = _
    rw [h.handled]
    unfold takenEvents
    rw [List.filterMap_append]
    congr 1
    cases x <;> cases hreq <;> rfl
  · rw [List.map_append, List.pairwise_append]
    refine ⟨h.sorted, List.pairwise_singleton _ _, ?_⟩
    intro v hv v' hv'
    obtain ⟨z, hz, rfl⟩ := List.mem_map.mp hv
    rw [List.map_singleton, List.mem_singleton] at hv'
    rw [hv']
    exact h.ahead z hz comm hcomm x (by rw [hitems]; exact List.mem_cons_self)
  · intro z hz c hc y hy
    have hc' := List.mem_cons.mp (hperm.mem_iff.mp hc)
    rcases List.mem_append.mp hz with hz | hz
    · rcases hc' with rfl | hc'
      · rw [hitems'] at hy
        exact h.ahead z hz comm hcomm y (by rw [hitems]; exact List.mem_cons_of_mem _ hy)
      · exact h.ahead z hz c (hothers c hc') y hy
    · rw [List.mem_singleton] at hz
      rw [hz]
      rcases hc' with rfl | hc'
      · rw [hitems'] at hy
        exact haheadLeft y hy
      · exact haheadOthers c hc' y hy
  · apply h.delivers_replace hs ht hsrc
      (show ∀ z ∈ [(comm.src, x)], z.1 = comm.src by simp)
    rintro source ⟨skipped, hka, heq⟩
    refine ⟨skipped, hka, ?_⟩
    have htaken : takenFrom (taken ++ [(comm.src, x)]) comm.src =
        takenFrom taken comm.src ++ [x] := by
      unfold takenFrom
      simp
    rw [htaken, hitems', heq, hitems, List.append_assoc]
    rfl

theorem MergeReach.inv {t : PipeState ε}
    (hr : MergeReach words (pipeStart sources) taken t) : SortInv sources taken t := by
  induction hr with
  | start => exact sortInv_start sources
  | setup _ hw hstep ih => exact ih.setup_step hw hstep
  | merge _ hw _ hh hp hreq _ hpre ih => exact ih.merge_step hw hh hp hreq hpre

end Frame

/-- In every state of the main loop, the item in the first slot is a minimum of the next items of
all sources; the items are taken in the order of their sort words, and those of every source in
its order. -/
theorem pipe_merges_sorted (sources : List (PipeSource ε words)) {taken : List (Nat × PipeItem ε)}
    {s : PipeState ε} (hr : MergeReach words (pipeStart sources) taken s) :
    (∀ comm others x, s.heap = comm :: others → comm.nextItem = some x →
      ∀ c ∈ others, ∀ y, c.nextItem = some y → itemLess words y x = false) ∧
    s.handled = takenEvents taken ∧
    (taken.map fun x => x.2.sort).Pairwise (SortLe words) ∧
    ∀ i source, sources[i]? = some source → ∃ skipped left,
      (∀ x ∈ skipped, x.isKeepAlive = true) ∧
      source.items = skipped ++ (takenFrom taken i ++ left) := by
  have h := hr.inv
  refine ⟨?_, h.handled, h.sorted, ?_⟩
  · intro comm others x hh hx c hc y hy
    exact h.nextItem_le hh hx hc hy
  · intro i source hsource
    have hlt := (List.getElem?_eq_some_iff.mp hsource).1
    obtain ⟨c, hc, rfl⟩ := List.mem_map.mp (h.srcs.mem_iff.mpr (List.mem_range.mpr hlt))
    obtain ⟨skipped, hka, heq⟩ := h.delivers c hc source hsource
    exact ⟨skipped, c.items, hka, heq⟩

end Sorted

theorem pipe_merges_sorted_demo :
    ∃ (taken : List (Nat × PipeItem Nat)) (s : PipeState Nat), s.handled = [(1, 11)] ∧
      (∀ comm others x, s.heap = comm :: others → comm.nextItem = some x →
        ∀ c ∈ others, ∀ y, c.nextItem = some y → itemLess 1 y x = false) ∧
      s.handled = takenEvents taken ∧
      (taken.map fun x => x.2.sort).Pairwise (SortLe 1) ∧
      ∀ i source, [oneEvent 7 10 true, oneEvent 5 11 true][i]? = some source → ∃ skipped left,
        (∀ x ∈ skipped, x.isKeepAlive = true) ∧
        source.items = skipped ++ (takenFrom taken i ++ left) := by
  obtain ⟨s, hreach, hhandled⟩ : ∃ s, PipeReach 1
      (pipeStart [oneEvent 7 10 true, oneEvent 5 11 true]) s ∧ s.handled = [(1, 11)] := by
    refine ⟨_, .next (.next (.next (.next (.next (.next (.next .start rfl) rfl) rfl) rfl) rfl)
      rfl) rfl, rfl⟩
  obtain ⟨taken, hr⟩ := hreach.mergeReach
  exact ⟨taken, s, hhandled, pipe_merges_sorted _ hr⟩

end Ucesb
