import Ucesb.ArrayHeap

namespace Ucesb

section HeapOrder

variable {α : Type} (less : α → α → Bool)

/-- What is needed of `compare_less`: it is a strict order up to ties. -/
structure StrictWeak : Prop where
  asymm : ∀ {a b}, less a b = true → less b a = false
  trans : ∀ {a b c}, less b a = false → less c b = false → less c a = false

/-- The item in slot `i` is not less than the one in slot `j`. -/
def NotLess (l : List α) (i j : Nat) : Prop :=
  ∀ a b, l[i]? = some a → l[j]? = some b → less a b = false

def HeapOrdered (l : List α) : Prop := ∀ i, 0 < i → NotLess less l i ((i - 1) / 2)

/-- Ordered but for slot `hole` and its parent, with the children of the slot behind the parent. -/
structure RisingItem (l : List α) (hole : Nat) : Prop where
  other : ∀ i, 0 < i → i ≠ hole → NotLess less l i ((i - 1) / 2)
  grand : 0 < hole → ∀ c, 0 < c → (c - 1) / 2 = hole → NotLess less l c ((hole - 1) / 2)

/-- Ordered but for slot `parent` and its children, with the children behind the parent's parent. -/
structure SinkingItem (l : List α) (parent : Nat) : Prop where
  other : ∀ i, 0 < i → (i - 1) / 2 ≠ parent → NotLess less l i ((i - 1) / 2)
  grand : 0 < parent → ∀ c, 0 < c → (c - 1) / 2 = parent →
    NotLess less l c ((parent - 1) / 2)

variable {less}

theorem NotLess.congr {l l' : List α} {i j i' j' : Nat} (h : NotLess less l i j)
    (hi : l'[i']? = l[i]?) (hj : l'[j']? = l[j]?) : NotLess less l' i' j' := by
  intro a b ha hb
  exact h a b (hi ▸ ha) (hj ▸ hb)

theorem NotLess.trans (hless : StrictWeak less) {l : List α} {i j k : Nat}
    (hij : NotLess less l i j) (hjk : NotLess less l j k) (hj : j < l.length) :
    NotLess less l i k := by
  intro a c ha hc
  have hb := List.getElem?_eq_getElem hj
  exact hless.trans (hjk _ _ hb hc) (hij _ _ ha hb)

theorem HeapOrdered.root_le (hless : StrictWeak less) {l : List α} (h : HeapOrdered less l)
    (i : Nat) (hi : 0 < i) : NotLess less l i 0 := by
  induction i using Nat.strongRecOn with
  | ind i ih =>
    intro a b ha hb
    have hlen : i < l.length := (List.getElem?_eq_some_iff.mp ha).1
    by_cases hp : (i - 1) / 2 = 0
    · have hi0 := h i hi
      rw [hp] at hi0
      exact hi0 a b ha hb
    · have hpar := ih ((i - 1) / 2) (by omega) (by omega)
      exact (h i hi).trans hless hpar (by omega) a b ha hb

theorem getElem?_shifted {l : List α} {hole : Nat} {item parent : α} (hlt : hole < l.length)
    (hpos : 0 < hole) (j : Nat) :
    ((l.set hole parent).set ((hole - 1) / 2) item)[j]? =
      if j = (hole - 1) / 2 then some item else if j = hole then some parent else l[j]? := by
  rw [List.getElem?_set, List.getElem?_set, List.length_set]
  by_cases h1 : (hole - 1) / 2 = j
  · rw [if_pos h1, if_pos h1.symm, if_pos (by omega)]
  · rw [if_neg h1, if_neg (Ne.symm h1)]
    by_cases h2 : hole = j
    · rw [if_pos h2, if_pos h2.symm, if_pos hlt]
    · rw [if_neg h2, if_neg (Ne.symm h2)]

theorem RisingItem.shift (hless : StrictWeak less) {l : List α} {hole : Nat} {item parent : α}
    (hlt : hole < l.length) (hpos : 0 < hole) (hp : l[(hole - 1) / 2]? = some parent)
    (hstop : less parent item = false) (h : RisingItem less (l.set hole item) hole) :
    RisingItem less ((l.set hole parent).set ((hole - 1) / 2) item) ((hole - 1) / 2) := by
  have hnew := @getElem?_shifted α l hole item parent hlt hpos
  have hold : ∀ j, j ≠ hole → (l.set hole item)[j]? = l[j]? := by
    intro j hj
    rw [List.getElem?_set, if_neg (Ne.symm hj)]
  have hpne : (hole - 1) / 2 ≠ hole := by omega
  -- the pairs that the hole does not touch, read in the list without the item
  have hother : ∀ i, 0 < i → i ≠ hole → (i - 1) / 2 ≠ hole → NotLess less l i ((i - 1) / 2) := by
    intro i hi hih hph
    exact (h.other i hi hih).congr (hold i hih).symm (hold _ hph).symm
  -- the other child of the parent is not before the item
  have hsibling : ∀ i a, 0 < i → i ≠ hole → (i - 1) / 2 = (hole - 1) / 2 → l[i]? = some a →
      less a parent = false := by
    intro i a hi hih hpi ha
    have hi' := hother i hi hih (by omega)
    rw [hpi] at hi'
    exact hi' a parent ha hp
  constructor
  · intro i hi hip a b ha hb
    rw [hnew] at ha hb
    rw [if_neg hip] at ha
    by_cases hih : i = hole
    · subst hih
      rw [if_pos rfl] at ha
      rw [if_pos rfl] at hb
      cases ha
      cases hb
      exact hstop
    · rw [if_neg hih] at ha
      by_cases hpp : (i - 1) / 2 = (hole - 1) / 2
      · rw [if_pos hpp] at hb
        cases hb
        exact hless.trans hstop (hsibling i a hi hih hpp ha)
      · rw [if_neg hpp] at hb
        by_cases hph : (i - 1) / 2 = hole
        · rw [if_pos hph] at hb
          cases hb
          have hg := h.grand hpos i hi hph
          exact hg a parent ((hold i hih).trans ha) ((hold _ hpne).trans hp)
        · rw [if_neg hph] at hb
          exact hother i hi hih hph a b ha hb
  · intro hppos c hc hcp a b ha hb
    rw [hnew] at ha hb
    rw [if_neg (by omega), if_neg (by omega)] at hb
    have hgp : less parent b = false :=
      hother ((hole - 1) / 2) hppos hpne (by omega) parent b hp hb
    by_cases hch : c = hole
    · rw [if_neg (by omega), if_pos hch] at ha
      cases ha
      exact hgp
    · rw [if_neg (by omega), if_neg hch] at ha
      exact hless.trans hgp (hsibling c a hc hch hcp ha)

theorem heapSiftUp_ordered (hless : StrictWeak less) {fuel : Nat} {l : List α} {hole : Nat}
    {item : α} (hlt : hole < l.length) (hf : hole ≤ fuel)
    (h : RisingItem less (l.set hole item) hole) : HeapOrdered less (heapSiftUp less fuel l hole item) := by
  induction fuel generalizing l hole with
  | zero =>
    obtain rfl : hole = 0 := by omega
    exact fun i hi => h.other i hi (by omega)
  | succ fuel ih =>
    unfold heapSiftUp
    by_cases hz : hole = 0
    · rw [if_pos hz]
      exact fun i hi => h.other i hi (by omega)
    · rw [if_neg hz]
      have hp : l[(hole - 1) / 2]? = some (l.get ⟨(hole - 1) / 2, by omega⟩) :=
        List.getElem?_eq_getElem (by omega)
      rw [hp]
      dsimp only
      split
      · rename_i hstop
        intro i hi
        by_cases hih : i = hole
        · subst hih
          intro a b ha hb
          rw [List.getElem?_set_self hlt] at ha
          rw [List.getElem?_set, if_neg (by omega), hp] at hb
          cases ha
          cases hb
          exact hless.asymm hstop
        · exact h.other i hi hih
      · rename_i hstop
        rw [Bool.not_eq_true] at hstop
        apply ih
        · rw [List.length_set]
          omega
        · omega
        · exact h.shift hless hlt (by omega) hp hstop

theorem heapInsert_ordered (hless : StrictWeak less) {l : List α} (h : HeapOrdered less l)
    (item : α) : HeapOrdered less (heapInsert less l item) := by
  have hset : (l ++ [item]).set l.length item = l ++ [item] := by simp
  unfold heapInsert
  apply heapSiftUp_ordered hless (by simp) (Nat.le_refl _)
  rw [hset]
  constructor
  · intro i hi hne a b ha hb
    have hlen : i < (l ++ [item]).length := (List.getElem?_eq_some_iff.mp ha).1
    rw [List.length_append, List.length_singleton] at hlen
    rw [List.getElem?_append_left (by omega)] at ha hb
    exact h i hi a b ha hb
  · intro _ c hc hcp a b ha _
    have hlen : c < (l ++ [item]).length := (List.getElem?_eq_some_iff.mp ha).1
    rw [List.length_append, List.length_singleton] at hlen
    omega

theorem getElem?_swapAt {l : List α} {i j : Nat} (hi : i < l.length) (hj : j < l.length)
    (k : Nat) :
    (swapAt l i j)[k]? = if k = i then l[j]? else if k = j then l[i]? else l[k]? := by
  unfold swapAt
  rw [List.getElem?_eq_getElem hi, List.getElem?_eq_getElem hj]
  dsimp only
  rw [List.getElem?_set, List.getElem?_set, List.length_set]
  by_cases hkj : j = k
  · subst hkj
    rw [if_pos rfl, if_pos hj, if_pos rfl]
    split
    · rename_i hji
      subst hji
      rfl
    · rfl
  · rw [if_neg hkj, if_neg (Ne.symm hkj)]
    by_cases hki : i = k
    · rw [if_pos hki, if_pos hki.symm, if_pos hi]
    · rw [if_neg hki, if_neg (Ne.symm hki)]

theorem swapAt_length (l : List α) (i j : Nat) : (swapAt l i j).length = l.length := by
  unfold swapAt
  split <;> simp

theorem lessAt_false {l : List α} {i j : Nat} (h : lessAt less l i j = false) :
    NotLess less l i j := by
  intro a b ha hb
  unfold lessAt at h
  rw [ha, hb] at h
  exact h

theorem lessAt_true {l : List α} {i j : Nat} (h : lessAt less l i j = true) :
    i < l.length ∧ j < l.length ∧ ∀ a b, l[i]? = some a → l[j]? = some b → less a b = true := by
  unfold lessAt at h
  split at h
  · rename_i a b ha hb
    refine ⟨(List.getElem?_eq_some_iff.mp ha).1, (List.getElem?_eq_some_iff.mp hb).1, ?_⟩
    intro a' b' ha' hb'
    rw [ha] at ha'
    rw [hb] at hb'
    cases ha'
    cases hb'
    exact h
  · cases h

theorem heapMoveTo_spec (hless : StrictWeak less) (l : List α) (parent : Nat) :
    (heapMoveTo less l parent = parent ∨
      (heapMoveTo less l parent - 1) / 2 = parent ∧ 0 < heapMoveTo less l parent ∧
        heapMoveTo less l parent < l.length ∧ parent < l.length ∧
        NotLess less l parent (heapMoveTo less l parent)) ∧
      ∀ c, 0 < c → (c - 1) / 2 = parent → NotLess less l c (heapMoveTo less l parent) := by
  have hchild : ∀ c, 0 < c → (c - 1) / 2 = parent → c = parent * 2 + 1 ∨ c = parent * 2 + 2 := by
    intro c hc hp
    omega
  have hself : ∀ i, NotLess less l i i := by
    intro i a b ha hb
    rw [ha] at hb
    cases hb
    by_contra hne
    rw [Bool.not_eq_false] at hne
    rw [hless.asymm hne] at hne
    cases hne
  unfold heapMoveTo
  dsimp only
  cases h1 : lessAt less l (parent * 2 + 1) parent with
  | false =>
    simp only [Bool.false_eq_true, if_false]
    cases h2 : lessAt less l (parent * 2 + 1 + 1) parent with
    | false =>
      simp only [Bool.false_eq_true, if_false]
      refine ⟨.inl trivial, ?_⟩
      intro c hc hp
      rcases hchild c hc hp with rfl | rfl
      · exact lessAt_false h1
      · exact lessAt_false h2
    | true =>
      obtain ⟨hlt2, hltp, hl2⟩ := lessAt_true h2
      have hpar : NotLess less l parent (parent * 2 + 1 + 1) :=
        fun a b ha hb => hless.asymm (hl2 b a hb ha)
      simp only [if_true]
      refine ⟨.inr ⟨by omega, by omega, hlt2, hltp, hpar⟩, ?_⟩
      intro c hc hp
      rcases hchild c hc hp with rfl | rfl
      · exact (lessAt_false h1).trans hless hpar hltp
      · exact hself _
  | true =>
    obtain ⟨hlt1, hltp, hl1⟩ := lessAt_true h1
    have hpar : NotLess less l parent (parent * 2 + 1) :=
      fun a b ha hb => hless.asymm (hl1 b a hb ha)
    simp only [if_true]
    cases h2 : lessAt less l (parent * 2 + 1 + 1) (parent * 2 + 1) with
    | false =>
      simp only [Bool.false_eq_true, if_false]
      refine ⟨.inr ⟨by omega, by omega, hlt1, hltp, hpar⟩, ?_⟩
      intro c hc hp
      rcases hchild c hc hp with rfl | rfl
      · exact hself _
      · exact lessAt_false h2
    | true =>
      obtain ⟨hlt2, -, hl2⟩ := lessAt_true h2
      have hsib : NotLess less l (parent * 2 + 1) (parent * 2 + 1 + 1) :=
        fun a b ha hb => hless.asymm (hl2 b a hb ha)
      simp only [if_true]
      refine ⟨.inr ⟨by omega, by omega, hlt2, hltp, hpar.trans hless hsib hlt1⟩, ?_⟩
      intro c hc hp
      rcases hchild c hc hp with rfl | rfl
      · exact hsib
      · exact hself _

theorem SinkingItem.swap {l : List α} {parent dest : Nat}
    (h : SinkingItem less l parent) (hto : (dest - 1) / 2 = parent) (hpos : 0 < dest)
    (hlt : dest < l.length) (hltp : parent < l.length) (hless1 : NotLess less l parent dest)
    (hmin : ∀ c, 0 < c → (c - 1) / 2 = parent → NotLess less l c dest) :
    SinkingItem less (swapAt l parent dest) dest := by
  have hget := @getElem?_swapAt α l parent dest hltp hlt
  have hne : parent ≠ dest := by omega
  have hat : (swapAt l parent dest)[parent]? = l[dest]? := by
    rw [hget, if_pos rfl]
  have hkeep : ∀ k, k ≠ parent → k ≠ dest → (swapAt l parent dest)[k]? = l[k]? := by
    intro k h1 h2
    rw [hget, if_neg h1, if_neg h2]
  have hatto : (swapAt l parent dest)[dest]? = l[parent]? := by
    rw [hget, if_neg (Ne.symm hne), if_pos rfl]
  constructor
  · intro i hi hpi
    by_cases hit : i = dest
    · subst hit
      rw [hto]
      exact hless1.congr hatto hat
    · by_cases hip : i = parent
      · subst hip
        exact (h.grand hi dest hpos hto).congr hat (hkeep _ (by omega) (by omega))
      · by_cases hpp : (i - 1) / 2 = parent
        · rw [hpp]
          exact (hmin i hi hpp).congr (hkeep i hip hit) hat
        · exact (h.other i hi hpp).congr (hkeep i hip hit) (hkeep _ hpp hpi)
  · intro _ c hc hcto
    rw [hto]
    have hc' := h.other c hc (by omega)
    rw [hcto] at hc'
    exact hc'.congr (hkeep c (by omega) (by omega)) hat

theorem heapMoveDown_ordered (hless : StrictWeak less) {fuel : Nat} {l : List α} {parent : Nat}
    (hf : l.length ≤ fuel + parent) (h : SinkingItem less l parent) :
    HeapOrdered less (heapMoveDown less fuel l parent) := by
  induction fuel generalizing l parent with
  | zero =>
    intro i hi
    by_cases hp : (i - 1) / 2 = parent
    · intro a b _ hb
      have hlen : (i - 1) / 2 < l.length := (List.getElem?_eq_some_iff.mp hb).1
      omega
    · exact h.other i hi hp
  | succ fuel ih =>
    obtain ⟨hto, hmin⟩ := heapMoveTo_spec hless l parent
    unfold heapMoveDown
    dsimp only
    by_cases hstay : heapMoveTo less l parent = parent
    · rw [if_pos hstay]
      rw [hstay] at hmin
      intro i hi
      by_cases hp : (i - 1) / 2 = parent
      · rw [hp]
        exact hmin i hi hp
      · exact h.other i hi hp
    · rw [if_neg hstay]
      rcases hto with hto | ⟨hchild, hpos, hlt, hltp, hless1⟩
      · exact absurd hto hstay
      · apply ih
        · rw [swapAt_length]
          omega
        · exact h.swap hchild hpos hlt hltp hless1 hmin

theorem heapMoveDown_root_ordered (hless : StrictWeak less) {a b : α} {others : List α}
    (h : HeapOrdered less (a :: others)) :
    HeapOrdered less (heapMoveDown less (others.length + 1) (b :: others) 0) := by
  apply heapMoveDown_ordered hless
  · simp
  · constructor
    · intro i hi hp
      refine (h i hi).congr ?_ ?_
      · obtain ⟨k, rfl⟩ := Nat.exists_eq_add_of_lt hi
        simp
      · obtain ⟨k, hk⟩ := Nat.exists_eq_add_of_lt (Nat.pos_of_ne_zero hp)
        rw [hk]
        simp
    · intro hpos
      exact absurd hpos (Nat.lt_irrefl 0)

end HeapOrder

end Ucesb
