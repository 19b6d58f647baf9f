import Ucesb.MatchWalk

namespace Ucesb

section Displaced

variable {mem : Memory}

def Walk.Displaced : Walk → Prop
  | .rejected => False
  | .through _ displaced => displaced = true
  | _ => True

theorem walkOn_displaced (explicit : Bool) (st : GenState) :
    (walkOn explicit st true).Displaced := by
  cases explicit with
  | true => exact (rfl : true = true)
  | false => trivial

theorem Walk.Displaced.leave {walk : Walk} (h : walk.Displaced) (st : GenState) :
    (walk.leave st).Displaced := by
  cases walk with
  | rejected => exact h
  | through st' displaced => exact h
  | _ => trivial

theorem Walk.Displaced.andThen {walk : Walk} {f : GenState → Bool → Walk} (h : walk.Displaced)
    (hnext : ∀ st, (f st true).Displaced) : (walk.andThen f).Displaced := by
  cases walk with
  | rejected => exact h.elim
  | through st displaced =>
    cases (show displaced = true from h)
    exact hnext st
  | _ => trivial

theorem walkData_displaced (explicit : Bool) (d : StructData) (st : GenState) :
    (walkData mem explicit d st true).Displaced := by
  unfold walkData
  simp only [Bool.true_or, if_true]
  split
  · split
    · trivial
    · split
      · exact walkOn_displaced explicit _
      · trivial
  · split
    · split
      · exact walkOn_displaced explicit _
      · exact (rfl : true = true)
    · split
      · trivial
      · split
        · exact walkOn_displaced explicit _
        · split
          · exact walkOn_displaced explicit _
          · trivial

theorem walkDecl_displaced (explicit : Bool) (st : GenState) (block : Walk) :
    (walkDecl explicit st block).Displaced := by
  cases block with
  | ended st' => exact walkOn_displaced explicit _
  | _ => trivial

theorem walkFor_displaced (index : String) (max : Variable) {f : GenState → Bool → Walk}
    (h : ∀ st, (f st true).Displaced) (fuel i : Nat) (st : GenState) :
    (walkFor index max f fuel i st true).Displaced := by
  induction fuel generalizing i st with
  | zero => exact (rfl : true = true)
  | succ fuel ih =>
    unfold walkFor
    split
    · exact ((h _).leave st).andThen fun st' => ih (i + 1) st'
    · exact (rfl : true = true)

mutual

theorem walk_displaced (mem : Memory) (explicit : Bool) : (item : StructItem) → (st : GenState) →
    (item.walk mem explicit st true).Displaced
  | .data d, st => by
    rw [StructItem.walk]
    exact walkData_displaced explicit d st
  | .decl _ args body, st => by
    rw [StructItem.walk]
    exact walkDecl_displaced explicit st _
  | .list index min max items, st => by
    rw [StructItem.walk]
    exact walkFor_displaced index max (walkList_displaced mem explicit items) (2 ^ 32) _ st
  | .cond expr items none, st => by
    rw [StructItem.walk]
    split
    · exact (walkList_displaced mem explicit items st).leave st
    · exact (rfl : true = true)
  | .cond expr items (some itemsElse), st => by
    rw [StructItem.walk]
    split
    · exact (walkList_displaced mem explicit items st).leave st
    · exact (walkList_displaced mem explicit itemsElse st).leave st
  | .matchEnd, _ => trivial
  | .member, _ => (rfl : true = true)
  | .mark _, _ => (rfl : true = true)
  | .checkCount _ _ _ _ _, _ => (rfl : true = true)
  | .encode _, _ => (rfl : true = true)

theorem walkList_displaced (mem : Memory) (explicit : Bool) : (items : List StructItem) →
    (st : GenState) → (StructItem.walkList mem explicit items st true).Displaced
  | [], _ => (rfl : true = true)
  | item :: rest, st => by
    rw [StructItem.walkList]
    refine (walk_displaced mem explicit item st).andThen ?_
    intro st'
    split
    · trivial
    · exact walkList_displaced mem explicit rest st'

end

end Displaced

section Follows

variable {mem : Memory}

def SamePlace (su sm : GenState) : Prop := su.src = sm.src ∧ su.env = sm.env

def Walk.Follows : Walk → Flow → Prop
  | .rejected, flow => ∀ st, flow ≠ .next st
  | .through sm false, flow => ∀ su, flow = .next su → SamePlace su sm
  | _, _ => True

theorem Walk.Displaced.follows {walk : Walk} (h : walk.Displaced) (flow : Flow) :
    walk.Follows flow := by
  cases walk with
  | rejected => exact h.elim
  | through st displaced =>
    cases (show displaced = true from h)
    trivial
  | _ => trivial

theorem Flow.andThen_next {flow : Flow} {g : GenState → Flow} {st : GenState}
    (h : flow.andThen g = .next st) : ∃ st', flow = .next st' ∧ g st' = .next st := by
  cases flow with
  | next st' => exact ⟨st', rfl, h⟩
  | _ => cases h

theorem Walk.follows_of_stop (walk : Walk) {flow : Flow} (h : ∀ st, flow ≠ .next st) :
    walk.Follows flow := by
  cases walk with
  | rejected => exact h
  | through sm displaced =>
    cases displaced with
    | true => trivial
    | false =>
      intro su hsu
      exact absurd hsu (h su)
  | _ => trivial

theorem Walk.Follows.andThen {walk : Walk} {flow : Flow} {f : GenState → Bool → Walk}
    {g : GenState → Flow} (h : walk.Follows flow) (hdisplaced : ∀ st, (f st true).Displaced)
    (hnext : ∀ su sm, SamePlace su sm → (f sm false).Follows (g su)) :
    (walk.andThen f).Follows (flow.andThen g) := by
  by_cases hflow : ∃ su, flow = .next su
  · obtain ⟨su, rfl⟩ := hflow
    cases walk with
    | rejected => exact absurd rfl (h su)
    | through sm displaced =>
      cases displaced with
      | true => exact (hdisplaced sm).follows _
      | false => exact hnext su sm (h su rfl)
    | _ => trivial
  · refine Walk.follows_of_stop _ ?_
    intro st hst
    obtain ⟨su, hsu, -⟩ := Flow.andThen_next hst
    exact hflow ⟨su, hsu⟩

theorem SamePlace.leave {su sm su' sm' : GenState} (h : SamePlace su sm)
    (h' : SamePlace su' sm') : SamePlace (su.leave su') (sm.leave sm') := by
  refine ⟨h'.1, ?_⟩
  simp only [GenState.leave, h.2, h'.2]

theorem Flow.leave_next {flow : Flow} {st st' : GenState} (h : flow.leave st = .next st') :
    ∃ block, flow = .next block ∧ st' = st.leave block := by
  cases flow with
  | next block =>
    cases h
    exact ⟨block, rfl, rfl⟩
  | _ => cases h

theorem Walk.Follows.leave {walk : Walk} {flow : Flow} {su sm : GenState} (h : walk.Follows flow)
    (hplace : SamePlace su sm) : (walk.leave sm).Follows (flow.leave su) := by
  cases walk with
  | rejected =>
    intro st hst
    obtain ⟨block, hflow, -⟩ := Flow.leave_next hst
    exact h block hflow
  | through sm' displaced =>
    cases displaced with
    | true => trivial
    | false =>
      intro st hst
      obtain ⟨block, hflow, rfl⟩ := Flow.leave_next hst
      exact hplace.leave (h block hflow)
  | _ => trivial

theorem walkFor_follows (index : String) (max : Variable) {f : GenState → Bool → Walk}
    {g : GenState → Flow} (hdisplaced : ∀ st, (f st true).Displaced)
    (h : ∀ su sm, SamePlace su sm → (f sm false).Follows (g su)) (fuel i : Nat)
    {su sm : GenState} (hplace : SamePlace su sm) :
    (walkFor index max f fuel i sm false).Follows (runFor index max g fuel i su) := by
  induction fuel generalizing i su sm with
  | zero =>
    intro st hst
    cases hst
    exact hplace
  | succ fuel ih =>
    unfold walkFor runFor
    rw [hplace.2]
    split
    · refine ((h _ _ ?_).leave hplace).andThen ?_ ?_
      · exact ⟨hplace.1, rfl⟩
      · intro st
        exact walkFor_displaced index max hdisplaced fuel (i + 1) st
      · intro su' sm' hplace'
        exact ih (i + 1) hplace'
    · intro st hst
      cases hst
      exact hplace

end Follows

section Data

variable {mem : Memory}

theorem SamePlace.read {su sm : GenState} (h : SamePlace su sm) (d : StructData) (w : Nat)
    (src : DataSrc) : SamePlace (su.read d w src) (sm.read d w src) := by
  refine ⟨rfl, ?_⟩
  simp only [GenState.read, GenState.bind, h.2]

theorem SamePlace.see {su sm : GenState} (h : SamePlace su sm) (d : StructData) (w : Nat) :
    SamePlace (su.see d w) (sm.see d w) ∧ (su.see d w).word = w ∧ (sm.see d w).word = w := by
  unfold GenState.see GenState.bind SamePlace
  split
  · exact ⟨⟨h.1, by rw [h.2]⟩, rfl, rfl⟩
  · exact ⟨h, rfl, rfl⟩

theorem SamePlace.take {su sm : GenState} (h : SamePlace su sm) (hword : su.word = sm.word)
    (d : StructData) : SamePlace (su.take d) (sm.take d) := by
  unfold GenState.take GenState.bind SamePlace
  dsimp only
  rw [h.1, h.2, hword]
  split
  · exact ⟨rfl, rfl⟩
  · exact ⟨rfl, rfl⟩

theorem fits_of_fits {su sm : GenState} {d : StructData} {k k' : CheckPrefix} (hk : k' ≠ .check)
    (h : SamePlace su sm) (hword : su.word = sm.word) (hfit : d.fits k su = true) :
    d.fits k' sm = true := by
  unfold StructData.fits at *
  cases hb : d.bits with
  | none => rfl
  | some bits =>
    simp only [hb, Bool.and_eq_true, List.all_eq_true] at hfit ⊢
    rw [← hword]
    refine ⟨?_, hfit.2⟩
    intro b hbits
    have hcond := hfit.1 b hbits
    cases hc : b.cond with
    | none => rfl
    | some c =>
      rw [hc] at hcond
      cases c with
      | check x | range low high =>
        simp only [Option.all_some, BitsCondition.holds, ← h.2] at hcond ⊢
        exact hcond
      | checkCount start stop offset multiplier =>
        simp only [Option.all_some, BitsCondition.holds, bne_iff_ne.mpr hk, Bool.true_or]

theorem walkData_follows_required (mem : Memory) {d : StructData} (hp : d.presence = .required) (explicit : Bool)
    {su sm : GenState} (h : SamePlace su sm) :
    (walkData mem explicit d sm false).Follows
      (Stmt.execList mem [.read d, .check .check d] su) := by
  simp only [walkData, hp, if_true, Stmt.execList, Stmt.exec, h.1]
  cases hget : sm.src.get mem d.size with
  | none => trivial
  | some x =>
    obtain ⟨w, src⟩ := x
    have hread := h.read d w src
    simp only [Flow.andThen]
    by_cases hfit : d.fits .check (su.read d w src) = true
    · rw [fits_of_fits (by decide) hread rfl hfit]
      simp only [hfit, if_true]
      cases explicit with
      | true =>
        intro st hst
        cases hst
        exact hread
      | false => trivial
    · simp only [hfit]
      refine Walk.follows_of_stop _ ?_
      intro st hst
      cases hst

theorem Walk.Follows.stay {walk : Walk} {flow : Flow} {g : GenState → Flow}
    (h : walk.Follows flow) (hg : ∀ su su', g su = .next su' → SamePlace su' su) :
    walk.Follows (flow.andThen g) := by
  cases walk with
  | rejected =>
    intro st hst
    obtain ⟨su, hflow, -⟩ := Flow.andThen_next hst
    exact h su hflow
  | through sm displaced =>
    cases displaced with
    | true => trivial
    | false =>
      intro st hst
      obtain ⟨su, hflow, hnext⟩ := Flow.andThen_next hst
      obtain ⟨hsrc, henv⟩ := hg su st hnext
      obtain ⟨hsrc', henv'⟩ := h su hflow
      exact ⟨hsrc.trans hsrc', henv.trans henv'⟩
  | _ => trivial

theorem encode_stays (stored : Lookup → Bool) (su su' : GenState)
    (h : Stmt.execList mem [.encode stored] su = .next su') : SamePlace su' su := by
  rw [execList_single, Stmt.exec] at h
  split at h
  · cases h
    exact ⟨rfl, rfl⟩
  · cases h

theorem walkData_follows_empty {d : StructData} (hp : d.presence ≠ .required) (explicit : Bool)
    {su sm : GenState} (h : SamePlace su sm) (hempty : sm.src.empty = true) :
    (walkData mem explicit d sm false).Follows (.next su) := by
  simp only [walkData, hp, if_false, hempty, if_true]
  split
  · cases explicit with
    | true =>
      intro st hst
      cases hst
      exact h
    | false => trivial
  · intro st hst
    cases hst
    exact h

theorem walkData_several_displaced {d : StructData} (hp : d.presence = .several) (explicit : Bool)
    {sm : GenState} (hempty : sm.src.empty = false) :
    (walkData mem explicit d sm false).Displaced := by
  have hne : d.presence ≠ .required := hp.symm ▸ nofun
  rw [walkData, if_neg hne, hempty, if_neg Bool.false_ne_true, hp]
  cases sm.src.get mem d.size with
  | none => trivial
  | some x =>
    dsimp only
    split
    · exact walkOn_displaced explicit _
    · split
      · exact walkOn_displaced explicit _
      · trivial

theorem several_empty {body : List Stmt} {su : GenState} (hempty : su.src.empty = true) :
    Stmt.execList mem [.labelled [.forever (.jumpIfEmpty :: body)]] su = .next su := by
  simp only [Stmt.exec, runForever, Stmt.execList, hempty, if_true, Flow.andThen,
    Flow.leave, GenState.leave]

theorem optional_no_bits_follows {d : StructData} (hp : d.presence = .optional)
    (hb : d.bits = none) (explicit : Bool) {su sm : GenState} (h : SamePlace su sm) :
    (walkData mem explicit d sm false).Follows
      (Stmt.execList mem [.labelled [.jumpIfEmpty, .read d]] su) := by
  have hne : d.presence ≠ .required := hp.symm ▸ nofun
  simp only [Stmt.exec, Stmt.execList, h.1]
  cases hempty : sm.src.empty with
  | true => exact walkData_follows_empty hne explicit h hempty
  | false =>
    rw [walkData, if_neg hne, hempty, if_neg Bool.false_ne_true, hb, hp]
    simp only [Bool.false_eq_true, if_false, Flow.andThen, h.1]
    cases hget : sm.src.get mem d.size with
    | none => trivial
    | some x =>
      obtain ⟨w, src⟩ := x
      cases explicit with
      | true =>
        intro st hst
        cases hst
        exact h.read d w src
      | false => trivial

theorem optional_bits_follows {d : StructData} {bits : List BitsSpec}
    (hp : d.presence = .optional) (hb : d.bits = some bits) (explicit : Bool) {su sm : GenState}
    (h : SamePlace su sm) :
    (walkData mem explicit d sm false).Follows (Stmt.execList mem
      [.labelled [.jumpIfEmpty, .peek d, .check .checkJump d, .advance d, .encode d.encode]] su) := by
  have hne : d.presence ≠ .required := hp.symm ▸ nofun
  simp only [Stmt.exec, Stmt.execList, h.1]
  cases hempty : sm.src.empty with
  | true => exact walkData_follows_empty hne explicit h hempty
  | false =>
    rw [walkData, if_neg hne, hempty, if_neg Bool.false_ne_true, hb, hp]
    simp only [Bool.false_eq_true, if_false, Flow.andThen, h.1, DataSrc.peek_eq]
    cases hget : sm.src.get mem d.size with
    | none => trivial
    | some x =>
      obtain ⟨w, src⟩ := x
      obtain ⟨hsee, hwu, hwm⟩ := h.see d w
      have htake := hsee.take (hwu.trans hwm.symm) d
      simp only [Option.map_some]
      by_cases hfit : d.fits .matching (sm.see d w) = true
      · have hjump : d.fits .checkJump (su.see d w) = true :=
          fits_of_fits (by decide) ⟨hsee.1.symm, hsee.2.symm⟩ (hwm.trans hwu.symm) hfit
        simp only [hfit, hjump, if_true]
        cases explicit with
        | false => trivial
        | true =>
          by_cases hstored : d.encode ((su.see d w).take d).env.lookup = true
          · simp only [hstored, if_true]
            intro st hst
            cases hst
            exact htake
          · simp only [hstored]
            exact Walk.follows_of_stop _ (by intro st hst; cases hst)
      · simp only [hfit]
        trivial

theorem walkData_follows (explicit : Bool) (d : StructData) {su sm : GenState}
    (h : SamePlace su sm) :
    (walkData mem explicit d sm false).Follows (Stmt.execList mem (genUnpackData d) su) := by
  have hseveral : ∀ body, d.presence = .several →
      (walkData mem explicit d sm false).Follows
        (Stmt.execList mem [.labelled [.forever (.jumpIfEmpty :: body)]] su) := by
    intro body hp
    cases hempty : sm.src.empty with
    | true =>
      rw [several_empty (by rw [h.1]; exact hempty)]
      exact walkData_follows_empty (by rw [hp]; decide) explicit h hempty
    | false => exact (walkData_several_displaced hp explicit hempty).follows _
  cases hb : d.bits with
  | none =>
    cases hp : d.presence with
    | required =>
      have hread := walkData_follows_required mem hp explicit h
      simp only [Stmt.execList, Stmt.exec, fits_of_no_bits hb, if_true] at hread
      simp only [genUnpackData, hb, hp, Stmt.execList, Stmt.exec]
      cases hget : su.src.get mem d.size with
      | none | some x =>
        rw [hget] at hread
        exact hread
    | optional =>
      simp only [genUnpackData, hb, hp]
      exact optional_no_bits_follows hp hb explicit h
    | several =>
      simp only [genUnpackData, hb, hp]
      exact hseveral _ hp
  | some bits =>
    cases hp : d.presence with
    | required =>
      simp only [genUnpackData, hb, hp]
      have happend := execList_append mem [.read d, .check .check d]
        [.encode d.encode] su
      rw [List.cons_append, List.cons_append, List.nil_append] at happend
      rw [happend]
      exact (walkData_follows_required mem hp explicit h).stay (encode_stays d.encode)
    | optional =>
      simp only [genUnpackData, hb, hp]
      exact optional_bits_follows hp hb explicit h
    | several =>
      simp only [genUnpackData, hb, hp]
      exact hseveral _ hp

end Data

section Structure

variable {mem : Memory}

mutual

theorem genUnpack_follows (mem : Memory) (explicit : Bool) : (item : StructItem) →
    (su sm : GenState) → SamePlace su sm →
      (item.walk mem explicit sm false).Follows (Stmt.execList mem item.genUnpack su)
  | .data d, su, sm, h => by
    rw [StructItem.walk, StructItem.genUnpack]
    exact walkData_follows explicit d h
  | .decl _ args body, su, sm, h => by
    rw [StructItem.walk]
    exact (walkDecl_displaced explicit sm _).follows _
  | .list index min max items, su, sm, h => by
    rw [StructItem.walk, StructItem.genUnpack, execList_single, Stmt.exec, h.2]
    exact walkFor_follows index max (walkList_displaced mem explicit items)
      (genUnpackList_follows mem explicit items) (2 ^ 32) _ h
  | .cond expr items none, su, sm, h => by
    rw [StructItem.walk, StructItem.genUnpack, execList_single, Stmt.exec, h.2]
    split
    · exact (genUnpackList_follows mem explicit items su sm h).leave h
    · intro st hst
      cases hst
      exact h.leave h
  | .cond expr items (some itemsElse), su, sm, h => by
    rw [StructItem.walk, StructItem.genUnpack, execList_single, Stmt.exec, h.2]
    split
    · exact (genUnpackList_follows mem explicit items su sm h).leave h
    · exact (genUnpackList_follows mem explicit itemsElse su sm h).leave h
  | .matchEnd, _, _, _ => trivial
  | .member, su, sm, h => by
    intro st hst
    cases hst
    exact h
  | .mark name, su, sm, h => by
    intro st hst
    cases hst
    exact h
  | .checkCount var start stop offset multiplier, su, sm, h => by
    intro st hst
    rw [StructItem.genUnpack, execList_single, Stmt.exec] at hst
    split at hst
    · cases hst
      exact h
    · cases hst
  | .encode stored, su, sm, h => by
    intro st hst
    obtain ⟨hsrc, henv⟩ := encode_stays stored su st hst
    exact ⟨hsrc.trans h.1, henv.trans h.2⟩

theorem genUnpackList_follows (mem : Memory) (explicit : Bool) : (items : List StructItem) →
    (su sm : GenState) → SamePlace su sm →
      (StructItem.walkList mem explicit items sm false).Follows
        (Stmt.execList mem (StructItem.genUnpackList items) su)
  | [], su, sm, h => by
    intro st hst
    cases hst
    exact h
  | item :: rest, su, sm, h => by
    rw [StructItem.walkList, StructItem.genUnpackList, execList_append]
    refine (genUnpack_follows mem explicit item su sm h).andThen ?_ ?_
    · intro st
      split
      · trivial
      · exact walkList_displaced mem explicit rest st
    · intro su' sm' h'
      split
      · trivial
      · exact genUnpackList_follows mem explicit rest su' sm' h'

end

/-- `__unpack` of the structure goes through. -/
def Unpacks (mem : Memory) (body : List StructItem) (st : GenState) : Prop :=
  ∃ st', Stmt.execList mem (genUnpackFcn body) st = .next st'

/-- Where `__unpack` goes through, `__match` returns true; and it never raises an error. -/
def MatchAgrees (mem : Memory) (body : List StructItem) (st : GenState) : Prop :=
  (Unpacks mem body st → ∃ st', Stmt.execList mem (genMatchFcn body) st = .ret st' true) ∧
    Stmt.execList mem (genMatchFcn body) st ≠ .error

/-- The way through the items is clear: it comes to an end of the match, or to a required word that
does not fit in its own place. On it no word is missing in the buffer, no structure within is without
an end of its own, and no word that does not fit could have been left out or is out of its place. -/
def MatchClear (mem : Memory) (body : List StructItem) (st : GenState) : Prop :=
  match walkStruct mem body st with
  | .ended _ => True
  | .rejected => True
  | _ => False

/-- The way goes past a word that could have been left out, or nowhere comes to an end. -/
def Walk.Strays : Walk → Prop
  | .astray => True
  | .through _ _ => True
  | _ => False

theorem match_agrees_of_clear {mem : Memory} {body : List StructItem} {st : GenState}
    (h : MatchClear mem body st) : MatchAgrees mem body st := by
  have hmatch := genMatchFcn_agrees mem body st
  have hunpack := genUnpackList_follows mem (StructItem.anyMatchEnd body) body st st ⟨rfl, rfl⟩
  change (walkStruct mem body st).Follows _ at hunpack
  unfold MatchClear at h
  cases hwalk : walkStruct mem body st with
  | ended st' =>
    rw [hwalk] at hmatch
    rw [MatchAgrees, show Stmt.execList mem (genMatchFcn body) st = .ret st' true from hmatch]
    exact ⟨fun _ => ⟨st', rfl⟩, Flow.noConfusion⟩
  | rejected =>
    rw [hwalk] at hmatch hunpack
    obtain ⟨st', hret⟩ := hmatch
    rw [MatchAgrees, hret]
    refine ⟨?_, Flow.noConfusion⟩
    rintro ⟨su, hsu⟩
    exact absurd hsu (hunpack su)
  | _ =>
    rw [hwalk] at h
    exact h.elim

/-- `__match` returns false on such a way. -/
theorem strays_not_agrees {mem : Memory} {body : List StructItem} {st : GenState}
    (h : (walkStruct mem body st).Strays) (hagrees : MatchAgrees mem body st) :
    ¬ Unpacks mem body st := by
  have hmatch := genMatchFcn_agrees mem body st
  have hfalse : ∃ st', Stmt.execList mem (genMatchFcn body) st = .ret st' false := by
    cases hwalk : walkStruct mem body st with
    | astray | through st' displaced =>
      rw [hwalk] at hmatch
      exact hmatch
    | _ =>
      rw [hwalk] at h
      exact h.elim
  obtain ⟨st', hret⟩ := hfalse
  intro hunpacks
  obtain ⟨st'', htrue⟩ := hagrees.1 hunpacks
  rw [hret] at htrue
  cases htrue

theorem match_agrees_when_clear (mem : Memory) (body : List StructItem) (st : GenState) :
    (MatchClear mem body st → MatchAgrees mem body st) ∧
      (MatchAgrees mem body st → MatchClear mem body st ∨
        ((walkStruct mem body st).Strays ∧ ¬ Unpacks mem body st)) := by
  refine ⟨match_agrees_of_clear, ?_⟩
  intro hagrees
  have hmatch := genMatchFcn_agrees mem body st
  have hstrays := fun h => @strays_not_agrees mem body st h hagrees
  unfold MatchClear
  cases hwalk : walkStruct mem body st with
  | ended st' => exact .inl trivial
  | rejected => exact .inl trivial
  | missing | inner =>
    rw [hwalk] at hmatch
    exact absurd hmatch hagrees.2
  | astray | through st' displaced =>
    rw [hwalk] at hstrays
    exact .inr ⟨trivial, hstrays trivial⟩

end Structure

section Failing

def fixedWord (presence : Presence) (min max : Nat) (ordered : min ≤ max) (value : BitVec 32) :
    StructData where
  size := .w32
  ident := "word"
  noencode := true
  presence := presence
  bits := some [⟨min, max, some (.check (.const value)), ordered⟩]
  encode := fun _ => true
  several := fun _ => rfl

/-- `ITEM_ME2` for one `geom` -/
def itemMe2 (geom : BitVec 32) : List StructItem :=
  [.data (fixedWord .optional 0 31 (by decide) 0x32323232),
    .data (fixedWord .required 16 23 (by decide) geom), .matchEnd,
    .data (fixedWord .required 16 23 (by decide) geom)]

def wordsFrom (words : List Nat) : GenState := ⟨⟨0, 4 * words.length⟩, ⟨[], []⟩, [], 0⟩

def memoryOf (words : List Nat) : Memory := fun addr _ => words.getD (addr / 4) 0

theorem match_not_agrees :
    ¬ MatchAgrees (memoryOf [0x50000, 0x50000]) (itemMe2 5) (wordsFrom [0x50000, 0x50000]) ∧
      ¬ MatchAgrees (memoryOf [0x60000]) [.decl "item" [] (itemMe2 5)] (wordsFrom [0x60000]) := by
  refine ⟨?_, ?_⟩
  · rintro ⟨hmatch, -⟩
    obtain ⟨st, hst⟩ := hmatch ⟨⟨⟨8, 8⟩, ⟨[("word", 0x50000), ("word", 0x50000),
      ("word", 0x50000)], []⟩, [], 0x50000⟩, by decide +kernel⟩
    have hfalse : Stmt.execList (memoryOf [0x50000, 0x50000]) (genMatchFcn (itemMe2 5))
        (wordsFrom [0x50000, 0x50000]) =
        .ret ⟨⟨0, 8⟩, ⟨[("word", 0x50000)], []⟩, [], 0x50000⟩ false := by decide +kernel
    rw [hfalse] at hst
    cases hst
  · rintro ⟨-, herror⟩
    exact herror (by decide +kernel)

end Failing

end Ucesb
