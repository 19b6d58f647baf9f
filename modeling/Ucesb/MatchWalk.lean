import Ucesb.GenCode

namespace Ucesb

/-- Where the way ends: at an end of the match; where a word is not in the buffer; at a structure
that is not accepted; at a word that has to be there but does not fit; or without an end of the match,
or at a word that does not fit although it can be left out or is not in its place. Else it goes on,
perhaps displaced from the place where `__unpack` is. -/
inductive Walk
  | ended (st : GenState)
  | missing
  | inner
  | rejected
  | astray
  | through (st : GenState) (displaced : Bool)
deriving DecidableEq

def Walk.andThen (walk : Walk) (f : GenState → Bool → Walk) : Walk :=
  match walk with
  | .through st displaced => f st displaced
  | other => other

def Walk.leave (st : GenState) : Walk → Walk
  | .through st' displaced => .through (st.leave st') displaced
  | other => other

section Ends

variable (explicit : Bool)

mutual

def StructItem.ends : StructItem → Bool
  | .data _ => !explicit
  | .decl _ _ _ => !explicit
  | .list _ _ _ items => StructItem.anyEnds items
  | .cond _ items (some itemsElse) => StructItem.anyEnds items && StructItem.anyEnds itemsElse
  | .matchEnd => true
  | _ => false

def StructItem.anyEnds : List StructItem → Bool
  | [] => false
  | item :: rest => item.ends || StructItem.anyEnds rest

end

end Ends

def walkOn (explicit : Bool) (st : GenState) (displaced : Bool) : Walk :=
  if explicit then .through st displaced else .ended st

def walkData (mem : Memory) (explicit : Bool) (d : StructData) (st : GenState) (displaced : Bool) :
    Walk :=
  if d.presence = .required then
    match st.src.get mem d.size with
    | none => .missing
    | some (w, src) =>
      if d.fits .matching (st.read d w src) then walkOn explicit (st.read d w src) displaced
      else if displaced then .astray else .rejected
  else if st.src.empty then
    if d.bits.isNone then walkOn explicit st displaced else .through st displaced
  else
    match st.src.get mem d.size with
    | none => .missing
    | some (w, src) =>
      if d.bits.isNone then
        walkOn explicit (st.read d w src) (displaced || d.presence = .several)
      else if d.fits .matching (st.see d w) then
        walkOn explicit ((st.see d w).take d) (displaced || d.presence = .several)
      else .astray

def walkDecl (explicit : Bool) (st : GenState) : Walk → Walk
  | .ended st' => walkOn explicit { st with src := st'.src } true
  | _ => .inner

def walkFor (index : String) (max : Variable) (f : GenState → Bool → Walk) :
    Nat → Nat → GenState → Bool → Walk
  | 0, _, st, displaced => .through st displaced
  | fuel + 1, i, st, displaced =>
    if i < max.value st.env.lookup % 2 ^ 32 then
      let inner := { st with env := { st.env with locals := (index, i) :: st.env.locals } }
      ((f inner displaced).leave st).andThen (walkFor index max f fuel (i + 1))
    else .through st displaced

mutual

def StructItem.walk (mem : Memory) (explicit : Bool) : StructItem → GenState → Bool → Walk
  | .data d, st, displaced => walkData mem explicit d st displaced
  | .decl _ args body, st, _ =>
    walkDecl explicit st
      (StructItem.walkList mem (StructItem.anyMatchEnd body) body (st.call args) false)
  | .list index min max items, st, displaced =>
    walkFor index max (StructItem.walkList mem explicit items) (2 ^ 32)
      (min.value st.env.lookup % 2 ^ 32) st displaced
  | .cond expr items none, st, displaced =>
    if expr.value st.env.lookup ≠ 0 then
      (StructItem.walkList mem explicit items st displaced).leave st
    else .through (st.leave st) displaced
  | .cond expr items (some itemsElse), st, displaced =>
    if expr.value st.env.lookup ≠ 0 then
      (StructItem.walkList mem explicit items st displaced).leave st
    else (StructItem.walkList mem explicit itemsElse st displaced).leave st
  | .matchEnd, st, _ => .ended st
  | _, st, displaced => .through st displaced

def StructItem.walkList (mem : Memory) (explicit : Bool) :
    List StructItem → GenState → Bool → Walk
  | [], st, displaced => .through st displaced
  | item :: rest, st, displaced =>
    (item.walk mem explicit st displaced).andThen fun st displaced =>
      if item.ends explicit then .astray
      else StructItem.walkList mem explicit rest st displaced

end

def walkStruct (mem : Memory) (body : List StructItem) (st : GenState) : Walk :=
  StructItem.walkList mem (StructItem.anyMatchEnd body) body st false

section Generated

variable {mem : Memory}

def Walk.Agrees : Walk → Flow → Prop
  | .ended st, flow => flow = .ret st true
  | .missing, flow => flow = .error
  | .inner, flow => flow = .error
  | .rejected, flow => ∃ st, flow = .ret st false
  | .astray, flow => ∃ st, flow = .ret st false
  | .through st _, flow => flow = .next st

theorem execList_append (mem : Memory) (a b : List Stmt) (st : GenState) :
    Stmt.execList mem (a ++ b) st = (Stmt.execList mem a st).andThen (Stmt.execList mem b) := by
  induction a generalizing st with
  | nil => rfl
  | cons s a ih =>
    simp only [List.cons_append, Stmt.execList]
    cases s.exec mem st with
    | next st' => exact ih st'
    | _ => rfl

theorem execList_single (s : Stmt) (st : GenState) :
    Stmt.execList mem [s] st = s.exec mem st := by
  simp only [Stmt.execList]
  cases s.exec mem st with
  | _ => rfl

theorem Walk.Agrees.andThen {walk : Walk} {flow : Flow} {f : GenState → Bool → Walk}
    {g : GenState → Flow} (h : walk.Agrees flow)
    (hnext : ∀ st displaced, walk = .through st displaced → (f st displaced).Agrees (g st)) :
    (walk.andThen f).Agrees (flow.andThen g) := by
  cases walk with
  | rejected | astray =>
    obtain ⟨st, rfl⟩ := h
    exact ⟨st, rfl⟩
  | through st displaced =>
    cases h
    exact hnext st displaced rfl
  | _ =>
    cases h
    rfl

theorem Walk.Agrees.leave {walk : Walk} {flow : Flow} (st : GenState) (h : walk.Agrees flow) :
    (walk.leave st).Agrees (flow.leave st) := by
  cases walk with
  | rejected | astray =>
    obtain ⟨st', rfl⟩ := h
    exact ⟨st', rfl⟩
  | _ =>
    cases h
    rfl

theorem walkOn_agrees (explicit : Bool) (st : GenState) (displaced : Bool) :
    (walkOn explicit st displaced).Agrees (Stmt.execList mem (returnTrue !explicit) st) := by
  cases explicit with
  | true => rfl
  | false => rfl

theorem canEnd_eq {mei : MatchEndInfo} (h : mei.matchEnded = false) :
    mei.canEnd = (!mei.hasExplicitEnd, ⟨mei.hasExplicitEnd, !mei.hasExplicitEnd⟩) := by
  obtain ⟨explicit, ended⟩ := mei
  cases h
  cases explicit with
  | true => rfl
  | false => rfl

theorem walkFor_agrees (index : String) (max : Variable) {f : GenState → Bool → Walk}
    {g : GenState → Flow} (h : ∀ st displaced, (f st displaced).Agrees (g st)) (fuel i : Nat)
    (st : GenState) (displaced : Bool) :
    (walkFor index max f fuel i st displaced).Agrees (runFor index max g fuel i st) := by
  induction fuel generalizing i st displaced with
  | zero => rfl
  | succ fuel ih =>
    unfold walkFor runFor
    split
    · refine ((h _ displaced).leave st).andThen ?_
      intro st' displaced' _
      exact ih (i + 1) st' displaced'
    · rfl

theorem fits_of_no_bits {d : StructData} (h : d.bits = none) (k : CheckPrefix) (st : GenState) :
    d.fits k st = true := by
  rw [StructData.fits, h]

theorem walkData_required (mem : Memory) {d : StructData} (hp : d.presence = .required) (explicit : Bool)
    (st : GenState) (displaced : Bool) :
    (walkData mem explicit d st displaced).Agrees
      (Stmt.execList mem ([.read d, .check .matching d] ++ returnTrue !explicit) st) := by
  rw [execList_append]
  simp only [walkData, hp, if_true, Stmt.execList, Stmt.exec]
  cases hget : st.src.get mem d.size with
  | none => rfl
  | some x =>
    obtain ⟨w, src⟩ := x
    simp only [Flow.andThen]
    by_cases hfit : d.fits .matching (st.read d w src) = true
    · simp only [hfit, if_true]
      exact walkOn_agrees explicit _ displaced
    · simp only [hfit]
      cases displaced with
      | true => exact ⟨_, rfl⟩
      | false => exact ⟨_, rfl⟩

theorem walkData_no_bits {d : StructData} (hp : d.presence ≠ .required) (hb : d.bits = none)
    (explicit : Bool) (st : GenState) (displaced : Bool) :
    (walkData mem explicit d st displaced).Agrees
      (Stmt.execList mem ([.labelled [.jumpIfEmpty, .read d]] ++ returnTrue !explicit) st) := by
  rw [execList_append, execList_single]
  simp only [walkData, hp, hb, if_false, Option.isNone_none, if_true, Stmt.execList, Stmt.exec]
  cases hempty : st.src.empty with
  | true =>
    simp only [if_true, Flow.andThen]
    exact walkOn_agrees explicit st displaced
  | false =>
    simp only [Bool.false_eq_true, if_false, Flow.andThen]
    cases hget : st.src.get mem d.size with
    | none => rfl
    | some x =>
      obtain ⟨w, src⟩ := x
      exact walkOn_agrees explicit _ _

theorem walkData_bits {d : StructData} {bits : List BitsSpec} (hp : d.presence ≠ .required)
    (hb : d.bits = some bits) (explicit : Bool) (st : GenState) (displaced : Bool) :
    (walkData mem explicit d st displaced).Agrees
      (Stmt.execList mem [.labelled ([.jumpIfEmpty, .peek d, .check .matching d, .advance d] ++
        returnTrue !explicit)] st) := by
  rw [execList_single]
  simp only [walkData, hp, hb, if_false, Option.isNone_some, Stmt.exec, execList_append,
    Stmt.execList]
  cases hempty : st.src.empty with
  | true =>
    simp only [if_true, Bool.false_eq_true, if_false, Flow.andThen]
    rfl
  | false =>
    simp only [Bool.false_eq_true, if_false, Flow.andThen, DataSrc.peek_eq]
    cases hget : st.src.get mem d.size with
    | none => rfl
    | some x =>
      obtain ⟨w, src⟩ := x
      simp only [Option.map_some]
      by_cases hfit : d.fits .matching (st.see d w) = true
      · simp only [hfit, if_true]
        cases explicit with
        | true => rfl
        | false => rfl
      · simp only [hfit]
        exact ⟨_, rfl⟩

theorem walkData_agrees (explicit : Bool) (d : StructData) (st : GenState) (displaced : Bool) :
    (walkData mem explicit d st displaced).Agrees
      (Stmt.execList mem (genMatchData d !explicit) st) := by
  cases hb : d.bits with
  | none =>
    cases hp : d.presence with
    | required =>
      have h := walkData_required mem hp explicit st displaced
      rw [execList_append] at h
      simp only [Stmt.execList, Stmt.exec, fits_of_no_bits hb, if_true] at h
      simp only [genMatchData, hb, hp, execList_append, Stmt.execList, Stmt.exec]
      cases hget : st.src.get mem d.size with
      | none =>
        rw [hget] at h
        exact h
      | some x =>
        rw [hget] at h
        exact h
    | optional | several =>
      simp only [genMatchData, hb, hp]
      exact walkData_no_bits (by rw [hp]; decide) hb explicit st displaced
  | some bits =>
    cases hp : d.presence with
    | required =>
      simp only [genMatchData, hb, hp]
      exact walkData_required mem hp explicit st displaced
    | optional | several =>
      simp only [genMatchData, hb, hp]
      exact walkData_bits (by rw [hp]; decide) hb explicit st displaced

theorem Walk.Agrees.function {walk : Walk} {code : List Stmt} {ended : Bool} {st : GenState}
    (h : walk.Agrees (Stmt.execList mem (code ++ returnFalse ended) st)) :
    (walk.andThen fun _ _ => .astray).Agrees
      (Stmt.execList mem (code ++ returnFalse true) st) := by
  rw [execList_append] at h ⊢
  cases ended with
  | false =>
    have hcode : walk.Agrees (Stmt.execList mem code st) := by
      cases hexec : Stmt.execList mem code st with
      | _ =>
        rw [hexec] at h
        exact h
    refine hcode.andThen ?_
    intro st' _ _
    exact ⟨st', rfl⟩
  | true =>
    cases walk with
    | through st' displaced =>
      exfalso
      cases hexec : Stmt.execList mem code st with
      | _ =>
        rw [hexec] at h
        cases h
    | _ => exact h

theorem walkDecl_agrees {block : Walk} {fcn : List Stmt} (args : List (String × Variable))
    (explicit : Bool) (st : GenState)
    (h : (block.andThen fun _ _ => .astray).Agrees (Stmt.execList mem fcn (st.call args))) :
    (walkDecl explicit st block).Agrees
      (Stmt.execList mem ([.checkMatchDecl args fcn] ++ returnTrue !explicit) st) := by
  rw [execList_append, execList_single]
  simp only [Stmt.exec]
  cases block with
  | ended st' =>
    rw [show Stmt.execList mem fcn (st.call args) = .ret st' true from h]
    exact walkOn_agrees explicit _ true
  | missing | inner =>
    rw [show Stmt.execList mem fcn (st.call args) = .error from h]
    rfl
  | rejected =>
    obtain ⟨st', hret⟩ := h
    rw [hret]
    rfl
  | astray =>
    obtain ⟨st', hret⟩ := h
    rw [hret]
    rfl
  | through st' displaced =>
    obtain ⟨st', hret⟩ := h
    rw [hret]
    rfl

mutual

theorem genMatch_agrees (mem : Memory) (explicit : Bool) : (item : StructItem) →
    (item.genMatch ⟨explicit, false⟩).2 = ⟨explicit, item.ends explicit⟩ ∧
      ∀ st displaced, (item.walk mem explicit st displaced).Agrees
        (Stmt.execList mem (item.genMatch ⟨explicit, false⟩).1 st)
  | .data d => by
    rw [StructItem.genMatch, canEnd_eq rfl]
    refine ⟨rfl, ?_⟩
    intro st displaced
    rw [StructItem.walk]
    exact walkData_agrees explicit d st displaced
  | .decl name args body => by
    obtain ⟨-, hbody⟩ := genMatchList_agrees mem (StructItem.anyMatchEnd body) body
    rw [StructItem.genMatch, canEnd_eq rfl]
    refine ⟨rfl, ?_⟩
    intro st displaced
    rw [StructItem.walk]
    exact walkDecl_agrees args explicit st (hbody (st.call args) false).function
  | .list index min max items => by
    obtain ⟨hmei, hitems⟩ := genMatchList_agrees mem explicit items
    simp only [StructItem.genMatch, hmei, StructItem.ends]
    refine ⟨trivial, ?_⟩
    intro st displaced
    rw [StructItem.walk, execList_single, Stmt.exec]
    exact walkFor_agrees index max hitems (2 ^ 32) _ st displaced
  | .cond expr items none => by
    obtain ⟨hmei, hitems⟩ := genMatchList_agrees mem explicit items
    simp only [StructItem.genMatch, hmei, StructItem.ends]
    refine ⟨trivial, ?_⟩
    intro st displaced
    rw [StructItem.walk, execList_single, Stmt.exec]
    split
    · exact (hitems st displaced).leave st
    · rfl
  | .cond expr items (some itemsElse) => by
    obtain ⟨hmei, hitems⟩ := genMatchList_agrees mem explicit items
    obtain ⟨hmeiElse, hitemsElse⟩ := genMatchList_agrees mem explicit itemsElse
    simp only [StructItem.genMatch, hmei, hmeiElse, StructItem.ends, Bool.false_or]
    refine ⟨trivial, ?_⟩
    intro st displaced
    rw [StructItem.walk, execList_single, Stmt.exec]
    split
    · exact (hitems st displaced).leave st
    · exact (hitemsElse st displaced).leave st
  | .matchEnd => by
    refine ⟨rfl, ?_⟩
    intro st displaced
    rfl
  | .member => ⟨rfl, fun _ _ => rfl⟩
  | .mark _ => ⟨rfl, fun _ _ => rfl⟩
  | .checkCount _ _ _ _ _ => ⟨rfl, fun _ _ => rfl⟩
  | .encode _ => ⟨rfl, fun _ _ => rfl⟩

theorem genMatchList_agrees (mem : Memory) (explicit : Bool) : (items : List StructItem) →
    (StructItem.genMatchList items ⟨explicit, false⟩).2 =
        ⟨explicit, StructItem.anyEnds explicit items⟩ ∧
      ∀ st displaced, (StructItem.walkList mem explicit items st displaced).Agrees
        (Stmt.execList mem ((StructItem.genMatchList items ⟨explicit, false⟩).1 ++
          returnFalse (StructItem.anyEnds explicit items)) st)
  | [] => ⟨rfl, fun _ _ => rfl⟩
  | item :: rest => by
    obtain ⟨hmei, hitem⟩ := genMatch_agrees mem explicit item
    obtain ⟨hmeiRest, hrest⟩ := genMatchList_agrees mem explicit rest
    simp only [StructItem.genMatchList, StructItem.anyEnds, StructItem.walkList, hmei]
    cases hends : item.ends explicit with
    | true =>
      simp only [if_true, Bool.true_or, true_and]
      intro st displaced
      rw [execList_append]
      refine (hitem st displaced).andThen ?_
      intro st' _ _
      exact ⟨st', rfl⟩
    | false =>
      simp only [Bool.false_eq_true, if_false, Bool.false_or, hmeiRest, true_and]
      intro st displaced
      rw [List.append_assoc, execList_append]
      refine (hitem st displaced).andThen ?_
      intro st' displaced' _
      exact hrest st' displaced'

end

theorem genMatchFcn_agrees (mem : Memory) (body : List StructItem) (st : GenState) :
    ((walkStruct mem body st).andThen fun _ _ => .astray).Agrees
      (Stmt.execList mem (genMatchFcn body) st) :=
  ((genMatchList_agrees mem (StructItem.anyMatchEnd body) body).2 st false).function

end Generated

end Ucesb
