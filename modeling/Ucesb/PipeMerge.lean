import Ucesb.ArrayHeap
import Mathlib.Algebra.BigOperators.Group.List.Basic
import Mathlib.Tactic.Ring

namespace Ucesb

section Pipe

variable {ε : Type}

inductive PipeMsg (ε : Type)
  | setup (request : UInt32)
  | ntupleFill (sort : List UInt32) (event : ε)
  | keepAlive (sort : List UInt32)
  | done
  | abort

/-- `ext_write_config_comm`: the messages from `_cur` on and the key of the item pre-parsed. -/
structure PipeComm (ε : Type) where
  src : Nat
  pending : List (PipeMsg ε)
  rawSort : List UInt32
  keepAliveEvent : Bool

/-- The loop over the sort words; `tie` decides when they are all equal. -/
def sortWordsLess : Nat → List UInt32 → List UInt32 → Bool → Bool
  | 0, _, _, tie => tie
  | words + 1, v1, v2, tie =>
    if v1.headD 0 < v2.headD 0 then true
    else if v1.headD 0 > v2.headD 0 then false
    else sortWordsLess words v1.tail v2.tail tie

def commNextItemCompareLess (words : Nat) (comm1 comm2 : PipeComm ε) : Bool :=
  sortWordsLess words comm1.rawSort comm2.rawSort
    (!comm1.keepAliveEvent && comm2.keepAliveEvent)

/-- `pre_handle_request`: other messages leave the key as it was. -/
def PipeComm.preHandleRequest (comm : PipeComm ε) : PipeComm ε :=
  match comm.pending with
  | .ntupleFill sort _ :: _ => { comm with rawSort := sort, keepAliveEvent := false }
  | .keepAlive sort :: _ => { comm with rawSort := sort, keepAliveEvent := true }
  | _ => comm

structure PipeState (ε : Type) where
  /-- sources that are still to be set up, in order -/
  waiting : List (PipeComm ε)
  heap : List (PipeComm ε)
  handled : List (Nat × ε)

inductive PipeStep (ε : Type)
  | next (s : PipeState ε)
  /-- `done_message`: the outputs are closed -/
  | closed
  | failed (msg : String)

def setupStep (words : Nat) (s : PipeState ε) (comm : PipeComm ε) (rest : List (PipeComm ε)) :
    PipeStep ε :=
  match comm.pending with
  | [] => .failed "Unexpected end of input."
  | .ntupleFill _ _ :: _ =>
    .next { s with
      waiting := rest
      heap := heapInsert (commNextItemCompareLess words) s.heap comm.preHandleRequest }
  | .done :: _ => .closed
  | .abort :: _ => .closed
  -- the first source handles what the others only check
  | .setup _ :: msgs => .next { s with waiting := { comm with pending := msgs } :: rest }
  | .keepAlive _ :: msgs => .next { s with waiting := { comm with pending := msgs } :: rest }

/-- `handle_request`: `none` to quit, else the events handled. -/
def handleRequest (src : Nat) : PipeMsg ε → Option (List (Nat × ε))
  | .setup _ => some []
  | .ntupleFill _ event => some [(src, event)]
  | .keepAlive _ => some []
  | .done => none
  | .abort => none

def mergeStep (words : Nat) (s : PipeState ε) : PipeStep ε :=
  match s.heap with
  | [] => .failed "no source"
  | comm :: others =>
    match comm.pending with
    | [] => .failed "Unexpected end of input."
    | msg :: msgs =>
      match handleRequest comm.src msg with
      | none => .closed
      | some events =>
        if msgs.isEmpty then .failed "Unexpected end of input."
        else
          let comm := { comm with pending := msgs }.preHandleRequest
          .next { s with
            heap := heapMoveDown (commNextItemCompareLess words) (others.length + 1)
              (comm :: others) 0
            handled := s.handled ++ events }

def pipeStep (words : Nat) (s : PipeState ε) : PipeStep ε :=
  match s.waiting with
  | comm :: rest => setupStep words s comm rest
  | [] =>
    if s.heap.length > 1 ∧ words = 0 then
      .failed "Multiple input sources, but 0 words for sorting in input streams."
    else mergeStep words s

/-- The outcome: the events handled when the outputs were closed, or an error. -/
def pipeCommunication (words : Nat) : Nat → PipeState ε → Option (Except String (List (Nat × ε)))
  | 0, _ => none
  | fuel + 1, s =>
    match pipeStep words s with
    | .next s => pipeCommunication words fuel s
    | .closed => some (.ok s.handled)
    | .failed msg => some (.error msg)

inductive PipeItem (ε : Type)
  | event (sort : List UInt32) (event : ε)
  | keepAlive (sort : List UInt32)

def PipeItem.msg : PipeItem ε → PipeMsg ε
  | .event sort ev => .ntupleFill sort ev
  | .keepAlive sort => .keepAlive sort

def PipeItem.sort : PipeItem ε → List UInt32
  | .event sort _ => sort
  | .keepAlive sort => sort

/-- A source as it is to be: set-up messages, items with non-decreasing sort words, and DONE. -/
structure PipeSource (ε : Type) (words : Nat) where
  setups : List UInt32
  items : List (PipeItem ε)
  sorted : items.Pairwise fun x y => sortWordsLess words y.sort x.sort false = false

def PipeSource.messages {words : Nat} (source : PipeSource ε words) : List (PipeMsg ε) :=
  source.setups.map .setup ++ source.items.map PipeItem.msg ++ [.done]

def PipeSource.comm {words : Nat} (source : PipeSource ε words) (src : Nat) : PipeComm ε :=
  ⟨src, source.messages, [], false⟩

def pipeStart {words : Nat} (sources : List (PipeSource ε words)) : PipeState ε :=
  ⟨sources.mapIdx fun i source => source.comm i, [], []⟩

def eventsOf (src : Nat) (msgs : List (PipeMsg ε)) : List (Nat × ε) :=
  msgs.filterMap fun msg =>
    match msg with
    | .ntupleFill _ event => some (src, event)
    | _ => none

def PipeComm.events (comm : PipeComm ε) : List (Nat × ε) := eventsOf comm.src comm.pending

def sourceEvents {words : Nat} (sources : List (PipeSource ε words)) : List (Nat × ε) :=
  (pipeStart sources).waiting.flatMap PipeComm.events

/-- The states from which the loops of `pipe_communication` take a message. -/
inductive PipeReach (words : Nat) (start : PipeState ε) : PipeState ε → Prop
  | start : PipeReach words start start
  | next {s t} : PipeReach words start s → pipeStep words s = .next t →
      PipeReach words start t

def PipeState.taken (s : PipeState ε) : Option (PipeComm ε × List (PipeComm ε)) :=
  match s.waiting, s.heap with
  | comm :: rest, heap => some (comm, rest ++ heap)
  | [], comm :: others => some (comm, others)
  | [], [] => none

/-- If the message that is taken is a DONE, no other source has an event left. -/
def PipeState.doneIsLast (s : PipeState ε) : Prop :=
  ∀ comm others msgs, s.taken = some (comm, others) → comm.pending = .done :: msgs →
    ∀ c ∈ others, c.events = []

end Pipe

section PipeMerge

variable {ε : Type} {words : Nat}

def PipeMsg.isEnd : PipeMsg ε → Bool
  | .done => true
  | .abort => true
  | _ => false

/-- What is left of a source ends with DONE and has no other end before it. -/
def EndsDone (msgs : List (PipeMsg ε)) : Prop :=
  ∃ pre, msgs = pre ++ [.done] ∧ ∀ msg ∈ pre, msg.isEnd = false

theorem EndsDone.cons {msg : PipeMsg ε} {msgs : List (PipeMsg ε)} (h : EndsDone (msg :: msgs)) :
    (msg = .done ∧ msgs = []) ∨ (msg.isEnd = false ∧ EndsDone msgs) := by
  obtain ⟨pre, he, hp⟩ := h
  cases pre with
  | nil =>
    simp only [List.nil_append, List.cons.injEq] at he
    exact .inl he
  | cons x pre =>
    simp only [List.cons_append, List.cons.injEq] at he
    obtain ⟨rfl, rfl⟩ := he
    exact .inr ⟨hp msg List.mem_cons_self,
      pre, rfl, fun m hm => hp m (List.mem_cons_of_mem _ hm)⟩

theorem EndsDone.ne_nil {msgs : List (PipeMsg ε)} (h : EndsDone msgs) : msgs ≠ [] := by
  obtain ⟨pre, rfl, -⟩ := h
  simp

def PipeState.comms (s : PipeState ε) : List (PipeComm ε) := s.waiting ++ s.heap

structure PipeInv (all : List (Nat × ε)) (nsrc : Nat) (s : PipeState ε) : Prop where
  ends : ∀ c ∈ s.comms, EndsDone c.pending
  events : (s.handled ++ s.comms.flatMap PipeComm.events).Perm all
  size : s.comms.length = nsrc

theorem preHandleRequest_same (comm : PipeComm ε) :
    comm.preHandleRequest.src = comm.src ∧ comm.preHandleRequest.pending = comm.pending := by
  unfold PipeComm.preHandleRequest
  split
  · exact ⟨rfl, rfl⟩
  · exact ⟨rfl, rfl⟩
  · exact ⟨rfl, rfl⟩

theorem preHandleRequest_events (comm : PipeComm ε) :
    comm.preHandleRequest.events = comm.events := by
  obtain ⟨h1, h2⟩ := preHandleRequest_same comm
  unfold PipeComm.events
  rw [h1, h2]

def PipeState.left (s : PipeState ε) : Nat :=
  (s.comms.map fun c => c.pending.length).sum + s.waiting.length

theorem PipeInv.of_perm {all : List (Nat × ε)} {nsrc : Nat} {s t : PipeState ε} {c d : PipeComm ε}
    {others : List (PipeComm ε)} {events : List (Nat × ε)} (h : PipeInv all nsrc s)
    (hs : s.comms.Perm (c :: others)) (ht : t.comms.Perm (d :: others))
    (hd : EndsDone d.pending) (hev : c.events = events ++ d.events)
    (hh : t.handled = s.handled ++ events) : PipeInv all nsrc t := by
  refine ⟨?_, ?_, ?_⟩
  · intro x hx
    rcases List.mem_cons.mp (ht.mem_iff.mp hx) with rfl | hx
    · exact hd
    · exact h.ends x (hs.mem_iff.mpr (List.mem_cons_of_mem _ hx))
  · have h1 : (s.comms.flatMap PipeComm.events).Perm
        (events ++ (d.events ++ others.flatMap PipeComm.events)) := by
      have := hs.flatMap_right PipeComm.events
      rw [List.flatMap_cons, hev, List.append_assoc] at this
      exact this
    have h2 : (t.comms.flatMap PipeComm.events).Perm
        (d.events ++ others.flatMap PipeComm.events) := by
      have := ht.flatMap_right PipeComm.events
      rwa [List.flatMap_cons] at this
    rw [hh, List.append_assoc]
    exact ((List.Perm.append_left _ (List.Perm.append_left _ h2)).trans
      (List.Perm.append_left _ h1.symm)).trans h.events
  · rw [← h.size, ht.length_eq, hs.length_eq]
    rfl

theorem left_of_perm {s : PipeState ε} {c : PipeComm ε} {others : List (PipeComm ε)}
    (hs : s.comms.Perm (c :: others)) :
    s.left = c.pending.length + (others.map fun c => c.pending.length).sum + s.waiting.length := by
  unfold PipeState.left
  rw [(hs.map _).sum_eq, List.map_cons, List.sum_cons]

theorem events_tail {c : PipeComm ε} {msg : PipeMsg ε} {msgs : List (PipeMsg ε)}
    {events : List (Nat × ε)} (hp : c.pending = msg :: msgs)
    (hh : handleRequest c.src msg = some events) :
    c.events = events ++ PipeComm.events { c with pending := msgs } := by
  unfold PipeComm.events eventsOf
  rw [hp]
  cases msg with
  | done => cases hh
  | abort => cases hh
  | _ => cases hh; rfl

theorem handleRequest_some {src : Nat} {msg : PipeMsg ε} (h : msg.isEnd = false) :
    ∃ events, handleRequest src msg = some events := by
  cases msg with
  | done => cases h
  | abort => cases h
  | _ => exact ⟨_, rfl⟩

/-- What a step does: a message less and nothing lost, or the end at a DONE. -/
def StepOutcome (all : List (Nat × ε)) (nsrc : Nat) (s : PipeState ε) : PipeStep ε → Prop
  | .next t => PipeInv all nsrc t ∧ t.left < s.left
  | .closed => ∃ comm others, s.taken = some (comm, others) ∧ comm.pending = [.done]
  | .failed _ => False

theorem setupStep_outcome {all : List (Nat × ε)} {nsrc : Nat} {s : PipeState ε}
    {comm : PipeComm ε} {rest : List (PipeComm ε)} (h : PipeInv all nsrc s)
    (hw : s.waiting = comm :: rest) : StepOutcome all nsrc s (setupStep words s comm rest) := by
  have hs : s.comms.Perm (comm :: (rest ++ s.heap)) := by
    unfold PipeState.comms
    rw [hw]
    exact List.Perm.refl _
  have hends : EndsDone comm.pending := h.ends comm (hs.mem_iff.mpr List.mem_cons_self)
  -- a message is passed over
  have hpass : ∀ msg msgs, comm.pending = msg :: msgs → handleRequest comm.src msg = some [] →
      EndsDone msgs → StepOutcome all nsrc s
        (.next { s with waiting := { comm with pending := msgs } :: rest }) := by
    intro msg msgs hp hh hm
    refine ⟨h.of_perm hs (List.Perm.refl _) hm (events_tail hp hh) (List.append_nil _).symm, ?_⟩
    rw [left_of_perm hs, hw, hp]
    rw [@left_of_perm ε _ { comm with pending := msgs } (rest ++ s.heap) (List.Perm.refl _)]
    simp
  unfold setupStep
  split
  · rename_i hp
    exact hends.ne_nil hp
  · -- the first event: the source goes to the heap
    have ht : (PipeState.comms { s with
        waiting := rest
        heap := heapInsert (commNextItemCompareLess words) s.heap comm.preHandleRequest }).Perm
        (comm.preHandleRequest :: (rest ++ s.heap)) := by
      unfold PipeState.comms
      exact ((heapInsert_perm _ _).append_left rest).trans List.perm_middle
    obtain ⟨-, hpend⟩ := preHandleRequest_same comm
    refine ⟨h.of_perm hs ht (by rw [hpend]; exact hends)
      (preHandleRequest_events comm).symm (List.append_nil _).symm, ?_⟩
    rw [left_of_perm hs, left_of_perm ht, hpend, hw]
    simp
  · rename_i msgs hp
    rw [hp] at hends
    rcases hends.cons with ⟨-, rfl⟩ | ⟨hf, -⟩
    · refine ⟨comm, rest ++ s.heap, ?_, hp⟩
      unfold PipeState.taken
      rw [hw]
    · cases hf
  · rename_i msgs hp
    rw [hp] at hends
    rcases hends.cons with ⟨he, -⟩ | ⟨hf, -⟩
    · cases he
    · cases hf
  · rename_i r msgs hp
    rw [hp] at hends
    rcases hends.cons with ⟨he, -⟩ | ⟨-, hm⟩
    · cases he
    · exact hpass _ _ hp rfl hm
  · rename_i sort msgs hp
    rw [hp] at hends
    rcases hends.cons with ⟨he, -⟩ | ⟨-, hm⟩
    · cases he
    · exact hpass _ _ hp rfl hm

theorem mergeStep_outcome {all : List (Nat × ε)} {nsrc : Nat} {s : PipeState ε}
    (h : PipeInv all nsrc s) (hn : 0 < nsrc) (hw : s.waiting = []) :
    StepOutcome all nsrc s (mergeStep words s) := by
  unfold mergeStep
  split
  · rename_i hheap
    have := h.size
    unfold PipeState.comms at this
    rw [hw, hheap] at this
    simp only [List.append_nil, List.length_nil] at this
    omega
  · rename_i comm others hheap
    have hs : s.comms.Perm (comm :: others) := by
      unfold PipeState.comms
      rw [hw, hheap]
      exact List.Perm.refl _
    have hends : EndsDone comm.pending := h.ends comm (hs.mem_iff.mpr List.mem_cons_self)
    split
    · rename_i hp
      exact hends.ne_nil hp
    · rename_i msg msgs hp
      rw [hp] at hends
      split
      · rename_i hnone
        rcases hends.cons with ⟨rfl, rfl⟩ | ⟨hf, -⟩
        · refine ⟨comm, others, ?_, hp⟩
          unfold PipeState.taken
          rw [hw, hheap]
        · obtain ⟨events, he⟩ := @handleRequest_some ε comm.src msg hf
          rw [he] at hnone
          cases hnone
      · rename_i events hh
        rcases hends.cons with ⟨rfl, rfl⟩ | ⟨hf, hm⟩
        · cases hh
        · rw [if_neg (by simpa using hm.ne_nil)]
          obtain ⟨-, hpend⟩ := @preHandleRequest_same ε { comm with pending := msgs }
          have ht : (PipeState.comms { s with
              heap := heapMoveDown (commNextItemCompareLess words) (others.length + 1)
                (PipeComm.preHandleRequest { comm with pending := msgs } :: others) 0
              handled := s.handled ++ events }).Perm
              (PipeComm.preHandleRequest { comm with pending := msgs } :: others) := by
            unfold PipeState.comms
            rw [hw]
            exact heapMoveDown_perm _ _ _
          refine ⟨h.of_perm hs ht (by rw [hpend]; exact hm) ?_ rfl, ?_⟩
          · rw [preHandleRequest_events]
            exact events_tail hp hh
          · rw [left_of_perm hs, left_of_perm ht, hpend, hp]
            simp

theorem pipeStep_outcome {all : List (Nat × ε)} {nsrc : Nat} {s : PipeState ε}
    (h : PipeInv all nsrc s) (hn : 0 < nsrc) (hwords : nsrc ≤ 1 ∨ 0 < words) :
    StepOutcome all nsrc s (pipeStep words s) := by
  unfold pipeStep
  split
  · rename_i comm rest hw
    exact setupStep_outcome h hw
  · rename_i hw
    rw [if_neg]
    · exact mergeStep_outcome h hn hw
    · rintro ⟨h1, h2⟩
      have hsize := h.size
      unfold PipeState.comms at hsize
      rw [hw, List.nil_append] at hsize
      omega

variable {all : List (Nat × ε)} {nsrc : Nat}

theorem PipeReach.inv {start s : PipeState ε} (hr : PipeReach words start s)
    (h : PipeInv all nsrc start) (hn : 0 < nsrc) (hwords : nsrc ≤ 1 ∨ 0 < words) :
    PipeInv all nsrc s := by
  induction hr with
  | start => exact h
  | next _ hs ih =>
    have ho := pipeStep_outcome ih hn hwords
    rw [hs] at ho
    exact ho.1

theorem PipeReach.trans {s t u : PipeState ε} (h : PipeReach words s t)
    (h' : PipeReach words t u) : PipeReach words s u := by
  induction h' with
  | start => exact h
  | next _ hs ih => exact PipeReach.next ih hs

theorem pipe_closes (hn : 0 < nsrc) (hwords : nsrc ≤ 1 ∨ 0 < words) :
    ∀ s : PipeState ε, PipeInv all nsrc s → ∃ fuel t, PipeReach words s t ∧
      pipeStep words t = .closed ∧ pipeCommunication words fuel s = some (.ok t.handled) := by
  intro s
  induction hm : s.left using Nat.strongRecOn generalizing s with
  | _ m ih =>
    intro h
    have ho := pipeStep_outcome h hn hwords
    cases hs : pipeStep words s with
    | next t =>
      rw [hs] at ho
      obtain ⟨fuel, u, hr, hc, hrun⟩ := ih t.left (by rw [← hm]; exact ho.2) t rfl ho.1
      refine ⟨fuel + 1, u, (PipeReach.next PipeReach.start hs).trans hr, hc, ?_⟩
      unfold pipeCommunication
      rw [hs]
      exact hrun
    | closed =>
      refine ⟨1, s, PipeReach.start, hs, ?_⟩
      unfold pipeCommunication
      rw [hs]
    | failed msg =>
      rw [hs] at ho
      exact ho.elim

theorem pipeCommunication_reach {start s : PipeState ε} (hr : PipeReach words start s)
    {fuel : Nat} {r : Except String (List (Nat × ε))}
    (h : pipeCommunication words fuel start = some r) :
    ∃ fuel, pipeCommunication words fuel s = some r := by
  induction hr with
  | start => exact ⟨fuel, h⟩
  | next _ hs ih =>
    obtain ⟨k, hk⟩ := ih
    cases k with
    | zero => cases hk
    | succ k =>
      unfold pipeCommunication at hk
      rw [hs] at hk
      exact ⟨k, hk⟩

theorem pipeCommunication_more {s : PipeState ε} {fuel : Nat}
    {r : Except String (List (Nat × ε))} (k : Nat) (h : pipeCommunication words fuel s = some r) :
    pipeCommunication words (fuel + k) s = some r := by
  induction fuel generalizing s with
  | zero => cases h
  | succ fuel ih =>
    rw [Nat.add_right_comm]
    unfold pipeCommunication at h ⊢
    cases hs : pipeStep words s with
    | next t =>
      rw [hs] at h
      exact ih h
    | closed =>
      rw [hs] at h
      exact h
    | failed msg =>
      rw [hs] at h
      exact h

theorem pipe_outcome_unique {start s : PipeState ε} (hr : PipeReach words start s)
    (hc : pipeStep words s = .closed) {fuel : Nat} {r : Except String (List (Nat × ε))}
    (h : pipeCommunication words fuel start = some r) : r = .ok s.handled := by
  obtain ⟨k, hk⟩ := pipeCommunication_reach hr h
  cases k with
  | zero => cases hk
  | succ k =>
    unfold pipeCommunication at hk
    rw [hc] at hk
    exact (Option.some.inj hk).symm

theorem taken_perm {s : PipeState ε} {comm : PipeComm ε} {others : List (PipeComm ε)}
    (h : s.taken = some (comm, others)) : s.comms.Perm (comm :: others) := by
  unfold PipeState.taken at h
  unfold PipeState.comms
  split at h
  · rename_i hw
    cases h
    rw [hw]
    exact List.Perm.refl _
  · rename_i hw hh
    cases h
    rw [hw, hh]
    exact List.Perm.refl _
  · cases h

theorem pipeStep_done {s : PipeState ε} {comm : PipeComm ε} {others : List (PipeComm ε)}
    {msgs : List (PipeMsg ε)} (h : s.taken = some (comm, others))
    (hp : comm.pending = .done :: msgs) (t : PipeState ε) : pipeStep words s ≠ .next t := by
  intro hs
  unfold PipeState.taken at h
  split at h
  · rename_i hw
    cases h
    simp only [pipeStep, hw, setupStep, hp] at hs
    cases hs
  · rename_i hw hh
    cases h
    simp only [pipeStep, hw, mergeStep, hh, hp, handleRequest] at hs
    split at hs <;> cases hs
  · cases h

theorem handled_perm_iff {s : PipeState ε} (h : PipeInv all nsrc s) {comm : PipeComm ε}
    {others : List (PipeComm ε)} (ht : s.taken = some (comm, others))
    (hp : comm.pending = [.done]) : s.handled.Perm all ↔ ∀ c ∈ others, c.events = [] := by
  have hcomm : comm.events = [] := by
    unfold PipeComm.events
    rw [hp]
    rfl
  have hflat : (s.comms.flatMap PipeComm.events).Perm (others.flatMap PipeComm.events) := by
    have := (taken_perm ht).flatMap_right PipeComm.events
    rwa [List.flatMap_cons, hcomm, List.nil_append] at this
  have hall : (s.handled ++ others.flatMap PipeComm.events).Perm all :=
    (List.Perm.append_left _ hflat.symm).trans h.events
  constructor
  · intro hperm
    have hlen := hall.length_eq
    rw [List.length_append, hperm.length_eq] at hlen
    have hz : others.flatMap PipeComm.events = [] := List.length_eq_zero_iff.mp (by omega)
    exact List.flatMap_eq_nil_iff.mp hz
  · intro hz
    rw [List.flatMap_eq_nil_iff.mpr hz, List.append_nil] at hall
    exact hall

theorem pipeStart_inv (sources : List (PipeSource ε words)) :
    PipeInv (sourceEvents sources) sources.length (pipeStart sources) := by
  refine ⟨?_, ?_, ?_⟩
  · intro c hc
    unfold PipeState.comms pipeStart at hc
    rw [List.append_nil] at hc
    obtain ⟨i, hi, rfl⟩ := List.mem_mapIdx.mp hc
    refine ⟨sources[i].setups.map .setup ++ sources[i].items.map PipeItem.msg, rfl, ?_⟩
    intro msg hm
    rcases List.mem_append.mp hm with hm | hm
    · obtain ⟨r, -, rfl⟩ := List.mem_map.mp hm
      rfl
    · obtain ⟨item, -, rfl⟩ := List.mem_map.mp hm
      cases item <;> rfl
  · unfold PipeState.comms sourceEvents
    exact List.Perm.of_eq (by simp [pipeStart])
  · unfold PipeState.comms pipeStart
    simp

/-- The outputs are closed after a DONE, and every event has been handled once exactly when no
DONE is taken while another source has an event left. -/
theorem pipeCommunication_handles_all (source : PipeSource ε words)
    (others : List (PipeSource ε words)) (hwords : others = [] ∨ 0 < words) :
    ∃ fuel handled,
      pipeCommunication words fuel (pipeStart (source :: others)) = some (.ok handled) ∧
      (handled.Perm (sourceEvents (source :: others)) ↔
        ∀ s, PipeReach words (pipeStart (source :: others)) s → s.doneIsLast) := by
  have hstart := pipeStart_inv (source :: others)
  have hn : 0 < (source :: others).length := by simp
  have hw : (source :: others).length ≤ 1 ∨ 0 < words := by
    rcases hwords with rfl | hw
    · exact .inl (by simp)
    · exact .inr hw
  obtain ⟨fuel, t, hreach, hclosed, hrun⟩ := pipe_closes hn hw _ hstart
  have hinv := hreach.inv hstart hn hw
  have ho := pipeStep_outcome hinv hn hw
  rw [hclosed] at ho
  obtain ⟨comm, rest, htaken, hpend⟩ := ho
  refine ⟨fuel, t.handled, hrun, ?_⟩
  constructor
  · intro hperm s hs c os msgs htake hdone
    -- the state that takes a DONE is the last one
    have hsinv := hs.inv hstart hn hw
    have hc : c ∈ s.comms := (taken_perm htake).mem_iff.mpr List.mem_cons_self
    have hmsgs : c.pending = [.done] := by
      have he := hsinv.ends c hc
      rw [hdone] at he ⊢
      rcases he.cons with ⟨-, rfl⟩ | ⟨hf, -⟩
      · rfl
      · cases hf
    have hsclosed : pipeStep words s = .closed := by
      cases hstep : pipeStep words s with
      | closed => rfl
      | failed msg =>
        have hso := pipeStep_outcome hsinv hn hw
        rw [hstep] at hso
        exact hso.elim
      | next u => exact absurd hstep (pipeStep_done htake hdone u)
    have heq : (Except.ok t.handled : Except String (List (Nat × ε))) = .ok s.handled :=
      pipe_outcome_unique hs hsclosed hrun
    have hh : t.handled = s.handled := by simpa using heq
    rw [hh] at hperm
    exact (handled_perm_iff hsinv htake hmsgs).mp hperm
  · intro hcond
    exact (handled_perm_iff hinv htaken hpend).mpr
      (hcond t hreach comm rest [] htaken hpend)

end PipeMerge

/-- A source with one event, and a keep-alive with the same sort words after it or not. -/
def oneEvent (sort : UInt32) (event : Nat) (keepAlive : Bool) : PipeSource Nat 1 where
  setups := [1, 2]
  items := .event [sort] event :: if keepAlive then [.keepAlive [sort]] else []
  sorted := by
    cases keepAlive
    · exact List.pairwise_singleton _ _
    · simp [PipeItem.sort, sortWordsLess]

theorem pipeCommunication_handles_all_demo :
    ∃ fuel handled, pipeCommunication 1 fuel (pipeStart [oneEvent 7 10 true, oneEvent 7 11 true]) =
      some (.ok handled) ∧
      (handled.Perm [(0, 10), (1, 11)] ↔
        ∀ s, PipeReach 1 (pipeStart [oneEvent 7 10 true, oneEvent 7 11 true]) s → s.doneIsLast) :=
  pipeCommunication_handles_all (oneEvent 7 10 true) [oneEvent 7 11 true] (.inr (by decide))

theorem pipeCommunication_loses_event :
    ¬ ∀ (words : Nat) (source : PipeSource Nat words) (others : List (PipeSource Nat words)),
      0 < words → ∃ fuel handled,
        pipeCommunication words fuel (pipeStart (source :: others)) = some (.ok handled) ∧
        handled.Perm (sourceEvents (source :: others)) := by
  intro hall
  obtain ⟨fuel, handled, hrun, hperm⟩ :=
    hall 1 (oneEvent 1 10 false) [oneEvent 2 11 false] (by decide)
  have hone : pipeCommunication 1 8 (pipeStart [oneEvent 1 10 false, oneEvent 2 11 false]) =
      some (.ok [(0, 10)]) := rfl
  have hlen : handled.length = 2 := hperm.length_eq
  have h1 := pipeCommunication_more 8 hrun
  have h2 := pipeCommunication_more fuel hone
  rw [Nat.add_comm, h2] at h1
  cases Option.some.inj h1
  cases hlen

end Ucesb
