import Ucesb.ShmInvariant

namespace Ucesb

def eventWords (out : List ReadEvent) : List Nat := out.flatMap ReadEvent.words

def ReadEvent.At (s : ShmRead) (e : ReadEvent) (written : Nat) : Prop :=
  s.readerCur + s.maxMsg ≤ s.size ∧ (∃ rest, s.pending = e :: rest) ∧
    WordsAt s.mem s.readerCur (e.words.take written)

def ReaderInv (s : ShmRead) : Prop :=
  match s.reader with
  | .looping => True
  | .wasting => False
  | .writing written => ∃ e : ReadEvent, e.At s written ∧ written < e.words.length
  | .committing => ∃ e : ReadEvent, e.At s e.words.length
  | .ended => True

def UnpackerInv (s : ShmRead) (out : List ReadEvent) : Prop :=
  match s.unpacker with
  | .waiting space false => space = bufHeaderSize
  | .waiting space true => ∃ e rest, out = e :: rest ∧ space = 4 * e.words.length
  | .looking _ false => out ≠ []
  | .looking space true => ∃ e rest, out = e :: rest ∧ space = 4 * e.words.length
  | .holding cells => ∃ e rest, out = e :: rest ∧ cells = e.words.length
  | .stopped => out ≠ []
  | .failed _ => False

def UnpackerPhase.pending (phase : UnpackerPhase) (out : List ReadEvent) : List ReadEvent :=
  match phase with
  | .holding _ => out.tail
  | .stopped => out.tail
  | _ => out

def ShmRead.written (s : ShmRead) : List ReadEvent :=
  match s.reader with
  | .committing => s.pending.take 1
  | _ => []

theorem ShmRead.written_eq {s : ShmRead} (h : s.reader ≠ .committing) : s.written = [] := by
  unfold ShmRead.written
  split
  · next hc => exact absurd hc h
  · rfl

theorem ShmRead.unwritten_eq {s : ShmRead} (h : s.reader ≠ .committing) :
    s.unwritten = s.pending := by
  unfold ShmRead.unwritten
  split
  · next hc => exact absurd hc h
  · rfl

structure ReadInv (s : ShmRead) (events out : List ReadEvent) : Prop where
  laid : WordsAt s.mem s.unpackerCur (eventWords out)
  cur_eq : s.readerCur = s.unpackerCur + (eventWords out).length
  cur_le : s.readerCur ≤ s.size
  size_lt : 4 * s.size < 2 ^ 32
  counters : s.avail = s.done + BitVec.ofNat 64 (4 * (eventWords out).length)
  reader : ReaderInv s
  unpacker : UnpackerInv s out
  fit : ∀ e ∈ s.pending, e.words.length ≤ s.maxMsg
  logged : s.placed = s.taken ++ (s.unpacker.pending out ++ s.written).map ReadEvent.words
  placed_events : s.placed ++ s.unwritten.map ReadEvent.words = events.map ReadEvent.words

section ReadSteps

variable {s s' : ShmRead} {events out : List ReadEvent}

theorem eventWords_cons (e : ReadEvent) (out : List ReadEvent) :
    eventWords (e :: out) = e.words ++ eventWords out := by
  simp only [eventWords, List.flatMap_cons]

theorem eventWords_append (out more : List ReadEvent) :
    eventWords (out ++ more) = eventWords out ++ eventWords more := by
  simp only [eventWords, List.flatMap_append]

theorem wordsAt_append {mem : Nat → Nat} {cur : Nat} {xs ys : List Nat} :
    WordsAt mem cur (xs ++ ys) ↔ WordsAt mem cur xs ∧ WordsAt mem (cur + xs.length) ys := by
  constructor
  · intro h
    constructor
    · intro i hi
      rw [h i (by rw [List.length_append]; omega), List.getElem_append_left hi]
    · intro i hi
      have hx := h (xs.length + i) (by rw [List.length_append]; omega)
      rw [List.getElem_append_right (Nat.le_add_right _ _)] at hx
      rw [Nat.add_assoc, hx]
      simp
  · rintro ⟨hx, hy⟩ i hi
    by_cases hix : i < xs.length
    · rw [List.getElem_append_left hix]
      exact hx i hix
    · rw [List.length_append] at hi
      rw [List.getElem_append_right (by omega)]
      have := hy (i - xs.length) (by omega)
      rw [← this]
      congr 1
      omega

theorem ReadEvent.words_length (e : ReadEvent) : e.words.length = e.body.length + 2 := rfl

theorem ReadInv.diff (h : ReadInv s events out) :
    (s.avail - s.done).toNat = 4 * (eventWords out).length := by
  have hle := h.cur_le
  have hcur := h.cur_eq
  have hsize := h.size_lt
  have hd : s.avail - s.done = BitVec.ofNat 64 (4 * (eventWords out).length) := by
    rw [h.counters]
    ring
  rw [hd, BitVec.toNat_ofNat, Nat.mod_eq_of_lt (by omega)]

theorem UnpackerInv.append (h : UnpackerInv s out) (hu : s'.unpacker = s.unpacker)
    (more : List ReadEvent) : UnpackerInv s' (out ++ more) := by
  unfold UnpackerInv at h ⊢
  rw [hu]
  split at h
  · exact h
  · obtain ⟨e, rest, rfl, hs⟩ := h
    exact ⟨e, rest ++ more, rfl, hs⟩
  · simp [h]
  · obtain ⟨e, rest, rfl, hs⟩ := h
    exact ⟨e, rest ++ more, rfl, hs⟩
  · obtain ⟨e, rest, rfl, hs⟩ := h
    exact ⟨e, rest ++ more, rfl, hs⟩
  · simp [h]
  · exact h

theorem UnpackerInv.congr (h : UnpackerInv s out) (hu : s'.unpacker = s.unpacker) :
    UnpackerInv s' out := by
  have := h.append hu []
  rwa [List.append_nil] at this

theorem UnpackerInv.pending_append (h : UnpackerInv s out) (more : List ReadEvent) :
    s.unpacker.pending (out ++ more) = s.unpacker.pending out ++ more := by
  unfold UnpackerInv at h
  cases hph : s.unpacker with
  | holding cells =>
    rw [hph] at h
    obtain ⟨e, rest, rfl, _⟩ := h
    rfl
  | stopped =>
    rw [hph] at h
    exact List.tail_append_of_ne_nil h
  | _ => rfl

theorem ReadInv.laid_write (h : ReadInv s events out) {off : Nat} {words : List Nat}
    (hoff : s.readerCur ≤ off) :
    WordsAt (writeCells s.mem off words) s.unpackerCur (eventWords out) := by
  apply wordsAt_congr _ h.laid
  intro a ha
  have har := List.mem_range'_1.mp ha
  have hcur := h.cur_eq
  exact writeCells_of_lt (by omega)

theorem ReadInv.loop (h : ReadInv s events out) (hph : s.reader = .looping)
    {cells : Nat} (hok : staysLinear s (.produce cells) = true)
    (hs : s.produce cells = some s') : ReadInv s' events out := by
  have hl := h.logged
  have hp := h.placed_events
  unfold ShmRead.written at hl
  unfold ShmRead.unwritten at hp
  rw [hph] at hl hp
  simp only [staysLinear, hph, Bool.or_eq_true, decide_eq_true_eq] at hok
  cases hpend : s.pending with
  | nil =>
    simp only [ShmRead.produce, hph, hpend] at hs
    cases hs
  | cons e rest =>
    simp only [ShmRead.produce, hph, hpend] at hs
    split at hs
    · cases hs
      exact h
    · next hspace =>
      rcases hok with hok | hlin
      · exact absurd hok hspace
      · rw [if_neg (by omega)] at hs
        cases hs
        have hcur := h.cur_le
        have hmax := h.fit e (by rw [hpend]; exact List.mem_cons_self)
        have hlen := e.words_length
        refine { h with
          reader := ⟨e, ⟨?_, ⟨rest, rfl⟩, ?_⟩, by omega⟩
          unpacker := h.unpacker.congr rfl
          fit := by
            rw [← hpend]
            exact h.fit
          logged := hl
          placed_events := by
            rw [hpend] at hp
            exact hp }
        · show s.readerCur + s.maxMsg ≤ s.size
          omega
        · intro i hi
          simp at hi

theorem ReadInv.write (h : ReadInv s events out) {k : Nat} (hph : s.reader = .writing k)
    {cells : Nat} (hs : s.produce cells = some s') : ReadInv s' events out := by
  have hl := h.logged
  have hp := h.placed_events
  have hr := h.reader
  unfold ShmRead.written at hl
  unfold ShmRead.unwritten at hp
  unfold ReaderInv at hr
  rw [hph] at hl hp hr
  obtain ⟨e, ⟨hlin, ⟨rest, hpend⟩, hwords⟩, hk⟩ := hr
  have hlaid := @ReadInv.laid_write s events out h (s.readerCur + k)
    ((e.words.drop k).take cells) (Nat.le_add_right _ _)
  have hnew := @wordsAt_write Nat s.mem s.readerCur k cells e.words hwords
  simp only [ShmRead.produce, hph, hpend] at hs
  by_cases hmore : k + cells < e.words.length
  · rw [if_pos hmore] at hs
    cases hs
    exact { h with
      laid := hlaid
      reader := ⟨e, ⟨hlin, ⟨rest, rfl⟩, hnew⟩, hmore⟩
      unpacker := h.unpacker.congr rfl
      fit := by
        rw [← hpend]
        exact h.fit
      logged := hl
      placed_events := by
        rw [hpend] at hp
        exact hp }
  · rw [if_neg hmore] at hs
    cases hs
    have hall : e.words.take (k + cells) = e.words := List.take_of_length_le (by omega)
    rw [hall] at hnew
    exact { h with
      laid := hlaid
      reader := ⟨e, hlin, ⟨rest, rfl⟩, by rw [List.take_length]; exact hnew⟩
      unpacker := h.unpacker.congr rfl
      fit := by
        rw [← hpend]
        exact h.fit
      logged := by
        show s.placed ++ [e.words] = s.taken ++ (s.unpacker.pending out ++ [e]).map ReadEvent.words
        rw [hl]
        simp
      placed_events := by
        show s.placed ++ [e.words] ++ rest.map ReadEvent.words = _
        rw [← hp, hpend]
        simp }

theorem ReadInv.commit (h : ReadInv s events out) (hph : s.reader = .committing)
    {cells : Nat} (hs : s.produce cells = some s') : ∃ out', ReadInv s' events out' := by
  have hl := h.logged
  have hp := h.placed_events
  have hr := h.reader
  unfold ShmRead.written at hl
  unfold ShmRead.unwritten at hp
  unfold ReaderInv at hr
  rw [hph] at hl hp hr
  obtain ⟨e, hlin, ⟨rest, hpend⟩, hwords⟩ := hr
  rw [List.take_length] at hwords
  have hfit := h.fit e (by rw [hpend]; exact List.mem_cons_self)
  have hcur := h.cur_eq
  have hone : eventWords [e] = e.words := by
    rw [eventWords_cons]
    exact List.append_nil _
  have hlen : (eventWords (out ++ [e])).length = (eventWords out).length + e.words.length := by
    rw [eventWords_append, hone, List.length_append]
  have hnext : (if e.more then ReaderPhase.looping else ReaderPhase.ended) ≠ .committing := by
    cases e.more <;> decide
  simp only [ShmRead.produce, hph, hpend] at hs
  cases hs
  refine ⟨out ++ [e], ?_⟩
  exact { h with
    laid := by
      rw [eventWords_append, hone]
      refine wordsAt_append.mpr ⟨h.laid, ?_⟩
      rw [← hcur]
      exact hwords
    cur_eq := by
      show s.readerCur + e.words.length = _
      rw [hlen]
      show _ = s.unpackerCur + _
      omega
    cur_le := by
      show s.readerCur + e.words.length ≤ s.size
      omega
    counters := by
      show s.avail + BitVec.ofNat 64 (4 * e.words.length) = s.done + _
      rw [hlen, h.counters, Nat.mul_add, BitVec.ofNat_add, BitVec.add_assoc]
    reader := by
      unfold ReaderInv
      cases e.more <;> trivial
    unpacker := h.unpacker.append rfl _
    fit := by
      intro x hx
      exact h.fit x (by rw [hpend]; exact List.mem_cons_of_mem _ hx)
    logged := by
      rw [hpend] at hl
      rw [ShmRead.written_eq hnext, List.append_nil]
      show s.placed = s.taken ++ (s.unpacker.pending (out ++ [e])).map ReadEvent.words
      rw [h.unpacker.pending_append, hl]
      rfl
    placed_events := by
      rw [hpend] at hp
      rw [ShmRead.unwritten_eq hnext]
      exact hp }

theorem ReadInv.produce (h : ReadInv s events out) {cells : Nat}
    (hok : staysLinear s (.produce cells) = true) (hs : s.produce cells = some s') :
    ∃ out', ReadInv s' events out' := by
  cases hph : s.reader with
  | looping => exact ⟨out, h.loop hph hok hs⟩
  | wasting =>
    have hr := h.reader
    unfold ReaderInv at hr
    rw [hph] at hr
    exact absurd hr not_false
  | writing k => exact ⟨out, h.write hph hs⟩
  | committing => exact h.commit hph hs
  | ended =>
    simp only [ShmRead.produce, hph] at hs
    cases hs

theorem ReadInv.congr_unpacker (h : ReadInv s events out) {phase : UnpackerPhase}
    {taken : List (List Nat)} (hu : UnpackerInv { s with unpacker := phase } out)
    (hl : taken ++ (phase.pending out).map ReadEvent.words =
      s.taken ++ (s.unpacker.pending out).map ReadEvent.words) :
    ReadInv { s with taken := taken, unpacker := phase } events out := by
  have hlogged := h.logged
  exact { h with
    reader := h.reader
    unpacker := by
      unfold UnpackerInv at hu ⊢
      exact hu
    logged := by
      show s.placed = taken ++ (phase.pending out ++ s.written).map ReadEvent.words
      rw [hlogged, List.map_append, List.map_append, ← List.append_assoc, ← List.append_assoc, hl]
    placed_events := h.placed_events }

theorem ReadInv.wait (h : ReadInv s events out) {space : Nat} {body : Bool}
    (hph : s.unpacker = .waiting space body) (henough : ¬ (s.avail - s.done).toNat < space) :
    ReadInv { s with unpacker := .looking space body } events out := by
  have hu := h.unpacker
  unfold UnpackerInv at hu
  rw [hph] at hu
  apply h.congr_unpacker
  · cases body with
    | true => exact hu
    | false =>
      have hspace : space = bufHeaderSize := hu
      rw [h.diff, hspace] at henough
      show out ≠ []
      rintro rfl
      exact henough (by decide)
  · rw [hph]
    rfl

theorem look_message {e : ReadEvent} {space : Nat} {body : Bool}
    (hwords : WordsAt s.mem s.unpackerCur e.words) (hlin : s.unpackerCur + e.words.length ≤ s.size) :
    s.look space body = s.gotSpace e.request space body := by
  have hlen := e.words_length
  have h0 : s.mem s.unpackerCur = e.request ||| externalWriterRequestHiMagic :=
    hwords 0 (by omega)
  unfold ShmRead.look
  dsimp only
  rw [h0, header_magic e.request_lt, header_request e.request_lt, if_neg (fun h => h rfl),
    if_neg e.not_filler, if_neg]
  unfold bufHeaderSize
  omega

theorem ReadInv.look (h : ReadInv s events out) {space : Nat} {body : Bool}
    (hph : s.unpacker = .looking space body) : ReadInv (s.look space body) events out := by
  have hu := h.unpacker
  unfold UnpackerInv at hu
  rw [hph] at hu
  obtain ⟨e, rest, rfl⟩ : ∃ e rest, out = e :: rest := by
    cases body with
    | true =>
      obtain ⟨e, rest, he, _⟩ := hu
      exact ⟨e, rest, he⟩
    | false => exact List.exists_cons_of_ne_nil hu
  have hlaid := h.laid
  rw [eventWords_cons] at hlaid
  have hwords := (wordsAt_append.mp hlaid).1
  have hlen := e.words_length
  have h1 : s.mem (s.unpackerCur + 1) = 4 * (e.body.length + 2) := hwords 1 (by omega)
  have hlin : s.unpackerCur + e.words.length ≤ s.size := by
    have hcur := h.cur_eq
    have hle := h.cur_le
    rw [eventWords_cons, List.length_append] at hcur
    omega
  rw [look_message hwords hlin]
  unfold ShmRead.gotSpace
  cases body with
  | false =>
    simp only [Bool.false_eq_true, if_false]
    rw [h1, if_neg (by omega)]
    apply h.congr_unpacker
    · exact ⟨e, rest, rfl, by omega⟩
    · rw [hph]
      rfl
  | true =>
    obtain ⟨e', rest', he, hspace⟩ := hu
    obtain ⟨rfl, rfl⟩ := List.cons.inj he
    have hmsg : (List.range e.words.length).map (fun i => s.mem (s.unpackerCur + i)) = e.words := by
      apply List.ext_getElem
      · simp
      · intro i hi1 hi2
        simp only [List.getElem_map, List.getElem_range]
        exact hwords i hi2
    simp only [if_true]
    rw [hspace, Nat.mul_div_cancel_left _ (by omega : 0 < 4), hmsg]
    apply h.congr_unpacker
    · split
      · exact List.cons_ne_nil _ _
      · exact ⟨e, rest, rfl, rfl⟩
    · rw [hph]
      split
      · simp [UnpackerPhase.pending]
      · simp [UnpackerPhase.pending]

theorem ReadInv.body_done (h : ReadInv s events out) {cells : Nat}
    (hph : s.unpacker = .holding cells) :
    ∃ out', ReadInv { s with
      done := s.done + BitVec.ofNat 64 (4 * cells)
      unpackerCur := s.unpackerCur + cells
      unpacker := .waiting bufHeaderSize false } events out' := by
  have hu := h.unpacker
  have hl := h.logged
  unfold UnpackerInv at hu
  rw [hph] at hu hl
  obtain ⟨e, rest, rfl, rfl⟩ := hu
  have hlaid := h.laid
  have hcur := h.cur_eq
  have hc := h.counters
  rw [eventWords_cons] at hlaid hcur hc
  rw [List.length_append] at hcur hc
  refine ⟨rest, ?_⟩
  exact { h with
    laid := (wordsAt_append.mp hlaid).2
    cur_eq := by
      show s.readerCur = s.unpackerCur + e.words.length + _
      omega
    counters := by
      show s.avail = s.done + BitVec.ofNat 64 (4 * e.words.length) + _
      rw [hc, Nat.mul_add, BitVec.ofNat_add, BitVec.add_assoc]
    unpacker := rfl
    logged := hl }

theorem ReadInv.consume (h : ReadInv s events out) (hs : s.consume = some s') :
    ∃ out', ReadInv s' events out' := by
  cases hph : s.unpacker with
  | waiting space body =>
    simp only [ShmRead.consume, hph] at hs
    split at hs
    · cases hs
      exact ⟨out, h⟩
    · next henough =>
      cases hs
      exact ⟨out, h.wait hph henough⟩
  | looking space body =>
    simp only [ShmRead.consume, hph] at hs
    cases hs
    exact ⟨out, h.look hph⟩
  | holding cells =>
    simp only [ShmRead.consume, hph] at hs
    cases hs
    exact h.body_done hph
  | stopped | failed msg =>
    simp only [ShmRead.consume, hph] at hs
    cases hs

theorem ReadInv.delivers (h : ReadInv s events out) : ReadDelivers s events := by
  have hu := h.unpacker
  unfold UnpackerInv at hu
  constructor
  · intro msg hph
    rw [hph] at hu
    exact hu
  · rw [h.logged]
    exact List.prefix_append _ _
  · exact h.placed_events
  · intro hr hph hd
    rw [h.diff] at hd
    have hnil : out = [] := by
      cases out with
      | nil => rfl
      | cons e rest =>
        rw [eventWords_cons, List.length_append, e.words_length] at hd
        unfold bufHeaderSize at hd
        omega
    have hl := h.logged
    rw [hnil, hph, ShmRead.written_eq hr] at hl
    exact (hl.trans (List.append_nil _)).symm

theorem readStep_inv {a : ReadAct} (h : ∃ out, ReadInv s events out)
    (hok : staysLinear s a = true) (hs : readStep s a = some s') : ∃ out, ReadInv s' events out := by
  obtain ⟨out, h⟩ := h
  cases a with
  | produce cells => exact h.produce hok hs
  | consume => exact h.consume hs

theorem readInit_inv {mem : Nat → Nat} {size maxMsg : Nat} (hsize : 4 * size < 2 ^ 32)
    (hfit : ∀ e ∈ events, e.words.length ≤ maxMsg) :
    ReadInv (readInit mem size maxMsg events) events [] := by
  constructor
  · intro i hi
    cases hi
  · rfl
  · exact Nat.zero_le _
  · exact hsize
  · rfl
  · trivial
  · rfl
  · exact hfit
  · rfl
  · rfl

end ReadSteps

/-- In every interleaving in which the reader does not come to the end of the ring, the unpacker
gets the events. -/
theorem shm_read_delivers {mem : Nat → Nat} {size maxMsg : Nat} {events : List ReadEvent}
    {acts : List ReadAct} {s : ShmRead} (hsize : 4 * size < 2 ^ 32)
    (hfit : ∀ e ∈ events, e.words.length ≤ maxMsg)
    (hm : StepsMeet readStep (fun s a => staysLinear s a = true)
      (readInit mem size maxMsg events) acts)
    (h : runSteps readStep (readInit mem size maxMsg events) acts = some s) :
    ReadDelivers s events := by
  have hinv : ∃ out, ReadInv s events out :=
    @runSteps_inv_of_meet ShmRead ReadAct readStep (fun s a => staysLinear s a = true)
      (fun s => ∃ out, ReadInv s events out) (fun _ _ _ hi hok hs => readStep_inv hi hok hs)
      _ s acts ⟨_, readInit_inv hsize hfit⟩ hm h
  obtain ⟨out, hi⟩ := hinv
  exact hi.delivers

def fillEvent (body : List Nat) : ReadEvent where
  request := externalWriterBufNtupleFill
  body := body
  more := true
  request_lt := by decide
  not_filler := by decide

def doneEvent : ReadEvent where
  request := externalWriterBufDone
  body := []
  more := false
  request_lt := by decide
  not_filler := by decide

def readDemoEvents : List ReadEvent := [fillEvent [0, 0, 5, 1], doneEvent]

def readDemo : List ReadAct :=
  [.consume, .produce 0, .produce 2, .consume, .produce 4, .produce 0, .consume, .produce 0, .consume,
    .consume, .consume, .produce 2, .produce 0, .consume, .consume, .consume, .consume, .consume]

theorem shm_read_delivers_demo :
    ∃ s, runSteps readStep (readInit (fun _ => 0) (shmCells 0x40000) 16384 readDemoEvents) readDemo =
        some s ∧
      s.taken.length = 2 ∧ ReadDelivers s readDemoEvents := by
  have hrun : ((runSteps readStep (readInit (fun _ => 0) (shmCells 0x40000) 16384 readDemoEvents)
      readDemo).map fun s => s.taken.length) = some 2 := by
    decide +kernel
  obtain ⟨s, hs, htaken⟩ := Option.map_eq_some_iff.mp hrun
  refine ⟨s, hs, htaken, shm_read_delivers (by decide) ?_ (stepsMeet_of_check (by decide +kernel)) hs⟩
  intro e he
  simp only [readDemoEvents, List.mem_cons, List.not_mem_nil, or_false] at he
  obtain rfl | rfl := he <;> decide

/-- Both sides wait at the same place, with nothing in the ring. -/
def ShmRead.atRest (s : ShmRead) (cur : Nat) (pending : List ReadEvent) : ShmRead :=
  { s with
    avail := s.done
    readerCur := cur
    reader := .looping
    pending := pending
    unpackerCur := cur
    unpacker := .waiting bufHeaderSize false }

def fetchMessage : List ReadAct := [.consume, .consume, .consume, .consume, .consume]

def exchange (cells : Nat) : List ReadAct :=
  [.produce 0, .produce cells, .produce 0] ++ fetchMessage

theorem fetchMessage_run {s : ShmRead} {body : List Nat}
    (hu : s.unpacker = .waiting bufHeaderSize false)
    (hwords : WordsAt s.mem s.unpackerCur (fillEvent body).words)
    (hdiff : (s.avail - s.done).toNat = 4 * (body.length + 2))
    (hlin : s.unpackerCur + (body.length + 2) ≤ s.size) :
    ∃ taken, runSteps readStep s fetchMessage = some { s with
      done := s.done + BitVec.ofNat 64 (4 * (body.length + 2))
      taken := taken
      unpackerCur := s.unpackerCur + (body.length + 2)
      unpacker := .waiting bufHeaderSize false } := by
  have hlength : s.mem (s.unpackerCur + 1) = 4 * (body.length + 2) := hwords 1 (by
    rw [ReadEvent.words_length]
    omega)
  have hlook (phase : UnpackerPhase) (space : Nat) (whole : Bool) :
      ({ s with unpacker := phase } : ShmRead).look space whole =
        ({ s with unpacker := phase } : ShmRead).gotSpace externalWriterBufNtupleFill space whole :=
    look_message hwords hlin
  have hheader : readStep s .consume = some { s with unpacker := .looking bufHeaderSize false } := by
    simp only [readStep, ShmRead.consume, hu, hdiff, bufHeaderSize]
    rw [if_neg (by omega)]
  have hwait : readStep { s with unpacker := .looking bufHeaderSize false } .consume =
      some { s with unpacker := .waiting (4 * (body.length + 2)) true } := by
    simp only [readStep, ShmRead.consume, hlook, ShmRead.gotSpace, hlength]
    rw [if_neg (by decide), if_neg (by omega)]
  have hbody : readStep { s with unpacker := .waiting (4 * (body.length + 2)) true } .consume =
      some { s with unpacker := .looking (4 * (body.length + 2)) true } := by
    simp only [readStep, ShmRead.consume, hdiff]
    rw [if_neg (by omega)]
  obtain ⟨taken, hgot⟩ : ∃ taken,
      readStep { s with unpacker := .looking (4 * (body.length + 2)) true } .consume =
        some { s with taken := taken, unpacker := .holding (body.length + 2) } := by
    refine ⟨s.taken ++ [(List.range (body.length + 2)).map fun i => s.mem (s.unpackerCur + i)], ?_⟩
    simp only [readStep, ShmRead.consume, hlook, ShmRead.gotSpace, if_true]
    rw [if_neg (by decide), Nat.mul_div_cancel_left _ (by decide)]
  refine ⟨taken, ?_⟩
  simp only [fetchMessage, runSteps, hheader, hwait, hbody, hgot, Option.bind_some]
  rfl

theorem atRest_space {s : ShmRead} {cur : Nat} {pending : List ReadEvent}
    (hsize : 4 * s.size < 2 ^ 32) (hmax : s.maxMsg ≤ s.size) :
    (s.atRest cur pending).lacksSpace = false := by
  have hdiff : s.done + BitVec.ofNat 64 (4 * s.maxMsg) - s.done =
      BitVec.ofNat 64 (4 * s.maxMsg) := by
    ring
  simp only [ShmRead.lacksSpace, ShmRead.atRest, hdiff, BitVec.toNat_ofNat, decide_eq_false_iff_not]
  rw [Nat.mod_eq_of_lt (by omega)]
  omega

/-- An event is written, committed and taken. -/
theorem exchange_run {s : ShmRead} {cur : Nat} {body : List Nat} {rest : List ReadEvent}
    (hfit : body.length + 2 ≤ s.maxMsg) (hlin : cur + s.maxMsg ≤ s.size)
    (hsize : 4 * s.size < 2 ^ 32) :
    ∃ s' : ShmRead, s'.size = s.size ∧ s'.maxMsg = s.maxMsg ∧
      runSteps readStep (s.atRest cur (fillEvent body :: rest)) (exchange (body.length + 2)) =
        some (s'.atRest (cur + (body.length + 2)) rest) := by
  have hlen : (fillEvent body).words.length = body.length + 2 := rfl
  have hspace := @atRest_space s cur (fillEvent body :: rest) hsize (by omega)
  have hloop : readStep (s.atRest cur (fillEvent body :: rest)) (.produce 0) =
      some { s.atRest cur (fillEvent body :: rest) with reader := .writing 0 } := by
    show (if (s.atRest cur (fillEvent body :: rest)).lacksSpace then _
      else if s.size - cur < s.maxMsg then _ else _) = _
    rw [if_neg (by rw [hspace]; decide), if_neg (by omega)]
  have hwrite : readStep { s.atRest cur (fillEvent body :: rest) with reader := .writing 0 }
      (.produce (body.length + 2)) = some { s.atRest cur (fillEvent body :: rest) with
        mem := writeCells s.mem cur (fillEvent body).words
        placed := s.placed ++ [(fillEvent body).words]
        reader := .committing } := by
    simp only [readStep, ShmRead.produce, ShmRead.atRest, List.drop_zero, Nat.add_zero]
    rw [if_neg (by omega), List.take_of_length_le hlen.le]
  let s₁ : ShmRead := { s.atRest cur rest with
    avail := s.done + BitVec.ofNat 64 (4 * (body.length + 2))
    mem := writeCells s.mem cur (fillEvent body).words
    readerCur := cur + (body.length + 2)
    placed := s.placed ++ [(fillEvent body).words] }
  obtain ⟨taken, hfetch⟩ := @fetchMessage_run s₁ body rfl
    (fun i hi => writeCells_at hi) (by
      have hdiff : s.done + BitVec.ofNat 64 (4 * (body.length + 2)) - s.done =
          BitVec.ofNat 64 (4 * (body.length + 2)) := by
        ring
      show (s.done + BitVec.ofNat 64 (4 * (body.length + 2)) - s.done).toNat = _
      rw [hdiff, BitVec.toNat_ofNat, Nat.mod_eq_of_lt (by omega)])
    (by
      show cur + (body.length + 2) ≤ s.size
      omega)
  refine ⟨{ s₁ with
    taken := taken
    done := s.done + BitVec.ofNat 64 (4 * (body.length + 2)) }, rfl, rfl, ?_⟩
  rw [exchange, runSteps_append]
  simp only [runSteps, hloop, hwrite, Option.bind_some]
  exact hfetch

/-- The marker at the end of the ring is refused. -/
theorem filler_run {s : ShmRead} {cur : Nat} {e : ReadEvent} {rest : List ReadEvent}
    (hlin : s.size - cur < s.maxMsg) (hheader : cur + 2 ≤ s.size) (hmax : s.maxMsg ≤ s.size)
    (hsize : 4 * s.size < 2 ^ 32) :
    ∃ s' : ShmRead, s'.unpacker = .failed "Bad request, hi magic wrong (0x%08x)." ∧
      runSteps readStep (s.atRest cur (e :: rest)) [.produce 0, .produce 0, .consume, .consume] =
        some s' := by
  have hspace := @atRest_space s cur (e :: rest) hsize hmax
  have hloop : readStep (s.atRest cur (e :: rest)) (.produce 0) =
      some { s.atRest cur (e :: rest) with
        mem := writeCells s.mem cur [externalWriterBufEatLinSpace]
        reader := .wasting } := by
    show (if (s.atRest cur (e :: rest)).lacksSpace then _
      else if s.size - cur < s.maxMsg then if s.size - cur ≠ 0 then _ else _ else _) = _
    rw [if_neg (by rw [hspace]; decide), if_pos hlin, if_pos (by omega)]
    rfl
  let s₁ : ShmRead := { s.atRest cur (e :: rest) with
    avail := s.done + BitVec.ofNat 64 (4 * (s.size - cur))
    mem := writeCells s.mem cur [externalWriterBufEatLinSpace]
    readerCur := 0 }
  have hmarker : s₁.mem s₁.unpackerCur = externalWriterBufEatLinSpace :=
    writeCells_at (i := 0) (by decide)
  have hwait : readStep s₁ .consume = some { s₁ with unpacker := .looking bufHeaderSize false } := by
    have hdiff : s.done + BitVec.ofNat 64 (4 * (s.size - cur)) - s.done =
        BitVec.ofNat 64 (4 * (s.size - cur)) := by
      ring
    show (if (s.done + BitVec.ofNat 64 (4 * (s.size - cur)) - s.done).toNat < bufHeaderSize then _
      else _) = _
    rw [hdiff, BitVec.toNat_ofNat, Nat.mod_eq_of_lt (by omega), bufHeaderSize, if_neg (by omega)]
  have hlook : readStep { s₁ with unpacker := .looking bufHeaderSize false } .consume =
      some (s₁.fail "Bad request, hi magic wrong (0x%08x).") := by
    show some (if s₁.mem s₁.unpackerCur &&& _ ≠ _ then _ else _) = _
    rw [hmarker, if_pos (by decide)]
    rfl
  refine ⟨s₁.fail "Bad request, hi magic wrong (0x%08x).", rfl, ?_⟩
  simp only [runSteps, hloop, Option.bind_some]
  show (readStep s₁ .consume).bind _ = _
  rw [hwait]
  exact congrArg (·.bind some) hlook

def wrapBody : List Nat := List.replicate 16382 0

def wrapEvents : List ReadEvent :=
  [fillEvent wrapBody, fillEvent wrapBody, fillEvent wrapBody, doneEvent]

def wrapRun : List ReadAct :=
  exchange 16384 ++ (exchange 16384 ++ (exchange 16384 ++
    [.produce 0, .produce 0, .consume, .consume]))

/-- In a segment of 0x40000 bytes. -/
theorem shm_read_wrap_fails :
    ∃ s, runSteps readStep (readInit (fun _ => 0) (shmCells 0x40000) 16384 wrapEvents) wrapRun =
        some s ∧
      s.unpacker = .failed "Bad request, hi magic wrong (0x%08x)." ∧
      ¬ ReadDelivers s wrapEvents := by
  have hcells : wrapBody.length + 2 = 16384 := by
    rw [wrapBody, List.length_replicate]
  have hmsg : wrapBody.length + 2 ≤ 16384 := hcells.le
  obtain ⟨s₁, hsize₁, hmax₁, hrun₁⟩ := @exchange_run
    (readInit (fun _ => 0) (shmCells 0x40000) 16384 wrapEvents) 0 wrapBody
    [fillEvent wrapBody, fillEvent wrapBody, doneEvent] hmsg (by decide) (by decide)
  obtain ⟨s₂, hsize₂, hmax₂, hrun₂⟩ := @exchange_run s₁ 16384 wrapBody
    [fillEvent wrapBody, doneEvent] (by rw [hmax₁]; exact hmsg)
    (by rw [hmax₁, hsize₁]; decide) (by rw [hsize₁]; decide)
  obtain ⟨s₃, hsize₃, hmax₃, hrun₃⟩ := @exchange_run s₂ 32768 wrapBody
    [doneEvent] (by rw [hmax₂, hmax₁]; exact hmsg)
    (by rw [hmax₂, hsize₂, hmax₁, hsize₁]; decide) (by rw [hsize₂, hsize₁]; decide)
  obtain ⟨s, hph, hrun⟩ := @filler_run s₃ 49152 doneEvent []
    (by rw [hmax₃, hsize₃, hmax₂, hsize₂, hmax₁, hsize₁]; decide)
    (by rw [hsize₃, hsize₂, hsize₁]; decide)
    (by rw [hmax₃, hsize₃, hmax₂, hsize₂, hmax₁, hsize₁]; decide)
    (by rw [hsize₃, hsize₂, hsize₁]; decide)
  refine ⟨s, ?_, hph, fun hd => hd.no_error _ hph⟩
  rw [hcells] at hrun₁ hrun₂ hrun₃
  have hstart : runSteps readStep (readInit (fun _ => 0) (shmCells 0x40000) 16384 wrapEvents)
      (exchange 16384) = some (s₁.atRest 16384 _) := hrun₁
  rw [wrapRun, runSteps_append, hstart, Option.bind_some, runSteps_append, hrun₂, Option.bind_some,
    runSteps_append, hrun₃, Option.bind_some]
  exact hrun

end Ucesb
