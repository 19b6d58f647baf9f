import Ucesb.MultiEvent
import Ucesb.Checks
import Mathlib.Logic.Relation

namespace Ucesb

def SameLow (t : WrTime) (word2 : WrWord) : Prop :=
  t &&& 0x0fffffff = word2.setWidth 64 &&& 0x0fffffff

/-- Stored items with their timestamps. -/
inductive Stored : List WrWord → List WrTime → Prop
  | nil : Stored [] []
  | item {word1 word2 : WrWord} {t : WrTime} {data : List WrWord} {stamps : List WrTime} :
      isSync word1 = false → SameLow t word2 → Stored data stamps →
      Stored (word1 :: word2 :: data) (t :: stamps)
  | sync {word1 word2 middleRaw middleLow : WrWord} {t : WrTime} {data : List WrWord}
      {stamps : List WrTime} :
      isSync word1 = true → SameLow t word2 → Stored data stamps →
      Stored (word1 :: word2 :: middleRaw :: middleLow :: data)
        (t :: fullTime (low20 word1) (low20 middleRaw) word2 :: stamps)

/-- Starting from a time, the upper 36 bits of the timestamps change only with a stored SYNC, and
its highest bits are those of the implant's word. -/
inductive UpperKept (word1 : WrWord) : WrTime → List WrWord → List WrTime → Prop
  | nil {t : WrTime} : UpperKept word1 t [] []
  | item {tdata low : WrWord} {t stamp : WrTime} {data : List WrWord} {stamps : List WrTime} :
      isSync tdata = false → stamp >>> 28 = t >>> 28 → UpperKept word1 stamp data stamps →
      UpperKept word1 t (tdata :: low :: data) (stamp :: stamps)
  | sync {tdata low middleRaw middleLow : WrWord} {t stamp stamp' : WrTime} {data : List WrWord}
      {stamps : List WrTime} :
      isSync tdata = true → stamp >>> 28 = t >>> 28 → low16 tdata = low16 word1 →
      UpperKept word1 stamp' data stamps →
      UpperKept word1 t (tdata :: low :: middleRaw :: middleLow :: data)
        (stamp :: stamp' :: stamps)

section Bits

variable {t t' highTS highTS' middleTS : WrTime} {word1 word2 : WrWord}

theorem lowMask_bit (i : Nat) : (0x0fffffff : WrTime).getLsbD i = decide (i < 28) := by
  have hmask : (0x0fffffff : WrTime) = (BitVec.allOnes 28).setWidth 64 := by decide
  rw [hmask, BitVec.getLsbD_setWidth, BitVec.getLsbD_allOnes]
  by_cases h : i < 28
  · simp [h]
    omega
  · simp [h]

theorem setLow_bit (t : WrTime) (word2 : WrWord) {i : Nat} (hi : i < 64) :
    (setLow t word2).getLsbD i = if i < 28 then word2.getLsbD i else t.getLsbD i := by
  unfold setLow
  rw [BitVec.getLsbD_or, BitVec.getLsbD_and, BitVec.getLsbD_and, BitVec.getLsbD_not, lowMask_bit,
    BitVec.getLsbD_setWidth]
  by_cases h : i < 28
  · simp [h, hi]
  · simp [h, hi]

theorem sameLow_bit (h : SameLow t word2) {i : Nat} (hi : i < 28) :
    t.getLsbD i = word2.getLsbD i := by
  have hbit := congrArg (fun t : WrTime => t.getLsbD i) h
  simp only [BitVec.getLsbD_and, lowMask_bit, BitVec.getLsbD_setWidth, hi, decide_true,
    Bool.and_true] at hbit
  rw [hbit]
  simp
  omega

theorem shift_bit (h : t >>> 28 = t' >>> 28) {i : Nat} (hi : 28 ≤ i) :
    t.getLsbD i = t'.getLsbD i := by
  have hbit := congrArg (fun t : WrTime => t.getLsbD (i - 28)) h
  simp only [BitVec.getLsbD_ushiftRight] at hbit
  rwa [show 28 + (i - 28) = i by omega] at hbit

theorem setLow_eq_iff (h : SameLow t' word2) : setLow t word2 = t' ↔ t' >>> 28 = t >>> 28 := by
  constructor
  · rintro rfl
    apply BitVec.eq_of_getLsbD_eq
    intro i hi
    rw [BitVec.getLsbD_ushiftRight, BitVec.getLsbD_ushiftRight]
    by_cases hin : 28 + i < 64
    · rw [setLow_bit t word2 hin, if_neg (by omega)]
    · rw [BitVec.getLsbD_of_ge _ _ (by omega), BitVec.getLsbD_of_ge _ _ (by omega)]
  · intro hshift
    apply BitVec.eq_of_getLsbD_eq
    intro i hi
    rw [setLow_bit t word2 hi]
    split
    next hlow => exact (sameLow_bit h hlow).symm
    next hlow => exact (shift_bit hshift (Nat.not_lt.mp hlow)).symm

theorem setLow_sameLow (t : WrTime) (word2 : WrWord) : SameLow (setLow t word2) word2 := by
  apply BitVec.eq_of_getLsbD_eq
  intro i hi
  rw [BitVec.getLsbD_and, BitVec.getLsbD_and, lowMask_bit, setLow_bit t word2 hi,
    BitVec.getLsbD_setWidth]
  by_cases h : i < 28
  · simp [h, hi]
  · simp [h]

theorem fullTime_sameLow (highTS middleTS : WrTime) (word2 : WrWord) :
    SameLow (fullTime highTS middleTS word2) word2 := by
  apply BitVec.eq_of_getLsbD_eq
  intro i hi
  rw [BitVec.getLsbD_and, BitVec.getLsbD_and, lowMask_bit, fullTime, BitVec.getLsbD_or,
    BitVec.getLsbD_or, BitVec.getLsbD_shiftLeft, BitVec.getLsbD_shiftLeft,
    BitVec.getLsbD_setWidth]
  by_cases h : i < 28
  · have h' : i < 48 := by omega
    simp [h, h']
  · simp [h]

theorem wordMask_bit (n i : Nat) {mask : WrWord} (h : mask = (BitVec.allOnes n).setWidth 32) :
    mask.getLsbD i = (decide (i < 32) && decide (i < n)) := by
  rw [h, BitVec.getLsbD_setWidth, BitVec.getLsbD_allOnes]

theorem low20_bit (word : WrWord) (i : Nat) :
    (low20 word).getLsbD i = (decide (i < 20) && word.getLsbD i) := by
  have hmask := @wordMask_bit 20 i 0x000fffff (by decide)
  rw [low20, BitVec.getLsbD_setWidth, BitVec.getLsbD_and, hmask]
  by_cases h : i < 20
  · simp [h, show i < 64 by omega, show i < 32 by omega]
  · simp [h]

theorem low16_bit (word : WrWord) (i : Nat) :
    (low16 word).getLsbD i = (decide (i < 16) && word.getLsbD i) := by
  have hmask := @wordMask_bit 16 i 0xffff (by decide)
  rw [low16, BitVec.getLsbD_setWidth, BitVec.getLsbD_and, hmask]
  by_cases h : i < 16
  · simp [h, show i < 64 by omega, show i < 32 by omega]
  · simp [h]

theorem fullTime_high (word middleRaw word2 : WrWord) {i : Nat} (hi : i < 16) :
    (fullTime (low20 word) (low20 middleRaw) word2).getLsbD (48 + i) = (low16 word).getLsbD i := by
  rw [fullTime, BitVec.getLsbD_or, BitVec.getLsbD_or, BitVec.getLsbD_shiftLeft,
    BitVec.getLsbD_shiftLeft, BitVec.getLsbD_setWidth, low20_bit, low20_bit, low16_bit,
    BitVec.getLsbD_of_ge word2 (48 + i) (by omega)]
  simp [hi, show 48 + i < 64 by omega, show i < 20 by omega, show ¬48 + i - 28 < 20 by omega]

theorem fullTime_below (highTS highTS' middleTS : WrTime) (word2 : WrWord) {i : Nat} (hi : i < 48) :
    (fullTime highTS middleTS word2).getLsbD i = (fullTime highTS' middleTS word2).getLsbD i := by
  simp only [fullTime, BitVec.getLsbD_or, BitVec.getLsbD_shiftLeft, hi, decide_true, Bool.not_true,
    Bool.and_false, Bool.false_and]

theorem fullTime_eq_iff (word word' middleRaw word2 : WrWord) :
    fullTime (low20 word) (low20 middleRaw) word2 = fullTime (low20 word') (low20 middleRaw) word2 ↔
      low16 word' = low16 word := by
  constructor
  · intro h
    apply BitVec.eq_of_getLsbD_eq
    intro i hi
    by_cases hlow : i < 16
    · rw [← fullTime_high word' middleRaw word2 hlow, ← fullTime_high word middleRaw word2 hlow, h]
    · rw [low16_bit, low16_bit]
      simp [hlow]
  · intro h
    apply BitVec.eq_of_getLsbD_eq
    intro i hi
    by_cases hlow : i < 48
    · exact fullTime_below _ _ _ _ hlow
    · obtain ⟨j, rfl⟩ := Nat.exists_eq_add_of_le (Nat.not_lt.mp hlow)
      rw [fullTime_high _ _ _ (by omega), fullTime_high _ _ _ (by omega), h]

end Bits

section Times

variable {word1 : WrWord} {data data' : List WrWord} {stamps stamps' : List WrTime}

theorem Stored.append (h : Stored data stamps) (h' : Stored data' stamps') :
    Stored (data ++ data') (stamps ++ stamps') := by
  induction h with
  | nil => exact h'
  | item hsync hlow _ ih => exact .item hsync hlow ih
  | sync hsync hlow _ ih => exact .sync hsync hlow ih

theorem cycle_tWR (r : Retrack) (word1 tdata : WrWord) :
    (r.cycle word1 tdata).tWR = r.tWR ∧ (r.cycle word1 tdata).times = r.times := by
  unfold Retrack.cycle
  split
  · exact ⟨rfl, rfl⟩
  · exact ⟨rfl, rfl⟩

theorem retrackFrom_times (h : Stored data stamps) (r : Retrack) :
    ∃ times, (retrackFrom word1 data r).times = r.times ++ times ∧
      (times = stamps ↔ UpperKept word1 r.tWR data stamps) := by
  induction h generalizing r with
  | nil => exact ⟨[], by rw [retrackFrom, List.append_nil]; simp, iff_of_true rfl .nil⟩
  | @item tdata low t data stamps hsync hlow _ ih =>
    obtain ⟨htWR, htimes⟩ := cycle_tWR { r with
      tWR := setLow r.tWR low
      times := r.times ++ [setLow r.tWR low] } word1 tdata
    obtain ⟨times, hrun, hiff⟩ := ih (({ r with
      tWR := setLow r.tWR low
      times := r.times ++ [setLow r.tWR low] } : Retrack).cycle word1 tdata)
    rw [htWR] at hiff
    rw [htimes] at hrun
    refine ⟨setLow r.tWR low :: times, ?_, ?_⟩
    · rw [retrackFrom.eq_def]
      dsimp only
      rw [hsync, if_neg Bool.false_ne_true, hrun, List.append_assoc, List.singleton_append]
    rw [List.cons.injEq]
    constructor
    · rintro ⟨heq, hrest⟩
      rw [heq] at hiff
      exact .item hsync ((setLow_eq_iff hlow).mp heq) (hiff.mp hrest)
    · intro h
      cases h with
      | item _ hshift h =>
        have heq := (setLow_eq_iff hlow).mpr hshift
        rw [heq] at hiff ⊢
        exact ⟨rfl, hiff.mpr h⟩
      | sync hsync' => exact Bool.noConfusion (hsync.symm.trans hsync')
  | @sync tdata low middleRaw middleLow t data stamps hsync hlow _ ih =>
    obtain ⟨times, hrun, hiff⟩ := ih { r with
      tWR := fullTime (low20 word1) (low20 middleRaw) low
      times := r.times ++ [setLow r.tWR low, fullTime (low20 word1) (low20 middleRaw) low] }
    refine ⟨setLow r.tWR low :: fullTime (low20 word1) (low20 middleRaw) low :: times, ?_, ?_⟩
    · rw [retrackFrom, if_pos hsync, hrun, List.append_assoc]
      rfl
    rw [List.cons.injEq, List.cons.injEq, setLow_eq_iff hlow, fullTime_eq_iff]
    constructor
    · rintro ⟨hshift, hhigh, hrest⟩
      have hfull := (fullTime_eq_iff word1 tdata middleRaw low).mpr hhigh
      have hkept := hiff.mp hrest
      dsimp only at hkept
      rw [hfull] at hkept
      exact .sync hsync hshift hhigh hkept
    · intro h
      cases h with
      | item hsync' => exact Bool.noConfusion (hsync'.symm.trans hsync)
      | sync _ hshift hhigh h =>
        rw [← (fullTime_eq_iff word1 tdata middleRaw low).mpr hhigh] at h
        exact ⟨hshift, hhigh, hiff.mpr h⟩

theorem retrack_times (e : AidaEntry) (word1 : WrWord) (h : Stored e.data e.stamps) :
    (retrack e word1).times = e.stamps ↔ UpperKept word1 e.timestamp e.data e.stamps := by
  obtain ⟨times, hrun, hiff⟩ := @retrackFrom_times word1 _ _ h ⟨0, 0, e.timestamp, []⟩
  rw [retrack, hrun]
  exact hiff

end Times

inductive MultiEmitted
  | built (e : EventEntry)
  /-- without the event builder -/
  | plain (e : MultiFileEvent)

inductive PassEnd
  | again
  | returned (e : Option MultiEmitted)

def MultiEventSource.pushAida (s : MultiEventSource) : MultiEventSource :=
  match s.curAida with
  | some e =>
    if e.fragment then { s.push (.aida { e with fragment := false }) with curAida := none } else s
  | none => s

def MultiEventSource.pushDtas (s : MultiEventSource) : MultiEventSource :=
  match s.curDtas with
  | some e =>
    if e.fragment then { s.push (.dtas { e with fragment := false }) with curDtas := none } else s
  | none => s

/-- Load events until one is wanted, as long as they are in the window. There is one turn for each
event of the input, and one for its end. -/
def loadUntil (conf : MultiConf) (wanted : FileStatus) (start : WrTime) :
    Nat → MultiEventSource → Except LoadStopped MultiEventSource
  | 0, s => .ok s
  | turns + 1, s => do
    let (status, s) ← loadEvents conf s
    if status = wanted ∨ status = .eof ∨
        (s.loadEventWr - start).slt conf.eventbuilderWindow = false then return s
    else loadUntil conf wanted start turns s

def loadWindow (conf : MultiConf) (wanted : FileStatus) (start : WrTime) (s : MultiEventSource) :
    Except LoadStopped MultiEventSource :=
  loadUntil conf wanted start (s.input.length + 1) s

def AidaEntry.early (first : EventEntry) (e : AidaEntry) : Bool :=
  e.fragment && e.timestamp.slt first.timestamp

def completeAida (conf : MultiConf) (first : EventEntry) (cur : AidaEntry) (s : MultiEventSource) :
    Except LoadStopped MultiEventSource := do
  let s ← loadWindow conf .aidaEvent (cur.timestamp + aidaTimeShift) s
  return if s.curAida.any (AidaEntry.early first) then s.pushAida else s

def emitFirst (first : EventEntry) (s : MultiEventSource) : PassEnd × MultiEventSource :=
  if first.timestamp.slt s.emitWr then
    (.again, { s with events := s.events.tail, emitSkip := s.emitSkip + 1 })
  else
    (.returned (some (.built first)),
      { s with events := s.events.tail, emitSkip := 0, emitWr := first.timestamp })

def MultiEventSource.ripe (s : MultiEventSource) (first : EventEntry) : Bool :=
  first.timestamp.slt (s.lastMbsWr - aidaTimeShift)

def lastWr : WrTime := 0x7fffffffffffffff

def endPass (s : MultiEventSource) : PassEnd × MultiEventSource :=
  if s.lastFile = false then (.returned none, s)
  else if s.pushAida.pushDtas.events = [] then (.returned none, s.pushAida.pushDtas)
  else (.again, { s.pushAida.pushDtas with lastMbsWr := lastWr })

def loadPass (conf : MultiConf) (s : MultiEventSource) :
    Except LoadStopped (PassEnd × MultiEventSource) :=
  if conf.maxEvents = 1 then .ok (.returned none, s)
  else do
    let (status, s) ← loadEvents conf s
    match status with
    | .eof => return endPass s
    | .unknownEvent => .error ⟨.error "Unknown event found", s⟩
    | _ => return (.again, s)

def emitPass (conf : MultiConf) (first : EventEntry) (s : MultiEventSource) :
    Except LoadStopped (PassEnd × MultiEventSource) :=
  if s.ripe first then .ok (emitFirst first s) else loadPass conf s

/-- The event of DTAS is completed, if it is earlier than the first of the queue. -/
def dtasPass (conf : MultiConf) (first : EventEntry) (s : MultiEventSource) :
    Except LoadStopped (PassEnd × MultiEventSource) :=
  match s.curDtas with
  | some cur =>
    if cur.timestamp.slt first.timestamp then do
      let s ← loadWindow conf .dtasEvent cur.timestamp s
      if s.curDtas.any DtasEntry.fragment then return (.again, s.pushDtas)
      else emitPass conf first s
    else emitPass conf first s
  | none => emitPass conf first s

def queuePass (conf : MultiConf) (first : EventEntry) (s : MultiEventSource) :
    Except LoadStopped (PassEnd × MultiEventSource) :=
  match s.curAida with
  | some cur =>
    if cur.timestamp.slt first.timestamp then do
      let s ← completeAida conf first cur s
      return (.again, s)
    else dtasPass conf first s
  | none => dtasPass conf first s

def plainPass (s : MultiEventSource) : Except LoadStopped (PassEnd × MultiEventSource) :=
  match s.input with
  | [] => .ok (.returned none, s)
  | .broken message :: input => .error ⟨.error message, { s with input := input }⟩
  | .event e :: input => .ok (.returned (some (.plain e)), { s with input := input })

def getEventPass (conf : MultiConf) (s : MultiEventSource) :
    Except LoadStopped (PassEnd × MultiEventSource) :=
  if conf.enableEventbuilder = false then plainPass s
  else if 1000000 < s.events.length then
    .error ⟨.error "ucesb had over 1 million events in the backlog", s⟩
  else
    match s.events with
    | first :: _ => queuePass conf first s
    | [] => loadPass conf s

def multiGetEvent (conf : MultiConf) :
    Nat → MultiEventSource → Option (Except LoadStopped (Option MultiEmitted × MultiEventSource))
  | 0, _ => none
  | passes + 1, s =>
    match getEventPass conf s with
    | .error st => some (.error st)
    | .ok (.returned e, s) => some (.ok (e, s))
    | .ok (.again, s) => multiGetEvent conf passes s

/-- The states that a source comes to, from pass to pass, from call to call, also after an error,
and with another file. -/
inductive MultiReached (conf : MultiConf) : MultiEventSource → Prop
  | start (input : List MultiInput) (lastFile : Bool) : MultiReached conf (startMulti input lastFile)
  | passed {s s' : MultiEventSource} {e : PassEnd} :
      MultiReached conf s → getEventPass conf s = .ok (e, s') → MultiReached conf s'
  | stopped {s : MultiEventSource} {st : LoadStopped} :
      MultiReached conf s → getEventPass conf s = .error st → MultiReached conf st.source
  | next_file {s : MultiEventSource} (input : List MultiInput) (lastFile : Bool) :
      MultiReached conf s → MultiReached conf { s with input := input, lastFile := lastFile }

end Ucesb
