import Ucesb.Cells
import Ucesb.SizeT
import Ucesb.ShmRing

namespace Ucesb

inductive ExtWriterError
  /-- Requesting too much space in pipe memory. -/
  | tooMuchSpace (space size : Nat)
  /-- Reached unexpected end of file while writing. -/
  | unexpectedEnd
deriving DecidableEq

/-- A call of `full_write`, and the size of the buffer at that time. -/
structure PipeWrite where
  start : Nat
  count : Nat
  size : Nat
deriving DecidableEq

/-- The pointers are offsets from `_mem`, and `_end` is at `_size`. -/
structure ExtPipeBuf where
  mem : Nat → UInt8
  size : Nat
  cur : Nat
  beginWrite : Nat
  writeMark : Nat
  /-- What `ensure_buf_space` gave and is not committed yet. -/
  space : Nat
  committed : List UInt8
  written : List UInt8
  writes : List PipeWrite
  /-- The process is gone. -/
  error : Option ExtWriterError

namespace ExtPipeBuf

/-- `write` of nothing returns 0, which is taken for the end of the file. Beyond the allocation
there are no bytes to account for. -/
def fullWrite (b : ExtPipeBuf) (start count : Nat) : ExtPipeBuf :=
  if count = 0 then { b with error := some .unexpectedEnd }
  else { b with
    writes := b.writes ++ [⟨start, count, b.size⟩]
    written := b.written ++ readCells b.mem start (min count (b.size - start)) }

def alloc (b : ExtPipeBuf) (size : Nat) : ExtPipeBuf :=
  let writeMark := b.beginWrite + (size - b.beginWrite) / 4
  { b with
    size := size
    writeMark := if writeMark = b.beginWrite then size else writeMark
    space := 0 }

def flush (b : ExtPipeBuf) : ExtPipeBuf :=
  if b.cur = b.beginWrite then b
  else
    let b' := b.fullWrite b.beginWrite (sizeDiff b.cur b.beginWrite)
    { b' with beginWrite := b.cur }

/-- `_size / 4`, in whole pages if there are several. -/
def markStep (size : Nat) : Nat :=
  if 2 * 0x1000 ≤ size then size / 4 - size / 4 % 0x1000 else size / 4

/-- The message that the caller has put where `ensure_buf_space` told it to counts. -/
def advance (b : ExtPipeBuf) (msg : List UInt8) : ExtPipeBuf :=
  { b with
    mem := writeCells b.mem b.cur msg
    cur := b.cur + msg.length
    space := b.space - msg.length
    committed := b.committed ++ msg }

def commitBufSpace (b : ExtPipeBuf) (msg : List UInt8) : ExtPipeBuf :=
  let b := b.advance msg
  if b.writeMark ≤ b.cur then
    let b' := b.fullWrite b.beginWrite (sizeDiff b.writeMark b.beginWrite)
    { b' with
      beginWrite := b.writeMark
      writeMark := b.writeMark + markStep b.size }
  else b

def restartPointers (b : ExtPipeBuf) : ExtPipeBuf :=
  let cur := if 2 * 0x1000 ≤ b.size then b.cur % 0x1000 else 0
  { b with
    cur := cur
    beginWrite := cur
    writeMark := markStep b.size }

def ensureBufSpace (b : ExtPipeBuf) (space : Nat) : ExtPipeBuf :=
  if b.size < space then { b with error := some (.tooMuchSpace space b.size) }
  else if b.cur + space ≤ b.size then { b with space := space }
  else
    let b := if b.cur = b.beginWrite then b
      else b.fullWrite b.beginWrite (sizeDiff b.cur b.beginWrite)
    { b.restartPointers with space := space }

def resizeAlloc (b : ExtPipeBuf) (size : Nat) : ExtPipeBuf := b.flush.alloc size

end ExtPipeBuf

def extPipeBufInit : ExtPipeBuf :=
  ExtPipeBuf.alloc ⟨fun _ => 0, 0, 0, 0, 0, 0, [], [], [], none⟩ externalWriterMinSharedSize

inductive PipeAct
  | ensure (space : Nat)
  | commit (msg : List UInt8)
  | flush
  | resize (size : Nat)

/-- A message is no longer than the space asked for, and `set_max_message_size` never makes the
buffer smaller. Nothing comes after an error. -/
def PipeAct.allowed (b : ExtPipeBuf) : PipeAct → Bool
  | .ensure space => decide (space < 2 ^ 32)
  | .commit msg => decide (msg.length ≤ b.space)
  | .flush => true
  | .resize size => decide (b.size ≤ size) && decide (size < 2 ^ 32)

def pipeBufStep (b : ExtPipeBuf) (a : PipeAct) : Option ExtPipeBuf :=
  if b.error = none ∧ a.allowed b = true then
    some (match a with
      | .ensure space => b.ensureBufSpace space
      | .commit msg => b.commitBufSpace msg
      | .flush => b.flush
      | .resize size => b.resizeAlloc size)
  else none

namespace ExtPipeBuf

def pending (b : ExtPipeBuf) : List UInt8 := readCells b.mem b.beginWrite (b.cur - b.beginWrite)

end ExtPipeBuf

structure PipeStream (b : ExtPipeBuf) : Prop where
  noFault : b.error ≠ some .unexpectedEnd
  inside : ∀ w ∈ b.writes, 0 < w.count ∧ w.start + w.count ≤ w.size
  ordered : b.written <+: b.committed
  flushed : b.flush.written = b.committed

/-- The write mark is ahead of what was written, and a message that makes the buffer start over fits
behind the offset into the first page that is kept. -/
def PipeAct.fits (b : ExtPipeBuf) : PipeAct → Bool
  | .ensure space => decide (b.size < space ∨ b.cur + space ≤ b.size ∨ b.size < 2 * 0x1000 ∨
      b.cur % 0x1000 + space ≤ b.size)
  | .commit _ => decide (b.beginWrite < b.writeMark)
  | .flush => true
  | .resize _ => true

structure PipeBufInv (b : ExtPipeBuf) : Prop where
  begin_le : b.beginWrite ≤ b.cur
  cur_le : b.cur + b.space ≤ b.size
  size_lt : b.size < 2 ^ 32
  stream : b.written ++ b.pending = b.committed
  inside : ∀ w ∈ b.writes, 0 < w.count ∧ w.start + w.count ≤ w.size
  noFault : b.error ≠ some .unexpectedEnd

namespace ExtPipeBuf

variable {b : ExtPipeBuf}

theorem fullWrite_eq {last : Nat} (h : b.beginWrite < last) (hlast : last ≤ b.size)
    (hsize : b.size < 2 ^ 32) :
    b.fullWrite b.beginWrite (sizeDiff last b.beginWrite) =
      { b with
        writes := b.writes ++ [⟨b.beginWrite, last - b.beginWrite, b.size⟩]
        written := b.written ++ readCells b.mem b.beginWrite (last - b.beginWrite) } := by
  have hne : last - b.beginWrite ≠ 0 := by omega
  have hmin : min (last - b.beginWrite) (b.size - b.beginWrite) = last - b.beginWrite := by omega
  rw [sizeDiff_eq (Nat.le_of_lt h) (by omega), fullWrite, if_neg hne, hmin]

end ExtPipeBuf

namespace PipeBufInv

variable {b : ExtPipeBuf}

theorem inside_append (h : PipeBufInv b) {last : Nat} (hlt : b.beginWrite < last)
    (hlast : last ≤ b.size) :
    ∀ w ∈ b.writes ++ [⟨b.beginWrite, last - b.beginWrite, b.size⟩],
      0 < w.count ∧ w.start + w.count ≤ w.size := by
  intro w hw
  rcases List.mem_append.mp hw with hw | hw
  · exact h.inside w hw
  · cases List.mem_singleton.mp hw
    dsimp only
    omega

theorem drained (h : PipeBufInv b) (hne : b.cur ≠ b.beginWrite) (pos mark space : Nat)
    (hpos : pos + space ≤ b.size) :
    PipeBufInv { b.fullWrite b.beginWrite (sizeDiff b.cur b.beginWrite) with
      cur := pos, beginWrite := pos, writeMark := mark, space := space } := by
  have hlt : b.beginWrite < b.cur := Nat.lt_of_le_of_ne h.begin_le (Ne.symm hne)
  have hcur : b.cur ≤ b.size := Nat.le_trans (Nat.le_add_right _ _) h.cur_le
  rw [ExtPipeBuf.fullWrite_eq hlt hcur h.size_lt]
  refine ⟨Nat.le_refl _, hpos, h.size_lt, ?_, h.inside_append hlt hcur, h.noFault⟩
  simp only [ExtPipeBuf.pending, Nat.sub_self, readCells_zero, List.append_nil]
  exact h.stream

theorem flush (h : PipeBufInv b) : PipeBufInv b.flush := by
  unfold ExtPipeBuf.flush
  split
  · exact h
  · next hne =>
    have hd := h.drained hne b.cur b.writeMark b.space h.cur_le
    have hlt : b.beginWrite < b.cur := Nat.lt_of_le_of_ne h.begin_le (Ne.symm hne)
    have hcur : b.cur ≤ b.size := Nat.le_trans (Nat.le_add_right _ _) h.cur_le
    rw [ExtPipeBuf.fullWrite_eq hlt hcur h.size_lt] at hd ⊢
    exact hd

theorem flush_begin (b : ExtPipeBuf) : b.flush.beginWrite = b.flush.cur := by
  unfold ExtPipeBuf.flush
  split
  · next heq => exact heq.symm
  · unfold ExtPipeBuf.fullWrite
    split
    · rfl
    · rfl

theorem flush_committed (b : ExtPipeBuf) : b.flush.committed = b.committed := by
  unfold ExtPipeBuf.flush
  split
  · rfl
  · unfold ExtPipeBuf.fullWrite
    split
    · rfl
    · rfl

theorem resize (h : PipeBufInv b) {size : Nat} (hle : b.size ≤ size) (hlt : size < 2 ^ 32) :
    PipeBufInv (b.resizeAlloc size) := by
  have hf := h.flush
  have hsize : b.flush.size = b.size := by
    unfold ExtPipeBuf.flush ExtPipeBuf.fullWrite
    split
    · rfl
    · split
      · rfl
      · rfl
  have hcur := hf.cur_le
  refine ⟨hf.begin_le, ?_, hlt, hf.stream, hf.inside, hf.noFault⟩
  change b.flush.cur + 0 ≤ size
  omega

theorem advance (h : PipeBufInv b) {msg : List UInt8} (hmsg : msg.length ≤ b.space) :
    PipeBufInv (b.advance msg) := by
  have hbegin := h.begin_le
  have hcur := h.cur_le
  refine ⟨?_, ?_, h.size_lt, ?_, h.inside, h.noFault⟩
  · change b.beginWrite ≤ b.cur + msg.length
    omega
  · change b.cur + msg.length + (b.space - msg.length) ≤ b.size
    omega
  · change b.written ++ readCells (writeCells b.mem b.cur msg) b.beginWrite
      (b.cur + msg.length - b.beginWrite) = b.committed ++ msg
    rw [readCells_write_append hbegin, ← List.append_assoc, ← h.stream]
    rfl

theorem commit (h : PipeBufInv b) {msg : List UInt8} (hmsg : msg.length ≤ b.space)
    (hmark : b.beginWrite < b.writeMark) : PipeBufInv (b.commitBufSpace msg) := by
  have ha := h.advance hmsg
  have hcur := ha.cur_le
  unfold ExtPipeBuf.commitBufSpace
  dsimp only
  split
  · next hpassed =>
    have hmark' : (b.advance msg).beginWrite < (b.advance msg).writeMark := hmark
    have hle : (b.advance msg).writeMark ≤ (b.advance msg).size := by omega
    rw [ExtPipeBuf.fullWrite_eq hmark' hle ha.size_lt]
    refine ⟨hpassed, ha.cur_le, ha.size_lt, ?_, ha.inside_append hmark' hle, ha.noFault⟩
    simp only [ExtPipeBuf.pending, List.append_assoc]
    rw [← readCells_between (Nat.le_of_lt hmark') hpassed]
    exact ha.stream
  · exact ha

theorem ensure (h : PipeBufInv b) {space : Nat}
    (hfits : b.size < space ∨ b.cur + space ≤ b.size ∨ b.size < 2 * 0x1000 ∨
      b.cur % 0x1000 + space ≤ b.size) : PipeBufInv (b.ensureBufSpace space) := by
  unfold ExtPipeBuf.ensureBufSpace
  by_cases hmuch : b.size < space
  · rw [if_pos hmuch]
    exact { h with noFault := by rintro ⟨⟩ }
  rw [if_neg hmuch]
  by_cases hroom : b.cur + space ≤ b.size
  · rw [if_pos hroom]
    exact { h with cur_le := hroom }
  rw [if_neg hroom]
  have hpos : (if 2 * 0x1000 ≤ b.size then b.cur % 0x1000 else 0) + space ≤ b.size := by
    split
    · omega
    · omega
  by_cases heq : b.cur = b.beginWrite
  · have hstream := h.stream
    simp only [ExtPipeBuf.pending, heq, Nat.sub_self, readCells_zero, List.append_nil] at hstream
    rw [if_pos heq]
    refine ⟨Nat.le_refl _, hpos, h.size_lt, ?_, h.inside, h.noFault⟩
    simp only [ExtPipeBuf.pending, ExtPipeBuf.restartPointers, Nat.sub_self, readCells_zero,
      List.append_nil]
    exact hstream
  · have hd := h.drained heq _ (ExtPipeBuf.markStep b.size) space hpos
    have hlt : b.beginWrite < b.cur := Nat.lt_of_le_of_ne h.begin_le (Ne.symm heq)
    have hcur : b.cur ≤ b.size := Nat.le_trans (Nat.le_add_right _ _) h.cur_le
    rw [if_neg heq]
    rw [ExtPipeBuf.fullWrite_eq hlt hcur h.size_lt] at hd ⊢
    exact hd

theorem pipeStream (h : PipeBufInv b) : PipeStream b := by
  have hf := h.flush.stream
  rw [ExtPipeBuf.pending, flush_begin, Nat.sub_self, readCells_zero, List.append_nil,
    flush_committed] at hf
  exact ⟨h.noFault, h.inside, ⟨b.pending, h.stream⟩, hf⟩

end PipeBufInv

theorem extPipeBufInit_inv : PipeBufInv extPipeBufInit := by
  refine ⟨Nat.le_refl _, by decide, by decide, rfl, ?_, by rintro ⟨⟩⟩
  intro w hw
  cases hw

theorem pipeBufStep_inv {b b' : ExtPipeBuf} {a : PipeAct} (h : PipeBufInv b)
    (hfits : a.fits b = true) (hs : pipeBufStep b a = some b') : PipeBufInv b' := by
  unfold pipeBufStep at hs
  split at hs
  · next hallowed =>
    cases hs
    cases a with
    | ensure space => exact h.ensure (of_decide_eq_true hfits)
    | commit msg => exact h.commit (of_decide_eq_true hallowed.2) (of_decide_eq_true hfits)
    | flush => exact h.flush
    | resize size =>
      simp only [PipeAct.allowed, Bool.and_eq_true, decide_eq_true_eq] at hallowed
      exact h.resize hallowed.2.1 hallowed.2.2
  · cases hs

/-- The bytes handed to `full_write` are the committed messages, one after the other. -/
theorem pipe_writes_committed {acts : List PipeAct} {b : ExtPipeBuf}
    (hfits : StepsMeet pipeBufStep (fun b a => a.fits b = true) extPipeBufInit acts)
    (h : runSteps pipeBufStep extPipeBufInit acts = some b) : PipeStream b :=
  (runSteps_inv_of_meet (fun _ _ _ hi hf hs => pipeBufStep_inv hi hf hs) extPipeBufInit_inv hfits
    h).pipeStream

def pipeDemo : List PipeAct :=
  [.ensure 600, .commit (List.replicate 600 1), .ensure 1000, .commit (List.replicate 800 2),
    .flush, .ensure 3000, .commit (List.replicate 8 3), .resize 0x40000, .ensure 4, .commit [1, 2, 3, 4],
    .flush]

theorem pipe_writes_committed_demo :
    ∃ b, runSteps pipeBufStep extPipeBufInit pipeDemo = some b ∧
      b.writes.map (fun w => (w.start, w.count)) =
        [(0, 1024), (1024, 376), (0, 8), (8, 4)] ∧ PipeStream b := by
  have hrun : ((runSteps pipeBufStep extPipeBufInit pipeDemo).map fun b =>
      b.writes.map (fun w => (w.start, w.count))) =
      some [(0, 1024), (1024, 376), (0, 8), (8, 4)] := by
    decide +kernel
  obtain ⟨b, hb, hw⟩ := Option.map_eq_some_iff.mp hrun
  exact ⟨b, hb, hw, pipe_writes_committed (stepsMeet_of_check (by decide +kernel)) hb⟩

def twoMarks : List PipeAct :=
  [.ensure 3000, .commit (List.replicate 3000 1), .flush, .ensure 8, .commit (List.replicate 8 2)]

theorem flush_past_mark :
    ∃ b, runSteps pipeBufStep extPipeBufInit twoMarks = some b ∧
      b.writes.map (fun w => (w.start, w.count)) =
        [(0, 1024), (1024, 1976), (3000, 2 ^ 64 - 952)] ∧ ¬ PipeStream b := by
  have hrun : ((runSteps pipeBufStep extPipeBufInit twoMarks).map fun b => b.writes) =
      some [⟨0, 1024, 4096⟩, ⟨1024, 1976, 4096⟩, ⟨3000, 2 ^ 64 - 952, 4096⟩] := by
    decide +kernel
  obtain ⟨b, hb, hw⟩ := Option.map_eq_some_iff.mp hrun
  refine ⟨b, hb, by rw [hw]; rfl, ?_⟩
  intro hstream
  have hin := hstream.inside ⟨3000, 2 ^ 64 - 952, 4096⟩ (by rw [hw]; decide)
  revert hin
  decide

end Ucesb
