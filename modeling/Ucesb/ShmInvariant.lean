import Ucesb.ShmRing

namespace Ucesb

/-- The messages in the ring: a resize is announced by the length of the segment. -/
def FitsRing (p : RingPos) (words : List Nat) (grow : Nat) : Prop :=
  (grow = 0 ∧ ∃ m : ShmMessage, words = (ShmRequest.message m).words) ∨
    words = (ShmRequest.resize (shmControlSize + 4 * (p.size + grow))).words

abbrev ShmLaid (mem : Nat → Nat) : RingPos → List (RingItem Nat) → Prop :=
  RingLaid externalWriterBufEatLinSpace FitsRing mem

def ShmSide.pos {φ : Type} (side : ShmSide φ) : RingPos := ⟨side.cur, shmCells side.len⟩

def ShmRequest.Admitted (r : ShmRequest) (len : Nat) : Prop :=
  r.space ≤ shmCells len ∧
    match r with
    | .message _ => True
    | .resize newLen => externalWriterMinSharedSize ∣ newLen ∧ newLen < 2 ^ 32 ∧ len ≤ newLen

/-- So many words of the message are in the ring, in cells that were free. -/
structure WritingInv (s : Shm) (start : RingPos) (items : List (RingItem Nat)) (r : ShmRequest)
    (written : Nat) : Prop where
  pos : ringEnd start items = s.producer.pos
  admitted : r.Admitted s.producer.len
  room : ringExtent start items + r.space ≤ start.size
  linear : s.producer.cur + r.space ≤ shmCells s.producer.len
  words : WordsAt s.mem s.producer.cur (r.words.take written)

def ProducerInv (s : Shm) (start : RingPos) (items : List (RingItem Nat)) : Prop :=
  match s.producer.phase with
  | .idle => ringEnd start items = s.producer.pos
  | .checking r => ringEnd start items = s.producer.pos ∧ r.Admitted s.producer.len
  | .filling r => ringEnd start items = s.producer.pos ∧ r.Admitted s.producer.len ∧
      ringExtent start items + r.space ≤ start.size ∧
      shmCells s.producer.len - s.producer.cur < r.space
  | .wasting r => ringEnd start items = s.producer.pos ∧ r.Admitted s.producer.len ∧
      ringExtent start items + r.space ≤ start.size ∧
      shmCells s.producer.len - s.producer.cur < r.space ∧
      s.mem s.producer.cur = externalWriterBufEatLinSpace
  | .writing r written => WritingInv s start items r written ∧ written < r.words.length
  | .resizing len => WritingInv s start items (.resize len) 4
  | .committing r false =>
    WritingInv s start items r r.words.length ∧ ∃ m, r = .message m
  | .committing r true =>
    ringEnd start items = s.producer.pos.advance 4 ∧ ∃ len, r = .resize len

def ConsumerInv (s : Shm) (start : RingPos) (items : List (RingItem Nat)) : Prop :=
  match s.consumer.phase with
  | .testing => start = s.consumer.pos
  | .fetching => start = s.consumer.pos ∧ items ≠ []
  | .expanding expand cells => ∃ words grow rest, items = .message words grow :: rest ∧
      words.length = cells ∧ expand = 4 * grow ∧ start.cur = s.consumer.cur ∧
      start.size + grow = shmCells s.consumer.len
  | .finishing cells _ => ∃ words rest, items = .message words 0 :: rest ∧
      words.length = cells ∧ start = s.consumer.pos
  | .stopped => True
  | .failed _ => False

def RingItem.entry : RingItem Nat → ShmEntry
  | .message words _ => .message words
  | .filler => .filler

/-- What the consumer has still to take; the first message has been taken once it is handled. -/
def ConsumerPhase.pending (phase : ConsumerPhase) (items : List (RingItem Nat)) :
    List (RingItem Nat) :=
  match phase with
  | .expanding _ _ => items.tail
  | .finishing _ _ => items.tail
  | _ => items

def ProducerPhase.written : ProducerPhase → List ShmEntry
  | .wasting _ => [.filler]
  | .resizing len => [.message (ShmRequest.resize len).words]
  | .committing r false => [.message r.words]
  | _ => []

def ProducerPhase.cells (cur : Nat) : ProducerPhase → List Nat
  | .wasting _ => [cur]
  | .writing r written => List.range' cur (r.words.take written).length
  | .resizing len => List.range' cur (ShmRequest.resize len).words.length
  | .committing r false => List.range' cur r.words.length
  | _ => []

def ProducerPhase.unwritten : ProducerPhase → List (List Nat)
  | .checking r => [r.words]
  | .filling r => [r.words]
  | .wasting r => [r.words]
  | .writing r _ => [r.words]
  | _ => []

def ProducerPhase.ahead : ProducerPhase → Nat
  | .committing _ true => 16
  | _ => 0

def ShmEntry.words? : ShmEntry → Option (List Nat)
  | .message words => some words
  | .filler => none

structure ShmInv (s : Shm) (start : RingPos) (items : List (RingItem Nat)) : Prop where
  laid : ShmLaid s.mem start items
  start_lt : start.cur < start.size
  fits : ringExtent start items ≤ start.size
  producer : ProducerInv s start items
  consumer : ConsumerInv s start items
  producer_len : externalWriterMinSharedSize ∣ s.producer.len ∧
    externalWriterMinSharedSize ≤ s.producer.len ∧ s.producer.len < 2 ^ 32
  consumer_len : s.consumer.len = shmControlSize + 4 * shmCells s.consumer.len
  file_len : s.fileLen = s.producer.len
  counters : s.avail + BitVec.ofNat 64 s.producer.phase.ahead =
    s.done + BitVec.ofNat 64 (4 * (ringExtent start items + ringGrowth items))
  logged : s.placed = s.taken ++ (s.consumer.phase.pending items).map RingItem.entry ++
    s.producer.phase.written
  unread_eq : s.unread = ringCells start items ++ s.producer.phase.cells s.producer.cur
  sent_eq : s.placed.filterMap ShmEntry.words? ++ s.producer.phase.unwritten =
    s.sent.map ShmRequest.words

theorem shmCells_eq {len : Nat} (h : externalWriterMinSharedSize ∣ len)
    (hle : externalWriterMinSharedSize ≤ len) : len = shmControlSize + 4 * shmCells len := by
  unfold externalWriterMinSharedSize at h hle
  unfold shmCells shmControlSize
  omega

theorem header_request {request : Nat} (h : request < 2 ^ 16) :
    (request ||| externalWriterRequestHiMagic) &&& externalWriterRequestLoMask = request := by
  have hmagic : externalWriterRequestHiMagic &&& externalWriterRequestLoMask = 0 := by decide
  rw [Nat.and_or_distrib_right, hmagic, Nat.or_zero]
  have hmask : externalWriterRequestLoMask = 2 ^ 16 - 1 := by decide
  rw [hmask, Nat.and_two_pow_sub_one_eq_mod, Nat.mod_eq_of_lt h]

theorem header_magic {request : Nat} (h : request < 2 ^ 16) :
    (request ||| externalWriterRequestHiMagic) &&& externalWriterRequestHiMask =
      externalWriterRequestHiMagic := by
  have hlow : request &&& externalWriterRequestHiMask = 0 := by
    have hself : request = request &&& (2 ^ 16 - 1) := by
      rw [Nat.and_two_pow_sub_one_eq_mod, Nat.mod_eq_of_lt h]
    rw [hself, Nat.and_assoc]
    have hz : (2 ^ 16 - 1) &&& externalWriterRequestHiMask = 0 := by decide
    rw [hz, Nat.and_zero]
  rw [Nat.and_or_distrib_right, hlow, Nat.zero_or]
  decide

theorem words_length (r : ShmRequest) :
    r.words.length = match r with
      | .message m => m.body.length + 2
      | .resize _ => 4 := by
  cases r <;> rfl

theorem words_length_le (r : ShmRequest) : r.words.length ≤ r.space := by
  rw [words_length]
  cases r with
  | message m => exact m.space_le
  | resize len => exact Nat.le_refl _

theorem two_le_words (r : ShmRequest) : 2 ≤ r.words.length := by
  rw [words_length]
  cases r with
  | message m => exact Nat.le_add_left _ _
  | resize len =>
    show 2 ≤ 4
    omega

theorem ProducerInv.end_size {s : Shm} {start : RingPos} {items : List (RingItem Nat)}
    (h : ProducerInv s start items) : (ringEnd start items).size = shmCells s.producer.len := by
  unfold ProducerInv at h
  split at h
  · rw [h]
    rfl
  · rw [h.1]
    rfl
  · rw [h.1]
    rfl
  · rw [h.1]
    rfl
  · rw [h.1.pos]
    rfl
  · rw [h.pos]
    rfl
  · rw [h.1.pos]
    rfl
  · rw [h.1]
    rfl

theorem ProducerInv.mono {s s' : Shm} {start start' : RingPos} {items items' : List (RingItem Nat)}
    (h : ProducerInv s start items) (hp : s'.producer = s.producer) (hm : s'.mem = s.mem)
    (he : ringEnd start' items' = ringEnd start items)
    (hroom : ringExtent start' items' + start.size ≤ ringExtent start items + start'.size) :
    ProducerInv s' start' items' := by
  have hw : ∀ {r : ShmRequest} {k : Nat}, WritingInv s start items r k →
      WritingInv s' start' items' r k := by
    intro r k hk
    have hr := hk.room
    constructor
    · rw [he, hp]
      exact hk.pos
    · rw [hp]
      exact hk.admitted
    · omega
    · rw [hp]
      exact hk.linear
    · rw [hp, hm]
      exact hk.words
  unfold ProducerInv at h ⊢
  rw [hp, hm, he]
  split at h
  · exact h
  · exact h
  · exact ⟨h.1, h.2.1, by have := h.2.2.1; omega, h.2.2.2⟩
  · exact ⟨h.1, h.2.1, by have := h.2.2.1; omega, h.2.2.2⟩
  · exact ⟨hw h.1, h.2⟩
  · exact hw h
  · exact ⟨hw h.1, h.2⟩
  · exact h

theorem ConsumerInv.append {s s' : Shm} {start : RingPos} {items : List (RingItem Nat)}
    (h : ConsumerInv s start items) (hc : s'.consumer = s.consumer) (more : List (RingItem Nat)) :
    ConsumerInv s' start (items ++ more) := by
  unfold ConsumerInv at h ⊢
  rw [hc]
  split at h
  · exact h
  · exact ⟨h.1, by simp [h.2]⟩
  · obtain ⟨words, grow, rest, rfl, hrest⟩ := h
    exact ⟨words, grow, rest ++ more, rfl, hrest⟩
  · obtain ⟨words, rest, rfl, hrest⟩ := h
    exact ⟨words, rest ++ more, rfl, hrest⟩
  · trivial
  · exact h

theorem ConsumerInv.congr {s s' : Shm} {start : RingPos} {items : List (RingItem Nat)}
    (h : ConsumerInv s start items) (hc : s'.consumer = s.consumer) :
    ConsumerInv s' start items := by
  have := h.append hc []
  rwa [List.append_nil] at this

theorem ConsumerInv.pending_append {s : Shm} {start : RingPos} {items : List (RingItem Nat)}
    (h : ConsumerInv s start items) (more : List (RingItem Nat)) :
    s.consumer.phase.pending (items ++ more) = s.consumer.phase.pending items ++ more := by
  unfold ConsumerInv at h
  cases hph : s.consumer.phase with
  | expanding expand cells =>
    rw [hph] at h
    obtain ⟨words, grow, rest, rfl, hrest⟩ := h
    rfl
  | finishing cells stop =>
    rw [hph] at h
    obtain ⟨words, rest, rfl, hrest⟩ := h
    rfl
  | _ => rfl

end Ucesb
