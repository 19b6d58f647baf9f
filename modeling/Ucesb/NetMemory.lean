import Ucesb.NetSteps

namespace Ucesb

def reclaimed (consumers : Nat → Nat) (needed : Nat) : List SendChunk → Nat → List SendChunk
  | [], _ => []
  | c :: chunks, eventLength =>
    if eventLength + needed > maxBufferMemory then
      if consumers c.id = 0 then
        c :: reclaimed consumers needed chunks
          ((eventLength + 2 ^ 64 - (sizeofSendItemChunk + c.length)) % 2 ^ 64)
      else reclaimed consumers needed chunks eventLength
    else []

/-- The first one that is large enough is used again, the others are freed. -/
def stolen (allocSize : Nat) (chunks : List SendChunk) : Option SendChunk :=
  chunks.find? fun c => c.alloc + sizeofSendItemChunk ≥ allocSize

structure NetMemory where
  io : NetIo
  block : Nat → Nat

def memInit : NetMemory := ⟨netInit, fun _ => 0⟩

def NetMemory.total (m : NetMemory) : Nat :=
  ((m.io.inits ++ m.io.events).map fun c => m.block c.id).sum

def chunkAllocSize (length : Nat) : Nat := max (sizeofSendItemChunk + length * 4) 0x10000

def NetMemory.takenOut (m : NetMemory) (length : Nat) : List SendChunk :=
  reclaimed m.io.consumers (m.io.initLength + chunkAllocSize length) m.io.events m.io.eventLength

/-- A new block has the size that was asked for, a stolen one the size it always had. -/
def NetMemory.blockSize (m : NetMemory) (length : Nat) : Nat :=
  match stolen (chunkAllocSize length) (m.takenOut length) with
  | some c => m.block c.id
  | none => chunkAllocSize length

def NetMemory.hasRoom (m : NetMemory) (length : Nat) (initChunk : Bool) : Bool :=
  roomLeft (if initChunk then m.io.inits else m.io.events) length

def NetMemory.after (m : NetMemory) (io : NetIo) : NetAct → NetMemory
  | .reserve length initChunk =>
    if m.hasRoom length initChunk then ⟨io, m.block⟩
    else ⟨io, Function.update m.block m.io.nextId (m.blockSize length)⟩
  | .commit _ => ⟨io, m.block⟩
  | .accept => ⟨io, m.block⟩
  | .write _ _ => ⟨io, m.block⟩
  | .shutdown _ _ => ⟨io, m.block⟩

def memStep (m : NetMemory) (a : NetAct) : Option NetMemory :=
  (netStep m.io a).bind fun io =>
    if (m.after io a).total < 2 ^ 64 then some (m.after io a) else none

def Accounted (m : NetMemory) : Prop := m.io.eventLength + m.io.initLength = m.total

/-- When a chunk is made, what was unused of the chunks taken out is what the stolen one is too
large by. -/
def Balanced (m : NetMemory) : NetAct → Prop
  | .reserve length initChunk => m.hasRoom length initChunk = true ∨
    ((m.takenOut length).map fun c => m.block c.id - (sizeofSendItemChunk + c.length)).sum =
      m.blockSize length - chunkAllocSize length
  | .commit _ => True
  | .accept => True
  | .write _ _ => True
  | .shutdown _ _ => True

structure MemInv (m : NetMemory) : Prop where
  ids : ∀ c ∈ m.io.inits ++ m.io.events, c.id < m.io.nextId
  fits : ∀ c ∈ m.io.inits ++ m.io.events,
    c.length ≤ c.alloc ∧ c.alloc + sizeofSendItemChunk ≤ m.block c.id
  room : ∀ initChunk length c, m.io.reserved = some (initChunk, length) →
    (if initChunk then m.io.inits else m.io.events).getLast? = some c → c.length + length ≤ c.alloc
  counted : (m.io.events.map fun c => c.alloc + sizeofSendItemChunk).sum ≤ m.io.eventLength
  space : m.total < 2 ^ 64

theorem memInit_inv : MemInv memInit where
  ids := by
    intro c hc
    cases hc
  fits := by
    intro c hc
    cases hc
  room := by
    intro initChunk length c hres
    cases hres
  counted := Nat.le_refl _
  space := by decide

section Reclaim

variable {consumers : Nat → Nat} {needed : Nat} {chunks : List SendChunk}

theorem reclaim_sum (f : SendChunk → Nat) (eventLength : Nat) :
    ((reclaim consumers needed chunks eventLength).1.map f).sum +
      ((reclaimed consumers needed chunks eventLength).map f).sum = (chunks.map f).sum := by
  induction chunks generalizing eventLength with
  | nil => rfl
  | cons c chunks ih =>
    unfold reclaim reclaimed
    split
    · split
      · have hc := ih ((eventLength + 2 ^ 64 - (sizeofSendItemChunk + c.length)) % 2 ^ 64)
        simp only [List.map_cons, List.sum_cons]
        omega
      · have hc := ih eventLength
        simp only [List.map_cons, List.sum_cons]
        omega
    · simp

theorem reclaimed_sublist (eventLength : Nat) :
    (reclaimed consumers needed chunks eventLength).Sublist chunks := by
  induction chunks generalizing eventLength with
  | nil => exact List.Sublist.refl _
  | cons c chunks ih =>
    unfold reclaimed
    split
    · split
      · exact (ih _).cons_cons _
      · exact (ih _).cons _
    · exact List.nil_sublist _

theorem reclaim_length {eventLength : Nat} (hlt : eventLength < 2 ^ 64)
    (hle : (chunks.map fun c => sizeofSendItemChunk + c.length).sum ≤ eventLength) :
    (reclaim consumers needed chunks eventLength).2 +
      ((reclaimed consumers needed chunks eventLength).map
        fun c => sizeofSendItemChunk + c.length).sum = eventLength := by
  induction chunks generalizing eventLength with
  | nil => rfl
  | cons c chunks ih =>
    rw [List.map_cons, List.sum_cons] at hle
    unfold reclaim reclaimed
    split
    · split
      · have hmod : (eventLength + 2 ^ 64 - (sizeofSendItemChunk + c.length)) % 2 ^ 64 =
            eventLength - (sizeofSendItemChunk + c.length) := by
          omega
        rw [hmod, List.map_cons, List.sum_cons]
        have hlt' : eventLength - (sizeofSendItemChunk + c.length) < 2 ^ 64 := by
          omega
        have hc := ih hlt' (by omega)
        omega
      · exact ih hlt (by omega)
    · rfl

end Reclaim

section Same

variable {io io' : NetIo} {m : NetMemory}

theorem SameData.total (h : SameData m.io io') :
    NetMemory.total ⟨io', m.block⟩ = m.total := by
  simp only [NetMemory.total, h.inits, h.events]

theorem SameData.inv (h : SameData m.io io') (hinv : MemInv m) : MemInv ⟨io', m.block⟩ where
  ids := by
    simpa only [h.inits, h.events, h.nextId] using hinv.ids
  fits := by
    simpa only [h.inits, h.events] using hinv.fits
  room := by
    simpa only [h.inits, h.events, h.reserved] using hinv.room
  counted := by
    simpa only [h.events, h.eventLength] using hinv.counted
  space := by
    rw [h.total]
    exact hinv.space

theorem SameData.accounted (h : SameData m.io io') :
    Accounted ⟨io', m.block⟩ ↔ Accounted m := by
  simp only [Accounted, h.total, h.eventLength, h.initLength]

end Same

theorem appendMsg_map (msg : List UInt8) (chunks : List SendChunk) (f : SendChunk → Nat)
    (hf : ∀ c msgs, f { c with msgs := msgs } = f c) :
    (appendMsg msg chunks).map f = chunks.map f := by
  rcases List.eq_nil_or_concat chunks with rfl | ⟨pre, c, rfl⟩
  · rfl
  · rw [List.concat_eq_append, appendMsg_last]
    simp [hf]

theorem mem_appendMsg {msg : List UInt8} {chunks : List SendChunk} {c d : SendChunk}
    (hlast : chunks.getLast? = some d) (hc : c ∈ appendMsg msg chunks) :
    c ∈ chunks ∨ c = { d with msgs := d.msgs ++ [msg] } := by
  obtain ⟨pre, rfl⟩ := List.getLast?_eq_some_iff.mp hlast
  rw [appendMsg_last] at hc
  rcases List.mem_append.mp hc with hc | hc
  · exact .inl (List.mem_append_left _ hc)
  · exact .inr (List.mem_singleton.mp hc)

section Commit

variable {m : NetMemory} {io : NetIo} {msg : List UInt8}

theorem commit_total (h : extNetIoCommitChunk m.io msg = some io) :
    NetMemory.total ⟨io, m.block⟩ = m.total ∧ io.eventLength = m.io.eventLength ∧
      io.initLength = m.io.initLength := by
  obtain ⟨initChunk, length, chunk, -, -, -, rfl⟩ := commitChunk_cases h
  refine ⟨?_, rfl, rfl⟩
  simp only [NetMemory.total, NetIo.commit, List.map_append, List.sum_append]
  cases initChunk with
  | true => simp [appendMsg_map]
  | false => simp [appendMsg_map]

theorem commit_fits (hinv : MemInv m) (h : extNetIoCommitChunk m.io msg = some io) :
    ∀ c ∈ io.inits ++ io.events, c.id < io.nextId ∧
      c.length ≤ c.alloc ∧ c.alloc + sizeofSendItemChunk ≤ m.block c.id := by
  obtain ⟨initChunk, length, chunk, hres, hshort, hlast, rfl⟩ := commitChunk_cases h
  have hroom := hinv.room initChunk length chunk hres hlast
  have hold : ∀ c ∈ m.io.inits ++ m.io.events, c.id < m.io.nextId ∧
      c.length ≤ c.alloc ∧ c.alloc + sizeofSendItemChunk ≤ m.block c.id :=
    fun c hc => ⟨hinv.ids c hc, hinv.fits c hc⟩
  have hnew : (chunk ∈ m.io.inits ++ m.io.events) →
      SendChunk.length { chunk with msgs := chunk.msgs ++ [msg] } ≤ chunk.alloc := by
    intro hc
    have hlen : SendChunk.length { chunk with msgs := chunk.msgs ++ [msg] } =
        chunk.length + msg.length := by
      simp [SendChunk.length, data_snoc]
    omega
  intro c hc
  cases initChunk with
  | true =>
    simp only [NetIo.commit, if_true] at hc
    have hmem : chunk ∈ m.io.inits ++ m.io.events :=
      List.mem_append_left _ (List.mem_of_getLast? hlast)
    rcases List.mem_append.mp hc with hc | hc
    · rcases mem_appendMsg hlast hc with hc | rfl
      · exact hold c (List.mem_append_left _ hc)
      · exact ⟨(hold chunk hmem).1, hnew hmem, (hold chunk hmem).2.2⟩
    · exact hold c (List.mem_append_right _ hc)
  | false =>
    simp only [NetIo.commit, Bool.false_eq_true, if_false] at hc
    have hmem : chunk ∈ m.io.inits ++ m.io.events :=
      List.mem_append_right _ (List.mem_of_getLast? hlast)
    rcases List.mem_append.mp hc with hc | hc
    · exact hold c (List.mem_append_left _ hc)
    · rcases mem_appendMsg hlast hc with hc | rfl
      · exact hold c (List.mem_append_right _ hc)
      · exact ⟨(hold chunk hmem).1, hnew hmem, (hold chunk hmem).2.2⟩

theorem commit_memInv (hinv : MemInv m) (h : extNetIoCommitChunk m.io msg = some io) :
    MemInv ⟨io, m.block⟩ := by
  have hfits := commit_fits hinv h
  have htotal := (commit_total h).1
  obtain ⟨initChunk, length, chunk, -, -, -, rfl⟩ := commitChunk_cases h
  exact {
    ids := fun c hc => (hfits c hc).1
    fits := fun c hc => (hfits c hc).2
    room := by
      intro initChunk length c hres
      cases hres
    counted := by
      have hcount := hinv.counted
      cases initChunk with
      | true => exact hcount
      | false => simpa [NetIo.commit, appendMsg_map] using hcount
    space := by
      rw [htotal]
      exact hinv.space }

end Commit

section Reserve

variable {m : NetMemory} {io : NetIo} {length : Nat} {initChunk : Bool}

theorem reserve_room (hroom : m.hasRoom length initChunk = true)
    (h : extNetIoReserveChunk m.io length initChunk = some io) :
    io = { m.io with reserved := some (initChunk, length) } := by
  unfold extNetIoReserveChunk at h
  unfold NetMemory.hasRoom at hroom
  rw [if_pos hroom] at h
  exact (Option.some.inj h).symm

theorem reserve_new (hroom : m.hasRoom length initChunk = false)
    (h : extNetIoReserveChunk m.io length initChunk = some io) :
    io = { m.io.newChunk (chunkAllocSize length) initChunk with
      reserved := some (initChunk, length) } := by
  unfold extNetIoReserveChunk at h
  unfold NetMemory.hasRoom at hroom
  rw [if_neg (by rw [hroom]; decide)] at h
  split at h
  · cases h
  · exact (Option.some.inj h).symm

theorem reserve_room_inv (hinv : MemInv m) (hroom : m.hasRoom length initChunk = true) :
    MemInv ⟨{ m.io with reserved := some (initChunk, length) }, m.block⟩ where
  ids := hinv.ids
  fits := hinv.fits
  room := by
    intro initChunk' length' c hres hlast
    cases hres
    have hmem : c ∈ m.io.inits ++ m.io.events := by
      cases initChunk with
      | true => exact List.mem_append_left _ (List.mem_of_getLast? hlast)
      | false => exact List.mem_append_right _ (List.mem_of_getLast? hlast)
    have hle := (hinv.fits c hmem).1
    unfold NetMemory.hasRoom roomLeft at hroom
    rw [show (if initChunk = true then m.io.inits else m.io.events).getLast? = some c from hlast]
      at hroom
    simp only [ge_iff_le, decide_eq_true_eq] at hroom
    omega
  counted := hinv.counted
  space := hinv.space

theorem blockSize_ge (hinv : MemInv m) (length : Nat) :
    chunkAllocSize length ≤ m.blockSize length := by
  unfold NetMemory.blockSize
  cases hs : stolen (chunkAllocSize length) (m.takenOut length) with
  | none => exact Nat.le_refl _
  | some c =>
    have hbig : c.alloc + sizeofSendItemChunk ≥ chunkAllocSize length := by
      simpa using List.find?_some hs
    have hmem : c ∈ m.io.events := (reclaimed_sublist _).subset (List.mem_of_find?_eq_some hs)
    have hfit := (hinv.fits c (List.mem_append_right _ hmem)).2
    exact Nat.le_trans hbig hfit

theorem sum_update_fresh {chunks : List SendChunk} {n : Nat} (hlt : ∀ c ∈ chunks, c.id < n)
    (block : Nat → Nat) (size : Nat) :
    (chunks.map fun c => Function.update block n size c.id).sum =
      (chunks.map fun c => block c.id).sum := by
  congr 1
  apply List.map_congr_left
  intro c hc
  exact Function.update_of_ne (Nat.ne_of_lt (hlt c hc)) _ _

theorem sum_le_of_le {chunks : List SendChunk} {f g : SendChunk → Nat}
    (h : ∀ c ∈ chunks, f c ≤ g c) : (chunks.map f).sum ≤ (chunks.map g).sum := by
  induction chunks with
  | nil => exact Nat.le_refl _
  | cons c chunks ih =>
    have hc := h c (List.mem_cons_self ..)
    have hrest := ih fun d hd => h d (List.mem_cons_of_mem _ hd)
    simp only [List.map_cons, List.sum_cons]
    omega

theorem sum_sub_add (chunks : List SendChunk) (f g : SendChunk → Nat)
    (h : ∀ c ∈ chunks, f c ≤ g c) :
    (chunks.map fun c => g c - f c).sum + (chunks.map f).sum = (chunks.map g).sum := by
  induction chunks with
  | nil => rfl
  | cons c chunks ih =>
    have hc := h c (List.mem_cons_self ..)
    have hrest := ih fun d hd => h d (List.mem_cons_of_mem _ hd)
    simp only [List.map_cons, List.sum_cons]
    omega

def NetMemory.made (m : NetMemory) (length : Nat) (initChunk : Bool) : NetMemory :=
  ⟨{ m.io.newChunk (chunkAllocSize length) initChunk with reserved := some (initChunk, length) },
    Function.update m.block m.io.nextId (m.blockSize length)⟩

/-- The chunks that stay when a chunk is made, and the length that is left. -/
def NetMemory.kept (m : NetMemory) (length : Nat) : List SendChunk × Nat :=
  reclaim m.io.consumers (m.io.initLength + chunkAllocSize length) m.io.events m.io.eventLength

theorem kept_subset (m : NetMemory) (length : Nat) {c : SendChunk} (hc : c ∈ (m.kept length).1) :
    c ∈ m.io.events :=
  (reclaim_sublist _ _ _ _).subset hc

theorem made_total (hinv : MemInv m) : (m.made length initChunk).total =
    (m.io.inits.map fun c => m.block c.id).sum +
      ((m.kept length).1.map fun c => m.block c.id).sum + m.blockSize length := by
  have hinits : ∀ c ∈ m.io.inits, c.id < m.io.nextId :=
    fun c hc => hinv.ids c (List.mem_append_left _ hc)
  have hkept : ∀ c ∈ (m.kept length).1, c.id < m.io.nextId :=
    fun c hc => hinv.ids c (List.mem_append_right _ (kept_subset m length hc))
  have hsums := sum_update_fresh hkept m.block (m.blockSize length)
  have hsumi := sum_update_fresh hinits m.block (m.blockSize length)
  cases initChunk with
  | true =>
    simp only [NetMemory.total, NetMemory.made, NetIo.newChunk, if_true, List.map_append,
      List.sum_append, List.map_cons, List.map_nil, List.sum_cons, List.sum_nil,
      Function.update_self, hsumi]
    unfold NetMemory.kept at hsums ⊢
    omega
  | false =>
    simp only [NetMemory.total, NetMemory.made, NetIo.newChunk, Bool.false_eq_true, if_false,
      List.map_append, List.sum_append, List.map_cons, List.map_nil, List.sum_cons, List.sum_nil,
      Function.update_self, hsumi]
    unfold NetMemory.kept at hsums ⊢
    omega

theorem made_lengths : (m.made length initChunk).io.eventLength +
    (m.made length initChunk).io.initLength =
      (m.kept length).2 + m.io.initLength + chunkAllocSize length := by
  cases initChunk with
  | true =>
    simp only [NetMemory.made, NetIo.newChunk, NetMemory.kept, if_true]
    omega
  | false =>
    simp only [NetMemory.made, NetIo.newChunk, NetMemory.kept, Bool.false_eq_true, if_false]
    omega

theorem takenOut_fits (hinv : MemInv m) {c : SendChunk} (hc : c ∈ m.takenOut length) :
    sizeofSendItemChunk + c.length ≤ c.alloc + sizeofSendItemChunk ∧
      sizeofSendItemChunk + c.length ≤ m.block c.id := by
  have hmem : c ∈ m.io.events := (reclaimed_sublist _).subset hc
  obtain ⟨hlen, hblock⟩ := hinv.fits c (List.mem_append_right _ hmem)
  omega

theorem kept_length (hinv : MemInv m) (hacc : Accounted m) (length : Nat) :
    (m.kept length).2 + ((m.takenOut length).map fun c => sizeofSendItemChunk + c.length).sum =
      m.io.eventLength := by
  apply reclaim_length
  · have hspace := hinv.space
    unfold Accounted at hacc
    omega
  · apply Nat.le_trans _ hinv.counted
    apply sum_le_of_le
    intro c hc
    have hlen := (hinv.fits c (List.mem_append_right _ hc)).1
    omega

theorem made_accounted (hinv : MemInv m) (hacc : Accounted m) :
    Accounted (m.made length initChunk) ↔
      ((m.takenOut length).map fun c => m.block c.id - (sizeofSendItemChunk + c.length)).sum =
        m.blockSize length - chunkAllocSize length := by
  have hstay : ((m.kept length).1.map fun c => m.block c.id).sum +
      ((m.takenOut length).map fun c => m.block c.id).sum =
        (m.io.events.map fun c => m.block c.id).sum :=
    reclaim_sum _ _
  have hlength := kept_length hinv hacc length
  have hunused := sum_sub_add (m.takenOut length) (fun c => sizeofSendItemChunk + c.length)
    (fun c => m.block c.id) fun c hc => (takenOut_fits hinv hc).2
  have hge := blockSize_ge hinv length
  unfold Accounted at hacc ⊢
  rw [made_lengths, made_total hinv]
  simp only [NetMemory.total, List.map_append, List.sum_append] at hacc
  omega

theorem mem_made {c : SendChunk}
    (hc : c ∈ (m.made length initChunk).io.inits ++ (m.made length initChunk).io.events) :
    c ∈ m.io.inits ++ m.io.events ∨
      c = ⟨m.io.nextId, chunkAllocSize length - sizeofSendItemChunk, []⟩ := by
  have hkept : ∀ d ∈ (m.kept length).1, d ∈ m.io.inits ++ m.io.events :=
    fun d hd => List.mem_append_right _ (kept_subset m length hd)
  cases initChunk with
  | true =>
    simp only [NetMemory.made, NetIo.newChunk, if_true, List.mem_append, List.mem_singleton] at hc
    rcases hc with (hc | hc) | hc
    · exact .inl (List.mem_append_left _ hc)
    · exact .inr hc
    · exact .inl (hkept c hc)
  | false =>
    simp only [NetMemory.made, NetIo.newChunk, Bool.false_eq_true, if_false, List.mem_append,
      List.mem_singleton] at hc
    rcases hc with hc | hc | hc
    · exact .inl (List.mem_append_left _ hc)
    · exact .inl (hkept c hc)
    · exact .inr hc

theorem made_last : (if initChunk then (m.made length initChunk).io.inits
    else (m.made length initChunk).io.events).getLast? =
      some ⟨m.io.nextId, chunkAllocSize length - sizeofSendItemChunk, []⟩ := by
  cases initChunk with
  | true => simp [NetMemory.made, NetIo.newChunk]
  | false => simp [NetMemory.made, NetIo.newChunk]

theorem kept_counted (hinv : MemInv m) (hacc : Accounted m) (length : Nat) :
    ((m.kept length).1.map fun c => c.alloc + sizeofSendItemChunk).sum ≤ (m.kept length).2 := by
  have hstay : ((m.kept length).1.map fun c => c.alloc + sizeofSendItemChunk).sum +
      ((m.takenOut length).map fun c => c.alloc + sizeofSendItemChunk).sum =
        (m.io.events.map fun c => c.alloc + sizeofSendItemChunk).sum :=
    reclaim_sum _ _
  have hlength := kept_length hinv hacc length
  have hdata : ((m.takenOut length).map fun c => sizeofSendItemChunk + c.length).sum ≤
      ((m.takenOut length).map fun c => c.alloc + sizeofSendItemChunk).sum :=
    sum_le_of_le fun c hc => (takenOut_fits hinv hc).1
  have hcounted := hinv.counted
  omega

theorem made_inv (hinv : MemInv m) (hacc : Accounted m)
    (hspace : (m.made length initChunk).total < 2 ^ 64) : MemInv (m.made length initChunk) where
  ids := by
    intro c hc
    show c.id < m.io.nextId + 1
    rcases mem_made hc with hc | rfl
    · have hlt := hinv.ids c hc
      omega
    · exact Nat.lt_succ_self _
  fits := by
    intro c hc
    show _ ∧ _ ≤ Function.update m.block m.io.nextId (m.blockSize length) c.id
    rcases mem_made hc with hc | rfl
    · rw [Function.update_of_ne (Nat.ne_of_lt (hinv.ids c hc))]
      exact hinv.fits c hc
    · rw [Function.update_self]
      refine ⟨Nat.zero_le _, ?_⟩
      have hge := blockSize_ge hinv length
      have hmin : 0x10000 ≤ chunkAllocSize length := Nat.le_max_right _ _
      unfold sizeofSendItemChunk
      dsimp only
      omega
  room := by
    intro initChunk' length' c hres hlast
    cases hres
    rw [made_last] at hlast
    cases hlast
    have hmin : sizeofSendItemChunk + length * 4 ≤ chunkAllocSize length := Nat.le_max_left _ _
    show 0 + length ≤ chunkAllocSize length - sizeofSendItemChunk
    omega
  counted := by
    have hkept := kept_counted hinv hacc length
    have hmin : 0x10000 ≤ chunkAllocSize length := Nat.le_max_right _ _
    unfold NetMemory.kept at hkept
    cases initChunk with
    | true => simpa only [NetMemory.made, NetIo.newChunk, if_true] using hkept
    | false =>
      simp only [NetMemory.made, NetIo.newChunk, Bool.false_eq_true, if_false, List.map_append,
        List.sum_append, List.map_cons, List.map_nil, List.sum_cons, List.sum_nil]
      have hsize : chunkAllocSize length - sizeofSendItemChunk + sizeofSendItemChunk =
          chunkAllocSize length := by
        unfold sizeofSendItemChunk
        omega
      omega
  space := hspace

end Reserve

theorem memStep_accounted {m m' : NetMemory} {a : NetAct} (hinv : MemInv m) (hacc : Accounted m)
    (h : memStep m a = some m') : MemInv m' ∧ (Accounted m' ↔ Balanced m a) := by
  obtain ⟨io, hio, h⟩ := Option.bind_eq_some_iff.mp h
  split at h
  · next hspace =>
    cases h
    have hclient : SameData m.io io → MemInv ⟨io, m.block⟩ ∧ (Accounted ⟨io, m.block⟩ ↔ True) :=
      fun hsame => ⟨hsame.inv hinv, by simp [hsame.accounted, hacc]⟩
    cases a with
    | reserve length initChunk =>
      have hres : extNetIoReserveChunk m.io length initChunk = some io := by
        cases hr : m.io.reserved with
        | none => simpa [netStep, hr] using hio
        | some r => simp [netStep, hr] at hio
      cases hroom : m.hasRoom length initChunk with
      | true =>
        have he := reserve_room hroom hres
        subst he
        simp only [NetMemory.after, Balanced, hroom, if_true, true_or, iff_true]
        exact ⟨reserve_room_inv hinv hroom, hacc⟩
      | false =>
        have he := reserve_new hroom hres
        subst he
        simp only [NetMemory.after, Balanced, hroom, Bool.false_eq_true, if_false, false_or]
          at hspace ⊢
        exact ⟨made_inv hinv hacc hspace, made_accounted hinv hacc⟩
    | commit msg =>
      obtain ⟨htotal, hevent, hinit⟩ := commit_total hio
      refine ⟨commit_memInv hinv hio, ?_⟩
      simp only [NetMemory.after, Balanced, iff_true]
      unfold Accounted at hacc ⊢
      rw [htotal, hevent, hinit]
      exact hacc
    | accept => exact hclient (netStep_same (.inl rfl) hio)
    | write i results => exact hclient (netStep_same (.inr (.inl ⟨i, results, rfl⟩)) hio)
    | shutdown i count => exact hclient (netStep_same (.inr (.inr ⟨i, count, rfl⟩)) hio)
  · cases h

theorem memRun_accounted {m m' : NetMemory} {acts : List NetAct} (hinv : MemInv m)
    (hacc : Accounted m) (h : runSteps memStep m acts = some m') :
    (∀ pre s, pre <+: acts → runSteps memStep m pre = some s → Accounted s) ↔
      StepsMeet memStep Balanced m acts := by
  induction acts generalizing m with
  | nil =>
    simp only [StepsMeet, iff_true]
    intro pre s hpre hs
    rw [List.prefix_nil] at hpre
    subst hpre
    cases hs
    exact hacc
  | cons a acts ih =>
    obtain ⟨t, ht, hr⟩ := Option.bind_eq_some_iff.mp h
    obtain ⟨hinvt, hiff⟩ := memStep_accounted hinv hacc ht
    constructor
    · intro hall
      have hacct : Accounted t := by
        apply hall [a] t
        · exact List.cons_prefix_cons.mpr ⟨rfl, List.nil_prefix⟩
        · simp [runSteps, ht]
      refine ⟨hiff.mp hacct, ?_⟩
      intro s' hs'
      cases ht.symm.trans hs'
      apply (ih hinvt hacct hr).mp
      intro pre s hpre hs
      apply hall (a :: pre) s
      · exact List.cons_prefix_cons.mpr ⟨rfl, hpre⟩
      · simpa [runSteps, ht] using hs
    · rintro ⟨hbal, hrest⟩ pre s hpre hs
      have hacct := hiff.mpr hbal
      cases pre with
      | nil =>
        cases hs
        exact hacc
      | cons b pre =>
        obtain ⟨rfl, htail⟩ := List.cons_prefix_cons.mp hpre
        refine (ih hinvt hacct hr).mpr (hrest t ht) pre s htail ?_
        simpa [runSteps, ht] using hs

/-- The lengths are the memory in use in every state of a run if and only if every reservation of a
new chunk is balanced. -/
theorem buffer_memory_accounted {acts : List NetAct} {m : NetMemory}
    (h : runSteps memStep memInit acts = some m) :
    (∀ pre s, pre <+: acts → runSteps memStep memInit pre = some s → Accounted s) ↔
      StepsMeet memStep Balanced memInit acts :=
  memRun_accounted memInit_inv rfl h

theorem buffer_memory_accounted_short :
    ∃ m, runSteps memStep memInit [.reserve 8 true, .commit [1, 2, 3, 4], .reserve 8 false] = some m ∧
      ((∀ pre s, pre <+: [.reserve 8 true, .commit [1, 2, 3, 4], .reserve 8 false] →
        runSteps memStep memInit pre = some s → Accounted s) ↔
      StepsMeet memStep Balanced memInit
        [.reserve 8 true, .commit [1, 2, 3, 4], .reserve 8 false]) := by
  have hrun : ((runSteps memStep memInit
      [.reserve 8 true, .commit [1, 2, 3, 4], .reserve 8 false]).map fun m => m.total) =
      some 131072 := by
    decide +kernel
  obtain ⟨m, hm, -⟩ := Option.map_eq_some_iff.mp hrun
  exact ⟨m, hm, buffer_memory_accounted hm⟩

def wastedChunks : List NetAct :=
  [.reserve 8 true, .commit [1, 2, 3, 4], .reserve 8 false, .commit [1, 2, 3, 4],
    .reserve 65500 false, .commit [1, 2, 3, 4], .reserve 262004 false, .commit [1, 2, 3, 4],
    .reserve 1048020 false, .commit [1, 2, 3, 4], .reserve 4192084 false]

theorem wasted_memory_is_counted :
    ¬ ∀ acts m, runSteps memStep memInit acts = some m → Accounted m := by
  intro h
  have hrun : ((runSteps memStep memInit wastedChunks).map
      fun m => decide (m.io.eventLength + m.io.initLength = m.total)) = some false := by
    decide +kernel
  obtain ⟨m, hm, hne⟩ := Option.map_eq_some_iff.mp hrun
  exact of_decide_eq_false hne (h _ m hm)

end Ucesb
