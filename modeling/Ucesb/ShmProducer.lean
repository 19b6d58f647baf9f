import Ucesb.ShmInvariant

namespace Ucesb

section Producer

variable {s s' : Shm} {start : RingPos} {items : List (RingItem Nat)}

theorem ShmInv.producer_cells (h : ShmInv s start items) :
    s.producer.len = shmControlSize + 4 * shmCells s.producer.len :=
  shmCells_eq h.producer_len.1 h.producer_len.2.1

theorem ShmInv.size_eq (h : ShmInv s start items) :
    start.size + ringGrowth items = shmCells s.producer.len := by
  rw [← h.producer.end_size, ringEnd_size]

theorem ShmInv.pos_lt (h : ShmInv s start items) (hp : ringEnd start items = s.producer.pos) :
    s.producer.cur < shmCells s.producer.len := by
  have := (ring_region h.start_lt h.laid h.fits).1
  rw [hp] at this
  exact this

theorem ShmInv.avail_eq (h : ShmInv s start items) (ha : s.producer.phase.ahead = 0) :
    s.avail = s.done + BitVec.ofNat 64 (4 * (ringExtent start items + ringGrowth items)) := by
  have hc := h.counters
  rw [ha] at hc
  exact (BitVec.add_zero _).symm.trans hc

theorem ShmInv.room_of_space (h : ShmInv s start items) {n : Nat}
    (ha : s.producer.phase.ahead = 0) (hn : n ≤ shmCells s.producer.len)
    (hs : s.lacksSpace n = false) : ringExtent start items + n ≤ start.size := by
  have hsize := h.size_eq
  have hfit := h.fits
  have hlen := h.producer_len.2.2
  have hcells := h.producer_cells
  unfold shmControlSize at hcells
  simp only [Shm.lacksSpace, decide_eq_false_iff_not, Nat.not_lt] at hs
  have hdiff : s.avail + BitVec.ofNat 64 (4 * n) - s.done =
      BitVec.ofNat 64 (4 * (ringExtent start items + ringGrowth items) + 4 * n) := by
    rw [h.avail_eq ha, BitVec.ofNat_add]
    ring
  rw [hdiff, BitVec.toNat_ofNat, Nat.mod_eq_of_lt (by omega)] at hs
  omega

theorem ShmInv.send_message (h : ShmInv s start items) (hidle : s.producer.phase = .idle)
    {r : ShmRequest} (hr : r.Admitted s.producer.len) :
    ShmInv { s with
      sent := s.sent ++ [r]
      producer := { s.producer with phase := .checking r } } start items := by
  have hp := h.producer
  have hc := h.counters
  have hl := h.logged
  have hu := h.unread_eq
  have hs := h.sent_eq
  unfold ProducerInv at hp
  rw [hidle] at hp hc hl hu hs
  exact { h with
    producer := ⟨hp, hr⟩
    consumer := h.consumer.congr rfl
    counters := hc
    logged := hl
    unread_eq := hu
    sent_eq := by
      have hs' : s.placed.filterMap ShmEntry.words? = s.sent.map ShmRequest.words := by
        simpa [ProducerPhase.unwritten] using hs
      show s.placed.filterMap ShmEntry.words? ++ [r.words] = _
      rw [hs', List.map_append]
      rfl }

theorem ShmInv.send (h : ShmInv s start items) {r : ShmRequest}
    (hidle : s.producer.phase = .idle) (hs : s.send r = some s') : ShmInv s' start items := by
  cases r with
  | message m =>
    simp only [Shm.send] at hs
    split at hs
    · cases hs
    · next hspace =>
      cases hs
      exact h.send_message hidle ⟨Nat.not_lt.mp hspace, trivial⟩
  | resize len =>
    simp only [Shm.send] at hs
    split at hs
    · cases hs
    · next hlen =>
      split at hs
      · cases hs
        exact h
      · next hle =>
        have hcells := h.producer_cells
        obtain ⟨hdvd, hmin, -⟩ := h.producer_len
        obtain ⟨hdvd', hlt⟩ := not_not.mp hlen
        cases hs
        apply h.send_message hidle
        refine ⟨?_, hdvd', hlt, ?_⟩
        · show 4 ≤ shmCells s.producer.len
          unfold externalWriterMinSharedSize shmControlSize at *
          omega
        · unfold externalWriterMinSharedSize shmControlSize at *
          omega

theorem ShmInv.check (h : ShmInv s start items) {r : ShmRequest}
    (hph : s.producer.phase = .checking r) {cells : Nat} (hs : s.produce cells = some s') :
    ShmInv s' start items := by
  have hp := h.producer
  have hc := h.counters
  have hl := h.logged
  have hu := h.unread_eq
  have hq := h.sent_eq
  have ha : s.producer.phase.ahead = 0 := by rw [hph]; rfl
  unfold ProducerInv at hp
  rw [hph] at hp hc hl hu hq
  obtain ⟨hpos, hadm⟩ := hp
  simp only [Shm.produce, hph] at hs
  split at hs
  · cases hs
    exact h
  · next hspace =>
    have hroom := h.room_of_space ha hadm.1 (Bool.eq_false_iff.mpr hspace)
    split at hs
    · next hlin =>
      cases hs
      exact { h with
        producer := ⟨hpos, hadm, hroom, hlin⟩
        consumer := h.consumer.congr rfl
        counters := hc
        logged := hl
        unread_eq := hu
        sent_eq := hq }
    · next hlin =>
      have hlt := h.pos_lt hpos
      have hwriting : WritingInv { s with producer := { s.producer with phase := .writing r 0 } }
          start items r 0 := by
        refine ⟨hpos, hadm, hroom, ?_, ?_⟩
        · show s.producer.cur + r.space ≤ shmCells s.producer.len
          omega
        · intro i hi
          simp at hi
      cases hs
      exact { h with
        producer := ⟨hwriting, Nat.lt_of_lt_of_le (by omega) (two_le_words r)⟩
        consumer := h.consumer.congr rfl
        counters := hc
        logged := hl
        unread_eq := hu
        sent_eq := hq }

theorem ShmInv.fill (h : ShmInv s start items) {r : ShmRequest}
    (hph : s.producer.phase = .filling r) {cells : Nat} (hs : s.produce cells = some s') :
    ShmInv s' start items := by
  have hp := h.producer
  have hc := h.counters
  have hl := h.logged
  have hu := h.unread_eq
  have hq := h.sent_eq
  unfold ProducerInv at hp
  rw [hph] at hp hc hl hu hq
  obtain ⟨hpos, hadm, hroom, hlin⟩ := hp
  have hcur : (ringEnd start items).cur = s.producer.cur := by
    rw [hpos]
    rfl
  have hwords := two_le_words r
  have hspace := words_length_le r
  simp only [Shm.produce, hph] at hs
  cases hs
  exact { h with
    laid := ringLaid_write h.start_lt h.laid hroom (Nat.le_of_eq hcur)
      (by rw [hcur]; simp only [List.length_singleton]; omega)
    producer := ⟨hpos, hadm, hroom, hlin, by
      have hw := @writeCells_at Nat s.mem s.producer.cur 0 [externalWriterBufEatLinSpace]
        Nat.zero_lt_one
      exact hw⟩
    consumer := h.consumer.congr rfl
    counters := hc
    logged := by
      show s.placed ++ [.filler] = _ ++ [.filler]
      rw [hl]
      simp [ProducerPhase.written]
    unread_eq := by
      show s.unread ++ [s.producer.cur] = ringCells start items ++ [s.producer.cur]
      rw [hu]
      simp [ProducerPhase.cells]
    sent_eq := by
      show (s.placed ++ [ShmEntry.filler]).filterMap ShmEntry.words? ++ [r.words] = _
      have hz : (s.placed ++ [ShmEntry.filler]).filterMap ShmEntry.words? =
          s.placed.filterMap ShmEntry.words? := by
        rw [List.filterMap_append]
        exact List.append_nil _
      rw [hz]
      exact hq }

theorem ShmInv.commit (h : ShmInv s start items) {item : RingItem Nat}
    {old phase : ProducerPhase} {n : Nat} (hph : s.producer.phase = old)
    (hpos : ringEnd start items = s.producer.pos)
    (hat : item.At externalWriterBufEatLinSpace FitsRing s.mem s.producer.pos)
    (hg : item.growth = 0) (hn : item.extent s.producer.pos = n)
    (hroom : ringExtent start items + n ≤ start.size)
    (hahead : old.ahead = 0) (hahead' : phase.ahead = 0)
    (hwritten : old.written = [item.entry]) (hwritten' : phase.written = [])
    (hcells : old.cells s.producer.cur = item.cells s.producer.pos)
    (hcells' : ∀ cur, phase.cells cur = []) (hun : old.unwritten = phase.unwritten)
    (hprod : ProducerInv (s.commitBufSpace n phase) start (items ++ [item])) :
    ShmInv (s.commitBufSpace n phase) start (items ++ [item]) := by
  have hextent : ringExtent start (items ++ [item]) = ringExtent start items + n := by
    rw [ringExtent_append, hpos, ringExtent, ringExtent, hn, Nat.add_zero]
  have hgrowth : ringGrowth (items ++ [item]) = ringGrowth items := by
    simp [ringGrowth, hg]
  subst hph
  exact { h with
    laid := by
      apply (ringLaid_append items [item]).mpr
      rw [hpos]
      exact ⟨h.laid, hat, trivial⟩
    fits := by
      rw [hextent]
      exact hroom
    producer := hprod
    consumer := h.consumer.append rfl _
    counters := by
      show s.avail + BitVec.ofNat 64 (4 * n) + BitVec.ofNat 64 phase.ahead = _
      have hsum : 4 * (ringExtent start items + n + ringGrowth items) =
          4 * (ringExtent start items + ringGrowth items) + 4 * n := by ring
      rw [hahead', hextent, hgrowth, hsum, BitVec.ofNat_add, h.avail_eq hahead]
      show _ = s.done + _
      rw [show BitVec.ofNat 64 0 = 0 from rfl]
      ring
    logged := by
      show s.placed = s.taken ++ (s.consumer.phase.pending (items ++ [item])).map RingItem.entry ++
        phase.written
      rw [h.consumer.pending_append, h.logged, hwritten, hwritten', List.map_append,
        List.append_nil, List.append_assoc]
      rfl
    unread_eq := by
      show s.unread = ringCells start (items ++ [item]) ++ phase.cells _
      rw [h.unread_eq, hcells, hcells', ringCells_append, hpos, ringCells, ringCells,
        List.append_nil, List.append_nil]
    sent_eq := by
      show s.placed.filterMap ShmEntry.words? ++ phase.unwritten = _
      rw [← hun]
      exact h.sent_eq }

theorem ShmInv.waste (h : ShmInv s start items) {r : ShmRequest}
    (hph : s.producer.phase = .wasting r) {cells : Nat} (hs : s.produce cells = some s') :
    ShmInv s' start (items ++ [.filler]) := by
  have hp := h.producer
  unfold ProducerInv at hp
  rw [hph] at hp
  obtain ⟨hpos, hadm, hroom, hlin, hmark⟩ := hp
  have hlt := h.pos_lt hpos
  simp only [Shm.produce, hph] at hs
  cases hs
  refine h.commit hph hpos hmark rfl rfl (by omega) rfl rfl rfl rfl rfl (fun _ => rfl) rfl
    ⟨?_, hadm⟩
  rw [ringEnd_append, hpos]
  simp only [ringEnd, RingPos.after, ShmSide.pos, Shm.commitBufSpace]
  rw [if_pos (by omega)]

theorem WritingInv.cur_eq {r : ShmRequest} {k : Nat} (h : WritingInv s start items r k) :
    (ringEnd start items).cur = s.producer.cur := by
  rw [h.pos]
  rfl

theorem ShmInv.write (h : ShmInv s start items) {r : ShmRequest} {k : Nat}
    (hph : s.producer.phase = .writing r k) {cells : Nat} (hs : s.produce cells = some s') :
    ShmInv s' start items := by
  have hp := h.producer
  have hc := h.counters
  have hl := h.logged
  have hu := h.unread_eq
  have hq := h.sent_eq
  unfold ProducerInv at hp
  rw [hph] at hp hc hl hu hq
  obtain ⟨hw, hk⟩ := hp
  have hspace := words_length_le r
  have hcur := hw.cur_eq
  have hpiece : ((r.words.drop k).take cells).length = min cells (r.words.length - k) := by
    rw [List.length_take, List.length_drop]
  have hlaid : ShmLaid (writeCells s.mem (s.producer.cur + k) ((r.words.drop k).take cells))
      start items := by
    refine ringLaid_write h.start_lt h.laid hw.room (by omega) ?_
    rw [hpiece, hcur]
    omega
  have hwords := @wordsAt_write Nat s.mem s.producer.cur k cells r.words hw.words
  have hunread : s.unread ++ List.range' (s.producer.cur + k) ((r.words.drop k).take cells).length =
      ringCells start items ++ List.range' s.producer.cur (r.words.take (k + cells)).length := by
    rw [hu]
    simp only [ProducerPhase.cells, List.append_assoc]
    congr 1
    rw [hpiece, List.length_take, List.length_take, Nat.min_eq_left (Nat.le_of_lt hk)]
    have hsum : min (k + cells) r.words.length = k + min cells (r.words.length - k) := by omega
    rw [hsum, List.range'_append_1]
  simp only [Shm.produce, hph] at hs
  cases hs
  unfold Shm.writePiece
  by_cases hmore : k + cells < r.words.length
  · simp only [hmore, if_true]
    exact { h with
      laid := hlaid
      producer := ⟨⟨hw.pos, hw.admitted, hw.room, hw.linear, hwords⟩, hmore⟩
      consumer := h.consumer.congr rfl
      counters := hc
      logged := hl
      unread_eq := hunread
      sent_eq := hq }
  · simp only [hmore, if_false]
    have hall : r.words.take (k + cells) = r.words := List.take_of_length_le (by omega)
    rw [hall] at hwords hunread
    have hsent : (s.placed ++ [ShmEntry.message r.words]).filterMap ShmEntry.words? ++ [] =
        s.sent.map ShmRequest.words := by
      rw [List.append_nil, List.filterMap_append]
      exact hq
    have hlogged (next : ProducerPhase) (hnext : next.written = [.message r.words]) :
        s.placed ++ [.message r.words] =
          s.taken ++ (s.consumer.phase.pending items).map RingItem.entry ++ next.written := by
      rw [hnext, hl]
      exact congrArg (· ++ _) (List.append_nil _)
    cases r with
    | message m =>
      have htake : (ShmRequest.message m).words.take (ShmRequest.message m).words.length =
          (ShmRequest.message m).words := List.take_length
      exact { h with
        laid := hlaid
        producer := ⟨⟨hw.pos, hw.admitted, hw.room, hw.linear, by rw [htake]; exact hwords⟩,
          m, rfl⟩
        consumer := h.consumer.congr rfl
        counters := hc
        logged := hlogged _ rfl
        unread_eq := hunread
        sent_eq := hsent }
    | resize len =>
      exact { h with
        laid := hlaid
        producer := ⟨hw.pos, hw.admitted, hw.room, hw.linear, hwords⟩
        consumer := h.consumer.congr rfl
        counters := hc
        logged := hlogged _ rfl
        unread_eq := hunread
        sent_eq := hsent }

theorem ShmInv.commit_message (h : ShmInv s start items) {r : ShmRequest}
    (hph : s.producer.phase = .committing r false) {cells : Nat}
    (hs : s.produce cells = some s') : ShmInv s' start (items ++ [.message r.words 0]) := by
  have hp := h.producer
  unfold ProducerInv at hp
  rw [hph] at hp
  obtain ⟨hw, m, rfl⟩ := hp
  have hspace := words_length_le (.message m)
  have hwords := hw.words
  rw [List.take_length] at hwords
  have hroom := hw.room
  have hlin := hw.linear
  simp only [Shm.produce, hph] at hs
  cases hs
  refine h.commit hph hw.pos ⟨List.cons_ne_nil _ _, ?_, hwords, .inl ⟨rfl, m, rfl⟩⟩ rfl rfl
    (by omega) rfl rfl rfl rfl rfl (fun _ => rfl) rfl ?_
  · show s.producer.cur + _ ≤ shmCells s.producer.len
    omega
  · show ringEnd start (items ++ [.message (ShmRequest.message m).words 0]) = _
    rw [ringEnd_append, hw.pos]
    rfl

theorem ShmInv.resize (h : ShmInv s start items) {len : Nat}
    (hph : s.producer.phase = .resizing len) {cells : Nat} (hs : s.produce cells = some s') :
    ∃ item, ShmInv s' start (items ++ [item]) := by
  have hp := h.producer
  have hc := h.counters
  have hl := h.logged
  have hu := h.unread_eq
  have hq := h.sent_eq
  unfold ProducerInv at hp
  rw [hph] at hp hc hl hu hq
  have hcells := h.producer_cells
  obtain ⟨hspace, hdvd, hlt, hle⟩ := hp.admitted
  have hcells' := shmCells_eq hdvd (Nat.le_trans h.producer_len.2.1 hle)
  have hmono : shmCells s.producer.len ≤ shmCells len := by omega
  have hroom := hp.room
  have hlin := hp.linear
  have hwords := hp.words
  generalize hgrow : shmCells len - shmCells s.producer.len = grow at *
  have hsize : shmCells s.producer.len + grow = shmCells len := by omega
  have hexpand : len - s.producer.len = 4 * grow := by omega
  have hextent : ringExtent start (items ++ [.message (ShmRequest.resize len).words grow]) =
      ringExtent start items + 4 := by
    rw [ringExtent_append]
    rfl
  have hgrowth : ringGrowth (items ++ [.message (ShmRequest.resize len).words grow]) =
      ringGrowth items + grow := by
    simp [ringGrowth, RingItem.growth]
  simp only [Shm.produce, hph] at hs
  cases hs
  refine ⟨.message (ShmRequest.resize len).words grow, ?_⟩
  exact { h with
    laid := by
      apply (ringLaid_append items _).mpr
      rw [hp.pos]
      refine ⟨h.laid, ⟨List.cons_ne_nil _ _, hlin, hwords, .inr ?_⟩, trivial⟩
      show _ = (ShmRequest.resize (shmControlSize + 4 * (shmCells s.producer.len + grow))).words
      rw [hsize, ← hcells']
    fits := by
      rw [hextent]
      exact hroom
    producer := by
      refine ⟨?_, len, rfl⟩
      rw [ringEnd_append, hp.pos]
      show RingPos.advance ⟨s.producer.cur, shmCells s.producer.len + grow⟩ 4 = _
      rw [hsize]
      rfl
    consumer := h.consumer.append rfl _
    producer_len := ⟨hdvd, Nat.le_trans h.producer_len.2.1 hle, hlt⟩
    file_len := rfl
    counters := by
      show s.avail + BitVec.ofNat 64 (len - s.producer.len) + BitVec.ofNat 64 16 = _
      have hsum : 4 * (ringExtent start items + 4 + (ringGrowth items + grow)) =
          4 * (ringExtent start items + ringGrowth items) + 4 * grow + 16 := by ring
      rw [hextent, hgrowth, hsum, BitVec.ofNat_add, BitVec.ofNat_add, hexpand,
        h.avail_eq (by rw [hph]; rfl)]
      show _ = s.done + _
      ring
    logged := by
      show s.placed = s.taken ++ (s.consumer.phase.pending (items ++ _)).map RingItem.entry ++ []
      rw [h.consumer.pending_append, hl, List.map_append, List.append_nil, List.append_assoc]
      rfl
    unread_eq := by
      show s.unread = ringCells start (items ++ _) ++ []
      rw [hu, ringCells_append, hp.pos, List.append_nil]
      rfl
    sent_eq := hq }

theorem ShmInv.commit_resize (h : ShmInv s start items) {r : ShmRequest}
    (hph : s.producer.phase = .committing r true) {cells : Nat}
    (hs : s.produce cells = some s') : ShmInv s' start items := by
  have hp := h.producer
  have hc := h.counters
  have hl := h.logged
  have hu := h.unread_eq
  have hq := h.sent_eq
  unfold ProducerInv at hp
  rw [hph] at hp hc hl hu hq
  obtain ⟨hpos, len, rfl⟩ := hp
  simp only [Shm.produce, hph] at hs
  cases hs
  exact { h with
    producer := hpos
    consumer := h.consumer.congr rfl
    counters := by
      show s.avail + BitVec.ofNat 64 16 + BitVec.ofNat 64 0 = _
      have hz : s.avail + BitVec.ofNat 64 16 = _ := hc
      rw [hz]
      exact BitVec.add_zero _
    logged := hl
    unread_eq := hu
    sent_eq := hq }

theorem ShmInv.produce (h : ShmInv s start items) {cells : Nat} (hs : s.produce cells = some s') :
    ∃ items', ShmInv s' start items' := by
  cases hph : s.producer.phase with
  | idle =>
    simp only [Shm.produce, hph] at hs
    cases hs
  | checking r => exact ⟨_, h.check hph hs⟩
  | filling r => exact ⟨_, h.fill hph hs⟩
  | wasting r => exact ⟨_, h.waste hph hs⟩
  | writing r k => exact ⟨_, h.write hph hs⟩
  | resizing len =>
    obtain ⟨item, hi⟩ := h.resize hph hs
    exact ⟨_, hi⟩
  | committing r resized =>
    cases resized with
    | false => exact ⟨_, h.commit_message hph hs⟩
    | true => exact ⟨_, h.commit_resize hph hs⟩

end Producer

end Ucesb
