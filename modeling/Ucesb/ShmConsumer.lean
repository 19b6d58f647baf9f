import Ucesb.ShmProducer

namespace Ucesb

section Consumer

variable {s s' : Shm} {start : RingPos} {items rest : List (RingItem Nat)} {item : RingItem Nat}

theorem RingPos.after_cur_lt (h : start.cur < start.size) (hg : item.growth = 0)
    (hat : item.At externalWriterBufEatLinSpace FitsRing s.mem start) :
    (start.after item).cur < (start.after item).size ∧ (start.after item).size = start.size := by
  cases item with
  | message words grow =>
    cases hg
    have hfit := hat.2.1
    simp only [RingPos.after, RingPos.advance, Nat.add_zero]
    refine ⟨?_, trivial⟩
    split
    · omega
    · omega
  | filler => exact ⟨Nat.lt_of_le_of_lt (Nat.zero_le _) h, rfl⟩

theorem ShmInv.pop (h : ShmInv s start (item :: rest)) (hg : item.growth = 0)
    {consumer : ShmSide ConsumerPhase} {taken : List ShmEntry}
    (hlen : consumer.len = s.consumer.len)
    (hlog : taken ++ (consumer.phase.pending rest).map RingItem.entry =
      s.taken ++ (s.consumer.phase.pending (item :: rest)).map RingItem.entry)
    (hcons : ConsumerInv { s with consumer := consumer } (start.after item) rest) :
    ShmInv { s with
      done := s.done + BitVec.ofNat 64 (4 * item.extent start)
      unread := s.unread.drop (item.cells start).length
      taken := taken
      consumer := consumer } (start.after item) rest := by
  obtain ⟨hat, hlaid⟩ := h.laid
  obtain ⟨hlt, hsize⟩ := RingPos.after_cur_lt h.start_lt hg hat
  have hfits := h.fits
  have hextent : ringExtent start (item :: rest) =
      item.extent start + ringExtent (start.after item) rest := rfl
  exact { h with
    laid := hlaid
    start_lt := hlt
    fits := by omega
    producer := h.producer.mono rfl rfl rfl (by omega)
    consumer := by
      unfold ConsumerInv at hcons ⊢
      exact hcons
    consumer_len := by
      show consumer.len = shmControlSize + 4 * shmCells consumer.len
      rw [hlen]
      exact h.consumer_len
    counters := by
      have hc := h.counters
      have hsum : 4 * (item.extent start + ringExtent (start.after item) rest +
          ringGrowth (item :: rest)) =
          4 * item.extent start + 4 * (ringExtent (start.after item) rest + ringGrowth rest) := by
        have : ringGrowth (item :: rest) = ringGrowth rest := by
          simp [ringGrowth, hg]
        rw [this]
        ring
      rw [hextent, hsum, BitVec.ofNat_add, ← BitVec.add_assoc] at hc
      exact hc
    logged := by
      show s.placed = taken ++ (consumer.phase.pending rest).map RingItem.entry ++ _
      rw [hlog]
      exact h.logged
    unread_eq := by
      show s.unread.drop (item.cells start).length = _
      rw [h.unread_eq]
      show ((item.cells start ++ ringCells (start.after item) rest) ++ _).drop _ = _
      rw [List.append_assoc, List.drop_left] }

theorem ShmInv.test (h : ShmInv s start items) (hph : s.consumer.phase = .testing)
    (hne : s.done ≠ s.avail)
    (htime : s.producer.phase.ahead = 0 ∨ s.done ≠ s.avail + 16) :
    ShmInv { s with consumer := { s.consumer with phase := .fetching } } start items := by
  have hc := h.counters
  have hcons := h.consumer
  have hl := h.logged
  unfold ConsumerInv at hcons
  rw [hph] at hcons hl
  have hitems : items ≠ [] := by
    rintro rfl
    have hz : s.done + BitVec.ofNat 64 (4 * (ringExtent start ([] : List (RingItem Nat)) +
        ringGrowth ([] : List (RingItem Nat)))) = s.done := BitVec.add_zero _
    rw [hz] at hc
    cases hahead : s.producer.phase with
    | committing r resized =>
      rw [hahead] at hc htime
      cases resized with
      | false => exact hne (by rw [← hc]; exact BitVec.add_zero _)
      | true =>
        rcases htime with htime | htime
        · cases htime
        · exact htime hc.symm
    | _ =>
      rw [hahead] at hc
      exact hne (by rw [← hc]; exact BitVec.add_zero _)
  exact { h with
    producer := h.producer.mono rfl rfl rfl (Nat.le_refl _)
    consumer := ⟨hcons, hitems⟩
    counters := hc
    logged := hl }

theorem messageAt_eq {words : List Nat} (h : WordsAt s.mem s.consumer.cur words) :
    s.messageAt words.length = words := by
  apply List.ext_getElem
  · simp [Shm.messageAt]
  · intro i h1 h2
    simp only [Shm.messageAt, List.getElem_map, List.getElem_range]
    exact h i h2

theorem ShmInv.handled {words : List Nat} {grow : Nat}
    (h : ShmInv s start (.message words grow :: rest)) (hph : s.consumer.phase = .fetching)
    {consumer : ShmSide ConsumerPhase}
    (hpending : consumer.phase.pending (.message words grow :: rest) = rest)
    (hlen : consumer.len = shmControlSize + 4 * shmCells consumer.len)
    (hcons : ConsumerInv { s with consumer := consumer } start (.message words grow :: rest)) :
    ShmInv { s with
      taken := s.taken ++ [.message words]
      consumer := consumer } start (.message words grow :: rest) := by
  have hl := h.logged
  rw [hph] at hl
  exact { h with
    producer := h.producer.mono rfl rfl rfl (Nat.le_refl _)
    consumer := by
      unfold ConsumerInv at hcons ⊢
      exact hcons
    consumer_len := hlen
    logged := by
      show s.placed = s.taken ++ [.message words] ++ (consumer.phase.pending _).map _ ++ _
      rw [hpending, hl]
      simp [ConsumerPhase.pending, RingItem.entry] }

theorem eat_request : externalWriterBufEatLinSpace &&& externalWriterRequestLoMask =
    externalWriterBufEatLinSpace := by decide

theorem ShmInv.fetching_start (h : ShmInv s start items) (hph : s.consumer.phase = .fetching) :
    start = s.consumer.pos ∧ items ≠ [] := by
  have hcons := h.consumer
  unfold ConsumerInv at hcons
  rwa [hph] at hcons

theorem ShmInv.fetch_filler (h : ShmInv s start (.filler :: rest))
    (hph : s.consumer.phase = .fetching) :
    ∃ start' items', ShmInv s.fetch start' items' := by
  obtain rfl := (h.fetching_start hph).1
  have hmark : s.mem s.consumer.cur = externalWriterBufEatLinSpace := h.laid.1
  have hfetch : s.fetch = { s with
      done := s.done + BitVec.ofNat 64 (4 * (shmCells s.consumer.len - s.consumer.cur))
      unread := s.unread.drop 1
      taken := s.taken ++ [.filler]
      consumer := { s.consumer with cur := 0, phase := .testing } } := by
    unfold Shm.fetch
    dsimp only
    rw [hmark, eat_request, if_pos rfl]
  rw [hfetch]
  refine ⟨_, _, h.pop rfl rfl ?_ rfl⟩
  rw [hph]
  simp [ConsumerPhase.pending, RingItem.entry]

theorem ShmInv.fetch_message {m : ShmMessage}
    (h : ShmInv s start (.message (ShmRequest.message m).words 0 :: rest))
    (hph : s.consumer.phase = .fetching) :
    ∃ start' items', ShmInv s.fetch start' items' := by
  obtain rfl := (h.fetching_start hph).1
  obtain ⟨-, hfit, hwords, -⟩ := h.laid.1
  have hlen := words_length (.message m)
  dsimp only at hlen
  rw [hlen] at hfit
  simp only [ShmSide.pos] at hfit hwords
  have h0 : s.mem s.consumer.cur = m.request ||| externalWriterRequestHiMagic :=
    hwords 0 (Nat.zero_lt_succ _)
  have h1 : s.mem (s.consumer.cur + 1) = 4 * (m.body.length + 2) :=
    hwords 1 (Nat.succ_lt_succ (Nat.zero_lt_succ _))
  have hmsg := messageAt_eq hwords
  rw [hlen] at hmsg
  have hfetch : s.fetch = { s with
      taken := s.taken ++ [.message (ShmRequest.message m).words]
      consumer := { s.consumer with
        phase := .finishing (m.body.length + 2) (stopsLoop m.request) } } := by
    unfold Shm.fetch
    dsimp only
    rw [h0, h1, header_request m.request_lt, if_neg m.not_filler, if_neg (by omega),
      if_neg (by omega), if_neg (by omega)]
    unfold Shm.handleRequest
    dsimp only
    rw [h0, header_magic m.request_lt, if_neg (fun h => h rfl), if_neg m.not_resize,
      if_neg (by omega), Nat.mul_div_cancel_left _ (by omega : 0 < 4), hmsg]
  rw [hfetch]
  exact ⟨_, _, h.handled hph rfl h.consumer_len ⟨_, _, rfl, hlen, rfl⟩⟩

theorem ShmInv.fetch_resize {grow : Nat}
    (h : ShmInv s start (.message (ShmRequest.resize
      (shmControlSize + 4 * (start.size + grow))).words grow :: rest))
    (hph : s.consumer.phase = .fetching) :
    ∃ start' items', ShmInv s.fetch start' items' := by
  obtain rfl := (h.fetching_start hph).1
  obtain ⟨-, hfit, hwords, -⟩ := h.laid.1
  have hclen := h.consumer_len
  have hsize := h.size_eq
  have hcells := h.producer_cells
  have hgrowth : ringGrowth (RingItem.message (ShmRequest.resize (shmControlSize +
      4 * (s.consumer.pos.size + grow))).words grow :: rest) = grow + ringGrowth rest := rfl
  rw [hgrowth] at hsize
  simp only [ShmSide.pos] at hfit hwords hsize h ⊢
  generalize hnew : shmControlSize + 4 * (shmCells s.consumer.len + grow) = newLen at *
  have hnewCells : shmCells newLen = shmCells s.consumer.len + grow := by
    rw [← hnew, shmCells, Nat.add_sub_cancel_left, Nat.mul_div_cancel_left _ (by omega : 0 < 4)]
  have hfit4 : s.consumer.cur + 4 ≤ shmCells s.consumer.len := hfit
  have hfour : (ShmRequest.resize newLen).words.length = 4 := rfl
  have h0 : s.mem s.consumer.cur = externalWriterBufResize ||| externalWriterRequestHiMagic :=
    hwords 0 (by omega)
  have h1 : s.mem (s.consumer.cur + 1) = 16 := hwords 1 (by omega)
  have h2 : s.mem (s.consumer.cur + 2) = newLen := hwords 2 (by omega)
  have h3 : s.mem (s.consumer.cur + 3) = externalWriterMagic := hwords 3 (by omega)
  have hmsg : s.messageAt 4 = (ShmRequest.resize newLen).words := messageAt_eq hwords
  have hlt : externalWriterBufResize < 2 ^ 16 := by decide
  have hfetch : s.fetch = { s with
      taken := s.taken ++ [.message (ShmRequest.resize newLen).words]
      consumer := { s.consumer with
        len := newLen, phase := .expanding (newLen - s.consumer.len) 4 } } := by
    unfold Shm.fetch
    dsimp only
    rw [h0, h1, header_request hlt, if_neg (by decide), if_neg (by omega), if_neg (by decide),
      if_neg (by omega)]
    unfold Shm.handleRequest
    dsimp only
    rw [h0, header_magic hlt, if_neg (fun h => h rfl), if_pos rfl]
    unfold Shm.requestResizeShm
    dsimp only
    have hlast : s.mem (s.consumer.cur + 16 / 4 - 1) = externalWriterMagic := h3
    have hfile := h.file_len
    rw [h2, h3, hlast, hmsg, if_neg (by decide), if_neg (fun h => h rfl), if_neg (by omega),
      if_neg (by omega), if_neg (fun h => h rfl), if_neg (fun h => h rfl)]
  rw [hfetch]
  refine ⟨_, _, h.handled hph rfl ?_ ⟨_, _, _, rfl, rfl, ?_, rfl, ?_⟩⟩
  · show newLen = shmControlSize + 4 * shmCells newLen
    rw [hnewCells]
    exact hnew.symm
  · show newLen - s.consumer.len = 4 * grow
    omega
  · show shmCells s.consumer.len + grow = shmCells newLen
    exact hnewCells.symm

theorem ShmInv.fetch (h : ShmInv s start items) (hph : s.consumer.phase = .fetching) :
    ∃ start' items', ShmInv s.fetch start' items' := by
  cases items with
  | nil => exact absurd rfl (h.fetching_start hph).2
  | cons item rest =>
    cases item with
    | filler => exact h.fetch_filler hph
    | message words grow =>
      obtain ⟨-, -, -, hok⟩ := h.laid.1
      rcases hok with ⟨rfl, m, rfl⟩ | hresize
      · exact h.fetch_message hph
      · subst hresize
        exact h.fetch_resize hph

theorem ShmInv.expand (h : ShmInv s start items) {expand cells : Nat}
    (hph : s.consumer.phase = .expanding expand cells) :
    ∃ start' items', ShmInv { s with
      done := s.done + BitVec.ofNat 64 expand
      consumer := { s.consumer with phase := .finishing cells false } } start' items' := by
  have hcons := h.consumer
  unfold ConsumerInv at hcons
  have hl := h.logged
  rw [hph] at hcons hl
  obtain ⟨words, grow, rest, rfl, hcells, rfl, hcur, hsize⟩ := hcons
  obtain ⟨⟨hne, hfit, hwords, hok⟩, hlaid⟩ := h.laid
  have hstart : s.consumer.pos = ⟨start.cur, start.size + grow⟩ := by
    rw [ShmSide.pos, ← hcur, ← hsize]
  have hafter : s.consumer.pos.after (.message words 0) = start.after (.message words grow) := by
    rw [hstart]
    rfl
  have hext : ringExtent s.consumer.pos (.message words 0 :: rest) =
      ringExtent start (.message words grow :: rest) := by
    simp only [ringExtent, hafter]
    rfl
  have hend : ringEnd s.consumer.pos (.message words 0 :: rest) =
      ringEnd start (.message words grow :: rest) := by
    simp only [ringEnd, hafter]
  have hlt := h.start_lt
  have hfits := h.fits
  have hpos : s.consumer.pos.size = start.size + grow := by rw [hstart]
  refine ⟨s.consumer.pos, .message words 0 :: rest, ?_⟩
  exact { h with
    laid := by
      refine ⟨⟨hne, ?_, ?_, ?_⟩, ?_⟩
      · rw [hstart]
        show start.cur + words.length ≤ start.size + grow
        omega
      · rw [hstart]
        exact hwords
      · rw [hstart]
        rcases hok with ⟨-, m, rfl⟩ | hresize
        · exact .inl ⟨rfl, m, rfl⟩
        · exact .inr hresize
      · rw [hafter]
        exact hlaid
    start_lt := by
      rw [hstart]
      show start.cur < start.size + grow
      omega
    fits := by
      rw [hext, hpos]
      omega
    producer := h.producer.mono rfl rfl hend (by rw [hext, hpos]; omega)
    consumer := ⟨words, rest, rfl, hcells, rfl⟩
    counters := by
      have hc := h.counters
      have hsum : 4 * (ringExtent start (.message words grow :: rest) +
          ringGrowth (.message words grow :: rest)) = 4 * grow +
          4 * (ringExtent start (.message words grow :: rest) +
            ringGrowth (.message words 0 :: rest)) := by
        simp only [ringGrowth, List.map_cons, RingItem.growth, List.sum_cons]
        ring
      rw [hsum, BitVec.ofNat_add, ← BitVec.add_assoc] at hc
      rw [hext]
      exact hc
    logged := hl
    unread_eq := by
      show s.unread = _
      rw [h.unread_eq]
      simp only [ringCells, hafter]
      rw [hstart]
      rfl }

theorem ShmInv.finish (h : ShmInv s start items) {cells : Nat} {stop : Bool}
    (hph : s.consumer.phase = .finishing cells stop) (hs : s.consume = some s') :
    ∃ start' items', ShmInv s' start' items' := by
  have hcons := h.consumer
  unfold ConsumerInv at hcons
  rw [hph] at hcons
  obtain ⟨words, rest, rfl, hcells, rfl⟩ := hcons
  have hdrop : ((RingItem.message words 0).cells s.consumer.pos).length = cells := by
    simp [RingItem.cells, hcells]
  have hextent : (RingItem.message words 0).extent s.consumer.pos = cells := hcells
  simp only [Shm.consume, hph] at hs
  cases stop with
  | true =>
    cases hs
    have hpop := @ShmInv.pop s _ rest _ h rfl { s.consumer with phase := .stopped } s.taken rfl
      (by rw [hph]; rfl) trivial
    rw [hdrop, hextent] at hpop
    exact ⟨_, _, hpop⟩
  | false =>
    simp only [Bool.false_eq_true, if_false] at hs
    cases hs
    have hpop := @ShmInv.pop s _ rest _ h rfl { s.consumer with
        cur := if s.consumer.cur + cells = shmCells s.consumer.len then 0
          else s.consumer.cur + cells
        phase := .testing } s.taken rfl (by rw [hph]; rfl) (by rw [← hcells]; rfl)
    rw [hdrop, hextent] at hpop
    exact ⟨_, _, hpop⟩

theorem ShmInv.consume (h : ShmInv s start items)
    (htime : s.consumer.phase = .testing → s.producer.phase.ahead = 0 ∨ s.done ≠ s.avail + 16)
    (hs : s.consume = some s') : ∃ start' items', ShmInv s' start' items' := by
  cases hph : s.consumer.phase with
  | testing =>
    simp only [Shm.consume, hph] at hs
    split at hs
    · cases hs
      exact ⟨_, _, h⟩
    · next hne =>
      cases hs
      exact ⟨_, _, h.test hph hne (htime hph)⟩
  | fetching =>
    simp only [Shm.consume, hph] at hs
    cases hs
    exact h.fetch hph
  | expanding expand cells =>
    simp only [Shm.consume, hph] at hs
    cases hs
    exact h.expand hph
  | finishing cells stop => exact h.finish hph hs
  | stopped | failed msg =>
    simp only [Shm.consume, hph] at hs
    cases hs

end Consumer

def Shm.writeTargets (s : Shm) : List Nat :=
  match s.producer.phase with
  | .filling _ => [s.producer.cur]
  | .writing r written =>
    List.range' (s.producer.cur + written) (r.words.length - written)
  | _ => []

structure ShmDelivers (s : Shm) : Prop where
  no_error : ∀ msg, s.consumer.phase ≠ .failed msg
  /-- only what has been written completely is taken, in the same order, fillers included -/
  in_order : s.taken <+: s.placed
  /-- what is written are the messages asked for, each one once -/
  placed_sent : s.placed.filterMap ShmEntry.words? ++ s.producer.phase.unwritten =
    s.sent.map ShmRequest.words
  /-- the consumer waits only when it has taken all there is -/
  complete : s.producer.phase = .idle → s.consumer.phase = .testing → s.done = s.avail →
    s.taken = s.placed
  /-- the producer does not wait for space then -/
  not_stuck : ∀ r, s.producer.phase = .checking r → s.done = s.avail → s.lacksSpace r.space = false
  not_overwritten : ∀ a ∈ s.writeTargets, a ∉ s.unread
  /-- the assertions on the cursors -/
  producer_cur : s.producer.cur < shmCells s.producer.len
  consumer_cur : s.consumer.phase = .testing → s.consumer.cur < shmCells s.consumer.len

section Delivers

variable {s s' : Shm} {start : RingPos} {items : List (RingItem Nat)}

theorem ringExtent_pos (hlt : start.cur < start.size) (hl : ShmLaid s.mem start items)
    (hne : items ≠ []) : 0 < ringExtent start items := by
  cases items with
  | nil => exact absurd rfl hne
  | cons item rest =>
    cases item with
    | message words grow =>
      have hpos := List.length_pos_iff.mpr hl.1.1
      simp only [ringExtent, RingItem.extent]
      omega
    | filler =>
      simp only [ringExtent, RingItem.extent]
      omega

theorem ShmInv.empty_of_done (h : ShmInv s start items) (ha : s.producer.phase.ahead = 0)
    (hd : s.done = s.avail) : items = [] := by
  by_contra hne
  have hpos := ringExtent_pos h.start_lt h.laid hne
  have hc := h.counters
  have hsize := h.size_eq
  have hfits := h.fits
  have hlen := h.producer_len.2.2
  have hcells := h.producer_cells
  unfold shmControlSize at hcells
  rw [ha, hd] at hc
  have hz : BitVec.ofNat 64 (4 * (ringExtent start items + ringGrowth items)) = 0 := by
    have := congrArg (fun x => x - s.avail) hc
    simpa using this.symm
  have hnat := congrArg BitVec.toNat hz
  rw [BitVec.toNat_ofNat, Nat.mod_eq_of_lt (by omega)] at hnat
  simp at hnat
  omega

theorem ShmInv.not_overwritten (h : ShmInv s start items) :
    ∀ a ∈ s.writeTargets, a ∉ s.unread := by
  intro a ha hu
  have hp := h.producer
  rw [h.unread_eq] at hu
  unfold Shm.writeTargets at ha
  unfold ProducerInv at hp
  cases hph : s.producer.phase with
  | filling r =>
    rw [hph] at ha hp hu
    obtain ⟨hpos, -, hroom, -⟩ := hp
    have hspace := Nat.le_trans (two_le_words r) (words_length_le r)
    have hcur : (ringEnd start items).cur = s.producer.cur := by
      rw [hpos]
      rfl
    cases List.mem_singleton.mp ha
    rw [show ProducerPhase.cells s.producer.cur (.filling r) = [] from rfl, List.append_nil] at hu
    exact free_cell h.start_lt h.laid hroom (Nat.le_of_eq hcur) (by omega) hu
  | writing r k =>
    rw [hph] at ha hp hu
    obtain ⟨hw, hk⟩ := hp
    have hcur := hw.cur_eq
    have hspace := words_length_le r
    have har := List.mem_range'_1.mp ha
    rcases List.mem_append.mp hu with hu | hu
    · exact free_cell h.start_lt h.laid hw.room (by omega) (by omega) hu
    · have hur := List.mem_range'_1.mp hu
      rw [List.length_take] at hur
      omega
  | _ =>
    rw [hph] at ha
    cases ha

theorem ShmInv.producer_cur (h : ShmInv s start items) :
    s.producer.cur < shmCells s.producer.len := by
  have hlt := (ring_region h.start_lt h.laid h.fits).1
  have hp := h.producer
  unfold ProducerInv at hp
  split at hp
  · exact h.pos_lt hp
  · exact h.pos_lt hp.1
  · exact h.pos_lt hp.1
  · exact h.pos_lt hp.1
  · exact h.pos_lt hp.1.pos
  · exact h.pos_lt hp.pos
  · exact h.pos_lt hp.1.pos
  · rw [hp.1] at hlt
    exact RingPos.lt_of_advance (by omega : 0 < 4) hlt

theorem ShmInv.delivers (h : ShmInv s start items) : ShmDelivers s := by
  have hcons := h.consumer
  unfold ConsumerInv at hcons
  constructor
  · intro msg hph
    rw [hph] at hcons
    exact hcons
  · rw [h.logged, List.append_assoc]
    exact List.prefix_append _ _
  · exact h.sent_eq
  · intro hidle htest hd
    have ha : s.producer.phase.ahead = 0 := by
      rw [hidle]
      rfl
    cases h.empty_of_done ha hd
    have hl := h.logged
    rw [hidle, htest] at hl
    simpa [ConsumerPhase.pending, ProducerPhase.written] using hl.symm
  · intro r hph hd
    have hp := h.producer
    unfold ProducerInv at hp
    rw [hph] at hp
    have hspace := hp.2.1
    have hlen := h.producer_len.2.2
    have hcells := h.producer_cells
    unfold shmControlSize at hcells
    have hdiff : s.avail + BitVec.ofNat 64 (4 * r.space) - s.done =
        BitVec.ofNat 64 (4 * r.space) := by
      rw [hd]
      ring
    simp only [Shm.lacksSpace, decide_eq_false_iff_not, Nat.not_lt]
    rw [hdiff, BitVec.toNat_ofNat, Nat.mod_eq_of_lt (by omega)]
    omega
  · exact h.not_overwritten
  · exact h.producer_cur
  · intro hph
    rw [hph] at hcons
    have hstart : start = s.consumer.pos := hcons
    have hlt := h.start_lt
    rw [hstart] at hlt
    exact hlt

end Delivers

end Ucesb
