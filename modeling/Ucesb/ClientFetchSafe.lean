import Ucesb.ClientFetchInside

namespace Ucesb

section Event

variable {α : Type} {c : FetchClient} {s : FetchStruct} {buf : Nat → UInt8} {raw : RawData}
  {r : Receive} {m : Message} {p : List UInt8}

def Settles (rawSwapped : Nat) (x : Except FetchFault FetchResult) : Prop :=
  ∃ result, x = .ok result ∧ RawFits rawSwapped result.raw

theorem settle_settles {x : Except FetchStop α} {next : α → Except FetchFault FetchResult}
    (hraw : RawFits c.rawSwapped raw) :
    Settles c.rawSwapped (settle raw r x next) ↔
      NoFault x ∧ ∀ a, x = .ok a → Settles c.rawSwapped (next a) := by
  unfold settle
  split
  next f => exact iff_of_false (fun ⟨_, h, _⟩ => by cases h) fun h => h.1 f rfl
  next e => exact iff_of_true ⟨_, rfl, hraw⟩ ⟨fun f h => (by cases h), fun a h => (by cases h)⟩
  next a =>
    constructor
    · exact fun h => ⟨fun f hf => (by cases hf), fun a' ha' => Except.ok.inj ha' ▸ h⟩
    · exact fun h => h.2 a rfl

theorem settle_unfit {x : Except FetchStop α} {next : α → Except FetchFault FetchResult}
    (hraw : ¬RawFits c.rawSwapped raw) (hnext : ∀ a, ¬Settles c.rawSwapped (next a)) :
    ¬Settles c.rawSwapped (settle raw r x next) := by
  unfold settle
  split
  next f => exact fun ⟨_, h, _⟩ => by cases h
  next e =>
    rintro ⟨result, h, hfit⟩
    cases h
    exact hraw hfit
  next a => exact hnext a

theorem noRaw_fits (rawSwapped : Nat) : RawFits rawSwapped noRaw := fun h => by cases h

theorem readMessageWord_ok (h : 4 ≤ p.length) :
    readMessageWord p = .ok (frontWord p, p.drop 4) := by
  rw [readMessageWord, errorIf, if_neg (Nat.not_lt.mpr h)]
  rfl

theorem readMessageWord_fault (h : p.length < 4) : readMessageWord p = .error (.fault .message) := by
  rw [readMessageWord, errorIf, if_pos h]
  rfl

theorem eventPayload_noFault (h : 4 ≤ p.length) : NoFault (eventPayload p) := by
  unfold eventPayload
  rw [readMessageWord_ok h]
  refine noFault_bind.mpr ⟨fun f hf => (by cases hf), fun a ha => ?_⟩
  cases ha
  refine noFault_bind.mpr ⟨fun f hf => ?_, fun _ _ => ?_⟩
  · exact FetchStop.noConfusion (errorIf_eq_error.mp hf).2
  split
  · exact fun f hf => by cases hf
  · refine noFault_bind.mpr ⟨fun f hf => ?_, fun _ _ f hf => by cases hf⟩
    exact FetchStop.noConfusion (errorIf_eq_error.mp hf).2

def handlePayload (s : FetchStruct) (buf : Nat → UInt8) (m : Message) (r : Receive)
    (raw : RawData) (p : List UInt8) : Except FetchFault FetchResult :=
  settle raw r (eventPayload p) fun payload =>
    settle raw (r.consume m.length) (unpackFetched s buf payload) fun e =>
      .ok ⟨.event e, raw, r.consume m.length⟩

theorem handlePayload_settles (hraw : RawFits c.rawSwapped raw) (h : 4 ≤ p.length) :
    Settles c.rawSwapped (handlePayload s buf m r raw p) ↔
      ∀ payload, eventPayload p = .ok payload → PayloadGood s (s.unpackBuf buf) payload := by
  unfold handlePayload
  rw [settle_settles hraw, and_iff_right (eventPayload_noFault h)]
  refine forall_congr' fun payload => imp_congr_right fun _ => ?_
  rw [settle_settles hraw, unpackFetched_noFault]
  exact and_iff_left fun e _ => ⟨_, rfl, hraw⟩

theorem handlePayload_unfit (hraw : ¬RawFits c.rawSwapped raw) :
    ¬Settles c.rawSwapped (handlePayload s buf m r raw p) := by
  refine settle_unfit hraw fun payload => settle_unfit hraw fun e => ?_
  rintro ⟨result, h, hfit⟩
  cases h
  exact hraw hfit

theorem handlePayload_empty : ¬Settles c.rawSwapped (handlePayload s buf m r raw []) := by
  by_cases hraw : RawFits c.rawSwapped raw
  · unfold handlePayload
    rw [settle_settles hraw]
    exact fun h => h.1 _ (by rw [eventPayload, readMessageWord_fault (by decide)]; rfl)
  · exact handlePayload_unfit hraw

def handleRaw (s : FetchStruct) (buf : Nat → UInt8) (m : Message) (r : Receive) (p : List UInt8) :
    Except FetchFault FetchResult :=
  settle noRaw r (eventRaw s p) fun x =>
    match x.2 with
    | none => .ok ⟨.failed ⟨.ebadmsg, "Event message too short for raw data."⟩, x.1, r⟩
    | some p => handlePayload s buf m r x.1 p

theorem handleRaw_none (hmax : s.maxRawWords = 0) :
    handleRaw s buf m r p = handlePayload s buf m r noRaw p := by
  rw [handleRaw, eventRaw, if_pos hmax]
  rfl

theorem handleRaw_some (hmax : s.maxRawWords ≠ 0) (h : 4 ≤ p.length) :
    handleRaw s buf m r p =
      if p.length - 4 < 4 * ((frontWord p + 1) % 2 ^ 32) then
        .ok ⟨.failed ⟨.ebadmsg, "Event message too short for raw data."⟩, ⟨none, frontWord p⟩, r⟩
      else
        handlePayload s buf m r
          ⟨some (fetchedWords ((p.drop 4).take (4 * frontWord p))), frontWord p⟩
          ((p.drop 4).drop (4 * frontWord p)) := by
  rw [handleRaw, eventRaw, if_neg hmax, readMessageWord_ok h]
  simp only [bind, Except.bind, pure, Except.pure, List.length_drop]
  split <;> rfl

theorem handleRaw_settles (h : 8 ≤ p.length) (hlen : p.length < 2 ^ 32) :
    Settles c.rawSwapped (handleRaw s buf m r (p.drop 4)) ↔
      if s.maxRawWords = 0 then
        ∀ payload, eventPayload (p.drop 4) = .ok payload → PayloadGood s (s.unpackBuf buf) payload
      else
        frontWord (p.drop 4) ≠ 2 ^ 32 - 1 ∧
        (8 + 4 * (frontWord (p.drop 4) + 1) ≤ p.length → frontWord (p.drop 4) ≤ c.rawSwapped ∧
          ∀ payload, eventPayload (p.drop (8 + 4 * frontWord (p.drop 4))) = .ok payload →
            PayloadGood s (s.unpackBuf buf) payload) := by
  have hfour : 4 ≤ (p.drop 4).length := by
    rw [List.length_drop]
    omega
  split
  next hmax => rw [handleRaw_none hmax, handlePayload_settles (noRaw_fits _) hfour]
  next hmax =>
    have hword := frontWord_lt (p.drop 4)
    rw [handleRaw_some hmax hfour, List.length_drop, List.drop_drop, List.drop_drop]
    generalize frontWord (p.drop 4) = n at hword
    by_cases hwrap : n = 2 ^ 32 - 1
    · subst hwrap
      refine iff_of_false ?_ fun h => h.1 rfl
      have hnil : p.drop (4 + 4 + 4 * (2 ^ 32 - 1)) = [] := List.drop_eq_nil_of_le (by omega)
      rw [if_neg (by norm_num), hnil]
      exact handlePayload_empty
    · have hmod : (n + 1) % 2 ^ 32 = n + 1 := Nat.mod_eq_of_lt (by omega)
      rw [hmod, and_iff_right hwrap]
      split
      next hshort =>
        exact iff_of_true ⟨_, rfl, fun h => by cases h⟩ fun h => by omega
      next hshort =>
        rw [imp_iff_right (by omega)]
        by_cases hfit : n ≤ c.rawSwapped
        · rw [and_iff_right hfit, handlePayload_settles (fun _ => hfit) (by
            rw [List.length_drop]
            omega)]
        · refine iff_of_false (handlePayload_unfit fun h => hfit (h rfl)) fun h => hfit h.1

theorem wholeHeaders_sort (h : WholeHeaders c m) (hlen : m.length < 2 ^ 32) :
    (c.sortWords + 3).toNat = c.sortWords.toNat + 3 := by
  obtain ⟨-, h⟩ := h
  rw [UInt32.toNat_add]
  exact Nat.mod_eq_of_lt (by change c.sortWords.toNat + 3 < 2 ^ 32; omega)

theorem eventHeaders_eq (h : WholeHeaders c m) (hbody : m.body.length = m.length - 8)
    (hlen : m.length < 2 ^ 32) :
    eventHeaders c m = (errorIf (frontWord ((eventWordsOf c m).drop 4) ≠ 0)
      (.failed ⟨.ebadmsg, "Non-zero ntuple_index - do not know how to handle."⟩)
      >>= fun _ => .ok ((eventWordsOf c m).drop 8)) := by
  have hsort := wholeHeaders_sort h hlen
  obtain ⟨-, h⟩ := h
  have hwords : (eventWordsOf c m).length = m.length - 8 - 4 * c.sortWords.toNat := by
    rw [eventWordsOf, List.length_drop, hbody]
  rw [eventHeaders, errorIf, if_neg (by unfold FetchClient.shortHeaders; omega)]
  change (readMessageWord (eventWordsOf c m) >>= _) = _
  rw [readMessageWord_ok (by omega)]
  change (readMessageWord ((eventWordsOf c m).drop 4) >>= _) = _
  rw [readMessageWord_ok (by rw [List.length_drop]; omega), List.drop_drop]
  rfl

theorem handleEvent_settles (h : WholeHeaders c m) (hbody : m.body.length = m.length - 8)
    (hlen : m.length < 2 ^ 32) :
    Settles c.rawSwapped (handleEvent c s buf m r) ↔
      EventGood c s buf ((eventWordsOf c m).drop 4) := by
  change Settles c.rawSwapped (settle noRaw r (eventHeaders c m) (handleRaw s buf m r)) ↔ _
  rw [settle_settles (noRaw_fits _), eventHeaders_eq h hbody hlen, EventGood]
  obtain ⟨-, h⟩ := h
  have hwords : (eventWordsOf c m).length = m.length - 8 - 4 * c.sortWords.toNat := by
    rw [eventWordsOf, List.length_drop, hbody]
  rw [← handleRaw_settles (r := r) (m := m) (by rw [List.length_drop]; omega)
    (by rw [List.length_drop]; omega), List.drop_drop]
  by_cases hzero : frontWord ((eventWordsOf c m).drop 4) = 0
  · rw [errorIf, if_neg (not_not.mpr hzero), imp_iff_right hzero]
    constructor
    · exact fun h => h.2 _ rfl
    · refine fun h => ⟨fun f hf => (by cases hf), fun a ha => ?_⟩
      cases ha
      exact h
  · rw [errorIf, if_pos hzero]
    exact iff_of_true ⟨fun f hf => (by cases hf), fun a ha => (by cases ha)⟩ fun h => absurd h hzero

end Event

section Fetch

variable {c : FetchClient} {s : FetchStruct} {buf : Nat → UInt8} {structId alloc fuel : Nat}
  {r : Receive} {m : Message} {stream : List UInt8}

theorem body_length (h : Arrived alloc stream) :
    (messageAt stream).body.length = (messageAt stream).length - 8 := by
  have hwhole := h.whole
  simp only [messageAt, List.length_take, List.length_drop]
  omega

theorem message_length_lt (stream : List UInt8) : (messageAt stream).length < 2 ^ 32 :=
  frontWord_lt _

theorem eventMessage_other (h : m.kind ≠ externalWriterBufNtupleFill) :
    extDataFetchEventMessage c m = .ok .finished ∨
      ∃ e, extDataFetchEventMessage c m = .error (.failed e) := by
  unfold extDataFetchEventMessage
  split
  · exact .inl rfl
  split
  · exact .inr ⟨_, rfl⟩
  · exact .inr ⟨_, rfl⟩

theorem eventMessage_fill (h : m.kind = externalWriterBufNtupleFill) :
    extDataFetchEventMessage c m = (do
      errorIf (c.shortHeaders m) (.failed ⟨.ebadmsg, "Event message too short for headers."⟩)
      let (structIndex, _) ← readMessageWord (eventWordsOf c m)
      errorIf (c.structures.length ≤ structIndex)
        (.failed ⟨.ebadmsg, "Event structure index outside bounds."⟩)
      return .fill structIndex) := by
  unfold extDataFetchEventMessage
  rw [h, if_neg (by decide), if_neg (by decide), if_neg (by decide)]
  rfl

theorem eventMessage_short (h : m.kind = externalWriterBufNtupleFill) (hshort : c.shortHeaders m) :
    ∃ e, extDataFetchEventMessage c m = .error (.failed e) :=
  ⟨_, by rw [eventMessage_fill h, errorIf, if_pos hshort]; rfl⟩

theorem eventMessage_wrapped (h : m.kind = externalWriterBufNtupleFill)
    (hshort : ¬c.shortHeaders m) (hwhole : ¬WholeHeaders c m)
    (hbody : m.body.length = m.length - 8) (hlen : m.length < 2 ^ 32) :
    extDataFetchEventMessage c m = .error (.fault .message) := by
  have hsort := c.sortWords.toNat_lt
  have hwrap : ¬c.sortWords.toNat + 3 < 2 ^ 32 := by
    intro hsum
    refine hwhole ⟨h, ?_⟩
    have heq : (c.sortWords + 3).toNat = c.sortWords.toNat + 3 := by
      rw [UInt32.toNat_add]
      exact Nat.mod_eq_of_lt hsum
    unfold FetchClient.shortHeaders at hshort
    omega
  have hempty : eventWordsOf c m = [] := List.drop_eq_nil_of_le (by omega)
  rw [eventMessage_fill h, errorIf, if_neg hshort, hempty, readMessageWord_fault (by decide)]
  rfl

theorem eventMessage_whole (h : WholeHeaders c m) (hbody : m.body.length = m.length - 8)
    (hlen : m.length < 2 ^ 32) :
    extDataFetchEventMessage c m =
      if c.structures.length ≤ frontWord (eventWordsOf c m) then
        .error (.failed ⟨.ebadmsg, "Event structure index outside bounds."⟩)
      else .ok (.fill (frontWord (eventWordsOf c m))) := by
  have hsort := wholeHeaders_sort h hlen
  obtain ⟨hkind, h⟩ := h
  have hwords : (eventWordsOf c m).length = m.length - 8 - 4 * c.sortWords.toNat := by
    rw [eventWordsOf, List.length_drop, hbody]
  rw [eventMessage_fill hkind, errorIf, if_neg (by unfold FetchClient.shortHeaders; omega),
    readMessageWord_ok (by omega)]
  by_cases hindex : c.structures.length ≤ frontWord (eventWordsOf c m)
  · rw [if_pos hindex]
    change (errorIf _ _ >>= _) = _
    rw [errorIf, if_pos hindex]
    rfl
  · rw [if_neg hindex]
    change (errorIf _ _ >>= _) = _
    rw [errorIf, if_neg hindex]
    rfl

theorem consume_stream {n : Nat} (hpending : n ≤ r.pending.length) :
    (r.consume n).alloc = r.alloc ∧ (r.consume n).stream = r.stream.drop n := by
  refine ⟨rfl, ?_⟩
  unfold Receive.stream Receive.filled Receive.consume
  dsimp only
  rw [List.length_drop]
  have hfilled : r.used + n + (r.pending.length - n) = r.used + r.pending.length := by omega
  rw [hfilled]
  split
  · rw [List.drop_append_of_le_length hpending]
  · rw [List.drop_take]
    congr 1
    omega

theorem streamGood_arrived (h : StreamGood c s structId buf alloc stream) :
    Arrived alloc stream := by
  cases h with
  | other_kind h => exact h
  | short h => exact h
  | bad_index h => exact h
  | discarded h => exact h
  | event h => exact h

theorem streamGood_whole (harr : Arrived alloc stream) (hwhole : WholeHeaders c (messageAt stream)) :
    StreamGood c s structId buf alloc stream ↔
      (frontWord (eventWordsOf c (messageAt stream)) < c.structures.length →
        if frontWord (eventWordsOf c (messageAt stream)) = structId then
          EventGood c s buf ((eventWordsOf c (messageAt stream)).drop 4)
        else StreamGood c s structId buf alloc (stream.drop (headerLength stream))) := by
  have hsort := wholeHeaders_sort hwhole (message_length_lt stream)
  have hlong := hwhole.2
  constructor
  · intro h hindex
    cases h with
    | other_kind _ hkind => exact absurd hwhole.1 hkind
    | short _ hshort =>
      unfold FetchClient.shortHeaders at hshort
      omega
    | bad_index _ _ hbad => omega
    | discarded _ _ _ hother h => exact (if_neg hother).mpr h
    | event _ _ _ hequal h => exact (if_pos hequal).mpr h
  · intro h
    by_cases hindex : frontWord (eventWordsOf c (messageAt stream)) < c.structures.length
    · have h := h hindex
      split at h
      next hequal => exact .event harr hwhole hindex hequal h
      next hother => exact .discarded harr hwhole hindex hother h
    · exact .bad_index harr hwhole (Nat.not_lt.mp hindex)

theorem nextEvent_failed {again : Receive → Except FetchFault (NextEvent × Receive)}
    (h : ∃ e, extDataFetchEventMessage c m = .error (.failed e)) :
    Settles c.rawSwapped (nextEvent c structId m r again >>= finishFetch c s buf) := by
  obtain ⟨e, he⟩ := h
  rw [nextEvent, he]
  exact ⟨_, rfl, noRaw_fits _⟩

theorem nextEvent_settles {again : Receive → Except FetchFault (NextEvent × Receive)}
    (harr : Arrived alloc stream)
    (hagain : 8 ≤ headerLength stream →
      (Settles c.rawSwapped (again (r.consume (headerLength stream)) >>= finishFetch c s buf) ↔
        StreamGood c s structId buf alloc (stream.drop (headerLength stream)))) :
    Settles c.rawSwapped
        (nextEvent c structId (messageAt stream) r again >>= finishFetch c s buf) ↔
      StreamGood c s structId buf alloc stream := by
  have hbody := body_length harr
  have hlen := message_length_lt stream
  by_cases hkind : (messageAt stream).kind = externalWriterBufNtupleFill
  · by_cases hshort : c.shortHeaders (messageAt stream)
    · exact iff_of_true (nextEvent_failed (eventMessage_short hkind hshort)) (.short harr hshort)
    by_cases hwhole : WholeHeaders c (messageAt stream)
    · rw [streamGood_whole harr hwhole, nextEvent, eventMessage_whole hwhole hbody hlen]
      by_cases hindex : frontWord (eventWordsOf c (messageAt stream)) < c.structures.length
      · rw [if_neg (Nat.not_le.mpr hindex), imp_iff_right hindex]
        dsimp only
        split
        next hequal => exact handleEvent_settles hwhole hbody hlen
        next hother => exact hagain (Nat.le_trans (Nat.le_add_right 8 _) hwhole.2)
      · rw [if_pos (Nat.not_lt.mp hindex)]
        exact iff_of_true ⟨_, rfl, noRaw_fits _⟩ fun h => absurd h hindex
    · rw [nextEvent, eventMessage_wrapped hkind hshort hwhole hbody hlen]
      refine iff_of_false (fun ⟨_, h, _⟩ => by cases h) fun h => ?_
      cases h with
      | other_kind _ h => exact h hkind
      | short _ h => exact hshort h
      | bad_index _ h => exact hwhole h
      | discarded _ h => exact hwhole h
      | event _ h => exact hwhole h
  · refine iff_of_true ?_ (.other_kind harr hkind)
    rcases eventMessage_other (c := c) hkind with hfinished | hfailed
    · rw [nextEvent, hfinished]
      exact ⟨_, rfl, noRaw_fits _⟩
    · exact nextEvent_failed hfailed

theorem fetchMessages_settles (hfuel : r.stream.length < fuel) :
    Settles c.rawSwapped (fetchMessages c structId fuel r >>= finishFetch c s buf) ↔
      StreamGood c s structId buf r.alloc r.stream := by
  induction fuel generalizing r with
  | zero => cases hfuel
  | succ fuel ih =>
    unfold fetchMessages
    have hends := extDataPeekMessage_ends r
    cases hpeek : extDataPeekMessage r with
    | error stop =>
      rw [hpeek] at hends
      refine iff_of_false ?_ fun h => hends (streamGood_arrived h)
      rintro ⟨result, hrun, -⟩
      cases stop <;> cases hrun
    | ok x =>
      obtain ⟨m, r1⟩ := x
      rw [hpeek] at hends
      obtain ⟨harr, hm, halloc, hstream, havail, hin⟩ := hends
      dsimp only at hm halloc hstream havail hin ⊢
      subst hm
      refine nextEvent_settles harr fun hlength => ?_
      have hsame := (stream_of_available havail (by
        change r1.used + headerLength r.stream ≤ r1.alloc at hin
        omega)).1
      rw [hstream] at hsame
      obtain ⟨halloc', hstream'⟩ := @consume_stream r1 (headerLength r.stream)
        (by rw [hsame]; exact havail.2)
      rw [halloc] at halloc'
      rw [hstream] at hstream'
      have hwhole := harr.whole.2
      rw [ih (by rw [hstream', List.length_drop]; omega), halloc', hstream']

theorem stream_length_lt (r : Receive) : r.stream.length < r.turns := by
  have hscript : ∀ script, (deliveredBytes script).length < readTurns script := by
    intro script
    induction script with
    | nil => exact Nat.one_pos
    | cons x script ih =>
      cases x with
      | data bytes =>
        cases bytes with
        | nil =>
          rw [deliveredBytes]
          · exact Nat.succ_pos _
          all_goals simp
        | cons b bytes =>
          simp only [deliveredBytes, readTurns, List.length_append, List.length_cons]
          omega
      | interrupted =>
        simp only [deliveredBytes, readTurns]
        omega
      | again => exact Nat.succ_pos _
      | failed => exact Nat.succ_pos _
  have hlt := hscript r.script
  unfold Receive.stream Receive.turns
  split
  · rw [List.length_append]
    omega
  · rw [List.length_take]
    omega

/-- Fetching an event is safe exactly when the messages that are to come are good. -/
theorem fetch_event_safe_iff (c : FetchClient) (buf : Nat → UInt8) (size : Nat) (structId : Int) :
    FetchSafe c buf size structId ↔ FetchGood c buf size structId := by
  have hsettles : FetchSafe c buf size structId ↔
      Settles c.rawSwapped (extDataFetchEvent c buf size structId) := by
    unfold FetchSafe Settles extDataGetRawData RawFits
    refine exists_congr fun result => ?_
    rw [exists_and_left]
    refine and_congr_right fun _ => ?_
    constructor
    · rintro ⟨raw, hraw⟩ hsome
      exact Nat.not_lt.mp fun h => (errorIf_bind_ok.mp hraw).1 ⟨hsome, h⟩
    · exact fun h => ⟨_, errorIf_bind_ok.mpr ⟨fun hn => absurd (h hn.1) (Nat.not_le.mpr hn.2), rfl⟩⟩
  have hearly : ∀ {e}, Settles c.rawSwapped (.ok ⟨.failed e, c.raw, c.receive⟩) ↔
      RawFits c.rawSwapped c.raw := fun {e} =>
    ⟨fun ⟨_, h, hfit⟩ => by cases h; exact hfit, fun h => ⟨_, rfl, h⟩⟩
  rw [hsettles, FetchGood, extDataFetchEvent]
  split
  next hsetup =>
    rw [hearly]
    constructor
    · exact fun h => .inr ⟨fun s hs => (by rw [hsetup] at hs; cases hs), h⟩
    · rintro (⟨s, hs, -⟩ | ⟨-, h⟩)
      · rw [hsetup] at hs
        cases hs
      · exact h
  next hsetup =>
    have hsetup : c.setupRead = true := by simpa using hsetup
    split
    next hnone =>
      rw [hearly]
      constructor
      · exact fun h => .inr ⟨fun s _ hs => (by rw [hnone] at hs; cases hs), h⟩
      · rintro (⟨s, -, hs, -⟩ | ⟨-, h⟩)
        · rw [hnone] at hs
          cases hs
        · exact h
    next s hs =>
      split
      next hsize =>
        rw [hearly]
        constructor
        · refine fun h => .inr ⟨fun s' _ hs' => ?_, h⟩
          cases hs.symm.trans hs'
          exact hsize
        · rintro (⟨s', -, hs', hsize', -⟩ | ⟨-, h⟩)
          · cases hs.symm.trans hs'
            exact absurd hsize' hsize
          · exact h
      next hsize =>
        have hsize : size = s.destStructSize := not_not.mp hsize
        rw [fetchStruct, fetchMessages_settles (stream_length_lt _)]
        constructor
        · exact fun h => .inl ⟨s, hsetup, hs, hsize, h⟩
        · rintro (⟨s', -, hs', -, h⟩ | ⟨h, -⟩)
          · cases hs.symm.trans hs'
            exact h
          · exact absurd hsize (h s hsetup hs)

end Fetch

def endedClient : FetchClient :=
  ⟨true, 0, [⟨0, 4, none, 1, [0x00a50000, 0], 4, []⟩], 0, noRaw, ⟨65536, 0, [], []⟩⟩

theorem fetch_event_end : ¬FetchSafe endedClient (fun _ => 0) 4 0 := by
  rintro ⟨result, raw, hrun, -⟩
  have hmissing : extDataFetchEvent endedClient (fun _ => 0) 4 0 = .error .missing := rfl
  rw [hmissing] at hrun
  cases hrun

end Ucesb
