import Ucesb.PipeBuffer

namespace Ucesb

section Circular

variable {size : Nat}

theorem mod_ne_mod {a b : Nat} (hab : a < b) (hba : b < a + size) : a % size ≠ b % size := by
  intro heq
  have hzero : (b - a) % size = 0 := Nat.sub_mod_eq_zero_of_mod_eq heq.symm
  rw [Nat.mod_eq_of_lt (by omega)] at hzero
  omega

theorem add_mod_of_lt {a i : Nat} (h : a % size + i < size) : (a + i) % size = a % size + i := by
  rw [Nat.add_mod, Nat.mod_eq_of_lt (by omega : i < size), Nat.mod_eq_of_lt h]

theorem add_mod_of_ge {a i : Nat} (hi : i < size) (h : size ≤ a % size + i) :
    (a + i) % size = a % size + i - size := by
  have hlt : a % size < size := Nat.mod_lt _ (by omega)
  rw [Nat.add_mod, Nat.mod_eq_of_lt hi, Nat.mod_eq_sub_mod h, Nat.mod_eq_of_lt (by omega)]

end Circular

def readChunks (mem : Nat → UInt8) (chunks : List (Nat × Nat)) : List UInt8 :=
  chunks.flatMap fun c => readCells mem c.1 c.2

structure PipeFifo (stream : List UInt8) (s : PipeBuffer) : Prop where
  ahead : s.done ≤ s.avail ∧ s.avail - s.done ≤ s.size
  /-- The chunks hold what was asked for, as far as it is not released. -/
  holds : ∀ m ∈ s.maps, (readChunks s.mem m.chunks).length = m.stop - m.start ∧
    m.stop ≤ stream.length ∧ ∀ o, m.start ≤ o → o < m.stop → s.done ≤ o →
      (readChunks s.mem m.chunks)[o - m.start]? = stream[o]?
  shorts : ∀ r ∈ s.shorts, stream.length < r.stop ∨ s.size < r.stop - r.done

/-- At the look at `_reached_eof` it still holds that `_avail` is not enough. -/
def PipeBufferAct.inTime (s : PipeBuffer) : PipeBufferAct → Bool
  | .mapStep =>
    match s.consumer with
    | some (.eof, _, stop) => !s.reachedEof || decide (s.avail < stop)
    | _ => true
  | _ => true

def PipeReaderPhase.inflight : PipeReaderPhase → Nat
  | .advance n => n
  | _ => 0

def PipeReaderPhase.Ok (stream : List UInt8) (s : PipeBuffer) : PipeReaderPhase → Prop
  | .select full => full = false → s.avail < s.done + s.size
  | .measure => s.avail < s.done + s.size
  | .read segment => 0 < segment ∧ s.avail + segment ≤ s.done + s.size ∧
      s.avail % s.size + segment ≤ s.size
  | .eof => s.avail = stream.length
  | _ => True

structure PipeBufferInv (stream : List UInt8) (s : PipeBuffer) : Prop where
  size_pow : ∃ k, k ≤ 62 ∧ s.size = 2 ^ k
  done_le : s.done ≤ s.reached
  reached_le : s.reached ≤ s.avail
  reached_lt : s.reached < 2 ^ 63
  taken_eq : s.taken = s.avail + s.reader.inflight
  taken_le : s.taken ≤ stream.length
  ahead : s.taken ≤ s.done + s.size
  cells : ∀ o, s.done ≤ o → o < s.taken → some (s.mem (o % s.size)) = stream[o]?
  readerOk : s.reader.Ok stream s
  unthreaded : s.threaded = false → s.reader = .check
  eof : s.reachedEof = true → s.avail = stream.length
  request : ∀ p start stop, s.consumer = some (p, start, stop) →
    s.done ≤ start ∧ start ≤ stop ∧ stop < 2 ^ 63
  maps : ∀ m ∈ s.maps, m.start ≤ m.stop ∧ m.stop ≤ m.start + s.size ∧ m.stop ≤ s.avail ∧
    m.chunks = PipeBuffer.mapChunks s.size m.start m.stop
  shorts : ∀ r ∈ s.shorts, stream.length < r.stop ∨ s.size < r.stop - r.done

namespace PipeBufferInv

variable {stream : List UInt8} {s s' : PipeBuffer}

theorem size_pos (h : PipeBufferInv stream s) : 0 < s.size := by
  obtain ⟨k, -, hk⟩ := h.size_pow
  rw [hk]
  exact Nat.two_pow_pos k

theorem size_le (h : PipeBufferInv stream s) : s.size ≤ 2 ^ 62 := by
  obtain ⟨k, hle, hk⟩ := h.size_pow
  rw [hk]
  exact Nat.pow_le_pow_right (by decide) hle

theorem mask (h : PipeBufferInv stream s) (a : Nat) : a &&& (s.size - 1) = a % s.size := by
  obtain ⟨k, -, hk⟩ := h.size_pow
  rw [hk]
  exact Nat.and_two_pow_sub_one_eq_mod a k

theorem avail_le (h : PipeBufferInv stream s) : s.avail ≤ s.taken := by
  rw [h.taken_eq]
  exact Nat.le_add_right _ _

theorem sizeDiff_done (h : PipeBufferInv stream s) :
    sizeDiff s.avail s.done = s.avail - s.done := by
  have h1 := h.done_le
  have h2 := h.reached_le
  have h3 := h.avail_le
  have h4 := h.ahead
  have h5 := h.size_le
  exact sizeDiff_eq (by omega) (by omega)

theorem ssizeDiff_stop (h : PipeBufferInv stream s) {start stop : Nat} (hs : s.done ≤ start)
    (hle : start ≤ stop) (hlt : stop < 2 ^ 63) :
    ssizeDiff s.avail stop = (s.avail : Int) - stop := by
  have h1 := h.avail_le
  have h2 := h.ahead
  have h3 := h.size_le
  exact ssizeDiff_eq (by omega) (by omega)

theorem receive_cells (h : PipeBufferInv stream s) {n : Nat} (htaken : s.taken = s.avail)
    (hn : s.avail + n ≤ s.done + s.size) (hwrap : s.avail % s.size + n ≤ s.size)
    (hlen : s.taken + n ≤ stream.length) :
    ∀ o, s.done ≤ o → o < s.taken + n →
      some ((s.receive stream n).mem (o % s.size)) = stream[o]? := by
  intro o hdone ho
  have hslice : (slice stream s.taken n).length = n := slice_length hlen
  simp only [PipeBuffer.receive, h.mask]
  by_cases hold : o < s.taken
  · have hcell := h.cells o hdone hold
    by_cases hbefore : o % s.size < s.avail % s.size
    · rw [writeCells_of_lt hbefore, hcell]
    · -- the position is behind the new bytes, or it would be the position of one of them
      have hafter : s.avail % s.size + (slice stream s.taken n).length ≤ o % s.size := by
        by_contra hin
        rw [hslice] at hin
        have hpos : (s.avail + (o % s.size - s.avail % s.size)) % s.size = o % s.size := by
          rw [add_mod_of_lt (by omega)]
          omega
        exact mod_ne_mod (by omega) (by omega) hpos.symm
      rw [writeCells_of_ge hafter, hcell]
  · have hpos : o % s.size = s.avail % s.size + (o - s.taken) := by
      rw [← add_mod_of_lt (by omega)]
      congr 1
      omega
    rw [hpos, writeCells_at (by omega), ← List.getElem?_eq_getElem]
    simp only [slice, List.getElem?_take, List.getElem?_drop]
    rw [if_pos (by omega)]
    congr 1
    omega

theorem setReader (h : PipeBufferInv stream s) (ht : s.threaded = true) {r : PipeReaderPhase}
    (hin : r.inflight = s.reader.inflight) (hok : r.Ok stream s) :
    PipeBufferInv stream { s with reader := r } := by
  have heq := h.taken_eq
  rw [← hin] at heq
  have hthreads : s.threaded = false → r = .check := by
    rw [ht]
    rintro ⟨⟩
  cases r <;> exact { h with taken_eq := heq, readerOk := hok, unthreaded := hthreads }

theorem receive (h : PipeBufferInv stream s) (ht : s.threaded = true) {segment n : Nat}
    (hr : s.reader = .read segment)
    (hn : n ≤ segment) (hlen : s.taken + n ≤ stream.length) :
    PipeBufferInv stream { s.receive stream n with reader := .advance n } := by
  have hthreads : s.threaded = false → PipeReaderPhase.advance n = .check := by
    rw [ht]
    rintro ⟨⟩
  have hok := h.readerOk
  have htaken := h.taken_eq
  simp only [hr, PipeReaderPhase.Ok, PipeReaderPhase.inflight] at hok htaken
  obtain ⟨-, hroom, hwrap⟩ := hok
  exact { h with
    taken_eq := by
      change s.taken + n = s.avail + n
      omega
    taken_le := hlen
    ahead := by
      change s.taken + n ≤ s.done + s.size
      omega
    cells := h.receive_cells htaken (by omega) (by omega) hlen
    readerOk := trivial
    unthreaded := hthreads }

theorem segment_ok (h : PipeBufferInv stream s) (hroom : s.avail < s.done + s.size) :
    0 < s.segment ∧ s.avail + s.segment ≤ s.done + s.size ∧
      s.avail % s.size + s.segment ≤ s.size := by
  have h1 := h.done_le
  have h2 := h.reached_le
  have h3 := Nat.mod_lt s.avail h.size_pos
  simp only [PipeBuffer.segment, h.sizeDiff_done, h.mask]
  omega

theorem readerStep (h : PipeBufferInv stream s) (ht : s.threaded = true) {e : ReaderEvent}
    (hs : s.readerStep stream e = some s') : PipeBufferInv stream s' := by
  have hdone := h.done_le
  have hreached := h.reached_le
  have hok := h.readerOk
  have htaken := h.taken_eq
  unfold PipeBuffer.readerStep at hs
  split at hs
  · next hr =>
    split at hs
    · cases hs
      exact { h with }
    split at hs
    · cases hs
      exact h.setReader ht (by rw [hr]; rfl) trivial
    · next hfull =>
      cases hs
      rw [h.sizeDiff_done] at hfull
      refine h.setReader ht (by rw [hr]; rfl) ?_
      intro _
      omega
  · next hr =>
    cases hs
    have hset := h.setReader ht (r := .recheck) (by rw [hr]; rfl) trivial
    exact { hset with }
  · next hr =>
    split at hs
    · cases hs
      exact { h with }
    · cases hs
      refine h.setReader ht (by rw [hr]; rfl) ?_
      intro hfull
      have hnot := of_decide_eq_false hfull
      rw [h.sizeDiff_done] at hnot
      omega
  · next hr =>
    cases hs
    rw [hr] at hok
    exact h.setReader ht (by rw [hr]; rfl) (hok rfl)
  · next hr =>
    split at hs
    · cases hs
    · cases hs
      have hset := h.setReader ht (r := .check) (by rw [hr]; rfl) trivial
      exact { hset with }
  · next hr =>
    split at hs
    · cases hs
    · cases hs
      rw [hr] at hok
      have hset := h.setReader ht (r := .measure) (by rw [hr]; rfl) (hok rfl)
      exact { hset with }
  · next hr =>
    cases hs
    exact h.setReader ht (by rw [hr]; rfl) trivial
  · next hr =>
    cases hs
    rw [hr] at hok
    exact h.setReader ht (by rw [hr]; rfl) (h.segment_ok hok)
  · next segment n hr =>
    split at hs
    · next hn =>
      cases hs
      exact h.receive ht hr hn.2.1 hn.2.2
    · cases hs
  · next segment hr =>
    split at hs
    · next hend =>
      cases hs
      simp only [hr, PipeReaderPhase.Ok, PipeReaderPhase.inflight] at hok htaken
      refine h.setReader ht (by rw [hr]; rfl) ?_
      change s.avail = stream.length
      omega
    · cases hs
  · next segment hr =>
    cases hs
    exact h.setReader ht (by rw [hr]; rfl) trivial
  · next n hr =>
    cases hs
    simp only [hr, PipeReaderPhase.inflight] at htaken
    have htl := h.taken_le
    have hthreads : s.threaded = false → PipeReaderPhase.wakeConsumer = .check := by
      rw [ht]
      rintro ⟨⟩
    exact { h with
      reached_le := by
        change s.reached ≤ s.avail + n
        omega
      taken_eq := htaken
      readerOk := trivial
      unthreaded := hthreads
      eof := by
        intro he
        have := h.eof he
        change s.avail + n = stream.length
        omega
      maps := by
        intro m hm
        obtain ⟨h1, h2, h3, h4⟩ := h.maps m hm
        exact ⟨h1, h2, Nat.le_trans h3 (Nat.le_add_right _ _), h4⟩ }
  · next hr =>
    have hset := h.setReader ht (r := .check) (by rw [hr]; rfl) trivial
    split at hs
    · cases hs
      exact { hset with }
    · cases hs
      exact hset
  · next hr =>
    cases hs
    rw [hr] at hok
    have hset := h.setReader ht (r := .wakeAtEof) (by rw [hr]; rfl) trivial
    exact { hset with eof := fun _ => hok }
  · next hr =>
    have hset := h.setReader ht (r := .ended) (by rw [hr]; rfl) trivial
    split at hs
    · cases hs
      exact { hset with }
    · cases hs
      exact hset
  · cases hs

theorem giveRange (h : PipeBufferInv stream s) {start stop : Nat} (hs : s.done ≤ start)
    (hle : start ≤ stop) (hlt : stop < 2 ^ 63) (henough : 0 ≤ ssizeDiff s.avail stop) :
    PipeBufferInv stream (s.giveRange start stop) := by
  rw [h.ssizeDiff_stop hs hle hlt] at henough
  have h1 := h.done_le
  have h2 := h.reached_le
  have h3 := h.avail_le
  have h4 := h.ahead
  have h5 := h.reached_lt
  exact { h with
    done_le := by
      change s.done ≤ max s.reached stop
      omega
    reached_le := by
      change max s.reached stop ≤ s.avail
      omega
    reached_lt := by
      change max s.reached stop < 2 ^ 63
      omega
    request := by
      rintro p a b ⟨⟩
    maps := by
      intro m hm
      rcases List.mem_append.mp hm with hm | hm
      · exact h.maps m hm
      · cases List.mem_singleton.mp hm
        refine ⟨hle, ?_, ?_, rfl⟩
        · change stop ≤ start + s.size
          omega
        · change stop ≤ s.avail
          omega }

theorem giveShort (h : PipeBufferInv stream s) (stop : Nat)
    (hshort : stream.length < stop ∨ s.size < stop - s.done) :
    PipeBufferInv stream (s.giveShort stop) :=
  { h with
    request := by
      rintro p a b ⟨⟩
    shorts := by
      intro r hr
      rcases List.mem_append.mp hr with hr | hr
      · exact h.shorts r hr
      · cases List.mem_singleton.mp hr
        exact hshort }

theorem setConsumer (h : PipeBufferInv stream s) {p : MapPhase} (q : MapPhase) {start stop : Nat}
    (hc : s.consumer = some (p, start, stop)) :
    PipeBufferInv stream { s with consumer := some (q, start, stop) } :=
  { h with
    request := by
      rintro r a b ⟨⟩
      exact h.request p start stop hc }

theorem mapStep (h : PipeBufferInv stream s)
    (htime : PipeBufferAct.inTime s .mapStep = true) (hs : s.mapStep = some s') :
    PipeBufferInv stream s' := by
  unfold PipeBuffer.mapStep at hs
  split at hs
  · cases hs
  · next start stop hc =>
    obtain ⟨h1, h2, h3⟩ := h.request _ _ _ hc
    split at hs
    · cases hs
      exact h.setConsumer _ hc
    · cases hs
      exact h.giveRange h1 h2 h3 (by omega)
  · next start stop hc =>
    cases hs
    have hset := h.setConsumer MapPhase.recheck hc
    exact { hset with }
  · next start stop hc =>
    obtain ⟨h1, h2, h3⟩ := h.request _ _ _ hc
    split at hs
    · cases hs
      exact h.setConsumer _ hc
    · cases hs
      exact h.giveRange h1 h2 h3 (by omega)
  · next start stop hc =>
    split at hs
    · next heof =>
      cases hs
      simp only [PipeBufferAct.inTime, hc, heof, Bool.not_true, Bool.false_or,
        decide_eq_true_eq] at htime
      rw [h.eof heof] at htime
      exact h.giveShort _ (.inl htime)
    · cases hs
      exact h.setConsumer _ hc
  · next start stop hc =>
    split at hs
    · cases hs
    · cases hs
      have hset := h.setConsumer MapPhase.announce hc
      exact { hset with }

theorem releaseTo (h : PipeBufferInv stream s) {stop : Nat} (hc : s.consumer = none)
    (hlo : s.done ≤ stop) (hhi : stop ≤ s.reached) : PipeBufferInv stream (s.releaseTo stop) := by
  have hahead := h.ahead
  have hok := h.readerOk
  have hset : PipeBufferInv stream { s with done := stop } := { h with
    done_le := hhi
    ahead := by
      change s.taken ≤ stop + s.size
      omega
    cells := fun o ho => h.cells o (Nat.le_trans hlo ho)
    readerOk := by
      cases hr : s.reader with
      | select full =>
        intro hfull
        rw [hr] at hok
        have := hok hfull
        change s.avail < stop + s.size
        omega
      | measure =>
        rw [hr] at hok
        change s.avail < s.done + s.size at hok
        change s.avail < stop + s.size
        omega
      | read segment =>
        rw [hr] at hok
        obtain ⟨h1, h2, h3⟩ := hok
        refine ⟨h1, ?_, h3⟩
        change s.avail + segment ≤ stop + s.size
        omega
      | eof =>
        rw [hr] at hok
        exact hok
      | check | announce | recheck | advance | wakeConsumer | wakeAtEof | ended => trivial
    request := by
      intro p start stop' hreq
      cases hc.symm.trans hreq }
  unfold PipeBuffer.releaseTo
  split
  · exact { hset with }
  · exact hset

theorem readNow_receive (h : PipeBufferInv stream s) (ht : s.threaded = false) {n : Nat}
    (hroom : s.avail < s.done + s.size) (hn : n ≤ s.segment)
    (hlen : s.taken + n ≤ stream.length) (heof : s.reachedEof = false) :
    PipeBufferInv stream { s.receive stream n with avail := s.avail + n } := by
  have hr := h.unthreaded ht
  have htaken := h.taken_eq
  simp only [hr, PipeReaderPhase.inflight] at htaken
  obtain ⟨-, h1, h2⟩ := h.segment_ok hroom
  have h3 := h.reached_le
  exact { h with
    reached_le := by
      change s.reached ≤ s.avail + n
      omega
    taken_eq := by
      change s.taken + n = s.avail + n + s.reader.inflight
      rw [hr]
      change s.taken + n = s.avail + n + 0
      omega
    taken_le := hlen
    ahead := by
      change s.taken + n ≤ s.done + s.size
      omega
    cells := h.receive_cells htaken (by omega) (by omega) hlen
    readerOk := by
      change s.reader.Ok stream _
      rw [hr]
      trivial
    eof := by
      intro he
      cases heof.symm.trans he
    maps := by
      intro m hm
      obtain ⟨h1, h2, h3, h4⟩ := h.maps m hm
      exact ⟨h1, h2, Nat.le_trans h3 (Nat.le_add_right _ _), h4⟩ }

theorem readNow (h : PipeBufferInv stream s) (ht : s.threaded = false) {start stop : Nat}
    (hs : s.done ≤ start) (hle : start ≤ stop) (hlt : stop < 2 ^ 63) {es : List ReaderEvent}
    (hrun : s.readNow stream start stop es = some s') : PipeBufferInv stream s' := by
  induction es generalizing s with
  | nil =>
    have hr := h.unthreaded ht
    have hdiff := h.ssizeDiff_stop hs hle hlt
    have h1 := h.done_le
    have h2 := h.reached_le
    unfold PipeBuffer.readNow at hrun
    split at hrun
    · next henough =>
      cases hrun
      exact h.giveRange hs hle hlt henough
    split at hrun
    · next heof =>
      cases hrun
      have := h.eof heof
      exact h.giveShort _ (.inl (by omega))
    split at hrun
    · next hfull =>
      cases hrun
      rw [h.sizeDiff_done] at hfull
      have hshort := h.giveShort stop (.inr (by omega))
      exact { hshort with }
    · cases hrun
  | cons e es ih =>
    have hr := h.unthreaded ht
    have hdiff := h.ssizeDiff_stop hs hle hlt
    have htaken := h.taken_eq
    simp only [hr, PipeReaderPhase.inflight] at htaken
    have h1 := h.done_le
    have h2 := h.reached_le
    unfold PipeBuffer.readNow at hrun
    split at hrun
    · cases hrun
    · next hgo =>
      simp only [not_or, Bool.not_eq_true] at hgo
      obtain ⟨hneed, heof, hspace⟩ := hgo
      rw [h.sizeDiff_done] at hspace
      have hroom : s.avail < s.done + s.size := by omega
      have hseg := h.segment_ok hroom
      have hwant : sizeDiff stop s.avail = stop - s.avail := sizeDiff_eq (by omega) (by omega)
      dsimp only at hrun
      split at hrun
      · next n =>
        split at hrun
        · next hn => exact ih (h.readNow_receive ht hroom (by omega) hn.2.2 heof) ht hs hrun
        · cases hrun
      · split at hrun
        · next hend =>
          have hall : s.avail = stream.length := by omega
          have hinv : PipeBufferInv stream { s with reachedEof := true } :=
            { h with eof := fun _ => hall }
          exact ih hinv ht hs hrun
        · cases hrun
      · exact ih h ht hs hrun
      · cases hrun

theorem readChunks_map (h : PipeBufferInv stream s) {start stop : Nat} (hle : start ≤ stop)
    (hsize : stop ≤ start + s.size) :
    readChunks s.mem (PipeBuffer.mapChunks s.size start stop) =
      (List.range (stop - start)).map fun i => s.mem ((start + i) % s.size) := by
  have hmod := Nat.mod_lt start h.size_pos
  have hbound := h.size_le
  have hdiff : sizeDiff stop start = stop - start := sizeDiff_eq hle (by omega)
  simp only [PipeBuffer.mapChunks, h.mask, hdiff]
  apply List.ext_getElem?
  intro i
  rw [List.getElem?_map]
  split
  · next hone =>
    simp only [readChunks, List.flatMap_cons, List.flatMap_nil, List.append_nil, readCells,
      List.getElem?_map]
    by_cases hi : i < stop - start
    · rw [List.getElem?_range' hi, List.getElem?_range hi, Option.map_some, Option.map_some,
        add_mod_of_lt (by omega), Nat.one_mul]
    · rw [List.getElem?_eq_none (by simp; omega), List.getElem?_eq_none (by simp; omega)]
      rfl
  · next htwo =>
    simp only [readChunks, List.flatMap_cons, List.flatMap_nil, List.append_nil, readCells,
      List.getElem?_append, List.length_map, List.length_range', List.getElem?_map]
    split
    · next hfirst =>
      rw [List.getElem?_range' hfirst, List.getElem?_range (by omega), Option.map_some,
        Option.map_some, add_mod_of_lt (by omega), Nat.one_mul]
    · next hsecond =>
      by_cases hi : i < stop - start
      · rw [List.getElem?_range' (by omega), List.getElem?_range hi, Option.map_some,
          Option.map_some, add_mod_of_ge (by omega) (by omega)]
        congr 2
        omega
      · rw [List.getElem?_eq_none (by simp; omega), List.getElem?_eq_none (by simp; omega)]
        rfl

theorem pipeFifo (h : PipeBufferInv stream s) : PipeFifo stream s := by
  have h1 := h.done_le
  have h2 := h.reached_le
  have h3 := h.avail_le
  have h4 := h.ahead
  have h5 := h.taken_le
  refine ⟨⟨by omega, by omega⟩, ?_, h.shorts⟩
  intro m hm
  obtain ⟨hle, hsize, havail, hchunks⟩ := h.maps m hm
  rw [hchunks, h.readChunks_map hle hsize]
  refine ⟨by simp, by omega, ?_⟩
  intro o hlo hhi hdone
  rw [List.getElem?_map, List.getElem?_range (by omega), Option.map_some,
    Nat.add_sub_cancel' hlo]
  exact h.cells o hdone (by omega)

end PipeBufferInv

section Run

variable {stream : List UInt8} {s s' : PipeBuffer} {a : PipeBufferAct}

theorem pipeBufferInit_inv {threaded : Bool} {k magic : Nat} (hk : k ≤ 62) (hmagic : magic ≤ 2 ^ k)
    (hlen : magic ≤ stream.length) :
    PipeBufferInv stream (pipeBufferInit stream threaded (2 ^ k) magic) where
  size_pow := ⟨k, hk, rfl⟩
  done_le := Nat.le_refl _
  reached_le := Nat.zero_le _
  reached_lt := by
    change 0 < 2 ^ 63
    omega
  taken_eq := rfl
  taken_le := hlen
  ahead := by
    change magic ≤ 0 + 2 ^ k
    omega
  cells := by
    intro o _ ho
    change o < magic at ho
    have hlt : o < (stream.take magic).length := by
      rw [List.length_take]
      omega
    have hcell : writeCells (fun _ => (0 : UInt8)) 0 (stream.take magic) (0 + o) =
        (stream.take magic)[o] := writeCells_at hlt
    rw [Nat.zero_add] at hcell
    change some (writeCells (fun _ => 0) 0 (stream.take magic) (o % 2 ^ k)) = stream[o]?
    rw [Nat.mod_eq_of_lt (by omega), hcell, ← List.getElem?_eq_getElem, List.getElem?_take,
      if_pos ho]
  readerOk := trivial
  unthreaded := fun _ => rfl
  eof := by rintro ⟨⟩
  request := by rintro p start stop ⟨⟩
  maps := by rintro m ⟨⟩
  shorts := by rintro r ⟨⟩

theorem pipeBufferStep_inv (h : PipeBufferInv stream s) (htime : a.inTime s = true)
    (hs : pipeBufferStep stream s a = some s') : PipeBufferInv stream s' := by
  unfold pipeBufferStep at hs
  split at hs
  · cases hs
  cases a with
  | reader e =>
    dsimp only at hs
    split at hs
    · next ht => exact h.readerStep ht hs
    · cases hs
  | map start stop =>
    dsimp only at hs
    split at hs
    · next hreq =>
      cases hs
      exact { h with
        request := by
          rintro p b c ⟨⟩
          exact hreq.2.2 }
    · cases hs
  | mapStep => exact h.mapStep htime hs
  | mapNow start stop es =>
    dsimp only at hs
    split at hs
    · next hreq => exact h.readNow hreq.1 hreq.2.1 hreq.2.2.1 hreq.2.2.2 hs
    · cases hs
  | release stop =>
    dsimp only at hs
    split at hs
    · next hrel =>
      cases hs
      exact h.releaseTo hrel.1 hrel.2.1 hrel.2.2
    · cases hs

end Run

/-- The buffer is a bounded queue of the bytes of the stream, with the reader in a thread or not. -/
theorem pipe_buffer_fifo {stream : List UInt8} {threaded : Bool} {k magic : Nat}
    {acts : List PipeBufferAct} {s : PipeBuffer} (hk : k ≤ 62) (hmagic : magic ≤ 2 ^ k)
    (hlen : magic ≤ stream.length)
    (htime : StepsMeet (pipeBufferStep stream) (fun s a => a.inTime s = true)
      (pipeBufferInit stream threaded (2 ^ k) magic) acts)
    (h : runSteps (pipeBufferStep stream) (pipeBufferInit stream threaded (2 ^ k) magic) acts =
      some s) : PipeFifo stream s :=
  (runSteps_inv_of_meet (fun _ _ _ hi ht hs => pipeBufferStep_inv hi ht hs)
    (pipeBufferInit_inv hk hmagic hlen) htime h).pipeFifo

def pipeBufferDemo : List PipeBufferAct :=
  [.map 0 3, .reader .go, .reader .readable, .mapStep, .reader .go, .mapStep, .reader (.bytes 2),
    .mapStep, .mapStep, .reader .go, .reader .go, .mapStep, .mapStep, .mapStep, .release 3,
    .map 3 6, .reader .go, .reader .readable, .reader .go, .reader (.bytes 2), .reader .go,
    .reader .go, .mapStep]

theorem pipe_buffer_fifo_demo :
    ∃ s, runSteps (pipeBufferStep [1, 2, 3, 4, 5, 6])
        (pipeBufferInit [1, 2, 3, 4, 5, 6] true (2 ^ 2) 2) pipeBufferDemo = some s ∧
      s.maps.map (fun m => m.chunks) = [[(0, 3)], [(3, 1), (0, 2)]] ∧
      PipeFifo [1, 2, 3, 4, 5, 6] s := by
  have hrun : ((runSteps (pipeBufferStep [1, 2, 3, 4, 5, 6])
      (pipeBufferInit [1, 2, 3, 4, 5, 6] true (2 ^ 2) 2) pipeBufferDemo).map fun s =>
        s.maps.map (fun m => m.chunks)) = some [[(0, 3)], [(3, 1), (0, 2)]] := by
    decide +kernel
  obtain ⟨s, hs, hm⟩ := Option.map_eq_some_iff.mp hrun
  exact ⟨s, hs, hm, pipe_buffer_fifo (by decide) (by decide) (by decide)
    (stepsMeet_of_check (by decide +kernel)) hs⟩

def eofRace : List PipeBufferAct :=
  [.map 0 4, .mapStep, .mapStep, .mapStep, .reader .go, .reader .readable, .reader .go,
    .reader (.bytes 4), .reader .go, .reader .go, .reader .go, .reader .readable, .reader .go,
    .reader .endOfFile, .reader .go, .mapStep]

theorem eof_race_short :
    ∃ s, runSteps (pipeBufferStep [1, 2, 3, 4])
        (pipeBufferInit [1, 2, 3, 4] true (2 ^ 3) 0) eofRace = some s ∧
      s.avail = 4 ∧ s.shorts = [⟨4, 0⟩] ∧ ¬ PipeFifo [1, 2, 3, 4] s := by
  have hrun : ((runSteps (pipeBufferStep [1, 2, 3, 4])
      (pipeBufferInit [1, 2, 3, 4] true (2 ^ 3) 0) eofRace).map fun s =>
        (s.avail, s.size, s.shorts)) = some (4, 8, [⟨4, 0⟩]) := by
    decide +kernel
  obtain ⟨s, hs, heq⟩ := Option.map_eq_some_iff.mp hrun
  simp only [Prod.mk.injEq] at heq
  obtain ⟨havail, hsize, hshorts⟩ := heq
  refine ⟨s, hs, havail, hshorts, ?_⟩
  intro hf
  have hr := hf.shorts ⟨4, 0⟩ (by rw [hshorts]; exact List.mem_singleton_self _)
  rw [hsize] at hr
  revert hr
  decide

end Ucesb
