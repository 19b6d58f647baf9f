import Ucesb.TcpConserve

namespace Ucesb

section

open LmdOutputTcp

/-- Once a stream with sticky events is freed ahead of the client, no later normal stream comes
before a recovery stream that is newer than what was lost. -/
def RecoversLosses (log : List ClientEvent) : Prop :=
  ∀ pre n mid m post, log = pre ++ .skipped n :: mid ++ .given m false :: post → n < m →
    ∃ r, ClientEvent.given r true ∈ mid ∧ n < r

def owedAfter (lost : List Nat) : ClientEvent → List Nat
  | .skipped n => n :: lost
  | .given r true => lost.filter (r ≤ ·)
  | .given _ false => lost

def owed (log : List ClientEvent) : List Nat := log.foldl owedAfter []

theorem owed_snoc (log : List ClientEvent) (e : ClientEvent) :
    owed (log ++ [e]) = owedAfter (owed log) e := by
  simp [owed]

theorem owed_foldl (mid : List ClientEvent) {lost : List Nat} {n : Nat} (h : n ∈ lost) :
    n ∈ mid.foldl owedAfter lost ∨ ∃ r, ClientEvent.given r true ∈ mid ∧ n < r := by
  induction mid generalizing lost with
  | nil => exact .inl h
  | cons e mid ih =>
    have hlift : n ∈ owedAfter lost e → n ∈ (e :: mid).foldl owedAfter lost ∨
        ∃ r, ClientEvent.given r true ∈ e :: mid ∧ n < r := by
      intro hm
      rcases ih hm with h1 | ⟨r, h1, h2⟩
      · exact .inl h1
      · exact .inr ⟨r, List.mem_cons_of_mem _ h1, h2⟩
    cases e with
    | skipped k => exact hlift (List.mem_cons_of_mem _ h)
    | given r recovery =>
      cases recovery with
      | false => exact hlift h
      | true =>
        by_cases hr : r ≤ n
        · exact hlift (List.mem_filter.mpr ⟨h, by simpa using hr⟩)
        · exact .inr ⟨r, by simp, by omega⟩

theorem recoversLosses_nil : RecoversLosses [] := by
  intro pre n mid m post h
  simp at h

theorem recoversLosses_snoc {log : List ClientEvent} {e : ClientEvent} (h : RecoversLosses log)
    (hg : ∀ m, e = .given m false → ∀ n ∈ owed log, m ≤ n) : RecoversLosses (log ++ [e]) := by
  intro pre n mid m post heq hlt
  rcases List.eq_nil_or_concat post with rfl | ⟨post', last, rfl⟩
  · -- the normal stream is the new entry
    have hsplit : log = pre ++ .skipped n :: mid ∧ e = .given m false := by
      have h2 := List.append_inj' heq rfl
      exact ⟨h2.1, List.singleton_inj.mp h2.2⟩
    have hfold : owed log = mid.foldl owedAfter (n :: owed pre) := by
      rw [hsplit.1]
      simp [owed, owedAfter]
    have hn : n ∈ n :: owed pre := List.mem_cons_self
    rcases owed_foldl mid hn with hm | hr
    · rw [← hfold] at hm
      have := hg m hsplit.2 n hm
      omega
    · exact hr
  · have h2 : log ++ [e] = (pre ++ .skipped n :: mid ++ .given m false :: post') ++ [last] := by
      rw [heq]
      simp
    exact h pre n mid m post' (List.append_inj' h2 rfl).1 hlt

/-- Somewhere on the way a stream says that `n` was lost right after it. -/
def LostCovered (s : LmdOutputTcp) (n : Nat) (ahead : List Nat) : Prop :=
  ∃ a p b, ahead = a ++ p :: b ∧ (s.flags p).stickyLostAfter = true ∧
    (s.streams p).firstBuf < n ∧ ∀ q ∈ b, n < (s.streams q).firstBuf

theorem LostCovered.snoc {s : LmdOutputTcp} {n x : Nat} {l : List Nat} (h : LostCovered s n l)
    (hx : n < (s.streams x).firstBuf) : LostCovered s n (l ++ [x]) := by
  obtain ⟨a, p, b, rfl, h1, h2, h3⟩ := h
  refine ⟨a, p, b ++ [x], by simp, h1, h2, ?_⟩
  intro q hq
  rcases List.mem_append.mp hq with hq | hq
  · exact h3 q hq
  · rw [List.mem_singleton.mp hq]
    exact hx

/-- A client that is to get past what it lost, or has to wait for a recovery stream. -/
def Watched (s : LmdOutputTcp) (n : Nat) (need : NeedRecovery) (rest : List Nat) : Prop :=
  (need = .first ∧ ∀ q ∈ rest, n < (s.streams q).firstBuf) ∨ LostCovered s n rest

theorem watched_needAfter {s : LmdOutputTcp} {n x : Nat} {need : NeedRecovery} {rest : List Nat}
    (h : Watched s n need (x :: rest)) : Watched s n (s.needAfter x need) rest := by
  rcases h with ⟨rfl, hq⟩ | ⟨a, p, b, he, h1, h2, h3⟩
  · left
    refine ⟨?_, fun q hm => hq q (List.mem_cons_of_mem _ hm)⟩
    unfold needAfter
    split <;> rfl
  · cases a with
    | nil =>
      simp only [List.nil_append, List.cons.injEq] at he
      obtain ⟨rfl, rfl⟩ := he
      left
      refine ⟨?_, h3⟩
      unfold needAfter
      rw [if_pos h1]
    | cons y a =>
      simp only [List.cons_append, List.cons.injEq] at he
      obtain ⟨rfl, rfl⟩ := he
      exact .inr ⟨a, p, b, rfl, h1, h2, h3⟩

/-- What a client that has lost `n` may be given: a stream from which the loss is still to be
noticed, a recovery stream after it, or nothing but the need for one. -/
def FoundAfterLoss (s : LmdOutputTcp) (n : Nat) (rest : List Nat) :
    Option Nat → NeedRecovery → Prop
  | none, need => need = .first
  | some m, _ => ((s.flags m).isRecovery = true ∧ n < (s.streams m).firstBuf) ∨
      ∃ a b, rest = a ++ m :: b ∧ LostCovered s n (m :: b)

theorem FoundAfterLoss.cons {s : LmdOutputTcp} {n x : Nat} {rest : List Nat} {found : Option Nat}
    {need : NeedRecovery} (h : FoundAfterLoss s n rest found need) :
    FoundAfterLoss s n (x :: rest) found need := by
  cases found with
  | none => exact h
  | some m =>
    rcases h with h | ⟨a, b, rfl, hc⟩
    · exact .inl h
    · exact .inr ⟨x :: a, b, rfl, hc⟩

theorem matching_first {f : LosFlags} {ok : Bool} {need : NeedRecovery}
    (h : matchingRecoveryStream f .first = (ok, need)) :
    (ok = true → f.isRecovery = true) ∧ (ok = false → need = .first) := by
  simp only [matchingRecoveryStream] at h
  split at h
  · rename_i hfirst
    cases h
    simp only [Bool.and_eq_true] at hfirst
    exact ⟨fun _ => by simp [LosFlags.isRecovery, hfirst.1], fun hx => by cases hx⟩
  · cases h
    exact ⟨fun hx => (by cases hx), fun _ => rfl⟩

theorem searchNext_watched {s : LmdOutputTcp} (hs : s.sendonce = false) (hd : s.dropold = 0)
    {now : Int} {n : Nat} {rest : List Nat} {need need' : NeedRecovery} {found : Option Nat}
    (hw : Watched s n need rest) (h : s.searchNext now rest need = (found, need')) :
    FoundAfterLoss s n rest found need' := by
  induction rest generalizing need with
  | nil =>
    simp only [searchNext, Prod.mk.injEq] at h
    obtain ⟨rfl, rfl⟩ := h
    rcases hw with ⟨hw, -⟩ | ⟨a, p, b, he, -⟩
    · exact hw
    · simp at he
  | cons x rest ih =>
    have hskip : s.prepareSkip now x = false := by simp [prepareSkip, hs, hd]
    unfold searchNext at h
    rw [hskip] at h
    simp only [Bool.false_eq_true, ↓reduceIte] at h
    cases hmatch : matchingRecoveryStream (s.flags x) need with
    | mk ok need₁ =>
      rw [hmatch] at h
      cases ok with
      | true =>
        simp only [Prod.mk.injEq] at h
        obtain ⟨rfl, rfl⟩ := h
        rcases hw with ⟨rfl, hq⟩ | hc
        · exact .inl ⟨(matching_first hmatch).1 rfl, hq x (by simp)⟩
        · exact .inr ⟨[], rest, rfl, hc⟩
      | false =>
        have hw' : Watched s n need₁ (x :: rest) := by
          rcases hw with ⟨rfl, hq⟩ | hc
          · exact .inl ⟨(matching_first hmatch).2 rfl, hq⟩
          · exact .inr hc
        exact (ih (watched_needAfter hw') h).cons

end

open LmdOutputTcp

def LmdOutputTcp.ahead (s : LmdOutputTcp) (stream : Nat) : List Nat :=
  stream :: streamsAfter s.active stream

/-- The streams that the clients have not seen, in the order of their data. -/
def LmdOutputTcp.coming (s : LmdOutputTcp) (loose : List Nat) : List Nat :=
  loose ++ s.filled ++ s.fillStream.toList

def Owes (s : LmdOutputTcp) (loose : List Nat) (c : LmdOutputClient) : Prop :=
  ∀ n ∈ owed c.log,
    (c.position = none → c.need = .first) ∧
    (∀ x, c.position = some x → LostCovered s n (s.ahead x)) ∧
    n < s.lBuf ∧ ∀ q ∈ s.coming loose, n < (s.streams q).firstBuf

structure StickyInv (s : LmdOutputTcp) (loose : List Nat) : Prop where
  base : StreamsInv s loose
  sendonce : s.sendonce = false
  dropold : s.dropold = 0
  sorted : (s.active ++ s.coming loose).Pairwise fun x y =>
    (s.streams x).firstBuf < (s.streams y).firstBuf
  below : ∀ x ∈ s.active ++ loose ++ s.filled, (s.streams x).firstBuf < s.lBuf
  filling : ∀ x ∈ s.fillStream, (s.streams x).firstBuf ≤ s.lBuf
  recovers : ∀ c ∈ s.clients, RecoversLosses c.log
  owes : ∀ c ∈ s.clients, Owes s loose c

section Frame

variable {s t : LmdOutputTcp} {loose loose' : List Nat} {c c' : LmdOutputClient}

theorem Owes.of_client (h : Owes s loose c) (hl : c'.log = c.log)
    (hp : c'.position = c.position) (hn : c'.need = c.need) : Owes s loose c' := by
  unfold Owes
  rw [hl, hp, hn]
  exact h

theorem LostCovered.mono {n : Nat} {l : List Nat} (h : LostCovered s n l)
    (hf : ∀ q ∈ l, (t.streams q).firstBuf = (s.streams q).firstBuf ∧
      ((s.flags q).stickyLostAfter = true → (t.flags q).stickyLostAfter = true)) :
    LostCovered t n l := by
  obtain ⟨a, p, b, rfl, h1, h2, h3⟩ := h
  refine ⟨a, p, b, rfl, (hf p (by simp)).2 h1, ?_, ?_⟩
  · rw [(hf p (by simp)).1]
    exact h2
  · intro q hq
    rw [(hf q (by simp [hq])).1]
    exact h3 q hq

theorem Owes.frame (h : Owes s loose c)
    (hahead : ∀ x, c.position = some x → t.ahead x = s.ahead x)
    (hstreams : ∀ x, c.position = some x → ∀ q ∈ s.ahead x,
      (t.streams q).firstBuf = (s.streams q).firstBuf ∧
        ((s.flags q).stickyLostAfter = true → (t.flags q).stickyLostAfter = true))
    (hcoming : ∀ q ∈ t.coming loose',
      (q ∈ s.coming loose ∧ (t.streams q).firstBuf = (s.streams q).firstBuf) ∨
        s.lBuf ≤ (t.streams q).firstBuf)
    (hbuf : s.lBuf ≤ t.lBuf) : Owes t loose' c := by
  intro n hn
  obtain ⟨h1, h2, h3, h4⟩ := h n hn
  refine ⟨h1, ?_, by omega, ?_⟩
  · intro x hx
    rw [hahead x hx]
    exact (h2 x hx).mono (hstreams x hx)
  · intro q hq
    rcases hcoming q hq with ⟨hm, he⟩ | hle
    · rw [he]
      exact h4 q hm
    · omega

theorem mem_ahead {x q : Nat} (h : q ∈ s.ahead x) : q = x ∨ q ∈ s.active := by
  rcases List.mem_cons.mp h with rfl | h
  · exact .inl rfl
  · exact .inr (mem_of_streamsAfter h)

end Frame

section FreeOldest

variable {s t : LmdOutputTcp} {v : Nat}

structure SameView (s t : LmdOutputTcp) : Prop where
  streams : t.streams = s.streams
  active : t.active = s.active
  filled : t.filled = s.filled
  fillStream : t.fillStream = s.fillStream
  clients : t.clients = s.clients
  lBuf : t.lBuf = s.lBuf
  sendonce : t.sendonce = s.sendonce
  dropold : t.dropold = s.dropold

theorem addFreeStream_view (s : LmdOutputTcp) (stream : Nat) :
    SameView s (s.addFreeStream stream) := by
  unfold addFreeStream
  split
  · exact ⟨rfl, rfl, rfl, rfl, rfl, rfl, rfl, rfl⟩
  · exact ⟨rfl, rfl, rfl, rfl, rfl, rfl, rfl, rfl⟩

theorem askRecovery_view (s : LmdOutputTcp) (need : NeedRecovery) :
    SameView s (s.askRecovery need) := by
  unfold LmdOutputTcp.askRecovery
  split
  · exact ⟨rfl, rfl, rfl, rfl, rfl, rfl, rfl, rfl⟩
  · exact ⟨rfl, rfl, rfl, rfl, rfl, rfl, rfl, rfl⟩

theorem Owes.of_view {loose : List Nat} {c : LmdOutputClient} (h : Owes s loose c)
    (hv : SameView s t) : Owes t loose c := by
  unfold Owes LostCovered LmdOutputTcp.ahead LmdOutputTcp.coming LmdOutputTcp.flags
  rw [hv.streams, hv.active, hv.filled, hv.fillStream, hv.lBuf]
  exact h

theorem StickyInv.of_view {loose : List Nat} (h : StickyInv s loose) (hv : SameView s t)
    (hb : StreamsInv t loose) : StickyInv t loose := by
  refine ⟨hb, hv.sendonce.trans h.sendonce, hv.dropold.trans h.dropold, ?_, ?_, ?_, ?_, ?_⟩
  · unfold LmdOutputTcp.coming
    rw [hv.streams, hv.active, hv.filled, hv.fillStream]
    exact h.sorted
  · rw [hv.streams, hv.active, hv.filled, hv.lBuf]
    exact h.below
  · rw [hv.streams, hv.fillStream, hv.lBuf]
    exact h.filling
  · rw [hv.clients]
    exact h.recovers
  · rw [hv.clients]
    intro c hc
    exact (h.owes c hc).of_view hv

def LmdOutputTcp.markKept (s : LmdOutputTcp) : Bool :=
  match s.oldestUnused with
  | none => true
  | some stream =>
    match prevStream s.active stream with
    | none => true
    | some p => !(s.flags stream).stickyLostAfter || (s.flags stream).hasStickyEvent ||
        (s.flags p).stickyLostAfter

theorem LostCovered.remove {n p : Nat} {l b : List Nat} (h : LostCovered s n (l ++ p :: v :: b))
    (hp : (s.streams p).firstBuf < (s.streams v).firstBuf)
    (hf : ∀ q, (t.streams q).firstBuf = (s.streams q).firstBuf ∧
      ((s.flags q).stickyLostAfter = true → (t.flags q).stickyLostAfter = true))
    (hv : (s.flags v).stickyLostAfter = true → (t.flags p).stickyLostAfter = true) :
    LostCovered t n (l ++ p :: b) := by
  obtain ⟨a, x, r, he, h1, h2, h3⟩ := h
  have hmono : LostCovered s n (l ++ p :: b) → LostCovered t n (l ++ p :: b) := by
    intro hc
    exact hc.mono fun q _ => hf q
  rw [show l ++ p :: v :: b = (l ++ [p]) ++ v :: b by simp] at he
  rcases List.append_eq_append_iff.mp he with ⟨a', ha, hr⟩ | ⟨a', ha, hr⟩
  · -- the mark is on `v` or after it
    cases a' with
    | nil =>
      simp only [List.nil_append, List.cons.injEq] at hr
      obtain ⟨rfl, rfl⟩ := hr
      refine ⟨l, p, b, rfl, hv h1, ?_, ?_⟩
      · rw [(hf p).1]
        omega
      · intro q hq
        rw [(hf q).1]
        exact h3 q hq
    | cons y a' =>
      simp only [List.cons_append, List.cons.injEq] at hr
      obtain ⟨rfl, rfl⟩ := hr
      exact hmono ⟨l ++ p :: a', x, r, by simp, h1, h2, h3⟩
  · -- or it comes before `v`
    cases a' with
    | nil =>
      simp only [List.nil_append, List.cons.injEq] at hr
      obtain ⟨rfl, rfl⟩ := hr
      refine ⟨l, p, r, rfl, hv h1, ?_, ?_⟩
      · rw [(hf p).1]
        omega
      · intro q hq
        rw [(hf q).1]
        exact h3 q hq
    | cons y a' =>
      simp only [List.cons_append, List.cons.injEq] at hr
      obtain ⟨rfl, rfl⟩ := hr
      refine hmono ⟨a, x, a' ++ b, ?_, h1, h2, ?_⟩
      · rw [show l ++ p :: b = (l ++ [p]) ++ b by simp, ha]
        simp
      · intro q hq
        apply h3 q
        rcases List.mem_append.mp hq with hq | hq
        · exact List.mem_append_left _ hq
        · exact List.mem_append_right _ (List.mem_cons_of_mem _ hq)

theorem markLostAfter_mono (s : LmdOutputTcp) (stream q : Nat) :
    ((s.markLostAfter stream).streams q).firstBuf = (s.streams q).firstBuf ∧
      ((s.flags q).stickyLostAfter = true →
        ((s.markLostAfter stream).flags q).stickyLostAfter = true) := by
  unfold markLostAfter
  split
  · exact ⟨rfl, id⟩
  · split
    · show ((if q = _ then _ else s.streams q).firstBuf = _) ∧
        (_ → (LmdOutputStream.flags (if q = _ then _ else s.streams q)).stickyLostAfter = true)
      split
      · exact ⟨rfl, fun _ => rfl⟩
      · exact ⟨rfl, id⟩
    · exact ⟨rfl, id⟩

theorem markLostAfter_marked {p : Nat} (hp : prevStream s.active v = some p)
    (hs : (s.flags v).hasStickyEvent = true) :
    ((s.markLostAfter v).flags p).stickyLostAfter = true := by
  unfold markLostAfter
  rw [hp, hs]
  show (LmdOutputStream.flags (if p = p then _ else s.streams p)).stickyLostAfter = true
  rw [if_pos rfl]

theorem markLostAfter_view (s : LmdOutputTcp) (stream : Nat) :
    (s.markLostAfter stream).filled = s.filled ∧
      (s.markLostAfter stream).fillStream = s.fillStream ∧
      (s.markLostAfter stream).lBuf = s.lBuf ∧
      (s.markLostAfter stream).sendonce = s.sendonce ∧
      (s.markLostAfter stream).dropold = s.dropold := by
  unfold markLostAfter
  split
  · exact ⟨rfl, rfl, rfl, rfl, rfl⟩
  · split
    · exact ⟨rfl, rfl, rfl, rfl, rfl⟩
    · exact ⟨rfl, rfl, rfl, rfl, rfl⟩

theorem ahead_append {a b : List Nat} {x : Nat} (ha : s.active = a ++ x :: b) (hx : x ∉ a) :
    s.ahead x = x :: b := by
  unfold LmdOutputTcp.ahead
  rw [ha, streamsAfter_append hx]

theorem noteSkip_recovers (s : LmdOutputTcp) (v : Nat) (c : LmdOutputClient)
    (h : RecoversLosses c.log) : RecoversLosses (s.noteSkip v c).log := by
  unfold noteSkip
  split
  · apply recoversLosses_snoc h
    intro m he
    cases he
  · exact h

/-- The stream `v` of the active ones has been freed, and the one before it marked. -/
structure Freed (s t : LmdOutputTcp) (v : Nat) (a b : List Nat) : Prop where
  before : s.active = a ++ v :: b
  after : t.active = a ++ b
  nodup : (a ++ v :: b).Nodup
  stays : ∀ q, (t.streams q).firstBuf = (s.streams q).firstBuf ∧
    ((s.flags q).stickyLostAfter = true → (t.flags q).stickyLostAfter = true)
  filled : t.filled = s.filled
  fillStream : t.fillStream = s.fillStream
  lBuf : t.lBuf = s.lBuf
  sendonce : t.sendonce = s.sendonce
  dropold : t.dropold = s.dropold
  clients : t.clients = s.clients.map (s.noteSkip v)
  marked : ∀ p, prevStream s.active v = some p → (s.flags v).hasStickyEvent = true →
    (t.flags p).stickyLostAfter = true

theorem freed_of_active (hv : v ∈ s.active) (hnd : s.active.Nodup) :
    ∃ a b, Freed s ((((s.noteSkipped v).markLostAfter v).unlinkStream v).addFreeStream v) v a b := by
  obtain ⟨a, b, hact, hva, -⟩ := split_at_stream hv hnd
  have hview := addFreeStream_view (((s.noteSkipped v).markLostAfter v).unlinkStream v) v
  obtain ⟨h1, h2, h3, h4, h5⟩ := markLostAfter_view (s.noteSkipped v) v
  refine ⟨a, b, hact, ?_, hact ▸ hnd, fun q => ?_, hview.filled.trans h1, hview.fillStream.trans h2,
    hview.lBuf.trans h3, hview.sendonce.trans h4, hview.dropold.trans h5,
    hview.clients.trans (markLostAfter_clients _ _), fun p hprev hst => ?_⟩
  · rw [hview.active]
    show ((s.noteSkipped v).markLostAfter v).active.erase v = a ++ b
    rw [markLostAfter_active]
    show s.active.erase v = a ++ b
    rw [hact, List.erase_append_right _ hva, List.erase_cons_head]
  · unfold LmdOutputTcp.flags
    rw [hview.streams]
    exact markLostAfter_mono (s.noteSkipped v) v q
  · unfold LmdOutputTcp.flags
    rw [hview.streams]
    exact @markLostAfter_marked (s.noteSkipped v) v p hprev hst

theorem Freed.coming_eq {a b : List Nat} (h : Freed s t v a b) : t.coming [] = s.coming [] := by
  unfold LmdOutputTcp.coming
  rw [h.filled, h.fillStream]

theorem Freed.not_before {a b : List Nat} (h : Freed s t v a b) : v ∉ a :=
  fun hm => (List.nodup_append.mp h.nodup).2.2 v hm v List.mem_cons_self rfl

theorem Freed.sublist {a b : List Nat} (h : Freed s t v a b) : t.active.Sublist s.active := by
  rw [h.after, h.before]
  exact (List.sublist_cons_self v b).append_left a

theorem owes_behind {c : LmdOutputClient} {x p : Nat} {a l b : List Nat}
    (h : StickyInv s []) (hc : c ∈ s.clients) (hx : c.position = some x)
    (hfr : Freed s t v (a ++ l ++ [p]) b) (hhead : l ++ [p] = x :: (l ++ [p]).tail)
    (hkept : (s.flags v).stickyLostAfter = true → (t.flags p).stickyLostAfter = true)
    (hmark : (s.flags v).hasStickyEvent = true → (t.flags p).stickyLostAfter = true) :
    Owes t [] (s.noteSkip v c) := by
  have hf := hfr.stays
  have htc := hfr.coming_eq
  have htl := hfr.lBuf
  have hact : s.active = a ++ l ++ p :: v :: b := by
    rw [hfr.before, List.append_assoc _ [p]]
    rfl
  have htact : t.active = a ++ l ++ p :: b := by
    rw [hfr.after, List.append_assoc _ [p]]
    rfl
  have hnd : (a ++ l ++ p :: v :: b).Nodup := hact ▸ h.base.pool.active_nodup
  have hsort := (List.pairwise_append.mp h.sorted).1
  rw [hact, List.append_assoc] at hsort
  have hsort' := (List.pairwise_append.mp hsort).2.1
  obtain ⟨-, hpv, -⟩ := List.pairwise_append.mp hsort'
  obtain ⟨hp, hvb⟩ := List.pairwise_cons.mp hpv
  have hlt : (s.streams p).firstBuf < (s.streams v).firstBuf := hp v (by simp)
  -- the way ahead of the client, before and after
  have hxa : x ∉ a := by
    intro hm
    have hm2 : x ∈ l ++ [p] := by
      rw [hhead]
      simp
    rw [show a ++ l ++ p :: v :: b = a ++ ((l ++ [p]) ++ v :: b) by simp] at hnd
    exact (List.nodup_append.mp hnd).2.2 x hm x (List.mem_append_left _ hm2) rfl
  have hs1 : s.ahead x = l ++ p :: v :: b := by
    rw [show l ++ p :: v :: b = (l ++ [p]) ++ v :: b by simp, hhead]
    apply ahead_append _ hxa
    rw [hact, List.append_assoc, show l ++ p :: v :: b = (l ++ [p]) ++ v :: b by simp, hhead]
    simp
  have ht1 : t.ahead x = l ++ p :: b := by
    rw [show l ++ p :: b = (l ++ [p]) ++ b by simp, hhead]
    apply ahead_append _ hxa
    rw [htact, List.append_assoc, show l ++ p :: b = (l ++ [p]) ++ b by simp, hhead]
    simp
  have hold : ∀ n ∈ owed c.log, LostCovered t n (t.ahead x) ∧ n < t.lBuf ∧
      ∀ q ∈ t.coming [], n < (t.streams q).firstBuf := by
    intro n hn
    obtain ⟨-, h2, h3, h4⟩ := h.owes c hc n hn
    have hcov := h2 x hx
    rw [hs1] at hcov
    refine ⟨?_, by omega, ?_⟩
    · rw [ht1]
      exact hcov.remove hlt hf hkept
    · intro q hq
      rw [htc] at hq
      rw [(hf q).1]
      exact h4 q hq
  have hpos : (s.noteSkip v c).position = some x := (noteSkip_position s v c).trans hx
  intro n hn
  suffices hsuff : LostCovered t n (t.ahead x) ∧ n < t.lBuf ∧
      ∀ q ∈ t.coming [], n < (t.streams q).firstBuf by
    refine ⟨fun hnone => ?_, fun y hy => ?_, hsuff.2⟩
    · rw [hpos] at hnone
      cases hnone
    · rw [hpos] at hy
      cases hy
      exact hsuff.1
  unfold noteSkip at hn
  split at hn
  · rename_i hcond
    simp only [Bool.and_eq_true] at hcond
    rw [owed_snoc] at hn
    rcases List.mem_cons.mp hn with rfl | hn
    · -- the stream that is being freed is the loss
      have hvmem : v ∈ s.active := by
        rw [hact]
        simp
      refine ⟨?_, ?_, ?_⟩
      · rw [ht1]
        refine ⟨l, p, b, rfl, hmark hcond.1, ?_, ?_⟩
        · rw [(hf p).1]
          exact hlt
        · intro q hq
          rw [(hf q).1]
          exact (List.pairwise_cons.mp hvb).1 q hq
      · rw [htl]
        exact h.below v (by simp [hvmem])
      · intro q hq
        rw [htc] at hq
        rw [(hf q).1]
        exact (List.pairwise_append.mp h.sorted).2.2 v hvmem q hq
    · exact hold n hn
  · exact hold n hn

theorem noteSkip_of_not_behind {c : LmdOutputClient}
    (h : ∀ x, c.position = some x → x ∉ streamsBefore s.active v) : s.noteSkip v c = c := by
  unfold noteSkip
  rw [if_neg]
  intro hcond
  simp only [Bool.and_eq_true, Option.any_eq_true, List.contains_eq_mem, decide_eq_true_eq]
    at hcond
  obtain ⟨-, x, hx, hm⟩ := hcond
  exact h x hx hm

theorem Freed.owes_kept {c : LmdOutputClient} {a b : List Nat} (hfr : Freed s t v a b)
    (h : Owes s [] c) (hah : ∀ x, c.position = some x → t.ahead x = s.ahead x) : Owes t [] c := by
  refine h.frame hah (fun _ _ q _ => hfr.stays q) (fun q hq => ?_) (le_of_eq hfr.lBuf.symm)
  rw [hfr.coming_eq] at hq
  exact .inl ⟨hq, (hfr.stays q).1⟩

/-- The client is at a stream before the one that is freed. -/
theorem Freed.owes_before {c : LmdOutputClient} {x : Nat} {a b : List Nat} (hfr : Freed s t v a b)
    (h : StickyInv s []) (hc : c ∈ s.clients) (hpos : c.position = some x) (hxa : x ∈ a)
    (hk : ∀ p, prevStream s.active v = some p → (s.flags v).stickyLostAfter = true →
      (s.flags v).hasStickyEvent = true ∨ (s.flags p).stickyLostAfter = true) :
    Owes t [] (s.noteSkip v c) := by
  obtain ⟨a₀, a₂, ha, -, -⟩ := split_at_stream hxa (List.nodup_append.mp hfr.nodup).1
  obtain ⟨l, p, hl⟩ : ∃ l p, x :: a₂ = l ++ [p] :=
    ⟨(x :: a₂).dropLast, (x :: a₂).getLast (by simp), (List.dropLast_append_getLast (by simp)).symm⟩
  obtain rfl : a = a₀ ++ l ++ [p] := by
    rw [ha, hl, List.append_assoc]
  have hprev : prevStream s.active v = some p := by
    unfold prevStream
    rw [hfr.before, streamsBefore_append hfr.not_before]
    simp
  refine owes_behind h hc hpos hfr (by rw [← hl]; rfl) (fun hlost => ?_) (hfr.marked p hprev)
  rcases hk p hprev hlost with hst | hp
  · exact hfr.marked p hprev hst
  · exact (hfr.stays p).2 hp

/-- The client is past the stream that is freed. -/
theorem Freed.owes_past {c : LmdOutputClient} {x : Nat} {a b : List Nat} (hfr : Freed s t v a b)
    (h : Owes s [] c) (hpos : c.position = some x) (hxb : x ∈ b) : Owes t [] (s.noteSkip v c) := by
  obtain ⟨-, hvb, hdisjoint⟩ := List.nodup_append.mp hfr.nodup
  obtain ⟨hv, hbnd⟩ := List.nodup_cons.mp hvb
  have hne : x ≠ v := fun he => hv (he ▸ hxb)
  have hxa : x ∉ a := fun hm => hdisjoint x hm x (List.mem_cons_of_mem _ hxb) rfl
  obtain ⟨b₁, b₂, rfl, hxb₁, -⟩ := split_at_stream hxb hbnd
  rw [noteSkip_of_not_behind fun y hy => by
    rw [hpos] at hy
    cases hy
    rw [hfr.before, streamsBefore_append hfr.not_before]
    exact hxa]
  refine hfr.owes_kept h fun y hy => ?_
  rw [hpos] at hy
  cases hy
  rw [@ahead_append s (a ++ v :: b₁) b₂ x (by rw [hfr.before]; simp) (by simp [hxa, hne, hxb₁]),
    @ahead_append t (a ++ b₁) b₂ x (by rw [hfr.after]; simp) (by simp [hxa, hxb₁])]

theorem Freed.sticky {a b : List Nat} (hfr : Freed s t v a b) (h : StickyInv s [])
    (hbase : StreamsInv t []) (howes : ∀ c ∈ s.clients, Owes t [] (s.noteSkip v c)) :
    StickyInv t [] := by
  refine ⟨hbase, hfr.sendonce.trans h.sendonce, hfr.dropold.trans h.dropold, ?_, ?_, ?_, ?_, ?_⟩
  · rw [hfr.coming_eq]
    refine (h.sorted.sublist (hfr.sublist.append_right _)).imp fun {x y} hxy => ?_
    rw [(hfr.stays x).1, (hfr.stays y).1]
    exact hxy
  · intro x hx
    rw [hfr.filled] at hx
    rw [(hfr.stays x).1, hfr.lBuf]
    exact h.below x (((hfr.sublist.append_right []).append_right s.filled).subset hx)
  · intro x hx
    rw [(hfr.stays x).1, hfr.lBuf]
    exact h.filling x (hfr.fillStream ▸ hx)
  · intro c' hc'
    rw [hfr.clients] at hc'
    obtain ⟨c, hc, rfl⟩ := List.mem_map.mp hc'
    exact noteSkip_recovers s v c (h.recovers c hc)
  · intro c' hc'
    rw [hfr.clients] at hc'
    obtain ⟨c, hc, rfl⟩ := List.mem_map.mp hc'
    exact howes c hc

theorem freeOldestUnused_sticky (h : StickyInv s []) (hk : s.markKept = true) :
    StickyInv s.freeOldestUnused [] := by
  have hbase := freeOldestUnused_inv h.base
  unfold freeOldestUnused at hbase ⊢
  unfold LmdOutputTcp.markKept at hk
  split
  · exact h
  · rename_i v hold
    simp only [hold] at hbase hk
    have hv : v ∈ s.active := List.mem_of_find?_eq_some hold
    have hz : (s.streams v).clients = 0 := by simpa using List.find?_some hold
    have hfree := h.base.pool.not_held_of_zero (h.base.pool.active_allocated hv) hz
    obtain ⟨a, b, hfr⟩ := freed_of_active hv h.base.pool.active_nodup
    refine hfr.sticky h hbase fun c hc => ?_
    cases hpos : c.position with
    | none =>
      rw [noteSkip_of_not_behind fun x hx => by rw [hpos] at hx; cases hx]
      exact hfr.owes_kept (h.owes c hc) fun x hx => by rw [hpos] at hx; cases hx
    | some x =>
      have hheld : some x ∈ s.positions := by
        rw [← hpos]
        exact List.mem_map_of_mem hc
      have hxact : x ∈ s.active := (h.base.pool.held x hheld).resolve_right List.not_mem_nil
      have hne : x ≠ v := fun he => hfree (he ▸ hheld)
      rw [hfr.before] at hxact
      rcases List.mem_append.mp hxact with hxa | hxb
      · refine hfr.owes_before h hc hpos hxa fun p hprev hlost => ?_
        simpa [hprev, hlost] using hk
      · exact hfr.owes_past (h.owes c hc) hpos ((List.mem_cons.mp hxb).resolve_left hne)

end FreeOldest

end Ucesb
