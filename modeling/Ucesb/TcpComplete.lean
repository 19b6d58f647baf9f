import Ucesb.TcpAsNeeded
import Ucesb.TcpServer

namespace Ucesb

open LmdOutputTcp

structure QueuedStream where
  firstBuf : Nat
  flags : LosFlags

structure TracedTcp where
  server : LmdOutputTcp
  queued : List QueuedStream

/-- Only `write_buffer` puts streams into the queue. -/
def newlyQueued (s t : LmdOutputTcp) : Act → List QueuedStream
  | .writeBuffer _ =>
    (t.filled.drop s.filled.length).map fun x => ⟨(t.streams x).firstBuf, t.flags x⟩
  | _ => []

namespace TracedTcp

def init (conf : TcpConf) : TracedTcp := ⟨LmdOutputTcp.init conf, []⟩

def step (t : TracedTcp) (act : Act) : Option TracedTcp :=
  (t.server.step act).map fun s => ⟨s, t.queued ++ newlyQueued t.server s act⟩

end TracedTcp

def InTurn (l : List Nat) (x y : Nat) : Prop := ∃ a b, l = a ++ x :: y :: b

def ClientEvent.given? : ClientEvent → Option Nat
  | .given firstBuf _ => some firstBuf
  | .skipped _ => none

def givenOf (log : List ClientEvent) : List Nat := log.filterMap ClientEvent.given?

section Replays

variable (queued : List QueuedStream)

def StartsReplay (x : Nat) : Prop := ∃ q ∈ queued, q.firstBuf = x ∧ q.flags.recoveryFirst = true

def ContinuesReplay (x : Nat) : Prop := ∃ q ∈ queued, q.firstBuf = x ∧ q.flags.recoveryMore = true

/-- In the same replay there is another stream after `x`. -/
def NextOfReplay (x y : Nat) : Prop :=
  InTurn (queued.map QueuedStream.firstBuf) x y ∧ ContinuesReplay queued y

/-- After a stream of a replay its next stream is given before any other, and only then. -/
structure RecoveryComplete (given : List Nat) : Prop where
  all : ∀ x y z, InTurn given x y → StartsReplay queued x ∨ ContinuesReplay queued x →
    NextOfReplay queued x z → y = z
  only : ∀ a y b, given = a ++ y :: b → ContinuesReplay queued y →
    ∃ a' x, a = a' ++ [x] ∧ NextOfReplay queued x y

/-- Of the replays whose first stream was given, and another one after it, each is a single
stream. -/
def SingleReplays (given : List Nat) : Prop :=
  ∀ x y, InTurn given x y → StartsReplay queued x → ∀ z, ¬NextOfReplay queued x z

end Replays

/-- Whatever the client comes to is given as it is needed, along the list of streams and when a
stream arrives. -/
structure GivenAsNeeded (s : LmdOutputTcp) : Prop where
  moves : ∀ c ∈ s.clients, ∀ cur now, c.current = some cur →
    FoundAsNeeded s now (c.need = .first ∨ (s.flags cur).stickyLostAfter = true)
      (streamsAfter s.active cur) (s.getNextClientStream now cur c.need).2.1
  arrives : ∀ i c stream, s.clients[i]? = some c → c.position = none →
    (s.sendonce = true → (s.streams stream).clients = 0) →
    AsNeeded (s.flags stream) (c.need = .first ∨ c.need = .unknown ∧ s.stickyEventsSeen = true)
      ((s.streamIsAvailable i c stream).1 = true)

def SameMarks (f g : LosFlags) : Prop :=
  f.recoveryFirst = g.recoveryFirst ∧ f.recoveryMore = g.recoveryMore

def WasQueued (queued : List QueuedStream) (stream : LmdOutputStream) : Prop :=
  ∃ q ∈ queued, q.firstBuf = stream.firstBuf ∧ SameMarks q.flags stream.flags

def GivenKnown (queued : List QueuedStream) (log : List ClientEvent) : Prop :=
  ∀ n ∈ givenOf log, ∃ q ∈ queued, q.firstBuf = n ∧ q.flags.recoveryMore = false

structure ClientKnown (queued : List QueuedStream) (c : LmdOutputClient) : Prop where
  given : GivenKnown queued c.log
  need : c.position ≠ none → c.need ≠ .unknown

/-- The stream being filled comes after those in the history, and is not marked, yet. -/
structure FillingNext (queued : List QueuedStream) (s : LmdOutputTcp) (stream : Nat) : Prop where
  above : ∀ q ∈ queued, q.firstBuf < (s.streams stream).firstBuf
  le : (s.streams stream).firstBuf ≤ s.lBuf
  plain : (s.flags stream).recoveryMore = false

structure ReplayInv (queued : List QueuedStream) (s : LmdOutputTcp) (loose : List Nat) :
    Prop where
  base : StreamsInv s loose
  known : ∀ x ∈ s.active ++ loose ++ s.filled, WasQueued queued (s.streams x)
  sorted : queued.Pairwise fun p q => p.firstBuf < q.firstBuf
  below : ∀ q ∈ queued, q.firstBuf < s.lBuf
  filling : ∀ x ∈ s.fillStream, FillingNext queued s x
  clients : ∀ c ∈ s.clients, ClientKnown queued c

/-- Streams may be gone from the list, and may have got marks for losses. -/
structure Retains (s t : LmdOutputTcp) : Prop where
  streams : ∀ q, (t.streams q).firstBuf = (s.streams q).firstBuf ∧
    SameMarks (s.flags q) (t.flags q)
  active : ∀ x ∈ t.active, x ∈ s.active
  filled : t.filled = s.filled
  fillStream : t.fillStream = s.fillStream
  lBuf : s.lBuf ≤ t.lBuf

section Retain

variable {queued : List QueuedStream} {s t u : LmdOutputTcp} {loose : List Nat} {stream i : Nat}
  {c c' : LmdOutputClient}

theorem Trimmed.retains (h : Trimmed s t) : Retains s t := by
  refine ⟨fun q => ⟨h.firstBuf q, ?_⟩, ?_, h.filled, h.fillStream, Nat.le_of_eq h.lBuf.symm⟩
  · rw [h.flags q]
    exact ⟨rfl, rfl⟩
  · obtain ⟨d, hd⟩ := h.active
    intro x hx
    rw [hd]
    exact List.mem_append_right _ hx

theorem Retains.trans (h : Retains s t) (h' : Retains t u) : Retains s u where
  streams q := ⟨(h'.streams q).1.trans (h.streams q).1,
    (h.streams q).2.1.trans (h'.streams q).2.1, (h.streams q).2.2.trans (h'.streams q).2.2⟩
  active x hx := h.active x (h'.active x hx)
  filled := h'.filled.trans h.filled
  fillStream := h'.fillStream.trans h.fillStream
  lBuf := Nat.le_trans h.lBuf h'.lBuf

theorem WasQueued.same {x y : LmdOutputStream} (h : WasQueued queued x)
    (hbuf : y.firstBuf = x.firstBuf) (hmarks : SameMarks x.flags y.flags) : WasQueued queued y := by
  obtain ⟨q, hq, hfirst, hsame⟩ := h
  exact ⟨q, hq, hfirst.trans hbuf.symm, hsame.1.trans hmarks.1, hsame.2.trans hmarks.2⟩

theorem FillingNext.retain {x : Nat} (h : FillingNext queued s x) (hr : Retains s t) :
    FillingNext queued t x where
  above q hq := Nat.lt_of_lt_of_eq (h.above q hq) (hr.streams x).1.symm
  le := (hr.streams x).1 ▸ Nat.le_trans h.le hr.lBuf
  plain := (hr.streams x).2.2.symm.trans h.plain

theorem ReplayInv.retain (h : ReplayInv queued s loose) (hr : Retains s t)
    (hb : StreamsInv t loose) (hcl : ∀ c ∈ t.clients, ClientKnown queued c) :
    ReplayInv queued t loose where
  base := hb
  known x hx := by
    refine (h.known x ?_).same (hr.streams x).1 (hr.streams x).2
    rw [hr.filled] at hx
    rcases List.mem_append.mp hx with hx | hx
    · rcases List.mem_append.mp hx with hx | hx
      · exact List.mem_append_left _ (List.mem_append_left _ (hr.active x hx))
      · exact List.mem_append_left _ (List.mem_append_right _ hx)
    · exact List.mem_append_right _ hx
  sorted := h.sorted
  below q hq := Nat.lt_of_lt_of_le (h.below q hq) hr.lBuf
  filling x hx := by
    rw [hr.fillStream] at hx
    exact (h.filling x hx).retain hr
  clients := hcl

theorem unlinkStream_retains (s : LmdOutputTcp) (stream : Nat) :
    Retains s (s.unlinkStream stream) :=
  ⟨fun _ => ⟨rfl, rfl, rfl⟩, fun _ hx => List.mem_of_mem_erase hx, rfl, rfl, Nat.le_refl _⟩

theorem addFreeStream_retains (s : LmdOutputTcp) (stream : Nat) :
    Retains s (s.addFreeStream stream) := (addFreeStream_view s stream).trimmed.retains

theorem freeLeading_retains (fuel : Nat) (forceFree : Bool) :
    Retains s (freeLeading fuel forceFree s stream) := by
  induction fuel generalizing s stream forceFree with
  | zero => exact (Trimmed.refl s).retains
  | succ fuel ih =>
    have hfreed := (unlinkStream_retains s stream).trans (addFreeStream_retains _ stream)
    unfold freeLeading
    split
    · cases hnext : nextStreamOf s.active stream with
      | none => exact hfreed
      | some next => exact hfreed.trans (ih false)
    · exact (Trimmed.refl s).retains

theorem freeClientStream_retains : Retains s (s.freeClientStream stream) :=
  (addClients_trimmed s stream (-1)).retains.trans (freeLeading_retains _ _)

theorem getNextClientStream_retains {now : Int} {need need' : NeedRecovery} {found : Option Nat}
    (hg : s.getNextClientStream now stream need = (t, found, need')) : Retains s t := by
  unfold getNextClientStream at hg
  cases hsearch : s.searchNext now (streamsAfter s.active stream) (s.needAfter stream need) with
  | mk found' need'' =>
    simp only [hsearch, Prod.mk.injEq] at hg
    obtain ⟨rfl, rfl, rfl⟩ := hg
    cases found' with
    | none => exact freeClientStream_retains
    | some m => exact (addClients_trimmed s m 1).retains.trans freeClientStream_retains

theorem ClientKnown.same (h : ClientKnown queued c) (h' : SameHold c c') :
    ClientKnown queued c' where
  given := h'.log ▸ h.given
  need hpos := by
    rw [h'.need]
    apply h.need
    unfold LmdOutputClient.position at hpos ⊢
    rwa [h'.current, h'.pending] at hpos

theorem ReplayInv.replace (h : ReplayInv queued s loose) (hr : Retains s t)
    (hcl : t.clients = s.clients) (hb : StreamsInv (t.setClient i c) loose)
    (hc : ClientKnown queued c) : ReplayInv queued (t.setClient i c) loose := by
  refine h.retain (hr.trans (setClient_trimmed t i c).retains) hb fun d hd => ?_
  rcases mem_setClient hd with hold | rfl
  · exact h.clients d (hcl ▸ hold)
  · exact hc

theorem matching_given {f : LosFlags} {need need' : NeedRecovery} (hneed : need ≠ .unknown)
    (h : matchingRecoveryStream f need = (true, need')) :
    f.recoveryMore = false ∧ need' ≠ .unknown := by
  refine ⟨?_, (matching_asNeeded h hneed).2.1⟩
  obtain ⟨first, more, sticky, lost⟩ := f
  cases more with
  | false => rfl
  | true =>
    cases need with
    | unknown => exact (hneed rfl).elim
    | _ => cases first <;> exact Bool.noConfusion (congrArg Prod.fst h)

theorem searchNext_known {now : Int} {rest : List Nat} {need need' : NeedRecovery}
    {found : Option Nat} (hneed : need ≠ .unknown)
    (h : s.searchNext now rest need = (found, need')) :
    need' ≠ .unknown ∧ ∀ x ∈ found, (s.flags x).recoveryMore = false := by
  induction rest generalizing need with
  | nil =>
    cases h
    exact ⟨hneed, by rintro _ ⟨⟩⟩
  | cons y rest ih =>
    unfold searchNext at h
    split at h
    · refine ih (needAfter_known ?_) h
      split
      · rintro ⟨⟩
      · exact hneed
    · cases hmatch : matchingRecoveryStream (s.flags y) need with
      | mk given need₁ =>
        rw [hmatch] at h
        cases given with
        | true =>
          cases h
          obtain ⟨hmore, hknown⟩ := matching_given hneed hmatch
          refine ⟨hknown, fun x hx => ?_⟩
          cases hx
          exact hmore
        | false => exact ih (needAfter_known (matching_asNeeded hmatch hneed).2.1) h

theorem noteGiven_known (h : GivenKnown queued c.log) (hx : WasQueued queued (s.streams stream))
    (hmore : (s.flags stream).recoveryMore = false) :
    GivenKnown queued (s.noteGiven stream c).log := by
  intro n hn
  unfold noteGiven givenOf at hn
  rw [List.filterMap_append] at hn
  rcases List.mem_append.mp hn with hn | hn
  · exact h n hn
  · obtain ⟨q, hq, hbuf, hmarks⟩ := hx
    cases List.mem_singleton.mp hn
    exact ⟨q, hq, hbuf, hmarks.2.trans hmore⟩

end Retain

section Server

variable {queued : List QueuedStream} {s t : LmdOutputTcp} {loose : List Nat} {stream i : Nat}
  {c c' : LmdOutputClient}

theorem nextStream_replay {now : Int} (h : ReplayInv queued s []) (hc : s.clients[i]? = some c)
    (hsame : SameHold c c') : ReplayInv queued (s.nextStream now i c') [] := by
  have hknown : ClientKnown queued c' := (h.clients c (List.mem_of_getElem? hc)).same hsame
  have hbase := @nextStream_inv s i c c' now h.base hc hsame.current hsame.pending
  unfold nextStream at hbase ⊢
  cases hpend : c'.pending with
  | some p =>
    rw [hpend] at hbase
    have hpos : c'.position ≠ none := by
      unfold LmdOutputClient.position
      rw [hpend]
      cases c'.current <;> exact nofun
    exact h.replace (Trimmed.refl s).retains rfl hbase ⟨hknown.given, fun _ => hknown.need hpos⟩
  | none =>
    cases hcur : c'.current with
    | none =>
      rw [hpend, hcur] at hbase
      refine h.replace (askRecovery_view s c'.need).trimmed.retains (askRecovery_clients _ _) hbase
        ⟨hknown.given, fun hpos => ?_⟩
      unfold LmdOutputClient.position at hpos
      exact (hpos rfl).elim
    | some cur =>
      have hneed : c'.need ≠ .unknown := hknown.need (by
        unfold LmdOutputClient.position
        rw [hcur]
        exact nofun)
      rw [hpend, hcur] at hbase
      dsimp only at hbase ⊢
      cases hg : s.getNextClientStream now cur c'.need with
      | mk s' r =>
        obtain ⟨found, need⟩ := r
        rw [hg] at hbase
        have hret := getNextClientStream_retains hg
        have hclients : s'.clients = s.clients := by
          have hgot : (s.getNextClientStream now cur c'.need).1 = s' := congrArg Prod.fst hg
          rw [← hgot]
          unfold getNextClientStream
          dsimp only
          rw [freeClientStream_clients]
          split <;> rfl
        have hsearch : s.searchNext now (streamsAfter s.active cur)
            (s.needAfter cur c'.need) = (found, need) := congrArg Prod.snd hg
        cases found with
        | none =>
          refine h.replace (hret.trans (askRecovery_view s' need).trimmed.retains)
            ((askRecovery_clients _ _).trans hclients) hbase ⟨hknown.given, fun _ => ?_⟩
          exact (searchNext_known (needAfter_known hneed) hsearch).1
        | some m =>
          obtain ⟨hneed', hmore⟩ := searchNext_known (needAfter_known hneed) hsearch
          have hm : m ∈ s.active := mem_of_streamsAfter (searchNext_mem hsearch).1
          refine h.replace hret hclients hbase ⟨?_, fun _ => hneed'⟩
          exact noteGiven_known hknown.given
            (h.known m (List.mem_append_left _ (List.mem_append_left _ hm))) (hmore m rfl)

theorem closeClient_replay (h : ReplayInv queued s []) (hc : s.clients[i]? = some c) :
    ReplayInv queued (s.closeClient i c) [] := by
  have hbase := closeClient_inv h.base hc
  have hdrop : ∀ u : LmdOutputTcp, Retains s u → u.clients = s.clients →
      StreamsInv { u with clients := u.clients.eraseIdx i } [] →
      ReplayInv queued { u with clients := u.clients.eraseIdx i } [] := by
    intro u hu hcl hb
    refine h.retain (hu.trans ⟨fun _ => ⟨rfl, rfl, rfl⟩, fun _ hx => hx, rfl, rfl,
      Nat.le_refl _⟩) hb fun d hd => ?_
    exact h.clients d (hcl ▸ List.mem_of_mem_eraseIdx hd)
  unfold closeClient at hbase ⊢
  cases hcur : c.current with
  | some x =>
    rw [hcur] at hbase
    exact hdrop _ freeClientStream_retains (freeClientStream_clients _ _) hbase
  | none =>
    rw [hcur] at hbase
    cases hpend : c.pending with
    | some x =>
      rw [hpend] at hbase
      exact hdrop _ freeClientStream_retains (freeClientStream_clients _ _) hbase
    | none =>
      rw [hpend] at hbase
      exact hdrop s (Trimmed.refl s).retains rfl hbase

theorem serveClient_replay {now : Int} {io : SocketIo} (h : ReplayInv queued s [])
    (hs : s.serveClient now i io = some t) : ReplayInv queued t [] := by
  rcases serveClient_cases hs with rfl | ⟨c, hc, rfl | ⟨c', hc', rfl | rfl⟩⟩
  · exact h
  · exact closeClient_replay h hc
  · exact h.replace (Trimmed.refl s).retains rfl
      (h.base.setClient_same hc hc'.current hc'.pending)
      ((h.clients c (List.mem_of_getElem? hc)).same hc')
  · exact nextStream_replay h hc hc'

theorem streamIsAvailable_replay (h : ReplayInv queued s loose) (hl : stream ∈ loose)
    (hc : s.clients[i]? = some c) :
    ReplayInv queued (s.streamIsAvailable i c stream).2 loose := by
  have hbase := streamIsAvailable_inv h.base hl hc
  have hknown := h.clients c (List.mem_of_getElem? hc)
  unfold streamIsAvailable at hbase ⊢
  split
  · exact h
  next hfree =>
  rw [if_neg hfree] at hbase
  split
  · exact h
  next honce =>
  rw [if_neg honce] at hbase
  dsimp only at hbase ⊢
  generalize hu : (if c.need = .unknown then
    s.askRecovery (resolveNeed s.stickyEventsSeen c.need) else s) = u at hbase ⊢
  have hview : SameView s u := by
    subst hu
    split
    · exact askRecovery_view _ _
    · exact ⟨rfl, rfl, rfl, rfl, rfl, rfl, rfl, rfl⟩
  have hstream : WasQueued queued (u.streams stream) := by
    rw [hview.streams]
    exact h.known stream (List.mem_append_left _ (List.mem_append_right _ hl))
  cases hmatch : matchingRecoveryStream (u.flags stream)
      (resolveNeed s.stickyEventsSeen c.need) with
  | mk given need =>
    rw [hmatch] at hbase
    have hneed := (matching_asNeeded hmatch (resolveNeed_known _ _)).2.1
    cases given with
    | false =>
      exact h.replace hview.trimmed.retains hview.clients hbase ⟨hknown.given, fun _ => hneed⟩
    | true =>
      have hmore := (matching_given (resolveNeed_known _ _) hmatch).1
      have hgiven : GivenKnown queued (u.noteGiven stream { c with need := need }).log :=
        noteGiven_known hknown.given hstream hmore
      have hret := hview.trimmed.retains.trans (addClients_trimmed u stream 1).retains
      dsimp only at hbase ⊢
      split
      next hstate =>
        rw [if_pos hstate] at hbase
        exact h.replace hret hview.clients hbase ⟨hgiven, fun _ => hneed⟩
      next hstate =>
        rw [if_neg hstate] at hbase
        exact h.replace hret hview.clients hbase ⟨hgiven, fun _ => hneed⟩

theorem offerStream_replay {order : List Nat} (h : ReplayInv queued s loose)
    (hl : stream ∈ loose) : ReplayInv queued (offerStream stream s order) loose := by
  induction order generalizing s with
  | nil => exact h
  | cons i rest ih =>
    unfold offerStream
    cases hc : s.clients[i]? with
    | none => exact ih h
    | some c =>
      have hinv := streamIsAvailable_replay h hl hc
      cases hr : s.streamIsAvailable i c stream with
      | mk used u =>
        rw [hr] at hinv
        dsimp only
        rw [hr]
        dsimp only
        split
        · exact hinv.retain ⟨fun _ => ⟨rfl, rfl, rfl⟩, fun _ hx => hx, rfl, rfl, Nat.le_refl _⟩
            ⟨{ hinv.base.pool with }, hinv.base.one⟩ hinv.clients
        · exact ih hinv

theorem takeFilledStream_replay {rest : List Nat} (h : ReplayInv queued s [])
    (hfill : s.filled = stream :: rest) :
    ReplayInv queued (s.takeFilledStream stream rest) [stream] := by
  have hmod := (modifyStream_trimmed s stream (fun x => { x with clients := 0 })
    fun _ => ⟨rfl, rfl⟩).retains
  refine ⟨takeFilledStream_inv h.base hfill, fun x hx => ?_, h.sorted, h.below, fun x hx => ?_,
    h.clients⟩
  · refine (h.known x ?_).same (hmod.streams x).1 (hmod.streams x).2
    rw [hfill]
    have hx' : x ∈ s.active ++ [stream] ++ rest := hx
    simpa using hx'
  · obtain ⟨habove, hle, hplain⟩ := (h.filling x hx).retain hmod
    exact ⟨habove, hle, hplain⟩

theorem placeStream_replay (h : ReplayInv queued s [stream]) :
    ReplayInv queued (s.placeStream stream) [] := by
  have hbase := placeStream_inv h.base
  unfold placeStream at hbase ⊢
  split
  next hused =>
    rw [if_pos hused] at hbase
    refine ⟨hbase, fun x hx => ?_, h.sorted, h.below, fun x hx => ?_, h.clients⟩
    · have hx' : x ∈ s.active ++ [stream] ++ [] ++ s.filled := hx
      exact h.known x (by simpa using hx')
    · obtain ⟨habove, hle, hplain⟩ := h.filling x hx
      exact ⟨habove, hle, hplain⟩
  next hused =>
    rw [if_neg hused] at hbase
    have hview := addFreeStream_view s stream
    generalize s.addFreeStream stream = t at hbase hview ⊢
    refine ⟨hbase, fun x hx => ?_, h.sorted, fun q hq => ?_, fun x hx => ?_, fun d hd => ?_⟩
    · rw [hview.streams]
      rw [hview.active, hview.filled] at hx
      refine h.known x ?_
      simp only [List.append_nil, List.mem_append] at hx ⊢
      tauto
    · rw [hview.lBuf]
      exact h.below q hq
    · rw [hview.fillStream] at hx
      exact (h.filling x hx).retain hview.trimmed.retains
    · exact h.clients d (hview.clients ▸ hd)

theorem dequeFilledStream_replay (h : ReplayInv queued s [])
    (hs : s.dequeFilledStream = some t) : ReplayInv queued t [] := by
  unfold dequeFilledStream at hs
  split at hs
  · cases hs
  split at hs
  · cases hs
  next stream rest hfill =>
    cases hs
    exact placeStream_replay
      (offerStream_replay (takeFilledStream_replay h hfill) (List.mem_singleton_self stream))

theorem ReplayInv.of_view (h : ReplayInv queued s loose) (hv : SameView s t)
    (hb : StreamsInv t loose) : ReplayInv queued t loose :=
  h.retain hv.trimmed.retains hb fun c hc => h.clients c (hv.clients ▸ hc)

theorem ReplayInv.modify {f : LmdOutputStream → LmdOutputStream} (h : ReplayInv queued s [])
    (hout : stream ∉ s.active ++ s.filled ++ s.fillStream.toList)
    (hb : StreamsInv (s.modifyStream stream f) []) :
    ReplayInv queued (s.modifyStream stream f) [] := by
  have hsame : ∀ q ∈ s.active ++ s.filled ++ s.fillStream.toList,
      (s.modifyStream stream f).streams q = s.streams q := by
    intro q hq
    refine if_neg fun he => hout ?_
    rw [← he]
    exact hq
  refine ⟨hb, fun x hx => ?_, h.sorted, h.below, fun x hx => ?_, h.clients⟩
  · have hx' : x ∈ s.active ++ [] ++ s.filled := hx
    rw [hsame x (by simp only [List.append_nil, List.mem_append] at hx' ⊢; tauto)]
    exact h.known x hx
  · have hx' : s.fillStream = some x := hx
    have heq := hsame x (List.mem_append_right _ (by rw [hx']; exact .head _))
    obtain ⟨habove, hle, hplain⟩ := h.filling x hx
    refine ⟨fun q hq => ?_, ?_, ?_⟩
    · rw [heq]
      exact habove q hq
    · rw [heq]
      exact hle
    · unfold LmdOutputTcp.flags
      rw [heq]
      exact hplain

theorem createFreeStream_replay (h : ReplayInv queued s [])
    (hlt : s.numStreams < s.maxStreams) (hs : s.createFreeStream = some t) :
    ReplayInv queued t [] := by
  have hbase := createFreeStream_inv h.base hlt hs
  have hnew : s.allocStreamNo + 1 ∉ s.allocated := by
    intro hm
    have := h.base.pool.fresh _ hm
    omega
  have hout : s.allocStreamNo + 1 ∉ s.active ++ s.filled ++ s.fillStream.toList := by
    intro hm
    apply hnew
    apply h.base.pool.mem_allocated
    simp only [List.mem_append] at hm ⊢
    tauto
  unfold createFreeStream at hs
  split at hs
  · cases hs
  · cases hs
    have hmod : ReplayInv queued
        (s.modifyStream (s.allocStreamNo + 1) fun _ => ⟨.zero, 0, 0, 0, 0, 0⟩) [] :=
      h.modify hout ⟨h.base.pool.modifyStream (fun hm => absurd hm hnew), h.base.one⟩
    have hview := addFreeStream_view
      { s.modifyStream (s.allocStreamNo + 1) fun _ => ⟨.zero, 0, 0, 0, 0, 0⟩ with
        allocated := (s.allocStreamNo + 1) :: s.allocated
        allocStreamNo := s.allocStreamNo + 1
        numStreams := s.numStreams + 1 } (s.allocStreamNo + 1)
    exact hmod.of_view ⟨hview.streams, hview.active, hview.filled, hview.fillStream,
      hview.clients, hview.lBuf, hview.sendonce, hview.dropold⟩ hbase

theorem createFreeStreams_replay (fuel : Nat) (h : ReplayInv queued s []) :
    ReplayInv queued (createFreeStreams fuel s) [] := by
  induction fuel generalizing s with
  | zero => exact h
  | succ fuel ih =>
    unfold createFreeStreams
    split
    next hlt =>
      cases hc : s.createFreeStream with
      | none => exact h
      | some u => exact ih (createFreeStream_replay h hlt hc)
    next => exact h

theorem markLostAfter_retains (s : LmdOutputTcp) (stream : Nat) :
    Retains s (s.markLostAfter stream) := by
  have hmarks : ∀ q, SameMarks (s.flags q) ((s.markLostAfter stream).flags q) := by
    intro q
    unfold markLostAfter
    split
    · exact ⟨rfl, rfl⟩
    · split
      · unfold LmdOutputTcp.flags modifyStream
        dsimp only
        split <;> exact ⟨rfl, rfl⟩
      · exact ⟨rfl, rfl⟩
  obtain ⟨hfilled, hfill, hbuf, -⟩ := markLostAfter_view s stream
  exact ⟨fun q => ⟨(markLostAfter_mono s stream q).1, hmarks q⟩,
    fun x hx => markLostAfter_active s stream ▸ hx, hfilled, hfill, Nat.le_of_eq hbuf.symm⟩

theorem noteSkip_known (h : ClientKnown queued c) : ClientKnown queued (s.noteSkip stream c) := by
  obtain ⟨-, -, hneed⟩ := noteSkip_same s stream c
  refine ⟨?_, fun hpos => ?_⟩
  · unfold noteSkip
    split
    · intro n hn
      unfold givenOf at hn
      rw [List.filterMap_append] at hn
      rcases List.mem_append.mp hn with hn | hn
      · exact h.given n hn
      · cases hn
    · exact h.given
  · rw [noteSkip_position] at hpos
    rw [hneed]
    exact h.need hpos

theorem freeOldestUnused_replay (h : ReplayInv queued s []) :
    ReplayInv queued s.freeOldestUnused [] := by
  have hbase := freeOldestUnused_inv h.base
  unfold freeOldestUnused at hbase ⊢
  cases hold : s.oldestUnused with
  | none => exact h
  | some stream =>
    rw [hold] at hbase
    have hskip : Retains s (s.noteSkipped stream) :=
      ⟨fun _ => ⟨rfl, rfl, rfl⟩, fun _ hx => hx, rfl, rfl, Nat.le_refl _⟩
    refine h.retain (((hskip.trans (markLostAfter_retains _ stream)).trans
      (unlinkStream_retains _ stream)).trans (addFreeStream_retains _ stream)) hbase ?_
    intro d hd
    have hd' : d ∈ (s.noteSkipped stream).clients := by
      rw [addFreeStream_clients] at hd
      exact markLostAfter_clients (s.noteSkipped stream) stream ▸ hd
    obtain ⟨c, hc, rfl⟩ := List.mem_map.mp hd'
    exact noteSkip_known (h.clients c hc)

theorem serveNeedFree_replay (h : ReplayInv queued s []) (hs : s.serveNeedFree = some t) :
    ReplayInv queued t [] := by
  have hbase := serveNeedFree_inv h.base hs
  unfold serveNeedFree at hs
  split at hs
  · cases hs
    generalize hu : (if s.numStreams < s.maxStreams then
        createFreeStreams (s.maxStreams - s.numStreams).toNat s
      else if !s.hold then s.freeOldestUnused else s) = u at hbase ⊢
    have hinv : ReplayInv queued u [] := by
      subst hu
      split
      · exact createFreeStreams_replay _ h
      · split
        · exact freeOldestUnused_replay h
        · exact h
    split
    next hne =>
      rw [if_pos hne] at hbase
      exact hinv.of_view ⟨rfl, rfl, rfl, rfl, rfl, rfl, rfl, rfl⟩ hbase
    next => exact hinv
  · cases hs

theorem getBuffer_replay {now : Int} (h : ReplayInv queued s [])
    (hs : s.getBuffer now = some t) : ReplayInv queued t [] := by
  have hbase := getBuffer_inv h.base hs
  unfold getBuffer at hs
  split at hs
  next stream rest hf hfree =>
    cases hs
    generalize hg : (fun x : LmdOutputStream =>
      { x with flags := .zero, filled := 0, maxFill := s.streamBufs * s.bufSize, created := now,
               firstBuf := s.lBuf }) = g at hbase ⊢
    have hout : stream ∉ s.active ++ s.filled ++ s.fillStream.toList := by
      have hn := h.base.pool.places_nodup
      rw [hfree] at hn
      simp only [List.cons_append, List.nodup_cons, List.mem_append] at hn ⊢
      tauto
    have hmod : ReplayInv queued (s.modifyStream stream g) [] :=
      h.modify hout ⟨h.base.pool.modifyStream fun _ x => by rw [← hg], h.base.one⟩
    have hnew : (s.modifyStream stream g).streams stream = g (s.streams stream) := if_pos rfl
    refine ⟨hbase, hmod.known, h.sorted, h.below, fun x hx => ?_, h.clients⟩
    cases hx
    refine ⟨fun q hq => ?_, ?_, ?_⟩
    · change q.firstBuf < ((s.modifyStream stream g).streams stream).firstBuf
      rw [hnew, ← hg]
      exact h.below q hq
    · change ((s.modifyStream stream g).streams stream).firstBuf ≤ s.lBuf
      rw [hnew, ← hg]
    · change ((s.modifyStream stream g).streams stream).flags.recoveryMore = false
      rw [hnew, ← hg]
      rfl
  next =>
    cases hs
    exact h.of_view ⟨rfl, rfl, rfl, rfl, rfl, rfl, rfl, rfl⟩ hbase
  next =>
    cases hs
    exact h

theorem bufferDone_retains (s : LmdOutputTcp) (stream : Nat) (hasSticky : Bool) :
    Retains s (s.bufferDone stream hasSticky) := by
  refine ⟨fun q => ?_, fun _ hx => hx, rfl, rfl, Nat.le_succ _⟩
  unfold bufferDone LmdOutputTcp.flags modifyStream
  dsimp only
  split <;> exact ⟨rfl, rfl, rfl⟩

theorem enqueueFilled_replay (h : ReplayInv queued s []) (hfill : s.fillStream = some stream)
    (hlt : (s.streams stream).firstBuf < s.lBuf) (hb : StreamsInv t [])
    (hs : s.enqueueFilled stream = some t) :
    ∃ q, (t.filled.drop s.filled.length).map
        (fun x => ⟨(t.streams x).firstBuf, t.flags x⟩) = [q] ∧
      (q.flags.recoveryMore = true → s.markReplayStream = .more) ∧
      ReplayInv (queued ++ [q]) t [] := by
  obtain ⟨habove, -, hplain⟩ := h.filling stream hfill
  unfold enqueueFilled at hs
  split at hs
  · cases hs
  cases hs
  generalize hg : (fun x : LmdOutputStream =>
    { x with flags := x.flags.orMark s.markReplayStream }) = g at hb ⊢
  have hout : stream ∉ s.active ++ s.filled := by
    have hn := h.base.pool.places_nodup
    rw [hfill] at hn
    simp only [List.nodup_append, List.mem_append, Option.toList_some] at hn ⊢
    grind
  have hold : ∀ q ∈ s.active ++ s.filled, (s.modifyStream stream g).streams q = s.streams q := by
    intro q hq
    refine if_neg fun he => hout ?_
    rw [← he]
    exact hq
  have hnew : (s.modifyStream stream g).streams stream = g (s.streams stream) := if_pos rfl
  have hbuf : (g (s.streams stream)).firstBuf = (s.streams stream).firstBuf := by rw [← hg]
  refine ⟨⟨(g (s.streams stream)).firstBuf, (g (s.streams stream)).flags⟩, ?_, ?_, hb, ?_, ?_, ?_,
    nofun, ?_⟩
  · change ((s.filled ++ [stream]).drop s.filled.length).map (fun x =>
      (⟨((s.modifyStream stream g).streams x).firstBuf,
        ((s.modifyStream stream g).streams x).flags⟩ : QueuedStream)) = _
    rw [List.drop_left, List.map_singleton, hnew]
  · intro hmore
    rw [← hg] at hmore
    cases hmark : s.markReplayStream with
    | more => rfl
    | none | first =>
      rw [hmark] at hmore
      cases hplain.symm.trans hmore
  · intro x hx
    have hx' : x ∈ s.active ++ [] ++ (s.filled ++ [stream]) := hx
    simp only [List.append_nil, ← List.append_assoc] at hx'
    rcases List.mem_append.mp hx' with hx' | hx'
    · obtain ⟨q, hq, hfirst, hsame⟩ := h.known x (by simpa using hx')
      refine ⟨q, List.mem_append_left _ hq, ?_⟩
      change q.firstBuf = ((s.modifyStream stream g).streams x).firstBuf ∧
        SameMarks q.flags ((s.modifyStream stream g).streams x).flags
      rw [hold x hx']
      exact ⟨hfirst, hsame⟩
    · cases List.mem_singleton.mp hx'
      refine ⟨_, List.mem_append_right _ (.head _), ?_⟩
      change (g (s.streams stream)).firstBuf = ((s.modifyStream stream g).streams stream).firstBuf ∧
        SameMarks (g (s.streams stream)).flags ((s.modifyStream stream g).streams stream).flags
      rw [hnew]
      exact ⟨rfl, rfl, rfl⟩
  · refine List.pairwise_append.mpr ⟨h.sorted, List.pairwise_singleton _ _, fun p hp q hq => ?_⟩
    cases List.mem_singleton.mp hq
    exact Nat.lt_of_lt_of_eq (habove p hp) hbuf.symm
  · intro q hq
    rcases List.mem_append.mp hq with hq | hq
    · exact h.below q hq
    · cases List.mem_singleton.mp hq
      exact lt_of_eq_of_lt hbuf hlt
  · intro c hc
    have hc' := h.clients c hc
    refine ⟨fun n hn => ?_, hc'.need⟩
    obtain ⟨q, hq, hgiven⟩ := hc'.given n hn
    exact ⟨q, List.mem_append_left _ hq, hgiven⟩

theorem writeBuffer_replay {hasSticky : Bool} (h : ReplayInv queued s [])
    (hs : s.writeBuffer hasSticky = some t) :
    ReplayInv (queued ++ newlyQueued s t (.writeBuffer hasSticky)) t [] ∧
      ∀ q ∈ newlyQueued s t (.writeBuffer hasSticky), q.flags.recoveryMore = true →
        s.markReplayStream = .more := by
  have hbase := writeBuffer_inv h.base hs
  unfold newlyQueued
  unfold writeBuffer at hs
  split at hs
  · cases hs
  next stream hf =>
    have hret := bufferDone_retains s stream hasSticky
    have hdone := h.retain hret (@bufferDone_inv s stream hasSticky h.base) h.clients
    have hlt : ((s.bufferDone stream hasSticky).streams stream).firstBuf <
        (s.bufferDone stream hasSticky).lBuf :=
      lt_of_eq_of_lt (hret.streams stream).1 (Nat.lt_succ_of_le (h.filling stream hf).le)
    have hmark : (s.bufferDone stream hasSticky).markReplayStream = s.markReplayStream := rfl
    dsimp only at hs ⊢
    split at hs
    · obtain ⟨q, hnew, hmore, hinv⟩ := enqueueFilled_replay hdone hf hlt hbase hs
      rw [hret.filled] at hnew
      rw [hnew]
      refine ⟨hinv, fun p hp hm => ?_⟩
      cases List.mem_singleton.mp hp
      exact hmark ▸ hmore hm
    · cases hs
      rw [hret.filled, List.drop_length, List.map_nil, List.append_nil]
      exact ⟨hdone, by rintro _ ⟨⟩⟩

theorem step_unqueued {act : Act} (hact : ∀ hasSticky, act ≠ .writeBuffer hasSticky)
    (h : ReplayInv queued s []) (hs : s.step act = some t) : ReplayInv queued t [] := by
  have hbase := step_inv h.base hs
  cases act with
  | writeBuffer hasSticky => exact (hact hasSticky rfl).elim
  | accept mode allowData =>
    cases hs
    refine h.retain ⟨fun _ => ⟨rfl, rfl, rfl⟩, fun _ hx => hx, rfl, rfl, Nat.le_refl _⟩ hbase
      fun d hd => ?_
    rcases List.mem_append.mp hd with hd | hd
    · exact h.clients d hd
    · cases List.mem_singleton.mp hd
      exact ⟨nofun, fun hpos => (hpos rfl).elim⟩
  | deque => exact dequeFilledStream_replay h hs
  | client i io now => exact serveClient_replay h hs
  | shutdown i =>
    obtain ⟨c, hc, rfl⟩ := Option.map_eq_some_iff.mp hs
    exact closeClient_replay h hc
  | needFree => exact serveNeedFree_replay h hs
  | getBuffer now => exact getBuffer_replay h hs
  | doStickyReplay =>
    obtain ⟨-, ⟨⟩⟩ := Option.ite_none_right_eq_some.mp hs
    exact h.of_view ⟨rfl, rfl, rfl, rfl, rfl, rfl, rfl, rfl⟩ hbase
  | endStickyReplay =>
    obtain ⟨-, ⟨⟩⟩ := Option.ite_none_right_eq_some.mp hs
    exact h.of_view ⟨rfl, rfl, rfl, rfl, rfl, rfl, rfl, rfl⟩ hbase

theorem newlyQueued_nil {act : Act} (hact : ∀ hasSticky, act ≠ .writeBuffer hasSticky) :
    newlyQueued s t act = [] := by
  cases act with
  | writeBuffer hasSticky => exact (hact hasSticky rfl).elim
  | _ => rfl

theorem step_replay {act : Act} (h : ReplayInv queued s []) (hs : s.step act = some t) :
    ReplayInv (queued ++ newlyQueued s t act) t [] := by
  by_cases hact : ∀ hasSticky, act ≠ .writeBuffer hasSticky
  · rw [newlyQueued_nil hact, List.append_nil]
    exact step_unqueued hact h hs
  · obtain ⟨hasSticky, hwrite⟩ := not_forall.mp hact
    rw [not_not.mp hwrite] at hs ⊢
    exact (writeBuffer_replay h hs).1

def TracedTcp.oneStream (t : TracedTcp) : Act → Bool
  | .writeBuffer _ => t.server.markReplayStream ≠ .more
  | _ => true

theorem newlyQueued_plain {act : Act} (h : ReplayInv queued s []) (hs : s.step act = some t)
    (hone : TracedTcp.oneStream ⟨s, queued⟩ act = true) :
    ∀ q ∈ newlyQueued s t act, q.flags.recoveryMore = false := by
  cases act with
  | writeBuffer hasSticky =>
    intro q hq
    by_contra hmore
    exact (of_decide_eq_true hone) ((writeBuffer_replay h hs).2 q hq (by simpa using hmore))
  | _ => nofun

end Server

theorem init_replay (conf : TcpConf) : ReplayInv [] (LmdOutputTcp.init conf) [] :=
  ⟨init_inv conf, nofun, .nil, nofun, nofun, nofun⟩

theorem traced_replay {conf : TcpConf} {acts : List Act} {t : TracedTcp}
    (h : runSteps TracedTcp.step (TracedTcp.init conf) acts = some t) :
    ReplayInv t.queued t.server [] := by
  have hinit : ReplayInv [] (LmdOutputTcp.init conf) [] := init_replay conf
  refine @runSteps_inv _ _ TracedTcp.step (fun t => ReplayInv t.queued t.server []) ?_ _ _ _
    hinit h
  intro t act t' hinv hs
  obtain ⟨s, hstep, rfl⟩ := Option.map_eq_some_iff.mp hs
  exact step_replay hinv hstep

theorem traced_plain {conf : TcpConf} {acts : List Act} {t : TracedTcp}
    (hmeet : StepsMeet TracedTcp.step (fun t act => t.oneStream act = true)
      (TracedTcp.init conf) acts)
    (h : runSteps TracedTcp.step (TracedTcp.init conf) acts = some t) :
    ∀ q ∈ t.queued, q.flags.recoveryMore = false := by
  have hinv : ReplayInv t.queued t.server [] ∧ ∀ q ∈ t.queued, q.flags.recoveryMore = false := by
    refine @runSteps_inv_of_meet _ _ TracedTcp.step (fun t act => t.oneStream act = true)
      (fun t => ReplayInv t.queued t.server [] ∧ ∀ q ∈ t.queued, q.flags.recoveryMore = false)
      ?_ _ _ _ ⟨init_replay conf, fun _ hq => absurd hq List.not_mem_nil⟩ hmeet h
    intro t act t' hinv hone hs
    obtain ⟨s, hstep, rfl⟩ := Option.map_eq_some_iff.mp hs
    refine ⟨step_replay hinv.1 hstep, fun q hq => ?_⟩
    rcases List.mem_append.mp hq with hq | hq
    · exact hinv.2 q hq
    · exact newlyQueued_plain hinv.1 hstep hone q hq
  exact hinv.2

section Complete

variable {queued : List QueuedStream} {s : LmdOutputTcp} {c : LmdOutputClient}

theorem ReplayInv.given_plain (h : ReplayInv queued s []) (hc : c ∈ s.clients) {n : Nat}
    (hn : n ∈ givenOf c.log) : ¬ContinuesReplay queued n := by
  rintro ⟨p, hp, hpn, hmore⟩
  obtain ⟨q, hq, hqn, hplain⟩ := (h.clients c hc).given n hn
  obtain ⟨i, hi, rfl⟩ := List.getElem_of_mem hp
  obtain ⟨j, hj, rfl⟩ := List.getElem_of_mem hq
  have hord := List.pairwise_iff_getElem.mp h.sorted
  rcases Nat.lt_trichotomy i j with hij | hij | hij
  · have := hord i j hi hj hij
    omega
  · subst hij
    cases hplain.symm.trans hmore
  · have := hord j i hj hi hij
    omega

theorem inTurn_mem {l : List Nat} {x y : Nat} (h : InTurn l x y) : x ∈ l ∧ y ∈ l := by
  obtain ⟨a, b, rfl⟩ := h
  simp

theorem recoveryComplete_iff (h : ReplayInv queued s []) (hc : c ∈ s.clients) :
    RecoveryComplete queued (givenOf c.log) ↔ SingleReplays queued (givenOf c.log) := by
  constructor
  · intro hall x y hturn hstarts z hnext
    have heq := hall.all x y z hturn (.inl hstarts) hnext
    exact h.given_plain hc (inTurn_mem hturn).2 (heq ▸ hnext.2)
  · intro hsingle
    refine ⟨fun x y z hturn hreplay hnext => ?_, fun a y b hgiven hmore => ?_⟩
    · rcases hreplay with hstarts | hmore
      · exact (hsingle x y hturn hstarts z hnext).elim
      · exact (h.given_plain hc (inTurn_mem hturn).1 hmore).elim
    · exact (h.given_plain hc (by rw [hgiven]; simp) hmore).elim

theorem ReplayInv.givenAsNeeded (h : ReplayInv queued s []) : GivenAsNeeded s := by
  refine ⟨fun c hc cur now hcur => ?_, fun i c stream hc hpos honce => ?_⟩
  · refine getNextClientStream_asNeeded cur ((h.clients c hc).need ?_)
    unfold LmdOutputClient.position
    rw [hcur]
    exact nofun
  · have hnone : c.current = none ∧ c.pending = none := Option.or_eq_none_iff.mp hpos
    exact streamIsAvailable_asNeeded i hnone.1 hnone.2 honce

end Complete

/-- What a client comes to is given as it is needed. -/
theorem recovery_complete_iff (conf : TcpConf) (acts : List Act) (t : TracedTcp)
    (h : runSteps TracedTcp.step (TracedTcp.init conf) acts = some t) :
    ((∀ c ∈ t.server.clients, RecoveryComplete t.queued (givenOf c.log)) ∧
        GivenAsNeeded t.server ↔
      ∀ c ∈ t.server.clients, SingleReplays t.queued (givenOf c.log)) ∧
    (StepsMeet TracedTcp.step (fun t act => t.oneStream act = true) (TracedTcp.init conf) acts →
      ∀ c ∈ t.server.clients, SingleReplays t.queued (givenOf c.log)) := by
  have hinv := traced_replay h
  refine ⟨⟨fun hall c hc => ?_, fun hall => ⟨fun c hc => ?_, hinv.givenAsNeeded⟩⟩, ?_⟩
  · exact (recoveryComplete_iff hinv hc).mp (hall.1 c hc)
  · exact (recoveryComplete_iff hinv hc).mpr (hall c hc)
  · rintro hmeet c - x y - - z ⟨-, q, hq, -, hmore⟩
    cases (traced_plain hmeet h q hq).symm.trans hmore

theorem recovery_complete_one : ∃ t, runSteps TracedTcp.step
      (TracedTcp.init (smallServer 3)) recoveredRun = some t ∧
    (∀ c ∈ t.server.clients, RecoveryComplete t.queued (givenOf c.log)) ∧
      GivenAsNeeded t.server := by
  have hrun : (runSteps TracedTcp.step (TracedTcp.init (smallServer 3)) recoveredRun).map
      (fun t => t.server.clients.map (·.log)) =
      some [[.given 1 false, .skipped 2, .given 4 true, .given 5 false]] := by decide +kernel
  obtain ⟨t, ht, -⟩ := Option.map_eq_some_iff.mp hrun
  have hiff := recovery_complete_iff (smallServer 3) recoveredRun t ht
  exact ⟨t, ht, hiff.1.mpr (hiff.2 (stepsMeet_of_check (by decide +kernel)))⟩

def longReplayRun : List Act :=
  [.getBuffer 0, .needFree] ++ connect 0 ++ fillOne false ++ fillOne true ++ fillOne false ++
  [.getBuffer 0, .needFree, .getBuffer 0, .client 0 (.returned 1024 .data) 0,
   .doStickyReplay, .writeBuffer true, .deque, .getBuffer 0, .writeBuffer true, .deque,
   .getBuffer 0, .endStickyReplay, .writeBuffer false, .deque,
   .client 0 (.returned 1024 .data) 0]

theorem recovery_incomplete :
    ¬∀ (conf : TcpConf) (acts : List Act) (t : TracedTcp),
      runSteps TracedTcp.step (TracedTcp.init conf) acts = some t →
      (∀ c ∈ t.server.clients, RecoveryComplete t.queued (givenOf c.log)) ∧
        GivenAsNeeded t.server := by
  intro hall
  have hrun : (runSteps TracedTcp.step (TracedTcp.init (smallServer 3)) longReplayRun).map
      (fun t => (t.server.clients.map (·.log), t.queued.map QueuedStream.firstBuf,
        t.queued.map fun q => (q.firstBuf, q.flags.recoveryFirst, q.flags.recoveryMore))) =
      some ([[.given 1 false, .skipped 2, .given 4 true, .given 6 false]], [1, 2, 3, 4, 5, 6],
        [(1, false, false), (2, false, false), (3, false, false), (4, true, false),
          (5, false, true), (6, false, false)]) := by decide +kernel
  obtain ⟨t, ht, hview⟩ := Option.map_eq_some_iff.mp hrun
  obtain ⟨hlogs, hrest⟩ := Prod.mk.inj hview
  obtain ⟨hbufs, hmarks⟩ := Prod.mk.inj hrest
  obtain ⟨c, hc, hlog⟩ : ∃ c ∈ t.server.clients,
      c.log = [.given 1 false, .skipped 2, .given 4 true, .given 6 false] := by
    apply List.mem_map.mp
    rw [hlogs]
    exact .head _
  have hstarts : StartsReplay t.queued 4 := by
    have hm : (4, true, false) ∈ t.queued.map fun q =>
        (q.firstBuf, q.flags.recoveryFirst, q.flags.recoveryMore) := by
      rw [hmarks]
      decide
    obtain ⟨q, hq, heq⟩ := List.mem_map.mp hm
    simp only [Prod.mk.injEq] at heq
    exact ⟨q, hq, heq.1, heq.2.1⟩
  have hmore : ContinuesReplay t.queued 5 := by
    have hm : (5, false, true) ∈ t.queued.map fun q =>
        (q.firstBuf, q.flags.recoveryFirst, q.flags.recoveryMore) := by
      rw [hmarks]
      decide
    obtain ⟨q, hq, heq⟩ := List.mem_map.mp hm
    simp only [Prod.mk.injEq] at heq
    exact ⟨q, hq, heq.1, heq.2.2⟩
  have hcomplete := (hall (smallServer 3) longReplayRun t ht).1 c hc
  rw [hlog] at hcomplete
  have heq := hcomplete.all 4 6 5 ⟨[1], [], rfl⟩ (.inl hstarts)
    ⟨⟨[1, 2, 3], [6], hbufs⟩, hmore⟩
  cases heq

end Ucesb
