import Ucesb.TcpStreams

namespace Ucesb

open LmdOutputTcp

def LmdOutputTcp.positions (s : LmdOutputTcp) : List (Option Nat) :=
  s.clients.map LmdOutputClient.position

def OneStream (c : LmdOutputClient) : Prop := c.current = none ∨ c.pending = none

structure StreamsInv (s : LmdOutputTcp) (loose : List Nat) : Prop where
  pool : Pool s s.positions loose
  one : ∀ c ∈ s.clients, OneStream c

section Clients

variable {s t : LmdOutputTcp} {loose : List Nat} {i stream : Nat} {c c' : LmdOutputClient}

theorem positions_perm (hc : s.clients[i]? = some c) :
    s.positions.Perm (c.position :: s.positions.eraseIdx i) := by
  obtain ⟨hi, rfl⟩ := List.getElem?_eq_some_iff.mp hc
  have hl : i < s.positions.length := by simpa [LmdOutputTcp.positions] using hi
  have hp := List.getElem_cons_eraseIdx_perm hl
  rw [show s.positions[i] = s.clients[i].position by simp [LmdOutputTcp.positions]] at hp
  exact hp.symm

theorem positions_setClient (s : LmdOutputTcp) (i : Nat) (c : LmdOutputClient) :
    (s.setClient i c).positions = s.positions.set i c.position := by
  unfold LmdOutputTcp.positions setClient
  exact List.map_set

theorem Pool.setClient {refs : List (Option Nat)} (h : Pool s refs loose) :
    Pool (s.setClient i c) refs loose := { h with }

theorem StreamsInv.setClient_of (h : StreamsInv s loose) (hc : s.clients[i]? = some c)
    (hcl : t.clients = s.clients) (hone : OneStream c')
    (hp : Pool t (c'.position :: s.positions.eraseIdx i) loose) :
    StreamsInv (t.setClient i c') loose := by
  obtain ⟨hi, -⟩ := List.getElem?_eq_some_iff.mp hc
  have hpos : t.positions = s.positions := by
    unfold LmdOutputTcp.positions
    rw [hcl]
  have hl : i < s.positions.length := by simpa [LmdOutputTcp.positions] using hi
  constructor
  · rw [positions_setClient, hpos]
    exact (hp.perm_refs (List.set_perm_cons_eraseIdx hl _).symm).setClient
  · intro d hd
    rcases List.mem_or_eq_of_mem_set hd with hd | rfl
    · exact h.one d (by rwa [hcl] at hd)
    · exact hone

theorem StreamsInv.setClient_same (h : StreamsInv s loose) (hc : s.clients[i]? = some c)
    (h1 : c'.current = c.current) (h2 : c'.pending = c.pending) :
    StreamsInv (s.setClient i c') loose := by
  have hone : OneStream c := h.one c (List.mem_of_getElem? hc)
  apply h.setClient_of hc rfl
  · unfold OneStream
    rw [h1, h2]
    exact hone
  · have he : c'.position = c.position := by
      unfold LmdOutputClient.position
      rw [h1, h2]
    rw [he]
    exact h.pool.perm_refs (positions_perm hc)

theorem freeLeading_clients (fuel : Nat) (forceFree : Bool) (s : LmdOutputTcp) (stream : Nat) :
    (freeLeading fuel forceFree s stream).clients = s.clients := by
  induction fuel generalizing s stream forceFree with
  | zero => rfl
  | succ fuel ih =>
    unfold freeLeading
    split
    · cases nextStreamOf s.active stream with
      | none => exact addFreeStream_clients _ _
      | some next => exact (ih _ _ _).trans (addFreeStream_clients _ _)
    · rfl

theorem freeClientStream_clients (s : LmdOutputTcp) (stream : Nat) :
    (s.freeClientStream stream).clients = s.clients := freeLeading_clients _ _ _ _

theorem searchNext_mem {now : Int} {rest : List Nat} {need need' : NeedRecovery} {next : Nat}
    (h : s.searchNext now rest need = (some next, need')) :
    next ∈ rest ∧ s.prepareSkip now next = false := by
  induction rest generalizing need with
  | nil => simp [searchNext] at h
  | cons x rest ih =>
    unfold searchNext at h
    split at h
    · obtain ⟨hm, hs⟩ := ih h
      exact ⟨List.mem_cons_of_mem _ hm, hs⟩
    · rename_i hskip
      split at h
      · simp only [Prod.mk.injEq, Option.some.injEq] at h
        obtain ⟨rfl, -⟩ := h
        exact ⟨by simp, by simpa using hskip⟩
      · obtain ⟨hm, hs⟩ := ih h
        exact ⟨List.mem_cons_of_mem _ hm, hs⟩

theorem mem_of_streamsAfter {l : List Nat} {x : Nat} (h : x ∈ streamsAfter l stream) : x ∈ l :=
  (List.dropWhile_sublist _).subset (List.mem_of_mem_tail h)

theorem getNextClientStream_pool {refs : List (Option Nat)} {now : Int} {need need' : NeedRecovery}
    {next : Option Nat} (h : Pool s (some stream :: refs) [])
    (hg : s.getNextClientStream now stream need = (t, next, need')) :
    Pool t (next :: refs) [] ∧ t.clients = s.clients := by
  unfold getNextClientStream at hg
  cases hs : s.searchNext now (streamsAfter s.active stream) (s.needAfter stream need) with
  | mk found need'' =>
    simp only [hs, Prod.mk.injEq] at hg
    obtain ⟨rfl, rfl, -⟩ := hg
    cases found with
    | none => exact ⟨Pool.cons_none_iff.mpr h.freeClientStream, freeClientStream_clients _ _⟩
    | some found =>
      obtain ⟨hm, hskip⟩ := searchNext_mem hs
      have hz : s.sendonce = true → (s.streams found).clients = 0 := by
        intro ho
        simp [prepareSkip, ho] at hskip
        exact hskip.2
      have hadd := h.addClient (.inl (mem_of_streamsAfter hm)) hz
      have hswap := hadd.perm_refs (List.Perm.swap _ _ _)
      exact ⟨hswap.freeClientStream, freeClientStream_clients _ _⟩

theorem Pool.askRecovery {refs : List (Option Nat)} (h : Pool s refs loose)
    (need : NeedRecovery) : Pool (s.askRecovery need) refs loose := by
  unfold LmdOutputTcp.askRecovery
  split
  · exact { h with }
  · exact h

theorem askRecovery_clients (s : LmdOutputTcp) (need : NeedRecovery) :
    (s.askRecovery need).clients = s.clients := by
  unfold LmdOutputTcp.askRecovery
  split <;> rfl

theorem nextStream_inv {now : Int} (h : StreamsInv s []) (hc : s.clients[i]? = some c)
    (h1 : c'.current = c.current) (h2 : c'.pending = c.pending) :
    StreamsInv (s.nextStream now i c') [] := by
  have hone : OneStream c := h.one c (List.mem_of_getElem? hc)
  have hp := h.pool.perm_refs (positions_perm hc)
  unfold nextStream
  rw [h1, h2]
  cases hpend : c.pending with
  | some p =>
    have hcur : c.current = none := by simpa [OneStream, hpend] using hone
    apply h.setClient_of hc rfl (.inr rfl)
    simpa [LmdOutputClient.position, hpend, hcur] using hp
  | none =>
    cases hcur : c.current with
    | none =>
      rw [show c.position = none by simp [LmdOutputClient.position, hcur, hpend]] at hp
      exact h.setClient_of hc (askRecovery_clients _ _) (.inr rfl) (hp.askRecovery _)
    | some current =>
      have hpos : c.position = some current := by simp [LmdOutputClient.position, hcur]
      rw [hpos] at hp
      cases hg : s.getNextClientStream now current c'.need with
      | mk s' r =>
        obtain ⟨next, need⟩ := r
        obtain ⟨hp', hcl⟩ := getNextClientStream_pool hp hg
        cases next with
        | some next =>
          simp only [hg]
          exact h.setClient_of hc hcl (.inr rfl) hp'
        | none =>
          simp only [hg]
          exact h.setClient_of hc ((askRecovery_clients _ _).trans hcl) (.inl rfl)
            (hp'.askRecovery _)

/-- The record of a client may change without its streams, its need or its history. -/
structure SameHold (c c' : LmdOutputClient) : Prop where
  current : c'.current = c.current
  pending : c'.pending = c.pending
  log : c'.log = c.log
  need : c'.need = c.need

theorem afterSelect_cases {now : Int} {io : SocketIo} {keep : Bool}
    (h : s.afterSelect now i c io = (keep, t)) :
    t = s ∨ (keep = true ∧ ∃ c', SameHold c c' ∧
      (t = s.setClient i c' ∨ t = s.nextStream now i c')) := by
  have hset : ∀ c', (true, s.setClient i c') = (keep, t) → SameHold c c' →
      t = s ∨ (keep = true ∧ ∃ c', SameHold c c' ∧
        (t = s.setClient i c' ∨ t = s.nextStream now i c')) := by
    intro c' he hc'
    cases he
    exact .inr ⟨rfl, c', hc', .inl rfl⟩
  have hnext : ∀ c', (true, s.nextStream now i c') = (keep, t) → SameHold c c' →
      t = s ∨ (keep = true ∧ ∃ c', SameHold c c' ∧
        (t = s.setClient i c' ∨ t = s.nextStream now i c')) := by
    intro c' he hc'
    cases he
    exact .inr ⟨rfl, c', hc', .inr rfl⟩
  have hid : ∀ b, (b, s) = (keep, t) → t = s := by
    intro b he
    cases he
    rfl
  unfold afterSelect at h
  split at h
  · exact .inl (hid _ h)
  · split at h
    · exact .inl (hid _ h)
    · exact .inl (hid _ h)
    · split at h
      · exact .inl (hid _ h)
      · unfold afterTransfer at h
        dsimp only at h
        split at h
        · split at h
          · split at h
            · exact hset _ h ⟨rfl, rfl, rfl, rfl⟩
            · split at h
              · exact hset _ h ⟨rfl, rfl, rfl, rfl⟩
              · exact hnext _ h ⟨rfl, rfl, rfl, rfl⟩
          · exact hset _ h ⟨rfl, rfl, rfl, rfl⟩
        · split at h
          · split at h
            · exact .inl (hid _ h)
            · exact hset _ h ⟨rfl, rfl, rfl, rfl⟩
            · exact hnext _ h ⟨rfl, rfl, rfl, rfl⟩
          · exact hset _ h ⟨rfl, rfl, rfl, rfl⟩
        · split at h
          · exact .inl (hid _ h)
          · split at h
            · split at h
              · split at h
                · exact hset _ h ⟨rfl, rfl, rfl, rfl⟩
                · exact hnext _ h ⟨rfl, rfl, rfl, rfl⟩
              · exact hset _ h ⟨rfl, rfl, rfl, rfl⟩
            · exact hset _ h ⟨rfl, rfl, rfl, rfl⟩
        · exact .inl (hid _ h)
        · exact .inl (hid _ h)
        · exact .inl (hid _ h)

theorem serveClient_cases {now : Int} {io : SocketIo} (h : s.serveClient now i io = some t) :
    t = s ∨ ∃ c, s.clients[i]? = some c ∧ (t = s.closeClient i c ∨
      ∃ c', SameHold c c' ∧ (t = s.setClient i c' ∨ t = s.nextStream now i c')) := by
  unfold serveClient at h
  split at h
  · cases h
  · rename_i c hc
    cases hr : s.afterSelect now i c io with
    | mk keep u =>
      rw [hr] at h
      rcases afterSelect_cases hr with rfl | ⟨rfl, c', hc', hu⟩
      · cases keep with
        | true => exact .inl (Option.some.inj h).symm
        | false => exact .inr ⟨c, hc, .inl (Option.some.inj h).symm⟩
      · cases h
        exact .inr ⟨c, hc, .inr ⟨c', hc', hu⟩⟩

theorem closeClient_inv (h : StreamsInv s []) (hc : s.clients[i]? = some c) :
    StreamsInv (s.closeClient i c) [] := by
  have hp := h.pool.perm_refs (positions_perm hc)
  -- what is left once the client has let go of its stream
  have hfreed : ∀ t : LmdOutputTcp, t.clients = s.clients →
      Pool t (s.positions.eraseIdx i) [] →
      StreamsInv { t with clients := t.clients.eraseIdx i } [] := by
    intro t hcl ht
    constructor
    · have he : LmdOutputTcp.positions { t with clients := t.clients.eraseIdx i } =
          s.positions.eraseIdx i := by
        unfold LmdOutputTcp.positions
        rw [hcl, List.eraseIdx_map]
      rw [he]
      exact { ht with }
    · intro d hd
      apply h.one d
      rw [← hcl]
      exact List.mem_of_mem_eraseIdx hd
  unfold closeClient
  cases hcur : c.current with
  | some current =>
    rw [show c.position = some current by simp [LmdOutputClient.position, hcur]] at hp
    exact hfreed _ (freeClientStream_clients _ _) hp.freeClientStream
  | none =>
    cases hpend : c.pending with
    | some p =>
      rw [show c.position = some p by simp [LmdOutputClient.position, hcur, hpend]] at hp
      exact hfreed _ (freeClientStream_clients _ _) hp.freeClientStream
    | none =>
      rw [show c.position = none by simp [LmdOutputClient.position, hcur, hpend]] at hp
      exact hfreed s rfl (Pool.cons_none_iff.mp hp)

theorem serveClient_inv {now : Int} {io : SocketIo} (h : StreamsInv s [])
    (hs : s.serveClient now i io = some t) : StreamsInv t [] := by
  rcases serveClient_cases hs with rfl | ⟨c, hc, rfl | ⟨c', hc', rfl | rfl⟩⟩
  · exact h
  · exact closeClient_inv h hc
  · exact h.setClient_same hc hc'.current hc'.pending
  · exact nextStream_inv h hc hc'.current hc'.pending

theorem StreamsInv.askRecovery (h : StreamsInv s loose) (need : NeedRecovery) :
    StreamsInv (s.askRecovery need) loose := by
  have hpos : (s.askRecovery need).positions = s.positions := by
    unfold LmdOutputTcp.positions
    rw [askRecovery_clients]
  constructor
  · rw [hpos]
    exact h.pool.askRecovery need
  · rw [askRecovery_clients]
    exact h.one

theorem askRecovery_frame (s : LmdOutputTcp) (need : NeedRecovery) :
    (s.askRecovery need).streams = s.streams ∧ (s.askRecovery need).sendonce = s.sendonce ∧
      (s.askRecovery need).active = s.active := by
  unfold LmdOutputTcp.askRecovery
  split
  · exact ⟨rfl, rfl, rfl⟩
  · exact ⟨rfl, rfl, rfl⟩

theorem streamIsAvailable_inv (h : StreamsInv s loose) (hl : stream ∈ loose)
    (hc : s.clients[i]? = some c) : StreamsInv (s.streamIsAvailable i c stream).2 loose := by
  unfold streamIsAvailable
  split
  · exact h
  · rename_i hfree
    split
    · exact h
    · rename_i honce
      simp only [Bool.or_eq_true, not_or, Bool.not_eq_true, Option.isSome_eq_false_iff,
        Option.isNone_iff_eq_none] at hfree
      generalize hu : (if c.need = .unknown then
        s.askRecovery (resolveNeed s.stickyEventsSeen c.need) else s) = u
      have hinv : StreamsInv u loose := by
        subst hu
        split
        · exact h.askRecovery _
        · exact h
      have hframe : u.clients = s.clients ∧ u.streams = s.streams ∧ u.sendonce = s.sendonce := by
        subst hu
        split
        · obtain ⟨h1, h2, -⟩ := askRecovery_frame s (resolveNeed s.stickyEventsSeen c.need)
          exact ⟨askRecovery_clients _ _, h1, h2⟩
        · exact ⟨rfl, rfl, rfl⟩
      have hcu : u.clients[i]? = some c := by rw [hframe.1, hc]
      have hp := hinv.pool.perm_refs (positions_perm hcu)
      rw [show c.position = none by simp [LmdOutputClient.position, hfree.1, hfree.2]] at hp
      have hadd := (Pool.cons_none_iff.mp hp).addClient (.inr hl)
        (by
          intro ho
          rw [hframe.2.2] at ho
          rw [hframe.2.1]
          simpa [ho] using honce)
      dsimp only
      rw [hu]
      split
      · exact hinv.setClient_same hcu rfl rfl
      · split
        · refine hinv.setClient_of hcu rfl (.inl hfree.1) ?_
          rw [show LmdOutputClient.position _ = some stream by
            simp [LmdOutputClient.position, noteGiven, hfree.1]]
          exact hadd
        · exact hinv.setClient_of hcu rfl (.inr hfree.2) hadd

theorem offerStream_inv {order : List Nat} (h : StreamsInv s loose) (hl : stream ∈ loose) :
    StreamsInv (offerStream stream s order) loose := by
  induction order generalizing s with
  | nil => exact h
  | cons i rest ih =>
    unfold offerStream
    cases hc : s.clients[i]? with
    | none => exact ih h
    | some c =>
      have hinv := streamIsAvailable_inv h hl hc
      cases hr : s.streamIsAvailable i c stream with
      | mk used u =>
        rw [hr] at hinv
        simp only [hr]
        split
        · exact ⟨{ hinv.pool with }, hinv.one⟩
        · exact ih hinv

theorem takeFilledStream_inv {rest : List Nat} (h : StreamsInv s [])
    (hfill : s.filled = stream :: rest) : StreamsInv (s.takeFilledStream stream rest) [stream] := by
  have hfree : some stream ∉ s.positions := h.pool.not_held (by simp [hfill])
  refine ⟨⟨?_, h.pool.nodup, h.pool.fresh, h.pool.num, h.pool.max, ?_, ?_, h.pool.once⟩, h.one⟩
  · apply List.perm_iff_count.mpr
    intro id
    have hcnt := h.pool.places.count_eq id
    rw [hfill] at hcnt
    show (s.free ++ rest ++ s.active ++ s.fillStream.toList ++ [stream]).count id =
      s.allocated.count id
    simp only [List.count_append, List.count_cons, List.count_nil] at hcnt ⊢
    omega
  · intro id hid
    rcases h.pool.held id hid with ha | hx
    · exact .inl ha
    · cases hx
  · intro id hid
    show (if id = stream then _ else s.streams id).clients = (s.positions.count (some id) : Int)
    by_cases he : id = stream
    · subst he
      simp [List.count_eq_zero_of_not_mem hfree]
    · simp [he, h.pool.count id hid]

theorem StreamsInv.addFreeStream (h : StreamsInv s (stream :: loose))
    (hr : some stream ∉ s.positions) : StreamsInv (s.addFreeStream stream) loose := by
  have hp := h.pool.addFreeStream hr
  constructor
  · unfold LmdOutputTcp.positions at hp ⊢
    rw [addFreeStream_clients]
    exact hp
  · rw [addFreeStream_clients]
    exact h.one

theorem placeStream_inv (h : StreamsInv s [stream]) : StreamsInv (s.placeStream stream) [] := by
  unfold placeStream
  split
  · exact ⟨{ h.pool.addClientStream with }, h.one⟩
  · rename_i hun
    apply h.addFreeStream
    apply h.pool.not_held_of_zero (h.pool.mem_allocated (by simp))
    by_contra hne
    exact hun (.inr hne)

theorem dequeFilledStream_inv (h : StreamsInv s []) (hs : s.dequeFilledStream = some t) :
    StreamsInv t [] := by
  unfold dequeFilledStream at hs
  split at hs
  · cases hs
  · split at hs
    · cases hs
    · rename_i stream rest hfill
      cases hs
      apply placeStream_inv
      exact offerStream_inv (takeFilledStream_inv h hfill) (List.mem_singleton_self stream)

theorem noteSkip_same (s : LmdOutputTcp) (stream : Nat) (c : LmdOutputClient) :
    (s.noteSkip stream c).current = c.current ∧ (s.noteSkip stream c).pending = c.pending ∧
      (s.noteSkip stream c).need = c.need := by
  unfold noteSkip
  split
  · exact ⟨rfl, rfl, rfl⟩
  · exact ⟨rfl, rfl, rfl⟩

theorem noteSkip_position (s : LmdOutputTcp) (stream : Nat) (c : LmdOutputClient) :
    (s.noteSkip stream c).position = c.position := by
  obtain ⟨h1, h2, -⟩ := noteSkip_same s stream c
  unfold LmdOutputClient.position
  rw [h1, h2]

theorem noteSkipped_inv (h : StreamsInv s loose) (stream : Nat) :
    StreamsInv (s.noteSkipped stream) loose := by
  have hpos : (s.noteSkipped stream).positions = s.positions := by
    unfold LmdOutputTcp.positions noteSkipped
    rw [List.map_map]
    exact List.map_congr_left fun c _ => noteSkip_position s stream c
  constructor
  · rw [hpos]
    exact { h.pool with }
  · intro d hd
    obtain ⟨c, hc, rfl⟩ := List.mem_map.mp hd
    obtain ⟨h1, h2, -⟩ := noteSkip_same s stream c
    unfold OneStream
    rw [h1, h2]
    exact h.one c hc

theorem markLostAfter_clients (s : LmdOutputTcp) (stream : Nat) :
    (s.markLostAfter stream).clients = s.clients := by
  unfold markLostAfter
  split
  · rfl
  · split <;> rfl

theorem markLostAfter_inv (h : StreamsInv s loose) (stream : Nat) :
    StreamsInv (s.markLostAfter stream) loose := by
  have hp := markLostAfter_pool stream h.pool
  constructor
  · unfold LmdOutputTcp.positions at hp ⊢
    rw [markLostAfter_clients]
    exact hp
  · rw [markLostAfter_clients]
    exact h.one

theorem freeOldestUnused_inv (h : StreamsInv s []) : StreamsInv s.freeOldestUnused [] := by
  unfold freeOldestUnused
  split
  · exact h
  · rename_i stream hold
    have ha : stream ∈ s.active := List.mem_of_find?_eq_some hold
    have hz : (s.streams stream).clients = 0 := by simpa using List.find?_some hold
    have hr := h.pool.not_held_of_zero (h.pool.active_allocated ha) hz
    have hm := markLostAfter_inv (noteSkipped_inv h stream) stream
    have ha' : stream ∈ ((s.noteSkipped stream).markLostAfter stream).active := by
      rw [markLostAfter_active]
      exact ha
    have hpos : ((s.noteSkipped stream).markLostAfter stream).positions = s.positions := by
      unfold LmdOutputTcp.positions noteSkipped
      rw [markLostAfter_clients, List.map_map]
      exact List.map_congr_left fun c _ => noteSkip_position s stream c
    have hl : StreamsInv (((s.noteSkipped stream).markLostAfter stream).unlinkStream stream)
        [stream] := ⟨{ hm.pool.unlinkStream ha' with }, hm.one⟩
    apply hl.addFreeStream
    show some stream ∉ ((s.noteSkipped stream).markLostAfter stream).positions
    rw [hpos]
    exact hr

end Clients

section Producer

variable {s t : LmdOutputTcp}

theorem createFreeStream_inv (h : StreamsInv s []) (hlt : s.numStreams < s.maxStreams)
    (hs : s.createFreeStream = some t) : StreamsInv t [] := by
  unfold createFreeStream at hs
  split at hs
  · cases hs
  · cases hs
    have hnew : s.allocStreamNo + 1 ∉ s.allocated := by
      intro hm
      have := h.pool.fresh _ hm
      omega
    have hfree : some (s.allocStreamNo + 1) ∉ s.positions := by
      intro hm
      rcases h.pool.held _ hm with ha | hx
      · exact hnew (h.pool.active_allocated ha)
      · cases hx
    refine StreamsInv.addFreeStream ?_ hfree
    refine ⟨⟨?_, ?_, ?_, ?_, ?_, ?_, ?_, h.pool.once⟩, h.one⟩
    · apply List.perm_iff_count.mpr
      intro id
      have hcnt := h.pool.places.count_eq id
      show (s.free ++ s.filled ++ s.active ++ s.fillStream.toList ++
        [s.allocStreamNo + 1]).count id = ((s.allocStreamNo + 1) :: s.allocated).count id
      simp only [List.count_append, List.count_cons, List.count_nil] at hcnt ⊢
      omega
    · exact List.nodup_cons.mpr ⟨hnew, h.pool.nodup⟩
    · intro id hid
      show id ≤ s.allocStreamNo + 1
      rcases List.mem_cons.mp hid with rfl | hid
      · exact le_refl _
      · have := h.pool.fresh id hid
        omega
    · show s.numStreams + 1 = ((s.allocStreamNo + 1) :: s.allocated).length
      rw [h.pool.num]
      simp
    · show s.numStreams + 1 ≤ s.maxStreams
      omega
    · intro id hid
      rcases h.pool.held id hid with ha | hx
      · exact .inl ha
      · cases hx
    · intro id hid
      show (if id = s.allocStreamNo + 1 then _ else s.streams id).clients =
        (s.positions.count (some id) : Int)
      by_cases he : id = s.allocStreamNo + 1
      · subst he
        simp [List.count_eq_zero_of_not_mem hfree]
      · rcases List.mem_cons.mp hid with hid | hid
        · exact absurd hid he
        · simp [he, h.pool.count id hid]

theorem createFreeStreams_inv (fuel : Nat) (h : StreamsInv s []) :
    StreamsInv (createFreeStreams fuel s) [] := by
  induction fuel generalizing s with
  | zero => exact h
  | succ fuel ih =>
    unfold createFreeStreams
    split
    · rename_i hlt
      cases hc : s.createFreeStream with
      | none => exact h
      | some u => exact ih (createFreeStream_inv h hlt hc)
    · exact h

theorem serveNeedFree_inv (h : StreamsInv s []) (hs : s.serveNeedFree = some t) :
    StreamsInv t [] := by
  unfold serveNeedFree at hs
  split at hs
  · cases hs
    generalize hu : (if s.numStreams < s.maxStreams then
        createFreeStreams (s.maxStreams - s.numStreams).toNat s
      else if !s.hold then s.freeOldestUnused else s) = u
    have hinv : StreamsInv u [] := by
      subst hu
      split
      · exact createFreeStreams_inv _ h
      · split
        · exact freeOldestUnused_inv h
        · exact h
    split
    · exact ⟨{ hinv.pool with }, hinv.one⟩
    · exact hinv
  · cases hs

theorem getBuffer_inv {now : Int} (h : StreamsInv s []) (hs : s.getBuffer now = some t) :
    StreamsInv t [] := by
  unfold getBuffer at hs
  split at hs
  · rename_i stream rest hf hfree
    cases hs
    have hp : Pool (s.modifyStream stream fun x =>
        { x with flags := .zero, filled := 0, maxFill := s.streamBufs * s.bufSize, created := now,
                 firstBuf := s.lBuf }) s.positions [] := h.pool.modifyStream (fun _ _ => rfl)
    refine ⟨⟨?_, hp.nodup, hp.fresh, hp.num, hp.max, hp.held, hp.count, hp.once⟩, h.one⟩
    apply List.perm_iff_count.mpr
    intro id
    have hcnt := h.pool.places.count_eq id
    rw [hf, hfree] at hcnt
    show (rest ++ s.filled ++ s.active ++ [stream] ++ []).count id = s.allocated.count id
    simp only [List.count_append, List.count_cons, List.count_nil, Option.toList_none] at hcnt ⊢
    omega
  · cases hs
    exact ⟨{ h.pool with }, h.one⟩
  · cases hs
    exact h

theorem writeBuffer_inv {hasSticky : Bool} (h : StreamsInv s [])
    (hs : s.writeBuffer hasSticky = some t) : StreamsInv t [] := by
  unfold writeBuffer at hs
  split at hs
  · cases hs
  · rename_i stream hf
    have hfill : StreamsInv (s.bufferDone stream hasSticky) [] := by
      refine ⟨?_, h.one⟩
      have hp : Pool { s with lBuf := s.lBuf + 1 } s.positions [] := { h.pool with }
      exact hp.modifyStream (fun _ _ => rfl)
    dsimp only at hs
    split at hs
    · unfold enqueueFilled at hs
      split at hs
      · cases hs
      · cases hs
        have hp : Pool ((s.bufferDone stream hasSticky).modifyStream stream fun x =>
            { x with flags := x.flags.orMark (s.bufferDone stream hasSticky).markReplayStream })
            s.positions [] := Pool.modifyStream hfill.pool (fun _ _ => rfl)
        refine ⟨⟨?_, hp.nodup, hp.fresh, hp.num, hp.max, hp.held, hp.count, hp.once⟩, h.one⟩
        apply List.perm_iff_count.mpr
        intro id
        have hcnt := h.pool.places.count_eq id
        rw [hf] at hcnt
        show (s.free ++ (s.filled ++ [stream]) ++ s.active ++ [] ++ []).count id =
          s.allocated.count id
        simp only [List.count_append, List.count_cons, List.count_nil, Option.toList_some] at hcnt ⊢
        omega
    · cases hs
      exact hfill

theorem step_inv {act : Act} (h : StreamsInv s []) (hs : s.step act = some t) :
    StreamsInv t [] := by
  cases act with
  | accept mode allowData =>
    cases hs
    have hpos : LmdOutputTcp.positions
        { s with clients := s.clients ++ [LmdOutputClient.new mode allowData] } =
        s.positions ++ [none] := by
      unfold LmdOutputTcp.positions
      rw [List.map_append]
      rfl
    constructor
    · rw [hpos]
      apply Pool.perm_refs _ (List.perm_append_singleton none s.positions).symm
      exact Pool.cons_none_iff.mpr { h.pool with }
    · intro c hc
      rcases List.mem_append.mp hc with hc | hc
      · exact h.one c hc
      · rw [List.mem_singleton.mp hc]
        exact .inl rfl
  | deque => exact dequeFilledStream_inv h hs
  | client i io now => exact serveClient_inv h hs
  | shutdown i =>
    obtain ⟨c, hc, rfl⟩ := Option.map_eq_some_iff.mp hs
    exact closeClient_inv h hc
  | needFree => exact serveNeedFree_inv h hs
  | getBuffer now => exact getBuffer_inv h hs
  | writeBuffer hasSticky => exact writeBuffer_inv h hs
  | doStickyReplay =>
    obtain ⟨-, ⟨⟩⟩ := Option.ite_none_right_eq_some.mp hs
    exact ⟨{ h.pool with }, h.one⟩
  | endStickyReplay =>
    obtain ⟨-, ⟨⟩⟩ := Option.ite_none_right_eq_some.mp hs
    exact ⟨{ h.pool with }, h.one⟩

theorem init_inv (conf : TcpConf) : StreamsInv (LmdOutputTcp.init conf) [] := by
  refine ⟨⟨List.Perm.refl _, List.nodup_nil, ?_, rfl, ?_, ?_, ?_, ?_⟩, ?_⟩
  · intro id hid
    cases hid
  · show (0 : Int) ≤ if conf.maxStreams ≤ 0 then 1 else conf.maxStreams
    split <;> omega
  · intro id hid
    cases hid
  · intro id hid
    cases hid
  · intro _ id
    exact Nat.zero_le 1
  · intro c hc
    cases hc

theorem reachable_inv {conf : TcpConf} {acts : List Act}
    (h : runSteps step (LmdOutputTcp.init conf) acts = some s) : StreamsInv s [] :=
  runSteps_inv (fun _ _ _ hi hs => step_inv hi hs) (init_inv conf) h

end Producer

theorem count_positions {clients : List LmdOutputClient} (h : ∀ c ∈ clients, OneStream c)
    (stream : Nat) : (clients.map LmdOutputClient.position).count (some stream) =
      clients.countP (fun c => c.current = some stream) +
        clients.countP (fun c => c.pending = some stream) := by
  induction clients with
  | nil => rfl
  | cons c rest ih =>
    have hih := ih fun d hd => h d (List.mem_cons_of_mem _ hd)
    rw [List.map_cons, List.count_cons, List.countP_cons, List.countP_cons, hih]
    rcases h c List.mem_cons_self with hc | hc
    · rw [show c.position = c.pending by simp [LmdOutputClient.position, hc], hc]
      simp only [beq_iff_eq, decide_eq_true_eq, reduceCtorEq, if_false]
      omega
    · rw [show c.position = c.current by simp [LmdOutputClient.position, hc], hc]
      simp only [beq_iff_eq, decide_eq_true_eq, reduceCtorEq, if_false]
      omega

/-- In every state that the server and the producer can reach, every allocated stream is in one
place, is held as often as its count says, and is not held where it is free or being filled. -/
theorem streams_conserved (conf : TcpConf) (acts : List Act) (s : LmdOutputTcp)
    (h : runSteps step (LmdOutputTcp.init conf) acts = some s) :
    (s.free ++ s.filled ++ s.active ++ s.fillStream.toList).Perm s.allocated ∧
    s.allocated.Nodup ∧
    (∀ stream ∈ s.allocated, (s.streams stream).clients =
      s.clients.countP (fun c => c.current = some stream) +
        s.clients.countP (fun c => c.pending = some stream)) ∧
    (∀ stream ∈ s.free ++ s.filled ++ s.fillStream.toList, (s.streams stream).clients = 0) ∧
    s.numStreams = s.allocated.length ∧ s.numStreams ≤ s.maxStreams := by
  have hi := reachable_inv h
  refine ⟨by simpa using hi.pool.places, hi.pool.nodup, ?_, fun stream hm =>
    hi.pool.clients_zero hm, hi.pool.num, hi.pool.max⟩
  intro stream hm
  rw [hi.pool.count stream hm]
  exact_mod_cast count_positions hi.one stream

end Ucesb
