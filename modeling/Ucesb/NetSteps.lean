import Ucesb.NetClients
import Mathlib.Data.List.Flatten

namespace Ucesb

section Counting

variable {α : Type}

theorem countP_set_add {p : α → Bool} {l : List α} {i : Nat} {a b : α} (h : l[i]? = some a) :
    (l.set i b).countP p + (if p a then 1 else 0) = l.countP p + (if p b then 1 else 0) := by
  induction l generalizing i with
  | nil => cases h
  | cons x l ih =>
    cases i with
    | zero =>
      cases h
      simp only [List.set_cons_zero, List.countP_cons]
      omega
    | succ i =>
      have := ih h
      simp only [List.set_cons_succ, List.countP_cons]
      omega

theorem countP_eraseIdx_add {p : α → Bool} {l : List α} {i : Nat} {a : α} (h : l[i]? = some a) :
    (l.eraseIdx i).countP p + (if p a then 1 else 0) = l.countP p := by
  induction l generalizing i with
  | nil => cases h
  | cons x l ih =>
    cases i with
    | zero =>
      cases h
      simp only [List.eraseIdx_cons_zero, List.countP_cons]
    | succ i =>
      have := ih h
      simp only [List.eraseIdx_cons_succ, List.countP_cons]
      omega

end Counting

section NetSteps

variable {io io' : NetIo} {client client' : SendClient} {i : Nat}

/-- Consumers are counted: one client less at one chunk, and one more at another. -/
def recount (consumers : Nat → Nat) (old new : Option Nat) : Nat → Nat :=
  fun id => consumers id - (if old = some id then 1 else 0) + (if new = some id then 1 else 0)

theorem NetInv.set_client (h : NetInv io) (hi : io.clients[i]? = some client)
    (hok : ClientOk io client') {consumers : Nat → Nat}
    (hc : consumers = recount io.consumers client.chunk client'.chunk) :
    NetInv { io with consumers := consumers, clients := io.clients.set i client' } := by
  refine { h with
    counted := ?_
    clients := ?_
    departed := fun sent hs => (h.departed sent hs).mono rfl (List.Sublist.refl _) }
  · intro id
    have hcount := @countP_set_add SendClient (fun x => x.chunk = some id) io.clients i client
      client' hi
    have hle : (if client.chunk = some id then 1 else 0) ≤
        io.clients.countP fun x => x.chunk = some id := by
      have := @countP_eraseIdx_add SendClient (fun x => x.chunk = some id) io.clients i client hi
      simp only [decide_eq_true_eq] at this
      omega
    simp only [decide_eq_true_eq] at hcount
    rw [hc]
    simp only [recount, h.counted id]
    show _ = (io.clients.set i client').countP fun x => decide (x.chunk = some id)
    omega
  · intro x hx
    rcases List.mem_or_eq_of_mem_set hx with hx | rfl
    · exact (h.clients x hx).congr rfl rfl rfl rfl
    · exact hok.congr rfl rfl rfl rfl

theorem NetInv.close_client (h : NetInv io) (i : Nat) : NetInv (io.closeClient i) := by
  unfold NetIo.closeClient
  cases hi : io.clients[i]? with
  | none => exact h
  | some client =>
    have hmem : client ∈ io.clients := List.mem_of_getElem? hi
    have hcount := fun id =>
      @countP_eraseIdx_add SendClient (fun x => x.chunk = some id) io.clients i client hi
    simp only [decide_eq_true_eq] at hcount
    have hdep : ∀ sent ∈ io.departed ++ [client.sent], WholeMessages io sent := by
      intro sent hs
      rcases List.mem_append.mp hs with hs | hs
      · exact h.departed sent hs
      · rw [List.mem_singleton.mp hs]
        exact (h.clients client hmem).whole
    dsimp only
    cases hid : client.chunk with
    | none =>
      rw [hid] at hcount
      exact { h with
        counted := by
          intro id
          have := hcount id
          rw [h.counted id]
          simpa using this.symm
        clients := fun x hx =>
          (h.clients x (List.mem_of_mem_eraseIdx hx)).congr rfl rfl rfl rfl
        departed := fun sent hs => (hdep sent hs).mono rfl (List.Sublist.refl _) }
    | some id =>
      rw [hid] at hcount
      exact { h with
        counted := by
          intro k
          have hk := hcount k
          show Function.update io.consumers id (io.consumers id - 1) k =
            (io.clients.eraseIdx i).countP fun x => decide (x.chunk = some k)
          by_cases hki : k = id
          · subst hki
            rw [Function.update_self, h.counted]
            simp only [if_true] at hk
            omega
          · rw [Function.update_of_ne hki, h.counted]
            rw [if_neg (by rintro ⟨⟩; exact hki rfl)] at hk
            omega
        clients := fun x hx =>
          (h.clients x (List.mem_of_mem_eraseIdx hx)).congr rfl rfl rfl rfl
        departed := fun sent hs => (hdep sent hs).mono rfl (List.Sublist.refl _) }

/-- What the steps for a client leave as it is. -/
structure SameData (io io' : NetIo) : Prop where
  inits : io'.inits = io.inits
  events : io'.events = io.events
  eventMsgs : io'.eventMsgs = io.eventMsgs
  initLength : io'.initLength = io.initLength
  eventLength : io'.eventLength = io.eventLength
  nextId : io'.nextId = io.nextId
  reserved : io'.reserved = io.reserved

theorem SameData.refl (io : NetIo) : SameData io io := ⟨rfl, rfl, rfl, rfl, rfl, rfl, rfl⟩

theorem closeClient_same (io : NetIo) (i : Nat) : SameData io (io.closeClient i) := by
  unfold NetIo.closeClient
  split
  · exact SameData.refl io
  · next client _ =>
    cases client.chunk <;> exact ⟨rfl, rfl, rfl, rfl, rfl, rfl, rfl⟩

theorem clientWrite_same {again stays : Bool} {results : List SendResult}
    (hw : extNetIoClientWrite i io again results = some (io', stays)) : SameData io io' := by
  induction results generalizing io again with
  | nil => cases hw
  | cons result results ih =>
    unfold extNetIoClientWrite at hw
    obtain ⟨client, hi, hw⟩ := Option.bind_eq_some_iff.mp hw
    obtain ⟨id, hid, hw⟩ := Option.bind_eq_some_iff.mp hw
    obtain ⟨chunk, hchunk, hw⟩ := Option.bind_eq_some_iff.mp hw
    cases result with
    | sent n =>
      dsimp only at hw
      split at hw
      · cases hw
      · split at hw
        · cases hw
          exact ⟨rfl, rfl, rfl, rfl, rfl, rfl, rfl⟩
        · cases hafter : io.chunkAfter id with
          | none =>
            rw [hafter] at hw
            cases hw
            exact ⟨rfl, rfl, rfl, rfl, rfl, rfl, rfl⟩
          | some next =>
            rw [hafter] at hw
            exact { ih hw with }
    | _ =>
      cases hw
      exact SameData.refl _

theorem netStep_same {a : NetAct} (ha : a = .accept ∨ (∃ i results, a = .write i results) ∨
    ∃ i count, a = .shutdown i count) (h : netStep io a = some io') : SameData io io' := by
  obtain rfl | ⟨i, results, rfl⟩ | ⟨i, count, rfl⟩ := ha
  · obtain ⟨chunk, hchunk, h⟩ := Option.bind_eq_some_iff.mp h
    cases h
    exact ⟨rfl, rfl, rfl, rfl, rfl, rfl, rfl⟩
  · obtain ⟨⟨io₁, stays⟩, hw, h⟩ := Option.bind_eq_some_iff.mp h
    have hsame := clientWrite_same hw
    cases h
    cases stays with
    | true => exact hsame
    | false =>
      have hclose := closeClient_same io₁ i
      exact ⟨hclose.inits.trans hsame.inits, hclose.events.trans hsame.events,
        hclose.eventMsgs.trans hsame.eventMsgs, hclose.initLength.trans hsame.initLength,
        hclose.eventLength.trans hsame.eventLength, hclose.nextId.trans hsame.nextId,
        hclose.reserved.trans hsame.reserved⟩
  · obtain ⟨client, hi, h⟩ := Option.bind_eq_some_iff.mp h
    cases hchunk : client.chunk with
    | some id =>
      rw [hchunk] at h
      cases h
    | none =>
      rw [hchunk] at h
      dsimp only at h
      split at h
      · cases h
        exact ⟨rfl, rfl, rfl, rfl, rfl, rfl, rfl⟩
      · cases h
        exact closeClient_same io i

theorem NetInv.client_write {again stays : Bool} {results : List SendResult} (h : NetInv io)
    (hw : extNetIoClientWrite i io again results = some (io', stays)) : NetInv io' := by
  induction results generalizing io again with
  | nil => cases hw
  | cons result results ih =>
    unfold extNetIoClientWrite at hw
    obtain ⟨client, hi, hw⟩ := Option.bind_eq_some_iff.mp hw
    obtain ⟨id, hid, hw⟩ := Option.bind_eq_some_iff.mp hw
    obtain ⟨chunk, hchunk, hw⟩ := Option.bind_eq_some_iff.mp hw
    have hmem : client ∈ io.clients := List.mem_of_getElem? hi
    have hok := h.clients client hmem
    have hin : chunk ∈ io.inits ++ io.events := List.mem_of_find?_eq_some hchunk
    have hcid : chunk.id = id := by simpa using List.find?_some hchunk
    subst hcid
    have hunique : ∀ d ∈ io.inits ++ io.events, d.id = chunk.id → d = chunk := by
      intro d hd heq
      have := h.findChunk_eq hd
      rw [heq, hchunk] at this
      exact (Option.some.inj this).symm
    obtain ⟨d, hd, hdid, hoff⟩ := hok.held hid
    cases hunique d hd hdid
    cases result with
    | sent n =>
      dsimp only at hw
      split at hw
      · cases hw
      · next hn =>
        have hadv := hok.advance hid hunique (Nat.not_lt.mp hn)
        split at hw
        · cases hw
          refine h.set_client hi hadv ?_
          funext k
          have hle : (if some chunk.id = some k then 1 else 0) ≤ io.consumers k := by
            rw [h.counted k]
            have := @countP_eraseIdx_add SendClient (fun x => x.chunk = some k) io.clients i client hi
            simp only [decide_eq_true_eq, hid] at this
            omega
          simp only [recount, hid]
          omega
        · next hfull =>
          have hend : client.offset + n = chunk.length := by
            omega
          have hmove := h.move_on hadv hid hin hend
          cases hafter : io.chunkAfter chunk.id with
          | none =>
            rw [hafter] at hw hmove
            cases hw
            refine h.set_client hi hmove ?_
            funext k
            simp only [recount, hid, NetIo.release]
            by_cases hk : k = chunk.id
            · subst hk
              simp
            · rw [Function.update_of_ne hk]
              simp [Ne.symm hk]
          | some next =>
            rw [hafter] at hw hmove
            dsimp only at hw hmove
            refine ih (h.set_client hi hmove ?_) hw
            funext k
            simp only [recount, hid, NetIo.release, NetIo.hold]
            by_cases hkn : k = next.id
            · subst hkn
              rw [Function.update_self]
              by_cases hkc : next.id = chunk.id
              · simp [hkc]
              · rw [Function.update_of_ne hkc]
                simp [Ne.symm hkc]
            · rw [Function.update_of_ne hkn]
              by_cases hkc : k = chunk.id
              · subst hkc
                simp [Ne.symm hkn]
              · rw [Function.update_of_ne hkc]
                simp [Ne.symm hkn, Ne.symm hkc]
    | _ =>
      cases hw
      exact h

theorem NetInv.accept (h : NetInv io) (ha : extNetIoDataServAccept io = some io') :
    NetInv io' := by
  unfold extNetIoDataServAccept at ha
  obtain ⟨chunk, hchunk, ha⟩ := Option.bind_eq_some_iff.mp ha
  cases ha
  obtain ⟨after, hinits⟩ : ∃ after, io.inits = chunk :: after := by
    cases hi : io.inits with
    | nil =>
      rw [hi] at hchunk
      cases hchunk
    | cons c after =>
      rw [hi] at hchunk
      cases hchunk
      exact ⟨after, rfl⟩
  have hnew : ClientOk io ⟨some chunk.id, 0, []⟩ := by
    refine .inl ⟨[], chunk, after, hinits, rfl, Nat.zero_le _, ?_⟩
    rw [← h.init_data, hinits, List.flatMap_cons]
    rfl
  exact { h with
    counted := by
      intro id
      show Function.update io.consumers chunk.id (io.consumers chunk.id + 1) id =
        (io.clients ++ [(⟨some chunk.id, 0, []⟩ : SendClient)]).countP fun x =>
          decide (x.chunk = some id)
      rw [List.countP_append]
      by_cases hid : id = chunk.id
      · subst hid
        rw [Function.update_self, h.counted]
        simp
      · rw [Function.update_of_ne hid, h.counted]
        simp [Ne.symm hid]
    clients := by
      intro x hx
      rcases List.mem_append.mp hx with hx | hx
      · exact (h.clients x hx).congr rfl rfl rfl rfl
      · rw [List.mem_singleton.mp hx]
        exact hnew.congr rfl rfl rfl rfl
    departed := fun sent hs => (h.departed sent hs).mono rfl (List.Sublist.refl _) }

theorem NetInv.shutdown_client {count : Nat} (h : NetInv io)
    (hs : netStep io (.shutdown i count) = some io') : NetInv io' := by
  simp only [netStep] at hs
  obtain ⟨client, hi, hs⟩ := Option.bind_eq_some_iff.mp hs
  cases hid : client.chunk with
  | some id =>
    rw [hid] at hs
    cases hs
  | none =>
    rw [hid] at hs
    dsimp only at hs
    split at hs
    · cases hs
      have hok := h.clients client (List.mem_of_getElem? hi)
      refine h.set_client hi ?_ ?_
      · unfold ClientOk at hok ⊢
        rw [hid] at hok
        exact hok
      · funext k
        simp [recount, hid]
    · cases hs
      exact h.close_client i

theorem reclaim_sublist (consumers : Nat → Nat) (needed : Nat) (chunks : List SendChunk)
    (eventLength : Nat) : (reclaim consumers needed chunks eventLength).1.Sublist chunks := by
  induction chunks generalizing eventLength with
  | nil => exact List.Sublist.refl _
  | cons c chunks ih =>
    unfold reclaim
    split
    · split
      · exact (ih _).trans (List.sublist_cons_self _ _)
      · exact (ih _).cons_cons _
    · exact List.Sublist.refl _

theorem reclaim_keeps {consumers : Nat → Nat} (needed : Nat) {before after : List SendChunk}
    {c : SendChunk} (hc : consumers c.id ≠ 0) (eventLength : Nat) :
    ∃ before' after', (reclaim consumers needed (before ++ c :: after) eventLength).1 =
      before' ++ c :: after' ∧ after'.Sublist after := by
  induction before generalizing eventLength with
  | nil =>
    rw [List.nil_append]
    unfold reclaim
    rw [if_neg hc]
    split
    · exact ⟨[], _, rfl, reclaim_sublist _ _ _ _⟩
    · exact ⟨[], after, rfl, List.Sublist.refl _⟩
  | cons d before ih =>
    rw [List.cons_append]
    unfold reclaim
    split
    · split
      · exact ih _
      · obtain ⟨before', after', he, hsub⟩ := ih eventLength
        refine ⟨d :: before', after', ?_, hsub⟩
        dsimp only
        rw [he]
        rfl
    · exact ⟨d :: before, after, rfl, List.Sublist.refl _⟩

theorem ClientOk.reclaimed (hok : ClientOk io client) {moreInits moreEvents : List SendChunk}
    (hkeep : ∀ id ∈ client.chunk, io.consumers id ≠ 0) {needed eventLength : Nat}
    (hi : io'.inits = io.inits ++ moreInits)
    (he : io'.events = (reclaim io.consumers needed io.events eventLength).1 ++ moreEvents)
    (hs : io'.setups = io.setups) (hm : io'.eventMsgs = io.eventMsgs)
    (hempty : moreInits.flatMap SendChunk.data = []) (hempty' : moreEvents.flatMap SendChunk.msgs = []) :
    ClientOk io' client := by
  unfold ClientOk at hok ⊢
  cases hid : client.chunk with
  | none =>
    rw [hid] at hok
    rw [hs, hm]
    exact hok
  | some id =>
    rw [hid] at hok
    rcases hok with ⟨before, c, after, heq, hc, hoff, hstream⟩ |
      ⟨before, c, after, own, heq, hc, hoff, hstream, hown⟩
    · refine .inl ⟨before, c, after ++ moreInits, ?_, hc, hoff, ?_⟩
      · rw [hi, heq]
        simp
      · rw [hs, List.flatMap_append, hempty, List.append_nil]
        exact hstream
    · have hcons := hkeep id hid
      rw [← hc] at hcons
      obtain ⟨before', after', hr, hsub⟩ :=
        @reclaim_keeps io.consumers needed before after c hcons eventLength
      refine .inr ⟨before', c, after' ++ moreEvents, own, ?_, hc, hoff, ?_, ?_⟩
      · rw [he, heq, hr]
        simp
      · rw [hs]
        exact hstream
      · rw [hm, List.flatMap_append, hempty', List.append_nil]
        exact ((hsub.flatMap _).append_left own).trans hown

theorem NetInv.consumers_pos (h : NetInv io) (hmem : client ∈ io.clients) :
    ∀ id ∈ client.chunk, io.consumers id ≠ 0 := by
  intro id hid
  rw [h.counted id]
  apply Nat.ne_of_gt
  apply List.countP_pos_iff.mpr
  exact ⟨client, hmem, decide_eq_true hid⟩

theorem NetInv.counted_fresh (h : NetInv io) (id : Nat) :
    Function.update io.consumers io.nextId 0 id =
      io.clients.countP fun x => x.chunk = some id := by
  by_cases hid : id = io.nextId
  · subst hid
    rw [Function.update_self]
    symm
    apply List.countP_eq_zero.mpr
    intro x hx
    simp only [decide_eq_true_eq]
    intro hchunk
    obtain ⟨c, hc, hcid, _⟩ := (h.clients x hx).held hchunk
    have := h.ids_lt c hc
    omega
  · rw [Function.update_of_ne hid]
    exact h.counted id

theorem NetInv.new_chunk (h : NetInv io) {allocSize : Nat} {initChunk : Bool}
    (hfirst : initChunk = true → NoEvents io) (hres : io.reserved = none) :
    NetInv (io.newChunk allocSize initChunk) := by
  have hsub := reclaim_sublist io.consumers (io.initLength + allocSize) io.events io.eventLength
  unfold NetIo.newChunk
  generalize hrec : reclaim io.consumers (io.initLength + allocSize) io.events io.eventLength = r at *
  dsimp only
  have hlt : ∀ c ∈ io.inits ++ r.1, c.id < io.nextId := by
    intro c hc
    apply h.ids_lt
    rcases List.mem_append.mp hc with hc | hc
    · exact List.mem_append_left _ hc
    · exact List.mem_append_right _ (hsub.mem hc)
  have hnodup : ((io.inits ++ r.1 ++
      [(⟨io.nextId, allocSize - sizeofSendItemChunk, []⟩ : SendChunk)]).map SendChunk.id).Nodup := by
    rw [List.map_append]
    refine List.nodup_append.mpr ⟨((hsub.append_left io.inits).map SendChunk.id).nodup h.ids,
      List.nodup_singleton _, ?_⟩
    intro a ha b hb
    obtain ⟨c, hc, rfl⟩ := List.mem_map.mp ha
    have := hlt c hc
    rw [List.mem_singleton.mp hb]
    show c.id ≠ io.nextId
    omega
  have hlt' : ∀ c ∈ io.inits ++ r.1 ++ [⟨io.nextId, allocSize - sizeofSendItemChunk, []⟩],
      c.id < io.nextId + 1 := by
    intro c hc
    rcases List.mem_append.mp hc with hc | hc
    · have := hlt c hc
      omega
    · rw [List.mem_singleton.mp hc]
      exact Nat.lt_succ_self _
  cases initChunk with
  | true =>
    obtain ⟨hev, hem⟩ := hfirst rfl
    have hnone : r.1 = [] := by
      rw [← hrec, hev]
      rfl
    simp only [if_true, hnone, List.append_nil] at hnodup hlt' ⊢
    exact {
      ids := by
        rw [List.append_nil]
        exact hnodup
      ids_lt := by
        rw [List.append_nil]
        exact hlt'
      init_data := by
        dsimp only
        rw [List.flatMap_append, h.init_data]
        exact List.append_nil _
      event_msgs := List.nil_sublist _
      counted := h.counted_fresh
      clients := by
        intro x hx
        refine @ClientOk.reclaimed io _ x (h.clients x hx) _ [] (h.consumers_pos hx)
          (io.initLength + allocSize) io.eventLength rfl ?_ rfl rfl rfl rfl
        rw [hrec, hnone]
        rfl
      departed := fun sent hs => (h.departed sent hs).mono rfl (List.Sublist.refl _)
      setup_first := by
        intro n hn
        rw [show _ = none from hres] at hn
        cases hn }
  | false =>
    simp only [Bool.false_eq_true, if_false]
    exact { h with
      ids := by
        dsimp only
        rw [← List.append_assoc]
        exact hnodup
      ids_lt := by
        dsimp only
        rw [← List.append_assoc]
        exact hlt'
      event_msgs := by
        dsimp only
        rw [List.flatMap_append]
        refine List.Sublist.trans ?_ h.event_msgs
        simpa using hsub.flatMap SendChunk.msgs
      counted := h.counted_fresh
      clients := by
        intro x hx
        refine @ClientOk.reclaimed io _ x (h.clients x hx) []
          [⟨io.nextId, allocSize - sizeofSendItemChunk, []⟩] (h.consumers_pos hx)
          (io.initLength + allocSize) io.eventLength (List.append_nil _).symm ?_ rfl rfl rfl rfl
        rw [hrec]
      departed := fun sent hs => (h.departed sent hs).mono rfl (List.Sublist.refl _)
      setup_first := by
        intro n hn
        rw [show _ = none from hres] at hn
        cases hn }

theorem NetInv.reserve {length : Nat} {initChunk : Bool} (h : NetInv io)
    (hres : io.reserved = none) (hfirst : initChunk = true → NoEvents io)
    (hr : extNetIoReserveChunk io length initChunk = some io') : NetInv io' := by
  unfold extNetIoReserveChunk at hr
  have hset : ∀ {x : NetIo}, NetInv x → (initChunk = true → NoEvents x) →
      NetInv { x with reserved := some (initChunk, length) } := by
    intro x hx hfx
    exact { hx with
      clients := fun c hc => (hx.clients c hc).congr rfl rfl rfl rfl
      departed := fun sent hs => (hx.departed sent hs).mono rfl (List.Sublist.refl _)
      setup_first := by
        rintro n hn
        cases hn
        exact hfx rfl }
  by_cases hroom : roomLeft (if initChunk then io.inits else io.events) length = true
  · rw [if_pos hroom] at hr
    cases hr
    exact hset h hfirst
  · rw [if_neg hroom] at hr
    split at hr
    · cases hr
    · cases hr
      refine hset (h.new_chunk hfirst hres) ?_
      rintro rfl
      obtain ⟨hev, hem⟩ := hfirst rfl
      refine ⟨?_, hem⟩
      simp only [NetIo.newChunk, if_true, hev]
      rfl

theorem appendMsg_last (msg : List UInt8) (pre : List SendChunk) (c : SendChunk) :
    appendMsg msg (pre ++ [c]) = pre ++ [{ c with msgs := c.msgs ++ [msg] }] := by
  induction pre with
  | nil => rfl
  | cons d pre ih =>
    cases pre with
    | nil => rfl
    | cons e pre =>
      show d :: appendMsg msg (e :: pre ++ [c]) = _
      rw [ih]
      rfl

theorem split_last {pre before after : List SendChunk} {c d : SendChunk}
    (h : pre ++ [c] = before ++ d :: after) :
    (after = [] ∧ before = pre ∧ d = c) ∨
      ∃ rest, after = rest ++ [c] ∧ pre = before ++ d :: rest := by
  rcases List.eq_nil_or_concat after with rfl | ⟨rest, e, rfl⟩
  · obtain ⟨h1, h2⟩ := List.append_inj' h rfl
    cases h2
    exact .inl ⟨rfl, h1.symm, rfl⟩
  · have h' : pre ++ [c] = (before ++ d :: rest) ++ [e] := by
      rw [h]
      simp
    obtain ⟨h1, h2⟩ := List.append_inj' h' rfl
    cases h2
    exact .inr ⟨rest, List.concat_eq_append, h1⟩

theorem data_snoc (c : SendChunk) (msg : List UInt8) :
    SendChunk.data { c with msgs := c.msgs ++ [msg] } = c.data ++ msg := by
  simp [SendChunk.data]

theorem countP_restart (clients : List SendClient) (chunk : SendChunk) (id : Nat) :
    (clients.map (SendClient.restart chunk)).countP (fun x => x.chunk = some id) =
      clients.countP (fun x => x.chunk = some id) +
        if chunk.id = id then clients.countP (fun x => x.chunk = none) else 0 := by
  induction clients with
  | nil => simp
  | cons x clients ih =>
    rw [List.map_cons, List.countP_cons, List.countP_cons, List.countP_cons, ih]
    cases hx : x.chunk with
    | none | some k =>
      simp only [SendClient.restart, hx]
      by_cases hid : chunk.id = id
      · simp [hid]
        omega
      · simp [hid]

theorem NetInv.counted_restart (h : NetInv io) (chunk : SendChunk) (id : Nat) :
    Function.update io.consumers chunk.id
        (io.consumers chunk.id + io.clients.countP fun x => x.chunk = none) id =
      (io.clients.map (SendClient.restart chunk)).countP fun x => x.chunk = some id := by
  rw [countP_restart]
  by_cases hid : chunk.id = id
  · subst hid
    rw [Function.update_self, if_pos rfl, h.counted]
  · rw [Function.update_of_ne (Ne.symm hid), if_neg hid, h.counted]
    rfl

theorem ClientOk.commit_init (hok : ClientOk io client) (hno : NoEvents io)
    {pre : List SendChunk} {c : SendChunk} {msg : List UInt8} (hl : io.inits = pre ++ [c])
    (hi : io'.inits = appendMsg msg io.inits) (hs : io'.setups = io.setups ++ [msg]) :
    ClientOk io' (client.restart c) := by
  have hflat : io'.setups.flatten = io.setups.flatten ++ msg := by
    rw [hs]
    simp
  have hinits : io'.inits = pre ++ [{ c with msgs := c.msgs ++ [msg] }] := by
    rw [hi, hl, appendMsg_last]
  unfold ClientOk at hok
  cases hid : client.chunk with
  | none =>
    rw [hid] at hok
    obtain ⟨own, hown, hsent⟩ := hok
    rw [hno.2, List.sublist_nil] at hown
    subst hown
    have hrestart : client.restart c = { client with chunk := some c.id, offset := c.length } := by
      simp [SendClient.restart, hid]
    rw [hrestart]
    refine .inl ⟨pre, _, [], hinits, rfl, ?_, ?_⟩
    · show c.length ≤ (SendChunk.data _).length
      rw [data_snoc, List.length_append]
      exact Nat.le_add_right _ _
    · rw [data_snoc, hflat, hsent]
      show _ ++ List.drop c.data.length (c.data ++ msg) ++ [] = _
      rw [List.drop_left]
      simp
  | some id =>
    rw [hid] at hok
    have hrestart : client.restart c = client := by simp [SendClient.restart, hid]
    rw [hrestart]
    unfold ClientOk
    rw [hid]
    rcases hok with ⟨before, d, after, heq, hd, hoff, hstream⟩ | ⟨before, d, after, own, heq, _⟩
    · rw [hl] at heq
      rcases split_last heq with ⟨rfl, rfl, rfl⟩ | ⟨rest, rfl, rfl⟩
      · refine .inl ⟨before, _, [], hinits, hd, ?_, ?_⟩
        · show client.offset ≤ (SendChunk.data _).length
          rw [data_snoc, List.length_append]
          exact Nat.le_trans hoff (Nat.le_add_right _ _)
        · rw [data_snoc, List.drop_append_of_le_length hoff, hflat, ← hstream]
          simp
      · refine .inl ⟨before, d, rest ++ [{ c with msgs := c.msgs ++ [msg] }], ?_, hd, hoff, ?_⟩
        · rw [hinits]
          simp
        · rw [hflat, ← hstream, List.flatMap_append, List.flatMap_append]
          simp [data_snoc]
    · rw [hno.1] at heq
      simp at heq

theorem ClientOk.commit_event (hok : ClientOk io client)
    {pre : List SendChunk} {c : SendChunk} {msg : List UInt8} (hl : io.events = pre ++ [c])
    (hi : io'.inits = io.inits) (he : io'.events = appendMsg msg io.events)
    (hs : io'.setups = io.setups) (hm : io'.eventMsgs = io.eventMsgs ++ [msg]) :
    ClientOk io' (client.restart c) := by
  have hevents : io'.events = pre ++ [{ c with msgs := c.msgs ++ [msg] }] := by
    rw [he, hl, appendMsg_last]
  unfold ClientOk at hok
  cases hid : client.chunk with
  | none =>
    rw [hid] at hok
    obtain ⟨own, hown, hsent⟩ := hok
    have hrestart : client.restart c = { client with chunk := some c.id, offset := c.length } := by
      simp [SendClient.restart, hid]
    rw [hrestart]
    refine .inr ⟨pre, _, [], own ++ [msg], hevents, rfl, ?_, ?_, ?_⟩
    · show c.length ≤ (SendChunk.data _).length
      rw [data_snoc, List.length_append]
      exact Nat.le_add_right _ _
    · rw [data_snoc, hs, hsent]
      show _ ++ List.drop c.data.length (c.data ++ msg) = _
      rw [List.drop_left]
      simp
    · rw [hm]
      simpa using hown.append_right [msg]
  | some id =>
    rw [hid] at hok
    have hrestart : client.restart c = client := by simp [SendClient.restart, hid]
    rw [hrestart]
    unfold ClientOk
    rw [hid]
    rcases hok with ⟨before, d, after, heq, hd, hoff, hstream⟩ |
      ⟨before, d, after, own, heq, hd, hoff, hstream, hown⟩
    · refine .inl ⟨before, d, after, ?_, hd, hoff, ?_⟩
      · rw [hi]
        exact heq
      · rw [hs]
        exact hstream
    · rw [hl] at heq
      rcases split_last heq with ⟨rfl, rfl, rfl⟩ | ⟨rest, rfl, rfl⟩
      · refine .inr ⟨before, _, [], own ++ [msg], hevents, hd, ?_, ?_, ?_⟩
        · show client.offset ≤ (SendChunk.data _).length
          rw [data_snoc, List.length_append]
          exact Nat.le_trans hoff (Nat.le_add_right _ _)
        · rw [data_snoc, List.drop_append_of_le_length hoff, hs, ← List.append_assoc, hstream]
          simp
        · rw [hm]
          simpa using hown.append_right [msg]
      · refine .inr ⟨before, d, rest ++ [{ c with msgs := c.msgs ++ [msg] }], own, ?_, hd, hoff,
          ?_, ?_⟩
        · rw [hevents]
          simp
        · rw [hs]
          exact hstream
        · rw [hm]
          simpa using hown.append_right [msg]

theorem appendMsg_ids (msg : List UInt8) (chunks : List SendChunk) :
    (appendMsg msg chunks).map SendChunk.id = chunks.map SendChunk.id := by
  rcases List.eq_nil_or_concat chunks with rfl | ⟨pre, c, rfl⟩
  · rfl
  · rw [List.concat_eq_append, appendMsg_last]
    simp

theorem ids_lt_of_ids {chunks chunks' : List SendChunk} {n : Nat}
    (he : chunks'.map SendChunk.id = chunks.map SendChunk.id)
    (h : ∀ c ∈ chunks, c.id < n) : ∀ c ∈ chunks', c.id < n := by
  intro c hc
  have hmem : c.id ∈ chunks.map SendChunk.id := by
    rw [← he]
    exact List.mem_map_of_mem hc
  obtain ⟨d, hd, hdc⟩ := List.mem_map.mp hmem
  rw [← hdc]
  exact h d hd

def NetIo.commit (io : NetIo) (initChunk : Bool) (chunk : SendChunk) (msg : List UInt8) : NetIo :=
  { io with
    inits := if initChunk then appendMsg msg io.inits else io.inits
    events := if initChunk then io.events else appendMsg msg io.events
    setups := if initChunk then io.setups ++ [msg] else io.setups
    eventMsgs := if initChunk then io.eventMsgs else io.eventMsgs ++ [msg]
    consumers := Function.update io.consumers chunk.id
      (io.consumers chunk.id + io.clients.countP fun client => client.chunk = none)
    clients := io.clients.map (SendClient.restart chunk)
    reserved := none }

theorem commitChunk_cases {msg : List UInt8} (h : extNetIoCommitChunk io msg = some io') :
    ∃ initChunk length chunk, io.reserved = some (initChunk, length) ∧ msg.length ≤ length ∧
      (if initChunk then io.inits else io.events).getLast? = some chunk ∧
      io' = io.commit initChunk chunk msg := by
  unfold extNetIoCommitChunk at h
  obtain ⟨⟨initChunk, length⟩, hres, h⟩ := Option.bind_eq_some_iff.mp h
  obtain ⟨chunk, hlast, h⟩ := Option.bind_eq_some_iff.mp h
  dsimp only at h
  split at h
  · cases h
  · next hmsg =>
    simp only [Bool.or_eq_true, decide_eq_true_eq, not_or, Nat.not_lt] at hmsg
    exact ⟨initChunk, length, chunk, hres, hmsg.1, hlast, (Option.some.inj h).symm⟩

theorem NetInv.commit {msg : List UInt8} (h : NetInv io)
    (hc : extNetIoCommitChunk io msg = some io') : NetInv io' := by
  obtain ⟨initChunk, length, chunk, hres, -, hlast, rfl⟩ := commitChunk_cases hc
  unfold NetIo.commit
  cases initChunk with
  | true =>
    have hno := h.setup_first length hres
    obtain ⟨pre, hl⟩ := List.getLast?_eq_some_iff.mp (show io.inits.getLast? = some chunk from hlast)
    have hids : (appendMsg msg io.inits ++ io.events).map SendChunk.id =
        (io.inits ++ io.events).map SendChunk.id := by
      rw [List.map_append, List.map_append, appendMsg_ids]
    simp only [if_true]
    exact { h with
      ids := by
        dsimp only
        rw [hids]
        exact h.ids
      ids_lt := ids_lt_of_ids hids h.ids_lt
      init_data := by
        have hd := h.init_data
        dsimp only
        rw [hl] at hd ⊢
        rw [appendMsg_last, List.flatten_append, ← hd]
        simp [data_snoc]
      counted := h.counted_restart chunk
      clients := by
        intro x hx
        obtain ⟨y, hy, rfl⟩ := List.mem_map.mp hx
        exact (h.clients y hy).commit_init hno hl rfl rfl
      departed := by
        intro sent hs
        obtain ⟨own, hown, hpre⟩ := h.departed sent hs
        rw [hno.2, List.sublist_nil] at hown
        subst hown
        refine ⟨[], List.nil_sublist _, ?_⟩
        show sent <+: (io.setups ++ [msg]).flatten ++ _
        rw [List.flatten_append, List.append_assoc]
        exact hpre.trans (by simp)
      setup_first := by
        rintro n ⟨⟩ }
  | false =>
    obtain ⟨pre, hl⟩ := List.getLast?_eq_some_iff.mp (show io.events.getLast? = some chunk from hlast)
    have hids : (io.inits ++ appendMsg msg io.events).map SendChunk.id =
        (io.inits ++ io.events).map SendChunk.id := by
      rw [List.map_append, List.map_append, appendMsg_ids]
    simp only [Bool.false_eq_true, if_false]
    exact { h with
      ids := by
        dsimp only
        rw [hids]
        exact h.ids
      ids_lt := ids_lt_of_ids hids h.ids_lt
      event_msgs := by
        have hm := h.event_msgs
        dsimp only
        rw [hl] at hm ⊢
        rw [appendMsg_last]
        simpa using hm.append_right [msg]
      counted := h.counted_restart chunk
      clients := by
        intro x hx
        obtain ⟨y, hy, rfl⟩ := List.mem_map.mp hx
        exact (h.clients y hy).commit_event hl rfl rfl rfl rfl
      departed := fun sent hs =>
        (h.departed sent hs).mono rfl (List.sublist_append_left _ _)
      setup_first := by
        rintro n ⟨⟩ }

end NetSteps

end Ucesb
