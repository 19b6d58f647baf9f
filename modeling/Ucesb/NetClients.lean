import Ucesb.Pieces
import Ucesb.Runs
import Mathlib.Data.List.Nodup
import Mathlib.Data.List.Infix
import Mathlib.Data.List.TakeWhile
import Mathlib.Logic.Function.Basic

namespace Ucesb

/-- `send_item_chunk`: the data that have been committed, message by message. -/
structure SendChunk where
  id : Nat
  alloc : Nat
  msgs : List (List UInt8)
deriving DecidableEq

def SendChunk.data (c : SendChunk) : List UInt8 := c.msgs.flatten

def SendChunk.length (c : SendChunk) : Nat := c.data.length

/-- `send_client`, and what has been sent to it. -/
structure SendClient where
  chunk : Option Nat
  offset : Nat
  sent : List UInt8
deriving DecidableEq

/-- `_init_chunks`, `_event_chunks` and `_ext_net_clients`. The chunk that has been reserved is the
last one of its list; the last fields record the messages committed, and the bytes that were sent
to clients that are gone. -/
structure NetIo where
  inits : List SendChunk
  events : List SendChunk
  initLength : Nat
  eventLength : Nat
  consumers : Nat → Nat
  nextId : Nat
  clients : List SendClient
  reserved : Option (Bool × Nat)
  setups : List (List UInt8)
  eventMsgs : List (List UInt8)
  departed : List (List UInt8)

def netInit : NetIo where
  inits := []
  events := []
  initLength := 0
  eventLength := 0
  consumers := fun _ => 0
  nextId := 0
  clients := []
  reserved := none
  setups := []
  eventMsgs := []
  departed := []

def maxBufferMemory : Nat := 0x01000000
def sizeofSendItemChunk : Nat := 40

/-- Chunks without a consumer are taken out of the list until there is memory enough. -/
def reclaim (consumers : Nat → Nat) (needed : Nat) : List SendChunk → Nat → List SendChunk × Nat
  | [], eventLength => ([], eventLength)
  | c :: chunks, eventLength =>
    if eventLength + needed > maxBufferMemory then
      if consumers c.id = 0 then
        reclaim consumers needed chunks
          ((eventLength + 2 ^ 64 - (sizeofSendItemChunk + c.length)) % 2 ^ 64)
      else
        let r := reclaim consumers needed chunks eventLength
        (c :: r.1, r.2)
    else (c :: chunks, eventLength)

def roomLeft (chunks : List SendChunk) (length : Nat) : Bool :=
  match chunks.getLast? with
  | none => false
  | some c => c.alloc - c.length ≥ length

def NetIo.newChunk (io : NetIo) (allocSize : Nat) (initChunk : Bool) : NetIo :=
  let r := reclaim io.consumers (io.initLength + allocSize) io.events io.eventLength
  let chunk : SendChunk := ⟨io.nextId, allocSize - sizeofSendItemChunk, []⟩
  { io with
    inits := if initChunk then io.inits ++ [chunk] else io.inits
    events := if initChunk then r.1 else r.1 ++ [chunk]
    initLength := if initChunk then io.initLength + allocSize else io.initLength
    eventLength := if initChunk then r.2 else r.2 + allocSize
    consumers := Function.update io.consumers io.nextId 0
    nextId := io.nextId + 1 }

def extNetIoReserveChunk (io : NetIo) (length : Nat) (initChunk : Bool) : Option NetIo :=
  if roomLeft (if initChunk then io.inits else io.events) length then
    some { io with reserved := some (initChunk, length) }
  else if length % 4 ≠ 0 then none
  else
    let allocSize := max (sizeofSendItemChunk + length * 4) 0x10000
    some { io.newChunk allocSize initChunk with reserved := some (initChunk, length) }

def appendMsg (msg : List UInt8) : List SendChunk → List SendChunk
  | [] => []
  | [c] => [{ c with msgs := c.msgs ++ [msg] }]
  | c :: d :: chunks => c :: appendMsg msg (d :: chunks)

def SendClient.restart (chunk : SendChunk) (client : SendClient) : SendClient :=
  match client.chunk with
  | none => { client with chunk := some chunk.id, offset := chunk.length }
  | some _ => client

def extNetIoCommitChunk (io : NetIo) (msg : List UInt8) : Option NetIo := do
  let (initChunk, length) ← io.reserved
  let chunk ← (if initChunk then io.inits else io.events).getLast?
  if msg.length > length || msg.length % 4 ≠ 0 then none
  else
    let idle := io.clients.countP fun client => client.chunk = none
    some { io with
      inits := if initChunk then appendMsg msg io.inits else io.inits
      events := if initChunk then io.events else appendMsg msg io.events
      setups := if initChunk then io.setups ++ [msg] else io.setups
      eventMsgs := if initChunk then io.eventMsgs else io.eventMsgs ++ [msg]
      consumers := Function.update io.consumers chunk.id (io.consumers chunk.id + idle)
      clients := io.clients.map (SendClient.restart chunk)
      reserved := none }

/-- `ext_net_io_data_serv_accept`; there has to be set-up data. -/
def extNetIoDataServAccept (io : NetIo) : Option NetIo := do
  let chunk ← io.inits.head?
  return { io with
    consumers := Function.update io.consumers chunk.id (io.consumers chunk.id + 1)
    clients := io.clients ++ [⟨some chunk.id, 0, []⟩] }

inductive SendResult
  | sent (n : Nat)
  | eintr
  | eagain
  | error
deriving DecidableEq

/-- `_chunk->_next`, from the list of set-up chunks to the list of event chunks. -/
def NetIo.chunkAfter (io : NetIo) (id : Nat) : Option SendChunk :=
  match io.inits.dropWhile fun c => c.id ≠ id with
  | _ :: c :: _ => some c
  | [_] => io.events.head?
  | [] =>
    match io.events.dropWhile fun c => c.id ≠ id with
    | _ :: c :: _ => some c
    | _ => none

def NetIo.findChunk (io : NetIo) (id : Nat) : Option SendChunk :=
  (io.inits ++ io.events).find? fun c => c.id = id

def NetIo.setClient (io : NetIo) (i : Nat) (client : SendClient) : NetIo :=
  { io with clients := io.clients.set i client }

def NetIo.release (io : NetIo) (id : Nat) : NetIo :=
  { io with consumers := Function.update io.consumers id (io.consumers id - 1) }

def NetIo.hold (io : NetIo) (id : Nat) : NetIo :=
  { io with consumers := Function.update io.consumers id (io.consumers id + 1) }

/-- `ext_net_io_client_write`, for the results of the calls of `send`; it returns whether the client
stays. -/
def extNetIoClientWrite (i : Nat) : NetIo → Bool → List SendResult → Option (NetIo × Bool)
  | _, _, [] => none
  | io, again, result :: results => do
    let client ← io.clients[i]?
    let id ← client.chunk
    let chunk ← io.findChunk id
    match result with
    | .eintr => some (io, true)
    | .eagain => some (io, again)
    | .error => some (io, false)
    | .sent n =>
      if n > chunk.length - client.offset then none
      else
        let client := { client with
          sent := client.sent ++ slice chunk.data client.offset n
          offset := client.offset + n }
        if client.offset < chunk.length then some (io.setClient i client, true)
        else
          match io.chunkAfter id with
          | none =>
            some ((io.release id).setClient i { client with chunk := none, offset := 0 }, true)
          | some next =>
            extNetIoClientWrite i (((io.release id).hold next.id).setClient i
              { client with chunk := some next.id, offset := 0 }) true results

def NetIo.closeClient (io : NetIo) (i : Nat) : NetIo :=
  match io.clients[i]? with
  | none => io
  | some client =>
    let io := match client.chunk with
      | none => io
      | some id => io.release id
    { io with
      clients := io.clients.eraseIdx i
      departed := io.departed ++ [client.sent] }

/-- What `ext_net_io_select_clients` does for a client whose socket is ready. With nothing to send,
only on shutdown: `count` bytes have been read from it, 0 if it has closed the connection. -/
inductive NetAct
  | reserve (length : Nat) (initChunk : Bool)
  | commit (msg : List UInt8)
  | accept
  | write (i : Nat) (results : List SendResult)
  | shutdown (i : Nat) (count : Nat)

def netStep (io : NetIo) : NetAct → Option NetIo
  | .reserve length initChunk =>
    match io.reserved with
    | none => extNetIoReserveChunk io length initChunk
    | some _ => none
  | .commit msg => extNetIoCommitChunk io msg
  | .accept => extNetIoDataServAccept io
  | .write i results => do
    let (io, stays) ← extNetIoClientWrite i io false results
    return if stays then io else io.closeClient i
  | .shutdown i count => do
    let client ← io.clients[i]?
    match client.chunk with
    | some _ => none
    | none =>
      if 0 < count ∧ client.offset + count ≤ 4 then
        return io.setClient i { client with offset := client.offset + count }
      else return io.closeClient i

/-- In the set-up chunks, the rest of them completes the set-up messages. -/
def InitAt (io : NetIo) (client : SendClient) (id : Nat) : Prop :=
  ∃ before c after, io.inits = before ++ c :: after ∧ c.id = id ∧ client.offset ≤ c.length ∧
    client.sent ++ c.data.drop client.offset ++ after.flatMap SendChunk.data = io.setups.flatten

/-- In the event chunks, the rest of the chunk completes some messages, and what follows them is
still to come. -/
def EventAt (io : NetIo) (client : SendClient) (id : Nat) : Prop :=
  ∃ before c after own, io.events = before ++ c :: after ∧ c.id = id ∧ client.offset ≤ c.length ∧
    client.sent ++ c.data.drop client.offset = io.setups.flatten ++ own.flatten ∧
    (own ++ after.flatMap SendChunk.msgs).Sublist io.eventMsgs

def ClientOk (io : NetIo) (client : SendClient) : Prop :=
  match client.chunk with
  | none => ∃ own : List (List UInt8), own.Sublist io.eventMsgs ∧
      client.sent = io.setups.flatten ++ own.flatten
  | some id => InitAt io client id ∨ EventAt io client id

/-- The bytes are whole set-up messages and then some of the event messages, as far as sent. -/
def WholeMessages (io : NetIo) (sent : List UInt8) : Prop :=
  ∃ own : List (List UInt8), own.Sublist io.eventMsgs ∧ sent <+: io.setups.flatten ++ own.flatten

def NoEvents (io : NetIo) : Prop := io.events = [] ∧ io.eventMsgs = []

structure NetInv (io : NetIo) : Prop where
  ids : ((io.inits ++ io.events).map SendChunk.id).Nodup
  ids_lt : ∀ c ∈ io.inits ++ io.events, c.id < io.nextId
  init_data : io.inits.flatMap SendChunk.data = io.setups.flatten
  event_msgs : (io.events.flatMap SendChunk.msgs).Sublist io.eventMsgs
  counted : ∀ id, io.consumers id = io.clients.countP fun client => client.chunk = some id
  clients : ∀ client ∈ io.clients, ClientOk io client
  departed : ∀ sent ∈ io.departed, WholeMessages io sent
  setup_first : ∀ length, io.reserved = some (true, length) → NoEvents io

section Net

variable {io io' : NetIo} {client : SendClient} {id : Nat}

theorem netInit_inv : NetInv netInit := by
  constructor
  · exact List.nodup_nil
  · intro c hc
    cases hc
  · rfl
  · exact List.Sublist.refl _
  · intro id
    rfl
  · intro client hc
    cases hc
  · intro sent hs
    cases hs
  · intro length h
    cases h

theorem ClientOk.whole (h : ClientOk io client) : WholeMessages io client.sent := by
  unfold ClientOk at h
  split at h
  · obtain ⟨own, hown, hsent⟩ := h
    refine ⟨own, hown, ?_⟩
    rw [hsent]
  · rcases h with ⟨before, c, after, _, _, _, hstream⟩ |
      ⟨before, c, after, own, _, _, _, hstream, hown⟩
    · refine ⟨[], List.nil_sublist _, ?_⟩
      rw [← hstream, List.append_assoc, List.append_assoc]
      exact List.prefix_append _ _
    · refine ⟨own, (List.sublist_append_left _ _).trans hown, ?_⟩
      rw [← hstream]
      exact List.prefix_append _ _

theorem ClientOk.held (h : ClientOk io client) (hid : client.chunk = some id) :
    ∃ c ∈ io.inits ++ io.events, c.id = id ∧ client.offset ≤ c.length := by
  unfold ClientOk at h
  rw [hid] at h
  rcases h with ⟨before, c, after, he, hc, hoff, _⟩ | ⟨before, c, after, own, he, hc, hoff, _⟩
  · refine ⟨c, ?_, hc, hoff⟩
    rw [he]
    simp
  · refine ⟨c, ?_, hc, hoff⟩
    rw [he]
    simp

theorem ClientOk.congr (h : ClientOk io client) (hi : io'.inits = io.inits)
    (he : io'.events = io.events) (hs : io'.setups = io.setups)
    (hm : io'.eventMsgs = io.eventMsgs) : ClientOk io' client := by
  unfold ClientOk InitAt EventAt at *
  rw [hi, he, hs, hm]
  exact h

theorem WholeMessages.mono {sent : List UInt8} (h : WholeMessages io sent)
    (hs : io'.setups = io.setups) (hm : io.eventMsgs.Sublist io'.eventMsgs) :
    WholeMessages io' sent := by
  obtain ⟨own, hown, hpre⟩ := h
  refine ⟨own, hown.trans hm, ?_⟩
  rw [hs]
  exact hpre

theorem find_chunk {chunks : List SendChunk} (h : (chunks.map SendChunk.id).Nodup)
    {c : SendChunk} (hc : c ∈ chunks) : (chunks.find? fun d => d.id = c.id) = some c := by
  induction chunks with
  | nil => cases hc
  | cons d chunks ih =>
    obtain ⟨hnot, hrest⟩ := List.nodup_cons.mp h
    rcases List.mem_cons.mp hc with rfl | hc
    · rw [List.find?_cons_of_pos (by simp)]
    · have hne : d.id ≠ c.id := by
        intro heq
        apply hnot
        rw [heq]
        exact List.mem_map_of_mem hc
      rw [List.find?_cons_of_neg (by simpa using hne)]
      exact ih hrest hc

theorem dropWhile_chunk {before after : List SendChunk} {c : SendChunk}
    (h : ((before ++ c :: after).map SendChunk.id).Nodup) :
    (before ++ c :: after).dropWhile (fun d => d.id ≠ c.id) = c :: after := by
  induction before with
  | nil => simp
  | cons d before ih =>
    obtain ⟨hnot, hrest⟩ := List.nodup_cons.mp h
    have hne : d.id ≠ c.id := by
      intro heq
      apply hnot
      rw [heq]
      exact List.mem_map_of_mem (by simp)
    rw [List.cons_append, List.dropWhile_cons_of_pos (by simpa using hne)]
    exact ih hrest

theorem dropWhile_none {chunks : List SendChunk} (h : ∀ d ∈ chunks, d.id ≠ id) :
    chunks.dropWhile (fun d => d.id ≠ id) = [] := by
  apply List.dropWhile_eq_nil_iff.mpr
  intro d hd
  exact decide_eq_true (h d hd)

theorem NetInv.inits_nodup (h : NetInv io) : (io.inits.map SendChunk.id).Nodup := by
  have := h.ids
  rw [List.map_append] at this
  exact (List.nodup_append.mp this).1

theorem NetInv.events_nodup (h : NetInv io) : (io.events.map SendChunk.id).Nodup := by
  have := h.ids
  rw [List.map_append] at this
  exact (List.nodup_append.mp this).2.1

theorem NetInv.apart (h : NetInv io) {c d : SendChunk} (hc : c ∈ io.inits) (hd : d ∈ io.events) :
    c.id ≠ d.id := by
  have := h.ids
  rw [List.map_append] at this
  exact (List.nodup_append.mp this).2.2 _ (List.mem_map_of_mem hc) _ (List.mem_map_of_mem hd)

theorem NetInv.findChunk_eq (h : NetInv io) {c : SendChunk} (hc : c ∈ io.inits ++ io.events) :
    io.findChunk c.id = some c := find_chunk h.ids hc

theorem NetInv.move_on (h : NetInv io) {c : SendChunk} (hok : ClientOk io client)
    (hid : client.chunk = some c.id) (hc : c ∈ io.inits ++ io.events)
    (hend : client.offset = c.length) :
    match io.chunkAfter c.id with
    | none => ClientOk io { client with chunk := none, offset := 0 }
    | some next => ClientOk io { client with chunk := some next.id, offset := 0 } := by
  unfold ClientOk at hok
  rw [hid] at hok
  have hdrop : ∀ d : SendChunk, d = c → d.data.drop client.offset = [] := by
    intro d hd
    rw [hd, hend]
    exact List.drop_length
  rcases hok with ⟨before, d, after, he, hd, _, hstream⟩ |
    ⟨before, d, after, own, he, hd, _, hstream, hown⟩
  · have hdc : d = c := by
      have h1 := @NetInv.findChunk_eq io h d (by rw [he]; simp)
      rw [hd, h.findChunk_eq hc] at h1
      exact (Option.some.inj h1).symm
    subst hdc
    have hdw := @dropWhile_chunk before after d (by rw [← he]; exact h.inits_nodup)
    rw [hdrop d rfl, List.append_nil] at hstream
    unfold NetIo.chunkAfter
    rw [he, hdw]
    cases after with
    | cons next after =>
      refine .inl ⟨before ++ [d], next, after, ?_, rfl, Nat.zero_le _, ?_⟩
      · rw [he]
        simp
      · rw [List.flatMap_cons, ← List.append_assoc] at hstream
        exact hstream
    | nil =>
      have hsent : client.sent = io.setups.flatten := by
        simpa using hstream
      cases hev : io.events with
      | nil => exact ⟨[], List.nil_sublist _, by simpa using hsent⟩
      | cons e rest =>
        have hmsgs := h.event_msgs
        rw [hev] at hmsgs
        refine .inr ⟨[], e, rest, e.msgs, hev, rfl, Nat.zero_le _, ?_, ?_⟩
        · show client.sent ++ e.data = _
          rw [hsent]
          rfl
        · simpa using hmsgs
  · have hdc : d = c := by
      have h1 := @NetInv.findChunk_eq io h d (by rw [he]; simp)
      rw [hd, h.findChunk_eq hc] at h1
      exact (Option.some.inj h1).symm
    subst hdc
    have hdw := @dropWhile_chunk before after d (by rw [← he]; exact h.events_nodup)
    have hnone : io.inits.dropWhile (fun x => x.id ≠ d.id) = [] :=
      dropWhile_none fun x hx => h.apart hx (by rw [he]; simp)
    rw [hdrop d rfl, List.append_nil] at hstream
    unfold NetIo.chunkAfter
    rw [hnone, he, hdw]
    cases after with
    | cons next after =>
      refine .inr ⟨before ++ [d], next, after, own ++ next.msgs, ?_, rfl, Nat.zero_le _, ?_, ?_⟩
      · rw [he]
        simp
      · show client.sent ++ next.data = _
        rw [hstream, List.flatten_append, List.append_assoc]
        rfl
      · rw [List.flatMap_cons, ← List.append_assoc] at hown
        exact hown
    | nil =>
      refine ⟨own, ?_, hstream⟩
      simpa using hown

theorem ClientOk.advance (hok : ClientOk io client) {c : SendChunk}
    (hid : client.chunk = some c.id) (hfind : ∀ d ∈ io.inits ++ io.events, d.id = c.id → d = c)
    {n : Nat} (hn : n ≤ c.length - client.offset) :
    ClientOk io { client with
      sent := client.sent ++ slice c.data client.offset n
      offset := client.offset + n } := by
  have hsplit : slice c.data client.offset n ++ c.data.drop (client.offset + n) =
      c.data.drop client.offset := by
    rw [slice, ← List.drop_drop, List.take_append_drop]
  unfold ClientOk at hok ⊢
  dsimp only
  rw [hid] at hok ⊢
  rcases hok with ⟨before, d, after, he, hd, hoff, hstream⟩ |
    ⟨before, d, after, own, he, hd, hoff, hstream, hown⟩
  · have hdc := hfind d (by rw [he]; simp) hd
    subst hdc
    refine .inl ⟨before, d, after, he, hd, ?_, ?_⟩
    · dsimp only
      omega
    · dsimp only
      rw [List.append_assoc client.sent, hsplit]
      exact hstream
  · have hdc := hfind d (by rw [he]; simp) hd
    subst hdc
    refine .inr ⟨before, d, after, own, he, hd, ?_, ?_, hown⟩
    · dsimp only
      omega
    · dsimp only
      rw [List.append_assoc client.sent, hsplit]
      exact hstream

end Net

end Ucesb
