import Ucesb.ClientFetchSafe
import Ucesb.NetServer
import Ucesb.PipeFraming

namespace Ucesb

/-- A client with a buffer of this size can take the message. -/
structure Receivable (alloc : Nat) (m : List UInt8) : Prop where
  header : 8 ≤ m.length
  space : m.length ≤ alloc
  length : headerLength m = m.length
  magic : headerRequest m &&& externalWriterRequestHiMask = externalWriterRequestHiMagic
  aligned : headerLength m &&& 3 = 0

/-- `ext_data_peek_message` again and again, each message being used up, until it fails. -/
def receiveMessages : Nat → Receive → List Message
  | 0, _ => []
  | n + 1, r =>
    match extDataPeekMessage r with
    | .error _ => []
    | .ok (m, r') => m :: receiveMessages n (r'.consume m.length)

section Receive

variable {r : Receive} {m rest : List UInt8}

theorem arrived_of_receivable (h : Receivable r.alloc m) (hstream : r.stream = m ++ rest) :
    Arrived r.alloc r.stream := by
  have hlength := @headerLength_append m rest h.header
  have hheader := h.header
  have hspace := h.space
  rw [h.length] at hlength
  rw [hstream]
  refine ⟨⟨by omega, by omega⟩, ?_, ?_, ?_⟩
  · rw [hlength, List.length_append]
    omega
  · rw [headerRequest, frontWord_append (by omega)]
    exact h.magic
  · rw [hlength, ← h.length]
    exact h.aligned

theorem receiveMessages_receivable (h : Receivable r.alloc m) (hstream : r.stream = m ++ rest)
    (n : Nat) : ∃ r', receiveMessages (n + 1) r = messageAt m :: receiveMessages n r' ∧
      r'.alloc = r.alloc ∧ r'.stream = rest := by
  have hends := extDataPeekMessage_ends r
  rw [receiveMessages]
  cases hpeek : extDataPeekMessage r with
  | error e =>
    rw [hpeek] at hends
    exact absurd (arrived_of_receivable h hstream) hends
  | ok x =>
    rw [hpeek] at hends
    obtain ⟨-, hm, halloc, hstream', havail, hinside⟩ := hends
    have hmessage : x.1 = messageAt m := by
      rw [hm, hstream]
      exact messageAt_append h.header (Nat.le_of_eq h.length)
    have hlength : x.1.length = m.length := by
      rw [hmessage]
      exact h.length
    have hheader := h.header
    obtain ⟨hpending, -⟩ := stream_of_available havail (by omega)
    rw [hstream', hstream, headerLength_append h.header, h.length] at hpending
    have hfits := havail.2
    obtain ⟨hconsumed, hleft⟩ := @consume_stream x.2 x.1.length (by omega)
    refine ⟨x.2.consume x.1.length, ?_, hconsumed.trans halloc, ?_⟩
    · dsimp only
      rw [hmessage]
    · rw [hleft, hstream', hstream, hlength, List.drop_left]

theorem receiveMessages_short (hpart : r.stream <+: m) (hlt : r.stream.length < m.length)
    (hlength : headerLength m = m.length) (n : Nat) : receiveMessages n r = [] := by
  cases n with
  | zero => rfl
  | succ n =>
    have hends := extDataPeekMessage_ends r
    rw [receiveMessages]
    cases hpeek : extDataPeekMessage r with
    | error e => rfl
    | ok x =>
      rw [hpeek] at hends
      obtain ⟨hheader, hwhole⟩ := hends.1.whole
      obtain ⟨tail, htail⟩ := hpart
      rw [← htail, headerLength_append hheader, htail] at hlength
      omega

theorem receiveMessages_served {msgs : List (List UInt8)}
    (hmsgs : ∀ m ∈ msgs, Receivable r.alloc m) (hpart : r.stream <+: msgs.flatten) {n : Nat}
    (hn : r.stream.length < n) :
    receiveMessages n r = (served (fun _ => false) r.stream.length msgs).map messageAt := by
  induction msgs generalizing r n with
  | nil =>
    obtain ⟨tail, htail⟩ := hpart
    obtain ⟨hempty, -⟩ := List.append_eq_nil_iff.mp htail
    refine @receiveMessages_short r [0, 0, 0, 0, 0, 0, 0, 8] ?_ ?_ rfl n
    · rw [hempty]
      exact List.nil_prefix
    · rw [hempty]
      decide
  | cons m msgs ih =>
    have hm := hmsgs m (List.mem_cons_self ..)
    rw [List.flatten_cons] at hpart
    rw [served]
    split
    · next hle =>
      obtain ⟨rest, hrest⟩ := List.prefix_of_prefix_length_le (List.prefix_append _ _) hpart hle
      cases n with
      | zero => omega
      | succ n =>
        obtain ⟨r', hreceive, halloc, hstream⟩ := receiveMessages_receivable hm hrest.symm n
        have hheader := hm.header
        have hlen := congrArg List.length hrest
        rw [List.length_append] at hlen
        have hmore := @ih r' (fun m' h => halloc ▸ hmsgs m' (List.mem_cons_of_mem m h)) (by
          rw [← hrest] at hpart
          rw [hstream]
          exact (List.prefix_append_right_inj m).mp hpart) n (by
            rw [hstream]
            omega)
        rw [hreceive, hmore, hstream, if_neg (by decide), List.map_cons, ← hlen,
          Nat.add_sub_cancel_left]
    · next hle =>
      exact receiveMessages_short (List.prefix_of_prefix_length_le hpart (List.prefix_append _ _)
        (by omega)) (by omega) hm.length n

end Receive

/-- In any order of the calls of the server, whatever a client was sent it receives as set-up
messages and then some of the events in order, all that are whole, each once. -/
theorem clients_receive_messages {acts : List NetAct} {io : NetIo} {alloc n : Nat} {r : Receive}
    (hset : SetupFirst acts) (h : runSteps netStep netInit acts = some io)
    (hmsgs : ∀ m ∈ io.setups ++ io.eventMsgs, Receivable alloc m) (halloc : r.alloc = alloc)
    (hsent : r.stream ∈ io.clients.map SendClient.sent ++ io.departed)
    (hn : r.stream.length < n) :
    ∃ own : List (List UInt8), own.Sublist io.eventMsgs ∧ r.stream <+: (io.setups ++ own).flatten ∧
      receiveMessages n r =
        (served (fun _ => false) r.stream.length (io.setups ++ own)).map messageAt := by
  have hstart : Unstarted netInit := ⟨⟨rfl, rfl⟩, by rintro n ⟨⟩⟩
  have hdelivers := (netRun_inv netInit_inv hset (.inl hstart) h).delivers
  have hwhole : WholeMessages io r.stream := by
    rcases List.mem_append.mp hsent with hsent | hsent
    · obtain ⟨client, hclient, heq⟩ := List.mem_map.mp hsent
      rw [← heq]
      exact hdelivers.streams client hclient
    · exact hdelivers.departed _ hsent
  obtain ⟨own, hown, hpart⟩ := hwhole
  rw [← List.flatten_append] at hpart
  refine ⟨own, hown, hpart, receiveMessages_served (fun m hm => ?_) hpart hn⟩
  rw [halloc]
  rcases List.mem_append.mp hm with hm | hm
  · exact hmsgs m (List.mem_append_left _ hm)
  · exact hmsgs m (List.mem_append_right _ (hown.subset hm))

def receiveDemo : List NetAct :=
  [.reserve 8 true, .accept, .commit [0x76, 0xc3, 0, 2, 0, 0, 0, 8], .write 0 [.sent 3],
    .reserve 8 false, .commit [0x76, 0xc3, 0, 9, 0, 0, 0, 8], .write 0 [.sent 5, .sent 2],
    .write 0 [.error]]

def receiveDemoClient : Receive :=
  ⟨64, 0, [], [.data [0x76, 0xc3, 0, 2, 0], .interrupted, .data [0, 0, 8, 0x76], .data [0xc3]]⟩

theorem clients_receive_messages_demo :
    ∃ io own, runSteps netStep netInit receiveDemo = some io ∧
      receiveMessages 11 receiveDemoClient =
        (served (fun _ => false) 10 (io.setups ++ own)).map messageAt := by
  have hrun : ((runSteps netStep netInit receiveDemo).map fun io =>
      (io.setups, io.eventMsgs, io.departed)) =
      some ([[0x76, 0xc3, 0, 2, 0, 0, 0, 8]], [[0x76, 0xc3, 0, 9, 0, 0, 0, 8]],
        [[0x76, 0xc3, 0, 2, 0, 0, 0, 8, 0x76, 0xc3]]) := by
    decide +kernel
  obtain ⟨io, hio, heq⟩ := Option.map_eq_some_iff.mp hrun
  obtain ⟨hsetups, heq⟩ := Prod.mk.inj heq
  obtain ⟨hevents, hdeparted⟩ := Prod.mk.inj heq
  obtain ⟨own, -, -, hreceive⟩ := @clients_receive_messages receiveDemo io 64 11 receiveDemoClient
    (by unfold SetupFirst; decide) hio (fun m hm => by
      rw [hsetups, hevents] at hm
      rcases List.mem_cons.mp hm with rfl | hm
      · exact ⟨by decide, by decide, by decide, by decide, by decide⟩
      · obtain rfl := List.mem_singleton.mp hm
        exact ⟨by decide, by decide, by decide, by decide, by decide⟩) rfl
    (by
      rw [hdeparted]
      exact List.mem_append_right _ (List.mem_singleton_self _))
    (by decide)
  exact ⟨io, own, hio, hreceive⟩

end Ucesb
