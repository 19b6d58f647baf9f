import Ucesb.NetSteps

namespace Ucesb

structure NetDelivers (io : NetIo) : Prop where
  streams : ∀ client ∈ io.clients, WholeMessages io client.sent
  departed : ∀ sent ∈ io.departed, WholeMessages io sent
  held : ∀ client ∈ io.clients, ∀ id ∈ client.chunk,
    ∃ c ∈ io.inits ++ io.events, c.id = id ∧ client.offset ≤ c.length
  consumers : ∀ c ∈ io.inits ++ io.events,
    io.consumers c.id = io.clients.countP fun client => client.chunk = some c.id

theorem NetInv.delivers {io : NetIo} (h : NetInv io) : NetDelivers io := by
  constructor
  · intro client hc
    exact (h.clients client hc).whole
  · exact h.departed
  · intro client hc id hid
    exact (h.clients client hc).held hid
  · intro c _
    exact h.counted c.id

def NetAct.reservesSetup : NetAct → Bool
  | .reserve _ true => true
  | _ => false

def NetAct.reservesEvent : NetAct → Bool
  | .reserve _ false => true
  | _ => false

def SetupFirst (acts : List NetAct) : Prop :=
  acts.Pairwise fun a b => ¬ (a.reservesEvent = true ∧ b.reservesSetup = true)

def Unstarted (io : NetIo) : Prop :=
  NoEvents io ∧ ∀ length, io.reserved ≠ some (false, length)

section Run

variable {io io' : NetIo} {a : NetAct}

theorem SameData.unstarted (h : SameData io io') (hu : Unstarted io) : Unstarted io' := by
  refine ⟨⟨?_, ?_⟩, ?_⟩
  · rw [h.events]
    exact hu.1.1
  · rw [h.eventMsgs]
    exact hu.1.2
  · rw [h.reserved]
    exact hu.2

theorem reserve_unstarted {length : Nat} (hu : Unstarted io)
    (hr : extNetIoReserveChunk io length true = some io') : Unstarted io' := by
  obtain ⟨⟨hev, hem⟩, -⟩ := hu
  simp only [extNetIoReserveChunk, if_true] at hr
  split at hr
  · cases hr
    exact ⟨⟨hev, hem⟩, by rintro n ⟨⟩⟩
  · split at hr
    · cases hr
    · cases hr
      refine ⟨⟨?_, hem⟩, by rintro n ⟨⟩⟩
      simp only [NetIo.newChunk, if_true, hev]
      rfl

theorem commit_unstarted {msg : List UInt8} (hu : Unstarted io)
    (hc : extNetIoCommitChunk io msg = some io') : Unstarted io' := by
  obtain ⟨⟨hev, hem⟩, hres⟩ := hu
  obtain ⟨initChunk, length, chunk, hr, -, -, rfl⟩ := commitChunk_cases hc
  cases initChunk with
  | false => exact absurd hr (hres length)
  | true => exact ⟨⟨hev, hem⟩, by rintro n ⟨⟩⟩

theorem netStep_inv (h : NetInv io) (hfirst : a.reservesSetup = true → NoEvents io)
    (hs : netStep io a = some io') :
    NetInv io' ∧ (Unstarted io → a.reservesEvent = false → Unstarted io') := by
  cases a with
  | reserve length initChunk =>
    simp only [netStep] at hs
    split at hs
    · next hres =>
      refine ⟨h.reserve hres ?_ hs, ?_⟩
      · rintro rfl
        exact hfirst rfl
      · intro hu hev
        cases initChunk with
        | true => exact reserve_unstarted hu hs
        | false => cases hev
    · cases hs
  | commit msg => exact ⟨h.commit hs, fun hu _ => commit_unstarted hu hs⟩
  | accept => exact ⟨h.accept hs, fun hu _ => (netStep_same (.inl rfl) hs).unstarted hu⟩
  | write i results =>
    have hsame := netStep_same (.inr (.inl ⟨i, results, rfl⟩)) hs
    refine ⟨?_, fun hu _ => hsame.unstarted hu⟩
    obtain ⟨⟨io2, stays⟩, hw, hs⟩ := Option.bind_eq_some_iff.mp hs
    have hi := h.client_write hw
    cases hs
    cases stays with
    | true => exact hi
    | false => exact hi.close_client i
  | shutdown i count =>
    exact ⟨h.shutdown_client hs,
      fun hu _ => (netStep_same (.inr (.inr ⟨i, count, rfl⟩)) hs).unstarted hu⟩

theorem netRun_inv {acts : List NetAct} (h : NetInv io) (hset : SetupFirst acts)
    (hstart : Unstarted io ∨ ∀ a ∈ acts, a.reservesSetup = false)
    (hr : runSteps netStep io acts = some io') : NetInv io' := by
  induction acts generalizing io with
  | nil =>
    cases hr
    exact h
  | cons a acts ih =>
    obtain ⟨mid, hs, hr⟩ := Option.bind_eq_some_iff.mp hr
    obtain ⟨hlater, hrest⟩ := List.pairwise_cons.mp hset
    have hfirst : a.reservesSetup = true → NoEvents io := by
      intro ha
      rcases hstart with hu | hnone
      · exact hu.1
      · rw [hnone a List.mem_cons_self] at ha
        cases ha
    obtain ⟨hmid, hun⟩ := netStep_inv h hfirst hs
    refine ih hmid hrest ?_ hr
    rcases hstart with hu | hnone
    · cases hev : a.reservesEvent with
      | false => exact .inl (hun hu hev)
      | true =>
        refine .inr ?_
        intro b hb
        have := hlater b hb
        rw [hev] at this
        simpa using this
    · exact .inr fun b hb => hnone b (List.mem_cons_of_mem _ hb)

end Run

/-- Every client gets the set-up messages and then some of the event messages, whole and in order;
no chunk goes while a client is in it. -/
theorem clients_get_whole_messages {acts : List NetAct} {io : NetIo} (hset : SetupFirst acts)
    (h : runSteps netStep netInit acts = some io) : NetDelivers io := by
  have hstart : Unstarted netInit := ⟨⟨rfl, rfl⟩, by rintro n ⟨⟩⟩
  exact (netRun_inv netInit_inv hset (.inl hstart) h).delivers

def netDemo : List NetAct :=
  [.reserve 8 true, .accept, .commit [1, 2, 3, 4], .write 0 [.sent 3], .reserve 4 true,
    .commit [5, 6, 7, 8], .write 0 [.sent 5], .reserve 8 false, .commit [9, 9, 9, 9], .accept,
    .write 1 [.sent 8, .sent 2], .write 0 [.sent 4], .reserve 4 false, .commit [],
    .write 1 [.error]]

theorem clients_get_whole_messages_demo :
    ∃ io, runSteps netStep netInit netDemo = some io ∧ io.departed = [[1, 2, 3, 4, 5, 6, 7, 8, 9, 9]] ∧
      NetDelivers io := by
  have hrun : ((runSteps netStep netInit netDemo).map fun io => io.departed) =
      some [[1, 2, 3, 4, 5, 6, 7, 8, 9, 9]] := by
    decide +kernel
  obtain ⟨io, hio, hdep⟩ := Option.map_eq_some_iff.mp hrun
  exact ⟨io, hio, hdep, clients_get_whole_messages (by unfold SetupFirst; decide) hio⟩

def lateSetup : List NetAct :=
  [.reserve 4 true, .commit [1, 1, 1, 1], .accept, .write 0 [.sent 4], .reserve 4 false,
    .commit [2, 2, 2, 2], .write 0 [.sent 4], .reserve 4 true, .commit [3, 3, 3, 3],
    .write 0 [.sent 4, .sent 4]]

theorem late_setup_repeats_event :
    ∃ io, runSteps netStep netInit lateSetup = some io ∧
      io.clients.map SendClient.sent = [[1, 1, 1, 1, 2, 2, 2, 2, 3, 3, 3, 3, 2, 2, 2, 2]] ∧
      ¬ NetDelivers io := by
  have hrun : ((runSteps netStep netInit lateSetup).map fun io =>
      (io.clients.map SendClient.sent, io.setups)) =
      some ([[1, 1, 1, 1, 2, 2, 2, 2, 3, 3, 3, 3, 2, 2, 2, 2]], [[1, 1, 1, 1], [3, 3, 3, 3]]) := by
    decide +kernel
  obtain ⟨io, hio, heq⟩ := Option.map_eq_some_iff.mp hrun
  obtain ⟨hsent, hsetups⟩ := Prod.mk.inj heq
  refine ⟨io, hio, hsent, ?_⟩
  intro hd
  obtain ⟨client, hc, hcs⟩ : ∃ client ∈ io.clients,
      client.sent = [1, 1, 1, 1, 2, 2, 2, 2, 3, 3, 3, 3, 2, 2, 2, 2] := by
    apply List.mem_map.mp
    rw [hsent]
    exact List.mem_singleton_self _
  obtain ⟨own, -, rest, hpre⟩ := hd.streams client hc
  rw [hcs, hsetups] at hpre
  have h4 := congrArg (fun l => l[4]?) hpre
  simp at h4

end Ucesb
