import Ucesb.LmdOutputTcp
import Mathlib.Data.List.Perm.Basic
import Mathlib.Tactic.Linarith

namespace Ucesb

open LmdOutputTcp

/-- The pool of streams, seen with the positions of the clients and with the streams that the
server thread has in its hands in the middle of an operation. -/
structure Pool (s : LmdOutputTcp) (refs : List (Option Nat)) (loose : List Nat) : Prop where
  places : (s.free ++ s.filled ++ s.active ++ s.fillStream.toList ++ loose).Perm s.allocated
  nodup : s.allocated.Nodup
  fresh : ∀ id ∈ s.allocated, id ≤ s.allocStreamNo
  num : s.numStreams = s.allocated.length
  max : s.numStreams ≤ s.maxStreams
  held : ∀ id, some id ∈ refs → id ∈ s.active ∨ id ∈ loose
  count : ∀ id ∈ s.allocated, (s.streams id).clients = refs.count (some id)
  once : s.sendonce = true → ∀ id, refs.count (some id) ≤ 1

section Pool

variable {s : LmdOutputTcp} {refs refs' : List (Option Nat)} {loose : List Nat} {stream : Nat}

theorem Pool.perm_refs (h : Pool s refs loose) (hp : refs.Perm refs') : Pool s refs' loose where
  places := h.places
  nodup := h.nodup
  fresh := h.fresh
  num := h.num
  max := h.max
  held := fun id hid => h.held id (hp.mem_iff.mpr hid)
  count := by
    intro id hid
    rw [h.count id hid, hp.count_eq]
  once := by
    intro ho id
    rw [← hp.count_eq]
    exact h.once ho id

theorem Pool.cons_none_iff : Pool s (none :: refs) loose ↔ Pool s refs loose := by
  have hc : ∀ id : Nat, (none :: refs).count (some id) = refs.count (some id) := by
    intro id
    simp
  constructor
  · intro h
    exact ⟨h.places, h.nodup, h.fresh, h.num, h.max,
      fun id hid => h.held id (List.mem_cons_of_mem _ hid),
      fun id hid => by rw [h.count id hid, hc], fun ho id => by rw [← hc]; exact h.once ho id⟩
  · intro h
    refine ⟨h.places, h.nodup, h.fresh, h.num, h.max, ?_,
      fun id hid => by rw [h.count id hid, hc], fun ho id => by rw [hc]; exact h.once ho id⟩
    intro id hid
    rcases List.mem_cons.mp hid with hid | hid
    · cases hid
    · exact h.held id hid

theorem Pool.places_nodup (h : Pool s refs loose) :
    (s.free ++ s.filled ++ s.active ++ s.fillStream.toList ++ loose).Nodup :=
  h.places.nodup_iff.mpr h.nodup

theorem Pool.mem_allocated (h : Pool s refs loose)
    (hm : stream ∈ s.free ++ s.filled ++ s.active ++ s.fillStream.toList ++ loose) :
    stream ∈ s.allocated := h.places.mem_iff.mp hm

theorem Pool.not_held (h : Pool s refs loose)
    (hm : stream ∈ s.free ++ s.filled ++ s.fillStream.toList) : some stream ∉ refs := by
  intro hr
  have hn := h.places_nodup
  rcases h.held stream hr with ha | hl
  all_goals
    simp only [List.nodup_append, List.mem_append] at hn hm
    grind

theorem Pool.clients_zero (h : Pool s refs loose)
    (hm : stream ∈ s.free ++ s.filled ++ s.fillStream.toList) :
    (s.streams stream).clients = 0 := by
  have ha : stream ∈ s.allocated := by
    apply h.mem_allocated
    simp only [List.mem_append] at hm ⊢
    tauto
  rw [h.count stream ha, List.count_eq_zero_of_not_mem (h.not_held hm)]
  rfl

theorem Pool.addFreeStream (h : Pool s refs (stream :: loose)) (hr : some stream ∉ refs) :
    Pool (s.addFreeStream stream) refs loose := by
  have hheld : ∀ id, some id ∈ refs → id ∈ s.active ∨ id ∈ loose := by
    intro id hid
    rcases h.held id hid with ha | hl
    · exact .inl ha
    · rcases List.mem_cons.mp hl with rfl | hl
      · exact absurd hid hr
      · exact .inr hl
  have hmem : stream ∈ s.allocated := h.mem_allocated (by simp)
  unfold LmdOutputTcp.addFreeStream
  split
  · refine ⟨?_, h.nodup.erase _, fun id hid => h.fresh id (List.mem_of_mem_erase hid), ?_, ?_,
      hheld, fun id hid => h.count id (List.mem_of_mem_erase hid), h.once⟩
    · have hp := h.places.erase stream
      refine List.Perm.trans ?_ hp
      exact ((List.perm_middle.erase stream).trans (by simp)).symm
    · have := h.num
      have hl := List.length_erase_of_mem hmem
      have hpos := List.length_pos_of_mem hmem
      show s.numStreams - 1 = _
      rw [hl]
      omega
    · have := h.max
      show s.numStreams - 1 ≤ s.maxStreams
      omega
  · refine ⟨?_, h.nodup, h.fresh, h.num, h.max, hheld, h.count, h.once⟩
    apply List.perm_iff_count.mpr
    intro id
    have hc := h.places.count_eq id
    simp only [List.count_append, List.count_cons, List.count_nil] at hc ⊢
    omega

theorem Pool.unlinkStream (h : Pool s refs loose) (ha : stream ∈ s.active) :
    Pool (s.unlinkStream stream) refs (stream :: loose) := by
  refine ⟨?_, h.nodup, h.fresh, h.num, h.max, ?_, h.count, h.once⟩
  · apply List.perm_iff_count.mpr
    intro id
    have hc := h.places.count_eq id
    have he := (List.perm_cons_erase ha).count_eq id
    show (s.free ++ s.filled ++ s.active.erase stream ++ s.fillStream.toList ++
      stream :: loose).count id = s.allocated.count id
    simp only [List.count_append, List.count_cons] at hc he ⊢
    omega
  · intro id hid
    by_cases hs : id = stream
    · exact .inr (by simp [hs])
    · rcases h.held id hid with h1 | h1
      · exact .inl ((List.mem_erase_of_ne hs).mpr h1)
      · exact .inr (List.mem_cons_of_mem _ h1)

theorem Pool.addClientStream (h : Pool s refs (stream :: loose)) :
    Pool (s.addClientStream stream) refs loose := by
  refine ⟨?_, h.nodup, h.fresh, h.num, h.max, ?_, h.count, h.once⟩
  · apply List.perm_iff_count.mpr
    intro id
    have hc := h.places.count_eq id
    show (s.free ++ s.filled ++ (s.active ++ [stream]) ++ s.fillStream.toList ++
      loose).count id = s.allocated.count id
    simp only [List.count_append, List.count_cons, List.count_nil] at hc ⊢
    omega
  · intro id hid
    show id ∈ s.active ++ [stream] ∨ _
    rcases h.held id hid with h1 | h1
    · exact .inl (List.mem_append_left _ h1)
    · rcases List.mem_cons.mp h1 with rfl | h1
      · exact .inl (by simp)
      · exact .inr h1

theorem Pool.modifyStream (h : Pool s refs loose) {f : LmdOutputStream → LmdOutputStream}
    (hf : stream ∈ s.allocated → ∀ x, (f x).clients = x.clients) :
    Pool (s.modifyStream stream f) refs loose := by
  refine ⟨h.places, h.nodup, h.fresh, h.num, h.max, h.held, ?_, h.once⟩
  intro id hid
  rw [← h.count id hid]
  show (if id = stream then f (s.streams id) else s.streams id).clients = _
  split
  · rename_i he
    subst he
    exact hf hid _
  · rfl

theorem Pool.addClient (h : Pool s refs loose) (ha : stream ∈ s.active ∨ stream ∈ loose)
    (ho : s.sendonce = true → (s.streams stream).clients = 0) :
    Pool (s.addClients stream 1) (some stream :: refs) loose := by
  have hm : stream ∈ s.allocated := by
    apply h.mem_allocated
    simp only [List.mem_append]
    tauto
  refine ⟨h.places, h.nodup, h.fresh, h.num, h.max, ?_, ?_, ?_⟩
  · intro id hid
    rcases List.mem_cons.mp hid with he | hid
    · cases he
      exact ha
    · exact h.held id hid
  · intro id hid
    have hc := h.count id hid
    show (if id = stream then _ else s.streams id).clients = _
    by_cases he : id = stream
    · subst he
      simp [hc]
    · simp [he, hc, Ne.symm he]
  · intro hs id
    by_cases he : id = stream
    · subst he
      have hc := h.count id hm
      rw [ho hs] at hc
      simp only [List.count_cons_self]
      omega
    · rw [List.count_cons_of_ne (by simpa using Ne.symm he)]
      exact h.once hs id

theorem Pool.removeClient (h : Pool s (some stream :: refs) loose) :
    Pool (s.addClients stream (-1)) refs loose := by
  refine ⟨h.places, h.nodup, h.fresh, h.num, h.max,
    fun id hid => h.held id (List.mem_cons_of_mem _ hid), ?_, ?_⟩
  · intro id hid
    have hc := h.count id hid
    show (if id = stream then _ else s.streams id).clients = _
    by_cases he : id = stream
    · subst he
      simp only [List.count_cons_self] at hc
      simp only [↓reduceIte, hc]
      omega
    · simp [he, hc, Ne.symm he]
  · intro hs id
    exact le_trans (List.count_le_count_cons) (h.once hs id)

theorem Pool.active_nodup (h : Pool s refs loose) : s.active.Nodup := by
  have hn := h.places_nodup
  simp only [List.nodup_append] at hn
  tauto

end Pool

theorem streamsAfter_append {a b : List Nat} {stream : Nat} (h : stream ∉ a) :
    streamsAfter (a ++ stream :: b) stream = b := by
  unfold streamsAfter
  rw [List.dropWhile_append_of_pos]
  · simp
  · intro x hx
    simp only [ne_eq, decide_not, Bool.not_eq_eq_eq_not, Bool.not_true, decide_eq_false_iff_not]
    rintro rfl
    exact h hx

theorem streamsBefore_append {a b : List Nat} {stream : Nat} (h : stream ∉ a) :
    streamsBefore (a ++ stream :: b) stream = a := by
  unfold streamsBefore
  rw [List.takeWhile_append_of_pos]
  · simp
  · intro x hx
    simp only [ne_eq, decide_not, Bool.not_eq_eq_eq_not, Bool.not_true, decide_eq_false_iff_not]
    rintro rfl
    exact h hx

theorem split_at_stream {l : List Nat} {stream : Nat} (h : stream ∈ l) (hn : l.Nodup) :
    ∃ a b, l = a ++ stream :: b ∧ stream ∉ a ∧ stream ∉ b := by
  obtain ⟨a, b, rfl⟩ := List.append_of_mem h
  refine ⟨a, b, rfl, ?_, ?_⟩
  · intro ha
    exact (List.nodup_append.mp hn).2.2 stream ha stream (by simp) rfl
  · intro hb
    exact (List.nodup_cons.mp (List.nodup_append.mp hn).2.1).1 hb

section Freeing

variable {s : LmdOutputTcp} {refs : List (Option Nat)} {stream : Nat}

theorem Pool.freeActive (h : Pool s refs []) (ha : stream ∈ s.active)
    (hr : some stream ∉ refs) : Pool ((s.unlinkStream stream).addFreeStream stream) refs [] :=
  (h.unlinkStream ha).addFreeStream hr

theorem addFreeStream_active (s : LmdOutputTcp) (stream : Nat) :
    (s.addFreeStream stream).active = s.active := by
  unfold addFreeStream
  split <;> rfl

theorem addFreeStream_clients (s : LmdOutputTcp) (stream : Nat) :
    (s.addFreeStream stream).clients = s.clients := by
  unfold addFreeStream
  split <;> rfl

theorem Pool.not_held_of_zero {loose : List Nat} (h : Pool s refs loose)
    (hm : stream ∈ s.allocated) (hz : (s.streams stream).clients = 0) : some stream ∉ refs := by
  have hc := h.count stream hm
  rw [hz] at hc
  exact List.count_eq_zero.mp (by omega)

theorem Pool.active_allocated {loose : List Nat} (h : Pool s refs loose)
    (ha : stream ∈ s.active) : stream ∈ s.allocated :=
  h.mem_allocated (by simp [ha])

theorem nextStreamOf_mem {l : List Nat} {stream next : Nat} (hn : l.Nodup) (hm : stream ∈ l)
    (h : nextStreamOf l stream = some next) : next ∈ l.erase stream := by
  obtain ⟨a, b, rfl, ha, hb⟩ := split_at_stream hm hn
  unfold nextStreamOf at h
  rw [streamsAfter_append ha] at h
  rw [List.erase_append_right _ ha, List.erase_cons_head]
  exact List.mem_append_right _ (List.mem_of_mem_head? h)

-- the loop only ever frees streams that nobody holds
theorem Pool.freeLeading {fuel : Nat} {forceFree : Bool} (h : Pool s refs [])
    (ha : stream ∈ s.active) (hf : forceFree = true → some stream ∉ refs) :
    Pool (freeLeading fuel forceFree s stream) refs [] := by
  induction fuel generalizing s stream forceFree with
  | zero => exact h
  | succ fuel ih =>
    unfold LmdOutputTcp.freeLeading
    split
    · rename_i hc
      have hr : some stream ∉ refs := by
        rcases hc with hc | hc
        · exact hf hc
        · exact h.not_held_of_zero (h.active_allocated ha) hc.1
      have hp := h.freeActive ha hr
      cases hnext : nextStreamOf s.active stream with
      | none => simpa only [hnext] using hp
      | some next =>
        have hmem := nextStreamOf_mem h.active_nodup ha hnext
        have hmem' : next ∈ ((s.unlinkStream stream).addFreeStream stream).active := by
          rw [addFreeStream_active]
          exact hmem
        simpa only [hnext] using ih hp hmem' (fun hx => by cases hx)
    · exact h

theorem Pool.freeClientStream (h : Pool s (some stream :: refs) []) :
    Pool (s.freeClientStream stream) refs [] := by
  have ha : stream ∈ s.active := by
    rcases h.held stream (by simp) with ha | hl
    · exact ha
    · cases hl
  apply h.removeClient.freeLeading ha
  intro hs hr
  have h1 := h.once hs stream
  have h2 := List.count_pos_iff.mpr hr
  simp only [List.count_cons_self] at h1
  omega

theorem markLostAfter_pool {loose : List Nat} (stream : Nat) (h : Pool s refs loose) :
    Pool (s.markLostAfter stream) refs loose := by
  unfold markLostAfter
  split
  · exact h
  · split
    · exact h.modifyStream (fun _ _ => rfl)
    · exact h

theorem markLostAfter_active (s : LmdOutputTcp) (stream : Nat) :
    (s.markLostAfter stream).active = s.active := by
  unfold markLostAfter
  split
  · rfl
  · split <;> rfl

end Freeing

end Ucesb
