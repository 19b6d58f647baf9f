import Ucesb.TcpRecovery

namespace Ucesb

open LmdOutputTcp

section Producer

variable {s t : LmdOutputTcp} {stream : Nat}

/-- The condition on a step: where `free_oldest_unused` is called, it keeps the mark. -/
def LmdOutputTcp.keepsMarks (s : LmdOutputTcp) : Act → Bool
  | .needFree =>
    !(s.needFreeStream && s.numStreams ≥ s.maxStreams && !s.hold) || s.markKept
  | _ => true

theorem serveNeedFree_sticky (h : StickyInv s []) (hk : s.keepsMarks .needFree = true)
    (hs : s.serveNeedFree = some t) : StickyInv t [] := by
  have hbase := serveNeedFree_inv h.base hs
  unfold serveNeedFree at hs
  split at hs
  · rename_i hneed
    cases hs
    generalize hu : (if s.numStreams < s.maxStreams then
        createFreeStreams (s.maxStreams - s.numStreams).toNat s
      else if !s.hold then s.freeOldestUnused else s) = u at hbase ⊢
    have hinv : StickyInv u [] := by
      subst hu
      split
      · exact createFreeStreams_sticky _ h
      · rename_i hnum
        split
        · rename_i hhold
          apply freeOldestUnused_sticky h
          unfold LmdOutputTcp.keepsMarks at hk
          simp only [ge_iff_le, not_lt] at hnum hk
          simpa [hneed, hhold, hnum] using hk
        · exact h
    split
    · rename_i hne
      rw [if_pos hne] at hbase
      exact hinv.of_view ⟨rfl, rfl, rfl, rfl, rfl, rfl, rfl, rfl⟩ hbase
    · exact hinv
  · cases hs

theorem getBuffer_sticky {now : Int} (h : StickyInv s []) (hs : s.getBuffer now = some t) :
    StickyInv t [] := by
  have hbase := getBuffer_inv h.base hs
  unfold getBuffer at hs
  split at hs
  · rename_i stream rest hf hfree
    cases hs
    generalize hg : (fun x : LmdOutputStream =>
      { x with flags := .zero, filled := 0, maxFill := s.streamBufs * s.bufSize, created := now,
               firstBuf := s.lBuf }) = g at hbase ⊢
    have hout : stream ∉ s.active ++ s.coming [] := by
      have hn := h.base.pool.places_nodup
      rw [hfree] at hn
      unfold LmdOutputTcp.coming
      simp only [List.cons_append, List.nodup_cons, List.mem_append] at hn ⊢
      tauto
    have hmod : StickyInv (s.modifyStream stream g) [] := by
      apply h.modify _ fun hm => absurd hm hout
      exact ⟨h.base.pool.modifyStream fun _ x => by rw [← hg], h.base.one⟩
    have hnew : ((s.modifyStream stream g).streams stream).firstBuf = s.lBuf := by
      show (if stream = stream then g (s.streams stream) else _).firstBuf = s.lBuf
      rw [if_pos rfl, ← hg]
    have hcoming : LmdOutputTcp.coming { s.modifyStream stream g with
        free := rest, fillStream := some stream } [] = s.coming [] ++ [stream] := by
      unfold LmdOutputTcp.coming
      rw [hf]
      show [] ++ s.filled ++ [stream] = [] ++ s.filled ++ [] ++ [stream]
      simp
    have hbelow : ∀ x ∈ s.active ++ s.coming [],
        ((s.modifyStream stream g).streams x).firstBuf < s.lBuf := by
      intro x hx
      apply hmod.below x
      show x ∈ s.active ++ [] ++ s.filled
      unfold LmdOutputTcp.coming at hx
      rw [hf] at hx
      simpa using hx
    refine ⟨hbase, h.sendonce, h.dropold, ?_, hmod.below, ?_, h.recovers, ?_⟩
    · rw [hcoming, ← List.append_assoc]
      refine List.pairwise_append.mpr ⟨hmod.sorted, List.pairwise_singleton _ _, ?_⟩
      intro x hx y hy
      rw [List.mem_singleton.mp hy]
      exact lt_of_lt_of_eq (hbelow x hx) hnew.symm
    · intro x hx
      cases hx
      exact le_of_eq hnew
    · intro c hc
      refine (hmod.owes c hc).frame (fun _ _ => rfl) (fun _ _ q _ => ⟨rfl, id⟩) ?_ (le_refl _)
      intro q hq
      rw [hcoming] at hq
      rcases List.mem_append.mp hq with hq | hq
      · exact .inl ⟨hq, rfl⟩
      · right
        rw [List.mem_singleton.mp hq]
        exact le_of_eq hnew.symm
  · cases hs
    exact h.of_view ⟨rfl, rfl, rfl, rfl, rfl, rfl, rfl, rfl⟩ hbase
  · cases hs
    exact h

theorem bufferDone_inv {hasSticky : Bool} (h : StreamsInv s []) :
    StreamsInv (s.bufferDone stream hasSticky) [] := by
  refine ⟨?_, h.one⟩
  have hp : Pool { s with lBuf := s.lBuf + 1 } s.positions [] := { h.pool with }
  exact hp.modifyStream (fun _ _ => rfl)

theorem bufferDone_sticky {hasSticky : Bool} (h : StickyInv s []) :
    StickyInv (s.bufferDone stream hasSticky) [] := by
  have hbuf : StickyInv { s with lBuf := s.lBuf + 1 } [] := by
    refine ⟨⟨{ h.base.pool with }, h.base.one⟩, h.sendonce, h.dropold, h.sorted, ?_, ?_,
      h.recovers, ?_⟩
    · intro x hx
      exact Nat.lt_succ_of_lt (h.below x hx)
    · intro x hx
      exact Nat.le_succ_of_le (h.filling x hx)
    · intro c hc
      exact (h.owes c hc).frame (fun _ _ => rfl) (fun _ _ _ _ => ⟨rfl, id⟩)
        (fun q hq => .inl ⟨hq, rfl⟩) (Nat.le_succ _)
  exact hbuf.modify (bufferDone_inv h.base) (fun _ _ => ⟨rfl, id⟩)

theorem writeBuffer_sticky {hasSticky : Bool} (h : StickyInv s [])
    (hs : s.writeBuffer hasSticky = some t) : StickyInv t [] := by
  have hbase := writeBuffer_inv h.base hs
  unfold writeBuffer at hs
  split at hs
  · cases hs
  · rename_i stream hf
    have hdone := @bufferDone_sticky s stream hasSticky h
    have hlt : (s.streams stream).firstBuf < (s.bufferDone stream hasSticky).lBuf :=
      Nat.lt_succ_of_le (h.filling stream hf)
    have hfb : ((s.bufferDone stream hasSticky).streams stream).firstBuf =
        (s.streams stream).firstBuf := by
      show (if stream = stream then _ else _ : LmdOutputStream).firstBuf = _
      rw [if_pos rfl]
    have hfill : (s.bufferDone stream hasSticky).fillStream = some stream := hf
    dsimp only at hs
    generalize s.bufferDone stream hasSticky = u at hs hdone hlt hfb hfill
    split at hs
    · unfold enqueueFilled at hs
      split at hs
      · cases hs
      · cases hs
        have hmark : StickyInv (u.modifyStream stream fun x =>
            { x with flags := x.flags.orMark u.markReplayStream }) [] := by
          refine hdone.modify ⟨hdone.base.pool.modifyStream fun _ _ => rfl, hdone.base.one⟩ ?_
          intro _ x
          refine ⟨rfl, ?_⟩
          cases u.markReplayStream <;> exact id
        generalize hg : (fun x : LmdOutputStream =>
          { x with flags := x.flags.orMark u.markReplayStream }) = g at hbase hmark ⊢
        have hsame : ((u.modifyStream stream g).streams stream).firstBuf =
            (s.streams stream).firstBuf := by
          show (if stream = stream then g (u.streams stream) else _).firstBuf = _
          rw [if_pos rfl, ← hg]
          exact hfb
        have hcoming : LmdOutputTcp.coming { u.modifyStream stream g with
            filled := u.filled ++ [stream], fillStream := none,
            markReplayStream :=
              if u.markReplayStream = .first then .more else u.markReplayStream } [] =
            (u.modifyStream stream g).coming [] := by
          unfold LmdOutputTcp.coming
          show [] ++ (u.filled ++ [stream]) ++ [] = [] ++ u.filled ++ u.fillStream.toList
          rw [hfill]
          simp
        refine ⟨hbase, hmark.sendonce, hmark.dropold, ?_, ?_, ?_, hmark.recovers, ?_⟩
        · rw [hcoming]
          exact hmark.sorted
        · intro x hx
          have hx' : x ∈ u.active ++ [] ++ (u.filled ++ [stream]) := hx
          simp only [List.append_nil, List.mem_append, List.mem_singleton] at hx'
          by_cases he : x = stream
          · subst he
            exact lt_of_eq_of_lt hsame hlt
          · apply hmark.below x
            show x ∈ u.active ++ [] ++ u.filled
            simpa [he] using hx'
        · intro x hx
          cases hx
        · intro c hc
          refine (hmark.owes c hc).frame (fun _ _ => rfl) (fun _ _ _ _ => ⟨rfl, id⟩) ?_ (le_refl _)
          intro q hq
          rw [hcoming] at hq
          exact .inl ⟨hq, rfl⟩
    · cases hs
      exact hdone

theorem step_sticky {act : Act} (h : StickyInv s []) (hk : s.keepsMarks act = true)
    (hs : s.step act = some t) : StickyInv t [] := by
  have hbase := step_inv h.base hs
  cases act with
  | accept mode allowData =>
    cases hs
    refine h.trim ⟨fun _ => rfl, fun _ => rfl, ⟨[], rfl⟩, rfl, rfl, rfl, rfl, rfl⟩ hbase ?_
    intro d hd
    rcases List.mem_append.mp hd with hd | hd
    · exact .inl hd
    · right
      rw [List.mem_singleton.mp hd]
      exact ⟨recoversLosses_nil, fun n hn => by cases hn⟩
  | deque => exact dequeFilledStream_sticky h hs
  | client i io now => exact serveClient_sticky h hs
  | shutdown i =>
    obtain ⟨c, hc, rfl⟩ := Option.map_eq_some_iff.mp hs
    exact closeClient_sticky h hc
  | needFree => exact serveNeedFree_sticky h hk hs
  | getBuffer now => exact getBuffer_sticky h hs
  | writeBuffer hasSticky => exact writeBuffer_sticky h hs
  | doStickyReplay =>
    obtain ⟨-, ⟨⟩⟩ := Option.ite_none_right_eq_some.mp hs
    exact h.of_view ⟨rfl, rfl, rfl, rfl, rfl, rfl, rfl, rfl⟩ hbase
  | endStickyReplay =>
    obtain ⟨-, ⟨⟩⟩ := Option.ite_none_right_eq_some.mp hs
    exact h.of_view ⟨rfl, rfl, rfl, rfl, rfl, rfl, rfl, rfl⟩ hbase

end Producer

theorem init_sticky {conf : TcpConf} (h1 : conf.sendonce = false) (h2 : conf.dropold = 0) :
    StickyInv (LmdOutputTcp.init conf) [] := by
  refine ⟨init_inv conf, h1, h2, List.Pairwise.nil, ?_, ?_, ?_, ?_⟩
  · intro x hx
    cases hx
  · intro x hx
    cases hx
  · intro c hc
    cases hc
  · intro c hc
    cases hc

/-- Without `sendonce` and `dropold`, in every run in which no mark for a loss is dropped with the
stream that has it, no client goes past a loss of sticky events without recovery. -/
theorem sticky_losses_recovered (conf : TcpConf) (hsend : conf.sendonce = false)
    (hdrop : conf.dropold = 0) (acts : List Act)
    (hmeet : StepsMeet step (fun s act => s.keepsMarks act = true) (LmdOutputTcp.init conf) acts)
    (s : LmdOutputTcp) (h : runSteps step (LmdOutputTcp.init conf) acts = some s) :
    ∀ c ∈ s.clients, RecoversLosses c.log :=
  (runSteps_inv_of_meet (fun _ _ _ hi hk hs => step_sticky hi hk hs)
    (init_sticky hsend hdrop) hmeet h).recovers

def fillOne (hasSticky : Bool) : List Act :=
  [.getBuffer 0, .writeBuffer hasSticky, .deque]

def connect (i : Nat) : List Act :=
  [.accept .trans true, .client i (.returned openInfoSize .data) 0]

def smallServer (streams : Int) : TcpConf := ⟨streams, false, 0, false, 1024, 1⟩

def recoveredRun : List Act :=
  [.getBuffer 0, .needFree] ++ connect 0 ++ fillOne false ++ fillOne true ++ fillOne false ++
  [.getBuffer 0, .needFree, .getBuffer 0, .client 0 (.returned 1024 .data) 0,
   .doStickyReplay, .writeBuffer true, .deque, .getBuffer 0, .endStickyReplay,
   .writeBuffer false, .deque, .client 0 (.returned 1024 .data) 0]

def droppedMarkRun : List Act :=
  [.getBuffer 0, .needFree] ++ connect 0 ++ fillOne false ++ connect 1 ++ fillOne false ++
  fillOne true ++ fillOne false ++ fillOne false ++
  [.getBuffer 0, .needFree, .getBuffer 0, .client 1 (.returned 1024 .data) 0,
   .writeBuffer false, .deque, .getBuffer 0, .needFree, .client 0 (.returned 1024 .data) 0]

theorem streams_conserved_demo :
    ∃ s, runSteps step (LmdOutputTcp.init (smallServer 5)) droppedMarkRun = some s ∧
      s.clients.length = 2 ∧ (s.free ++ s.filled ++ s.active ++ s.fillStream.toList).Perm s.allocated := by
  have hrun : (runSteps step (LmdOutputTcp.init (smallServer 5)) droppedMarkRun).map
      (fun s => s.clients.length) = some 2 := by decide +kernel
  obtain ⟨s, hs, hlen⟩ := Option.map_eq_some_iff.mp hrun
  exact ⟨s, hs, hlen, (streams_conserved (smallServer 5) droppedMarkRun s hs).1⟩

theorem sticky_losses_recovered_demo :
    ∃ s c, runSteps step (LmdOutputTcp.init (smallServer 3)) recoveredRun = some s ∧
      c ∈ s.clients ∧ c.log = [.given 1 false, .skipped 2, .given 4 true, .given 5 false] ∧
      RecoversLosses c.log := by
  have hrun : (runSteps step (LmdOutputTcp.init (smallServer 3)) recoveredRun).map
      (fun s => s.clients.map (·.log)) =
      some [[.given 1 false, .skipped 2, .given 4 true, .given 5 false]] := by decide +kernel
  obtain ⟨s, hs, hlogs⟩ := Option.map_eq_some_iff.mp hrun
  obtain ⟨c, hc, hlog⟩ : ∃ c ∈ s.clients,
      c.log = [.given 1 false, .skipped 2, .given 4 true, .given 5 false] := by
    apply List.mem_map.mp
    rw [hlogs]
    simp
  exact ⟨s, c, hs, hc, hlog, sticky_losses_recovered (smallServer 3) rfl rfl recoveredRun
    (stepsMeet_of_check (by decide +kernel)) s hs c hc⟩

theorem sticky_loss_unnoticed :
    ¬ ∀ (conf : TcpConf) (acts : List Act) (s : LmdOutputTcp), conf.sendonce = false →
      conf.dropold = 0 → runSteps step (LmdOutputTcp.init conf) acts = some s →
      ∀ c ∈ s.clients, RecoversLosses c.log := by
  intro hall
  have hrun : (runSteps step (LmdOutputTcp.init (smallServer 5)) droppedMarkRun).map
      (fun s => s.clients.map (·.log)) =
      some [[.given 1 false, .skipped 3, .given 4 false], [.given 2 false, .skipped 3]] := by
    decide +kernel
  obtain ⟨s, hs, hlogs⟩ := Option.map_eq_some_iff.mp hrun
  obtain ⟨c, hc, hlog⟩ : ∃ c ∈ s.clients,
      c.log = [.given 1 false, .skipped 3, .given 4 false] := by
    apply List.mem_map.mp
    rw [hlogs]
    simp
  have hrec := hall (smallServer 5) droppedMarkRun s rfl rfl hs c hc
  rw [hlog] at hrec
  obtain ⟨r, hr, -⟩ := hrec [.given 1 false] 3 [] 4 [] rfl (by decide)
  cases hr

end Ucesb
