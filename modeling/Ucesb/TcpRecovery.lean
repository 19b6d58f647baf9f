import Ucesb.TcpSticky
import Mathlib.Data.List.TakeWhile

namespace Ucesb

open LmdOutputTcp

/-- Streams at the old end of the list may be gone; the rest is as it was. -/
structure Trimmed (s t : LmdOutputTcp) : Prop where
  firstBuf : ∀ q, (t.streams q).firstBuf = (s.streams q).firstBuf
  flags : ∀ q, t.flags q = s.flags q
  active : ∃ d, s.active = d ++ t.active
  filled : t.filled = s.filled
  fillStream : t.fillStream = s.fillStream
  lBuf : t.lBuf = s.lBuf
  sendonce : t.sendonce = s.sendonce
  dropold : t.dropold = s.dropold

section Trim

variable {s t u : LmdOutputTcp} {loose : List Nat} {c : LmdOutputClient} {i stream : Nat}

theorem Trimmed.refl (s : LmdOutputTcp) : Trimmed s s :=
  ⟨fun _ => rfl, fun _ => rfl, ⟨[], rfl⟩, rfl, rfl, rfl, rfl, rfl⟩

theorem Trimmed.trans (h : Trimmed s t) (h' : Trimmed t u) : Trimmed s u := by
  refine ⟨fun q => (h'.firstBuf q).trans (h.firstBuf q), fun q => (h'.flags q).trans (h.flags q),
    ?_, h'.filled.trans h.filled, h'.fillStream.trans h.fillStream, h'.lBuf.trans h.lBuf,
    h'.sendonce.trans h.sendonce, h'.dropold.trans h.dropold⟩
  obtain ⟨d, hd⟩ := h.active
  obtain ⟨d', hd'⟩ := h'.active
  exact ⟨d ++ d', by rw [hd, hd', List.append_assoc]⟩

theorem SameView.trimmed (h : SameView s t) : Trimmed s t := by
  refine ⟨fun q => by rw [h.streams], fun q => ?_, ⟨[], by rw [h.active]; rfl⟩, h.filled,
    h.fillStream, h.lBuf, h.sendonce, h.dropold⟩
  unfold LmdOutputTcp.flags
  rw [h.streams]

theorem setClient_trimmed (s : LmdOutputTcp) (i : Nat) (c : LmdOutputClient) :
    Trimmed s (s.setClient i c) :=
  ⟨fun _ => rfl, fun _ => rfl, ⟨[], rfl⟩, rfl, rfl, rfl, rfl, rfl⟩

theorem modifyStream_trimmed (s : LmdOutputTcp) (stream : Nat)
    (f : LmdOutputStream → LmdOutputStream)
    (hf : ∀ x, (f x).firstBuf = x.firstBuf ∧ (f x).flags = x.flags) :
    Trimmed s (s.modifyStream stream f) := by
  have hs : ∀ q, ((s.modifyStream stream f).streams q).firstBuf = (s.streams q).firstBuf ∧
      ((s.modifyStream stream f).streams q).flags = (s.streams q).flags := by
    intro q
    show (if q = stream then f (s.streams q) else s.streams q).firstBuf = _ ∧
      (if q = stream then f (s.streams q) else s.streams q).flags = _
    split
    · exact hf _
    · exact ⟨rfl, rfl⟩
  exact ⟨fun q => (hs q).1, fun q => (hs q).2, ⟨[], rfl⟩, rfl, rfl, rfl, rfl, rfl⟩

theorem addClients_trimmed (s : LmdOutputTcp) (stream : Nat) (n : Int) :
    Trimmed s (s.addClients stream n) :=
  modifyStream_trimmed s stream _ fun _ => ⟨rfl, rfl⟩

theorem prevStream_none {l : List Nat} (h : prevStream l stream = none) (hm : stream ∈ l) :
    ∃ rest, l = stream :: rest := by
  cases l with
  | nil => cases hm
  | cons x rest =>
    unfold prevStream streamsBefore at h
    rw [List.getLast?_eq_none_iff, List.takeWhile_cons] at h
    split at h
    · cases h
    · rename_i hx
      simp only [ne_eq, decide_not, Bool.not_eq_eq_eq_not, Bool.not_true,
        decide_eq_false_iff_not, Decidable.not_not] at hx
      exact ⟨rest, by rw [hx]⟩

theorem freeLeading_trimmed (fuel : Nat) (hm : stream ∈ s.active) :
    Trimmed s (freeLeading fuel false s stream) := by
  induction fuel generalizing s stream with
  | zero => exact Trimmed.refl s
  | succ fuel ih =>
    unfold freeLeading
    split
    · rename_i hc
      simp only [Bool.false_eq_true, false_or] at hc
      obtain ⟨rest, hrest⟩ := prevStream_none hc.2 hm
      -- the first stream of the list goes
      have hcut : Trimmed s ((s.unlinkStream stream).addFreeStream stream) := by
        refine Trimmed.trans ?_ (addFreeStream_view _ _).trimmed
        refine ⟨fun _ => rfl, fun _ => rfl, ⟨[stream], ?_⟩, rfl, rfl, rfl, rfl, rfl⟩
        show s.active = [stream] ++ s.active.erase stream
        rw [hrest, List.erase_cons_head]
        rfl
      cases hnext : nextStreamOf s.active stream with
      | none => exact hcut
      | some next =>
        have hmem : next ∈ ((s.unlinkStream stream).addFreeStream stream).active := by
          rw [addFreeStream_active]
          show next ∈ s.active.erase stream
          unfold nextStreamOf at hnext
          rw [hrest, ← List.nil_append (stream :: rest), streamsAfter_append (by simp)] at hnext
          rw [hrest, List.erase_cons_head]
          exact List.mem_of_mem_head? hnext
        exact hcut.trans (ih hmem)
    · exact Trimmed.refl s

theorem freeClientStream_trimmed (hs : s.sendonce = false) (hm : stream ∈ s.active) :
    Trimmed s (s.freeClientStream stream) := by
  unfold freeClientStream
  rw [hs]
  exact (addClients_trimmed s stream (-1)).trans (freeLeading_trimmed _ hm)

theorem ahead_not_active (hx : stream ∉ s.active) : s.ahead stream = [stream] := by
  unfold LmdOutputTcp.ahead streamsAfter
  rw [List.dropWhile_eq_nil_iff.mpr]
  · rfl
  · intro y hy
    simp only [ne_eq, decide_not, Bool.not_eq_eq_eq_not, Bool.not_true, decide_eq_false_iff_not]
    rintro rfl
    exact hx hy

theorem Trimmed.ahead (ht : Trimmed s t) (hn : s.active.Nodup)
    (hx : stream ∈ t.active ∨ stream ∉ s.active) : t.ahead stream = s.ahead stream := by
  obtain ⟨d, hd⟩ := ht.active
  rw [hd] at hn
  rcases hx with hx | hx
  · obtain ⟨a, b, ha, hxa, -⟩ := split_at_stream hx (List.nodup_append.mp hn).2.1
    have hxd : stream ∉ d := fun hm => (List.nodup_append.mp hn).2.2 stream hm stream hx rfl
    rw [ahead_append ha hxa]
    rw [@ahead_append s (d ++ a) b stream (by rw [hd, ha, List.append_assoc]) (by simp [hxd, hxa])]
  · rw [ahead_not_active hx, ahead_not_active fun hm =>
      hx (by rw [hd]; exact List.mem_append_right _ hm)]

theorem Owes.trim (h : Owes s loose c) (ht : Trimmed s t) (hn : s.active.Nodup)
    (hx : ∀ x, c.position = some x → x ∈ t.active ∨ x ∉ s.active) : Owes t loose c := by
  refine h.frame (fun x hp => ht.ahead hn (hx x hp))
    (fun _ _ q _ => ⟨ht.firstBuf q, fun hl => ?_⟩) ?_ (le_of_eq ht.lBuf.symm)
  · rw [ht.flags q]
    exact hl
  · intro q hq
    left
    refine ⟨?_, ht.firstBuf q⟩
    unfold LmdOutputTcp.coming at hq ⊢
    rwa [ht.filled, ht.fillStream] at hq

theorem StreamsInv.held_or_loose (h : StreamsInv t loose) (hc : c ∈ t.clients)
    (hp : c.position = some stream) : stream ∈ t.active ∨ stream ∉ t.active ∧ stream ∈ loose := by
  have hheld : some stream ∈ t.positions := by
    rw [← hp]
    exact List.mem_map_of_mem hc
  rcases h.pool.held stream hheld with ha | hl
  · exact .inl ha
  · by_cases ha : stream ∈ t.active
    · exact .inl ha
    · exact .inr ⟨ha, hl⟩

theorem StreamsInv.loose_not_active (h : StreamsInv s loose) {x : Nat} (hl : x ∈ loose) :
    x ∉ s.active := by
  intro ha
  have hnd := h.pool.places_nodup
  rw [List.nodup_append] at hnd
  exact hnd.2.2 x (by simp [ha]) x hl rfl

theorem StickyInv.trim (h : StickyInv s loose) (ht : Trimmed s t) (hb : StreamsInv t loose)
    (hcl : ∀ d ∈ t.clients, d ∈ s.clients ∨ (RecoversLosses d.log ∧ Owes t loose d)) :
    StickyInv t loose := by
  obtain ⟨d, hd⟩ := ht.active
  have hcoming : t.coming loose = s.coming loose := by
    unfold LmdOutputTcp.coming
    rw [ht.filled, ht.fillStream]
  refine ⟨hb, ht.sendonce.trans h.sendonce, ht.dropold.trans h.dropold, ?_, ?_, ?_, ?_, ?_⟩
  · have hs := h.sorted
    rw [hd, List.append_assoc] at hs
    rw [hcoming]
    refine (List.pairwise_append.mp hs).2.1.imp ?_
    intro x y hxy
    rw [ht.firstBuf x, ht.firstBuf y]
    exact hxy
  · intro x hx
    rw [ht.firstBuf x, ht.lBuf]
    apply h.below x
    rw [ht.filled] at hx
    rw [hd]
    simp only [List.mem_append] at hx ⊢
    tauto
  · intro x hx
    rw [ht.firstBuf x, ht.lBuf]
    rw [ht.fillStream] at hx
    exact h.filling x hx
  · intro e he
    rcases hcl e he with he | he
    · exact h.recovers e he
    · exact he.1
  · intro e he
    rcases hcl e he with hold | hnew
    · apply (h.owes e hold).trim ht h.base.pool.active_nodup
      intro x hx
      rcases hb.held_or_loose he hx with ha | ⟨-, hl⟩
      · exact .inl ha
      · exact .inr (h.base.loose_not_active hl)
    · exact hnew.2

theorem mem_setClient {d : LmdOutputClient} (h : d ∈ (t.setClient i c).clients) :
    d ∈ t.clients ∨ d = c := List.mem_or_eq_of_mem_set h

theorem StickyInv.replace {d : LmdOutputClient} (h : StickyInv s loose) (ht : Trimmed s t)
    (hcl : t.clients = s.clients) (hb : StreamsInv (t.setClient i d) loose)
    (hrec : RecoversLosses d.log) (ho : Owes s loose d) : StickyInv (t.setClient i d) loose := by
  have htr := ht.trans (setClient_trimmed t i d)
  refine h.trim htr hb ?_
  intro e he
  rcases mem_setClient he with hold | rfl
  · left
    rwa [hcl] at hold
  · right
    refine ⟨hrec, ho.trim htr h.base.pool.active_nodup ?_⟩
    intro x hx
    rcases hb.held_or_loose he hx with ha | ⟨-, hl⟩
    · exact .inl ha
    · exact .inr (h.base.loose_not_active hl)

theorem StickyInv.setClient_same {c' : LmdOutputClient} (h : StickyInv s loose)
    (hc : s.clients[i]? = some c) (h1 : c'.current = c.current) (h2 : c'.pending = c.pending)
    (h3 : c'.log = c.log) (h4 : c'.need = c.need) : StickyInv (s.setClient i c') loose := by
  have hm := List.mem_of_getElem? hc
  have hpos : c'.position = c.position := by
    unfold LmdOutputClient.position
    rw [h1, h2]
  exact h.replace (Trimmed.refl s) rfl (h.base.setClient_same hc h1 h2)
    (h3 ▸ h.recovers c hm) ((h.owes c hm).of_client h3 hpos h4)

theorem owes_found {now : Int} {cur : Nat} {need' : NeedRecovery} {found : Option Nat} {n : Nat}
    (h : StickyInv s []) (hc : c ∈ s.clients) (hpos : c.position = some cur) (hn : n ∈ owed c.log)
    (hs : s.searchNext now (streamsAfter s.active cur) (s.needAfter cur c.need) =
      (found, need')) : FoundAfterLoss s n (streamsAfter s.active cur) found need' := by
  have hcov := (h.owes c hc n hn).2.1 cur hpos
  exact searchNext_watched h.sendonce h.dropold (watched_needAfter (.inr hcov)) hs

theorem sorted_ahead (h : StickyInv s []) {x m : Nat} {a b : List Nat}
    (hx : streamsAfter s.active x = a ++ m :: b) (hm : x ∈ s.active) :
    s.ahead m = m :: b ∧ ∀ q ∈ b, (s.streams m).firstBuf < (s.streams q).firstBuf := by
  have hnd := h.base.pool.active_nodup
  obtain ⟨a', b', hact, hxa, -⟩ := split_at_stream hm hnd
  rw [hact, streamsAfter_append hxa] at hx
  have hact' : s.active = (a' ++ x :: a) ++ m :: b := by
    rw [hact, hx]
    simp
  have hma : m ∉ a' ++ x :: a := by
    rw [hact'] at hnd
    intro hmem
    exact (List.nodup_append.mp hnd).2.2 m hmem m (by simp) rfl
  have hsort := (List.pairwise_append.mp h.sorted).1
  rw [hact'] at hsort
  exact ⟨ahead_append hact' hma,
    (List.pairwise_cons.mp (List.pairwise_append.mp hsort).2.1).1⟩

theorem given_owes {m : Nat} (h : StickyInv s []) (hc : c ∈ s.clients)
    (hfound : ∀ n ∈ owed c.log, ((s.flags m).isRecovery = true ∧ n < (s.streams m).firstBuf) ∨
      LostCovered s n (s.ahead m))
    (hsort : ∀ q ∈ streamsAfter s.active m, (s.streams m).firstBuf < (s.streams q).firstBuf) :
    RecoversLosses (s.noteGiven m c).log ∧
      ∀ n ∈ owed (s.noteGiven m c).log, LostCovered s n (s.ahead m) ∧ n < s.lBuf ∧
        ∀ q ∈ s.coming [], n < (s.streams q).firstBuf := by
  have hle : ∀ n, LostCovered s n (s.ahead m) → (s.streams m).firstBuf ≤ n := by
    rintro n ⟨a, p, b, he, -, hp, -⟩
    have hpm : p ∈ s.ahead m := by
      rw [he]
      simp
    rcases List.mem_cons.mp hpm with rfl | hpm
    · omega
    · have := hsort p hpm
      omega
  have hbase : ∀ n ∈ owed c.log, n < s.lBuf ∧ ∀ q ∈ s.coming [], n < (s.streams q).firstBuf :=
    fun n hn => (h.owes c hc n hn).2.2
  constructor
  · apply recoversLosses_snoc (h.recovers c hc)
    intro m' he n hn
    simp only [ClientEvent.given.injEq] at he
    obtain ⟨rfl, hrec⟩ := he
    rcases hfound n hn with ⟨hr, -⟩ | hcov
    · rw [hr] at hrec
      cases hrec
    · exact hle n hcov
  · intro n hn
    unfold noteGiven at hn
    rw [owed_snoc] at hn
    cases hrec : (s.flags m).isRecovery with
    | false =>
      rw [hrec] at hn
      rcases hfound n hn with ⟨hr, -⟩ | hcov
      · rw [hr] at hrec
        cases hrec
      · exact ⟨hcov, hbase n hn⟩
    | true =>
      rw [hrec] at hn
      obtain ⟨hm, hge⟩ := List.mem_filter.mp hn
      simp only [decide_eq_true_eq] at hge
      rcases hfound n hm with ⟨-, hlt⟩ | hcov
      · omega
      · exact ⟨hcov, hbase n hm⟩

theorem getNextClientStream_spec {now : Int} {cur : Nat} {need need' : NeedRecovery}
    {found : Option Nat} (hs : s.sendonce = false) (hm : cur ∈ s.active)
    (hg : s.getNextClientStream now cur need = (t, found, need')) :
    s.searchNext now (streamsAfter s.active cur) (s.needAfter cur need) = (found, need') ∧
      Trimmed s t := by
  unfold getNextClientStream at hg
  cases hsearch : s.searchNext now (streamsAfter s.active cur) (s.needAfter cur need) with
  | mk found' need'' =>
    simp only [hsearch, Prod.mk.injEq] at hg
    obtain ⟨rfl, rfl, rfl⟩ := hg
    refine ⟨rfl, ?_⟩
    cases found' with
    | none => exact freeClientStream_trimmed hs hm
    | some m => exact (addClients_trimmed s m 1).trans (freeClientStream_trimmed hs hm)

theorem nextStream_sticky {now : Int} {c' : LmdOutputClient} (h : StickyInv s [])
    (hc : s.clients[i]? = some c) (h1 : c'.current = c.current) (h2 : c'.pending = c.pending)
    (h3 : c'.log = c.log) (h4 : c'.need = c.need) : StickyInv (s.nextStream now i c') [] := by
  have hm := List.mem_of_getElem? hc
  have hbase : StreamsInv (s.nextStream now i c') [] := nextStream_inv h.base hc h1 h2
  have hone : OneStream c := h.base.one c hm
  have hrec : RecoversLosses c'.log := h3 ▸ h.recovers c hm
  unfold nextStream at hbase ⊢
  rw [h1, h2] at hbase ⊢
  cases hpend : c.pending with
  | some p =>
    have hcur : c.current = none := by simpa [OneStream, hpend] using hone
    rw [hpend] at hbase
    refine h.replace (Trimmed.refl s) rfl hbase hrec ((h.owes c hm).of_client h3 ?_ h4)
    simp [LmdOutputClient.position, hcur, hpend]
  | none =>
    cases hcur : c.current with
    | none =>
      rw [hpend, hcur] at hbase
      refine h.replace (askRecovery_view s c'.need).trimmed (askRecovery_clients _ _) hbase hrec
        ((h.owes c hm).of_client h3 ?_ h4)
      simp [LmdOutputClient.position, hcur, hpend]
    | some cur =>
      have hpos : c.position = some cur := by simp [LmdOutputClient.position, hcur]
      have hact : cur ∈ s.active := by
        rcases h.base.held_or_loose hm hpos with ha | ⟨-, hl⟩
        · exact ha
        · cases hl
      rw [hpend, hcur] at hbase
      rw [h4] at hbase ⊢
      cases hg : s.getNextClientStream now cur c.need with
      | mk s' r =>
        obtain ⟨found, need⟩ := r
        simp only [hg] at hbase ⊢
        obtain ⟨hsearch, htrim⟩ := getNextClientStream_spec h.sendonce hact hg
        have hclients := (getNextClientStream_pool
          (h.base.pool.perm_refs (hpos ▸ positions_perm hc)) hg).2
        have howes : ∀ n ∈ owed c.log, FoundAfterLoss s n (streamsAfter s.active cur) found need :=
          fun n hn => owes_found h hm hpos hn hsearch
        cases found with
        | none =>
          refine h.replace (htrim.trans (askRecovery_view s' need).trimmed)
            ((askRecovery_clients _ _).trans hclients) hbase hrec ?_
          intro n hn
          have hn' : n ∈ owed c.log := h3 ▸ hn
          exact ⟨fun _ => howes n hn', fun x hx => (by cases hx), (h.owes c hm n hn').2.2⟩
        | some m =>
          obtain ⟨a, b, hab⟩ := List.append_of_mem (searchNext_mem hsearch).1
          obtain ⟨hahead, hsort⟩ := sorted_ahead h hab hact
          have hafter : streamsAfter s.active m = b := (List.cons.inj hahead).2
          obtain ⟨hg1, hg2⟩ := given_owes h hm (by
            intro n hn
            rcases howes n hn with hr | ⟨a', b', hab', hcov⟩
            · exact .inl hr
            · right
              rw [(sorted_ahead h hab' hact).1]
              exact hcov) (by rw [hafter]; exact hsort)
          have hlog : (s.noteGiven m c).log = c'.log ++
              [.given (s.streams m).firstBuf (s.flags m).isRecovery] := by
            rw [h3]
            rfl
          rw [hlog] at hg1 hg2
          refine h.replace htrim hclients hbase hg1 ?_
          intro n hn
          obtain ⟨hc1, hc2⟩ := hg2 n hn
          refine ⟨fun hx => (by cases hx), ?_, hc2⟩
          intro x hx
          cases hx
          exact hc1

theorem closeClient_sticky (h : StickyInv s []) (hc : s.clients[i]? = some c) :
    StickyInv (s.closeClient i c) [] := by
  have hbase := closeClient_inv h.base hc
  have hm := List.mem_of_getElem? hc
  have hfree : ∀ x, c.position = some x → Trimmed s (s.freeClientStream x) := by
    intro x hx
    apply freeClientStream_trimmed h.sendonce
    rcases h.base.held_or_loose hm hx with ha | ⟨-, hl⟩
    · exact ha
    · cases hl
  have hdrop : ∀ u : LmdOutputTcp, Trimmed s u → u.clients = s.clients →
      StreamsInv { u with clients := u.clients.eraseIdx i } [] →
      StickyInv { u with clients := u.clients.eraseIdx i } [] := by
    intro u hu hcl hb
    refine h.trim (hu.trans ⟨fun _ => rfl, fun _ => rfl, ⟨[], rfl⟩, rfl, rfl, rfl, rfl, rfl⟩) hb ?_
    intro d hd
    left
    rw [← hcl]
    exact List.mem_of_mem_eraseIdx hd
  unfold closeClient at hbase ⊢
  cases hcur : c.current with
  | some x =>
    rw [hcur] at hbase
    exact hdrop _ (hfree x (by simp [LmdOutputClient.position, hcur]))
      (freeClientStream_clients _ _) hbase
  | none =>
    rw [hcur] at hbase
    cases hpend : c.pending with
    | some x =>
      rw [hpend] at hbase
      exact hdrop _ (hfree x (by simp [LmdOutputClient.position, hcur, hpend]))
        (freeClientStream_clients _ _) hbase
    | none =>
      rw [hpend] at hbase
      exact hdrop s (Trimmed.refl s) rfl hbase

theorem serveClient_sticky {now : Int} {io : SocketIo} (h : StickyInv s [])
    (hs : s.serveClient now i io = some t) : StickyInv t [] := by
  rcases serveClient_cases hs with rfl | ⟨c, hc, rfl | ⟨c', hc', rfl | rfl⟩⟩
  · exact h
  · exact closeClient_sticky h hc
  · exact h.setClient_same hc hc'.current hc'.pending hc'.log hc'.need
  · exact nextStream_sticky h hc hc'.current hc'.pending hc'.log hc'.need

end Trim

section Arrival

variable {s t : LmdOutputTcp} {loose : List Nat} {c : LmdOutputClient} {i stream : Nat}

theorem takeFilledStream_sticky {rest : List Nat} (h : StickyInv s [])
    (hfill : s.filled = stream :: rest) : StickyInv (s.takeFilledStream stream rest) [stream] := by
  have hmod := modifyStream_trimmed s stream (fun x => { x with clients := 0 })
    fun _ => ⟨rfl, rfl⟩
  have hcoming : (s.takeFilledStream stream rest).coming [stream] = s.coming [] := by
    unfold LmdOutputTcp.coming
    rw [hfill]
    rfl
  refine ⟨takeFilledStream_inv h.base hfill, h.sendonce, h.dropold, ?_, ?_, ?_, h.recovers, ?_⟩
  · rw [hcoming]
    refine h.sorted.imp ?_
    intro x y hxy
    exact (hmod.firstBuf x).symm ▸ (hmod.firstBuf y).symm ▸ hxy
  · intro x hx
    refine lt_of_eq_of_lt (hmod.firstBuf x) (h.below x ?_)
    rw [hfill]
    simp only [List.mem_append, List.mem_cons, List.not_mem_nil, or_false] at hx ⊢
    exact or_assoc.mp hx
  · intro x hx
    exact le_of_eq_of_le (hmod.firstBuf x) (h.filling x hx)
  · intro d hd
    refine (h.owes d hd).frame (fun _ _ => rfl) (fun _ _ q _ => ⟨hmod.firstBuf q, fun hl => ?_⟩)
      ?_ (le_refl _)
    · exact (hmod.flags q).symm ▸ hl
    · intro q hq
      rw [hcoming] at hq
      exact .inl ⟨hq, hmod.firstBuf q⟩

theorem arrival_log (h : RecoversLosses c.log)
    (hrec : ∀ n ∈ owed c.log, (s.flags stream).isRecovery = true ∧
      n < (s.streams stream).firstBuf) :
    RecoversLosses (s.noteGiven stream c).log ∧ owed (s.noteGiven stream c).log = [] := by
  constructor
  · apply recoversLosses_snoc h
    intro m he n hn
    simp only [ClientEvent.given.injEq] at he
    rw [(hrec n hn).1] at he
    cases he.2
  · unfold noteGiven
    rw [owed_snoc]
    by_cases hz : owed c.log = []
    · rw [hz]
      cases (s.flags stream).isRecovery <;> rfl
    · obtain ⟨n, hn⟩ := List.exists_mem_of_ne_nil _ hz
      rw [(hrec n hn).1]
      apply List.filter_eq_nil_iff.mpr
      intro k hk
      have := (hrec k hk).2
      simpa using this

theorem streamIsAvailable_sticky (h : StickyInv s loose) (hl : stream ∈ loose)
    (hc : s.clients[i]? = some c) : StickyInv (s.streamIsAvailable i c stream).2 loose := by
  have hm := List.mem_of_getElem? hc
  have hbase := streamIsAvailable_inv h.base hl hc
  unfold streamIsAvailable at hbase ⊢
  split
  · exact h
  · rename_i hfree
    rw [if_neg hfree] at hbase
    simp only [Bool.or_eq_true, not_or, Bool.not_eq_true, Option.isSome_eq_false_iff,
      Option.isNone_iff_eq_none] at hfree
    have hpos : c.position = none := by simp [LmdOutputClient.position, hfree.1, hfree.2]
    split
    · exact h
    · rename_i honce
      rw [if_neg honce] at hbase
      dsimp only at hbase ⊢
      generalize hu : (if c.need = .unknown then
        s.askRecovery (resolveNeed s.stickyEventsSeen c.need) else s) = u at hbase ⊢
      have hview : SameView s u := by
        subst hu
        split
        · exact askRecovery_view _ _
        · exact ⟨rfl, rfl, rfl, rfl, rfl, rfl, rfl, rfl⟩
      have hflags : u.flags stream = s.flags stream := by
        unfold LmdOutputTcp.flags
        rw [hview.streams]
      rw [hflags] at hbase ⊢
      -- with something to make up for only a recovery stream matches
      have hresolve : ∀ n ∈ owed c.log, resolveNeed s.stickyEventsSeen c.need = .first := by
        intro n hn
        rw [(h.owes c hm n hn).1 hpos]
        rfl
      have hstream : ∀ n ∈ owed c.log, n < (s.streams stream).firstBuf := fun n hn =>
        (h.owes c hm n hn).2.2.2 stream (by simp [LmdOutputTcp.coming, hl])
      cases hmatch : matchingRecoveryStream (s.flags stream)
          (resolveNeed s.stickyEventsSeen c.need) with
      | mk ok need =>
        rw [hmatch] at hbase
        cases ok with
        | false =>
          refine h.replace hview.trimmed hview.clients hbase (h.recovers c hm) ?_
          intro n hn
          refine ⟨fun _ => ?_, fun x hx => ?_, (h.owes c hm n hn).2.2⟩
          · rw [hresolve n hn] at hmatch
            exact (matching_first hmatch).2 rfl
          · exact absurd (show c.position = some x from hx) (by rw [hpos]; simp)
        | true =>
          obtain ⟨hr, hz⟩ := @arrival_log s { c with need := need } stream (h.recovers c hm) (by
            intro n hn
            rw [hresolve n hn] at hmatch
            exact ⟨(matching_first hmatch).1 rfl, hstream n hn⟩)
          have hsame : u.noteGiven stream { c with need := need } =
              s.noteGiven stream { c with need := need } := by
            unfold noteGiven LmdOutputTcp.flags
            rw [hview.streams]
          have htrim : Trimmed s (u.addClients stream 1) :=
            hview.trimmed.trans (addClients_trimmed u stream 1)
          dsimp only at hbase ⊢
          rw [hsame] at hbase ⊢
          split
          · rename_i hstate
            rw [if_pos hstate] at hbase
            refine h.replace htrim hview.clients hbase hr ?_
            intro n hn
            rw [show owed _ = [] from hz] at hn
            cases hn
          · rename_i hstate
            rw [if_neg hstate] at hbase
            refine h.replace htrim hview.clients hbase hr ?_
            intro n hn
            rw [show owed _ = [] from hz] at hn
            cases hn

theorem offerStream_sticky {order : List Nat} (h : StickyInv s loose) (hl : stream ∈ loose) :
    StickyInv (offerStream stream s order) loose := by
  induction order generalizing s with
  | nil => exact h
  | cons i rest ih =>
    unfold offerStream
    cases hc : s.clients[i]? with
    | none => exact ih h
    | some c =>
      have hinv := streamIsAvailable_sticky h hl hc
      cases hr : s.streamIsAvailable i c stream with
      | mk used u =>
        rw [hr] at hinv
        simp only [hr]
        split
        · exact hinv.of_view ⟨rfl, rfl, rfl, rfl, rfl, rfl, rfl, rfl⟩
            ⟨{ hinv.base.pool with }, hinv.base.one⟩
        · exact ih hinv

theorem addClientStream_sticky (h : StickyInv s [stream]) :
    StickyInv (s.addClientStream stream) [] := by
  have hcoming : s.coming [stream] = stream :: s.coming [] := rfl
  have hsort := h.sorted
  rw [hcoming] at hsort
  have hbase : StreamsInv (s.addClientStream stream) [] :=
    ⟨{ h.base.pool.addClientStream with }, h.base.one⟩
  refine ⟨hbase, h.sendonce, h.dropold, ?_, ?_, h.filling, h.recovers, ?_⟩
  · show ((s.active ++ [stream]) ++ s.coming []).Pairwise _
    rw [List.append_assoc]
    exact hsort
  · intro x hx
    apply h.below x
    have hx' : x ∈ (s.active ++ [stream]) ++ [] ++ s.filled := hx
    simpa using hx'
  · intro c hc n hn
    obtain ⟨h1, h2, h3, h4⟩ := h.owes c hc n hn
    refine ⟨h1, ?_, h3, fun q hq => h4 q (by rw [hcoming]; exact List.mem_cons_of_mem _ hq)⟩
    intro x hx
    have hcov := h2 x hx
    rcases h.base.held_or_loose hc hx with ha | ⟨hna, hl⟩
    · obtain ⟨a, b, hab, hxa, -⟩ := split_at_stream ha h.base.pool.active_nodup
      rw [ahead_append hab hxa] at hcov
      rw [@ahead_append (s.addClientStream stream) a (b ++ [stream]) x (by
        show s.active ++ [stream] = _
        rw [hab]
        simp) hxa]
      exact hcov.snoc (h4 stream (by rw [hcoming]; simp))
    · rw [ahead_not_active hna] at hcov
      rw [List.mem_singleton.mp hl] at hcov hna ⊢
      rw [@ahead_append (s.addClientStream stream) s.active [] stream rfl hna]
      exact hcov

theorem placeStream_sticky (h : StickyInv s [stream]) : StickyInv (s.placeStream stream) [] := by
  have hbase := placeStream_inv h.base
  unfold placeStream at hbase ⊢
  split
  · exact addClientStream_sticky h
  · rename_i hun
    rw [if_neg hun] at hbase
    have hview := addFreeStream_view s stream
    generalize s.addFreeStream stream = t at hbase hview ⊢
    have hsort := h.sorted
    have hcoming : s.coming [stream] = stream :: s.coming [] := rfl
    have hcoming' : t.coming [] = s.coming [] := by
      unfold LmdOutputTcp.coming
      rw [hview.filled, hview.fillStream]
    refine ⟨hbase, hview.sendonce.trans h.sendonce, hview.dropold.trans h.dropold, ?_, ?_, ?_,
      ?_, ?_⟩
    · rw [hcoming', hview.active, hview.streams]
      rw [hcoming] at hsort
      exact hsort.sublist ((List.sublist_cons_self _ _).append_left _)
    · intro x hx
      rw [hview.active, hview.filled] at hx
      rw [hview.streams, hview.lBuf]
      apply h.below x
      simp only [List.append_nil, List.mem_append] at hx ⊢
      tauto
    · rw [hview.streams, hview.fillStream, hview.lBuf]
      exact h.filling
    · rw [hview.clients]
      exact h.recovers
    · rw [hview.clients]
      intro c hc
      refine (h.owes c hc).frame (fun x _ => ?_) (fun _ _ q _ => ⟨by rw [hview.streams], ?_⟩) ?_
        (le_of_eq hview.lBuf.symm)
      · unfold LmdOutputTcp.ahead
        rw [hview.active]
      · unfold LmdOutputTcp.flags
        rw [hview.streams]
        exact id
      · intro q hq
        rw [hcoming'] at hq
        exact .inl ⟨by rw [hcoming]; exact List.mem_cons_of_mem _ hq, by rw [hview.streams]⟩

theorem dequeFilledStream_sticky (h : StickyInv s []) (hs : s.dequeFilledStream = some t) :
    StickyInv t [] := by
  unfold dequeFilledStream at hs
  split at hs
  · cases hs
  · split at hs
    · cases hs
    · rename_i stream rest hfill
      cases hs
      apply placeStream_sticky
      exact offerStream_sticky (takeFilledStream_sticky h hfill) (List.mem_singleton_self stream)

end Arrival

section Producer

variable {s t : LmdOutputTcp} {stream : Nat}

theorem StickyInv.modify {f : LmdOutputStream → LmdOutputStream} (h : StickyInv s [])
    (hb : StreamsInv (s.modifyStream stream f) [])
    (hf : stream ∈ s.active ++ s.coming [] → ∀ x, (f x).firstBuf = x.firstBuf ∧
      (x.flags.stickyLostAfter = true → (f x).flags.stickyLostAfter = true)) :
    StickyInv (s.modifyStream stream f) [] := by
  have hq : ∀ q ∈ s.active ++ s.coming [],
      ((s.modifyStream stream f).streams q).firstBuf = (s.streams q).firstBuf ∧
        ((s.flags q).stickyLostAfter = true →
          ((s.modifyStream stream f).flags q).stickyLostAfter = true) := by
    intro q hm
    show (if q = stream then f (s.streams q) else s.streams q).firstBuf = _ ∧
      (_ → (LmdOutputStream.flags
        (if q = stream then f (s.streams q) else s.streams q)).stickyLostAfter = true)
    by_cases he : q = stream
    · subst he
      rw [if_pos rfl]
      exact hf hm (s.streams q)
    · rw [if_neg he]
      exact ⟨rfl, id⟩
  have hcov : ∀ q, q ∈ s.filled ∨ q ∈ s.fillStream.toList → q ∈ s.coming [] := by
    intro q hm
    unfold LmdOutputTcp.coming
    simpa using hm
  refine ⟨hb, h.sendonce, h.dropold, ?_, ?_, ?_, h.recovers, ?_⟩
  · refine List.Pairwise.imp_of_mem ?_ h.sorted
    intro x y hx hy hxy
    rw [(hq x hx).1, (hq y hy).1]
    exact hxy
  · intro x hx
    have hx' : x ∈ s.active ++ [] ++ s.filled := hx
    rw [(hq x (by
      rcases List.mem_append.mp hx' with hm | hm
      · exact List.mem_append_left _ (by simpa using hm)
      · exact List.mem_append_right _ (hcov x (.inl hm)))).1]
    exact h.below x hx
  · intro x hx
    have hx' : s.fillStream = some x := hx
    rw [(hq x (List.mem_append_right _ (hcov x (.inr (by simp [hx']))))).1]
    exact h.filling x hx
  · intro c hc
    refine (h.owes c hc).frame (fun _ _ => rfl) ?_ ?_ (le_refl _)
    · intro x hx q hm
      apply hq q
      rcases mem_ahead hm with rfl | hm
      · rcases h.base.held_or_loose hc hx with ha | ⟨-, hl⟩
        · exact List.mem_append_left _ ha
        · cases hl
      · exact List.mem_append_left _ hm
    · intro q hm
      exact .inl ⟨hm, (hq q (List.mem_append_right _ hm)).1⟩

theorem createFreeStream_sticky (h : StickyInv s []) (hlt : s.numStreams < s.maxStreams)
    (hs : s.createFreeStream = some t) : StickyInv t [] := by
  have hbase := createFreeStream_inv h.base hlt hs
  have hnew : s.allocStreamNo + 1 ∉ s.allocated := by
    intro hm
    have := h.base.pool.fresh _ hm
    omega
  have hout : s.allocStreamNo + 1 ∉ s.active ++ s.coming [] := by
    intro hm
    apply hnew
    apply h.base.pool.mem_allocated
    unfold LmdOutputTcp.coming at hm
    simp only [List.mem_append] at hm ⊢
    tauto
  unfold createFreeStream at hs
  split at hs
  · cases hs
  · cases hs
    have hmod : StickyInv (s.modifyStream (s.allocStreamNo + 1) fun _ => ⟨.zero, 0, 0, 0, 0, 0⟩) [] :=
      h.modify ⟨h.base.pool.modifyStream (fun hm => absurd hm hnew), h.base.one⟩
        (fun hm => absurd hm hout)
    exact hmod.of_view
      (let v := addFreeStream_view _ _
       ⟨v.streams, v.active, v.filled, v.fillStream, v.clients, v.lBuf, v.sendonce, v.dropold⟩)
      hbase

theorem createFreeStreams_sticky (fuel : Nat) (h : StickyInv s []) :
    StickyInv (createFreeStreams fuel s) [] := by
  induction fuel generalizing s with
  | zero => exact h
  | succ fuel ih =>
    unfold createFreeStreams
    split
    · rename_i hlt
      cases hc : s.createFreeStream with
      | none => exact h
      | some u => exact ih (createFreeStream_sticky h hlt hc)
    · exact h

end Producer

end Ucesb
