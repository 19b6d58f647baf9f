import Ucesb.StickyAssert

namespace Ucesb

/-- What may happen to an entry once it is there: subevents cease to be live, counts change. -/
def Fades : MetaEntry → MetaEntry → Prop
  | .event a, .event b => b.dataOffset = a.dataOffset ∧ b.dataLength = a.dataLength
  | .subevent a, .subevent b => b.evOffset = a.evOffset ∧ b.dataLength = a.dataLength ∧
      (b.dataOffset = a.dataOffset ∨ b.dataOffset = none)
  | _, _ => False

theorem Fades.refl (a : MetaEntry) : Fades a a := by
  cases a <;> simp [Fades]

theorem Fades.trans {a b c : MetaEntry} (h : Fades a b) (h' : Fades b c) : Fades a c := by
  cases a <;> cases b <;> cases c <;> simp_all [Fades]
  rcases h'.2.2 with hd | hd
  · rw [hd]
    exact h.2.2
  · exact .inr hd

def FadesAll : List MetaEntry → List MetaEntry → Prop := List.Forall₂ Fades

theorem FadesAll.refl (ms : List MetaEntry) : FadesAll ms ms :=
  List.forall₂_same.mpr fun a _ => Fades.refl a

theorem FadesAll.trans {xs ys zs : List MetaEntry} (h : FadesAll xs ys) (h' : FadesAll ys zs) :
    FadesAll xs zs := by
  unfold FadesAll at *
  induction h generalizing zs with
  | nil => exact h'
  | cons hr _ ih =>
    cases h' with
    | cons hr' ht' => exact List.Forall₂.cons (hr.trans hr') (ih ht')

theorem FadesAll.set {ms : List MetaEntry} {i : Nat} {a b : MetaEntry} (h : ms[i]? = some a)
    (hab : Fades a b) : FadesAll ms (ms.set i b) := by
  unfold FadesAll
  induction ms generalizing i with
  | nil => simp at h
  | cons m ms ih =>
    cases i with
    | zero =>
      rw [List.getElem?_cons_zero, Option.some.injEq] at h
      exact List.Forall₂.cons (h ▸ hab) (FadesAll.refl ms)
    | succ i => exact List.Forall₂.cons (Fades.refl m) (ih h)

theorem supersede_fades (s : StickyStore) (entry off : Nat) :
    FadesAll s.metas (s.supersede entry off).metas := by
  unfold StickyStore.supersede
  split
  next sev hsev =>
    split
    next ev hev =>
      have hsub : FadesAll s.metas
          (s.metas.set off (.subevent { sev with dataOffset := none })) :=
        FadesAll.set hsev ⟨rfl, rfl, .inr rfl⟩
      refine hsub.trans (@FadesAll.set _ sev.evOffset (.event ev) _ ?_ ⟨rfl, rfl⟩)
      have hne : off ≠ sev.evOffset := by
        intro heq
        rw [← heq, hsev] at hev
        cases hev
      rw [List.getElem?_set_ne hne, hev]
    next => exact FadesAll.refl _
  next => exact FadesAll.refl _

theorem uncount_fades (s : StickyStore) (evOffset : Nat) :
    FadesAll s.metas (s.uncount evOffset).metas := by
  unfold StickyStore.uncount
  split
  next ev hev => exact FadesAll.set hev ⟨rfl, rfl⟩
  next => exact FadesAll.refl _

theorem vacate_fades (s : StickyStore) (entry : Nat) :
    FadesAll s.metas (s.vacate entry).metas ∧ (s.vacate entry).data = s.data := by
  unfold StickyStore.vacate
  split
  next off _ =>
    refine ⟨supersede_fades s entry off, ?_⟩
    unfold StickyStore.supersede
    split
    · split <;> rfl
    · rfl
  next => exact ⟨FadesAll.refl _, rfl⟩

theorem enterHash_fades {s s' : StickyStore} {bs : List UInt8} {keep : Bool} {dest : Nat}
    (h : s.enterHash bs keep dest = .ok s') : FadesAll s.metas s'.metas ∧ s'.data = s.data := by
  unfold StickyStore.enterHash at h
  split at h
  next => cases h
  next entry _ =>
    have hv := vacate_fades s entry
    simp only at h
    split at h
    next =>
      split at h
      next => cases h
      next =>
        cases h
        exact hv
    next =>
      cases h
      exact hv

/-- The entries for the pieces of an event that starts at `evDataOff`. -/
def entriesFor (discardRevoke : Bool) (evOffset evDataOff : Nat) :
    Nat → List (List UInt8) → List MetaEntry
  | _, [] => []
  | off, b :: subs =>
    (if !discardRevoke || !subIsRevoke b
      then [.subevent ⟨evOffset, some (evDataOff + off), b.length⟩] else []) ++
      entriesFor discardRevoke evOffset evDataOff (off + b.length) subs

theorem insertSubevents_fades {discardRevoke : Bool} {evOffset evDataOff evLen fuel off : Nat}
    {subs : List (List UInt8)} {s s' : StickyStore}
    (hdata : s.data.drop (evDataOff + off) = subs.flatten) (hw : SubeventWalk subs)
    (hoff : evDataOff + off ≤ s.data.length) (hend : evDataOff + evLen = s.data.length)
    (hfuel : subs.length ≤ fuel)
    (h : insertSubevents discardRevoke evOffset evDataOff evLen fuel off s = .ok s') :
    FadesAll (s.metas ++ entriesFor discardRevoke evOffset evDataOff off subs) s'.metas ∧
      s'.data = s.data := by
  induction subs generalizing fuel off s with
  | nil =>
    have hle := List.drop_eq_nil_iff.mp hdata
    have hs : insertSubevents discardRevoke evOffset evDataOff evLen fuel off s = .ok s := by
      cases fuel with
      | zero => rfl
      | succ fuel => rw [insertSubevents, if_pos (by omega)]
    rw [hs, Except.ok.injEq] at h
    rw [← h, entriesFor, List.append_nil]
    exact ⟨FadesAll.refl _, rfl⟩
  | cons b subs ih =>
    obtain ⟨fuel, rfl⟩ := Nat.exists_eq_add_one_of_ne_zero (show fuel ≠ 0 by simp at hfuel; omega)
    obtain ⟨hd, hd', hlen⟩ := drop_flatten_cons hdata
    have h8 : 8 ≤ b.length := hw.2.1 ▸ eight_le_subLength b
    have hsub : subLength (s.data.drop (evDataOff + off)) = b.length := by
      rw [hd, subLength_append _ h8, hw.2.1]
    rw [insertSubevents, if_neg (by omega), hsub] at h
    obtain ⟨s₁, hins, hrest⟩ := except_bind_ok h
    -- the new entry, with whatever else changes for it
    have hstep : FadesAll (s.metas ++ if !discardRevoke || !subIsRevoke b
        then [.subevent ⟨evOffset, some (evDataOff + off), b.length⟩] else []) s₁.metas ∧
        s₁.data = s.data := by
      rw [StickyStore.insertSubevent, hd, subIsRevoke_append _ h8] at hins
      cases hk : !discardRevoke || !subIsRevoke b with
      | true =>
        simp only [hk, if_true] at hins ⊢
        exact enterHash_fades hins
      | false =>
        simp only [hk, Bool.false_eq_true, if_false, List.append_nil] at hins ⊢
        obtain ⟨hf, hdat⟩ := enterHash_fades hins
        have hun : (s.uncount evOffset).data = s.data := by
          unfold StickyStore.uncount
          split <;> rfl
        exact ⟨(uncount_fades s evOffset).trans hf, hdat.trans hun⟩
    obtain ⟨hf, hdat⟩ := hstep
    obtain ⟨hf', hdat'⟩ := ih (by rw [hdat, ← Nat.add_assoc]; exact hd') hw.2.2
      (by rw [hdat]; omega) (by rw [hdat]; exact hend) (by simpa using hfuel) hrest
    refine ⟨FadesAll.trans ?_ hf', hdat'.trans hdat⟩
    rw [entriesFor, ← List.append_assoc]
    exact List.rel_append hf (FadesAll.refl _)

def spansOf : Nat → List (List UInt8) → List (Nat × Nat)
  | _, [] => []
  | off, b :: subs => (off, b.length) :: spansOf (off + b.length) subs

/-- Spans that are apart, hold a header each, and cover the data after the event header. -/
structure CoversEvent (spans : List (Nat × Nat)) (evLen : Nat) : Prop where
  apart : spans.Pairwise fun p q => p.1 + p.2 ≤ q.1
  header : ∀ p ∈ spans, sizeofSubevent101 ≤ p.2
  cover : ∀ i, (∃ p ∈ spans, p.1 ≤ i ∧ i < p.1 + p.2) ↔ sizeofEvent101 ≤ i ∧ i < evLen

/-- The last event of the store is `e`, with these spans: the time stamps `ts` counted to its
header, and an entry for each of the others except the revokes that are discarded. -/
def RecordedAs (s : StickyStore) (e : LmdEventOut) (discardRevoke : Bool)
    (ts rest : List (Nat × Nat)) : Prop :=
  ∃ base ev subs, s.metas = base ++ .event ev :: subs ∧
    s.data.drop ev.dataOffset = e.write ∧
    ev.dataLength = sizeofEvent101 + (ts.map (·.2)).sum ∧
    List.Forall₂ (fun p m => Fades (.subevent ⟨base.length, some (ev.dataOffset + p.1), p.2⟩) m)
      (rest.filter fun p => !discardRevoke || !subIsRevoke (e.write.drop p.1)) subs

/-- A subevent, at the end of well-formed ones, whose `l_dlen` does not cover its own header
words or runs past the end. -/
def LmdEventOut.HasBadSubevent (e : LmdEventOut) : Prop :=
  ∃ (subs : List (List UInt8)) (rest : List UInt8), nativeData e.more = subs.flatten ++ rest ∧
    (∀ b ∈ subs, WholeSubevent b) ∧ sizeofSubevent101 ≤ rest.length ∧ subIsRevoke rest = false ∧
    (rd32 rest < 2 ∨ rest.length < 8 + 2 * rd32 rest)

/-- `insert` stores events only in spans that cover them, and rejects those with a bad
subevent. -/
structure StickyStore.InsertsWellFormed (s : StickyStore) (e : LmdEventOut)
    (discardRevoke : Bool) : Prop where
  recorded : ∀ s', s.insertEnd e discardRevoke = .stored s' → ∃ ts rest,
    CoversEvent (ts ++ rest) e.write.length ∧ RecordedAs s' e discardRevoke ts rest
  rejected : e.HasBadSubevent → s.insertEnd e discardRevoke = .aborted ∨
    ∃ s', s.insertEnd e discardRevoke = .failed s'

section Spans

variable {raw : List UInt8} {subs : List (List UInt8)}

theorem spansOf_le (off : Nat) (subs : List (List UInt8)) :
    ∀ p ∈ spansOf off subs, off ≤ p.1 := by
  induction subs generalizing off with
  | nil => simp [spansOf]
  | cons b subs ih =>
    intro p hp
    rcases List.mem_cons.mp hp with rfl | hp
    · exact Nat.le_refl off
    · exact Nat.le_trans (Nat.le_add_right _ _) (ih _ p hp)

theorem spansOf_apart (off : Nat) (subs : List (List UInt8)) :
    (spansOf off subs).Pairwise fun p q => p.1 + p.2 ≤ q.1 := by
  induction subs generalizing off with
  | nil => exact List.Pairwise.nil
  | cons b subs ih => exact List.Pairwise.cons (spansOf_le _ subs) (ih _)

theorem spansOf_cover (off i : Nat) (subs : List (List UInt8)) :
    (∃ p ∈ spansOf off subs, p.1 ≤ i ∧ i < p.1 + p.2) ↔
      off ≤ i ∧ i < off + subs.flatten.length := by
  induction subs generalizing off with
  | nil =>
    simp only [spansOf, List.not_mem_nil, false_and, exists_false, List.flatten_nil,
      List.length_nil, false_iff]
    omega
  | cons b subs ih =>
    simp only [spansOf, List.mem_cons, exists_eq_or_imp, ih, List.flatten_cons,
      List.length_append]
    omega

theorem spansOf_header (off : Nat) (h : ∀ b ∈ subs, sizeofSubevent101 ≤ b.length) :
    ∀ p ∈ spansOf off subs, sizeofSubevent101 ≤ p.2 := by
  induction subs generalizing off with
  | nil => simp [spansOf]
  | cons b subs ih =>
    intro p hp
    rcases List.mem_cons.mp hp with rfl | hp
    · exact h b (by simp)
    · exact ih _ (fun c hc => h c (by simp [hc])) p hp

theorem spansOf_sum (off : Nat) (subs : List (List UInt8)) :
    ((spansOf off subs).map (·.2)).sum = subs.flatten.length := by
  induction subs generalizing off with
  | nil => rfl
  | cons b subs ih => simp [spansOf, ih]

theorem spansOf_append (off : Nat) (xs ys : List (List UInt8)) :
    spansOf off (xs ++ ys) = spansOf off xs ++ spansOf (off + xs.flatten.length) ys := by
  induction xs generalizing off with
  | nil => simp [spansOf]
  | cons b xs ih => simp [spansOf, ih, Nat.add_assoc]

theorem entriesFor_eq {discardRevoke : Bool} {evOffset evDataOff off : Nat}
    (h : raw.drop off = subs.flatten) (hw : SubeventWalk subs) :
    entriesFor discardRevoke evOffset evDataOff off subs =
      ((spansOf off subs).filter fun p => !discardRevoke || !subIsRevoke (raw.drop p.1)).map
        fun p => .subevent ⟨evOffset, some (evDataOff + p.1), p.2⟩ := by
  induction subs generalizing off with
  | nil => rfl
  | cons b subs ih =>
    obtain ⟨hd, hd', _⟩ := drop_flatten_cons h
    have h8 : 8 ≤ b.length := hw.2.1 ▸ eight_le_subLength b
    have hrev : subIsRevoke (raw.drop off) = subIsRevoke b := by
      rw [hd, subIsRevoke_append _ h8]
    rw [entriesFor, ih hd' hw.2.2, spansOf, List.filter_cons]
    simp only [hrev]
    split <;> simp

end Spans

theorem reserveMeta_data (s : StickyStore) (metaAdd : Nat) :
    (s.reserveMeta metaAdd).1.data = s.data := by
  unfold StickyStore.reserveMeta
  split
  · simp only
    split <;> rfl
  · rfl

theorem populateHash_frame {s s' : StickyStore} (h : s.populateHash = .ok s') :
    s'.data = s.data ∧ s'.metas = s.metas := by
  have hfold : ∀ (subs : List (Nat × Nat)) (t t' : StickyStore),
      subs.foldlM (fun (t : StickyStore) (p : Nat × Nat) => t.insertHash p.1 p.2) t = .ok t' →
      t'.data = t.data ∧ t'.metas = t.metas := by
    intro subs
    induction subs with
    | nil =>
      intro t t' ht
      cases ht
      exact ⟨rfl, rfl⟩
    | cons p subs ih =>
      intro t t' ht
      rw [List.foldlM_cons] at ht
      obtain ⟨t₁, hins, hrest⟩ := except_bind_ok ht
      obtain ⟨hd, hm⟩ := ih t₁ t' hrest
      unfold StickyStore.insertHash at hins
      split at hins
      next => cases hins
      next =>
        cases hins
        exact ⟨hd, hm⟩
  have hframe := hfold (liveSubs 0 s.groups)
    { s with hash := List.replicate s.hash.length .empty, hashUsed := 0 } s' h
  exact hframe

theorem reserveHash_frame {s s' : StickyStore} {hashAdd : Nat} {recalcHash : Bool}
    (h : s.reserveHash hashAdd recalcHash = .ok s') : s'.data = s.data ∧ s'.metas = s.metas := by
  unfold StickyStore.reserveHash at h
  simp only at h
  generalize (if s.hashUsed + hashAdd > s.hash.length / 2 then _ else s.hash.length) = sz at h
  split at h
  next =>
    have hp := populateHash_frame h
    split at hp
    · exact hp
    · exact hp
  next =>
    rw [Except.ok.injEq] at h
    rw [← h]
    split
    · exact ⟨rfl, rfl⟩
    · exact ⟨rfl, rfl⟩

theorem insert_recorded {s s' : StickyStore} {e : LmdEventOut} {subs : List (List UInt8)}
    {discardRevoke : Bool} (h : e.Accepted subs) (hok : s.insert e discardRevoke = .ok s') :
    RecordedAs s' e discardRevoke (spansOf sizeofEvent101 (subs.takeWhile subIsTstamp))
      (spansOf (sizeofEvent101 + (subs.takeWhile subIsTstamp).flatten.length)
        (subs.dropWhile subIsTstamp)) := by
  have hsplit := @List.takeWhile_append_dropWhile _ subIsTstamp subs
  generalize hts : subs.takeWhile subIsTstamp = ts at *
  generalize hrest : subs.dropWhile subIsTstamp = rest at *
  have hwalk : SubeventWalk rest := walk_append_right (hsplit.symm ▸ h.walk)
  have hraw : e.write.drop (sizeofEvent101 + ts.flatten.length) = rest.flatten := by
    rw [← List.drop_drop, write_drop h.data, ← hsplit, List.flatten_append, List.drop_left]
  have hwl := write_length h.copyable
  have hlen : e.write.length = sizeofEvent101 + ts.flatten.length + rest.flatten.length := by
    have hd := congrArg List.length (write_drop h.data)
    have h16 := sixteen_le_write h.copyable
    rw [List.length_drop, ← hsplit, List.flatten_append, List.length_append] at hd
    omega
  have hnum : rest.length ≤ e.getLength + sizeofEventHeader := by
    have := walk_length_le hwalk
    omega
  rw [insert_eq_counted h, hts, hrest, StickyStore.insertCounted] at hok
  generalize hoff : (s.reserveData (e.getLength + sizeofEventHeader)).data.length = evDataOff at hok
  have hcopied : (s.copied e).data.drop evDataOff = e.write ∧
      (s.copied e).data.length = evDataOff + e.write.length := by
    rw [← hoff]
    simp [StickyStore.copied]
  generalize hr : (s.copied e).reserveMeta (sizeofMetaEntry + rest.length * sizeofMetaEntry) = p
    at hok
  have hd₃ := reserveMeta_data (s.copied e) (sizeofMetaEntry + rest.length * sizeofMetaEntry)
  rw [hr] at hd₃
  obtain ⟨s₄, hres, hins⟩ := except_bind_ok hok
  have hd₄ : s₄.data = (s.copied e).data := (reserveHash_frame hres).1.trans hd₃
  rw [← hd₄] at hcopied
  obtain ⟨hfades, hdata⟩ := insertSubevents_fades
    (by rw [← List.drop_drop, hcopied.1]; exact hraw) hwalk
    (by simp only; omega) (by simp only; omega) hnum hins
  rw [List.append_assoc, List.singleton_append] at hfades
  have hbase := List.forall₂_take s₄.metas.length hfades
  have hlast := List.forall₂_drop s₄.metas.length hfades
  rw [List.take_left] at hbase
  rw [List.drop_left] at hlast
  generalize hm : s'.metas.drop s₄.metas.length = tail at hlast
  cases hlast with
  | @cons _ m _ ms hev hsubs =>
    cases m with
    | subevent sev => exact hev.elim
    | event ev =>
      obtain ⟨ho, hl⟩ := hev
      refine ⟨s'.metas.take s₄.metas.length, ev, ms, ?_, ?_, ?_, ?_⟩
      · rw [← hm, List.take_append_drop]
      · rw [ho, hdata]
        exact hcopied.1
      · rw [hl, spansOf_sum]
      · rw [entriesFor_eq hraw hwalk] at hsubs
        rw [← hbase.length_eq, ho]
        exact List.forall₂_map_left_iff.mp hsubs

/-- The events that `insert` should refuse and stores: a piece of the walk by `l_dlen` has an
`l_dlen` of 0 or 1, so that it is shorter than its header. -/
theorem insert_well_formed_iff (s : StickyStore) (e : LmdEventOut) (discardRevoke : Bool) :
    s.InsertsWellFormed e discardRevoke ↔ ¬ ∃ subs, e.Accepted subs ∧ ∃ b ∈ subs, rd32 b < 2 := by
  constructor
  · rintro h ⟨subs, hacc, hshort⟩
    obtain ⟨whole, rest, hflat, hwhole, hrest, hs⟩ := walk_short hacc.walk hshort
    have hrev : subIsRevoke rest = false := by
      rw [subIsRevoke, beq_eq_false_iff_ne]
      intro heq
      rw [heq] at hs
      exact absurd hs (by decide)
    have hend := (insertEnd_checks hacc.copyable s discardRevoke).mpr (accepted_checks hacc)
    have hrej := h.rejected ⟨whole, rest, hacc.data.trans hflat, hwhole, hrest, hrev, .inl hs⟩
    rcases hend with ⟨s', hst⟩ | hst <;> rw [hst] at hrej <;> simp at hrej
  · intro hno
    have hlong : ∀ subs, e.Accepted subs → ∀ b ∈ subs, ¬ rd32 b < 2 :=
      fun subs hacc b hb hs => hno ⟨subs, hacc, b, hb, hs⟩
    constructor
    · intro s' hst
      have hc : e.Copyable := by
        by_contra hc
        rw [StickyStore.insertEnd, if_neg hc] at hst
        cases hst
      obtain ⟨subs, hacc⟩ := checks_accepted hc
        ((insertEnd_checks hc s discardRevoke).mp (.inl ⟨s', hst⟩))
      have hok : s.insert e discardRevoke = .ok s' := by
        rw [StickyStore.insertEnd, if_pos hc] at hst
        split at hst
        next hok =>
          rw [InsertEnd.stored.injEq] at hst
          rw [hok, hst]
        next =>
          split at hst
          · cases hst
          · split at hst <;> cases hst
      refine ⟨_, _, ?_, insert_recorded hacc hok⟩
      rw [← spansOf_append, List.takeWhile_append_dropWhile]
      have hlen : e.write.length = sizeofEvent101 + subs.flatten.length := by
        have hd := congrArg List.length (write_drop hacc.data)
        have h16 := sixteen_le_write hc
        rw [List.length_drop] at hd
        omega
      refine ⟨spansOf_apart _ _, spansOf_header _ ?_, ?_⟩
      · exact fun b hb => (walk_whole hacc.walk hb (hlong subs hacc b hb)).header
      · intro i
        rw [hlen]
        exact spansOf_cover _ _ _
    · rintro ⟨whole, rest, hflat, hwhole, hrest, hrev, hbad⟩
      by_contra hnot
      have hc : e.Copyable := by
        by_contra hc
        exact hnot (.inl (by rw [StickyStore.insertEnd, if_neg hc]))
      have hchk : e.stickyChecks = true := by
        rw [← insertEnd_checks hc s discardRevoke]
        cases hend : s.insertEnd e discardRevoke with
        | stored s' => exact .inl ⟨s', rfl⟩
        | endless => exact .inr rfl
        | aborted => exact absurd (.inl hend) hnot
        | failed s' => exact absurd (.inr ⟨s', hend⟩) hnot
      obtain ⟨subs, hacc⟩ := checks_accepted hc hchk
      exact walk_bad hacc.walk (hlong subs hacc) hwhole (hacc.data.symm.trans hflat) hrest hrev hbad

def shortSubEvent : LmdEventOut :=
  ⟨⟨0, lmdEventStickyType, lmdEventStickySubtype⟩, ⟨0, 1, 1⟩,
    [⟨le32 0 ++ le32 7, false⟩, ⟨le32 4 ++ le32 5 ++ le32 0 ++ le32 1, false⟩]⟩

theorem short_subevent_stored :
    ¬ ∀ (s : StickyStore) (e : LmdEventOut) (discardRevoke : Bool),
      s.InsertsWellFormed e discardRevoke := by
  intro h
  have hbad : shortSubEvent.HasBadSubevent :=
    ⟨[], nativeData shortSubEvent.more, rfl, by simp, by decide, by decide, .inl (by decide)⟩
  have hrej := (h StickyStore.empty shortSubEvent false).rejected hbad
  have hst : @InsertEnd.casesOn (fun _ => Bool) (StickyStore.empty.insertEnd shortSubEvent false)
      (fun _ => true) (fun _ => false) false false = true := by decide +kernel
  rcases hrej with hr | ⟨s', hr⟩ <;> rw [hr] at hst <;> simp at hst

end Ucesb
