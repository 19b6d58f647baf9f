import Ucesb.LmdOutputTcp
import Mathlib.Tactic.Tauto

namespace Ucesb

open LmdOutputTcp

/-- `LOS_FLAGS_STICKY_RECOVERY_FIRST`, and not one of the streams after it. -/
def LosFlags.IsFirst (f : LosFlags) : Prop := f.recoveryFirst = true ∧ f.recoveryMore = false

def LostBy (s : LmdOutputTcp) (now : Int) (stream : Nat) : Prop :=
  (s.flags stream).stickyLostAfter = true ∨
    (s.prepareSkip now stream = true ∧ (s.flags stream).hasStickyEvent = true)

def NeedsAfter (s : LmdOutputTcp) (now : Int) (need : Prop) (passed : List Nat) : Prop :=
  need ∨ ∃ p ∈ passed, LostBy s now p

/-- A stream that starts a recovery is given to the clients that need one, a normal stream to those
that do not. -/
structure AsNeeded (f : LosFlags) (need : Prop) (given : Prop) : Prop where
  first : f.IsFirst → (given ↔ need)
  normal : f.isRecovery = false → (given ↔ ¬need)

def FoundAsNeeded (s : LmdOutputTcp) (now : Int) (need : Prop) (rest : List Nat)
    (found : Option Nat) : Prop :=
  ∃ passed after, rest = passed ++ found.toList ++ after ∧ (found = none → after = []) ∧
    (∀ a p b, passed = a ++ p :: b → s.prepareSkip now p = false →
      AsNeeded (s.flags p) (NeedsAfter s now need a) False) ∧
    ∀ x ∈ found, s.prepareSkip now x = false ∧
      AsNeeded (s.flags x) (NeedsAfter s now need passed) True

section Search

variable {s : LmdOutputTcp} {now : Int} {need need' : NeedRecovery} {f : LosFlags} {x : Nat}
  {given : Bool}

theorem needsAfter_nil (need : Prop) : NeedsAfter s now need [] ↔ need := by
  simp [NeedsAfter]

theorem needsAfter_cons (need : Prop) (passed : List Nat) :
    NeedsAfter s now need (x :: passed) ↔ NeedsAfter s now (need ∨ LostBy s now x) passed := by
  simp [NeedsAfter, or_assoc]

theorem matching_asNeeded (h : matchingRecoveryStream f need = (given, need'))
    (hneed : need ≠ .unknown) : AsNeeded f (need = .first) (given = true) ∧
      need' ≠ .unknown ∧ (given = false → (need' = .first ↔ need = .first)) := by
  obtain ⟨first, more, sticky, lost⟩ := f
  cases need with
  | no =>
    cases h
    refine ⟨⟨?_, fun hnormal => iff_of_true ?_ nofun⟩, nofun, fun _ => Iff.rfl⟩
    · rintro ⟨hfirst, hmore⟩
      dsimp only at hfirst hmore
      subst hfirst hmore
      exact iff_of_false nofun nofun
    · rw [hnormal]
      rfl
  | first =>
    cases first with
    | true =>
      cases more with
      | true =>
        cases h
        exact ⟨⟨fun h => (by cases h.2), nofun⟩, nofun, fun _ => Iff.rfl⟩
      | false =>
        cases h
        exact ⟨⟨fun _ => iff_of_true rfl rfl, nofun⟩, nofun, nofun⟩
    | false =>
      cases h
      exact ⟨⟨fun h => (by cases h.1), fun _ => iff_of_false nofun fun h => h rfl⟩, nofun,
        fun _ => Iff.rfl⟩
  | more =>
    cases h
    refine ⟨⟨?_, fun hnormal => iff_of_true ?_ nofun⟩, ?_, fun _ => ?_⟩
    · rintro ⟨hfirst, hmore⟩
      dsimp only at hfirst hmore
      subst hfirst hmore
      exact iff_of_false nofun nofun
    · rw [hnormal]
      rfl
    · split <;> exact nofun
    · split <;> exact iff_of_false nofun nofun
  | unknown => exact absurd rfl hneed

theorem needAfter_first (need : NeedRecovery) : s.needAfter x need = .first ↔
    need = .first ∨ (s.flags x).stickyLostAfter = true := by
  unfold needAfter
  split
  next h => exact iff_of_true rfl (.inr h)
  next h => exact ⟨.inl, fun h' => h'.resolve_right h⟩

theorem needAfter_known (h : need ≠ .unknown) : s.needAfter x need ≠ .unknown := by
  unfold needAfter
  split
  · exact nofun
  · exact h

theorem FoundAsNeeded.cons {need : Prop} {rest : List Nat} {found : Option Nat}
    (h : FoundAsNeeded s now (need ∨ LostBy s now x) rest found)
    (hx : s.prepareSkip now x = false → AsNeeded (s.flags x) need False) :
    FoundAsNeeded s now need (x :: rest) found := by
  obtain ⟨passed, after, hrest, hnone, hpassed, hfound⟩ := h
  refine ⟨x :: passed, after, by rw [hrest]; rfl, hnone, ?_, ?_⟩
  · intro a p b hsplit hskip
    cases a with
    | nil =>
      obtain ⟨rfl, -⟩ := List.cons.inj hsplit
      rw [needsAfter_nil]
      exact hx hskip
    | cons y a =>
      obtain ⟨rfl, htail⟩ := List.cons.inj hsplit
      rw [needsAfter_cons]
      exact hpassed a p b htail hskip
  · intro y hy
    rw [needsAfter_cons]
    exact hfound y hy

theorem searchNext_asNeeded {rest : List Nat} {found : Option Nat} (hneed : need ≠ .unknown)
    (h : s.searchNext now rest need = (found, need')) :
    FoundAsNeeded s now (need = .first) rest found := by
  induction rest generalizing need with
  | nil =>
    cases h
    exact ⟨[], [], rfl, fun _ => rfl, fun a p b hsplit => by simp at hsplit, nofun⟩
  | cons x rest ih =>
    unfold searchNext at h
    split at h
    next hskip =>
      have hlost : s.needAfter x (if (s.flags x).hasStickyEvent then .first else need) = .first ↔
          need = .first ∨ LostBy s now x := by
        rw [needAfter_first, LostBy]
        cases (s.flags x).hasStickyEvent <;> simp [hskip]
      have hknown : s.needAfter x (if (s.flags x).hasStickyEvent then .first else need) ≠
          .unknown := by
        apply needAfter_known
        split
        · exact nofun
        · exact hneed
      have hfound := ih hknown h
      rw [hlost] at hfound
      exact hfound.cons fun hno => absurd hskip (by rw [hno]; exact nofun)
    next hskip =>
      have hno := Bool.not_eq_true _ ▸ hskip
      cases hmatch : matchingRecoveryStream (s.flags x) need with
      | mk given need₁ =>
        obtain ⟨hgiven, hknown, hsame⟩ := matching_asNeeded hmatch hneed
        rw [hmatch] at h
        cases given with
        | true =>
          cases h
          refine ⟨[], rest, rfl, nofun, fun a p b hsplit => by simp at hsplit, ?_⟩
          intro y hy
          cases hy
          rw [needsAfter_nil]
          exact ⟨hno, by simpa using hgiven⟩
        | false =>
          have hlost : s.needAfter x need₁ = .first ↔ need = .first ∨ LostBy s now x := by
            rw [needAfter_first, hsame rfl, LostBy, hno]
            simp
          have hfound := ih (needAfter_known hknown) h
          rw [hlost] at hfound
          exact hfound.cons fun _ => by simpa using hgiven

theorem getNextClientStream_asNeeded (cur : Nat) (hneed : need ≠ .unknown) :
    FoundAsNeeded s now (need = .first ∨ (s.flags cur).stickyLostAfter = true)
      (streamsAfter s.active cur) (s.getNextClientStream now cur need).2.1 := by
  rw [← needAfter_first]
  exact searchNext_asNeeded (needAfter_known hneed) rfl

theorem resolveNeed_first (seen : Bool) (need : NeedRecovery) :
    resolveNeed seen need = .first ↔ need = .first ∨ need = .unknown ∧ seen = true := by
  cases need <;> cases seen <;> simp [resolveNeed]

theorem resolveNeed_known (seen : Bool) (need : NeedRecovery) :
    resolveNeed seen need ≠ .unknown := by
  cases need <;> cases seen <;> simp [resolveNeed]

theorem streamIsAvailable_asNeeded {c : LmdOutputClient} {stream : Nat} (i : Nat)
    (hcurrent : c.current = none) (hpending : c.pending = none)
    (honce : s.sendonce = true → (s.streams stream).clients = 0) :
    AsNeeded (s.flags stream) (c.need = .first ∨ c.need = .unknown ∧ s.stickyEventsSeen = true)
      ((s.streamIsAvailable i c stream).1 = true) := by
  have hfree : ¬(c.current.isSome || c.pending.isSome) = true := by simp [hcurrent, hpending]
  have htaken : ¬(s.sendonce && (s.streams stream).clients ≠ 0) = true := by
    cases hs : s.sendonce with
    | false => simp
    | true => simp [honce hs]
  unfold streamIsAvailable
  rw [if_neg hfree, if_neg htaken]
  dsimp only
  have hflags : (if c.need = .unknown then
      s.askRecovery (resolveNeed s.stickyEventsSeen c.need) else s).flags stream =
      s.flags stream := by
    unfold askRecovery
    split
    · split <;> rfl
    · rfl
  generalize (if c.need = .unknown then
    s.askRecovery (resolveNeed s.stickyEventsSeen c.need) else s) = u at hflags ⊢
  rw [hflags, ← resolveNeed_first]
  cases hmatch : matchingRecoveryStream (s.flags stream)
      (resolveNeed s.stickyEventsSeen c.need) with
  | mk given need' =>
    have hgiven := (matching_asNeeded hmatch (resolveNeed_known _ _)).1
    cases given with
    | false => exact hgiven
    | true =>
      dsimp only
      split
      · exact hgiven
      · exact hgiven

end Search

end Ucesb
