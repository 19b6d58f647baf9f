import Mathlib.Data.List.Induction

namespace Ucesb

section Runs

variable {σ α : Type} {step : σ → α → Option σ} {ok : σ → α → Prop} {Inv : σ → Prop}

/-- One action after the other; `none` where an action is not enabled. -/
def runSteps (step : σ → α → Option σ) : σ → List α → Option σ
  | s, [] => some s
  | s, a :: as => (step s a).bind fun s' => runSteps step s' as

/-- Every step of the run is taken from a state that meets the condition for it. -/
def StepsMeet (step : σ → α → Option σ) (ok : σ → α → Prop) : σ → List α → Prop
  | _, [] => True
  | s, a :: as => ok s a ∧ ∀ s', step s a = some s' → StepsMeet step ok s' as

theorem runSteps_inv_of_meet
    (hstep : ∀ s a s', Inv s → ok s a → step s a = some s' → Inv s') {s s' : σ} {as : List α}
    (hi : Inv s) (hm : StepsMeet step ok s as) (h : runSteps step s as = some s') : Inv s' := by
  induction as generalizing s with
  | nil =>
    cases h
    exact hi
  | cons a as ih =>
    obtain ⟨t, ht, hr⟩ := Option.bind_eq_some_iff.mp h
    exact ih (hstep s a t hi hm.1 ht) (hm.2 t ht) hr

theorem StepsMeet.imp {ok' : σ → α → Prop} (h : ∀ s a, ok s a → ok' s a) {s : σ} {as : List α}
    (hm : StepsMeet step ok s as) : StepsMeet step ok' s as := by
  induction as generalizing s with
  | nil => trivial
  | cons a as ih => exact ⟨h s a hm.1, fun s' hs => ih (hm.2 s' hs)⟩

theorem stepsMeet_true (s : σ) (as : List α) : StepsMeet step (fun _ _ => True) s as := by
  induction as generalizing s with
  | nil => trivial
  | cons a as ih => exact ⟨trivial, fun s' _ => ih s'⟩

def checkSteps (step : σ → α → Option σ) (check : σ → α → Bool) : σ → List α → Bool
  | _, [] => true
  | s, a :: as => check s a &&
    match step s a with
    | none => true
    | some s' => checkSteps step check s' as

theorem stepsMeet_of_check {check : σ → α → Bool} {s : σ} {as : List α}
    (h : checkSteps step check s as = true) :
    StepsMeet step (fun s a => check s a = true) s as := by
  induction as generalizing s with
  | nil => trivial
  | cons a as ih =>
    simp only [checkSteps, Bool.and_eq_true] at h
    refine ⟨h.1, ?_⟩
    intro s' hs
    rw [hs] at h
    exact ih h.2

theorem runSteps_measure {m : σ → Nat}
    (hstep : ∀ s a s', Inv s → step s a = some s' → Inv s' ∧ m s' < m s) {s s' : σ} {as : List α}
    (hi : Inv s) (h : runSteps step s as = some s') : as.length + m s' ≤ m s := by
  induction as generalizing s with
  | nil =>
    cases h
    simp
  | cons a as ih =>
    obtain ⟨t, ht, hr⟩ := Option.bind_eq_some_iff.mp h
    obtain ⟨hit, hless⟩ := hstep s a t hi ht
    have hle := ih hit hr
    rw [List.length_cons]
    omega

theorem runSteps_append (s : σ) (as bs : List α) :
    runSteps step s (as ++ bs) = (runSteps step s as).bind fun s' => runSteps step s' bs := by
  induction as generalizing s with
  | nil => rfl
  | cons a as ih => simp only [List.cons_append, runSteps, ih, Option.bind_assoc]

theorem runSteps_inv (hstep : ∀ s a s', Inv s → step s a = some s' → Inv s') {s s' : σ}
    {as : List α} (hi : Inv s) (h : runSteps step s as = some s') : Inv s' :=
  runSteps_inv_of_meet (fun s a s' hi _ h => hstep s a s' hi h) hi (stepsMeet_true s as) h

end Runs

end Ucesb
