import Mathlib.Data.List.Basic

namespace Ucesb

section Checks

variable {ε α β : Type}

def errorIf (c : Prop) [Decidable c] (e : ε) : Except ε Unit :=
  if c then .error e else .ok ()

/-- The result satisfies `post`, the reason to stop satisfies `stop`. -/
def Ends (stop : ε → Prop) (post : α → Prop) : Except ε α → Prop
  | .ok a => post a
  | .error e => stop e

theorem bind_eq_ok {x : Except ε α} {f : α → Except ε β} {b : β} :
    (x >>= f) = .ok b ↔ ∃ a, x = .ok a ∧ f a = .ok b := by
  cases x with
  | error e => simp [bind, Except.bind]
  | ok a => simp [bind, Except.bind]

theorem bind_eq_error {x : Except ε α} {f : α → Except ε β} {e : ε} :
    (x >>= f) = .error e ↔ x = .error e ∨ ∃ a, x = .ok a ∧ f a = .error e := by
  cases x with
  | error e' => simp [bind, Except.bind]
  | ok a => simp [bind, Except.bind]

theorem errorIf_eq_ok {c : Prop} [Decidable c] {e : ε} {u : Unit} :
    errorIf c e = .ok u ↔ ¬c := by
  unfold errorIf
  split <;> simp_all

theorem errorIf_eq_error {c : Prop} [Decidable c] {e e' : ε} :
    errorIf c e = .error e' ↔ c ∧ e = e' := by
  unfold errorIf
  split <;> simp_all

theorem errorIf_bind_ok {c : Prop} [Decidable c] {e : ε} {f : Unit → Except ε β} {b : β} :
    (errorIf c e >>= f) = .ok b ↔ ¬c ∧ f () = .ok b := by
  by_cases h : c
  · simp [errorIf, h, bind, Except.bind]
  · simp [errorIf, h, bind, Except.bind]

theorem ends_ok {stop : ε → Prop} {post : α → Prop} {a : α} :
    Ends stop post (.ok a) ↔ post a := Iff.rfl

theorem ends_bind {stop : ε → Prop} {mid : α → Prop} {post : β → Prop} {x : Except ε α}
    {f : α → Except ε β} (hx : Ends stop mid x) (hf : ∀ a, mid a → Ends stop post (f a)) :
    Ends stop post (x >>= f) := by
  cases x with
  | error e => exact hx
  | ok a => exact hf a hx

theorem ends_errorIf {stop : ε → Prop} {c : Prop} [Decidable c] {e : ε} (h : c → stop e) :
    Ends stop (fun _ => ¬c) (errorIf c e) := by
  unfold errorIf
  split
  next hc => exact h hc
  next hc => exact hc

theorem ends_mono {stop stop' : ε → Prop} {post post' : α → Prop} {x : Except ε α}
    (h : Ends stop post x) (hs : ∀ e, stop e → stop' e) (hp : ∀ a, post a → post' a) :
    Ends stop' post' x := by
  cases x with
  | error e => exact hs e h
  | ok a => exact hp a h

theorem ends_bind_stop {stop stop' : ε → Prop} {mid : α → Prop} {post : β → Prop}
    {x : Except ε α} {f : α → Except ε β} (hx : Ends stop mid x) (hs : ∀ e, stop e → stop' e)
    (hf : ∀ a, mid a → Ends stop' post (f a)) : Ends stop' post (x >>= f) :=
  ends_bind (ends_mono hx hs fun _ h => h) hf

theorem ends_iff {stop : ε → Prop} {post : α → Prop} {x : Except ε α} :
    Ends stop post x ↔ (∀ a, x = .ok a → post a) ∧ ∀ e, x = .error e → stop e := by
  cases x with
  | error e => simp [Ends]
  | ok a => simp [Ends]

end Checks

end Ucesb
