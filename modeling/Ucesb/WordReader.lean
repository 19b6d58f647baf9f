import Mathlib.Data.List.Forall2

namespace Ucesb

abbrev WordReader (ε α : Type) := StateT (List UInt32) (Except ε) α

section WordReader

variable {ε α β : Type}

def readWord (pastEnd : ε) : WordReader ε UInt32 := fun ws =>
  match ws with
  | [] => .error pastEnd
  | w :: ws => .ok (w, ws)

def stopReading (e : ε) : WordReader ε α := fun _ => .error e

def readLoop (body : WordReader ε α) : Nat → WordReader ε (List α)
  | 0 => pure []
  | n + 1 => do
    let x ← body
    let xs ← readLoop body n
    return x :: xs

/-- Whatever follows, the reader takes exactly the words and comes to such a result, or stops in one
of the given ways. -/
def ReadsTo (stop : ε → Prop) (r : WordReader ε α) (ws : List UInt32) (P : α → Prop) : Prop :=
  ∀ rest, (∃ x, P x ∧ r (ws ++ rest) = .ok (x, rest)) ∨ ∃ e, stop e ∧ r (ws ++ rest) = .error e

variable {stop : ε → Prop} {r : WordReader ε α} {ws : List UInt32} {P : α → Prop}

theorem readsTo_pure {x : α} (h : P x) : ReadsTo stop (pure x) [] P :=
  fun _ => .inl ⟨x, h, rfl⟩

theorem readsTo_word (pastEnd : ε) (w : UInt32) :
    ReadsTo stop (readWord pastEnd) [w] (· = w) :=
  fun _ => .inl ⟨w, rfl, rfl⟩

theorem readsTo_stop {e : ε} (h : stop e) : ReadsTo stop (stopReading e : WordReader ε α) [] P :=
  fun _ => .inr ⟨e, h, rfl⟩

theorem ReadsTo.mono {Q : α → Prop} (h : ReadsTo stop r ws P) (hPQ : ∀ x, P x → Q x) :
    ReadsTo stop r ws Q := by
  intro rest
  rcases h rest with ⟨x, hx, hr⟩ | hstop
  · exact .inl ⟨x, hPQ x hx, hr⟩
  · exact .inr hstop

theorem ReadsTo.stop_mono {stop' : ε → Prop} (h : ReadsTo stop r ws P)
    (hstop : ∀ e, stop e → stop' e) : ReadsTo stop' r ws P := by
  intro rest
  rcases h rest with hread | ⟨e, he, hr⟩
  · exact .inl hread
  · exact .inr ⟨e, hstop e he, hr⟩

theorem ReadsTo.bind {f : α → WordReader ε β} {ws' : List UInt32} {Q : β → Prop}
    (h : ReadsTo stop r ws P) (hf : ∀ x, P x → ReadsTo stop (f x) ws' Q) :
    ReadsTo stop (r >>= f) (ws ++ ws') Q := by
  intro rest
  rw [List.append_assoc]
  rcases h (ws' ++ rest) with ⟨x, hx, hr⟩ | ⟨e, he, hr⟩
  · have hbind : (r >>= f) (ws ++ (ws' ++ rest)) = f x (ws' ++ rest) := by
      simp only [Bind.bind, StateT.bind, hr, Except.bind]
    rw [hbind]
    exact hf x hx rest
  · refine .inr ⟨e, he, ?_⟩
    simp only [Bind.bind, StateT.bind, hr, Except.bind]

theorem ReadsTo.bind_eq {f : α → WordReader ε β} {x : α} {ws' : List UInt32} {Q : β → Prop}
    (h : ReadsTo stop r ws (· = x)) (hf : ReadsTo stop (f x) ws' Q) :
    ReadsTo stop (r >>= f) (ws ++ ws') Q :=
  h.bind fun _ hy => hy ▸ hf

theorem ReadsTo.return_map {g : α → β} {Q : β → Prop} (h : ReadsTo stop r ws P)
    (hg : ∀ x, P x → Q (g x)) : ReadsTo stop (r >>= fun x => pure (g x)) ws Q := by
  have hb := h.bind (f := fun x => pure (g x)) fun x hx => readsTo_pure (hg x hx)
  rw [List.append_nil] at hb
  exact hb

/-- What has been read is looked at, without reading on. -/
theorem ReadsTo.check {look : α → WordReader ε Unit} {x : α} (h : ReadsTo stop r ws (· = x))
    (hlook : ReadsTo stop (look x) [] fun _ => True) :
    ReadsTo stop (r >>= fun y => look y >>= fun _ => pure y) ws (· = x) := by
  have hsame : ReadsTo stop (look x >>= fun _ => pure x) [] (· = x) :=
    hlook.return_map fun _ _ => rfl
  have hread := h.bind_eq (f := fun y => look y >>= fun _ => pure y) hsame
  rw [List.append_nil] at hread
  exact hread

theorem readsTo_bind_word (pastEnd : ε) (w : UInt32) {f : UInt32 → WordReader ε β}
    {ws : List UInt32} {Q : β → Prop} (hf : ReadsTo stop (f w) ws Q) :
    ReadsTo stop (readWord pastEnd >>= f) (w :: ws) Q :=
  (readsTo_word pastEnd w).bind_eq hf

theorem readsTo_loop {body : WordReader ε α} {enc : β → List UInt32} {R : β → α → Prop}
    {xs : List β} (h : ∀ x ∈ xs, ReadsTo stop body (enc x) (R x)) :
    ReadsTo stop (readLoop body xs.length) (xs.flatMap enc) (List.Forall₂ R xs) := by
  induction xs with
  | nil => exact readsTo_pure .nil
  | cons x xs ih =>
    refine (h x (by simp)).bind ?_
    intro y hy
    refine (ih fun z hz => h z (by simp [hz])).return_map ?_
    intro ys hys
    exact .cons hy hys

theorem forall₂_eq_map {f : β → α} {xs : List β} {ys : List α}
    (h : List.Forall₂ (fun x y => y = f x) xs ys) : ys = xs.map f := by
  induction h with
  | nil => rfl
  | cons hxy _ ih => rw [hxy, ih, List.map_cons]

theorem readsTo_loop_map {body : WordReader ε α} {enc : β → List UInt32} {f : β → α}
    {xs : List β} (h : ∀ x ∈ xs, ReadsTo stop body (enc x) (· = f x)) :
    ReadsTo stop (readLoop body xs.length) (xs.flatMap enc) (· = xs.map f) :=
  (readsTo_loop h).mono fun _ hys => forall₂_eq_map hys

end WordReader

end Ucesb
