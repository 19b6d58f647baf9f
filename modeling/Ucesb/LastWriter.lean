import Mathlib.Data.List.Induction

namespace Ucesb

section LastWriter

variable {α β κ : Type} [DecidableEq κ]

/-- Older entries with the key go; the new one is put last if it is kept. -/
def putLast (key : α → κ) (held : List α) (a : α) (keep : Bool) : List α :=
  held.filter (fun x => key x ≠ key a) ++ if keep then [a] else []

def runWrites (key : α → κ) (held : List α) (ws : List (α × Bool)) : List α :=
  ws.foldl (fun held w => putLast key held w.1 w.2) held

/-- The most recent write for the key, unless it was one that is not kept. -/
def lastWrite (key : α → κ) (ws : List (α × Bool)) (k : κ) : Option α :=
  match (ws.filter fun w => key w.1 = k).getLast? with
  | some (a, true) => some a
  | _ => none

theorem runWrites_append (key : α → κ) (held : List α) (ws vs : List (α × Bool)) :
    runWrites key held (ws ++ vs) = runWrites key (runWrites key held ws) vs :=
  List.foldl_append

theorem runWrites_mem {key : α → κ} {held : List α} {ws : List (α × Bool)} {a : α}
    (h : a ∈ runWrites key held ws) : a ∈ held ∨ (a, true) ∈ ws := by
  induction ws generalizing held with
  | nil => exact .inl h
  | cons w ws ih =>
    rcases ih h with hm | hm
    · rcases List.mem_append.mp hm with hm | hm
      · exact .inl (List.mem_filter.mp hm).1
      · obtain ⟨b, keep⟩ := w
        cases keep with
        | false => simp at hm
        | true =>
          rw [if_pos rfl, List.mem_singleton] at hm
          exact .inr (by simp [hm])
    · exact .inr (List.mem_cons_of_mem w hm)

theorem runWrites_map {key : α → κ} {key' : β → κ} (f : α → β) (hf : ∀ a, key' (f a) = key a)
    (held : List α) (ws : List (α × Bool)) :
    (runWrites key held ws).map f =
      runWrites key' (held.map f) (ws.map fun w => (f w.1, w.2)) := by
  induction ws generalizing held with
  | nil => rfl
  | cons w ws ih =>
    have hput : (putLast key held w.1 w.2).map f = putLast key' (held.map f) (f w.1) w.2 := by
      rw [putLast, putLast, List.map_append, List.filter_map]
      have hfun : ((fun x => decide (key' x ≠ key' (f w.1))) ∘ f) =
          fun x => decide (key x ≠ key w.1) := by
        funext x
        simp [hf]
      rw [hfun]
      cases w.2 <;> rfl
    rw [runWrites, List.foldl_cons, ← runWrites, ih, hput]
    rfl

theorem runWrites_filter (key : α → κ) (ws : List (α × Bool)) (k : κ) :
    (runWrites key [] ws).filter (fun x => key x = k) = (lastWrite key ws k).toList := by
  induction ws using List.reverseRecOn with
  | nil => rfl
  | append_singleton ws w ih =>
    rw [runWrites_append]
    change (putLast key (runWrites key [] ws) w.1 w.2).filter _ = _
    rw [putLast, List.filter_append, List.filter_filter, lastWrite, List.filter_append]
    by_cases hk : key w.1 = k
    · obtain ⟨a, keep⟩ := w
      simp only at hk
      cases keep <;> simp [hk]
    · have hsame : (runWrites key [] ws).filter
          (fun x => decide (key x = k) && decide (key x ≠ key w.1)) =
          (runWrites key [] ws).filter (fun x => key x = k) := by
        apply List.filter_congr
        intro x _
        by_cases hx : key x = k
        · simp [hx, Ne.symm hk]
        · simp [hx]
      have hlast : [w].filter (fun w => key w.1 = k) = [] := by simp [hk]
      have hput : (if w.2 = true then [w.1] else []).filter (fun x => key x = k) = [] := by
        cases w.2 <;> simp [hk]
      rw [hsame, ih, hlast, hput, List.append_nil, List.append_nil]
      rfl

theorem runWrites_concat (key : α → κ) (xs ys : List α) (ws : List (α × Bool)) :
    runWrites key (xs ++ ys) ws =
      xs.filter (fun x => ws.all fun w => key x ≠ key w.1) ++ runWrites key ys ws := by
  induction ws generalizing xs ys with
  | nil =>
    have hall : xs.filter (fun x => ([] : List (α × Bool)).all fun w => key x ≠ key w.1) = xs :=
      List.filter_eq_self.mpr fun _ _ => rfl
    rw [hall]
    rfl
  | cons w ws ih =>
    have hput : putLast key (xs ++ ys) w.1 w.2 =
        xs.filter (fun x => key x ≠ key w.1) ++ putLast key ys w.1 w.2 := by
      rw [putLast, putLast, List.filter_append, List.append_assoc]
    have hstep : ∀ held, runWrites key held (w :: ws) =
        runWrites key (putLast key held w.1 w.2) ws := fun _ => rfl
    rw [hstep, hstep, hput, ih, List.filter_filter]
    congr 1
    apply List.filter_congr
    intro x _
    rw [List.all_cons, Bool.and_comm]

/-- Entries that came in groups stay in them; the writes are a group of their own, and groups
that have become empty go. -/
def writeGroup (key : α → κ) (groups : List (List α)) (ws : List (α × Bool)) : List (List α) :=
  (groups.map (List.filter fun x => ws.all fun w => key x ≠ key w.1) ++
    [runWrites key [] ws]).filter (! ·.isEmpty)

theorem writeGroup_flatten (key : α → κ) (groups : List (List α)) (ws : List (α × Bool)) :
    (writeGroup key groups ws).flatten = runWrites key groups.flatten ws := by
  rw [writeGroup, List.flatten_filter_not_isEmpty, List.flatten_append, List.filter_flatten.symm]
  have happ := runWrites_concat key groups.flatten [] ws
  rw [List.append_nil] at happ
  simp [happ]

theorem writeGroup_nonempty (key : α → κ) (groups : List (List α)) (ws : List (α × Bool)) :
    writeGroup key (groups.filter (! ·.isEmpty)) ws = writeGroup key groups ws := by
  rw [writeGroup, writeGroup, List.filter_append, List.filter_append]
  congr 1
  induction groups with
  | nil => rfl
  | cons g groups ih =>
    cases g with
    | nil => simpa using ih
    | cons x g =>
      rw [List.filter_cons_of_pos (by simp), List.map_cons, List.map_cons]
      simp only [List.filter_cons (p := fun l : List α => !l.isEmpty), ih]

end LastWriter

end Ucesb
