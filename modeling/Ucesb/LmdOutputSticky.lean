import Ucesb.StickyRun

namespace Ucesb

structure FileLimits where
  limitSize : UInt64
  limitEvents : UInt32
  eventCut : UInt32
  mayChangeFile : Bool

structure LmdOutputFile where
  stickyStore : StickyStore
  closed : List (List LmdEventOut)
  current : List LmdEventOut
  curSize : UInt64
  curEvents : UInt32
  lastEventno : UInt32

def LmdOutputFile.opened : LmdOutputFile :=
  ⟨StickyStore.empty, [], [], 0, 0, UInt32.ofNat (2 ^ 32 - 1)⟩

def LmdOutputFile.files (f : LmdOutputFile) : List (List LmdEventOut) := f.closed ++ [f.current]

/-- `write_event` with `sticky_replay` set. -/
def LmdOutputFile.writeReplay (f : LmdOutputFile) (event : LmdEventOut) : LmdOutputFile :=
  { f with current := f.current ++ [event], curEvents := f.curEvents + 1 }

def LmdOutputFile.newFile (f : LmdOutputFile) : LmdOutputFile :=
  f.stickyStore.writeEvents.foldl LmdOutputFile.writeReplay
    { f with closed := f.closed ++ [f.current], current := [] }

def LmdOutputFile.changeFile (conf : FileLimits) (f : LmdOutputFile) : LmdOutputFile :=
  let f := if conf.mayChangeFile then f.newFile else f
  { f with curSize := 0, curEvents := 0 }

def LmdOutputFile.canChangeFile (conf : FileLimits) (f : LmdOutputFile) : LmdOutputFile :=
  if f.curSize ≥ conf.limitSize ∨ f.curEvents ≥ conf.limitEvents then f.changeFile conf else f

def LmdOutputFile.eventNoSeen (conf : FileLimits) (eventno : UInt32) (f : LmdOutputFile) :
    LmdOutputFile :=
  if conf.eventCut = 0 then f
  else
    let crossed := eventno % conf.eventCut < f.lastEventno % conf.eventCut ∨
      eventno < f.lastEventno ∨ eventno > f.lastEventno + conf.eventCut
    let started := f.lastEventno ≠ UInt32.ofNat (2 ^ 32 - 1) ∨ f.curEvents ≠ 0
    let f := if crossed ∧ started then f.changeFile conf else f
    { f with lastEventno := eventno }

/-- `none` where an error or an assertion ends the output. -/
def LmdOutputFile.insertSticky (f : LmdOutputFile) (event : LmdEventOut) : Option StickyStore :=
  if event.header.isSticky then
    match f.stickyStore.insertEnd event true with
    | .stored store => some store
    | _ => none
  else some f.stickyStore

/-- `lmd_output_buffered::write_event`; `flushed` bytes of full buffers go to the file. -/
def LmdOutputFile.bufferedWriteEvent (f : LmdOutputFile) (event : LmdEventOut)
    (flushed : UInt64) : Option LmdOutputFile := do
  let store ← f.insertSticky event
  return { f with
    stickyStore := store
    current := f.current ++ [event]
    curSize := f.curSize + flushed }

def LmdOutputFile.writeEvent (conf : FileLimits) (f : LmdOutputFile) (event : LmdEventOut)
    (flushed : UInt64) : Option LmdOutputFile := do
  let f ← f.bufferedWriteEvent event flushed
  return { f with curEvents := f.curEvents + 1 }.canChangeFile conf

def LmdOutputFile.giveEvent (conf : FileLimits) (f : LmdOutputFile) (p : LmdEventOut × UInt64) :
    Option LmdOutputFile :=
  (f.eventNoSeen conf p.1.info.lCount).writeEvent conf p.1 p.2

def giveEvents (conf : FileLimits) (events : List (LmdEventOut × UInt64)) : Option LmdOutputFile :=
  events.foldlM (LmdOutputFile.giveEvent conf) LmdOutputFile.opened

/-- The active sticky subevents by id, as a reader of the events keeps them. -/
def applySticky (active : Nat × Nat → Option (StickyCarrier × List UInt8))
    (p : StickyCarrier × List UInt8) : Nat × Nat → Option (StickyCarrier × List UInt8) :=
  fun id => if subId p.2 = id then (if subIsRevoke p.2 then none else some p) else active id

def stickyPart (e : LmdEventOut) : List (StickyCarrier × List UInt8) :=
  if e.header.isSticky then e.carriedSubs else []

def activeSticky (events : List LmdEventOut) : Nat × Nat → Option (StickyCarrier × List UInt8) :=
  (events.flatMap stickyPart).foldl applySticky fun _ => none

def normals (events : List LmdEventOut) : List LmdEventOut := events.filter (!·.header.isSticky)

def stickyLog (events : List LmdEventOut) : List (LmdEventOut × Bool) :=
  (events.filter (·.header.isSticky)).map fun e => (e, true)

theorem activeSticky_append (xs ys : List LmdEventOut) :
    activeSticky (xs ++ ys) = (ys.flatMap stickyPart).foldl applySticky (activeSticky xs) := by
  rw [activeSticky, List.flatMap_append, List.foldl_append]
  rfl

theorem applySticky_fold (ps : List (StickyCarrier × List UInt8)) (id : Nat × Nat) :
    ps.foldl applySticky (fun _ => none) id =
      lastWrite carriedKey (ps.map fun p => (p, !subIsRevoke p.2)) id := by
  induction ps using List.reverseRecOn with
  | nil => rfl
  | append_singleton ps p ih =>
    rw [List.foldl_append, List.map_append, lastWrite, List.filter_append]
    by_cases hid : subId p.2 = id
    · cases hr : subIsRevoke p.2 <;> simp [applySticky, hid, hr, carriedKey]
    · have hnone : ([p].map fun p => (p, !subIsRevoke p.2)).filter
          (fun w => carriedKey w.1 = id) = [] := by simp [carriedKey, hid]
      rw [hnone, List.append_nil]
      simp only [List.foldl_cons, List.foldl_nil, applySticky, hid, if_false]
      exact ih

theorem activeSticky_eq (events : List LmdEventOut) (id : Nat × Nat) :
    activeSticky events id = lastWrite carriedKey (logWrites (stickyLog events)) id := by
  rw [activeSticky, applySticky_fold]
  congr 1
  induction events with
  | nil => rfl
  | cons e events ih =>
    rw [List.flatMap_cons, List.map_append, ih]
    cases hs : e.header.isSticky <;>
      simp [stickyPart, stickyLog, logWrites, subWrites, LmdEventOut.carriedSubs, hs]

/-- At every normal event of every file, the sticky subevents active when the file is read
alone are those active at the event in the original sequence. The normal events before it tell
which event of the original sequence it is. -/
def Delivered (files : List (List LmdEventOut)) (original : List LmdEventOut) : Prop :=
  ∀ i file, files[i]? = some file → ∀ pre e post, file = pre ++ e :: post →
    e.header.isSticky = false → ∃ before after, original = before ++ e :: after ∧
      normals before = normals (files.take i).flatten ++ normals pre ∧
      activeSticky pre = activeSticky before

structure FileInv (f : LmdOutputFile) (original : List LmdEventOut) : Prop where
  store : Holds f.stickyStore (stickyLog original)
  active : activeSticky f.current = activeSticky original
  normal : normals f.files.flatten = normals original
  delivered : Delivered f.files original

theorem fileInv_opened : FileInv LmdOutputFile.opened [] where
  store := holds_empty
  active := rfl
  normal := rfl
  delivered := by
    intro i file hf pre e post heq
    cases i with
    | zero =>
      cases hf
      cases pre <;> cases heq
    | succ i => simp [LmdOutputFile.files, LmdOutputFile.opened] at hf

theorem activeSticky_of_sticky {events : List LmdEventOut}
    (h : ∀ e ∈ events, e.header.isSticky = true) :
    events.flatMap stickyPart = events.flatMap LmdEventOut.carriedSubs := by
  apply List.flatMap_congr
  intro e he
  rw [stickyPart, if_pos (h e he)]

theorem kept_not_revoke {original : List LmdEventOut} {p : StickyCarrier × List UInt8}
    (h : (p, true) ∈ logWrites (stickyLog original)) : subIsRevoke p.2 = false := by
  obtain ⟨q, hq, hw⟩ := List.mem_flatMap.mp h
  obtain ⟨e, _, rfl⟩ := List.mem_map.mp hq
  obtain ⟨b, _, hb⟩ := List.mem_map.mp hw
  simp only [Prod.mk.injEq] at hb
  obtain ⟨rfl, hb⟩ := hb
  simpa using hb

theorem activeSticky_replay {s : StickyStore} {original : List LmdEventOut}
    (h : Holds s (stickyLog original)) : activeSticky s.writeEvents = activeSticky original := by
  funext id
  rw [activeSticky, activeSticky_of_sticky (holds_sticky h), holds_replay h,
    applySticky_fold, activeSticky_eq]
  have hfilter := runWrites_filter carriedKey (logWrites (stickyLog original)) id
  have hmap : ((runWrites carriedKey [] (logWrites (stickyLog original))).map
      fun p => (p, !subIsRevoke p.2)).filter (fun w => carriedKey w.1 = id) =
      (lastWrite carriedKey (logWrites (stickyLog original)) id).toList.map
        fun p => (p, !subIsRevoke p.2) := by
    rw [List.filter_map, ← hfilter]
    rfl
  rw [lastWrite, hmap]
  cases hl : lastWrite carriedKey (logWrites (stickyLog original)) id with
  | none => rfl
  | some p =>
    have hmem : p ∈ runWrites carriedKey [] (logWrites (stickyLog original)) := by
      rw [hl] at hfilter
      have : p ∈ (runWrites carriedKey [] (logWrites (stickyLog original))).filter
          (fun x => carriedKey x = id) := by simp [hfilter]
      exact (List.mem_filter.mp this).1
    have hrev : subIsRevoke p.2 = false := by
      rcases runWrites_mem hmem with hm | hm
      · simp at hm
      · exact kept_not_revoke hm
    simp [hrev]

theorem normals_of_sticky {events : List LmdEventOut}
    (h : ∀ e ∈ events, e.header.isSticky = true) : normals events = [] := by
  apply List.filter_eq_nil_iff.mpr
  intro e he
  simp [h e he]

theorem delivered_snoc_file {files : List (List LmdEventOut)} {original file : List LmdEventOut}
    (h : Delivered files original) (hs : ∀ e ∈ file, e.header.isSticky = true) :
    Delivered (files ++ [file]) original := by
  intro i f hf pre e post heq hn
  rcases Nat.lt_or_ge i files.length with hlt | hge
  · rw [List.getElem?_append_left hlt] at hf
    obtain ⟨before, after, horig, hnorm, hact⟩ := h i f hf pre e post heq hn
    refine ⟨before, after, horig, ?_, hact⟩
    rw [List.take_append_of_le_length (Nat.le_of_lt hlt)]
    exact hnorm
  · rw [List.getElem?_append_right hge] at hf
    have hfile : f = file := by
      cases hk : i - files.length with
      | zero =>
        rw [hk] at hf
        exact (Option.some.inj hf).symm
      | succ k => simp [hk] at hf
    have := hs e (by simp [← hfile, heq])
    rw [hn] at this
    cases this

theorem delivered_snoc_event {closed : List (List LmdEventOut)}
    {original current : List LmdEventOut} {e : LmdEventOut}
    (h : Delivered (closed ++ [current]) original)
    (hact : activeSticky current = activeSticky original)
    (hnorm : normals (closed ++ [current]).flatten = normals original) :
    Delivered (closed ++ [current ++ [e]]) (original ++ [e]) := by
  have hkeep : ∀ i f, (closed ++ [current])[i]? = some f → i ≤ closed.length →
      ∀ pre e' post, f = pre ++ e' :: post → e'.header.isSticky = false →
      ∃ before after, original ++ [e] = before ++ e' :: after ∧
        normals before = normals ((closed ++ [current ++ [e]]).take i).flatten ++ normals pre ∧
        activeSticky pre = activeSticky before := by
    intro i f hf hi pre e' post heq hn
    obtain ⟨before, after, horig, hno, hac⟩ := h i f hf pre e' post heq hn
    refine ⟨before, after ++ [e], by simp [horig], ?_, hac⟩
    rw [List.take_append_of_le_length hi] at hno ⊢
    exact hno
  intro i f hf pre e' post heq hn
  rcases Nat.lt_or_ge i closed.length with hlt | hge
  · rw [List.getElem?_append_left hlt] at hf
    exact hkeep i f (by rw [List.getElem?_append_left hlt, hf]) (Nat.le_of_lt hlt) pre e' post heq hn
  · have hi : i = closed.length := by
      have hlen := (List.getElem?_eq_some_iff.mp hf).1
      simp at hlen
      omega
    subst hi
    simp only [List.getElem?_append_right (Nat.le_refl _), Nat.sub_self, List.getElem?_cons_zero,
      Option.some.injEq] at hf
    subst hf
    rcases List.eq_nil_or_concat post with rfl | ⟨init, x, rfl⟩
    · obtain ⟨rfl, hl⟩ := List.append_inj' heq rfl
      cases hl
      refine ⟨original, [], rfl, ?_, hact⟩
      rw [← hnorm]
      simp [normals]
    · have heq' : current ++ [e] = (pre ++ e' :: init) ++ [x] := by simpa using heq
      obtain ⟨hcur, _⟩ := List.append_inj' heq' rfl
      exact hkeep closed.length current (by simp) (Nat.le_refl _) pre e' init hcur hn

theorem newFile_eq (f : LmdOutputFile) :
    ∃ n, f.newFile = { f with
      closed := f.closed ++ [f.current]
      current := f.stickyStore.writeEvents
      curEvents := n } := by
  have hgen : ∀ (events : List LmdEventOut) (g : LmdOutputFile),
      ∃ n, events.foldl LmdOutputFile.writeReplay g =
        { g with current := g.current ++ events, curEvents := n } := by
    intro events
    induction events with
    | nil => exact fun g => ⟨g.curEvents, by simp⟩
    | cons e events ih =>
      intro g
      obtain ⟨n, hn⟩ := ih (g.writeReplay e)
      exact ⟨n, by rw [List.foldl_cons, hn]; simp [LmdOutputFile.writeReplay]⟩
  obtain ⟨n, hn⟩ := hgen f.stickyStore.writeEvents
    { f with closed := f.closed ++ [f.current], current := [] }
  exact ⟨n, by rw [LmdOutputFile.newFile, hn, List.nil_append]⟩

theorem changeFile_inv {f : LmdOutputFile} {original : List LmdEventOut} (conf : FileLimits)
    (h : FileInv f original) : FileInv (f.changeFile conf) original := by
  rw [LmdOutputFile.changeFile]
  cases conf.mayChangeFile with
  | false => exact ⟨h.store, h.active, h.normal, h.delivered⟩
  | true =>
    obtain ⟨n, hn⟩ := newFile_eq f
    simp only [if_true, hn]
    have hs := holds_sticky h.store
    refine ⟨h.store, activeSticky_replay h.store, ?_, delivered_snoc_file h.delivered hs⟩
    have hnormal := h.normal
    have hzero := normals_of_sticky hs
    simp only [LmdOutputFile.files, List.flatten_append, normals, List.filter_append,
      List.flatten_cons, List.flatten_nil, List.append_nil] at hnormal hzero ⊢
    rw [hzero, List.append_nil, hnormal]

theorem canChangeFile_inv {f : LmdOutputFile} {original : List LmdEventOut} (conf : FileLimits)
    (h : FileInv f original) : FileInv (f.canChangeFile conf) original := by
  rw [LmdOutputFile.canChangeFile]
  split
  · exact changeFile_inv conf h
  · exact h

theorem eventNoSeen_inv {f : LmdOutputFile} {original : List LmdEventOut} (conf : FileLimits)
    (eventno : UInt32) (h : FileInv f original) : FileInv (f.eventNoSeen conf eventno) original := by
  rw [LmdOutputFile.eventNoSeen]
  split
  · exact h
  · simp only []
    split
    · have hc := changeFile_inv conf h
      exact ⟨hc.store, hc.active, hc.normal, hc.delivered⟩
    · exact ⟨h.store, h.active, h.normal, h.delivered⟩

theorem stickyLog_snoc (original : List LmdEventOut) (e : LmdEventOut) :
    stickyLog (original ++ [e]) =
      stickyLog original ++ if e.header.isSticky then [(e, true)] else [] := by
  cases hs : e.header.isSticky <;> simp [stickyLog, hs]

theorem written_inv {f : LmdOutputFile} {original : List LmdEventOut} {e : LmdEventOut}
    {store : StickyStore} (h : FileInv f original)
    (hstore : Holds store (stickyLog (original ++ [e]))) (size : UInt64) (n : UInt32) :
    FileInv { f with
      stickyStore := store
      current := f.current ++ [e]
      curSize := size
      curEvents := n } (original ++ [e]) := by
  refine ⟨hstore, ?_, ?_, delivered_snoc_event h.delivered h.active h.normal⟩
  · rw [activeSticky_append, activeSticky_append, h.active]
  · have hnormal := h.normal
    simp only [LmdOutputFile.files, List.flatten_append, normals, List.filter_append,
      List.flatten_cons, List.flatten_nil, List.append_nil] at hnormal ⊢
    rw [← List.append_assoc, hnormal]

/-- An event that `insert` has stored has passed its checks. -/
theorem insertEnd_stored {s s' : StickyStore} {e : LmdEventOut}
    (h : s.insertEnd e true = .stored s') :
    s.insert e true = .ok s' ∧ ∃ subs, e.Accepted subs := by
  have hc : e.Copyable := by
    by_contra hno
    rw [StickyStore.insertEnd, if_neg hno] at h
    cases h
  have hchecks := (insertEnd_checks hc s true).mp (.inl ⟨s', h⟩)
  refine ⟨?_, checks_accepted hc hchecks⟩
  rw [StickyStore.insertEnd, if_pos hc] at h
  cases hins : s.insert e true with
  | ok stored =>
    rw [hins] at h
    cases h
    rfl
  | error msg =>
    rw [hins, hchecks] at h
    cases h

theorem insertSticky_inv {f : LmdOutputFile} {original : List LmdEventOut} {e : LmdEventOut}
    {store : StickyStore} (h : Holds f.stickyStore (stickyLog original))
    (hshort : (StickyOp.insert e true).NoShort) (hins : f.insertSticky e = some store) :
    Holds store (stickyLog (original ++ [e])) := by
  rw [stickyLog_snoc]
  unfold LmdOutputFile.insertSticky at hins
  split at hins
  next hst =>
    rw [hst, if_pos rfl]
    split at hins
    next stored hend =>
      cases hins
      obtain ⟨hok, subs, hacc⟩ := insertEnd_stored hend
      obtain ⟨s', hok', hholds⟩ := holds_insert h (accepted_storable hacc (hshort subs hacc)) true
      rw [hok] at hok'
      cases hok'
      exact hholds
    next => cases hins
  next hst =>
    cases hins
    rw [if_neg hst, List.append_nil]
    exact h

theorem giveEvent_inv {conf : FileLimits} {f f' : LmdOutputFile} {original : List LmdEventOut}
    {p : LmdEventOut × UInt64} (h : FileInv f original)
    (hshort : (StickyOp.insert p.1 true).NoShort) (hg : f.giveEvent conf p = some f') :
    FileInv f' (original ++ [p.1]) := by
  have hs := eventNoSeen_inv conf p.1.info.lCount h
  generalize hgen : f.eventNoSeen conf p.1.info.lCount = g at hs
  rw [LmdOutputFile.giveEvent, hgen, LmdOutputFile.writeEvent] at hg
  obtain ⟨g₁, hw, hc⟩ := Option.bind_eq_some_iff.mp hg
  rw [LmdOutputFile.bufferedWriteEvent] at hw
  obtain ⟨store, hins, hb⟩ := Option.bind_eq_some_iff.mp hw
  cases hb
  cases hc
  exact canChangeFile_inv conf (written_inv hs (insertSticky_inv hs.store hshort hins) _ _)

theorem giveEvents_inv {conf : FileLimits} {f f' : LmdOutputFile} {original : List LmdEventOut}
    {events : List (LmdEventOut × UInt64)} (h : FileInv f original)
    (hshort : ∀ p ∈ events, (StickyOp.insert p.1 true).NoShort)
    (hg : events.foldlM (LmdOutputFile.giveEvent conf) f = some f') :
    FileInv f' (original ++ events.map (·.1)) := by
  induction events generalizing f original with
  | nil =>
    cases hg
    simpa using h
  | cons p events ih =>
    rw [List.foldlM_cons] at hg
    obtain ⟨f₁, h₁, hrest⟩ := Option.bind_eq_some_iff.mp hg
    have := ih (giveEvent_inv h (hshort p (by simp)) h₁) (fun q hq => hshort q (by simp [hq])) hrest
    simpa using this

theorem giveEvent_some {conf : FileLimits} {f : LmdOutputFile} {original : List LmdEventOut}
    {p : LmdEventOut × UInt64} (h : FileInv f original)
    (hst : p.1.header.isSticky = true → p.1.Storable) : ∃ f', f.giveEvent conf p = some f' := by
  have hs := eventNoSeen_inv conf p.1.info.lCount h
  have hins : ∃ store, (f.eventNoSeen conf p.1.info.lCount).insertSticky p.1 = some store := by
    unfold LmdOutputFile.insertSticky
    split
    next hc =>
      obtain ⟨s', hok, -⟩ := holds_insert hs.store (hst hc) true
      rw [StickyStore.insertEnd, if_pos (hst hc).copyable, hok]
      exact ⟨s', rfl⟩
    next => exact ⟨_, rfl⟩
  obtain ⟨store, hstore⟩ := hins
  rw [LmdOutputFile.giveEvent, LmdOutputFile.writeEvent, LmdOutputFile.bufferedWriteEvent, hstore]
  exact ⟨_, rfl⟩

theorem giveEvents_some {conf : FileLimits} {f : LmdOutputFile} {original : List LmdEventOut}
    {events : List (LmdEventOut × UInt64)} (h : FileInv f original)
    (hst : ∀ p ∈ events, p.1.header.isSticky = true → p.1.Storable) :
    ∃ f', events.foldlM (LmdOutputFile.giveEvent conf) f = some f' := by
  induction events generalizing f original with
  | nil => exact ⟨f, rfl⟩
  | cons p events ih =>
    obtain ⟨f₁, h₁⟩ := @giveEvent_some conf f original p h (hst p (by simp))
    have hshort : (StickyOp.insert p.1 true).NoShort := by
      intro subs hacc
      exact storable_noShort (hst p (by simp) hacc.sticky) true subs hacc
    obtain ⟨f', hrest⟩ := ih (giveEvent_inv h hshort h₁) fun q hq => hst q (by simp [hq])
    refine ⟨f', ?_⟩
    rw [List.foldlM_cons, h₁]
    exact hrest

/-- For every sequence of events and every way of changing files, as long as no event that `insert`
accepts has a piece too short for its header; events that are whole are written to the end. -/
theorem giveEvents_delivered {conf : FileLimits} {events : List (LmdEventOut × UInt64)}
    (hshort : ∀ p ∈ events, (StickyOp.insert p.1 true).NoShort) :
    (∀ f, giveEvents conf events = some f → Delivered f.files (events.map (·.1))) ∧
      ((∀ p ∈ events, p.1.header.isSticky = true → p.1.Storable) →
        ∃ f, giveEvents conf events = some f) := by
  refine ⟨?_, giveEvents_some fileInv_opened⟩
  intro f hg
  have h := giveEvents_inv fileInv_opened hshort hg
  simpa using h.delivered

def plainEvent (count : UInt32) : LmdEventOut := ⟨⟨0, 10, 1⟩, ⟨0, 1, count⟩, []⟩

theorem plainEvent_noShort (count : UInt32) : (StickyOp.insert (plainEvent count) true).NoShort := by
  intro subs hacc
  cases hacc.sticky

def deliverDemo : List (LmdEventOut × UInt64) :=
  [(plainEvent 1, 0), (stickyEvent 2 [plainSub 5 1, plainSub 6 2], 0), (plainEvent 3, 0),
    (stickyEvent 4 [revokeSub 5, plainSub 6 7], 0), (plainEvent 5, 0)]

theorem giveEvents_delivered_demo : ∃ f,
    giveEvents ⟨UInt64.ofNat (2 ^ 64 - 1), 2, 0, true⟩ deliverDemo = some f ∧
      f.files.length = 3 ∧ Delivered f.files (deliverDemo.map (·.1)) := by
  have hshort : ∀ p ∈ deliverDemo, (StickyOp.insert p.1 true).NoShort := by
    intro p hp
    simp only [deliverDemo, List.mem_cons, List.not_mem_nil, or_false] at hp
    rcases hp with rfl | rfl | rfl | rfl | rfl
    · exact plainEvent_noShort 1
    · exact storable_noShort ⟨⟨by decide, rfl⟩, by decide, by decide, by decide⟩ true
    · exact plainEvent_noShort 3
    · exact storable_noShort ⟨⟨by decide, rfl⟩, by decide, by decide, by decide⟩ true
    · exact plainEvent_noShort 5
  have hlength : (giveEvents ⟨UInt64.ofNat (2 ^ 64 - 1), 2, 0, true⟩ deliverDemo).map
      (·.files.length) = some 3 := by
    decide +kernel
  obtain ⟨f, hf, hfiles⟩ := Option.map_eq_some_iff.mp hlength
  exact ⟨f, hf, hfiles, (giveEvents_delivered hshort).1 f hf⟩

def replacingSub : List UInt8 := le32 4 ++ le32 7 ++ le32 4 ++ le32 1

/-- The short piece of the first event is replaced by the second event, as the `l_dlen` of the next
piece is taken for a part of its id. -/
def shortEvents : List (LmdEventOut × UInt64) :=
  [(stickyEvent 1 [le32 0 ++ le32 7, plainSub 5 1], 0), (stickyEvent 2 [replacingSub], 0),
    (plainEvent 3, 0)]

def shortReplay : List LmdEventOut :=
  [⟨⟨16, lmdEventStickyType, lmdEventStickySubtype⟩, ⟨0, 1, 1⟩, [⟨plainSub 5 1, false⟩]⟩,
    ⟨⟨12, lmdEventStickyType, lmdEventStickySubtype⟩, ⟨0, 1, 2⟩, [⟨replacingSub, false⟩]⟩]

theorem short_subevent_delivered : ∃ f,
    giveEvents ⟨UInt64.ofNat (2 ^ 64 - 1), 2, 0, true⟩ shortEvents = some f ∧
      ¬ Delivered f.files (shortEvents.map (·.1)) := by
  have hfiles : (giveEvents ⟨UInt64.ofNat (2 ^ 64 - 1), 2, 0, true⟩ shortEvents).map (·.files) =
      some [(shortEvents.map (·.1)).take 2, shortReplay ++ [plainEvent 3]] := by
    decide +kernel
  obtain ⟨f, hf, hfiles⟩ := Option.map_eq_some_iff.mp hfiles
  refine ⟨f, hf, ?_⟩
  rw [hfiles]
  intro hdelivered
  obtain ⟨before, after, horig, -, hact⟩ :=
    hdelivered 1 _ rfl shortReplay (plainEvent 3) [] rfl rfl
  have hnone : ∀ n ≤ 3, activeSticky ((shortEvents.map (·.1)).take n) (5, 0) = none := by
    decide +kernel
  have hbefore : before = (shortEvents.map (·.1)).take before.length := by
    rw [horig, List.take_left]
  have hlength : before.length ≤ 3 := by
    have := congrArg List.length horig
    simp only [List.length_append, List.length_cons, List.length_map] at this
    have hthree : shortEvents.length = 3 := rfl
    omega
  have hsome : (activeSticky shortReplay (5, 0)).isSome = true := by
    decide +kernel
  rw [hact, hbefore, hnone _ hlength] at hsome
  cases hsome

end Ucesb
