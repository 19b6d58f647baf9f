import Ucesb.ClientFetch

namespace Ucesb

/-- There are so many more items in the list and words, and the items are in the structure. -/
def ItemsInside (size : Nat) : Nat → List Nat → List Nat → Prop
  | 0, _, _ => True
  | n + 1, _ :: offset :: o, _ :: p => offset + 4 ≤ size ∧ ItemsInside size n o p
  | _, _, _ => False

/-- From here on in the pack list and the words of an event: all items that the walk comes to are in
the list and in the structure, and have their words. It ends early at a value that is refused. -/
inductive PackedInside (size : Nat) : List Nat → List Nat → Nat → Prop
  | done {p : List Nat} {extra : Nat} : PackedInside size [] p extra
  | item {mark offset value extra : Nat} {o p : List Nat} :
      mark &&& externalWriterMarkLoop = 0 → offset + 4 ≤ size → PackedInside size o p extra →
      PackedInside size (mark :: offset :: o) (value :: p) extra
  | refused {mark offset value maxLoops loopSize extra : Nat} {o p : List Nat} :
      mark &&& externalWriterMarkLoop ≠ 0 → offset + 4 ≤ size →
      maxLoops < value ∨ extra < value * loopSize % 2 ^ 32 →
      PackedInside size (mark :: offset :: maxLoops :: loopSize :: o) (value :: p) extra
  | loop {mark offset value maxLoops loopSize extra : Nat} {o p : List Nat} :
      mark &&& externalWriterMarkLoop ≠ 0 → offset + 4 ≤ size → value ≤ maxLoops →
      value * loopSize % 2 ^ 32 ≤ extra → ItemsInside size (value * loopSize % 2 ^ 32) o p →
      PackedInside size (o.drop (2 * maxLoops * loopSize % 2 ^ 32))
        (p.drop (value * loopSize % 2 ^ 32)) (extra - value * loopSize % 2 ^ 32) →
      PackedInside size (mark :: offset :: maxLoops :: loopSize :: o) (value :: p) extra

def LoopItemsInside (s : FetchStruct) (value : Nat) : Nat → List Nat → Prop
  | 0, _ => True
  | n + 1, src :: dest :: o =>
    (src &&& 0x3fffffff) + 4 * value ≤ s.origStructSize.toNat ∧
      dest + 4 * value ≤ s.destStructSize ∧ LoopItemsInside s value n o
  | _, _ => False

/-- From here on in the map list all that is copied is in the array and in the structure. -/
inductive MapInside (s : FetchStruct) (mem : Nat → UInt8) : List Nat → Prop
  | nil : MapInside s mem []
  | item {src dest : Nat} {o : List Nat} :
      src &&& mapListMarkLoop = 0 →
      (src &&& mapListSrcOffsetMask) + 4 ≤ s.origStructSize.toNat → dest + 4 ≤ s.destStructSize →
      MapInside s mem o → MapInside s mem (src :: dest :: o)
  | loop {src dest maxLoops loopSize : Nat} {o : List Nat} :
      src &&& mapListMarkLoop ≠ 0 →
      (src &&& mapListSrcOffsetMask) + 4 ≤ s.origStructSize.toNat → dest + 4 ≤ s.destStructSize →
      (min (load32 mem (src &&& mapListSrcOffsetMask)) maxLoops ≠ 0 →
        LoopItemsInside s (min (load32 mem (src &&& mapListSrcOffsetMask)) maxLoops) loopSize o) →
      MapInside s mem (o.drop (2 * loopSize % 2 ^ 32)) →
      MapInside s mem (src :: dest :: maxLoops :: loopSize :: o)

def MapGood (s : FetchStruct) (mem : Nat → UInt8) : Prop :=
  s.origArray.isSome → MapInside s mem s.mapList

def PayloadGood (s : FetchStruct) (mem : Nat → UInt8) : EventPayload → Prop
  | .nonpacked words =>
    (s.staticPackItems ≤ words.length →
      PackedInside s.unpackSize s.packList words (words.length - s.staticPackItems)) ∧
    ∀ mem', extDataWritePackedEvent s.packList s.staticPackItems mem words = some (0, mem') →
      MapGood s mem'
  | .packed bytes =>
    ¬FarItem s.unpackSize 0 bytes ∧
    ∀ d, decodeBitpacked s.unpackSize (memWords mem) bytes = .ok d → MapGood s (wordBytes d.dest)

/-- The event in a message that is for the structure, from the index of the ntuple on. -/
def EventGood (c : FetchClient) (s : FetchStruct) (buf : Nat → UInt8) (p : List UInt8) : Prop :=
  frontWord p = 0 →
    if s.maxRawWords = 0 then
      ∀ payload, eventPayload (p.drop 4) = .ok payload → PayloadGood s (s.unpackBuf buf) payload
    else
      frontWord (p.drop 4) ≠ 2 ^ 32 - 1 ∧
      (8 + 4 * (frontWord (p.drop 4) + 1) ≤ p.length → frontWord (p.drop 4) ≤ c.rawSwapped ∧
        ∀ payload, eventPayload (p.drop (8 + 4 * frontWord (p.drop 4))) = .ok payload →
          PayloadGood s (s.unpackBuf buf) payload)

/-- An event message with all its headers: the number of its words does not wrap. -/
def WholeHeaders (c : FetchClient) (m : Message) : Prop :=
  m.kind = externalWriterBufNtupleFill ∧ 8 + 4 * (c.sortWords.toNat + 3) ≤ m.length

def eventWordsOf (c : FetchClient) (m : Message) : List UInt8 := m.body.drop (4 * c.sortWords.toNat)

/-- Each message up to the one that decides arrives. -/
inductive StreamGood (c : FetchClient) (s : FetchStruct) (structId : Nat) (buf : Nat → UInt8)
    (alloc : Nat) : List UInt8 → Prop
  | other_kind {stream : List UInt8} : Arrived alloc stream →
      (messageAt stream).kind ≠ externalWriterBufNtupleFill → StreamGood c s structId buf alloc stream
  | short {stream : List UInt8} : Arrived alloc stream → c.shortHeaders (messageAt stream) →
      StreamGood c s structId buf alloc stream
  | bad_index {stream : List UInt8} : Arrived alloc stream → WholeHeaders c (messageAt stream) →
      c.structures.length ≤ frontWord (eventWordsOf c (messageAt stream)) →
      StreamGood c s structId buf alloc stream
  | discarded {stream : List UInt8} : Arrived alloc stream → WholeHeaders c (messageAt stream) →
      frontWord (eventWordsOf c (messageAt stream)) < c.structures.length →
      frontWord (eventWordsOf c (messageAt stream)) ≠ structId →
      StreamGood c s structId buf alloc (stream.drop (headerLength stream)) →
      StreamGood c s structId buf alloc stream
  | event {stream : List UInt8} : Arrived alloc stream → WholeHeaders c (messageAt stream) →
      frontWord (eventWordsOf c (messageAt stream)) < c.structures.length →
      frontWord (eventWordsOf c (messageAt stream)) = structId →
      EventGood c s buf ((eventWordsOf c (messageAt stream)).drop 4) →
      StreamGood c s structId buf alloc stream

def RawFits (rawSwapped : Nat) (raw : RawData) : Prop := raw.ptr.isSome → raw.words ≤ rawSwapped

/-- For a structure that there is, and a buffer of its size, the messages are good. -/
def FetchGood (c : FetchClient) (buf : Nat → UInt8) (size : Nat) (structId : Int) : Prop :=
  (∃ s, c.setupRead = true ∧ c.structOf structId = some s ∧ size = s.destStructSize ∧
    StreamGood c s structId.toNat buf c.receive.alloc c.receive.stream) ∨
  ((∀ s, c.setupRead = true → c.structOf structId = some s → size ≠ s.destStructSize) ∧
    RawFits c.rawSwapped c.raw)

section Packed

variable {size n fuel extra : Nat} {o p list : List Nat}

theorem traceItems_inside (n : Nat) (o p : List Nat) :
    (∃ p' stores, traceItems n o p = some (p', stores) ∧ ∀ x ∈ stores, x.1 + 4 ≤ size) ↔
      ItemsInside size n o p := by
  induction n generalizing o p with
  | zero => exact iff_of_true ⟨p, [], rfl, by simp⟩ trivial
  | succ n ih =>
    rcases o with _ | ⟨mark, _ | ⟨offset, o⟩⟩
    · exact iff_of_false (fun h => by simp [traceItems] at h) fun h => h
    · exact iff_of_false (fun h => by simp [traceItems] at h) fun h => h
    cases p with
    | nil => exact iff_of_false (fun h => by simp [traceItems] at h) fun h => h
    | cons value p =>
      rw [ItemsInside, ← ih o p, traceItems]
      constructor
      · rintro ⟨p', stores, hrun, hstores⟩
        obtain ⟨⟨p1, stores1⟩, hrun1, heq⟩ := Option.map_eq_some_iff.mp hrun
        cases heq
        exact ⟨hstores _ (List.mem_cons_self ..), p1, stores1, hrun1,
          fun x hx => hstores x (List.mem_cons_of_mem _ hx)⟩
      · rintro ⟨hin, p1, stores1, hrun1, hstores⟩
        refine ⟨p1, (offset, value) :: stores1, by rw [hrun1]; rfl, ?_⟩
        intro x hx
        rcases List.mem_cons.mp hx with rfl | hx
        · exact hin
        · exact hstores x hx

theorem traceItems_rest {p' : List Nat} {stores : WordStores}
    (h : traceItems n o p = some (p', stores)) : p' = p.drop n := by
  induction n generalizing o p stores with
  | zero =>
    cases h
    rfl
  | succ n ih =>
    rcases o with _ | ⟨mark, _ | ⟨offset, o⟩⟩
    · cases h
    · cases h
    cases p with
    | nil => cases h
    | cons value p =>
      obtain ⟨⟨p1, stores1⟩, hrun1, heq⟩ := Option.map_eq_some_iff.mp h
      cases heq
      exact ih hrun1

def TraceInside (size : Nat) (r : Option (Int × WordStores)) : Prop :=
  ∃ code stores, r = some (code, stores) ∧ ∀ x ∈ stores, x.1 + 4 ≤ size

theorem traceInside_map {offset value : Nat} {r : Option (Int × WordStores)} :
    TraceInside size (r.map fun r => (r.1, (offset, value) :: r.2)) ↔
      offset + 4 ≤ size ∧ TraceInside size r := by
  constructor
  · rintro ⟨code, stores, hrun, hstores⟩
    obtain ⟨⟨code1, stores1⟩, rfl, heq⟩ := Option.map_eq_some_iff.mp hrun
    cases heq
    exact ⟨hstores _ (List.mem_cons_self ..), code1, stores1, rfl,
      fun x hx => hstores x (List.mem_cons_of_mem _ hx)⟩
  · rintro ⟨hin, code, stores, rfl, hstores⟩
    refine ⟨code, (offset, value) :: stores, rfl, fun x hx => ?_⟩
    rcases List.mem_cons.mp hx with rfl | hx
    · exact hin
    · exact hstores x hx

theorem traceInside_single {offset value : Nat} {code : Int} :
    TraceInside size (some (code, [(offset, value)])) ↔ offset + 4 ≤ size :=
  ⟨fun ⟨_, _, h, hstores⟩ => by
    cases h
    exact hstores _ (List.mem_cons_self ..),
   fun h => ⟨_, _, rfl, by simpa using h⟩⟩

theorem traceFrom_inside (hfuel : list.length ≤ fuel) :
    TraceInside size (traceFrom fuel list p extra) ↔ PackedInside size list p extra := by
  induction fuel generalizing list p extra with
  | zero =>
    cases List.length_eq_zero_iff.mp (Nat.le_zero.mp hfuel)
    exact iff_of_true ⟨_, _, by rw [traceFrom], by simp⟩ .done
  | succ fuel ih =>
    rcases list with _ | ⟨mark, _ | ⟨offset, o⟩⟩
    · exact iff_of_true ⟨_, _, by rw [traceFrom], by simp⟩ .done
    · refine iff_of_false ?_ fun h => by cases h
      rintro ⟨code, stores, h, -⟩
      cases h
    cases p with
    | nil =>
      refine iff_of_false ?_ fun h => by cases h
      rintro ⟨code, stores, h, -⟩
      rw [traceFrom.eq_def] at h
      cases h
    | cons value p =>
      simp only [List.length_cons] at hfuel
      rw [traceFrom.eq_def]
      dsimp only
      split
      next hmark =>
        rw [traceInside_map, ih (by omega)]
        constructor
        · rintro ⟨hin, h⟩
          exact .item hmark hin h
        · intro h
          cases h with
          | item _ hin h => exact ⟨hin, h⟩
          | refused hmark' => exact absurd hmark hmark'
          | loop hmark' => exact absurd hmark hmark'
      next hmark =>
        rcases o with _ | ⟨maxLoops, _ | ⟨loopSize, o⟩⟩
        · refine iff_of_false (by rintro ⟨_, _, h, _⟩; cases h) fun h => ?_
          cases h with
          | item hmark' => exact hmark hmark'
        · refine iff_of_false (by rintro ⟨_, _, h, _⟩; cases h) fun h => ?_
          cases h with
          | item hmark' => exact hmark hmark'
        simp only [List.length_cons] at hfuel
        dsimp only
        split
        next hmax =>
          rw [traceInside_single]
          constructor
          · exact fun hin => .refused hmark hin (.inl hmax)
          · intro h
            cases h with
            | item hmark' => exact absurd hmark' hmark
            | refused _ hin => exact hin
            | loop _ hin => exact hin
        next hmax =>
        split
        next hextra =>
          rw [traceInside_single]
          constructor
          · exact fun hin => .refused hmark hin (.inr hextra)
          · intro h
            cases h with
            | item hmark' => exact absurd hmark' hmark
            | refused _ hin => exact hin
            | loop _ hin => exact hin
        next hextra =>
          have hrest := @ih (extra - value * loopSize % 2 ^ 32)
            (p.drop (value * loopSize % 2 ^ 32)) (o.drop (2 * maxLoops * loopSize % 2 ^ 32))
            (by rw [List.length_drop]; omega)
          constructor
          · rintro ⟨code, stores, hrun, hstores⟩
            obtain ⟨⟨p1, stores1⟩, hitems, hrun⟩ := Option.bind_eq_some_iff.mp hrun
            obtain ⟨⟨code2, stores2⟩, hwalk, heq⟩ := Option.bind_eq_some_iff.mp hrun
            cases heq
            dsimp only at hwalk
            have hp1 := traceItems_rest hitems
            rw [hp1] at hwalk
            refine .loop hmark (hstores _ (List.mem_cons_self ..)) (Nat.not_lt.mp hmax)
              (Nat.not_lt.mp hextra) ?_ ?_
            · exact (traceItems_inside _ o p).mp ⟨p1, stores1, hitems, fun x hx =>
                hstores x (List.mem_cons_of_mem _ (List.mem_append_left _ hx))⟩
            · exact hrest.mp ⟨code2, stores2, hwalk, fun x hx =>
                hstores x (List.mem_cons_of_mem _ (List.mem_append_right _ hx))⟩
          · intro h
            cases h with
            | item hmark' => exact absurd hmark' hmark
            | refused _ _ hover => omega
            | loop _ hin _ _ hitems hwalk =>
              obtain ⟨p1, stores1, hrun1, hstores1⟩ := (traceItems_inside _ o p).mpr hitems
              obtain ⟨code2, stores2, hrun2, hstores2⟩ := hrest.mpr hwalk
              rw [← traceItems_rest hrun1] at hrun2
              refine ⟨code2, (offset, value) :: (stores1 ++ stores2), ?_, ?_⟩
              · rw [hrun1]
                simp only [Option.bind_eq_bind, Option.bind_some, hrun2]
              · intro x hx
                rcases List.mem_cons.mp hx with rfl | hx
                · exact hin
                rcases List.mem_append.mp hx with hx | hx
                · exact hstores1 x hx
                · exact hstores2 x hx

end Packed

section Map

variable {s : FetchStruct} {mem : Nat → UInt8} {n fuel a src dest value : Nat} {o list : List Nat}

def Yields {α : Type} (x : Except FetchFault α) : Prop := ∃ a, x = .ok a

theorem yields_bind {α β : Type} {x : Except FetchFault α} {f : α → Except FetchFault β}
    {q : Prop} (hf : ∀ a, x = .ok a → (Yields (f a) ↔ q)) :
    Yields (x >>= f) ↔ Yields x ∧ q := by
  constructor
  · rintro ⟨b, hb⟩
    obtain ⟨a, hx, hfa⟩ := bind_eq_ok.mp hb
    exact ⟨⟨a, hx⟩, (hf a hx).mp ⟨b, hfa⟩⟩
  · rintro ⟨⟨a, hx⟩, hq⟩
    obtain ⟨b, hb⟩ := (hf a hx).mpr hq
    exact ⟨b, bind_eq_ok.mpr ⟨a, hx, hb⟩⟩

theorem loadOrig_yields : Yields (loadOrig s mem a) ↔ a + 4 ≤ s.origStructSize.toNat := by
  unfold loadOrig
  constructor
  · rintro ⟨v, hv⟩
    exact Nat.not_lt.mp (errorIf_bind_ok.mp hv).1
  · exact fun h => ⟨_, errorIf_bind_ok.mpr ⟨Nat.not_lt.mpr h, rfl⟩⟩

theorem loadOrig_value {v : Nat} (h : loadOrig s mem a = .ok v) : v = load32 mem a := by
  obtain ⟨-, h⟩ := errorIf_bind_ok.mp h
  cases h
  rfl

theorem storeDest_yields {buf : Nat → UInt8} :
    Yields (storeDest s buf a value) ↔ a + 4 ≤ s.destStructSize := by
  unfold storeDest
  constructor
  · rintro ⟨v, hv⟩
    exact Nat.not_lt.mp (errorIf_bind_ok.mp hv).1
  · exact fun h => ⟨_, errorIf_bind_ok.mpr ⟨Nat.not_lt.mpr h, rfl⟩⟩

theorem mapWords_yields {buf : Nat → UInt8} (hn : n ≠ 0) :
    Yields (mapWords s mem n src dest buf) ↔
      src + 4 * n ≤ s.origStructSize.toNat ∧ dest + 4 * n ≤ s.destStructSize := by
  induction n generalizing src dest buf with
  | zero => exact absurd rfl hn
  | succ n ih =>
    unfold mapWords
    by_cases hlast : n = 0
    · subst hlast
      rw [@yields_bind _ _ _ _ (dest + 4 ≤ s.destStructSize) fun v _ => ?_, loadOrig_yields]
      have hdone : ∀ buf, Yields (mapWords s mem 0 (src + 4) (dest + 4) buf) ↔ True :=
        fun buf => iff_of_true ⟨buf, rfl⟩ trivial
      rw [yields_bind fun buf _ => hdone buf, storeDest_yields, and_true]
    · rw [@yields_bind _ _ _ _ (dest + 4 ≤ s.destStructSize ∧
        src + 4 + 4 * n ≤ s.origStructSize.toNat ∧ dest + 4 + 4 * n ≤ s.destStructSize)
        fun v _ => ?_, loadOrig_yields]
      · constructor
        · omega
        · omega
      · rw [yields_bind fun buf _ => ih hlast, storeDest_yields]

theorem mapLoopItems_yields {buf : Nat → UInt8} (hvalue : value ≠ 0) :
    Yields (mapLoopItems s mem value n o buf) ↔ LoopItemsInside s value n o := by
  induction n generalizing o buf with
  | zero => exact iff_of_true ⟨buf, rfl⟩ trivial
  | succ n ih =>
    rcases o with _ | ⟨src, _ | ⟨dest, o⟩⟩
    · exact iff_of_false (fun ⟨_, h⟩ => by cases h) fun h => h
    · exact iff_of_false (fun ⟨_, h⟩ => by cases h) fun h => h
    · rw [mapLoopItems, yields_bind fun buf _ => ih, mapWords_yields hvalue, LoopItemsInside,
        and_assoc]

theorem mapLoop_yields {loopSize : Nat} {buf : Nat → UInt8} :
    Yields (mapLoop s mem value loopSize o buf) ↔
      (value ≠ 0 → LoopItemsInside s value loopSize o) := by
  unfold mapLoop
  split
  next hzero => exact iff_of_true ⟨buf, rfl⟩ fun h => absurd hzero h
  next hvalue => rw [mapLoopItems_yields hvalue, imp_iff_right hvalue]

theorem mapFrom_yields {buf : Nat → UInt8} (hfuel : list.length ≤ fuel) :
    Yields (mapFrom s mem fuel list buf) ↔ MapInside s mem list := by
  induction fuel generalizing list buf with
  | zero =>
    cases List.length_eq_zero_iff.mp (Nat.le_zero.mp hfuel)
    exact iff_of_true ⟨buf, by rw [mapFrom]⟩ .nil
  | succ fuel ih =>
    rcases list with _ | ⟨src, _ | ⟨dest, o⟩⟩
    · exact iff_of_true ⟨buf, by rw [mapFrom]⟩ .nil
    · exact iff_of_false (fun ⟨_, h⟩ => by cases h) fun h => by cases h
    simp only [List.length_cons] at hfuel
    rw [mapFrom.eq_def]
    dsimp only
    split
    next hmark =>
      have hrest : ∀ buf, Yields (mapFrom s mem fuel o buf) ↔ MapInside s mem o :=
        fun buf => ih (by omega)
      have hstore : ∀ v, Yields (storeDest s buf dest v >>= mapFrom s mem fuel o) ↔
          dest + 4 ≤ s.destStructSize ∧ MapInside s mem o := fun v => by
        rw [yields_bind fun buf _ => hrest buf, storeDest_yields]
      rw [yields_bind fun v _ => hstore v, loadOrig_yields]
      constructor
      · exact fun ⟨hsrc, hdest, h⟩ => .item hmark hsrc hdest h
      · intro h
        cases h with
        | item _ hsrc hdest h => exact ⟨hsrc, hdest, h⟩
        | loop hmark' => exact absurd hmark hmark'
    next hmark =>
      rcases o with _ | ⟨maxLoops, _ | ⟨loopSize, o⟩⟩
      · refine iff_of_false (fun ⟨_, h⟩ => ?_) fun h => ?_
        · obtain ⟨_, _, h⟩ := bind_eq_ok.mp h
          cases h
        · cases h with
          | item hmark' => exact hmark hmark'
      · refine iff_of_false (fun ⟨_, h⟩ => ?_) fun h => ?_
        · obtain ⟨_, _, h⟩ := bind_eq_ok.mp h
          cases h
        · cases h with
          | item hmark' => exact hmark hmark'
      simp only [List.length_cons] at hfuel
      dsimp only
      rw [yields_bind fun v hv => ?_, loadOrig_yields]
      rotate_left
      · exact dest + 4 ≤ s.destStructSize ∧
          (min (load32 mem (src &&& mapListSrcOffsetMask)) maxLoops ≠ 0 → LoopItemsInside s
            (min (load32 mem (src &&& mapListSrcOffsetMask)) maxLoops) loopSize o) ∧
          MapInside s mem (o.drop (2 * loopSize % 2 ^ 32))
      · have hrest : ∀ buf, Yields (mapFrom s mem fuel (o.drop (2 * loopSize % 2 ^ 32)) buf) ↔
            MapInside s mem (o.drop (2 * loopSize % 2 ^ 32)) :=
          fun buf => ih (by rw [List.length_drop]; omega)
        rw [loadOrig_value hv]
        rw [yields_bind fun buf _ => ?_, storeDest_yields]
        rw [yields_bind fun buf _ => hrest buf, mapLoop_yields]
      constructor
      · exact fun ⟨hsrc, hdest, hitems, h⟩ => .loop hmark hsrc hdest hitems h
      · intro h
        cases h with
        | item hmark' => exact absurd hmark' hmark
        | loop _ hsrc hdest hitems h => exact ⟨hsrc, hdest, hitems, h⟩

end Map

section Unpack

variable {s : FetchStruct} {buf mem : Nat → UInt8}

def NoFault {α : Type} (x : Except FetchStop α) : Prop := ∀ f, x ≠ .error (.fault f)

theorem noFault_bind {α β : Type} {x : Except FetchStop α} {f : α → Except FetchStop β} :
    NoFault (x >>= f) ↔ NoFault x ∧ ∀ a, x = .ok a → NoFault (f a) := by
  constructor
  · intro h
    refine ⟨fun g hx => h g (bind_eq_error.mpr (.inl hx)), fun a hx g hf => ?_⟩
    exact h g (bind_eq_error.mpr (.inr ⟨a, hx, hf⟩))
  · rintro ⟨hx, hf⟩ g hg
    rcases bind_eq_error.mp hg with hg | ⟨a, ha, hg⟩
    · exact hx g hg
    · exact hf a ha g hg

theorem tracePacked_inside {words : List Nat} :
    TraceInside s.unpackSize (tracePacked s.packList s.staticPackItems words) ↔
      (s.staticPackItems ≤ words.length →
        PackedInside s.unpackSize s.packList words (words.length - s.staticPackItems)) := by
  unfold tracePacked
  split
  next hshort => exact iff_of_true ⟨_, _, rfl, by simp⟩ fun h => by omega
  next hshort => rw [traceFrom_inside (Nat.le_refl _), imp_iff_right (by omega)]

theorem writePacked_noFault {words : List Nat} :
    NoFault (writePacked s mem words) ↔
      TraceInside s.unpackSize (tracePacked s.packList s.staticPackItems words) := by
  unfold writePacked
  cases tracePacked s.packList s.staticPackItems words with
  | none => exact iff_of_false (fun h => h _ rfl) fun ⟨_, _, h, _⟩ => by cases h
  | some r =>
    obtain ⟨code, stores⟩ := r
    dsimp only
    rw [noFault_bind]
    constructor
    · rintro ⟨hin, -⟩
      refine ⟨code, stores, rfl, fun x hx => Nat.not_lt.mp fun hout => ?_⟩
      exact hin _ (errorIf_eq_error.mpr ⟨⟨x, hx, hout⟩, rfl⟩)
    · rintro ⟨_, _, heq, hstores⟩
      cases heq
      refine ⟨fun f hf => ?_, fun _ _ => noFault_bind.mpr ⟨fun f hf => ?_, fun _ _ f hf => ?_⟩⟩
      · obtain ⟨⟨x, hx, hout⟩, -⟩ := errorIf_eq_error.mp hf
        exact absurd (hstores x hx) (Nat.not_le.mpr hout)
      · exact FetchStop.noConfusion (errorIf_eq_error.mp hf).2
      · cases hf

theorem writePacked_ok {words : List Nat} {mem' : Nat → UInt8}
    (hin : TraceInside s.unpackSize (tracePacked s.packList s.staticPackItems words)) :
    writePacked s mem words = .ok mem' ↔
      extDataWritePackedEvent s.packList s.staticPackItems mem words = some (0, mem') := by
  obtain ⟨code, stores, hrun, hstores⟩ := hin
  have hnone : ¬∃ x ∈ stores, s.unpackSize < x.1 + 4 := fun ⟨x, hx, hout⟩ =>
    absurd (hstores x hx) (Nat.not_le.mpr hout)
  rw [extDataWritePackedEvent_trace, writePacked, hrun]
  simp only [Option.map_some, Option.some.injEq, Prod.mk.injEq]
  rw [errorIf_bind_ok, errorIf_bind_ok, and_iff_right hnone, not_not]
  exact and_congr_right fun _ => ⟨fun h => Except.ok.inj h, fun h => congrArg Except.ok h⟩

theorem writeBitpacked_noFault {bytes : List UInt8} :
    NoFault (writeBitpacked s mem bytes) ↔ ¬FarItem s.unpackSize 0 bytes := by
  rw [← bitpacked_safe_iff s.unpackSize (memWords mem), BitpackedSafe, ends_iff, writeBitpacked]
  cases hrun : decodeBitpacked s.unpackSize (memWords mem) bytes with
  | ok d =>
    refine iff_of_true (fun f h => by cases h) ⟨fun d' hd' => ?_, fun e h => by cases h⟩
    have hsafe : BitpackedSafe s.unpackSize (memWords mem) bytes :=
      (bitpacked_safe_iff _ _ _).mpr fun hfar => by
        rw [decodeBitpacked, fault_of_farItem hfar (by decide) (Nat.le_refl _)] at hrun
        cases hrun
    rw [BitpackedSafe, hrun] at hsafe
    cases hd'
    exact hsafe
  | error e =>
    cases e with
    | code n =>
      exact iff_of_true (fun f h => by cases h) ⟨fun d' hd' => (by cases hd'), fun e h => by
        cases h
        exact ⟨n, rfl⟩⟩
    | fault f =>
      refine iff_of_false (fun h => h _ rfl) fun h => ?_
      obtain ⟨n, hn⟩ := h.2 _ rfl
      cases hn

theorem writeBitpacked_ok {bytes : List UInt8} {mem' : Nat → UInt8} :
    writeBitpacked s mem bytes = .ok mem' ↔ ∃ d,
      decodeBitpacked s.unpackSize (memWords mem) bytes = .ok d ∧ wordBytes d.dest = mem' := by
  unfold writeBitpacked
  cases decodeBitpacked s.unpackSize (memWords mem) bytes with
  | ok d => simp
  | error e => cases e <;> simp

theorem mapFetched_noFault : NoFault (mapFetched s buf mem) ↔ MapGood s mem := by
  unfold mapFetched MapGood
  cases s.origArray with
  | none => exact iff_of_true (fun f h => by cases h) fun h => by cases h
  | some array =>
    have hyields := @mapFrom_yields s mem _ s.mapList buf (Nat.le_refl _)
    simp only [Option.isSome_some, forall_const, ← hyields]
    change _ ↔ Yields (extDataStructMapItems s mem buf)
    cases extDataStructMapItems s mem buf with
    | ok a => exact iff_of_true (fun f h => by cases h) ⟨a, rfl⟩
    | error f => exact iff_of_false (fun h => h f rfl) fun ⟨_, h⟩ => by cases h

theorem unpackFetched_noFault {payload : EventPayload} :
    NoFault (unpackFetched s buf payload) ↔ PayloadGood s (s.unpackBuf buf) payload := by
  unfold unpackFetched
  rw [noFault_bind]
  simp only [mapFetched_noFault]
  cases payload with
  | nonpacked words =>
    rw [writePayload, writePacked_noFault, PayloadGood, ← tracePacked_inside]
    exact and_congr_right fun hin => forall_congr' fun mem' => by rw [writePacked_ok hin]
  | packed bytes =>
    rw [writePayload, writeBitpacked_noFault, PayloadGood]
    simp only [writeBitpacked_ok, forall_exists_index, and_imp, forall_apply_eq_imp_iff₂]

end Unpack

end Ucesb
