import Ucesb.ClientWrite

namespace Ucesb

theorem and_pages {x : Nat} (h : x < 2 ^ 32) : x &&& 0xfffff000 = x / 4096 * 4096 := by
  have hmask : 0xfffff000 = (2 ^ 20 - 1) <<< 12 := by decide
  have hpage : x / 4096 * 4096 = (x >>> 12) <<< 12 := by
    rw [Nat.shiftLeft_eq, Nat.shiftRight_eq_div_pow]
  rw [hmask, hpage]
  apply Nat.eq_of_testBit_eq
  intro i
  simp only [Nat.testBit_and, Nat.testBit_shiftLeft, Nat.testBit_shiftRight,
    Nat.testBit_two_pow_sub_one]
  by_cases hlow : 12 ≤ i
  · have hi : 12 + (i - 12) = i := by omega
    by_cases hhigh : i < 32
    · simp [hlow, hi, show i - 12 < 20 by omega]
    · have hbit : x.testBit i = false :=
        Nat.testBit_lt_two_pow (Nat.lt_of_lt_of_le h (Nat.pow_le_pow_right (by decide) (by omega)))
      simp [hbit, hi]
  · simp [hlow]

theorem putWords_cons (alloc : Nat) (b : BufCursor) (w : Nat) (ws : List Nat) :
    putWords alloc b (w :: ws) = (putWord alloc b w >>= fun b => putWords alloc b ws) :=
  List.foldlM_cons

theorem putWords_append (alloc : Nat) (b : BufCursor) (ws us : List Nat) :
    putWords alloc b (ws ++ us) = (putWords alloc b ws >>= fun b => putWords alloc b us) :=
  List.foldlM_append

theorem putWord_ok {alloc : Nat} {b : BufCursor} (h : b.cur + 4 ≤ alloc) (w : Nat) :
    putWord alloc b w = .ok ⟨store32 b.buf b.cur (htonl w), b.cur + 4⟩ := by
  unfold putWord errorIf
  rw [if_neg (by omega)]
  rfl

theorem putWords_ok {alloc : Nat} {b : BufCursor} {ws : List Nat}
    (h : b.cur + 4 * ws.length ≤ alloc) :
    ∃ buf, putWords alloc b ws = .ok ⟨buf, b.cur + 4 * ws.length⟩ := by
  induction ws generalizing b with
  | nil => exact ⟨b.buf, rfl⟩
  | cons w ws ih =>
    rw [List.length_cons] at h ⊢
    rw [putWords_cons, putWord_ok (by omega)]
    have hrest : b.cur + 4 + 4 * ws.length ≤ alloc := by omega
    obtain ⟨buf, hbuf⟩ := @ih ⟨store32 b.buf b.cur (htonl w), b.cur + 4⟩ hrest
    refine ⟨buf, hbuf.trans ?_⟩
    congr 2
    dsimp only
    omega

theorem putWords_error {alloc : Nat} {b : BufCursor} {ws : List Nat} (hne : ws ≠ [])
    (h : alloc < b.cur + 4 * ws.length) : putWords alloc b ws = .error .buf := by
  induction ws generalizing b with
  | nil => exact absurd rfl hne
  | cons w ws ih =>
    rw [putWords_cons]
    rw [List.length_cons] at h
    by_cases hroom : b.cur + 4 ≤ alloc
    · have hrest : ws ≠ [] := by
        rintro rfl
        rw [List.length_nil] at h
        omega
      rw [putWord_ok hroom]
      exact ih hrest (by dsimp only; omega)
    · unfold putWord errorIf
      rw [if_pos (by omega)]
      rfl

def PackLoop.used (mem : Nat → UInt8) (l : PackLoop) : List PackItem :=
  l.items.take (load32 mem l.control.offset * l.loopSize)

/-- The words that are written, up to a control item that is out of bounds. -/
def clientWords (mem : Nat → UInt8) : List PackElement → List Nat
  | [] => []
  | .item i _ :: es => load32 mem i.offset :: clientWords mem es
  | .loop l :: es => load32 mem l.control.offset ::
      if l.maxLoops < load32 mem l.control.offset then []
      else (l.used mem).map (fun i => load32 mem i.offset) ++ clientWords mem es

def outOfBounds (mem : Nat → UInt8) : List PackElement → Option Nat
  | [] => none
  | .item _ _ :: es => outOfBounds mem es
  | .loop l :: es =>
    if l.maxLoops < load32 mem l.control.offset then some l.control.offset
    else outOfBounds mem es

/-- All loops have all their items. A control item that is out of bounds makes no difference at the
end of the list, for a loop without items. -/
def EventFull (mem : Nat → UInt8) : List PackElement → Prop
  | [] => True
  | .item _ _ :: es => EventFull mem es
  | .loop l :: es =>
    if l.maxLoops < load32 mem l.control.offset then l.items = [] ∧ es.length = 0
    else load32 mem l.control.offset * l.loopSize = l.maxLoops * l.loopSize ∧ EventFull mem es

section Event

variable {size alloc fuel n : Nat} {mem : Nat → UInt8} {es : List PackElement} {b : BufCursor}

theorem PackLoop.used_length {l : PackLoop} (h : load32 mem l.control.offset ≤ l.maxLoops) :
    (l.used mem).length = load32 mem l.control.offset * l.loopSize := by
  have hle := Nat.mul_le_mul_right l.loopSize h
  have hcounted := l.counted
  rw [PackLoop.used, List.length_take]
  omega

theorem clientWords_length_le (mem : Nat → UInt8) (es : List PackElement) :
    (clientWords mem es).length ≤ maxItems es := by
  induction es with
  | nil => exact Nat.le_refl _
  | cons e es ih =>
    rw [maxItems_cons]
    cases e with
    | item i single =>
      simp only [clientWords, PackElement.items, List.length_cons, List.length_nil]
      omega
    | loop l =>
      have htake : (l.used mem).length ≤ l.items.length := List.length_take_le' _ _
      simp only [clientWords, PackElement.items, List.length_cons]
      split
      · rw [List.length_nil]
        omega
      · rw [List.length_append, List.length_map]
        omega

theorem maxItems_pos {e : PackElement} : 0 < maxItems (e :: es) := by
  have hitems := e.words_length.2
  rw [maxItems_cons]
  omega

theorem clientWords_full (mem : Nat → UInt8) (es : List PackElement) :
    (clientWords mem es).length = maxItems es ↔ EventFull mem es := by
  induction es with
  | nil => exact iff_of_true rfl trivial
  | cons e es ih =>
    rw [maxItems_cons]
    have hle := clientWords_length_le mem es
    cases e with
    | item i single =>
      simp only [clientWords, PackElement.items, List.length_cons, List.length_nil, EventFull]
      rw [← ih]
      omega
    | loop l =>
      have hcounted := l.counted
      simp only [clientWords, PackElement.items, List.length_cons, EventFull]
      split
      next hover =>
        rw [List.length_nil, ← List.length_eq_zero_iff]
        cases es with
        | nil => 
          simp [maxItems, packItems]
        | cons e es =>
          have hpos := @maxItems_pos es e
          rw [List.length_cons]
          omega
      next hbound =>
        have hused := PackLoop.used_length (Nat.not_lt.mp hbound)
        have hmul := Nat.mul_le_mul_right l.loopSize (Nat.not_lt.mp hbound)
        rw [List.length_append, List.length_map, ← ih]
        omega

theorem loadItem_ok {offset : Nat} (h : offset + 4 ≤ size) :
    loadItem size mem offset = .ok (load32 mem offset) := by
  unfold loadItem errorIf
  rw [if_neg (by omega)]
  rfl

theorem writeLoopItems_eq {items : List PackItem} (o : List Nat)
    (hinside : ∀ i ∈ items, i.offset + 4 ≤ size) (hn : n ≤ items.length) :
    writeLoopItems size alloc mem n (items.flatMap PackItem.words ++ o) b =
      putWords alloc b ((items.take n).map fun i => load32 mem i.offset) := by
  induction items generalizing n b with
  | nil =>
    cases Nat.le_zero.mp hn
    rfl
  | cons i items ih =>
    cases n with
    | zero => rfl
    | succ n =>
      have hload : loadItem size mem i.offset = .ok (load32 mem i.offset) :=
        loadItem_ok (hinside i List.mem_cons_self)
      rw [List.take_succ_cons, List.map_cons, putWords_cons]
      change (do
        let value ← loadItem size mem i.offset
        let b ← putWord alloc b value
        writeLoopItems size alloc mem n (items.flatMap PackItem.words ++ o) b) = _
      rw [hload]
      change putWord alloc b _ >>= _ = _
      congr 1
      funext b
      exact ih (fun i hi => hinside i (List.mem_cons_of_mem _ hi)) (Nat.le_of_succ_le_succ hn)

end Event
section Walk

variable {size alloc fuel n : Nat} {mem : Nat → UInt8} {es : List PackElement} {b : BufCursor}

theorem writeItemsFrom_eq (hinside : ∀ i ∈ packItems es, i.offset + 4 ≤ size)
    (hlength : (packWords es).length < 2 ^ 30) (hfuel : es.length ≤ fuel) :
    writeItemsFrom size alloc mem fuel (packWords es) b =
      (fun b => (outOfBounds mem es, b)) <$> putWords alloc b (clientWords mem es) := by
  induction es generalizing fuel b with
  | nil =>
    unfold writeItemsFrom
    rfl
  | cons e es ih =>
    rw [packWords_cons, List.length_append] at hlength
    obtain ⟨fuel, rfl⟩ : ∃ n, fuel = n + 1 := ⟨fuel - 1, by rw [List.length_cons] at hfuel; omega⟩
    have hnext : ∀ b, writeItemsFrom size alloc mem fuel (packWords es) b =
        (fun b => (outOfBounds mem es, b)) <$> putWords alloc b (clientWords mem es) := fun b =>
      ih (fun i hi => hinside i (by simp_all [packItems])) (by omega)
        (by rw [List.length_cons] at hfuel; omega)
    rw [packWords_cons]
    cases e with
    | item i single =>
      have hload : loadItem size mem i.offset = _ :=
        loadItem_ok (hinside i (by simp [packItems, PackElement.items]))
      simp only [PackElement.words, PackItem.words, List.cons_append, List.nil_append, clientWords,
        outOfBounds, putWords_cons]
      rw [writeItemsFrom.eq_def]
      dsimp only
      rw [hload, map_bind]
      change putWord alloc b _ >>= _ = _
      congr 1
      funext b
      exact (if_pos single).trans (hnext b)
    | loop l =>
      have hload : loadItem size mem l.control.offset = _ :=
        loadItem_ok (hinside l.control (by simp [packItems, PackElement.items]))
      have hitems : ∀ i ∈ l.items, i.offset + 4 ≤ size := fun i hi =>
        hinside i (by simp [packItems, PackElement.items, hi])
      have hcount := l.count_lt (by omega)
      simp only [PackElement.words, PackItem.words, List.cons_append, List.nil_append, clientWords,
        outOfBounds, putWords_cons]
      rw [writeItemsFrom.eq_def]
      dsimp only
      rw [hload, map_bind]
      change putWord alloc b _ >>= _ = _
      congr 1
      funext b
      refine (if_neg l.marked).trans ?_
      split
      · rfl
      next hbound =>
        have hmul := Nat.mul_le_mul_right l.loopSize (Nat.not_lt.mp hbound)
        have hcounted := l.counted
        have hdrop : 2 * l.maxLoops * l.loopSize % 2 ^ 32 =
            (l.items.flatMap PackItem.words).length := by
          rw [words_flatMap_length, hcounted, Nat.mul_assoc, Nat.mod_eq_of_lt (by omega)]
        rw [Nat.mod_eq_of_lt (by omega), writeLoopItems_eq _ hitems (by omega), hdrop,
          List.drop_left, putWords_append, map_bind]
        change putWords alloc b _ >>= _ = _
        congr 1
        funext b
        exact hnext b

end Walk
section Client

variable {size : Nat} {list : ClientPackList size} {client : WriteClient} {mem : Nat → UInt8}

structure WriteInv (list : ClientPackList size) (client : WriteClient) : Prop where
  state : client.state = .setupWrite
  packList : client.clistr.packList = packWords list.elements
  short : (packWords list.elements).length < 2 ^ 30
  structSize : client.clistr.structSize = size
  maxPackItems : client.clistr.setup.maxPackItems = maxItems list.elements
  bufAlloc : client.bufAlloc = (maxItems list.elements * 4 + 16 + 4095) / 4096 * 4096
  bufFilled : client.bufFilled ≤ client.bufAlloc

theorem writeBufSize_eq {n : Nat} (h : n < 2 ^ 29) :
    writeBufSize n = (n * 4 + 16 + 4095) / 4096 * 4096 := by
  unfold writeBufSize
  rw [and_pages (by omega)]
  congr 2

def messageWords (mem : Nat → UInt8) (es : List PackElement) : List Nat :=
  [0, 0, externalWriterCompactNonpacked] ++ clientWords mem es

theorem messageWords_length (mem : Nat → UInt8) (es : List PackElement) :
    (messageWords mem es).length = 3 + (clientWords mem es).length := by
  rw [messageWords, List.length_append]
  rfl

theorem assembleEvent_eq (h : WriteInv list client) (mem : Nat → UInt8) :
    assembleEvent client mem =
      putWords client.bufAlloc ⟨client.buf, client.bufFilled + 8⟩
          (messageWords mem list.elements) >>=
        fun b => finishEvent client (outOfBounds mem list.elements, b) := by
  have hwalk := fun b => @writeItemsFrom_eq size client.bufAlloc _ mem _ b list.inside h.short
    (elements_length_le list.elements)
  unfold assembleEvent messageWords
  simp only [h.structSize, h.packList, hwalk]
  rw [putWords_append, bind_assoc]
  congr 1
  funext b
  rw [bind_map_left]

theorem assembleEvent_overflow (h : WriteInv list client)
    (hroom : client.bufAlloc < client.bufFilled + 20 + 4 * (clientWords mem list.elements).length) :
    assembleEvent client mem = .error .buf := by
  have hlength := messageWords_length mem list.elements
  have hne : messageWords mem list.elements ≠ [] := List.cons_ne_nil _ _
  rw [assembleEvent_eq h, putWords_error hne (by dsimp only; omega)]
  rfl

theorem assembleEvent_ok (h : WriteInv list client)
    (hroom : client.bufFilled + 20 + 4 * (clientWords mem list.elements).length ≤ client.bufAlloc) :
    ∃ code client', assembleEvent client mem = .ok (code, client') ∧ WriteInv list client' := by
  have hlength := messageWords_length mem list.elements
  have hitems := two_maxItems_le list.elements
  have hle := clientWords_length_le mem list.elements
  have hshort := h.short
  obtain ⟨buf, hput⟩ := @putWords_ok client.bufAlloc ⟨client.buf, client.bufFilled + 8⟩
    (messageWords mem list.elements) (by dsimp only; omega)
  rw [assembleEvent_eq h, hput]
  change ∃ code client', finishEvent client (_, _) = _ ∧ _
  cases outOfBounds mem list.elements with
  | some offset => exact ⟨_, _, rfl, { h with }⟩
  | none =>
    obtain ⟨buf', hhead⟩ := @putWords_ok client.bufAlloc ⟨buf, client.bufFilled⟩
      [externalWriterBufNtupleFill ||| externalWriterRequestHiMagic,
        (client.bufFilled + 8 + 4 * (messageWords mem list.elements).length - client.bufFilled) %
          2 ^ 32] (by simp only [List.length_cons, List.length_nil]; omega)
    unfold finishEvent
    dsimp only
    rw [hhead]
    refine ⟨_, _, rfl, { h with bufFilled := ?_ }⟩
    dsimp only
    rw [Nat.mod_eq_of_lt (by omega)]
    omega

theorem flush_inv (h : WriteInv list client) (writes : List WriteResult) :
    WriteInv list (extDataFlushBuffer client writes).2 := by
  unfold extDataFlushBuffer
  rw [if_neg (not_not.mpr h.state)]
  split
  · exact { h with bufFilled := Nat.zero_le _ }
  · exact { h with }

theorem flush_empty (h : WriteInv list client) {writes : List WriteResult}
    (hflush : (extDataFlushBuffer client writes).1 = 0) :
    (extDataFlushBuffer client writes).2.bufFilled = 0 ∧
      (extDataFlushBuffer client writes).2.bufAlloc = client.bufAlloc := by
  unfold extDataFlushBuffer at hflush ⊢
  rw [if_neg (not_not.mpr h.state)] at hflush ⊢
  split at hflush
  next hleft =>
    rw [if_pos hleft]
    exact ⟨rfl, rfl⟩
  next => cases hflush

/-- The buffer, when empty, is too small for an event of the full size of the list, if the rounding
leaves no room. -/
def BufferFits (mem : Nat → UInt8) (es : List PackElement) : Prop :=
  (maxItems es + 4) % 1024 ≠ 0 ∨ ¬EventFull mem es

theorem bufferFits_iff (h : WriteInv list client) :
    BufferFits mem list.elements ↔
      20 + 4 * (clientWords mem list.elements).length ≤ client.bufAlloc := by
  have halloc := h.bufAlloc
  have hle := clientWords_length_le mem list.elements
  unfold BufferFits
  rw [← clientWords_full]
  omega

theorem WriteInv.not_lacks (h : WriteInv list client) (hspace : ¬client.lacksSpace) :
    client.bufFilled + 20 + 4 * (clientWords mem list.elements).length ≤ client.bufAlloc := by
  have hle := clientWords_length_le mem list.elements
  have hfilled := h.bufFilled
  unfold WriteClient.lacksSpace at hspace
  rw [h.maxPackItems] at hspace
  omega

theorem write_cases (h : WriteInv list client) (mem : Nat → UInt8) (bytes : Nat)
    (writes : List WriteResult) :
    (∃ code client', extDataWriteEventBuf client mem bytes writes = .ok (code, client') ∧
      WriteInv list client') ∨
    (extDataWriteEventBuf client mem bytes writes = .error .buf ∧
      ¬BufferFits mem list.elements) := by
  unfold extDataWriteEventBuf
  rw [if_neg (not_not.mpr h.state)]
  split
  · exact .inl ⟨_, _, rfl, { h with }⟩
  split
  next =>
    have hinv := flush_inv h writes
    dsimp only
    split
    · exact .inl ⟨_, _, rfl, hinv⟩
    next hflush =>
      obtain ⟨hempty, -⟩ := flush_empty h (not_not.mp hflush)
      by_cases hfits : BufferFits mem list.elements
      · have hroom := (bufferFits_iff hinv).mp hfits
        exact .inl (assembleEvent_ok hinv (by omega))
      · rw [bufferFits_iff hinv] at hfits
        refine .inr ⟨assembleEvent_overflow hinv (by omega), ?_⟩
        rwa [bufferFits_iff hinv]
  next hspace => exact .inl (assembleEvent_ok h (h.not_lacks hspace))

theorem call_inv (h : WriteInv list client) {c : WriteCall} {client' : WriteClient}
    (hcall : client.call c = some client') : WriteInv list client' := by
  cases c with
  | flush writes =>
    cases hcall
    exact flush_inv h writes
  | write mem bytes writes =>
    rcases write_cases h mem bytes writes with ⟨code, next, hok, hinv⟩ | ⟨herror, -⟩
    · simp only [WriteClient.call, hok] at hcall
      cases hcall
      exact hinv
    · simp only [WriteClient.call, herror] at hcall
      cases hcall

theorem write_overflows (h : WriteInv list client) (hfits : ¬BufferFits mem list.elements) :
    extDataWriteEventBuf client mem size [.wrote client.bufFilled] = .error .buf := by
  have hle := clientWords_length_le mem list.elements
  have hroom := mt (bufferFits_iff h).mpr hfits
  have hfilled := h.bufFilled
  have hlacks : client.lacksSpace := by
    have halloc := h.bufAlloc
    have hshort := h.short
    have hitems := two_maxItems_le list.elements
    unfold WriteClient.lacksSpace
    rw [h.maxPackItems]
    omega
  have hflush : extDataFlushBuffer client [.wrote client.bufFilled] =
      (0, { client with bufFilled := 0 }) := by
    unfold extDataFlushBuffer
    rw [if_neg (not_not.mpr h.state)]
    cases hf : client.bufFilled with
    | zero => rfl
    | succ n => simp [flushLeft]
  have hinv := flush_inv h [.wrote client.bufFilled]
  rw [hflush] at hinv
  unfold extDataWriteEventBuf
  rw [if_neg (not_not.mpr h.state), if_neg (not_not.mpr h.structSize.symm), if_pos hlacks, hflush]
  refine assembleEvent_overflow hinv ?_
  dsimp only
  omega

theorem setupWrite_ok {slo : StructureLayout} {sizeInfo : Nat}
    (hlayout : checkLayout slo sizeInfo size = .ok ())
    (hlist : slo.packList = packWords list.elements) (writes : List WriteResult) :
    ∃ r, extDataSetupWrite slo sizeInfo size writes = .ok r ∧ WriteInv list r.2 := by
  have hshort := layout_short hlayout
  rw [hlist] at hshort
  have hitems := two_maxItems_le list.elements
  have hsize := @writeBufSize_eq (maxItems list.elements) (by omega)
  obtain ⟨xor, hxor⟩ : ∃ x, (slo.items.head?.map LayoutItem.xor).getD 0 = x := ⟨_, rfl⟩
  obtain ⟨buf, hput⟩ := @putWords_ok (writeBufSize (maxItems list.elements)) ⟨fun _ => 0, 0⟩
    (setupWriteMessages size (writeBufSize (maxItems list.elements)) xor.toNat)
    (by rw [hsize]; change 0 + 4 * 30 ≤ _; omega)
  have hfilled : 0 + 4 * 30 ≤ writeBufSize (maxItems list.elements) := by omega
  unfold extDataSetupWrite
  rw [setupStruct_eq hlayout list hlist]
  have hmax : list.setup.maxPackItems = maxItems list.elements := rfl
  simp only [faultOf, Except.mapError, bind, Except.bind, hmax, hxor, hput]
  exact ⟨_, rfl, flush_inv ⟨rfl, rfl, hshort, rfl, rfl, hsize, hfilled⟩ writes⟩

/-- Every event, at whatever point, is written within the buffer: exactly when it is not as large as
the list allows, or the rounding of the size leaves room for one more word. -/
theorem client_write_fits_iff {slo : StructureLayout} {sizeInfo : Nat}
    (hlayout : checkLayout slo sizeInfo size = .ok ()) (list : ClientPackList size)
    (hlist : slo.packList = packWords list.elements) (writes : List WriteResult)
    (mem : Nat → UInt8) :
    ∃ r, extDataSetupWrite slo sizeInfo size writes = .ok r ∧
      ((∀ calls client, runSteps WriteClient.call r.2 calls = some client →
        ∀ bytes writes, extDataWriteEventBuf client mem bytes writes ≠ .error .buf) ↔
      BufferFits mem list.elements) := by
  obtain ⟨r, hsetup, hinv⟩ := setupWrite_ok hlayout hlist writes
  refine ⟨r, hsetup, fun h => ?_, fun hfits calls client hrun bytes writes => ?_⟩
  · by_contra hfits
    exact h [] r.2 rfl size _ (write_overflows hinv hfits)
  · have hnow : WriteInv list client :=
      runSteps_inv (fun _ _ _ hi hcall => call_inv hi hcall) hinv hrun
    rcases write_cases hnow mem bytes writes with ⟨code, client', hok, -⟩ | ⟨-, hno⟩
    · rw [hok]
      intro h
      cases h
    · exact absurd hfits hno

end Client
section Page

def wordElements (n : Nat) : List PackElement :=
  (List.range n).map fun k => .item ⟨externalWriterMarkCanary, 4 * k⟩ canary_single

theorem packItems_words (n : Nat) :
    packItems (wordElements n) = (List.range n).map fun k => ⟨externalWriterMarkCanary, 4 * k⟩ := by
  unfold packItems wordElements
  rw [List.flatMap_map]
  exact List.flatMap_pure_eq_map _ _

theorem words_inside (n : Nat) : ∀ i ∈ packItems (wordElements n), i.offset + 4 ≤ 4 * n := by
  intro i hi
  rw [packItems_words] at hi
  obtain ⟨k, hk, rfl⟩ := List.mem_map.mp hi
  have hlt := List.mem_range.mp hk
  dsimp only
  omega

def wordList (n : Nat) : ClientPackList (4 * n) := ⟨wordElements n, words_inside n⟩

def wordLayout (n : Nat) : StructureLayout :=
  ⟨0x57e65c97, UInt32.ofNat (48 + 8 * n), UInt32.ofNat (4 * n), UInt32.ofNat (4 * n),
    [⟨0, UInt32.ofNat (4 * n), 0⟩], packWords (wordElements n)⟩

theorem wordLayout_packList (n : Nat) :
    (wordLayout n).packList = packWords (wordList n).elements := rfl

theorem words_full (mem : Nat → UInt8) (n : Nat) : EventFull mem (wordElements n) := by
  unfold wordElements
  induction List.range n with
  | nil => trivial
  | cons k ks ih => exact ih

theorem wordElements_length (n : Nat) : (packWords (wordElements n)).length = 2 * n := by
  have hlength : (packWords (wordElements n)).length = 2 * (List.range n).length := by
    unfold wordElements
    induction List.range n with
    | nil => rfl
    | cons k ks ih =>
      rw [List.map_cons, packWords_cons, List.length_append, ih, List.length_cons]
      change 2 + _ = _
      omega
  rw [hlength, List.length_range]

theorem wordLayout_ok {n : Nat} (hn : n < 2 ^ 28) :
    checkLayout (wordLayout n) (48 + 8 * n) (4 * n) = .ok () := by
  have hlength := wordElements_length n
  have hinfo : ¬4294967296 ≤ 48 + 8 * n := by omega
  have hmod : 4 * n % 4294967296 = 4 * n := Nat.mod_eq_of_lt (by omega)
  have hexpect : (wordLayout n).expectSize = 48 + 8 * n := by
    unfold StructureLayout.expectSize wordLayout
    rw [hlength]
    simp only [List.length_cons, List.length_nil]
    omega
  unfold checkLayout
  rw [hexpect]
  simp [wordLayout, hinfo, hmod, errorIf, LayoutItem.outside, externalWriterMagic, bind,
    Except.bind]

theorem words_not_fit (mem : Nat → UInt8) {n : Nat} (hn : (n + 4) % 1024 = 0) :
    ¬BufferFits mem (wordList n).elements := by
  have hmax : maxItems (wordElements n) = n := by
    rw [maxItems, packItems_words, List.length_map, List.length_range]
  unfold BufferFits wordList
  rw [hmax]
  exact not_or.mpr ⟨not_not.mpr hn, not_not.mpr (words_full mem n)⟩

theorem client_write_overflows :
    ∃ r, extDataSetupWrite (wordLayout 1020) 8208 4080 [.wrote 120] = .ok r ∧
      extDataWriteEventBuf r.2 (fun _ => 0) 4080 [.wrote r.2.bufFilled] = .error .buf := by
  obtain ⟨r, hsetup, hinv⟩ := @setupWrite_ok _ (wordList 1020) (wordLayout 1020) _
    (wordLayout_ok (by decide)) (wordLayout_packList 1020) [.wrote 120]
  have hfits : ¬BufferFits (fun _ => 0) (wordList 1020).elements := words_not_fit _ (by decide)
  exact ⟨r, hsetup, write_overflows hinv hfits⟩

theorem client_write_fits_words :
    ∃ r, extDataSetupWrite (wordLayout 3) 72 12 [.wrote 120] = .ok r ∧
      ((∀ calls client, runSteps WriteClient.call r.2 calls = some client →
        ∀ bytes writes, extDataWriteEventBuf client (fun _ => 0) bytes writes ≠ .error .buf) ↔
      BufferFits (fun _ => 0) (wordElements 3)) :=
  client_write_fits_iff (wordLayout_ok (by decide)) (wordList 3) (wordLayout_packList 3)
    [.wrote 120] fun _ => 0

end Page

end Ucesb
