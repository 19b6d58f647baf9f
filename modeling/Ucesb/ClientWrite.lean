import Ucesb.Checks
import Ucesb.CwnItems
import Ucesb.ShmRing

namespace Ucesb

/-- Memory that the client has not got. -/
inductive ClientFault
  | packList
  | reversePack
  | struct
  | buf
deriving DecidableEq

inductive ClientStop
  | error (message : String)
  | fault (f : ClientFault)
deriving DecidableEq

structure PackItem where
  mark : Nat
  offset : Nat
deriving DecidableEq

structure PackLoop where
  control : PackItem
  maxLoops : Nat
  loopSize : Nat
  items : List PackItem
  marked : control.mark &&& externalWriterMarkLoop ≠ 0
  counted : items.length = maxLoops * loopSize

inductive PackElement
  | item (item : PackItem) (single : item.mark &&& externalWriterMarkLoop = 0)
  | loop (loop : PackLoop)

theorem canary_single : externalWriterMarkCanary &&& externalWriterMarkLoop = 0 := by decide

def PackItem.words (i : PackItem) : List Nat := [i.mark, i.offset]

def PackElement.words : PackElement → List Nat
  | .item i _ => i.words
  | .loop l => l.control.words ++ l.maxLoops :: l.loopSize :: l.items.flatMap PackItem.words

def PackElement.items : PackElement → List PackItem
  | .item i _ => [i]
  | .loop l => l.control :: l.items

def packWords (es : List PackElement) : List Nat := es.flatMap PackElement.words

def packItems (es : List PackElement) : List PackItem := es.flatMap PackElement.items

/-- A list for a structure of the given size. -/
structure ClientPackList (size : Nat) where
  elements : List PackElement
  inside : ∀ i ∈ packItems elements, i.offset + 4 ≤ size

/-- Each item has a place of its own. -/
structure ApartPackList (size : Nat) extends ClientPackList size where
  apart : (packItems elements).Pairwise fun i j => Apart i.offset 4 j.offset 4

structure LayoutItem where
  offset : UInt32
  size : UInt32
  xor : UInt32

/-- `struct ext_data_structure_layout`, with the pack list that follows its items. -/
structure StructureLayout where
  magic : UInt32
  sizeInfo : UInt32
  sizeStruct : UInt32
  sizeStructOnion : UInt32
  items : List LayoutItem
  packList : List Nat

/-- The `expect_size` of the information, where pointers have 64 bits. -/
def StructureLayout.expectSize (slo : StructureLayout) : Nat :=
  (48 + (slo.items.length - 1) * 24 + slo.packList.length * 4 + 7) / 8 * 8

def LayoutItem.outside (sizeBuf : Nat) (i : LayoutItem) : Bool :=
  sizeBuf < i.offset.toNat || sizeBuf < (i.offset + i.size).toNat

def checkLayout (slo : StructureLayout) (sizeInfo sizeBuf : Nat) : Except ClientStop Unit := do
  errorIf (slo.magic.toNat ≠ externalWriterMagic ∨ slo.sizeInfo.toNat ≠ sizeInfo ∨
    slo.sizeStructOnion ≠ slo.sizeStruct ∨ slo.items.length < 1 ∨
    slo.sizeInfo.toNat ≠ slo.expectSize) (.error "Structure layout information inconsistent.")
  errorIf (slo.sizeStruct.toNat ≠ sizeBuf)
    (.error "Structure layout gives different buffer size.")
  errorIf (∀ i ∈ slo.items.head?, i.offset ≠ 0 ∨ i.size.toNat ≠ sizeBuf)
    (.error "Structure layout item 0 information inconsistent.")
  errorIf (slo.items.any (LayoutItem.outside sizeBuf))
    (.error "Structure layout item information inconsistent.")

structure PackSetup where
  maxPackItems : Nat
  staticPackItems : Nat
  reversePack : Nat → Nat

/-- The loop over the list. A loop is entered in the reverse list with the place in the pack list
that comes after its `max_loops` and `loop_size`. -/
def packSetupFrom (sizeBuf length : Nat) :
    Nat → List Nat → PackSetup → Except ClientFault PackSetup
  | _, [], s => .ok s
  | fuel + 1, mark :: offset :: o, s =>
    if mark &&& externalWriterMarkLoop = 0 then
      packSetupFrom sizeBuf length fuel o
        { s with staticPackItems := (s.staticPackItems + 1) % 2 ^ 32 }
    else
      match o with
      | maxLoops :: loopSize :: o => do
        errorIf (sizeBuf ≤ offset) .reversePack
        packSetupFrom sizeBuf length fuel (o.drop (2 * (maxLoops * loopSize) % 2 ^ 32))
          { maxPackItems := (s.maxPackItems + maxLoops * loopSize) % 2 ^ 32,
            staticPackItems := (s.staticPackItems + 1) % 2 ^ 32,
            reversePack := Function.update s.reversePack offset (length - o.length) }
      | _ => .error .packList
  | _, _, _ => .error .packList

def packSetup (sizeBuf : Nat) (list : List Nat) : Except ClientFault PackSetup := do
  let s ← packSetupFrom sizeBuf list.length list.length list ⟨0, 0, fun _ => 0⟩
  return { s with maxPackItems := (s.maxPackItems + s.staticPackItems) % 2 ^ 32 }

structure ClientStruct where
  packList : List Nat
  setup : PackSetup
  structSize : Nat

def faultOf {α : Type} : Except ClientFault α → Except ClientStop α :=
  Except.mapError .fault

/-- What `ext_data_setup` does with structure layout information, for reading and for writing. -/
def setupStruct (slo : StructureLayout) (sizeInfo sizeBuf : Nat) :
    Except ClientStop ClientStruct := do
  checkLayout slo sizeInfo sizeBuf
  let setup ← faultOf (packSetup sizeBuf slo.packList)
  return ⟨slo.packList, setup, sizeBuf⟩

/-- The items that an event has at most, the control items being always there. -/
def maxItems (es : List PackElement) : Nat := (packItems es).length

def PackSetup.enter (s : PackSetup) (pos : Nat) : PackElement → PackSetup
  | .item _ _ => { s with staticPackItems := s.staticPackItems + 1 }
  | .loop l =>
    { maxPackItems := s.maxPackItems + l.items.length,
      staticPackItems := s.staticPackItems + 1,
      reversePack := Function.update s.reversePack l.control.offset (pos + 4) }

def PackSetup.enterAll : Nat → PackSetup → List PackElement → PackSetup
  | _, s, [] => s
  | pos, s, e :: es => PackSetup.enterAll (pos + e.words.length) (s.enter pos e) es

section Lengths

theorem words_flatMap_length (items : List PackItem) :
    (items.flatMap PackItem.words).length = 2 * items.length := by
  induction items with
  | nil => rfl
  | cons i items ih =>
    rw [List.flatMap_cons, List.length_append, ih, List.length_cons]
    change 2 + 2 * items.length = _
    omega

theorem PackElement.words_length (e : PackElement) :
    2 * e.items.length ≤ e.words.length ∧ 0 < e.items.length := by
  cases e with
  | item i single => exact ⟨Nat.le_refl _, Nat.one_pos⟩
  | loop l =>
    have hwords := words_flatMap_length l.items
    simp only [PackElement.words, PackElement.items, PackItem.words, List.length_append,
      List.length_cons, List.length_nil, hwords]
    omega

theorem packWords_cons (e : PackElement) (es : List PackElement) :
    packWords (e :: es) = e.words ++ packWords es := List.flatMap_cons

theorem maxItems_cons (e : PackElement) (es : List PackElement) :
    maxItems (e :: es) = e.items.length + maxItems es := by
  unfold maxItems packItems
  rw [List.flatMap_cons, List.length_append]

theorem two_maxItems_le (es : List PackElement) : 2 * maxItems es ≤ (packWords es).length := by
  induction es with
  | nil => exact Nat.le_refl _
  | cons e es ih =>
    rw [packWords_cons, maxItems_cons, List.length_append]
    have hwords := e.words_length
    omega

theorem elements_length_le (es : List PackElement) : es.length ≤ (packWords es).length := by
  induction es with
  | nil => exact Nat.le_refl _
  | cons e es ih =>
    rw [packWords_cons, List.length_append, List.length_cons]
    have hwords := e.words_length
    omega

end Lengths

section Setup

variable {sizeBuf length fuel pos : Nat} {es : List PackElement} {s : PackSetup}

theorem enter_counts (s : PackSetup) (pos : Nat) (e : PackElement) :
    (s.enter pos e).maxPackItems + (s.enter pos e).staticPackItems =
      s.maxPackItems + s.staticPackItems + e.items.length := by
  cases e with
  | item i single => exact (Nat.add_assoc _ _ _).symm
  | loop l =>
    simp only [PackSetup.enter, PackElement.items, List.length_cons]
    omega

theorem enterAll_counts (s : PackSetup) (pos : Nat) (es : List PackElement) :
    (PackSetup.enterAll pos s es).maxPackItems + (PackSetup.enterAll pos s es).staticPackItems =
      s.maxPackItems + s.staticPackItems + maxItems es := by
  induction es generalizing pos s with
  | nil => rfl
  | cons e es ih =>
    have hstep := enter_counts s pos e
    rw [PackSetup.enterAll, ih, hstep, maxItems_cons, Nat.add_assoc]

theorem PackLoop.count_lt (l : PackLoop) (h : (PackElement.loop l).words.length < 2 ^ 30) :
    l.maxLoops * l.loopSize < 2 ^ 29 := by
  have hwords := (PackElement.loop l).words_length.1
  have hitems : (PackElement.loop l).items.length = l.maxLoops * l.loopSize + 1 :=
    congrArg (· + 1) l.counted
  omega

theorem packSetupFrom_eq (hpos : length = pos + (packWords es).length) (hlength : length < 2 ^ 30)
    (hinside : ∀ i ∈ packItems es, i.offset + 4 ≤ sizeBuf) (hfuel : es.length ≤ fuel)
    (hcount : s.maxPackItems + s.staticPackItems + maxItems es < 2 ^ 32) :
    packSetupFrom sizeBuf length fuel (packWords es) s = .ok (s.enterAll pos es) := by
  induction es generalizing fuel pos s with
  | nil =>
    unfold packSetupFrom
    rfl
  | cons e es ih =>
    rw [packWords_cons, List.length_append] at hpos
    rw [maxItems_cons] at hcount
    have hstep := enter_counts s pos e
    obtain ⟨fuel, rfl⟩ : ∃ n, fuel = n + 1 := ⟨fuel - 1, by rw [List.length_cons] at hfuel; omega⟩
    have hnext : packSetupFrom sizeBuf length fuel (packWords es) (s.enter pos e) =
        .ok ((s.enter pos e).enterAll (pos + e.words.length) es) :=
      ih (by omega) (fun i hi => hinside i (by simp_all [packItems]))
        (by rw [List.length_cons] at hfuel; omega) (by omega)
    rw [PackSetup.enterAll, ← hnext, packWords_cons]
    cases e with
    | item i single =>
      have hlt : s.staticPackItems + 1 < 2 ^ 32 := by
        simp only [PackElement.items, List.length_cons] at hcount
        omega
      simp only [PackElement.words, PackItem.words, List.cons_append, List.nil_append]
      rw [packSetupFrom.eq_def]
      dsimp only
      rw [if_pos single, Nat.mod_eq_of_lt hlt]
      rfl
    | loop l =>
      have hinto : l.control.offset + 4 ≤ sizeBuf :=
        hinside _ (by simp [packItems, PackElement.items])
      have hwords := words_flatMap_length l.items
      have hl := l.count_lt (by omega)
      have hcounted := l.counted
      simp only [PackElement.items, PackElement.words, PackItem.words, List.length_cons,
        List.length_append, List.length_nil] at hcount hpos hstep
      have hmax : s.maxPackItems + l.maxLoops * l.loopSize < 2 ^ 32 := by omega
      have hstatic : s.staticPackItems + 1 < 2 ^ 32 := by omega
      have hdrop : 2 * (l.maxLoops * l.loopSize) % 2 ^ 32 =
          (l.items.flatMap PackItem.words).length := by
        rw [hwords, hcounted, Nat.mod_eq_of_lt (by omega)]
      have hplace : length - (l.items.flatMap PackItem.words ++ packWords es).length = pos + 4 := by
        rw [List.length_append]
        omega
      simp only [PackElement.words, PackItem.words, List.cons_append, List.nil_append]
      rw [packSetupFrom.eq_def]
      dsimp only
      rw [if_neg l.marked, hdrop, List.drop_left, hplace, Nat.mod_eq_of_lt hmax,
        Nat.mod_eq_of_lt hstatic, ← hcounted, errorIf, if_neg (by omega)]
      rfl

def ClientPackList.setup (list : ClientPackList sizeBuf) : PackSetup :=
  { PackSetup.enterAll 0 ⟨0, 0, fun _ => 0⟩ list.elements with
    maxPackItems := maxItems list.elements }

theorem packSetup_eq (list : ClientPackList sizeBuf)
    (hlength : (packWords list.elements).length < 2 ^ 30) :
    packSetup sizeBuf (packWords list.elements) = .ok list.setup := by
  have hitems := two_maxItems_le list.elements
  have hcounts := enterAll_counts ⟨0, 0, fun _ => 0⟩ 0 list.elements
  simp only [Nat.zero_add] at hcounts
  have hlt : maxItems list.elements < 2 ^ 32 := by omega
  have hloop := packSetupFrom_eq (s := ⟨0, 0, fun _ => 0⟩) (Nat.zero_add _).symm hlength list.inside
    (elements_length_le list.elements) (by simpa using hlt)
  unfold packSetup
  rw [hloop]
  change Except.ok _ = _
  simp only [hcounts, Nat.mod_eq_of_lt hlt, ClientPackList.setup]

theorem layout_short {slo : StructureLayout} {sizeInfo : Nat}
    (hlayout : checkLayout slo sizeInfo sizeBuf = .ok ()) : slo.packList.length < 2 ^ 30 := by
  obtain ⟨hinfo, -⟩ := errorIf_bind_ok.mp hlayout
  have hexpect : slo.sizeInfo.toNat = slo.expectSize := by tauto
  have hlt := slo.sizeInfo.toNat_lt
  unfold StructureLayout.expectSize at hexpect
  omega

theorem setupStruct_eq {slo : StructureLayout} {sizeInfo : Nat}
    (hlayout : checkLayout slo sizeInfo sizeBuf = .ok ()) (list : ClientPackList sizeBuf)
    (hlist : slo.packList = packWords list.elements) :
    setupStruct slo sizeInfo sizeBuf = .ok ⟨packWords list.elements, list.setup, sizeBuf⟩ := by
  have hshort := layout_short hlayout
  rw [hlist] at hshort
  unfold setupStruct
  rw [hlayout, hlist, packSetup_eq list hshort]
  rfl

end Setup

section Reverse

variable {pos : Nat} {s : PackSetup}

theorem enterAll_append (pos : Nat) (s : PackSetup) (xs ys : List PackElement) :
    PackSetup.enterAll pos s (xs ++ ys) =
      PackSetup.enterAll (pos + (packWords xs).length) (PackSetup.enterAll pos s xs) ys := by
  induction xs generalizing pos s with
  | nil => rfl
  | cons e xs ih =>
    rw [List.cons_append, PackSetup.enterAll, ih, packWords_cons, List.length_append,
      ← Nat.add_assoc]
    rfl

theorem enterAll_other {a : Nat} {es : List PackElement}
    (h : ∀ i ∈ packItems es, i.offset ≠ a) :
    (PackSetup.enterAll pos s es).reversePack a = s.reversePack a := by
  induction es generalizing pos s with
  | nil => rfl
  | cons e es ih =>
    have hrest : ∀ i ∈ packItems es, i.offset ≠ a := fun i hi => h i (by simp_all [packItems])
    rw [PackSetup.enterAll, ih hrest]
    cases e with
    | item i single => rfl
    | loop l =>
      have hne : l.control.offset ≠ a := h _ (by simp [packItems, PackElement.items])
      exact Function.update_of_ne (Ne.symm hne) _ _

theorem packItems_append (xs ys : List PackElement) :
    packItems (xs ++ ys) = packItems xs ++ packItems ys := List.flatMap_append

theorem packWords_append (xs ys : List PackElement) :
    packWords (xs ++ ys) = packWords xs ++ packWords ys := List.flatMap_append

theorem packItems_loop (l : PackLoop) (es : List PackElement) :
    packItems (.loop l :: es) = l.control :: (l.items ++ packItems es) := rfl

variable {size : Nat} {list : ApartPackList size} {before after : List PackElement} {l : PackLoop}

theorem ApartPackList.apart_from (h : list.elements = before ++ .loop l :: after) :
    (l.control :: (l.items ++ packItems after)).Pairwise
      fun i j => Apart i.offset 4 j.offset 4 := by
  have hall := list.apart
  rw [h, packItems_append, packItems_loop] at hall
  exact (List.pairwise_append.mp hall).2.1

theorem reversePack_eq (h : list.elements = before ++ .loop l :: after) :
    list.setup.reversePack l.control.offset = (packWords before).length + 4 := by
  have hother : ∀ i ∈ packItems after, i.offset ≠ l.control.offset := by
    intro i hi
    have hi' : i ∈ l.items ++ packItems after := List.mem_append_right _ hi
    have hapart := (List.pairwise_cons.mp (list.apart_from h)).1 i hi'
    unfold Apart at hapart
    omega
  unfold ClientPackList.setup
  rw [h, enterAll_append, PackSetup.enterAll]
  exact (enterAll_other hother).trans (by simp [PackSetup.enter])

theorem drop_reversePack (h : list.elements = before ++ .loop l :: after) :
    (packWords list.elements).drop (list.setup.reversePack l.control.offset) =
      l.items.flatMap PackItem.words ++ packWords after := by
  have hwords : packWords list.elements = (packWords before ++
      (l.control.words ++ [l.maxLoops, l.loopSize])) ++
        (l.items.flatMap PackItem.words ++ packWords after) := by
    rw [h, packWords_append, packWords_cons, PackElement.words]
    simp only [List.append_assoc, List.cons_append, List.nil_append]
  have hlength : list.setup.reversePack l.control.offset =
      (packWords before ++ (l.control.words ++ [l.maxLoops, l.loopSize])).length := by
    rw [reversePack_eq h, List.length_append]
    rfl
  rw [hwords, hlength, List.drop_left]

end Reverse

def externalWriterBufOpenFile : Nat := 0x01
def externalWriterBufBookNtuple : Nat := 0x02
def externalWriterBufAllocArray : Nat := 0x03
def externalWriterBufArrayOffsets : Nat := 0x06
def externalWriterBufSetupDoneWr : Nat := 0x0a
def externalWriterCompactNonpacked : Nat := 0x40000000

inductive ExtDataState
  | init
  | openRead
  | openOut
  | parsedHeaders
  | setupRead
  | setupWrite
deriving DecidableEq

structure WriteClient where
  state : ExtDataState
  clistr : ClientStruct
  buf : Nat → UInt8
  bufAlloc : Nat
  bufFilled : Nat
  lastError : String

def htonl (v : Nat) : Nat :=
  v % 256 * 2 ^ 24 + v / 2 ^ 8 % 256 * 2 ^ 16 + v / 2 ^ 16 % 256 * 2 ^ 8 + v / 2 ^ 24 % 256

structure BufCursor where
  buf : Nat → UInt8
  cur : Nat

def putWord (alloc : Nat) (b : BufCursor) (value : Nat) : Except ClientFault BufCursor := do
  errorIf (alloc < b.cur + 4) .buf
  return ⟨store32 b.buf b.cur (htonl value), b.cur + 4⟩

def putWords (alloc : Nat) (b : BufCursor) (words : List Nat) : Except ClientFault BufCursor :=
  words.foldlM (putWord alloc) b

def clientMessage (request : Nat) (body : List Nat) : List Nat :=
  (request ||| externalWriterRequestHiMagic) :: (8 + 4 * body.length) :: body

/-- What `write` does. -/
inductive WriteResult
  | wrote (n : Nat)
  | interrupted
  | failed
deriving DecidableEq

/-- Whether all gets written. When the results are used up, the next one is a failure. -/
def flushLeft : List WriteResult → Nat → Bool
  | _, 0 => true
  | .wrote n :: writes, left + 1 => n ≠ 0 && flushLeft writes (left + 1 - n)
  | .interrupted :: writes, left + 1 => flushLeft writes (left + 1)
  | _, _ + 1 => false

def extDataFlushBuffer (client : WriteClient) (writes : List WriteResult) : Int × WriteClient :=
  if client.state ≠ .setupWrite then
    (-1, { client with lastError := "Client context has not had setup (for writing)." })
  else if flushLeft writes client.bufFilled then (0, { client with bufFilled := 0 })
  else (-1, { client with lastError := "Failure writing buffer data." })

def writeBufSize (maxPackItems : Nat) : Nat :=
  (maxPackItems * 4 + 8 + 2 * 4 + 0x1000 - 1) &&& 0xfffff000

def setupWriteMessages (structSize bufsize xor : Nat) : List Nat :=
  clientMessage externalWriterBufOpenFile [externalWriterMagic, 0] ++
  clientMessage externalWriterBufBookNtuple (List.replicate 12 0) ++
  clientMessage externalWriterBufAllocArray [structSize] ++
  clientMessage externalWriterBufResize [bufsize, externalWriterMagic] ++
  clientMessage externalWriterBufArrayOffsets [xor] ++
  clientMessage externalWriterBufSetupDoneWr []

/-- `ext_data_setup` for a client that was opened for writing. -/
def extDataSetupWrite (slo : StructureLayout) (sizeInfo sizeBuf : Nat) (writes : List WriteResult) :
    Except ClientStop (Int × WriteClient) := do
  let clistr ← setupStruct slo sizeInfo sizeBuf
  let bufsize := writeBufSize clistr.setup.maxPackItems
  let xor := (slo.items.head?.map LayoutItem.xor).getD 0
  let b ← faultOf (putWords bufsize ⟨fun _ => 0, 0⟩ (setupWriteMessages sizeBuf bufsize xor.toNat))
  return extDataFlushBuffer ⟨.setupWrite, clistr, b.buf, bufsize, b.cur, ""⟩ writes

def loadItem (size : Nat) (mem : Nat → UInt8) (offset : Nat) : Except ClientFault Nat := do
  errorIf (size < offset + 4) .struct
  return load32 mem offset

def writeLoopItems (size alloc : Nat) (mem : Nat → UInt8) :
    Nat → List Nat → BufCursor → Except ClientFault BufCursor
  | 0, _, b => .ok b
  | n + 1, _ :: offset :: o, b => do
    let value ← loadItem size mem offset
    let b ← putWord alloc b value
    writeLoopItems size alloc mem n o b
  | _, _, _ => .error .packList

/-- The loop over the pack list, left with the offset of a control item that is out of bounds. -/
def writeItemsFrom (size alloc : Nat) (mem : Nat → UInt8) :
    Nat → List Nat → BufCursor → Except ClientFault (Option Nat × BufCursor)
  | _, [], b => .ok (none, b)
  | fuel + 1, mark :: offset :: o, b => do
    let value ← loadItem size mem offset
    let b ← putWord alloc b value
    if mark &&& externalWriterMarkLoop = 0 then writeItemsFrom size alloc mem fuel o b
    else
      match o with
      | maxLoops :: loopSize :: o =>
        if maxLoops < value then .ok (some offset, b)
        else do
          let b ← writeLoopItems size alloc mem (value * loopSize % 2 ^ 32) o b
          writeItemsFrom size alloc mem fuel (o.drop (2 * maxLoops * loopSize % 2 ^ 32)) b
      | _ => .error .packList
  | _, _, _ => .error .packList

def finishEvent (client : WriteClient) :
    Option Nat × BufCursor → Except ClientFault (Int × WriteClient)
  | (some offset, b) => .ok (offset, { client with
      buf := b.buf, lastError := "Array ctrl item value out of bounds." })
  | (none, b) => do
    let length := (b.cur - client.bufFilled) % 2 ^ 32
    let h ← putWords client.bufAlloc ⟨b.buf, client.bufFilled⟩
      [externalWriterBufNtupleFill ||| externalWriterRequestHiMagic, length]
    return (client.clistr.structSize,
      { client with buf := h.buf, bufFilled := client.bufFilled + length })

/-- The part of `ext_data_write_event` after the checks. -/
def assembleEvent (client : WriteClient) (mem : Nat → UInt8) :
    Except ClientFault (Int × WriteClient) := do
  let size := client.clistr.structSize
  let list := client.clistr.packList
  let b ← putWords client.bufAlloc ⟨client.buf, client.bufFilled + 8⟩
    [0, 0, externalWriterCompactNonpacked]
  let r ← writeItemsFrom size client.bufAlloc mem list.length list b
  finishEvent client r

def WriteClient.lacksSpace (client : WriteClient) : Prop :=
  (client.bufAlloc + 2 ^ 64 - client.bufFilled) % 2 ^ 64 <
    8 + 3 * 4 + client.clistr.setup.maxPackItems * 4

instance (client : WriteClient) : Decidable client.lacksSpace :=
  inferInstanceAs (Decidable (_ < _))

/-- `ext_data_write_event`, for a structure with the given content. -/
def extDataWriteEventBuf (client : WriteClient) (mem : Nat → UInt8) (size : Nat)
    (writes : List WriteResult) : Except ClientFault (Int × WriteClient) :=
  if client.state ≠ .setupWrite then
    .ok (-1, { client with lastError := "Client context has not had setup (for writing)." })
  else if size ≠ client.clistr.structSize then
    .ok (-1, { client with lastError := "Buffer size mismatch." })
  else if client.lacksSpace then
    let flushed := extDataFlushBuffer client writes
    if flushed.1 ≠ 0 then .ok (-1, flushed.2) else assembleEvent flushed.2 mem
  else assembleEvent client mem

inductive WriteCall
  | write (mem : Nat → UInt8) (size : Nat) (writes : List WriteResult)
  | flush (writes : List WriteResult)

def WriteClient.call (client : WriteClient) : WriteCall → Option WriteClient
  | .write mem size writes => ((extDataWriteEventBuf client mem size writes).toOption).map Prod.snd
  | .flush writes => some (extDataFlushBuffer client writes).2

end Ucesb
