import Ucesb.BitpackedDecode
import Ucesb.ClientReceive
import Ucesb.ClientWrite
import Ucesb.PackedWalk

namespace Ucesb

def externalWriterBufNamedString : Nat := 0x07
def externalWriterCompactPacked : Nat := 0x80000000
def mapListMarkLoop : Nat := 0x80000000
def mapListSrcOffsetMask : Nat := 0x7fffffff

/-- What the client has of a structure. There is an array for the structure as it is sent if it has
to be mapped to the one of the program. -/
structure FetchStruct where
  maxRawWords : Nat
  origStructSize : UInt32
  origArray : Option (Nat → UInt8)
  staticPackItems : Nat
  packList : List Nat
  destStructSize : Nat
  mapList : List Nat

/-- `_raw_ptr`, as the words that are there, and `_raw_words`. -/
structure RawData where
  ptr : Option (List Nat)
  words : Nat
deriving DecidableEq

structure FetchClient where
  setupRead : Bool
  sortWords : UInt32
  structures : List FetchStruct
  /-- the words that there is space for -/
  rawSwapped : Nat
  raw : RawData
  receive : Receive

def readMessageWord (p : List UInt8) : Except FetchStop (Nat × List UInt8) := do
  errorIf (p.length < 4) (.fault .message)
  return (frontWord p, p.drop 4)

def fetchedWords : List UInt8 → List Nat
  | b3 :: b2 :: b1 :: b0 :: p => frontWord [b3, b2, b1, b0] :: fetchedWords p
  | _ => []

inductive EventMessage
  | finished
  | fill (structIndex : Nat)
deriving DecidableEq

/-- `p + (_sort_u32_words + 3) > end`, where the sum has 32 bits. -/
def FetchClient.shortHeaders (c : FetchClient) (m : Message) : Prop :=
  m.length < 8 + 4 * (c.sortWords + 3).toNat

instance (c : FetchClient) (m : Message) : Decidable (c.shortHeaders m) :=
  inferInstanceAs (Decidable (_ < _))

def Message.kind (m : Message) : Nat := m.request &&& externalWriterRequestLoMask

def extDataFetchEventMessage (c : FetchClient) (m : Message) : Except FetchStop EventMessage :=
  if m.kind = externalWriterBufDone ∨ m.kind = externalWriterBufAbort then .ok .finished
  else if m.kind = externalWriterBufNamedString then
    .error (.failed ⟨.eproto, "Named string in fetch, after setup."⟩)
  else if m.kind ≠ externalWriterBufNtupleFill then
    .error (.failed ⟨.eproto, "Unexpected message in fetch."⟩)
  else do
    errorIf (c.shortHeaders m) (.failed ⟨.ebadmsg, "Event message too short for headers."⟩)
    let (structIndex, _) ← readMessageWord (m.body.drop (4 * c.sortWords.toNat))
    errorIf (c.structures.length ≤ structIndex)
      (.failed ⟨.ebadmsg, "Event structure index outside bounds."⟩)
    return .fill structIndex

def Receive.consume (r : Receive) (n : Nat) : Receive :=
  { r with used := r.used + n, pending := r.pending.drop n }

inductive NextEvent
  | finished
  | failed (e : FetchError)
  | event (m : Message)
deriving DecidableEq

/-- A message, and what comes after it if it is an event that is discarded. -/
def nextEvent (c : FetchClient) (structId : Nat) (m : Message) (r : Receive)
    (again : Receive → Except FetchFault (NextEvent × Receive)) :
    Except FetchFault (NextEvent × Receive) :=
  match extDataFetchEventMessage c m with
  | .error (.fault f) => .error f
  | .error (.failed e) => .ok (.failed e, r)
  | .ok .finished => .ok (.finished, r)
  | .ok (.fill structIndex) =>
    if structIndex = structId then .ok (.event m, r) else again (r.consume m.length)

/-- The messages up to an event of the structure. `header->_length` is looked at before it is seen
that there is no message. -/
def fetchMessages (c : FetchClient) (structId : Nat) :
    Nat → Receive → Except FetchFault (NextEvent × Receive)
  | 0, _ => .error .endless
  | fuel + 1, r =>
    match extDataPeekMessage r with
    | .error (.fault f) => .error f
    | .error (.failed _) => .error .missing
    | .ok (m, r) => nextEvent c structId m r (fetchMessages c structId fuel)

def eventHeaders (c : FetchClient) (m : Message) : Except FetchStop (List UInt8) := do
  errorIf (c.shortHeaders m) (.failed ⟨.ebadmsg, "Event message too short for headers."⟩)
  let (_, p) ← readMessageWord (m.body.drop (4 * c.sortWords.toNat))
  let (ntupleIndex, p) ← readMessageWord p
  errorIf (ntupleIndex ≠ 0)
    (.failed ⟨.ebadmsg, "Non-zero ntuple_index - do not know how to handle."⟩)
  return p

/-- The raw data and what comes after it, or only the number of its words. -/
def eventRaw (s : FetchStruct) (p : List UInt8) :
    Except FetchStop (RawData × Option (List UInt8)) :=
  if s.maxRawWords = 0 then .ok (⟨none, 0⟩, some p)
  else do
    let (rawWords, p) ← readMessageWord p
    if p.length < 4 * ((rawWords + 1) % 2 ^ 32) then return (⟨none, rawWords⟩, none)
    else
      return (⟨some (fetchedWords (p.take (4 * rawWords))), rawWords⟩,
        some (p.drop (4 * rawWords)))

inductive EventPayload
  | nonpacked (words : List Nat)
  | packed (bytes : List UInt8)
deriving DecidableEq

def compactOf (marker : Nat) : Nat :=
  marker &&& (externalWriterCompactPacked ||| externalWriterCompactNonpacked)

def realLen (marker : Nat) : Nat := marker &&& 0x3fffffff

def eventPayload (p : List UInt8) : Except FetchStop EventPayload := do
  let (marker, p) ← readMessageWord p
  errorIf (compactOf marker ≠ externalWriterCompactPacked ∧
    compactOf marker ≠ externalWriterCompactNonpacked)
    (.failed ⟨.ebadmsg, "Compact marker invalid."⟩)
  if compactOf marker &&& externalWriterCompactNonpacked ≠ 0 then
    return .nonpacked (fetchedWords p)
  else do
    errorIf (p.length / 4 * 4 ≠ (realLen marker + 3) / 4 * 4)
      (.failed ⟨.ebadmsg, "Event message packed length mismatch."⟩)
    return .packed (p.take (realLen marker))

def memWords (mem : Nat → UInt8) (a : Nat) : UInt32 := UInt32.ofNat (load32 mem a)

def wordBytes (words : Nat → UInt32) (a : Nat) : UInt8 :=
  UInt8.ofNat ((words (a / 4 * 4)).toNat / 2 ^ (8 * (a % 4)))

def FetchStruct.unpackBuf (s : FetchStruct) (buf : Nat → UInt8) : Nat → UInt8 :=
  s.origArray.getD buf

def FetchStruct.unpackSize (s : FetchStruct) : Nat :=
  if s.origArray.isSome then s.origStructSize.toNat else s.destStructSize

def writePacked (s : FetchStruct) (mem : Nat → UInt8) (words : List Nat) :
    Except FetchStop (Nat → UInt8) :=
  match tracePacked s.packList s.staticPackItems words with
  | none => .error (.fault .packList)
  | some (code, stores) => do
    errorIf (∃ x ∈ stores, s.unpackSize < x.1 + 4) (.fault .struct)
    errorIf (code ≠ 0) (.failed ⟨.ebadmsg, "Event message unpack failure."⟩)
    return runStores mem stores

def writeBitpacked (s : FetchStruct) (mem : Nat → UInt8) (bytes : List UInt8) :
    Except FetchStop (Nat → UInt8) :=
  match decodeBitpacked s.unpackSize (memWords mem) bytes with
  | .error (.fault _) => .error (.fault .decode)
  | .error (.code _) => .error (.failed ⟨.ebadmsg, "Event message bit-unpack failure."⟩)
  | .ok d => .ok (wordBytes d.dest)

def loadOrig (s : FetchStruct) (mem : Nat → UInt8) (a : Nat) : Except FetchFault Nat := do
  errorIf (s.origStructSize.toNat < a + 4) .origArray
  return load32 mem a

def storeDest (s : FetchStruct) (buf : Nat → UInt8) (a value : Nat) :
    Except FetchFault (Nat → UInt8) := do
  errorIf (s.destStructSize < a + 4) .struct
  return store32 buf a value

def mapWords (s : FetchStruct) (mem : Nat → UInt8) :
    Nat → Nat → Nat → (Nat → UInt8) → Except FetchFault (Nat → UInt8)
  | 0, _, _, buf => .ok buf
  | n + 1, src, dest, buf => do
    let value ← loadOrig s mem src
    let buf ← storeDest s buf dest value
    mapWords s mem n (src + 4) (dest + 4) buf

def mapLoopItems (s : FetchStruct) (mem : Nat → UInt8) (value : Nat) :
    Nat → List Nat → (Nat → UInt8) → Except FetchFault (Nat → UInt8)
  | 0, _, buf => .ok buf
  | n + 1, src :: dest :: o, buf => do
    let buf ← mapWords s mem value (src &&& 0x3fffffff) dest buf
    mapLoopItems s mem value n o buf
  | _, _, _ => .error .mapList

def mapLoop (s : FetchStruct) (mem : Nat → UInt8) (value loopSize : Nat) (o : List Nat)
    (buf : Nat → UInt8) : Except FetchFault (Nat → UInt8) :=
  if value = 0 then .ok buf else mapLoopItems s mem value loopSize o buf

def mapFrom (s : FetchStruct) (mem : Nat → UInt8) :
    Nat → List Nat → (Nat → UInt8) → Except FetchFault (Nat → UInt8)
  | _, [], buf => .ok buf
  | fuel + 1, src :: dest :: o, buf => do
    let value ← loadOrig s mem (src &&& mapListSrcOffsetMask)
    if src &&& mapListMarkLoop = 0 then do
      let buf ← storeDest s buf dest value
      mapFrom s mem fuel o buf
    else
      match o with
      | maxLoops :: loopSize :: o => do
        let buf ← storeDest s buf dest (min value maxLoops)
        let buf ← mapLoop s mem (min value maxLoops) loopSize o buf
        mapFrom s mem fuel (o.drop (2 * loopSize % 2 ^ 32)) buf
      | _ => .error .mapList
  | _, _, _ => .error .mapList

def extDataStructMapItems (s : FetchStruct) (mem buf : Nat → UInt8) :
    Except FetchFault (Nat → UInt8) :=
  mapFrom s mem s.mapList.length s.mapList buf

def writePayload (s : FetchStruct) (mem : Nat → UInt8) :
    EventPayload → Except FetchStop (Nat → UInt8)
  | .nonpacked words => writePacked s mem words
  | .packed bytes => writeBitpacked s mem bytes

structure FetchedEvent where
  buf : Nat → UInt8
  origArray : Option (Nat → UInt8)

def mapFetched (s : FetchStruct) (buf mem : Nat → UInt8) : Except FetchStop FetchedEvent :=
  match s.origArray with
  | none => .ok ⟨mem, none⟩
  | some _ => do
    let buf ← (extDataStructMapItems s mem buf).mapError FetchStop.fault
    return ⟨buf, some mem⟩

def unpackFetched (s : FetchStruct) (buf : Nat → UInt8) (payload : EventPayload) :
    Except FetchStop FetchedEvent :=
  writePayload s (s.unpackBuf buf) payload >>= mapFetched s buf

inductive FetchReturn
  | event (e : FetchedEvent)
  | finished
  | failed (e : FetchError)

structure FetchResult where
  ret : FetchReturn
  raw : RawData
  receive : Receive

/-- A failure is returned, with the raw data and the buffer as they are at that time. -/
def settle {α : Type} (raw : RawData) (r : Receive) (x : Except FetchStop α)
    (next : α → Except FetchFault FetchResult) : Except FetchFault FetchResult :=
  match x with
  | .error (.fault f) => .error f
  | .error (.failed e) => .ok ⟨.failed e, raw, r⟩
  | .ok a => next a

def noRaw : RawData := ⟨none, 0⟩

def handleEvent (c : FetchClient) (s : FetchStruct) (buf : Nat → UInt8) (m : Message)
    (r : Receive) : Except FetchFault FetchResult :=
  settle noRaw r (eventHeaders c m) fun p =>
    settle noRaw r (eventRaw s p) fun x =>
      match x.2 with
      | none => .ok ⟨.failed ⟨.ebadmsg, "Event message too short for raw data."⟩, x.1, r⟩
      | some p =>
        settle x.1 r (eventPayload p) fun payload =>
          settle x.1 (r.consume m.length) (unpackFetched s buf payload) fun e =>
            .ok ⟨.event e, x.1, r.consume m.length⟩

def Receive.turns (r : Receive) : Nat := r.pending.length + readTurns r.script

def finishFetch (c : FetchClient) (s : FetchStruct) (buf : Nat → UInt8) :
    NextEvent × Receive → Except FetchFault FetchResult
  | (.finished, r) => .ok ⟨.finished, noRaw, r⟩
  | (.failed e, r) => .ok ⟨.failed e, noRaw, r⟩
  | (.event m, r) => handleEvent c s buf m r

def fetchStruct (c : FetchClient) (s : FetchStruct) (structId : Nat) (buf : Nat → UInt8) :
    Except FetchFault FetchResult :=
  fetchMessages c structId c.receive.turns c.receive >>= finishFetch c s buf

def FetchClient.structOf (c : FetchClient) (structId : Int) : Option FetchStruct :=
  if structId < 0 then none else c.structures[structId.toNat]?

def extDataFetchEvent (c : FetchClient) (buf : Nat → UInt8) (size : Nat) (structId : Int) :
    Except FetchFault FetchResult :=
  if c.setupRead = false then
    .ok ⟨.failed ⟨.efault, "Client context has not had setup (for reading)."⟩, c.raw, c.receive⟩
  else
    match c.structOf structId with
    | none =>
      .ok ⟨.failed ⟨.einval, "Request for non-existing structure index (key)."⟩, c.raw, c.receive⟩
    | some s =>
      if size ≠ s.destStructSize then
        .ok ⟨.failed ⟨.einval, "Buffer size mismatch."⟩, c.raw, c.receive⟩
      else fetchStruct c s structId.toNat buf

def extDataGetRawData (rawSwapped : Nat) (raw : RawData) : Except FetchFault RawData := do
  errorIf (raw.ptr.isSome ∧ rawSwapped < raw.words) .rawSwapped
  return raw

/-- Nothing is touched that is not for the purpose, and neither when the raw data is asked for
afterwards. -/
def FetchSafe (c : FetchClient) (buf : Nat → UInt8) (size : Nat) (structId : Int) : Prop :=
  ∃ result raw, extDataFetchEvent c buf size structId = .ok result ∧
    extDataGetRawData c.rawSwapped result.raw = .ok raw

end Ucesb
