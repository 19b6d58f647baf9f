import Ucesb.LmdEvent
import Ucesb.LinearProbe
import Ucesb.Pieces

namespace Ucesb

structure MetaEvent where
  dataOffset : Nat
  dataLength : Nat
  numSub : Nat
  liveSub : Nat
deriving DecidableEq, Repr

/-- `dataOffset` is `none` for the offset -1 of data that is not live any longer. -/
structure MetaSubevent where
  evOffset : Nat
  dataOffset : Option Nat
  dataLength : Nat
deriving DecidableEq, Repr

inductive MetaEntry where
  | event (ev : MetaEvent)
  | subevent (sev : MetaSubevent)
deriving DecidableEq, Repr

def sizeofMetaEntry : Nat := 24

/-- `data` and `metas` are the parts in use of the two arrays. -/
structure StickyStore where
  data : List UInt8
  dataAlloc : Nat
  dataRevoked : Nat
  metas : List MetaEntry
  metaAlloc : Nat
  metaRevoked : Nat
  hash : List (HashSlot Nat)
  hashUsed : Nat
deriving DecidableEq, Repr

def StickyStore.empty : StickyStore := ⟨[], 0, 0, [], 0, 0, [], 0⟩

def stickySubeventHash (bs : List UInt8) : Nat :=
  let mix (hash : UInt32) : UInt32 :=
    let hash := hash ^^^ (hash <<< 6)
    let hash := hash ^^^ (hash <<< 21)
    hash ^^^ (hash <<< 7)
  let (d1, d2) := subId bs
  (mix (mix (UInt32.ofNat d1) ^^^ UInt32.ofNat d2)).toNat

structure MetaGroup where
  ev : MetaEvent
  subs : List MetaSubevent
deriving DecidableEq, Repr

def MetaGroup.entries (g : MetaGroup) : List MetaEntry :=
  .event g.ev :: g.subs.map .subevent

def flatMetas (gs : List MetaGroup) : List MetaEntry := gs.flatMap MetaGroup.entries

def MetaEntry.subevent? : MetaEntry → Option MetaSubevent
  | .subevent sev => some sev
  | .event _ => none

/-- The loop over `_meta` that all functions share: each event is followed by `_num_sub`
subevents. -/
def iterEvents : Nat → List MetaEntry → List MetaGroup
  | fuel + 1, .event ev :: rest =>
    ⟨ev, (rest.take ev.numSub).filterMap MetaEntry.subevent?⟩ ::
      iterEvents fuel (rest.drop ev.numSub)
  | _, _ => []

def StickyStore.groups (s : StickyStore) : List MetaGroup := iterEvents s.metas.length s.metas

def MetaSubevent.isLive (sev : MetaSubevent) : Bool := sev.dataOffset.isSome

/-- Inner loop of `compact_data`. -/
def compactSubs (data : List UInt8) (dest : Nat) :
    List MetaSubevent → List UInt8 × Nat × List MetaSubevent
  | [] => (data, dest, [])
  | sev :: subs =>
    match sev.dataOffset with
    | none =>
      let (data, dest, subs) := compactSubs data dest subs
      (data, dest, sev :: subs)
    | some src =>
      let moved := memmove data dest src sev.dataLength
      let sev := { sev with dataOffset := some dest }
      let (data, dest, subs) := compactSubs moved (dest + sev.dataLength) subs
      (data, dest, sev :: subs)

def compactGroups (data : List UInt8) (dest : Nat) :
    List MetaGroup → List UInt8 × Nat × List MetaGroup
  | [] => (data, dest, [])
  | g :: gs =>
    if g.ev.liveSub = 0 then
      let (data, dest, gs) := compactGroups data dest gs
      (data, dest, g :: gs)
    else
      let moved := memmove data dest g.ev.dataOffset g.ev.dataLength
      let ev := { g.ev with dataOffset := dest }
      let (data, dest, subs) := compactSubs moved (dest + ev.dataLength) g.subs
      let (data, dest, gs) := compactGroups data dest gs
      (data, dest, ⟨ev, subs⟩ :: gs)

def StickyStore.compactData (s : StickyStore) : StickyStore :=
  let (data, dest, gs) := compactGroups s.data 0 s.groups
  { s with data := data.take dest, dataRevoked := 0, metas := flatMetas gs }

/-- The loop of `compact_meta`; `dest` is `dest_offset`. -/
def compactMetaGroups (dest : Nat) : List MetaGroup → List MetaGroup
  | [] => []
  | g :: gs =>
    if g.ev.liveSub = 0 then compactMetaGroups dest gs
    else
      let subs := (g.subs.filter (·.isLive)).map fun sev => { sev with evOffset := dest }
      ⟨{ g.ev with numSub := g.ev.liveSub }, subs⟩ ::
        compactMetaGroups (dest + 1 + subs.length) gs

def StickyStore.compactMeta (s : StickyStore) : StickyStore :=
  { s with metas := flatMetas (compactMetaGroups 0 s.groups), metaRevoked := 0 }

def probeDoesNotEnd : String := "endless search in the hash table"

/-- `insert_hash`, of the subevent at `sub_offset` whose data is at `dataOffset`. -/
def StickyStore.insertHash (s : StickyStore) (subOffset dataOffset : Nat) :
    Except String StickyStore :=
  match findFree s.hash (stickySubeventHash (s.data.drop dataOffset)) with
  | none => .error probeDoesNotEnd
  | some entry =>
    .ok { s with hash := s.hash.set entry (.used subOffset), hashUsed := s.hashUsed + 1 }

/-- The live subevents with their offsets, as `populate_hash` comes to them. -/
def liveSubs (offset : Nat) : List MetaGroup → List (Nat × Nat)
  | [] => []
  | g :: gs =>
    let here := if g.ev.liveSub = 0 then [] else
      (g.subs.zipIdx (offset + 1)).filterMap fun (sev, i) => sev.dataOffset.map fun d => (i, d)
    here ++ liveSubs (offset + 1 + g.subs.length) gs

def StickyStore.populateHash (s : StickyStore) : Except String StickyStore :=
  (liveSubs 0 s.groups).foldlM (fun s (sub, d) => s.insertHash sub d)
    { s with hash := List.replicate s.hash.length .empty, hashUsed := 0 }

def growSize (small : Nat → Bool) : Nat → Nat → Nat
  | 0, sz => sz
  | fuel + 1, sz => if small sz then growSize small fuel (sz * 2) else sz

def StickyStore.reserveData (s : StickyStore) (evLen : Nat) : StickyStore :=
  if s.data.length + evLen > s.dataAlloc then
    let s := if s.dataRevoked > s.data.length / 2 then s.compactData else s
    let need := s.data.length + evLen
    { s with dataAlloc := growSize (fun sz => need > sz) need (max s.dataAlloc 1024) }
  else s

/-- Room for the meta entries; the flag is `recalc_hash`. -/
def StickyStore.reserveMeta (s : StickyStore) (metaAdd : Nat) : StickyStore × Bool :=
  if sizeofMetaEntry * s.metas.length + metaAdd > s.metaAlloc then
    let due := decide (s.metaRevoked > sizeofMetaEntry * s.metas.length / 2)
    let s := if due then s.compactMeta else s
    let need := sizeofMetaEntry * s.metas.length + metaAdd
    ({ s with metaAlloc := growSize (fun sz => need > sz) need (max s.metaAlloc 256) }, due)
  else (s, false)

/-- Room in the hash table, half of which stays empty. A larger table is populated anew, so
its old contents do not matter. -/
def StickyStore.reserveHash (s : StickyStore) (hashAdd : Nat) (recalcHash : Bool) :
    Except String StickyStore :=
  let need := s.hashUsed + hashAdd
  let sz := if need > s.hash.length / 2
    then growSize (fun sz => need > sz / 2) need (max s.hash.length 16) else s.hash.length
  let resize := decide (sz > s.hash.length ∨ sz < s.hash.length / 4)
  let s := if resize then { s with hash := List.replicate sz .empty } else s
  if recalcHash || resize then s.populateHash else .ok s

/-- The loop of `insert` that counts the subevents, and adds the leading time stamp subevents
to `ev_raw_data_len`. -/
def countSubevents (raw : List UInt8) : Nat → Nat → Nat → Nat → Except String (Nat × Nat)
  | 0, _, numSev, evRawDataLen => .ok (numSev, evRawDataLen)
  | fuel + 1, off, numSev, evRawDataLen =>
    if off = raw.length then .ok (numSev, evRawDataLen)
    else if off + sizeofSubevent101 > raw.length then
      .error s!"Trying to store sticky event with subevent header overflowing event ({off + sizeofSubevent101 - raw.length} bytes)."
    else
      let bs := raw.drop off
      let next := off + subLength bs
      if next > raw.length then
        .error s!"Trying to store sticky event with subevent payload overflowing event ({next - raw.length} bytes)."
      else if subIsTstamp bs then
        if numSev ≠ 0 then
          .error s!"Trying to store sticky event with tstamp subevent ({subType bs}/{subSubtype bs}) as non-fist subevent."
        else countSubevents raw fuel next numSev (evRawDataLen + subLength bs)
      else countSubevents raw fuel next (numSev + 1) evRawDataLen

/-- Whether the live subevent at `off` has the id of the subevent `bs`. -/
def StickyStore.sameId (s : StickyStore) (bs : List UInt8) (off : Nat) : Bool :=
  match s.metas[off]? with
  | some (.subevent sev) =>
    match sev.dataOffset with
    | some d => subId bs == subId (s.data.drop d)
    | none => false
  | _ => false

/-- The subevent found at hash entry `entry` is superseded. -/
def StickyStore.supersede (s : StickyStore) (entry off : Nat) : StickyStore :=
  match s.metas[off]? with
  | some (.subevent sev) =>
    match s.metas[sev.evOffset]? with
    | some (.event ev) =>
      let last := decide (ev.liveSub - 1 = 0)
      { s with
        metas := (s.metas.set off (.subevent { sev with dataOffset := none })).set sev.evOffset
          (.event { ev with liveSub := ev.liveSub - 1 })
        dataRevoked := s.dataRevoked + sev.dataLength + if last then ev.dataLength else 0
        metaRevoked := s.metaRevoked + sizeofMetaEntry + if last then sizeofMetaEntry else 0
        hash := s.hash.set entry .discarded }
    | _ => s
  | _ => s

/-- A revoke that is not kept: `ev->_num_sub--; ev->_live_sub--;` -/
def StickyStore.uncount (s : StickyStore) (evOffset : Nat) : StickyStore :=
  match s.metas[evOffset]? with
  | some (.event ev) =>
    let ev := { ev with numSub := ev.numSub - 1, liveSub := ev.liveSub - 1 }
    { s with metas := s.metas.set evOffset (.event ev) }
  | _ => s

/-- The end of the search at `entry`: the subevent was known before, or it is a new one. -/
def StickyStore.vacate (s : StickyStore) (entry : Nat) : StickyStore :=
  match s.hash[entry]? with
  | some (.used off) => s.supersede entry off
  | _ => { s with hashUsed := s.hashUsed + 1 }

/-- The part of `insert` that works on the hash table: an older version of the subevent `bs`
is superseded and the entry `dest` is put in. -/
def StickyStore.enterHash (s : StickyStore) (bs : List UInt8) (keep : Bool) (dest : Nat) :
    Except String StickyStore :=
  match findSame s.hash (s.sameId bs) (stickySubeventHash bs) with
  | none => .error probeDoesNotEnd
  | some entry =>
    let s := s.vacate entry
    if keep then
      match findFree s.hash (stickySubeventHash bs) with
      | none => .error probeDoesNotEnd
      | some entry => .ok { s with hash := s.hash.set entry (.used dest) }
    else .ok s

/-- One turn of the second loop of `insert`; the subevent's data is at `dataOffset`. -/
def StickyStore.insertSubevent (s : StickyStore) (discardRevoke : Bool)
    (evOffset dataOffset len : Nat) : Except String StickyStore :=
  let bs := s.data.drop dataOffset
  let keep := !discardRevoke || !subIsRevoke bs
  let dest := s.metas.length
  let s := if keep
    then { s with metas := s.metas ++ [.subevent ⟨evOffset, some dataOffset, len⟩] }
    else s.uncount evOffset
  s.enterHash bs keep dest

def insertSubevents (discardRevoke : Bool) (evOffset evDataOff evLen : Nat) :
    Nat → Nat → StickyStore → Except String StickyStore
  | 0, _, s => .ok s
  | fuel + 1, off, s =>
    if off = evLen then .ok s
    else do
      let len := subLength (s.data.drop (evDataOff + off))
      let s ← s.insertSubevent discardRevoke evOffset (evDataOff + off) len
      insertSubevents discardRevoke evOffset evDataOff evLen fuel (off + len) s

def StickyStore.insert (s : StickyStore) (event : LmdEventOut) (discardRevoke : Bool) :
    Except String StickyStore :=
  let evDataLen := event.getLength
  let evLen := evDataLen + sizeofEventHeader
  let s := s.reserveData evLen
  let evDataOff := s.data.length
  let raw := event.write
  let s := { s with data := s.data ++ raw }
  let evHeader := LmdEventHeader.decode raw
  let evSize := evHeader.lDlen.toNat * 2
  if evSize ≠ evDataLen then
    .error s!"Trying to store sticky event with wrong data size (in header data {evSize} != total data {evLen})."
  else if evSize + sizeofEventHeader < sizeofEvent101 then
    .error s!"Trying to store sticky event with small size ({evSize + sizeofEventHeader} < 1 header)."
  else if !evHeader.isSticky then
    .error s!"Trying to store sticky event with wrong type ({evHeader.iType}/{evHeader.iSubtype})"
  else do
    let (numSev, evRawDataLen) ← countSubevents raw evLen sizeofEvent101 0 sizeofEvent101
    let (s, recalcHash) := s.reserveMeta (sizeofMetaEntry + numSev * sizeofMetaEntry)
    let s ← s.reserveHash numSev recalcHash
    let destEvOffset := s.metas.length
    let s := { s with
      metas := s.metas ++ [.event ⟨evDataOff, evRawDataLen, numSev, numSev⟩] }
    insertSubevents discardRevoke destEvOffset evDataOff evLen evLen evRawDataLen s

/-- The event that `write_events` gives to `write_event`. -/
def StickyStore.replayEvent (s : StickyStore) (g : MetaGroup) : LmdEventOut :=
  let src := s.data.drop g.ev.dataOffset
  let moreLength := g.ev.dataLength - sizeofEvent101
  { header := LmdEventHeader.decode src
    info := LmdEventInfo.decode (src.drop sizeofEventHeader)
    more :=
      (if moreLength = 0 then []
        else [⟨slice src sizeofEvent101 moreLength, false⟩]) ++
      g.subs.filterMap fun sev => sev.dataOffset.map fun d =>
        ⟨slice s.data d sev.dataLength, false⟩ }

def StickyStore.writeEvents (s : StickyStore) : List LmdEventOut :=
  (s.groups.filter (·.ev.liveSub ≠ 0)).map s.replayEvent

end Ucesb
