import Mathlib.Tactic.Ring
import Mathlib.Data.List.Range

namespace Ucesb

def syncInfoOutOfOrderTs : Nat := 0x0001
def syncInfoOutOfOrderRefsTs : Nat := 0x0002
def syncInfoNoEnclosingRefs : Nat := 0x0004
def syncInfoLocalTrigger : Nat := 0x0010
def syncInfoSpurious : Nat := 0x0020
def syncInfoExtra : Nat := 0x0040
def syncInfoNoValue : Nat := 0x0100
def syncInfoNoPeakFit : Nat := 0x0200
def syncInfoOutsidePeak : Nat := 0x0400
def syncInfoAmbiguousPeak : Nat := 0x0800
def syncInfoNoRefPeak : Nat := 0x1000
def syncInfoPeakMismatch : Nat := 0x2000
def syncInfoPeakMatch : Nat := 0x4000

/-- `SYNC_CHECK_REF`, `SYNC_CHECK_RECV` and `SYNC_CHECK_LOCAL`, shifted. -/
def syncCheckRef : Nat := 1
def syncCheckRecv : Nat := 2
def syncCheckLocal : Nat := 4

structure SyncEvent where
  id : Nat
  trigger : Nat
  eventNo : Nat
  timestamp : Nat
  syncCheckFlags : Nat
  syncCheckValue : Nat
deriving DecidableEq

/-- `tstamp_sync_info`, with what comes from the analysis. No peak is -1. -/
structure TstampSyncInfo where
  event : SyncEvent
  flags : Nat
  peak : Int
deriving DecidableEq

/-- The peak for a value, where the fit for an id is good. -/
inductive PeakFit
  | outside
  | ambiguous
  | peak (n : Nat)
deriving DecidableEq

abbrev SyncFit := Nat → Option (Nat → PeakFit)

def findPeak (fit : SyncFit) (x : TstampSyncInfo) : TstampSyncInfo :=
  if x.event.syncCheckFlags &&& (syncCheckRef ||| syncCheckRecv) = 0 then
    ⟨x.event, syncInfoNoValue, -1⟩
  else if 64 ≤ x.event.id then ⟨x.event, syncInfoNoPeakFit, -1⟩
  else
    match fit x.event.id with
    | none => ⟨x.event, syncInfoNoPeakFit, -1⟩
    | some peaks =>
      match peaks x.event.syncCheckValue with
      | .outside => ⟨x.event, syncInfoOutsidePeak, -1⟩
      | .ambiguous => ⟨x.event, syncInfoAmbiguousPeak, -1⟩
      | .peak n => ⟨x.event, 0, n⟩

def TstampSyncInfo.mark (x : TstampSyncInfo) (flag : Nat) : TstampSyncInfo :=
  { x with flags := x.flags ||| flag }

def TstampSyncInfo.isLocal (x : TstampSyncInfo) : Bool :=
  x.event.syncCheckFlags &&& syncCheckLocal != 0

/-- A loop over the items from an index on, until one at which it is left. It returns the items,
the index, and the indices of the items that were treated. -/
def scanItems (stop : TstampSyncInfo → Bool)
    (treat : Nat → List TstampSyncInfo → TstampSyncInfo → TstampSyncInfo) :
    Nat → List TstampSyncInfo → Nat → List TstampSyncInfo × Nat × List Nat
  | 0, list, i => (list, i, [])
  | todo + 1, list, i =>
    match list[i]? with
    | none => (list, i, [])
    | some x =>
      if stop x then (list, i, [])
      else
        ((scanItems stop treat todo (list.set i (treat i list x)) (i + 1)).1,
          (scanItems stop treat todo (list.set i (treat i list x)) (i + 1)).2.1,
          i :: (scanItems stop treat todo (list.set i (treat i list x)) (i + 1)).2.2)

/-- A time that is out of order, or closer to another reference than to the current one. -/
def outOfOrder (beforeCur : Bool) (tPrev tCur tNext t : Nat) : Bool :=
  if beforeCur then t < tPrev || t > tCur || t - tPrev < tCur - t
  else t < tCur || t > tNext || tNext - t < t - tCur

def matchPeak (x : TstampSyncInfo) (refPeak : Int) : TstampSyncInfo :=
  if x.peak = -1 then x
  else if refPeak = -1 then x.mark syncInfoNoRefPeak
  else if x.peak = refPeak then x.mark syncInfoPeakMatch
  else x.mark syncInfoPeakMismatch

/-- The treatment of an item between the midpoints, for the times of the three references. -/
def checkItem (fit : SyncFit) (cur tPrev tCur tNext : Nat) (i : Nat) (list : List TstampSyncInfo)
    (x : TstampSyncInfo) : TstampSyncInfo :=
  if outOfOrder (decide (i < cur)) tPrev tCur tNext x.event.timestamp then
    (findPeak fit x).mark syncInfoOutOfOrderTs
  else if x.isLocal then (findPeak fit x).mark syncInfoLocalTrigger
  else
    -- the reference may be the item itself
    match (list.set i (findPeak fit x))[cur]? with
    | none => findPeak fit x
    | some ref =>
      if ref.isLocal then (findPeak fit x).mark syncInfoSpurious
      else matchPeak (findPeak fit x) ref.peak

/-- The items, the index `i_check`, and the indices treated so far. -/
structure SyncScan where
  list : List TstampSyncInfo
  iCheck : Nat
  treated : List Nat
deriving DecidableEq

def SyncScan.scan (s : SyncScan) (stop : TstampSyncInfo → Bool)
    (treat : Nat → List TstampSyncInfo → TstampSyncInfo → TstampSyncInfo) (limit : Nat) :
    SyncScan where
  list := (scanItems stop treat (limit - s.iCheck) s.list s.iCheck).1
  iCheck := (scanItems stop treat (limit - s.iCheck) s.list s.iCheck).2.1
  treated := s.treated ++ (scanItems stop treat (limit - s.iCheck) s.list s.iCheck).2.2

def TstampSyncInfo.timestampAt (list : List TstampSyncInfo) (i : Nat) : Nat :=
  ((list[i]?).map fun x => x.event.timestamp).getD 0

def analyseTriple (fit : SyncFit) (s : SyncScan) (prev cur next : Nat) : SyncScan :=
  if TstampSyncInfo.timestampAt s.list cur < TstampSyncInfo.timestampAt s.list prev ∨
      TstampSyncInfo.timestampAt s.list next < TstampSyncInfo.timestampAt s.list cur then
    s.scan (fun _ => false) (fun _ _ x => (findPeak fit x).mark syncInfoOutOfOrderRefsTs) next
  else
    (({ s with list := s.list.modify cur (findPeak fit) }.scan
      (fun x => decide (TstampSyncInfo.timestampAt s.list prev +
        (TstampSyncInfo.timestampAt s.list cur - TstampSyncInfo.timestampAt s.list prev) / 2 ≤
          x.event.timestamp))
      (fun _ _ x => (findPeak fit x).mark syncInfoNoEnclosingRefs) next)).scan
      (fun x => decide (TstampSyncInfo.timestampAt s.list cur +
        (TstampSyncInfo.timestampAt s.list next - TstampSyncInfo.timestampAt s.list cur) / 2 <
          x.event.timestamp))
      (checkItem fit cur (TstampSyncInfo.timestampAt s.list prev)
        (TstampSyncInfo.timestampAt s.list cur) (TstampSyncInfo.timestampAt s.list next)) next

def analyseTriples (fit : SyncFit) : SyncScan → List Nat → SyncScan
  | s, prev :: cur :: next :: refs =>
    analyseTriples fit (analyseTriple fit s prev cur next) (cur :: next :: refs)
  | s, _ => s

def refIndices (refId : Nat) (list : List TstampSyncInfo) (stop : Nat) : List Nat :=
  (List.range stop).filter fun i => (list[i]?).any fun x => x.event.id == refId

def analyseValues (refId : Nat) (fit : SyncFit) (list : List TstampSyncInfo)
    (iCheckNext stop atLeast : Nat) : SyncScan :=
  (analyseTriples fit ⟨list, iCheckNext, []⟩ (refIndices refId list stop)).scan (fun _ => false)
    (fun _ _ x => (findPeak fit x).mark syncInfoNoEnclosingRefs) atLeast

/-- The counters, in the order in which the flags are looked at. -/
inductive SyncKind
  | outOfOrderTs
  | outOfOrderRefsTs
  | noAdjacentRefs
  | isLocal
  | spurious
  | extra
  | noScValue
  | noPeakFit
  | outside
  | ambiguous
  | noRefPeak
  | mismatch
  | isMatch
deriving DecidableEq

def syncKinds : List (Nat × SyncKind) :=
  [(syncInfoOutOfOrderTs, .outOfOrderTs), (syncInfoOutOfOrderRefsTs, .outOfOrderRefsTs),
    (syncInfoNoEnclosingRefs, .noAdjacentRefs), (syncInfoLocalTrigger, .isLocal),
    (syncInfoSpurious, .spurious), (syncInfoExtra, .extra), (syncInfoNoValue, .noScValue),
    (syncInfoNoPeakFit, .noPeakFit), (syncInfoOutsidePeak, .outside),
    (syncInfoAmbiguousPeak, .ambiguous), (syncInfoNoRefPeak, .noRefPeak),
    (syncInfoPeakMismatch, .mismatch), (syncInfoPeakMatch, .isMatch)]

def TstampSyncInfo.kind (x : TstampSyncInfo) : Option SyncKind :=
  (syncKinds.find? fun k => x.flags &&& k.1 != 0).map Prod.snd

def countItem (account : Nat → SyncKind → Nat) (x : TstampSyncInfo) : Nat → SyncKind → Nat :=
  fun id kind =>
    if x.event.id < 64 ∧ x.event.id = id ∧ x.kind = some kind then account id kind + 1
    else account id kind

/-- The buffer, what has been written and counted, and as a record of the work the numbers of the
events that have been classified. -/
structure SyncCheck where
  list : List TstampSyncInfo
  iCheckNext : Nat
  iDumpNext : Nat
  account : Nat → SyncKind → Nat
  rounds : Nat
  removed : Nat
  classified : List Nat
  dumped : List TstampSyncInfo

def syncNumAlloc : Nat := 4096

def lastRefBelow (refId : Nat) (list : List TstampSyncInfo) : Nat → Option Nat
  | 0 => none
  | i + 1 =>
    if (list[i]?).any fun x => x.event.id == refId then some i else lastRefBelow refId list i

def midRef (refId : Nat) (list : List TstampSyncInfo) : Nat :=
  ((lastRefBelow refId list list.length).bind (lastRefBelow refId list)).getD 0

def lastRefEnd (refId : Nat) (list : List TstampSyncInfo) : Nat :=
  ((lastRefBelow refId list list.length).map (· + 1)).getD 0

def analyseExtent (refId : Nat) (toEnd : Bool) (list : List TstampSyncInfo) : Nat × Nat :=
  if toEnd then (list.length, list.length)
  else if midRef refId list = 0 then
    (max (lastRefEnd refId list) (list.length / 2), list.length / 2)
  else (lastRefEnd refId list, midRef refId list)

def SyncCheck.analysed (s : SyncCheck) (refId : Nat) (fit : SyncFit) (toEnd : Bool) : SyncScan :=
  analyseValues refId fit s.list s.iCheckNext (analyseExtent refId toEnd s.list).1
    (analyseExtent refId toEnd s.list).2

/-- A subtraction that would wrap around is `none`. -/
def SyncCheck.analyse (s : SyncCheck) (refId : Nat) (fits : Nat → SyncFit) (toEnd : Bool) :
    Option SyncCheck :=
  if (s.analysed refId (fits s.rounds) toEnd).iCheck <
      (analyseExtent refId toEnd s.list).2 then none
  else some {
    list := (s.analysed refId (fits s.rounds) toEnd).list.drop (analyseExtent refId toEnd s.list).2
    iCheckNext := (s.analysed refId (fits s.rounds) toEnd).iCheck -
      (analyseExtent refId toEnd s.list).2
    iDumpNext := (s.analysed refId (fits s.rounds) toEnd).iCheck -
      (analyseExtent refId toEnd s.list).2
    account := (((s.analysed refId (fits s.rounds) toEnd).list.take
      (s.analysed refId (fits s.rounds) toEnd).iCheck).drop s.iCheckNext).foldl countItem s.account
    rounds := s.rounds + 1
    removed := s.removed + (analyseExtent refId toEnd s.list).2
    classified := s.classified ++
      (s.analysed refId (fits s.rounds) toEnd).treated.map (s.removed + ·)
    dumped := s.dumped ++ ((s.analysed refId (fits s.rounds) toEnd).list.take
      (s.analysed refId (fits s.rounds) toEnd).iCheck).drop s.iDumpNext }

/-- A failed assertion is `none`. -/
def SyncCheck.accountEvent (refId : Nat) (fits : Nat → SyncFit) (s : SyncCheck) (e : SyncEvent) :
    Option SyncCheck :=
  (if syncNumAlloc ≤ s.list.length then s.analyse refId fits false else some s).bind fun s =>
    if s.list.length < syncNumAlloc then some { s with list := s.list ++ [⟨e, 0, 0⟩] } else none

def SyncCheck.accountAll (refId : Nat) (fits : Nat → SyncFit) :
    SyncCheck → List SyncEvent → Option SyncCheck
  | s, [] => some s
  | s, e :: events => (s.accountEvent refId fits e).bind fun s => accountAll refId fits s events

end Ucesb
