import Mathlib.Data.List.Sort
import Ucesb.CwnItems
import Ucesb.KWayMerge

namespace Ucesb

def externalWriterMarkCanaryMask : Nat := 0x00ff0000
def externalWriterMarkTsLo : Nat := 0x00000100
def externalWriterMarkTsHi : Nat := 0x00000200
def externalWriterMarkTsSrcid : Nat := 0x00000400
def externalWriterMarkMrgStat : Nat := 0x00001000
def externalWriterMarkMultNon0 : Nat := 0x00002000
def externalWriterMarkMrgMask : Nat := 0x00004000
/-- `TS_LO`, `TS_HI`, `TS_SRCID`, `MEVENTNO`, `MRG_STAT` and `MRG_MASK`. -/
def externalWriterMarkMergeInfo : Nat := 0x00005f00

def extFileMergeMultipleIvalue : Nat := 0x04
def extFileMergeMultipleFvalue : Nat := 0x08
def extFileMergeArrayOverflow : Nat := 0x10
def extFileMergeArrayMindexOverflow : Nat := 0x20

/-- An entry of the list. A loop has its `max_loops` and `loop_size`, and its items with mark and
offset. -/
structure PackMark where
  mark : Nat
  offset : Nat
  loop : Option (Nat × Nat)
  items : List (Nat × Nat)
deriving DecidableEq

def itemMarks : Nat → List Nat → Option (List (Nat × Nat))
  | 0, _ => some []
  | n + 1, mark :: offset :: o => (itemMarks n o).map ((mark, offset) :: ·)
  | _, _ => none

/-- The entries as they are come to. The loops are counted with an `int`. -/
def packMarksFrom : Nat → List Nat → Option (List PackMark)
  | _, [] => some []
  | fuel + 1, mark :: offset :: o =>
    if mark &&& externalWriterMarkLoop = 0 then
      (packMarksFrom fuel o).map (⟨mark, offset, none, []⟩ :: ·)
    else
      match o with
      | maxLoops :: loopSize :: o =>
        if maxLoops < 2 ^ 31 then do
          let items ← itemMarks (maxLoops * loopSize) o
          let marks ← packMarksFrom fuel (o.drop (2 * (maxLoops * loopSize)))
          some (⟨mark, offset, some (maxLoops, loopSize), items⟩ :: marks)
        else none
      | _ => none
  | _, _ => none

def PackMark.isInd1 (m : PackMark) : Bool := m.mark &&& externalWriterMarkArrayInd1 != 0

def PackMark.isMind (m : PackMark) : Bool := m.mark &&& externalWriterMarkArrayMind != 0

def PackMark.hasMergeInfo (m : PackMark) : Bool := m.mark &&& externalWriterMarkMergeInfo != 0

def offsetOk (stageLength offset : Nat) : Bool := decide (offset < stageLength) && offset &&& 3 == 0

/-- An item that is number `i` of its turn of the loop. -/
def PackMark.checkItem (m : PackMark) (stageLength i : Nat) (item : Nat × Nat) : Bool :=
  offsetOk stageLength item.2 &&
  item.1 &&& externalWriterMarkLoop == 0 &&
  (item.1 &&& externalWriterMarkItemIndex == 0 || i == 0) &&
  (item.1 &&& externalWriterMarkItemEndnum == 0 || i == 1) &&
  !((m.isInd1 || m.isMind) && i == 0 && item.1 &&& externalWriterMarkItemIndex == 0) &&
  !(m.isMind && i == 1 && item.1 &&& externalWriterMarkItemEndnum == 0)

def PackMark.checkLoop (m : PackMark) (stageLength loopSize : Nat) : Bool :=
  m.mark &&& (externalWriterMarkItemIndex ||| externalWriterMarkItemEndnum) == 0 &&
  m.mark &&& externalWriterMarkClearZero != 0 &&
  (!m.isMind || loopSize == 2) &&
  m.items.zipIdx.all fun x => m.checkItem stageLength (x.2 % loopSize) x.1

def checkMarks (stageLength : Nat) : Bool → Bool → List PackMark → Bool
  | _, expectMindLoop2, [] => !expectMindLoop2
  | hadLoop, expectMindLoop2, m :: marks =>
    m.mark &&& externalWriterMarkCanaryMask == externalWriterMarkCanary &&
    offsetOk stageLength m.offset &&
    !(m.hasMergeInfo && hadLoop) &&
    match m.loop with
    | none =>
      !m.isInd1 && !m.isMind && !expectMindLoop2 && checkMarks stageLength hadLoop false marks
    | some (_, loopSize) =>
      m.checkLoop stageLength loopSize && checkMarks stageLength true m.isMind marks

def checkStage (stageLength : Nat) (marks : List PackMark) : Bool :=
  (List.range ((stageLength + 3) / 4)).all fun k =>
    (marks.flatMap fun m => m.offset :: m.items.map Prod.snd).count (4 * k) == 1

def markOffset (bit : Nat) : List PackMark → Option Nat
  | [] => none
  | m :: marks =>
    match markOffset bit marks with
    | some p => some (p + 1)
    | none => if m.mark &&& bit = 0 then none else some 0

structure OffsetArray where
  marks : List PackMark
  poffsetMrgStat : Option Nat
  poffsetMrgMask : Option Nat
deriving DecidableEq

def checkMergeOffsets (tsMergeWindow : Nat) (marks : List PackMark) : Bool :=
  tsMergeWindow == 0 ||
    (markOffset externalWriterMarkTsLo marks).isSome &&
    (markOffset externalWriterMarkTsHi marks).isSome &&
    (markOffset externalWriterMarkTsSrcid marks).isSome

/-- The list comes in a message, the length of which has 32 bits. The checksum of the structure is
left out. -/
def requestArrayOffsets (stageLength tsMergeWindow : Nat) (list : List Nat) : Option OffsetArray :=
  if list.length < 2 ^ 30 then
    (packMarksFrom list.length list).bind fun marks =>
      if checkMarks stageLength false false marks && checkStage stageLength marks &&
          checkMergeOffsets tsMergeWindow marks then
        some ⟨marks, markOffset externalWriterMarkMrgStat marks,
          markOffset externalWriterMarkMrgMask marks⟩
      else none
  else none

/-- The walk of `request_ntuple_fill` over an event; `extra` is what there is beyond the static
items and the loops that were checked. -/
def fillFrom : List PackMark → List Nat → Nat → Bool
  | [], p, _ => p == []
  | _ :: _, [], _ => false
  | m :: marks, value :: p, extra =>
    match m.loop with
    | none => fillFrom marks p extra
    | some (maxLoops, loopSize) =>
      decide (value ≤ maxLoops) && decide (value * loopSize % 2 ^ 32 ≤ extra) &&
        fillFrom marks (p.drop (value * loopSize % 2 ^ 32)) (extra - value * loopSize % 2 ^ 32)

def OffsetArray.ntupleFill (oa : OffsetArray) (words : List Nat) : Bool :=
  decide (oa.marks.length ≤ words.length) &&
    fillFrom oa.marks words (words.length - oa.marks.length)

/-- `*(incl->_p++)` for each source. -/
def nextWords : List (List Nat) → Option (List Nat × List (List Nat))
  | [] => some ([], [])
  | [] :: _ => none
  | (w :: ws) :: sources => (nextWords sources).map fun r => (w :: r.1, ws :: r.2)

/-- A value that does not count: 0 or, of a floating point item, one that is no number. -/
def emptyValue (mark value : Nat) : Bool :=
  if mark &&& externalWriterMarkClearZero = 0 then value &&& 0x7f800000 == 0x7f800000
  else value == 0

def itemValue (mark : Nat) : List Nat → Nat
  | [] => 0
  | [v] => v
  | v :: vs => if emptyValue mark v then itemValue mark vs else v

def itemFlags (mark : Nat) (values : List Nat) : Nat :=
  if ((values.dropWhile (emptyValue mark)).drop 1).any (fun v => !emptyValue mark v) &&
      (mark &&& externalWriterMarkMultNon0 == 0) then
    if mark &&& externalWriterMarkClearZero = 0 then extFileMergeMultipleFvalue
    else extFileMergeMultipleIvalue
  else 0

def loopsToUse (maxLoops loops val : Nat) : Nat :=
  if maxLoops < (loops + val) % 2 ^ 32 then maxLoops - loops else val

structure ArrayMerge where
  loops : Nat
  words : List Nat
  sources : List (List Nat)
  overflow : Bool
deriving DecidableEq

/-- `ext_merge_array`, from a source on. -/
def mergeArrayFrom (maxLoops loopSize : Nat) : Nat → List (List Nat) → Option ArrayMerge
  | loops, [] => some ⟨loops, [], [], false⟩
  | _, [] :: _ => none
  | loops, (val :: ws) :: sources =>
    if ws.length < loopsToUse maxLoops loops val * loopSize % 2 ^ 32 +
        (val - loopsToUse maxLoops loops val) * loopSize % 2 ^ 32 then none
    else
      (mergeArrayFrom maxLoops loopSize ((loops + loopsToUse maxLoops loops val) % 2 ^ 32)
        sources).map fun r =>
          ⟨r.loops,
            ws.take (loopsToUse maxLoops loops val * loopSize % 2 ^ 32) ++ r.words,
            ws.drop (loopsToUse maxLoops loops val * loopSize % 2 ^ 32 +
              (val - loopsToUse maxLoops loops val) * loopSize % 2 ^ 32) :: r.sources,
            decide (maxLoops < (loops + val) % 2 ^ 32) || r.overflow⟩

/-- `multi_array_index_item`, without the source. -/
structure MultiItem where
  index : Nat
  endnum : Nat
  items : Nat
  indicesLeft : Nat
deriving DecidableEq

/-- A source with its item in the heap, if it has one. The heap gives the item with the smallest
index, and of those the one of the first source. -/
structure MultiSource where
  words : List Nat
  pending : Option MultiItem
deriving DecidableEq

def MultiSource.key (src : MultiSource) : Option Nat := src.pending.map MultiItem.index

def firstIndices : List (List Nat) → Option (List MultiSource × Nat)
  | [] => some ([], 0)
  | [] :: _ => none
  | (indices :: ws) :: sources =>
    if indices = 0 then (firstIndices sources).map fun r => (⟨ws, none⟩ :: r.1, r.2)
    else
      match ws with
      | index :: endnum :: ws => (firstIndices sources).map fun r =>
          (⟨ws, some ⟨index, endnum, endnum, indices - 1⟩⟩ :: r.1, indices + r.2)
      | _ => none

/-- What has been written, from the control item of the first loop on, and what is to be copied:
so many items of a source. -/
structure MultiMerge where
  sources : List MultiSource
  words : List Nat
  loops : Nat
  curIndex : Nat
  curEnd : Nat
  plan : List (Nat × Nat)
  overflow : Bool
deriving DecidableEq

/-- An item goes to the current index, or to a new one. Its end number is written over the last
word. -/
def MultiMerge.put (st : MultiMerge) (dataMaxLoops s : Nat) (item : MultiItem) : MultiMerge where
  sources := st.sources
  words := (if item.index = st.curIndex then st.words
    else st.words ++ [item.index, st.curEnd]).dropLast ++
      [(st.curEnd + loopsToUse dataMaxLoops st.curEnd item.items) % 2 ^ 32]
  loops := if item.index = st.curIndex then st.loops else (st.loops + 1) % 2 ^ 32
  curIndex := item.index
  curEnd := (st.curEnd + loopsToUse dataMaxLoops st.curEnd item.items) % 2 ^ 32
  plan := st.plan ++ [(s, loopsToUse dataMaxLoops st.curEnd item.items)]
  overflow := st.overflow

def mergeIndices (dataMaxLoops : Nat) : Nat → MultiMerge → Option MultiMerge
  | 0, _ => none
  | fuel + 1, st =>
    match leastPos (st.sources.map MultiSource.key) with
    | none => some st
    | some s =>
      match st.sources[s]? with
      | some ⟨words, some item⟩ =>
        if loopsToUse dataMaxLoops st.curEnd item.items < item.items then
          some { st.put dataMaxLoops s item with
            sources := st.sources.set s ⟨words, some { item with
              items := item.items - loopsToUse dataMaxLoops st.curEnd item.items }⟩
            overflow := true }
        else if item.indicesLeft = 0 then
          mergeIndices dataMaxLoops fuel { st.put dataMaxLoops s item with
            sources := st.sources.set s ⟨words, none⟩ }
        else
          match words with
          | index :: endnum :: words =>
            mergeIndices dataMaxLoops fuel { st.put dataMaxLoops s item with
              sources := st.sources.set s ⟨words, some ⟨index, endnum,
                (endnum + 2 ^ 32 - item.endnum) % 2 ^ 32, item.indicesLeft - 1⟩⟩ }
          | _ => none
      | _ => none

def restItems : Nat → Nat → Nat → List Nat → Option (Nat × List Nat)
  | 0, _, items, words => some (items, words)
  | left + 1, prevEndnum, items, _ :: endnum :: words =>
    restItems left endnum ((items + (endnum + 2 ^ 32 - prevEndnum) % 2 ^ 32) % 2 ^ 32) words
  | _, _, _, _ => none

/-- What is left in the heap is to be skipped. A source is there at most once, so that the order is
of no importance. -/
def skipPlan : List MultiSource → Option (List (Nat × List Nat))
  | [] => some []
  | ⟨words, none⟩ :: sources => (skipPlan sources).map ((0, words) :: ·)
  | ⟨words, some item⟩ :: sources =>
    (restItems item.indicesLeft item.endnum item.items words).bind fun r =>
      (skipPlan sources).map (r :: ·)

def copyPlan (loopSize : Nat) : List (Nat × Nat) → List (List Nat) →
    Option (List Nat × List (List Nat))
  | [], sources => some ([], sources)
  | (s, items) :: plan, sources =>
    match sources[s]? with
    | none => none
    | some ws =>
      if ws.length < items * loopSize % 2 ^ 32 then none
      else (copyPlan loopSize plan (sources.set s (ws.drop (items * loopSize % 2 ^ 32)))).map
        fun r => (ws.take (items * loopSize % 2 ^ 32) ++ r.1, r.2)

def skipItems (loopSize : Nat) : List (Nat × List Nat) → List (List Nat) → Option (List (List Nat))
  | (items, _) :: skips, ws :: sources =>
    if ws.length < items * loopSize % 2 ^ 32 then none
    else (skipItems loopSize skips sources).map (ws.drop (items * loopSize % 2 ^ 32) :: ·)
  | _, _ => some []

structure MultiMerged where
  words : List Nat
  sources : List (List Nat)
  overflow : Bool
deriving DecidableEq

def multiStart (sources : List MultiSource) : MultiMerge where
  sources := sources
  words := [0]
  loops := 0
  curIndex := 2 ^ 32 - 1
  curEnd := 0
  plan := []
  overflow := false

/-- `ext_merge_multi_array`. There is space for one copy more than there are indices. -/
def mergeMultiArray (dataMaxLoops dataLoopSize : Nat) (sources : List (List Nat)) :
    Option MultiMerged := do
  let (first, totIndices) ← firstIndices sources
  let st ← mergeIndices dataMaxLoops (totIndices + 1) (multiStart first)
  let skips ← skipPlan st.sources
  if (totIndices + 1) % 2 ^ 32 <
      st.plan.length + st.sources.countP (fun src => src.pending.isSome) then none
  else
    let (_, sources) ← nextWords (skips.map Prod.snd)
    let (data, sources) ← copyPlan dataLoopSize st.plan sources
    let sources ← skipItems dataLoopSize skips sources
    some ⟨st.words.set 0 st.loops ++ (st.curEnd :: data), sources, st.overflow⟩

structure MergeState where
  sources : List (List Nat)
  words : List Nat
  flags : Nat
deriving DecidableEq

def MergeState.item (st : MergeState) (mark : Nat) : Option MergeState :=
  if st.sources = [] then none
  else
    (nextWords st.sources).map fun r =>
      ⟨r.2, st.words ++ [itemValue mark r.1], st.flags ||| itemFlags mark r.1⟩

def MergeState.array (st : MergeState) (maxLoops loopSize : Nat) : Option MergeState :=
  (mergeArrayFrom maxLoops loopSize 0 st.sources).map fun r =>
    ⟨r.sources, st.words ++ (r.loops :: r.words),
      st.flags ||| if r.overflow then extFileMergeArrayOverflow else 0⟩

def MergeState.multiArray (st : MergeState) (dataMaxLoops dataLoopSize : Nat) : Option MergeState :=
  (mergeMultiArray dataMaxLoops dataLoopSize st.sources).map fun r =>
    ⟨r.sources, st.words ++ r.words,
      st.flags ||| if r.overflow then extFileMergeArrayMindexOverflow else 0⟩

/-- After the first loop of a multi-index array comes the one with the data. -/
def mergeMarks : List PackMark → MergeState → Option MergeState
  | [], st => some st
  | m :: marks, st =>
    match m.loop with
    | none => (st.item m.mark).bind (mergeMarks marks)
    | some (maxLoops, loopSize) =>
      if m.isMind then
        match marks with
        | ⟨_, _, some (dataMaxLoops, dataLoopSize), _⟩ :: marks =>
          (st.multiArray dataMaxLoops dataLoopSize).bind (mergeMarks marks)
        | _ => none
      else (st.array maxLoops loopSize).bind (mergeMarks marks)

def setWordAt (words : List Nat) (p : Option Nat) (value : Nat) : List Nat :=
  match p with
  | none => words
  | some p => words.set p value

/-- `ext_merge_do_merge`, for the flags and the mask of sources so far. It gives the event and the
flags. -/
def extMergeDoMerge (oa : OffsetArray) (sources : List (List Nat)) (flags srcidMask : Nat) :
    Option (List Nat × Nat) :=
  (mergeMarks oa.marks ⟨sources, [], flags⟩).bind fun st =>
    if st.sources.all (· == []) then
      some (setWordAt (setWordAt st.words oa.poffsetMrgStat st.flags) oa.poffsetMrgMask srcidMask,
        st.flags)
    else none

end Ucesb
