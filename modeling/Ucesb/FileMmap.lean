import Mathlib.Data.List.Induction
import Ucesb.Pieces

namespace Ucesb

def mmapSize : Int := 0x00800000

def mmapReadAhead : Int := 0x00200000

def mmapEndsEnd : Int := 2 ^ 62

inductive FileKind
  | regular
  | character
  | other
deriving DecidableEq

/-- What `fstat` tells of the file, and what is mapped of it. -/
structure MmapFile where
  kind : FileKind
  bytes : List UInt8

def MmapFile.isReg (file : MmapFile) : Bool := file.kind == .regular

def MmapFile.isChr (file : MmapFile) : Bool := file.kind == .character

/-- `file_mmap_chunk`: the bytes of the file from `start` to `stop` at `_base`. -/
structure MmapChunk where
  start : Int
  stop : Int
deriving DecidableEq

/-- A `buf_chunk`: `length` bytes at `offset` from the `_base` of a mapping. -/
structure FileRange where
  chunk : MmapChunk
  offset : Int
  length : Int

def FileRange.Inside (r : FileRange) : Prop :=
  0 ≤ r.offset ∧ 0 ≤ r.length ∧ r.offset + r.length ≤ r.chunk.stop - r.chunk.start

def FileRange.content (file : MmapFile) (r : FileRange) : List UInt8 :=
  slice file.bytes (r.chunk.start + r.offset).toNat r.length.toNat

structure FileMmap where
  avail : Int
  done : Int
  front : Int
  back : Int
  lastHasEof : Bool
  chunks : List MmapChunk
deriving DecidableEq

def FileMmap.init : FileMmap := ⟨0, 0, 0, 0, false, []⟩

/-- How `map_range` ends without a result: `munmap` of `_ends`, or an assertion. -/
inductive MmapStop
  | munmap
  | assertion
deriving DecidableEq

namespace FileMmap

/-- The mappings and `_back` when the released ones are gone. -/
def unmapReleased (done : Int) : List MmapChunk → Int → Except MmapStop (List MmapChunk × Int)
  | [], back => if mmapEndsEnd ≤ done then .error .munmap else .ok ([], back)
  | first :: chunks, back =>
    if first.stop ≤ done then
      unmapReleased done chunks (match chunks with | [] => first.stop | next :: _ => next.start)
    else .ok (first :: chunks, back)

/-- A further mapping, if data has to be mapped.  There is no result when `map_range` gives up. -/
def mapData (s : FileMmap) (pageSize : Nat) (file : MmapFile) (start stop : Int) :
    Option FileMmap :=
  if s.avail < stop + mmapReadAhead ∧ s.lastHasEof = false then
    if !file.isReg || !file.isChr then none
    else
      let offset :=
        match s.chunks.getLast? with
        | some last => last.stop
        | none => start - start % pageSize
      let hasEof := decide ((file.bytes.length : Int) ≤ offset + mmapSize)
      let length := if hasEof then file.bytes.length - offset else mmapSize
      some { s with
        avail := offset + length
        lastHasEof := hasEof
        chunks := s.chunks ++ [⟨offset, offset + length⟩] }
  else some s

/-- The mapping that has the start, searched from the last one, and the one after it. -/
def findChunk (start : Int) (next : Option MmapChunk) :
    List MmapChunk → Except MmapStop (MmapChunk × Option MmapChunk)
  | [] => .error .assertion
  | item :: earlier =>
    if start < item.start then findChunk start (some item) earlier else .ok (item, next)

def locateRange (chunks : List MmapChunk) (start stop : Int) :
    Except MmapStop (List FileRange) := do
  let (item, next) ← findChunk start none chunks.reverse
  if stop ≤ item.stop then pure [⟨item, start - item.start, stop - start⟩]
  else
    match next with
    | none => .error .assertion
    | some next =>
      pure [⟨item, start - item.start, item.stop - start⟩, ⟨next, 0, stop - item.stop⟩]

/-- `map_range`.  No ranges are the result 0. -/
def mapRange (s : FileMmap) (pageSize : Nat) (file : MmapFile) (start stop : Int) :
    Except MmapStop (List FileRange × FileMmap) := do
  let (chunks, back) ← unmapReleased s.done s.chunks s.back
  let s := { s with chunks, back }
  match s.mapData pageSize file start stop with
  | none => pure ([], s)
  | some s =>
    if s.avail < stop then pure ([], s)
    else if start < s.done then .error .assertion
    else do
      let ranges ← locateRange s.chunks start stop
      pure (ranges, { s with front := stop })

def releaseTo (s : FileMmap) (stop : Int) : FileMmap := { s with done := stop }

end FileMmap

inductive MmapAct
  | mapRange (start stop : Nat)
  | releaseTo (stop : Nat)

def MmapAct.run (pageSize : Nat) (file : MmapFile) (s : FileMmap) :
    MmapAct → Except MmapStop FileMmap
  | .mapRange start stop => (s.mapRange pageSize file start stop).map (·.2)
  | .releaseTo stop => .ok (s.releaseTo stop)

/-- A request gives the bytes of the file, and 0 only beyond its end.  What is not released stays
mapped and no assertion fails. -/
structure RangeMapped (file : MmapFile) (s : FileMmap) (start stop : Nat)
    (outcome : Except MmapStop (List FileRange × FileMmap)) : Prop where
  exact : stop ≤ file.bytes.length → ∃ ranges s', outcome = .ok (ranges, s') ∧
    (ranges.length = 1 ∨ ranges.length = 2) ∧ (∀ r ∈ ranges, r.Inside) ∧
      ranges.flatMap (FileRange.content file) = slice file.bytes start (stop - start)
  zero : ∀ s', outcome = .ok ([], s') → file.bytes.length < stop
  kept : ∀ ranges s', outcome = .ok (ranges, s') → ∀ c ∈ s.chunks, c ∈ s'.chunks ∨ c.stop ≤ s.done
  asserts : outcome ≠ .error .assertion

structure Unmapped (s : FileMmap) : Prop where
  avail : s.avail = 0
  lastHasEof : s.lastHasEof = false
  chunks : s.chunks = []

theorem mapData_regular {s : FileMmap} (h : Unmapped s) {pageSize : Nat} {file : MmapFile}
    (hfile : file.kind = .regular) (start stop : Nat) :
    s.mapData pageSize file start stop = none := by
  have hchr : file.isChr = false := by rw [MmapFile.isChr, hfile]; rfl
  have havail : s.avail < (stop : Int) + mmapReadAhead := by
    rw [h.avail, mmapReadAhead]
    omega
  rw [FileMmap.mapData, if_pos ⟨havail, h.lastHasEof⟩, hchr, Bool.not_false, Bool.or_true]
  rfl

theorem mapRange_regular {s : FileMmap} (h : Unmapped s) {pageSize : Nat} {file : MmapFile}
    (hfile : file.kind = .regular) (start stop : Nat) :
    s.mapRange pageSize file start stop = .ok ([], s) ∨
      s.mapRange pageSize file start stop = .error .munmap := by
  obtain ⟨avail, done, front, back, lastHasEof, chunks⟩ := s
  obtain rfl : chunks = [] := h.chunks
  rw [FileMmap.mapRange, FileMmap.unmapReleased]
  split_ifs
  · exact .inr rfl
  · simp only [bind, Except.bind, mapData_regular h hfile]
    exact .inl rfl

theorem run_regular {pageSize : Nat} {file : MmapFile} (hfile : file.kind = .regular)
    {acts : List MmapAct} {s : FileMmap}
    (h : acts.foldlM (MmapAct.run pageSize file) FileMmap.init = .ok s) : Unmapped s := by
  have hrun : ∀ (acts : List MmapAct) (s s' : FileMmap), Unmapped s →
      acts.foldlM (MmapAct.run pageSize file) s = .ok s' → Unmapped s' := by
    intro acts
    induction acts with
    | nil =>
      intro s s' hs hr
      exact Except.ok.inj hr ▸ hs
    | cons act acts ih =>
      intro s s' hs hr
      rw [List.foldlM_cons] at hr
      cases act with
      | mapRange start stop =>
        rcases @mapRange_regular _ hs pageSize _ hfile start stop with hok | herr
        · refine ih s s' hs ?_
          rwa [MmapAct.run, hok] at hr
        · rw [MmapAct.run, herr] at hr
          exact nomatch hr
      | releaseTo stop => exact ih (s.releaseTo stop) s' ⟨hs.avail, hs.lastHasEof, hs.chunks⟩ hr
  exact hrun acts FileMmap.init s ⟨rfl, rfl, rfl⟩ h

/-- After any requests and releases, a request to a regular file is answered as it should only if
it goes beyond the end of the file: nothing is ever mapped. -/
theorem map_range_iff (pageSize : Nat) {file : MmapFile} (hfile : file.kind = .regular)
    {acts : List MmapAct} {s : FileMmap}
    (h : acts.foldlM (MmapAct.run pageSize file) FileMmap.init = .ok s) (start stop : Nat) :
    RangeMapped file s start stop (s.mapRange pageSize file start stop) ↔
      file.bytes.length < stop := by
  have hs := run_regular hfile h
  constructor
  · intro hright
    by_contra hin
    obtain ⟨ranges, s', hok, hlen, -⟩ := hright.exact (not_lt.mp hin)
    rcases @mapRange_regular _ hs pageSize _ hfile start stop with h0 | h0
    · obtain ⟨rfl, rfl⟩ := Prod.mk.inj (Except.ok.inj (h0.symm.trans hok))
      simp at hlen
    · exact nomatch h0.symm.trans hok
  · intro hbeyond
    refine ⟨fun hin => absurd hin (not_le.mpr hbeyond), fun _ _ => hbeyond,
      fun ranges s' _ c hc => ?_, fun hassert => ?_⟩
    · rw [hs.chunks] at hc
      exact absurd hc (List.not_mem_nil)
    · rcases @mapRange_regular _ hs pageSize _ hfile start stop with h0 | h0
      · exact nomatch h0.symm.trans hassert
      · exact nomatch h0.symm.trans hassert

def shortFile : MmapFile := ⟨.regular, [7, 8, 9]⟩

/-- After two requests and a release. -/
theorem map_range_later : ∃ s : FileMmap,
    [.mapRange 0 1, .releaseTo 1, .mapRange 1 2].foldlM (MmapAct.run 4096 shortFile)
        FileMmap.init = .ok s ∧
      RangeMapped shortFile s 1 4 (s.mapRange 4096 shortFile (1 : Nat) (4 : Nat)) ∧
      ¬RangeMapped shortFile s 1 2 (s.mapRange 4096 shortFile (1 : Nat) (2 : Nat)) := by
  have hrun : [.mapRange 0 1, .releaseTo 1, .mapRange 1 2].foldlM (MmapAct.run 4096 shortFile)
      FileMmap.init = .ok (FileMmap.init.releaseTo 1) := rfl
  refine ⟨_, hrun, (map_range_iff 4096 rfl hrun 1 4).mpr (by decide), fun h => ?_⟩
  exact absurd ((map_range_iff 4096 rfl hrun 1 2).mp h) (by decide)

theorem map_range_fails :
    ¬RangeMapped ⟨.regular, [7]⟩ FileMmap.init 0 1
      (FileMmap.init.mapRange 4096 ⟨.regular, [7]⟩ (0 : Nat) (1 : Nat)) :=
  fun h => absurd (h.zero FileMmap.init rfl) (by decide)

end Ucesb
