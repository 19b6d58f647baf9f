import Ucesb.NodeRoundTrip

namespace Ucesb

def visitVect (items : List VectItem) : List NodeVisit :=
  .vect items.length :: items.map .item

def visitLine (line : TableLine) : List NodeVisit := .line line.varName :: line.items.map .item

def visitTable (table : TdcpmNodeTable) : List NodeVisit :=
  .table table.columns table.lines.length (table.header ≠ []) (table.units ≠ []) ::
    (table.header.map .header ++ table.units.map .unit ++ table.lines.flatMap visitLine)

mutual

def visitNode : TdcpmNode → List NodeVisit
  | .vect name items => .name name :: visitVect items
  | .table name table => .name name :: visitTable table
  | .subNode name nodes => .name name :: .subNode :: .nodes nodes.length :: visitList nodes
  | .valid start stop nodes => .valid start stop :: .nodes nodes.length :: visitList nodes

def visitList : List TdcpmNode → List NodeVisit
  | [] => []
  | node :: nodes => visitNode node ++ visitList nodes

end

def visitNodes (nodes : List TdcpmNode) : List NodeVisit := .nodes nodes.length :: visitList nodes

mutual

def TdcpmNode.depth : TdcpmNode → Nat
  | .vect _ _ => 0
  | .table _ _ => 0
  | .subNode _ nodes => listDepth nodes + 1
  | .valid _ _ nodes => listDepth nodes + 1

def listDepth : List TdcpmNode → Nat
  | [] => 0
  | node :: nodes => max node.depth (listDepth nodes)

end

theorem visitList_eq (nodes : List TdcpmNode) : visitList nodes = nodes.flatMap visitNode := by
  induction nodes with
  | nil => rfl
  | cons node nodes ih => rw [visitList, ih, List.flatMap_cons]

theorem depth_le_listDepth {node : TdcpmNode} {nodes : List TdcpmNode} (h : node ∈ nodes) :
    node.depth ≤ listDepth nodes := by
  induction nodes with
  | nil => cases h
  | cons n ns ih =>
    rw [listDepth]
    rcases List.mem_cons.mp h with rfl | h
    · exact Nat.le_max_left _ _
    · exact Nat.le_trans (ih h) (Nat.le_max_right _ _)

theorem allFit_iff {nodes : List TdcpmNode} : AllFit nodes ↔ ∀ node ∈ nodes, node.Fits := by
  induction nodes with
  | nil => simp [AllFit]
  | cons n ns ih => simp [AllFit, ih]

section Parts

variable {stop : NodeReadError → Prop}

theorem join_words (x : UInt64) :
    ((x >>> 32).toUInt32.toUInt64 <<< 32) ||| x.toUInt32.toUInt64 = x := by
  apply UInt64.toNat_inj.mp
  have hx := x.toNat_lt
  have hlo : x.toNat % 2 ^ 32 < 2 ^ 32 := Nat.mod_lt _ (by decide)
  have hhi : x.toNat / 2 ^ 32 < 2 ^ 32 := by omega
  have hshift : UInt64.toNat 32 % 64 = 32 := rfl
  simp only [UInt64.toNat_or, UInt64.toNat_shiftLeft, UInt32.toNat_toUInt64, UInt64.toNat_toUInt32,
    UInt64.toNat_shiftRight, hshift]
  rw [Nat.shiftRight_eq_div_pow, Nat.mod_eq_of_lt hhi]
  have hsmall : (x.toNat / 2 ^ 32) <<< 32 < 2 ^ 64 := by
    rw [Nat.shiftLeft_eq]
    omega
  rw [Nat.mod_eq_of_lt hsmall, ← Nat.shiftLeft_add_eq_or_of_lt hlo, Nat.shiftLeft_eq]
  omega

theorem readsTo_uint64 (x : UInt64) :
    ReadsTo stop deserializeUInt64 (serializeUInt64 x) (· = x) := by
  refine readsTo_bind_word _ _ (readsTo_bind_word _ _ (readsTo_pure ?_))
  exact join_words x

theorem readsTo_item (item : VectItem) :
    ReadsTo stop deserializeItem (serializeItem item) (· = item) := by
  refine (readsTo_uint64 item.value).bind_eq ?_
  exact readsTo_bind_word _ _ (readsTo_bind_word _ _ (readsTo_pure rfl))

theorem toNat_ofNat_lt {n : Nat} (h : n < 2 ^ 32) : (UInt32.ofNat n).toNat = n := by
  simpa using h

theorem readsTo_words (ws : List UInt32) :
    ReadsTo stop (readLoop deserializeUInt32 ws.length) ws (· = ws) := by
  have hloop := @readsTo_loop_map NodeReadError UInt32 UInt32 stop deserializeUInt32
    (fun w => [w]) id ws fun w _ => readsTo_word _ w
  rw [List.flatMap_singleton', List.map_id] at hloop
  exact hloop

theorem readsTo_varName {name : TdcpmVarName} (h : NameFits name) :
    ReadsTo stop tdcpmDumpVarName (tdcpmSerializeVarName name) (· = name) := by
  unfold NameFits at h
  refine readsTo_bind_word _ _ ?_
  rw [toNat_ofNat_lt (by omega)]
  exact readsTo_words name

theorem readsTo_tableUnit (unit : TableUnit) :
    ReadsTo stop deserializeTableUnit (serializeTableUnit unit) (· = unit) := by
  refine (readsTo_uint64 unit.value).bind_eq ?_
  exact readsTo_bind_word _ _ (readsTo_pure rfl)

theorem tableFlags_names (table : TdcpmNodeTable) :
    ((tableFlags table >>> 1) &&& 1 ≠ 0 ↔ table.header ≠ []) ∧
      (tableFlags table &&& 1 ≠ 0 ↔ table.units ≠ []) := by
  unfold tableFlags
  dsimp only
  split <;> split <;> simp_all <;> decide

theorem header_count {table : TdcpmNodeTable} (h : TableFits table) :
    (if (tableFlags table >>> 1) &&& 1 ≠ 0 then (UInt32.ofNat table.columns).toNat else 0) =
      table.header.length := by
  have hcols := h.columns
  rw [toNat_ofNat_lt (by omega)]
  split
  next hne =>
    exact (table.header_length.resolve_left ((tableFlags_names table).1.mp hne)).symm
  next heq =>
    have hnil : table.header = [] := by
      by_contra hc
      exact heq ((tableFlags_names table).1.mpr hc)
    rw [hnil]
    rfl

theorem units_count {table : TdcpmNodeTable} (h : TableFits table) :
    (if tableFlags table &&& 1 ≠ 0 then (UInt32.ofNat table.columns).toNat else 0) =
      table.units.length := by
  have hcols := h.columns
  rw [toNat_ofNat_lt (by omega)]
  split
  next hne =>
    exact (table.units_length.resolve_left ((tableFlags_names table).2.mp hne)).symm
  next heq =>
    have hnil : table.units = [] := by
      by_contra hc
      exact heq ((tableFlags_names table).2.mpr hc)
    rw [hnil]
    rfl

end Parts

section Dump

def NodeVisit.printedUnit : NodeVisit → Option UInt32
  | .item x => if x.unitIdx ≠ 0 then some x.unitIdx else none
  | .unit x => some x.unitIdx
  | _ => none

/-- The program ends at the unit of one of the visits, the text of which has 128 characters or more. -/
def StopsAtLong (tables : TdcpmUnits) (visits : List NodeVisit) (e : NodeReadError) : Prop :=
  ∃ visit ∈ visits, ∃ unitIdx, visit.printedUnit = some unitIdx ∧
    128 ≤ (tdcpmUnitToString tables unitIdx).length ∧ e = .unitTooLong unitIdx

variable {tables : TdcpmUnits} {visits visits' : List NodeVisit}

theorem StopsAtLong.mono (h : visits ⊆ visits') (e : NodeReadError)
    (hstop : StopsAtLong tables visits e) : StopsAtLong tables visits' e := by
  obtain ⟨visit, hmem, hlong⟩ := hstop
  exact ⟨visit, h hmem, hlong⟩

theorem readsTo_dumpUnit {visit : NodeVisit} {unitIdx : UInt32}
    (h : visit.printedUnit = some unitIdx) :
    ReadsTo (StopsAtLong tables [visit]) (tdcpmDumpUnit tables unitIdx) [] fun _ => True := by
  unfold tdcpmDumpUnit
  split
  next hlong => exact readsTo_stop ⟨visit, List.mem_singleton_self visit, unitIdx, h, hlong, rfl⟩
  next => exact readsTo_pure trivial

theorem readsTo_dumpItemUnit (item : VectItem) :
    ReadsTo (StopsAtLong tables [.item item]) (dumpItemUnit tables item) [] fun _ => True := by
  unfold dumpItemUnit
  split
  next hne => exact @readsTo_dumpUnit tables (.item item) item.unitIdx (if_pos hne)
  next => exact readsTo_pure trivial

theorem readsTo_dumpItem (item : VectItem) :
    ReadsTo (StopsAtLong tables [.item item]) (dumpItem tables) (serializeItem item)
      (· = item) :=
  (readsTo_item item).check (readsTo_dumpItemUnit item)

theorem readsTo_dumpTableUnit (unit : TableUnit) :
    ReadsTo (StopsAtLong tables [.unit unit]) (dumpTableUnit tables) (serializeTableUnit unit)
      (· = unit) := by
  have hunit := @readsTo_dumpUnit tables (.unit unit) unit.unitIdx rfl
  unfold dumpTableUnit
  exact (readsTo_tableUnit unit).check hunit

theorem readsTo_vectLoop {items : List VectItem} {num : UInt32} (h : num.toNat = items.length) :
    ReadsTo (StopsAtLong tables (items.map .item)) (tdcpmDumpVectLoop tables num)
      (tdcpmSerializeVectLoop items) (· = items.map NodeVisit.item) := by
  have hloop := @readsTo_loop_map NodeReadError VectItem VectItem
    (StopsAtLong tables (items.map .item)) (dumpItem tables) serializeItem id items
    fun item hitem => (readsTo_dumpItem item).stop_mono (StopsAtLong.mono fun _ hvisit =>
      List.mem_singleton.mp hvisit ▸ List.mem_map_of_mem hitem)
  unfold tdcpmDumpVectLoop
  rw [h]
  refine hloop.return_map ?_
  rintro _ rfl
  rw [List.map_id]

theorem readsTo_vect {items : List VectItem} (h : items.length < 2 ^ 30) :
    ReadsTo (StopsAtLong tables (visitVect items)) (tdcpmDumpVect tables) (vectWords items)
      (· = visitVect items) := by
  have hnum : (UInt32.ofNat items.length).toNat = items.length := toNat_ofNat_lt (by omega)
  have hitems := (@readsTo_vectLoop tables items _ hnum).stop_mono
    (StopsAtLong.mono (List.subset_cons_self (.vect items.length) _))
  refine readsTo_bind_word _ _ (hitems.return_map ?_)
  rintro _ rfl
  rw [hnum]
  rfl

theorem readsTo_headerItem {stop : NodeReadError → Prop} {item : HeaderItem}
    (h : NameFits item.name) :
    ReadsTo stop dumpHeaderItem (serializeHeaderItem item) (· = item) :=
  (readsTo_varName h).bind_eq (readsTo_bind_word _ _ (readsTo_pure rfl))

theorem readsTo_line {line : TableLine} {columns : UInt32}
    (hcols : columns.toNat = line.items.length)
    (hname : ∀ name, line.varName = some name → NameFits name) :
    ReadsTo (StopsAtLong tables (visitLine line)) (dumpTableLine tables columns)
      (serializeTableLine line) (· = visitLine line) := by
  have hitems : ReadsTo (StopsAtLong tables (visitLine line)) (tdcpmDumpVectLoop tables columns)
      (tdcpmSerializeVectLoop line.items) (· = line.items.map NodeVisit.item) :=
    (readsTo_vectLoop hcols).stop_mono (StopsAtLong.mono (List.subset_cons_self _ _))
  have hlast : ∀ v, v = line.varName → ReadsTo (StopsAtLong tables (visitLine line)) (do
      let items ← tdcpmDumpVectLoop tables columns
      return NodeVisit.line v :: items) (tdcpmSerializeVectLoop line.items)
      (· = visitLine line) := by
    rintro v rfl
    refine hitems.return_map ?_
    rintro _ rfl
    rfl
  unfold serializeTableLine
  cases hv : line.varName with
  | none =>
    refine readsTo_bind_word _ _ ?_
    exact (readsTo_pure (P := (· = none)) rfl).bind_eq (hlast none hv.symm)
  | some name =>
    refine readsTo_bind_word _ _ ?_
    have hread : ReadsTo (StopsAtLong tables (visitLine line)) (dumpLineName 1)
        (tdcpmSerializeVarName name) (· = some name) := by
      refine (readsTo_varName (hname name hv)).return_map ?_
      rintro _ rfl
      rfl
    exact hread.bind_eq (hlast (some name) hv.symm)

theorem visitTable_parts (table : TdcpmNodeTable) :
    (∀ unit ∈ table.units, [.unit unit] ⊆ visitTable table) ∧
      ∀ line ∈ table.lines, visitLine line ⊆ visitTable table := by
  unfold visitTable
  constructor
  · intro unit hunit
    simp [hunit]
  · intro line hline visit hvisit
    have hmem : visit ∈ table.lines.flatMap visitLine := List.mem_flatMap.mpr ⟨line, hline, hvisit⟩
    exact List.mem_cons_of_mem _ (List.mem_append_right _ hmem)

theorem readsTo_table {table : TdcpmNodeTable} (h : TableFits table) :
    ReadsTo (StopsAtLong tables (visitTable table)) (tdcpmDumpTable tables) (tableData table)
      (· = visitTable table) := by
  have hcols : (UInt32.ofNat table.columns).toNat = table.columns := by
    have := h.columns
    exact toNat_ofNat_lt (by omega)
  obtain ⟨hunitIn, hlineIn⟩ := visitTable_parts table
  have hheader := @readsTo_loop_map NodeReadError HeaderItem HeaderItem
    (StopsAtLong tables (visitTable table)) dumpHeaderItem serializeHeaderItem id table.header
    fun item hitem => readsTo_headerItem (h.header item hitem)
  have hunits := @readsTo_loop_map NodeReadError TableUnit TableUnit
    (StopsAtLong tables (visitTable table)) (dumpTableUnit tables) serializeTableUnit id table.units
    fun unit hunit => (readsTo_dumpTableUnit unit).stop_mono
      (StopsAtLong.mono (hunitIn unit hunit))
  have hlines := @readsTo_loop_map NodeReadError (List NodeVisit) TableLine
    (StopsAtLong tables (visitTable table)) (dumpTableLine tables (UInt32.ofNat table.columns))
    serializeTableLine visitLine table.lines
    fun line hline => (readsTo_line (hcols.trans (table.line_length line hline).symm)
      (h.lines line hline)).stop_mono (StopsAtLong.mono (hlineIn line hline))
  refine readsTo_bind_word _ _ (readsTo_bind_word _ _ (readsTo_bind_word _ _ ?_))
  dsimp only
  rw [header_count h, units_count h, toNat_ofNat_lt h.rows]
  rw [List.append_assoc]
  refine hheader.bind_eq (hunits.bind_eq (hlines.return_map ?_))
  rintro _ rfl
  obtain ⟨hnames, hunits'⟩ := tableFlags_names table
  simp only [hnames, hunits', hcols, List.map_id, visitTable, List.flatMap_def]

theorem readsTo_node {depth : Nat} {node : TdcpmNode} {ws : List UInt32}
    (hnodes : ∀ nodes ws, listDepth nodes < depth → nodes.length < 2 ^ 32 → AllFit nodes →
      EncodesNodes nodes ws → ReadsTo (StopsAtLong tables (visitNodes nodes))
        (tdcpmDumpNodes tables depth) ws (· = visitNodes nodes))
    (hdepth : node.depth ≤ depth) (hfits : node.Fits) (henc : EncodesNode node ws) :
    ReadsTo (StopsAtLong tables (visitNode node))
      (tdcpmDumpNode tables (tdcpmDumpNodes tables depth)) ws (· = visitNode node) := by
  cases henc with
  | vect name items =>
    have hvect := (@readsTo_vect tables _ hfits.2).stop_mono
      (StopsAtLong.mono (List.subset_cons_self (.name name) _))
    refine readsTo_bind_word _ _ ((readsTo_varName hfits.1).bind_eq ?_)
    refine hvect.return_map ?_
    rintro _ rfl
    rfl
  | table name table =>
    have htable := (@readsTo_table tables _ hfits.2).stop_mono
      (StopsAtLong.mono (List.subset_cons_self (.name name) _))
    refine readsTo_bind_word _ _ ((readsTo_varName hfits.1).bind_eq ?_)
    refine htable.return_map ?_
    rintro _ rfl
    rfl
  | subNode name parts hparts =>
    obtain ⟨hname, hlen, hall⟩ := hfits
    have hread := hnodes (parts.map Prod.fst) _ (by rw [TdcpmNode.depth] at hdepth; omega) hlen hall
      ⟨_, ⟨parts, rfl, hparts, rfl⟩, rfl⟩
    have hread := hread.stop_mono (StopsAtLong.mono (List.subset_cons_of_subset (.name name)
      (List.subset_cons_self .subNode _)))
    rw [List.length_map] at hread
    refine readsTo_bind_word _ _ ((readsTo_varName hname).bind_eq ?_)
    refine hread.return_map ?_
    rintro _ rfl
    rfl
  | valid start stop' hi lo parts hparts =>
    obtain ⟨hlen, hall⟩ := hfits
    have hread := hnodes (parts.map Prod.fst) _ (by rw [TdcpmNode.depth] at hdepth; omega) hlen hall
      ⟨_, ⟨parts, rfl, hparts, rfl⟩, rfl⟩
    have hread := hread.stop_mono
      (StopsAtLong.mono (List.subset_cons_self (.valid start stop') _))
    rw [List.length_map] at hread
    refine readsTo_bind_word _ _ (readsTo_bind_word _ _ (readsTo_bind_word _ _
      (readsTo_bind_word _ _ (readsTo_bind_word _ _ ?_))))
    refine hread.return_map ?_
    rintro _ rfl
    rfl

theorem visitNode_subset {node : TdcpmNode} {nodes : List TdcpmNode} (h : node ∈ nodes) :
    visitNode node ⊆ visitNodes nodes := by
  intro visit hvisit
  rw [visitNodes, visitList_eq]
  exact List.mem_cons_of_mem _ (List.mem_flatMap.mpr ⟨node, h, hvisit⟩)

theorem readsTo_dumpNodes {depth : Nat} {nodes : List TdcpmNode} {ws : List UInt32}
    (hdepth : listDepth nodes < depth) (hlen : nodes.length < 2 ^ 32) (hfits : AllFit nodes)
    (henc : EncodesNodes nodes ws) :
    ReadsTo (StopsAtLong tables (visitNodes nodes)) (tdcpmDumpNodes tables depth) ws
      (· = visitNodes nodes) := by
  induction depth generalizing nodes ws with
  | zero => omega
  | succ depth ih =>
    obtain ⟨body, ⟨parts, rfl, hparts, rfl⟩, rfl⟩ := henc
    have hloop := @readsTo_loop_map NodeReadError (List NodeVisit) (TdcpmNode × List UInt32)
      (StopsAtLong tables (visitNodes (parts.map Prod.fst)))
      (tdcpmDumpNode tables (tdcpmDumpNodes tables depth)) Prod.snd (fun p => visitNode p.1) parts
      (by
        intro p hp
        have hmem : p.1 ∈ parts.map Prod.fst := List.mem_map_of_mem hp
        refine (readsTo_node (fun nodes ws hd hl ha he => ih hd hl ha he) ?_
          (allFit_iff.mp hfits _ hmem) (hparts p hp)).stop_mono
            (StopsAtLong.mono (visitNode_subset hmem))
        have := depth_le_listDepth hmem
        omega)
    refine readsTo_bind_word _ _ ?_
    rw [toNat_ofNat_lt hlen, List.length_map]
    refine hloop.return_map ?_
    rintro _ rfl
    rw [visitNodes, visitList_eq, List.length_map, List.flatMap_map, List.flatMap_def]

end Dump

section Assign

variable {unitFactor : UInt32 → UInt32 → Bool}

def StopsAtUnit (unitFactor : UInt32 → UInt32 → Bool) (e : NodeReadError) : Prop :=
  ∃ unitIdx leafUnit, unitFactor unitIdx leafUnit = false ∧ e = .unitMismatch unitIdx leafUnit

/-- Such words are taken, with whatever result, unless a unit cannot be assigned. -/
def Takes {α : Type} (unitFactor : UInt32 → UInt32 → Bool) (r : NodeReader α) (ws : List UInt32) :
    Prop :=
  ReadsTo (StopsAtUnit unitFactor) r ws fun _ => True

theorem ReadsTo.takes {α : Type} {r : NodeReader α} {ws : List UInt32} {P : α → Prop}
    (h : ReadsTo (StopsAtUnit unitFactor) r ws P) : Takes unitFactor r ws :=
  h.mono fun _ _ => trivial

theorem takes_loop {α β : Type} {body : NodeReader α} {enc : β → List UInt32} {xs : List β}
    (h : ∀ x ∈ xs, Takes unitFactor body (enc x)) :
    Takes unitFactor (readLoop body xs.length) (xs.flatMap enc) :=
  (readsTo_loop (R := fun _ _ => True) h).takes

theorem takes_matchParts (parts : List UInt32) (state : MatchState) :
    Takes unitFactor (matchParts parts.length state) parts := by
  induction parts generalizing state with
  | nil => exact readsTo_pure trivial
  | cons part parts ih =>
    refine readsTo_bind_word _ _ ?_
    cases state.matchPart part with
    | some state => exact ih state
    | none => exact (readsTo_words parts).return_map fun _ _ => trivial

theorem takes_matchVarName {name : TdcpmVarName} (h : NameFits name) (state : MatchState) :
    Takes unitFactor (tdcpmMatchVarNameStruct state) (tdcpmSerializeVarName name) := by
  unfold NameFits at h
  refine readsTo_bind_word _ _ ?_
  rw [toNat_ofNat_lt (by omega)]
  exact takes_matchParts name state

theorem takes_assignItem (state : MatchState) (item : VectItem) :
    Takes unitFactor (tdcpmAssignItem unitFactor state item) [] := by
  unfold tdcpmAssignItem
  split
  next => exact readsTo_pure trivial
  next address leafValue leafUnit _ =>
    split
    · exact readsTo_pure trivial
    · split
      · exact readsTo_pure trivial
      next hfactor =>
        refine readsTo_stop ⟨item.unitIdx, leafUnit, ?_, rfl⟩
        simpa using hfactor

theorem takes_vectLoop {items : List VectItem} {num : UInt32} (h : num.toNat = items.length)
    (state : MatchState) :
    Takes unitFactor (tdcpmAssignVectLoop unitFactor state num) (tdcpmSerializeVectLoop items) := by
  have hnext : ∀ item ∈ items,
      Takes unitFactor (assignNextItem unitFactor state) (serializeItem item) := by
    intro item _
    have hassign : Takes unitFactor (tdcpmAssignItem unitFactor state item) [] :=
      takes_assignItem state item
    have hread := (readsTo_item item).bind_eq hassign
    rw [List.append_nil] at hread
    exact hread
  unfold tdcpmAssignVectLoop
  rw [h]
  exact (takes_loop hnext).return_map fun _ _ => trivial

theorem takes_vect {items : List VectItem} (h : items.length < 2 ^ 30) (state : MatchState) :
    Takes unitFactor (tdcpmAssignVect unitFactor state) (vectWords items) :=
  readsTo_bind_word _ _ (takes_vectLoop (toNat_ofNat_lt (by omega)) state)

theorem takes_line {line : TableLine} {columns : UInt32}
    (hcols : columns.toNat = line.items.length)
    (hname : ∀ name, line.varName = some name → NameFits name) (state : MatchState) :
    Takes unitFactor (assignTableLine unitFactor state columns) (serializeTableLine line) := by
  unfold serializeTableLine
  cases hv : line.varName with
  | none =>
    refine readsTo_bind_word _ _ ?_
    exact (readsTo_pure (P := (· = state)) rfl).bind_eq (takes_vectLoop hcols state)
  | some name =>
    refine readsTo_bind_word _ _ ?_
    exact (takes_matchVarName (hname name hv) state).bind fun state' _ =>
      takes_vectLoop hcols state'

theorem takes_table {table : TdcpmNodeTable} (h : TableFits table) (state : MatchState) :
    Takes unitFactor (tdcpmAssignTable unitFactor state) (tableData table) := by
  have hcols : (UInt32.ofNat table.columns).toNat = table.columns := by
    have := h.columns
    exact toNat_ofNat_lt (by omega)
  have hheader : Takes unitFactor (readLoop (assignHeaderItem state) table.header.length)
      (table.header.flatMap serializeHeaderItem) := by
    apply takes_loop
    intro item hitem
    exact (takes_matchVarName (h.header item hitem) state).bind fun _ _ =>
      readsTo_bind_word _ _ (readsTo_pure trivial)
  have hunits : Takes unitFactor (readLoop deserializeTableUnit table.units.length)
      (table.units.flatMap serializeTableUnit) :=
    takes_loop fun unit _ => (readsTo_tableUnit unit).takes
  have hlines : Takes unitFactor
      (readLoop (assignTableLine unitFactor state (UInt32.ofNat table.columns))
        table.lines.length) (table.lines.flatMap serializeTableLine) := by
    apply takes_loop
    intro line hline
    exact takes_line (hcols.trans (table.line_length line hline).symm) (h.lines line hline) state
  refine readsTo_bind_word _ _ (readsTo_bind_word _ _ (readsTo_bind_word _ _ ?_))
  dsimp only
  rw [header_count h, units_count h, toNat_ofNat_lt h.rows]
  rw [List.append_assoc]
  exact hheader.bind fun _ _ => hunits.bind fun _ _ => hlines.return_map fun _ _ => trivial

theorem takes_node {depth : Nat} {node : TdcpmNode} {ws : List UInt32} (state : MatchState)
    (hnodes : ∀ nodes ws state, listDepth nodes < depth → nodes.length < 2 ^ 32 → AllFit nodes →
      EncodesNodes nodes ws → Takes unitFactor (tdcpmAssignNodes unitFactor depth state) ws)
    (hdepth : node.depth ≤ depth) (hfits : node.Fits) (henc : EncodesNode node ws) :
    Takes unitFactor (tdcpmAssignNode unitFactor (tdcpmAssignNodes unitFactor depth) state) ws := by
  cases henc with
  | vect name items =>
    refine readsTo_bind_word _ _ ((takes_matchVarName hfits.1 state).bind fun state' _ => ?_)
    exact takes_vect hfits.2 state'
  | table name table =>
    refine readsTo_bind_word _ _ ((takes_matchVarName hfits.1 state).bind fun state' _ => ?_)
    exact takes_table hfits.2 state'
  | subNode name parts hparts =>
    obtain ⟨hname, hlen, hall⟩ := hfits
    refine readsTo_bind_word _ _ ((takes_matchVarName hname state).bind fun state' _ => ?_)
    have hread := hnodes (parts.map Prod.fst) _ state'
      (by rw [TdcpmNode.depth] at hdepth; omega) hlen hall ⟨_, ⟨parts, rfl, hparts, rfl⟩, rfl⟩
    rw [List.length_map] at hread
    exact hread
  | valid start stop hi lo parts hparts =>
    obtain ⟨hlen, hall⟩ := hfits
    have hread := hnodes (parts.map Prod.fst) _ state
      (by rw [TdcpmNode.depth] at hdepth; omega) hlen hall ⟨_, ⟨parts, rfl, hparts, rfl⟩, rfl⟩
    rw [List.length_map] at hread
    exact readsTo_bind_word _ _ (readsTo_bind_word _ _ (readsTo_bind_word _ _
      (readsTo_bind_word _ _ (readsTo_bind_word _ _ hread))))

theorem takes_assignNodes {depth : Nat} {nodes : List TdcpmNode} {ws : List UInt32}
    (state : MatchState) (hdepth : listDepth nodes < depth) (hlen : nodes.length < 2 ^ 32)
    (hfits : AllFit nodes) (henc : EncodesNodes nodes ws) :
    Takes unitFactor (tdcpmAssignNodes unitFactor depth state) ws := by
  induction depth generalizing nodes ws state with
  | zero => omega
  | succ depth ih =>
    obtain ⟨body, ⟨parts, rfl, hparts, rfl⟩, rfl⟩ := henc
    have hloop : Takes unitFactor (readLoop
        (tdcpmAssignNode unitFactor (tdcpmAssignNodes unitFactor depth) state) parts.length)
        (parts.flatMap Prod.snd) := by
      apply takes_loop
      intro p hp
      have hmem : p.1 ∈ parts.map Prod.fst := List.mem_map_of_mem hp
      refine takes_node state (fun nodes ws state hd hl ha he => ih state hd hl ha he) ?_
        (allFit_iff.mp hfits _ hmem) (hparts p hp)
      have := depth_le_listDepth hmem
      omega
    refine readsTo_bind_word _ _ ?_
    rw [toNat_ofNat_lt hlen, List.length_map]
    exact hloop.return_map fun _ _ => trivial

end Assign

/-- Serialised nodes use what is reserved for them, are dumped as they stand in the parse list, unless
this stops at the text of a unit, and are gone through completely by the assignment to any structure,
unless this stops at a unit. -/
theorem nodes_decode (blockSize : Nat → Nat → UInt64) {nodes : List TdcpmNode}
    (hlen : nodes.length < 2 ^ 32) (hfits : AllFit nodes) :
    ∃ ser, tdcpmSerializeNodes blockSize nodes .init = some ser ∧ ser.reserved = 0 ∧
      (∀ u ∈ ser.uses, u.1 = u.2) ∧
      ∀ depth, listDepth nodes < depth →
        (∀ tables, tdcpmDumpNodes tables depth ser.buf = .ok (visitNodes nodes, []) ∨
          ∃ visit ∈ visitNodes nodes, ∃ unitIdx, visit.printedUnit = some unitIdx ∧
            128 ≤ (tdcpmUnitToString tables unitIdx).length ∧
            tdcpmDumpNodes tables depth ser.buf = .error (.unitTooLong unitIdx)) ∧
        ∀ unitFactor state,
          (∃ assigned, tdcpmAssignNodes unitFactor depth state ser.buf = .ok (assigned, [])) ∨
          ∃ unitIdx leafUnit, unitFactor unitIdx leafUnit = false ∧
            tdcpmAssignNodes unitFactor depth state ser.buf =
              .error (.unitMismatch unitIdx leafUnit) := by
  have hinit : SerializeInfo.init.Exact := ⟨rfl, by simp [SerializeInfo.init]⟩
  obtain ⟨ser, ws, hser, hex, henc, hbuf⟩ := writes_nodes blockSize hfits .init hinit
  have hbuf' : ser.buf = ws ++ [] := by
    rw [hbuf, List.append_nil]
    rfl
  refine ⟨ser, hser, hex.free, hex.exact, ?_⟩
  intro depth hdepth
  constructor
  · intro tables
    have hdump := @readsTo_dumpNodes tables _ _ _ hdepth hlen hfits henc []
    rw [← hbuf'] at hdump
    rcases hdump with ⟨_, rfl, hok⟩ | ⟨_, ⟨visit, hmem, unitIdx, hprinted, hlong, rfl⟩, herr⟩
    · exact .inl hok
    · exact .inr ⟨visit, hmem, unitIdx, hprinted, hlong, herr⟩
  · intro unitFactor state
    have hassign := @takes_assignNodes unitFactor _ _ _ state hdepth hlen hfits henc []
    rw [← hbuf'] at hassign
    rcases hassign with ⟨assigned, -, hok⟩ | ⟨_, ⟨unitIdx, leafUnit, hno, rfl⟩, herr⟩
    · exact .inl ⟨assigned, hok⟩
    · exact .inr ⟨unitIdx, leafUnit, hno, herr⟩


/-- The tables with one name, and the unit of this name under the index 1. -/
def unitTables (name : List UInt8) : Option TdcpmUnits := do
  let s ← unitStart
  let s ← unitStep s (.ident (CStr.ofChars name))
  let s ← unitStep s (.unit [(0, 1)])
  return s.tables

def unitTextLength (name : List UInt8) : Option Nat :=
  (unitTables name).map fun tables => (tdcpmUnitToString tables 1).length

def nodeDemo : List TdcpmNode :=
  [.valid 1 2 [.vect [0x80000000] [⟨0x3ff0000000000000, 1, 0⟩],
    .table [0x80000000] ⟨[⟨[0x80000000, 3], 0⟩], [⟨0x3ff0000000000000, 1⟩],
      [⟨none, [⟨0x4000000000000000, 0, 2⟩]⟩, ⟨some [5], [⟨0x4000000000000000, 0, 0⟩]⟩], 1,
      Or.inr rfl, .inr rfl, by decide⟩]]

def nodeDemoWords : List UInt32 :=
  [1, 4, 0, 4, 1, 2, 2, 1, 1, 0x80000000, 1, 0x3ff00000, 0, 1, 0, 2, 1, 0x80000000, 1, 2, 3, 2,
    0x80000000, 3, 0, 0x3ff00000, 0, 1, 0, 0x40000000, 0, 0, 2, 1, 1, 5, 0x40000000, 0, 0, 0]

theorem nodeDemo_fits : AllFit nodeDemo := by
  have hname : ∀ name : TdcpmVarName, name.length ≤ 2 → NameFits name := by
    intro name hlen
    unfold NameFits
    omega
  refine ⟨⟨by decide, ⟨hname _ (by decide), by decide⟩, ⟨hname _ (by decide), ?_⟩, trivial⟩, trivial⟩
  refine ⟨by decide, by decide, ?_, ?_⟩
  · intro item hitem
    rw [List.mem_singleton.mp hitem]
    exact hname _ (by decide)
  · intro line hline name hv
    simp only [List.mem_cons, List.not_mem_nil, or_false] at hline
    rcases hline with rfl | rfl
    · cases hv
    · cases hv
      exact hname _ (by decide)

/-- The unit that is printed is `km`. -/
theorem nodes_decode_demo :
    ∃ ser, tdcpmSerializeNodes (fun _ _ => 4) nodeDemo .init = some ser ∧
      ∃ tables, unitTables [107, 109] = some tables ∧
        tdcpmDumpNodes tables 2 ser.buf = .ok (visitNodes nodeDemo, []) := by
  obtain ⟨ser, hser, -, -, hread⟩ :=
    @nodes_decode (fun _ _ => 4) nodeDemo (by decide) nodeDemo_fits
  obtain ⟨tables, htables⟩ := Option.isSome_iff_exists.mp
    (show (unitTables [107, 109]).isSome = true by decide +kernel)
  refine ⟨ser, hser, tables, htables, ?_⟩
  rcases (hread 2 (by decide)).1 tables with hok | ⟨visit, hmem, unitIdx, hprinted, hlong, -⟩
  · exact hok
  · have hunits : (visitNodes nodeDemo).filterMap NodeVisit.printedUnit = [1, 1] := rfl
    have hunit := List.mem_filterMap.mpr ⟨visit, hmem, hprinted⟩
    rw [hunits] at hunit
    have hkm : unitIdx = 1 := by
      simpa using hunit
    rw [hkm] at hlong
    have htext : unitTextLength [107, 109] = some 2 := by
      decide +kernel
    rw [unitTextLength, htables] at htext
    have hlength : (tdcpmUnitToString tables 1).length = 2 := Option.some.inj htext
    omega

theorem vect_not_reserved {items : List VectItem} (h : items.length = 2 ^ 30)
    (ser : SerializeInfo) : tdcpmSerializeVect items ser = none := by
  unfold tdcpmSerializeVect SerializeInfo.put SerializeInfo.allocWords
  split
  · rw [Option.bind_some, SerializeInfo.commitWords, if_neg]
    have hsize : tdcpmSerializeVectSize (2 ^ 30 % 2 ^ 32) = 0 := rfl
    rw [List.length_cons, length_vectLoop, h, hsize]
    dsimp only
    omega
  · rfl

theorem nodes_not_decoded :
    (∃ items : List VectItem, items.length = 2 ^ 30 ∧
      tdcpmSerializeNodes (fun _ _ => 4) [.vect [0x80000000] items] .init = none) ∧
    ∃ ser, tdcpmSerializeNodes (fun _ _ => 4) nodeDemo .init = some ser ∧
      (∃ tables, unitTables (List.replicate 128 98) = some tables ∧
        tdcpmDumpNodes tables 2 ser.buf = .error (.unitTooLong 1)) ∧
      tdcpmAssignNodes (fun a b => a == b) 2
        ⟨some [.leaf 0 8 [] 0x3ff0000000000000 2], none, 0⟩ ser.buf =
          .error (.unitMismatch 1 2) := by
  constructor
  · obtain ⟨items, hitems⟩ : ∃ items : List VectItem, items.length = 2 ^ 30 :=
      ⟨List.replicate (2 ^ 30) ⟨0, 0, 0⟩, List.length_replicate⟩
    refine ⟨items, hitems, ?_⟩
    have hnone := vect_not_reserved hitems
    simp [tdcpmSerializeNodes, serializeNodeList, tdcpmSerializeNode, hnone]
  · have hbuf : (tdcpmSerializeNodes (fun _ _ => 4) nodeDemo .init).map SerializeInfo.buf =
        some nodeDemoWords := by
      decide +kernel
    obtain ⟨ser, hser, hwords⟩ := Option.map_eq_some_iff.mp hbuf
    refine ⟨ser, hser, ?_, ?_⟩
    · rw [hwords]
      exact Option.map_eq_some_iff.mp (show (unitTables (List.replicate 128 98)).map
        (fun tables => tdcpmDumpNodes tables 2 nodeDemoWords) = some (.error (.unitTooLong 1)) by
          decide +kernel)
    · rw [hwords]
      rfl

end Ucesb
