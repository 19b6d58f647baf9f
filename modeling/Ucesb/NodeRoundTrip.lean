import Ucesb.TdcpmNodeReaders

namespace Ucesb

def NameFits (name : TdcpmVarName) : Prop := name.length < 2 ^ 32 - 1

structure TableFits (table : TdcpmNodeTable) : Prop where
  columns : table.columns < 2 ^ 30
  rows : table.lines.length < 2 ^ 32
  header : ∀ item ∈ table.header, NameFits item.name
  lines : ∀ line ∈ table.lines, ∀ name, line.varName = some name → NameFits name

mutual

def TdcpmNode.Fits : TdcpmNode → Prop
  | .vect name items => NameFits name ∧ items.length < 2 ^ 30
  | .table name table => NameFits name ∧ TableFits table
  | .subNode name nodes => NameFits name ∧ nodes.length < 2 ^ 32 ∧ AllFit nodes
  | .valid _ _ nodes => nodes.length < 2 ^ 32 ∧ AllFit nodes

def AllFit : List TdcpmNode → Prop
  | [] => True
  | node :: nodes => node.Fits ∧ AllFit nodes

end

def vectWords (items : List VectItem) : List UInt32 :=
  UInt32.ofNat items.length :: items.flatMap serializeItem

def tableData (table : TdcpmNodeTable) : List UInt32 :=
  UInt32.ofNat table.columns :: UInt32.ofNat table.lines.length :: tableFlags table ::
    (table.header.flatMap serializeHeaderItem ++ table.units.flatMap serializeTableUnit ++
      table.lines.flatMap serializeTableLine)

/-- The words of a node; the two words of the size of a valid block may be any. -/
inductive EncodesNode : TdcpmNode → List UInt32 → Prop
  | vect (name : TdcpmVarName) (items : List VectItem) :
      EncodesNode (.vect name items)
        ((tdcpmNodeTypeVect :: tdcpmSerializeVarName name) ++ vectWords items)
  | table (name : TdcpmVarName) (table : TdcpmNodeTable) :
      EncodesNode (.table name table)
        ((tdcpmNodeTypeTable :: tdcpmSerializeVarName name) ++ tableData table)
  | subNode (name : TdcpmVarName) (parts : List (TdcpmNode × List UInt32)) :
      (∀ p ∈ parts, EncodesNode p.1 p.2) →
      EncodesNode (.subNode name (parts.map Prod.fst))
        ((tdcpmNodeTypeSubNode :: tdcpmSerializeVarName name) ++
          (UInt32.ofNat parts.length :: parts.flatMap Prod.snd))
  | valid (start stop hi lo : UInt32) (parts : List (TdcpmNode × List UInt32)) :
      (∀ p ∈ parts, EncodesNode p.1 p.2) →
      EncodesNode (.valid start stop (parts.map Prod.fst))
        ([tdcpmNodeTypeValid, hi, lo, start, stop] ++
          (UInt32.ofNat parts.length :: parts.flatMap Prod.snd))

def EncodesList (nodes : List TdcpmNode) (ws : List UInt32) : Prop :=
  ∃ parts : List (TdcpmNode × List UInt32), parts.map Prod.fst = nodes ∧
    (∀ p ∈ parts, EncodesNode p.1 p.2) ∧ ws = parts.flatMap Prod.snd

def EncodesNodes (nodes : List TdcpmNode) (ws : List UInt32) : Prop :=
  ∃ body, EncodesList nodes body ∧ ws = UInt32.ofNat nodes.length :: body

structure SerializeInfo.Exact (ser : SerializeInfo) : Prop where
  free : ser.reserved = 0
  exact : ∀ u ∈ ser.uses, u.1 = u.2

def Writes (f : SerializeInfo → Option SerializeInfo) (W : List UInt32 → Prop) : Prop :=
  ∀ ser, ser.Exact → ∃ ser' ws, f ser = some ser' ∧ ser'.Exact ∧ W ws ∧ ser'.buf = ser.buf ++ ws

section Write

variable {f g : SerializeInfo → Option SerializeInfo} {V W : List UInt32 → Prop}

theorem writes_put {words : Nat} {written : List UInt32} (h : words = written.length) :
    Writes (SerializeInfo.put words written) (· = written) := by
  intro ser hser
  refine ⟨⟨ser.buf ++ written, 0, ser.uses ++ [(words, written.length)]⟩, written, ?_, ⟨rfl, ?_⟩,
    rfl, rfl⟩
  · simp [SerializeInfo.put, SerializeInfo.allocWords, SerializeInfo.commitWords, hser.free, h]
  · intro u hu
    rcases List.mem_append.mp hu with hu | hu
    · exact hser.exact u hu
    · rw [List.mem_singleton.mp hu]
      exact h

theorem Writes.bind (hf : Writes f V) (hg : Writes g W) :
    Writes (fun ser => (f ser).bind g) fun ws => ∃ a b, V a ∧ W b ∧ ws = a ++ b := by
  intro ser hser
  obtain ⟨ser1, a, h1, hex1, ha, hbuf1⟩ := hf ser hser
  obtain ⟨ser2, b, h2, hex2, hb, hbuf2⟩ := hg ser1 hex1
  refine ⟨ser2, a ++ b, ?_, hex2, ⟨a, b, ha, hb, rfl⟩, ?_⟩
  · dsimp only
    rw [h1]
    exact h2
  · rw [hbuf2, hbuf1, List.append_assoc]

theorem Writes.mono (hf : Writes f V) (h : ∀ ws, V ws → W ws) : Writes f W := by
  intro ser hser
  obtain ⟨ser', ws, h1, hex, hv, hbuf⟩ := hf ser hser
  exact ⟨ser', ws, h1, hex, h ws hv, hbuf⟩

end Write

theorem length_varName {name : TdcpmVarName} (h : NameFits name) :
    tdcpmSerializeVarNameSize name = (tdcpmSerializeVarName name).length := by
  unfold NameFits at h
  unfold tdcpmSerializeVarNameSize tdcpmSerializeVarName
  rw [List.length_cons, Nat.mod_eq_of_lt (by omega)]
  omega

theorem length_vectLoop (items : List VectItem) :
    (tdcpmSerializeVectLoop items).length = 4 * items.length := by
  unfold tdcpmSerializeVectLoop
  induction items with
  | nil => rfl
  | cons item items ih =>
    rw [List.flatMap_cons, List.length_append, ih, List.length_cons]
    simp only [serializeItem, serializeUInt64, List.length_append, List.length_cons,
      List.length_nil]
    omega

theorem writes_vect {items : List VectItem} (h : items.length < 2 ^ 30) :
    Writes (tdcpmSerializeVect items) (· = vectWords items) := by
  have hnum : items.length % 2 ^ 32 = items.length := Nat.mod_eq_of_lt (by omega)
  have hput := @writes_put (1 + tdcpmSerializeVectSize items.length)
    (UInt32.ofNat items.length :: tdcpmSerializeVectLoop items) (by
      rw [List.length_cons, length_vectLoop, tdcpmSerializeVectSize, Nat.mod_eq_of_lt (by omega)]
      omega)
  unfold tdcpmSerializeVect
  rw [hnum]
  exact hput

theorem writes_named (type : UInt32) {name : TdcpmVarName} (h : NameFits name) :
    Writes (serializeNamed type name) (· = type :: tdcpmSerializeVarName name) := by
  apply writes_put
  rw [List.length_cons, length_varName h]
  omega

theorem length_header {header : List HeaderItem} (h : ∀ item ∈ header, NameFits item.name) :
    (header.map fun item => tdcpmSerializeVarNameSize item.name + 1).sum =
      (header.flatMap serializeHeaderItem).length := by
  rw [List.length_flatMap]
  congr 1
  apply List.map_congr_left
  intro item hitem
  rw [length_varName (h item hitem), serializeHeaderItem, List.length_append,
    List.length_singleton]

theorem length_units (units : List TableUnit) :
    (units.flatMap serializeTableUnit).length = 3 * units.length := by
  induction units with
  | nil => rfl
  | cons unit units ih =>
    rw [List.flatMap_cons, List.length_append, ih, List.length_cons]
    simp only [serializeTableUnit, serializeUInt64, List.length_append, List.length_cons,
      List.length_nil]
    omega

theorem length_lines {lines : List TableLine} {columns : Nat}
    (hcols : ∀ line ∈ lines, line.items.length = columns) (hfit : columns < 2 ^ 30)
    (h : ∀ line ∈ lines, ∀ name, line.varName = some name → NameFits name) :
    (lines.map fun line => 1 + (line.varName.map tdcpmSerializeVarNameSize).getD 0 +
      tdcpmSerializeVectSize columns).sum = (lines.flatMap serializeTableLine).length := by
  rw [List.length_flatMap]
  congr 1
  apply List.map_congr_left
  intro line hline
  have hvect : tdcpmSerializeVectSize columns = (tdcpmSerializeVectLoop line.items).length := by
    rw [length_vectLoop, hcols line hline, tdcpmSerializeVectSize, Nat.mod_eq_of_lt (by omega)]
  rw [hvect, serializeTableLine, List.length_append]
  cases hname : line.varName with
  | none => rfl
  | some name =>
    simp only [Option.map_some, Option.getD_some, List.length_cons,
      length_varName (h line hline name hname)]
    omega

theorem writes_table {table : TdcpmNodeTable} (h : TableFits table) :
    Writes (tdcpmSerializeTable table) (· = tableData table) := by
  apply writes_put
  have hcols : table.columns % 2 ^ 32 = table.columns := by
    have := h.columns
    exact Nat.mod_eq_of_lt (by omega)
  have hunits : (if table.units = [] then 0 else 3 * table.columns % 2 ^ 32) =
      (table.units.flatMap serializeTableUnit).length := by
    rw [length_units]
    split
    next heq => rw [heq]; rfl
    next hne =>
      have hlen := table.units_length.resolve_left hne
      have := h.columns
      rw [hlen, Nat.mod_eq_of_lt (by omega)]
  unfold tableWords
  dsimp only
  rw [hcols, length_header h.header, hunits, length_lines table.line_length h.columns h.lines]
  simp only [List.length_cons, List.length_append]
  omega

section Serialize

variable (blockSize : Nat → Nat → UInt64)

theorem patch_head {ser : SerializeInfo} {before ws : List UInt32} {t hi lo : UInt32} (size : UInt64)
    (h : ser.buf = before ++ (t :: hi :: lo :: ws)) :
    (ser.patch (before.length + 1) size).buf =
      before ++ (t :: (size >>> 32).toUInt32 :: size.toUInt32 :: ws) := by
  unfold SerializeInfo.patch
  dsimp only
  have hone : before.length + 1 - before.length = 1 := by omega
  have htwo : before.length + 1 + 1 - before.length = 2 := by omega
  rw [h, List.set_append_right _ _ (by omega), List.set_append_right _ _ (by omega), hone, htwo]
  rfl

mutual

theorem writes_node : (node : TdcpmNode) → node.Fits →
    Writes (tdcpmSerializeNode blockSize node) (EncodesNode node)
  | .vect name items, h => by
    obtain ⟨hname, hitems⟩ := h
    refine ((writes_named tdcpmNodeTypeVect hname).bind (writes_vect hitems)).mono ?_
    rintro _ ⟨_, _, rfl, rfl, rfl⟩
    exact .vect name items
  | .table name table, h => by
    obtain ⟨hname, htable⟩ := h
    refine ((writes_named tdcpmNodeTypeTable hname).bind (writes_table htable)).mono ?_
    rintro _ ⟨_, _, rfl, rfl, rfl⟩
    exact .table name table
  | .subNode name nodes, h => by
    obtain ⟨hname, hlen, hall⟩ := h
    have hcount : Writes (SerializeInfo.put 1 [UInt32.ofNat nodes.length])
        (· = [UInt32.ofNat nodes.length]) := writes_put rfl
    refine (((writes_named tdcpmNodeTypeSubNode hname).bind hcount).bind
      (writes_nodeList nodes hall)).mono ?_
    rintro _ ⟨_, _, ⟨_, _, rfl, rfl, rfl⟩, ⟨parts, rfl, hparts, rfl⟩, rfl⟩
    have henc := EncodesNode.subNode name parts hparts
    rw [List.length_map, List.append_assoc]
    exact henc
  | .valid start stop nodes, h => by
    obtain ⟨hlen, hall⟩ := h
    have hput : Writes (SerializeInfo.put 5 [tdcpmNodeTypeValid, 0, 0, start, stop])
        (· = [tdcpmNodeTypeValid, 0, 0, start, stop]) := writes_put rfl
    have hcount : Writes (SerializeInfo.put 1 [UInt32.ofNat nodes.length])
        (· = [UInt32.ofNat nodes.length]) := writes_put rfl
    intro ser hser
    obtain ⟨ser', ws, hs, hex, ⟨_, _, ⟨_, _, rfl, rfl, rfl⟩, ⟨parts, hnodes, hparts, rfl⟩, rfl⟩,
      hbuf⟩ := (hput.bind hcount).bind (writes_nodeList nodes hall) ser hser
    refine ⟨ser'.patch (ser.buf.length + 1) (blockSize (ser.buf.length + 1) ser'.buf.length), _,
      ?_, ⟨hex.free, hex.exact⟩, ?_, patch_head _ hbuf⟩
    · dsimp only at hs
      unfold tdcpmSerializeNode
      rw [hs]
      rfl
    · have henc := EncodesNode.valid start stop
        (blockSize (ser.buf.length + 1) ser'.buf.length >>> 32).toUInt32
        (blockSize (ser.buf.length + 1) ser'.buf.length).toUInt32 parts hparts
      subst hnodes
      rw [List.length_map]
      exact henc

theorem writes_nodeList : (nodes : List TdcpmNode) → AllFit nodes →
    Writes (serializeNodeList blockSize nodes) (EncodesList nodes)
  | [], _ => by
    intro ser hser
    exact ⟨ser, [], rfl, hser, ⟨[], rfl, by simp, rfl⟩, by simp⟩
  | node :: nodes, h => by
    refine ((writes_node node h.1).bind (writes_nodeList nodes h.2)).mono ?_
    rintro _ ⟨a, _, ha, ⟨parts, rfl, hparts, rfl⟩, rfl⟩
    refine ⟨(node, a) :: parts, rfl, ?_, rfl⟩
    intro p hp
    rcases List.mem_cons.mp hp with rfl | hp
    · exact ha
    · exact hparts p hp

end

theorem writes_nodes {nodes : List TdcpmNode} (h : AllFit nodes) :
    Writes (tdcpmSerializeNodes blockSize nodes) (EncodesNodes nodes) := by
  have hput : Writes (SerializeInfo.put 1 [UInt32.ofNat nodes.length])
      (· = [UInt32.ofNat nodes.length]) := writes_put rfl
  refine (hput.bind (writes_nodeList blockSize nodes h)).mono ?_
  rintro _ ⟨_, b, rfl, hb, rfl⟩
  exact ⟨b, hb, rfl⟩

end Serialize

end Ucesb
