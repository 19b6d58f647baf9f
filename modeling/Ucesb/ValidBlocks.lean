import Ucesb.NodeReadBack

namespace Ucesb

/-- A valid block that has been serialised: its nodes, the offset of its size and of its end, and
how often the buffer had been reallocated when its first words were written and at its end. -/
structure ValidBlock where
  nodes : List TdcpmNode
  offSize : Nat
  offEnd : Nat
  movesBefore : Nat
  movesAfter : Nat

structure SerializeMem where
  info : SerializeInfo
  alloc : Nat
  moves : Nat
  blocks : List ValidBlock

def SerializeMem.init : SerializeMem := ⟨.init, 0, 0, []⟩

/-- `_alloc` is not zero any more when it is enlarged. -/
def growWords (reserve alloc : Nat) : Nat :=
  if 0 < alloc ∧ alloc < reserve then
    growWords reserve (if alloc < 0x1000000 then alloc * 2 else alloc + 0x1000000)
  else alloc
termination_by reserve - alloc
decreasing_by
  split <;> omega

/-- What is written into the given number of words, after the buffer has been enlarged for them. -/
def SerializeMem.reserving (words : Nat) (write : SerializeInfo → Option SerializeInfo)
    (s : SerializeMem) : Option SerializeMem :=
  (write s.info).map fun info =>
    if s.alloc < s.info.buf.length + words then
      { s with
        info := info
        alloc := growWords (s.info.buf.length + words) (if s.alloc = 0 then 0x1000 else s.alloc)
        moves := s.moves + 1 }
    else { s with info := info }

def SerializeMem.named (type : UInt32) (name : TdcpmVarName) :
    SerializeMem → Option SerializeMem :=
  SerializeMem.reserving (1 + tdcpmSerializeVarNameSize name) (serializeNamed type name)

def SerializeMem.count (nodes : List TdcpmNode) : SerializeMem → Option SerializeMem :=
  SerializeMem.reserving 1 (SerializeInfo.put 1 [UInt32.ofNat nodes.length])

section Place

-- The address of `_buf`, in words, after each number of reallocations.
variable (place : Nat → Int)

/-- `size_valid_block`: `dest` has pointed behind the first words of the block since before its
nodes were serialised. -/
def sizeValidBlock (offSize movesBefore movesAfter : Nat) : UInt64 :=
  let dest := place movesBefore + (offSize + 4)
  let offEnd := dest - place movesAfter
  UInt64.ofNat ((offEnd - offSize) % 2 ^ 64).toNat

def SerializeMem.closeBlock (nodes : List TdcpmNode) (offSize movesBefore : Nat)
    (s : SerializeMem) : SerializeMem :=
  { s with
    info := s.info.patch offSize (sizeValidBlock place offSize movesBefore s.moves)
    blocks := s.blocks ++ [⟨nodes, offSize, s.info.buf.length, movesBefore, s.moves⟩] }

mutual

def serializeNodeMem : TdcpmNode → SerializeMem → Option SerializeMem
  | .vect name items, s =>
    (s.named tdcpmNodeTypeVect name).bind
      (SerializeMem.reserving (1 + tdcpmSerializeVectSize (items.length % 2 ^ 32))
        (tdcpmSerializeVect items))
  | .table name table, s =>
    (s.named tdcpmNodeTypeTable name).bind
      (SerializeMem.reserving (tableWords table) (tdcpmSerializeTable table))
  | .subNode name nodes, s =>
    ((s.named tdcpmNodeTypeSubNode name).bind (SerializeMem.count nodes)).bind
      (serializeListMem nodes)
  | .valid start stop nodes, s =>
    (s.reserving 5 (SerializeInfo.put 5 [tdcpmNodeTypeValid, 0, 0, start, stop])).bind fun s1 =>
      ((s1.count nodes).bind (serializeListMem nodes)).map
        (SerializeMem.closeBlock place nodes (s.info.buf.length + 1) s1.moves)

def serializeListMem : List TdcpmNode → SerializeMem → Option SerializeMem
  | [], s => some s
  | node :: nodes, s => (serializeNodeMem node s).bind (serializeListMem nodes)

end

def serializeNodesMem (nodes : List TdcpmNode) (s : SerializeMem) : Option SerializeMem :=
  (s.count nodes).bind (serializeListMem place nodes)

end Place

mutual

def nodeWords : TdcpmNode → Nat
  | .vect name items => (2 + name.length) + (1 + 4 * items.length)
  | .table name table => (2 + name.length) + (tableData table).length
  | .subNode name nodes => (2 + name.length) + (1 + listWords nodes)
  | .valid _ _ nodes => 5 + (1 + listWords nodes)

def listWords : List TdcpmNode → Nat
  | [] => 0
  | node :: nodes => nodeWords node + listWords nodes

end

mutual

/-- The contents of the valid blocks, an inner block before the one it is in. -/
def validContents : TdcpmNode → List (List TdcpmNode)
  | .vect _ _ => []
  | .table _ _ => []
  | .subNode _ nodes => listContents nodes
  | .valid _ _ nodes => listContents nodes ++ [nodes]

def listContents : List TdcpmNode → List (List TdcpmNode)
  | [] => []
  | node :: nodes => validContents node ++ listContents nodes

end

/-- `TDCPM_DESERIALIZE_UINT64` of the size of a block. -/
def sizeField (buf : List UInt32) (off : Nat) : Option UInt64 := do
  let hi ← buf[off]?
  let lo ← buf[off + 1]?
  return (hi.toUInt64 <<< 32) ||| lo.toUInt64

section Run

variable {place : Nat → Int} {s s1 s2 : SerializeMem}

def ValidBlock.stored (place : Nat → Int) (b : ValidBlock) : UInt64 :=
  sizeValidBlock place b.offSize b.movesBefore b.movesAfter

/-- The block is among the words from an offset on, and has its size in the buffer. -/
structure BlockIn (place : Nat → Int) (buf : List UInt32) (from_ : Nat) (b : ValidBlock) :
    Prop where
  offSize : from_ < b.offSize
  offEnd : b.offEnd = b.offSize + 5 + listWords b.nodes
  inside : b.offEnd ≤ buf.length
  field : sizeField buf b.offSize = some (b.stored place)

structure Adds (place : Nat → Int) (s s' : SerializeMem) (words : Nat)
    (contents : List (List TdcpmNode)) : Prop where
  words : ∃ ws : List UInt32, ws.length = words ∧ s'.info.buf = s.info.buf ++ ws
  blocks : ∃ bs : List ValidBlock, s'.blocks = s.blocks ++ bs ∧ bs.map ValidBlock.nodes = contents ∧
    (bs.map ValidBlock.offSize).Nodup ∧ ∀ b ∈ bs, BlockIn place s'.info.buf s.info.buf.length b

theorem sizeField_append {buf more : List UInt32} {off : Nat} {x : UInt64}
    (h : sizeField buf off = some x) : sizeField (buf ++ more) off = some x := by
  obtain ⟨hi, hhi, h⟩ := Option.bind_eq_some_iff.mp h
  obtain ⟨lo, hlo, h⟩ := Option.bind_eq_some_iff.mp h
  have hat : ∀ {i : Nat} {w : UInt32}, buf[i]? = some w → (buf ++ more)[i]? = some w := by
    intro i w hw
    rw [List.getElem?_append_left (List.getElem?_eq_some_iff.mp hw).1]
    exact hw
  simp only [sizeField, hat hhi, hat hlo]
  exact h

theorem Adds.length {n : Nat} {contents : List (List TdcpmNode)} (h : Adds place s s1 n contents) :
    s1.info.buf.length = s.info.buf.length + n := by
  obtain ⟨ws, hlen, hbuf⟩ := h.words
  rw [hbuf, List.length_append, hlen]

theorem Adds.trans {n m : Nat} {cs ds : List (List TdcpmNode)} (h : Adds place s s1 n cs)
    (h' : Adds place s1 s2 m ds) : Adds place s s2 (n + m) (cs ++ ds) := by
  have hlen := h.length
  obtain ⟨ws, hws, hbuf⟩ := h.words
  obtain ⟨ws', hws', hbuf'⟩ := h'.words
  obtain ⟨bs, hbs, hmap, hnodup, hin⟩ := h.blocks
  obtain ⟨bs', hbs', hmap', hnodup', hin'⟩ := h'.blocks
  refine ⟨⟨ws ++ ws', by rw [List.length_append, hws, hws'], ?_⟩, bs ++ bs', ?_, ?_, ?_, ?_⟩
  · rw [hbuf', hbuf, List.append_assoc]
  · rw [hbs', hbs, List.append_assoc]
  · rw [List.map_append, hmap, hmap']
  · rw [List.map_append, List.nodup_append]
    refine ⟨hnodup, hnodup', ?_⟩
    intro a ha a' ha'
    obtain ⟨b, hb, rfl⟩ := List.mem_map.mp ha
    obtain ⟨b', hb', rfl⟩ := List.mem_map.mp ha'
    have h1 := (hin b hb).offEnd
    have h2 := (hin b hb).inside
    have h3 := (hin' b' hb').offSize
    omega
  · intro b hb
    rcases List.mem_append.mp hb with hb | hb
    · obtain ⟨h1, h2, h3, h4⟩ := hin b hb
      have hlen' := h'.length
      refine ⟨h1, h2, by omega, ?_⟩
      rw [hbuf']
      exact sizeField_append h4
    · obtain ⟨h1, h2, h3, h4⟩ := hin' b hb
      exact ⟨by omega, h2, h3, h4⟩

theorem put_buf {info info' : SerializeInfo} {words : Nat} {written : List UInt32}
    (h : info.put words written = some info') : info'.buf = info.buf ++ written := by
  obtain ⟨mid, hmid, h⟩ := Option.bind_eq_some_iff.mp h
  unfold SerializeInfo.allocWords at hmid
  split at hmid
  · cases hmid
    unfold SerializeInfo.commitWords at h
    split at h
    · cases h
      rfl
    · cases h
  · cases hmid

theorem reserving_adds {words n : Nat} {write : SerializeInfo → Option SerializeInfo}
    (h : s.reserving words write = some s1)
    (hwrite : ∀ info, write s.info = some info →
      ∃ ws : List UInt32, ws.length = n ∧ info.buf = s.info.buf ++ ws) :
    Adds place s s1 n [] := by
  obtain ⟨info, hinfo, heq⟩ := Option.map_eq_some_iff.mp h
  obtain ⟨ws, hlen, hbuf⟩ := hwrite info hinfo
  have hs : s1.info = info ∧ s1.blocks = s.blocks := by
    rw [← heq]
    split
    · exact ⟨rfl, rfl⟩
    · exact ⟨rfl, rfl⟩
  rw [← hs.1] at hbuf
  exact ⟨⟨ws, hlen, hbuf⟩, [], by rw [hs.2, List.append_nil], rfl, List.nodup_nil, by simp⟩

theorem named_adds {type : UInt32} {name : TdcpmVarName} (h : s.named type name = some s1) :
    Adds place s s1 (2 + name.length) [] := by
  refine reserving_adds h ?_
  intro info hinfo
  refine ⟨_, ?_, put_buf hinfo⟩
  simp only [tdcpmSerializeVarName, List.length_cons]
  omega

theorem count_adds {nodes : List TdcpmNode} (h : s.count nodes = some s1) :
    Adds place s s1 1 [] :=
  reserving_adds h fun _ hinfo => ⟨_, rfl, put_buf hinfo⟩

theorem vect_adds {items : List VectItem} {words : Nat}
    (h : s.reserving words (tdcpmSerializeVect items) = some s1) :
    Adds place s s1 (1 + 4 * items.length) [] := by
  refine reserving_adds h ?_
  intro info hinfo
  refine ⟨_, ?_, put_buf hinfo⟩
  rw [List.length_cons, length_vectLoop]
  omega

theorem table_adds {table : TdcpmNodeTable} {words : Nat}
    (h : s.reserving words (tdcpmSerializeTable table) = some s1) :
    Adds place s s1 (tableData table).length [] :=
  reserving_adds h fun _ hinfo => ⟨_, rfl, put_buf hinfo⟩

theorem sizeField_patch {info : SerializeInfo} {before ws : List UInt32} {t hi lo : UInt32}
    {size : UInt64} (h : info.buf = before ++ (t :: hi :: lo :: ws)) :
    sizeField (info.patch (before.length + 1) size).buf (before.length + 1) = some size := by
  rw [patch_head size h]
  have h1 : before.length + 1 - before.length = 1 := by omega
  have h2 : before.length + 1 + 1 - before.length = 2 := by omega
  simp only [sizeField, List.getElem?_append_right (Nat.le_add_right _ _),
    List.getElem?_append_right (show before.length ≤ before.length + 1 + 1 by omega), h1, h2]
  exact congrArg some (join_words size)

theorem sizeField_patch_later {info : SerializeInfo} {off b : Nat} {size : UInt64}
    (h : off + 1 < b) : sizeField (info.patch off size).buf b = sizeField info.buf b := by
  have h0 : ∀ i, off + 1 < i → (info.patch off size).buf[i]? = info.buf[i]? := by
    intro i hi
    simp only [SerializeInfo.patch]
    rw [List.getElem?_set_ne (by omega), List.getElem?_set_ne (by omega)]
  simp only [sizeField, h0 b h, h0 (b + 1) (by omega)]

theorem closeBlock_adds {start stop : UInt32} {nodes : List TdcpmNode} {cs : List (List TdcpmNode)}
    (h1 : s.reserving 5 (SerializeInfo.put 5 [tdcpmNodeTypeValid, 0, 0, start, stop]) = some s1)
    (h2 : Adds place s1 s2 (1 + listWords nodes) cs) :
    Adds place s (s2.closeBlock place nodes (s.info.buf.length + 1) s1.moves)
      (5 + (1 + listWords nodes)) (cs ++ [nodes]) := by
  have hlen2 := h2.length
  obtain ⟨info, hinfo, heq⟩ := Option.map_eq_some_iff.mp h1
  have hs : s1.info = info ∧ s1.blocks = s.blocks := by
    rw [← heq]
    split
    · exact ⟨rfl, rfl⟩
    · exact ⟨rfl, rfl⟩
  have hbuf1 := put_buf hinfo
  rw [← hs.1] at hbuf1
  have hlen1 : s1.info.buf.length = s.info.buf.length + 5 := by
    rw [hbuf1, List.length_append]
    rfl
  obtain ⟨ws, hws, hbuf⟩ := h2.words
  obtain ⟨bs, hbs, hmap, hnodup, hin⟩ := h2.blocks
  rw [hbuf1, List.append_assoc] at hbuf
  have hpatch := patch_head (sizeValidBlock place (s.info.buf.length + 1) s1.moves s2.moves) hbuf
  have hlen : (s2.info.patch (s.info.buf.length + 1)
      (sizeValidBlock place (s.info.buf.length + 1) s1.moves s2.moves)).buf.length =
      s2.info.buf.length := by
    simp [SerializeInfo.patch]
  refine ⟨⟨_, ?_, hpatch⟩, bs ++ [⟨nodes, s.info.buf.length + 1, s2.info.buf.length, s1.moves,
    s2.moves⟩], ?_, ?_, ?_, ?_⟩
  · change ws.length + 1 + 1 + 1 + 1 + 1 = _
    omega
  · rw [SerializeMem.closeBlock, hbs, hs.2, List.append_assoc]
  · rw [List.map_append, hmap]
    rfl
  · rw [List.map_append, List.nodup_append]
    refine ⟨hnodup, by simp, ?_⟩
    intro a ha a' ha'
    obtain ⟨b, hb, rfl⟩ := List.mem_map.mp ha
    have ha'' : a' = s.info.buf.length + 1 := by simpa using ha'
    have := (hin b hb).offSize
    omega
  · intro b hb
    rcases List.mem_append.mp hb with hb | hb
    · obtain ⟨h1, h2, h3, h4⟩ := hin b hb
      refine ⟨by omega, h2, by rw [SerializeMem.closeBlock, hlen]; exact h3, ?_⟩
      rw [SerializeMem.closeBlock, sizeField_patch_later (by omega)]
      exact h4
    · rw [List.mem_singleton.mp hb]
      refine ⟨by simp, ?_, by rw [SerializeMem.closeBlock, hlen], sizeField_patch hbuf⟩
      dsimp only
      omega

mutual

theorem serializeNodeMem_adds : (node : TdcpmNode) → (s s1 : SerializeMem) →
    serializeNodeMem place node s = some s1 →
      Adds place s s1 (nodeWords node) (validContents node)
  | .vect name items, s, s1, h => by
    obtain ⟨mid, hmid, h⟩ := Option.bind_eq_some_iff.mp h
    exact (named_adds hmid).trans (vect_adds h)
  | .table name table, s, s1, h => by
    obtain ⟨mid, hmid, h⟩ := Option.bind_eq_some_iff.mp h
    exact (named_adds hmid).trans (table_adds h)
  | .subNode name nodes, s, s1, h => by
    obtain ⟨mid, hmid, h⟩ := Option.bind_eq_some_iff.mp h
    obtain ⟨first, hfirst, hmid⟩ := Option.bind_eq_some_iff.mp hmid
    exact (named_adds hfirst).trans ((count_adds hmid).trans (serializeListMem_adds nodes _ _ h))
  | .valid start stop nodes, s, s1, h => by
    obtain ⟨first, hfirst, h⟩ := Option.bind_eq_some_iff.mp h
    obtain ⟨done, hdone, heq⟩ := Option.map_eq_some_iff.mp h
    obtain ⟨mid, hmid, hdone⟩ := Option.bind_eq_some_iff.mp hdone
    rw [← heq]
    exact closeBlock_adds hfirst ((count_adds hmid).trans (serializeListMem_adds nodes _ _ hdone))

theorem serializeListMem_adds : (nodes : List TdcpmNode) → (s s1 : SerializeMem) →
    serializeListMem place nodes s = some s1 →
      Adds place s s1 (listWords nodes) (listContents nodes)
  | [], s, s1, h => by
    cases h
    exact ⟨⟨[], rfl, by simp⟩, [], by simp, rfl, List.nodup_nil, by simp⟩
  | node :: nodes, s, s1, h => by
    obtain ⟨mid, hmid, h⟩ := Option.bind_eq_some_iff.mp h
    exact (serializeNodeMem_adds node _ _ hmid).trans (serializeListMem_adds nodes _ _ h)

end

theorem reserving_info {words : Nat} {write : SerializeInfo → Option SerializeInfo}
    (h : s.reserving words write = some s1) : write s.info = some s1.info := by
  obtain ⟨info, hinfo, heq⟩ := Option.map_eq_some_iff.mp h
  rw [hinfo, ← heq]
  split
  · rfl
  · rfl

/-- The sizes that a function of the offsets gives are those that were stored. -/
def Gives (blockSize : Nat → Nat → UInt64) (place : Nat → Int) (bs : List ValidBlock) : Prop :=
  ∀ b ∈ bs, blockSize b.offSize b.offEnd = b.stored place

theorem Gives.of_append {blockSize : Nat → Nat → UInt64} {bs more : List ValidBlock}
    (h : Gives blockSize place (bs ++ more)) : Gives blockSize place bs :=
  fun b hb => h b (List.mem_append_left _ hb)

theorem Adds.gives {n : Nat} {cs : List (List TdcpmNode)} (h : Adds place s s1 n cs)
    {blockSize : Nat → Nat → UInt64} (hg : Gives blockSize place s1.blocks) :
    Gives blockSize place s.blocks := by
  obtain ⟨bs, hbs, -⟩ := h.blocks
  rw [hbs] at hg
  exact hg.of_append

mutual

theorem serializeNodeMem_info {blockSize : Nat → Nat → UInt64} : (node : TdcpmNode) →
    (s s1 : SerializeMem) → serializeNodeMem place node s = some s1 →
      Gives blockSize place s1.blocks → tdcpmSerializeNode blockSize node s.info = some s1.info
  | .vect name items, s, s1, h, _ => by
    obtain ⟨mid, hmid, h⟩ := Option.bind_eq_some_iff.mp h
    exact Option.bind_eq_some_iff.mpr ⟨_, reserving_info hmid, reserving_info h⟩
  | .table name table, s, s1, h, _ => by
    obtain ⟨mid, hmid, h⟩ := Option.bind_eq_some_iff.mp h
    exact Option.bind_eq_some_iff.mpr ⟨_, reserving_info hmid, reserving_info h⟩
  | .subNode name nodes, s, s1, h, hg => by
    obtain ⟨mid, hmid, h⟩ := Option.bind_eq_some_iff.mp h
    obtain ⟨first, hfirst, hmid⟩ := Option.bind_eq_some_iff.mp hmid
    have hlist := serializeListMem_info nodes mid s1 h hg
    have hcount := Option.bind_eq_some_iff.mpr ⟨_, reserving_info hfirst, reserving_info hmid⟩
    exact Option.bind_eq_some_iff.mpr ⟨_, hcount, hlist⟩
  | .valid start stop nodes, s, s1, h, hg => by
    obtain ⟨first, hfirst, h⟩ := Option.bind_eq_some_iff.mp h
    obtain ⟨done, hdone, heq⟩ := Option.map_eq_some_iff.mp h
    obtain ⟨mid, hmid, hdone⟩ := Option.bind_eq_some_iff.mp hdone
    subst heq
    have hlist := serializeListMem_info nodes mid done hdone (Gives.of_append hg)
    have hcount := Option.bind_eq_some_iff.mpr ⟨_, reserving_info hfirst, reserving_info hmid⟩
    have hsize : blockSize (s.info.buf.length + 1) done.info.buf.length =
        sizeValidBlock place (s.info.buf.length + 1) first.moves done.moves :=
      hg ⟨nodes, _, _, _, _⟩ (by simp [SerializeMem.closeBlock])
    refine Option.map_eq_some_iff.mpr ⟨_, Option.bind_eq_some_iff.mpr ⟨_, hcount, hlist⟩, ?_⟩
    rw [hsize]
    rfl

theorem serializeListMem_info {blockSize : Nat → Nat → UInt64} : (nodes : List TdcpmNode) →
    (s s1 : SerializeMem) → serializeListMem place nodes s = some s1 →
      Gives blockSize place s1.blocks → serializeNodeList blockSize nodes s.info = some s1.info
  | [], s, s1, h, _ => by
    cases h
    rfl
  | node :: nodes, s, s1, h, hg => by
    obtain ⟨mid, hmid, h⟩ := Option.bind_eq_some_iff.mp h
    have hrest := serializeListMem_adds nodes mid s1 h
    have hnode := serializeNodeMem_info node s mid hmid (hrest.gives hg)
    exact Option.bind_eq_some_iff.mpr ⟨_, hnode, serializeListMem_info nodes mid s1 h hg⟩

end

theorem exists_gives {bs : List ValidBlock} (h : (bs.map ValidBlock.offSize).Nodup) :
    ∃ blockSize, Gives blockSize place bs := by
  refine ⟨fun off _ => ((bs.find? fun b => b.offSize = off).map (ValidBlock.stored place)).getD 0,
    ?_⟩
  intro b hb
  have hfind : (bs.find? fun c => c.offSize = b.offSize) = some b := by
    rw [List.find?_eq_some_iff_append]
    obtain ⟨before, after, hsplit⟩ := List.append_of_mem hb
    refine ⟨by simp, before, after, hsplit, ?_⟩
    intro c hc
    rw [hsplit, List.map_append, List.nodup_append] at h
    have hne := h.2.2 c.offSize (List.mem_map_of_mem hc) b.offSize (by simp)
    simpa using hne
  simp [hfind]

end Run

theorem serializeNodesMem_adds {place : Nat → Int} {nodes : List TdcpmNode} {s : SerializeMem}
    (h : serializeNodesMem place nodes .init = some s) :
    Adds place .init s (1 + listWords nodes) (listContents nodes) := by
  obtain ⟨mid, hmid, h⟩ := Option.bind_eq_some_iff.mp h
  exact (count_adds hmid).trans (serializeListMem_adds nodes _ _ h)

theorem ValidBlock.stored_eq_iff {place : Nat → Int} {b : ValidBlock}
    (h : b.offEnd = b.offSize + 5 + listWords b.nodes) :
    (b.stored place).toNat = b.offEnd - b.offSize ↔
      (place b.movesBefore - place b.movesAfter + 4) % 2 ^ 64 = 5 + listWords b.nodes := by
  have hsize : place b.movesBefore + ((b.offSize : Int) + 4) - place b.movesAfter - b.offSize =
      place b.movesBefore - place b.movesAfter + 4 := by ring
  have hlt : (place b.movesBefore - place b.movesAfter + 4) % 2 ^ 64 < 2 ^ 64 :=
    Int.emod_lt_of_pos _ (by decide)
  have hge : 0 ≤ (place b.movesBefore - place b.movesAfter + 4) % 2 ^ 64 :=
    Int.emod_nonneg _ (by decide)
  simp only [ValidBlock.stored, sizeValidBlock, hsize, UInt64.toNat_ofNat']
  omega

/-- In every run, wherever the buffer is put when it is reallocated: there is one block for each
valid range, and their sizes are right if and only if the buffer has moved so for each of them, which
it has not for a block during which it stayed where it was. -/
theorem valid_block_sizes (place : Nat → Int) (nodes : List TdcpmNode) (s : SerializeMem)
    (h : serializeNodesMem place nodes .init = some s) :
    s.blocks.map ValidBlock.nodes = listContents nodes ∧
      (∃ blockSize, tdcpmSerializeNodes blockSize nodes .init = some s.info) ∧
      ((∀ b ∈ s.blocks, ∃ size, sizeField s.info.buf b.offSize = some size ∧
          size.toNat = b.offEnd - b.offSize) ↔
        ∀ b ∈ s.blocks, (place b.movesBefore - place b.movesAfter + 4) % 2 ^ 64 =
          5 + listWords b.nodes) ∧
      ∀ b ∈ s.blocks, place b.movesBefore = place b.movesAfter →
        sizeField s.info.buf b.offSize = some 4 ∧ 5 ≤ b.offEnd - b.offSize := by
  obtain ⟨bs, hbs, hmap, hnodup, hin⟩ := (serializeNodesMem_adds h).blocks
  have hblocks : s.blocks = bs := hbs
  rw [hblocks]
  refine ⟨hmap, ?_, ?_, ?_⟩
  · obtain ⟨blockSize, hgives⟩ : ∃ blockSize, Gives blockSize place bs := exists_gives hnodup
    refine ⟨blockSize, ?_⟩
    obtain ⟨mid, hmid, h⟩ := Option.bind_eq_some_iff.mp h
    rw [← hblocks] at hgives
    have hlist := serializeListMem_info nodes mid s h hgives
    exact Option.bind_eq_some_iff.mpr ⟨_, reserving_info hmid, hlist⟩
  · refine forall_congr' fun b => forall_congr' fun hb => ?_
    rw [← ValidBlock.stored_eq_iff (hin b hb).offEnd, (hin b hb).field]
    constructor
    · rintro ⟨size, heq, hsize⟩
      rw [Option.some.inj heq]
      exact hsize
    · intro hsize
      exact ⟨_, rfl, hsize⟩
  · intro b hb hsame
    have hend := (hin b hb).offEnd
    refine ⟨?_, by omega⟩
    have hsize : place b.movesAfter + ((b.offSize : Int) + 4) - place b.movesAfter - b.offSize =
        4 := by ring
    rw [(hin b hb).field, ValidBlock.stored, sizeValidBlock, hsame]
    simp only [hsize]
    rfl

theorem growWords_of_le {reserve alloc : Nat} (h : reserve ≤ alloc) :
    growWords reserve alloc = alloc := by
  rw [growWords, if_neg (by omega)]

theorem count_init (nodes : List TdcpmNode) : SerializeMem.count nodes .init =
    some ⟨⟨[UInt32.ofNat nodes.length], 0, [(1, 1)]⟩, 0x1000, 1, []⟩ := by
  simp only [SerializeMem.count, SerializeMem.reserving]
  rw [growWords_of_le (by decide)]
  rfl

/-- A range with a vector and another range in it. -/
def nestedRanges : List TdcpmNode := [.valid 0 9 [.vect [5] [⟨7, 0, 0⟩], .valid 1 2 []]]

def nestedRangesDone : SerializeMem where
  info := ⟨[1, tdcpmNodeTypeValid, 0, 4, 0, 9, 2, tdcpmNodeTypeVect, 1, 5, 1, 0, 7, 0, 0,
    tdcpmNodeTypeValid, 0, 4, 1, 2, 0], 0, [(1, 1), (5, 5), (1, 1), (3, 3), (5, 5), (5, 5), (1, 1)]⟩
  alloc := 0x1000
  moves := 1
  blocks := [⟨[], 16, 21, 1, 1⟩, ⟨[.vect [5] [⟨7, 0, 0⟩], .valid 1 2 []], 2, 21, 1, 1⟩]

theorem nestedRanges_run :
    serializeNodesMem (fun _ => 0) nestedRanges .init = some nestedRangesDone := by
  rw [serializeNodesMem, count_init]
  simp [nestedRanges, nestedRangesDone, serializeListMem, serializeNodeMem, SerializeMem.reserving,
    SerializeMem.named, SerializeMem.count, SerializeInfo.put, serializeNamed,
    SerializeInfo.allocWords, SerializeInfo.commitWords, tdcpmSerializeVarNameSize,
    tdcpmSerializeVectSize, tdcpmSerializeVect, tdcpmSerializeVarName, tdcpmSerializeVectLoop,
    serializeItem, serializeUInt64, SerializeMem.closeBlock, SerializeInfo.patch, sizeValidBlock]
  decide

theorem valid_block_sizes_nested :
    nestedRangesDone.blocks.map ValidBlock.nodes = listContents nestedRanges ∧
      ∀ b ∈ nestedRangesDone.blocks, sizeField nestedRangesDone.info.buf b.offSize = some 4 := by
  obtain ⟨hmap, -, -, hsize⟩ := valid_block_sizes _ _ _ nestedRanges_run
  exact ⟨hmap, fun b hb => (hsize b hb rfl).1⟩

def emptyRangeDone : SerializeMem :=
  ⟨⟨[1, tdcpmNodeTypeValid, 0, 4, 0, 1, 0], 0, [(1, 1), (5, 5), (1, 1)]⟩, 0x1000, 1,
    [⟨[], 2, 7, 1, 1⟩]⟩

theorem emptyRange_run :
    serializeNodesMem (fun _ => 0) [.valid 0 1 []] .init = some emptyRangeDone := by
  rw [serializeNodesMem, count_init]
  rfl

theorem valid_block_size_wrong :
    serializeNodesMem (fun _ => 0) [.valid 0 1 []] .init = some emptyRangeDone ∧
      ∃ b ∈ emptyRangeDone.blocks, b.offEnd - b.offSize = 5 ∧
        sizeField emptyRangeDone.info.buf b.offSize = some 4 :=
  ⟨emptyRange_run, ⟨[], 2, 7, 1, 1⟩, by simp [emptyRangeDone], rfl, rfl⟩

end Ucesb
