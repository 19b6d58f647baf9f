import Mathlib.Data.Nat.Bitwise

namespace Ucesb

inductive WordSize
  | w8
  | w16
  | w32
  | w64
deriving DecidableEq

def WordSize.bits : WordSize → Nat
  | .w8 => 8
  | .w16 => 16
  | .w32 => 32
  | .w64 => 64

def WordSize.bytes (size : WordSize) : Nat := size.bits / 8

def WordSize.align : WordSize → Nat
  | .w64 => 4
  | size => size.bytes

abbrev Lookup := String → Nat

/-- A constant (also as a constant expression), a name, or another expression that is known only when
the generated code runs. -/
inductive Variable
  | const (value : BitVec 32)
  | name (s : String)
  | run (value : Lookup → Nat)

def Variable.value : Variable → Lookup → Nat
  | .const value, _ => value.toNat
  | .name s, names => names s
  | .run value, names => value names

/-- What can be evaluated by the generator, of the arguments those that are constant. -/
def Variable.eval (args : List (String × Variable)) : Variable → Option (BitVec 32)
  | .const value => some value
  | .name s =>
    match (args.find? fun x => x.1 == s).map Prod.snd with
    | some (.const value) => some value
    | _ => none
  | .run _ => none

/-- `CHECK` and `MATCH`, `RANGE`, and `CHECK_COUNT` of the bytes between two marks. -/
inductive BitsCondition
  | check (check : Variable)
  | range (min max : Variable)
  | checkCount (start stop : String) (offset multiplier : Variable)

structure BitsSpec where
  min : Nat
  max : Nat
  cond : Option BitsCondition
  ordered : min ≤ max

/-- `SD_FLAGS_OPTIONAL` and `SD_FLAGS_SEVERAL` -/
inductive Presence
  | required
  | optional
  | several
deriving DecidableEq

/-- A data word. What is to be encoded with it can be stored, or not. A word that can be there
several times is not stored itself. -/
structure StructData where
  size : WordSize
  ident : String
  noencode : Bool
  presence : Presence
  bits : Option (List BitsSpec)
  encode : Lookup → Bool
  several : presence = .several → noencode = true

inductive StructItem
  | data (data : StructData)
  | decl (name : String) (args : List (String × Variable)) (body : List StructItem)
  | list (index : String) (min max : Variable) (items : List StructItem)
  | cond (expr : Variable) (items : List StructItem) (itemsElse : Option (List StructItem))
  | member
  | mark (name : String)
  | checkCount (var : Variable) (start stop : String) (offset multiplier : Variable)
  | encode (stored : Lookup → Bool)
  | matchEnd

abbrev Memory := Nat → WordSize → Nat

structure DataSrc where
  data : Nat
  stop : Nat
deriving DecidableEq

def DataSrc.empty (src : DataSrc) : Bool := src.data == src.stop

/-- `get_uint8` to `get_uint64`; nothing where the word is outside or unaligned. -/
def DataSrc.get (mem : Memory) (src : DataSrc) (size : WordSize) : Option (Nat × DataSrc) :=
  if src.stop < src.data + size.bytes ∨ (src.data + size.bytes) % size.align ≠ 0 then none
  else some (mem src.data size % 2 ^ size.bits, { src with data := src.data + size.bytes })

/-- `peek_uint8` to `peek_uint64` -/
def DataSrc.peek (mem : Memory) (src : DataSrc) (size : WordSize) : Option Nat :=
  if src.stop < src.data + size.bytes ∨ src.data % size.align ≠ 0 then none
  else some (mem src.data size % 2 ^ size.bits)

theorem DataSrc.peek_eq (mem : Memory) (src : DataSrc) (size : WordSize) :
    src.peek mem size = (src.get mem size).map Prod.fst := by
  have halign : (src.data + size.bytes) % size.align = src.data % size.align := by
    cases size
    · exact Nat.add_mod_right src.data 1
    · exact Nat.add_mod_right src.data 2
    · exact Nat.add_mod_right src.data 4
    · exact Nat.add_mul_mod_self_left src.data 4 2
  unfold DataSrc.peek DataSrc.get
  rw [halign]
  split
  · rfl
  · rfl

/-- The variables of a generated function: those of its blocks, and the members. -/
structure Env where
  locals : List (String × Nat)
  members : List (String × Nat)
deriving DecidableEq

def Env.lookup (env : Env) : Lookup :=
  fun name => (((env.locals ++ env.members).find? fun x => x.1 == name).map Prod.snd).getD 0

structure GenState where
  src : DataSrc
  env : Env
  marks : List (String × Nat)
  word : Nat
deriving DecidableEq

def GenState.bind (st : GenState) (d : StructData) (w : Nat) : GenState :=
  { st with
    env :=
      if d.noencode then { st.env with locals := (d.ident, w) :: st.env.locals }
      else { st.env with members := (d.ident, w) :: st.env.members } }

def GenState.read (st : GenState) (d : StructData) (w : Nat) (src : DataSrc) : GenState :=
  { st with src := src, word := w }.bind d w

/-- A word has been looked at; what is to be encoded goes into a temporary first. -/
def GenState.see (st : GenState) (d : StructData) (w : Nat) : GenState :=
  if d.noencode then { st with word := w }.bind d w else { st with word := w }

def GenState.take (st : GenState) (d : StructData) : GenState :=
  let st := { st with src := { st.src with data := st.src.data + d.size.bytes } }
  if d.noencode then st else st.bind d st.word

def GenState.leave (st : GenState) (block : GenState) : GenState :=
  { block with env := { block.env with locals := st.env.locals }, marks := st.marks }

/-- `CHECK`, `MATCH` and `CHECK_JUMP`: what happens where a condition is not met. -/
inductive CheckPrefix
  | check
  | matching
  | checkJump
deriving DecidableEq

def numBitsMask (bits : Nat) : Nat := 2 ^ bits - 1

def BitsSpec.field (b : BitsSpec) (w : Nat) : Nat := w / 2 ^ b.min % 2 ^ (b.max + 1 - b.min)

/-- The distance in bytes, as a `size_t`. -/
def markDistance (st : GenState) (start stop : String) (offset : Variable) : Nat :=
  let mark := fun name => ((st.marks.find? fun x => x.1 == name).map Prod.snd).getD 0
  (mark stop + (2 ^ 64 - mark start) + offset.value st.env.lookup) % 2 ^ 64

/-- `_BITS_EQUAL`, `_BITS_RANGE` and `_WORD_COUNT`, the latter with the prefix `CHECK` only. -/
def BitsCondition.holds (k : CheckPrefix) (st : GenState) (v : Nat) : BitsCondition → Bool
  | .check x => v == x.value st.env.lookup
  | .range low high =>
    !(decide (v < low.value st.env.lookup) || decide (high.value st.env.lookup < v))
  | .checkCount start stop offset multiplier =>
    k != .check ||
      v * multiplier.value st.env.lookup % 2 ^ 64 == markDistance st start stop offset

def unnamedBits (width : Nat) (size : WordSize) (bits : List BitsSpec) : Nat :=
  bits.foldl
    (fun m b => m &&& (numBitsMask width ^^^ (numBitsMask (b.max + 1) ^^^ numBitsMask b.min)))
    (numBitsMask size.bits)

def StructData.fits (d : StructData) (k : CheckPrefix) (st : GenState) : Bool :=
  match d.bits with
  | none => true
  | some bits =>
    (bits.all fun b => b.cond.all fun c => c.holds k st (b.field st.word)) &&
      st.word &&& unnamedBits 64 d.size bits == 0

end Ucesb
