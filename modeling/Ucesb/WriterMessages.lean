import Ucesb.ClientWrite

namespace Ucesb

/-- Why staging an ntuple, or writing to it, stops. -/
inductive NtupleStop
  /-- an error that ends the program, or an assertion of a function called -/
  | other
  /-- an offsets or fill message is larger than the buffer -/
  | space
  /-- an assertion of `stage` or `send_offsets_fill` -/
  | assertion
deriving DecidableEq

/-- The buffer to the writer process, in shared memory or in front of a pipe. -/
structure WriterBuf where
  shm : Bool
  len : Nat
  pages : externalWriterMinSharedSize ∣ len
  bounds : externalWriterMinSharedSize ≤ len ∧ len < 2 ^ 32

def WriterBuf.size (b : WriterBuf) : Nat := if b.shm then b.len - shmControlSize else b.len

structure ExtWriter where
  buf : WriterBuf
  sortU32Words : Nat
  maxRawWords : Nat

section Arrange

/-- The size that `EXTERNAL_WRITER_SIZE_NTUPLE_FILL` stands for, which is taken in 32 bits. -/
def sizeNtupleFill (maxSize sortU32Words hasRaw rawWords : Nat) : Nat :=
  8 + (2 + sortU32Words + if hasRaw ≠ 0 then 1 + rawWords else 0) * 4 + maxSize

def wantedSize (size : Nat) : Nat :=
  (max (max size externalWriterMinSharedSize) 0x10000 * 4 % 2 ^ 32 +
    (externalWriterMinSharedSize - 1)) % 2 ^ 32 / externalWriterMinSharedSize *
      externalWriterMinSharedSize

theorem wantedSize_pages (size : Nat) : externalWriterMinSharedSize ∣ wantedSize size :=
  Nat.dvd_mul_left _ _

theorem wantedSize_lt (size : Nat) : wantedSize size < 2 ^ 32 := by
  unfold wantedSize
  exact Nat.lt_of_le_of_lt (Nat.div_mul_le_self _ _) (Nat.mod_lt _ (by decide))

theorem WriterBuf.size_ge (b : WriterBuf) : 16 ≤ b.size := by
  have hlen := b.bounds.1
  unfold WriterBuf.size
  unfold externalWriterMinSharedSize at hlen
  unfold shmControlSize
  split
  · omega
  · omega

theorem wantedSize_ge {size : Nat} {b : WriterBuf} (h : ¬wantedSize size < b.size) :
    externalWriterMinSharedSize ≤ wantedSize size := by
  have hsize := b.size_ge
  exact Nat.le_of_dvd (by omega) (wantedSize_pages size)

/-- The messages that were prepared are sent before the buffer is replaced. The message which tells
of that needs 16 bytes. -/
def setMaxMessageSize (w : ExtWriter) (size : Nat) : Except NtupleStop ExtWriter :=
  let size := sizeNtupleFill size w.sortU32Words w.maxRawWords w.maxRawWords % 2 ^ 32
  if h : wantedSize size < w.buf.size then .ok w
  else do
    errorIf (w.buf.size < 16) .other
    return { w with buf := ⟨w.buf.shm, wantedSize size, wantedSize_pages size, wantedSize_ge h,
      wantedSize_lt size⟩ }

def ExtWriter.arrangedSize (w : ExtWriter) (size : Nat) : Nat :=
  let size := wantedSize (sizeNtupleFill size w.sortU32Words w.maxRawWords w.maxRawWords % 2 ^ 32)
  if size < w.buf.size then w.buf.size else if w.buf.shm then size - shmControlSize else size

theorem setMaxMessageSize_ok (w : ExtWriter) (size : Nat) :
    ∃ w', setMaxMessageSize w size = .ok w' ∧ w'.buf.size = w.arrangedSize size ∧
      w'.sortU32Words = w.sortU32Words ∧ w'.maxRawWords = w.maxRawWords := by
  unfold setMaxMessageSize ExtWriter.arrangedSize
  dsimp only
  split
  · exact ⟨w, rfl, rfl, rfl, rfl⟩
  · exact ⟨_, errorIf_bind_ok.mpr ⟨Nat.not_lt.mpr w.buf.size_ge, rfl⟩, rfl, rfl, rfl⟩

theorem arrangedSize_ge {w : ExtWriter} {size space : Nat}
    (hlt : sizeNtupleFill size w.sortU32Words w.maxRawWords w.maxRawWords ≤ 2 ^ 30 - 1024)
    (hspace : space ≤ 2 * sizeNtupleFill size w.sortU32Words w.maxRawWords w.maxRawWords) :
    space ≤ w.arrangedSize size := by
  have hmod : sizeNtupleFill size w.sortU32Words w.maxRawWords w.maxRawWords % 2 ^ 32 =
      sizeNtupleFill size w.sortU32Words w.maxRawWords w.maxRawWords := Nat.mod_eq_of_lt (by omega)
  unfold ExtWriter.arrangedSize
  dsimp only
  rw [hmod]
  generalize sizeNtupleFill size w.sortU32Words w.maxRawWords w.maxRawWords = largest at *
  have hwanted : 4 * largest ≤ wantedSize largest ∧ 4 * 0x10000 ≤ wantedSize largest := by
    unfold wantedSize externalWriterMinSharedSize
    omega
  unfold shmControlSize
  split
  · omega
  · split
    · omega
    · omega

end Arrange

section Send

/-- `htonl` and `ntohl` of the host. -/
def hostToNet (bigEndian : Bool) (v : Nat) : Nat := if bigEndian then v else htonl v

/-- A message with its header as it is stored, and the bytes before what the caller fills. -/
structure PreparedMessage where
  space : Nat
  request : Nat
  length : Nat
  start : Nat

structure SentMessage where
  reserved : Nat
  written : Nat
  length : Nat
  committed : Nat

def prepareSendOffsets (bigEndian : Bool) (w : ExtWriter) (size : Nat) :
    Except NtupleStop PreparedMessage := do
  let space := (8 + 4 + size) % 2 ^ 32
  errorIf (w.buf.size < space) .space
  return { space := space
           request :=
             hostToNet bigEndian (externalWriterBufArrayOffsets ||| externalWriterRequestHiMagic)
           length := hostToNet bigEndian space
           start := 8 + 4 }

def ExtWriter.fillStart (w : ExtWriter) (rawWords : Nat) : Nat :=
  w.sortU32Words + 2 + if w.maxRawWords ≠ 0 then 1 + rawWords else 0

def prepareSendFillX (bigEndian : Bool) (w : ExtWriter) (size : Nat) (raw : Option Nat) :
    Except NtupleStop PreparedMessage := do
  let rawWords := raw.getD 0
  let space := sizeNtupleFill size w.sortU32Words w.maxRawWords rawWords % 2 ^ 32
  errorIf (w.buf.size < space) .space
  errorIf (w.maxRawWords ≠ 0 ∧ (w.maxRawWords < rawWords ∨ raw = none)) .other
  return { space := space
           request :=
             hostToNet bigEndian (externalWriterBufNtupleFill ||| externalWriterRequestHiMagic)
           length := hostToNet bigEndian space
           start := 8 + 4 * w.fillStart rawWords }

def sendOffsetsFill (bigEndian : Bool) (m : PreparedMessage) (words : Nat) :
    Except NtupleStop SentMessage := do
  let size := (m.start + 4 * words) % 2 ^ 32
  errorIf (m.request ≠
      hostToNet bigEndian (externalWriterBufArrayOffsets ||| externalWriterRequestHiMagic) ∧
    m.request ≠
      hostToNet bigEndian (externalWriterBufNtupleFill ||| externalWriterRequestHiMagic)) .assertion
  -- The header is in network byte order.
  errorIf (m.length < size) .assertion
  return ⟨m.space, m.start + 4 * words, hostToNet bigEndian size, size⟩

theorem htonl_bytes {a b c d : Nat} (ha : a < 256) (hb : b < 256) (hc : c < 256) (hd : d < 256) :
    htonl (a + b * 2 ^ 8 + c * 2 ^ 16 + d * 2 ^ 24) =
      d + c * 2 ^ 8 + b * 2 ^ 16 + a * 2 ^ 24 := by
  have h0 : (a + b * 2 ^ 8 + c * 2 ^ 16 + d * 2 ^ 24) % 256 = a := by omega
  have h1 : (a + b * 2 ^ 8 + c * 2 ^ 16 + d * 2 ^ 24) / 2 ^ 8 % 256 = b := by omega
  have h2 : (a + b * 2 ^ 8 + c * 2 ^ 16 + d * 2 ^ 24) / 2 ^ 16 % 256 = c := by omega
  have h3 : (a + b * 2 ^ 8 + c * 2 ^ 16 + d * 2 ^ 24) / 2 ^ 24 % 256 = d := by omega
  rw [htonl, h0, h1, h2, h3]
  omega

theorem htonl_htonl {v : Nat} (h : v < 2 ^ 32) : htonl (htonl v) = v := by
  obtain ⟨a, b, c, d, ha, hb, hc, hd, rfl⟩ : ∃ a b c d, a < 256 ∧ b < 256 ∧ c < 256 ∧ d < 256 ∧
      v = a + b * 2 ^ 8 + c * 2 ^ 16 + d * 2 ^ 24 :=
    ⟨v % 256, v / 2 ^ 8 % 256, v / 2 ^ 16 % 256, v / 2 ^ 24, by omega⟩
  rw [htonl_bytes ha hb hc hd, htonl_bytes hd hc hb ha]

theorem hostToNet_hostToNet {bigEndian : Bool} {v : Nat} (h : v < 2 ^ 32) :
    hostToNet bigEndian (hostToNet bigEndian v) = v := by
  unfold hostToNet
  split
  · rfl
  · exact htonl_htonl h

/-- A message is right: it fits the buffer, no more was written than reserved, and its header has
the length that was committed. -/
structure SentMessage.Right (bigEndian : Bool) (w : ExtWriter) (m : SentMessage) : Prop where
  fits : m.reserved ≤ w.buf.size
  enough : m.written ≤ m.reserved
  length : hostToNet bigEndian m.length = m.committed
  committed : m.committed = m.written

/-- A message is right, or there is none as the program ended with an error. -/
def MessageRight (bigEndian : Bool) (w : ExtWriter) : Except NtupleStop SentMessage → Prop :=
  Ends (· = .other) (SentMessage.Right bigEndian w)

/-- The length as the header has it does not make the assertion fail for a size. -/
def LengthPasses (bigEndian : Bool) (space size : Nat) : Prop :=
  bigEndian = true ∨ size ≤ htonl space

theorem send_right_iff {bigEndian : Bool} {w : ExtWriter} {m : PreparedMessage} {words : Nat}
    (hfits : m.space ≤ w.buf.size) (hspace : m.space < 2 ^ 32)
    (hrequest : m.request =
        hostToNet bigEndian (externalWriterBufArrayOffsets ||| externalWriterRequestHiMagic) ∨
      m.request =
        hostToNet bigEndian (externalWriterBufNtupleFill ||| externalWriterRequestHiMagic))
    (hlength : m.length = hostToNet bigEndian m.space) :
    MessageRight bigEndian w (sendOffsetsFill bigEndian m words) ↔
      m.start + 4 * words ≤ m.space ∧ LengthPasses bigEndian m.space (m.start + 4 * words) := by
  have hpasses : ∀ size ≤ m.space, LengthPasses bigEndian m.space size ↔ size ≤ m.length := by
    intro size hsize
    rw [hlength, LengthPasses, hostToNet]
    cases bigEndian with
    | true => simpa using hsize
    | false => simp
  rw [MessageRight, ends_iff]
  constructor
  · rintro ⟨hok, herror⟩
    by_cases hshort : m.length < (m.start + 4 * words) % 2 ^ 32
    · -- The assertion fails, which is not an error that is passed on.
      have hstop := herror .assertion (bind_eq_error.mpr (.inr ⟨(), errorIf_eq_ok.mpr ?_,
        bind_eq_error.mpr (.inl (errorIf_eq_error.mpr ⟨hshort, rfl⟩))⟩))
      · cases hstop
      · rintro ⟨h1, h2⟩
        exact hrequest.elim h1 h2
    · have hright := hok _ (errorIf_bind_ok.mpr ⟨fun h => hrequest.elim h.1 h.2,
        errorIf_bind_ok.mpr ⟨hshort, rfl⟩⟩)
      have henough : m.start + 4 * words ≤ m.space := hright.enough
      rw [Nat.mod_eq_of_lt (by omega)] at hshort
      exact ⟨henough, (hpasses _ henough).mpr (Nat.not_lt.mp hshort)⟩
  · rintro ⟨henough, hlen⟩
    have hle := (hpasses _ henough).mp hlen
    have hmod : (m.start + 4 * words) % 2 ^ 32 = m.start + 4 * words := Nat.mod_eq_of_lt (by omega)
    have hsend : sendOffsetsFill bigEndian m words = .ok ⟨m.space, m.start + 4 * words,
        hostToNet bigEndian (m.start + 4 * words), m.start + 4 * words⟩ := by
      refine errorIf_bind_ok.mpr ⟨fun h => hrequest.elim h.1 h.2, ?_⟩
      rw [hmod]
      exact errorIf_bind_ok.mpr ⟨Nat.not_lt.mpr hle, rfl⟩
    rw [hsend]
    refine ⟨?_, nofun⟩
    intro sent h
    cases h
    exact ⟨hfits, henough, hostToNet_hostToNet (by omega), rfl⟩

end Send

end Ucesb
