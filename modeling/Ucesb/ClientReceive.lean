import Ucesb.Checks
import Ucesb.ShmRing

namespace Ucesb

inductive Errno
  | efault
  | einval
  | eproto
  | ebadmsg
  | eagain
  /-- any other, of `read` -/
  | read
deriving DecidableEq

structure FetchError where
  errno : Errno
  lastError : String
deriving DecidableEq

/-- Memory that is not there, or that is not for the purpose. -/
inductive FetchFault
  /-- the message after a failure to get one -/
  | missing
  | buffer
  | message
  | packList
  | mapList
  | struct
  | origArray
  | rawSwapped
  /-- what the decoder of packed events does -/
  | decode
  /-- the turns given to a loop are used up -/
  | endless
deriving DecidableEq

inductive FetchStop
  | failed (e : FetchError)
  | fault (f : FetchFault)
deriving DecidableEq

def frontWord : List UInt8 → Nat
  | b3 :: b2 :: b1 :: b0 :: _ =>
    b3.toNat * 2 ^ 24 + b2.toNat * 2 ^ 16 + b1.toNat * 2 ^ 8 + b0.toNat
  | _ => 0

def headerRequest (bytes : List UInt8) : Nat := frontWord bytes

def headerLength (bytes : List UInt8) : Nat := frontWord (bytes.drop 4)

/-- What a `read` comes to. It is given as much of the bytes as there is space for, the others are
for the next `read`. No bytes are the end. -/
inductive ReadResult
  | data (bytes : List UInt8)
  | interrupted
  | again
  | failed
deriving DecidableEq

/-- The buffer of the client from `_buf_used` on, and the connection. -/
structure Receive where
  alloc : Nat
  used : Nat
  pending : List UInt8
  script : List ReadResult
deriving DecidableEq

def Receive.filled (r : Receive) : Nat := r.used + r.pending.length

def Receive.Available (r : Receive) : Prop :=
  8 ≤ r.pending.length ∧ headerLength r.pending ≤ r.pending.length

instance (r : Receive) : Decidable r.Available := inferInstanceAs (Decidable (_ ∧ _))

def Receive.makeRoom (r : Receive) : Except FetchStop Receive :=
  if r.filled = r.alloc then
    if r.used = 0 then
      .error (.failed ⟨.ebadmsg, "Buffer completely full while receiving message."⟩)
    else .ok { r with used := 0 }
  else .ok r

def Receive.read (r : Receive) : Except FetchStop Receive :=
  match r.script with
  | .interrupted :: script => .ok { r with script := script }
  | .again :: _ => .error (.failed ⟨.eagain, "No more data yet, for non-blocking client."⟩)
  | .failed :: _ => .error (.failed ⟨.read, "Failure reading buffer data."⟩)
  | .data (b :: bytes) :: script =>
    -- with more in the buffer than its size what remains comes out as 2^64 and less
    if r.alloc < r.filled then .error (.fault .buffer)
    else if bytes.length + 1 ≤ r.alloc - r.filled then
      .ok { r with pending := r.pending ++ b :: bytes, script := script }
    else
      .ok { r with
        pending := r.pending ++ (b :: bytes).take (r.alloc - r.filled)
        script := .data ((b :: bytes).drop (r.alloc - r.filled)) :: script }
  | _ =>
    if r.pending = [] then .error (.failed ⟨.ebadmsg, "Out of data."⟩)
    else .error (.failed ⟨.ebadmsg, "Out of data while receiving message."⟩)

def receiveMessage : Nat → Receive → Except FetchStop Receive
  | 0, _ => .error (.fault .endless)
  | fuel + 1, r => do
    errorIf (8 ≤ r.pending.length ∧ r.alloc < r.used + 8) (.fault .buffer)
    if r.Available then return r
    else do
      let r ← r.makeRoom
      let r ← r.read
      receiveMessage fuel r

/-- No more calls of `read` than this are needed. -/
def readTurns : List ReadResult → Nat
  | [] => 1
  | .data bytes :: script => bytes.length + readTurns script + 1
  | _ :: script => readTurns script + 1

structure Message where
  request : Nat
  length : Nat
  body : List UInt8
deriving DecidableEq

def messageAt (bytes : List UInt8) : Message :=
  ⟨headerRequest bytes, headerLength bytes, (bytes.drop 8).take (headerLength bytes - 8)⟩

/-- Part of a message that is whole as far as `_buf_filled` tells can be outside of the buffer. That
counts as read. -/
def extDataPeekMessage (r : Receive) : Except FetchStop (Message × Receive) := do
  let r ← receiveMessage (readTurns r.script) r
  errorIf (headerRequest r.pending &&& externalWriterRequestHiMask ≠ externalWriterRequestHiMagic)
    (.failed ⟨.eproto, "Message request hi magic wrong."⟩)
  errorIf (headerLength r.pending &&& 3 ≠ 0) (.failed ⟨.eproto, "Message length unaligned."⟩)
  errorIf (r.alloc < r.used + headerLength r.pending) (.fault .buffer)
  return (messageAt r.pending, r)

def deliveredBytes : List ReadResult → List UInt8
  | .data (b :: bytes) :: script => b :: bytes ++ deliveredBytes script
  | .interrupted :: script => deliveredBytes script
  | _ => []

/-- What is to come. With more in the buffer than its size only that is left which is in the
buffer. -/
def Receive.stream (r : Receive) : List UInt8 :=
  if r.filled ≤ r.alloc then r.pending ++ deliveredBytes r.script
  else r.pending.take (r.alloc - r.used)

/-- A message that there is space for is there as a whole, and its header is right. -/
structure Arrived (alloc : Nat) (stream : List UInt8) : Prop where
  space : 8 ≤ alloc ∧ headerLength stream ≤ alloc
  whole : 8 ≤ stream.length ∧ headerLength stream ≤ stream.length
  magic : headerRequest stream &&& externalWriterRequestHiMask = externalWriterRequestHiMagic
  aligned : headerLength stream &&& 3 = 0

section Receive

variable {r r' : Receive} {bytes rest : List UInt8} {fuel : Nat}

theorem frontWord_lt (bytes : List UInt8) : frontWord bytes < 2 ^ 32 := by
  unfold frontWord
  split
  next b3 b2 b1 b0 _ =>
    have h3 := b3.toNat_lt
    have h2 := b2.toNat_lt
    have h1 := b1.toNat_lt
    have h0 := b0.toNat_lt
    omega
  next => decide

theorem frontWord_append (h : 4 ≤ bytes.length) : frontWord (bytes ++ rest) = frontWord bytes := by
  rcases bytes with _ | ⟨b3, _ | ⟨b2, _ | ⟨b1, _ | ⟨b0, bytes⟩⟩⟩⟩
  · cases h
  · simp at h
  · simp at h
  · simp at h
  · rfl

theorem headerLength_append (h : 8 ≤ bytes.length) :
    headerLength (bytes ++ rest) = headerLength bytes := by
  unfold headerLength
  rw [List.drop_append_of_le_length (by omega)]
  exact frontWord_append (by rw [List.length_drop]; omega)

theorem messageAt_append (h : 8 ≤ bytes.length) (hlength : headerLength bytes ≤ bytes.length) :
    messageAt (bytes ++ rest) = messageAt bytes := by
  unfold messageAt
  rw [headerLength_append h, headerRequest, headerRequest, frontWord_append (by omega),
    List.drop_append_of_le_length h,
    List.take_append_of_le_length (by rw [List.length_drop]; omega)]

theorem header_take {k : Nat} (hk : 8 ≤ k) (h : 8 ≤ bytes.length) :
    headerLength (bytes.take k) = headerLength bytes ∧
      headerRequest (bytes.take k) = headerRequest bytes := by
  have hlen : 8 ≤ (bytes.take k).length := by
    rw [List.length_take]
    omega
  have hsplit := List.take_append_drop k bytes
  constructor
  · conv_rhs => rw [← hsplit, headerLength_append hlen]
  · conv_rhs => rw [← hsplit, headerRequest, frontWord_append (by omega)]
    rfl

theorem stream_of_available (h : r.Available) (hbuf : r.used + 8 ≤ r.alloc) :
    headerLength r.stream = headerLength r.pending ∧
      headerRequest r.stream = headerRequest r.pending ∧ 8 ≤ r.stream.length ∧
      (headerLength r.pending ≤ r.stream.length ↔
        r.used + headerLength r.pending ≤ r.alloc) := by
  obtain ⟨hheader, hlength⟩ := h
  unfold Receive.stream
  split
  next hfits =>
    unfold Receive.filled at hfits
    rw [headerLength_append hheader, headerRequest, frontWord_append (by omega), List.length_append]
    exact ⟨rfl, rfl, by omega, iff_of_true (by omega) (by omega)⟩
  next hfits =>
    obtain ⟨hl, hr⟩ := @header_take r.pending (r.alloc - r.used) (by omega) hheader
    rw [hl, hr, List.length_take]
    refine ⟨rfl, rfl, by omega, ?_⟩
    constructor <;> intro h <;> omega

theorem not_arrived (h : ¬r.Available) (hdone : r.filled ≤ r.alloc → deliveredBytes r.script = []) :
    ¬Arrived r.alloc r.stream := by
  rintro ⟨-, ⟨hheader, hlength⟩, -, -⟩
  apply h
  unfold Receive.stream at hheader hlength
  split at hheader
  next hfits =>
    rw [if_pos hfits, hdone hfits, List.append_nil] at hlength
    rw [hdone hfits, List.append_nil] at hheader
    exact ⟨hheader, hlength⟩
  next hfits =>
    rw [if_neg hfits] at hlength
    rw [List.length_take] at hheader hlength
    rw [(@header_take r.pending (r.alloc - r.used) (by omega) (by omega)).1] at hlength
    exact ⟨by omega, by omega⟩

theorem receiveRoom_ends (h : ¬r.Available) :
    Ends (fun _ => ¬Arrived r.alloc r.stream)
      (fun r' => r'.alloc = r.alloc ∧ r'.pending = r.pending ∧ r'.script = r.script ∧
        r'.stream = r.stream ∧ r'.filled ≠ r'.alloc)
      r.makeRoom := by
  unfold Receive.makeRoom
  split
  next hfull =>
    unfold Receive.filled at hfull
    split
    next hused =>
      rintro ⟨⟨h8, hspace⟩, ⟨hheader, hlength⟩, -, -⟩
      have hpending : 8 ≤ r.pending.length := by omega
      have hstream : r.stream = r.pending ++ deliveredBytes r.script := if_pos (Nat.le_of_eq hfull)
      rw [hstream, headerLength_append hpending] at hspace
      exact h ⟨hpending, by omega⟩
    next hused =>
      refine ⟨rfl, rfl, rfl, ?_, ?_⟩
      · unfold Receive.stream Receive.filled
        rw [if_pos (by dsimp only; omega), if_pos (by omega)]
      · unfold Receive.filled
        dsimp only
        omega
  next hfull => exact ⟨rfl, rfl, rfl, rfl, hfull⟩

theorem receiveRead_ends (h : ¬r.Available) (hroom : r.filled ≠ r.alloc) :
    Ends (fun _ => ¬Arrived r.alloc r.stream)
      (fun r' => r'.alloc = r.alloc ∧ r'.stream = r.stream ∧
        readTurns r'.script < readTurns r.script)
      r.read := by
  unfold Receive.read
  split
  next script hscript =>
    refine ⟨rfl, ?_, ?_⟩
    · unfold Receive.stream Receive.filled
      rw [hscript, deliveredBytes]
    · rw [hscript, readTurns]
      · exact Nat.lt_succ_self _
      · simp
  next hscript => exact not_arrived h fun _ => by rw [hscript, deliveredBytes] <;> simp
  next hscript => exact not_arrived h fun _ => by rw [hscript, deliveredBytes] <;> simp
  next b bytes script hscript =>
    split
    next hfits => exact not_arrived h fun hfits' => absurd hfits' (Nat.not_le.mpr hfits)
    next hfits =>
      have hstream : r.stream = r.pending ++ (b :: bytes ++ deliveredBytes script) := by
        unfold Receive.stream
        rw [if_pos (Nat.not_lt.mp hfits), hscript, deliveredBytes]
      unfold Receive.filled at hfits hroom ⊢
      split
      next hall =>
        refine ⟨rfl, ?_, ?_⟩
        · rw [hstream, Receive.stream, if_pos (by
            simp only [Receive.filled, List.length_append, List.length_cons]
            omega), List.append_assoc]
        · rw [hscript]
          simp only [readTurns, List.length_cons]
          omega
      next hall =>
        have hlength : ((b :: bytes).take (r.alloc - (r.used + r.pending.length))).length =
            r.alloc - (r.used + r.pending.length) := by
          rw [List.length_take, List.length_cons]
          omega
        obtain ⟨c, later, hlater⟩ := List.exists_cons_of_ne_nil
          (l := (b :: bytes).drop (r.alloc - (r.used + r.pending.length))) (by
            rw [ne_eq, List.drop_eq_nil_iff, List.length_cons]
            omega)
        refine ⟨rfl, ?_, ?_⟩
        · rw [hstream, Receive.stream, if_pos (by
            simp only [Receive.filled, List.length_append, hlength]
            omega)]
          dsimp only
          rw [hlater, deliveredBytes, ← hlater, List.append_assoc,
            ← List.append_assoc ((b :: bytes).take _), List.take_append_drop]
        · rw [hscript]
          simp only [readTurns, List.length_drop, List.length_cons]
          omega
  next hinterrupted hagain hfailed hdata =>
    have hnone : deliveredBytes r.script = [] := by
      unfold deliveredBytes
      split
      next b bytes script hscript => exact absurd hscript (hdata b bytes script)
      next script hscript => exact absurd hscript (hinterrupted script)
      next => rfl
    split <;> exact not_arrived h fun _ => hnone

theorem receiveMessage_ends (hfuel : readTurns r.script ≤ fuel) :
    Ends (fun _ => ¬Arrived r.alloc r.stream)
      (fun r' => r'.alloc = r.alloc ∧ r'.stream = r.stream ∧ r'.Available ∧
        r'.used + 8 ≤ r'.alloc)
      (receiveMessage fuel r) := by
  induction fuel generalizing r with
  | zero =>
    have hpos : 0 < readTurns r.script := by
      cases r.script with
      | nil => exact Nat.one_pos
      | cons x script => cases x <;> exact Nat.succ_pos _
    omega
  | succ fuel ih =>
    unfold receiveMessage
    refine ends_bind (ends_errorIf ?_) fun _ hbuf => ?_
    · rintro ⟨hheader, hbuf⟩ ⟨-, ⟨hlength, -⟩, -, -⟩
      rw [Receive.stream, if_neg (by unfold Receive.filled; omega), List.length_take] at hlength
      omega
    split
    next havail => exact ⟨rfl, rfl, havail, by have := havail.1; omega⟩
    next havail =>
      refine ends_bind (receiveRoom_ends havail) fun r1 hr1 => ?_
      obtain ⟨halloc1, hpending1, hscript1, hstream1, hroom1⟩ := hr1
      have havail1 : ¬r1.Available := by
        unfold Receive.Available
        rw [hpending1]
        exact havail
      have hread := receiveRead_ends havail1 hroom1
      rw [halloc1, hstream1, hscript1] at hread
      refine ends_bind hread fun r2 hr2 => ?_
      obtain ⟨halloc2, hstream2, hturns2⟩ := hr2
      have hrest := @ih r2 (by omega)
      rw [halloc2, hstream2] at hrest
      exact hrest

theorem extDataPeekMessage_ends (r : Receive) :
    Ends (fun _ => ¬Arrived r.alloc r.stream)
      (fun x => Arrived r.alloc r.stream ∧ x.1 = messageAt r.stream ∧ x.2.alloc = r.alloc ∧
        x.2.stream = r.stream ∧ x.2.Available ∧ x.2.used + x.1.length ≤ x.2.alloc)
      (extDataPeekMessage r) := by
  unfold extDataPeekMessage
  refine ends_bind (receiveMessage_ends (Nat.le_refl _)) fun r' hr' => ?_
  obtain ⟨halloc, hstream, havail, hbuf⟩ := hr'
  obtain ⟨hlength, hrequest, hheader, hwhole⟩ := stream_of_available havail hbuf
  rw [hstream] at hlength hrequest hheader hwhole
  refine ends_bind (ends_errorIf fun h harr => h (by rw [← hrequest]; exact harr.magic))
    fun _ hmagic => ?_
  refine ends_bind (ends_errorIf fun h harr => h (by rw [← hlength]; exact harr.aligned))
    fun _ haligned => ?_
  refine ends_bind (ends_errorIf ?_) fun _ hin => ?_
  · intro h harr
    have hle := hwhole.mp (by rw [← hlength]; exact harr.whole.2)
    omega
  have hle := hwhole.mpr (by omega)
  have harr : Arrived r.alloc r.stream := by
    refine ⟨⟨by omega, by omega⟩, ⟨hheader, by omega⟩, ?_, ?_⟩
    · rw [hrequest]
      exact not_not.mp hmagic
    · rw [hlength]
      exact not_not.mp haligned
  have hinside : r'.used + headerLength r'.pending ≤ r'.alloc := by omega
  refine ⟨harr, ?_, halloc, hstream, havail, hinside⟩
  dsimp only
  rw [← hstream]
  obtain ⟨h8, havail⟩ := havail
  unfold Receive.stream
  split
  · exact (messageAt_append h8 havail).symm
  · have hlen : ∀ n ≤ r'.alloc - r'.used, n ≤ r'.pending.length →
        n ≤ (r'.pending.take (r'.alloc - r'.used)).length := by
      intro n h h'
      rw [List.length_take]
      omega
    have hheader' := (@header_take r'.pending (r'.alloc - r'.used) (by omega) h8).1
    conv_lhs => rw [← List.take_append_drop (r'.alloc - r'.used) r'.pending]
    exact messageAt_append (hlen 8 (by omega) h8)
      (by rw [hheader']; exact hlen _ (by omega) havail)

end Receive

end Ucesb
