import Ucesb.PipeFraming

namespace Ucesb

theorem netWord_append {a : List UInt8} (h : 4 ≤ a.length) (b : List UInt8) :
    netWord (a ++ b) = netWord a := by
  unfold netWord
  rw [List.take_append_of_le_length h]

theorem netWord_lt (bytes : List UInt8) : netWord bytes < 2 ^ 32 := rd32_lt _

theorem readCells_drop {α : Type} (mem : Nat → α) (start : Nat) {n k : Nat} (h : k ≤ n) :
    (readCells mem start n).drop k = readCells mem (start + k) (n - k) := by
  rw [show n = k + (n - k) by omega, readCells_split, List.drop_left' (readCells_length _ _ _),
    Nat.add_sub_cancel_left]

theorem readCells_take {α : Type} (mem : Nat → α) (start : Nat) {n k : Nat} (h : k ≤ n) :
    (readCells mem start n).take k = readCells mem start k := by
  rw [show n = k + (n - k) by omega, readCells_split, List.take_left' (readCells_length _ _ _)]

structure PipeIn.Valid (p : PipeIn) : Prop where
  cur_le : p.cur ≤ p.readEnd
  readEnd_le : p.readEnd ≤ p.size
  size_ge : externalWriterMinSharedSize ≤ p.size

section Buffer

variable {p : PipeIn}

theorem PipeIn.avail_length (p : PipeIn) : p.avail.length = p.readEnd - p.cur :=
  readCells_length _ _ _

theorem PipeIn.word_eq {k : Nat} {input bytes : List UInt8} (h : p.avail ++ input = bytes)
    (hk : k + 4 ≤ p.avail.length) : p.word (p.cur + k) = netWord (bytes.drop k) := by
  rw [← h, List.drop_append_of_le_length (by omega), netWord_append (by
    rw [List.length_drop]
    omega)]
  rw [PipeIn.avail_length] at hk
  unfold PipeIn.word PipeIn.avail netWord
  rw [readCells_drop _ _ (by omega), readCells_take _ _ (by omega), readCells_take _ _ (by omega)]

theorem PipeIn.message_eq {m rest input : List UInt8} (h : p.avail ++ input = m ++ rest)
    (hm : m.length ≤ p.avail.length) : p.message m.length = m := by
  have htake : p.avail.take m.length = m := by
    have htake := congrArg (List.take m.length) h
    rwa [List.take_append_of_le_length hm, List.take_left] at htake
  rw [PipeIn.avail_length] at hm
  refine Eq.trans ?_ htake
  exact (readCells_take _ _ hm).symm

theorem PipeIn.Valid.append (h : p.Valid) {bytes : List UInt8}
    (hroom : bytes.length ≤ p.size - p.readEnd) :
    (p.append bytes).Valid ∧ (p.append bytes).avail = p.avail ++ bytes := by
  have hcur := h.cur_le
  have hend := h.readEnd_le
  refine ⟨⟨?_, ?_, h.size_ge⟩, ?_⟩
  · unfold PipeIn.append
    dsimp only
    omega
  · unfold PipeIn.append
    dsimp only
    omega
  · exact readCells_write_append hcur

theorem PipeIn.Valid.makeRoom (h : p.Valid) {p' : PipeIn} (hroom : p.makeRoom = .ok p') :
    p'.Valid ∧ p'.size = p.size ∧ p'.avail = p.avail ∧ p'.readEnd < p'.size := by
  have hcur := h.cur_le
  have hend := h.readEnd_le
  have hsize := h.size_ge
  unfold PipeIn.makeRoom at hroom
  split at hroom
  · next hfull =>
    split at hroom
    · cases hroom
    · next hmove =>
      have hstart : p.moveStart ≤ p.cur := by
        unfold PipeIn.moveStart
        have hmod := Nat.mod_le p.cur 0x1000
        split
        · exact hmod
        · exact Nat.zero_le _
      cases hroom
      refine ⟨⟨?_, ?_, hsize⟩, rfl, ?_, ?_⟩
      · exact Nat.le_add_right _ _
      · dsimp only [PipeIn.moveTo]
        omega
      · have hlen := readCells_length p.mem p.cur (p.readEnd - p.cur)
        have hwrite := readCells_write p.mem p.moveStart (readCells p.mem p.cur (p.readEnd - p.cur))
        rw [hlen] at hwrite
        unfold PipeIn.moveTo PipeIn.avail
        rwa [Nat.add_sub_cancel_left]
      · dsimp only [PipeIn.moveTo]
        omega
  · cases hroom
    exact ⟨h, rfl, rfl, by omega⟩

theorem PipeIn.Valid.has_room (h : p.Valid) (hfits : p.avail.length < pipeLimit p.size) :
    ∃ p', p.makeRoom = .ok p' := by
  have hcur := h.cur_le
  have hsize := h.size_ge
  rw [PipeIn.avail_length] at hfits
  unfold pipeLimit at hfits
  unfold PipeIn.makeRoom
  split
  · next hfull =>
    have hstart : p.moveStart < p.cur := by
      unfold PipeIn.moveStart
      have hmod := Nat.mod_lt p.cur (show 0 < 0x1000 by decide)
      split
      · next hpages =>
        rw [if_pos hpages] at hfits
        omega
      · next hpages =>
        rw [if_neg hpages] at hfits
        omega
    rw [if_neg (by omega)]
    exact ⟨_, rfl⟩
  · exact ⟨p, rfl⟩

theorem PipeIn.Valid.limit_ge (h : p.Valid) : 8 ≤ pipeLimit p.size := by
  have hsize := h.size_ge
  unfold externalWriterMinSharedSize at hsize
  unfold pipeLimit
  split
  · omega
  · omega

theorem PipeIn.hasFullMessage_eq {m rest input : List UInt8} (h : p.avail ++ input = m ++ rest)
    (hheader : bufHeaderSize ≤ m.length) (haligned : m.length % 4 = 0)
    (hlength : netWord (m.drop 4) = m.length) :
    p.hasFullMessage = .ok (if m.length ≤ p.avail.length then m.length else 0) := by
  unfold bufHeaderSize at hheader
  unfold PipeIn.hasFullMessage
  rw [← PipeIn.avail_length]
  split
  · next hshort =>
    unfold bufHeaderSize at hshort
    rw [if_neg (by omega)]
  · next hshort =>
    unfold bufHeaderSize at hshort
    have hword : p.word (p.cur + 4) = m.length := by
      rw [PipeIn.word_eq h (by omega), List.drop_append_of_le_length (by omega), netWord_append (by
        rw [List.length_drop]
        omega), hlength]
    rw [hword, if_neg (by omega)]
    split
    · rfl
    · rfl

theorem PipeIn.Valid.handleRequest (h : p.Valid) {m rest input : List UInt8}
    (hbytes : p.avail ++ input = m ++ rest) (hm : messageOk p.size m = true)
    (hfull : m.length ≤ p.avail.length) :
    ∃ p', p.handleRequest m.length = .ok p' ∧ p'.Valid ∧ p'.size = sizeAfter p.size m ∧
      p'.avail ++ input = rest ∧ p'.avail.length + m.length = p.avail.length := by
  obtain ⟨hheader, -, hlength, -, hresize⟩ := of_decide_eq_true hm
  unfold bufHeaderSize at hheader
  have hcur := h.cur_le
  have hend := h.readEnd_le
  have hlen := p.avail_length
  have hdrop : p.avail.drop m.length ++ input = rest := by
    have hdrop := congrArg (List.drop m.length) hbytes
    rwa [List.drop_append_of_le_length hfull, List.drop_left] at hdrop
  have havail : ∀ size, ({ p with cur := p.cur + m.length, size := size } : PipeIn).avail =
      p.avail.drop m.length := by
    intro size
    unfold PipeIn.avail
    rw [readCells_drop _ _ (by omega), Nat.sub_add_eq]
  have hword : ∀ k, k + 4 ≤ m.length → p.word (p.cur + k) = netWord (m.drop k) := by
    intro k hk
    rw [PipeIn.word_eq hbytes (by omega), List.drop_append_of_le_length (by omega),
      netWord_append (by
        rw [List.length_drop]
        omega)]
  have hrequest : p.word p.cur = netWord m := hword 0 (by omega)
  unfold PipeIn.handleRequest sizeAfter
  by_cases hre : isResize m = true
  · obtain ⟨hbody, hmagic, hlarger⟩ := hresize hre
    have hlt := netWord_lt (m.drop 4)
    have hleft : ¬ messageLeft m.length < 8 := by
      unfold messageLeft bufHeaderSize
      omega
    rw [if_pos (by simpa [isResize, hrequest] using hre), if_pos hre]
    unfold PipeIn.requestResizePipe
    have hw : ∀ k, ({ p with cur := p.cur + m.length } : PipeIn).word k = p.word k := fun _ => rfl
    rw [if_neg hleft, hw, hw, show p.cur + bufHeaderSize + 4 = p.cur + 12 from rfl,
      show p.cur + bufHeaderSize = p.cur + 8 from rfl, hword 12 (by omega), hword 8 (by omega),
      if_neg (by simpa using hmagic), if_neg (by
        dsimp only
        omega)]
    refine ⟨_, rfl, ⟨?_, ?_, ?_⟩, rfl, ?_, ?_⟩
    · dsimp only
      omega
    · dsimp only
      omega
    · exact Nat.le_trans h.size_ge hlarger
    · rw [havail, hdrop]
    · rw [havail, List.length_drop]
      omega
  · rw [if_neg (by simpa [isResize, hrequest] using hre), if_neg hre]
    refine ⟨_, rfl, ⟨?_, hend, h.size_ge⟩, rfl, ?_, ?_⟩
    · dsimp only
      omega
    · rw [havail, hdrop]
    · rw [havail, List.length_drop]
      omega

end Buffer

/-- What is in the buffer and what is still to be read are messages, and a tail. -/
structure PipePending (p : PipeIn) (input : List UInt8) (msgs : List (List UInt8))
    (tail : List UInt8) : Prop where
  valid : p.Valid
  ok : messagesOk p.size msgs = true
  bytes : p.avail ++ input = msgs.flatten ++ tail

def PipeIdle (p : PipeIn) (msgs : List (List UInt8)) : Prop :=
  ∀ m rest, msgs = m :: rest → p.avail.length < m.length

def PipeHandled.afterAll (msgs : List (List UInt8)) (h : PipeHandled) : PipeHandled :=
  { h with handed := msgs ++ h.handed }

section Messages

variable {ends : List UInt8 → Bool} {p : PipeIn} {input tail : List UInt8}
  {msgs : List (List UInt8)}

theorem PipePending.handle (h : PipePending p input msgs tail) (ends : List UInt8 → Bool)
    {todo : Nat} (htodo : p.avail.length ≤ todo) :
    (∃ p' todo' handled left, msgs = handled ++ left ∧ (∀ m ∈ handled, ends m = false) ∧
      PipePending p' input left tail ∧ PipeIdle p' left ∧
      p'.avail.length + handled.flatten.length = p.avail.length ∧ p'.avail.length ≤ todo' ∧
      p.handleMessages ends todo = (p'.handleMessages ends todo').afterAll handled) ∨
    (∃ p' handled m left, msgs = handled ++ m :: left ∧ (∀ m ∈ handled, ends m = false) ∧
      ends m = true ∧ handled.flatten.length + m.length ≤ p.avail.length ∧
      p.handleMessages ends todo = ⟨p', handled ++ [m], some .ended⟩) := by
  induction msgs generalizing p todo with
  | nil =>
    refine .inl ⟨p, todo, [], [], rfl, by simp, h, ?_, by simp, htodo, rfl⟩
    intro m rest heq
    cases heq
  | cons m msgs ih =>
    obtain ⟨hm, hrest⟩ := Bool.and_eq_true_iff.mp h.ok
    obtain ⟨hheader, haligned, hlength, -, -⟩ := of_decide_eq_true hm
    have hbytes := h.bytes
    rw [List.flatten_cons, List.append_assoc] at hbytes
    rcases Nat.lt_or_ge p.avail.length m.length with hlt | hfull
    · refine .inl ⟨p, todo, [], m :: msgs, rfl, by simp, h, ?_, by simp, htodo, rfl⟩
      intro m' rest heq
      cases heq
      exact hlt
    · have hfound := PipeIn.hasFullMessage_eq hbytes hheader haligned hlength
      rw [if_pos hfull] at hfound
      unfold bufHeaderSize at hheader
      obtain ⟨p₁, hp₁, hvalid, hsize, hnext, hlen⟩ := h.valid.handleRequest hbytes hm hfull
      have hmsg := PipeIn.message_eq hbytes hfull
      have hpending : PipePending p₁ input msgs tail := ⟨hvalid, by rwa [hsize], hnext⟩
      cases todo with
      | zero => omega
      | succ todo =>
        have hstep : p.handleMessages ends (todo + 1) = if ends m = true then
            ⟨p₁, [m], some .ended⟩ else (p₁.handleMessages ends todo).after m := by
          rw [PipeIn.handleMessages, hfound]
          dsimp only
          rw [if_neg (by omega), hp₁, hmsg]
        cases hends : ends m with
        | true =>
          rw [hends, if_pos rfl] at hstep
          exact .inr ⟨p₁, [], m, msgs, rfl, by simp, hends, by simpa using hfull, hstep⟩
        | false =>
          rw [hends, if_neg (by decide)] at hstep
          rcases ih hpending (show p₁.avail.length ≤ todo by omega) with
            ⟨p', todo', handled, left, hsplit, hno, hpend, hidle, hcount, hfuel, heq⟩ |
            ⟨p', handled, m', left, hsplit, hno, hlast, hcount, heq⟩
          · refine .inl ⟨p', todo', m :: handled, left, by rw [hsplit]; rfl, ?_, hpend, hidle, ?_,
              hfuel, ?_⟩
            · exact List.forall_mem_cons.mpr ⟨hends, hno⟩
            · rw [List.flatten_cons, List.length_append]
              omega
            · rw [hstep, heq]
              rfl
          · refine .inr ⟨p', m :: handled, m', left, by rw [hsplit]; rfl, ?_, hlast, ?_, ?_⟩
            · exact List.forall_mem_cons.mpr ⟨hends, hno⟩
            · rw [List.flatten_cons, List.length_append]
              omega
            · rw [hstep, heq]
              rfl

theorem PipePending.handle_idle {m : List UInt8} (h : PipePending p input (m :: msgs) tail)
    (hidle : PipeIdle p (m :: msgs)) (todo : Nat) :
    p.handleMessages ends todo = ⟨p, [], none⟩ := by
  cases todo with
  | zero => rfl
  | succ todo =>
    obtain ⟨hm, -⟩ := Bool.and_eq_true_iff.mp h.ok
    obtain ⟨hheader, haligned, hlength, -, -⟩ := of_decide_eq_true hm
    have hbytes := h.bytes
    rw [List.flatten_cons, List.append_assoc] at hbytes
    have hfound := PipeIn.hasFullMessage_eq hbytes hheader haligned hlength
    rw [if_neg (Nat.not_le.mpr (hidle m msgs rfl))] at hfound
    rw [PipeIn.handleMessages, hfound]
    rfl

theorem PipeIn.handle_short (h : p.avail.length < 8) (todo : Nat) :
    p.handleMessages ends todo = ⟨p, [], none⟩ := by
  cases todo with
  | zero => rfl
  | succ todo =>
    have hnone : p.hasFullMessage = .ok 0 := by
      unfold PipeIn.hasFullMessage
      rw [if_pos (by
        rw [← PipeIn.avail_length]
        exact h)]
    rw [PipeIn.handleMessages, hnone]
    rfl

theorem PipeIn.hasFullMessage_short (hbytes : p.avail ++ input = tail) (h : ¬ p.avail.length < 8) :
    p.hasFullMessage = if netWord (tail.drop 4) % 4 ≠ 0 then .error .unaligned
      else .ok (if netWord (tail.drop 4) ≤ p.avail.length then netWord (tail.drop 4) else 0) := by
  unfold PipeIn.hasFullMessage bufHeaderSize
  rw [← PipeIn.avail_length, if_neg h, PipeIn.word_eq hbytes (by omega)]
  split
  · rfl
  · split
    · rfl
    · rfl

theorem PipePending.handle_tail (h : PipePending p input [] tail) (ends : List UInt8 → Bool)
    (htail : tail = [] ∨ shortMessage tail = true ∧ netWord (tail.drop 4) ≠ 4) (todo : Nat) :
    p.handleMessages ends todo = ⟨p, [], none⟩ ∨
      tail ≠ [] ∧ p.handleMessages ends todo = ⟨p, [], some (.failed .unaligned)⟩ := by
  have hbytes : p.avail ++ input = tail := h.bytes
  rcases htail with rfl | ⟨hshort, hfour⟩
  · rw [List.append_eq_nil_iff] at hbytes
    exact .inl (PipeIn.handle_short (by simp [hbytes.1]) todo)
  · by_cases hlen : p.avail.length < 8
    · exact .inl (PipeIn.handle_short hlen todo)
    · have hfound := PipeIn.hasFullMessage_short hbytes hlen
      obtain ⟨hheader, hlt⟩ := of_decide_eq_true hshort
      unfold bufHeaderSize at hheader hlt
      cases todo with
      | zero => exact .inl rfl
      | succ todo =>
        rw [PipeIn.handleMessages, hfound]
        split
        · next e heq =>
          split at heq
          · cases heq
            refine .inr ⟨?_, rfl⟩
            rintro rfl
            simp at hheader
          · cases heq
        · next length heq =>
          split at heq
          · cases heq
          · next haligned =>
            have hzero : netWord (tail.drop 4) = 0 := by omega
            rw [hzero, if_pos (Nat.zero_le _)] at heq
            cases heq
            exact .inl rfl

end Messages

theorem served_append (ends : List UInt8 → Bool) {handled : List (List UInt8)} {n : Nat}
    (hno : ∀ m ∈ handled, ends m = false) (hle : handled.flatten.length ≤ n)
    (left : List (List UInt8)) :
    served ends n (handled ++ left) = handled ++ served ends (n - handled.flatten.length) left := by
  induction handled generalizing n with
  | nil => rfl
  | cons m handled ih =>
    obtain ⟨hm, hno⟩ := List.forall_mem_cons.mp hno
    rw [List.flatten_cons, List.length_append] at hle
    rw [List.cons_append, served, if_pos (by omega), hm, if_neg (by decide), ih hno (by omega),
      List.flatten_cons, List.length_append, Nat.sub_add_eq]
    rfl

theorem served_idle {ends : List UInt8 → Bool} {n : Nat} {msgs : List (List UInt8)}
    (h : ∀ m rest, msgs = m :: rest → n < m.length) : served ends n msgs = [] := by
  cases msgs with
  | nil => rfl
  | cons m msgs => rw [served, if_neg (Nat.not_le.mpr (h m msgs rfl))]

section Run

variable {ends : List UInt8 → Bool} {p : PipeIn} {input tail : List UInt8}
  {msgs : List (List UInt8)}

theorem PipePending.makeRoom (h : PipePending p input msgs tail) (hidle : PipeIdle p msgs) :
    (∃ p', p.makeRoom = .ok p' ∧ PipePending p' input msgs tail ∧
      p'.avail.length = p.avail.length ∧ p'.readEnd < p'.size) ∨
    (∃ e, p.makeRoom = .error e ∧ msgs = [] ∧ 8 ≤ p.avail.length) := by
  cases hroom : p.makeRoom with
  | ok p' =>
    obtain ⟨hvalid, hsize, havail, hlt⟩ := h.valid.makeRoom hroom
    exact .inl ⟨p', rfl, ⟨hvalid, by rw [hsize]; exact h.ok, by rw [havail]; exact h.bytes⟩,
      by rw [havail], hlt⟩
  | error e =>
    have hlimit : ¬ p.avail.length < pipeLimit p.size := by
      intro hfits
      obtain ⟨p', hp'⟩ := h.valid.has_room hfits
      rw [hroom] at hp'
      cases hp'
    have hge := h.valid.limit_ge
    refine .inr ⟨e, rfl, ?_, by omega⟩
    cases msgs with
    | nil => rfl
    | cons m msgs =>
      obtain ⟨hm, -⟩ := Bool.and_eq_true_iff.mp h.ok
      obtain ⟨-, -, -, hlen, -⟩ := of_decide_eq_true hm
      have hlt := hidle m msgs rfl
      omega

theorem PipePending.read (h : PipePending p input msgs tail) (more : Nat) :
    PipePending (p.append (input.take (p.readCount input more)))
      (input.drop (p.readCount input more)) msgs tail ∧
    (p.append (input.take (p.readCount input more))).avail.length =
      p.avail.length + p.readCount input more := by
  have hcount : (input.take (p.readCount input more)).length = p.readCount input more := by
    unfold PipeIn.readCount
    rw [List.length_take]
    omega
  have hroom : (input.take (p.readCount input more)).length ≤ p.size - p.readEnd := by
    rw [hcount]
    unfold PipeIn.readCount
    omega
  obtain ⟨hvalid, havail⟩ := h.valid.append hroom
  refine ⟨⟨hvalid, h.ok, ?_⟩, ?_⟩
  · rw [havail, List.append_assoc, List.take_append_drop]
    exact h.bytes
  · rw [havail, List.length_append, hcount]

def QuietTail (ends : List UInt8 → Bool) (msgs : List (List UInt8)) (tail : List UInt8) : Prop :=
  tail = [] ∨ shortMessage tail = true ∧ (netWord (tail.drop 4) ≠ 4 ∨ ∃ m ∈ msgs, ends m = true)

theorem QuietTail.left {handled left : List (List UInt8)}
    (h : QuietTail ends (handled ++ left) tail) (hno : ∀ m ∈ handled, ends m = false) :
    QuietTail ends left tail := by
  rcases h with h | ⟨hshort, h | ⟨m, hm, hends⟩⟩
  · exact .inl h
  · exact .inr ⟨hshort, .inl h⟩
  · rcases List.mem_append.mp hm with hm | hm
    · rw [hno m hm] at hends
      cases hends
    · exact .inr ⟨hshort, .inr ⟨m, hm, hends⟩⟩

theorem QuietTail.nil (h : QuietTail ends [] tail) :
    tail = [] ∨ shortMessage tail = true ∧ netWord (tail.drop 4) ≠ 4 := by
  rcases h with h | ⟨hshort, h | ⟨m, hm, -⟩⟩
  · exact .inl h
  · exact .inr ⟨hshort, h⟩
  · cases hm

theorem PipePending.handle_quiet (h : PipePending p input msgs tail)
    (hquiet : QuietTail ends msgs tail) {todo : Nat} (htodo : p.avail.length ≤ todo) :
    (∃ p' handled left, msgs = handled ++ left ∧ (∀ m ∈ handled, ends m = false) ∧
      PipePending p' input left tail ∧ PipeIdle p' left ∧
      p'.avail.length + handled.flatten.length = p.avail.length ∧
      p.handleMessages ends todo = ⟨p', handled, none⟩) ∨
    (∃ p' e, tail ≠ [] ∧ (∀ m ∈ msgs, ends m = false) ∧ msgs.flatten.length ≤ p.avail.length ∧
      p.handleMessages ends todo = ⟨p', msgs, some (.failed e)⟩) ∨
    (∃ p' handled m left, msgs = handled ++ m :: left ∧ (∀ m ∈ handled, ends m = false) ∧
      ends m = true ∧ handled.flatten.length + m.length ≤ p.avail.length ∧
      p.handleMessages ends todo = ⟨p', handled ++ [m], some .ended⟩) := by
  rcases h.handle ends htodo with
    ⟨p', todo', handled, left, hsplit, hno, hpend, hidle, hcount, -, heq⟩ | hend
  · cases left with
    | cons m left =>
      rw [hpend.handle_idle hidle] at heq
      refine .inl ⟨p', handled, m :: left, hsplit, hno, hpend, hidle, hcount, ?_⟩
      rw [heq, PipeHandled.afterAll, List.append_nil]
    | nil =>
      rw [List.append_nil] at hsplit
      subst hsplit
      have hquiet' : QuietTail ends [] tail := QuietTail.left (by rwa [List.append_nil]) hno
      rcases hpend.handle_tail ends hquiet'.nil todo' with hnone | ⟨hne, hfail⟩
      · refine .inl ⟨p', msgs, [], (List.append_nil _).symm, hno, hpend, hidle, hcount, ?_⟩
        rw [heq, hnone, PipeHandled.afterAll, List.append_nil]
      · refine .inr (.inl ⟨p', .unaligned, hne, hno, by omega, ?_⟩)
        rw [heq, hfail, PipeHandled.afterAll, List.append_nil]
  · exact .inr (.inr hend)

theorem pipeMessages_framed (h : PipePending p input msgs tail) (hidle : PipeIdle p msgs)
    (hquiet : QuietTail ends msgs tail) (reads : List PipeRead) :
    PipeFramed ends p.avail.length reads msgs tail (pipeMessages ends reads p input) := by
  induction reads generalizing p input msgs with
  | nil => exact ⟨(served_idle hidle).symm, fun _ => Nat.le_refl _, nofun,
      nofun⟩
  | cons read reads ih =>
    unfold pipeMessages
    rcases h.makeRoom hidle with ⟨p₁, hroom, h₁, hlen₁, hspace⟩ | ⟨e, hroom, rfl, hlen⟩
    · rw [hroom]
      rw [← hlen₁]
      have hidle₁ : PipeIdle p₁ msgs := fun m rest heq => by
        rw [hlen₁]
        exact hidle m rest heq
      cases read with
      | interrupted =>
        have hframed := ih h₁ hidle₁ hquiet
        exact ⟨hframed.handed, fun hnone => by simpa using hframed.progress hnone, hframed.ended,
          hframed.failed⟩
      | bytes more =>
        dsimp only
        split
        · next hzero =>
          -- the input is at its end, and no message is left in it
          have hinput : input = [] := by
            rw [← List.length_eq_zero_iff]
            unfold PipeIn.readCount at hzero
            omega
          have hbytes := h₁.bytes
          rw [hinput, List.append_nil] at hbytes
          have hmsgs : msgs = [] := by
            cases msgs with
            | nil => rfl
            | cons m msgs =>
              have hlt := hidle₁ m msgs rfl
              have hlen := congrArg List.length hbytes
              simp only [List.flatten_cons, List.length_append] at hlen
              omega
          subst hmsgs
          refine ⟨rfl, nofun, nofun, fun e he => ⟨rfl, ?_⟩⟩
          cases he
          rintro rfl
          exact ⟨rfl, by simp [hbytes]⟩
        · next hpos =>
          obtain ⟨h₂, hlen₂⟩ := h₁.read more
          have htodo : (p₁.append (input.take (p₁.readCount input more))).avail.length ≤
              p₁.readEnd + p₁.readCount input more - p₁.cur := by
            have hcur := h₁.valid.cur_le
            rw [hlen₂, PipeIn.avail_length]
            omega
          generalize p₁.readCount input more = n at *
          rcases h₂.handle_quiet hquiet htodo with
            ⟨p', handled, left, rfl, hno, hpend, hidle', hcount, heq⟩ |
            ⟨p', e, hne, hno, hle, heq⟩ | ⟨p', handled, m, left, rfl, hno, hend, hle, heq⟩
          · rw [heq]
            have hframed := ih hpend hidle' (hquiet.left hno)
            refine ⟨?_, ?_, ?_, ?_⟩
            · dsimp only [PipeRun.after]
              rw [served_append ends hno (by omega), hframed.handed]
              congr 2
              omega
            · intro hnone
              have hprogress := hframed.progress hnone
              simp only [PipeRun.after, List.countP_cons]
              split
              · omega
              · omega
            · intro hended
              obtain ⟨m, hm, hends⟩ := hframed.ended hended
              exact ⟨m, List.mem_append_right _ hm, hends⟩
            · intro e he
              obtain ⟨hall, hlast⟩ := hframed.failed e he
              refine ⟨by simp only [PipeRun.after, hall], fun htail => ?_⟩
              obtain ⟨hee, hsum⟩ := hlast htail
              refine ⟨hee, ?_⟩
              simp only [PipeRun.after, List.flatten_append, List.length_append]
              omega
          · rw [heq]
            refine ⟨?_, nofun, nofun,
              fun e' he => ⟨rfl, fun htail => absurd htail hne⟩⟩
            have hall := served_append ends hno (show msgs.flatten.length ≤ p₁.avail.length + n by
              omega) []
            rw [List.append_nil] at hall
            rw [hall]
            exact (List.append_nil _).symm
          · rw [heq]
            refine ⟨?_, nofun, fun _ => ⟨m, by simp, hend⟩, nofun⟩
            dsimp only
            rw [served_append ends hno (by omega), served, if_pos (by omega), hend, if_pos rfl]
    · rw [hroom]
      refine ⟨rfl, nofun, nofun, fun e' he => ⟨rfl, ?_⟩⟩
      rintro rfl
      have hbytes := h.bytes
      simp at hbytes
      rw [hbytes.1] at hlen
      simp at hlen

theorem PipePending.handle_four (h : PipePending p input [] tail) (ends : List UInt8 → Bool)
    (hfour : netWord (tail.drop 4) = 4) (hlen : ¬ p.avail.length < 8) {todo : Nat}
    (htodo : p.avail.length ≤ todo) : (p.handleMessages ends todo).handed ≠ [] := by
  have hbytes : p.avail ++ input = tail := h.bytes
  have hfound := PipeIn.hasFullMessage_short hbytes hlen
  rw [hfour, if_neg (by decide), if_pos (by omega)] at hfound
  cases todo with
  | zero => omega
  | succ todo =>
    rw [PipeIn.handleMessages, hfound]
    dsimp only
    rw [if_neg (by decide)]
    split
    · exact List.cons_ne_nil _ _
    · split
      · exact List.cons_ne_nil _ _
      · exact List.cons_ne_nil _ _

theorem pipeMessages_four (h : PipePending p input msgs tail) (hidle : PipeIdle p msgs)
    (hno : ∀ m ∈ msgs, ends m = false) (hheader : 8 ≤ tail.length)
    (hfour : netWord (tail.drop 4) = 4) {n : Nat}
    (hn : msgs.flatten.length + 8 ≤ n + p.avail.length)
    (hshort : p.avail.length < msgs.flatten.length + 8) :
    msgs.length < (pipeMessages ends (List.replicate n (.bytes 0)) p input).handed.length := by
  induction n generalizing p input msgs with
  | zero => omega
  | succ n ih =>
    rw [List.replicate_succ, pipeMessages]
    rcases h.makeRoom hidle with ⟨p₁, hroom, h₁, hlen₁, hspace⟩ | ⟨e, hroom, rfl, hlen⟩
    · rw [hroom]
      dsimp only
      have hlen := congrArg List.length h₁.bytes
      simp only [List.length_append] at hlen
      have hone : p₁.readCount input 0 = 1 := by
        unfold PipeIn.readCount
        omega
      obtain ⟨h₂, hlen₂⟩ := h₁.read 0
      rw [hone] at h₂ hlen₂
      rw [hone, if_neg (by decide)]
      have htodo : (p₁.append (input.take 1)).avail.length ≤ p₁.readEnd + 1 - p₁.cur := by
        have hcur := h₁.valid.cur_le
        rw [hlen₂, PipeIn.avail_length]
        omega
      rcases h₂.handle ends htodo with
        ⟨p', todo', handled, left, rfl, hno', hpend, hidle', hcount, htodo', heq⟩ |
        ⟨p', handled, m, left, rfl, -, hend, -, -⟩
      · rw [List.flatten_append, List.length_append] at hn hshort
        -- the loop waits for more, or takes the header
        have hwait : (p'.avail.length < left.flatten.length + 8 ∧
            p'.handleMessages ends todo' = ⟨p', [], none⟩) ∨
            left = [] ∧ (p'.handleMessages ends todo').handed ≠ [] := by
          cases left with
          | cons m left =>
            have hlt := hidle' m left rfl
            refine .inl ⟨?_, hpend.handle_idle hidle' todo'⟩
            rw [List.flatten_cons, List.length_append]
            omega
          | nil =>
            by_cases hlt : p'.avail.length < 8
            · exact .inl ⟨by simpa using hlt, PipeIn.handle_short hlt todo'⟩
            · exact .inr ⟨rfl, hpend.handle_four ends hfour hlt htodo'⟩
        rcases hwait with ⟨hlt, hnone⟩ | ⟨rfl, hsome⟩
        · rw [heq, hnone]
          have hmore := ih hpend hidle' (fun m hm => hno m (List.mem_append_right _ hm))
            (by omega) hlt
          simp only [PipeHandled.afterAll, PipeRun.after, List.append_nil, List.length_append]
          omega
        · have hpos : 0 < (p'.handleMessages ends todo').handed.length :=
            List.length_pos_iff.mpr hsome
          rw [heq]
          cases hresult : p'.handleMessages ends todo' with
          | mk p'' handed outcome =>
            rw [hresult] at hpos
            dsimp only at hpos
            cases outcome with
            | none =>
              simp only [PipeHandled.afterAll, PipeRun.after, List.append_nil, List.length_append]
              omega
            | some outcome =>
              simp only [PipeHandled.afterAll, List.append_nil, List.length_append]
              omega
      · rw [hno m (by simp)] at hend
        cases hend
    · simp only [List.flatten_nil, List.length_nil, Nat.zero_add] at hshort
      omega

theorem served_length (ends : List UInt8 → Bool) (n : Nat) (msgs : List (List UInt8)) :
    (served ends n msgs).length ≤ msgs.length := by
  induction msgs generalizing n with
  | nil => exact Nat.le_refl _
  | cons m msgs ih =>
    unfold served
    split
    · split
      · simp
      · exact Nat.succ_le_succ (ih _)
    · exact Nat.zero_le _

theorem pipePending_init (mem : Nat → UInt8)
    (h : messagesOk externalWriterMinSharedSize msgs = true) (tail : List UInt8) :
    PipePending (pipeInInit mem) (msgs.flatten ++ tail) msgs tail ∧
      PipeIdle (pipeInInit mem) msgs := by
  refine ⟨⟨⟨Nat.le_refl _, Nat.zero_le _, Nat.le_refl _⟩, h, rfl⟩, ?_⟩
  rintro m rest rfl
  obtain ⟨hm, -⟩ := Bool.and_eq_true_iff.mp h
  obtain ⟨hheader, -⟩ := of_decide_eq_true hm
  have hempty : (pipeInInit mem).avail.length = 0 := rfl
  unfold bufHeaderSize at hheader
  omega

/-- However the bytes come, the messages that have come completely have been handed out, and
there is no error before the end. -/
theorem pipe_framing_exact (ends : List UInt8 → Bool) (mem : Nat → UInt8) (msgs : List (List UInt8))
    (h : messagesOk externalWriterMinSharedSize msgs = true) :
    (∀ reads, PipeFramed ends 0 reads msgs [] (pipeRun ends mem reads msgs.flatten)) ∧
    ∀ tail, shortMessage tail = true →
      ((∀ reads, PipeFramed ends 0 reads msgs tail
          (pipeRun ends mem reads (msgs.flatten ++ tail))) ↔
        (netWord (tail.drop 4) ≠ 4 ∨ ∃ m ∈ msgs, ends m = true)) := by
  constructor
  · intro reads
    obtain ⟨hpending, hidle⟩ := pipePending_init mem h []
    rw [List.append_nil] at hpending
    exact pipeMessages_framed hpending hidle (.inl rfl) reads
  · intro tail htail
    obtain ⟨hpending, hidle⟩ := pipePending_init mem h tail
    constructor
    · intro hframed
      by_contra hnot
      rw [not_or, not_not] at hnot
      obtain ⟨hfour, hnone⟩ := hnot
      have hno : ∀ m ∈ msgs, ends m = false := by
        intro m hm
        by_contra hends
        exact hnone ⟨m, hm, by simpa using hends⟩
      obtain ⟨hheader, -⟩ := of_decide_eq_true htail
      have hmore := pipeMessages_four hpending hidle hno hheader hfour
        (show _ ≤ msgs.flatten.length + 8 + _ from Nat.le_add_right _ _)
        (show 0 < msgs.flatten.length + 8 by omega)
      have hserved := congrArg List.length
        (hframed (List.replicate (msgs.flatten.length + 8) (.bytes 0))).handed
      have hle := served_length ends (0 + (pipeRun ends mem (List.replicate
        (msgs.flatten.length + 8) (.bytes 0)) (msgs.flatten ++ tail)).received) msgs
      unfold pipeRun at hserved hle
      omega
    · intro hcond reads
      exact pipeMessages_framed hpending hidle (.inr ⟨htail, hcond⟩) reads

theorem pipe_framing_exact_two :
    messagesOk externalWriterMinSharedSize
        [[0x76, 0xc3, 0, 5, 0, 0, 0, 16, 0, 1, 0, 0, 0x57, 0xe6, 0x5c, 0x97],
          [0x76, 0xc3, 0, 8, 0, 0, 0, 8]] = true ∧
      ∀ reads, PipeFramed (fun _ => false) 0 reads
        [[0x76, 0xc3, 0, 5, 0, 0, 0, 16, 0, 1, 0, 0, 0x57, 0xe6, 0x5c, 0x97],
          [0x76, 0xc3, 0, 8, 0, 0, 0, 8]] [0x76, 0xc3, 0, 14, 0, 0, 0, 0]
        (pipeRun (fun _ => false) (fun _ => 0) reads
          [0x76, 0xc3, 0, 5, 0, 0, 0, 16, 0, 1, 0, 0, 0x57, 0xe6, 0x5c, 0x97, 0x76, 0xc3, 0, 8, 0,
            0, 0, 8, 0x76, 0xc3, 0, 14, 0, 0, 0, 0]) := by
  refine ⟨by decide, ?_⟩
  exact ((pipe_framing_exact (fun _ => false) (fun _ => 0) _ (by decide)).2 _ (by decide)).mpr
    (.inl (by decide))

theorem short_header_handed_out :
    (pipeRun (fun _ => false) (fun _ => 0) [.bytes 7] [0x76, 0xc3, 0, 14, 0, 0, 0, 4]).handed =
        [[0x76, 0xc3, 0, 14]] ∧
      shortMessage [0x76, 0xc3, 0, 14, 0, 0, 0, 4] = true ∧
      ¬ PipeFramed (fun _ => false) 0 [.bytes 7] [] [0x76, 0xc3, 0, 14, 0, 0, 0, 4]
        (pipeRun (fun _ => false) (fun _ => 0) [.bytes 7] [0x76, 0xc3, 0, 14, 0, 0, 0, 4]) := by
  have hrun : (pipeRun (fun _ => false) (fun _ => 0) [.bytes 7]
      [0x76, 0xc3, 0, 14, 0, 0, 0, 4]).handed = [[0x76, 0xc3, 0, 14]] := by
    decide
  refine ⟨hrun, by decide, fun hframed => ?_⟩
  have hhanded := hframed.handed
  rw [hrun] at hhanded
  cases hhanded

end Run

end Ucesb
