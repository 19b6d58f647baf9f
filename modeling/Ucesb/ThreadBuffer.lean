import Ucesb.SizeT

namespace Ucesb

/-- What `malloc` gave. Each call gives a block of its own. -/
structure TbBuf where
  id : Nat
  size : Nat
deriving DecidableEq

/-- An allocation, with the bytes asked for, the end of the bytes set apart for it, and what is to
be reclaimed with it. Offsets are from the start of the buffer. -/
structure TbItem where
  buf : Nat
  start : Nat
  size : Nat
  stop : Nat
  reclaim : Nat
deriving DecidableEq

/-- The ring is the buffers from `_cur->_next` on, and then `_cur`. -/
structure ThreadBuffer where
  older : List TbBuf
  cur : TbBuf
  curUsed : Nat
  allocated : Nat
  reclaimed : Nat
  total : Nat
  allocSize : Nat
  /-- The next block of `malloc`. -/
  fresh : Nat
  /-- What is allocated and not reclaimed, in the order of the allocations. -/
  live : List TbItem
deriving DecidableEq

def tbBufSize : Nat := 16
def ThreadBuffer.ring (s : ThreadBuffer) : List TbBuf := s.older ++ [s.cur]

/-- Rounded up to `THREAD_BUFFER_ALIGN`, as `size_t`. -/
def alignSize (size : Nat) : Nat := (size + 7) % 2 ^ 64 / 8 * 8

def ThreadBuffer.enter (s : ThreadBuffer) (older : List TbBuf) (next : TbBuf)
    (size waste : Nat) : ThreadBuffer :=
  { s with
    older := older ++ [s.cur]
    cur := next
    curUsed := (tbBufSize + alignSize size) % 2 ^ 64
    allocated := s.allocated + waste + alignSize size
    live := s.live ++
      [⟨next.id, tbBufSize, size, tbBufSize + alignSize size, waste + alignSize size⟩] }

/-- The oldest item is given back. It counts as live for as long as the count is not seen. -/
def ThreadBuffer.reclaim (s : ThreadBuffer) : Option ThreadBuffer :=
  match s.live with
  | [] => none
  | i :: live => some { s with reclaimed := s.reclaimed + i.reclaim, live := live }

structure TbKept (s s' : ThreadBuffer) : Prop where
  freed : ∀ b ∈ s.ring, b ∉ s'.ring → ∀ i ∈ s.live, i.buf ≠ b.id
  entered : s'.cur.id ≠ s.cur.id → ∀ i ∈ s.live, i.buf ≠ s'.cur.id

end Ucesb
