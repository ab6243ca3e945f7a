import Mathlib.Data.List.Basic
import Mathlib.Tactic

/-! The bounded byte buffer shared by the HPACK codec and the HTTP/2 engine.
Allocation is taken to succeed, so growing the storage is invisible and a buffer
is its contents together with the hard bound `maxCapacity`. -/
namespace Chttp

abbrev Bytes := List UInt8

/-- `SIZE_MAX` of a 64-bit target. -/
def sizeMax : ℕ := 2 ^ 64 - 1

/-- `UINT32_MAX`. -/
def uint32Max : ℕ := 2 ^ 32 - 1

def ascii (s : String) : Bytes := s.toList.map fun c => UInt8.ofNat c.toNat

structure Buffer where
  data : Bytes
  maxCapacity : ℕ
  deriving DecidableEq, Repr

namespace Buffer

def size (b : Buffer) : ℕ := b.data.length

/-- `chttp_h2_hpack_buffer_init`: a zero bound or a hint above it is refused. -/
def init (hint maxCapacity : ℕ) : Option Buffer :=
  if maxCapacity = 0 ∨ maxCapacity < hint then none else some ⟨[], maxCapacity⟩

/-- `chttp_h2_hpack_buffer_reserve` returns 0. -/
def reserve (b : Buffer) (extra : ℕ) : Bool := decide (extra ≤ b.maxCapacity - b.size)

def append (b : Buffer) (bs : Bytes) : Buffer := { b with data := b.data ++ bs }

@[simp] theorem append_data (b : Buffer) (bs : Bytes) : (b.append bs).data = b.data ++ bs := rfl

@[simp] theorem append_maxCapacity (b : Buffer) (bs : Bytes) :
    (b.append bs).maxCapacity = b.maxCapacity := rfl

theorem append_nil (b : Buffer) : b.append [] = b := by simp [append]

theorem append_append (b : Buffer) (xs ys : Bytes) :
    (b.append xs).append ys = b.append (xs ++ ys) := by simp [append]

theorem reserve_iff (b : Buffer) (extra : ℕ) :
    b.reserve extra = true ↔ extra ≤ b.maxCapacity - b.data.length := by
  rw [reserve, decide_eq_true_iff]
  rfl

end Buffer

/-! ## Growth of the underlying storage -/

/-- The doubling loop of `chttp_h2_hpack_buffer_reserve`. Every round at least
doubles a positive capacity or reaches the bound, so `need` rounds are enough. -/
def growCapacity (maxCapacity need : ℕ) : ℕ → ℕ → Option ℕ
  | 0, cap => if cap < need then none else some cap
  | fuel + 1, cap =>
      if cap < need then
        let next := if maxCapacity / 2 < cap then maxCapacity else cap * 2
        if next ≤ cap then none else growCapacity maxCapacity need fuel next
      else some cap

/-- The capacity the loop starts from; storage that was never allocated starts
at 256 bytes or at the bound. -/
def startCapacity (capacity maxCapacity : ℕ) : ℕ :=
  if capacity ≠ 0 then capacity else if maxCapacity < 256 then maxCapacity else 256

/-- `chttp_h2_hpack_buffer_reserve` on the stored triple `size`, `capacity`,
`max_capacity`; the result is the capacity after the call. -/
def storageReserve (size capacity maxCapacity extra : ℕ) : Option ℕ :=
  if capacity < size ∨ maxCapacity < capacity then none
  else if extra ≤ capacity - size then some capacity
  else if maxCapacity - size < extra then none
  else growCapacity maxCapacity (size + extra) (size + extra) (startCapacity capacity maxCapacity)

end Chttp
