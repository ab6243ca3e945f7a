import TurboUtils.Lib.Word

/-! `salts_spsc_ring`: a byte ring with free-running positions, for one producer and one
consumer. `w` is the width of `size_t`; a call is one step. -/
namespace Concurrency.Spsc

abbrev Byte := UInt8

structure Ring where
  size : ℕ
  data : ℕ → Byte
  writePos : ℕ
  readPos : ℕ
  wrapPos : ℕ
  wrapLen : ℕ
  pendingWrapLen : ℕ

/-- `salts_spsc_ring_init`; `none` when the size is no power of two. -/
def init (storage : ℕ → Byte) (size : ℕ) : Option Ring :=
  if size ≠ 0 ∧ size &&& (size - 1) = 0 then some ⟨size, storage, 0, 0, 0, 0, 0⟩ else none

/-- `salts_spsc_ring_write_acquire`: the ring and the offset of the region, if any. -/
def writeAcquire (w : ℕ) (ring : Ring) (required : ℕ) : Ring × Option ℕ :=
  let write := ring.writePos
  let read := ring.readPos
  let used := Word.sub w write read
  let available := Word.sub w (Word.sub w ring.size used) 1
  let offset := write &&& (ring.size - 1)
  let linear := Word.sub w ring.size offset
  if ring.size ≤ required ∨ available < required then (ring, none)
  else
    let ring := { ring with pendingWrapLen := 0 }
    if linear < required then
      if ring.wrapLen ≠ 0 ∨ available < Word.add w required linear then (ring, none)
      else ({ ring with pendingWrapLen := linear }, some 0)
    else (ring, some offset)

/-- `salts_spsc_ring_write_release`. -/
def writeRelease (w : ℕ) (ring : Ring) (written : ℕ) : Ring :=
  let write := ring.writePos
  if ring.pendingWrapLen ≠ 0 then
    { ring with
      wrapPos := write
      wrapLen := ring.pendingWrapLen
      writePos := Word.add w (Word.add w write ring.pendingWrapLen) written
      pendingWrapLen := 0 }
  else { ring with writePos := Word.add w write written }

/-- The part of `salts_spsc_ring_read_acquire` after the skip marker: the offset and the
number of bytes handed out, `none` for NULL. `wrapLen` is the value loaded before the jump. -/
def expose (w : ℕ) (ring : Ring) (read wrapLen : ℕ) : Option (ℕ × ℕ) :=
  let dataAvailable :=
    if wrapLen ≠ 0 ∧ read < ring.wrapPos then Word.sub w ring.wrapPos read
    else Word.sub w ring.writePos read
  if dataAvailable = 0 then none
  else
    let offset := read &&& (ring.size - 1)
    let linear := Word.sub w ring.size offset
    some (offset, if dataAvailable < linear then dataAvailable else linear)

/-- `salts_spsc_ring_read_acquire`. -/
def readAcquire (w : ℕ) (ring : Ring) : Ring × Option (ℕ × ℕ) :=
  let read := ring.readPos
  if ring.wrapLen ≠ 0 ∧ read = ring.wrapPos then
    let nextRead := Word.add w read ring.wrapLen
    if ring.writePos < nextRead then (ring, none)
    else ({ ring with readPos := nextRead, wrapLen := 0 }, expose w ring nextRead ring.wrapLen)
  else (ring, expose w ring read ring.wrapLen)

/-- `salts_spsc_ring_read_release`. -/
def readRelease (w : ℕ) (ring : Ring) (read : ℕ) : Ring :=
  { ring with readPos := Word.add w ring.readPos read }

/-- `salts_spsc_ring_read_available`. -/
def readAvailable (w : ℕ) (ring : Ring) : ℕ :=
  let write := ring.writePos
  let read := ring.readPos
  if ring.wrapLen ≠ 0 ∧ read = ring.wrapPos ∧ Word.add w read ring.wrapLen ≤ write then
    Word.sub w (Word.sub w write read) ring.wrapLen
  else if ring.wrapLen ≠ 0 ∧ read < ring.wrapPos ∧ Word.add w ring.wrapPos ring.wrapLen ≤ write then
    Word.add w (Word.sub w ring.wrapPos read)
      (Word.sub w (Word.sub w write ring.wrapPos) ring.wrapLen)
  else Word.sub w write read

/-! ## The producer and the consumer -/

/-- The region the producer holds, and the bytes it has written into it. -/
structure Grant where
  offset : ℕ
  required : ℕ
  bytes : List Byte

abbrev Cell := ℕ × Byte

/-- The ring with its two users: the region of the producer, the part of the last exposed
region that the consumer may still release, and the cells released by each so far. -/
structure System where
  ring : Ring
  grant : Option Grant
  exposed : Option (ℕ × ℕ)
  produced : List Cell
  consumed : List Cell

inductive Op where
  | writeAcquire (required : ℕ)
  | write (bytes : List Byte)
  | writeRelease (written : ℕ)
  | readAcquire
  | readRelease (n : ℕ)

def store (data : ℕ → Byte) (offset : ℕ) (bytes : List Byte) : ℕ → Byte := fun i =>
  if offset ≤ i then (bytes[i - offset]?).getD (data i) else data i

/-- The cells of `n` bytes in a row. -/
def stored (data : ℕ → Byte) (offset n : ℕ) : List Cell :=
  (List.range n).map fun i => (offset + i, data (offset + i))

/-- One step; `none` when its user may not take it. -/
def System.step (w : ℕ) (s : System) : Op → Option System
  | .writeAcquire required =>
      if required = 0 then none
      else
        match writeAcquire w s.ring required with
        | (ring, offset) =>
            some { s with ring, grant := offset.map fun offset => ⟨offset, required, []⟩ }
  | .write bytes =>
      match s.grant with
      | none => none
      | some g =>
          if g.bytes.length + bytes.length ≤ g.required then
            some { s with
              ring := { s.ring with
                data := store s.ring.data (g.offset + g.bytes.length) bytes }
              grant := some { g with bytes := g.bytes ++ bytes } }
          else none
  | .writeRelease written =>
      match s.grant with
      | none => none
      | some g =>
          if written ≤ g.bytes.length then
            some { s with
              ring := writeRelease w s.ring written
              grant := none
              produced := s.produced ++
                (g.bytes.take written).mapIdx fun i b => (g.offset + i, b) }
          else none
  | .readAcquire =>
      match readAcquire w s.ring with
      | (ring, exposed) => some { s with ring, exposed }
  | .readRelease n =>
      match s.exposed with
      | none => none
      | some (offset, available) =>
          if n ≤ available then
            some { s with
              ring := readRelease w s.ring n
              exposed := some (offset + n, available - n)
              consumed := s.consumed ++ stored s.ring.data offset n }
          else none

def start (ring : Ring) : System := ⟨ring, none, none, [], []⟩

/-- The states that runs reach whose steps are all allowed where they are taken. -/
inductive Reaches (w : ℕ) (allowed : System → Op → Prop) (ring : Ring) : System → Prop
  | start : Reaches w allowed ring (start ring)
  | step {s s' : System} {op : Op} : Reaches w allowed ring s → allowed s op →
      s.step w op = some s' → Reaches w allowed ring s'

end Concurrency.Spsc
