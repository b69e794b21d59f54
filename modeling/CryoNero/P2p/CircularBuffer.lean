import CryoNero.Seria.Stream
import CryoNero.Store.Fifo

/-!
# The circular buffer

A block of memory with a position to read from and a position to write to. The write position runs
from the read position up to one round ahead of it, so that a full buffer and an empty one differ;
`readPos` alone stays inside the block. Both the bytes to read and the room to write may wrap around
the end of the block, and then lie in two pieces; `readCount` and `writeCount` are the lengths of
the first pieces.

Seen from the read position the block is a queue followed by spare memory, `toFifo`. Every operation
is the operation of a bounded queue there.

Positions are natural numbers. A count is the number of bytes of some object in memory, and the sum
of two such numbers does not wrap.
-/

namespace CryoNero.P2p

open Seria Store

/-- `CircularBuffer`. The conditions on the positions are the ones its methods maintain. -/
structure CircularBuffer where
  impl : Bytes
  readPos : ℕ
  writePos : ℕ
  readPos_le : readPos ≤ writePos
  writePos_le : writePos ≤ readPos + impl.length
  readPos_lt : readPos = 0 ∨ readPos < impl.length

namespace CircularBuffer

def new (si : ℕ) : CircularBuffer where
  impl := List.replicate si 0
  readPos := 0
  writePos := 0
  readPos_le := le_refl 0
  writePos_le := Nat.zero_le _
  readPos_lt := .inl rfl

def readCount (b : CircularBuffer) : ℕ :=
  if b.writePos < b.impl.length then b.writePos - b.readPos else b.impl.length - b.readPos

def readCount2 (b : CircularBuffer) : ℕ :=
  if b.writePos < b.impl.length then 0 else b.writePos - b.impl.length

def writeCount (b : CircularBuffer) : ℕ :=
  if b.writePos < b.impl.length then b.impl.length - b.writePos
  else b.readPos - (b.writePos - b.impl.length)

def writeCount2 (b : CircularBuffer) : ℕ :=
  if b.writePos < b.impl.length then b.readPos else 0

/-- The offset of `write_ptr` in the block. -/
def writePtr (b : CircularBuffer) : ℕ :=
  if b.writePos < b.impl.length then b.writePos else b.writePos - b.impl.length

def size (b : CircularBuffer) : ℕ := b.readCount + b.readCount2

def capacity (b : CircularBuffer) : ℕ := b.writeCount + b.writeCount2

def empty (b : CircularBuffer) : Bool := b.size == 0

def clear (b : CircularBuffer) : CircularBuffer where
  impl := b.impl
  readPos := 0
  writePos := 0
  readPos_le := le_refl 0
  writePos_le := Nat.zero_le _
  readPos_lt := .inl rfl

/-- The first `n` bytes at `read_ptr`, where `n` is at most `readCount`. -/
def readPtr (b : CircularBuffer) (n : ℕ) : Bytes := (b.impl.drop b.readPos).take n

/-- `did_write`, which throws when the count is more than there was room for. -/
def didWrite (b : CircularBuffer) (count : ℕ) : Option CircularBuffer :=
  if h : b.writePos + count ≤ b.readPos + b.impl.length then
    some {
      impl := b.impl
      readPos := b.readPos
      writePos := b.writePos + count
      readPos_le := le_trans b.readPos_le (Nat.le_add_right _ _)
      writePos_le := h
      readPos_lt := b.readPos_lt }
  else none

/-- `did_read`, which throws when the count is more than there was to read. The positions go back
by a round when the read position reaches the end of the block. -/
def didRead (b : CircularBuffer) (count : ℕ) : Option CircularBuffer :=
  if h : b.readPos + count ≤ b.writePos then
    if hwrap : b.impl.length ≤ b.readPos + count then
      some {
        impl := b.impl
        readPos := b.readPos + count - b.impl.length
        writePos := b.writePos - b.impl.length
        readPos_le := Nat.sub_le_sub_right h _
        writePos_le := by have := b.writePos_le; omega
        readPos_lt := by have := b.writePos_le; have := b.readPos_lt; omega }
    else
      some {
        impl := b.impl
        readPos := b.readPos + count
        writePos := b.writePos
        readPos_le := h
        writePos_le := by have := b.writePos_le; omega
        readPos_lt := .inr (by omega) }
  else none

/-- The block after bytes were placed in the room for writing: first at `write_ptr`, and what
`writeCount` does not hold at `write_ptr2`. -/
def filled (b : CircularBuffer) (s : Bytes) : Bytes :=
  overwrite (overwrite b.impl b.writePtr (s.take b.writeCount)) 0 (s.drop b.writeCount)

private theorem writePtr_add_writeCount_le (b : CircularBuffer) :
    b.writePtr + b.writeCount ≤ b.impl.length := by
  have hle := b.writePos_le
  have hlt := b.readPos_lt
  rw [writePtr, writeCount]
  split_ifs <;> omega

private theorem writeCount2_le (b : CircularBuffer) : b.writeCount2 ≤ b.impl.length := by
  have hlt := b.readPos_lt
  rw [writeCount2]
  split_ifs <;> omega

private theorem length_filled {b : CircularBuffer} {s : Bytes} (h : s.length ≤ b.capacity) :
    (b.filled s).length = b.impl.length := by
  have hptr := b.writePtr_add_writeCount_le
  have hcount := b.writeCount2_le
  have hfirst : (overwrite b.impl b.writePtr (s.take b.writeCount)).length = b.impl.length :=
    length_overwrite (by rw [List.length_take]; omega)
  rw [capacity] at h
  rw [filled, length_overwrite (by rw [hfirst, List.length_drop]; omega), hfirst]

/-- Bytes are placed in the room for writing without being announced yet. -/
def fill (b : CircularBuffer) (s : Bytes) (h : s.length ≤ b.capacity) : CircularBuffer where
  impl := b.filled s
  readPos := b.readPos
  writePos := b.writePos
  readPos_le := b.readPos_le
  writePos_le := by rw [length_filled h]; exact b.writePos_le
  readPos_lt := by rw [length_filled h]; exact b.readPos_lt

/-! ## The buffer as a bounded queue -/

/-- The block seen from the read position. -/
def memory (b : CircularBuffer) : Bytes := b.impl.rotate b.readPos

def toFifo (b : CircularBuffer) : Fifo UInt8 where
  queue := b.memory.take (b.writePos - b.readPos)
  spare := b.memory.drop (b.writePos - b.readPos)

@[simp] theorem length_memory (b : CircularBuffer) : b.memory.length = b.impl.length :=
  List.length_rotate _ _

theorem readPos_le_length (b : CircularBuffer) : b.readPos ≤ b.impl.length := by
  have := b.readPos_lt
  omega

@[simp] theorem length_queue (b : CircularBuffer) : b.toFifo.queue.length = b.size := by
  have h₁ := b.readPos_le
  have h₂ := b.writePos_le
  have h₃ := b.readPos_le_length
  rw [toFifo, List.length_take, length_memory, size, readCount, readCount2]
  split_ifs <;> omega

@[simp] theorem length_spare (b : CircularBuffer) : b.toFifo.spare.length = b.capacity := by
  have h₁ := b.readPos_le
  have h₂ := b.writePos_le
  have h₃ := b.readPos_le_length
  rw [toFifo, List.length_drop, length_memory, capacity, writeCount, writeCount2]
  split_ifs <;> omega

theorem size_add_capacity (b : CircularBuffer) : b.size + b.capacity = b.impl.length := by
  have h : b.toFifo.queue.length + b.toFifo.spare.length = b.memory.length := by
    rw [← List.length_append, toFifo, List.take_append_drop]
  rwa [length_queue, length_spare, length_memory] at h

theorem size_eq (b : CircularBuffer) : b.size = b.writePos - b.readPos := by
  have h₁ := b.readPos_le
  have h₃ := b.readPos_le_length
  rw [size, readCount, readCount2]
  split_ifs <;> omega

theorem readCount_eq_zero (b : CircularBuffer) : b.readCount = 0 ↔ b.size = 0 := by
  have h₁ := b.readPos_le
  have h₂ := b.writePos_le
  have h₃ := b.readPos_lt
  rw [size, readCount, readCount2]
  split_ifs <;> omega

theorem writeCount_eq_zero (b : CircularBuffer) : b.writeCount = 0 ↔ b.capacity = 0 := by
  have h₁ := b.readPos_le
  have h₂ := b.writePos_le
  rw [capacity, writeCount, writeCount2]
  split_ifs <;> omega

private theorem readPtr_eq_take {b : CircularBuffer} {n : ℕ} (h : n ≤ b.readCount) :
    b.readPtr n = b.toFifo.queue.take n := by
  have h₁ := b.readPos_le
  have h₃ := b.readPos_le_length
  have hn : n ≤ b.writePos - b.readPos := by rw [← size_eq, size]; omega
  have hfit : n ≤ (b.impl.drop b.readPos).length := by
    rw [List.length_drop]
    rw [readCount] at h
    split_ifs at h <;> omega
  rw [readPtr, toFifo, memory, List.take_take, Nat.min_eq_left hn,
    List.rotate_eq_drop_append_take h₃, List.take_append_of_le_length hfit]

theorem toFifo_didWrite (b : CircularBuffer) (count : ℕ) :
    (b.didWrite count).map toFifo = b.toFifo.publish count := by
  have h₁ := b.readPos_le
  have hsize := b.size_add_capacity
  rw [size_eq] at hsize
  rw [didWrite, Fifo.publish, length_spare]
  by_cases h : b.writePos + count ≤ b.readPos + b.impl.length
  · have hpos : b.writePos + count - b.readPos = b.writePos - b.readPos + count := by omega
    rw [dif_pos h, if_pos (by omega), Option.map_some]
    simp only [toFifo, memory, hpos, List.take_add, List.drop_drop]
  · rw [dif_neg h, if_neg (by omega), Option.map_none]

theorem toFifo_didRead (b : CircularBuffer) (count : ℕ) :
    (b.didRead count).map toFifo = b.toFifo.consume count := by
  have h₁ := b.readPos_le
  have h₂ := b.writePos_le
  rw [didRead, Fifo.consume, length_queue, size_eq]
  by_cases h : b.readPos + count ≤ b.writePos
  · -- in both cases the block is rotated on by `count`
    have hrotate (r w : ℕ) (hr : b.impl.rotate r = b.memory.rotate count)
        (hw : w - r = b.writePos - b.readPos - count) :
        Fifo.mk ((b.impl.rotate r).take (w - r)) ((b.impl.rotate r).drop (w - r)) =
          ⟨b.toFifo.queue.drop count, b.toFifo.spare ++ b.toFifo.queue.take count⟩ := by
      have hcount : count ≤ b.writePos - b.readPos := by omega
      have hlen : count ≤ b.memory.length := by rw [length_memory]; omega
      rw [hr, hw, List.rotate_eq_drop_append_take hlen, toFifo, List.drop_take, List.take_take,
        Nat.min_eq_left hcount, List.take_append_of_le_length, List.drop_append_of_le_length,
        List.drop_drop, Nat.add_sub_cancel' hcount] <;>
      · rw [List.length_drop, length_memory]
        omega
    rw [dif_pos h, if_pos (by omega)]
    split_ifs with hwrap
    · refine congrArg some (hrotate (b.readPos + count - b.impl.length)
        (b.writePos - b.impl.length) ?_ (by omega))
      rw [memory, List.rotate_rotate, ← List.rotate_mod, ← List.rotate_mod b.impl (_ + _),
        Nat.mod_eq_sub_mod hwrap]
    · refine congrArg some (hrotate (b.readPos + count) b.writePos ?_ (by omega))
      rw [memory, List.rotate_rotate]
  · rw [dif_neg h, if_neg (by omega), Option.map_none]

private theorem memory_fill {b : CircularBuffer} {s : Bytes} (h : s.length ≤ b.capacity) :
    (b.fill s h).memory = overwrite b.memory (b.writePos - b.readPos) s := by
  have h₁ := b.readPos_le
  have h₂ := b.writePos_le
  have h₃ := b.readPos_le_length
  have hptr := b.writePtr_add_writeCount_le
  have hfirst : (s.take b.writeCount).length ≤ b.writeCount := by
    rw [List.length_take]
    omega
  have hlen : (overwrite b.impl b.writePtr (s.take b.writeCount)).length = b.impl.length :=
    length_overwrite (by omega)
  show (b.filled s).rotate b.readPos = _
  rw [filled, memory]
  by_cases hw : b.writePos < b.impl.length
  · have hwp : b.writePtr = b.writePos := if_pos hw
    have hwc : b.writeCount = b.impl.length - b.writePos := if_pos hw
    have hwc2 : b.writeCount2 = b.readPos := if_pos hw
    rw [capacity, hwc2] at h
    rw [rotate_overwrite_of_add_le (by rw [hlen]; exact h₃) (by rw [List.length_drop]; omega), hlen,
      hwp, rotate_overwrite h₃ (by omega), Nat.add_zero]
    by_cases hs : s.length ≤ b.writeCount
    · rw [List.take_of_length_le hs, List.drop_eq_nil_of_le hs, overwrite_nil]
    · -- the first piece is filled up, so the second one continues it
      have hpos : b.impl.length - b.readPos
          = b.writePos - b.readPos + (s.take b.writeCount).length := by
        rw [List.length_take]
        omega
      rw [hpos, overwrite_overwrite (by rw [List.length_rotate]; omega), List.take_append_drop]
  · have hwp : b.writePtr = b.writePos - b.impl.length := if_neg hw
    have hwc : b.writeCount = b.readPos - (b.writePos - b.impl.length) := if_neg hw
    have hwc2 : b.writeCount2 = 0 := if_neg hw
    have hs : s.length ≤ b.writeCount := by rw [capacity, hwc2] at h; omega
    have hpos : b.impl.length - b.readPos + (b.writePos - b.impl.length)
        = b.writePos - b.readPos := by omega
    rw [List.take_of_length_le hs, List.drop_eq_nil_of_le hs, overwrite_nil, hwp,
      rotate_overwrite_of_add_le h₃ (by omega), hpos]

theorem toFifo_fill (b : CircularBuffer) (s : Bytes) (h : s.length ≤ b.capacity) :
    (b.fill s h).toFifo = b.toFifo.fill s := by
  have hsize := b.size_add_capacity
  have hlen : (b.memory.take (b.writePos - b.readPos)).length = b.writePos - b.readPos := by
    rw [List.length_take, length_memory, ← size_eq]
    omega
  have hover : overwrite b.memory (b.writePos - b.readPos) s
      = b.memory.take (b.writePos - b.readPos)
        ++ overwrite (b.memory.drop (b.writePos - b.readPos)) 0 s := by
    conv_lhs => rw [← List.take_append_drop (b.writePos - b.readPos) b.memory]
    rw [overwrite_append_right hlen.le, hlen, Nat.sub_self]
  show Fifo.mk ((b.fill s h).memory.take (b.writePos - b.readPos))
    ((b.fill s h).memory.drop (b.writePos - b.readPos)) = _
  rw [memory_fill, hover, List.take_left' hlen, List.drop_left' hlen]
  rfl

/-! ## Reading and writing -/

/-- `write_some`: as many of the bytes as `writeCount` allows, and how many these were. -/
def writeSome (b : CircularBuffer) (data : Bytes) : Option (ℕ × CircularBuffer) :=
  let wc := min data.length b.writeCount
  ((b.fill (data.take wc) (by rw [List.length_take, capacity]; omega)).didWrite wc).map (wc, ·)

/-- `read_some`: at most `size` bytes, and at most `readCount`. -/
def readSome (b : CircularBuffer) (size : ℕ) : Option (Bytes × CircularBuffer) :=
  let rc := min size b.readCount
  (b.didRead rc).map (b.readPtr rc, ·)

theorem exists_of_map_toFifo {o : Option CircularBuffer} {f : Fifo UInt8}
    (h : o.map toFifo = some f) : ∃ b, o = some b ∧ b.toFifo = f := by
  rcases o with _ | b
  · simp at h
  · exact ⟨b, rfl, Option.some.inj h⟩

/-- `write_some` appends to the queue; it takes no byte only when there is none or the buffer is
full. -/
theorem writeSome_spec (b : CircularBuffer) (data : Bytes) :
    ∃ b', b.writeSome data = some (min data.length b.writeCount, b') ∧
      b'.toFifo.queue = b.toFifo.queue ++ data.take (min data.length b.writeCount) ∧
      b'.toFifo.spare = b.toFifo.spare.drop (min data.length b.writeCount) := by
  have hlen : (data.take (min data.length b.writeCount)).length = min data.length b.writeCount := by
    rw [List.length_take]
    omega
  have hroom : (data.take (min data.length b.writeCount)).length ≤ b.capacity := by
    rw [hlen, capacity]
    omega
  have hdid := toFifo_didWrite (b.fill _ hroom) (min data.length b.writeCount)
  rw [toFifo_fill] at hdid
  have hpub := Fifo.publish_fill (f := b.toFifo) (s := data.take (min data.length b.writeCount))
    (by rw [length_spare]; exact hroom)
  rw [hlen] at hpub
  obtain ⟨b', hb', hfifo⟩ := exists_of_map_toFifo (hdid.trans hpub)
  refine ⟨b', ?_, by rw [hfifo], by rw [hfifo]⟩
  rw [writeSome]
  simp only [hb', Option.map_some]

/-- `read_some` takes bytes from the front of the queue; it takes none only when none are wanted or
the buffer is empty. -/
theorem readSome_spec (b : CircularBuffer) (size : ℕ) :
    ∃ b', b.readSome size = some (b.toFifo.queue.take (min size b.readCount), b') ∧
      b'.toFifo.queue = b.toFifo.queue.drop (min size b.readCount) ∧
      b'.toFifo.spare = b.toFifo.spare ++ b.toFifo.queue.take (min size b.readCount) := by
  have hle : min size b.readCount ≤ b.toFifo.queue.length := by
    rw [length_queue, CircularBuffer.size]
    omega
  have hcons := Fifo.consume_eq_some.mpr ⟨hle, rfl⟩
  obtain ⟨b', hb', hfifo⟩ :=
    exists_of_map_toFifo ((toFifo_didRead b (min size b.readCount)).trans hcons)
  refine ⟨b', ?_, by rw [hfifo], by rw [hfifo]⟩
  rw [readSome]
  simp only [hb', Option.map_some, readPtr_eq_take (Nat.min_le_right _ _)]

/-! ## Runs -/

/-- The bytes to read, at `read_ptr` and `read_ptr2`. -/
def unread (b : CircularBuffer) : Bytes :=
  (b.impl.drop b.readPos).take b.readCount ++ b.impl.take b.readCount2

/-- The bytes in the room for writing, at `write_ptr` and `write_ptr2`. -/
def room (b : CircularBuffer) : Bytes :=
  (b.impl.drop b.writePtr).take b.writeCount ++ b.impl.take b.writeCount2

theorem unread_eq (b : CircularBuffer) : b.unread = b.toFifo.queue := by
  have h₁ := b.readPos_le
  have h₂ := b.writePos_le
  have h₃ := b.readPos_le_length
  have hdrop : (b.impl.drop b.readPos).length = b.impl.length - b.readPos := List.length_drop
  rw [unread, toFifo, memory, List.rotate_eq_drop_append_take h₃, readCount, readCount2]
  split_ifs with hw
  · rw [List.take_zero, List.append_nil, List.take_append_of_le_length (by omega)]
  · -- the bytes wrap around: all of the first piece, and the start of the block
    have hfirst : (b.impl.drop b.readPos).take (b.writePos - b.readPos) = b.impl.drop b.readPos :=
      List.take_of_length_le (by omega)
    have hsecond : b.writePos - b.readPos - (b.impl.length - b.readPos)
        = b.writePos - b.impl.length := by omega
    rw [List.take_append, hdrop, hfirst, hsecond, ← hdrop, List.take_length, List.take_take,
      Nat.min_eq_left (by omega)]

private theorem room_eq (b : CircularBuffer) : b.room = b.toFifo.spare := by
  have h₁ := b.readPos_le
  have h₂ := b.writePos_le
  have h₃ := b.readPos_le_length
  have hdrop : (b.impl.drop b.readPos).length = b.impl.length - b.readPos := List.length_drop
  rw [room, toFifo, memory, List.rotate_eq_drop_append_take h₃, writePtr, writeCount, writeCount2]
  split_ifs with hw
  · have hpos : b.readPos + (b.writePos - b.readPos) = b.writePos := by omega
    have hfirst : (b.impl.drop b.writePos).take (b.impl.length - b.writePos)
        = b.impl.drop b.writePos := List.take_of_length_le (by rw [List.length_drop])
    rw [List.drop_append_of_le_length (by omega), List.drop_drop, hpos, hfirst]
  · have hfirst : (b.impl.drop b.readPos).drop (b.writePos - b.readPos) = [] :=
      List.drop_eq_nil_of_le (by omega)
    have hpos : b.writePos - b.readPos - (b.impl.length - b.readPos)
        = b.writePos - b.impl.length := by omega
    rw [List.drop_append, hdrop, hfirst, hpos, List.take_zero, List.append_nil, List.nil_append,
      List.drop_take]

inductive Operation
  | fill (s : Bytes)
  | didWrite (count : ℕ)
  | didRead (count : ℕ)
  | writeSome (data : Bytes)
  | readSome (size : ℕ)

/-- What an operation does to the buffer, and what it adds to it and takes from it. `none` when it
throws, and for bytes that are placed outside the room for writing. -/
def perform (b : CircularBuffer) : Operation → Option (Bytes × Bytes × CircularBuffer)
  | .fill s => if h : s.length ≤ b.capacity then some ([], [], b.fill s h) else none
  | .didWrite count => (b.didWrite count).map (b.room.take count, [], ·)
  | .didRead count => (b.didRead count).map ([], b.unread.take count, ·)
  | .writeSome data => (b.writeSome data).map fun p ↦ (data.take p.1, [], p.2)
  | .readSome size => (b.readSome size).map fun p ↦ ([], p.1, p.2)

/-- All that a sequence of operations adds and takes. -/
def performAll : List Operation → CircularBuffer → Option (Bytes × Bytes × CircularBuffer)
  | [], b => some ([], [], b)
  | op :: ops, b =>
    match b.perform op with
    | none => none
    | some (added, taken, b') =>
      (performAll ops b').map fun p ↦ (added ++ p.1, taken ++ p.2.1, p.2.2)

/-- An operation goes through when it stays within the bytes there are, or the room there is. -/
def Operation.Fits (b : CircularBuffer) : Operation → Prop
  | .fill s => s.length ≤ b.capacity
  | .didWrite count => count ≤ b.capacity
  | .didRead count => count ≤ b.size
  | .writeSome _ => True
  | .readSome _ => True

theorem perform_isSome_iff (b : CircularBuffer) (op : Operation) :
    (b.perform op).isSome ↔ op.Fits b := by
  rcases op with s | count | count | data | size
  · by_cases h : s.length ≤ b.capacity <;> simp [perform, Operation.Fits, h]
  · have h := congrArg Option.isSome (toFifo_didWrite b count)
    rw [Option.isSome_map, Fifo.publish, length_spare] at h
    rw [perform, Option.isSome_map, h, Operation.Fits]
    split_ifs with hle <;> simp [hle]
  · have h := congrArg Option.isSome (toFifo_didRead b count)
    rw [Option.isSome_map, Fifo.consume, length_queue] at h
    rw [perform, Option.isSome_map, h, Operation.Fits]
    split_ifs with hle <;> simp [hle]
  · obtain ⟨b', h, -⟩ := b.writeSome_spec data
    simp [perform, Operation.Fits, h]
  · obtain ⟨b', h, -⟩ := b.readSome_spec size
    simp [perform, Operation.Fits, h]

private theorem didWrite_eq_some {b b' : CircularBuffer} {count : ℕ} (h : b.didWrite count = some b') :
    b.toFifo.publish count = some b'.toFifo := by
  rw [← toFifo_didWrite, h, Option.map_some]

private theorem didRead_eq_some {b b' : CircularBuffer} {count : ℕ} (h : b.didRead count = some b') :
    b.toFifo.consume count = some b'.toFifo := by
  rw [← toFifo_didRead, h, Option.map_some]

/-- Every operation is one of the bounded queue. -/
theorem Run.perform {f : Fifo UInt8} {p c added taken : Bytes} {b b' : CircularBuffer}
    {op : Operation} (run : Fifo.Run f p c b.toFifo)
    (h : b.perform op = some (added, taken, b')) :
    Fifo.Run f (p ++ added) (c ++ taken) b'.toFifo := by
  rcases op with s | count | count | data | size <;> rw [CircularBuffer.perform] at h
  · split_ifs at h with hs
    simp only [Option.some.injEq, Prod.mk.injEq] at h
    obtain ⟨rfl, rfl, rfl⟩ := h
    rw [List.append_nil, List.append_nil, toFifo_fill]
    exact run.fill (by rwa [length_spare])
  · simp only [Option.map_eq_some_iff, Prod.mk.injEq] at h
    obtain ⟨b₁, hb, rfl, rfl, rfl⟩ := h
    rw [room_eq, List.append_nil]
    exact run.publish (didWrite_eq_some hb)
  · simp only [Option.map_eq_some_iff, Prod.mk.injEq] at h
    obtain ⟨b₁, hb, rfl, rfl, rfl⟩ := h
    rw [unread_eq, List.append_nil]
    exact run.consume (didRead_eq_some hb)
  · -- the bytes are placed in the room and then announced
    simp only [writeSome, Option.map_map, Option.map_eq_some_iff, Function.comp_apply,
      Prod.mk.injEq] at h
    obtain ⟨b₁, hb, rfl, rfl, rfl⟩ := h
    have hlen : (data.take (min data.length b.writeCount)).length
        = min data.length b.writeCount := by
      rw [List.length_take]
      omega
    have hroom : (data.take (min data.length b.writeCount)).length ≤ b.toFifo.spare.length := by
      rw [length_spare, hlen, capacity]
      omega
    have hpub := didWrite_eq_some hb
    rw [toFifo_fill] at hpub
    have hspare : (b.toFifo.fill (data.take (min data.length b.writeCount))).spare.take
        (min data.length b.writeCount) = data.take (min data.length b.writeCount) := by
      rw [Fifo.fill, overwrite, List.take_zero, List.nil_append, List.take_left' hlen]
    have hrun := (run.fill hroom).publish hpub
    rwa [hspare, ← List.append_nil c] at hrun
  · simp only [readSome, Option.map_map, Option.map_eq_some_iff, Function.comp_apply,
      Prod.mk.injEq] at h
    obtain ⟨b₁, hb, rfl, rfl, rfl⟩ := h
    rw [readPtr_eq_take (Nat.min_le_right _ _), List.append_nil]
    exact run.consume (didRead_eq_some hb)

theorem Run.performAll {f : Fifo UInt8} {p c added taken : Bytes} {b b' : CircularBuffer}
    {ops : List Operation} (run : Fifo.Run f p c b.toFifo)
    (h : performAll ops b = some (added, taken, b')) :
    Fifo.Run f (p ++ added) (c ++ taken) b'.toFifo := by
  induction ops generalizing p c added taken b with
  | nil =>
    simp only [CircularBuffer.performAll, Option.some.injEq, Prod.mk.injEq] at h
    obtain ⟨rfl, rfl, rfl⟩ := h
    simpa using run
  | cons op ops ih =>
    rw [CircularBuffer.performAll] at h
    rcases hop : b.perform op with _ | ⟨a, t, b₁⟩
    · simp [hop] at h
    · simp only [hop, Option.map_eq_some_iff, Prod.mk.injEq] at h
      obtain ⟨⟨a', t', b₂⟩, hops, rfl, rfl, rfl⟩ := h
      rw [← List.append_assoc, ← List.append_assoc]
      exact ih (Run.perform run hop) hops

/-- A buffer of `si` bytes is a bounded queue under every sequence of operations: what was taken out
of it, followed by what is left to read, is what was put into it, in order, and what is left never
exceeds `si`. -/
theorem performAll_fifo {si : ℕ} {ops : List Operation} {added taken : Bytes} {b : CircularBuffer}
    (h : performAll ops (new si) = some (added, taken, b)) :
    taken ++ b.unread = added ∧ b.unread.length = b.size ∧ b.size + b.capacity = si := by
  have run := Run.performAll (Fifo.Run.start _) h
  have hstart : (new si).toFifo.queue = [] := rfl
  have hbound := run.bound_eq
  rw [Fifo.bound, Fifo.bound, length_queue, length_spare, length_queue, length_spare,
    size_add_capacity (new si)] at hbound
  refine ⟨?_, ?_, hbound.trans List.length_replicate⟩
  · rw [unread_eq]
    simpa [hstart] using run.conserves
  · rw [unread_eq, length_queue]

end CircularBuffer

end CryoNero.P2p
