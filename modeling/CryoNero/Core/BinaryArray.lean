import CryoNero.Seria.Memory

/-!
# Arrays of bytes

An array of bytes is an allocated block of which the first bytes count. An operation works in the block
while there is room, and otherwise moves to a new block with room to spare. Sizes are words of 64 bits, and
what is copied may come from the block itself.

The search for a pattern is here too. The length that is left to search and the place to search from are
moved by different amounts.
-/

namespace CryoNero

open Seria Store

/-! ## Searching -/

/-- `memchr` over `count` bytes from `buf` on. -/
def memchr (data : Bytes) (c : UInt8) : ℕ → ℕ → Except Failure (Option ℕ)
  | 0, _ => .ok none
  | count + 1, buf => do
    let x ← readAt data buf
    if x = c then return some buf else memchr data c count (buf + 1)

namespace Common

/-- The loop of `slow_memmem`, from `buf` on. The distance to a null pointer, as an unsigned number, is more
than any length. -/
def slowMemmemFrom (data pat : Bytes) : ℕ → ℕ → ℕ → Except Failure (Option ℕ)
  | 0, _, _ => .error .outOfRange
  | turns + 1, buf, buflen =>
    if buflen = 0 then .ok none
    else do
      let c ← readAt pat 0
      match ← memchr data c buflen buf with
      | none => return none
      | some charPtr =>
        if buflen < charPtr - buf + pat.length then return none
        else do
          let bytes ← copyFrom data charPtr pat.length
          if bytes = pat then return some charPtr
          else slowMemmemFrom data pat turns (charPtr + 1) (buflen - (charPtr - buf))

/-- `slow_memmem`: a place in the data, or a null pointer. -/
def slowMemmem (data pat : Bytes) : Except Failure (Option ℕ) :=
  if pat.length = 0 then .ok none else slowMemmemFrom data pat (data.length + 1) 0 data.length

end Common

/-! ## The array -/

/-- `BinaryArrayImpl`: the block with its size, and how much of it counts. -/
structure BinaryArrayImpl where
  data : Bytes := []
  size : UInt64 := 0
  reserved : UInt64 := 0
  deriving DecidableEq, Repr

namespace BinaryArrayImpl

/-- What `new` gives: a block with whatever is in it, or nothing. -/
def Allocator : Type := (n : ℕ) → Option { block : Bytes // block.length = n }

/-- The bytes that are copied: those of another object in memory, or some of the block of the array. -/
inductive Source
  | other (bytes : Bytes) (h : bytes.length < 2 ^ 64)
  | own (be en : ℕ)

def Source.size : Source → ℕ
  | .other bytes _ => bytes.length
  | .own be en => en - be

/-- Where the bytes are, the block of the array being `data`. -/
def Source.place (data : Bytes) : Source → Bytes × ℕ
  | .other bytes _ => (bytes, 0)
  | .own be _ => (data, be)

def goodMemmove (dst : Bytes) (i : ℕ) (src : Bytes × ℕ) (size : ℕ) : Except Failure Bytes :=
  if size = 0 then .ok dst
  else do
    let bytes ← copyFrom src.1 src.2 size
    copyTo dst i bytes

def memset (dst : Bytes) (i : ℕ) (va : UInt8) (size : ℕ) : Except Failure Bytes :=
  copyTo dst i (List.replicate size va)

variable (new : Allocator) (s : BinaryArrayImpl)

/-- An array that is as long as its block. An allocation that fails is an exception. -/
def alloc (si : UInt64) : Except Failure BinaryArrayImpl := do
  let block ← orFail .refused (new si.toNat)
  return { data := block.1, size := si, reserved := si }

def insert (pos : ℕ) (source : Source) : Except Failure BinaryArrayImpl := do
  ensure (pos ≤ s.size.toNat) .refused
  let right := s.size.toNat - pos
  let add := source.size
  if s.size + UInt64.ofNat add ≤ s.reserved then do
    let data ← goodMemmove s.data (pos + add) (s.data, pos) right
    let data ← goodMemmove data pos (source.place data) add
    return { s with data := data, size := s.size + UInt64.ofNat add }
  else do
    let other ← alloc new ((s.size + UInt64.ofNat add + 32) * 3 / 2)
    let data ← goodMemmove other.data 0 (s.data, 0) pos
    let data ← goodMemmove data (pos + add) (s.data, pos) right
    let data ← goodMemmove data pos (source.place s.data) add
    return { other with data := data, size := s.size + UInt64.ofNat add }

/-- `insert` of one byte many times. -/
def insertFill (pos : ℕ) (add : UInt64) (va : UInt8) : Except Failure BinaryArrayImpl := do
  ensure (pos ≤ s.size.toNat) .refused
  let right := s.size.toNat - pos
  if s.size + add ≤ s.reserved then do
    let data ← goodMemmove s.data (pos + add.toNat) (s.data, pos) right
    let data ← memset data pos va add.toNat
    return { s with data := data, size := s.size + add }
  else do
    let other ← alloc new ((s.size + add + 32) * 3 / 2)
    let data ← goodMemmove other.data 0 (s.data, 0) pos
    let data ← goodMemmove data (pos + add.toNat) (s.data, pos) right
    let data ← memset data pos va add.toNat
    return { other with data := data, size := s.size + add }

def reserveGrow (re : UInt64) (more : Bool) : Except Failure BinaryArrayImpl :=
  if re ≤ s.reserved then .ok s
  else do
    let other ← alloc new (if more then (re + 32) * 3 / 2 else re)
    let data ← goodMemmove other.data 0 (s.data, 0) s.size.toNat
    return { other with data := data, size := s.size }

def reserve (re : UInt64) : Except Failure BinaryArrayImpl := reserveGrow new s re false

def pushBack (va : UInt8) : Except Failure BinaryArrayImpl := do
  let s ← reserveGrow new s (s.size + 1) true
  let data ← writeAt s.data s.size.toNat va
  return { s with data := data, size := s.size + 1 }

def assign (source : Source) : Except Failure BinaryArrayImpl :=
  let si := UInt64.ofNat source.size
  if si ≤ s.reserved then do
    let data ← goodMemmove s.data 0 (source.place s.data) source.size
    return { s with data := data, size := si }
  else do
    let other ← alloc new si
    let data ← goodMemmove other.data 0 (source.place s.data) source.size
    return { other with data := data }

def resize (si : UInt64) : Except Failure BinaryArrayImpl :=
  if si ≤ s.reserved then .ok { s with size := si }
  else do
    let other ← alloc new si
    let data ← goodMemmove other.data 0 (s.data, 0) s.size.toNat
    return { other with data := data }

/-- `resize` with a byte for what is added. -/
def resizeFill (si : UInt64) (va : UInt8) : Except Failure BinaryArrayImpl :=
  if si ≤ s.size then .ok { s with size := si }
  else if si ≤ s.reserved then do
    let data ← memset s.data s.size.toNat va (si - s.size).toNat
    return { s with data := data, size := si }
  else do
    let other ← alloc new si
    let data ← goodMemmove other.data 0 (s.data, 0) s.size.toNat
    let data ← memset data s.size.toNat va (si - s.size).toNat
    return { other with data := data }

/-- `append` -/
def append (source : Source) : Except Failure BinaryArrayImpl := insert new s s.size.toNat source

def appendFill (add : UInt64) (va : UInt8) : Except Failure BinaryArrayImpl :=
  insertFill new s s.size.toNat add va

/-- A call, with the allocator that it finds. -/
inductive Call
  | insert (new : Allocator) (pos : ℕ) (source : Source)
  | insertFill (new : Allocator) (pos : ℕ) (add : UInt64) (va : UInt8)
  | append (new : Allocator) (source : Source)
  | appendFill (new : Allocator) (add : UInt64) (va : UInt8)
  | assign (new : Allocator) (source : Source)
  | resize (new : Allocator) (si : UInt64)
  | resizeFill (new : Allocator) (si : UInt64) (va : UInt8)
  | reserve (new : Allocator) (re : UInt64)
  | pushBack (new : Allocator) (va : UInt8)

def step (s : BinaryArrayImpl) : Call → Except Failure BinaryArrayImpl
  | .insert new pos source => insert new s pos source
  | .insertFill new pos add va => insertFill new s pos add va
  | .append new source => append new s source
  | .appendFill new add va => appendFill new s add va
  | .assign new source => assign new s source
  | .resize new si => resize new s si
  | .resizeFill new si va => resizeFill new s si va
  | .reserve new re => reserve new s re
  | .pushBack new va => pushBack new s va

end BinaryArrayImpl

end CryoNero
