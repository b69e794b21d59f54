import CryoNero.Seria.Containers

/-!
# Integers in the keys of a database

An integer that is part of a key is written in one to nine bytes. The first byte holds a small integer
itself, or the highest bits of one that is a little larger, or it tells how many bytes follow, with the
highest one first.
-/

namespace CryoNero

open Seria

/-- `uint_be_from_bytes` -/
def uintBeFromBytes (buf : Bytes) : UInt64 := buf.foldl (fun result b ↦ result <<< 8 ||| b.toUInt64) 0

/-- `uint_be_to_bytes` -/
def uintBeToBytes (si : ℕ) (val : UInt64) : Bytes := beBytes si val.toNat

/-- `read_varint_sqlite4`: the integer and what follows it, or `none` at a text that ends early. -/
def readVarintSqlite4 : Bytes → Option (UInt64 × Bytes)
  | [] => none
  | a0 :: s =>
    if a0 ≤ 240 then some (a0.toUInt64, s)
    else if a0 ≤ 248 then
      match s with
      | a1 :: s => some (240 + 256 * (a0.toUInt64 - 241) + a1.toUInt64, s)
      | _ => none
    else if a0 = 249 then
      match s with
      | b0 :: b1 :: s => some (2288 + 256 * b0.toUInt64 + b1.toUInt64, s)
      | _ => none
    else
      let bytes := 3 + a0.toNat - 250
      if bytes ≤ s.length then some (uintBeFromBytes (s.take bytes), s.drop bytes) else none

def writeVarintSqlite4 (val : UInt64) : Bytes :=
  if val ≤ 240 then [val.toUInt8]
  else if val ≤ 2287 then [((val - 240) / 256 + 241).toUInt8, (val - 240).toUInt8]
  else if val ≤ 67823 then [249, ((val - 2288) / 256).toUInt8, (val - 2288).toUInt8]
  else if val ≤ 16777215 then 250 :: uintBeToBytes 3 val
  else if val ≤ 4294967295 then 251 :: uintBeToBytes 4 val
  else if val ≤ 1099511627775 then 252 :: uintBeToBytes 5 val
  else if val ≤ 281474976710655 then 253 :: uintBeToBytes 6 val
  else if val ≤ 72057594037927935 then 254 :: uintBeToBytes 7 val
  else 255 :: uintBeToBytes 8 val

end CryoNero
