import CryoNero.Core.Varint
import CryoNero.Store.Arrays
import CryoNero.Words.Decimal
import CryoNero.Words.Wide

/-!
# Base58

Bytes are written as letters in blocks of eight bytes, which become eleven letters; the last block may be
shorter. The block is a number with its highest byte first, and its letters are the digits of the number.
Reading refuses lengths that no block has, characters that are no letters and numbers that are too large
for their block.

Every access to an array is checked here, so that an index that goes out of range shows.
-/

namespace CryoNero

namespace Base58

open Seria Store Words

/-! ## Tables -/

def alphabet : Bytes := ascii "123456789ABCDEFGHJKLMNPQRSTUVWXYZabcdefghijkmnopqrstuvwxyz"

def alphabetSize : ℕ := 58

def encodedBlockSizes : List ℕ := [0, 2, 3, 5, 6, 7, 9, 10, 11]

def fullBlockSize : ℕ := 8

def fullEncodedBlockSize : ℕ := 11

/-- The table of `reverse_alphabet`, from the first letter to the last. -/
def reverseAlphabetData : List ℤ :=
  alphabet.zipIdx.foldl (fun data p ↦ data.set (p.1.toNat - 0x31) p.2) (List.replicate 74 (-1))

/-- The digit that a letter stands for. What lies before the first letter has an index beyond the end. -/
def reverseAlphabet (letter : UInt8) : ℤ :=
  if letter < 0x31 then -1 else reverseAlphabetData.getD (letter.toNat - 0x31) (-1)

def decodedBlockSizesData : List ℤ :=
  encodedBlockSizes.zipIdx.foldl (fun data p ↦ data.set p.1 p.2) (List.replicate 12 (-1))

def decodedBlockSizes (encodedBlockSize : ℕ) : Except Failure ℤ :=
  readAt decodedBlockSizesData encodedBlockSize

/-! ## Blocks -/

/-- The loop of `encode_block`, with `i + 1` of the digits still to be written. -/
def encodeDigits (pos : ℕ) : ℕ → UInt64 → Bytes → Except Failure Bytes
  | 0, num, res => if num = 0 then .ok res else .error .outOfRange
  | i + 1, num, res =>
    if num = 0 then .ok res
    else do
      let remainder := num % 58
      let letter ← readAt alphabet remainder.toNat
      let res ← writeAt res (pos + i) letter
      encodeDigits pos i (num / 58) res

/-- `encode_block`, with the place in the text that the block is written to. -/
def encodeBlock (block : Bytes) (size : ℕ) (res : Bytes) (pos : ℕ) : Except Failure Bytes := do
  ensure (size ≤ block.length) .outOfRange
  let digits ← readAt encodedBlockSizes size
  encodeDigits pos digits (uintBeFromBytes (block.take size)) res

/-- The loop of `decode_block`, with the first `i` letters still to be read. The order overflows only
when no letter is left. -/
def decodeDigits (block : Bytes) : ℕ → UInt64 → UInt64 → Except Failure UInt64
  | 0, resNum, _ => .ok resNum
  | i + 1, resNum, order => do
    let letter ← readAt block i
    let digit := reverseAlphabet letter
    ensure (¬digit < 0) .refused
    let product := mul128 order (UInt64.ofNat digit.toNat)
    let tmp := resNum + product.2
    ensure (¬(tmp < resNum ∨ product.1 ≠ 0)) .refused
    decodeDigits block i tmp (order * 58)

def decodeBlock (block : Bytes) (size : ℕ) (res : Bytes) (pos : ℕ) : Except Failure Bytes := do
  let resSize ← decodedBlockSizes size
  ensure (¬resSize ≤ 0) .refused
  let resNum ← decodeDigits block size 0 1
  ensure (¬(resSize.toNat < fullBlockSize ∧ (1 : UInt64) <<< UInt64.ofNat (8 * resSize.toNat) ≤ resNum))
    .refused
  copyTo res pos (uintBeToBytes resSize.toNat resNum)

/-! ## Texts -/

def encode (data : Bytes) : Except Failure Bytes :=
  if data = [] then .ok []
  else do
    let fullBlockCount := data.length / fullBlockSize
    let lastBlockSize := data.length % fullBlockSize
    let lastEncodedSize ← readAt encodedBlockSizes lastBlockSize
    let res := List.replicate (fullBlockCount * fullEncodedBlockSize + lastEncodedSize) 0x31
    let res ← (List.range fullBlockCount).foldlM (fun res i ↦
      encodeBlock (data.drop (i * fullBlockSize)) fullBlockSize res (i * fullEncodedBlockSize)) res
    if 0 < lastBlockSize then
      encodeBlock (data.drop (fullBlockCount * fullBlockSize)) lastBlockSize res
        (fullBlockCount * fullEncodedBlockSize)
    else return res

def decode (enc : Bytes) : Except Failure Bytes :=
  if enc = [] then .ok []
  else do
    let fullBlockCount := enc.length / fullEncodedBlockSize
    let lastBlockSize := enc.length % fullEncodedBlockSize
    let lastBlockDecodedSize ← decodedBlockSizes lastBlockSize
    ensure (¬lastBlockDecodedSize < 0) .refused
    let data := List.replicate (fullBlockCount * fullBlockSize + lastBlockDecodedSize.toNat) 0
    let data ← (List.range fullBlockCount).foldlM (fun data i ↦
      decodeBlock (enc.drop (i * fullEncodedBlockSize)) fullEncodedBlockSize data
        (i * fullBlockSize)) data
    if 0 < lastBlockSize then
      decodeBlock (enc.drop (fullBlockCount * fullEncodedBlockSize)) lastBlockSize data
        (fullBlockCount * fullBlockSize)
    else return data

end Base58

end CryoNero
