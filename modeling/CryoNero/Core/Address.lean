import CryoNero.Core.Base58
import CryoNero.Core.Format

/-!
# Addresses

The text of an address is the Base58 text of a tag, the keys and the first bytes of a hash of both. The tag
is an integer of variable length, so that where the keys begin is known only once it has been read.
-/

namespace CryoNero

open Seria Seria.Reader Store

/-! ## Integers of variable length -/

/-- `get_varint_data` for an integer of 64 bits. -/
def getVarintData (v : UInt64) : Bytes := writeU64 v

/-- The loop of `read_varint` for an integer of 64 bits, after `read` bytes with the bits of `i`. It gives
the number of bytes that were read, or a negative number. -/
def readVarintFrom (shift read : ℕ) (i : UInt64) : Bytes → ℤ × UInt64
  | [] => (read, i)  -- end of input
  | byte :: s =>
    if 64 ≤ shift + 7 ∧ 2 ^ (64 - shift) ≤ byte.toNat then (-1, i)
    else if byte = 0 ∧ shift ≠ 0 then (-2, i)
    else
      let i := i ||| (byte &&& 0x7f).toUInt64 <<< UInt64.ofNat shift
      if byte &&& 0x80 = 0 then (read + 1, i) else readVarintFrom (shift + 7) (read + 1) i s

/-- `read_varint` -/
def readVarint64 (s : Bytes) : ℤ × UInt64 := readVarintFrom 0 0 0 s

namespace Base58

/-! ## Texts with a tag and a checksum -/

def addrChecksumSize : ℕ := 4

def encodeAddr (c : Crypto) (tag : UInt64) (data : Bytes) : Except Failure Bytes :=
  let buf := getVarintData tag ++ data
  encode (buf ++ (writeHash (c.cnFastHash buf)).take addrChecksumSize)

def decodeAddr (c : Crypto) (addr : Bytes) : Except Failure (UInt64 × Bytes) := do
  let addrData ← decode addr
  ensure (¬addrData.length ≤ addrChecksumSize) .refused
  let checksum := addrData.drop (addrData.length - addrChecksumSize)
  let addrData := addrData.take (addrData.length - addrChecksumSize)
  let expectedChecksum := (writeHash (c.cnFastHash addrData)).take addrChecksumSize
  ensure (¬expectedChecksum ≠ checksum) .refused
  let read := readVarint64 addrData
  ensure (¬read.1 ≤ 0) .refused
  return (read.2, addrData.drop read.1.toNat)

end Base58

/-! ## Addresses of accounts -/

def readAccountPublicAddress : Reader AccountPublicAddress :=
  (on (·.spendPublicKey) (fun x v ↦ { v with spendPublicKey := x }) readHash).andThen <|
  on (·.viewPublicKey) (fun x v ↦ { v with viewPublicKey := x }) readHash

def writeAccountPublicAddress (v : AccountPublicAddress) : Bytes :=
  writeHash v.spendPublicKey ++ writeHash v.viewPublicKey

def getAccountAddressAsStr (c : Crypto) (tag : UInt64) (adr : AccountPublicAddress) :
    Except Failure Bytes :=
  Base58.encodeAddr c tag (writeAccountPublicAddress adr)

def parseAccountAddressString (c : Crypto) (str : Bytes) :
    Except Failure (UInt64 × AccountPublicAddress) := do
  let data ← Base58.decodeAddr c str
  match fromBinary readAccountPublicAddress ⟨0, 0⟩ data.2 with
  | (_, false) => .error .refused
  | (adr, true) =>
    ensure (c.keyIsvalid adr.spendPublicKey ∧ c.keyIsvalid adr.viewPublicKey) .refused
    return (data.1, adr)

end CryoNero
