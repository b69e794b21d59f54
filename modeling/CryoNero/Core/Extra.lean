import CryoNero.Core.WalletTransaction
import CryoNero.Seria.Memory

/-!
# The extra field, byte by byte

`parse_transaction_extra` reads an array at a position. Here every copy from the array is checked and every
loop has a bound, so that an access beyond the end shows, and a loop that does not end.
-/

namespace CryoNero

open Seria Seria.MemoryInputStream Store

/-! ## Reading -/

/-- The loop over the padding, with `rounds` left until `size` is too large. -/
def readPadding : ℕ → ℕ → MemoryInputStream → Except Failure (ℕ × MemoryInputStream)
  | 0, size, m => .ok (size, m)
  | rounds + 1, size, m =>
    if m.size = 0 then .ok (size, m)
    else do
      let c ← m.readByte
      ensure (¬c.1 ≠ 0) .refused
      readPadding rounds (size + 1) c.2

def readHashAt (m : MemoryInputStream) : Except Failure (Hash × MemoryInputStream) := do
  let data ← m.read 32
  return (blobOfBytes 256 data.1, data.2)

/-- The tag lies in a string of its own, which is read as another array. -/
def readMergeMiningTagAt (m : MemoryInputStream) :
    Except Failure (TransactionExtraMergeMiningTag × MemoryInputStream) := do
  let field ← m.readString
  let depth ← MemoryInputStream.readVarint64 ⟨field.1, 0⟩
  let merkleRoot ← readHashAt depth.2
  return ({ depth := UInt64.ofNat depth.1, merkleRoot := merkleRoot.1 }, field.2)

/-- One round of `parse_transaction_extra`; a byte that is no tag is skipped. -/
def readTransactionExtraField (m : MemoryInputStream) :
    Except Failure (Option TransactionExtraField × MemoryInputStream) := do
  let c ← m.readByte
  if c.1 = 0x00 then do
    let size ← readPadding txExtraPaddingMaxCount 1 c.2
    ensure (¬txExtraPaddingMaxCount < size.1) .refused
    return (some (.padding size.1), size.2)
  else if c.1 = 0x01 then do
    let key ← readHashAt c.2
    return (some (.publicKey key.1), key.2)
  else if c.1 = 0x02 then do
    let size ← c.2.readByte
    if 0 < size.1.toNat then do
      let nonce ← size.2.read size.1.toNat
      return (some (.nonce nonce.1), nonce.2)
    else return (some (.nonce []), size.2)
  else if c.1 = 0x03 then do
    let tag ← readMergeMiningTagAt c.2
    return (some (.mergeMiningTag tag.1), tag.2)
  else return (none, c.2)

/-- The loop of `parse_transaction_extra`, of at most `fuel` rounds. What is thrown is caught. -/
def parseTransactionExtraAt :
    ℕ → MemoryInputStream → List TransactionExtraField →
      Except Failure (List TransactionExtraField × Bool)
  | 0, _, _ => .error .outOfRange
  | fuel + 1, m, extraFields =>
    if m.size = 0 then .ok (extraFields, true)
    else
      match readTransactionExtraField m with
      | .ok (field, m) => parseTransactionExtraAt fuel m (extraFields ++ field.toList)
      | .error .refused => .ok (extraFields, false)
      | .error .outOfRange => .error .outOfRange

/-! ## Writing -/

/-- `ExtraSerializerVisitor` -/
def writeTransactionExtraField (extra : Bytes) : TransactionExtraField → Option Bytes
  | .padding size =>
    if txExtraPaddingMaxCount < size then none else some (extra ++ List.replicate size 0)
  | .publicKey key => some (addTransactionPublicKeyToExtra extra key)
  | .nonce bytes => addExtraNonceToTransactionExtra extra bytes
  | .mergeMiningTag tag => some (appendMergeMiningTagToExtra extra tag)

def writeTransactionExtra (txExtra : Bytes) (txExtraFields : List TransactionExtraField) : Option Bytes :=
  txExtraFields.foldlM writeTransactionExtraField txExtra

/-- `set_payment_id_to_transaction_extra_nonce` -/
def setPaymentIdToTransactionExtraNonce (paymentId : Hash) : Bytes :=
  txExtraNoncePaymentId :: writeHash paymentId

end CryoNero
