import CryoNero.Core.Currency
import CryoNero.Core.Wallet
import CryoNero.Store.Bisection

/-!
# The table of checkpoints

The table is an array in memory, sorted by height, whose entries hold hashes as text. Three functions read
it, each with its own care for the end of the table and for a table without entries.
-/

namespace CryoNero

open Seria Store

namespace CheckpointTable

/-- `CheckpointData` as the table has it: the hash is text. -/
structure Entry where
  height : Height
  hash : String
  deriving DecidableEq, Repr

end CheckpointTable

/-- What the functions read. The size of the array is a word of 64 bits. -/
structure CheckpointTable where
  isTestnet : Bool
  genesisBlockHash : Hash
  checkpoints : List CheckpointTable.Entry
  sorted : checkpoints.Pairwise fun a b ↦ a.height ≤ b.height
  fits : checkpoints.length < 2 ^ 64

/-- `pod_from_hex` into a hash of zeros: the bytes in front of the first that is no number stay. -/
def hashFromHex (text : String) : Hash :=
  let rec bytes : Bytes → Bytes
    | a :: b :: text =>
      match fromHex a, fromHex b with
      | some value₁, some value₂ => UInt8.ofNat (16 * value₁ + value₂) :: bytes text
      | _, _ => []
    | _ => []
  let chars := text.toUTF8.toList
  if chars.length % 2 = 1 ∨ 32 < chars.length / 2 then 0
  else
    let data := bytes chars
    blobOfBytes 256 (data ++ List.replicate (32 - data.length) 0)

namespace CheckpointTable

variable (t : CheckpointTable)

def swCheckpointCount : UInt64 := if t.isTestnet then 1 else UInt64.ofNat t.checkpoints.length

def isInSwCheckpointZone (index : Height) : Except Failure Bool :=
  if t.isTestnet then .ok (index = 0)
  else do
    let last ← readAt t.checkpoints (t.swCheckpointCount - 1).toNat
    return index ≤ last.height

/-- Whether the hash is accepted, and whether there is a checkpoint at the height. -/
def checkSwCheckpoint (index : Height) (h : Hash) : Except Failure (Bool × Bool) :=
  if t.isTestnet ∨ index = 0 then
    .ok (if index = 0 then h = t.genesisBlockHash else true, index = 0)
  else do
    let it ← lowerBound (fun da ↦ da.height < index) t.checkpoints
    if it = t.swCheckpointCount.toNat then return (true, false)
    else
      let da ← readAt t.checkpoints it
      if da.height ≠ index then return (true, false)
      else return (keyToHex h = da.hash, true)

def lastSwCheckpoint : Except Failure (Height × Hash) :=
  if t.isTestnet ∨ t.swCheckpointCount = 0 then .ok (0, t.genesisBlockHash)
  else do
    let cp ← readAt t.checkpoints (t.swCheckpointCount - 1).toNat
    return (cp.height, hashFromHex cp.hash)

end CheckpointTable

end CryoNero
