import CryoNero.Core.Index

/-!
# The memory pool

Transactions that wait for a block, with two indexes over them: by key image and by fee per byte.
-/

namespace CryoNero

open Seria Store

structure PoolTransaction where
  tx : Transaction
  binaryTx : Bytes
  fee : Amount
  deriving DecidableEq, Repr

def PoolTransaction.feePerByte (p : PoolTransaction) : Amount :=
  p.fee / UInt64.ofNat p.binaryTx.length

/-- The hashes of a set, in their order. -/
abbrev HashSet := Table Hash Unit

structure Pool where
  stateTx : Table Hash PoolTransaction := ∅
  stateKiTx : Table KeyImage Hash := ∅
  stateFeeTx : Table Amount HashSet := ∅
  totalSize : UInt64 := 0

def maxPoolSize : UInt64 := 2000000

namespace Pool

variable (pool : Pool)

/-- The entry with the smallest fee per byte; the sets in the index are not empty. -/
def minimumEntry : Except Fault (Option (Amount × Hash)) :=
  match pool.stateFeeTx.toList.head? with
  | none => .ok none
  | some (fee, hashes) =>
    match hashes.toList.head? with
    | none => .error .invariantViolated
    | some (tid, _) => .ok (some (fee, tid))

/-- `minimum_pool_fee_per_byte`, with a hash of zeros when the pool is empty. -/
def minimumPoolFeePerByte : Except Fault (Amount × Hash) := do
  let entry ← pool.minimumEntry
  return entry.getD (0, 0)

/-- `m_memory_state_tx.at`. -/
def at' (tid : Hash) : Except Fault PoolTransaction := orFail .invariantViolated pool.stateTx[tid]?

/-- Take a key image out of the index; it has to be there. -/
def eraseKeyImage (keyImage : KeyImage) : Except Fault Pool := do
  let t ← orFail .invariantViolated (pool.stateKiTx.delOld keyImage)
  return { pool with stateKiTx := t }

/-- Take a transaction out of the index by fee; a set that becomes empty is dropped. -/
def eraseFee (fee : Amount) (tid : Hash) : Except Fault Pool := do
  let hashes := (pool.stateFeeTx[fee]?).getD ∅
  let hashes ← orFail .invariantViolated (hashes.delOld tid)
  let t := if hashes.isEmpty then pool.stateFeeTx.erase fee else pool.stateFeeTx.insert fee hashes
  return { pool with stateFeeTx := t }

def removeFromPool (tid : Hash) : Except Fault Pool :=
  match pool.stateTx[tid]? with
  | none => .ok pool
  | some entry => do
    let pool ← entry.tx.keyInputs.foldlM (fun pool input ↦ pool.eraseKeyImage input.keyImage) pool
    let pool ← pool.eraseFee entry.feePerByte tid
    return { pool with
      totalSize := pool.totalSize - UInt64.ofNat entry.binaryTx.length
      stateTx := pool.stateTx.erase tid }

end Pool

end CryoNero
