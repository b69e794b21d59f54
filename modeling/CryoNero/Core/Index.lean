import CryoNero.Core.Currency
import CryoNero.Store.Outcome

/-!
# The indexes over the main chain

Redoing a block enters its key images, its outputs, its transactions and its timestamp into the
indexes of the database; undoing it takes them out again. Outputs of one amount form a stack whose
positions are the global indices. The height of a stack is cached once it was looked up.
-/

namespace CryoNero

open Seria Store

structure UnlockTimePublickKeyHeightSpent where
  unlockTime : UnlockMoment := 0
  publicKey : PublicKey := 0
  height : Height := 0
  spent : Bool := false
  deriving DecidableEq, Repr

/-- Where the bytes of a transaction are found. -/
structure TransactionPos where
  height : Height := 0
  offset : UInt32 := 0
  size : UInt32 := 0
  index : UInt32 := 0
  deriving DecidableEq, Repr

structure Index where
  keyimages : Table KeyImage Height := ∅
  amountOutputs : Table (Amount ×ₗ UInt32) UnlockTimePublickKeyHeightSpent := ∅
  /-- The number of outputs of an amount, for the amounts that were looked up. -/
  nextGiForAmount : Table Amount UInt32 := ∅
  blockGlobalIndices : Table Hash (List (List UInt32)) := ∅
  transactionPos : Table Hash TransactionPos := ∅
  timestampBlock : Table (Timestamp ×ₗ Height) Unit := ∅

/-- `put` with `nooverwrite`. -/
def putNew {κ ν : Type} [Ord κ] [Std.TransOrd κ] (t : Table κ ν) (k : κ) (v : ν) :
    Except Fault (Table κ ν) := orFail .keyExists (t.putNew k v)

/-- `del` with `mustexist`. -/
def delOld {κ ν : Type} [Ord κ] [Std.TransOrd κ] (t : Table κ ν) (k : κ) :
    Except Fault (Table κ ν) := orFail .keyMissing (t.delOld k)

theorem putNew_eq_ok {κ ν : Type} [Ord κ] [Std.TransOrd κ] {t t' : Table κ ν} {k : κ} {v : ν} :
    putNew t k v = .ok t' ↔ t[k]? = none ∧ t' = t.insert k v := by
  rw [putNew, orFail_eq_ok, Table.putNew_eq_some]

theorem delOld_eq_ok {κ ν : Type} [Ord κ] [Std.TransOrd κ] {t t' : Table κ ν} {k : κ} :
    delOld t k = .ok t' ↔ (∃ v, t[k]? = some v) ∧ t' = t.erase k := by
  rw [delOld, orFail_eq_ok, Table.delOld_eq_some]

namespace Index

variable (idx : Index)

def storeKeyimage (keyImage : KeyImage) (height : Height) : Except Fault Index := do
  let t ← putNew idx.keyimages keyImage height
  return { idx with keyimages := t }

def deleteKeyimage (keyImage : KeyImage) : Except Fault Index := do
  let t ← delOld idx.keyimages keyImage
  return { idx with keyimages := t }

def readKeyimage (keyImage : KeyImage) : Option Height := idx.keyimages[keyImage]?

def readAmountOutput (amount : Amount) (globalIndex : UInt32) :
    Option UnlockTimePublickKeyHeightSpent := idx.amountOutputs[toLex (amount, globalIndex)]?

/-- The cached number of outputs, else one more than the last index in the database. -/
def nextGlobalIndexForAmount (amount : Amount) : UInt32 :=
  match idx.nextGiForAmount[amount]? with
  | some n => n
  | none =>
    match idx.amountOutputs.lastBelow amount with
    | some g => g + 1
    | none => 0

def pushAmountOutput (amount : Amount) (unlockTime : UnlockMoment) (blockHeight : Height)
    (pk : PublicKey) : Except Fault Index := do
  let myGi := idx.nextGlobalIndexForAmount amount
  let t ← putNew idx.amountOutputs (toLex (amount, myGi))
    { unlockTime := unlockTime, publicKey := pk, height := blockHeight }
  return { idx with amountOutputs := t, nextGiForAmount := idx.nextGiForAmount.insert amount (myGi + 1) }

def popAmountOutput (amount : Amount) (unlockTime : UnlockMoment) (pk : PublicKey) :
    Except Fault Index := do
  let nextGi := idx.nextGlobalIndexForAmount amount
  ensure (nextGi ≠ 0) .invariantViolated
  let unp ← orFail .invariantViolated (idx.readAmountOutput amount (nextGi - 1))
  ensure (unp.spent = false ∧ unp.unlockTime = unlockTime ∧ unp.publicKey = pk) .invariantViolated
  let t ← delOld idx.amountOutputs (toLex (amount, nextGi - 1))
  return { idx with amountOutputs := t, nextGiForAmount := idx.nextGiForAmount.insert amount (nextGi - 1) }

/-- Set the flag of an output; an output that does not exist is left alone. -/
def spendOutput (amount : Amount) (globalIndex : UInt32) (spent : Bool) : Index :=
  match idx.readAmountOutput amount globalIndex with
  | none => idx
  | some was =>
    { idx with
      amountOutputs := idx.amountOutputs.insert (toLex (amount, globalIndex)) { was with spent := spent } }

/-- Take the outputs of a transaction off their stacks, the last one first. -/
def popOutputs (unlockTime : UnlockMoment) (outputs : List TransactionOutput) :
    Except Fault Index :=
  outputs.reverse.foldlM (fun idx output ↦
    match output.target with
    | .keyOutput o => idx.popAmountOutput output.amount unlockTime o.key) idx

/-- Undo an input: forget its key image and, when its ring has a single member, unspend that. -/
def undoInput (input : TransactionInput) : Except Fault Index :=
  match input with
  | .coinbaseInput _ => .ok idx
  | .keyInput i => do
    let idx ← idx.deleteKeyimage i.keyImage
    match i.outputIndexes with
    | [globalIndex] => return idx.spendOutput i.amount globalIndex false
    | _ => return idx

def undoTransaction (tx : TransactionPrefix) : Except Fault Index := do
  let idx ← idx.popOutputs tx.unlockTime tx.outputs
  tx.inputs.reverse.foldlM undoInput idx

/-- `BlockChainState::undo_block`. -/
def undoBlockState (bhash : Hash) (block : Block) : Except Fault Index := do
  let idx ← block.transactions.reverse.foldlM (fun idx tx ↦ idx.undoTransaction tx.toTransactionPrefix) idx
  let idx ← idx.undoTransaction block.header.baseTransaction.toTransactionPrefix
  let t ← delOld idx.blockGlobalIndices bhash
  return { idx with blockGlobalIndices := t }

/-- Delete the position of a transaction. -/
def deletePos (tid : Hash) : Except Fault Index := do
  let t ← delOld idx.transactionPos tid
  return { idx with transactionPos := t }

/-- Store the position of a transaction. -/
def storePos (tid : Hash) (pos : TransactionPos) : Except Fault Index := do
  let t ← putNew idx.transactionPos tid pos
  return { idx with transactionPos := t }

/-- `BlockChain::undo_block`. The positions of the transactions are found by the hashes in the
header of the block; a missing hash is an access out of range. -/
def undoBlock (c : Crypto) (bhash : Hash) (block : Block) (height : Height) : Except Fault Index := do
  let idx ← idx.undoBlockState bhash block
  let t ← delOld idx.timestampBlock (toLex (block.header.timestamp, height))
  let idx := { idx with timestampBlock := t }
  let tid ← orFail .notWritable (getTransactionHash c block.header.baseTransaction)
  let idx ← idx.deletePos tid
  (List.range block.transactions.length).foldlM (fun idx i ↦ do
    let tid ← orFail .invariantViolated block.header.transactionHashes[i]?
    idx.deletePos tid) idx

end Index

end CryoNero
