import CryoNero.Core.Pool
import CryoNero.Core.WalletTransaction
import CryoNero.Store.Searches

/-!
# The unconfirmed transactions of a wallet

A wallet looks at the transactions that are not in a block yet: those in the memory pool of its node, and
those of its own that it sends until they are in a block. It keeps the hashes of the pool as it last was.
The node answers a wallet that names these hashes with what has left the pool and what is new in it.

The wallet keeps the transactions it sends in a queue, where a transaction that has got into a block stays
for a day, in case the block is taken back.
-/

namespace CryoNero

open Seria Store

/-! ## The messages -/

namespace Api.SyncMemPool

structure Request where
  knownHashes : List Hash := []

structure Response where
  removedHashes : List Hash := []
  addedRawTransactions : List TransactionPrefix := []
  addedTransactions : List Api.Transaction := []

end Api.SyncMemPool

/-- What is said of an entry of the pool. All entries have the time zero. -/
def PoolTransaction.announced (tid : Hash) (entry : PoolTransaction) : Api.Transaction where
  hash := tid
  fee := entry.fee.toInt64
  binarySize := UInt32.ofNat entry.binaryTx.length

/-- `Node::on_sync_mempool3` -/
def Pool.onSyncMempool3 (pool : Pool) (req : Api.SyncMemPool.Request) :
    Except Failure Api.SyncMemPool.Response := do
  let added ← pool.stateTx.toList.filterM fun tx ↦ do
    let known ← binarySearch req.knownHashes tx.1
    return !known
  return {
    removedHashes := req.knownHashes.filter fun ex ↦ (pool.stateTx[ex]?).isNone
    addedRawTransactions := added.map fun tx ↦ tx.2.tx.toTransactionPrefix
    addedTransactions := added.map fun tx ↦ tx.2.announced tx.1 }

/-! ## The wallet -/

namespace WalletState

/-- A transaction in the queue, which is found by its hash. -/
structure QueueEntry where
  binaryTransaction : Bytes
  removeHeight : Height := 0

def QueueEntry.inBlockchain (entry : QueueEntry) : Bool := entry.removeHeight != 0

/-- The members of a wallet that are about transactions without a block. -/
structure Unconfirmed where
  memoryState : DeltaState := {}
  poolHashes : HashSet := ∅
  paymentQueue : Table Hash QueueEntry := ∅

/-- The rest of the wallet at the time of a call: the keys, the tip and the transactions in blocks. -/
structure Moment where
  keys : WalletKeys
  view : WalletStateView
  tip : Api.BlockHeader
  tipHeight : Height
  getTransaction : Hash → Option (TransactionPrefix × Api.Transaction)

namespace Unconfirmed

variable (env : WalletStateEnv) (m : Moment) (w : Unconfirmed)

def getTxPoolHashes : List Hash := w.poolHashes.toList.map Prod.fst

def enqueue (tid : Hash) (entry : QueueEntry) : Unconfirmed :=
  { w with paymentQueue := w.paymentQueue.insert tid entry }

def findInPaymentQueue (hash : Hash) : Option QueueEntry := w.paymentQueue[hash]?

/-- Whether a transaction in the queue is still to be sent. -/
def isSending (tid : Hash) : Bool := (w.findInPaymentQueue tid).any fun entry ↦ !entry.inBlockchain

def addTransactionToMempool (tid : Hash) (tx : TransactionPrefix) : Except Fault Unconfirmed := do
  let memoryState ← w.memoryState.addTransactionToMempool env m.keys m.view m.tip m.tipHeight tid tx
  return { w with memoryState := memoryState }

def undoTransaction (tid : Hash) : Except Fault Unconfirmed := do
  let memoryState ← w.memoryState.undoTransaction tid
  return { w with memoryState := memoryState }

def removeTransactionFromMempool (tid : Hash) : Except Fault Unconfirmed :=
  if (w.poolHashes[tid]?).isSome then .ok w
  else if w.isSending tid then .ok w
  else w.undoTransaction tid

/-! ## The pool of the node -/

/-- A hash is taken out of the hashes of the pool. -/
def erasePoolHash (tid : Hash) : Except Fault Unconfirmed :=
  if (w.poolHashes[tid]?).isSome then
    removeTransactionFromMempool { w with poolHashes := w.poolHashes.erase tid } tid
  else .ok w

/-- A turn of the loop over the new transactions; each has to come with its hash. -/
def insertPoolHash (resp : Api.SyncMemPool.Response) (added : TransactionPrefix × ℕ) :
    Except Fault Unconfirmed := do
  let announced ← orFail .keyMissing resp.addedTransactions[added.2]?
  addTransactionToMempool env m
    { w with poolHashes := w.poolHashes.insert announced.hash () } announced.hash added.1

/-- `sync_with_blockchain` with the answer about the pool. -/
def syncWithMempool (resp : Api.SyncMemPool.Response) : Except Fault Unconfirmed := do
  let w ← resp.removedHashes.foldlM erasePoolHash w
  resp.addedRawTransactions.zipIdx.foldlM (fun w added ↦ w.insertPoolHash env m resp added) w

/-- What `redo_block` does with a transaction of a block before it processes it. -/
def redoTransaction (tid : Hash) : Except Fault Unconfirmed := do
  let w ← w.erasePoolHash tid
  w.undoTransaction tid

/-! ## The queue -/

/-- `from_binary`, which throws when there is no transaction in the bytes. -/
def readQueued (binaryTransaction : Bytes) : Except Fault Transaction :=
  match fromBinary readTransaction {} binaryTransaction with
  | (tx, true) => .ok tx
  | (_, false) => .error .invariantViolated

def expectedBlocksPerDay (cur : Currency) : Height := 24 * 60 * 60 / cur.difficultyTarget

def addToPaymentQueue (binaryTransaction : Bytes) : Except Fault Unconfirmed := do
  let tx ← readQueued binaryTransaction
  let tid ← orFail .invariantViolated (getTransactionHash env.crypto.toCrypto tx)
  if (w.findInPaymentQueue tid).isSome then return w
  match m.getTransaction tid with
  | some (_, ptx) =>
    return w.enqueue tid ⟨binaryTransaction, ptx.blockHeight + expectedBlocksPerDay env.currency⟩
  | none => (w.enqueue tid ⟨binaryTransaction, 0⟩).addTransactionToMempool env m tid tx.toTransactionPrefix

/-- The next payment behind a hash that is still to be sent, with its bytes. When there is none, the hash
stays as it is and there are no bytes. -/
def getNextFromSendingQueue (previousHash : Hash) : Hash × Bytes :=
  match (w.paymentQueue.behind previousHash).find? fun e ↦ !e.2.inBlockchain with
  | none => (previousHash, [])
  | some (hash, entry) => (hash, entry.binaryTransaction)

/-- `WalletSync::send_send_transaction`: the payment that is sent, after which the search goes on. -/
def sendSendTransaction (nextSendHash : Hash) : Option Hash :=
  let next := w.getNextFromSendingQueue nextSendHash
  if next.2 = [] then none else some next.1

/-- The answers to a transaction that the node does not take. -/
def wrongOutputReference : ℤ := -102
def outputAlreadySpent : ℤ := -103

/-- A transaction that was refused for what it spends is given up when this has been so for a day. -/
def processPaymentQueueSendError (hash : Hash) (code : ℤ) (conflictHeight : Height) :
    Except Fault Unconfirmed :=
  if code = outputAlreadySpent ∨ code = wrongOutputReference then
    if conflictHeight + expectedBlocksPerDay env.currency < m.tipHeight then
      removeTransactionFromMempool { w with paymentQueue := w.paymentQueue.erase hash } hash
    else .ok w
  else .ok w

/-- A transaction in the queue whose block was taken back is sent again. -/
def removedFromBc (tid : Hash) : Except Fault Unconfirmed :=
  match w.findInPaymentQueue tid with
  | none => .ok w
  | some entry => do
    let w := w.enqueue tid { entry with removeHeight := 0 }
    let tx ← readQueued entry.binaryTransaction
    w.addTransactionToMempool env m tid tx.toTransactionPrefix

/-- A transaction in the queue that has got into a block is not sent any more. -/
def addedToBc (tid : Hash) : Except Fault Unconfirmed :=
  match w.findInPaymentQueue tid, m.getTransaction tid with
  | some entry, some (_, ptx) =>
    let removeHeight := ptx.blockHeight + expectedBlocksPerDay env.currency
    (w.enqueue tid { entry with removeHeight := removeHeight }).removeTransactionFromMempool tid
  | _, _ => .ok w

def fixPaymentQueueAfterUndoRedo : Except Fault Unconfirmed := do
  let removed := w.paymentQueue.toList.filter fun e ↦
    e.2.inBlockchain && (m.getTransaction e.1).isNone
  let added := w.paymentQueue.toList.filter fun e ↦
    !e.2.inBlockchain && (m.getTransaction e.1).isSome
  let w ← removed.foldlM (fun w e ↦ w.removedFromBc env m e.1) w
  let w ← added.foldlM (fun w e ↦ w.addedToBc env m e.1) w
  return { w with paymentQueue := w.paymentQueue.filter fun _ entry ↦
    !(decide (1 ≤ entry.removeHeight ∧ entry.removeHeight ≤ m.tipHeight)) }

end Unconfirmed

end WalletState

end CryoNero
