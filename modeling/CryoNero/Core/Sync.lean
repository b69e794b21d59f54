import CryoNero.Core.Node

/-!
# What the node is asked

Transactions are looked up by their hash. Other nodes and wallets catch up with the main chain: they
send a locator, a list of hashes that gets sparser the further it goes down, and are answered with a
run of blocks from the first hash on that is known here.
-/

namespace CryoNero

open Seria Store

/-- A transaction of the main chain, and where it is. -/
structure FoundTransaction where
  tx : Transaction
  blockHeight : Height
  blockHash : Hash
  indexInBlock : UInt32
  binarySize : UInt32

namespace State

variable (s : State)

/-- The bytes at the position that is stored for a transaction. -/
def locateTransaction (tid : Hash) : Except Fault (Option (TransactionPos × Hash × Bytes)) :=
  match s.ledger.index.transactionPos[tid]? with
  | none => .ok none
  | some tpos => do
    let bid ← orFail .invariantViolated s.chain.tip.tipChain[tpos.height]?
    let blockData ← orFail .invariantViolated s.chain.tree.blocks[bid]?
    ensure ((tpos.offset + tpos.size).toNat ≤ blockData.length) .invariantViolated
    return some (tpos, bid, (blockData.drop tpos.offset.toNat).take tpos.size.toNat)

def readTransaction (tid : Hash) : Except Fault (Option FoundTransaction) := do
  let located ← s.locateTransaction tid
  match located with
  | none => return none
  | some (tpos, bid, tbody) =>
    match fromBinary CryoNero.readTransaction {} tbody with
    | (_, false) => .error .notWritable
    | (tx, true) =>
      return some
        { tx := tx, blockHeight := tpos.height, blockHash := bid, indexInBlock := tpos.index,
          binarySize := tpos.size }

end State

namespace BlockChain

variable (env : Env) (bc : BlockChain)

/-- The hashes of the main chain from the one `jump` below the tip on, `found` of them being there
already. The steps are of one block up to the tenth hash, and double from there. -/
def sparseFrom : ℕ → UInt32 → ℕ → Except Fault (List Hash)
  | 0, _, _ => .error .invariantViolated
  | fuel + 1, jump, found =>
    if jump ≤ bc.tip.tipHeight then do
      let bid ← orFail .invariantViolated bc.tip.tipChain[bc.tip.tipHeight - jump]?
      let step : UInt32 := if found + 1 ≤ 10 then 1 else 1 <<< UInt32.ofNat (found + 1 - 10)
      let rest ← sparseFrom fuel (jump + step) (found + 1)
      return bid :: rest
    else .ok []

def getSparseChain : Except Fault (List Hash) := do
  let path ← bc.sparseFrom 64 0 0
  match path.getLast? with
  | none => .error .invariantViolated
  | some back => return if back = env.genesisBlockHash then path else path ++ [env.genesisBlockHash]

/-- Go down from a block to the main chain. A height has 32 bits, so that many steps are enough. -/
def descendToMain : ℕ → Api.BlockHeader → Except Fault Api.BlockHeader
  | 0, _ => .error .invariantViolated
  | fuel + 1, header =>
    if header.height = 0 ∨ bc.tip.tipChain[header.height]? = some header.hash then .ok header
    else do
      let next ← bc.readHeader! header.previousBlockHash 0
      descendToMain fuel next

/-- The hashes of the main chain from a height up to the tip, `count` of them at most. -/
def chainFrom : ℕ → Height → Except Fault (List Hash)
  | 0, _ => .ok []
  | count + 1, height =>
    if height ≤ bc.tip.tipHeight then do
      let bid ← orFail .invariantViolated bc.tip.tipChain[height]?
      let rest ← chainFrom count (height + 1)
      return bid :: rest
    else .ok []

/-- The start height and the run of the main chain from there on. -/
def getSyncHeadersChain (locator : List Hash) (maxCount : ℕ) : Except Fault (Height × List Hash) :=
  match locator.findSome? fun lit ↦ bc.readHeader lit 0 with
  | none => .ok (bc.tip.tipHeight + 1, [])
  | some header => do
    let header ← bc.descendToMain (2 ^ 32) header
    let run ← bc.chainFrom maxCount header.height
    return (header.height, run)

end BlockChain

/-! ## Wallets -/

structure SyncBlocksRequest where
  sparseChain : List Hash
  firstBlockTimestamp : Timestamp := 0
  maxCount : UInt32 := 100

/-- `MAX_COUNT`. -/
def SyncBlocksRequest.maximalCount : UInt32 := 1000

/-- A block as a wallet gets it. -/
structure SyncBlock where
  header : Api.BlockHeader
  baseTransactionHash : Hash
  rawHeader : BlockTemplate
  rawTransactions : List Transaction
  transactionBinarySizes : List UInt32
  globalIndices : List (List UInt32)

structure SyncBlocksResponse where
  blocks : List SyncBlock
  startHeight : Height

inductive SyncError
  | emptySparseChain
  | wrongCurrency
  | tooBigMaxCount
  | fault (f : Fault)
  deriving DecidableEq, Repr

/-- A step that ends the request when it faults. -/
def orThrow {α : Type} : Except Fault α → Except SyncError α
  | .ok a => .ok a
  | .error f => .error (.fault f)

namespace State

variable (env : Env) (s : State)

/-- The height of the first entry in the index of timestamps from `ts` on. The index is ordered by
timestamps, and by heights where these are the same. -/
def getTimestampLowerBoundBlockIndex (ts : Timestamp) : Height :=
  match s.ledger.index.timestampBlock.toList.find? fun p ↦ decide (ts ≤ (ofLex p.1).1) with
  | none => s.chain.tip.tipHeight
  | some p => (ofLex p.1).2

/-- The hashes of the main chain from a height on, `count` of them at most. -/
def readChainFrom : ℕ → Height → List Hash
  | 0, _ => []
  | count + 1, height =>
    match s.chain.tip.tipChain[height]? with
    | none => []
    | some bid => bid :: readChainFrom count (height + 1)

/-- The run that a locator gives, moved up to `fullOffset`. -/
def moveUp (maxCount : ℕ) (fullOffset : Height) (run : Height × List Hash) : Height × List Hash :=
  if run.1.toNat + run.2.length ≤ fullOffset.toNat then
    (fullOffset, s.readChainFrom maxCount fullOffset)
  else if run.1 < fullOffset then (fullOffset, run.2.drop (fullOffset - run.1).toNat)
  else run

def syncBlock (bhash : Hash) : Except Fault SyncBlock := do
  let header ← orFail .invariantViolated (s.chain.readHeader bhash 0)
  let found ← s.chain.tree.readBlock bhash
  let p ← orFail .invariantViolated found
  let block := Block.fromRawBlock p.2
  ensure (block.2 = true) .invariantViolated
  let tid ← orFail .notWritable (getTransactionHash env.crypto block.1.header.baseTransaction)
  let sizes ← (List.range block.1.transactions.length).mapM fun i ↦
    orFail .invariantViolated p.2.transactions[i]?
  let globalIndices ← orFail .invariantViolated s.ledger.index.blockGlobalIndices[bhash]?
  return {
    header := header
    baseTransactionHash := tid
    rawHeader := block.1.header
    rawTransactions := block.1.transactions
    transactionBinarySizes := sizes.map fun b ↦ UInt32.ofNat b.length
    globalIndices := globalIndices }

/-- The time from which on a wallet wants blocks, less what the timestamp of a block may be ahead of
the clock. -/
def searchTimestamp (firstBlockTimestamp : Timestamp) : Timestamp :=
  let limit := Currency.getBlockFutureTimeLimit (s.chain.tip.tipHeight + 1)
  if firstBlockTimestamp < limit then 0 else firstBlockTimestamp - limit

def onWalletSync3 (req : SyncBlocksRequest) : Except SyncError SyncBlocksResponse := do
  ensure (req.sparseChain ≠ []) .emptySparseChain
  ensure (req.sparseChain.getLast? = some env.genesisBlockHash) .wrongCurrency
  ensure (req.maxCount ≤ SyncBlocksRequest.maximalCount) .tooBigMaxCount
  let fullOffset :=
    s.getTimestampLowerBoundBlockIndex (s.searchTimestamp req.firstBlockTimestamp)
  let supplement ← orThrow (s.chain.getSyncHeadersChain req.sparseChain req.maxCount.toNat)
  let run := s.moveUp req.maxCount.toNat fullOffset supplement
  let blocks ← run.2.mapM fun bhash ↦ orThrow (s.syncBlock env bhash)
  return { blocks := blocks, startHeight := run.1 }

end State

end CryoNero
