import CryoNero.Core.Redo

/-!
# Headers and consensus

The tree of all blocks, the main chain in it, and the check that a block has to pass before it is
stored anywhere. The check works through the block in stages; each stage may refuse the block, and
what it has computed up to there is in the header it hands on.
-/

namespace CryoNero

open Seria Store

/-! ## The state of the chain -/

/-- All blocks and their headers, and how many children each has. -/
structure Tree where
  blocks : Table Hash Bytes := ∅
  headers : Table Hash Api.BlockHeader := ∅
  /-- The counters that are not 1, which is the counter of a block that is not there. -/
  children : Table Hash UInt32 := ∅
  cdTips : Table (Difficulty ×ₗ Hash) Unit := ∅

/-- The main chain. The height of the empty chain is the largest number. -/
structure Tip where
  tipChain : Table Height Hash := ∅
  tipBid : Hash := 0
  tipCumulativeDifficulty : Difficulty := 0
  tipHeight : Height := 0xFFFFFFFF
  /-- The headers at the end of the main chain, the last one first. -/
  headerTipWindow : List Api.BlockHeader := []
  nextMedianSize : UInt32 := 0
  nextMedianTimestamp : Timestamp := 0

/-- The block tree with the main chain, and the headers that were read lately. -/
structure BlockChain where
  tree : Tree := {}
  tip : Tip := {}
  headerCache : Table Hash Api.BlockHeader := ∅

/-- A block with everything that was computed on the way to the chain. -/
structure PreparedBlock where
  blockData : Bytes
  rawBlock : RawBlock
  block : Block
  bid : Hash := 0
  baseTransactionHash : Hash
  coinbaseTxSize : ℕ
  parentBlockSize : ℕ
  longBlockHash : Hash := 0

/-- The size of the transactions of a block. -/
def PreparedBlock.cumulativeSize (pb : PreparedBlock) : ℕ :=
  (pb.rawBlock.transactions.map List.length).sum

/-- The common part of the constructors. A block that does not read keeps a `bid` of zeros. With a
hashing context the proof of work is computed at once. -/
def PreparedBlock.prepare (env : Env) (context : Bool) (blockData : Bytes) (rawBlock : RawBlock) :
    Except Fault PreparedBlock := do
  let p := Block.fromRawBlock rawBlock
  let block := p.1
  let bid ← if p.2 then orFail .notWritable (getBlockHash env.crypto block.header) else .ok 0
  let parentBlockSize :=
    if 2 ≤ block.header.majorVersion then (writePlainParentBlock block.header.parentBlock).length
    else 0
  let coinbaseTx ← orFail .notWritable (writeTransaction block.header.baseTransaction)
  let longBlockHash ←
    if context then orFail .notWritable (getBlockLongHash env.crypto block.header) else .ok 0
  return {
    blockData := blockData, rawBlock := rawBlock, block := block, bid := bid,
    baseTransactionHash := env.crypto.cnFastHash coinbaseTx, coinbaseTxSize := coinbaseTx.length,
    parentBlockSize := parentBlockSize, longBlockHash := longBlockHash }

/-- A block as it comes from a peer. -/
def PreparedBlock.ofRawBlock (env : Env) (context : Bool) (rawBlock : RawBlock) :
    Except Fault PreparedBlock :=
  PreparedBlock.prepare env context (writeRawBlock rawBlock) rawBlock

/-- A block as it comes from a file. -/
def PreparedBlock.ofData (env : Env) (context : Bool) (blockData : Bytes) :
    Except Fault PreparedBlock :=
  match fromBinary readRawBlock {} blockData with
  | (rawBlock, true) => PreparedBlock.prepare env context blockData rawBlock
  | (_, false) => .error .notWritable

namespace BlockChain

variable (bc : BlockChain)

/-- The header in the window where a block of height `hint` would be. -/
def windowCandidate (hint : Height) : Option Api.BlockHeader :=
  if bc.tip.tipHeight ≠ 0xFFFFFFFF ∧ hint ≤ bc.tip.tipHeight then
    bc.tip.headerTipWindow[(bc.tip.tipHeight - hint).toNat]?
  else none

/-- `read_header`: from the window, from the cache, from the database. -/
def readHeader (bid : Hash) (hint : Height) : Option Api.BlockHeader :=
  match bc.windowCandidate hint with
  | some candidate =>
    if candidate.hash = bid then some candidate else
      (bc.headerCache[bid]?).or (bc.tree.headers[bid]?)
  | none => (bc.headerCache[bid]?).or (bc.tree.headers[bid]?)

/-- `read_header` of a block that has to be there. -/
def readHeader! (bid : Hash) (hint : Height) : Except Fault Api.BlockHeader :=
  orFail .invariantViolated (bc.readHeader bid hint)

def getTip : Except Fault Api.BlockHeader :=
  match bc.tip.headerTipWindow with
  | [] => .error .invariantViolated
  | header :: _ => if bc.tip.tipBid = header.hash then .ok header else .error .invariantViolated

/-- The headers from `pi` down, not further than `window` and without the genesis block, and the
header where that ends. -/
def tipSegmentFrom : ℕ → Api.BlockHeader → Except Fault (List Api.BlockHeader × Api.BlockHeader)
  | 0, pi => .ok ([], pi)
  | window + 1, pi =>
    if pi.height = 0 then .ok ([], pi)
    else do
      let next ← bc.readHeader! pi.previousBlockHash (pi.height - 1)
      let p ← tipSegmentFrom window next
      return (pi :: p.1, p.2)

def getTipSegment (prevInfo : Api.BlockHeader) (window : Height) (addGenesis : Bool) :
    Except Fault (List Api.BlockHeader) :=
  if prevInfo.height = 0xFFFFFFFF then .ok []
  else do
    let p ← bc.tipSegmentFrom window.toNat prevInfo
    if p.1.length < window.toNat ∧ addGenesis = true then do
      ensure (p.2.height = 0) .invariantViolated
      return (p.1 ++ [p.2]).reverse
    else return p.1.reverse

end BlockChain

/-! ## Medians -/

/-- `median_value` of 32-bit numbers, whose sum may wrap around. -/
def medianValue (v : List UInt32) : UInt32 :=
  let sorted := v.insertionSort (· ≤ ·)
  let n := v.length / 2
  if v.length % 2 = 1 then sorted.getD n 0 else (sorted.getD (n - 1) 0 + sorted.getD n 0) / 2

namespace BlockChain

variable (bc : BlockChain)

/-- The medians that the block after `prevInfo` is checked against. The timestamp window depends on
the height of the tip. -/
def calculateConsensusValues (prevInfo : Api.BlockHeader) : Except Fault (UInt32 × Timestamp) := do
  let window ← bc.getTipSegment prevInfo Currency.rewardBlocksWindow true
  let nextMedianSize := medianValue (window.map (·.blockSize))
  let checkWindow := Currency.getTimestampCheckWindow (bc.tip.tipHeight + 1)
  let window ← bc.getTipSegment prevInfo checkWindow false
  if checkWindow.toNat ≤ window.length then
    return (nextMedianSize, medianValue (window.map (·.timestamp)))
  else return (nextMedianSize, 0)

end BlockChain

/-! ## The check -/

inductive ConsensusError
  | wrongTransactionsCount
  | rawTransactionSizeTooBig
  | transactionAbsentInPool
  | cumulativeBlockSizeTooBig
  | wrongVersion
  | parentBlockWrongVersion
  | parentBlockSizeTooBig
  | timestampTooFarInFuture
  | timestampTooFarInPast
  | inputWrongCount
  | inputUnexpectedType
  | baseInputWrongBlockIndex
  | wrongTransactionUnlockTime
  | outputZeroAmount
  | outputInvalidKey
  | outputsAmountOverflow
  | difficultyOverhead
  | wrongAmount
  | blockRewardMismatch
  | emptyInputs
  | inputUnknownType
  | inputIdenticalKeyimages
  | inputEmptyOutputUsage
  | inputIdenticalOutputIndexes
  | inputsAmountOverflow
  | checkpointBlockHashMismatch
  | proofOfWorkTooWeak
  deriving DecidableEq, Repr

/-- The sum of the amounts of outputs, none of which may be zero or have an invalid key. -/
def checkOutputs (c : Crypto) (checkKeys : Bool) (outputs : List TransactionOutput) :
    Except ConsensusError Amount :=
  outputs.foldlM (fun sum output ↦
    if output.amount = 0 then .error .outputZeroAmount
    else
      match output.target with
      | .keyOutput o =>
        if checkKeys = true ∧ c.keyIsvalid o.key = false then .error .outputInvalidKey
        else if 0xFFFFFFFFFFFFFFFF - output.amount < sum then .error .outputsAmountOverflow
        else .ok (sum + output.amount)) 0

/-- The checks of one input: no key image twice, no output of a ring twice, no overflow. The state
of the loop is the key images so far and the sum of the amounts. -/
def validateInput (generating : Bool) (acc : List KeyImage × Amount) (input : TransactionInput) :
    Except ConsensusError (List KeyImage × Amount) :=
  match input with
  | .coinbaseInput _ => if generating then .ok acc else .error .inputUnknownType
  | .keyInput i =>
    if generating then .error .inputUnknownType
    else if i.keyImage ∈ acc.1 then .error .inputIdenticalKeyimages
    else if i.outputIndexes = [] then .error .inputEmptyOutputUsage
    else if 0 ∈ i.outputIndexes.tail then .error .inputIdenticalOutputIndexes
    else if 0xFFFFFFFFFFFFFFFF - i.amount < acc.2 then .error .inputsAmountOverflow
    else .ok (i.keyImage :: acc.1, acc.2 + i.amount)

/-- `validate_semantic`: what can be checked of a transaction on its own. Returns the fee. -/
def validateSemantic (c : Crypto) (generating : Bool) (tx : Transaction) (checkOutputKey : Bool) :
    Except ConsensusError Amount := do
  if tx.inputs = [] then .error .emptyInputs
  let summaryOutputAmount ← checkOutputs c checkOutputKey tx.outputs
  let p ← tx.inputs.foldlM (validateInput generating) ([], 0)
  if p.2 < summaryOutputAmount ∧ generating = false then .error .wrongAmount
  else if tx.signatures.length ≠ tx.inputs.length ∧ generating = false then .error .inputUnknownType
  else if tx.signatures ≠ [] ∧ generating = true then .error .inputUnknownType
  else .ok (p.2 - summaryOutputAmount)

/-- The sums are taken without a check for overflow; there is no fee when the outputs exceed the
inputs. -/
def getTxFee (tx : TransactionPrefix) : Option Amount :=
  let amountIn := (tx.keyInputs.map (·.amount)).sum
  let amountOut := (tx.outputs.map (·.amount)).sum
  if amountIn < amountOut then none else some (amountIn - amountOut)

/-- How the check of a block ends early: the code gave up, or the block is refused, with the header
as far as it was filled in. -/
inductive Refusal
  | fault (f : Fault)
  | refuse (e : ConsensusError) (info : Api.BlockHeader)

/-- A stage of the check. -/
abbrev Check := Except Refusal Api.BlockHeader

/-- Refuse the block unless `p` holds. -/
def demand (p : Prop) [Decidable p] (e : ConsensusError) (info : Api.BlockHeader) :
    Except Refusal Unit := if p then .ok () else .error (.refuse e info)

/-- A computation that may give up, inside the check. -/
def orGiveUp {α : Type} : Except Fault α → Except Refusal α
  | .ok a => .ok a
  | .error f => .error (.fault f)

/-- A computation that may refuse the block, inside the check. -/
def orRefuse {α : Type} (info : Api.BlockHeader) : Except ConsensusError α → Except Refusal α
  | .ok a => .ok a
  | .error e => .error (.refuse e info)

namespace BlockChain

variable (env : Env) (bc : BlockChain) (pb : PreparedBlock)

/-- The medians: those cached for the block after the tip, or computed for another block. -/
def checkMedians (prevInfo info : Api.BlockHeader) : Check := do
  demand (pb.block.transactions.length = pb.block.header.transactionHashes.length ∧
    pb.block.transactions.length = pb.rawBlock.transactions.length) .wrongTransactionsCount info
  let medians ←
    if bc.tip.tipBid ≠ prevInfo.hash then orGiveUp (bc.calculateConsensusValues prevInfo)
    else .ok (bc.tip.nextMedianSize, bc.tip.nextMedianTimestamp)
  let zone := Currency.blockGrantedFullRewardZoneByBlockVersion pb.block.header.majorVersion
  .ok { info with
    sizeMedian := medians.1, timestampMedian := medians.2, effectiveSizeMedian := max medians.1 zone }

/-- The transactions in turn: their sizes, and their hashes against the header. -/
def checkTransactionHashes (info : Api.BlockHeader) : Except Refusal Unit :=
  (pb.rawBlock.transactions.zip (pb.block.transactions.zip pb.block.header.transactionHashes)).forM
    fun p ↦ do
      demand (p.1.length ≤ (Currency.maxTransactionAllowedSize info.effectiveSizeMedian).toNat)
        .rawTransactionSizeTooBig info
      let tid ← orGiveUp (orFail .notWritable (getTransactionHash env.crypto p.2.1))
      demand (tid = p.2.2) .transactionAbsentInPool info

def checkSizes (info : Api.BlockHeader) : Check := do
  checkTransactionHashes env pb info
  let info := { info with blockSize := UInt32.ofNat (pb.coinbaseTxSize + pb.cumulativeSize) }
  demand (info.blockSize ≤ env.currency.maxBlockCumulativeSize info.height)
    .cumulativeBlockSizeTooBig info
  .ok info

/-- The version, the parent block and the timestamp. The limit for the future depends on the height
of the tip. -/
def checkHeaderFields (now : Timestamp) (info : Api.BlockHeader) : Except Refusal Unit := do
  let header := pb.block.header
  demand (header.majorVersion = env.currency.getBlockMajorVersionForHeight info.height)
    .wrongVersion info
  demand (¬(header.majorVersion = 2 ∧ 1 < header.parentBlock.majorVersion))
    .parentBlockWrongVersion info
  demand (¬(2 ≤ header.majorVersion ∧ 2048 < pb.parentBlockSize)) .parentBlockSizeTooBig info
  demand (header.timestamp ≤ now + Currency.getBlockFutureTimeLimit (bc.tip.tipHeight + 1))
    .timestampTooFarInFuture info
  demand (info.timestampMedian ≤ header.timestamp) .timestampTooFarInPast info

/-- The coinbase transaction; returns the sum of its outputs. -/
def checkCoinbase (info : Api.BlockHeader) : Except Refusal Amount := do
  let tx := pb.block.header.baseTransaction
  match tx.inputs with
  | [.coinbaseInput input] => do
    demand (input.blockIndex = info.height) .baseInputWrongBlockIndex info
    demand (tx.unlockTime = (info.height + Currency.minedMoneyUnlockWindow).toUInt64)
      .wrongTransactionUnlockTime info
    let checkKeys := !env.currency.isInSwCheckpointZone info.height
    orRefuse info (checkOutputs env.crypto checkKeys tx.outputs)
  | [.keyInput _] => .error (.refuse .inputUnexpectedType info)
  | _ => .error (.refuse .inputWrongCount info)

/-- The difficulty of the block. How many blocks it is computed from depends on the height of the
tip, by which formula on the height of the previous block. -/
def fillDifficulty (prevInfo info : Api.BlockHeader) : Check := do
  let blocksCount :=
    min prevInfo.height (env.currency.getDifficultyBlocksCount (bc.tip.tipHeight + 1))
  let window ← orGiveUp (bc.getTipSegment prevInfo blocksCount false)
  let difficulty ← orGiveUp (env.currency.nextDifficulty prevInfo.height
    (window.map (·.timestamp)) (window.map (·.cumulativeDifficulty)))
  let info := { info with
    difficulty := difficulty, cumulativeDifficulty := prevInfo.cumulativeDifficulty + difficulty }
  demand (difficulty ≠ 0) .difficultyOverhead info
  .ok info

/-- The sum of the fees, which may wrap around. -/
def cumulativeFee (info : Api.BlockHeader) : Except Refusal Amount :=
  pb.block.transactions.foldlM (fun sum tx ↦
    match getTxFee tx.toTransactionPrefix with
    | none => .error (.refuse .wrongAmount info)
    | some fee => .ok (sum + fee)) 0

/-- The reward, which the coinbase transaction has to take exactly, and the running totals. -/
def fillReward (prevInfo : Api.BlockHeader) (minerReward : Amount) (info : Api.BlockHeader) :
    Check := do
  let fee ← cumulativeFee pb info
  let version := pb.block.header.majorVersion
  let median := info.effectiveSizeMedian.toUInt64
  let coins := prevInfo.alreadyGeneratedCoins
  let base := Currency.getBlockReward version median 0 coins 0
  let full := Currency.getBlockReward version median info.blockSize.toUInt64 coins fee
  let info := { info with baseReward := base.1, reward := full.1 }
  demand (minerReward = info.reward) .blockRewardMismatch info
  .ok { info with
    alreadyGeneratedCoins := coins + full.2
    alreadyGeneratedTransactions :=
      prevInfo.alreadyGeneratedTransactions + UInt64.ofNat (pb.block.transactions.length + 1)
    totalFeeAmount := fee
    transactionsCumulativeSize := UInt32.ofNat pb.cumulativeSize }

def checkSemantics (info : Api.BlockHeader) : Except Refusal Unit :=
  let checkKeys := !env.currency.isInSwCheckpointZone info.height
  pb.block.transactions.forM fun tx ↦ do
    let _ ← orRefuse info (validateSemantic env.crypto false tx checkKeys)
    .ok ()

/-- The checkpoint of the height, or the proof of work. -/
def checkWork (checkPow : Bool) (info : Api.BlockHeader) : Except Refusal Unit := do
  if env.currency.isInSwCheckpointZone info.height then
    demand (env.currency.checkSwCheckpoint env.genesisBlockHash info.height info.hash = true)
      .checkpointBlockHashMismatch info
  else if checkPow then do
    let longHash ←
      if pb.longBlockHash ≠ 0 then .ok pb.longBlockHash
      else orGiveUp (orFail .notWritable (getBlockLongHash env.crypto pb.block.header))
    let proved ← orGiveUp (env.checkProofOfWork longHash pb.block.header info.difficulty)
    demand (proved = true) .proofOfWorkTooWeak info
  else .ok ()

/-- `check_standalone_consensus`. -/
def checkStandaloneConsensus (now : Timestamp) (prevInfo info : Api.BlockHeader) (checkPow : Bool) :
    Check := do
  let info ← bc.checkMedians pb prevInfo info
  let info ← checkSizes env pb info
  bc.checkHeaderFields env pb now info
  let minerReward ← checkCoinbase env pb info
  let info ← bc.fillDifficulty env prevInfo info
  let info ← fillReward pb prevInfo minerReward info
  checkSemantics env pb info
  checkWork env pb checkPow info
  .ok info

end BlockChain

end CryoNero
