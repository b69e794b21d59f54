import CryoNero.Core.BlockChain

/-!
# Block templates

A template for a miner lists the transactions of the pool by decreasing fee, as long as they fit and
can be redone after one another, and pays the reward of a block of exactly its size. The reward
depends on the size and the size, through the amounts and the padding, on the reward, so that the
coinbase transaction is constructed until the two agree.
-/

namespace CryoNero

open Seria Store

/-- The decimal digits of an amount from the lowest on; the lowest that together stay within the
threshold are collected as dust. Twenty digits are all that an amount has. -/
def decomposeDigits (dustThreshold : Amount) : ℕ → Amount → UInt64 → Amount → Bool → List Amount →
    List Amount
  | 0, _, _, _, _, chunks => chunks
  | fuel + 1, amount, order, dust, isDustHandled, chunks =>
    let dustChunks : List Amount :=
      [dust % 1000, dust - dust % 1000].filter (· ≠ 0)
    if amount = 0 then if isDustHandled then chunks else chunks ++ dustChunks
    else
      let chunk := amount % 10 * order
      if dust + chunk ≤ dustThreshold then
        decomposeDigits dustThreshold fuel (amount / 10) (order * 10) (dust + chunk) isDustHandled
          chunks
      else
        let handle := isDustHandled = false ∧ dust ≠ 0
        let chunks := if handle then chunks ++ dustChunks else chunks
        let chunks := if chunk ≠ 0 then chunks ++ [chunk] else chunks
        decomposeDigits dustThreshold fuel (amount / 10) (order * 10) dust
          (isDustHandled || decide handle) chunks

def decomposeAmount (amount dustThreshold : Amount) : List Amount :=
  decomposeDigits dustThreshold 21 amount 1 0 false []

/-- Add up the last amounts until there are not more than `maxOuts`. -/
def mergeLast (maxOuts : ℕ) (amounts : List Amount) : List Amount :=
  if amounts.length ≤ maxOuts then amounts
  else amounts.take (maxOuts - 1) ++ [(amounts.drop (maxOuts - 1)).sum]

/-- The loop of `construct_miner_tx` that adds up the last amounts, one at a time. -/
def mergeLoop (maxOuts : ℕ) (outAmounts : List Amount) : List Amount :=
  if maxOuts < outAmounts.length then
    mergeLoop maxOuts
      (outAmounts.modify (outAmounts.length - 2) (· + outAmounts.getLast?.getD 0)).dropLast
  else outAmounts
termination_by outAmounts.length
decreasing_by
  rw [List.length_dropLast, List.length_modify]
  omega

namespace Env

variable (env : Env)

/-- The key of the `no`-th output of a coinbase transaction. -/
def minerOutputKey (adr : AccountPublicAddress) (txkey : KeyPair) (no : ℕ) : Option PublicKey := do
  let derivation ← env.crypto.generateKeyDerivation adr.viewPublicKey txkey.secretKey
  env.crypto.derivePublicKey derivation no adr.spendPublicKey

/-- `construct_miner_tx` with a key pair `txkey`; `none` when it reports a failure. -/
def constructMinerTx (blockMajorVersion : UInt8) (height : Height) (effectiveMedianSize : ℕ)
    (alreadyGeneratedCoins : Amount) (currentBlockSize : ℕ) (fee : Amount)
    (adr : AccountPublicAddress) (extraNonce : Bytes) (maxOuts : ℕ) (txkey : KeyPair) :
    Option Transaction := do
  let extra := addTransactionPublicKeyToExtra [] txkey.publicKey
  let extra ← if extraNonce = [] then some extra
    else addExtraNonceToTransactionExtra extra extraNonce
  let blockReward := (Currency.getBlockReward blockMajorVersion (UInt64.ofNat effectiveMedianSize)
    (UInt64.ofNat currentBlockSize) alreadyGeneratedCoins fee).1
  let outAmounts :=
    mergeLast (max 1 maxOuts) (decomposeAmount blockReward Currency.defaultDustThreshold)
  let outputs ← outAmounts.zipIdx.mapM fun p ↦ do
    let key ← env.minerOutputKey adr txkey p.2
    some ({ amount := p.1, target := .keyOutput { key := key } } : TransactionOutput)
  if outAmounts.sum ≠ blockReward then none
  else
    some {
      version := Currency.currentTransactionVersion
      unlockTime := (height + Currency.minedMoneyUnlockWindow).toUInt64
      inputs := [.coinbaseInput { blockIndex := height }]
      outputs := outputs
      extra := extra }

end Env

/-- The size of a transaction without signatures. -/
def Transaction.binarySize (tx : Transaction) : ℕ :=
  (writeTransactionPrefix tx.toTransactionPrefix).length

/-- A transaction with another extra field. -/
def Transaction.withExtra (tx : Transaction) (extra : Bytes) : Transaction :=
  { tx with extra := extra }

/-- What one attempt at a coinbase transaction leads to. -/
inductive MinerTxAttempt
  | done (tx : Transaction)
  | failed
  | retry (cumulativeSize : ℕ)

/-- Fit a coinbase transaction, constructed for a block of `cumulativeSize`, into that size: too
large a transaction is tried again with its size, one that is too small is padded. The padding may
lengthen the varint of its own length. -/
def fitMinerTx (txsSize cumulativeSize : ℕ) (tx : Transaction) : MinerTxAttempt :=
  let coinbaseBlobSize := tx.binarySize
  if cumulativeSize - txsSize < coinbaseBlobSize then .retry (txsSize + coinbaseBlobSize)
  else if coinbaseBlobSize < cumulativeSize - txsSize then
    let delta := cumulativeSize - txsSize - coinbaseBlobSize
    let padded := tx.withExtra (tx.extra ++ List.replicate delta 0)
    if cumulativeSize = txsSize + padded.binarySize then .done padded
    else if cumulativeSize + 1 ≠ txsSize + padded.binarySize then .failed
    else
      let padded := tx.withExtra (tx.extra ++ List.replicate (delta - 1) 0)
      if cumulativeSize = txsSize + padded.binarySize then .done padded
      else .retry (cumulativeSize + (delta - 1))
  else .done tx

/-- Construct coinbase transactions until one fits; `construct n size` is the `n`-th attempt, for a
block of the given size. -/
def searchMinerTx (construct : ℕ → ℕ → Option Transaction) (txsSize : ℕ) : ℕ → ℕ → ℕ →
    Option Transaction
  | 0, _, _ => none
  | tries + 1, n, cumulativeSize => do
    let tx ← construct n cumulativeSize
    match fitMinerTx txsSize cumulativeSize tx with
    | .done tx => some tx
    | .failed => none
    | .retry size => searchMinerTx construct txsSize tries (n + 1) size

/-- The transactions chosen for a template. -/
structure Selection where
  memoryState : DeltaState
  txsSize : ℕ := 0
  fee : Amount := 0
  transactionHashes : List Hash := []
  mining : Table Hash (Bytes × Height)

namespace State

variable (env : Env) (s : State)

/-- Forget the transactions of templates more than three blocks old. -/
def clearMiningTransactions : State :=
  { s with miningTransactions := s.miningTransactions.filter fun _ p ↦
      !(p.2 + 3 < s.chain.tip.tipHeight) }

/-- The transactions of the pool, those with the highest fee first. -/
def poolHashes : List Hash :=
  (s.ledger.pool.stateFeeTx.toList.flatMap fun p ↦ p.2.toList.map (·.1)).reverse

/-- Take a transaction into the template if it fits and can be redone. -/
def selectTransaction (blockSizeLimit : ℕ) (height : Height) (sel : Selection) (tid : Hash) :
    Except Fault Selection :=
  match s.ledger.pool.stateTx[tid]? with
  | none => .ok sel
  | some entry =>
    let txSize := entry.binaryTx.length
    if blockSizeLimit < sel.txsSize + txSize then .ok sel
    else
      match redoTransactionGetError env entry.tx sel.memoryState true with
      | .error (.fault f) => .error f
      | .error (.reject _ _) => .ok sel
      | .ok (memoryState, _, _) =>
        .ok {
          memoryState := memoryState, txsSize := sel.txsSize + txSize, fee := sel.fee + entry.fee,
          transactionHashes := sel.transactionHashes ++ [tid],
          mining := sel.mining.insertIfNew tid (entry.binaryTx, height) }

/-- The header of a template. A merge-mined one has a parent block with an empty tag. -/
def templateHeader (height : Height) (timestamp : Timestamp) : BlockTemplate :=
  let majorVersion := env.currency.getBlockMajorVersionForHeight height
  let minorVersion : UInt8 :=
    if majorVersion = 1 then (if env.currency.upgradeHeightV2 = 0xFFFFFFFF then 1 else 0)
    else if env.currency.upgradeHeightV3 = 0xFFFFFFFF ∧ majorVersion = 2 then 1 else 0
  let parentBlock : ParentBlock :=
    if majorVersion = 1 then {}
    else { majorVersion := 1, minorVersion := 0, transactionCount := 1,
           baseTransaction := { extra := appendMergeMiningTagToExtra [] {} } }
  { majorVersion := majorVersion, minorVersion := minorVersion, parentBlock := parentBlock,
    previousBlockHash := s.chain.tip.tipBid, timestamp := timestamp }

/-- `create_mining_block_template`: the state, and the template with its difficulty and height, or
`none` when it reports a failure. `keys` are the key pairs that are drawn. -/
def createMiningBlockTemplate (now : Timestamp) (adr : AccountPublicAddress) (extraNonce : Bytes)
    (keys : ℕ → KeyPair) : Except Fault (State × Option (BlockTemplate × Difficulty × Height)) := do
  let s := s.clearMiningTransactions
  let height := s.chain.tip.tipHeight + 1
  let tip ← s.chain.getTip
  let blocksCount :=
    min s.chain.tip.tipHeight (env.currency.getDifficultyBlocksCount (s.chain.tip.tipHeight + 1))
  let window ← s.chain.getTipSegment tip blocksCount false
  let difficulty ← env.currency.nextDifficulty height (window.map (·.timestamp))
    (window.map (·.cumulativeDifficulty))
  if difficulty = 0 then return (s, none)
  let b := s.templateHeader env height (max now s.chain.tip.nextMedianTimestamp)
  let zone := Currency.blockGrantedFullRewardZoneByBlockVersion b.majorVersion
  let effectiveSizeMedian := max s.chain.tip.nextMedianSize zone
  let maxTotalSize := min (125 * effectiveSizeMedian / 100)
    (env.currency.maxBlockCumulativeSize height) - Currency.minerTxBlobReservedSize
  let sel ← s.poolHashes.foldlM (s.selectTransaction env maxTotalSize.toNat height)
    { memoryState := { blockHeight := height, unlockTimestamp := b.timestamp,
                       parentState := s.ledger.index.view },
      mining := s.miningTransactions }
  let s := { s with miningTransactions := sel.mining }
  let construct (n size : ℕ) : Option Transaction :=
    env.constructMinerTx b.majorVersion height effectiveSizeMedian.toNat tip.alreadyGeneratedCoins
      size sel.fee adr extraNonce 11 (keys n)
  let minerTx := do
    let first ← construct 0 sel.txsSize
    searchMinerTx construct sel.txsSize 10 1 (sel.txsSize + first.binarySize)
  return (s, minerTx.map fun tx ↦
    ({ b with baseTransaction := tx, transactionHashes := sel.transactionHashes }, difficulty, height))

/-- The binary forms of the transactions of a template, from the pool or from earlier templates. -/
def minedTransactions (hashes : List Hash) : Option (List Bytes) :=
  hashes.mapM fun tid ↦
    match s.ledger.pool.stateTx[tid]? with
    | some entry => some entry.binaryTx
    | none => (s.miningTransactions[tid]?).map (·.1)

/-- `add_mined_block`. -/
def addMinedBlock (now : Timestamp) (rawBlockTemplate : Bytes) :
    Except Fault (State × BroadcastAction × Api.BlockHeader) :=
  match fromBinary readBlockTemplate {} rawBlockTemplate with
  | (_, false) => .error .notWritable
  | (template, true) =>
    match s.minedTransactions template.transactionHashes with
    | none => .ok (s, .nothing, {})
    | some transactions => do
      let pb ← PreparedBlock.ofRawBlock env false
        { block := rawBlockTemplate, transactions := transactions }
      s.addBlock env now pb

end State

end CryoNero
