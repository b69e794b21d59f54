import CryoNero.Core.Consensus

/-!
# The node

Adding blocks and transactions. A block that passes the check is stored; when its chain has more
work than the main chain, the main chain is extended or reorganized. The indexes and the memory pool
follow the main chain.

An exception while a block is added ends the process, and what it leaves behind is not a state of
the node any more: a step that faults has no result.
-/

namespace CryoNero

open Seria Store

inductive BroadcastAction
  | broadcastAll
  | nothing
  | ban
  deriving DecidableEq, Repr

inductive AddTransactionResult
  | ban
  | broadcastAll
  | alreadyInPool
  | increaseFee
  | failedToRedo
  | outputAlreadySpent
  deriving DecidableEq, Repr

structure State where
  chain : BlockChain := {}
  ledger : Ledger := {}
  /-- The transactions of recent block templates, with the height they were listed for. -/
  miningTransactions : Table Hash (Bytes × Height) := ∅

/-! ## The block tree -/

namespace Tree

variable (t : Tree)

def storeBlock (bid : Hash) (blockData : Bytes) : Except Fault Tree := do
  let blocks ← putNew t.blocks bid blockData
  return { t with blocks := blocks }

def storeHeader (bid : Hash) (header : Api.BlockHeader) : Except Fault Tree := do
  let headers ← putNew t.headers bid header
  return { t with headers := headers }

def hasBlock (bid : Hash) : Bool := (t.blocks[bid]?).isSome

/-- The bytes of a block and the raw block in them, which has to read. -/
def readBlock (bid : Hash) : Except Fault (Option (Bytes × RawBlock)) :=
  match t.blocks[bid]? with
  | none => .ok none
  | some blockData =>
    match fromBinary readRawBlock {} blockData with
    | (rawBlock, true) => .ok (some (blockData, rawBlock))
    | (_, false) => .error .notWritable

def childrenCounter (bid : Hash) : UInt32 := (t.children[bid]?).getD 1

/-- The counter of a block, which has to be `value`; a block is among the tips just when its counter
is zero. -/
def checkChildrenCounter (cd : Difficulty) (bid : Hash) (value : UInt32) : Except Fault Unit := do
  let counter := t.childrenCounter bid
  ensure (counter = value) .invariantViolated
  ensure (counter ≠ 0 ∨ (t.cdTips[toLex (cd, bid)]?).isSome) .invariantViolated
  ensure (counter = 0 ∨ t.cdTips[toLex (cd, bid)]? = none) .invariantViolated

def modifyChildrenCounter (cd : Difficulty) (bid : Hash) (delta : UInt32) : Tree :=
  let counter := t.childrenCounter bid + delta
  { t with
    children := if counter = 1 then t.children.erase bid else t.children.insert bid counter
    cdTips :=
      if counter = 0 then t.cdTips.insert (toLex (cd, bid)) () else t.cdTips.erase (toLex (cd, bid)) }

end Tree

/-! ## The main chain -/

namespace BlockChain

variable (env : Env) (bc : BlockChain)

def largestWindow : Height :=
  max (env.currency.getDifficultyBlocksCount (bc.tip.tipHeight + 1))
    (max Currency.rewardBlocksWindow (Currency.getTimestampCheckWindow (bc.tip.tipHeight + 1)))

def tipChanged : Except Fault BlockChain := do
  let header ← bc.getTip
  let medians ← bc.calculateConsensusValues header
  return { bc with
    tip := { bc.tip with nextMedianSize := medians.1, nextMedianTimestamp := medians.2 } }

def pushChain (header : Api.BlockHeader) : Except Fault BlockChain := do
  let tipHeight := bc.tip.tipHeight + 1
  let tipChain ← putNew bc.tip.tipChain tipHeight header.hash
  let bc : BlockChain := { bc with tip := { bc.tip with
    tipHeight := tipHeight, tipChain := tipChain, tipBid := header.hash,
    tipCumulativeDifficulty := header.cumulativeDifficulty } }
  let window := (header :: bc.tip.headerTipWindow).take (bc.largestWindow env * 2).toNat
  let bc : BlockChain := { bc with tip := { bc.tip with headerTipWindow := window } }
  bc.tipChanged

def popChain (newTipBid : Hash) : Except Fault BlockChain := do
  ensure (bc.tip.tipHeight ≠ 0 ∧ bc.tip.headerTipWindow ≠ []) .invariantViolated
  let tipChain ← delOld bc.tip.tipChain bc.tip.tipHeight
  let tipHeight := bc.tip.tipHeight - 1
  ensure (tipChain[tipHeight]? = some newTipBid) .invariantViolated
  let bc : BlockChain := { bc with tip := { bc.tip with
    tipChain := tipChain, tipHeight := tipHeight, tipBid := newTipBid,
    headerTipWindow := bc.tip.headerTipWindow.tail } }
  let window ←
    if bc.tip.headerTipWindow = [] then do
      let header ← bc.readHeader! newTipBid 0
      pure [header]
    else pure bc.tip.headerTipWindow
  let bc : BlockChain := { bc with tip := { bc.tip with headerTipWindow := window } }
  let header ← bc.getTip
  return { bc with tip := { bc.tip with tipCumulativeDifficulty := header.cumulativeDifficulty } }

/-- Go down from a block as long as it is higher than `height`; the blocks passed are collected. A
height has 32 bits, so that many steps are enough. -/
def descend (height : Height) : ℕ → Hash → Api.BlockHeader →
    Except Fault (List Hash × Hash × Api.BlockHeader)
  | 0, _, _ => .error .invariantViolated
  | fuel + 1, hid, ha =>
    if height < ha.height then do
      let next ← bc.readHeader! ha.previousBlockHash 0
      let p ← descend height fuel ha.previousBlockHash next
      return (hid :: p.1, p.2)
    else .ok ([], hid, ha)

/-- Go down from two blocks together until they are the same. -/
def descendBoth : ℕ → Hash × Api.BlockHeader → Hash × Api.BlockHeader →
    Except Fault (Hash × List Hash × List Hash)
  | 0, _, _ => .error .invariantViolated
  | fuel + 1, (hid1, ha1), (hid2, ha2) =>
    if hid1 = hid2 then .ok (hid1, [], [])
    else do
      let next1 ← bc.readHeader! ha1.previousBlockHash 0
      let next2 ← bc.readHeader! ha2.previousBlockHash 0
      let p ← descendBoth fuel (ha1.previousBlockHash, next1) (ha2.previousBlockHash, next2)
      return (p.1, hid1 :: p.2.1, hid2 :: p.2.2)

/-- `get_common_block`: the block where two branches meet, and the two branches above it, the
highest block first. -/
def getCommonBlock (bid1 bid2 : Hash) : Except Fault (Hash × List Hash × List Hash) := do
  let ha1 ← bc.readHeader! bid1 0
  let ha2 ← bc.readHeader! bid2 0
  let p1 ← bc.descend ha2.height (2 ^ 32) bid1 ha1
  let p2 ← bc.descend p1.2.2.height (2 ^ 32) bid2 ha2
  let p ← bc.descendBoth (2 ^ 32) p1.2 p2.2
  return (p.1, p1.1 ++ p.2.1, p2.1 ++ p.2.2)

end BlockChain

/-! ## Transactions and the pool -/

namespace Ledger

/-- The check of the first input that conflicts with the pool: the transaction needs a higher
priority than the one it conflicts with. Later conflicts are not looked at. -/
def checkFirstConflict (l : Ledger) (tid : Hash) (feePerByte : Amount) :
    List KeyInput → Except Fault Bool
  | [] => .ok true
  | input :: rest =>
    match l.pool.stateKiTx[input.keyImage]? with
    | none => checkFirstConflict l tid feePerByte rest
    | some other => do
      let otherTx ← l.pool.at' other
      return ¬(feePerByte < otherTx.feePerByte ∨ (feePerByte = otherTx.feePerByte ∧ tid < other))

/-- The first key image that is spent in the main chain. -/
def firstSpent (l : Ledger) (inputs : List KeyInput) : Option Height :=
  inputs.findSome? fun input ↦ l.index.readKeyimage input.keyImage

/-- Remove the transactions that hold one of the key images, as long as their priority is lower.
When one has a higher priority, those before it have been removed. -/
def displace (pool : Pool) (tid : Hash) (feePerByte : Amount) :
    List KeyImage → Except Fault (Pool × Bool)
  | [] => .ok (pool, true)
  | keyImage :: rest =>
    match pool.stateKiTx[keyImage]? with
    | none => displace pool tid feePerByte rest
    | some other => do
      let otherTx ← pool.at' other
      if feePerByte < otherTx.feePerByte ∨ (feePerByte = otherTx.feePerByte ∧ tid < other) then
        return (pool, false)
      else do
        let pool ← pool.removeFromPool other
        displace pool tid feePerByte rest

/-- Enter a transaction into the pool and its indexes, where it must not be yet. -/
def insertTransaction (pool : Pool) (tid : Hash) (entry : PoolTransaction) (feePerByte : Amount)
    (keyImages : List KeyImage) : Except Fault Pool := do
  let stateKiTx ← keyImages.foldlM (fun t keyImage ↦
    orFail .invariantViolated (t.putNew keyImage tid)) pool.stateKiTx
  let stateTx ← orFail .invariantViolated (pool.stateTx.putNew tid entry)
  let hashes ← orFail .invariantViolated (((pool.stateFeeTx[feePerByte]?).getD ∅).putNew tid ())
  return { stateKiTx := stateKiTx, stateTx := stateTx,
           stateFeeTx := pool.stateFeeTx.insert feePerByte hashes,
           totalSize := pool.totalSize + UInt64.ofNat entry.binaryTx.length }

/-- Remove the transactions with the smallest fee per byte while the pool stays above its maximum
without them. Every round removes one. -/
def evict : ℕ → Pool → Except Fault Pool
  | 0, _ => .error .invariantViolated
  | fuel + 1, pool =>
    if pool.totalSize ≤ maxPoolSize then .ok pool
    else do
      let entry ← pool.minimumEntry
      let p ← orFail .invariantViolated entry
      let minimalTx ← pool.at' p.2
      if pool.totalSize < maxPoolSize + UInt64.ofNat minimalTx.binaryTx.length then return pool
      else do
        let pool ← pool.removeFromPool p.2
        evict fuel pool

/-- `add_transaction`: the ledger afterwards, the verdict, and the height of a conflicting block. -/
def addTransactionAt (env : Env) (l : Ledger) (tid : Hash) (tx : Transaction) (binaryTx : Bytes)
    (unlockHeight : Height) (unlockTimestamp : Timestamp) (checkSigs : Bool) :
    Except Fault (Ledger × AddTransactionResult × Height) := do
  if (l.pool.stateTx[tid]?).isSome then return (l, .alreadyInPool, 0)
  let fee := (getTxFee tx.toTransactionPrefix).getD 0
  let entry : PoolTransaction := { tx := tx, binaryTx := binaryTx, fee := fee }
  let feePerByte := entry.feePerByte
  let minimal ← l.pool.minimumPoolFeePerByte
  if maxPoolSize ≤ l.pool.totalSize ∧ feePerByte < minimal.1 then return (l, .increaseFee, 0)
  if maxPoolSize ≤ l.pool.totalSize ∧ feePerByte = minimal.1 ∧ tid < minimal.2 then
    return (l, .increaseFee, 0)
  let accepted ← l.checkFirstConflict tid feePerByte tx.keyInputs
  if accepted = false then return (l, .increaseFee, 0)
  match l.firstSpent tx.keyInputs with
  | some height => return (l, .outputAlreadySpent, height)
  | none =>
    match validateSemantic env.crypto false tx checkSigs with
    | .error _ => return (l, .ban, 0)
    | .ok _ =>
      let memoryState : DeltaState :=
        { blockHeight := unlockHeight, unlockTimestamp := unlockTimestamp,
          parentState := l.index.view }
      match redoTransactionGetError env tx memoryState checkSigs with
      | .error (.fault f) => .error f
      | .error (.reject _ height) => return (l, .failedToRedo, height)
      | .ok (memoryState, _, height) => do
        let keyImages := memoryState.keyimages.toList.map (·.1)
        let p ← displace l.pool tid feePerByte keyImages
        if p.2 = false then return ({ l with pool := p.1 }, .increaseFee, height)
        let pool ← insertTransaction p.1 tid entry feePerByte keyImages
        let pool ← evict (pool.stateTx.size + 1) pool
        return ({ l with pool := pool, txPoolVersion := l.txPoolVersion + 1 }, .broadcastAll, height)

end Ledger

namespace State

variable (env : Env) (s : State)

/-- `add_transaction` as the rest of the node calls it. -/
def addTransaction (tid : Hash) (tx : Transaction) (binaryTx : Bytes) :
    Except Fault (State × AddTransactionResult × Height) := do
  let header ← s.chain.getTip
  let p ← s.ledger.addTransactionAt env tid tx binaryTx (s.chain.tip.tipHeight + 1) header.timestamp true
  return ({ s with ledger := p.1 }, p.2)

/-- The transactions of undone blocks, by hash. -/
abbrev UndoneTransactions := Table Hash (Transaction × Bytes)

/-- Add transactions for the block after the tip, whatever comes of it. -/
def readdTransactions (txs : List (Hash × Transaction × Bytes)) : Except Fault State :=
  txs.foldlM (fun (s : State) p ↦ do
    let q ← s.addTransaction env p.1 p.2.1 p.2.2
    return q.1) s

/-- `on_reorganization`: the pool is built anew, and the transactions of the undone blocks come
back. -/
def onReorganization (undone : UndoneTransactions) (undoneBlocks : Bool) : Except Fault State := do
  let s ←
    if undoneBlocks then
      readdTransactions env { s with ledger := { s.ledger with pool := {} } }
        (s.ledger.pool.stateTx.toList.map fun p ↦ (p.1, p.2.tx, p.2.binaryTx))
    else .ok s
  let s ← readdTransactions env s undone.toList
  return { s with ledger := { s.ledger with txPoolVersion := 2 } }

/-! ## Reorganizing the main chain -/

/-- Keep the transactions of an undone block, except those that are kept already. -/
def keepUndone (undone : UndoneTransactions) (rawBlock : RawBlock) (block : Block) :
    Except Fault UndoneTransactions :=
  block.transactions.zipIdx.foldlM (fun (undone : UndoneTransactions) p ↦ do
    let tid ← orFail .invariantViolated block.header.transactionHashes[p.2]?
    let binaryTx ← orFail .invariantViolated rawBlock.transactions[p.2]?
    return if (undone[tid]?).isSome then undone else undone.insert tid (p.1, binaryTx)) undone

/-- Undo the block at the tip. -/
def undoTip (undone : UndoneTransactions) : Except Fault (State × UndoneTransactions) := do
  let stored ← s.chain.tree.readBlock s.chain.tip.tipBid
  let p ← orFail .invariantViolated stored
  let q := Block.fromRawBlock p.2
  ensure (q.2 = true) .invariantViolated
  let index ← s.ledger.index.undoBlock env.crypto s.chain.tip.tipBid q.1 s.chain.tip.tipHeight
  let undone ← keepUndone undone p.2 q.1
  let chain ← s.chain.popChain q.1.header.previousBlockHash
  let chain ← chain.tipChanged
  return ({ s with chain := chain, ledger := { s.ledger with index := index } }, undone)

/-- Undo blocks until `common` is the tip. Every round lowers the tip, and the genesis block cannot
be undone. -/
def undoTo (common : Hash) : ℕ → State → UndoneTransactions → Except Fault (State × UndoneTransactions)
  | 0, _, _ => .error .invariantViolated
  | fuel + 1, s, undone =>
    if s.chain.tip.tipBid = common then .ok (s, undone)
    else do
      let p ← s.undoTip env undone
      undoTo common fuel p.1 p.2

/-- Forget the transactions of a block that was redone. -/
def forgetUndone (undone : UndoneTransactions) (block : Block) : UndoneTransactions :=
  block.header.transactionHashes.foldl (fun undone tid ↦ undone.erase tid) undone

/-- Redo a block on top of the tip; `none` when it is rejected. -/
def redoOnTip (bid : Hash) (blockData : Bytes) (rawBlock : RawBlock) (block : Block)
    (info : Api.BlockHeader) (baseTransactionHash : Hash) : Except Fault (Option State) :=
  match s.ledger.redoBlock env bid blockData rawBlock block info baseTransactionHash with
  | .error (.fault f) => .error f
  | .error (.reject _ _) => .ok none
  | .ok ledger => do
    let chain ← s.chain.pushChain env info
    return some { s with chain := chain, ledger := ledger }

/-- Redo one block of the new branch: the block just added as it was prepared, another one from the
database. `none` when it does not read or is rejected. -/
def redoBranchBlock (recentPb : PreparedBlock) (recentInfo : Api.BlockHeader) (chha : Hash) :
    Except Fault (Option (State × Block)) :=
  if chha = recentPb.bid then do
    ensure (recentPb.block.header.previousBlockHash = s.chain.tip.tipBid) .invariantViolated
    let s ← s.redoOnTip env chha recentPb.blockData recentPb.rawBlock recentPb.block recentInfo
      recentPb.baseTransactionHash
    return s.map fun s ↦ (s, recentPb.block)
  else do
    let stored ← s.chain.tree.readBlock chha
    match stored with
    | none => return none
    | some p =>
      let q := Block.fromRawBlock p.2
      if q.2 = false then return none
      else do
        ensure (q.1.header.previousBlockHash = s.chain.tip.tipBid) .invariantViolated
        let info ← s.chain.readHeader! chha 0
        let tid ← orFail .notWritable (getTransactionHash env.crypto q.1.header.baseTransaction)
        let s ← s.redoOnTip env chha p.1 p.2 q.1 info tid
        return s.map fun s ↦ (s, q.1)

/-- Redo the blocks of the new branch in turn, up to the first that is rejected. -/
def redoBranch (recentPb : PreparedBlock) (recentInfo : Api.BlockHeader) : List Hash → State →
    UndoneTransactions → Except Fault (State × UndoneTransactions × Bool)
  | [], s, undone => .ok (s, undone, true)
  | chha :: rest, s, undone => do
    let p ← s.redoBranchBlock env recentPb recentInfo chha
    match p with
    | none => return (s, undone, false)
    | some (s, block) => redoBranch recentPb recentInfo rest s (forgetUndone undone block)

/-- `reorganize_blocks`: undo the main chain down to the block it has in common with the branch of
`switchToChain`, then redo that branch. Tells whether all of it was redone. -/
def reorganizeBlocks (switchToChain : Hash) (recentPb : PreparedBlock)
    (recentInfo : Api.BlockHeader) : Except Fault (State × Bool) := do
  let p ← s.chain.getCommonBlock s.chain.tip.tipBid switchToChain
  if p.2.2.all (fun chha ↦ s.chain.tree.hasBlock chha) = false then return (s, false)
  let q ← undoTo env p.1 (s.chain.tip.tipHeight.toNat + 1) s ∅
  let undoneBlocks := !(s.chain.tip.tipBid == p.1)
  let r ← redoBranch env recentPb recentInfo p.2.2.reverse q.1 q.2
  let s ← r.1.onReorganization env r.2.1 undoneBlocks
  return (s, r.2.2)

/-! ## Adding a block -/

/-- The header of a block before the check fills it in. -/
def blockInfo (pb : PreparedBlock) (prevInfo info : Api.BlockHeader) : Api.BlockHeader :=
  { info with
    majorVersion := pb.block.header.majorVersion
    minorVersion := pb.block.header.minorVersion
    timestamp := pb.block.header.timestamp
    previousBlockHash := pb.block.header.previousBlockHash
    nonce := pb.block.header.nonce
    hash := pb.bid
    height := prevInfo.height + 1 }

/-- The state with another block tree. -/
def withTree (tree : Tree) : State := { s with chain := { s.chain with tree := tree } }

/-- Store a block and its header, the genesis block also as the first block of the main chain, and
keep the counters of children. -/
def storeChecked (pb : PreparedBlock) (prevInfo info : Api.BlockHeader) : Except Fault State := do
  let tree ← if s.chain.tree.hasBlock pb.bid then .ok s.chain.tree
    else s.chain.tree.storeBlock pb.bid pb.blockData
  let tree ← tree.storeHeader pb.bid info
  let s := s.withTree tree
  let s ←
    if pb.bid = env.genesisBlockHash then do
      let next ← s.redoOnTip env pb.bid pb.blockData pb.rawBlock pb.block info pb.baseTransactionHash
      orFail .invariantViolated next
    else
      .ok (s.withTree (s.chain.tree.modifyChildrenCounter
        prevInfo.cumulativeDifficulty pb.block.header.previousBlockHash 1))
  s.chain.tree.checkChildrenCounter info.cumulativeDifficulty pb.bid 1
  return s.withTree (s.chain.tree.modifyChildrenCounter info.cumulativeDifficulty pb.bid (-1))

/-- Make the branch of a stored block the main chain if it has more work. `none` when the block is
the next one of the main chain and is rejected. -/
def adoptBlock (pb : PreparedBlock) (info : Api.BlockHeader) : Except Fault (State × Bool) :=
  if s.chain.tip.tipCumulativeDifficulty < info.cumulativeDifficulty then
    if s.chain.tip.tipBid = pb.block.header.previousBlockHash then do
      let next ← s.redoOnTip env pb.bid pb.blockData pb.rawBlock pb.block info pb.baseTransactionHash
      match next with
      | none => return (s, false)
      | some s => return (s, true)
    else do
      let p ← s.reorganizeBlocks env pb.bid pb info
      return (p.1, true)
  else .ok (s, true)

def commitEveryNBlocks : Height := 50000

/-- `db_commit`, as far as the state of the node knows of it. -/
def dbCommit : State := { s with chain := { s.chain with headerCache := ∅ } }

/-- `add_block`: the state afterwards, the verdict, and the header that was filled in. `now` is the
clock. -/
def addBlock (now : Timestamp) (pb : PreparedBlock) :
    Except Fault (State × BroadcastAction × Api.BlockHeader) := do
  let header := s.chain.readHeader pb.bid 0
  let start := header.getD {}
  if s.chain.tree.hasBlock pb.bid ∧ header.isSome then return (s, .nothing, start)
  match if pb.bid = env.genesisBlockHash then some { height := 0xFFFFFFFF }
    else s.chain.readHeader pb.block.header.previousBlockHash 0 with
  | none => return (s, .nothing, start)
  | some prevInfo =>
    match s.chain.checkStandaloneConsensus env pb now prevInfo (blockInfo pb prevInfo start) true with
    | .error (.fault f) => .error f
    | .error (.refuse _ info) => return (s, .ban, info)
    | .ok info => do
      let stored ← s.storeChecked env pb prevInfo info
      let p ← stored.adoptBlock env pb info
      if p.2 = false then return (p.1, .ban, info)
      let s := if p.1.chain.tip.tipHeight % commitEveryNBlocks = commitEveryNBlocks - 1 then
        p.1.dbCommit else p.1
      return (s, if info.hash = s.chain.tip.tipBid then .broadcastAll else .nothing, info)

end State

end CryoNero
