import CryoNero.Core.Pool

/-!
# Redoing transactions and blocks

A transaction is redone into a delta over the delta of its block, which lies over the indexes of the
database; a block whose transactions could all be redone is applied to the database in the end. The
state below a delta is only read, so that a delta holds a view of it.

Signatures are checked either by the ring checker, for a block as a whole and against the state
before the block, or on the way, for a transaction that enters the memory pool.
-/

namespace CryoNero

open Seria Store

/-! ## Views and deltas -/

/-- What can be read of a state. -/
structure StateView where
  readKeyimage : KeyImage → Option Height
  nextGlobalIndexForAmount : Amount → UInt32
  readAmountOutput : Amount → UInt32 → Option UnlockTimePublickKeyHeightSpent

def Index.view (idx : Index) : StateView where
  readKeyimage := idx.readKeyimage
  nextGlobalIndexForAmount := idx.nextGlobalIndexForAmount
  readAmountOutput := idx.readAmountOutput

/-- Changes that are collected over a state. -/
structure DeltaState where
  keyimages : Table KeyImage Height := ∅
  globalAmounts : Table Amount (List (UnlockMoment × PublicKey)) := ∅
  spentOutputs : List (Amount × UInt32) := []
  blockHeight : Height
  unlockTimestamp : Timestamp
  parentState : StateView

namespace DeltaState

variable (d : DeltaState)

def storeKeyimage (keyImage : KeyImage) (height : Height) : Except Fault DeltaState := do
  let t ← orFail .invariantViolated (d.keyimages.putNew keyImage height)
  return { d with keyimages := t }

def readKeyimage (keyImage : KeyImage) : Option Height :=
  match d.keyimages[keyImage]? with
  | none => d.parentState.readKeyimage keyImage
  | some _ => some d.blockHeight

/-- The outputs of an amount that were pushed. -/
def pushed (amount : Amount) : List (UnlockMoment × PublicKey) := (d.globalAmounts[amount]?).getD []

/-- Push an output and tell its global index. -/
def pushAmountOutput (amount : Amount) (unlockTime : UnlockMoment) (pk : PublicKey) :
    DeltaState × UInt32 :=
  let pg := d.parentState.nextGlobalIndexForAmount amount
  let ga := d.pushed amount ++ [(unlockTime, pk)]
  ({ d with globalAmounts := d.globalAmounts.insert amount ga }, pg + UInt32.ofNat ga.length - 1)

def nextGlobalIndexForAmount (amount : Amount) : UInt32 :=
  UInt32.ofNat (d.pushed amount).length + d.parentState.nextGlobalIndexForAmount amount

/-- Outputs of the delta itself are not spent: spending them in the same block is prohibited. -/
def readAmountOutput (amount : Amount) (globalIndex : UInt32) :
    Option UnlockTimePublickKeyHeightSpent :=
  let pg := d.parentState.nextGlobalIndexForAmount amount
  if globalIndex < pg then d.parentState.readAmountOutput amount globalIndex
  else
    (d.pushed amount)[(globalIndex - pg).toNat]?.map fun p ↦
      { unlockTime := p.1, publicKey := p.2, height := d.blockHeight, spent := false }

def spendOutput (amount : Amount) (globalIndex : UInt32) : DeltaState :=
  { d with spentOutputs := d.spentOutputs ++ [(amount, globalIndex)] }

def view : StateView where
  readKeyimage := d.readKeyimage
  nextGlobalIndexForAmount := d.nextGlobalIndexForAmount
  readAmountOutput := d.readAmountOutput

end DeltaState

/-- The indexes together with the memory pool, from which a transaction disappears as soon as one
of its key images is spent in the chain. -/
structure Ledger where
  index : Index := {}
  pool : Pool := {}
  txPoolVersion : UInt32 := 2

/-- What a delta is applied to. -/
class IBlockChainState (σ : Type) where
  storeKeyimage : KeyImage → Height → σ → Except Fault σ
  pushAmountOutput : Amount → UnlockMoment → Height → PublicKey → σ → Except Fault σ
  spendOutput : Amount → UInt32 → σ → Except Fault σ

instance : IBlockChainState DeltaState where
  storeKeyimage keyImage height d := d.storeKeyimage keyImage height
  pushAmountOutput amount unlockTime _ pk d := .ok (d.pushAmountOutput amount unlockTime pk).1
  spendOutput amount globalIndex d := .ok (d.spendOutput amount globalIndex)

def Ledger.storeKeyimage (l : Ledger) (keyImage : KeyImage) (height : Height) :
    Except Fault Ledger := do
  let index ← l.index.storeKeyimage keyImage height
  match l.pool.stateKiTx[keyImage]? with
  | none => return { l with index := index }
  | some tid =>
    let pool ← l.pool.removeFromPool tid
    return { l with index := index, pool := pool }

instance : IBlockChainState Ledger where
  storeKeyimage keyImage height l := l.storeKeyimage keyImage height
  pushAmountOutput amount unlockTime blockHeight pk l := do
    let index ← l.index.pushAmountOutput amount unlockTime blockHeight pk
    return { l with index := index }
  spendOutput amount globalIndex l :=
    .ok { l with index := l.index.spendOutput amount globalIndex true }

/-- Carry the changes of a delta over: key images first, then the outputs by amount, then the spent
outputs. -/
def DeltaState.apply {σ : Type} [IBlockChainState σ] (d : DeltaState) (parent : σ) :
    Except Fault σ := do
  let parent ← d.keyimages.toList.foldlM
    (fun s ki ↦ IBlockChainState.storeKeyimage ki.1 ki.2 s) parent
  let parent ← d.globalAmounts.toList.foldlM (fun s amp ↦
    amp.2.foldlM (fun s el ↦
      IBlockChainState.pushAmountOutput amp.1 el.1 d.blockHeight el.2 s) s) parent
  d.spentOutputs.foldlM (fun s mo ↦ IBlockChainState.spendOutput mo.1 mo.2 s) parent

/-! ## Redoing a transaction -/

inductive RedoError
  | inputKeyimageAlreadySpent
  | inputUnknownType
  | inputInvalidGlobalIndex
  | inputSpendLockedOut
  | inputCorruptedSignatures
  | inputInvalidSignatures
  deriving DecidableEq, Repr

/-- The reason to stop redoing: the code gave up, or the transaction is rejected, with the height of
the block it conflicts with. -/
inductive Stop
  | fault (f : Fault)
  | reject (e : RedoError) (conflictHeight : Height)
  deriving DecidableEq, Repr

/-- Global indices from the distances between them. -/
def globalIndexesFrom (base : UInt32) : List UInt32 → List UInt32
  | [] => []
  | distance :: rest => (base + distance) :: globalIndexesFrom (base + distance) rest

/-- The global indices of a ring: the first as it is, each other as a distance. -/
def globalIndexes (outputIndexes : List UInt32) : List UInt32 := globalIndexesFrom 0 outputIndexes

/-- Read the outputs of a ring, all of which have to be there and unlocked. -/
def readRing (env : Env) (view : StateView) (unlockHeight : Height) (unlockTimestamp : Timestamp)
    (amount : Amount) (indexes : List UInt32) (conflictHeight : Height) :
    Except Stop (List PublicKey × Height) :=
  indexes.foldlM (fun acc globalIndex ↦
    match view.readAmountOutput amount globalIndex with
    | none => .error (.reject .inputInvalidGlobalIndex Currency.maxBlockHeight)
    | some unp =>
      let conflictHeight := max acc.2 unp.height
      if env.currency.isTransactionSpendTimeUnlocked unp.unlockTime unlockHeight unlockTimestamp then
        .ok (acc.1 ++ [unp.publicKey], conflictHeight)
      else .error (.reject .inputSpendLockedOut conflictHeight)) ([], conflictHeight)

/-- The checks of a key input of a transaction for the pool. -/
def checkKeyInput (env : Env) (txDelta : DeltaState) (txPrefixHash : Hash) (input : KeyInput)
    (signatures : List Signature) (conflictHeight : Height) : Except Stop Height :=
  match txDelta.readKeyimage input.keyImage with
  | some height => .error (.reject .inputKeyimageAlreadySpent height)
  | none =>
    if input.outputIndexes = [] then .error (.reject .inputUnknownType conflictHeight)
    else do
      let ring ← readRing env txDelta.view txDelta.blockHeight txDelta.unlockTimestamp input.amount
        (globalIndexes input.outputIndexes) conflictHeight
      match env.crypto.checkRingSignature txPrefixHash input.keyImage ring.1 signatures with
      | .valid => .ok ring.2
      | .keyCorrupted => .error (.reject .inputCorruptedSignatures ring.2)
      | .invalid => .error (.reject .inputInvalidSignatures ring.2)

def liftFault {α : Type} : Except Fault α → Except Stop α
  | .ok a => .ok a
  | .error f => .error (.fault f)

/-- Redo a key input: mark the output of a ring of one member as spent, store the key image. -/
def redoKeyInput (txDelta : DeltaState) (input : KeyInput) : Except Fault DeltaState :=
  let txDelta :=
    match input.outputIndexes with
    | [globalIndex] => txDelta.spendOutput input.amount globalIndex
    | _ => txDelta
  txDelta.storeKeyimage input.keyImage txDelta.blockHeight

/-- Redo one input. The state of the loop is the delta of the transaction and the height of the
youngest output referred to so far. -/
def redoInput (env : Env) (transaction : Transaction) (checkSigs : Bool)
    (acc : DeltaState × Height) (input : TransactionInput × ℕ) : Except Stop (DeltaState × Height) :=
  match input.1 with
  | .coinbaseInput _ => .ok acc
  | .keyInput i => do
    let conflictHeight ←
      if checkSigs then
        checkKeyInput env acc.1 (getTransactionPrefixHash env.crypto transaction.toTransactionPrefix) i
          (transaction.signatures.getD input.2 []) acc.2
      else .ok acc.2
    let txDelta ← liftFault (redoKeyInput acc.1 i)
    .ok (txDelta, conflictHeight)

/-- Push the outputs of a transaction and collect their global indices. -/
def redoOutputs (txDelta : DeltaState) (unlockTime : UnlockMoment) :
    List TransactionOutput → DeltaState × List UInt32
  | [] => (txDelta, [])
  | output :: outputs =>
    match output.target with
    | .keyOutput o =>
      let p := txDelta.pushAmountOutput output.amount unlockTime o.key
      let q := redoOutputs p.1 unlockTime outputs
      (q.1, p.2 :: q.2)

/-- `redo_transaction_get_error`: the delta after the transaction, the global indices of its outputs
and the height of the youngest output it refers to. -/
def redoTransactionGetError (env : Env) (transaction : Transaction) (delta : DeltaState)
    (checkSigs : Bool) : Except Stop (DeltaState × List UInt32 × Height) := do
  let txDelta : DeltaState :=
    { blockHeight := delta.blockHeight, unlockTimestamp := delta.unlockTimestamp,
      parentState := delta.view }
  let acc ← transaction.inputs.zipIdx.foldlM (redoInput env transaction checkSigs) (txDelta, 0)
  let out := redoOutputs acc.1 transaction.unlockTime transaction.outputs
  let delta ← liftFault (out.1.apply delta)
  .ok (delta, out.2, acc.2)

/-! ## The ring checker -/

structure RingSignatureArg where
  txPrefixHash : Hash
  keyImage : KeyImage
  outputKeys : List PublicKey
  signatures : List Signature

/-- What the ring checker collects for one input, from the state before the block. -/
def ringSignatureArg (env : Env) (view : StateView) (unlockHeight : Height)
    (unlockTimestamp : Timestamp) (transaction : Transaction) (input : TransactionInput × ℕ) :
    Except Stop (Option RingSignatureArg) :=
  match input.1 with
  | .coinbaseInput _ => .ok none
  | .keyInput i =>
    match view.readKeyimage i.keyImage with
    | some _ => .error (.reject .inputKeyimageAlreadySpent 0)
    | none =>
      if i.outputIndexes = [] then .error (.reject .inputUnknownType 0)
      else do
        let ring ← readRing env view unlockHeight unlockTimestamp i.amount
          (globalIndexes i.outputIndexes) 0
        .ok (some { txPrefixHash := getTransactionPrefixHash env.crypto transaction.toTransactionPrefix,
                    keyImage := i.keyImage, outputKeys := ring.1,
                    signatures := transaction.signatures.getD input.2 [] })

/-- `start_work_get_error`: the signatures of a block that are to be checked. -/
def startWorkGetError (env : Env) (view : StateView) (block : Block) (unlockHeight : Height)
    (unlockTimestamp : Timestamp) : Except Stop (List RingSignatureArg) := do
  let args ← block.transactions.mapM fun transaction ↦
    transaction.inputs.zipIdx.mapM (ringSignatureArg env view unlockHeight unlockTimestamp transaction)
  .ok (args.flatten.filterMap id)

/-- `signatures_valid`: all threads are done and none has reported an error. -/
def signaturesValid (env : Env) (args : List RingSignatureArg) : Bool :=
  args.all fun arg ↦
    env.crypto.checkRingSignature arg.txPrefixHash arg.keyImage arg.outputKeys arg.signatures == .valid

/-! ## Redoing a block -/

/-- Redo the coinbase transaction and the transactions of a block into its delta. -/
def redoBlockDelta (env : Env) (block : Block) (delta : DeltaState) :
    Except Stop (DeltaState × List (List UInt32)) :=
  (block.header.baseTransaction :: block.transactions).foldlM (fun acc tx ↦ do
    let p ← redoTransactionGetError env tx acc.1 false
    .ok (p.1, acc.2 ++ [p.2.1])) (delta, [])

namespace Ledger

/-- `BlockChainState::redo_block`. A block that is rejected leaves the ledger as it is. -/
def redoBlockState (env : Env) (l : Ledger) (bhash : Hash) (block : Block) (info : Api.BlockHeader) :
    Except Stop Ledger := do
  let delta : DeltaState :=
    { blockHeight := info.height, unlockTimestamp := info.timestamp, parentState := l.index.view }
  let checkSigs := !env.currency.isInSwCheckpointZone (info.height + 1)
  let args ←
    if checkSigs then startWorkGetError env l.index.view block info.height info.timestamp else .ok []
  let p ← redoBlockDelta env block delta
  if signaturesValid env args then
    let l ← liftFault (p.1.apply l)
    let t ← liftFault (putNew l.index.blockGlobalIndices bhash p.2)
    return { l with index := { l.index with blockGlobalIndices := t }, txPoolVersion := 2 }
  else .error (.reject .inputInvalidSignatures 0)

end Ledger

/-- `slow_memmem` in data with the pattern: the first place where `pat` occurs. Nothing is found for an empty
pattern. -/
def slowMemmem (pat : Bytes) : Bytes → Option ℕ
  | [] => none
  | b :: buf =>
    if pat = [] then none
    else if pat.isPrefixOf (b :: buf) then some 0
    else (slowMemmem pat buf).map (· + 1)

/-- Store where the bytes of a transaction are in its block, searching behind the transaction
before it. -/
def Index.indexTransaction (idx : Index) (blockData : Bytes) (tpos : TransactionPos) (tid : Hash)
    (binaryTx : Bytes) (index : UInt32) : Except Fault (Index × TransactionPos) := do
  let start := (tpos.offset + tpos.size).toNat
  let ptr ← orFail .invariantViolated (slowMemmem binaryTx (blockData.drop start))
  let tpos := { tpos with
    offset := UInt32.ofNat (start + ptr), size := UInt32.ofNat binaryTx.length, index := index }
  let idx ← idx.storePos tid tpos
  return (idx, tpos)

/-- The part of `BlockChain::redo_block` that fills in the indexes by timestamp and by
transaction. -/
def Index.indexBlock (idx : Index) (blockData : Bytes) (rawBlock : RawBlock) (block : Block)
    (info : Api.BlockHeader) (baseTransactionHash : Hash) : Except Fault Index := do
  let t ← putNew idx.timestampBlock (toLex (info.timestamp, info.height)) ()
  let idx := { idx with timestampBlock := t }
  let coinbaseBa ← orFail .notWritable (writeTransaction block.header.baseTransaction)
  let p ← idx.indexTransaction blockData { height := info.height } baseTransactionHash coinbaseBa 0
  let p ← (List.range block.transactions.length).foldlM (fun (p : Index × TransactionPos) i ↦ do
    let tid ← orFail .invariantViolated block.header.transactionHashes[i]?
    let binaryTx ← orFail .invariantViolated rawBlock.transactions[i]?
    p.1.indexTransaction blockData p.2 tid binaryTx (UInt32.ofNat (i + 1))) p
  return p.1

/-- `BlockChain::redo_block`. -/
def Ledger.redoBlock (env : Env) (l : Ledger) (bhash : Hash) (blockData : Bytes)
    (rawBlock : RawBlock) (block : Block) (info : Api.BlockHeader) (baseTransactionHash : Hash) :
    Except Stop Ledger := do
  let l ← l.redoBlockState env bhash block info
  let index ← liftFault (l.index.indexBlock blockData rawBlock block info baseTransactionHash)
  return { l with index := index }

end CryoNero
