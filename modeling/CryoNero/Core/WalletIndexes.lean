import CryoNero.Core.WalletTransaction
import CryoNero.Store.Indexed

/-!
# The indexes of a wallet

What a wallet knows about its outputs is kept in the indexes of its database: the outputs that can be
spent, by height, amount and global index, and again by address; the outputs that are locked, by the
height or the time at which they open; the outputs that were opened, by the height at which this
happened; and the output that each key image stands for. The balances of the addresses are kept up to
date with every change.

A block adds the outputs and key images that the wallet recognises in its transactions, and then opens
what its height and its median of timestamps open. The changes are journaled, saved under the height of
the block when the block is pushed, and undone when it is popped.

The keys are the tuples that the source writes into its byte strings one behind the other; the prefix
of such a string is the index here. The transactions that are not in a block do not touch the database.
-/

namespace CryoNero

open Store Seria

namespace Api

/-- What an address has, in coins and in outputs. -/
structure Balance where
  spendable : BitVec 128 := 0
  spendableDust : BitVec 128 := 0
  lockedOrUnconfirmed : BitVec 128 := 0
  spendableOutputs : UInt64 := 0
  spendableDustOutputs : UInt64 := 0
  lockedOrUnconfirmedOutputs : UInt64 := 0
  deriving DecidableEq, Repr

namespace Balance

variable (balance : Balance)

def total : BitVec 128 := balance.spendable + balance.spendableDust + balance.lockedOrUnconfirmed

def totalOutputs : UInt64 :=
  balance.spendableOutputs + balance.spendableDustOutputs + balance.lockedOrUnconfirmedOutputs

end Balance

end Api

/-! ## The keys -/

structure HeightAmounGi where
  height : Height := 0
  amount : Amount := 0
  globalIndex : UInt32 := 0
  deriving DecidableEq, Repr

/-- A height or an unlock moment, an amount and a global index. -/
abbrev HeAmGi := Height ×ₗ Amount ×ₗ UInt32

instance transOrdHeAmGi : Std.TransOrd HeAmGi := inferInstance
instance transOrdAddressHeAmGi : Std.TransOrd (String ×ₗ HeAmGi) := inferInstance
instance transOrdLockKeyimage : Std.TransOrd (KeyImage ×ₗ Amount ×ₗ UInt32) := inferInstance
instance transOrdAddressTransaction : Std.TransOrd (String ×ₗ Height ×ₗ Hash) := inferInstance

def HeightAmounGi.key (value : HeightAmounGi) : HeAmGi :=
  toLex (value.height, toLex (value.amount, value.globalIndex))

def Api.Output.heightAmounGi (output : Api.Output) : HeightAmounGi :=
  ⟨output.height, output.amount, output.globalIndex⟩

/-- The indexes of the database, with the prefixes of their keys in the source. -/
inductive WalletIndex
  /-- `ki` -/
  | keyimages
  /-- `un` -/
  | unspents
  /-- `uh` -/
  | addressUnspents
  /-- `ul` -/
  | unlocked
  /-- `li` -/
  | lockedKeyimages
  /-- `lh` for outputs that open at a height and `lt` for those that open at a time -/
  | locked (byHeight : Bool)
  /-- `ba` -/
  | balances
  /-- `tx` -/
  | transactions
  /-- `th` -/
  | addressTransactions
  deriving DecidableEq, Fintype

namespace WalletIndex

abbrev Key : WalletIndex → Type
  | keyimages => KeyImage
  | unspents => HeAmGi
  | addressUnspents => String ×ₗ HeAmGi
  | unlocked => HeAmGi
  | lockedKeyimages => KeyImage ×ₗ Amount ×ₗ UInt32
  | locked _ => HeAmGi
  | balances => String
  | transactions => Hash
  | addressTransactions => String ×ₗ Height ×ₗ Hash

abbrev Value : WalletIndex → Type
  | keyimages => HeightAmounGi
  | unspents => Api.Output
  | addressUnspents => Unit
  | unlocked => Api.Output
  | lockedKeyimages => UnlockMoment
  | locked _ => Api.Output
  | balances => Api.Balance
  | transactions => TransactionPrefix × Api.Transaction
  | addressTransactions => Unit

instance (i : WalletIndex) : Ord i.Key := by cases i <;> exact inferInstance
instance (i : WalletIndex) : Std.TransOrd i.Key := by cases i <;> exact inferInstance
instance (i : WalletIndex) : Std.LawfulEqOrd i.Key := by cases i <;> exact inferInstance

end WalletIndex

/-! ## Records -/

/-- `is_transaction_spend_time_block` -/
def Currency.isTransactionSpendTimeBlock (unlockTime : UnlockMoment) : Bool :=
  unlockTime < maxBlockHeight.toUInt64

abbrev WalletIndexes := Indexed WalletIndex.Key WalletIndex.Value

namespace WalletIndexes

variable (s : WalletIndexes)

def putWithUndo (i : WalletIndex) (k : i.Key) (v : i.Value) (nooverwrite : Bool) :
    Except Fault WalletIndexes :=
  if nooverwrite ∧ (s.get i k).isSome then .error .keyExists else .ok (s.put i k v)

def delWithUndo (i : WalletIndex) (k : i.Key) (mustexist : Bool) : Except Fault WalletIndexes :=
  if mustexist ∧ s.get i k = none then .error .keyMissing else .ok (s.del i k)

/-! ## Balances -/

/-- `combine_balance` -/
def combineBalance (balance : Api.Balance) (output : Api.Output) (lockedOp spendableOp : ℤ) :
    Api.Balance :=
  let amount := output.amount.toBitVec.setWidth 128
  let change (op : ℤ) (sum : BitVec 128) : BitVec 128 :=
    if 0 < op then sum + amount else if op < 0 then sum - amount else sum
  let balance := { balance with
    lockedOrUnconfirmed := change lockedOp balance.lockedOrUnconfirmed
    lockedOrUnconfirmedOutputs := balance.lockedOrUnconfirmedOutputs + UInt64.ofInt lockedOp }
  if output.dust then
    { balance with
      spendableDust := change spendableOp balance.spendableDust
      spendableDustOutputs := balance.spendableDustOutputs + UInt64.ofInt spendableOp }
  else
    { balance with
      spendable := change spendableOp balance.spendable
      spendableOutputs := balance.spendableOutputs + UInt64.ofInt spendableOp }

/-- A balance of nothing is not kept. -/
def writeBalance (address : String) (balance : Api.Balance) : WalletIndexes :=
  if balance.total = 0 ∧ balance.totalOutputs = 0 then s.del .balances address
  else s.put .balances address balance

/-- `modify_balance`; the sum over all addresses is kept under the empty address. -/
def modifyBalance (output : Api.Output) (lockedOp spendableOp : ℤ) : WalletIndexes :=
  let combine (address : String) : Api.Balance :=
    combineBalance ((s.get .balances address).getD {}) output lockedOp spendableOp
  WalletIndexes.writeBalance (s.writeBalance output.address (combine output.address)) "" (combine "")

/-! ## Locked outputs -/

/-- Unlock moments beyond 32 bits are written as the last moment. -/
def clampedUnlockTime (unlockTime : UnlockMoment) : UInt32 := (min unlockTime 0xFFFFFFFF).toUInt32

def lockKey (unlockTime : UnlockMoment) (amount : Amount) (globalIndex : UInt32) : HeAmGi :=
  toLex (clampedUnlockTime unlockTime, toLex (amount, globalIndex))

def lockKeyimageKey (output : Api.Output) : KeyImage ×ₗ Amount ×ₗ UInt32 :=
  toLex (output.keyImage, toLex (output.amount, output.globalIndex))

def addToLockIndex (output : Api.Output) : Except Fault WalletIndexes := do
  let s := s.modifyBalance output 1 0
  let s ← s.putWithUndo (.locked (Currency.isTransactionSpendTimeBlock output.unlockTime))
    (lockKey output.unlockTime output.amount output.globalIndex) output true
  if output.keyImage ≠ 0 then
    s.putWithUndo .lockedKeyimages (lockKeyimageKey output) output.unlockTime true
  else .ok s

def removeFromLockIndex (output : Api.Output) : Except Fault WalletIndexes := do
  let s := s.modifyBalance output (-1) 0
  let s ← s.delWithUndo (.locked (Currency.isTransactionSpendTimeBlock output.unlockTime))
    (lockKey output.unlockTime output.amount output.globalIndex) true
  if output.keyImage ≠ 0 then s.delWithUndo .lockedKeyimages (lockKeyimageKey output) true else .ok s

/-! ## Unspent outputs -/

def addressKey (output : Api.Output) : String ×ₗ HeAmGi :=
  toLex (output.address, output.heightAmounGi.key)

def addToUnspentIndex (output : Api.Output) : Except Fault WalletIndexes := do
  let s := s.modifyBalance output 0 1
  let s ← s.putWithUndo .unspents output.heightAmounGi.key output true
  s.putWithUndo .addressUnspents (addressKey output) () true

def removeFromUnspentIndex (output : Api.Output) : Except Fault WalletIndexes := do
  let s := s.modifyBalance output 0 (-1)
  let s ← s.delWithUndo .unspents output.heightAmounGi.key true
  s.delWithUndo .addressUnspents (addressKey output) true

def readFromUnspentIndex (value : HeightAmounGi) : Option Api.Output := s.get .unspents value.key

def readByKeyimage (keyImage : KeyImage) : Option HeightAmounGi := s.get .keyimages keyImage

def updateKeyimage (keyImage : KeyImage) (value : HeightAmounGi) (nooverwrite : Bool) :
    Except Fault WalletIndexes :=
  if keyImage = 0 then .ok s else s.putWithUndo .keyimages keyImage value nooverwrite

/-! ## Incoming outputs -/

/-- `try_add_incoming_output`: by how much the balance would grow, if the output would be taken. -/
def tryAddIncomingOutput (output : Api.Output) : Option Amount :=
  match s.readByKeyimage output.keyImage with
  | none => some output.amount
  | some heamgi =>
    match s.readFromUnspentIndex heamgi with
    | none => none
    | some existing =>
      if output.unlockTime ≠ 0 then some output.amount
      else if output.amount ≤ heamgi.amount ∨ output.address ≠ existing.address then none
      else some (output.amount - heamgi.amount)

/-- An output becomes one that can be spent, and its key image stands for it. -/
def addUnspent (output : Api.Output) (nooverwrite : Bool) : Except Fault WalletIndexes := do
  let s ← s.addToUnspentIndex output
  s.updateKeyimage output.keyImage output.heightAmounGi nooverwrite

/-- `add_incoming_output`. An output with a known key image is taken only if the other one is unspent,
belongs to the same address and is worth less; it takes the place of the other one. -/
def addIncomingOutput (output : Api.Output) (justUnlocked : Bool) :
    Except Fault (WalletIndexes × Amount) :=
  let locks : Bool := output.unlockTime ≠ 0 ∧ justUnlocked = false
  let lock : Except Fault (WalletIndexes × Amount) := do
    let s ← s.addToLockIndex output
    return (s, output.amount)
  match s.readByKeyimage output.keyImage with
  | none =>
    if locks then lock
    else do
      let s ← s.addUnspent output true
      return (s, output.amount)
  | some heamgi =>
    match s.readFromUnspentIndex heamgi with
    | none => .ok (s, 0)
    | some existing =>
      if locks then lock
      else if output.amount ≤ heamgi.amount ∨ output.address ≠ existing.address then .ok (s, 0)
      else do
        let s ← s.removeFromUnspentIndex existing
        let s ← s.addUnspent output false
        return (s, output.amount - heamgi.amount)

/-- `unlock` of one output. -/
def unlockOutput (nowHeight : Height) (output : Api.Output) : Except Fault WalletIndexes := do
  let s ← s.removeFromLockIndex output
  let (s, adjustedAmount) ← s.addIncomingOutput output true
  s.putWithUndo .unlocked (toLex (nowHeight, toLex (output.amount, output.globalIndex)))
    { output with amount := adjustedAmount } true

/-! ## Incoming key images -/

/-- The locked outputs with a key image. -/
def foundInLocked (keyImage : KeyImage) : Except Fault (List Api.Output) :=
  ((s.records .lockedKeyimages).toList.filter fun e ↦ (ofLex e.1).1 = keyImage).mapM fun e ↦
    orFail .invariantViolated (s.get (.locked (Currency.isTransactionSpendTimeBlock e.2))
      (toLex (clampedUnlockTime e.2, (ofLex e.1).2)))

/-- `add_incoming_keyimage` -/
def addIncomingKeyimage (blockHeight : Height) (keyImage : KeyImage) :
    Except Fault (WalletIndexes × Amount) := do
  let found ← s.foundInLocked keyImage
  let s ← found.foldlM (fun s lo ↦ unlockOutput s blockHeight lo) s
  match (s.readByKeyimage keyImage).bind s.readFromUnspentIndex with
  | none => return (s, 0)
  | some existing => do
    let s ← s.removeFromUnspentIndex existing
    return (s, existing.amount)

/-- A locked output that a key image may spend is preferred when it is worth more than the one found so
far, and belongs to the same address. -/
def betterSpending (candidate : Option Api.Output) (e : (KeyImage ×ₗ Amount ×ₗ UInt32) × UnlockMoment) :
    Except Fault (Option Api.Output) := do
  let (amount, globalIndex) := ofLex (ofLex e.1).2
  if candidate.any fun output ↦ amount ≤ output.amount then return candidate
  let output ← orFail .invariantViolated (s.get
    (.locked (Currency.isTransactionSpendTimeBlock e.2)) (lockKey e.2 amount globalIndex))
  ensure (output.amount = amount ∧ output.globalIndex = globalIndex) .invariantViolated
  if candidate.any fun spending ↦ output.address ≠ spending.address then return candidate
  return some output

/-- `try_adding_incoming_keyimage`: which output the key image spends. -/
def tryAddingIncomingKeyimage (keyImage : KeyImage) : Except Fault (Option Api.Output) :=
  ((s.records .lockedKeyimages).toList.filter fun e ↦ (ofLex e.1).1 = keyImage).foldlM s.betterSpending
    ((s.readByKeyimage keyImage).bind s.readFromUnspentIndex)

def view : WalletStateView := ⟨s.tryAddIncomingOutput, s.tryAddingIncomingKeyimage⟩

/-! ## Transactions -/

/-- `add_transaction`; the addresses of its transfers and the empty address lead to it. -/
def addTransaction (height : Height) (tid : Hash) (tx : TransactionPrefix) (ptx : Api.Transaction) :
    Except Fault WalletIndexes := do
  let s ← s.putWithUndo .transactions tid (tx, ptx) true
  let addresses : Table String Unit :=
    ptx.transfers.foldl (fun t tr ↦ t.insert tr.address ()) ((∅ : Table String Unit).insert "" ())
  addresses.toList.foldlM (fun (s : WalletIndexes) addr ↦
    s.putWithUndo .addressTransactions (toLex (addr.1, toLex (height, tid))) () true) s

/-- The database takes what is in a block. -/
def walletState : IWalletState WalletIndexes where
  addIncomingOutput s output := s.addIncomingOutput output false
  addIncomingKeyimage s blockHeight keyImage := s.addIncomingKeyimage blockHeight keyImage
  addTransaction s height tid tx ptx := s.addTransaction height tid tx ptx

/-! ## Reading by ranges -/

/-- The records from a height or moment after `begin_` to `end_`, in the order of their keys. -/
def between (t : Table HeAmGi Api.Output) (begin_ end_ : UInt32) : List (HeAmGi × Api.Output) :=
  (t.toList.filter fun e ↦ begin_ + 1 ≤ (ofLex e.1).1).takeWhile fun e ↦ (ofLex e.1).1 ≤ end_

/-- Outputs by amount and global index. -/
abbrev OutputMap := Table (Amount ×ₗ UInt32) Api.Output

/-- One turn of `read_unlock_index`. -/
def addUnlocked (address : String) (add : OutputMap) (e : HeAmGi × Api.Output) :
    Except Fault OutputMap := do
  let key := (ofLex e.1).2
  ensure (e.2.globalIndex = (ofLex key).2) .invariantViolated
  if address = "" ∨ e.2.address = address then
    ensure (add[key]? = none) .invariantViolated
    return add.insert key e.2
  else return add

/-- `read_unlock_index` -/
def readUnlockIndex (add : OutputMap) (t : Table HeAmGi Api.Output) (address : String)
    (begin_ end_ : UInt32) : Except Fault OutputMap :=
  if begin_ ≠ 0xFFFFFFFF ∧ end_ ≤ begin_ then .ok add
  else (between t begin_ end_).foldlM (addUnlocked address) add

def apiGetUnlockedOutputs (address : String) (fromHeight toHeight : Height) : Except Fault OutputMap :=
  readUnlockIndex ∅ (s.records .unlocked) address fromHeight toHeight

/-- `unlock`: everything that opens until a height and a time. -/
def unlock (nowHeight : Height) (now : Timestamp) : Except Fault WalletIndexes := do
  let toUnlock ← readUnlockIndex ∅ (s.records (.locked true)) "" 0xFFFFFFFF nowHeight
  let toUnlock ← readUnlockIndex toUnlock (s.records (.locked false)) "" 0xFFFFFFFF now
  toUnlock.toList.foldlM (fun s unl ↦ unlockOutput s nowHeight unl.2) s

/-- The unspent outputs of an address, or of all addresses, from a height after `from_` to `to_`. The
output that the index of an address leads to is looked up when it is visited. -/
def unspentsBetween (address : String) (from_ to_ : Height) : List (Except Fault Api.Output) :=
  if address = "" then (between (s.records .unspents) from_ to_).map fun e ↦ .ok e.2
  else
    (((s.records .addressUnspents).toList.filter fun e ↦
      (ofLex e.1).1 = address ∧ from_ + 1 ≤ (ofLex (ofLex e.1).2).1).takeWhile fun e ↦
        (ofLex (ofLex e.1).2).1 ≤ to_).map fun e ↦ do
          let output ← orFail .invariantViolated (s.get .unspents (ofLex e.1).2)
          ensure (output.address = address) .invariantViolated
          return output

/-- Visit outputs until the visitor has enough; the flag tells that it never had. -/
def visit {σ : Type} (fn : σ → Api.Output → σ × Bool) : σ → List (Except Fault Api.Output) →
    Except Fault (σ × Bool)
  | a, [] => .ok (a, true)
  | a, output :: outputs => do
    let output ← output
    let p := fn a output
    if p.2 then visit fn p.1 outputs else return (p.1, false)

def forEachInUnspentIndex {σ : Type} (address : String) (from_ to_ : Height)
    (fn : σ → Api.Output → σ × Bool) (a : σ) : Except Fault (σ × Bool) :=
  visit fn a (s.unspentsBetween address from_ to_)

/-! ## Coins that are shown as spendable -/

/-- `is_memory_spent`, with the key images of the transactions that are not in a block. -/
def isMemorySpent (used : Table KeyImage ℤ) (output : Api.Output) : Bool :=
  (used[output.keyImage]?).isSome

/-- The outputs that were listed, and the sum of those that are not dust. -/
abbrev Listed := List Api.Output × Amount

/-- One turn of `api_add_unspent`. -/
def addUnspentTurn (used : Table KeyImage ℤ) (recentlyUnlocked : OutputMap) (maxAmount : Amount)
    (listed : Listed) (output : Api.Output) : Listed × Bool :=
  if isMemorySpent used output = false ∧
      recentlyUnlocked[(toLex (output.amount, output.globalIndex) : Amount ×ₗ UInt32)]? = none then
    let listed : Listed :=
      (listed.1 ++ [output], if output.dust then listed.2 else listed.2 + output.amount)
    (listed, ¬(maxAmount ≤ listed.2 ∧ 10000 ≤ listed.1.length))
  else (listed, true)

/-- `api_add_unspent`; the flag tells that the search was not given up early. -/
def apiAddUnspent (used : Table KeyImage ℤ) (listed : Listed) (address : String)
    (confirmedHeight : Height) (maxAmount : Amount) : Except Fault (Listed × Bool) := do
  let recentlyUnlocked ← s.apiGetUnlockedOutputs address confirmedHeight 0xFFFFFFFF
  s.forEachInUnspentIndex address 0xFFFFFFFF confirmedHeight
    (addUnspentTurn used recentlyUnlocked maxAmount) listed

/-- The coins of several addresses. The first attempt to create a transaction stops at the address that
has enough. -/
def addUnspents (used : Table KeyImage ℤ) (confirmedHeight : Height) (maxAmount : Amount)
    (stops : Bool) : Listed → List String → Except Fault Listed
  | listed, [] => .ok listed
  | listed, ad :: ads => do
    let p ← s.apiAddUnspent used listed ad confirmedHeight maxAmount
    if stops ∧ p.2 = false then return p.1 else addUnspents used confirmedHeight maxAmount stops p.1 ads

/-- The coins that `handle_create_transaction3` offers to the selector. Without addresses to spend from
it takes the coins of all. -/
def spendableCoins (used : Table KeyImage ℤ) (spendAddresses : List String) (confirmedHeight : Height)
    (maxAmount : Amount) (stops : Bool) : Except Fault Listed :=
  s.addUnspents used confirmedHeight maxAmount stops ([], 0)
    (if spendAddresses = [] then [""] else spendAddresses)

end WalletIndexes

/-! ## Blocks -/

/-- A block whose transactions are ready to be parsed. -/
structure PreparedWalletBlock where
  timestamp : Timestamp
  transactionHashes : List Hash
  baseTransaction : PreparedWalletTransaction
  baseTransactionHash : Hash
  transactions : List PreparedWalletTransaction

/-- The database of a wallet with the ends of its chain. -/
structure WalletDb where
  indexes : WalletIndexes := {}
  headers : Table Height Api.BlockHeader := ∅
  undoStates : Table Height (Indexed.Undo WalletIndex.Key WalletIndex.Value) := ∅
  tipHeight : Height := 0xFFFFFFFF
  tailHeight : Height := 0
  tip : Api.BlockHeader := {}

namespace WalletDb

variable (s : WalletDb)

def emptyChain : Bool := s.tipHeight + 1 = s.tailHeight

/-- What is remembered is saved under a height, unless nothing was changed. -/
def saveDbState (state : Height) : Except Fault WalletDb :=
  if ∀ i, (s.indexes.undo i).isEmpty then .ok s
  else do
    ensure (s.undoStates[state]? = none) .keyExists
    return { s with undoStates := s.undoStates.insert state s.indexes.undo }

/-- The old records are put back. Between two blocks nothing else is remembered. -/
def undoDbState (state : Height) : WalletDb :=
  match s.undoStates[state]? with
  | none => s
  | some undoMap =>
    { s with
      undoStates := s.undoStates.erase state
      indexes := Indexed.ofRecords (Indexed.replay undoMap s.indexes.records) }

def pushChain (header : Api.BlockHeader) : Except Fault WalletDb := do
  let s := { s with tipHeight := s.tipHeight + 1 }
  ensure (s.headers[s.tipHeight]? = none) .keyExists
  let s := { s with headers := s.headers.insert s.tipHeight header, tip := header }
  let s ← s.saveDbState s.tipHeight
  return { s with indexes := Indexed.ofRecords s.indexes.records }

/-- The header at the tip, or none of any block. -/
def readTip : Except Fault Api.BlockHeader :=
  if s.emptyChain then .ok {} else orFail .invariantViolated s.headers[s.tipHeight]?

def popChain : Except Fault WalletDb := do
  ensure (s.emptyChain = false) .invariantViolated
  let s := s.undoDbState s.tipHeight
  ensure (s.headers[s.tipHeight]? ≠ none) .keyMissing
  let s := { s with headers := s.headers.erase s.tipHeight, tipHeight := s.tipHeight - 1 }
  let tip ← s.readTip
  return { s with tip := tip }

/-- An empty chain gets the genesis block. -/
def fixEmptyChain (genesis : Api.BlockHeader) : Except Fault WalletDb :=
  if s.emptyChain then { s with tailHeight := 0, tipHeight := 0xFFFFFFFF }.pushChain genesis else .ok s

def resetChain (newTailHeight : Height) : Except Fault WalletDb := do
  ensure (s.emptyChain = true) .invariantViolated
  return { s with tailHeight := newTailHeight, tipHeight := newTailHeight - 1 }

/-- A transaction of a block, with its global indices and its place among them. -/
def redoBlockTransaction (env : WalletStateEnv) (keys : WalletKeys) (header : Api.BlockHeader)
    (pb : PreparedWalletBlock) (height : Height) (s : WalletIndexes)
    (p : (PreparedWalletTransaction × List UInt32) × ℕ) : Except Fault WalletIndexes := do
  let tid ← orFail .invariantViolated pb.transactionHashes[p.2]?
  let r ← redoTransaction WalletIndexes.walletState env keys s.view s p.1.1 p.1.2 false tid height
    header.hash pb.timestamp
  return r.1

/-- `redo_block`: the transactions of a block, the first one first, and then what opens with it. A block
with the wrong number of global indices changes nothing. -/
def redoBlock (env : WalletStateEnv) (keys : WalletKeys) (header : Api.BlockHeader)
    (pb : PreparedWalletBlock) (globalIndices : List (List UInt32)) : Except Fault WalletDb :=
  let height := s.tipHeight + 1
  match globalIndices with
  | [] => .ok s
  | base :: rest =>
    if rest.length ≠ pb.transactions.length then .ok s
    else do
      let r ← redoTransaction WalletIndexes.walletState env keys s.indexes.view s.indexes
        pb.baseTransaction base true pb.baseTransactionHash height header.hash pb.timestamp
      let indexes ← (pb.transactions.zip rest).zipIdx.foldlM
        (redoBlockTransaction env keys header pb height) r.1
      let indexes ← indexes.unlock height header.timestampMedian
      return { s with indexes := indexes }

/-- What happens to the database. A block that is older than the wallet is pushed without a look at its
transactions. -/
inductive Event
  | pop
  | fix
  | reset (newTailHeight : Height)
  | block (header : Api.BlockHeader)
      (transactions : Option (PreparedWalletBlock × List (List UInt32)))

def step (env : WalletStateEnv) (keys : WalletKeys) (genesis : Api.BlockHeader) :
    WalletDb → Event → Except Fault WalletDb
  | s, .pop => s.popChain
  | s, .fix => s.fixEmptyChain genesis
  | s, .reset newTailHeight => s.resetChain newTailHeight
  | s, .block header none => s.pushChain header
  | s, .block header (some (pb, globalIndices)) => do
    let s ← s.redoBlock env keys header pb globalIndices
    s.pushChain header

end WalletDb

end CryoNero
