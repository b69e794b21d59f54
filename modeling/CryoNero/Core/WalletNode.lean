import CryoNero.Core.UnspentSelector

/-!
# Creating a transaction

A wallet that is asked for a transaction adds up what each address is to get, chooses coins for the sum,
sends what is left of them to the change address, and takes all amounts apart into round ones. The
coins become inputs with the decoys that the node offers, and the transaction is signed.

The request is given with its address for the change parsed and with its defaults filled in. What the
wallet state lists as unspent is an argument, once for the largest sum of interest and once without a
limit, and so is what the node offers as decoys.
-/

namespace CryoNero

open Store Seria

/-- Why there is no transaction. -/
inductive CreateFault
  | build (e : BuildError)
  | select (f : UnspentSelector.Fault)
  deriving DecidableEq, Repr

def CreateFault.ofBuild {α : Type} : Except BuildError α → Except CreateFault α :=
  Except.mapError .build

namespace WalletNode

structure CreateTransaction where
  unlockTime : UnlockMoment := 0
  paymentId : Hash := 0
  anonymity : UInt32 := 0
  transfers : List Api.Transfer
  optimization : String := ""
  feePerByte : Amount
  confirmedHeight : Height
  changeAddr : AccountPublicAddress

/-- What the wallet knows when it creates a transaction. -/
structure WalletView where
  tipHeight : Height
  tipTimestamp : Timestamp
  nextBlockEffectiveMedianSize : UInt32
  /-- What `api_add_unspent` lists for the addresses to spend from, up to a sum. -/
  apiAddUnspent : Amount → List Api.Output
  viewSecretKey : SecretKey
  walletRecords : Table PublicKey WalletRecord
  txDerivationSeed : Hash

/-! ## Outputs -/

/-- What each address gets. -/
abbrev CombinedOutputs := Table (PublicKey ×ₗ PublicKey) (AccountPublicAddress × Amount)

def CombinedOutputs.add (m : CombinedOutputs) (addr : AccountPublicAddress) (amount : Amount) :
    CombinedOutputs :=
  m.insert addr.key (addr, ((m[addr.key]?).map Prod.snd).getD 0 + amount)

/-- One turn of the loop over the transfers. -/
def addTransfer (env : BuildEnv) (s : CombinedOutputs × Amount) (tr : Api.Transfer) :
    Except BuildError (CombinedOutputs × Amount) := do
  ensure (0 < tr.amount) (.jsonRpc JsonRpc.invalidParams
    ("Negative transfer amount " ++ toString tr.amount ++ " for address " ++ tr.address))
  let addr ← orFail (.jsonRpc JsonRpc.invalidParams ("Failed to parse address " ++ tr.address))
    (env.parseAccountAddressString tr.address)
  return (s.1.add addr tr.amount.toUInt64, s.2 + tr.amount.toUInt64)

/-- The amounts that an address gets, taken apart. -/
def decomposed (p : (PublicKey ×ₗ PublicKey) × AccountPublicAddress × Amount) : List Amount :=
  decomposeAmount p.2.2 Currency.defaultDustThreshold

/-- How many outputs the transfers become. -/
def totalOutputs (combinedOutputs : CombinedOutputs) : UInt64 :=
  UInt64.ofNat ((combinedOutputs.toList.map fun p ↦ (decomposed p).length).sum)

def addOutputs (combinedOutputs : CombinedOutputs) (builder : TransactionBuilder) :
    TransactionBuilder :=
  combinedOutputs.toList.foldl (fun b p ↦ (decomposed p).foldl (fun b da ↦ b.addOutput da p.2.1) b)
    builder

/-! ## Coins -/

/-- What coins are chosen for. What is locked is not optimized. -/
def CreateTransaction.selection (request : CreateTransaction) (view : WalletView)
    (sumPositiveTransfers : Amount) (totalOutputs : UInt64) : UnspentSelector.Request where
  totalAmount := sumPositiveTransfers
  totalOutputs := totalOutputs
  anonymity := request.anonymity.toUInt64
  feePerByte := request.feePerByte
  medianSize := view.nextBlockEffectiveMedianSize.toUInt64
  optimizationLevel := if request.unlockTime = 0 then request.optimization else "minimal"

/-- The error that a failed choice is reported with. -/
def selectionError (error : String) : BuildError :=
  let message := "Outputs cannot be selected for transaction " ++ error
  if error = "NOT_ENOUGH_FUNDS" then
    .createTransaction Api.CreateTransaction.notEnoughFunds message
  else if error = "TRANSACTION_DOES_NOT_FIT_IN_BLOCK" then
    .createTransaction Api.CreateTransaction.transactionDoesNotFitInBlock message
  else .jsonRpc JsonRpc.invalidParams message

/-- Coins are chosen among enough of the unspent outputs, and among all of them when that fails. -/
def chooseCoins (env : BuildEnv) (view : WalletView) (confirmedHeight : Height)
    (r : UnspentSelector.Request) (turns : ℕ) :
    Except CreateFault (UnspentSelector.Selected × Amount) := do
  let select (unspents : List Api.Output) := (UnspentSelector.selectOptimalOutputs env.currency
    view.tipHeight view.tipTimestamp confirmedHeight r unspents turns).mapError CreateFault.select
  let sel ← select (view.apiAddUnspent (r.totalAmount * 2))
  match sel.result with
  | .ok change => return (sel, change)
  | .error _ => do
    let sel ← select (view.apiAddUnspent 0xFFFFFFFFFFFFFFFF)
    match sel.result with
    | .ok change => return (sel, change)
    | .error error => throw (.build (selectionError error))

/-! ## Transactions -/

/-- A transaction before it is signed. -/
structure Prepared where
  builder : TransactionBuilder
  selection : UnspentSelector.Request
  selected : UnspentSelector.Selected
  change : Amount

/-- `handle_create_transaction3` from the new builder on to the decoys of the node. -/
def prepareTransaction (env : BuildEnv) (view : WalletView) (request : CreateTransaction)
    (raResponse : UnspentSelector.RandomOutputs) (turns : ℕ) : Except CreateFault Prepared := do
  let builder := TransactionBuilder.create request.unlockTime
  let builder := if request.paymentId ≠ 0 then builder.setPaymentId request.paymentId else builder
  let (combinedOutputs, sumPositiveTransfers) ←
    CreateFault.ofBuild (request.transfers.foldlM (addTransfer env) (∅, 0))
  CreateFault.ofBuild (ensure (sumPositiveTransfers ≠ 0) (.jsonRpc JsonRpc.invalidParams
    "Sum of amounts of all outgoing transfers cannot be 0"))
  let r := request.selection view sumPositiveTransfers (totalOutputs combinedOutputs)
  let (sel, change) ← chooseCoins env view request.confirmedHeight r turns
  let combinedOutputs :=
    if 0 < change then combinedOutputs.add request.changeAddr change else combinedOutputs
  let builder ← CreateFault.ofBuild (UnspentSelector.addMixedInputs env view.viewSecretKey
    view.walletRecords (addOutputs combinedOutputs builder) request.anonymity raResponse
    sel.state.usedUnspents)
  return ⟨builder, r, sel, change⟩

/-- `handle_create_transaction3` up to the signed transaction. -/
def createTransaction (env : BuildEnv) (view : WalletView) (request : CreateTransaction)
    (raResponse : UnspentSelector.RandomOutputs) (outputShuffle inputShuffle : Shuffle)
    (turns : ℕ) : Except CreateFault Transaction := do
  let p ← prepareTransaction env view request raResponse turns
  CreateFault.ofBuild (p.builder.sign env.crypto outputShuffle inputShuffle view.txDerivationSeed)

end WalletNode

end CryoNero
