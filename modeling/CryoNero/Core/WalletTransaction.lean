import CryoNero.Core.Wallet
import CryoNero.Core.Currency

/-!
# Transactions seen by a wallet

A wallet recognises the outputs that were sent to it by their one-time keys, and its own inputs by
their key images. What it recognises in a transaction depends on the database at that moment: an
output that repeats a key image counts only as far as it is worth more than the one it repeats.

The result is an `Api.Transaction`, which is handed to an `IWalletState` together with the outputs
and key images that were found. One such state is the database of the wallet; the other one is
`WalletState.DeltaState`, the transactions that are not in a block yet.
-/

namespace CryoNero

open Store Seria

abbrev SignedAmount := Int64

namespace Api

structure Output where
  amount : Amount := 0
  publicKey : PublicKey := 0
  globalIndex : UInt32 := 0
  unlockTime : UnlockMoment := 0
  indexInTransaction : UInt32 := 0
  height : Height := 0
  keyImage : KeyImage := 0
  transactionPublicKey : PublicKey := 0
  address : String := ""
  dust : Bool := false
  deriving DecidableEq, Repr

structure Transfer where
  address : String := ""
  amount : SignedAmount := 0
  ours : Bool := false
  locked : Bool := false
  outputs : List Output := []
  deriving DecidableEq, Repr

structure Transaction where
  unlockTime : UnlockMoment := 0
  transfers : List Transfer := []
  paymentId : Hash := 0
  anonymity : UInt32 := 0
  hash : Hash := 0
  fee : SignedAmount := 0
  publicKey : PublicKey := 0
  extra : Bytes := []
  coinbase : Bool := false
  amount : Amount := 0
  blockHeight : Height := 0
  blockHash : Hash := 0
  timestamp : Timestamp := 0
  binarySize : UInt32 := 0
  deriving DecidableEq, Repr

end Api

/-! ## Surroundings -/

/-- The primitives by which a wallet finds its outputs. -/
structure SpendCrypto extends Crypto where
  underivePublicKey : KeyDerivation → ℕ → PublicKey → Option PublicKey
  deriveSecretKey : KeyDerivation → ℕ → SecretKey → SecretKey
  generateKeyImage : PublicKey → SecretKey → KeyImage
  hashToScalar : Bytes → SecretKey

structure WalletStateEnv where
  crypto : SpendCrypto
  currency : Currency
  accountAddressAsString : AccountPublicAddress → String

/-- The parts of an open wallet that are looked at when a transaction is parsed. The history of a
transaction that was sent from this wallet is the ordered set of the addresses it was sent to. -/
structure WalletKeys where
  viewPublicKey : PublicKey
  viewSecretKey : SecretKey
  txDerivationSeed : Hash
  walletRecords : Table PublicKey WalletRecord
  loadHistory : Hash → List AccountPublicAddress

/-- What the database is asked while a transaction is parsed: by how much an output would raise the
balance, if it would be taken at all, and which output a key image spends. -/
structure WalletStateView where
  tryAddIncomingOutput : Api.Output → Option Amount
  tryAddingIncomingKeyimage : KeyImage → Except Fault (Option Api.Output)

/-- Addresses are ordered by their view keys first. -/
def AccountPublicAddress.key (address : AccountPublicAddress) : PublicKey ×ₗ PublicKey :=
  toLex (address.viewPublicKey, address.spendPublicKey)

/-- The one-time key of an output. -/
def TransactionOutput.key (output : TransactionOutput) : PublicKey :=
  match output.target with
  | .keyOutput keyOutput => keyOutput.key

/-- The digits one to nine followed by zeros, as far as they fit 64 bits. -/
def Currency.prettyAmounts : List Amount :=
  ((List.range 20).flatMap fun k ↦ (List.range 9).map fun d ↦ (d + 1) * 10 ^ k).filterMap fun n ↦
    if n < 2 ^ 64 then some (UInt64.ofNat n) else none

def Currency.isDust (amount : Amount) : Bool :=
  ¬amount ∈ Currency.prettyAmounts ∨ amount < 1000000

def getTransactionPublicKeyFromExtra (extra : Bytes) : PublicKey :=
  ((parseTransactionExtra extra.length extra).1.findSome? fun
    | .publicKey key => some key
    | _ => none).getD 0

def txExtraNoncePaymentId : UInt8 := 0x00

/-- The payment id in the first nonce, when that nonce has exactly the form of one. -/
def getPaymentIdFromTxExtra (extra : Bytes) : Option Hash :=
  ((parseTransactionExtra extra.length extra).1.findSome? fun
    | .nonce bytes => some bytes
    | _ => none).bind fun
      | tag :: id => if id.length = 32 ∧ tag = txExtraNoncePaymentId then some (blobOfBytes 256 id)
        else none
      | [] => none

/-! ## Preparing -/

/-- A transaction with the spend keys its outputs would belong to. When the transaction has no
usable public key, the derivation stays zero. -/
structure PreparedWalletTransaction where
  tx : TransactionPrefix
  derivation : KeyDerivation
  spendKeys : List PublicKey
  length_spendKeys : derivation ≠ 0 → spendKeys.length = tx.outputs.length

def PreparedWalletTransaction.prepare (crypto : SpendCrypto) (tx : TransactionPrefix)
    (viewSecretKey : SecretKey) : PreparedWalletTransaction :=
  match crypto.generateKeyDerivation (getTransactionPublicKeyFromExtra tx.extra) viewSecretKey with
  | none => ⟨tx, 0, [], fun h ↦ absurd rfl h⟩
  | some derivation =>
    ⟨tx, derivation,
      tx.outputs.mapIdx fun i output ↦ (crypto.underivePublicKey derivation i output.key).getD 0,
      fun _ ↦ List.length_mapIdx⟩

/-! ## Parsing -/

section Parse

variable (env : WalletStateEnv) (keys : WalletKeys) (view : WalletStateView)

/-- `TransactionBuilder::derive_public_key` -/
def SpendCrypto.derivePublicKeyFor (crypto : SpendCrypto) (addr : AccountPublicAddress)
    (txKey : SecretKey) (outputIndex : ℕ) : Option PublicKey := do
  let derivation ← crypto.generateKeyDerivation addr.viewPublicKey txKey
  crypto.derivePublicKey derivation outputIndex addr.spendPublicKey

/-- The secret key of `deterministic_keys_from_seed` -/
def SpendCrypto.deterministicSecretKey (crypto : SpendCrypto) (tx : TransactionPrefix)
    (txDerivationSeed : Hash) : SecretKey :=
  let txInputsHash := crypto.cnFastHash (writeVector writeTransactionInput tx.inputs)
  crypto.hashToScalar (writeHash txInputsHash ++ writeHash txDerivationSeed)

/-- Transfers are collected by address. -/
abbrev Transfers := Table (PublicKey ×ₗ PublicKey) Api.Transfer

/-- The loop over the outputs. The two maps of transfers are kept apart by whether the address is of
this wallet. -/
structure ParsedOutputs where
  fee : SignedAmount := 0
  outputAmount : Amount := 0
  ours : Transfers := ∅
  others : Transfers := ∅
  ourTransaction : Bool := false

/-- The transfer to an address, with its text filled in. -/
def Transfers.transferTo (m : Transfers) (address : AccountPublicAddress) : Api.Transfer :=
  let transfer := (m[address.key]?).getD {}
  { transfer with
    address := if transfer.address = "" then env.accountAddressAsString address
      else transfer.address }

/-- An output as it is found in a transaction, before its owner is known. -/
def foundOutput (tx : TransactionPrefix) (output : TransactionOutput) (globalIndex : UInt32)
    (outIndex : ℕ) (blockHeight : Height) : Api.Output where
  amount := output.amount
  globalIndex := globalIndex
  dust := Currency.isDust output.amount
  height := blockHeight
  indexInTransaction := UInt32.ofNat outIndex
  publicKey := output.key
  transactionPublicKey := getTransactionPublicKeyFromExtra tx.extra
  unlockTime := tx.unlockTime

namespace ParsedOutputs

/-- The one-time key of the wallet at a position, and its record, when the output was sent to one of
its spend keys. -/
def recognise (pwtx : PreparedWalletTransaction) (spendKey : PublicKey) (outIndex : ℕ) :
    Option (WalletRecord × PublicKey) :=
  if spendKey = 0 then none else do
    let record ← keys.walletRecords[spendKey]?
    let publicKey ← env.crypto.derivePublicKey pwtx.derivation outIndex spendKey
    return (record, publicKey)

/-- An output of this wallet. It counts when the database would take it. -/
def addOurs (pwtx : PreparedWalletTransaction) (p : ParsedOutputs) (found : Api.Output)
    (spendKey : PublicKey) (outIndex : ℕ) (record : WalletRecord) (publicKey : PublicKey) :
    ParsedOutputs :=
  let address : AccountPublicAddress := ⟨spendKey, keys.viewPublicKey⟩
  let transfer := p.ours.transferTo env address
  let out := { found with
    keyImage := if record.spendSecretKey ≠ 0 then
        env.crypto.generateKeyImage publicKey
          (env.crypto.deriveSecretKey pwtx.derivation outIndex record.spendSecretKey)
      else 0
    address := transfer.address }
  let transfer := match view.tryAddIncomingOutput out with
    | some delta => { transfer with
        amount := transfer.amount + delta.toInt64
        outputs := transfer.outputs ++ [out] }
    | none => transfer
  { p with ours := p.ours.insert address.key transfer, ourTransaction := true }

/-- An output of a transaction that was sent from this wallet goes to the addresses in the history
that it fits. -/
def addOthers (pwtx : PreparedWalletTransaction) (p : ParsedOutputs) (found : Api.Output)
    (outIndex : ℕ) (history : List AccountPublicAddress) : ParsedOutputs :=
  let txKey := env.crypto.deterministicSecretKey pwtx.tx keys.txDerivationSeed
  history.foldl (fun p addr ↦
    if (env.crypto.derivePublicKeyFor addr txKey outIndex).getD 0 = found.publicKey then
      let transfer := p.others.transferTo env addr
      { p with others := p.others.insert addr.key { transfer with
          amount := transfer.amount + found.amount.toInt64
          outputs := transfer.outputs ++ [{ found with address := transfer.address }] } }
    else p) p

def parseOutput (pwtx : PreparedWalletTransaction) (history : List AccountPublicAddress)
    (blockHeight : Height) (p : ParsedOutputs) :
    (TransactionOutput × PublicKey × UInt32) × ℕ → ParsedOutputs
  | ((output, spendKey, globalIndex), outIndex) =>
    let p := { p with
      outputAmount := p.outputAmount + output.amount
      fee := p.fee - output.amount.toInt64 }
    let found := foundOutput pwtx.tx output globalIndex outIndex blockHeight
    match recognise env keys pwtx spendKey outIndex with
    | some (record, publicKey) => p.addOurs env keys view pwtx found spendKey outIndex record publicKey
    | none => p.addOthers env keys pwtx found outIndex history

/-- The transfers with a nonzero amount, those to other wallets first. -/
def transfers (p : ParsedOutputs) (unlockTime : UnlockMoment) : List Api.Transfer :=
  let collect (m : Transfers) (ours : Bool) : List Api.Transfer :=
    (m.toList.map fun tm ↦ { tm.2 with locked := unlockTime ≠ 0, ours := ours }).filter
      (·.amount ≠ 0)
  collect p.others false ++ collect p.ours true

end ParsedOutputs

/-- The loop over the inputs. -/
structure ParsedInputs where
  fee : SignedAmount := 0
  inputAmount : Amount := 0
  anonymity : UInt32 := 0xFFFFFFFF
  transfers : Table String Api.Transfer := ∅
  unrecognizedInputsAmount : Amount := 0
  ourTransaction : Bool := false

def ParsedInputs.parseInput (p : ParsedInputs) (input : KeyInput) : Except Fault ParsedInputs := do
  let p := { p with
    inputAmount := p.inputAmount + input.amount
    fee := p.fee + input.amount.toInt64
    anonymity := min p.anonymity (UInt32.ofNat input.outputIndexes.length - 1) }
  match ← view.tryAddingIncomingKeyimage input.keyImage with
  | some existing =>
    let transfer := (p.transfers[existing.address]?).getD {}
    return { p with
      transfers := p.transfers.insert existing.address { transfer with
        amount := transfer.amount - existing.amount.toInt64
        ours := true
        outputs := transfer.outputs ++ [existing] }
      ourTransaction := true }
  | none =>
    return { p with unrecognizedInputsAmount := p.unrecognizedInputsAmount + input.amount }

structure ParsedTransaction where
  ptx : Api.Transaction := {}
  inputTransfers : List Api.Transfer := []
  unrecognizedInputsAmount : Amount := 0
  ourTransaction : Bool := false

def parseRawTransaction (pwtx : PreparedWalletTransaction) (tid : Hash)
    (globalIndices : List UInt32) (blockHeight : Height) : Except Fault ParsedTransaction := do
  let tx := pwtx.tx
  if globalIndices.length ≠ tx.outputs.length then return {}
  if pwtx.derivation = 0 then return {}
  let outputs := ((tx.outputs.zip (pwtx.spendKeys.zip globalIndices)).zipIdx).foldl
    (ParsedOutputs.parseOutput env keys view pwtx (keys.loadHistory tid) blockHeight) {}
  let inputs ← tx.keyInputs.foldlM (ParsedInputs.parseInput view) { fee := outputs.fee }
  let ptx : Api.Transaction :=
    { hash := tid
      blockHeight := blockHeight
      anonymity := if inputs.anonymity = 0xFFFFFFFF then 0 else inputs.anonymity
      unlockTime := tx.unlockTime
      publicKey := getTransactionPublicKeyFromExtra tx.extra
      extra := tx.extra
      paymentId := (getPaymentIdFromTxExtra tx.extra).getD 0
      fee := inputs.fee
      transfers := outputs.transfers tx.unlockTime
      amount := max inputs.inputAmount outputs.outputAmount }
  return {
    ptx := ptx
    inputTransfers := inputs.transfers.toList.map fun tm ↦ { tm.2 with address := tm.1 }
    unrecognizedInputsAmount := inputs.unrecognizedInputsAmount
    ourTransaction := outputs.ourTransaction || inputs.ourTransaction }

end Parse

/-! ## Handing a transaction over -/

/-- `IWalletState`: what takes the transactions that were recognised. -/
structure IWalletState (σ : Type) where
  addIncomingOutput : σ → Api.Output → Except Fault (σ × Amount)
  addIncomingKeyimage : σ → Height → KeyImage → Except Fault (σ × Amount)
  addTransaction : σ → Height → Hash → TransactionPrefix → Api.Transaction → Except Fault σ

section Redo

variable {σ : Type} (I : IWalletState σ)

/-- Every output goes to the state, and is worth what the state made of it. -/
def addOutputs (s : σ) : List Api.Output → Except Fault (σ × List Api.Output)
  | [] => .ok (s, [])
  | out :: outs => do
    let (s, adjustedAmount) ← I.addIncomingOutput s out
    let (s, outs) ← addOutputs s outs
    return (s, { out with amount := adjustedAmount } :: outs)

def addTransfers (s : σ) : List Api.Transfer → Except Fault (σ × List Api.Transfer)
  | [] => .ok (s, [])
  | tr :: trs => do
    let (s, outputs) ← if tr.ours then addOutputs I s tr.outputs else .ok (s, tr.outputs)
    let (s, trs) ← addTransfers s trs
    return (s, { tr with outputs := outputs } :: trs)

def addKeyimages (s : σ) (blockHeight : Height) (outs : List Api.Output) : Except Fault σ :=
  outs.foldlM (fun s out ↦ Prod.fst <$> I.addIncomingKeyimage s blockHeight out.keyImage) s

/-- `redo_transaction`; the flag tells whether the wallet recognised anything. -/
def redoTransaction (env : WalletStateEnv) (keys : WalletKeys) (view : WalletStateView) (s : σ)
    (pwtx : PreparedWalletTransaction) (globalIndices : List UInt32) (isBase : Bool) (tid : Hash)
    (blockHeight : Height) (bid : Hash) (txTimestamp : Timestamp) : Except Fault (σ × Bool) := do
  let parsed ← parseRawTransaction env keys view pwtx tid globalIndices blockHeight
  if !parsed.ourTransaction then return (s, false)
  let (s, transfers) ← addTransfers I s parsed.ptx.transfers
  let s ← addKeyimages I s blockHeight (parsed.inputTransfers.flatMap (·.outputs))
  let ptx := { parsed.ptx with
    fee := if isBase then 0 else parsed.ptx.fee
    blockHash := bid
    coinbase := isBase
    timestamp := txTimestamp
    transfers := transfers ++ parsed.inputTransfers }
  let s ← I.addTransaction s blockHeight tid pwtx.tx ptx
  return (s, true)

end Redo

/-! ## Transactions that are not in a block -/

namespace WalletState

/-- The outputs and key images of the unconfirmed transactions. -/
structure DeltaState where
  unspents : Table PublicKey (List Api.Output) := ∅
  usedKeyimages : Table KeyImage ℤ := ∅
  transactions : Table Hash (TransactionPrefix × Api.Transaction) := ∅

namespace DeltaState

variable (d : DeltaState)

def addIncomingOutput (output : Api.Output) : DeltaState :=
  { d with unspents :=
    d.unspents.insert output.publicKey (((d.unspents[output.publicKey]?).getD []) ++ [output]) }

def countKeyImage (used : Table KeyImage ℤ) (input : KeyInput) : Table KeyImage ℤ :=
  used.insert input.keyImage (((used[input.keyImage]?).getD 0) + 1)

def addTransaction (tid : Hash) (tx : TransactionPrefix) (ptx : Api.Transaction) :
    Except Fault DeltaState := do
  ensure (d.transactions[tid]? = none) .invariantViolated
  return { d with
    transactions := d.transactions.insert tid (tx, ptx)
    usedKeyimages := tx.keyInputs.foldl countKeyImage d.usedKeyimages }

/-- The unconfirmed transactions do not know what an input spends. -/
def walletState : IWalletState DeltaState where
  addIncomingOutput d output := .ok (d.addIncomingOutput output, output.amount)
  addIncomingKeyimage d _ _ := .ok (d, 0)
  addTransaction d _ tid tx ptx := d.addTransaction tid tx ptx

/-- The first output under the key that has the amount is taken out, and the key with its last
output. -/
def eraseOutput (unspents : Table PublicKey (List Api.Output)) (output : TransactionOutput) :
    Table PublicKey (List Api.Output) :=
  match unspents[output.key]? with
  | none => unspents
  | some outs =>
    let outs := outs.eraseP (·.amount = output.amount)
    if outs = [] then unspents.erase output.key else unspents.insert output.key outs

def uncountKeyImage (used : Table KeyImage ℤ) (input : KeyInput) :
    Except Fault (Table KeyImage ℤ) := do
  let count ← orFail .invariantViolated used[input.keyImage]?
  ensure (0 ≤ count - 1) .invariantViolated
  return if count - 1 = 0 then used.erase input.keyImage
    else used.insert input.keyImage (count - 1)

def undoTransaction (tid : Hash) : Except Fault DeltaState := do
  match d.transactions[tid]? with
  | none => return d
  | some (tx, _) =>
    let usedKeyimages ← tx.keyInputs.foldlM uncountKeyImage d.usedKeyimages
    return { d with
      unspents := tx.outputs.foldl eraseOutput d.unspents
      usedKeyimages := usedKeyimages
      transactions := d.transactions.erase tid }

/-- `WalletState::add_transaction_to_mempool`. The transaction is parsed as if it were in the next
block, without global indices. -/
def addTransactionToMempool (env : WalletStateEnv) (keys : WalletKeys) (view : WalletStateView)
    (tip : Api.BlockHeader) (tipHeight : Height) (tid : Hash) (tx : TransactionPrefix) :
    Except Fault DeltaState := do
  if (d.transactions[tid]?).isSome then return d
  let pwtx := PreparedWalletTransaction.prepare env.crypto tx keys.viewSecretKey
  let p ← redoTransaction walletState env keys view d pwtx (List.replicate tx.outputs.length 0)
    false tid (tipHeight + 1) 0 tip.timestamp
  return p.1

end DeltaState

end WalletState

end CryoNero
