import CryoNero.Core.WalletTransaction
import CryoNero.Core.Written

/-!
# Building a transaction

A wallet builds a transaction from outputs of its own. Each of them becomes an input that names a
ring, the own output among as many decoys as were asked for. The decoys come from the node, in one
list for each amount, which all inputs of that amount take from.

The random generator is a parameter wherever something is shuffled: it is known of a shuffle only
that it loses nothing.
-/

namespace CryoNero

open Store Seria

/-- What is thrown while a transaction is built. -/
inductive BuildError
  | createTransaction (code : Int) (message : String)
  | jsonRpc (code : Int) (message : String)
  | runtimeError (what : String)
  | invariantViolated
  deriving DecidableEq, Repr

namespace Api.CreateTransaction

def notEnoughFunds : Int := -301
def transactionDoesNotFitInBlock : Int := -302
def notEnoughAnonymity : Int := -303

end Api.CreateTransaction

def JsonRpc.invalidParams : Int := -32602

structure AccountKeys where
  address : AccountPublicAddress
  spendSecretKey : SecretKey
  viewSecretKey : SecretKey

/-- A shuffle. -/
structure Shuffle where
  shuffle : {α : Type} → List α → List α
  perm : ∀ {α : Type} (l : List α), (shuffle l).Perm l

/-- The primitives by which a wallet signs. The signatures of a ring are placed one for each of its
keys. -/
structure BuildCrypto extends SpendCrypto where
  generateRingSignature : Hash → KeyImage → List PublicKey → SecretKey → ℕ → Option (ℕ → Signature)
  secretKeyToPublicKey : SecretKey → PublicKey

structure BuildEnv where
  crypto : BuildCrypto
  currency : Currency
  parseAccountAddressString : String → Option AccountPublicAddress

/-! ## Offsets -/

/-- The distances of numbers from the ones before them. -/
def relativeFrom (before : UInt32) : List UInt32 → List UInt32
  | [] => []
  | o :: off => (o - before) :: relativeFrom o off

/-- The first number as it is, each other as its distance from the one before. -/
def absoluteOutputOffsetsToRelative : List UInt32 → List UInt32
  | [] => []
  | o :: off => o :: relativeFrom o off

/-! ## The builder -/

/-- An input with its ring in full. -/
structure InputDesc where
  outputs : List Api.Output := []
  realOutputIndex : ℕ := 0
  ephKeys : KeyPair
  input : KeyInput := {}

structure OutputDesc where
  amount : Amount
  addr : AccountPublicAddress

structure TransactionBuilder where
  transaction : Transaction := {}
  inputDescs : List InputDesc := []
  outputDescs : List OutputDesc := []
  /-- The nonce that was set, if there is one. The public key of the transaction comes after it. -/
  extraNonce : Option Bytes := none
  outputsAmount : Amount := 0
  inputsAmount : Amount := 0

namespace TransactionBuilder

def create (unlockTime : UnlockMoment) : TransactionBuilder :=
  { transaction := { version := Currency.currentTransactionVersion, unlockTime := unlockTime } }

/-- `set_payment_id`: a nonce of a special form. -/
def setPaymentId (b : TransactionBuilder) (hash : Hash) : TransactionBuilder :=
  { b with extraNonce := some (txExtraNoncePaymentId :: writeHash hash) }

def addOutput (b : TransactionBuilder) (amount : Amount) (addr : AccountPublicAddress) :
    TransactionBuilder :=
  { b with
    outputsAmount := b.outputsAmount + amount
    outputDescs := b.outputDescs ++ [⟨amount, addr⟩] }

end TransactionBuilder

/-- `generate_key_image_helper` -/
def SpendCrypto.generateKeyImageHelper (crypto : SpendCrypto) (ack : AccountKeys)
    (txPublicKey : PublicKey) (realOutputIndex : ℕ) : Option (KeyPair × KeyImage) := do
  let recvDerivation ← crypto.generateKeyDerivation txPublicKey ack.viewSecretKey
  let publicKey ← crypto.derivePublicKey recvDerivation realOutputIndex ack.address.spendPublicKey
  let secretKey := crypto.deriveSecretKey recvDerivation realOutputIndex ack.spendSecretKey
  return (⟨publicKey, secretKey⟩, crypto.generateKeyImage publicKey secretKey)

/-- Sorted by their global indexes. -/
def Api.sortByGlobalIndex (outputs : List Api.Output) : List Api.Output :=
  outputs.insertionSort fun a b ↦ a.globalIndex ≤ b.globalIndex

/-- `lower_bound` in a sorted list -/
def Api.lowerBound (outputs : List Api.Output) (globalIndex : UInt32) : ℕ :=
  (outputs.takeWhile fun o ↦ decide (o.globalIndex < globalIndex)).length

namespace TransactionBuilder

/-- An input of a ring of `mixOutputs` and the real output, which is placed by its index. -/
def addInput (crypto : SpendCrypto) (b : TransactionBuilder) (senderKeys : AccountKeys)
    (realOutput : Api.Output) (mixOutputs : List Api.Output) : Except BuildError TransactionBuilder := do
  let outputs := Api.sortByGlobalIndex mixOutputs
  let realOutputIndex := Api.lowerBound outputs realOutput.globalIndex
  let outputs := outputs.insertIdx realOutputIndex realOutput
  let q ← orFail (.runtimeError "generating key_image failed")
    (crypto.generateKeyImageHelper senderKeys realOutput.transactionPublicKey
      realOutput.indexInTransaction.toNat)
  ensure (q.2 = realOutput.keyImage) (.runtimeError "generated key_image does not match input")
  ensure (∀ out ∈ outputs, out.amount = realOutput.amount)
    (.runtimeError "Mixin outputs with different amounts is not allowed")
  let desc : InputDesc :=
    { outputs := outputs
      realOutputIndex := realOutputIndex
      ephKeys := q.1
      input := { amount := realOutput.amount
                 keyImage := q.2
                 outputIndexes := absoluteOutputOffsetsToRelative (outputs.map (·.globalIndex)) } }
  return { b with
    inputsAmount := b.inputsAmount + realOutput.amount
    inputDescs := b.inputDescs ++ [desc] }

end TransactionBuilder

/-! ## Decoys -/

namespace UnspentSelector

/-- What the node offers as decoys, by amount. -/
abbrev RandomOutputs := Table Amount (List Api.Output)

/-- Take `n` decoys off the end of a list. -/
def takeDecoys : ℕ → List Api.Output → List Api.Output → Option (List Api.Output × List Api.Output)
  | 0, mixOutputs, ours => some (mixOutputs, ours)
  | n + 1, mixOutputs, ours =>
    match ours.getLast? with
    | none => none
    | some o => takeDecoys n (mixOutputs ++ [o]) ours.dropLast

/-- `unique` from an element on: of neighbours with the same global index the first stays. -/
def uniqueFrom (o : Api.Output) : List Api.Output → List Api.Output
  | [] => [o]
  | p :: rest => if o.globalIndex = p.globalIndex then uniqueFrom o rest else o :: uniqueFrom p rest

def uniqueGlobalIndex : List Api.Output → List Api.Output
  | [] => []
  | o :: rest => uniqueFrom o rest

/-- The distance between two indexes as the machine takes it, in signed numbers of 32 bits that
wrap around. The distance of indexes that are `2 ^ 31` apart is negative. -/
def distance (a b : UInt32) : Int32 := (a.toInt32 - b.toInt32).abs

/-- The position of the first of the closest outputs, with its distance. -/
def closest (real : UInt32) : List Api.Output → ℕ → Option (ℕ × Int32) → Option (ℕ × Int32)
  | [], _, best => best
  | o :: rest, i, best =>
    let d := distance real o.globalIndex
    closest real rest (i + 1) <|
      match best with
      | none => some (i, d)
      | some (j, bestDistance) => if d < bestDistance then some (i, d) else some (j, bestDistance)

/-- The decoys for one input: `anonymity + 1` are taken, and the closest one is dropped. -/
def mixOutputs (anonymity : UInt32) (uu : Api.Output) (ours : List Api.Output) :
    Except BuildError (List Api.Output × List Api.Output) := do
  let p ← orFail (.createTransaction Api.CreateTransaction.notEnoughAnonymity
      ("Not enough anonymity for amount " ++ toString uu.amount))
    (takeDecoys (anonymity + 1).toNat [] ours)
  let mix := uniqueGlobalIndex (Api.sortByGlobalIndex p.1)
  let best ← orFail .invariantViolated (closest uu.globalIndex mix 0 none)
  return (mix.eraseIdx best.1, p.2)

/-- The keys of the address that an output was sent to. -/
def senderKeys (env : BuildEnv) (viewSecretKey : SecretKey)
    (walletRecords : Table PublicKey WalletRecord) (uu : Api.Output) :
    Except BuildError AccountKeys := do
  let address ← orFail (.jsonRpc JsonRpc.invalidParams ("Could not parse address " ++ uu.address))
    (env.parseAccountAddressString uu.address)
  let noKeys : BuildError := .jsonRpc JsonRpc.invalidParams ("No keys in wallet for address " ++ uu.address)
  let record ← orFail noKeys walletRecords[address.spendPublicKey]?
  ensure (record.spendPublicKey = address.spendPublicKey) noKeys
  return ⟨address, record.spendSecretKey, viewSecretKey⟩

/-- One turn of `add_mixed_inputs`. -/
def addMixedInput (env : BuildEnv) (viewSecretKey : SecretKey)
    (walletRecords : Table PublicKey WalletRecord) (anonymity : UInt32)
    (s : TransactionBuilder × RandomOutputs) (uu : Api.Output) :
    Except BuildError (TransactionBuilder × RandomOutputs) := do
  let p ← mixOutputs anonymity uu ((s.2[uu.amount]?).getD [])
  let keys ← senderKeys env viewSecretKey walletRecords uu
  let builder ← s.1.addInput env.crypto.toSpendCrypto keys uu p.1
  return (builder, s.2.insert uu.amount p.2)

/-- `add_mixed_inputs` -/
def addMixedInputs (env : BuildEnv) (viewSecretKey : SecretKey)
    (walletRecords : Table PublicKey WalletRecord) (builder : TransactionBuilder)
    (anonymity : UInt32) (raResponse : RandomOutputs) (usedUnspents : List Api.Output) :
    Except BuildError TransactionBuilder := do
  let s ← usedUnspents.foldlM (addMixedInput env viewSecretKey walletRecords anonymity)
    (builder, raResponse)
  return s.1

end UnspentSelector

/-! ## Signing -/

namespace TransactionBuilder

/-- The inputs and outputs in their order, which hides where they come from: by amount, and shuffled
where the amounts are equal. -/
def ordered {α : Type} (shuffle : Shuffle) (amount : α → Amount) (l : List α) : List α :=
  (shuffle.shuffle l).insertionSort fun a b ↦ amount a ≤ amount b

/-- The extra field: the nonce, then the public key. -/
def extra (b : TransactionBuilder) (txPublicKey : PublicKey) : Bytes :=
  addTransactionPublicKeyToExtra
    ((b.extraNonce.bind fun nonce ↦ addExtraNonceToTransactionExtra [] nonce).getD []) txPublicKey

def signOutput (crypto : BuildCrypto) (txSecretKey : SecretKey) (p : OutputDesc × ℕ) :
    Except BuildError TransactionOutput := do
  let key ← orFail (.runtimeError
      "output keys detected as corrupted during output key derivation")
    (crypto.derivePublicKeyFor p.1.addr txSecretKey p.2)
  return { amount := p.1.amount, target := .keyOutput ⟨key⟩ }

/-- The signatures of a ring are placed one for each of its keys. -/
def signInput (crypto : BuildCrypto) (hash : Hash) (desc : InputDesc) :
    Except BuildError (List Signature) := do
  let signatures ← orFail (.runtimeError "output keys detected as corrupted during ring signing")
    (crypto.generateRingSignature hash desc.input.keyImage (desc.outputs.map (·.publicKey))
      desc.ephKeys.secretKey desc.realOutputIndex)
  return (List.range desc.outputs.length).map signatures

/-- `sign` -/
def sign (crypto : BuildCrypto) (b : TransactionBuilder) (outputShuffle inputShuffle : Shuffle)
    (txDerivationSeed : Hash) : Except BuildError Transaction := do
  let outputDescs := ordered outputShuffle (·.amount) b.outputDescs
  let inputDescs := ordered inputShuffle (·.input.amount) b.inputDescs
  let tx : TransactionPrefix :=
    { b.transaction.toTransactionPrefix with
      inputs := inputDescs.map fun desc ↦ .keyInput desc.input }
  let txSecretKey := crypto.deterministicSecretKey tx txDerivationSeed
  let outputs ← outputDescs.zipIdx.mapM (signOutput crypto txSecretKey)
  let tx := { tx with
    extra := b.extra (crypto.secretKeyToPublicKey txSecretKey)
    outputs := outputs }
  let hash := getTransactionPrefixHash crypto.toCrypto tx
  let signatures ← inputDescs.mapM (signInput crypto hash)
  return { toTransactionPrefix := tx, signatures := signatures }

end TransactionBuilder

end CryoNero
