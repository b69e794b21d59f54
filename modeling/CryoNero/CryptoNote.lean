import CryoNero.Seria.Containers

/-!
# The data of the chain

Blocks and transactions as the node holds them after reading. A hash, a key and a key image are the
32 bytes they consist of; the first byte is the highest, so that their order as numbers is the order
of `memcmp`, which is the order of every map keyed by them.

The primitives of elliptic-curve cryptography and the hash functions are a parameter, `Crypto`.
Nothing is assumed about them here.
-/

namespace CryoNero

open Seria

abbrev Hash := BitVec 256
abbrev PublicKey := BitVec 256
abbrev SecretKey := BitVec 256
abbrev KeyDerivation := BitVec 256
abbrev KeyImage := BitVec 256
abbrev Signature := BitVec 512
abbrev Height := UInt32
abbrev Difficulty := UInt64
abbrev Amount := UInt64
abbrev Timestamp := UInt32
abbrev UnlockMoment := UInt64

/-! The keys of the maps of the node and of the wallet are totally ordered. -/

instance transOrdHash : Std.TransOrd Hash := inferInstance
instance transOrdNumbers : Std.TransOrd (Amount ×ₗ UInt32) := inferInstance
instance transOrdAddressKeys : Std.TransOrd (PublicKey ×ₗ PublicKey) := inferInstance
instance transOrdTips : Std.TransOrd (Difficulty ×ₗ Hash) := inferInstance
instance transOrdTimestamps : Std.TransOrd (Timestamp ×ₗ Height) := inferInstance

structure CoinbaseInput where
  blockIndex : Height := 0
  deriving DecidableEq, Repr

/-- An input that spends one of the outputs of a ring. The first of `outputIndexes` is a global
index for `amount`, the others are the distances from the one before. -/
structure KeyInput where
  amount : Amount := 0
  outputIndexes : List UInt32 := []
  keyImage : KeyImage := 0
  deriving DecidableEq, Repr

inductive TransactionInput
  | coinbaseInput (input : CoinbaseInput)
  | keyInput (input : KeyInput)
  deriving DecidableEq, Repr

structure KeyOutput where
  key : PublicKey := 0
  deriving DecidableEq, Repr

/-- The target of an output is a variant with a single alternative. -/
inductive TransactionOutputTarget
  | keyOutput (output : KeyOutput)
  deriving DecidableEq, Repr

structure TransactionOutput where
  amount : Amount := 0
  target : TransactionOutputTarget := .keyOutput {}
  deriving DecidableEq, Repr

structure TransactionPrefix where
  version : UInt8 := 0
  unlockTime : UnlockMoment := 0
  inputs : List TransactionInput := []
  outputs : List TransactionOutput := []
  extra : Bytes := []
  deriving DecidableEq, Repr

/-- A transaction with one vector of signatures for each of its inputs. -/
structure Transaction extends TransactionPrefix where
  signatures : List (List Signature) := []
  deriving DecidableEq, Repr

/-- The coinbase transaction of a parent block, which carries no signatures. -/
structure BaseTransaction extends TransactionPrefix
  deriving DecidableEq, Repr

structure ParentBlock where
  majorVersion : UInt8 := 0
  minorVersion : UInt8 := 0
  previousBlockHash : Hash := 0
  transactionCount : UInt16 := 0
  baseTransactionBranch : List Hash := []
  baseTransaction : BaseTransaction := {}
  blockchainBranch : List Hash := []
  deriving DecidableEq, Repr

structure BlockHeader where
  majorVersion : UInt8 := 0
  minorVersion : UInt8 := 0
  nonce : UInt32 := 0
  timestamp : Timestamp := 0
  previousBlockHash : Hash := 0
  deriving DecidableEq, Repr

structure BlockTemplate extends BlockHeader where
  parentBlock : ParentBlock := {}
  baseTransaction : Transaction := {}
  transactionHashes : List Hash := []
  deriving DecidableEq, Repr

structure AccountPublicAddress where
  spendPublicKey : PublicKey
  viewPublicKey : PublicKey
  deriving DecidableEq, Repr

structure KeyPair where
  publicKey : PublicKey
  secretKey : SecretKey

/-- A block as it travels between nodes: the header with the coinbase transaction, and the other
transactions, each still in its binary form. -/
structure RawBlock where
  block : Bytes := []
  transactions : List Bytes := []
  deriving DecidableEq, Repr

structure Block where
  header : BlockTemplate := {}
  transactions : List Transaction := []
  deriving DecidableEq, Repr

namespace Api

/-- What the node computes and stores about a block. -/
structure BlockHeader where
  majorVersion : UInt8 := 0
  minorVersion : UInt8 := 0
  timestamp : Timestamp := 0
  previousBlockHash : Hash := 0
  nonce : UInt32 := 0
  height : Height := 0
  hash : Hash := 0
  reward : Amount := 0
  cumulativeDifficulty : Difficulty := 0
  difficulty : Difficulty := 0
  baseReward : Amount := 0
  blockSize : UInt32 := 0
  transactionsCumulativeSize : UInt32 := 0
  alreadyGeneratedCoins : Amount := 0
  alreadyGeneratedTransactions : UInt64 := 0
  sizeMedian : UInt32 := 0
  effectiveSizeMedian : UInt32 := 0
  timestampMedian : Timestamp := 0
  totalFeeAmount : Amount := 0
  deriving DecidableEq, Repr

end Api

/-- The outcomes of `check_ring_signature`; a ring with a corrupted public key is reported apart. -/
inductive RingResult
  | valid
  | invalid
  | keyCorrupted
  deriving DecidableEq, Repr

/-- The cryptographic primitives of the node. -/
structure Crypto where
  cnFastHash : Bytes → Hash
  cnSlowHash : Bytes → Hash
  cnLiteSlowHashV1 : Bytes → Hash
  keyIsvalid : PublicKey → Bool
  checkRingSignature : Hash → KeyImage → List PublicKey → List Signature → RingResult
  generateKeyDerivation : PublicKey → SecretKey → Option KeyDerivation
  derivePublicKey : KeyDerivation → ℕ → PublicKey → Option PublicKey

/-- Primitives that accept everything. The hash of an array is what it ends in. -/
def Crypto.lax : Crypto where
  cnFastHash b := blobOfBytes 256 (b.drop (b.length - 32))
  cnSlowHash _ := 0
  cnLiteSlowHashV1 _ := 0
  keyIsvalid _ := true
  checkRingSignature _ _ _ _ := .valid
  generateKeyDerivation _ _ := some 0
  derivePublicKey _ _ _ := some 0

/-- The key inputs among the inputs of a transaction, in their order. -/
def TransactionPrefix.keyInputs (tx : TransactionPrefix) : List KeyInput :=
  tx.inputs.filterMap fun
    | .coinbaseInput _ => none
    | .keyInput input => some input

end CryoNero
