import CryoNero.Core.Address
import CryoNero.Core.BinaryArray
import CryoNero.Core.Mining
import CryoNero.Core.WalletTransaction

/-!
# Block templates for miners

A miner asks for a template with some bytes reserved in the coinbase transaction, which it may fill with
anything. The response says where in the bytes of the template they are: the public key of the coinbase
transaction is searched for, and a constant is added to where it is found. The search is the one of this file, which
returns 0 when nothing is found.
-/

namespace CryoNero

open Seria Store

/-! ## Searching -/

namespace LegacyApi

/-- The loop of `slow_memmem`, which gives `memchr` the length of the whole buffer in every turn. -/
def slowMemmemFrom (startBuff pat : Bytes) : ℕ → ℕ → Except Failure ℕ
  | 0, _ => .error .outOfRange
  | turns + 1, buf => do
    let c ← readAt pat 0
    match ← memchr startBuff c startBuff.length buf with
    | none => return 0
    | some buf =>
      if startBuff.length < buf + pat.length then return 0
      else if (startBuff.drop buf).take pat.length = pat then return buf
      else slowMemmemFrom startBuff pat turns (buf + 1)

def slowMemmem (startBuff pat : Bytes) : Except Failure ℕ :=
  slowMemmemFrom startBuff pat (startBuff.length + 1) 0

end LegacyApi

/-! ## The request -/

namespace Currency

def publicAddressBase58Prefix : UInt64 := 126

/-- `Currency::parse_account_address_string` -/
def parseAccountAddress (c : Crypto) (str : Bytes) : Except Failure AccountPublicAddress := do
  let p ← parseAccountAddressString c str
  ensure (p.1 = publicAddressBase58Prefix) .refused
  return p.2

end Currency

namespace Api.GetBlockTemplate

structure Request where
  reserveSize : UInt32 := 0
  walletAddress : Bytes := []

structure Response where
  difficulty : Difficulty := 0
  height : Height := 0
  reservedOffset : UInt32 := 0
  blocktemplateBlob : Bytes := []
  status : String := ""
  topBlockHash : Hash := 0
  transactionPoolVersion : UInt32 := 0
  previousBlockHash : Hash := 0
  deriving DecidableEq, Repr

end Api.GetBlockTemplate

/-- Why a request is not answered: an error of its own, or what the node or an access to memory failed
with. -/
inductive LegacyError
  | jsonRpc (code : Int) (message : String)
  | fault (f : Fault)
  | memory (f : Failure)
  deriving DecidableEq, Repr

namespace CoreRpc

def errorCodeTooBigReserveSize : Int := -3
def errorCodeWrongWalletAddress : Int := -4
def errorCodeInternalError : Int := -5
def statusOk : String := "OK"

end CoreRpc

namespace State

variable (env : Env) (s : State)

/-- Where the reserved bytes begin, from the bytes of the template and the key in it. The sum in the check
has 32 bits. -/
def findReserved (blockBlob : Bytes) (txPubKey : PublicKey) (reserveSize : UInt32) :
    Except LegacyError UInt32 :=
  if 0 < reserveSize then do
    let found ← (LegacyApi.slowMemmem blockBlob (writeHash txPubKey)).mapError .memory
    let reservedOffset := UInt32.ofNat found
    ensure (¬reservedOffset = 0) (.jsonRpc CoreRpc.errorCodeInternalError
      "Internal error: failed to create block template")
    let reservedOffset := reservedOffset + 32 + 3
    ensure (¬blockBlob.length < (reservedOffset + reserveSize).toNat)
      (.jsonRpc CoreRpc.errorCodeInternalError "Internal error: failed to create block template")
    return reservedOffset
  else .ok 0

/-- `Node::getblocktemplate`; `keys` are the key pairs that are drawn. -/
def getblocktemplate (now : Timestamp) (keys : ℕ → KeyPair) (req : Api.GetBlockTemplate.Request) :
    Except LegacyError (State × Api.GetBlockTemplate.Response) := do
  ensure (¬txExtraNonceMaxCount < req.reserveSize.toNat)
    (.jsonRpc CoreRpc.errorCodeTooBigReserveSize "To big reserved size, maximum 255")
  ensure (req.walletAddress ≠ []) (.jsonRpc CoreRpc.errorCodeWrongWalletAddress
    "Failed to parse wallet address")
  let acc ← (Currency.parseAccountAddress env.crypto req.walletAddress).mapError fun _ ↦
    .jsonRpc CoreRpc.errorCodeWrongWalletAddress "Failed to parse wallet address"
  let blobReserve := List.replicate req.reserveSize.toNat 0
  let p ← (s.createMiningBlockTemplate env now acc blobReserve keys).mapError .fault
  let template ← orFail (.jsonRpc CoreRpc.errorCodeInternalError
    "Internal error: failed to create block template") p.2
  let blockBlob ← orFail (.fault .notWritable) (writeBlockTemplate env.crypto template.1)
  let txPubKey := getTransactionPublicKeyFromExtra template.1.baseTransaction.extra
  ensure (txPubKey ≠ 0) (.jsonRpc CoreRpc.errorCodeInternalError
    "Internal error: failed to find tx pub key in coinbase extra")
  let reservedOffset ← findReserved blockBlob txPubKey req.reserveSize
  let tip ← p.1.chain.getTip.mapError .fault
  return (p.1, {
    difficulty := template.2.1
    height := template.2.2
    reservedOffset := reservedOffset
    blocktemplateBlob := blockBlob
    status := CoreRpc.statusOk
    topBlockHash := p.1.chain.tip.tipBid
    transactionPoolVersion := p.1.ledger.txPoolVersion
    previousBlockHash := tip.previousBlockHash })

end State

end CryoNero
