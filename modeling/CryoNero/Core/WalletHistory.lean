import CryoNero.Core.WalletIndexes
import CryoNero.Core.TransactionBuilder

/-!
# The history of a wallet

What happened to an address is read back from the database in pages. A cursor runs along the transactions
of the address, up from one end of a range of heights or down from the other, and the page ends at the
first border between two blocks at which it has as many transactions as it was asked for. The bound that
the cursor has not reached is then moved to that border, and is where the next page begins.

With a page come the outputs that were opened in its range, and, when its range has the tip, the
transactions that are not in a block yet.
-/

namespace CryoNero

open Store

namespace Api

/-- A block with the transactions that concern a wallet. -/
structure Block where
  header : Api.BlockHeader := {}
  transactions : List Api.Transaction := []
  deriving DecidableEq, Repr

namespace GetTransfers

structure Request where
  address : String := ""
  fromHeight : Height := 0
  toHeight : Height := 0xFFFFFFFF
  forward : Bool := true
  desiredTransactionsCount : UInt32 := 0xFFFFFFFF
  deriving DecidableEq, Repr

structure Response where
  blocks : List Block := []
  unlockedTransfers : List Transfer := []
  nextFromHeight : Height := 0
  nextToHeight : Height := 0
  deriving DecidableEq, Repr

end GetTransfers

/-- What is left of a transaction for an address; nothing is left out for the empty one. -/
def Transaction.onlyOf (address : String) (tx : Transaction) : Transaction :=
  if address = "" then tx else { tx with transfers := tx.transfers.filter (·.address = address) }

end Api

/-! ## Pages -/

/-- What a page has so far, and the block that is being filled. -/
structure Paging where
  result : List Api.Block := []
  currentBlock : Api.Block := {}
  totalTransactionsFound : ℕ := 0

namespace Paging

def push (p : Paging) : Paging :=
  { p with result := p.result ++ [p.currentBlock], currentBlock := {} }

def finish (p : Paging) : List Api.Block := if p.currentBlock.transactions = [] then p.result else p.push.result

/-- A transaction comes to the block that is being filled; the first one brings the header. -/
def add (p : Paging) (header : Option Api.BlockHeader) (tx : Api.Transaction) : Paging :=
  { p with
    currentBlock :=
      { header :=
          if p.currentBlock.transactions = [] then header.getD p.currentBlock.header
          else p.currentBlock.header
        transactions := p.currentBlock.transactions ++ [tx] }
    totalTransactionsFound := p.totalTransactionsFound + 1 }

end Paging

namespace WalletDb

variable (s : WalletDb)

/-- `read_chain` -/
def readChain (height : Height) : Option Api.BlockHeader := s.headers[height]?

/-- `get_transaction`; one that is not found stays blank. -/
def getTransaction (tid : Hash) : Api.Transaction := ((s.indexes.get .transactions tid).map (·.2)).getD {}

/-- The cursor along the transactions of an address, from a height on or from it down. -/
def transfersFrom (address : String) (middle : Height) (forward : Bool) : List (Height × Hash) :=
  let keys := (((s.indexes.records .addressTransactions).toList.map fun e ↦ ofLex e.1).filter
    fun k ↦ k.1 = address).map fun k ↦ ofLex k.2
  if forward then keys.filter fun k ↦ middle ≤ k.1 else (keys.filter fun k ↦ k.1 ≤ middle).reverse

/-- The loop of `api_get_transfers`. It gives the blocks with both bounds. -/
def transfersLoop (address : String) (fromHeight toHeight : Height) (forward : Bool)
    (desiredTxCount : ℕ) : Paging → List (Height × Hash) → List Api.Block × Height × Height
  | p, [] => (p.finish, fromHeight, toHeight)
  | p, (height, tid) :: cur =>
    if forward = true ∧ toHeight < height ∨ forward = false ∧ height ≤ fromHeight then
      (p.finish, fromHeight, toHeight)
    else
      let border : Bool := p.currentBlock.header.height ≠ height ∧ p.currentBlock.transactions ≠ []
      let p := if border then p.push else p
      if border ∧ desiredTxCount ≤ p.totalTransactionsFound then
        (p.finish, if forward then fromHeight else height, if forward then height - 1 else toHeight)
      else
        transfersLoop address fromHeight toHeight forward desiredTxCount
          (p.add (s.readChain height) ((s.getTransaction tid).onlyOf address)) cur

def apiGetTransfers (address : String) (fromHeight toHeight : Height) (forward : Bool)
    (desiredTxCount : ℕ) : List Api.Block × Height × Height :=
  if toHeight ≤ fromHeight then ([], fromHeight, toHeight)
  else
    s.transfersLoop address fromHeight toHeight forward desiredTxCount {}
      (s.transfersFrom address (if forward then fromHeight + 1 else toHeight) forward)

end WalletDb

/-! ## Requests -/

namespace WalletNode

/-- Why there is no page. -/
inductive HistoryFault
  | jsonRpc (code : Int) (message : String)
  | database (f : Fault)
  /-- The history goes on after the last page that was asked for. -/
  | unfinished
  deriving DecidableEq, Repr

/-- What a request for the history looks at. -/
structure History where
  db : WalletDb
  memoryState : WalletState.DeltaState
  keys : WalletKeys

variable (env : BuildEnv) (w : History)

def checkAddressInWalletOrThrow (addr : String) : Except HistoryFault Unit :=
  if addr = "" then .ok ()
  else do
    let address ← orFail (.jsonRpc JsonRpc.invalidParams ("Failed to parse address " ++ addr))
      (env.parseAccountAddressString addr)
    ensure (w.keys.viewPublicKey = address.viewPublicKey ∧
        w.keys.walletRecords[address.spendPublicKey]? ≠ none)
      (.jsonRpc JsonRpc.invalidParams ("Cannot get balance for address not in a wallet, address " ++ addr))

/-- The transactions that are not in a block, as a block after the tip. -/
def apiGetPoolAsHistory (address : String) : Api.Block where
  header := { height := w.db.tipHeight + 1 }
  transactions := w.memoryState.transactions.toList.map fun hit ↦
    { hit.2.2 with blockHeight := w.db.tipHeight + 1 }.onlyOf address

/-- An output that was opened, as a transfer. -/
def unlockedTransfer (output : Api.Output) : Api.Transfer where
  ours := true
  amount := output.amount.toInt64
  address := output.address
  outputs := [output]

open Api.GetTransfers in
/-- `handle_get_transfers3` -/
def handleGetTransfers (request : Request) : Except HistoryFault Response := do
  checkAddressInWalletOrThrow env w request.address
  let (blocks, fromHeight, toHeight) := w.db.apiGetTransfers request.address request.fromHeight
    request.toHeight request.forward request.desiredTransactionsCount.toNat
  let poolBlock := apiGetPoolAsHistory w request.address
  let blocks :=
    if (fromHeight < w.db.tipHeight ∧ w.db.tipHeight ≤ toHeight) ∧ poolBlock.transactions ≠ [] then
      if request.forward then blocks ++ [poolBlock] else poolBlock :: blocks
    else blocks
  let unlockedOutputs ← Except.mapError .database
    (w.db.indexes.apiGetUnlockedOutputs request.address fromHeight toHeight)
  return {
    blocks := blocks
    unlockedTransfers := unlockedOutputs.toList.map fun lou ↦ unlockedTransfer lou.2
    nextFromHeight := if request.forward then toHeight else request.fromHeight
    nextToHeight := if request.forward then request.toHeight else fromHeight }

open Api.GetTransfers in
/-- A response gives the request for the next page. -/
def nextRequest (request : Request) (response : Response) : Request :=
  if request.forward then { request with fromHeight := response.nextFromHeight }
  else { request with toHeight := response.nextToHeight }

open Api.GetTransfers in
/-- A client asks for page after page until nothing is left of the range. -/
def getAllTransfers : ℕ → Request → Except HistoryFault (List Response)
  | 0, _ => .error .unfinished
  | pages + 1, request => do
    let response ← handleGetTransfers env w request
    let next := nextRequest request response
    if next.toHeight ≤ next.fromHeight then return [response]
    else do
      let responses ← getAllTransfers pages next
      return response :: responses

end WalletNode

end CryoNero
