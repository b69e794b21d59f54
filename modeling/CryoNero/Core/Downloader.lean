import CryoNero.Core.BlockChain
import CryoNero.P2p.Messages
import CryoNero.Store.Workers

/-!
# The downloader

The node asks one of its clients for the hashes of the next blocks, and downloads the blocks from
all clients at once. Every block on its way has a cell in `downloadChain`. A block that has arrived
is prepared by a worker thread, which puts the result into `preparedBlocks` under the hash of the
block; `onIdle` hands the results to the cells that wait for them and adds the blocks at the front
to the block chain.

The handlers disconnect clients that are too slow, and `disconnect` calls `onDisconnect`, which
calls `advanceDownload` again. So a handler takes as a parameter how a client is disconnected, and
`disconnect` ties the knot, with a bound on how deep the calls may be nested.

The threads and the handlers share `work` and `preparedBlocks` only, and a handler that reads
`preparedBlocks` does so in one section under the mutex before anything else. A step of a thread
can therefore be placed between two handlers.
-/

namespace CryoNero

open Store Seria P2p

inductive DownloadStatus
  | downloading
  | downloaded
  | preparing
  | prepared
  deriving DecidableEq, Repr

/-- A block that is to be downloaded. Times are in milliseconds. -/
structure DownloadCell (κ : Type) where
  bid : Hash
  expectedHeight : Height := 0
  bidSource : NetworkAddress := {}
  blockSource : NetworkAddress := {}
  downloadingClient : Option κ := none
  requestTime : ℕ := 0
  rb : RawBlock := {}
  status : DownloadStatus := .downloading
  protectFromDisconnect : Bool := false
  /-- The prepared block, once the cell has it. -/
  pb : Option PreparedBlock := none

/-- A block to be prepared, and whether the proof of work is to be computed as well. -/
structure DownloadWork where
  bid : Hash
  context : Bool
  rb : RawBlock

/-- What the downloader does to the rest of the node. -/
inductive DownloadEffect (κ : Type)
  | requestChain (who : κ) (blockIds : List Hash)
  | requestObjects (who : κ) (bid : Hash)
  | delayConnectionAttempt (address : NetworkAddress) (now : Timestamp)
  | disconnect (who : κ)
  | addBlock (pb : Option PreparedBlock) (source : NetworkAddress)
  | broadcastTip (tipHeight : Height) (tipBid : Hash)
  | syncTransactions (who : κ)

/-- What `add_block` returns, and the tip after it. -/
structure BlockAdded where
  action : BroadcastAction
  tipHeight : Height
  tipBid : Hash

/-- What a handler finds around the downloader. The readings of the clock and the random numbers are
numbered, and so are the blocks that are added. -/
structure Surroundings (κ : Type) where
  blockChainReader1 : Bool
  blockChainReader2 : Bool
  tipHeight : Height
  internalImportKnownHeight : Height
  hasBlock : Hash → Bool
  readHeader : Hash → Bool
  sparseChain : List Hash
  lastReceivedSyncData : κ → CoreSyncData
  version : κ → ℕ
  address : κ → NetworkAddress
  p2pDefaultConnectionsCount : ℕ
  localTime : Timestamp
  clock : ℕ → ℕ
  rand : ℕ → ℕ
  addBlock : ℕ → BlockAdded

/-- Whether the node still imports blocks from a file. -/
def Surroundings.importing {κ : Type} (w : Surroundings κ) : Bool :=
  w.blockChainReader1 || w.blockChainReader2 || w.tipHeight < w.internalImportKnownHeight

inductive DownloadFault
  /-- A call of `invariant` failed. -/
  | invariant (message : String)
  /-- `disconnect` was nested too deep. -/
  | depth
  /-- The thread has nothing to do. -/
  | elsewhere
  /-- An exception left a thread. -/
  | thrown
  deriving DecidableEq, Repr

structure DownloaderV11 (κ : Type) [Ord κ] where
  goodClients : Table κ ℕ := ∅
  totalDownloadingBlocks : ℕ := 0
  whoDownloadedBlock : List κ := []
  chainClient : Option κ := none
  chainRequestSent : Bool := false
  downloadChain : List (DownloadCell κ) := []
  chainStartHeight : Height := 0
  chain : List Hash := []
  chainSource : NetworkAddress := {}
  threads : List (Option DownloadWork)
  preparedBlocks : Table Hash PreparedBlock := ∅
  work : List DownloadWork := []
  /-- How often the clock was read and a random number was drawn. -/
  readings : ℕ := 0
  /-- The last effect first. -/
  effects : List (DownloadEffect κ) := []

namespace DownloaderV11

def syncTimeout : ℕ := 20
def goodLag : ℕ := 5
def totalDownloadBlocks : ℕ := 400
def totalDownloadWindow : ℕ := 2000

variable {κ : Type} [Ord κ] [Std.TransOrd κ] [DecidableEq κ]

/-- The constructor starts the threads. -/
def new (hardwareConcurrency : ℕ) : DownloaderV11 κ :=
  { threads := List.replicate (max 2 (hardwareConcurrency / 2)) none }

/-! ## Single downloads -/

/-- Ask a client for the block of a cell. -/
def startDownload (w : Surroundings κ) (d : DownloaderV11 κ) (dc : DownloadCell κ) (who : κ) :
    DownloaderV11 κ × DownloadCell κ :=
  ({ d with
      goodClients := d.goodClients.insert who ((d.goodClients[who]?).getD 0 + 1)
      totalDownloadingBlocks := d.totalDownloadingBlocks + 1
      readings := d.readings + 1
      effects := .requestObjects who dc.bid :: d.effects },
    { dc with
      downloadingClient := some who
      blockSource := w.address who
      requestTime := w.clock d.readings })

/-- The message of the call of `invariant` in `stop_download`. -/
def clientNotFound : String := "DownloadCell reference to good client not found"

def stopDownload (d : DownloaderV11 κ) (dc : DownloadCell κ) (success : Bool) :
    Except DownloadFault (DownloaderV11 κ × DownloadCell κ) :=
  match dc.status, dc.downloadingClient with
  | .downloading, some client =>
    match d.goodClients[client]? with
    | some (count + 1) =>
      if d.totalDownloadingBlocks ≠ 0 then
        .ok ({ d with
            goodClients := d.goodClients.insert client count
            totalDownloadingBlocks := d.totalDownloadingBlocks - 1
            whoDownloadedBlock :=
              if success then d.whoDownloadedBlock ++ [client] else d.whoDownloadedBlock },
          { dc with
            status := if success then .downloaded else dc.status
            downloadingClient := none })
      else .error (.invariant clientNotFound)
    | _ => .error (.invariant clientNotFound)
  | _, _ => .ok (d, dc)

/-- Stop the downloads of the last `n` cells and give the cells up. -/
def cleanChain : ℕ → DownloaderV11 κ → Except DownloadFault (DownloaderV11 κ)
  | 0, d => .ok d
  | n + 1, d =>
    match d.downloadChain.getLast? with
    | none => .ok d
    | some dc => do
      let (d, _) ← d.stopDownload dc false
      cleanChain n { d with downloadChain := d.downloadChain.dropLast }

/-! ## Loops over the cells -/

/-- How a loop over the cells goes on after a cell. -/
inductive Flow
  | next
  | leave
  /-- The cell and all behind it were given up. -/
  | cleaned
  deriving DecidableEq

/-- Look at the next `n` cells from the position `i` on. -/
def forCells
    (body : DownloaderV11 κ → ℕ → DownloadCell κ → Except DownloadFault (DownloaderV11 κ × Flow)) :
    ℕ → ℕ → DownloaderV11 κ → Except DownloadFault (DownloaderV11 κ × Flow)
  | 0, _, d => .ok (d, .next)
  | n + 1, i, d =>
    match d.downloadChain[i]? with
    | none => .ok (d, .next)
    | some dc => do
      let r ← body d i dc
      if r.2 = .next then forCells body n (i + 1) r.1 else .ok r

def forAllCells
    (body : DownloaderV11 κ → ℕ → DownloadCell κ → Except DownloadFault (DownloaderV11 κ × Flow))
    (d : DownloaderV11 κ) : Except DownloadFault (DownloaderV11 κ × Flow) :=
  forCells body d.downloadChain.length 0 d

/-- There is no client to download the cell `i` from. -/
def cannotDownload (d : DownloaderV11 κ) (i : ℕ) :
    Except DownloadFault (DownloaderV11 κ × Flow) := do
  let d ← cleanChain (d.downloadChain.length - i) d
  .ok ({ d with chain := [] }, .cleaned)

/-! ## Advancing -/

/-- Make cells for the hashes of `chain` as long as there is room. -/
def fillWindow : ℕ → DownloaderV11 κ → DownloaderV11 κ
  | 0, d => d
  | n + 1, d =>
    match d.chain with
    | [] => d
    | bid :: chain =>
      if d.downloadChain.length < totalDownloadWindow then
        fillWindow n { d with
          downloadChain := d.downloadChain ++
            [{ bid := bid, expectedHeight := d.chainStartHeight, bidSource := d.chainSource }]
          chain := chain
          chainStartHeight := d.chainStartHeight + 1 }
      else d

/-- The client for the next download: the one with the fewest downloads for its speed. -/
def readyClient (w : Surroundings κ) (d : DownloaderV11 κ) (expectedHeight : Height) : Option κ :=
  (d.goodClients.toList.foldl (fun (ready : Option κ × ℕ × ℕ) who ↦
    let speed := max 1 (min (totalDownloadBlocks / 4) (d.whoDownloadedBlock.count who.1))
    if who.2 * ready.2.2 % 2 ^ 64 < ready.2.1 * speed % 2 ^ 64 ∧
        expectedHeight ≤ (w.lastReceivedSyncData who.1).currentHeight then
      (some who.1, who.2, speed)
    else ready) (none, 2 ^ 64 - 1, 1)).1

/-- Find a client for a cell that waits for one. -/
def assignCell (w : Surroundings κ) (d : DownloaderV11 κ) (i : ℕ) (dit : DownloadCell κ) :
    Except DownloadFault (DownloaderV11 κ × Flow) :=
  if dit.status ≠ .downloading ∨ dit.downloadingClient.isSome then .ok (d, .next)
  else if totalDownloadBlocks ≤ d.totalDownloadingBlocks then .ok (d, .leave)
  else
    match (readyClient w d dit.expectedHeight).or d.chainClient with
    | none => d.cannotDownload i
    | some who =>
      let p := d.startDownload w dit who
      .ok ({ p.1 with downloadChain := p.1.downloadChain.set i p.2 }, .next)

section Nested

/- How a client is disconnected. -/
variable (disconnect : κ → DownloaderV11 κ → Except DownloadFault (DownloaderV11 κ))
variable (w : Surroundings κ)

/-- Ask a client for the next part of the chain. -/
def advanceChain (d : DownloaderV11 κ) : Except DownloadFault (DownloaderV11 κ) :=
  if d.chain ≠ [] ∨ d.downloadChain.length ≠ 0 ∨ d.chainRequestSent then .ok d
  else
    let d := { d with chainClient := none }
    let clients := d.goodClients.toList.map (·.1)
    let laggingClients := clients.filter fun who ↦
      (w.lastReceivedSyncData who).currentHeight.toNat + goodLag < w.tipHeight.toNat
    let worthClients := clients.filter fun who ↦ !w.readHeader (w.lastReceivedSyncData who).topId
    if w.p2pDefaultConnectionsCount / 4 < laggingClients.length then
      match laggingClients.head? with
      | none => .ok d
      | some who =>
        disconnect who { d with
          effects := .delayConnectionAttempt (w.address who) w.localTime :: d.effects }
    else
      match worthClients[w.rand d.readings % worthClients.length]? with
      | none => .ok d
      | some who =>
        .ok { d with
          chainClient := some who
          chainRequestSent := true
          readings := d.readings + 1
          effects := .requestChain who w.sparseChain :: d.effects }

/-- The client of the first cell, when it holds up everybody else. -/
def slacker (ideaNow : ℕ) (d : DownloaderV11 κ) : Option κ :=
  match d.downloadChain with
  | [] => none
  | front :: _ =>
    if front.status = .downloading ∧ front.protectFromDisconnect = false ∧
        (2 * syncTimeout < (ideaNow - front.requestTime) / 1000 ∨
          d.totalDownloadingBlocks < totalDownloadBlocks ∧
          totalDownloadWindow ≤ d.downloadChain.length ∧ 1 < d.goodClients.size) then
      front.downloadingClient
    else none

/-- The downloads of a client are not held against those who are to take them over. -/
def protect (who : κ) (dc : DownloadCell κ) : DownloadCell κ :=
  if dc.downloadingClient = some who then { dc with protectFromDisconnect := true } else dc

def advanceDownload (d : DownloaderV11 κ) : Except DownloadFault (DownloaderV11 κ) :=
  if w.importing then .ok d
  else do
    let d ← advanceChain disconnect w (fillWindow d.chain.length d)
    let d := { d with
      whoDownloadedBlock :=
        d.whoDownloadedBlock.drop (d.whoDownloadedBlock.length - totalDownloadBlocks) }
    let ideaNow := w.clock d.readings
    let (d, flow) ← forAllCells (assignCell w) { d with readings := d.readings + 1 }
    if flow = .cleaned then advanceChain disconnect w d
    else
      match d.slacker ideaNow with
      | none => .ok d
      | some who =>
        disconnect who { d with
          downloadChain := d.downloadChain.map (protect who)
          effects := .delayConnectionAttempt (w.address who) w.localTime :: d.effects }

/-- Forget a client. -/
def release (who : κ) (d : DownloaderV11 κ) : DownloaderV11 κ :=
  { d with
    goodClients := d.goodClients.erase who
    totalDownloadingBlocks := d.totalDownloadingBlocks - (d.goodClients[who]?).getD 0
    whoDownloadedBlock := d.whoDownloadedBlock.filter (· ≠ who)
    downloadChain := d.downloadChain.map fun dc ↦
      if dc.status = .downloading ∧ dc.downloadingClient = some who then
        { dc with downloadingClient := none }
      else dc
    chainClient := if d.chainClient = some who then none else d.chainClient
    chainRequestSent := if d.chainClient = some who then false else d.chainRequestSent }

variable (incoming : κ → Bool)

def onDisconnect (who : κ) (d : DownloaderV11 κ) : Except DownloadFault (DownloaderV11 κ) :=
  if incoming who then .ok d
  else if (d.goodClients[who]?).getD 0 ≤ d.totalDownloadingBlocks then
    advanceDownload disconnect w (d.release who)
  else .error (.invariant "total_downloading_blocks mismatch in disconnect")

end Nested

/-! ## The handlers -/

section Handlers

variable (incoming : κ → Bool) (w : Surroundings κ)

/-- `P2PClient::disconnect`, as far as the downloader is concerned. -/
def disconnect : ℕ → κ → DownloaderV11 κ → Except DownloadFault (DownloaderV11 κ)
  | 0, _, _ => .error .depth
  | n + 1, who, d =>
    onDisconnect (disconnect n) w incoming who { d with effects := .disconnect who :: d.effects }

/-- Disconnect a client from a handler. The calls that this leads to get a bound on their depth. -/
def drop (who : κ) (d : DownloaderV11 κ) : Except DownloadFault (DownloaderV11 κ) :=
  disconnect incoming w (d.goodClients.size + 1) who d

def advance (d : DownloaderV11 κ) : Except DownloadFault (DownloaderV11 κ) :=
  advanceDownload (disconnect incoming w (d.goodClients.size + 1)) w d

def onConnect (who : κ) (d : DownloaderV11 κ) : Except DownloadFault (DownloaderV11 κ) :=
  if incoming who then .ok d
  else if w.version who = 1 then
    let effects :=
      if (w.lastReceivedSyncData who).currentHeight = w.tipHeight then
        .syncTransactions who :: d.effects
      else d.effects
    advance incoming w { d with
      goodClients := d.goodClients.insertIfNew who 0
      effects := effects }
  else .ok d

def onChainTimer (d : DownloaderV11 κ) : Except DownloadFault (DownloaderV11 κ) :=
  match d.chainClient with
  | some who => d.drop incoming w who
  | none => .ok d

def onDownloadTimer (d : DownloaderV11 κ) : Except DownloadFault (DownloaderV11 κ) :=
  let ideaNow := w.clock d.readings
  let d := { d with readings := d.readings + 1 }
  match d.downloadChain with
  | [] => .ok d
  | front :: _ =>
    match front.downloadingClient with
    | none => .ok d
    | some who =>
      if front.status = .downloading ∧ front.protectFromDisconnect = true ∧
          syncTimeout < (ideaNow - front.requestTime) / 1000 then
        drop incoming w who { d with
          effects := .delayConnectionAttempt (w.address who) w.localTime :: d.effects }
      else .ok d

def onMsgNotifyRequestChain (who : κ) (req : NotifyResponseChainEntry.Request)
    (d : DownloaderV11 κ) : Except DownloadFault (DownloaderV11 κ) :=
  if d.chainClient ≠ some who ∨ d.chainRequestSent = false then .ok d
  else do
    let known := fun bid ↦ w.hasBlock bid || (d.downloadChain.map (·.bid)).contains bid
    let d := { d with
      chainRequestSent := false
      chainStartHeight := req.startHeight + UInt32.ofNat (req.blockIds.takeWhile known).length
      chainSource := w.address who
      chain := req.blockIds.dropWhile known }
    let d ←
      if req.blockIds = [] then
        drop incoming w who { d with
          effects := .delayConnectionAttempt (w.address who) w.localTime :: d.effects }
      else .ok d
    d.advance incoming w

/-- The hash of a block that was returned, `none` when it does not parse. -/
def returnedHash (env : Env) (rb : RawBlockLegacy) : Option Hash :=
  match fromBinary readBlockTemplate {} rb.block with
  | (bheader, true) => getBlockHash env.crypto bheader
  | (_, false) => none

/-- Give the block to a cell that waits for it, and queue the work on it. -/
def acceptCell (env : Env) (who : κ) (bid : Hash) (rb : RawBlockLegacy) (d : DownloaderV11 κ) (i : ℕ)
    (dc : DownloadCell κ) : Except DownloadFault (DownloaderV11 κ × Flow) :=
  if dc.status ≠ .downloading ∨ dc.downloadingClient ≠ some who ∨ dc.bid ≠ bid then .ok (d, .next)
  else do
    let (d, dc) ← d.stopDownload dc true
    -- `add_work` takes the raw block out of the cell
    .ok ({ d with
      downloadChain := d.downloadChain.set i { dc with rb := {}, status := .preparing }
      work := d.work ++ [{
        bid := dc.bid
        context := !env.currency.isInSwCheckpointZone dc.expectedHeight
        rb := { block := rb.block, transactions := rb.transactions } }] }, .leave)

/-- Take the blocks of a response one after the other. -/
def acceptBlocks (env : Env) (who : κ) :
    List RawBlockLegacy → DownloaderV11 κ → Except DownloadFault (DownloaderV11 κ)
  | [], d => .ok d
  | rb :: blocks, d =>
    match returnedHash env rb with
    | none => d.drop incoming w who
    | some bid => do
      let (d, _) ← forAllCells (acceptCell env who bid rb) d
      acceptBlocks env who blocks d

/-- Download a block that the client does not have from the client that knows the chain. -/
def missedCell (who : κ) (bid : Hash) (d : DownloaderV11 κ) (i : ℕ) (dit : DownloadCell κ) :
    Except DownloadFault (DownloaderV11 κ × Flow) :=
  if dit.status ≠ .downloading ∨ dit.downloadingClient ≠ some who ∨ dit.bid ≠ bid then
    .ok (d, .next)
  else do
    let (d, dit) ← d.stopDownload dit false
    let d := { d with downloadChain := d.downloadChain.set i dit }
    match d.chainClient with
    | none => d.cannotDownload i
    | some client =>
      if client = who then d.cannotDownload i
      else
        let p := d.startDownload w dit client
        .ok ({ p.1 with downloadChain := p.1.downloadChain.set i p.2 }, .next)

def missedBlocks (who : κ) :
    List Hash → DownloaderV11 κ → Except DownloadFault (DownloaderV11 κ)
  | [], d => .ok d
  | bid :: missedIds, d => do
    let (d, flow) ← forAllCells (missedCell w who bid) d
    if flow = .cleaned then .ok d else missedBlocks who missedIds d

def onMsgNotifyRequestObjects (env : Env) (who : κ) (req : NotifyResponseGetObjects.Request)
    (d : DownloaderV11 κ) : Except DownloadFault (DownloaderV11 κ) := do
  let d ← acceptBlocks incoming w env who req.blocks d
  let d ← missedBlocks w who req.missedIds d
  d.advance incoming w

/-- Hand a result to the first cell that waits for it. -/
def handOver : List (DownloadCell κ) → Hash × PreparedBlock → List (DownloadCell κ)
  | [], _ => []
  | dc :: cells, pb =>
    if dc.status = .preparing ∧ dc.bid = pb.1 then
      { dc with pb := some pb.2, status := .prepared } :: cells
    else dc :: handOver cells pb

/-- The section of `on_idle` under the mutex. -/
def collect (d : DownloaderV11 κ) : DownloaderV11 κ :=
  { d with
    downloadChain := d.preparedBlocks.toList.foldl handOver d.downloadChain
    preparedBlocks := ∅ }

/-- Add the prepared blocks at the front for as long as there is time, and count them. -/
def addPrepared (ideaStart : ℕ) : List (DownloadCell κ) → ℕ → DownloaderV11 κ → DownloaderV11 κ × ℕ
  | [], addedCounter, d => (d, addedCounter)
  | dc :: cells, addedCounter, d =>
    if dc.status = .prepared then
      let added := w.addBlock addedCounter
      let effects := .addBlock dc.pb dc.blockSource :: d.effects
      let ideaMs := w.clock d.readings - ideaStart
      let d := { d with
        downloadChain := cells
        readings := d.readings + 1
        effects :=
          if added.action = .broadcastAll ∧ cells.length = 0 then
            .broadcastTip added.tipHeight added.tipBid :: effects
          else effects }
      if 100 < ideaMs then (d, addedCounter + 1) else addPrepared ideaStart cells (addedCounter + 1) d
    else (d, addedCounter)

/-- The first good client that has our height, when everything is downloaded. -/
def syncTarget (d : DownloaderV11 κ) : Option κ :=
  if d.downloadChain.length = 0 then
    (d.goodClients.toList.map (·.1)).find? fun who ↦
      (w.lastReceivedSyncData who).currentHeight = w.tipHeight
  else none

/-- What `on_idle` does when it has added blocks. -/
def afterAdding (addedCounter : ℕ) (d : DownloaderV11 κ) :
    Except DownloadFault (DownloaderV11 κ) :=
  if addedCounter = 0 then .ok d
  else do
    let d ← d.advance incoming w
    match d.syncTarget w with
    | none => .ok d
    | some who => .ok { d with effects := .syncTransactions who :: d.effects }

/-- Also tells whether a prepared block is left at the front. -/
def onIdle (d : DownloaderV11 κ) : Except DownloadFault (DownloaderV11 κ × Bool) := do
  let d := d.collect
  let ideaStart := w.clock d.readings
  let d := { d with readings := d.readings + 1 }
  let p := addPrepared w ideaStart d.downloadChain 0 d
  let d ← p.1.afterAdding incoming w p.2
  return (d, d.downloadChain.head?.any (·.status = .prepared))

end Handlers

/-! ## Steps -/

/-- The calls of the main thread. A timer may fire at any time, and any client may be
disconnected. -/
inductive Call (κ : Type)
  | connect (who : κ)
  | disconnect (who : κ)
  | chainTimer
  | downloadTimer
  | chain (who : κ) (req : NotifyResponseChainEntry.Request)
  | objects (who : κ) (req : NotifyResponseGetObjects.Request)
  | idle
  /-- The node calls `advance_download` itself, after an import and when a client reports a new
  tip. -/
  | advance

inductive Action (κ : Type)
  | call (w : Surroundings κ) (call : Call κ)
  | take (thread : ℕ)
  | publish (thread : ℕ)

variable (env : Env) (incoming : κ → Bool)

def handle (w : Surroundings κ) (d : DownloaderV11 κ) :
    Call κ → Except DownloadFault (DownloaderV11 κ)
  | .connect who => onConnect incoming w who d
  | .disconnect who => drop incoming w who d
  | .chainTimer => onChainTimer incoming w d
  | .downloadTimer => onDownloadTimer incoming w d
  | .chain who req => onMsgNotifyRequestChain incoming w who req d
  | .objects who req => onMsgNotifyRequestObjects incoming w env who req d
  | .idle => do
    let (d, _) ← onIdle incoming w d
    return d
  | .advance => advance incoming w d

/-- A handler of the main thread, or one of the two sections of `thread_run` under the mutex. -/
def step (d : DownloaderV11 κ) : Action κ → Except DownloadFault (DownloaderV11 κ)
  | .call w call => handle env incoming w d call
  | .take thread =>
    match d.threads[thread]?, d.work with
    | some none, wo :: work =>
      .ok { d with work := work, threads := d.threads.set thread (some wo) }
    | _, _ => .error .elsewhere
  | .publish thread =>
    match d.threads[thread]? with
    | some (some wo) =>
      match PreparedBlock.ofRawBlock env wo.context wo.rb with
      | .ok result =>
        .ok { d with
          threads := d.threads.set thread none
          preparedBlocks := d.preparedBlocks.insert wo.bid result }
      | .error _ => .error .thrown
    | _ => .error .elsewhere

/-- Every order of calls and of steps of the threads, with anything around them. -/
abbrev Reachable (hardwareConcurrency : ℕ) : DownloaderV11 κ → Prop :=
  Reaches (step env incoming) (fun _ _ ↦ True) (· = new hardwareConcurrency)

end DownloaderV11

end CryoNero
