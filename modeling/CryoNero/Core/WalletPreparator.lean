import CryoNero.Core.WalletIndexes
import CryoNero.Store.Workers

/-!
# Preparing the blocks of a wallet on several threads

The blocks of a response are prepared by worker threads, each outside the mutex, while the thread that
synchronizes the wallet asks for them by height. A response can be given up at any moment, with blocks that
wait, are being prepared or are ready. A worker throws its block away when `workCounter` has moved on.

Each section under the mutex is one step. `calls`, `idle`, `taken` and `handedOut` are not in the code, and
neither is where a block comes from: they record what was started, and which blocks of which response the
workers have taken and the caller has been given.
-/

namespace CryoNero

open Store

/-- `GetRawBlock::Response`: what is prepared of a block. -/
structure RawBlockResponse where
  rawHeader : BlockTemplate := {}
  rawTransactions : List TransactionPrefix := []
  baseTransactionHash : Hash := 0

/-- The constructor of `PreparedWalletBlock`. -/
def PreparedWalletBlock.prepare (crypto : SpendCrypto) (block : RawBlockResponse)
    (viewSecretKey : SecretKey) : PreparedWalletBlock where
  timestamp := block.rawHeader.timestamp
  transactionHashes := block.rawHeader.transactionHashes
  baseTransaction := .prepare crypto block.rawHeader.baseTransaction.toTransactionPrefix viewSecretKey
  baseTransactionHash := block.baseTransactionHash
  transactions := block.rawTransactions.map fun tx ↦ .prepare crypto tx viewSecretKey

/-- `SyncBlocks::Response` -/
structure SyncWork where
  blocks : List RawBlockResponse := []
  startHeight : Height := 0

/-- What `start_work` is called with. -/
structure WorkCall where
  work : SyncWork
  viewSecretKey : SecretKey

/-- The number of a call of `start_work`, and the place of a block in its response. -/
abbrev Origin := ℕ × ℕ

/-- What a worker remembers while it prepares a block. -/
structure PreparingJob where
  localWorkCounter : ℕ
  viewSecretKey : SecretKey
  height : Height
  syncBlock : RawBlockResponse
  origin : Origin

structure WalletPreparatorMulticore where
  quit : Bool := false
  preparedBlocks : Table Height (PreparedWalletBlock × Origin) := ∅
  work : SyncWork := {}
  workCounter : ℕ := 0
  workSecretKey : SecretKey := 0
  threads : List (Option PreparingJob)
  calls : List WorkCall := []
  /-- No work was started since the last `cancel_work`. -/
  idle : Bool := true
  taken : List Origin := []
  handedOut : List Origin := []

namespace WalletPreparatorMulticore

/-- The constructor starts the threads. -/
def new (threads : ℕ) : WalletPreparatorMulticore := { threads := List.replicate threads none }

inductive Action
  | cancelWork
  | startWork (call : WorkCall)
  | getReadyWork (height : Height)
  /-- The destructor, up to where it waits for the threads. -/
  | destroy
  | take (thread : ℕ)
  | publish (thread : ℕ)

/-- Why an action is not possible: the thread waits or is at another place, or `work_counter`, which is an
`int`, would overflow, and then the behaviour of the program is not defined. -/
inductive NotPossible
  | elsewhere
  | overflow

def maxWorkCounter : ℕ := 2 ^ 31 - 1

variable (s : WalletPreparatorMulticore)

/-- The place in the latest response of the block that is taken next. -/
def nextIndex : ℕ := ((s.calls.getLast?.map (·.work.blocks.length)).getD 0) - s.work.blocks.length

def cancelWork : Except NotPossible WalletPreparatorMulticore :=
  if s.workCounter < maxWorkCounter then
    .ok { s with work := {}, preparedBlocks := ∅, workCounter := s.workCounter + 1, idle := true }
  else .error .overflow

def startWork (call : WorkCall) : Except NotPossible WalletPreparatorMulticore :=
  if s.workCounter < maxWorkCounter then
    .ok { s with
      work := call.work
      workSecretKey := call.viewSecretKey
      workCounter := s.workCounter + 1
      calls := s.calls ++ [call]
      idle := false }
  else .error .overflow

/-- `get_ready_work`, which waits as long as there is no block of the height. -/
def getReadyWork (height : Height) : Except NotPossible (WalletPreparatorMulticore × PreparedWalletBlock) :=
  match s.preparedBlocks[height]? with
  | some (result, origin) =>
    .ok ({ s with
      preparedBlocks := s.preparedBlocks.erase height, handedOut := s.handedOut ++ [origin] }, result)
  | none => .error .elsewhere

/-- The first section of `thread_run`. -/
def take (thread : ℕ) : Except NotPossible WalletPreparatorMulticore :=
  match s.quit, s.threads[thread]?, s.work.blocks with
  | false, some none, syncBlock :: blocks =>
    let origin := (s.calls.length - 1, s.nextIndex)
    let job : PreparingJob :=
      ⟨s.workCounter, s.workSecretKey, s.work.startHeight, syncBlock, origin⟩
    .ok { s with
      work := { blocks := blocks, startHeight := s.work.startHeight + 1 }
      threads := s.threads.set thread (some job)
      taken := s.taken ++ [origin] }
  | _, _, _ => .error .elsewhere

/-- The second section of `thread_run`. A block of earlier work is thrown away. -/
def publish (crypto : SpendCrypto) (thread : ℕ) : Except NotPossible WalletPreparatorMulticore :=
  match s.threads[thread]? with
  | some (some job) =>
    let s := { s with threads := s.threads.set thread none }
    if job.localWorkCounter = s.workCounter then
      let result := PreparedWalletBlock.prepare crypto job.syncBlock job.viewSecretKey
      .ok { s with preparedBlocks := s.preparedBlocks.insert job.height (result, job.origin) }
    else .ok s
  | _ => .error .elsewhere

def step (crypto : SpendCrypto) : Action → Except NotPossible WalletPreparatorMulticore
  | .cancelWork => s.cancelWork
  | .startWork call => s.startWork call
  | .getReadyWork height => (s.getReadyWork height).map Prod.fst
  | .destroy => .ok { s with quit := true }
  | .take thread => s.take thread
  | .publish thread => s.publish crypto thread

/-- Work is given up before the next is started. -/
def Disciplined : Action → Prop
  | .startWork _ => s.idle = true
  | _ => True

/-- Every schedule of any number of workers, with any calls. -/
abbrev Reachable (crypto : SpendCrypto) (threads : ℕ) : WalletPreparatorMulticore → Prop :=
  Reaches (fun s ↦ s.step crypto) (fun _ _ ↦ True) (· = new threads)

/-- Every schedule in which work is given up before the next is started. -/
abbrev DisciplinedReachable (crypto : SpendCrypto) (threads : ℕ) : WalletPreparatorMulticore → Prop :=
  Reaches (fun s ↦ s.step crypto) Disciplined (· = new threads)

end WalletPreparatorMulticore

end CryoNero
