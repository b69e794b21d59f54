import CryoNero.Core.Redo
import CryoNero.Store.Workers

/-!
# Checking ring signatures on several threads

The main thread collects the signatures of a block and queues them while the worker threads already
take them off the queue; `signatures_valid` then waits for as many results as there were signatures.
A block can be given up at any moment, with signatures queued or half checked, and the next one be
started. Results of an earlier block are told from those of the current one by `workCounter`.

A step is what a thread does between two moments at which another thread can be seen to act: each
section under the mutex is one step, and so is what the main thread does on its own. `counted` and
`dropped` are not in the code. They record the signatures whose results were counted since the
current block was started, and those that `cancel_work` took out of the work.
-/

namespace CryoNero

open Store

/-- The block whose signatures are to be checked, and the state that they are read from. -/
structure StartCall where
  view : StateView
  block : Block
  unlockHeight : Height
  unlockTimestamp : Timestamp

/-- An input of a transaction with its place among the inputs. -/
abbrev InputOfTransaction := Transaction × TransactionInput × ℕ

/-- The inputs of a block in the order in which `start_work_get_error` meets them. -/
def StartCall.inputs (call : StartCall) : List InputOfTransaction :=
  call.block.transactions.flatMap fun transaction ↦
    transaction.inputs.zipIdx.map fun input ↦ (transaction, input)

/-- What is to be checked for an input. -/
def StartCall.arg (env : Env) (call : StartCall) (input : InputOfTransaction) :
    Except Stop (Option RingSignatureArg) :=
  ringSignatureArg env call.view call.unlockHeight call.unlockTimestamp input.1 input.2

/-- Where the main thread is. -/
inductive MainThread
  /-- Outside the ring checker, with no block started or the last start failed. -/
  | outside
  /-- In `start_work_get_error`, after its section under the mutex. -/
  | cleared (call : StartCall)
  /-- In the loop over the inputs. -/
  | filling (call : StartCall) (rest : List InputOfTransaction)
  /-- In the loop, with a signature that was added to `total_counter` and not queued yet. -/
  | pushing (call : StartCall) (arg : RingSignatureArg) (rest : List InputOfTransaction)
  /-- `start_work_get_error` has returned an empty string. -/
  | started (call : StartCall)

structure RingCheckerMulticore where
  totalCounter : ℕ := 0
  readyCounter : ℕ := 0
  errors : List String := []
  args : List RingSignatureArg := []
  workCounter : ℕ := 0
  /-- A thread that checks a signature remembers the value that `workCounter` had. -/
  threads : List (Option (ℕ × RingSignatureArg))
  main : MainThread := .outside
  counted : List RingSignatureArg := []
  dropped : List RingSignatureArg := []

namespace RingCheckerMulticore

/-- The constructor starts the threads. -/
def new (threads : ℕ) : RingCheckerMulticore := { threads := List.replicate threads none }

/-- What the main thread and the workers do. -/
inductive Action
  | startWork (call : StartCall)
  | zeroTotal
  | nextInput
  | push
  | finish
  /-- An exception leaves `start_work_get_error`. -/
  | abandon
  | cancelWork
  | take (thread : ℕ)
  | publish (thread : ℕ)

/-- Why an action is not possible: the thread is at another place, or `work_counter`, which is an
`int`, would overflow, and then the behaviour of the program is not defined. -/
inductive NotPossible
  | elsewhere
  | overflow

def maxWorkCounter : ℕ := 2 ^ 31 - 1

/-- The signatures of the current block that threads are checking. -/
def running (s : RingCheckerMulticore) : List RingSignatureArg :=
  ((heldJobs s.threads).filter fun job ↦ job.1 == s.workCounter).map (·.2)

/-- The message for a signature that is not valid. -/
def errorOf : RingResult → List String
  | .valid => []
  | .keyCorrupted => ["INPUT_CORRUPTED_SIGNATURES"]
  | .invalid => ["INPUT_INVALID_SIGNATURES"]

def check (env : Env) (arg : RingSignatureArg) : RingResult :=
  env.crypto.checkRingSignature arg.txPrefixHash arg.keyImage arg.outputKeys arg.signatures

/-- The first section of `start_work_get_error`. -/
def startWork (s : RingCheckerMulticore) (call : StartCall) :
    Except NotPossible RingCheckerMulticore :=
  if s.workCounter < maxWorkCounter then
    .ok { s with
      args := []
      errors := []
      readyCounter := 0
      workCounter := s.workCounter + 1
      main := .cleared call
      counted := []
      dropped := [] }
  else .error .overflow

def cancelWork (s : RingCheckerMulticore) : Except NotPossible RingCheckerMulticore :=
  if s.workCounter < maxWorkCounter then
    .ok { s with
      args := []
      workCounter := s.workCounter + 1
      dropped := s.dropped ++ s.running ++ s.args }
  else .error .overflow

/-- One round of the loop over the inputs, up to `args.push_back`. -/
def nextInput (env : Env) (s : RingCheckerMulticore) (call : StartCall)
    (input : InputOfTransaction) (rest : List InputOfTransaction) : RingCheckerMulticore :=
  match call.arg env input with
  | .error _ => { s with main := .outside }
  | .ok none => { s with main := .filling call rest }
  | .ok (some arg) =>
    { s with totalCounter := s.totalCounter + 1, main := .pushing call arg rest }

/-- The second section of `thread_run`. The result of an earlier block is thrown away. -/
def publish (env : Env) (s : RingCheckerMulticore) (thread localWorkCounter : ℕ)
    (arg : RingSignatureArg) : RingCheckerMulticore :=
  let s := { s with threads := s.threads.set thread none }
  if localWorkCounter = s.workCounter then
    { s with
      readyCounter := s.readyCounter + 1
      errors := s.errors ++ errorOf (check env arg)
      counted := s.counted ++ [arg] }
  else s

def step (env : Env) (s : RingCheckerMulticore) : Action → Except NotPossible RingCheckerMulticore
  | .startWork call =>
    match s.main with
    | .outside | .started _ => s.startWork call
    | _ => .error .elsewhere
  | .zeroTotal =>
    match s.main with
    | .cleared call => .ok { s with totalCounter := 0, main := .filling call call.inputs }
    | _ => .error .elsewhere
  | .nextInput =>
    match s.main with
    | .filling call (input :: rest) => .ok (s.nextInput env call input rest)
    | _ => .error .elsewhere
  | .push =>
    match s.main with
    | .pushing call arg rest => .ok { s with args := s.args ++ [arg], main := .filling call rest }
    | _ => .error .elsewhere
  | .finish =>
    match s.main with
    | .filling call [] => .ok { s with main := .started call }
    | _ => .error .elsewhere
  | .abandon =>
    match s.main with
    | .outside | .started _ => .error .elsewhere
    | _ => .ok { s with main := .outside }
  | .cancelWork =>
    match s.main with
    | .outside | .started _ => s.cancelWork
    | _ => .error .elsewhere
  | .take thread =>
    match s.threads[thread]?, s.args with
    | some none, arg :: args =>
      .ok { s with args := args, threads := s.threads.set thread (some (s.workCounter, arg)) }
    | _, _ => .error .elsewhere
  | .publish thread =>
    match s.threads[thread]? with
    | some (some (localWorkCounter, arg)) => .ok (s.publish env thread localWorkCounter arg)
    | _ => .error .elsewhere

/-- `signatures_valid`: `none` as long as it waits. -/
def signaturesValid (s : RingCheckerMulticore) : Option Bool :=
  if s.readyCounter = s.totalCounter then some s.errors.isEmpty else none

/-- Every schedule of the main thread and any number of workers. -/
abbrev Reachable (env : Env) (threads : ℕ) : RingCheckerMulticore → Prop :=
  Reaches (step env) (fun _ _ ↦ True) (· = new threads)

end RingCheckerMulticore

end CryoNero
