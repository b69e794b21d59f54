import CryoNero.Core.Mining

/-!
# Runs of a node

A node starts on an empty database with the genesis block. From there blocks and transactions come
in from peers and files, templates are handed out to miners and come back as blocks, and headers and
stack heights that are looked up in between stay in their caches. A restart keeps the database and
nothing else.

What comes in is limited (`Op.Sized`): packets of peers to 100 MB, and the blocks in a file to sizes
of 32 bits.
-/

namespace CryoNero

open Seria Store

inductive Op
  | addBlock (rawBlock : RawBlock) (context : Bool) (now : Timestamp)
  | addBlockData (blockData : Bytes) (context : Bool) (now : Timestamp)
  | addTransaction (binaryTx : Bytes)
  | createMiningBlockTemplate (now : Timestamp) (adr : AccountPublicAddress) (extraNonce : Bytes)
      (keys : ℕ → KeyPair)
  | addMinedBlock (rawBlockTemplate : Bytes) (now : Timestamp)
  | cacheHeader (bid : Hash)
  | clearHeaderCache
  | cacheNextGlobalIndex (amount : Amount)
  | restart

/-- A raw block has a size of 32 bits when it is written down. -/
def RawBlock.Sized (rawBlock : RawBlock) : Prop := (writeRawBlock rawBlock).length < 2 ^ 32

def Op.Sized (s : State) : Op → Prop
  | .addBlock rawBlock _ _ => rawBlock.Sized
  | .addBlockData blockData _ _ => blockData.length < 2 ^ 32
  | .addTransaction binaryTx => binaryTx.length < 2 ^ 32
  | .addMinedBlock rawBlockTemplate _ =>
    ∀ template transactions, fromBinary readBlockTemplate {} rawBlockTemplate = (template, true) →
      s.minedTransactions template.transactionHashes = some transactions →
      RawBlock.Sized { block := rawBlockTemplate, transactions := transactions }
  | _ => True

/-- Whether an operation is seen to be `Sized` without a look at the state. -/
def Op.isSized : Op → Bool
  | .addBlock rawBlock _ _ => decide ((writeRawBlock rawBlock).length < 2 ^ 32)
  | .addBlockData blockData _ _ => decide (blockData.length < 2 ^ 32)
  | .addTransaction binaryTx => decide (binaryTx.length < 2 ^ 32)
  | .addMinedBlock _ _ => false
  | _ => true

namespace State

variable (env : Env) (s : State)

/-- Start on an empty database. -/
def openEmpty (now : Timestamp) : Except Fault State := do
  let block ← orFail .invariantViolated
    (writeBlockTemplate env.crypto env.currency.genesisBlockTemplate)
  let pb ← PreparedBlock.ofRawBlock env false { block := block }
  let p ← ({} : State).addBlock env now pb
  ensure (p.2.1 ≠ .ban) .invariantViolated
  let chain ← p.1.chain.tipChanged
  return { p.1 with chain := chain }

/-- Start on a database that is there already: what was only in memory is gone, and the window at
the tip holds a single header. -/
def restart : Except Fault State := do
  let bid ← orFail .invariantViolated s.chain.tip.tipChain[s.chain.tip.tipHeight]?
  let header ← orFail .invariantViolated s.chain.tree.headers[bid]?
  let tip : Tip :=
    { tipChain := s.chain.tip.tipChain
      tipBid := bid
      tipCumulativeDifficulty := header.cumulativeDifficulty
      tipHeight := s.chain.tip.tipHeight
      headerTipWindow := [header] }
  let chain ← BlockChain.tipChanged { tree := s.chain.tree, tip := tip }
  return { chain := chain, ledger := { index := { s.ledger.index with nextGiForAmount := ∅ } } }

/-- A header that is in the database and not in the cache enters the cache. -/
def cacheHeader (bid : Hash) : State :=
  match s.chain.headerCache[bid]?, s.chain.tree.headers[bid]? with
  | none, some header =>
    let cache := s.chain.headerCache.insert bid header
    { s with chain := { s.chain with headerCache := cache } }
  | _, _ => s

def cacheNextGlobalIndex (amount : Amount) : State :=
  let index := s.ledger.index
  let cache := index.nextGiForAmount.insert amount (index.nextGlobalIndexForAmount amount)
  { s with ledger := { s.ledger with index := { index with nextGiForAmount := cache } } }

/-- A transaction in its binary form, as it comes from a peer or a wallet. -/
def addBinaryTransaction (binaryTx : Bytes) :
    Except Fault (State × AddTransactionResult × Height) :=
  match fromBinary readTransaction {} binaryTx with
  | (_, false) => .error .notWritable
  | (tx, true) => do
    let tid ← orFail .notWritable (getTransactionHash env.crypto tx)
    s.addTransaction env tid tx binaryTx

/-- One step of the node. A step that faults has no result: either the process has ended, or nothing
was changed. -/
def step : Op → Except Fault State
  | .addBlock rawBlock context now => do
    let pb ← PreparedBlock.ofRawBlock env context rawBlock
    let p ← s.addBlock env now pb
    return p.1
  | .addBlockData blockData context now => do
    let pb ← PreparedBlock.ofData env context blockData
    let p ← s.addBlock env now pb
    return p.1
  | .addTransaction binaryTx => do
    let p ← s.addBinaryTransaction env binaryTx
    return p.1
  | .createMiningBlockTemplate now adr extraNonce keys => do
    let p ← s.createMiningBlockTemplate env now adr extraNonce keys
    return p.1
  | .addMinedBlock rawBlockTemplate now => do
    let p ← s.addMinedBlock env now rawBlockTemplate
    return p.1
  | .cacheHeader bid => .ok (s.cacheHeader bid)
  | .clearHeaderCache => .ok s.dbCommit
  | .cacheNextGlobalIndex amount => .ok (s.cacheNextGlobalIndex amount)
  | .restart => s.restart

/-- The states in which a node can start. -/
def Initial (s : State) : Prop := ∃ now, openEmpty env now = .ok s

/-- The states of runs whose every step meets `guard`. -/
def Reachable (guard : State → Op → Prop) : State → Prop :=
  Reaches (fun s op ↦ s.step env op) (fun s op ↦ op.Sized s ∧ guard s op) (Initial env)

/-- Run a node from the start. -/
def run (now : Timestamp) (ops : List Op) : Except Fault State := do
  let s ← openEmpty env now
  ops.foldlM (fun s op ↦ s.step env op) s

/-- Whether a run succeeds and ends in a state with the property `p`. -/
def endsIn (now : Timestamp) (ops : List Op) (p : State → Bool) : Bool :=
  ops.all Op.isSized && ((run env now ops).toOption.map p).getD false

variable {env}

theorem sized_of_isSized {op : Op} (h : op.isSized = true) (s : State) : op.Sized s := by
  cases op with
  | addBlock rawBlock context now =>
    exact of_decide_eq_true (p := (writeRawBlock rawBlock).length < 2 ^ 32) h
  | addBlockData blockData context now =>
    exact of_decide_eq_true (p := blockData.length < 2 ^ 32) h
  | addTransaction binaryTx => exact of_decide_eq_true (p := binaryTx.length < 2 ^ 32) h
  | addMinedBlock rawBlockTemplate now => cases h
  | _ => trivial

private theorem reachable_of_run {now : Timestamp} {ops : List Op} {s : State}
    (hsized : ∀ op ∈ ops, op.isSized = true) (h : run env now ops = .ok s) :
    s.Reachable env fun _ _ ↦ True := by
  obtain ⟨s₀, hopen, hops⟩ := bind_eq_ok.mp h
  have hstart : s₀.Reachable env fun _ _ ↦ True := .start ⟨now, hopen⟩
  clear h hopen
  induction ops generalizing s₀ with
  | nil => rwa [← Except.ok.inj hops]
  | cons op ops ih =>
    rw [List.forall_mem_cons] at hsized
    obtain ⟨s₁, hstep, hrest⟩ := bind_eq_ok.mp hops
    exact ih hsized.2 s₁ hrest (.next hstart ⟨sized_of_isSized hsized.1 s₀, trivial⟩ hstep)

/-- A run that was carried out gives a state that can be reached. -/
theorem exists_reachable (now : Timestamp) (ops : List Op) (p : State → Bool)
    (h : endsIn env now ops p = true) :
    ∃ s : State, (s.Reachable env fun _ _ ↦ True) ∧ p s = true := by
  rw [endsIn, Bool.and_eq_true, List.all_eq_true] at h
  rcases hrun : run env now ops with f | s
  · rw [hrun] at h
    cases h.2
  · rw [hrun] at h
    exact ⟨s, reachable_of_run h.1 hrun, h.2⟩

end State

end CryoNero
