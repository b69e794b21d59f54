import CryoNero.Core.Node

/-!
# Pruning

A tip that is not the tip of the main chain can be deleted from the tree, with its header. The header
is looked up on the way, and what is looked up stays in the cache.

A node that prunes does so between its other steps.
-/

namespace CryoNero

open Seria Store

namespace BlockChain

variable (env : Env) (bc : BlockChain)

/-- `read_header` with what it does to the cache: a header from the database is kept there, and a
cache that has grown too large is emptied first. -/
def lookUpHeader (bid : Hash) (hint : Height) : Option Api.BlockHeader × BlockChain :=
  match (bc.windowCandidate hint).filter fun candidate ↦ candidate.hash = bid with
  | some candidate => (some candidate, bc)
  | none =>
    match bc.headerCache[bid]? with
    | some header => (some header, bc)
    | none =>
      let cache := if (bc.largestWindow env * 10).toNat < bc.headerCache.size then ∅ else bc.headerCache
      match bc.tree.headers[bid]? with
      | none => (none, { bc with headerCache := cache })
      | some header => (some header, { bc with headerCache := cache.insert bid header })

/-- The tip with the least work. -/
def getOldestTip : Option (Difficulty × Hash) :=
  (bc.tree.cdTips.toList.head?).map fun p ↦ ofLex p.1

/-- `prune_branch`: whether the block was deleted, and the chain afterwards. -/
def pruneBranch (cd : Difficulty) (bid : Hash) : Except Fault (Bool × BlockChain) :=
  if bid = bc.tip.tipBid then .ok (false, bc)
  else do
    bc.tree.checkChildrenCounter cd bid 0
    let found := bc.lookUpHeader env bid 0
    let me ← orFail .invariantViolated found.1
    let found := found.2.lookUpHeader env me.previousBlockHash 0
    let pa ← orFail .invariantViolated found.1
    let tree := found.2.tree.modifyChildrenCounter cd bid 1
    let tree := tree.modifyChildrenCounter pa.cumulativeDifficulty me.previousBlockHash (-1)
    let blocks ← delOld tree.blocks bid
    let headers ← delOld tree.headers bid
    return (true, { found.2 with tree := { tree with blocks := blocks, headers := headers } })

end BlockChain

/-- The steps of a node that prunes. -/
inductive PruningOp
  | node (op : Op)
  | pruneBranch (cd : Difficulty) (bid : Hash)

def PruningOp.Sized (s : State) : PruningOp → Prop
  | .node op => op.Sized s
  | .pruneBranch _ _ => True

namespace State

variable (env : Env) (s : State)

def pruningStep : PruningOp → Except Fault State
  | .node op => s.step env op
  | .pruneBranch cd bid => do
    let p ← s.chain.pruneBranch env cd bid
    return { s with chain := p.2 }

/-- The states of runs with pruning, every step of which meets `guard`. -/
def ReachablePruning (guard : State → PruningOp → Prop) : State → Prop :=
  Reaches (fun s op ↦ s.pruningStep env op) (fun s op ↦ op.Sized s ∧ guard s op) (Initial env)

/-- Run a node that prunes from the start, as long as every step passes a check. -/
def runPruning (check : State → PruningOp → Bool) (now : Timestamp) (ops : List PruningOp) :
    Option State := do
  let s ← (openEmpty env now).toOption
  ops.foldlM (fun s op ↦ if check s op then (s.pruningStep env op).toOption else none) s

variable {env} {s}

private theorem reachablePruning_of_run {guard : State → PruningOp → Prop}
    {check : State → PruningOp → Bool} {now : Timestamp} {ops : List PruningOp}
    (hcheck : ∀ s op, check s op = true → op.Sized s ∧ guard s op)
    (h : runPruning env check now ops = some s) : s.ReachablePruning env guard := by
  unfold runPruning at h
  rw [Option.bind_eq_bind, Option.bind_eq_some_iff] at h
  obtain ⟨s₀, hopen, hrun⟩ := h
  have hstart : s₀.ReachablePruning env guard := .start ⟨now, toOption_eq_some.mp hopen⟩
  clear hopen
  induction ops generalizing s₀ with
  | nil =>
    cases hrun
    exact hstart
  | cons op ops ih =>
    rw [List.foldlM_cons, Option.bind_eq_bind, Option.bind_eq_some_iff] at hrun
    obtain ⟨s₁, hstep, hrest⟩ := hrun
    split_ifs at hstep with hpass
    exact ih s₁ hrest (.next hstart (hcheck s₀ op hpass) (toOption_eq_some.mp hstep))

theorem exists_reachablePruning (env : Env) (guard : State → PruningOp → Prop)
    (check : State → PruningOp → Bool)
    (now : Timestamp) (ops : List PruningOp) (p : State → Bool)
    (hcheck : ∀ s op, check s op = true → op.Sized s ∧ guard s op)
    (h : (runPruning env check now ops).any p = true) :
    ∃ s : State, s.ReachablePruning env guard ∧ p s = true := by
  obtain ⟨s, hrun, hp⟩ := (Option.any_eq_true _ _).mp h
  exact ⟨s, reachablePruning_of_run hcheck hrun, hp⟩

end State

end CryoNero
