import CryoNero.Chain.Agreement
import CryoNero.Chain.Locator
import CryoNero.Chain.Pruning

/-!
# The node follows the work

The tip of the main chain changes only when a block arrives whose branch has more work than the main
chain. Then it becomes that block (`Reachable.adopts`); or, when a block of the new branch is rejected on
the way, the block below it, where the node stays. As long as this does not happen, no block that is stored
has more work than the tip, and of several blocks with the same work the tip is the one that came first. So
nodes that have the same blocks, one of which has more work than all others, have the same main chain
(`Reachable.converge`).
-/

namespace CryoNero

open Seria Store

/-! ## The branch down to the common block -/

namespace BlockChain

variable {bc : BlockChain} {bid : Hash} {info : Api.BlockHeader}

/-- Blocks that start with `bid` and are all below it. -/
def BranchOf (bc : BlockChain) (bid : Hash) (branch : List Hash) : Prop :=
  branch.head? = some bid ∧ ∀ b ∈ branch, bc.tree.Descends b bid

theorem BranchOf.single (hinfo : bc.tree.headers[bid]? = some info) : bc.BranchOf bid [bid] :=
  ⟨rfl, by simpa using .self hinfo⟩

theorem BranchOf.cons {branch : List Hash} (hinfo : bc.tree.headers[bid]? = some info)
    (h : bc.BranchOf info.previousBlockHash branch) : bc.BranchOf bid (bid :: branch) := by
  refine ⟨rfl, fun b hb ↦ ?_⟩
  rcases List.mem_cons.mp hb with rfl | hb
  · exact .self hinfo
  · exact .child hinfo (h.2 b hb)

/-- A branch that goes on where another one ends. -/
theorem BranchOf.append {way branch : List Hash} {bid' : Hash} (h : bc.BranchOf bid (way ++ [bid']))
    (h' : bc.BranchOf bid' branch) : bc.BranchOf bid (way ++ branch) := by
  constructor
  · cases way with
    | nil =>
      obtain rfl : bid' = bid := by simpa using h.1
      exact h'.1
    | cons _ _ => exact h.1
  · intro b hb
    rcases List.mem_append.mp hb with hb | hb
    · exact h.2 b (List.mem_append_left _ hb)
    · exact (h'.2 b hb).trans (h.2 bid' (by simp))

private theorem Coherent.branchOf_descend (hc : bc.Coherent) (height : Height) : ∀ {fuel : ℕ} {bid : Hash}
    {info : Api.BlockHeader} {p : List Hash × Hash × Api.BlockHeader},
    bc.tree.headers[bid]? = some info → bc.descend height fuel bid info = .ok p →
    bc.tree.headers[p.2.1]? = some p.2.2 ∧ bc.BranchOf bid (p.1 ++ [p.2.1]) := by
  intro fuel
  induction fuel with
  | zero =>
    intro bid info p _ h
    cases h
  | succ fuel ih =>
    intro bid info p hinfo h
    rw [descend] at h
    split_ifs at h with hlt
    · obtain ⟨next, hnext, h⟩ := bind_eq_ok.mp h
      obtain ⟨q, hq, h⟩ := bind_eq_ok.mp h
      cases h
      obtain ⟨hend, hbranch⟩ := ih (hc.readHeader!_eq_ok.mp hnext) hq
      exact ⟨hend, .cons hinfo hbranch⟩
    · cases h
      exact ⟨hinfo, .single hinfo⟩

private theorem Coherent.branchOf_descendBoth (hc : bc.Coherent) : ∀ {fuel : ℕ}
    {p1 p2 : Hash × Api.BlockHeader} {r : Hash × List Hash × List Hash},
    bc.tree.headers[p2.1]? = some p2.2 → bc.descendBoth fuel p1 p2 = .ok r →
    bc.BranchOf p2.1 (r.2.2 ++ [r.1]) := by
  intro fuel
  induction fuel with
  | zero =>
    intro p1 p2 r _ h
    cases h
  | succ fuel ih =>
    intro p1 p2 r hinfo h
    obtain ⟨hid1, ha1⟩ := p1
    obtain ⟨hid2, ha2⟩ := p2
    rw [descendBoth] at h
    split_ifs at h with hsame
    · cases h
      subst hsame
      exact .single hinfo
    · obtain ⟨next1, -, h⟩ := bind_eq_ok.mp h
      obtain ⟨next2, hnext2, h⟩ := bind_eq_ok.mp h
      obtain ⟨q, hq, h⟩ := bind_eq_ok.mp h
      cases h
      have hrest : bc.BranchOf ha2.previousBlockHash (q.2.2 ++ [q.1]) :=
        ih (hc.readHeader!_eq_ok.mp hnext2) hq
      exact .cons hinfo hrest

/-- The blocks that are redone after the common block, and the common block, are those of the
branch. -/
private theorem Coherent.branchOf_getCommonBlock (hc : bc.Coherent) {bid1 bid2 : Hash}
    {r : Hash × List Hash × List Hash} (h : bc.getCommonBlock bid1 bid2 = .ok r) :
    bc.BranchOf bid2 (r.2.2 ++ [r.1]) := by
  unfold getCommonBlock at h
  obtain ⟨ha1, -, h⟩ := bind_eq_ok.mp h
  obtain ⟨ha2, hread, h⟩ := bind_eq_ok.mp h
  obtain ⟨p1, -, h⟩ := bind_eq_ok.mp h
  obtain ⟨p2, hp2, h⟩ := bind_eq_ok.mp h
  obtain ⟨p, hp, h⟩ := bind_eq_ok.mp h
  cases h
  obtain ⟨hinfo, hbranch⟩ := hc.branchOf_descend _ (hc.readHeader!_eq_ok.mp hread) hp2
  have hrest := hc.branchOf_descendBoth hinfo hp
  simp only [List.append_assoc]
  exact hbranch.append hrest

end BlockChain

namespace State

variable {env : Env} {guard : State → Op → Prop} {s s' : State}

/-! ## Where the tip goes -/

theorem redoOnTip_tip {bid : Hash} {blockData : Bytes} {rawBlock : RawBlock} {block : Block}
    {info : Api.BlockHeader} {tid : Hash} (hc : s.chain.Coherent)
    (hinfo : s.chain.tree.headers[bid]? = some info)
    (h : s.redoOnTip env bid blockData rawBlock block info tid = .ok (some s')) :
    s'.chain.tip.tipBid = bid := by
  obtain ⟨_, chain, -, hpush, rfl⟩ := redoOnTip_eq_some.mp h
  exact (BlockChain.pushChain_tip hpush).2.2.1.trans (hc.hash hinfo)

private theorem redoBranch_tip {recentPb : PreparedBlock} {recentInfo : Api.BlockHeader} :
    ∀ {branch : List Hash} {s s' : State} {undone undone' : UndoneTransactions} {all : Bool},
    s.chain.Coherent → Stored env s.chain.tree recentPb recentInfo →
    redoBranch env recentPb recentInfo branch s undone = .ok (s', undone', all) →
    s'.chain.tip.tipBid ∈ s.chain.tip.tipBid :: branch := by
  intro branch
  induction branch with
  | nil =>
    intro s s' undone undone' all _ _ h
    cases h
    exact List.mem_singleton_self _
  | cons chha rest ih =>
    intro s s' undone undone' all hc hstored h
    rw [redoBranch] at h
    obtain ⟨p, hp, h⟩ := bind_eq_ok.mp h
    cases p with
    | none =>
      cases h
      exact List.mem_cons_self
    | some p =>
      obtain ⟨s₁, block⟩ := p
      obtain ⟨_, _, _, _, hholds, hinfo, htid, hprev, hredo⟩ := redoBranchBlock_eq_some hc hstored hp
      have hmem := ih (coherent_redoOnTip hc hinfo hredo) (by rw [redoOnTip_tree hredo]; exact hstored) h
      rw [redoOnTip_tip hc hinfo hredo] at hmem
      exact List.mem_cons_of_mem _ hmem

private theorem redoBranch_tip_of_all {recentPb : PreparedBlock} {recentInfo : Api.BlockHeader} :
    ∀ {branch : List Hash} {s s' : State} {undone undone' : UndoneTransactions},
    s.chain.Coherent → Stored env s.chain.tree recentPb recentInfo →
    redoBranch env recentPb recentInfo branch s undone = .ok (s', undone', true) →
    s'.chain.tip.tipBid = branch.getLastD s.chain.tip.tipBid := by
  intro branch
  induction branch with
  | nil =>
    intro s s' undone undone' _ _ h
    cases h
    rfl
  | cons chha rest ih =>
    intro s s' undone undone' hc hstored h
    rw [redoBranch] at h
    obtain ⟨p, hp, h⟩ := bind_eq_ok.mp h
    cases p with
    | none => cases h
    | some p =>
      obtain ⟨s₁, block⟩ := p
      obtain ⟨_, _, _, _, hholds, hinfo, htid, hprev, hredo⟩ := redoBranchBlock_eq_some hc hstored hp
      rw [ih (coherent_redoOnTip hc hinfo hredo) (by rw [redoOnTip_tree hredo]; exact hstored) h,
        redoOnTip_tip hc hinfo hredo, List.getLastD_cons]

private theorem reorganizeBlocks_tip {switchToChain : Hash} {recentPb : PreparedBlock}
    {recentInfo : Api.BlockHeader} {all : Bool} (hp : s.Proper env)
    (hstored : Stored env s.chain.tree recentPb recentInfo)
    (h : s.reorganizeBlocks env switchToChain recentPb recentInfo = .ok (s', all)) :
    s'.chain.tip.tipBid = s.chain.tip.tipBid ∨
      s.chain.tree.Descends s'.chain.tip.tipBid switchToChain := by
  unfold reorganizeBlocks at h
  obtain ⟨p, hcommon, h⟩ := bind_eq_ok.mp h
  split_ifs at h with hthere
  · cases h
    exact .inl rfl
  · obtain ⟨q, hq, h⟩ := bind_eq_ok.mp h
    obtain ⟨r, hr, h⟩ := bind_eq_ok.mp h
    obtain ⟨s₁, h₁, h⟩ := bind_eq_ok.mp h
    cases h
    have hnone : UndoneTransactions.Goes env ∅ := fun _ _ hget ↦ by
      cases (Std.ExtTreeMap.getElem?_empty).symm.trans hget
    obtain ⟨hundo, htree, htip, hundone⟩ := undoTo_moves (fun _ ↦ True) hp hnone hq
    have hstored' : Stored env q.1.chain.tree recentPb recentInfo := by
      rw [htree]
      exact hstored
    obtain ⟨hredo, -, hundone'⟩ :=
      redoBranch_moves (fun _ ↦ True) (hundo.proper hp).coherent hstored' hundone hr
    have hmem := redoBranch_tip (hundo.proper hp).coherent hstored' hr
    obtain ⟨-, hchain, -⟩ := onReorganization_moves (fun _ ↦ True)
      (Moves.proper (hundo.trans hredo) hp) hundone' h₁
    rw [hchain]
    refine .inr ((hp.coherent.branchOf_getCommonBlock hcommon).2 _ ?_)
    rw [htip, List.mem_cons, List.mem_reverse] at hmem
    rw [List.mem_append, List.mem_singleton]
    exact hmem.symm

private theorem reorganizeBlocks_tip_of_all {switchToChain : Hash} {recentPb : PreparedBlock}
    {recentInfo : Api.BlockHeader} (hp : s.Proper env)
    (hstored : Stored env s.chain.tree recentPb recentInfo)
    (h : s.reorganizeBlocks env switchToChain recentPb recentInfo = .ok (s', true)) :
    s'.chain.tip.tipBid = switchToChain := by
  unfold reorganizeBlocks at h
  obtain ⟨p, hcommon, h⟩ := bind_eq_ok.mp h
  split_ifs at h with hthere
  · cases h
  · obtain ⟨q, hq, h⟩ := bind_eq_ok.mp h
    obtain ⟨⟨s₁, undone, all⟩, hr, h⟩ := bind_eq_ok.mp h
    obtain ⟨s₂, h₂, h⟩ := bind_eq_ok.mp h
    cases h
    have hnone : UndoneTransactions.Goes env ∅ := fun _ _ hget ↦ by
      cases (Std.ExtTreeMap.getElem?_empty).symm.trans hget
    obtain ⟨hundo, htree, htip, hundone⟩ := undoTo_moves (fun _ ↦ True) hp hnone hq
    have hstored' : Stored env q.1.chain.tree recentPb recentInfo := by
      rw [htree]
      exact hstored
    obtain ⟨hredo, -, hundone'⟩ :=
      redoBranch_moves (fun _ ↦ True) (hundo.proper hp).coherent hstored' hundone hr
    obtain ⟨-, hchain, -⟩ := onReorganization_moves (fun _ ↦ True)
      (Moves.proper (hundo.trans hredo) hp) hundone' h₂
    rw [hchain, redoBranch_tip_of_all (hundo.proper hp).coherent hstored' hr, htip,
      List.getLastD_eq_getLast?, List.getLast?_reverse]
    have hhead := (hp.coherent.branchOf_getCommonBlock hcommon).1
    rw [List.head?_append] at hhead
    rcases hway : p.2.2.head? with _ | bid
    · rw [hway] at hhead
      exact Option.some.inj hhead
    · rw [hway] at hhead
      exact Option.some.inj hhead

/-- A block with more work than the tip was stored, and the tip is that block or one below it. -/
def Turns (s s' : State) : Prop :=
  ∃ (bid : Hash) (info : Api.BlockHeader), s.chain.tree.headers[bid]? = none ∧
    s'.chain.tree.headers[bid]? = some info ∧
    s.chain.tip.tipCumulativeDifficulty < info.cumulativeDifficulty ∧
    s'.chain.tree.Descends s'.chain.tip.tipBid bid

private theorem adoptBlock_tip {pb : PreparedBlock} {info : Api.BlockHeader} {ok : Bool}
    (hp : s.Proper env) (hstored : Stored env s.chain.tree pb info)
    (h : s.adoptBlock env pb info = .ok (s', ok)) :
    s'.chain.tip.tipBid = s.chain.tip.tipBid ∨
      s.chain.tip.tipCumulativeDifficulty < info.cumulativeDifficulty ∧
        s.chain.tree.Descends s'.chain.tip.tipBid pb.bid := by
  unfold adoptBlock at h
  split_ifs at h with hwork htip
  · obtain ⟨next, hnext, h⟩ := bind_eq_ok.mp h
    cases next with
    | none =>
      cases h
      exact .inl rfl
    | some s₁ =>
      cases h
      rw [redoOnTip_tip hp.coherent hstored.header hnext]
      exact .inr ⟨hwork, .self hstored.header⟩
  · obtain ⟨p, hreorganize, h⟩ := bind_eq_ok.mp h
    cases h
    exact (reorganizeBlocks_tip hp hstored hreorganize).imp_right fun hdescends ↦ ⟨hwork, hdescends⟩
  · cases h
    exact .inl rfl

private theorem stored_of_storeChecked {pb : PreparedBlock} {prevInfo info : Api.BlockHeader}
    (hp : s.Proper env)
    (hr : s.Ready env) (hfree : s.chain.tree.headers[pb.bid]? = none)
    (h : s.storeChecked env pb prevInfo info = .ok s') : s'.chain.tip = s.chain.tip ∧
      s'.chain.tree.headers = s.chain.tree.headers.insert pb.bid info := by
  obtain ⟨-, s₁, hs₁, -, rfl⟩ := (storeChecked_eq_ok hp.coherent).mp h
  rw [if_neg] at hs₁
  · rw [hs₁, withTree_tree, withTree_tree, Tree.modifyChildrenCounter_headers,
      Tree.modifyChildrenCounter_headers]
    exact ⟨rfl, rfl⟩
  · intro hgenesis
    obtain ⟨genesis, hheader⟩ := hr.genesis_header
    rw [hgenesis, hheader] at hfree
    cases hfree

theorem addBlock_tip {now : Timestamp} {pb : PreparedBlock} {a : BroadcastAction}
    {i : Api.BlockHeader} (hp : s.Proper env) (hr : s.Ready env) (hpb : pb.Faithful env)
    (h : s.addBlock env now pb = .ok (s', a, i)) :
    s'.chain.tip.tipBid = s.chain.tip.tipBid ∨ Turns s s' := by
  rcases addBlock_cases hp.coherent h with ⟨rfl, -⟩ |
    ⟨prevInfo, info, stored, p, hfree, hparent, hcheck, hstored, hadopt, -, hend⟩
  · exact .inl rfl
  · obtain ⟨hmoves, hin⟩ :=
      storeChecked_moves (fun _ ↦ True) hp.coherent hpb trivial hparent hcheck hstored
    have htree := adoptBlock_tree (hmoves.proper hp) hin hadopt
    have htip := (stored_of_storeChecked hp hr hfree hstored).1
    have hchain : s'.chain.tip = p.1.chain.tip ∧ s'.chain.tree = p.1.chain.tree := by
      rcases hend with ⟨-, rfl, -⟩ | ⟨-, rfl | rfl, -⟩ <;> exact ⟨rfl, rfl⟩
    have hadopted := adoptBlock_tip (hmoves.proper hp) hin hadopt
    rw [htip, ← hchain.1] at hadopted
    refine hadopted.imp_right ?_
    rintro ⟨hwork, hdescends⟩
    refine ⟨pb.bid, info, hfree, ?_, hwork, ?_⟩
    · rw [hchain.2, htree]
      exact hin.header
    · rwa [hchain.2, htree]

/-- **What a step does to the tip**: nothing, or it turns to a branch with more work. -/
private theorem step_tip {op : Op} (hp : s.Proper env) (hr : s.Ready env) (hsized : op.Sized s)
    (h : s.step env op = .ok s') : s'.chain.tip.tipBid = s.chain.tip.tipBid ∨ Turns s s' := by
  cases op with
  | addBlock rawBlock context now =>
    obtain ⟨pb, hpb, h⟩ := bind_eq_ok.mp h
    obtain ⟨p, hadd, h⟩ := bind_eq_ok.mp h
    cases h
    have hadds : Adds env s pb (.addBlock rawBlock context now) := hpb
    exact addBlock_tip hp hr (hadds.faithful hsized) hadd
  | addBlockData blockData context now =>
    obtain ⟨pb, hpb, h⟩ := bind_eq_ok.mp h
    obtain ⟨p, hadd, h⟩ := bind_eq_ok.mp h
    cases h
    have hadds : Adds env s pb (.addBlockData blockData context now) := hpb
    exact addBlock_tip hp hr (hadds.faithful hsized) hadd
  | addMinedBlock rawBlockTemplate now =>
    obtain ⟨p, hadd, h⟩ := bind_eq_ok.mp h
    cases h
    rcases addMinedBlock_eq_ok hadd with heq | ⟨template, transactions, pb, hread, hmined, hpb, hadd⟩
    · rw [heq]
      exact .inl rfl
    · have hadds : Adds env s pb (.addMinedBlock rawBlockTemplate now) :=
        ⟨template, transactions, hread, hmined, hpb⟩
      exact addBlock_tip hp hr (hadds.faithful hsized) hadd
  | addTransaction binaryTx =>
    obtain ⟨p, hadd, h⟩ := bind_eq_ok.mp h
    cases h
    obtain ⟨_, _, _, hadd⟩ := addBinaryTransaction_eq_ok hsized hadd
    obtain ⟨_, _, hframe⟩ := addTransaction_frame hadd
    rw [hframe]
    exact .inl rfl
  | createMiningBlockTemplate now adr extraNonce keys =>
    obtain ⟨p, hcreate, h⟩ := bind_eq_ok.mp h
    cases h
    obtain ⟨mining, hmining⟩ := createMiningBlockTemplate_frame hcreate
    rw [hmining]
    exact .inl rfl
  | cacheHeader bid =>
    cases h
    unfold cacheHeader
    split <;> exact .inl rfl
  | clearHeaderCache =>
    cases h
    exact .inl rfl
  | cacheNextGlobalIndex amount =>
    cases h
    exact .inl rfl
  | restart =>
    obtain ⟨bid, header, chain, hbid, -, hchain, rfl⟩ := restart_eq_ok.mp h
    obtain ⟨_, _, -, -, rfl⟩ := BlockChain.tipChanged_eq_ok.mp hchain
    exact .inl (Option.some.inj (hbid.symm.trans hr.main.tip))

/-- **The main chain is left only for more work.** A step leaves the tip of the main chain where it is,
or a block has arrived whose branch has more work than the main chain had, and the tip is that block or
one below it on its branch. -/
theorem Reachable.tip_follows_work (h : s.Reachable env guard) {op : Op} (hsized : op.Sized s)
    (hstep : s.step env op = .ok s') : s'.chain.tip.tipBid = s.chain.tip.tipBid ∨ Turns s s' := by
  have hready := h.ready (fun _ ↦ True) (fun _ _ ↦ trivial) fun _ _ _ _ _ _ ↦ trivial
  have hmoves := h.moves (fun _ ↦ True) (fun _ _ ↦ trivial) fun _ _ _ _ _ _ ↦ trivial
  exact step_tip (hmoves.proper proper_empty) hready hsized hstep

/-- A block on top of the genesis block. -/
def sampleFirst : Op :=
  .addBlock (sampleBlock (.lax 5) 1 (Env.lax 5).genesisBlockHash sampleReward 7 []) false 0

theorem tip_follows_work_sample : ∃ s s' : State, s'.chain.tip.tipBid = 0x701 ∧
    (s'.chain.tip.tipBid = s.chain.tip.tipBid ∨ Turns s s') := by
  obtain ⟨s, hs, hp⟩ := exists_reachable 0 [] (fun s ↦ decide
      (((s.step (.lax 5) sampleFirst).toOption.map (·.chain.tip.tipBid)) = some 0x701))
    (show endsIn (.lax 5) _ _ _ = true by decide +kernel)
  obtain ⟨s', hs', htip⟩ := Option.map_eq_some_iff.mp (of_decide_eq_true hp)
  rw [toOption_eq_some] at hs'
  exact ⟨s, s', htip, Reachable.tip_follows_work hs (sized_of_isSized (by decide +kernel) s) hs'⟩

/-! ## The branch with the most work -/

/-- A block that is stored and whose branch has more work than the main chain becomes the tip: nothing
on its branch is rejected. -/
def Adopts (env : Env) (s : State) (op : Op) : Prop :=
  ∀ (s' : State) (bid : Hash) (info : Api.BlockHeader), s.step env op = .ok s' →
    s.chain.tree.headers[bid]? = none → s'.chain.tree.headers[bid]? = some info →
    s.chain.tip.tipCumulativeDifficulty < info.cumulativeDifficulty → s'.chain.tip.tipBid = bid

/-- A block is rejected on the branch of a stored block that has more work than the main chain. -/
def Rejects (env : Env) (s : State) (pb : PreparedBlock) (info : Api.BlockHeader) : Prop :=
  if s.chain.tip.tipBid = pb.block.header.previousBlockHash then
    s.redoOnTip env pb.bid pb.blockData pb.rawBlock pb.block info pb.baseTransactionHash = .ok none
  else ∃ s', s.reorganizeBlocks env pb.bid pb info = .ok (s', false)

private theorem adoptBlock_tip_of_redone {pb : PreparedBlock} {info : Api.BlockHeader} {ok : Bool}
    (hp : s.Proper env) (hstored : Stored env s.chain.tree pb info)
    (hwork : s.chain.tip.tipCumulativeDifficulty < info.cumulativeDifficulty)
    (hredone : ¬s.Rejects env pb info) (h : s.adoptBlock env pb info = .ok (s', ok)) :
    s'.chain.tip.tipBid = pb.bid := by
  unfold adoptBlock at h
  unfold Rejects at hredone
  rw [if_pos hwork] at h
  split_ifs at h hredone with htip
  · obtain ⟨next, hnext, h⟩ := bind_eq_ok.mp h
    cases next with
    | none => exact absurd hnext hredone
    | some s₁ =>
      cases h
      exact redoOnTip_tip hp.coherent hstored.header hnext
  · obtain ⟨⟨s₁, all⟩, hreorganize, h⟩ := bind_eq_ok.mp h
    cases h
    cases all with
    | false => exact absurd ⟨_, hreorganize⟩ hredone
    | true => exact reorganizeBlocks_tip_of_all hp hstored hreorganize

/-- **A node adopts what it does not reject**: a step in which no block of the new branch is rejected. -/
theorem Reachable.adopts (h : s.Reachable env guard) {op : Op} (hsized : op.Sized s)
    (hredone : ∀ pb, Adds env s pb op → ∀ prevInfo info stored,
      s.storeChecked env pb prevInfo info = .ok stored → ¬stored.Rejects env pb info) :
    Adopts env s op := by
  intro s' bid header hstep hfree hheader hwork
  have hready := h.ready (fun _ ↦ True) (fun _ _ ↦ trivial) fun _ _ _ _ _ _ ↦ trivial
  have hmoves := h.moves (fun _ ↦ True) (fun _ _ ↦ trivial) fun _ _ _ _ _ _ ↦ trivial
  have hp := hmoves.proper proper_empty
  rcases step_adds hsized hstep with ⟨pb, now, a, i, hadds, hadd⟩ | htree
  · rcases addBlock_cases hp.coherent hadd with ⟨rfl, -⟩ |
      ⟨prevInfo, info, stored, p, hnew, hparent, hcheck, hstored, hadopt, -, hend⟩
    · rw [hfree] at hheader
      cases hheader
    · obtain ⟨hstores, hin⟩ := storeChecked_moves (fun _ ↦ True) hp.coherent (hadds.faithful hsized)
        trivial hparent hcheck hstored
      have hchain : s'.chain.tip = p.1.chain.tip ∧ s'.chain.tree = p.1.chain.tree := by
        rcases hend with ⟨-, rfl, -⟩ | ⟨-, rfl | rfl, -⟩ <;> exact ⟨rfl, rfl⟩
      obtain ⟨htip, hheaders⟩ := stored_of_storeChecked hp hready hnew hstored
      -- the only new header is that of the block
      rw [hchain.2, adoptBlock_tree (hstores.proper hp) hin hadopt, hheaders, Table.get_insert] at hheader
      split_ifs at hheader with hbid
      · obtain rfl := Option.some.inj hheader
        rw [← htip] at hwork
        rw [hchain.1, ← hbid]
        exact adoptBlock_tip_of_redone (hstores.proper hp) hin hwork
          (hredone pb hadds prevInfo _ stored hstored) hadopt
      · rw [hfree] at hheader
        cases hheader
  · rw [htree, hfree] at hheader
    cases hheader

theorem Reachable.tip_work (h : s.Reachable env guard) : ∃ info : Api.BlockHeader,
    s.chain.tree.headers[s.chain.tip.tipBid]? = some info ∧
      s.chain.tip.tipCumulativeDifficulty = info.cumulativeDifficulty := by
  have hready := h.ready (fun _ ↦ True) (fun _ _ ↦ trivial) fun _ _ _ _ _ _ ↦ trivial
  have hmoves := h.moves (fun _ ↦ True) (fun _ _ ↦ trivial) fun _ _ _ _ _ _ ↦ trivial
  obtain ⟨info, _, -, -, hinfo, -, hwork⟩ := hready.main.window_head hmoves.treeSound.coherent
  exact ⟨info, hinfo, hwork⟩

private theorem headersLe_of_moves {accept : PreparedBlock → Prop} (h : Moves env accept s s') :
    BlockChain.HeadersLe s.chain s'.chain := by
  induction h with
  | refl => exact BlockChain.HeadersLe.of_eq rfl
  | tail _ hmove ih =>
    refine BlockChain.HeadersLe.trans ih ?_
    rcases hmove.tree_cases with ⟨pb, _, _, info, -, -, hfree, -, -, htree⟩ | ⟨-, hheaders⟩
    · intro b x hx
      rw [htree, Tree.store, Table.get_insert_of_ne]
      · exact hx
      · rintro rfl
        rw [hfree] at hx
        cases hx
    · exact BlockChain.HeadersLe.of_eq hheaders.symm

private theorem Reachable.headersLe (h : s.Reachable env guard) {op : Op} (hsized : op.Sized s)
    (hstep : s.step env op = .ok s') : BlockChain.HeadersLe s.chain s'.chain := by
  have hmoves := h.moves (fun _ ↦ True) (fun _ _ ↦ trivial) fun _ _ _ _ _ _ ↦ trivial
  have hstep := step_moves (fun _ ↦ True) (hmoves.proper proper_empty) hsized (fun _ _ ↦ trivial) hstep
  intro _ _
  exact headersLe_of_moves hstep

private theorem eq_genesis_of_initial (h : Initial env s) {bid : Hash} {info : Api.BlockHeader}
    (hinfo : s.chain.tree.headers[bid]? = some info) : bid = env.genesisBlockHash := by
  obtain ⟨now, hopen⟩ := h
  obtain ⟨block, hblock, h⟩ := bind_eq_ok.mp hopen
  obtain ⟨pb, hpb, h⟩ := bind_eq_ok.mp h
  obtain ⟨p, hp, h⟩ := bind_eq_ok.mp h
  obtain ⟨_, _, h⟩ := bind_eq_ok.mp h
  obtain ⟨chain, hchain, h⟩ := bind_eq_ok.mp h
  cases h
  obtain ⟨_, _, _, _, rfl⟩ := BlockChain.tipChanged_eq_ok.mp hchain
  have hgenesis : GenesisBlock env pb := ⟨block, orFail_eq_ok.mp hblock, hpb⟩
  change p.1.chain.tree.headers[bid]? = _ at hinfo
  rcases addBlock_tree proper_empty hgenesis.faithful hp with htree | hstores
  · rw [htree] at hinfo
    cases (Std.ExtTreeMap.getElem?_empty).symm.trans hinfo
  · obtain ⟨pb, _, prevInfo, stored, _, -, -, hparent, -, hstored, htree⟩ := hstores
    have hbid : pb.bid = env.genesisBlockHash := by
      by_contra hne
      unfold Tree.Parent at hparent
      rw [if_neg hne] at hparent
      cases (Std.ExtTreeMap.getElem?_empty).symm.trans hparent
    have hempty : State.TreeSound env (fun _ ↦ True) {} := treeSound_empty
    obtain ⟨-, s₁, hs₁, -, rfl⟩ := (storeChecked_eq_ok hempty.coherent).mp hstored
    rw [if_pos hbid] at hs₁
    have htree₁ := redoOnTip_tree hs₁
    rw [withTree_tree] at htree₁
    rw [htree, withTree_tree, htree₁, Tree.modifyChildrenCounter_headers, Tree.store,
      Table.get_insert] at hinfo
    split_ifs at hinfo with hsame
    · rw [← hsame, hbid]
    · cases (Std.ExtTreeMap.getElem?_empty).symm.trans hinfo

/-- The work of the main chain grows with every step that moves its tip, as long as no branch with more
work is rejected. -/
private theorem Reachable.work_grows (h : s.Reachable env guard) {op : Op} (hsized : op.Sized s)
    (hguard : guard s op) (hadopts : Adopts env s op) (hstep : s.step env op = .ok s') :
    s'.chain.tip.tipBid = s.chain.tip.tipBid ∧
        s'.chain.tip.tipCumulativeDifficulty = s.chain.tip.tipCumulativeDifficulty ∨
      s.chain.tip.tipCumulativeDifficulty < s'.chain.tip.tipCumulativeDifficulty := by
  have h' : s'.Reachable env guard := .next h ⟨hsized, hguard⟩ hstep
  obtain ⟨tip, htip, hwork⟩ := h.tip_work
  obtain ⟨tip', htip', hwork'⟩ := h'.tip_work
  rcases h.tip_follows_work hsized hstep with hsame | ⟨bid, info, hfree, hinfo, hlt, -⟩
  · rw [hsame, h.headersLe hsized hstep htip] at htip'
    cases htip'
    exact .inl ⟨hsame, hwork'.trans hwork.symm⟩
  · rw [hadopts s' bid info hstep hfree hinfo hlt, hinfo] at htip'
    cases htip'
    rw [hwork']
    exact .inr hlt

/-- No stored block has more work than the tip. -/
theorem Reachable.work_le (h : s.Reachable env (Adopts env)) {bid : Hash} {info : Api.BlockHeader}
    (hinfo : s.chain.tree.headers[bid]? = some info) :
    info.cumulativeDifficulty ≤ s.chain.tip.tipCumulativeDifficulty := by
  suffices hall : ∀ (bid : Hash) (info : Api.BlockHeader), s.chain.tree.headers[bid]? = some info →
      info.cumulativeDifficulty ≤ s.chain.tip.tipCumulativeDifficulty from hall bid info hinfo
  clear hinfo
  refine Reaches.invariant (I := fun s : State ↦ ∀ (bid : Hash) (info : Api.BlockHeader),
    s.chain.tree.headers[bid]? = some info →
    info.cumulativeDifficulty ≤ s.chain.tip.tipCumulativeDifficulty) ?_ ?_ h
  · intro s hinitial bid info hinfo
    have hstart : s.Reachable env (Adopts env) := .start hinitial
    obtain ⟨tip, htip, hwork⟩ := hstart.tip_work
    obtain rfl := eq_genesis_of_initial hinitial hinfo
    rw [eq_genesis_of_initial hinitial htip, hinfo] at htip
    cases htip
    exact UInt64.le_of_eq hwork.symm
  · intro s op s' hs ih hguard hstep bid info hinfo
    have hgrows := Reachable.work_grows hs hguard.1 hguard.2 hguard.2 hstep
    cases hold : s.chain.tree.headers[bid]? with
    | some old =>
      have hstays := Reachable.headersLe hs hguard.1 hstep hold
      obtain rfl := Option.some.inj (hinfo.symm.trans hstays)
      rcases hgrows with ⟨-, hsame⟩ | hlt
      · rw [hsame]
        exact ih bid _ hold
      · exact UInt64.le_trans (ih bid _ hold) (UInt64.le_of_lt hlt)
    | none =>
      by_cases hmore : s.chain.tip.tipCumulativeDifficulty < info.cumulativeDifficulty
      · obtain ⟨tip', htip', hwork'⟩ :=
          Reachable.tip_work (.next hs hguard hstep : s'.Reachable env (Adopts env))
        rw [hguard.2 s' bid info hstep hold hinfo hmore, hinfo] at htip'
        cases htip'
        exact UInt64.le_of_eq hwork'.symm
      · rw [UInt64.not_lt] at hmore
        rcases hgrows with ⟨-, hsame⟩ | hlt
        · rwa [hsame]
        · exact UInt64.le_trans hmore (UInt64.le_of_lt hlt)

/-- **The main chain is the branch with the most work**, in every run in which no branch with more work
than the main chain is rejected: no stored block has more work than the tip, and a step moves the tip
only to one that has more work. -/
theorem Reachable.heaviest (h : s.Reachable env (Adopts env)) :
    (∀ (bid : Hash) (info : Api.BlockHeader), s.chain.tree.headers[bid]? = some info →
      info.cumulativeDifficulty ≤ s.chain.tip.tipCumulativeDifficulty) ∧
    ∀ (op : Op) (s' : State), op.Sized s → Adopts env s op → s.step env op = .ok s' →
      s'.chain.tip.tipBid = s.chain.tip.tipBid ∨
        s.chain.tip.tipCumulativeDifficulty < s'.chain.tip.tipCumulativeDifficulty := by
  refine ⟨fun bid info hinfo ↦ h.work_le hinfo, ?_⟩
  intro op s' hsized hadopts hstep
  exact (h.work_grows hsized hadopts hadopts hstep).imp_left And.left

/-- Whether a block that an operation stores becomes the tip when it has more work. -/
def adoptsNow (env : Env) (s : State) (op : Op) : Bool :=
  (s.step env op).toOption.all fun s' ↦ decide (∀ e ∈ s'.chain.tree.headers.toList,
    s.chain.tree.headers[e.1]? = none →
    s.chain.tip.tipCumulativeDifficulty < e.2.cumulativeDifficulty → s'.chain.tip.tipBid = e.1)

private theorem adopts_of_adoptsNow {op : Op} (h : adoptsNow env s op = true) : Adopts env s op := by
  intro s' bid info hstep hfree hinfo hmore
  rw [adoptsNow, hstep] at h
  exact of_decide_eq_true h (bid, info) (Table.mem_toList.mpr hinfo) hfree hmore

/-- Run a node on blocks that are all adopted. -/
def runAdopting (env : Env) (ops : List Op) : Except Fault State := do
  let s ← openEmpty env 0
  ops.foldlM (fun s op ↦ do
    ensure (op.isSized = true ∧ adoptsNow env s op = true) .invariantViolated
    s.step env op) s

theorem reachable_of_runAdopting {ops : List Op} (h : runAdopting env ops = .ok s) :
    s.Reachable env (Adopts env) := by
  obtain ⟨s₀, hopen, hrun⟩ := bind_eq_ok.mp h
  refine foldlM_ok (fun _ s ↦ s.Reachable env (Adopts env)) hrun (.start ⟨0, hopen⟩) ?_
  intro done op rest t t' _ ht hstep
  obtain ⟨_, hchecked, hstep⟩ := bind_eq_ok.mp hstep
  obtain ⟨hsized, hadopts⟩ := ensure_eq_ok.mp hchecked
  exact .next ht ⟨sized_of_isSized hsized t, adopts_of_adoptsNow hadopts⟩ hstep

/-- A rival of the first block, which comes before it or after it. -/
def sampleBefore : List Op :=
  .addBlock (sampleBlock (.lax 5) 1 (Env.lax 5).genesisBlockHash sampleReward 9 []) false 0 ::
    sampleBlocks (.lax 5)

def sampleAfter : List Op := sampleBlocks (.lax 5) ++
  [.addBlock (sampleBlock (.lax 5) 1 (Env.lax 5).genesisBlockHash sampleReward 9 []) false 0]

/-- Two blocks on top of the genesis block, and a rival of the first one that comes last. -/
theorem heaviest_sample : ∃ s : State, s.chain.tip.tipBid = 0x902 ∧
    s.chain.tree.headers[(0x901 : Hash)]?.isSome ∧
    ∀ (bid : Hash) (info : Api.BlockHeader), s.chain.tree.headers[bid]? = some info →
      info.cumulativeDifficulty ≤ s.chain.tip.tipCumulativeDifficulty := by
  have hrun : ((runAdopting (.lax 5) sampleAfter).toOption.any fun s ↦
      decide (s.chain.tip.tipBid = 0x902 ∧ s.chain.tree.headers[(0x901 : Hash)]?.isSome)) = true := by
    decide +kernel
  obtain ⟨s, hs, hrun⟩ := (Option.any_eq_true _ _).mp hrun
  obtain ⟨htip, hrival⟩ := of_decide_eq_true hrun
  rw [toOption_eq_some] at hs
  exact ⟨s, htip, hrival, (Reachable.heaviest (reachable_of_runAdopting hs)).1⟩

/-! ## Nodes with the same blocks -/

/-- **Nodes that have the same blocks have the same main chain**, in whatever order the blocks came, when
one block has more work than all others and no branch with more work than the main chain was rejected.
Otherwise the nodes have stored different bytes under one hash. -/
theorem Reachable.converge (h : s.Reachable env (Adopts env)) (h' : s'.Reachable env (Adopts env))
    (hsame : ∀ bid : Hash, (s'.chain.tree.headers[bid]?).map (·.cumulativeDifficulty) =
      (s.chain.tree.headers[bid]?).map (·.cumulativeDifficulty))
    (hbest : ∀ (bid : Hash) (info : Api.BlockHeader), s.chain.tree.headers[bid]? = some info →
      info.cumulativeDifficulty = s.chain.tip.tipCumulativeDifficulty → bid = s.chain.tip.tipBid) :
    SameMainChain s s' ∨ Clash env s s' := by
  obtain ⟨tip, htip, hwork⟩ := h.tip_work
  obtain ⟨tip', htip', hwork'⟩ := h'.tip_work
  -- each node knows the tip of the other one, with the same work
  have hours := hsame s'.chain.tip.tipBid
  rw [htip'] at hours
  obtain ⟨known, hknown, heq⟩ := Option.map_eq_some_iff.mp hours.symm
  have htheirs := hsame s.chain.tip.tipBid
  rw [htip] at htheirs
  obtain ⟨known', hknown', heq'⟩ := Option.map_eq_some_iff.mp htheirs
  have hbid : s'.chain.tip.tipBid = s.chain.tip.tipBid := by
    refine hbest _ known hknown (UInt64.le_antisymm (h.work_le hknown) ?_)
    calc s.chain.tip.tipCumulativeDifficulty
      _ = tip.cumulativeDifficulty := hwork
      _ = known'.cumulativeDifficulty := heq'.symm
      _ ≤ s'.chain.tip.tipCumulativeDifficulty := h'.work_le hknown'
      _ = tip'.cumulativeDifficulty := hwork'
      _ = known.cumulativeDifficulty := heq.symm
  have ht := (h.moves (fun _ ↦ True) (fun _ _ ↦ trivial) fun _ _ _ _ _ _ ↦ trivial).treeSound
  have ht' := (h'.moves (fun _ ↦ True) (fun _ _ ↦ trivial) fun _ _ _ _ _ _ ↦ trivial).treeSound
  have hr := h.ready (fun _ ↦ True) (fun _ _ ↦ trivial) fun _ _ _ _ _ _ ↦ trivial
  have hr' := h'.ready (fun _ ↦ True) (fun _ _ ↦ trivial) fun _ _ _ _ _ _ ↦ trivial
  exact (accord_or_clash ht ht').imp_left fun haccord ↦ haccord.sameMainChain ht ht' hr hr' hbid

theorem converge_sample : ∃ s s' : State, s.chain.tip.tipBid = 0x902 ∧
    s.chain.tree.headers[(0x901 : Hash)]?.isSome ∧
    (SameMainChain s s' ∨ Clash (.lax 5) s s') := by
  have hruns : ((runAdopting (.lax 5) sampleAfter).toOption.any fun s ↦
      (runAdopting (.lax 5) sampleBefore).toOption.any fun s' ↦
        decide (s.chain.tip.tipBid = 0x902 ∧ s.chain.tree.headers[(0x901 : Hash)]?.isSome ∧
          (∀ e ∈ s.chain.tree.headers.toList, (s'.chain.tree.headers[e.1]?).map
            (·.cumulativeDifficulty) = some e.2.cumulativeDifficulty) ∧
          (∀ e ∈ s'.chain.tree.headers.toList, (s.chain.tree.headers[e.1]?).isSome) ∧
          ∀ e ∈ s.chain.tree.headers.toList,
            e.2.cumulativeDifficulty = s.chain.tip.tipCumulativeDifficulty → e.1 = 0x902)) = true := by
    decide +kernel
  obtain ⟨s, hs, hruns⟩ := (Option.any_eq_true _ _).mp hruns
  obtain ⟨s', hs', hruns⟩ := (Option.any_eq_true _ _).mp hruns
  obtain ⟨htip, hrival, hours, htheirs, hbest⟩ := of_decide_eq_true hruns
  rw [toOption_eq_some] at hs hs'
  refine ⟨s, s', htip, hrival, Reachable.converge (reachable_of_runAdopting hs)
    (reachable_of_runAdopting hs') (fun bid ↦ ?_) fun bid info hinfo hwork ↦ ?_⟩
  · cases hinfo : s.chain.tree.headers[bid]? with
    | some info => exact hours (bid, info) (Table.mem_toList.mpr hinfo)
    | none =>
      cases hinfo' : s'.chain.tree.headers[bid]? with
      | none => rfl
      | some info' =>
        have hsome := htheirs (bid, info') (Table.mem_toList.mpr hinfo')
        rw [hinfo] at hsome
        cases hsome
  · rw [htip]
    exact hbest (bid, info) (Table.mem_toList.mpr hinfo) hwork

end State

end CryoNero
