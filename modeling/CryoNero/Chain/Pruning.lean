import CryoNero.Chain.Counters
import CryoNero.Chain.Main
import CryoNero.Chain.Spends
import CryoNero.Core.Prune

/-!
# Runs with pruning

Pruning leaves the header of the deleted block in the cache, from where it is still read. As long as
blocks are added only when no such header is cached, the tree stays sound: every block has its parent,
and the counters and the index of tips are exact.
-/

namespace CryoNero

open Seria Store

/-! ## The tree after a step -/

namespace State

variable {env : Env} {s s' : State}

theorem adoptBlock_tree {pb : PreparedBlock} {info : Api.BlockHeader} {ok : Bool}
    (hp : s.Proper env) (hstored : Stored env s.chain.tree pb info)
    (h : s.adoptBlock env pb info = .ok (s', ok)) : s'.chain.tree = s.chain.tree := by
  unfold adoptBlock at h
  split_ifs at h with hwork htip
  · obtain ⟨next, hnext, h⟩ := bind_eq_ok.mp h
    cases next with
    | none =>
      cases h
      rfl
    | some s₁ =>
      cases h
      exact redoOnTip_tree hnext
  · obtain ⟨p, hreorganize, h⟩ := bind_eq_ok.mp h
    cases h
    exact (reorganizeBlocks_moves (fun _ ↦ True) hp hstored hreorganize).2
  · cases h
    rfl

/-- A block was stored that had passed the check. -/
def Stores (env : Env) (s s' : State) : Prop :=
  ∃ pb now prevInfo info stored, pb.Faithful env ∧ s.chain.tree.headers[pb.bid]? = none ∧
    s.chain.tree.Parent env pb prevInfo ∧
    s.chain.checkStandaloneConsensus env pb now prevInfo (blockInfo pb prevInfo {}) true = .ok info ∧
    s.storeChecked env pb prevInfo info = .ok stored ∧ s'.chain.tree = stored.chain.tree

theorem addBlock_tree {now : Timestamp} {pb : PreparedBlock} {a : BroadcastAction}
    {i : Api.BlockHeader} (hp : s.Proper env) (hpb : pb.Faithful env)
    (h : s.addBlock env now pb = .ok (s', a, i)) :
    s'.chain.tree = s.chain.tree ∨ Stores env s s' := by
  rcases addBlock_cases hp.coherent h with ⟨rfl, -⟩ |
    ⟨prevInfo, info, stored, p, hfree, hparent, hcheck, hstored, hadopt, -, hend⟩
  · exact .inl rfl
  · obtain ⟨hmoves, hin⟩ :=
      storeChecked_moves (fun _ ↦ True) hp.coherent hpb trivial hparent hcheck hstored
    have htree := adoptBlock_tree (hmoves.proper hp) hin hadopt
    refine .inr ⟨pb, now, prevInfo, info, stored, hpb, hfree, hparent, hcheck, hstored, ?_⟩
    rcases hend with ⟨-, rfl, -⟩ | ⟨-, rfl | rfl, -⟩ <;> exact htree

/-- A step adds a block, or leaves the tree as it is. -/
theorem step_adds {op : Op} (hsized : op.Sized s) (h : s.step env op = .ok s') :
    (∃ pb now a i, Adds env s pb op ∧ s.addBlock env now pb = .ok (s', a, i)) ∨
      s'.chain.tree = s.chain.tree := by
  cases op with
  | addBlock rawBlock context now =>
    obtain ⟨pb, hpb, h⟩ := bind_eq_ok.mp h
    obtain ⟨p, hadd, h⟩ := bind_eq_ok.mp h
    cases h
    exact .inl ⟨pb, now, _, _, hpb, hadd⟩
  | addBlockData blockData context now =>
    obtain ⟨pb, hpb, h⟩ := bind_eq_ok.mp h
    obtain ⟨p, hadd, h⟩ := bind_eq_ok.mp h
    cases h
    exact .inl ⟨pb, now, _, _, hpb, hadd⟩
  | addMinedBlock rawBlockTemplate now =>
    obtain ⟨p, hadd, h⟩ := bind_eq_ok.mp h
    cases h
    rcases addMinedBlock_eq_ok hadd with heq | ⟨template, transactions, pb, hread, hmined, hpb, hadd⟩
    · rw [heq]
      exact .inr rfl
    · exact .inl ⟨pb, now, _, _, ⟨template, transactions, hread, hmined, hpb⟩, hadd⟩
  | addTransaction binaryTx =>
    obtain ⟨p, hadd, h⟩ := bind_eq_ok.mp h
    cases h
    obtain ⟨_, _, _, hadd⟩ := addBinaryTransaction_eq_ok hsized hadd
    obtain ⟨_, _, hframe⟩ := addTransaction_frame hadd
    rw [hframe]
    exact .inr rfl
  | createMiningBlockTemplate now adr extraNonce keys =>
    obtain ⟨p, hcreate, h⟩ := bind_eq_ok.mp h
    cases h
    obtain ⟨mining, hmining⟩ := createMiningBlockTemplate_frame hcreate
    rw [hmining]
    exact .inr rfl
  | cacheHeader bid =>
    cases h
    unfold cacheHeader
    split <;> exact .inr rfl
  | clearHeaderCache =>
    cases h
    exact .inr rfl
  | cacheNextGlobalIndex amount =>
    cases h
    exact .inr rfl
  | restart =>
    obtain ⟨_, _, _, _, _, hchain, rfl⟩ := restart_eq_ok.mp h
    obtain ⟨_, _, _, _, rfl⟩ := BlockChain.tipChanged_eq_ok.mp hchain
    exact .inr rfl

/-- **What a step does to the tree**: nothing, or a block is stored. -/
private theorem step_tree {op : Op} (hp : s.Proper env) (hsized : op.Sized s)
    (h : s.step env op = .ok s') : s'.chain.tree = s.chain.tree ∨ Stores env s s' := by
  rcases step_adds hsized h with ⟨pb, now, a, i, hadds, hadd⟩ | htree
  · exact addBlock_tree hp (hadds.faithful hsized) hadd
  · exact .inl htree

theorem TreeSound.rooted {accept : PreparedBlock → Prop} (ht : s.TreeSound env accept) :
    s.chain.tree.Rooted env := by
  refine ⟨fun h ↦ ht.coherent.hash h, fun {bid info} hinfo hne ↦ ?_⟩
  obtain ⟨pb, prevInfo, rfl, horigin⟩ := ht.sound _ _ hinfo
  have hparent := horigin.parent
  unfold Tree.Parent at hparent
  rw [if_neg hne, ← horigin.previousBlockHash] at hparent
  exact ⟨prevInfo, hparent⟩

private theorem storeChecked_counted {accept : PreparedBlock → Prop} {pb : PreparedBlock} {now : Timestamp}
    {prevInfo info : Api.BlockHeader} (ht : s.TreeSound env accept) (h : s.chain.tree.Counted env)
    (hsize : s.chain.tree.headers.size + 1 < 2 ^ 32) (hfree : s.chain.tree.headers[pb.bid]? = none)
    (hne : pb.bid ≠ env.genesisBlockHash) (hparent : s.chain.tree.Parent env pb prevInfo)
    (hcheck : s.chain.checkStandaloneConsensus env pb now prevInfo (blockInfo pb prevInfo {}) true =
      .ok info) :
    ∃ stored, s.storeChecked env pb prevInfo info = .ok stored ∧ stored.chain.tree.Counted env ∧
      stored.chain.tree.headers = s.chain.tree.headers.insert pb.bid info := by
  have hsame := BlockChain.sameBlock_of_checked hcheck
  have hhash : info.hash = pb.bid := hsame.hash
  have hprev : info.previousBlockHash = pb.block.header.previousBlockHash := hsame.previousBlockHash
  unfold Tree.Parent at hparent
  rw [if_neg hne, ← hprev] at hparent
  rw [← hhash] at hfree hne
  obtain ⟨hcounter, hcounted⟩ := h.store pb.blockData ht.rooted hfree hne hparent hsize
  rw [hhash] at hcounter hcounted hfree hne
  rw [hprev] at hcounter
  rw [Tree.counted, hhash, hprev] at hcounted
  set t₁ := (s.chain.tree.store pb.bid pb.blockData info).modifyChildrenCounter
    prevInfo.cumulativeDifficulty pb.block.header.previousBlockHash 1 with ht₁
  refine ⟨(s.withTree t₁).withTree (t₁.modifyChildrenCounter info.cumulativeDifficulty pb.bid (-1)),
    (storeChecked_eq_ok ht.coherent).mpr ⟨hfree, s.withTree t₁, ?_, hcounter, rfl⟩, hcounted, ?_⟩
  · rw [if_neg hne]
  · rw [withTree_tree, Tree.modifyChildrenCounter_headers, ht₁, Tree.modifyChildrenCounter_headers]
    rfl

/-! ## What pruning keeps -/

/-- No header is cached whose block was deleted. -/
def NoneStale (s : State) : Prop := ∀ (bid : Hash) (header : Api.BlockHeader),
  s.chain.headerCache[bid]? = some header → (s.chain.tree.headers[bid]?).isSome

/-- A node that prunes: without its cache it is sound, its counters are exact, and the cache agrees
with the database about every block that is still there. -/
structure Tended (env : Env) (s : State) : Prop where
  treeSound : s.dbCommit.TreeSound env fun _ ↦ True
  ready : s.dbCommit.Ready env
  proper : s.dbCommit.Proper env
  counted : s.chain.tree.Counted env
  small : s.chain.tree.headers.size < 2 ^ 32
  cache : ∀ {bid : Hash} {h h' : Api.BlockHeader}, s.chain.headerCache[bid]? = some h →
    s.chain.tree.headers[bid]? = some h' → h = h'

theorem Tended.coherent (h : s.Tended env) (hstale : s.NoneStale) : s.chain.Coherent := by
  refine ⟨h.treeSound.coherent.block, h.treeSound.coherent.hash, fun {b header} hb ↦ ?_,
    h.treeSound.coherent.window⟩
  obtain ⟨header', hheader'⟩ := Option.isSome_iff_exists.mp (hstale b header hb)
  rw [hheader', h.cache hb hheader']

theorem Tended.sound (h : s.Tended env) (hstale : s.NoneStale) :
    s.TreeSound env (fun _ ↦ True) ∧ s.Ready env ∧ s.Proper env :=
  ⟨⟨h.coherent hstale, h.treeSound.sound⟩, h.ready.congr rfl rfl rfl,
    ⟨h.coherent hstale, h.proper.goes, h.proper.ledger⟩⟩

theorem Tended.of_moves {s₀ : State} (hsound : s₀.TreeSound env (fun _ ↦ True) ∧ s₀.Ready env ∧
    s₀.Proper env) (hmoves : Moves env (fun _ ↦ True) s₀ s) (hcounted : s.chain.tree.Counted env)
    (hsmall : s.chain.tree.headers.size < 2 ^ 32) : s.Tended env := by
  have hclear {s : State} : Move env (fun _ ↦ True) s s.dbCommit := .clearHeaderCache
  have hall := Moves.invariant (I := fun s ↦ s.TreeSound env (fun _ ↦ True) ∧ s.Ready env ∧
    s.Proper env) (fun s s' hmove hs ↦ ⟨hmove.treeSound hs.1, hmove.ready hs.1 hs.2.1,
      hmove.proper hs.2.2⟩) hmoves hsound
  refine ⟨hclear.treeSound hall.1, hclear.ready hall.1 hall.2.1, hclear.proper hall.2.2, hcounted,
    hsmall, fun hcached hstored ↦ ?_⟩
  exact Option.some.inj ((hall.1.coherent.cache hcached).symm.trans hstored)

private theorem counted_empty : Tree.Counted env {} := by
  refine ⟨fun h ↦ ?_, fun _ ↦ ?_, fun {cd bid} ↦ iff_of_false ?_ ?_⟩
  · cases (Std.ExtTreeMap.getElem?_empty).symm.trans h
  · change ((∅ : Table Hash UInt32)[_]?).getD 1 = 1
    rw [Std.ExtTreeMap.getElem?_empty]
    rfl
  · change ¬((∅ : Table (Difficulty ×ₗ Hash) Unit)[_]?).isSome
    rw [Std.ExtTreeMap.getElem?_empty]
    exact Bool.false_ne_true
  · rintro ⟨info, hinfo, -⟩
    cases (Std.ExtTreeMap.getElem?_empty).symm.trans hinfo

private theorem openEmpty_tree {now : Timestamp} (hopen : openEmpty env now = .ok s)
    (hready : s.Ready env) :
    s.chain.tree.Counted env ∧ s.chain.tree.headers.size < 2 ^ 32 := by
  obtain ⟨block, hblock, h⟩ := bind_eq_ok.mp hopen
  obtain ⟨pb, hpb, h⟩ := bind_eq_ok.mp h
  obtain ⟨p, hp, h⟩ := bind_eq_ok.mp h
  obtain ⟨_, _, h⟩ := bind_eq_ok.mp h
  obtain ⟨chain, hchain, h⟩ := bind_eq_ok.mp h
  cases h
  obtain ⟨_, _, _, _, rfl⟩ := BlockChain.tipChanged_eq_ok.mp hchain
  have hgenesis : GenesisBlock env pb := ⟨block, orFail_eq_ok.mp hblock, hpb⟩
  rcases addBlock_tree proper_empty hgenesis.faithful hp with htree | hstores
  · obtain ⟨info, hinfo⟩ := hready.genesis_header
    change p.1.chain.tree.headers[_]? = _ at hinfo
    rw [htree] at hinfo
    cases (Std.ExtTreeMap.getElem?_empty).symm.trans hinfo
  · obtain ⟨pb, _, prevInfo, info, stored, -, hfree, hparent, hcheck, hstored, htree⟩ := hstores
    have hbid : pb.bid = env.genesisBlockHash := by
      by_contra hne
      unfold Tree.Parent at hparent
      rw [if_neg hne] at hparent
      cases (Std.ExtTreeMap.getElem?_empty).symm.trans hparent
    have hhash : info.hash = pb.bid := (BlockChain.sameBlock_of_checked hcheck).hash
    have hempty : State.TreeSound env (fun _ ↦ True) {} := treeSound_empty
    obtain ⟨-, s₁, hs₁, -, rfl⟩ := (storeChecked_eq_ok hempty.coherent).mp hstored
    rw [if_pos hbid] at hs₁
    have htree₁ := redoOnTip_tree hs₁
    rw [withTree_tree] at htree₁
    have hfound := counted_empty.found pb.blockData hempty.rooted (by rw [hhash]; exact hfree)
      (hhash.trans hbid)
    change p.1.chain.tree.Counted env ∧ p.1.chain.tree.headers.size < 2 ^ 32
    rw [htree, withTree_tree, htree₁, Tree.modifyChildrenCounter_headers]
    rw [hhash] at hfound
    refine ⟨hfound, ?_⟩
    change (Std.ExtTreeMap.insert (∅ : Table Hash Api.BlockHeader) pb.bid info).size < 2 ^ 32
    rw [Table.size_insert_of_none _ Std.ExtTreeMap.getElem?_empty, Std.ExtTreeMap.size_empty]
    decide

private theorem tended_of_initial (h : Initial env s) : s.Tended env := by
  have hreachable : s.Reachable env fun _ _ ↦ True := .start h
  have hready := hreachable.ready (fun _ ↦ True) (fun _ _ ↦ trivial) fun _ _ _ _ _ _ ↦ trivial
  obtain ⟨now, hopen⟩ := h
  have hmoves := openEmpty_moves (fun _ ↦ True) (fun _ _ ↦ trivial) hopen
  obtain ⟨hcounted, hsmall⟩ := openEmpty_tree hopen hready
  exact .of_moves ⟨hmoves.treeSound, hready, hmoves.proper proper_empty⟩ .refl hcounted hsmall

/-! ## A block is pruned -/

private theorem lookUpHeader_of_stored {bc : BlockChain} {bid : Hash} {hint : Height}
    {header : Api.BlockHeader}
    (hwindow : ∀ {h : Api.BlockHeader}, h ∈ bc.tip.headerTipWindow →
      bc.tree.headers[h.hash]? = some h)
    (hcache : ∀ {b : Hash} {h h' : Api.BlockHeader}, bc.headerCache[b]? = some h →
      bc.tree.headers[b]? = some h' → h = h')
    (hstored : bc.tree.headers[bid]? = some header) :
    ∃ cache, bc.lookUpHeader env bid hint = (some header, { bc with headerCache := cache }) ∧
      ∀ {b : Hash} {h : Api.BlockHeader}, cache[b]? = some h →
        bc.headerCache[b]? = some h ∨ bc.tree.headers[b]? = some h := by
  unfold BlockChain.lookUpHeader
  cases hcandidate : (bc.windowCandidate hint).filter fun candidate ↦ candidate.hash = bid with
  | some candidate =>
    obtain ⟨hin, hhash⟩ := Option.filter_eq_some_iff.mp hcandidate
    have hsame := hwindow (BlockChain.mem_of_windowCandidate hin)
    rw [of_decide_eq_true hhash, hstored] at hsame
    cases hsame
    exact ⟨bc.headerCache, rfl, .inl⟩
  | none =>
    cases hcached : bc.headerCache[bid]? with
    | some h =>
      obtain rfl := hcache hcached hstored
      exact ⟨bc.headerCache, rfl, .inl⟩
    | none =>
      refine ⟨_, by rw [hstored], fun {b h} hb ↦ ?_⟩
      rw [Table.get_insert] at hb
      split_ifs at hb with heq
      · cases hb
        rw [← heq]
        exact .inr hstored
      · cases (Std.ExtTreeMap.getElem?_empty).symm.trans hb
      · exact .inl hb

/-- A block of the main chain below the tip has a child. -/
theorem Tended.leaf_not_main (h : s.Tended env) {height : Height} {bid : Hash}
    (hbid : s.chain.tip.tipChain[height]? = some bid) (hne : bid ≠ s.chain.tip.tipBid) :
    s.chain.tree.childCount env bid ≠ 0 := by
  have hmain : s.chain.Main := h.ready.main.congr rfl rfl rfl rfl rfl rfl
  have hle := UInt32.le_iff_toNat_le.mp (hmain.above hbid)
  have hlt : height.toNat ≠ s.chain.tip.tipHeight.toNat := by
    intro heq
    rw [UInt32.toNat_inj.mp heq, hmain.tip] at hbid
    exact hne (Option.some.inj hbid).symm
  have hmax := s.chain.tip.tipHeight.toNat_lt
  have hnext : (height + 1).toNat = height.toNat + 1 := toNat_add_one (by
    rintro rfl
    exact hlt (by simp only [UInt32.reduceToNat] at hle ⊢; omega))
  obtain ⟨b, hb⟩ := hmain.filled (h := height + 1) (by
    rw [UInt32.le_iff_toNat_le, hnext]
    omega)
  have hpos : height + 1 ≠ 0 := by
    intro hzero
    rw [hzero] at hnext
    simp at hnext
  obtain ⟨info, hinfo, hheight, hprev⟩ := hmain.entry hb
  have hprev' := hprev hpos
  rw [UInt32.add_sub_cancel, hbid] at hprev'
  have hgenesis : b ≠ env.genesisBlockHash := by
    rintro rfl
    have hzero := h.treeSound.genesis_height hinfo
    rw [hheight] at hzero
    exact hpos hzero
  have hchild := h.treeSound.rooted.childCount_pos hinfo hgenesis
  rw [← Option.some.inj hprev'] at hchild
  exact Nat.ne_of_gt hchild

private theorem Tended.pruneBranch_of_leaf (h : s.Tended env) {cd : Difficulty} {bid : Hash}
    {info : Api.BlockHeader} (hne : bid ≠ s.chain.tip.tipBid)
    (hinfo : s.chain.tree.headers[bid]? = some info) (hcd : info.cumulativeDifficulty = cd)
    (hleaf : s.chain.tree.childCount env bid = 0) :
    ∃ pa cache, s.chain.tree.headers[info.previousBlockHash]? = some pa ∧
      (∀ {b : Hash} {header : Api.BlockHeader}, cache[b]? = some header →
        s.chain.headerCache[b]? = some header ∨ s.chain.tree.headers[b]? = some header) ∧
      s.chain.pruneBranch env cd bid = .ok (true,
        { tree := s.chain.tree.pruned pa info, tip := s.chain.tip, headerCache := cache }) := by
  have hgenesis : bid ≠ env.genesisBlockHash := by
    rintro rfl
    exact h.leaf_not_main h.ready.root hne hleaf
  obtain ⟨pa, hpa⟩ := h.treeSound.rooted.parent hinfo hgenesis
  change s.chain.tree.headers[info.previousBlockHash]? = some pa at hpa
  have hhash : info.hash = bid := h.treeSound.coherent.hash hinfo
  have hcounter : s.chain.tree.childrenCounter bid = 0 := by
    rw [h.counted.counters hinfo, hleaf]
    rfl
  have hcheck : s.chain.tree.checkChildrenCounter cd bid 0 = .ok () :=
    Tree.checkChildrenCounter_eq_ok.mpr ⟨hcounter, .inr (h.counted.tips.mpr ⟨info, hinfo, hcd, hleaf⟩),
      .inl hcounter⟩
  have hwindow : ∀ {x : Api.BlockHeader}, x ∈ s.chain.tip.headerTipWindow →
      s.chain.tree.headers[x.hash]? = some x := h.treeSound.coherent.window
  obtain ⟨cache, hlook, hcache⟩ : ∃ cache, s.chain.lookUpHeader env bid 0 = (some info, _) ∧ _ :=
    lookUpHeader_of_stored hwindow h.cache hinfo
  obtain ⟨cache', hlook', hcache'⟩ : ∃ cache', BlockChain.lookUpHeader env
      { s.chain with headerCache := cache } info.previousBlockHash 0 = (some pa, _) ∧ _ :=
    lookUpHeader_of_stored hwindow (fun {b x x'} hb hx ↦ by
      rcases hcache hb with hb | hb
      · exact h.cache hb hx
      · exact Option.some.inj (hb.symm.trans hx)) hpa
  obtain ⟨data, hdata⟩ : ∃ data, s.chain.tree.blocks[bid]? = some data := by
    obtain ⟨pb, _, rfl, horigin⟩ := h.treeSound.sound _ _ hinfo
    exact ⟨_, horigin.block⟩
  refine ⟨pa, cache', hpa, fun {b x} hb ↦ ?_, ?_⟩
  · rcases hcache' hb with hb | hb
    · exact hcache hb
    · exact .inr hb
  · unfold BlockChain.pruneBranch
    rw [if_neg hne]
    refine bind_eq_ok.mpr ⟨(), hcheck, ?_⟩
    dsimp only
    rw [hlook]
    refine bind_eq_ok.mpr ⟨info, rfl, ?_⟩
    rw [hlook']
    refine bind_eq_ok.mpr ⟨pa, rfl, ?_⟩
    rw [Tree.modifyChildrenCounter_blocks, Tree.modifyChildrenCounter_blocks,
      Tree.modifyChildrenCounter_headers, Tree.modifyChildrenCounter_headers]
    refine bind_eq_ok.mpr ⟨_, delOld_eq_ok.mpr ⟨⟨data, hdata⟩, rfl⟩, ?_⟩
    refine bind_eq_ok.mpr ⟨_, delOld_eq_ok.mpr ⟨⟨info, hinfo⟩, rfl⟩, ?_⟩
    rw [Tree.pruned, Tree.uncounted, hhash, hcd]
    rfl

private theorem Tended.leaf_of_pruneBranch (h : s.Tended env) {cd : Difficulty} {bid : Hash}
    {r : Bool × BlockChain} (hr : s.chain.pruneBranch env cd bid = .ok r)
    (hne : bid ≠ s.chain.tip.tipBid) : ∃ info : Api.BlockHeader,
      s.chain.tree.headers[bid]? = some info ∧ info.cumulativeDifficulty = cd ∧
        s.chain.tree.childCount env bid = 0 := by
  unfold BlockChain.pruneBranch at hr
  rw [if_neg hne] at hr
  obtain ⟨_, hcheck, -⟩ := bind_eq_ok.mp hr
  obtain ⟨hzero, htip, -⟩ := Tree.checkChildrenCounter_eq_ok.mp hcheck
  exact h.counted.tips.mp (htip.resolve_left fun hne ↦ hne hzero)

/-- **Pruning keeps what is left sound.** -/
theorem Tended.prune (h : s.Tended env) {bid : Hash} {info pa : Api.BlockHeader}
    {cache : Table Hash Api.BlockHeader} (hne : bid ≠ s.chain.tip.tipBid)
    (hinfo : s.chain.tree.headers[bid]? = some info) (hleaf : s.chain.tree.childCount env bid = 0)
    (hpa : s.chain.tree.headers[info.previousBlockHash]? = some pa)
    (hcache : ∀ {b : Hash} {header : Api.BlockHeader}, cache[b]? = some header →
      s.chain.headerCache[b]? = some header ∨ s.chain.tree.headers[b]? = some header)
    (hs' : s' = { s with chain :=
      { tree := s.chain.tree.pruned pa info, tip := s.chain.tip, headerCache := cache } }) :
    s'.Tended env := by
  have hhash : info.hash = bid := h.treeSound.coherent.hash hinfo
  have hrooted : s.chain.tree.Rooted env := h.treeSound.rooted
  have hgenesis : bid ≠ env.genesisBlockHash := by
    rintro rfl
    exact h.leaf_not_main h.ready.root hne hleaf
  have hmainNe {height : Height} {b : Hash} (hb : s.chain.tip.tipChain[height]? = some b) :
      bid ≠ b := by
    rintro rfl
    exact h.leaf_not_main hb hne hleaf
  have hheaders : s'.chain.tree.headers = s.chain.tree.headers.erase bid := by
    rw [hs', ← hhash]
    rfl
  have hblocks : s'.chain.tree.blocks = s.chain.tree.blocks.erase bid := by
    rw [hs', ← hhash]
    rfl
  have htip : s'.chain.tip = s.chain.tip := by rw [hs']
  have hledger : s'.ledger = s.ledger := by rw [hs']
  have hheader {b : Hash} {x : Api.BlockHeader} : s'.chain.tree.headers[b]? = some x ↔
      bid ≠ b ∧ s.chain.tree.headers[b]? = some x := by
    rw [hheaders, Table.get_erase]
    split_ifs with hb <;> simp [hb]
  have hblock {b : Hash} {x : Bytes} : s'.chain.tree.blocks[b]? = some x ↔
      bid ≠ b ∧ s.chain.tree.blocks[b]? = some x := by
    rw [hblocks, Table.get_erase]
    split_ifs with hb <;> simp [hb]
  have hmain : s.chain.Main := h.ready.main.congr rfl rfl rfl rfl rfl rfl
  have hcoherent : s'.dbCommit.chain.Coherent := by
    refine ⟨fun {b data} hb ↦ ?_, fun {b x} hb ↦ ?_, fun {b x} hb ↦ ?_, fun {x} hx ↦ ?_⟩
    · obtain ⟨hb', hold⟩ := hblock.mp hb
      obtain ⟨x, hx⟩ := h.treeSound.coherent.block hold
      exact ⟨x, hheader.mpr ⟨hb', hx⟩⟩
    · exact h.treeSound.coherent.hash (hheader.mp hb).2
    · cases (Std.ExtTreeMap.getElem?_empty).symm.trans hb
    · change x ∈ s'.chain.tip.headerTipWindow at hx
      rw [htip] at hx
      obtain ⟨i, hi⟩ := List.getElem?_of_mem hx
      exact hheader.mpr ⟨hmainNe (hmain.window hi).2, h.treeSound.coherent.window hx⟩
  refine ⟨⟨hcoherent, fun b x hx ↦ ?_⟩, ⟨?_, ?_, ?_⟩, ⟨hcoherent, fun hholds hok ↦ ?_, ?_⟩, ?_, ?_,
    fun {b x x'} hb hx ↦ ?_⟩
  · obtain ⟨hb, hold⟩ := hheader.mp hx
    obtain ⟨pb, prevInfo, rfl, horigin⟩ := h.treeSound.sound _ _ hold
    refine ⟨pb, prevInfo, rfl, horigin.faithful, trivial, hblock.mpr ⟨hb, horigin.block⟩, hx, ?_,
      horigin.checked⟩
    have hparent := horigin.parent
    unfold Tree.Parent at hparent ⊢
    split_ifs at hparent ⊢ with hzero
    · exact hparent
    · refine hheader.mpr ⟨fun heq ↦ ?_, hparent⟩
      have hchild := hrooted.childCount_pos hold hzero
      rw [horigin.previousBlockHash, ← heq, hleaf] at hchild
      exact absurd hchild (Nat.lt_irrefl 0)
  · have hentry {height : Height} {b : Hash} (hb : s.chain.tip.tipChain[height]? = some b) :
        ∃ x : Api.BlockHeader, s'.chain.tree.headers[b]? = some x ∧ x.height = height ∧
          (height ≠ 0 → s.chain.tip.tipChain[height - 1]? = some x.previousBlockHash) := by
      obtain ⟨x, hx, hrest⟩ := hmain.entry hb
      exact ⟨x, hheader.mpr ⟨hmainNe hb, hx⟩, hrest⟩
    change BlockChain.Main { s'.chain with headerCache := ∅ }
    refine ⟨?_, ?_, ?_, ?_, ?_, ?_⟩ <;> dsimp only <;> rw [htip]
    · exact hentry
    · exact hmain.filled
    · exact hmain.above
    · exact hmain.tip
    · exact hmain.window
    · exact hmain.work
  · change s'.chain.tip.tipChain[(0 : Height)]? = _
    rw [htip]
    exact h.ready.root
  · change ∃ gis, s'.ledger.index.blockGlobalIndices[_]? = some gis
    rw [hledger]
    exact h.ready.filed
  · exact h.proper.goes ⟨(hblock.mp hholds.blocks).2, hholds.data, hholds.block⟩ hok
  · change s'.ledger.Sound env
    rw [hledger]
    exact h.proper.ledger
  · rw [hs']
    exact h.counted.prune hrooted (by rw [hhash]; exact hinfo) (by rw [hhash]; exact hgenesis)
      (by rw [hhash]; exact hleaf) hpa h.small
  · have hsize := Table.size_of_get hinfo
    have hsmall := h.small
    rw [hheaders]
    omega
  · obtain ⟨-, hold⟩ := hheader.mp hx
    rw [hs'] at hb
    rcases hcache hb with hb | hb
    · exact h.cache hb hold
    · exact Option.some.inj (hb.symm.trans hold)

/-! ## Runs -/

end State

/-- Whether a step may add a block. -/
def Op.adds : Op → Bool
  | .addBlock _ _ _ => true
  | .addBlockData _ _ _ => true
  | .addMinedBlock _ _ => true
  | _ => false

/-- What keeps the tree in order: no block is added while a deleted one is still cached, nor when the
tree holds as many blocks as a counter can count. -/
def PruningOp.Careful (s : State) : PruningOp → Prop
  | .node op => op.adds → s.NoneStale ∧ s.chain.tree.headers.size + 1 < 2 ^ 32
  | .pruneBranch _ _ => True

namespace State

variable {env : Env} {s s' : State}

/-- A change outside of the chain. -/
theorem Tended.frame (h : s.Tended env) (hchain : s'.chain = s.chain) (hledger : s'.ledger.Sound env)
    (hfiled : s'.ledger.index.blockGlobalIndices = s.ledger.index.blockGlobalIndices) :
    s'.Tended env := by
  have hcommit : s'.dbCommit.chain = s.dbCommit.chain := by
    change { s'.chain with headerCache := ∅ } = { s.chain with headerCache := ∅ }
    rw [hchain]
  have hcoherent : s'.dbCommit.chain.Coherent := by
    rw [hcommit]
    exact h.treeSound.coherent
  refine ⟨⟨hcoherent, ?_⟩, h.ready.congr (by rw [hcommit]) (by rw [hcommit]) hfiled,
    h.proper.congr hcoherent (by rw [hcommit]) hledger, ?_, ?_, ?_⟩
  · rw [hcommit]
    exact h.treeSound.sound
  · rw [hchain]
    exact h.counted
  · rw [hchain]
    exact h.small
  · rw [hchain]
    exact h.cache

/-- A step that adds a block keeps the tree in order when nothing that was deleted is cached. -/
theorem Tended.add {op : Op} (h : s.Tended env) (hstale : s.NoneStale)
    (hsize : s.chain.tree.headers.size + 1 < 2 ^ 32) (hsized : op.Sized s)
    (hstep : s.step env op = .ok s') : s'.Tended env := by
  have hsound := h.sound hstale
  have hmoves := step_moves (fun _ ↦ True) hsound.2.2 hsized (fun _ _ ↦ trivial) hstep
  rcases step_tree hsound.2.2 hsized hstep with htree | hstores
  · refine .of_moves hsound hmoves ?_ ?_ <;> rw [htree]
    · exact h.counted
    · exact h.small
  · obtain ⟨pb, _, _, _, _, _, hfree, hparent, hcheck, hstored, htree⟩ := hstores
    have hne : pb.bid ≠ env.genesisBlockHash := by
      intro heq
      obtain ⟨info, hinfo⟩ := hsound.2.1.genesis_header
      rw [heq, hinfo] at hfree
      cases hfree
    obtain ⟨stored', hstored', hcounted, hheaders⟩ :=
      storeChecked_counted hsound.1 h.counted hsize hfree hne hparent hcheck
    cases hstored.symm.trans hstored'
    refine .of_moves hsound hmoves ?_ ?_ <;> rw [htree]
    · exact hcounted
    · rw [hheaders, Table.size_insert_of_none _ hfree]
      exact hsize

/-- **Every careful step of a node keeps the tree in order.** -/
theorem Tended.step {op : Op} (h : s.Tended env) (hsized : op.Sized s)
    (hcareful : PruningOp.Careful s (.node op)) (hstep : s.step env op = .ok s') : s'.Tended env := by
  by_cases hadds : op.adds
  · obtain ⟨hstale, hsize⟩ := hcareful hadds
    exact h.add hstale hsize hsized hstep
  -- the other steps leave the tree alone, and what is cached makes no difference to them
  cases op with
  | addBlock rawBlock context now => exact absurd rfl hadds
  | addBlockData blockData context now => exact absurd rfl hadds
  | addMinedBlock rawBlockTemplate now => exact absurd rfl hadds
  | addTransaction binaryTx =>
    obtain ⟨p, hp, hstep⟩ := bind_eq_ok.mp hstep
    cases hstep
    obtain ⟨tid, tx, hgoes, hadd⟩ := addBinaryTransaction_eq_ok hsized hp
    have hledger : s.ledger.Sound env := h.proper.ledger
    have hadded := addTransaction_sound hgoes hledger hadd
    obtain ⟨pool, version, hs'⟩ := addTransaction_frame hadd
    rw [hs'] at hadded ⊢
    exact h.frame rfl hadded rfl
  | createMiningBlockTemplate now adr extraNonce keys =>
    obtain ⟨p, hp, hstep⟩ := bind_eq_ok.mp hstep
    cases hstep
    obtain ⟨mining, hmining⟩ := createMiningBlockTemplate_frame hp
    rw [hmining]
    exact h.frame rfl h.proper.ledger rfl
  | cacheHeader bid =>
    cases hstep
    unfold cacheHeader
    split
    · rename_i header _ hheader
      refine ⟨h.treeSound, h.ready, h.proper, h.counted, h.small, fun {b x x'} hb hx ↦ ?_⟩
      change (s.chain.headerCache.insert bid header)[b]? = some x at hb
      rw [Table.get_insert] at hb
      split_ifs at hb with heq
      · subst heq
        cases hb
        exact Option.some.inj (hheader.symm.trans hx)
      · exact h.cache hb hx
    · exact h
  | clearHeaderCache =>
    cases hstep
    refine ⟨h.treeSound, h.ready, h.proper, h.counted, h.small, fun hb _ ↦ ?_⟩
    cases (Std.ExtTreeMap.getElem?_empty).symm.trans hb
  | cacheNextGlobalIndex amount =>
    cases hstep
    refine h.frame rfl ?_ rfl
    have hledger : s.ledger.Sound env := h.proper.ledger
    exact hledger.congr rfl fun _ _ hki ↦ hki
  | restart =>
    have hmove : Move env (fun _ ↦ True) s.dbCommit s' := .restart hstep
    have htree : s'.chain.tree = s.chain.tree := by
      obtain ⟨_, _, _, _, _, hchain, rfl⟩ := restart_eq_ok.mp hstep
      obtain ⟨_, _, _, _, rfl⟩ := BlockChain.tipChanged_eq_ok.mp hchain
      rfl
    refine .of_moves ⟨h.treeSound, h.ready, h.proper⟩ (.single hmove) ?_ ?_ <;> rw [htree]
    · exact h.counted
    · exact h.small

/-- **Every careful step of a node that prunes keeps the tree in order.** -/
theorem Tended.pruningStep {op : PruningOp} (h : s.Tended env) (hsized : op.Sized s)
    (hcareful : op.Careful s) (hstep : s.pruningStep env op = .ok s') : s'.Tended env := by
  cases op with
  | node op => exact h.step hsized hcareful hstep
  | pruneBranch cd bid =>
    obtain ⟨p, hp, hstep⟩ := bind_eq_ok.mp hstep
    cases hstep
    by_cases hne : bid = s.chain.tip.tipBid
    · unfold BlockChain.pruneBranch at hp
      rw [if_pos hne] at hp
      cases hp
      exact h
    · obtain ⟨info, hinfo, hcd, hleaf⟩ := h.leaf_of_pruneBranch hp hne
      obtain ⟨pa, cache, hpa, hcache, hpruned⟩ := h.pruneBranch_of_leaf hne hinfo hcd hleaf
      cases hp.symm.trans hpruned
      exact h.prune hne hinfo hleaf hpa hcache rfl

theorem ReachablePruning.tended
    (h : s.ReachablePruning env fun s op ↦ op.Careful s) : s.Tended env :=
  Reaches.invariant (fun _ hs ↦ tended_of_initial hs)
    (fun _ _ _ _ hs hguard hstep ↦ hs.pruningStep hguard.1 hguard.2 hstep) h

variable (env s) in
/-- The tree is in order: the counters and the index of tips are exact, every block has its parent, the
main chain is there and is not pruned, and neither the pruning of a tip nor the storing of a block that
passed the check fails. -/
structure TreeKept : Prop where
  counters : ∀ (bid : Hash) (info : Api.BlockHeader), s.chain.tree.headers[bid]? = some info →
    (s.chain.tree.childrenCounter bid).toNat = s.chain.tree.childCount env bid
  tips : ∀ (cd : Difficulty) (bid : Hash), (s.chain.tree.cdTips[toLex (cd, bid)]?).isSome ↔
    ∃ info : Api.BlockHeader, s.chain.tree.headers[bid]? = some info ∧
      info.cumulativeDifficulty = cd ∧ s.chain.tree.childCount env bid = 0
  parents : ∀ (bid : Hash) (info : Api.BlockHeader), s.chain.tree.headers[bid]? = some info →
    bid ≠ env.genesisBlockHash → (s.chain.tree.headers[info.previousBlockHash]?).isSome
  main : ∀ (height : Height) (bid : Hash), s.chain.tip.tipChain[height]? = some bid →
    (s.chain.tree.headers[bid]?).isSome ∧ (s.chain.tree.blocks[bid]?).isSome
  unpruned : ∀ (cd : Difficulty) (bid : Hash) (bc : BlockChain),
    s.chain.pruneBranch env cd bid = .ok (true, bc) →
      ∀ height : Height, s.chain.tip.tipChain[height]? ≠ some bid
  prunes : ∀ (cd : Difficulty) (bid : Hash), (s.chain.tree.cdTips[toLex (cd, bid)]?).isSome →
    ∃ r, s.chain.pruneBranch env cd bid = .ok r
  stores : s.NoneStale → s.chain.tree.headers.size + 1 < 2 ^ 32 → ∀ pb now prevInfo info,
    s.chain.tree.headers[pb.bid]? = none → s.chain.tree.Parent env pb prevInfo →
    s.chain.checkStandaloneConsensus env pb now prevInfo (blockInfo pb prevInfo {}) true = .ok info →
    ∃ stored, s.storeChecked env pb prevInfo info = .ok stored

theorem Tended.kept (h : s.Tended env) : s.TreeKept env := by
  have hmain : s.chain.Main := h.ready.main.congr rfl rfl rfl rfl rfl rfl
  have hrooted : s.chain.tree.Rooted env := h.treeSound.rooted
  refine ⟨fun bid info hinfo ↦ ?_, fun cd bid ↦ h.counted.tips, fun bid info hinfo hne ↦ ?_,
    fun height bid hbid ↦ ?_, fun cd bid bc hprune height hbid ↦ ?_, fun cd bid htip ↦ ?_,
    fun hstale hsize pb now prevInfo info hfree hparent hcheck ↦ ?_⟩
  · have hle := s.chain.tree.childCount_le_size env bid
    rw [h.counted.counters hinfo, toNat_ofNat_of_lt (hle.trans_lt h.small)]
  · obtain ⟨pa, hpa⟩ := hrooted.parent hinfo hne
    rw [hpa]
    rfl
  · obtain ⟨info, hinfo, -⟩ := hmain.entry hbid
    obtain ⟨pb, _, rfl, horigin⟩ := h.treeSound.sound _ _ hinfo
    have hblock : s.chain.tree.blocks[pb.bid]? = some pb.blockData := horigin.block
    rw [hinfo, hblock]
    exact ⟨rfl, rfl⟩
  · by_cases hne : bid = s.chain.tip.tipBid
    · unfold BlockChain.pruneBranch at hprune
      rw [if_pos hne] at hprune
      cases hprune
    · obtain ⟨_, _, _, hleaf⟩ := h.leaf_of_pruneBranch hprune hne
      exact h.leaf_not_main hbid hne hleaf
  · by_cases hne : bid = s.chain.tip.tipBid
    · unfold BlockChain.pruneBranch
      rw [if_pos hne]
      exact ⟨_, rfl⟩
    · obtain ⟨info, hinfo, hcd, hleaf⟩ := h.counted.tips.mp htip
      obtain ⟨_, _, _, _, hpruned⟩ := h.pruneBranch_of_leaf hne hinfo hcd hleaf
      exact ⟨_, hpruned⟩
  · have hne : pb.bid ≠ env.genesisBlockHash := by
      intro heq
      obtain ⟨info, hinfo⟩ := h.ready.genesis_header
      have hinfo' : s.chain.tree.headers[env.genesisBlockHash]? = some info := hinfo
      rw [← heq, hfree] at hinfo'
      cases hinfo'
    obtain ⟨stored, hstored, -⟩ :=
      storeChecked_counted (h.sound hstale).1 h.counted hsize hfree hne hparent hcheck
    exact ⟨stored, hstored⟩

/-- **The tree of a node that prunes with care is in order.** -/
theorem ReachablePruning.tree_kept (h : s.ReachablePruning env fun s op ↦ op.Careful s) :
    s.TreeKept env :=
  h.tended.kept

end State

/-! ## Examples -/

/-- A check that a step is careful. -/
def PruningOp.isCareful (s : State) : PruningOp → Bool
  | .node op => op.isSized && decide (s.chain.headerCache.size = 0) &&
    decide (s.chain.tree.headers.size + 1 < 2 ^ 32)
  | .pruneBranch _ _ => true

private theorem PruningOp.careful_of_isCareful (s : State) (op : PruningOp) (h : op.isCareful s = true) :
    op.Sized s ∧ op.Careful s := by
  cases op with
  | node op =>
    rw [isCareful, Bool.and_eq_true, Bool.and_eq_true, decide_eq_true_eq, decide_eq_true_eq] at h
    obtain ⟨⟨hsized, hempty⟩, hsize⟩ := h
    refine ⟨State.sized_of_isSized hsized s, fun _ ↦ ⟨fun bid header hcached ↦ ?_, hsize⟩⟩
    have hpos := Table.size_of_get hcached
    omega
  | pruneBranch cd bid => exact ⟨trivial, trivial⟩

/-- A check that a step is sized. -/
def PruningOp.isSized (_ : State) : PruningOp → Bool
  | .node op => op.isSized
  | .pruneBranch _ _ => true

theorem PruningOp.sized_of_isSized (s : State) (op : PruningOp) (h : op.isSized s = true) :
    op.Sized s ∧ True := by
  cases op with
  | node op => exact ⟨State.sized_of_isSized h s, trivial⟩
  | pruneBranch cd bid => exact ⟨trivial, trivial⟩

/-- A main chain of two blocks and a block beside it, which is pruned. -/
def sampleBranch (env : Env) : List PruningOp :=
  [.node (.addBlock (sampleBlock env 1 env.genesisBlockHash sampleReward 7 []) false 0),
   .node (.addBlock (sampleBlock env 2 0x701 sampleReward₂ 8 []) false 0),
   .node (.addBlock (sampleBlock env 1 env.genesisBlockHash sampleReward 9 []) false 0),
   .pruneBranch 1001 0x901]

/-- A block on top of the pruned one. -/
def sampleOrphan (env : Env) : PruningOp :=
  .node (.addBlock (sampleBlock env 2 0x901 sampleReward₂ 10 []) false 0)

namespace State

theorem tree_kept_sample : ∃ s : State, s.chain.tree.headers[(0x901 : Hash)]? = none ∧
    s.TreeKept (.lax 5) := by
  obtain ⟨s, hs, hp⟩ := exists_reachablePruning (.lax 5) _ _ 0 (sampleBranch (.lax 5))
    (fun s ↦ decide (s.chain.tree.headers[(0x901 : Hash)]? = none))
    PruningOp.careful_of_isCareful (by decide +kernel)
  exact ⟨s, of_decide_eq_true hp, ReachablePruning.tree_kept hs⟩

/-- A block was added on top of one that had been pruned. -/
theorem tree_not_kept : ∃ (s : State) (info : Api.BlockHeader),
    (s.ReachablePruning (.lax 5) fun _ _ ↦ True) ∧
    s.chain.tree.headers[(0xA01 : Hash)]? = some info ∧
    (0xA01 : Hash) ≠ (Env.lax 5).genesisBlockHash ∧
    ¬(s.chain.tree.headers[info.previousBlockHash]?).isSome := by
  obtain ⟨s, hs, hp⟩ := exists_reachablePruning (.lax 5) (fun _ _ ↦ True) _ 0
    (sampleBranch (.lax 5) ++ [sampleOrphan (.lax 5)])
    (fun s ↦ decide ((0xA01 : Hash) ≠ (Env.lax 5).genesisBlockHash ∧
      ∃ info ∈ s.chain.tree.headers[(0xA01 : Hash)]?,
        ¬(s.chain.tree.headers[info.previousBlockHash]?).isSome))
    PruningOp.sized_of_isSized (by decide +kernel)
  obtain ⟨hne, info, hinfo, hprev⟩ := of_decide_eq_true hp
  exact ⟨s, info, hs, hinfo, hne, hprev⟩

end State

end CryoNero
