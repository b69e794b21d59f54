import CryoNero.Chain.Moves

/-!
# Steps are made of moves

Adding a block is taken apart along its code: the block is stored, and then it is either redone on
the tip or its branch replaces the top of the main chain. All that is needed to see that each part is
a move is that the tree does not change after the block was stored.
-/

namespace CryoNero

open Seria Store

namespace State

variable {env : Env} (accept : PreparedBlock → Prop) {s s' : State}

/-! ## What leaves the tree alone -/

theorem pushChain_tree {bc bc' : BlockChain} {header : Api.BlockHeader}
    (h : bc.pushChain env header = .ok bc') : bc'.tree = bc.tree := by
  obtain ⟨_, _, _, _, rfl⟩ := BlockChain.tipChanged_eq_ok.mp (BlockChain.pushChain_eq_ok.mp h).2
  rfl

theorem redoOnTip_tree {bid : Hash} {blockData : Bytes} {rawBlock : RawBlock} {block : Block}
    {info : Api.BlockHeader} {tid : Hash}
    (h : s.redoOnTip env bid blockData rawBlock block info tid = .ok (some s')) :
    s'.chain.tree = s.chain.tree := by
  obtain ⟨_, chain, -, hpush, rfl⟩ := redoOnTip_eq_some.mp h
  exact pushChain_tree hpush

theorem undoTip_tree {undone undone' : UndoneTransactions}
    (h : s.undoTip env undone = .ok (s', undone')) : s'.chain.tree = s.chain.tree := by
  obtain ⟨_, _, _, _, chain₁, chain, -, -, -, -, hpop, hchain, rfl⟩ := undoTip_eq_ok.mp h
  obtain ⟨-, -, -, -, _, _, -, rfl, -⟩ := BlockChain.popChain_eq_ok.mp hpop
  obtain ⟨_, _, _, _, rfl⟩ := BlockChain.tipChanged_eq_ok.mp hchain
  rfl

/-! ## The pool after a reorganization -/

theorem readdTransactions_moves {txs : List (Hash × Transaction × Bytes)}
    (hgoes : ∀ p ∈ txs, p.2.1.Goes env p.1 p.2.2) (h : readdTransactions env s txs = .ok s') :
    Moves env accept s s' ∧ s'.chain = s.chain ∧ s'.ledger.index = s.ledger.index := by
  refine foldlM_ok (fun _ t ↦ Moves env accept s t ∧ t.chain = s.chain ∧
    t.ledger.index = s.ledger.index) h ⟨.refl, rfl, rfl⟩ ?_
  intro done x rest t t' hl ⟨hmoves, hchain, hindex⟩ hx
  obtain ⟨q, hq, hx⟩ := bind_eq_ok.mp hx
  cases hx
  obtain ⟨pool, version, hq₁⟩ := addTransaction_frame hq
  refine ⟨hmoves.tail (.transact (hgoes x (by rw [hl]; simp)) hq), ?_, ?_⟩
  · rw [hq₁]
    exact hchain
  · rw [hq₁]
    exact hindex

/-- The transactions of undone blocks go with the hashes they are kept under. -/
def UndoneTransactions.Goes (env : Env) (undone : UndoneTransactions) : Prop :=
  ∀ (tid : Hash) (p : Transaction × Bytes), undone[tid]? = some p → p.1.Goes env tid p.2

theorem onReorganization_moves {undone : UndoneTransactions} {undoneBlocks : Bool}
    (hp : s.Proper env) (hundone : undone.Goes env) (h : s.onReorganization env undone undoneBlocks = .ok s') :
    Moves env accept s s' ∧ s'.chain = s.chain ∧ s'.ledger.index = s.ledger.index := by
  have hkept (p : Hash × Transaction × Bytes) (hmem : p ∈ undone.toList) :
      p.2.1.Goes env p.1 p.2.2 := hundone _ _ (Table.mem_toList.mp hmem)
  have hpool (p : Hash × Transaction × Bytes) (hmem : p ∈ s.ledger.pool.stateTx.toList.map fun p ↦
      (p.1, p.2.tx, p.2.binaryTx)) : p.2.1.Goes env p.1 p.2.2 := by
    obtain ⟨⟨tid, entry⟩, hentry, rfl⟩ := List.mem_map.mp hmem
    exact hp.ledger.pool.goes (Table.mem_toList.mp hentry)
  unfold onReorganization at h
  split_ifs at h with hblocks
  · obtain ⟨s₁, h₁, h⟩ := bind_eq_ok.mp h
    obtain ⟨s₂, h₂, h⟩ := bind_eq_ok.mp h
    cases h
    obtain ⟨hm₁, hc₁, hi₁⟩ := readdTransactions_moves accept hpool h₁
    obtain ⟨hm₂, hc₂, hi₂⟩ := readdTransactions_moves accept hkept h₂
    exact ⟨(((Relation.ReflTransGen.single .emptyPool).trans hm₁).trans hm₂).tail .version,
      hc₂.trans hc₁, hi₂.trans hi₁⟩
  · obtain ⟨s₁, h₁, h⟩ := bind_eq_ok.mp h
    cases h₁
    obtain ⟨s₂, h₂, h⟩ := bind_eq_ok.mp h
    cases h
    obtain ⟨hm₂, hc₂, hi₂⟩ := readdTransactions_moves accept hkept h₂
    exact ⟨hm₂.tail .version, hc₂, hi₂⟩

/-! ## Reorganizations -/

private theorem keepUndone_goes {undone undone' : UndoneTransactions} {rawBlock : RawBlock} {block : Block}
    (hundone : undone.Goes env) (hgoes : block.Goes env rawBlock)
    (h : keepUndone undone rawBlock block = .ok undone') : undone'.Goes env := by
  refine foldlM_ok (fun _ (t : UndoneTransactions) ↦ t.Goes env) h hundone ?_
  rintro done ⟨tx, i⟩ rest t t' hl ht hx
  obtain ⟨tid, htid, hx⟩ := bind_eq_ok.mp hx
  obtain ⟨binaryTx, hbinary, hx⟩ := bind_eq_ok.mp hx
  rw [orFail_eq_ok] at htid hbinary
  cases hx
  have htx : block.transactions[i]? = some tx := by
    have hmem : (tx, i) ∈ block.transactions.zipIdx := by
      rw [hl]
      simp
    exact (List.mem_zipIdx_iff_getElem?).mp hmem
  by_cases hthere : (t[tid]?).isSome = true
  · rw [if_pos hthere]
    exact ht
  · rw [if_neg hthere]
    intro a p ha
    rw [Table.get_insert] at ha
    split_ifs at ha with htid'
    · cases ha
      rw [← htid']
      exact hgoes i tid tx binaryTx htid htx hbinary
    · exact ht a p ha

theorem undoTo_moves {common : Hash} : ∀ {fuel : ℕ} {s s' : State}
    {undone undone' : UndoneTransactions}, s.Proper env → undone.Goes env →
    undoTo env common fuel s undone = .ok (s', undone') →
    Moves env accept s s' ∧ s'.chain.tree = s.chain.tree ∧ s'.chain.tip.tipBid = common ∧
      undone'.Goes env := by
  intro fuel
  induction fuel with
  | zero => intro s s' undone undone' _ _ h; cases h
  | succ fuel ih =>
    intro s s' undone undone' hp hundone h
    rw [undoTo] at h
    split_ifs at h with htip
    · cases h
      exact ⟨.refl, rfl, htip, hundone⟩
    · obtain ⟨⟨s₁, undone₁⟩, hundo, h⟩ := bind_eq_ok.mp h
      have hmove : Move env accept s s₁ := .undo hundo
      obtain ⟨_, rawBlock, block, _, _, _, hholds, hread, -, hkept, -⟩ := undoTip_eq_ok.mp hundo
      have hgoes : block.Goes env rawBlock := hp.goes hholds (by rw [hread])
      obtain ⟨hmoves, htree, hcommon, hundone'⟩ :=
        ih (hmove.proper hp) (keepUndone_goes hundone hgoes hkept) h
      exact ⟨.head hmove hmoves, htree.trans (undoTip_tree hundo), hcommon, hundone'⟩

/-- The block just added is in the tree, with the header that was filled in. -/
structure Stored (env : Env) (t : Tree) (pb : PreparedBlock) (info : Api.BlockHeader) : Prop where
  holds : t.Holds pb.bid pb.blockData pb.rawBlock pb.block
  header : t.headers[pb.bid]? = some info
  coinbase : getTransactionHash env.crypto pb.block.header.baseTransaction =
    some pb.baseTransactionHash

/-- A block of the branch that is redone: where it comes from, and that it follows the tip. -/
theorem redoBranchBlock_eq_some {recentPb : PreparedBlock} {recentInfo : Api.BlockHeader}
    {chha : Hash} {block : Block} (hc : s.chain.Coherent)
    (hstored : Stored env s.chain.tree recentPb recentInfo)
    (h : s.redoBranchBlock env recentPb recentInfo chha = .ok (some (s', block))) :
    ∃ blockData rawBlock info tid, s.chain.tree.Holds chha blockData rawBlock block ∧
      s.chain.tree.headers[chha]? = some info ∧
      getTransactionHash env.crypto block.header.baseTransaction = some tid ∧
      block.header.previousBlockHash = s.chain.tip.tipBid ∧
      s.redoOnTip env chha blockData rawBlock block info tid = .ok (some s') := by
  unfold redoBranchBlock at h
  split_ifs at h with hchha
  · subst hchha
    obtain ⟨_, hprev, h⟩ := bind_eq_ok.mp h
    obtain ⟨next, hnext, h⟩ := bind_eq_ok.mp h
    cases next with
    | none => cases h
    | some s₁ =>
      cases h
      exact ⟨_, _, _, _, hstored.holds, hstored.header, hstored.coinbase, ensure_eq_ok.mp hprev,
        hnext⟩
  · obtain ⟨stored, hread, h⟩ := bind_eq_ok.mp h
    cases stored with
    | none => cases h
    | some p =>
      obtain ⟨hblocks, hdata⟩ := Tree.readBlock_eq_ok.mp hread
      dsimp only at h
      split_ifs at h with hok
      · cases h
      · obtain ⟨_, hprev, h⟩ := bind_eq_ok.mp h
        obtain ⟨info, hinfo, h⟩ := bind_eq_ok.mp h
        obtain ⟨tid, htid, h⟩ := bind_eq_ok.mp h
        obtain ⟨next, hnext, h⟩ := bind_eq_ok.mp h
        cases next with
        | none => cases h
        | some s₁ =>
          cases h
          exact ⟨_, _, info, tid, ⟨hblocks, hdata, rfl⟩, hc.readHeader!_eq_ok.mp hinfo,
            orFail_eq_ok.mp htid, ensure_eq_ok.mp hprev, hnext⟩

private theorem forgetUndone_goes {undone : UndoneTransactions} (hundone : undone.Goes env)
    (block : Block) :
    (forgetUndone undone block).Goes env := by
  unfold forgetUndone
  generalize block.header.transactionHashes = tids
  induction tids generalizing undone with
  | nil => exact hundone
  | cons tid tids ih =>
    refine ih fun a p ha ↦ hundone a p ?_
    rw [Table.get_erase] at ha
    split_ifs at ha
    exact ha

theorem redoBranch_moves {recentPb : PreparedBlock} {recentInfo : Api.BlockHeader} :
    ∀ {branch : List Hash} {s s' : State} {undone undone' : UndoneTransactions} {all : Bool},
    s.chain.Coherent → Stored env s.chain.tree recentPb recentInfo → undone.Goes env →
    redoBranch env recentPb recentInfo branch s undone = .ok (s', undone', all) →
    Moves env accept s s' ∧ s'.chain.tree = s.chain.tree ∧ undone'.Goes env := by
  intro branch
  induction branch with
  | nil =>
    intro s s' undone undone' all _ _ hundone h
    cases h
    exact ⟨.refl, rfl, hundone⟩
  | cons chha rest ih =>
    intro s s' undone undone' all hc hstored hundone h
    rw [redoBranch] at h
    obtain ⟨p, hp, h⟩ := bind_eq_ok.mp h
    cases p with
    | none =>
      cases h
      exact ⟨.refl, rfl, hundone⟩
    | some p =>
      obtain ⟨s₁, block⟩ := p
      obtain ⟨_, _, _, _, hholds, hinfo, htid, hprev, hredo⟩ := redoBranchBlock_eq_some hc hstored hp
      have hmove : Move env accept s s₁ := .redo hholds hinfo htid hprev hredo
      have htree := redoOnTip_tree hredo
      obtain ⟨hmoves, htree', hundone'⟩ := ih (hmove.coherent hc) (by rw [htree]; exact hstored)
        (forgetUndone_goes hundone block) h
      exact ⟨.head hmove hmoves, htree'.trans htree, hundone'⟩

theorem reorganizeBlocks_moves {switchToChain : Hash} {recentPb : PreparedBlock}
    {recentInfo : Api.BlockHeader} {all : Bool} (hp : s.Proper env)
    (hstored : Stored env s.chain.tree recentPb recentInfo)
    (h : s.reorganizeBlocks env switchToChain recentPb recentInfo = .ok (s', all)) :
    Moves env accept s s' ∧ s'.chain.tree = s.chain.tree := by
  unfold reorganizeBlocks at h
  obtain ⟨p, _, h⟩ := bind_eq_ok.mp h
  split_ifs at h with hthere
  · cases h
    exact ⟨.refl, rfl⟩
  · obtain ⟨q, hq, h⟩ := bind_eq_ok.mp h
    obtain ⟨r, hr, h⟩ := bind_eq_ok.mp h
    obtain ⟨s₁, h₁, h⟩ := bind_eq_ok.mp h
    cases h
    have hnone : UndoneTransactions.Goes env ∅ := fun _ _ hget ↦ by
      cases (Std.ExtTreeMap.getElem?_empty).symm.trans hget
    obtain ⟨hundo, htree, -, hundone⟩ := undoTo_moves accept hp hnone hq
    obtain ⟨hredo, htree', hundone'⟩ := redoBranch_moves accept (hundo.proper hp).coherent
      (by rw [htree]; exact hstored) hundone hr
    obtain ⟨hpool, hchain, -⟩ := onReorganization_moves accept (Moves.proper (hundo.trans hredo) hp)
      hundone' h₁
    exact ⟨(hundo.trans hredo).trans hpool, by rw [hchain, htree', htree]⟩

/-! ## Adding a block -/

theorem storeChecked_eq_ok {pb : PreparedBlock} {prevInfo info : Api.BlockHeader}
    (hc : s.chain.Coherent) : s.storeChecked env pb prevInfo info = .ok s' ↔
      s.chain.tree.headers[pb.bid]? = none ∧ ∃ s₁ : State,
        (if pb.bid = env.genesisBlockHash then
          (s.withTree (s.chain.tree.store pb.bid pb.blockData info)).redoOnTip env pb.bid
            pb.blockData pb.rawBlock pb.block info pb.baseTransactionHash = .ok (some s₁)
        else s₁ = s.withTree ((s.chain.tree.store pb.bid pb.blockData info).modifyChildrenCounter
          prevInfo.cumulativeDifficulty pb.block.header.previousBlockHash 1)) ∧
        s₁.chain.tree.checkChildrenCounter info.cumulativeDifficulty pb.bid 1 = .ok () ∧
        s' = s₁.withTree
          (s₁.chain.tree.modifyChildrenCounter info.cumulativeDifficulty pb.bid (-1)) := by
  cases hnone : s.chain.tree.headers[pb.bid]? with
  | some old =>
    simp only [reduceCtorEq, false_and, iff_false]
    intro h
    unfold storeChecked at h
    split_ifs at h <;>
    · obtain ⟨t, ht, h⟩ := bind_eq_ok.mp h
      obtain ⟨t', ht', h⟩ := bind_eq_ok.mp h
      obtain ⟨_, hheaders, -⟩ := bind_eq_ok.mp ht'
      have hfree := (putNew_eq_ok.mp hheaders).1
      have hsame : t.headers = s.chain.tree.headers := by
        first
        | cases ht
          rfl
        | obtain ⟨_, -, ht⟩ := bind_eq_ok.mp ht
          cases ht
          rfl
      rw [hsame, hnone] at hfree
      cases hfree
  | none =>
    have hblocks : s.chain.tree.blocks[pb.bid]? = none := by
      cases hb : s.chain.tree.blocks[pb.bid]? with
      | none => rfl
      | some data =>
        obtain ⟨_, hh⟩ := hc.block hb
        rw [hnone] at hh
        cases hh
    have hhas : ¬s.chain.tree.hasBlock pb.bid = true := by
      rw [Tree.hasBlock, hblocks]
      simp
    have hblock : s.chain.tree.storeBlock pb.bid pb.blockData = .ok
        { s.chain.tree with blocks := s.chain.tree.blocks.insert pb.bid pb.blockData } :=
      bind_eq_ok.mpr ⟨_, putNew_eq_ok.mpr ⟨hblocks, rfl⟩, rfl⟩
    have hheader : Tree.storeHeader
        { s.chain.tree with blocks := s.chain.tree.blocks.insert pb.bid pb.blockData } pb.bid info =
          .ok (s.chain.tree.store pb.bid pb.blockData info) :=
      bind_eq_ok.mpr ⟨_, putNew_eq_ok.mpr ⟨hnone, rfl⟩, rfl⟩
    unfold storeChecked
    simp only [if_neg hhas, hblock, ok_bind, hheader, true_and]
    split_ifs with hgenesis
    · constructor
      · intro h
        obtain ⟨next, hnext, h⟩ := bind_eq_ok.mp h
        obtain ⟨s₁, hs₁, h⟩ := bind_eq_ok.mp h
        obtain ⟨_, hcheck, h⟩ := bind_eq_ok.mp h
        cases h
        rw [orFail_eq_ok] at hs₁
        exact ⟨s₁, by rw [hnext, hs₁], hcheck, rfl⟩
      · rintro ⟨s₁, hnext, hcheck, rfl⟩
        exact bind_eq_ok.mpr ⟨_, hnext, bind_eq_ok.mpr ⟨s₁, rfl, bind_eq_ok.mpr ⟨_, hcheck, rfl⟩⟩⟩
    · constructor
      · intro h
        obtain ⟨_, hcheck, h⟩ := bind_eq_ok.mp h
        cases h
        exact ⟨_, rfl, hcheck, rfl⟩
      · rintro ⟨_, rfl, hcheck, rfl⟩
        exact bind_eq_ok.mpr ⟨_, hcheck, rfl⟩

/-- **What becomes of a block**: nothing changes, or it passes the check, is stored and adopted. -/
theorem addBlock_cases {now : Timestamp} {pb : PreparedBlock} {a : BroadcastAction}
    {i : Api.BlockHeader} (hc : s.chain.Coherent) (h : s.addBlock env now pb = .ok (s', a, i)) :
    (s' = s ∧ a ≠ .broadcastAll) ∨
    ∃ prevInfo info stored p, s.chain.tree.headers[pb.bid]? = none ∧
      s.chain.tree.Parent env pb prevInfo ∧
      s.chain.checkStandaloneConsensus env pb now prevInfo (blockInfo pb prevInfo {}) true =
        .ok info ∧
      s.storeChecked env pb prevInfo info = .ok stored ∧ stored.adoptBlock env pb info = .ok p ∧
      i = info ∧
      (p.2 = false ∧ s' = p.1 ∧ a = .ban ∨ p.2 = true ∧ (s' = p.1 ∨ s' = p.1.dbCommit) ∧
        a = if info.hash = s'.chain.tip.tipBid then .broadcastAll else .nothing) := by
  unfold addBlock at h
  dsimp only at h
  by_cases hold : s.chain.tree.hasBlock pb.bid = true ∧ (s.chain.readHeader pb.bid 0).isSome = true
  · rw [if_pos hold] at h
    cases h
    exact .inl ⟨rfl, by decide⟩
  rw [if_neg hold] at h
  cases hprev : (if pb.bid = env.genesisBlockHash then
      some ({ height := 0xFFFFFFFF } : Api.BlockHeader)
      else s.chain.readHeader pb.block.header.previousBlockHash 0) with
  | none =>
    rw [hprev] at h
    cases h
    exact .inl ⟨rfl, by decide⟩
  | some prevInfo =>
    rw [hprev] at h
    dsimp only at h
    cases hcheck : s.chain.checkStandaloneConsensus env pb now prevInfo
        (blockInfo pb prevInfo ((s.chain.readHeader pb.bid 0).getD {})) true with
    | error refusal =>
      rw [hcheck] at h
      cases refusal with
      | fault f => cases h
      | refuse e info =>
        cases h
        exact .inl ⟨rfl, by decide⟩
    | ok info =>
      rw [hcheck] at h
      obtain ⟨stored, hstored, h⟩ := bind_eq_ok.mp h
      obtain ⟨p, hp, h⟩ := bind_eq_ok.mp h
      have hnone := ((storeChecked_eq_ok hc).mp hstored).1
      rw [hc.readHeader_eq, hnone] at hcheck
      refine .inr ⟨prevInfo, info, stored, p, hnone, ?_, hcheck, hstored, hp, ?_⟩
      · unfold Tree.Parent
        split_ifs at hprev ⊢ with hgenesis
        · exact (Option.some.inj hprev).symm
        · rw [← hc.readHeader_eq _ 0]
          exact hprev
      · by_cases hp₂ : p.2 = false
        · rw [if_pos hp₂] at h
          cases h
          exact ⟨rfl, .inl ⟨hp₂, rfl, rfl⟩⟩
        · rw [if_neg hp₂] at h
          by_cases hcommit : p.1.chain.tip.tipHeight % commitEveryNBlocks = commitEveryNBlocks - 1
          · rw [if_pos hcommit] at h
            cases h
            exact ⟨rfl, .inr ⟨by simpa using hp₂, .inr rfl, rfl⟩⟩
          · rw [if_neg hcommit] at h
            cases h
            exact ⟨rfl, .inr ⟨by simpa using hp₂, .inl rfl, rfl⟩⟩

/-- Storing a checked block is made of moves, and leaves the block in the tree. -/
theorem storeChecked_moves {now : Timestamp} {pb : PreparedBlock}
    {prevInfo info : Api.BlockHeader} (hc : s.chain.Coherent) (hpb : pb.Faithful env)
    (hacc : accept pb) (hparent : s.chain.tree.Parent env pb prevInfo)
    (hcheck : s.chain.checkStandaloneConsensus env pb now prevInfo (blockInfo pb prevInfo {}) true =
      .ok info)
    (h : s.storeChecked env pb prevInfo info = .ok s') :
    Moves env accept s s' ∧ Stored env s'.chain.tree pb info := by
  obtain ⟨hnone, s₁, hs₁, hcount, rfl⟩ := (storeChecked_eq_ok hc).mp h
  set t := s.chain.tree.store pb.bid pb.blockData info with ht
  have hheader : t.headers[pb.bid]? = some info := Table.get_insert_self _ _ _
  have hstored {t' : Tree} (hb : t'.blocks = t.blocks) (hh : t'.headers = t.headers) :
      Stored env t' pb info := by
    refine ⟨⟨?_, hpb.data, hpb.block⟩, ?_, ?_⟩
    · rw [hb]
      exact Table.get_insert_self _ _ _
    · rw [hh]
      exact hheader
    · obtain ⟨coinbaseTx, htx, hhash, -⟩ := hpb.coinbase
      rw [getTransactionHash, htx, hhash]
      rfl
  split_ifs at hs₁ with hgenesis
  · have htree : s₁.chain.tree = t := redoOnTip_tree hs₁
    have hself : (s₁.chain.tree.headers[pb.bid]?).isSome := by
      rw [htree, hheader]
      rfl
    have h₁ : Move env accept s s₁ := .genesis hpb hacc hnone hgenesis hparent hcheck hs₁
    have h₂ : Move env accept s₁ (s₁.withTree (s₁.chain.tree.modifyChildrenCounter
        info.cumulativeDifficulty pb.bid (-1))) := .count hself
    refine ⟨(Relation.ReflTransGen.single h₁).tail h₂, hstored ?_ ?_⟩
    · rw [withTree_tree, Tree.modifyChildrenCounter_blocks, htree]
    · rw [withTree_tree, Tree.modifyChildrenCounter_headers, htree]
  · obtain rfl := hs₁
    have hprev : (t.headers[pb.block.header.previousBlockHash]?).isSome := by
      unfold Tree.Parent at hparent
      rw [if_neg hgenesis] at hparent
      rw [ht, Tree.store, Table.get_insert_of_ne, hparent]
      · rfl
      · rintro hbid
        rw [← hbid, hnone] at hparent
        cases hparent
    have hself : (t.headers[pb.bid]?).isSome := by
      rw [hheader]
      rfl
    set t₁ := t.modifyChildrenCounter prevInfo.cumulativeDifficulty
      pb.block.header.previousBlockHash 1
    have h₁ : Move env accept s (s.withTree t) :=
      .store hpb hacc hnone hgenesis hparent hcheck
    have h₂ : Move env accept (s.withTree t) ((s.withTree t).withTree t₁) := .count hprev
    have h₃ : Move env accept ((s.withTree t).withTree t₁) (((s.withTree t).withTree t₁).withTree
        (t₁.modifyChildrenCounter info.cumulativeDifficulty pb.bid (-1))) := .count hself
    exact ⟨((Relation.ReflTransGen.single h₁).tail h₂).tail h₃, hstored rfl rfl⟩

private theorem adoptBlock_moves {pb : PreparedBlock} {info : Api.BlockHeader} {ok : Bool}
    (hp : s.Proper env) (hstored : Stored env s.chain.tree pb info)
    (h : s.adoptBlock env pb info = .ok (s', ok)) : Moves env accept s s' := by
  unfold adoptBlock at h
  split_ifs at h with hwork htip
  · obtain ⟨next, hnext, h⟩ := bind_eq_ok.mp h
    cases next with
    | none =>
      cases h
      exact .refl
    | some s₁ =>
      cases h
      exact .single (.redo hstored.holds hstored.header hstored.coinbase htip.symm hnext)
  · obtain ⟨p, hreorganize, h⟩ := bind_eq_ok.mp h
    cases h
    exact (reorganizeBlocks_moves accept hp hstored hreorganize).1
  · cases h
    exact .refl

/-- **Adding a block is made of moves.** -/
theorem addBlock_moves {now : Timestamp} {pb : PreparedBlock} {a : BroadcastAction}
    {i : Api.BlockHeader} (hp : s.Proper env) (hpb : pb.Faithful env) (hacc : accept pb)
    (h : s.addBlock env now pb = .ok (s', a, i)) : Moves env accept s s' := by
  rcases addBlock_cases hp.coherent h with ⟨rfl, -⟩ |
    ⟨prevInfo, info, stored, p, -, hparent, hcheck, hstored, hadopt, -, hend⟩
  · exact .refl
  · obtain ⟨hmoves, hin⟩ := storeChecked_moves accept hp.coherent hpb hacc hparent hcheck hstored
    have hadopted := adoptBlock_moves accept (hmoves.proper hp) hin hadopt
    rcases hend with ⟨-, rfl, -⟩ | ⟨-, rfl | rfl, -⟩
    · exact hmoves.trans hadopted
    · exact hmoves.trans hadopted
    · exact (hmoves.trans hadopted).tail .clearHeaderCache

/-! ## The steps of a node -/

/-- The prepared block that a step adds. -/
def Adds (env : Env) (s : State) (pb : PreparedBlock) : Op → Prop
  | .addBlock rawBlock context _ => PreparedBlock.ofRawBlock env context rawBlock = .ok pb
  | .addBlockData blockData context _ => PreparedBlock.ofData env context blockData = .ok pb
  | .addMinedBlock rawBlockTemplate _ => ∃ template transactions,
    fromBinary readBlockTemplate {} rawBlockTemplate = (template, true) ∧
      s.minedTransactions template.transactionHashes = some transactions ∧
      PreparedBlock.ofRawBlock env false
        { block := rawBlockTemplate, transactions := transactions } = .ok pb
  | _ => False

/-- The clock that a step reads. -/
def Op.now : Op → Timestamp
  | .addBlock _ _ now => now
  | .addBlockData _ _ now => now
  | .createMiningBlockTemplate now _ _ _ => now
  | .addMinedBlock _ now => now
  | _ => 0

theorem Adds.faithful {pb : PreparedBlock} {op : Op} (hsized : op.Sized s) (h : Adds env s pb op) :
    pb.Faithful env := by
  cases op with
  | addBlock rawBlock context now => exact (PreparedBlock.faithful_ofRawBlock hsized h).1
  | addBlockData blockData context now => exact (PreparedBlock.faithful_ofData hsized h).1
  | addMinedBlock rawBlockTemplate now =>
    obtain ⟨template, transactions, hread, hmined, hpb⟩ := h
    exact (PreparedBlock.faithful_ofRawBlock (hsized _ _ hread hmined) hpb).1
  | _ => exact h.elim

theorem addMinedBlock_eq_ok {now : Timestamp} {rawBlockTemplate : Bytes}
    {r : BroadcastAction × Api.BlockHeader} (h : s.addMinedBlock env now rawBlockTemplate = .ok (s', r)) :
    s' = s ∨ ∃ template transactions pb,
      fromBinary readBlockTemplate {} rawBlockTemplate = (template, true) ∧
      s.minedTransactions template.transactionHashes = some transactions ∧
      PreparedBlock.ofRawBlock env false
        { block := rawBlockTemplate, transactions := transactions } = .ok pb ∧
      s.addBlock env now pb = .ok (s', r) := by
  unfold addMinedBlock at h
  rcases hread : fromBinary readBlockTemplate {} rawBlockTemplate with ⟨template, _ | _⟩
  · rw [hread] at h
    cases h
  · rw [hread] at h
    dsimp only at h
    cases hmined : s.minedTransactions template.transactionHashes with
    | none =>
      rw [hmined] at h
      cases h
      exact .inl rfl
    | some transactions =>
      rw [hmined] at h
      obtain ⟨pb, hpb, h⟩ := bind_eq_ok.mp h
      exact .inr ⟨template, transactions, pb, rfl, hmined, hpb, h⟩

/-- A template changes nothing but the table of transactions of templates. -/
theorem createMiningBlockTemplate_frame {now : Timestamp} {adr : AccountPublicAddress}
    {extraNonce : Bytes} {keys : ℕ → KeyPair} {r : Option (BlockTemplate × Difficulty × Height)}
    (h : s.createMiningBlockTemplate env now adr extraNonce keys = .ok (s', r)) :
    ∃ mining, s' = { s with miningTransactions := mining } := by
  unfold createMiningBlockTemplate at h
  obtain ⟨_, _, h⟩ := bind_eq_ok.mp h
  obtain ⟨_, _, h⟩ := bind_eq_ok.mp h
  obtain ⟨_, _, h⟩ := bind_eq_ok.mp h
  split_ifs at h
  · cases h
    exact ⟨_, rfl⟩
  · obtain ⟨_, _, h⟩ := bind_eq_ok.mp h
    cases h
    exact ⟨_, rfl⟩

/-- A transaction that comes in binary form can be written down again, as it came. -/
theorem addBinaryTransaction_eq_ok {binaryTx : Bytes} {r : AddTransactionResult × Height}
    (hsized : binaryTx.length < 2 ^ 32) (h : s.addBinaryTransaction env binaryTx = .ok (s', r)) :
    ∃ tid tx, tx.Goes env tid binaryTx ∧ s.addTransaction env tid tx binaryTx = .ok (s', r) := by
  unfold addBinaryTransaction at h
  split at h
  · cases h
  · rename_i tx hread
    obtain ⟨tid, htid, h⟩ := bind_eq_ok.mp h
    obtain ⟨b, hb, hbinary⟩ := canonical_readTransaction (fromBinary_eq_true.mp hread)
    rw [List.append_nil] at hbinary
    exact ⟨tid, tx, ⟨by rw [hb, hbinary], orFail_eq_ok.mp htid, hsized⟩, h⟩

/-- **Every step of a node is made of moves.** -/
theorem step_moves {op : Op} (hproper : s.Proper env) (hsized : op.Sized s)
    (hacc : ∀ pb, Adds env s pb op → accept pb) (h : s.step env op = .ok s') :
    Moves env accept s s' := by
  cases op with
  | addBlock rawBlock context now =>
    obtain ⟨pb, hpb, h⟩ := bind_eq_ok.mp h
    obtain ⟨p, hp, h⟩ := bind_eq_ok.mp h
    cases h
    have hadds : Adds env s pb (.addBlock rawBlock context now) := hpb
    exact addBlock_moves accept hproper (hadds.faithful hsized) (hacc pb hadds) hp
  | addBlockData blockData context now =>
    obtain ⟨pb, hpb, h⟩ := bind_eq_ok.mp h
    obtain ⟨p, hp, h⟩ := bind_eq_ok.mp h
    cases h
    have hadds : Adds env s pb (.addBlockData blockData context now) := hpb
    exact addBlock_moves accept hproper (hadds.faithful hsized) (hacc pb hadds) hp
  | addTransaction binaryTx =>
    obtain ⟨p, hp, h⟩ := bind_eq_ok.mp h
    cases h
    obtain ⟨tid, tx, hgoes, hadd⟩ := addBinaryTransaction_eq_ok hsized hp
    exact .single (.transact hgoes hadd)
  | createMiningBlockTemplate now adr extraNonce keys =>
    obtain ⟨p, hp, h⟩ := bind_eq_ok.mp h
    cases h
    obtain ⟨mining, hmining⟩ := createMiningBlockTemplate_frame hp
    rw [hmining]
    exact .single .mining
  | addMinedBlock rawBlockTemplate now =>
    obtain ⟨p, hp, h⟩ := bind_eq_ok.mp h
    cases h
    rcases addMinedBlock_eq_ok hp with heq | ⟨template, transactions, pb, hread, hmined, hpb, hadd⟩
    · rw [heq]
    · have hadds : Adds env s pb (.addMinedBlock rawBlockTemplate now) :=
        ⟨template, transactions, hread, hmined, hpb⟩
      exact addBlock_moves accept hproper (hadds.faithful hsized) (hacc pb hadds) hadd
  | cacheHeader bid =>
    cases h
    exact .single (.cacheHeader bid)
  | clearHeaderCache =>
    cases h
    exact .single .clearHeaderCache
  | cacheNextGlobalIndex amount =>
    cases h
    exact .single (.cacheNextGlobalIndex amount)
  | restart => exact .single (.restart h)

/-- The genesis block as a node prepares it when it starts. -/
def GenesisBlock (env : Env) (pb : PreparedBlock) : Prop :=
  ∃ block, writeBlockTemplate env.crypto env.currency.genesisBlockTemplate = some block ∧
    PreparedBlock.ofRawBlock env false { block := block } = .ok pb

/-- What is written of a block that has no parent block. -/
def writeWithoutParent (v : BlockTemplate) : Option Bytes := do
  let head ← writeBlockHeader v.toBlockHeader
  let tx ← writeTransaction v.baseTransaction
  some (head ++ [] ++ tx ++ writeVector writeHash v.transactionHashes)

/-- The genesis block is small, whatever the hash functions are: of version 1 it has no parent
block. -/
private theorem length_genesisBlock {c : Crypto} {cur : Currency} {block : Bytes}
    (h : writeBlockTemplate c cur.genesisBlockTemplate = some block) : block.length < 1000 := by
  have hplain : writeBlockTemplate c cur.genesisBlockTemplate =
    writeWithoutParent (Currency.genesisBlockTemplate ⟨cur.isTestnet, [], 0⟩) := rfl
  have hsmall (testnet : Bool) : (writeWithoutParent (Currency.genesisBlockTemplate
      ⟨testnet, [], 0⟩)).all (fun b ↦ decide (b.length < 1000)) = true := by
    cases testnet <;> decide +kernel
  rw [hplain] at h
  have hlen := hsmall cur.isTestnet
  rwa [h, Option.all_some, decide_eq_true_eq] at hlen

theorem GenesisBlock.faithful {pb : PreparedBlock} (h : GenesisBlock env pb) : pb.Faithful env := by
  obtain ⟨block, hblock, hpb⟩ := h
  have hsized : RawBlock.Sized { block := block } := by
    have hlen := length_genesisBlock hblock
    have hvarint := length_varintBytes_le 9 block.length
    unfold RawBlock.Sized writeRawBlock writeBytes writeVarint
    rw [List.length_append, List.length_append]
    change (varintBytes 9 block.length).length + block.length + 1 < 2 ^ 32
    omega
  exact (PreparedBlock.faithful_ofRawBlock hsized hpb).1

theorem openEmpty_moves {now : Timestamp} (hacc : ∀ pb, GenesisBlock env pb → accept pb)
    (h : openEmpty env now = .ok s) : Moves env accept {} s := by
  unfold openEmpty at h
  obtain ⟨block, hblock, h⟩ := bind_eq_ok.mp h
  obtain ⟨pb, hpb, h⟩ := bind_eq_ok.mp h
  obtain ⟨p, hp, h⟩ := bind_eq_ok.mp h
  obtain ⟨_, _, h⟩ := bind_eq_ok.mp h
  obtain ⟨chain, hchain, h⟩ := bind_eq_ok.mp h
  cases h
  have hgenesis : GenesisBlock env pb := ⟨block, orFail_eq_ok.mp hblock, hpb⟩
  exact (addBlock_moves accept proper_empty hgenesis.faithful (hacc pb hgenesis) hp).tail
    (.settle hchain)

/-- **Every state of a run is reached from the empty state by moves.** -/
theorem Reachable.moves {guard : State → Op → Prop} (hgenesis : ∀ pb, GenesisBlock env pb → accept pb)
    (hacc : ∀ s op pb, op.Sized s → guard s op → Adds env s pb op → accept pb)
    (h : s.Reachable env guard) : Moves env accept {} s := by
  refine Reaches.invariant (fun s hs ↦ ?_) (fun s op s' _ hmoves hguard hstep ↦ ?_) h
  · obtain ⟨now, hs⟩ := hs
    exact openEmpty_moves accept hgenesis hs
  · exact hmoves.trans (step_moves accept (hmoves.proper proper_empty) hguard.1
      (fun pb ↦ hacc s op pb hguard.1 hguard.2) hstep)

end State

end CryoNero
