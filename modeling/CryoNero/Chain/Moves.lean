import CryoNero.Chain.Check
import CryoNero.Chain.Prepared
import CryoNero.Pool.Blocks

/-!
# What a step of a node consists of

A step of a node is a long computation, but it changes the state in few ways: a block enters the
tree, a block is redone on the tip, the tip is undone, the pool changes, a cache fills. Each of these
is a `Move`. Every state that a node reaches is reached from the empty state by moves
(`State.Reachable.moves`), so that an invariant has to be checked for moves only.

Moves speak of headers in the database. That the headers which the node reads are those is the first
invariant (`Move.coherent`), and the decomposition of steps into moves rests on it.
-/

namespace CryoNero

open Seria Store

/-! ## Stored blocks -/

namespace Tree

/-- The tree with a new block and its header. -/
def store (t : Tree) (bid : Hash) (blockData : Bytes) (info : Api.BlockHeader) : Tree :=
  { t with blocks := t.blocks.insert bid blockData, headers := t.headers.insert bid info }

@[simp] theorem modifyChildrenCounter_blocks (t : Tree) (cd : Difficulty) (bid : Hash)
    (delta : UInt32) : (t.modifyChildrenCounter cd bid delta).blocks = t.blocks := rfl

@[simp] theorem modifyChildrenCounter_headers (t : Tree) (cd : Difficulty) (bid : Hash)
    (delta : UInt32) : (t.modifyChildrenCounter cd bid delta).headers = t.headers := rfl

end Tree

@[simp] theorem State.withTree_tree (s : State) (t : Tree) : (s.withTree t).chain.tree = t := rfl

/-- The header a block is checked against: that of the previous block, and for the genesis block one
whose height comes right before zero. -/
def Tree.Parent (env : Env) (t : Tree) (pb : PreparedBlock) (prevInfo : Api.BlockHeader) : Prop :=
  if pb.bid = env.genesisBlockHash then prevInfo = { height := 0xFFFFFFFF }
  else t.headers[pb.block.header.previousBlockHash]? = some prevInfo

/-! ## Moves -/

/-- One change of the state. The blocks that enter the tree satisfy `accept`. -/
inductive Move (env : Env) (accept : PreparedBlock → Prop) : State → State → Prop
  /-- A block that passes the check enters the tree. -/
  | store {s : State} {pb : PreparedBlock} {now : Timestamp} {prevInfo info : Api.BlockHeader} :
    pb.Faithful env → accept pb → s.chain.tree.headers[pb.bid]? = none →
    pb.bid ≠ env.genesisBlockHash → s.chain.tree.Parent env pb prevInfo →
    s.chain.checkStandaloneConsensus env pb now prevInfo (State.blockInfo pb prevInfo {}) true =
      .ok info →
    Move env accept s (s.withTree (s.chain.tree.store pb.bid pb.blockData info))
  /-- The genesis block enters the tree and the main chain. -/
  | genesis {s s' : State} {pb : PreparedBlock} {now : Timestamp} {prevInfo info : Api.BlockHeader} :
    pb.Faithful env → accept pb → s.chain.tree.headers[pb.bid]? = none →
    pb.bid = env.genesisBlockHash → s.chain.tree.Parent env pb prevInfo →
    s.chain.checkStandaloneConsensus env pb now prevInfo (State.blockInfo pb prevInfo {}) true =
      .ok info →
    (s.withTree (s.chain.tree.store pb.bid pb.blockData info)).redoOnTip env pb.bid pb.blockData
      pb.rawBlock pb.block info pb.baseTransactionHash = .ok (some s') →
    Move env accept s s'
  /-- The children of a stored block are counted. -/
  | count {s : State} {cd : Difficulty} {bid : Hash} {delta : UInt32} :
    (s.chain.tree.headers[bid]?).isSome →
    Move env accept s (s.withTree (s.chain.tree.modifyChildrenCounter cd bid delta))
  /-- A stored block is redone on the tip. -/
  | redo {s s' : State} {bid : Hash} {blockData : Bytes} {rawBlock : RawBlock} {block : Block}
      {info : Api.BlockHeader} {tid : Hash} :
    s.chain.tree.Holds bid blockData rawBlock block → s.chain.tree.headers[bid]? = some info →
    getTransactionHash env.crypto block.header.baseTransaction = some tid →
    block.header.previousBlockHash = s.chain.tip.tipBid →
    s.redoOnTip env bid blockData rawBlock block info tid = .ok (some s') → Move env accept s s'
  /-- The block at the tip is undone. -/
  | undo {s s' : State} {undone undone' : State.UndoneTransactions} :
    s.undoTip env undone = .ok (s', undone') → Move env accept s s'
  /-- A transaction is offered to the pool. -/
  | transact {s s' : State} {tid : Hash} {tx : Transaction} {binaryTx : Bytes}
      {r : AddTransactionResult × Height} :
    tx.Goes env tid binaryTx → s.addTransaction env tid tx binaryTx = .ok (s', r) → Move env accept s s'
  | emptyPool {s : State} :
    Move env accept s { s with ledger := { s.ledger with pool := {} } }
  | version {s : State} {version : UInt32} :
    Move env accept s { s with ledger := { s.ledger with txPoolVersion := version } }
  | mining {s : State} {mining : Table Hash (Bytes × Height)} :
    Move env accept s { s with miningTransactions := mining }
  | cacheHeader {s : State} (bid : Hash) : Move env accept s (s.cacheHeader bid)
  | clearHeaderCache {s : State} : Move env accept s s.dbCommit
  | cacheNextGlobalIndex {s : State} (amount : Amount) :
    Move env accept s (s.cacheNextGlobalIndex amount)
  | settle {s : State} {chain : BlockChain} :
    s.chain.tipChanged = .ok chain → Move env accept s { s with chain := chain }
  | restart {s s' : State} : s.restart = .ok s' → Move env accept s s'

/-- Any number of moves. -/
abbrev Moves (env : Env) (accept : PreparedBlock → Prop) : State → State → Prop :=
  Relation.ReflTransGen (Move env accept)

/-- **Move rule.** What every move keeps is kept by any number of them. -/
theorem Moves.invariant {env : Env} {accept : PreparedBlock → Prop} {I : State → Prop}
    (hstep : ∀ s s', Move env accept s s' → I s → I s') {s s' : State}
    (h : Moves env accept s s') (hs : I s) : I s' := by
  induction h with
  | refl => exact hs
  | tail _ hmove ih => exact hstep _ _ hmove ih


/-! ## Moves keep the headers coherent -/

namespace BlockChain

variable {bc : BlockChain} {bid : Hash} {blockData : Bytes} {info : Api.BlockHeader}

theorem Coherent.store (hc : bc.Coherent) (hfree : bc.tree.headers[bid]? = none)
    (hhash : info.hash = bid) :
    ({ bc with tree := bc.tree.store bid blockData info } : BlockChain).Coherent := by
  have hold {b : Hash} {h : Api.BlockHeader} (hb : bc.tree.headers[b]? = some h) :
      (bc.tree.headers.insert bid info)[b]? = some h := by
    rw [Table.get_insert_of_ne _ _ (by rintro rfl; rw [hfree] at hb; cases hb)]
    exact hb
  refine ⟨?_, ?_, fun hb ↦ hold (hc.cache hb), fun hb ↦ hold (hc.window hb)⟩
  · intro b data hb
    by_cases hbid : bid = b
    · exact ⟨info, by rw [hbid]; exact Table.get_insert_self _ _ _⟩
    · obtain ⟨h, hh⟩ := hc.block ((Table.get_insert_of_ne _ _ hbid).symm.trans hb)
      exact ⟨h, hold hh⟩
  · intro b h hb
    by_cases hbid : bid = b
    · rw [← hbid] at hb ⊢
      cases (Table.get_insert_self _ _ _).symm.trans hb
      exact hhash
    · exact hc.hash ((Table.get_insert_of_ne _ _ hbid).symm.trans hb)

end BlockChain

namespace State

variable {env : Env} {s s' : State}

private theorem coherent_withTree {t : Tree} (hc : s.chain.Coherent) (hb : t.blocks = s.chain.tree.blocks)
    (hh : t.headers = s.chain.tree.headers) : (s.withTree t).chain.Coherent where
  block h := by
    change t.blocks[_]? = _ at h
    change ∃ x, t.headers[_]? = some x
    rw [hb] at h
    rw [hh]
    exact hc.block h
  hash h := hc.hash (by rw [← hh]; exact h)
  cache h := by
    change t.headers[_]? = _
    rw [hh]
    exact hc.cache h
  window h := by
    change t.headers[_]? = _
    rw [hh]
    exact hc.window h

theorem coherent_redoOnTip {bid : Hash} {blockData : Bytes} {rawBlock : RawBlock} {block : Block}
    {info : Api.BlockHeader} {tid : Hash} (hc : s.chain.Coherent)
    (hinfo : s.chain.tree.headers[bid]? = some info)
    (h : s.redoOnTip env bid blockData rawBlock block info tid = .ok (some s')) :
    s'.chain.Coherent := by
  obtain ⟨_, chain, -, hpush, rfl⟩ := redoOnTip_eq_some.mp h
  exact hc.pushChain (by rw [hc.hash hinfo]; exact hinfo) hpush

private theorem coherent_undoTip {undone undone' : UndoneTransactions} (hc : s.chain.Coherent)
    (h : s.undoTip env undone = .ok (s', undone')) : s'.chain.Coherent := by
  obtain ⟨_, _, _, _, chain₁, chain, -, -, -, -, hpop, hchain, rfl⟩ := undoTip_eq_ok.mp h
  exact (hc.popChain hpop).tipChanged hchain

private theorem coherent_cacheHeader (hc : s.chain.Coherent) (bid : Hash) :
    (s.cacheHeader bid).chain.Coherent := by
  unfold cacheHeader
  split
  · rename_i header _ hheader
    refine ⟨hc.block, hc.hash, fun {b h} hb ↦ ?_, hc.window⟩
    change (s.chain.headerCache.insert bid header)[b]? = some h at hb
    by_cases hbid : bid = b
    · rw [← hbid] at hb ⊢
      cases (Table.get_insert_self _ _ _).symm.trans hb
      exact hheader
    · exact hc.cache ((Table.get_insert_of_ne _ _ hbid).symm.trans hb)
  · exact hc

theorem restart_eq_ok : s.restart = .ok s' ↔
    ∃ bid header chain, s.chain.tip.tipChain[s.chain.tip.tipHeight]? = some bid ∧
      s.chain.tree.headers[bid]? = some header ∧
      BlockChain.tipChanged
        { tree := s.chain.tree
          tip := {
            tipChain := s.chain.tip.tipChain
            tipBid := bid
            tipCumulativeDifficulty := header.cumulativeDifficulty
            tipHeight := s.chain.tip.tipHeight
            headerTipWindow := [header] } } = .ok chain ∧
      s' = { chain := chain,
             ledger := { index := { s.ledger.index with nextGiForAmount := ∅ } } } := by
  unfold restart
  constructor
  · intro h
    obtain ⟨bid, hbid, h⟩ := bind_eq_ok.mp h
    obtain ⟨header, hheader, h⟩ := bind_eq_ok.mp h
    obtain ⟨chain, hchain, h⟩ := bind_eq_ok.mp h
    cases h
    exact ⟨bid, header, chain, orFail_eq_ok.mp hbid, orFail_eq_ok.mp hheader, hchain, rfl⟩
  · rintro ⟨bid, header, chain, hbid, hheader, hchain, rfl⟩
    exact bind_eq_ok.mpr ⟨bid, orFail_eq_ok.mpr hbid, bind_eq_ok.mpr ⟨header,
      orFail_eq_ok.mpr hheader, bind_eq_ok.mpr ⟨chain, hchain, rfl⟩⟩⟩

private theorem coherent_restart (hc : s.chain.Coherent) (h : s.restart = .ok s') : s'.chain.Coherent := by
  obtain ⟨bid, header, chain, -, hheader, hchain, rfl⟩ := restart_eq_ok.mp h
  have hstart : BlockChain.Coherent
      { tree := s.chain.tree
        tip := {
          tipChain := s.chain.tip.tipChain
          tipBid := bid
          tipCumulativeDifficulty := header.cumulativeDifficulty
          tipHeight := s.chain.tip.tipHeight
          headerTipWindow := [header] } } := by
    refine ⟨hc.block, hc.hash, fun hb ↦ ?_, fun hx ↦ ?_⟩
    · cases (Std.ExtTreeMap.getElem?_empty).symm.trans hb
    · rw [List.mem_singleton.mp hx, hc.hash hheader]
      exact hheader
  exact hstart.tipChanged hchain

/-- Offering a transaction to the pool leaves the chain and the indexes alone. -/
theorem addTransaction_frame {tid : Hash} {tx : Transaction} {binaryTx : Bytes}
    {r : AddTransactionResult × Height} (h : s.addTransaction env tid tx binaryTx = .ok (s', r)) :
    ∃ pool version, s' = { s with ledger :=
      { s.ledger with pool := pool, txPoolVersion := version } } := by
  unfold addTransaction at h
  obtain ⟨_, _, h⟩ := bind_eq_ok.mp h
  obtain ⟨⟨l, _⟩, hadd, h⟩ := bind_eq_ok.mp h
  cases h
  obtain ⟨pool, version, rfl⟩ := Ledger.addTransactionAt_frame hadd
  exact ⟨pool, version, rfl⟩

end State

variable {env : Env} {accept : PreparedBlock → Prop} {s s' : State}

/-- **Headers stay coherent.** -/
theorem Move.coherent (h : Move env accept s s') (hc : s.chain.Coherent) : s'.chain.Coherent := by
  cases h with
  | store hpb hacc hfree hne hparent hcheck =>
    exact hc.store hfree (BlockChain.sameBlock_of_checked hcheck).hash
  | genesis hpb hacc hfree heq hparent hcheck hredo =>
    refine State.coherent_redoOnTip (hc.store hfree (BlockChain.sameBlock_of_checked hcheck).hash)
      ?_ hredo
    exact Table.get_insert_self _ _ _
  | count hbid => exact State.coherent_withTree hc rfl rfl
  | redo hholds hinfo htid hprev hredo => exact State.coherent_redoOnTip hc hinfo hredo
  | undo hundo => exact State.coherent_undoTip hc hundo
  | transact hgoes hadd =>
    obtain ⟨_, _, rfl⟩ := State.addTransaction_frame hadd
    exact hc
  | emptyPool => exact hc
  | version => exact hc
  | mining => exact hc
  | cacheHeader bid => exact State.coherent_cacheHeader hc bid
  | clearHeaderCache =>
    refine ⟨hc.block, hc.hash, fun hb ↦ ?_, hc.window⟩
    cases (Std.ExtTreeMap.getElem?_empty).symm.trans hb
  | cacheNextGlobalIndex amount => exact hc
  | settle hchain => exact hc.tipChanged hchain
  | restart hrestart => exact State.coherent_restart hc hrestart

theorem Moves.coherent (h : Moves env accept s s') (hc : s.chain.Coherent) : s'.chain.Coherent :=
  Moves.invariant (I := fun s ↦ s.chain.Coherent) (fun _ _ hmove ↦ hmove.coherent) h hc

/-! ## Moves keep the pool sound -/

/-- The transactions of a block go with the hashes in its header and with their bytes. -/
def Block.Goes (env : Env) (block : Block) (rawBlock : RawBlock) : Prop :=
  ∀ (i : ℕ) (tid : Hash) (tx : Transaction) (binaryTx : Bytes),
    block.header.transactionHashes[i]? = some tid → block.transactions[i]? = some tx →
    rawBlock.transactions[i]? = some binaryTx → tx.Goes env tid binaryTx

/-- A block that passes the check names its transactions by their hashes. -/
theorem PreparedBlock.Faithful.goes {pb : PreparedBlock} (hpb : pb.Faithful env) {bc : BlockChain}
    {now : Timestamp} {prevInfo info info' : Api.BlockHeader}
    (hok : (Block.fromRawBlock pb.rawBlock).2 = true)
    (h : bc.checkStandaloneConsensus env pb now prevInfo info true = .ok info') :
    pb.block.Goes env pb.rawBlock := by
  intro i tid tx binaryTx htid htx hbinary
  obtain ⟨_, _, _, _, hpassed⟩ := BlockChain.checkStandaloneConsensus_eq_ok.mp h
  have hread : Block.fromRawBlock pb.rawBlock = (pb.block, true) := Prod.ext hpb.block hok
  obtain ⟨-, hall⟩ := readTransactions_eq_true (Block.fromRawBlock_eq_true.mp hread).2
  have hwritten : writeTransaction tx = some binaryTx := by
    obtain ⟨hi, rfl⟩ := List.getElem?_eq_some_iff.mp htx
    obtain ⟨hi', rfl⟩ := List.getElem?_eq_some_iff.mp hbinary
    exact hall.get hi hi'
  have hzip : (pb.rawBlock.transactions.zip (pb.block.transactions.zip
      pb.block.header.transactionHashes))[i]? = some (binaryTx, tx, tid) := by
    rw [List.getElem?_zip_eq_some, List.getElem?_zip_eq_some]
    exact ⟨hbinary, htx, htid⟩
  have hstage := forM_eq_ok hpassed.hashes _ (List.mem_of_getElem? hzip)
  obtain ⟨_, -, hstage⟩ := bind_eq_ok.mp hstage
  obtain ⟨tid', htid', hsame⟩ := bind_eq_ok.mp hstage
  rw [orGiveUp_eq_ok, orFail_eq_ok] at htid'
  rw [demand_eq_ok] at hsame
  refine ⟨hwritten, by rw [htid', hsame], ?_⟩
  exact ((length_le_of_readRawBlock hpb.data).2 _ (List.mem_of_getElem? hbinary)).trans_lt hpb.sized

/-- The pool is sound, and so are the blocks that transactions may come back from. -/
structure State.Proper (env : Env) (s : State) : Prop where
  coherent : s.chain.Coherent
  goes : ∀ {bid : Hash} {blockData : Bytes} {rawBlock : RawBlock} {block : Block},
    s.chain.tree.Holds bid blockData rawBlock block → (Block.fromRawBlock rawBlock).2 = true →
    block.Goes env rawBlock
  ledger : s.ledger.Sound env

theorem State.proper_empty : State.Proper env {} where
  coherent := by
    refine ⟨fun h ↦ ?_, fun h ↦ ?_, fun h ↦ ?_, fun h ↦ ?_⟩
    · cases (Std.ExtTreeMap.getElem?_empty).symm.trans h
    · cases (Std.ExtTreeMap.getElem?_empty).symm.trans h
    · cases (Std.ExtTreeMap.getElem?_empty).symm.trans h
    · cases h
  goes h := by cases (Std.ExtTreeMap.getElem?_empty).symm.trans h.blocks
  ledger := .empty

theorem State.Proper.congr (h : s.Proper env) (hc : s'.chain.Coherent)
    (hblocks : s'.chain.tree.blocks = s.chain.tree.blocks) (hl : s'.ledger.Sound env) :
    s'.Proper env where
  coherent := hc
  goes hholds := h.goes (hholds.congr hblocks.symm)
  ledger := hl

private theorem State.Proper.goes_store (h : s.Proper env) {pb : PreparedBlock} {now : Timestamp}
    {prevInfo start info : Api.BlockHeader} (hpb : pb.Faithful env)
    (hcheck : s.chain.checkStandaloneConsensus env pb now prevInfo start true = .ok info)
    {bid : Hash} {blockData : Bytes} {rawBlock : RawBlock} {block : Block}
    (hholds : (s.chain.tree.store pb.bid pb.blockData info).Holds bid blockData rawBlock block)
    (hok : (Block.fromRawBlock rawBlock).2 = true) : block.Goes env rawBlock := by
  by_cases hbid : pb.bid = bid
  · subst hbid
    have hdata : pb.blockData = blockData := by
      have hget := hholds.blocks
      rw [Tree.store, Table.get_insert_self] at hget
      exact Option.some.inj hget
    subst hdata
    cases hpb.data.symm.trans hholds.data
    rw [← hholds.block, hpb.block]
    exact hpb.goes hok hcheck
  · have hget : s.chain.tree.blocks[bid]? = some blockData := by
      rw [← hholds.blocks, Tree.store, Table.get_insert_of_ne _ _ hbid]
    exact h.goes ⟨hget, hholds.data, hholds.block⟩ hok

private theorem redoOnTip_sound {bid : Hash} {blockData : Bytes} {rawBlock : RawBlock} {block : Block}
    {info : Api.BlockHeader} {tid : Hash}
    (hredo : s.redoOnTip env bid blockData rawBlock block info tid = .ok (some s'))
    (h : s.ledger.Sound env) :
    s'.ledger.Sound env ∧ s'.chain.tree = s.chain.tree := by
  obtain ⟨ledger, chain, hledger, hpush, rfl⟩ := State.redoOnTip_eq_some.mp hredo
  obtain ⟨_, _, _, _, rfl⟩ := BlockChain.tipChanged_eq_ok.mp (BlockChain.pushChain_eq_ok.mp hpush).2
  exact ⟨h.redoBlock hledger, rfl⟩

theorem State.addTransaction_sound {tid : Hash} {tx : Transaction} {binaryTx : Bytes}
    {r : AddTransactionResult × Height} (hgoes : tx.Goes env tid binaryTx)
    (hs : s.ledger.Sound env) (h : s.addTransaction env tid tx binaryTx = .ok (s', r)) :
    s'.ledger.Sound env := by
  unfold State.addTransaction at h
  obtain ⟨_, _, h⟩ := bind_eq_ok.mp h
  obtain ⟨⟨l, r, height⟩, hl, h⟩ := bind_eq_ok.mp h
  cases h
  exact (hs.addTransactionAt hgoes hl).1

/-- **The pool stays sound.** -/
theorem Move.proper (h : Move env accept s s') (hs : s.Proper env) : s'.Proper env := by
  have hc := h.coherent hs.coherent
  cases h with
  | store hpb hacc hfree hne hparent hcheck => exact ⟨hc, hs.goes_store hpb hcheck, hs.ledger⟩
  | genesis hpb hacc hfree heq hparent hcheck hredo =>
    obtain ⟨hsound, htree⟩ := redoOnTip_sound hredo hs.ledger
    refine ⟨hc, fun hholds ↦ hs.goes_store hpb hcheck (hholds.congr ?_), hsound⟩
    rw [htree]
    rfl
  | count hbid => exact hs.congr hc rfl hs.ledger
  | redo hholds hinfo htid hprev hredo =>
    obtain ⟨hsound, htree⟩ := redoOnTip_sound hredo hs.ledger
    exact hs.congr hc (by rw [htree]) hsound
  | undo hundo =>
    obtain ⟨_, _, _, _, chain₁, chain, -, -, hindex, -, hpop, hchain, rfl⟩ :=
      State.undoTip_eq_ok.mp hundo
    refine hs.congr hc ?_ (hs.ledger.undoBlock hindex)
    obtain ⟨-, -, -, -, _, _, -, rfl, -⟩ := BlockChain.popChain_eq_ok.mp hpop
    obtain ⟨_, _, _, _, rfl⟩ := BlockChain.tipChanged_eq_ok.mp hchain
    rfl
  | transact hgoes hadd =>
    have hsound := State.addTransaction_sound hgoes hs.ledger hadd
    obtain ⟨_, _, rfl⟩ := State.addTransaction_frame hadd
    exact hs.congr hc rfl hsound
  | emptyPool => exact hs.congr hc rfl .emptyPool
  | version => exact hs.congr hc rfl (hs.ledger.congr rfl fun _ _ hki ↦ hki)
  | mining => exact hs.congr hc rfl hs.ledger
  | cacheHeader bid =>
    refine hs.congr hc ?_ ?_
    · unfold State.cacheHeader
      split <;> rfl
    · unfold State.cacheHeader
      split <;> exact hs.ledger
  | clearHeaderCache => exact hs.congr hc rfl hs.ledger
  | cacheNextGlobalIndex amount => exact hs.congr hc rfl (hs.ledger.congr rfl fun _ _ hki ↦ hki)
  | settle hchain =>
    obtain ⟨_, _, _, _, rfl⟩ := BlockChain.tipChanged_eq_ok.mp hchain
    exact hs.congr hc rfl hs.ledger
  | restart hrestart =>
    obtain ⟨_, _, _, _, _, hchain, rfl⟩ := State.restart_eq_ok.mp hrestart
    obtain ⟨_, _, _, _, rfl⟩ := BlockChain.tipChanged_eq_ok.mp hchain
    exact hs.congr hc rfl ((Ledger.Sound.emptyPool (l := s.ledger)).congr rfl fun _ _ hki ↦ hki)

theorem Moves.proper (h : Moves env accept s s') (hs : s.Proper env) : s'.Proper env :=
  Moves.invariant (I := fun s ↦ s.Proper env) (fun _ _ hmove ↦ hmove.proper) h hs

end CryoNero
