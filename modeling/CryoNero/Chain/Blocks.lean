import CryoNero.Chain.Main

/-!
# The blocks of the main chain

As far as the main chain and the indexes over it are concerned, a move does one of three things: it
leaves them alone (`State.Kept`), it puts a block on top (`State.Pushed`), or it takes the block at
the top off (`State.Popped`). What is to be shown of the main chain and its indexes is shown for these
three (`State.Reachable.main_invariant`).
-/

namespace CryoNero

open Seria Store

/-- The block that is stored under a hash, as far as it reads. -/
def Tree.storedBlock (t : Tree) (bid : Hash) : Option Block :=
  (t.blocks[bid]?).bind fun blockData ↦
    match fromBinary readRawBlock {} blockData with
    | (rawBlock, true) => some (Block.fromRawBlock rawBlock).1
    | (_, false) => none

theorem Tree.storedBlock_eq_some {t : Tree} {bid : Hash} {block : Block} :
    t.storedBlock bid = some block ↔ ∃ blockData rawBlock, t.Holds bid blockData rawBlock block := by
  unfold storedBlock
  rw [Option.bind_eq_some_iff]
  constructor
  · rintro ⟨blockData, hblock, h⟩
    rcases hread : fromBinary readRawBlock {} blockData with ⟨rawBlock, _ | _⟩
    · rw [hread] at h
      cases h
    · rw [hread] at h
      exact ⟨blockData, rawBlock, hblock, hread, Option.some.inj h⟩
  · rintro ⟨blockData, rawBlock, h⟩
    refine ⟨blockData, h.blocks, ?_⟩
    rw [h.data]
    exact congrArg some h.block

theorem Tree.storedBlock_congr {t t' : Tree} {bid : Hash} (h : t'.blocks[bid]? = t.blocks[bid]?) :
    t'.storedBlock bid = t.storedBlock bid := by
  unfold storedBlock
  rw [h]

/-- A block and its bytes, as the check leaves them: as many transactions as hashes and as binary
transactions, which go with each other. -/
structure Block.Checked (env : Env) (blockData : Bytes) (rawBlock : RawBlock) (block : Block) :
    Prop where
  sized : blockData.length < 2 ^ 32
  hashCount : block.transactions.length = block.header.transactionHashes.length
  rawCount : block.transactions.length = rawBlock.transactions.length
  goes : block.Goes env rawBlock

private theorem length_readTransactions_lt : ∀ {bs : List Bytes} {txs : List Transaction},
    readTransactions bs = (txs, false) → txs.length < bs.length := by
  intro bs
  induction bs with
  | nil =>
    intro txs h
    cases h
  | cons b bs ih =>
    intro txs h
    rw [readTransactions] at h
    rcases htx : fromBinary readTransaction {} b with ⟨tx, _ | _⟩ <;> rw [htx] at h
    · cases h
      exact Nat.succ_pos _
    · obtain ⟨rfl, hok⟩ := Prod.mk.inj h
      exact Nat.succ_lt_succ (ih (Prod.ext rfl hok))

/-- A block that passes the check is as the check leaves it, also when only a part of it could be
read: it has no transactions then. -/
theorem PreparedBlock.Faithful.blockChecked {env : Env} {pb : PreparedBlock} (hpb : pb.Faithful env)
    {bc : BlockChain} {now : Timestamp} {prevInfo info info' : Api.BlockHeader}
    (h : bc.checkStandaloneConsensus env pb now prevInfo info true = .ok info') :
    pb.block.Checked env pb.blockData pb.rawBlock := by
  obtain ⟨_, _, _, _, hpassed⟩ := BlockChain.checkStandaloneConsensus_eq_ok.mp h
  refine ⟨hpb.sized, hpassed.hashCount, hpassed.rawCount, ?_⟩
  by_cases hok : (Block.fromRawBlock pb.rawBlock).2 = true
  · exact hpb.goes hok h
  · intro i tid tx binaryTx _ htx _
    have hnil : pb.block.transactions = [] := by
      have hblock := hpb.block
      have hcount := hpassed.rawCount
      unfold Block.fromRawBlock at hok hblock
      rcases hhead : fromBinary readBlockTemplate {} pb.rawBlock.block with ⟨header, _ | _⟩ <;>
        rw [hhead] at hok hblock
      · rw [← hblock]
      · rcases hread : readTransactions pb.rawBlock.transactions with ⟨txs, _ | _⟩
        · have hlt := length_readTransactions_lt hread
          rw [hread] at hblock
          rw [← hblock] at hcount
          exact absurd hcount (Nat.ne_of_lt hlt)
        · rw [hread] at hok
          exact absurd rfl hok
    rw [hnil] at htx
    cases htx

theorem State.TreeSound.blockChecked {env : Env} {accept : PreparedBlock → Prop} {s : State}
    (ht : s.TreeSound env accept) {bid : Hash} {blockData : Bytes} {rawBlock : RawBlock}
    {block : Block} {info : Api.BlockHeader} (hholds : s.chain.tree.Holds bid blockData rawBlock block)
    (hinfo : s.chain.tree.headers[bid]? = some info) : block.Checked env blockData rawBlock := by
  obtain ⟨pb, prevInfo, rfl, horigin⟩ := ht.sound _ _ hinfo
  obtain ⟨hdata, hraw, hblock⟩ := horigin.holds.unique hholds
  obtain ⟨_, _, hcheck⟩ := horigin.checked
  rw [← hdata, ← hraw, ← hblock]
  exact horigin.faithful.blockChecked hcheck

/-- The indexes are the same but for what is cached. -/
structure Index.SameTables (idx idx' : Index) : Prop where
  keyimages : idx'.keyimages = idx.keyimages
  files : idx.SameFiles idx'
  outputs : ∀ {f : OutputStacks}, idx.Outputs f → idx'.Outputs f

theorem Index.SameTables.refl {idx : Index} : idx.SameTables idx := ⟨rfl, .refl, id⟩

/-- The indexes hold nothing. -/
structure Index.Bare (idx : Index) : Prop where
  keyimages : idx.keyimages = ∅
  outputs : idx.Outputs fun _ ↦ []
  blockGlobalIndices : idx.blockGlobalIndices = ∅
  transactionPos : idx.transactionPos = ∅
  timestampBlock : idx.timestampBlock = ∅

namespace State

variable (s s' : State)

/-- The block of the main chain at a height. -/
def mainBlock (height : Height) : Option Block :=
  (s.chain.tip.tipChain[height]?).bind s.chain.tree.storedBlock

/-- There is no main chain yet. -/
structure Bare : Prop where
  tip : s.chain.tip = {}
  index : s.ledger.index.Bare

/-- The main chain and its indexes are left alone. -/
structure Kept : Prop where
  tipChain : s'.chain.tip.tipChain = s.chain.tip.tipChain
  blocks : ∀ {height : Height} {bid : Hash}, s.chain.tip.tipChain[height]? = some bid →
    s'.chain.tree.blocks[bid]? = s.chain.tree.blocks[bid]?
  headers : ∀ {height : Height} {bid : Hash}, s.chain.tip.tipChain[height]? = some bid →
    s'.chain.tree.headers[bid]? = s.chain.tree.headers[bid]?
  index : s.ledger.index.SameTables s'.ledger.index

/-- A stored block is put on top. -/
structure Pushed (env : Env) (bid : Hash) (blockData : Bytes) (rawBlock : RawBlock) (block : Block)
    (info : Api.BlockHeader) (tid : Hash) : Prop where
  holds : s.chain.tree.Holds bid blockData rawBlock block
  checked : block.Checked env blockData rawBlock
  header : s.chain.tree.headers[bid]? = some info
  coinbase : getTransactionHash env.crypto block.header.baseTransaction = some tid
  timestamp : info.timestamp = block.header.timestamp
  level : info.height = UInt32.ofNat s.chain.tip.tipChain.size
  size : s.chain.tip.tipChain.size < 2 ^ 32
  below : ∀ {k : Height} {b : Hash}, s.chain.tip.tipChain[k]? = some b →
    k.toNat < s.chain.tip.tipChain.size
  new : ∀ k : Height, s.chain.tip.tipChain[k]? ≠ some bid
  redone : s.ledger.redoBlock env bid blockData rawBlock block info tid = .ok s'.ledger
  tipChain : s'.chain.tip.tipChain = s.chain.tip.tipChain.insert info.height bid
  tree : s'.chain.tree = s.chain.tree

/-- The block at the tip is taken off. -/
structure Popped (env : Env) (bid : Hash) (block : Block) (height : Height) : Prop where
  checked : ∃ blockData rawBlock, s.chain.tree.Holds bid blockData rawBlock block ∧
    block.Checked env blockData rawBlock
  top : s.chain.tip.tipChain[height]? = some bid
  level : height = UInt32.ofNat s'.chain.tip.tipChain.size
  size : s'.chain.tip.tipChain.size < 2 ^ 32
  below : ∀ {k : Height} {b : Hash}, s'.chain.tip.tipChain[k]? = some b →
    k.toNat < s'.chain.tip.tipChain.size
  new : ∀ k : Height, s'.chain.tip.tipChain[k]? ≠ some bid
  undone : s.ledger.index.undoBlock env.crypto bid block height = .ok s'.ledger.index
  tipChain : s'.chain.tip.tipChain = s.chain.tip.tipChain.erase height
  tree : s'.chain.tree = s.chain.tree

variable {s s'} {env : Env} {bid : Hash} {blockData : Bytes} {rawBlock : RawBlock} {block : Block}
  {info : Api.BlockHeader} {tid : Hash}

theorem Bare.mainBlock_eq_none (h : s.Bare) (height : Height) : s.mainBlock height = none := by
  unfold State.mainBlock
  rw [h.tip]
  change ((∅ : Table Height Hash)[height]?).bind _ = none
  rw [Std.ExtTreeMap.getElem?_empty]
  rfl

theorem Kept.mainBlock (h : Kept s s') (height : Height) : s'.mainBlock height = s.mainBlock height := by
  unfold State.mainBlock
  rw [h.tipChain]
  cases hb : s.chain.tip.tipChain[height]? with
  | none => rfl
  | some b => exact Tree.storedBlock_congr (h.blocks hb)

theorem Pushed.mainBlock (h : Pushed s s' env bid blockData rawBlock block info tid)
    (height : Height) :
    s'.mainBlock height = if info.height = height then some block else s.mainBlock height := by
  unfold State.mainBlock
  rw [h.tipChain, h.tree, Table.get_insert]
  split_ifs
  · exact Tree.storedBlock_eq_some.mpr ⟨_, _, h.holds⟩
  · rfl

theorem Pushed.free (h : Pushed s s' env bid blockData rawBlock block info tid) :
    s.chain.tip.tipChain[info.height]? = none := by
  cases hb : s.chain.tip.tipChain[info.height]? with
  | none => rfl
  | some b =>
    have hlt := h.below hb
    rw [h.level, toNat_ofNat_of_lt h.size] at hlt
    exact absurd hlt (lt_irrefl _)

theorem Pushed.mainBlock_eq_none (h : Pushed s s' env bid blockData rawBlock block info tid) :
    s.mainBlock info.height = none := by
  unfold State.mainBlock
  rw [h.free]
  rfl

theorem Pushed.size_eq (h : Pushed s s' env bid blockData rawBlock block info tid) :
    s'.chain.tip.tipChain.size = s.chain.tip.tipChain.size + 1 := by
  rw [h.tipChain, Table.size_insert_of_none _ h.free]

/-- The blocks that were there stay where they are. -/
theorem Pushed.mainBlock_ofNat (h : Pushed s s' env bid blockData rawBlock block info tid) {i : ℕ}
    (hi : i < s.chain.tip.tipChain.size) :
    s'.mainBlock (UInt32.ofNat i) = s.mainBlock (UInt32.ofNat i) := by
  rw [h.mainBlock, if_neg]
  intro heq
  have hsize := h.size
  have hnat := congrArg UInt32.toNat heq
  rw [h.level, toNat_ofNat_of_lt hsize, toNat_ofNat_of_lt (by omega)] at hnat
  omega

theorem Popped.mainBlock {height : Height} (h : Popped s s' env bid block height) (k : Height) :
    s.mainBlock k = if height = k then some block else s'.mainBlock k := by
  unfold State.mainBlock
  rw [h.tipChain, h.tree, Table.get_erase]
  split_ifs with hk
  · obtain ⟨_, _, hholds, -⟩ := h.checked
    rw [← hk, h.top]
    exact Tree.storedBlock_eq_some.mpr ⟨_, _, hholds⟩
  · rfl

theorem Popped.mainBlock_eq_none {height : Height} (h : Popped s s' env bid block height) :
    s'.mainBlock height = none := by
  unfold State.mainBlock
  rw [h.tipChain, Table.get_erase_self]
  rfl

theorem Popped.size_eq {height : Height} (h : Popped s s' env bid block height) :
    s.chain.tip.tipChain.size = s'.chain.tip.tipChain.size + 1 := by
  rw [h.tipChain]
  exact Table.size_of_get h.top

theorem Popped.mainBlock_ofNat {height : Height} (h : Popped s s' env bid block height) {i : ℕ}
    (hi : i < s'.chain.tip.tipChain.size) :
    s.mainBlock (UInt32.ofNat i) = s'.mainBlock (UInt32.ofNat i) := by
  rw [h.mainBlock, if_neg]
  intro heq
  have hsize := h.size
  have hnat := congrArg UInt32.toNat heq
  rw [h.level, toNat_ofNat_of_lt hsize, toNat_ofNat_of_lt (by omega)] at hnat
  omega

end State

/-! ## Moves -/

/-- The number of blocks of the main chain. -/
theorem BlockChain.Main.size {bc : BlockChain} (hm : bc.Main) :
    bc.tip.tipChain.size = bc.tip.tipHeight.toNat + 1 := by
  have hperm : (bc.tip.tipChain.toList.map Prod.fst).Perm
      ((List.range (bc.tip.tipHeight.toNat + 1)).map UInt32.ofNat) := by
    have hlt := bc.tip.tipHeight.toNat_lt
    refine (List.perm_ext_iff_of_nodup (Table.nodup_keys_toList _) ?_).mpr fun k ↦ ?_
    · refine List.Nodup.map_on (fun a ha b hb hab ↦ ?_) List.nodup_range
      rw [List.mem_range] at ha hb
      have hab' := congrArg UInt32.toNat hab
      rwa [toNat_ofNat_of_lt (by omega), toNat_ofNat_of_lt (by omega)] at hab'
    · rw [List.mem_map, List.mem_map]
      constructor
      · rintro ⟨⟨k, b⟩, hmem, rfl⟩
        have hle := UInt32.le_iff_toNat_le.mp (hm.above (Table.mem_toList.mp hmem))
        exact ⟨k.toNat, List.mem_range.mpr (by omega), UInt32.ofNat_toNat⟩
      · rintro ⟨i, hi, rfl⟩
        rw [List.mem_range] at hi
        obtain ⟨b, hb⟩ := hm.filled (h := UInt32.ofNat i) (by
          rw [UInt32.le_iff_toNat_le, toNat_ofNat_of_lt (by omega)]
          omega)
        exact ⟨(_, b), Table.mem_toList.mpr hb, rfl⟩
  have hlen := hperm.length_eq
  rw [List.length_map, List.length_map, List.length_range, Std.ExtTreeMap.length_toList] at hlen
  exact hlen

theorem BlockChain.Main.next {bc : BlockChain} (hm : bc.Main) :
    bc.tip.tipHeight + 1 = UInt32.ofNat bc.tip.tipChain.size := by
  rw [hm.size, UInt32.ofNat_add, UInt32.ofNat_toNat]
  rfl

theorem BlockChain.Main.below {bc : BlockChain} (hm : bc.Main) {k : Height} {b : Hash}
    (hk : bc.tip.tipChain[k]? = some b) : k.toNat < bc.tip.tipChain.size := by
  have hle := UInt32.le_iff_toNat_le.mp (hm.above hk)
  rw [hm.size]
  omega

namespace State

variable {env : Env} {accept : PreparedBlock → Prop} {s s' : State}

theorem Kept.of_eq (hchain : s'.chain.tip.tipChain = s.chain.tip.tipChain)
    (hblocks : s'.chain.tree.blocks = s.chain.tree.blocks)
    (hheaders : s'.chain.tree.headers = s.chain.tree.headers)
    (hindex : s'.ledger.index = s.ledger.index) : Kept s s' := by
  refine ⟨hchain, fun _ ↦ by rw [hblocks], fun _ ↦ by rw [hheaders], ?_⟩
  rw [hindex]
  exact .refl

/-- A block that is stored is not one of the main chain. -/
theorem Kept.store (hm : s.chain.Main) {bid : Hash} {blockData : Bytes} {info : Api.BlockHeader}
    (hfree : s.chain.tree.headers[bid]? = none) :
    Kept s (s.withTree (s.chain.tree.store bid blockData info)) := by
  have hne {height : Height} {b : Hash} (hb : s.chain.tip.tipChain[height]? = some b) : bid ≠ b := by
    rintro rfl
    obtain ⟨header, hheader, -⟩ := hm.entry hb
    rw [hfree] at hheader
    cases hheader
  exact ⟨rfl, fun hb ↦ Table.get_insert_of_ne _ _ (hne hb),
    fun hb ↦ Table.get_insert_of_ne _ _ (hne hb), .refl⟩

/-- A block is redone on the tip. -/
theorem Ready.pushed (hs : s.Ready env) (ht : s.TreeSound env accept) {bid : Hash}
    {blockData : Bytes} {rawBlock : RawBlock} {block : Block} {info : Api.BlockHeader} {tid : Hash}
    (hholds : s.chain.tree.Holds bid blockData rawBlock block)
    (hinfo : s.chain.tree.headers[bid]? = some info)
    (htid : getTransactionHash env.crypto block.header.baseTransaction = some tid)
    (hprev : block.header.previousBlockHash = s.chain.tip.tipBid)
    (hredo : s.redoOnTip env bid blockData rawBlock block info tid = .ok (some s')) :
    Pushed s s' env bid blockData rawBlock block info tid := by
  obtain ⟨l, chain, hl, hpush, rfl⟩ := redoOnTip_eq_some.mp hredo
  obtain ⟨-, -, hheight⟩ := hs.redo_height ht hholds hinfo hprev hl
  have hfree : s.chain.tip.tipChain[s.chain.tip.tipHeight + 1]? = none :=
    (BlockChain.pushChain_eq_ok.mp hpush).1
  have hmain := hs.main
  refine ⟨hholds, ht.blockChecked hholds hinfo, hinfo, htid, (ht.previousBlockHash_eq hholds hinfo).2, hheight.trans hmain.next, ?_,
    hmain.below, fun k hk ↦ ?_, hl, ?_, pushChain_tree hpush⟩
  · -- above the last height of all is the genesis block
    have hle := s.chain.tip.tipHeight.toNat_lt
    have hne : s.chain.tip.tipHeight.toNat ≠ 2 ^ 32 - 1 := by
      intro hmax
      have hzero : s.chain.tip.tipHeight + 1 = 0 := by
        rw [← UInt32.toNat_inj, UInt32.toNat_add, hmax]
        rfl
      rw [hzero, hs.root] at hfree
      cases hfree
    rw [hmain.size]
    omega
  · obtain ⟨header, hheader, hk', -⟩ := hmain.entry hk
    cases hinfo.symm.trans hheader
    rw [← hk', hheight, hfree] at hk
    cases hk
  · change chain.tip.tipChain = _
    rw [(BlockChain.pushChain_tip hpush).1, hheight, ht.coherent.hash hinfo]

/-- The tip is undone. -/
theorem Ready.popped (hs : s.Ready env) (ht : s.TreeSound env accept) {undone undone' : UndoneTransactions}
    (hundo : s.undoTip env undone = .ok (s', undone')) :
    ∃ block, Popped s s' env s.chain.tip.tipBid block s.chain.tip.tipHeight := by
  obtain ⟨_, _, block, index, chain₁, chain, hholds, -, hindex, -, hpop, hchain, rfl⟩ :=
    undoTip_eq_ok.mp hundo
  have hmain' := (hs.main.popChain hpop).tipChanged hchain
  obtain ⟨hpos, -, -, -, _, _, -, rfl, -⟩ := BlockChain.popChain_eq_ok.mp hpop
  obtain ⟨_, _, _, _, rfl⟩ := BlockChain.tipChanged_eq_ok.mp hchain
  have hsize := hmain'.size
  have hpred := toNat_sub_one hpos
  have hlt := s.chain.tip.tipHeight.toNat_lt
  have hpos' : s.chain.tip.tipHeight.toNat ≠ 0 := fun h ↦ hpos (UInt32.toNat_inj.mp h)
  obtain ⟨info, hinfo, -⟩ := hs.main.tip_header
  refine ⟨block, ⟨_, _, hholds, ht.blockChecked hholds hinfo⟩, hs.main.tip, ?_, ?_, hmain'.below, fun k hk ↦ ?_, hindex, rfl, rfl⟩
  · rw [← hmain'.next]
    exact (UInt32.sub_add_cancel _ _).symm
  · rw [hsize]
    change (s.chain.tip.tipHeight - 1).toNat + 1 < 2 ^ 32
    omega
  · obtain ⟨header, hheader, hk', -⟩ := hmain'.entry hk
    obtain ⟨header', hheader', htop⟩ := hs.main.tip_header
    cases hheader.symm.trans hheader'
    have hnone : (s.chain.tip.tipChain.erase s.chain.tip.tipHeight)[k]? = none := by
      rw [← hk', htop]
      exact Table.get_erase_self _ _
    cases hk.symm.trans hnone

end State

theorem Index.SameTables.cacheNextGlobalIndex {idx : Index} (amount : Amount) : idx.SameTables { idx with
    nextGiForAmount := idx.nextGiForAmount.insert amount (idx.nextGlobalIndexForAmount amount) } := by
  refine ⟨rfl, ⟨rfl, rfl, rfl⟩, fun {f} hf ↦ ⟨hf.stacked, fun {a n} hn ↦ ?_⟩⟩
  rw [hf.nextGlobalIndexForAmount, Table.get_insert] at hn
  split_ifs at hn with ha
  · cases hn
    rw [ha]
  · exact hf.cached hn

variable {env : Env} {accept : PreparedBlock → Prop} {s s' : State}

open State in
/-- **What a move does to the main chain.** -/
theorem Move.follows (h : Move env accept s s') (ht : s.TreeSound env accept)
    (hs : s.Ready env) : Kept s s' ∨
      (∃ bid blockData rawBlock block info tid, Pushed s s' env bid blockData rawBlock block info tid) ∨
      ∃ bid block height, Popped s s' env bid block height := by
  cases h with
  | store hpb hacc hfree hne hparent hcheck => exact .inl (.store hs.main hfree)
  | genesis hpb hacc hfree heq hparent hcheck hredo =>
    obtain ⟨info, hinfo⟩ := hs.genesis_header
    rw [heq, hinfo] at hfree
    cases hfree
  | count hbid => exact .inl (.of_eq rfl rfl rfl rfl)
  | redo hholds hinfo htid hprev hredo =>
    exact .inr (.inl ⟨_, _, _, _, _, _, hs.pushed ht hholds hinfo htid hprev hredo⟩)
  | undo hundo =>
    obtain ⟨block, hpopped⟩ := hs.popped ht hundo
    exact .inr (.inr ⟨_, block, _, hpopped⟩)
  | transact hgoes hadd =>
    obtain ⟨_, _, rfl⟩ := addTransaction_frame hadd
    exact .inl (.of_eq rfl rfl rfl rfl)
  | emptyPool => exact .inl (.of_eq rfl rfl rfl rfl)
  | version => exact .inl (.of_eq rfl rfl rfl rfl)
  | mining => exact .inl (.of_eq rfl rfl rfl rfl)
  | cacheHeader bid =>
    unfold State.cacheHeader
    split <;> exact .inl (.of_eq rfl rfl rfl rfl)
  | clearHeaderCache => exact .inl (.of_eq rfl rfl rfl rfl)
  | cacheNextGlobalIndex amount =>
    exact .inl ⟨rfl, fun _ ↦ rfl, fun _ ↦ rfl, .cacheNextGlobalIndex amount⟩
  | settle hchain =>
    obtain ⟨_, _, _, _, rfl⟩ := BlockChain.tipChanged_eq_ok.mp hchain
    exact .inl (.of_eq rfl rfl rfl rfl)
  | restart hrestart =>
    obtain ⟨_, _, _, _, _, hchain, rfl⟩ := restart_eq_ok.mp hrestart
    obtain ⟨_, _, _, _, rfl⟩ := BlockChain.tipChanged_eq_ok.mp hchain
    refine .inl ⟨rfl, fun _ ↦ rfl, fun _ ↦ rfl, rfl, ⟨rfl, rfl, rfl⟩, fun hf ↦ ⟨hf.stacked, fun hn ↦ ?_⟩⟩
    cases (Std.ExtTreeMap.getElem?_empty).symm.trans hn

namespace State

/-- The genesis block is put on top of nothing. -/
theorem Founded.pushed {pb : PreparedBlock} {info : Api.BlockHeader}
    (h : s.Founded env accept s' pb info) : ∃ s₀ : State, s₀.Bare ∧
      Pushed s₀ s' env pb.bid pb.blockData pb.rawBlock pb.block info pb.baseTransactionHash := by
  obtain ⟨l, chain, hl, hpush, rfl⟩ := redoOnTip_eq_some.mp h.redone
  have hsame := h.sameBlock
  have hheight : info.height = 0 := hsame.height
  have hhash : info.hash = pb.bid := hsame.hash
  obtain ⟨coinbaseTx, hcoinbase, htid, -⟩ := h.faithful.coinbase
  have htip : (s.withTree (s.chain.tree.store pb.bid pb.blockData info)).chain.tip = {} :=
    h.blank.chain.tip
  have hnone (k : Height) :
      (s.withTree (s.chain.tree.store pb.bid pb.blockData info)).chain.tip.tipChain[k]? = none := by
    rw [htip]
    exact Std.ExtTreeMap.getElem?_empty
  have hsize : (s.withTree (s.chain.tree.store pb.bid pb.blockData info)).chain.tip.tipChain.size =
      0 := by
    rw [htip]
    exact Std.ExtTreeMap.size_empty
  have hbare : (s.withTree (s.chain.tree.store pb.bid pb.blockData info)).Bare := by
    refine ⟨htip, h.blank.keyimages, ⟨?_, fun hn ↦ h.blank.nextGiForAmount hn⟩,
      h.blank.blockGlobalIndices, h.blank.transactionPos, h.blank.timestampBlock⟩
    change Stacked s.ledger.index.amountOutputs _
    rw [h.blank.amountOutputs]
    exact .empty
  refine ⟨_, hbare,
    { holds := ⟨Table.get_insert_self _ _ _, h.faithful.data, h.faithful.block⟩
      checked := h.faithful.blockChecked h.checked.choose_spec
      header := Table.get_insert_self _ _ _
      coinbase := ?_
      timestamp := hsame.timestamp
      level := ?_
      size := ?_
      below := fun {k b} hk ↦ ?_
      new := fun k hk ↦ ?_
      redone := hl
      tipChain := ?_
      tree := pushChain_tree hpush }⟩
  · unfold getTransactionHash
    rw [hcoinbase, htid]
    rfl
  · rw [hheight, hsize]
    rfl
  · rw [hsize]
    decide
  · rw [hnone] at hk
    cases hk
  · rw [hnone] at hk
    cases hk
  · change chain.tip.tipChain = _
    rw [(BlockChain.pushChain_tip hpush).1, htip, hheight, hhash]
    rfl

/-- **Run rule for the main chain.** What holds without a main chain, and is kept when a block is
put on top, when the block at the top is taken off and when nothing of this happens, holds in every
state that a node reaches. -/
theorem Reachable.main_invariant {guard : State → Op → Prop} {I : State → Prop}
    (hbare : ∀ s : State, s.Bare → I s)
    (hkept : ∀ s s' : State, Kept s s' → I s → I s')
    (hpushed : ∀ (s s' : State) bid blockData rawBlock block info tid,
      Pushed s s' env bid blockData rawBlock block info tid → I s → I s')
    (hpopped : ∀ (s s' : State) bid block height, Popped s s' env bid block height → I s → I s')
    (h : s.Reachable env guard) : I s := by
  refine (h.invariant (fun _ ↦ True) (fun _ _ ↦ trivial) (fun _ _ _ _ _ _ ↦ trivial) ?_ ?_).2.2
  · intro s s' pb info hfounded _
    obtain ⟨s₀, hs₀, hpush⟩ := hfounded.pushed
    exact hpushed _ _ _ _ _ _ _ _ hpush (hbare s₀ hs₀)
  · intro s s' hmove ht hr hI
    rcases hmove.follows ht hr with hkeep | ⟨_, _, _, _, _, _, hpush⟩ | ⟨_, _, _, hpop⟩
    · exact hkept _ _ hkeep hI
    · exact hpushed _ _ _ _ _ _ _ _ hpush hI
    · exact hpopped _ _ _ _ _ hpop hI

end State

end CryoNero
