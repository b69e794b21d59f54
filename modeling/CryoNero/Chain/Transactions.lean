import CryoNero.Chain.Outputs
import CryoNero.Core.Sync
import CryoNero.Core.Written
import CryoNero.Ledger.Positions

/-!
# Transactions and the main chain

The positions in the database are those of the transactions of the main chain. The bytes at a
position are those of the transaction, and they read as the transaction again.
-/

namespace CryoNero

open Seria Store

private theorem tidy_readTransactions : ∀ {bs : List Bytes}, ∀ tx ∈ (readTransactions bs).1, tx.Tidy := by
  intro bs
  induction bs with
  | nil =>
    intro tx htx
    cases htx
  | cons b bs ih =>
    intro tx htx
    rw [readTransactions] at htx
    rcases hread : fromBinary readTransaction {} b with ⟨tx', _ | _⟩ <;> rw [hread] at htx
    · cases htx
    · rcases List.mem_cons.mp htx with rfl | htx
      · have htidy := tidy_readTransaction b
        rwa [← fromBinary_fst, hread] at htidy
      · exact ih tx htx

private theorem Block.tidy_allTransactions (rawBlock : RawBlock) :
    ∀ tx ∈ (Block.fromRawBlock rawBlock).1.allTransactions, tx.Tidy := by
  intro tx htx
  rcases List.mem_cons.mp htx with rfl | htx
  · exact Block.tidy_fromRawBlock rawBlock
  · unfold Block.fromRawBlock at htx
    rcases hhead : fromBinary readBlockTemplate {} rawBlock.block with ⟨header, _ | _⟩ <;>
      rw [hhead] at htx
    · cases htx
    · exact tidy_readTransactions tx htx

/-! ## The transactions of a block -/

/-- A transaction of a block: its place, its hash, and its bytes, which are those in the raw
block. -/
structure Block.HasTransaction (env : Env) (rawBlock : RawBlock) (block : Block) (index : ℕ)
    (tid : Hash) (tx : Transaction) (binaryTx : Bytes) : Prop where
  place : block.allTransactions[index]? = some tx
  raw : ∀ i, index = i + 1 → rawBlock.transactions[i]? = some binaryTx
  written : writeTransaction tx = some binaryTx
  hash : getTransactionHash env.crypto tx = some tid

namespace Block

variable {env : Env} {blockData : Bytes} {rawBlock : RawBlock} {block : Block} {index : ℕ}
  {tid t : Hash} {tx : Transaction} {binaryTx : Bytes}

/-- The hashes of the transactions of a block are those that the block names. -/
theorem HasTransaction.tids (h : block.HasTransaction env rawBlock index t tx binaryTx)
    (hchecked : block.Checked env blockData rawBlock)
    (hcoinbase : getTransactionHash env.crypto block.header.baseTransaction = some tid) :
    (block.tids tid)[index]? = some t := by
  cases index with
  | zero =>
    cases h.place
    exact hcoinbase.symm.trans h.hash
  | succ i =>
    have htx : block.transactions[i]? = some tx := h.place
    have hlt := (List.getElem?_eq_some_iff.mp htx).1
    have hlt' : i < block.header.transactionHashes.length := by
      rw [← hchecked.hashCount]
      exact hlt
    have hname := List.getElem?_eq_getElem hlt'
    have hhash := (hchecked.goes i _ tx binaryTx hname htx (h.raw i rfl)).hash
    rw [h.hash] at hhash
    rw [Block.tids, List.getElem?_cons_succ, List.getElem?_take_of_lt hlt, hname, ← hhash]

/-- A transaction of a block has its bytes in the raw block. -/
theorem Checked.hasTransaction_of_hash (hchecked : block.Checked env blockData rawBlock)
    (hplace : block.allTransactions[index]? = some tx)
    (hhash : getTransactionHash env.crypto tx = some t) :
    ∃ binaryTx, block.HasTransaction env rawBlock index t tx binaryTx := by
  obtain ⟨binaryTx, hwritten, -⟩ := Option.map_eq_some_iff.mp hhash
  refine ⟨binaryTx, hplace, fun i hi ↦ ?_, hwritten, hhash⟩
  subst hi
  have htx : block.transactions[i]? = some tx := hplace
  have hlt := (List.getElem?_eq_some_iff.mp htx).1
  have hname := List.getElem?_eq_getElem (l := block.header.transactionHashes)
    (by rw [← hchecked.hashCount]; exact hlt)
  have hraw := List.getElem?_eq_getElem (l := rawBlock.transactions)
    (by rw [← hchecked.rawCount]; exact hlt)
  rw [hraw, ← hwritten]
  exact (hchecked.goes i _ _ _ hname htx hraw).written.symm

/-- Every hash that a block names is that of one of its transactions. -/
theorem Checked.hasTransaction (hchecked : block.Checked env blockData rawBlock)
    (hcoinbase : getTransactionHash env.crypto block.header.baseTransaction = some tid)
    (ht : (block.tids tid)[index]? = some t) :
    ∃ tx binaryTx, block.HasTransaction env rawBlock index t tx binaryTx := by
  cases index with
  | zero =>
    cases ht
    exact ⟨_, hchecked.hasTransaction_of_hash rfl hcoinbase⟩
  | succ i =>
    rw [Block.tids, List.getElem?_cons_succ, List.getElem?_take] at ht
    split_ifs at ht with hlt
    have htx := List.getElem?_eq_getElem hlt
    have hraw := List.getElem?_eq_getElem (l := rawBlock.transactions)
      (by rw [← hchecked.rawCount]; exact hlt)
    exact ⟨_, hchecked.hasTransaction_of_hash htx (hchecked.goes i t _ _ ht htx hraw).hash⟩

end Block

namespace State

variable (env : Env) (s : State)

/-- A transaction of the main chain: the height and the hash of its block, its place in it, and its
bytes. -/
def MainTransaction (tid : Hash) (height : Height) (bid : Hash) (index : ℕ) (tx : Transaction)
    (binaryTx : Bytes) : Prop :=
  s.chain.tip.tipChain[height]? = some bid ∧ ∃ blockData rawBlock block,
    s.chain.tree.Holds bid blockData rawBlock block ∧
      block.HasTransaction env rawBlock index tid tx binaryTx

/-- The transaction at a place in the block of the main chain at a height. -/
def transactionAt (height : Height) (index : ℕ) : Option Transaction :=
  (s.mainBlock height).bind fun block ↦ block.allTransactions[index]?

/-- The positions in the database are those of the transactions of the main chain. -/
structure PositionsMain : Prop where
  placed : ∀ {tid : Hash} {pos : TransactionPos}, s.ledger.index.transactionPos[tid]? = some pos →
    ∃ bid blockData tx binaryTx, s.MainTransaction env tid pos.height bid pos.index.toNat tx binaryTx ∧
      s.chain.tree.blocks[bid]? = some blockData ∧ tx.Tidy ∧ blockData.length < 2 ^ 32 ∧
      pos.Locates pos.height pos.index.toNat blockData binaryTx
  filed : ∀ {tid : Hash} {height : Height} {bid : Hash} {index : ℕ} {tx : Transaction}
    {binaryTx : Bytes}, s.MainTransaction env tid height bid index tx binaryTx →
    ∃ pos, s.ledger.index.transactionPos[tid]? = some pos ∧ pos.height = height ∧
      pos.index.toNat = index

variable {env s} {s' : State} {guard : State → Op → Prop} {tid : Hash} {height : Height} {bid : Hash}
  {index : ℕ} {tx : Transaction} {binaryTx : Bytes}

theorem MainTransaction.mono (h : s.MainTransaction env tid height bid index tx binaryTx)
    (hchain : s'.chain.tip.tipChain[height]? = s.chain.tip.tipChain[height]?)
    (hblocks : s'.chain.tree.blocks[bid]? = s.chain.tree.blocks[bid]?) :
    s'.MainTransaction env tid height bid index tx binaryTx := by
  obtain ⟨hbid, blockData, rawBlock, block, hholds, hhas⟩ := h
  exact ⟨hchain.trans hbid, blockData, rawBlock, block,
    ⟨hblocks.trans hholds.blocks, hholds.data, hholds.block⟩, hhas⟩

theorem positionsMain_of_bare (h : s.Bare) : s.PositionsMain env := by
  refine ⟨fun {tid pos} hpos ↦ ?_, fun {tid height bid _ _ _} hmain ↦ ?_⟩
  · rw [h.index.transactionPos] at hpos
    cases (Std.ExtTreeMap.getElem?_empty).symm.trans hpos
  · have hbid := hmain.1
    rw [h.tip] at hbid
    cases (Std.ExtTreeMap.getElem?_empty).symm.trans hbid

theorem PositionsMain.kept (h : s.PositionsMain env) (hkept : Kept s s') : s'.PositionsMain env := by
  refine ⟨fun {tid pos} hpos ↦ ?_, fun {tid height bid _ _ _} hmain ↦ ?_⟩
  · rw [hkept.index.files.transactionPos] at hpos
    obtain ⟨bid, blockData, tx, binaryTx, hmain, hblock, hrest⟩ := h.placed hpos
    have hblocks := hkept.blocks hmain.1
    exact ⟨bid, blockData, tx, binaryTx, hmain.mono (by rw [hkept.tipChain]) hblocks,
      hblocks.trans hblock, hrest⟩
  · have hbid := hmain.1
    rw [hkept.tipChain] at hbid
    rw [hkept.index.files.transactionPos]
    exact h.filed (hmain.mono (by rw [hkept.tipChain]) (hkept.blocks hbid).symm)

private theorem Pushed.locates {blockData : Bytes} {rawBlock : RawBlock} {block : Block}
    {info : Api.BlockHeader} {t : Hash} (hpush : Pushed s s' env bid blockData rawBlock block info tid)
    (ht : (block.tids tid)[index]? = some t) :
    ∃ tx binaryTx pos, block.HasTransaction env rawBlock index t tx binaryTx ∧ tx.Tidy ∧
      s'.ledger.index.transactionPos[t]? = some pos ∧
      pos.Locates info.height index blockData binaryTx := by
  have hchecked := hpush.checked
  obtain ⟨tx, binaryTx, hhas⟩ := hchecked.hasTransaction hpush.coinbase ht
  obtain ⟨delta, gis, l₁, -, -, -, hindex, -⟩ := Ledger.redoBlock_parts hpush.redone
  have hcount : block.transactions.length < 2 ^ 32 := by
    have hread := canonical_readRawBlock _ _ _ _ (fromBinary_eq_true.mp hpush.holds.data)
    rw [List.append_nil] at hread
    have hle := (length_le_writeRawBlock rawBlock).2.1
    rw [← hread, ← hchecked.rawCount] at hle
    exact hle.trans_lt hchecked.sized
  obtain ⟨⟨coinbase, pos, hcoinbase, hpos, hlocates⟩, hall⟩ :=
    Index.indexBlock_locates hchecked.sized hcount hindex
  have htidy : tx.Tidy := by
    refine Block.tidy_allTransactions rawBlock tx ?_
    rw [hpush.holds.block]
    exact List.mem_of_getElem? hhas.place
  cases index with
  | zero =>
    cases ht
    cases hhas.place
    obtain rfl := Option.some.inj (hcoinbase.symm.trans hhas.written)
    exact ⟨_, _, pos, hhas, htidy, hpos, hlocates⟩
  | succ i =>
    have hplace : block.transactions[i]? = some tx := hhas.place
    obtain ⟨t', binaryTx', pos', ht', hraw, hpos', hlocates'⟩ :=
      hall i (List.getElem?_eq_some_iff.mp hplace).1
    obtain rfl := Option.some.inj (hraw.symm.trans (hhas.raw i rfl))
    rw [Block.tids, List.getElem?_cons_succ,
      List.getElem?_take_of_lt (List.getElem?_eq_some_iff.mp hplace).1, ht'] at ht
    cases ht
    exact ⟨_, _, pos', hhas, htidy, hpos', hlocates'⟩

/-- A block goes on top of the main chain. -/
theorem PositionsMain.pushed {blockData : Bytes} {rawBlock : RawBlock} {block : Block}
    {info : Api.BlockHeader} (h : s.PositionsMain env)
    (hpush : Pushed s s' env bid blockData rawBlock block info tid) : s'.PositionsMain env := by
  obtain ⟨idx₁, hredone, hfiled, -⟩ := Ledger.redoBlock_eq_ok hpush.redone
  have hold {t : Hash} (ht : t ∉ block.tids tid) :
      s'.ledger.index.transactionPos[t]? = s.ledger.index.transactionPos[t]? := by
    rw [hfiled.otherTransactions t ht, hredone.files.transactionPos]
  have htree : s'.chain.tree = s.chain.tree := hpush.tree
  have htop : s'.chain.tip.tipChain[info.height]? = some bid := by
    rw [hpush.tipChain, Table.get_insert_self]
  have hbelow {height : Height} (hne : info.height ≠ height) :
      s'.chain.tip.tipChain[height]? = s.chain.tip.tipChain[height]? := by
    rw [hpush.tipChain, Table.get_insert_of_ne _ _ hne]
  refine ⟨fun {t pos} hpos ↦ ?_, fun {t height b index tx binaryTx} hmain ↦ ?_⟩
  · by_cases ht : t ∈ block.tids tid
    · obtain ⟨index, hindex⟩ := List.getElem?_of_mem ht
      obtain ⟨tx, binaryTx, pos', hhas, htidy, hpos', hlocates⟩ := hpush.locates hindex
      obtain rfl := Option.some.inj (hpos.symm.trans hpos')
      rw [hlocates.height, hlocates.index]
      refine ⟨bid, blockData, tx, binaryTx, ⟨htop, blockData, rawBlock, block, ?_, hhas⟩, ?_, htidy,
        hpush.checked.sized, hlocates⟩ <;> rw [htree]
      · exact hpush.holds
      · exact hpush.holds.blocks
    · rw [hold ht] at hpos
      obtain ⟨b, data, tx, binaryTx, hmain, hblock, hrest⟩ := h.placed hpos
      have hne : info.height ≠ pos.height := fun heq ↦ by
        have hbid := hmain.1
        rw [← heq, hpush.free] at hbid
        cases hbid
      exact ⟨b, data, tx, binaryTx, hmain.mono (hbelow hne) (by rw [htree]), by rw [htree]; exact hblock,
        hrest⟩
  · by_cases hheight : info.height = height
    · subst hheight
      obtain ⟨hb, _, _, _, hholds, hhas⟩ := hmain
      obtain rfl := Option.some.inj (htop.symm.trans hb)
      rw [htree] at hholds
      obtain ⟨-, hraw, hblock⟩ := hpush.holds.unique hholds
      rw [← hraw, ← hblock] at hhas
      obtain ⟨_, _, pos, -, -, hpos, hlocates⟩ :=
        hpush.locates (hhas.tids hpush.checked hpush.coinbase)
      exact ⟨pos, hpos, hlocates.height, hlocates.index⟩
    · obtain ⟨pos, hpos, hplace⟩ := h.filed (hmain.mono (hbelow hheight).symm (by rw [htree]))
      refine ⟨pos, ?_, hplace⟩
      rw [hold]
      · exact hpos
      · intro ht
        have hfree := hfiled.transactionsFree t ht
        rw [hredone.files.transactionPos, hpos] at hfree
        cases hfree

/-- The block at the top goes. -/
theorem PositionsMain.popped {block : Block} {top : Height} (h : s.PositionsMain env)
    (hpop : Popped s s' env bid block top) : s'.PositionsMain env := by
  obtain ⟨idx₁, tid₀, -, hcoinbase, hunfiled, -⟩ := Index.undoBlock_eq_ok hpop.undone
  obtain ⟨blockData, rawBlock, hholds, hchecked⟩ := hpop.checked
  have htree : s'.chain.tree = s.chain.tree := hpop.tree
  have hgone : s'.chain.tip.tipChain[top]? = none := by
    rw [hpop.tipChain, Table.get_erase_self]
  have hbelow {height : Height} (hne : top ≠ height) :
      s'.chain.tip.tipChain[height]? = s.chain.tip.tipChain[height]? := by
    rw [hpop.tipChain, Table.get_erase_of_ne _ hne]
  refine ⟨fun {t pos} hpos ↦ ?_, fun {t height b index tx binaryTx} hmain ↦ ?_⟩
  · rw [hunfiled.transactions] at hpos
    split_ifs at hpos with ht
    obtain ⟨b, data, tx, binaryTx, hmain, hblock, hrest⟩ := h.placed hpos
    have hne : top ≠ pos.height := fun heq ↦ by
      rw [← heq] at hmain
      obtain ⟨hb, _, _, _, hholds', hhas⟩ := hmain
      obtain rfl := Option.some.inj (hpop.top.symm.trans hb)
      obtain ⟨-, hraw, hsame⟩ := hholds.unique hholds'
      rw [← hraw, ← hsame] at hhas
      exact ht (List.mem_of_getElem? (hhas.tids hchecked hcoinbase))
    exact ⟨b, data, tx, binaryTx, hmain.mono (hbelow hne) (by rw [htree]), by rw [htree]; exact hblock,
      hrest⟩
  · have hne : top ≠ height := fun heq ↦ by
      have hb := hmain.1
      rw [← heq, hgone] at hb
      cases hb
    obtain ⟨pos, hpos, hplace⟩ := h.filed (hmain.mono (hbelow hne).symm (by rw [htree]))
    refine ⟨pos, ?_, hplace⟩
    rw [hunfiled.transactions, if_neg]
    · exact hpos
    · -- a hash of the block that goes has its position in that block
      intro ht
      obtain ⟨i, hi⟩ := List.getElem?_of_mem ht
      obtain ⟨tx', binaryTx', hhas⟩ := hchecked.hasTransaction hcoinbase hi
      obtain ⟨pos', hpos', hheight, -⟩ :=
        h.filed ⟨hpop.top, blockData, rawBlock, block, hholds, hhas⟩
      obtain rfl := Option.some.inj (hpos.symm.trans hpos')
      exact hne (hheight.symm.trans hplace.1)

theorem Reachable.positionsMain (h : s.Reachable env guard) : s.PositionsMain env :=
  h.main_invariant (fun _ ↦ positionsMain_of_bare) (fun _ _ hkept hs ↦ hs.kept hkept)
    (fun _ _ _ _ _ _ _ _ hpush hs ↦ hs.pushed hpush) fun _ _ _ _ _ hpop hs ↦ hs.popped hpop

theorem MainTransaction.unique {bid' : Hash} {tx' : Transaction} {binaryTx' : Bytes}
    (h : s.MainTransaction env tid height bid index tx binaryTx)
    (h' : s.MainTransaction env tid height bid' index tx' binaryTx') :
    bid' = bid ∧ tx' = tx ∧ binaryTx' = binaryTx := by
  obtain ⟨hbid, _, _, _, hholds, hhas⟩ := h
  obtain ⟨hbid', _, _, _, hholds', hhas'⟩ := h'
  obtain rfl := Option.some.inj (hbid.symm.trans hbid')
  obtain ⟨-, -, rfl⟩ := hholds.unique hholds'
  obtain rfl := Option.some.inj (hhas.place.symm.trans hhas'.place)
  exact ⟨rfl, rfl, Option.some.inj (hhas'.written.symm.trans hhas.written)⟩

private theorem Reachable.exists_mainTransaction (h : s.Reachable env guard)
    (hbid : s.chain.tip.tipChain[height]? = some bid) (htx : s.transactionAt height index = some tx)
    (hhash : getTransactionHash env.crypto tx = some tid) :
    ∃ binaryTx, s.MainTransaction env tid height bid index tx binaryTx := by
  obtain ⟨ht, hr, -⟩ := h.invariant (fun _ ↦ True) (I := fun _ ↦ True) (fun _ _ ↦ trivial)
    (fun _ _ _ _ _ _ ↦ trivial) (fun _ _ _ _ _ _ ↦ trivial) fun _ _ _ _ _ _ ↦ trivial
  obtain ⟨block, hblock, hplace⟩ := Option.bind_eq_some_iff.mp htx
  obtain ⟨b, hb, hstored⟩ := Option.bind_eq_some_iff.mp hblock
  obtain rfl := Option.some.inj (hb.symm.trans hbid)
  obtain ⟨blockData, rawBlock, hholds⟩ := Tree.storedBlock_eq_some.mp hstored
  obtain ⟨info, hinfo, -⟩ := hr.main.entry hbid
  obtain ⟨binaryTx, hhas⟩ := (ht.blockChecked hholds hinfo).hasTransaction_of_hash hplace hhash
  exact ⟨binaryTx, hbid, blockData, rawBlock, block, hholds, hhas⟩

/-- **The index of transactions is exact.** In every state of every run a transaction of the main
chain is found by its hash, at its bytes, and reads as itself, with the height and the hash of its
block, its place there and its size; no other hash is found. -/
theorem Reachable.transactions_exact (h : s.Reachable env guard) (tid : Hash) :
    (∀ height bid index tx, s.chain.tip.tipChain[height]? = some bid →
      s.transactionAt height index = some tx → getTransactionHash env.crypto tx = some tid →
      ∃ binaryTx pos found, s.MainTransaction env tid height bid index tx binaryTx ∧
        s.locateTransaction tid = .ok (some (pos, bid, binaryTx)) ∧
        s.readTransaction tid = .ok (some found) ∧ found.tx = tx ∧ found.blockHeight = height ∧
        found.blockHash = bid ∧ found.indexInBlock.toNat = index ∧
        found.binarySize.toNat = binaryTx.length) ∧
    ((∀ height index tx, s.transactionAt height index = some tx →
      getTransactionHash env.crypto tx ≠ some tid) → s.readTransaction tid = .ok none) := by
  have hs := h.positionsMain
  refine ⟨fun height bid index tx hchain htx hhash ↦ ?_, fun hnone ↦ ?_⟩
  · obtain ⟨binaryTx, hmain⟩ := h.exists_mainTransaction hchain htx hhash
    obtain ⟨pos, hpos, rfl, rfl⟩ := hs.filed hmain
    obtain ⟨bid', blockData, tx', binaryTx', hmain', hblock, htidy, hsized, hlocates⟩ := hs.placed hpos
    obtain ⟨rfl, rfl, rfl⟩ := hmain.unique hmain'
    have hfits := hlocates.fits
    have hsum : (pos.offset + pos.size).toNat = pos.offset.toNat + pos.size.toNat := by
      rw [UInt32.toNat_add, hlocates.size]
      omega
    have hlocated : s.locateTransaction tid = .ok (some (pos, bid', binaryTx')) := by
      unfold locateTransaction
      rw [hpos]
      refine bind_eq_ok.mpr ⟨bid', orFail_eq_ok.mpr hchain, ?_⟩
      refine bind_eq_ok.mpr ⟨blockData, orFail_eq_ok.mpr hblock, ?_⟩
      refine bind_eq_ok.mpr ⟨(), ensure_eq_ok.mpr ?_, ?_⟩
      · rw [hsum, hlocates.size]
        exact hfits
      · rw [hlocates.size, hlocates.bytes]
        rfl
    have hread : fromBinary CryoNero.readTransaction {} binaryTx' = (tx', true) := by
      obtain ⟨-, _, _, _, -, hhas⟩ := hmain
      exact fromBinary_writeTransaction hhas.written (by omega) htidy
    refine ⟨binaryTx', pos, ⟨tx', pos.height, bid', pos.index, pos.size⟩, hmain, hlocated, ?_, rfl, rfl,
      rfl, rfl, hlocates.size⟩
    unfold State.readTransaction
    rw [hlocated, ok_bind]
    dsimp only
    rw [hread]
    rfl
  · have hfree : s.ledger.index.transactionPos[tid]? = none := by
      cases hpos : s.ledger.index.transactionPos[tid]? with
      | none => rfl
      | some pos =>
        obtain ⟨_, _, tx, _, ⟨hbid, _, _, _, hholds, hhas⟩, -⟩ := hs.placed hpos
        refine absurd hhas.hash (hnone pos.height pos.index.toNat tx ?_)
        refine Option.bind_eq_some_iff.mpr ⟨_, ?_, hhas.place⟩
        exact Option.bind_eq_some_iff.mpr ⟨_, hbid, Tree.storedBlock_eq_some.mpr ⟨_, _, hholds⟩⟩
    unfold State.readTransaction locateTransaction
    rw [hfree]
    rfl

/-- A payment is found by its hash, behind the coinbase transaction of its block. -/
theorem transactions_exact_sample : ∃ (s : State) (tx : Transaction) (tid : Hash),
    s.transactionAt 2 1 = some tx ∧ getTransactionHash (Env.lax 5).crypto tx = some tid ∧
    (∀ height bid index tx, s.chain.tip.tipChain[height]? = some bid →
      s.transactionAt height index = some tx →
      getTransactionHash (Env.lax 5).crypto tx = some tid →
      ∃ binaryTx pos found, s.MainTransaction (.lax 5) tid height bid index tx binaryTx ∧
        s.locateTransaction tid = .ok (some (pos, bid, binaryTx)) ∧
        s.readTransaction tid = .ok (some found) ∧ found.tx = tx ∧ found.blockHeight = height ∧
        found.blockHash = bid ∧ found.indexInBlock.toNat = index ∧
        found.binarySize.toNat = binaryTx.length) ∧
    ((∀ height index tx, s.transactionAt height index = some tx →
      getTransactionHash (Env.lax 5).crypto tx ≠ some tid) → s.readTransaction tid = .ok none) := by
  obtain ⟨s, hs, hp⟩ := exists_reachable 0 (sampleBlocks (.lax 5))
    (fun s ↦ decide (∃ tx ∈ s.transactionAt 2 1, (getTransactionHash (Env.lax 5).crypto tx).isSome))
    (show endsIn (.lax 5) _ _ _ = true by decide +kernel)
  obtain ⟨tx, htx, htid⟩ := of_decide_eq_true hp
  obtain ⟨tid, htid⟩ := Option.isSome_iff_exists.mp htid
  exact ⟨s, tx, tid, htx, htid, Reachable.transactions_exact hs tid⟩

end State

end CryoNero
