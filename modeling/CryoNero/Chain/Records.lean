import CryoNero.Chain.Wallet

/-!
# The database as a function of the main chain

What the database holds about the main chain does not depend on how the node came to it. Whatever
branches were followed and left again, and whatever was looked up on the way: two nodes whose main
chains consist of the same stored blocks have the same key images, outputs, global indices, positions
and timestamps on record. A block that is redone and undone again leaves no trace.

The flags of outputs that were the only member of a ring are not part of this. Undoing an input takes
the flag back also when another input of the main chain has set it.
-/

namespace CryoNero

open Seria Store

/-- The records are the same, up to what is cached and to the flags of outputs. -/
structure Index.SameRecords (idx idx' : Index) : Prop where
  keyimages : idx'.keyimages = idx.keyimages
  outputs : ∀ (amount : Amount) (globalIndex : UInt32),
    (idx'.readAmountOutput amount globalIndex).map (·.created) =
      (idx.readAmountOutput amount globalIndex).map (·.created)
  next : ∀ amount : Amount, idx'.nextGlobalIndexForAmount amount = idx.nextGlobalIndexForAmount amount
  blockGlobalIndices : idx'.blockGlobalIndices = idx.blockGlobalIndices
  transactionPos : idx'.transactionPos = idx.transactionPos
  timestampBlock : idx'.timestampBlock = idx.timestampBlock

namespace State

/-- The main chains consist of the same stored blocks. -/
structure SameMainChain (s s' : State) : Prop where
  tipChain : s'.chain.tip.tipChain = s.chain.tip.tipChain
  blocks : ∀ (height : Height) (bid : Hash), s.chain.tip.tipChain[height]? = some bid →
    s'.chain.tree.blocks[bid]? = s.chain.tree.blocks[bid]?

/-- Only blocks of the main chain are on file, and the positions of their transactions are those that
filing the block gives, whatever is on file before. -/
structure FilesMain (env : Env) (s : State) : Prop where
  onChain : ∀ {bid : Hash} {gis : List (List UInt32)},
    s.ledger.index.blockGlobalIndices[bid]? = some gis →
    ∃ height : Height, s.chain.tip.tipChain[height]? = some bid
  positions : ∀ {height : Height} {bid : Hash} {blockData : Bytes} {rawBlock : RawBlock} {block : Block},
    s.chain.tip.tipChain[height]? = some bid → s.chain.tree.Holds bid blockData rawBlock block →
    ∃ (info : Api.BlockHeader) (tid : Hash) (idx idx' : Index), info.height = height ∧
      getTransactionHash env.crypto block.header.baseTransaction = some tid ∧
      idx.indexBlock blockData rawBlock block info tid = .ok idx' ∧
      ∀ t ∈ block.tids tid, s.ledger.index.transactionPos[t]? = idx'.transactionPos[t]?

variable {env : Env} {guard guard' : State → Op → Prop} {s s' : State}

theorem SameMainChain.mainBlock (h : SameMainChain s s') (height : Height) :
    s'.mainBlock height = s.mainBlock height := by
  unfold State.mainBlock
  rw [h.tipChain]
  cases hbid : s.chain.tip.tipChain[height]? with
  | none => rfl
  | some bid => exact Tree.storedBlock_congr (h.blocks height bid hbid)

theorem SameMainChain.outputsTo (h : SameMainChain s s') (n : ℕ) : s'.outputsTo n = s.outputsTo n :=
  outputsTo_congr fun _ _ ↦ h.mainBlock _

theorem SameMainChain.holds (h : SameMainChain s s') {height : Height} {bid : Hash} {blockData : Bytes}
    {rawBlock : RawBlock} {block : Block} (hbid : s.chain.tip.tipChain[height]? = some bid)
    (hholds : s.chain.tree.Holds bid blockData rawBlock block) :
    s'.chain.tree.Holds bid blockData rawBlock block :=
  ⟨(h.blocks height bid hbid).trans hholds.blocks, hholds.data, hholds.block⟩

theorem SameMainChain.symm (h : SameMainChain s s') : SameMainChain s' s where
  tipChain := h.tipChain.symm
  blocks height bid hbid := (h.blocks height bid (by rw [← h.tipChain]; exact hbid)).symm

/-! ## The files along a run -/

private theorem filesMain_of_bare (h : s.Bare) : s.FilesMain env := by
  constructor
  · intro bid gis hgis
    rw [h.index.blockGlobalIndices] at hgis
    cases (Std.ExtTreeMap.getElem?_empty).symm.trans hgis
  · intro height bid _ _ _ hbid
    rw [h.tip] at hbid
    cases (Std.ExtTreeMap.getElem?_empty).symm.trans hbid

theorem FilesMain.kept (h : s.FilesMain env) (hkept : Kept s s') : s'.FilesMain env := by
  constructor
  · intro bid gis hgis
    rw [hkept.index.files.blockGlobalIndices] at hgis
    rw [hkept.tipChain]
    exact h.onChain hgis
  · intro height bid blockData rawBlock block hbid hholds
    rw [hkept.tipChain] at hbid
    rw [hkept.index.files.transactionPos]
    exact h.positions hbid ⟨(hkept.blocks hbid).symm.trans hholds.blocks, hholds.data, hholds.block⟩

/-- A block goes on top of the main chain. -/
theorem FilesMain.pushed {bid : Hash} {blockData : Bytes} {rawBlock : RawBlock} {block : Block}
    {info : Api.BlockHeader} {tid : Hash} (h : s.FilesMain env)
    (hpush : Pushed s s' env bid blockData rawBlock block info tid) : s'.FilesMain env := by
  obtain ⟨idx₁, hredone, hfiled, -⟩ := Ledger.redoBlock_eq_ok hpush.redone
  have htop : s'.chain.tip.tipChain[info.height]? = some bid := by
    rw [hpush.tipChain, Table.get_insert_self]
  constructor
  · intro b gis hgis
    obtain ⟨gis₀, hinsert⟩ := hfiled.block
    rw [hinsert, Table.get_insert, hredone.files.blockGlobalIndices] at hgis
    split_ifs at hgis with hb
    · exact ⟨info.height, hb ▸ htop⟩
    · obtain ⟨height, hheight⟩ := h.onChain hgis
      refine ⟨height, ?_⟩
      rw [hpush.tipChain, Table.get_insert_of_ne]
      · exact hheight
      · rintro rfl
        rw [hpush.free] at hheight
        cases hheight
  · intro height b data raw blk hb hholds
    rw [hpush.tree] at hholds
    by_cases hheight : info.height = height
    · subst hheight
      obtain rfl := Option.some.inj (htop.symm.trans hb)
      obtain ⟨rfl, rfl, rfl⟩ := hpush.holds.unique hholds
      obtain ⟨delta, gis, l₁, -, -, -, hindex, -⟩ := Ledger.redoBlock_parts hpush.redone
      exact ⟨info, tid, _, _, rfl, hpush.coinbase, hindex, fun _ _ ↦ rfl⟩
    · rw [hpush.tipChain, Table.get_insert_of_ne _ _ hheight] at hb
      obtain ⟨info', tid', idx, idx', hinfo', htid', hindex, hsame⟩ := h.positions hb hholds
      refine ⟨info', tid', idx, idx', hinfo', htid', hindex, fun t ht ↦ ?_⟩
      obtain ⟨pos, hpos⟩ := (Index.indexBlock_eq_ok hindex).2.placed t ht
      rw [hfiled.otherTransactions, hredone.files.transactionPos]
      · exact hsame t ht
      · -- a transaction of an older block has its position already
        intro hnew
        have hfree := hfiled.transactionsFree t hnew
        rw [hredone.files.transactionPos, hsame t ht, hpos] at hfree
        cases hfree

/-- The block at the top goes. -/
theorem FilesMain.popped {bid : Hash} {block : Block} {top : Height} (h : s.FilesMain env)
    (hpositions : s.PositionsMain env) (hpop : Popped s s' env bid block top) : s'.FilesMain env := by
  obtain ⟨idx₁, tid₀, -, hcoinbase, hunfiled, -⟩ := Index.undoBlock_eq_ok hpop.undone
  obtain ⟨blockData, rawBlock, hholds, hchecked⟩ := hpop.checked
  have hbelow {height : Height} {b : Hash} (hb : s'.chain.tip.tipChain[height]? = some b) :
      top ≠ height ∧ s.chain.tip.tipChain[height]? = some b := by
    rw [hpop.tipChain, Table.get_erase] at hb
    split_ifs at hb with hne
    exact ⟨hne, hb⟩
  constructor
  · intro b gis hgis
    rw [hunfiled.block, Table.get_erase] at hgis
    split_ifs at hgis with hne
    obtain ⟨height, hheight⟩ := h.onChain hgis
    refine ⟨height, ?_⟩
    rw [hpop.tipChain, Table.get_erase_of_ne]
    · exact hheight
    · rintro rfl
      exact hne (Option.some.inj (hpop.top.symm.trans hheight))
  · intro height b data raw blk hb hstored
    obtain ⟨hne, hb⟩ := hbelow hb
    rw [hpop.tree] at hstored
    obtain ⟨info', tid', idx, idx', hinfo', htid', hindex, hsame⟩ := h.positions hb hstored
    refine ⟨info', tid', idx, idx', hinfo', htid', hindex, fun t ht ↦ ?_⟩
    rw [hunfiled.transactions, if_neg]
    · exact hsame t ht
    · -- a position tells the height, and the block that goes has another one
      intro hgone
      obtain ⟨i, hi⟩ := List.getElem?_of_mem hgone
      obtain ⟨tx, binaryTx, hhas⟩ := hchecked.hasTransaction hcoinbase hi
      obtain ⟨pos, hpos, hheight, -⟩ :=
        hpositions.filed ⟨hpop.top, blockData, rawBlock, block, hholds, hhas⟩
      obtain ⟨pos', hlevel, hpos', -⟩ := Index.indexBlock_alike rfl hindex hindex t ht
      obtain rfl := Option.some.inj (hpos.symm.trans ((hsame t ht).trans hpos'))
      exact hne (hheight.symm.trans (hlevel.trans hinfo'))

/-- The position of a transaction of the main chain is that which filing its block gives. -/
theorem Reachable.filesMain (h : s.Reachable env guard) : s.FilesMain env := by
  have hboth : s.PositionsMain env ∧ s.FilesMain env := by
    refine h.main_invariant (I := fun s ↦ s.PositionsMain env ∧ s.FilesMain env) ?_ ?_ ?_ ?_
    · intro s hbare
      exact ⟨positionsMain_of_bare hbare, filesMain_of_bare hbare⟩
    · intro s s' hkept hs
      exact ⟨hs.1.kept hkept, hs.2.kept hkept⟩
    · intro s s' _ _ _ _ _ _ hpush hs
      exact ⟨hs.1.pushed hpush, hs.2.pushed hpush⟩
    · intro s s' _ _ _ hpop hs
      exact ⟨hs.1.popped hpop, hs.2.popped hs.1 hpop⟩
  exact hboth.2

/-! ## Two nodes with the same main chain -/

private theorem Reachable.mainChecked (h : s.Reachable env guard) {height : Height} {bid : Hash}
    {blockData : Bytes} {rawBlock : RawBlock} {block : Block}
    (hbid : s.chain.tip.tipChain[height]? = some bid)
    (hholds : s.chain.tree.Holds bid blockData rawBlock block) :
    block.Checked env blockData rawBlock := by
  obtain ⟨ht, hr, -⟩ := h.invariant (fun _ ↦ True) (I := fun _ ↦ True) (fun _ _ ↦ trivial)
    (fun _ _ _ _ _ _ ↦ trivial) (fun _ _ _ _ _ _ ↦ trivial) fun _ _ _ _ _ _ ↦ trivial
  obtain ⟨info, hinfo, -⟩ := hr.main.entry hbid
  exact ht.blockChecked hholds hinfo

/-- A transaction that is on file in one database is on file at the same position in the other. -/
theorem SameMainChain.position (hsame : SameMainChain s s') (h : s.Reachable env guard)
    (h' : s'.Reachable env guard') {tid : Hash} {pos : TransactionPos}
    (hpos : s.ledger.index.transactionPos[tid]? = some pos) :
    s'.ledger.index.transactionPos[tid]? = some pos := by
  obtain ⟨bid, -, tx, binaryTx, ⟨hbid, blockData, rawBlock, block, hholds, hhas⟩, -⟩ :=
    h.positionsMain.placed hpos
  obtain ⟨info, t, idx, idx', hheight, ht, hindex, hfiled⟩ := h.filesMain.positions hbid hholds
  obtain ⟨info', t', jdx, jdx', hheight', ht', hindex', hfiled'⟩ := h'.filesMain.positions
    (by rw [hsame.tipChain]; exact hbid) (hsame.holds hbid hholds)
  obtain rfl := Option.some.inj (ht.symm.trans ht')
  have hmem := List.mem_of_getElem? (hhas.tids (h.mainChecked hbid hholds) ht)
  obtain ⟨pos', -, hpos', hpos''⟩ :=
    Index.indexBlock_alike (hheight'.trans hheight.symm) hindex hindex' tid hmem
  rw [hfiled' tid hmem, hpos'', ← hpos', ← hfiled tid hmem, hpos]

/-- The global indices of a block that is on file in one database are those in the other. -/
theorem SameMainChain.globalIndices (hsame : SameMainChain s s') (h : s.Reachable env guard)
    (h' : s'.Reachable env guard') {bid : Hash} {gis : List (List UInt32)}
    (hgis : s.ledger.index.blockGlobalIndices[bid]? = some gis) :
    s'.ledger.index.blockGlobalIndices[bid]? = some gis := by
  obtain ⟨height, hbid⟩ := h.filesMain.onChain hgis
  have hready := h.ready (fun _ ↦ True) (fun _ _ ↦ trivial) fun _ _ _ _ _ _ ↦ trivial
  obtain ⟨b, block, hb, hblock⟩ := h.exists_mainBlock (hready.main.above hbid)
  rw [h.outputsMain.indices hbid hblock] at hgis
  rw [h'.outputsMain.indices (by rw [hsame.tipChain]; exact hbid)
    ((hsame.mainBlock height).trans hblock), hsame.outputsTo]
  exact hgis

/-- **The database is a function of the main chain.** Two nodes whose main chains consist of the same
stored blocks have the same records, whatever blocks and transactions each of them was given, in
whatever order, and whatever either of them redid and undid in between. -/
theorem Reachable.records_determined (h : s.Reachable env guard) (h' : s'.Reachable env guard')
    (hsame : SameMainChain s s') : s.ledger.index.SameRecords s'.ledger.index := by
  have hcreates := h.outputsMain.creates
  have hcreates' := h'.outputsMain.creates
  rw [hsame.tipChain, hsame.outputsTo] at hcreates'
  refine ⟨?_, fun amount globalIndex ↦ ?_, fun amount ↦ ?_, ?_, ?_, ?_⟩
  · refine Table.ext_get fun ki ↦ Option.ext fun height ↦ ?_
    rw [h'.spendsMain.keyimages, h.spendsMain.keyimages, hsame.mainBlock]
  · rw [hcreates'.readAmountOutput, hcreates.readAmountOutput]
  · rw [hcreates'.nextGlobalIndexForAmount, hcreates.nextGlobalIndexForAmount]
  · refine Table.ext_get fun bid ↦ Option.ext fun gis ↦ ?_
    exact ⟨hsame.symm.globalIndices h' h, hsame.globalIndices h h'⟩
  · refine Table.ext_get fun tid ↦ Option.ext fun pos ↦ ?_
    exact ⟨hsame.symm.position h' h, hsame.position h h'⟩
  · refine Table.ext_get fun key ↦ Option.ext fun u ↦ ?_
    have htimes := h'.timesMain (ofLex key).1 (ofLex key).2
    rw [hsame.mainBlock, ← h.timesMain, Option.isSome_iff_exists, Option.isSome_iff_exists] at htimes
    constructor
    · intro hu
      obtain ⟨u', hu'⟩ := htimes.mp ⟨u, hu⟩
      exact hu'
    · intro hu
      obtain ⟨u', hu'⟩ := htimes.mpr ⟨u, hu⟩
      exact hu'

/-- The main chain of a node, with the bytes of its blocks. -/
def storedMain (s : State) : List ((Height × Hash) × Option Bytes) :=
  s.chain.tip.tipChain.toList.map fun e ↦ (e, s.chain.tree.blocks[e.2]?)

private theorem sameMainChain_of_storedMain {s s' : State} (h : s'.storedMain = s.storedMain) :
    SameMainChain s s' := by
  have hchain : ∀ t : State, t.storedMain.map Prod.fst = t.chain.tip.tipChain.toList := fun t ↦ by
    simp [storedMain, Function.comp_def]
  refine ⟨Std.ExtTreeMap.ext_toList (List.Perm.of_eq ?_), fun height bid hbid ↦ ?_⟩
  · rw [← hchain, ← hchain, h]
  · have hmem : ((height, bid), s.chain.tree.blocks[bid]?) ∈ s.storedMain :=
      List.mem_map.mpr ⟨(height, bid), Table.mem_toList.mpr hbid, rfl⟩
    rw [← h] at hmem
    obtain ⟨e, -, he⟩ := List.mem_map.mp hmem
    obtain ⟨rfl, hblock⟩ := Prod.mk.inj he
    exact hblock

/-- The rival of the first block comes first, and is on the main chain until the second block comes. -/
def sampleRivaled : List Op :=
  .addBlock (sampleBlock (.lax 5) 1 (Env.lax 5).genesisBlockHash sampleReward 9 []) false 0 ::
    sampleBlocks (.lax 5)

def sampleMain : List ((Height × Hash) × Option Bytes) :=
  ((run (.lax 5) 0 (sampleBlocks (.lax 5))).toOption.map storedMain).getD []

theorem records_determined_sample : ∃ s s' : State, s.spentAt 2 0 = some 7 ∧
    s.chain.tree.headers[(0x901 : Hash)]? = none ∧ s'.chain.tree.headers[(0x901 : Hash)]?.isSome ∧
    s.ledger.index.SameRecords s'.ledger.index := by
  obtain ⟨s, hs, hp⟩ := exists_reachable 0 (sampleBlocks (.lax 5))
    (fun s ↦ decide (s.spentAt 2 0 = some 7 ∧ s.chain.tree.headers[(0x901 : Hash)]?.isNone ∧
      s.storedMain = sampleMain))
    (show endsIn (.lax 5) _ _ _ = true by decide +kernel)
  obtain ⟨s', hs', hp'⟩ := exists_reachable 0 sampleRivaled
    (fun s ↦ decide (s.chain.tree.headers[(0x901 : Hash)]?.isSome ∧ s.storedMain = sampleMain))
    (show endsIn (.lax 5) _ _ _ = true by decide +kernel)
  obtain ⟨hspent, hnone, hmain⟩ := of_decide_eq_true hp
  obtain ⟨hrival, hmain'⟩ := of_decide_eq_true hp'
  exact ⟨s, s', hspent, Option.isNone_iff_eq_none.mp hnone, hrival, Reachable.records_determined hs hs'
    (sameMainChain_of_storedMain (hmain'.trans hmain.symm))⟩

end State

end CryoNero
