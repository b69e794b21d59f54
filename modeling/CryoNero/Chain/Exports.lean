import CryoNero.Chain.BlockFiles

/-!
# Exporting the main chain

Every block of the main chain is stored with the bytes that it was added with, and these are written.
-/

namespace CryoNero

open Seria Store

/-- A block that was prepared from its bytes once can be prepared from them again. -/
theorem PreparedBlock.Faithful.ofData {env : Env} {pb : PreparedBlock} (h : pb.Faithful env) :
    ∃ pb', PreparedBlock.ofData env false pb.blockData = .ok pb' ∧ pb'.bid = pb.bid ∧
      pb'.block = pb.block ∧ pb'.blockData = pb.blockData := by
  obtain ⟨coinbaseTx, hcoinbase, -, -⟩ := h.coinbase
  rw [PreparedBlock.ofData, h.data]
  dsimp only
  unfold prepare
  dsimp only
  by_cases hok : (Block.fromRawBlock pb.rawBlock).2 = true
  · rw [if_pos hok, h.block, h.bid hok, hcoinbase]
    exact ⟨_, rfl, rfl, rfl, rfl⟩
  · rw [if_neg hok, h.block, hcoinbase]
    exact ⟨_, rfl, (h.bid_zero (Bool.eq_false_iff.mpr hok)).symm, rfl, rfl⟩

namespace State

variable {env : Env} {guard : State → Op → Prop} {s : State}

/-- The bytes of a block of the main chain. -/
def blockDataAt (s : State) (ha : ℕ) : Bytes :=
  ((s.chain.tip.tipChain[UInt32.ofNat ha]?).bind fun bid ↦ s.chain.tree.blocks[bid]?).getD []

/-- The blocks of the main chain from the first one on. -/
def mainBlocks (s : State) : List Bytes := (List.range (s.chain.tip.tipHeight.toNat + 1)).map s.blockDataAt

/-- What is stored for a height: the block that was added, on top of the one below. -/
structure StoredAt (env : Env) (s : State) (ha : ℕ) (pb : PreparedBlock) : Prop where
  faithful : pb.Faithful env
  bid : s.chain.tip.tipChain[UInt32.ofNat ha]? = some pb.bid
  data : s.chain.tree.blocks[pb.bid]? = some pb.blockData
  previous : ∀ below, ha = below + 1 →
    s.chain.tip.tipChain[UInt32.ofNat below]? = some pb.block.header.previousBlockHash

theorem StoredAt.blockDataAt {ha : ℕ} {pb : PreparedBlock} (h : s.StoredAt env ha pb) :
    s.blockDataAt ha = pb.blockData := by
  rw [State.blockDataAt, h.bid, Option.bind_some, h.data, Option.getD_some]

theorem Reachable.exists_storedAt (hs : s.Reachable env guard) {ha : ℕ}
    (hle : ha ≤ s.chain.tip.tipHeight.toNat) : ∃ pb, s.StoredAt env ha pb := by
  obtain ⟨ht, hr, -⟩ := hs.invariant (fun _ ↦ True) (I := fun _ ↦ True) (fun _ _ ↦ trivial)
    (fun _ _ _ _ _ _ ↦ trivial) (fun _ _ _ _ _ _ ↦ trivial) (fun _ _ _ _ _ _ ↦ trivial)
  have htip := s.chain.tip.tipHeight.toNat_lt
  have hheight : (UInt32.ofNat ha).toNat = ha := toNat_ofNat_of_lt (by omega)
  obtain ⟨bid, hbid⟩ := hr.main.filled (h := UInt32.ofNat ha) (by
    rw [UInt32.le_iff_toNat_le, hheight]
    exact hle)
  obtain ⟨info, hinfo, -, hprevious⟩ := hr.main.entry hbid
  obtain ⟨pb, prevInfo, rfl, horigin⟩ := ht.sound _ _ hinfo
  refine ⟨pb, horigin.faithful, hbid, horigin.block, fun below hbelow ↦ ?_⟩
  subst hbelow
  have hpred : UInt32.ofNat (below + 1) - 1 = UInt32.ofNat below := by
    rw [UInt32.ofNat_add]
    exact UInt32.add_sub_cancel _ _
  rw [← horigin.previousBlockHash, ← hpred]
  refine hprevious fun hzero ↦ ?_
  rw [hzero] at hheight
  exact Nat.succ_ne_zero below hheight.symm

theorem StoredAt.readBlockAt {ha : ℕ} {pb : PreparedBlock} (h : s.StoredAt env ha pb) :
    s.readBlockAt (UInt32.ofNat ha) = .ok (pb.blockData, pb.rawBlock) := by
  rw [State.readBlockAt, h.bid]
  exact bind_eq_ok.mpr ⟨_, rfl, bind_eq_ok.mpr
    ⟨_, Tree.readBlock_eq_ok.mpr ⟨h.data, h.faithful.data⟩, rfl⟩⟩

theorem StoredAt.writeRawBlock {ha : ℕ} {pb : PreparedBlock} (h : s.StoredAt env ha pb) :
    CryoNero.writeRawBlock pb.rawBlock = pb.blockData := by
  have hcanonical := canonical_readRawBlock _ _ _ _ (fromBinary_eq_true.mp h.faithful.data)
  rw [List.append_nil] at hcanonical
  exact hcanonical.symm

theorem Reachable.length_lt_of_mem (hs : s.Reachable env guard) {b : Bytes} (hb : b ∈ s.mainBlocks) :
    b.length < 2 ^ 32 := by
  obtain ⟨ha, hmem, rfl⟩ := List.mem_map.mp hb
  obtain ⟨pb, hpb⟩ := hs.exists_storedAt (Nat.lt_succ_iff.mp (List.mem_range.mp hmem))
  rw [hpb.blockDataAt]
  exact hpb.faithful.sized

@[simp] theorem length_mainBlocks (s : State) : s.mainBlocks.length = s.chain.tip.tipHeight.toNat + 1 := by
  rw [mainBlocks, List.length_map, List.length_range]

theorem getElem?_mainBlocks {ha : ℕ} (hle : ha ≤ s.chain.tip.tipHeight.toNat) :
    s.mainBlocks[ha]? = some (s.blockDataAt ha) := by
  rw [mainBlocks, List.getElem?_map, List.getElem?_range (Nat.lt_succ_of_le hle)]
  rfl

/-- What is written so far. -/
structure Writing (blocks : List Bytes) (count : ℕ) (w : LegacyBlockChainWriter) : Prop where
  items : w.itemsFile.content = blocks.flatten
  itemsEnd : w.itemsFile.position = w.itemsFile.content.length
  index : w.indexesFile.content = leBytes 8 count ++ (blocks.map List.length).flatMap (leBytes 4)
  indexEnd : w.indexesFile.position = w.indexesFile.content.length

private theorem writing_create (count : UInt64) :
    Writing [] count.toNat (LegacyBlockChainWriter.create count) := by
  obtain ⟨hcontent, hposition⟩ := FileStream.write_at_end (f := {}) rfl (leBytes 8 count.toNat)
  refine ⟨rfl, rfl, ?_, hposition⟩
  change (({} : FileStream).write (leBytes 8 count.toNat)).content = _
  rw [hcontent]
  exact (List.append_nil _).symm

theorem Writing.writeBlock {blocks : List Bytes} {count : ℕ} {w : LegacyBlockChainWriter}
    (h : Writing blocks count w) {rawBlock : RawBlock} {b : Bytes} (hb : CryoNero.writeRawBlock rawBlock = b)
    (hsized : b.length < 2 ^ 32) : Writing (blocks ++ [b]) count (w.writeBlock rawBlock) := by
  obtain ⟨hitems, hitemsEnd⟩ := FileStream.write_at_end h.itemsEnd b
  obtain ⟨hindex, hindexEnd⟩ := FileStream.write_at_end h.indexEnd (leBytes 4 b.length)
  have hsize : (UInt32.ofNat b.length).toNat = b.length := toNat_ofNat_of_lt hsized
  have hwritten : w.writeBlock rawBlock =
      { itemsFile := w.itemsFile.write b, indexesFile := w.indexesFile.write (leBytes 4 b.length) } := by
    rw [LegacyBlockChainWriter.writeBlock, hb, hsize]
  rw [hwritten]
  refine ⟨?_, hitemsEnd, ?_, hindexEnd⟩
  · rw [hitems, h.items, List.flatten_append, List.flatten_singleton]
  · rw [hindex, h.index, List.append_assoc, List.map_append, List.flatMap_append]
    simp

/-- **An export writes the blocks of the main chain.** -/
theorem Reachable.exportBlockchain2 (hs : s.Reachable env guard) (htip : s.chain.tip.tipHeight ≠ 0xFFFFFFFF) :
    ∃ w, s.exportBlockchain2 = .ok w ∧ w.files = filesOf s.mainBlocks := by
  have hnext : (s.chain.tip.tipHeight + 1).toNat = s.chain.tip.tipHeight.toNat + 1 :=
    toNat_add_one htip
  have hlt := (s.chain.tip.tipHeight + 1).toNat_lt
  rw [hnext] at hlt
  have hcount : (UInt64.ofNat (s.chain.tip.tipHeight.toNat + 1)).toNat = s.chain.tip.tipHeight.toNat + 1 :=
    UInt64.toNat_ofNat_of_lt' (show s.chain.tip.tipHeight.toNat + 1 < 2 ^ 64 by omega)
  rw [State.exportBlockchain2, hnext]
  obtain ⟨w, hw, hwriting⟩ := foldlM_completes
    (fun done w ↦ Writing (done.map s.blockDataAt) (s.chain.tip.tipHeight.toNat + 1) w)
    (f := fun writer ha ↦ do
      let block ← s.readBlockAt (UInt32.ofNat ha)
      return LegacyBlockChainWriter.writeBlock writer block.2)
    (l := List.range (s.chain.tip.tipHeight.toNat + 1))
    (s := LegacyBlockChainWriter.create (UInt64.ofNat (s.chain.tip.tipHeight.toNat + 1)))
    (by
      have := writing_create (UInt64.ofNat (s.chain.tip.tipHeight.toNat + 1))
      rwa [hcount] at this)
    (by
      intro done ha rest w hl hwriting
      have hmem : ha ∈ List.range (s.chain.tip.tipHeight.toNat + 1) := by
        rw [hl]
        exact List.mem_append_right _ List.mem_cons_self
      obtain ⟨pb, hpb⟩ := hs.exists_storedAt (Nat.lt_succ_iff.mp (List.mem_range.mp hmem))
      refine ⟨w.writeBlock pb.rawBlock, bind_eq_ok.mpr ⟨_, hpb.readBlockAt, rfl⟩, ?_⟩
      rw [List.map_append]
      refine hwriting.writeBlock (hpb.writeRawBlock.trans hpb.blockDataAt.symm) ?_
      rw [hpb.blockDataAt]
      exact hpb.faithful.sized)
  refine ⟨w, hw, ?_⟩
  rw [LegacyBlockChainWriter.files, hwriting.items, hwriting.index, filesOf, length_mainBlocks]
  rfl

theorem exportBlockchain2_of_full (htip : s.chain.tip.tipHeight = 0xFFFFFFFF) :
    ∃ w, s.exportBlockchain2 = .ok w ∧ w.files = filesOf [] := by
  rw [State.exportBlockchain2, htip]
  exact ⟨_, rfl, by decide⟩

end State

end CryoNero
