import CryoNero.Chain.Records

/-!
# The main chain as a function of its tip

A block is stored under its hash and names the block below it. So the hash of the tip says what the main
chain is. Two nodes that have the same tip have the same blocks below it, unless they have stored
different bytes under one hash. Then each of these is the bytes of a block with this hash.

A block that does not decode has a hash of zeros in place of its own.
-/

namespace CryoNero

open Seria Store

/-! ## Blocks and their hashes -/

/-- The bytes are those of a block with the hash `bid`. -/
def Addressed (env : Env) (bid : Hash) (blockData : Bytes) : Prop :=
  ∃ (rawBlock : RawBlock) (block : Block), fromBinary readRawBlock {} blockData = (rawBlock, true) ∧
    Block.fromRawBlock rawBlock = (block, true) ∧ getBlockHash env.crypto block.header = some bid

namespace State

variable {env : Env} {accept : PreparedBlock → Prop} {guard guard' : State → Op → Prop} {s s' : State}

/-- What is stored under a hash has this hash. -/
theorem TreeSound.addressed (ht : s.TreeSound env accept) {bid : Hash} {data : Bytes}
    (hdata : s.chain.tree.blocks[bid]? = some data) (hbid : bid ≠ 0) : Addressed env bid data := by
  obtain ⟨info, hinfo⟩ := ht.coherent.block hdata
  obtain ⟨pb, prevInfo, rfl, horigin⟩ := ht.sound _ _ hinfo
  obtain rfl := Option.some.inj (hdata.symm.trans horigin.block)
  have hpb := horigin.faithful
  cases hok : (Block.fromRawBlock pb.rawBlock).2 with
  | false => exact absurd (hpb.bid_zero hok) hbid
  | true => exact ⟨pb.rawBlock, pb.block, hpb.data, Prod.ext hpb.block hok, hpb.bid hok⟩

/-- What the header of a stored block has to do with the block and with the header of the parent. -/
structure Linked (env : Env) (s : State) (bid : Hash) (info : Api.BlockHeader) (blockData : Bytes)
    (rawBlock : RawBlock) (block : Block) : Prop where
  holds : s.chain.tree.Holds bid blockData rawBlock block
  addressed : bid ≠ 0 → Addressed env bid blockData
  transactions : block.Checked env blockData rawBlock
  hash : info.hash = bid
  majorVersion : info.majorVersion = block.header.majorVersion
  minorVersion : info.minorVersion = block.header.minorVersion
  timestamp : info.timestamp = block.header.timestamp
  nonce : info.nonce = block.header.nonce
  previousBlockHash : info.previousBlockHash = block.header.previousBlockHash
  genesis : bid = env.genesisBlockHash → info.height = 0 ∧ info.cumulativeDifficulty = info.difficulty
  parent : bid ≠ env.genesisBlockHash → ∃ prev : Api.BlockHeader,
    s.chain.tree.headers[info.previousBlockHash]? = some prev ∧ info.height = prev.height + 1 ∧
      info.cumulativeDifficulty = prev.cumulativeDifficulty + info.difficulty

theorem TreeSound.exists_linked (ht : s.TreeSound env accept) {bid : Hash} {info : Api.BlockHeader}
    (hinfo : s.chain.tree.headers[bid]? = some info) :
    ∃ (blockData : Bytes) (rawBlock : RawBlock) (block : Block),
      s.Linked env bid info blockData rawBlock block := by
  obtain ⟨pb, prevInfo, rfl, horigin⟩ := ht.sound _ _ hinfo
  have hsame := horigin.sameBlock
  have hparent := horigin.parent
  unfold Tree.Parent at hparent
  refine ⟨pb.blockData, pb.rawBlock, pb.block, horigin.holds, ht.addressed horigin.block,
    ht.blockChecked horigin.holds hinfo, hsame.hash, hsame.majorVersion, hsame.minorVersion,
    hsame.timestamp, hsame.nonce, hsame.previousBlockHash, fun hgenesis ↦ ?_, fun hne ↦ ?_⟩
  · rw [if_pos hgenesis] at hparent
    have hwork := horigin.cumulativeDifficulty
    rw [hparent] at hwork
    exact ⟨ht.genesis_height (hgenesis ▸ hinfo), hwork.trans (UInt64.zero_add _)⟩
  · rw [if_neg hne] at hparent
    rw [horigin.previousBlockHash]
    exact ⟨prevInfo, hparent, horigin.height, horigin.cumulativeDifficulty⟩

/-- **The tree of blocks is authentic.** Whatever happened to a node, each header it has stored is that of
a stored block: the block is filed under its hash, its transactions are those whose hashes it lists, and
the header continues that of the parent, which is stored as well. -/
theorem Reachable.linked (h : s.Reachable env guard) {bid : Hash} {info : Api.BlockHeader}
    (hinfo : s.chain.tree.headers[bid]? = some info) :
    ∃ (blockData : Bytes) (rawBlock : RawBlock) (block : Block),
      s.Linked env bid info blockData rawBlock block := by
  have hmoves := h.moves (fun _ ↦ True) (fun _ _ ↦ trivial) fun _ _ _ _ _ _ ↦ trivial
  exact hmoves.treeSound.exists_linked hinfo

theorem linked_sample : ∃ (s : State) (info : Api.BlockHeader) (blockData : Bytes)
    (rawBlock : RawBlock) (block : Block), info.height = 2 ∧
    s.Linked (.lax 5) 0x902 info blockData rawBlock block := by
  obtain ⟨s, hs, hp⟩ := exists_reachable 0 (sampleBlocks (.lax 5))
    (fun s ↦ decide (s.chain.tree.headers[(0x902 : Hash)]?.map (·.height) = some 2))
    (show endsIn (.lax 5) _ _ _ = true by decide +kernel)
  obtain ⟨info, hinfo, hheight⟩ := Option.map_eq_some_iff.mp (of_decide_eq_true hp)
  obtain ⟨blockData, rawBlock, block, hlinked⟩ := Reachable.linked hs hinfo
  exact ⟨s, info, blockData, rawBlock, block, hheight, hlinked⟩

/-! ## Two nodes with the same tip -/

/-- What both nodes have stored under one hash is the same. -/
def Accord (s s' : State) : Prop :=
  ∀ (bid : Hash) (data data' : Bytes), s.chain.tree.blocks[bid]? = some data →
    s'.chain.tree.blocks[bid]? = some data' → data = data'

/-- The nodes have stored different bytes under one hash. -/
def Clash (env : Env) (s s' : State) : Prop :=
  ∃ (bid : Hash) (data data' : Bytes), s.chain.tree.blocks[bid]? = some data ∧
    s'.chain.tree.blocks[bid]? = some data' ∧ data ≠ data' ∧
    (bid ≠ 0 → Addressed env bid data ∧ Addressed env bid data')

theorem Accord.symm (h : Accord s s') : Accord s' s :=
  fun bid data data' hdata hdata' ↦ (h bid data' data hdata' hdata).symm

/-- What both have stored is the same, or the difference is between blocks with one hash. -/
theorem accord_or_clash (ht : s.TreeSound env accept) (ht' : s'.TreeSound env accept) :
    Accord s s' ∨ Clash env s s' := by
  by_cases haccord : Accord s s'
  · exact .inl haccord
  · unfold Accord at haccord
    push Not at haccord
    obtain ⟨bid, data, data', hdata, hdata', hne⟩ := haccord
    exact .inr ⟨bid, data, data', hdata, hdata', hne, fun hbid ↦
      ⟨ht.addressed hdata hbid, ht'.addressed hdata' hbid⟩⟩

private theorem Accord.blocks_eq (h : Accord s s') (ht : s.TreeSound env accept)
    (ht' : s'.TreeSound env accept)
    {bid : Hash} {info info' : Api.BlockHeader} (hinfo : s.chain.tree.headers[bid]? = some info)
    (hinfo' : s'.chain.tree.headers[bid]? = some info') :
    s'.chain.tree.blocks[bid]? = s.chain.tree.blocks[bid]? := by
  obtain ⟨data, _, _, hlinked⟩ := ht.exists_linked hinfo
  obtain ⟨data', _, _, hlinked'⟩ := ht'.exists_linked hinfo'
  rw [hlinked.holds.blocks, hlinked'.holds.blocks,
    h bid data data' hlinked.holds.blocks hlinked'.holds.blocks]

/-- It has the same parent on both nodes. -/
theorem Accord.previousBlockHash_eq (h : Accord s s') (ht : s.TreeSound env accept)
    (ht' : s'.TreeSound env accept) {bid : Hash} {info info' : Api.BlockHeader}
    (hinfo : s.chain.tree.headers[bid]? = some info)
    (hinfo' : s'.chain.tree.headers[bid]? = some info') :
    info'.previousBlockHash = info.previousBlockHash := by
  obtain ⟨data, rawBlock, block, hlinked⟩ := ht.exists_linked hinfo
  have hholds : s'.chain.tree.Holds bid data rawBlock block :=
    ⟨(h.blocks_eq ht ht' hinfo hinfo').trans hlinked.holds.blocks, hlinked.holds.data,
      hlinked.holds.block⟩
  rw [(ht'.previousBlockHash_eq hholds hinfo').1, hlinked.previousBlockHash]

/-- Going down from the same tip leads to the same blocks. -/
theorem Accord.below (h : Accord s s') (ht : s.TreeSound env accept) (ht' : s'.TreeSound env accept)
    (hr : s.Ready env) (hr' : s'.Ready env) (htip : s'.chain.tip.tipBid = s.chain.tip.tipBid) {n : ℕ}
    (hn : n ≤ s.chain.tip.tipHeight.toNat) : n ≤ s'.chain.tip.tipHeight.toNat ∧
      s'.chain.tip.tipChain[s'.chain.tip.tipHeight - UInt32.ofNat n]? =
        s.chain.tip.tipChain[s.chain.tip.tipHeight - UInt32.ofNat n]? := by
  induction n with
  | zero =>
    have hzero (x : Height) : x - UInt32.ofNat 0 = x := by simp
    rw [hzero, hzero, hr.main.tip, hr'.main.tip, htip]
    exact ⟨Nat.zero_le _, rfl⟩
  | succ n ih =>
    obtain ⟨hle, hsame⟩ := ih (by omega)
    have hheight := toNat_sub_ofNat (h := s.chain.tip.tipHeight) (i := n) (by omega)
    have hheight' := toNat_sub_ofNat (h := s'.chain.tip.tipHeight) (i := n) hle
    obtain ⟨b, hb⟩ := hr.main.filled (h := s.chain.tip.tipHeight - UInt32.ofNat n)
      (by rw [UInt32.le_iff_toNat_le]; omega)
    rw [hb] at hsame
    obtain ⟨info, hinfo, hlevel, hprev⟩ := hr.main.entry hb
    obtain ⟨info', hinfo', -, hprev'⟩ := hr'.main.entry hsame
    have hne : s.chain.tip.tipHeight - UInt32.ofNat n ≠ 0 := by
      intro h0
      rw [h0, UInt32.toNat_zero] at hheight
      omega
    have hne' : s'.chain.tip.tipHeight - UInt32.ofNat n ≠ 0 := by
      -- otherwise the block is the genesis block, which is not above the bottom of the other chain
      intro h0
      rw [h0, hr'.root] at hsame
      obtain rfl := Option.some.inj hsame
      exact hne (hlevel.symm.trans (ht.genesis_height hinfo))
    have hsub (x : Height) : x - UInt32.ofNat n - 1 = x - UInt32.ofNat (n + 1) := by
      rw [← sub_one_sub_ofNat]
      grind
    refine ⟨?_, ?_⟩
    · by_contra hgt
      refine hne' (UInt32.toNat_inj.mp ?_)
      rw [hheight', UInt32.toNat_zero]
      omega
    · rw [← hsub, ← hsub, hprev hne, hprev' hne', h.previousBlockHash_eq ht ht' hinfo hinfo']

theorem Accord.sameMainChain (h : Accord s s') (ht : s.TreeSound env accept)
    (ht' : s'.TreeSound env accept) (hr : s.Ready env) (hr' : s'.Ready env)
    (htip : s'.chain.tip.tipBid = s.chain.tip.tipBid) : SameMainChain s s' := by
  have hheight : s'.chain.tip.tipHeight = s.chain.tip.tipHeight := by
    have hle := (h.below ht ht' hr hr' htip le_rfl).1
    have hge := (h.symm.below ht' ht hr' hr htip.symm le_rfl).1
    exact UInt32.toNat_inj.mp (Nat.le_antisymm hge hle)
  have hchain : s'.chain.tip.tipChain = s.chain.tip.tipChain := by
    refine Table.ext_get fun height ↦ ?_
    by_cases hle : height ≤ s.chain.tip.tipHeight
    · rw [UInt32.le_iff_toNat_le] at hle
      have hdown : height =
          s.chain.tip.tipHeight - UInt32.ofNat (s.chain.tip.tipHeight.toNat - height.toNat) := by
        refine UInt32.toNat_inj.mp ?_
        rw [toNat_sub_ofNat (Nat.sub_le _ _)]
        omega
      have hsame := (h.below ht ht' hr hr' htip
        (n := s.chain.tip.tipHeight.toNat - height.toNat) (Nat.sub_le _ _)).2
      rwa [hheight, ← hdown] at hsame
    · have hnone : s.chain.tip.tipChain[height]? = none := by
        by_contra hsome
        obtain ⟨b, hb⟩ := Option.ne_none_iff_exists'.mp hsome
        exact hle (hr.main.above hb)
      rw [hnone]
      by_contra hsome
      obtain ⟨b, hb⟩ := Option.ne_none_iff_exists'.mp hsome
      exact hle (hheight ▸ hr'.main.above hb)
  refine ⟨hchain, fun height bid hbid ↦ ?_⟩
  obtain ⟨info, hinfo, -⟩ := hr.main.entry hbid
  obtain ⟨info', hinfo', -⟩ := hr'.main.entry (hchain ▸ hbid)
  exact h.blocks_eq ht ht' hinfo hinfo'

/-- **The tip says what the main chain is.** Two nodes that have the same tip have the same main chain of
the same stored blocks, whatever each of them was given and in whatever order, or there is a hash under
which they have stored different bytes. -/
theorem Reachable.same_tip (h : s.Reachable env guard) (h' : s'.Reachable env guard')
    (htip : s'.chain.tip.tipBid = s.chain.tip.tipBid) : SameMainChain s s' ∨ Clash env s s' := by
  have ht := (h.moves (fun _ ↦ True) (fun _ _ ↦ trivial) fun _ _ _ _ _ _ ↦ trivial).treeSound
  have ht' := (h'.moves (fun _ ↦ True) (fun _ _ ↦ trivial) fun _ _ _ _ _ _ ↦ trivial).treeSound
  have hr := h.ready (fun _ ↦ True) (fun _ _ ↦ trivial) fun _ _ _ _ _ _ ↦ trivial
  have hr' := h'.ready (fun _ ↦ True) (fun _ _ ↦ trivial) fun _ _ _ _ _ _ ↦ trivial
  exact (accord_or_clash ht ht').imp_left fun haccord ↦ haccord.sameMainChain ht ht' hr hr' htip

/-- One node is given two blocks, the other one gets a rival of the first one before. -/
theorem same_tip_sample : ∃ s s' : State, s.chain.tip.tipBid = 0x902 ∧
    s.chain.tree.headers[(0x901 : Hash)]? = none ∧ s'.chain.tree.headers[(0x901 : Hash)]?.isSome ∧
    (SameMainChain s s' ∨ Clash (.lax 5) s s') := by
  obtain ⟨s, hs, hp⟩ := exists_reachable 0 (sampleBlocks (.lax 5))
    (fun s ↦ decide (s.chain.tip.tipBid = 0x902 ∧ s.chain.tree.headers[(0x901 : Hash)]? = none))
    (show endsIn (.lax 5) _ _ _ = true by decide +kernel)
  obtain ⟨s', hs', hp'⟩ := exists_reachable 0
    (.addBlock (sampleBlock (.lax 5) 1 (Env.lax 5).genesisBlockHash sampleReward 9 []) false 0 ::
      sampleBlocks (.lax 5))
    (fun s ↦ decide (s.chain.tip.tipBid = 0x902 ∧ s.chain.tree.headers[(0x901 : Hash)]?.isSome))
    (show endsIn (.lax 5) _ _ _ = true by decide +kernel)
  obtain ⟨htip, hnone⟩ := of_decide_eq_true hp
  obtain ⟨htip', hsome⟩ := of_decide_eq_true hp'
  exact ⟨s, s', htip, hnone, hsome, Reachable.same_tip hs hs' (htip'.trans htip.symm)⟩

end State

end CryoNero
