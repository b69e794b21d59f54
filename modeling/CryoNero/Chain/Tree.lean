import CryoNero.Chain.Steps

/-!
# Where the blocks of the tree come from

Nothing enters the tree but blocks that passed the check, and nothing in it is ever changed or
removed. So every header in the tree has an origin: the prepared block it was filled in for, the
parent it was checked against, which is still there, and the check it passed.
-/

namespace CryoNero

open Seria Store

/-- A header of the tree together with the block it was filled in for. -/
structure Tree.Origin (env : Env) (accept : PreparedBlock → Prop) (t : Tree) (pb : PreparedBlock)
    (prevInfo info : Api.BlockHeader) : Prop where
  faithful : pb.Faithful env
  accepted : accept pb
  block : t.blocks[pb.bid]? = some pb.blockData
  header : t.headers[pb.bid]? = some info
  parent : t.Parent env pb prevInfo
  checked : ∃ (bc : BlockChain) (now : Timestamp),
    bc.checkStandaloneConsensus env pb now prevInfo (State.blockInfo pb prevInfo {}) true = .ok info

/-- Every header of the tree has an origin. -/
def Tree.Sound (env : Env) (accept : PreparedBlock → Prop) (t : Tree) : Prop :=
  ∀ (bid : Hash) (info : Api.BlockHeader), t.headers[bid]? = some info →
    ∃ pb prevInfo, pb.bid = bid ∧ t.Origin env accept pb prevInfo info

variable {env : Env} {accept : PreparedBlock → Prop}

namespace Tree

variable {t t' : Tree} {pb : PreparedBlock} {prevInfo info : Api.BlockHeader}

/-- An origin remains one when blocks and headers are added. -/
theorem Origin.mono (h : t.Origin env accept pb prevInfo info)
    (hblocks : ∀ {b : Hash} {x : Bytes}, t.blocks[b]? = some x → t'.blocks[b]? = some x)
    (hheaders : ∀ {b : Hash} {x : Api.BlockHeader}, t.headers[b]? = some x →
      t'.headers[b]? = some x) : t'.Origin env accept pb prevInfo info where
  faithful := h.faithful
  accepted := h.accepted
  block := hblocks h.block
  header := hheaders h.header
  parent := by
    have hparent := h.parent
    unfold Parent at hparent ⊢
    split_ifs at hparent ⊢ with hgenesis
    · exact hparent
    · exact hheaders hparent
  checked := h.checked

theorem Origin.sameBlock (h : t.Origin env accept pb prevInfo info) :
    SameBlock (State.blockInfo pb prevInfo {}) info := by
  obtain ⟨_, _, hcheck⟩ := h.checked
  exact BlockChain.sameBlock_of_checked hcheck

theorem Origin.height (h : t.Origin env accept pb prevInfo info) :
    info.height = prevInfo.height + 1 := h.sameBlock.height

theorem Origin.previousBlockHash (h : t.Origin env accept pb prevInfo info) :
    info.previousBlockHash = pb.block.header.previousBlockHash := h.sameBlock.previousBlockHash

theorem Origin.cumulativeDifficulty (h : t.Origin env accept pb prevInfo info) :
    info.cumulativeDifficulty = prevInfo.cumulativeDifficulty + info.difficulty := by
  obtain ⟨_, _, hcheck⟩ := h.checked
  exact BlockChain.cumulativeDifficulty_of_checked hcheck

theorem Origin.holds (h : t.Origin env accept pb prevInfo info) :
    t.Holds pb.bid pb.blockData pb.rawBlock pb.block := ⟨h.block, h.faithful.data, h.faithful.block⟩

theorem Holds.unique {bid : Hash} {blockData blockData' : Bytes} {rawBlock rawBlock' : RawBlock}
    {block block' : Block} (h : t.Holds bid blockData rawBlock block)
    (h' : t.Holds bid blockData' rawBlock' block') :
    blockData = blockData' ∧ rawBlock = rawBlock' ∧ block = block' := by
  have hdata := Option.some.inj (h.blocks.symm.trans h'.blocks)
  have hraw := h.data
  rw [hdata, h'.data] at hraw
  have hraw' : rawBlock = rawBlock' := (Prod.mk.inj hraw).1.symm
  exact ⟨hdata, hraw', by rw [← h.block, ← h'.block, hraw']⟩

/-- A block enters the tree. -/
theorem Sound.store {bc : BlockChain} {now : Timestamp}
    (ht : t.Sound env accept) (hblock : t.blocks[pb.bid]? = none)
    (hfree : t.headers[pb.bid]? = none) (hpb : pb.Faithful env) (hacc : accept pb)
    (hparent : t.Parent env pb prevInfo)
    (hcheck : bc.checkStandaloneConsensus env pb now prevInfo (State.blockInfo pb prevInfo {}) true =
      .ok info) : (t.store pb.bid pb.blockData info).Sound env accept := by
  have hblocks {b : Hash} {x : Bytes} (h : t.blocks[b]? = some x) :
      (t.store pb.bid pb.blockData info).blocks[b]? = some x := by
    rw [Tree.store, Table.get_insert_of_ne _ _ (by rintro rfl; rw [hblock] at h; cases h)]
    exact h
  have hheaders {b : Hash} {x : Api.BlockHeader} (h : t.headers[b]? = some x) :
      (t.store pb.bid pb.blockData info).headers[b]? = some x := by
    rw [Tree.store, Table.get_insert_of_ne _ _ (by rintro rfl; rw [hfree] at h; cases h)]
    exact h
  intro bid info' h
  by_cases hbid : pb.bid = bid
  · subst hbid
    cases (Table.get_insert_self _ _ _).symm.trans h
    refine ⟨pb, prevInfo, rfl, hpb, hacc, Table.get_insert_self _ _ _, Table.get_insert_self _ _ _,
      ?_, bc, now, hcheck⟩
    unfold Parent at hparent ⊢
    split_ifs at hparent ⊢ with hgenesis
    · exact hparent
    · exact hheaders hparent
  · obtain ⟨pb', prevInfo', rfl, horigin⟩ := ht _ _ ((Table.get_insert_of_ne _ _ hbid).symm.trans h)
    exact ⟨pb', prevInfo', rfl, horigin.mono hblocks hheaders⟩

theorem Sound.congr (ht : t.Sound env accept) (hblocks : t'.blocks = t.blocks)
    (hheaders : t'.headers = t.headers) : t'.Sound env accept := by
  intro bid info h
  obtain ⟨pb, prevInfo, rfl, horigin⟩ := ht _ _ (by rw [← hheaders]; exact h)
  exact ⟨pb, prevInfo, rfl, horigin.mono (by rw [hblocks]; exact id) (by rw [hheaders]; exact id)⟩

end Tree

private theorem BlockChain.Coherent.blocks_eq_none {bc : BlockChain} (hc : bc.Coherent) {bid : Hash}
    (h : bc.tree.headers[bid]? = none) : bc.tree.blocks[bid]? = none := by
  cases hb : bc.tree.blocks[bid]? with
  | none => rfl
  | some data =>
    obtain ⟨_, hh⟩ := hc.block hb
    rw [h] at hh
    cases hh

variable {s s' : State}

/-- What a move does to the tree: a block that passed the check enters it, or blocks and headers stay
as they are. -/
theorem Move.tree_cases (h : Move env accept s s') :
    (∃ pb now prevInfo info, pb.Faithful env ∧ accept pb ∧
      s.chain.tree.headers[pb.bid]? = none ∧ s.chain.tree.Parent env pb prevInfo ∧
      s.chain.checkStandaloneConsensus env pb now prevInfo (State.blockInfo pb prevInfo {}) true =
        .ok info ∧
      s'.chain.tree = s.chain.tree.store pb.bid pb.blockData info) ∨
    s'.chain.tree.blocks = s.chain.tree.blocks ∧ s'.chain.tree.headers = s.chain.tree.headers := by
  cases h with
  | store hpb hacc hfree hne hparent hcheck =>
    exact .inl ⟨_, _, _, _, hpb, hacc, hfree, hparent, hcheck, rfl⟩
  | genesis hpb hacc hfree heq hparent hcheck hredo =>
    exact .inl ⟨_, _, _, _, hpb, hacc, hfree, hparent, hcheck, State.redoOnTip_tree hredo⟩
  | count hbid => exact .inr ⟨rfl, rfl⟩
  | redo hholds hinfo htid hprev hredo =>
    rw [State.redoOnTip_tree hredo]
    exact .inr ⟨rfl, rfl⟩
  | undo hundo =>
    rw [State.undoTip_tree hundo]
    exact .inr ⟨rfl, rfl⟩
  | transact hgoes hadd =>
    obtain ⟨_, _, rfl⟩ := State.addTransaction_frame hadd
    exact .inr ⟨rfl, rfl⟩
  | emptyPool => exact .inr ⟨rfl, rfl⟩
  | version => exact .inr ⟨rfl, rfl⟩
  | mining => exact .inr ⟨rfl, rfl⟩
  | cacheHeader bid =>
    unfold State.cacheHeader
    split <;> exact .inr ⟨rfl, rfl⟩
  | clearHeaderCache => exact .inr ⟨rfl, rfl⟩
  | cacheNextGlobalIndex amount => exact .inr ⟨rfl, rfl⟩
  | settle hchain =>
    obtain ⟨_, _, _, _, rfl⟩ := BlockChain.tipChanged_eq_ok.mp hchain
    exact .inr ⟨rfl, rfl⟩
  | restart hrestart =>
    obtain ⟨_, _, _, _, _, hchain, rfl⟩ := State.restart_eq_ok.mp hrestart
    obtain ⟨_, _, _, _, rfl⟩ := BlockChain.tipChanged_eq_ok.mp hchain
    exact .inr ⟨rfl, rfl⟩

/-- A tree whose headers have origins, read coherently. -/
structure State.TreeSound (env : Env) (accept : PreparedBlock → Prop) (s : State) : Prop where
  coherent : s.chain.Coherent
  sound : s.chain.tree.Sound env accept

/-- **Every header keeps its origin.** -/
theorem Move.treeSound (h : Move env accept s s') (hs : s.TreeSound env accept) :
    s'.TreeSound env accept := by
  refine ⟨h.coherent hs.coherent, ?_⟩
  rcases h.tree_cases with ⟨pb, now, prevInfo, info, hpb, hacc, hfree, hparent, hcheck, htree⟩ |
    ⟨hblocks, hheaders⟩
  · rw [htree]
    exact hs.sound.store (hs.coherent.blocks_eq_none hfree) hfree hpb hacc hparent hcheck
  · exact hs.sound.congr hblocks hheaders

theorem State.treeSound_empty : ({} : State).TreeSound env accept := by
  refine ⟨(@State.proper_empty env).coherent, fun _ _ h ↦ ?_⟩
  cases (Std.ExtTreeMap.getElem?_empty).symm.trans h

theorem Moves.treeSound (h : Moves env accept {} s) : s.TreeSound env accept :=
  Moves.invariant (fun _ _ hmove ↦ hmove.treeSound) h State.treeSound_empty

end CryoNero
