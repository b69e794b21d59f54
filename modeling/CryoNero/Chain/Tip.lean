import CryoNero.Chain.Headers

/-!
# Pushing and popping the tip

Exactly what a block on top of the main chain, or one taken off it, changes. Neither touches the
block tree, and a window that agreed with the database agrees with it afterwards.
-/

namespace CryoNero

open Seria Store

namespace BlockChain

variable {env : Env} {bc bc' : BlockChain} {header : Api.BlockHeader} {bid : Hash}

theorem getTip_eq_ok : bc.getTip = .ok header ↔
    ∃ rest, bc.tip.headerTipWindow = header :: rest ∧ bc.tip.tipBid = header.hash := by
  unfold getTip
  cases hw : bc.tip.headerTipWindow with
  | nil => simp
  | cons first rest =>
    by_cases hbid : bc.tip.tipBid = first.hash
    · simp only [hbid, if_true, Except.ok.injEq, List.cons.injEq, exists_and_right]
      constructor
      · rintro rfl
        exact ⟨⟨rest, rfl, rfl⟩, rfl⟩
      · rintro ⟨⟨_, rfl, _⟩, _⟩
        rfl
    · simp only [hbid, if_false, reduceCtorEq, List.cons.injEq, false_iff, not_exists, not_and]
      rintro _ ⟨rfl, _⟩
      exact hbid

/-- The chain with other medians cached for the next block. -/
def withMedians (bc : BlockChain) (medians : UInt32 × Timestamp) : BlockChain :=
  { bc with tip := { bc.tip with nextMedianSize := medians.1, nextMedianTimestamp := medians.2 } }

theorem tipChanged_eq_ok : bc.tipChanged = .ok bc' ↔
    ∃ header medians, bc.getTip = .ok header ∧ bc.calculateConsensusValues header = .ok medians ∧
      bc' = bc.withMedians medians := by
  unfold tipChanged
  constructor
  · intro h
    obtain ⟨header, hheader, h⟩ := bind_eq_ok.mp h
    obtain ⟨medians, hmedians, h⟩ := bind_eq_ok.mp h
    cases h
    exact ⟨header, medians, hheader, hmedians, rfl⟩
  · rintro ⟨header, medians, hheader, hmedians, rfl⟩
    exact bind_eq_ok.mpr ⟨header, hheader, bind_eq_ok.mpr ⟨medians, hmedians, rfl⟩⟩

/-- The chain with a header on top, its medians not computed yet. -/
def pushed (env : Env) (bc : BlockChain) (header : Api.BlockHeader) : BlockChain :=
  let tipHeight := bc.tip.tipHeight + 1
  let tip : Tip := { bc.tip with
    tipHeight := tipHeight, tipChain := bc.tip.tipChain.insert tipHeight header.hash,
    tipBid := header.hash, tipCumulativeDifficulty := header.cumulativeDifficulty }
  let bc : BlockChain := { bc with tip := tip }
  let window := (header :: bc.tip.headerTipWindow).take (bc.largestWindow env * 2).toNat
  { bc with tip := { bc.tip with headerTipWindow := window } }

theorem pushChain_eq_ok : bc.pushChain env header = .ok bc' ↔
    bc.tip.tipChain[bc.tip.tipHeight + 1]? = none ∧
      (bc.pushed env header).tipChanged = .ok bc' := by
  unfold pushChain
  constructor
  · intro h
    obtain ⟨chain, hchain, h⟩ := bind_eq_ok.mp h
    obtain ⟨hfree, rfl⟩ := putNew_eq_ok.mp hchain
    exact ⟨hfree, h⟩
  · rintro ⟨hfree, h⟩
    exact bind_eq_ok.mpr ⟨_, putNew_eq_ok.mpr ⟨hfree, rfl⟩, h⟩

/-- The chain without its last block, the window not refilled yet. -/
def popped (bc : BlockChain) (newTipBid : Hash) : BlockChain :=
  { bc with tip := { bc.tip with
      tipChain := bc.tip.tipChain.erase bc.tip.tipHeight, tipHeight := bc.tip.tipHeight - 1,
      tipBid := newTipBid, headerTipWindow := bc.tip.headerTipWindow.tail } }

/-- The chain with another window at the tip, whose first header has the work. -/
def withWindow (bc : BlockChain) (header : Api.BlockHeader) (rest : List Api.BlockHeader) :
    BlockChain :=
  { bc with tip := { bc.tip with
      headerTipWindow := header :: rest, tipCumulativeDifficulty := header.cumulativeDifficulty } }

/-- **A block is taken off.** The window that is left may be empty, and is then filled with the
header of the new tip. -/
theorem popChain_eq_ok : bc.popChain bid = .ok bc' ↔
    bc.tip.tipHeight ≠ 0 ∧ bc.tip.headerTipWindow ≠ [] ∧
      (∃ b, bc.tip.tipChain[bc.tip.tipHeight]? = some b) ∧
      bc.tip.tipChain[bc.tip.tipHeight - 1]? = some bid ∧
      ∃ header rest, header.hash = bid ∧ bc' = (bc.popped bid).withWindow header rest ∧
        (bc.tip.headerTipWindow.tail = header :: rest ∨
          bc.tip.headerTipWindow.tail = [] ∧ rest = [] ∧
            (bc.popped bid).readHeader! bid 0 = .ok header) := by
  have hne : bc.tip.tipHeight ≠ bc.tip.tipHeight - 1 := by
    intro h
    have := congrArg UInt32.toNat h
    rw [UInt32.toNat_sub] at this
    have := bc.tip.tipHeight.toNat_lt
    simp only [UInt32.reduceToNat] at *
    omega
  unfold popChain
  constructor
  · intro h
    obtain ⟨_, hpos, h⟩ := bind_eq_ok.mp h
    rw [ensure_eq_ok] at hpos
    obtain ⟨chain, hchain, h⟩ := bind_eq_ok.mp h
    obtain ⟨hwas, rfl⟩ := delOld_eq_ok.mp hchain
    obtain ⟨_, hunder, h⟩ := bind_eq_ok.mp h
    rw [ensure_eq_ok, Table.get_erase_of_ne _ hne] at hunder
    refine ⟨hpos.1, hpos.2, hwas, hunder, ?_⟩
    dsimp only at h
    split_ifs at h with htail
    · obtain ⟨first, hfirst, h⟩ := bind_eq_ok.mp h
      obtain ⟨window, hwindow, h⟩ := bind_eq_ok.mp h
      cases hwindow
      obtain ⟨header, hheader, h⟩ := bind_eq_ok.mp h
      obtain ⟨rest, hcons, hbid⟩ := getTip_eq_ok.mp hheader
      cases hcons
      cases h
      exact ⟨first, [], hbid.symm, rfl, .inr ⟨htail, rfl, hfirst⟩⟩
    · obtain ⟨window, hwindow, h⟩ := bind_eq_ok.mp h
      cases hwindow
      obtain ⟨header, hheader, h⟩ := bind_eq_ok.mp h
      obtain ⟨rest, hcons, hbid⟩ := getTip_eq_ok.mp hheader
      dsimp only at hcons hbid
      cases h
      exact ⟨header, rest, hbid.symm, by rw [withWindow, ← hcons]; rfl, .inl hcons⟩
  · rintro ⟨hpos, hwindow, hwas, hunder, header, rest, rfl, rfl, htail⟩
    refine bind_eq_ok.mpr ⟨(), ensure_eq_ok.mpr ⟨hpos, hwindow⟩, ?_⟩
    refine bind_eq_ok.mpr ⟨_, delOld_eq_ok.mpr ⟨hwas, rfl⟩, ?_⟩
    refine bind_eq_ok.mpr ⟨(), ensure_eq_ok.mpr ?_, ?_⟩
    · rw [Table.get_erase_of_ne _ hne]
      exact hunder
    · dsimp only
      rcases htail with htail | ⟨htail, rfl, hread⟩
      · rw [if_neg (by rw [htail]; simp), htail]
        refine bind_eq_ok.mpr ⟨header :: rest, rfl, ?_⟩
        exact bind_eq_ok.mpr ⟨header, getTip_eq_ok.mpr ⟨rest, rfl, rfl⟩, rfl⟩
      · rw [if_pos htail]
        refine bind_eq_ok.mpr ⟨header, hread, bind_eq_ok.mpr ⟨[header], rfl, ?_⟩⟩
        exact bind_eq_ok.mpr ⟨header, getTip_eq_ok.mpr ⟨[], rfl, rfl⟩, rfl⟩

/-! ## Agreement with the database -/

theorem Coherent.of_subset (hc : bc.Coherent) (htree : bc'.tree = bc.tree)
    (hcache : bc'.headerCache = bc.headerCache)
    (hwindow : ∀ h ∈ bc'.tip.headerTipWindow,
      h ∈ bc.tip.headerTipWindow ∨ bc.tree.headers[h.hash]? = some h) : bc'.Coherent where
  block h := by
    rw [htree] at h ⊢
    exact hc.block h
  hash h := hc.hash (by rw [← htree]; exact h)
  cache h := by
    rw [htree]
    exact hc.cache (by rw [← hcache]; exact h)
  window h := by
    rw [htree]
    exact (hwindow _ h).elim hc.window id

theorem Coherent.tipChanged (hc : bc.Coherent) (h : bc.tipChanged = .ok bc') : bc'.Coherent := by
  obtain ⟨_, _, _, _, rfl⟩ := tipChanged_eq_ok.mp h
  exact hc.of_subset rfl rfl fun x hx ↦ .inl hx

theorem Coherent.pushChain (hc : bc.Coherent) (hheader : bc.tree.headers[header.hash]? = some header)
    (h : bc.pushChain env header = .ok bc') : bc'.Coherent := by
  have hpushed : (bc.pushed env header).Coherent := hc.of_subset rfl rfl fun x hx ↦ ?_
  · exact hpushed.tipChanged (pushChain_eq_ok.mp h).2
  rcases List.mem_cons.mp (List.mem_of_mem_take hx) with rfl | hx
  · exact .inr hheader
  · exact .inl hx

theorem Coherent.popped (hc : bc.Coherent) (bid : Hash) : (bc.popped bid).Coherent :=
  hc.of_subset rfl rfl fun _ hx ↦ .inl (List.mem_of_mem_tail hx)

theorem Coherent.popChain (hc : bc.Coherent) (h : bc.popChain bid = .ok bc') : bc'.Coherent := by
  obtain ⟨-, -, -, -, header, rest, rfl, rfl, htail⟩ := popChain_eq_ok.mp h
  refine (hc.popped header.hash).of_subset rfl rfl fun x hx ↦ ?_
  rcases htail with htail | ⟨-, rfl, hread⟩
  · exact .inl (by rw [BlockChain.popped, htail]; exact hx)
  · rw [(hc.popped header.hash).readHeader!_eq_ok] at hread
    rw [List.mem_singleton.mp hx]
    exact .inr hread

end BlockChain

/-! ## Redoing and undoing at the tip -/

theorem Tree.readBlock_eq_ok {t : Tree} {bid : Hash} {blockData : Bytes} {rawBlock : RawBlock} :
    t.readBlock bid = .ok (some (blockData, rawBlock)) ↔
      t.blocks[bid]? = some blockData ∧ fromBinary readRawBlock {} blockData = (rawBlock, true) := by
  unfold readBlock
  cases t.blocks[bid]? with
  | none => simp
  | some data =>
    rcases hread : fromBinary readRawBlock {} data with ⟨raw, _ | _⟩
    · simp only [hread, reduceCtorEq, Option.some.injEq, false_iff, not_and]
      rintro rfl h
      rw [hread] at h
      exact absurd (Prod.mk.inj h).2 (by simp)
    · simp only [hread, Except.ok.injEq, Option.some.injEq, Prod.mk.injEq]
      constructor
      · rintro ⟨rfl, rfl⟩
        exact ⟨rfl, hread⟩
      · rintro ⟨rfl, h⟩
        rw [hread] at h
        exact ⟨rfl, (Prod.mk.inj h).1⟩

/-- The block that is stored under a hash, as it is read back. -/
structure Tree.Holds (t : Tree) (bid : Hash) (blockData : Bytes) (rawBlock : RawBlock)
    (block : Block) : Prop where
  blocks : t.blocks[bid]? = some blockData
  data : fromBinary readRawBlock {} blockData = (rawBlock, true)
  block : (Block.fromRawBlock rawBlock).1 = block

theorem Tree.Holds.congr {t t' : Tree} {bid : Hash} {blockData : Bytes} {rawBlock : RawBlock}
    {block : Block} (h : t.Holds bid blockData rawBlock block) (ht : t'.blocks = t.blocks) :
    t'.Holds bid blockData rawBlock block := ⟨by rw [ht]; exact h.blocks, h.data, h.block⟩

namespace State

variable {env : Env} {s s' : State} {bid : Hash} {blockData : Bytes} {rawBlock : RawBlock}
  {block : Block} {info : Api.BlockHeader} {tid : Hash}

theorem redoOnTip_eq_some :
    s.redoOnTip env bid blockData rawBlock block info tid = .ok (some s') ↔
      ∃ ledger chain, s.ledger.redoBlock env bid blockData rawBlock block info tid = .ok ledger ∧
        s.chain.pushChain env info = .ok chain ∧
        s' = { s with chain := chain, ledger := ledger } := by
  unfold redoOnTip
  rcases s.ledger.redoBlock env bid blockData rawBlock block info tid with (f | _) | ledger
  · simp
  · simp
  · constructor
    · intro h
      obtain ⟨chain, hchain, h⟩ := bind_eq_ok.mp h
      cases h
      exact ⟨ledger, chain, rfl, hchain, rfl⟩
    · rintro ⟨_, chain, hledger, hchain, rfl⟩
      cases hledger
      exact bind_eq_ok.mpr ⟨chain, hchain, rfl⟩

/-- **Undoing the tip** takes the stored block, which has to decode, out of the indexes. -/
theorem undoTip_eq_ok {undone undone' : UndoneTransactions} :
    s.undoTip env undone = .ok (s', undone') ↔
      ∃ blockData rawBlock block index chain₁ chain,
        s.chain.tree.Holds s.chain.tip.tipBid blockData rawBlock block ∧
        Block.fromRawBlock rawBlock = (block, true) ∧
        s.ledger.index.undoBlock env.crypto s.chain.tip.tipBid block s.chain.tip.tipHeight =
          .ok index ∧
        keepUndone undone rawBlock block = .ok undone' ∧
        s.chain.popChain block.header.previousBlockHash = .ok chain₁ ∧
        chain₁.tipChanged = .ok chain ∧
        s' = { s with chain := chain, ledger := { s.ledger with index := index } } := by
  unfold undoTip
  constructor
  · intro h
    obtain ⟨stored, hstored, h⟩ := bind_eq_ok.mp h
    obtain ⟨⟨blockData, rawBlock⟩, hp, h⟩ := bind_eq_ok.mp h
    rw [orFail_eq_ok.mp hp] at hstored
    obtain ⟨hblocks, hdata⟩ := Tree.readBlock_eq_ok.mp hstored
    obtain ⟨_, hok, h⟩ := bind_eq_ok.mp h
    rw [ensure_eq_ok] at hok
    obtain ⟨index, hindex, h⟩ := bind_eq_ok.mp h
    obtain ⟨kept, hkept, h⟩ := bind_eq_ok.mp h
    obtain ⟨chain₁, hpop, h⟩ := bind_eq_ok.mp h
    obtain ⟨chain, hchain, h⟩ := bind_eq_ok.mp h
    cases h
    exact ⟨blockData, rawBlock, _, index, chain₁, chain, ⟨hblocks, hdata, rfl⟩, Prod.ext rfl hok,
      hindex, hkept, hpop, hchain, rfl⟩
  · rintro ⟨blockData, rawBlock, block, index, chain₁, chain, hholds, hok, hindex, hkept, hpop,
      hchain, rfl⟩
    refine bind_eq_ok.mpr ⟨_, Tree.readBlock_eq_ok.mpr ⟨hholds.blocks, hholds.data⟩, ?_⟩
    refine bind_eq_ok.mpr ⟨_, orFail_eq_ok.mpr rfl, ?_⟩
    refine bind_eq_ok.mpr ⟨(), ensure_eq_ok.mpr (by rw [hok]), ?_⟩
    dsimp only
    rw [hok]
    exact bind_eq_ok.mpr ⟨index, hindex, bind_eq_ok.mpr ⟨_, hkept, bind_eq_ok.mpr ⟨_, hpop,
      bind_eq_ok.mpr ⟨_, hchain, rfl⟩⟩⟩⟩

end State

end CryoNero
