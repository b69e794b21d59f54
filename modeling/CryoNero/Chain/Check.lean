import CryoNero.Chain.Tip

/-!
# What a block has passed

The stages of the check, each by what it means that a block has passed it and by what it fills in.
The header that comes out describes the block that went in (`SameBlock`): no stage touches the
fields that were taken from the block.
-/

namespace CryoNero

open Seria Store

section

variable {α : Type} {p : Prop} [Decidable p] {e : ConsensusError} {info : Api.BlockHeader}

@[simp] theorem demand_eq_ok {u : Unit} : demand p e info = .ok u ↔ p := by
  by_cases h : p <;> simp [demand, h]

@[simp] theorem orGiveUp_eq_ok {x : Except Fault α} {a : α} : orGiveUp x = .ok a ↔ x = .ok a := by
  cases x <;> simp [orGiveUp]

@[simp] theorem orRefuse_eq_ok {x : Except ConsensusError α} {a : α} :
    orRefuse info x = .ok a ↔ x = .ok a := by
  cases x <;> simp [orRefuse]

theorem forM_eq_ok {ε : Type} {f : α → Except ε Unit} {l : List α} (h : l.forM f = .ok ()) :
    ∀ x ∈ l, f x = .ok () := by
  induction l with
  | nil =>
    intro x hx
    cases hx
  | cons y l ih =>
    obtain ⟨_, hy, hl⟩ := bind_eq_ok.mp h
    intro x hx
    rcases List.mem_cons.mp hx with rfl | hx
    · exact hy
    · exact ih hl x hx

end

/-- Two headers that describe the same block: they agree in what is not computed by the check. -/
structure SameBlock (i i' : Api.BlockHeader) : Prop where
  majorVersion : i'.majorVersion = i.majorVersion
  minorVersion : i'.minorVersion = i.minorVersion
  timestamp : i'.timestamp = i.timestamp
  previousBlockHash : i'.previousBlockHash = i.previousBlockHash
  nonce : i'.nonce = i.nonce
  height : i'.height = i.height
  hash : i'.hash = i.hash

theorem SameBlock.trans {i i' i'' : Api.BlockHeader} (h : SameBlock i i') (h' : SameBlock i' i'') :
    SameBlock i i'' :=
  ⟨h'.1.trans h.1, h'.2.trans h.2, h'.3.trans h.3, h'.4.trans h.4, h'.5.trans h.5, h'.6.trans h.6,
    h'.7.trans h.7⟩

namespace BlockChain

variable {env : Env} {bc : BlockChain} {pb : PreparedBlock} {now : Timestamp}
  {prevInfo info info' : Api.BlockHeader} {minerReward : Amount}

/-- The medians a block is checked against. -/
def mediansFor (bc : BlockChain) (prevInfo : Api.BlockHeader) : Except Fault (UInt32 × Timestamp) :=
  if bc.tip.tipBid ≠ prevInfo.hash then bc.calculateConsensusValues prevInfo
  else .ok (bc.tip.nextMedianSize, bc.tip.nextMedianTimestamp)

/-- The header with the medians of a block of some version. -/
def fillMedians (version : UInt8) (medians : UInt32 × Timestamp) (info : Api.BlockHeader) :
    Api.BlockHeader :=
  { info with
    sizeMedian := medians.1, timestampMedian := medians.2,
    effectiveSizeMedian :=
      max medians.1 (Currency.blockGrantedFullRewardZoneByBlockVersion version) }

private theorem checkMedians_eq_ok : bc.checkMedians pb prevInfo info = .ok info' ↔
    (pb.block.transactions.length = pb.block.header.transactionHashes.length ∧
      pb.block.transactions.length = pb.rawBlock.transactions.length) ∧
      ∃ medians, bc.mediansFor prevInfo = .ok medians ∧
        info' = fillMedians pb.block.header.majorVersion medians info := by
  unfold checkMedians mediansFor
  constructor
  · intro h
    obtain ⟨_, hcount, h⟩ := bind_eq_ok.mp h
    refine ⟨demand_eq_ok.mp hcount, ?_⟩
    split_ifs at h ⊢ with hbid
    · obtain ⟨medians, hmedians, h⟩ := bind_eq_ok.mp h
      cases h
      exact ⟨medians, orGiveUp_eq_ok.mp hmedians, rfl⟩
    · obtain ⟨medians, hmedians, h⟩ := bind_eq_ok.mp h
      cases hmedians
      cases h
      exact ⟨_, rfl, rfl⟩
  · rintro ⟨hcount, medians, hmedians, rfl⟩
    refine bind_eq_ok.mpr ⟨(), demand_eq_ok.mpr hcount, ?_⟩
    split_ifs at hmedians ⊢ with hbid
    · exact bind_eq_ok.mpr ⟨medians, orGiveUp_eq_ok.mpr hmedians, rfl⟩
    · cases hmedians
      exact bind_eq_ok.mpr ⟨_, rfl, rfl⟩

/-- The header with the size of the block. -/
def fillSize (pb : PreparedBlock) (info : Api.BlockHeader) : Api.BlockHeader :=
  { info with blockSize := UInt32.ofNat (pb.coinbaseTxSize + pb.cumulativeSize) }

private theorem checkSizes_eq_ok : checkSizes env pb info = .ok info' ↔
    checkTransactionHashes env pb info = .ok () ∧ info' = fillSize pb info ∧
      info'.blockSize ≤ env.currency.maxBlockCumulativeSize info.height := by
  unfold checkSizes
  constructor
  · intro h
    obtain ⟨_, hhashes, h⟩ := bind_eq_ok.mp h
    obtain ⟨_, hsize, h⟩ := bind_eq_ok.mp h
    cases h
    exact ⟨hhashes, rfl, demand_eq_ok.mp hsize⟩
  · rintro ⟨hhashes, rfl, hsize⟩
    exact bind_eq_ok.mpr ⟨(), hhashes, bind_eq_ok.mpr ⟨(), demand_eq_ok.mpr hsize, rfl⟩⟩

/-- The window of headers that the difficulty is computed from. -/
def difficultyWindowFor (env : Env) (bc : BlockChain) (prevInfo : Api.BlockHeader) :
    Except Fault (List Api.BlockHeader) :=
  bc.getTipSegment prevInfo
    (min prevInfo.height (env.currency.getDifficultyBlocksCount (bc.tip.tipHeight + 1))) false

/-- The difficulty of the block after `prevInfo`. -/
def difficultyFor (env : Env) (bc : BlockChain) (prevInfo : Api.BlockHeader) :
    Except Fault Difficulty := do
  let window ← bc.difficultyWindowFor env prevInfo
  env.currency.nextDifficulty prevInfo.height (window.map (·.timestamp))
    (window.map (·.cumulativeDifficulty))

private theorem fillDifficulty_eq_ok : bc.fillDifficulty env prevInfo info = .ok info' ↔
    ∃ difficulty, bc.difficultyFor env prevInfo = .ok difficulty ∧ difficulty ≠ 0 ∧
      info' = { info with
        difficulty := difficulty
        cumulativeDifficulty := prevInfo.cumulativeDifficulty + difficulty } := by
  unfold fillDifficulty difficultyFor
  constructor
  · intro h
    obtain ⟨window, hwindow, h⟩ := bind_eq_ok.mp h
    obtain ⟨difficulty, hdifficulty, h⟩ := bind_eq_ok.mp h
    obtain ⟨_, hne, h⟩ := bind_eq_ok.mp h
    cases h
    exact ⟨difficulty, bind_eq_ok.mpr ⟨window, orGiveUp_eq_ok.mp hwindow,
      orGiveUp_eq_ok.mp hdifficulty⟩, demand_eq_ok.mp hne, rfl⟩
  · rintro ⟨difficulty, hdifficulty, hne, rfl⟩
    obtain ⟨window, hwindow, hdifficulty⟩ := bind_eq_ok.mp hdifficulty
    exact bind_eq_ok.mpr ⟨window, orGiveUp_eq_ok.mpr hwindow, bind_eq_ok.mpr ⟨difficulty,
      orGiveUp_eq_ok.mpr hdifficulty, bind_eq_ok.mpr ⟨(), demand_eq_ok.mpr hne, rfl⟩⟩⟩

/-- The reward of a block of the size in the header. -/
def rewardFor (pb : PreparedBlock) (prevInfo info : Api.BlockHeader) (fee : Amount) :
    Amount × UInt64 :=
  Currency.getBlockReward pb.block.header.majorVersion info.effectiveSizeMedian.toUInt64
    info.blockSize.toUInt64 prevInfo.alreadyGeneratedCoins fee

/-- The header with the rewards and the running totals. -/
def fillTotals (pb : PreparedBlock) (prevInfo info : Api.BlockHeader) (fee : Amount) :
    Api.BlockHeader :=
  { info with
    baseReward := (Currency.getBlockReward pb.block.header.majorVersion
      info.effectiveSizeMedian.toUInt64 0 prevInfo.alreadyGeneratedCoins 0).1
    reward := (rewardFor pb prevInfo info fee).1
    alreadyGeneratedCoins := prevInfo.alreadyGeneratedCoins + (rewardFor pb prevInfo info fee).2
    alreadyGeneratedTransactions :=
      prevInfo.alreadyGeneratedTransactions + UInt64.ofNat (pb.block.transactions.length + 1)
    totalFeeAmount := fee
    transactionsCumulativeSize := UInt32.ofNat pb.cumulativeSize }

private theorem fillReward_eq_ok : fillReward pb prevInfo minerReward info = .ok info' ↔
    ∃ fee, cumulativeFee pb info = .ok fee ∧ minerReward = (rewardFor pb prevInfo info fee).1 ∧
      info' = fillTotals pb prevInfo info fee := by
  unfold fillReward
  constructor
  · intro h
    obtain ⟨fee, hfee, h⟩ := bind_eq_ok.mp h
    obtain ⟨_, hreward, h⟩ := bind_eq_ok.mp h
    cases h
    exact ⟨fee, hfee, demand_eq_ok.mp hreward, rfl⟩
  · rintro ⟨fee, hfee, hreward, rfl⟩
    exact bind_eq_ok.mpr ⟨fee, hfee, bind_eq_ok.mpr ⟨(), demand_eq_ok.mpr hreward, rfl⟩⟩

/-- The header filled in up to the size. -/
def sizedHeader (pb : PreparedBlock) (medians : UInt32 × Timestamp) (start : Api.BlockHeader) :
    Api.BlockHeader := fillSize pb (fillMedians pb.block.header.majorVersion medians start)

/-- The header filled in up to the difficulty. -/
def workedHeader (pb : PreparedBlock) (medians : UInt32 × Timestamp) (difficulty : Difficulty)
    (prevInfo start : Api.BlockHeader) : Api.BlockHeader :=
  { sizedHeader pb medians start with
    difficulty := difficulty, cumulativeDifficulty := prevInfo.cumulativeDifficulty + difficulty }

/-- What it means that a block has passed the stages up to the difficulty, after which the rewards
are computed. -/
structure PassedUpToWork (env : Env) (bc : BlockChain) (pb : PreparedBlock) (now : Timestamp)
    (prevInfo start : Api.BlockHeader) (medians : UInt32 × Timestamp) (minerReward : Amount)
    (difficulty : Difficulty) : Prop where
  hashCount : pb.block.transactions.length = pb.block.header.transactionHashes.length
  rawCount : pb.block.transactions.length = pb.rawBlock.transactions.length
  mediansFor : bc.mediansFor prevInfo = .ok medians
  hashes : checkTransactionHashes env pb
    (fillMedians pb.block.header.majorVersion medians start) = .ok ()
  size : (sizedHeader pb medians start).blockSize ≤
    env.currency.maxBlockCumulativeSize start.height
  fields : bc.checkHeaderFields env pb now (sizedHeader pb medians start) = .ok ()
  coinbase : checkCoinbase env pb (sizedHeader pb medians start) = .ok minerReward
  difficultyFor : bc.difficultyFor env prevInfo = .ok difficulty
  difficulty_ne : difficulty ≠ 0

/-- What it means that a block has passed all stages. -/
structure Passed (env : Env) (bc : BlockChain) (pb : PreparedBlock) (now : Timestamp)
    (prevInfo start info : Api.BlockHeader) (medians : UInt32 × Timestamp) (minerReward : Amount)
    (difficulty : Difficulty) (fee : Amount) : Prop extends
    PassedUpToWork env bc pb now prevInfo start medians minerReward difficulty where
  feeFor : cumulativeFee pb (workedHeader pb medians difficulty prevInfo start) = .ok fee
  reward : minerReward =
    (rewardFor pb prevInfo (workedHeader pb medians difficulty prevInfo start) fee).1
  semantics : checkSemantics env pb info = .ok ()
  work : checkWork env pb true info = .ok ()
  info : info = fillTotals pb prevInfo (workedHeader pb medians difficulty prevInfo start) fee

/-- **A block passes** the check stage by stage. -/
theorem checkStandaloneConsensus_eq_ok :
    bc.checkStandaloneConsensus env pb now prevInfo info true = .ok info' ↔
      ∃ medians minerReward difficulty fee,
        Passed env bc pb now prevInfo info info' medians minerReward difficulty fee := by
  unfold checkStandaloneConsensus
  constructor
  · intro h
    obtain ⟨i₁, h₁, h⟩ := bind_eq_ok.mp h
    obtain ⟨i₂, h₂, h⟩ := bind_eq_ok.mp h
    obtain ⟨_, hfields, h⟩ := bind_eq_ok.mp h
    obtain ⟨minerReward, hcoinbase, h⟩ := bind_eq_ok.mp h
    obtain ⟨i₃, h₃, h⟩ := bind_eq_ok.mp h
    obtain ⟨i₄, h₄, h⟩ := bind_eq_ok.mp h
    obtain ⟨_, hsemantics, h⟩ := bind_eq_ok.mp h
    obtain ⟨_, hwork, h⟩ := bind_eq_ok.mp h
    cases h
    obtain ⟨hcount, medians, hmedians, rfl⟩ := checkMedians_eq_ok.mp h₁
    obtain ⟨hhashes, rfl, hsize⟩ := checkSizes_eq_ok.mp h₂
    obtain ⟨difficulty, hdifficulty, hne, rfl⟩ := fillDifficulty_eq_ok.mp h₃
    obtain ⟨fee, hfee, hreward, rfl⟩ := fillReward_eq_ok.mp h₄
    exact ⟨medians, minerReward, difficulty, fee, ⟨hcount.1, hcount.2, hmedians, hhashes, hsize,
      hfields, hcoinbase, hdifficulty, hne⟩, hfee, hreward, hsemantics, hwork, rfl⟩
  · rintro ⟨medians, minerReward, difficulty, fee, h⟩
    obtain rfl := h.info
    refine bind_eq_ok.mpr ⟨_, checkMedians_eq_ok.mpr ⟨⟨h.hashCount, h.rawCount⟩, medians,
      h.mediansFor, rfl⟩, ?_⟩
    refine bind_eq_ok.mpr ⟨_, checkSizes_eq_ok.mpr ⟨h.hashes, rfl, h.size⟩, ?_⟩
    refine bind_eq_ok.mpr ⟨(), h.fields, bind_eq_ok.mpr ⟨minerReward, h.coinbase, ?_⟩⟩
    refine bind_eq_ok.mpr ⟨_, fillDifficulty_eq_ok.mpr ⟨difficulty, h.difficultyFor,
      h.difficulty_ne, rfl⟩, ?_⟩
    refine bind_eq_ok.mpr ⟨_, fillReward_eq_ok.mpr ⟨fee, h.feeFor, h.reward, rfl⟩, ?_⟩
    exact bind_eq_ok.mpr ⟨(), h.semantics, bind_eq_ok.mpr ⟨(), h.work, rfl⟩⟩

theorem cumulativeDifficulty_of_checked
    (h : bc.checkStandaloneConsensus env pb now prevInfo info true = .ok info') :
    info'.cumulativeDifficulty = prevInfo.cumulativeDifficulty + info'.difficulty := by
  obtain ⟨_, _, _, _, h⟩ := checkStandaloneConsensus_eq_ok.mp h
  obtain rfl := h.info
  rfl

theorem sameBlock_of_checked
    (h : bc.checkStandaloneConsensus env pb now prevInfo info true = .ok info') :
    SameBlock info info' := by
  obtain ⟨_, _, _, _, h⟩ := checkStandaloneConsensus_eq_ok.mp h
  obtain rfl := h.info
  exact ⟨rfl, rfl, rfl, rfl, rfl, rfl, rfl⟩

end BlockChain

end CryoNero
