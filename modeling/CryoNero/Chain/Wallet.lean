import CryoNero.Chain.Locator

/-!
# Blocks for a wallet

A wallet names a time from which on it wants blocks. The search in the index of timestamps finds the
block with the least of all timestamps from that time on, which is not the lowest of these blocks when
the timestamps of the main chain do not increase.
-/

namespace CryoNero

open Seria Store

@[simp] theorem orThrow_eq_ok {α : Type} {x : Except Fault α} {a : α} :
    orThrow x = .ok a ↔ x = .ok a := by
  cases x <;> simp [orThrow]

namespace State

variable (s : State)

/-- The index of timestamps is that of the main chain. -/
def TimesMain : Prop := ∀ (ts : Timestamp) (height : Height),
  (s.ledger.index.timestampBlock[toLex (ts, height)]?).isSome ↔
    ∃ block, s.mainBlock height = some block ∧ block.header.timestamp = ts

/-- A block of the main chain is the first from a time on in the order of timestamps, and of heights
where these are the same. -/
def EarliestFrom (ts : Timestamp) (height : Height) : Prop :=
  ∃ block, s.mainBlock height = some block ∧ ts ≤ block.header.timestamp ∧
    ∀ height' block', s.mainBlock height' = some block' → ts ≤ block'.header.timestamp →
      block.header.timestamp < block'.header.timestamp ∨
        block.header.timestamp = block'.header.timestamp ∧ height ≤ height'

/-- A block is in the locator, or below a block in it that is stored. -/
def Covered (locator : List Hash) (bid : Hash) : Prop :=
  ∃ lit ∈ locator, s.chain.tree.Descends bid lit

variable {s} {s' : State} {env : Env} {guard : State → Op → Prop}

private theorem timesMain_of_bare (h : s.Bare) : s.TimesMain := by
  intro ts height
  rw [h.index.timestampBlock, Std.ExtTreeMap.getElem?_empty, h.mainBlock_eq_none]
  simp

theorem TimesMain.kept (h : s.TimesMain) (hkept : Kept s s') : s'.TimesMain := by
  intro ts height
  rw [hkept.index.files.timestampBlock, hkept.mainBlock]
  exact h ts height

/-- A block goes on top of the main chain. -/
theorem TimesMain.pushed {bid : Hash} {blockData : Bytes} {rawBlock : RawBlock} {block : Block}
    {info : Api.BlockHeader} {tid : Hash} (h : s.TimesMain)
    (hpush : Pushed s s' env bid blockData rawBlock block info tid) : s'.TimesMain := by
  obtain ⟨idx₁, hredone, hfiled, -⟩ := Ledger.redoBlock_eq_ok hpush.redone
  intro ts height
  have hnone := hpush.mainBlock_eq_none
  have hold := h ts height
  rw [hfiled.time, hredone.files.timestampBlock, Table.get_insert, hpush.mainBlock]
  by_cases hheight : info.height = height
  · subst hheight
    rw [hnone] at hold
    by_cases hts : info.timestamp = ts
    · rw [if_pos (by rw [hts]), if_pos rfl]
      exact ⟨fun _ ↦ ⟨block, rfl, by rw [← hpush.timestamp, hts]⟩, fun _ ↦ rfl⟩
    · rw [if_neg fun heq ↦ hts (congrArg (fun k ↦ (ofLex k).1) heq), if_pos rfl, hold]
      constructor
      · rintro ⟨b, hb, -⟩
        cases hb
      · rintro ⟨b, hb, hbts⟩
        cases hb
        exact absurd (hpush.timestamp.trans hbts) hts
  · rw [if_neg fun heq ↦ hheight (congrArg (fun k ↦ (ofLex k).2) heq), if_neg hheight]
    exact hold

/-- The block at the top goes. -/
theorem TimesMain.popped {bid : Hash} {block : Block} {top : Height} (h : s.TimesMain)
    (hpop : Popped s s' env bid block top) : s'.TimesMain := by
  obtain ⟨_, _, -, -, hunfiled, -⟩ := Index.undoBlock_eq_ok hpop.undone
  intro ts height
  have hold := h ts height
  rw [hpop.mainBlock] at hold
  rw [hunfiled.time, Table.get_erase]
  by_cases hheight : top = height
  · subst hheight
    rw [hpop.mainBlock_eq_none]
    rw [if_pos rfl] at hold
    split_ifs with hkey
    · simp
    · rw [hold]
      constructor
      · rintro ⟨b, hb, hts⟩
        cases hb
        exact absurd (by rw [hts]) hkey
      · rintro ⟨b, hb, -⟩
        cases hb
  · rw [if_neg fun heq ↦ hheight (congrArg (fun k ↦ (ofLex k).2) heq)]
    rwa [if_neg hheight] at hold

theorem Reachable.timesMain (h : s.Reachable env guard) : s.TimesMain :=
  h.main_invariant (fun _ ↦ timesMain_of_bare) (fun _ _ hkept hs ↦ hs.kept hkept)
    (fun _ _ _ _ _ _ _ _ hpush hs ↦ hs.pushed hpush) fun _ _ _ _ _ hpop hs ↦ hs.popped hpop

/-! ## The search by time -/

private theorem le_of_compare_ne_gt {a b : UInt32} (h : compare a b ≠ .gt) : a ≤ b := by
  change compareOfLessAndEq a b ≠ .gt at h
  unfold compareOfLessAndEq at h
  split_ifs at h with hlt heq
  · exact UInt32.le_of_lt hlt
  · rw [heq]
    exact UInt32.le_refl b
  · exact absurd rfl h

private theorem lt_or_eq_of_compare {ts ts' : Timestamp} {height height' : Height}
    (h : compare (toLex (ts, height)) (toLex (ts', height')) ≠ .gt) :
    ts < ts' ∨ ts = ts' ∧ height ≤ height' := by
  change (compare ts ts').then (compare height height') ≠ .gt at h
  by_cases heq : ts = ts'
  · rw [heq, Std.compare_self] at h
    exact .inr ⟨heq, le_of_compare_ne_gt h⟩
  · refine .inl (UInt32.lt_of_le_of_ne (le_of_compare_ne_gt fun hgt ↦ ?_) heq)
    rw [hgt] at h
    exact h rfl

/-- **What the search by time finds**: the first block from that time on, if there is one. -/
theorem TimesMain.lowerBound (h : s.TimesMain) (ts : Timestamp) :
    s.EarliestFrom ts (s.getTimestampLowerBoundBlockIndex ts) ∨
      ∀ height block, s.mainBlock height = some block → block.header.timestamp < ts := by
  have hentry {height : Height} {block : Block} (hblock : s.mainBlock height = some block) :
      ∃ u, s.ledger.index.timestampBlock[toLex (block.header.timestamp, height)]? = some u :=
    Option.isSome_iff_exists.mp ((h _ _).mpr ⟨block, hblock, rfl⟩)
  unfold getTimestampLowerBoundBlockIndex
  cases hfind : s.ledger.index.timestampBlock.toList.find? fun p ↦ decide (ts ≤ (ofLex p.1).1) with
  | none =>
    refine .inr fun height block hblock ↦ ?_
    obtain ⟨u, hu⟩ := hentry hblock
    exact UInt32.not_le.mp (of_decide_eq_false (Table.find?_toList_eq_none hfind hu))
  | some p =>
    obtain ⟨hp, hts, hfirst⟩ := Table.find?_toList_eq_some hfind
    obtain ⟨block, hblock, htime⟩ := (h (ofLex p.1).1 (ofLex p.1).2).mp (by
      rw [Option.isSome_iff_exists]
      exact ⟨_, hp⟩)
    refine .inl ⟨block, hblock, ?_, fun height' block' hblock' hle ↦ ?_⟩
    · rw [htime]
      exact of_decide_eq_true hts
    · obtain ⟨u, hu⟩ := hentry hblock'
      rw [htime]
      exact lt_or_eq_of_compare (hfirst _ _ hu (decide_eq_true hle))

theorem EarliestFrom.unique {ts : Timestamp} {height height' : Height}
    (h : s.EarliestFrom ts height) (h' : s.EarliestFrom ts height') : height = height' := by
  obtain ⟨block, hblock, hts, hleast⟩ := h
  obtain ⟨block', hblock', hts', hleast'⟩ := h'
  have hle := hleast _ _ hblock' hts'
  have hle' := hleast' _ _ hblock hts
  grind

/-! ## The answer -/

private theorem searchTimestamp_le (ts : Timestamp) : s.searchTimestamp ts ≤ ts := by
  unfold searchTimestamp
  dsimp only
  split_ifs with hlt
  · exact UInt32.le_iff_toNat_le.mpr (Nat.zero_le _)
  · rw [UInt32.le_iff_toNat_le, UInt32.toNat_sub_of_le _ _ (UInt32.not_lt.mp hlt)]
    exact Nat.sub_le _ _

/-- A run of the main chain from a height on. -/
def Run (s : State) (run : Height × List Hash) : Prop :=
  ∀ i bid, run.2[i]? = some bid → s.chain.tip.tipChain[run.1 + UInt32.ofNat i]? = some bid

private theorem run_readChainFrom : ∀ (count : ℕ) (height : Height),
    s.Run (height, s.readChainFrom count height) := by
  intro count
  induction count with
  | zero =>
    intro height i bid hi
    cases hi
  | succ count ih =>
    intro height i bid hi
    rw [readChainFrom] at hi
    cases hb : s.chain.tip.tipChain[height]? with
    | none =>
      rw [hb] at hi
      cases hi
    | some b =>
      rw [hb] at hi
      cases i with
      | zero =>
        cases hi
        change s.chain.tip.tipChain[height + 0]? = _
        rwa [UInt32.add_zero]
      | succ i =>
        change s.chain.tip.tipChain[height + UInt32.ofNat (i + 1)]? = _
        rw [add_ofNat_succ]
        exact ih (height + 1) i bid hi

/-- A run that is moved up is a run. -/
theorem Run.moveUp {run : Height × List Hash} (h : s.Run run) (maxCount : ℕ) (fullOffset : Height) :
    s.Run (s.moveUp maxCount fullOffset run) := by
  unfold State.moveUp
  split_ifs with hfar hbelow
  · exact run_readChainFrom _ _
  · intro i bid hi
    have hi' : run.2[(fullOffset - run.1).toNat + i]? = some bid := by rwa [← List.getElem?_drop]
    have hnext := h _ _ hi'
    rw [UInt32.ofNat_add, UInt32.ofNat_toNat, ← add_assoc, add_comm run.1, UInt32.sub_add_cancel]
      at hnext
    exact hnext
  · exact h

private theorem moveUp_start (maxCount : ℕ) (fullOffset : Height) (run : Height × List Hash) :
    (s.moveUp maxCount fullOffset run).1 = if run.1 < fullOffset then fullOffset else run.1 := by
  unfold State.moveUp
  split_ifs with hfar hbelow hbelow
  · rfl
  · -- the run is empty and starts there
    rw [UInt32.not_lt, UInt32.le_iff_toNat_le] at hbelow
    exact UInt32.toNat_inj.mp (by simp only; omega)
  · rfl
  · rfl

/-- **What a locator is answered with**: a run of the main chain, below which everything is
covered. -/
private theorem run_getSyncHeadersChain (hc : s.chain.Coherent) (hm : s.chain.Main) {locator : List Hash}
    {maxCount : ℕ} {run : Height × List Hash}
    (h : s.chain.getSyncHeadersChain locator maxCount = .ok run)
    (hknown : ∃ lit ∈ locator, (s.chain.tree.headers[lit]?).isSome) :
    s.Run run ∧ ∀ height bid, height < run.1 → s.chain.tip.tipChain[height]? = some bid →
      s.Covered locator bid := by
  unfold BlockChain.getSyncHeadersChain at h
  cases hfind : locator.findSome? fun lit ↦ s.chain.readHeader lit 0 with
  | none =>
    obtain ⟨lit, hlit, hstored⟩ := hknown
    have hnone := List.findSome?_eq_none_iff.mp hfind lit hlit
    rw [hc.readHeader_eq] at hnone
    rw [hnone] at hstored
    cases hstored
  | some header =>
    rw [hfind] at h
    obtain ⟨header', hdescend, h⟩ := bind_eq_ok.mp h
    obtain ⟨l, hl, h⟩ := bind_eq_ok.mp h
    cases h
    refine ⟨BlockChain.chainFrom_eq_ok hl, fun height bid hlt hbid ↦ ?_⟩
    obtain ⟨lit, hlit, hread⟩ := List.exists_of_findSome?_eq_some hfind
    rw [hc.readHeader_eq] at hread
    have hhash := hc.hash hread
    obtain ⟨-, hdescends, hends⟩ := hc.descendToMain_eq_ok (by rw [hhash]; exact hread) hdescend
    rw [hhash] at hdescends
    refine ⟨lit, hlit, .trans (hm.descends (h := header'.height)
      (header'.height.toNat - height.toNat) ?_ hbid ?_) hdescends⟩
    · have hlt' := UInt32.lt_iff_toNat_lt.mp hlt
      simp only at hlt'
      omega
    · refine hends.resolve_left fun hzero ↦ ?_
      rw [UInt32.lt_iff_toNat_lt] at hlt
      simp [hzero] at hlt

private theorem onWalletSync3_eq_ok {req : SyncBlocksRequest} {resp : SyncBlocksResponse} :
    s.onWalletSync3 env req = .ok resp ↔
      req.sparseChain.getLast? = some env.genesisBlockHash ∧
        req.maxCount ≤ SyncBlocksRequest.maximalCount ∧
        ∃ supplement run,
          s.chain.getSyncHeadersChain req.sparseChain req.maxCount.toNat = .ok supplement ∧
          s.moveUp req.maxCount.toNat (s.getTimestampLowerBoundBlockIndex
            (s.searchTimestamp req.firstBlockTimestamp)) supplement = run ∧
          resp.startHeight = run.1 ∧
          run.2.mapM (fun bid ↦ orThrow (s.syncBlock env bid)) = .ok resp.blocks := by
  constructor
  · intro h
    obtain ⟨_, -, h⟩ := bind_eq_ok.mp h
    obtain ⟨_, hlast, h⟩ := bind_eq_ok.mp h
    obtain ⟨_, hcount, h⟩ := bind_eq_ok.mp h
    obtain ⟨supplement, hsupplement, h⟩ := bind_eq_ok.mp h
    obtain ⟨blocks, hblocks, h⟩ := bind_eq_ok.mp h
    cases h
    exact ⟨ensure_eq_ok.mp hlast, ensure_eq_ok.mp hcount, supplement, _, orThrow_eq_ok.mp hsupplement,
      rfl, rfl, hblocks⟩
  · rintro ⟨hlast, hcount, supplement, run, hsupplement, rfl, hstart, hblocks⟩
    have hne : req.sparseChain ≠ [] := by
      intro hnil
      rw [hnil] at hlast
      cases hlast
    refine bind_eq_ok.mpr ⟨(), ensure_eq_ok.mpr hne, bind_eq_ok.mpr ⟨(), ensure_eq_ok.mpr hlast, ?_⟩⟩
    refine bind_eq_ok.mpr ⟨(), ensure_eq_ok.mpr hcount, ?_⟩
    refine bind_eq_ok.mpr ⟨supplement, orThrow_eq_ok.mpr hsupplement, ?_⟩
    refine bind_eq_ok.mpr ⟨resp.blocks, hblocks, ?_⟩
    rw [← hstart]
    rfl

/-- **When a wallet misses nothing.** The answer to a wallet is always a run of the main chain. The
blocks below it that the locator does not cover are all from before the time that the wallet named
just when this holds of those below the first block, by timestamps, from the searched time on. -/
theorem Reachable.wallet_misses_nothing_iff (h : s.Reachable env guard) (req : SyncBlocksRequest)
    (resp : SyncBlocksResponse) (hresp : s.onWalletSync3 env req = .ok resp) :
    (∀ i b, resp.blocks[i]? = some b → ∃ bid,
      s.chain.tip.tipChain[resp.startHeight + UInt32.ofNat i]? = some bid ∧
        s.syncBlock env bid = .ok b) ∧
    ((∀ height bid block, height < resp.startHeight → s.chain.tip.tipChain[height]? = some bid →
        s.mainBlock height = some block →
        s.Covered req.sparseChain bid ∨ block.header.timestamp < req.firstBlockTimestamp) ↔
      ∀ top, s.EarliestFrom (s.searchTimestamp req.firstBlockTimestamp) top →
        ∀ height bid block, height < top → s.chain.tip.tipChain[height]? = some bid →
          s.mainBlock height = some block → req.firstBlockTimestamp ≤ block.header.timestamp →
          s.Covered req.sparseChain bid) := by
  obtain ⟨ht, hr, -⟩ := h.invariant (fun _ ↦ True) (I := fun _ ↦ True) (fun _ _ ↦ trivial)
    (fun _ _ _ _ _ _ ↦ trivial) (fun _ _ _ _ _ _ ↦ trivial) fun _ _ _ _ _ _ ↦ trivial
  obtain ⟨hlast, -, supplement, run, hsupplement, hrun, hstart, hblocks⟩ :=
    onWalletSync3_eq_ok.mp hresp
  obtain ⟨genesis, hgenesis⟩ := hr.genesis_header
  obtain ⟨hrun', hcovered⟩ := run_getSyncHeadersChain ht.coherent hr.main hsupplement
    ⟨_, List.mem_of_getLast? hlast, by rw [hgenesis]; rfl⟩
  have hmovedRun : s.Run run := by
    rw [← hrun]
    exact hrun'.moveUp _ _
  have hmoved := moveUp_start (s := s) req.maxCount.toNat (s.getTimestampLowerBoundBlockIndex
    (s.searchTimestamp req.firstBlockTimestamp)) supplement
  rw [hrun, ← hstart] at hmoved
  refine ⟨fun i b hb ↦ ?_, fun hall top htop height bid block hlt hbid hblock hle ↦ ?_,
    fun hall height bid block hlt hbid hblock ↦ ?_⟩
  · have hsynced := mapM_eq_ok hblocks
    obtain ⟨hi, hget⟩ := List.getElem?_eq_some_iff.mp hb
    have hi' : i < run.2.length := by rwa [hsynced.length_eq]
    refine ⟨run.2[i], ?_, ?_⟩
    · rw [hstart]
      exact hmovedRun i _ (List.getElem?_eq_getElem hi')
    · rw [← hget]
      exact orThrow_eq_ok.mp (hsynced.get hi' hi)
  · -- the first block of all is where the answer starts at the earliest
    rcases h.timesMain.lowerBound (s.searchTimestamp req.firstBlockTimestamp) with hfound | hnone
    · rw [hfound.unique htop] at hmoved
      have hlt' : height < resp.startHeight := by
        rw [hmoved]
        split_ifs with hbelow
        · exact hlt
        · exact UInt32.lt_of_lt_of_le hlt (UInt32.not_lt.mp hbelow)
      exact (hall height bid block hlt' hbid hblock).resolve_right (UInt32.not_lt.mpr hle)
    · obtain ⟨first, hfirst, hts, -⟩ := htop
      exact absurd hts (UInt32.not_le.mpr (hnone _ _ hfirst))
  · rw [hmoved] at hlt
    split_ifs at hlt with hbelow
    · rcases h.timesMain.lowerBound (s.searchTimestamp req.firstBlockTimestamp) with hfound | hnone
      · by_cases hle : req.firstBlockTimestamp ≤ block.header.timestamp
        · exact .inl (hall _ hfound height bid block hlt hbid hblock hle)
        · exact .inr (UInt32.not_le.mp hle)
      · exact .inr (UInt32.lt_of_lt_of_le (hnone _ _ hblock) (searchTimestamp_le _))
    · exact .inl (hcovered height bid hlt hbid)

private theorem not_descends_of_root {tree : Tree} {a b : Hash} {info : Api.BlockHeader}
    (hinfo : tree.headers[b]? = some info) (hroot : tree.headers[info.previousBlockHash]? = none)
    (hne : a ≠ b) : ¬tree.Descends a b := by
  intro h
  cases h with
  | self _ => exact hne rfl
  | child hinfo' h =>
    cases hinfo.symm.trans hinfo'
    cases h with
    | self h =>
      rw [hroot] at h
      cases h
    | child h _ =>
      rw [hroot] at h
      cases h

end State

/-- A block with a timestamp and no transactions. -/
def sampleBlockAt (env : Env) (height : Height) (prev : Hash) (reward : Amount) (tag : ℕ)
    (timestamp : Timestamp) : RawBlock :=
  let template := { sampleTemplate env height prev (sampleCoinbase height reward tag) [] with
    timestamp := timestamp }
  { block := (writeBlockTemplate env.crypto template).getD [] }

/-- Two blocks, the second with the earlier timestamp. -/
def sampleTimes (env : Env) : List Op :=
  [.addBlock (sampleBlockAt env 1 env.genesisBlockHash sampleReward 7 20000) false 20000,
   .addBlock (sampleBlockAt env 2 0x701 sampleReward₂ 8 13000) false 20000]

/-- A wallet that knows the genesis block and wants the blocks from some time on. -/
def sampleRequest (env : Env) (firstBlockTimestamp : Timestamp) : SyncBlocksRequest where
  sparseChain := [env.genesisBlockHash]
  firstBlockTimestamp := firstBlockTimestamp

namespace State

private theorem exists_answer : ∃ (s : State) (resp : SyncBlocksResponse),
    (s.Reachable (.lax 5) fun _ _ ↦ True) ∧
    s.onWalletSync3 (.lax 5) (sampleRequest (.lax 5) 20000) = .ok resp ∧ resp.startHeight = 2 ∧
    s.chain.tip.tipChain[(1 : Height)]? = some 0x701 ∧
    (∃ block, s.mainBlock 1 = some block ∧ ¬block.header.timestamp < 20000) ∧
    ∃ info : Api.BlockHeader, s.chain.tree.headers[(Env.lax 5).genesisBlockHash]? = some info ∧
      s.chain.tree.headers[info.previousBlockHash]? = none := by
  obtain ⟨s, hs, hp⟩ := exists_reachable 0 (sampleTimes (.lax 5)) (fun s ↦ decide (
      (s.chain.getSyncHeadersChain [(Env.lax 5).genesisBlockHash] 100).toOption =
        some (0, [(Env.lax 5).genesisBlockHash, 0x701, 0x801]) ∧
      s.getTimestampLowerBoundBlockIndex (s.searchTimestamp 20000) = 2 ∧
      (s.syncBlock (.lax 5) 0x801).toOption.isSome ∧
      s.chain.tip.tipChain[(1 : Height)]? = some 0x701 ∧
      (∃ block ∈ s.mainBlock 1, ¬block.header.timestamp < 20000) ∧
      ∃ info ∈ s.chain.tree.headers[(Env.lax 5).genesisBlockHash]?,
        s.chain.tree.headers[info.previousBlockHash]? = none))
    (show endsIn (.lax 5) _ _ _ = true by decide +kernel)
  obtain ⟨hsupplement, hoffset, hsync, hbid, hblock, hinfo⟩ := of_decide_eq_true hp
  obtain ⟨b, hsync⟩ := Option.isSome_iff_exists.mp hsync
  have hrun : s.moveUp 100 2 (0, [(Env.lax 5).genesisBlockHash, 0x701, 0x801]) = (2, [0x801]) := rfl
  refine ⟨s, ⟨[b], 2⟩, hs, onWalletSync3_eq_ok.mpr ⟨rfl, ?_, _, _,
    toOption_eq_some.mp hsupplement, (congrArg (s.moveUp 100 · _) hoffset).trans hrun, rfl, ?_⟩, rfl,
    hbid, hblock, hinfo⟩
  · decide
  · rw [List.mapM_cons, toOption_eq_some.mp hsync]
    rfl

/-- The first block is missed: the second one is from less than two hours before. -/
theorem wallet_misses_block : ∃ (s : State) (resp : SyncBlocksResponse) (bid : Hash) (block : Block),
    (s.Reachable (.lax 5) fun _ _ ↦ True) ∧
    s.onWalletSync3 (.lax 5) (sampleRequest (.lax 5) 20000) = .ok resp ∧
    1 < resp.startHeight ∧ s.chain.tip.tipChain[(1 : Height)]? = some bid ∧
    s.mainBlock 1 = some block ∧ ¬s.Covered (sampleRequest (.lax 5) 20000).sparseChain bid ∧
    ¬block.header.timestamp < (sampleRequest (.lax 5) 20000).firstBlockTimestamp := by
  obtain ⟨s, resp, hs, hresp, hstart, hbid, ⟨block, hblock, hts⟩, info, hinfo, hroot⟩ := exists_answer
  refine ⟨s, resp, 0x701, block, hs, hresp, ?_, hbid, hblock, ?_, hts⟩
  · rw [hstart]
    decide
  · rintro ⟨lit, hlit, hdescends⟩
    rw [List.mem_singleton.mp hlit] at hdescends
    exact not_descends_of_root hinfo hroot (by decide +kernel) hdescends

theorem wallet_misses_nothing_sample : ∃ (s : State) (resp : SyncBlocksResponse),
    s.onWalletSync3 (.lax 5) (sampleRequest (.lax 5) 20000) = .ok resp ∧
    (∀ i b, resp.blocks[i]? = some b → ∃ bid,
      s.chain.tip.tipChain[resp.startHeight + UInt32.ofNat i]? = some bid ∧
        s.syncBlock (.lax 5) bid = .ok b) ∧
    ((∀ height bid block, height < resp.startHeight → s.chain.tip.tipChain[height]? = some bid →
        s.mainBlock height = some block →
        s.Covered (sampleRequest (.lax 5) 20000).sparseChain bid ∨ block.header.timestamp < 20000) ↔
      ∀ top, s.EarliestFrom (s.searchTimestamp 20000) top →
        ∀ height bid block, height < top → s.chain.tip.tipChain[height]? = some bid →
          s.mainBlock height = some block → 20000 ≤ block.header.timestamp →
          s.Covered (sampleRequest (.lax 5) 20000).sparseChain bid) := by
  obtain ⟨s, resp, hs, hresp, -⟩ := exists_answer
  exact ⟨s, resp, hresp, Reachable.wallet_misses_nothing_iff hs _ _ hresp⟩

end State

end CryoNero
