import CryoNero.Chain.Pruning

/-!
# Headers in the caches

Headers are found in the window of the tip, in the cache or in the database. Wherever they are found,
they are those of the database, in runs in which no block is deleted. A block that is deleted is still
found.
-/

namespace CryoNero

open Seria Store

/-- Steps that delete no block: only the tip of the main chain is pruned, to which nothing happens. -/
def PruningOp.KeepsBlocks (s : State) : PruningOp → Prop
  | .node _ => True
  | .pruneBranch _ bid => bid = s.chain.tip.tipBid

namespace BlockChain

variable {env : Env} {bc : BlockChain} {bid b : Hash} {hint : Height} {header : Api.BlockHeader}

variable (env bc) in
/-- The number of headers above which the cache is emptied. -/
def cacheLimit : ℕ := (bc.largestWindow env * 10).toNat

variable (bc bid) in
/-- A header is found in the window, under the height 0, or in the cache. -/
def Knows : Prop := (∃ candidate ∈ bc.windowCandidate 0, candidate.hash = bid) ∨
  (bc.headerCache[bid]?).isSome

theorem Knows.readHeader (h : bc.Knows bid) : (bc.readHeader bid 0).isSome := by
  unfold BlockChain.readHeader
  rcases h with ⟨candidate, hcandidate, hhash⟩ | hcached
  · rw [Option.mem_def.mp hcandidate]
    dsimp only
    rw [if_pos hhash]
    rfl
  · obtain ⟨header, hheader⟩ := Option.isSome_iff_exists.mp hcached
    rw [hheader]
    split
    · split_ifs <;> rfl
    · rfl

theorem Knows.congr {bc' : BlockChain} (h : bc.Knows bid) (htip : bc'.tip = bc.tip)
    (hcache : bc'.headerCache = bc.headerCache) : bc'.Knows bid := by
  unfold Knows windowCandidate at h ⊢
  rw [htip, hcache]
  exact h

private theorem lookUpHeader_fst : (bc.lookUpHeader env bid hint).1 = bc.readHeader bid hint := by
  unfold lookUpHeader readHeader
  cases bc.windowCandidate hint with
  | none => cases bc.headerCache[bid]? <;> cases bc.tree.headers[bid]? <;> rfl
  | some candidate =>
    rw [Option.filter_some]
    by_cases hhash : candidate.hash = bid
    · rw [if_pos (decide_eq_true hhash)]
      exact (if_pos hhash).symm
    · rw [if_neg (by simpa using hhash)]
      dsimp only
      rw [if_neg hhash]
      cases bc.headerCache[bid]? <;> cases bc.tree.headers[bid]? <;> rfl

variable (env bc bid) in
/-- What a look-up does to the cache: a header that is found is known afterwards, and what was known
before stays known unless the cache was too large. -/
structure Learns (bc' : BlockChain) : Prop where
  tip : bc'.tip = bc.tip
  found : ∀ header, bc.readHeader bid 0 = some header → bc'.Knows bid
  keeps : bc.headerCache.size ≤ bc.cacheLimit env → ∀ b, bc.Knows b → bc'.Knows b
  size : bc'.headerCache.size ≤ bc.headerCache.size + 1

private theorem learns_lookUpHeader : bc.Learns env bid (bc.lookUpHeader env bid 0).2 := by
  have hfst : (bc.lookUpHeader env bid 0).1 = bc.readHeader bid 0 := lookUpHeader_fst
  unfold lookUpHeader at hfst ⊢
  cases hcandidate : (bc.windowCandidate 0).filter fun candidate ↦ candidate.hash = bid with
  | some candidate =>
    obtain ⟨hin, hhash⟩ := Option.filter_eq_some_iff.mp hcandidate
    exact ⟨rfl, fun _ _ ↦ .inl ⟨candidate, hin, of_decide_eq_true hhash⟩, fun _ _ ↦ id,
      Nat.le_succ _⟩
  | none =>
    rw [hcandidate] at hfst
    cases hcached : bc.headerCache[bid]? with
    | some header =>
      refine ⟨rfl, fun _ _ ↦ .inr ?_, fun _ _ ↦ id, Nat.le_succ _⟩
      rw [hcached]
      rfl
    | none =>
      rw [hcached] at hfst
      dsimp only at hfst ⊢
      set cache := if (bc.largestWindow env * 10).toNat < bc.headerCache.size then ∅
        else bc.headerCache with hcache
      have hle : cache.size ≤ bc.headerCache.size := by
        rw [hcache]
        split_ifs
        · rw [Std.ExtTreeMap.size_empty]
          exact Nat.zero_le _
        · exact le_rfl
      have hsame (hsize : bc.headerCache.size ≤ bc.cacheLimit env) : cache = bc.headerCache :=
        if_neg (Nat.not_lt.mpr hsize)
      cases hheader : bc.tree.headers[bid]? with
      | none =>
        rw [hheader] at hfst
        refine ⟨rfl, fun header hread ↦ ?_, fun hsize b hb ↦ ?_, hle.trans (Nat.le_succ _)⟩
        · cases hfst.trans hread
        · rw [hsame hsize]
          exact hb
      | some header =>
        refine ⟨rfl, fun _ _ ↦ .inr ?_, fun hsize b hb ↦ hb.imp id fun hb ↦ ?_, ?_⟩
        · dsimp only
          rw [Table.get_insert_self]
          rfl
        · dsimp only
          rw [hsame hsize, Table.get_insert]
          split_ifs
          · rfl
          · exact hb
        · have hinsert := Std.ExtTreeMap.size_insert_le (t := cache) (k := bid) (v := header)
          exact hinsert.trans (Nat.succ_le_succ hle)

/-- **A block that was deleted is still found**, unless the cache was full. -/
private theorem readHeader_of_pruneBranch {cd : Difficulty} {bc' : BlockChain}
    (h : bc.pruneBranch env cd bid = .ok (true, bc'))
    (hsize : bc.headerCache.size < bc.cacheLimit env) :
    (bc'.readHeader bid 0).isSome ∧ bc'.tree.headers[bid]? = none := by
  unfold pruneBranch at h
  split_ifs at h with htip
  · cases h
  obtain ⟨_, -, h⟩ := bind_eq_ok.mp h
  obtain ⟨me, hme, h⟩ := bind_eq_ok.mp h
  obtain ⟨pa, -, h⟩ := bind_eq_ok.mp h
  obtain ⟨blocks, -, h⟩ := bind_eq_ok.mp h
  obtain ⟨headers, hheaders, h⟩ := bind_eq_ok.mp h
  cases h
  rw [orFail_eq_ok, lookUpHeader_fst] at hme
  obtain ⟨-, rfl⟩ := delOld_eq_ok.mp hheaders
  -- the header is known when it was looked up, and remains so when its parent is looked up
  have hfirst : bc.Learns env bid (bc.lookUpHeader env bid 0).2 := learns_lookUpHeader
  have hsecond : (bc.lookUpHeader env bid 0).2.Learns env me.previousBlockHash _ :=
    learns_lookUpHeader
  have hlimit : (bc.lookUpHeader env bid 0).2.headerCache.size ≤
      (bc.lookUpHeader env bid 0).2.cacheLimit env := by
    have hsame : (bc.lookUpHeader env bid 0).2.cacheLimit env = bc.cacheLimit env := by
      rw [cacheLimit, largestWindow, hfirst.tip, cacheLimit, largestWindow]
    rw [hsame]
    exact hfirst.size.trans hsize
  have hknown := hsecond.keeps hlimit bid (hfirst.found me hme)
  refine ⟨?_, Table.get_erase_self _ _⟩
  apply Knows.readHeader
  exact hknown.congr rfl rfl

end BlockChain

namespace State

variable {env : Env} {s : State}

variable (s) in
/-- The caches agree with the database: a header is read just when it is there, the window is the end of
the main chain, the last block first, and what is cached is there. -/
structure HeadersAgree : Prop where
  read : ∀ bid hint, s.chain.readHeader bid hint = s.chain.tree.headers[bid]?
  tip : ∃ info rest, s.chain.tip.headerTipWindow = info :: rest ∧ info.hash = s.chain.tip.tipBid
  window : ∀ (i : ℕ) (info : Api.BlockHeader), s.chain.tip.headerTipWindow[i]? = some info →
    i ≤ s.chain.tip.tipHeight.toNat ∧
      s.chain.tip.tipChain[s.chain.tip.tipHeight - UInt32.ofNat i]? = some info.hash ∧
      s.chain.tree.headers[info.hash]? = some info
  cache : ∀ (bid : Hash) (header : Api.BlockHeader), s.chain.headerCache[bid]? = some header →
    s.chain.tree.headers[bid]? = some header

/-- A node that deletes no block does as one that does not prune. -/
theorem ReachablePruning.reachable (h : s.ReachablePruning env fun s op ↦ op.KeepsBlocks s) :
    s.Reachable env fun _ _ ↦ True := by
  induction h with
  | start hs => exact .start hs
  | @next s s' op _ hguard hstep ih =>
    cases op with
    | node op => exact .next ih ⟨hguard.1, trivial⟩ hstep
    | pruneBranch cd bid =>
      have htip : bid = s.chain.tip.tipBid := hguard.2
      obtain ⟨p, hp, hstep⟩ := bind_eq_ok.mp hstep
      unfold BlockChain.pruneBranch at hp
      rw [if_pos htip] at hp
      cases hp
      cases hstep
      exact ih

/-- The window of a node whose window is on file. -/
private theorem window_of_ready (hr : s.Ready env) (hstored : ∀ {info : Api.BlockHeader},
    info ∈ s.chain.tip.headerTipWindow → s.chain.tree.headers[info.hash]? = some info) :
    (∃ info rest, s.chain.tip.headerTipWindow = info :: rest ∧ info.hash = s.chain.tip.tipBid) ∧
      ∀ (i : ℕ) (info : Api.BlockHeader), s.chain.tip.headerTipWindow[i]? = some info →
        i ≤ s.chain.tip.tipHeight.toNat ∧
          s.chain.tip.tipChain[s.chain.tip.tipHeight - UInt32.ofNat i]? = some info.hash ∧
          s.chain.tree.headers[info.hash]? = some info := by
  refine ⟨?_, fun i info hi ↦ ?_⟩
  · obtain ⟨info, rest, hwindow, -⟩ := hr.main.work
    have hfirst : s.chain.tip.headerTipWindow[0]? = some info := by
      rw [hwindow]
      rfl
    have hhash := (hr.main.window hfirst).2
    rw [show UInt32.ofNat 0 = 0 from rfl, UInt32.sub_zero, hr.main.tip] at hhash
    exact ⟨info, rest, hwindow, (Option.some.inj hhash).symm⟩
  · obtain ⟨hle, hbid⟩ := hr.main.window hi
    exact ⟨hle, hbid, hstored (List.mem_of_getElem? hi)⟩

/-- **The window is the end of the main chain** also where blocks are deleted. -/
theorem ReachablePruning.window_agrees (h : s.ReachablePruning env fun s op ↦ op.Careful s) :
    (∃ info rest, s.chain.tip.headerTipWindow = info :: rest ∧ info.hash = s.chain.tip.tipBid) ∧
      ∀ (i : ℕ) (info : Api.BlockHeader), s.chain.tip.headerTipWindow[i]? = some info →
        i ≤ s.chain.tip.tipHeight.toNat ∧
          s.chain.tip.tipChain[s.chain.tip.tipHeight - UInt32.ofNat i]? = some info.hash ∧
          s.chain.tree.headers[info.hash]? = some info :=
  window_of_ready (s := s.dbCommit) h.tended.ready h.tended.treeSound.coherent.window

/-- **Headers are read from the database** as long as no block is deleted. The deletion of a block
breaks this at once, unless the cache was full. -/
theorem ReachablePruning.headers_agree (h : s.ReachablePruning env fun s op ↦ op.KeepsBlocks s) :
    s.HeadersAgree ∧ ∀ cd bid bc, s.chain.headerCache.size < s.chain.cacheLimit env →
      s.chain.pruneBranch env cd bid = .ok (true, bc) → ¬({ s with chain := bc } : State).HeadersAgree := by
  have hreachable := h.reachable
  have hready := hreachable.ready (fun _ ↦ True) (fun _ _ ↦ trivial) fun _ _ _ _ _ _ ↦ trivial
  have hcoherent : s.chain.Coherent := by
    have hmoves : Moves env (fun _ ↦ True) {} s :=
      hreachable.moves _ (fun _ _ ↦ trivial) fun _ _ _ _ _ _ ↦ trivial
    exact hmoves.treeSound.coherent
  obtain ⟨htip, hwindow⟩ := window_of_ready hready hcoherent.window
  refine ⟨⟨hcoherent.readHeader_eq, htip, hwindow, fun _ _ ↦ hcoherent.cache⟩,
    fun cd bid bc hsize hprune hagree ↦ ?_⟩
  · obtain ⟨hfound, hdeleted⟩ := BlockChain.readHeader_of_pruneBranch hprune hsize
    rw [hagree.read bid 0, hdeleted] at hfound
    cases hfound

/-- A check that a step is sized and deletes no block. -/
def checkKeepsBlocks (s : State) : PruningOp → Bool
  | .node op => op.isSized
  | .pruneBranch _ bid => decide (bid = s.chain.tip.tipBid)

private theorem keepsBlocks_of_check (s : State) (op : PruningOp) (h : s.checkKeepsBlocks op = true) :
    op.Sized s ∧ op.KeepsBlocks s := by
  cases op with
  | node op => exact ⟨sized_of_isSized h s, trivial⟩
  | pruneBranch cd bid => exact ⟨trivial, of_decide_eq_true (p := bid = s.chain.tip.tipBid) h⟩

theorem headers_agree_sample : ∃ s : State, s.chain.tip.tipBid = 0x701 ∧
    s.HeadersAgree ∧ ∀ cd bid bc, s.chain.headerCache.size < s.chain.cacheLimit (.lax 5) →
      s.chain.pruneBranch (.lax 5) cd bid = .ok (true, bc) →
        ¬({ s with chain := bc } : State).HeadersAgree := by
  obtain ⟨s, hs, hp⟩ := exists_reachablePruning (.lax 5) _ _ 0
    [.node (.addBlock (sampleBlock (.lax 5) 1 (Env.lax 5).genesisBlockHash sampleReward 7 []) false 0),
     .pruneBranch 1001 0x701]
    (fun s ↦ decide (s.chain.tip.tipBid = 0x701)) keepsBlocks_of_check (by decide +kernel)
  exact ⟨s, of_decide_eq_true hp, ReachablePruning.headers_agree hs⟩

/-- A block was pruned, and its header is still read. -/
theorem headers_disagree : ∃ s : State, (s.ReachablePruning (.lax 5) fun _ _ ↦ True) ∧
    (s.chain.readHeader 0x901 0).isSome ∧ s.chain.tree.headers[(0x901 : Hash)]? = none := by
  obtain ⟨s, hs, hp⟩ := exists_reachablePruning (.lax 5) (fun _ _ ↦ True) _ 0
    (sampleBranch (.lax 5))
    (fun s ↦ decide ((s.chain.readHeader 0x901 0).isSome ∧
      s.chain.tree.headers[(0x901 : Hash)]? = none))
    PruningOp.sized_of_isSized (by decide +kernel)
  exact ⟨s, hs, of_decide_eq_true hp⟩

end State

end CryoNero
