import CryoNero.Chain.Agreement
import CryoNero.Chain.Locator

/-!
# Answers to a locator

A node that catches up sends its locator, and another node answers with a run of its own main chain. The
run starts at a block that the first node has on its main chain as well, at the same height, so that the
first node can go on from there. It ends at the tip of the other node, or when it is as long as was
asked for.
-/

namespace CryoNero

open Store

/-! ## Locators and runs -/

namespace BlockChain

variable {env : Env} {bc : BlockChain}

private theorem sparseFrom_mem : ∀ {fuel : ℕ} {jump : UInt32} {found : ℕ} {path : List Hash},
    bc.sparseFrom fuel jump found = .ok path → ∀ bid ∈ path,
    ∃ height : Height, bc.tip.tipChain[height]? = some bid := by
  intro fuel
  induction fuel with
  | zero =>
    intro jump found path h
    cases h
  | succ fuel ih =>
    intro jump found path h bid hbid
    rw [sparseFrom] at h
    by_cases hjump : jump ≤ bc.tip.tipHeight
    · rw [if_pos hjump] at h
      obtain ⟨b, hb, h⟩ := bind_eq_ok.mp h
      obtain ⟨rest, hrest, h⟩ := bind_eq_ok.mp h
      cases h
      rcases List.mem_cons.mp hbid with rfl | hbid
      · exact ⟨_, orFail_eq_ok.mp hb⟩
      · exact ih hrest bid hbid
    · rw [if_neg hjump] at h
      cases h
      cases hbid

private theorem mem_of_getSparseChain {locator : List Hash}
    (hroot : bc.tip.tipChain[(0 : Height)]? = some env.genesisBlockHash)
    (h : bc.getSparseChain env = .ok locator) :
    (∀ bid ∈ locator, ∃ height : Height, bc.tip.tipChain[height]? = some bid) ∧
      env.genesisBlockHash ∈ locator := by
  obtain ⟨path, hpath, h⟩ := bind_eq_ok.mp h
  cases hback : path.getLast? with
  | none =>
    rw [hback] at h
    cases h
  | some back =>
    rw [hback] at h
    have hlocator : (if back = env.genesisBlockHash then path else path ++ [env.genesisBlockHash]) =
        locator := Except.ok.inj h
    split_ifs at hlocator with hlast
    · subst hlocator
      exact ⟨sparseFrom_mem hpath, hlast ▸ List.mem_of_getLast? hback⟩
    · subst hlocator
      refine ⟨fun bid hbid ↦ ?_, List.mem_append_right _ (List.mem_singleton_self _)⟩
      rcases List.mem_append.mp hbid with hbid | hbid
      · exact sparseFrom_mem hpath bid hbid
      · exact ⟨0, List.mem_singleton.mp hbid ▸ hroot⟩

private theorem Main.chainFrom_ok (hm : bc.Main) (count : ℕ) (height : Height) : ∃ run : List Hash,
    bc.chainFrom count height = .ok run ∧ run.length ≤ count ∧
      (height ≤ bc.tip.tipHeight → run.length < count → run.getLast? = some bc.tip.tipBid) := by
  induction count generalizing height with
  | zero => exact ⟨[], rfl, le_rfl, fun _ hlt ↦ absurd hlt (Nat.lt_irrefl 0)⟩
  | succ count ih =>
    rw [chainFrom]
    split_ifs with hle
    · obtain ⟨bid, hbid⟩ := hm.filled hle
      obtain ⟨run, hrun, hlength, hend⟩ := ih (height + 1)
      refine ⟨bid :: run, ?_, by rw [List.length_cons]; omega, fun _ hlt ↦ ?_⟩
      · exact bind_eq_ok.mpr ⟨bid, orFail_eq_ok.mpr hbid, bind_eq_ok.mpr ⟨run, hrun, rfl⟩⟩
      · rw [List.length_cons] at hlt
        by_cases hnext : height + 1 ≤ bc.tip.tipHeight
        · rw [List.getLast?_cons, hend hnext (by omega)]
          rfl
        · -- the tip is reached, and nothing follows
          have hnil : run = [] := by
            cases count with
            | zero => exact List.length_eq_zero_iff.mp (Nat.le_zero.mp hlength)
            | succ count =>
              rw [chainFrom, if_neg hnext] at hrun
              exact (Except.ok.inj hrun).symm
          have htop : height = bc.tip.tipHeight := by
            have hmax : height ≠ 0xFFFFFFFF := by
              rintro rfl
              exact hnext (UInt32.zero_le)
            rw [UInt32.le_iff_toNat_le] at hle
            rw [UInt32.le_iff_toNat_le, toNat_add_one hmax] at hnext
            exact UInt32.toNat_inj.mp (by omega)
          rw [htop, hm.tip] at hbid
          rw [hnil, Option.some.inj hbid]
          rfl
    · exact ⟨[], rfl, Nat.zero_le _, fun hle' ↦ absurd hle' hle⟩

end BlockChain

namespace State

variable {env : Env} {accept : PreparedBlock → Prop} {guard guard' : State → Op → Prop} {s s' : State}

/-! ## Going down on another node -/

/-- A block of the main chain has the same height on the other node. -/
theorem Accord.height_eq (h : Accord s s') (ht : s.TreeSound env accept) (ht' : s'.TreeSound env accept)
    (hr : s.Ready env) {n : ℕ} {height : Height} {bid : Hash} {info' : Api.BlockHeader}
    (hn : height.toNat = n) (hbid : s.chain.tip.tipChain[height]? = some bid)
    (hinfo' : s'.chain.tree.headers[bid]? = some info') : info'.height = height := by
  induction n generalizing height bid info' with
  | zero =>
    obtain rfl : height = 0 := UInt32.toNat_inj.mp hn
    rw [hr.root] at hbid
    obtain rfl := Option.some.inj hbid
    exact ht'.genesis_height hinfo'
  | succ n ih =>
    have hpos : height ≠ 0 := by
      rintro rfl
      cases hn
    obtain ⟨info, hinfo, hlevel, hprev⟩ := hr.main.entry hbid
    have hne : bid ≠ env.genesisBlockHash := by
      rintro rfl
      exact hpos (hlevel.symm.trans (ht.genesis_height hinfo))
    obtain ⟨_, _, _, hlinked'⟩ := ht'.exists_linked hinfo'
    obtain ⟨prev, hstored, hheight, -⟩ := hlinked'.parent hne
    rw [h.previousBlockHash_eq ht ht' hinfo hinfo'] at hstored
    have hbelow := ih (by rw [toNat_sub_one hpos]; omega) (hprev hpos) hstored
    rw [hheight, hbelow, UInt32.sub_add_cancel]

/-- Going down from a block that is on the main chain of one node ends at a block that is on the main
chains of both. -/
theorem Accord.descendToMain (h : Accord s s') (ht : s.TreeSound env accept)
    (ht' : s'.TreeSound env accept) (hr : s.Ready env) (hr' : s'.Ready env) {fuel : ℕ}
    {header : Api.BlockHeader} {height : Height} (hfuel : header.height.toNat < fuel)
    (hmain : s.chain.tip.tipChain[height]? = some header.hash)
    (hstored : s'.chain.tree.headers[header.hash]? = some header) : ∃ last : Api.BlockHeader,
    s'.chain.descendToMain fuel header = .ok last ∧
      s.chain.tip.tipChain[last.height]? = some last.hash ∧
      s'.chain.tip.tipChain[last.height]? = some last.hash := by
  induction fuel generalizing header height with
  | zero => exact absurd hfuel (Nat.not_lt_zero _)
  | succ fuel ih =>
    have hheight := h.height_eq ht ht' hr rfl hmain hstored
    rw [BlockChain.descendToMain]
    split_ifs with hstop
    · refine ⟨header, rfl, by rw [hheight]; exact hmain, ?_⟩
      rcases hstop with hzero | hthere
      · -- at the bottom both have the genesis block
        rw [← hheight, hzero, hr.root] at hmain
        rw [hzero, hr'.root, hmain]
      · exact hthere
    · rw [not_or] at hstop
      have hpos : height ≠ 0 := hheight ▸ hstop.1
      obtain ⟨info, hinfo, hlevel, hprev⟩ := hr.main.entry hmain
      have hne : header.hash ≠ env.genesisBlockHash := by
        intro hgenesis
        rw [hgenesis] at hinfo
        exact hpos (hlevel.symm.trans (ht.genesis_height hinfo))
      obtain ⟨_, _, _, hlinked⟩ := ht'.exists_linked hstored
      obtain ⟨prev, hparent, hup, -⟩ := hlinked.parent hne
      have hhash : prev.hash = header.previousBlockHash := ht'.coherent.hash hparent
      have hbelow : s.chain.tip.tipChain[height - 1]? = some prev.hash := by
        rw [hhash, h.previousBlockHash_eq ht ht' hinfo hstored]
        exact hprev hpos
      have hlow := h.height_eq ht ht' hr rfl hbelow (hhash ▸ hparent)
      have hless : prev.height.toNat < fuel := by
        have hnot : height.toNat ≠ 0 := fun h0 ↦ hpos (UInt32.toNat_inj.mp h0)
        rw [hheight] at hfuel
        rw [hlow, toNat_sub_one hpos]
        omega
      obtain ⟨last, hlast, hboth⟩ := ih hless hbelow (hhash ▸ hparent)
      exact ⟨last, bind_eq_ok.mpr ⟨prev, ht'.coherent.readHeader!_eq_ok.mpr hparent, hlast⟩, hboth⟩

/-! ## The answer -/

/-- What the locator of one node is answered with by the other: a run of the main chain of the other node
that starts at a block of both. -/
def Connects (s s' : State) (locator : List Hash) (maxCount : ℕ) : Prop :=
  ∃ (start : Height) (first : Hash) (rest : List Hash),
    s'.chain.getSyncHeadersChain locator maxCount = .ok (start, first :: rest) ∧
      s.chain.tip.tipChain[start]? = some first ∧
      (∀ (i : ℕ) (bid : Hash), (first :: rest)[i]? = some bid →
        s'.chain.tip.tipChain[start + UInt32.ofNat i]? = some bid) ∧
      (rest.length + 1 = maxCount ∨ (first :: rest).getLast? = some s'.chain.tip.tipBid)

private theorem Accord.connects (h : Accord s s') (ht : s.TreeSound env accept)
    (ht' : s'.TreeSound env accept)
    (hr : s.Ready env) (hr' : s'.Ready env) {locator : List Hash} {maxCount : ℕ} (hmax : 0 < maxCount)
    (hlocator : s.chain.getSparseChain env = .ok locator) : Connects s s' locator maxCount := by
  obtain ⟨hmem, hgenesis⟩ := BlockChain.mem_of_getSparseChain hr.root hlocator
  unfold Connects BlockChain.getSyncHeadersChain
  cases hfound : locator.findSome? fun lit ↦ s'.chain.readHeader lit 0 with
  | none =>
    -- every node has the genesis block
    have hnone := List.findSome?_eq_none_iff.mp hfound _ hgenesis
    obtain ⟨info, hinfo⟩ := hr'.genesis_header
    rw [ht'.coherent.readHeader_eq, hinfo] at hnone
    cases hnone
  | some header =>
    obtain ⟨lit, hlit, hread⟩ := List.exists_of_findSome?_eq_some hfound
    rw [ht'.coherent.readHeader_eq] at hread
    obtain rfl : header.hash = lit := ht'.coherent.hash hread
    obtain ⟨height, hmain⟩ := hmem _ hlit
    obtain ⟨last, hlast, hours, htheirs⟩ :=
      h.descendToMain ht ht' hr hr' header.height.toNat_lt hmain hread
    obtain ⟨run, hrun, hlength, hend⟩ := hr'.main.chainFrom_ok maxCount last.height
    have hranks := BlockChain.chainFrom_eq_ok hrun
    obtain ⟨count, rfl⟩ := Nat.exists_eq_add_one_of_ne_zero hmax.ne'
    have hle := hr'.main.above htheirs
    have hstart := hrun
    rw [BlockChain.chainFrom, if_pos hle] at hstart
    obtain ⟨first, hfirst, hstart⟩ := bind_eq_ok.mp hstart
    obtain ⟨rest, -, hstart⟩ := bind_eq_ok.mp hstart
    obtain rfl : run = first :: rest := (Except.ok.inj hstart).symm
    obtain rfl : first = last.hash := Option.some.inj ((orFail_eq_ok.mp hfirst).symm.trans htheirs)
    refine ⟨last.height, last.hash, rest, ?_, hours, hranks, ?_⟩
    · exact bind_eq_ok.mpr ⟨last, hlast, bind_eq_ok.mpr ⟨_, hrun, rfl⟩⟩
    · rcases Nat.lt_or_ge (last.hash :: rest).length (count + 1) with hlt | hge
      · exact .inr (hend hle hlt)
      · exact .inl (Nat.le_antisymm hlength hge)

/-- **A node can go on from the answer to its locator.** Whatever two nodes have been through: when one
sends its locator, the other one answers with a run of its own main chain. The first block of the run is
on the main chain of the first node at the same height, and the run ends at the tip of the other node
unless it has as many blocks as were asked for. Otherwise the nodes have stored different bytes under one
hash. -/
theorem Reachable.answer_connects (h : s.Reachable env guard) (h' : s'.Reachable env guard')
    {locator : List Hash} {maxCount : ℕ} (hmax : 0 < maxCount)
    (hlocator : s.chain.getSparseChain env = .ok locator) :
    Connects s s' locator maxCount ∨ Clash env s s' := by
  have ht := (h.moves (fun _ ↦ True) (fun _ _ ↦ trivial) fun _ _ _ _ _ _ ↦ trivial).treeSound
  have ht' := (h'.moves (fun _ ↦ True) (fun _ _ ↦ trivial) fun _ _ _ _ _ _ ↦ trivial).treeSound
  have hr := h.ready (fun _ ↦ True) (fun _ _ ↦ trivial) fun _ _ _ _ _ _ ↦ trivial
  have hr' := h'.ready (fun _ ↦ True) (fun _ _ ↦ trivial) fun _ _ _ _ _ _ ↦ trivial
  exact (accord_or_clash ht ht').imp_left fun haccord ↦ haccord.connects ht ht' hr hr' hmax hlocator

/-- A node with a block of its own asks one that has left a rival of that block behind. -/
theorem answer_connects_sample : ∃ (s s' : State) (locator : List Hash),
    s.chain.getSparseChain (.lax 5) = .ok locator ∧ s.chain.tip.tipBid = 0x901 ∧
    s'.chain.tip.tipBid = 0x902 ∧ (Connects s s' locator 10 ∨ Clash (.lax 5) s s') := by
  obtain ⟨s, hs, hp⟩ := exists_reachable 0
    [.addBlock (sampleBlock (.lax 5) 1 (Env.lax 5).genesisBlockHash sampleReward 9 []) false 0]
    (fun s ↦ decide (s.chain.tip.tipBid = 0x901 ∧ (s.chain.getSparseChain (.lax 5)).toOption.isSome))
    (show endsIn (.lax 5) _ _ _ = true by decide +kernel)
  obtain ⟨s', hs', hp'⟩ := exists_reachable 0 (sampleBlocks (.lax 5))
    (fun s ↦ decide (s.chain.tip.tipBid = 0x902)) (show endsIn (.lax 5) _ _ _ = true by decide +kernel)
  obtain ⟨htip, hsome⟩ := of_decide_eq_true hp
  obtain ⟨locator, hlocator⟩ := Option.isSome_iff_exists.mp hsome
  rw [toOption_eq_some] at hlocator
  exact ⟨s, s', locator, hlocator, htip, of_decide_eq_true hp',
    Reachable.answer_connects hs hs' (by decide) hlocator⟩

end State

end CryoNero
