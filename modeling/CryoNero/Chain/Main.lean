import CryoNero.Chain.Tree
import CryoNero.Ledger.Undo

/-!
# The main chain

The main chain is a table from heights to blocks without gaps from zero up to the tip, each block
following the one below it. The window at the tip holds the headers of its last blocks.
-/

namespace CryoNero

open Seria Store

/-! ## Heights -/

theorem toNat_add_one {h : Height} (hlt : h ≠ 0xFFFFFFFF) : (h + 1).toNat = h.toNat + 1 := by
  have hne : h.toNat ≠ 0xFFFFFFFF := fun he ↦ hlt (UInt32.toNat_inj.mp he)
  have := h.toNat_lt
  rw [UInt32.toNat_add]
  simp only [UInt32.reduceToNat]
  omega

theorem toNat_sub_one {h : Height} (hpos : h ≠ 0) : (h - 1).toNat = h.toNat - 1 := by
  have hne : h.toNat ≠ 0 := fun he ↦ hpos (UInt32.toNat_inj.mp he)
  have := h.toNat_lt
  rw [UInt32.toNat_sub]
  simp only [UInt32.reduceToNat]
  omega

theorem toNat_sub_ofNat {h : Height} {i : ℕ} (hi : i ≤ h.toNat) :
    (h - UInt32.ofNat i).toNat = h.toNat - i := by
  have := h.toNat_lt
  have hofNat : (UInt32.ofNat i).toNat = i := by
    rw [UInt32.toNat_ofNat']
    omega
  rw [UInt32.toNat_sub, hofNat]
  omega

private theorem add_one_sub_ofNat_succ {h : Height} (i : ℕ) :
    h + 1 - UInt32.ofNat (i + 1) = h - UInt32.ofNat i := by
  rw [UInt32.ofNat_add]
  change h + 1 - (UInt32.ofNat i + 1) = _
  grind

theorem sub_one_sub_ofNat {h : Height} (i : ℕ) :
    h - 1 - UInt32.ofNat i = h - UInt32.ofNat (i + 1) := by
  rw [UInt32.ofNat_add]
  change _ = h - (UInt32.ofNat i + 1)
  grind

/-! ## The invariant -/

namespace BlockChain

/-- The main chain of a node that has one. -/
structure Main (bc : BlockChain) : Prop where
  entry : ∀ {h : Height} {b : Hash}, bc.tip.tipChain[h]? = some b →
    ∃ info : Api.BlockHeader, bc.tree.headers[b]? = some info ∧ info.height = h ∧
      (h ≠ 0 → bc.tip.tipChain[h - 1]? = some info.previousBlockHash)
  filled : ∀ {h : Height}, h ≤ bc.tip.tipHeight → ∃ b : Hash, bc.tip.tipChain[h]? = some b
  above : ∀ {h : Height} {b : Hash}, bc.tip.tipChain[h]? = some b → h ≤ bc.tip.tipHeight
  tip : bc.tip.tipChain[bc.tip.tipHeight]? = some bc.tip.tipBid
  window : ∀ {i : ℕ} {info : Api.BlockHeader}, bc.tip.headerTipWindow[i]? = some info →
    i ≤ bc.tip.tipHeight.toNat ∧
      bc.tip.tipChain[bc.tip.tipHeight - UInt32.ofNat i]? = some info.hash
  work : ∃ (info : Api.BlockHeader) (rest : List Api.BlockHeader),
    bc.tip.headerTipWindow = info :: rest ∧ bc.tip.tipCumulativeDifficulty = info.cumulativeDifficulty

/-- The chain before the genesis block. -/
structure Blank (bc : BlockChain) : Prop where
  headers : bc.tree.headers = ∅
  blocks : bc.tree.blocks = ∅
  tip : bc.tip = {}

variable {env : Env} {bc bc' : BlockChain} {header : Api.BlockHeader} {bid : Hash}

theorem Main.tip_header (hm : bc.Main) : ∃ info : Api.BlockHeader,
    bc.tree.headers[bc.tip.tipBid]? = some info ∧ info.height = bc.tip.tipHeight := by
  obtain ⟨info, hinfo, hheight, -⟩ := hm.entry hm.tip
  exact ⟨info, hinfo, hheight⟩

/-- The first header of the window is the header of the tip, and has its work. -/
theorem Main.window_head (hm : bc.Main) (hc : bc.Coherent) : ∃ (info : Api.BlockHeader) (rest : _),
    bc.tip.headerTipWindow = info :: rest ∧ info.hash = bc.tip.tipBid ∧
      bc.tree.headers[bc.tip.tipBid]? = some info ∧ info.height = bc.tip.tipHeight ∧
      bc.tip.tipCumulativeDifficulty = info.cumulativeDifficulty := by
  obtain ⟨info, rest, hwindow, hwork⟩ := hm.work
  have hentry : bc.tip.tipChain[bc.tip.tipHeight - UInt32.ofNat 0]? = some info.hash :=
    (hm.window (i := 0) (by rw [hwindow]; rfl)).2
  have hzero : bc.tip.tipHeight - UInt32.ofNat 0 = bc.tip.tipHeight := by simp
  rw [hzero, hm.tip] at hentry
  have hhash := (Option.some.inj hentry).symm
  have hstored := hc.window (h := info) (by rw [hwindow]; exact List.mem_cons_self)
  rw [hhash] at hstored
  obtain ⟨info', hinfo', hheight⟩ := hm.tip_header
  rw [hstored] at hinfo'
  cases hinfo'
  exact ⟨info, rest, hwindow, hhash, hstored, hheight, hwork⟩

/-! ## Changes of the main chain -/

theorem Main.congr (hm : bc.Main) (hheaders : bc'.tree.headers = bc.tree.headers)
    (hchain : bc'.tip.tipChain = bc.tip.tipChain) (hheight : bc'.tip.tipHeight = bc.tip.tipHeight)
    (hbid : bc'.tip.tipBid = bc.tip.tipBid)
    (hwindow : bc'.tip.headerTipWindow = bc.tip.headerTipWindow)
    (hwork : bc'.tip.tipCumulativeDifficulty = bc.tip.tipCumulativeDifficulty) : bc'.Main where
  entry h := by
    rw [hchain, hheaders] at *
    exact hm.entry h
  filled h := by
    rw [hchain]
    exact hm.filled (by rw [← hheight]; exact h)
  above h := by
    rw [hheight]
    exact hm.above (by rw [← hchain]; exact h)
  tip := by
    rw [hchain, hheight, hbid]
    exact hm.tip
  window h := by
    rw [hwindow] at h
    rw [hheight, hchain]
    exact hm.window h
  work := by
    rw [hwindow, hwork]
    exact hm.work

theorem Main.mono (hm : bc.Main) (htip : bc'.tip = bc.tip)
    (hle : ∀ {b : Hash} {x : Api.BlockHeader}, bc.tree.headers[b]? = some x →
      bc'.tree.headers[b]? = some x) : bc'.Main where
  entry h := by
    rw [htip] at h ⊢
    obtain ⟨info, hinfo, hrest⟩ := hm.entry h
    exact ⟨info, hle hinfo, hrest⟩
  filled := by
    rw [htip]
    exact hm.filled
  above := by
    rw [htip]
    exact hm.above
  tip := by
    rw [htip]
    exact hm.tip
  window := by
    rw [htip]
    exact hm.window
  work := by
    rw [htip]
    exact hm.work

theorem Main.tipChanged (hm : bc.Main) (h : bc.tipChanged = .ok bc') : bc'.Main := by
  obtain ⟨_, _, _, _, rfl⟩ := tipChanged_eq_ok.mp h
  exact hm.congr rfl rfl rfl rfl rfl rfl

private theorem pushed_window {env : Env} (h : (bc.pushed env header).tipChanged = .ok bc') :
    ∃ rest, (bc.pushed env header).tip.headerTipWindow = header :: rest ∧
      rest <+: bc.tip.headerTipWindow := by
  obtain ⟨first, medians, htip, -, -⟩ := tipChanged_eq_ok.mp h
  obtain ⟨rest, hwindow, -⟩ := getTip_eq_ok.mp htip
  have htake : (bc.pushed env header).tip.headerTipWindow <+: header :: bc.tip.headerTipWindow :=
    List.take_prefix _ _
  rw [hwindow, List.cons_prefix_cons] at htake
  exact ⟨rest, by rw [hwindow, htake.1], htake.2⟩

theorem pushChain_tip (h : bc.pushChain env header = .ok bc') :
    bc'.tip.tipChain = bc.tip.tipChain.insert (bc.tip.tipHeight + 1) header.hash ∧
      bc'.tip.tipHeight = bc.tip.tipHeight + 1 ∧ bc'.tip.tipBid = header.hash ∧
      bc'.tip.tipCumulativeDifficulty = header.cumulativeDifficulty := by
  obtain ⟨-, hsettled⟩ := pushChain_eq_ok.mp h
  obtain ⟨_, _, _, _, rfl⟩ := tipChanged_eq_ok.mp hsettled
  exact ⟨rfl, rfl, rfl, rfl⟩

/-- **A block on top of the main chain.** -/
theorem Main.pushChain (hm : bc.Main) (hinfo : bc.tree.headers[header.hash]? = some header)
    (hheight : header.height = bc.tip.tipHeight + 1)
    (hprev : header.previousBlockHash = bc.tip.tipBid)
    (h : bc.pushChain env header = .ok bc') : bc'.Main := by
  obtain ⟨hfree, hsettled⟩ := pushChain_eq_ok.mp h
  have hlast : bc.tip.tipHeight ≠ 0xFFFFFFFF := by
    intro hmax
    rw [hmax] at hfree
    obtain ⟨b, hb⟩ := hm.filled (h := 0) (by rw [UInt32.le_iff_toNat_le]; exact Nat.zero_le _)
    have hnone : bc.tip.tipChain[(0 : Height)]? = none := hfree
    rw [hb] at hnone
    cases hnone
  have hnext := toNat_add_one hlast
  have hkeep {k : Height} {b : Hash} (hb : bc.tip.tipChain[k]? = some b) :
      (bc.tip.tipChain.insert (bc.tip.tipHeight + 1) header.hash)[k]? = some b := by
    rw [Table.get_insert_of_ne _ _ (by rintro rfl; rw [hfree] at hb; cases hb)]
    exact hb
  obtain ⟨rest, hwindow, hrest⟩ := pushed_window hsettled
  have hpushed : (bc.pushed env header).Main := by
    refine ⟨fun {k b} hb ↦ ?_, fun {k} hk ↦ ?_, fun {k b} hb ↦ ?_, Table.get_insert_self _ _ _,
      fun {i info} hi ↦ ?_, ⟨header, rest, hwindow, rfl⟩⟩
    · by_cases hkey : bc.tip.tipHeight + 1 = k
      · subst hkey
        cases (Table.get_insert_self _ _ _).symm.trans hb
        refine ⟨header, hinfo, hheight, fun _ ↦ ?_⟩
        rw [UInt32.add_sub_cancel, hprev]
        exact hkeep hm.tip
      · obtain ⟨info, hheader, hk, hbelow⟩ := hm.entry ((Table.get_insert_of_ne _ _ hkey).symm.trans hb)
        exact ⟨info, hheader, hk, fun hpos ↦ hkeep (hbelow hpos)⟩
    · by_cases hkey : bc.tip.tipHeight + 1 = k
      · exact ⟨header.hash, by rw [← hkey]; exact Table.get_insert_self _ _ _⟩
      · have hle : k ≤ bc.tip.tipHeight := by
          have hne : (bc.tip.tipHeight + 1).toNat ≠ k.toNat := fun he ↦ hkey (UInt32.toNat_inj.mp he)
          have hk' : k.toNat ≤ (bc.tip.tipHeight + 1).toNat := UInt32.le_iff_toNat_le.mp hk
          rw [UInt32.le_iff_toNat_le]
          omega
        obtain ⟨b, hb⟩ := hm.filled hle
        exact ⟨b, hkeep hb⟩
    · change k ≤ bc.tip.tipHeight + 1
      by_cases hkey : bc.tip.tipHeight + 1 = k
      · exact UInt32.le_of_eq hkey.symm
      · have hle := hm.above ((Table.get_insert_of_ne _ _ hkey).symm.trans hb)
        rw [UInt32.le_iff_toNat_le] at hle ⊢
        omega
    · rw [hwindow] at hi
      change i ≤ (bc.tip.tipHeight + 1).toNat ∧
        (bc.tip.tipChain.insert (bc.tip.tipHeight + 1) header.hash)[bc.tip.tipHeight + 1 -
          UInt32.ofNat i]? = some info.hash
      cases i with
      | zero =>
        cases hi
        exact ⟨Nat.zero_le _, by simp⟩
      | succ i =>
        rw [List.getElem?_cons_succ] at hi
        obtain ⟨older, holder⟩ := hrest
        have hold : bc.tip.headerTipWindow[i]? = some info := by
          rw [← holder, List.getElem?_append_left (List.getElem?_eq_some_iff.mp hi).1]
          exact hi
        obtain ⟨hle, hentry⟩ := hm.window hold
        rw [add_one_sub_ofNat_succ]
        exact ⟨by omega, hkeep hentry⟩
  exact hpushed.tipChanged hsettled

/-- The first block of the main chain. -/
theorem Blank.pushChain (hb : bc.tip = {}) (hinfo : bc.tree.headers[header.hash]? = some header)
    (hheight : header.height = 0) (h : bc.pushChain env header = .ok bc') : bc'.Main := by
  obtain ⟨-, hsettled⟩ := pushChain_eq_ok.mp h
  obtain ⟨rest, hwindow, hrest⟩ := pushed_window hsettled
  have hnil : rest = [] := by
    rw [hb] at hrest
    exact List.prefix_nil.mp hrest
  subst hnil
  have hchain : (bc.pushed env header).tip.tipChain = (∅ : Table Height Hash).insert 0 header.hash := by
    change bc.tip.tipChain.insert (bc.tip.tipHeight + 1) header.hash = _
    rw [hb]
    rfl
  have htop : (bc.pushed env header).tip.tipHeight = 0 := by
    change bc.tip.tipHeight + 1 = 0
    rw [hb]
    rfl
  have hkey {k : Height} {b : Hash}
      (hk : ((∅ : Table Height Hash).insert 0 header.hash)[k]? = some b) : k = 0 ∧ b = header.hash := by
    by_cases hzero : (0 : Height) = k
    · subst hzero
      cases (Table.get_insert_self _ _ _).symm.trans hk
      exact ⟨rfl, rfl⟩
    · have hnone := (Table.get_insert_of_ne _ _ hzero).symm.trans hk
      cases (Std.ExtTreeMap.getElem?_empty).symm.trans hnone
  have hself : ((∅ : Table Height Hash).insert 0 header.hash)[(0 : Height)]? = some header.hash :=
    Table.get_insert_self _ _ _
  have hpushed : (bc.pushed env header).Main := by
    refine ⟨fun {k b} hk ↦ ?_, fun {k} hk ↦ ?_, fun {k b} hk ↦ ?_, ?_, fun {i info} hi ↦ ?_,
      ⟨header, [], hwindow, rfl⟩⟩
    · rw [hchain] at hk
      obtain ⟨rfl, rfl⟩ := hkey hk
      exact ⟨header, hinfo, hheight, fun hpos ↦ absurd rfl hpos⟩
    · rw [htop, UInt32.le_iff_toNat_le] at hk
      have hzero : k = 0 := UInt32.toNat_inj.mp (Nat.le_zero.mp hk)
      exact ⟨header.hash, by rw [hchain, hzero]; exact hself⟩
    · rw [hchain] at hk
      rw [htop, (hkey hk).1]
      exact UInt32.le_refl 0
    · rw [hchain, htop]
      exact hself
    · rw [hwindow] at hi
      rw [htop, hchain]
      cases i with
      | zero =>
        cases hi
        exact ⟨Nat.zero_le _, by simp⟩
      | succ i => simp at hi
  exact hpushed.tipChanged hsettled

/-- **The main chain without its last block.** -/
theorem Main.popChain (hm : bc.Main) (h : bc.popChain bid = .ok bc') : bc'.Main := by
  obtain ⟨hpos, -, -, hunder, header, rest, rfl, rfl, htail⟩ := popChain_eq_ok.mp h
  have hnext := toNat_sub_one hpos
  have hpos' : bc.tip.tipHeight.toNat ≠ 0 := fun he ↦ hpos (UInt32.toNat_inj.mp he)
  have hne {k : Height} (hk : k.toNat < bc.tip.tipHeight.toNat) : bc.tip.tipHeight ≠ k :=
    fun he ↦ by rw [he] at hk; exact lt_irrefl _ hk
  have hbelow {k : Height} {b : Hash}
      (hk : (bc.tip.tipChain.erase bc.tip.tipHeight)[k]? = some b) :
      bc.tip.tipChain[k]? = some b ∧ k.toNat < bc.tip.tipHeight.toNat := by
    by_cases hkey : bc.tip.tipHeight = k
    · subst hkey
      cases (Table.get_erase_self _ _).symm.trans hk
    · have hold := (Table.get_erase_of_ne _ hkey).symm.trans hk
      have hle := UInt32.le_iff_toNat_le.mp (hm.above hold)
      have hne : bc.tip.tipHeight.toNat ≠ k.toNat := fun he ↦ hkey (UInt32.toNat_inj.mp he)
      exact ⟨hold, by omega⟩
  have hkeep {k : Height} {b : Hash} (hk : k.toNat < bc.tip.tipHeight.toNat)
      (hb : bc.tip.tipChain[k]? = some b) :
      (bc.tip.tipChain.erase bc.tip.tipHeight)[k]? = some b := by
    rw [Table.get_erase_of_ne _ (hne hk)]
    exact hb
  have htip := hkeep (by omega) hunder
  refine ⟨fun {k b} hb ↦ ?_, fun {k} hk ↦ ?_, fun {k b} hb ↦ ?_, htip, fun {i info} hi ↦ ?_,
    ⟨header, rest, rfl, rfl⟩⟩
  · obtain ⟨hold, hlt⟩ := hbelow hb
    obtain ⟨info, hinfo, hheight, hprev⟩ := hm.entry hold
    refine ⟨info, hinfo, hheight, fun hk ↦ hkeep ?_ (hprev hk)⟩
    rw [toNat_sub_one hk]
    omega
  · have hk' : k.toNat ≤ (bc.tip.tipHeight - 1).toNat := UInt32.le_iff_toNat_le.mp hk
    obtain ⟨b, hb⟩ := hm.filled (h := k) (by rw [UInt32.le_iff_toNat_le]; omega)
    exact ⟨b, hkeep (by omega) hb⟩
  · have hlt := (hbelow hb).2
    change k ≤ bc.tip.tipHeight - 1
    rw [UInt32.le_iff_toNat_le]
    omega
  · change i ≤ (bc.tip.tipHeight - 1).toNat ∧
      (bc.tip.tipChain.erase bc.tip.tipHeight)[bc.tip.tipHeight - 1 - UInt32.ofNat i]? =
        some info.hash
    change (header :: rest)[i]? = some info at hi
    rcases htail with htail | ⟨-, rfl, -⟩
    · rw [← htail, List.getElem?_tail] at hi
      obtain ⟨hle, hentry⟩ := hm.window hi
      rw [sub_one_sub_ofNat]
      exact ⟨by omega, hkeep (by rw [toNat_sub_ofNat hle]; omega) hentry⟩
    · cases i with
      | zero =>
        cases hi
        exact ⟨Nat.zero_le _, by simpa using htip⟩
      | succ i => simp at hi

end BlockChain

/-! ## Along the moves -/

namespace State

/-- The state before the genesis block. -/
structure Blank (s : State) : Prop where
  chain : s.chain.Blank
  keyimages : s.ledger.index.keyimages = ∅
  amountOutputs : s.ledger.index.amountOutputs = ∅
  nextGiForAmount : ∀ {a : Amount} {n : UInt32},
    s.ledger.index.nextGiForAmount[a]? = some n → n = 0
  blockGlobalIndices : s.ledger.index.blockGlobalIndices = ∅
  transactionPos : s.ledger.index.transactionPos = ∅
  timestampBlock : s.ledger.index.timestampBlock = ∅
  pool : s.ledger.pool = {}

/-- A state with a main chain that starts at the genesis block, which is on file. -/
structure Ready (env : Env) (s : State) : Prop where
  main : s.chain.Main
  root : s.chain.tip.tipChain[(0 : Height)]? = some env.genesisBlockHash
  filed : ∃ gis, s.ledger.index.blockGlobalIndices[env.genesisBlockHash]? = some gis

variable {env : Env} {accept : PreparedBlock → Prop} {s s' : State}

theorem Ready.genesis_header (h : s.Ready env) : ∃ info : Api.BlockHeader,
    s.chain.tree.headers[env.genesisBlockHash]? = some info := by
  obtain ⟨info, hinfo, -⟩ := h.main.entry h.root
  exact ⟨info, hinfo⟩

theorem Ready.congr (h : s.Ready env) (htip : s'.chain.tip = s.chain.tip)
    (hheaders : s'.chain.tree.headers = s.chain.tree.headers)
    (hfiled : s'.ledger.index.blockGlobalIndices = s.ledger.index.blockGlobalIndices) :
    s'.Ready env where
  main := h.main.mono htip (by rw [hheaders]; exact id)
  root := by
    rw [htip]
    exact h.root
  filed := by
    rw [hfiled]
    exact h.filed

theorem Ready.tipChanged (h : s.Ready env) {chain : BlockChain}
    (hchain : s.chain.tipChanged = .ok chain) :
    ({ s with chain := chain } : State).Ready env := by
  refine ⟨h.main.tipChanged hchain, ?_, h.filed⟩
  obtain ⟨_, _, _, _, rfl⟩ := BlockChain.tipChanged_eq_ok.mp hchain
  exact h.root

theorem Blank.getTip (h : s.Blank) (header : Api.BlockHeader) : s.chain.getTip ≠ .ok header := by
  intro hok
  obtain ⟨rest, hwindow, -⟩ := BlockChain.getTip_eq_ok.mp hok
  rw [h.chain.tip] at hwindow
  cases hwindow

private theorem Blank.headers_eq_none (h : s.Blank) (bid : Hash) :
    s.chain.tree.headers[bid]? = none := by
  rw [h.chain.headers]
  exact Std.ExtTreeMap.getElem?_empty

private theorem blank_empty : ({} : State).Blank := by
  refine ⟨⟨rfl, rfl, rfl⟩, rfl, rfl, fun h ↦ ?_, rfl, rfl, rfl, rfl⟩
  cases (Std.ExtTreeMap.getElem?_empty).symm.trans h

theorem Blank.congr (h : s.Blank) (hchain : s'.chain.Blank)
    (hindex : s'.ledger.index = s.ledger.index) (hpool : s'.ledger.pool = {}) : s'.Blank := by
  refine ⟨hchain, ?_, ?_, ?_, ?_, ?_, ?_, hpool⟩
  · rw [hindex, h.keyimages]
  · rw [hindex, h.amountOutputs]
  · rw [hindex]
    exact h.nextGiForAmount
  · rw [hindex, h.blockGlobalIndices]
  · rw [hindex, h.transactionPos]
  · rw [hindex, h.timestampBlock]

end State

variable {env : Env} {accept : PreparedBlock → Prop} {s s' : State}

/-- A block of the tree that is not the genesis block is one higher than its parent. -/
theorem State.TreeSound.height_eq {bid : Hash} {info parent : Api.BlockHeader}
    (ht : s.TreeSound env accept) (hinfo : s.chain.tree.headers[bid]? = some info)
    (hne : bid ≠ env.genesisBlockHash)
    (hparent : s.chain.tree.headers[info.previousBlockHash]? = some parent) :
    info.height = parent.height + 1 := by
  obtain ⟨pb, prevInfo, rfl, horigin⟩ := ht.sound _ _ hinfo
  have hp := horigin.parent
  unfold Tree.Parent at hp
  rw [if_neg hne, ← horigin.previousBlockHash, hparent] at hp
  rw [horigin.height, Option.some.inj hp]

theorem State.TreeSound.genesis_height {info : Api.BlockHeader} (ht : s.TreeSound env accept)
    (hinfo : s.chain.tree.headers[env.genesisBlockHash]? = some info) : info.height = 0 := by
  obtain ⟨pb, prevInfo, hbid, horigin⟩ := ht.sound _ _ hinfo
  have hp := horigin.parent
  unfold Tree.Parent at hp
  rw [if_pos hbid] at hp
  rw [horigin.height, hp]
  rfl

/-- A stored block that follows the tip, as far as its bytes say, has a header that says so. -/
theorem State.TreeSound.previousBlockHash_eq {bid : Hash} {blockData : Bytes}
    {rawBlock : RawBlock} {block : Block} {info : Api.BlockHeader} (ht : s.TreeSound env accept)
    (hholds : s.chain.tree.Holds bid blockData rawBlock block)
    (hinfo : s.chain.tree.headers[bid]? = some info) :
    info.previousBlockHash = block.header.previousBlockHash ∧
      info.timestamp = block.header.timestamp := by
  obtain ⟨pb, prevInfo, rfl, horigin⟩ := ht.sound _ _ hinfo
  have hblock := (horigin.holds.unique hholds).2.2
  rw [← hblock]
  exact ⟨horigin.previousBlockHash, horigin.sameBlock.timestamp⟩

/-- What a block is that is redone on the tip: not the genesis block, which is on file, and one
higher than the tip. -/
theorem State.Ready.redo_height {bid : Hash} {blockData : Bytes} {rawBlock : RawBlock}
    {block : Block} {info : Api.BlockHeader} {tid : Hash} {l : Ledger}
    (hs : s.Ready env) (ht : s.TreeSound env accept)
    (hholds : s.chain.tree.Holds bid blockData rawBlock block)
    (hinfo : s.chain.tree.headers[bid]? = some info)
    (hprev : block.header.previousBlockHash = s.chain.tip.tipBid)
    (hredo : s.ledger.redoBlock env bid blockData rawBlock block info tid = .ok l) :
    bid ≠ env.genesisBlockHash ∧ info.previousBlockHash = s.chain.tip.tipBid ∧
      info.height = s.chain.tip.tipHeight + 1 := by
  obtain ⟨idx₁, hredone, hfiled, -⟩ := Ledger.redoBlock_eq_ok hredo
  have hne : bid ≠ env.genesisBlockHash := by
    rintro rfl
    obtain ⟨gis, hgis⟩ := hs.filed
    have hfree := hfiled.blockFree
    rw [hredone.files.blockGlobalIndices, hgis] at hfree
    cases hfree
  have hprev' : info.previousBlockHash = s.chain.tip.tipBid :=
    (ht.previousBlockHash_eq hholds hinfo).1.trans hprev
  obtain ⟨tipInfo, htip, htipHeight⟩ := hs.main.tip_header
  refine ⟨hne, hprev', ?_⟩
  rw [ht.height_eq hinfo hne (by rw [hprev']; exact htip), htipHeight]

/-- **The main chain stays one.** -/
theorem Move.ready (h : Move env accept s s') (ht : s.TreeSound env accept) (hs : s.Ready env) :
    s'.Ready env := by
  cases h with
  | @store pb now prevInfo info hpb hacc hfree hne hparent hcheck =>
    refine ⟨hs.main.mono rfl fun {b x} hb ↦ ?_, hs.root, hs.filed⟩
    change (s.chain.tree.headers.insert pb.bid info)[b]? = some x
    rw [Table.get_insert_of_ne _ _ (by rintro rfl; rw [hfree] at hb; cases hb)]
    exact hb
  | genesis hpb hacc hfree heq hparent hcheck hredo =>
    obtain ⟨info, hinfo⟩ := hs.genesis_header
    rw [heq, hinfo] at hfree
    cases hfree
  | count hbid => exact hs.congr rfl rfl rfl
  | redo hholds hinfo htid hprev hredo =>
    obtain ⟨l, chain, hl, hpush, rfl⟩ := State.redoOnTip_eq_some.mp hredo
    obtain ⟨hne, hprev', hheight⟩ := hs.redo_height ht hholds hinfo hprev hl
    have hhash := ht.coherent.hash hinfo
    refine ⟨hs.main.pushChain (by rw [hhash]; exact hinfo) hheight hprev' hpush, ?_, ?_⟩
    · obtain ⟨hfree, hsettled⟩ := BlockChain.pushChain_eq_ok.mp hpush
      obtain ⟨_, _, _, _, rfl⟩ := BlockChain.tipChanged_eq_ok.mp hsettled
      have hroot := hs.root
      refine (Table.get_insert_of_ne _ _ ?_).trans hroot
      intro hzero
      rw [hzero] at hfree
      rw [hfree] at hroot
      cases hroot
    · obtain ⟨idx₁, hredone, hfiled, -⟩ := Ledger.redoBlock_eq_ok hl
      obtain ⟨gis, hgis⟩ := hs.filed
      obtain ⟨gis', hblock⟩ := hfiled.block
      refine ⟨gis, ?_⟩
      change l.index.blockGlobalIndices[env.genesisBlockHash]? = some gis
      rw [hblock, Table.get_insert_of_ne _ _ hne, hredone.files.blockGlobalIndices]
      exact hgis
  | undo hundo =>
    obtain ⟨_, _, block, index, chain₁, chain, hholds, -, hindex, -, hpop, hchain, rfl⟩ :=
      State.undoTip_eq_ok.mp hundo
    refine ⟨(hs.main.popChain hpop).tipChanged hchain, ?_, ?_⟩
    · obtain ⟨hpos, -, -, -, _, _, -, rfl, -⟩ := BlockChain.popChain_eq_ok.mp hpop
      obtain ⟨_, _, _, _, rfl⟩ := BlockChain.tipChanged_eq_ok.mp hchain
      exact (Table.get_erase_of_ne _ hpos).trans hs.root
    · obtain ⟨hpos, -⟩ := BlockChain.popChain_eq_ok.mp hpop
      obtain ⟨_, _, -, -, hunfiled, -⟩ := Index.undoBlock_eq_ok hindex
      obtain ⟨gis, hgis⟩ := hs.filed
      refine ⟨gis, ?_⟩
      change index.blockGlobalIndices[env.genesisBlockHash]? = some gis
      rw [hunfiled.block, Table.get_erase_of_ne _ ?_]
      · exact hgis
      · intro htip
        obtain ⟨info, hinfo, hheight⟩ := hs.main.tip_header
        rw [htip] at hinfo
        rw [ht.genesis_height hinfo] at hheight
        exact hpos hheight.symm
  | transact hgoes hadd =>
    obtain ⟨_, _, rfl⟩ := State.addTransaction_frame hadd
    exact hs.congr rfl rfl rfl
  | emptyPool => exact hs.congr rfl rfl rfl
  | version => exact hs.congr rfl rfl rfl
  | mining => exact hs.congr rfl rfl rfl
  | cacheHeader bid =>
    unfold State.cacheHeader
    split <;> exact hs.congr rfl rfl rfl
  | clearHeaderCache => exact hs.congr rfl rfl rfl
  | cacheNextGlobalIndex amount => exact hs.congr rfl rfl rfl
  | settle hchain => exact hs.tipChanged hchain
  | restart hrestart =>
    obtain ⟨bid, header, chain, hbid, hheader, hchain, rfl⟩ := State.restart_eq_ok.mp hrestart
    obtain rfl := Option.some.inj (hbid.symm.trans hs.main.tip)
    have hstart : BlockChain.Main
        { tree := s.chain.tree
          tip := {
            tipChain := s.chain.tip.tipChain
            tipBid := s.chain.tip.tipBid
            tipCumulativeDifficulty := header.cumulativeDifficulty
            tipHeight := s.chain.tip.tipHeight
            headerTipWindow := [header] } } := by
      refine ⟨hs.main.entry, hs.main.filled, hs.main.above, hs.main.tip, fun {i info} hi ↦ ?_,
        ⟨header, [], rfl, rfl⟩⟩
      cases i with
      | zero =>
        cases hi
        rw [ht.coherent.hash hheader]
        exact ⟨Nat.zero_le _, by simpa using hs.main.tip⟩
      | succ i => cases hi
    refine ⟨hstart.tipChanged hchain, ?_, hs.filed⟩
    obtain ⟨_, _, _, _, rfl⟩ := BlockChain.tipChanged_eq_ok.mp hchain
    exact hs.root

/-! ## From the empty state on -/

/-- The genesis block has entered the tree and the main chain. -/
structure State.Founded (env : Env) (accept : PreparedBlock → Prop) (s s' : State)
    (pb : PreparedBlock) (info : Api.BlockHeader) : Prop where
  blank : s.Blank
  faithful : pb.Faithful env
  accepted : accept pb
  bid : pb.bid = env.genesisBlockHash
  checked : ∃ now, s.chain.checkStandaloneConsensus env pb now { height := 0xFFFFFFFF }
    (State.blockInfo pb { height := 0xFFFFFFFF } {}) true = .ok info
  redone : (s.withTree (s.chain.tree.store pb.bid pb.blockData info)).redoOnTip env pb.bid
    pb.blockData pb.rawBlock pb.block info pb.baseTransactionHash = .ok (some s')

theorem State.Founded.sameBlock {pb : PreparedBlock} {info : Api.BlockHeader}
    (h : s.Founded env accept s' pb info) :
    SameBlock (State.blockInfo pb { height := 0xFFFFFFFF } {}) info := by
  obtain ⟨_, hcheck⟩ := h.checked
  exact BlockChain.sameBlock_of_checked hcheck

theorem State.Founded.ready {pb : PreparedBlock} {info : Api.BlockHeader}
    (h : s.Founded env accept s' pb info) : s'.Ready env := by
  obtain ⟨l, chain, hl, hpush, rfl⟩ := State.redoOnTip_eq_some.mp h.redone
  have hsame := h.sameBlock
  have hhash : info.hash = pb.bid := hsame.hash
  have hheight : info.height = 0 := hsame.height
  have htip : (s.withTree (s.chain.tree.store pb.bid pb.blockData info)).chain.tip = {} :=
    h.blank.chain.tip
  refine ⟨BlockChain.Blank.pushChain htip ?_ hheight hpush, ?_, ?_⟩
  · rw [hhash]
    exact Table.get_insert_self _ _ _
  · change chain.tip.tipChain[(0 : Height)]? = _
    rw [(BlockChain.pushChain_tip hpush).1, htip, ← h.bid, ← hhash]
    exact Table.get_insert_self _ _ _
  · obtain ⟨idx₁, hredone, hfiled, -⟩ := Ledger.redoBlock_eq_ok hl
    obtain ⟨gis, hblock⟩ := hfiled.block
    refine ⟨gis, ?_⟩
    change l.index.blockGlobalIndices[env.genesisBlockHash]? = some gis
    rw [hblock, ← h.bid]
    exact Table.get_insert_self _ _ _

/-- **Before the genesis block** nothing else can happen that matters. -/
theorem Move.blank (h : Move env accept s s') (hs : s.Blank) :
    s'.Blank ∨ ∃ pb info, s.Founded env accept s' pb info := by
  have hheaders := hs.headers_eq_none
  cases h with
  | store hpb hacc hfree hne hparent hcheck =>
    unfold Tree.Parent at hparent
    rw [if_neg hne, hheaders] at hparent
    cases hparent
  | genesis hpb hacc hfree heq hparent hcheck hredo =>
    unfold Tree.Parent at hparent
    rw [if_pos heq] at hparent
    subst hparent
    exact .inr ⟨_, _, hs, hpb, hacc, heq, ⟨_, hcheck⟩, hredo⟩
  | count hbid =>
    rw [hheaders] at hbid
    cases hbid
  | redo hholds hinfo htid hprev hredo =>
    rw [hheaders] at hinfo
    cases hinfo
  | undo hundo =>
    obtain ⟨_, _, _, _, _, _, hholds, -⟩ := State.undoTip_eq_ok.mp hundo
    have hblock := hholds.blocks
    rw [hs.chain.blocks] at hblock
    cases (Std.ExtTreeMap.getElem?_empty).symm.trans hblock
  | transact hgoes hadd =>
    obtain ⟨header, hheader, -⟩ := bind_eq_ok.mp hadd
    exact absurd hheader (hs.getTip header)
  | emptyPool => exact .inl (hs.congr hs.chain rfl rfl)
  | version => exact .inl (hs.congr hs.chain rfl hs.pool)
  | mining => exact .inl (hs.congr hs.chain rfl hs.pool)
  | cacheHeader bid =>
    have hsame : s.cacheHeader bid = s := by
      unfold State.cacheHeader
      rw [hheaders]
      cases s.chain.headerCache[bid]? <;> rfl
    rw [hsame]
    exact .inl hs
  | clearHeaderCache => exact .inl (hs.congr ⟨hs.chain.headers, hs.chain.blocks, hs.chain.tip⟩ rfl hs.pool)
  | cacheNextGlobalIndex amount =>
    refine .inl ⟨hs.chain, hs.keyimages, hs.amountOutputs, fun {a n} hn ↦ ?_, hs.blockGlobalIndices,
      hs.transactionPos, hs.timestampBlock, hs.pool⟩
    have hstacks : s.ledger.index.Outputs fun _ ↦ [] := by
      refine ⟨?_, fun hcache ↦ hs.nextGiForAmount hcache⟩
      rw [hs.amountOutputs]
      exact .empty
    have hnext := hstacks.nextGlobalIndexForAmount amount
    change (s.ledger.index.nextGiForAmount.insert amount
      (s.ledger.index.nextGlobalIndexForAmount amount))[a]? = some n at hn
    rw [hnext, Table.get_insert] at hn
    split_ifs at hn
    · cases hn
      rfl
    · exact hs.nextGiForAmount hn
  | settle hchain =>
    obtain ⟨header, _, hheader, -⟩ := BlockChain.tipChanged_eq_ok.mp hchain
    exact absurd hheader (hs.getTip header)
  | restart hrestart =>
    obtain ⟨bid, header, chain, -, hheader, -⟩ := State.restart_eq_ok.mp hrestart
    rw [hheaders] at hheader
    cases hheader

/-- **Run rule with a main chain.** What the genesis block establishes and what every move keeps
holds as soon as there is a main chain. -/
private theorem Moves.ready_invariant {I : State → Prop}
    (hfirst : ∀ (s s' : State) pb info, s.Founded env accept s' pb info →
      s'.TreeSound env accept → I s')
    (hstep : ∀ s s' : State, Move env accept s s' → s.TreeSound env accept → s.Ready env → I s →
      I s')
    (h : Moves env accept {} s) : s.Blank ∨ s.Ready env ∧ I s := by
  have hall := Moves.invariant (I := fun s ↦ s.TreeSound env accept ∧ (s.Blank ∨ s.Ready env ∧ I s))
    (fun s s' hmove hs ↦ ?_) h ⟨State.treeSound_empty, .inl State.blank_empty⟩
  · exact hall.2
  · refine ⟨hmove.treeSound hs.1, ?_⟩
    rcases hs.2 with hblank | ⟨hready, hI⟩
    · rcases hmove.blank hblank with hblank | ⟨pb, info, hfounded⟩
      · exact .inl hblank
      · exact .inr ⟨hfounded.ready, hfirst _ _ _ _ hfounded (hmove.treeSound hs.1)⟩
    · exact .inr ⟨hmove.ready hs.1 hready, hstep _ _ hmove hs.1 hready hI⟩

namespace State

variable {guard : State → Op → Prop}

private theorem Ready.not_blank (h : s.Ready env) : ¬s.Blank := by
  intro hblank
  obtain ⟨info, hinfo⟩ := h.genesis_header
  rw [hblank.headers_eq_none] at hinfo
  cases hinfo

/-- A node that has started has a main chain. -/
theorem Reachable.ready (accept : PreparedBlock → Prop)
    (hgenesis : ∀ pb, GenesisBlock env pb → accept pb)
    (hacc : ∀ s op pb, op.Sized s → guard s op → Adds env s pb op → accept pb)
    (h : s.Reachable env guard) : s.Ready env := by
  refine (Reaches.invariant (I := fun s ↦ Moves env accept {} s ∧ s.Ready env) (fun s hs ↦ ?_)
    (fun s op s' _ hs hguard hstep ↦ ?_) h).2
  · obtain ⟨now, hs⟩ := hs
    have hmoves := openEmpty_moves accept hgenesis hs
    refine ⟨hmoves, ?_⟩
    have hready := Moves.ready_invariant (I := fun _ ↦ True) (fun _ _ _ _ _ _ ↦ trivial)
      (fun _ _ _ _ _ _ ↦ trivial) hmoves
    refine hready.elim (fun hblank ↦ ?_) (·.1)
    unfold openEmpty at hs
    obtain ⟨_, _, hs⟩ := bind_eq_ok.mp hs
    obtain ⟨_, _, hs⟩ := bind_eq_ok.mp hs
    obtain ⟨_, _, hs⟩ := bind_eq_ok.mp hs
    obtain ⟨_, _, hs⟩ := bind_eq_ok.mp hs
    obtain ⟨chain, hchain, hs⟩ := bind_eq_ok.mp hs
    cases hs
    obtain ⟨header, _, hheader, _, rfl⟩ := BlockChain.tipChanged_eq_ok.mp hchain
    obtain ⟨rest, hwindow, hbid⟩ := BlockChain.getTip_eq_ok.mp hheader
    exact absurd (BlockChain.getTip_eq_ok.mpr ⟨rest, hwindow, hbid⟩) (hblank.getTip header)
  · have hmoves := step_moves accept (hs.1.proper proper_empty) hguard.1
      (fun pb ↦ hacc s op pb hguard.1 hguard.2) hstep
    refine ⟨hs.1.trans hmoves, ?_⟩
    have hall := Moves.invariant (I := fun s ↦ s.TreeSound env accept ∧ s.Ready env)
      (fun s s' hmove hs ↦ ⟨hmove.treeSound hs.1, hmove.ready hs.1 hs.2⟩) hmoves
      ⟨hs.1.treeSound, hs.2⟩
    exact hall.2

/-- **Invariants of reachable states.** -/
theorem Reachable.invariant (accept : PreparedBlock → Prop) {I : State → Prop}
    (hgenesis : ∀ pb, GenesisBlock env pb → accept pb)
    (hacc : ∀ s op pb, op.Sized s → guard s op → Adds env s pb op → accept pb)
    (hfirst : ∀ (s s' : State) pb info, s.Founded env accept s' pb info →
      s'.TreeSound env accept → I s')
    (hstep : ∀ s s' : State, Move env accept s s' → s.TreeSound env accept → s.Ready env → I s →
      I s')
    (h : s.Reachable env guard) : s.TreeSound env accept ∧ s.Ready env ∧ I s := by
  have hmoves := h.moves accept hgenesis hacc
  refine ⟨hmoves.treeSound, ?_⟩
  exact (Moves.ready_invariant hfirst hstep hmoves).resolve_left
    (h.ready accept hgenesis hacc).not_blank

end State

end CryoNero
