import CryoNero.Chain.Locator
import CryoNero.Store.Rooted

/-!
# The common block of two branches

The headers of a tree of blocks form a tree by their parents, with the height as the level, as soon
as the parent of every header but one is there and is one block lower. On such a tree the search for
the common block comes to an end: each branch is followed down to the height of the other one, and
then both are followed together.
-/

namespace CryoNero

open Store

/-- The headers of a tree of blocks are closed under parents, each one block above its parent, and
only `root` has no parent. -/
structure Tree.ParentClosed (t : Tree) (root : Hash) : Prop where
  stored : ∃ info, t.headers[root]? = some info
  parent : ∀ {bid : Hash} {info : Api.BlockHeader}, t.headers[bid]? = some info → bid ≠ root →
    ∃ prev, t.headers[info.previousBlockHash]? = some prev ∧
      info.height.toNat = prev.height.toNat + 1

/-- The tree of the stored headers. -/
def Tree.ParentClosed.toRooted {t : Tree} {root : Hash} (h : t.ParentClosed root) : Store.Rooted Hash where
  nodes := {bid | ∃ info, t.headers[bid]? = some info}
  root := root
  parent bid := ((t.headers[bid]?).map (·.previousBlockHash)).getD 0
  level bid := ((t.headers[bid]?).map (·.height.toNat)).getD 0
  root_mem := h.stored
  parent_mem := by
    rintro bid ⟨info, hinfo⟩ hroot
    obtain ⟨prev, hprev, -⟩ := h.parent hinfo hroot
    rw [hinfo]
    exact ⟨prev, hprev⟩
  level_parent := by
    rintro bid ⟨info, hinfo⟩ hroot
    obtain ⟨prev, hprev, hheight⟩ := h.parent hinfo hroot
    rw [hinfo]
    simp only [Option.map_some, Option.getD_some, hprev]
    exact hheight

namespace BlockChain

variable {bc : BlockChain} {root bid bid1 bid2 : Hash} {info ha1 ha2 : Api.BlockHeader}

/-- Stored headers are read as they are stored. -/
def Reads (bc : BlockChain) : Prop :=
  ∀ {bid : Hash} {info : Api.BlockHeader}, bc.tree.headers[bid]? = some info →
    bc.readHeader! bid 0 = .ok info

theorem Coherent.reads (hc : bc.Coherent) : bc.Reads := fun hinfo ↦ hc.readHeader!_eq_ok.mpr hinfo

variable (ht : bc.tree.ParentClosed root)

theorem level_eq (hinfo : bc.tree.headers[bid]? = some info) :
    ht.toRooted.level bid = info.height.toNat := by
  change ((bc.tree.headers[bid]?).map (·.height.toNat)).getD 0 = _
  rw [hinfo]
  rfl

theorem parent_eq (hinfo : bc.tree.headers[bid]? = some info) :
    ht.toRooted.parent bid = info.previousBlockHash := by
  change ((bc.tree.headers[bid]?).map (·.previousBlockHash)).getD 0 = _
  rw [hinfo]
  rfl

/-- **Going down to a height** follows the parents as far as that. -/
private theorem descend_eq_ok (hr : bc.Reads) (height : Height) (fuel : ℕ)
    (hinfo : bc.tree.headers[bid]? = some info)
    (hroot : ht.toRooted.level root ≤ height.toNat)
    (hfuel : info.height.toNat < height.toNat + fuel) (hpos : 0 < fuel) :
    ∃ way bid' info', bc.descend height fuel bid info = .ok (way, bid', info') ∧
      bc.tree.headers[bid']? = some info' ∧ ht.toRooted.Way bid way bid' ∧
      (info.height ≤ height → bid' = bid) ∧ (height ≤ info.height → info'.height = height) := by
  induction fuel generalizing bid info with
  | zero => exact absurd hpos (Nat.lt_irrefl 0)
  | succ fuel ih =>
    rw [descend]
    split_ifs with hlt
    · -- the block is above the height, so it is not the root
      rw [UInt32.lt_iff_toNat_lt] at hlt
      have hne : bid ≠ root := by
        rintro rfl
        rw [level_eq ht hinfo] at hroot
        omega
      obtain ⟨prev, hprev, hheight⟩ := ht.parent hinfo hne
      obtain ⟨way, bid', info', hway, hinfo', hdown, -, hlevel⟩ := ih hprev (by omega) (by omega)
      refine ⟨bid :: way, bid', info', ?_, hinfo', ?_, fun hle ↦ ?_, fun _ ↦ hlevel ?_⟩
      · exact bind_eq_ok.mpr ⟨prev, hr hprev, bind_eq_ok.mpr ⟨_, hway, rfl⟩⟩
      · refine .down ⟨info, hinfo⟩ hne ?_
        rw [parent_eq ht hinfo]
        exact hdown
      · rw [UInt32.le_iff_toNat_le] at hle
        omega
      · rw [UInt32.le_iff_toNat_le]
        omega
    · rw [UInt32.not_lt] at hlt
      exact ⟨[], bid, info, rfl, hinfo, .here ⟨info, hinfo⟩, fun _ ↦ rfl,
        fun hle ↦ UInt32.le_antisymm hlt hle⟩

/-- **Going down together** from the same height ends where the ways meet. -/
private theorem descendBoth_eq_ok (hr : bc.Reads) (fuel : ℕ) (h1 : bc.tree.headers[bid1]? = some ha1)
    (h2 : bc.tree.headers[bid2]? = some ha2) (hheight : ha1.height = ha2.height)
    (hfuel : ha1.height.toNat < fuel) :
    ∃ bid way1 way2, bc.descendBoth fuel (bid1, ha1) (bid2, ha2) = .ok (bid, way1, way2) ∧
      ht.toRooted.Meet bid1 bid2 bid way1 way2 := by
  induction fuel generalizing bid1 bid2 ha1 ha2 with
  | zero => exact absurd hfuel (Nat.not_lt_zero _)
  | succ fuel ih =>
    rw [descendBoth]
    split_ifs with heq
    · subst heq
      exact ⟨bid1, [], [], rfl, .self ⟨ha1, h1⟩⟩
    · have hlevel : ht.toRooted.level bid1 = ht.toRooted.level bid2 := by
        rw [level_eq ht h1, level_eq ht h2, hheight]
      -- of different blocks at one height, none is the root
      have hne1 : bid1 ≠ root := by
        rintro rfl
        exact heq (Store.Rooted.eq_root_of_level_le (t := ht.toRooted) ⟨ha2, h2⟩ hlevel.ge).symm
      have hne2 : bid2 ≠ root := by
        rintro rfl
        exact heq (Store.Rooted.eq_root_of_level_le (t := ht.toRooted) ⟨ha1, h1⟩ hlevel.le)
      obtain ⟨prev1, hprev1, hheight1⟩ := ht.parent h1 hne1
      obtain ⟨prev2, hprev2, hheight2⟩ := ht.parent h2 hne2
      have hprev : prev1.height = prev2.height := by
        rw [← UInt32.toNat_inj]
        rw [hheight] at hheight1
        omega
      obtain ⟨bid, way1, way2, hboth, hmeet⟩ := ih hprev1 hprev2 hprev (by omega)
      refine ⟨bid, bid1 :: way1, bid2 :: way2, ?_, ?_⟩
      · exact bind_eq_ok.mpr ⟨prev1, hr hprev1, bind_eq_ok.mpr ⟨prev2, hr hprev2,
          bind_eq_ok.mpr ⟨_, hboth, rfl⟩⟩⟩
      · refine Store.Rooted.Meet.down heq ⟨ha1, h1⟩ ⟨ha2, h2⟩ hlevel hne1 hne2 ?_
        rw [parent_eq ht h1, parent_eq ht h2]
        exact hmeet

/-- **The common block** of two stored blocks is found: the deepest block that both stand on. The
two branches are the ways down to it, so that undoing one of them and redoing the other one backwards
leads from one block to the other. -/
theorem getCommonBlock_meets (hr : bc.Reads) (h1 : bc.tree.headers[bid1]? = some ha1)
    (h2 : bc.tree.headers[bid2]? = some ha2) :
    ∃ common chain1 chain2, bc.getCommonBlock bid1 bid2 = .ok (common, chain1, chain2) ∧
      ht.toRooted.Meet bid1 bid2 common chain1 chain2 ∧
      (∀ c, ht.toRooted.On bid1 c → ht.toRooted.On bid2 c →
        ht.toRooted.level c ≤ ht.toRooted.level common) ∧
      ht.toRooted.Climb common chain2.reverse bid2 := by
  have hlt1 := ha1.height.toNat_lt
  have hlt2 := ha2.height.toNat_lt
  have hbottom {bid : Hash} {info : Api.BlockHeader} (hinfo : bc.tree.headers[bid]? = some info) :
      ht.toRooted.level root ≤ info.height.toNat := by
    obtain ⟨way, hway⟩ := Store.Rooted.on_root (t := ht.toRooted) (b := bid) ⟨info, hinfo⟩
    have hlength := hway.level_eq
    rw [level_eq ht hinfo] at hlength
    change _ = ht.toRooted.level root + _ at hlength
    omega
  obtain ⟨way1, c1, hc1, hok1, hinfo1, hdown1, hstay1, hlevel1⟩ :=
    descend_eq_ok ht hr ha2.height (2 ^ 32) h1 (hbottom h2) (by omega) (by decide)
  obtain ⟨way2, c2, hc2, hok2, hinfo2, hdown2, -, hlevel2⟩ :=
    descend_eq_ok ht hr hc1.height (2 ^ 32) h2 (hbottom hinfo1) (by omega) (by decide)
  have hlt := hc1.height.toNat_lt
  -- the first branch is followed down, or it is the lower one and stays
  have hle : hc1.height ≤ ha2.height ∧ (hc1.height = ha2.height ∨ c1 = bid1 ∧ way1 = []) := by
    rcases UInt32.le_total ha2.height ha1.height with hle | hle
    · have heq := hlevel1 hle
      exact ⟨UInt32.le_of_eq heq, .inl heq⟩
    · obtain rfl := hstay1 hle
      obtain rfl := Option.some.inj (h1.symm.trans hinfo1)
      exact ⟨hle, .inr ⟨rfl, (hdown1.unique (.here ⟨_, h1⟩) rfl).2⟩⟩
  have heq : hc1.height = hc2.height := (hlevel2 hle.1).symm
  obtain ⟨common, way1', way2', hboth, hmeet⟩ :=
    descendBoth_eq_ok ht hr (2 ^ 32) hinfo1 hinfo2 heq hlt
  have hlevel : ht.toRooted.level c1 = ht.toRooted.level c2 := by
    rw [level_eq ht hinfo1, level_eq ht hinfo2, heq]
  have hmeet2 := (hmeet.symm.descend hdown2 hlevel.le).symm
  have hmeet1 : ht.toRooted.Meet bid1 bid2 common (way1 ++ way1') (way2 ++ way2') := by
    rcases hle.2 with hsame | ⟨rfl, rfl⟩
    · refine hmeet2.descend hdown1 ?_
      rw [level_eq ht h2, level_eq ht hinfo1, hsame]
    · exact hmeet2
  refine ⟨common, way1 ++ way1', way2 ++ way2', ?_, hmeet1, fun c ↦ hmeet1.level_le,
    hmeet1.way₂.reverse⟩
  exact bind_eq_ok.mpr ⟨ha1, hr h1, bind_eq_ok.mpr ⟨ha2, hr h2, bind_eq_ok.mpr ⟨_, hok1,
    bind_eq_ok.mpr ⟨_, hok2, bind_eq_ok.mpr ⟨_, hboth, rfl⟩⟩⟩⟩⟩

/-- A block on top of the block 1. -/
def sampleHeader (hash : Hash) : Api.BlockHeader :=
  { hash := hash, height := 1, previousBlockHash := 1 }

/-- Two blocks on top of the block 1. -/
def sampleFork : BlockChain where
  tree.headers := (((∅ : Table Hash Api.BlockHeader).insert 1 {}).insert 2 (sampleHeader 2)).insert 3
    (sampleHeader 3)

theorem sampleFork_get (bid : Hash) : sampleFork.tree.headers[bid]? =
    if 3 = bid then some (sampleHeader 3) else if 2 = bid then some (sampleHeader 2)
    else if 1 = bid then some {} else none := by
  rw [sampleFork, Table.get_insert, Table.get_insert, Table.get_insert, Std.ExtTreeMap.getElem?_empty]

private theorem parentClosed_sampleFork : sampleFork.tree.ParentClosed 1 where
  stored := ⟨{}, by rw [sampleFork_get]; rfl⟩
  parent := by
    intro bid info hinfo hroot
    rw [sampleFork_get] at hinfo
    split_ifs at hinfo with h3 h2 h1
    · cases hinfo
      exact ⟨{}, by rw [sampleFork_get]; rfl, rfl⟩
    · cases hinfo
      exact ⟨{}, by rw [sampleFork_get]; rfl, rfl⟩
    · exact absurd h1.symm hroot

theorem getCommonBlock_meets_sample : ∃ common chain1 chain2,
    sampleFork.getCommonBlock 2 3 = .ok (common, chain1, chain2) ∧
      parentClosed_sampleFork.toRooted.Meet 2 3 common chain1 chain2 := by
  have hreads : sampleFork.Reads := fun {bid info} hinfo ↦ by
    rw [readHeader!, orFail_eq_ok, readHeader]
    exact hinfo
  obtain ⟨common, chain1, chain2, hok, hmeet, -⟩ := getCommonBlock_meets parentClosed_sampleFork
    hreads ((sampleFork_get 2).trans rfl) ((sampleFork_get 3).trans rfl)
  exact ⟨common, chain1, chain2, hok, hmeet⟩

end BlockChain

end CryoNero
