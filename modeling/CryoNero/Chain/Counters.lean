import CryoNero.Chain.Tree
import CryoNero.Store.Totals

/-!
# Counters of children

Every stored block has a counter of its children, and the index of tips holds the blocks whose counter
is zero. Both are changed by hand when a block is stored and when one is deleted. The genesis block is
no child: the zeros it names as its previous block stand for no block.
-/

namespace CryoNero

open Seria Store

namespace Tree

variable (env : Env) (t : Tree)

/-- Whether a header is that of a child of a block. -/
def childOf (bid : Hash) (info : Api.BlockHeader) : ℕ :=
  if info.hash ≠ env.genesisBlockHash ∧ info.previousBlockHash = bid then 1 else 0

/-- The number of stored blocks that name a block as their previous one. -/
def childCount (bid : Hash) : ℕ := Table.total (childOf env bid) t.headers

/-- Every block but the genesis block has its parent in the tree. -/
structure Rooted : Prop where
  hash : ∀ {bid : Hash} {info : Api.BlockHeader}, t.headers[bid]? = some info → info.hash = bid
  parent : ∀ {bid : Hash} {info : Api.BlockHeader}, t.headers[bid]? = some info →
    bid ≠ env.genesisBlockHash → ∃ pa : Api.BlockHeader, t.headers[info.previousBlockHash]? = some pa

/-- The counters count the children of the stored blocks, and the index of tips holds those without
any, under their work. -/
structure Counted : Prop where
  counters : ∀ {bid : Hash} {info : Api.BlockHeader}, t.headers[bid]? = some info →
    t.childrenCounter bid = UInt32.ofNat (t.childCount env bid)
  free : ∀ {bid : Hash}, t.headers[bid]? = none → t.childrenCounter bid = 1
  tips : ∀ {cd : Difficulty} {bid : Hash}, (t.cdTips[toLex (cd, bid)]?).isSome ↔
    ∃ info : Api.BlockHeader, t.headers[bid]? = some info ∧ info.cumulativeDifficulty = cd ∧
      t.childCount env bid = 0

variable {env t} {bid b : Hash} {cd cd' : Difficulty} {delta value : UInt32} {info pa : Api.BlockHeader}
  {blockData : Bytes}

theorem checkChildrenCounter_eq_ok {u : Unit} : t.checkChildrenCounter cd bid value = .ok u ↔
    t.childrenCounter bid = value ∧
      (t.childrenCounter bid ≠ 0 ∨ (t.cdTips[toLex (cd, bid)]?).isSome) ∧
      (t.childrenCounter bid = 0 ∨ t.cdTips[toLex (cd, bid)]? = none) := by
  unfold checkChildrenCounter
  constructor
  · intro h
    obtain ⟨_, hvalue, h⟩ := bind_eq_ok.mp h
    obtain ⟨_, htip, h⟩ := bind_eq_ok.mp h
    exact ⟨ensure_eq_ok.mp hvalue, ensure_eq_ok.mp htip, ensure_eq_ok.mp h⟩
  · rintro ⟨hvalue, htip, hother⟩
    exact bind_eq_ok.mpr ⟨(), ensure_eq_ok.mpr hvalue, bind_eq_ok.mpr ⟨(), ensure_eq_ok.mpr htip,
      ensure_eq_ok.mpr hother⟩⟩

theorem childrenCounter_modify (t : Tree) (cd : Difficulty) (bid b : Hash) (delta : UInt32) :
    (t.modifyChildrenCounter cd bid delta).childrenCounter b =
      if bid = b then t.childrenCounter bid + delta else t.childrenCounter b := by
  change ((if t.childrenCounter bid + delta = 1 then t.children.erase bid
    else t.children.insert bid (t.childrenCounter bid + delta))[b]?).getD 1 = _
  by_cases hb : bid = b
  · subst hb
    rw [if_pos rfl]
    split_ifs with hone
    · rw [Table.get_erase_self, hone]
      rfl
    · rw [Table.get_insert_self]
      rfl
  · rw [if_neg hb]
    split_ifs with hone
    · rw [Table.get_erase_of_ne _ hb]
      rfl
    · rw [Table.get_insert_of_ne _ _ hb]
      rfl

theorem isSome_cdTips_modify (t : Tree) (cd cd' : Difficulty) (bid b : Hash) (delta : UInt32) :
    ((t.modifyChildrenCounter cd bid delta).cdTips[toLex (cd', b)]?).isSome ↔
      if cd = cd' ∧ bid = b then t.childrenCounter bid + delta = 0
      else (t.cdTips[toLex (cd', b)]?).isSome := by
  change ((if t.childrenCounter bid + delta = 0 then t.cdTips.insert (toLex (cd, bid)) ()
    else t.cdTips.erase (toLex (cd, bid)))[toLex (cd', b)]?).isSome = true ↔ _
  by_cases hkey : cd = cd' ∧ bid = b
  · obtain ⟨rfl, rfl⟩ := hkey
    rw [if_pos (⟨rfl, rfl⟩ : cd = cd ∧ bid = bid)]
    by_cases hzero : t.childrenCounter bid + delta = 0
    · rw [if_pos hzero, Table.get_insert_self]
      simp [hzero]
    · rw [if_neg hzero, Table.get_erase_self]
      simp [hzero]
  · have hne : toLex (cd, bid) ≠ toLex (cd', b) := fun heq ↦
      hkey ⟨congrArg (fun k ↦ (ofLex k).1) heq, congrArg (fun k ↦ (ofLex k).2) heq⟩
    rw [if_neg hkey]
    split_ifs with hzero
    · rw [Table.get_insert_of_ne _ _ hne]
    · rw [Table.get_erase_of_ne _ hne]

private theorem childOf_le_one (bid : Hash) (info : Api.BlockHeader) : childOf env bid info ≤ 1 := by
  unfold childOf
  split_ifs <;> omega

theorem childCount_le_size (env : Env) (t : Tree) (bid : Hash) : t.childCount env bid ≤ t.headers.size :=
  Table.total_le_size _ _ (childOf_le_one bid)

private theorem Rooted.childCount_eq_zero (h : t.Rooted env) (hbid : t.headers[bid]? = none) :
    t.childCount env bid = 0 := by
  refine List.sum_eq_zero fun n hn ↦ ?_
  obtain ⟨⟨b, info⟩, hmem, rfl⟩ := List.mem_map.mp hn
  have hinfo := Table.mem_toList.mp hmem
  refine if_neg fun ⟨hne, hprev⟩ ↦ ?_
  rw [h.hash hinfo] at hne
  obtain ⟨pa, hpa⟩ := h.parent hinfo hne
  rw [hprev, hbid] at hpa
  cases hpa

theorem Rooted.childCount_pos (h : t.Rooted env) (hinfo : t.headers[bid]? = some info)
    (hne : bid ≠ env.genesisBlockHash) : 0 < t.childCount env info.previousBlockHash := by
  have hle := Table.le_total_of_get (childOf env info.previousBlockHash) hinfo
  rw [childOf, if_pos ⟨by rw [h.hash hinfo]; exact hne, rfl⟩] at hle
  exact hle

private theorem childCount_store (hfree : t.headers[bid]? = none) (b : Hash) :
    (t.store bid blockData info).childCount env b = childOf env b info + t.childCount env b :=
  Table.total_insert _ _ hfree

/-- The counters when a block is stored: its parent has one more child, and the block none. -/
def counted (t : Tree) (parentCd : Difficulty) (info : Api.BlockHeader) : Tree :=
  (t.modifyChildrenCounter parentCd info.previousBlockHash 1).modifyChildrenCounter
    info.cumulativeDifficulty info.hash (-1)

private theorem counted_headers (t : Tree) (parentCd : Difficulty) (info : Api.BlockHeader) :
    (t.counted parentCd info).headers = t.headers := by
  rw [counted, modifyChildrenCounter_headers, modifyChildrenCounter_headers]

private theorem childCount_counted (t : Tree) (parentCd : Difficulty) (info : Api.BlockHeader) (b : Hash) :
    (t.counted parentCd info).childCount env b = t.childCount env b := by
  rw [childCount, counted_headers, childCount]

private theorem ofNat_ne_zero {n : ℕ} (hn : n ≠ 0) (hlt : n < 2 ^ 32) : UInt32.ofNat n ≠ 0 := by
  intro h
  have hnat := congrArg UInt32.toNat h
  rw [toNat_ofNat_of_lt hlt] at hnat
  exact hn hnat

/-- **A block is stored** and counted. -/
theorem Counted.store (blockData : Bytes) (h : t.Counted env) (hr : t.Rooted env) (hfree : t.headers[info.hash]? = none)
    (hne : info.hash ≠ env.genesisBlockHash) (hpa : t.headers[info.previousBlockHash]? = some pa)
    (hsize : t.headers.size + 1 < 2 ^ 32) :
    ((t.store info.hash blockData info).modifyChildrenCounter pa.cumulativeDifficulty
      info.previousBlockHash 1).checkChildrenCounter info.cumulativeDifficulty info.hash 1 = .ok () ∧
    ((t.store info.hash blockData info).counted pa.cumulativeDifficulty info).Counted env := by
  set n := t.childCount env info.previousBlockHash with hn
  have hlt : n + 1 < 2 ^ 32 := by
    have := t.childCount_le_size env info.previousBlockHash
    omega
  have hprev : info.previousBlockHash ≠ info.hash := by
    intro heq
    rw [heq, hfree] at hpa
    cases hpa
  have hcount (b : Hash) : (t.store info.hash blockData info).childCount env b =
      (if info.previousBlockHash = b then 1 else 0) + t.childCount env b := by
    rw [childCount_store hfree, childOf]
    simp only [hne, ne_eq, not_false_eq_true, true_and]
  have hnone : t.childCount env info.hash = 0 := hr.childCount_eq_zero hfree
  have hone : (1 : UInt32) + -1 = 0 := by decide
  have hsucc : UInt32.ofNat n + 1 = UInt32.ofNat (n + 1) := (UInt32.ofNat_add n 1).symm
  set t₀ := t.store info.hash blockData info with ht₀
  set t₁ := t₀.modifyChildrenCounter pa.cumulativeDifficulty info.previousBlockHash 1 with ht₁
  -- the counters and the tips while the parent is counted and the block is not
  have hcounter₁ (b : Hash) : t₁.childrenCounter b =
      if info.previousBlockHash = b then UInt32.ofNat (n + 1) else t.childrenCounter b := by
    rw [ht₁, childrenCounter_modify]
    change (if _ then t.childrenCounter info.previousBlockHash + 1 else t.childrenCounter b) = _
    rw [h.counters hpa, hsucc]
  have htip₁ (cd : Difficulty) (b : Hash) : (t₁.cdTips[toLex (cd, b)]?).isSome ↔
      info.previousBlockHash ≠ b ∧ (t.cdTips[toLex (cd, b)]?).isSome := by
    rw [ht₁, isSome_cdTips_modify]
    change (if _ then t.childrenCounter info.previousBlockHash + 1 = 0
      else (t.cdTips[toLex (cd, b)]?).isSome = true) ↔ _
    rw [h.counters hpa, hsucc]
    by_cases hb : info.previousBlockHash = b
    · subst hb
      split_ifs with hcd
      · exact iff_of_false (ofNat_ne_zero (Nat.succ_ne_zero n) hlt) fun hfalse ↦ hfalse.1 rfl
      · rw [h.tips]
        refine ⟨fun ⟨info', hinfo', hcd', _⟩ ↦ ?_, fun hfalse ↦ absurd rfl hfalse.1⟩
        cases hpa.symm.trans hinfo'
        exact absurd ⟨hcd', rfl⟩ hcd
    · rw [if_neg fun hcd ↦ hb hcd.2]
      simp [hb]
  have hself : t₁.childrenCounter info.hash = 1 := by
    rw [hcounter₁, if_neg hprev, h.free hfree]
  have hnotip (cd : Difficulty) : t.cdTips[toLex (cd, info.hash)]? = none := by
    rw [← Option.not_isSome_iff_eq_none, h.tips]
    rintro ⟨info', hinfo', -⟩
    rw [hfree] at hinfo'
    cases hinfo'
  refine ⟨checkChildrenCounter_eq_ok.mpr ⟨hself, .inl (by rw [hself]; decide), .inr ?_⟩, ?_, ?_, ?_⟩
  · rw [← Option.not_isSome_iff_eq_none, htip₁, hnotip]
    simp
  · intro b info' hinfo'
    rw [childCount_counted, hcount, counted, childrenCounter_modify, hself, hone, hcounter₁]
    by_cases hb : info.hash = b
    · subst hb
      rw [if_pos rfl, if_neg hprev, hnone]
      rfl
    · rw [if_neg hb]
      by_cases hb' : info.previousBlockHash = b
      · subst hb'
        rw [if_pos rfl, if_pos rfl, ← hn, add_comm]
      · have hold : t.headers[b]? = some info' := (Table.get_insert_of_ne _ _ hb).symm.trans hinfo'
        rw [if_neg hb', if_neg hb', zero_add]
        exact h.counters hold
  · intro b hb
    have hne' : info.hash ≠ b := by
      rintro rfl
      cases (Table.get_insert_self _ _ _).symm.trans hb
    have hold : t.headers[b]? = none := (Table.get_insert_of_ne _ _ hne').symm.trans hb
    rw [counted, childrenCounter_modify, if_neg hne', hcounter₁, if_neg, h.free hold]
    rintro rfl
    rw [hold] at hpa
    cases hpa
  · intro cd b
    rw [childCount_counted, hcount, counted_headers, counted, isSome_cdTips_modify, hself, htip₁]
    change _ ↔ ∃ info', (t.headers.insert info.hash info)[b]? = some info' ∧ _
    by_cases hb : info.hash = b
    · subst hb
      rw [if_neg hprev, hnone, Table.get_insert_self, hnotip]
      by_cases hcd : info.cumulativeDifficulty = cd
      · simp [hcd, hone]
      · simp [hcd]
    · rw [if_neg fun hcd ↦ hb hcd.2, Table.get_insert_of_ne _ _ hb, h.tips]
      by_cases hb' : info.previousBlockHash = b
      · simp [hb']
      · simp [hb']

/-- The genesis block is stored and counted. -/
theorem Counted.found (blockData : Bytes) (h : t.Counted env) (hr : t.Rooted env) (hfree : t.headers[info.hash]? = none)
    (heq : info.hash = env.genesisBlockHash) :
    ((t.store info.hash blockData info).modifyChildrenCounter info.cumulativeDifficulty info.hash
      (-1)).Counted env := by
  set t₀ := t.store info.hash blockData info with ht₀
  have hcount (b : Hash) : t₀.childCount env b = t.childCount env b := by
    rw [ht₀, childCount_store hfree, childOf, if_neg fun hne ↦ hne.1 heq, zero_add]
  have hcount' (b : Hash) : (t₀.modifyChildrenCounter info.cumulativeDifficulty info.hash
      (-1)).childCount env b = t.childCount env b := by
    rw [childCount, modifyChildrenCounter_headers, ← hcount, childCount]
  have hnone : t.childCount env info.hash = 0 := hr.childCount_eq_zero hfree
  have hself : t₀.childrenCounter info.hash = 1 := h.free hfree
  have hone : (1 : UInt32) + -1 = 0 := by decide
  refine ⟨fun {b info'} hinfo' ↦ ?_, fun {b} hb ↦ ?_, fun {cd b} ↦ ?_⟩
  · rw [hcount', childrenCounter_modify, hself, hone]
    by_cases hb : info.hash = b
    · subst hb
      rw [if_pos rfl, hnone]
      rfl
    · rw [if_neg hb]
      exact h.counters ((Table.get_insert_of_ne _ _ hb).symm.trans hinfo')
  · have hne : info.hash ≠ b := by
      rintro rfl
      cases (Table.get_insert_self _ _ _).symm.trans hb
    rw [childrenCounter_modify, if_neg hne]
    exact h.free ((Table.get_insert_of_ne _ _ hne).symm.trans hb)
  · rw [isSome_cdTips_modify, hself, hcount', modifyChildrenCounter_headers]
    change (if _ then _ else (t.cdTips[toLex (cd, b)]?).isSome = true) ↔
      ∃ info', (t.headers.insert info.hash info)[b]? = some info' ∧ _
    rw [h.tips]
    by_cases hb : info.hash = b
    · subst hb
      rw [hnone, Table.get_insert_self, hfree]
      by_cases hcd : info.cumulativeDifficulty = cd
      · simp [hcd, hone]
      · simp [hcd]
    · rw [if_neg fun hcd ↦ hb hcd.2, Table.get_insert_of_ne _ _ hb]

/-- The counters when a block is deleted: its own is that of a block that is not there, and its parent
has one child less. -/
def uncounted (t : Tree) (pa me : Api.BlockHeader) : Tree :=
  (t.modifyChildrenCounter me.cumulativeDifficulty me.hash 1).modifyChildrenCounter
    pa.cumulativeDifficulty me.previousBlockHash (-1)

/-- The tree after a block was pruned. -/
def pruned (t : Tree) (pa me : Api.BlockHeader) : Tree :=
  { t.uncounted pa me with
    blocks := t.blocks.erase me.hash, headers := t.headers.erase me.hash }

private theorem childrenCounter_pruned (t : Tree) (pa me : Api.BlockHeader) (b : Hash) :
    (t.pruned pa me).childrenCounter b = (t.uncounted pa me).childrenCounter b := by
  simp only [pruned, childrenCounter]

private theorem cdTips_pruned (t : Tree) (pa me : Api.BlockHeader) :
    (t.pruned pa me).cdTips = (t.uncounted pa me).cdTips := by
  simp only [pruned]

/-- **A block without children is pruned**: its parent has one child less. -/
theorem Counted.prune (h : t.Counted env) (hr : t.Rooted env) (hme : t.headers[info.hash]? = some info)
    (hne : info.hash ≠ env.genesisBlockHash) (hleaf : t.childCount env info.hash = 0)
    (hpa : t.headers[info.previousBlockHash]? = some pa) (hsize : t.headers.size < 2 ^ 32) :
    (t.pruned pa info).Counted env := by
  have hcount (b : Hash) : t.childCount env b =
      (if info.previousBlockHash = b then 1 else 0) + (t.pruned pa info).childCount env b := by
    rw [childCount, Table.total_of_get _ hme, childOf]
    simp only [hne, ne_eq, not_false_eq_true, true_and]
    rfl
  obtain ⟨n, hn⟩ : ∃ n, t.childCount env info.previousBlockHash = n + 1 :=
    Nat.exists_eq_add_one.mpr (hr.childCount_pos hme hne)
  have hn' : (t.pruned pa info).childCount env info.previousBlockHash = n := by
    have hsplit := hcount info.previousBlockHash
    rw [if_pos rfl] at hsplit
    omega
  have hlt : n < 2 ^ 32 := by
    have := t.childCount_le_size env info.previousBlockHash
    omega
  have hprev : info.previousBlockHash ≠ info.hash := by
    intro heq
    rw [heq, hleaf] at hn
    cases hn
  have hzero : t.childrenCounter info.hash = 0 := by
    rw [h.counters hme, hleaf]
    rfl
  have hpred : UInt32.ofNat (n + 1) + -1 = UInt32.ofNat n := by
    rw [UInt32.ofNat_add]
    change UInt32.ofNat n + 1 + -1 = _
    rw [add_assoc, show (1 : UInt32) + -1 = 0 by decide, UInt32.add_zero]
  have hcounter (b : Hash) : (t.pruned pa info).childrenCounter b =
      if info.previousBlockHash = b then UInt32.ofNat n
      else if info.hash = b then 1 else t.childrenCounter b := by
    rw [childrenCounter_pruned, uncounted, childrenCounter_modify, childrenCounter_modify, childrenCounter_modify, if_neg hprev.symm,
      h.counters hpa, hn, hpred, hzero, zero_add]
  refine ⟨fun {b info'} hinfo' ↦ ?_, fun {b} hb ↦ ?_, fun {cd b} ↦ ?_⟩
  · have hb : info.hash ≠ b := by
      rintro rfl
      cases (Table.get_erase_self _ _).symm.trans hinfo'
    have hold : t.headers[b]? = some info' := (Table.get_erase_of_ne _ hb).symm.trans hinfo'
    rw [hcounter, if_neg hb]
    split_ifs with hb'
    · rw [← hb', hn']
    · have hsame := hcount b
      rw [if_neg hb', zero_add] at hsame
      rw [← hsame]
      exact h.counters hold
  · rw [hcounter, if_neg]
    · split_ifs with hb'
      · rfl
      · exact h.free ((Table.get_erase_of_ne _ hb').symm.trans hb)
    · rintro rfl
      cases ((Table.get_erase_of_ne _ hprev.symm).trans hpa).symm.trans hb
  · rw [cdTips_pruned, uncounted, isSome_cdTips_modify, isSome_cdTips_modify, childrenCounter_modify, if_neg hprev.symm,
      h.counters hpa, hn, hpred, hzero, zero_add, h.tips]
    change _ ↔ ∃ info', (t.headers.erase info.hash)[b]? = some info' ∧ _
    by_cases hb : info.hash = b
    · subst hb
      rw [if_neg fun hcd ↦ hprev hcd.2, Table.get_erase_self, hme]
      by_cases hcd : info.cumulativeDifficulty = cd
      · simp [hcd]
      · simp [hcd]
    · rw [Table.get_erase_of_ne _ hb, if_neg (fun hcd ↦ hb hcd.2 : ¬(info.cumulativeDifficulty = cd ∧
        info.hash = b))]
      by_cases hb' : info.previousBlockHash = b
      · subst hb'
        rw [hn', hn, hpa]
        by_cases hcd : pa.cumulativeDifficulty = cd
        · rw [if_pos ⟨hcd, rfl⟩]
          simp only [Option.some.injEq, exists_eq_left', hcd, true_and]
          constructor
          · intro hofNat
            by_contra hne
            exact ofNat_ne_zero hne hlt hofNat
          · intro hzero
            rw [hzero]
            rfl
        · rw [if_neg fun hkey ↦ hcd hkey.1]
          simp [hcd]
      · have hsame := hcount b
        rw [if_neg hb', zero_add] at hsame
        rw [if_neg fun hkey ↦ hb' hkey.2, hsame]

end Tree

end CryoNero
