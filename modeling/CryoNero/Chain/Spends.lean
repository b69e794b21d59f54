import CryoNero.Chain.Blocks

/-!
# Key images and the main chain

The key images in the database are those of the blocks of the main chain, whatever was redone, undone
and left half done on the way. A move that enters a block into the main chain, or takes one off it,
does the same to the table of key images; no other move touches either.
-/

namespace CryoNero

open Seria Store

namespace State

variable (s : State)

/-- The key image of an input of the main chain, found by the height of its block and its place among
the key inputs of that block. -/
def spentAt (height : Height) (i : ℕ) : Option KeyImage :=
  (s.mainBlock height).bind fun block ↦ block.keyImages[i]?

/-- The table of key images is that of the main chain, and no block has one of its own twice. -/
structure SpendsMain : Prop where
  keyimages : ∀ {ki : KeyImage} {height : Height}, s.ledger.index.keyimages[ki]? = some height ↔
    ∃ block, s.mainBlock height = some block ∧ ki ∈ block.keyImages
  nodup : ∀ {height : Height} {block : Block}, s.mainBlock height = some block →
    block.keyImages.Nodup

variable {s} {s' : State} {env : Env} {guard : State → Op → Prop}

private theorem spendsMain_of_bare (h : s.Bare) : s.SpendsMain := by
  have hnone := h.mainBlock_eq_none
  refine ⟨fun {ki height} ↦ ?_, fun {height block} hblock ↦ ?_⟩
  · rw [h.index.keyimages, Std.ExtTreeMap.getElem?_empty, hnone]
    simp
  · rw [hnone] at hblock
    cases hblock

theorem SpendsMain.kept (h : s.SpendsMain) (hkept : Kept s s') : s'.SpendsMain := by
  refine ⟨fun {ki height} ↦ ?_, fun {height block} hblock ↦ ?_⟩
  · rw [hkept.index.keyimages, hkept.mainBlock]
    exact h.keyimages
  · exact h.nodup ((hkept.mainBlock height).symm.trans hblock)

/-- A block goes on top of the main chain. -/
theorem SpendsMain.pushed {bid : Hash} {blockData : Bytes} {rawBlock : RawBlock} {block : Block}
    {info : Api.BlockHeader} {tid : Hash} (h : s.SpendsMain)
    (hpush : Pushed s s' env bid blockData rawBlock block info tid) : s'.SpendsMain := by
  obtain ⟨idx₁, hredone, -, hkeys, -⟩ := Ledger.redoBlock_eq_ok hpush.redone
  have hnone := hpush.mainBlock_eq_none
  refine ⟨fun {ki height} ↦ ?_, fun {height b} hb ↦ ?_⟩
  · rw [hkeys, hredone.keyimages, hpush.mainBlock]
    by_cases hki : ki ∈ block.keyImages
    · have hold : s.ledger.index.keyimages[ki]? = none := hredone.fresh ki hki
      rw [if_pos hki, Option.some.injEq]
      constructor
      · rintro rfl
        exact ⟨block, if_pos rfl, hki⟩
      · rintro ⟨b, hb, hmem⟩
        by_contra hne
        rw [if_neg hne] at hb
        rw [h.keyimages.mpr ⟨b, hb, hmem⟩] at hold
        cases hold
    · rw [if_neg hki, h.keyimages]
      by_cases hne : info.height = height
      · subst hne
        rw [hnone, if_pos rfl]
        constructor
        · rintro ⟨b, hb, -⟩
          cases hb
        · rintro ⟨b, hb, hmem⟩
          cases hb
          exact absurd hmem hki
      · rw [if_neg hne]
  · rw [hpush.mainBlock] at hb
    split_ifs at hb
    · cases hb
      exact hredone.nodup
    · exact h.nodup hb

/-- The block at the top goes. -/
theorem SpendsMain.popped {bid : Hash} {block : Block} {top : Height} (h : s.SpendsMain)
    (hpop : Popped s s' env bid block top) : s'.SpendsMain := by
  obtain ⟨idx₁, _, hundone, -, -, hkeys⟩ := Index.undoBlock_eq_ok hpop.undone
  have hmain := hpop.mainBlock
  have hnone := hpop.mainBlock_eq_none
  have hblock : s.mainBlock top = some block := by rw [hmain, if_pos rfl]
  refine ⟨fun {ki height} ↦ ?_, fun {height b} hb ↦ ?_⟩
  · rw [hkeys, hundone.keyimages]
    by_cases hki : ki ∈ block.keyImages
    · have hspent := h.keyimages.mpr ⟨block, hblock, hki⟩
      rw [if_pos hki]
      constructor
      · intro hfalse
        cases hfalse
      · rintro ⟨b, hb, hmem⟩
        have hne : top ≠ height := by
          rintro rfl
          rw [hnone] at hb
          cases hb
        have hspent' := h.keyimages.mpr ⟨b, by rw [hmain, if_neg hne]; exact hb, hmem⟩
        rw [hspent] at hspent'
        exact absurd (Option.some.inj hspent') hne
    · rw [if_neg hki, h.keyimages, hmain]
      by_cases hne : top = height
      · subst hne
        rw [hnone, if_pos rfl]
        constructor
        · rintro ⟨b, hb, hmem⟩
          cases hb
          exact absurd hmem hki
        · rintro ⟨b, hb, -⟩
          cases hb
      · rw [if_neg hne]
  · refine @h.nodup height b ?_
    rw [hmain]
    split_ifs with hne
    · rw [← hne, hnone] at hb
      cases hb
    · exact hb

theorem Reachable.spendsMain (h : s.Reachable env guard) : s.SpendsMain :=
  h.main_invariant (fun _ ↦ spendsMain_of_bare) (fun _ _ hkept hs ↦ hs.kept hkept)
    (fun _ _ _ _ _ _ _ _ hpush hs ↦ hs.pushed hpush) fun _ _ _ _ _ hpop hs ↦ hs.popped hpop

/-- **No double spend.** In every state of every run the key images in the database are exactly those
of the inputs of the main chain, each with the height of the block that spends it, and every one of
them belongs to a single input. -/
theorem Reachable.keyimages_exact (h : s.Reachable env guard) :
    (∀ (ki : KeyImage) (height : Height), s.ledger.index.keyimages[ki]? = some height ↔
      ∃ i, s.spentAt height i = some ki) ∧
    ∀ (ki : KeyImage) (height height' : Height) (i i' : ℕ), s.spentAt height i = some ki →
      s.spentAt height' i' = some ki → height = height' ∧ i = i' := by
  have hs := h.spendsMain
  have hmem {ki : KeyImage} {height : Height} {i : ℕ} (hi : s.spentAt height i = some ki) :
      ∃ block, s.mainBlock height = some block ∧ block.keyImages[i]? = some ki :=
    Option.bind_eq_some_iff.mp hi
  refine ⟨fun ki height ↦ ?_, fun ki height height' i i' hi hi' ↦ ?_⟩
  · rw [hs.keyimages]
    constructor
    · rintro ⟨block, hblock, hki⟩
      obtain ⟨i, hi⟩ := List.getElem?_of_mem hki
      exact ⟨i, Option.bind_eq_some_iff.mpr ⟨block, hblock, hi⟩⟩
    · rintro ⟨i, hi⟩
      obtain ⟨block, hblock, hki⟩ := hmem hi
      exact ⟨block, hblock, List.mem_of_getElem? hki⟩
  · obtain ⟨block, hblock, hki⟩ := hmem hi
    obtain ⟨block', hblock', hki'⟩ := hmem hi'
    have hheight := hs.keyimages.mpr ⟨block, hblock, List.mem_of_getElem? hki⟩
    rw [hs.keyimages.mpr ⟨block', hblock', List.mem_of_getElem? hki'⟩] at hheight
    obtain rfl := Option.some.inj hheight
    obtain rfl := Option.some.inj (hblock.symm.trans hblock')
    refine ⟨rfl, ?_⟩
    exact (List.getElem?_inj (List.getElem?_eq_some_iff.mp hki).1 (hs.nodup hblock)).mp
      (hki.trans hki'.symm)

end State

/-! ## A sample network -/

/-- A coinbase transaction with the hash `tag`. -/
def sampleCoinbase (height : Height) (reward : Amount) (tag : ℕ) : Transaction where
  version := 1
  unlockTime := (height + Currency.minedMoneyUnlockWindow).toUInt64
  inputs := [.coinbaseInput { blockIndex := height }]
  outputs := [{ amount := reward }]
  extra := beBytes 32 tag

/-- A transaction that spends some inputs and pays `paid` of them to someone else. -/
def samplePayment (inputs : List KeyInput) (paid : Amount) (tag : Signature) : Transaction where
  version := 1
  inputs := inputs.map .keyInput
  outputs := [{ amount := paid }]
  signatures := inputs.map fun input ↦ input.outputIndexes.map fun _ ↦ tag

/-- The header of a block, its parent block naming it as it has to. -/
def sampleTemplate (env : Env) (height : Height) (prev : Hash) (coinbase : Transaction)
    (hashes : List Hash) : BlockTemplate :=
  let template : BlockTemplate :=
    { majorVersion := env.currency.getBlockMajorVersionForHeight height
      previousBlockHash := prev
      baseTransaction := coinbase
      transactionHashes := hashes }
  let root := (getAuxiliaryBlockHeaderHash env.crypto template).getD 0
  let extra := appendMergeMiningTagToExtra [] { merkleRoot := root }
  { template with
    parentBlock := { majorVersion := 1, transactionCount := 1, baseTransaction := { extra := extra } } }

/-- A block on top of `prev`, with the hash `256 * tag + 1` when it has no transactions. -/
def sampleBlock (env : Env) (height : Height) (prev : Hash) (reward : Amount) (tag : ℕ)
    (txs : List Transaction) : RawBlock :=
  let template := sampleTemplate env height prev (sampleCoinbase height reward tag)
    (txs.filterMap (getTransactionHash env.crypto))
  { block := (writeBlockTemplate env.crypto template).getD []
    transactions := txs.filterMap writeTransaction }

/-- The reward of the first block after the genesis block, and of the one after that. -/
def sampleReward : Amount := 281470681743360
def sampleReward₂ : Amount := 281466386841600

/-- Two blocks on top of the genesis block. The second spends the coinbase output of the first, and
creates an output of the same amount that is not locked. -/
def sampleBlocks (env : Env) : List Op :=
  [.addBlock (sampleBlock env 1 env.genesisBlockHash sampleReward 7 []) false 0,
   .addBlock (sampleBlock env 2 0x701 sampleReward₂ 8
      [samplePayment [⟨sampleReward, [0], 7⟩] sampleReward 9]) false 0]

namespace State

theorem keyimages_exact_sample : ∃ s : State, s.spentAt 2 0 = some 7 ∧
    (∀ (ki : KeyImage) (height : Height), s.ledger.index.keyimages[ki]? = some height ↔
      ∃ i, s.spentAt height i = some ki) ∧
    ∀ (ki : KeyImage) (height height' : Height) (i i' : ℕ), s.spentAt height i = some ki →
      s.spentAt height' i' = some ki → height = height' ∧ i = i' := by
  obtain ⟨s, hs, hp⟩ := exists_reachable 0 (sampleBlocks (.lax 5)) (fun s ↦ s.spentAt 2 0 == some 7)
    (show endsIn (.lax 5) _ _ _ = true by decide +kernel)
  exact ⟨s, by simpa using hp, Reachable.keyimages_exact hs⟩

end State

end CryoNero
