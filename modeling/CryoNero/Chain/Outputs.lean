import CryoNero.Chain.Spends
import CryoNero.Ledger.Created

/-!
# Outputs and the main chain

The outputs of an amount that the database holds are those that the blocks of the main chain create,
from the genesis block up, and the global indices that are stored with a block are the places of its
outputs among them.
-/

namespace CryoNero

open Seria Store

namespace State

variable (s : State)

/-- What the first `n` blocks of the main chain create of an amount, in the order of creation. -/
def outputsTo (n : ℕ) (amount : Amount) : List Created :=
  (List.range n).flatMap fun i ↦
    ((s.mainBlock (UInt32.ofNat i)).map fun block ↦ block.created (UInt32.ofNat i) amount).getD []

/-- The outputs in the database are those of the main chain. -/
structure OutputsMain : Prop where
  creates : s.ledger.index.Creates (s.outputsTo s.chain.tip.tipChain.size)
  indices : ∀ {height : Height} {bid : Hash} {block : Block},
    s.chain.tip.tipChain[height]? = some bid → s.mainBlock height = some block →
    s.ledger.index.blockGlobalIndices[bid]? =
      some (block.globalIndices fun amount ↦ (s.outputsTo height.toNat amount).length)

variable {s} {s' : State} {env : Env} {guard : State → Op → Prop}

theorem outputsTo_congr {n : ℕ}
    (h : ∀ i < n, s'.mainBlock (UInt32.ofNat i) = s.mainBlock (UInt32.ofNat i)) :
    s'.outputsTo n = s.outputsTo n := by
  funext amount
  refine List.flatMap_congr fun i hi ↦ ?_
  rw [h i (List.mem_range.mp hi)]

theorem outputsTo_succ {n : ℕ} {block : Block} (h : s.mainBlock (UInt32.ofNat n) = some block)
    (amount : Amount) :
    s.outputsTo (n + 1) amount = s.outputsTo n amount ++ block.created (UInt32.ofNat n) amount := by
  rw [outputsTo, List.range_succ, List.flatMap_append, List.flatMap_singleton, h]
  rfl

private theorem outputsMain_of_bare (h : s.Bare) : s.OutputsMain := by
  have hsize : s.chain.tip.tipChain.size = 0 := by
    rw [h.tip]
    exact Std.ExtTreeMap.size_empty
  refine ⟨⟨_, h.index.outputs, fun amount ↦ ?_⟩, fun _ hblock ↦ ?_⟩
  · rw [hsize]
    rfl
  · rw [h.mainBlock_eq_none] at hblock
    cases hblock

theorem OutputsMain.kept (h : s.OutputsMain) (hkept : Kept s s') : s'.OutputsMain := by
  have houtputs (n : ℕ) : s'.outputsTo n = s.outputsTo n :=
    outputsTo_congr fun i _ ↦ hkept.mainBlock _
  refine ⟨?_, fun {height bid block} hbid hblock ↦ ?_⟩
  · obtain ⟨f, hf, hc⟩ := h.creates
    rw [hkept.tipChain, houtputs]
    exact ⟨f, hkept.index.outputs hf, hc⟩
  · rw [hkept.index.files.blockGlobalIndices, houtputs]
    exact h.indices (by rw [← hkept.tipChain]; exact hbid) ((hkept.mainBlock height).symm.trans hblock)

/-- A block goes on top of the main chain. -/
theorem OutputsMain.pushed {bid : Hash} {blockData : Bytes} {rawBlock : RawBlock} {block : Block}
    {info : Api.BlockHeader} {tid : Hash} (h : s.OutputsMain)
    (hpush : Pushed s s' env bid blockData rawBlock block info tid) : s'.OutputsMain := by
  set n := s.chain.tip.tipChain.size with hn
  have hlow {k : ℕ} (hk : k ≤ n) : s'.outputsTo k = s.outputsTo k :=
    outputsTo_congr fun i hi ↦ hpush.mainBlock_ofNat (by omega)
  have hnew : s'.mainBlock (UInt32.ofNat n) = some block := by
    rw [hpush.mainBlock, if_pos hpush.level]
  obtain ⟨delta, gis, l₁, hdelta, happly, -, hindex, -⟩ := Ledger.redoBlock_parts hpush.redone
  obtain ⟨-, hplaced⟩ := Index.indexBlock_eq_ok hindex
  have hrecords := DeltaState.Records.empty.redoBlockDelta hdelta
  have hredone := Ledger.apply_redone hrecords happly
  refine ⟨?_, fun {height b block'} hb hblock ↦ ?_⟩
  · have hcreates : s'.ledger.index.Creates _ :=
      (h.creates.redone hredone).congr (by rw [hplaced.rest]) (by rw [hplaced.rest])
    obtain ⟨f, hf, hc⟩ := hcreates
    refine ⟨f, hf, fun amount ↦ ?_⟩
    rw [hc, hpush.size_eq, outputsTo_succ hnew, hlow le_rfl, Block.created, hpush.level]
  · have hfiles : s'.ledger.index.blockGlobalIndices =
        s.ledger.index.blockGlobalIndices.insert bid gis := by
      rw [hplaced.rest]
      change l₁.index.blockGlobalIndices.insert bid gis = _
      rw [hredone.files.blockGlobalIndices]
    rw [hpush.tipChain, Table.get_insert] at hb
    rw [hfiles]
    by_cases htop : info.height = height
    · rw [if_pos htop] at hb
      cases hb
      subst htop
      rw [hpush.mainBlock, if_pos rfl] at hblock
      cases hblock
      rw [Table.get_insert_self, hpush.level, toNat_ofNat_of_lt hpush.size, hlow le_rfl]
      exact congrArg some (DeltaState.Records.empty.redoBlockDelta_indices
        h.creates.nextGlobalIndexForAmount hdelta)
    · rw [if_neg htop] at hb
      have hne : bid ≠ b := by
        rintro rfl
        exact hpush.new height hb
      rw [hpush.mainBlock, if_neg htop] at hblock
      rw [Table.get_insert_of_ne _ _ hne, hlow (hpush.below hb).le]
      exact h.indices hb hblock

/-- The block at the top goes. -/
theorem OutputsMain.popped {bid : Hash} {block : Block} {top : Height} (h : s.OutputsMain)
    (hpop : Popped s s' env bid block top) : s'.OutputsMain := by
  set n := s'.chain.tip.tipChain.size with hn
  have hlow {k : ℕ} (hk : k ≤ n) : s.outputsTo k = s'.outputsTo k :=
    outputsTo_congr fun i hi ↦ hpop.mainBlock_ofNat (by omega)
  have hold : s.mainBlock (UInt32.ofNat n) = some block := by
    rw [hpop.mainBlock, if_pos hpop.level]
  refine ⟨?_, fun {height b block'} hb hblock ↦ ?_⟩
  · obtain ⟨c', hc', htaken⟩ := h.creates.undoBlock hpop.undone
    have hsame : c' = s'.outputsTo n := by
      funext amount
      obtain ⟨taken, htop, hlen⟩ := htaken amount
      rw [hpop.size_eq, outputsTo_succ hold, hlow le_rfl] at htop
      refine (List.append_inj_left' htop ?_).symm
      rw [hlen, Block.created, List.length_map]
    rw [← hsame]
    exact hc'
  · obtain ⟨_, _, -, -, hunfiled, -⟩ := Index.undoBlock_eq_ok hpop.undone
    have hne : bid ≠ b := by
      rintro rfl
      exact hpop.new height hb
    have hlt := hpop.below hb
    have htop : top ≠ height := by
      rintro rfl
      rw [hpop.level, toNat_ofNat_of_lt hpop.size] at hlt
      exact lt_irrefl _ hlt
    rw [hunfiled.block, Table.get_erase_of_ne _ hne, ← hlow hlt.le]
    refine h.indices ?_ (by rw [hpop.mainBlock, if_neg htop]; exact hblock)
    rw [hpop.tipChain, Table.get_erase_of_ne _ htop] at hb
    exact hb

theorem Reachable.outputsMain (h : s.Reachable env guard) : s.OutputsMain :=
  h.main_invariant (fun _ ↦ outputsMain_of_bare) (fun _ _ hkept hs ↦ hs.kept hkept)
    (fun _ _ _ _ _ _ _ _ hpush hs ↦ hs.pushed hpush) fun _ _ _ _ _ hpop hs ↦ hs.popped hpop

/-! ## The database and the main chain -/

/-- What the main chain creates of an amount, in the order of creation. -/
def outputs (s : State) (amount : Amount) : List Created :=
  s.outputsTo (s.chain.tip.tipHeight.toNat + 1) amount

/-- Position by position, the lists name the global indices of the outputs of a block at a height:
an output lies above those of its amount that the blocks below and the same block before it create,
and it is found there. -/
def Indexes (s : State) (height : Height) (block : Block) (gis : List (List UInt32)) : Prop :=
  gis.length = block.allTransactions.length ∧
    ∀ j tx, block.allTransactions[j]? = some tx → ∃ gi, gis[j]? = some gi ∧
      gi.length = tx.outputs.length ∧
      ∀ k output, tx.outputs[k]? = some output → ∃ globalIndex, gi[k]? = some globalIndex ∧
        globalIndex.toNat = (s.outputsTo height.toNat output.amount).length +
          (pushesOf ((block.allTransactions.take j).flatMap (·.pushes) ++ tx.pushes.take k)
            output.amount).length ∧
        (s.ledger.index.readAmountOutput output.amount globalIndex).map (·.created) =
          some ((output.push tx.unlockTime).2.1, (output.push tx.unlockTime).2.2, height)

private theorem outputsTo_prefix {m n : ℕ} (hle : m ≤ n) (amount : Amount) :
    s.outputsTo m amount <+: s.outputsTo n amount := by
  induction n, hle using Nat.le_induction with
  | base => exact List.prefix_rfl
  | succ n _ ih =>
    rw [outputsTo, outputsTo, List.range_succ, List.flatMap_append]
    exact ih.trans (List.prefix_append _ _)

private theorem getElem?_created {ps qs : List Push} {p : Push} {below : List Created} {height : Height} :
    (below ++ (pushesOf (ps ++ p :: qs) p.1).map fun p ↦ (p.1, p.2, height))[below.length +
      (pushesOf ps p.1).length]? = some (p.2.1, p.2.2, height) := by
  have hself : pushesOf (p :: qs) p.1 = p.2 :: pushesOf qs p.1 := by simp [pushesOf]
  rw [List.getElem?_append_right (Nat.le_add_right _ _), Nat.add_sub_cancel_left, List.getElem?_map,
    pushesOf_append, hself, List.getElem?_append_right le_rfl, Nat.sub_self]
  rfl

theorem OutputsMain.indexes (h : s.OutputsMain) {height : Height} {bid : Hash} {block : Block}
    (hsize : s.chain.tip.tipChain.size = s.chain.tip.tipHeight.toNat + 1)
    (hle : height ≤ s.chain.tip.tipHeight) (hbid : s.chain.tip.tipChain[height]? = some bid)
    (hblock : s.mainBlock height = some block) :
    ∃ gis, s.ledger.index.blockGlobalIndices[bid]? = some gis ∧ s.Indexes height block gis := by
  refine ⟨_, h.indices hbid hblock, ?_, fun j tx htx ↦ ?_⟩
  · exact length_transactionIndicesAfter _ _ _
  set count := fun amount ↦ (s.outputsTo height.toNat amount).length with hcount
  have hgi : (block.globalIndices count)[j]? = some (indicesAfter count
      ((block.allTransactions.take j).flatMap (·.pushes)) tx.pushes) := by
    rw [Block.globalIndices, getElem?_transactionIndicesAfter, htx, List.nil_append]
    rfl
  refine ⟨_, hgi, ?_, fun k output houtput ↦ ?_⟩
  · rw [length_indicesAfter, TransactionPrefix.pushes, List.length_map]
  set done := (block.allTransactions.take j).flatMap (·.pushes) ++ tx.pushes.take k with hdone
  set p := output.push tx.unlockTime with hp
  have hamount : p.1 = output.amount := by
    obtain ⟨amount, ⟨o⟩⟩ := output
    rfl
  have hpush : tx.pushes[k]? = some p := by
    rw [TransactionPrefix.pushes, List.getElem?_map, houtput]
    rfl
  -- the pushes of the block fall into those before the output, the output, and the others
  have hsplit : ∃ rest, block.pushes = done ++ p :: rest := by
    refine ⟨tx.pushes.drop (k + 1) ++ (block.allTransactions.drop (j + 1)).flatMap (·.pushes), ?_⟩
    have htxs : block.allTransactions = block.allTransactions.take j ++ tx ::
        block.allTransactions.drop (j + 1) := by
      obtain ⟨hj, htx⟩ := List.getElem?_eq_some_iff.mp htx
      rw [← htx, ← List.drop_eq_getElem_cons hj, List.take_append_drop]
    have hpushes : tx.pushes = tx.pushes.take k ++ p :: tx.pushes.drop (k + 1) := by
      obtain ⟨hk, hpush⟩ := List.getElem?_eq_some_iff.mp hpush
      rw [← hpush, ← List.drop_eq_getElem_cons hk, List.take_append_drop]
    rw [Block.pushes, hdone]
    conv_lhs => rw [htxs, List.flatMap_append, List.flatMap_cons, hpushes]
    simp only [List.append_assoc, List.cons_append]
  obtain ⟨rest, hrest⟩ := hsplit
  have hentry : (s.outputsTo (height.toNat + 1) p.1)[count p.1 + (pushesOf done p.1).length]? =
      some (p.2.1, p.2.2, height) := by
    rw [outputsTo_succ (by rw [UInt32.ofNat_toNat]; exact hblock), UInt32.ofNat_toNat, Block.created,
      hrest]
    exact getElem?_created
  obtain ⟨above, habove⟩ : s.outputsTo (height.toNat + 1) p.1 <+:
      s.outputsTo s.chain.tip.tipChain.size p.1 :=
    outputsTo_prefix (by rw [hsize]; have := UInt32.le_iff_toNat_le.mp hle; omega) _
  have hfound : (s.outputsTo s.chain.tip.tipChain.size p.1)[count p.1 + (pushesOf done p.1).length]? =
      some (p.2.1, p.2.2, height) := by
    rw [← habove, List.getElem?_append_left (List.getElem?_eq_some_iff.mp hentry).1]
    exact hentry
  have hlt := (List.getElem?_eq_some_iff.mp hfound).1
  have hle' := h.creates.length_le p.1
  have hnat := toNat_ofNat_of_lt (n := count p.1 + (pushesOf done p.1).length) (by omega)
  refine ⟨UInt32.ofNat (count p.1 + (pushesOf done p.1).length), ?_, ?_, ?_⟩
  · rw [getElem?_indicesAfter, hpush]
    rfl
  · rw [hnat, hamount]
  · rw [← hamount, h.creates.readAmountOutput, hnat]
    exact hfound

/-- Every block of the main chain is stored. -/
theorem Reachable.exists_mainBlock (h : s.Reachable env guard) {height : Height}
    (hle : height ≤ s.chain.tip.tipHeight) : ∃ bid block, s.chain.tip.tipChain[height]? = some bid ∧
      s.mainBlock height = some block := by
  obtain ⟨ht, hr, -⟩ := h.invariant (fun _ ↦ True) (I := fun _ ↦ True) (fun _ _ ↦ trivial)
    (fun _ _ _ _ _ _ ↦ trivial) (fun _ _ _ _ _ _ ↦ trivial) fun _ _ _ _ _ _ ↦ trivial
  obtain ⟨bid, hbid⟩ := hr.main.filled hle
  obtain ⟨info, hinfo, -⟩ := hr.main.entry hbid
  obtain ⟨pb, prevInfo, rfl, horigin⟩ := ht.sound _ _ hinfo
  refine ⟨_, pb.block, hbid, ?_⟩
  unfold mainBlock
  rw [hbid]
  exact Tree.storedBlock_eq_some.mpr ⟨_, _, horigin.holds⟩

/-- **Global indices are dense and recorded exactly.** In every state that a node reaches, the
outputs of an amount in the database are those of the main chain in the order of their creation, the
next global index is their number, whether it is cached or not, and for every block of the main chain
the places of its outputs are stored. -/
theorem Reachable.outputs_exact (h : s.Reachable env guard) :
    (∀ amount, (s.outputs amount).length ≤ 2 ^ 32 ∧
      (∀ globalIndex, (s.ledger.index.readAmountOutput amount globalIndex).map (·.created) =
        (s.outputs amount)[globalIndex.toNat]?) ∧
      s.ledger.index.nextGlobalIndexForAmount amount = UInt32.ofNat (s.outputs amount).length ∧
      ({ s.ledger.index with nextGiForAmount := ∅ } : Index).nextGlobalIndexForAmount amount =
        UInt32.ofNat (s.outputs amount).length) ∧
    ∀ height ≤ s.chain.tip.tipHeight, ∃ bid block gis, s.chain.tip.tipChain[height]? = some bid ∧
      s.mainBlock height = some block ∧ s.ledger.index.blockGlobalIndices[bid]? = some gis ∧
      s.Indexes height block gis := by
  have hs := h.outputsMain
  have hready := h.ready (fun _ ↦ True) (fun _ _ ↦ trivial) fun _ _ _ _ _ _ ↦ trivial
  have hsize := hready.main.size
  refine ⟨fun amount ↦ ?_, fun height hle ↦ ?_⟩
  · have hcreates := hs.creates
    rw [hsize] at hcreates
    exact ⟨hcreates.length_le amount, hcreates.readAmountOutput amount,
      hcreates.nextGlobalIndexForAmount amount, hcreates.uncached.nextGlobalIndexForAmount amount⟩
  · obtain ⟨bid, block, hbid, hblock⟩ := h.exists_mainBlock hle
    obtain ⟨gis, hgis, hindexes⟩ := hs.indexes hsize hle hbid hblock
    exact ⟨bid, block, gis, hbid, hblock, hgis, hindexes⟩

theorem outputs_exact_sample : ∃ s : State,
    s.ledger.index.readAmountOutput sampleReward 1 ≠ none ∧
    (s.ledger.index.readAmountOutput sampleReward 1).map (·.created) =
      (s.outputs sampleReward)[1]? := by
  obtain ⟨s, hs, hp⟩ := exists_reachable 0 (sampleBlocks (.lax 5))
    (fun s ↦ s.ledger.index.readAmountOutput sampleReward 1 != none)
    (show endsIn (.lax 5) _ _ _ = true by decide +kernel)
  exact ⟨s, by simpa using hp, ((Reachable.outputs_exact hs).1 sampleReward).2.1 1⟩

end State

end CryoNero
