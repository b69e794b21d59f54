import CryoNero.Ledger.Undo

/-!
# Outputs as they were created

Apart from the flag that an output was spent, the stacks of outputs only grow and shrink at the top:
a block that is redone puts its outputs there, and undoing it takes as many off. The global indices
that are stored with a block are the places where its outputs come to lie.
-/

namespace CryoNero

open Seria Store

/-- What an output was created with: its unlock time, its key and the height of its block. -/
abbrev Created := UnlockMoment × PublicKey × Height

def UnlockTimePublickKeyHeightSpent.created (unp : UnlockTimePublickKeyHeightSpent) : Created :=
  (unp.unlockTime, unp.publicKey, unp.height)

/-- What a block creates of an amount, in the order of creation. -/
def Block.created (block : Block) (height : Height) (amount : Amount) : List Created :=
  (pushesOf block.pushes amount).map fun p ↦ (p.1, p.2, height)

/-! ## Stacks up to the flags -/

/-- The database holds outputs that were created as `c` says. -/
def Index.Creates (idx : Index) (c : Amount → List Created) : Prop :=
  ∃ f : OutputStacks, idx.Outputs f ∧ ∀ amount, (f amount).map (·.created) = c amount

/-- As many outputs as the pushes have are gone at the top. -/
def TakenOff (ps : List Push) (c c' : Amount → List Created) : Prop :=
  ∀ amount, ∃ top, c amount = c' amount ++ top ∧ top.length = (pushesOf ps amount).length

theorem OutputStacks.created_markSpent (f : OutputStacks) (spent : Bool) (ss : List Spend)
    (amount : Amount) :
    (f.markSpent spent ss amount).map (·.created) = (f amount).map (·.created) := by
  refine List.ext_getElem? fun i ↦ ?_
  rw [List.getElem?_map, List.getElem?_map, getElem?_markSpent, Option.map_map]
  congr 1
  funext unp
  rw [Function.comp_apply]
  split_ifs <;> rfl

theorem OutputStacks.created_pushAll (f : OutputStacks) (height : Height) (ps : List Push)
    (amount : Amount) : (f.pushAll height ps amount).map (·.created) =
      (f amount).map (·.created) ++ (pushesOf ps amount).map fun p ↦ (p.1, p.2, height) := by
  rw [pushAll, List.map_append, List.map_map]
  rfl

theorem TakenOff.nil (c : Amount → List Created) : TakenOff [] c c :=
  fun _ ↦ ⟨[], (List.append_nil _).symm, rfl⟩

theorem TakenOff.trans {ps qs : List Push} {c c' c'' : Amount → List Created} (h : TakenOff ps c c')
    (h' : TakenOff qs c' c'') : TakenOff (ps ++ qs) c c'' := by
  intro amount
  obtain ⟨top, htop, hlen⟩ := h amount
  obtain ⟨top', htop', hlen'⟩ := h' amount
  refine ⟨top' ++ top, ?_, ?_⟩
  · rw [htop, htop', List.append_assoc]
  · rw [List.length_append, pushesOf_append, List.length_append, hlen, hlen', Nat.add_comm]

theorem TakenOff.congr {ps qs : List Push} {c c' : Amount → List Created} (h : TakenOff ps c c')
    (hperm : ps.Perm qs) : TakenOff qs c c' := by
  intro amount
  obtain ⟨top, htop, hlen⟩ := h amount
  refine ⟨top, htop, hlen.trans ?_⟩
  exact ((hperm.filter _).map Prod.snd).length_eq

namespace Index

variable {idx idx' : Index} {c : Amount → List Created} {height : Height}

theorem Creates.congr (h : idx.Creates c) (houtputs : idx'.amountOutputs = idx.amountOutputs)
    (hcache : idx'.nextGiForAmount = idx.nextGiForAmount) : idx'.Creates c := by
  obtain ⟨f, hf, hc⟩ := h
  exact ⟨f, hf.congr houtputs hcache, hc⟩

theorem Creates.length_le (h : idx.Creates c) (amount : Amount) : (c amount).length ≤ 2 ^ 32 := by
  obtain ⟨f, hf, hc⟩ := h
  rw [← hc, List.length_map]
  exact hf.stacked.length_le amount

theorem Creates.nextGlobalIndexForAmount (h : idx.Creates c) (amount : Amount) :
    idx.nextGlobalIndexForAmount amount = UInt32.ofNat (c amount).length := by
  obtain ⟨f, hf, hc⟩ := h
  rw [hf.nextGlobalIndexForAmount, ← hc, List.length_map]

theorem Creates.readAmountOutput (h : idx.Creates c) (amount : Amount) (globalIndex : UInt32) :
    (idx.readAmountOutput amount globalIndex).map (·.created) =
      (c amount)[globalIndex.toNat]? := by
  obtain ⟨f, hf, hc⟩ := h
  rw [hf.readAmountOutput, ← hc, List.getElem?_map]

theorem Creates.uncached (h : idx.Creates c) : ({ idx with nextGiForAmount := ∅ } : Index).Creates c := by
  obtain ⟨f, hf, hc⟩ := h
  refine ⟨f, ⟨hf.stacked, fun hn ↦ ?_⟩, hc⟩
  cases (Std.ExtTreeMap.getElem?_empty).symm.trans hn

/-- **Redoing** puts outputs on top. -/
theorem Creates.redone {ks : List KeyImage} {ps : List Push} {ss : List Spend} (h : idx.Creates c)
    (hredone : Redone height ks ps ss idx idx') :
    idx'.Creates fun amount ↦ c amount ++ (pushesOf ps amount).map fun p ↦ (p.1, p.2, height) := by
  obtain ⟨f, hf, hc⟩ := h
  refine ⟨_, (hredone.outputs hf).2, fun amount ↦ ?_⟩
  rw [OutputStacks.created_markSpent, OutputStacks.created_pushAll, hc]

theorem Creates.spendOutput (h : idx.Creates c) (amount : Amount) (globalIndex : UInt32)
    (spent : Bool) : (idx.spendOutput amount globalIndex spent).Creates c := by
  obtain ⟨f, hf, hc⟩ := h
  refine ⟨_, (hf.spendOutput amount globalIndex spent).1, fun a ↦ ?_⟩
  rw [OutputStacks.created_markSpent, hc]

theorem Creates.popAmountOutput {p : Push} (h : idx.Creates c)
    (hok : idx.popAmountOutput p.1 p.2.1 p.2.2 = .ok idx') :
    ∃ c', idx'.Creates c' ∧ TakenOff [p] c c' := by
  obtain ⟨f, hf, hc⟩ := h
  obtain ⟨-, l, height, hl, hout, -⟩ := hf.popAmountOutput hok
  refine ⟨_, ⟨_, hout, fun _ ↦ rfl⟩, fun amount ↦ ?_⟩
  rw [← hc]
  by_cases ha : amount = p.1
  · subst ha
    rw [Function.update_self, hl, List.map_append]
    exact ⟨_, rfl, by simp [pushesOf]⟩
  · rw [Function.update_of_ne ha]
    exact ⟨[], (List.append_nil _).symm, by simp [pushesOf, Ne.symm ha]⟩

theorem Creates.popOutputs {unlockTime : UnlockMoment} {outputs : List TransactionOutput}
    (h : idx.Creates c) (hok : idx.popOutputs unlockTime outputs = .ok idx') :
    ∃ c', idx'.Creates c' ∧ TakenOff (outputs.map (·.push unlockTime)) c c' := by
  have hall := foldlM_ok (fun (done : List TransactionOutput) (t : Index) ↦
    ∃ c', t.Creates c' ∧ TakenOff (done.map (·.push unlockTime)) c c') hok ⟨c, h, .nil c⟩ ?_
  · obtain ⟨c', hc', htaken⟩ := hall
    exact ⟨c', hc', htaken.congr ((List.reverse_perm outputs).map _)⟩
  · rintro done ⟨amount, ⟨o⟩⟩ rest t t' _ ⟨c', hc', htaken⟩ hx
    obtain ⟨c'', hc'', htaken'⟩ := hc'.popAmountOutput (p := (amount, unlockTime, o.key)) hx
    rw [List.map_append]
    exact ⟨c'', hc'', htaken.trans htaken'⟩

theorem Creates.undoInput {input : TransactionInput} (h : idx.Creates c)
    (hok : idx.undoInput input = .ok idx') : idx'.Creates c := by
  cases input with
  | coinbaseInput _ =>
    cases hok
    exact h
  | keyInput input =>
    obtain ⟨idx₁, h₁, hok⟩ := bind_eq_ok.mp hok
    obtain ⟨t, ht, h₁⟩ := bind_eq_ok.mp h₁
    cases h₁
    have hc : ({ idx with keyimages := t } : Index).Creates c := h.congr rfl rfl
    split at hok
    · cases hok
      exact hc.spendOutput _ _ _
    · cases hok
      exact hc

theorem Creates.undoTransaction {tx : TransactionPrefix} (h : idx.Creates c)
    (hok : idx.undoTransaction tx = .ok idx') : ∃ c', idx'.Creates c' ∧ TakenOff tx.pushes c c' := by
  obtain ⟨idx₁, h₁, hok⟩ := bind_eq_ok.mp hok
  obtain ⟨c', hc', htaken⟩ := h.popOutputs h₁
  refine ⟨c', ?_, htaken⟩
  exact foldlM_ok (fun _ (t : Index) ↦ t.Creates c') hok hc' fun _ _ _ _ _ _ ht hx ↦ ht.undoInput hx

/-- **Undoing a block** takes as many outputs off as it has. -/
theorem Creates.undoBlock {crypto : Crypto} {bid : Hash} {block : Block} (h : idx.Creates c)
    (hok : idx.undoBlock crypto bid block height = .ok idx') :
    ∃ c', idx'.Creates c' ∧ TakenOff block.pushes c c' := by
  unfold Index.undoBlock at hok
  obtain ⟨idx₁, h₁, hok⟩ := bind_eq_ok.mp hok
  obtain ⟨_, _, hok⟩ := bind_eq_ok.mp hok
  obtain ⟨_, _, hok⟩ := bind_eq_ok.mp hok
  obtain ⟨idx₂, h₂, h₁⟩ := bind_eq_ok.mp h₁
  obtain ⟨idx₃, h₃, h₁⟩ := bind_eq_ok.mp h₁
  obtain ⟨_, _, h₁⟩ := bind_eq_ok.mp h₁
  cases h₁
  have hall := foldlM_ok (fun (done : List Transaction) (t : Index) ↦
    ∃ c', t.Creates c' ∧ TakenOff (done.flatMap (·.pushes)) c c') h₂ ⟨c, h, .nil c⟩ ?_
  · obtain ⟨c₂, hc₂, htaken₂⟩ := hall
    obtain ⟨c₃, hc₃, htaken₃⟩ := hc₂.undoTransaction h₃
    refine ⟨c₃, hc₃.congr ?_ ?_, (htaken₂.trans htaken₃).congr ?_⟩
    · rw [(deletePositions_eq_ok hok).rest]
    · rw [(deletePositions_eq_ok hok).rest]
    · rw [Block.pushes, Block.allTransactions, List.flatMap_cons]
      exact List.perm_append_comm.trans
        (((List.reverse_perm block.transactions).flatMap_right _).append_left _)
  · rintro done tx rest t t' _ ⟨c', hc', htaken⟩ hx
    obtain ⟨c'', hc'', htaken'⟩ := hc'.undoTransaction hx
    rw [List.flatMap_append, List.flatMap_singleton]
    exact ⟨c'', hc'', htaken.trans htaken'⟩

end Index

/-! ## Global indices -/

/-- The global indices of outputs that are pushed one after another. When `n` counts the outputs of
each amount before them, and `done` are those pushed since, the index of an output is the number of
outputs of its amount before it. -/
def indicesAfter (n : Amount → ℕ) (done : List Push) : List Push → List UInt32
  | [] => []
  | p :: ps => UInt32.ofNat (n p.1 + (pushesOf done p.1).length) :: indicesAfter n (done ++ [p]) ps

/-- The global indices of the outputs of transactions, one list for each transaction. -/
def transactionIndicesAfter (n : Amount → ℕ) (done : List Push) :
    List Transaction → List (List UInt32)
  | [] => []
  | tx :: txs =>
    indicesAfter n done tx.pushes :: transactionIndicesAfter n (done ++ tx.pushes) txs

/-- The global indices of the outputs of a block. -/
def Block.globalIndices (block : Block) (n : Amount → ℕ) : List (List UInt32) :=
  transactionIndicesAfter n [] block.allTransactions

private theorem indicesAfter_shift (n : Amount → ℕ) (done : List Push) : ∀ (ps qs : List Push),
    indicesAfter (fun amount ↦ n amount + (pushesOf done amount).length) ps qs =
      indicesAfter n (done ++ ps) qs := by
  intro ps qs
  induction qs generalizing ps with
  | nil => rfl
  | cons q qs ih =>
    rw [indicesAfter, indicesAfter, ih, pushesOf_append, List.length_append, List.append_assoc,
      Nat.add_assoc]

theorem length_indicesAfter (n : Amount → ℕ) (done ps : List Push) :
    (indicesAfter n done ps).length = ps.length := by
  induction ps generalizing done with
  | nil => rfl
  | cons p ps ih => rw [indicesAfter, List.length_cons, List.length_cons, ih]

theorem getElem?_indicesAfter (n : Amount → ℕ) (done ps : List Push) (k : ℕ) :
    (indicesAfter n done ps)[k]? = ps[k]?.map fun p ↦
      UInt32.ofNat (n p.1 + (pushesOf (done ++ ps.take k) p.1).length) := by
  induction ps generalizing done k with
  | nil => rfl
  | cons p ps ih =>
    rw [indicesAfter]
    cases k with
    | zero => simp
    | succ k => rw [List.getElem?_cons_succ, ih, List.getElem?_cons_succ, List.take_succ_cons,
        List.append_assoc, List.singleton_append]

theorem length_transactionIndicesAfter (n : Amount → ℕ) (done : List Push) (txs : List Transaction) :
    (transactionIndicesAfter n done txs).length = txs.length := by
  induction txs generalizing done with
  | nil => rfl
  | cons tx txs ih => rw [transactionIndicesAfter, List.length_cons, List.length_cons, ih]

theorem transactionIndicesAfter_concat (n : Amount → ℕ) (done : List Push) (txs : List Transaction)
    (tx : Transaction) : transactionIndicesAfter n done (txs ++ [tx]) =
      transactionIndicesAfter n done txs ++
        [indicesAfter n (done ++ txs.flatMap (·.pushes)) tx.pushes] := by
  induction txs generalizing done with
  | nil => simp [transactionIndicesAfter]
  | cons t txs ih =>
    rw [List.cons_append, transactionIndicesAfter, transactionIndicesAfter, ih, List.flatMap_cons,
      List.append_assoc, List.cons_append]

theorem getElem?_transactionIndicesAfter (n : Amount → ℕ) (done : List Push)
    (txs : List Transaction) (j : ℕ) : (transactionIndicesAfter n done txs)[j]? = txs[j]?.map fun tx ↦
      indicesAfter n (done ++ (txs.take j).flatMap (·.pushes)) tx.pushes := by
  induction txs generalizing done j with
  | nil => rfl
  | cons tx txs ih =>
    rw [transactionIndicesAfter]
    cases j with
    | zero => simp
    | succ j => rw [List.getElem?_cons_succ, ih, List.getElem?_cons_succ, List.take_succ_cons,
        List.flatMap_cons, List.append_assoc]

namespace DeltaState

variable {env : Env} {height : Height} {timestamp : Timestamp} {view : StateView}
  {ks : List KeyImage} {ps : List Push} {ss : List Spend} {d delta delta' : DeltaState}
  {n : Amount → ℕ}

theorem Records.nextGlobalIndexForAmount (hd : Records height timestamp view ks ps ss d)
    (hn : ∀ amount, view.nextGlobalIndexForAmount amount = UInt32.ofNat (n amount)) (amount : Amount) :
    d.nextGlobalIndexForAmount amount = UInt32.ofNat (n amount + (pushesOf ps amount).length) := by
  unfold DeltaState.nextGlobalIndexForAmount
  rw [hd.pushed, hd.parentState, hn, UInt32.ofNat_add, UInt32.add_comm]

private theorem Records.redoOutputs_indices {unlockTime : UnlockMoment}
    (hn : ∀ amount, view.nextGlobalIndexForAmount amount = UInt32.ofNat (n amount)) :
    ∀ {outputs : List TransactionOutput} {ps : List Push} {d : DeltaState},
      Records height timestamp view ks ps ss d →
      (CryoNero.redoOutputs d unlockTime outputs).2 =
        indicesAfter n ps (outputs.map (·.push unlockTime)) := by
  intro outputs
  induction outputs with
  | nil => intro ps d _; rfl
  | cons output outputs ih =>
    intro ps d hd
    obtain ⟨amount, ⟨o⟩⟩ := output
    have hrest := ih (hd.pushAmountOutput (amount, unlockTime, o.key))
    have hfirst : (d.pushAmountOutput amount unlockTime o.key).2 =
        UInt32.ofNat (n amount + (pushesOf ps amount).length) := by
      change d.parentState.nextGlobalIndexForAmount amount +
        UInt32.ofNat (d.pushed amount ++ [(unlockTime, o.key)]).length - 1 = _
      rw [hd.pushed, hd.parentState, hn, List.length_append, List.length_singleton, UInt32.ofNat_add,
        UInt32.ofNat_add, ← UInt32.add_assoc]
      exact UInt32.add_sub_cancel _ _
    change (d.pushAmountOutput amount unlockTime o.key).2 :: _ = _
    rw [hfirst, hrest]
    rfl

/-- **The global indices of a transaction** that was redone. -/
theorem Records.redoTransaction_indices {tx : Transaction} {checkSigs : Bool} {gis : List UInt32}
    {conflict : Height} (hdelta : Records height timestamp view ks ps ss delta)
    (hn : ∀ amount, view.nextGlobalIndexForAmount amount = UInt32.ofNat (n amount))
    (h : redoTransactionGetError env tx delta checkSigs = .ok (delta', gis, conflict)) :
    gis = indicesAfter n ps tx.pushes := by
  unfold redoTransactionGetError at h
  obtain ⟨acc, hacc, h⟩ := bind_eq_ok.mp h
  obtain ⟨d, hd, h⟩ := bind_eq_ok.mp h
  cases h
  have hinputs : Records delta.blockHeight delta.unlockTimestamp delta.view tx.keyImages [] tx.spends
      acc.1 := Records.empty.redoInputs hacc
  have hshift := indicesAfter_shift n ps [] tx.pushes
  rw [List.append_nil] at hshift
  rw [← hshift]
  exact Records.redoOutputs_indices (hdelta.nextGlobalIndexForAmount hn) hinputs

/-- **The global indices of a block** that was redone. -/
theorem Records.redoBlockDelta_indices {block : Block} {gis : List (List UInt32)}
    (hdelta : Records height timestamp view [] [] [] delta)
    (hn : ∀ amount, view.nextGlobalIndexForAmount amount = UInt32.ofNat (n amount))
    (h : CryoNero.redoBlockDelta env block delta = .ok (delta', gis)) :
    gis = block.globalIndices n := by
  unfold CryoNero.redoBlockDelta at h
  have hall := foldlM_ok (fun (done : List Transaction) (acc : DeltaState × List (List UInt32)) ↦
    Records height timestamp view (done.flatMap (·.keyImages)) (done.flatMap (·.pushes))
      (done.flatMap (·.spends)) acc.1 ∧ acc.2 = transactionIndicesAfter n [] done) h ⟨hdelta, rfl⟩ ?_
  · exact hall.2
  · rintro done tx rest acc acc' _ ⟨hacc, hgis⟩ hx
    obtain ⟨⟨d, gi, conflict⟩, hd, hx⟩ := bind_eq_ok.mp hx
    cases hx
    refine ⟨?_, ?_⟩
    · rw [List.flatMap_append, List.flatMap_append, List.flatMap_append, List.flatMap_singleton,
        List.flatMap_singleton, List.flatMap_singleton]
      exact hacc.redoTransaction hd
    · rw [transactionIndicesAfter_concat, ← hgis, List.nil_append]
      exact congrArg (fun g ↦ acc.2 ++ [g]) (hacc.redoTransaction_indices hn hd)

end DeltaState

end CryoNero
