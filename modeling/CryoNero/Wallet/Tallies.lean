import CryoNero.Wallet.Bearers

/-!
# What a wallet records of a transaction

A recorded transfer has an amount and the outputs that it is made of. The amount was added up while the
outputs were found: what the database said an incoming output would add, and what a spent output is worth.
So over all transfers of one address the recorded amounts are a sum over outputs
(`recordedAmount_eq`), as long as no transfer wraps.
-/

namespace CryoNero

open Store
open WalletState (ownOutputs ownOutputs_cons)

/-! ## Amounts of transfers -/

/-- The recorded amounts of the transfers of an address. -/
def recordedAmount (transfers : List Api.Transfer) (address : String) : ℤ :=
  ((transfers.filter fun tr ↦ tr.ours = true ∧ tr.address = address).map fun tr ↦ tr.amount.toInt).sum

/-- A sum over the outputs of an address. -/
def sumAt (w : Api.Output → ℤ) (outputs : List Api.Output) (address : String) : ℤ :=
  ((outputs.filter fun o ↦ o.address = address).map w).sum

theorem sumAt_cons (w : Api.Output → ℤ) (o : Api.Output) (outputs : List Api.Output) (address : String) :
    sumAt w (o :: outputs) address = (if o.address = address then w o else 0) + sumAt w outputs address := by
  rw [sumAt, List.filter_cons]
  split_ifs with h h' h'
  · rw [List.map_cons, List.sum_cons]
    rfl
  · exact absurd (of_decide_eq_true h) h'
  · exact absurd (decide_eq_true h') h
  · exact (zero_add _).symm

private theorem sumAt_append (w : Api.Output → ℤ) (outputs outputs' : List Api.Output) (address : String) :
    sumAt w (outputs ++ outputs') address = sumAt w outputs address + sumAt w outputs' address := by
  rw [sumAt, List.filter_append, List.map_append, List.sum_append]
  rfl

private theorem sumAt_perm {w : Api.Output → ℤ} {outputs outputs' : List Api.Output}
    (h : outputs.Perm outputs')
    (address : String) : sumAt w outputs address = sumAt w outputs' address :=
  ((h.filter _).map w).sum_eq

theorem sumAt_congr {w w' : Api.Output → ℤ} {outputs : List Api.Output}
    (h : ∀ o ∈ outputs, w o = w' o) (address : String) : sumAt w outputs address = sumAt w' outputs address :=
  congrArg List.sum (List.map_congr_left fun o ho ↦ h o (List.mem_filter.mp ho).1)

theorem sumAt_of_address {w : Api.Output → ℤ} {outputs : List Api.Output} {address : String}
    (h : ∀ o ∈ outputs, o.address = address) (other : String) :
    sumAt w outputs other = if other = address then (outputs.map w).sum else 0 := by
  rw [sumAt]
  split_ifs with hother
  · rw [List.filter_eq_self.mpr fun o ho ↦ decide_eq_true ((h o ho).trans hother.symm)]
  · rw [List.filter_eq_nil_iff.mpr fun o ho hsame ↦ hother ((of_decide_eq_true hsame).symm.trans (h o ho))]
    rfl

private theorem sumAt_le_of_sublist {w : Api.Output → ℤ} (hw : ∀ o, 0 ≤ w o)
    {outputs outputs' : List Api.Output}
    (h : outputs.Sublist outputs') (address : String) : sumAt w outputs address ≤ sumAt w outputs' address :=
  ((h.filter _).map w).sum_le_sum (List.forall_mem_map.mpr fun o _ ↦ hw o)

private theorem le_sumAt_of_sublist {w : Api.Output → ℤ} (hw : ∀ o, w o ≤ 0)
    {outputs outputs' : List Api.Output}
    (h : outputs.Sublist outputs') (address : String) : sumAt w outputs' address ≤ sumAt w outputs address := by
  induction h with
  | slnil => exact le_refl _
  | cons o h ih =>
    rw [sumAt_cons]
    have := hw o
    split_ifs <;> omega
  | cons_cons o h ih =>
    rw [sumAt_cons, sumAt_cons]
    omega

/-- The amount of a transfer is the sum over its outputs, as far as it does not wrap. -/
def Api.Transfer.Tallied (w : Api.Output → ℤ) (address : String) (tr : Api.Transfer) : Prop :=
  tr.amount = Int64.ofInt (tr.outputs.map w).sum ∧ ∀ o ∈ tr.outputs, o.address = address

/-- **Recorded amounts are sums over outputs**, when no transfer wraps. -/
private theorem recordedAmount_eq {w : Api.Output → ℤ} {transfers : List Api.Transfer}
    (h : ∀ tr ∈ transfers, tr.ours = true → tr.Tallied w tr.address)
    (hfits : ∀ tr ∈ transfers, tr.ours = true →
      -2 ^ 63 ≤ (tr.outputs.map w).sum ∧ (tr.outputs.map w).sum < 2 ^ 63) (address : String) :
    recordedAmount transfers address = sumAt w (ownOutputs transfers) address := by
  induction transfers with
  | nil => rfl
  | cons tr transfers ih =>
    rw [List.forall_mem_cons] at h hfits
    have hrest := ih h.2 hfits.2
    rw [recordedAmount] at hrest
    rw [ownOutputs_cons, sumAt_append, ← hrest, recordedAmount, List.filter_cons]
    by_cases hours : tr.ours = true
    · obtain ⟨hamount, haddress⟩ := h.1 hours
      obtain ⟨hlow, hhigh⟩ := hfits.1 hours
      rw [if_pos hours, sumAt_of_address haddress]
      by_cases hsame : tr.address = address
      · rw [if_pos (decide_eq_true ⟨hours, hsame⟩), if_pos hsame.symm, List.map_cons, List.sum_cons, hamount,
          Int64.toInt_ofInt_of_le hlow hhigh]
      · rw [if_neg fun hand ↦ hsame (of_decide_eq_true hand).2, if_neg (Ne.symm hsame), zero_add]
    · rw [if_neg fun hand ↦ hours (of_decide_eq_true hand).1, if_neg hours]
      exact (zero_add _).symm

theorem recordedAmount_append (transfers transfers' : List Api.Transfer) (address : String) :
    recordedAmount (transfers ++ transfers') address =
      recordedAmount transfers address + recordedAmount transfers' address := by
  rw [recordedAmount, List.filter_append, List.map_append, List.sum_append]
  rfl

private theorem addTransfers_cons {σ : Type} {I : IWalletState σ} {s s' : σ} {tr : Api.Transfer}
    {trs trs' : List Api.Transfer} (h : addTransfers I s (tr :: trs) = .ok (s', trs')) :
    ∃ s₁ outputs trs₁, addTransfers I s₁ trs = .ok (s', trs₁) ∧ trs' = { tr with outputs := outputs } :: trs₁ := by
  rw [addTransfers] at h
  split_ifs at h
  · obtain ⟨⟨s₁, outputs⟩, -, h⟩ := bind_eq_ok.mp h
    obtain ⟨⟨s₂, trs₁⟩, hs₂, h⟩ := bind_eq_ok.mp h
    cases h
    exact ⟨s₁, outputs, trs₁, hs₂, rfl⟩
  · rw [ok_bind] at h
    obtain ⟨⟨s₂, trs₁⟩, hs₂, h⟩ := bind_eq_ok.mp h
    cases h
    exact ⟨s, tr.outputs, trs₁, hs₂, rfl⟩

/-- Handing outputs over changes nothing else in a transfer. -/
theorem recordedAmount_addTransfers {σ : Type} {I : IWalletState σ} {s s' : σ} {trs trs' : List Api.Transfer}
    (h : addTransfers I s trs = .ok (s', trs')) (address : String) :
    recordedAmount trs' address = recordedAmount trs address := by
  induction trs generalizing s trs' with
  | nil =>
    cases h
    rfl
  | cons tr trs ih =>
    obtain ⟨s₁, outputs, trs₁, hs₁, rfl⟩ := addTransfers_cons h
    have hrest := ih hs₁
    rw [recordedAmount, recordedAmount] at hrest ⊢
    rw [List.filter_cons, List.filter_cons]
    dsimp only
    split_ifs
    · rw [List.map_cons, List.sum_cons, List.map_cons, List.sum_cons, hrest]
    · exact hrest

private theorem toInt64_eq_ofInt (amount : Amount) : amount.toInt64 = Int64.ofInt amount.toNat := by
  have h : amount.toInt64 = Int64.ofNat amount.toNat := by
    rw [← UInt64.toInt64_ofNat', UInt64.ofNat_toNat]
  rw [h]
  rfl

/-! ## Outputs that count -/

/-- By how much an output raises the balance, as the database sees it. -/
def predicted (view : WalletStateView) (output : Api.Output) : ℤ :=
  (((view.tryAddIncomingOutput output).getD 0).toNat : ℤ)

private theorem predicted_nonneg (view : WalletStateView) (output : Api.Output) :
    0 ≤ predicted view output :=
  Int.natCast_nonneg _

/-- The transfers that are collected add up what the database predicts. -/
def Transfers.Predicts (view : WalletStateView) (m : Transfers) : Prop :=
  ∀ (k : PublicKey ×ₗ PublicKey) (tr : Api.Transfer), m[k]? = some tr → tr.Tallied (predicted view) tr.address

section Parse

variable {env : WalletStateEnv} {keys : WalletKeys} {view : WalletStateView}
  {pwtx : PreparedWalletTransaction} {blockHeight : Height} {p : ParsedOutputs}
  {history : List AccountPublicAddress}

theorem Tallied.grown {tr : Api.Transfer} {out : Api.Output} (h : tr.Tallied (predicted view) out.address) :
    (grown view tr out).Tallied (predicted view) out.address := by
  rw [CryoNero.grown]
  cases htry : view.tryAddIncomingOutput out with
  | none =>
    simp only [Option.map_none, Option.getD_none, Int64.add_zero, Option.toList_none, List.append_nil]
    exact h
  | some delta =>
    have hpredicted : predicted view out = (delta.toNat : ℤ) := by rw [predicted, htry]; rfl
    simp only [Option.map_some, Option.getD_some, Option.toList_some]
    refine ⟨?_, List.forall_mem_append.mpr ⟨h.2, List.forall_mem_singleton.mpr rfl⟩⟩
    dsimp only
    rw [List.map_append, List.sum_append, List.map_singleton, List.sum_singleton, Int64.ofInt_add, ← h.1,
      hpredicted, toInt64_eq_ofInt]

theorem Transfers.Predicts.parseOutput (h : p.ours.Predicts view) (haddressed : p.ours.Addressed env)
    (x : PlacedOutput) :
    (p.parseOutput env keys view pwtx history blockHeight x).ours.Predicts view := by
  classical
  rcases parseOutput_cases keys view pwtx blockHeight history x haddressed with
    ⟨-, hours⟩ | ⟨out, hout, hours⟩
  · rwa [hours]
  · intro k tr htr
    rw [hours, Table.get_insert] at htr
    split_ifs at htr with hkey
    · cases htr
      refine Tallied.grown ?_
      cases hold : p.ours[AccountPublicAddress.key ⟨x.1.2.1, keys.viewPublicKey⟩]? with
      | none => exact ⟨rfl, nofun⟩
      | some tr =>
        -- the address of the output is the one that the transfer has already
        obtain ⟨r, -, rfl⟩ := Option.map_eq_some_iff.mp hout
        have haddress := haddressed _ tr hold
        have htally := h _ tr hold
        rw [haddress] at htally
        exact htally
    · exact h k tr htr

private theorem predicts_foldl_parseOutput (l : List PlacedOutput) (h : p.ours.Predicts view)
    (haddressed : p.ours.Addressed env) :
    (l.foldl (ParsedOutputs.parseOutput env keys view pwtx history blockHeight) p).ours.Predicts view := by
  induction l generalizing p with
  | nil => exact h
  | cons x l ih => exact ih (h.parseOutput haddressed x) (haddressed.parseOutput view blockHeight)

private theorem mem_transfers {unlockTime : UnlockMoment} {tr : Api.Transfer}
    (h : tr ∈ p.transfers unlockTime)
    (hours : tr.ours = true) : ∃ tm ∈ p.ours.toList,
      tr.amount = tm.2.amount ∧ tr.outputs = tm.2.outputs ∧ tr.address = tm.2.address := by
  rw [ParsedOutputs.transfers, List.mem_append] at h
  rcases h with h | h
  · obtain ⟨tm, -, rfl⟩ := List.mem_map.mp (List.mem_filter.mp h).1
    cases hours
  · obtain ⟨tm, htm, rfl⟩ := List.mem_map.mp (List.mem_filter.mp h).1
    exact ⟨tm, htm, rfl, rfl, rfl⟩

private theorem outputs_sublist_flatMap {κ : Type} {l : List (κ × Api.Transfer)} {tm : κ × Api.Transfer}
    (h : tm ∈ l) : tm.2.outputs.Sublist (l.flatMap fun tm ↦ tm.2.outputs) := by
  obtain ⟨l₁, l₂, rfl⟩ := List.append_of_mem h
  rw [List.flatMap_append, List.flatMap_cons]
  exact (List.sublist_append_left _ _).trans (List.sublist_append_right _ _)

/-- **What is recorded of incoming outputs.** The recorded amounts are what the database predicts for the
outputs that are handed over, when no address gets too much. -/
theorem recordedAmount_outputs {tid : Hash} {globalIndices : List UInt32} {parsed : ParsedTransaction}
    (h : parseRawTransaction env keys view pwtx tid globalIndices blockHeight = .ok parsed)
    (hours : parsed.ourTransaction = true)
    (hfits : ∀ address, sumAt (predicted view) (((pwtx.placed globalIndices).filterMap
      (counted env keys view pwtx blockHeight)).map Prod.fst) address < 2 ^ 63) (address : String) :
    recordedAmount parsed.ptx.transfers address =
      sumAt (predicted view) (ownOutputs parsed.ptx.transfers) address := by
  obtain ⟨-, -, outputs, inputs, houtputs, -, -, htransfers, -⟩ := parseRawTransaction_eq_ok h hours
  have hempty : Transfers.Predicts view (∅ : Transfers) := fun k tr htr ↦ by
    cases (Std.ExtTreeMap.getElem?_empty).symm.trans htr
  have hpredicts : outputs.ours.Predicts view := by
    rw [houtputs]
    exact predicts_foldl_parseOutput _ hempty addressed_empty
  have hperm : outputs.ours.outputs.Perm (((pwtx.placed globalIndices).filterMap
      (counted env keys view pwtx blockHeight)).map Prod.fst) := by
    rw [houtputs]
    exact outputs_foldl_parseOutput view blockHeight _ addressed_empty
  rw [htransfers]
  refine recordedAmount_eq (fun tr htr htrours ↦ ?_) (fun tr htr htrours ↦ ?_) address
  · obtain ⟨tm, htm, hamount, hsame, haddress⟩ := mem_transfers htr htrours
    rw [Api.Transfer.Tallied, hamount, hsame, haddress]
    exact hpredicts _ _ (Table.mem_toList.mp htm)
  · obtain ⟨tm, htm, -, hsame, -⟩ := mem_transfers htr htrours
    have htally := hpredicts _ _ (Table.mem_toList.mp htm)
    have hsum := sumAt_of_address (w := predicted view) htally.2 tm.2.address
    rw [if_pos rfl] at hsum
    have hlow : 0 ≤ sumAt (predicted view) tm.2.outputs tm.2.address :=
      sumAt_le_of_sublist (predicted_nonneg view) (List.nil_sublist tm.2.outputs) _
    have hhigh := sumAt_le_of_sublist (predicted_nonneg view) (outputs_sublist_flatMap htm) tm.2.address
    have hall := hfits tm.2.address
    rw [← sumAt_perm hperm] at hall
    rw [hsame, ← hsum]
    exact ⟨by omega, hhigh.trans_lt hall⟩

/-! ## Outputs that are spent -/

/-- What is spent of an output. -/
def spentAmount (output : Api.Output) : ℤ := -(output.amount.toNat : ℤ)

private theorem spentAmount_nonpos (output : Api.Output) : spentAmount output ≤ 0 :=
  neg_nonpos.mpr (Int.natCast_nonneg _)

/-- The transfers of the inputs, after the outputs that were found. -/
structure SpendsAll (transfers : Table String Api.Transfer) (found : List Api.Output) : Prop where
  tallied : ∀ (address : String) (tr : Api.Transfer), transfers[address]? = some tr →
    tr.ours = true ∧ tr.Tallied spentAmount address
  outputs : (transfers.toList.flatMap fun tm ↦ tm.2.outputs).Perm found

theorem SpendsAll.parseInput {p p' : ParsedInputs} {found : List Api.Output} (h : SpendsAll p.transfers found)
    {input : KeyInput} {output : Option Api.Output}
    (htry : view.tryAddingIncomingKeyimage input.keyImage = .ok output)
    (hp' : p.parseInput view input = .ok p') : SpendsAll p'.transfers (found ++ output.toList) := by
  classical
  rw [ParsedInputs.parseInput] at hp'
  obtain ⟨output', htry', hp'⟩ := bind_eq_ok.mp hp'
  cases htry.symm.trans htry'
  cases output with
  | none =>
    cases hp'
    rw [Option.toList_none, List.append_nil]
    exact h
  | some existing =>
    cases hp'
    refine ⟨fun address tr htr ↦ ?_, ?_⟩
    · rw [Table.get_insert] at htr
      split_ifs at htr with haddress
      · cases htr
        subst haddress
        have hold : ((p.transfers[existing.address]?).getD {}).Tallied spentAmount existing.address := by
          cases hget : p.transfers[existing.address]? with
          | none => exact ⟨rfl, nofun⟩
          | some tr => exact (h.tallied _ tr hget).2
        refine ⟨rfl, ?_, List.forall_mem_append.mpr ⟨hold.2, List.forall_mem_singleton.mpr rfl⟩⟩
        dsimp only
        rw [List.map_append, List.sum_append, List.map_singleton, List.sum_singleton, Int64.ofInt_add,
          ← hold.1, spentAmount, Int64.ofInt_neg, ← toInt64_eq_ofInt, Int64.sub_eq_add_neg]
      · exact h.tallied address tr htr
    · have hinsert := Table.flatMap_insert_perm (f := Api.Transfer.outputs) (t := p.transfers)
        (k := existing.address) (d := {}) (l := [existing]) (v := { (p.transfers[existing.address]?).getD {} with
          amount := ((p.transfers[existing.address]?).getD {}).amount - existing.amount.toInt64
          ours := true
          outputs := ((p.transfers[existing.address]?).getD {}).outputs ++ [existing] }) rfl rfl
      exact hinsert.trans (h.outputs.append_right _)

private theorem SpendsAll.parseInputs {p p' : ParsedInputs} {found : List Api.Output}
    (h : SpendsAll p.transfers found) {inputs : List KeyInput} {spent : KeyImage → Option Api.Output}
    (htry : ∀ input ∈ inputs, view.tryAddingIncomingKeyimage input.keyImage = .ok (spent input.keyImage))
    (hp' : inputs.foldlM (ParsedInputs.parseInput view) p = .ok p') :
    SpendsAll p'.transfers (found ++ inputs.filterMap fun input ↦ spent input.keyImage) := by
  induction inputs generalizing p found with
  | nil =>
    cases hp'
    rw [List.filterMap_nil, List.append_nil]
    exact h
  | cons input inputs ih =>
    rw [List.forall_mem_cons] at htry
    rw [List.foldlM_cons] at hp'
    obtain ⟨p₁, hp₁, hp'⟩ := bind_eq_ok.mp hp'
    have hrest := ih (h.parseInput htry.1 hp₁) htry.2 hp'
    rw [List.append_assoc] at hrest
    rw [List.filterMap_cons]
    cases hspent : spent input.keyImage with
    | none =>
      rw [hspent] at hrest
      exact hrest
    | some o =>
      rw [hspent] at hrest
      exact hrest

/-- **What is recorded of spent outputs**, when no address spends too much. -/
theorem recordedAmount_inputs {tid : Hash} {globalIndices : List UInt32} {parsed : ParsedTransaction}
    (h : parseRawTransaction env keys view pwtx tid globalIndices blockHeight = .ok parsed)
    (hours : parsed.ourTransaction = true) (spent : KeyImage → Option Api.Output)
    (htry : ∀ input ∈ pwtx.tx.keyInputs,
      view.tryAddingIncomingKeyimage input.keyImage = .ok (spent input.keyImage))
    (hfits : ∀ address, -2 ^ 63 ≤
      sumAt spentAmount (pwtx.tx.keyInputs.filterMap fun input ↦ spent input.keyImage) address) :
    (parsed.inputTransfers.flatMap (·.outputs)).Perm
        (pwtx.tx.keyInputs.filterMap fun input ↦ spent input.keyImage) ∧
      ∀ address, recordedAmount parsed.inputTransfers address =
        sumAt spentAmount (parsed.inputTransfers.flatMap (·.outputs)) address := by
  obtain ⟨-, -, outputs, inputs, -, hinputs, -, -, htransfers⟩ := parseRawTransaction_eq_ok h hours
  have hstart : SpendsAll ({ fee := outputs.fee } : ParsedInputs).transfers [] := by
    refine ⟨fun address tr htr ↦ ?_, List.Perm.refl _⟩
    cases (Std.ExtTreeMap.getElem?_empty).symm.trans htr
  have hall := hstart.parseInputs htry hinputs
  rw [List.nil_append] at hall
  have hflat : parsed.inputTransfers.flatMap (·.outputs) =
      inputs.transfers.toList.flatMap fun tm ↦ tm.2.outputs := by
    rw [htransfers, List.flatMap_map]
  have hmem (tr : Api.Transfer) (htr : tr ∈ parsed.inputTransfers) : tr.ours = true ∧
      tr.Tallied spentAmount tr.address ∧
      tr.outputs.Sublist (inputs.transfers.toList.flatMap fun tm ↦ tm.2.outputs) := by
    rw [htransfers] at htr
    obtain ⟨tm, htm, rfl⟩ := List.mem_map.mp htr
    obtain ⟨htrours, htally⟩ := hall.tallied _ _ (Table.mem_toList.mp htm)
    exact ⟨htrours, htally, outputs_sublist_flatMap htm⟩
  have hown : ownOutputs parsed.inputTransfers = parsed.inputTransfers.flatMap (·.outputs) := by
    rw [ownOutputs, List.filter_eq_self.mpr fun tr htr ↦ (hmem tr htr).1]
  refine ⟨hflat ▸ hall.outputs, fun address ↦ ?_⟩
  rw [← hown]
  refine recordedAmount_eq (fun tr htr _ ↦ (hmem tr htr).2.1) (fun tr htr _ ↦ ?_) address
  obtain ⟨-, htally, hsub⟩ := hmem tr htr
  have hsum := sumAt_of_address (w := spentAmount) htally.2 tr.address
  rw [if_pos rfl] at hsum
  have hlow := le_sumAt_of_sublist spentAmount_nonpos hsub tr.address
  have hhigh := le_sumAt_of_sublist spentAmount_nonpos (List.nil_sublist tr.outputs) tr.address
  have hall' := hfits tr.address
  rw [← sumAt_perm hall.outputs] at hall'
  rw [← hsum]
  exact ⟨hall'.trans hlow, hhigh.trans_lt (show (0 : ℤ) < 2 ^ 63 by decide)⟩

end Parse

end CryoNero
