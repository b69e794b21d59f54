import CryoNero.Wallet.Unconfirmed

/-!
# What a wallet finds in a transaction

The loop over the outputs of a transaction collects the recognised ones in transfers, address by address.
Seen as a list, what it hands to the database are the outputs that the database said it would take, each
once and with the numbers it has in the transaction (`ownOutputs_perm`, `ownOutputs_subperm`).

The recognised transaction is then handed over output by output, key image by key image. What these
operations keep is kept by a transaction (`redoTransaction_keeps`).
-/

namespace CryoNero

open Store
open WalletState (ownOutputs ownOutputs_cons addOthers_ours)

/-! ## Recognised outputs -/

/-- An output with the spend key it would belong to, its global index and its place. -/
abbrev PlacedOutput := (TransactionOutput × PublicKey × UInt32) × ℕ

/-- The outputs of a transaction as the loop meets them. -/
def PreparedWalletTransaction.placed (pwtx : PreparedWalletTransaction) (globalIndices : List UInt32) :
    List PlacedOutput :=
  (pwtx.tx.outputs.zip (pwtx.spendKeys.zip globalIndices)).zipIdx

/-- The amounts and global indices of outputs. -/
def numbered (outputs : List TransactionOutput) (globalIndices : List UInt32) :
    List (Amount ×ₗ UInt32) :=
  (outputs.zip globalIndices).map fun x ↦ toLex (x.1.amount, x.2)

def Api.Output.numbers (output : Api.Output) : Amount ×ₗ UInt32 :=
  toLex (output.amount, output.globalIndex)

section Parse

variable (env : WalletStateEnv) (keys : WalletKeys) (view : WalletStateView)
  (pwtx : PreparedWalletTransaction) (blockHeight : Height)

/-- An output of this wallet. -/
def recognised (x : PlacedOutput) : Option Api.Output :=
  (ParsedOutputs.recognise env keys pwtx x.1.2.1 x.2).map fun r ↦
    { foundOutput pwtx.tx x.1.1 x.1.2.2 x.2 blockHeight with
      keyImage := if r.1.spendSecretKey ≠ (0 : SecretKey) then
          env.crypto.generateKeyImage r.2
            (env.crypto.deriveSecretKey pwtx.derivation x.2 r.1.spendSecretKey)
        else 0
      address := env.accountAddressAsString ⟨x.1.2.1, keys.viewPublicKey⟩ }

/-- An output that the database would take, and by how much the balance would grow. -/
def counted (x : PlacedOutput) : Option (Api.Output × Amount) :=
  (recognised env keys pwtx blockHeight x).bind fun out ↦
    (view.tryAddIncomingOutput out).map fun delta ↦ (out, delta)

/-- Transfers carry the texts of their addresses. -/
def Transfers.Addressed (m : Transfers) : Prop :=
  ∀ (address : AccountPublicAddress) (tr : Api.Transfer), m[address.key]? = some tr →
    tr.address = env.accountAddressAsString address

/-- All outputs of some transfers. -/
def Transfers.outputs (m : Transfers) : List Api.Output := m.toList.flatMap fun tm ↦ tm.2.outputs

/-- What a recognised output adds to the transfer to its address. -/
def grown (tr : Api.Transfer) (out : Api.Output) : Api.Transfer :=
  { tr with
    address := out.address
    amount := tr.amount + ((view.tryAddIncomingOutput out).map (·.toInt64)).getD 0
    outputs := tr.outputs ++ ((view.tryAddIncomingOutput out).map fun _ ↦ out).toList }

variable {env keys pwtx}

private theorem AccountPublicAddress.key_inj {a b : AccountPublicAddress} (h : a.key = b.key) : a = b := by
  cases a
  cases b
  cases h
  rfl

variable {p : ParsedOutputs} {history : List AccountPublicAddress} {x : PlacedOutput}

variable (keys pwtx history x) in
/-- One turn of the loop over the outputs. -/
theorem parseOutput_cases (h : p.ours.Addressed env) :
    (recognised env keys pwtx blockHeight x = none ∧
      (p.parseOutput env keys view pwtx history blockHeight x).ours = p.ours) ∨
    ∃ out, recognised env keys pwtx blockHeight x = some out ∧
      (p.parseOutput env keys view pwtx history blockHeight x).ours =
        p.ours.insert (AccountPublicAddress.key ⟨x.1.2.1, keys.viewPublicKey⟩)
          (grown view ((p.ours[AccountPublicAddress.key ⟨x.1.2.1, keys.viewPublicKey⟩]?).getD {})
            out) := by
  obtain ⟨⟨output, spendKey, globalIndex⟩, outIndex⟩ := x
  rw [recognised, ParsedOutputs.parseOutput]
  dsimp only
  cases hrec : ParsedOutputs.recognise env keys pwtx spendKey outIndex with
  | none => exact .inl ⟨rfl, addOthers_ours _ _ _ _ _ _ _⟩
  | some r =>
    refine .inr ⟨_, rfl, ?_⟩
    dsimp only
    rw [ParsedOutputs.addOurs]
    dsimp only
    set address : AccountPublicAddress := ⟨spendKey, keys.viewPublicKey⟩
    -- the address of the transfer is filled in once, and stays
    have htext : (p.ours.transferTo env address).address = env.accountAddressAsString address := by
      rw [Transfers.transferTo]
      dsimp only
      cases htr : p.ours[address.key]? with
      | none => exact if_pos rfl
      | some tr =>
        rw [Option.getD_some, h address tr htr]
        exact ite_eq_right_iff.mpr fun _ ↦ rfl
    have hsame : p.ours.transferTo env address = { (p.ours[address.key]?).getD {} with
        address := env.accountAddressAsString address } := by
      rw [← htext]
      rfl
    rw [htext, grown, hsame]
    dsimp only
    congr 1
    split
    · next delta hdelta =>
      rw [hdelta]
      rfl
    · next hnone =>
      rw [hnone, Option.map_none, Option.map_none, Option.getD_none, Int64.add_zero,
        Option.toList_none, List.append_nil]

theorem Transfers.Addressed.parseOutput (h : p.ours.Addressed env) :
    (p.parseOutput env keys view pwtx history blockHeight x).ours.Addressed env := by
  rcases parseOutput_cases keys view pwtx blockHeight history x h with
    ⟨-, hours⟩ | ⟨out, hout, hours⟩
  · rwa [hours]
  · intro address tr htr
    rw [hours, Table.get_insert] at htr
    split_ifs at htr with hkey
    · cases htr
      obtain ⟨r, -, rfl⟩ := Option.map_eq_some_iff.mp hout
      rw [← AccountPublicAddress.key_inj hkey]
      rfl
    · exact h address tr htr

variable (keys pwtx history x) in
private theorem outputs_parseOutput (h : p.ours.Addressed env) :
    (p.parseOutput env keys view pwtx history blockHeight x).ours.outputs.Perm
      (p.ours.outputs ++ ((counted env keys view pwtx blockHeight x).map Prod.fst).toList) := by
  rcases parseOutput_cases keys view pwtx blockHeight history x h with
    ⟨hnone, hours⟩ | ⟨out, hout, hours⟩
  · rw [hours, counted, hnone, Option.bind_none, Option.map_none, Option.toList_none, List.append_nil]
  · rw [hours, counted, hout, Option.bind_some, Option.map_map]
    exact Table.flatMap_insert_perm (f := Api.Transfer.outputs) (d := {}) rfl rfl

theorem outputs_foldl_parseOutput (l : List PlacedOutput) (h : p.ours.Addressed env) :
    (l.foldl (ParsedOutputs.parseOutput env keys view pwtx history blockHeight) p).ours.outputs.Perm
      (p.ours.outputs ++ (l.filterMap (counted env keys view pwtx blockHeight)).map Prod.fst) := by
  induction l generalizing p with
  | nil => rw [List.filterMap_nil, List.map_nil, List.append_nil]; rfl
  | cons x l ih =>
    have hx := outputs_parseOutput keys view pwtx blockHeight history x h
    refine (ih (h.parseOutput view blockHeight)).trans ((hx.append_right _).trans ?_)
    rw [List.append_assoc, List.filterMap_cons]
    cases counted env keys view pwtx blockHeight x <;> rfl

/-! ## What is handed over -/

/-- An output carries the flag that its amount asks for. -/
def Flagged (output : Api.Output) : Prop := output.dust = Currency.isDust output.amount

variable {view blockHeight}

private theorem ownOutputs_transfers_sublist (p : ParsedOutputs) (unlockTime : UnlockMoment) :
    (ownOutputs (p.transfers unlockTime)).Sublist p.ours.outputs := by
  have hothers : ((p.others.toList.map fun tm ↦ { tm.2 with
      locked := decide (unlockTime ≠ 0), ours := false }).filter (·.amount ≠ 0)).filter (·.ours) = [] := by
    refine List.filter_eq_nil_iff.mpr fun tr htr ↦ ?_
    obtain ⟨tm, -, rfl⟩ := List.mem_map.mp (List.mem_filter.mp htr).1
    exact Bool.false_ne_true
  rw [ownOutputs, ParsedOutputs.transfers, List.filter_append, hothers, List.nil_append]
  refine ((List.filter_sublist.trans List.filter_sublist).flatMap _).trans ?_
  rw [List.flatMap_map]
  exact List.Sublist.refl _

/-- A transaction that is not recognised as one of this wallet is left alone; of the others these are the
parts. -/
theorem parseRawTransaction_eq_ok {tid : Hash} {globalIndices : List UInt32} {parsed : ParsedTransaction}
    (h : parseRawTransaction env keys view pwtx tid globalIndices blockHeight = .ok parsed)
    (hours : parsed.ourTransaction = true) :
    globalIndices.length = pwtx.tx.outputs.length ∧ pwtx.derivation ≠ 0 ∧ ∃ outputs inputs,
      outputs = (pwtx.placed globalIndices).foldl (ParsedOutputs.parseOutput env keys view pwtx
        (keys.loadHistory tid) blockHeight) {} ∧
      pwtx.tx.keyInputs.foldlM (ParsedInputs.parseInput view) { fee := outputs.fee } = .ok inputs ∧
      parsed.ptx.blockHeight = blockHeight ∧
      parsed.ptx.transfers = outputs.transfers pwtx.tx.unlockTime ∧
      parsed.inputTransfers = inputs.transfers.toList.map fun tm ↦ { tm.2 with address := tm.1 } := by
  rw [parseRawTransaction] at h
  split_ifs at h with hlength hderivation
  · cases h
    cases hours
  · cases h
    cases hours
  · obtain ⟨inputs, hinputs, h⟩ := bind_eq_ok.mp h
    cases h
    exact ⟨not_not.mp hlength, hderivation, _, inputs, rfl, hinputs, rfl, rfl, rfl⟩

theorem addressed_empty : Transfers.Addressed env (∅ : Transfers) := fun _ _ htr ↦ by
  cases (Std.ExtTreeMap.getElem?_empty).symm.trans htr

/-- What is handed to the database is among the outputs that count. -/
theorem ownOutputs_subperm {tid : Hash} {globalIndices : List UInt32} {parsed : ParsedTransaction}
    (h : parseRawTransaction env keys view pwtx tid globalIndices blockHeight = .ok parsed)
    (hours : parsed.ourTransaction = true) :
    (ownOutputs parsed.ptx.transfers).Subperm
      (((pwtx.placed globalIndices).filterMap (counted env keys view pwtx blockHeight)).map Prod.fst) := by
  obtain ⟨-, -, outputs, inputs, rfl, -, -, htransfers, -⟩ := parseRawTransaction_eq_ok h hours
  rw [htransfers]
  refine (ownOutputs_transfers_sublist _ _).subperm.trans (List.Perm.subperm ?_)
  exact outputs_foldl_parseOutput view blockHeight _ addressed_empty

theorem counted_eq_some {x : PlacedOutput} {out : Api.Output} {delta : Amount}
    (h : counted env keys view pwtx blockHeight x = some (out, delta)) :
    recognised env keys pwtx blockHeight x = some out ∧ view.tryAddIncomingOutput out = some delta := by
  obtain ⟨out', hout, h⟩ := Option.bind_eq_some_iff.mp h
  obtain ⟨delta', hdelta, heq⟩ := Option.map_eq_some_iff.mp h
  cases heq
  exact ⟨hout, hdelta⟩

theorem recognised_numbers {x : PlacedOutput} {out : Api.Output}
    (h : recognised env keys pwtx blockHeight x = some out) :
    out.amount = x.1.1.amount ∧ out.globalIndex = x.1.2.2 ∧ out.height = blockHeight ∧
      out.unlockTime = pwtx.tx.unlockTime ∧ Flagged out := by
  obtain ⟨r, -, rfl⟩ := Option.map_eq_some_iff.mp h
  exact ⟨rfl, rfl, rfl, rfl, rfl⟩

private theorem numbers_zip_sublist (outputs : List TransactionOutput) (spendKeys : List PublicKey)
    (globalIndices : List UInt32) :
    ((outputs.zip (spendKeys.zip globalIndices)).map fun x ↦
      (toLex (x.1.amount, x.2.2) : Amount ×ₗ UInt32)).Sublist (numbered outputs globalIndices) := by
  rw [numbered]
  induction outputs generalizing spendKeys globalIndices with
  | nil => exact List.nil_sublist _
  | cons output outputs ih =>
    rcases spendKeys with _ | ⟨spendKey, spendKeys⟩
    · exact List.nil_sublist _
    rcases globalIndices with _ | ⟨globalIndex, globalIndices⟩
    · exact List.nil_sublist _
    exact (ih spendKeys globalIndices).cons_cons _

private theorem numbers_counted_sublist (globalIndices : List UInt32) :
    (((pwtx.placed globalIndices).filterMap (counted env keys view pwtx blockHeight)).map
      fun c ↦ c.1.numbers).Sublist (numbered pwtx.tx.outputs globalIndices) := by
  have hplaced : ((pwtx.placed globalIndices).map fun x ↦
      (toLex (x.1.1.amount, x.1.2.2) : Amount ×ₗ UInt32)).Sublist
        (numbered pwtx.tx.outputs globalIndices) := by
    refine List.Sublist.trans ?_ (numbers_zip_sublist pwtx.tx.outputs pwtx.spendKeys globalIndices)
    conv_rhs => rw [← List.zipIdx_map_fst 0 (pwtx.tx.outputs.zip (pwtx.spendKeys.zip globalIndices)),
      List.map_map]
    exact List.Sublist.refl _
  refine List.Sublist.trans ?_ hplaced
  induction pwtx.placed globalIndices with
  | nil => exact List.Sublist.refl _
  | cons x l ih =>
    rw [List.filterMap_cons, List.map_cons]
    cases hx : counted env keys view pwtx blockHeight x with
    | none => exact ih.cons _
    | some c =>
      obtain ⟨out, delta⟩ := c
      have hnumbers := recognised_numbers (counted_eq_some hx).1
      rw [List.map_cons, Api.Output.numbers, hnumbers.1, hnumbers.2.1]
      exact ih.cons_cons _

theorem numbers_ownOutputs_subperm {tid : Hash} {globalIndices : List UInt32} {parsed : ParsedTransaction}
    (h : parseRawTransaction env keys view pwtx tid globalIndices blockHeight = .ok parsed)
    (hours : parsed.ourTransaction = true) :
    ((ownOutputs parsed.ptx.transfers).map (·.numbers)).Subperm
      (numbered pwtx.tx.outputs globalIndices) := by
  obtain ⟨outs, hperm, hsub⟩ := ownOutputs_subperm h hours
  refine (hperm.symm.map _).subperm.trans ((hsub.map _).trans ?_).subperm
  rw [List.map_map]
  exact numbers_counted_sublist globalIndices

theorem flagged_ownOutputs {tid : Hash} {globalIndices : List UInt32} {parsed : ParsedTransaction}
    (h : parseRawTransaction env keys view pwtx tid globalIndices blockHeight = .ok parsed)
    (hours : parsed.ourTransaction = true) : ∀ out ∈ ownOutputs parsed.ptx.transfers, Flagged out := by
  intro out hout
  obtain ⟨c, hc, rfl⟩ := List.mem_map.mp ((ownOutputs_subperm h hours).subset hout)
  obtain ⟨x, -, hx⟩ := List.mem_filterMap.mp hc
  exact (recognised_numbers (counted_eq_some hx).1).2.2.2.2

end Parse

/-! ## Handing over -/

section Redo

variable {σ : Type} {I : IWalletState σ}

/-- Transfer by transfer, the outputs are handed over one after the other. -/
theorem addTransfers_eq_ok {s s' : σ} {trs trs' : List Api.Transfer}
    (h : addTransfers I s trs = .ok (s', trs')) :
    addOutputs I s (ownOutputs trs) = .ok (s', ownOutputs trs') := by
  have happend {outs outs' out₁ out₂ : List Api.Output} {s s₁ s₂ : σ}
      (h : addOutputs I s outs = .ok (s₁, out₁)) (h' : addOutputs I s₁ outs' = .ok (s₂, out₂)) :
      addOutputs I s (outs ++ outs') = .ok (s₂, out₁ ++ out₂) := by
    induction outs generalizing s out₁ with
    | nil =>
      cases h
      exact h'
    | cons out outs ih =>
      rw [addOutputs] at h
      obtain ⟨⟨t, n⟩, ht, h⟩ := bind_eq_ok.mp h
      obtain ⟨⟨t', out₃⟩, ht', h⟩ := bind_eq_ok.mp h
      cases h
      rw [List.cons_append, addOutputs]
      exact bind_eq_ok.mpr ⟨(t, n), ht, bind_eq_ok.mpr ⟨(s₂, out₃ ++ out₂), ih ht', rfl⟩⟩
  induction trs generalizing s trs' with
  | nil =>
    cases h
    rfl
  | cons tr trs ih =>
    rw [addTransfers] at h
    rw [ownOutputs_cons]
    by_cases hours : tr.ours = true
    · rw [if_pos hours] at h ⊢
      obtain ⟨⟨s₁, outs⟩, hs₁, h⟩ := bind_eq_ok.mp h
      obtain ⟨⟨s₂, trs₂⟩, hs₂, h⟩ := bind_eq_ok.mp h
      cases h
      rw [ownOutputs_cons, if_pos hours]
      exact happend hs₁ (ih hs₂)
    · rw [if_neg hours] at h ⊢
      rw [ok_bind] at h
      obtain ⟨⟨s₂, trs₂⟩, hs₂, h⟩ := bind_eq_ok.mp h
      cases h
      rw [ownOutputs_cons, if_neg hours]
      exact ih hs₂

private theorem addOutputs_keeps {M : List Api.Output → σ → Prop}
    (hout : ∀ s output todo s' n, M (output :: todo) s → I.addIncomingOutput s output = .ok (s', n) →
      M todo s') {s s' : σ} {outs outs' : List Api.Output} (h : M outs s)
    (hs' : addOutputs I s outs = .ok (s', outs')) : M [] s' := by
  induction outs generalizing s outs' with
  | nil =>
    cases hs'
    exact h
  | cons output outs ih =>
    rw [addOutputs] at hs'
    obtain ⟨⟨s₁, n⟩, hs₁, hs'⟩ := bind_eq_ok.mp hs'
    obtain ⟨⟨s₂, outs₂⟩, hs₂, hs'⟩ := bind_eq_ok.mp hs'
    cases hs'
    exact ih (hout s output outs s₁ n h hs₁) hs₂

variable {env : WalletStateEnv} {keys : WalletKeys} {view : WalletStateView}
  {pwtx : PreparedWalletTransaction} {s : σ} {globalIndices : List UInt32} {isBase : Bool}
  {tid bid : Hash} {blockHeight : Height} {txTimestamp : Timestamp} {r : σ × Bool}

/-- What happens to a transaction: its outputs, its key images and its record are handed over, or it is not
recognised. -/
theorem redoTransaction_cases (h : redoTransaction I env keys view s pwtx globalIndices isBase tid
    blockHeight bid txTimestamp = .ok r) :
    ∃ parsed, parseRawTransaction env keys view pwtx tid globalIndices blockHeight = .ok parsed ∧
      (parsed.ourTransaction = false ∧ r = (s, false) ∨
        parsed.ourTransaction = true ∧ r.2 = true ∧ ∃ s₁ transfers s₂ ptx,
          addTransfers I s parsed.ptx.transfers = .ok (s₁, transfers) ∧
          addKeyimages I s₁ blockHeight (parsed.inputTransfers.flatMap (·.outputs)) = .ok s₂ ∧
          ptx.transfers = transfers ++ parsed.inputTransfers ∧
          ptx.blockHeight = parsed.ptx.blockHeight ∧
          I.addTransaction s₂ blockHeight tid pwtx.tx ptx = .ok r.1) := by
  rw [redoTransaction] at h
  obtain ⟨parsed, hparsed, h⟩ := bind_eq_ok.mp h
  refine ⟨parsed, hparsed, ?_⟩
  cases hours : parsed.ourTransaction with
  | false =>
    rw [hours] at h
    cases h
    exact .inl ⟨rfl, rfl⟩
  | true =>
    rw [hours] at h
    obtain ⟨⟨s₁, transfers⟩, hs₁, h⟩ := bind_eq_ok.mp h
    obtain ⟨s₂, hs₂, h⟩ := bind_eq_ok.mp h
    obtain ⟨s₃, hs₃, h⟩ := bind_eq_ok.mp h
    cases h
    refine .inr ⟨rfl, rfl, s₁, transfers, s₂, _, hs₁, hs₂, ?_, ?_, hs₃⟩ <;> rfl

/-- **Transaction rule.** What the operations of a wallet state keep is kept by a transaction. The outputs
that are still to be handed over may matter. -/
theorem redoTransaction_keeps {M : List Api.Output → σ → Prop}
    (hout : ∀ s output todo s' n, M (output :: todo) s → I.addIncomingOutput s output = .ok (s', n) →
      M todo s')
    (hki : ∀ s ki s' n, M [] s → I.addIncomingKeyimage s blockHeight ki = .ok (s', n) → M [] s')
    (htx : ∀ s ptx s', M [] s → ptx.blockHeight = blockHeight →
      I.addTransaction s blockHeight tid pwtx.tx ptx = .ok s' → M [] s')
    (hstart : ∀ parsed, parseRawTransaction env keys view pwtx tid globalIndices blockHeight = .ok parsed →
      parsed.ourTransaction = true → M (ownOutputs parsed.ptx.transfers) s)
    (hnone : M [] s) (hr : redoTransaction I env keys view s pwtx globalIndices isBase tid blockHeight bid
      txTimestamp = .ok r) : M [] r.1 := by
  obtain ⟨parsed, hparsed, ⟨-, rfl⟩ | ⟨hours, -, s₁, transfers, s₂, ptx, hs₁, hs₂, -, hheight, hr⟩⟩ :=
    redoTransaction_cases hr
  · exact hnone
  · have h₁ := addOutputs_keeps hout (hstart parsed hparsed hours) (addTransfers_eq_ok hs₁)
    obtain ⟨-, -, _, _, -, -, hparsedHeight, -⟩ := parseRawTransaction_eq_ok hparsed hours
    refine htx _ _ _ ?_ (hheight.trans hparsedHeight) hr
    refine foldlM_ok (fun _ s ↦ M [] s) hs₂ h₁ fun _ out _ t t' _ ht hstep ↦ ?_
    obtain ⟨⟨t₁, n⟩, ht₁, rfl⟩ := map_eq_ok.mp hstep
    exact hki t _ t₁ n ht ht₁

end Redo

end CryoNero
