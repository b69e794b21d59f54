import CryoNero.Core.WalletTransaction
import CryoNero.Store.Outcome
import CryoNero.Store.Totals

/-!
# Undoing unconfirmed transactions

The state of the unconfirmed transactions should be the merge of what each of them contributed. The
outputs that a transaction contributed are not remembered with it. They are looked for again when
the transaction is undone: for each of its outputs the first entry with the same one-time key and
the same amount is taken out.

What is taken out is what was put in as long as the entries of the transaction come first among
those with their key and amount, and `Merges.undo_iff` says so exactly. The key images are counted,
and their counts are always right.
-/

namespace CryoNero.WalletState

open Store Seria Std

/-! ## Tables that count -/

/-- The table has the number of times that each key image is in the list. -/
def Tallies (used : Table KeyImage ℤ) (l : List KeyImage) : Prop :=
  ∀ k : KeyImage, used[k]? = if l.count k = 0 then none else some (l.count k : ℤ)

namespace Tallies

variable {used used' : Table KeyImage ℤ} {l l' : List KeyImage}

theorem perm (h : Tallies used l) (hl : l.Perm l') : Tallies used l' := fun k ↦ by
  rw [← hl.count_eq]
  exact h k

theorem getD (h : Tallies used l) (k : KeyImage) : (used[k]?).getD 0 = (l.count k : ℤ) := by
  rw [h k]
  split_ifs with hcount
  · rw [hcount]
    rfl
  · rfl

theorem count (h : Tallies used l) (input : KeyInput) :
    Tallies (DeltaState.countKeyImage used input) (input.keyImage :: l) := fun k ↦ by
  rw [DeltaState.countKeyImage, Table.get_insert, h.getD, List.count_cons]
  by_cases hk : input.keyImage = k
  · subst hk
    simp
  · simp [hk, h k]

private theorem countAll (h : Tallies used l) (inputs : List KeyInput) :
    Tallies (inputs.foldl DeltaState.countKeyImage used) (inputs.map (·.keyImage) ++ l) := by
  induction inputs generalizing used l with
  | nil => exact h
  | cons input inputs ih => exact (ih (h.count input)).perm List.perm_middle

private theorem uncount {input : KeyInput} (h : Tallies used (input.keyImage :: l)) :
    ∃ used', DeltaState.uncountKeyImage used input = .ok used' ∧ Tallies used' l := by
  have hget : used[input.keyImage]? = some (l.count input.keyImage + 1 : ℤ) := by
    rw [h, List.count_cons_self, if_neg (Nat.succ_ne_zero _)]
    rfl
  have hsub : (l.count input.keyImage + 1 : ℤ) - 1 = l.count input.keyImage := add_sub_cancel_right _ _
  refine ⟨if (l.count input.keyImage : ℤ) = 0 then used.erase input.keyImage
    else used.insert input.keyImage (l.count input.keyImage : ℤ), ?_, fun k ↦ ?_⟩
  · unfold DeltaState.uncountKeyImage
    rw [hget, orFail, ok_bind, hsub, ensure_pos _ (Int.natCast_nonneg _)]
    rfl
  · by_cases hk : input.keyImage = k
    · subst hk
      split_ifs with h₁ h₂ h₂
      · rw [Table.get_erase_self]
      · exact absurd (Int.natCast_eq_zero.mp h₁) h₂
      · exact absurd (Int.natCast_eq_zero.mpr h₂) h₁
      · rw [Table.get_insert_self]
    · have hother : used[k]? = if l.count k = 0 then none else some (l.count k : ℤ) := by
        rw [h, List.count_cons_of_ne hk]
      rw [← hother]
      split_ifs
      · rw [Table.get_erase_of_ne _ hk]
      · rw [Table.get_insert_of_ne _ _ hk]

private theorem uncountAll {inputs : List KeyInput} (h : Tallies used (inputs.map (·.keyImage) ++ l)) :
    ∃ used', inputs.foldlM DeltaState.uncountKeyImage used = .ok used' ∧ Tallies used' l := by
  induction inputs generalizing used with
  | nil => exact ⟨used, rfl, h⟩
  | cons input inputs ih =>
    obtain ⟨used₁, hused₁, h₁⟩ := h.uncount
    obtain ⟨used₂, hused₂, h₂⟩ := ih h₁
    exact ⟨used₂, bind_eq_ok.mpr ⟨used₁, hused₁, hused₂⟩, h₂⟩

end Tallies

/-! ## Outputs by key and amount -/

abbrev Unspents := Table PublicKey (List Api.Output)

/-- The outputs listed under a one-time key. -/
def listed (unspents : Unspents) (key : PublicKey) : List Api.Output := (unspents[key]?).getD []

/-- No key stands for an empty list. -/
def NoEmptyList (unspents : Unspents) : Prop :=
  ∀ (key : PublicKey) outs, unspents[key]? = some outs → outs ≠ []

/-- The outputs with a given one-time key and amount. -/
def alike (key : PublicKey) (amount : Amount) (outs : List Api.Output) : List Api.Output :=
  (outs.filter (·.publicKey = key)).filter (·.amount = amount)

/-- How many outputs of a transaction have a given one-time key and amount. -/
def countAlike (tx : TransactionPrefix) (key : PublicKey) (amount : Amount) : ℕ :=
  tx.outputs.countP fun output ↦ output.key = key ∧ output.amount = amount

theorem alike_append (key : PublicKey) (amount : Amount) (l l' : List Api.Output) :
    alike key amount (l ++ l') = alike key amount l ++ alike key amount l' := by
  rw [alike, List.filter_append, List.filter_append]
  rfl

private theorem perm_iff_amounts {l l' : List Api.Output} :
    l.Perm l' ↔ ∀ amount, (l.filter (·.amount = amount)).Perm (l'.filter (·.amount = amount)) := by
  refine ⟨fun h amount ↦ h.filter _, fun h ↦ List.perm_iff_count.mpr fun out ↦ ?_⟩
  have hcount := (h out.amount).count_eq out
  rwa [List.count_filter (by simp), List.count_filter (by simp)] at hcount

private theorem filter_eraseP (l : List Api.Output) (a b : Amount) :
    (l.eraseP (·.amount = a)).filter (·.amount = b) =
      (l.filter (·.amount = b)).drop (if a = b then 1 else 0) := by
  induction l with
  | nil => simp
  | cons out l ih =>
    by_cases ha : out.amount = a
    · by_cases hb : a = b
      · simp [ha, hb]
      · simp [ha, hb]
    · rw [List.eraseP_cons_of_neg (by simpa using ha), List.filter_cons, List.filter_cons, ih]
      by_cases hb : a = b
      · have hne : ¬decide (out.amount = b) = true := by simpa using hb ▸ ha
        rw [if_neg hne, if_neg hne]
      · rw [if_neg hb, List.drop_zero, List.drop_zero]

private theorem listed_addIncomingOutput (d : DeltaState) (out : Api.Output) (key : PublicKey) :
    listed (d.addIncomingOutput out).unspents key =
      listed d.unspents key ++ [out].filter (·.publicKey = key) := by
  rw [DeltaState.addIncomingOutput, listed, Table.get_insert]
  split_ifs with hkey
  · simp [listed, hkey]
  · simp [listed, hkey]

theorem NoEmptyList.addIncomingOutput {d : DeltaState} (h : NoEmptyList d.unspents)
    (out : Api.Output) : NoEmptyList (d.addIncomingOutput out).unspents := by
  intro key outs hget
  rw [DeltaState.addIncomingOutput, Table.get_insert] at hget
  split_ifs at hget
  · cases hget
    exact List.append_ne_nil_of_right_ne_nil _ (List.cons_ne_nil _ _)
  · exact h key outs hget

private theorem listed_eraseOutput (unspents : Unspents) (output : TransactionOutput) (key : PublicKey) :
    listed (DeltaState.eraseOutput unspents output) key =
      if output.key = key then (listed unspents key).eraseP (·.amount = output.amount)
      else listed unspents key := by
  unfold DeltaState.eraseOutput
  cases hget : unspents[output.key]? with
  | none =>
    split_ifs with hkey
    · rw [listed, ← hkey, hget]
      rfl
    · rfl
  | some outs =>
    dsimp only
    by_cases hkey : output.key = key
    · subst hkey
      rw [if_pos rfl, listed, listed, hget]
      split_ifs with hnil
      · rw [Table.get_erase_self]
        exact hnil.symm
      · rw [Table.get_insert_self]
        rfl
    · rw [if_neg hkey, listed, listed]
      split_ifs
      · rw [Table.get_erase_of_ne _ hkey]
      · rw [Table.get_insert_of_ne _ _ hkey]

theorem NoEmptyList.eraseOutput {unspents : Unspents} (h : NoEmptyList unspents)
    (output : TransactionOutput) : NoEmptyList (DeltaState.eraseOutput unspents output) := by
  intro key outs hget
  unfold DeltaState.eraseOutput at hget
  split at hget
  · exact h key outs hget
  · dsimp only at hget
    split_ifs at hget with hnil
    · rw [Table.get_erase] at hget
      split_ifs at hget
      exact h key outs hget
    · rw [Table.get_insert] at hget
      split_ifs at hget
      · cases hget
        exact hnil
      · exact h key outs hget

/-- What undoing a transaction takes out, key by key and amount by amount: the first entries, as
many as the transaction has outputs with that key and amount. -/
private theorem filter_listed_eraseOutputs (tx : TransactionPrefix) (unspents : Unspents) (key : PublicKey)
    (amount : Amount) :
    (listed (tx.outputs.foldl DeltaState.eraseOutput unspents) key).filter (·.amount = amount) =
      ((listed unspents key).filter (·.amount = amount)).drop (countAlike tx key amount) := by
  unfold countAlike
  induction tx.outputs generalizing unspents with
  | nil => rfl
  | cons output outputs ih =>
    rw [List.foldl_cons, ih, listed_eraseOutput, List.countP_cons]
    by_cases hkey : output.key = key
    · rw [if_pos hkey, filter_eraseP, List.drop_drop, Nat.add_comm]
      simp [hkey]
    · rw [if_neg hkey]
      simp [hkey]

private theorem NoEmptyList.eraseOutputs {unspents : Unspents} (h : NoEmptyList unspents)
    (outputs : List TransactionOutput) :
    NoEmptyList (outputs.foldl DeltaState.eraseOutput unspents) := by
  induction outputs generalizing unspents with
  | nil => exact h
  | cons output outputs ih => exact ih (h.eraseOutput output)

/-! ## The merge -/

/-- What each unconfirmed transaction contributed when it was added. -/
abbrev Contributions := Table Hash (List Api.Output)

def Contributions.outputs (shares : Contributions) : List Api.Output := shares.toList.flatMap (·.2)

/-- The key images of the inputs of the transactions. -/
def DeltaState.keyImages (d : DeltaState) : List KeyImage :=
  d.transactions.toList.flatMap fun p ↦ p.2.1.keyInputs.map (·.keyImage)

/-- The state is the merge of the contributions of the transactions in it. -/
structure Merges (d : DeltaState) (shares : Contributions) : Prop where
  transactions : ∀ tid : Hash, shares[tid]? = none ↔ d.transactions[tid]? = none
  unspents : ∀ key : PublicKey,
    (listed d.unspents key).Perm (shares.outputs.filter (·.publicKey = key))
  noEmptyList : NoEmptyList d.unspents
  usedKeyimages : Tallies d.usedKeyimages d.keyImages

/-- The entries that undoing a transaction takes out are the ones it contributed. -/
def TakesOwn (d : DeltaState) (shares : Contributions) (tid : Hash) : Prop :=
  ∀ tx ptx own, d.transactions[tid]? = some (tx, ptx) → shares[tid]? = some own →
    ∀ key amount, (((listed d.unspents key).filter (·.amount = amount)).take
      (countAlike tx key amount)).Perm (alike key amount own)

private theorem Contributions.outputs_of_get {shares : Contributions} {tid : Hash} {own : List Api.Output}
    (h : shares[tid]? = some own) : shares.outputs.Perm (own ++ outputs (shares.erase tid)) :=
  (Table.toList_perm_of_get h).flatMap_right _

private theorem DeltaState.keyImages_of_get {d : DeltaState} {tid : Hash} {tx : TransactionPrefix}
    {ptx : Api.Transaction} (h : d.transactions[tid]? = some (tx, ptx)) :
    d.keyImages.Perm (tx.keyInputs.map (·.keyImage) ++
      keyImages { d with transactions := d.transactions.erase tid }) :=
  (Table.toList_perm_of_get h).flatMap_right _

private theorem DeltaState.undoTransaction_of_get {d : DeltaState} {tid : Hash} {tx : TransactionPrefix}
    {ptx : Api.Transaction} {used : Table KeyImage ℤ}
    (hget : d.transactions[tid]? = some (tx, ptx))
    (hused : tx.keyInputs.foldlM uncountKeyImage d.usedKeyimages = .ok used) :
    d.undoTransaction tid = .ok { d with
      unspents := tx.outputs.foldl eraseOutput d.unspents
      usedKeyimages := used
      transactions := d.transactions.erase tid } := by
  unfold undoTransaction
  rw [hget]
  dsimp only
  rw [hused]
  rfl

namespace Merges

variable {d : DeltaState} {shares : Contributions} {tid : Hash}

/-- For the transaction that is undone, the entries with one key and amount are those it gave and
those the others gave. -/
theorem alike_perm (h : Merges d shares) {own : List Api.Output} (hown : shares[tid]? = some own)
    (key : PublicKey) (amount : Amount) :
    ((listed d.unspents key).filter (·.amount = amount)).Perm
      (alike key amount own ++ alike key amount (Contributions.outputs (shares.erase tid))) := by
  rw [← alike_append]
  exact ((h.unspents key).trans ((Contributions.outputs_of_get hown).filter _)).filter _

/-- Undoing a transaction never fails. It gives the merge of the other contributions exactly when the
entries it takes out are the ones that the transaction contributed. -/
theorem undo_iff (h : Merges d shares) (tid : Hash) :
    ∃ d', d.undoTransaction tid = .ok d' ∧
      (Merges d' (shares.erase tid) ↔ TakesOwn d shares tid) := by
  cases hget : d.transactions[tid]? with
  | none =>
    -- nothing is undone
    refine ⟨d, ?_, ?_⟩
    · unfold DeltaState.undoTransaction
      rw [hget]
      rfl
    · rw [Table.erase_of_get_eq_none ((h.transactions tid).mpr hget)]
      refine ⟨fun _ tx ptx own htx ↦ ?_, fun _ ↦ h⟩
      rw [hget] at htx
      cases htx
  | some p =>
    obtain ⟨tx, ptx⟩ := p
    obtain ⟨own, hown⟩ : ∃ own, shares[tid]? = some own := by
      refine Option.ne_none_iff_exists'.mp fun hnone ↦ ?_
      rw [(h.transactions tid).mp hnone] at hget
      cases hget
    obtain ⟨used, hused, htallies⟩ :=
      (h.usedKeyimages.perm (DeltaState.keyImages_of_get hget)).uncountAll
    refine ⟨_, DeltaState.undoTransaction_of_get hget hused, ?_⟩
    -- what is left under a key and an amount is what the others gave, if and only if what was taken
    -- is what the transaction gave
    have hleft (key : PublicKey) (amount : Amount) :
        ((listed (tx.outputs.foldl DeltaState.eraseOutput d.unspents) key).filter
            (·.amount = amount)).Perm
          (alike key amount (Contributions.outputs (shares.erase tid))) ↔
        (((listed d.unspents key).filter (·.amount = amount)).take (countAlike tx key amount)).Perm
          (alike key amount own) := by
      have hall := h.alike_perm hown key amount
      rw [filter_listed_eraseOutputs]
      rw [← List.take_append_drop (countAlike tx key amount)
        ((listed d.unspents key).filter (·.amount = amount))] at hall
      refine ⟨fun hdrop ↦ ?_, fun htake ↦ ?_⟩
      · exact (List.perm_append_right_iff _).mp (((hdrop.symm.append_left _).trans hall))
      · exact (List.perm_append_left_iff _).mp ((htake.symm.append_right _).trans hall)
    constructor
    · intro hmerges tx' ptx' own' htx' hown' key amount
      rw [hget] at htx'
      rw [hown] at hown'
      cases htx'
      cases hown'
      exact (hleft key amount).mp ((hmerges.unspents key).filter _)
    · intro htakes
      refine ⟨fun tid' ↦ ?_, fun key ↦ perm_iff_amounts.mpr fun amount ↦ ?_,
        h.noEmptyList.eraseOutputs _, htallies⟩
      · rw [Table.get_erase, Table.get_erase]
        split_ifs
        · exact ⟨fun _ ↦ rfl, fun _ ↦ rfl⟩
        · exact h.transactions tid'
      · exact (hleft key amount).mpr (htakes tx ptx own hget hown key amount)

theorem empty : Merges {} ∅ where
  transactions _ := by rw [ExtTreeMap.getElem?_empty, ExtTreeMap.getElem?_empty]; simp
  unspents key := by
    rw [listed, ExtTreeMap.getElem?_empty]
    rfl
  noEmptyList key outs hget := by cases (ExtTreeMap.getElem?_empty).symm.trans hget
  usedKeyimages k := by
    rw [ExtTreeMap.getElem?_empty]
    rfl

end Merges

/-! ## Adding a transaction -/

/-- The outputs in the transfers to this wallet. -/
def ownOutputs (trs : List Api.Transfer) : List Api.Output :=
  (trs.filter (·.ours)).flatMap (·.outputs)

theorem ownOutputs_cons (tr : Api.Transfer) (trs : List Api.Transfer) :
    ownOutputs (tr :: trs) = (if tr.ours then tr.outputs else []) ++ ownOutputs trs := by
  rw [ownOutputs, List.filter_cons]
  split_ifs
  · exact List.flatMap_cons
  · rfl

private theorem addOutputs_walletState (d : DeltaState) (outs : List Api.Output) :
    addOutputs DeltaState.walletState d outs =
      .ok (outs.foldl DeltaState.addIncomingOutput d, outs) := by
  induction outs generalizing d with
  | nil => rfl
  | cons out outs ih =>
    rw [addOutputs, DeltaState.walletState, ok_bind]
    dsimp only
    rw [← DeltaState.walletState, ih]
    rfl

private theorem addTransfers_walletState (d : DeltaState) (trs : List Api.Transfer) :
    addTransfers DeltaState.walletState d trs =
      .ok ((ownOutputs trs).foldl DeltaState.addIncomingOutput d, trs) := by
  induction trs generalizing d with
  | nil => rfl
  | cons tr trs ih =>
    rw [addTransfers, ownOutputs_cons]
    split_ifs
    · rw [addOutputs_walletState, ok_bind]
      dsimp only
      rw [ih, ok_bind, List.foldl_append]
      rfl
    · rw [ok_bind]
      dsimp only
      rw [ih, ok_bind]
      rfl

private theorem addKeyimages_walletState (d : DeltaState) (blockHeight : Height)
    (outs : List Api.Output) : addKeyimages DeltaState.walletState d blockHeight outs = .ok d := by
  induction outs with
  | nil => rfl
  | cons out outs ih => exact ih

private theorem listed_addIncomingOutputs (d : DeltaState) (outs : List Api.Output) (key : PublicKey) :
    listed (outs.foldl DeltaState.addIncomingOutput d).unspents key =
      listed d.unspents key ++ outs.filter (·.publicKey = key) := by
  induction outs generalizing d with
  | nil => exact (List.append_nil _).symm
  | cons out outs ih =>
    rw [List.foldl_cons, ih, listed_addIncomingOutput, List.append_assoc, ← List.filter_append]
    rfl

private theorem NoEmptyList.addIncomingOutputs {d : DeltaState} (h : NoEmptyList d.unspents)
    (outs : List Api.Output) :
    NoEmptyList (outs.foldl DeltaState.addIncomingOutput d).unspents := by
  induction outs generalizing d with
  | nil => exact h
  | cons out outs ih => exact ih (h.addIncomingOutput out)

@[simp] theorem foldl_addIncomingOutput_transactions (d : DeltaState) (outs : List Api.Output) :
    (outs.foldl DeltaState.addIncomingOutput d).transactions = d.transactions := by
  induction outs generalizing d with
  | nil => rfl
  | cons out outs ih => exact ih _

@[simp] theorem foldl_addIncomingOutput_usedKeyimages (d : DeltaState) (outs : List Api.Output) :
    (outs.foldl DeltaState.addIncomingOutput d).usedKeyimages = d.usedKeyimages := by
  induction outs generalizing d with
  | nil => rfl
  | cons out outs ih => exact ih _

section Add

variable {env : WalletStateEnv} {keys : WalletKeys} {view : WalletStateView}
variable {tip : Api.BlockHeader} {tipHeight : Height} {tid : Hash} {tx : TransactionPrefix}
variable {d d' : DeltaState} {shares : Contributions}

/-- A transaction as it is parsed for the memory pool. -/
def parsePoolTransaction (env : WalletStateEnv) (keys : WalletKeys) (view : WalletStateView)
    (tipHeight : Height) (tid : Hash) (tx : TransactionPrefix) : Except Fault ParsedTransaction :=
  parseRawTransaction env keys view (.prepare env.crypto tx keys.viewSecretKey) tid
    (List.replicate tx.outputs.length 0) (tipHeight + 1)

@[simp] theorem prepare_tx (crypto : SpendCrypto) (tx : TransactionPrefix) (sk : SecretKey) :
    (PreparedWalletTransaction.prepare crypto tx sk).tx = tx := by
  rw [PreparedWalletTransaction.prepare]
  split <;> rfl

/-- What adding a transaction can do: nothing, when it is there already or when the wallet does not
recognise it, or else its contribution is merged in. -/
theorem addTransactionToMempool_cases
    (h : d.addTransactionToMempool env keys view tip tipHeight tid tx = .ok d') :
    d' = d ∧ ((d.transactions[tid]?).isSome ∨
        ∃ parsed, parsePoolTransaction env keys view tipHeight tid tx = .ok parsed ∧
          parsed.ourTransaction = false) ∨
      d.transactions[tid]? = none ∧
        ∃ parsed ptx, parsePoolTransaction env keys view tipHeight tid tx = .ok parsed ∧
          d' = { (ownOutputs parsed.ptx.transfers).foldl DeltaState.addIncomingOutput d with
            transactions := d.transactions.insert tid (tx, ptx)
            usedKeyimages := tx.keyInputs.foldl DeltaState.countKeyImage d.usedKeyimages } := by
  unfold DeltaState.addTransactionToMempool at h
  split_ifs at h with hsome
  · exact .inl ⟨(Except.ok.inj h).symm, .inl hsome⟩
  · obtain ⟨⟨d₁, ours⟩, hredo, h⟩ := bind_eq_ok.mp h
    obtain rfl := Except.ok.inj h
    obtain ⟨parsed, hparsed, hredo⟩ := bind_eq_ok.mp hredo
    cases hours : parsed.ourTransaction with
    | false =>
      rw [hours] at hredo
      cases hredo
      exact .inl ⟨rfl, .inr ⟨parsed, hparsed, hours⟩⟩
    | true =>
      rw [hours, Bool.not_true, if_neg Bool.false_ne_true, addTransfers_walletState, ok_bind] at hredo
      dsimp only at hredo
      rw [addKeyimages_walletState, ok_bind] at hredo
      obtain ⟨d₂, hadd, hredo⟩ := bind_eq_ok.mp hredo
      cases hredo
      obtain ⟨_, hensure, hadd⟩ := bind_eq_ok.mp hadd
      rw [foldl_addIncomingOutput_transactions] at hensure
      have hd := (Except.ok.inj hadd).symm
      rw [foldl_addIncomingOutput_transactions, foldl_addIncomingOutput_usedKeyimages,
        prepare_tx] at hd
      exact .inr ⟨ensure_eq_ok.mp hensure, parsed, _, hparsed, hd⟩

/-- A contribution that is merged in. -/
theorem Merges.add (h : Merges d shares) (htid : d.transactions[tid]? = none)
    (own : List Api.Output) (ptx : Api.Transaction) :
    Merges { own.foldl DeltaState.addIncomingOutput d with
        transactions := d.transactions.insert tid (tx, ptx)
        usedKeyimages := tx.keyInputs.foldl DeltaState.countKeyImage d.usedKeyimages }
      (shares.insert tid own) := by
  have hshare : shares[tid]? = none := (h.transactions tid).mpr htid
  refine ⟨fun tid' ↦ ?_, fun key ↦ ?_, h.noEmptyList.addIncomingOutputs own, ?_⟩
  · rw [Table.get_insert, Table.get_insert]
    split_ifs
    · simp
    · exact h.transactions tid'
  · have houtputs := Contributions.outputs_of_get (Table.get_insert_self shares tid own)
    rw [Table.erase_insert _ _ hshare] at houtputs
    rw [listed_addIncomingOutputs]
    refine (List.Perm.trans ?_ (houtputs.filter _).symm)
    rw [List.filter_append]
    exact (List.perm_append_comm.trans ((h.unspents key).append_left _))
  · set d₁ : DeltaState := { d with transactions := d.transactions.insert tid (tx, ptx) }
    have himages := DeltaState.keyImages_of_get (d := d₁) (Table.get_insert_self _ tid (tx, ptx))
    rw [Table.erase_insert _ _ htid] at himages
    exact (h.usedKeyimages.countAll tx.keyInputs).perm himages.symm

end Add

end CryoNero.WalletState
