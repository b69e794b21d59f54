import CryoNero.Wallet.Memory

/-!
# Runs of unconfirmed transactions

Transactions are added as they arrive, each against the database of that moment, and undone in any
order. What a transaction contributes is at most its own outputs. As long as the transactions that
are undone take out what they contributed, the state is the merge of the contributions of the
transactions in it (`unconfirmed_merge`); this is so in particular when no other transaction has
contributed an output with the same one-time key and amount (`takesOwn_of_unshared`). Two
transactions of one sender can share both, and then they take each other's entries.
-/

namespace CryoNero.WalletState

open Store Seria Std

/-! ## What a transaction contributes -/

section Contribution

variable (env : WalletStateEnv) (keys : WalletKeys) (view : WalletStateView)
variable (pwtx : PreparedWalletTransaction) (key : PublicKey) (amount : Amount)

/-- How many outputs of a transfer have a given one-time key and amount. -/
def alikeWeight (tr : Api.Transfer) : ℕ := (alike key amount tr.outputs).length

private theorem length_alike_append (l l' : List Api.Output) :
    (alike key amount (l ++ l')).length = (alike key amount l).length + (alike key amount l').length := by
  rw [alike_append, List.length_append]

private theorem length_alike_singleton (out : Api.Output) :
    (alike key amount [out]).length =
      if out.publicKey = key ∧ out.amount = amount then 1 else 0 := by
  by_cases hkey : out.publicKey = key <;> by_cases hamount : out.amount = amount <;>
    simp [alike, hkey, hamount]

theorem addOthers_ours (p : ParsedOutputs) (found : Api.Output) (outIndex : ℕ)
    (history : List AccountPublicAddress) :
    (p.addOthers env keys pwtx found outIndex history).ours = p.ours := by
  unfold ParsedOutputs.addOthers
  dsimp only
  induction history generalizing p with
  | nil => rfl
  | cons addr history ih =>
    rw [List.foldl_cons, ih]
    split_ifs <;> rfl

private theorem total_parseOutput_le (history : List AccountPublicAddress) (blockHeight : Height)
    (p : ParsedOutputs) (x : (TransactionOutput × PublicKey × UInt32) × ℕ) :
    Table.total (alikeWeight key amount)
        (p.parseOutput env keys view pwtx history blockHeight x).ours ≤
      Table.total (alikeWeight key amount) p.ours +
        if x.1.1.key = key ∧ x.1.1.amount = amount then 1 else 0 := by
  obtain ⟨⟨output, spendKey, globalIndex⟩, outIndex⟩ := x
  unfold ParsedOutputs.parseOutput
  dsimp only
  split
  · next record publicKey _ =>
    unfold ParsedOutputs.addOurs
    dsimp only
    -- the transfer before and after
    set address : AccountPublicAddress := ⟨spendKey, keys.viewPublicKey⟩
    set found := foundOutput pwtx.tx output globalIndex outIndex blockHeight
    have hinsert (v : Api.Transfer) (n : ℕ) (hv : alikeWeight key amount v =
        alikeWeight key amount (p.ours.transferTo env address) + n) :
        Table.total (alikeWeight key amount) (p.ours.insert address.key v) ≤
          Table.total (alikeWeight key amount) p.ours + n := by
      have htotal := Table.total_insert_getD (alikeWeight key amount) p.ours address.key v
        (d := ({} : Api.Transfer)) rfl
      have hold : alikeWeight key amount (p.ours.transferTo env address) =
        alikeWeight key amount ((p.ours[address.key]?).getD {}) := rfl
      omega
    split
    · refine hinsert _ _ ?_
      rw [alikeWeight, length_alike_append, length_alike_singleton]
      rfl
    · exact (hinsert _ 0 rfl).trans (Nat.add_le_add_left (Nat.zero_le _) _)
  · rw [addOthers_ours]
    exact Nat.le_add_right _ _

private theorem total_foldl_parseOutput_le (history : List AccountPublicAddress) (blockHeight : Height)
    (l : List ((TransactionOutput × PublicKey × UInt32) × ℕ)) (p : ParsedOutputs) :
    Table.total (alikeWeight key amount)
        (l.foldl (ParsedOutputs.parseOutput env keys view pwtx history blockHeight) p).ours ≤
      Table.total (alikeWeight key amount) p.ours +
        (l.map (·.1.1)).countP fun output ↦ output.key = key ∧ output.amount = amount := by
  induction l generalizing p with
  | nil => exact Nat.le_add_right _ _
  | cons x l ih =>
    rw [List.foldl_cons, List.map_cons, List.countP_cons]
    have hx := total_parseOutput_le env keys view pwtx key amount history blockHeight p x
    have hl := ih (p.parseOutput env keys view pwtx history blockHeight x)
    simp only [decide_eq_true_eq]
    omega

private theorem length_alike_ownOutputs_le (p : ParsedOutputs) (unlockTime : UnlockMoment) :
    (alike key amount (ownOutputs (p.transfers unlockTime))).length ≤
      Table.total (alikeWeight key amount) p.ours := by
  have hsum (trs : List Api.Transfer) : (alike key amount (trs.flatMap (·.outputs))).length =
      (trs.map (alikeWeight key amount)).sum := by
    induction trs with
    | nil => rfl
    | cons tr trs ih =>
      rw [List.flatMap_cons, length_alike_append, ih, List.map_cons, List.sum_cons]
      rfl
  have hothers : ((p.others.toList.map fun tm ↦ { tm.2 with
      locked := decide (unlockTime ≠ 0), ours := false }).filter (·.amount ≠ 0)).filter (·.ours) =
      [] := by
    refine List.filter_eq_nil_iff.mpr fun tr htr ↦ ?_
    obtain ⟨tm, -, rfl⟩ := List.mem_map.mp (List.mem_filter.mp htr).1
    exact Bool.false_ne_true
  rw [ownOutputs, ParsedOutputs.transfers, List.filter_append, hothers, List.nil_append, hsum]
  have hle (trs : List Api.Transfer) :
      (((trs.filter (·.amount ≠ 0)).filter (·.ours)).map (alikeWeight key amount)).sum ≤
        (trs.map (alikeWeight key amount)).sum :=
    ((List.filter_sublist.trans List.filter_sublist).map _).sum_le_sum fun _ _ ↦ Nat.zero_le _
  refine (hle _).trans (Nat.le_of_eq ?_)
  rw [List.map_map]
  rfl

private theorem map_fst_zip_sublist {α β : Type} (l : List α) (l' : List β) :
    ((l.zip l').zipIdx.map (·.1.1)).Sublist l := by
  have hmap : (l.zip l').zipIdx.map (·.1.1) = (l.zip l').map Prod.fst := by
    conv_rhs => rw [← List.zipIdx_map_fst 0 (l.zip l'), List.map_map]
    rfl
  rw [hmap]
  clear hmap
  induction l generalizing l' with
  | nil => exact List.Sublist.refl _
  | cons x l ih =>
    cases l' with
    | nil => exact List.nil_sublist _
    | cons y l' => exact (ih l').cons_cons x

/-- **A transaction contributes at most its own outputs.** -/
private theorem length_contribution_le {tipHeight : Height} {tid : Hash} {tx : TransactionPrefix}
    {parsed : ParsedTransaction}
    (h : parsePoolTransaction env keys view tipHeight tid tx = .ok parsed) :
    (alike key amount (ownOutputs parsed.ptx.transfers)).length ≤ countAlike tx key amount := by
  unfold parsePoolTransaction parseRawTransaction at h
  dsimp only at h
  split_ifs at h with hlength hderivation
  · cases h
    exact Nat.zero_le _
  · cases h
    exact Nat.zero_le _
  · obtain ⟨inputs, -, h⟩ := bind_eq_ok.mp h
    obtain rfl := Except.ok.inj h
    refine (length_alike_ownOutputs_le key amount _ _).trans
      ((total_foldl_parseOutput_le env keys view _ key amount _ _ _ _).trans ?_)
    rw [Table.total_empty, Nat.zero_add, prepare_tx]
    exact (map_fst_zip_sublist _ _).countP_le

end Contribution

/-! ## Runs -/

/-- The unconfirmed transactions, and beside them what each of them contributed. -/
structure MemoryState where
  delta : DeltaState := {}
  shares : Contributions := ∅

inductive MemoryStep
  | addTransactionToMempool (keys : WalletKeys) (view : WalletStateView) (tip : Api.BlockHeader)
      (tipHeight : Height) (tid : Hash) (tx : TransactionPrefix)
  | undoTransaction (tid : Hash)

namespace MemoryState

variable (env : WalletStateEnv)

/-- A transaction that is new in the state contributes what was recognised in it. -/
def step (s : MemoryState) : MemoryStep → Except Fault MemoryState
  | .addTransactionToMempool keys view tip tipHeight tid tx => do
    let delta ← s.delta.addTransactionToMempool env keys view tip tipHeight tid tx
    if s.delta.transactions[tid]? = none ∧ delta.transactions[tid]? ≠ none then
      let parsed ← parsePoolTransaction env keys view tipHeight tid tx
      return ⟨delta, s.shares.insert tid (ownOutputs parsed.ptx.transfers)⟩
    else return ⟨delta, s.shares⟩
  | .undoTransaction tid => do
    let delta ← s.delta.undoTransaction tid
    return ⟨delta, s.shares.erase tid⟩

/-- A transaction is undone only when this takes out what it contributed. -/
def Undoable (s : MemoryState) : MemoryStep → Prop
  | .addTransactionToMempool .. => True
  | .undoTransaction tid => TakesOwn s.delta s.shares tid

/-- The states of the runs that undo only such transactions. -/
abbrev Reachable : MemoryState → Prop := Reaches (step env) Undoable (· = {})

/-- The contribution of a transaction is no more than its outputs. -/
def Bounded (s : MemoryState) : Prop :=
  ∀ (tid : Hash) (tx : TransactionPrefix) (ptx : Api.Transaction) (own : List Api.Output),
    s.delta.transactions[tid]? = some (tx, ptx) → s.shares[tid]? = some own →
      ∀ key amount, (alike key amount own).length ≤ countAlike tx key amount

variable {env} {s s' : MemoryState}

private theorem step_add_cases {keys : WalletKeys} {view : WalletStateView} {tip : Api.BlockHeader}
    {tipHeight : Height} {tid : Hash} {tx : TransactionPrefix}
    (h : s.step env (.addTransactionToMempool keys view tip tipHeight tid tx) = .ok s') :
    s' = s ∨ s.delta.transactions[tid]? = none ∧ ∃ parsed ptx,
      parsePoolTransaction env keys view tipHeight tid tx = .ok parsed ∧
        s'.delta = { (ownOutputs parsed.ptx.transfers).foldl DeltaState.addIncomingOutput s.delta with
          transactions := s.delta.transactions.insert tid (tx, ptx)
          usedKeyimages := tx.keyInputs.foldl DeltaState.countKeyImage s.delta.usedKeyimages } ∧
        s'.shares = s.shares.insert tid (ownOutputs parsed.ptx.transfers) := by
  obtain ⟨delta, hadd, h⟩ := bind_eq_ok.mp h
  rcases addTransactionToMempool_cases hadd with ⟨rfl, -⟩ | ⟨hnone, parsed, ptx, hparsed, rfl⟩
  · rw [if_neg fun hnew ↦ hnew.2 hnew.1] at h
    exact .inl (Except.ok.inj h).symm
  · have hnew : (s.delta.transactions.insert tid (tx, ptx))[tid]? ≠ none := by
      rw [Table.get_insert_self]
      exact Option.some_ne_none _
    rw [if_pos ⟨hnone, hnew⟩, hparsed, ok_bind] at h
    obtain rfl := Except.ok.inj h
    exact .inr ⟨hnone, parsed, ptx, hparsed, rfl, rfl⟩

/-- **Step lemma.** -/
private theorem step_merges {i : MemoryStep} (h : Merges s.delta s.shares) (hi : s.Undoable i)
    (hstep : s.step env i = .ok s') : Merges s'.delta s'.shares := by
  cases i with
  | addTransactionToMempool keys view tip tipHeight tid tx =>
    rcases step_add_cases hstep with rfl | ⟨hnone, parsed, ptx, -, hdelta, hshares⟩
    · exact h
    · rw [hdelta, hshares]
      exact h.add hnone _ _
  | undoTransaction tid =>
    obtain ⟨d', hundo, hiff⟩ := h.undo_iff tid
    obtain ⟨delta, hdelta, hstep⟩ := bind_eq_ok.mp hstep
    rw [hundo] at hdelta
    obtain rfl := Except.ok.inj hdelta
    obtain rfl := Except.ok.inj hstep
    exact hiff.mpr hi

/-- **Run lemma.** -/
theorem merges_of_reachable (h : Reachable env s) : Merges s.delta s.shares := by
  refine h.invariant (I := fun s ↦ Merges s.delta s.shares) ?_ ?_
  · rintro s rfl
    exact Merges.empty
  · intro s i s' _ hs hi hstep
    exact step_merges hs hi hstep

theorem transactions_of_undo {d d' : DeltaState} {tid : Hash}
    (h : d.undoTransaction tid = .ok d') : d'.transactions = d.transactions.erase tid := by
  unfold DeltaState.undoTransaction at h
  split at h
  · next hnone =>
    obtain rfl := Except.ok.inj h
    exact (Table.erase_of_get_eq_none hnone).symm
  · obtain ⟨used, -, h⟩ := bind_eq_ok.mp h
    obtain rfl := Except.ok.inj h
    rfl

private theorem step_bounded {i : MemoryStep} (h : s.Bounded) (hstep : s.step env i = .ok s') :
    s'.Bounded := by
  cases i with
  | addTransactionToMempool keys view tip tipHeight tid tx =>
    rcases step_add_cases hstep with rfl | ⟨hnone, parsed, ptx, hparsed, hdelta, hshares⟩
    · exact h
    · intro tid' tx' ptx' own' htx' hown' key amount
      rw [hdelta, Table.get_insert] at htx'
      rw [hshares, Table.get_insert] at hown'
      split_ifs at htx' hown'
      · cases htx'
        cases hown'
        exact length_contribution_le env keys view key amount hparsed
      · exact h tid' tx' ptx' own' htx' hown' key amount
  | undoTransaction tid =>
    obtain ⟨delta, hdelta, hstep⟩ := bind_eq_ok.mp hstep
    obtain rfl := Except.ok.inj hstep
    intro tid' tx' ptx' own' htx' hown' key amount
    rw [transactions_of_undo hdelta, Table.get_erase] at htx'
    rw [Table.get_erase] at hown'
    split_ifs at htx' hown'
    exact h tid' tx' ptx' own' htx' hown' key amount

private theorem bounded_of_reachable (h : Reachable env s) : s.Bounded := by
  refine h.invariant (I := Bounded) ?_ fun s i s' _ hs _ hstep ↦ step_bounded hs hstep
  rintro s rfl tid tx ptx own htx
  cases (ExtTreeMap.getElem?_empty).symm.trans htx

/-- A transaction can be undone when no other one has contributed an output with the one-time key
and the amount of an output of its own. -/
private theorem takesOwn_of_unshared (h : Reachable env s) {tid : Hash}
    (hunshared : ∀ tx ptx, s.delta.transactions[tid]? = some (tx, ptx) →
      ∀ out ∈ Contributions.outputs (s.shares.erase tid),
        countAlike tx out.publicKey out.amount = 0) : TakesOwn s.delta s.shares tid := by
  intro tx ptx own htx hown key amount
  have hall := (merges_of_reachable h).alike_perm hown key amount
  have hbound := bounded_of_reachable h tid tx ptx own htx hown key amount
  by_cases hzero : countAlike tx key amount = 0
  · rw [hzero, Nat.le_zero, List.length_eq_zero_iff] at hbound
    rw [hzero, hbound]
    exact List.Perm.refl _
  · have hothers : alike key amount (Contributions.outputs (s.shares.erase tid)) = [] := by
      refine List.filter_eq_nil_iff.mpr fun out hout hamount ↦ hzero ?_
      obtain ⟨hmem, hkey⟩ := List.mem_filter.mp hout
      have hcount := hunshared tx ptx htx out hmem
      rwa [of_decide_eq_true hkey, of_decide_eq_true hamount] at hcount
    rw [hothers, List.append_nil] at hall
    rw [List.take_of_length_le (hall.length_eq.trans_le hbound)]
    exact hall

end MemoryState

/-- **The unconfirmed transactions.** In every run in which a transaction is undone only when this
takes out what it contributed, the state is at each point the merge of the contributions of the
transactions in it. Undoing never fails, and it keeps the merge exactly under this condition. -/
theorem unconfirmed_merge {env : WalletStateEnv} {s : MemoryState}
    (h : MemoryState.Reachable env s) :
    Merges s.delta s.shares ∧ ∀ tid, ∃ d', s.delta.undoTransaction tid = .ok d' ∧
      (Merges d' (s.shares.erase tid) ↔ TakesOwn s.delta s.shares tid) :=
  ⟨MemoryState.merges_of_reachable h, (MemoryState.merges_of_reachable h).undo_iff⟩

/-! ## A sample -/

/-- A group in which every key is its own public key. -/
def sampleSpendCrypto : SpendCrypto where
  cnFastHash := blobOfBytes 256
  cnSlowHash := blobOfBytes 256
  cnLiteSlowHashV1 := blobOfBytes 256
  keyIsvalid _ := true
  checkRingSignature _ _ _ _ := .valid
  generateKeyDerivation key sk := some (key + sk)
  derivePublicKey derivation i base := some (base + derivation + BitVec.ofNat 256 i)
  underivePublicKey derivation i key := some (key - derivation - BitVec.ofNat 256 i)
  deriveSecretKey derivation i base := base + derivation + BitVec.ofNat 256 i
  generateKeyImage key sk := key + sk
  hashToScalar := blobOfBytes 256

def sampleStateEnv : WalletStateEnv where
  crypto := sampleSpendCrypto
  currency := ⟨false, [], 0⟩
  accountAddressAsString _ := "address"

/-- A wallet with the view key 100 and the spend key 7. -/
def sampleKeys : WalletKeys where
  viewPublicKey := 100
  viewSecretKey := 100
  txDerivationSeed := 0
  walletRecords := (∅ : Table PublicKey WalletRecord).insert 7 ⟨7, 7, 0⟩
  loadHistory _ := []

/-- A payment of 5 to the sample wallet under the transaction key `txKey`. -/
def sampleReceipt (txKey : BitVec 256) (unlockTime : UnlockMoment) : TransactionPrefix where
  version := 1
  unlockTime := unlockTime
  inputs := [.keyInput { amount := 6, outputIndexes := [0], keyImage := unlockTime.toBitVec.zeroExtend 256 }]
  outputs := [{ amount := 5, target := .keyOutput { key := 107 + txKey } }]
  extra := addTransactionPublicKeyToExtra [] txKey

/-- The arrival of a transaction at a wallet with an empty database. -/
def sampleArrival (tid : Hash) (tx : TransactionPrefix) : MemoryStep :=
  .addTransactionToMempool sampleKeys ⟨fun out ↦ some out.amount, fun _ ↦ .ok none⟩ {} 0 tid tx

/-- Two payments to different keys; the first one is undone, and what is left is the second one. -/
theorem unconfirmed_merge_sample : ∃ s, MemoryState.Reachable sampleStateEnv s ∧
    (s.shares[(1 : Hash)]?).map List.length = some 1 ∧ (s.shares[(2 : Hash)]?).map List.length = some 1 ∧
      ∃ d', s.delta.undoTransaction 1 = .ok d' ∧ Merges d' (s.shares.erase 1) := by
  obtain ⟨s₁, hs₁, s, hs, hfirst, hsecond, hapart⟩ : ∃ s₁ ∈ (MemoryState.step sampleStateEnv {}
      (sampleArrival 1 (sampleReceipt 1 0))).toOption,
      ∃ s ∈ (MemoryState.step sampleStateEnv s₁ (sampleArrival 2 (sampleReceipt 2 10))).toOption,
        (s.shares[(1 : Hash)]?).map List.length = some 1 ∧
        (s.shares[(2 : Hash)]?).map List.length = some 1 ∧
        ∀ p ∈ s.delta.transactions[(1 : Hash)]?, ∀ out ∈ Contributions.outputs (s.shares.erase 1),
          countAlike p.1 out.publicKey out.amount = 0 := by
    decide +kernel
  have hreach₁ : MemoryState.Reachable sampleStateEnv s₁ :=
    .next (.start rfl) (show MemoryState.Undoable {} (sampleArrival 1 (sampleReceipt 1 0)) from
      trivial) (toOption_eq_some.mp hs₁)
  have hreach : MemoryState.Reachable sampleStateEnv s :=
    .next hreach₁ (show MemoryState.Undoable s₁ (sampleArrival 2 (sampleReceipt 2 10)) from
      trivial) (toOption_eq_some.mp hs)
  obtain ⟨d', hundo, hiff⟩ := (unconfirmed_merge hreach).2 1
  exact ⟨s, hreach, hfirst, hsecond, d', hundo, hiff.mpr (MemoryState.takesOwn_of_unshared hreach
    fun tx ptx htx ↦ hapart (tx, ptx) htx)⟩

/-- Two transactions of one sender pay 5 to the same one-time key, the second one locked up to height
10. When the second one is undone, the entry of the first one is taken out. -/
theorem undo_takes_another : ∃ s ∈ (([sampleArrival 1 (sampleReceipt 1 0),
      sampleArrival 2 (sampleReceipt 1 10), .undoTransaction 2].foldlM
        (MemoryState.step sampleStateEnv) {}).toOption),
    (listed s.delta.unspents 108).map (·.unlockTime) = [10] ∧
      (Contributions.outputs s.shares).map (·.unlockTime) = [0] ∧ ¬Merges s.delta s.shares := by
  obtain ⟨s, hs, hlisted, hshares⟩ : ∃ s ∈ (([sampleArrival 1 (sampleReceipt 1 0),
        sampleArrival 2 (sampleReceipt 1 10), .undoTransaction 2].foldlM
          (MemoryState.step sampleStateEnv) {}).toOption),
      (listed s.delta.unspents 108).map (·.unlockTime) = [10] ∧
        (Contributions.outputs s.shares).map (·.unlockTime) = [0] := by
    decide +kernel
  refine ⟨s, hs, hlisted, hshares, fun hmerges ↦ ?_⟩
  have hmem : (10 : UnlockMoment) ∈ (listed s.delta.unspents 108).map (·.unlockTime) := by
    rw [hlisted]
    exact List.mem_singleton_self _
  obtain ⟨out, hout, hunlock⟩ := List.mem_map.mp hmem
  have hother := List.mem_map_of_mem (f := (·.unlockTime))
    (List.mem_filter.mp ((hmerges.unspents 108).mem_iff.mp hout)).1
  rw [hshares, hunlock] at hother
  exact absurd hother (by decide)

end CryoNero.WalletState
