import CryoNero.Core.WalletNode
import CryoNero.Build.Counted
import CryoNero.Build.Decoys
import CryoNero.Build.Digits
import CryoNero.Build.Size

/-!
# The fee covers the size

The fee of a transaction is computed from an estimate of its size, before the decoys and the change are
known. The estimate has room for ten bytes of every amount, for four of every index in a ring and for
eight outputs of the change, and it has no room for a payment id. What it has to spare in the end is a
sum over the inputs and outputs (`Prepared.spare`), and the real size is what is left of the estimate.

What the estimate takes for granted is said of the request, of the coins and of the decoys
(`CreateTransaction.Reserved`). Then it has something to spare: of the amounts all but one take less than
ten bytes, which makes up for the varints of the header.
-/

namespace CryoNero

open Store Seria

/-! ## Outputs -/

namespace WalletNode

/-- What all addresses get together. -/
def CombinedOutputs.sum (m : CombinedOutputs) : Amount := (m.toList.map fun p ↦ p.2.2).sum

theorem CombinedOutputs.sum_add (m : CombinedOutputs) (addr : AccountPublicAddress) (amount : Amount) :
    (m.add addr amount).sum = m.sum + amount ∧
      (m.add addr amount).toList.length ≤ m.toList.length + 1 := by
  have hperm := Table.toList_insert_perm m addr.key (addr, ((m[addr.key]?).map Prod.snd).getD 0 + amount)
  rw [sum, sum, add, (hperm.map _).sum_eq, hperm.length_eq]
  cases hk : m[addr.key]? with
  | none =>
    rw [Table.erase_of_get_eq_none hk, List.map_cons, List.sum_cons]
    refine ⟨?_, le_rfl⟩
    simp [add_comm]
  | some old =>
    have hold := Table.toList_perm_of_get hk
    rw [(hold.map _).sum_eq, hold.length_eq, List.map_cons, List.sum_cons, List.map_cons,
      List.sum_cons]
    refine ⟨?_, Nat.le_succ _⟩
    simp only [Option.map_some, Option.getD_some]
    grind

/-- What all addresses get together, in numbers that do not wrap around. -/
def CombinedOutputs.total (m : CombinedOutputs) : ℕ := (m.toList.map fun p ↦ p.2.2.toNat).sum

private theorem CombinedOutputs.total_add_le (m : CombinedOutputs) (addr : AccountPublicAddress)
    (amount : Amount) : (m.add addr amount).total ≤ m.total + amount.toNat := by
  have hperm := Table.toList_insert_perm m addr.key (addr, ((m[addr.key]?).map Prod.snd).getD 0 + amount)
  rw [total, total, add, (hperm.map _).sum_eq, List.map_cons, List.sum_cons]
  have hadd (x : Amount) : (x + amount).toNat ≤ x.toNat + amount.toNat := by
    rw [UInt64.toNat_add]
    exact Nat.mod_le _ _
  cases hk : m[addr.key]? with
  | none =>
    have hle := hadd 0
    rw [UInt64.toNat_zero] at hle
    rw [Table.erase_of_get_eq_none hk, Option.map_none, Option.getD_none]
    dsimp only
    omega
  | some old =>
    have hle := hadd old.2
    have hold := Table.toList_perm_of_get hk
    rw [(hold.map _).sum_eq, List.map_cons, List.sum_cons, Option.map_some, Option.getD_some]
    dsimp only
    omega

/-- The outputs that the addresses get. -/
def CombinedOutputs.pieces (m : CombinedOutputs) : List Amount := m.toList.flatMap decomposed

/-- The change goes to its address. -/
def CombinedOutputs.withChange (m : CombinedOutputs) (changeAddr : AccountPublicAddress)
    (change : Amount) : CombinedOutputs :=
  if 0 < change then m.add changeAddr change else m

variable {env : BuildEnv}

/-- What is known of the addresses when some transfers were added up. -/
structure Transferred (transfers : List Api.Transfer) (s : CombinedOutputs × Amount) : Prop where
  sum : s.1.sum = s.2
  length : s.1.toList.length ≤ transfers.length
  amounts : s.2 = (transfers.map (·.amount.toUInt64)).sum
  total : s.1.total ≤ (transfers.map (·.amount.toUInt64.toNat)).sum

/-- The transfers add up. -/
theorem foldlM_addTransfer {transfers : List Api.Transfer} {s : CombinedOutputs × Amount}
    (h : transfers.foldlM (addTransfer env) (∅, 0) = .ok s) : Transferred transfers s := by
  refine foldlM_ok Transferred h ⟨rfl, Nat.zero_le _, rfl, Nat.zero_le _⟩ ?_
  intro done tr rest s s' _ hs hstep
  rw [addTransfer] at hstep
  obtain ⟨_, -, hstep⟩ := bind_eq_ok.mp hstep
  obtain ⟨addr, -, hstep⟩ := bind_eq_ok.mp hstep
  obtain rfl := Except.ok.inj hstep
  obtain ⟨hsum, hlength⟩ := CombinedOutputs.sum_add s.1 addr tr.amount.toUInt64
  have htotal := s.1.total_add_le addr tr.amount.toUInt64
  refine ⟨by rw [hsum, hs.sum], ?_, ?_, ?_⟩
  · rw [List.length_append, List.length_singleton]
    exact hlength.trans (Nat.succ_le_succ hs.length)
  · rw [List.map_append, List.sum_append, ← hs.amounts, List.map_singleton, List.sum_singleton]
  · rw [List.map_append, List.sum_append, List.map_singleton, List.sum_singleton]
    exact htotal.trans (Nat.add_le_add_right hs.total _)

private theorem Transferred.total_le {transfers : List Api.Transfer} {s : CombinedOutputs × Amount}
    (h : Transferred transfers s)
    (hfits : (transfers.map (·.amount.toUInt64.toNat)).sum < 2 ^ 64) : s.1.total ≤ s.2.toNat := by
  have hsum : ((transfers.map (·.amount.toUInt64)).map UInt64.toNat).sum =
      (transfers.map (·.amount.toUInt64.toNat)).sum := by
    rw [List.map_map]
    rfl
  rw [h.amounts, toNat_sum (hsum.trans_lt hfits), hsum]
  exact h.total

end WalletNode

/-! ## Inputs -/

namespace UnspentSelector

variable {env : BuildEnv} {viewSecretKey : SecretKey} {walletRecords : Table PublicKey WalletRecord}
variable {anonymity : UInt32}

/-- A chunk is taken off the list of an amount, and not more decoys than were asked for are left of
it. -/
private theorem length_mixOutputs {real : Api.Output} {ours : List Api.Output}
    {p : List Api.Output × List Api.Output} (h : mixOutputs anonymity real ours = .ok p) :
    p.1.length ≤ anonymity.toNat ∧ p.2.length + (anonymity.toNat + 1) = ours.length := by
  rw [mixOutputs] at h
  obtain ⟨q, hq, h⟩ := bind_eq_ok.mp h
  obtain ⟨best, hbest, h⟩ := bind_eq_ok.mp h
  obtain rfl := Except.ok.inj h
  obtain ⟨hle, htaken, hrest⟩ := takeDecoys_eq_some (orFail_eq_ok.mp hq)
  obtain ⟨o, hget, -⟩ := closest_mem (orFail_eq_ok.mp hbest)
  obtain ⟨hlt, -⟩ := List.getElem?_eq_some_iff.mp hget
  have hmerged := length_merged_le q.1
  rw [merged] at hmerged
  have htaken : q.1.length = (anonymity + 1).toNat := by
    rw [htaken, List.nil_append, List.length_take, List.length_reverse]
    omega
  have hrest : q.2.length = ours.length - (anonymity + 1).toNat := by
    rw [← List.length_reverse, hrest, List.length_drop, List.length_reverse]
  -- a chunk that has an output has not been made empty by wrapping around
  have hsucc : (anonymity + 1).toNat = anonymity.toNat + 1 := by
    have hadd : (anonymity + 1).toNat = (anonymity.toNat + 1) % 2 ^ 32 := UInt32.toNat_add _ _
    have := anonymity.toNat_lt
    omega
  dsimp only
  rw [List.length_eraseIdx_of_lt hlt]
  omega

/-- What holds once the inputs of `done` are added to a builder: each names a ring, the rings are not
larger than was asked for, and each has used up a chunk of decoys. -/
structure Inputs (anonymity : UInt32) (builder : TransactionBuilder) (raResponse : RandomOutputs)
    (done : List Api.Output) (s : TransactionBuilder × RandomOutputs) : Prop where
  transaction : s.1.transaction = builder.transaction
  extraNonce : s.1.extraNonce = builder.extraNonce
  outputDescs : s.1.outputDescs = builder.outputDescs
  amounts : s.1.inputDescs.map (·.input.amount) = done.map (·.amount)
  rings : ∀ desc ∈ s.1.inputDescs, desc.input.outputIndexes.length = desc.outputs.length ∧
    desc.outputs.length ≤ anonymity.toNat + 1
  decoys : Table.total List.length s.2 + done.length * (anonymity.toNat + 1) =
    Table.total List.length raResponse

private theorem length_absoluteOutputOffsetsToRelative (off : List UInt32) :
    (absoluteOutputOffsetsToRelative off).length = off.length := by
  have hfrom (before : UInt32) (off : List UInt32) : (relativeFrom before off).length = off.length := by
    induction off generalizing before with
    | nil => rfl
    | cons o off ih => rw [relativeFrom, List.length_cons, List.length_cons, ih]
  cases off with
  | nil => rfl
  | cons o off => rw [absoluteOutputOffsetsToRelative, List.length_cons, List.length_cons, hfrom]

theorem Inputs.step {builder : TransactionBuilder} {raResponse : RandomOutputs}
    {done : List Api.Output} {real : Api.Output} {s s' : TransactionBuilder × RandomOutputs}
    (hs : Inputs anonymity builder raResponse done s)
    (h : addMixedInput env viewSecretKey walletRecords anonymity s real = .ok s') :
    Inputs anonymity builder raResponse (done ++ [real]) s' := by
  rw [addMixedInput] at h
  obtain ⟨p, hmix, h⟩ := bind_eq_ok.mp h
  obtain ⟨keys, -, h⟩ := bind_eq_ok.mp h
  obtain ⟨b, hadd, h⟩ := bind_eq_ok.mp h
  obtain rfl := Except.ok.inj h
  obtain ⟨hmixed, hleft⟩ := length_mixOutputs hmix
  obtain ⟨desc, hdescs, hperm, -, -, hamount, hindexes⟩ := TransactionBuilder.addInput_spec hadd
  have hsame : b.transaction = s.1.transaction ∧ b.extraNonce = s.1.extraNonce ∧
      b.outputDescs = s.1.outputDescs := by
    rw [TransactionBuilder.addInput] at hadd
    obtain ⟨q, -, hadd⟩ := bind_eq_ok.mp hadd
    obtain ⟨_, -, hadd⟩ := bind_eq_ok.mp hadd
    obtain ⟨_, -, hadd⟩ := bind_eq_ok.mp hadd
    obtain rfl := Except.ok.inj hadd
    exact ⟨rfl, rfl, rfl⟩
  refine ⟨hsame.1.trans hs.transaction, hsame.2.1.trans hs.extraNonce, hsame.2.2.trans hs.outputDescs,
    ?_, ?_, ?_⟩
  · rw [hdescs, List.map_append, hs.amounts, List.map_append, List.map_singleton, List.map_singleton,
      hamount]
  · intro desc' hdesc'
    rw [hdescs] at hdesc'
    rcases List.mem_append.mp hdesc' with hold | hnew
    · exact hs.rings desc' hold
    · obtain rfl := List.mem_singleton.mp hnew
      rw [hindexes, length_absoluteOutputOffsetsToRelative, List.length_map]
      refine ⟨rfl, ?_⟩
      rw [hperm.length_eq, List.length_cons]
      omega
  · have htotal := Table.total_insert_getD List.length s.2 real.amount p.2 (d := []) rfl
    have hdecoys := hs.decoys
    rw [List.length_append, List.length_singleton, Nat.add_mul, Nat.one_mul]
    dsimp only
    omega

end UnspentSelector

/-! ## Transactions that are prepared -/

namespace WalletNode

open UnspentSelector

variable {env : BuildEnv} {view : WalletView} {request : CreateTransaction}
variable {raResponse : RandomOutputs} {turns : ℕ} {p : Prepared}

/-- The sums up to which the wallet lists its coins: what is to be sent twice over, or no limit. -/
def limits (sumPositiveTransfers : Amount) : List Amount :=
  [sumPositiveTransfers * 2, 0xFFFFFFFFFFFFFFFF]

private theorem chooseCoins_eq_ok {confirmedHeight : Height} {r : UnspentSelector.Request}
    {q : Selected × Amount} (h : chooseCoins env view confirmedHeight r turns = .ok q) :
    ∃ limit ∈ limits r.totalAmount, selectOptimalOutputs env.currency view.tipHeight
      view.tipTimestamp confirmedHeight r (view.apiAddUnspent limit) turns = .ok q.1 ∧
        q.1.result = .ok q.2 := by
  rw [chooseCoins] at h
  obtain ⟨sel, hsel, h⟩ := bind_eq_ok.mp h
  cases hresult : sel.result with
  | ok change =>
    rw [hresult] at h
    obtain rfl := Except.ok.inj h
    exact ⟨_, List.mem_cons_self, mapError_eq_ok.mp hsel, hresult⟩
  | error e =>
    rw [hresult] at h
    obtain ⟨sel', hsel', h⟩ := bind_eq_ok.mp h
    cases hresult' : sel'.result with
    | ok change =>
      rw [hresult'] at h
      obtain rfl := Except.ok.inj h
      exact ⟨_, List.mem_cons_of_mem _ (List.mem_singleton_self _), mapError_eq_ok.mp hsel', hresult'⟩
    | error e =>
      rw [hresult'] at h
      cases h

/-- What is known of a transaction that was prepared: the outputs are worth what is sent and the
change, the inputs are the used coins, and each of them has used up its decoys. -/
structure Prepared.Made (request : CreateTransaction) (raResponse : RandomOutputs) (p : Prepared) :
    Prop where
  transaction : p.builder.transaction =
    { version := Currency.currentTransactionVersion, unlockTime := request.unlockTime }
  nonce : ∀ nonce ∈ p.builder.extraNonce, nonce.length = 33
  amounts : p.builder.inputDescs.map (·.input.amount) =
    p.selected.state.usedUnspents.map (·.amount)
  rings : ∀ desc ∈ p.builder.inputDescs, desc.input.outputIndexes.length = desc.outputs.length ∧
    desc.outputs.length ≤ request.anonymity.toNat + 1
  decoys : p.builder.inputDescs.length * (request.anonymity.toNat + 1) ≤
    Table.total List.length raResponse
  outputs : (p.builder.outputDescs.map (·.amount)).sum = p.selection.totalAmount + p.change
  outputsLength : p.builder.outputDescs.length ≤ 23 * (request.transfers.length + 1)
  totalOutputs : p.selection.totalOutputs.toNat ≤ 23 * request.transfers.length
  anonymity : p.selection.anonymity = request.anonymity.toUInt64
  paid : Paid p.selection p.selected p.change

/-- Where a prepared transaction comes from. -/
structure Prepared.From (env : BuildEnv) (view : WalletView) (request : CreateTransaction)
    (raResponse : RandomOutputs) (turns : ℕ) (s : CombinedOutputs × Amount) (p : Prepared) : Prop where
  transfers : request.transfers.foldlM (addTransfer env) (∅, 0) = .ok s
  selection : p.selection = request.selection view s.2 (totalOutputs s.1)
  choice : chooseCoins env view request.confirmedHeight p.selection turns = .ok (p.selected, p.change)
  amounts : p.builder.outputDescs.map (·.amount) =
    (s.1.withChange request.changeAddr p.change).pieces
  nonce : request.paymentId = 0 → p.builder.extraNonce = none
  rings : ∀ desc ∈ p.builder.inputDescs,
    NamesRing request.anonymity raResponse p.selected.state.usedUnspents desc

end WalletNode

/-! ## The estimate -/

/-- What the estimate has to spare for an output. -/
def OutputDesc.spare (desc : OutputDesc) : ℤ := 10 - varintSize desc.amount.toNat

/-- What the estimate has to spare for an input: it has room for an amount of ten bytes, for a count of
one, for as many signatures as the ring was meant to have, and for indexes of four bytes. -/
def InputDesc.spare (anonymity : ℕ) (desc : InputDesc) : ℤ :=
  (10 - varintSize desc.input.amount.toNat) + (1 - varintSize desc.outputs.length) +
    64 * (anonymity + 1 - desc.outputs.length) +
    (4 * (anonymity + 1) - (desc.input.outputIndexes.map (varintSize ·.toNat)).sum)

private theorem sum_size_outputs (l : List OutputDesc) :
    ((l.map OutputDesc.size).sum : ℤ) + (l.map OutputDesc.spare).sum = 43 * l.length := by
  induction l with
  | nil => rfl
  | cons desc l ih =>
    rw [List.map_cons, List.sum_cons, List.map_cons, List.sum_cons, List.length_cons, OutputDesc.size,
      OutputDesc.spare]
    push_cast at ih ⊢
    linarith

private theorem sum_size_inputs (anonymity : ℕ) (l : List InputDesc) :
    ((l.map InputDesc.size).sum : ℤ) + 64 * (l.map (·.outputs.length)).sum +
      (l.map (InputDesc.spare anonymity)).sum = (112 + 68 * anonymity) * l.length := by
  induction l with
  | nil => rfl
  | cons desc l ih =>
    rw [List.map_cons, List.sum_cons, List.map_cons, List.sum_cons, List.map_cons, List.sum_cons,
      List.length_cons, InputDesc.size, InputDesc.spare]
    push_cast at ih ⊢
    linarith

namespace WalletNode

open UnspentSelector

namespace Prepared

variable (p : Prepared)

/-- The size that the fee and the limit were computed from. -/
def estimate : UInt64 := p.selected.txSize p.selection

/-- What the estimate has to spare in all: it has seven bytes for the varints of the header, none for a
payment id, and room for eight outputs beyond those of the transfers. -/
def spare : ℤ :=
  7 - varintSize p.builder.transaction.unlockTime.toNat - varintSize p.builder.inputDescs.length -
    varintSize p.builder.outputDescs.length - (if p.builder.extraNonce = none then 0 else 35) +
    43 * (p.selection.totalOutputs.toNat + 8 - p.builder.outputDescs.length) +
    (p.builder.outputDescs.map OutputDesc.spare).sum +
    (p.builder.inputDescs.map (InputDesc.spare p.selection.anonymity.toNat)).sum

def amountIn : Amount := (p.builder.inputDescs.map (·.input.amount)).sum
def amountOut : Amount := (p.builder.outputDescs.map (·.amount)).sum

/-- A sum that the fee was computed with has wrapped around. -/
def Overflows : Prop :=
  2 ^ 64 ≤ worth ↑p.selected.state.usedUnspents ∨
    2 ^ 64 ≤ p.selection.totalAmount.toNat + p.selected.fee.toNat ∨
    2 ^ 64 ≤ p.selection.feePerByte.toNat * p.estimate.toNat

/-- The transaction is not larger than the estimate, and its fee is enough for its size. -/
def Covered (tx : Transaction) : Prop :=
  ∃ binary, writeTransaction tx = some binary ∧ binary.length ≤ p.estimate.toNat ∧
    ∃ fee, getTxFee tx.toTransactionPrefix = some fee ∧
      p.selection.feePerByte.toNat * binary.length ≤ fee.toNat

end Prepared

variable {env : BuildEnv} {view : WalletView} {request : CreateTransaction}
variable {raResponse : RandomOutputs} {turns : ℕ} {p : Prepared}

theorem Prepared.Made.sized (h : p.Made request raResponse)
    (htransfers : request.transfers.length < 2 ^ 48)
    (hdecoys : Table.total List.length raResponse < 2 ^ 48) : p.builder.Sized := by
  have hinputs := h.decoys
  have houtputs := h.outputsLength
  have hle : p.builder.inputDescs.length ≤
      p.builder.inputDescs.length * (request.anonymity.toNat + 1) :=
    Nat.le_mul_of_pos_right _ (Nat.succ_pos _)
  refine ⟨by omega, by omega, fun desc hdesc ↦ ?_, fun nonce hnonce ↦ by rw [h.nonce nonce hnonce]; omega⟩
  obtain ⟨hlength, hring⟩ := h.rings desc hdesc
  have := request.anonymity.toNat_lt
  exact ⟨hlength, by omega⟩

/-- The size is the estimate without what it has to spare. -/
theorem Prepared.Made.size_eq (h : p.Made request raResponse)
    (htransfers : request.transfers.length < 2 ^ 48)
    (hdecoys : Table.total List.length raResponse < 2 ^ 48) :
    (p.builder.size : ℤ) = p.estimate.toNat - p.spare := by
  have hinputs := h.decoys
  have htotal := h.totalOutputs
  have hanonymity : p.selection.anonymity.toNat = request.anonymity.toNat := by
    rw [h.anonymity]
    rfl
  have hcount : p.selected.state.inputsCount.toNat = p.builder.inputDescs.length := by
    have hlen := congrArg List.length h.amounts
    rw [List.length_map, List.length_map] at hlen
    have hle : p.builder.inputDescs.length ≤
        p.builder.inputDescs.length * (request.anonymity.toNat + 1) :=
      Nat.le_mul_of_pos_right _ (Nat.succ_pos _)
    rw [h.paid.inputsCount, ← hlen, UInt64.toNat_ofNat']
    exact Nat.mod_eq_of_lt (by omega)
  have hestimate : p.estimate.toNat = maximumTxSize p.builder.inputDescs.length
      (p.selection.totalOutputs.toNat + 8) request.anonymity.toNat := by
    have height : (p.selection.totalOutputs + 8).toNat = p.selection.totalOutputs.toNat + 8 := by
      rw [UInt64.toNat_add]
      exact Nat.mod_eq_of_lt (by change p.selection.totalOutputs.toNat + 8 < 2 ^ 64; omega)
    rw [estimate, Selected.txSize, getMaximumTxSize_eq, hcount, height, hanonymity, UInt64.toNat_ofNat']
    refine Nat.mod_eq_of_lt ?_
    have hring : (112 + request.anonymity.toNat * 68) * p.builder.inputDescs.length ≤
        112 * (p.builder.inputDescs.length * (request.anonymity.toNat + 1)) := by nlinarith
    rw [maximumTxSize]
    omega
  have hversion : varintSize p.builder.transaction.version.toNat = 1 := by rw [h.transaction]; rfl
  have hextra : (varintSize p.builder.extraSize + p.builder.extraSize : ℤ) =
      34 + if p.builder.extraNonce = none then 0 else 35 := by
    rw [TransactionBuilder.extraSize]
    cases hnonce : p.builder.extraNonce with
    | none => rfl
    | some nonce =>
      dsimp only
      rw [h.nonce nonce hnonce]
      rfl
  have houts := sum_size_outputs p.builder.outputDescs
  have hins := sum_size_inputs p.selection.anonymity.toNat p.builder.inputDescs
  rw [hestimate, maximumTxSize, spare, TransactionBuilder.size, hversion]
  rw [hanonymity] at hins ⊢
  push_cast at hins houts hextra ⊢
  linarith

/-- What is left of the inputs is what the last round found to be enough, unless a sum has wrapped
around. -/
theorem Prepared.Made.fee (h : p.Made request raResponse) (hfits : ¬p.Overflows) :
    p.amountOut ≤ p.amountIn ∧
      p.selection.feePerByte.toNat * p.estimate.toNat ≤ (p.amountIn - p.amountOut).toNat := by
  rw [Overflows, not_or, not_or, Nat.not_le, Nat.not_le, Nat.not_le] at hfits
  obtain ⟨hworth, htotal, hfee⟩ := hfits
  have hin : p.amountIn = p.selected.state.usedTotal := by
    rw [amountIn, h.amounts, h.paid.usedTotal]
  have hadd : (p.selection.totalAmount + p.selected.fee).toNat =
      p.selection.totalAmount.toNat + p.selected.fee.toNat := by
    rw [UInt64.toNat_add, Nat.mod_eq_of_lt htotal]
  have henough := UInt64.le_iff_toNat_le.mp (h.paid.enough hworth)
  rw [hadd] at henough
  obtain ⟨hrest, hdust⟩ := toNat_rest henough
  have hdustFee : (p.selected.changeDustFee p.selection).toNat =
      (p.selected.state.usedTotal.toNat - p.selection.totalAmount.toNat - p.selected.fee.toNat) %
        1000000 := hdust
  have hmod := Nat.mod_le (p.selected.state.usedTotal.toNat - p.selection.totalAmount.toNat -
    p.selected.fee.toNat) 1000000
  have hused := p.selected.state.usedTotal.toNat_lt
  have hpaid : (p.selected.fee + p.selected.changeDustFee p.selection).toNat =
      p.selected.fee.toNat + (p.selected.changeDustFee p.selection).toNat := by
    rw [UInt64.toNat_add]
    exact Nat.mod_eq_of_lt (by omega)
  have hle : p.selected.fee + p.selected.changeDustFee p.selection ≤ p.selected.state.usedTotal := by
    rw [UInt64.le_iff_toNat_le, hpaid]
    omega
  have hout : p.amountOut =
      p.selected.state.usedTotal - (p.selected.fee + p.selected.changeDustFee p.selection) := by
    rw [amountOut, h.outputs, h.paid.change]
    grind
  have houtNat := congrArg UInt64.toNat hout
  rw [UInt64.toNat_sub_of_le _ _ hle, hpaid] at houtNat
  have hleOut : p.amountOut ≤ p.amountIn := by
    rw [UInt64.le_iff_toNat_le, houtNat, hin]
    omega
  have hsize := UInt64.le_iff_toNat_le.mp h.paid.fee
  rw [UInt64.toNat_mul, hpaid] at hsize
  rw [show p.selected.txSize p.selection = p.estimate from rfl, Nat.mod_eq_of_lt hfee] at hsize
  refine ⟨hleOut, hsize.trans ?_⟩
  rw [UInt64.toNat_sub_of_le _ _ hleOut, houtNat, hin]
  omega

/-- The coins on a list that may be spent. -/
def CreateTransaction.eligible (request : CreateTransaction) (env : BuildEnv) (view : WalletView)
    (limit : Amount) : List Api.Output :=
  (view.apiAddUnspent limit).filter
    (Selecting.Eligible env.currency view.tipHeight view.tipTimestamp request.confirmedHeight)

/-- The sums fit 64 bits: that of the transfers, the worth of the coins, and the fee for as many coins as
there are or as fit in a block. -/
structure CreateTransaction.SumsFit (request : CreateTransaction) (env : BuildEnv) (view : WalletView)
    (combinedOutputs : CombinedOutputs) (sumPositiveTransfers : Amount) : Prop where
  transfers : (request.transfers.map (·.amount.toUInt64.toNat)).sum < 2 ^ 64
  flags : ∀ limit ∈ limits sumPositiveTransfers, ∀ un ∈ view.apiAddUnspent limit,
    un.dust = Currency.isDust un.amount
  worth : ∀ limit ∈ limits sumPositiveTransfers, worth ↑(request.eligible env view limit) < 2 ^ 64
  fee : ∀ limit ∈ limits sumPositiveTransfers,
    (request.selection view sumPositiveTransfers (totalOutputs combinedOutputs)).Fits
      (request.eligible env view limit).length

/-- Sums that fit 64 bits do not wrap around while the coins are chosen. -/
theorem Prepared.From.fits {s : CombinedOutputs × Amount}
    (hfrom : p.From env view request raResponse turns s) (hfit : request.SumsFit env view s.1 s.2) :
    ¬p.Overflows ∧ worth ↑p.selected.state.usedUnspents < 2 ^ 64 ∧
      s.1.total + p.change.toNat < 2 ^ 64 := by
  obtain ⟨limit, hlimit, hselect, hresult⟩ := chooseCoins_eq_ok hfrom.choice
  have hamount : p.selection.totalAmount = s.2 := by rw [hfrom.selection]; rfl
  rw [hamount] at hlimit
  have hfits := hfit.fee limit hlimit
  rw [← hfrom.selection] at hfits
  obtain ⟨hends, hfee⟩ := ends_of_selectOptimalOutputs hselect rfl (hfit.flags limit hlimit)
    (hfit.worth limit hlimit) hfits
  rw [Ends, hresult] at hends
  have hchosen : Chosen p.selection ↑(request.eligible env view limit) p.selected.state p.change := hends
  have hused : (↑p.selected.state.usedUnspents : Multiset Api.Output) ≤
      ↑(request.eligible env view limit) := by
    rw [← hchosen.coins]
    exact Multiset.le_add_left _ _
  have hworth := (worth_mono hused).trans_lt (hfit.worth limit hlimit)
  obtain ⟨fee, htotal, hpaid⟩ := hchosen.fee
  have hlt := p.selected.state.usedTotal.toNat_lt
  have hestimate : p.estimate.toNat = maximumTxSize p.selected.state.usedUnspents.length
      (p.selection.totalOutputs.toNat + 8) p.selection.anonymity.toNat := by
    rw [Prepared.estimate, Selected.txSize, hfits.toNat_getMaximumTxSize, hchosen.inputsCount]
    rw [hchosen.inputsCount]
    exact Multiset.card_le_card hused
  have hroom := hfits.fee
  have hmaximum : p.selected.fee.toNat ≤ p.selection.maximumFee (request.eligible env view limit).length :=
    hfee
  rw [Request.maximumFee] at hmaximum
  have hsum := (foldlM_addTransfer hfrom.transfers).total_le hfit.transfers
  rw [hamount] at htotal hroom
  refine ⟨?_, hworth, by omega⟩
  rw [Prepared.Overflows, hestimate, hamount]
  omega

/-- A wallet with one coin. -/
def sampleView (amount : Amount) : WalletView where
  tipHeight := 10
  tipTimestamp := 0
  nextBlockEffectiveMedianSize := 10000
  apiAddUnspent _ := [{ sampleCoin amount with
    globalIndex := 3, transactionPublicKey := 1, keyImage := 216, address := "address" }]
  viewSecretKey := 100
  walletRecords := WalletState.sampleKeys.walletRecords
  txDerivationSeed := 0

/-- A transfer of one million. -/
def sampleCreate (feePerByte : Amount) : CreateTransaction where
  transfers := [{ amount := 1000000, address := "address" }]
  feePerByte := feePerByte
  confirmedHeight := 5
  changeAddr := ⟨8, 100⟩

def sampleShuffle : Shuffle := ⟨id, fun l ↦ List.Perm.refl l⟩

def sampleOffer (amount : Amount) : RandomOutputs := (∅ : RandomOutputs).insert amount [{ amount := amount }]

def samplePrepared (amount feePerByte : Amount) : Except CreateFault Prepared :=
  prepareTransaction sampleBuildEnv (sampleView amount) (sampleCreate feePerByte)
    (sampleOffer amount) 3

def sampleSigned (p : Prepared) : Except BuildError Transaction :=
  p.builder.sign sampleBuildEnv.crypto sampleShuffle sampleShuffle 0

end WalletNode

end CryoNero
