import CryoNero.Core.WalletQueue
import CryoNero.Store.Totals
import CryoNero.Wallet.Unconfirmed

/-!
# A wallet and the pool of its node

Every transaction without a block that a wallet counts in is in the pool of its node, as far as the wallet
knows, or is one that the wallet itself is sending (`Accounted`). Transactions that the node has dropped
do not stay behind, whatever the node answers and whatever blocks come or are taken back.

When the node answers the hashes that a wallet has, then afterwards the wallet has the hashes of the pool
of the node (`Reachable.mempool_agrees`). For this the hashes have to be sent in their order, since the node
looks for each transaction of its pool by a binary search.
-/

namespace CryoNero.WalletState.Unconfirmed

open Store Seria Std

/-! ## Runs -/

inductive Op
  | syncWithMempool (m : Moment) (resp : Api.SyncMemPool.Response)
  | redoTransaction (tid : Hash)
  | addToPaymentQueue (m : Moment) (binaryTransaction : Bytes)
  | processPaymentQueueSendError (m : Moment) (hash : Hash) (code : ℤ) (conflictHeight : Height)
  | fixPaymentQueueAfterUndoRedo (m : Moment)

variable (env : WalletStateEnv)

def step (w : Unconfirmed) : Op → Except Fault Unconfirmed
  | .syncWithMempool m resp => w.syncWithMempool env m resp
  | .redoTransaction tid => w.redoTransaction tid
  | .addToPaymentQueue m binaryTransaction => w.addToPaymentQueue env m binaryTransaction
  | .processPaymentQueueSendError m hash code conflictHeight =>
    w.processPaymentQueueSendError env m hash code conflictHeight
  | .fixPaymentQueueAfterUndoRedo m => w.fixPaymentQueueAfterUndoRedo env m

abbrev Reachable : Unconfirmed → Prop := Reaches (step env) (fun _ _ ↦ True) (· = {})

/-- The wallet has a reason to count a transaction in. -/
def Expects (w : Unconfirmed) (tid : Hash) : Prop :=
  (w.poolHashes[tid]?).isSome = true ∨ w.isSending tid = true

/-- All transactions that are counted in are expected. -/
def Accounted (w : Unconfirmed) : Prop :=
  ∀ k, (w.memoryState.transactions[k]?).isSome = true → w.Expects k

/-- All but for one. -/
def AccountedBut (tid : Hash) (w : Unconfirmed) : Prop :=
  ∀ k, k ≠ tid → (w.memoryState.transactions[k]?).isSome = true → w.Expects k

variable {env} {m : Moment} {w w' : Unconfirmed} {tid : Hash}

/-! ## Single transactions -/

theorem addTransactionToMempool_eq_ok {tx : TransactionPrefix}
    (h : w.addTransactionToMempool env m tid tx = .ok w') :
    ∃ d, w' = { w with memoryState := d } ∧ ∀ k, (d.transactions[k]?).isSome = true →
      k = tid ∨ (w.memoryState.transactions[k]?).isSome = true := by
  obtain ⟨d, hadd, h⟩ := bind_eq_ok.mp h
  refine ⟨d, (Except.ok.inj h).symm, fun k hk ↦ ?_⟩
  rcases addTransactionToMempool_cases hadd with ⟨rfl, -⟩ | ⟨-, parsed, ptx, -, rfl⟩
  · exact .inr hk
  · rw [Table.get_insert] at hk
    split_ifs at hk with heq
    · exact .inl heq.symm
    · exact .inr hk

theorem undoTransaction_eq_ok (h : w.undoTransaction tid = .ok w') :
    ∃ d, w' = { w with memoryState := d } ∧ d.transactions = w.memoryState.transactions.erase tid := by
  obtain ⟨d, hundo, h⟩ := bind_eq_ok.mp h
  exact ⟨d, (Except.ok.inj h).symm, MemoryState.transactions_of_undo hundo⟩

theorem AccountedBut.add {tx : TransactionPrefix} (h : AccountedBut tid w) (hexpects : w.Expects tid)
    (hok : w.addTransactionToMempool env m tid tx = .ok w') : w'.Accounted := by
  obtain ⟨d, rfl, hd⟩ := addTransactionToMempool_eq_ok hok
  intro k hk
  by_cases heq : k = tid
  · rw [heq]
    exact hexpects
  · exact h k heq ((hd k hk).resolve_left heq)

theorem AccountedBut.undo (h : AccountedBut tid w) (hok : w.undoTransaction tid = .ok w') :
    w'.Accounted := by
  obtain ⟨d, rfl, hd⟩ := undoTransaction_eq_ok hok
  intro k hk
  rw [hd, Table.get_erase] at hk
  split_ifs at hk with heq
  · cases hk
  · exact h k (Ne.symm heq) hk

theorem AccountedBut.remove (h : AccountedBut tid w)
    (hok : w.removeTransactionFromMempool tid = .ok w') : w'.Accounted := by
  unfold removeTransactionFromMempool at hok
  by_cases hexpects : w.Expects tid
  · have hsame : w = w' := by
      rcases hexpects with hpool | hsending
      · rw [if_pos hpool] at hok
        exact Except.ok.inj hok
      · rw [if_pos hsending, ite_self] at hok
        exact Except.ok.inj hok
    rw [← hsame]
    intro k hk
    by_cases heq : k = tid
    · rwa [heq]
    · exact h k heq hk
  · rw [if_neg fun hpool ↦ hexpects (.inl hpool), if_neg fun hsending ↦ hexpects (.inr hsending)] at hok
    exact h.undo hok

/-- A change at one hash leaves all other transactions accounted for. -/
theorem Accounted.but (h : w.Accounted) (hmemory : w'.memoryState = w.memoryState)
    (hpool : ∀ k, k ≠ tid → w'.poolHashes[k]? = w.poolHashes[k]?)
    (hqueue : ∀ k, k ≠ tid → w'.paymentQueue[k]? = w.paymentQueue[k]?) : AccountedBut tid w' := by
  intro k hk hcounted
  rw [hmemory] at hcounted
  refine (h k hcounted).imp (fun hknown ↦ ?_) fun hsending ↦ ?_
  · rwa [hpool k hk]
  · unfold isSending findInPaymentQueue at hsending ⊢
    rwa [hqueue k hk]

theorem Accounted.enqueue (h : w.Accounted) (entry : QueueEntry) :
    AccountedBut tid (w.enqueue tid entry) :=
  h.but rfl (fun _ _ ↦ rfl) fun _ hk ↦ Table.get_insert_of_ne _ _ hk.symm

private theorem isSending_enqueue (binaryTransaction : Bytes) :
    (w.enqueue tid ⟨binaryTransaction, 0⟩).isSending tid = true := by
  unfold isSending findInPaymentQueue Unconfirmed.enqueue
  rw [Table.get_insert_self]
  rfl

/-! ## Step lemmas -/

theorem Accounted.erasePoolHash (h : w.Accounted) (hok : w.erasePoolHash tid = .ok w') : w'.Accounted := by
  unfold Unconfirmed.erasePoolHash at hok
  split_ifs at hok
  · have hbut : AccountedBut tid { w with poolHashes := w.poolHashes.erase tid } :=
      h.but rfl (fun k hk ↦ Table.get_erase_of_ne _ hk.symm) fun _ _ ↦ rfl
    exact hbut.remove hok
  · cases hok
    exact h

theorem Accounted.insertPoolHash {resp : Api.SyncMemPool.Response} {added : TransactionPrefix × ℕ}
    (h : w.Accounted) (hok : w.insertPoolHash env m resp added = .ok w') : w'.Accounted := by
  obtain ⟨announced, -, hok⟩ := bind_eq_ok.mp hok
  have hbut : AccountedBut announced.hash
      { w with poolHashes := w.poolHashes.insert announced.hash () } :=
    h.but rfl (fun k hk ↦ Table.get_insert_of_ne _ _ hk.symm) fun _ _ ↦ rfl
  refine hbut.add (.inl ?_) hok
  rw [Table.get_insert_self]
  rfl

theorem Accounted.foldlM {α : Type} {f : Unconfirmed → α → Except Fault Unconfirmed} {l : List α}
    (hstep : ∀ t x t', t.Accounted → f t x = .ok t' → t'.Accounted) (h : w.Accounted)
    (hok : l.foldlM f w = .ok w') : w'.Accounted :=
  foldlM_ok (fun _ t ↦ t.Accounted) hok h fun _ x _ t t' _ ht hx ↦ hstep t x t' ht hx

theorem Accounted.syncWithMempool {resp : Api.SyncMemPool.Response} (h : w.Accounted)
    (hok : w.syncWithMempool env m resp = .ok w') : w'.Accounted := by
  obtain ⟨w₁, herase, hok⟩ := bind_eq_ok.mp hok
  have h₁ : w₁.Accounted := .foldlM (fun _ _ _ ht hstep ↦ ht.erasePoolHash hstep) h herase
  exact .foldlM (fun _ _ _ ht hstep ↦ ht.insertPoolHash hstep) h₁ hok

theorem Accounted.redoTransaction (h : w.Accounted) (hok : w.redoTransaction tid = .ok w') :
    w'.Accounted := by
  obtain ⟨w₁, herase, hok⟩ := bind_eq_ok.mp hok
  exact ((h.erasePoolHash herase).but rfl (fun _ _ ↦ rfl) fun _ _ ↦ rfl).undo hok

theorem Accounted.addToPaymentQueue {binaryTransaction : Bytes} (h : w.Accounted)
    (hok : w.addToPaymentQueue env m binaryTransaction = .ok w') : w'.Accounted := by
  obtain ⟨tx, -, hok⟩ := bind_eq_ok.mp hok
  obtain ⟨tid, -, hok⟩ := bind_eq_ok.mp hok
  split_ifs at hok with hfound
  · cases hok
    exact h
  · split at hok
    · cases hok
      -- the transaction is in a block, and nothing is counted in
      intro k hk
      by_cases heq : k = tid
      · refine (h k hk).imp id fun hsending ↦ ?_
        obtain ⟨entry, hentry, -⟩ := (Option.any_eq_true _ _).mp hsending
        rw [heq] at hentry
        rw [hentry] at hfound
        exact absurd rfl hfound
      · exact h.enqueue _ k heq hk
    · exact (h.enqueue _).add (.inr (isSending_enqueue _)) hok

theorem Accounted.processPaymentQueueSendError {code : ℤ} {conflictHeight : Height} (h : w.Accounted)
    (hok : w.processPaymentQueueSendError env m tid code conflictHeight = .ok w') : w'.Accounted := by
  unfold Unconfirmed.processPaymentQueueSendError at hok
  split_ifs at hok
  · have hbut : AccountedBut tid { w with paymentQueue := w.paymentQueue.erase tid } :=
      h.but rfl (fun _ _ ↦ rfl) fun k hk ↦ Table.get_erase_of_ne _ hk.symm
    exact hbut.remove hok
  · cases hok
    exact h
  · cases hok
    exact h

theorem Accounted.removedFromBc (h : w.Accounted) (hok : w.removedFromBc env m tid = .ok w') :
    w'.Accounted := by
  unfold Unconfirmed.removedFromBc at hok
  split at hok
  · cases hok
    exact h
  · obtain ⟨tx, -, hok⟩ := bind_eq_ok.mp hok
    exact (h.enqueue _).add (.inr (isSending_enqueue _)) hok

theorem Accounted.addedToBc (h : w.Accounted) (hok : w.addedToBc env m tid = .ok w') :
    w'.Accounted := by
  unfold Unconfirmed.addedToBc at hok
  split at hok
  · exact (h.enqueue _).remove hok
  · cases hok
    exact h

theorem Accounted.fixPaymentQueueAfterUndoRedo (h : w.Accounted)
    (hok : w.fixPaymentQueueAfterUndoRedo env m = .ok w') : w'.Accounted := by
  obtain ⟨w₁, hremoved, hok⟩ := bind_eq_ok.mp hok
  obtain ⟨w₂, hadded, hok⟩ := bind_eq_ok.mp hok
  have h₁ : w₁.Accounted := .foldlM (fun _ _ _ ht hstep ↦ ht.removedFromBc hstep) h hremoved
  have h₂ : w₂.Accounted := .foldlM (fun _ _ _ ht hstep ↦ ht.addedToBc hstep) h₁ hadded
  cases hok
  intro k hk
  refine (h₂ k hk).imp id fun hsending ↦ ?_
  -- what is given up is in a block
  unfold isSending findInPaymentQueue at hsending ⊢
  obtain ⟨entry, hentry, hnot⟩ := (Option.any_eq_true _ _).mp hsending
  refine (Option.any_eq_true _ _).mpr ⟨entry, ?_, hnot⟩
  have hzero : entry.removeHeight = 0 := by simpa [QueueEntry.inBlockchain] using hnot
  rw [ExtTreeMap.getElem?_filter', hentry]
  simp [hzero]

/-- **Step lemma.** -/
theorem Accounted.step {op : Op} (h : w.Accounted) (hok : w.step env op = .ok w') : w'.Accounted := by
  cases op with
  | syncWithMempool m resp => exact h.syncWithMempool hok
  | redoTransaction tid => exact h.redoTransaction hok
  | addToPaymentQueue m binaryTransaction => exact h.addToPaymentQueue hok
  | processPaymentQueueSendError m hash code conflictHeight => exact h.processPaymentQueueSendError hok
  | fixPaymentQueueAfterUndoRedo m => exact h.fixPaymentQueueAfterUndoRedo hok

/-- **Run lemma.** -/
private theorem Reachable.accounted (h : Reachable env w) : w.Accounted := by
  refine Reaches.invariant (I := Accounted) ?_ (fun _ _ _ _ hw _ hok ↦ hw.step hok) h
  rintro w rfl tid htid
  rw [show (({} : Unconfirmed).memoryState.transactions[tid]?) = none from ExtTreeMap.getElem?_empty] at htid
  cases htid

/-! ## The exchange -/

private theorem erasePoolHash_poolHashes (h : w.erasePoolHash tid = .ok w') :
    w'.poolHashes = w.poolHashes.erase tid := by
  unfold Unconfirmed.erasePoolHash at h
  split_ifs at h with hknown
  · unfold removeTransactionFromMempool at h
    split_ifs at h
    · cases h
      rfl
    · cases h
      rfl
    · obtain ⟨d, rfl, -⟩ := undoTransaction_eq_ok h
      rfl
  · cases h
    exact (Table.erase_of_get_eq_none (Option.not_isSome_iff_eq_none.mp hknown)).symm

private theorem insertPoolHash_poolHashes {resp : Api.SyncMemPool.Response} {added : TransactionPrefix × ℕ}
    (h : w.insertPoolHash env m resp added = .ok w') : ∃ announced : Api.Transaction,
      resp.addedTransactions[added.2]? = some announced ∧
        w'.poolHashes = w.poolHashes.insert announced.hash () := by
  obtain ⟨announced, hannounced, h⟩ := bind_eq_ok.mp h
  obtain ⟨d, rfl, -⟩ := addTransactionToMempool_eq_ok h
  exact ⟨announced, orFail_eq_ok.mp hannounced, rfl⟩

private theorem syncWithMempool_poolHashes {resp : Api.SyncMemPool.Response}
    (hlength : resp.addedRawTransactions.length = resp.addedTransactions.length)
    (h : w.syncWithMempool env m resp = .ok w') (k : Hash) :
    (w'.poolHashes[k]?).isSome = true ↔
      (w.poolHashes[k]?).isSome = true ∧ k ∉ resp.removedHashes ∨
        k ∈ resp.addedTransactions.map (·.hash) := by
  obtain ⟨w₁, herase, h⟩ := bind_eq_ok.mp h
  have h₁ : (w₁.poolHashes[k]?).isSome = true ↔
      (w.poolHashes[k]?).isSome = true ∧ k ∉ resp.removedHashes := by
    refine foldlM_ok (fun done t ↦ (t.poolHashes[k]?).isSome = true ↔
      (w.poolHashes[k]?).isSome = true ∧ k ∉ done) herase (by simp) ?_
    intro done tid rest t t' _ ht hstep
    rw [erasePoolHash_poolHashes hstep, Table.get_erase, List.mem_append, List.mem_singleton, not_or,
      ← and_assoc, ← ht]
    split_ifs with heq
    · simp [heq]
    · simp [Ne.symm heq]
  have h₂ := foldlM_ok (fun done t ↦ (t.poolHashes[k]?).isSome = true ↔
    (w₁.poolHashes[k]?).isSome = true ∨ k ∈ (resp.addedTransactions.take done.length).map (·.hash)) h
      (by simp) ?_
  · rw [h₂, h₁, List.length_zipIdx, hlength, List.take_length]
  · intro done added rest t t' hl ht hstep
    obtain ⟨announced, hannounced, hhashes⟩ := insertPoolHash_poolHashes hstep
    -- the transaction after those that are done has their number
    have hplace : added.2 = done.length := by
      have hget : (resp.addedRawTransactions.zipIdx)[done.length]? = some added := by
        rw [hl, List.getElem?_append_right (Nat.le_refl _), Nat.sub_self]
        rfl
      rw [List.getElem?_zipIdx] at hget
      obtain ⟨tx, -, rfl⟩ := Option.map_eq_some_iff.mp hget
      exact Nat.zero_add _
    rw [hplace] at hannounced
    rw [hhashes, Table.get_insert, List.length_append, List.length_singleton, List.take_add_one,
      hannounced, Option.toList_some, List.map_append, List.mem_append, ← or_assoc, ← ht]
    split_ifs with heq
    · simp [heq]
    · simp [Ne.symm heq]

private theorem pairwise_getTxPoolHashes (w : Unconfirmed) :
    w.getTxPoolHashes.Pairwise (compare · · = .lt) :=
  List.pairwise_map.mpr ExtTreeMap.ordered_keys_toList

private theorem mem_getTxPoolHashes {k : Hash} :
    k ∈ w.getTxPoolHashes ↔ (w.poolHashes[k]?).isSome = true := by
  rw [getTxPoolHashes, List.mem_map, Option.isSome_iff_exists]
  constructor
  · rintro ⟨⟨k, ⟨⟩⟩, hmem, rfl⟩
    exact ⟨(), Table.mem_toList.mp hmem⟩
  · rintro ⟨⟨⟩, hk⟩
    exact ⟨(k, ()), Table.mem_toList.mpr hk, rfl⟩

private theorem onSyncMempool3_eq (pool : Pool) (w : Unconfirmed) :
    ∃ resp : Api.SyncMemPool.Response, pool.onSyncMempool3 ⟨w.getTxPoolHashes⟩ = .ok resp ∧
      resp.addedRawTransactions.length = resp.addedTransactions.length ∧
      (∀ k, k ∈ resp.removedHashes ↔ k ∈ w.getTxPoolHashes ∧ (pool.stateTx[k]?).isNone = true) ∧
      ∀ k, k ∈ resp.addedTransactions.map (·.hash) ↔
        (pool.stateTx[k]?).isSome = true ∧ k ∉ w.getTxPoolHashes := by
  have hadded := filterM_eq (l := pool.stateTx.toList) (p := fun tx ↦ !decide (tx.1 ∈ w.getTxPoolHashes))
    (f := fun tx ↦ do
      let known ← binarySearch w.getTxPoolHashes tx.1
      return !known) fun tx _ ↦ by
    rw [binarySearch_eq (pairwise_getTxPoolHashes w), ok_bind]
    rfl
  refine ⟨_, by rw [Pool.onSyncMempool3, hadded]; rfl, ?_, fun k ↦ ?_, fun k ↦ ?_⟩
  · rw [List.length_map, List.length_map]
  · exact List.mem_filter
  · rw [List.map_map, List.mem_map, Option.isSome_iff_exists]
    constructor
    · rintro ⟨⟨k, entry⟩, hmem, rfl⟩
      obtain ⟨hmem, hnew⟩ := List.mem_filter.mp hmem
      exact ⟨⟨entry, Table.mem_toList.mp hmem⟩, by simpa [PoolTransaction.announced] using hnew⟩
    · rintro ⟨⟨entry, hentry⟩, hnew⟩
      exact ⟨(k, entry), List.mem_filter.mpr ⟨Table.mem_toList.mpr hentry, by simpa using hnew⟩, rfl⟩

/-- **A wallet agrees with its node.** The node answers every wallet, and when the wallet has processed the
answer, its hashes are those of the pool of the node, and every transaction without a block that it counts
in is in the pool of the node or is one that the wallet is sending. -/
theorem Reachable.mempool_agrees (h : Reachable env w) (pool : Pool) :
    ∃ resp, pool.onSyncMempool3 ⟨w.getTxPoolHashes⟩ = .ok resp ∧
      ∀ (m : Moment) (w' : Unconfirmed), w.syncWithMempool env m resp = .ok w' →
        (∀ k : Hash, (w'.poolHashes[k]?).isSome = true ↔ (pool.stateTx[k]?).isSome = true) ∧
        ∀ k : Hash, (w'.memoryState.transactions[k]?).isSome = true →
          (pool.stateTx[k]?).isSome = true ∨ w'.isSending k = true := by
  obtain ⟨resp, hresp, hlength, hremoved, hadded⟩ := onSyncMempool3_eq pool w
  refine ⟨resp, hresp, fun m w' hsync ↦ ?_⟩
  have hsame : ∀ k : Hash, (w'.poolHashes[k]?).isSome = true ↔ (pool.stateTx[k]?).isSome = true := by
    intro k
    rw [syncWithMempool_poolHashes hlength hsync, hremoved, hadded, mem_getTxPoolHashes]
    cases pool.stateTx[k]? <;> cases w.poolHashes[k]? <;> simp
  exact ⟨hsame, fun k hk ↦ (h.accounted.syncWithMempool hsync k hk).imp_left (hsame k).mp⟩

/-! ## A sample -/

def sampleMoment : Moment where
  keys := sampleKeys
  view := ⟨fun out ↦ some out.amount, fun _ ↦ .ok none⟩
  tip := {}
  tipHeight := 0
  getTransaction _ := none

/-- A pool with payments to the sample wallet. -/
def samplePool (tids : List Hash) : Pool where
  stateTx := tids.foldl (fun t tid ↦ t.insert tid ⟨⟨sampleReceipt tid 0, []⟩, [], 0⟩) ∅

/-- The bytes of a payment that the wallet sends to itself. -/
def samplePayment (txKey : BitVec 256) : Bytes :=
  (writeTransaction ⟨sampleReceipt txKey 0, [[txKey.zeroExtend 512]]⟩).getD []

/-- A transaction leaves the pool of the node, and another one is new in it. -/
theorem mempool_agrees_sample : ∃ w w' : Unconfirmed, Reachable sampleStateEnv w ∧
    (w.memoryState.transactions.toList.map Prod.fst).length = 3 ∧
      (w'.memoryState.transactions.toList.map Prod.fst).length = 3 ∧
      (∀ k : Hash, (w'.poolHashes[k]?).isSome = true ↔ ((samplePool [2, 3]).stateTx[k]?).isSome = true) ∧
      ∀ k : Hash, (w'.memoryState.transactions[k]?).isSome = true →
        ((samplePool [2, 3]).stateTx[k]?).isSome = true ∨ w'.isSending k = true := by
  obtain ⟨w₁, hw₁, resp₁, -, w, hw, resp, hresp, w', hw', hcount, hcount'⟩ :
      ∃ w₁ ∈ (step sampleStateEnv {} (.addToPaymentQueue sampleMoment (samplePayment 9))).toOption,
      ∃ resp₁ ∈ ((samplePool [1, 2]).onSyncMempool3 ⟨w₁.getTxPoolHashes⟩).toOption,
      ∃ w ∈ (w₁.step sampleStateEnv (.syncWithMempool sampleMoment resp₁)).toOption,
      ∃ resp ∈ ((samplePool [2, 3]).onSyncMempool3 ⟨w.getTxPoolHashes⟩).toOption,
      ∃ w' ∈ (w.syncWithMempool sampleStateEnv sampleMoment resp).toOption,
        (w.memoryState.transactions.toList.map Prod.fst).length = 3 ∧
          (w'.memoryState.transactions.toList.map Prod.fst).length = 3 := by
    decide +kernel
  have hreach : Reachable sampleStateEnv w :=
    .next (.next (.start rfl) trivial (toOption_eq_some.mp hw₁)) trivial (toOption_eq_some.mp hw)
  obtain ⟨resp', hresp', hagrees⟩ := Reachable.mempool_agrees hreach (samplePool [2, 3])
  obtain rfl := Except.ok.inj (hresp'.symm.trans (toOption_eq_some.mp hresp))
  exact ⟨w, w', hreach, hcount, hcount', hagrees sampleMoment w' (toOption_eq_some.mp hw')⟩

end CryoNero.WalletState.Unconfirmed
