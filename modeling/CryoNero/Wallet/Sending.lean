import CryoNero.Wallet.Pooled

/-!
# The payments that are sent

A wallet sends the payments in its queue that are not in a block one after another. It goes on behind the
payment that it sent last, and starts again with the hash zero when a block has come. Between two payments
the queue can change: payments come and go.

In each round no payment is sent twice, and a payment that waits all the time is sent before the round ends
(`sendRound_complete`). A payment in the queue is never empty (`Filled`), so an answer without bytes means
that no payment is left.
-/

namespace CryoNero.WalletState.Unconfirmed

open Store Seria Std

variable {env : WalletStateEnv} {m : Moment} {w w' : Unconfirmed} {tid : Hash}

/-! ## The payments have bytes -/

/-- No payment in the queue is empty. -/
def Filled (w : Unconfirmed) : Prop :=
  ∀ (k : Hash) (entry : QueueEntry), w.paymentQueue[k]? = some entry → entry.binaryTransaction ≠ []

private theorem readQueued_ne_nil {binaryTransaction : Bytes} {tx : Transaction}
    (h : readQueued binaryTransaction = .ok tx) : binaryTransaction ≠ [] := by
  rintro rfl
  rw [show readQueued [] = .error .invariantViolated from rfl] at h
  cases h

theorem Filled.of_eq (h : w.Filled) (heq : w'.paymentQueue = w.paymentQueue) : w'.Filled := by
  intro k entry hentry
  rw [heq] at hentry
  exact h k entry hentry

theorem Filled.enqueue (h : w.Filled) {entry : QueueEntry} (hentry : entry.binaryTransaction ≠ []) :
    (w.enqueue tid entry).Filled := by
  intro k e he
  rw [Unconfirmed.enqueue, Table.get_insert] at he
  split_ifs at he
  · cases he
    exact hentry
  · exact h k e he

theorem paymentQueue_addTransactionToMempool {tx : TransactionPrefix}
    (h : w.addTransactionToMempool env m tid tx = .ok w') : w'.paymentQueue = w.paymentQueue := by
  obtain ⟨d, rfl, -⟩ := addTransactionToMempool_eq_ok h
  rfl

private theorem paymentQueue_undoTransaction (h : w.undoTransaction tid = .ok w') :
    w'.paymentQueue = w.paymentQueue := by
  obtain ⟨d, rfl, -⟩ := undoTransaction_eq_ok h
  rfl

theorem paymentQueue_removeTransactionFromMempool (h : w.removeTransactionFromMempool tid = .ok w') :
    w'.paymentQueue = w.paymentQueue := by
  unfold removeTransactionFromMempool at h
  split_ifs at h
  · cases h
    rfl
  · cases h
    rfl
  · exact paymentQueue_undoTransaction h

private theorem paymentQueue_erasePoolHash (h : w.erasePoolHash tid = .ok w') :
    w'.paymentQueue = w.paymentQueue := by
  unfold erasePoolHash at h
  split_ifs at h
  · exact (paymentQueue_removeTransactionFromMempool h).trans rfl
  · cases h
    rfl

theorem Filled.syncWithMempool {resp : Api.SyncMemPool.Response} (h : w.Filled)
    (hok : w.syncWithMempool env m resp = .ok w') : w'.Filled := by
  obtain ⟨w₁, herase, hok⟩ := bind_eq_ok.mp hok
  have h₁ : w₁.Filled := foldlM_ok (fun _ t ↦ t.Filled) herase h
    fun _ _ _ _ _ _ ht hstep ↦ ht.of_eq (paymentQueue_erasePoolHash hstep)
  refine foldlM_ok (fun _ t ↦ t.Filled) hok h₁ fun _ _ _ _ _ _ ht hstep ↦ ?_
  obtain ⟨announced, -, hstep⟩ := bind_eq_ok.mp hstep
  exact ht.of_eq ((paymentQueue_addTransactionToMempool hstep).trans rfl)

theorem Filled.redoTransaction (h : w.Filled) (hok : w.redoTransaction tid = .ok w') : w'.Filled := by
  obtain ⟨w₁, herase, hok⟩ := bind_eq_ok.mp hok
  exact h.of_eq ((paymentQueue_undoTransaction hok).trans (paymentQueue_erasePoolHash herase))

theorem Filled.addToPaymentQueue {binaryTransaction : Bytes} (h : w.Filled)
    (hok : w.addToPaymentQueue env m binaryTransaction = .ok w') : w'.Filled := by
  obtain ⟨tx, htx, hok⟩ := bind_eq_ok.mp hok
  obtain ⟨tid, -, hok⟩ := bind_eq_ok.mp hok
  have hbytes := readQueued_ne_nil htx
  split_ifs at hok
  · cases hok
    exact h
  · split at hok
    · cases hok
      exact h.enqueue hbytes
    · exact (h.enqueue hbytes).of_eq (paymentQueue_addTransactionToMempool hok)

theorem Filled.processPaymentQueueSendError {code : ℤ} {conflictHeight : Height} (h : w.Filled)
    (hok : w.processPaymentQueueSendError env m tid code conflictHeight = .ok w') : w'.Filled := by
  unfold Unconfirmed.processPaymentQueueSendError at hok
  split_ifs at hok
  · intro k entry hentry
    rw [paymentQueue_removeTransactionFromMempool hok, Table.get_erase] at hentry
    split_ifs at hentry
    exact h k entry hentry
  · cases hok
    exact h
  · cases hok
    exact h

theorem Filled.removedFromBc (h : w.Filled) (hok : w.removedFromBc env m tid = .ok w') : w'.Filled := by
  unfold Unconfirmed.removedFromBc at hok
  split at hok
  · cases hok
    exact h
  · next entry hentry =>
    obtain ⟨tx, -, hok⟩ := bind_eq_ok.mp hok
    refine Filled.of_eq (Filled.enqueue h ?_) (paymentQueue_addTransactionToMempool hok)
    exact h tid entry hentry

theorem Filled.addedToBc (h : w.Filled) (hok : w.addedToBc env m tid = .ok w') : w'.Filled := by
  unfold Unconfirmed.addedToBc at hok
  split at hok
  · next entry _ _ hentry _ =>
    refine Filled.of_eq (Filled.enqueue h ?_) (paymentQueue_removeTransactionFromMempool hok)
    exact h tid entry hentry
  · cases hok
    exact h

theorem Filled.fixPaymentQueueAfterUndoRedo (h : w.Filled)
    (hok : w.fixPaymentQueueAfterUndoRedo env m = .ok w') : w'.Filled := by
  obtain ⟨w₁, hremoved, hok⟩ := bind_eq_ok.mp hok
  obtain ⟨w₂, hadded, hok⟩ := bind_eq_ok.mp hok
  have h₁ : w₁.Filled := foldlM_ok (fun _ t ↦ t.Filled) hremoved h
    fun _ _ _ _ _ _ ht hstep ↦ ht.removedFromBc hstep
  have h₂ : w₂.Filled := foldlM_ok (fun _ t ↦ t.Filled) hadded h₁
    fun _ _ _ _ _ _ ht hstep ↦ ht.addedToBc hstep
  cases hok
  intro k entry hentry
  rw [ExtTreeMap.getElem?_filter'] at hentry
  exact h₂ k entry (Option.filter_eq_some_iff.mp hentry).1

/-- **Run lemma.** -/
theorem Reachable.filled (h : Reachable env w) : w.Filled := by
  refine Reaches.invariant (I := Filled) ?_ ?_ h
  · rintro w rfl k entry hentry
    rw [show (({} : Unconfirmed).paymentQueue[k]?) = none from ExtTreeMap.getElem?_empty] at hentry
    cases hentry
  · intro w op w' _ hw _ hok
    cases op with
    | syncWithMempool m resp => exact hw.syncWithMempool hok
    | redoTransaction tid => exact hw.redoTransaction hok
    | addToPaymentQueue m binaryTransaction => exact hw.addToPaymentQueue hok
    | processPaymentQueueSendError m hash code conflictHeight => exact hw.processPaymentQueueSendError hok
    | fixPaymentQueueAfterUndoRedo m => exact hw.fixPaymentQueueAfterUndoRedo hok

/-! ## One payment -/

private theorem isSending_iff : w.isSending tid = true ↔
    ∃ entry, w.paymentQueue[tid]? = some entry ∧ (!entry.inBlockchain) = true :=
  Option.any_eq_true _ _

private theorem sendSendTransaction_eq_some {hash next : Hash}
    (h : w.sendSendTransaction hash = some next) :
    compare hash next = .lt ∧ w.isSending next = true := by
  unfold sendSendTransaction getNextFromSendingQueue at h
  rw [Table.behind_eq, List.find?_filter] at h
  dsimp only at h
  split at h
  · rw [if_pos rfl] at h
    cases h
  · next k entry hfind =>
    obtain ⟨hget, hmeets, -⟩ := Table.find?_toList_eq_some hfind
    obtain ⟨hlt, hwaits⟩ := of_decide_eq_true hmeets
    split_ifs at h
    cases h
    exact ⟨Ordering.isLT_iff_eq_lt.mp hlt, isSending_iff.mpr ⟨entry, hget, hwaits⟩⟩

/-- As long as a payment waits behind the hash, a payment is sent that does not come after it. -/
theorem Filled.sendSendTransaction (h : w.Filled) {hash : Hash} (hlt : compare hash tid = .lt)
    (hsending : w.isSending tid = true) :
    ∃ next, w.sendSendTransaction hash = some next ∧ (next = tid ∨ compare next tid = .lt) := by
  obtain ⟨entry, hget, hwaits⟩ := isSending_iff.mp hsending
  have hmeets : decide ((compare hash tid).isLT = true ∧ (!entry.inBlockchain) = true) = true :=
    decide_eq_true ⟨Ordering.isLT_iff_eq_lt.mpr hlt, hwaits⟩
  unfold Unconfirmed.sendSendTransaction getNextFromSendingQueue
  rw [Table.behind_eq, List.find?_filter]
  dsimp only
  cases hfind : w.paymentQueue.toList.find? fun e ↦
      decide ((compare hash e.1).isLT = true ∧ (!e.2.inBlockchain) = true) with
  | none =>
    rw [Table.find?_toList_eq_none hfind hget] at hmeets
    cases hmeets
  | some e =>
    obtain ⟨hnext, -, hfirst⟩ := Table.find?_toList_eq_some hfind
    refine ⟨e.1, if_neg (h e.1 e.2 hnext), ?_⟩
    cases hcompare : compare e.1 tid with
    | lt => exact .inr rfl
    | eq => exact .inl (LawfulEqCmp.eq_of_compare hcompare)
    | gt => exact absurd hcompare (hfirst tid entry hget hmeets)

/-! ## Rounds -/

/-- The payments that are sent from a hash on, given the wallet at each call, and whether the round has
ended. -/
def sendRound : Hash → List Unconfirmed → List Hash × Bool
  | _, [] => ([], false)
  | hash, w :: ws =>
    match w.sendSendTransaction hash with
    | none => ([], true)
    | some next => (next :: (sendRound next ws).1, (sendRound next ws).2)

private theorem sendRound_behind {hash k : Hash} {ws : List Unconfirmed} (hk : k ∈ (sendRound hash ws).1) :
    compare hash k = .lt ∧ ∃ w ∈ ws, w.isSending k = true := by
  induction ws generalizing hash with
  | nil => cases hk
  | cons w ws ih =>
    rw [sendRound] at hk
    split at hk
    · cases hk
    · next next hsent =>
      obtain ⟨hlt, hwaits⟩ := sendSendTransaction_eq_some hsent
      rcases List.mem_cons.mp hk with rfl | hk
      · exact ⟨hlt, w, List.mem_cons_self, hwaits⟩
      · obtain ⟨hlater, w', hw', hwaits'⟩ := ih hk
        exact ⟨TransCmp.lt_trans hlt hlater, w', List.mem_cons_of_mem _ hw', hwaits'⟩

private theorem pairwise_sendRound (hash : Hash) (ws : List Unconfirmed) :
    (sendRound hash ws).1.Pairwise (compare · · = .lt) := by
  induction ws generalizing hash with
  | nil => exact .nil
  | cons w ws ih =>
    rw [sendRound]
    split
    · exact .nil
    · exact .cons (fun k hk ↦ (sendRound_behind hk).1) (ih _)

private theorem mem_sendRound {hash : Hash} {ws : List Unconfirmed} (hfilled : ∀ w ∈ ws, w.Filled)
    (hsending : ∀ w ∈ ws, w.isSending tid = true) (hlt : compare hash tid = .lt)
    (hended : (sendRound hash ws).2 = true) : tid ∈ (sendRound hash ws).1 := by
  induction ws generalizing hash with
  | nil => cases hended
  | cons w ws ih =>
    obtain ⟨next, hnext, hplace⟩ :=
      (hfilled w List.mem_cons_self).sendSendTransaction hlt (hsending w List.mem_cons_self)
    rw [sendRound, hnext] at hended ⊢
    rcases hplace with rfl | hbefore
    · exact List.mem_cons_self
    · exact List.mem_cons_of_mem _ (ih (fun w hw ↦ hfilled w (List.mem_cons_of_mem _ hw))
        (fun w hw ↦ hsending w (List.mem_cons_of_mem _ hw)) hbefore hended)

/-- **A round of sending.** Whatever the wallet is at each call, no payment is sent twice in a round, only
payments are sent that wait, and when the round has ended, each payment that waited all the time has been
sent. -/
theorem sendRound_complete {ws : List Unconfirmed} (hreach : ∀ w ∈ ws, Reachable env w) :
    (sendRound 0 ws).1.Pairwise (compare · · = .lt) ∧
      (∀ k ∈ (sendRound 0 ws).1, ∃ w ∈ ws, w.isSending k = true) ∧
      ((sendRound 0 ws).2 = true → ∀ k : Hash, k ≠ 0 →
        (∀ w ∈ ws, w.isSending k = true) → k ∈ (sendRound 0 ws).1) := by
  refine ⟨pairwise_sendRound 0 ws, fun k hk ↦ (sendRound_behind hk).2, fun hended k hk hsending ↦ ?_⟩
  refine mem_sendRound (fun w hw ↦ (hreach w hw).filled) hsending ?_ hended
  have hpos : (0 : Hash) < k := BitVec.lt_def.mpr
    (Nat.pos_of_ne_zero fun hzero ↦ hk (BitVec.eq_of_toNat_eq hzero))
  exact if_pos hpos

/-- A payment waits and is sent, and a second one has come before the next call. -/
theorem sendRound_complete_sample : ∃ (w w' : Unconfirmed), Reachable sampleStateEnv w ∧
    Reachable sampleStateEnv w' ∧ w.paymentQueue.toList.map Prod.fst = [9] ∧
      w'.paymentQueue.toList.map Prod.fst = [9, 11] ∧ (9 : Hash) ∈ (sendRound 0 [w, w', w']).1 := by
  obtain ⟨w, hw, w', hw', hkeys, hkeys', hwaits, hwaits', hended⟩ :
      ∃ w ∈ (step sampleStateEnv {} (.addToPaymentQueue sampleMoment (samplePayment 9))).toOption,
        ∃ w' ∈ (step sampleStateEnv w (.addToPaymentQueue sampleMoment (samplePayment 11))).toOption,
          w.paymentQueue.toList.map Prod.fst = [9] ∧ w'.paymentQueue.toList.map Prod.fst = [9, 11] ∧
            w.isSending 9 = true ∧ w'.isSending 9 = true ∧ (sendRound 0 [w, w', w']).2 = true := by
    decide +kernel
  have hreach : Reachable sampleStateEnv w := .next (.start rfl) trivial (toOption_eq_some.mp hw)
  have hreach' : Reachable sampleStateEnv w' := .next hreach trivial (toOption_eq_some.mp hw')
  have hreached : ∀ v ∈ [w, w', w'], Reachable sampleStateEnv v := by simp [hreach, hreach']
  refine ⟨w, w', hreach, hreach', hkeys, hkeys',
    (sendRound_complete hreached).2.2 hended 9 (by decide) fun v hv ↦ ?_⟩
  rw [List.mem_cons, List.mem_cons, List.mem_singleton] at hv
  rcases hv with rfl | rfl | rfl
  · exact hwaits
  · exact hwaits'
  · exact hwaits'

end CryoNero.WalletState.Unconfirmed
