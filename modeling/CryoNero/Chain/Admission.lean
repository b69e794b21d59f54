import CryoNero.Core.Node

/-!
# Entering the pool

A transaction is first checked against the pool and the chain, which changes nothing. One that
passes (`Ledger.Admissible`) displaces the transactions it conflicts with, enters the pool, and may
push others out at the bottom. The first of these three can still turn it away.
-/

namespace CryoNero

open Seria Store

/-- The entry of a transaction in the pool. -/
def poolEntry (tx : Transaction) (binaryTx : Bytes) : PoolTransaction :=
  { tx := tx, binaryTx := binaryTx, fee := (getTxFee tx.toTransactionPrefix).getD 0 }

namespace Ledger

/-- A transaction passes the checks that come before any change of the pool. `keyImages` are its key
images in their order, `height` is that of the youngest output it refers to. -/
structure Admissible (env : Env) (l : Ledger) (tid : Hash) (tx : Transaction) (binaryTx : Bytes)
    (unlockHeight : Height) (unlockTimestamp : Timestamp) (checkSigs : Bool)
    (keyImages : List KeyImage) (height : Height) : Prop where
  absent : l.pool.stateTx[tid]? = none
  fee : ∃ minimal, l.pool.minimumPoolFeePerByte = .ok minimal ∧
    ¬(maxPoolSize ≤ l.pool.totalSize ∧ (poolEntry tx binaryTx).feePerByte < minimal.1) ∧
    ¬(maxPoolSize ≤ l.pool.totalSize ∧ (poolEntry tx binaryTx).feePerByte = minimal.1 ∧
      tid < minimal.2)
  first : l.checkFirstConflict tid (poolEntry tx binaryTx).feePerByte tx.keyInputs = .ok true
  unspent : l.firstSpent tx.keyInputs = none
  semantic : ∃ fee, validateSemantic env.crypto false tx checkSigs = .ok fee
  redo : ∃ memoryState globalIndices,
    redoTransactionGetError env tx
      { blockHeight := unlockHeight, unlockTimestamp := unlockTimestamp,
        parentState := l.index.view } checkSigs = .ok (memoryState, globalIndices, height) ∧
    keyImages = memoryState.keyimages.toList.map (·.1)

variable {env : Env} {l l' : Ledger} {tid : Hash} {tx : Transaction} {binaryTx : Bytes}
  {unlockHeight : Height} {unlockTimestamp : Timestamp} {checkSigs : Bool}
  {r : AddTransactionResult} {height : Height}

/-- **What becomes of a transaction**: it is not admissible and nothing changes, or it is turned away
while it displaces others, or it is in the pool. -/
theorem addTransactionAt_cases
    (h : l.addTransactionAt env tid tx binaryTx unlockHeight unlockTimestamp checkSigs =
      .ok (l', r, height)) :
    (l' = l ∧ r ≠ .broadcastAll ∧ ¬∃ keyImages height', l.Admissible env tid tx binaryTx unlockHeight
      unlockTimestamp checkSigs keyImages height') ∨
    ∃ keyImages p, l.Admissible env tid tx binaryTx unlockHeight unlockTimestamp checkSigs keyImages
        height ∧
      displace l.pool tid (poolEntry tx binaryTx).feePerByte keyImages = .ok p ∧
      (p.2 = false ∧ r = .increaseFee ∧ l' = { l with pool := p.1 } ∨
        ∃ pool₁ pool₂, p.2 = true ∧
          insertTransaction p.1 tid (poolEntry tx binaryTx) (poolEntry tx binaryTx).feePerByte
            keyImages = .ok pool₁ ∧
          evict (pool₁.stateTx.size + 1) pool₁ = .ok pool₂ ∧ r = .broadcastAll ∧
          l' = { l with pool := pool₂, txPoolVersion := l.txPoolVersion + 1 }) := by
  have refused {r₀ : AddTransactionResult} {height₀ : Height}
      (h : (pure (l, r₀, height₀) : Except Fault _) = .ok (l', r, height))
      (hr₀ : r₀ ≠ .broadcastAll)
      (hnot : ∀ keyImages height', ¬l.Admissible env tid tx binaryTx unlockHeight unlockTimestamp
        checkSigs keyImages height') :
      l' = l ∧ r ≠ .broadcastAll ∧ ¬∃ keyImages height', l.Admissible env tid tx binaryTx
        unlockHeight unlockTimestamp checkSigs keyImages height' := by
    cases h
    exact ⟨rfl, hr₀, fun ⟨keyImages, height', ha⟩ ↦ hnot keyImages height' ha⟩
  unfold addTransactionAt at h
  split_ifs at h with habsent
  · exact .inl (refused h (by decide) fun _ _ ha ↦ by rw [ha.absent] at habsent; cases habsent)
  obtain ⟨minimal, hminimal, h⟩ := bind_eq_ok.mp h
  have hfee {keyImages height'} (ha : l.Admissible env tid tx binaryTx unlockHeight unlockTimestamp
      checkSigs keyImages height') :
      ¬(maxPoolSize ≤ l.pool.totalSize ∧ (poolEntry tx binaryTx).feePerByte < minimal.1) ∧
        ¬(maxPoolSize ≤ l.pool.totalSize ∧ (poolEntry tx binaryTx).feePerByte = minimal.1 ∧
          tid < minimal.2) := by
    obtain ⟨minimal', hminimal', hnot⟩ := ha.fee
    cases (hminimal.symm.trans hminimal')
    exact hnot
  split_ifs at h with hlow htie
  · exact .inl (refused h (by decide) fun _ _ ha ↦ (hfee ha).1 hlow)
  · exact .inl (refused h (by decide) fun _ _ ha ↦ (hfee ha).2 htie)
  obtain ⟨accepted, haccepted, h⟩ := bind_eq_ok.mp h
  change l.checkFirstConflict tid (poolEntry tx binaryTx).feePerByte tx.keyInputs = _ at haccepted
  split_ifs at h with hfirst
  · refine .inl (refused h (by decide) fun _ _ ha ↦ ?_)
    cases (ha.first.symm.trans haccepted)
    cases hfirst
  cases hunspent : l.firstSpent tx.keyInputs with
  | some spentAt =>
    rw [hunspent] at h
    exact .inl (refused h (by decide) fun _ _ ha ↦ by rw [ha.unspent] at hunspent; cases hunspent)
  | none =>
    rw [hunspent] at h
    cases hsemantic : validateSemantic env.crypto false tx checkSigs with
    | error e =>
      rw [hsemantic] at h
      refine .inl (refused h (by decide) fun _ _ ha ↦ ?_)
      obtain ⟨_, ha⟩ := ha.semantic
      cases (ha.symm.trans hsemantic)
    | ok fee =>
      rw [hsemantic] at h
      dsimp only at h
      cases hredo : redoTransactionGetError env tx
          { blockHeight := unlockHeight, unlockTimestamp := unlockTimestamp,
            parentState := l.index.view } checkSigs with
      | error stop =>
        rw [hredo] at h
        cases stop with
        | fault f => cases h
        | reject e conflict =>
          refine .inl (refused h (by decide) fun _ _ ha ↦ ?_)
          obtain ⟨_, _, ha, _⟩ := ha.redo
          cases (ha.symm.trans hredo)
      | ok q =>
        obtain ⟨memoryState, globalIndices, height'⟩ := q
        rw [hredo] at h
        obtain ⟨p, hp, h⟩ := bind_eq_ok.mp h
        have hadmissible : l.Admissible env tid tx binaryTx unlockHeight unlockTimestamp checkSigs
            (memoryState.keyimages.toList.map (·.1)) height' :=
          { absent := by simpa using habsent
            fee := ⟨minimal, hminimal, hlow, htie⟩
            first := by rw [haccepted]; simpa using hfirst
            unspent := hunspent
            semantic := ⟨fee, hsemantic⟩
            redo := ⟨memoryState, globalIndices, hredo, rfl⟩ }
        refine .inr ⟨memoryState.keyimages.toList.map (·.1), p, ?_⟩
        split_ifs at h with hp₂
        · cases h
          exact ⟨hadmissible, hp, .inl ⟨hp₂, rfl, rfl⟩⟩
        · obtain ⟨pool₁, hinsert, h⟩ := bind_eq_ok.mp h
          obtain ⟨pool₂, hevict, h⟩ := bind_eq_ok.mp h
          cases h
          exact ⟨hadmissible, hp, .inr ⟨pool₁, pool₂, by simpa using hp₂, hinsert, hevict, rfl, rfl⟩⟩

theorem addTransactionAt_frame
    (h : l.addTransactionAt env tid tx binaryTx unlockHeight unlockTimestamp checkSigs =
      .ok (l', r, height)) :
    ∃ pool version, l' = { l with pool := pool, txPoolVersion := version } := by
  rcases addTransactionAt_cases h with ⟨rfl, -, -⟩ | ⟨_, p, -, -, h | ⟨pool₁, pool₂, h⟩⟩
  · exact ⟨l'.pool, l'.txPoolVersion, rfl⟩
  · exact ⟨p.1, l.txPoolVersion, h.2.2⟩
  · exact ⟨pool₂, l.txPoolVersion + 1, h.2.2.2.2⟩

end Ledger

end CryoNero
