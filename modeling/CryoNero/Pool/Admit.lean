import CryoNero.Pool.Entry

/-!
# Adding a transaction to the pool

Whatever transaction is offered to a sound pool, the attempt comes to an end, the pool is sound
afterwards, and a transaction that is reported as added is there. A sound pool is consistent and
bounded, and spends nothing that is spent in the main chain.
-/

namespace CryoNero

open Seria Store

/-! ## Errors that are not faults -/

private theorem readRing_error {env : Env} {view : StateView} {unlockHeight : Height}
    {unlockTimestamp : Timestamp} {amount : Amount} {indexes : List UInt32} {conflict : Height}
    {stop : Stop} (h : readRing env view unlockHeight unlockTimestamp amount indexes conflict =
      .error stop) : ∃ e height, stop = .reject e height := by
  refine foldlM_error (fun _ _ ↦ True) (fun stop ↦ ∃ e height, stop = .reject e height) h trivial
    (fun _ _ _ _ _ _ _ _ ↦ trivial) fun done x rest acc stop _ _ hx ↦ ?_
  cases hread : view.readAmountOutput amount x with
  | none =>
    rw [hread] at hx
    cases hx
    exact ⟨_, _, rfl⟩
  | some unp =>
    rw [hread] at hx
    dsimp only at hx
    split_ifs at hx
    cases hx
    exact ⟨_, _, rfl⟩

private theorem checkKeyInput_error {env : Env} {d : DeltaState} {hash : Hash} {input : KeyInput}
    {signatures : List Signature} {conflict : Height} {stop : Stop}
    (h : checkKeyInput env d hash input signatures conflict = .error stop) :
    ∃ e height, stop = .reject e height := by
  unfold checkKeyInput at h
  split at h
  · cases h
    exact ⟨_, _, rfl⟩
  · split_ifs at h
    · cases h
      exact ⟨_, _, rfl⟩
    · rcases bind_eq_error.mp h with hring | ⟨ring, _, h⟩
      · exact readRing_error hring
      · split at h <;> cases h <;> exact ⟨_, _, rfl⟩

namespace DeltaState

variable {env : Env} {height : Height} {timestamp : Timestamp} {view : StateView}

/-- A transaction whose key images are different is either redone or rejected. -/
theorem redoTransaction_ne_fault {tx : Transaction} (checkSigs : Bool)
    (hnodup : tx.keyImages.Nodup) (f : Fault) :
    redoTransactionGetError env tx
      { blockHeight := height, unlockTimestamp := timestamp, parentState := view } checkSigs ≠
        .error (.fault f) := by
  intro h
  unfold redoTransactionGetError at h
  rcases bind_eq_error.mp h with h | ⟨acc, hacc, h⟩
  · have hstop := foldlM_error
      (fun (done : List (TransactionInput × ℕ)) (acc : DeltaState × Height) ↦
        Records height timestamp (DeltaState.view
          { blockHeight := height, unlockTimestamp := timestamp, parentState := view })
          ((keyInputsOf (done.map Prod.fst)).map (·.keyImage)) []
          ((keyInputsOf (done.map Prod.fst)).filterMap (·.spend?)) acc.1)
      (fun stop ↦ ∃ e height, stop = Stop.reject e height) h Records.empty ?_ ?_
    · obtain ⟨_, _, hstop⟩ := hstop
      cases hstop
    · intro done x rest acc acc' _ hacc hx
      rw [List.map_append, List.map_singleton, keyInputsOf_append, List.map_append,
        List.filterMap_append]
      exact hacc.redoInput hx
    · rintro done ⟨input, i⟩ rest ⟨d, conflict⟩ stop hl hd hx
      cases input with
      | coinbaseInput c => cases hx
      | keyInput input =>
        have hkeys : tx.keyImages = (keyInputsOf (done.map Prod.fst)).map (·.keyImage) ++
            input.keyImage :: (keyInputsOf (rest.map Prod.fst)).map (·.keyImage) := by
          have hinputs := congrArg (List.map Prod.fst) hl
          rw [List.zipIdx_map_fst, List.map_append, List.map_cons] at hinputs
          change (keyInputsOf tx.inputs).map (·.keyImage) = _
          rw [hinputs, keyInputsOf_append, List.map_append]
          rfl
        rw [hkeys, List.nodup_middle, List.nodup_cons, List.mem_append, not_or] at hnodup
        have hok := hd.redoKeyInput_eq_ok.mpr ⟨hnodup.1.1, rfl⟩
        unfold CryoNero.redoInput at hx
        dsimp only at hx
        rw [hok] at hx
        split_ifs at hx
        · rcases bind_eq_error.mp hx with hx | ⟨conflict', _, hx⟩
          · exact checkKeyInput_error hx
          · cases hx
        · cases hx
  · have hout : Records height timestamp (DeltaState.view
        { blockHeight := height, unlockTimestamp := timestamp, parentState := view }) tx.keyImages
        tx.pushes tx.spends (CryoNero.redoOutputs acc.1 tx.unlockTime tx.outputs).1 :=
      (Records.empty.redoInputs hacc).redoOutputs
    obtain ⟨ks', ps', hks, -, happly⟩ := hout.apply_eq
      ({ blockHeight := height, unlockTimestamp := timestamp, parentState := view } : DeltaState)
    have hblank : Records height timestamp view [] [] []
        { blockHeight := height, unlockTimestamp := timestamp, parentState := view } := .empty
    have hks' : ([] ++ ks').Nodup := hks.nodup_iff.mp hnodup
    obtain ⟨delta', hdelta'⟩ := hblank.applyLists_delta_completes ps' tx.spends hks'
    dsimp only at h
    rw [happly, hdelta'] at h
    cases h

end DeltaState

/-- The semantic checks pass the inputs one by one, and there is at least one. -/
theorem inputs_of_validateSemantic {c : Crypto} {generating : Bool} {tx : Transaction}
    {checkKeys : Bool} {fee : Amount}
    (h : validateSemantic c generating tx checkKeys = .ok fee) :
    tx.inputs ≠ [] ∧ ∃ p, tx.inputs.foldlM (validateInput generating) ([], 0) = .ok p := by
  unfold validateSemantic at h
  by_cases hempty : tx.inputs = []
  · rw [if_pos hempty] at h
    obtain ⟨_, hfalse, -⟩ := bind_eq_ok.mp h
    cases hfalse
  · rw [if_neg hempty] at h
    obtain ⟨_, -, h⟩ := bind_eq_ok.mp h
    obtain ⟨p, hp, -⟩ := bind_eq_ok.mp h
    exact ⟨hempty, p, hp⟩

open DeltaState in
/-- The semantic checks find a key image that is there twice. -/
theorem nodup_of_validateSemantic {c : Crypto} {tx : Transaction} {checkKeys : Bool} {fee : Amount}
    (h : validateSemantic c false tx checkKeys = .ok fee) : tx.keyImages.Nodup := by
  obtain ⟨-, p, hp⟩ := inputs_of_validateSemantic h
  have hall := foldlM_ok (fun (done : List TransactionInput) (acc : List KeyImage × Amount) ↦
    ((keyInputsOf done).map (·.keyImage)).Nodup ∧
      ∀ ki, ki ∈ acc.1 ↔ ki ∈ (keyInputsOf done).map (·.keyImage)) hp ?_ ?_
  · exact hall.1
  · exact ⟨List.nodup_nil, fun ki ↦ by simp [keyInputsOf, TransactionPrefix.keyInputs]⟩
  · rintro done input rest acc acc' - ⟨hnodup, hmem⟩ hx
    cases input with
    | coinbaseInput c => cases hx
    | keyInput input =>
      unfold validateInput at hx
      dsimp only at hx
      rw [if_neg Bool.false_ne_true] at hx
      have hki : input.keyImage ∉ acc.1 := fun hki ↦ by
        rw [if_pos hki] at hx
        cases hx
      rw [if_neg hki] at hx
      split_ifs at hx
      cases hx
      rw [hmem] at hki
      have hone : (keyInputsOf [.keyInput input]).map (·.keyImage) = [input.keyImage] := rfl
      rw [keyInputsOf_append, List.map_append, hone]
      refine ⟨?_, fun ki ↦ ?_⟩
      · rw [List.nodup_append]
        refine ⟨hnodup, List.nodup_singleton _, fun a ha b hb hab ↦ hki ?_⟩
        rw [← List.mem_singleton.mp hb, ← hab]
        exact ha
      · rw [List.mem_cons, List.mem_append, List.mem_singleton, hmem, or_comm]

/-! ## Sound pools -/

namespace Ledger

structure Sound (env : Env) (l : Ledger) : Prop where
  pool : l.pool.Consistent env
  bounded : l.pool.Bounded
  unspent : ∀ {ki : KeyImage} {tid : Hash}, l.pool.stateKiTx[ki]? = some tid →
    l.index.keyimages[ki]? = none

variable {env : Env} {l l' : Ledger} {tid : Hash} {tx : Transaction} {binaryTx : Bytes}
  {unlockHeight : Height} {unlockTimestamp : Timestamp} {checkSigs : Bool}
  {keyImages : List KeyImage} {height : Height}

/-- The key images that a transaction enters the pool with are its own. -/
theorem Admissible.perm (ha : l.Admissible env tid tx binaryTx unlockHeight unlockTimestamp checkSigs
    keyImages height) : keyImages.Perm tx.keyImages := by
  obtain ⟨_, hsemantic⟩ := ha.semantic
  obtain ⟨memoryState, _, hredo, rfl⟩ := ha.redo
  have hrecords := DeltaState.Records.empty.redoTransaction hredo
  rw [List.nil_append] at hrecords
  refine (List.perm_ext_iff_of_nodup (Table.nodup_keys_toList _)
    (nodup_of_validateSemantic hsemantic)).mpr fun ki ↦ ?_
  rw [List.mem_map]
  constructor
  · rintro ⟨⟨ki, h⟩, hmem, rfl⟩
    exact ((hrecords.keyimages ki h).mp (Table.mem_toList.mp hmem)).1
  · intro hki
    exact ⟨(ki, unlockHeight), Table.mem_toList.mpr ((hrecords.keyimages _ _).mpr ⟨hki, rfl⟩), rfl⟩

private theorem Admissible.unspent_of_mem (ha : l.Admissible env tid tx binaryTx unlockHeight
    unlockTimestamp checkSigs keyImages height) {ki : KeyImage} (hki : ki ∈ tx.keyImages) :
    l.index.keyimages[ki]? = none := by
  obtain ⟨input, hinput, rfl⟩ := List.mem_map.mp hki
  exact List.findSome?_eq_none_iff.mp ha.unspent input hinput

private theorem Admissible.shielded (h : l.Sound env) (ha : l.Admissible env tid tx binaryTx unlockHeight
    unlockTimestamp checkSigs keyImages height) : l.pool.Shielded tid (poolEntry tx binaryTx) := by
  intro q hq
  have htotal := h.pool.toNat_totalSize ((h.pool.total_lt h.bounded).trans (by decide))
  have hle : q.total PoolTransaction.size ≤ l.pool.stateTx.total PoolTransaction.size :=
    Table.total_le_of_subset _ fun a e hae ↦ (hq a e hae).1
  by_cases hfull : maxPoolSize ≤ l.pool.totalSize
  · rcases h.pool.minimumEntry with ⟨-, hnone⟩ | ⟨tid₀, entry₀, hmin, hleast⟩
    · have hempty : l.pool.stateTx = ∅ := Table.ext_get fun a ↦ by
        rw [hnone a, Std.ExtTreeMap.getElem?_empty]
      rw [hempty, Table.total_empty] at hle
      exact lt_of_le_of_lt hle (by rw [toNat_maxPoolSize]; decide)
    · obtain ⟨minimal, hminimal, hnot⟩ := ha.fee
      unfold Pool.minimumPoolFeePerByte at hminimal
      rw [hmin] at hminimal
      cases hminimal
      have hnotLower : ¬Lower (poolEntry tx binaryTx).feePerByte tid entry₀.feePerByte tid₀ := by
        rintro (hlt | ⟨heq, hlt⟩)
        · exact hnot.1 ⟨hfull, hlt⟩
        · exact hnot.2 ⟨hfull, heq, hlt⟩
      have hwithout : q.total PoolTransaction.size ≤
          Table.total PoolTransaction.size (l.pool.stateTx.erase tid₀) := by
        refine Table.total_le_of_subset _ fun a e hae ↦ ?_
        obtain ⟨hmem, hlower⟩ := hq a e hae
        rw [Table.get_erase_of_ne _ ?_]
        · exact hmem
        · rintro rfl
          cases hleast.mem.symm.trans hmem
          exact hnotLower hlower
      have hsum := Table.total_of_get PoolTransaction.size hleast.mem
      have hpos := h.pool.size_pos hleast.mem
      rcases h.bounded with hmax | ⟨tid₁, entry₁, hleast₁, hlt⟩
      · omega
      · obtain ⟨-, rfl⟩ := hleast.unique hleast₁
        omega
  · rw [UInt64.le_iff_toNat_le, htotal, not_le] at hfull
    exact lt_of_le_of_lt hle hfull

/-- Looking for the first conflict never fails. -/
theorem Sound.checkFirstConflict (h : l.Sound env) (tid : Hash) (fpb : Amount) :
    ∀ inputs, ∃ b, l.checkFirstConflict tid fpb inputs = .ok b := by
  intro inputs
  induction inputs with
  | nil => exact ⟨true, rfl⟩
  | cons input rest ih =>
    rw [Ledger.checkFirstConflict]
    cases hki : l.pool.stateKiTx[input.keyImage]? with
    | none => exact ih
    | some other =>
      obtain ⟨otherTx, hat, -⟩ := h.pool.at' hki
      dsimp only
      rw [hat, ok_bind]
      exact ⟨_, rfl⟩

/-- What an admissible transaction does to a sound pool. -/
theorem Admissible.enters (h : l.Sound env) (hgoes : tx.Goes env tid binaryTx)
    (ha : l.Admissible env tid tx binaryTx unlockHeight unlockTimestamp checkSigs keyImages height) :
    ∃ p, displace l.pool tid (poolEntry tx binaryTx).feePerByte keyImages = .ok p ∧
      Sound env { l with pool := p.1 } ∧ (p.2 = true → ∃ pool₁ pool₂,
        insertTransaction p.1 tid (poolEntry tx binaryTx) (poolEntry tx binaryTx).feePerByte
          keyImages = .ok pool₁ ∧
        evict (pool₁.stateTx.size + 1) pool₁ = .ok pool₂ ∧
        Sound env { l with pool := pool₂ } ∧
        pool₂.stateTx[tid]? = some (poolEntry tx binaryTx) ∧ pool₂.Within pool₁ ∧
        pool₁.stateTx = p.1.stateTx.insert tid (poolEntry tx binaryTx) ∧ p.1.Within l.pool) := by
  obtain ⟨_, hsemantic⟩ := ha.semantic
  obtain ⟨p, hp, hconsistent, hbounded, hwithin, hfree⟩ := h.pool.displace tid
    (poolEntry tx binaryTx).feePerByte keyImages h.bounded
  have hunspent {ki : KeyImage} {t : Hash} (hki : p.1.stateKiTx[ki]? = some t) :
      l.index.keyimages[ki]? = none := by
    obtain ⟨e, he, hmem⟩ := hconsistent.keyImage.mp hki
    exact h.unspent (h.pool.keyImage.mpr ⟨e, hwithin _ _ he, hmem⟩)
  refine ⟨p, hp, ⟨hconsistent, hbounded, hunspent⟩, fun hp₂ ↦ ?_⟩
  have habsent : p.1.stateTx[tid]? = none := by
    cases hget : p.1.stateTx[tid]? with
    | none => rfl
    | some e =>
      have hold := hwithin _ _ hget
      rw [ha.absent] at hold
      cases hold
  have hentry : (poolEntry tx binaryTx).tx.Goes env tid (poolEntry tx binaryTx).binaryTx := hgoes
  obtain ⟨pool₁, hinsert, h₁, htable⟩ := hconsistent.insertTransaction hentry
    (nodup_of_validateSemantic hsemantic) habsent (hfree hp₂) ha.perm
  have hsmall : (poolEntry tx binaryTx).size < 2 ^ 32 := hgoes.small
  have hlt : pool₁.stateTx.total PoolTransaction.size < 2 ^ 64 := by
    have hlt := hconsistent.total_lt hbounded
    rw [htable]
    change Table.total PoolTransaction.size (p.1.stateTx.insert tid (poolEntry tx binaryTx)) < _
    rw [Table.total_insert _ _ habsent]
    omega
  obtain ⟨pool₂, hevict, h₂, hbounded₂, hwithin₂, hkeep⟩ := h₁.evict hlt (Nat.lt_succ_self _)
  have hshield₁ : pool₁.Shielded tid (poolEntry tx binaryTx) := by
    intro q hq
    refine ha.shielded h q fun a e hae ↦ ?_
    obtain ⟨hmem, hlower⟩ := hq a e hae
    refine ⟨hwithin a e ?_, hlower⟩
    rw [htable] at hmem
    by_cases hta : tid = a
    · subst hta
      rw [Table.get_insert_self] at hmem
      cases hmem
      exact absurd hlower hlower.asymm
    · rwa [Table.get_insert_of_ne _ _ hta] at hmem
  have hin : pool₁.stateTx[tid]? = some (poolEntry tx binaryTx) := by
    rw [htable]
    exact Table.get_insert_self _ _ _
  refine ⟨pool₁, pool₂, hinsert, hevict, ⟨h₂, hbounded₂, fun {ki t} hki ↦ ?_⟩,
    hkeep _ _ hin hshield₁, hwithin₂, htable, hwithin⟩
  obtain ⟨e, he, hmem⟩ := h₂.keyImage.mp hki
  have he₁ := hwithin₂ _ _ he
  rw [htable, Table.get_insert] at he₁
  split_ifs at he₁ with heq
  · cases he₁
    exact ha.unspent_of_mem hmem
  · exact hunspent (hconsistent.keyImage.mpr ⟨e, he₁, hmem⟩)

/-- **Adding a transaction** keeps the pool sound, and what is reported as added is there. -/
theorem Sound.addTransactionAt (h : l.Sound env) (hgoes : tx.Goes env tid binaryTx)
    {r : AddTransactionResult}
    (hadd : l.addTransactionAt env tid tx binaryTx unlockHeight unlockTimestamp checkSigs =
      .ok (l', r, height)) :
    l'.Sound env ∧ (r = .broadcastAll → l'.pool.stateTx[tid]? = some (poolEntry tx binaryTx)) := by
  rcases addTransactionAt_cases hadd with ⟨rfl, hr, -⟩ | ⟨keyImages, p, ha, hp, hend⟩
  · exact ⟨h, fun hr' ↦ absurd hr' hr⟩
  · obtain ⟨p', hp', hsound, henters⟩ := ha.enters h hgoes
    cases hp.symm.trans hp'
    rcases hend with ⟨-, rfl, rfl⟩ | ⟨pool₁, pool₂, hp₂, hinsert, hevict, rfl, rfl⟩
    · exact ⟨hsound, fun hr ↦ by cases hr⟩
    · obtain ⟨pool₁', pool₂', hinsert', hevict', hsound', hin, -⟩ := henters hp₂
      cases hinsert.symm.trans hinsert'
      cases hevict.symm.trans hevict'
      exact ⟨⟨hsound'.pool, hsound'.bounded, hsound'.unspent⟩, fun _ ↦ hin⟩

/-- **The attempt to add a transaction comes to an end.** -/
theorem Sound.addTransactionAt_completes (h : l.Sound env) (hgoes : tx.Goes env tid binaryTx)
    (unlockHeight : Height) (unlockTimestamp : Timestamp) (checkSigs : Bool) :
    ∃ r, l.addTransactionAt env tid tx binaryTx unlockHeight unlockTimestamp checkSigs = .ok r := by
  unfold Ledger.addTransactionAt
  split_ifs with habsent
  · exact ⟨_, rfl⟩
  obtain ⟨minimal, hminimal⟩ : ∃ minimal, l.pool.minimumPoolFeePerByte = .ok minimal := by
    unfold Pool.minimumPoolFeePerByte
    rcases h.pool.minimumEntry with ⟨hmin, -⟩ | ⟨_, _, hmin, -⟩
    · exact ⟨_, by rw [hmin]; rfl⟩
    · exact ⟨_, by rw [hmin]; rfl⟩
  obtain ⟨accepted, haccepted⟩ := h.checkFirstConflict tid (poolEntry tx binaryTx).feePerByte
    tx.keyInputs
  change ∃ r, (l.pool.minimumPoolFeePerByte >>= _) = .ok r
  rw [hminimal, ok_bind]
  split_ifs with hlow htie
  · exact ⟨_, rfl⟩
  · exact ⟨_, rfl⟩
  change ∃ r, (l.checkFirstConflict tid (poolEntry tx binaryTx).feePerByte tx.keyInputs >>= _) = .ok r
  rw [haccepted, ok_bind]
  split_ifs with hfirst
  · exact ⟨_, rfl⟩
  cases hunspent : l.firstSpent tx.keyInputs with
  | some spentAt => exact ⟨_, rfl⟩
  | none =>
    cases hsemantic : validateSemantic env.crypto false tx checkSigs with
    | error e => exact ⟨_, rfl⟩
    | ok fee =>
      dsimp only
      cases hredo : redoTransactionGetError env tx
          { blockHeight := unlockHeight, unlockTimestamp := unlockTimestamp,
            parentState := l.index.view } checkSigs with
      | error stop =>
        cases stop with
        | fault f =>
          exact absurd hredo (DeltaState.redoTransaction_ne_fault checkSigs
            (nodup_of_validateSemantic hsemantic) f)
        | reject e conflict => exact ⟨_, rfl⟩
      | ok q =>
        obtain ⟨memoryState, globalIndices, height⟩ := q
        have ha : l.Admissible env tid tx binaryTx unlockHeight unlockTimestamp checkSigs
            (memoryState.keyimages.toList.map (·.1)) height :=
          { absent := by simpa using habsent
            fee := ⟨minimal, hminimal, hlow, htie⟩
            first := by rw [haccepted]; simpa using hfirst
            unspent := hunspent
            semantic := ⟨fee, hsemantic⟩
            redo := ⟨memoryState, globalIndices, hredo, rfl⟩ }
        obtain ⟨p, hp, -, henters⟩ := ha.enters h hgoes
        dsimp only
        change ∃ r, (displace l.pool tid (poolEntry tx binaryTx).feePerByte
          (memoryState.keyimages.toList.map (·.1)) >>= _) = .ok r
        rw [hp, ok_bind]
        split_ifs with hp₂
        · exact ⟨_, rfl⟩
        · obtain ⟨pool₁, pool₂, hinsert, hevict, -⟩ := henters (by simpa using hp₂)
          change ∃ r, (insertTransaction p.1 tid (poolEntry tx binaryTx)
            (poolEntry tx binaryTx).feePerByte (memoryState.keyimages.toList.map (·.1)) >>= _) = .ok r
          rw [hinsert, ok_bind]
          rw [hevict, ok_bind]
          exact ⟨_, rfl⟩

end Ledger

end CryoNero
