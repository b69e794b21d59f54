import CryoNero.Pool.Admit

/-!
# A crowded pool

A transaction that has no conflict in the pool gets in, or is turned away for a reason of its own:
it is not valid, it spends what is spent in the chain, or the pool is full of transactions that have
a higher priority. The last of these lasts. A pool that is full stays full while transactions are
added to it, and what is added has a higher priority than what was turned away before, so that the
reason can still be seen at the end of a series of additions (`Pool.Crowded`). The same can be said
of a transaction that got in and was pushed out later.
-/

namespace CryoNero

open Seria Store

theorem Lower.trans {fpb fpb' fpb'' : Amount} {tid tid' tid'' : Hash} (h : Lower fpb tid fpb' tid')
    (h' : Lower fpb' tid' fpb'' tid'') : Lower fpb tid fpb'' tid'' := by
  rcases h with h | ⟨rfl, h⟩
  · rcases h' with h' | ⟨rfl, -⟩
    · exact .inl (UInt64.lt_trans h h')
    · exact .inl h
  · rcases h' with h' | ⟨rfl, h'⟩
    · exact .inl h'
    · exact .inr ⟨rfl, BitVec.lt_trans h h'⟩

private theorem Lower.of_not {fpb fpb' : Amount} {tid tid' : Hash} (h : ¬Lower fpb tid fpb' tid')
    (hne : tid ≠ tid') : Lower fpb' tid' fpb tid := by
  rw [Lower, not_or, not_and, UInt64.not_lt] at h
  rcases UInt64.lt_or_eq_of_le h.1 with hlt | rfl
  · exact .inl hlt
  · exact .inr ⟨rfl, BitVec.lt_of_le_ne (BitVec.not_lt.mp (h.2 rfl)) hne.symm⟩

private theorem toNat_maxPoolSize_add {entry : PoolTransaction} (h : entry.size < 2 ^ 32) :
    (maxPoolSize + UInt64.ofNat entry.binaryTx.length).toNat = maxPoolSize.toNat + entry.size := by
  have hlength : entry.binaryTx.length < 2 ^ 32 := h
  rw [UInt64.toNat_add, UInt64.toNat_ofNat', Nat.mod_eq_of_lt (a := List.length _) (by omega),
    toNat_maxPoolSize]
  exact Nat.mod_eq_of_lt (by omega)

namespace Pool

variable {env : Env} {pool pool' : Pool} {tid : Hash} {entry : PoolTransaction} {fpb : Amount}
  {kis : List KeyImage}

/-- The pool is at its maximum or above, and everything in it has a higher priority. -/
def Crowded (pool : Pool) (fpb : Amount) (tid : Hash) : Prop :=
  maxPoolSize ≤ pool.totalSize ∧ ∀ (tid' : Hash) (entry' : PoolTransaction),
    pool.stateTx[tid']? = some entry' → Lower fpb tid entry'.feePerByte tid'

theorem Crowded.within (h : pool.Crowded fpb tid) (hwithin : pool'.Within pool)
    (hfull : maxPoolSize ≤ pool'.totalSize) : pool'.Crowded fpb tid :=
  ⟨hfull, fun tid' entry' htid' ↦ h.2 tid' entry' (hwithin tid' entry' htid')⟩

/-- **Cutting back** leaves a full pool full, and what goes is outranked by all that stays. -/
private theorem Consistent.evict_crowds {fuel : ℕ} (h : pool.Consistent env)
    (hlt : pool.stateTx.total PoolTransaction.size < 2 ^ 64)
    (hevict : Ledger.evict fuel pool = .ok pool') :
    pool'.Within pool ∧ (maxPoolSize ≤ pool.totalSize → maxPoolSize ≤ pool'.totalSize) ∧
      ∀ (tid : Hash) (entry : PoolTransaction), pool.stateTx[tid]? = some entry →
        pool'.stateTx[tid]? = some entry ∨ pool'.Crowded entry.feePerByte tid := by
  induction fuel generalizing pool with
  | zero => cases hevict
  | succ fuel ih =>
    have hsame (heq : pool = pool') : pool'.Within pool ∧
        (maxPoolSize ≤ pool.totalSize → maxPoolSize ≤ pool'.totalSize) ∧
        ∀ (tid : Hash) (entry : PoolTransaction), pool.stateTx[tid]? = some entry →
          pool'.stateTx[tid]? = some entry ∨ pool'.Crowded entry.feePerByte tid := by
      subst heq
      exact ⟨fun _ _ ht ↦ ht, id, fun _ _ ht ↦ .inl ht⟩
    rw [Ledger.evict] at hevict
    split_ifs at hevict with hsmall
    · exact hsame (Except.ok.inj hevict)
    · obtain ⟨least, hmin, hevict⟩ := bind_eq_ok.mp hevict
      obtain ⟨p, hp, hevict⟩ := bind_eq_ok.mp hevict
      obtain ⟨minimalTx, hat, hevict⟩ := bind_eq_ok.mp hevict
      split_ifs at hevict with hstop
      · exact hsame (Except.ok.inj hevict)
      · obtain ⟨pool₁, hremove, hrounds⟩ := bind_eq_ok.mp hevict
        rcases h.minimumEntry with ⟨hnone, -⟩ | ⟨tid₀, entry₀, hmin', hleast⟩
        · cases hmin.symm.trans hnone
          cases hp
        · cases hmin.symm.trans hmin'
          cases hp
          cases (orFail_eq_ok.mp hat).symm.trans hleast.mem
          obtain ⟨pool₁', hremove', h₁, herase⟩ := h.removeFromPool tid₀
          cases hremove.symm.trans hremove'
          have hwithin := within_of_erase herase
          have hle : pool₁.stateTx.total PoolTransaction.size ≤
              pool.stateTx.total PoolTransaction.size := Table.total_le_of_subset _ hwithin
          -- without the lowest transaction of all the pool is not below its maximum
          have hfull : maxPoolSize ≤ pool₁.totalSize := by
            have hsize := Table.total_of_get PoolTransaction.size hleast.mem
            have hsmall₀ : minimalTx.size < 2 ^ 32 := (h.goes hleast.mem).small
            have htotal := h.toNat_totalSize hlt
            have htotal₁ := h₁.toNat_totalSize (by omega)
            rw [UInt64.lt_iff_toNat_lt, htotal, toNat_maxPoolSize_add hsmall₀] at hstop
            rw [UInt64.le_iff_toNat_le, htotal₁, herase]
            omega
          obtain ⟨hwithin', hkeep, hrest⟩ := ih h₁ (by omega) hrounds
          refine ⟨hwithin'.trans hwithin, fun _ ↦ hkeep hfull, fun tid entry htid ↦ ?_⟩
          by_cases heq : tid₀ = tid
          · subst heq
            cases hleast.mem.symm.trans htid
            refine .inr ⟨hkeep hfull, fun tid' entry' htid' ↦ ?_⟩
            have hin := hwithin' _ _ htid'
            refine (hleast.lower (hwithin _ _ hin)).resolve_left ?_
            rintro rfl
            rw [herase, Table.get_erase_self] at hin
            cases hin
          · refine hrest tid entry ?_
            rw [herase, Table.get_erase_of_ne _ heq]
            exact htid

/-! ## The bottom of the pool -/

private theorem Consistent.exists_least (h : pool.Consistent env)
    (hlt : pool.stateTx.total PoolTransaction.size < 2 ^ 64) (hfull : maxPoolSize ≤ pool.totalSize) :
    ∃ tid entry, pool.minimumPoolFeePerByte = .ok (entry.feePerByte, tid) ∧ pool.Least tid entry := by
  rcases h.minimumEntry with ⟨-, hnone⟩ | ⟨tid, entry, hmin, hleast⟩
  · have hempty : pool.stateTx = ∅ := Table.ext_get fun a ↦ by
      rw [hnone a, Std.ExtTreeMap.getElem?_empty]
    rw [UInt64.le_iff_toNat_le, h.toNat_totalSize hlt, hempty, Table.total_empty] at hfull
    exact absurd hfull (by decide)
  · exact ⟨tid, entry, by rw [minimumPoolFeePerByte, hmin]; rfl, hleast⟩

private theorem Consistent.crowded_of_low (h : pool.Consistent env)
    (hlt : pool.stateTx.total PoolTransaction.size < 2 ^ 64) (hfull : maxPoolSize ≤ pool.totalSize)
    {minimal : Amount × Hash} (hmin : pool.minimumPoolFeePerByte = .ok minimal)
    (hlow : Lower fpb tid minimal.1 minimal.2) : pool.Crowded fpb tid := by
  obtain ⟨tid₀, entry₀, hmin₀, hleast⟩ := h.exists_least hlt hfull
  cases hmin.symm.trans hmin₀
  refine ⟨hfull, fun tid' entry' htid' ↦ ?_⟩
  rcases hleast.lower htid' with rfl | hlower
  · cases hleast.mem.symm.trans htid'
    exact hlow
  · exact hlow.trans hlower

/-! ## Without conflicts -/

private theorem displace_of_free {kis : List KeyImage} (hfree : ∀ ki ∈ kis, pool.stateKiTx[ki]? = none) :
    Ledger.displace pool tid fpb kis = .ok (pool, true) := by
  induction kis with
  | nil => rfl
  | cons ki kis ih =>
    rw [List.forall_mem_cons] at hfree
    rw [Ledger.displace, hfree.1]
    exact ih hfree.2

end Pool

/-- A transaction cannot be redone on top of the tip: it spends what is spent in the chain, it is not
valid in itself, or it is rejected. -/
inductive Index.Unfit (env : Env) (idx : Index) (tx : Transaction) (unlockHeight : Height)
    (unlockTimestamp : Timestamp) : Prop
  | spent {ki : KeyImage} {height : Height} (hki : ki ∈ tx.keyImages)
      (hspent : idx.keyimages[ki]? = some height)
  | invalid {e : ConsensusError} (hsemantic : validateSemantic env.crypto false tx true = .error e)
  | rejected {e : RedoError} {height : Height} (hredo : redoTransactionGetError env tx
      { blockHeight := unlockHeight, unlockTimestamp := unlockTimestamp,
        parentState := idx.view } true = .error (.reject e height))

namespace Ledger

variable {env : Env} {l l' : Ledger} {tid : Hash} {tx : Transaction} {binaryTx : Bytes}
  {unlockHeight : Height} {unlockTimestamp : Timestamp} {keyImages : List KeyImage} {height : Height}

private theorem checkFirstConflict_of_free {fpb : Amount} {inputs : List KeyInput}
    (hfree : ∀ input ∈ inputs, l.pool.stateKiTx[input.keyImage]? = none) :
    l.checkFirstConflict tid fpb inputs = .ok true := by
  induction inputs with
  | nil => rfl
  | cons input inputs ih =>
    rw [List.forall_mem_cons] at hfree
    rw [checkFirstConflict, hfree.1]
    exact ih hfree.2

/-- **Why a transaction without conflicts is not let in.** -/
private theorem Sound.not_admissible (h : l.Sound env)
    (hfree : ∀ ki ∈ tx.keyImages, l.pool.stateKiTx[ki]? = none)
    (hnot : ¬∃ keyImages height, l.Admissible env tid tx binaryTx unlockHeight unlockTimestamp true
      keyImages height) :
    (∃ entry, l.pool.stateTx[tid]? = some entry) ∨
      l.pool.Crowded (poolEntry tx binaryTx).feePerByte tid ∨
      l.index.Unfit env tx unlockHeight unlockTimestamp := by
  have hlt : l.pool.stateTx.total PoolTransaction.size < 2 ^ 64 :=
    (h.pool.total_lt h.bounded).trans (by decide)
  cases habsent : l.pool.stateTx[tid]? with
  | some entry => exact .inl ⟨entry, rfl⟩
  | none =>
    obtain ⟨minimal, hmin⟩ : ∃ minimal, l.pool.minimumPoolFeePerByte = .ok minimal := by
      rw [Pool.minimumPoolFeePerByte]
      rcases h.pool.minimumEntry with ⟨hmin, -⟩ | ⟨_, _, hmin, -⟩ <;> exact ⟨_, by rw [hmin]; rfl⟩
    by_cases hlow : maxPoolSize ≤ l.pool.totalSize ∧
        Lower (poolEntry tx binaryTx).feePerByte tid minimal.1 minimal.2
    · exact .inr (.inl (h.pool.crowded_of_low hlt hlow.1 hmin hlow.2))
    · refine .inr (.inr ?_)
      cases hspent : l.firstSpent tx.keyInputs with
      | some height =>
        obtain ⟨input, hinput, hread⟩ := List.exists_of_findSome?_eq_some hspent
        exact .spent (List.mem_map_of_mem hinput) hread
      | none =>
        cases hsemantic : validateSemantic env.crypto false tx true with
        | error e => exact .invalid hsemantic
        | ok fee =>
          cases hredo : redoTransactionGetError env tx
              { blockHeight := unlockHeight, unlockTimestamp := unlockTimestamp,
                parentState := l.index.view } true with
          | error stop =>
            cases stop with
            | fault f =>
              exact absurd hredo (DeltaState.redoTransaction_ne_fault true
                (nodup_of_validateSemantic hsemantic) f)
            | reject e height => exact .rejected hredo
          | ok q =>
            -- every check is passed
            obtain ⟨memoryState, globalIndices, height⟩ := q
            refine absurd ⟨memoryState.keyimages.toList.map (·.1), height, ?_⟩ hnot
            refine ⟨habsent, ⟨minimal, hmin, ?_, ?_⟩, ?_, hspent, ⟨fee, hsemantic⟩,
              ⟨memoryState, globalIndices, hredo, rfl⟩⟩
            · exact fun ⟨hfull, hfee⟩ ↦ hlow ⟨hfull, .inl hfee⟩
            · exact fun ⟨hfull, hfee⟩ ↦ hlow ⟨hfull, .inr hfee⟩
            · exact checkFirstConflict_of_free fun input hinput ↦
                hfree _ (List.mem_map_of_mem hinput)

/-- A transaction got in, and nothing went but what is outranked by all that stays. -/
structure Entered (l l' : Ledger) (tid : Hash) (entry : PoolTransaction) : Prop where
  mem : l'.pool.stateTx[tid]? = some entry
  within : ∀ (a : Hash) (e : PoolTransaction), l'.pool.stateTx[a]? = some e →
    l.pool.stateTx[a]? = some e ∨ a = tid ∧ e = entry
  kept : ∀ (a : Hash) (e : PoolTransaction), l.pool.stateTx[a]? = some e →
    l'.pool.stateTx[a]? = some e ∨ l'.pool.Crowded e.feePerByte a
  crowded : ∀ (fpb : Amount) (a : Hash), l.pool.Crowded fpb a → l'.pool.Crowded fpb a

/-- **Adding a transaction without conflicts.** -/
theorem Sound.addTransactionAt_free (h : l.Sound env) (hgoes : tx.Goes env tid binaryTx)
    (hfree : ∀ ki ∈ tx.keyImages, l.pool.stateKiTx[ki]? = none) {r : AddTransactionResult}
    (hadd : l.addTransactionAt env tid tx binaryTx unlockHeight unlockTimestamp true =
      .ok (l', r, height)) :
    l' = l ∧ ((∃ entry, l.pool.stateTx[tid]? = some entry) ∨
      l.pool.Crowded (poolEntry tx binaryTx).feePerByte tid ∨
      l.index.Unfit env tx unlockHeight unlockTimestamp) ∨
    Entered l l' tid (poolEntry tx binaryTx) := by
  rcases addTransactionAt_cases hadd with ⟨rfl, -, hnot⟩ | ⟨keyImages, p, ha, hp, hend⟩
  · exact .inl ⟨rfl, h.not_admissible hfree hnot⟩
  · have hdisplace : displace l.pool tid (poolEntry tx binaryTx).feePerByte keyImages =
        .ok (l.pool, true) := Pool.displace_of_free fun ki hki ↦ hfree ki (ha.perm.mem_iff.mp hki)
    cases hp.symm.trans hdisplace
    rcases hend with ⟨hfalse, -⟩ | ⟨pool₁, pool₂, -, hinsert, hevict, rfl, rfl⟩
    · cases hfalse
    · obtain ⟨_, hsemantic⟩ := ha.semantic
      have hentry : (poolEntry tx binaryTx).tx.Goes env tid (poolEntry tx binaryTx).binaryTx := hgoes
      obtain ⟨pool₁', hinsert', h₁, htable⟩ := h.pool.insertTransaction hentry
        (nodup_of_validateSemantic hsemantic) ha.absent (fun ki hki ↦ hfree ki (ha.perm.mem_iff.mp hki))
        ha.perm
      cases hinsert.symm.trans hinsert'
      have hnew (a : Hash) (e : PoolTransaction) : pool₁.stateTx[a]? = some e ↔
          a = tid ∧ e = poolEntry tx binaryTx ∨ l.pool.stateTx[a]? = some e := by
        rw [htable, Table.get_insert]
        by_cases hat : tid = a
        · subst hat
          rw [if_pos rfl, ha.absent]
          simp [eq_comm]
        · simp [hat, Ne.symm hat]
      have htotal : pool₁.stateTx.total PoolTransaction.size =
          (poolEntry tx binaryTx).size + l.pool.stateTx.total PoolTransaction.size := by
        rw [htable]
        exact Table.total_insert _ _ ha.absent
      have hsmall : (poolEntry tx binaryTx).size < 2 ^ 32 := hgoes.small
      have hlt := h.pool.total_lt h.bounded
      obtain ⟨hwithin, hfull, hkept⟩ := h₁.evict_crowds (by omega) hevict
      refine .inr ⟨(h.addTransactionAt hgoes hadd).2 rfl, fun a e hae ↦ ?_, fun a e hae ↦ ?_,
        fun fpb a hcrowded ↦ ?_⟩
      · exact ((hnew a e).mp (hwithin a e hae)).symm
      · exact hkept a e ((hnew a e).mpr (.inr hae))
      · have hfull₁ : maxPoolSize ≤ pool₁.totalSize := by
          have hmax := hcrowded.1
          rw [UInt64.le_iff_toNat_le, h.pool.toNat_totalSize (by omega)] at hmax
          rw [UInt64.le_iff_toNat_le, h₁.toNat_totalSize (by omega), htotal]
          omega
        refine ⟨hfull hfull₁, fun a' e' hae' ↦ ?_⟩
        rcases (hnew a' e').mp (hwithin a' e' hae') with ⟨rfl, rfl⟩ | hold
        · -- it was let in past the lowest transaction, which outranks what was turned away
          obtain ⟨tid₀, entry₀, hmin, hleast⟩ := h.pool.exists_least (by omega) hcrowded.1
          obtain ⟨minimal, hmin', hlow, htie⟩ := ha.fee
          cases hmin.symm.trans hmin'
          refine (hcrowded.2 _ _ hleast.mem).trans (Lower.of_not ?_ ?_)
          · rintro (hfee | hfee)
            · exact hlow ⟨hcrowded.1, hfee⟩
            · exact htie ⟨hcrowded.1, hfee⟩
          · rintro rfl
            cases hleast.mem.symm.trans ha.absent
        · exact hcrowded.2 a' e' hold

end Ledger

end CryoNero
