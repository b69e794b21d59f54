import CryoNero.Pool.Consistent

/-!
# Priorities in the pool

A transaction has a lower priority than another one if it pays less per byte, or the same and has the
smaller hash. The transaction with the lowest priority of all decides who is let into a full pool,
and goes first when the pool is too large. This is what keeps the pool bounded (`Pool.Bounded`), and
what keeps a transaction that was let in from being pushed out by its own arrival.
-/

namespace CryoNero

open Seria Store

/-- One priority is lower than another. -/
def Lower (fpb : Amount) (tid : Hash) (fpb' : Amount) (tid' : Hash) : Prop :=
  fpb < fpb' ∨ fpb = fpb' ∧ tid < tid'

theorem toNat_maxPoolSize : maxPoolSize.toNat = 2000000 := rfl

variable {fpb fpb' : Amount} {tid tid' : Hash}

theorem Lower.asymm (h : Lower fpb tid fpb' tid') : ¬Lower fpb' tid' fpb tid := by
  rcases h with h | ⟨rfl, h⟩
  · rintro (h' | ⟨rfl, -⟩)
    · exact UInt64.lt_asymm h h'
    · exact UInt64.lt_irrefl _ h
  · rintro (h' | ⟨-, h'⟩)
    · exact UInt64.lt_irrefl _ h'
    · exact BitVec.lt_asymm h h'

private theorem lower_of_compare (hfee : compare fpb fpb' ≠ .gt)
    (htid : fpb' = fpb → compare tid tid' ≠ .gt) :
    tid' = tid ∨ Lower fpb tid fpb' tid' := by
  have hle : fpb ≤ fpb' := by
    rw [← Std.isLE_compare]
    cases hc : compare fpb fpb' with
    | gt => exact absurd hc hfee
    | _ => rfl
  rcases UInt64.lt_or_eq_of_le hle with hlt | heq
  · exact .inr (.inl hlt)
  · have hne := htid heq.symm
    change compareOfLessAndEq tid tid' ≠ .gt at hne
    unfold compareOfLessAndEq at hne
    split_ifs at hne with hlt hsame
    · exact .inr (.inr ⟨heq, hlt⟩)
    · exact .inl hsame.symm
    · exact absurd rfl hne

namespace Pool

variable {env : Env} {pool pool' : Pool} {entry : PoolTransaction}

/-- A transaction of the pool has the lowest priority. -/
structure Least (pool : Pool) (tid : Hash) (entry : PoolTransaction) : Prop where
  mem : pool.stateTx[tid]? = some entry
  lower : ∀ {tid' : Hash} {entry' : PoolTransaction}, pool.stateTx[tid']? = some entry' →
    tid' = tid ∨ Lower entry.feePerByte tid entry'.feePerByte tid'

/-- The size of the pool is at most its maximum, or not more than that without the transaction with
the lowest priority. -/
def Bounded (pool : Pool) : Prop :=
  pool.stateTx.total PoolTransaction.size ≤ maxPoolSize.toNat ∨
    ∃ tid entry, pool.Least tid entry ∧
      pool.stateTx.total PoolTransaction.size < maxPoolSize.toNat + entry.size

/-- Everything in one pool is in the other. -/
def Within (pool' pool : Pool) : Prop :=
  ∀ (tid : Hash) (entry : PoolTransaction), pool'.stateTx[tid]? = some entry →
    pool.stateTx[tid]? = some entry

theorem Within.trans {pool'' : Pool} (h : pool''.Within pool') (h' : pool'.Within pool) :
    pool''.Within pool := fun tid entry htid ↦ h' tid entry (h tid entry htid)

theorem within_of_erase (h : pool'.stateTx = pool.stateTx.erase tid) : pool'.Within pool := by
  intro a e ha
  rw [h, Table.get_erase] at ha
  split_ifs at ha
  exact ha

/-- The index by fee finds the transaction with the lowest priority. -/
theorem Consistent.minimumEntry (h : pool.Consistent env) :
    pool.minimumEntry = .ok none ∧ (∀ tid : Hash, pool.stateTx[tid]? = none) ∨
      ∃ tid entry, pool.minimumEntry = .ok (some (entry.feePerByte, tid)) ∧ pool.Least tid entry := by
  unfold Pool.minimumEntry
  cases hhead : pool.stateFeeTx.toList.head? with
  | none =>
    refine .inl ⟨rfl, fun tid ↦ ?_⟩
    cases htid : pool.stateTx[tid]? with
    | none => rfl
    | some entry => exact absurd ⟨entry, htid, rfl⟩ (h.fee.head?_eq_none hhead entry.feePerByte tid)
  | some p =>
    obtain ⟨fpb, hashes⟩ := p
    obtain ⟨tid, hfirst, ⟨entry, hentry, rfl⟩, hleast⟩ := h.fee.head?_eq_some hhead
    refine .inr ⟨tid, entry, ?_, hentry, fun {tid' entry'} htid' ↦ ?_⟩
    · dsimp only
      rw [hfirst]
    · obtain ⟨hfee, htid⟩ := hleast entry'.feePerByte tid' ⟨entry', htid', rfl⟩
      exact lower_of_compare hfee htid

theorem Least.unique (h : pool.Least tid entry) {entry' : PoolTransaction}
    (h' : pool.Least tid' entry') : tid = tid' ∧ entry = entry' := by
  have htid : tid = tid' := by
    rcases h.lower h'.mem with heq | hlower
    · exact heq.symm
    · exact (h'.lower h.mem).resolve_right hlower.asymm
  subst htid
  exact ⟨rfl, Option.some.inj (h.mem.symm.trans h'.mem)⟩

theorem Consistent.total_lt (h : pool.Consistent env) (hb : pool.Bounded) :
    pool.stateTx.total PoolTransaction.size < 2 ^ 33 := by
  rcases hb with hle | ⟨tid, entry, hleast, hlt⟩
  · rw [toNat_maxPoolSize] at hle
    omega
  · have hsmall : entry.size < 2 ^ 32 := (h.goes hleast.mem).small
    rw [toNat_maxPoolSize] at hlt
    omega

theorem Consistent.toNat_totalSize (h : pool.Consistent env)
    (hlt : pool.stateTx.total PoolTransaction.size < 2 ^ 64) :
    pool.totalSize.toNat = pool.stateTx.total PoolTransaction.size := by
  rw [h.size, UInt64.toNat_ofNat']
  exact Nat.mod_eq_of_lt hlt

/-- A part of a bounded pool that was left by a removal is bounded. -/
theorem Bounded.erase (hb : pool.Bounded) (h : pool'.stateTx = pool.stateTx.erase tid) :
    pool'.Bounded := by
  have hle : pool'.stateTx.total PoolTransaction.size ≤ pool.stateTx.total PoolTransaction.size :=
    Table.total_le_of_subset _ (within_of_erase h)
  rcases hb with hmax | ⟨tid₀, entry₀, hleast, hlt⟩
  · exact .inl (hle.trans hmax)
  · by_cases htid : tid₀ = tid
    · subst htid
      have htotal := Table.total_of_get PoolTransaction.size hleast.mem
      refine .inl ?_
      rw [h]
      omega
    · refine .inr ⟨tid₀, entry₀, ⟨?_, fun hget ↦ hleast.lower (within_of_erase h _ _ hget)⟩, by omega⟩
      rw [h, Table.get_erase_of_ne _ (Ne.symm htid)]
      exact hleast.mem

end Pool

end CryoNero
