import CryoNero.Store.Buckets
import CryoNero.Ledger.Delta
import CryoNero.Chain.Admission

/-!
# The tables of the pool agree

The pool keeps its transactions in one table and three indexes beside it: by key image, by fee per
byte, and the total of the sizes. All four are changed by hand wherever a transaction enters or
leaves. `Pool.Consistent` says that they describe the same set of transactions; as long as they do,
no removal can fail.
-/

namespace CryoNero

open Seria Store

/-- A transaction goes with its hash and with its bytes. -/
structure Transaction.Goes (env : Env) (tx : Transaction) (tid : Hash) (binaryTx : Bytes) :
    Prop where
  written : writeTransaction tx = some binaryTx
  hash : getTransactionHash env.crypto tx = some tid
  small : binaryTx.length < 2 ^ 32

/-- The size of a transaction in the pool. -/
def PoolTransaction.size (p : PoolTransaction) : ℕ := p.binaryTx.length

namespace Pool

/-- The relation that the index by fee holds. -/
def HasFee (pool : Pool) (fpb : Amount) (tid : Hash) : Prop :=
  ∃ entry, pool.stateTx[tid]? = some entry ∧ entry.feePerByte = fpb

structure Consistent (env : Env) (pool : Pool) : Prop where
  goes : ∀ {tid : Hash} {entry : PoolTransaction}, pool.stateTx[tid]? = some entry →
    entry.tx.Goes env tid entry.binaryTx
  nodup : ∀ {tid : Hash} {entry : PoolTransaction}, pool.stateTx[tid]? = some entry →
    entry.tx.keyImages.Nodup
  keyImage : ∀ {ki : KeyImage} {tid : Hash}, pool.stateKiTx[ki]? = some tid ↔
    ∃ entry, pool.stateTx[tid]? = some entry ∧ ki ∈ entry.tx.keyImages
  fee : Bucketed pool.stateFeeTx pool.HasFee
  size : pool.totalSize = UInt64.ofNat (pool.stateTx.total PoolTransaction.size)

variable {env : Env} {pool pool' : Pool} {tid : Hash} {entry : PoolTransaction}

theorem consistent_empty : Consistent env {} where
  goes h := by cases (Std.ExtTreeMap.getElem?_empty).symm.trans h
  nodup h := by cases (Std.ExtTreeMap.getElem?_empty).symm.trans h
  keyImage := by
    intro ki tid
    constructor
    · intro h
      cases (Std.ExtTreeMap.getElem?_empty).symm.trans h
    · rintro ⟨entry, h, -⟩
      cases (Std.ExtTreeMap.getElem?_empty).symm.trans h
  fee := by
    have hnone : HasFee ({} : Pool) = fun _ _ ↦ False := by
      funext fpb tid
      refine propext ⟨?_, False.elim⟩
      rintro ⟨entry, h, -⟩
      cases (Std.ExtTreeMap.getElem?_empty).symm.trans h
    rw [hnone]
    exact Bucketed.empty
  size := by rw [Table.total_empty]; rfl

theorem Consistent.size_pos (h : pool.Consistent env) (htid : pool.stateTx[tid]? = some entry) :
    0 < entry.size :=
  List.length_pos_iff.mpr (writeTransaction_ne_nil (h.goes htid).written)

theorem Consistent.disjoint (h : pool.Consistent env) {tid' : Hash} {entry' : PoolTransaction}
    {ki : KeyImage} (htid : pool.stateTx[tid]? = some entry)
    (htid' : pool.stateTx[tid']? = some entry') (hki : ki ∈ entry.tx.keyImages)
    (hki' : ki ∈ entry'.tx.keyImages) : tid = tid' := by
  have h₁ := h.keyImage.mpr ⟨entry, htid, hki⟩
  have h₂ := h.keyImage.mpr ⟨entry', htid', hki'⟩
  exact Option.some.inj (h₁.symm.trans h₂)

/-! ## Removal -/

private theorem eraseKeyImages_completes (pool : Pool) {inputs : List KeyInput}
    (hthere : ∀ input ∈ inputs, ∃ tid : Hash, pool.stateKiTx[input.keyImage]? = some tid)
    (hnodup : (inputs.map (·.keyImage)).Nodup) :
    ∃ t : Table KeyImage Hash, inputs.foldlM (fun pool input ↦ pool.eraseKeyImage input.keyImage)
        pool = .ok { pool with stateKiTx := t } ∧
      ∀ ki : KeyImage, t[ki]? =
        if ki ∈ inputs.map (·.keyImage) then none else pool.stateKiTx[ki]? := by
  have hloop := foldlM_completes
    (f := fun (pool : Pool) (input : KeyInput) ↦ pool.eraseKeyImage input.keyImage) (l := inputs)
    (fun done p ↦ ∃ t : Table KeyImage Hash, p = { pool with stateKiTx := t } ∧
      ∀ ki : KeyImage, t[ki]? =
        if ki ∈ done.map (·.keyImage) then none else pool.stateKiTx[ki]?) (s := pool)
    ⟨_, rfl, fun ki ↦ by simp⟩ ?_
  · obtain ⟨_, hpool', t, rfl, ht⟩ := hloop
    exact ⟨t, hpool', ht⟩
  · rintro done input rest _ hl ⟨t, rfl, ht⟩
    obtain ⟨tid, htid⟩ := hthere input (by rw [hl]; simp)
    have hfresh : input.keyImage ∉ done.map (·.keyImage) := by
      rw [hl, List.map_append, List.map_cons, List.nodup_middle, List.nodup_cons] at hnodup
      exact fun hmem ↦ hnodup.1 (List.mem_append_left _ hmem)
    have hget : t[input.keyImage]? = some tid := by rw [ht, if_neg hfresh, htid]
    refine ⟨{ pool with stateKiTx := t.erase input.keyImage }, ?_, _, rfl, fun ki ↦ ?_⟩
    · unfold eraseKeyImage
      rw [Table.delOld_of_some hget]
      rfl
    · rw [Table.get_erase, ht, List.map_append, List.map_singleton]
      by_cases hki : input.keyImage = ki
      · rw [if_pos hki, if_pos (List.mem_append_right _ (List.mem_singleton.mpr hki.symm))]
      · rw [if_neg hki]
        simp only [List.mem_append, List.mem_singleton, Ne.symm hki, or_false]

/-- **Removal.** It never fails, and takes the transaction out of all four. -/
theorem Consistent.removeFromPool (h : pool.Consistent env) (tid : Hash) :
    ∃ pool', pool.removeFromPool tid = .ok pool' ∧ pool'.Consistent env ∧
      pool'.stateTx = pool.stateTx.erase tid := by
  unfold Pool.removeFromPool
  cases hentry : pool.stateTx[tid]? with
  | none => exact ⟨pool, rfl, h, (Table.erase_of_get_eq_none hentry).symm⟩
  | some entry =>
    have hold {a : Hash} {e : PoolTransaction} : (pool.stateTx.erase tid)[a]? = some e ↔
        a ≠ tid ∧ pool.stateTx[a]? = some e := by
      rw [Table.get_erase]
      by_cases ha : tid = a
      · simp [ha]
      · simp [ha, Ne.symm ha]
    obtain ⟨t, ht, herased⟩ := eraseKeyImages_completes pool
      (fun input hinput ↦ ⟨tid, h.keyImage.mpr ⟨entry, hentry, List.mem_map_of_mem hinput⟩⟩)
      (h.nodup hentry)
    have hmember : ((pool.stateFeeTx[entry.feePerByte]?).getD ∅)[tid]? = some () :=
      h.fee.mem_getD.mpr ⟨entry, hentry, rfl⟩
    refine ⟨_, bind_eq_ok.mpr ⟨_, ht, bind_eq_ok.mpr ⟨{ pool with
        stateKiTx := t
        stateFeeTx :=
          if (((pool.stateFeeTx[entry.feePerByte]?).getD ∅).erase tid).isEmpty then
            pool.stateFeeTx.erase entry.feePerByte
          else pool.stateFeeTx.insert entry.feePerByte
            (((pool.stateFeeTx[entry.feePerByte]?).getD ∅).erase tid) }, ?_, rfl⟩⟩, ?_, rfl⟩
    · unfold eraseFee
      dsimp only
      rw [Table.delOld_of_some hmember]
      rfl
    · refine ⟨fun hget ↦ h.goes (hold.mp hget).2, fun hget ↦ h.nodup (hold.mp hget).2,
        fun {ki a} ↦ ?_, ?_, ?_⟩
      · change t[ki]? = some a ↔ ∃ e, (pool.stateTx.erase tid)[a]? = some e ∧ ki ∈ e.tx.keyImages
        rw [herased]
        split_ifs with hki
        · constructor
          · intro hfalse
            cases hfalse
          · rintro ⟨e, he, hmem⟩
            exact absurd (h.disjoint (hold.mp he).2 hentry hmem hki) (hold.mp he).1
        · rw [h.keyImage]
          constructor
          · rintro ⟨e, he, hmem⟩
            refine ⟨e, hold.mpr ⟨?_, he⟩, hmem⟩
            rintro rfl
            cases hentry.symm.trans he
            exact hki hmem
          · rintro ⟨e, he, hmem⟩
            exact ⟨e, (hold.mp he).2, hmem⟩
      · have hrel : HasFee { pool with stateTx := pool.stateTx.erase tid } =
            fun k' a' ↦ pool.HasFee k' a' ∧ ¬(k' = entry.feePerByte ∧ a' = tid) := by
          funext k' a'
          refine propext ⟨?_, ?_⟩
          · rintro ⟨e, he, hfee⟩
            exact ⟨⟨e, (hold.mp he).2, hfee⟩, fun hka ↦ (hold.mp he).1 hka.2⟩
          · rintro ⟨⟨e, he, hfee⟩, hne⟩
            refine ⟨e, hold.mpr ⟨?_, he⟩, hfee⟩
            rintro rfl
            cases hentry.symm.trans he
            exact hne ⟨hfee.symm, rfl⟩
        change Bucketed _ (HasFee { pool with stateTx := pool.stateTx.erase tid })
        rw [hrel]
        exact h.fee.remove entry.feePerByte tid
      · change pool.totalSize - UInt64.ofNat entry.size =
          UInt64.ofNat (Table.total PoolTransaction.size (pool.stateTx.erase tid))
        rw [h.size, Table.total_of_get _ hentry, UInt64.ofNat_add]
        grind

end Pool

end CryoNero
