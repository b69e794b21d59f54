import CryoNero.Pool.Priority

/-!
# Into the pool and out of it

The three parts of adding a transaction that change the pool: others are displaced, the transaction
is inserted, and the pool is cut back to its maximum. Each keeps the pool consistent and none can
fail. A transaction that was let into the pool by its priority stays there when the pool is cut back.
-/

namespace CryoNero

open Seria Store

namespace Pool

variable {env : Env} {pool pool' : Pool} {tid : Hash} {entry : PoolTransaction} {fpb : Amount}
  {kis : List KeyImage}

/-! ## Displacing -/

/-- A key image that nothing in the pool spends is not spent by a part of the pool. -/
theorem Consistent.free_of_within (h : pool.Consistent env) (h' : pool'.Consistent env)
    (hwithin : pool'.Within pool) {ki : KeyImage} (hfree : pool.stateKiTx[ki]? = none) :
    pool'.stateKiTx[ki]? = none := by
  cases hget : pool'.stateKiTx[ki]? with
  | none => rfl
  | some tid =>
    obtain ⟨entry, hentry, hki⟩ := h'.keyImage.mp hget
    rw [h.keyImage.mpr ⟨entry, hwithin _ _ hentry, hki⟩] at hfree
    cases hfree

/-- With a transaction go its key images. -/
theorem Consistent.free_of_erase (h : pool.Consistent env) (h' : pool'.Consistent env)
    (herase : pool'.stateTx = pool.stateTx.erase tid) {ki : KeyImage}
    (hki : pool.stateKiTx[ki]? = some tid) : pool'.stateKiTx[ki]? = none := by
  cases hget : pool'.stateKiTx[ki]? with
  | none => rfl
  | some tid' =>
    obtain ⟨entry, hentry, hmem⟩ := h'.keyImage.mp hget
    have hsame := h.keyImage.mpr ⟨entry, within_of_erase herase _ _ hentry, hmem⟩
    rw [hki] at hsame
    rw [herase, ← Option.some.inj hsame, Table.get_erase_self] at hentry
    cases hentry

theorem Consistent.at' (h : pool.Consistent env) {ki : KeyImage}
    (hki : pool.stateKiTx[ki]? = some tid) : ∃ entry, pool.at' tid = .ok entry ∧
      pool.stateTx[tid]? = some entry := by
  obtain ⟨entry, hentry, -⟩ := h.keyImage.mp hki
  exact ⟨entry, orFail_eq_ok.mpr hentry, hentry⟩

/-- **Displacing** others never fails, and frees the key images unless it is given up. -/
theorem Consistent.displace (tid : Hash) (fpb : Amount) : ∀ (kis : List KeyImage) {pool : Pool},
    pool.Consistent env → pool.Bounded →
    ∃ p, Ledger.displace pool tid fpb kis = .ok p ∧ p.1.Consistent env ∧ p.1.Bounded ∧
      p.1.Within pool ∧ (p.2 = true → ∀ ki ∈ kis, p.1.stateKiTx[ki]? = none) := by
  intro kis
  induction kis with
  | nil =>
    intro pool h hb
    exact ⟨(pool, true), rfl, h, hb, fun _ _ ht ↦ ht, fun _ _ hki ↦ by cases hki⟩
  | cons ki rest ih =>
    intro pool h hb
    rw [Ledger.displace]
    cases hki : pool.stateKiTx[ki]? with
    | none =>
      obtain ⟨p, hp, hp₁, hbound, hwithin, hfree⟩ := ih h hb
      refine ⟨p, hp, hp₁, hbound, hwithin, fun hp₂ a ha ↦ ?_⟩
      rcases List.mem_cons.mp ha with rfl | ha
      · exact h.free_of_within hp₁ hwithin hki
      · exact hfree hp₂ a ha
    | some other =>
      obtain ⟨otherTx, hat, -⟩ := h.at' hki
      dsimp only
      rw [hat, ok_bind]
      split_ifs with hlow
      · exact ⟨(pool, false), rfl, h, hb, fun _ _ ht ↦ ht, fun hfalse ↦ by cases hfalse⟩
      · obtain ⟨pool₁, hremove, h₁, herase⟩ := h.removeFromPool other
        obtain ⟨p, hp, hp₁, hbound, hwithin, hfree⟩ := ih h₁ (hb.erase herase)
        rw [hremove, ok_bind]
        refine ⟨p, hp, hp₁, hbound, hwithin.trans (within_of_erase herase), fun hp₂ a ha ↦ ?_⟩
        rcases List.mem_cons.mp ha with rfl | ha
        · exact h₁.free_of_within hp₁ hwithin (h.free_of_erase h₁ herase hki)
        · exact hfree hp₂ a ha

/-! ## Inserting -/

private theorem insertKeyImages_completes (t : Table KeyImage Hash) (tid : Hash) (hnodup : kis.Nodup)
    (hfree : ∀ ki ∈ kis, t[ki]? = none) :
    ∃ t' : Table KeyImage Hash, kis.foldlM (fun (t : Table KeyImage Hash) ki ↦
        orFail Fault.invariantViolated (t.putNew ki tid)) t = .ok t' ∧
      ∀ ki : KeyImage, t'[ki]? = if ki ∈ kis then some tid else t[ki]? := by
  refine foldlM_completes
    (f := fun (t : Table KeyImage Hash) ki ↦ orFail Fault.invariantViolated (t.putNew ki tid))
    (l := kis) (fun done (t' : Table KeyImage Hash) ↦
      ∀ ki : KeyImage, t'[ki]? = if ki ∈ done then some tid else t[ki]?) (s := t) ?_ ?_
  · intro ki
    rw [if_neg List.not_mem_nil]
  · intro done ki rest t' hl ht'
    have hnew : ki ∉ done := by
      rw [hl, List.nodup_middle, List.nodup_cons] at hnodup
      exact fun hmem ↦ hnodup.1 (List.mem_append_left _ hmem)
    have hget : t'[ki]? = none := by
      rw [ht', if_neg hnew]
      exact hfree ki (by rw [hl]; simp)
    refine ⟨t'.insert ki tid, orFail_eq_ok.mpr (Table.putNew_of_none tid hget), fun a ↦ ?_⟩
    rw [Table.get_insert, ht']
    by_cases ha : ki = a
    · rw [if_pos ha, if_pos (List.mem_append_right _ (List.mem_singleton.mpr ha.symm))]
    · rw [if_neg ha]
      simp only [List.mem_append, List.mem_singleton, Ne.symm ha, or_false]

/-- **Inserting** a transaction that is not there, with key images that are free, never fails. -/
theorem Consistent.insertTransaction (h : pool.Consistent env)
    (hgoes : entry.tx.Goes env tid entry.binaryTx) (hnodup : entry.tx.keyImages.Nodup)
    (habsent : pool.stateTx[tid]? = none) (hfree : ∀ ki ∈ kis, pool.stateKiTx[ki]? = none)
    (hperm : kis.Perm entry.tx.keyImages) :
    ∃ pool', Ledger.insertTransaction pool tid entry entry.feePerByte kis = .ok pool' ∧
      pool'.Consistent env ∧ pool'.stateTx = pool.stateTx.insert tid entry := by
  obtain ⟨t, ht, hget⟩ := insertKeyImages_completes pool.stateKiTx tid (hperm.nodup_iff.mpr hnodup)
    hfree
  have hmember : ((pool.stateFeeTx[entry.feePerByte]?).getD ∅)[tid]? = none := by
    cases hm : ((pool.stateFeeTx[entry.feePerByte]?).getD ∅)[tid]? with
    | none => rfl
    | some u =>
      obtain ⟨entry', hentry', -⟩ := h.fee.mem_getD.mp hm
      rw [habsent] at hentry'
      cases hentry'
  have hnew {a : Hash} {e : PoolTransaction} : (pool.stateTx.insert tid entry)[a]? = some e ↔
      a = tid ∧ e = entry ∨ pool.stateTx[a]? = some e := by
    rw [Table.get_insert]
    by_cases ha : tid = a
    · subst ha
      rw [if_pos rfl, habsent]
      simp [eq_comm]
    · simp [ha, Ne.symm ha]
  refine ⟨{ stateKiTx := t
            stateTx := pool.stateTx.insert tid entry
            stateFeeTx := pool.stateFeeTx.insert entry.feePerByte
              (((pool.stateFeeTx[entry.feePerByte]?).getD ∅).insert tid ())
            totalSize := pool.totalSize + UInt64.ofNat entry.binaryTx.length }, ?_, ?_, rfl⟩
  · refine bind_eq_ok.mpr ⟨t, ht, bind_eq_ok.mpr ⟨_, orFail_eq_ok.mpr
      (Table.putNew_of_none entry habsent), bind_eq_ok.mpr ⟨_, orFail_eq_ok.mpr
      (Table.putNew_of_none () hmember), rfl⟩⟩⟩
  · refine ⟨fun hget ↦ ?_, fun hget ↦ ?_, fun {ki a} ↦ ?_, ?_, ?_⟩
    · rcases hnew.mp hget with ⟨rfl, rfl⟩ | hold
      · exact hgoes
      · exact h.goes hold
    · rcases hnew.mp hget with ⟨rfl, rfl⟩ | hold
      · exact hnodup
      · exact h.nodup hold
    · change t[ki]? = some a ↔
        ∃ e, (pool.stateTx.insert tid entry)[a]? = some e ∧ ki ∈ e.tx.keyImages
      rw [hget]
      split_ifs with hki
      · constructor
        · intro ha
          cases ha
          exact ⟨entry, hnew.mpr (.inl ⟨rfl, rfl⟩), hperm.mem_iff.mp hki⟩
        · rintro ⟨e, he, hmem⟩
          rcases hnew.mp he with ⟨rfl, rfl⟩ | hold
          · rfl
          · have hused := h.keyImage.mpr ⟨e, hold, hmem⟩
            rw [hfree ki hki] at hused
            cases hused
      · rw [h.keyImage]
        constructor
        · rintro ⟨e, he, hmem⟩
          exact ⟨e, hnew.mpr (.inr he), hmem⟩
        · rintro ⟨e, he, hmem⟩
          rcases hnew.mp he with ⟨rfl, rfl⟩ | hold
          · exact absurd (hperm.mem_iff.mpr hmem) hki
          · exact ⟨e, hold, hmem⟩
    · have hrel : HasFee { pool with stateTx := pool.stateTx.insert tid entry } =
          fun k' a' ↦ pool.HasFee k' a' ∨ k' = entry.feePerByte ∧ a' = tid := by
        funext k' a'
        refine propext ⟨?_, ?_⟩
        · rintro ⟨e, he, hfee⟩
          rcases hnew.mp he with ⟨rfl, rfl⟩ | hold
          · exact .inr ⟨hfee.symm, rfl⟩
          · exact .inl ⟨e, hold, hfee⟩
        · rintro (⟨e, he, hfee⟩ | ⟨rfl, rfl⟩)
          · exact ⟨e, hnew.mpr (.inr he), hfee⟩
          · exact ⟨entry, hnew.mpr (.inl ⟨rfl, rfl⟩), rfl⟩
      change Bucketed _ (HasFee { pool with stateTx := pool.stateTx.insert tid entry })
      rw [hrel]
      exact h.fee.insert entry.feePerByte tid
    · change pool.totalSize + UInt64.ofNat entry.size =
        UInt64.ofNat (Table.total PoolTransaction.size (pool.stateTx.insert tid entry))
      rw [h.size, Table.total_insert _ _ habsent, UInt64.ofNat_add]
      exact UInt64.add_comm _ _

/-! ## Cutting back -/

/-- The transactions of the pool with a higher priority than this one stay below the maximum, in
whatever selection. -/
def Shielded (pool : Pool) (tid : Hash) (entry : PoolTransaction) : Prop :=
  ∀ q : Table Hash PoolTransaction, (∀ (a : Hash) (e : PoolTransaction), q[a]? = some e →
    pool.stateTx[a]? = some e ∧ Lower entry.feePerByte tid e.feePerByte a) →
    q.total PoolTransaction.size < maxPoolSize.toNat

theorem Shielded.within (h : pool.Shielded tid entry) (hwithin : pool'.Within pool) :
    pool'.Shielded tid entry :=
  fun q hq ↦ h q fun a e ha ↦ ⟨hwithin a e (hq a e ha).1, (hq a e ha).2⟩

/-- **Cutting back** never fails, leaves the pool bounded, and does not touch a shielded
transaction. -/
theorem Consistent.evict : ∀ {fuel : ℕ} {pool : Pool}, pool.Consistent env →
    pool.stateTx.total PoolTransaction.size < 2 ^ 64 → pool.stateTx.size < fuel →
    ∃ pool', Ledger.evict fuel pool = .ok pool' ∧ pool'.Consistent env ∧ pool'.Bounded ∧
      pool'.Within pool ∧ ∀ (tid : Hash) (entry : PoolTransaction), pool.stateTx[tid]? = some entry →
        pool.Shielded tid entry → pool'.stateTx[tid]? = some entry := by
  intro fuel
  induction fuel with
  | zero =>
    intro pool h hlt hfuel
    exact absurd hfuel (Nat.not_lt_zero _)
  | succ fuel ih =>
    intro pool h hlt hfuel
    have htotal := h.toNat_totalSize hlt
    rw [Ledger.evict]
    split_ifs with hsmall
    · rw [UInt64.le_iff_toNat_le, htotal] at hsmall
      exact ⟨pool, rfl, h, .inl hsmall, fun _ _ ht ↦ ht, fun _ _ ht _ ↦ ht⟩
    · rw [UInt64.le_iff_toNat_le, htotal, not_le] at hsmall
      rcases h.minimumEntry with ⟨-, hnone⟩ | ⟨tid₀, entry₀, hmin, hleast⟩
      · -- an empty pool is not above its maximum
        have hempty : pool.stateTx = ∅ := Table.ext_get fun a ↦ by
          rw [hnone a, Std.ExtTreeMap.getElem?_empty]
        rw [hempty, Table.total_empty] at hsmall
        exact absurd hsmall (Nat.not_lt_zero _)
      · have hsize₀ : entry₀.size < 2 ^ 32 := (h.goes hleast.mem).small
        have hat : pool.at' tid₀ = .ok entry₀ := orFail_eq_ok.mpr hleast.mem
        have hlimit : (maxPoolSize + UInt64.ofNat entry₀.binaryTx.length).toNat =
            maxPoolSize.toNat + entry₀.size := by
          have hlen : entry₀.binaryTx.length < 2 ^ 32 := hsize₀
          rw [UInt64.toNat_add, UInt64.toNat_ofNat', Nat.mod_eq_of_lt (a := List.length _) (by omega)]
          exact Nat.mod_eq_of_lt (by
            change 2000000 + entry₀.binaryTx.length < 2 ^ 64
            omega)
        rw [hmin, ok_bind]
        simp only [orFail, ok_bind, hat]
        split_ifs with hstop
        · rw [UInt64.lt_iff_toNat_lt, htotal, hlimit] at hstop
          exact ⟨pool, rfl, h, .inr ⟨tid₀, entry₀, hleast, hstop⟩, fun _ _ ht ↦ ht,
            fun _ _ ht _ ↦ ht⟩
        · rw [UInt64.lt_iff_toNat_lt, htotal, hlimit, not_lt] at hstop
          obtain ⟨pool₁, hremove, h₁, herase⟩ := h.removeFromPool tid₀
          have hwithin₁ := within_of_erase herase
          have hle₁ : pool₁.stateTx.total PoolTransaction.size ≤
              pool.stateTx.total PoolTransaction.size := Table.total_le_of_subset _ hwithin₁
          have hcard : pool₁.stateTx.size < fuel := by
            have hsize := Table.size_of_get hleast.mem
            rw [herase]
            change Std.ExtTreeMap.size (pool.stateTx.erase tid₀) < _
            omega
          obtain ⟨pool', hevict, h', hb', hwithin', hkeep⟩ := ih h₁ (by omega) hcard
          rw [hremove, ok_bind]
          refine ⟨pool', hevict, h', hb', hwithin'.trans hwithin₁, fun tid entry htid hshield ↦ ?_⟩
          refine hkeep tid entry ?_ (hshield.within hwithin₁)
          rw [herase, Table.get_erase_of_ne _ ?_]
          · exact htid
          · -- were it the lowest of all, the others would fit, and nothing would be removed
            rintro rfl
            cases hleast.mem.symm.trans htid
            have hrest := hshield pool₁.stateTx fun a e ha ↦ ?_
            · rw [herase] at hrest
              have hsum := Table.total_of_get PoolTransaction.size hleast.mem
              change Table.total PoolTransaction.size (pool.stateTx.erase tid₀) < _ at hrest
              omega
            · refine ⟨hwithin₁ a e ha, (hleast.lower (hwithin₁ a e ha)).resolve_left ?_⟩
              rintro rfl
              rw [herase, Table.get_erase_self] at ha
              cases ha

end Pool

end CryoNero
