import CryoNero.Pool.States

/-!
# A transaction that is turned away

A transaction that does not enter the pool should leave it as it was. There is one way in which it
does not. The transactions that it conflicts with are removed one by one, in the order of the key
images, and the first that has the higher priority puts an end to this; those before it are gone
already. `State.Harmless` says exactly when that does not happen.
-/

namespace CryoNero

open Seria Store

namespace Pool

variable {env : Env} {pool pool' : Pool} {tid other : Hash} {entry : PoolTransaction} {fpb : Amount}
  {ki : KeyImage} {kis : List KeyImage}

/-- A transaction of the pool spends the key image. -/
def Held (pool : Pool) (ki : KeyImage) : Prop := ∃ other : Hash, pool.stateKiTx[ki]? = some other

/-- A transaction of the pool spends the key image and has a higher priority. -/
def Outranked (pool : Pool) (fpb : Amount) (tid : Hash) (ki : KeyImage) : Prop :=
  ∃ other entry, pool.stateKiTx[ki]? = some other ∧ pool.stateTx[other]? = some entry ∧
    Lower fpb tid entry.feePerByte other

theorem Outranked.held (h : pool.Outranked fpb tid ki) : pool.Held ki := by
  obtain ⟨other, _, hki, -⟩ := h
  exact ⟨other, hki⟩

theorem outranked_iff (hki : pool.stateKiTx[ki]? = some other)
    (hentry : pool.stateTx[other]? = some entry) :
    pool.Outranked fpb tid ki ↔ Lower fpb tid entry.feePerByte other := by
  constructor
  · rintro ⟨other', entry', hki', hentry', hlower⟩
    cases hki.symm.trans hki'
    cases hentry.symm.trans hentry'
    exact hlower
  · intro hlower
    exact ⟨other, entry, hki, hentry, hlower⟩

private theorem Consistent.outranked_of_erase (h : pool.Consistent env) (h' : pool'.Consistent env)
    (herase : pool'.stateTx = pool.stateTx.erase other)
    (hentry : pool.stateTx[other]? = some entry) (hlow : ¬Lower fpb tid entry.feePerByte other) :
    pool'.Outranked fpb tid ki ↔ pool.Outranked fpb tid ki := by
  constructor
  · rintro ⟨a, e, hki, he, hlower⟩
    have hold := within_of_erase herase _ _ he
    obtain ⟨e', he', hmem⟩ := h'.keyImage.mp hki
    cases he.symm.trans he'
    exact ⟨a, e, h.keyImage.mpr ⟨e, hold, hmem⟩, hold, hlower⟩
  · rintro ⟨a, e, hki, he, hlower⟩
    have hne : other ≠ a := by
      rintro rfl
      cases hentry.symm.trans he
      exact hlow hlower
    have hnew : pool'.stateTx[a]? = some e := by
      rw [herase, Table.get_erase_of_ne _ hne]
      exact he
    obtain ⟨e', he', hmem⟩ := h.keyImage.mp hki
    cases he.symm.trans he'
    exact ⟨a, e, h'.keyImage.mpr ⟨e, hnew, hmem⟩, hnew, hlower⟩

private theorem Consistent.displace_eq_false_iff : ∀ {kis : List KeyImage} {pool : Pool} {p : Pool × Bool},
    pool.Consistent env → Ledger.displace pool tid fpb kis = .ok p →
    (p.2 = false ↔ ∃ ki ∈ kis, pool.Outranked fpb tid ki) := by
  intro kis
  induction kis with
  | nil =>
    intro pool p h hp
    cases hp
    simp
  | cons ki rest ih =>
    intro pool p h hp
    rw [Ledger.displace] at hp
    rw [List.exists_mem_cons_iff]
    cases hki : pool.stateKiTx[ki]? with
    | none =>
      rw [hki] at hp
      have hnot : ¬pool.Outranked fpb tid ki := by
        rintro ⟨_, _, hki', -⟩
        rw [hki] at hki'
        cases hki'
      rw [ih h hp, or_iff_right hnot]
    | some other =>
      obtain ⟨entry, hat, hentry⟩ := h.at' hki
      rw [hki] at hp
      dsimp only at hp
      rw [hat, ok_bind] at hp
      split_ifs at hp with hlow
      · cases hp
        exact ⟨fun _ ↦ .inl ((outranked_iff hki hentry).mpr hlow), fun _ ↦ rfl⟩
      · obtain ⟨pool₁, hremove, hp⟩ := bind_eq_ok.mp hp
        obtain ⟨pool₁', hremove', h₁, herase⟩ := h.removeFromPool other
        cases hremove.symm.trans hremove'
        have hnot : ¬pool.Outranked fpb tid ki := (outranked_iff hki hentry).not.mpr hlow
        rw [ih h₁ hp, or_iff_right hnot]
        exact exists_congr fun a ↦ and_congr_right fun _ ↦
          h.outranked_of_erase h₁ herase hentry hlow

/-- **What is left behind.** When displacing is given up, the pool is as it was just when the
smallest of the key images in conflict belongs to a transaction of higher priority. -/
private theorem Consistent.displace_unchanged_iff : ∀ {kis : List KeyImage} {p : Pool × Bool},
    pool.Consistent env → pool.Bounded → kis.Pairwise (· < ·) →
    Ledger.displace pool tid fpb kis = .ok p → p.2 = false →
    (p.1 = pool ↔ ∃ ki ∈ kis, pool.Outranked fpb tid ki ∧ ∀ ki' ∈ kis, pool.Held ki' → ki ≤ ki') := by
  intro kis p h hb hsorted hp hp₂
  induction kis with
  | nil =>
    cases hp
    cases hp₂
  | cons ki rest ih =>
    rw [List.pairwise_cons] at hsorted
    rw [Ledger.displace] at hp
    cases hki : pool.stateKiTx[ki]? with
    | none =>
      rw [hki] at hp
      have hfree : ¬pool.Held ki := by
        rintro ⟨_, hki'⟩
        rw [hki] at hki'
        cases hki'
      rw [ih hsorted.2 hp]
      constructor
      · rintro ⟨a, ha, hout, hleast⟩
        refine ⟨a, List.mem_cons_of_mem _ ha, hout, fun a' ha' hheld ↦ ?_⟩
        rcases List.mem_cons.mp ha' with rfl | ha'
        · exact absurd hheld hfree
        · exact hleast a' ha' hheld
      · rintro ⟨a, ha, hout, hleast⟩
        rcases List.mem_cons.mp ha with rfl | ha
        · exact absurd hout.held hfree
        · exact ⟨a, ha, hout, fun a' ha' ↦ hleast a' (List.mem_cons_of_mem _ ha')⟩
    | some other =>
      obtain ⟨entry, hat, hentry⟩ := h.at' hki
      rw [hki] at hp
      dsimp only at hp
      rw [hat, ok_bind] at hp
      split_ifs at hp with hlow
      · cases hp
        refine ⟨fun _ ↦ ⟨ki, List.mem_cons_self, (outranked_iff hki hentry).mpr hlow,
          fun a ha _ ↦ ?_⟩, fun _ ↦ rfl⟩
        rcases List.mem_cons.mp ha with rfl | ha
        · exact BitVec.le_refl _
        · exact BitVec.le_of_lt (hsorted.1 a ha)
      · obtain ⟨pool₁, hremove, hp⟩ := bind_eq_ok.mp hp
        obtain ⟨pool₁', hremove', h₁, herase⟩ := h.removeFromPool other
        cases hremove.symm.trans hremove'
        obtain ⟨p', hp', -, -, hwithin, -⟩ := h₁.displace tid fpb rest (hb.erase herase)
        cases hp.symm.trans hp'
        constructor
        · -- the transaction removed first does not come back
          intro heq
          have hgone : pool₁.stateTx[other]? = some entry := hwithin _ _ (by rw [heq]; exact hentry)
          rw [herase, Table.get_erase_self] at hgone
          cases hgone
        · rintro ⟨a, ha, hout, hleast⟩
          have hle := hleast ki List.mem_cons_self ⟨other, hki⟩
          rcases List.mem_cons.mp ha with rfl | ha
          · exact absurd ((outranked_iff hki hentry).mp hout) hlow
          · exact absurd (hsorted.1 a ha) (BitVec.not_lt.mpr hle)

end Pool

/-- The key images of an admissible transaction are tried in their order. -/
theorem Ledger.Admissible.sorted {env : Env} {l : Ledger} {tid : Hash} {tx : Transaction}
    {binaryTx : Bytes} {unlockHeight : Height} {unlockTimestamp : Timestamp} {checkSigs : Bool}
    {keyImages : List KeyImage} {height : Height} (ha : l.Admissible env tid tx binaryTx unlockHeight
      unlockTimestamp checkSigs keyImages height) : keyImages.Pairwise (· < ·) := by
  obtain ⟨memoryState, _, -, rfl⟩ := ha.redo
  refine List.pairwise_map.mpr (Std.ExtTreeMap.ordered_keys_toList.imp fun {a b} hlt ↦ ?_)
  change compareOfLessAndEq a.1 b.1 = .lt at hlt
  unfold compareOfLessAndEq at hlt
  split_ifs at hlt with h
  exact h

/-! ## The condition -/

namespace State

variable {env : Env} {guard : State → Op → Prop} {s s' : State} {tid : Hash} {tx : Transaction}
  {binaryTx : Bytes} {r : AddTransactionResult} {height : Height}

/-- If a transaction passes the checks that come before any change of the pool, and conflicts with a
transaction of higher priority, then the smallest of its key images that are in conflict belongs to
a transaction of higher priority. -/
def Harmless (env : Env) (s : State) (tid : Hash) (tx : Transaction) (binaryTx : Bytes) : Prop :=
  ∀ header keyImages height, s.chain.getTip = .ok header →
    s.ledger.Admissible env tid tx binaryTx (s.chain.tip.tipHeight + 1) header.timestamp true
      keyImages height →
    (∃ ki ∈ tx.keyImages, s.ledger.pool.Outranked (poolEntry tx binaryTx).feePerByte tid ki) →
    ∃ ki ∈ tx.keyImages, s.ledger.pool.Outranked (poolEntry tx binaryTx).feePerByte tid ki ∧
      ∀ ki' ∈ tx.keyImages, s.ledger.pool.Held ki' → ki ≤ ki'


/-- **A transaction that is turned away leaves the pool as it was** just when it is harmless. -/
theorem Reachable.refused_unchanged_iff (h : s.Reachable env guard)
    (hadd : s.addTransaction env tid tx binaryTx = .ok (s', r, height)) :
    (r ≠ .broadcastAll → s'.ledger.pool = s.ledger.pool) ↔ s.Harmless env tid tx binaryTx := by
  have hs := h.sound
  obtain ⟨header, hheader, hadd⟩ := bind_eq_ok.mp hadd
  obtain ⟨⟨ledger, r'⟩, hok, heq⟩ := bind_eq_ok.mp hadd
  cases heq
  have hshape {keyImages : List KeyImage} {height' : Height} {p : Pool × Bool}
      (ha : s.ledger.Admissible env tid tx binaryTx (s.chain.tip.tipHeight + 1) header.timestamp true
        keyImages height')
      (hp : Ledger.displace s.ledger.pool tid (poolEntry tx binaryTx).feePerByte keyImages = .ok p)
      (hp₂ : p.2 = false) : p.1 = s.ledger.pool ↔ ∃ ki ∈ tx.keyImages,
        s.ledger.pool.Outranked (poolEntry tx binaryTx).feePerByte tid ki ∧
        ∀ ki' ∈ tx.keyImages, s.ledger.pool.Held ki' → ki ≤ ki' := by
    rw [hs.pool.displace_unchanged_iff hs.bounded ha.sorted hp hp₂]
    simp only [ha.perm.mem_iff]
  rcases Ledger.addTransactionAt_cases hok with ⟨rfl, -, hnot⟩ | ⟨keyImages, p, ha, hp, hend⟩
  · -- nothing is changed before the transaction is admissible
    refine ⟨fun _ header' keyImages height' hheader' ha ↦ ?_, fun _ _ ↦ rfl⟩
    cases hheader.symm.trans hheader'
    exact absurd ⟨keyImages, height', ha⟩ hnot
  rcases hend with ⟨hp₂, rfl, rfl⟩ | ⟨pool₁, pool₂, hp₂, -, -, rfl, rfl⟩
  · have hout : ∃ ki ∈ tx.keyImages,
        s.ledger.pool.Outranked (poolEntry tx binaryTx).feePerByte tid ki := by
      obtain ⟨ki, hki, hout⟩ := (hs.pool.displace_eq_false_iff hp).mp hp₂
      exact ⟨ki, ha.perm.mem_iff.mp hki, hout⟩
    constructor
    · intro hsame header' keyImages' height' _ _ _
      exact (hshape ha hp hp₂).mp (hsame (by decide))
    · intro hharmless _
      exact (hshape ha hp hp₂).mpr (hharmless header keyImages height hheader ha hout)
  · refine ⟨fun _ header' keyImages' height' hheader' ha' hout ↦ ?_, fun _ hr ↦ absurd rfl hr⟩
    cases hheader.symm.trans hheader'
    obtain ⟨ki, hki, hout⟩ := hout
    have hfalse := (hs.pool.displace_eq_false_iff hp).mpr ⟨ki, ha.perm.mem_iff.mpr hki, hout⟩
    rw [hp₂] at hfalse
    cases hfalse

/-! ## A transaction that is not harmless -/

/-- Two transactions that wait in the pool, the second one paying far more than the first. -/
def sampleRivals (env : Env) : List Op :=
  sampleBlocks env ++ [
    .addTransaction
      ((writeTransaction (samplePayment [⟨sampleReward, [1], 21⟩] (sampleReward - 1000000) 11)).getD []),
    .addTransaction ((writeTransaction (samplePayment [⟨sampleReward, [1], 22⟩] 5 12)).getD [])]

/-- A transaction in conflict with both, which pays more than the first and less than the second. -/
def sampleRival : Transaction :=
  samplePayment [⟨sampleReward, [1], 21⟩, ⟨sampleReward, [1], 22⟩] (2 * sampleReward - 1000000000) 13

/-- The rival is turned away, and the first of the two transactions is gone. -/
def rivalLeavesTrace (s : State) : Bool :=
  match s.addTransaction (.lax 5) 13 sampleRival ((writeTransaction sampleRival).getD []) with
  | .error _ => false
  | .ok (s', r, _) => r == .increaseFee && (s.ledger.pool.stateTx[(11 : Hash)]?).isSome &&
      (s'.ledger.pool.stateTx[(11 : Hash)]?).isNone

private theorem exists_trace : ∃ s s' : State, (s.Reachable (.lax 5) fun _ _ ↦ True) ∧
    (∃ height, s.addTransaction (.lax 5) 13 sampleRival ((writeTransaction sampleRival).getD []) =
      .ok (s', .increaseFee, height)) ∧ s'.ledger.pool ≠ s.ledger.pool := by
  obtain ⟨s, hs, hp⟩ := exists_reachable 0 (sampleRivals (.lax 5)) rivalLeavesTrace
    (show endsIn (.lax 5) _ _ _ = true by decide +kernel)
  unfold rivalLeavesTrace at hp
  split at hp
  · cases hp
  · rename_i s' r height hadd
    simp only [Bool.and_eq_true, beq_iff_eq, Option.isSome_iff_ne_none, ne_eq,
      Option.isNone_iff_eq_none] at hp
    obtain ⟨⟨rfl, hthere⟩, hgone⟩ := hp
    refine ⟨s, s', hs, ⟨height, hadd⟩, fun heq ↦ hthere ?_⟩
    rw [← heq]
    exact hgone

/-- A transaction that is turned away can leave the pool without one that was in it. -/
theorem refused_changes_pool : ¬∀ s : State, (s.Reachable (.lax 5) fun _ _ ↦ True) →
    ∀ (tid : Hash) tx binaryTx s' r height, tx.Goes (.lax 5) tid binaryTx →
      s.addTransaction (.lax 5) tid tx binaryTx = .ok (s', r, height) → r ≠ .broadcastAll →
      s'.ledger.pool = s.ledger.pool := by
  intro hclaim
  obtain ⟨s, s', hs, ⟨height, hadd⟩, hne⟩ := exists_trace
  exact hne (hclaim s hs 13 sampleRival _ s' .increaseFee height
    ⟨by decide +kernel, by decide +kernel, by decide +kernel⟩ hadd (by decide))

theorem refused_unchanged_sample : ∃ s : State,
    ¬s.Harmless (.lax 5) 13 sampleRival ((writeTransaction sampleRival).getD []) := by
  obtain ⟨s, s', hs, ⟨height, hadd⟩, hne⟩ := exists_trace
  exact ⟨s, fun hharmless ↦ hne ((hs.refused_unchanged_iff hadd).mpr hharmless (by decide))⟩

end State

end CryoNero
