import CryoNero.Chain.Spends

/-!
# The pool of a running node

The pool is sound in every state that a node reaches or passes through, so that its tables agree, its
size is bounded, and adding a transaction or removing one always comes to an end.
-/

namespace CryoNero

open Seria Store

/-! ## What the tables say of each other -/

namespace State

variable (s : State)

/-- The four tables of the pool describe the same transactions, no two of which share a key image,
and none of which spends what is spent in the chain. -/
structure PoolAgrees : Prop where
  keyImage : ∀ (ki : KeyImage) (tid : Hash), s.ledger.pool.stateKiTx[ki]? = some tid ↔
    ∃ entry, s.ledger.pool.stateTx[tid]? = some entry ∧ ki ∈ entry.tx.keyImages
  fee : ∀ (fpb : Amount) (tid : Hash), (∃ hashes : HashSet,
      s.ledger.pool.stateFeeTx[fpb]? = some hashes ∧ hashes[tid]? = some ()) ↔
    ∃ entry, s.ledger.pool.stateTx[tid]? = some entry ∧ entry.feePerByte = fpb
  nonempty : ∀ (fpb : Amount) (hashes : HashSet),
    s.ledger.pool.stateFeeTx[fpb]? = some hashes → ∃ tid : Hash, hashes[tid]? = some ()
  size : s.ledger.pool.totalSize.toNat =
    (s.ledger.pool.stateTx.toList.map fun p ↦ p.2.binaryTx.length).sum
  nodup : ∀ (tid : Hash) entry, s.ledger.pool.stateTx[tid]? = some entry → entry.tx.keyImages.Nodup
  disjoint : ∀ (tid tid' : Hash) entry entry' (ki : KeyImage),
    s.ledger.pool.stateTx[tid]? = some entry → s.ledger.pool.stateTx[tid']? = some entry' →
    ki ∈ entry.tx.keyImages → ki ∈ entry'.tx.keyImages → tid = tid'
  unspent : ∀ (ki : KeyImage) (tid : Hash), s.ledger.pool.stateKiTx[ki]? = some tid →
    s.ledger.index.keyimages[ki]? = none

/-- No invariant in adding a transaction or in removing one fails: neither from the state, nor from
where key images enter the chain from it, as they do when the changes of a block are applied. -/
structure PoolCompletes (env : Env) : Prop where
  add : ∀ (tid : Hash) tx binaryTx, tx.Goes env tid binaryTx →
    ∃ r, s.addTransaction env tid tx binaryTx = .ok r
  remove : ∀ (spent : List (KeyImage × Height)) ledger,
    spent.foldlM (fun (l : Ledger) p ↦ l.storeKeyimage p.1 p.2) s.ledger = .ok ledger →
    ∀ tid : Hash, ∃ pool, ledger.pool.removeFromPool tid = .ok pool

variable {s} {s' : State} {env : Env} {guard : State → Op → Prop}

private theorem poolAgrees_of_sound (h : s.ledger.Sound env) : s.PoolAgrees where
  keyImage _ _ := h.pool.keyImage
  fee _ _ := h.pool.fee.mem
  nonempty _ _ hhashes := h.pool.fee.nonempty hhashes
  size := h.pool.toNat_totalSize ((h.pool.total_lt h.bounded).trans (by decide))
  nodup _ _ htid := h.pool.nodup htid
  disjoint _ _ _ _ _ htid htid' hki hki' := h.pool.disjoint htid htid' hki hki'
  unspent _ _ hki := h.unspent hki

theorem Ready.getTip (h : s.Ready env) (hc : s.chain.Coherent) :
    ∃ header, s.chain.getTip = .ok header := by
  obtain ⟨info, rest, hwindow, hbid, -⟩ := h.main.window_head hc
  exact ⟨info, BlockChain.getTip_eq_ok.mpr ⟨rest, hwindow, hbid.symm⟩⟩

private theorem poolCompletes_of_sound (h : s.Ready env) (hc : s.chain.Coherent) (hs : s.ledger.Sound env) :
    s.PoolCompletes env where
  add tid tx binaryTx hgoes := by
    obtain ⟨header, hheader⟩ := h.getTip hc
    obtain ⟨r, hr⟩ := hs.addTransactionAt_completes hgoes (s.chain.tip.tipHeight + 1)
      header.timestamp true
    exact ⟨_, bind_eq_ok.mpr ⟨header, hheader, bind_eq_ok.mpr ⟨r, hr, rfl⟩⟩⟩
  remove spent ledger hspent tid := by
    have hledger : ledger.Sound env := foldlM_ok (fun _ l ↦ Ledger.Sound env l) hspent hs
      fun _ _ _ _ _ _ hl hstore ↦ hl.storeKeyimage hstore
    obtain ⟨pool, hpool, -⟩ := hledger.pool.removeFromPool tid
    exact ⟨pool, hpool⟩

/-! ## Along the runs -/

theorem Reachable.passes (h : s.Reachable env guard) (hmoves : Moves env (fun _ ↦ True) s s') :
    s'.Ready env ∧ s'.Proper env := by
  have hstart := h.moves (fun _ ↦ True) (fun _ _ ↦ trivial) fun _ _ _ _ _ _ ↦ trivial
  have hready := h.ready (fun _ ↦ True) (fun _ _ ↦ trivial) fun _ _ _ _ _ _ ↦ trivial
  have hall := Moves.invariant (I := fun s ↦ s.TreeSound env (fun _ ↦ True) ∧ s.Ready env)
    (fun s s' hmove hs ↦ ⟨hmove.treeSound hs.1, hmove.ready hs.1 hs.2⟩) hmoves
    ⟨hstart.treeSound, hready⟩
  exact ⟨hall.2, hmoves.proper (hstart.proper proper_empty)⟩

theorem Reachable.sound (h : s.Reachable env guard) : s.ledger.Sound env :=
  (h.passes .refl).2.ledger

/-- **The tables of the pool agree** in every state that a node reaches, and in every state that it
passes through from there. Nothing that adds to the pool or removes from it can fail. -/
theorem Reachable.pool_agrees (h : s.Reachable env guard)
    (hmoves : Moves env (fun _ ↦ True) s s') : s'.PoolAgrees ∧ s'.PoolCompletes env := by
  obtain ⟨hready, hproper⟩ := h.passes hmoves
  exact ⟨poolAgrees_of_sound hproper.ledger,
    poolCompletes_of_sound hready hproper.coherent hproper.ledger⟩

/-- Two blocks, and a transaction that waits for the third one. -/
def samplePool (env : Env) : List Op :=
  sampleBlocks env ++ [.addTransaction
    ((writeTransaction (samplePayment [⟨sampleReward, [1], 9⟩] 5 11)).getD [])]

theorem pool_agrees_sample : ∃ s : State, s.ledger.pool.stateKiTx[(9 : KeyImage)]? = some 11 ∧
    s.PoolAgrees ∧ s.PoolCompletes (.lax 5) := by
  obtain ⟨s, hs, hp⟩ := exists_reachable 0 (samplePool (.lax 5))
    (fun s ↦ s.ledger.pool.stateKiTx[(9 : KeyImage)]? == some 11)
    (show endsIn (.lax 5) _ _ _ = true by decide +kernel)
  exact ⟨s, by simpa using hp, Reachable.pool_agrees hs .refl⟩

/-! ## The size of the pool -/

/-- The size of the pool is at most its maximum, or would be below it without the transaction that
has the lowest priority. -/
def PoolBounded (s : State) : Prop :=
  s.ledger.pool.totalSize.toNat ≤ maxPoolSize.toNat ∨
    ∃ (tid : Hash) (entry : PoolTransaction), s.ledger.pool.stateTx[tid]? = some entry ∧
      (∀ (tid' : Hash) entry', s.ledger.pool.stateTx[tid']? = some entry' →
        tid' = tid ∨ Lower entry.feePerByte tid entry'.feePerByte tid') ∧
      s.ledger.pool.totalSize.toNat < maxPoolSize.toNat + entry.binaryTx.length

private theorem poolBounded_of_sound (h : s.ledger.Sound env) : s.PoolBounded := by
  have htotal := h.pool.toNat_totalSize ((h.pool.total_lt h.bounded).trans (by decide))
  unfold PoolBounded
  rw [htotal]
  rcases h.bounded with hle | ⟨tid, entry, hleast, hlt⟩
  · exact .inl hle
  · exact .inr ⟨tid, entry, hleast.mem, fun _ _ hentry ↦ hleast.lower hentry, hlt⟩

/-- **The pool is bounded** in every state that a node reaches or passes through, and a transaction
that is reported as added from there is in the pool. -/
theorem Reachable.pool_bounded (h : s.Reachable env guard)
    (hmoves : Moves env (fun _ ↦ True) s s') : s'.PoolBounded ∧
      ∀ (tid : Hash) tx binaryTx s'' height, tx.Goes env tid binaryTx →
        s'.addTransaction env tid tx binaryTx = .ok (s'', .broadcastAll, height) →
        (∃ entry, s''.ledger.pool.stateTx[tid]? = some entry ∧ entry.tx = tx ∧
          entry.binaryTx = binaryTx) ∧ s''.PoolBounded := by
  obtain ⟨-, hproper⟩ := h.passes hmoves
  refine ⟨poolBounded_of_sound hproper.ledger, fun tid tx binaryTx s'' height hgoes hadd ↦ ?_⟩
  obtain ⟨header, -, hadd⟩ := bind_eq_ok.mp hadd
  obtain ⟨⟨ledger, r⟩, hok, heq⟩ := bind_eq_ok.mp hadd
  cases heq
  obtain ⟨hsound, hthere⟩ := hproper.ledger.addTransactionAt hgoes hok
  exact ⟨⟨_, hthere rfl, rfl, rfl⟩, poolBounded_of_sound hsound⟩

/-- The bytes of a payment that spends the same output under another key image. -/
def sampleMore : Bytes := (writeTransaction (samplePayment [⟨sampleReward, [1], 12⟩] 6 13)).getD []

theorem pool_bounded_sample : ∃ (s s' : State) (tid : Hash), s.ledger.pool.totalSize ≠ 0 ∧ s.PoolBounded ∧
    (s'.ledger.pool.stateTx[tid]?).isSome ∧ s'.PoolBounded := by
  obtain ⟨s, hs, hp⟩ := exists_reachable 0 (samplePool (.lax 5))
    (fun s ↦ decide (s.ledger.pool.totalSize ≠ 0 ∧
      ∃ p ∈ (s.addBinaryTransaction (.lax 5) sampleMore).toOption, p.2.1 = .broadcastAll))
    (show endsIn (.lax 5) _ _ _ = true by decide +kernel)
  obtain ⟨hsize, ⟨s', action, height⟩, hadd, rfl⟩ := of_decide_eq_true hp
  obtain ⟨tid, tx, hgoes, hadd⟩ :=
    addBinaryTransaction_eq_ok (by decide +kernel) (toOption_eq_some.mp hadd)
  obtain ⟨hbounded, hall⟩ := Reachable.pool_bounded hs .refl
  obtain ⟨⟨entry, hentry, -⟩, hbounded'⟩ := hall tid tx _ s' height hgoes hadd
  exact ⟨s, s', tid, hsize, hbounded, Option.isSome_of_mem hentry, hbounded'⟩

end State

end CryoNero
