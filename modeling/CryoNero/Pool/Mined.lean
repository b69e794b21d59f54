import CryoNero.Pool.Crowded
import CryoNero.Pool.States

/-!
# Transactions of the main chain and of the pool

What a transaction of the main chain spends is spent, and no two of them spend the same. The pool
spends nothing that is spent in the chain, and everything in it spends something. So the pool and
the main chain have no transaction in common, and among all of them no two have a key image in
common. The only way out of the pool, other than to be pushed out by a transaction that is added,
is that a key image enters the chain (`Ledger.Advances`).
-/

namespace CryoNero

open Seria Store

/-! ## Transactions that spend -/

private theorem keyImages_ne_nil_of_validateSemantic {c : Crypto} {tx : Transaction} {checkKeys : Bool}
    {fee : Amount} (h : validateSemantic c false tx checkKeys = .ok fee) : tx.keyImages ≠ [] := by
  obtain ⟨hinputs, p, hp⟩ := inputs_of_validateSemantic h
  have hall := foldlM_ok (fun (done : List TransactionInput) (_ : List KeyImage × Amount) ↦
    done ≠ [] → DeltaState.keyInputsOf done ≠ []) hp (fun hnil ↦ absurd rfl hnil) ?_
  · exact fun hnil ↦ hall hinputs (List.map_eq_nil_iff.mp hnil)
  · intro done input rest acc acc' _ _ hx _
    cases input with
    | coinbaseInput c => cases hx
    | keyInput input =>
      rw [DeltaState.keyInputsOf_append]
      exact List.append_ne_nil_of_right_ne_nil _ (List.cons_ne_nil input [])

/-- Everything in the pool spends something. -/
def Pool.Spending (pool : Pool) : Prop :=
  ∀ (tid : Hash) (entry : PoolTransaction), pool.stateTx[tid]? = some entry →
    entry.tx.keyImages ≠ []

theorem Pool.Spending.within {pool pool' : Pool} (h : pool.Spending) (hwithin : pool'.Within pool) :
    pool'.Spending := fun tid entry htid ↦ h tid entry (hwithin tid entry htid)

theorem Pool.spending_empty : Pool.Spending {} := fun _ _ htid ↦ by
  cases (Std.ExtTreeMap.getElem?_empty).symm.trans htid

namespace Ledger

variable {env : Env} {l l' : Ledger} {tid : Hash} {tx : Transaction} {binaryTx : Bytes}
  {unlockHeight : Height} {unlockTimestamp : Timestamp} {checkSigs : Bool} {height : Height}

private theorem Sound.addTransactionAt_spending (h : l.Sound env) (hgoes : tx.Goes env tid binaryTx)
    (hspending : l.pool.Spending) {r : AddTransactionResult}
    (hadd : l.addTransactionAt env tid tx binaryTx unlockHeight unlockTimestamp checkSigs =
      .ok (l', r, height)) : l'.pool.Spending := by
  rcases addTransactionAt_cases hadd with ⟨rfl, -, -⟩ | ⟨keyImages, p, ha, hp, hend⟩
  · exact hspending
  · obtain ⟨p', hp', -, -, hwithin, -⟩ := h.pool.displace tid (poolEntry tx binaryTx).feePerByte
      keyImages h.bounded
    cases hp.symm.trans hp'
    rcases hend with ⟨-, -, rfl⟩ | ⟨pool₁, pool₂, hp₂, hinsert, hevict, -, rfl⟩
    · exact hspending.within hwithin
    · obtain ⟨p'', hp'', -, henters⟩ := ha.enters h hgoes
      cases hp.symm.trans hp''
      obtain ⟨pool₁', pool₂', hinsert', hevict', -, -, hwithin₂, htable, -⟩ := henters hp₂
      cases hinsert.symm.trans hinsert'
      cases hevict.symm.trans hevict'
      refine Pool.Spending.within (fun a e hae ↦ ?_) hwithin₂
      rw [htable, Table.get_insert] at hae
      split_ifs at hae
      · cases hae
        obtain ⟨_, hsemantic⟩ := ha.semantic
        exact keyImages_ne_nil_of_validateSemantic hsemantic
      · exact hspending.within hwithin a e hae

/-! ## Key images enter the chain -/

/-- Key images enter the chain, and a transaction leaves the pool only with one of its own. -/
structure Advances (l l' : Ledger) : Prop where
  keyimages : ∀ (ki : KeyImage) (height : Height), l.index.keyimages[ki]? = some height →
    l'.index.keyimages[ki]? = some height
  within : l'.pool.Within l.pool
  lost : ∀ (tid : Hash) (entry : PoolTransaction), l.pool.stateTx[tid]? = some entry →
    l'.pool.stateTx[tid]? = some entry ∨
      ∃ ki ∈ entry.tx.keyImages, ∃ height, l'.index.keyimages[ki]? = some height

theorem Advances.of_eq (hkeys : l'.index.keyimages = l.index.keyimages) (hpool : l'.pool = l.pool) :
    Advances l l' := by
  refine ⟨fun ki height hki ↦ ?_, fun tid entry htid ↦ ?_, fun tid entry htid ↦ .inl ?_⟩
  · rwa [hkeys]
  · rwa [← hpool]
  · rwa [hpool]

theorem Advances.refl : Advances l l := .of_eq rfl rfl

theorem Advances.trans {l'' : Ledger} (h : Advances l l') (h' : Advances l' l'') :
    Advances l l'' := by
  refine ⟨fun ki height hki ↦ h'.keyimages ki height (h.keyimages ki height hki),
    h'.within.trans h.within, fun tid entry htid ↦ ?_⟩
  rcases h.lost tid entry htid with htid' | ⟨ki, hmem, height, hki⟩
  · exact h'.lost tid entry htid'
  · exact .inr ⟨ki, hmem, height, h'.keyimages ki height hki⟩

private theorem Sound.advances_storeKeyimage (h : l.Sound env) {ki : KeyImage}
    (hok : l.storeKeyimage ki height = .ok l') : Advances l l' := by
  obtain ⟨hfree, hindex⟩ := storeKeyimage_index hok
  have hkeys (a : KeyImage) (k : Height) (ha : l.index.keyimages[a]? = some k) :
      l'.index.keyimages[a]? = some k := by
    rw [hindex, Table.get_insert_of_ne]
    · exact ha
    · rintro rfl
      rw [hfree] at ha
      cases ha
  have hspent : l'.index.keyimages[ki]? = some height := by
    rw [hindex]
    exact Table.get_insert_self _ _ _
  rw [Ledger.storeKeyimage] at hok
  obtain ⟨index, -, hok⟩ := bind_eq_ok.mp hok
  cases hki : l.pool.stateKiTx[ki]? with
  | none =>
    rw [hki] at hok
    cases hok
    exact ⟨hkeys, fun _ _ htid ↦ htid, fun _ _ htid ↦ .inl htid⟩
  | some tid =>
    rw [hki] at hok
    obtain ⟨pool, hpool, hok⟩ := bind_eq_ok.mp hok
    cases hok
    obtain ⟨pool', hpool', -, herase⟩ := h.pool.removeFromPool tid
    cases hpool.symm.trans hpool'
    refine ⟨hkeys, Pool.within_of_erase herase, fun a entry ha ↦ ?_⟩
    by_cases heq : tid = a
    · -- the transaction that goes has the key image
      subst heq
      obtain ⟨entry', hentry', hmem⟩ := h.pool.keyImage.mp hki
      cases ha.symm.trans hentry'
      exact .inr ⟨ki, hmem, height, hspent⟩
    · refine .inl ?_
      change pool.stateTx[a]? = _
      rw [herase, Table.get_erase_of_ne _ heq]
      exact ha

private theorem Sound.advances_applyLists (h : l.Sound env) {ks : List KeyImage} {ps : List Push}
    {ss : List Spend} (hok : CryoNero.applyLists height ks ps ss l = .ok l') : Advances l l' := by
  rw [CryoNero.applyLists] at hok
  obtain ⟨l₁, h₁, hok⟩ := bind_eq_ok.mp hok
  obtain ⟨l₂, h₂, h₃⟩ := bind_eq_ok.mp hok
  have hkeys := foldlM_ok (fun _ t ↦ t.Sound env ∧ Advances l t) h₁ ⟨h, .refl⟩
    fun _ _ _ _ _ _ ht hx ↦ ⟨ht.1.storeKeyimage hx, ht.2.trans (ht.1.advances_storeKeyimage hx)⟩
  have hpushes := foldlM_ok (fun _ t ↦ Advances l t) h₂ hkeys.2 fun _ _ _ _ _ _ ht hx ↦ by
    obtain ⟨index, hindex, hx⟩ := bind_eq_ok.mp hx
    cases hx
    exact ht.trans (.of_eq (Index.pushAmountOutput_frame hindex).1 rfl)
  refine foldlM_ok (fun _ t ↦ Advances l t) h₃ hpushes fun _ x _ t _ _ ht hx ↦ ?_
  cases hx
  exact ht.trans (.of_eq (Index.spendOutput_frame t.index x.1 x.2 true).1 rfl)

/-- **Redoing a block** takes from the pool what it is in conflict with. -/
theorem Sound.advances_redoBlock (h : l.Sound env) {bhash : Hash} {blockData : Bytes}
    {rawBlock : RawBlock} {block : Block} {info : Api.BlockHeader} {baseTransactionHash : Hash}
    (hok : l.redoBlock env bhash blockData rawBlock block info baseTransactionHash = .ok l') :
    Advances l l' := by
  obtain ⟨delta, gis, l₁, hdelta, happly, -, hindex, hpool⟩ := redoBlock_parts hok
  have hrecords := DeltaState.Records.empty.redoBlockDelta hdelta
  obtain ⟨ks', ps', -, -, hlists⟩ := hrecords.apply_eq l
  rw [hlists] at happly
  obtain ⟨-, hplaced⟩ := Index.indexBlock_eq_ok hindex
  exact (h.advances_applyLists happly).trans (.of_eq (by rw [hplaced.rest]) hpool)

end Ledger

/-! ## Running nodes -/

variable {env : Env} {s s' : State}

/-- Moves let nothing into the pool that spends nothing. -/
theorem Move.spending (h : Move env (fun _ ↦ True) s s') (hs : s.Proper env)
    (hspending : s.ledger.pool.Spending) : s'.ledger.pool.Spending := by
  cases h with
  | store => exact hspending
  | genesis hpb hacc hfree heq hparent hcheck hredo =>
    obtain ⟨ledger, chain, hledger, -, rfl⟩ := State.redoOnTip_eq_some.mp hredo
    exact hspending.within (hs.ledger.advances_redoBlock hledger).within
  | count => exact hspending
  | redo hholds hinfo htid hprev hredo =>
    obtain ⟨ledger, chain, hledger, -, rfl⟩ := State.redoOnTip_eq_some.mp hredo
    exact hspending.within (hs.ledger.advances_redoBlock hledger).within
  | undo hundo =>
    obtain ⟨_, _, _, _, _, _, -, -, -, -, -, -, rfl⟩ := State.undoTip_eq_ok.mp hundo
    exact hspending
  | transact hgoes hadd =>
    obtain ⟨_, _, hadd⟩ := bind_eq_ok.mp hadd
    obtain ⟨⟨l, r, height⟩, hl, heq⟩ := bind_eq_ok.mp hadd
    cases heq
    exact hs.ledger.addTransactionAt_spending hgoes hspending hl
  | emptyPool => exact Pool.spending_empty
  | version => exact hspending
  | mining => exact hspending
  | cacheHeader bid =>
    rw [State.cacheHeader]
    split <;> exact hspending
  | clearHeaderCache => exact hspending
  | cacheNextGlobalIndex => exact hspending
  | settle => exact hspending
  | restart hrestart =>
    obtain ⟨_, _, _, -, -, -, rfl⟩ := State.restart_eq_ok.mp hrestart
    exact Pool.spending_empty

namespace State

variable {guard : State → Op → Prop} {tid : Hash} {tx : Transaction} {binaryTx : Bytes}

/-- What holds of a running node between two of its moves. -/
structure Running (env : Env) (s : State) : Prop where
  tree : s.TreeSound env fun _ ↦ True
  ready : s.Ready env
  proper : s.Proper env
  spends : s.SpendsMain
  spending : s.ledger.pool.Spending

theorem Running.move (h : s.Running env) (hmove : Move env (fun _ ↦ True) s s') :
    s'.Running env where
  tree := hmove.treeSound h.tree
  ready := hmove.ready h.tree h.ready
  proper := hmove.proper h.proper
  spends := by
    rcases hmove.follows h.tree h.ready with hkept | ⟨_, _, _, _, _, _, hpush⟩ | ⟨_, _, _, hpop⟩
    · exact h.spends.kept hkept
    · exact h.spends.pushed hpush
    · exact h.spends.popped hpop
  spending := hmove.spending h.proper h.spending

theorem Running.moves (h : s.Running env) (hmoves : Moves env (fun _ ↦ True) s s') :
    s'.Running env := Moves.invariant (fun _ _ hmove hs ↦ hs.move hmove) hmoves h

theorem Reachable.running (h : s.Reachable env guard) : s.Running env := by
  have hmoves := h.moves (fun _ ↦ True) (fun _ _ ↦ trivial) fun _ _ _ _ _ _ ↦ trivial
  obtain ⟨hready, hproper⟩ := h.passes .refl
  have hspending := Moves.invariant (I := fun s ↦ s.Proper env ∧ s.ledger.pool.Spending)
    (fun s s' hmove hs ↦ ⟨hmove.proper hs.1, hmove.spending hs.1 hs.2⟩) hmoves
    ⟨proper_empty, Pool.spending_empty⟩
  exact ⟨hmoves.treeSound, hready, hproper, h.spendsMain, hspending.2⟩

/-! ## Transactions of the main chain -/

/-- The ordinary transaction of a block at a place, with its hash and its bytes. -/
structure Lists (block : Block) (rawBlock : RawBlock) (i : ℕ) (tid : Hash) (tx : Transaction)
    (binaryTx : Bytes) : Prop where
  hash : block.header.transactionHashes[i]? = some tid
  tx : block.transactions[i]? = some tx
  binary : rawBlock.transactions[i]? = some binaryTx

/-- An ordinary transaction of a block of the main chain. -/
def Mined (s : State) (tid : Hash) (tx : Transaction) (binaryTx : Bytes) : Prop :=
  ∃ (height : Height) (bid : Hash) (blockData : Bytes) (rawBlock : RawBlock) (block : Block) (i : ℕ),
    s.chain.tip.tipChain[height]? = some bid ∧ s.chain.tree.Holds bid blockData rawBlock block ∧
      Lists block rawBlock i tid tx binaryTx

variable {tid' : Hash} {tx' : Transaction} {binaryTx' : Bytes} {block : Block} {rawBlock : RawBlock}
  {blockData : Bytes} {height : Height} {bid : Hash}

theorem lists_of_checked (h : block.Checked env blockData rawBlock) {i : ℕ}
    (hi : block.header.transactionHashes[i]? = some tid) :
    ∃ tx binaryTx, Lists block rawBlock i tid tx binaryTx := by
  obtain ⟨hlt, -⟩ := List.getElem?_eq_some_iff.mp hi
  have hhashes := h.hashCount
  have hraw := h.rawCount
  exact ⟨block.transactions[i], rawBlock.transactions[i], hi,
    List.getElem?_eq_getElem (by omega), List.getElem?_eq_getElem (by omega)⟩

theorem Running.checked (h : s.Running env) (hbid : s.chain.tip.tipChain[height]? = some bid)
    (hholds : s.chain.tree.Holds bid blockData rawBlock block) :
    block.Checked env blockData rawBlock := by
  obtain ⟨info, hinfo, -⟩ := h.ready.main.entry hbid
  exact h.tree.blockChecked hholds hinfo

theorem Running.goes_of_mined (h : s.Running env) (hmined : s.Mined tid tx binaryTx) :
    tx.Goes env tid binaryTx := by
  obtain ⟨height, bid, blockData, rawBlock, block, i, hbid, hholds, hlists⟩ := hmined
  exact (h.checked hbid hholds).goes i tid tx binaryTx hlists.hash hlists.tx hlists.binary

theorem Lists.mem_keyImages {i : ℕ} (h : Lists block rawBlock i tid tx binaryTx) {ki : KeyImage}
    (hki : ki ∈ tx.keyImages) : ki ∈ block.keyImages :=
  List.mem_flatMap.mpr ⟨tx, List.mem_cons_of_mem _ (List.mem_of_getElem? h.tx), hki⟩

theorem mainBlock_of_holds (hbid : s.chain.tip.tipChain[height]? = some bid)
    (hholds : s.chain.tree.Holds bid blockData rawBlock block) :
    s.mainBlock height = some block := by
  rw [mainBlock, hbid]
  exact Tree.storedBlock_eq_some.mpr ⟨_, _, hholds⟩

theorem Running.spent_of_mined (h : s.Running env) (hmined : s.Mined tid tx binaryTx) {ki : KeyImage}
    (hki : ki ∈ tx.keyImages) : ∃ height, s.ledger.index.keyimages[ki]? = some height := by
  obtain ⟨height, bid, blockData, rawBlock, block, i, hbid, hholds, hlists⟩ := hmined
  exact ⟨height, h.spends.keyimages.mpr
    ⟨block, mainBlock_of_holds hbid hholds, hlists.mem_keyImages hki⟩⟩

/-- No two transactions of the main chain spend the same. -/
theorem Running.mined_unique (h : s.Running env) (hmined : s.Mined tid tx binaryTx)
    (hmined' : s.Mined tid' tx' binaryTx') {ki : KeyImage} (hki : ki ∈ tx.keyImages)
    (hki' : ki ∈ tx'.keyImages) : tid = tid' := by
  obtain ⟨height, bid, blockData, rawBlock, block, i, hbid, hholds, hlists⟩ := hmined
  obtain ⟨height', bid', blockData', rawBlock', block', j, hbid', hholds', hlists'⟩ := hmined'
  have hblock := mainBlock_of_holds hbid hholds
  have hheight := h.spends.keyimages.mpr ⟨block, hblock, hlists.mem_keyImages hki⟩
  rw [h.spends.keyimages.mpr
    ⟨block', mainBlock_of_holds hbid' hholds', hlists'.mem_keyImages hki'⟩] at hheight
  obtain rfl := Option.some.inj hheight
  obtain rfl := Option.some.inj (hbid.symm.trans hbid')
  obtain ⟨rfl, rfl, rfl⟩ := hholds.unique hholds'
  -- in a block no two transactions have a key image in common
  have hdisjoint := (List.pairwise_cons.mp (List.nodup_flatMap.mp (h.spends.nodup hblock)).2).2
  have hij : i = j := by
    obtain ⟨hi, hti⟩ := List.getElem?_eq_some_iff.mp hlists.tx
    obtain ⟨hj, htj⟩ := List.getElem?_eq_some_iff.mp hlists'.tx
    subst hti htj
    rcases Nat.lt_trichotomy i j with hlt | heq | hlt
    · exact absurd hki' (List.pairwise_iff_getElem.mp hdisjoint i j hi hj hlt hki)
    · exact heq
    · exact absurd hki (List.pairwise_iff_getElem.mp hdisjoint j i hj hi hlt hki')
  subst hij
  exact Option.some.inj (hlists.hash.symm.trans hlists'.hash)

/-- **The pool and the main chain have no transaction in common**, the coinbase transactions among
them. -/
theorem Running.not_mem_of_pool (h : s.Running env) {entry : PoolTransaction}
    (hentry : s.ledger.pool.stateTx[tid]? = some entry) (hblock : s.mainBlock height = some block) :
    entry.tx ∉ block.allTransactions := by
  intro hmem
  obtain ⟨ki, hki⟩ := List.exists_mem_of_ne_nil _ (h.spending tid entry hentry)
  have hspent := h.spends.keyimages.mpr ⟨block, hblock, List.mem_flatMap.mpr ⟨_, hmem, hki⟩⟩
  have hfree := h.proper.ledger.unspent (h.proper.ledger.pool.keyImage.mpr ⟨entry, hentry, hki⟩)
  cases hfree.symm.trans hspent

/-! ## Blocks come and go -/

private theorem mined_of_insert (hget : ∀ k : Height, s'.chain.tip.tipChain[k]? =
      if height = k then some bid else s.chain.tip.tipChain[k]?)
    (hfree : s.chain.tip.tipChain[height]? = none) (htree : s'.chain.tree = s.chain.tree)
    (hholds : s.chain.tree.Holds bid blockData rawBlock block) :
    s'.Mined tid tx binaryTx ↔
      s.Mined tid tx binaryTx ∨ ∃ i, Lists block rawBlock i tid tx binaryTx := by
  constructor
  · rintro ⟨k, bid', blockData', rawBlock', block', i, hk, hholds', hlists⟩
    rw [hget] at hk
    rw [htree] at hholds'
    split_ifs at hk
    · obtain rfl := Option.some.inj hk
      obtain ⟨rfl, rfl, rfl⟩ := hholds.unique hholds'
      exact .inr ⟨i, hlists⟩
    · exact .inl ⟨k, bid', blockData', rawBlock', block', i, hk, hholds', hlists⟩
  · rintro (⟨k, bid', blockData', rawBlock', block', i, hk, hholds', hlists⟩ | ⟨i, hlists⟩)
    · refine ⟨k, bid', blockData', rawBlock', block', i, ?_, by rw [htree]; exact hholds', hlists⟩
      rw [hget, if_neg]
      · exact hk
      · rintro rfl
        cases hfree.symm.trans hk
    · refine ⟨height, bid, blockData, rawBlock, block, i, ?_, by rw [htree]; exact hholds, hlists⟩
      rw [hget, if_pos rfl]

theorem Pushed.mined {info : Api.BlockHeader} {baseTransactionHash : Hash}
    (h : Pushed s s' env bid blockData rawBlock block info baseTransactionHash) :
    s'.Mined tid tx binaryTx ↔
      s.Mined tid tx binaryTx ∨ ∃ i, Lists block rawBlock i tid tx binaryTx :=
  mined_of_insert (fun k ↦ by rw [h.tipChain, Table.get_insert]) h.free h.tree h.holds

theorem Popped.mined (h : Popped s s' env bid block height)
    (hholds : s.chain.tree.Holds bid blockData rawBlock block) :
    s.Mined tid tx binaryTx ↔
      s'.Mined tid tx binaryTx ∨ ∃ i, Lists block rawBlock i tid tx binaryTx := by
  have hget (k : Height) : s.chain.tip.tipChain[k]? =
      if height = k then some bid else s'.chain.tip.tipChain[k]? := by
    rw [h.tipChain, Table.get_erase]
    split_ifs with hk
    · rw [← hk, h.top]
    · rfl
  refine mined_of_insert hget ?_ h.tree.symm (by rwa [h.tree])
  rw [h.tipChain]
  exact Table.get_erase_self _ _

end State

end CryoNero
