import CryoNero.Ledger.Redo

/-!
# What undoing a block does to the indexes

Undoing walks backwards through the transactions of a block, their inputs and their outputs. For the
key images and the files the order does not show in the result: those of the block are gone, and all
of them have been there.
-/

namespace CryoNero

open Seria Store

namespace Index

/-- Key images have been forgotten. -/
structure Undone (ks : List KeyImage) (idx idx' : Index) : Prop where
  nodup : ks.Nodup
  present : ∀ ki ∈ ks, ∃ height, idx.keyimages[ki]? = some height
  keyimages : ∀ ki : KeyImage, idx'.keyimages[ki]? = if ki ∈ ks then none else idx.keyimages[ki]?
  files : idx.SameFiles idx'

/-- A block is not on file any more. -/
structure Unfiled (bid : Hash) (tids : List Hash) (timestamp : Timestamp) (height : Height)
    (idx idx' : Index) : Prop where
  blockWas : ∃ gis, idx.blockGlobalIndices[bid]? = some gis
  block : idx'.blockGlobalIndices = idx.blockGlobalIndices.erase bid
  nodup : tids.Nodup
  transactionsWere : ∀ tid ∈ tids, ∃ pos, idx.transactionPos[tid]? = some pos
  transactions : ∀ tid : Hash,
    idx'.transactionPos[tid]? = if tid ∈ tids then none else idx.transactionPos[tid]?
  timeWas : ∃ u, idx.timestampBlock[toLex (timestamp, height)]? = some u
  time : idx'.timestampBlock = idx.timestampBlock.erase (toLex (timestamp, height))

variable {idx idx' idx'' : Index} {ks ks' : List KeyImage}

theorem Undone.nil (hkeys : idx'.keyimages = idx.keyimages) (hfiles : idx.SameFiles idx') :
    Undone [] idx idx' where
  nodup := List.nodup_nil
  present _ h := by cases h
  keyimages ki := by rw [hkeys]; simp
  files := hfiles

theorem Undone.trans (h : Undone ks idx idx') (h' : Undone ks' idx' idx'') :
    Undone (ks ++ ks') idx idx'' := by
  have hnot {ki : KeyImage} (hki : ki ∈ ks') : ki ∉ ks := fun hmem ↦ by
    obtain ⟨height, hheight⟩ := h'.present ki hki
    rw [h.keyimages, if_pos hmem] at hheight
    cases hheight
  refine ⟨?_, fun ki hki ↦ ?_, fun ki ↦ ?_, h.files.trans h'.files⟩
  · rw [List.nodup_append]
    exact ⟨h.nodup, h'.nodup, fun a ha b hb hab ↦ hnot hb (by rw [← hab]; exact ha)⟩
  · rcases List.mem_append.mp hki with hki | hki
    · exact h.present ki hki
    · obtain ⟨height, hheight⟩ := h'.present ki hki
      rw [h.keyimages, if_neg (hnot hki)] at hheight
      exact ⟨height, hheight⟩
  · rw [h'.keyimages, h.keyimages]
    by_cases hki' : ki ∈ ks' <;> by_cases hki : ki ∈ ks <;> simp [hki, hki']

theorem Undone.congr (h : Undone ks idx idx') (hks : ks.Perm ks') : Undone ks' idx idx' := by
  refine ⟨hks.nodup_iff.mp h.nodup, fun ki hki ↦ h.present ki (hks.mem_iff.mpr hki), fun ki ↦ ?_,
    h.files⟩
  rw [h.keyimages]
  simp only [hks.mem_iff]

private theorem popAmountOutput_frame {amount : Amount} {unlockTime : UnlockMoment} {pk : PublicKey}
    (h : idx.popAmountOutput amount unlockTime pk = .ok idx') :
    idx'.keyimages = idx.keyimages ∧ idx.SameFiles idx' := by
  unfold popAmountOutput at h
  obtain ⟨_, _, h⟩ := bind_eq_ok.mp h
  obtain ⟨_, _, h⟩ := bind_eq_ok.mp h
  obtain ⟨_, _, h⟩ := bind_eq_ok.mp h
  obtain ⟨_, _, h⟩ := bind_eq_ok.mp h
  cases h
  exact ⟨rfl, rfl, rfl, rfl⟩

private theorem popOutputs_frame {unlockTime : UnlockMoment} {outputs : List TransactionOutput}
    (h : idx.popOutputs unlockTime outputs = .ok idx') :
    idx'.keyimages = idx.keyimages ∧ idx.SameFiles idx' := by
  refine foldlM_ok (fun _ t ↦ t.keyimages = idx.keyimages ∧ idx.SameFiles t) h ⟨rfl, .refl⟩ ?_
  rintro done ⟨amount, ⟨o⟩⟩ rest t t' _ ⟨hkeys, hfiles⟩ hx
  obtain ⟨hkeys', hfiles'⟩ := popAmountOutput_frame hx
  exact ⟨hkeys'.trans hkeys, hfiles.trans hfiles'⟩

private theorem deleteKeyimage_eq_ok {ki : KeyImage} (h : idx.deleteKeyimage ki = .ok idx') :
    Undone [ki] idx idx' := by
  obtain ⟨t, ht, h⟩ := bind_eq_ok.mp h
  cases h
  obtain ⟨hwas, rfl⟩ := delOld_eq_ok.mp ht
  refine ⟨List.nodup_singleton ki, fun a ha ↦ by rw [List.mem_singleton.mp ha]; exact hwas,
    fun a ↦ ?_, rfl, rfl, rfl⟩
  rw [Table.get_erase]
  simp only [List.mem_singleton, eq_comm]

private theorem undoInput_eq_ok {input : TransactionInput} (h : idx.undoInput input = .ok idx') :
    Undone ((DeltaState.keyInputsOf [input]).map (·.keyImage)) idx idx' := by
  cases input with
  | coinbaseInput c =>
    cases h
    exact .nil rfl .refl
  | keyInput input =>
    obtain ⟨idx₁, h₁, h⟩ := bind_eq_ok.mp h
    have hundone := deleteKeyimage_eq_ok h₁
    have hspend (a : Amount) (g : UInt32) : Undone [input.keyImage] idx (idx₁.spendOutput a g false) := by
      obtain ⟨hkeys, hfiles⟩ := spendOutput_frame idx₁ a g false
      simpa using hundone.trans (.nil hkeys hfiles)
    split at h
    · cases h
      exact hspend _ _
    · cases h
      exact hundone

theorem undoTransaction_eq_ok {tx : TransactionPrefix} (h : idx.undoTransaction tx = .ok idx') :
    Undone tx.keyImages idx idx' := by
  obtain ⟨idx₁, h₁, h⟩ := bind_eq_ok.mp h
  obtain ⟨hkeys, hfiles⟩ := popOutputs_frame h₁
  have hall := foldlM_ok (fun (done : List TransactionInput) t ↦
    Undone ((DeltaState.keyInputsOf done).map (·.keyImage)) idx t) h (.nil hkeys hfiles)
    (fun done x rest t t' _ ht hx ↦ by
      rw [DeltaState.keyInputsOf_append, List.map_append]
      exact ht.trans (undoInput_eq_ok hx))
  refine hall.congr (List.Perm.map _ ?_)
  exact (List.reverse_perm tx.inputs).filterMap _

private theorem undoBlockState_eq_ok {bhash : Hash} {block : Block}
    (h : idx.undoBlockState bhash block = .ok idx') :
    ∃ idx₁ : Index, Undone block.keyImages idx idx₁ ∧
      (∃ gis, idx.blockGlobalIndices[bhash]? = some gis) ∧
      idx' = { idx₁ with blockGlobalIndices := idx.blockGlobalIndices.erase bhash } := by
  obtain ⟨idx₁, h₁, h⟩ := bind_eq_ok.mp h
  obtain ⟨idx₂, h₂, h⟩ := bind_eq_ok.mp h
  obtain ⟨t, ht, h⟩ := bind_eq_ok.mp h
  cases h
  have hall := foldlM_ok (fun (done : List Transaction) t ↦
    Undone (done.flatMap (·.keyImages)) idx t) h₁ (.nil rfl .refl) (fun done x rest t t' _ ht hx ↦ by
      rw [List.flatMap_append, List.flatMap_singleton]
      exact ht.trans (undoTransaction_eq_ok hx))
  have hundone := hall.trans (undoTransaction_eq_ok h₂)
  rw [hundone.files.blockGlobalIndices] at ht
  obtain ⟨hwas, rfl⟩ := delOld_eq_ok.mp ht
  refine ⟨idx₂, hundone.congr ?_, hwas, rfl⟩
  rw [Block.keyImages, Block.allTransactions, List.flatMap_cons]
  exact (List.perm_append_comm).trans
    (((List.reverse_perm block.transactions).flatMap_right _).append_left _)

/-- The positions of some transactions have been deleted. -/
structure Displaced (tids : List Hash) (idx idx' : Index) : Prop where
  nodup : tids.Nodup
  were : ∀ tid ∈ tids, ∃ pos, idx.transactionPos[tid]? = some pos
  transactions : ∀ tid : Hash,
    idx'.transactionPos[tid]? = if tid ∈ tids then none else idx.transactionPos[tid]?
  rest : idx' = { idx with transactionPos := idx'.transactionPos }

theorem Displaced.nil : Displaced [] idx idx where
  nodup := List.nodup_nil
  were _ h := by cases h
  transactions tid := by simp
  rest := rfl

theorem Displaced.snoc {tids : List Hash} {tid : Hash} (h : Displaced tids idx idx')
    (hok : idx'.deletePos tid = .ok idx'') : Displaced (tids ++ [tid]) idx idx'' := by
  obtain ⟨t, ht, hok⟩ := bind_eq_ok.mp hok
  cases hok
  obtain ⟨⟨pos, hwas⟩, rfl⟩ := delOld_eq_ok.mp ht
  have htid : tid ∉ tids := fun hmem ↦ by
    rw [h.transactions, if_pos hmem] at hwas
    cases hwas
  rw [h.transactions, if_neg htid] at hwas
  refine ⟨?_, fun a ha ↦ ?_, fun a ↦ ?_, by rw [h.rest]⟩
  · rw [List.nodup_append]
    exact ⟨h.nodup, List.nodup_singleton tid, fun a ha b hb hab ↦
      htid (by rw [← List.mem_singleton.mp hb, ← hab]; exact ha)⟩
  · rcases List.mem_append.mp ha with ha | ha
    · exact h.were a ha
    · rw [List.mem_singleton.mp ha]
      exact ⟨pos, hwas⟩
  · rw [Table.get_erase, h.transactions]
    by_cases hta : tid = a
    · subst hta
      simp
    · simp [hta, Ne.symm hta]

/-- The positions of the transactions of a block are deleted one after another. -/
theorem deletePositions_eq_ok {block : Block} {tid : Hash}
    (h : (do
      let idx ← idx.deletePos tid
      (List.range block.transactions.length).foldlM (fun (idx : Index) i ↦ do
        let tid ← orFail .invariantViolated block.header.transactionHashes[i]?
        idx.deletePos tid) idx) = .ok idx') : Displaced (block.tids tid) idx idx' := by
  obtain ⟨idx₁, h₁, h⟩ := bind_eq_ok.mp h
  have hfirst : Displaced [tid] idx idx₁ := Displaced.nil.snoc h₁
  have hall := foldlM_ok (fun (done : List ℕ) (q : Index) ↦ ∀ n, done = List.range n →
    Displaced (tid :: block.header.transactionHashes.take n) idx q) h ?_ ?_
  · exact hall _ rfl
  · intro n hn
    have hzero : n = 0 := by simpa using (congrArg List.length hn).symm
    subst hzero
    exact hfirst
  · intro done i rest q q' hl hdisplaced hx n hn
    have hlen := congrArg List.length hn
    rw [List.length_append, List.length_singleton, List.length_range] at hlen
    subst hlen
    rw [List.range_succ] at hn
    obtain ⟨hdone, hi⟩ := List.append_inj' hn rfl
    cases hi
    obtain ⟨tid', htid', hx⟩ := bind_eq_ok.mp hx
    rw [orFail_eq_ok] at htid'
    have hsnoc := (hdisplaced _ hdone).snoc hx
    rw [List.take_add_one, htid']
    exact hsnoc

/-- **A block that was undone**: its key images are forgotten, and it is off the files. -/
theorem undoBlock_eq_ok {c : Crypto} {bhash : Hash} {block : Block} {height : Height}
    (h : idx.undoBlock c bhash block height = .ok idx') :
    ∃ (idx₁ : Index) (tid : Hash), Undone block.keyImages idx idx₁ ∧
      getTransactionHash c block.header.baseTransaction = some tid ∧
      Unfiled bhash (block.tids tid) block.header.timestamp height idx idx' ∧
      idx'.keyimages = idx₁.keyimages := by
  unfold undoBlock at h
  obtain ⟨idx₂, h₂, h⟩ := bind_eq_ok.mp h
  obtain ⟨idx₁, hundone, hwas, rfl⟩ := undoBlockState_eq_ok h₂
  obtain ⟨t, ht, h⟩ := bind_eq_ok.mp h
  obtain ⟨htimeWas, rfl⟩ := delOld_eq_ok.mp ht
  obtain ⟨tid, htid, h⟩ := bind_eq_ok.mp h
  have hdisplaced := deletePositions_eq_ok h
  have hpos := hundone.files.transactionPos
  have htime := hundone.files.timestampBlock
  refine ⟨idx₁, tid, hundone, orFail_eq_ok.mp htid, ⟨hwas, by rw [hdisplaced.rest],
    hdisplaced.nodup, fun a ha ↦ ?_, fun a ↦ ?_, ?_, ?_⟩, by rw [hdisplaced.rest]⟩
  · rw [← hpos]
    exact hdisplaced.were a ha
  · rw [← hpos]
    exact hdisplaced.transactions a
  · rw [← htime]
    exact htimeWas
  · rw [hdisplaced.rest, ← htime]

end Index

end CryoNero
