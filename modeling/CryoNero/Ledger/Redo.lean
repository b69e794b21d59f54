import CryoNero.Ledger.Outputs

/-!
# What redoing a block does to the indexes

Redoing a block spends its key images, none of which was spent before, puts its outputs on the
stacks, marks the outputs of rings of one member, and files the block under its hash, its
transactions under theirs and its height under its time. `Index.Redone` and `Index.Filed` say so
table by table.
-/

namespace CryoNero

open Seria Store

namespace Index

/-- The indexes without the pool. -/
instance : IBlockChainState Index where
  storeKeyimage keyImage height idx := idx.storeKeyimage keyImage height
  pushAmountOutput amount unlockTime blockHeight pk idx :=
    idx.pushAmountOutput amount unlockTime blockHeight pk
  spendOutput amount globalIndex idx := .ok (idx.spendOutput amount globalIndex true)

/-- The tables that only whole blocks are entered into are the same. -/
structure SameFiles (idx idx' : Index) : Prop where
  blockGlobalIndices : idx'.blockGlobalIndices = idx.blockGlobalIndices
  transactionPos : idx'.transactionPos = idx.transactionPos
  timestampBlock : idx'.timestampBlock = idx.timestampBlock

/-- Key images, outputs and flags have been entered. -/
structure Redone (height : Height) (ks : List KeyImage) (ps : List Push) (ss : List Spend)
    (idx idx' : Index) : Prop where
  nodup : ks.Nodup
  fresh : ∀ ki ∈ ks, idx.keyimages[ki]? = none
  keyimages : ∀ ki : KeyImage,
    idx'.keyimages[ki]? = if ki ∈ ks then some height else idx.keyimages[ki]?
  outputs : ∀ {f : OutputStacks}, idx.Outputs f →
    (∀ amount, (f amount).length + (pushesOf ps amount).length ≤ 2 ^ 32) ∧
      idx'.Outputs ((f.pushAll height ps).markSpent true ss)
  files : idx.SameFiles idx'

variable {idx idx' : Index} {f : OutputStacks} {height : Height}

theorem SameFiles.refl : idx.SameFiles idx := ⟨rfl, rfl, rfl⟩

theorem SameFiles.trans {idx'' : Index} (h : idx.SameFiles idx') (h' : idx'.SameFiles idx'') :
    idx.SameFiles idx'' :=
  ⟨h'.1.trans h.1, h'.2.trans h.2, h'.3.trans h.3⟩

theorem Outputs.congr (h : idx.Outputs f) (houtputs : idx'.amountOutputs = idx.amountOutputs)
    (hcache : idx'.nextGiForAmount = idx.nextGiForAmount) : idx'.Outputs f :=
  ⟨by rw [houtputs]; exact h.stacked, fun hn ↦ h.cached (by rw [← hcache]; exact hn)⟩

theorem pushAmountOutput_frame {amount : Amount} {unlockTime : UnlockMoment} {pk : PublicKey}
    (h : idx.pushAmountOutput amount unlockTime height pk = .ok idx') :
    idx'.keyimages = idx.keyimages ∧ idx.SameFiles idx' := by
  unfold pushAmountOutput at h
  obtain ⟨t, _, h⟩ := bind_eq_ok.mp h
  cases h
  exact ⟨rfl, rfl, rfl, rfl⟩

theorem spendOutput_frame (idx : Index) (amount : Amount) (globalIndex : UInt32) (spent : Bool) :
    (idx.spendOutput amount globalIndex spent).keyimages = idx.keyimages ∧
      idx.SameFiles (idx.spendOutput amount globalIndex spent) := by
  unfold spendOutput
  split
  · exact ⟨rfl, rfl, rfl, rfl⟩
  · exact ⟨rfl, rfl, rfl, rfl⟩

theorem Redone.nil : Redone height [] [] [] idx idx where
  nodup := List.nodup_nil
  fresh ki hki := by cases hki
  keyimages ki := by simp
  outputs hf := by
    refine ⟨fun amount ↦ by simpa [pushesOf] using hf.stacked.length_le amount, ?_⟩
    simpa using hf
  files := .refl

theorem Redone.keyimage {ks : List KeyImage} {ps : List Push} {ss : List Spend} {ki : KeyImage}
    (h : Redone height ks ps ss idx idx') (hfresh : idx'.keyimages[ki]? = none) :
    Redone height (ks ++ [ki]) ps ss idx
      { idx' with keyimages := idx'.keyimages.insert ki height } := by
  have hnone := hfresh
  rw [h.keyimages] at hnone
  have hki : ki ∉ ks := fun hki ↦ by rw [if_pos hki] at hnone; cases hnone
  rw [if_neg hki] at hnone
  refine ⟨?_, fun a ha ↦ ?_, fun a ↦ ?_, fun hf ↦ ?_,
    h.files.trans ⟨rfl, rfl, rfl⟩⟩
  · rw [List.nodup_append]
    exact ⟨h.nodup, List.nodup_singleton ki, fun a ha b hb hab ↦
      hki (by rw [← List.mem_singleton.mp hb, ← hab]; exact ha)⟩
  · rcases List.mem_append.mp ha with ha | ha
    · exact h.fresh a ha
    · rw [List.mem_singleton.mp ha]
      exact hnone
  · rw [Table.get_insert, h.keyimages]
    by_cases hka : ki = a
    · subst hka
      simp
    · rw [if_neg hka]
      simp [Ne.symm hka]
  · obtain ⟨hlen, hout⟩ := h.outputs hf
    exact ⟨hlen, hout.congr rfl rfl⟩

/-- An output is pushed that was not marked as spent before it was there. -/
theorem Redone.push {ks : List KeyImage} {ps : List Push} {ss : List Spend} {p : Push}
    {idx'' : Index} (h : Redone height ks ps ss idx idx')
    (hok : idx'.pushAmountOutput p.1 p.2.1 height p.2.2 = .ok idx'')
    (hahead : ∀ {f : OutputStacks}, idx.Outputs f → (f.pushAll height ps p.1).length < 2 ^ 32 →
      (p.1, UInt32.ofNat (f.pushAll height ps p.1).length) ∉ ss) :
    Redone height ks (ps ++ [p]) ss idx idx'' := by
  obtain ⟨hkeys, hfiles⟩ := pushAmountOutput_frame hok
  refine ⟨h.nodup, h.fresh, fun ki ↦ by rw [hkeys]; exact h.keyimages ki, fun {f} hf ↦ ?_,
    h.files.trans hfiles⟩
  obtain ⟨hlen, hout⟩ := h.outputs hf
  obtain ⟨hlt, hout, -⟩ := hout.pushAmountOutput hok
  rw [OutputStacks.length_markSpent] at hlt
  refine ⟨fun amount ↦ ?_, ?_⟩
  · rw [pushesOf_append, List.length_append]
    by_cases hp : p.1 = amount
    · subst hp
      rw [OutputStacks.pushAll, List.length_append, List.length_map] at hlt
      have hone : (pushesOf [p] p.1).length = 1 := by simp [pushesOf]
      omega
    · have hzero : (pushesOf [p] amount).length = 0 := by simp [pushesOf, hp]
      have := hlen amount
      omega
  · rw [OutputStacks.pushAll_append, OutputStacks.markSpent_pushAll p (hahead hf hlt)]
    exact hout

theorem Redone.spend {ks : List KeyImage} {ps : List Push} {ss : List Spend} (mo : Spend)
    (h : Redone height ks ps ss idx idx') :
    Redone height ks ps (ss ++ [mo]) idx (idx'.spendOutput mo.1 mo.2 true) := by
  obtain ⟨hkeys, hfiles⟩ := spendOutput_frame idx' mo.1 mo.2 true
  refine ⟨h.nodup, h.fresh, fun ki ↦ by rw [hkeys]; exact h.keyimages ki, fun {f} hf ↦ ?_,
    h.files.trans hfiles⟩
  obtain ⟨hlen, hout⟩ := h.outputs hf
  refine ⟨hlen, ?_⟩
  rw [← OutputStacks.markSpent_markSpent]
  exact (hout.spendOutput mo.1 mo.2 true).1

theorem Redone.congr {ks ks' : List KeyImage} {ps ps' : List Push} {ss : List Spend}
    (h : Redone height ks ps ss idx idx') (hks : ks.Perm ks')
    (hps : ∀ amount, pushesOf ps amount = pushesOf ps' amount) :
    Redone height ks' ps' ss idx idx' := by
  refine ⟨hks.nodup_iff.mp h.nodup, fun ki hki ↦ h.fresh ki (hks.mem_iff.mpr hki), fun ki ↦ ?_,
    fun {f} hf ↦ ?_, h.files⟩
  · rw [h.keyimages]
    simp only [hks.mem_iff]
  · obtain ⟨hlen, hout⟩ := h.outputs hf
    refine ⟨fun amount ↦ by rw [← hps]; exact hlen amount, ?_⟩
    rw [← OutputStacks.pushAll_congr hps]
    exact hout

theorem storeKeyimage_eq_ok {ki : KeyImage} : idx.storeKeyimage ki height = .ok idx' ↔
    idx.keyimages[ki]? = none ∧
      idx' = { idx with keyimages := idx.keyimages.insert ki height } := by
  unfold storeKeyimage
  constructor
  · intro h
    obtain ⟨t, ht, h⟩ := bind_eq_ok.mp h
    cases h
    obtain ⟨hfree, rfl⟩ := putNew_eq_ok.mp ht
    exact ⟨hfree, rfl⟩
  · rintro ⟨hfree, rfl⟩
    exact bind_eq_ok.mpr ⟨_, putNew_eq_ok.mpr ⟨hfree, rfl⟩, rfl⟩

variable {ks : List KeyImage} {ps : List Push} {ss : List Spend}

/-- **Lists that were carried over** have been entered. -/
private theorem applyLists_redone (h : applyLists height ks ps ss idx = .ok idx') :
    Redone height ks ps ss idx idx' := by
  unfold applyLists at h
  obtain ⟨idx₁, h₁, h⟩ := bind_eq_ok.mp h
  obtain ⟨idx₂, h₂, h₃⟩ := bind_eq_ok.mp h
  have hr₁ := foldlM_ok (fun done t ↦ Redone height done [] [] idx t) h₁ .nil
    (fun done x rest t t' _ ht hx ↦ by
      obtain ⟨hfresh, rfl⟩ := storeKeyimage_eq_ok.mp hx
      exact ht.keyimage hfresh)
  have hr₂ := foldlM_ok (fun done t ↦ Redone height ks done [] idx t) h₂ hr₁
    (fun done x rest t t' _ ht hx ↦ ht.push hx fun _ _ ↦ List.not_mem_nil)
  exact foldlM_ok (fun done t ↦ Redone height ks ps done idx t) h₃ hr₂
    (fun done x rest t t' _ ht hx ↦ by
      cases hx
      exact ht.spend x)

/-- **A delta that was applied** has entered its lists. -/
theorem apply_redone {timestamp : Timestamp} {view : StateView} {d : DeltaState}
    (hd : DeltaState.Records height timestamp view ks ps ss d) (h : d.apply idx = .ok idx') :
    Redone height ks ps ss idx idx' := by
  obtain ⟨ks', ps', hks, hps, happly⟩ := hd.apply_eq idx
  rw [happly] at h
  exact (applyLists_redone h).congr hks.symm fun amount ↦ (hps amount).symm

end Index

namespace Ledger

variable {env : Env} {l l' : Ledger} {height : Height} {ks : List KeyImage} {ps : List Push}
  {ss : List Spend}

/-- What storing a key image does to the indexes does not depend on the pool. -/
theorem storeKeyimage_index {ki : KeyImage} (h : l.storeKeyimage ki height = .ok l') :
    l.index.keyimages[ki]? = none ∧
      l'.index = { l.index with keyimages := l.index.keyimages.insert ki height } := by
  unfold storeKeyimage at h
  obtain ⟨index, hindex, h⟩ := bind_eq_ok.mp h
  obtain ⟨hfree, rfl⟩ := Index.storeKeyimage_eq_ok.mp hindex
  refine ⟨hfree, ?_⟩
  split at h
  · cases h
    rfl
  · obtain ⟨pool, _, h⟩ := bind_eq_ok.mp h
    cases h
    rfl

private theorem applyLists_index (h : applyLists height ks ps ss l = .ok l') :
    applyLists height ks ps ss l.index = .ok l'.index := by
  unfold applyLists at h ⊢
  obtain ⟨l₁, h₁, h⟩ := bind_eq_ok.mp h
  obtain ⟨l₂, h₂, h₃⟩ := bind_eq_ok.mp h
  refine bind_eq_ok.mpr ⟨l₁.index, foldlM_along Ledger.index (fun t x t' hx ↦ ?_) h₁,
    bind_eq_ok.mpr ⟨l₂.index, foldlM_along Ledger.index (fun t x t' hx ↦ ?_) h₂,
      foldlM_along Ledger.index (fun t x t' hx ↦ ?_) h₃⟩⟩
  · obtain ⟨hfresh, hindex⟩ := storeKeyimage_index hx
    rw [hindex]
    exact Index.storeKeyimage_eq_ok.mpr ⟨hfresh, rfl⟩
  · obtain ⟨index, hindex, hx⟩ := bind_eq_ok.mp hx
    cases hx
    exact hindex
  · cases hx
    rfl

/-- **A delta that was applied** has entered its lists into the indexes. -/
theorem apply_redone {timestamp : Timestamp} {view : StateView} {d : DeltaState}
    (hd : DeltaState.Records height timestamp view ks ps ss d) (h : d.apply l = .ok l') :
    Index.Redone height ks ps ss l.index l'.index := by
  obtain ⟨ks', ps', hks, hps, happly⟩ := hd.apply_eq l
  rw [happly] at h
  exact (Index.applyLists_redone (applyLists_index h)).congr hks.symm fun amount ↦ (hps amount).symm

end Ledger

/-! ## Filing a block -/

/-- The hashes of the transactions of a block, that of the coinbase transaction first. -/
def Block.tids (block : Block) (baseTransactionHash : Hash) : List Hash :=
  baseTransactionHash :: block.header.transactionHashes.take block.transactions.length

namespace Index

/-- A block has been filed: under its hash, its transactions under theirs, its height under its
time. -/
structure Filed (bid : Hash) (tids : List Hash) (timestamp : Timestamp) (height : Height)
    (idx idx' : Index) : Prop where
  blockFree : idx.blockGlobalIndices[bid]? = none
  block : ∃ gis, idx'.blockGlobalIndices = idx.blockGlobalIndices.insert bid gis
  nodup : tids.Nodup
  transactionsFree : ∀ tid ∈ tids, idx.transactionPos[tid]? = none
  transactions : ∀ tid ∈ tids, ∃ pos, idx'.transactionPos[tid]? = some pos
  otherTransactions : ∀ tid ∉ tids, idx'.transactionPos[tid]? = idx.transactionPos[tid]?
  timeFree : idx.timestampBlock[toLex (timestamp, height)]? = none
  time : idx'.timestampBlock = idx.timestampBlock.insert (toLex (timestamp, height)) ()

/-- The positions of some transactions have been stored. -/
structure Placed (tids : List Hash) (idx idx' : Index) : Prop where
  nodup : tids.Nodup
  free : ∀ tid ∈ tids, idx.transactionPos[tid]? = none
  placed : ∀ tid ∈ tids, ∃ pos, idx'.transactionPos[tid]? = some pos
  others : ∀ tid ∉ tids, idx'.transactionPos[tid]? = idx.transactionPos[tid]?
  rest : idx' = { idx with transactionPos := idx'.transactionPos }

variable {idx idx' idx'' : Index} {blockData : Bytes}

theorem Placed.nil : Placed [] idx idx where
  nodup := List.nodup_nil
  free _ h := by cases h
  placed _ h := by cases h
  others _ _ := rfl
  rest := rfl

theorem Placed.snoc {tids : List Hash} {tid : Hash} {pos : TransactionPos}
    (h : Placed tids idx idx') (hok : idx'.storePos tid pos = .ok idx'') :
    Placed (tids ++ [tid]) idx idx'' := by
  obtain ⟨t, ht, hok⟩ := bind_eq_ok.mp hok
  cases hok
  obtain ⟨hfree, rfl⟩ := putNew_eq_ok.mp ht
  have htid : tid ∉ tids := fun hmem ↦ by
    obtain ⟨pos', hpos⟩ := h.placed tid hmem
    rw [hfree] at hpos
    cases hpos
  have hother {a : Hash} (ha : tid ≠ a) :
      (idx'.transactionPos.insert tid pos)[a]? = idx'.transactionPos[a]? :=
    Table.get_insert_of_ne _ _ ha
  refine ⟨?_, fun a ha ↦ ?_, fun a ha ↦ ?_, fun a ha ↦ ?_, ?_⟩
  · rw [List.nodup_append]
    exact ⟨h.nodup, List.nodup_singleton tid, fun a ha b hb hab ↦
      htid (by rw [← List.mem_singleton.mp hb, ← hab]; exact ha)⟩
  · rcases List.mem_append.mp ha with ha | ha
    · exact h.free a ha
    · rw [List.mem_singleton.mp ha, ← h.others tid htid]
      exact hfree
  · by_cases hta : tid = a
    · exact ⟨pos, by rw [hta]; exact Table.get_insert_self _ _ _⟩
    · rcases List.mem_append.mp ha with ha | ha
      · obtain ⟨pos', hpos⟩ := h.placed a ha
        exact ⟨pos', (hother hta).trans hpos⟩
      · exact absurd (List.mem_singleton.mp ha).symm hta
  · rw [List.mem_append, List.mem_singleton, not_or] at ha
    exact (hother (Ne.symm ha.2)).trans (h.others a ha.1)
  · rw [h.rest]

theorem indexTransaction_eq_ok {tpos : TransactionPos} {tid : Hash} {binaryTx : Bytes}
    {index : UInt32} {p : Index × TransactionPos}
    (h : idx.indexTransaction blockData tpos tid binaryTx index = .ok p) :
    idx.storePos tid p.2 = .ok p.1 := by
  unfold indexTransaction at h
  obtain ⟨ptr, _, h⟩ := bind_eq_ok.mp h
  obtain ⟨idx₁, hidx, h⟩ := bind_eq_ok.mp h
  cases h
  exact hidx

/-- Filing the transactions and the time of a block. -/
theorem indexBlock_eq_ok {rawBlock : RawBlock} {block : Block} {info : Api.BlockHeader}
    {baseTransactionHash : Hash}
    (h : idx.indexBlock blockData rawBlock block info baseTransactionHash = .ok idx') :
    idx.timestampBlock[toLex (info.timestamp, info.height)]? = none ∧
      Placed (block.tids baseTransactionHash)
        { idx with timestampBlock :=
            idx.timestampBlock.insert (toLex (info.timestamp, info.height)) () } idx' := by
  unfold indexBlock at h
  obtain ⟨t, ht, h⟩ := bind_eq_ok.mp h
  obtain ⟨hfree, rfl⟩ := putNew_eq_ok.mp ht
  obtain ⟨coinbase, _, h⟩ := bind_eq_ok.mp h
  obtain ⟨p, hp, h⟩ := bind_eq_ok.mp h
  obtain ⟨q, hq, h⟩ := bind_eq_ok.mp h
  cases h
  refine ⟨hfree, ?_⟩
  have hfirst := Placed.nil.snoc (indexTransaction_eq_ok hp)
  have hall := foldlM_ok (fun (done : List ℕ) (q : Index × TransactionPos) ↦
    ∀ n, done = List.range n → Placed (baseTransactionHash :: block.header.transactionHashes.take n)
      { idx with timestampBlock :=
          idx.timestampBlock.insert (toLex (info.timestamp, info.height)) () } q.1) hq ?_ ?_
  · exact hall _ rfl
  · intro n hn
    have hzero : n = 0 := by simpa using (congrArg List.length hn).symm
    subst hzero
    exact hfirst
  · intro done i rest q q' hl hplaced hx n hn
    have hlen := congrArg List.length hn
    rw [List.length_append, List.length_singleton, List.length_range] at hlen
    subst hlen
    rw [List.range_succ] at hn
    obtain ⟨hdone, hi⟩ := List.append_inj' hn rfl
    cases hi
    obtain ⟨tid, htid, hx⟩ := bind_eq_ok.mp hx
    obtain ⟨binaryTx, _, hx⟩ := bind_eq_ok.mp hx
    rw [orFail_eq_ok] at htid
    have hsnoc := (hplaced _ hdone).snoc (indexTransaction_eq_ok hx)
    rw [List.take_add_one, htid]
    exact hsnoc

end Index

namespace Ledger

variable {env : Env} {l l' : Ledger}

/-- A block that was redone on the state: its delta was computed and applied, and the global indices
of its outputs were stored. -/
private theorem redoBlockState_eq_ok {bhash : Hash} {block : Block} {info : Api.BlockHeader}
    (h : l.redoBlockState env bhash block info = .ok l') :
    ∃ (delta : DeltaState) (gis : List (List UInt32)) (l₁ : Ledger),
      redoBlockDelta env block
        { blockHeight := info.height, unlockTimestamp := info.timestamp,
          parentState := l.index.view } = .ok (delta, gis) ∧
      delta.apply l = .ok l₁ ∧ l₁.index.blockGlobalIndices[bhash]? = none ∧
      l' = { l₁ with
        index := { l₁.index with
          blockGlobalIndices := l₁.index.blockGlobalIndices.insert bhash gis }
        txPoolVersion := 2 } := by
  unfold redoBlockState at h
  have hsplit : ∃ (args : List RingSignatureArg) (p : DeltaState × List (List UInt32)),
      redoBlockDelta env block
        { blockHeight := info.height, unlockTimestamp := info.timestamp,
          parentState := l.index.view } = .ok p ∧
      (if signaturesValid env args = true then do
        let l ← liftFault (p.1.apply l)
        let t ← liftFault (putNew l.index.blockGlobalIndices bhash p.2)
        return { l with index := { l.index with blockGlobalIndices := t }, txPoolVersion := 2 }
      else Except.error (Stop.reject .inputInvalidSignatures 0)) = .ok l' := by
    dsimp only at h
    split_ifs at h with hsigs
    all_goals
      obtain ⟨args, _, h⟩ := bind_eq_ok.mp h
      obtain ⟨p, hp, h⟩ := bind_eq_ok.mp h
      exact ⟨args, p, hp, h⟩
  obtain ⟨args, p, hp, h⟩ := hsplit
  split_ifs at h with hvalid
  obtain ⟨l₁, hl₁, h⟩ := bind_eq_ok.mp h
  obtain ⟨t, ht, h⟩ := bind_eq_ok.mp h
  cases h
  rw [liftFault_eq_ok] at hl₁ ht
  obtain ⟨hfree, rfl⟩ := putNew_eq_ok.mp ht
  exact ⟨p.1, p.2, l₁, hp, hl₁, hfree, rfl⟩

/-- The parts of redoing a block: its delta, the ledger the delta was applied to, and the files. -/
theorem redoBlock_parts {bhash : Hash} {blockData : Bytes} {rawBlock : RawBlock} {block : Block}
    {info : Api.BlockHeader} {baseTransactionHash : Hash}
    (h : l.redoBlock env bhash blockData rawBlock block info baseTransactionHash = .ok l') :
    ∃ (delta : DeltaState) (gis : List (List UInt32)) (l₁ : Ledger),
      redoBlockDelta env block
        { blockHeight := info.height, unlockTimestamp := info.timestamp,
          parentState := l.index.view } = .ok (delta, gis) ∧
      delta.apply l = .ok l₁ ∧ l₁.index.blockGlobalIndices[bhash]? = none ∧
      Index.indexBlock { l₁.index with
        blockGlobalIndices := l₁.index.blockGlobalIndices.insert bhash gis }
        blockData rawBlock block info baseTransactionHash = .ok l'.index ∧
      l'.pool = l₁.pool := by
  unfold redoBlock at h
  obtain ⟨l₂, hl₂, h⟩ := bind_eq_ok.mp h
  obtain ⟨index, hindex, h⟩ := bind_eq_ok.mp h
  cases h
  rw [liftFault_eq_ok] at hindex
  obtain ⟨delta, gis, l₁, hdelta, happly, hfree, rfl⟩ := redoBlockState_eq_ok hl₂
  exact ⟨delta, gis, l₁, hdelta, happly, hfree, hindex, rfl⟩

/-- **A block that was redone**: its lists are entered, and it is filed. -/
theorem redoBlock_eq_ok {bhash : Hash} {blockData : Bytes} {rawBlock : RawBlock} {block : Block}
    {info : Api.BlockHeader} {baseTransactionHash : Hash}
    (h : l.redoBlock env bhash blockData rawBlock block info baseTransactionHash = .ok l') :
    ∃ idx₁ : Index,
      Index.Redone info.height block.keyImages block.pushes block.spends l.index idx₁ ∧
      Index.Filed bhash (block.tids baseTransactionHash) info.timestamp info.height idx₁ l'.index ∧
      l'.index.keyimages = idx₁.keyimages ∧ l'.index.amountOutputs = idx₁.amountOutputs ∧
      l'.index.nextGiForAmount = idx₁.nextGiForAmount := by
  obtain ⟨delta, gis, l₁, hdelta, happly, hfree, hindex, -⟩ := redoBlock_parts h
  obtain ⟨htime, hplaced⟩ := Index.indexBlock_eq_ok hindex
  have hrecords := DeltaState.Records.empty.redoBlockDelta hdelta
  refine ⟨l₁.index, apply_redone hrecords happly, ⟨hfree, ⟨gis, ?_⟩, hplaced.nodup, hplaced.free,
    hplaced.placed, hplaced.others, htime, ?_⟩, ?_, ?_, ?_⟩
  all_goals rw [hplaced.rest]

end Ledger

end CryoNero
