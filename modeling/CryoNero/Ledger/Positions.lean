import CryoNero.Ledger.Redo

/-!
# Where the transactions of a block lie

The position that is stored for a transaction is found by a search in the bytes of its block, behind
the transaction before it. Whichever occurrence is found, the bytes at that position are those of the
transaction, and this is all that reading them back needs.
-/

namespace CryoNero

open Seria Store

/-- A position tells the height and the place of a transaction in its block, and its bytes lie
there. -/
structure TransactionPos.Locates (pos : TransactionPos) (height : Height) (index : ℕ)
    (blockData binaryTx : Bytes) : Prop where
  height : pos.height = height
  index : pos.index.toNat = index
  size : pos.size.toNat = binaryTx.length
  fits : pos.offset.toNat + binaryTx.length ≤ blockData.length
  bytes : (blockData.drop pos.offset.toNat).take binaryTx.length = binaryTx

private theorem slowMemmem_eq_some {pat : Bytes} : ∀ {buf : Bytes} {n : ℕ}, slowMemmem pat buf = some n →
    pat <+: buf.drop n := by
  intro buf
  induction buf with
  | nil =>
    intro n h
    cases h
  | cons b buf ih =>
    intro n h
    rw [slowMemmem] at h
    split_ifs at h with hpat hhere
    · cases h
      exact List.isPrefixOf_iff_prefix.mp hhere
    · obtain ⟨m, hm, rfl⟩ := Option.map_eq_some_iff.mp h
      exact ih hm

namespace Index

variable {idx idx' : Index} {blockData binaryTx : Bytes} {tid : Hash} {index : UInt32}

theorem storePos_eq_ok {pos : TransactionPos} (h : idx.storePos tid pos = .ok idx') :
    idx'.transactionPos = idx.transactionPos.insert tid pos ∧ idx.transactionPos[tid]? = none := by
  obtain ⟨t, ht, h⟩ := bind_eq_ok.mp h
  cases h
  obtain ⟨hfree, rfl⟩ := putNew_eq_ok.mp ht
  exact ⟨rfl, hfree⟩

private theorem storePos_mono {pos pos' : TransactionPos} {a : Hash} (h : idx.storePos tid pos = .ok idx')
    (ha : idx.transactionPos[a]? = some pos') : idx'.transactionPos[a]? = some pos' := by
  obtain ⟨htable, hfree⟩ := storePos_eq_ok h
  rw [htable, Table.get_insert_of_ne]
  · exact ha
  · rintro rfl
    rw [hfree] at ha
    cases ha

/-- **A transaction is placed** where its bytes lie. -/
private theorem indexTransaction_locates {tpos : TransactionPos} {p : Index × TransactionPos}
    (hsized : blockData.length < 2 ^ 32)
    (h : idx.indexTransaction blockData tpos tid binaryTx index = .ok p) :
    p.1.transactionPos[tid]? = some p.2 ∧
      p.2.Locates tpos.height index.toNat blockData binaryTx := by
  have hstore := indexTransaction_eq_ok h
  refine ⟨?_, ?_⟩
  · rw [(storePos_eq_ok hstore).1]
    exact Table.get_insert_self _ _ _
  unfold indexTransaction at h
  obtain ⟨ptr, hptr, h⟩ := bind_eq_ok.mp h
  obtain ⟨idx₁, _, h⟩ := bind_eq_ok.mp h
  cases h
  rw [orFail_eq_ok] at hptr
  obtain ⟨rest, hrest⟩ := slowMemmem_eq_some hptr
  rw [List.drop_drop] at hrest
  have hlen := congrArg List.length hrest
  rw [List.length_append, List.length_drop] at hlen
  have hne : binaryTx ≠ [] := by
    rintro rfl
    unfold slowMemmem at hptr
    split at hptr
    · cases hptr
    · rw [if_pos rfl] at hptr
      cases hptr
  have hpos := List.length_pos_iff.mpr hne
  have hoffset : (UInt32.ofNat ((tpos.offset + tpos.size).toNat + ptr)).toNat =
      (tpos.offset + tpos.size).toNat + ptr := toNat_ofNat_of_lt (by omega)
  refine ⟨rfl, rfl, toNat_ofNat_of_lt (by omega), ?_, ?_⟩
  · change (UInt32.ofNat ((tpos.offset + tpos.size).toNat + ptr)).toNat + _ ≤ _
    rw [hoffset]
    omega
  · change (blockData.drop (UInt32.ofNat ((tpos.offset + tpos.size).toNat + ptr)).toNat).take _ = _
    rw [hoffset, ← hrest]
    exact List.take_left

/-- **The transactions of a block are placed** where their bytes lie. -/
theorem indexBlock_locates {rawBlock : RawBlock} {block : Block} {info : Api.BlockHeader}
    (hsized : blockData.length < 2 ^ 32) (hcount : block.transactions.length < 2 ^ 32)
    (h : idx.indexBlock blockData rawBlock block info tid = .ok idx') :
    (∃ coinbase pos, writeTransaction block.header.baseTransaction = some coinbase ∧
      idx'.transactionPos[tid]? = some pos ∧ pos.Locates info.height 0 blockData coinbase) ∧
    ∀ i < block.transactions.length, ∃ t binaryTx pos,
      block.header.transactionHashes[i]? = some t ∧ rawBlock.transactions[i]? = some binaryTx ∧
      idx'.transactionPos[t]? = some pos ∧ pos.Locates info.height (i + 1) blockData binaryTx := by
  unfold indexBlock at h
  obtain ⟨t, ht, h⟩ := bind_eq_ok.mp h
  obtain ⟨coinbase, hcoinbase, h⟩ := bind_eq_ok.mp h
  obtain ⟨p, hp, h⟩ := bind_eq_ok.mp h
  obtain ⟨q, hq, h⟩ := bind_eq_ok.mp h
  cases h
  rw [orFail_eq_ok] at hcoinbase
  obtain ⟨hfirst, hlocates⟩ := indexTransaction_locates hsized hp
  have hall := foldlM_ok (fun (done : List ℕ) (q : Index × TransactionPos) ↦
    q.2.height = info.height ∧
    q.1.transactionPos[tid]? = some p.2 ∧
    ∀ i ∈ done, ∃ t binaryTx pos,
      block.header.transactionHashes[i]? = some t ∧ rawBlock.transactions[i]? = some binaryTx ∧
      q.1.transactionPos[t]? = some pos ∧ pos.Locates info.height (i + 1) blockData binaryTx) hq
    ⟨hlocates.height, hfirst, fun i hi ↦ by cases hi⟩ ?_
  · exact ⟨⟨coinbase, p.2, hcoinbase, hall.2.1, hlocates⟩,
      fun i hi ↦ hall.2.2 i (List.mem_range.mpr hi)⟩
  · rintro done i rest q q' hl ⟨hheight, hcoinbasePos, hdone⟩ hx
    have hi : i < block.transactions.length := by
      refine List.mem_range.mp ?_
      rw [hl]
      exact List.mem_append_right _ List.mem_cons_self
    obtain ⟨a, ha, hx⟩ := bind_eq_ok.mp hx
    obtain ⟨binaryTx, hbinary, hx⟩ := bind_eq_ok.mp hx
    rw [orFail_eq_ok] at ha hbinary
    have hstore := indexTransaction_eq_ok hx
    obtain ⟨hthere, hlocates'⟩ := indexTransaction_locates hsized hx
    rw [hheight, toNat_ofNat_of_lt (by omega)] at hlocates'
    refine ⟨hlocates'.height, storePos_mono hstore hcoinbasePos, fun k hk ↦ ?_⟩
    rcases List.mem_append.mp hk with hk | hk
    · obtain ⟨t, b, pos, ht, hb, hpos, hplace⟩ := hdone k hk
      exact ⟨t, b, pos, ht, hb, storePos_mono hstore hpos, hplace⟩
    · obtain rfl := List.mem_singleton.mp hk
      exact ⟨a, binaryTx, q'.2, ha, hbinary, hthere, hlocates'⟩

private theorem indexTransaction_alike {jdx : Index} {tpos : TransactionPos} {p q : Index × TransactionPos}
    (h : idx.indexTransaction blockData tpos tid binaryTx index = .ok p)
    (h' : jdx.indexTransaction blockData tpos tid binaryTx index = .ok q) :
    q.2 = p.2 ∧ p.2.height = tpos.height ∧ p.1.transactionPos = idx.transactionPos.insert tid p.2 ∧
      q.1.transactionPos = jdx.transactionPos.insert tid p.2 := by
  have hstore := storePos_eq_ok (indexTransaction_eq_ok h)
  have hstore' := storePos_eq_ok (indexTransaction_eq_ok h')
  unfold indexTransaction at h h'
  obtain ⟨ptr, hptr, h⟩ := bind_eq_ok.mp h
  obtain ⟨ptr', hptr', h'⟩ := bind_eq_ok.mp h'
  obtain ⟨idx₁, _, h⟩ := bind_eq_ok.mp h
  obtain ⟨jdx₁, _, h'⟩ := bind_eq_ok.mp h'
  rw [orFail_eq_ok] at hptr hptr'
  obtain rfl := Option.some.inj (hptr.symm.trans hptr')
  cases h
  cases h'
  exact ⟨rfl, rfl, hstore.1, hstore'.1⟩

/-- **The positions of a block** tell its height, and do not depend on what is stored already. -/
theorem indexBlock_alike {jdx jdx' : Index} {rawBlock : RawBlock} {block : Block}
    {info info' : Api.BlockHeader} (hheight : info'.height = info.height)
    (h : idx.indexBlock blockData rawBlock block info tid = .ok idx')
    (h' : jdx.indexBlock blockData rawBlock block info' tid = .ok jdx') :
    ∀ t ∈ block.tids tid, ∃ pos, pos.height = info.height ∧ idx'.transactionPos[t]? = some pos ∧
      jdx'.transactionPos[t]? = some pos := by
  unfold indexBlock at h h'
  obtain ⟨_, -, h⟩ := bind_eq_ok.mp h
  obtain ⟨_, -, h'⟩ := bind_eq_ok.mp h'
  obtain ⟨coinbase, hcoinbase, h⟩ := bind_eq_ok.mp h
  obtain ⟨coinbase', hcoinbase', h'⟩ := bind_eq_ok.mp h'
  obtain ⟨p, hp, h⟩ := bind_eq_ok.mp h
  obtain ⟨q, hq, h'⟩ := bind_eq_ok.mp h'
  obtain ⟨p', hp', h⟩ := bind_eq_ok.mp h
  obtain ⟨q', hq', h'⟩ := bind_eq_ok.mp h'
  cases h
  cases h'
  rw [orFail_eq_ok] at hcoinbase hcoinbase'
  obtain rfl := Option.some.inj (hcoinbase.symm.trans hcoinbase')
  rw [hheight] at hq
  obtain ⟨hpos, hfirst, hinsert, hinsert'⟩ := indexTransaction_alike hp hq
  have hall := foldlM_ok₂ (fun (done : List ℕ) (u v : Index × TransactionPos) ↦
    v.2 = u.2 ∧ u.2.height = info.height ∧
    ∀ t, t = tid ∨ (∃ i ∈ done, block.header.transactionHashes[i]? = some t) →
      ∃ pos, pos.height = info.height ∧ u.1.transactionPos[t]? = some pos ∧
        v.1.transactionPos[t]? = some pos) hp' hq' ⟨hpos, hfirst, ?_⟩ ?_
  · intro t ht
    refine hall.2.2 t ((List.mem_cons.mp ht).imp_right fun ht ↦ ?_)
    obtain ⟨i, hi⟩ := List.getElem?_of_mem ht
    rw [List.getElem?_take] at hi
    split_ifs at hi with hlt
    exact ⟨i, List.mem_range.mpr hlt, hi⟩
  · rintro t (rfl | ⟨i, hi, -⟩)
    · rw [hinsert, hinsert', Table.get_insert_self, Table.get_insert_self]
      exact ⟨p.2, hfirst, rfl, rfl⟩
    · cases hi
  · rintro done i rest u u' v v' - ⟨hsame, hheight', hdone⟩ hu hv
    obtain ⟨a, ha, hu⟩ := bind_eq_ok.mp hu
    obtain ⟨a', ha', hv⟩ := bind_eq_ok.mp hv
    obtain ⟨b, hb, hu⟩ := bind_eq_ok.mp hu
    obtain ⟨b', hb', hv⟩ := bind_eq_ok.mp hv
    rw [orFail_eq_ok] at ha ha' hb hb'
    obtain rfl := Option.some.inj (ha.symm.trans ha')
    obtain rfl := Option.some.inj (hb.symm.trans hb')
    rw [hsame] at hv
    obtain ⟨hpos', hlevel, hstored, hstored'⟩ := indexTransaction_alike hu hv
    rw [hheight'] at hlevel
    refine ⟨hpos', hlevel, fun t ht ↦ ?_⟩
    rw [hstored, hstored', Table.get_insert, Table.get_insert]
    split_ifs with hat
    · exact ⟨u'.2, hlevel, rfl, rfl⟩
    · refine hdone t (ht.imp_right ?_)
      rintro ⟨k, hk, hkt⟩
      rcases List.mem_append.mp hk with hk | hk
      · exact ⟨k, hk, hkt⟩
      · rw [List.mem_singleton.mp hk, ha] at hkt
        exact absurd (Option.some.inj hkt) hat

end Index

end CryoNero
