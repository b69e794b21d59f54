import CryoNero.Core.InMemory

/-!
# How far the binary format is canonical

A transaction and its bytes determine each other. A block template does not quite determine its
bytes: a parent block holds two numbers that the template does not keep. One ends its coinbase
transaction from version 2 on and is ignored; the other is its number of transactions, of which 16 of
the 64 bits that are read are kept. `writeBlockTemplateWith` is the layout of a block template with
both numbers in place, and everything said here about blocks is said through it.
-/

namespace CryoNero

open Seria Seria.Reader

/-! ## Transactions -/

/-- A transaction has one vector of signatures for each of its inputs, with one signature for each
member of the ring; a lone coinbase input takes no vector at all. -/
def Transaction.Signed (tx : Transaction) : Prop :=
  tx.signatures.map List.length = tx.signatureSizes

instance (tx : Transaction) : Decidable tx.Signed :=
  inferInstanceAs (Decidable (tx.signatures.map List.length = tx.signatureSizes))

theorem Transaction.Signed.tidy {tx : Transaction} (h : tx.Signed) : tx.Tidy := by
  intro hnil
  rw [Transaction.Signed, hnil, List.map_eq_nil_iff] at h
  exact h

private theorem signed_of_readTransaction {v x : Transaction} {s rest : Bytes}
    (h : readTransaction v s = (x, some rest)) : x.Signed := by
  obtain ⟨_, t, h₁, h₂⟩ := andThen_eq_some.mp h
  obtain ⟨p, -, rfl⟩ := on_eq_some.mp h₁
  rw [bySoFar] at h₂
  obtain ⟨sigs, hsigs, rfl⟩ := on_eq_some.mp h₂
  exact (readSignatures_eq_some (length_resize _ _ _) hsigs).1

theorem writeTransaction_of_fromBinary {v tx : Transaction} {s : Bytes}
    (h : fromBinary readTransaction v s = (tx, true)) : writeTransaction tx = some s := by
  obtain ⟨b, hb, hs⟩ := canonical_readTransaction (fromBinary_eq_true.mp h)
  rw [List.append_nil] at hs
  rw [hs]
  exact hb

/-- **The format of transactions is a bijection.** The bytes that are accepted are those written for
what they give, whatever object they are read into, so that the hash of a transaction is the hash of
the bytes that were received; and a transaction in memory, signed as its inputs ask, is given back by
its bytes. -/
theorem transaction_bijection (c : Crypto) :
    (∀ (v tx : Transaction) (s : Bytes), fromBinary readTransaction v s = (tx, true) →
      tx.Signed ∧ writeTransaction tx = some s) ∧
    (∀ v tx : Transaction, tx.toTransactionPrefix.InMemory → tx.Signed →
      ∃ b, writeTransaction tx = some b ∧ fromBinary readTransaction v b = (tx, true)) ∧
    (∀ (v v' tx tx' : Transaction) (s s' : Bytes), fromBinary readTransaction v s = (tx, true) →
      fromBinary readTransaction v' s' = (tx', true) →
      getTransactionHash c tx = getTransactionHash c tx' →
      s = s' ∨ s ≠ s' ∧ c.cnFastHash s = c.cnFastHash s') := by
  refine ⟨fun v tx s h ↦ ?_, fun v tx hmem hsigned ↦ ?_, fun v v' tx tx' s s' h h' hhash ↦ ?_⟩
  · exact ⟨signed_of_readTransaction (fromBinary_eq_true.mp h), writeTransaction_of_fromBinary h⟩
  · have hb := (writeTransaction_eq_some hsigned.tidy).mpr ⟨hsigned, rfl⟩
    have hread := reads_readTransaction v hmem hsigned.tidy hb []
    rw [List.append_nil] at hread
    exact ⟨_, hb, fromBinary_eq_true.mpr hread⟩
  · rw [getTransactionHash, getTransactionHash, writeTransaction_of_fromBinary h,
      writeTransaction_of_fromBinary h'] at hhash
    by_cases hs : s = s'
    · exact .inl hs
    · exact .inr ⟨hs, Option.some.inj hhash⟩

/-- An input with a ring of two beside a coinbase input. -/
def sampleMixed : Transaction where
  version := 1
  unlockTime := 300
  inputs := [.keyInput { amount := 5, outputIndexes := [3, 130], keyImage := 7 }, .coinbaseInput {}]
  outputs := [{ amount := 4, target := .keyOutput { key := 9 } }]
  extra := [0x01]
  signatures := [[1, 2], []]

theorem transaction_bijection_sample : sampleMixed.toTransactionPrefix.InMemory ∧
    sampleMixed.Signed ∧ ∃ b, writeTransaction sampleMixed = some b ∧
      fromBinary readTransaction {} b = (sampleMixed, true) := by
  have hmem : sampleMixed.toTransactionPrefix.InMemory :=
    ⟨by decide, by decide, by decide, by decide⟩
  have hsigned : sampleMixed.Signed := by decide
  exact ⟨hmem, hsigned, (transaction_bijection .lax).2.1 {} sampleMixed hmem hsigned⟩

/-! ## Blocks with both numbers in place -/

/-- A coinbase transaction of a parent block with `ignored` as the number that ends it. -/
def writeBaseTransactionWith (ignored : UInt64) (v : BaseTransaction) : Bytes :=
  writeTransactionPrefix v.toTransactionPrefix ++ if 2 ≤ v.version then writeU64 ignored else []

/-- A parent block that holds `count` as its number of transactions. -/
def writeParentBlockWith (count ignored : UInt64) (v : BlockTemplate) : Bytes :=
  writeU8 v.parentBlock.majorVersion ++ writeU8 v.parentBlock.minorVersion ++
    writeU32 v.timestamp ++ writeHash v.parentBlock.previousBlockHash ++ rawBytes32 v.nonce ++
    writeU64 count ++ writeItems writeHash v.parentBlock.baseTransactionBranch ++
    writeBaseTransactionWith ignored v.parentBlock.baseTransaction ++
    writeItems writeHash v.parentBlock.blockchainBranch

/-- The branches of a parent block are as long as its number of transactions and its tag say. -/
def ParentBlock.Branched (p : ParentBlock) : Prop :=
  1 ≤ p.transactionCount ∧ p.baseTransactionBranch.length = treeDepth p.transactionCount.toNat ∧
    ∃ tag ∈ getMergeMiningTagFromExtra p.baseTransaction.extra, tag.depth ≤ 256 ∧
      tag.depth.toNat = p.blockchainBranch.length

instance (p : ParentBlock) : Decidable p.Branched :=
  inferInstanceAs (Decidable (_ ∧ _ ∧ ∃ tag ∈ getMergeMiningTagFromExtra p.baseTransaction.extra, _))

/-- A block template with both numbers in place; only from version 2 on there is a parent block. -/
def writeBlockTemplateWith (count ignored : UInt64) (v : BlockTemplate) : Option Bytes := do
  let head ← writeBlockHeader v.toBlockHeader
  let tx ← writeTransaction v.baseTransaction
  if v.majorVersion < 2 then
    some (head ++ tx ++ writeVector writeHash v.transactionHashes)
  else if v.parentBlock.Branched then
    some (head ++ writeParentBlockWith count ignored v ++ tx ++
      writeVector writeHash v.transactionHashes)
  else none

private theorem writeParentBlock_eq (c : Crypto) (v : BlockTemplate) :
    writeParentBlock c v false = if v.parentBlock.Branched then
      some (writeParentBlockWith v.parentBlock.transactionCount.toUInt64 0 v) else none := by
  rw [writeParentBlock, writeParentBlockHeader, if_neg Bool.false_ne_true, List.append_nil]
  by_cases hcount : v.parentBlock.transactionCount < 1
  · have hnot : ¬v.parentBlock.Branched := fun h ↦ absurd h.1 (UInt16.not_le.mpr hcount)
    rw [if_pos hcount, if_neg hnot]
  · rw [if_neg hcount]
    rcases htag : getMergeMiningTagFromExtra v.parentBlock.baseTransaction.extra with _ | tag
    · have hnot : ¬v.parentBlock.Branched := by
        rintro ⟨-, -, tag, hmem, -⟩
        rw [htag] at hmem
        cases hmem
      rw [if_neg hnot]
    · have hiff : v.parentBlock.Branched ↔ v.parentBlock.baseTransactionBranch.length =
          treeDepth v.parentBlock.transactionCount.toNat ∧ tag.depth ≤ 256 ∧
            tag.depth.toNat = v.parentBlock.blockchainBranch.length := by
        simp [ParentBlock.Branched, htag, UInt16.not_lt.mp hcount]
      dsimp only
      simp only [hiff]
      split_ifs
      · rfl
      · rfl

/-- **What is written is the layout with the two numbers of the template itself.** -/
theorem writeBlockTemplate_eq (c : Crypto) (v : BlockTemplate) : writeBlockTemplate c v =
    writeBlockTemplateWith v.parentBlock.transactionCount.toUInt64 0 v := by
  rw [writeBlockTemplate, writeBlockTemplateWith, writeParentBlock_eq]
  rcases writeBlockHeader v.toBlockHeader with _ | head
  · rfl
  by_cases hv : v.majorVersion < 2
  · have hle : ¬2 ≤ v.majorVersion := UInt8.not_le.mpr hv
    rcases writeTransaction v.baseTransaction with _ | tx
    · simp [hle]
    · simp [hv, hle]
  · have hle : 2 ≤ v.majorVersion := UInt8.not_lt.mp hv
    by_cases hb : v.parentBlock.Branched
    · rcases writeTransaction v.baseTransaction with _ | tx
      · simp [hle, hb]
      · simp [hv, hle, hb]
    · rcases writeTransaction v.baseTransaction with _ | tx
      · simp [hle, hb]
      · simp [hv, hle, hb]

/-! ## What is accepted as a block -/

private theorem eq_of_readBaseTransaction {v x : BaseTransaction} {s rest : Bytes}
    (h : readBaseTransaction v s = (x, some rest)) :
    ∃ ignored, s = writeBaseTransactionWith ignored x ++ rest ∧ (x.version < 2 → ignored = 0) := by
  obtain ⟨_, t, h₁, h₂⟩ := andThen_eq_some.mp h
  obtain ⟨p, hp, rfl⟩ := on_eq_some.mp h₁
  rw [bySoFar] at h₂
  have hs := canonical_readTransactionPrefix _ _ _ _ hp
  by_cases hver : 2 ≤ p.version
  · rw [if_pos hver] at h₂
    obtain ⟨ignored, hignored, rfl⟩ := on_eq_some.mp h₂
    refine ⟨ignored, ?_, fun hlt ↦ absurd hlt (UInt8.not_lt.mpr hver)⟩
    rw [writeBaseTransactionWith, if_pos hver, hs, canonical_readU64 _ _ _ _ hignored,
      List.append_assoc]
  · rw [if_neg hver] at h₂
    obtain ⟨rfl, ht⟩ := Prod.mk.inj h₂
    refine ⟨0, ?_, fun _ ↦ rfl⟩
    rw [writeBaseTransactionWith, if_neg hver, List.append_nil, ← Option.some.inj ht]
    exact hs

private theorem eq_of_readParentBlock {v x : BlockTemplate} {s rest : Bytes}
    (h : readParentBlock v s = (x, some rest)) :
    ∃ count ignored, s = writeParentBlockWith count ignored x ++ rest ∧ x.parentBlock.Branched ∧
      x.parentBlock.transactionCount = count.toUInt16 ∧
      (x.parentBlock.baseTransaction.version < 2 → ignored = 0) ∧
      x = { v with timestamp := x.timestamp, nonce := x.nonce, parentBlock := x.parentBlock } := by
  -- taking the object apart keeps the object read so far small
  obtain ⟨header, parent, baseTx, hashes⟩ := v
  obtain ⟨major₀, minor₀, nonce₀, timestamp₀, previous₀⟩ := header
  obtain ⟨_, t₁, h₁, h⟩ := andThen_eq_some.mp h
  obtain ⟨major, hmajor, rfl⟩ := on_eq_some.mp h₁
  dsimp only at h hmajor
  obtain ⟨_, t₂, h₂, h⟩ := andThen_eq_some.mp h
  obtain ⟨minor, hminor, rfl⟩ := on_eq_some.mp h₂
  dsimp only at h hminor
  obtain ⟨_, t₃, h₃, h⟩ := andThen_eq_some.mp h
  obtain ⟨timestamp, htimestamp, rfl⟩ := on_eq_some.mp h₃
  dsimp only at h htimestamp
  obtain ⟨_, t₄, h₄, h⟩ := andThen_eq_some.mp h
  obtain ⟨previous, hprevious, rfl⟩ := on_eq_some.mp h₄
  dsimp only at h hprevious
  obtain ⟨_, t₅, h₅, h⟩ := andThen_eq_some.mp h
  obtain ⟨nonce, hnonce, rfl⟩ := on_eq_some.mp h₅
  dsimp only at h hnonce
  obtain ⟨_, t₆, h₆, h⟩ := andThen_eq_some.mp h
  obtain ⟨count, hcount, rfl⟩ := on_eq_some.mp h₆
  dsimp only at h hcount
  obtain ⟨_, t₇, h₇, h⟩ := andThen_eq_some.mp h
  obtain ⟨hpos, hsame, hrest⟩ := require_eq_some.mp h₇
  rw [hsame, hrest] at h
  obtain ⟨_, t₈, h₈, h⟩ := andThen_eq_some.mp h
  obtain ⟨branch, hbranch, rfl⟩ := on_eq_some.mp h₈
  dsimp only at h hbranch
  obtain ⟨_, t₉, h₉, h⟩ := andThen_eq_some.mp h
  obtain ⟨base, hbase, rfl⟩ := on_eq_some.mp h₉
  dsimp only at h hbase
  rw [bySoFar] at h
  dsimp only at h
  rcases htag : getMergeMiningTagFromExtra base.extra with _ | tag
  · rw [htag] at h
    exact absurd (Prod.mk.inj h).2 (by simp)
  rw [htag] at h
  dsimp only at h
  by_cases hdepth : 256 < tag.depth
  · rw [if_pos hdepth] at h
    exact absurd (Prod.mk.inj h).2 (by simp)
  rw [if_neg hdepth] at h
  obtain ⟨chain, hchain, rfl⟩ := on_eq_some.mp h
  obtain ⟨ignored, hs₈, hignored⟩ := eq_of_readBaseTransaction hbase
  refine ⟨count, ignored, ?_, ⟨of_decide_eq_true hpos, ?_, tag, htag, UInt64.not_lt.mp hdepth, ?_⟩,
    rfl, hignored, rfl⟩
  · rw [canonical_readU8 _ _ _ _ hmajor, canonical_readU8 _ _ _ _ hminor,
      canonical_readU32 _ _ _ _ htimestamp, canonical_readHash _ _ _ _ hprevious,
      canonical_readRaw32 _ _ _ _ hnonce, canonical_readU64 _ _ _ _ hcount,
      canonical_readItems canonical_readHash _ _ _ _ hbranch, hs₈,
      canonical_readItems canonical_readHash _ _ _ _ hchain]
    simp only [writeParentBlockWith, List.append_assoc]
  · rw [length_of_readItems hbranch, length_resize]
  · rw [length_of_readItems hchain, length_resize]

private theorem eq_of_readBlockHeader {v x : BlockTemplate} {s rest : Bytes}
    (h : readBlockHeader v s = (x, some rest)) :
    ∃ head, writeBlockHeader x.toBlockHeader = some head ∧ s = head ++ rest ∧
      x = { v with toBlockHeader := x.toBlockHeader } := by
  obtain ⟨_, t₁, h₁, h⟩ := andThen_eq_some.mp h
  obtain ⟨major, hmajor, rfl⟩ := on_eq_some.mp h₁
  obtain ⟨_, t₂, h₂, h⟩ := andThen_eq_some.mp h
  obtain ⟨minor, hminor, rfl⟩ := on_eq_some.mp h₂
  rw [bySoFar] at h
  dsimp only at h
  have hs := canonical_readU8 _ _ _ _ hmajor
  have ht₁ := canonical_readU8 _ _ _ _ hminor
  by_cases hone : major = 1
  · rw [if_pos hone] at h
    obtain ⟨_, t₃, h₃, h⟩ := andThen_eq_some.mp h
    obtain ⟨timestamp, htimestamp, rfl⟩ := on_eq_some.mp h₃
    obtain ⟨_, t₄, h₄, h⟩ := andThen_eq_some.mp h
    obtain ⟨previous, hprevious, rfl⟩ := on_eq_some.mp h₄
    obtain ⟨nonce, hnonce, rfl⟩ := on_eq_some.mp h
    rw [writeBlockHeader]
    dsimp only
    rw [if_pos hone]
    refine ⟨_, rfl, ?_, rfl⟩
    rw [hs, ht₁, canonical_readU32 _ _ _ _ htimestamp, canonical_readHash _ _ _ _ hprevious,
      canonical_readRaw32 _ _ _ _ hnonce]
    simp only [List.append_assoc]
  rw [if_neg hone] at h
  by_cases htwo : 2 ≤ major
  · rw [if_pos htwo] at h
    obtain ⟨previous, hprevious, rfl⟩ := on_eq_some.mp h
    rw [writeBlockHeader]
    dsimp only
    rw [if_neg hone, if_pos htwo]
    refine ⟨_, rfl, ?_, rfl⟩
    rw [hs, ht₁, canonical_readHash _ _ _ _ hprevious]
    simp only [List.append_assoc]
  · rw [if_neg htwo] at h
    exact absurd (Prod.mk.inj h).2 (by simp)

private theorem writeBlockHeader_congr {x y : BlockHeader} (hversion : ¬x.majorVersion < 2)
    (hy : y = { x with timestamp := y.timestamp, nonce := y.nonce }) :
    writeBlockHeader y = writeBlockHeader x := by
  have hone : x.majorVersion ≠ 1 := fun h ↦ hversion (h ▸ by decide)
  rw [hy, writeBlockHeader, writeBlockHeader]
  dsimp only
  rw [if_neg hone, if_neg hone]

/-- **What is accepted as a block is its layout with two numbers of its own.** Where the layout has
no place for a number, none need be chosen. -/
theorem eq_of_readBlockTemplate {x : BlockTemplate} {s rest : Bytes}
    (h : readBlockTemplate {} s = (x, some rest)) :
    ∃ count ignored b, writeBlockTemplateWith count ignored x = some b ∧ s = b ++ rest ∧
      x.parentBlock.transactionCount = count.toUInt16 ∧
      (x.majorVersion < 2 → count = x.parentBlock.transactionCount.toUInt64) ∧
      (x.majorVersion < 2 ∨ x.parentBlock.baseTransaction.version < 2 → ignored = 0) := by
  obtain ⟨v₁, t₁, h₁, h⟩ := andThen_eq_some.mp h
  obtain ⟨v₂, t₂, h₂, h⟩ := andThen_eq_some.mp h
  obtain ⟨_, t₃, h₃, h⟩ := andThen_eq_some.mp h
  obtain ⟨tx, htx, rfl⟩ := on_eq_some.mp h₃
  obtain ⟨hashes, hhashes, rfl⟩ := on_eq_some.mp h
  obtain ⟨head, hhead, hs, hv₁⟩ := eq_of_readBlockHeader h₁
  obtain ⟨b, hb, ht₂⟩ := canonical_readTransaction htx
  have ht₃ := canonical_readVector canonical_readHash _ _ _ _ hhashes
  rw [bySoFar] at h₂
  by_cases hversion : v₁.majorVersion < 2
  · rw [if_neg (UInt8.not_le.mpr hversion)] at h₂
    obtain ⟨rfl, ht⟩ := Prod.mk.inj h₂
    obtain rfl := Option.some.inj ht
    refine ⟨v₁.parentBlock.transactionCount.toUInt64, 0,
      head ++ b ++ writeVector writeHash hashes, ?_, ?_, ?_, fun _ ↦ rfl, fun _ ↦ rfl⟩
    · rw [writeBlockTemplateWith]
      simp [hhead, hb, hversion]
    · rw [hs, ht₂, ht₃]
      simp only [List.append_assoc]
    · exact (UInt16.toUInt16_toUInt64 _).symm
  · rw [if_pos (UInt8.not_lt.mp hversion)] at h₂
    obtain ⟨count, ignored, ht₁, hbranched, hcount, hignored, hv₂⟩ := eq_of_readParentBlock h₂
    have hsame : v₂.majorVersion = v₁.majorVersion := by rw [hv₂]
    have hhead₂ : writeBlockHeader v₂.toBlockHeader = some head := by
      rw [← hhead]
      exact writeBlockHeader_congr hversion (by rw [hv₂])
    refine ⟨count, ignored, head ++ writeParentBlockWith count ignored v₂ ++ b ++
      writeVector writeHash hashes, ?_, ?_, hcount, ?_, ?_⟩
    · rw [writeBlockTemplateWith]
      simp only [hhead₂, hb, hsame, hversion, hbranched, if_true, if_false, Option.bind_eq_bind,
        Option.bind_some]
      rfl
    · rw [hs, ht₁, ht₂, ht₃]
      simp only [List.append_assoc]
    · exact fun hlt ↦ absurd (hsame ▸ hlt) hversion
    · rintro (hlt | hlt)
      · exact absurd (hsame ▸ hlt) hversion
      · exact hignored hlt

/-! ## Blocks that are written -/

/-- The vectors of a block template are no longer than vectors can be. -/
structure BlockTemplate.InMemory (v : BlockTemplate) : Prop where
  baseTransaction : v.baseTransaction.toTransactionPrefix.InMemory
  parent : v.parentBlock.baseTransaction.toTransactionPrefix.InMemory
  hashes : v.transactionHashes.length ≤ maxLength 32

/-- Nothing lies in the fields that are not written: no parent block below version 2, no signatures
where the coinbase transaction takes none. -/
def BlockTemplate.Tidy (v : BlockTemplate) : Prop :=
  v.baseTransaction.Tidy ∧ (v.majorVersion < 2 → v.parentBlock = {})

private theorem reads_readBaseTransaction (ignored : UInt64) (v : BaseTransaction) {x : BaseTransaction}
    (hx : x.toTransactionPrefix.InMemory) :
    Reads readBaseTransaction (writeBaseTransactionWith ignored) v x := by
  intro rest
  rw [writeBaseTransactionWith, List.append_assoc, readBaseTransaction,
    andThen_of_some (on_of_some (reads_readTransactionPrefix _ hx _)), bySoFar]
  by_cases hver : 2 ≤ x.version
  · rw [if_pos hver, if_pos hver]
    exact on_of_some (reads_readU64 _ ignored rest)
  · rw [if_neg hver, if_neg hver]
    rfl

private theorem reads_readParentBlock (ignored : UInt64) (v : BlockTemplate) {x : BlockTemplate}
    (hx : x.parentBlock.baseTransaction.toTransactionPrefix.InMemory) (hb : x.parentBlock.Branched)
    (rest : Bytes) :
    readParentBlock v (writeParentBlockWith x.parentBlock.transactionCount.toUInt64 ignored x ++
      rest) = ({ v with
        timestamp := x.timestamp, nonce := x.nonce, parentBlock := x.parentBlock }, some rest) := by
  obtain ⟨hpos, hlength, tag, htag, hdepth, hchain⟩ := hb
  have hitems (v l : List Hash) (rest : Bytes) (hlen : v.length = l.length) :
      readItems readHash v (writeItems writeHash l ++ rest) = (l, some rest) :=
    readItems_writeItems v l rest hlen fun v y _ ↦ reads_readHash v y
  obtain ⟨header, parent, baseTx, hashes⟩ := v
  simp only [writeParentBlockWith, List.append_assoc]
  rw [readParentBlock, andThen_of_some (on_of_some (reads_readU8 _ _ _)),
    andThen_of_some (on_of_some (reads_readU8 _ _ _)),
    andThen_of_some (on_of_some (reads_readU32 _ _ _)),
    andThen_of_some (on_of_some (reads_readHash _ _ _)),
    andThen_of_some (on_of_some (reads_readRaw32 _ _ _)),
    andThen_of_some (on_of_some (reads_readU64 _ _ _))]
  dsimp only
  rw [UInt16.toUInt16_toUInt64,
    andThen_of_some (require_eq_some.mpr ⟨by exact decide_eq_true hpos, rfl, rfl⟩),
    andThen_of_some (on_of_some (hitems _ _ _ (by rw [length_resize, hlength]))),
    andThen_of_some (on_of_some (reads_readBaseTransaction ignored _ hx _)), bySoFar]
  dsimp only
  rw [htag]
  dsimp only
  rw [if_neg (UInt64.not_lt.mpr hdepth),
    on_of_some (hitems _ _ _ (by rw [length_resize, hchain]))]

private theorem reads_readBlockHeader {x : BlockTemplate} {head : Bytes}
    (hhead : writeBlockHeader x.toBlockHeader = some head) (rest : Bytes) :
    readBlockHeader {} (head ++ rest) = ({ toBlockHeader :=
      if x.majorVersion < 2 then x.toBlockHeader
      else { x.toBlockHeader with timestamp := 0, nonce := 0 } }, some rest) := by
  rw [writeBlockHeader] at hhead
  by_cases hone : x.majorVersion = 1
  · rw [if_pos hone] at hhead
    have hlt : x.majorVersion < 2 := hone ▸ by decide
    rw [← Option.some.inj hhead, if_pos hlt]
    simp only [List.append_assoc]
    rw [readBlockHeader, andThen_of_some (on_of_some (reads_readU8 _ _ _)),
      andThen_of_some (on_of_some (reads_readU8 _ _ _)), bySoFar]
    dsimp only
    rw [if_pos hone, andThen_of_some (on_of_some (reads_readU32 _ _ _)),
      andThen_of_some (on_of_some (reads_readHash _ _ _)),
      on_of_some (reads_readRaw32 _ _ _)]
  · rw [if_neg hone] at hhead
    split_ifs at hhead with htwo
    rw [← Option.some.inj hhead, if_neg (UInt8.not_lt.mpr htwo)]
    simp only [List.append_assoc]
    rw [readBlockHeader, andThen_of_some (on_of_some (reads_readU8 _ _ _)),
      andThen_of_some (on_of_some (reads_readU8 _ _ _)), bySoFar]
    dsimp only
    rw [if_neg hone, if_pos htwo, on_of_some (reads_readHash _ _ _)]

/-- **A block that was written is read back**, with any number in the place of the ignored one. -/
theorem reads_readBlockTemplate {x : BlockTemplate} {ignored : UInt64} {b : Bytes}
    (hmem : x.InMemory) (htidy : x.Tidy)
    (hb : writeBlockTemplateWith x.parentBlock.transactionCount.toUInt64 ignored x = some b)
    (rest : Bytes) : readBlockTemplate {} (b ++ rest) = (x, some rest) := by
  rw [writeBlockTemplateWith] at hb
  obtain ⟨head, hhead, hb⟩ := Option.bind_eq_some_iff.mp hb
  obtain ⟨tx, htx, hb⟩ := Option.bind_eq_some_iff.mp hb
  have hheader := reads_readBlockHeader hhead
  have htransaction (v : Transaction) := reads_readTransaction v hmem.baseTransaction htidy.1 htx
  have hhashes (v : List Hash) := reads_readVector (maxLength 32) (d := 0) v hmem.hashes
    (hmem.hashes.trans_lt (maxLength_lt 32)) (fun v y _ ↦ reads_readHash v y)
  by_cases hversion : x.majorVersion < 2
  · rw [if_pos hversion] at hb hheader
    rw [← Option.some.inj hb, List.append_assoc, List.append_assoc, readBlockTemplate,
      andThen_of_some (hheader _)]
    have hskip (s : Bytes) : bySoFar (fun v : BlockTemplate ↦
        if 2 ≤ v.majorVersion then readParentBlock else done) { toBlockHeader := x.toBlockHeader } s =
          ({ toBlockHeader := x.toBlockHeader }, some s) := by
      rw [bySoFar, if_neg (UInt8.not_le.mpr hversion)]
      rfl
    rw [andThen_of_some (hskip _), andThen_of_some (on_of_some (htransaction _ _)),
      on_of_some (hhashes _ _)]
    exact congrArg (fun p ↦ (({ x with parentBlock := p } : BlockTemplate), some rest))
      (htidy.2 hversion).symm
  · rw [if_neg hversion] at hb hheader
    split_ifs at hb with hbranched
    rw [← Option.some.inj hb, List.append_assoc, List.append_assoc, List.append_assoc,
      readBlockTemplate, andThen_of_some (hheader _)]
    have hread (s : Bytes) : bySoFar (fun v : BlockTemplate ↦
        if 2 ≤ v.majorVersion then readParentBlock else done)
          { toBlockHeader := { x.toBlockHeader with timestamp := 0, nonce := 0 } }
          (writeParentBlockWith x.parentBlock.transactionCount.toUInt64 ignored x ++ s) =
          ({ toBlockHeader := x.toBlockHeader, parentBlock := x.parentBlock }, some s) := by
      rw [bySoFar, if_pos (UInt8.not_lt.mp hversion), reads_readParentBlock ignored _ hmem.parent
        hbranched]
    rw [andThen_of_some (hread _), andThen_of_some (on_of_some (htransaction _ _)),
      on_of_some (hhashes _ _)]

private theorem toUInt64_toUInt16_of_lt {count : UInt64} (h : count.toNat < 2 ^ 16) :
    count.toUInt16.toUInt64 = count := by
  apply UInt64.toNat_inj.mp
  rw [UInt16.toNat_toUInt64, UInt64.toNat_toUInt16, Nat.mod_eq_of_lt h]

/-- **How far the format of blocks is canonical.** What is accepted as a block is its layout with a
number of transactions and an ignored number of its own. As long as the first of them has 16 bits, the
bytes are those written for the block but for the ignored number, so that strings that give the same
block differ in nothing else. And a block that is written is read back, when nothing lies in fields
that are not written. -/
theorem blockTemplate_canonical (c : Crypto) :
    (∀ (s : Bytes) (x : BlockTemplate), fromBinary readBlockTemplate {} s = (x, true) →
      ∃ count ignored : UInt64, writeBlockTemplateWith count ignored x = some s ∧
        (x.majorVersion < 2 → count.toNat < 2 ^ 16) ∧
        (x.majorVersion < 2 ∨ x.parentBlock.baseTransaction.version < 2 → ignored = 0) ∧
        (count.toNat < 2 ^ 16 →
          writeBlockTemplateWith x.parentBlock.transactionCount.toUInt64 ignored x = some s ∧
          (ignored = 0 → writeBlockTemplate c x = some s))) ∧
    (∀ x : BlockTemplate, x.InMemory → x.Tidy → ∀ b, writeBlockTemplate c x = some b →
      fromBinary readBlockTemplate {} b = (x, true)) := by
  refine ⟨fun s x h ↦ ?_, fun x hmem htidy b hb ↦ ?_⟩
  · obtain ⟨count, ignored, b, hb, hs, hcount, hone, hignored⟩ :=
      eq_of_readBlockTemplate (fromBinary_eq_true.mp h)
    rw [List.append_nil] at hs
    rw [← hs] at hb
    refine ⟨count, ignored, hb, fun hlt ↦ ?_, hignored, fun hlt ↦ ?_⟩
    · rw [hone hlt, UInt16.toNat_toUInt64]
      exact UInt16.toNat_lt _
    · have heq : count = x.parentBlock.transactionCount.toUInt64 := by
        rw [hcount, toUInt64_toUInt16_of_lt hlt]
      rw [heq] at hb
      refine ⟨hb, fun hzero ↦ ?_⟩
      rw [writeBlockTemplate_eq, ← hzero]
      exact hb
  · rw [writeBlockTemplate_eq] at hb
    have hread := reads_readBlockTemplate hmem htidy hb []
    rw [List.append_nil] at hread
    exact fromBinary_eq_true.mpr hread

/-- A block of version 2 whose parent block has a single transaction of version 2. -/
def sampleMerged : BlockTemplate where
  majorVersion := 2
  timestamp := 5
  nonce := 6
  previousBlockHash := 7
  parentBlock := { transactionCount := 1
                   baseTransaction := { version := 2, extra := appendMergeMiningTagToExtra [] {} } }
  baseTransaction := { version := 1, inputs := [.coinbaseInput {}] }

/-- The bytes of the sample with `ignored` at the end of the coinbase transaction of its parent. -/
def sampleMergedBytes (count ignored : UInt64) : Bytes :=
  (writeBlockTemplateWith count ignored sampleMerged).getD []

theorem blockTemplate_canonical_sample :
    (∃ count ignored : UInt64,
      writeBlockTemplateWith count ignored sampleMerged = some (sampleMergedBytes 1 7)) ∧
    ∃ b, writeBlockTemplate .lax sampleMerged = some b ∧
      fromBinary readBlockTemplate {} b = (sampleMerged, true) := by
  constructor
  · obtain ⟨count, ignored, h, -⟩ := (blockTemplate_canonical .lax).1 (sampleMergedBytes 1 7)
      sampleMerged (by decide +kernel)
    exact ⟨count, ignored, h⟩
  · have hwritten : writeBlockTemplate .lax sampleMerged = some (sampleMergedBytes 1 0) := by
      decide +kernel
    have hstart (p : TransactionPrefix) (hins : p.inputs.length ≤ 1) (hrings : ∀ i ∈ p.inputs,
        i.InMemory) (houts : p.outputs = []) (hextra : p.extra.length ≤ 100) : p.InMemory := by
      refine ⟨hins.trans (by decide), hrings, ?_, hextra.trans (by decide)⟩
      rw [houts]
      exact Nat.zero_le _
    have hmem : sampleMerged.InMemory :=
      ⟨hstart _ (by decide) (by decide) rfl (by decide),
        hstart _ (by decide) (by decide) rfl (by decide +kernel), by decide⟩
    have htidy : sampleMerged.Tidy := ⟨fun _ ↦ rfl, fun h ↦ absurd h (by decide)⟩
    exact ⟨_, hwritten, (blockTemplate_canonical .lax).2 _ hmem htidy _ hwritten⟩

/-- The ignored number is not kept, and what a block of version 1 holds of a parent block is not
written: two strings give one block, and one block is not given back. -/
theorem blockTemplate_not_canonical :
    (sampleMergedBytes 1 0 ≠ sampleMergedBytes 1 7 ∧
      fromBinary readBlockTemplate {} (sampleMergedBytes 1 0) = (sampleMerged, true) ∧
      fromBinary readBlockTemplate {} (sampleMergedBytes 1 7) = (sampleMerged, true) ∧
      writeBlockTemplate .lax sampleMerged ≠ some (sampleMergedBytes 1 7)) ∧
    ∃ b ∈ writeBlockTemplate .lax { sampleMerged with majorVersion := 1 },
      fromBinary readBlockTemplate {} b =
        ({ sampleMerged with majorVersion := 1, parentBlock := {} }, true) := by
  decide +kernel

end CryoNero
