import CryoNero.Core.Format

/-!
# Blocks and their hashes

The header of a block of version 2 or higher is mined inside a parent block, which is found in the
bytes of the block between its header and its coinbase transaction. The parent block is tied to the
block by a tag in the extra field of its own coinbase transaction.
-/

namespace CryoNero

open Seria Seria.Reader

/-! ## The extra field of a transaction -/

structure TransactionExtraMergeMiningTag where
  depth : UInt64 := 0
  merkleRoot : Hash := 0
  deriving DecidableEq, Repr

inductive TransactionExtraField
  | padding (size : ℕ)
  | publicKey (key : PublicKey)
  | nonce (bytes : Bytes)
  | mergeMiningTag (tag : TransactionExtraMergeMiningTag)
  deriving DecidableEq, Repr

def txExtraPaddingMaxCount : ℕ := 255
def txExtraNonceMaxCount : ℕ := 255

/-- A merge mining tag lies in a string of its own; what follows the root in it is not looked at. -/
def readMergeMiningTag : Reader TransactionExtraMergeMiningTag := fun v s ↦
  match readBytes [] s with
  | (_, none) => (v, none)
  | (field, some t) =>
    let p := ((on (·.depth) (fun x v ↦ { v with depth := x }) readU64).andThen <|
      on (·.merkleRoot) (fun x v ↦ { v with merkleRoot := x }) readHash) v field
    (p.1, p.2.map fun _ ↦ t)

/-- `parse_transaction_extra`: the fields found, and whether the parse went to the end. Every round
takes at least one byte, so that the length of the array is enough `fuel`. Padding has to be zero
and to reach the end of the array. -/
def parseTransactionExtra : ℕ → Bytes → List TransactionExtraField × Bool
  | 0, _ => ([], true)
  | _ + 1, [] => ([], true)
  | fuel + 1, c :: s =>
    let more (field : TransactionExtraField) (t : Bytes) : List TransactionExtraField × Bool :=
      let p := parseTransactionExtra fuel t
      (field :: p.1, p.2)
    if c = 0x00 then
      if s.length < txExtraPaddingMaxCount ∧ s.all (· == 0) then
        ([.padding (s.length + 1)], true)
      else ([], false)
    else if c = 0x01 then
      match readHash 0 s with
      | (key, some t) => more (.publicKey key) t
      | (_, none) => ([], false)
    else if c = 0x02 then
      match s with
      | [] => ([], false)
      | size :: t =>
        if size.toNat ≤ t.length then more (.nonce (t.take size.toNat)) (t.drop size.toNat)
        else ([], false)
    else if c = 0x03 then
      match readMergeMiningTag {} s with
      | (tag, some t) => more (.mergeMiningTag tag) t
      | (_, none) => ([], false)
    else parseTransactionExtra fuel s

/-- The first merge mining tag among the fields that were parsed, also when the parse broke off. -/
def getMergeMiningTagFromExtra (extra : Bytes) : Option TransactionExtraMergeMiningTag :=
  (parseTransactionExtra extra.length extra).1.findSome? fun
    | .mergeMiningTag tag => some tag
    | _ => none

def addTransactionPublicKeyToExtra (extra : Bytes) (key : PublicKey) : Bytes :=
  extra ++ 0x01 :: writeHash key

def addExtraNonceToTransactionExtra (extra nonce : Bytes) : Option Bytes :=
  if txExtraNonceMaxCount < nonce.length then none
  else some (extra ++ 0x02 :: UInt8.ofNat nonce.length :: nonce)

def writeMergeMiningTag (tag : TransactionExtraMergeMiningTag) : Bytes :=
  writeBytes (writeU64 tag.depth ++ writeHash tag.merkleRoot)

def appendMergeMiningTagToExtra (extra : Bytes) (tag : TransactionExtraMergeMiningTag) : Bytes :=
  extra ++ 0x03 :: writeMergeMiningTag tag

/-! ## Reading blocks -/

/-- `tree_depth`: the position of the highest bit. -/
def treeDepth (count : ℕ) : ℕ := Nat.log2 count

/-- The parent block of a block, read through `ParentBlockSerializer`. It holds the timestamp and the
nonce of the block. The number of transactions is read as 64 bits and kept as 16. -/
def readParentBlock : Reader BlockTemplate :=
  (on (·.parentBlock.majorVersion)
    (fun x v ↦ { v with parentBlock := { v.parentBlock with majorVersion := x } }) readU8).andThen <|
  (on (·.parentBlock.minorVersion)
    (fun x v ↦ { v with parentBlock := { v.parentBlock with minorVersion := x } }) readU8).andThen <|
  (on (·.timestamp) (fun x v ↦ { v with timestamp := x }) readU32).andThen <|
  (on (·.parentBlock.previousBlockHash)
    (fun x v ↦ { v with parentBlock := { v.parentBlock with previousBlockHash := x } })
    readHash).andThen <|
  (on (·.nonce) (fun x v ↦ { v with nonce := x }) readRaw32).andThen <|
  (on (·.parentBlock.transactionCount.toUInt64)
    (fun x v ↦ { v with parentBlock := { v.parentBlock with transactionCount := x.toUInt16 } })
    readU64).andThen <|
  (require fun v ↦ 1 ≤ v.parentBlock.transactionCount).andThen <|
  (on (fun v ↦ resize 0 v.parentBlock.baseTransactionBranch
      (treeDepth v.parentBlock.transactionCount.toNat))
    (fun x v ↦ { v with parentBlock := { v.parentBlock with baseTransactionBranch := x } })
    (readItems readHash)).andThen <|
  (on (·.parentBlock.baseTransaction)
    (fun x v ↦ { v with parentBlock := { v.parentBlock with baseTransaction := x } })
    readBaseTransaction).andThen <|
  bySoFar fun v ↦
    match getMergeMiningTagFromExtra v.parentBlock.baseTransaction.extra with
    | none => fail
    | some tag =>
      if 256 < tag.depth then fail
      else on (fun v ↦ resize 0 v.parentBlock.blockchainBranch tag.depth.toNat)
        (fun x v ↦ { v with parentBlock := { v.parentBlock with blockchainBranch := x } })
        (readItems readHash)

/-- The header of a block. From version 2 on its timestamp and its nonce are in the parent block. -/
def readBlockHeader : Reader BlockTemplate :=
  (on (·.majorVersion) (fun x v ↦ { v with majorVersion := x }) readU8).andThen <|
  (on (·.minorVersion) (fun x v ↦ { v with minorVersion := x }) readU8).andThen <|
  bySoFar fun v ↦
    if v.majorVersion = 1 then
      (on (·.timestamp) (fun x v ↦ { v with timestamp := x }) readU32).andThen <|
      (on (·.previousBlockHash) (fun x v ↦ { v with previousBlockHash := x }) readHash).andThen <|
      on (·.nonce) (fun x v ↦ { v with nonce := x }) readRaw32
    else if 2 ≤ v.majorVersion then
      on (·.previousBlockHash) (fun x v ↦ { v with previousBlockHash := x }) readHash
    else fail

def readBlockTemplate : Reader BlockTemplate :=
  readBlockHeader.andThen <|
  (bySoFar fun v ↦ if 2 ≤ v.majorVersion then readParentBlock else done).andThen <|
  (on (·.baseTransaction) (fun x v ↦ { v with baseTransaction := x }) readTransaction).andThen <|
  on (·.transactionHashes) (fun x v ↦ { v with transactionHashes := x })
    (readVector (maxLength 32) 0 readHash)

def readRawBlock : Reader RawBlock :=
  (on (·.block) (fun x v ↦ { v with block := x }) readBytes).andThen <|
  on (·.transactions) (fun x v ↦ { v with transactions := x })
    (readVector (maxLength 24) [] readBytes)

def writeRawBlock (v : RawBlock) : Bytes :=
  writeBytes v.block ++ writeVector writeBytes v.transactions

/-- Convert the transactions of a block up to the first that does not read. -/
def readTransactions : List Bytes → List Transaction × Bool
  | [] => ([], true)
  | b :: bs =>
    match fromBinary readTransaction {} b with
    | (tx, true) =>
      let p := readTransactions bs
      (tx :: p.1, p.2)
    | (_, false) => ([], false)

/-- `Block::from_raw_block` on a new block: what was read, and whether all of it was. -/
def Block.fromRawBlock (raw : RawBlock) : Block × Bool :=
  match fromBinary readBlockTemplate {} raw.block with
  | (header, true) =>
    let p := readTransactions raw.transactions
    ({ header := header, transactions := p.1 }, p.2)
  | (header, false) => ({ header := header }, false)

/-! ## Hashes of trees -/

/-- The hash of two hashes. -/
def hashPair (c : Crypto) (a b : Hash) : Hash := c.cnFastHash (writeHash a ++ writeHash b)

/-- The hashes of the consecutive pairs. -/
def hashPairs (c : Crypto) : List Hash → List Hash
  | a :: b :: rest => hashPair c a b :: hashPairs c rest
  | _ => []

/-- `tree_hash`: the leaves beyond the largest power of two below their number are hashed in pairs
first; from there every level halves. -/
def treeHash (c : Crypto) (hashes : List Hash) : Hash :=
  match hashes with
  | [] => 0
  | [a] => a
  | hashes =>
    let count := hashes.length
    let depth := Nat.log2 (count - 1)
    let cnt := 2 ^ depth
    let ints := hashes.take (2 * cnt - count) ++ hashPairs c (hashes.drop (2 * cnt - count))
    ((hashPairs c)^[depth] ints).headD 0

/-- The bit of `path` at position `i`, `path` being a hash read as bytes; no path is all zeros. -/
def pathBit (path : Option Hash) (i : ℕ) : Bool :=
  match path with
  | none => false
  | some h => ((writeHash h).getD (i / 8) 0).toNat.testBit (i % 8)

/-- `tree_hash_from_branch`: from the leaf up, the branch is used from its end. -/
def treeHashFromBranch (c : Crypto) (branch : List Hash) (leaf : Hash) (path : Option Hash) :
    Hash :=
  branch.zipIdx.foldr (fun p acc ↦
    if pathBit path p.2 then hashPair c p.1 acc else hashPair c acc p.1) leaf

/-! ## Hashes of transactions and blocks -/

/-- `get_object_hash` of an array of bytes, which is hashed with its length in front. -/
def getObjectHash (c : Crypto) (b : Bytes) : Hash := c.cnFastHash (writeBytes b)

def getTransactionPrefixHash (c : Crypto) (tx : TransactionPrefix) : Hash :=
  c.cnFastHash (writeTransactionPrefix tx)

/-- The hash of a transaction; there is none when it cannot be written. -/
def getTransactionHash (c : Crypto) (tx : Transaction) : Option Hash :=
  (writeTransaction tx).map c.cnFastHash

/-- What follows the hash of the prefix in the hashed data of a coinbase transaction of version 2:
the hash of an empty set of signatures, and zeros. -/
def baseTransactionHashTail : Bytes :=
  [0xbc, 0x36, 0x78, 0x9e, 0x7a, 0x1e, 0x28, 0x14, 0x36, 0x46, 0x42, 0x29, 0x82, 0x8f, 0x81, 0x7d,
    0x66, 0x12, 0xf7, 0xb4, 0x77, 0xd6, 0x65, 0x91, 0xff, 0x96, 0xa9, 0xe0, 0x64, 0xbc, 0xc9, 0x8a]
    ++ List.replicate 32 0

def getBaseTransactionHash (c : Crypto) (tx : BaseTransaction) : Hash :=
  if tx.version < 2 then c.cnFastHash (writeBaseTransaction tx)
  else c.cnFastHash
    (writeHash (c.cnFastHash (writeTransactionPrefix tx.toTransactionPrefix)) ++
      baseTransactionHashTail)

def writeBlockHeader (v : BlockHeader) : Option Bytes :=
  if v.majorVersion = 1 then
    some (writeU8 v.majorVersion ++ writeU8 v.minorVersion ++ writeU32 v.timestamp ++
      writeHash v.previousBlockHash ++ rawBytes32 v.nonce)
  else if 2 ≤ v.majorVersion then
    some (writeU8 v.majorVersion ++ writeU8 v.minorVersion ++ writeHash v.previousBlockHash)
  else none

/-- The part of a parent block that its own header consists of. With `hashing` it includes the root
of the tree of its transactions. -/
def writeParentBlockHeader (c : Crypto) (v : BlockTemplate) (hashing : Bool) : Option Bytes :=
  let p := v.parentBlock
  let root :=
    treeHashFromBranch c p.baseTransactionBranch (getBaseTransactionHash c p.baseTransaction) none
  if p.transactionCount < 1 then none
  else
    some (writeU8 p.majorVersion ++ writeU8 p.minorVersion ++ writeU32 v.timestamp ++
      writeHash p.previousBlockHash ++ rawBytes32 v.nonce ++
      (if hashing then writeHash root else []) ++ writeU64 p.transactionCount.toUInt64)

/-- A parent block as `ParentBlockSerializer` writes it. -/
def writeParentBlock (c : Crypto) (v : BlockTemplate) (hashing : Bool) : Option Bytes :=
  let p := v.parentBlock
  match writeParentBlockHeader c v hashing,
    getMergeMiningTagFromExtra p.baseTransaction.extra with
  | some head, some tag =>
    if p.baseTransactionBranch.length = treeDepth p.transactionCount.toNat ∧ tag.depth ≤ 256 ∧
        tag.depth.toNat = p.blockchainBranch.length then
      some (head ++ writeItems writeHash p.baseTransactionBranch ++
        writeBaseTransaction p.baseTransaction ++ writeItems writeHash p.blockchainBranch)
    else none
  | _, _ => none

/-- `to_binary` of a block template; nothing but its parent block depends on the hash functions,
and not when it is not written for hashing. -/
def writeBlockTemplate (c : Crypto) (v : BlockTemplate) : Option Bytes := do
  let head ← writeBlockHeader v.toBlockHeader
  let parent ← if 2 ≤ v.majorVersion then writeParentBlock c v false else some []
  let tx ← writeTransaction v.baseTransaction
  some (head ++ parent ++ tx ++ writeVector writeHash v.transactionHashes)

/-- A parent block written field by field, without the serializer: this is the size that is limited,
and writing never throws. -/
def writePlainParentBlock (p : ParentBlock) : Bytes :=
  writeU8 p.majorVersion ++ writeU8 p.minorVersion ++ writeHash p.previousBlockHash ++
    writeU16 p.transactionCount ++ writeVector writeHash p.baseTransactionBranch ++
    writeBaseTransaction p.baseTransaction ++ writeVector writeHash p.blockchainBranch

def getTransactionTreeHash (c : Crypto) (v : BlockTemplate) : Option Hash :=
  (getTransactionHash c v.baseTransaction).map fun h ↦ treeHash c (h :: v.transactionHashes)

def getBlockHashingBinaryArray (c : Crypto) (v : BlockTemplate) : Option Bytes := do
  let head ← writeBlockHeader v.toBlockHeader
  let tree ← getTransactionTreeHash c v
  some (head ++ writeHash tree ++ writeVarint (v.transactionHashes.length + 1))

def getBlockHash (c : Crypto) (v : BlockTemplate) : Option Hash := do
  let ba ← getBlockHashingBinaryArray c v
  let parent ← if 2 ≤ v.majorVersion then writeParentBlock c v true else some []
  some (getObjectHash c (ba ++ parent))

def getAuxiliaryBlockHeaderHash (c : Crypto) (v : BlockTemplate) : Option Hash :=
  (getBlockHashingBinaryArray c v).map (getObjectHash c)

/-- The hash that proves the work: of the block itself, or of the header of its parent block. -/
def getBlockLongHash (c : Crypto) (v : BlockTemplate) : Option Hash :=
  if v.majorVersion = 1 then (getBlockHashingBinaryArray c v).map c.cnSlowHash
  else if 2 ≤ v.majorVersion ∧ v.majorVersion < 4 then
    (writeParentBlockHeader c v true).map c.cnSlowHash
  else if 4 ≤ v.majorVersion then (writeParentBlockHeader c v true).map c.cnLiteSlowHashV1
  else none

/-! ## What the readers of blocks accept -/

theorem reads_readRawBlock {x : RawBlock} (hblock : x.block.length < 2 ^ 64)
    (hcount : x.transactions.length ≤ maxLength 24)
    (htxs : ∀ b ∈ x.transactions, b.length < 2 ^ 64) (v : RawBlock) :
    Reads readRawBlock writeRawBlock v x := by
  intro rest
  have h₁ : readBytes v.block (writeBytes x.block ++
      (writeVector writeBytes x.transactions ++ rest)) = _ := reads_readBytes v.block hblock _
  have hcount' : x.transactions.length < 2 ^ 64 := by
    unfold maxLength at hcount
    omega
  have h₂ := reads_readVector (maxLength 24) (d := []) v.transactions hcount hcount'
    (fun v b hb ↦ reads_readBytes v (htxs b hb)) rest
  rw [readRawBlock, writeRawBlock, List.append_assoc, andThen_of_some (on_of_some h₁)]
  exact on_of_some h₂

theorem readTransactions_eq_true : ∀ {bs : List Bytes} {txs : List Transaction},
    readTransactions bs = (txs, true) →
    txs.length = bs.length ∧ List.Forall₂ (fun tx b ↦ writeTransaction tx = some b) txs bs := by
  intro bs
  induction bs with
  | nil =>
    intro txs h
    rw [← (Prod.mk.inj h).1]
    exact ⟨rfl, .nil⟩
  | cons b bs ih =>
    intro txs h
    rw [readTransactions] at h
    rcases htx : fromBinary readTransaction {} b with ⟨tx, _ | _⟩
    · rw [htx] at h
      exact absurd (Prod.mk.inj h).2 (by simp)
    · rw [htx] at h
      obtain ⟨rfl, h₂⟩ := Prod.mk.inj h
      obtain ⟨hlen, hall⟩ := ih (Prod.ext rfl h₂)
      obtain ⟨b', hb', hbb⟩ := canonical_readTransaction (fromBinary_eq_true.mp htx)
      rw [List.append_nil] at hbb
      exact ⟨by simp [hlen], .cons (hbb ▸ hb') hall⟩

theorem Block.fromRawBlock_eq_true {raw : RawBlock} {block : Block} :
    Block.fromRawBlock raw = (block, true) ↔
      fromBinary readBlockTemplate {} raw.block = (block.header, true) ∧
        readTransactions raw.transactions = (block.transactions, true) := by
  obtain ⟨header, txs⟩ := block
  unfold Block.fromRawBlock
  rcases fromBinary readBlockTemplate {} raw.block with ⟨header', _ | _⟩
  · simp
  · rcases readTransactions raw.transactions with ⟨txs', ok⟩
    simp only [Prod.mk.injEq, Block.mk.injEq]
    tauto

end CryoNero
