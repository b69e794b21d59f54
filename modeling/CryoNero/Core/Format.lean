import CryoNero.CryptoNote

/-!
# The binary format

How the node reads and writes blocks and transactions, and the hashes it takes of them. Every
reader fills in the object it is given, so that an object that could not be read to its end is what
the node goes on with; `Block.fromRawBlock` hands such a block out together with its verdict.

A transaction that was read is written back as the very bytes it was read from
(`canonical_readTransaction`).
-/

namespace CryoNero

open Seria Seria.Reader

/-! ## Transactions -/

/-- The largest length of a vector whose items take `size` bytes of memory. -/
def maxLength (size : ℕ) : ℕ := (2 ^ 63 - 1) / size

def readHash : Reader (BitVec 256) := readBits 256
def writeHash (x : BitVec 256) : Bytes := blobBytes 256 x

def readCoinbaseInput : Reader CoinbaseInput :=
  on (·.blockIndex) (fun x v ↦ { v with blockIndex := x }) readU32

def writeCoinbaseInput (v : CoinbaseInput) : Bytes := writeU32 v.blockIndex

def readKeyInput : Reader KeyInput :=
  (on (·.amount) (fun x v ↦ { v with amount := x }) readU64).andThen <|
  (on (·.outputIndexes) (fun x v ↦ { v with outputIndexes := x })
    (readVector (maxLength 4) 0 readU32)).andThen <|
  on (·.keyImage) (fun x v ↦ { v with keyImage := x }) readHash

def writeKeyInput (v : KeyInput) : Bytes :=
  writeU64 v.amount ++ writeVector writeU32 v.outputIndexes ++ writeHash v.keyImage

/-- An input is assigned only after all of it was read. -/
def readTransactionInput : Reader TransactionInput := fun v s ↦
  match s with
  | [] => (v, none)
  | tag :: t =>
    if tag = 0xff then fresh {} .coinbaseInput readCoinbaseInput v t
    else if tag = 0x02 then fresh {} .keyInput readKeyInput v t
    else (v, none)

def writeTransactionInput : TransactionInput → Bytes
  | .coinbaseInput input => 0xff :: writeCoinbaseInput input
  | .keyInput input => 0x02 :: writeKeyInput input

def readTransactionOutputTarget : Reader TransactionOutputTarget := fun v s ↦
  match s with
  | [] => (v, none)
  | tag :: t =>
    if tag = 0x02 then
      fresh {} .keyOutput (on (·.key) (fun x (o : KeyOutput) ↦ { o with key := x }) readHash) v t
    else (v, none)

def writeTransactionOutputTarget : TransactionOutputTarget → Bytes
  | .keyOutput output => 0x02 :: writeHash output.key

def readTransactionOutput : Reader TransactionOutput :=
  (on (·.amount) (fun x v ↦ { v with amount := x }) readU64).andThen <|
  on (·.target) (fun x v ↦ { v with target := x }) readTransactionOutputTarget

def writeTransactionOutput (v : TransactionOutput) : Bytes :=
  writeU64 v.amount ++ writeTransactionOutputTarget v.target

def readTransactionPrefix : Reader TransactionPrefix :=
  (on (·.version) (fun x v ↦ { v with version := x }) readU8).andThen <|
  (on (·.unlockTime) (fun x v ↦ { v with unlockTime := x }) readU64).andThen <|
  (on (·.inputs) (fun x v ↦ { v with inputs := x })
    (readVector (maxLength 72) (.coinbaseInput {}) readTransactionInput)).andThen <|
  (on (·.outputs) (fun x v ↦ { v with outputs := x })
    (readVector (maxLength 48) {} readTransactionOutput)).andThen <|
  on (·.extra) (fun x v ↦ { v with extra := x }) readBytes

def writeTransactionPrefix (v : TransactionPrefix) : Bytes :=
  writeU8 v.version ++ writeU64 v.unlockTime ++ writeVector writeTransactionInput v.inputs ++
    writeVector writeTransactionOutput v.outputs ++ writeBytes v.extra

/-- A `BaseTransaction` of version 2 or higher ends in an integer that is ignored. -/
def readBaseTransaction : Reader BaseTransaction :=
  (on (·.toTransactionPrefix) (fun x v ↦ { v with toTransactionPrefix := x })
    readTransactionPrefix).andThen <|
  bySoFar fun v ↦
    if 2 ≤ v.version then on (fun _ ↦ 0) (fun _ v ↦ v) readU64 else done

def writeBaseTransaction (v : BaseTransaction) : Bytes :=
  writeTransactionPrefix v.toTransactionPrefix ++ if 2 ≤ v.version then writeU64 0 else []

def getSignaturesCount : TransactionInput → ℕ
  | .coinbaseInput _ => 0
  | .keyInput input => input.outputIndexes.length

/-- How many signatures each input has. A transaction whose only input is a `CoinbaseInput` has no
signature vectors at all. -/
def TransactionPrefix.signatureSizes (v : TransactionPrefix) : List ℕ :=
  match v.inputs with
  | [.coinbaseInput _] => []
  | inputs => inputs.map getSignaturesCount

/-- Read one vector of signatures for each input. A vector is assigned once it was read. -/
def readSignatures : List ℕ → Reader (List (List Signature))
  | [], sigs, s => (sigs, some s)
  | size :: sizes, sigs, s =>
    match readItems (readBits 512) (List.replicate size 0) s with
    | (_, none) => (sigs, none)
    | (x, some t) =>
      let p := readSignatures sizes sigs.tail t
      (x :: p.1, p.2)

def readTransaction : Reader Transaction :=
  (on (·.toTransactionPrefix) (fun x v ↦ { v with toTransactionPrefix := x })
    readTransactionPrefix).andThen <|
  bySoFar fun v ↦
    on (fun v ↦ resize [] v.signatures v.signatureSizes.length)
      (fun x v ↦ { v with signatures := x }) (readSignatures v.signatureSizes)

/-- Writing throws when the vectors of signatures are not as many or as long as the inputs say. -/
def writeTransaction (v : Transaction) : Option Bytes :=
  if v.signatureSizes = [] then some (writeTransactionPrefix v.toTransactionPrefix)
  else if v.signatures.map List.length = v.signatureSizes then
    some (writeTransactionPrefix v.toTransactionPrefix ++
      writeItems (writeItems (blobBytes 512)) v.signatures)
  else none

/-! ## What the readers of transactions accept -/

theorem canonical_readHash : Canonical readHash writeHash := canonical_readBits (by omega)

private theorem canonical_readCoinbaseInput : Canonical readCoinbaseInput writeCoinbaseInput := by
  intro v s x rest h
  obtain ⟨i, hi, rfl⟩ := on_eq_some.mp h
  exact canonical_readU32 _ _ _ _ hi

private theorem canonical_readKeyInput : Canonical readKeyInput writeKeyInput := by
  intro v s x rest h
  obtain ⟨_, t₁, h₁, h⟩ := andThen_eq_some.mp h
  obtain ⟨_, t₂, h₂, h₃⟩ := andThen_eq_some.mp h
  obtain ⟨a, ha, rfl⟩ := on_eq_some.mp h₁
  obtain ⟨is, his, rfl⟩ := on_eq_some.mp h₂
  obtain ⟨k, hk, rfl⟩ := on_eq_some.mp h₃
  rw [canonical_readU64 _ _ _ _ ha, canonical_readVector canonical_readU32 _ _ _ _ his,
    canonical_readHash _ _ _ _ hk]
  simp [writeKeyInput]

private theorem canonical_readTransactionInput : Canonical readTransactionInput writeTransactionInput := by
  intro v s x rest h
  unfold readTransactionInput at h
  rcases s with _ | ⟨tag, t⟩
  · simp at h
  · dsimp only at h
    split_ifs at h with hbase hkey
    · obtain ⟨i, hi, rfl⟩ := fresh_eq_some.mp h
      rw [hbase, canonical_readCoinbaseInput _ _ _ _ hi]
      rfl
    · obtain ⟨i, hi, rfl⟩ := fresh_eq_some.mp h
      rw [hkey, canonical_readKeyInput _ _ _ _ hi]
      rfl
    · simp at h

private theorem canonical_readTransactionOutputTarget :
    Canonical readTransactionOutputTarget writeTransactionOutputTarget := by
  intro v s x rest h
  unfold readTransactionOutputTarget at h
  rcases s with _ | ⟨tag, t⟩
  · simp at h
  · dsimp only at h
    split_ifs at h with hkey
    · obtain ⟨o, ho, rfl⟩ := fresh_eq_some.mp h
      obtain ⟨k, hk, rfl⟩ := on_eq_some.mp ho
      rw [hkey, canonical_readHash _ _ _ _ hk]
      rfl
    · simp at h

private theorem canonical_readTransactionOutput :
    Canonical readTransactionOutput writeTransactionOutput := by
  intro v s x rest h
  obtain ⟨_, t₁, h₁, h₂⟩ := andThen_eq_some.mp h
  obtain ⟨a, ha, rfl⟩ := on_eq_some.mp h₁
  obtain ⟨k, hk, rfl⟩ := on_eq_some.mp h₂
  rw [canonical_readU64 _ _ _ _ ha, canonical_readTransactionOutputTarget _ _ _ _ hk]
  simp [writeTransactionOutput]

theorem canonical_readTransactionPrefix :
    Canonical readTransactionPrefix writeTransactionPrefix := by
  intro v s x rest h
  obtain ⟨_, t₁, h₁, h⟩ := andThen_eq_some.mp h
  obtain ⟨_, t₂, h₂, h⟩ := andThen_eq_some.mp h
  obtain ⟨_, t₃, h₃, h⟩ := andThen_eq_some.mp h
  obtain ⟨_, t₄, h₄, h₅⟩ := andThen_eq_some.mp h
  obtain ⟨ver, hver, rfl⟩ := on_eq_some.mp h₁
  obtain ⟨u, hu, rfl⟩ := on_eq_some.mp h₂
  obtain ⟨ins, hins, rfl⟩ := on_eq_some.mp h₃
  obtain ⟨outs, houts, rfl⟩ := on_eq_some.mp h₄
  obtain ⟨e, he, rfl⟩ := on_eq_some.mp h₅
  rw [canonical_readU8 _ _ _ _ hver, canonical_readU64 _ _ _ _ hu,
    canonical_readVector canonical_readTransactionInput _ _ _ _ hins,
    canonical_readVector canonical_readTransactionOutput _ _ _ _ houts,
    canonical_readBytes _ _ _ _ he]
  simp [writeTransactionPrefix]

theorem readSignatures_eq_some : ∀ {sizes : List ℕ} {sigs x : List (List Signature)}
    {s rest : Bytes}, sigs.length = sizes.length →
    readSignatures sizes sigs s = (x, some rest) →
    x.map List.length = sizes ∧ s = writeItems (writeItems (blobBytes 512)) x ++ rest := by
  intro sizes
  induction sizes with
  | nil =>
    intro sigs x s rest hlen h
    obtain ⟨rfl, h₂⟩ := Prod.mk.inj h
    obtain rfl := List.eq_nil_of_length_eq_zero hlen
    exact ⟨rfl, Option.some.inj h₂⟩
  | cons size sizes ih =>
    intro sigs x s rest hlen h
    rw [readSignatures] at h
    rcases hitems : readItems (readBits 512) (List.replicate size 0) s with ⟨y, _ | t⟩
    · rw [hitems] at h
      exact absurd (Prod.mk.inj h).2 (by simp)
    · rw [hitems] at h
      obtain ⟨rfl, h₂⟩ := Prod.mk.inj h
      have hrec : readSignatures sizes sigs.tail t =
          ((readSignatures sizes sigs.tail t).1, some rest) := by rw [← h₂]
      obtain ⟨hmap, ht⟩ := ih (by rw [List.length_tail, hlen]; rfl) hrec
      refine ⟨?_, ?_⟩
      · rw [List.map_cons, hmap, length_of_readItems hitems, List.length_replicate]
      · calc s = writeItems (blobBytes 512) y ++ t :=
              canonical_readItems (canonical_readBits (by omega)) _ _ _ _ hitems
          _ = writeItems (blobBytes 512) y ++ (writeItems (writeItems (blobBytes 512))
              (readSignatures sizes sigs.tail t).1 ++ rest) := by rw [← ht]
          _ = _ := by simp [writeItems]

/-- **No transaction has two encodings.** Whatever is read as a transaction is what is written for
it, and it can be written. -/
theorem canonical_readTransaction {v x : Transaction} {s rest : Bytes}
    (h : readTransaction v s = (x, some rest)) :
    ∃ b, writeTransaction x = some b ∧ s = b ++ rest := by
  obtain ⟨_, t, h₁, h₂⟩ := andThen_eq_some.mp h
  obtain ⟨p, hp, rfl⟩ := on_eq_some.mp h₁
  rw [bySoFar] at h₂
  obtain ⟨sigs, hsigs, rfl⟩ := on_eq_some.mp h₂
  obtain ⟨hmap, ht⟩ := readSignatures_eq_some (length_resize _ _ _) hsigs
  have hs := canonical_readTransactionPrefix _ _ _ _ hp
  change sigs.map List.length = p.signatureSizes at hmap
  have hs' : s = writeTransactionPrefix p ++ writeItems (writeItems (blobBytes 512)) sigs ++ rest
      := by rw [hs, ht, List.append_assoc]
  unfold writeTransaction
  dsimp only
  by_cases hnil : p.signatureSizes = []
  · rw [if_pos hnil]
    refine ⟨_, rfl, ?_⟩
    rw [hnil, List.map_eq_nil_iff] at hmap
    rw [hs', hmap]
    simp [writeItems]
  · rw [if_neg hnil, if_pos hmap]
    exact ⟨_, rfl, hs'⟩

/-- A transaction that was read is not an empty array of bytes. -/
theorem writeTransaction_ne_nil {v : Transaction} {b : Bytes} (h : writeTransaction v = some b) :
    b ≠ [] := by
  have hwritten : writeTransactionPrefix v.toTransactionPrefix ≠ [] := by
    simp [writeTransactionPrefix, writeU8, writeVarint, varintBytes_ne_nil]
  unfold writeTransaction at h
  split_ifs at h
  · rw [← Option.some.inj h]
    exact hwritten
  · rw [← Option.some.inj h]
    simp [hwritten]

end CryoNero
