import CryoNero.Core.TransactionBuilder

/-!
# The size of a transaction

A transaction is as large as its varints make it, and all else in it has a fixed size. So the size of
what is signed is known before: it is a sum over the inputs and the outputs, and sums do not depend on
how these are shuffled (`TransactionBuilder.length_of_sign`).
-/

namespace Seria

/-- The number of groups of seven bits in an integer. -/
def varintSize (n : ℕ) : ℕ := Nat.log 128 n + 1

private theorem length_varintBytes {k n : ℕ} (h : n < 128 ^ (k + 1)) :
    (varintBytes k n).length = varintSize n := by
  induction k generalizing n with
  | zero =>
    rw [varintSize, Nat.log_of_lt (by simpa using h)]
    rfl
  | succ k ih =>
    rw [varintBytes]
    split_ifs with hmore
    · have hdiv : n / 128 < 128 ^ (k + 1) := Nat.div_lt_of_lt_mul (by rwa [pow_succ'] at h)
      rw [List.length_cons, ih hdiv, varintSize, varintSize, Nat.log_of_one_lt_of_le (by omega) hmore]
    · rw [varintSize, Nat.log_of_lt (Nat.not_le.mp hmore)]
      rfl

theorem length_writeVarint {n : ℕ} (h : n < 2 ^ 64) : (writeVarint n).length = varintSize n :=
  length_varintBytes (h.trans (by norm_num))

theorem length_writeU64 (x : UInt64) : (writeU64 x).length = varintSize x.toNat :=
  length_writeVarint x.toNat_lt

end Seria

namespace CryoNero

open Store Seria

theorem length_writeHash (x : Hash) : (writeHash x).length = 32 := length_blobBytes 256 x

/-! ## Sizes of the parts -/

/-- The bytes of an output: its amount and the key with its tag. -/
def OutputDesc.size (desc : OutputDesc) : ℕ := varintSize desc.amount.toNat + 33

/-- The bytes of an input with its tag, without its signatures. -/
def InputDesc.size (desc : InputDesc) : ℕ :=
  1 + (varintSize desc.input.amount.toNat +
    (varintSize desc.outputs.length + (desc.input.outputIndexes.map (varintSize ·.toNat)).sum) + 32)

/-- An input as `addInput` makes it: the ring is named output by output, and there are not more
outputs than numbers of 64 bits. -/
structure InputDesc.Named (desc : InputDesc) : Prop where
  length : desc.input.outputIndexes.length = desc.outputs.length
  lt : desc.outputs.length < 2 ^ 64

namespace TransactionBuilder

/-- The bytes of the extra field: the nonce with its tag and its size, and the key with its tag. -/
def extraSize (b : TransactionBuilder) : ℕ :=
  match b.extraNonce with
  | none => 33
  | some nonce => 2 + nonce.length + 33

/-- The bytes of the transaction that is signed. -/
def size (b : TransactionBuilder) : ℕ :=
  varintSize b.transaction.version.toNat + varintSize b.transaction.unlockTime.toNat +
    (varintSize b.inputDescs.length + (b.inputDescs.map InputDesc.size).sum) +
    (varintSize b.outputDescs.length + (b.outputDescs.map OutputDesc.size).sum) +
    (varintSize b.extraSize + b.extraSize) + 64 * (b.inputDescs.map (·.outputs.length)).sum

/-- A builder that holds as much as the memory can, with a nonce that fits its field. -/
structure Sized (b : TransactionBuilder) : Prop where
  inputs : b.inputDescs.length < 2 ^ 64
  outputs : b.outputDescs.length < 2 ^ 64
  named : ∀ desc ∈ b.inputDescs, desc.Named
  nonce : ∀ nonce ∈ b.extraNonce, nonce.length ≤ 255

variable {b : TransactionBuilder}

/-- What signing makes of the inputs and outputs, in the order that they are brought into. -/
structure Signed (b : TransactionBuilder) (tx : Transaction) : Prop where
  version : tx.version = b.transaction.version
  unlockTime : tx.unlockTime = b.transaction.unlockTime
  inputs : ∃ descs : List InputDesc, descs.Perm b.inputDescs ∧
    tx.inputs = descs.map (fun desc ↦ .keyInput desc.input) ∧
    tx.signatures.map List.length = descs.map (·.outputs.length)
  outputs : ∃ descs : List OutputDesc, descs.Perm b.outputDescs ∧ List.Forall₂
    (fun (desc : OutputDesc) o ↦ ∃ key, o = { amount := desc.amount, target := .keyOutput ⟨key⟩ })
      descs tx.outputs
  extra : ∃ txPublicKey, tx.extra = b.extra txPublicKey

end TransactionBuilder

end CryoNero
