import CryoNero.Core.BlockFormat

/-!
# What was written is read back

A transaction that lies in memory has vectors no longer than the allocator gives out. This is all
that reading it back needs: the numbers in it fit their types, the tags of its variants are told
apart by their first byte, and the numbers of its signatures follow from its inputs.

`Reads` is proved bottom-up, one record after the other; the object that is read into may hold
anything.
-/

namespace Seria

private theorem reads_readBits {w : ℕ} (hw : w % 8 = 0) (v x : BitVec w) :
    Reads (readBits w) (blobBytes w) v x := by
  intro rest
  have hlen : (blobBytes w x).length = w / 8 := length_blobBytes w x
  rw [readBits, readBlob, if_pos (by rw [List.length_append, hlen]; exact Nat.le_add_right _ _), ← hlen,
    List.take_left, List.drop_left, blobOfBytes_blobBytes hw]

theorem reads_readRaw32 (v x : UInt32) : Reads readRaw32 rawBytes32 v x := by
  intro rest
  have hlen : (rawBytes32 x).length = 4 := by
    rw [rawBytes32, List.length_reverse, length_beBytes]
  have hval : rawOfBytes32 (rawBytes32 x) = x := by
    rw [rawOfBytes32, rawBytes32, List.reverse_reverse, beNat_beBytes,
      show 256 ^ 4 = 2 ^ 32 from rfl, Nat.mod_eq_of_lt x.toNat_lt, UInt32.ofNat_toNat]
  rw [readRaw32, readBlob, if_pos (by rw [List.length_append, hlen]; exact Nat.le_add_right _ _),
    ← hlen, List.take_left, List.drop_left, hval]

end Seria

namespace CryoNero

open Seria Seria.Reader

/-! ## Transactions in memory -/

theorem maxLength_lt (size : ℕ) : maxLength size < 2 ^ 64 :=
  (Nat.div_le_self _ _).trans_lt (by omega)

/-- The ring of an input is no longer than a vector can be. -/
def TransactionInput.InMemory : TransactionInput → Prop
  | .coinbaseInput _ => True
  | .keyInput input => input.outputIndexes.length ≤ maxLength 4

instance (input : TransactionInput) : Decidable input.InMemory :=
  match input with
  | .coinbaseInput _ => inferInstanceAs (Decidable True)
  | .keyInput input => inferInstanceAs (Decidable (input.outputIndexes.length ≤ maxLength 4))

/-- The vectors of a transaction are no longer than vectors can be. -/
structure TransactionPrefix.InMemory (v : TransactionPrefix) : Prop where
  inputs : v.inputs.length ≤ maxLength 72
  rings : ∀ input ∈ v.inputs, input.InMemory
  outputs : v.outputs.length ≤ maxLength 48
  extra : v.extra.length ≤ maxLength 1

theorem reads_readHash (v x : Hash) : Reads readHash writeHash v x := reads_readBits (by omega) v x

private theorem reads_readKeyInput (v : KeyInput) {x : KeyInput}
    (hx : x.outputIndexes.length ≤ maxLength 4) : Reads readKeyInput writeKeyInput v x := by
  intro rest
  have hvector (v : List UInt32) := reads_readVector (maxLength 4) (d := 0) v hx
    (hx.trans_lt (maxLength_lt 4)) (fun v y _ ↦ reads_readU32 v y)
  rw [readKeyInput, writeKeyInput, List.append_assoc, List.append_assoc,
    andThen_of_some (on_of_some (reads_readU64 _ x.amount _)),
    andThen_of_some (on_of_some (hvector _ _))]
  exact on_of_some (reads_readHash _ x.keyImage rest)

private theorem reads_readTransactionInput (v : TransactionInput) {x : TransactionInput} (hx : x.InMemory) :
    Reads readTransactionInput writeTransactionInput v x := by
  intro rest
  rcases x with c | i
  · have hread : readCoinbaseInput {} (writeCoinbaseInput c ++ rest) = (c, some rest) :=
      on_of_some (reads_readU32 _ c.blockIndex rest)
    exact fresh_eq_some.mpr ⟨c, hread, rfl⟩
  · exact fresh_eq_some.mpr ⟨i, reads_readKeyInput {} hx rest, rfl⟩

private theorem reads_readTransactionOutputTarget (v x : TransactionOutputTarget) :
    Reads readTransactionOutputTarget writeTransactionOutputTarget v x := by
  intro rest
  obtain ⟨o⟩ := x
  rw [writeTransactionOutputTarget, List.cons_append, readTransactionOutputTarget,
    if_pos rfl]
  exact fresh_eq_some.mpr ⟨o, on_of_some (reads_readHash _ o.key rest), rfl⟩

private theorem reads_readTransactionOutput (v x : TransactionOutput) :
    Reads readTransactionOutput writeTransactionOutput v x := by
  intro rest
  rw [readTransactionOutput, writeTransactionOutput, List.append_assoc,
    andThen_of_some (on_of_some (reads_readU64 _ x.amount _))]
  exact on_of_some (reads_readTransactionOutputTarget _ x.target rest)

theorem reads_readTransactionPrefix (v : TransactionPrefix) {x : TransactionPrefix}
    (hx : x.InMemory) : Reads readTransactionPrefix writeTransactionPrefix v x := by
  intro rest
  have hinputs (v : List TransactionInput) := reads_readVector (maxLength 72)
    (d := .coinbaseInput {}) v hx.inputs (hx.inputs.trans_lt (maxLength_lt 72))
    (fun v y hy ↦ reads_readTransactionInput v (hx.rings y hy))
  have houtputs (v : List TransactionOutput) := reads_readVector (maxLength 48) (d := {}) v
    hx.outputs (hx.outputs.trans_lt (maxLength_lt 48)) (fun v y _ ↦ reads_readTransactionOutput v y)
  rw [readTransactionPrefix, writeTransactionPrefix, List.append_assoc, List.append_assoc,
    List.append_assoc, List.append_assoc,
    andThen_of_some (on_of_some (reads_readU8 _ x.version _)),
    andThen_of_some (on_of_some (reads_readU64 _ x.unlockTime _)),
    andThen_of_some (on_of_some (hinputs _ _)), andThen_of_some (on_of_some (houtputs _ _))]
  exact on_of_some (reads_readBytes _ (hx.extra.trans_lt (maxLength_lt 1)) rest)

private theorem readSignatures_writeItems : ∀ {sizes : List ℕ} {sigs : List (List Signature)}
    (v : List (List Signature)) (rest : Bytes), sigs.map List.length = sizes →
    v.length = sizes.length →
    readSignatures sizes v (writeItems (writeItems (blobBytes 512)) sigs ++ rest) =
      (sigs, some rest) := by
  intro sizes
  induction sizes with
  | nil =>
    intro sigs v rest hmap hlen
    rw [List.map_eq_nil_iff] at hmap
    rw [hmap, List.eq_nil_of_length_eq_zero hlen]
    rfl
  | cons size sizes ih =>
    rintro (_ | ⟨sig, sigs⟩) v rest hmap hlen
    · simp at hmap
    · rw [List.map_cons, List.cons.injEq] at hmap
      have htail : v.tail.length = sizes.length := by
        rw [List.length_tail, hlen]
        rfl
      have hfirst := readItems_writeItems (r := readBits 512) (w := blobBytes 512)
        (List.replicate size 0) sig (writeItems (writeItems (blobBytes 512)) sigs ++ rest)
        (by rw [List.length_replicate, hmap.1]) (fun v y _ ↦ reads_readBits (by omega) v y)
      have hbytes : writeItems (writeItems (blobBytes 512)) (sig :: sigs) ++ rest =
          writeItems (blobBytes 512) sig ++ (writeItems (writeItems (blobBytes 512)) sigs ++ rest) := by
        simp [writeItems]
      rw [hbytes, readSignatures, hfirst]
      dsimp only
      rw [ih v.tail rest hmap.2 htail]

/-- A transaction that takes no signatures has none. -/
def Transaction.Tidy (tx : Transaction) : Prop := tx.signatureSizes = [] → tx.signatures = []

/-- A transaction can be written as soon as its signatures are as its inputs ask for. When they ask
for none it need not be tidy, but what is written does not say so. -/
theorem writeTransaction_eq_some {tx : Transaction} {b : Bytes} (htidy : tx.Tidy) :
    writeTransaction tx = some b ↔ tx.signatures.map List.length = tx.signatureSizes ∧
      b = writeTransactionPrefix tx.toTransactionPrefix ++
        writeItems (writeItems (blobBytes 512)) tx.signatures := by
  unfold writeTransaction
  by_cases hnil : tx.signatureSizes = []
  · rw [if_pos hnil, htidy hnil, hnil]
    simp [writeItems, eq_comm]
  · rw [if_neg hnil]
    split_ifs with hmap
    · simp [hmap, eq_comm]
    · simp [hmap]

theorem reads_readTransaction (v : Transaction) {tx : Transaction} {b : Bytes}
    (hmem : tx.toTransactionPrefix.InMemory) (htidy : tx.Tidy) (hb : writeTransaction tx = some b)
    (rest : Bytes) : readTransaction v (b ++ rest) = (tx, some rest) := by
  obtain ⟨hmap, rfl⟩ := (writeTransaction_eq_some htidy).mp hb
  have hprefix := reads_readTransactionPrefix v.toTransactionPrefix hmem
    (writeItems (writeItems (blobBytes 512)) tx.signatures ++ rest)
  rw [readTransaction, List.append_assoc, andThen_of_some (on_of_some hprefix), bySoFar]
  exact on_of_some (readSignatures_writeItems _ rest hmap (length_resize _ _ _))

end CryoNero
