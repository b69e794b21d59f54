import CryoNero.Core.InMemory

/-!
# Transactions that were written are read back

A transaction whose bytes are not too many is read back from them as it was. Its numbers fit their
types, and its vectors are not longer than its bytes, so that nothing in them can be refused.
-/

namespace Seria

private theorem length_le_writeItems' {α : Type} {w : α → Bytes} {l : List α}
    (hw : ∀ x ∈ l, w x ≠ []) : l.length ≤ (writeItems w l).length ∧
      ∀ x ∈ l, (w x).length ≤ (writeItems w l).length := by
  induction l with
  | nil => exact ⟨Nat.zero_le _, fun _ h ↦ by cases h⟩
  | cons x l ih =>
    obtain ⟨hlen, hall⟩ := ih fun y hy ↦ hw y (List.mem_cons_of_mem _ hy)
    have hpos := List.length_pos_iff.mpr (hw x List.mem_cons_self)
    have hcons : writeItems w (x :: l) = w x ++ writeItems w l := rfl
    rw [hcons, List.length_cons, List.length_append]
    refine ⟨by omega, fun y hy ↦ ?_⟩
    rcases List.mem_cons.mp hy with rfl | hy
    · omega
    · have := hall y hy
      omega

theorem length_le_writeVector {α : Type} {w : α → Bytes} {l : List α} (hw : ∀ x ∈ l, w x ≠ []) :
    l.length ≤ (writeVector w l).length ∧ ∀ x ∈ l, (w x).length ≤ (writeVector w l).length := by
  obtain ⟨hlen, hall⟩ := length_le_writeItems' hw
  rw [writeVector, List.length_append]
  exact ⟨by omega, fun x hx ↦ by have := hall x hx; omega⟩

end Seria

namespace CryoNero

open Seria Seria.Reader

private theorem writeU32_ne_nil (x : UInt32) : writeU32 x ≠ [] := by
  rw [writeU32, writeVarint]
  exact varintBytes_ne_nil _ _

private theorem writeTransactionInput_ne_nil (x : TransactionInput) : writeTransactionInput x ≠ [] := by
  cases x <;> exact List.cons_ne_nil _ _

private theorem writeTransactionOutput_ne_nil (x : TransactionOutput) : writeTransactionOutput x ≠ [] := by
  rw [writeTransactionOutput, writeU64, writeVarint]
  exact fun h ↦ varintBytes_ne_nil _ _ (List.append_eq_nil_iff.mp h).1

/-- The numbers of a ring take a byte each at least. -/
theorem TransactionInput.inMemory_of_length {x : TransactionInput}
    (hx : (writeTransactionInput x).length < 2 ^ 32) : x.InMemory := by
  rcases x with c | i
  · exact trivial
  · have hlen := (length_le_writeVector (w := writeU32) (l := i.outputIndexes)
      fun g _ ↦ writeU32_ne_nil g).1
    rw [writeTransactionInput, List.length_cons, writeKeyInput, List.length_append,
      List.length_append] at hx
    change i.outputIndexes.length ≤ (2 ^ 63 - 1) / 4
    omega

/-- **A transaction with few bytes lies in memory.** -/
theorem TransactionPrefix.inMemory_of_length {x : TransactionPrefix}
    (hx : (writeTransactionPrefix x).length < 2 ^ 32) : x.InMemory := by
  obtain ⟨hins, hin⟩ := length_le_writeVector (w := writeTransactionInput) (l := x.inputs)
    fun i _ ↦ writeTransactionInput_ne_nil i
  obtain ⟨houts, -⟩ := length_le_writeVector (w := writeTransactionOutput) (l := x.outputs)
    fun o _ ↦ writeTransactionOutput_ne_nil o
  have hextra : x.extra.length ≤ (writeBytes x.extra).length := by
    rw [writeBytes, List.length_append]
    exact Nat.le_add_left _ _
  rw [writeTransactionPrefix, List.length_append, List.length_append, List.length_append,
    List.length_append] at hx
  refine ⟨?_, fun i hi ↦ TransactionInput.inMemory_of_length ?_, ?_, ?_⟩
  · change x.inputs.length ≤ (2 ^ 63 - 1) / 72
    omega
  · have := hin i hi
    omega
  · change x.outputs.length ≤ (2 ^ 63 - 1) / 48
    omega
  · change x.extra.length ≤ (2 ^ 63 - 1) / 1
    omega

/-- **A transaction that was written is read back.** -/
theorem fromBinary_writeTransaction {tx : Transaction} {b : Bytes} (hb : writeTransaction tx = some b)
    (hlen : b.length < 2 ^ 32) (htidy : tx.Tidy) : fromBinary readTransaction {} b = (tx, true) := by
  have hmem : tx.toTransactionPrefix.InMemory := by
    apply TransactionPrefix.inMemory_of_length
    rw [((writeTransaction_eq_some htidy).mp hb).2, List.length_append] at hlen
    omega
  have hread := reads_readTransaction {} hmem htidy hb []
  rw [List.append_nil] at hread
  exact fromBinary_eq_true.mpr hread

/-! ## What was read takes no more signatures than it has -/

theorem andThen_cases {σ : Type} {r q : Reader σ} {v : σ} {s : Bytes} {P : σ → Prop}
    (hfail : ∀ v', r v s = (v', none) → P v')
    (hok : ∀ v' t, r v s = (v', some t) → P (q v' t).1) : P (r.andThen q v s).1 := by
  unfold andThen
  rcases h : r v s with ⟨v', _ | t⟩
  · exact hfail v' h
  · exact hok v' t h

theorem tidy_readTransaction (s : Bytes) : (readTransaction {} s).1.Tidy := by
  refine andThen_cases (P := Transaction.Tidy) (fun v hv _ ↦ ?_) fun v t hv hnil ↦ ?_
  · exact (congrArg (fun p ↦ p.1.signatures) hv).symm
  · have hsigs : v.signatures = [] := (congrArg (fun p ↦ p.1.signatures) hv).symm
    have hsizes : v.signatureSizes = [] := hnil
    change (readSignatures v.signatureSizes (resize [] v.signatures v.signatureSizes.length) t).1 = []
    rw [hsizes, hsigs]
    rfl

/-- A reader does not touch a part of the object. -/
def Untouched {σ β : Type} (part : σ → β) (r : Reader σ) : Prop := ∀ v s, part (r v s).1 = part v

section Untouched

variable {σ α β : Type} {part : σ → β} {r q : Reader σ}

theorem Untouched.done : Untouched part done := fun _ _ ↦ rfl

theorem Untouched.fail : Untouched part fail := fun _ _ ↦ rfl

theorem Untouched.require (p : σ → Bool) : Untouched part (require p) := by
  intro v s
  unfold Reader.require
  split_ifs <;> rfl

theorem Untouched.on {get : σ → α} {set : α → σ → σ} (r : Reader α)
    (h : ∀ x v, part (set x v) = part v) : Untouched part (on get set r) := fun v _ ↦ h _ v

theorem Untouched.andThen (hr : Untouched part r) (hq : Untouched part q) :
    Untouched part (r.andThen q) := by
  intro v s
  have hv := hr v s
  refine andThen_cases (P := fun x ↦ part x = part v) (fun v' h ↦ ?_) fun v' t h ↦ ?_
  · rw [h] at hv
    exact hv
  · rw [h] at hv
    exact (hq v' t).trans hv

theorem Untouched.bySoFar {r : σ → Reader σ} (h : ∀ v, Untouched part (r v)) :
    Untouched part (bySoFar r) := fun v s ↦ h v v s

end Untouched

private theorem untouched_readParentBlock : Untouched (·.baseTransaction) readParentBlock := by
  refine .andThen (.on _ fun _ _ ↦ rfl) (.andThen (.on _ fun _ _ ↦ rfl) ?_)
  refine .andThen (.on _ fun _ _ ↦ rfl) (.andThen (.on _ fun _ _ ↦ rfl) ?_)
  refine .andThen (.on _ fun _ _ ↦ rfl) (.andThen (.on _ fun _ _ ↦ rfl) ?_)
  refine .andThen (.require _) (.andThen (.on _ fun _ _ ↦ rfl) ?_)
  refine .andThen (.on _ fun _ _ ↦ rfl) (.bySoFar fun v ↦ ?_)
  split
  · exact .fail
  · split_ifs
    · exact .fail
    · exact .on _ fun _ _ ↦ rfl

private theorem untouched_readBlockHeader : Untouched (·.baseTransaction) readBlockHeader := by
  refine .andThen (.on _ fun _ _ ↦ rfl) (.andThen (.on _ fun _ _ ↦ rfl) (.bySoFar fun v ↦ ?_))
  split_ifs
  · exact .andThen (.on _ fun _ _ ↦ rfl) (.andThen (.on _ fun _ _ ↦ rfl) (.on _ fun _ _ ↦ rfl))
  · exact .on _ fun _ _ ↦ rfl
  · exact .fail

private theorem tidy_readBlockTemplate (s : Bytes) : (readBlockTemplate {} s).1.baseTransaction.Tidy := by
  have hblank {v : BlockTemplate} (h : v.baseTransaction = {}) : v.baseTransaction.Tidy := by
    rw [h]
    exact fun _ ↦ rfl
  have hparent : Untouched (·.baseTransaction) (bySoFar fun v : BlockTemplate ↦
      if 2 ≤ v.majorVersion then readParentBlock else done) := by
    refine .bySoFar fun v ↦ ?_
    split_ifs
    · exact untouched_readParentBlock
    · exact .done
  refine andThen_cases (P := fun v : BlockTemplate ↦ v.baseTransaction.Tidy)
    (fun v hv ↦ ?_) fun v t hv ↦ ?_
  · have h := untouched_readBlockHeader {} s
    rw [hv] at h
    exact hblank h
  have h₁ : v.baseTransaction = {} := by
    have h := untouched_readBlockHeader {} s
    rw [hv] at h
    exact h
  refine andThen_cases (P := fun v : BlockTemplate ↦ v.baseTransaction.Tidy)
    (fun v₂ hv₂ ↦ ?_) fun v₂ t₂ hv₂ ↦ ?_
  · have h := hparent v t
    rw [hv₂] at h
    exact hblank (h.trans h₁)
  have h₂ : v₂.baseTransaction = {} := by
    have h := hparent v t
    rw [hv₂] at h
    exact h.trans h₁
  have htx : ((on (·.baseTransaction) (fun x (v : BlockTemplate) ↦ { v with baseTransaction := x })
      readTransaction) v₂ t₂).1.baseTransaction.Tidy := by
    change (readTransaction v₂.baseTransaction t₂).1.Tidy
    rw [h₂]
    exact tidy_readTransaction t₂
  refine andThen_cases (P := fun v : BlockTemplate ↦ v.baseTransaction.Tidy)
    (fun v₃ hv₃ ↦ ?_) fun v₃ t₃ hv₃ ↦ ?_
  · rw [hv₃] at htx
    exact htx
  · rw [hv₃] at htx
    exact htx

/-- What was read of a block can be read again. -/
theorem Block.tidy_fromRawBlock (rawBlock : RawBlock) :
    (Block.fromRawBlock rawBlock).1.header.baseTransaction.Tidy := by
  have hhead := tidy_readBlockTemplate rawBlock.block
  rw [← fromBinary_fst] at hhead
  unfold Block.fromRawBlock
  rcases h : fromBinary readBlockTemplate {} rawBlock.block with ⟨header, _ | _⟩
  · rw [h] at hhead
    exact hhead
  · rw [h] at hhead
    exact hhead

end CryoNero
