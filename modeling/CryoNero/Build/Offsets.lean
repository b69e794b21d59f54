import CryoNero.Core.TransactionBuilder
import CryoNero.Pool.Admit

/-!
# Rings in transactions

A ring is written as its first global index and the distances between the others, and both the
semantic check and the check of signatures take sums of 32 bits of them. The semantic check looks
for a distance of zero. That is enough as long as no sum wraps around: then every index is larger
than the one before. When a sum wraps around, an index is smaller than the one before, and nothing
keeps it from being one that the ring has already.
-/

namespace CryoNero

open Seria Store

/-! ## Sums of distances -/

private theorem lt_add_iff_of_ne_zero {a d : UInt32} (hd : d ≠ 0) :
    a < a + d ↔ a.toNat + d.toNat < 2 ^ 32 := by
  have hpos : d.toNat ≠ 0 := fun h ↦ hd (UInt32.toNat_inj.mp h)
  have ha := a.toNat_lt
  have hd' := d.toNat_lt
  rw [UInt32.lt_iff_toNat_lt, UInt32.toNat_add]
  rcases Nat.lt_or_ge (a.toNat + d.toNat) (2 ^ 32) with hlt | hge
  · rw [Nat.mod_eq_of_lt hlt]
    omega
  · rw [Nat.mod_eq_sub_mod hge, Nat.mod_eq_of_lt (by omega)]
    omega

private theorem increasing_globalIndexesFrom_iff {a : UInt32} {distances : List UInt32}
    (h : 0 ∉ distances) : (a :: globalIndexesFrom a distances).Pairwise (· < ·) ↔
      a.toNat + (distances.map (·.toNat)).sum < 2 ^ 32 := by
  induction distances generalizing a with
  | nil =>
    have ha := a.toNat_lt
    simpa [globalIndexesFrom] using ha
  | cons d distances ih =>
    obtain ⟨hd, hrest⟩ := not_or.mp (List.mem_cons.not.mp h)
    have hstep := lt_add_iff_of_ne_zero (a := a) (Ne.symm hd)
    have hlater := ih (a := a + d) hrest
    rw [← List.isChain_iff_pairwise] at hlater ⊢
    rw [globalIndexesFrom, List.isChain_cons_cons, List.map_cons, List.sum_cons, hstep, hlater]
    constructor
    · rintro ⟨hlt, hsum⟩
      rw [UInt32.toNat_add, Nat.mod_eq_of_lt hlt] at hsum
      omega
    · intro hsum
      have hlt : a.toNat + d.toNat < 2 ^ 32 := by omega
      rw [UInt32.toNat_add, Nat.mod_eq_of_lt hlt]
      omega

private theorem increasing_globalIndexes_iff {offsets : List UInt32} (h : 0 ∉ offsets.tail) :
    (globalIndexes offsets).Pairwise (· < ·) ↔ (offsets.map (·.toNat)).sum < 2 ^ 32 := by
  cases offsets with
  | nil => simp [globalIndexes, globalIndexesFrom]
  | cons first distances =>
    have hdistances : 0 ∉ distances := h
    rw [globalIndexes, globalIndexesFrom, UInt32.zero_add,
      increasing_globalIndexesFrom_iff hdistances, List.map_cons, List.sum_cons]

private theorem globalIndexesFrom_relativeFrom (before : UInt32) (off : List UInt32) :
    globalIndexesFrom before (relativeFrom before off) = off := by
  induction off generalizing before with
  | nil => rfl
  | cons o off ih =>
    have hsum : before + (o - before) = o := by rw [add_comm, sub_add_cancel]
    rw [relativeFrom, globalIndexesFrom, hsum, ih]

private theorem globalIndexes_absoluteOutputOffsetsToRelative (off : List UInt32) :
    globalIndexes (absoluteOutputOffsetsToRelative off) = off := by
  cases off with
  | nil => rfl
  | cons o off =>
    rw [absoluteOutputOffsetsToRelative, globalIndexes, globalIndexesFrom, UInt32.zero_add,
      globalIndexesFrom_relativeFrom]

/-! ## Rings that pass the semantic check -/

private theorem ring_of_validateSemantic {c : Crypto} {generating : Bool} {tx : Transaction}
    {checkOutputKey : Bool} {fee : Amount}
    (h : validateSemantic c generating tx checkOutputKey = .ok fee) :
    ∀ input ∈ tx.keyInputs, input.outputIndexes ≠ [] ∧ 0 ∉ input.outputIndexes.tail := by
  obtain ⟨-, p, hp⟩ := inputs_of_validateSemantic h
  have hall := foldlM_ok (fun (done : List TransactionInput) (_ : List KeyImage × Amount) ↦
    ∀ input, .keyInput input ∈ done → input.outputIndexes ≠ [] ∧ 0 ∉ input.outputIndexes.tail) hp
    (fun _ hmem ↦ absurd hmem List.not_mem_nil) ?_
  · intro input hinput
    obtain ⟨i, hi, hinput⟩ := List.mem_filterMap.mp hinput
    cases i with
    | coinbaseInput c => cases hinput
    | keyInput input' =>
      cases hinput
      exact hall input hi
  · intro done x rest acc acc' _ hdone hx input hmem
    rcases List.mem_append.mp hmem with hmem | hmem
    · exact hdone input hmem
    · cases List.mem_singleton.mp hmem
      rw [validateInput] at hx
      split_ifs at hx with _ _ hempty hzero
      exact ⟨hempty, hzero⟩

/-- **A ring that passes the semantic check lists its outputs in order** exactly when the sum of its
offsets does not wrap around. A ring that is written from increasing indexes reads back as them. -/
theorem rings_increase_iff (c : Crypto) (generating : Bool) (tx : Transaction) (checkOutputKey : Bool)
    (fee : Amount) :
    (validateSemantic c generating tx checkOutputKey = .ok fee → ∀ input ∈ tx.keyInputs,
      (globalIndexes input.outputIndexes).Pairwise (· < ·) ↔
        (input.outputIndexes.map (·.toNat)).sum < 2 ^ 32) ∧
    ∀ off : List UInt32, off.Pairwise (· < ·) →
      globalIndexes (absoluteOutputOffsetsToRelative off) = off :=
  ⟨fun h input hinput ↦
    increasing_globalIndexes_iff (ring_of_validateSemantic h input hinput).2,
    fun off _ ↦ globalIndexes_absoluteOutputOffsetsToRelative off⟩

/-- A transaction whose only ring has the offsets `5, 2 ^ 32 - 1, 1`. -/
def sampleWrapped : Transaction where
  version := 1
  inputs := [.keyInput { amount := 10, outputIndexes := [5, 0xFFFFFFFF, 1], keyImage := 7 }]
  outputs := [{ amount := 10 }]
  signatures := [[0, 0, 0]]

theorem rings_increase_sample : (globalIndexes [5, 1, 3]).Pairwise (· < ·) :=
  ((rings_increase_iff .lax false { sampleWrapped with
      inputs := [.keyInput { amount := 10, outputIndexes := [5, 1, 3], keyImage := 7 }] } true 0).1
    (by decide) { amount := 10, outputIndexes := [5, 1, 3], keyImage := 7 } (by decide)).mpr (by decide)

/-- A transaction passes the semantic check with a ring that lists the output 5 twice. -/
theorem ring_lists_output_twice : ∃ (tx : Transaction) (input : KeyInput),
    validateSemantic .lax false tx true = .ok 0 ∧ input ∈ tx.keyInputs ∧
      globalIndexes input.outputIndexes = [5, 4, 5] :=
  ⟨sampleWrapped, { amount := 10, outputIndexes := [5, 0xFFFFFFFF, 1], keyImage := 7 },
    by decide, by decide, by decide⟩

end CryoNero
