import Mathlib

/-!
# Signed words

A signed word of 64 bits stands for an integer, and its operations are exact as long as the integers
stay within the range. What an unsigned word makes of a signed one, and the other way round, is the
same integer up to a multiple of `2 ^ 64`.
-/

namespace Words

theorem bmod_eq_iff {n : ℤ} : n.bmod (2 ^ 64) = n ↔ -2 ^ 63 ≤ n ∧ n < 2 ^ 63 := by
  rw [Int.bmod_def]
  split <;> constructor <;> intro h <;> omega

theorem toInt_toInt64 (x : UInt64) : x.toInt64.toInt = (x.toNat : ℤ).bmod (2 ^ 64) :=
  BitVec.toInt_eq_toNat_bmod x.toBitVec

theorem toInt_toInt64_of_lt {x : UInt64} (h : x.toNat < 2 ^ 63) : x.toInt64.toInt = x.toNat := by
  rw [toInt_toInt64]
  exact bmod_eq_iff.mpr (by omega)

theorem toNat_toUInt64 (x : Int64) : (x.toUInt64.toNat : ℤ) = x.toInt % 2 ^ 64 := by
  have h := toInt_toInt64 x.toUInt64
  rw [Int64.toInt64_toUInt64] at h
  have hlt := x.toUInt64.toNat_lt
  have hresidue : (x.toUInt64.toNat : ℤ).bmod (2 ^ 64) % 2 ^ 64 = x.toUInt64.toNat % 2 ^ 64 :=
    Int.bmod_emod
  rw [h, hresidue]
  exact (Int.emod_eq_of_lt (by omega) (by exact_mod_cast hlt)).symm

theorem toNat_toUInt64_eq_iff {x : Int64} : (x.toUInt64.toNat : ℤ) = x.toInt ↔ 0 ≤ x.toInt := by
  have hlow := x.le_toInt
  have hhigh := x.toInt_lt
  rw [toNat_toUInt64]
  constructor <;> intro h <;> omega

theorem toInt_max (a b : Int64) : (max a b).toInt = max a.toInt b.toInt := by
  change (if a ≤ b then b else a).toInt = _
  split <;> rename_i h <;> rw [Int64.le_iff_toInt_le] at h
  · exact (max_eq_right h).symm
  · exact (max_eq_left (not_le.mp h).le).symm

theorem toInt_min (a b : Int64) : (min a b).toInt = min a.toInt b.toInt := by
  change (if a ≤ b then a else b).toInt = _
  split <;> rename_i h <;> rw [Int64.le_iff_toInt_le] at h
  · exact (min_eq_left h).symm
  · exact (min_eq_right (not_le.mp h).le).symm

/-- A sum of words with small values does not wrap. -/
theorem toInt_sum (bound : ℕ) {l : List Int64} (hsmall : ∀ x ∈ l, |x.toInt| ≤ bound)
    (hroom : l.length * bound < 2 ^ 63) :
    l.sum.toInt = (l.map Int64.toInt).sum ∧ |l.sum.toInt| ≤ l.length * bound := by
  induction l with
  | nil => exact ⟨rfl, by simp⟩
  | cons x l ih =>
    have hx := hsmall x List.mem_cons_self
    rw [List.length_cons, Nat.succ_mul] at hroom
    obtain ⟨hsum, hbound⟩ := ih (fun y hy ↦ hsmall y (List.mem_cons_of_mem _ hy)) (by omega)
    have hexact : (x + l.sum).toInt = x.toInt + l.sum.toInt := by
      rw [Int64.toInt_add]
      refine bmod_eq_iff.mpr ?_
      rw [abs_le] at hx hbound
      push_cast at hroom
      constructor <;> zify at hroom <;> linarith
    rw [List.sum_cons, hexact]
    refine ⟨by rw [hsum, List.map_cons, List.sum_cons], ?_⟩
    refine (abs_add_le _ _).trans ?_
    rw [List.length_cons]
    push_cast
    linarith

end Words
