import CryoNero.Core.Currency

/-!
# The threshold of the proof of work

A hash, read as a number with its lowest byte first, is good enough when its product with the difficulty
stays below `2 ^ 256`. The product is never formed: the four words of the hash are multiplied one by one,
and only the carries that their columns send up are followed. A column sums the high word of one product
and the low word of the next one, so that it never sends up more than one.
-/

namespace CryoNero

open Seria Words

namespace Currency

/-- The number with the bytes of a hash, the lowest first. -/
def hashValue (h : Hash) : ℕ := beNat (writeHash h).reverse

private theorem hashValue_eq (h : Hash) :
    hashValue h = (hashWord h 0).toNat + (hashWord h 1).toNat * 2 ^ 64 +
    (hashWord h 2).toNat * 2 ^ 128 + (hashWord h 3).toNat * 2 ^ 192 := by
  have hlength : (writeHash h).length = 32 := length_beBytes 32 h.toNat
  have hword (i : ℕ) : (hashWord h i).toNat = beNat (((writeHash h).drop (8 * i)).take 8).reverse := by
    rw [hashWord]
    refine UInt64.toNat_ofNat_of_lt' (lt_of_lt_of_le (beNat_lt _) ?_)
    rw [List.length_reverse, List.length_take]
    exact Nat.pow_le_pow_right (by omega) (Nat.min_le_left _ _)
  have hsplit (i : ℕ) (hi : i < 4) : beNat ((writeHash h).drop (8 * i)).reverse =
      beNat ((writeHash h).drop (8 * (i + 1))).reverse * 2 ^ 64 + (hashWord h i).toNat := by
    have hparts := List.take_append_drop 8 ((writeHash h).drop (8 * i))
    rw [List.drop_drop] at hparts
    rw [hword, ← hparts, List.reverse_append, beNat_append, hparts, List.length_reverse, List.length_take,
      List.length_drop, hlength, Nat.min_eq_left (by omega)]
    rfl
  have hend : beNat ((writeHash h).drop (8 * 4)).reverse = 0 := by
    rw [List.drop_eq_nil_of_le (by omega)]
    rfl
  have h₀ := hsplit 0 (by omega)
  have h₁ := hsplit 1 (by omega)
  have h₂ := hsplit 2 (by omega)
  have h₃ := hsplit 3 (by omega)
  rw [Nat.mul_zero, List.drop_zero] at h₀
  rw [hashValue, h₀, h₁, h₂, h₃, hend]
  ring

/-- What a column sends up. -/
theorem cadc_iff (a b : UInt64) (c : Bool) : cadc a b c = true ↔ 2 ^ 64 ≤ a.toNat + b.toNat + c.toNat := by
  have ha := a.toNat_lt
  have hb := b.toNat_lt
  have hsum : (a + b).toNat = (a.toNat + b.toNat) % 2 ^ 64 := UInt64.toNat_add a b
  have hfull : a + b = 0xFFFFFFFFFFFFFFFF ↔ (a + b).toNat = 2 ^ 64 - 1 :=
    ⟨fun h ↦ by rw [h]; rfl, fun h ↦ UInt64.toNat_inj.mp h⟩
  rw [cadc, Bool.or_eq_true, Bool.and_eq_true, beq_iff_eq, decide_eq_true_iff, UInt64.lt_iff_toNat_lt, hfull]
  cases c with
  | false =>
    rw [Bool.toNat_false]
    simp only [Bool.false_eq_true, false_and, or_false]
    omega
  | true =>
    rw [Bool.toNat_true]
    simp only [true_and]
    omega

private theorem cadd_iff (a b : UInt64) : decide (a + b < a) = true ↔ 2 ^ 64 ≤ a.toNat + b.toNat := by
  have hcadc := cadc_iff a b false
  rwa [cadc, Bool.false_and, Bool.or_false] at hcadc

private theorem toNat_carry_eq {c : Bool} {n : ℕ} (h : c = true ↔ 2 ^ 64 ≤ n) (hn : n < 2 * 2 ^ 64) :
    c.toNat = n / 2 ^ 64 := by
  cases c with
  | false =>
    have hlt : ¬2 ^ 64 ≤ n := fun hle ↦ Bool.false_ne_true (h.mpr hle)
    rw [Bool.toNat_false]
    omega
  | true =>
    have hle := h.mp rfl
    rw [Bool.toNat_true]
    omega

/-- **The threshold is exact.** A hash is accepted if and only if its product with the difficulty is below
`2 ^ 256`. The words may be multiplied by halves. -/
theorem checkHash_iff (h : Hash) (difficulty : Difficulty) :
    (checkHash h difficulty = true ↔ hashValue h * difficulty.toNat < 2 ^ 256) ∧
      ∀ a b, mul128ByHalves a b = mul128 a b := by
  refine ⟨?_, mul128ByHalves_eq⟩
  have hproduct (i : ℕ) := wide_mul128 (hashWord h i) difficulty
  simp only [wide] at hproduct
  have p₀ := hproduct 0
  have p₁ := hproduct 1
  have p₂ := hproduct 2
  have p₃ := hproduct 3
  have hvalue : hashValue h * difficulty.toNat = (hashWord h 0).toNat * difficulty.toNat +
      (hashWord h 1).toNat * difficulty.toNat * 2 ^ 64 + (hashWord h 2).toNat * difficulty.toNat * 2 ^ 128 +
      (hashWord h 3).toNat * difficulty.toNat * 2 ^ 192 := by
    rw [hashValue_eq]
    ring
  rw [← p₀, ← p₁, ← p₂, ← p₃] at hvalue
  rw [checkHash]
  set q₀ := mul128 (hashWord h 0) difficulty
  set q₁ := mul128 (hashWord h 1) difficulty
  set q₂ := mul128 (hashWord h 2) difficulty
  set q₃ := mul128 (hashWord h 3) difficulty
  dsimp only
  set c₁ := decide (q₀.1 + q₁.2 < q₀.1) with hc₁
  set c₂ := cadc q₁.1 q₂.2 c₁ with hc₂
  have hbound (a b : UInt64) (c : Bool) : a.toNat + b.toNat + c.toNat < 2 * 2 ^ 64 := by
    have ha := a.toNat_lt
    have hb := b.toNat_lt
    have hc := c.toNat_le
    omega
  have n₁ := toNat_carry_eq (cadd_iff q₀.1 q₁.2) (hbound q₀.1 q₁.2 false)
  have n₂ := toNat_carry_eq (cadc_iff q₁.1 q₂.2 c₁) (hbound _ _ _)
  rw [← hc₁] at n₁
  rw [← hc₂] at n₂
  have l₀ := q₀.2.toNat_lt
  have l₁ := q₁.2.toNat_lt
  have l₂ := q₂.2.toNat_lt
  have l₃ := q₃.2.toNat_lt
  by_cases htop : q₃.1 = 0
  · have hzero : q₃.1.toNat = 0 := by rw [htop]; rfl
    rw [if_neg (not_not.mpr htop), Bool.not_eq_true', ← Bool.not_eq_true, cadc_iff, hvalue]
    omega
  · -- the word above the hash is not empty
    have hpos : q₃.1.toNat ≠ 0 := fun hzero ↦ htop (UInt64.toNat_inj.mp hzero)
    rw [if_pos htop, hvalue]
    refine iff_of_false Bool.false_ne_true ?_
    omega

end Currency

end CryoNero
