import Mathlib

/-!
# Products and quotients of 128 bits

A number of 128 bits is a pair of words of 64 bits, the high one first. Such numbers arise as
products of words; they are divided by a divisor of 32 bits, digit by digit in base `2 ^ 32`.
-/

namespace Words

/-- The number that a pair of words stands for. -/
def wide (hi lo : UInt64) : ℕ := hi.toNat * 2 ^ 64 + lo.toNat

/-- `mul128`: the full product, high word first. -/
def mul128 (a b : UInt64) : UInt64 × UInt64 :=
  (UInt64.ofNat (a.toNat * b.toNat / 2 ^ 64), UInt64.ofNat (a.toNat * b.toNat))

def hiDword (x : UInt64) : UInt64 := x >>> 32
def loDword (x : UInt64) : UInt64 := x &&& 0xFFFFFFFF

/-- `mul128` where neither the processor nor the compiler multiplies wide: the factors are cut into halves. -/
def mul128ByHalves (multiplier multiplicand : UInt64) : UInt64 × UInt64 :=
  let a := hiDword multiplier
  let b := loDword multiplier
  let c := hiDword multiplicand
  let d := loDword multiplicand
  let ac := a * c
  let ad := a * d
  let bc := b * c
  let bd := b * d
  let adbc := ad + bc
  let adbcCarry : UInt64 := if adbc < ad then 1 else 0
  let productLo := bd + adbc <<< 32
  let productLoCarry : UInt64 := if productLo < bd then 1 else 0
  (ac + adbc >>> 32 + adbcCarry <<< 32 + productLoCarry, productLo)

/-- `div_with_reminder`: one digit of the quotient and the new remainder. -/
def divWithReminder (dividend : UInt64) (divisor remainder : UInt32) : UInt64 × UInt32 :=
  let dividend := dividend ||| remainder.toUInt64 <<< 32
  (dividend / divisor.toUInt64, (dividend % divisor.toUInt64).toUInt32)

/-- `div128_32`: the two words of the quotient and the remainder. -/
def div128By32 (hi lo : UInt64) (divisor : UInt32) : UInt64 × UInt64 × UInt32 :=
  let s3 := divWithReminder (hiDword hi) divisor 0
  let s2 := divWithReminder (loDword hi) divisor s3.2
  let s1 := divWithReminder (hiDword lo) divisor s2.2
  let s0 := divWithReminder (loDword lo) divisor s1.2
  (s3.1 <<< 32 ||| s2.1, s1.1 <<< 32 ||| s0.1, s0.2)

theorem wide_mul128 (a b : UInt64) :
    wide (mul128 a b).1 (mul128 a b).2 = a.toNat * b.toNat := by
  have ha := a.toNat_lt
  have hb := b.toNat_lt
  have hlt : a.toNat * b.toNat < 2 ^ 64 * 2 ^ 64 := Nat.mul_lt_mul'' ha hb
  have hq : a.toNat * b.toNat / 2 ^ 64 < 2 ^ 64 := Nat.div_lt_of_lt_mul hlt
  rw [wide, mul128, UInt64.toNat_ofNat_of_lt' (by simpa [UInt64.size] using hq)]
  simp only [UInt64.toNat_ofNat']
  exact Nat.div_add_mod' _ _

private theorem toNat_hiDword (x : UInt64) : (hiDword x).toNat = x.toNat / 2 ^ 32 := by
  simp [hiDword, UInt64.toNat_shiftRight, Nat.shiftRight_eq_div_pow]

private theorem toNat_loDword (x : UInt64) : (loDword x).toNat = x.toNat % 2 ^ 32 := by
  rw [loDword, UInt64.toNat_and]
  exact Nat.and_two_pow_sub_one_eq_mod x.toNat 32

theorem hiDword_lt (x : UInt64) : (hiDword x).toNat < 2 ^ 32 := by
  have hx := x.toNat_lt
  rw [toNat_hiDword]
  omega

theorem loDword_lt (x : UInt64) : (loDword x).toNat < 2 ^ 32 := by
  rw [toNat_loDword]
  omega

private theorem hiDword_loDword (x : UInt64) :
    (hiDword x).toNat * 2 ^ 32 + (loDword x).toNat = x.toNat := by
  rw [toNat_hiDword, toNat_loDword]
  omega

theorem toNat_mul_of_lt {a b : UInt64} (ha : a.toNat < 2 ^ 32) (hb : b.toNat < 2 ^ 32) :
    (a * b).toNat = a.toNat * b.toNat ∧ a.toNat * b.toNat ≤ (2 ^ 32 - 1) * (2 ^ 32 - 1) := by
  have hle : a.toNat * b.toNat ≤ (2 ^ 32 - 1) * (2 ^ 32 - 1) :=
    Nat.mul_le_mul (by omega) (by omega)
  refine ⟨?_, hle⟩
  rw [UInt64.toNat_mul, Nat.mod_eq_of_lt (by omega)]

private theorem toNat_carry (a b : UInt64) :
    (if a + b < a then 1 else 0 : UInt64).toNat * 2 ^ 64 + (a + b).toNat = a.toNat + b.toNat := by
  have ha := a.toNat_lt
  have hb := b.toNat_lt
  have hsum : (a + b).toNat = (a.toNat + b.toNat) % 2 ^ 64 := UInt64.toNat_add a b
  by_cases h : a + b < a
  · rw [if_pos h, UInt64.toNat_one]
    rw [UInt64.lt_iff_toNat_lt] at h
    omega
  · rw [if_neg h, UInt64.toNat_zero]
    rw [UInt64.lt_iff_toNat_lt] at h
    omega

/-- **The product of halves** is the product. -/
theorem mul128ByHalves_eq (x y : UInt64) : mul128ByHalves x y = mul128 x y := by
  have hx := hiDword_loDword x
  have hy := hiDword_loDword y
  obtain ⟨hac, hacle⟩ := toNat_mul_of_lt (hiDword_lt x) (hiDword_lt y)
  obtain ⟨had, hadle⟩ := toNat_mul_of_lt (hiDword_lt x) (loDword_lt y)
  obtain ⟨hbc, hbcle⟩ := toNat_mul_of_lt (loDword_lt x) (hiDword_lt y)
  obtain ⟨hbd, hbdle⟩ := toNat_mul_of_lt (loDword_lt x) (loDword_lt y)
  have hproduct : x.toNat * y.toNat = (hiDword x).toNat * (hiDword y).toNat * 2 ^ 64 +
      ((hiDword x).toNat * (loDword y).toNat + (loDword x).toNat * (hiDword y).toNat) * 2 ^ 32 +
      (loDword x).toNat * (loDword y).toNat := by
    rw [← hx, ← hy]
    ring
  rw [← hac, ← had, ← hbc, ← hbd] at hproduct
  have hlt : x.toNat * y.toNat < 2 ^ 64 * 2 ^ 64 := Nat.mul_lt_mul'' x.toNat_lt y.toNat_lt
  rw [mul128ByHalves]
  set ac := hiDword x * hiDword y
  set ad := hiDword x * loDword y
  set bc := loDword x * hiDword y
  set bd := loDword x * loDword y
  have hcarry := toNat_carry ad bc
  set carry : UInt64 := if ad + bc < ad then 1 else 0 with hdef
  have hbit : carry.toNat ≤ 1 := by
    rw [hdef]
    split_ifs <;> decide
  have hcarryLo := toNat_carry bd ((ad + bc) <<< 32)
  set carryLo : UInt64 := if bd + (ad + bc) <<< 32 < bd then 1 else 0
  have hlow : ((ad + bc) <<< 32).toNat = (ad + bc).toNat * 2 ^ 32 % 2 ^ 64 := by
    rw [UInt64.toNat_shiftLeft, Nat.shiftLeft_eq]
    rfl
  have hhigh : ((ad + bc) >>> 32).toNat = (ad + bc).toNat / 2 ^ 32 := by
    rw [UInt64.toNat_shiftRight, Nat.shiftRight_eq_div_pow]
    rfl
  have hshift : (carry <<< 32).toNat = carry.toNat * 2 ^ 32 := by
    rw [UInt64.toNat_shiftLeft, Nat.shiftLeft_eq]
    refine Nat.mod_eq_of_lt ?_
    change carry.toNat * 2 ^ 32 < 2 ^ 64
    omega
  have hhi : (ac + (ad + bc) >>> 32 + carry <<< 32 + carryLo).toNat =
      ac.toNat + (ad + bc).toNat / 2 ^ 32 + carry.toNat * 2 ^ 32 + carryLo.toNat := by
    rw [UInt64.toNat_add, UInt64.toNat_add, UInt64.toNat_add, hhigh, hshift]
    omega
  have hlo := (bd + (ad + bc) <<< 32).toNat_lt
  refine Prod.ext (UInt64.toNat_inj.mp ?_) (UInt64.toNat_inj.mp ?_)
  · rw [hhi, mul128, UInt64.toNat_ofNat_of_lt' (Nat.div_lt_of_lt_mul hlt)]
    omega
  · rw [mul128]
    simp only [UInt64.toNat_ofNat']
    omega

end Words
