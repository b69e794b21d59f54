import Mathlib

/-!
# Numbers in decimal

Numbers as texts of decimal digits, the most significant one first. A number is determined by its
text, because it can be read back, and a text of two numbers with another character between them
determines both.
-/

namespace Words

/-- The bytes of a text of ASCII characters. -/
def ascii (s : String) : List UInt8 := s.toList.map fun c ↦ UInt8.ofNat c.toNat

def digit (d : ℕ) : UInt8 := UInt8.ofNat (0x30 + d)

def decimal (n : ℕ) : List UInt8 :=
  if n = 0 then [digit 0] else (Nat.digits 10 n).reverse.map digit

/-- The number that a text of digits stands for. -/
def ofDecimal (text : List UInt8) : ℕ := Nat.ofDigits 10 (text.reverse.map fun c ↦ c.toNat - 0x30)

private theorem toNat_digit {d : ℕ} (h : d < 10) : (digit d).toNat = 0x30 + d := by
  rw [digit, UInt8.toNat_ofNat']
  omega

theorem ofDecimal_decimal (n : ℕ) : ofDecimal (decimal n) = n := by
  by_cases hn : n = 0
  · rw [hn]
    rfl
  · have hdigits : (Nat.digits 10 n).map ((fun c : UInt8 ↦ c.toNat - 0x30) ∘ digit)
        = Nat.digits 10 n := by
      refine (List.map_congr_left fun d hd ↦ ?_).trans (List.map_id _)
      rw [Function.comp_apply, toNat_digit (Nat.digits_lt_base (by norm_num) hd), id_eq]
      omega
    rw [decimal, if_neg hn, ofDecimal, ← List.map_reverse, List.reverse_reverse, List.map_map, hdigits,
      Nat.ofDigits_digits]

private theorem decimal_inj {m n : ℕ} (h : decimal m = decimal n) : m = n := by
  rw [← ofDecimal_decimal m, h, ofDecimal_decimal]

theorem digit_of_mem_decimal {n : ℕ} {c : UInt8} (h : c ∈ decimal n) :
    0x30 ≤ c.toNat ∧ c.toNat < 0x3a := by
  obtain ⟨d, hd, rfl⟩ : ∃ d, d < 10 ∧ c = digit d := by
    rw [decimal] at h
    split_ifs at h
    · exact ⟨0, by norm_num, List.mem_singleton.mp h⟩
    · obtain ⟨d, hd, rfl⟩ := List.mem_map.mp h
      exact ⟨d, Nat.digits_lt_base (by norm_num) (List.mem_reverse.mp hd), rfl⟩
  rw [toNat_digit hd]
  omega

/-! ## Texts of several parts -/

theorem ofDecimal_append (x y : List UInt8) :
    ofDecimal (x ++ y) = ofDecimal x * 10 ^ y.length + ofDecimal y := by
  rw [ofDecimal, List.reverse_append, List.map_append, Nat.ofDigits_append, List.length_map,
    List.length_reverse, Nat.mul_comm, Nat.add_comm]
  rfl

private theorem ofDecimal_zeros (k : ℕ) : ofDecimal (List.replicate k 0x30) = 0 := by
  rw [ofDecimal, List.reverse_replicate, List.map_replicate]
  exact Nat.ofDigits_replicate_zero

theorem ofDecimal_zeros_append (k : ℕ) (x : List UInt8) :
    ofDecimal (List.replicate k 0x30 ++ x) = ofDecimal x := by
  rw [ofDecimal_append, ofDecimal_zeros, Nat.zero_mul, Nat.zero_add]

theorem ofDecimal_append_zeros (x : List UInt8) (k : ℕ) :
    ofDecimal (x ++ List.replicate k 0x30) = ofDecimal x * 10 ^ k := by
  rw [ofDecimal_append, ofDecimal_zeros, List.length_replicate, Nat.add_zero]

theorem decimal_ne_nil (n : ℕ) : decimal n ≠ [] := by
  rw [decimal]
  split_ifs with hn
  · exact List.cons_ne_nil _ _
  · rw [ne_eq, List.map_eq_nil_iff, List.reverse_eq_nil_iff]
    exact Nat.digits_ne_nil_iff_ne_zero.mpr hn

theorem length_decimal_le_iff {n k : ℕ} (hk : 0 < k) : (decimal n).length ≤ k ↔ n < 10 ^ k := by
  rw [decimal]
  split_ifs with hn
  · subst hn
    exact iff_of_true hk (by positivity)
  · rw [List.length_map, List.length_reverse, Nat.digits_length_le_iff (by norm_num)]

theorem decimal_append_inj {m n m' n' : ℕ} {c : UInt8} (hc : 0x3a ≤ c.toNat)
    (h : decimal m ++ c :: decimal n = decimal m' ++ c :: decimal n') : m = m' ∧ n = n' := by
  have hnot (k : ℕ) : ¬c ∈ decimal k := fun hmem ↦ by
    have hdigit := digit_of_mem_decimal hmem
    omega
  obtain ⟨hm, -, hn⟩ := (List.append_cons_inj_of_notMem (hnot m) (hnot n)).mp h
  exact ⟨decimal_inj hm, decimal_inj hn⟩

end Words
