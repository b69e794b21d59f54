import CryoNero.Core.KvBinary

/-!
# Sizes in key-value binary

A size below `2 ^ 29` is read as it was written. From there on it is not: a byte of 128 or more in the
fourth place makes the number of type `int` negative, and its sign fills the upper half of the size; behind
the fourth place a shift is as wide as the number.
-/

namespace CryoNero

open Seria Store Common

namespace KvBinary

/-- The bytes of a size. -/
def sizeBytes (val : ℕ) : Bytes :=
  if val ≤ 63 then packVarint 1 0 val
  else if val ≤ 16383 then packVarint 2 1 val
  else if val ≤ 1073741823 then packVarint 4 2 val
  else packVarint 8 3 val

theorem writeArraySize_eq {val : ℕ} (h : val < 2 ^ 62) : writeArraySize val = .ok (sizeBytes val) := by
  rw [writeArraySize, sizeBytes]
  split_ifs
  · rfl
  · rfl
  · rfl
  · rw [ensure_pos _ (by omega)]
    rfl

private theorem packVarint_eq (size mark val : ℕ) (h : mark < 4) :
    packVarint size mark val = leBytes size (4 * val + mark) := by
  have hor : 2 ^ 2 * val ||| mark = 2 ^ 2 * val + mark := (Nat.two_pow_add_eq_or_of_lt h val).symm
  rw [packVarint, Nat.mul_comm, show 4 * val = 2 ^ 2 * val by rfl, hor]

/-- The first byte holds the mark, and the bytes behind it the rest of the number. -/
theorem packVarint_eq_cons (size mark : ℕ) {val : ℕ} (hmark : mark < 4)
    (h : 4 * val + mark < 256 ^ (size + 1)) :
    ∃ b l, packVarint (size + 1) mark val = b :: l ∧ l.length = size ∧ b.toNat % 4 = mark ∧
      b.toNat + 256 * leNat l = 4 * val + mark := by
  rw [packVarint_eq _ _ _ hmark]
  rcases hbytes : leBytes (size + 1) (4 * val + mark) with - | ⟨b, l⟩
  · have := congrArg List.length hbytes
    simp at this
  · have hlen := congrArg List.length hbytes
    have hnat := leNat_leBytes h
    rw [hbytes, leNat_cons] at hnat
    rw [length_leBytes, List.length_cons] at hlen
    exact ⟨b, l, rfl, by omega, by omega, hnat⟩

/-! ## Reading -/

theorem readByte_cons (b : UInt8) (s : Bytes) : readByte (b :: s) = .ok (b, s) := rfl

/-- What a byte adds in its place, as long as the place is in an `int`. -/
def intShift (n : UInt8) (k : ℕ) : ℕ :=
  let x := n.toNat <<< k % 2 ^ 32
  if x < 2 ^ 31 then x else x + (2 ^ 64 - 2 ^ 32)

private theorem shiftInt_eq {k : ℕ} (h : k < 32) (n : UInt8) : shiftInt n k = pure (intShift n k) := by
  rw [shiftInt, if_pos h]
  rfl

theorem readVarintFrom_cons {i : ℕ} (h : i < 4) (value left : ℕ) (n : UInt8) (s : Bytes) :
    readVarintFrom value i (left + 1) (n :: s) =
      readVarintFrom (value ||| intShift n (i * 8)) (i + 1) left s := by
  rw [readVarintFrom, reading_bind (readByte_cons n s), shiftInt_eq (by omega)]
  rfl

private theorem readVarintFrom_eq (l : Bytes) (rest : Bytes) {value i : ℕ} (hvalue : value < 256 ^ i)
    (hsum : 256 ^ i * leNat l < 2 ^ 31) (hlen : i + l.length ≤ 4) :
    readVarintFrom value i l.length (l ++ rest) = .ok ((value + 256 ^ i * leNat l) / 4, rest) := by
  induction l generalizing value i with
  | nil =>
    have hzero : leNat [] = 0 := rfl
    rw [hzero, Nat.mul_zero, Nat.add_zero]
    show Except.ok (value >>> 2, rest) = _
    rw [Nat.shiftRight_eq_div_pow]
  | cons n l ih =>
    rw [List.length_cons] at hlen ⊢
    have hcons : 256 ^ i * leNat (n :: l) = 256 ^ i * n.toNat + 256 ^ (i + 1) * leNat l := by
      rw [leNat_cons, pow_succ]
      ring
    rw [hcons] at hsum ⊢
    have hpow : (2 : ℕ) ^ (i * 8) = 256 ^ i := by
      rw [Nat.mul_comm, pow_mul]
      rfl
    have hshift : intShift n (i * 8) = 256 ^ i * n.toNat := by
      have hlt : n.toNat <<< (i * 8) % 2 ^ 32 = 256 ^ i * n.toNat := by
        rw [Nat.shiftLeft_eq, hpow, Nat.mul_comm, Nat.mod_eq_of_lt (by omega)]
      rw [intShift, hlt]
      exact if_pos (by omega)
    have hor : value ||| 256 ^ i * n.toNat = value + 256 ^ i * n.toNat := by
      rw [← hpow] at hvalue ⊢
      rw [Nat.or_comm, ← Nat.two_pow_add_eq_or_of_lt hvalue, Nat.add_comm]
    have hnext : value + 256 ^ i * n.toNat < 256 ^ (i + 1) := by
      have hn := n.toNat_lt
      rw [pow_succ]
      nlinarith
    rw [List.cons_append, readVarintFrom_cons (by omega), hshift, hor, ih hnext (by omega) (by omega),
      Nat.add_assoc]

/-- A size is read when the bytes behind the first stay below the sign. -/
theorem readVarint_packVarint (size mark : ℕ) {val : ℕ} (hmark : mark < 4)
    (hleft : ∀ b : UInt8, b.toNat % 4 = mark → bytesLeft b = size)
    (h : 4 * val + mark < 256 ^ (size + 1)) (hsize : size ≤ 3) (hsmall : 4 * val + mark < 2 ^ 31)
    (rest : Bytes) : readVarint (packVarint (size + 1) mark val ++ rest) = .ok (val, rest) := by
  obtain ⟨b, l, hbytes, hlen, hb, hsum⟩ := packVarint_eq_cons size mark hmark h
  have hbytesLeft : bytesLeft b = l.length := by
    rw [hleft b hb, hlen]
  have hvalue : b.toNat < 256 ^ 1 := by
    rw [pow_one]
    exact b.toNat_lt
  rw [hbytes, readVarint, List.cons_append, reading_bind (readByte_cons b _), hbytesLeft,
    readVarintFrom_eq l rest hvalue (by rw [pow_one]; omega) (by omega), pow_one, hsum]
  congr 2
  omega

/-- A size below `2 ^ 29` comes back. -/
theorem readVarint_sizeBytes {val : ℕ} (h : val < 2 ^ 29) (rest : Bytes) :
    readVarint (sizeBytes val ++ rest) = .ok (val, rest) := by
  rw [sizeBytes]
  split_ifs with h₁ h₂ h₃
  · exact readVarint_packVarint 0 0 (by decide) (fun b hb ↦ by simp only [bytesLeft, hb]) (by omega)
      (by omega) (by omega) rest
  · exact readVarint_packVarint 1 1 (by decide) (fun b hb ↦ by simp only [bytesLeft, hb]) (by omega)
      (by omega) (by omega) rest
  · exact readVarint_packVarint 3 2 (by decide) (fun b hb ↦ by simp only [bytesLeft, hb]) (by omega)
      (by omega) (by omega) rest
  · omega

private theorem exists_three {l : Bytes} (h : l.length = 3) : ∃ x y z, l = [x, y, z] := by
  rcases l with - | ⟨x, - | ⟨y, - | ⟨z, - | ⟨w, l⟩⟩⟩⟩ <;> simp at h
  exact ⟨x, y, z, rfl⟩

private theorem readVarint_signed {val : ℕ} (hlow : 2 ^ 29 ≤ val) (hhigh : val < 2 ^ 30) (rest : Bytes) :
    ∃ size, readVarint (sizeBytes val ++ rest) = .ok (size, rest) ∧ 2 ^ 62 - 2 ^ 30 ≤ size := by
  rw [sizeBytes, if_neg (by omega), if_neg (by omega), if_pos (by omega)]
  obtain ⟨b, l, hbytes, hlen, hb, hsum⟩ := packVarint_eq_cons 3 2 (by decide)
    (show 4 * val + 2 < 256 ^ 4 by omega)
  obtain ⟨x, y, z, rfl⟩ := exists_three hlen
  have hz : 128 ≤ z.toNat := by
    have hx := x.toNat_lt
    have hy := y.toNat_lt
    have hb' := b.toNat_lt
    simp only [leNat_cons, show leNat [] = 0 from rfl] at hsum
    omega
  have hzlt := z.toNat_lt
  have hshift : 2 ^ 64 - 2 ^ 32 ≤ intShift z (3 * 8) := by
    have hmod : z.toNat <<< (3 * 8) % 2 ^ 32 = z.toNat * 2 ^ 24 := by
      rw [Nat.shiftLeft_eq, Nat.mod_eq_of_lt (by omega)]
    rw [intShift, hmod, if_neg (by omega)]
    omega
  refine ⟨(b.toNat ||| intShift x (1 * 8) ||| intShift y (2 * 8) ||| intShift z (3 * 8)) >>> 2, ?_, ?_⟩
  · have hbytesLeft : bytesLeft b = 3 := by simp only [bytesLeft, hb]
    rw [hbytes, readVarint, List.cons_append, reading_bind (readByte_cons b _), hbytesLeft,
      List.cons_append, readVarintFrom_cons (by decide), List.cons_append, readVarintFrom_cons (by decide),
      List.cons_append, readVarintFrom_cons (by decide)]
    rfl
  · have hle : intShift z (3 * 8) ≤
        b.toNat ||| intShift x (1 * 8) ||| intShift y (2 * 8) ||| intShift z (3 * 8) := Nat.right_le_or
    rw [Nat.shiftRight_eq_div_pow]
    omega

private theorem readVarint_undefined {val : ℕ} (hlow : 2 ^ 30 ≤ val) (hhigh : val < 2 ^ 62) (rest : Bytes) :
    readVarint (sizeBytes val ++ rest) = .error .undefinedShift := by
  rw [sizeBytes, if_neg (by omega), if_neg (by omega), if_neg (by omega)]
  obtain ⟨b, l, hbytes, hlen, hb, -⟩ := packVarint_eq_cons 7 3 (by decide)
    (show 4 * val + 3 < 256 ^ 8 by omega)
  obtain ⟨x, y, z, w, l, rfl⟩ : ∃ x y z w l', l = x :: y :: z :: w :: l' := by
    rcases l with - | ⟨x, - | ⟨y, - | ⟨z, - | ⟨w, l⟩⟩⟩⟩ <;> simp at hlen
    exact ⟨x, y, z, w, l, rfl⟩
  have hbytesLeft : bytesLeft b = 7 := by simp only [bytesLeft, hb]
  rw [hbytes, readVarint, List.cons_append, reading_bind (readByte_cons b _), hbytesLeft,
    List.cons_append, readVarintFrom_cons (by decide), List.cons_append, readVarintFrom_cons (by decide),
    List.cons_append, readVarintFrom_cons (by decide), List.cons_append, readVarintFrom,
    reading_bind (readByte_cons w _), shiftInt, if_neg (by decide)]
  rfl

/-- **The sizes that come back.** -/
theorem readVarint_sizeBytes_iff {val : ℕ} (h : val < 2 ^ 62) (rest : Bytes) :
    readVarint (sizeBytes val ++ rest) = .ok (val, rest) ↔ val < 2 ^ 29 := by
  constructor
  · intro hread
    by_contra hlow
    by_cases hmid : val < 2 ^ 30
    · obtain ⟨size, hsize, hle⟩ := readVarint_signed (by omega) hmid rest
      rw [hread] at hsize
      have heq : val = size := congrArg Prod.fst (Except.ok.inj hsize)
      omega
    · rw [readVarint_undefined (by omega) h] at hread
      cases hread
  · intro hlow
    exact readVarint_sizeBytes hlow rest

end KvBinary

end CryoNero
