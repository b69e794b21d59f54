import CryoNero.Core.TreeHash
import CryoNero.Store.Merkle

/-!
# Branches of hash trees

The functions on arrays compute what `treeHash`, `treeDepth` and `treeHashFromBranch` say, whatever `alloca`
returns, and stay inside their arrays. A branch that `tree_branch` writes leads from the first hash to the
hash of the tree.

The number of leaves need not be a power of two. Those beyond the largest power of two that is at most their
number are hashed in pairs first, with as many leaves before them, and what results is a full level. The
hash of the tree uses the largest power of two *below* the number of leaves; for a power of two its first
level is the second level of the other.
-/

namespace CryoNero

namespace TreeHash

open Seria Store

variable {c : Crypto}

/-! ## Powers of two -/

/-- A turn of the loop doubles the number of bits that are taken together. -/
theorem testBit_smeared {x width : ℕ} {s i : UInt64} (hi : i.toNat = width) (hwidth : width < 64)
    (hs : ∀ b, s.toNat.testBit b = true ↔ ∃ k < width, x.testBit (b + k) = true) (b : ℕ) :
    (s ||| s >>> i).toNat.testBit b = true ↔ ∃ k < 2 * width, x.testBit (b + k) = true := by
  rw [UInt64.toNat_or, UInt64.toNat_shiftRight, hi, Nat.mod_eq_of_lt hwidth, Nat.testBit_or,
    Nat.testBit_shiftRight, Bool.or_eq_true, hs, hs]
  constructor
  · rintro (⟨k, hk, hbit⟩ | ⟨k, hk, hbit⟩)
    · exact ⟨k, by omega, hbit⟩
    · exact ⟨width + k, by omega, by rwa [show b + (width + k) = width + b + k by omega]⟩
  · rintro ⟨k, hk, hbit⟩
    rcases Nat.lt_or_ge k width with h | h
    · exact .inl ⟨k, h, hbit⟩
    · exact .inr ⟨k - width, by omega, by rwa [show width + b + (k - width) = b + k by omega]⟩

private theorem exists_testBit_iff {x : ℕ} (h₀ : x ≠ 0) (hx : x < 2 ^ 64) (b : ℕ) :
    (∃ k < 64, x.testBit (b + k) = true) ↔ b ≤ x.log2 := by
  constructor
  · rintro ⟨k, -, hbit⟩
    have := (Nat.le_log2 h₀).mpr (Nat.ge_two_pow_of_testBit hbit)
    omega
  · intro hb
    have := (Nat.log2_lt h₀).mpr hx
    exact ⟨x.log2 - b, by omega, by rw [Nat.add_sub_cancel' hb]; exact Nat.testBit_log2 h₀⟩

private theorem toNat_highestBit {count : UInt64} (h : count ≠ 0) :
    (highestBit count).toNat = 2 ^ count.toNat.log2 := by
  have h₀ : count.toNat ≠ 0 := fun h' ↦ h (UInt64.toNat_inj.mp h')
  have hlt : count.toNat < 2 ^ 64 := count.toNat_lt
  have hstart : ∀ b, count.toNat.testBit b = true ↔ ∃ k < 1, count.toNat.testBit (b + k) = true := by
    intro b
    simp
  have hsmeared := testBit_smeared (i := 32) rfl (by decide) (testBit_smeared (i := 16) rfl (by decide)
    (testBit_smeared (i := 8) rfl (by decide) (testBit_smeared (i := 4) rfl (by decide)
      (testBit_smeared (i := 2) rfl (by decide) (testBit_smeared (i := 1) rfl (by decide) hstart)))))
  rw [highestBit, doubles]
  simp only [List.foldl_cons, List.foldl_nil]
  generalize count ||| count >>> 1 = s₁ at *
  generalize s₁ ||| s₁ >>> 2 = s₂ at *
  generalize s₂ ||| s₂ >>> 4 = s₃ at *
  generalize s₃ ||| s₃ >>> 8 = s₄ at *
  generalize s₄ ||| s₄ >>> 16 = s₅ at *
  generalize s₅ ||| s₅ >>> 32 = s at *
  have hbits : ∀ b, s.toNat.testBit b = true ↔ b ≤ count.toNat.log2 := fun b ↦
    (hsmeared b).trans (exists_testBit_iff h₀ hlt b)
  have hlog := (Nat.log2_lt h₀).mpr hlt
  have hshift : (s >>> 1).toNat < 2 ^ 64 := (s >>> 1).toNat_lt
  refine Nat.eq_of_testBit_eq fun b ↦ ?_
  rw [UInt64.toNat_and, UInt64.toNat_not, Nat.testBit_and, UInt64.size, Nat.sub_sub, Nat.add_comm 1,
    Nat.testBit_two_pow_sub_succ hshift, UInt64.toNat_shiftRight, Nat.testBit_two_pow, Bool.eq_iff_iff]
  have hone : (1 : UInt64).toNat % 64 = 1 := rfl
  rw [hone, Nat.testBit_shiftRight]
  have h₁ := hbits b
  have h₂ := hbits (1 + b)
  simp only [Bool.and_eq_true, Bool.not_eq_true', decide_eq_true_eq, ← Bool.not_eq_true, h₁, h₂]
  omega

private theorem foldl_halves {σ : Type} {f : σ → UInt64 → σ} (P : ℕ → σ → Prop)
    (hstep : ∀ s i, 0 < i.toNat → i.toNat < 64 → P (2 * i.toNat) s → P i.toNat (f s i)) {s : σ}
    (h : P 64 s) : P 1 (halves.foldl f s) := by
  have h₁ := hstep _ 32 (by decide) (by decide) h
  have h₂ := hstep _ 16 (by decide) (by decide) h₁
  have h₃ := hstep _ 8 (by decide) (by decide) h₂
  have h₄ := hstep _ 4 (by decide) (by decide) h₃
  have h₅ := hstep _ 2 (by decide) (by decide) h₄
  exact hstep _ 1 (by decide) (by decide) h₅

/-- What is kept of `count` after `depth` bits were shifted out, with fewer than `width` left to go. -/
def Shrunk (count : UInt64) (width : ℕ) (s : UInt64 × ℕ) : Prop :=
  s.1.toNat = count.toNat / 2 ^ s.2 ∧ 0 < s.1.toNat ∧ s.1.toNat < 2 ^ width

theorem Shrunk.step {count : UInt64} (s : UInt64 × ℕ) (i : UInt64) (hlarge : i.toNat < 64)
    (h : Shrunk count (2 * i.toNat) s) : Shrunk count i.toNat (shiftOut s i) := by
  obtain ⟨hs, hpos, hlt⟩ := h
  have hshift : (s.1 >>> i).toNat = s.1.toNat / 2 ^ i.toNat := by
    rw [UInt64.toNat_shiftRight, Nat.mod_eq_of_lt hlarge, Nat.shiftRight_eq_div_pow]
  have hiff : 0 < s.1 >>> i ↔ 0 < s.1.toNat / 2 ^ i.toNat := by
    rw [UInt64.lt_iff_toNat_lt, hshift]
    exact Iff.rfl
  simp only [shiftOut]
  by_cases hbig : 0 < s.1.toNat / 2 ^ i.toNat
  · rw [if_pos (hiff.mpr hbig)]
    refine ⟨?_, by rwa [hshift], ?_⟩
    · rw [hshift, hs, Nat.div_div_eq_div_mul, pow_add]
    · rw [hshift]
      apply Nat.div_lt_of_lt_mul
      rwa [← pow_add, ← two_mul]
  · rw [if_neg (mt hiff.mp hbig)]
    exact ⟨hs, hpos, by rwa [Nat.div_pos_iff, not_and, not_le, imp_iff_right (by positivity)] at hbig⟩

private theorem treeDepth_eq {count : UInt64} (h : 0 < count.toNat) :
    treeDepth count = .ok (CryoNero.treeDepth count.toNat) := by
  have hstart : Shrunk count 64 (count, 0) := ⟨by simp, h, count.toNat_lt⟩
  obtain ⟨hs, hpos, hlt⟩ := foldl_halves (Shrunk count) (fun s i _ ↦ Shrunk.step s i) hstart
  have hdepth : count.toNat.log2 = (halves.foldl shiftOut (count, 0)).2 := by
    have hone : count.toNat / 2 ^ (halves.foldl shiftOut (count, 0)).2 = 1 := by omega
    have hdiv := (Nat.div_eq_iff (by positivity)).mp hone
    refine (Nat.log2_eq_iff (by omega)).mpr ⟨by omega, ?_⟩
    rw [Nat.pow_succ]
    omega
  have hpositive : 0 < count := UInt64.lt_iff_toNat_lt.mpr h
  rw [treeDepth, ensure_pos _ hpositive, ok_bind, ← hdepth]
  rfl

/-- A power of two that is at most `count`, and more than `count` once it is shifted by `width` bits. -/
def Grown (count : UInt64) (width : ℕ) (s : UInt64 × ℕ) : Prop :=
  s.1.toNat = 2 ^ s.2 ∧ 2 ^ s.2 ≤ count.toNat ∧ count.toNat < 2 ^ (s.2 + width) ∧ s.2 + width ≤ 64

theorem Grown.step {count : UInt64} (s : UInt64 × ℕ) (i : UInt64) (hpos : 0 < i.toNat)
    (hlarge : i.toNat < 64) (h : Grown count (2 * i.toNat) s) : Grown count i.toNat (shiftUp count s i) := by
  obtain ⟨hs, hle, hlt, hroom⟩ := h
  have hshift : (s.1 <<< i).toNat = 2 ^ (s.2 + i.toNat) := by
    rw [UInt64.toNat_shiftLeft, Nat.mod_eq_of_lt hlarge, Nat.shiftLeft_eq, hs, ← pow_add,
      Nat.mod_eq_of_lt (Nat.pow_lt_pow_right (by omega) (by omega))]
  have hiff : s.1 <<< i ≤ count ↔ 2 ^ (s.2 + i.toNat) ≤ count.toNat := by
    rw [UInt64.le_iff_toNat_le, hshift]
  simp only [shiftUp]
  by_cases hbelow : 2 ^ (s.2 + i.toNat) ≤ count.toNat
  · rw [if_pos (hiff.mpr hbelow)]
    refine ⟨hshift, hbelow, ?_, ?_⟩
    · rwa [show s.2 + i.toNat + i.toNat = s.2 + 2 * i.toNat by omega]
    · dsimp only
      omega
  · rw [if_neg (mt hiff.mp hbelow)]
    exact ⟨hs, hle, Nat.lt_of_not_le hbelow, by omega⟩

private theorem foldl_shiftUp {count : UInt64} (h : 0 < count.toNat) :
    ∃ cnt : UInt64, halves.foldl (shiftUp count) (1, 0) = (cnt, CryoNero.treeDepth count.toNat) ∧
      cnt.toNat = 2 ^ CryoNero.treeDepth count.toNat := by
  have hstart : Grown count 64 (1, 0) := by
    refine ⟨by simp, by simpa using Nat.one_le_iff_ne_zero.mpr h.ne', ?_, by simp⟩
    rw [Nat.zero_add]
    exact count.toNat_lt
  obtain ⟨hs, hle, hlt, -⟩ := foldl_halves (Grown count) Grown.step hstart
  have hdepth : CryoNero.treeDepth count.toNat = (halves.foldl (shiftUp count) (1, 0)).2 :=
    (Nat.log2_eq_iff (by omega)).mpr ⟨hle, hlt⟩
  refine ⟨(halves.foldl (shiftUp count) (1, 0)).1, ?_, ?_⟩
  · rw [hdepth]
  · rw [hdepth]
    exact hs

/-! ## Pairs in arrays -/

private theorem hashPairs_eq (xs : List Hash) : hashPairs c xs = pairUp (hashPair c) xs := by
  induction xs using pairUp.induct with
  | case1 a b rest ih => rw [hashPairs, pairUp, ih]
  | case2 xs hxs =>
    rw [hashPairs, pairUp]
    · exact hxs
    · exact hxs

theorem hashTwo_append (before after : List Hash) (a b : Hash) :
    hashTwo c (before ++ a :: b :: after) before.length = .ok (hashPair c a b) := by
  have hnext := readAt_append (before ++ [a]) after b
  rw [List.length_append, List.length_singleton, List.append_assoc, List.singleton_append] at hnext
  rw [hashTwo, readAt_append, ok_bind, hnext]
  rfl

private theorem hashPairsInto_append (before after out rest : List Hash) {xs room : List Hash}
    (h : xs.length = 2 * room.length) :
    hashPairsInto c (before ++ (xs ++ after)) room.length before.length out.length (out ++ (room ++ rest)) =
      .ok (before.length + xs.length, out ++ (pairUp (hashPair c) xs ++ rest)) := by
  induction room generalizing before xs out with
  | nil =>
    rw [List.length_eq_zero_iff.mp h]
    rfl
  | cons r room ih =>
    obtain ⟨a, b, xs, rfl, hxs⟩ := exists_cons_cons h
    have hnext := ih (before ++ [a, b]) (out ++ [hashPair c a b]) hxs
    simp only [List.length_append, List.length_cons, List.length_nil, List.append_assoc, List.cons_append,
      List.nil_append] at hnext
    rw [List.length_cons, hashPairsInto, List.cons_append, List.cons_append, hashTwo_append, ok_bind,
      List.cons_append, writeAt_append, ok_bind, pairUp_cons_cons, List.cons_append]
    have hend : before.length + (0 + 1 + 1) + xs.length = before.length + (a :: b :: xs).length := by
      simp only [List.length_cons]
      omega
    rw [← hend]
    exact hnext

private theorem hashPairsWithin_append (out gap rest : List Hash) {turns : ℕ} {xs : List Hash}
    (h : xs.length = 2 * turns) :
    ∃ junk, hashPairsWithin c turns (out.length + gap.length) out.length (out ++ (gap ++ (xs ++ rest))) =
      .ok (out ++ (pairUp (hashPair c) xs ++ junk)) := by
  induction turns generalizing out gap xs with
  | zero =>
    rw [List.length_eq_zero_iff.mp h]
    exact ⟨gap ++ rest, rfl⟩
  | succ turns ih =>
    obtain ⟨a, b, xs, rfl, hxs⟩ := exists_cons_cons h
    -- The hash goes over what follows `out`, which is the gap and the two that were read.
    obtain ⟨g, gap', hgap⟩ : ∃ g gap', gap ++ [a, b] = g :: gap' := by
      rcases gap with - | ⟨g, gap⟩
      · exact ⟨a, [b], rfl⟩
      · exact ⟨g, gap ++ [a, b], rfl⟩
    have hlength : gap.length + 1 = gap'.length := by
      have := congrArg List.length hgap
      simp only [List.length_append, List.length_cons, List.length_nil] at this
      omega
    obtain ⟨junk, hnext⟩ := ih (out ++ [hashPair c a b]) gap' hxs
    refine ⟨junk, ?_⟩
    have hread : hashTwo c (out ++ (gap ++ (a :: b :: xs ++ rest))) (out.length + gap.length) =
        .ok (hashPair c a b) := by
      rw [← List.append_assoc, ← List.length_append]
      exact hashTwo_append (out ++ gap) (xs ++ rest) a b
    have hwrite : writeAt (out ++ (gap ++ (a :: b :: xs ++ rest))) out.length (hashPair c a b) =
        .ok (out ++ hashPair c a b :: (gap' ++ (xs ++ rest))) := by
      have hshape : gap ++ (a :: b :: xs ++ rest) = g :: (gap' ++ (xs ++ rest)) := by
        rw [← List.cons_append, ← hgap]
        simp
      rw [hshape, writeAt_append]
    rw [hashPairsWithin, hread, ok_bind, hwrite, ok_bind, pairUp_cons_cons, List.cons_append]
    simp only [List.length_append, List.length_cons, List.length_nil, List.append_assoc, List.cons_append,
      List.nil_append] at hnext
    rw [show out.length + gap.length + 2 = out.length + (0 + 1) + gap'.length by omega]
    exact hnext

private theorem hashLevels_append (rest : List Hash) {d : ℕ} {xs : List Hash}
    (h : xs.length = 2 ^ (d + 1)) :
    ∃ a b junk, hashLevels c (2 ^ (d + 1)) (xs ++ rest) = .ok (a :: b :: junk) ∧
      (pairUp (hashPair c))^[d] xs = [a, b] := by
  induction d generalizing rest xs with
  | zero =>
    obtain ⟨a, b, xs, rfl, hxs⟩ := exists_cons_cons (n := 0) h
    rw [List.length_eq_zero_iff.mp hxs, hashLevels, dif_neg (by decide)]
    exact ⟨a, b, rest, rfl, rfl⟩
  | succ d ih =>
    have hpow : 2 ^ (d + 1 + 1) = 2 * 2 ^ (d + 1) := by ring
    have htwo : 1 < 2 ^ (d + 1) := Nat.one_lt_two_pow (Nat.succ_ne_zero d)
    obtain ⟨junk, hloop⟩ := hashPairsWithin_append (c := c) [] [] rest (h.trans hpow)
    have hlength : (pairUp (hashPair c) xs).length = 2 ^ (d + 1) := by
      rw [length_pairUp]
      omega
    obtain ⟨a, b, junk', hlevels, hpair⟩ := ih junk hlength
    refine ⟨a, b, junk', ?_, by rwa [Function.iterate_succ_apply]⟩
    rw [hashLevels, dif_pos (by omega), hpow, Nat.mul_div_cancel_left _ two_pos]
    simp only [List.length_nil, List.nil_append, Nat.add_zero] at hloop
    rw [hloop, ok_bind]
    exact hlevels

@[simp] theorem length_alloca (stack : ℕ → Hash) (size : ℕ) : (alloca stack size).length = size := by
  rw [alloca, List.length_map, List.length_range]

/-- What both functions do first: the leaves before `paired` are copied, without the first `skip` of them,
and the others are hashed in pairs. -/
private theorem firstLevel (hashes ints : List Hash) (skip paired turns : ℕ) (hskip : skip ≤ paired)
    (hlength : hashes.length = paired + 2 * turns) (hsize : ints.length = paired - skip + turns) :
    ∃ copied, copyFrom hashes skip (paired - skip) = .ok ((hashes.drop skip).take (paired - skip)) ∧
      copyTo ints 0 ((hashes.drop skip).take (paired - skip)) = .ok copied ∧
      hashPairsInto c hashes turns paired (paired - skip) copied = .ok (hashes.length,
        (hashes.drop skip).take (paired - skip) ++ pairUp (hashPair c) (hashes.drop paired)) := by
  have hcopied : ((hashes.drop skip).take (paired - skip)).length = paired - skip := by
    rw [List.length_take, List.length_drop]
    omega
  have hbefore : (hashes.take paired).length = paired := by
    rw [List.length_take]
    omega
  have hroom : (ints.drop (paired - skip)).length = turns := by
    rw [List.length_drop]
    omega
  have hpairs : (hashes.drop paired).length = 2 * (ints.drop (paired - skip)).length := by
    rw [hroom, List.length_drop]
    omega
  have hinto := hashPairsInto_append (c := c) (hashes.take paired) []
    ((hashes.drop skip).take (paired - skip)) [] hpairs
  rw [List.append_nil, List.append_nil, List.append_nil, List.take_append_drop, hroom, hbefore, hcopied,
    List.length_drop, Nat.add_sub_cancel' (by omega)] at hinto
  refine ⟨(hashes.drop skip).take (paired - skip) ++ ints.drop (paired - skip), copyFrom_of_le (by omega),
    ?_, hinto⟩
  have hto := copyTo_append [] (ints.take (paired - skip)) (ints.drop (paired - skip))
    ((hashes.drop skip).take (paired - skip)) (by rw [hcopied, List.length_take]; omega)
  rwa [List.nil_append, List.nil_append, List.take_append_drop, List.length_nil] at hto

/-! ## The hash of the tree -/

private theorem toNat_excess {cnt count : UInt64} (hpos : 0 < count.toNat) (hge : cnt.toNat ≤ count.toNat)
    (hle : count.toNat ≤ 2 * cnt.toNat) :
    (2 * cnt - count).toNat = 2 * cnt.toNat - count.toNat := by
  have hcnt : cnt.toNat < 2 ^ 64 := cnt.toNat_lt
  have hcount : count.toNat < 2 ^ 64 := count.toNat_lt
  have htwo : (2 : UInt64).toNat = 2 := rfl
  rw [UInt64.toNat_sub, UInt64.toNat_mul, htwo]
  omega

private theorem treeHash_eq_iterate {hashes : List Hash} (h : 2 ≤ hashes.length) :
    CryoNero.treeHash c hashes = ((pairUp (hashPair c))^[Nat.log2 (hashes.length - 1)]
      (fullLevel (hashPair c) (Nat.log2 (hashes.length - 1)) hashes)).headD 0 := by
  have hpairs : hashPairs c = pairUp (hashPair c) := funext hashPairs_eq
  rcases hashes with - | ⟨a, - | ⟨b, rest⟩⟩
  · simp at h
  · simp at h
  · rw [CryoNero.treeHash.eq_3 c _ (by simp) (by simp), hpairs]
    rfl

private theorem treeHash_eq {stack : ℕ → Hash} {hashes : List Hash} {count : UInt64} (hne : hashes ≠ [])
    (hcount : count.toNat = hashes.length) :
    treeHash c stack hashes count = .ok (CryoNero.treeHash c hashes) := by
  have hlength : 0 < hashes.length := List.length_pos_of_ne_nil hne
  have hpos : (0 : UInt64) < count := UInt64.lt_iff_toNat_lt.mpr (by rw [hcount]; exact hlength)
  rw [treeHash, ensure_pos _ hpos, ok_bind]
  by_cases hone : count = 1
  · obtain ⟨a, rfl⟩ := List.length_eq_one_iff.mp (hcount.symm.trans (congrArg UInt64.toNat hone))
    rw [if_pos hone]
    rfl
  rw [if_neg hone]
  have hne₁ : hashes.length ≠ 1 := fun h ↦ hone (UInt64.toNat_inj.mp (hcount.trans h))
  by_cases htwo : count = 2
  · obtain ⟨a, b, rest, rfl, hrest⟩ := exists_cons_cons (n := 0)
      (hcount.symm.trans (congrArg UInt64.toNat htwo))
    rw [if_pos htwo, List.length_eq_zero_iff.mp hrest]
    exact hashTwo_append [] [] a b
  rw [if_neg htwo]
  have hne₂ : hashes.length ≠ 2 := fun h ↦ htwo (UInt64.toNat_inj.mp (hcount.trans h))
  have hless : (count - 1).toNat = hashes.length - 1 := by
    rw [UInt64.toNat_sub_of_le _ _ (UInt64.le_iff_toNat_le.mpr (by rw [hcount]; exact hlength)), hcount]
    rfl
  -- From three leaves on the full level has at least two hashes.
  obtain ⟨d, hd⟩ : ∃ d, Nat.log2 (hashes.length - 1) = d + 1 := by
    have := (Nat.le_log2 (show hashes.length - 1 ≠ 0 by omega)).mpr (show 2 ^ 1 ≤ hashes.length - 1 by omega)
    exact ⟨Nat.log2 (hashes.length - 1) - 1, by omega⟩
  obtain ⟨hle, hlt⟩ := (Nat.log2_eq_iff (show hashes.length - 1 ≠ 0 by omega)).mp hd
  have hpow : 2 ^ (d + 1 + 1) = 2 * 2 ^ (d + 1) := by ring
  have hcnt : (highestBit (count - 1)).toNat = 2 ^ (d + 1) := by
    rw [toNat_highestBit (fun h ↦ by rw [h] at hless; simp at hless; omega), hless, hd]
  have hexcess : (2 * highestBit (count - 1) - count).toNat = 2 * 2 ^ (d + 1) - hashes.length := by
    rw [toNat_excess (by omega) (by omega) (by omega), hcnt, hcount]
  obtain ⟨copied, hfrom, hto, hinto⟩ := firstLevel (c := c) hashes (alloca stack (2 ^ (d + 1))) 0
    (2 * 2 ^ (d + 1) - hashes.length) (2 ^ (d + 1) - (2 * 2 ^ (d + 1) - hashes.length)) (by omega)
    (by omega) (by rw [length_alloca]; omega)
  rw [Nat.sub_zero, List.drop_zero] at hfrom hto hinto
  obtain ⟨a, b, junk, hlevels, hpair⟩ := hashLevels_append (c := c) []
    (length_fullLevel (hashPair c) (show 2 ^ (d + 1) ≤ hashes.length by omega)
      (show hashes.length ≤ 2 * 2 ^ (d + 1) by omega))
  rw [List.append_nil, fullLevel] at hlevels
  simp only [hexcess, hcnt]
  rw [hfrom, ok_bind, hto, ok_bind, hinto, ok_bind]
  dsimp only
  rw [ensure_pos _ hcount.symm, ok_bind]
  rw [hlevels, ok_bind, treeHash_eq_iterate (by omega), hd, Function.iterate_succ_apply', hpair]
  exact hashTwo_append [] junk a b

/-! ## The branch -/

private theorem fillBranch_append (junk rest : List Hash) {d : ℕ} {cnt : UInt64} {others room : List Hash}
    (hcnt : cnt.toNat = 2 ^ d) (hothers : others.length = 2 ^ d - 1) (hroom : room.length = d) :
    fillBranch c d cnt (others ++ junk) (room ++ rest) =
      .ok (siblings (hashPair c) d others ++ rest) := by
  induction d generalizing junk rest cnt others room with
  | zero =>
    rw [List.length_eq_zero_iff.mp hroom]
    rfl
  | succ d ih =>
    have hpow : 2 ^ (d + 1) = 2 * 2 ^ d := by ring
    have hpos : 0 < 2 ^ d := Nat.two_pow_pos d
    obtain ⟨s, others, rfl⟩ : ∃ s others', others = s :: others' :=
      List.exists_cons_of_length_pos (by omega)
    obtain ⟨hlength, hpairs⟩ := length_rest_of_siblings (hashPair c) hothers
    obtain ⟨room, r, rfl⟩ := (List.eq_nil_or_concat room).resolve_left
      (List.ne_nil_of_length_pos (by omega))
    rw [List.concat_eq_append] at hroom ⊢
    rw [List.length_append, List.length_singleton] at hroom
    have hhalf : (cnt >>> 1).toNat = 2 ^ d := by
      have hone : (1 : UInt64).toNat % 64 = 1 := rfl
      rw [UInt64.toNat_shiftRight, hone, Nat.shiftRight_eq_div_pow, hcnt]
      omega
    have hturns : (cnt >>> 1 - 1).toNat = 2 ^ d - 1 := by
      rw [UInt64.toNat_sub_of_le _ _ (UInt64.le_iff_toNat_le.mpr (by rw [hhalf]; exact hpos)), hhalf]
      rfl
    have hwrite : writeAt (room ++ [r] ++ rest) d s = .ok (room ++ s :: rest) := by
      rw [List.append_assoc, ← Nat.succ.inj hroom]
      exact writeAt_append room rest r s
    obtain ⟨junk', hloop⟩ := hashPairsWithin_append (c := c) [] [s] junk hlength
    simp only [List.length_nil, List.length_singleton, Nat.zero_add, List.nil_append,
      List.singleton_append] at hloop
    have hread : readAt (s :: (others ++ junk)) 0 = .ok s := rfl
    rw [fillBranch, ensure_pos _ hcnt, ok_bind, List.cons_append, hread, ok_bind, hwrite, ok_bind, hturns,
      hloop, ok_bind, ih junk' _ hhalf hpairs (Nat.succ.inj hroom), siblings, List.append_assoc,
      List.singleton_append]

/-- The level that has the largest power of two of hashes that is at most the number of leaves leads to the
hash of the tree as well. -/
private theorem iterate_fullLevel {hashes : List Hash} (hne : hashes ≠ []) :
    ((pairUp (hashPair c))^[CryoNero.treeDepth hashes.length]
      (fullLevel (hashPair c) (CryoNero.treeDepth hashes.length) hashes)).headD 0 =
        CryoNero.treeHash c hashes := by
  rcases Nat.lt_or_ge hashes.length 2 with hone | htwo
  · obtain ⟨a, rfl⟩ : ∃ a, hashes = [a] := by
      rw [← List.length_eq_one_iff]
      have := List.length_pos_of_ne_nil hne
      omega
    rfl
  rw [treeHash_eq_iterate htwo, CryoNero.treeDepth]
  obtain ⟨hle, hlt⟩ := (Nat.log2_eq_iff (show hashes.length - 1 ≠ 0 by omega)).mp rfl
  rcases Nat.lt_or_ge hashes.length (2 ^ ((hashes.length - 1).log2 + 1)) with hless | hfull
  · have hdepth : hashes.length.log2 = (hashes.length - 1).log2 :=
      (Nat.log2_eq_iff (by omega)).mpr ⟨by omega, hless⟩
    rw [hdepth]
  · have hexact : hashes.length = 2 ^ ((hashes.length - 1).log2 + 1) := by omega
    have hdepth : hashes.length.log2 = (hashes.length - 1).log2 + 1 := by
      conv_lhs => rw [hexact]
      exact Nat.log2_two_pow
    rw [hdepth, iterate_fullLevel_succ _ hexact]

private theorem treeHash_eq_foldr_siblings {leaf : Hash} {others : List Hash} {d : ℕ}
    (hd : d = CryoNero.treeDepth (leaf :: others).length) :
    CryoNero.treeHash c (leaf :: others) = (siblings (hashPair c) d
      (fullLevel (hashPair c) d (leaf :: others)).tail).foldr (fun s acc ↦ hashPair c acc s) leaf := by
  have hne : (leaf :: others).length ≠ 0 := Nat.succ_ne_zero _
  obtain ⟨hle, hlt⟩ := (Nat.log2_eq_iff hne).mp hd.symm
  have hlength := length_fullLevel (hashPair c) hle (show (leaf :: others).length ≤ 2 * 2 ^ d by omega)
  rw [← iterate_fullLevel (List.cons_ne_nil leaf others), ← hd]
  rw [fullLevel_cons (hashPair c) (by omega)] at hlength ⊢
  rw [List.length_cons] at hlength
  rw [root_eq_foldr_siblings (hashPair c) leaf (Nat.eq_sub_of_add_eq hlength)]
  rfl

private theorem treeBranch_eq {stack : ℕ → Hash} {leaf : Hash} {others room rest : List Hash}
    {count : UInt64}
    (hcount : count.toNat = (leaf :: others).length)
    (hroom : room.length = CryoNero.treeDepth (leaf :: others).length) :
    treeBranch c stack (leaf :: others) count (room ++ rest) = .ok (siblings (hashPair c) room.length
      (fullLevel (hashPair c) room.length (leaf :: others)).tail ++ rest) := by
  have hlength : 0 < count.toNat := by
    rw [hcount, List.length_cons]
    exact Nat.succ_pos _
  have hpos : (0 : UInt64) < count := UInt64.lt_iff_toNat_lt.mpr hlength
  obtain ⟨cnt, hfold, hcnt⟩ := foldl_shiftUp hlength
  rw [hcount] at hfold hcnt
  rw [← hroom] at hfold hcnt
  generalize hd : room.length = d at *
  obtain ⟨hle, hlt⟩ := (Nat.log2_eq_iff (by omega)).mp hroom.symm
  have hpow : 2 ^ (d + 1) = 2 * 2 ^ d := by ring
  have hexcess : (2 * cnt - count).toNat = 2 * 2 ^ d - (leaf :: others).length := by
    rw [toNat_excess hlength (by omega) (by omega), hcnt, hcount]
  have hone : ∀ n : UInt64, 0 < n.toNat → (n - 1).toNat = n.toNat - 1 := fun n hn ↦
    UInt64.toNat_sub_of_le n 1 (UInt64.le_iff_toNat_le.mpr hn)
  have hskipped : (2 * cnt - count - 1).toNat = 2 * 2 ^ d - (leaf :: others).length - 1 := by
    rw [hone _ (by omega), hexcess]
  have hsize : (cnt - 1).toNat = 2 ^ d - 1 := by
    rw [hone _ (by omega), hcnt]
  obtain ⟨copied, hfrom, hto, hinto⟩ := firstLevel (c := c) (leaf :: others) (alloca stack (2 ^ d - 1)) 1
    (2 * 2 ^ d - (leaf :: others).length) (2 ^ d - 1 - (2 * 2 ^ d - (leaf :: others).length - 1)) (by omega)
    (by omega) (by rw [length_alloca]; omega)
  have htail : (fullLevel (hashPair c) d (leaf :: others)).tail =
      ((leaf :: others).drop 1).take (2 * 2 ^ d - (leaf :: others).length - 1) ++
        pairUp (hashPair c) ((leaf :: others).drop (2 * 2 ^ d - (leaf :: others).length)) := by
    rw [fullLevel_cons (hashPair c) (by omega)]
    rfl
  have hfull := length_fullLevel (hashPair c) hle (show (leaf :: others).length ≤ 2 * 2 ^ d by omega)
  have hfill := fillBranch_append (c := c) [] rest hcnt
    (show (fullLevel (hashPair c) d (leaf :: others)).tail.length = 2 ^ d - 1 by rw [List.length_tail, hfull])
    hd
  rw [List.append_nil] at hfill
  rw [treeBranch, ensure_pos _ hpos, ok_bind, hfold]
  dsimp only
  rw [ensure_pos _ hcnt, ok_bind, treeDepth_eq hlength, ok_bind, hcount, ensure_pos _ hroom, ok_bind,
    hskipped, hexcess, hsize, hfrom, ok_bind, hto, ok_bind, hinto, ok_bind]
  dsimp only
  rw [ensure_pos _ rfl, ok_bind, ← htail, hfill]

/-! ## From a branch to the hash of the tree -/

/-- One turn, from the buffer to what is in it afterwards. Which of its two places the sibling has is the
bit of the path. -/
private theorem climb_succ {branch : List Hash} {leaf below sibling : Hash} {path : Option Bytes}
    {depth : ℕ}
    {fromLeaf right : Bool} {a b : Hash} (hright : pathBit path depth = .ok right)
    (hbelow : below = if fromLeaf then leaf else hashPair c a b) (hsibling : branch[depth]? = some sibling) :
    climb c branch leaf path (depth + 1) fromLeaf [a, b] = climb c branch leaf path depth false
      (if right then [sibling, below] else [below, sibling]) := by
  have hread := readAt_eq_ok.mpr hsibling
  have htwo : hashTwo c [a, b] 0 = .ok (hashPair c a b) := hashTwo_append [] [] a b
  rw [climb, hright, ok_bind]
  subst hbelow
  cases fromLeaf
  · dsimp only
    rw [if_neg Bool.false_ne_true, if_neg Bool.false_ne_true, htwo, ok_bind, hread]
    cases right <;> rfl
  · dsimp only
    rw [if_pos rfl, if_pos rfl, ok_bind, hread]
    cases right <;> rfl

private theorem climb_append (below above : List Hash) (leaf a b : Hash) {path : Option Bytes}
    {bits : ℕ → Bool}
    (hbits : ∀ i < below.length, pathBit path i = .ok (bits i)) :
    (do
      let buffer ← climb c (below ++ above) leaf path below.length false [a, b]
      hashTwo c buffer 0) = .ok (below.zipIdx.foldr (fun p acc ↦
        if bits p.2 then hashPair c p.1 acc else hashPair c acc p.1) (hashPair c a b)) := by
  induction below using List.reverseRecOn generalizing above a b with
  | nil => exact hashTwo_append [] [] a b
  | append_singleton below s ih =>
    rw [List.length_append, List.length_singleton] at hbits ⊢
    have hsibling : (below ++ [s] ++ above)[below.length]? = some s := by
      rw [List.append_assoc, List.getElem?_append_right (le_refl _), Nat.sub_self]
      rfl
    rw [climb_succ (hbits _ (Nat.lt_succ_self _)) (if_neg Bool.false_ne_true).symm hsibling,
      List.zipIdx_append, List.foldr_append, List.append_assoc]
    have hrest := fun x y ↦ ih ([s] ++ above) x y
      fun i hi ↦ hbits i (Nat.lt_succ_of_lt hi)
    cases hbit : bits below.length
    · rw [if_neg Bool.false_ne_true, hrest]
      simp [hbit]
    · rw [if_pos rfl, hrest]
      simp [hbit]

private theorem treeHashFromBranch_append {stack : ℕ → Hash} {branch rest : List Hash} {leaf : Hash}
    {path : Option Bytes} {bits : ℕ → Bool} (hbits : ∀ i < branch.length, pathBit path i = .ok (bits i)) :
    treeHashFromBranch c stack (branch ++ rest) branch.length leaf path =
      .ok (branch.zipIdx.foldr (fun p acc ↦
        if bits p.2 then hashPair c p.1 acc else hashPair c acc p.1) leaf) := by
  rw [treeHashFromBranch]
  rcases List.eq_nil_or_concat branch with rfl | ⟨below, s, rfl⟩
  · rfl
  rw [List.concat_eq_append, List.length_append, List.length_singleton] at hbits ⊢
  have hsibling : (below ++ [s] ++ rest)[below.length]? = some s := by
    rw [List.append_assoc, List.getElem?_append_right (le_refl _), Nat.sub_self]
    rfl
  have hbuffer : alloca stack 2 = [stack 0, stack 1] := rfl
  rw [if_neg (Nat.succ_ne_zero _), hbuffer, climb_succ (hbits _ (Nat.lt_succ_self _)) (if_pos rfl).symm hsibling,
    List.zipIdx_append, List.foldr_append, List.append_assoc]
  have hrest := fun x y ↦ climb_append (c := c) below ([s] ++ rest) leaf x y
    fun i hi ↦ hbits i (Nat.lt_succ_of_lt hi)
  cases hbit : bits below.length
  · rw [if_neg Bool.false_ne_true, hrest]
    simp [hbit]
  · rw [if_pos rfl, hrest]
    simp [hbit]

private theorem pathBit_none (depth : ℕ) : pathBit none depth = .ok (CryoNero.pathBit none depth) := rfl

private theorem pathBit_some {path : Hash} {depth : ℕ} (h : depth < 256) :
    pathBit (some (writeHash path)) depth = .ok (CryoNero.pathBit (some path) depth) := by
  have hindex : depth / 8 < (writeHash path).length := by
    rw [writeHash, length_blobBytes]
    omega
  have hread : readAt (writeHash path) (depth / 8) = .ok ((writeHash path).getD (depth / 8) 0) := by
    rw [readAt_eq_ok, List.getD_eq_getElem?_getD, List.getElem?_eq_getElem hindex, Option.getD_some]
  rw [pathBit, hread, ok_bind]
  rfl

private theorem treeHashFromBranch_eq {stack : ℕ → Hash} {branch rest : List Hash} {leaf : Hash}
    {path : Option Hash} (h : path = none ∨ branch.length ≤ 256) :
    treeHashFromBranch c stack (branch ++ rest) branch.length leaf (path.map writeHash) =
      .ok (CryoNero.treeHashFromBranch c branch leaf path) := by
  refine treeHashFromBranch_append fun i hi ↦ ?_
  rcases path with - | path
  · exact pathBit_none i
  · exact pathBit_some (hi.trans_le (h.resolve_left (Option.some_ne_none path)))

private theorem treeHashFromBranch_none (branch : List Hash) (leaf : Hash) :
    CryoNero.treeHashFromBranch c branch leaf none = branch.foldr (fun s acc ↦ hashPair c acc s) leaf := by
  rw [CryoNero.treeHashFromBranch]
  induction branch using List.reverseRecOn generalizing leaf with
  | nil => rfl
  | append_singleton branch s ih =>
    rw [List.zipIdx_append, List.foldr_append, List.foldr_append, ← ih]
    rfl

private theorem exists_treeBranch (stack : ℕ → Hash) (rest : List Hash) {leaf : Hash}
    {others room : List Hash}
    {count : UInt64}
    (hcount : count.toNat = (leaf :: others).length)
    (hroom : room.length = CryoNero.treeDepth (leaf :: others).length) :
    ∃ branch, branch.length = room.length ∧
      treeBranch c stack (leaf :: others) count (room ++ rest) = .ok (branch ++ rest) ∧
      CryoNero.treeHashFromBranch c branch leaf none = CryoNero.treeHash c (leaf :: others) := by
  refine ⟨_, ?_, treeBranch_eq hcount hroom, ?_⟩
  · have hne : (leaf :: others).length ≠ 0 := Nat.succ_ne_zero _
    obtain ⟨hle, hlt⟩ := (Nat.log2_eq_iff hne).mp hroom.symm
    have hpow : 2 ^ (room.length + 1) = 2 * 2 ^ room.length := by ring
    apply length_siblings
    rw [List.length_tail, length_fullLevel (hashPair c) hle (by omega)]
  · rw [treeHashFromBranch_none]
    exact (treeHash_eq_foldr_siblings hroom).symm

/-- **Branches of hash trees verify.** For every list of hashes whose length is a `size_t`, and whatever
the stack and the room for the branch held before, `tree_branch` writes as many hashes as `tree_depth`
returns, and from the first hash they lead to what `tree_hash` returns. No access leaves its array. -/
theorem treeHashFromBranch_treeBranch (c : Crypto) (leaf : Hash) (others : List Hash) (count : UInt64)
    (hcount : count.toNat = (leaf :: others).length) :
    ∃ depth root, treeDepth count = .ok depth ∧
      (∀ stack, treeHash c stack (leaf :: others) count = .ok root) ∧
      ∀ stack room rest, room.length = depth → ∃ branch, branch.length = depth ∧
        treeBranch c stack (leaf :: others) count (room ++ rest) = .ok (branch ++ rest) ∧
        ∀ stack', treeHashFromBranch c stack' (branch ++ rest) depth leaf none = .ok root := by
  have hlength : 0 < count.toNat := by
    rw [hcount]
    exact Nat.succ_pos _
  refine ⟨CryoNero.treeDepth (leaf :: others).length, CryoNero.treeHash c (leaf :: others), ?_,
    fun _ ↦ treeHash_eq (List.cons_ne_nil leaf others) hcount, fun stack room rest hroom ↦ ?_⟩
  · rw [treeDepth_eq hlength, hcount]
  obtain ⟨branch, hbranch, hok, hroot⟩ := exists_treeBranch (c := c) stack rest hcount hroom
  refine ⟨branch, hbranch.trans hroom, hok, fun stack' ↦ ?_⟩
  rw [← hroot, ← hroom, ← hbranch]
  exact treeHashFromBranch_eq (.inl rfl)

/-- Three hashes, of which the last two are hashed first. -/
theorem treeHashFromBranch_treeBranch_three :
    ∃ depth root, treeDepth 3 = .ok depth ∧ (∀ stack, treeHash .lax stack [1, 2, 3] 3 = .ok root) ∧
      ∀ stack room rest, room.length = depth → ∃ branch, branch.length = depth ∧
        treeBranch .lax stack [1, 2, 3] 3 (room ++ rest) = .ok (branch ++ rest) ∧
        ∀ stack', treeHashFromBranch .lax stack' (branch ++ rest) depth 1 none = .ok root :=
  treeHashFromBranch_treeBranch .lax 1 [2, 3] 3 rfl

end TreeHash

end CryoNero
