import CryoNero.Core.Varint
import CryoNero.Seria.Ordered

/-!
# Integer keys

What is written for an integer is told by its first byte: how many bytes follow, and where the integers
with this first byte begin (`writeVarintSqlite4_eq`, `readVarintSqlite4_cons`). The first byte grows with
the integer, and among the integers that share it the rest does, so that the encoding is read back and
keeps the order. Keys of several integers are then sorted as the tuples of these are.
-/

namespace CryoNero

open Seria

namespace Sqlite4

/-- The first byte of an integer. -/
def lead (n : ℕ) : ℕ :=
  if n ≤ 240 then n
  else if n ≤ 2287 then (n - 240) / 256 + 241
  else if n ≤ 67823 then 249
  else if n ≤ 16777215 then 250
  else if n ≤ 4294967295 then 251
  else if n ≤ 1099511627775 then 252
  else if n ≤ 281474976710655 then 253
  else if n ≤ 72057594037927935 then 254
  else 255

/-- How many bytes follow a first byte. -/
def width (l : ℕ) : ℕ := if l ≤ 240 then 0 else if l ≤ 248 then 1 else if l = 249 then 2 else l - 247

/-- Where the integers with a first byte begin. -/
def base (l : ℕ) : ℕ :=
  if l ≤ 240 then l else if l ≤ 248 then 240 + 256 * (l - 241) else if l = 249 then 2288 else 0

/-- The kinds of integers: those that are their own first byte, those with a part of them in it, those
with two bytes after it, and those with the `k` bytes that they have. -/
inductive Kind (n : ℕ) : Prop
  | one : n ≤ 240 → lead n = n → Kind n
  | two : 240 < n → n ≤ 2287 → lead n = (n - 240) / 256 + 241 → Kind n
  | three : 2287 < n → n ≤ 67823 → lead n = 249 → Kind n
  | more (k : ℕ) : 3 ≤ k → k ≤ 8 → 67823 < n → n < 256 ^ k → (k = 3 ∨ 256 ^ (k - 1) ≤ n) →
      lead n = 247 + k → Kind n

theorem kind {n : ℕ} (h : n < 2 ^ 64) : Kind n := by
  by_cases h₁ : n ≤ 240
  · exact .one h₁ (if_pos h₁)
  by_cases h₂ : n ≤ 2287
  · exact .two (by omega) h₂ (by rw [lead, if_neg h₁, if_pos h₂])
  by_cases h₃ : n ≤ 67823
  · exact .three (by omega) h₃ (by rw [lead, if_neg h₁, if_neg h₂, if_pos h₃])
  have hlarge : 67823 < n := by omega
  by_cases h₄ : n ≤ 16777215
  · exact .more 3 (by omega) (by omega) hlarge (by omega) (.inl rfl)
      (by rw [lead, if_neg h₁, if_neg h₂, if_neg h₃, if_pos h₄])
  by_cases h₅ : n ≤ 4294967295
  · exact .more 4 (by omega) (by omega) hlarge (by omega) (.inr (by omega))
      (by rw [lead, if_neg h₁, if_neg h₂, if_neg h₃, if_neg h₄, if_pos h₅])
  by_cases h₆ : n ≤ 1099511627775
  · exact .more 5 (by omega) (by omega) hlarge (by omega) (.inr (by omega))
      (by rw [lead, if_neg h₁, if_neg h₂, if_neg h₃, if_neg h₄, if_neg h₅, if_pos h₆])
  by_cases h₇ : n ≤ 281474976710655
  · exact .more 6 (by omega) (by omega) hlarge (by omega) (.inr (by omega))
      (by rw [lead, if_neg h₁, if_neg h₂, if_neg h₃, if_neg h₄, if_neg h₅, if_neg h₆, if_pos h₇])
  by_cases h₈ : n ≤ 72057594037927935
  · exact .more 7 (by omega) (by omega) hlarge (by omega) (.inr (by omega))
      (by rw [lead, if_neg h₁, if_neg h₂, if_neg h₃, if_neg h₄, if_neg h₅, if_neg h₆, if_neg h₇,
        if_pos h₈])
  · exact .more 8 (by omega) (by omega) hlarge (by omega) (.inr (by omega))
      (by rw [lead, if_neg h₁, if_neg h₂, if_neg h₃, if_neg h₄, if_neg h₅, if_neg h₆, if_neg h₇,
        if_neg h₈])

private theorem width_more {k : ℕ} (h : 3 ≤ k) : width (247 + k) = k := by
  rw [width, if_neg (by omega), if_neg (by omega), if_neg (by omega)]
  omega

private theorem base_more {k : ℕ} (h : 3 ≤ k) : base (247 + k) = 0 := by
  rw [base, if_neg (by omega), if_neg (by omega), if_neg (by omega)]

private theorem lead_le {n : ℕ} (h : n < 2 ^ 64) : lead n ≤ 255 := by
  rcases kind h with ⟨_, hl⟩ | ⟨_, _, hl⟩ | ⟨_, _, hl⟩ | ⟨k, _, _, _, _, _, hl⟩ <;> omega

private theorem lead_mono {m n : ℕ} (h : m ≤ n) (hn : n < 2 ^ 64) : lead m ≤ lead n := by
  rcases kind (h.trans_lt hn) with ⟨_, hm⟩ | ⟨_, _, hm⟩ | ⟨_, _, hm⟩ | ⟨j, hj, _, _, _, hfrom, hm⟩ <;>
    rcases kind hn with ⟨_, hl⟩ | ⟨_, _, hl⟩ | ⟨_, _, hl⟩ | ⟨k, hk, _, _, hto, _, hl⟩ <;> try omega
  rw [hm, hl]
  refine Nat.add_le_add_left ?_ _
  rcases hfrom with rfl | hfrom
  · exact hk
  · have hlt : j - 1 < k := (Nat.pow_lt_pow_iff_right (by omega)).mp ((hfrom.trans h).trans_lt hto)
    omega

/-- An integer is where those with its first byte begin and what the bytes that follow can hold. -/
theorem base_add {n : ℕ} (h : n < 2 ^ 64) :
    ∃ x, x < 256 ^ width (lead n) ∧ n = base (lead n) + x := by
  rcases kind h with ⟨hle, hl⟩ | ⟨hgt, hle, hl⟩ | ⟨hgt, hle, hl⟩ | ⟨k, hk, -, -, hto, -, hl⟩
  · refine ⟨0, by positivity, ?_⟩
    rw [hl, base, if_pos hle, Nat.add_zero]
  · refine ⟨(n - 240) % 256, ?_, ?_⟩
    · rw [hl, width, if_neg (by omega), if_pos (by omega)]
      omega
    · rw [hl, base, if_neg (by omega), if_pos (by omega)]
      omega
  · refine ⟨n - 2288, ?_, ?_⟩
    · rw [hl, width, if_neg (by omega), if_neg (by omega), if_pos rfl]
      omega
    · rw [hl, base, if_neg (by omega), if_neg (by omega), if_pos rfl]
      omega
  · refine ⟨n, ?_, ?_⟩
    · rw [hl, width_more hk]
      exact hto
    · rw [hl, base_more hk, Nat.zero_add]

end Sqlite4

open Sqlite4

theorem not_le_of_toNat_lt {v m : UInt64} (h : m.toNat < v.toNat) : ¬v ≤ m := by
  rw [UInt64.not_le]
  exact UInt64.lt_iff_toNat_lt.mpr h

private theorem writeVarintSqlite4_more {v : UInt64} {k : ℕ} (hk : 3 ≤ k) (hk' : k ≤ 8)
    (hlarge : 67823 < v.toNat) (hto : v.toNat < 256 ^ k) (hfrom : k = 3 ∨ 256 ^ (k - 1) ≤ v.toNat) :
    writeVarintSqlite4 v = UInt8.ofNat (247 + k) :: beBytes k v.toNat := by
  have hnot (m : UInt64) (h : m.toNat < v.toNat) : ¬v ≤ m := not_le_of_toNat_lt h
  have hle (m : UInt64) (h : v.toNat ≤ m.toNat) : v ≤ m := UInt64.le_iff_toNat_le.mpr h
  have h₁ : ¬v ≤ 240 := hnot _ (by change 240 < _; omega)
  have h₂ : ¬v ≤ 2287 := hnot _ (by change 2287 < _; omega)
  have h₃ : ¬v ≤ 67823 := hnot _ hlarge
  rw [writeVarintSqlite4, if_neg h₁, if_neg h₂, if_neg h₃]
  by_cases h₄ : k = 3
  · subst h₄
    rw [if_pos (hle _ (by change _ ≤ 16777215; omega))]
    rfl
  have hfrom := hfrom.resolve_left h₄
  have hpow : 256 ^ 3 ≤ v.toNat := (Nat.pow_le_pow_right (by omega) (by omega)).trans hfrom
  rw [if_neg (hnot _ (by change 16777215 < _; omega))]
  by_cases h₅ : k = 4
  · subst h₅
    rw [if_pos (hle _ (by change _ ≤ 4294967295; omega))]
    rfl
  have hpow : 256 ^ 4 ≤ v.toNat := (Nat.pow_le_pow_right (by omega) (by omega)).trans hfrom
  rw [if_neg (hnot _ (by change 4294967295 < _; omega))]
  by_cases h₆ : k = 5
  · subst h₆
    rw [if_pos (hle _ (by change _ ≤ 1099511627775; omega))]
    rfl
  have hpow : 256 ^ 5 ≤ v.toNat := (Nat.pow_le_pow_right (by omega) (by omega)).trans hfrom
  rw [if_neg (hnot _ (by change 1099511627775 < _; omega))]
  by_cases h₇ : k = 6
  · subst h₇
    rw [if_pos (hle _ (by change _ ≤ 281474976710655; omega))]
    rfl
  have hpow : 256 ^ 6 ≤ v.toNat := (Nat.pow_le_pow_right (by omega) (by omega)).trans hfrom
  rw [if_neg (hnot _ (by change 281474976710655 < _; omega))]
  by_cases h₈ : k = 7
  · subst h₈
    rw [if_pos (hle _ (by change _ ≤ 72057594037927935; omega))]
    rfl
  obtain rfl : k = 8 := by omega
  rw [if_neg (hnot _ (by change 72057594037927935 < _; omega))]
  rfl

theorem toUInt8_eq_ofNat {w : UInt64} {m : ℕ} (h : w.toNat % 256 = m % 256) :
    w.toUInt8 = UInt8.ofNat m := by
  refine UInt8.toNat_inj.mp ?_
  rw [UInt64.toNat_toUInt8, UInt8.toNat_ofNat']
  exact h

theorem writeVarintSqlite4_eq {v : UInt64} {x : ℕ} (hv : v.toNat = base (lead v.toNat) + x) :
    writeVarintSqlite4 v = UInt8.ofNat (lead v.toNat) :: beBytes (width (lead v.toNat)) x := by
  have hsub (m : UInt64) (h : m.toNat ≤ v.toNat) : (v - m).toNat = v.toNat - m.toNat :=
    UInt64.toNat_sub_of_le _ _ (UInt64.le_iff_toNat_le.mpr h)
  rcases kind v.toNat_lt with ⟨h₁, hl⟩ | ⟨h₀, h₁, hl⟩ | ⟨h₀, h₁, hl⟩ | ⟨k, hk, hk', h₀, h₁, h₂, hl⟩
  · have hle : v ≤ 240 := UInt64.le_iff_toNat_le.mpr h₁
    rw [writeVarintSqlite4, if_pos hle, hl, width, if_pos h₁]
    rfl
  · have hnot : ¬v ≤ 240 := not_le_of_toNat_lt h₀
    have hle : v ≤ 2287 := UInt64.le_iff_toNat_le.mpr h₁
    rw [hl, base, if_neg (by omega), if_pos (by omega)] at hv
    rw [writeVarintSqlite4, if_neg hnot, if_pos hle, hl, width, if_neg (by omega), if_pos (by omega)]
    have h240 : (v - 240).toNat = v.toNat - 240 := hsub 240 h₀.le
    have hdiv : ((v - 240) / 256 + 241).toNat = (v.toNat - 240) / 256 + 241 := by
      rw [UInt64.toNat_add, UInt64.toNat_div, h240]
      change ((v.toNat - 240) / 256 + 241) % 2 ^ 64 = _
      omega
    rw [toUInt8_eq_ofNat (congrArg (· % 256) hdiv), beBytes, beBytes, List.nil_append,
      toUInt8_eq_ofNat (m := x % 256) (by rw [h240]; omega)]
  · have hnot : ¬v ≤ 240 := not_le_of_toNat_lt (by change 240 < _; omega)
    have hnot' : ¬v ≤ 2287 := not_le_of_toNat_lt h₀
    have hle : v ≤ 67823 := UInt64.le_iff_toNat_le.mpr h₁
    rw [hl, base, if_neg (by omega), if_neg (by omega), if_pos rfl] at hv
    rw [writeVarintSqlite4, if_neg hnot, if_neg hnot', if_pos hle, hl, width,
      if_neg (by omega), if_neg (by omega), if_pos rfl]
    have h2288 : (v - 2288).toNat = v.toNat - 2288 := hsub 2288 h₀
    have hdiv : ((v - 2288) / 256).toNat = (v.toNat - 2288) / 256 := by
      rw [UInt64.toNat_div, h2288]
      rfl
    rw [beBytes, beBytes, beBytes, List.nil_append, List.singleton_append,
      toUInt8_eq_ofNat (m := x / 256 % 256) (by rw [hdiv]; omega),
      toUInt8_eq_ofNat (m := x % 256) (by rw [h2288]; omega)]
    rfl
  · rw [hl, base_more hk, Nat.zero_add] at hv
    rw [hl, width_more hk, ← hv]
    exact writeVarintSqlite4_more hk hk' h₀ h₁ h₂

/-! ## Reading -/

theorem uintBeFromBytes_eq (buf : Bytes) : uintBeFromBytes buf = UInt64.ofNat (beNat buf) := by
  induction buf using List.reverseRecOn with
  | nil => rfl
  | append_singleton buf b ih =>
    rw [uintBeFromBytes] at ih ⊢
    rw [List.foldl_append, List.foldl_cons, List.foldl_nil, ih, beNat_append_singleton]
    refine UInt64.toNat_inj.mp ?_
    have hb : b.toNat < 2 ^ 8 := b.toNat_lt
    -- the shifted number has room for the byte, also when its highest bits are lost
    have hshift : (beNat buf % 2 ^ 64) <<< (UInt64.toNat 8 % 64) % 2 ^ 64 =
        2 ^ 8 * (beNat buf % 2 ^ 56) := by
      change (beNat buf % 2 ^ 64) <<< 8 % 2 ^ 64 = _
      rw [Nat.shiftLeft_eq]
      omega
    rw [UInt64.toNat_or, UInt64.toNat_shiftLeft, UInt64.toNat_ofNat', UInt8.toNat_toUInt64, hshift,
      ← Nat.two_pow_add_eq_or_of_lt hb, UInt64.toNat_ofNat']
    omega

private theorem readVarintSqlite4_cons {l x : ℕ} (hl : l ≤ 255) (hx : x < 256 ^ width l) (rest : Bytes) :
    readVarintSqlite4 (UInt8.ofNat l :: (beBytes (width l) x ++ rest)) =
      some (UInt64.ofNat (base l + x), rest) := by
  have hlead : (UInt8.ofNat l).toNat = l := toNat_ofNat_uint8 (by omega)
  have hle (m : UInt8) : UInt8.ofNat l ≤ m ↔ l ≤ m.toNat := by rw [UInt8.le_iff_toNat_le, hlead]
  have hvalue {v : UInt64} (hv : v.toNat = base l + x) :
      some (v, rest) = some (UInt64.ofNat (base l + x), rest) := by
    rw [← hv, UInt64.ofNat_toNat]
  unfold readVarintSqlite4
  dsimp only
  by_cases h₁ : l ≤ 240
  · rw [width, if_pos h₁] at hx ⊢
    obtain rfl : x = 0 := by omega
    rw [if_pos ((hle 240).mpr h₁)]
    refine hvalue ?_
    rw [UInt8.toNat_toUInt64, hlead, base, if_pos h₁, Nat.add_zero]
  rw [if_neg fun h ↦ h₁ ((hle 240).mp h)]
  by_cases h₂ : l ≤ 248
  · rw [width, if_neg h₁, if_pos h₂] at hx ⊢
    rw [if_pos ((hle 248).mpr h₂), beBytes, beBytes]
    refine hvalue ?_
    rw [UInt64.toNat_add, UInt64.toNat_add, UInt64.toNat_mul, UInt8.toNat_toUInt64,
      UInt64.toNat_sub_of_le _ _ ?_, UInt8.toNat_toUInt64, hlead, toNat_ofNat_uint8 (by omega), base,
      if_neg h₁, if_pos h₂]
    · change ((240 + 256 * (l - 241) % 2 ^ 64) % 2 ^ 64 + x % 256) % 2 ^ 64 = _
      omega
    · rw [UInt64.le_iff_toNat_le, UInt8.toNat_toUInt64, hlead]
      change 241 ≤ l
      omega
  rw [if_neg fun h ↦ h₂ ((hle 248).mp h)]
  by_cases h₃ : l = 249
  · subst h₃
    rw [width, if_neg h₁, if_neg h₂, if_pos rfl] at hx ⊢
    rw [if_pos (show UInt8.ofNat 249 = 249 from rfl), beBytes, beBytes, beBytes]
    refine hvalue ?_
    rw [UInt64.toNat_add, UInt64.toNat_add, UInt64.toNat_mul, UInt8.toNat_toUInt64,
      UInt8.toNat_toUInt64, toNat_ofNat_uint8 (by omega), toNat_ofNat_uint8 (by omega), base, if_neg h₁,
      if_neg h₂, if_pos rfl]
    change ((2288 + 256 * (x / 256 % 256) % 2 ^ 64) % 2 ^ 64 + x % 256) % 2 ^ 64 = _
    omega
  · have hnot : UInt8.ofNat l ≠ 249 := fun h ↦ h₃ (by rw [← hlead, h]; rfl)
    have hbytes : 3 + (UInt8.ofNat l).toNat - 250 = width l := by
      rw [hlead, width, if_neg h₁, if_neg h₂, if_neg h₃]
      omega
    rw [if_neg hnot, hbytes, if_pos (by rw [List.length_append, length_beBytes]; omega),
      List.take_left' (length_beBytes _ _), List.drop_left' (length_beBytes _ _), uintBeFromBytes_eq,
      beNat_beBytes, Nat.mod_eq_of_lt hx, base, if_neg h₁, if_neg h₂, if_neg h₃, Nat.zero_add]

theorem readVarintSqlite4_writeVarintSqlite4 (v : UInt64) (rest : Bytes) :
    readVarintSqlite4 (writeVarintSqlite4 v ++ rest) = some (v, rest) := by
  obtain ⟨x, hx, hv⟩ := base_add v.toNat_lt
  rw [writeVarintSqlite4_eq hv, List.cons_append, readVarintSqlite4_cons (lead_le v.toNat_lt) hx,
    ← hv, UInt64.ofNat_toNat]

theorem writeVarintSqlite4_injective : Function.Injective writeVarintSqlite4 := fun v w h ↦ by
  have hread := readVarintSqlite4_writeVarintSqlite4 v []
  rw [h, readVarintSqlite4_writeVarintSqlite4] at hread
  exact (Prod.mk.inj (Option.some.inj hread)).1.symm

/-! ## Order -/

theorem keepsOrder_writeVarintSqlite4 : KeepsOrder writeVarintSqlite4 := by
  intro v w hvw s t
  rw [UInt64.lt_iff_toNat_lt] at hvw
  obtain ⟨x, hx, hv⟩ := base_add v.toNat_lt
  obtain ⟨y, hy, hw⟩ := base_add w.toNat_lt
  rw [writeVarintSqlite4_eq hv, writeVarintSqlite4_eq hw, List.cons_append, List.cons_append,
    List.cons_lt_cons_iff]
  rcases Nat.lt_or_eq_of_le (lead_mono hvw.le w.toNat_lt) with hlt | heq
  · left
    have hle := lead_le w.toNat_lt
    rw [UInt8.lt_iff_toNat_lt, toNat_ofNat_uint8 (by omega), toNat_ofNat_uint8 (by omega)]
    exact hlt
  · right
    rw [← heq] at hy hw ⊢
    exact ⟨rfl, beBytes_append_lt (by omega) hy s t⟩

private theorem writeVarintSqlite4_ne_nil (v : UInt64) : writeVarintSqlite4 v ≠ [] := by
  obtain ⟨x, hx, hv⟩ := base_add v.toNat_lt
  rw [writeVarintSqlite4_eq hv]
  exact List.cons_ne_nil _ _

/-- **Integer keys.** An integer is read back from exactly what was written for it, no encoding is the
beginning of another one, and the encodings are sorted as the integers are. Keys of a prefix and several
integers, which may end in something else, are injective and sorted as the tuples of the integers are. -/
theorem integer_keys :
    (∀ v rest, readVarintSqlite4 (writeVarintSqlite4 v ++ rest) = some (v, rest)) ∧
    (∀ v w, writeVarintSqlite4 v <+: writeVarintSqlite4 w → v = w) ∧
    (∀ v w, writeVarintSqlite4 v < writeVarintSqlite4 w ↔ v < w) ∧
    ∀ (pre : Bytes) (xs ys : List UInt64),
      (pre ++ xs.flatMap writeVarintSqlite4 = pre ++ ys.flatMap writeVarintSqlite4 ↔ xs = ys) ∧
      (pre ++ xs.flatMap writeVarintSqlite4 < pre ++ ys.flatMap writeVarintSqlite4 ↔ xs < ys) ∧
      (xs.length = ys.length → ∀ s t : Bytes,
        (pre ++ (xs.flatMap writeVarintSqlite4 ++ s) < pre ++ (ys.flatMap writeVarintSqlite4 ++ t) ↔
          xs < ys ∨ xs = ys ∧ s < t)) := by
  refine ⟨readVarintSqlite4_writeVarintSqlite4, fun v w ↦ keepsOrder_writeVarintSqlite4.eq_of_prefix,
    fun v w ↦ keepsOrder_writeVarintSqlite4.lt_iff, fun pre xs ys ↦ ⟨?_, ?_, fun hlength s t ↦ ?_⟩⟩
  · rw [List.append_cancel_left_eq]
    refine ⟨fun heq ↦ ?_, fun heq ↦ congrArg _ heq⟩
    exact keepsOrder_writeVarintSqlite4.flatMap_inj writeVarintSqlite4_ne_nil heq
  · rw [append_lt_append_iff]
    exact keepsOrder_writeVarintSqlite4.flatMap_lt_iff writeVarintSqlite4_ne_nil
  · rw [append_lt_append_iff]
    exact keepsOrder_writeVarintSqlite4.flatMap_append_lt_iff hlength

end CryoNero
