import Mathlib

/-!
# Byte streams and in-place readers

A reader fills in an object that already exists. When the stream ends early or holds something
malformed, the reader throws, and the object keeps whatever was assigned before: a failed read does
not leave the object as it was. `Reader` keeps exactly this. It returns the object as it stands
together with the rest of the stream, or with `none` in its place when the read threw.

Two laws connect a reader with a writer `w`:

* `Reads r w x`: reading what was written gives the value back and leaves the bytes that follow;
* `Canonical r w`: whatever a reader accepts is what the writer writes for the value it gives, so
  no value has two encodings.
-/

namespace Seria

abbrev Bytes := List UInt8

/-- A reader of an object of type `σ`, updated in place. -/
abbrev Reader (σ : Type) := σ → Bytes → σ × Option Bytes

variable {σ α : Type}

namespace Reader

/-- The reader that reads nothing. -/
def done : Reader σ := fun v s ↦ (v, some s)

/-- Read with `r`, then with `q`; when `r` throws, `q` is not run. -/
def andThen (r q : Reader σ) : Reader σ := fun v s ↦
  match r v s with
  | (v', some s') => q v' s'
  | (v', none) => (v', none)

/-- Read one part of an object. -/
def on (get : σ → α) (set : α → σ → σ) (r : Reader α) : Reader σ := fun v s ↦
  let p := r (get v) s
  (set p.1 v, p.2)

/-- Throw unless the object read so far satisfies `p`. -/
def require (p : σ → Bool) : Reader σ := fun v s ↦ if p v then (v, some s) else (v, none)

/-- The reader that throws. -/
def fail : Reader σ := fun v _ ↦ (v, none)

/-- Go on with a reader that depends on the object read so far. -/
def bySoFar (r : σ → Reader σ) : Reader σ := fun v s ↦ r v v s

theorem andThen_eq_some {r q : Reader σ} {v v' : σ} {s t : Bytes} :
    r.andThen q v s = (v', some t) ↔ ∃ v₁ s₁, r v s = (v₁, some s₁) ∧ q v₁ s₁ = (v', some t) := by
  unfold andThen
  rcases h : r v s with ⟨v₁, _ | s₁⟩
  · simp
  · simp

theorem andThen_of_some {r q : Reader σ} {v v₁ : σ} {s s₁ : Bytes} (h : r v s = (v₁, some s₁)) :
    r.andThen q v s = q v₁ s₁ := by
  rw [andThen, h]

theorem on_eq_some {get : σ → α} {set : α → σ → σ} {r : Reader α} {v v' : σ} {s t : Bytes} :
    on get set r v s = (v', some t) ↔ ∃ x, r (get v) s = (x, some t) ∧ v' = set x v := by
  unfold on
  rcases h : r (get v) s with ⟨x, o⟩
  constructor
  · intro h'
    obtain ⟨h₁, h₂⟩ := Prod.mk.inj h'
    exact ⟨x, by rw [← h₂], h₁.symm⟩
  · rintro ⟨x', hx, rfl⟩
    obtain ⟨rfl, rfl⟩ := Prod.mk.inj hx
    rfl

theorem on_of_some {get : σ → α} {set : α → σ → σ} {r : Reader α} {v : σ} {x : α} {s t : Bytes}
    (h : r (get v) s = (x, some t)) : on get set r v s = (set x v, some t) :=
  on_eq_some.mpr ⟨x, h, rfl⟩

theorem require_eq_some {p : σ → Bool} {v v' : σ} {s t : Bytes} :
    require p v s = (v', some t) ↔ p v = true ∧ v' = v ∧ t = s := by
  unfold require
  split_ifs with h <;> simp [h, eq_comm]

end Reader

/-- Reading what was written for `x`, from the object `v`, gives `x` back. -/
def Reads (r : Reader σ) (w : σ → Bytes) (v x : σ) : Prop :=
  ∀ rest, r v (w x ++ rest) = (x, some rest)

/-- A reader accepts only what the writer writes. -/
def Canonical (r : Reader σ) (w : σ → Bytes) : Prop :=
  ∀ v s x rest, r v s = (x, some rest) → s = w x ++ rest

/-! ## Variable-length integers

Seven bits a byte, lowest first; every byte but the last has its high bit set. The reader refuses
an integer that does not fit `w` bits and one that ends in a superfluous zero byte. -/

/-- `write_varint` with at most `n` continuation bytes. -/
def varintBytes : ℕ → ℕ → Bytes
  | 0, i => [UInt8.ofNat i]
  | n + 1, i => if 128 ≤ i then UInt8.ofNat (i % 128 + 128) :: varintBytes n (i / 128)
      else [UInt8.ofNat i]

/-- `write_varint`: ten bytes hold every 64-bit integer. -/
def writeVarint (i : ℕ) : Bytes := varintBytes 9 i

/-- The loop of `read_varint` for a `w`-bit integer: `shift` bits have been read into `temp`. -/
def readVarintFrom (w shift temp : ℕ) : Bytes → Option (ℕ × Bytes)
  | [] => none
  | piece :: rest =>
    if w - 7 ≤ shift ∧ 2 ^ (w - shift) ≤ piece.toNat then none
    else
      -- the new bits lie above all bits of `temp`
      let temp' := temp + piece.toNat % 128 * 2 ^ shift
      if piece.toNat < 128 then
        if piece.toNat = 0 ∧ shift ≠ 0 then none else some (temp', rest)
      else readVarintFrom w (shift + 7) temp' rest

/-- `read_varint` for a `w`-bit integer. -/
def readVarint (w : ℕ) (s : Bytes) : Option (ℕ × Bytes) := readVarintFrom w 0 0 s

theorem toNat_ofNat_uint8 {n : ℕ} (h : n < 256) : (UInt8.ofNat n).toNat = n := by
  simp [Nat.mod_eq_of_lt h]

private theorem readVarintFrom_last {w i shift : ℕ} (temp : ℕ) (rest : Bytes) (hi : i < 128)
    (hw : i * 2 ^ shift < 2 ^ w) (hz : shift = 0 ∨ 0 < i) :
    readVarintFrom w shift temp (UInt8.ofNat i :: rest) = some (temp + i * 2 ^ shift, rest) := by
  have hb : (UInt8.ofNat i).toNat = i := toNat_ofNat_uint8 (by omega)
  have hfit : ¬(w - 7 ≤ shift ∧ 2 ^ (w - shift) ≤ i) := by
    rintro ⟨-, hle⟩
    have h1 : 2 ^ (w - shift) * 2 ^ shift ≤ i * 2 ^ shift := Nat.mul_le_mul_right _ hle
    have h2 : 2 ^ w ≤ 2 ^ (w - shift) * 2 ^ shift := by
      rw [← pow_add]
      exact Nat.pow_le_pow_right (by omega) (by omega)
    omega
  simp only [readVarintFrom, hb]
  rw [if_neg hfit, if_pos hi, if_neg (by omega), Nat.mod_eq_of_lt hi]

/-- Reading back what was written, at any stage of the loop. The value is zero only in a one-byte
encoding, which is what keeps the check for a superfluous zero byte from firing. -/
private theorem readVarintFrom_varintBytes (w : ℕ) (rest : Bytes) : ∀ (n i shift temp : ℕ),
    i < 128 ^ (n + 1) → i * 2 ^ shift < 2 ^ w → (shift = 0 ∨ 0 < i) →
    readVarintFrom w shift temp (varintBytes n i ++ rest) = some (temp + i * 2 ^ shift, rest) := by
  intro n
  induction n with
  | zero =>
    intro i shift temp hi hw hz
    exact readVarintFrom_last temp rest (by simpa using hi) hw hz
  | succ n ih =>
    intro i shift temp hi hw hz
    by_cases hbig : 128 ≤ i
    · have hb : (UInt8.ofNat (i % 128 + 128)).toNat = i % 128 + 128 :=
        toNat_ofNat_uint8 (by omega)
      have hsplit : i = i % 128 + 128 * (i / 128) := (Nat.mod_add_div i 128).symm
      have hq : 0 < i / 128 := Nat.div_pos hbig (by omega)
      have hpow : 2 ^ (shift + 7) = 128 * 2 ^ shift := by rw [pow_add]; ring
      have hlt : 128 * 2 ^ shift ≤ i * 2 ^ shift := Nat.mul_le_mul_right _ hbig
      have hsw : shift + 7 < w := by
        by_contra hcon
        have : 2 ^ w ≤ 2 ^ (shift + 7) := Nat.pow_le_pow_right (by omega) (by omega)
        omega
      have hrest : i / 128 * 2 ^ (shift + 7) ≤ i * 2 ^ shift := by
        rw [hpow, ← mul_assoc]
        exact Nat.mul_le_mul_right _ (Nat.div_mul_le_self i 128)
      simp only [varintBytes, if_pos hbig, List.cons_append, readVarintFrom, hb]
      rw [if_neg (by omega), if_neg (by omega), ih (i / 128) (shift + 7) _
        (Nat.div_lt_of_lt_mul (by rw [← pow_succ']; exact hi)) (by omega) (Or.inr hq)]
      congr 2
      have hmod : (i % 128 + 128) % 128 = i % 128 := by omega
      rw [hmod, hpow]
      calc temp + i % 128 * 2 ^ shift + i / 128 * (128 * 2 ^ shift)
          = temp + (i % 128 + 128 * (i / 128)) * 2 ^ shift := by ring
        _ = temp + i * 2 ^ shift := by rw [← hsplit]
    · rw [varintBytes, if_neg hbig]
      exact readVarintFrom_last temp rest (by omega) hw hz

theorem readVarint_writeVarint {w i : ℕ} (hw : w ≤ 64) (hi : i < 2 ^ w) (rest : Bytes) :
    readVarint w (writeVarint i ++ rest) = some (i, rest) := by
  have hi64 : i < 2 ^ 64 := hi.trans_le (Nat.pow_le_pow_right (by omega) hw)
  rw [readVarint, writeVarint, readVarintFrom_varintBytes w rest 9 i 0 0 (by omega)
    (by simpa using hi) (Or.inl rfl)]
  simp

private theorem varintBytes_of_lt {n i : ℕ} (h : i < 128) : varintBytes n i = [UInt8.ofNat i] := by
  cases n with
  | zero => rfl
  | succ n => rw [varintBytes, if_neg (by omega)]

/-- What the reader accepts is what the writer writes. The fuel `n` is enough as soon as it covers
the bits of `w` that are still to come. -/
private theorem eq_varintBytes_of_readVarintFrom {w : ℕ} :
    ∀ (s : Bytes) (n shift temp v : ℕ) (rest : Bytes),
    w ≤ shift + 7 * (n + 1) → shift < w → readVarintFrom w shift temp s = some (v, rest) →
    ∃ i, s = varintBytes n i ++ rest ∧ v = temp + i * 2 ^ shift ∧ i * 2 ^ shift < 2 ^ w ∧
      (shift = 0 ∨ 0 < i) := by
  intro s
  induction s with
  | nil => intro n shift temp v rest _ _ h; cases h
  | cons piece s ih =>
    intro n shift temp v rest hn hsw h
    rw [readVarintFrom] at h
    split_ifs at h with hover hlast hzero
    · -- the last byte
      obtain ⟨rfl, rfl⟩ := Prod.mk.inj (Option.some.inj h)
      refine ⟨piece.toNat, ?_, by rw [Nat.mod_eq_of_lt hlast], ?_, by omega⟩
      · rw [varintBytes_of_lt hlast]
        simp
      · have hsplit : 2 ^ w = 2 ^ (w - shift) * 2 ^ shift := by
          rw [← pow_add, Nat.sub_add_cancel hsw.le]
        rw [hsplit]
        refine Nat.mul_lt_mul_of_pos_right ?_ (by positivity)
        by_cases hs : w - 7 ≤ shift
        · by_contra hcon
          exact hover ⟨hs, by omega⟩
        · calc piece.toNat < 2 ^ 7 := hlast
            _ ≤ 2 ^ (w - shift) := Nat.pow_le_pow_right (by omega) (by omega)
    · -- a continuation byte: the limit for the last bits cannot have been reached
      have hs : ¬w - 7 ≤ shift := by
        intro hs
        have hle : 2 ^ (w - shift) ≤ 2 ^ 7 := Nat.pow_le_pow_right (by omega) (by omega)
        exact hover ⟨hs, by omega⟩
      obtain ⟨m, rfl⟩ : ∃ m, n = m + 1 := ⟨n - 1, by omega⟩
      obtain ⟨i, rfl, hv, hi, hpos⟩ := ih m (shift + 7) _ v rest (by omega) (by omega) h
      have hpow : 2 ^ (shift + 7) = 128 * 2 ^ shift := by rw [pow_add]; ring
      have hpiece : piece.toNat < 256 := piece.toNat_lt
      have hdiv : (piece.toNat % 128 + 128 * i) / 128 = i := by omega
      have hmod : (piece.toNat % 128 + 128 * i) % 128 + 128 = piece.toNat := by omega
      refine ⟨piece.toNat % 128 + 128 * i, ?_, ?_, ?_, Or.inr (by omega)⟩
      · rw [varintBytes, if_pos (by omega), hdiv, hmod]
        simp
      · rw [hv, hpow]
        ring
      · -- the low seven bits fit below the bits that follow
        have hlow : piece.toNat % 128 * 2 ^ shift < 2 ^ (shift + 7) := by
          rw [hpow]
          exact Nat.mul_lt_mul_of_pos_right (Nat.mod_lt _ (by omega)) (by positivity)
        have hsplit : 2 ^ w = 2 ^ (w - (shift + 7)) * 2 ^ (shift + 7) := by
          rw [← pow_add]
          congr 1
          omega
        have hi' : i + 1 ≤ 2 ^ (w - (shift + 7)) := by
          rw [hsplit] at hi
          exact Nat.lt_of_mul_lt_mul_right hi
        calc (piece.toNat % 128 + 128 * i) * 2 ^ shift
            = piece.toNat % 128 * 2 ^ shift + i * 2 ^ (shift + 7) := by rw [hpow]; ring
          _ < 2 ^ (shift + 7) + i * 2 ^ (shift + 7) := by omega
          _ = (i + 1) * 2 ^ (shift + 7) := by ring
          _ ≤ 2 ^ w := by rw [hsplit]; exact Nat.mul_le_mul_right _ hi'

theorem eq_writeVarint_of_readVarint {w v : ℕ} {s rest : Bytes} (hw : w ≤ 64) (hw' : 0 < w)
    (h : readVarint w s = some (v, rest)) : s = writeVarint v ++ rest ∧ v < 2 ^ w := by
  obtain ⟨i, hs, hv, hi, -⟩ :=
    eq_varintBytes_of_readVarintFrom s 9 0 0 v rest (by omega) hw' h
  have hvi : v = i := by simpa using hv
  subst hvi
  exact ⟨hs, by simpa using hi⟩

theorem length_varintBytes_le (n i : ℕ) : (varintBytes n i).length ≤ n + 1 := by
  induction n generalizing i with
  | zero => simp [varintBytes]
  | succ n ih =>
    rw [varintBytes]
    split_ifs
    · simpa using ih (i / 128)
    · simp

theorem varintBytes_ne_nil (n i : ℕ) : varintBytes n i ≠ [] := by
  cases n with
  | zero => simp [varintBytes]
  | succ n =>
    rw [varintBytes]
    split_ifs <;> simp

/-! ## Integers of a fixed type -/

/-- The reader of an integer of `w` bits, given by the constructor of its type. A reader that
throws leaves the integer unchanged. -/
def readInt (w : ℕ) (ofNat : ℕ → α) : Reader α := fun v s ↦
  match readVarint w s with
  | some (n, rest) => (ofNat n, some rest)
  | none => (v, none)

private theorem readInt_eq_some {w : ℕ} {ofNat : ℕ → α} {v x : α} {s rest : Bytes} :
    readInt w ofNat v s = (x, some rest) ↔ ∃ n, readVarint w s = some (n, rest) ∧ ofNat n = x := by
  unfold readInt
  rcases h : readVarint w s with _ | ⟨n, t⟩
  · simp
  · constructor
    · intro h'
      obtain ⟨rfl, h₂⟩ := Prod.mk.inj h'
      exact ⟨n, by rw [Option.some.inj h₂], rfl⟩
    · rintro ⟨m, hm, rfl⟩
      obtain ⟨rfl, rfl⟩ := Prod.mk.inj (Option.some.inj hm)
      rfl

section Int

variable {w : ℕ} {ofNat : ℕ → α} {toNat : α → ℕ}

theorem reads_readInt (hw : w ≤ 64) (hlt : ∀ x, toNat x < 2 ^ w) (hof : ∀ x, ofNat (toNat x) = x)
    (v x : α) : Reads (readInt w ofNat) (fun y ↦ writeVarint (toNat y)) v x := by
  intro rest
  exact readInt_eq_some.mpr ⟨toNat x, readVarint_writeVarint hw (hlt x) rest, hof x⟩

theorem canonical_readInt (hw : w ≤ 64) (hw' : 0 < w)
    (hof : ∀ n, n < 2 ^ w → toNat (ofNat n) = n) :
    Canonical (readInt w ofNat) fun y ↦ writeVarint (toNat y) := by
  intro v s x rest h
  obtain ⟨n, hn, rfl⟩ := readInt_eq_some.mp h
  obtain ⟨hs, hlt⟩ := eq_writeVarint_of_readVarint hw hw' hn
  show s = writeVarint (toNat (ofNat n)) ++ rest
  rw [hof n hlt]
  exact hs

end Int

def readU8 : Reader UInt8 := readInt 8 UInt8.ofNat
def readU32 : Reader UInt32 := readInt 32 UInt32.ofNat
def readU64 : Reader UInt64 := readInt 64 UInt64.ofNat

def writeU8 (x : UInt8) : Bytes := writeVarint x.toNat
def writeU16 (x : UInt16) : Bytes := writeVarint x.toNat
def writeU32 (x : UInt32) : Bytes := writeVarint x.toNat
def writeU64 (x : UInt64) : Bytes := writeVarint x.toNat

theorem reads_readU8 (v x : UInt8) : Reads readU8 writeU8 v x :=
  reads_readInt (by omega) UInt8.toNat_lt (fun _ ↦ UInt8.ofNat_toNat) v x

theorem reads_readU32 (v x : UInt32) : Reads readU32 writeU32 v x :=
  reads_readInt (by omega) UInt32.toNat_lt (fun _ ↦ UInt32.ofNat_toNat) v x

theorem reads_readU64 (v x : UInt64) : Reads readU64 writeU64 v x :=
  reads_readInt (by omega) UInt64.toNat_lt (fun _ ↦ UInt64.ofNat_toNat) v x

theorem canonical_readU8 : Canonical readU8 writeU8 :=
  canonical_readInt (by omega) (by omega) fun _ h ↦ UInt8.toNat_ofNat_of_lt h

theorem canonical_readU32 : Canonical readU32 writeU32 :=
  canonical_readInt (by omega) (by omega) fun _ h ↦ UInt32.toNat_ofNat_of_lt h

theorem canonical_readU64 : Canonical readU64 writeU64 :=
  canonical_readInt (by omega) (by omega) fun _ h ↦ UInt64.toNat_ofNat_of_lt h

end Seria
