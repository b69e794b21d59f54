import CryoNero.Seria.Stream
import CryoNero.Store.Arrays

/-!
# Reading an array at a position

A stream over an array is the array and a position in it. Bytes are copied from the array, which is only
allowed inside it: here every copy is checked, and one that goes beyond the end is told apart from input
that is refused.

A reader at a position *follows* a reader of the bytes that are left when both give the same value and leave
the same bytes, or both refuse (`Follows`). So it never goes beyond the end. Readers that are composed of
such readers are such readers (`Follows.bind`).
-/

namespace Seria

open Store

structure MemoryInputStream where
  buffer : Bytes
  inPosition : ℕ
  deriving DecidableEq, Repr

namespace MemoryInputStream

variable {α β : Type}

def size (m : MemoryInputStream) : ℕ := m.buffer.length - m.inPosition

def readSome (size : ℕ) (m : MemoryInputStream) : Except Failure (Bytes × MemoryInputStream) := do
  ensure (m.inPosition ≤ m.buffer.length) .refused
  let size := min size (m.buffer.length - m.inPosition)
  let data ← copyFrom m.buffer m.inPosition size
  return (data, { m with inPosition := m.inPosition + size })

/-- The loop of `read`. -/
def read (count : ℕ) (m : MemoryInputStream) : Except Failure (Bytes × MemoryInputStream) :=
  if count = 0 then .ok ([], m)
  else
    match readSome count m with
    | .error e => .error e
    | .ok (data, m) =>
      if data.length = 0 then .error .refused
      else do
        let more ← read (count - data.length) m
        return (data ++ more.1, more.2)
termination_by count

def readByte (m : MemoryInputStream) : Except Failure (UInt8 × MemoryInputStream) := do
  let data ← m.read 1
  return (data.1.getD 0 0, data.2)

/-- The loop of `read_varint` for a `w`-bit integer, which has no more than `rounds` bytes: `shift` bits
have been read into `temp`. -/
def readVarintFrom (w : ℕ) : ℕ → ℕ → ℕ → MemoryInputStream → Except Failure (ℕ × MemoryInputStream)
  | 0, _, _, _ => .error .outOfRange
  | rounds + 1, shift, temp, m => do
    let piece ← m.readByte
    ensure (¬(w - 7 ≤ shift ∧ 2 ^ (w - shift) ≤ piece.1.toNat)) .refused
    let temp := temp + piece.1.toNat % 128 * 2 ^ shift
    if piece.1.toNat < 128 then do
      ensure (¬(piece.1.toNat = 0 ∧ shift ≠ 0)) .refused
      return (temp, piece.2)
    else readVarintFrom w rounds (shift + 7) temp piece.2

def readVarint64 (m : MemoryInputStream) : Except Failure (ℕ × MemoryInputStream) :=
  readVarintFrom 64 10 0 0 m

/-- A string with its length before it. -/
def readString (m : MemoryInputStream) : Except Failure (Bytes × MemoryInputStream) := do
  let size ← m.readVarint64
  size.2.read size.1

/-! ## Readers that follow the bytes that are left -/

def Valid (m : MemoryInputStream) : Prop := m.inPosition ≤ m.buffer.length

/-- The bytes that are left. -/
def rest (m : MemoryInputStream) : Bytes := m.buffer.drop m.inPosition

theorem size_eq_zero_iff (m : MemoryInputStream) : m.size = 0 ↔ m.rest = [] :=
  Nat.sub_eq_zero_iff_le.trans List.drop_eq_nil_iff.symm

private theorem length_rest (m : MemoryInputStream) : m.rest.length = m.size := List.length_drop

/-- What is read at a position, and what is read of the bytes that are left. -/
def Follows (x : Except Failure (α × MemoryInputStream)) (y : Option (α × Bytes)) : Prop :=
  (∃ a m, y = some (a, m.rest) ∧ x = .ok (a, m) ∧ m.Valid) ∨ y = none ∧ x = .error .refused

theorem Follows.ok {m : MemoryInputStream} (hm : m.Valid) (a : α) :
    Follows (.ok (a, m)) (some (a, m.rest)) := .inl ⟨a, m, rfl, rfl, hm⟩

theorem Follows.refused : Follows (α := α) (.error .refused) none := .inr ⟨rfl, rfl⟩

theorem Follows.bind {x : Except Failure (α × MemoryInputStream)} {y : Option (α × Bytes)}
    {f : α × MemoryInputStream → Except Failure (β × MemoryInputStream)}
    {g : α × Bytes → Option (β × Bytes)} (h : Follows x y)
    (hf : ∀ a m, Valid m → Follows (f (a, m)) (g (a, m.rest))) : Follows (x >>= f) (y.bind g) := by
  rcases h with ⟨a, m, rfl, rfl, hm⟩ | ⟨rfl, rfl⟩
  · exact hf a m hm
  · exact .inr ⟨rfl, rfl⟩

theorem Follows.map {x : Except Failure (α × MemoryInputStream)} {y : Option (α × Bytes)} (f : α → β)
    (h : Follows x y) :
    Follows (do let p ← x; return (f p.1, p.2)) (y.map fun p ↦ (f p.1, p.2)) := by
  rw [Option.map_eq_bind]
  exact h.bind fun a m hm ↦ .ok hm (f a)

theorem Follows.ensure {c : Prop} [Decidable c] {x : Except Failure (α × MemoryInputStream)}
    {y : Option (α × Bytes)} (h : c → Follows x y) :
    Follows (do Store.ensure c .refused; x) (if c then y else none) := by
  by_cases hc : c
  · rw [if_pos hc, ensure_pos _ hc]
    exact h hc
  · rw [if_neg hc, Store.ensure, if_neg hc]
    exact .refused

theorem Follows.ensure_not {c : Prop} [Decidable c] {x : Except Failure (α × MemoryInputStream)}
    {y : Option (α × Bytes)} (h : ¬c → Follows x y) :
    Follows (do Store.ensure (¬c) .refused; x) (if c then none else y) := by
  rw [← ite_not]
  exact .ensure h

private theorem readSome_eq {m : MemoryInputStream} (hm : m.Valid) (size : ℕ) :
    m.readSome size = .ok (m.rest.take (min size m.rest.length),
      { m with inPosition := m.inPosition + min size m.rest.length }) := by
  have hle : m.inPosition ≤ m.buffer.length := hm
  have hfits : m.inPosition + min size (m.buffer.length - m.inPosition) ≤ m.buffer.length := by omega
  rw [readSome, ensure_pos _ hle, ok_bind]
  dsimp only
  rw [copyFrom_of_le hfits, length_rest]
  rfl

private theorem rest_advance (m : MemoryInputStream) (n : ℕ) :
    MemoryInputStream.rest { m with inPosition := m.inPosition + n } = m.rest.drop n :=
  List.drop_drop.symm

private theorem valid_advance {m : MemoryInputStream} (hm : m.Valid) {n : ℕ} (h : n ≤ m.rest.length) :
    MemoryInputStream.Valid { m with inPosition := m.inPosition + n } := by
  have hle : m.inPosition ≤ m.buffer.length := hm
  have hsize : m.rest.length = m.buffer.length - m.inPosition := length_rest m
  change m.inPosition + n ≤ m.buffer.length
  omega

/-- **Spec of `read`.** It gets all the bytes at once, or comes to the end and refuses. -/
theorem follows_read {m : MemoryInputStream} (hm : m.Valid) (count : ℕ) :
    Follows (m.read count)
      (if count ≤ m.rest.length then some (m.rest.take count, m.rest.drop count) else none) := by
  by_cases hzero : count = 0
  · subst hzero
    rw [read, if_pos rfl, if_pos (Nat.zero_le _)]
    exact .ok hm []
  rw [read, if_neg hzero, readSome_eq hm]
  dsimp only
  by_cases hfits : count ≤ m.rest.length
  · rw [Nat.min_eq_left hfits, List.length_take_of_le hfits, if_neg hzero, Nat.sub_self, read, if_pos rfl,
      if_pos hfits, ok_bind, List.append_nil, ← rest_advance]
    exact .ok (valid_advance hm hfits) _
  · rw [Nat.min_eq_right (Nat.le_of_not_le hfits), List.take_length, if_neg hfits]
    by_cases hempty : m.rest.length = 0
    · rw [if_pos hempty]
      exact .refused
    · -- the next round finds the end
      have hend : MemoryInputStream.rest { m with inPosition := m.inPosition + m.rest.length } = [] := by
        rw [rest_advance, List.drop_length]
      rw [if_neg hempty, read, if_neg (by omega), readSome_eq (valid_advance hm (le_refl _)), hend,
        List.take_nil]
      exact .refused

theorem follows_readByte {m : MemoryInputStream} (hm : m.Valid) :
    Follows m.readByte (match m.rest with
      | [] => none
      | c :: s => some (c, s)) := by
  have hread := follows_read hm 1
  have hbyte := hread.bind (f := fun data ↦ .ok (data.1.getD 0 0, data.2))
    (g := fun data ↦ some (data.1.getD 0 0, data.2)) fun data m hm ↦ .ok hm _
  rcases hrest : m.rest with _ | ⟨c, s⟩
  · rw [hrest] at hbyte
    exact hbyte
  · have hone : 1 ≤ (c :: s).length := Nat.succ_pos _
    rw [hrest, if_pos hone] at hbyte
    exact hbyte

/-- **Spec of `read_varint`.** Ten rounds are enough for 64 bits. -/
private theorem follows_readVarintFrom {w rounds shift temp : ℕ} (hw : w ≤ shift + 7 * rounds)
    (hshift : shift < w)
    {m : MemoryInputStream} (hm : m.Valid) :
    Follows (readVarintFrom w rounds shift temp m) (Seria.readVarintFrom w shift temp m.rest) := by
  induction rounds generalizing shift temp m with
  | zero => omega
  | succ rounds ih =>
    have hbyte := (follows_readByte hm).bind (f := fun piece ↦ do
      Store.ensure (¬(w - 7 ≤ shift ∧ 2 ^ (w - shift) ≤ piece.1.toNat)) .refused
      let temp := temp + piece.1.toNat % 128 * 2 ^ shift
      if piece.1.toNat < 128 then do
        Store.ensure (¬(piece.1.toNat = 0 ∧ shift ≠ 0)) .refused
        return (temp, piece.2)
      else readVarintFrom w rounds (shift + 7) temp piece.2)
      (g := fun piece ↦ Seria.readVarintFrom w shift temp (piece.1 :: piece.2)) fun c m hm ↦ ?_
    · rw [readVarintFrom]
      rcases hrest : m.rest with _ | ⟨c, s⟩
      · rw [hrest] at hbyte
        exact hbyte
      · rw [hrest] at hbyte
        exact hbyte
    · rw [Seria.readVarintFrom]
      dsimp only
      apply Follows.ensure_not
      intro hgoes
      by_cases hlast : c.toNat < 128
      · rw [if_pos hlast, if_pos hlast]
        apply Follows.ensure_not
        exact fun _ ↦ .ok hm _
      · rw [if_neg hlast, if_neg hlast]
        have hnext : shift + 7 < w := by
          by_contra hge
          have hle : 2 ^ (w - shift) ≤ 2 ^ 7 := Nat.pow_le_pow_right (by omega) (by omega)
          exact hgoes ⟨by omega, by omega⟩
        exact ih (by omega) hnext hm

theorem follows_readVarint64 {m : MemoryInputStream} (hm : m.Valid) :
    Follows m.readVarint64 (Seria.readVarint 64 m.rest) :=
  follows_readVarintFrom (by omega) (by omega) hm

/-- **Spec of a string.** -/
theorem follows_readString {m : MemoryInputStream} (hm : m.Valid) :
    Follows m.readString ((Seria.readVarint 64 m.rest).bind fun size ↦
      if size.1 ≤ size.2.length then some (size.2.take size.1, size.2.drop size.1) else none) :=
  (follows_readVarint64 hm).bind fun size _ hm ↦ follows_read hm size

end MemoryInputStream

end Seria
