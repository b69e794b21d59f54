import Mathlib.Data.List.Basic
import Mathlib.Logic.Function.Iterate
import Mathlib.Tactic.Ring

/-!
# Merkle trees

A level of the tree is a list, and the level above it joins its elements in pairs with any operation. Over
`2 ^ d` leaves the tree has `d` levels above them, and its root is what the last of these holds.

The first leaf is paired with its sibling, the result with the sibling of their parent, and so on up to the
root. So the siblings on this way are all that is needed to compute the root from the first leaf. They can
be collected without knowing the first leaf: its ancestors are the heads of the levels, and each level
without its head is computed from the level below without its head and its sibling.

With any other number of leaves, between `2 ^ d` and `2 ^ (d + 1)`, the last ones are joined first, as many
as it takes to have `2 ^ d` of them (`fullLevel`).
-/

namespace Store

variable {α : Type} (op : α → α → α)

/-- The elements joined in consecutive pairs. One that is left over is dropped. -/
def pairUp : List α → List α
  | a :: b :: rest => op a b :: pairUp rest
  | _ => []

@[simp] theorem pairUp_cons_cons (a b : α) (rest : List α) :
    pairUp op (a :: b :: rest) = op a b :: pairUp op rest := rfl

theorem length_pairUp (xs : List α) : (pairUp op xs).length = xs.length / 2 := by
  induction xs using pairUp.induct with
  | case1 a b rest ih =>
    rw [pairUp, List.length_cons, ih]
    simp only [List.length_cons]
    omega
  | case2 xs hxs =>
    have hshort : xs.length < 2 := by
      rcases xs with - | ⟨a, - | ⟨b, rest⟩⟩
      · simp
      · simp
      · exact absurd rfl (hxs a b rest)
    rw [pairUp, List.length_nil, Nat.div_eq_of_lt hshort]
    exact hxs

theorem exists_cons_cons {xs : List α} {n : ℕ} (h : xs.length = 2 * (n + 1)) :
    ∃ a b rest, xs = a :: b :: rest ∧ rest.length = 2 * n := by
  rcases xs with - | ⟨a, - | ⟨b, rest⟩⟩
  · rw [List.length_nil] at h
    omega
  · rw [List.length_singleton] at h
    omega
  · rw [List.length_cons, List.length_cons] at h
    exact ⟨a, b, rest, rfl, by omega⟩

/-! ## Siblings -/

/-- The siblings that the first leaf and its ancestors have, the one nearest to the root first. What is
given are the other leaves. -/
def siblings : ℕ → List α → List α
  | d + 1, s :: rest => siblings d (pairUp op rest) ++ [s]
  | _, _ => []

theorem length_rest_of_siblings {d : ℕ} {s : α} {rest : List α}
    (h : (s :: rest).length = 2 ^ (d + 1) - 1) :
    rest.length = 2 * (2 ^ d - 1) ∧ (pairUp op rest).length = 2 ^ d - 1 := by
  have hpow : 2 ^ (d + 1) = 2 * 2 ^ d := by ring
  have hrest : rest.length = 2 * (2 ^ d - 1) := by
    rw [List.length_cons] at h
    omega
  rw [length_pairUp]
  omega

theorem length_siblings {d : ℕ} {others : List α} (h : others.length = 2 ^ d - 1) :
    (siblings op d others).length = d := by
  induction d generalizing others with
  | zero => rfl
  | succ d ih =>
    match others, h with
    | s :: rest, h =>
      rw [siblings, List.length_append, ih (length_rest_of_siblings op h).2]
      rfl
    | [], h =>
      have := Nat.one_lt_two_pow (Nat.succ_ne_zero d)
      rw [List.length_nil] at h
      omega

/-- **The root from the first leaf.** The siblings are joined to it one after another, the last of them
first, each from the right. -/
theorem root_eq_foldr_siblings {d : ℕ} (leaf : α) {others : List α} (h : others.length = 2 ^ d - 1) :
    (pairUp op)^[d] (leaf :: others) = [(siblings op d others).foldr (fun s acc ↦ op acc s) leaf] := by
  induction d generalizing leaf others with
  | zero =>
    rw [List.length_eq_zero_iff.mp h]
    rfl
  | succ d ih =>
    match others, h with
    | s :: rest, h =>
      rw [Function.iterate_succ_apply, pairUp_cons_cons, ih (op leaf s) (length_rest_of_siblings op h).2,
        siblings, List.foldr_append]
      rfl
    | [], h =>
      have := Nat.one_lt_two_pow (Nat.succ_ne_zero d)
      rw [List.length_nil] at h
      omega

/-! ## Any number of leaves -/

/-- The level of `2 ^ d` elements over at least so many leaves and at most twice as many. -/
def fullLevel (d : ℕ) (leaves : List α) : List α :=
  leaves.take (2 * 2 ^ d - leaves.length) ++ pairUp op (leaves.drop (2 * 2 ^ d - leaves.length))

theorem length_fullLevel {d : ℕ} {leaves : List α} (hle : 2 ^ d ≤ leaves.length)
    (hge : leaves.length ≤ 2 * 2 ^ d) : (fullLevel op d leaves).length = 2 ^ d := by
  rw [fullLevel, List.length_append, length_pairUp, List.length_take, List.length_drop]
  omega

theorem fullLevel_cons {d : ℕ} {leaf : α} {others : List α} (h : (leaf :: others).length < 2 * 2 ^ d) :
    fullLevel op d (leaf :: others) = leaf :: (others.take (2 * 2 ^ d - (others.length + 1) - 1) ++
      pairUp op ((leaf :: others).drop (2 * 2 ^ d - (others.length + 1)))) := by
  rw [List.length_cons] at h
  obtain ⟨k, hk⟩ : ∃ k, 2 * 2 ^ d - (others.length + 1) = k + 1 :=
    ⟨2 * 2 ^ d - (others.length + 1) - 1, by omega⟩
  rw [fullLevel, List.length_cons, hk, List.take_succ_cons, Nat.add_sub_cancel, List.cons_append]

/-- Of a power of two of leaves, two levels can be taken for the full one. The root is the same. -/
theorem iterate_fullLevel_succ {d : ℕ} {leaves : List α} (h : leaves.length = 2 ^ (d + 1)) :
    (pairUp op)^[d + 1] (fullLevel op (d + 1) leaves) = (pairUp op)^[d] (fullLevel op d leaves) := by
  have hpow : 2 ^ (d + 1) = 2 * 2 ^ d := by ring
  have hall : fullLevel op (d + 1) leaves = leaves := by
    rw [fullLevel, h, List.take_of_length_le (by omega), List.drop_of_length_le (by omega)]
    exact List.append_nil leaves
  have hpairs : fullLevel op d leaves = pairUp op leaves := by
    rw [fullLevel, h, hpow, Nat.sub_self, List.take_zero, List.nil_append, List.drop_zero]
  rw [Function.iterate_succ_apply, hall, hpairs]

end Store
