import Mathlib

/-!
# Items one after the other

Items of different sizes lie in a file without anything between them. Where an item starts is the sum of
the sizes before it. When the file is shorter than its items, the first ones are still whole; how many
they are is `wholeItems`.
-/

namespace Store

variable {α : Type}

/-- The number of items, from the first one on, that end within `size`. -/
def wholeItems : ℕ → List ℕ → ℕ
  | _, [] => 0
  | size, itemSize :: rest => if size < itemSize then 0 else wholeItems (size - itemSize) rest + 1

theorem wholeItems_le_length (size : ℕ) (sizes : List ℕ) : wholeItems size sizes ≤ sizes.length := by
  induction sizes generalizing size with
  | nil => exact Nat.zero_le _
  | cons itemSize rest ih =>
    rw [wholeItems]
    split_ifs
    · exact Nat.zero_le _
    · exact Nat.succ_le_succ (ih _)

/-- A whole item ends within the file. -/
theorem sum_take_le {size : ℕ} {sizes : List ℕ} {i : ℕ} (h : i ≤ wholeItems size sizes) :
    (sizes.take i).sum ≤ size := by
  induction sizes generalizing size i with
  | nil =>
    rw [List.take_nil]
    exact Nat.zero_le _
  | cons itemSize rest ih =>
    rcases i with _ | i
    · exact Nat.zero_le _
    · rw [wholeItems] at h
      split_ifs at h with hlt
      · omega
      · have := ih (Nat.succ_le_succ_iff.mp h)
        rw [List.take_succ_cons, List.sum_cons]
        omega

theorem wholeItems_of_le {size : ℕ} {sizes : List ℕ} (h : sizes.sum ≤ size) :
    wholeItems size sizes = sizes.length := by
  induction sizes generalizing size with
  | nil => rfl
  | cons itemSize rest ih =>
    rw [List.sum_cons] at h
    rw [wholeItems, if_neg (by omega), ih (by omega)]
    rfl

theorem wholeItems_min {size bound : ℕ} {sizes : List ℕ} (h : sizes.sum ≤ bound) :
    wholeItems (min size bound) sizes = wholeItems size sizes := by
  rcases Nat.le_total size bound with hle | hle
  · rw [Nat.min_eq_left hle]
  · rw [Nat.min_eq_right hle, wholeItems_of_le h, wholeItems_of_le (h.trans hle)]

private theorem take_drop_flatten {items : List (List α)} {i : ℕ} (h : i < items.length) :
    (items.flatten.drop ((items.map List.length).take i).sum).take items[i].length = items[i] := by
  rw [List.drop_sum_flatten, List.drop_eq_getElem_cons h, List.flatten_cons, List.take_left]

theorem sum_take_succ {items : List (List α)} {i : ℕ} (h : i < items.length) :
    ((items.map List.length).take (i + 1)).sum =
      ((items.map List.length).take i).sum + items[i].length := by
  rw [List.take_add_one, List.sum_append, List.getElem?_map, List.getElem?_eq_getElem h]
  simp

theorem take_drop_take_flatten {items : List (List α)} {i size : ℕ} (h : i < items.length)
    (hend : ((items.map List.length).take (i + 1)).sum ≤ size) :
    ((items.flatten.take size).drop ((items.map List.length).take i).sum).take items[i].length = items[i] := by
  rw [sum_take_succ h] at hend
  rw [List.drop_take, List.take_take, Nat.min_eq_left (by omega), take_drop_flatten h]

end Store
