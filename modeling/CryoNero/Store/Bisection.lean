import CryoNero.Store.Arrays

/-!
# Searching a sorted array by halves

The search keeps a part of the array that the place it looks for lies in or right behind, looks at the
middle of the part, and goes on with one of the two halves. An array is sorted for a search when the
elements that are too small come first. No access leaves the array then, and the place that is found is the
end of the elements that are too small.
-/

namespace Store

variable {α : Type} {less : α → Bool} {data : List α}

/-- The loop of `std::lower_bound` over `len` elements from `first` on. -/
def lowerBoundFrom (less : α → Bool) (data : List α) : ℕ → ℕ → ℕ → Except Failure ℕ
  | _, first, 0 => .ok first
  | 0, _, _ + 1 => .error .outOfRange
  | turns + 1, first, len + 1 => do
    let half := (len + 1) / 2
    let x ← readAt data (first + half)
    if less x then lowerBoundFrom less data turns (first + half + 1) (len - half)
    else lowerBoundFrom less data turns first half

/-- `std::lower_bound` -/
def lowerBound (less : α → Bool) (data : List α) : Except Failure ℕ :=
  lowerBoundFrom less data data.length 0 data.length

/-- What is in front of a small element is small. -/
def SortedFor (less : α → Bool) (data : List α) : Prop :=
  data.Pairwise fun x y ↦ less y → less x

/-- How many elements come before the first that is not small. -/
def rank (less : α → Bool) (data : List α) : ℕ := (data.takeWhile less).length

theorem rank_le_length : rank less data ≤ data.length :=
  (List.takeWhile_prefix less).length_le

private theorem SortedFor.less_iff (h : SortedFor less data) {i : ℕ} {x : α} (hx : data[i]? = some x) :
    less x ↔ i < rank less data := by
  induction data generalizing i with
  | nil => simp at hx
  | cons y data ih =>
    obtain ⟨hy, h⟩ := List.pairwise_cons.mp h
    rw [rank, List.takeWhile_cons]
    rcases i with - | i
    · obtain rfl : y = x := by simpa using hx
      split <;> simp_all
    · have hx : data[i]? = some x := by simpa using hx
      split
      · rw [List.length_cons, Nat.add_lt_add_iff_right]
        exact ih h hx
      · have hsmall : ¬less x := fun hless ↦ by
          have := hy x (List.mem_of_getElem? hx) hless
          contradiction
        simpa using hsmall

private theorem lowerBoundFrom_eq (h : SortedFor less data) (turns : ℕ) {first len : ℕ}
    (hturns : len ≤ turns)
    (hfirst : first ≤ rank less data) (hlast : rank less data ≤ first + len)
    (hlen : first + len ≤ data.length) :
    lowerBoundFrom less data turns first len = .ok (rank less data) := by
  induction turns generalizing first len with
  | zero =>
    obtain rfl : len = 0 := by omega
    rw [lowerBoundFrom, show first = rank less data by omega]
  | succ turns ih =>
    rcases len with - | len
    · rw [lowerBoundFrom, show first = rank less data by omega]
    · have hmid : first + (len + 1) / 2 < data.length := by omega
      have hread := List.getElem?_eq_getElem hmid
      have hless := h.less_iff hread
      rw [lowerBoundFrom, readAt_eq_ok.mpr hread, ok_bind]
      split
      · have hsmall := hless.mp ‹_›
        exact ih (by omega) (by omega) (by omega) (by omega)
      · have hlarge := hless.not.mp ‹_›
        exact ih (by omega) hfirst (by omega) (by omega)

/-- **The place that is found.** -/
theorem lowerBound_eq (h : SortedFor less data) : lowerBound less data = .ok (rank less data) := by
  have hle : rank less data ≤ 0 + data.length := (Nat.zero_add data.length).symm ▸ rank_le_length
  apply lowerBoundFrom_eq h data.length (le_refl _) (Nat.zero_le _) hle
  omega

theorem getElem?_rank : data[rank less data]? = data.find? fun x ↦ !less x := by
  induction data with
  | nil => rfl
  | cons y data ih =>
    rw [rank, List.takeWhile_cons, List.find?_cons]
    split
    · simpa [*, rank] using ih
    · simp [*]

end Store
