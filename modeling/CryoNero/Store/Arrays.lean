import CryoNero.Store.Outcome
import Mathlib.Logic.Nontrivial.Basic

/-!
# Arrays whose accesses are checked

A program that reads and writes arrays by index may go beyond their ends. Here it stops when it does, and
stopping so is told apart from refusing its input: a program that gives a result, or refuses, has stayed
inside its arrays.

An array that is filled from its beginning on is what has been written, then the room that is left. The
rules for writing are stated for arrays of this form.
-/

namespace Store

/-- Why nothing is returned: the input was refused, or an access or a loop went beyond its bound. -/
inductive Failure
  | refused
  | outOfRange
  deriving DecidableEq, Repr

variable {α : Type}

def readAt (data : List α) (i : ℕ) : Except Failure α := orFail .outOfRange data[i]?

def writeAt (data : List α) (i : ℕ) (x : α) : Except Failure (List α) := do
  ensure (i < data.length) .outOfRange
  return data.set i x

/-- `memcpy` from a place in an array. -/
def copyFrom (data : List α) (pos size : ℕ) : Except Failure (List α) := do
  ensure (pos + size ≤ data.length) .outOfRange
  return (data.drop pos).take size

/-- `memcpy` to a place in an array. -/
def copyTo (data : List α) (pos : ℕ) (xs : List α) : Except Failure (List α) := do
  ensure (pos + xs.length ≤ data.length) .outOfRange
  return data.take pos ++ (xs ++ data.drop (pos + xs.length))

theorem readAt_eq_ok {data : List α} {i : ℕ} {x : α} : readAt data i = .ok x ↔ data[i]? = some x :=
  orFail_eq_ok

theorem readAt_of_le {data : List α} {i : ℕ} (h : data.length ≤ i) : readAt data i = .error .outOfRange := by
  rw [readAt, List.getElem?_eq_none h]
  rfl

theorem readAt_append (out tail : List α) (x : α) : readAt (out ++ x :: tail) out.length = .ok x := by
  rw [readAt_eq_ok, List.getElem?_append_right (le_refl _), Nat.sub_self]
  rfl

theorem writeAt_append (out tail : List α) (x y : α) :
    writeAt (out ++ x :: tail) out.length y = .ok (out ++ y :: tail) := by
  rw [writeAt, ensure_pos _ (by simp), List.set_append_right _ _ (le_refl _), Nat.sub_self]
  rfl

theorem copyFrom_of_le {data : List α} {pos size : ℕ} (h : pos + size ≤ data.length) :
    copyFrom data pos size = .ok ((data.drop pos).take size) := by
  rw [copyFrom, ensure_pos _ h]
  rfl

theorem copyFrom_append (out xs tail : List α) : copyFrom (out ++ (xs ++ tail)) out.length xs.length = .ok xs := by
  rw [copyFrom_of_le (by simp only [List.length_append]; omega), List.drop_left, List.take_left]

theorem copyTo_append (out room tail xs : List α) (h : room.length = xs.length) :
    copyTo (out ++ (room ++ tail)) out.length xs = .ok (out ++ (xs ++ tail)) := by
  have hle : out.length + xs.length ≤ (out ++ (room ++ tail)).length := by
    rw [List.length_append, List.length_append]
    omega
  have hdrop : (out ++ (room ++ tail)).drop (out.length + xs.length) = tail := by
    rw [← List.append_assoc, List.drop_left' (by rw [List.length_append, h])]
  rw [copyTo, ensure_pos _ hle, ok_bind, List.take_left, hdrop]
  rfl

private theorem copyTo_eq_ok {data data' xs : List α} {pos : ℕ} :
    copyTo data pos xs = .ok data' ↔
      pos + xs.length ≤ data.length ∧ data' = data.take pos ++ (xs ++ data.drop (pos + xs.length)) := by
  rw [copyTo, bind_eq_ok]
  constructor
  · rintro ⟨_, hfits, h⟩
    cases h
    exact ⟨ensure_eq_ok.mp hfits, rfl⟩
  · rintro ⟨hfits, rfl⟩
    exact ⟨(), ensure_eq_ok.mpr hfits, rfl⟩

theorem length_of_copyTo {data data' xs : List α} {pos : ℕ} (h : copyTo data pos xs = .ok data') :
    data'.length = data.length := by
  obtain ⟨hfits, rfl⟩ := copyTo_eq_ok.mp h
  simp only [List.length_append, List.length_take, List.length_drop]
  omega

private theorem getElem?_of_copyTo {data data' xs : List α} {pos : ℕ}
    (h : copyTo data pos xs = .ok data') {i : ℕ}
    (hi : i < xs.length) : data'[pos + i]? = xs[i]? := by
  obtain ⟨hfits, rfl⟩ := copyTo_eq_ok.mp h
  have htake : (data.take pos).length = pos := List.length_take_of_le (by omega)
  rw [List.getElem?_append_right (by omega), htake, Nat.add_sub_cancel_left, List.getElem?_append_left hi]

/-- **Only the window itself.** Whatever is copied to a place changes nothing outside a window of the same
size exactly when the place is the beginning of the window. -/
theorem copyTo_within_window_iff [Nontrivial α] {before window : List α} (after : List α)
    (hwindow : 0 < window.length) {pos : ℕ} :
    (∀ xs, xs.length = window.length → ∃ window', window'.length = window.length ∧
      copyTo (before ++ (window ++ after)) pos xs = .ok (before ++ (window' ++ after))) ↔
        pos = before.length := by
  constructor
  · intro h
    by_contra hne
    have hplain : ∀ window', window'.length = window.length → ∀ i, i < before.length ∨
        before.length + window.length ≤ i →
        (before ++ (window' ++ after))[i]? = (before ++ (window ++ after))[i]? := by
      rintro window' hlength i (hi | hi)
      · rw [List.getElem?_append_left hi, List.getElem?_append_left hi]
      · rw [List.getElem?_append_right (by omega), List.getElem?_append_right (by omega),
          List.getElem?_append_right (by omega), List.getElem?_append_right (by omega), hlength]
    -- The first element that is written lies before the window, or the last one after it.
    obtain ⟨k, hk, houtside⟩ : ∃ k < window.length,
        pos + k < before.length ∨ before.length + window.length ≤ pos + k := by
      rcases Nat.lt_or_gt_of_ne hne with hlt | hgt
      · exact ⟨0, hwindow, .inl hlt⟩
      · exact ⟨window.length - 1, by omega, .inr (by omega)⟩
    have hfill : ∀ x : α, (before ++ (window ++ after))[pos + k]? = some x := by
      intro x
      obtain ⟨window', hlength, hcopy⟩ := h (List.replicate window.length x) (List.length_replicate ..)
      rw [← hplain window' hlength _ houtside, getElem?_of_copyTo hcopy (by rwa [List.length_replicate]),
        List.getElem?_replicate, if_pos hk]
    obtain ⟨x, y, hxy⟩ := exists_pair_ne α
    exact hxy (Option.some.inj ((hfill x).symm.trans (hfill y)))
  · rintro rfl xs hlength
    exact ⟨xs, hlength, copyTo_append before window after xs hlength.symm⟩

end Store
