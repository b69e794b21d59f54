import CryoNero.Store.Bisection
import CryoNero.Store.Outcome

/-!
# Looking elements up

A search goes by halves to the place where an element would be in an array, and compares it with what is
there. In an array in ascending order it finds exactly the elements (`binarySearch_eq`). A filter whose test
may stop is a plain filter when the test answers for all elements (`filterM_eq`).

A cursor that is set behind a key sees the records whose keys are larger (`Table.behind_eq`).
-/

namespace Store

variable {α : Type}

/-- `std::binary_search` -/
def binarySearch [Ord α] (data : List α) (x : α) : Except Failure Bool := do
  let place ← lowerBound (fun y ↦ (compare y x).isLT) data
  return (data[place]?).any fun y ↦ !(compare x y).isLT

/-- In a sorted array exactly the elements are found. -/
theorem binarySearch_eq [Ord α] [Std.TransOrd α] [Std.LawfulEqOrd α] [DecidableEq α]
    {data : List α} (h : data.Pairwise (compare · · = .lt)) (x : α) :
    binarySearch data x = .ok (decide (x ∈ data)) := by
  have hsorted : SortedFor (fun y ↦ (compare y x).isLT) data :=
    h.imp fun hlt hless ↦ Ordering.isLT_iff_eq_lt.mpr
      (Std.TransCmp.lt_trans hlt (Ordering.isLT_iff_eq_lt.mp hless))
  rw [binarySearch, lowerBound_eq hsorted, ok_bind, getElem?_rank]
  refine congrArg Except.ok (Bool.eq_iff_iff.mpr ?_)
  rw [Option.any_eq_true, decide_eq_true_iff]
  constructor
  · rintro ⟨y, hfind, hnot⟩
    have hsmall := List.find?_some hfind
    -- neither of the two comes before the other
    have heq : compare y x = .eq := by
      rw [show compare x y = (compare y x).swap from Std.OrientedCmp.eq_swap] at hnot
      cases hcompare : compare y x <;> simp_all
    rw [← Std.LawfulEqCmp.eq_of_compare heq]
    exact List.mem_of_find?_eq_some hfind
  · intro hx
    cases hfind : data.find? fun y ↦ !(compare y x).isLT with
    | none =>
      have hnone := List.find?_eq_none.mp hfind x hx
      simp [Std.ReflCmp.compare_self] at hnone
    | some y =>
      have hsmall := List.find?_some hfind
      -- what comes in front of `y` is smaller than `x`, and what comes behind it is larger
      obtain ⟨-, front, back, rfl, hfront⟩ := List.find?_eq_some_iff_append.mp hfind
      refine ⟨y, rfl, ?_⟩
      rcases List.mem_append.mp hx with hx | hx
      · have hself := hfront x hx
        simp [Std.ReflCmp.compare_self] at hself
      · rcases List.mem_cons.mp hx with rfl | hx
        · simp [Std.ReflCmp.compare_self]
        · have hlt := (List.pairwise_cons.mp (List.pairwise_append.mp h).2.1).1 x hx
          simp [hlt] at hsmall

/-- A filter whose test always answers. -/
theorem filterM_eq {ε : Type} {f : α → Except ε Bool} {p : α → Bool} {l : List α}
    (h : ∀ x ∈ l, f x = .ok (p x)) : l.filterM f = .ok (l.filter p) := by
  suffices hgen : ∀ acc : List α, l.filterAuxM f acc = .ok ((l.filter p).reverse ++ acc) by
    rw [List.filterM, hgen, List.append_nil]
    exact congrArg Except.ok (List.reverse_reverse _)
  induction l with
  | nil => exact fun acc ↦ rfl
  | cons x l ih =>
    intro acc
    rw [List.filterAuxM, h x List.mem_cons_self, ok_bind, ih fun y hy ↦ h y (List.mem_cons_of_mem _ hy)]
    cases hx : p x <;> simp [hx]

/-! ## Behind a key -/

namespace Table

variable {κ ν : Type} [Ord κ] [Std.TransOrd κ] [Std.LawfulEqOrd κ] [DecidableEq κ]

/-- What a cursor sees that is set to the first key that is not smaller, and moved on when this is the key
itself. -/
def behind (t : Table κ ν) (k : κ) : List (κ × ν) :=
  match t.toList.dropWhile fun e ↦ (compare e.1 k).isLT with
  | [] => []
  | e :: rest => if e.1 = k then rest else e :: rest

theorem behind_eq (t : Table κ ν) (k : κ) :
    t.behind k = t.toList.filter fun e ↦ (compare k e.1).isLT := by
  have hsorted : t.toList.Pairwise fun a b ↦ compare a.1 b.1 = .lt :=
    Std.ExtTreeMap.ordered_keys_toList (t := t)
  unfold behind
  revert hsorted
  induction t.toList with
  | nil => exact fun _ ↦ rfl
  | cons e l ih =>
    intro hsorted
    obtain ⟨hlater, hl⟩ := List.pairwise_cons.mp hsorted
    have hswap : compare k e.1 = (compare e.1 k).swap := Std.OrientedCmp.eq_swap
    -- all records behind one that is not smaller are larger
    have hall : compare e.1 k ≠ .lt → l.filter (fun e' ↦ (compare k e'.1).isLT) = l := by
      intro hnot
      refine List.filter_eq_self.mpr fun e' he' ↦ Ordering.isLT_iff_eq_lt.mpr ?_
      refine Std.TransCmp.lt_of_isLE_of_lt ?_ (hlater e' he')
      rw [hswap]
      cases hcompare : compare e.1 k <;> simp_all
    cases hcompare : compare e.1 k with
    | lt => simpa [List.dropWhile_cons, List.filter_cons, hswap, hcompare] using ih hl
    | eq =>
      have heq := Std.LawfulEqCmp.eq_of_compare hcompare
      simp [heq, hall]
    | gt =>
      have hne : e.1 ≠ k := fun heq ↦ by simp [heq, Std.ReflCmp.compare_self] at hcompare
      simp [hswap, hcompare, hne, hall]

end Table

end Store
