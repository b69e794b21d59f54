import CryoNero.Store.Table

/-!
# Stacks in a table

A table whose keys end in a number of 32 bits can hold one stack for every first part of the key: the
records of a stack have the numbers from zero up. `Stacked` says which stacks a table holds, and the
lemmas say how a table changes when a record is pushed, popped or replaced. A stack has at most
`2 ^ 32` records, and then the number of the next one is zero again.
-/

namespace Store

variable {α ν : Type} [Ord α] [Std.TransOrd α] [Std.LawfulEqOrd α] [DecidableEq α]

/-- The table holds the stack `f a` for every `a`. -/
structure Stacked (t : Table (α ×ₗ UInt32) ν) (f : α → List ν) : Prop where
  length_le : ∀ a, (f a).length ≤ 2 ^ 32
  get : ∀ a (i : UInt32), t[toLex (a, i)]? = (f a)[i.toNat]?

theorem toNat_ofNat_of_lt {n : ℕ} (h : n < 2 ^ 32) : (UInt32.ofNat n).toNat = n := by
  rw [UInt32.toNat_ofNat']
  exact Nat.mod_eq_of_lt h

private theorem compare_ne_gt_of_le {a b : UInt32} (h : a ≤ b) : compare a b ≠ .gt := by
  change compareOfLessAndEq a b ≠ .gt
  unfold compareOfLessAndEq
  split_ifs with hlt heq
  · simp
  · simp
  · exact absurd (UInt32.le_antisymm h (UInt32.not_lt.mp hlt)) heq

namespace Stacked

variable {t t' : Table (α ×ₗ UInt32) ν} {f g : α → List ν} {a : α} {v : ν}

omit [Std.LawfulEqOrd α] [DecidableEq α] in
theorem empty : Stacked (∅ : Table (α ×ₗ UInt32) ν) fun _ ↦ [] where
  length_le _ := Nat.zero_le _
  get a i := by
    rw [List.getElem?_nil]
    exact Std.ExtTreeMap.getElem?_empty

omit [Std.LawfulEqOrd α] [DecidableEq α] in
/-- A table holds one family of stacks only. -/
theorem unique (h : Stacked t f) (h' : Stacked t g) : f = g := by
  funext a
  refine List.ext_getElem? fun i ↦ ?_
  by_cases hi : i < 2 ^ 32
  · have hf := h.get a (UInt32.ofNat i)
    rw [h'.get, toNat_ofNat_of_lt hi] at hf
    exact hf.symm
  · have hf := h.length_le a
    have hg := h'.length_le a
    rw [List.getElem?_eq_none (by omega), List.getElem?_eq_none (by omega)]

omit [DecidableEq α] in
theorem table_unique (h : Stacked t f) (h' : Stacked t' f) : t = t' := by
  refine Table.ext_get fun k ↦ ?_
  exact (h.get (ofLex k).1 (ofLex k).2).trans (h'.get (ofLex k).1 (ofLex k).2).symm

private theorem lastBelow_of_ne_nil (h : Stacked t f) (hne : f a ≠ []) :
    t.lastBelow a = some (UInt32.ofNat ((f a).length - 1)) := by
  have hpos : 0 < (f a).length := List.length_pos_iff.mpr hne
  have hle := h.length_le a
  have hlast : (UInt32.ofNat ((f a).length - 1)).toNat = (f a).length - 1 :=
    toNat_ofNat_of_lt (by omega)
  have hget := h.get a (UInt32.ofNat ((f a).length - 1))
  rw [hlast, List.getElem?_eq_getElem (by omega)] at hget
  refine Table.lastBelow_eq_some hget fun c w hc ↦ ?_
  rw [h.get] at hc
  have hlt := (List.getElem?_eq_some_iff.mp hc).1
  have hle' : c ≤ UInt32.ofNat ((f a).length - 1) := by
    rw [UInt32.le_iff_toNat_le, hlast]
    omega
  exact compare_ne_gt_of_le hle'

private theorem lastBelow_of_nil (h : Stacked t f) (hnil : f a = []) : t.lastBelow a = none := by
  refine Table.lastBelow_eq_none fun b ↦ ?_
  rw [h.get, hnil, List.getElem?_nil]

/-- The number of the next record, computed from the last one. -/
theorem next_eq (h : Stacked t f) (a : α) :
    (match t.lastBelow a with | some g => g + 1 | none => 0) = UInt32.ofNat (f a).length := by
  by_cases hnil : f a = []
  · rw [h.lastBelow_of_nil hnil, hnil]
    rfl
  · rw [h.lastBelow_of_ne_nil hnil]
    have hpos : 0 < (f a).length := List.length_pos_iff.mpr hnil
    change UInt32.ofNat ((f a).length - 1) + UInt32.ofNat 1 = _
    rw [← UInt32.ofNat_add, Nat.sub_add_cancel hpos]

omit [Std.LawfulEqOrd α] [DecidableEq α] in
/-- The next number is free unless the stack is full. -/
theorem get_next_eq_none (h : Stacked t f) (a : α) :
    t[toLex (a, UInt32.ofNat (f a).length)]? = none ↔ (f a).length < 2 ^ 32 := by
  have hle := h.length_le a
  rw [h.get, List.getElem?_eq_none_iff, UInt32.toNat_ofNat']
  constructor
  · intro hmod
    by_contra hfull
    have hlen : (f a).length = 2 ^ 32 := by omega
    rw [hlen] at hmod
    simp at hmod
  · intro hlt
    rw [Nat.mod_eq_of_lt hlt]

theorem push (h : Stacked t f) (hlt : (f a).length < 2 ^ 32) (v : ν) :
    Stacked (t.insert (toLex (a, UInt32.ofNat (f a).length)) v)
      (Function.update f a (f a ++ [v])) where
  length_le b := by
    by_cases hb : b = a
    · subst hb
      rw [Function.update_self, List.length_append, List.length_singleton]
      omega
    · rw [Function.update_of_ne hb]
      exact h.length_le b
  get b i := by
    by_cases hb : b = a
    · subst hb
      rw [Function.update_self, Table.get_insert]
      by_cases hi : UInt32.ofNat (f b).length = i
      · rw [if_pos (by rw [hi]), ← hi, toNat_ofNat_of_lt hlt, List.getElem?_concat_length]
      · rw [if_neg (fun he ↦ hi (Prod.ext_iff.mp (toLex_inj.mp he)).2), h.get]
        have hne : i.toNat ≠ (f b).length := fun he ↦ hi (by rw [← he, UInt32.ofNat_toNat])
        rw [List.getElem?_append]
        split_ifs with hi'
        · rfl
        · rw [List.getElem?_eq_none (by omega), List.getElem?_eq_none (by simp; omega)]
    · rw [Function.update_of_ne hb, Table.get_insert,
        if_neg (fun he ↦ hb (Prod.ext_iff.mp (toLex_inj.mp he)).1.symm), h.get]

theorem pop (h : Stacked t f) {l : List ν} (hl : f a = l ++ [v]) :
    Stacked (t.erase (toLex (a, UInt32.ofNat l.length))) (Function.update f a l) where
  length_le b := by
    by_cases hb : b = a
    · subst hb
      have := h.length_le b
      rw [hl, List.length_append, List.length_singleton] at this
      rw [Function.update_self]
      omega
    · rw [Function.update_of_ne hb]
      exact h.length_le b
  get b i := by
    have hle := h.length_le a
    rw [hl, List.length_append, List.length_singleton] at hle
    have hlen : (UInt32.ofNat l.length).toNat = l.length := toNat_ofNat_of_lt (by omega)
    by_cases hb : b = a
    · subst hb
      rw [Function.update_self, Table.get_erase]
      by_cases hi : UInt32.ofNat l.length = i
      · rw [if_pos (by rw [hi]), ← hi, hlen, List.getElem?_eq_none le_rfl]
      · rw [if_neg (fun he ↦ hi (Prod.ext_iff.mp (toLex_inj.mp he)).2), h.get, hl]
        have hne : i.toNat ≠ l.length := fun he ↦ hi (by rw [← he, UInt32.ofNat_toNat])
        rw [List.getElem?_append]
        split_ifs with hi'
        · rfl
        · rw [List.getElem?_eq_none (by simp; omega), List.getElem?_eq_none (by omega)]
    · rw [Function.update_of_ne hb, Table.get_erase,
        if_neg (fun he ↦ hb (Prod.ext_iff.mp (toLex_inj.mp he)).1.symm), h.get]

/-- Replacing a record that is there. -/
theorem set (h : Stacked t f) {i : UInt32} (hi : i.toNat < (f a).length) (v : ν) :
    Stacked (t.insert (toLex (a, i)) v) (Function.update f a ((f a).set i.toNat v)) where
  length_le b := by
    by_cases hb : b = a
    · subst hb
      rw [Function.update_self, List.length_set]
      exact h.length_le b
    · rw [Function.update_of_ne hb]
      exact h.length_le b
  get b j := by
    by_cases hb : b = a
    · subst hb
      rw [Function.update_self, Table.get_insert, List.getElem?_set]
      by_cases hij : i = j
      · rw [if_pos (by rw [hij]), if_pos (by rw [hij]), if_pos hi]
      · rw [if_neg (fun he ↦ hij (Prod.ext_iff.mp (toLex_inj.mp he)).2), h.get,
          if_neg (fun he ↦ hij (UInt32.toNat_inj.mp he))]
    · rw [Function.update_of_ne hb, Table.get_insert,
        if_neg (fun he ↦ hb (Prod.ext_iff.mp (toLex_inj.mp he)).1.symm), h.get]

end Stacked

end Store
