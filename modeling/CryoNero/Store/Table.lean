import Mathlib

/-!
# Ordered tables

The database of a node is an ordered key-value store, and the indexes it keeps in memory are
ordered maps. Both are modelled by `Table`: the extensional tree map of the standard library, so
that two tables with the same records are equal and iteration follows the order of the keys.

A store is not only read and written blindly. A put may refuse to overwrite and a deletion may
require its key to exist; these two are the operations by which a store detects that its caller
has lost track of the records, so they are partial here and their success is characterized
exactly.
-/

namespace Store

open Std

/-- An ordered map from keys `κ` to records `ν`. -/
abbrev Table (κ ν : Type) [Ord κ] := ExtTreeMap κ ν compare

/-- Keys made of two parts are compared lexicographically, and the comparison is lawful. -/
instance lawfulEqOrdLex {α β : Type} [Ord α] [Ord β] [LawfulEqOrd α] [LawfulEqOrd β] :
    LawfulEqOrd (α ×ₗ β) where
  compare_self := by
    intro a
    change (compareOn (fun x : α × β ↦ x.1) a a).then (compareOn (fun x : α × β ↦ x.2) a a) = .eq
    simp [compareOn, compare_self]
  eq_of_compare := by
    intro a b h
    change (compareOn (fun x : α × β ↦ x.1) a b).then (compareOn (fun x : α × β ↦ x.2) a b) = .eq
      at h
    rw [Ordering.then_eq_eq] at h
    exact Prod.ext (LawfulEqCmp.eq_of_compare h.1) (LawfulEqCmp.eq_of_compare h.2)

namespace Table

variable {κ ν : Type} [Ord κ] [TransOrd κ] [LawfulEqOrd κ]

@[ext] theorem ext_get {t t' : Table κ ν} (h : ∀ k : κ, t[k]? = t'[k]?) : t = t' :=
  ExtTreeMap.ext_getElem? h

theorem get_insert [DecidableEq κ] (t : Table κ ν) (k a : κ) (v : ν) :
    (t.insert k v)[a]? = if k = a then some v else t[a]? := by
  rw [ExtTreeMap.getElem?_insert]
  simp only [LawfulEqCmp.compare_eq_iff_eq]

theorem get_erase [DecidableEq κ] (t : Table κ ν) (k a : κ) :
    (t.erase k)[a]? = if k = a then none else t[a]? := by
  rw [ExtTreeMap.getElem?_erase]
  simp only [LawfulEqCmp.compare_eq_iff_eq]

@[simp] theorem get_insert_self (t : Table κ ν) (k : κ) (v : ν) : (t.insert k v)[k]? = some v := by
  classical rw [get_insert, if_pos rfl]

theorem get_insert_of_ne {k a : κ} (t : Table κ ν) (v : ν) (h : k ≠ a) :
    (t.insert k v)[a]? = t[a]? := by
  classical rw [get_insert, if_neg h]

@[simp] theorem get_erase_self (t : Table κ ν) (k : κ) : (t.erase k)[k]? = none := by
  classical rw [get_erase, if_pos rfl]

theorem get_erase_of_ne {k a : κ} (t : Table κ ν) (h : k ≠ a) : (t.erase k)[a]? = t[a]? := by
  classical rw [get_erase, if_neg h]

theorem erase_insert (t : Table κ ν) {k : κ} (v : ν) (h : t[k]? = none) :
    (t.insert k v).erase k = t := by
  classical
  refine ext_get fun a ↦ ?_
  rw [get_erase, get_insert]
  split_ifs with hka
  · rw [← hka, h]
  · rfl

theorem mem_toList {t : Table κ ν} {k : κ} {v : ν} : (k, v) ∈ t.toList ↔ t[k]? = some v :=
  ExtTreeMap.mem_toList_iff_getElem?_eq_some

theorem nodup_keys_toList (t : Table κ ν) : (t.toList.map Prod.fst).Nodup := by
  rw [List.Nodup, List.pairwise_map]
  refine ExtTreeMap.ordered_keys_toList.imp fun {a b} h hab ↦ ?_
  rw [hab, compare_self] at h
  exact absurd h (by decide)

/-! ## Puts that do not overwrite, deletions that must find their key -/

/-- Put a record under a key that must be free. -/
def putNew (t : Table κ ν) (k : κ) (v : ν) : Option (Table κ ν) :=
  if t[k]?.isSome then none else some (t.insert k v)

/-- Delete the record of a key that must be there. -/
def delOld (t : Table κ ν) (k : κ) : Option (Table κ ν) :=
  if t[k]?.isSome then some (t.erase k) else none

omit [LawfulEqOrd κ] in
theorem putNew_eq_some {t t' : Table κ ν} {k : κ} {v : ν} :
    t.putNew k v = some t' ↔ t[k]? = none ∧ t' = t.insert k v := by
  cases h : t[k]? <;> simp [putNew, h, eq_comm]

omit [LawfulEqOrd κ] in
theorem delOld_eq_some {t t' : Table κ ν} {k : κ} :
    t.delOld k = some t' ↔ (∃ v, t[k]? = some v) ∧ t' = t.erase k := by
  cases h : t[k]? <;> simp [delOld, h, eq_comm]

omit [LawfulEqOrd κ] in
theorem putNew_of_none {t : Table κ ν} {k : κ} (v : ν) (h : t[k]? = none) :
    t.putNew k v = some (t.insert k v) := putNew_eq_some.mpr ⟨h, rfl⟩

omit [LawfulEqOrd κ] in
theorem delOld_of_some {t : Table κ ν} {k : κ} {v : ν} (h : t[k]? = some v) :
    t.delOld k = some (t.erase k) := delOld_eq_some.mpr ⟨⟨v, h⟩, rfl⟩

omit [LawfulEqOrd κ] in
theorem size_insert_of_none {t : Table κ ν} {k : κ} (v : ν) (h : t[k]? = none) :
    (t.insert k v).size = t.size + 1 := by
  have hk : ¬t.contains k = true := by
    rw [← ExtTreeMap.mem_iff_contains, ExtTreeMap.mem_iff_isSome_getElem?, h]
    exact Bool.false_ne_true
  rw [ExtTreeMap.size_insert, if_neg hk]

omit [LawfulEqOrd κ] in
theorem size_of_get {t : Table κ ν} {k : κ} {v : ν} (h : t[k]? = some v) :
    t.size = (t.erase k).size + 1 := by
  have hmem : k ∈ t := by
    rw [ExtTreeMap.mem_iff_isSome_getElem?, h]
    rfl
  have hpos : t.size ≠ 0 := fun hzero ↦ by
    rw [ExtTreeMap.eq_empty_iff_size_eq_zero.mpr hzero] at hmem
    exact ExtTreeMap.not_mem_empty hmem
  rw [ExtTreeMap.size_erase, if_pos (ExtTreeMap.mem_iff_contains.mp hmem)]
  omega

/-! ## The first key that meets a condition -/

/-- A cursor that runs forwards stops on the first record that meets the condition. -/
theorem find?_toList_eq_some {t : Table κ ν} {p : κ × ν → Bool} {e : κ × ν}
    (h : t.toList.find? p = some e) :
    t[e.1]? = some e.2 ∧ p e = true ∧
      ∀ (k : κ) (v : ν), t[k]? = some v → p (k, v) = true → compare e.1 k ≠ .gt := by
  obtain ⟨hp, as, bs, hlist, hbefore⟩ := List.find?_eq_some_iff_append.mp h
  have hmem : e ∈ t.toList := List.mem_of_find?_eq_some h
  refine ⟨mem_toList.mp hmem, hp, fun k v hk hkv ↦ ?_⟩
  have hkmem := mem_toList.mpr hk
  have hsorted : t.toList.Pairwise fun p q ↦ compare p.1 q.1 = .lt :=
    ExtTreeMap.ordered_keys_toList (t := t)
  rw [hlist] at hkmem hsorted
  rcases List.mem_append.mp hkmem with hk | hk
  · have hnot := hbefore _ hk
    rw [hkv] at hnot
    cases hnot
  · rcases List.mem_cons.mp hk with hk | hk
    · rw [← hk, compare_self]
      decide
    · have hlt := (List.pairwise_cons.mp (List.pairwise_append.mp hsorted).2.1).1 _ hk
      rw [hlt]
      decide

theorem find?_toList_eq_none {t : Table κ ν} {p : κ × ν → Bool} (h : t.toList.find? p = none)
    {k : κ} {v : ν} (hk : t[k]? = some v) : p (k, v) = false := by
  have hnot := List.find?_eq_none.mp h _ (mem_toList.mpr hk)
  rwa [Bool.not_eq_true] at hnot

/-! ## The last key below a prefix -/

section Prefix

variable {α β : Type} [Ord α] [TransOrd α] [LawfulEqOrd α] [Ord β] [TransOrd β] [LawfulEqOrd β]
variable [DecidableEq α]

/-- The second part of the last key whose first part is `a`: a cursor that runs backwards from the
end of the prefix `a`. -/
def lastBelow (t : Table (α ×ₗ β) ν) (a : α) : Option β :=
  ((t.toList.filter fun p ↦ (ofLex p.1).1 = a).getLast?).map fun p ↦ (ofLex p.1).2

theorem lastBelow_eq_none {t : Table (α ×ₗ β) ν} {a : α}
    (h : ∀ b : β, t[toLex (a, b)]? = none) :
    t.lastBelow a = none := by
  have hnil : t.toList.filter (fun p ↦ (ofLex p.1).1 = a) = [] := by
    rw [List.filter_eq_nil_iff]
    rintro ⟨k, v⟩ hp
    have hk := mem_toList.mp hp
    simp only [decide_eq_true_eq]
    rintro rfl
    have hnone : t[k]? = none := h (ofLex k).2
    rw [hnone] at hk
    cases hk
  rw [lastBelow, hnil]
  rfl

/-- The cursor stops on the largest key of the prefix. -/
theorem lastBelow_eq_some {t : Table (α ×ₗ β) ν} {a : α} {b : β} {v : ν}
    (hb : t[toLex (a, b)]? = some v)
    (hmax : ∀ c w, t[toLex (a, c)]? = some w → compare c b ≠ .gt) : t.lastBelow a = some b := by
  set l := t.toList.filter fun p ↦ (ofLex p.1).1 = a with hl
  have hmem : (toLex (a, b), v) ∈ l := by
    rw [hl, List.mem_filter]
    exact ⟨mem_toList.mpr hb, by simp⟩
  have hsorted : l.Pairwise fun p q ↦ compare p.1 q.1 = .lt :=
    (ExtTreeMap.ordered_keys_toList (t := t)).filter _
  obtain ⟨p, hlast⟩ : ∃ p, l.getLast? = some p := by
    cases hg : l.getLast? with
    | none => rw [List.getLast?_eq_none_iff.mp hg] at hmem; cases hmem
    | some p => exact ⟨p, rfl⟩
  obtain ⟨init, hinit⟩ := List.getLast?_eq_some_iff.mp hlast
  have hpl : p ∈ l := by rw [hinit]; simp
  obtain ⟨⟨a', c⟩, w⟩ := p
  rw [hl, List.mem_filter] at hpl
  obtain ⟨hpt, hpa⟩ := hpl
  have ha' : a' = a := of_decide_eq_true hpa
  subst ha'
  -- every other entry of the prefix comes before the last one, so `b` is it
  have hcb : c = b := by
    rw [hinit, List.mem_append, List.mem_singleton] at hmem
    rcases hmem with hm | hm
    · rw [hinit, List.pairwise_append] at hsorted
      have hlt := hsorted.2.2 _ hm _ (List.mem_singleton_self _)
      change (compare a' a').then (compare b c) = .lt at hlt
      rw [compare_self] at hlt
      have hgt : compare c b = .gt := by
        have hswap : compare c b = (compare b c).swap := OrientedCmp.eq_swap
        rw [hswap]
        simpa using hlt
      exact absurd hgt (hmax c w (mem_toList.mp hpt))
    · exact (congrArg (fun q : (α ×ₗ β) × ν ↦ (ofLex q.1).2) hm).symm
  rw [lastBelow, ← hl, hlast, Option.map_some]
  exact congrArg some hcb

end Prefix

end Table

end Store
