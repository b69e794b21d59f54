import CryoNero.Store.Table

/-!
# Least keys and totals

Two things that are read off a whole table: its first entry, which has the least key, and the total
of a weight over its records. The total follows the table entry by entry.
-/

namespace Store

open Std

namespace Table

variable {κ ν : Type} [Ord κ] [TransOrd κ] [LawfulEqOrd κ]

/-! ## The first entry -/

/-- The first entry has the least key. -/
theorem head?_toList_eq_some {t : Table κ ν} {k : κ} {v : ν} (h : t.toList.head? = some (k, v)) :
    t[k]? = some v ∧ ∀ a w, t[a]? = some w → compare k a ≠ .gt := by
  obtain ⟨rest, hl⟩ : ∃ rest, t.toList = (k, v) :: rest := by
    rcases hl : t.toList with _ | ⟨p, rest⟩
    · rw [hl] at h
      cases h
    · rw [hl] at h
      cases h
      exact ⟨rest, rfl⟩
  refine ⟨mem_toList.mp (by rw [hl]; exact List.mem_cons_self), fun a w ha ↦ ?_⟩
  have hsorted := ExtTreeMap.ordered_keys_toList (t := t)
  have hmem : (a, w) ∈ (k, v) :: rest := by
    rw [← hl]
    exact mem_toList.mpr ha
  rw [hl, List.pairwise_cons] at hsorted
  rcases List.mem_cons.mp hmem with heq | hrest
  · cases heq
    rw [compare_self]
    decide
  · have hlt : compare k a = .lt := hsorted.1 (a, w) hrest
    rw [hlt]
    decide

theorem head?_toList_eq_none {t : Table κ ν} (h : t.toList.head? = none) (a : κ) :
    t[a]? = none := by
  rw [List.head?_eq_none_iff] at h
  cases ha : t[a]? with
  | none => rfl
  | some w =>
    have hmem := mem_toList.mpr ha
    rw [h] at hmem
    cases hmem

/-- Putting a record where none is. -/
theorem insertIfNew_eq (t : Table κ ν) (k : κ) (v : ν) :
    t.insertIfNew k v = if (t[k]?).isSome then t else t.insert k v := by
  classical
  have hmem : k ∈ t ↔ (t[k]?).isSome := ExtTreeMap.mem_iff_isSome_getElem?
  refine ext_get fun a ↦ ?_
  rw [ExtTreeMap.getElem?_insertIfNew]
  simp only [hmem, LawfulEqCmp.compare_eq_iff_eq]
  by_cases hk : (t[k]?).isSome
  · rw [if_neg fun hnew ↦ hnew.2 hk, if_pos hk]
  · rw [if_neg hk, get_insert]
    simp only [hk, Bool.false_eq_true, not_false_eq_true, and_true]

/-! ## Totals -/

/-- The total of a weight over the records of a table. -/
def total (w : ν → ℕ) (t : Table κ ν) : ℕ := (t.toList.map fun p ↦ w p.2).sum

theorem nodup_toList (t : Table κ ν) : t.toList.Nodup := (nodup_keys_toList t).of_map Prod.fst

@[simp] theorem total_empty (w : ν → ℕ) : total w (∅ : Table κ ν) = 0 := by
  have hnil : (∅ : Table κ ν).toList = [] := by
    refine List.eq_nil_iff_forall_not_mem.mpr fun p hp ↦ ?_
    cases (ExtTreeMap.getElem?_empty).symm.trans (mem_toList.mp hp)
  rw [total, hnil]
  rfl

theorem erase_of_get_eq_none {t : Table κ ν} {k : κ} (h : t[k]? = none) : t.erase k = t := by
  classical
  refine ext_get fun a ↦ ?_
  rw [get_erase]
  split_ifs with hka
  · rw [← hka, h]
  · rfl

/-- An entry comes off the list of a table wherever it stands in it. -/
theorem toList_perm_of_get {t : Table κ ν} {k : κ} {v : ν} (h : t[k]? = some v) :
    t.toList.Perm ((k, v) :: (t.erase k).toList) := by
  classical
  refine (List.perm_ext_iff_of_nodup (nodup_toList t) (List.nodup_cons.mpr ⟨fun hmem ↦ ?_,
    nodup_toList _⟩)).mpr fun p ↦ ?_
  · rw [mem_toList, get_erase_self] at hmem
    cases hmem
  · obtain ⟨a, w⟩ := p
    rw [List.mem_cons, mem_toList, mem_toList, get_erase]
    by_cases hka : k = a
    · rw [if_pos hka, ← hka, h]
      constructor
      · intro hv
        exact .inl (by rw [Option.some.inj hv])
      · rintro (heq | hfalse)
        · rw [(Prod.mk.inj heq).2]
        · cases hfalse
    · rw [if_neg hka]
      constructor
      · exact .inr
      · rintro (heq | ha)
        · exact absurd (Prod.mk.inj heq).1.symm hka
        · exact ha

/-- What is put in a table stands before the rest. -/
theorem toList_insert_perm (t : Table κ ν) (k : κ) (v : ν) :
    (t.insert k v).toList.Perm ((k, v) :: (t.erase k).toList) := by
  classical
  have heq : (t.insert k v).erase k = t.erase k := by
    refine ext_get fun a ↦ ?_
    rw [get_erase, get_insert, get_erase]
    split_ifs <;> rfl
  rw [← heq]
  exact toList_perm_of_get (get_insert_self t k v)

/-- When the record of a key grows, so does what all records have together. -/
theorem flatMap_insert_perm {γ : Type} {f : ν → List γ} {t : Table κ ν} {k : κ} {v d : ν} {l : List γ}
    (hd : f d = []) (hv : f v = f ((t[k]?).getD d) ++ l) :
    ((t.insert k v).toList.flatMap fun e ↦ f e.2).Perm ((t.toList.flatMap fun e ↦ f e.2) ++ l) := by
  have hrest : (f ((t[k]?).getD d) ++ (t.erase k).toList.flatMap fun e ↦ f e.2).Perm
      (t.toList.flatMap fun e ↦ f e.2) := by
    cases hk : t[k]? with
    | none => rw [Option.getD_none, hd, List.nil_append, erase_of_get_eq_none hk]
    | some old => exact ((toList_perm_of_get hk).flatMap_right fun e ↦ f e.2).symm
  refine ((toList_insert_perm t k v).flatMap_right _).trans ?_
  rw [List.flatMap_cons, hv, List.append_assoc]
  refine (List.perm_append_comm.append_left _).trans ?_
  rw [← List.append_assoc]
  exact hrest.append_right l

theorem total_of_get (w : ν → ℕ) {t : Table κ ν} {k : κ} {v : ν} (h : t[k]? = some v) :
    total w t = w v + total w (t.erase k) := by
  rw [total, ((toList_perm_of_get h).map _).sum_eq, List.map_cons, List.sum_cons]
  rfl

theorem total_insert (w : ν → ℕ) {t : Table κ ν} {k : κ} (v : ν) (h : t[k]? = none) :
    total w (t.insert k v) = w v + total w t := by
  rw [total_of_get w (get_insert_self t k v), erase_insert t v h]

private theorem total_insert_erase (w : ν → ℕ) (t : Table κ ν) (k : κ) (v : ν) :
    total w (t.insert k v) = w v + total w (t.erase k) := by
  classical
  rw [total_of_get w (get_insert_self t k v)]
  congr 2
  refine ext_get fun a ↦ ?_
  rw [get_erase, get_insert, get_erase]
  split_ifs <;> rfl

/-- Replacing the record of a key, where the key without a record counts as a weightless one. -/
theorem total_insert_getD (w : ν → ℕ) (t : Table κ ν) (k : κ) (v : ν) {d : ν} (hd : w d = 0) :
    total w (t.insert k v) + w ((t[k]?).getD d) = w v + total w t := by
  rw [total_insert_erase]
  cases hk : t[k]? with
  | none =>
    rw [erase_of_get_eq_none hk, Option.getD_none, hd]
    rfl
  | some old =>
    rw [total_of_get w hk, Option.getD_some]
    omega

theorem le_total_of_get (w : ν → ℕ) {t : Table κ ν} {k : κ} {v : ν} (h : t[k]? = some v) :
    w v ≤ total w t := by
  rw [total_of_get w h]
  exact Nat.le_add_right _ _

omit [LawfulEqOrd κ] in
theorem size_insert_of_isSome {t : Table κ ν} {k : κ} (v : ν) (h : (t[k]?).isSome) :
    (t.insert k v).size = t.size := by
  rw [ExtTreeMap.size_insert,
    if_pos (ExtTreeMap.mem_iff_contains.mp (ExtTreeMap.mem_iff_isSome_getElem?.mpr h))]

theorem total_le_of_subset (w : ν → ℕ) {q t : Table κ ν}
    (h : ∀ (k : κ) (v : ν), q[k]? = some v → t[k]? = some v) : total w q ≤ total w t := by
  have hsubset : q.toList ⊆ t.toList := by
    rintro ⟨k, v⟩ hkv
    exact mem_toList.mpr (h k v (mem_toList.mp hkv))
  obtain ⟨l, hperm, hsub⟩ := (nodup_toList q).subperm hsubset
  calc total w q = (l.map fun p ↦ w p.2).sum := ((hperm.map _).sum_eq).symm
    _ ≤ total w t := (hsub.map _).sum_le_sum fun _ _ ↦ Nat.zero_le _

omit [LawfulEqOrd κ] in
theorem total_le_size (w : ν → ℕ) (t : Table κ ν) (hw : ∀ v, w v ≤ 1) : total w t ≤ t.size := by
  rw [total, ← ExtTreeMap.length_toList]
  refine (List.sum_le_card_nsmul _ 1 fun n hn ↦ ?_).trans (by simp)
  obtain ⟨p, -, rfl⟩ := List.mem_map.mp hn
  exact hw p.2

end Table

end Store
