import CryoNero.Store.Table

/-!
# Tables that remember what they held

A journal is a table together with the first old record of every key that was written since the
journal was cleared. Replaying it puts the old records back, in any order, since there is one for
each key. However often a key was written, deleted and written again, the table is then as it was
when the journal was clear (`Restores.replay`).
-/

namespace Store

open Std

/-- A table, and for each key that was written the record it had at first. -/
structure Journal (κ ν : Type) [Ord κ] where
  records : Table κ ν := ∅
  undo : Table κ (Option ν) := ∅

namespace Journal

variable {κ ν : Type} [Ord κ]

/-- Remember the record of a key, unless the key is remembered already. -/
def remember [TransOrd κ] (j : Journal κ ν) (k : κ) : Journal κ ν :=
  if (j.undo[k]?).isSome then j else { j with undo := j.undo.insert k j.records[k]? }

def put [TransOrd κ] (j : Journal κ ν) (k : κ) (v : ν) : Journal κ ν :=
  { j.remember k with records := j.records.insert k v }

def del [TransOrd κ] (j : Journal κ ν) (k : κ) : Journal κ ν :=
  { j.remember k with records := j.records.erase k }

/-- Put the old record of a key back. -/
def putBack [TransOrd κ] (t : Table κ ν) (e : κ × Option ν) : Table κ ν :=
  match e.2 with
  | some v => t.insert e.1 v
  | none => t.erase e.1

/-- Put all old records back. -/
def replay [TransOrd κ] (undo : Table κ (Option ν)) (t : Table κ ν) : Table κ ν :=
  undo.toList.foldl putBack t

variable [TransOrd κ]

/-- What was remembered is what the table `t` holds. -/
structure Restores (j : Journal κ ν) (t : Table κ ν) : Prop where
  remembered : ∀ (k : κ) (o : Option ν), j.undo[k]? = some o → t[k]? = o
  untouched : ∀ k : κ, j.undo[k]? = none → j.records[k]? = t[k]?

theorem restores_clear (t : Table κ ν) : Restores ⟨t, ∅⟩ t where
  remembered k o h := by cases (ExtTreeMap.getElem?_empty).symm.trans h
  untouched _ _ := rfl

variable {j j' : Journal κ ν} {t : Table κ ν} {k : κ} {v : ν}

@[simp] theorem put_records (j : Journal κ ν) (k : κ) (v : ν) :
    (j.put k v).records = j.records.insert k v := rfl

@[simp] theorem del_records (j : Journal κ ν) (k : κ) :
    (j.del k).records = j.records.erase k := rfl

variable [LawfulEqOrd κ]

/-- A key that is written is remembered, with the record the table had at first. -/
theorem Restores.write (h : j.Restores t) (k : κ) {t' : Table κ ν}
    (ht' : ∀ a, k ≠ a → t'[a]? = j.records[a]?) :
    Restores ({ j.remember k with records := t' } : Journal κ ν) t := by
  classical
  cases hk : j.undo[k]? with
  | some o =>
    have hundo : (j.remember k).undo = j.undo := by rw [remember, hk, if_pos Option.isSome_some]
    refine ⟨fun a o' ha ↦ h.remembered a o' (hundo ▸ ha), fun a ha ↦ ?_⟩
    rw [hundo] at ha
    rw [ht' a (by rintro rfl; rw [hk] at ha; cases ha)]
    exact h.untouched a ha
  | none =>
    have hundo : (j.remember k).undo = j.undo.insert k j.records[k]? := by
      rw [remember, hk, if_neg (by simp)]
    refine ⟨fun a o ha ↦ ?_, fun a ha ↦ ?_⟩
    · rw [hundo, Table.get_insert] at ha
      split_ifs at ha with hka
      · rw [← hka, ← h.untouched k hk, Option.some.inj ha]
      · exact h.remembered a o ha
    · rw [hundo, Table.get_insert] at ha
      split_ifs at ha with hka
      rw [ht' a hka]
      exact h.untouched a ha

theorem Restores.put (h : j.Restores t) (k : κ) (v : ν) : (j.put k v).Restores t :=
  h.write k fun _ hka ↦ Table.get_insert_of_ne _ _ hka

theorem Restores.del (h : j.Restores t) (k : κ) : (j.del k).Restores t :=
  h.write k fun _ hka ↦ Table.get_erase_of_ne _ hka

private theorem get_foldl_putBack_of_notMem {l : List (κ × Option ν)} {a : κ}
    (ha : a ∉ l.map Prod.fst) (t : Table κ ν) : (l.foldl putBack t)[a]? = t[a]? := by
  induction l generalizing t with
  | nil => rfl
  | cons e l ih =>
    rw [List.map_cons, List.mem_cons, not_or] at ha
    rw [List.foldl_cons, ih ha.2, putBack]
    split
    · exact Table.get_insert_of_ne _ _ (Ne.symm ha.1)
    · exact Table.get_erase_of_ne _ (Ne.symm ha.1)

private theorem get_foldl_putBack {l : List (κ × Option ν)} (hl : (l.map Prod.fst).Nodup) {a : κ}
    {o : Option ν} (ha : (a, o) ∈ l) (t : Table κ ν) : (l.foldl putBack t)[a]? = o := by
  induction l generalizing t with
  | nil => cases ha
  | cons e l ih =>
    rw [List.map_cons, List.nodup_cons] at hl
    rw [List.foldl_cons]
    rcases List.mem_cons.mp ha with rfl | ha
    · rw [get_foldl_putBack_of_notMem hl.1, putBack]
      cases o with
      | some v => exact Table.get_insert_self _ _ _
      | none => exact Table.get_erase_self _ _
    · exact ih hl.2 ha _

/-- A key that is remembered gets its old record, and every other key keeps the one it has. -/
theorem get_replay (undo : Table κ (Option ν)) (t : Table κ ν) (a : κ) :
    (replay undo t)[a]? = (undo[a]?).getD t[a]? := by
  cases ha : undo[a]? with
  | some o => exact get_foldl_putBack (Table.nodup_keys_toList _) (Table.mem_toList.mpr ha) _
  | none =>
    refine get_foldl_putBack_of_notMem (fun hmem ↦ ?_) _
    obtain ⟨e, he, rfl⟩ := List.mem_map.mp hmem
    rw [Table.mem_toList.mp he] at ha
    cases ha

/-- **Replaying restores the table.** -/
theorem Restores.replay (h : j.Restores t) : replay j.undo j.records = t := by
  refine Table.ext_get fun a ↦ ?_
  rw [get_replay]
  cases ha : j.undo[a]? with
  | some o => exact (h.remembered a o ha).symm
  | none => exact h.untouched a ha

/-! ## How much is remembered -/

omit [LawfulEqOrd κ] in
theorem size_undo_remember_le (j : Journal κ ν) (k : κ) :
    (j.remember k).undo.size ≤ j.undo.size + 1 := by
  unfold remember
  split_ifs
  · exact Nat.le_succ _
  · exact ExtTreeMap.size_insert_le

theorem get_undo_remember [DecidableEq κ] (j : Journal κ ν) (k a : κ) :
    (j.remember k).undo[a]? =
      if k = a ∧ j.undo[a]? = none then some j.records[k]? else j.undo[a]? := by
  unfold remember
  by_cases hka : k = a
  · subst hka
    cases hk : j.undo[k]? <;> simp [hk]
  · have hno : ¬(k = a ∧ j.undo[a]? = none) := fun h ↦ hka h.1
    rw [if_neg hno]
    split_ifs
    · rfl
    · exact Table.get_insert_of_ne _ _ hka

end Journal

end Store
