import CryoNero.Store.Totals

/-!
# Tables of sets

A relation between keys and members is kept as a table of sets, one for each key that has members.
The first member of the first set is the least pair of the relation. A key whose last member is
removed disappears from the table, so that no set in it is empty.
-/

namespace Store

open Std

variable {κ α : Type} [Ord κ] [TransOrd κ] [LawfulEqOrd κ] [Ord α] [TransOrd α] [LawfulEqOrd α]

/-- The table holds the pairs of `r`, and no empty set. -/
structure Bucketed (t : Table κ (Table α Unit)) (r : κ → α → Prop) : Prop where
  mem : ∀ {k : κ} {a : α}, (∃ b : Table α Unit, t[k]? = some b ∧ b[a]? = some ()) ↔ r k a
  nonempty : ∀ {k : κ} {b : Table α Unit}, t[k]? = some b → ∃ a : α, b[a]? = some ()

namespace Bucketed

variable {t : Table κ (Table α Unit)} {r : κ → α → Prop} {k : κ} {a : α}

omit [LawfulEqOrd κ] [LawfulEqOrd α] in
theorem empty : Bucketed (∅ : Table κ (Table α Unit)) fun _ _ ↦ False where
  mem := by
    refine ⟨fun ⟨b, hb, _⟩ ↦ ?_, False.elim⟩
    cases (ExtTreeMap.getElem?_empty).symm.trans hb
  nonempty hb := by cases (ExtTreeMap.getElem?_empty).symm.trans hb

omit [LawfulEqOrd κ] [LawfulEqOrd α] in
/-- The set of a key, empty when the key has none, has the members of the key. -/
theorem mem_getD (h : Bucketed t r) : ((t[k]?).getD ∅)[a]? = some () ↔ r k a := by
  rw [← h.mem]
  cases hk : t[k]? with
  | none =>
    constructor
    · intro ha
      cases (ExtTreeMap.getElem?_empty).symm.trans ha
    · rintro ⟨b, hb, -⟩
      cases hb
  | some b =>
    constructor
    · intro ha
      exact ⟨b, rfl, ha⟩
    · rintro ⟨b', hb', ha⟩
      cases hb'
      exact ha

theorem insert (h : Bucketed t r) (k : κ) (a : α) :
    Bucketed (t.insert k (((t[k]?).getD ∅).insert a ())) fun k' a' ↦ r k' a' ∨ k' = k ∧ a' = a := by
  classical
  refine ⟨fun {k' a'} ↦ ?_, fun {k' b} hb ↦ ?_⟩
  · rw [Table.get_insert]
    by_cases hk : k = k'
    · subst hk
      rw [if_pos rfl, ← h.mem_getD]
      constructor
      · rintro ⟨b, hb, ha⟩
        cases hb
        rw [Table.get_insert] at ha
        split_ifs at ha with haa
        · exact .inr ⟨rfl, haa.symm⟩
        · exact .inl ha
      · intro hr
        refine ⟨_, rfl, ?_⟩
        rw [Table.get_insert]
        split_ifs with haa
        · rfl
        · exact hr.resolve_right fun hka ↦ haa hka.2.symm
    · rw [if_neg hk, h.mem]
      exact ⟨.inl, fun hr ↦ hr.resolve_right fun hka ↦ hk hka.1.symm⟩
  · rw [Table.get_insert] at hb
    split_ifs at hb with hk
    · cases hb
      exact ⟨a, Table.get_insert_self _ _ _⟩
    · exact h.nonempty hb

/-- Take a member out of the set of a key, and the key with its last member. -/
theorem remove (h : Bucketed t r) (k : κ) (a : α) :
    Bucketed (if (((t[k]?).getD ∅).erase a).isEmpty then t.erase k
      else t.insert k (((t[k]?).getD ∅).erase a)) fun k' a' ↦ r k' a' ∧ ¬(k' = k ∧ a' = a) := by
  classical
  set b := (t[k]?).getD ∅ with hb
  have hmem {a' : α} : (b.erase a)[a']? = some () ↔ r k a' ∧ a' ≠ a := by
    rw [Table.get_erase, ← h.mem_getD (k := k)]
    split_ifs with ha
    · simp [ha]
    · exact ⟨fun hr ↦ ⟨hr, Ne.symm ha⟩, And.left⟩
  have hother {k' : κ} (hk : k ≠ k') {a' : α} : r k' a' ↔ r k' a' ∧ ¬(k' = k ∧ a' = a) :=
    ⟨fun hr ↦ ⟨hr, fun hka ↦ hk hka.1.symm⟩, And.left⟩
  split_ifs with hempty
  · have hnone {a' : α} : ¬(r k a' ∧ a' ≠ a) := fun hr ↦ by
      have hget := hmem.mpr hr
      rw [ExtTreeMap.isEmpty_iff.mp hempty] at hget
      cases (ExtTreeMap.getElem?_empty).symm.trans hget
    refine ⟨fun {k' a'} ↦ ?_, fun {k' b'} hb' ↦ ?_⟩
    · rw [Table.get_erase]
      by_cases hk : k = k'
      · subst hk
        rw [if_pos rfl]
        constructor
        · rintro ⟨b', hb', -⟩
          cases hb'
        · exact fun hr ↦ absurd ⟨hr.1, fun ha ↦ hr.2 ⟨rfl, ha⟩⟩ hnone
      · rw [if_neg hk, h.mem]
        exact hother hk
    · rw [Table.get_erase] at hb'
      split_ifs at hb' with hk
      exact h.nonempty hb'
  · refine ⟨fun {k' a'} ↦ ?_, fun {k' b'} hb' ↦ ?_⟩
    · rw [Table.get_insert]
      by_cases hk : k = k'
      · subst hk
        rw [if_pos rfl]
        constructor
        · rintro ⟨b', hb', ha⟩
          cases hb'
          exact ⟨(hmem.mp ha).1, fun hka ↦ (hmem.mp ha).2 hka.2⟩
        · exact fun hr ↦ ⟨_, rfl, hmem.mpr ⟨hr.1, fun ha ↦ hr.2 ⟨rfl, ha⟩⟩⟩
      · rw [if_neg hk, h.mem]
        exact hother hk
    · rw [Table.get_insert] at hb'
      split_ifs at hb' with hk
      · cases hb'
        by_contra hnone
        push Not at hnone
        refine hempty (ExtTreeMap.isEmpty_iff.mpr (Table.ext_get fun a' ↦ ?_))
        rw [ExtTreeMap.getElem?_empty]
        cases ha : (b.erase a)[a']? with
        | none => rfl
        | some u => exact absurd ha (hnone a')
      · exact h.nonempty hb'

/-- The first member of the first set is the least pair. -/
theorem head?_eq_some (h : Bucketed t r) {b : Table α Unit} (hhead : t.toList.head? = some (k, b)) :
    ∃ a : α, b.toList.head? = some (a, ()) ∧ r k a ∧
      ∀ k' a', r k' a' → compare k k' ≠ .gt ∧ (k' = k → compare a a' ≠ .gt) := by
  obtain ⟨hk, hleast⟩ := Table.head?_toList_eq_some hhead
  cases hb : b.toList.head? with
  | none =>
    obtain ⟨a, ha⟩ := h.nonempty hk
    rw [Table.head?_toList_eq_none hb a] at ha
    cases ha
  | some p =>
    obtain ⟨a, ⟨⟩⟩ := p
    obtain ⟨ha, hmin⟩ := Table.head?_toList_eq_some hb
    refine ⟨a, rfl, h.mem.mp ⟨b, hk, ha⟩, fun k' a' hr ↦ ?_⟩
    obtain ⟨b', hb', ha'⟩ := h.mem.mpr hr
    refine ⟨hleast k' b' hb', fun hkk ↦ ?_⟩
    rw [hkk, hk] at hb'
    cases hb'
    exact hmin a' () ha'

omit [LawfulEqOrd α] in
theorem head?_eq_none (h : Bucketed t r) (hhead : t.toList.head? = none) (k : κ) (a : α) :
    ¬r k a := by
  intro hr
  obtain ⟨b, hb, -⟩ := h.mem.mpr hr
  rw [Table.head?_toList_eq_none hhead k] at hb
  cases hb

end Bucketed

end Store
