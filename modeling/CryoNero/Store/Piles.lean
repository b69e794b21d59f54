import CryoNero.Store.Totals

/-!
# Piles

A table that keeps a pile of items for every key that has any. Items are put on top of a pile and
taken off its top. Those who take items off remove a pile when it has become empty, so that a table
has no empty piles between two operations (`NoEmpty`), and nothing is lost or doubled on the way: the
items of a table are followed as a multiset (`contents`).
-/

namespace Store

open Std

abbrev Piles (κ α : Type) [Ord κ] := Table κ (List α)

namespace Piles

variable {κ α : Type} [Ord κ] [TransOrd κ] [LawfulEqOrd κ]

/-- Put an item on top of the pile of a key. -/
def push (t : Piles κ α) (k : κ) (a : α) : Piles κ α := t.insert k ((t[k]?).getD [] ++ [a])

/-- Take an item off the top of a pile, which stays even if it is empty then. -/
def popBack (t : Piles κ α) (k : κ) : Option (α × Piles κ α) :=
  match t[k]? with
  | none => none
  | some l => l.getLast?.map fun a ↦ (a, t.insert k l.dropLast)

/-- Remove a pile that is empty. -/
def prune (t : Piles κ α) (k : κ) : Piles κ α :=
  if (t[k]?).any List.isEmpty then t.erase k else t

/-- The items of all piles. -/
def contents (t : Piles κ α) : Multiset α := ↑(t.toList.flatMap Prod.snd)

/-- No pile is empty. -/
def NoEmpty (t : Piles κ α) : Prop := ∀ k : κ, t[k]? ≠ some []

variable {t t' : Piles κ α} {k k' : κ} {l : List α} {a : α}

/-! ## Items -/

theorem contents_of_get (h : t[k]? = some l) : contents t = ↑l + contents (t.erase k) := by
  have hperm := (Table.toList_perm_of_get h).flatMap_right Prod.snd
  rw [List.flatMap_cons] at hperm
  rw [contents, contents, Multiset.coe_add]
  exact Quot.sound hperm

private theorem contents_insert (t : Piles κ α) (k : κ) (l : List α) :
    contents (t.insert k l) = ↑l + contents (t.erase k) := by
  classical
  rw [contents_of_get (Table.get_insert_self t k l)]
  congr 2
  refine Table.ext_get fun k' ↦ ?_
  rw [Table.get_erase, Table.get_insert, Table.get_erase]
  split_ifs <;> rfl

@[simp] theorem contents_empty : contents (∅ : Piles κ α) = 0 := by
  have hnil : (∅ : Piles κ α).toList = [] := by
    refine List.eq_nil_iff_forall_not_mem.mpr fun p hp ↦ ?_
    cases (ExtTreeMap.getElem?_empty).symm.trans (Table.mem_toList.mp hp)
  rw [contents, hnil]
  rfl

theorem contents_push (t : Piles κ α) (k : κ) (a : α) : contents (t.push k a) = a ::ₘ contents t := by
  rw [push, contents_insert]
  cases hk : t[k]? with
  | none =>
    rw [Table.erase_of_get_eq_none hk]
    rfl
  | some l =>
    rw [contents_of_get hk, ← Multiset.cons_add, Option.getD_some]
    congr 1
    exact Quot.sound (List.perm_append_singleton a l)

omit [LawfulEqOrd κ] in
theorem popBack_eq_some {p : α × Piles κ α} :
    t.popBack k = some p ↔ ∃ l, t[k]? = some (l ++ [p.1]) ∧ p.2 = t.insert k l := by
  rw [popBack]
  cases hk : t[k]? with
  | none => simp
  | some l =>
    constructor
    · intro h
      obtain ⟨a, ha, rfl⟩ := Option.map_eq_some_iff.mp h
      obtain ⟨init, rfl⟩ := List.getLast?_eq_some_iff.mp ha
      exact ⟨init, rfl, by rw [List.dropLast_concat]⟩
    · rintro ⟨init, hinit, hp⟩
      obtain rfl := Option.some.inj hinit
      change (init ++ [p.1]).getLast?.map _ = some p
      rw [List.getLast?_concat, List.dropLast_concat, Option.map_some, ← hp]

theorem contents_popBack {p : α × Piles κ α} (h : t.popBack k = some p) :
    contents t = p.1 ::ₘ contents p.2 := by
  obtain ⟨l, hk, hp⟩ := popBack_eq_some.mp h
  rw [hp, contents_of_get hk, contents_insert, ← Multiset.cons_add]
  congr 1
  exact Quot.sound (List.perm_append_singleton p.1 l)

theorem contents_prune (t : Piles κ α) (k : κ) : contents (t.prune k) = contents t := by
  rw [prune]
  split_ifs with hk
  · obtain ⟨l, hl, hnil⟩ := (Option.any_eq_true _ _).mp hk
    rw [contents_of_get hl, List.isEmpty_iff.mp hnil, Multiset.coe_nil, zero_add]
  · rfl

theorem mem_contents : a ∈ contents t ↔ ∃ (k : κ) (l : List α), t[k]? = some l ∧ a ∈ l := by
  rw [contents, Multiset.mem_coe, List.mem_flatMap]
  constructor
  · rintro ⟨⟨k, l⟩, hp, ha⟩
    exact ⟨k, l, Table.mem_toList.mp hp, ha⟩
  · rintro ⟨k, l, hp, ha⟩
    exact ⟨⟨k, l⟩, Table.mem_toList.mpr hp, ha⟩

/-! ## Empty piles -/

omit [LawfulEqOrd κ] in
theorem noEmpty_empty : NoEmpty (∅ : Piles κ α) := by
  intro k hk
  cases (ExtTreeMap.getElem?_empty).symm.trans hk

theorem NoEmpty.insert (h : NoEmpty t) (hl : l ≠ []) : NoEmpty (t.insert k l) := by
  classical
  intro k' hk'
  rw [Table.get_insert] at hk'
  split_ifs at hk' with hkk
  · exact hl (Option.some.inj hk')
  · exact h k' hk'

theorem NoEmpty.push (h : NoEmpty t) (k : κ) (a : α) : NoEmpty (t.push k a) :=
  h.insert (List.append_ne_nil_of_right_ne_nil _ (List.cons_ne_nil _ _))

/-- An item can be taken off every pile, and what is left has no empty pile if it is removed. -/
theorem NoEmpty.popBack (h : NoEmpty t) (hk : t[k]? = some l) :
    ∃ p, t.popBack k = some p ∧ p.1 ∈ l ∧ NoEmpty (p.2.prune k) := by
  classical
  obtain ⟨init, a, rfl⟩ : ∃ init a, l = init ++ [a] := by
    rcases List.eq_nil_or_concat l with rfl | ⟨init, a, rfl⟩
    · exact absurd hk (h k)
    · exact ⟨init, a, List.concat_eq_append⟩
  refine ⟨(a, t.insert k init), popBack_eq_some.mpr ⟨init, hk, rfl⟩,
    List.mem_append_right _ (List.mem_singleton_self a), ?_⟩
  rw [prune, Table.get_insert_self]
  dsimp only
  split_ifs with hinit
  · intro k' hk'
    rw [Table.get_erase, Table.get_insert] at hk'
    split_ifs at hk' with hkk
    exact h k' hk'
  · refine h.insert fun hnil ↦ hinit ?_
    rw [hnil]
    rfl

/-- A pile that has more items than the one that is taken off stays, and so do all others. -/
theorem exists_get_prune {p : α × Piles κ α} (hp : t.popBack k = some p) (hk' : t[k']? = some l)
    (hstay : k' = k → 1 < l.length) : ∃ l', (p.2.prune k)[k']? = some l' := by
  classical
  obtain ⟨init, hk, hp⟩ := popBack_eq_some.mp hp
  have hpile : ∃ l', p.2[k']? = some l' ∧ (k = k' → l' ≠ []) := by
    rw [hp, Table.get_insert]
    split_ifs with hkk
    · subst hkk
      obtain rfl := Option.some.inj (hk.symm.trans hk')
      refine ⟨init, rfl, fun _ hnil ↦ ?_⟩
      have hlt := hstay rfl
      rw [hnil] at hlt
      exact absurd hlt (Nat.lt_irrefl 1)
    · exact ⟨l, hk', fun heq ↦ absurd heq hkk⟩
  obtain ⟨l', hl', hne⟩ := hpile
  refine ⟨l', ?_⟩
  rw [prune]
  split_ifs with hempty
  · rw [Table.get_erase_of_ne, hl']
    rintro rfl
    rw [hl', Option.any_some, List.isEmpty_iff] at hempty
    exact hne rfl hempty
  · exact hl'

/-- A table without empty piles is empty just if it has no items. -/
theorem NoEmpty.contents_eq_zero (h : NoEmpty t) : contents t = 0 ↔ t.isEmpty = true := by
  rw [ExtTreeMap.isEmpty_iff]
  constructor
  · intro hzero
    refine Table.ext_get fun k ↦ ?_
    rw [ExtTreeMap.getElem?_empty]
    cases hk : t[k]? with
    | none => rfl
    | some l =>
      rw [contents_of_get hk, add_eq_zero, Multiset.coe_eq_zero] at hzero
      rw [hzero.1] at hk
      exact absurd hk (h k)
  · rintro rfl
    exact contents_empty

end Piles

end Store
