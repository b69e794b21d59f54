import Mathlib

/-!
# Lists with unique keys

A container that looks its elements up by a key, and lists them in the order of other fields, is
modelled by the list of its elements in the order in which they came in. No two elements have the
same key. An order on other fields does not have to tell all elements apart: elements that it does
not tell apart stay in the order in which they came in.
-/

namespace Store

structure Keyed {α κ : Type} (key : α → κ) where
  entries : List α := []
  unique : (entries.map key).Nodup := by exact List.nodup_nil

namespace Keyed

variable {α κ : Type} {key : α → κ} [DecidableEq κ]

instance : Membership α (Keyed key) := ⟨fun t a ↦ a ∈ t.entries⟩

omit [DecidableEq κ] in
theorem mem_def {t : Keyed key} {a : α} : a ∈ t ↔ a ∈ t.entries := Iff.rfl

omit [DecidableEq κ] in
@[simp] theorem not_mem_empty (a : α) : ¬a ∈ ({} : Keyed key) := nofun

omit [DecidableEq κ] in
theorem eq_of_key_eq {t : Keyed key} {a b : α} (ha : a ∈ t) (hb : b ∈ t) (h : key a = key b) :
    a = b := List.inj_on_of_nodup_map t.unique ha hb h

def find (t : Keyed key) (k : κ) : Option α := t.entries.find? (key · = k)

theorem find_eq_some {t : Keyed key} {k : κ} {a : α} : t.find k = some a ↔ a ∈ t ∧ key a = k := by
  constructor
  · intro h
    exact ⟨List.mem_of_find?_eq_some h, by simpa using List.find?_some h⟩
  · rintro ⟨ha, rfl⟩
    have hsome : (t.entries.find? (key · = key a)).isSome :=
      List.find?_isSome.mpr ⟨a, ha, by simp⟩
    obtain ⟨b, hb⟩ := Option.isSome_iff_exists.mp hsome
    have hkey : key b = key a := by simpa using List.find?_some hb
    rw [find, hb, eq_of_key_eq (List.mem_of_find?_eq_some hb) ha hkey]

theorem find_eq_none {t : Keyed key} {k : κ} : t.find k = none ↔ ∀ a ∈ t, key a ≠ k := by
  rw [find, List.find?_eq_none]
  simp [mem_def]

def erase (t : Keyed key) (k : κ) : Keyed key :=
  ⟨t.entries.filter (key · ≠ k), (List.filter_sublist.map key).nodup t.unique⟩

@[simp] theorem mem_erase {t : Keyed key} {k : κ} {a : α} : a ∈ t.erase k ↔ a ∈ t ∧ key a ≠ k := by
  rw [mem_def, erase, List.mem_filter, mem_def]
  simp

/-- Put an element in, unless there is one with its key. -/
def insert (t : Keyed key) (a : α) : Keyed key :=
  if h : t.find (key a) = none then
    ⟨t.entries ++ [a], by
      rw [List.map_append, List.map_singleton, List.nodup_append]
      refine ⟨t.unique, List.nodup_singleton _, fun k hk k' hk' ↦ ?_⟩
      obtain ⟨b, hb, rfl⟩ := List.mem_map.mp hk
      rw [List.mem_singleton.mp hk']
      exact find_eq_none.mp h b hb⟩
  else t

theorem mem_insert {t : Keyed key} {a b : α} :
    b ∈ t.insert a ↔ b ∈ t ∨ b = a ∧ t.find (key a) = none := by
  rw [insert]
  split_ifs with h
  · rw [mem_def, List.mem_append, List.mem_singleton, mem_def]
    simp [h]
  · simp [h]

/-- Put elements in, one after the other. -/
def insertAll (as : List α) (t : Keyed key) : Keyed key := as.foldl insert t

/-- Elements of which no two have the same key all get in. -/
theorem mem_insertAll {as : List α} {t : Keyed key} {b : α}
    (h : ∀ a ∈ as, ∀ b, b ∈ t ∨ b ∈ as → key a = key b → a = b) :
    b ∈ insertAll as t ↔ b ∈ t ∨ b ∈ as := by
  induction as generalizing t with
  | nil => simp [insertAll]
  | cons a as ih =>
    have hgen (c : α) : c ∈ t.insert a ↔ c ∈ t ∨ c = a := by
      rw [mem_insert, find_eq_none]
      refine or_congr_right' fun hc ↦ and_iff_left_of_imp fun hca e he hkey ↦ hc ?_
      rwa [hca, h a (List.mem_cons_self ..) e (.inl he) hkey.symm]
    have hrest := ih (t := t.insert a) fun a' ha' b hb hkey ↦ by
      refine h a' (List.mem_cons_of_mem _ ha') b ?_ hkey
      rw [hgen] at hb
      rw [List.mem_cons]
      tauto
    rw [insertAll, List.foldl_cons, ← insertAll, hrest, hgen, List.mem_cons, or_assoc]

theorem mem_insertAll_of_mem {as : List α} {t : Keyed key} {b : α} (hb : b ∈ t) :
    b ∈ insertAll as t := by
  induction as generalizing t with
  | nil => exact hb
  | cons a as ih => exact ih (mem_insert.mpr (.inl hb))

theorem mem_or_of_mem_insertAll {as : List α} {t : Keyed key} {b : α} (hb : b ∈ insertAll as t) :
    b ∈ t ∨ b ∈ as ∧ t.find (key b) = none := by
  induction as generalizing t with
  | nil => exact .inl hb
  | cons a as ih =>
    rcases ih hb with hmem | ⟨hmem, hnone⟩
    · rcases mem_insert.mp hmem with hmem | ⟨rfl, hnone⟩
      · exact .inl hmem
      · exact .inr ⟨List.mem_cons_self .., hnone⟩
    · refine .inr ⟨List.mem_cons_of_mem _ hmem, find_eq_none.mpr fun c hc ↦ ?_⟩
      exact find_eq_none.mp hnone c (mem_insert.mpr (.inl hc))

theorem exists_mem_insertAll {as : List α} {t : Keyed key} {a : α} (ha : a ∈ as) :
    ∃ b ∈ insertAll as t, key b = key a := by
  induction as generalizing t with
  | nil => exact absurd ha List.not_mem_nil
  | cons c as ih =>
    rcases List.mem_cons.mp ha with rfl | ha
    · -- it goes in, or there is an element with its key; either stays
      have hstays {b : α} (hb : b ∈ t.insert a) : b ∈ insertAll (a :: as) t :=
        (mem_insertAll_of_mem hb : b ∈ insertAll as (t.insert a))
      cases hfind : t.find (key a) with
      | none => exact ⟨a, hstays (mem_insert.mpr (.inr ⟨rfl, hfind⟩)), rfl⟩
      | some b =>
        obtain ⟨hb, hkey⟩ := find_eq_some.mp hfind
        exact ⟨b, hstays (mem_insert.mpr (.inl hb)), hkey⟩
    · exact ih ha

/-- Put an element in the place of the one with its key, behind all others. -/
def replace (t : Keyed key) (a : α) : Keyed key := (t.erase (key a)).insert a

@[simp] theorem mem_replace {t : Keyed key} {a b : α} :
    b ∈ t.replace a ↔ b = a ∨ b ∈ t ∧ key b ≠ key a := by
  have hnone : (t.erase (key a)).find (key a) = none :=
    find_eq_none.mpr fun c hc ↦ (mem_erase.mp hc).2
  rw [replace, mem_insert, mem_erase, or_comm]
  simp [hnone]

/-- The elements in the order in which one comes before another. -/
def sorted (t : Keyed key) (before : α → α → Bool) : List α :=
  t.entries.insertionSort fun a b ↦ before b a = false

omit [DecidableEq κ] in
@[simp] theorem mem_sorted {t : Keyed key} {before : α → α → Bool} {a : α} :
    a ∈ t.sorted before ↔ a ∈ t := List.mem_insertionSort _

end Keyed

end Store
