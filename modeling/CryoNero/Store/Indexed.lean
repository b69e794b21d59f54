import CryoNero.Store.Journal

/-!
# Databases with several indexes

A database keeps records of several kinds, each under keys of its own. It is a family of journals, one
for each index, and what it remembers is replayed index by index (`Restores.replay`). An operation
writes one index and leaves the tables of the others as they are (`records_put`, `records_del`), and
several operations leave all those as they are that none of them writes (`Changes.get_eq`).
-/

namespace Store

open Std

variable {ι : Type}

/-- A journal for each index. -/
structure Indexed (κ ν : ι → Type) [∀ i, Ord (κ i)] where
  journal : (i : ι) → Journal (κ i) (ν i) := fun _ ↦ {}

namespace Indexed

variable {κ ν : ι → Type} [∀ i, Ord (κ i)] (s : Indexed κ ν)

/-- The table of each index. -/
abbrev Records (κ ν : ι → Type) [∀ i, Ord (κ i)] := (i : ι) → Table (κ i) (ν i)

/-- What is remembered for each index. -/
abbrev Undo (κ ν : ι → Type) [∀ i, Ord (κ i)] := (i : ι) → Table (κ i) (Option (ν i))

def records : Records κ ν := fun i ↦ (s.journal i).records
def undo : Undo κ ν := fun i ↦ (s.journal i).undo

/-- Records with nothing to undo. -/
def ofRecords (t : Records κ ν) : Indexed κ ν := ⟨fun i ↦ ⟨t i, ∅⟩⟩

@[simp] theorem records_ofRecords (t : Records κ ν) : (ofRecords t).records = t := rfl

variable [∀ i, TransOrd (κ i)]

def get (i : ι) (k : κ i) : Option (ν i) := (s.records i)[k]?

theorem get_of_records {s s' : Indexed κ ν} {i : ι} (h : s'.records i = s.records i) (k : κ i) :
    s'.get i k = s.get i k := by
  rw [get, get, h]

/-- Put all old records back. -/
def replay (undo : Undo κ ν) (t : Records κ ν) : Records κ ν := fun i ↦ Journal.replay (undo i) (t i)

/-- What was remembered is what the tables `t` hold. -/
def Restores (t : Records κ ν) : Prop := ∀ i, (s.journal i).Restores (t i)

variable [DecidableEq ι]

def put (i : ι) (k : κ i) (v : ν i) : Indexed κ ν :=
  ⟨Function.update s.journal i ((s.journal i).put k v)⟩

def del (i : ι) (k : κ i) : Indexed κ ν := ⟨Function.update s.journal i ((s.journal i).del k)⟩

variable {s} {i : ι} {k : κ i} {v : ν i} {t : Records κ ν}

@[simp] theorem records_put :
    (s.put i k v).records = Function.update s.records i ((s.records i).insert k v) := by
  funext j
  by_cases hj : j = i
  · subst hj
    simp [put, records]
  · simp [put, records, hj]

@[simp] theorem records_del :
    (s.del i k).records = Function.update s.records i ((s.records i).erase k) := by
  funext j
  by_cases hj : j = i
  · subst hj
    simp [del, records]
  · simp [del, records, hj]

@[simp] theorem get_put_of_ne {j : ι} (hj : j ≠ i) (a : κ j) : (s.put i k v).get j a = s.get j a :=
  get_of_records (by rw [records_put, Function.update_of_ne hj]) a

@[simp] theorem get_del_of_ne {j : ι} (hj : j ≠ i) (a : κ j) : (s.del i k).get j a = s.get j a :=
  get_of_records (by rw [records_del, Function.update_of_ne hj]) a

omit [DecidableEq ι] in
theorem restores_ofRecords (t : Records κ ν) : (ofRecords t).Restores t :=
  fun i ↦ Journal.restores_clear (t i)

variable [∀ i, LawfulEqOrd (κ i)]

theorem get_put [DecidableEq (κ i)] (a : κ i) :
    (s.put i k v).get i a = if k = a then some v else s.get i a := by
  rw [get, records_put, Function.update_self, Table.get_insert, get]

theorem get_del [DecidableEq (κ i)] (a : κ i) :
    (s.del i k).get i a = if k = a then none else s.get i a := by
  rw [get, records_del, Function.update_self, Table.get_erase, get]

theorem Restores.put (h : s.Restores t) (i : ι) (k : κ i) (v : ν i) : (s.put i k v).Restores t := by
  intro j
  by_cases hj : j = i
  · subst hj
    simpa [Indexed.put] using (h j).put k v
  · simpa [Indexed.put, hj] using h j

theorem Restores.del (h : s.Restores t) (i : ι) (k : κ i) : (s.del i k).Restores t := by
  intro j
  by_cases hj : j = i
  · subst hj
    simpa [Indexed.del] using (h j).del k
  · simpa [Indexed.del, hj] using h j

omit [DecidableEq ι] [∀ i, LawfulEqOrd (κ i)] in
theorem replay_of_isEmpty {undo : Undo κ ν} (h : ∀ i, (undo i).isEmpty = true) (t : Records κ ν) :
    replay undo t = t := by
  funext i
  rw [replay, ExtTreeMap.isEmpty_iff.mp (h i)]
  rfl

omit [DecidableEq ι] in
/-- **Replaying restores the tables.** -/
theorem Restores.replay (h : s.Restores t) : Indexed.replay s.undo s.records = t :=
  funext fun i ↦ (h i).replay

/-! ## What is touched -/

/-- A database comes from another one by writing some of its indexes. -/
inductive Changes (I : ι → Prop) (s : Indexed κ ν) : Indexed κ ν → Prop
  | refl : Changes I s s
  | put {s' : Indexed κ ν} (h : Changes I s s') {i : ι} (hi : I i) (k : κ i) (v : ν i) :
      Changes I s (s'.put i k v)
  | del {s' : Indexed κ ν} (h : Changes I s s') {i : ι} (hi : I i) (k : κ i) : Changes I s (s'.del i k)

namespace Changes

variable {I J : ι → Prop} {s' s'' : Indexed κ ν}

omit [∀ i, LawfulEqOrd (κ i)] in
theorem of_put (hi : I i) : Changes I s (s.put i k v) := .put .refl hi k v

omit [∀ i, LawfulEqOrd (κ i)] in
theorem of_del (hi : I i) : Changes I s (s.del i k) := .del .refl hi k

omit [∀ i, LawfulEqOrd (κ i)] in
theorem trans (h : Changes I s s') (h' : Changes I s' s'') : Changes I s s'' := by
  induction h' with
  | refl => exact h
  | put _ hi k v ih => exact ih.put hi k v
  | del _ hi k ih => exact ih.del hi k

omit [∀ i, LawfulEqOrd (κ i)] in
theorem mono (h : Changes I s s') (hIJ : ∀ i, I i → J i) : Changes J s s' := by
  induction h with
  | refl => exact .refl
  | put _ hi k v ih => exact ih.put (hIJ _ hi) k v
  | del _ hi k ih => exact ih.del (hIJ _ hi) k

omit [∀ i, LawfulEqOrd (κ i)] in
theorem records_eq (h : Changes I s s') {i : ι} (hi : ¬I i) : s'.records i = s.records i := by
  induction h with
  | refl => rfl
  | @put _ _ j hj k v ih =>
    rw [records_put, Function.update_of_ne (fun hij ↦ hi (by rwa [hij])), ih]
  | @del _ _ j hj k ih =>
    rw [records_del, Function.update_of_ne (fun hij ↦ hi (by rwa [hij])), ih]

omit [∀ i, LawfulEqOrd (κ i)] in
theorem get_eq (h : Changes I s s') {i : ι} (hi : ¬I i) (k : κ i) : s'.get i k = s.get i k :=
  get_of_records (h.records_eq hi) k

theorem restores (h : Changes I s s') (hs : s.Restores t) : s'.Restores t := by
  induction h with
  | refl => exact hs
  | put _ _ k v ih => exact ih.put _ k v
  | del _ _ k ih => exact ih.del _ k

end Changes

end Indexed

end Store
