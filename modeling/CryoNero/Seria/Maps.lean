import CryoNero.Seria.Containers
import CryoNero.Store.Totals

/-!
# Maps

How a map with string keys is written and read back.
-/

namespace Seria

open Store Std

/-! ## Maps -/

section Maps

variable {ν : Type}

/-- Read so many entries and insert each one whose key is new. -/
def readEntries (r : Reader ν) (d : ν) : ℕ → Reader (Table Bytes ν)
  | 0, m, s => (m, some s)
  | n + 1, m, s =>
    match readBytes [] s with
    | (_, none) => (m, none)
    | (k, some s) =>
      match r d s with
      | (_, none) => (m, none)
      | (v, some s) => readEntries r d n (if (m[k]?).isSome then m else m.insert k v) s

def readMap (r : Reader ν) (d : ν) : Reader (Table Bytes ν) := fun m s ↦
  match readVarint 64 s with
  | none => (m, none)
  | some (size, t) => readEntries r d size m t

/-- The entries by the order of their keys. -/
def writeMap (w : ν → Bytes) (m : Table Bytes ν) : Bytes :=
  writeVarint m.size ++ writeItems (fun e ↦ writeBytes e.1 ++ w e.2) m.toList

private theorem readEntries_writeItems {r : Reader ν} {d : ν} {w : ν → Bytes} (rest : Bytes) :
    ∀ (l : List (Bytes × ν)) (m : Table Bytes ν), (l.map Prod.fst).Nodup →
      (∀ e ∈ l, m[e.1]? = none) → (∀ e ∈ l, e.1.length < 2 ^ 64) → (∀ e ∈ l, Reads r w d e.2) →
      readEntries r d l.length m (writeItems (fun e ↦ writeBytes e.1 ++ w e.2) l ++ rest) =
        (l.foldl (fun m e ↦ m.insert e.1 e.2) m, some rest) := by
  intro l
  induction l with
  | nil => exact fun m _ _ _ _ ↦ rfl
  | cons e l ih =>
    intro m hnodup hnew hlength hreads
    rw [List.map_cons, List.nodup_cons] at hnodup
    have hsplit : writeItems (fun e : Bytes × ν ↦ writeBytes e.1 ++ w e.2) (e :: l) ++ rest =
        writeBytes e.1 ++ (w e.2 ++
          (writeItems (fun e : Bytes × ν ↦ writeBytes e.1 ++ w e.2) l ++ rest)) := by
      simp [writeItems]
    rw [hsplit, List.length_cons, readEntries,
      reads_readBytes [] (hlength e List.mem_cons_self) _]
    dsimp only
    rw [hreads e List.mem_cons_self _]
    dsimp only
    rw [hnew e List.mem_cons_self, if_neg (by simp), List.foldl_cons]
    refine ih _ hnodup.2 (fun e' he' ↦ ?_) (fun e' he' ↦ hlength e' (List.mem_cons_of_mem _ he'))
      fun e' he' ↦ hreads e' (List.mem_cons_of_mem _ he')
    rw [Table.get_insert_of_ne]
    · exact hnew e' (List.mem_cons_of_mem _ he')
    · intro heq
      exact hnodup.1 (heq ▸ List.mem_map_of_mem he')

private theorem foldl_insert_toList (m : Table Bytes ν) :
    m.toList.foldl (fun t e ↦ t.insert e.1 e.2) (∅ : Table Bytes ν) = m := by
  have hget : ∀ (l : List (Bytes × ν)) (t : Table Bytes ν), (l.map Prod.fst).Nodup → ∀ (a : Bytes) v,
      (l.foldl (fun t e ↦ t.insert e.1 e.2) t)[a]? = some v ↔
        (a, v) ∈ l ∨ a ∉ l.map Prod.fst ∧ t[a]? = some v := by
    intro l
    induction l with
    | nil => intro t _ a v; simp
    | cons e l ih =>
      intro t hnodup a v
      rw [List.map_cons, List.nodup_cons] at hnodup
      rw [List.foldl_cons, ih _ hnodup.2, Table.get_insert]
      by_cases hea : e.1 = a
      · subst hea
        have hnotMem (v : ν) : (e.1, v) ∉ l := fun hmem ↦
          hnodup.1 (List.mem_map.mpr ⟨_, hmem, rfl⟩)
        rw [if_pos rfl]
        constructor
        · rintro (hmem | ⟨-, hv⟩)
          · exact absurd hmem (hnotMem v)
          · cases hv
            exact .inl List.mem_cons_self
        · rintro (hmem | ⟨hne, -⟩)
          · rcases List.mem_cons.mp hmem with heq | hmem
            · exact .inr ⟨hnodup.1, by rw [← heq]⟩
            · exact absurd hmem (hnotMem v)
          · exact absurd List.mem_cons_self hne
      · rw [if_neg hea, List.mem_cons, List.map_cons, List.mem_cons, not_or]
        constructor
        · rintro (hmem | ⟨hne, hv⟩)
          · exact .inl (.inr hmem)
          · exact .inr ⟨⟨Ne.symm hea, hne⟩, hv⟩
        · rintro ((heq | hmem) | ⟨⟨-, hne⟩, hv⟩)
          · exact absurd (by rw [← heq]) hea
          · exact .inl hmem
          · exact .inr ⟨hne, hv⟩
  refine Table.ext_get fun a ↦ Option.ext fun v ↦ ?_
  rw [hget _ _ (Table.nodup_keys_toList m), Table.mem_toList, ExtTreeMap.getElem?_empty]
  simp

theorem reads_readMap {r : Reader ν} {d : ν} {w : ν → Bytes} {m : Table Bytes ν}
    (hsize : m.size < 2 ^ 64) (hlength : ∀ (k : Bytes) (v : ν), m[k]? = some v → k.length < 2 ^ 64)
    (hreads : ∀ (k : Bytes) (v : ν), m[k]? = some v → Reads r w d v) :
    Reads (readMap r d) (writeMap w) ∅ m := by
  intro rest
  have hvarint : readVarint 64 (writeVarint m.size ++
      (writeItems (fun e : Bytes × ν ↦ writeBytes e.1 ++ w e.2) m.toList ++ rest)) =
      some (m.size, _) := readVarint_writeVarint (Nat.le_refl 64) hsize _
  rw [writeMap, List.append_assoc, readMap, hvarint]
  dsimp only
  rw [← ExtTreeMap.length_toList, readEntries_writeItems rest m.toList ∅
    (Table.nodup_keys_toList m) (fun e _ ↦ ExtTreeMap.getElem?_empty)
    (fun e he ↦ hlength e.1 e.2 (Table.mem_toList.mp he))
    (fun e he ↦ hreads e.1 e.2 (Table.mem_toList.mp he)), foldl_insert_toList]

end Maps

end Seria
