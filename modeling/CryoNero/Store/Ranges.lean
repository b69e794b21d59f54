import CryoNero.Store.Table

/-!
# Reading a table by ranges

A cursor that starts at a key runs along the keys in their order, and stops at the first one beyond a
bound. When what is compared with the bound rises along the keys that the cursor sees, it has seen
everything within the bound then (`mem_takeWhile_filter`). Entries in the order of a part of their keys fall
into groups (`exists_groups`).
-/

namespace Store

open Std

/-- A condition that holds of everything before an entry of which it holds cuts off what it filters. -/
theorem takeWhile_eq_filter {α : Type} {P : α → Bool} {l : List α}
    (hmono : l.Pairwise fun a b ↦ P b = true → P a = true) : l.takeWhile P = l.filter P := by
  induction l with
  | nil => rfl
  | cons a l ih =>
    rw [List.pairwise_cons] at hmono
    by_cases ha : P a = true
    · rw [List.takeWhile_cons_of_pos ha, List.filter_cons_of_pos ha, ih hmono.2]
    · rw [List.takeWhile_cons_of_neg ha, List.filter_cons_of_neg ha, eq_comm, List.filter_eq_nil_iff]
      exact fun b hb hPb ↦ ha (hmono.1 b hb hPb)

/-! ## Groups -/

/-- Lists of entries of which each has one key, in the order of the keys. -/
structure Groups {α κ : Type} (f : α → κ) (R : κ → κ → Prop) (gs : List (List α)) : Prop where
  nonempty : ∀ g ∈ gs, g ≠ []
  const : ∀ g ∈ gs, ∀ a ∈ g, ∀ b ∈ g, f a = f b
  ordered : gs.Pairwise fun g g' ↦ ∀ a ∈ g, ∀ b ∈ g', R (f a) (f b)

/-- A list in the order of its keys falls into groups. -/
theorem exists_groups {α κ : Type} {f : α → κ} {R : κ → κ → Prop} (hR : ∀ a b, R a b → ¬R b a) {l : List α}
    (hl : l.Pairwise fun a b ↦ f a = f b ∨ R (f a) (f b)) : ∃ gs, Groups f R gs ∧ gs.flatten = l := by
  have hirrefl (a : κ) (h : R a a) : False := hR a a h h
  induction l with
  | nil => exact ⟨[], ⟨nofun, nofun, .nil⟩, rfl⟩
  | cons a l ih =>
    rw [List.pairwise_cons] at hl
    obtain ⟨gs, ⟨hne, hconst, hordered⟩, rfl⟩ := ih hl.2
    rcases gs with _ | ⟨g, gs⟩
    · exact ⟨[[a]], ⟨by simp, by simp, List.pairwise_singleton _ _⟩, rfl⟩
    obtain ⟨b, g, rfl⟩ := List.exists_cons_of_ne_nil (hne g List.mem_cons_self)
    rw [List.pairwise_cons] at hordered
    rw [List.forall_mem_cons] at hne hconst
    have hb : b ∈ ((b :: g) :: gs).flatten := List.mem_cons_self
    have hrest (g' : List α) (hg' : g' ∈ gs) (c : α) (hc : c ∈ g') : c ∈ ((b :: g) :: gs).flatten :=
      List.mem_flatten.mpr ⟨g', List.mem_cons_of_mem _ hg', hc⟩
    rcases hl.1 b hb with hab | hab
    · -- the entry has the key of the first group
      have hkey (c : α) (hc : c ∈ a :: b :: g) : f c = f b := by
        rcases List.mem_cons.mp hc with rfl | hc
        · exact hab
        · exact hconst.1 c hc b List.mem_cons_self
      refine ⟨(a :: b :: g) :: gs, ⟨List.forall_mem_cons.mpr ⟨List.cons_ne_nil _ _, hne.2⟩,
        List.forall_mem_cons.mpr ⟨fun c hc c' hc' ↦ (hkey c hc).trans (hkey c' hc').symm, hconst.2⟩,
        List.pairwise_cons.mpr ⟨fun g' hg' c hc c' hc' ↦ ?_, hordered.2⟩⟩, rfl⟩
      rw [hkey c hc]
      exact hordered.1 g' hg' b List.mem_cons_self c' hc'
    · -- the entry is a group of its own
      refine ⟨[a] :: (b :: g) :: gs, ⟨List.forall_mem_cons.mpr ⟨List.cons_ne_nil _ _,
          List.forall_mem_cons.mpr hne⟩,
        List.forall_mem_cons.mpr ⟨by simp, List.forall_mem_cons.mpr hconst⟩,
        List.pairwise_cons.mpr ⟨fun g' hg' c hc c' hc' ↦ ?_, List.pairwise_cons.mpr hordered⟩⟩, rfl⟩
      rw [List.mem_singleton.mp hc]
      rcases List.mem_cons.mp hg' with rfl | hg'
      · rw [hconst.1 c' hc' b List.mem_cons_self]
        exact hab
      · have hbc := hordered.1 g' hg' b List.mem_cons_self c' hc'
        refine (hl.1 c' (hrest g' hg' c' hc')).resolve_left fun hac ↦ hR _ _ hab ?_
        rwa [hac]

namespace Table

variable {α β κ ν : Type} [Ord α] [Ord β] [Ord κ] [TransOrd κ]

section Fst

variable [LE α] [LawfulOrderOrd α]

theorem fst_le_of_compare {a b : α ×ₗ β} (h : compare a b = .lt) : (ofLex a).1 ≤ (ofLex b).1 := by
  change (compare (ofLex a).1 (ofLex b).1).then (compare (ofLex a).2 (ofLex b).2) = .lt at h
  rw [← isLE_compare]
  revert h
  cases compare (ofLex a).1 (ofLex b).1 <;> simp [Ordering.then]

end Fst

/-- What a cursor sees that stops when a part of the keys, which rises along them, is beyond a bound. -/
theorem mem_takeWhile_filter [LawfulEqOrd κ] {γ : Type} [LE γ] [IsPreorder γ] [DecidableLE γ] {t : Table κ ν}
    {p : κ × ν → Bool} {f : κ → γ} {hi : γ}
    (hf : ∀ a b, p a = true → p b = true → compare a.1 b.1 = .lt → f a.1 ≤ f b.1) {e : κ × ν} :
    e ∈ (t.toList.filter p).takeWhile (fun e ↦ f e.1 ≤ hi) ↔
      t[e.1]? = some e.2 ∧ p e = true ∧ f e.1 ≤ hi := by
  have hsorted : (t.toList.filter p).Pairwise fun a b ↦ compare a.1 b.1 = .lt :=
    (ExtTreeMap.ordered_keys_toList (t := t)).filter _
  have hmono : (t.toList.filter p).Pairwise fun a b ↦
      decide (f b.1 ≤ hi) = true → decide (f a.1 ≤ hi) = true := by
    refine hsorted.imp_of_mem fun ha hb hab hle ↦ decide_eq_true ?_
    exact Std.le_trans (hf _ _ (List.mem_filter.mp ha).2 (List.mem_filter.mp hb).2 hab)
      (of_decide_eq_true hle)
  rw [takeWhile_eq_filter hmono, List.mem_filter, List.mem_filter, decide_eq_true_iff, and_assoc]
  exact and_congr_left' mem_toList

end Table

end Store
