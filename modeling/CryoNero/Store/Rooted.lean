import Mathlib

/-!
# Trees given by parents

A tree is given by the parent of each of its nodes but the root, and every node is one level above
its parent. Nothing else is asked of it: it may be infinite, and nodes are not linked to their
children.

Everything is said in terms of the ways down (`Way`): the nodes from one down to another one, without
the latter. Since levels fall by one at each step, a way down is determined by where it starts and by
the level where it ends. So two ways down that have come to the same level at different nodes have not
met above it, and where they meet first is the deepest node that both starting points stand on.
-/

namespace Store

structure Rooted (α : Type*) where
  nodes : Set α
  root : α
  parent : α → α
  level : α → ℕ
  root_mem : root ∈ nodes
  parent_mem : ∀ {a : α}, a ∈ nodes → a ≠ root → parent a ∈ nodes
  level_parent : ∀ {a : α}, a ∈ nodes → a ≠ root → level a = level (parent a) + 1

namespace Rooted

variable {α : Type*} (t : Rooted α)

/-- The nodes from `b` down to `a`, without `a`. -/
inductive Way : α → List α → α → Prop
  | here {a : α} (ha : a ∈ t.nodes) : Way a [] a
  | down {b : α} {way : List α} {a : α} (hb : b ∈ t.nodes) (hroot : b ≠ t.root)
      (hway : Way (t.parent b) way a) : Way b (b :: way) a

/-- A node stands on another one: it is the same, or there is a way down to it. -/
def On (b a : α) : Prop := ∃ way, t.Way b way a

variable {t} {a b c : α} {way way' : List α}

theorem Way.level_eq (h : t.Way b way a) : t.level b = t.level a + way.length := by
  induction h with
  | here => rfl
  | down hb hroot _ ih =>
    rw [t.level_parent hb hroot, ih, List.length_cons]
    rfl

theorem Way.append (h : t.Way c way b) (h' : t.Way b way' a) : t.Way c (way ++ way') a := by
  induction h with
  | here => exact h'
  | down hb hroot _ ih => exact .down hb hroot (ih h')

/-- **A way down is determined** by its start and by the level of its end. -/
theorem Way.unique {a' : α} (h : t.Way b way a) (h' : t.Way b way' a')
    (hlevel : t.level a = t.level a') : a = a' ∧ way = way' := by
  induction h generalizing way' with
  | here =>
    rcases h' with ha' | ⟨hb, hroot, hway⟩
    · exact ⟨rfl, rfl⟩
    · have hstart := t.level_parent hb hroot
      have hend := hway.level_eq
      omega
  | down hb hroot hway ih =>
    rcases h' with ha' | ⟨_, _, hway'⟩
    · have hstart := t.level_parent hb hroot
      have hend := hway.level_eq
      omega
    · obtain ⟨rfl, rfl⟩ := ih hway' hlevel
      exact ⟨rfl, rfl⟩

/-- A way down can be cut at any level in between. -/
theorem Way.cut (h : t.Way c way a) {n : ℕ} (hlow : t.level a ≤ n) (hhigh : n ≤ t.level c) :
    ∃ b, t.On c b ∧ t.On b a ∧ t.level b = n := by
  induction h with
  | here ha => exact ⟨_, ⟨[], .here ha⟩, ⟨[], .here ha⟩, by omega⟩
  | @down c way a hc hroot hway ih =>
    have hstep := t.level_parent hc hroot
    rcases Nat.lt_or_ge n (t.level c) with hlt | hge
    · obtain ⟨b, ⟨way₁, hcb⟩, hba, hb⟩ := ih hlow (by omega)
      exact ⟨b, ⟨c :: way₁, .down hc hroot hcb⟩, hba, hb⟩
    · exact ⟨c, ⟨[], .here hc⟩, ⟨c :: way, .down hc hroot hway⟩, by omega⟩

private theorem On.of_level_le {c₁ c₂ : α} (h₁ : t.On b c₁) (h₂ : t.On b c₂)
    (hlevel : t.level c₂ ≤ t.level c₁) : t.On c₁ c₂ := by
  obtain ⟨way₁, hway₁⟩ := h₁
  obtain ⟨way₂, hway₂⟩ := h₂
  have hhigh : t.level c₁ ≤ t.level b := by
    rw [hway₁.level_eq]
    exact Nat.le_add_right _ _
  obtain ⟨c, ⟨way, hbc⟩, hon, hc⟩ := hway₂.cut hlevel hhigh
  obtain ⟨rfl, -⟩ := hway₁.unique hbc hc.symm
  exact hon

/-- Every node stands on the root. -/
theorem on_root (h : b ∈ t.nodes) : t.On b t.root := by
  induction hn : t.level b generalizing b with
  | zero =>
    by_cases hroot : b = t.root
    · rw [hroot]
      exact ⟨[], .here t.root_mem⟩
    · have hstep := t.level_parent h hroot
      omega
  | succ n ih =>
    by_cases hroot : b = t.root
    · rw [hroot]
      exact ⟨[], .here t.root_mem⟩
    · have hstep := t.level_parent h hroot
      obtain ⟨way, hway⟩ := ih (t.parent_mem h hroot) (by omega)
      exact ⟨b :: way, .down h hroot hway⟩

theorem eq_root_of_level_le (h : b ∈ t.nodes) (hlevel : t.level b ≤ t.level t.root) :
    b = t.root := by
  obtain ⟨way, hway⟩ := on_root h
  have hlength := hway.level_eq
  rcases hway with hway | ⟨_, _, hway⟩
  · rfl
  · rw [List.length_cons] at hlength
    omega

/-! ## The way up -/

/-- Nodes that follow each other upwards from `a`, the last of them `b`. -/
inductive Climb : α → List α → α → Prop
  | here {a : α} (ha : a ∈ t.nodes) : Climb a [] a
  | up {a c : α} {way : List α} {b : α} (hc : c ∈ t.nodes) (hroot : c ≠ t.root)
      (hparent : t.parent c = a) (hclimb : Climb c way b) : Climb a (c :: way) b

private theorem Climb.append_one {way : List α} (h : t.Climb a way b) {c : α} (hc : c ∈ t.nodes)
    (hroot : c ≠ t.root) (hparent : t.parent c = b) : t.Climb a (way ++ [c]) c := by
  induction h with
  | here => exact .up hc hroot hparent (.here hc)
  | up hc' hroot' hparent' _ ih => exact .up hc' hroot' hparent' (ih hparent)

/-- **A way down, read backwards, is a way up.** -/
theorem Way.reverse (h : t.Way b way a) : t.Climb a way.reverse b := by
  induction h with
  | here ha => exact .here ha
  | down hb hroot _ ih =>
    rw [List.reverse_cons]
    exact ih.append_one hb hroot rfl

/-! ## Where two ways meet -/

/-- Two nodes stand on a third one, which stands on every other such node. -/
structure Meet (t : Rooted α) (b₁ b₂ a : α) (way₁ way₂ : List α) : Prop where
  way₁ : t.Way b₁ way₁ a
  way₂ : t.Way b₂ way₂ a
  deepest : ∀ c, t.On b₁ c → t.On b₂ c → t.On a c

/-- What stands on a common node stays where the ways meet when they start one level higher, at
different nodes of the same level. -/
theorem Meet.down {b₁ b₂ : α} {way₁ way₂ : List α} (hne : b₁ ≠ b₂) (h₁ : b₁ ∈ t.nodes)
    (h₂ : b₂ ∈ t.nodes) (hlevel : t.level b₁ = t.level b₂) (hroot₁ : b₁ ≠ t.root)
    (hroot₂ : b₂ ≠ t.root) (h : t.Meet (t.parent b₁) (t.parent b₂) a way₁ way₂) :
    t.Meet b₁ b₂ a (b₁ :: way₁) (b₂ :: way₂) := by
  refine ⟨.down h₁ hroot₁ h.way₁, .down h₂ hroot₂ h.way₂, fun c hc₁ hc₂ ↦ ?_⟩
  obtain ⟨way₁', hc₁ | ⟨_, _, hc₁⟩⟩ := hc₁
  · obtain ⟨way₂', hc₂⟩ := hc₂
    have hlength := hc₂.level_eq
    rcases hc₂ with hc₂ | ⟨_, _, hc₂⟩
    · exact absurd rfl hne
    · rw [List.length_cons] at hlength
      omega
  · obtain ⟨way₂', hc₂ | ⟨_, _, hc₂⟩⟩ := hc₂
    · have hlength := hc₁.level_eq
      have hstep := t.level_parent h₁ hroot₁
      omega
    · exact h.deepest c ⟨_, hc₁⟩ ⟨_, hc₂⟩

theorem Meet.descend {b₁ c₁ b₂ : α} {way way₁ way₂ : List α} (hway : t.Way b₁ way c₁)
    (hlevel : t.level b₂ ≤ t.level c₁) (h : t.Meet c₁ b₂ a way₁ way₂) :
    t.Meet b₁ b₂ a (way ++ way₁) way₂ := by
  refine ⟨hway.append h.way₁, h.way₂, fun c hc₁ hc₂ ↦ ?_⟩
  refine h.deepest c (On.of_level_le ⟨way, hway⟩ hc₁ ?_) hc₂
  obtain ⟨way₂', hc₂⟩ := hc₂
  have hlength := hc₂.level_eq
  omega

theorem Meet.symm {b₁ b₂ : α} {way₁ way₂ : List α} (h : t.Meet b₁ b₂ a way₁ way₂) :
    t.Meet b₂ b₁ a way₂ way₁ := ⟨h.way₂, h.way₁, fun c hc₂ hc₁ ↦ h.deepest c hc₁ hc₂⟩

theorem Meet.self (h : a ∈ t.nodes) : t.Meet a a a [] [] :=
  ⟨.here h, .here h, fun _ hc _ ↦ hc⟩

theorem Meet.level_le {b₁ b₂ : α} {way₁ way₂ : List α} (h : t.Meet b₁ b₂ a way₁ way₂) {c : α}
    (hc₁ : t.On b₁ c) (hc₂ : t.On b₂ c) : t.level c ≤ t.level a := by
  obtain ⟨way, hway⟩ := h.deepest c hc₁ hc₂
  rw [hway.level_eq]
  exact Nat.le_add_right _ _

end Rooted

end Store
