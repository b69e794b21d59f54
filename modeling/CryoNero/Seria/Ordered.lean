import CryoNero.Seria.Containers

/-!
# Codes that keep the order

A code writes each value as a text, and texts are compared from the left. A code keeps the order when
a smaller value is written as a smaller text whatever follows the two texts. No text is then the
beginning of another one, and values that are written one after another are compared as their texts
are (`KeepsOrder.flatMap_lt_iff`), so that a table sorted by texts is sorted by tuples of values.

Numbers in a fixed number of bytes, the highest byte first, are such a code (`beBytes_append_lt`).
-/

namespace Seria

section Code

variable {α β : Type} [LT α] [LT β]

/-- The text of a smaller value is smaller, whatever follows the two texts. -/
def KeepsOrder (code : α → List β) : Prop :=
  ∀ ⦃a b : α⦄, a < b → ∀ s t : List β, code a ++ s < code b ++ t

theorem append_lt_append_iff [Std.Irrefl (· < · : β → β → Prop)] {p s t : List β} : p ++ s < p ++ t ↔ s < t := by
  induction p with
  | nil => rfl
  | cons b p ih => rw [List.cons_append, List.cons_append, List.cons_lt_cons_self, ih]

variable [Std.Trichotomous (· < · : α → α → Prop)] [Std.Asymm (· < · : β → β → Prop)]
  {code : α → List β}

/-- The first value decides, and where it is the same the rest does. -/
theorem KeepsOrder.append_lt_iff (h : KeepsOrder code) {a b : α} {s t : List β} :
    code a ++ s < code b ++ t ↔ a < b ∨ a = b ∧ s < t := by
  constructor
  · intro hlt
    rcases Std.lt_trichotomy a b with hab | rfl | hba
    · exact .inl hab
    · exact .inr ⟨rfl, append_lt_append_iff.mp hlt⟩
    · exact absurd (h hba t s) (List.lt_asymm hlt)
  · rintro (hab | ⟨rfl, hst⟩)
    · exact h hab s t
    · exact append_lt_append_iff.mpr hst

theorem KeepsOrder.lt_iff (h : KeepsOrder code) {a b : α} : code a < code b ↔ a < b := by
  have hiff := h.append_lt_iff (a := a) (b := b) (s := []) (t := [])
  rw [List.append_nil, List.append_nil] at hiff
  rw [hiff]
  exact or_iff_left fun hand ↦ List.lt_irrefl _ hand.2

theorem KeepsOrder.append_inj (h : KeepsOrder code) {a b : α} {s t : List β}
    (heq : code a ++ s = code b ++ t) : a = b ∧ s = t := by
  rcases Std.lt_trichotomy a b with hab | rfl | hba
  · exact absurd (h hab s t) (heq ▸ List.lt_irrefl _)
  · exact ⟨rfl, List.append_cancel_left heq⟩
  · exact absurd (h hba t s) (heq ▸ List.lt_irrefl _)

theorem KeepsOrder.eq_of_prefix (h : KeepsOrder code) {a b : α} (hab : code a <+: code b) : a = b := by
  obtain ⟨s, hs⟩ := hab
  have heq : code a ++ s = code b ++ [] := by rw [hs, List.append_nil]
  exact (h.append_inj heq).1

/-- **Tuples.** Values that are written one after another are compared as their texts are. -/
theorem KeepsOrder.flatMap_lt_iff (h : KeepsOrder code) (hne : ∀ a, code a ≠ []) {xs ys : List α} :
    xs.flatMap code < ys.flatMap code ↔ xs < ys := by
  induction xs generalizing ys with
  | nil =>
    rcases ys with _ | ⟨y, ys⟩
    · exact iff_of_false (List.not_lt_nil _) (List.not_lt_nil _)
    · obtain ⟨b, s, hy⟩ := List.exists_cons_of_ne_nil (hne y)
      rw [List.flatMap_cons, hy]
      exact iff_of_true (List.nil_lt_cons _ _) (List.nil_lt_cons _ _)
  | cons x xs ih =>
    rcases ys with _ | ⟨y, ys⟩
    · exact iff_of_false (List.not_lt_nil _) (List.not_lt_nil _)
    · rw [List.flatMap_cons, List.flatMap_cons, h.append_lt_iff, ih, List.cons_lt_cons_iff]

/-- The same when something else follows tuples of one length. -/
theorem KeepsOrder.flatMap_append_lt_iff (h : KeepsOrder code) {xs ys : List α}
    (hlength : xs.length = ys.length) {s t : List β} :
    xs.flatMap code ++ s < ys.flatMap code ++ t ↔ xs < ys ∨ xs = ys ∧ s < t := by
  induction xs generalizing ys with
  | nil =>
    obtain rfl := List.length_eq_zero_iff.mp hlength.symm
    exact ⟨fun hst ↦ .inr ⟨rfl, hst⟩, fun hor ↦ (hor.resolve_left (List.not_lt_nil _)).2⟩
  | cons x xs ih =>
    obtain ⟨y, ys, rfl⟩ := List.exists_cons_of_length_eq_add_one hlength.symm
    rw [List.flatMap_cons, List.flatMap_cons, List.append_assoc, List.append_assoc, h.append_lt_iff,
      ih (Nat.succ.inj hlength), List.cons_lt_cons_iff, List.cons.injEq]
    constructor
    · rintro (hxy | ⟨rfl, hlt | ⟨rfl, hst⟩⟩)
      · exact .inl (.inl hxy)
      · exact .inl (.inr ⟨rfl, hlt⟩)
      · exact .inr ⟨⟨rfl, rfl⟩, hst⟩
    · rintro ((hxy | ⟨rfl, hlt⟩) | ⟨⟨rfl, rfl⟩, hst⟩)
      · exact .inl hxy
      · exact .inr ⟨rfl, .inl hlt⟩
      · exact .inr ⟨rfl, .inr ⟨rfl, hst⟩⟩

theorem KeepsOrder.flatMap_inj (h : KeepsOrder code) (hne : ∀ a, code a ≠ []) {xs ys : List α}
    (heq : xs.flatMap code = ys.flatMap code) : xs = ys := by
  induction xs generalizing ys with
  | nil =>
    rcases ys with _ | ⟨y, ys⟩
    · rfl
    · rw [List.flatMap_cons] at heq
      exact absurd (List.append_eq_nil_iff.mp heq.symm).1 (hne y)
  | cons x xs ih =>
    rcases ys with _ | ⟨y, ys⟩
    · rw [List.flatMap_cons] at heq
      exact absurd (List.append_eq_nil_iff.mp heq).1 (hne x)
    · obtain ⟨rfl, hrest⟩ := h.append_inj heq
      rw [ih hrest]

end Code

/-- Of two numbers of as many bytes the smaller one is the smaller text. -/
theorem beBytes_append_lt {n x y : ℕ} (hxy : x < y) (hy : y < 256 ^ n) (s t : Bytes) :
    beBytes n x ++ s < beBytes n y ++ t := by
  induction n generalizing x y s t with
  | zero => omega
  | succ n ih =>
    rw [beBytes, beBytes, List.append_assoc, List.append_assoc]
    rw [pow_succ] at hy
    rcases Nat.lt_or_ge (x / 256) (y / 256) with hlt | hge
    · exact ih hlt (by omega) _ _
    · -- only the last bytes differ
      have hsame : x / 256 = y / 256 := by omega
      rw [hsame, append_lt_append_iff, List.singleton_append, List.singleton_append,
        List.cons_lt_cons_iff]
      left
      rw [UInt8.lt_iff_toNat_lt, toNat_ofNat_uint8 (by omega), toNat_ofNat_uint8 (by omega)]
      omega

end Seria
