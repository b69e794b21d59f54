import Mathlib

/-!
# What every schedule comes to

Several parties take steps in turns that nobody controls, so a state has more than one state after it.
`Inevitable` says that a goal is reached whatever the turns are: a run can neither stop before the goal
nor avoid it for ever. The rule for it (`Inevitable.of_measure`) asks for an invariant under which no
state short of the goal is stuck and every step lowers a number.
-/

namespace Store

variable {σ ι : Type}

/-- One step of whoever is able to take one. -/
def Steps (step : σ → ι → Option σ) (enabled : ι → Prop) (s s' : σ) : Prop :=
  ∃ i, enabled i ∧ step s i = some s'

theorem Steps.mono {step : σ → ι → Option σ} {enabled enabled' : ι → Prop} (h : ∀ i, enabled i → enabled' i)
    {s s' : σ} (hs : Steps step enabled s s') : Steps step enabled' s s' := by
  obtain ⟨i, hi, hstep⟩ := hs
  exact ⟨i, h i hi, hstep⟩

theorem Steps.invariant {step : σ → ι → Option σ} {enabled : ι → Prop} {inv : σ → Prop}
    (hstep : ∀ s i s', inv s → step s i = some s' → inv s') {s s' : σ} (h : inv s)
    (hrun : Relation.ReflTransGen (Steps step enabled) s s') : inv s' := by
  induction hrun with
  | refl => exact h
  | tail _ hnext ih =>
    obtain ⟨i, -, hi⟩ := hnext
    exact hstep _ i _ ih hi

/-- Every run from a state comes to a state with `goal`. -/
inductive Inevitable (next : σ → σ → Prop) (goal : σ → Prop) : σ → Prop
  | here {s : σ} : goal s → Inevitable next goal s
  | later {s s₁ : σ} : next s s₁ → (∀ s', next s s' → Inevitable next goal s') → Inevitable next goal s

namespace Inevitable

variable {next : σ → σ → Prop} {goal : σ → Prop} {s : σ}

theorem of_stuck (h : Inevitable next goal s) (hstuck : ∀ s', ¬next s s') : goal s := by
  cases h with
  | here hgoal => exact hgoal
  | later hnext _ => exact absurd hnext (hstuck _)

theorem exists_run (h : Inevitable next goal s) : ∃ s', Relation.ReflTransGen next s s' ∧ goal s' := by
  induction h with
  | here hgoal => exact ⟨_, .refl, hgoal⟩
  | later hnext _ ih =>
    obtain ⟨s', hrun, hgoal⟩ := ih _ hnext
    exact ⟨s', hrun.head hnext, hgoal⟩

/-- **Measure rule.** -/
theorem of_measure (inv : σ → Prop) (measure : σ → ℕ)
    (hstep : ∀ s s', inv s → next s s' → inv s' ∧ measure s' < measure s)
    (hprogress : ∀ s, inv s → goal s ∨ ∃ s', next s s') (h : inv s) : Inevitable next goal s := by
  induction hn : measure s using Nat.strong_induction_on generalizing s with
  | _ n ih =>
    rcases hprogress s h with hgoal | ⟨s₁, hs₁⟩
    · exact .here hgoal
    · refine .later hs₁ fun s' hs' ↦ ?_
      obtain ⟨hinv, hlt⟩ := hstep s s' h hs'
      exact ih (measure s') (hn ▸ hlt) hinv rfl

end Inevitable

end Store
