import CryoNero.Store.Table

/-!
# Steps that may stop, and runs of them

A step of a program either yields a new state or stops with an error. This file has the three
rules by which such programs are reasoned about:

* a sequence of two steps succeeds exactly when both do (`bind_eq_ok`);
* a loop over a list keeps an invariant that speaks of the part of the list already processed
  (`foldlM_ok`), completes when every single step can be taken (`foldlM_completes`), and stops only
  with what a single step stops with (`foldlM_error`); a loop that collects results yields those of
  the single elements (`mapM_eq_ok`);
* what holds at the start of a run and is kept by every step it takes holds in every state it
  reaches (`Reaches.invariant`).

Runs carry a guard on the steps they take, so that a property that holds only as long as the steps
meet a condition is stated about the runs that meet it.
-/

namespace Store

variable {ε α β σ ι : Type}

theorem bind_eq_ok {x : Except ε α} {f : α → Except ε β} {b : β} :
    (x >>= f) = .ok b ↔ ∃ a, x = .ok a ∧ f a = .ok b := by
  cases x with
  | error e => simp [bind, Except.bind]
  | ok a => simp [bind, Except.bind]

theorem toOption_eq_some {x : Except ε α} {a : α} : x.toOption = some a ↔ x = .ok a := by
  cases x <;> simp [Except.toOption]

theorem bind_eq_error {x : Except ε α} {f : α → Except ε β} {e : ε} :
    (x >>= f) = .error e ↔ x = .error e ∨ ∃ a, x = .ok a ∧ f a = .error e := by
  cases x with
  | error e => simp [bind, Except.bind]
  | ok a => simp [bind, Except.bind]

theorem ok_bind {a : α} {f : α → Except ε β} : (Except.ok a >>= f) = f a := rfl

theorem map_eq_ok {x : Except ε α} {f : α → β} {b : β} :
    (f <$> x) = .ok b ↔ ∃ a, x = .ok a ∧ f a = b := by
  cases x with
  | error e => simp [Functor.map, Except.map]
  | ok a => simp [Functor.map, Except.map]

theorem mapError_eq_ok {ε' : Type} {x : Except ε α} {f : ε → ε'} {a : α} :
    x.mapError f = .ok a ↔ x = .ok a := by
  cases x <;> simp [Except.mapError]

/-- An optional result, with the error that stands for its absence. -/
def orFail (e : ε) : Option α → Except ε α
  | some a => .ok a
  | none => .error e

@[simp] theorem orFail_eq_ok {e : ε} {o : Option α} {a : α} :
    orFail e o = .ok a ↔ o = some a := by
  cases o <;> simp [orFail]

/-- A check that stops the program when it fails. -/
def ensure (p : Prop) [Decidable p] (e : ε) : Except ε Unit :=
  if p then .ok () else .error e

@[simp] theorem ensure_eq_ok {p : Prop} [Decidable p] {e : ε} {u : Unit} :
    ensure p e = .ok u ↔ p := by
  by_cases h : p <;> simp [ensure, h]

theorem ensure_pos {p : Prop} [Decidable p] (e : ε) (h : p) : ensure p e = .ok () := if_pos h

/-! ## Loops -/

/-- **Loop invariant.** `M done s` relates the state to the elements already processed. -/
theorem foldlM_ok {f : σ → α → Except ε σ} (M : List α → σ → Prop) {l : List α} {s s' : σ}
    (h : l.foldlM f s = .ok s') (h₀ : M [] s)
    (hstep : ∀ done x rest t t', l = done ++ x :: rest → M done t → f t x = .ok t' →
      M (done ++ [x]) t') : M l s' := by
  suffices hgen : ∀ (rest done : List α) (t : σ), l = done ++ rest → M done t →
      rest.foldlM f t = .ok s' → M l s' from hgen l [] s rfl h₀ h
  intro rest
  induction rest with
  | nil =>
    intro done t hl hM ht
    rw [List.foldlM_nil] at ht
    cases ht
    rwa [hl, List.append_nil]
  | cons x rest ih =>
    intro done t hl hM ht
    rw [List.foldlM_cons] at ht
    obtain ⟨t', hx, hrest⟩ := bind_eq_ok.mp ht
    exact ih (done ++ [x]) t' (by rw [hl]; simp) (hstep done x rest t t' hl hM hx) hrest

/-- **Two loops over the same list.** `M done s t` relates their states after the same elements. -/
theorem foldlM_ok₂ {ε' τ : Type} {f : σ → α → Except ε σ} {g : τ → α → Except ε' τ}
    (M : List α → σ → τ → Prop) {l : List α} {s s' : σ} {t t' : τ}
    (h : l.foldlM f s = .ok s') (h' : l.foldlM g t = .ok t') (h₀ : M [] s t)
    (hstep : ∀ done x rest u u' v v', l = done ++ x :: rest → M done u v → f u x = .ok u' →
      g v x = .ok v' → M (done ++ [x]) u' v') : M l s' t' := by
  suffices hgen : ∀ (rest done : List α) (u : σ) (v : τ), l = done ++ rest → M done u v →
      rest.foldlM f u = .ok s' → rest.foldlM g v = .ok t' → M l s' t' from
    hgen l [] s t rfl h₀ h h'
  intro rest
  induction rest with
  | nil =>
    intro done u v hl hM hu hv
    cases hu
    cases hv
    rwa [hl, List.append_nil]
  | cons x rest ih =>
    intro done u v hl hM hu hv
    obtain ⟨u', hx, hu⟩ := bind_eq_ok.mp hu
    obtain ⟨v', hy, hv⟩ := bind_eq_ok.mp hv
    exact ih (done ++ [x]) u' v' (by rw [hl]; simp) (hstep done x rest u u' v v' hl hM hx hy) hu hv

/-- A loop is carried along a map that every step respects. -/
theorem foldlM_along {τ : Type} {f : σ → α → Except ε σ} {g : τ → α → Except ε τ} (map : σ → τ)
    (hstep : ∀ s x s', f s x = .ok s' → g (map s) x = .ok (map s')) {l : List α} {s s' : σ}
    (h : l.foldlM f s = .ok s') : l.foldlM g (map s) = .ok (map s') := by
  induction l generalizing s with
  | nil =>
    cases h
    rfl
  | cons x l ih =>
    obtain ⟨s₁, hx, h⟩ := bind_eq_ok.mp h
    exact bind_eq_ok.mpr ⟨map s₁, hstep s x s₁ hx, ih h⟩

/-- A loop whose every step can be taken completes. -/
theorem foldlM_completes {f : σ → α → Except ε σ} (M : List α → σ → Prop) {l : List α} {s : σ}
    (h₀ : M [] s)
    (hstep : ∀ done x rest t, l = done ++ x :: rest → M done t →
      ∃ t', f t x = .ok t' ∧ M (done ++ [x]) t') : ∃ s', l.foldlM f s = .ok s' ∧ M l s' := by
  suffices hgen : ∀ (rest done : List α) (t : σ), l = done ++ rest → M done t →
      ∃ s', rest.foldlM f t = .ok s' ∧ M l s' from hgen l [] s rfl h₀
  intro rest
  induction rest with
  | nil =>
    intro done t hl hM
    exact ⟨t, rfl, by rwa [hl, List.append_nil]⟩
  | cons x rest ih =>
    intro done t hl hM
    obtain ⟨t', hx, hM'⟩ := hstep done x rest t hl hM
    obtain ⟨s', hs', hMl⟩ := ih (done ++ [x]) t' (by rw [hl]; simp) hM'
    refine ⟨s', ?_, hMl⟩
    rw [List.foldlM_cons]
    exact bind_eq_ok.mpr ⟨t', hx, hs'⟩

/-- A loop that stops does so at one of its steps. -/
theorem foldlM_error {f : σ → α → Except ε σ} (M : List α → σ → Prop) (P : ε → Prop) {l : List α}
    {s : σ} {e : ε} (h : l.foldlM f s = .error e) (h₀ : M [] s)
    (hstep : ∀ done x rest t t', l = done ++ x :: rest → M done t → f t x = .ok t' →
      M (done ++ [x]) t')
    (hstop : ∀ done x rest t e, l = done ++ x :: rest → M done t → f t x = .error e → P e) :
    P e := by
  suffices hgen : ∀ (rest done : List α) (t : σ), l = done ++ rest → M done t →
      rest.foldlM f t = .error e → P e from hgen l [] s rfl h₀ h
  intro rest
  induction rest with
  | nil =>
    intro done t hl hM ht
    cases ht
  | cons x rest ih =>
    intro done t hl hM ht
    rw [List.foldlM_cons] at ht
    cases hx : f t x with
    | error e' =>
      rw [hx] at ht
      cases ht
      exact hstop done x rest t e hl hM hx
    | ok t' =>
      rw [hx] at ht
      exact ih (done ++ [x]) t' (by rw [hl]; simp) (hstep done x rest t t' hl hM hx) ht

/-- What `mapM` yields, element by element. -/
theorem mapM_eq_ok {f : α → Except ε β} {l : List α} {r : List β} (h : l.mapM f = .ok r) :
    List.Forall₂ (fun a b ↦ f a = .ok b) l r := by
  induction l generalizing r with
  | nil =>
    rw [List.mapM_nil] at h
    cases h
    exact .nil
  | cons a l ih =>
    rw [List.mapM_cons] at h
    obtain ⟨b, hb, h⟩ := bind_eq_ok.mp h
    obtain ⟨r', hr', h⟩ := bind_eq_ok.mp h
    cases h
    exact .cons hb (ih hr')

theorem mem_of_mapM_eq_ok {f : α → Except ε β} {l : List α} {r : List β}
    (h : l.mapM f = .ok r) {b : β} : b ∈ r ↔ ∃ a ∈ l, f a = .ok b := by
  induction l generalizing r with
  | nil =>
    rw [List.mapM_nil] at h
    cases h
    simp
  | cons a l ih =>
    rw [List.mapM_cons] at h
    obtain ⟨b', hb', h⟩ := bind_eq_ok.mp h
    obtain ⟨r', hr', h⟩ := bind_eq_ok.mp h
    cases h
    have hhead : b = b' ↔ f a = .ok b := by rw [hb', Except.ok.injEq, eq_comm]
    simp only [List.mem_cons, exists_eq_or_imp, hhead, ih hr']

/-! ## Runs -/

/-- The states reached by a run that starts in `init`, every step of which meets `guard`. -/
inductive Reaches (step : σ → ι → Except ε σ) (guard : σ → ι → Prop) (init : σ → Prop) : σ → Prop
  | start {s : σ} : init s → Reaches step guard init s
  | next {s s' : σ} {i : ι} : Reaches step guard init s → guard s i → step s i = .ok s' →
      Reaches step guard init s'

namespace Reaches

variable {step : σ → ι → Except ε σ} {guard guard' : σ → ι → Prop} {init : σ → Prop}

/-- **Run rule.** What holds at the start and is kept by every step holds in every state. -/
theorem invariant {I : σ → Prop} (h₀ : ∀ s, init s → I s)
    (hstep : ∀ s i s', Reaches step guard init s → I s → guard s i → step s i = .ok s' → I s')
    {s : σ} (h : Reaches step guard init s) : I s := by
  induction h with
  | start hs => exact h₀ _ hs
  | next hr hg hs ih => exact hstep _ _ _ hr ih hg hs

theorem mono (hg : ∀ s i, guard s i → guard' s i) {s : σ} (h : Reaches step guard init s) :
    Reaches step guard' init s := by
  induction h with
  | start hs => exact .start hs
  | next _ hgi hs ih => exact .next ih (hg _ _ hgi) hs

/-- Steps that are carried out one after the other are a run, when they meet the condition in any
state. -/
theorem steps {is : List ι} (hg : ∀ i ∈ is, ∀ s, guard s i) {s s' : σ}
    (h : Reaches step guard init s) (hrun : is.foldlM step s = .ok s') :
    Reaches step guard init s' := by
  induction is generalizing s with
  | nil =>
    cases hrun
    exact h
  | cons i is ih =>
    rw [List.foldlM_cons] at hrun
    obtain ⟨s₁, hs₁, hrest⟩ := bind_eq_ok.mp hrun
    rw [List.forall_mem_cons] at hg
    exact ih hg.2 (.next h (hg.1 s) hs₁) hrest

end Reaches

end Store
