import CryoNero.Seria.Containers
import CryoNero.Store.Outcome

/-!
# Programs that read bytes

A program that reads takes bytes off the front of its input, and gives a value or fails. What it gives
depends on the bytes that it took and on nothing behind them. So a program that has read a whole text fails
on every text that is cut off before its end.
-/

namespace Seria

open Store

variable {ε α β : Type}

/-- A program that reads: a value with the bytes that are left, or an exception. -/
abbrev Reading (ε α : Type) : Type := StateT Bytes (Except ε) α

theorem reading_bind {m : Reading ε α} {f : α → Reading ε β} {s t : Bytes} {x : α}
    (h : m s = .ok (x, t)) : (m >>= f) s = f x t := by
  show (m s >>= fun p ↦ f p.1 p.2) = f x t
  rw [h]
  rfl

private theorem reading_bind_eq_ok {m : Reading ε α} {f : α → Reading ε β} {s r : Bytes} {y : β} :
    (m >>= f) s = .ok (y, r) ↔ ∃ x t, m s = .ok (x, t) ∧ f x t = .ok (y, r) := by
  show (m s >>= fun p ↦ f p.1 p.2) = .ok (y, r) ↔ _
  rw [bind_eq_ok, Prod.exists]

/-- A program that looks at nothing but the bytes it takes. -/
def Exact (m : Reading ε α) : Prop :=
  ∀ s x r, m s = .ok (x, r) → ∃ used, s = used ++ r ∧ ∀ r', m (used ++ r') = .ok (x, r')

namespace Exact

theorem pure (x : α) : Exact (Pure.pure x : Reading ε α) := by
  intro s y r h
  cases h
  exact ⟨[], rfl, fun r' ↦ rfl⟩

theorem bind {m : Reading ε α} {f : α → Reading ε β} (hm : Exact m) (hf : ∀ x, Exact (f x)) :
    Exact (m >>= f) := by
  intro s y r h
  obtain ⟨x, t, hx, hy⟩ := reading_bind_eq_ok.mp h
  obtain ⟨used₁, rfl, h₁⟩ := hm s x t hx
  obtain ⟨used₂, rfl, h₂⟩ := hf x t y r hy
  refine ⟨used₁ ++ used₂, (List.append_assoc ..).symm, fun r' ↦ ?_⟩
  rw [List.append_assoc, reading_bind (h₁ (used₂ ++ r')), h₂]

theorem ite {p : Prop} [Decidable p] {m m' : Reading ε α} (hm : Exact m) (hm' : Exact m') :
    Exact (if p then m else m') := by
  split
  · exact hm
  · exact hm'

theorem refuses {m : Reading ε α} (hm : Exact m) {p q : Bytes} {x : α} (h : m (p ++ q) = .ok (x, []))
    (hq : q ≠ []) (y : α) (r : Bytes) : m p ≠ .ok (y, r) := by
  intro hp
  obtain ⟨used, rfl, hused⟩ := hm p y r hp
  have hwhole := hused (r ++ q)
  rw [← List.append_assoc, h, Except.ok.injEq, Prod.mk.injEq] at hwhole
  exact hq (List.append_eq_nil_iff.mp hwhole.2.symm).2

end Exact

namespace Reading

def fail (e : ε) : Reading ε α := fun _ ↦ .error e

def demand (p : Prop) [Decidable p] (e : ε) : Reading ε Unit := if p then pure () else fail e

theorem exact_fail (e : ε) : Exact (fail e : Reading ε α) := by
  intro s x r h
  cases h

theorem exact_demand (p : Prop) [Decidable p] (e : ε) : Exact (demand p e) := .ite (.pure ()) (exact_fail e)

theorem demand_pos {p : Prop} [Decidable p] (h : p) (e : ε) : demand p e = pure () := if_pos h

/-! ## Bytes -/

/-- The next `n` bytes, or an exception when there are fewer. -/
def bytes (e : ε) (n : ℕ) : Reading ε Bytes := fun s ↦
  if n ≤ s.length then .ok (s.take n, s.drop n) else .error e

def byte (e : ε) : Reading ε UInt8
  | [] => .error e
  | b :: s => .ok (b, s)

@[simp] theorem byte_cons (e : ε) (b : UInt8) (s : Bytes) : byte e (b :: s) = .ok (b, s) := rfl

theorem bytes_append (e : ε) {n : ℕ} {l : Bytes} (h : l.length = n) (s : Bytes) :
    bytes e n (l ++ s) = .ok (l, s) := by
  subst h
  rw [bytes, if_pos (by rw [List.length_append]; omega), List.take_left, List.drop_left]

theorem exact_bytes (e : ε) (n : ℕ) : Exact (bytes e n) := by
  intro s x r h
  rw [bytes] at h
  split_ifs at h with hn
  cases h
  refine ⟨s.take n, (List.take_append_drop n s).symm, fun r' ↦ ?_⟩
  exact bytes_append e (List.length_take_of_le hn) r'

theorem exact_byte (e : ε) : Exact (byte e) := by
  intro s x r h
  rcases s with - | ⟨b, s⟩
  · cases h
  · cases h
    exact ⟨[x], rfl, fun r' ↦ rfl⟩

/-! ## Repeating -/

/-- Read `n` times. -/
def times (m : Reading ε α) : ℕ → Reading ε (List α)
  | 0 => Pure.pure []
  | n + 1 => do
    let x ← m
    let xs ← times m n
    return x :: xs

theorem exact_times {m : Reading ε α} (hm : Exact m) (n : ℕ) : Exact (times m n) := by
  induction n with
  | zero => exact .pure []
  | succ n ih => exact hm.bind fun x ↦ ih.bind fun xs ↦ .pure _

/-- **Items one after the other.** What reads one item reads all of them. -/
theorem times_flatMap {γ : Type} {m : Reading ε α} {w : γ → Bytes} {g : γ → α} {items : List γ}
    (h : ∀ item ∈ items, ∀ rest, m (w item ++ rest) = .ok (g item, rest)) (rest : Bytes) :
    times m items.length (items.flatMap w ++ rest) = .ok (items.map g, rest) := by
  induction items with
  | nil => rfl
  | cons item items ih =>
    rw [List.forall_mem_cons] at h
    rw [List.length_cons, times, List.flatMap_cons, List.append_assoc, reading_bind (h.1 _),
      reading_bind (ih h.2)]
    rfl

end Reading

end Seria
