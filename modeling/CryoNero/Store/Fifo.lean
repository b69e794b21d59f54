import Mathlib

/-!
# Bounded queues in a fixed block of memory

A bounded queue owns a block of memory, part of which holds the queue and the rest of which is
spare. A producer fills spare memory, in order, and then publishes a number of the values there; a
consumer looks at the queue and then gives a number of its values back. The memory that is given
back becomes spare again, behind the rest of the spare memory.

`Fifo.Run` is what can be observed of such a queue: the values that were published and those that
were consumed, each in order. Whatever the operations are and in whatever order they come, what was
consumed followed by what is queued is what was queued at first followed by what was published.
-/

namespace Store

variable {α : Type}

/-- Replace the values from position `i` on. -/
def overwrite (l : List α) (i : ℕ) (s : List α) : List α :=
  l.take i ++ s ++ l.drop (i + s.length)

@[simp] theorem overwrite_nil (l : List α) (i : ℕ) : overwrite l i [] = l := by
  simp [overwrite]

theorem length_overwrite {l s : List α} {i : ℕ} (h : i + s.length ≤ l.length) :
    (overwrite l i s).length = l.length := by
  simp only [overwrite, List.length_append, List.length_take, List.length_drop]
  omega

/-- Values that are overwritten one after the other are overwritten at once. -/
theorem overwrite_overwrite {l s t : List α} {i : ℕ} (h : i + s.length ≤ l.length) :
    overwrite (overwrite l i s) (i + s.length) t = overwrite l i (s ++ t) := by
  have hlen : (l.take i ++ s).length = i + s.length := by
    rw [List.length_append, List.length_take]
    omega
  have htake : (overwrite l i s).take (i + s.length) = l.take i ++ s := List.take_left' hlen
  have hdrop : (overwrite l i s).drop (i + s.length + t.length)
      = l.drop (i + (s ++ t).length) := by
    rw [← List.drop_drop, overwrite, List.drop_left' hlen, List.drop_drop, List.length_append,
      Nat.add_assoc]
  rw [overwrite, htake, hdrop, overwrite]
  simp only [List.append_assoc]

theorem overwrite_append_right {k l s : List α} {i : ℕ} (h : k.length ≤ i) :
    overwrite (k ++ l) i s = k ++ overwrite l (i - k.length) s := by
  have hsplit : i + s.length - k.length = i - k.length + s.length := by omega
  rw [overwrite, overwrite, List.take_append, List.drop_append, List.take_of_length_le h,
    List.drop_eq_nil_of_le (by omega), hsplit]
  simp only [List.append_assoc, List.nil_append]

private theorem overwrite_append_left {k l s : List α} {i : ℕ} (h : i + s.length ≤ k.length) :
    overwrite (k ++ l) i s = overwrite k i s ++ l := by
  rw [overwrite, overwrite, List.take_append_of_le_length (by omega),
    List.drop_append_of_le_length h]
  simp only [List.append_assoc]

/-- Overwriting a block of memory and looking at it from another position commute, as long as the
values do not cross that position. -/
theorem rotate_overwrite {l s : List α} {r i : ℕ} (hr : r ≤ l.length)
    (h : r ≤ i ∧ i + s.length ≤ l.length) :
    (overwrite l i s).rotate r = overwrite (l.rotate r) (i - r) s := by
  have hlen : (l.take r).length = r := by rw [List.length_take, Nat.min_eq_left hr]
  have hl : overwrite l i s = l.take r ++ overwrite (l.drop r) (i - r) s := by
    conv_lhs => rw [← List.take_append_drop r l]
    rw [overwrite_append_right (by omega), hlen]
  have hfit : i - r + s.length ≤ (l.drop r).length := by rw [List.length_drop]; omega
  rw [List.rotate_eq_drop_append_take hr,
    List.rotate_eq_drop_append_take (by rw [length_overwrite h.2]; exact hr), hl,
    List.drop_left' hlen, List.take_left' hlen, overwrite_append_left hfit]

theorem rotate_overwrite_of_add_le {l s : List α} {r i : ℕ} (hr : r ≤ l.length)
    (h : i + s.length ≤ r) :
    (overwrite l i s).rotate r = overwrite (l.rotate r) (l.length - r + i) s := by
  have hlen : (overwrite (l.take r) i s).length = r := by
    rw [length_overwrite (by rw [List.length_take]; omega), List.length_take, Nat.min_eq_left hr]
  have hl : overwrite l i s = overwrite (l.take r) i s ++ l.drop r := by
    conv_lhs => rw [← List.take_append_drop r l]
    rw [overwrite_append_left (by rw [List.length_take]; omega)]
  have hdrop : (l.drop r).length = l.length - r := List.length_drop
  rw [List.rotate_eq_drop_append_take hr,
    List.rotate_eq_drop_append_take (by rw [length_overwrite (by omega)]; exact hr), hl,
    List.drop_left' hlen, List.take_left' hlen, overwrite_append_right (by omega), hdrop,
    Nat.add_sub_cancel_left]

/-- A queue and the spare memory behind it. -/
structure Fifo (α : Type) where
  queue : List α
  spare : List α

namespace Fifo

/-- The size of the block of memory. -/
def bound (f : Fifo α) : ℕ := f.queue.length + f.spare.length

/-- Write values into the spare memory, from its start. -/
def fill (f : Fifo α) (s : List α) : Fifo α := { f with spare := overwrite f.spare 0 s }

/-- Let the first `k` values of the spare memory join the queue; there must be so many. -/
def publish (f : Fifo α) (k : ℕ) : Option (Fifo α) :=
  if k ≤ f.spare.length then some ⟨f.queue ++ f.spare.take k, f.spare.drop k⟩ else none

/-- Give the first `k` values of the queue back; there must be so many. -/
def consume (f : Fifo α) (k : ℕ) : Option (Fifo α) :=
  if k ≤ f.queue.length then some ⟨f.queue.drop k, f.spare ++ f.queue.take k⟩ else none

theorem publish_eq_some {f f' : Fifo α} {k : ℕ} : f.publish k = some f' ↔
    k ≤ f.spare.length ∧ f' = ⟨f.queue ++ f.spare.take k, f.spare.drop k⟩ := by
  rw [publish]
  split_ifs with h <;> simp [h, eq_comm]

theorem consume_eq_some {f f' : Fifo α} {k : ℕ} : f.consume k = some f' ↔
    k ≤ f.queue.length ∧ f' = ⟨f.queue.drop k, f.spare ++ f.queue.take k⟩ := by
  rw [consume]
  split_ifs with h <;> simp [h, eq_comm]

theorem publish_fill {f : Fifo α} {s : List α} (h : s.length ≤ f.spare.length) :
    (f.fill s).publish s.length = some ⟨f.queue ++ s, f.spare.drop s.length⟩ := by
  have hlen : (overwrite f.spare 0 s).length = f.spare.length := length_overwrite (by omega)
  rw [publish_eq_some]
  refine ⟨by rw [fill, hlen]; exact h, ?_⟩
  simp only [fill, overwrite, List.take_zero, List.nil_append, Nat.zero_add, List.take_left,
    List.drop_left]

/-- The runs of a bounded queue from `f` to `f'`: `published` is what joined the queue and
`consumed` what left it. -/
inductive Run : Fifo α → List α → List α → Fifo α → Prop
  | start (f : Fifo α) : Run f [] [] f
  | fill {f g : Fifo α} {p c s : List α} (run : Run f p c g) (h : s.length ≤ g.spare.length) :
      Run f p c (g.fill s)
  | publish {f g g' : Fifo α} {p c : List α} {k : ℕ} (run : Run f p c g)
      (h : g.publish k = some g') : Run f (p ++ g.spare.take k) c g'
  | consume {f g g' : Fifo α} {p c : List α} {k : ℕ} (run : Run f p c g)
      (h : g.consume k = some g') : Run f p (c ++ g.queue.take k) g'

/-- Nothing is lost, duplicated or put in another order. -/
theorem Run.conserves {f f' : Fifo α} {p c : List α} (h : Run f p c f') :
    c ++ f'.queue = f.queue ++ p := by
  induction h with
  | start => simp
  | fill run h ih => exact ih
  | publish run h ih =>
    obtain ⟨-, rfl⟩ := publish_eq_some.mp h
    rw [← List.append_assoc, ih, List.append_assoc]
  | consume run h ih =>
    obtain ⟨-, rfl⟩ := consume_eq_some.mp h
    rw [List.append_assoc, List.take_append_drop, ih]

theorem Run.bound_eq {f f' : Fifo α} {p c : List α} (h : Run f p c f') :
    f'.bound = f.bound := by
  induction h with
  | start => rfl
  | fill run h ih => rw [← ih, bound, Fifo.fill, length_overwrite (by omega), bound]
  | publish run h ih =>
    obtain ⟨hk, rfl⟩ := publish_eq_some.mp h
    rw [← ih, bound, bound, List.length_append, List.length_take, List.length_drop]
    omega
  | consume run h ih =>
    obtain ⟨hk, rfl⟩ := consume_eq_some.mp h
    rw [← ih, bound, bound, List.length_append, List.length_take, List.length_drop]
    omega

end Fifo

end Store
