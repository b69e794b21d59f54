import Mathlib

/-!
# Threads and the jobs they hold

A thread is idle or holds a job. What all threads hold is a list in the order of the threads, and
only its elements matter: a thread that takes a job adds it, a thread that is done with its job takes
it away. Both are stated as permutations, so that they can be added up with the jobs that wait in a
queue.
-/

namespace Store

variable {α β : Type}

/-- The jobs that the threads hold. -/
def heldJobs (threads : List (Option α)) : List α := threads.reduceOption

@[simp] theorem heldJobs_cons_none (threads : List (Option α)) :
    heldJobs (none :: threads) = heldJobs threads := List.reduceOption_cons_of_none _

@[simp] theorem heldJobs_cons_some (a : α) (threads : List (Option α)) :
    heldJobs (some a :: threads) = a :: heldJobs threads := List.reduceOption_cons_of_some _ _

@[simp] theorem heldJobs_replicate (n : ℕ) : heldJobs (List.replicate n (none : Option α)) = [] := by
  induction n with
  | zero => rfl
  | succ n ih => rw [List.replicate_succ, heldJobs_cons_none, ih]

theorem mem_heldJobs {threads : List (Option α)} {a : α} :
    a ∈ heldJobs threads ↔ ∃ i : ℕ, threads[i]? = some (some a) := by
  rw [heldJobs, List.reduceOption_mem_iff, List.mem_iff_getElem?]

/-- An idle thread takes a job. -/
theorem heldJobs_set_some {threads : List (Option α)} {i : ℕ} (a : α)
    (h : threads[i]? = some none) : (heldJobs (threads.set i (some a))).Perm (a :: heldJobs threads) := by
  induction threads generalizing i with
  | nil => simp at h
  | cons t threads ih =>
    rcases i with _ | i
    · obtain rfl : t = none := by simpa using h
      rw [List.set_cons_zero, heldJobs_cons_some, heldJobs_cons_none]
    · have ih' := ih (i := i) (by simpa using h)
      rw [List.set_cons_succ]
      rcases t with _ | b
      · rwa [heldJobs_cons_none, heldJobs_cons_none]
      · rw [heldJobs_cons_some, heldJobs_cons_some]
        exact (ih'.cons b).trans (List.Perm.swap a b _)

/-- A thread is done with its job. -/
theorem heldJobs_set_none {threads : List (Option α)} {i : ℕ} {a : α}
    (h : threads[i]? = some (some a)) :
    (heldJobs threads).Perm (a :: heldJobs (threads.set i none)) := by
  induction threads generalizing i with
  | nil => simp at h
  | cons t threads ih =>
    rcases i with _ | i
    · obtain rfl : t = some a := by simpa using h
      rw [List.set_cons_zero, heldJobs_cons_some, heldJobs_cons_none]
    · have ih' := ih (i := i) (by simpa using h)
      rw [List.set_cons_succ]
      rcases t with _ | b
      · rwa [heldJobs_cons_none, heldJobs_cons_none]
      · rw [heldJobs_cons_some, heldJobs_cons_some]
        exact (ih'.cons b).trans (List.Perm.swap a b _)

end Store
