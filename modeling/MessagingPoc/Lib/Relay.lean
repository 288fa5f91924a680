import Mathlib.Data.List.Infix
import Mathlib.Data.List.Nodup
import Mathlib.Data.List.Perm.Subperm

/-!
# Loops that stop at a failure

A loop calls the elements of a list in their order, and ends with the first one that stops it.

* `called` — what such a loop calls.
* `called_eq_self` — it calls the whole list exactly when nothing before the last element stops it.
* `count_called` — and then, in a list without repetitions, it calls each element once.
-/

namespace Relay

variable {α : Type*} {stops : α → Prop} [DecidablePred stops]

/-- What a loop over a list calls: everything up to the first element that stops it. -/
def called (stops : α → Prop) [DecidablePred stops] : List α → List α
  | [] => []
  | x :: xs => if stops x then [x] else x :: called stops xs

theorem called_cons_of_stops {x : α} (h : stops x) (xs : List α) :
    called stops (x :: xs) = [x] := if_pos h

theorem called_cons_of_not {x : α} (h : ¬ stops x) (xs : List α) :
    called stops (x :: xs) = x :: called stops xs := if_neg h

/-- A loop goes on behind what does not stop it. -/
theorem called_append {seen : List α} (h : ∀ x ∈ seen, ¬ stops x) (rest : List α) :
    called stops (seen ++ rest) = seen ++ called stops rest := by
  induction seen with
  | nil => rfl
  | cons x seen ih =>
    obtain ⟨hx, hseen⟩ := List.forall_mem_cons.mp h
    rw [List.cons_append, called_cons_of_not hx, ih hseen, List.cons_append]

theorem called_initial (xs : List α) : called stops xs <+: xs := by
  induction xs with
  | nil => exact List.prefix_rfl
  | cons x xs ih =>
    by_cases hx : stops x
    · rw [called_cons_of_stops hx]
      exact List.prefix_append [x] xs
    · rw [called_cons_of_not hx]
      exact (List.prefix_cons_inj x).mpr ih

theorem called_eq_self {xs : List α} : called stops xs = xs ↔ ∀ x ∈ xs.dropLast, ¬ stops x := by
  induction xs with
  | nil => simp [called]
  | cons x xs ih =>
    cases xs with
    | nil => simp [called]
    | cons y ys =>
      rw [List.dropLast_cons_of_ne_nil (List.cons_ne_nil y ys), List.forall_mem_cons]
      by_cases hx : stops x
      · simp [called_cons_of_stops hx, hx]
      · rw [called_cons_of_not hx, List.cons_inj_right, ih]
        exact (and_iff_right hx).symm

/-- **Each element is called exactly once if and only if none but the last stops the loop.** -/
theorem count_called [DecidableEq α] {xs : List α} (h : xs.Nodup) :
    (∀ x ∈ xs, (called stops xs).count x = 1) ↔ ∀ x ∈ xs.dropLast, ¬ stops x := by
  rw [← called_eq_self]
  constructor
  · intro honce
    have hsub : xs ⊆ called stops xs := by
      intro x hx
      have hone := honce x hx
      exact List.count_pos_iff.mp (by omega)
    exact (called_initial xs).eq_of_length_le (h.subperm hsub).length_le
  · intro hall x hx
    rw [hall]
    exact List.count_eq_one_of_mem h hx

end Relay
