import MessagingPoc.InMemory.Selection
import MessagingPoc.Lib.Machine
import MessagingPoc.Lib.StableSort

/-!
# The order in which a queue empties

`DequeueHighestPriority` takes the first message of highest priority, and leaves the others in
their order. Called until the queue is empty it is a selection sort, and a stable one
(`drain_eq_mergeSort`); between other operations each call still takes the first of the highest
(`dequeue_stable`).
-/

namespace MessagingPoc.PendingQueue

open Machine StableSort

/-! ## Emptying a queue -/

theorem length_of_dequeue {items rest : List BusMessage} {m : BusMessage}
    (h : dequeueHighestPriority items = some (m, rest)) : rest.length < items.length := by
  obtain ⟨before, after, rfl, rfl, -⟩ := dequeueHighestPriority_eq_some h
  simp

/-- Calling `DequeueHighestPriority` until the queue is empty. -/
def drain (items : List BusMessage) : List BusMessage :=
  match _ : dequeueHighestPriority items with
  | none => []
  | some (m, rest) => m :: drain rest
termination_by items.length
decreasing_by exact length_of_dequeue ‹_›

theorem drain_nil : drain [] = [] := by
  rw [drain]
  rfl

theorem drain_of_dequeue {items rest : List BusMessage} {m : BusMessage}
    (h : dequeueHighestPriority items = some (m, rest)) : drain items = m :: drain rest := by
  rw [drain]
  split
  · rename_i hnone
    cases h.symm.trans hnone
  · rename_i m' rest' hsome
    cases h.symm.trans hsome
    rfl

theorem dequeue_first_highest {items : List BusMessage} (h : items ≠ []) :
    ∃ before m after, items = before ++ m :: after ∧
      dequeueHighestPriority items = some (m, before ++ after) ∧
      (∀ x ∈ before, x.priority < m.priority) ∧ ∀ x ∈ after, x.priority ≤ m.priority := by
  obtain ⟨⟨m, rest⟩, hdequeue⟩ :=
    Option.ne_none_iff_exists'.mp (dequeueHighestPriority_ne_none h)
  obtain ⟨before, after, hitems, rfl, hbefore, hafter⟩ := dequeueHighestPriority_eq_some hdequeue
  exact ⟨before, m, after, hitems, hdequeue, hbefore, hafter⟩

/-- **Emptying a queue is a stable sort.** -/
theorem sorts_drain (items : List BusMessage) :
    Sorts (fun m => m.priority.toInt) items (drain items) := by
  induction hlength : items.length using Nat.strong_induction_on generalizing items with
  | _ n ih =>
    by_cases hne : items = []
    · rw [hne, drain_nil]
      exact Sorts.nil
    · obtain ⟨before, m, after, rfl, hdequeue, hbefore, hafter⟩ := dequeue_first_highest hne
      rw [drain_of_dequeue hdequeue]
      refine Sorts.cons (fun x hx => Int32.lt_iff_toInt_lt.mp (hbefore x hx))
        (fun x hx => Int32.le_iff_toInt_le.mp (hafter x hx)) (ih _ ?_ _ rfl)
      exact hlength ▸ length_of_dequeue hdequeue

theorem drain_eq_mergeSort (items : List BusMessage) :
    drain items = items.mergeSort fun a b => b.priority ≤ a.priority := by
  have hsort := (sorts_drain items).unique (sorts_mergeSort (fun m => m.priority.toInt) items)
  simpa only [← Int32.le_iff_toInt_le] using hsort

/-! ## Between other operations -/

inductive Operation
  | enqueue (m : BusMessage)
  | enqueueFront (m : BusMessage)
  | remove (m : BusMessage)
  | dequeueHighestPriority
deriving DecidableEq

/-- An operation on the list. On an empty one `DequeueHighestPriority` throws. -/
def apply (items : List BusMessage) : Operation → List BusMessage
  | .enqueue m => enqueue items m
  | .enqueueFront m => enqueueFront items m
  | .remove m => remove items m
  | .dequeueHighestPriority => (dequeueHighestPriority items).elim items Prod.snd

/-- A queue under every interleaving of its operations. -/
def machine : System (List BusMessage) Operation where
  init items := items = []
  step items operation items' := items' = apply items operation

/-- **Priority dequeue is stable**: emptying a queue sorts it stably by descending priority, and
amid whatever operations a dequeue takes the first message of highest priority and leaves the
others in their order. -/
theorem dequeue_stable :
    (∀ items, drain items = items.mergeSort fun a b => b.priority ≤ a.priority) ∧
    ∀ items items', Reach machine items → items ≠ [] →
      machine.step items .dequeueHighestPriority items' →
      ∃ before m after, items = before ++ m :: after ∧ items' = before ++ after ∧
        dequeueHighestPriority items = some (m, items') ∧
        (∀ x ∈ before, x.priority < m.priority) ∧ ∀ x ∈ after, x.priority ≤ m.priority := by
  refine ⟨drain_eq_mergeSort, fun items items' _ hne hstep => ?_⟩
  obtain ⟨before, m, after, hitems, hdequeue, hbefore, hafter⟩ := dequeue_first_highest hne
  have hrest : items' = before ++ after := by
    rw [show items' = apply items .dequeueHighestPriority from hstep, apply, hdequeue]
    rfl
  exact ⟨before, m, after, hitems, hrest, hrest ▸ hdequeue, hbefore, hafter⟩

/-- A message of a priority, or of none. -/
def prioritized (ref : Nat) (priority : Option Int32) : BusMessage :=
  ⟨ref, "", "t", "", "", some { priority := priority }⟩

/-- Messages of priority -1, none and 5 twice, one of them removed and put back at the front. -/
def mixed : List Operation :=
  [.enqueue (prioritized 0 none), .enqueue (prioritized 1 (some (-1))),
    .enqueue (prioritized 2 (some 5)), .remove (prioritized 0 none),
    .enqueueFront (prioritized 0 none), .enqueue (prioritized 3 (some 5))]

theorem dequeue_stable_mixed : ∃ before m after,
    [prioritized 0 none, prioritized 1 (some (-1)), prioritized 2 (some 5),
      prioritized 3 (some 5)] = before ++ m :: after ∧
    [prioritized 0 none, prioritized 1 (some (-1)), prioritized 3 (some 5)] = before ++ after ∧
    dequeueHighestPriority [prioritized 0 none, prioritized 1 (some (-1)), prioritized 2 (some 5),
      prioritized 3 (some 5)] =
        some (m, [prioritized 0 none, prioritized 1 (some (-1)), prioritized 3 (some 5)]) ∧
    (∀ x ∈ before, x.priority < m.priority) ∧ ∀ x ∈ after, x.priority ≤ m.priority :=
  dequeue_stable.2 _ _
    (reach_play (S := machine) (f := fun items operation => some (apply items operation))
      (fun _ _ _ h => (Option.some.inj h).symm) rfl mixed)
    (by decide) (show _ = apply _ _ by decide)

end MessagingPoc.PendingQueue
