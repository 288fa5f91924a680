import MessagingPoc.TsBus.Delivery

/-!
# In which order the engine hands messages out

Messages arrive on a queue in the order in which they were allocated. What a queue hands out one at
a time, and is never asked to try again, it hands out in that order: a group of a partitioned queue
(`group_order`), and what has one priority where a single consumer is active (`priority_order`). A
consumer that leaves gives back what it had to the front, so that no order is lost.
-/

namespace MessagingPoc.TsBus

open Machine CompetingConsumers

namespace World

variable {w w' : World} {q : QueueRef}

theorem sorted_arrived (h : Reach turns w) (q : QueueRef) :
    (w.view q).arrived.Pairwise fun x y => x.ref < y.ref := by
  refine h.invariant (I := fun w => ∀ q, (w.view q).arrived.Pairwise fun x y => x.ref < y.ref)
    (fun w hw => ?_) (fun w _ w' hr ih _ h q => ?_) q
  · obtain rfl : w = {} := hw
    exact fun _ => List.Pairwise.nil
  · have hg := good hr
    rcases hg.turn_cases h with h | ⟨topic, key, options, rfl⟩ | ⟨q', h⟩ | ⟨q', a, h⟩
    · rw [h.view]
      exact ih q
    · exact ih q
    · rw [h.view]
      split_ifs with hq
      · subst hq
        exact ih q
      · exact ih q
    · by_cases hq : q = q'
      · subst hq
        rw [Step.arrived h.step, List.pairwise_append]
        cases a with
        | arrive m =>
          refine ⟨ih q, List.pairwise_singleton .., fun x hx y hy => ?_⟩
          obtain rfl : y = m := List.mem_singleton.mp hy
          rw [h.allocated y rfl]
          refine hg.arrived q x ?_
          rw [← count_arrived]
          exact (List.count_pos_iff.mpr hx).ne'
        | _ => exact ⟨ih q, List.Pairwise.nil, fun x _ y hy => absurd hy List.not_mem_nil⟩
      · rw [h.acts.view_of_ne hq]
        exact ih q

/-- A class of messages of a queue that nobody has asked to try again. -/
def NeverRetried (w : World) (q : QueueRef) (p : BusMessage → Bool) : Prop :=
  ∀ a ∈ w.trail q, ∀ m ∈ a.retried, p m = false

instance {q : QueueRef} {p : BusMessage → Bool} : Decidable (w.NeverRetried q p) :=
  inferInstanceAs (Decidable (∀ a ∈ w.trail q, ∀ m ∈ a.retried, p m = false))

/-- The handles of a class come in order, and what is still on the queue comes after them. -/
def InOrder (w : World) (q : QueueRef) (p : BusMessage → Bool) : Prop :=
  ((w.handlesOf q).filter (p ·.message)).Pairwise
      (fun i j => i.message.ref ≤ j.message.ref) ∧
    ∀ i ∈ w.handlesOf q, p i.message = true → ∀ m, p m = true → w.places q m ≠ 0 →
      i.message.ref ≤ m.ref

theorem inOrder_of_serial (h : Reach machine w) {p : BusMessage → Bool}
    (hserial : Serial (w.queue q).discipline AckHandler p) (hretry : w.NeverRetried q p) :
    w.InOrder q p := by
  have ht := reach_turns h
  have horderly := orderly_of_trace ((good ht).refines q) hretry
  have hsorted := sorted_arrived ht q
  refine ⟨?_, fun i hi hp m hm hplaces => ?_⟩
  · have := sorted_delivered hserial horderly hsorted
    rw [← map_handlesOf ht, List.filter_map, List.pairwise_map] at this
    exact this
  · have hdelivered : (w.view q).deliveries i.message ≠ 0 := by
      rw [← timesHanded_eq ht, timesHanded, ← Nat.pos_iff_ne_zero, List.countP_pos_iff]
      exact ⟨i, hi, by simp⟩
    have hsum := places_add_ends ht q m
    have hle := ((good ht).conserved q m).2
    have harrived : (w.view q).arrivals m ≠ 0 := by omega
    have hends : (w.view q).ends m = 0 := by omega
    exact le_of_delivered hserial horderly hsorted hp hdelivered hm harrived hends

/-- **A group is handed out in order**, however often its consumers leave. -/
theorem group_order (h : Reach machine w) (hpart : (w.queue q).partitionByGroup = true)
    (g : String) (hretry : w.NeverRetried q fun m => m.group = g) :
    w.InOrder q fun m => m.group = g :=
  inOrder_of_serial h (serial_group hpart g) hretry

theorem group_order_sent : (play step {} oneGroup).InOrder 0 fun m => m.group = "g" :=
  group_order (reach_play oneGroup) (by decide +kernel) "g" (by decide +kernel)

/-- **A single active consumer gets the messages of one priority in order**, and so does the next
one. -/
theorem priority_order (h : Reach machine w) (hpart : (w.queue q).partitionByGroup = false)
    (hsingle : (w.queue q).singleActiveConsumer = true) (v : Int)
    (hretry : w.NeverRetried q fun m => m.rank = v) : w.InOrder q fun m => m.rank = v :=
  inOrder_of_serial h (serial_priority hpart hsingle (lt_irrefl v)) hretry

theorem priority_order_sent : (play step {} standingBy).InOrder 0 fun m => m.rank = 0 :=
  priority_order (reach_play standingBy) (by decide) (by decide) 0 (by decide)

end World

end MessagingPoc.TsBus
