import MessagingPoc.TsBus.Steps

/-!
# What the engine promises about deliveries

Each of these holds of every queue in every reachable state. `handles` lists the deliveries in the
order in which they were made (`Handed`); the rest comes from what competing consumers do.
-/

namespace MessagingPoc.TsBus

open Machine CompetingConsumers

namespace World

variable {w w' : World} {q : QueueRef}

/-! ## Handles -/

/-- The handles of a queue's messages, the earliest first. -/
def handlesOf (w : World) (q : QueueRef) : List Handle := w.handles.filter (·.queue = q)

/-- How often a message of a queue has been handed out. -/
def timesHanded (w : World) (q : QueueRef) (m : BusMessage) : Nat :=
  (w.handlesOf q).countP (·.message = m)

/-- The handles of a queue are its deliveries. -/
def Handed (w : World) : Prop := ∀ q,
  ((w.handles.map Handle.delivery).filter (·.1 = q)).map (fun d => (d.2.1, d.2.2.1)) =
    (w.view q).delivered

theorem handed (h : Reach turns w) : Handed w := by
  refine h.invariant (fun w hw => ?_) fun w _ w' hr ih _ h q => ?_
  · obtain rfl : w = {} := hw
    intro q
    rfl
  · rcases (good hr).turn_cases h with h | ⟨topic, key, options, rfl⟩ | ⟨q', h⟩ | ⟨q', a, h⟩
    · rw [h.deliveries, h.view]
      exact ih q
    · exact ih q
    · have hhandles : w'.handles = w.handles := by rw [h.eq]; rfl
      rw [hhandles, h.view]
      split_ifs with hq
      · subst hq
        exact ih q
      · exact ih q
    · rw [h.acts.deliveries, List.filter_append, List.map_append, ih q]
      by_cases hq : q = q'
      · subst hq
        rw [Step.delivered h.step]
        cases a <;> simp
      · rw [h.acts.view_of_ne hq]
        cases a <;> simp [Ne.symm hq]

theorem map_handlesOf (h : Reach turns w) (q : QueueRef) :
    (w.handlesOf q).map (fun i => (i.message, i.consumer)) = (w.view q).delivered := by
  rw [← handed h q, handlesOf, List.filter_map, List.map_map]
  rfl

theorem timesHanded_eq (h : Reach turns w) (q : QueueRef) (m : BusMessage) :
    w.timesHanded q m = (w.view q).deliveries m := by
  rw [← count_delivered, ← map_handlesOf h, List.countP_map]
  rfl

theorem arrived_of_handed (h : Reach turns w) {i : Handle} (hi : i ∈ w.handles) :
    (w.view i.queue).arrivals i.message ≠ 0 := by
  have hof : i ∈ w.handlesOf i.queue := List.mem_filter.mpr ⟨hi, by simp⟩
  have hmem := List.mem_map_of_mem (f := fun i : Handle => (i.message, i.consumer)) hof
  rw [map_handlesOf h] at hmem
  have hdeliveries : (w.view i.queue).deliveries i.message ≠ 0 := by
    rw [← count_delivered, ← Nat.pos_iff_ne_zero, List.countP_pos_iff]
    exact ⟨_, hmem, by simp⟩
  have := mem_arrived_of_deliveries ((good h).refines _) hdeliveries
  rw [← List.count_pos_iff, count_arrived] at this
  omega

/-- A message is only ever handed out by the queue it arrived on. -/
theorem countP_message (h : Reach turns w) {q : QueueRef} {m : BusMessage}
    (hm : (w.view q).arrivals m ≠ 0) :
    (w.handles.map Handle.delivery).countP (·.2.1 = m) = (w.view q).deliveries m := by
  rw [← timesHanded_eq h, timesHanded, handlesOf, List.countP_filter, List.countP_map]
  refine List.countP_congr fun i hi => ?_
  have howner : i.message = m → i.queue = q := by
    rintro rfl
    exact ((good h).owner _ _ _ _ (arrived_of_handed h hi) hm rfl).1
  by_cases hmessage : i.message = m
  · simp [Handle.delivery, hmessage, howner hmessage]
  · simp [Handle.delivery, hmessage]

theorem split_concat {α : Type*} {xs older newer : List α} {x y : α}
    (h : xs ++ [y] = older ++ x :: newer) :
    (older = xs ∧ x = y) ∨ ∃ newer', xs = older ++ x :: newer' := by
  rcases List.eq_nil_or_concat newer with rfl | ⟨newer', z, rfl⟩
  · obtain ⟨hxs, hy⟩ := List.append_inj' h rfl
    exact .inl ⟨hxs.symm, (List.cons.inj hy).1.symm⟩
  · have heq : xs ++ [y] = (older ++ x :: newer') ++ [z] := by simpa using h
    exact .inr ⟨newer', (List.append_inj' heq rfl).1⟩

theorem numbered (h : Reach turns w) {older newer : List _} {d : _}
    (hsplit : w.handles.map Handle.delivery = older ++ d :: newer) :
    d.2.2.2 = some (min (older.countP (·.2.1 = d.2.1) + 1) (2 ^ 53)) := by
  refine h.invariant (I := fun w => ∀ newer,
    w.handles.map Handle.delivery = older ++ d :: newer →
      d.2.2.2 = some (min (older.countP (·.2.1 = d.2.1) + 1) (2 ^ 53))) (fun w hw => ?_)
    (fun w _ w' hr ih _ h newer hsplit => ?_) newer hsplit
  · obtain rfl : w = {} := hw
    simp
  · rcases (good hr).turn_cases h with h | ⟨topic, key, options, rfl⟩ | ⟨q', h⟩ | ⟨q', a, h⟩
    · exact ih newer (h.deliveries ▸ hsplit)
    · exact ih newer hsplit
    · have hhandles : w'.handles = w.handles := by rw [h.eq]; rfl
      exact ih newer (hhandles ▸ hsplit)
    · rw [h.acts.deliveries] at hsplit
      cases a with
      | deliver m c =>
        rcases split_concat hsplit with ⟨rfl, rfl⟩ | ⟨newer', hold⟩
        · have harr := ((good hr).conserved q').arrivals_of_deliver h.step
          show some (Double.next (w.deliveryCount m.ref)) = _
          rw [countP_message hr harr, (good hr).counted q' m harr, next_min]
        · exact ih newer' hold
      | _ => exact ih newer (by simpa using hsplit)

/-! ## The loop of `pump` -/

/-- Nothing can be handed out, as long as the counter of the queue still counts. -/
def Stalled (Q : BusQueue) : Prop := Q.rr < 2 ^ 53 → ¬ Q.Deliverable

theorem queue_deliver (w : World) (q : QueueRef) (Q : BusQueue) (m : BusMessage)
    (c : AckHandler) : (w.deliver q Q m c).queue q = { Q with inflight := Q.inflight.set m c } :=
  Function.update_self ..

theorem length_pending_of_chosen {Q Q' : BusQueue} {m : BusMessage} {c : AckHandler}
    (h : BusQueue.Chosen Q m c Q') : Q'.pending.length + 1 = Q.pending.length := by
  obtain ⟨before, after, hsplit, hrest, -⟩ := h.split
  rw [hsplit, hrest]
  simp
  omega

/-- More turns than there are pending messages are enough for the loop of `pump` to end by
itself. -/
theorem pumpLoop_ends {w : World} {q : QueueRef} (hrr : (w.queue q).rr ≤ 2 ^ 53) {n : Nat}
    (hn : (w.queue q).pending.length < n) :
    Stalled ((pumpLoop q n w).queue q) ∧ ∀ k, pumpLoop q (n + k) w = pumpLoop q n w := by
  induction n generalizing w with
  | zero => omega
  | succ n ih =>
    rcases hnext : (w.queue q).next with ⟨_ | ⟨m, c⟩, Q⟩
    · refine ⟨?_, fun k => ?_⟩
      · have hqueue : (w.setQueue q Q).queue q = Q := Function.update_self ..
        simp only [pumpLoop, hnext, hqueue]
        exact BusQueue.next_stalled hrr hnext
      · rw [Nat.succ_add]
        simp only [pumpLoop, hnext]
    · obtain ⟨hc, hrr'⟩ := BusQueue.next_some hrr hnext
      have hlength := length_pending_of_chosen hc
      obtain ⟨hstalled, hmore⟩ := ih (w := w.deliver q Q m c) (by rw [queue_deliver]; exact hrr')
        (by rw [queue_deliver]; show Q.pending.length < n; omega)
      refine ⟨?_, fun k => ?_⟩
      · simp only [pumpLoop, hnext]
        exact hstalled
      · rw [Nat.succ_add]
        simp only [pumpLoop, hnext]
        exact hmore k

theorem Good.stalled_pump (hg : Good w) (q : QueueRef) : Stalled ((w.pump q).queue q) :=
  (pumpLoop_ends (hg.counter q) (Nat.lt_succ_self _)).1

/-! ## The guarantees -/

/-- In how many places a message is that is not gone: waiting, in flight, or parked. -/
def places (w : World) (q : QueueRef) (m : BusMessage) : Nat :=
  (w.queue q).pending.count m + ((w.queue q).inflight.get m).isSome.toNat +
    w.timers.count (.retry q m)

theorem places_add_ends (h : Reach turns w) (q : QueueRef) (m : BusMessage) :
    w.places q m + (w.view q).ends m = (w.view q).arrivals m := ((good h).conserved q m).1

def firstSent : BusMessage := ⟨{}, 1, "mem-bus-2", "t", "a", "t"⟩

/-- **One place.** A message that was put on a queue is in one place or gone, for good and once; and
it is on that queue only. -/
theorem one_place (h : Reach machine w) (q : QueueRef) (m : BusMessage) :
    w.places q m + (w.trail q).countP (Act.ends m) = (w.trail q).countP (Act.arrives m) ∧
      (w.trail q).countP (Act.arrives m) ≤ 1 ∧
      (w.places q m ≠ 0 → ∀ q' m', w.places q' m' ≠ 0 → m.ref = m'.ref → q = q' ∧ m = m') := by
  have hg := good (reach_turns h)
  refine ⟨places_add_ends (reach_turns h) q m, (hg.conserved q m).2,
    fun hp q' m' hp' href => hg.owner q q' m m' ?_ ?_ href⟩
  · have hsum := places_add_ends (reach_turns h) q m
    omega
  · have hsum := places_add_ends (reach_turns h) q' m'
    omega

theorem one_place_sent : (play step {} twoSent).places 0 firstSent +
    ((play step {} twoSent).trail 0).countP (Act.ends firstSent) = 1 :=
  (one_place (reach_play twoSent) 0 firstSent).1.trans (by decide)

/-- **Prefetch 1.** Who has a message in flight is attached and has no other, and the loop that
hands messages out ends by itself. -/
theorem one_in_flight (h : Reach machine w) (q : QueueRef) :
    (∀ m c, (w.queue q).inflight.get m = some c → c ∈ (w.queue q).consumers) ∧
      (∀ m m' c, (w.queue q).inflight.get m = some c → (w.queue q).inflight.get m' = some c →
        m = m') ∧
      ∀ turns, (w.queue q).pending.length < turns → pumpLoop q turns w = w.pump q := by
  have href := (good (reach_turns h)).refines q
  refine ⟨fun m c hm => attached href hm, fun m m' c hm hm' => alone href hm hm',
    fun turns hlt => ?_⟩
  obtain ⟨k, rfl⟩ := Nat.exists_eq_add_of_lt hlt
  have hrr := (good (reach_turns h)).counter q
  rw [Nat.add_right_comm, (pumpLoop_ends hrr (Nat.lt_succ_self _)).2 k, pump]

theorem one_in_flight_sent : (⟨0⟩ : AckHandler) ∈ ((play step {} twoSent).queue 0).consumers :=
  (one_in_flight (reach_play twoSent) 0).1 firstSent ⟨0⟩ (by decide)

/-- **Single active consumer.** One message is in flight at most, and the first consumer attached
has it. -/
theorem single_active (h : Reach machine w) {q : QueueRef}
    (hpart : (w.queue q).partitionByGroup = false)
    (hsingle : (w.queue q).singleActiveConsumer = true) {m : BusMessage} {c : AckHandler}
    (hm : (w.queue q).inflight.get m = some c) :
    (w.queue q).consumers.head? = some c ∧
      ∀ m' c', (w.queue q).inflight.get m' = some c' → m' = m := by
  have href := (good (reach_turns h)).refines q
  have hhead : (w.view q).consumers.head? = some c := head_of_held href hpart hsingle hm
  refine ⟨hhead, fun m' c' hm' => ?_⟩
  have hhead' : (w.view q).consumers.head? = some c' := head_of_held href hpart hsingle hm'
  rw [hhead, Option.some.injEq] at hhead'
  exact alone href (hhead' ▸ hm') hm

/-- One active consumer, another that stands by, and two messages. -/
def standingBy : List Label :=
  [.subscribe "t" ⟨0⟩ { subscriberId := some "s", singleActiveConsumer := some true },
    .subscribe "t" ⟨1⟩ { subscriberId := some "s" }, .publish "t" "a" none none,
    .publish "t" "b" none none]

theorem single_active_sent :
    ((play step {} standingBy).queue 0).consumers.head? = some ⟨0⟩ :=
  (single_active (reach_play standingBy) (q := 0) (m := firstSent) (by decide) (by decide)
    (by decide)).1

/-- **Groups.** On a partitioned queue a group has one message in flight at most, with the consumer
it is pinned to; and when two of its messages went to different consumers, the first of these has
left in between. -/
theorem group_owner (h : Reach machine w) {q : QueueRef}
    (hpart : (w.queue q).partitionByGroup = true) :
    (∀ m c, (w.queue q).inflight.get m = some c →
      (w.queue q).groupAffinity m.group = some c ∧
        ∀ m' c', (w.queue q).inflight.get m' = some c' → m'.group = m.group → m' = m) ∧
      ∀ newer between older m c m' c',
        w.trail q = newer ++ .deliver m' c' :: between ++ .deliver m c :: older →
        m.group = m'.group → c ≠ c' → .detach c ∈ between := by
  have href := (good (reach_turns h)).refines q
  refine ⟨fun m c hm => ⟨pinned href hpart hm, fun m' c' hm' hgroup => ?_⟩,
    fun newer between older m c m' c' htrail hgroup hne => handover href hpart htrail hgroup hne⟩
  exact alone_in_group href hpart hm' hm hgroup

/-- Two messages of one group, and two consumers. -/
def oneGroup : List Label :=
  [.subscribe "t" ⟨0⟩ { subscriberId := some "s", partitionByGroup := some true },
    .subscribe "t" ⟨1⟩ { subscriberId := some "s" },
    .publish "t" "a" none (some { groupId := some "g" }),
    .publish "t" "b" none (some { groupId := some "g" })]

def firstOfGroup : BusMessage := ⟨{ groupId := some "g" }, 1, "mem-bus-2", "t", "a", "t"⟩

theorem group_owner_sent :
    ((play step {} oneGroup).queue 0).groupAffinity firstOfGroup.group = some ⟨0⟩ :=
  ((group_owner (reach_play oneGroup) (q := 0) (by decide +kernel)).1 firstOfGroup ⟨0⟩
    (by decide +kernel)).1

/-- **A message is handed out as often as the queue allows**, and once more for each consumer that
left while it had it. -/
theorem handed_at_most (h : Reach machine w) {q : QueueRef}
    (hmax : (w.queue q).maxDeliveries ≤ 2 ^ 53) (m : BusMessage) :
    w.timesHanded q m ≤
      max 1 (w.queue q).maxDeliveries.toNat + (w.trail q).countP (Act.returns m) := by
  rw [timesHanded_eq (reach_turns h)]
  refine deliveries_le (fun n hn => ?_) ((good (reach_turns h)).refines q) m
  have hlt : ((min n (2 ^ 53) : ℕ) : ℤ) < (w.queue q).maxDeliveries := hn
  omega

theorem handed_at_most_sent : (play step {} twoSent).timesHanded 0 firstSent ≤
    max 1 ((play step {} twoSent).queue 0).maxDeliveries.toNat +
      ((play step {} twoSent).trail 0).countP (Act.returns firstSent) :=
  handed_at_most (reach_play twoSent) (by decide) firstSent

/-- **Every handle says how often its message has been handed out**, itself included. -/
theorem handle_count (h : Reach machine w) {older newer : List Handle} {i : Handle}
    (hsplit : w.handles = older ++ i :: newer) :
    i.deliveryCount = some (min (older.countP (·.message = i.message) + 1) (2 ^ 53)) := by
  have hsplit' : w.handles.map Handle.delivery = older.map Handle.delivery ++
      i.delivery :: newer.map Handle.delivery := by simp [hsplit]
  have hcount := numbered (reach_turns h) hsplit'
  rwa [List.countP_map] at hcount

/-- A message that is rejected and handed out again. -/
def rejected : List Label := twoSent.take 2 ++ [.microtask, .nack 0 true]

def handedOut (count : Nat) : Handle :=
  { wrap firstSent count with queue := 0, message := firstSent, consumer := ⟨0⟩ }

theorem handles_rejected : (play step {} rejected).handles =
    [{ handedOut 1 with started := true, settled := true }] ++ handedOut 2 :: [] := by decide

theorem handle_count_again : (handedOut 2).deliveryCount = some (min
    ([{ handedOut 1 with started := true, settled := true }].countP (·.message = firstSent) + 1)
      (2 ^ 53)) :=
  handle_count (reach_play rejected) handles_rejected

end World

end MessagingPoc.TsBus
