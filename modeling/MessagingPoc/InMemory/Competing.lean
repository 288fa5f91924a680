import MessagingPoc.InMemory.Reachable
import MessagingPoc.Lib.CompetingConsumers

/-!
# A lane is a queue of competing consumers

The lanes of this engine are queues of `CompetingConsumers`, as those of its TypeScript twin are:
the two engines differ in how they count and in when things happen, not in what may happen to a
queue. A disposal is several steps there: what the consumer holds is given back first.
-/

namespace MessagingPoc

open Machine CompetingConsumers

/-- The rules of a queue, which never change. -/
def BusQueue.discipline (Q : BusQueue) : Discipline BusMessage String Int32 where
  group := BusMessage.group
  priority := BusMessage.priority
  partitioned := Q.partitionByGroup
  single := Q.singleActiveConsumer
  retries n := Int32.ofNat n < Q.maxDeliveries

/-! ## The record in other words -/

/-- Slip an act in below the newest. -/
def slipIn (a : Act BusMessage AckHandler) :
    List (Act BusMessage AckHandler) → List (Act BusMessage AckHandler)
  | [] => [a]
  | newest :: older => newest :: a :: older

/-- The acts of a record. What a disposal puts back it records after the consumer has left. -/
def acts : List QueueEvent → List (Act BusMessage AckHandler)
  | [] => []
  | .arrived m _ :: older => .arrive m :: acts older
  | .attached c :: older => .attach c :: acts older
  | .detached c :: older => .detach c :: acts older
  | .delivered m c _ :: older => .deliver m c :: acts older
  | .returned m :: older => slipIn (.giveBack m) (acts older)
  | .acked m :: older | .dead m :: older => .settle m :: acts older
  | .requeued m :: older => .requeue m :: acts older
  | .parked m :: older => .park m :: acts older
  | .unparked m :: older => .unpark m :: acts older
  | .expired m :: older => .expire m :: acts older
  | .handed .. :: older => acts older

theorem acts_detachTrail (c : AckHandler) (ms : List BusMessage) (t : List QueueEvent) :
    acts (detachTrail c ms t) = .detach c :: ((ms.map Act.giveBack).reverse ++ acts t) := by
  have hreturned : ∀ ms : List BusMessage, ∀ older,
      acts ((ms.map .returned).reverse ++ .detached c :: older) =
        .detach c :: ((ms.map Act.giveBack).reverse ++ acts older) := by
    intro ms older
    induction ms using List.reverseRecOn with
    | nil => rfl
    | append_singleton ms m ih =>
      rw [List.map_append, List.reverse_append, List.map_append, List.reverse_append]
      show slipIn (.giveBack m) (acts ((ms.map .returned).reverse ++ .detached c :: older)) = _
      rw [ih]
      rfl
  exact hreturned ms t

theorem countP_slipIn (p : Act BusMessage AckHandler → Bool) (a : Act BusMessage AckHandler)
    (as : List (Act BusMessage AckHandler)) : (slipIn a as).countP p = (a :: as).countP p := by
  cases as with
  | nil => rfl
  | cons b as => exact (List.Perm.swap a b as).countP_eq p

/-- The lane as a queue of competing consumers. -/
def Lane.view (L : Lane) : Queue BusMessage AckHandler String where
  consumers := L.queue.consumers
  pending := L.queue.pending
  held m := L.queue.inflight.lookup m
  parked := L.parked
  pins := L.queue.groupAffinity
  trace := acts L.trail

theorem deliveries_view (L : Lane) (m : BusMessage) :
    L.view.deliveries m = deliveries m L.trail := by
  show (acts L.trail).countP (Act.delivers m) = _
  induction L.trail with
  | nil => rfl
  | cons e t ih =>
    cases e <;> simp [acts, deliveries, countP_slipIn, ih, List.countP_cons]

theorem arrivals_view {L : Lane} {m : BusMessage} (h : ∀ e, .arrived m e ∉ L.trail) :
    L.view.arrivals m = 0 := by
  have hnone : ∀ t : List QueueEvent, (∀ e, .arrived m e ∉ t) →
      (acts t).countP (Act.arrives m) = 0 := by
    intro t ht
    induction t with
    | nil => rfl
    | cons e t ih =>
      have ih := ih fun e he => ht e (List.mem_cons_of_mem _ he)
      cases e with
      | arrived x entry =>
        have hx : x ≠ m := by
          rintro rfl
          exact ht entry List.mem_cons_self
        simp [acts, hx, ih]
      | _ => simp [acts, countP_slipIn, ih]
  exact hnone L.trail h

/-! ## Steps -/

theorem lookup_erase_eq (d : AList fun _ : BusMessage => AckHandler) (m : BusMessage) :
    (fun x => (d.erase m).lookup x) = Function.update (fun x => d.lookup x) m none := by
  funext x
  by_cases hx : x = m
  · subst hx
    simp
  · rw [AList.lookup_erase_ne hx, Function.update_of_ne hx]

theorem lookup_insert_eq (d : AList fun _ : BusMessage => AckHandler) (m : BusMessage)
    (c : AckHandler) :
    (fun x => (d.insert m c).lookup x) = Function.update (fun x => d.lookup x) m (some c) := by
  funext x
  by_cases hx : x = m
  · subst hx
    simp
  · rw [AList.lookup_insert_ne hx, Function.update_of_ne hx]

variable {D : Discipline BusMessage String Int32}

theorem run_giveBacks {S : Queue BusMessage AckHandler String} {c : AckHandler}
    {ms : List BusMessage} (hnodup : ms.Nodup) (hheld : ∀ m ∈ ms, S.held m = some c) :
    Run (CompetingConsumers.machine D) anyStep S
      { S with
        pending := ms.reverse ++ S.pending
        held := fun m => if m ∈ ms then none else S.held m
        trace := (ms.map Act.giveBack).reverse ++ S.trace } := by
  induction ms generalizing S with
  | nil => simpa using Run.refl S
  | cons m ms ih =>
    obtain ⟨hm, hnodup⟩ := List.nodup_cons.mp hnodup
    have hfirst : Step D S (.giveBack m) (Queue.record
        { S with pending := m :: S.pending, held := Function.update S.held m none }
        (.giveBack m)) := .giveBack (hheld m List.mem_cons_self)
    have hrest := ih (S := Queue.record
        { S with pending := m :: S.pending, held := Function.update S.held m none }
        (.giveBack m)) hnodup fun x hx => by
      have hne : x ≠ m := fun h => hm (h ▸ hx)
      show Function.update S.held m none x = some c
      rw [Function.update_of_ne hne]
      exact hheld x (List.mem_cons_of_mem m hx)
    have hafter : (fun x => if x ∈ ms then none else Function.update S.held m none x) =
        fun x => if x ∈ m :: ms then none else S.held x := by
      funext x
      by_cases hx : x = m
      · subst hx
        simp
      · simp [hx]
    have hrun := (Run.single trivial hfirst).trans hrest
    simp only [Queue.record, hafter] at hrun
    simpa using hrun

/-- **A step of a lane is a run of competing consumers.** -/
theorem LaneStep.run_view {L L' : Lane} {a : LaneAct} (h : LaneStep L a L') :
    Run (CompetingConsumers.machine L.queue.discipline) anyStep L.view L'.view := by
  cases h with
  | @arrive m entry fresh =>
    have hnew : ∀ e, .arrived m e ∉ L.trail := fun e he => absurd (fresh m e he).1 (lt_irrefl _)
    exact Run.single trivial (Step.arrive (arrivals_view hnew))
  | attach => exact Run.single trivial Step.attach
  | @detach c =>
    have hback := run_giveBacks (D := L.queue.discipline) (S := L.view)
      (BusQueue.nodup_heldBy L.queue c) fun m hm => BusQueue.mem_heldBy.mp hm
    refine hback.tail trivial (l := .detach c) ?_
    have hnone : ∀ m, (if m ∈ L.queue.heldBy c then none else L.view.held m) ≠ some c := by
      intro m hm
      split_ifs at hm with hmem
      exact hmem (BusQueue.mem_heldBy.mpr hm)
    have hstep := Step.detach (D := L.queue.discipline) (S :=
      { L.view with
        pending := (L.queue.heldBy c).reverse ++ L.view.pending
        held := fun m => if m ∈ L.queue.heldBy c then none else L.view.held m
        trace := ((L.queue.heldBy c).map Act.giveBack).reverse ++ L.view.trace }) hnone
    have hheld : (fun m => (L.queue.detach c).inflight.lookup m) =
        fun m => if m ∈ L.queue.heldBy c then none else L.view.held m := by
      funext m
      simp only [BusQueue.lookup_detach, BusQueue.mem_heldBy]
      rfl
    have hview : Lane.view { L with
        queue := L.queue.detach c
        trail := detachTrail c (L.queue.heldBy c) L.trail } = Queue.record
        { L.view with
          consumers := L.view.consumers.erase c
          pending := (L.queue.heldBy c).reverse ++ L.view.pending
          held := fun m => if m ∈ L.queue.heldBy c then none else L.view.held m
          trace := ((L.queue.heldBy c).map Act.giveBack).reverse ++ L.view.trace }
        (.detach c) := by
      simp only [Lane.view, hheld, acts_detachTrail]
      simp only [BusQueue.detach_eq]
      rfl
    rw [hview]
    exact hstep
  | @scan Q h =>
    refine Run.single trivial (l := .scan) ?_
    have hview : Lane.view { L with queue := Q } = { L.view with pins := Q.groupAffinity } := by
      simp only [Lane.view]
      rw [h.frame]
    rw [hview]
    exact .scan h.kept
  | @deliver Q m c d h =>
    obtain ⟨before, after, hsplit, hrest, hfirst, hbest⟩ := h.split
    refine Run.single trivial (l := .deliver m c) ?_
    have hinflight : Q.inflight = L.queue.inflight := by rw [h.frame]
    have hconsumers : Q.consumers = L.queue.consumers := by rw [h.frame]
    have hview : Lane.view { L.note (Q.book m c) (.delivered m c d) with
        building := Function.update L.building m (L.building m + 1) } = Queue.record
        { L.view with
          pending := before ++ after
          held := Function.update L.view.held m (some c)
          pins := Q.groupAffinity } (.deliver m c) := by
      simp only [Lane.view, Lane.note, BusQueue.book, lookup_insert_eq, hrest, hinflight,
        hconsumers]
      rfl
    rw [hview]
    refine .deliver hsplit h.attached
      (fun x hx => h.free (BusQueue.mem_owners.mpr ⟨x, hx⟩)) hfirst hbest (fun hp hs => ?_) h.pinned
      h.kept
    obtain ⟨hempty, hhead⟩ := h.exclusive hp hs
    refine ⟨fun x => ?_, hhead⟩
    by_contra hx
    obtain ⟨o, ho⟩ := Option.ne_none_iff_exists'.mp hx
    have hmem : o ∈ L.queue.owners := BusQueue.mem_owners.mpr ⟨x, ho⟩
    rw [BusQueue.owners_eq_nil hempty] at hmem
    exact absurd hmem List.not_mem_nil
  | hand => exact .refl _
  | @ack m c h =>
    refine Run.single trivial (l := .settle m) ?_
    have hstep := Step.settle (D := L.queue.discipline) (S := L.view) h
    rwa [show L.view.held = fun x => L.queue.inflight.lookup x from rfl, ← lookup_erase_eq] at hstep
  | @dead m c h =>
    refine Run.single trivial (l := .settle m) ?_
    have hstep := Step.settle (D := L.queue.discipline) (S := L.view) h
    rwa [show L.view.held = fun x => L.queue.inflight.lookup x from rfl, ← lookup_erase_eq] at hstep
  | @requeue m c h budget =>
    refine Run.single trivial (l := .requeue m) ?_
    have hretry : L.queue.discipline.retries (L.view.deliveries m) := by
      rw [deliveries_view]
      exact budget
    have hstep := Step.requeue (D := L.queue.discipline) (S := L.view) h hretry
    rwa [show L.view.held = fun x => L.queue.inflight.lookup x from rfl, ← lookup_erase_eq] at hstep
  | @park m c h budget =>
    refine Run.single trivial (l := .park m) ?_
    have hretry : L.queue.discipline.retries (L.view.deliveries m) := by
      rw [deliveries_view]
      exact budget
    have hstep := Step.park (D := L.queue.discipline) (S := L.view) h hretry
    rwa [show L.view.held = fun x => L.queue.inflight.lookup x from rfl, ← lookup_erase_eq] at hstep
  | unpark h => exact Run.single trivial (Step.unpark h)
  | expirePending h => exact Run.single trivial (Step.expirePending h)
  | @expireInflight m c h =>
    refine Run.single trivial (l := .expire m) ?_
    have hstep := Step.expireHeld (D := L.queue.discipline) (S := L.view) h
    rwa [show L.view.held = fun x => L.queue.inflight.lookup x from rfl, ← lookup_erase_eq] at hstep

/-- **Every lane is a queue of competing consumers.** -/
theorem Lane.reach_view {L : Lane} (h : Reach laneMachine L) :
    Reach (CompetingConsumers.machine L.queue.discipline) L.view := by
  refine h.invariant (I := fun L => Reach (CompetingConsumers.machine L.queue.discipline) L.view)
    (fun L hL => .init ?_) fun L a L' _ ih _ hs => ?_
  · simp only [Lane.view, hL.pending, hL.inflight, hL.consumers, hL.groupAffinity, hL.parked,
      hL.trail]
    rfl
  · have hrules : L'.queue.discipline = L.queue.discipline := by
      rw [LaneStep.frame hs]
      rfl
    rw [hrules]
    exact ih.extend hs.run_view

/-- **Every queue of the bus is a queue of competing consumers.** -/
theorem World.competing {w : World} (h : Reach busMachine w) (q : QueueRef) :
    Reach (CompetingConsumers.machine (w.bus.queue q).discipline) (w.lane q).view :=
  Lane.reach_view (lane_reach h q)

/-- A message that is delivered while another one waits. -/
def oneWaits : List Label :=
  [.call (.subscribe "t" ⟨0⟩ { subscriberId := some "s" }), .run 0,
    .call (.publish "t" "a" none none), .run 1, .run 1,
    .call (.publish "t" "b" none none), .run 2]

theorem World.competing_waiting :
    Reach (CompetingConsumers.machine ((World.play {} oneWaits).bus.queue 0).discipline)
      ((World.play {} oneWaits).lane 0).view :=
  World.competing (World.reach_play oneWaits) 0

end MessagingPoc
