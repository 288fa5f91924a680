import MessagingPoc.TsBus.Delivery

/-!
# The engine lets no consumer idle

Whatever frees a consumer or brings a message pumps the queue at its end, so that nothing can be
handed out between steps: `Stalled`. The one exception is a TTL timer that takes a message out of
flight; it frees the consumer and pumps nothing.
-/

namespace MessagingPoc.TsBus

open Machine

namespace World

variable {w w' : World} {q q' : QueueRef}

/-! ## Who touches a queue -/

theorem queue_pumpLoop_ne (hq : q' ≠ q) (n : Nat) (w : World) :
    (pumpLoop q n w).queue q' = w.queue q' := by
  induction n generalizing w with
  | zero => rfl
  | succ n ih =>
    rw [pumpLoop]
    split
    · exact Function.update_of_ne hq ..
    · rw [ih]
      exact Function.update_of_ne hq ..

theorem queue_pump_ne (hq : q' ≠ q) (w : World) : (w.pump q).queue q' = w.queue q' :=
  queue_pumpLoop_ne hq _ w

/-- The pumps of a publish leave nothing to hand out where there was nothing before. -/
theorem Good.stalled_enqueueTo (hg : Good w) {topic body key : String} {options : PublishOptions}
    (hq : q < w.nextQueue) (q' : QueueRef) (h : Stalled (w.queue q')) :
    Stalled ((enqueueTo topic body key options w q).queue q') := by
  have harrive := fun m hm => (Turn.arrive (w := w) (m := m) w.nextSeq.seq hq hm).turns
  simp only [enqueueTo, newMessage]
  split_ifs
  · by_cases hqq : q' = q
    · rw [hqq]
      exact (hg.turns ((harrive _ rfl).trans turns_armExpiry)).stalled_pump q
    · rw [queue_pump_ne hqq]
      show Stalled (Function.update w.queue q _ q')
      rwa [Function.update_of_ne hqq]
  · by_cases hqq : q' = q
    · rw [hqq]
      exact (hg.turns (harrive _ rfl)).stalled_pump q
    · rw [queue_pump_ne hqq]
      show Stalled (Function.update w.queue q _ q')
      rwa [Function.update_of_ne hqq]
  · exact h

theorem Good.stalled_enqueueAll (hg : Good w) {topic body key : String} {options : PublishOptions}
    {queues : List QueueRef} (hqueues : ∀ q ∈ queues, q < w.nextQueue) (q' : QueueRef)
    (h : Stalled (w.queue q')) :
    Stalled ((queues.foldl (enqueueTo topic body key options) w).queue q') := by
  induction queues generalizing w with
  | nil => exact h
  | cons q queues ih =>
    have hfirst := turns_enqueueTo topic body key options (hqueues q List.mem_cons_self)
    exact ih (hg.turns hfirst)
      (fun q hq => (hqueues q (List.mem_cons_of_mem _ hq)).trans_le (nextQueue_le hfirst))
      (hg.stalled_enqueueTo (hqueues q List.mem_cons_self) q' h)

theorem queue_seedDedupId (w : World) (options : PublishOptions) :
    (w.seeDedupId options).queue = w.queue := by
  unfold seeDedupId
  split <;> rfl

theorem Good.stalled_publish (hg : Good w) {topic body : String} {routingKey : Option String}
    {options : Option PublishOptions} (cause : Cause)
    (hcause : cause.Due w topic body (routingKey.getD topic) (options.getD {})) (q : QueueRef)
    (h : Stalled (w.queue q)) :
    Stalled ((w.publish topic body routingKey options cause).queue q) := by
  unfold publish
  dsimp only
  split_ifs
  · exact h
  · have hrecord := turns_recorded topic body (routingKey.getD topic) (options.getD {}) hcause
    refine (hg.turns hrecord).stalled_enqueueAll
      (fun q hq => (hg.turns hrecord).byTopic topic q hq) q ?_
    show Stalled ((w.seeDedupId (options.getD {})).queue q)
    rwa [queue_seedDedupId]

/-! ## Steps -/

/-- The step takes no message of the queue out of flight because its time is up. -/
def Undisturbed (q : QueueRef) (w : World) : Label → Prop
  | .fire i => ∀ m, w.timers[i]? = some (.expiry q m) → (w.queue q).inflight.get m = none
  | _ => True

theorem queue_act_ne (hq : q' ≠ q) (w : World) (a : CompetingConsumers.Act BusMessage AckHandler)
    (Q : BusQueue) : (w.act q a Q).queue q' = w.queue q' := Function.update_of_ne hq ..

theorem queue_subscriberId (w : World) (options : SubscribeOptions) :
    (w.subscriberId options).2.queue = w.queue := by
  unfold subscriberId
  split <;> rfl

theorem queue_seedAll_ne (hq : q' ≠ q) (log : List BusMessage) (w : World) :
    (log.foldl (seed q) w).queue q' = w.queue q' := by
  induction log generalizing w with
  | nil => rfl
  | cons m log ih =>
    rw [List.foldl_cons, ih, seed]
    split_ifs
    · exact Function.update_of_ne hq ..
    · rfl

/-- Another queue is left alone when the queue of a key is looked up. -/
theorem queue_queueFor_ne (topic id : String) (options : SubscribeOptions)
    (hq : q' ≠ (w.queueFor topic id options).1) :
    (w.queueFor topic id options).2.queue q' = w.queue q' := by
  unfold queueFor at hq ⊢
  cases hlookup : w.queues (key topic id) with
  | some q => rfl
  | none =>
    simp only [hlookup] at hq ⊢
    split_ifs
    · rw [queue_seedAll_ne hq]
      exact Function.update_of_ne hq ..
    · exact Function.update_of_ne hq ..

theorem Good.stalled_subscribe (hg : Good w) {topic : String} {handler : AckHandler}
    {options : SubscribeOptions} (q : QueueRef) (h : Stalled (w.queue q)) :
    Stalled ((w.subscribe topic handler options).queue q) := by
  have hid := turns_subscriberId (w := w) options
  obtain ⟨hqueue, hq⟩ := (hg.turns hid).turns_queueFor topic (w.subscriberId options).1 options
  simp only [subscribe]
  by_cases heq :
      q = ((w.subscriberId options).2.queueFor topic (w.subscriberId options).1 options).1
  · rw [heq]
    exact (hg.turns ((hid.trans hqueue).trans (Turn.attach hq).turns)).stalled_pump _
  · rw [queue_pump_ne heq, attach, queue_act_ne heq, queue_queueFor_ne _ _ _ heq,
      queue_subscriberId]
    exact h

theorem queue_giveBacks_ne (hq : q' ≠ q) (ms : List BusMessage) (w : World) :
    (ms.foldl (giveBack q) w).queue q' = w.queue q' := by
  induction ms generalizing w with
  | nil => rfl
  | cons m ms ih =>
    rw [List.foldl_cons, ih]
    exact Function.update_of_ne hq ..

theorem Good.stalled_unsubscribe (hg : Good w) (hq : q < w.nextQueue) {c : AckHandler}
    (q' : QueueRef) (h : Stalled (w.queue q')) : Stalled ((w.unsubscribe q c).queue q') := by
  by_cases hqq : q' = q
  · rw [hqq, unsubscribe_eq]
    exact (hg.turns (turns_left hq)).stalled_pump q
  · rw [unsubscribe_eq, queue_pump_ne hqq, queue_act_ne hqq, queue_giveBacks_ne hqq]
    exact h

theorem Good.stalled_deadLetter (hg : Good w) {m : BusMessage}
    (hend : w.history.head? = some (.on q (.settle m))) (q' : QueueRef)
    (h : Stalled (w.queue q')) : Stalled ((w.deadLetter q m).queue q') := by
  unfold deadLetter
  split_ifs with hdead
  · exact hg.stalled_publish (.deadLetter q m) ⟨hend, hdead, rfl, rfl, rfl, rfl⟩ q' h
  · exact h

theorem Good.stalled_settle (hg : Good w) (i : Handle) (resolved : BusQueue.Settlement)
    (q : QueueRef) (h : Stalled (w.queue q)) : Stalled ((w.settle i resolved).queue q) := by
  unfold settle
  dsimp only
  split_ifs with hheld
  · exact h
  · rw [not_not] at hheld
    by_cases hq : q = i.queue
    · -- The queue itself is pumped, whatever has become of the message.
      rw [hq]
      cases hresolve : (w.queue i.queue).resolve (w.deliveryCount i.message.ref) resolved with
      | acked => exact (hg.turns (Turn.settle hheld).turns).stalled_pump _
      | dead =>
        have hsettle := (Turn.settle hheld).turns
        exact (hg.turns (hsettle.trans ((hg.turns hsettle).turns_deadLetter rfl))).stalled_pump _
      | parked =>
        have hretry := BusQueue.retry_of_resolve hresolve (.inl rfl)
        exact (hg.turns (Turn.park hheld hretry).turns).stalled_pump _
      | requeued =>
        have hretry := BusQueue.retry_of_resolve hresolve (.inr rfl)
        exact (hg.turns (Turn.requeue hheld hretry).turns).stalled_pump _
    · cases (w.queue i.queue).resolve (w.deliveryCount i.message.ref) resolved with
      | acked =>
        rw [queue_pump_ne hq, release, queue_act_ne hq]
        exact h
      | dead =>
        rw [queue_pump_ne hq]
        refine (hg.turns (Turn.settle hheld).turns).stalled_deadLetter rfl q ?_
        rw [release, queue_act_ne hq]
        exact h
      | parked =>
        rw [queue_pump_ne hq]
        show Stalled ((w.release i.queue i.message (.park i.message)).queue q)
        rw [release, queue_act_ne hq]
        exact h
      | requeued =>
        rw [queue_pump_ne hq, queue_act_ne hq]
        exact h

theorem Good.stalled_settleHandle (hg : Good w) (n : Nat) (resolved : BusQueue.Settlement)
    (q : QueueRef) (h : Stalled (w.queue q)) : Stalled ((w.settleHandle n resolved).queue q) := by
  unfold settleHandle
  cases w.handles[n]? with
  | none => exact h
  | some i => exact hg.stalled_settle i resolved q h

/-- Fewer messages waiting is nothing more to hand out. -/
theorem stalled_erase {Q : BusQueue} {m : BusMessage} (h : Stalled Q) :
    Stalled { Q with pending := Q.pending.erase m } := by
  intro hrr hdeliverable
  refine h hrr ?_
  have hmem : ∀ x ∈ Q.pending.erase m, x ∈ Q.pending := fun x hx => List.mem_of_mem_erase hx
  have hne : Q.pending.erase m ≠ [] → Q.pending ≠ [] := by
    intro hne hnil
    exact hne (by simp [hnil])
  unfold BusQueue.Deliverable at hdeliverable ⊢
  dsimp only at hdeliverable
  split_ifs at hdeliverable ⊢
  · obtain ⟨x, hx, hrest⟩ := hdeliverable
    exact ⟨x, hmem x hx, hrest⟩
  · exact ⟨hne hdeliverable.1, hdeliverable.2⟩
  · exact ⟨hne hdeliverable.1, hdeliverable.2⟩

theorem Good.stalled_expire (hg : Good w) {m : BusMessage} (q' : QueueRef)
    (hheld : q' = q → (w.queue q).inflight.get m = none) (h : Stalled (w.queue q')) :
    Stalled ((w.expire q m).queue q') := by
  unfold expire
  dsimp only
  split_ifs with hpending hflight
  · refine (hg.turns (Turn.expirePending hpending).turns).stalled_publish (.expiry q m)
      (by exact due_expired w rfl) q' ?_
    by_cases hq : q' = q
    · subst hq
      show Stalled (Function.update w.queue q' _ q')
      rw [Function.update_self]
      exact stalled_erase h
    · rw [queue_act_ne hq]
      exact h
  · obtain ⟨c, hc⟩ := Option.isSome_iff_exists.mp hflight
    have hq : q' ≠ q := by
      rintro rfl
      simp [hheld rfl] at hc
    refine (hg.turns (Turn.expireHeld hc).turns).stalled_publish (.expiry q m)
      (by exact due_expired w rfl) q' ?_
    rw [release, queue_act_ne hq]
    exact h
  · exact h

theorem Good.stalled_retry (hg : Good w) {i : Nat} {m : BusMessage}
    (ht : w.timers[i]? = some (.retry q m)) (q' : QueueRef) (h : Stalled (w.queue q')) :
    Stalled (({ w with timers := w.timers.eraseIdx i }.retry q m).queue q') := by
  by_cases hq : q' = q
  · rw [hq]
    exact (hg.turns (Turn.unpark ht).turns).stalled_pump q
  · rw [World.retry, queue_pump_ne hq, push, queue_act_ne hq]
    exact h

theorem Good.stalled_step (hg : Good w) {l : Label} (h : w.step l = some w') (q : QueueRef)
    (hl : Undisturbed q w l) (hq : Stalled (w.queue q)) : Stalled (w'.queue q) := by
  cases l with
  | publish topic body routingKey options =>
    obtain rfl := Option.some.inj h
    exact hg.stalled_publish .client trivial q hq
  | subscribe topic handler options =>
    obtain rfl := Option.some.inj h
    exact hg.stalled_subscribe q hq
  | unsubscribe s =>
    obtain ⟨⟨q', c⟩, hs, rfl⟩ := Option.map_eq_some_iff.mp h
    exact hg.stalled_unsubscribe (hg.subscriptions _ (List.mem_of_getElem? hs)) q hq
  | ack i =>
    simp only [step] at h
    split_ifs at h
    obtain rfl := Option.some.inj h
    exact hg.stalled_settleHandle _ _ q hq
  | nack i requeue =>
    simp only [step] at h
    split_ifs at h <;> obtain rfl := Option.some.inj h <;>
      exact hg.stalled_settleHandle _ _ q hq
  | returns i =>
    simp only [step] at h
    split_ifs at h
    obtain rfl := Option.some.inj h
    exact hq
  | throws i =>
    simp only [step] at h
    split at h
    · simp at h
    · split_ifs at h
      · obtain rfl := Option.some.inj h
        exact hq
      · obtain rfl := Option.some.inj h
        have hended := turns_modify (w := w) (h := i) (f := fun i => { i with ended := true })
          fun _ => rfl
        exact (hg.turns hended).stalled_settleHandle _ _ q hq
  | microtask =>
    simp only [step] at h
    split at h
    · simp at h
    · obtain rfl := Option.some.inj h
      exact hq
  | fire i =>
    obtain ⟨t, ht, rfl⟩ := Option.map_eq_some_iff.mp h
    cases t with
    | expiry q' m =>
      refine (hg.turns (turns_eraseExpiry ht)).stalled_expire q (fun heq => ?_) hq
      subst heq
      exact hl m ht
    | retry q' m => exact hg.stalled_retry ht q hq
  | dispose =>
    obtain rfl := Option.some.inj h
    exact hq

theorem stalled {q : QueueRef} (h : ReachIf machine (Undisturbed q) w) : Stalled (w.queue q) := by
  refine h.invariant (I := fun w => Stalled (w.queue q)) (fun w hw => ?_)
    fun w l w' hr ih hl hs => ?_
  · obtain rfl : w = {} := hw
    simp [Stalled, BusQueue.Deliverable]
  · exact (good (reach_turns hr.reach)).stalled_step hs q hl ih

/-- **No consumer idles.** While no message of a queue has been taken out of flight because its time
was up, no step leaves a message that could be handed to a consumer without one. -/
theorem nothing_deliverable {q : QueueRef} (h : ReachIf machine (Undisturbed q) w)
    (hrr : (w.queue q).rr < 2 ^ 53) : ¬ (w.queue q).Deliverable := stalled h hrr

theorem nothing_deliverable_sent : ¬ ((play step {} twoSent).queue 0).Deliverable :=
  nothing_deliverable (Machine.reachIf_play (fun _ _ _ => id) rfl twoSent
    ⟨trivial, trivial, trivial, trivial⟩) (by decide)

end World

end MessagingPoc.TsBus
