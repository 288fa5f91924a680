import MessagingPoc.TsBus.Refinement

/-!
# The steps of the engine are runs of turns

One lemma for each method, in the order in which they call one another, and `turns_step` for the
steps. `reach_turns` then says that whatever every turn keeps, every step keeps.
-/

namespace MessagingPoc.TsBus

open Machine CompetingConsumers

namespace World

variable {w w' : World} {q : QueueRef} {m : BusMessage} {c : AckHandler}

theorem Turn.turns (h : Turn w w') : Turns w w' := Run.single (S := TsBus.turns) (l := ()) trivial h

theorem Turn.nextQueue_le (h : Turn w w') : w.nextQueue ≤ w'.nextQueue := by
  cases h with
  | aside h => exact h.nextQueue.ge
  | create => exact Nat.le_succ _
  | _ => exact le_rfl

theorem nextQueue_le (h : Turns w w') : w.nextQueue ≤ w'.nextQueue := by
  induction h with
  | refl => exact le_rfl
  | tail _ _ h ih => exact ih.trans (Turn.nextQueue_le h)

/-! ## What no queue sees -/

/-- An aside that leaves the registry and the history alone. -/
theorem turns_aside (hqueue : w'.queue = w.queue) (hnextRef : w.nextRef ≤ w'.nextRef)
    (hcount : w'.deliveryCount = w.deliveryCount)
    (hretries : ∀ q m, w'.timers.count (.retry q m) = w.timers.count (.retry q m))
    (hhandles : w'.handles.map Handle.delivery = w.handles.map Handle.delivery)
    (hhistory : w'.history = w.history) (hregistry : SameRegistry w w') : Turns w w' :=
  Turn.turns (.aside ⟨hqueue, hregistry.nextQueue, hnextRef, hcount, hretries, hhandles,
    .inl hhistory, by simp [hregistry.queues], by simp [hregistry.byTopic],
    by simp +contextual [hregistry.subscriptions]⟩)

/-- The flags of a handle are its own. -/
theorem map_delivery_modify (handles : List Handle) (h : Nat) {f : Handle → Handle}
    (hf : ∀ i, (f i).delivery = i.delivery) :
    (handles.modify h f).map Handle.delivery = handles.map Handle.delivery := by
  induction handles generalizing h with
  | nil => simp
  | cons i handles ih =>
    cases h with
    | zero => simp [hf]
    | succ h => simp [ih]

theorem turns_modify {h : Nat} {f : Handle → Handle} (hf : ∀ i, (f i).delivery = i.delivery) :
    Turns w { w with handles := w.handles.modify h f } :=
  turns_aside rfl le_rfl rfl (fun _ _ => rfl) (map_delivery_modify _ _ hf) rfl
    ⟨rfl, rfl, rfl, rfl⟩

/-! ## `pump` and `publish` -/

theorem turns_pumpLoop (hq : q < w.nextQueue) (n : Nat) : Turns w (pumpLoop q n w) := by
  induction n generalizing w with
  | zero => exact .refl w
  | succ n ih =>
    rw [pumpLoop]
    rcases hnext : (w.queue q).next with ⟨_ | ⟨m, c⟩, Q⟩
    · exact (Turn.scan hq hnext).turns
    · exact (Turn.deliver hq hnext).turns.trans (ih hq)

theorem turns_pump (hq : q < w.nextQueue) : Turns w (w.pump q) := turns_pumpLoop hq _

theorem turns_armExpiry : Turns w (w.arm (.expiry q m)) :=
  turns_aside rfl le_rfl rfl (by simp [arm]) rfl rfl ⟨rfl, rfl, rfl, rfl⟩

theorem turns_enqueueTo (topic body key : String) (options : PublishOptions)
    (hq : q < w.nextQueue) : Turns w (enqueueTo topic body key options w q) := by
  simp only [enqueueTo, newMessage]
  have harrive := fun m hm => (Turn.arrive (w := w) (m := m) w.nextSeq.seq hq hm).turns
  split_ifs
  · exact ((harrive _ rfl).trans turns_armExpiry).trans (turns_pump hq)
  · exact (harrive _ rfl).trans (turns_pump hq)
  · exact .refl w

theorem turns_enqueueAll {topic body key : String} {options : PublishOptions}
    {queues : List QueueRef} (hqueues : ∀ q ∈ queues, q < w.nextQueue) :
    Turns w (queues.foldl (enqueueTo topic body key options) w) := by
  induction queues generalizing w with
  | nil => exact .refl w
  | cons q queues ih =>
    have hfirst := turns_enqueueTo topic body key options (hqueues q List.mem_cons_self)
    refine hfirst.trans (ih fun q' hq' => ?_)
    exact (hqueues q' (List.mem_cons_of_mem q hq')).trans_le (nextQueue_le hfirst)

theorem turns_seedDedupId (options : PublishOptions) : Turns w (w.seeDedupId options) := by
  unfold seeDedupId
  split
  · exact turns_aside rfl le_rfl rfl (fun _ _ => rfl) rfl rfl ⟨rfl, rfl, rfl, rfl⟩
  · exact .refl w

theorem turns_appendLog (topic body key : String) (options : PublishOptions) :
    Turns w (w.appendLog topic body key options) :=
  turns_aside rfl (Nat.le_succ _) rfl (fun _ _ => rfl) rfl rfl ⟨rfl, rfl, rfl, rfl⟩

theorem turns_published {topic body key : String} {options : PublishOptions} {cause : Cause}
    (h : cause.Due w topic body key options) :
    Turns w (w.record [.published topic body key options cause]) :=
  Turn.turns (.aside ⟨rfl, rfl, le_rfl, rfl, fun _ _ => rfl, rfl,
    .inr ⟨_, _, _, _, _, h, rfl⟩, fun _ _ h => h, fun _ _ h => h, fun _ h => .inl h⟩)

/-- What `publish` does before it goes through the queues. -/
theorem turns_recorded (topic body key : String) (options : PublishOptions) {cause : Cause}
    (h : cause.Due w topic body key options) :
    Turns w (((w.seeDedupId options).appendLog topic body key options).record
      [.published topic body key options cause]) := by
  have hlog := (turns_seedDedupId (w := w) options).trans
    (turns_appendLog topic body key options)
  refine hlog.trans (turns_published ?_)
  have hsame : (w.seeDedupId options).history = w.history ∧
      (w.seeDedupId options).queue = w.queue := by
    unfold seeDedupId
    split <;> exact ⟨rfl, rfl⟩
  exact h.congr hsame.1 hsame.2

theorem Good.turns_publish (hg : Good w) {topic body : String} {routingKey : Option String}
    {options : Option PublishOptions} {cause : Cause}
    (h : cause.Due w topic body (routingKey.getD topic) (options.getD {})) :
    Turns w (w.publish topic body routingKey options cause) := by
  unfold publish
  dsimp only
  split_ifs
  · exact .refl w
  · have hrecord := turns_recorded topic body (routingKey.getD topic) (options.getD {}) h
    exact hrecord.trans (turns_enqueueAll fun q hq => (hg.turns hrecord).byTopic topic q hq)

/-! ## `subscribe` and `unsubscribe` -/

theorem turns_subscriberId (options : SubscribeOptions) :
    Turns w (w.subscriberId options).2 := by
  unfold subscriberId
  split
  · exact .refl w
  · exact turns_aside rfl le_rfl rfl (fun _ _ => rfl) rfl rfl ⟨rfl, rfl, rfl, rfl⟩

theorem turns_seed (logged : BusMessage) (hq : q < w.nextQueue) : Turns w (seed q w logged) := by
  unfold seed
  split_ifs
  · exact (Turn.arrive w.seq hq rfl).turns
  · exact .refl w

theorem turns_seedAll (log : List BusMessage) (hq : q < w.nextQueue) :
    Turns w (log.foldl (seed q) w) := by
  induction log generalizing w with
  | nil => exact .refl w
  | cons m log ih =>
    have hfirst := turns_seed m hq
    exact hfirst.trans (ih (hq.trans_le (nextQueue_le hfirst)))

theorem Good.turns_queueFor (hg : Good w) (topic id : String) (options : SubscribeOptions) :
    Turns w (w.queueFor topic id options).2 ∧
      (w.queueFor topic id options).1 < (w.queueFor topic id options).2.nextQueue := by
  unfold queueFor
  cases hlookup : w.queues (key topic id) with
  | some q => exact ⟨.refl w, hg.queues _ q hlookup⟩
  | none =>
    have hcreate := (Turn.create (w := w) topic (key topic id) options).turns
    have hq : w.nextQueue < (w.createQueue topic (key topic id) options).nextQueue :=
      Nat.lt_succ_self _
    dsimp only
    split_ifs
    · have hseeds :=
        turns_seedAll ((w.createQueue topic (key topic id) options).streamLog topic) hq
      exact ⟨hcreate.trans hseeds, hq.trans_le (nextQueue_le hseeds)⟩
    · exact ⟨hcreate, hq⟩

theorem Good.turns_subscribe (hg : Good w) {topic : String} {handler : AckHandler}
    {options : SubscribeOptions} : Turns w (w.subscribe topic handler options) := by
  have hid := turns_subscriberId (w := w) options
  obtain ⟨hqueue, hq⟩ :=
    (hg.turns hid).turns_queueFor topic (w.subscriberId options).1 options
  simp only [subscribe]
  set q := ((w.subscriberId options).2.queueFor topic (w.subscriberId options).1 options).1
  set w₂ := ((w.subscriberId options).2.queueFor topic (w.subscriberId options).1 options).2
  have hpump := (Turn.attach (c := handler) hq).turns.trans
    (turns_pump (w := w₂.attach q handler) hq)
  refine ((hid.trans hqueue).trans hpump).trans (Turn.turns (.aside ⟨rfl, rfl, le_rfl, rfl,
    fun _ _ => rfl, rfl, .inl rfl, fun _ _ h => h, fun _ _ h => h, fun p hp => ?_⟩))
  rcases List.mem_append.mp hp with hold | hnew
  · exact .inl hold
  · obtain rfl : p = (q, handler) := by simpa using hnew
    exact .inr (hq.trans_le (nextQueue_le hpump))

theorem mem_heldBy {Q : BusQueue} : m ∈ Q.heldBy c ↔ Q.inflight.get m = some c := by
  simp [BusQueue.heldBy, InsertionMap.get_eq_some]

theorem nodup_heldBy (Q : BusQueue) (c : AckHandler) : (Q.heldBy c).Nodup :=
  (List.filter_sublist.map Prod.fst).nodup Q.inflight.nodup

theorem queue_giveBack (w : World) (q : QueueRef) (m : BusMessage) :
    (giveBack q w m).queue q =
      { w.queue q with
        inflight := (w.queue q).inflight.delete m
        pending := m :: (w.queue q).pending } := Function.update_self ..

/-- Giving back everything that a consumer holds. -/
theorem turns_giveBacks {ms : List BusMessage} (hnodup : ms.Nodup)
    (hheld : ∀ m ∈ ms, (w.queue q).inflight.get m = some c) :
    Turns w (ms.foldl (giveBack q) w) ∧
      ∀ x, ((ms.foldl (giveBack q) w).queue q).inflight.get x =
        if x ∈ ms then none else (w.queue q).inflight.get x := by
  induction ms generalizing w with
  | nil => exact ⟨.refl w, fun x => by simp⟩
  | cons m ms ih =>
    obtain ⟨hm, hrest⟩ := List.nodup_cons.mp hnodup
    have hget : ∀ x, ((giveBack q w m).queue q).inflight.get x =
        if x = m then none else (w.queue q).inflight.get x := by
      intro x
      rw [queue_giveBack, InsertionMap.get_delete, Function.update_apply]
    obtain ⟨hturns, hafter⟩ := ih (w := giveBack q w m) hrest fun x hx => by
      have hne : x ≠ m := fun h => hm (h ▸ hx)
      rw [hget, if_neg hne]
      exact hheld x (List.mem_cons_of_mem m hx)
    refine ⟨(Turn.giveBack (hheld m List.mem_cons_self)).turns.trans hturns, fun x => ?_⟩
    rw [List.foldl_cons, hafter, hget]
    by_cases hx : x ∈ ms <;> by_cases hxm : x = m <;> simp [hx, hxm]

/-- What a queue's messages do does not depend on its consumers. -/
theorem giveBack_setConsumers (w : World) (q : QueueRef) (m : BusMessage)
    (consumers : List AckHandler) :
    giveBack q (w.setQueue q { w.queue q with consumers := consumers }) m =
      (giveBack q w m).setQueue q { (giveBack q w m).queue q with consumers := consumers } := by
  simp [giveBack, act, record, setQueue]

theorem giveBacks_setConsumers (q : QueueRef) (ms : List BusMessage)
    (consumers : List AckHandler) (w : World) :
    ms.foldl (giveBack q) (w.setQueue q { w.queue q with consumers := consumers }) =
      (ms.foldl (giveBack q) w).setQueue q
        { (ms.foldl (giveBack q) w).queue q with consumers := consumers } := by
  induction ms generalizing w with
  | nil => rfl
  | cons m ms ih => rw [List.foldl_cons, giveBack_setConsumers, ih, List.foldl_cons]

theorem consumers_giveBacks (q : QueueRef) (ms : List BusMessage) (w : World) :
    ((ms.foldl (giveBack q) w).queue q).consumers = (w.queue q).consumers := by
  induction ms generalizing w with
  | nil => rfl
  | cons m ms ih => rw [List.foldl_cons, ih, queue_giveBack]

/-- Leaving first and giving back afterwards is giving back first. -/
theorem unsubscribe_eq (w : World) (q : QueueRef) (c : AckHandler) :
    let w₁ := ((w.queue q).heldBy c).foldl (giveBack q) w
    w.unsubscribe q c = (w₁.act q (.detach c)
      { w₁.queue q with consumers := (w₁.queue q).consumers.erase c }).pump q := by
  dsimp only [unsubscribe]
  rw [giveBacks_setConsumers, consumers_giveBacks]
  rfl

/-- What `unsubscribe` does before it pumps. -/
theorem turns_left (hq : q < w.nextQueue) :
    let w₁ := ((w.queue q).heldBy c).foldl (giveBack q) w
    Turns w (w₁.act q (.detach c)
      { w₁.queue q with consumers := (w₁.queue q).consumers.erase c }) := by
  obtain ⟨hback, hafter⟩ := turns_giveBacks (w := w) (q := q) (nodup_heldBy (w.queue q) c)
    fun m hm => mem_heldBy.mp hm
  refine hback.trans (Turn.detach (hq.trans_le (nextQueue_le hback)) fun m hm => ?_).turns
  rw [hafter] at hm
  split_ifs at hm with hmem
  exact hmem (mem_heldBy.mpr hm)

theorem turns_unsubscribe (hq : q < w.nextQueue) : Turns w (w.unsubscribe q c) := by
  rw [unsubscribe_eq]
  exact (turns_left hq).trans (turns_pump (hq.trans_le (nextQueue_le (turns_left hq))))

/-! ## Settlement -/

theorem Good.turns_deadLetter (hg : Good w) (h : w.history.head? = some (.on q (.settle m))) :
    Turns w (w.deadLetter q m) := by
  unfold deadLetter
  split_ifs with hdead
  · exact hg.turns_publish ⟨h, hdead, rfl, rfl, rfl, rfl⟩
  · exact .refl w

theorem Good.turns_settle (hg : Good w) (i : Handle) (resolved : BusQueue.Settlement) :
    Turns w (w.settle i resolved) := by
  unfold settle
  dsimp only
  split_ifs with hheld
  · exact .refl w
  · rw [not_not] at hheld
    have hq := hg.used (hg.arrived_of_held hheld)
    cases hresolve : (w.queue i.queue).resolve (w.deliveryCount i.message.ref) resolved with
    | acked => exact (Turn.settle hheld).turns.trans (turns_pump hq)
    | dead =>
      have hsettle := (Turn.settle hheld).turns
      have hdead := hsettle.trans ((hg.turns hsettle).turns_deadLetter rfl)
      exact hdead.trans (turns_pump (hq.trans_le (nextQueue_le hdead)))
    | parked =>
      have hretry := BusQueue.retry_of_resolve hresolve (.inl rfl)
      exact (Turn.park hheld hretry).turns.trans (turns_pump hq)
    | requeued =>
      have hretry := BusQueue.retry_of_resolve hresolve (.inr rfl)
      exact (Turn.requeue hheld hretry).turns.trans (turns_pump hq)

theorem Good.turns_settleHandle (hg : Good w) (h : Nat) (resolved : BusQueue.Settlement) :
    Turns w (w.settleHandle h resolved) := by
  unfold settleHandle
  cases w.handles[h]? with
  | none => exact .refl w
  | some i => exact (hg.turns_settle i resolved).trans (turns_modify fun _ => rfl)

/-! ## Timers and disposal -/

theorem Good.turns_expire (hg : Good w) (q : QueueRef) (m : BusMessage) :
    Turns w (w.expire q m) := by
  unfold expire
  dsimp only
  split_ifs with hpending hheld
  · have hexpire := (Turn.expirePending hpending).turns
    exact hexpire.trans ((hg.turns hexpire).turns_publish (due_expired w rfl))
  · obtain ⟨c, hc⟩ := Option.isSome_iff_exists.mp hheld
    have hexpire := (Turn.expireHeld hc).turns
    exact hexpire.trans ((hg.turns hexpire).turns_publish (due_expired w rfl))
  · exact .refl w

theorem turns_eraseExpiry {i : Nat} (h : w.timers[i]? = some (.expiry q m)) :
    Turns w { w with timers := w.timers.eraseIdx i } := by
  obtain ⟨hlt, hget⟩ := List.getElem?_eq_some_iff.mp h
  refine turns_aside rfl le_rfl rfl (fun q' m' => ?_) rfl rfl ⟨rfl, rfl, rfl, rfl⟩
  rw [← (List.getElem_cons_eraseIdx_perm hlt).count_eq, hget, List.count_cons]
  simp

theorem Good.turns_retry (hg : Good w) {i : Nat} (h : w.timers[i]? = some (.retry q m)) :
    Turns w ({ w with timers := w.timers.eraseIdx i }.retry q m) := by
  have hmem : Timer.retry q m ∈ w.timers := List.mem_of_getElem? h
  exact (Turn.unpark h).turns.trans (turns_pump (hg.used (hg.arrived_of_parked hmem)))

theorem turns_dispose : Turns w w.dispose :=
  Turn.turns (.aside ⟨rfl, rfl, le_rfl, rfl, fun _ _ => rfl, rfl, .inl rfl,
    fun k q hq => by simp [dispose] at hq, fun t q hq => by simp [dispose] at hq,
    fun _ h => .inl h⟩)

/-! ## Steps -/

/-- **A step of the engine is a run of turns.** -/
theorem Good.turns_step (hg : Good w) {l : Label} (h : w.step l = some w') : Turns w w' := by
  cases l with
  | publish topic body routingKey options =>
    obtain rfl := Option.some.inj h
    exact hg.turns_publish trivial
  | subscribe topic handler options =>
    obtain rfl := Option.some.inj h
    exact hg.turns_subscribe
  | unsubscribe s =>
    obtain ⟨⟨q, c⟩, hs, rfl⟩ := Option.map_eq_some_iff.mp h
    exact turns_unsubscribe (hg.subscriptions _ (List.mem_of_getElem? hs))
  | ack i =>
    simp only [step] at h
    split_ifs at h
    obtain rfl := Option.some.inj h
    exact hg.turns_settleHandle ..
  | nack i requeue =>
    simp only [step] at h
    split_ifs at h <;> obtain rfl := Option.some.inj h <;> exact hg.turns_settleHandle ..
  | returns i =>
    simp only [step] at h
    split_ifs at h
    obtain rfl := Option.some.inj h
    exact turns_modify fun _ => rfl
  | throws i =>
    simp only [step] at h
    split at h
    · simp at h
    · split_ifs at h with _ hsettled
      · obtain rfl := Option.some.inj h
        exact turns_modify fun _ => rfl
      · obtain rfl := Option.some.inj h
        have hended := turns_modify (w := w) (h := i) (f := fun i => { i with ended := true })
          fun _ => rfl
        exact hended.trans ((hg.turns hended).turns_settleHandle ..)
  | microtask =>
    simp only [step] at h
    split at h
    · simp at h
    · obtain rfl := Option.some.inj h
      exact turns_aside rfl le_rfl rfl (fun _ _ => rfl) (map_delivery_modify _ _ fun _ => rfl) rfl
        ⟨rfl, rfl, rfl, rfl⟩
  | fire i =>
    obtain ⟨t, ht, rfl⟩ := Option.map_eq_some_iff.mp h
    cases t with
    | expiry q m =>
      have herase := turns_eraseExpiry ht
      exact herase.trans ((hg.turns herase).turns_expire q m)
    | retry q m => exact hg.turns_retry ht
  | dispose =>
    obtain rfl := Option.some.inj h
    exact turns_dispose

/-- **The engine is a run of turns.** -/
theorem reach_turns (h : Reach machine w) : Reach TsBus.turns w := by
  refine h.invariant (fun w hw => .init hw) fun w l w' _ ih _ h => ?_
  exact ih.extend ((good ih).turns_step h)

/-- **Every queue of the engine behaves as competing consumers do.** -/
theorem competing_consumers (h : Reach machine w) (q : QueueRef) :
    Reach (CompetingConsumers.machine (w.queue q).discipline) (w.view q) :=
  (good (reach_turns h)).refines q

/-- Two messages for one consumer. -/
def twoSent : List Label :=
  [.subscribe "t" ⟨0⟩ { subscriberId := some "s" }, .publish "t" "a" none none,
    .publish "t" "b" none none]

theorem competing_consumers_sent : Reach
    (CompetingConsumers.machine ((play step {} twoSent).queue 0).discipline)
    ((play step {} twoSent).view 0) := competing_consumers (reach_play twoSent) 0

end World

end MessagingPoc.TsBus
