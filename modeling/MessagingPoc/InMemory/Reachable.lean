import MessagingPoc.InMemory.Refinement

/-!
# Every queue of a reachable bus is a reachable lane

The bookkeeping of `Sound` is kept by every step, so the refinement of the bus by its lanes applies
along every run (`World.good`), and under any guard that the steps of the bus pass on to the lanes
(`World.guarded_lane`).
-/

namespace MessagingPoc

open Machine

namespace World

/-! ## Facts of one step -/

/-- A queue that has seen a message has been created. -/
theorem Sound.used {w : World} (hs : w.Sound) {q : QueueRef} {e : QueueEvent}
    (he : e ∈ w.trail q) : q < w.bus.nextQueue := by
  by_contra hq
  rw [hs.unused q (not_lt.mp hq)] at he
  exact absurd he (List.not_mem_nil)

theorem Sound.used_of_place {w : World} (hs : w.Sound) {q : QueueRef}
    (hlane : Reach laneMachine (w.lane q)) {m : BusMessage} (hm : place m (w.trail q) ≠ .absent) :
    q < w.bus.nextQueue := by
  obtain ⟨entry, hentry⟩ := (Lane.located hlane).arrived m hm
  exact hs.used hentry

theorem Sound.used_of_lookup {w : World} (hs : w.Sound) {q : QueueRef}
    (hlane : Reach laneMachine (w.lane q)) {m : BusMessage} {c : AckHandler}
    (hl : (w.bus.queue q).inflight.lookup m = some c) : q < w.bus.nextQueue := by
  obtain ⟨d, hd⟩ := (Lane.located hlane).place_of_lookup hl
  exact hs.used_of_place hlane (m := m) (show place m (w.lane q).trail ≠ .absent by simp [hd])

theorem Sound.used_of_pending {w : World} (hs : w.Sound) {q : QueueRef}
    (hlane : Reach laneMachine (w.lane q)) {m : BusMessage}
    (hm : m ∈ (w.bus.queue q).pending) : q < w.bus.nextQueue := by
  have hplace := (Lane.located hlane).mem_pending.mp hm
  exact hs.used_of_place hlane (m := m) (show place m (w.lane q).trail ≠ .absent by simp [hplace])

/-- What a step leaves of the registration and of the allocation. -/
structure Grows (w : World) (o : Outcome) : Prop where
  nextQueue : w.bus.nextQueue ≤ o.world.bus.nextQueue
  nextRef : w.bus.nextRef ≤ o.world.bus.nextRef
  queues : ∀ k q, o.world.bus.queues k = some q → w.bus.queues k = some q ∨
    q < o.world.bus.nextQueue
  byTopic : ∀ topic, ∀ q ∈ (o.world.bus.byTopic topic).items,
    q ∈ (w.bus.byTopic topic).items ∨ q < o.world.bus.nextQueue
  subscriptions : ∀ p ∈ o.world.subscriptions, p ∈ w.subscriptions ∨
    .returnSubscription p.1 p.2 ∈ w.agenda
  returns : ∀ q c, .returnSubscription q c ∈ o.more → q < o.world.bus.nextQueue
  history : ∀ q e, .on q e ∈ o.world.history → .on q e ∈ w.history ∨ q < o.world.bus.nextQueue
  log : ∀ topic, o.world.bus.streamLog topic = w.bus.streamLog topic ∨
    o.world.bus.streamLog topic = [] ∨
    ∃ m, o.world.bus.streamLog topic = w.bus.streamLog topic ++ [m] ∧
      w.bus.nextRef ≤ m.ref ∧ m.ref < o.world.bus.nextRef

theorem grows_of_bus {w : World} {o : Outcome} (hqueues : o.world.bus.queues = w.bus.queues)
    (hbyTopic : o.world.bus.byTopic = w.bus.byTopic)
    (hnextQueue : o.world.bus.nextQueue = w.bus.nextQueue)
    (hnextRef : o.world.bus.nextRef = w.bus.nextRef)
    (hlog : o.world.bus.streamLog = w.bus.streamLog)
    (hsubs : o.world.subscriptions = w.subscriptions)
    (hreturns : ∀ q c, .returnSubscription q c ∉ o.more)
    (hhistory : ∀ q e, .on q e ∈ o.world.history → .on q e ∈ w.history ∨
      q < w.bus.nextQueue) : Grows w o := by
  refine ⟨hnextQueue.ge, hnextRef.ge, fun k q hq => .inl (hqueues ▸ hq),
    fun topic q hq => .inl (hbyTopic ▸ hq), fun p hp => .inl (hsubs ▸ hp),
    fun q c hq => absurd hq (hreturns q c), hnextQueue ▸ hhistory, fun topic => .inl (by rw [hlog])⟩

theorem grows_of_event {w : World} {o : Outcome} {q₀ : QueueRef} {e₀ : QueueEvent}
    (hused : q₀ < w.bus.nextQueue) (hqueues : o.world.bus.queues = w.bus.queues)
    (hbyTopic : o.world.bus.byTopic = w.bus.byTopic)
    (hnextQueue : o.world.bus.nextQueue = w.bus.nextQueue)
    (hnextRef : o.world.bus.nextRef = w.bus.nextRef)
    (hlog : o.world.bus.streamLog = w.bus.streamLog)
    (hsubs : o.world.subscriptions = w.subscriptions)
    (hhistory : o.world.history = .on q₀ e₀ :: w.history)
    (hreturns : ∀ q c, .returnSubscription q c ∉ o.more) : Grows w o := by
  refine grows_of_bus hqueues hbyTopic hnextQueue hnextRef hlog hsubs hreturns fun q e h => ?_
  rw [hhistory] at h
  rcases List.mem_cons.mp h with heq | h
  · exact .inr ((Event.on.inj heq).1 ▸ hused)
  · exact .inl h

theorem grows_subscribeOld {w : World} (hs : w.Sound) {topic id : String}
    {handler : AckHandler} {opts : SubscribeOptions} {b₁ : Bus} {q₀ : QueueRef}
    (hid : w.bus.subscriberId opts = (id, b₁)) (hq : b₁.queues (Bus.key topic id) = some q₀) :
    Grows w
      { world := (w.withBus (b₁.attach q₀ handler)).record [.on q₀ (.attached handler)]
        more := [.pump q₀, .returnSubscription q₀ handler] } := by
  have hb₁ := Bus.subscriberId_eq hid
  have hused : q₀ < w.bus.nextQueue := hs.queues _ q₀ (by rw [hb₁] at hq; exact hq)
  rw [hb₁]
  refine ⟨le_rfl, le_rfl, fun _ _ h => .inl h, fun _ _ h => .inl h, fun p hp => .inl hp,
    fun q c h => ?_, fun q e h => ?_, fun _ => .inl rfl⟩
  · simp at h
    exact h.1 ▸ hused
  · rcases List.mem_cons.mp h with heq | h
    · exact .inr ((Event.on.inj heq).1 ▸ hused)
    · exact .inl h

theorem grows_subscribeNew {w : World} {topic id : String} {handler : AckHandler}
    {opts : SubscribeOptions} {b₁ b₂ b₃ : Bus} {seeded : List (BusMessage × BusMessage)}
    (hid : w.bus.subscriberId opts = (id, b₁))
    (hb₂ : b₂ = b₁.createQueue topic (Bus.key topic id) opts)
    (hseeded : Bus.replay topic b₁.nextQueue (b₂.backlog topic b₁.nextQueue opts) b₂ =
      (seeded, b₃)) :
    Grows w
      { world := (w.withBus (b₃.attach b₁.nextQueue handler)).record
          (.on b₁.nextQueue (.attached handler) ::
            (seeded.map fun t => .on b₁.nextQueue (.arrived t.1 t.2.ref)).reverse)
        more := [.pump b₁.nextQueue, .returnSubscription b₁.nextQueue handler] } := by
  have hc := Bus.created hid hb₂ hseeded
  have hb₁ := Bus.subscriberId_eq hid
  have hnext : b₁.nextQueue = w.bus.nextQueue := by rw [hb₁]
  have hlt : b₁.nextQueue < b₃.nextQueue := by
    rw [hc.nextQueue, hnext]
    exact Nat.lt_succ_self _
  have hqueues : b₃.queues = _ := hc.queues
  have hbyTopic : b₃.byTopic = _ := hc.byTopic
  refine ⟨?_, hc.grows, fun k q h => ?_, fun t q h => ?_, fun p hp => .inl hp, fun q c h => ?_,
    fun q e h => ?_, fun t => .inl (congrFun hc.log t)⟩
  · exact hnext ▸ hlt.le
  · show _ ∨ q < b₃.nextQueue
    replace h : b₃.queues k = some q := h
    rw [hqueues, Function.update_apply] at h
    split_ifs at h
    · exact .inr (Option.some.inj h ▸ hnext ▸ hlt)
    · exact .inl h
  · show _ ∨ q < b₃.nextQueue
    replace h : q ∈ (b₃.byTopic t).items := h
    rw [hbyTopic, Function.update_apply] at h
    split_ifs at h with ht
    · rcases InsertionSet.mem_add.mp h with h | rfl
      · exact .inl (ht ▸ h)
      · exact .inr (hnext ▸ hlt)
    · exact .inl h
  · show q < b₃.nextQueue
    simp at h
    exact h.1 ▸ hlt
  · show _ ∨ q < b₃.nextQueue
    simp only [record, withBus, List.cons_append, List.mem_cons, List.mem_append,
      List.mem_reverse, List.mem_map] at h
    rcases h with heq | ⟨t, -, heq⟩ | h
    · exact .inr ((Event.on.inj heq).1 ▸ hlt)
    · exact .inr ((Event.on.inj heq).1 ▸ hlt)
    · exact .inl h

theorem grows_publish {w : World} (hs : w.Sound) {topic body : String}
    {routingKey : Option String} {options : Option PublishOptions} {cause : Cause}
    {logged : BusMessage} {b₁ b₂ : Bus} {copies : List (QueueRef × BusMessage)}
    (hlog : (w.bus.seeDedupId options).appendLog topic body (routingKey.getD topic) options =
      (logged, b₁))
    (hcopies : Bus.enqueueCopies topic body (routingKey.getD topic) options
      (b₁.targets topic (routingKey.getD topic)) b₁ = (copies, b₂)) :
    Grows w
      { world := (w.withBus b₂).record
          ((copies.map fun t => .on t.1 (.arrived t.2 logged.ref)).reverse ++
            [.published topic body (routingKey.getD topic) options cause])
        more := copies.flatMap (afterEnqueue options) } := by
  have hp := Bus.published hlog hcopies
  have hnext : b₂.nextQueue = w.bus.nextQueue := hp.nextQueue
  refine ⟨hnext.ge, hp.grows.le, fun k q h => ?_, fun t q h => ?_, fun p hp => .inl hp,
    fun q c h => ?_, fun q e h => ?_, fun t => ?_⟩
  · exact .inl (by rw [← hp.queues]; exact h)
  · exact .inl (by rw [← hp.byTopic]; exact h)
  · obtain ⟨u, -, hu⟩ := List.mem_flatMap.mp h
    unfold afterEnqueue at hu
    split_ifs at hu <;> simp at hu
  · show _ ∨ q < b₂.nextQueue
    simp only [record, withBus, List.mem_append, List.mem_reverse, List.mem_map,
      List.mem_singleton, reduceCtorEq, or_false] at h
    rcases h with ⟨t, ht, heq⟩ | h
    · have hq : q ∈ w.bus.targets topic (routingKey.getD topic) :=
        (hp.mem_iff q).mpr ⟨t.2, (Event.on.inj heq).1 ▸ ht⟩
      exact .inr (hnext ▸ hs.byTopic topic q (List.mem_of_mem_filter hq))
    · exact .inl h
  · show b₂.streamLog t = _ ∨ b₂.streamLog t = [] ∨
      ∃ m : BusMessage, b₂.streamLog t = _ ∧ _ ∧ m.ref < b₂.nextRef
    rw [hp.log, Function.update_apply]
    split_ifs with ht
    · exact .inr (.inr ⟨logged, by rw [ht], hp.entry.ge, hp.entry ▸ hp.grows⟩)
    · exact .inl rfl

theorem grows {w : World} (hs : w.Sound) (hlane : ∀ q, Reach laneMachine (w.lane q))
    {i : Instr} (hmem : i ∈ w.agenda) {o : Outcome} (hex : Executes w i o) : Grows w o := by
  cases hex with
  | publishSuppressed | disposeNone | expireGone | settleIgnored | markSettled | armExpiry
  | pumpThrew | pumpNobody | armRetry =>
    exact grows_of_bus rfl rfl rfl rfl rfl rfl (by simp) fun q e h => .inl h
  | caught hmore =>
    refine grows_of_bus rfl rfl rfl rfl rfl rfl (fun q c h => ?_) fun q e h => .inl h
    rcases hmore with rfl | rfl <;> simp at h
  | settleAck _ hl | settlePark _ hl | settleRequeue _ hl | expireInflight _ hl =>
    exact grows_of_event (hs.used_of_lookup (hlane _) hl) rfl rfl rfl rfl rfl rfl rfl (by simp)
  | settleDead _ hl =>
    refine grows_of_event (hs.used_of_lookup (hlane _) hl) rfl rfl rfl rfl rfl rfl rfl ?_
    intro q c h
    unfold BusQueue.deadLetterCall at h
    split_ifs at h <;> simp at h
  | expirePending hp =>
    exact grows_of_event (hs.used_of_pending (hlane _) hp) rfl rfl rfl rfl rfl rfl rfl (by simp)
  | pumpFound hnext =>
    obtain ⟨before, after, hsplit, -⟩ := (BusQueue.next_found hnext).split
    have hmem := hsplit ▸ List.mem_append_cons_self
    exact grows_of_event (hs.used_of_pending (hlane _) hmem) rfl rfl rfl rfl rfl rfl rfl (by simp)
  | @wrap q m =>
    have hpos : 0 < (w.lane q).building m :=
      List.countP_pos_iff.mpr ⟨_, hmem, by simp [Instr.builds]⟩
    have hsum := Lane.handings_add_building (hlane q) m
    obtain ⟨c, d, hd⟩ := deliveries_pos.mp (show 0 < deliveries m (w.lane q).trail by omega)
    exact grows_of_event (hs.used hd) rfl rfl rfl rfl rfl rfl rfl (by simp)
  | @retry q m =>
    have hpos : 0 < (w.lane q).parked m := Nat.add_pos_left
      (List.countP_pos_iff.mpr ⟨_, hmem, by simp [Instr.parks]⟩) _
    have hplace := (Lane.located (hlane q)).parked_pos.mp hpos
    refine grows_of_event (hs.used_of_place (hlane q) (m := m) ?_)
      rfl rfl rfl rfl rfl rfl rfl (by simp)
    show place m (w.lane q).trail ≠ .absent
    simp [hplace]
  | @dispose s q₀ c hsub =>
    refine grows_of_bus rfl rfl rfl rfl rfl rfl (by simp) fun q e h => ?_
    have hused := hs.subscriptions _ (List.mem_of_getElem? hsub)
    simp only [record, withBus, List.mem_append, List.mem_reverse, List.mem_map,
      List.mem_singleton] at h
    rcases h with (⟨m, -, heq⟩ | heq) | h
    · exact .inr ((Event.on.inj heq).1 ▸ hused)
    · exact .inr ((Event.on.inj heq).1 ▸ hused)
    · exact .inl h
  | returnSubscription =>
    refine ⟨le_rfl, le_rfl, fun _ _ h => .inl h, fun _ _ h => .inl h, fun p hp => ?_, by simp,
      fun _ _ h => .inl h, fun _ => .inl rfl⟩
    rcases List.mem_append.mp hp with hp | hp
    · exact .inl hp
    · obtain rfl := List.mem_singleton.mp hp
      exact .inr hmem
  | subscribeOld hid hq => exact grows_subscribeOld hs hid hq
  | subscribeNew hid _ hb₂ hseeded => exact grows_subscribeNew hid hb₂ hseeded
  | publish _ hlog hcopies => exact grows_publish hs hlog hcopies
  | disposeBus =>
    exact ⟨le_rfl, le_rfl, by simp [withBus], by simp [withBus], fun p hp => .inl hp, by simp,
      fun _ _ h => .inl h, fun _ => .inr (.inl rfl)⟩

/-- The stream logs stay in the order of publishing. -/
theorem Grows.logSorted {w : World} {o : Outcome} (hg : Grows w o) (hs : w.Sound)
    (topic : String) :
    (o.world.bus.streamLog topic).Pairwise fun x y => x.ref < y.ref := by
  rcases hg.log topic with h | h | ⟨m, h, hlow, -⟩
  · rw [h]
    exact hs.logSorted topic
  · rw [h]
    exact List.Pairwise.nil
  · rw [h, List.pairwise_append]
    refine ⟨hs.logSorted topic, List.pairwise_singleton _ _, fun x hx y hy => ?_⟩
    rw [List.mem_singleton.mp hy]
    exact (hs.logged topic x hx).trans_le hlow

theorem Grows.logged {w : World} {o : Outcome} (hg : Grows w o) (hs : w.Sound)
    (topic : String) {x : BusMessage} (hx : x ∈ o.world.bus.streamLog topic) :
    x.ref < o.world.bus.nextRef := by
  rcases hg.log topic with h | h | ⟨m, h, -, hhigh⟩
  · rw [h] at hx
    exact (hs.logged topic x hx).trans_le hg.nextRef
  · rw [h] at hx
    exact absurd hx List.not_mem_nil
  · rw [h] at hx
    rcases List.mem_append.mp hx with hx | hx
    · exact (hs.logged topic x hx).trans_le hg.nextRef
    · rw [List.mem_singleton.mp hx]
      exact hhigh

/-- The new arrivals of a step: new objects, each on one queue. -/
theorem arrivals_exec {w : World} (hs : w.Sound) {i : Instr} {o : Outcome}
    (hex : Executes w i o) : ∃ new : List (QueueRef × BusMessage × Nat),
      (∀ q m e, .on q (.arrived m e) ∈ o.world.history →
        .on q (.arrived m e) ∈ w.history ∨ (q, m, e) ∈ new) ∧
      (∀ t ∈ new, w.bus.nextRef ≤ t.2.1.ref ∧ t.2.1.ref < o.world.bus.nextRef ∧
        t.2.2 < o.world.bus.nextRef) ∧
      ∀ t ∈ new, ∀ u ∈ new, t.2.1.ref = u.2.1.ref → t.1 = u.1 := by
  cases hex with
  | @publish topic body routingKey options cause logged b₁ b₂ copies _ hlog hcopies =>
    have hp := Bus.published hlog hcopies
    refine ⟨copies.map fun t => (t.1, t.2, logged.ref), fun q m e h => ?_, ?_, ?_⟩
    · simp only [record, withBus, List.mem_append, List.mem_reverse, List.mem_map,
        List.mem_singleton, reduceCtorEq, or_false] at h
      rcases h with ⟨t, ht, heq⟩ | h
      · simp only [Event.on.injEq, QueueEvent.arrived.injEq] at heq
        exact .inr (List.mem_map.mpr ⟨t, ht, by rw [heq.1, heq.2.1, heq.2.2]⟩)
      · exact .inl h
    · simp only [List.forall_mem_map]
      exact fun t ht => ⟨(hp.fresh t ht).1.le, (hp.fresh t ht).2, hp.entry ▸ hp.grows⟩
    · simp only [List.forall_mem_map]
      exact fun t ht u hu href => by rw [hp.distinct t ht u hu href]
  | @subscribeNew topic id handler opts b₁ b₂ b₃ seeded hid hq hb₂ hseeded =>
    have hc := Bus.created hid hb₂ hseeded
    refine ⟨seeded.map fun t => (b₁.nextQueue, t.1, t.2.ref), fun q m e h => ?_, ?_, ?_⟩
    · simp only [record, withBus, List.cons_append, List.mem_cons, List.mem_append,
        List.mem_reverse, List.mem_map, Event.on.injEq, reduceCtorEq, and_false, false_or] at h
      rcases h with ⟨t, ht, rfl, heq⟩ | h
      · simp only [QueueEvent.arrived.injEq] at heq
        exact .inr (List.mem_map.mpr ⟨t, ht, by rw [heq.1, heq.2]⟩)
      · exact .inl h
    · simp only [List.forall_mem_map]
      intro t ht
      obtain ⟨hlow, hhigh, hmem⟩ := hc.fresh t ht
      exact ⟨hlow, hhigh, (hs.logged topic t.2 hmem).trans_le hc.grows⟩
    · simp only [List.forall_mem_map]
      exact fun _ _ _ _ _ => trivial
  | dispose =>
    refine ⟨[], fun q m e h => .inl ?_, by simp, by simp⟩
    simpa [record, withBus] using h
  | _ =>
    refine ⟨[], fun q m e h => .inl ?_, by simp, by simp⟩
    first
      | exact h
      | simpa [record, withBus, release, deliver] using h

/-- Only a turn of `Pump` delivers, and it counts what it delivers. -/
theorem deliveries_exec {w : World} {i : Instr} {o : Outcome} (hex : Executes w i o) :
    (o.world.bus.deliveryCount = w.bus.deliveryCount ∧
      (∀ q m c d, .on q (.delivered m c d) ∈ o.world.history →
        .on q (.delivered m c d) ∈ w.history) ∧
      ((∀ q, i ≠ .pump q) ∨ o.world.history = w.history)) ∨
    ∃ q Q m c, i = .pump q ∧ (w.bus.queue q).next = (.found (m, c), Q) ∧
      o.world = w.deliver q Q m c := by
  cases hex with
  | pumpFound h => exact .inr ⟨_, _, _, _, rfl, h, rfl⟩
  | pumpThrew | pumpNobody => exact .inl ⟨rfl, fun q m c d h => h, .inr rfl⟩
  | publish _ hlog hcopies =>
    refine .inl ⟨(Bus.published hlog hcopies).deliveryCount, fun q m c d h => ?_, .inl (by simp)⟩
    simpa [record, withBus] using h
  | subscribeNew hid _ hb₂ hseeded =>
    refine .inl ⟨(Bus.created hid hb₂ hseeded).deliveryCount, fun q m c d h => ?_, .inl (by simp)⟩
    simpa [record, withBus] using h
  | subscribeOld hid =>
    refine .inl ⟨by rw [Bus.subscriberId_eq hid]; rfl, fun q m c d h => ?_, .inl (by simp)⟩
    simpa [record, withBus] using h
  | _ =>
    refine .inl ⟨rfl, fun q m c d h => ?_, .inl (by simp)⟩
    first
      | exact h
      | simpa [record, withBus, release] using h

/-- A lane that moves without a turn of `Pump` gets no delivery. -/
theorem deliveries_moves {w : World} (hs : w.Sound) {l : Label} {q : QueueRef} {L' : Lane}
    (h : w.Moves l q L') (hpump : ∀ q, w.next l ≠ some (.pump q)) (m : BusMessage) :
    deliveries m L'.trail = deliveries m (w.trail q) := by
  have hrun : ∀ {L L' : Lane}, Run laneMachine (w.Caused l q) L L' →
      deliveries m L'.trail = deliveries m L.trail := by
    intro L L' hp
    induction hp with
    | refl => rfl
    | tail _ hcause hstep ih =>
      rw [LaneStep.deliveries hstep, ih]
      rintro m c d rfl
      exact hpump q hcause.1
  rcases h with hp | ⟨hq, L₀, hnew, hp⟩
  · exact hrun hp
  · rw [hrun hp, hnew.trail, hs.unused q hq]

/-! ## Bookkeeping is kept -/

theorem history_suffix {w : World} {i : Instr} {o : Outcome} (hex : Executes w i o) :
    w.history <:+ o.world.history := by
  cases hex with
  | _ =>
    first
      | exact List.suffix_refl _
      | exact List.suffix_append _ _

theorem Sound.undelivered {w : World} (hs : w.Sound) {q : QueueRef}
    (hlane : Reach laneMachine (w.lane q)) {m : BusMessage} (hm : w.bus.nextRef ≤ m.ref) :
    deliveries m (w.trail q) = 0 := by
  by_contra hne
  obtain ⟨c, d, hd⟩ := deliveries_pos.mp (Nat.pos_of_ne_zero hne)
  obtain ⟨entry, hentry⟩ := (Lane.located hlane).arrived m (place_ne_absent hd rfl)
  exact absurd (hs.arrived q m entry hentry).1 (not_lt.mpr hm)

theorem arrived_of_found {w : World} {q : QueueRef} (hlane : Reach laneMachine (w.lane q))
    {m : BusMessage} {c : AckHandler} {Q : BusQueue}
    (hnext : (w.bus.queue q).next = (.found (m, c), Q)) : ∃ e, .arrived m e ∈ w.trail q := by
  obtain ⟨before, after, hsplit, -⟩ := (BusQueue.next_found hnext).split
  have hpending : m ∈ (w.lane q).queue.pending := by
    show m ∈ (w.bus.queue q).pending
    rw [hsplit]
    exact List.mem_append_cons_self
  have hplace := (Lane.located hlane).mem_pending.mp hpending
  exact (Lane.located hlane).arrived m (by rw [hplace]; simp)

/-- `DeliveryCount` keeps counting the deliveries. -/
theorem counted_exec {w : World} (hs : w.Sound) (hlane : ∀ q, Reach laneMachine (w.lane q))
    {l : Label} {i : Instr} (hi : w.next l = some i) (hmem : i ∈ w.agenda) {o : Outcome}
    (hex : Executes w i o) {q : QueueRef} {m : BusMessage}
    (hm : (∃ e, .arrived m e ∈ w.trail q) ∨ w.bus.nextRef ≤ m.ref) :
    o.world.bus.deliveryCount m.ref = Int32.ofNat (deliveries m (o.world.trail q)) := by
  have hbefore : w.bus.deliveryCount m.ref = Int32.ofNat (deliveries m (w.trail q)) := by
    rcases hm with ⟨e, he⟩ | hm
    · exact hs.counted q m e he
    · rw [hs.uncounted _ hm, hs.undelivered (hlane q) hm]
      rfl
  rcases deliveries_exec hex with ⟨hcount, -, hcase⟩ | ⟨q₀, Q, m₀, c, rfl, hnext, ho⟩
  · have hdeliveries : deliveries m (o.world.trail q) = deliveries m (w.trail q) := by
      rcases hcase with hpump | hhistory
      · refine deliveries_moves hs (moves_exec hs hlane hi hmem hex q) (fun q' => ?_) m
        rw [hi]
        exact fun heq => hpump q' (Option.some.inj heq)
      · rw [trail, trail, hhistory]
    rw [hcount, hdeliveries, hbefore]
  · obtain ⟨e₀, he₀⟩ := arrived_of_found (hlane q₀) hnext
    obtain ⟨-, htrail⟩ := after_local (o := { world := w.deliver q₀ Q m₀ c }) (Q := Q.book m₀ c)
      (e := .delivered m₀ c w.history.length) rfl rfl q
    have hcount : o.world.bus.deliveryCount m.ref =
        if m.ref = m₀.ref then w.bus.deliveryCount m₀.ref + 1
        else w.bus.deliveryCount m.ref := by
      rw [ho]
      exact Function.update_apply ..
    rw [ho, htrail, ← ho, hcount]
    split_ifs with href hq hq
    · -- The message counted is the one delivered.
      subst hq
      rcases hm with ⟨e, he⟩ | hm
      · obtain rfl : m = m₀ := by
          rcases Lane.arrived_cases (Lane.arrivals (hlane q)) he he₀ with h | h | h
          · exact h.1
          · exact absurd href h.1.ne
          · exact absurd href h.1.ne'
        rw [hbefore]
        simp [deliveries, Int32.ofNat_add]
      · exact absurd ((hs.arrived q m₀ e₀ he₀).1.trans_le hm) (by rw [href]; exact lt_irrefl _)
    · rcases hm with ⟨e, he⟩ | hm
      · exact absurd (hs.owner q q₀ m m₀ e e₀ he he₀ href) hq
      · exact absurd ((hs.arrived q₀ m₀ e₀ he₀).1.trans_le hm) (by rw [href]; exact lt_irrefl _)
    · have hne : m₀ ≠ m := fun h => href (by rw [h])
      rw [hbefore]
      simp [deliveries, hne]
    · exact hbefore

theorem sound_exec {w w' : World} (hs : w.Sound) (hlane : ∀ q, Reach laneMachine (w.lane q))
    {l : Label} {i : Instr} (hi : w.next l = some i) (hmem : i ∈ w.agenda) {o : Outcome}
    (hex : Executes w i o) (hbus : w'.bus = o.world.bus)
    (hhistory : w'.history = o.world.history) (hsubs : w'.subscriptions = o.world.subscriptions)
    (hagenda : ∀ q c, .returnSubscription q c ∈ w'.agenda →
      .returnSubscription q c ∈ w.agenda ∨ .returnSubscription q c ∈ o.more) : w'.Sound := by
  have hg := grows hs hlane hmem hex
  obtain ⟨new, hnew, hfresh, hdistinct⟩ := arrivals_exec hs hex
  have hold : ∀ q m e, .on q (.arrived m e) ∈ w.history → m.ref < w.bus.nextRef ∧
      e < w.bus.nextRef := fun q m e h => hs.arrived q m e (mem_trail.mpr h)
  have htrail : ∀ q, w'.trail q = o.world.trail q := fun q => by
    rw [trail, trail, hhistory]
  have harrived : ∀ q m e, .arrived m e ∈ w'.trail q →
      .arrived m e ∈ w.trail q ∨ (q, m, e) ∈ new := fun q m e h => by
    rw [htrail, mem_trail] at h
    rw [mem_trail]
    exact hnew q m e h
  refine ⟨?_, ?_, ?_, ?_, ?_, ?_, ?_, ?_, ?_, ?_, ?_, ?_⟩
  · intro k q h
    rw [hbus] at h ⊢
    rcases hg.queues k q h with h | h
    · exact (hs.queues k q h).trans_le hg.nextQueue
    · exact h
  · intro topic q h
    rw [hbus] at h ⊢
    rcases hg.byTopic topic q h with h | h
    · exact (hs.byTopic topic q h).trans_le hg.nextQueue
    · exact h
  · intro p h
    rw [hsubs] at h
    rw [hbus]
    rcases hg.subscriptions p h with h | h
    · exact (hs.subscriptions p h).trans_le hg.nextQueue
    · exact (hs.returns p.1 p.2 h).trans_le hg.nextQueue
  · intro q c h
    rw [hbus]
    rcases hagenda q c h with h | h
    · exact (hs.returns q c h).trans_le hg.nextQueue
    · exact hg.returns q c h
  · intro q hq
    rw [hbus] at hq
    rw [List.eq_nil_iff_forall_not_mem]
    intro e he
    rw [htrail, mem_trail] at he
    rcases hg.history q e he with h | h
    · exact absurd ((hs.used (mem_trail.mpr h)).trans_le hg.nextQueue) (not_lt.mpr hq)
    · exact absurd h (not_lt.mpr hq)
  · intro q m e h
    rw [hbus]
    rcases harrived q m e h with h | h
    · obtain ⟨h₁, h₂⟩ := hs.arrived q m e h
      exact ⟨h₁.trans_le hg.nextRef, h₂.trans_le hg.nextRef⟩
    · exact ⟨(hfresh _ h).2.1, (hfresh _ h).2.2⟩
  · rw [hbus]
    exact hg.logSorted hs
  · rw [hbus]
    exact hg.logged hs
  · intro q q' m m' e e' h h' href
    rcases harrived q m e h with h | h <;> rcases harrived q' m' e' h' with h' | h'
    · exact hs.owner q q' m m' e e' h h' href
    · exact absurd href ((hs.arrived q m e h).1.trans_le (hfresh _ h').1).ne
    · exact absurd href.symm ((hs.arrived q' m' e' h').1.trans_le (hfresh _ h).1).ne
    · exact hdistinct _ h _ h' href
  · intro q m e h
    rw [hbus, htrail]
    apply counted_exec hs hlane hi hmem hex
    rcases harrived q m e h with h | h
    · exact .inl ⟨e, h⟩
    · exact .inr (hfresh _ h).1
  · intro r hr
    rw [hbus] at hr ⊢
    have hr' := hg.nextRef.trans hr
    rcases deliveries_exec hex with ⟨hcount, -⟩ | ⟨q₀, Q, m₀, c, rfl, hnext, ho⟩
    · rw [hcount, hs.uncounted r hr']
    · obtain ⟨e₀, he₀⟩ := arrived_of_found (hlane q₀) hnext
      have hne : r ≠ m₀.ref := ((hs.arrived q₀ m₀ e₀ he₀).1.trans_le hr').ne'
      rw [ho]
      exact (Function.update_of_ne hne ..).trans (hs.uncounted r hr')
  · intro q m c d h
    rw [htrail, mem_trail] at h
    have hlen := (history_suffix hex).length_le
    rw [hhistory]
    rcases deliveries_exec hex with ⟨-, hnone, -⟩ | ⟨q₀, Q, m₀, c₀, rfl, -, ho⟩
    · exact (hs.numbered q m c d (mem_trail.mpr (hnone q m c d h))).trans_le hlen
    · rw [ho] at h ⊢
      show d < w.history.length + 1
      rcases List.mem_cons.mp h with heq | h
      · simp only [Event.on.injEq, QueueEvent.delivered.injEq] at heq
        omega
      · exact (hs.numbered q m c d (mem_trail.mpr h)).trans (Nat.lt_succ_self _)

/-! ## Every reachable world -/

/-- What every reachable world keeps. -/
structure Good (w : World) : Prop where
  sound : w.Sound
  light : w.Light
  lane : ∀ q, Reach laneMachine (w.lane q)

/-- **Every step of the bus moves the lane of every queue by steps of its own**, or creates it. -/
theorem moves {w w' : World} (hg : w.Good) {l : Label} (h : w.step l = some w') (q : QueueRef) :
    w.Moves l q (w'.lane q) := by
  cases l with
  | call op => exact moves_refl (lane_call h q)
  | fire n => exact moves_refl (lane_fire h q)
  | run n =>
    obtain ⟨i, rest, -, hi, -⟩ := step_run h
    rw [lane_run hg.light h hi q]
    exact moves_exec hg.sound hg.lane hi (mem_agenda_of_next hi) (w.executes i) q

theorem sound_step {w w' : World} (hg : w.Good) {l : Label} (h : w.step l = some w') :
    w'.Sound := by
  have hs := hg.sound
  have hagenda : ∀ q c, .returnSubscription q c ∈ w'.agenda →
      .returnSubscription q c ∈ w.agenda ∨
        ∃ i, w.next l = some i ∧ .returnSubscription q c ∈ (w.exec i).more := by
    intro q c hx
    rcases mem_agenda_step h hx with hx | hx | ⟨op, hx⟩ | ⟨t, -, hx⟩
    · exact .inl hx
    · exact .inr hx
    · cases op <;> simp [Op.entry] at hx
    · cases t <;> simp [Timer.continuation] at hx
  cases hi : w.next l with
  | some i =>
    obtain ⟨hbus, hsubs, -, -, hhistory⟩ := step_next h hi
    refine sound_exec hs hg.lane hi (mem_agenda_of_next hi) (w.executes i) hbus hhistory hsubs
      fun q c hx => ?_
    rcases hagenda q c hx with hx | ⟨i', hi', hx⟩
    · exact .inl hx
    · obtain rfl : i = i' := Option.some.inj (hi.symm.trans hi')
      exact .inr hx
  | none =>
    have hreturns : ∀ q c, .returnSubscription q c ∈ w'.agenda →
        .returnSubscription q c ∈ w.agenda := fun q c hx => by
      rcases hagenda q c hx with hx | ⟨i, hi', -⟩
      · exact hx
      · simp [hi] at hi'
    obtain ⟨hbus, hsubs, -, hhistory⟩ := step_idle h hi
    have htrail : ∀ q, w'.trail q = w.trail q := fun q => by rw [trail, trail, hhistory]
    refine ⟨?_, ?_, ?_, fun q c hx => ?_, ?_, ?_, ?_, ?_, ?_, ?_, ?_, ?_⟩ <;>
      simp only [hbus, hsubs, hhistory, htrail]
    · exact hs.queues
    · exact hs.byTopic
    · exact hs.subscriptions
    · exact hs.returns q c (hreturns q c hx)
    · exact hs.unused
    · exact hs.arrived
    · exact hs.logSorted
    · exact hs.logged
    · exact hs.owner
    · exact hs.counted
    · exact hs.uncounted
    · exact hs.numbered

theorem nextQueue_step {w w' : World} (hg : w.Good) {l : Label} (hs : w.step l = some w') :
    w.bus.nextQueue ≤ w'.bus.nextQueue := by
  cases hi : w.next l with
  | none => rw [(step_idle hs hi).1]
  | some i =>
    rw [(step_next hs hi).1]
    exact (grows hg.sound hg.lane (mem_agenda_of_next hi) (w.executes i)).nextQueue

theorem new_lane (q : QueueRef) : (lane {} q).New :=
  ⟨rfl, rfl, rfl, rfl, rfl, rfl, rfl⟩

theorem good_init : Good {} :=
  ⟨⟨by simp, by simp, by simp, by simp [agenda], by simp [trail], by simp [trail],
    by simp, by simp, by simp [trail], by simp [trail], by simp, by simp [trail]⟩,
    by simp [Light], fun q => .init (new_lane q)⟩

/-- **The bus refines its lanes.** -/
theorem good {w : World} (h : Reach busMachine w) : w.Good := by
  refine h.invariant (fun w hw => ?_) fun w l w' _ ih _ hstep => ?_
  · rw [busMachine_init.mp hw]
    exact good_init
  · have hs := busMachine_step.mp hstep
    refine ⟨sound_step ih hs, light_step ih.light hs, fun q => ?_⟩
    rcases moves ih hs q with hp | ⟨-, L₀, hnew, hp⟩
    · exact (ih.lane q).extend (hp.mono fun _ _ _ => trivial)
    · exact (ReachIf.init hnew).extend (hp.mono fun _ _ _ => trivial)

theorem lane_reach {w : World} (h : Reach busMachine w) (q : QueueRef) :
    Reach laneMachine (w.lane q) :=
  (good h).lane q

/-- **Guarded runs.** A guard on the steps of the bus that its steps pass on to what they cause is
a guard on the steps of every lane. -/
theorem guarded_lane {ok : World → Label → Prop} {okL : Lane → LaneAct → Prop} {q : QueueRef}
    (hpass : ∀ w l L a, ReachIf busMachine ok w → ok w l → w.Caused l q L a → okL L a)
    {w : World} (h : ReachIf busMachine ok w) : ReachIf laneMachine okL (w.lane q) := by
  refine h.simulate (fun w => w.lane q) (fun w hw => ?_) fun w l w' hr _ hok hstep => ?_
  · rw [busMachine_init.mp hw]
    exact .init (new_lane q)
  · have hcaused : ∀ L a, w.Caused l q L a → okL L a := fun L a => hpass w l L a hr hok
    rcases moves (good hr.reach) (busMachine_step.mp hstep) q with hp | ⟨-, L₀, hnew, hp⟩
    · exact .inl (hp.mono hcaused)
    · exact .inr ((ReachIf.init hnew).extend (hp.mono hcaused))

end World

end MessagingPoc
