import MessagingPoc.InMemory.Bus
import MessagingPoc.Lib.Lookup
import MessagingPoc.RabbitMq.Adapter

/-!
# RabbitMQ: one copy for each subscriber?

A history of subscriptions on one topic, and one publish. In the reference, the in-memory bus, the
first call under a subscriber's id fixes its filter, and a subscriber gets one copy or none. Here
every call binds its queue to one exchange and nothing is ever unbound, so the calls of a subscriber
pile up: a message comes to it once for each exchange and queue that *one of its calls* routes.

`SoleRoute` says when that comes to the same thing. It fails for a partition consumer and a message
without a group, for two subscribers that partition one topic, for a subscriber that asks for
another kind or filter later, and for the filter `""`, which is none in the reference.
-/

namespace MessagingPoc.RabbitMq

open Amqp

/-! ## A history of subscriptions -/

/-- Subscribe one call after another: the broker, and the calls it carried out. -/
def subscribeAll (topic : String) (s : Rabbit × List Call) (calls : List Call) :
    Rabbit × List Call :=
  calls.foldl (fun s c =>
    ((subscribe topic s.1 c).1, if (subscribe topic s.1 c).2 then s.2 ++ [c] else s.2)) s

/-- Does a consumer of the subscriber read the queue? -/
def reads (b : Rabbit) (id q : String) : Bool :=
  b.consumers.any fun c => c.owner = id ∧ c.queue = q

/-- The messages that lie on the subscriber's queues. -/
def received (b : Rabbit) (id : String) : Nat := b.ready.countP fun r => reads b id r.1

/-! ## The reference -/

/-- The in-memory bus after the same calls, under the ids this adapter uses. -/
def reference (topic : String) (w : World) (calls : List Call) : World :=
  calls.foldl (fun w c =>
    (w.subscribe topic ⟨0⟩ { c.options with subscriberId := some c.subscriberId }).world) w

/-- The copies the reference makes for a subscriber. -/
def expected (topic : String) (b : Bus) (p : Publication) (id : String) : Nat :=
  (b.targets topic (p.key topic)).countP fun q => b.queues (Bus.key topic id) = some q

/-- The filter a call asks for, as the reference reads it. -/
def Call.accepts (topic : String) (c : Call) (p : Publication) : Bool :=
  (Bus.newQueue topic c.options).matches (p.key topic)

/-- **The topology refines the reference** at one publish: every subscriber finds as many copies on
its queues as the reference makes for it, and none lies on a queue that another one reads. -/
def Refines (topic : String) (calls : List Call) (p : Publication) (picked : Option String) :
    Prop :=
  let s := subscribeAll topic (connectBus, []) calls
  let b := publish topic s.1 p picked
  (∀ id, received b id = expected topic (reference topic {} s.2).bus p id) ∧
  ∀ r ∈ b.ready, ∀ id id', reads b id r.1 → reads b id' r.1 → id = id'

/-! ## The condition -/

/-- Does the binding of a call route the message to its queue? -/
def Call.routes (topic : String) (c : Call) (p : Publication) (picked : Option String) : Prop :=
  match (c.binding topic).exchange.type with
  | .topic => topicRoutes (c.binding topic).key (p.key topic) = true
  | .fanout => True
  | .consistentHash => p.group.isSome = true ∧ picked = some (c.queue topic)

/-- A queue that gets a copy has one subscriber; a subscriber whose first call accepts the message
has one exchange and queue that its calls route it through, any other subscriber has none. -/
def SoleRoute (topic : String) (calls : List Call) (p : Publication) (picked : Option String) :
    Prop :=
  (∀ c ∈ calls, c.routes topic p picked → ∀ c' ∈ calls, c'.queue topic = c.queue topic →
    c'.subscriberId = c.subscriberId) ∧
  ∀ first ∈ calls, calls.find? (·.subscriberId = first.subscriberId) = some first →
    if first.accepts topic p then
      ∃ c ∈ calls, c.subscriberId = first.subscriberId ∧ c.routes topic p picked ∧
        ∀ c' ∈ calls, c'.subscriberId = first.subscriberId → c'.routes topic p picked →
          (c'.binding topic).exchange = (c.binding topic).exchange ∧ c'.queue topic = c.queue topic
    else ∀ c ∈ calls, c.subscriberId = first.subscriberId → ¬ c.routes topic p picked

instance (topic : String) (c : Call) (p : Publication) (picked : Option String) :
    Decidable (c.routes topic p picked) := by
  unfold Call.routes
  induction (c.binding topic).exchange.type using ExchangeType.casesOn <;> infer_instance

instance (topic : String) (calls : List Call) (p : Publication) (picked : Option String) :
    Decidable (SoleRoute topic calls p picked) := inferInstanceAs (Decidable (_ ∧ _))

/-! ## What the reference makes -/

/-- The bus has a queue for every subscriber, with the filter of its first call. -/
def Registered (topic : String) (b : Bus) (calls : List Call) : Prop :=
  ∀ id, match calls.find? (·.subscriberId = id) with
    | none => b.queues (Bus.key topic id) = none
    | some first => ∃ q, b.queues (Bus.key topic id) = some q ∧ q < b.nextQueue ∧
        q ∈ (b.byTopic topic).items ∧
        ∀ key, (b.queue q).matches key = (Bus.newQueue topic first.options).matches key

theorem key_inj {topic id id' : String} : Bus.key topic id = Bus.key topic id' ↔ id = id' := by
  unfold Bus.key
  rw [← String.toList_inj, ← String.toList_inj]
  simp

theorem matches_attach (b : Bus) (q q' : QueueRef) (handler : AckHandler) (key : String) :
    ((b.attach q handler).queue q').matches key = (b.queue q').matches key := by
  simp only [Bus.attach, Bus.setQueue, Function.update_apply]
  split_ifs with h
  · rw [h]
    rfl
  · rfl

/-- A consumer more leaves the queues and their filters alone. -/
theorem Registered.attach {topic : String} {b : Bus} {calls : List Call}
    (h : Registered topic b calls) (q : QueueRef) (handler : AckHandler) :
    Registered topic (b.attach q handler) calls := by
  intro id
  have hid := h id
  cases hfirst : calls.find? (·.subscriberId = id) with
  | none =>
    rw [hfirst] at hid
    exact hid
  | some first =>
    rw [hfirst] at hid
    obtain ⟨q', hq', hlt, hmem, hmatches⟩ := hid
    exact ⟨q', hq', hlt, hmem, fun key => (matches_attach _ _ _ _ _).trans (hmatches key)⟩

theorem Registered.again {topic : String} {b : Bus} {calls : List Call}
    (h : Registered topic b calls) {c : Call} {q : QueueRef}
    (hq : b.queues (Bus.key topic c.subscriberId) = some q) :
    Registered topic b (calls ++ [c]) := by
  intro id
  have hid := h id
  rw [List.find?_append]
  cases hfirst : calls.find? (·.subscriberId = id) with
  | some first =>
    rw [hfirst] at hid
    exact hid
  | none =>
    rw [hfirst] at hid
    have hne : c.subscriberId ≠ id := by
      intro heq
      rw [heq, hid] at hq
      cases hq
    simpa [hne] using hid

theorem Registered.create {topic : String} {b : Bus} {calls : List Call}
    (h : Registered topic b calls) {c : Call} {opts : SubscribeOptions}
    (hopts : ∀ key,
      (Bus.newQueue topic opts).matches key = (Bus.newQueue topic c.options).matches key)
    (hq : b.queues (Bus.key topic c.subscriberId) = none) :
    Registered topic (b.createQueue topic (Bus.key topic c.subscriberId) opts) (calls ++ [c]) := by
  intro id
  have hid := h id
  have hitems : ((b.createQueue topic (Bus.key topic c.subscriberId) opts).byTopic topic) =
      (b.byTopic topic).add b.nextQueue := Function.update_self _ _ _
  have hqueues : ∀ id, (b.createQueue topic (Bus.key topic c.subscriberId) opts).queues
      (Bus.key topic id) = if c.subscriberId = id then some b.nextQueue
        else b.queues (Bus.key topic id) := by
    intro id
    simp only [Bus.createQueue, Function.update_apply, key_inj, eq_comm]
  rw [List.find?_append]
  cases hfirst : calls.find? (·.subscriberId = id) with
  | some first =>
    rw [hfirst] at hid
    obtain ⟨q', hq', hlt, hmem, hmatches⟩ := hid
    have hne : c.subscriberId ≠ id := by
      intro heq
      rw [heq, hq'] at hq
      cases hq
    refine ⟨q', ?_, hlt.trans (Nat.lt_succ_self _), ?_, fun key => ?_⟩
    · rw [hqueues, if_neg hne, hq']
    · rw [hitems]
      exact InsertionSet.mem_add.mpr (.inl hmem)
    · rw [← hmatches key]
      simp only [Bus.createQueue, Function.update_of_ne (Nat.ne_of_lt hlt)]
  | none =>
    rw [hfirst] at hid
    by_cases heq : c.subscriberId = id
    · simp only [heq, List.find?_cons, decide_true, Option.none_or]
      refine ⟨b.nextQueue, ?_, Nat.lt_succ_self _, ?_, fun key => ?_⟩
      · rw [← heq, hqueues, if_pos rfl]
      · rw [← heq, hitems]
        exact InsertionSet.mem_add.mpr (.inr rfl)
      · rw [← hopts key]
        simp only [Bus.createQueue, Function.update_self]
    · simp only [heq, List.find?_cons, decide_false, List.find?_nil, Option.none_or]
      rw [hqueues, if_neg heq, hid]

theorem Registered.subscribe {topic : String} {w : World} {calls : List Call}
    (h : Registered topic w.bus calls) {c : Call} (hstream : c.options.streamReplay = false)
    (handler : AckHandler) :
    Registered topic (w.subscribe topic handler
      { c.options with subscriberId := some c.subscriberId }).world.bus (calls ++ [c]) := by
  unfold World.subscribe
  simp only [Bus.subscriberId]
  cases hq : w.bus.queues (Bus.key topic c.subscriberId) with
  | some q => exact (h.again hq).attach q handler
  | none =>
    have hnone : (w.bus.createQueue topic (Bus.key topic c.subscriberId)
        { c.options with subscriberId := some c.subscriberId }).backlog topic w.bus.nextQueue
        { c.options with subscriberId := some c.subscriberId } = [] := by
      simp [Bus.backlog, hstream]
    simp only [hnone, Bus.replay]
    exact (h.create (fun _ => rfl) hq).attach _ handler

theorem registered {topic : String} {w : World} {seen calls : List Call}
    (h : Registered topic w.bus seen) (hstream : ∀ c ∈ calls, c.options.streamReplay = false) :
    Registered topic (reference topic w calls).bus (seen ++ calls) := by
  induction calls generalizing w seen with
  | nil => simpa [reference] using h
  | cons c calls ih =>
    have hrest := ih (h.subscribe (hstream c List.mem_cons_self) ⟨0⟩)
      fun c' hc' => hstream c' (List.mem_cons_of_mem _ hc')
    simpa [reference] using hrest

/-- **The reference makes one copy for a subscriber whose first call accepts the message**, and none
for any other. -/
theorem expected_eq {topic : String} {b : Bus} {calls : List Call}
    (h : Registered topic b calls) (p : Publication) (id : String) :
    expected topic b p id =
      if (calls.find? (·.subscriberId = id)).any (·.accepts topic p) then 1 else 0 := by
  have hid := h id
  unfold expected
  cases hfirst : calls.find? (·.subscriberId = id) with
  | none =>
    rw [hfirst] at hid
    simp [hid]
  | some first =>
    rw [hfirst] at hid
    obtain ⟨q, hq, -, hmem, hmatches⟩ := hid
    have hnodup : (b.targets topic (p.key topic)).Nodup := (b.byTopic topic).nodup.filter _
    have htarget : q ∈ b.targets topic (p.key topic) ↔ first.accepts topic p = true := by
      rw [Bus.targets, List.mem_filter, hmatches]
      exact and_iff_right hmem
    simp only [Option.any_some]
    split_ifs with haccepts
    · refine (Lookup.countP_eq_one hnodup).mpr ⟨q, htarget.mpr haccepts, by simp [hq], ?_⟩
      intro q' _ hq'
      simpa [hq, eq_comm] using hq'
    · refine List.countP_eq_zero.mpr fun q' hq' hmatch => haccepts (htarget.mp ?_)
      rw [hq] at hmatch
      simp only [Option.some.injEq, decide_eq_true_eq] at hmatch
      exact hmatch ▸ hq'

/-! ## What the broker makes -/

/-- The bindings and consumers are those of the calls carried out. -/
structure Wired (topic : String) (b : Rabbit) (calls : List Call) : Prop where
  opened : b.Opened
  bindings : ∀ x, x ∈ b.bindings.items ↔ ∃ c ∈ calls, c.binding topic = x
  consumers : ∀ id q, reads b id q = true ↔ ∃ c ∈ calls, c.subscriberId = id ∧ c.queue topic = q
  ready : b.ready = []

theorem wired_connectBus (topic : String) : Wired topic connectBus [] where
  opened := ⟨fun c hc => absurd hc List.not_mem_nil, fun d hd => absurd hd List.not_mem_nil⟩
  bindings x := by simp [connectBus, Broker.run, Broker.exec, Broker.createChannel]
  consumers id q := by simp [reads, connectBus, Broker.run, Broker.exec, Broker.createChannel]
  ready := rfl

theorem Wired.subscribe {topic : String} {b : Rabbit} {calls : List Call}
    (h : Wired topic b calls) {c : Call} (hstream : c.options.streamReplay = false) :
    Wired topic (subscribe topic b c).1
      (if (subscribe topic b c).2 then calls ++ [c] else calls) := by
  have hs := subscribes topic (c := c) h.opened hstream
  refine ⟨hs.opened h.opened, fun x => ?_, fun id q => ?_, hs.ready.trans h.ready⟩
  · rw [hs.bindings]
    split_ifs
    · rw [InsertionSet.mem_add, h.bindings]
      simp [or_and_right, exists_or, eq_comm]
    · exact h.bindings x
  · have hid := h.consumers id q
    unfold reads at hid ⊢
    rw [hs.consumers]
    split_ifs
    · rw [List.any_append, Bool.or_eq_true, hid]
      simp [or_and_right, exists_or]
    · exact hid

theorem wired {topic : String} {s : Rabbit × List Call} {calls : List Call}
    (h : Wired topic s.1 s.2) (hstream : ∀ c ∈ calls, c.options.streamReplay = false) :
    Wired topic (subscribeAll topic s calls).1 (subscribeAll topic s calls).2 ∧
      ∀ c ∈ (subscribeAll topic s calls).2, c ∈ s.2 ∨ c ∈ calls := by
  induction calls generalizing s with
  | nil => exact ⟨h, fun c hc => .inl hc⟩
  | cons c calls ih =>
    obtain ⟨hwired, hmem⟩ := ih
      (s := ((RabbitMq.subscribe topic s.1 c).1,
        if (RabbitMq.subscribe topic s.1 c).2 then s.2 ++ [c] else s.2))
      (h.subscribe (hstream c List.mem_cons_self))
      fun c' hc' => hstream c' (List.mem_cons_of_mem _ hc')
    refine ⟨hwired, fun c' hc' => ?_⟩
    rcases hmem c' hc' with hc' | hc'
    · dsimp only at hc'
      split_ifs at hc'
      · rcases List.mem_append.mp hc' with hc' | hc'
        · exact .inl hc'
        · exact .inr (List.mem_singleton.mp hc' ▸ List.mem_cons_self)
      · exact .inl hc'
    · exact .inr (List.mem_cons_of_mem _ hc')

theorem Call.binding_exchange (topic : String) (c : Call) :
    (c.binding topic).exchange = topicExchange topic ∨
      (c.binding topic).exchange = fanoutExchange topic ∨
      (c.binding topic).exchange = hashExchange topic := by
  unfold Call.binding
  split_ifs <;> simp

/-- **The copies of a message are the routes of the calls.** -/
theorem Wired.mem_copies {topic : String} {b : Rabbit} {calls : List Call}
    (h : Wired topic b calls) {p : Publication} {picked : Option String}
    (hpicked : Picks topic b p picked) {e : Exchange} {q : String} :
    (e, q) ∈ copies topic b p picked ↔
      ∃ c ∈ calls, c.routes topic p picked ∧ (c.binding topic).exchange = e ∧
        c.queue topic = q := by
  have hbinding : ∀ x, x ∈ b.bindings.items → ∃ c ∈ calls, c.binding topic = x := fun x =>
    (h.bindings x).mp
  constructor
  · intro hmem
    unfold copies at hmem
    rcases List.mem_append.mp hmem with hmem | hmem
    · rcases List.mem_append.mp hmem with hmem | hmem
      · obtain ⟨q', hq', heq⟩ := List.mem_map.mp hmem
        cases heq
        obtain ⟨x, hx, hexchange, hmatch, rfl⟩ := (Broker.mem_route_topic rfl).mp hq'
        obtain ⟨c, hc, rfl⟩ := hbinding x hx
        refine ⟨c, hc, ?_, hexchange, Call.binding_queue.symm⟩
        unfold Call.routes
        rw [hexchange]
        exact hmatch
      · obtain ⟨q', hq', heq⟩ := List.mem_map.mp hmem
        cases heq
        obtain ⟨x, hx, hexchange, rfl⟩ := (Broker.mem_route_fanout rfl).mp hq'
        obtain ⟨c, hc, rfl⟩ := hbinding x hx
        refine ⟨c, hc, ?_, hexchange, Call.binding_queue.symm⟩
        unfold Call.routes
        rw [hexchange]
        trivial
    · split_ifs at hmem with hgroup
      · obtain ⟨q', hq', heq⟩ := List.mem_map.mp hmem
        cases heq
        obtain rfl : picked = some q := by simpa using hq'
        rw [Picks, if_pos hgroup] at hpicked
        obtain ⟨x, hx, hexchange, rfl⟩ := Broker.mem_bound.mp hpicked
        obtain ⟨c, hc, rfl⟩ := hbinding x hx
        refine ⟨c, hc, ?_, hexchange, Call.binding_queue.symm⟩
        unfold Call.routes
        rw [hexchange, Call.binding_queue]
        exact ⟨hgroup, rfl⟩
      · cases hmem
  · intro hroute
    obtain ⟨c, hc, hroutes, rfl, rfl⟩ := hroute
    have hmem : c.binding topic ∈ b.bindings.items := (h.bindings _).mpr ⟨c, hc, rfl⟩
    unfold Call.routes at hroutes
    unfold copies
    rcases c.binding_exchange topic with hexchange | hexchange | hexchange
    · rw [hexchange] at hroutes ⊢
      refine List.mem_append_left _ (List.mem_append_left _ (List.mem_map_of_mem ?_))
      exact (Broker.mem_route_topic rfl).mpr ⟨_, hmem, hexchange, hroutes, Call.binding_queue⟩
    · rw [hexchange]
      refine List.mem_append_left _ (List.mem_append_right _ (List.mem_map_of_mem ?_))
      exact (Broker.mem_route_fanout rfl).mpr ⟨_, hmem, hexchange, Call.binding_queue⟩
    · rw [hexchange] at hroutes ⊢
      obtain ⟨hgroup, hpicked⟩ := hroutes
      rw [if_pos hgroup, hpicked]
      exact List.mem_append_right _ (List.mem_map_of_mem (by simp))

theorem nodup_copies (topic : String) (b : Rabbit) (p : Publication) (picked : Option String) :
    (copies topic b p picked).Nodup := by
  have hpair : ∀ {e : Exchange} {qs : List String}, qs.Nodup → (qs.map (e, ·)).Nodup :=
    fun hqs => hqs.map fun q q' heq => (Prod.mk.inj heq).2
  have hapart : ∀ {e : Exchange} {qs : List String} {x : Exchange × String},
      x ∈ qs.map (e, ·) → x.1 = e := fun hx => by
    obtain ⟨q, -, rfl⟩ := List.mem_map.mp hx
    rfl
  unfold copies
  refine List.nodup_append.mpr ⟨List.nodup_append.mpr
    ⟨hpair (Broker.nodup_route ..), hpair (Broker.nodup_route ..), fun x hx y hy heq => ?_⟩, ?_,
    fun x hx y hy heq => ?_⟩
  · have hclash := (hapart hx).symm.trans (heq ▸ hapart hy)
    simp [topicExchange, fanoutExchange] at hclash
  · split_ifs
    · exact hpair (Broker.nodup_route topicRoutes b (hashExchange topic) "" picked)
    · exact List.nodup_nil
  · split_ifs at hy
    · rcases List.mem_append.mp hx with hx | hx
      · have hclash := (hapart hx).symm.trans (heq ▸ hapart hy)
        simp [topicExchange, hashExchange] at hclash
      · have hclash := (hapart hx).symm.trans (heq ▸ hapart hy)
        simp [fanoutExchange, hashExchange] at hclash
    · cases hy

/-! ## The topology refines the reference -/

section

variable {topic : String} {b : Rabbit} {calls : List Call} {p : Publication}
  {picked : Option String}

theorem reads_publish (topic : String) (b : Rabbit) (p : Publication) (picked : Option String)
    (id q : String) : reads (publish topic b p picked) id q = reads b id q := by
  unfold reads
  rw [(publish_eq topic b p picked).2.2.1]

/-- What a subscriber finds on its queues are the copies that lie there. -/
theorem Wired.received_publish (h : Wired topic b calls) (id : String) :
    received (publish topic b p picked) id =
      (copies topic b p picked).countP fun copy => reads b id copy.2 := by
  unfold received
  rw [(publish_eq topic b p picked).1, h.ready, List.nil_append, List.countP_map]
  exact List.countP_congr fun copy _ => by simp [reads_publish]

/-- No copy lies on a queue of two subscribers. -/
def Unshared (topic : String) (b : Rabbit) (p : Publication) (picked : Option String) : Prop :=
  ∀ copy ∈ copies topic b p picked, ∀ id id', reads b id copy.2 → reads b id' copy.2 → id = id'

theorem Wired.unshared_publish (h : Wired topic b calls) :
    (∀ r ∈ (publish topic b p picked).ready, ∀ id id', reads (publish topic b p picked) id r.1 →
      reads (publish topic b p picked) id' r.1 → id = id') ↔ Unshared topic b p picked := by
  rw [(publish_eq topic b p picked).1, h.ready, List.nil_append, List.forall_mem_map]
  simp only [reads_publish, Unshared]

theorem Wired.unshared_iff (h : Wired topic b calls) (hpicked : Picks topic b p picked) :
    Unshared topic b p picked ↔
      ∀ c ∈ calls, c.routes topic p picked → ∀ c' ∈ calls, c'.queue topic = c.queue topic →
        c'.subscriberId = c.subscriberId := by
  constructor
  · intro hunshared c hc hroutes c' hc' hqueue
    refine hunshared _ ((h.mem_copies hpicked).mpr ⟨c, hc, hroutes, rfl, rfl⟩) _ _ ?_ ?_
    · exact (h.consumers _ _).mpr ⟨c', hc', rfl, hqueue⟩
    · exact (h.consumers _ _).mpr ⟨c, hc, rfl, rfl⟩
  · intro hsame copy hcopy id id' hid hid'
    obtain ⟨c, hc, hroutes, -, hqueue⟩ := (h.mem_copies hpicked).mp hcopy
    obtain ⟨c₁, hc₁, rfl, hqueue₁⟩ := (h.consumers _ _).mp hid
    obtain ⟨c₂, hc₂, rfl, hqueue₂⟩ := (h.consumers _ _).mp hid'
    rw [hsame c hc hroutes c₁ hc₁ (hqueue₁.trans hqueue.symm),
      hsame c hc hroutes c₂ hc₂ (hqueue₂.trans hqueue.symm)]

/-- A subscriber reads the copies its own calls route. -/
theorem Wired.reads_copy (h : Wired topic b calls) (hpicked : Picks topic b p picked)
    (hunshared : Unshared topic b p picked) {copy : Exchange × String}
    (hcopy : copy ∈ copies topic b p picked) (id : String) :
    reads b id copy.2 = true ↔ ∃ c ∈ calls, c.subscriberId = id ∧ c.routes topic p picked ∧
      (c.binding topic).exchange = copy.1 ∧ c.queue topic = copy.2 := by
  constructor
  · intro hreads
    obtain ⟨c, hc, hroutes, hexchange, hqueue⟩ := (h.mem_copies hpicked).mp hcopy
    have hown : reads b c.subscriberId copy.2 = true := (h.consumers _ _).mpr ⟨c, hc, rfl, hqueue⟩
    exact ⟨c, hc, hunshared copy hcopy _ _ hown hreads, hroutes, hexchange, hqueue⟩
  · intro hroute
    obtain ⟨c, hc, hid, -, -, hqueue⟩ := hroute
    exact (h.consumers _ _).mpr ⟨c, hc, hid, hqueue⟩

theorem Wired.received_one (h : Wired topic b calls) (hpicked : Picks topic b p picked)
    (hunshared : Unshared topic b p picked) (id : String) :
    received (publish topic b p picked) id = 1 ↔
      ∃ c ∈ calls, c.subscriberId = id ∧ c.routes topic p picked ∧
        ∀ c' ∈ calls, c'.subscriberId = id → c'.routes topic p picked →
          (c'.binding topic).exchange = (c.binding topic).exchange ∧
            c'.queue topic = c.queue topic := by
  rw [h.received_publish, Lookup.countP_eq_one (nodup_copies ..)]
  constructor
  · intro hone
    obtain ⟨copy, hcopy, hreads, honly⟩ := hone
    obtain ⟨c, hc, hid, hroutes, hexchange, hqueue⟩ :=
      (h.reads_copy hpicked hunshared hcopy id).mp hreads
    refine ⟨c, hc, hid, hroutes, fun c' hc' hid' hroutes' => ?_⟩
    have hcopy' := (h.mem_copies hpicked).mpr ⟨c', hc', hroutes', rfl, rfl⟩
    have heq := honly _ hcopy' ((h.consumers _ _).mpr ⟨c', hc', hid', rfl⟩)
    rw [← heq] at hexchange hqueue
    exact ⟨hexchange.symm, hqueue.symm⟩
  · intro hone
    obtain ⟨c, hc, hid, hroutes, honly⟩ := hone
    refine ⟨((c.binding topic).exchange, c.queue topic),
      (h.mem_copies hpicked).mpr ⟨c, hc, hroutes, rfl, rfl⟩,
      (h.consumers _ _).mpr ⟨c, hc, hid, rfl⟩, fun copy hcopy hreads => ?_⟩
    obtain ⟨c', hc', hid', hroutes', hexchange, hqueue⟩ :=
      (h.reads_copy hpicked hunshared hcopy id).mp hreads
    obtain ⟨hexchange', hqueue'⟩ := honly c' hc' hid' hroutes'
    exact Prod.ext (hexchange.symm.trans hexchange') (hqueue.symm.trans hqueue')

/-- A subscriber finds none when its calls have no route. -/
theorem Wired.received_none (h : Wired topic b calls) (hpicked : Picks topic b p picked)
    (hunshared : Unshared topic b p picked) (id : String) :
    received (publish topic b p picked) id = 0 ↔
      ∀ c ∈ calls, c.subscriberId = id → ¬ c.routes topic p picked := by
  rw [h.received_publish, List.countP_eq_zero]
  constructor
  · intro hnone c hc hid hroutes
    have hcopy := (h.mem_copies hpicked).mpr ⟨c, hc, hroutes, rfl, rfl⟩
    exact hnone _ hcopy ((h.consumers _ _).mpr ⟨c, hc, hid, rfl⟩)
  · intro hnone copy hcopy hreads
    obtain ⟨c, hc, hid, hroutes, -, -⟩ := (h.reads_copy hpicked hunshared hcopy id).mp hreads
    exact hnone c hc hid hroutes

/-- A subscriber finds what the reference makes for it when its calls route as its first one
says. -/
theorem Wired.received_iff (h : Wired topic b calls) (hpicked : Picks topic b p picked)
    (hunshared : Unshared topic b p picked) {bus : Bus} (hbus : Registered topic bus calls)
    (id : String) :
    received (publish topic b p picked) id = expected topic bus p id ↔
      ∀ first ∈ calls, first.subscriberId = id →
        calls.find? (·.subscriberId = first.subscriberId) = some first →
        if first.accepts topic p then
          ∃ c ∈ calls, c.subscriberId = first.subscriberId ∧ c.routes topic p picked ∧
            ∀ c' ∈ calls, c'.subscriberId = first.subscriberId → c'.routes topic p picked →
              (c'.binding topic).exchange = (c.binding topic).exchange ∧
                c'.queue topic = c.queue topic
        else ∀ c ∈ calls, c.subscriberId = first.subscriberId → ¬ c.routes topic p picked := by
  rw [expected_eq hbus]
  cases hfirst : calls.find? (·.subscriberId = id) with
  | none =>
    have hnobody : ∀ c ∈ calls, c.subscriberId ≠ id := fun c hc => by
      simpa using List.find?_eq_none.mp hfirst c hc
    have hnone := (h.received_none hpicked hunshared id).mpr fun c hc hid =>
      absurd hid (hnobody c hc)
    refine ⟨fun _ first hmem hid => absurd hid (hnobody first hmem), fun _ => hnone⟩
  | some first =>
    obtain rfl : first.subscriberId = id := by simpa using List.find?_some hfirst
    have honly : ∀ {P : Call → Prop}, (∀ f ∈ calls, f.subscriberId = first.subscriberId →
        calls.find? (·.subscriberId = f.subscriberId) = some f → P f) ↔ P first := by
      intro P
      constructor
      · intro hP
        exact hP first (List.mem_of_find?_eq_some hfirst) rfl hfirst
      · intro hP f _ hid hf
        rw [hid, hfirst] at hf
        exact Option.some.inj hf ▸ hP
    rw [honly]
    simp only [Option.any_some]
    split_ifs
    · exact h.received_one hpicked hunshared _
    · exact h.received_none hpicked hunshared _

end

/-- **The topology refines the reference exactly when every subscriber has its sole route**, for any
calls without a stream, any message and any choice of the hash exchange. -/
theorem topology_refines_iff {topic : String} {calls : List Call} {p : Publication}
    {picked : Option String} (hstream : ∀ c ∈ calls, c.options.streamReplay = false)
    (hpicked : Picks topic (subscribeAll topic (connectBus, []) calls).1 p picked) :
    Refines topic calls p picked ↔
      SoleRoute topic (subscribeAll topic (connectBus, []) calls).2 p picked := by
  obtain ⟨hwired, hmem⟩ := wired (s := (connectBus, [])) (wired_connectBus topic) hstream
  have hbus : Registered topic
      (reference topic {} (subscribeAll topic (connectBus, []) calls).2).bus
      (subscribeAll topic (connectBus, []) calls).2 := by
    have hstart : Registered topic ({} : World).bus [] := fun id => rfl
    have hregistered := registered hstart
      fun c hc => hstream c ((hmem c hc).resolve_left List.not_mem_nil)
    simpa using hregistered
  simp only [Refines, SoleRoute]
  generalize (subscribeAll topic (connectBus, []) calls).1 = b at hwired hpicked
  generalize (subscribeAll topic (connectBus, []) calls).2 = done at hwired hbus
  rw [hwired.unshared_publish, ← hwired.unshared_iff hpicked, and_comm]
  refine and_congr_right fun hunshared => ?_
  simp only [hwired.received_iff hpicked hunshared hbus]
  constructor
  · intro hall first hfirst
    exact hall _ first hfirst rfl
  · intro hall _ first hfirst _
    exact hall first hfirst

/-- A filtered subscriber, a fanout subscriber and one that partitions by group. -/
def threeSubscribers : List Call :=
  [⟨{ subscriberId := some "a", routingKey := some "order.*" }, "", ""⟩,
    ⟨{ subscriberId := some "b", kind := .fanout }, "", ""⟩,
    ⟨{ subscriberId := some "c", partitionByGroup := true }, "", "r"⟩]

theorem topology_refines_three :
    Refines "t" threeSubscribers ⟨"m", some "order.created", some { groupId := some "g" }⟩
      (some "bus.t.c.r") :=
  (topology_refines_iff (by decide) (by decide +kernel)).mpr (by decide +kernel)

/-- A subscriber that partitions by group. -/
def onePartition : List Call :=
  [⟨{ subscriberId := some "a", partitionByGroup := true }, "", "r"⟩]

/-- **A message without a group does not come to a partition consumer.** -/
theorem groupless_message_lost : ¬ ∀ topic calls p picked,
    (∀ c ∈ calls, c.options.streamReplay = false) →
    Picks topic (subscribeAll topic (connectBus, []) calls).1 p picked →
    Refines topic calls p picked := by
  intro hclaim
  have hrefines := hclaim "t" onePartition ⟨"m", none, none⟩ none (by decide) rfl
  exact absurd (hrefines.1 "a") (by decide +kernel)

end MessagingPoc.RabbitMq
