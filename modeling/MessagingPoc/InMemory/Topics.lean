import MessagingPoc.InMemory.NoLoss

/-!
# Queues keep to their topic

A queue is registered for the topic it was created for, and for no other; so whatever a publish or
the replay of a log puts on it was published on that topic. None of this needs the bus to be alive:
a `Dispose` only takes registrations away.
-/

namespace MessagingPoc

open Machine

theorem Bus.topic_replay {topic : String} {q : QueueRef} {logs : List BusMessage} {b b' : Bus}
    {seeded : List (BusMessage × BusMessage)} (h : replay topic q logs b = (seeded, b')) :
    ∀ t ∈ seeded, t.1.topic = topic := by
  induction logs generalizing b seeded with
  | nil =>
    obtain ⟨rfl, rfl⟩ := Prod.mk.inj h
    simp
  | cons logged logs ih =>
    obtain ⟨rest, rfl, hrest⟩ := replay_cons h
    intro t ht
    rcases List.mem_cons.mp ht with rfl | ht
    · rfl
    · exact ih hrest t ht

namespace World

/-- Registrations and arrivals are those of a queue's own topic. -/
structure Topical (w : World) : Prop where
  registered : ∀ topic, ∀ q ∈ (w.bus.byTopic topic).items, (w.bus.queue q).topic = topic
  arrived : ∀ q m e, .arrived m e ∈ w.trail q → m.topic = (w.bus.queue q).topic

theorem newQueue_topic {w : World} {topic id : String} (handler : AckHandler)
    {opts : SubscribeOptions} {b₁ b₂ b₃ : Bus} {seeded : List (BusMessage × BusMessage)}
    (hid : w.bus.subscriberId opts = (id, b₁))
    (hb₂ : b₂ = b₁.createQueue topic (Bus.key topic id) opts)
    (hseeded : Bus.replay topic b₁.nextQueue (b₂.backlog topic b₁.nextQueue opts) b₂ =
      (seeded, b₃)) :
    b₁.nextQueue = w.bus.nextQueue ∧
      ((b₃.attach b₁.nextQueue handler).queue w.bus.nextQueue).topic = topic := by
  have hc := Bus.created hid hb₂ hseeded
  refine ⟨by rw [Bus.subscriberId_eq hid], ?_⟩
  rw [topic_attach, hc.target]
  rfl

/-- What a step registers, and what it puts on a queue, is of the queue's own topic. -/
theorem topical_exec {w : World} {i : Instr} {o : Outcome} (hex : Executes w i o)
    (hregistered : ∀ {topic q}, q ∈ (w.bus.byTopic topic).items →
      (o.world.bus.queue q).topic = topic) :
    (∀ topic, ∀ q ∈ (o.world.bus.byTopic topic).items,
      q ∈ (w.bus.byTopic topic).items ∨ (o.world.bus.queue q).topic = topic) ∧
    ∀ q m e, .on q (.arrived m e) ∈ o.world.history →
      .on q (.arrived m e) ∈ w.history ∨ m.topic = (o.world.bus.queue q).topic := by
  cases hex with
  | disposeBus =>
    exact ⟨fun topic q hq => absurd hq List.not_mem_nil, fun q m e he => .inl he⟩
  | @publish topic body routingKey options cause logged b₁ b₂ copies _ hlog hcopies =>
    have hp := Bus.published hlog hcopies
    refine ⟨fun t q hq => .inl ?_, fun q m e he => ?_⟩
    · change q ∈ (b₂.byTopic t).items at hq
      rwa [hp.byTopic] at hq
    · simp only [record, withBus, List.mem_append, List.mem_reverse, List.mem_map,
        Event.on.injEq, QueueEvent.arrived.injEq, List.mem_singleton, reduceCtorEq,
        or_false] at he
      rcases he with ⟨t, ht, rfl, rfl, rfl⟩ | he
      · -- A target is registered for the topic published on.
        have htarget : t.1 ∈ w.bus.targets topic (routingKey.getD topic) :=
          (hp.mem_iff t.1).mpr ⟨t.2, ht⟩
        exact .inr ((hp.contents t ht).1.trans
          (hregistered (List.mem_of_mem_filter htarget)).symm)
      · exact .inl he
  | @subscribeOld topic id handler opts b₁ q₀ hid =>
    refine ⟨fun t q hq => .inl ?_, fun q m e he => .inl ?_⟩
    · rw [Bus.subscriberId_eq hid] at hq
      exact hq
    · simpa [record, withBus] using he
  | @subscribeNew topic id handler opts b₁ b₂ b₃ seeded hid _ hb₂ hseeded =>
    obtain ⟨hnext, htopic⟩ := newQueue_topic handler hid hb₂ hseeded
    have hc := Bus.created hid hb₂ hseeded
    refine ⟨fun t q hq => ?_, fun q m e he => ?_⟩
    · change q ∈ (b₃.byTopic t).items at hq
      rw [hc.byTopic, Function.update_apply] at hq
      split_ifs at hq with ht
      · rcases InsertionSet.mem_add.mp hq with hq | rfl
        · exact .inl (ht ▸ hq)
        · exact .inr (htopic.trans ht.symm)
      · exact .inl hq
    · simp only [record, withBus, List.cons_append, List.mem_cons, List.mem_append,
        List.mem_reverse, List.mem_map, Event.on.injEq, reduceCtorEq, and_false, false_or] at he
      rcases he with ⟨t, ht, rfl, heq⟩ | he
      · simp only [QueueEvent.arrived.injEq] at heq
        right
        rw [← heq.1, Bus.topic_replay hseeded t ht]
        show topic = ((b₃.attach b₁.nextQueue handler).queue b₁.nextQueue).topic
        rw [hnext] at htopic ⊢
        exact htopic.symm
      · exact .inl he
  | dispose =>
    refine ⟨fun t q hq => .inl hq, fun q m e he => .inl ?_⟩
    simpa [record, withBus] using he
  | _ =>
    refine ⟨fun t q hq => .inl hq, fun q m e he => .inl ?_⟩
    first
      | exact he
      | simpa [record, withBus, release, deliver] using he

theorem topical {w : World} (h : Reach busMachine w) : w.Topical := by
  refine h.invariant (I := Topical) (fun w hw => ?_) fun w l w' hr ih _ hstep => ?_
  · rw [busMachine_init.mp hw]
    exact ⟨fun topic q hq => absurd hq (by simp), fun q m e he => absurd he (by simp [trail])⟩
  have hs := busMachine_step.mp hstep
  have hg := good hr
  have hkept : ∀ {q}, q < w.bus.nextQueue → (w'.bus.queue q).topic = (w.bus.queue q).topic := by
    intro q hq
    rw [options_step hg hs hq]
  have hregistered : ∀ {topic q}, q ∈ (w.bus.byTopic topic).items →
      (w'.bus.queue q).topic = topic := by
    intro topic q hq
    rw [hkept (hg.sound.byTopic topic q hq), ih.registered topic q hq]
  have harrived : ∀ {q m e}, .arrived m e ∈ w.trail q → m.topic = (w'.bus.queue q).topic := by
    intro q m e he
    rw [hkept (hg.sound.used he), ih.arrived q m e he]
  cases hi : w.next l with
  | none =>
    obtain ⟨hbus, -, -, hhistory⟩ := step_idle hs hi
    rw [hbus] at hregistered harrived
    refine ⟨?_, ?_⟩
    · intro topic q hq
      rw [hbus] at hq ⊢
      exact hregistered hq
    · intro q m e he
      rw [trail, hhistory] at he
      rw [hbus]
      exact harrived he
  | some i =>
    obtain ⟨hbus, -, -, -, hhistory⟩ := step_next hs hi
    have hex := w.executes i
    rw [hbus] at hregistered harrived
    generalize w.exec i = o at hex hbus hhistory hregistered harrived
    obtain ⟨hnew, harrivals⟩ := topical_exec hex hregistered
    refine ⟨?_, ?_⟩
    · intro topic q hq
      rw [hbus] at hq ⊢
      exact (hnew topic q hq).elim hregistered id
    · intro q m e he
      rw [mem_trail, hhistory] at he
      rw [hbus]
      exact (harrivals q m e he).elim (fun hold => harrived (mem_trail.mpr hold)) id

end World

end MessagingPoc
