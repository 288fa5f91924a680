import MessagingPoc.InMemory.NoLoss

/-!
# Stream replay: the log and a queue seeded from it

A `StreamReplay` subscription that creates its queue is given the topic's whole log, then what is
published. Both hand-overs happen under the bus's lock, so that no publish falls between them.

**The log** (`log_contents`). Until the bus is disposed of, the log of a topic is the record of its
publishes.

**The queue** (`stream_replay`). What was ever placed on the queue, other than by redelivery, is the
record of the topic's publishes, cut down to the routing keys the filter accepts: up to the
`Subscribe` by the seeding, from then on by one arrival for each publish.
-/

namespace MessagingPoc

open Machine

/-! ## Contents -/

/-- What a message carries, whatever object carries it. -/
structure Content where
  topic : String
  body : String
  routingKey : String
  options : Option PublishOptions
deriving DecidableEq

def BusMessage.content (m : BusMessage) : Content := ⟨m.topic, m.body, m.routingKey, m.options⟩

/-- The content an event publishes on a topic. -/
def Event.contentOn (topic : String) : Event → Option Content
  | .published t body key options _ => if t = topic then some ⟨t, body, key, options⟩ else none
  | .on .. => none

/-- The content an event places on its queue, other than by redelivery. -/
def QueueEvent.placed : QueueEvent → Option Content
  | .arrived m _ => some m.content
  | _ => none

/-- Neither a fresh message on the queue nor a consumer attached to it. -/
def QueueEvent.inner : QueueEvent → Bool
  | .arrived .. | .attached _ => false
  | _ => true

theorem QueueEvent.placed_of_inner {e : QueueEvent} (h : e.inner = true) : e.placed = none := by
  cases e <;> first | rfl | cases h

/-- The publishes on a topic that were not suppressed, in order. -/
def publishedOn (topic : String) (history : List Event) : List Content :=
  (history.filterMap (Event.contentOn topic)).reverse

/-- What was ever placed on a queue, in order. -/
def placedOn (t : List QueueEvent) : List Content := (t.filterMap QueueEvent.placed).reverse

theorem publishedOn_append (topic : String) (events older : List Event) :
    publishedOn topic (events ++ older) = publishedOn topic older ++ publishedOn topic events := by
  simp [publishedOn]

theorem publishedOn_of_none {topic : String} {events : List Event}
    (h : ∀ e ∈ events, e.contentOn topic = none) : publishedOn topic events = [] := by
  rw [publishedOn, List.filterMap_eq_nil_iff.mpr h]
  rfl

theorem topic_of_publishedOn {topic : String} {history : List Event} {c : Content}
    (h : c ∈ publishedOn topic history) : c.topic = topic := by
  simp only [publishedOn, List.mem_reverse, List.mem_filterMap] at h
  obtain ⟨e, -, he⟩ := h
  cases e with
  | on => cases he
  | published t body key options cause =>
    simp only [Event.contentOn] at he
    split_ifs at he with ht
    cases he
    exact ht

theorem placedOn_append (events older : List QueueEvent) :
    placedOn (events ++ older) = placedOn older ++ placedOn events := by
  simp [placedOn]

theorem placedOn_of_none {events : List QueueEvent} (h : ∀ e ∈ events, e.placed = none) :
    placedOn events = [] := by
  rw [placedOn, List.filterMap_eq_nil_iff.mpr h]
  rfl

/-- The routing keys an accepted content carries. -/
def BusQueue.accepts (Q : BusQueue) (c : Content) : Bool := Q.matches c.routingKey

namespace Bus

theorem content_appendLog {b b₁ : Bus} {topic body key : String}
    {options : Option PublishOptions} {logged : BusMessage}
    (h : b.appendLog topic body key options = (logged, b₁)) :
    logged.content = ⟨topic, body, key, options⟩ := by
  simp only [appendLog, newMessage, nextSeq, Prod.mk.injEq] at h
  rw [← h.1]
  rfl

theorem content_replay {topic : String} {q : QueueRef} {logs : List BusMessage} {b b' : Bus}
    {seeded : List (BusMessage × BusMessage)} (h : replay topic q logs b = (seeded, b'))
    (htopic : ∀ logged ∈ logs, logged.topic = topic) :
    seeded.map (fun t => t.1.content) = logs.map BusMessage.content := by
  induction logs generalizing b seeded with
  | nil =>
    obtain ⟨rfl, rfl⟩ := Prod.mk.inj h
    rfl
  | cons logged logs ih =>
    obtain ⟨rest, rfl, hrest⟩ := replay_cons h
    have hfirst : logged.topic = topic := htopic logged List.mem_cons_self
    rw [List.map_cons, List.map_cons,
      ih hrest fun x hx => htopic x (List.mem_cons_of_mem logged hx)]
    simp only [BusMessage.content, copyOf, hfirst]

/-- What a new queue is seeded with: the part of the log its filter accepts. -/
theorem backlog_createQueue (b : Bus) (topic key : String) {opts : SubscribeOptions}
    (hreplay : opts.streamReplay = true) :
    (b.createQueue topic key opts).backlog topic b.nextQueue opts =
      (b.streamLog topic).filter ((newQueue topic opts).accepts ∘ BusMessage.content) := by
  have hqueue : (b.createQueue topic key opts).queue b.nextQueue = newQueue topic opts :=
    Function.update_self ..
  rw [backlog, if_pos hreplay, hqueue]
  rfl

end Bus

theorem placedOn_seeded (c : AckHandler) (seeded : List (BusMessage × BusMessage)) :
    placedOn (.attached c :: (seeded.map fun t => .arrived t.1 t.2.ref).reverse) =
      seeded.map fun t => t.1.content := by
  have hevents : (seeded.map fun t => QueueEvent.arrived t.1 t.2.ref).filterMap
      QueueEvent.placed = seeded.map fun t => t.1.content := by
    rw [List.filterMap_map, ← List.filterMap_eq_map]
    rfl
  rw [placedOn, List.filterMap_cons_none rfl, List.filterMap_reverse, hevents, List.reverse_reverse]

namespace World

/-! ## One step -/

/-- **What happens within the queues.** Apart from a publish, a subscription and the disposal of the
bus, no instruction registers a queue, logs anything, puts a fresh message on a queue or attaches a
consumer. -/
theorem inner_exec {w : World} {i : Instr} {o : Outcome} (hex : Executes w i o)
    (hdispose : i ≠ .disposeBus) (hsub : ∀ topic handler opts, i ≠ .subscribe topic handler opts)
    (hpublish : ∀ topic body routingKey options cause,
      i ≠ .publish topic body routingKey options cause) :
    o.world.bus.queues = w.bus.queues ∧ o.world.bus.streamLog = w.bus.streamLog ∧
      ∃ events, o.world.history = events ++ w.history ∧
        ∀ x ∈ events, ∃ q e, x = .on q e ∧ e.inner = true := by
  cases hex with
  | disposeBus => exact absurd rfl hdispose
  | subscribeOld | subscribeNew => exact absurd rfl (hsub _ _ _)
  | publishSuppressed | publish => exact absurd rfl (hpublish _ _ _ _ _)
  | dispose =>
    refine ⟨rfl, rfl, _, rfl, fun x hx => ?_⟩
    simp only [List.mem_append, List.mem_reverse, List.mem_map, List.mem_singleton] at hx
    obtain ⟨m, -, rfl⟩ | rfl := hx <;> exact ⟨_, _, rfl, rfl⟩
  | pumpFound | wrap | settleAck | settleDead | settlePark | settleRequeue | retry | expirePending |
    expireInflight =>
    refine ⟨rfl, rfl, [_], rfl, fun x hx => ?_⟩
    obtain rfl := List.mem_singleton.mp hx
    exact ⟨_, _, rfl, rfl⟩
  | _ => exact ⟨rfl, rfl, [], rfl, fun x hx => absurd hx List.not_mem_nil⟩

/-- **What a step records.** Only a publish that is not suppressed publishes or logs anything, and
on a queue that exists nothing else places anything. -/
theorem record_exec {w : World} {i : Instr} {o : Outcome} (hex : Executes w i o)
    (hdispose : i ≠ .disposeBus) :
    (∃ topic body routingKey options cause,
      i = .publish topic body routingKey options cause ∧ w.bus.suppressed options = false ∧
      ∃ logged, logged.content = ⟨topic, body, routingKey.getD topic, options⟩ ∧
        o.world.bus.streamLog = Function.update w.bus.streamLog topic
          (w.bus.streamLog topic ++ [logged]) ∧
        ∀ t, publishedOn t o.world.history =
          publishedOn t w.history ++ (if topic = t then [logged.content] else [])) ∨
    (o.world.bus.streamLog = w.bus.streamLog ∧
      (∀ t, publishedOn t o.world.history = publishedOn t w.history) ∧
      ∀ q < w.bus.nextQueue, placedOn (o.world.trail q) = placedOn (w.trail q)) := by
  have hframe : ∀ {w' : World} (events : List Event), w'.history = events ++ w.history →
      (∀ x ∈ events, ∃ q e, x = .on q e ∧ (q < w.bus.nextQueue → e.placed = none)) →
      (∀ t, publishedOn t w'.history = publishedOn t w.history) ∧
        ∀ q < w.bus.nextQueue, placedOn (w'.trail q) = placedOn (w.trail q) := by
    intro w' events hhistory hevents
    refine ⟨fun t => ?_, fun q hq => ?_⟩
    · have hon : ∀ x ∈ events, x.contentOn t = none := by
        intro x hx
        obtain ⟨q, e, rfl, -⟩ := hevents x hx
        rfl
      rw [hhistory, publishedOn_append, publishedOn_of_none hon, List.append_nil]
    · have hplaced : ∀ e ∈ events.filterMap (Event.onQueue q), e.placed = none := by
        intro e he
        obtain ⟨_, _, heq, hnone⟩ := hevents _ (mem_onQueue.mp he)
        cases heq
        exact hnone hq
      rw [trail, hhistory, List.filterMap_append, placedOn_append, placedOn_of_none hplaced,
        List.append_nil]
      rfl
  have hinner := inner_exec hex hdispose
  cases hex with
  | disposeBus => exact absurd rfl hdispose
  | publishSuppressed => exact .inr ⟨rfl, fun _ => rfl, fun _ _ => rfl⟩
  | @publish topic body routingKey options cause logged b₁ b₂ copies hsup hlog hcopies =>
    have hp := Bus.published hlog hcopies
    have hcontent := Bus.content_appendLog hlog
    refine .inl ⟨topic, body, routingKey, options, cause, rfl, hsup, logged, hcontent, hp.log, ?_⟩
    intro t
    have hon : publishedOn t (copies.map fun u => Event.on u.1 (.arrived u.2 logged.ref)).reverse =
        [] := by
      refine publishedOn_of_none fun e he => ?_
      simp only [List.mem_reverse, List.mem_map] at he
      obtain ⟨u, -, rfl⟩ := he
      rfl
    simp only [record, withBus, List.append_assoc, publishedOn_append, hon, List.append_nil]
    rw [hcontent]
    simp only [publishedOn, List.filterMap_cons, List.filterMap_nil, Event.contentOn]
    split_ifs <;> rfl
  | @subscribeNew topic id handler opts b₁ b₂ b₃ seeded hid _ hb₂ hseeded =>
    have hc := Bus.created hid hb₂ hseeded
    have hnext : b₁.nextQueue = w.bus.nextQueue := by rw [Bus.subscriberId_eq hid]
    refine .inr ⟨hc.log, hframe _ rfl fun x hx => ?_⟩
    simp only [List.mem_cons, List.mem_reverse, List.mem_map] at hx
    obtain rfl | ⟨u, -, rfl⟩ := hx
    · exact ⟨_, _, rfl, fun _ => rfl⟩
    · -- What a new queue is seeded with is placed on no other.
      exact ⟨_, _, rfl, fun hlt => absurd (hnext ▸ hlt) (lt_irrefl _)⟩
  | subscribeOld hid =>
    refine .inr ⟨by rw [Bus.subscriberId_eq hid]; rfl, hframe [_] rfl fun x hx => ?_⟩
    obtain rfl := List.mem_singleton.mp hx
    exact ⟨_, _, rfl, fun _ => rfl⟩
  | _ =>
    obtain ⟨-, hlog, events, hhistory, hevents⟩ := hinner (by simp) (by simp)
    refine .inr ⟨hlog, hframe events hhistory fun x hx => ?_⟩
    obtain ⟨q, e, rfl, he⟩ := hevents x hx
    exact ⟨q, e, rfl, fun _ => QueueEvent.placed_of_inner he⟩

/-! ## The log -/

/-- **The log of a topic is the record of its publishes**, until the bus is disposed of. -/
theorem log_contents {w : World} (h : ReachIf busMachine noDispose w) (topic : String) :
    (w.bus.streamLog topic).map BusMessage.content = publishedOn topic w.history := by
  refine h.invariant (I := fun w => ∀ topic,
    (w.bus.streamLog topic).map BusMessage.content = publishedOn topic w.history)
    (fun w hw => ?_) (fun w l w' hr ih hok hstep => ?_) topic
  · rw [busMachine_init.mp hw]
    intro topic
    rfl
  · have hs := busMachine_step.mp hstep
    intro topic
    cases hi : w.next l with
    | none =>
      obtain ⟨hbus, -, -, hhistory⟩ := step_idle hs hi
      rw [hbus, hhistory, ih topic]
    | some i =>
      obtain ⟨hbus, -, -, -, hhistory⟩ := step_next hs hi
      have hdispose : i ≠ .disposeBus := by
        intro heq
        exact hok (heq ▸ hi)
      rw [hbus, hhistory]
      rcases record_exec (w.executes i) hdispose with
        ⟨t, _, _, _, _, -, -, logged, -, hlog, hpublished⟩ | ⟨hlog, hpublished, -⟩
      · rw [hlog, hpublished, Function.update_apply]
        by_cases ht : topic = t
        · subst ht
          rw [if_pos rfl, if_pos rfl, List.map_append, ih topic]
          rfl
        · rw [if_neg ht, if_neg (Ne.symm ht), List.append_nil, ih topic]
      · rw [hlog, hpublished, ih topic]

theorem published_of_backlog {w : World} (h : ReachIf busMachine noDispose w) {topic id : String}
    {opts : SubscribeOptions} {b₁ b₂ : Bus} (hid : w.bus.subscriberId opts = (id, b₁))
    (hb₂ : b₂ = b₁.createQueue topic (Bus.key topic id) opts) {q : QueueRef} {logged : BusMessage}
    (hmem : logged ∈ b₂.backlog topic q opts) :
    logged.content ∈ publishedOn topic w.history := by
  have hlogged := Bus.mem_of_mem_backlog hmem
  rw [hb₂, Bus.createQueue, Bus.subscriberId_eq hid] at hlogged
  rw [← log_contents h]
  exact List.mem_map_of_mem hlogged

/-! ## A queue seeded from the log -/

/-- The queue of a `Subscribe` with `StreamReplay` that creates it, right after the `Subscribe`. -/
theorem seeded {w₀ w₁ : World} (h : ReachIf busMachine noDispose w₀) {l : Label}
    (hs : w₀.step l = some w₁) {topic : String} {handler : AckHandler} {opts : SubscribeOptions}
    (hi : w₀.next l = some (.subscribe topic handler opts)) (hreplay : opts.streamReplay = true)
    (hnew : w₀.bus.queues (Bus.key topic (w₀.bus.subscriberId opts).1) = none) :
    w₁.bus.nextQueue = w₀.bus.nextQueue + 1 ∧
      (w₁.bus.queue w₀.bus.nextQueue).consumers = [handler] ∧
      (∀ c, (w₁.bus.queue w₀.bus.nextQueue).accepts c = (Bus.newQueue topic opts).accepts c) ∧
      (w₁.bus.queue w₀.bus.nextQueue).topic = topic ∧
      publishedOn topic w₁.history = publishedOn topic w₀.history ∧
      placedOn (w₁.trail w₀.bus.nextQueue) =
        (publishedOn topic w₀.history).filter (Bus.newQueue topic opts).accepts := by
  obtain ⟨hbus, -, -, -, hhistory⟩ := step_next hs hi
  have hex := w₀.executes (.subscribe topic handler opts)
  have hrecord := record_exec hex (by simp)
  generalize w₀.exec (.subscribe topic handler opts) = o at hex hbus hhistory hrecord
  have hpublished : publishedOn topic w₁.history = publishedOn topic w₀.history := by
    rw [hhistory]
    rcases hrecord with ⟨_, _, _, _, _, heq, -⟩ | ⟨-, hpublished, -⟩
    · cases heq
    · exact hpublished topic
  cases hex with
  | subscribeOld hid hq =>
    rw [hid] at hnew
    rw [Bus.subscriberId_eq hid] at hq
    rw [hq] at hnew
    cases hnew
  | @subscribeNew _ id _ _ b₁ b₂ b₃ seeded hid _ hb₂ hseeded =>
    have hc := Bus.created hid hb₂ hseeded
    have hb₁ := Bus.subscriberId_eq hid
    have hnext : b₁.nextQueue = w₀.bus.nextQueue := by rw [hb₁]
    have hqueue : w₁.bus.queue w₀.bus.nextQueue = { Bus.newQueue topic opts with
        pending := (b₃.queue w₀.bus.nextQueue).pending, consumers := [handler] } := by
      have hattach : w₁.bus.queue w₀.bus.nextQueue = { b₃.queue w₀.bus.nextQueue with
          consumers := (b₃.queue w₀.bus.nextQueue).consumers ++ [handler] } := by
        rw [hbus, ← hnext]
        exact Function.update_self ..
      rw [hattach, hc.target]
      rfl
    refine ⟨?_, by rw [hqueue], fun c => by rw [hqueue]; rfl, by rw [hqueue]; rfl, hpublished, ?_⟩
    · rw [hbus]
      exact hc.nextQueue
    · -- The queue is new: all it holds is what it was seeded with.
      have hunused : w₀.trail w₀.bus.nextQueue = [] :=
        (good h.reach).sound.unused _ le_rfl
      have htrail : w₁.trail w₀.bus.nextQueue = .attached handler ::
          (seeded.map fun t => .arrived t.1 t.2.ref).reverse := by
        rw [trail, hhistory, hnext, ← trail, trail_record, trail_withBus, hunused, List.append_nil,
          List.filterMap_cons, ← List.map_reverse, List.filterMap_map]
        simp [Event.onQueue, Function.comp_def]
      have hbacklog : b₂.backlog topic b₁.nextQueue opts = (w₀.bus.streamLog topic).filter
          ((Bus.newQueue topic opts).accepts ∘ BusMessage.content) := by
        have hlog : b₁.streamLog = w₀.bus.streamLog := by rw [hb₁]
        rw [hb₂, Bus.backlog_createQueue b₁ topic _ hreplay, hlog]
      rw [htrail, placedOn_seeded, Bus.content_replay hseeded, hbacklog, ← log_contents h,
        List.filter_map]
      intro logged hmem
      exact topic_of_publishedOn (published_of_backlog h hid hb₂ hmem)

/-- **No gap and no duplicate.** A `Subscribe` with `StreamReplay` that creates its queue: what the
queue is seeded with is the history of the topic so far, and at any time since, what was ever
placed on it is the whole history, in order, as far as the filter accepts it. -/
theorem stream_replay {w₀ w₁ w : World} (h : ReachIf busMachine noDispose w₀) {l : Label}
    (hs : w₀.step l = some w₁) {topic : String} {handler : AckHandler} {opts : SubscribeOptions}
    (hi : w₀.next l = some (.subscribe topic handler opts)) (hreplay : opts.streamReplay = true)
    (hnew : w₀.bus.queues (Bus.key topic (w₀.bus.subscriberId opts).1) = none)
    (p : Run busMachine noDispose w₁ w) :
    (w₁.bus.queue w₀.bus.nextQueue).consumers = [handler] ∧
      placedOn (w₁.trail w₀.bus.nextQueue) =
        (publishedOn topic w₀.history).filter (Bus.newQueue topic opts).accepts ∧
      placedOn (w.trail w₀.bus.nextQueue) =
        (publishedOn topic w.history).filter (Bus.newQueue topic opts).accepts := by
  obtain ⟨hnext, hconsumers, haccepts, htopic, hpublished, hplaced⟩ := seeded h hs hi hreplay hnew
  refine ⟨hconsumers, hplaced, ?_⟩
  have h₁ : ReachIf busMachine noDispose w₁ :=
    h.step (by rw [noDispose, hi]; simp) (busMachine_step.mpr hs)
  have hinv := p.invariant (I := fun w => w₀.bus.nextQueue < w.bus.nextQueue ∧
      (∀ c, (w.bus.queue w₀.bus.nextQueue).accepts c = (Bus.newQueue topic opts).accepts c) ∧
      (w.bus.queue w₀.bus.nextQueue).topic = topic ∧
      placedOn (w.trail w₀.bus.nextQueue) =
        (publishedOn topic w.history).filter (Bus.newQueue topic opts).accepts) ?_ h₁
    ⟨by rw [hnext]; exact Nat.lt_succ_self _, haccepts, htopic, by rw [hpublished, hplaced]⟩
  · exact hinv.2.2.2
  · intro w l w' hr ih hok hstep
    obtain ⟨hlt, haccepts, htopic, hplaced⟩ := ih
    have hs := busMachine_step.mp hstep
    have hg := good hr.reach
    have hoptions := options_step hg hs hlt
    refine ⟨hlt.trans_le (nextQueue_step hg hs), ?_, ?_, ?_⟩
    · intro c
      rw [← haccepts c, hoptions]
      rfl
    · rw [hoptions]
      exact htopic
    · cases hi : w.next l with
      | none =>
        obtain ⟨-, -, -, hhistory⟩ := step_idle hs hi
        rw [trail, hhistory]
        exact hplaced
      | some i =>
        obtain ⟨-, -, -, -, hhistory⟩ := step_next hs hi
        have hdispose : i ≠ .disposeBus := by
          intro heq
          exact hok (heq ▸ hi)
        rcases record_exec (w.executes i) hdispose with
          ⟨t, body, routingKey, options, cause, rfl, hsup, logged, hcontent, -, hrecord⟩ |
          ⟨-, hrecord, hstill⟩
        · obtain ⟨hreached, hmissed⟩ := publish_adds hr hs hi hsup w₀.bus.nextQueue
          rw [hhistory, hrecord, List.filter_append, ← hplaced]
          by_cases ht : t = topic
          · subst ht
            rw [if_pos rfl, hcontent]
            by_cases hmatch : (w.bus.queue w₀.bus.nextQueue).matches (routingKey.getD t) = true
            · obtain ⟨m, entry, -, htrail, hmt, hmb, hmk, hmo, -⟩ := hreached ⟨hlt, htopic, hmatch⟩
              have hm : m.content = ⟨t, body, routingKey.getD t, options⟩ := by
                rw [BusMessage.content, hmt, hmb, hmk, hmo]
              rw [htrail, ← hm, List.filter_cons_of_pos (by rw [← haccepts, hm]; exact hmatch)]
              simp [placedOn, QueueEvent.placed]
            · rw [(hmissed fun hreaches => hmatch hreaches.2.2).2,
                List.filter_cons_of_neg (by rw [← haccepts]; exact hmatch)]
              simp
          · have hmiss : ¬ w.reaches t (routingKey.getD t) w₀.bus.nextQueue := by
              intro hreaches
              exact ht (hreaches.2.1.symm.trans htopic)
            rw [(hmissed hmiss).2, if_neg ht]
            simp
        · rw [trail, hhistory, hrecord, ← trail, hstill _ hlt]
          exact hplaced

/-- Two publishes, of which the subscriber to come accepts one. -/
def retained : List Label :=
  [.call (.publish "t" "a" (some "x") none), .run 0, .call (.publish "t" "b" (some "y") none),
    .run 1, .call (.subscribe "t" ⟨0⟩ { streamReplay := true, routingKey := some "x" })]

/-- A publish after the replay. -/
def live : List Label := [.call (.publish "t" "c" (some "x") none), .run 3]

theorem stream_replay_live :
    placedOn ((play {} (retained ++ [.run 2] ++ live)).trail (play {} retained).bus.nextQueue) =
      [⟨"t", "a", "x", none⟩, ⟨"t", "c", "x", none⟩] := by
  have hnext : (play {} retained).next (.run 2) =
      some (.subscribe "t" ⟨0⟩ { streamReplay := true, routingKey := some "x" }) := rfl
  have hreplay := stream_replay (reachIf_play retained (by decide)) (step_play (l := .run 2)
    (by decide)) hnext rfl (by decide) (run_play live (by decide))
  exact hreplay.2.2.trans (by decide +kernel)

end World

end MessagingPoc
