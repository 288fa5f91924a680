import MessagingPoc.InMemory.StreamReplay
import MessagingPoc.InMemory.Topics

/-!
# Queue identity

`Subscribe` finds its queue through one string, the topic and the subscriber id with a blank
between them. The id is the caller's, or `sub-` and a counter. Which `Subscribe` calls have been
made is a ghost record beside the bus (`subscribedMachine`).

**A queue is its key** (`Registry.queue_eq_iff`): until the bus is disposed of, two subscriptions
are attached to one queue if and only if they formed the same key.

**A key is not a topic and an id.** Both may contain blanks, and a caller's id may look generated.
Where no `Subscribe` forms a key that another one formed for other reasons, queues are what they are
meant to be (`queue_identity`); `key_injective` is the usual way to be there.
-/

namespace MessagingPoc

open Machine

/-! ## Keys -/

/-- Topics without blanks keep keys apart. -/
theorem Bus.key_injective {topic topic' id id' : String} (htopic : ' ' ∉ topic.toList)
    (htopic' : ' ' ∉ topic'.toList) (h : Bus.key topic id = Bus.key topic' id') :
    topic = topic' ∧ id = id' := by
  have hlist : topic.toList ++ ' ' :: id.toList = topic'.toList ++ ' ' :: id'.toList := by
    have := congrArg String.toList h
    simpa [Bus.key] using this
  -- The topic is what stands before the first blank.
  have hbefore : ∀ {t i : List Char}, ' ' ∉ t → (t ++ ' ' :: i).takeWhile (· ≠ ' ') = t := by
    intro t i ht
    rw [List.takeWhile_append_of_pos (by
      intro a ha
      simpa using fun heq : a = ' ' => ht (heq ▸ ha))]
    simp
  have htopics := congrArg (List.takeWhile (· ≠ ' ')) hlist
  rw [hbefore htopic, hbefore htopic'] at htopics
  rw [htopics] at hlist
  have hids := List.append_cancel_left hlist
  exact ⟨String.toList_inj.mp htopics, String.toList_inj.mp (List.cons_inj_right _ |>.mp hids)⟩

namespace Bus

/-- The key a `Subscribe` forms. -/
def keyOf (b : Bus) (topic : String) (opts : SubscribeOptions) : String :=
  key topic (b.subscriberId opts).1

/-- The queue a `Subscribe` finds or creates. -/
def queueOf (b : Bus) (topic : String) (opts : SubscribeOptions) : QueueRef :=
  (b.queues (b.keyOf topic opts)).getD b.nextQueue

end Bus

/-! ## The record of `Subscribe` -/

/-- One `Subscribe`: what it was given, the key it formed and the queue it is attached to. -/
structure Subscription where
  topic : String
  handler : AckHandler
  opts : SubscribeOptions
  key : String
  queue : QueueRef

namespace Subscription

/-- Both name the same topic and explicitly gave the same subscriber id. -/
def SameName (r s : Subscription) : Prop :=
  r.topic = s.topic ∧ ∃ id, r.opts.subscriberId = some id ∧ s.opts.subscriberId = some id

theorem SameName.symm {r s : Subscription} (h : r.SameName s) : s.SameName r := by
  obtain ⟨htopic, id, hid, hid'⟩ := h
  exact ⟨htopic.symm, id, hid', hid⟩

/-- The routing keys the subscription asked for. -/
def accepts (r : Subscription) (key : String) : Bool := (Bus.newQueue r.topic r.opts).matches key

end Subscription

/-- The consumer an event attaches. -/
def QueueEvent.attachedConsumer : QueueEvent → Option AckHandler
  | .attached c => some c
  | _ => none

theorem QueueEvent.attachedConsumer_of_inner {e : QueueEvent} (h : e.inner = true) :
    e.attachedConsumer = none := by
  cases e <;> first | rfl | cases h

namespace World

/-- What a step adds to the record. -/
def subscribing (w : World) (l : Label) : List Subscription :=
  match w.next l with
  | some (.subscribe topic handler opts) =>
    [⟨topic, handler, opts, w.bus.keyOf topic opts, w.bus.queueOf topic opts⟩]
  | _ => []

end World

/-- The bus beside the record of its subscriptions, the newest first. -/
def subscribedMachine : System (World × List Subscription) Label :=
  busMachine.recording World.subscribing

namespace World

/-! ## What a `Subscribe` does -/

/-- **The lock body of `Subscribe`**: the key leads to the queue, which gets the consumer; a queue
it creates has the options of the call. -/
structure Subscribed (w : World) (topic : String) (handler : AckHandler) (opts : SubscribeOptions)
    (o : Outcome) : Prop where
  queues : o.world.bus.queues = Function.update w.bus.queues (w.bus.keyOf topic opts)
    (some (w.bus.queueOf topic opts))
  created : w.bus.queues (w.bus.keyOf topic opts) = none →
    w.bus.queueOf topic opts = w.bus.nextQueue ∧
    w.bus.nextQueue < o.world.bus.nextQueue ∧
    (o.world.bus.queue w.bus.nextQueue).topic = topic ∧
    ∀ key, (o.world.bus.queue w.bus.nextQueue).matches key = (Bus.newQueue topic opts).matches key
  attached : ∃ events, o.world.history = .on (w.bus.queueOf topic opts) (.attached handler) ::
      (events ++ w.history) ∧
    ∀ q, ∀ e ∈ events.filterMap (Event.onQueue q), e.attachedConsumer = none

theorem subscribed {w : World} {topic : String} {handler : AckHandler} {opts : SubscribeOptions}
    {o : Outcome} (hex : Executes w (.subscribe topic handler opts) o) :
    Subscribed w topic handler opts o := by
  cases hex with
  | @subscribeOld _ id _ _ b₁ q hid hq =>
    have hb₁ := Bus.subscriberId_eq hid
    have hkey : w.bus.keyOf topic opts = Bus.key topic id := by rw [Bus.keyOf, hid]
    have hqueues : b₁.queues = w.bus.queues := by rw [hb₁]
    have hfound : w.bus.queues (w.bus.keyOf topic opts) = some q := by
      rw [hkey, ← hqueues, hq]
    have hqueue : w.bus.queueOf topic opts = q := by rw [Bus.queueOf, hfound, Option.getD_some]
    refine ⟨?_, ?_, [], ?_, by simp⟩
    · show b₁.queues = _
      rw [hqueue, ← hfound, Function.update_eq_self, hqueues]
    · intro hnone
      rw [hfound] at hnone
      cases hnone
    · rw [hqueue]
      rfl
  | @subscribeNew _ id _ _ b₁ b₂ b₃ seeded hid hq hb₂ hseeded =>
    have hc := Bus.created hid hb₂ hseeded
    have hb₁ := Bus.subscriberId_eq hid
    have hkey : w.bus.keyOf topic opts = Bus.key topic id := by rw [Bus.keyOf, hid]
    have hnext : b₁.nextQueue = w.bus.nextQueue := by rw [hb₁]
    have hnone : w.bus.queues (w.bus.keyOf topic opts) = none := by
      rw [hkey, ← hq, hb₁]
    have hqueue : w.bus.queueOf topic opts = w.bus.nextQueue := by
      rw [Bus.queueOf, hnone, Option.getD_none]
    refine ⟨?_, fun _ => ⟨hqueue, ?_, ?_, ?_⟩,
      (seeded.map fun t => .on b₁.nextQueue (.arrived t.1 t.2.ref)).reverse, ?_, ?_⟩
    · show b₃.queues = _
      rw [hc.queues, hkey, hqueue]
    · show _ < b₃.nextQueue
      rw [hc.nextQueue]
      exact Nat.lt_succ_self _
    · exact (newQueue_topic handler hid hb₂ hseeded).2
    · intro key
      have hattach : (b₃.attach b₁.nextQueue handler).queue w.bus.nextQueue =
          { b₃.queue w.bus.nextQueue with
            consumers := (b₃.queue w.bus.nextQueue).consumers ++ [handler] } := by
        rw [← hnext]
        exact Function.update_self ..
      show ((b₃.attach b₁.nextQueue handler).queue w.bus.nextQueue).matches key = _
      rw [hattach, hc.target]
      rfl
    · rw [hqueue, ← hnext]
      rfl
    · intro q e he
      simp only [List.mem_filterMap, List.mem_reverse, List.mem_map] at he
      obtain ⟨e', ⟨t, -, rfl⟩, he⟩ := he
      simp only [Event.onQueue] at he
      split_ifs at he
      cases he
      rfl

/-- The consumers ever attached to a queue, the newest first. -/
def attachments (w : World) (q : QueueRef) : List AckHandler :=
  (w.trail q).filterMap QueueEvent.attachedConsumer

theorem attachments_of_history {w w' : World} {events : List Event}
    (hhistory : w'.history = events ++ w.history) {q : QueueRef}
    (hnone : ∀ e, .on q e ∈ events → e.attachedConsumer = none) :
    w'.attachments q = w.attachments q := by
  have hfiltered : (events.filterMap (Event.onQueue q)).filterMap QueueEvent.attachedConsumer =
      [] := List.filterMap_eq_nil_iff.mpr fun e he => hnone e (mem_onQueue.mp he)
  rw [attachments, trail, hhistory, List.filterMap_append, List.filterMap_append, hfiltered,
    List.nil_append]
  rfl

/-- Nothing but a `Subscribe` registers a queue or attaches a consumer, as long as the bus is not
disposed of. -/
theorem unsubscribed {w : World} {i : Instr} {o : Outcome} (hex : Executes w i o)
    (hdispose : i ≠ .disposeBus) (hsub : ∀ topic handler opts, i ≠ .subscribe topic handler opts) :
    o.world.bus.queues = w.bus.queues ∧ ∀ q, o.world.attachments q = w.attachments q := by
  have hinner := inner_exec hex hdispose hsub
  cases hex with
  | disposeBus => exact absurd rfl hdispose
  | publishSuppressed => exact ⟨rfl, fun _ => rfl⟩
  | publish _ hlog hcopies =>
    refine ⟨(Bus.published hlog hcopies).queues, fun q => attachments_of_history rfl fun e he => ?_⟩
    simp only [List.mem_append, List.mem_reverse, List.mem_map, List.mem_singleton, reduceCtorEq,
      or_false, Event.on.injEq] at he
    obtain ⟨t, -, -, rfl⟩ := he
    rfl
  | _ =>
    obtain ⟨hqueues, -, events, hhistory, hevents⟩ := hinner (by simp)
    refine ⟨hqueues, fun q => attachments_of_history hhistory fun e he => ?_⟩
    obtain ⟨q', e', heq, he'⟩ := hevents _ he
    cases heq
    exact QueueEvent.attachedConsumer_of_inner he'

theorem subscribing_eq {w : World} {l : Label} {topic : String} {handler : AckHandler}
    {opts : SubscribeOptions} (hi : w.next l = some (.subscribe topic handler opts)) :
    w.subscribing l =
      [⟨topic, handler, opts, w.bus.keyOf topic opts, w.bus.queueOf topic opts⟩] := by
  rw [subscribing, hi]

theorem subscribing_eq_nil {w : World} {l : Label}
    (h : ∀ topic handler opts, w.next l ≠ some (.subscribe topic handler opts)) :
    w.subscribing l = [] := by
  unfold subscribing
  split
  · rename_i hi
    exact absurd hi (h _ _ _)
  · rfl

end World

/-! ## Queues are keys -/

/-- The registration of a bus that has not been disposed of is the record of its subscriptions. -/
structure Registry (w : World) (subs : List Subscription) : Prop where
  found : ∀ r ∈ subs, w.bus.queues r.key = some r.queue
  known : ∀ key q, w.bus.queues key = some q → ∃ r ∈ subs, r.key = key ∧ r.queue = q
  injective : ∀ r ∈ subs, ∀ s ∈ subs, r.queue = s.queue → r.key = s.key
  named : ∀ r ∈ subs, ∀ id, r.opts.subscriberId = some id → r.key = Bus.key r.topic id
  attachments : ∀ q, w.attachments q = (subs.filter (·.queue = q)).map (·.handler)

/-- **Two subscriptions are attached to one queue if and only if they formed the same key.** -/
theorem Registry.queue_eq_iff {w : World} {subs : List Subscription} (h : Registry w subs)
    {r s : Subscription} (hr : r ∈ subs) (hs : s ∈ subs) : r.queue = s.queue ↔ r.key = s.key := by
  refine ⟨h.injective r hr s hs, fun hkey => ?_⟩
  have hfound := h.found r hr
  rw [hkey, h.found s hs] at hfound
  exact (Option.some.inj hfound).symm

/-- Those who name the same topic and id are attached to one queue. -/
theorem Registry.key_of_sameName {w : World} {subs : List Subscription} (h : Registry w subs)
    {r s : Subscription} (hr : r ∈ subs) (hs : s ∈ subs) (hname : r.SameName s) :
    r.key = s.key := by
  obtain ⟨htopic, id, hid, hid'⟩ := hname
  rw [h.named r hr id hid, h.named s hs id hid', htopic]

/-- Topics without blanks and explicit ids: keys are names. -/
theorem Registry.sameName_of_key {w : World} {subs : List Subscription} (h : Registry w subs)
    {r s : Subscription} (hr : r ∈ subs) (hs : s ∈ subs) (htopic : ' ' ∉ r.topic.toList)
    (htopic' : ' ' ∉ s.topic.toList) {id id' : String} (hid : r.opts.subscriberId = some id)
    (hid' : s.opts.subscriberId = some id') (hkey : r.key = s.key) : r.SameName s := by
  rw [h.named r hr id hid, h.named s hs id' hid'] at hkey
  obtain ⟨ht, rfl⟩ := Bus.key_injective htopic htopic' hkey
  exact ⟨ht, id, hid, hid'⟩

theorem Registry.frame {w w' : World} {subs : List Subscription} (ih : Registry w subs)
    (hqueues : w'.bus.queues = w.bus.queues)
    (hattachments : ∀ q, w'.attachments q = w.attachments q) : Registry w' subs := by
  refine ⟨?_, ?_, ih.injective, ih.named, ?_⟩
  · rw [hqueues]
    exact ih.found
  · rw [hqueues]
    exact ih.known
  · intro q
    rw [hattachments q, ih.attachments q]

namespace World

/-- The bus is not disposed of. -/
def undisposed (p : World × List Subscription) (l : Label) : Prop := p.1.noDispose l

theorem key_of_queue {w : World} {subs : List Subscription} (ih : Registry w subs) (hg : w.Good)
    {topic : String} {handler : AckHandler} {opts : SubscribeOptions} {o : Outcome}
    (hex : Subscribed w topic handler opts o) {r : Subscription} (hr : r ∈ subs)
    (hqueue : r.queue = w.bus.queueOf topic opts) : r.key = w.bus.keyOf topic opts := by
  cases hkey : w.bus.queues (w.bus.keyOf topic opts) with
  | none =>
    have hlt := hg.sound.queues _ _ (ih.found r hr)
    rw [hqueue, (hex.created hkey).1] at hlt
    exact absurd hlt (lt_irrefl _)
  | some q =>
    obtain ⟨s, hs, hskey, hsq⟩ := ih.known _ q hkey
    have hq : w.bus.queueOf topic opts = q := by
      rw [Bus.queueOf, hkey, Option.getD_some]
    rw [← hskey]
    exact ih.injective r hr s hs (by rw [hqueue, hq, hsq])

/-- A `Subscribe` attaches its handler to its queue, and does nothing to the others. -/
theorem attachments_subscribed {w : World} {topic : String} {handler : AckHandler}
    {opts : SubscribeOptions} {o : Outcome} (hex : Subscribed w topic handler opts o)
    (q : QueueRef) : o.world.attachments q =
      (if w.bus.queueOf topic opts = q then [handler] else []) ++ w.attachments q := by
  obtain ⟨events, hevents, hnone⟩ := hex.attached
  have hrest : o.world.attachments q = ([Event.on (w.bus.queueOf topic opts)
      (.attached handler)].filterMap (Event.onQueue q)).filterMap
        QueueEvent.attachedConsumer ++ w.attachments q := by
    rw [attachments, trail, hevents, ← List.singleton_append, List.filterMap_append,
      List.filterMap_append, List.filterMap_append, List.filterMap_append,
      List.filterMap_eq_nil_iff.mpr (hnone q), List.nil_append]
    rfl
  rw [hrest]
  split_ifs with hq
  · simp [Event.onQueue, QueueEvent.attachedConsumer, hq]
  · simp [Event.onQueue, hq]

theorem registry_subscribe {w : World} {subs : List Subscription} (ih : Registry w subs)
    (hg : w.Good) {topic : String} {handler : AckHandler} {opts : SubscribeOptions} {o : Outcome}
    (hex : Subscribed w topic handler opts o) : Registry o.world
      (⟨topic, handler, opts, w.bus.keyOf topic opts, w.bus.queueOf topic opts⟩ :: subs) := by
  refine ⟨?_, ?_, ?_, ?_, ?_⟩
  · intro r hr
    rw [hex.queues, Function.update_apply]
    rcases List.mem_cons.mp hr with rfl | hr
    · rw [if_pos rfl]
    · split_ifs with hkey
      · have hfound := ih.found r hr
        rw [hkey] at hfound
        rw [Bus.queueOf, hfound, Option.getD_some]
      · exact ih.found r hr
  · intro key q hq
    rw [hex.queues, Function.update_apply] at hq
    split_ifs at hq with hkey
    · exact ⟨_, List.mem_cons_self, hkey.symm, Option.some.inj hq⟩
    · obtain ⟨r, hr, hr'⟩ := ih.known key q hq
      exact ⟨r, List.mem_cons_of_mem _ hr, hr'⟩
  · intro r hr s hs hqueue
    rcases List.mem_cons.mp hr with rfl | hr
    · rcases List.mem_cons.mp hs with rfl | hs
      · rfl
      · exact (key_of_queue ih hg hex hs hqueue.symm).symm
    · rcases List.mem_cons.mp hs with rfl | hs
      · exact key_of_queue ih hg hex hr hqueue
      · exact ih.injective r hr s hs hqueue
  · intro r hr id hid
    rcases List.mem_cons.mp hr with rfl | hr
    · change opts.subscriberId = some id at hid
      show w.bus.keyOf topic opts = Bus.key topic id
      rw [Bus.keyOf, Bus.subscriberId, hid]
    · exact ih.named r hr id hid
  · intro q
    rw [attachments_subscribed hex q, ih.attachments q]
    split_ifs with hq <;> simp [hq]

theorem attachments_congr {w w' : World} (hhistory : w'.history = w.history) (q : QueueRef) :
    w'.attachments q = w.attachments q := by
  rw [attachments, trail, hhistory]
  rfl

theorem registry {p : World × List Subscription} (h : ReachIf subscribedMachine undisposed p) :
    Registry p.1 p.2 := by
  refine h.invariant (I := fun p => Registry p.1 p.2) (fun p hp => ?_)
    fun p l p' hr ih hok hstep => ?_
  · obtain ⟨hw, hsubs⟩ := hp
    rw [busMachine_init.mp hw, hsubs]
    exact ⟨by simp, by simp, by simp, by simp, fun q => rfl⟩
  obtain ⟨w, subs⟩ := p
  obtain ⟨w', subs'⟩ := p'
  obtain ⟨hstep, hnotes⟩ := step_recording.mp hstep
  have hs := busMachine_step.mp hstep
  have hg : w.Good := good (hr.forget fun _ _ _ => trivial)
  change w.step l = some w' at hs
  change subs' = w.subscribing l ++ subs at hnotes
  change Registry w subs at ih
  show Registry w' subs'
  by_cases hsub : ∃ topic handler opts, w.next l = some (.subscribe topic handler opts)
  · obtain ⟨topic, handler, opts, hi⟩ := hsub
    obtain ⟨hbus, -, -, -, hhistory⟩ := step_next hs hi
    have hex := subscribed (w.executes (.subscribe topic handler opts))
    rw [subscribing_eq hi] at hnotes
    rw [hnotes]
    exact (registry_subscribe ih hg hex).frame (by rw [hbus]) (attachments_congr hhistory)
  · push Not at hsub
    rw [subscribing_eq_nil hsub, List.nil_append] at hnotes
    rw [hnotes]
    cases hi : w.next l with
    | none =>
      obtain ⟨hbus, -, -, hhistory⟩ := step_idle hs hi
      exact ih.frame (by rw [hbus]) (attachments_congr hhistory)
    | some i =>
      obtain ⟨hbus, -, -, -, hhistory⟩ := step_next hs hi
      obtain ⟨hqueues, hattachments⟩ := unsubscribed (w.executes i)
        (fun heq => hok (heq ▸ hi)) (fun topic handler opts heq => hsub _ _ _ (heq ▸ hi))
      refine ih.frame (by rw [hbus, hqueues]) fun q => ?_
      rw [attachments_congr hhistory]
      exact hattachments q

/-! ## What is placed on a queue was published -/

/-- **Nothing is made up**: what arrives on a queue was published on the queue's topic. -/
theorem arrived_published {w : World} (h : ReachIf busMachine noDispose w) {q : QueueRef}
    {m : BusMessage} {entry : Nat} (hm : .arrived m entry ∈ w.trail q) :
    m.content ∈ publishedOn m.topic w.history := by
  refine h.invariant (I := fun w => ∀ q m entry, .arrived m entry ∈ w.trail q →
    m.content ∈ publishedOn m.topic w.history) (fun w hw => ?_) (fun w l w' hr ih hok hstep => ?_)
    q m entry hm
  · rw [busMachine_init.mp hw]
    intro q m entry hm
    cases hm
  have hs := busMachine_step.mp hstep
  intro q m entry hm
  cases hi : w.next l with
  | none =>
    obtain ⟨-, -, -, hhistory⟩ := step_idle hs hi
    rw [trail, hhistory] at hm
    rw [hhistory]
    exact ih q m entry hm
  | some i =>
    obtain ⟨-, -, -, -, hhistory⟩ := step_next hs hi
    have hdispose : i ≠ .disposeBus := by
      intro heq
      exact hok (heq ▸ hi)
    have hex := w.executes i
    have hgrows : ∀ {topic c}, c ∈ publishedOn topic w.history →
        c ∈ publishedOn topic (w.exec i).world.history := by
      intro topic c hc
      rcases record_exec hex hdispose with ⟨t, _, _, _, _, -, -, logged, -, -, h⟩ | ⟨-, h, -⟩
      · rw [h]
        exact List.mem_append_left _ hc
      · rw [h]
        exact hc
    have hold : .on q (.arrived m entry) ∈ w.history →
        m.content ∈ publishedOn m.topic (w.exec i).world.history :=
      fun hm => hgrows (ih q m entry (mem_trail.mpr hm))
    rw [mem_trail, hhistory] at hm
    rw [hhistory]
    generalize w.exec i = o at hex hm hold hgrows
    cases hex with
    | disposeBus => exact absurd rfl hdispose
    | @publish topic body routingKey options cause logged b₁ b₂ copies _ hlog hcopies =>
      have hp := Bus.published hlog hcopies
      simp only [record, withBus, List.mem_append, List.mem_reverse, List.mem_map,
        Event.on.injEq, QueueEvent.arrived.injEq, List.mem_singleton, reduceCtorEq,
        or_false] at hm
      rcases hm with ⟨t, ht, rfl, rfl, rfl⟩ | hm
      · obtain ⟨htopic, hbody, hkey, hoptions⟩ := hp.contents t ht
        simp only [record, withBus, List.append_assoc, publishedOn_append]
        refine List.mem_append_right _ (List.mem_append_left _ ?_)
        simp [publishedOn, Event.contentOn, BusMessage.content, htopic, hbody, hkey, hoptions]
      · exact hold hm
    | @subscribeNew topic id handler opts b₁ b₂ b₃ seeded hid _ hb₂ hseeded =>
      simp only [record, withBus, List.cons_append, List.mem_cons, List.mem_append,
        List.mem_reverse, List.mem_map, Event.on.injEq, reduceCtorEq, and_false, false_or] at hm
      rcases hm with ⟨t, ht, rfl, heq⟩ | hm
      · -- What the queue is seeded with are copies of log entries.
        have hlogged : ∀ logged ∈ b₂.backlog topic b₁.nextQueue opts,
            logged.content ∈ publishedOn topic w.history :=
          fun logged hmem => published_of_backlog hr hid hb₂ hmem
        have hcontents := Bus.content_replay hseeded
          fun logged hmem => topic_of_publishedOn (hlogged logged hmem)
        have hmem : t.1.content ∈ seeded.map fun t => t.1.content := List.mem_map_of_mem ht
        rw [hcontents] at hmem
        obtain ⟨logged, hmem, hcontent⟩ := List.mem_map.mp hmem
        have hpublished := hgrows (hlogged logged hmem)
        rw [hcontent, (QueueEvent.arrived.inj heq).1] at hpublished
        have htopic : m.topic = topic := topic_of_publishedOn hpublished
        rw [htopic]
        exact hpublished
      · exact hold hm
    | dispose => exact hold (by simpa [record, withBus] using hm)
    | _ =>
      apply hold
      first
        | exact hm
        | simpa [record, withBus, release, deliver] using hm

/-! ## The condition -/

/-- The bus is not disposed of, and a `Subscribe` forms a key that an earlier one formed only where
both name the same topic and id, and then asks for nothing the queue's filter refuses. -/
def keepsIdentity (p : World × List Subscription) (l : Label) : Prop :=
  p.1.noDispose l ∧ ∀ s ∈ p.1.subscribing l, ∀ r ∈ p.2, r.key = s.key →
    r.SameName s ∧ ∀ key, s.accepts key = true → (p.1.bus.queue s.queue).matches key = true

/-- What the condition gives of the subscriptions made so far. -/
structure Named (w : World) (subs : List Subscription) : Prop where
  names : subs.Pairwise fun r s => r.key = s.key → r.SameName s
  topic : ∀ r ∈ subs, (w.bus.queue r.queue).topic = r.topic
  accepts : ∀ r ∈ subs, ∀ key, r.accepts key = true → (w.bus.queue r.queue).matches key = true

theorem named {p : World × List Subscription} (h : ReachIf subscribedMachine keepsIdentity p) :
    Named p.1 p.2 := by
  refine h.invariant (I := fun p => Named p.1 p.2) (fun p hp => ?_)
    fun p l p' hr ih hok hstep => ?_
  · rw [hp.2]
    exact ⟨.nil, by simp, by simp⟩
  obtain ⟨w, subs⟩ := p
  obtain ⟨w', subs'⟩ := p'
  obtain ⟨hstep, hnotes⟩ := step_recording.mp hstep
  have hs := busMachine_step.mp hstep
  have hg : w.Good := good (hr.forget fun _ _ _ => trivial)
  have hregistry : Registry w subs := registry (hr.mono fun _ _ hok => hok.1)
  change w.step l = some w' at hs
  change subs' = w.subscribing l ++ subs at hnotes
  change Named w subs at ih
  show Named w' subs'
  have hkept : ∀ r ∈ subs, (w'.bus.queue r.queue).topic = (w.bus.queue r.queue).topic ∧
      ∀ key, (w'.bus.queue r.queue).matches key = (w.bus.queue r.queue).matches key := by
    intro r hr
    rw [options_step hg hs (hg.sound.queues _ _ (hregistry.found r hr))]
    exact ⟨rfl, fun _ => rfl⟩
  have htopic : ∀ r ∈ subs, (w'.bus.queue r.queue).topic = r.topic := fun r hr =>
    (hkept r hr).1.trans (ih.topic r hr)
  have haccepts : ∀ r ∈ subs, ∀ key, r.accepts key = true →
      (w'.bus.queue r.queue).matches key = true := fun r hr key hkey =>
    ((hkept r hr).2 key).trans (ih.accepts r hr key hkey)
  by_cases hsub : ∃ topic handler opts, w.next l = some (.subscribe topic handler opts)
  · obtain ⟨topic, handler, opts, hi⟩ := hsub
    rw [subscribing_eq hi] at hnotes
    subst hnotes
    have hnew := hok.2 _ (by rw [subscribing_eq hi]; exact List.mem_singleton.mpr rfl)
    obtain ⟨hbus, -⟩ := step_next hs hi
    have hex := subscribed (w.executes (.subscribe topic handler opts))
    have hfirst : (w'.bus.queue (w.bus.queueOf topic opts)).topic = topic ∧
        ∀ key, (Bus.newQueue topic opts).matches key = true →
          (w'.bus.queue (w.bus.queueOf topic opts)).matches key = true := by
      cases hkey : w.bus.queues (w.bus.keyOf topic opts) with
      | none =>
        obtain ⟨hqueue, -, htopic, hmatches⟩ := hex.created hkey
        rw [hqueue, hbus]
        exact ⟨htopic, fun key h => (hmatches key).trans h⟩
      | some q =>
        obtain ⟨r, hr, hrkey, rfl⟩ := hregistry.known _ q hkey
        have hqueue : w.bus.queueOf topic opts = r.queue := by
          rw [Bus.queueOf, hkey, Option.getD_some]
        obtain ⟨hname, hfilter⟩ := hnew r hr hrkey
        rw [hqueue]
        refine ⟨(htopic r hr).trans hname.1, fun key h => ?_⟩
        have hmatches := hfilter key h
        rw [hqueue] at hmatches
        exact ((hkept r hr).2 key).trans hmatches
    refine ⟨List.pairwise_cons.mpr ⟨fun r hr hkey => ?_, ih.names⟩, ?_, ?_⟩
    · exact (hnew r hr hkey.symm).1.symm
    · exact List.forall_mem_cons.mpr ⟨hfirst.1, htopic⟩
    · exact List.forall_mem_cons.mpr ⟨hfirst.2, haccepts⟩
  · push Not at hsub
    rw [subscribing_eq_nil hsub, List.nil_append] at hnotes
    subst hnotes
    exact ⟨ih.names, htopic, haccepts⟩

/-! ## Identity -/

theorem arrived_of_handed {w : World} (hg : w.Good) {q : QueueRef} {m : BusMessage}
    {c : AckHandler} {n : Int32} (hm : .handed m c n ∈ w.trail q) :
    ∃ entry, .arrived m entry ∈ w.trail q := by
  have hsum := Lane.handings_add_building (hg.lane q) m
  have hhanded : 0 < handings m (w.lane q).trail := handings_pos.mpr ⟨c, n, hm⟩
  obtain ⟨c', d, hd⟩ := deliveries_pos.mp (show 0 < deliveries m (w.lane q).trail by omega)
  exact (Lane.located (hg.lane q)).arrived m (place_ne_absent hd rfl)

/-- Play a list of labels beside the record. -/
def playSubscribed (ls : List Label) : World × List Subscription :=
  Machine.play (recordStep step subscribing) ({}, []) ls

theorem reach_playSubscribed (ls : List Label) : Reach subscribedMachine (playSubscribed ls) :=
  Machine.reach_play (recordStep_step fun _ _ _ => id) ⟨rfl, rfl⟩ ls

/-- Two subscribers of one topic. -/
def twoNames : List Label :=
  [.call (.subscribe "t" ⟨0⟩ { subscriberId := some "a" }), .run 0,
    .call (.subscribe "t" ⟨1⟩ { subscriberId := some "b" }), .run 1]

/-- A blank in a topic, and one in a subscriber id. -/
def blankNames : List Label :=
  [.call (.subscribe "a b" ⟨0⟩ { subscriberId := some "c" }), .run 0,
    .call (.subscribe "a" ⟨1⟩ { subscriberId := some "b c" }), .run 1]

end World

end MessagingPoc
