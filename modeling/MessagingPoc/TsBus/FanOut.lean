import MessagingPoc.TsBus.Steps

/-!
# Who is given what

A queue is given a message of its own for everything that is published on its topic from its
creation on and passes its filter, in the order of the publishes; and, if it replays the stream, for
all that was published before as well. `FansOut` says it of a stretch of the run, and composes.
-/

namespace MessagingPoc.TsBus

open Machine CompetingConsumers

/-- What is published, and what a subscriber gets to see of it. -/
structure Content where
  topic : String
  body : String
  routingKey : String
  options : PublishOptions
deriving DecidableEq

def BusMessage.content (m : BusMessage) : Content :=
  ⟨m.topic, m.body, m.routingKey, m.toPublishOptions⟩

/-- What arrived on a queue, the earliest first. -/
def arrivedIn (q : QueueRef) (events : List Event) : List Content :=
  events.reverse.filterMap fun
    | .on q' (.arrive m) => if q' = q then some m.content else none
    | _ => none

/-- What was published on a topic, the earliest first. -/
def publishedIn (topic : String) (events : List Event) : List Content :=
  events.reverse.filterMap fun
    | .published t body key options _ => if t = topic then some ⟨t, body, key, options⟩ else none
    | _ => none

@[simp] theorem arrivedIn_append (q : QueueRef) (newer older : List Event) :
    arrivedIn q (newer ++ older) = arrivedIn q older ++ arrivedIn q newer := by
  simp [arrivedIn]

@[simp] theorem publishedIn_append (topic : String) (newer older : List Event) :
    publishedIn topic (newer ++ older) = publishedIn topic older ++ publishedIn topic newer := by
  simp [publishedIn]

/-- A filter of what is published: what reaches the queue. -/
def BusQueue.passing (Q : BusQueue) (contents : List Content) : List Content :=
  contents.filter fun c => Q.matches c.routingKey

namespace World

variable {w w' w'' : World} {q : QueueRef} {events events' : List Event}

theorem SameRules.passing {Q Q' : BusQueue} (h : SameRules Q Q') (contents : List Content) :
    Q'.passing contents = Q.passing contents := by
  rw [h]
  rfl

/-- A stretch of a run, and what it records: it brings the queues what is published meanwhile. -/
structure FansOut (w w' : World) (events : List Event) : Prop where
  history : w'.history = events ++ w.history
  streamLog : ∀ topic, (w'.streamLog topic).map BusMessage.content =
    (w.streamLog topic).map BusMessage.content ++ publishedIn topic events
  byTopic : w'.byTopic = w.byTopic
  nextQueue : w'.nextQueue = w.nextQueue
  rules : ∀ q, SameRules (w.queue q) (w'.queue q)
  arrived : ∀ q, arrivedIn q events =
    if q < w.nextQueue then (w.queue q).passing (publishedIn (w.queue q).topic events) else []

theorem FansOut.trans (h : FansOut w w' events) (h' : FansOut w' w'' events') :
    FansOut w w'' (events' ++ events) where
  history := by rw [h'.history, h.history, List.append_assoc]
  streamLog topic := by
    rw [h'.streamLog, h.streamLog, publishedIn_append, List.append_assoc]
  byTopic := h'.byTopic.trans h.byTopic
  nextQueue := h'.nextQueue.trans h.nextQueue
  rules q := (h.rules q).trans (h'.rules q)
  arrived q := by
    rw [arrivedIn_append, h.arrived, h'.arrived, h.nextQueue, (h.rules q).topic,
      (h.rules q).passing, publishedIn_append]
    split_ifs
    · simp [BusQueue.passing]
    · rfl

/-- Acts that bring no message. -/
def Silent (events : List Event) : Prop := ∀ e ∈ events, ∃ q a, e = .on q a ∧ ∀ m, a ≠ .arrive m

theorem Silent.arrivedIn (h : Silent events) (q : QueueRef) : arrivedIn q events = [] := by
  rw [TsBus.arrivedIn, List.filterMap_eq_nil_iff]
  intro e he
  obtain ⟨q', a, rfl, ha⟩ := h e (List.mem_reverse.mp he)
  cases a with
  | arrive m => exact absurd rfl (ha m)
  | _ => rfl

theorem Silent.publishedIn (h : Silent events) (topic : String) :
    publishedIn topic events = [] := by
  rw [TsBus.publishedIn, List.filterMap_eq_nil_iff]
  intro e he
  obtain ⟨q, a, rfl, -⟩ := h e (List.mem_reverse.mp he)
  rfl

/-- A stretch that publishes nothing and brings nothing. -/
theorem Silent.fansOut (h : Silent events) (history : w'.history = events ++ w.history)
    (streamLog : w'.streamLog = w.streamLog) (byTopic : w'.byTopic = w.byTopic)
    (nextQueue : w'.nextQueue = w.nextQueue)
    (rules : ∀ q, SameRules (w.queue q) (w'.queue q)) : FansOut w w' events := by
  refine ⟨history, fun topic => ?_, byTopic, nextQueue, rules, fun q => ?_⟩
  · rw [streamLog, h.publishedIn, List.append_nil]
  · rw [h.arrivedIn, h.publishedIn]
    simp [BusQueue.passing]

theorem silent_nil : Silent [] := fun _ h => absurd h List.not_mem_nil

theorem silent_singleton {a : Act BusMessage AckHandler} (ha : ∀ m, a ≠ .arrive m) :
    Silent [.on q a] := by
  intro e he
  exact ⟨q, a, List.mem_singleton.mp he, ha⟩

/-- A change that concerns neither queues nor topics. -/
theorem fansOut_aside (history : w'.history = w.history) (streamLog : w'.streamLog = w.streamLog)
    (byTopic : w'.byTopic = w.byTopic) (nextQueue : w'.nextQueue = w.nextQueue)
    (queue : w'.queue = w.queue) : FansOut w w' [] :=
  silent_nil.fansOut history streamLog byTopic nextQueue fun q => by rw [queue]; exact .refl _

theorem fansOut_armExpiry (w : World) (q : QueueRef) (m : BusMessage) :
    FansOut w (w.arm (.expiry q m)) [] := fansOut_aside rfl rfl rfl rfl rfl

theorem rules_update {Q : BusQueue} (h : SameRules (w.queue q) Q) (q' : QueueRef) :
    SameRules (w.queue q') (Function.update w.queue q Q q') := by
  by_cases hq : q' = q
  · subst hq
    rwa [Function.update_self]
  · rw [Function.update_of_ne hq]
    exact .refl _

theorem fansOut_act {a : Act BusMessage AckHandler} {Q : BusQueue} (h : SameRules (w.queue q) Q)
    (ha : ∀ m, a ≠ .arrive m) : FansOut w (w.act q a Q) [.on q a] :=
  (silent_singleton ha).fansOut rfl rfl rfl rfl (rules_update h)

theorem Good.fansOut_pumpLoop (hg : Good w) (hq : q < w.nextQueue) (n : Nat) :
    ∃ events, Silent events ∧ FansOut w (pumpLoop q n w) events := by
  induction n generalizing w with
  | zero => exact ⟨[], silent_nil, fansOut_aside rfl rfl rfl rfl rfl⟩
  | succ n ih =>
    rw [pumpLoop]
    rcases hnext : (w.queue q).next with ⟨_ | ⟨m, c⟩, Q⟩
    · have hs := BusQueue.next_none (hg.counter q) hnext
      have hrules : SameRules (w.queue q) Q := by rw [SameRules, hs.frame]
      exact ⟨[], silent_nil, silent_nil.fansOut rfl rfl rfl rfl (rules_update hrules)⟩
    · obtain ⟨hc, -⟩ := BusQueue.next_some (hg.counter q) hnext
      have hrules : SameRules (w.queue q) { Q with inflight := Q.inflight.set m c } := by
        rw [SameRules, hc.frame]
      have hsilent : Silent [Event.on q (.deliver m c)] := silent_singleton (by simp)
      have hfirst : FansOut w (w.deliver q Q m c) [.on q (.deliver m c)] :=
        hsilent.fansOut rfl rfl rfl rfl (rules_update hrules)
      obtain ⟨events, hrest, hfans⟩ := ih (hg.turns (Turn.deliver hq hnext).turns) hq
      refine ⟨_, fun e he => ?_, hfirst.trans hfans⟩
      rcases List.mem_append.mp he with he | he
      · exact hrest e he
      · exact hsilent e he

theorem Good.fansOut_pump (hg : Good w) (hq : q < w.nextQueue) :
    ∃ events, Silent events ∧ FansOut w (w.pump q) events := hg.fansOut_pumpLoop hq _

/-! ## `publish` -/

/-- A stretch that brings contents to the queues listed, as far as they pass their filters. -/
structure Brings (contents : List Content) (queues : List QueueRef) (w w' : World)
    (events : List Event) : Prop where
  history : w'.history = events ++ w.history
  streamLog : w'.streamLog = w.streamLog
  byTopic : w'.byTopic = w.byTopic
  nextQueue : w'.nextQueue = w.nextQueue
  rules : ∀ q, SameRules (w.queue q) (w'.queue q)
  published : ∀ topic, publishedIn topic events = []
  arrived : ∀ q, arrivedIn q events = if q ∈ queues then (w.queue q).passing contents else []

variable {contents contents' : List Content} {queues : List QueueRef}

theorem Brings.silent (h : Brings contents queues w w' events) (hf : FansOut w' w'' events')
    (hsilent : Silent events') (hlog : w''.streamLog = w'.streamLog) :
    Brings contents queues w w'' (events' ++ events) where
  history := by rw [hf.history, h.history, List.append_assoc]
  streamLog := hlog.trans h.streamLog
  byTopic := hf.byTopic.trans h.byTopic
  nextQueue := hf.nextQueue.trans h.nextQueue
  rules q := (h.rules q).trans (hf.rules q)
  published topic := by rw [publishedIn_append, h.published, hsilent.publishedIn]; rfl
  arrived q := by rw [arrivedIn_append, h.arrived, hsilent.arrivedIn, List.append_nil]

theorem Brings.append (h : Brings contents queues w w' events)
    (h' : Brings contents' queues w' w'' events') :
    Brings (contents ++ contents') queues w w'' (events' ++ events) where
  history := by rw [h'.history, h.history, List.append_assoc]
  streamLog := h'.streamLog.trans h.streamLog
  byTopic := h'.byTopic.trans h.byTopic
  nextQueue := h'.nextQueue.trans h.nextQueue
  rules q := (h.rules q).trans (h'.rules q)
  published topic := by rw [publishedIn_append, h.published, h'.published]; rfl
  arrived q := by
    rw [arrivedIn_append, h.arrived, h'.arrived, (h.rules q).passing]
    split_ifs
    · simp [BusQueue.passing]
    · rfl

/-- Nothing that passes a filter is brought. -/
theorem brings_nothing (h : ∀ q ∈ queues, (w.queue q).passing contents = []) :
    Brings contents queues w w [] := by
  refine ⟨rfl, rfl, rfl, rfl, fun _ => .refl _, fun _ => rfl, fun q => ?_⟩
  split_ifs with hq
  · rw [h q hq]
    rfl
  · rfl

theorem streamLog_pumpLoop (q : QueueRef) (n : Nat) (w : World) :
    (pumpLoop q n w).streamLog = w.streamLog := by
  induction n generalizing w with
  | zero => rfl
  | succ n ih =>
    rw [pumpLoop]
    split
    · rfl
    · exact ih _

theorem Good.brings_enqueueTo (hg : Good w) (topic body key : String) (options : PublishOptions)
    (hq : q < w.nextQueue) : ∃ events,
      Brings [⟨topic, body, key, options⟩] [q] w (enqueueTo topic body key options w q) events := by
  let m : BusMessage := ⟨options, w.nextRef, s!"mem-bus-{w.nextSeq.seq}", topic, body, key⟩
  have harrive := (Turn.arrive (w := w) (m := m) w.nextSeq.seq hq rfl).turns
  have hbrings : (w.queue q).matches key = true → Brings [⟨topic, body, key, options⟩] [q] w
      ({ w with seq := w.nextSeq.seq, nextRef := w.nextRef + 1 }.push q m (.arrive m))
      [.on q (.arrive m)] := by
    intro hmatch
    refine ⟨rfl, rfl, rfl, rfl, rules_update (by rw [SameRules]), fun _ => rfl, fun q' => ?_⟩
    by_cases hqq : q' = q
    · subst hqq
      simp [arrivedIn, BusQueue.passing, m, BusMessage.content, hmatch]
    · simp [arrivedIn, hqq, Ne.symm hqq]
  simp only [enqueueTo, newMessage]
  split_ifs with hmatch httl
  · have hturns := harrive.trans (turns_armExpiry (q := q) (m := m))
    obtain ⟨events, hsilent, hfans⟩ := (hg.turns hturns).fansOut_pump hq
    exact ⟨_, (hbrings hmatch).silent ((fansOut_armExpiry _ q m).trans hfans)
      (by simpa using hsilent) (streamLog_pumpLoop q _ _)⟩
  · obtain ⟨events, hsilent, hfans⟩ := (hg.turns harrive).fansOut_pump hq
    exact ⟨_, (hbrings hmatch).silent hfans hsilent (streamLog_pumpLoop q _ _)⟩
  · exact ⟨[], brings_nothing (by simp [BusQueue.passing, hmatch])⟩

theorem Good.brings_enqueueAll (hg : Good w) (topic body key : String) (options : PublishOptions)
    {queues : List QueueRef} (hqueues : ∀ q ∈ queues, q < w.nextQueue) (hnodup : queues.Nodup) :
    ∃ events, Brings [⟨topic, body, key, options⟩] queues w
      (queues.foldl (enqueueTo topic body key options) w) events := by
  induction queues generalizing w with
  | nil => exact ⟨[], brings_nothing (by simp)⟩
  | cons q queues ih =>
    obtain ⟨hq, hnodup⟩ := List.nodup_cons.mp hnodup
    have hlt := hqueues q List.mem_cons_self
    have hturns := turns_enqueueTo topic body key options hlt
    obtain ⟨first, h⟩ := hg.brings_enqueueTo topic body key options hlt
    obtain ⟨rest, h'⟩ := ih (hg.turns hturns) (fun x hx =>
      (hqueues x (List.mem_cons_of_mem q hx)).trans_le (nextQueue_le hturns)) hnodup
    refine ⟨rest ++ first, ?_, h'.streamLog.trans h.streamLog, h'.byTopic.trans h.byTopic,
      h'.nextQueue.trans h.nextQueue, fun x => (h.rules x).trans (h'.rules x), fun t => ?_,
      fun x => ?_⟩
    · rw [List.foldl_cons, h'.history, h.history, List.append_assoc]
    · rw [publishedIn_append, h.published, h'.published]
      rfl
    · rw [arrivedIn_append, h.arrived, h'.arrived, (h.rules x).passing]
      by_cases hx : x = q
      · subst hx
        simp [hq]
      · simp [hx]

/-- The queues of a topic are those that were created for it. -/
def Registered (w : World) : Prop :=
  ∀ topic q, q ∈ (w.byTopic topic).items ↔ q < w.nextQueue ∧ (w.queue q).topic = topic

theorem FansOut.registered (h : FansOut w w' events) (hr : Registered w) : Registered w' := by
  intro topic q
  rw [h.byTopic, h.nextQueue, (h.rules q).topic]
  exact hr topic q

theorem Good.fansOut_publish (hg : Good w) (hr : Registered w) (topic body : String)
    (routingKey : Option String) (options : Option PublishOptions) (cause : Cause)
    (hcause : cause.Due w topic body (routingKey.getD topic) (options.getD {})) :
    ∃ events, FansOut w (w.publish topic body routingKey options cause) events := by
  unfold publish
  dsimp only
  split_ifs
  · exact ⟨[], fansOut_aside rfl rfl rfl rfl rfl⟩
  · set opts := options.getD {}
    set key := routingKey.getD topic
    have hturns := turns_recorded topic body key opts hcause
    set w₁ := ((w.seeDedupId opts).appendLog topic body key opts).record
      [.published topic body key opts cause] with hw₁
    obtain ⟨hhistory, hlog, hbyTopic, hnext, hqueue⟩ : (w.seeDedupId opts).history = w.history ∧
        (w.seeDedupId opts).streamLog = w.streamLog ∧ (w.seeDedupId opts).byTopic = w.byTopic ∧
        (w.seeDedupId opts).nextQueue = w.nextQueue ∧ (w.seeDedupId opts).queue = w.queue := by
      unfold seeDedupId
      split <;> exact ⟨rfl, rfl, rfl, rfl, rfl⟩
    have hbyTopic₁ : w₁.byTopic = w.byTopic := hbyTopic
    have hnext₁ : w₁.nextQueue = w.nextQueue := hnext
    have hqueue₁ : w₁.queue = w.queue := hqueue
    obtain ⟨events, h⟩ := (hg.turns hturns).brings_enqueueAll topic body key opts
      (fun q hq => (hg.turns hturns).byTopic topic q hq) (w₁.byTopic topic).nodup
    refine ⟨events ++ [.published topic body key opts cause], ?_, fun t => ?_,
      h.byTopic.trans hbyTopic₁, h.nextQueue.trans hnext₁, fun q => ?_, fun q => ?_⟩
    · rw [h.history, hw₁, List.append_assoc]
      exact congrArg (fun x => events ++ ([_] ++ x)) hhistory
    · rw [h.streamLog, publishedIn_append, h.published, List.append_nil]
      by_cases ht : t = topic
      · subst ht
        simp [hw₁, appendLog, record, newMessage, nextSeq, publishedIn, BusMessage.content, hlog]
      · simp [hw₁, appendLog, record, newMessage, nextSeq, publishedIn, ht, Ne.symm ht, hlog]
    · exact hqueue₁ ▸ h.rules q
    · have hnone : arrivedIn q [.published topic body key opts cause] = [] := rfl
      rw [arrivedIn_append, hnone, List.nil_append, h.arrived, publishedIn_append, h.published,
        List.append_nil, hbyTopic₁, hqueue₁]
      by_cases hq : q < w.nextQueue
      · by_cases ht : (w.queue q).topic = topic
        · rw [if_pos ((hr topic q).mpr ⟨hq, ht⟩), if_pos hq, ht]
          simp [publishedIn]
        · rw [if_neg fun hmem => ht ((hr topic q).mp hmem).2, if_pos hq]
          simp [publishedIn, BusQueue.passing, Ne.symm ht]
      · rw [if_neg fun hmem => hq ((hr topic q).mp hmem).1, if_neg hq]

/-! ## The other methods -/

theorem fansOut_giveBacks (q : QueueRef) (ms : List BusMessage) (w : World) :
    ∃ events, FansOut w (ms.foldl (giveBack q) w) events := by
  induction ms generalizing w with
  | nil => exact ⟨[], fansOut_aside rfl rfl rfl rfl rfl⟩
  | cons m ms ih =>
    obtain ⟨events, h⟩ := ih (giveBack q w m)
    have hfirst : FansOut w (giveBack q w m) [.on q (.giveBack m)] :=
      fansOut_act (by rw [SameRules]) (by simp)
    exact ⟨_, hfirst.trans h⟩

theorem Good.fansOut_unsubscribe (hg : Good w) (hq : q < w.nextQueue) (c : AckHandler) :
    ∃ events, FansOut w (w.unsubscribe q c) events := by
  have hturns := turns_left (c := c) hq
  obtain ⟨back, hback⟩ := fansOut_giveBacks q ((w.queue q).heldBy c) w
  obtain ⟨pumped, -, hpump⟩ := (hg.turns hturns).fansOut_pump (hq.trans_le (nextQueue_le hturns))
  rw [unsubscribe_eq]
  exact ⟨_, (hback.trans (fansOut_act (by rw [SameRules]) (by simp))).trans hpump⟩

theorem fansOut_release {m : BusMessage} {a : Act BusMessage AckHandler}
    (ha : ∀ m, a ≠ .arrive m) : FansOut w (w.release q m a) [.on q a] :=
  fansOut_act (by rw [SameRules]) ha

theorem Good.fansOut_deadLetter (hg : Good w) (hr : Registered w) {m : BusMessage}
    (h : w.history.head? = some (.on q (.settle m))) :
    ∃ events, FansOut w (w.deadLetter q m) events := by
  unfold deadLetter
  split_ifs with hdead
  · exact hg.fansOut_publish hr _ _ _ _ (.deadLetter q m) ⟨h, hdead, rfl, rfl, rfl, rfl⟩
  · exact ⟨[], fansOut_aside rfl rfl rfl rfl rfl⟩

theorem Good.fansOut_settle (hg : Good w) (hr : Registered w) (i : Handle)
    (resolved : BusQueue.Settlement) : ∃ events, FansOut w (w.settle i resolved) events := by
  unfold settle
  dsimp only
  split_ifs with hheld
  · exact ⟨[], fansOut_aside rfl rfl rfl rfl rfl⟩
  · rw [not_not] at hheld
    have hq := hg.used (hg.arrived_of_held hheld)
    have hsettle := (Turn.settle hheld).turns
    have hreleased : FansOut w (w.release i.queue i.message (.settle i.message))
        [.on i.queue (.settle i.message)] := fansOut_release (by simp)
    cases hresolve : (w.queue i.queue).resolve (w.deliveryCount i.message.ref) resolved with
    | acked =>
      obtain ⟨events, -, hpump⟩ := (hg.turns hsettle).fansOut_pump hq
      exact ⟨_, hreleased.trans hpump⟩
    | dead =>
      have hdead := hsettle.trans ((hg.turns hsettle).turns_deadLetter rfl)
      obtain ⟨copied, hcopied⟩ :=
        (hg.turns hsettle).fansOut_deadLetter (hreleased.registered hr) rfl
      obtain ⟨events, -, hpump⟩ := (hg.turns hdead).fansOut_pump (hq.trans_le (nextQueue_le hdead))
      exact ⟨_, (hreleased.trans hcopied).trans hpump⟩
    | parked =>
      have hpark := (Turn.park hheld (BusQueue.retry_of_resolve hresolve (.inl rfl))).turns
      obtain ⟨events, -, hpump⟩ := (hg.turns hpark).fansOut_pump hq
      have hparked : FansOut w ((w.release i.queue i.message (.park i.message)).arm
          (.retry i.queue i.message)) [.on i.queue (.park i.message)] :=
        (silent_singleton (by simp)).fansOut rfl rfl rfl rfl (rules_update (by rw [SameRules]))
      exact ⟨_, hparked.trans hpump⟩
    | requeued =>
      have hrequeue := (Turn.requeue hheld (BusQueue.retry_of_resolve hresolve (.inr rfl))).turns
      obtain ⟨events, -, hpump⟩ := (hg.turns hrequeue).fansOut_pump hq
      exact ⟨_, (fansOut_act (by rw [SameRules]) (by simp)).trans hpump⟩

theorem Good.fansOut_settleHandle (hg : Good w) (hr : Registered w) (n : Nat)
    (resolved : BusQueue.Settlement) : ∃ events, FansOut w (w.settleHandle n resolved) events := by
  unfold settleHandle
  cases w.handles[n]? with
  | none => exact ⟨[], fansOut_aside rfl rfl rfl rfl rfl⟩
  | some i =>
    obtain ⟨events, h⟩ := hg.fansOut_settle hr i resolved
    exact ⟨_, h.trans (fansOut_aside rfl rfl rfl rfl rfl)⟩

theorem Good.fansOut_expire (hg : Good w) (hr : Registered w) (q : QueueRef) (m : BusMessage) :
    ∃ events, FansOut w (w.expire q m) events := by
  unfold expire
  dsimp only
  split_ifs with hpending hheld
  · have hexpired : FansOut w (w.act q (.expire m)
        { w.queue q with pending := (w.queue q).pending.erase m }) [.on q (.expire m)] :=
      fansOut_act (by rw [SameRules]) (by simp)
    obtain ⟨copied, hcopied⟩ := (hg.turns (Turn.expirePending hpending).turns).fansOut_publish
      (hexpired.registered hr) (expiryAddress (w.queue q).topic) m.body (some m.routingKey) none
      (.expiry q m) (due_expired w rfl)
    exact ⟨_, hexpired.trans hcopied⟩
  · obtain ⟨c, hc⟩ := Option.isSome_iff_exists.mp hheld
    have hexpired : FansOut w (w.release q m (.expire m)) [.on q (.expire m)] :=
      fansOut_release (by simp)
    obtain ⟨copied, hcopied⟩ := (hg.turns (Turn.expireHeld hc).turns).fansOut_publish
      (hexpired.registered hr) (expiryAddress (w.queue q).topic) m.body (some m.routingKey) none
      (.expiry q m) (due_expired w rfl)
    exact ⟨_, hexpired.trans hcopied⟩
  · exact ⟨[], fansOut_aside rfl rfl rfl rfl rfl⟩

theorem Good.fansOut_retry (hg : Good w) {n : Nat} {m : BusMessage}
    (ht : w.timers[n]? = some (.retry q m)) :
    ∃ events, FansOut w ({ w with timers := w.timers.eraseIdx n }.retry q m) events := by
  have hq := hg.used (hg.arrived_of_parked (List.mem_of_getElem? ht))
  obtain ⟨events, -, hpump⟩ := (hg.turns (Turn.unpark ht).turns).fansOut_pump hq
  have hunpark : FansOut w ({ w with timers := w.timers.eraseIdx n }.push q m (.unpark m))
      [.on q (.unpark m)] :=
    (silent_singleton (by simp)).fansOut rfl rfl rfl rfl (rules_update (by rw [SameRules]))
  exact ⟨_, hunpark.trans hpump⟩

/-! ## Creation -/

theorem brings_seed (w : World) (q : QueueRef) (m : BusMessage) :
    ∃ events, Brings [m.content] [q] w (seed q w m) events := by
  unfold seed
  split_ifs with hmatch
  · refine ⟨[.on q (.arrive { m with ref := w.nextRef })], rfl, rfl, rfl, rfl,
      rules_update (by rw [SameRules]), fun _ => rfl, fun q' => ?_⟩
    by_cases hq : q' = q
    · subst hq
      simp [arrivedIn, BusQueue.passing, BusMessage.content, hmatch]
    · simp [arrivedIn, hq, Ne.symm hq]
  · exact ⟨[], brings_nothing (by simp [BusQueue.passing, BusMessage.content, hmatch])⟩

/-- What a queue that replays the stream is given when it is created. -/
theorem brings_seedAll (q : QueueRef) (log : List BusMessage) (w : World) :
    ∃ events, Brings (log.map BusMessage.content) [q] w (log.foldl (seed q) w) events := by
  induction log generalizing w with
  | nil => exact ⟨[], brings_nothing (by simp [BusQueue.passing])⟩
  | cons m log ih =>
    obtain ⟨first, h⟩ := brings_seed w q m
    obtain ⟨rest, h'⟩ := ih (seed q w m)
    exact ⟨_, h.append h'⟩

/-! ## Every queue of a run -/

/-- What a queue was given, from its creation on. -/
def Given (w : World) (q : QueueRef) : Prop :=
  ∃ newer topic options older, w.history = newer ++ .created q topic options :: older ∧
    SameRules (newQueue topic options) (w.queue q) ∧
    arrivedIn q w.history = (w.queue q).passing
      ((if options.streamReplay.getD false then publishedIn topic older else []) ++
        publishedIn topic newer)

structure FannedOut (w : World) : Prop where
  registered : Registered w
  streamLog : ∀ topic, (w.streamLog topic).map BusMessage.content = publishedIn topic w.history
  given : ∀ q < w.nextQueue, w.Given q

theorem FannedOut.fansOut (hf : FannedOut w) (h : FansOut w w' events) : FannedOut w' where
  registered := h.registered hf.registered
  streamLog topic := by rw [h.streamLog, hf.streamLog, h.history, publishedIn_append]
  given q hq := by
    rw [h.nextQueue] at hq
    obtain ⟨newer, topic, options, older, hsplit, hrules, harrived⟩ := hf.given q hq
    have htopic : (w.queue q).topic = topic := hrules.topic
    refine ⟨events ++ newer, topic, options, older, ?_, hrules.trans (h.rules q), ?_⟩
    · rw [h.history, hsplit, List.append_assoc]
    · rw [h.history, arrivedIn_append, harrived, h.arrived, if_pos hq, (h.rules q).passing, htopic,
        publishedIn_append, ← List.append_assoc]
      simp [BusQueue.passing]

theorem arrivedIn_history (w : World) (q : QueueRef) :
    arrivedIn q w.history = (w.view q).arrived.map BusMessage.content := by
  show _ = ((w.history.filterMap (Event.onQueue q)).reverse.filterMap _).map _
  rw [← List.filterMap_reverse, List.filterMap_filterMap, List.map_filterMap, arrivedIn]
  refine List.filterMap_congr fun e _ => ?_
  cases e with
  | on q' a =>
    by_cases hq : q' = q
    · cases a <;> simp [Event.onQueue, hq]
    · cases a <;> simp [Event.onQueue, hq]
  | published | created => rfl

theorem Good.arrivedIn_unused (hg : Good w) (hq : w.nextQueue ≤ q) :
    arrivedIn q w.history = [] := by
  rw [arrivedIn_history, hg.unused q hq]
  rfl

theorem Good.fannedOut_createQueue (hg : Good w) (hf : FannedOut w) (topic key : String)
    (options : SubscribeOptions)
    (h : ∃ events, Brings (if options.streamReplay.getD false then
      ((w.createQueue topic key options).streamLog topic).map BusMessage.content else [])
      [w.nextQueue] (w.createQueue topic key options) w' events) : FannedOut w' := by
  obtain ⟨events, h⟩ := h
  set w₁ := w.createQueue topic key options with hw₁
  have hqueue : w₁.queue = Function.update w.queue w.nextQueue (newQueue topic options) := rfl
  have hhistory : w'.history = events ++ .created w.nextQueue topic options :: w.history :=
    h.history
  have hcreated : ∀ q, arrivedIn q (.created w.nextQueue topic options :: w.history) =
      arrivedIn q w.history := by
    intro q
    simp [arrivedIn]
  have hpublished : ∀ t, publishedIn t w'.history = publishedIn t w.history := by
    intro t
    rw [hhistory, publishedIn_append, h.published, List.append_nil]
    simp [publishedIn]
  refine ⟨fun t q => ?_, fun t => ?_, fun q hq => ?_⟩
  · -- The new queue is registered for its topic, and the others are where they were.
    rw [h.byTopic, h.nextQueue, (h.rules q).topic]
    show q ∈ (Function.update w.byTopic topic ((w.byTopic topic).add w.nextQueue) t).items ↔
      q < w.nextQueue + 1 ∧ (w₁.queue q).topic = t
    rw [hqueue]
    by_cases hq : q = w.nextQueue
    · subst hq
      rw [Function.update_self]
      by_cases ht : t = topic
      · subst ht
        simp [newQueue]
      · rw [Function.update_of_ne ht, hf.registered]
        simp [newQueue, Ne.symm ht]
    · have hlt : q < w.nextQueue + 1 ↔ q < w.nextQueue :=
        ⟨fun h => Nat.lt_of_le_of_ne (Nat.lt_succ_iff.mp h) hq, Nat.lt_succ_of_lt⟩
      rw [Function.update_of_ne hq, hlt, ← hf.registered]
      by_cases ht : t = topic
      · subst ht
        simp [hq]
      · rw [Function.update_of_ne ht]
  · rw [h.streamLog, hpublished]
    exact hf.streamLog t
  · rw [h.nextQueue] at hq
    by_cases hnew : q = w.nextQueue
    · subst hnew
      refine ⟨events, topic, options, w.history, hhistory, ?_, ?_⟩
      · have := h.rules w.nextQueue
        rwa [hqueue, Function.update_self] at this
      · rw [hhistory, arrivedIn_append, hcreated, hg.arrivedIn_unused le_rfl, h.arrived,
          (h.rules _).passing, h.published, List.append_nil, List.nil_append,
          if_pos List.mem_cons_self]
        have hlog : (w₁.streamLog topic).map BusMessage.content = publishedIn topic w.history :=
          hf.streamLog topic
        rw [hlog]
    · have hold : q < w.nextQueue := Nat.lt_of_le_of_ne (Nat.lt_succ_iff.mp hq) hnew
      obtain ⟨newer, t, opts, older, hsplit, hrules, harrived⟩ := hf.given q hold
      have hsame : w₁.queue q = w.queue q := Function.update_of_ne hnew ..
      refine ⟨events ++ .created w.nextQueue topic options :: newer, t, opts, older, ?_, ?_, ?_⟩
      · rw [hhistory, hsplit]
        simp
      · exact hrules.trans (hsame ▸ h.rules q)
      · have hnone : publishedIn t (events ++ .created w.nextQueue topic options :: newer) =
            publishedIn t newer := by
          rw [publishedIn_append, h.published]
          simp [publishedIn]
        have hother : q ∉ [w.nextQueue] := by simpa using hnew
        rw [hhistory, arrivedIn_append, hcreated, harrived, h.arrived, if_neg hother,
          (h.rules q).passing, hsame, List.append_nil, hnone]

theorem Good.fannedOut_queueFor (hg : Good w) (hf : FannedOut w) (topic id : String)
    (options : SubscribeOptions) : FannedOut (w.queueFor topic id options).2 := by
  unfold queueFor
  split
  · exact hf
  · dsimp only
    split_ifs with hreplay
    · obtain ⟨events, h⟩ := brings_seedAll w.nextQueue
        ((w.createQueue topic (key topic id) options).streamLog topic)
        (w.createQueue topic (key topic id) options)
      exact hg.fannedOut_createQueue hf _ _ _ ⟨events, by rwa [if_pos hreplay]⟩
    · have h : Brings [] [w.nextQueue] (w.createQueue topic (key topic id) options)
          (w.createQueue topic (key topic id) options) [] :=
        brings_nothing (by simp [BusQueue.passing])
      exact hg.fannedOut_createQueue hf _ _ _ ⟨[], by rwa [if_neg hreplay]⟩

theorem Good.fannedOut_subscribe (hg : Good w) (hf : FannedOut w) {topic : String}
    {handler : AckHandler} {options : SubscribeOptions} :
    FannedOut (w.subscribe topic handler options) := by
  have hid := turns_subscriberId (w := w) options
  have hf₁ : FannedOut (w.subscriberId options).2 := by
    unfold subscriberId
    split
    · exact hf
    · exact hf.fansOut (fansOut_aside rfl rfl rfl rfl rfl)
  obtain ⟨hturns, hq⟩ := (hg.turns hid).turns_queueFor topic (w.subscriberId options).1 options
  have hf₂ := (hg.turns hid).fannedOut_queueFor hf₁ topic (w.subscriberId options).1 options
  simp only [subscribe]
  have hattach := (Turn.attach (c := handler) hq).turns
  obtain ⟨events, -, hpump⟩ := ((hg.turns (hid.trans hturns)).turns hattach).fansOut_pump hq
  have hfans := (fansOut_act (a := .attach handler) (by rw [SameRules]) (by simp)).trans hpump
  exact (hf₂.fansOut hfans).fansOut (fansOut_aside rfl rfl rfl rfl rfl)

/-! ## Steps -/

/-- The bus is not disposed of. -/
def KeepsTopics (_ : World) (l : Label) : Prop := l ≠ .dispose

theorem Good.fannedOut_step (hg : Good w) (hf : FannedOut w) {l : Label}
    (h : w.step l = some w') (hl : l ≠ .dispose) : FannedOut w' := by
  -- All but `subscribe` bring the queues what is published meanwhile.
  suffices (∃ events, FansOut w w' events) ∨ FannedOut w' by
    rcases this with ⟨events, hfans⟩ | hdone
    · exact hf.fansOut hfans
    · exact hdone
  cases l with
  | publish topic body routingKey options =>
    obtain rfl := Option.some.inj h
    exact .inl (hg.fansOut_publish hf.registered _ _ _ _ .client trivial)
  | subscribe topic handler options =>
    obtain rfl := Option.some.inj h
    exact .inr (hg.fannedOut_subscribe hf)
  | unsubscribe s =>
    obtain ⟨⟨q, c⟩, hs, rfl⟩ := Option.map_eq_some_iff.mp h
    exact .inl (hg.fansOut_unsubscribe (hg.subscriptions _ (List.mem_of_getElem? hs)) c)
  | ack i =>
    simp only [step] at h
    split_ifs at h
    obtain rfl := Option.some.inj h
    exact .inl (hg.fansOut_settleHandle hf.registered ..)
  | nack i requeue =>
    simp only [step] at h
    split_ifs at h <;> obtain rfl := Option.some.inj h <;>
      exact .inl (hg.fansOut_settleHandle hf.registered ..)
  | returns i =>
    simp only [step] at h
    split_ifs at h
    obtain rfl := Option.some.inj h
    exact .inl ⟨[], fansOut_aside rfl rfl rfl rfl rfl⟩
  | throws i =>
    simp only [step] at h
    split at h
    · simp at h
    · split_ifs at h
      · obtain rfl := Option.some.inj h
        exact .inl ⟨[], fansOut_aside rfl rfl rfl rfl rfl⟩
      · obtain rfl := Option.some.inj h
        have hended := turns_modify (w := w) (h := i) (f := fun i => { i with ended := true })
          fun _ => rfl
        have hfans : FansOut w { w with
            handles := w.handles.modify i fun i => { i with ended := true } } [] :=
          fansOut_aside rfl rfl rfl rfl rfl
        obtain ⟨events, hsettle⟩ :=
          (hg.turns hended).fansOut_settleHandle (hfans.registered hf.registered) i .requeue
        exact .inl ⟨_, hfans.trans hsettle⟩
  | microtask =>
    simp only [step] at h
    split at h
    · simp at h
    · obtain rfl := Option.some.inj h
      exact .inl ⟨[], fansOut_aside rfl rfl rfl rfl rfl⟩
  | fire i =>
    obtain ⟨t, ht, rfl⟩ := Option.map_eq_some_iff.mp h
    cases t with
    | expiry q m =>
      have hfans : FansOut w { w with timers := w.timers.eraseIdx i } [] :=
        fansOut_aside rfl rfl rfl rfl rfl
      obtain ⟨events, hexpire⟩ :=
        (hg.turns (turns_eraseExpiry ht)).fansOut_expire (hfans.registered hf.registered) q m
      exact .inl ⟨_, hfans.trans hexpire⟩
    | retry q m => exact .inl (hg.fansOut_retry ht)
  | dispose => exact absurd rfl hl

theorem fannedOut (h : ReachIf machine KeepsTopics w) : FannedOut w := by
  refine h.invariant (fun w hw => ?_) fun w l w' hr hf hl hs => ?_
  · obtain rfl : w = {} := hw
    refine ⟨fun topic q => ?_, fun topic => rfl, fun q hq => absurd hq (Nat.not_lt_zero q)⟩
    simp
  · exact (good (reach_turns hr.reach)).fannedOut_step hf hs hl

/-- **Fan-out.** Every queue has been given a message of its own for all that was published on its
topic since its creation and passes its filter, in the order of the publishes, after what was
published before if it replays the stream; and nothing else. -/
theorem fan_out (h : ReachIf machine KeepsTopics w) {q : QueueRef} (hq : q < w.nextQueue) :
    w.Given q := (fannedOut h).given q hq

/-- A subscriber that comes late, and replays the stream. -/
def lateReplay : List Label :=
  [.publish "t" "a" none none,
    .subscribe "t" ⟨0⟩ { subscriberId := some "s", streamReplay := some true },
    .publish "t" "b" none none]

theorem fan_out_late : (play step {} lateReplay).Given 0 :=
  fan_out (Machine.reachIf_play (fun _ _ _ => id) rfl lateReplay
    ⟨by simp [KeepsTopics], by simp [KeepsTopics], by simp [KeepsTopics], trivial⟩) (by decide)

end World

end MessagingPoc.TsBus
