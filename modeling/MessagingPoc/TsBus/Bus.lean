import MessagingPoc.Lib.CompetingConsumers
import MessagingPoc.Lib.InsertionSet
import MessagingPoc.TsBus.Queue

/-!
# `InMemoryBus` of `in-memory-bus.ts`

The TypeScript engine runs on one event loop: whatever a call, a callback of a timer or a handler
does with the bus is done before anything else happens, so each of these is one step. Handlers are
the environment: once started, a handler may settle its message at any time and any number of
times, and its promise is fulfilled or rejected once. Time is not modelled: an armed timer may fire
at any moment.

`history` is ghost state that no step reads: what happened on each queue, in the words of
`CompetingConsumers`, what was published, and when queues were created. The newest comes first.
-/

namespace MessagingPoc.TsBus

open CompetingConsumers (Act)

/-- A `BusQueue` object. -/
abbrev QueueRef := Nat

/-! ## The state -/

/-- Why something was published: by a client, or as the copy of a dead or expired message. -/
inductive Cause
  | client
  | deadLetter (q : QueueRef) (m : BusMessage)
  | expiry (q : QueueRef) (m : BusMessage)
deriving DecidableEq

inductive Event
  | on (q : QueueRef) (a : Act BusMessage AckHandler)
  | published (topic body routingKey : String) (options : PublishOptions) (cause : Cause)
  | created (q : QueueRef) (topic : String) (options : SubscribeOptions)
deriving DecidableEq

/-- What an event says about one queue. -/
def Event.onQueue (q : QueueRef) : Event → Option (Act BusMessage AckHandler)
  | .on q' a => if q' = q then some a else none
  | .published .. | .created .. => none

inductive Timer
  | expiry (q : QueueRef) (m : BusMessage)
  | retry (q : QueueRef) (m : BusMessage)
deriving DecidableEq

/-- The object given to a handler, with what its `settle` closure captured. -/
structure Handle extends IncomingMessage where
  queue : QueueRef
  message : BusMessage
  consumer : AckHandler
  /-- The handler has been called. -/
  started : Bool := false
  /-- `ack` or `nack` has been called. -/
  settled : Bool := false
  /-- The promise of the handler is fulfilled or rejected. -/
  ended : Bool := false
deriving DecidableEq

/-- The fields of `InMemoryBus`, the heap of its objects, and the callbacks still to run. -/
structure World where
  queues : String → Option QueueRef := fun _ => none
  byTopic : String → InsertionSet QueueRef := fun _ => .empty
  seenDedupIds : InsertionSet String := .empty
  streamLog : String → List BusMessage := fun _ => []
  seq : Nat := 0
  queue : QueueRef → BusQueue := fun _ => ⟨"", .topic, none, 0, false, none, false, false,
    [], .empty, [], 0, fun _ => none⟩
  nextQueue : QueueRef := 0
  /-- `deliveryCount` of each message object. -/
  deliveryCount : Nat → Nat := fun _ => 0
  nextRef : Nat := 0
  /-- What each subscription's `unsubscribe` captured. -/
  subscriptions : List (QueueRef × AckHandler) := []
  handles : List Handle := []
  /-- The handles whose handlers are still to be called. -/
  microtasks : List Nat := []
  timers : List Timer := []
  history : List Event := []

namespace World

/-- Record events, the newest first. -/
def record (w : World) (events : List Event) : World := { w with history := events ++ w.history }

def setQueue (w : World) (q : QueueRef) (Q : BusQueue) : World :=
  { w with queue := Function.update w.queue q Q }

/-- A queue changes, with the act that says how. -/
def act (w : World) (q : QueueRef) (a : Act BusMessage AckHandler) (Q : BusQueue) : World :=
  (w.setQueue q Q).record [.on q a]

def nextSeq (w : World) : World := { w with seq := Double.next w.seq }

/-- Allocate a `BusMessage`. -/
def newMessage (w : World) (id topic body routingKey : String) (options : PublishOptions) :
    BusMessage × World :=
  (⟨options, w.nextRef, id, topic, body, routingKey⟩, { w with nextRef := w.nextRef + 1 })

/-- `setTimeout`. -/
def arm (w : World) (t : Timer) : World := { w with timers := w.timers ++ [t] }

/-- `pending.push`, with the act that says why. -/
def push (w : World) (q : QueueRef) (m : BusMessage) (a : Act BusMessage AckHandler) : World :=
  w.act q a { w.queue q with pending := (w.queue q).pending ++ [m] }

/-- `inflight.delete`, with the act that says why. -/
def release (w : World) (q : QueueRef) (m : BusMessage) (a : Act BusMessage AckHandler) : World :=
  w.act q a { w.queue q with inflight := (w.queue q).inflight.delete m }

/-! ## `pump` -/

/-- The fields of an `IncomingMessage` are read when it is built. -/
def wrap (m : BusMessage) (deliveryCount : Nat) : IncomingMessage where
  id := m.id
  destination := m.topic
  body := m.body
  headers := m.headers.getD []
  deliveryCount := some deliveryCount
  replyTo := m.replyTo
  correlationId := m.correlationId
  groupId := m.groupId
  priority := m.priority

/-- Count a delivery, put the message in flight and queue the call of its handler. -/
def deliver (w : World) (q : QueueRef) (Q : BusQueue) (m : BusMessage) (c : AckHandler) : World :=
  let count := Double.next (w.deliveryCount m.ref)
  { w.act q (.deliver m c) { Q with inflight := Q.inflight.set m c } with
    deliveryCount := Function.update w.deliveryCount m.ref count
    handles := w.handles ++ [{ wrap m count with queue := q, message := m, consumer := c }]
    microtasks := w.microtasks ++ [w.handles.length] }

/-- The loop of `pump`, for so many turns at most. -/
def pumpLoop (q : QueueRef) : Nat → World → World
  | 0, w => w
  | turns + 1, w =>
    match (w.queue q).next with
    | (none, Q) => w.setQueue q Q
    | (some (m, c), Q) => pumpLoop q turns (w.deliver q Q m c)

/-- Deliver pending messages to available consumers. Every turn but the last takes one off
`pending`. -/
def pump (w : World) (q : QueueRef) : World := pumpLoop q ((w.queue q).pending.length + 1) w

/-! ## `publish` -/

/-- A repeat of a dedup id already seen. -/
def suppressed (w : World) (options : PublishOptions) : Bool :=
  options.dedupId.any (· ∈ w.seenDedupIds.items)

def seeDedupId (w : World) (options : PublishOptions) : World :=
  match options.dedupId with
  | some id => { w with seenDedupIds := w.seenDedupIds.add id }
  | none => w

/-- Record a publish in the topic's append-only log. -/
def appendLog (w : World) (topic body key : String) (options : PublishOptions) : World :=
  let (m, w₁) := w.nextSeq.newMessage s!"mem-stream-{w.nextSeq.seq}" topic body key options
  { w₁ with streamLog := Function.update w₁.streamLog topic (w₁.streamLog topic ++ [m]) }

/-- The body of the loop of `publish`: a queue whose filter accepts the key is given a message of
its own. -/
def enqueueTo (topic body key : String) (options : PublishOptions) (w : World) (q : QueueRef) :
    World :=
  if (w.queue q).matches key then
    let (m, w₁) := w.nextSeq.newMessage s!"mem-bus-{w.nextSeq.seq}" topic body key options
    let w₂ := w₁.push q m (.arrive m)
    (if options.ttlMs.any (0 ≤ ·) then w₂.arm (.expiry q m) else w₂).pump q
  else w

def publish (w : World) (topic body : String) (routingKey : Option String)
    (options : Option PublishOptions) (cause : Cause) : World :=
  let options := options.getD {}
  if w.suppressed options then w
  else
    let key := routingKey.getD topic
    let w₁ := ((w.seeDedupId options).appendLog topic body key options).record
      [.published topic body key options cause]
    (w₁.byTopic topic).items.foldl (enqueueTo topic body key options) w₁

/-! ## `subscribe` -/

def key (topic subscriberId : String) : String := topic ++ "\x00" ++ subscriberId

/-- The subscriber id in use: the caller's, or a generated one. -/
def subscriberId (w : World) (options : SubscribeOptions) : String × World :=
  match options.subscriberId with
  | some id => (id, w)
  | none => (s!"sub-{w.nextSeq.seq}", w.nextSeq)

def newQueue (topic : String) (options : SubscribeOptions) : BusQueue where
  topic := topic
  kind := options.kind.getD .topic
  routingKey := options.routingKey
  maxDeliveries := options.maxDeliveries.getD DEFAULT_MAX_DELIVERIES
  deadLetter := options.deadLetter.getD false
  retryDelayMs := options.retryDelayMs
  partitionByGroup := options.partitionByGroup.getD false
  singleActiveConsumer := options.singleActiveConsumer.getD false

/-- Create and register the queue of a key. -/
def createQueue (w : World) (topic key : String) (options : SubscribeOptions) : World :=
  { w with
    queue := Function.update w.queue w.nextQueue (newQueue topic options)
    nextQueue := w.nextQueue + 1
    queues := Function.update w.queues key (some w.nextQueue)
    byTopic := Function.update w.byTopic topic ((w.byTopic topic).add w.nextQueue)
    history := .created w.nextQueue topic options :: w.history }

/-- A copy of a logged message, `{ ...logged, deliveryCount: 0 }`, for a queue that replays. -/
def seed (q : QueueRef) (w : World) (logged : BusMessage) : World :=
  if (w.queue q).matches logged.routingKey then
    let m := { logged with ref := w.nextRef }
    { w with nextRef := w.nextRef + 1 }.push q m (.arrive m)
  else w

def attach (w : World) (q : QueueRef) (handler : AckHandler) : World :=
  w.act q (.attach handler)
    { w.queue q with consumers := (w.queue q).consumers ++ [handler] }

/-- The queue of a key, created where there is none yet; it replays the log if it is to. -/
def queueFor (w : World) (topic id : String) (options : SubscribeOptions) : QueueRef × World :=
  match w.queues (key topic id) with
  | some q => (q, w)
  | none =>
    let created := w.createQueue topic (key topic id) options
    (w.nextQueue,
      if options.streamReplay.getD false then
        (created.streamLog topic).foldl (seed w.nextQueue) created
      else created)

def subscribe (w : World) (topic : String) (handler : AckHandler) (options : SubscribeOptions) :
    World :=
  let (id, w₁) := w.subscriberId options
  let (q, w₂) := w₁.queueFor topic id options
  let w₃ := (w₂.attach q handler).pump q
  { w₃ with subscriptions := w₃.subscriptions ++ [(q, handler)] }

/-- The body of the loop of `unsubscribe`: a message held goes to the front of `pending`. -/
def giveBack (q : QueueRef) (w : World) (m : BusMessage) : World :=
  w.act q (.giveBack m)
    { w.queue q with
      inflight := (w.queue q).inflight.delete m
      pending := m :: (w.queue q).pending }

def unsubscribe (w : World) (q : QueueRef) (handler : AckHandler) : World :=
  let Q := w.queue q
  let w₁ := w.setQueue q { Q with consumers := Q.consumers.erase handler }
  -- The record has the consumer leave when it holds nothing any more.
  (((Q.heldBy handler).foldl (giveBack q) w₁).record [.on q (.detach handler)]).pump q

/-! ## Settlement -/

def deadLetter (w : World) (q : QueueRef) (m : BusMessage) : World :=
  if (w.queue q).deadLetter then
    w.publish (deadLetterAddress (w.queue q).topic) m.body (some m.routingKey) none
      (.deadLetter q m)
  else w

/-- The closure `settle` of a handle. -/
def settle (w : World) (i : Handle) (resolved : BusQueue.Settlement) : World :=
  let q := i.queue
  let m := i.message
  if (w.queue q).inflight.get m ≠ some i.consumer then w
  else match (w.queue q).resolve (w.deliveryCount m.ref) resolved with
    | .acked => (w.release q m (.settle m)).pump q
    | .dead => ((w.release q m (.settle m)).deadLetter q m).pump q
    | .parked => ((w.release q m (.park m)).arm (.retry q m)).pump q
    | .requeued =>
      (w.act q (.requeue m)
        { w.queue q with
          inflight := (w.queue q).inflight.delete m
          pending := (w.queue q).pending ++ [m] }).pump q

/-- `ack` and `nack` of a handle, which note that they were called. -/
def settleHandle (w : World) (h : Nat) (resolved : BusQueue.Settlement) : World :=
  match w.handles[h]? with
  | none => w
  | some i =>
    let w₁ := w.settle i resolved
    { w₁ with handles := w₁.handles.modify h fun i => { i with settled := true } }

/-! ## Timers and disposal -/

/-- The callback of a TTL timer: remove the message if it is still pending or in flight. -/
def expire (w : World) (q : QueueRef) (m : BusMessage) : World :=
  let Q := w.queue q
  if m ∈ Q.pending then
    (w.act q (.expire m) { Q with pending := Q.pending.erase m }).publish
      (expiryAddress Q.topic) m.body (some m.routingKey) none (.expiry q m)
  else if (Q.inflight.get m).isSome then
    (w.release q m (.expire m)).publish
      (expiryAddress Q.topic) m.body (some m.routingKey) none (.expiry q m)
  else w

/-- The callback of a retry timer. -/
def retry (w : World) (q : QueueRef) (m : BusMessage) : World := (w.push q m (.unpark m)).pump q

def dispose (w : World) : World :=
  { w with queues := fun _ => none, byTopic := fun _ => .empty, streamLog := fun _ => [] }

end World

/-! ## The machine -/

inductive Label
  | publish (topic body : String) (routingKey : Option String) (options : Option PublishOptions)
  | subscribe (topic : String) (handler : AckHandler) (options : SubscribeOptions)
  | unsubscribe (s : Nat)
  | ack (h : Nat)
  | nack (h : Nat) (requeue : Bool)
  /-- A handler returns, or its promise is fulfilled. -/
  | returns (h : Nat)
  /-- A handler throws, or its promise is rejected. -/
  | throws (h : Nat)
  /-- The first queued call of a handler is made. -/
  | microtask
  /-- An armed timer fires. -/
  | fire (timer : Nat)
  | dispose
deriving DecidableEq

namespace World

def step (w : World) : Label → Option World
  | .publish topic body routingKey options =>
    some (w.publish topic body routingKey options .client)
  | .subscribe topic handler options => some (w.subscribe topic handler options)
  | .unsubscribe s => w.subscriptions[s]?.map fun p => w.unsubscribe p.1 p.2
  | .ack h => if (w.handles[h]?).any (·.started) then some (w.settleHandle h .ack) else none
  | .nack h requeue =>
    if (w.handles[h]?).any (·.started) then
      some (w.settleHandle h (if requeue then .requeue else .dead))
    else none
  | .returns h =>
    if (w.handles[h]?).any fun i => i.started && !i.ended then
      some { w with handles := w.handles.modify h fun i => { i with ended := true } }
    else none
  | .throws h =>
    match w.handles[h]? with
    | none => none
    | some i =>
      if i.started && !i.ended then
        let w₁ := { w with handles := w.handles.modify h fun i => { i with ended := true } }
        some (if i.settled then w₁ else w₁.settleHandle h .requeue)
      else none
  | .microtask =>
    match w.microtasks with
    | [] => none
    | h :: rest => some { w with
        microtasks := rest
        handles := w.handles.modify h fun i => { i with started := true } }
  | .fire i =>
    w.timers[i]?.map fun t =>
      let w₁ := { w with timers := w.timers.eraseIdx i }
      match t with
      | .expiry q m => w₁.expire q m
      | .retry q m => w₁.retry q m
  | .dispose => some w.dispose

/-- What happened on one queue, newest first. -/
def trail (w : World) (q : QueueRef) : List (Act BusMessage AckHandler) :=
  w.history.filterMap (Event.onQueue q)

end World

/-- `InMemoryBus` of the TypeScript package, under every order of calls and callbacks. -/
def machine : Machine.System World Label where
  init w := w = {}
  step w l w' := w.step l = some w'

theorem World.reach_play (ls : List Label) :
    Machine.Reach machine (Machine.play World.step {} ls) :=
  Machine.reach_play (fun _ _ _ => id) rfl ls

end MessagingPoc.TsBus
