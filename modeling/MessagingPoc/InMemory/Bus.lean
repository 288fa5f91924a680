import MessagingPoc.InMemory.Queue
import MessagingPoc.Lib.InsertionSet
import MessagingPoc.Lib.Machine

/-!
# `InMemoryBus` as a machine of lock-sized steps

`InMemoryBus.cs`, one atomic step per lock body. A call (`Publish`, `Subscribe`, a settlement, a
disposal, a timer's continuation) is a thread: the list of the steps it still has to take, in
program order. Each step takes the head of one thread, works on the shared state, and pushes what
the call does next in front of what is left. An exception drops the rest of the thread.

Time is not modelled: an armed timer may elapse at any moment. Handlers are the environment: once
a handle exists, any of `AckAsync`, `NackAsync` and "the handler throws" may be called on it, at
any time and any number of times.

`history` is ghost state that no step reads. It records, newest first, what happened on each queue
and what was published, and is what statements about whole runs talk about. The `delivery` number
a handle carries is ghost as well.
-/

namespace MessagingPoc

/-- A `BusQueue` object. -/
abbrev QueueRef := Nat

/-! ## Ghost events -/

/-- Why something was published: by a client, or as the copy of a dead or expired message. -/
inductive Cause
  | client
  | deadLetter (q : QueueRef) (m : BusMessage)
  | expiry (q : QueueRef) (m : BusMessage)
deriving DecidableEq

/-- What can happen on one queue. -/
inductive QueueEvent
  /-- A fresh message on `Pending`; `entry` is the identity of its entry in the topic's log. -/
  | arrived (m : BusMessage) (entry : Nat)
  | attached (c : AckHandler)
  | detached (c : AckHandler)
  /-- `m` was put in flight to `c`, as delivery number `d`. -/
  | delivered (m : BusMessage) (c : AckHandler) (d : Nat)
  /-- The handle of a delivery was built and its handler started, reporting `count`. -/
  | handed (m : BusMessage) (c : AckHandler) (count : Int32)
  /-- Back to the end of `Pending` after a negative settlement. -/
  | requeued (m : BusMessage)
  /-- Taken off the queue until its retry timer elapses. -/
  | parked (m : BusMessage)
  | unparked (m : BusMessage)
  /-- Back to the front of `Pending`: its consumer was disposed of. -/
  | returned (m : BusMessage)
  | acked (m : BusMessage)
  /-- Dead-lettered, or dropped when the queue has no dead-letter wiring. -/
  | dead (m : BusMessage)
  | expired (m : BusMessage)
deriving DecidableEq

inductive Event
  | on (q : QueueRef) (e : QueueEvent)
  | published (topic body routingKey : String) (options : Option PublishOptions) (cause : Cause)
deriving DecidableEq

/-- What an event says about one queue. -/
def Event.onQueue (q : QueueRef) : Event → Option QueueEvent
  | .on q' e => if q' = q then some e else none
  | .published .. => none

/-! ## The shared state -/

/-- The fields of `InMemoryBus`, and the heap of its `BusQueue` and `BusMessage` objects. -/
structure Bus where
  queues : String → Option QueueRef := fun _ => none
  byTopic : String → InsertionSet QueueRef := fun _ => .empty
  seenDedupIds : InsertionSet String := .empty
  streamLog : String → List BusMessage := fun _ => []
  seq : Int32 := 0
  queue : QueueRef → BusQueue := fun _ => ⟨"", .topic, none, 0, false, none, false, false,
    [], ∅, [], fun _ => none, 0⟩
  nextQueue : QueueRef := 0
  /-- `DeliveryCount` of each message object. -/
  deliveryCount : Nat → Int32 := fun _ => 0
  nextRef : Nat := 0

namespace Bus

def key (topic subscriberId : String) : String := topic ++ " " ++ subscriberId

def setQueue (b : Bus) (q : QueueRef) (Q : BusQueue) : Bus :=
  { b with queue := Function.update b.queue q Q }

/-- Allocate a `BusMessage`. -/
def newMessage (b : Bus) (id topic body routingKey : String) (options : Option PublishOptions) :
    BusMessage × Bus :=
  (⟨b.nextRef, id, topic, body, routingKey, options⟩, { b with nextRef := b.nextRef + 1 })

def nextSeq (b : Bus) : Bus := { b with seq := b.seq + 1 }

def enqueue (b : Bus) (q : QueueRef) (m : BusMessage) : Bus :=
  b.setQueue q { b.queue q with pending := PendingQueue.enqueue (b.queue q).pending m }

/-! ### `Publish` -/

/-- A repeat of a dedup id already seen. -/
def suppressed (b : Bus) (options : Option PublishOptions) : Bool :=
  match options.bind (·.dedupId) with
  | some dup => dup ∈ b.seenDedupIds.items
  | none => false

def seeDedupId (b : Bus) (options : Option PublishOptions) : Bus :=
  match options.bind (·.dedupId) with
  | some dup => { b with seenDedupIds := b.seenDedupIds.add dup }
  | none => b

/-- The queues registered for a topic whose filter accepts the routing key. -/
def targets (b : Bus) (topic key : String) : List QueueRef :=
  (b.byTopic topic).items.filter fun q => (b.queue q).matches key

/-- The `foreach` of `Publish`: a fresh message for each queue. -/
def enqueueCopies (topic body key : String) (options : Option PublishOptions) :
    List QueueRef → Bus → List (QueueRef × BusMessage) × Bus
  | [], b => ([], b)
  | q :: qs, b =>
    let (m, b₁) := b.nextSeq.newMessage s!"mem-bus-{b.nextSeq.seq}" topic body key options
    let (rest, b₂) := enqueueCopies topic body key options qs (b₁.enqueue q m)
    ((q, m) :: rest, b₂)

/-- Record a publish in the topic's append-only log. -/
def appendLog (b : Bus) (topic body key : String) (options : Option PublishOptions) :
    BusMessage × Bus :=
  let (m, b₁) := b.nextSeq.newMessage s!"mem-stream-{b.nextSeq.seq}" topic body key options
  (m, { b₁ with streamLog := Function.update b₁.streamLog topic (b₁.streamLog topic ++ [m]) })

/-! ### `Subscribe` -/

/-- The subscriber id in use: the caller's, or a generated one. -/
def subscriberId (b : Bus) (opts : SubscribeOptions) : String × Bus :=
  match opts.subscriberId with
  | some id => (id, b)
  | none => (s!"sub-{b.nextSeq.seq}", b.nextSeq)

def newQueue (topic : String) (opts : SubscribeOptions) : BusQueue where
  topic := topic
  kind := opts.kind
  routingKey := opts.routingKey
  maxDeliveries := opts.maxDeliveries.getD defaultMaxDeliveries
  deadLetter := opts.deadLetter
  retryDelayMs := opts.retryDelayMs
  partitionByGroup := opts.partitionByGroup
  singleActiveConsumer := opts.singleActiveConsumer

/-- Create and register the queue of a key. -/
def createQueue (b : Bus) (topic key : String) (opts : SubscribeOptions) : Bus :=
  { b with
    queue := Function.update b.queue b.nextQueue (newQueue topic opts)
    nextQueue := b.nextQueue + 1
    queues := Function.update b.queues key (some b.nextQueue)
    byTopic := Function.update b.byTopic topic ((b.byTopic topic).add b.nextQueue) }

/-- Seed a queue with copies of logged messages. -/
def replay (topic : String) (q : QueueRef) :
    List BusMessage → Bus → List (BusMessage × BusMessage) × Bus
  | [], b => ([], b)
  | logged :: rest, b =>
    let (m, b₁) := b.newMessage logged.id topic logged.body logged.routingKey logged.options
    let (seeded, b₂) := replay topic q rest (b₁.enqueue q m)
    ((m, logged) :: seeded, b₂)

def attach (b : Bus) (q : QueueRef) (handler : AckHandler) : Bus :=
  b.setQueue q { b.queue q with consumers := (b.queue q).consumers ++ [handler] }

/-- The log entries a queue is seeded with when it is created. -/
def backlog (b : Bus) (topic : String) (q : QueueRef) (opts : SubscribeOptions) :
    List BusMessage :=
  if opts.streamReplay then
    (b.streamLog topic).filter fun logged => (b.queue q).matches logged.routingKey
  else []

end Bus

/-! ## Handles -/

inductive SettleKind
  | ack
  | requeue
  | dead
deriving DecidableEq, Repr

/-- The handle given to a handler, with what its settle closure captured. -/
structure IncomingBusMessage where
  id : String
  destination : String
  body : String
  deliveryCount : Int32
  headers : List (String × String)
  replyTo : Option String
  correlationId : Option String
  groupId : Option String
  priority : Option Int32
  settled : Bool
  queue : QueueRef
  message : BusMessage
  consumer : AckHandler
  /-- Ghost: the delivery the handle was built for. -/
  delivery : Nat
deriving DecidableEq

/-- `Wrap`: the fields are read when the handle is built, `deliveryCount` among them. -/
def wrap (b : Bus) (q : QueueRef) (m : BusMessage) (c : AckHandler) (d : Nat) :
    IncomingBusMessage where
  id := m.id
  destination := m.topic
  body := m.body
  deliveryCount := b.deliveryCount m.ref
  headers := (m.options.bind (·.headers)).getD []
  replyTo := m.options.bind (·.replyTo)
  correlationId := m.options.bind (·.correlationId)
  groupId := m.options.bind (·.groupId)
  priority := m.options.bind (·.priority)
  settled := false
  queue := q
  message := m
  consumer := c
  delivery := d

/-! ## Threads -/

/-- One atomic step a call still has to take. -/
inductive Instr
  /-- The lock body of `Publish`. -/
  | publish (topic body : String) (routingKey : Option String) (options : Option PublishOptions)
      (cause : Cause)
  | armExpiry (q : QueueRef) (m : BusMessage)
  /-- The lock body of `Subscribe`. -/
  | subscribe (topic : String) (handler : AckHandler) (opts : SubscribeOptions)
  | returnSubscription (q : QueueRef) (c : AckHandler)
  /-- One turn of `Pump`'s loop. -/
  | pump (q : QueueRef)
  /-- `Wrap` and the start of the handler's task. -/
  | wrap (q : QueueRef) (m : BusMessage) (c : AckHandler) (d : Nat)
  /-- `AckAsync` and `NackAsync` up to the call of the settle closure. -/
  | markSettled (h : Nat) (kind : SettleKind)
  /-- The lock body of `Settle`. -/
  | settle (h : Nat) (kind : SettleKind)
  /-- The `catch` around a handler. -/
  | caught (h : Nat)
  | armRetry (q : QueueRef) (m : BusMessage)
  /-- The lock body of a retry timer's continuation. -/
  | retry (q : QueueRef) (m : BusMessage)
  /-- The lock body of a TTL timer's continuation. -/
  | expire (q : QueueRef) (m : BusMessage)
  /-- The lock body of a subscription's dispose callback. -/
  | dispose (s : Nat)
  /-- The lock body of the bus's `Dispose`. -/
  | disposeBus
deriving DecidableEq

inductive Timer
  | expiry (q : QueueRef) (m : BusMessage)
  | retry (q : QueueRef) (m : BusMessage)
deriving DecidableEq

def Timer.continuation : Timer → Instr
  | .expiry q m => .expire q m
  | .retry q m => .retry q m

structure World where
  bus : Bus := {}
  /-- The subscriptions handed out: the queue and handler their dispose callback captured. -/
  subscriptions : List (QueueRef × AckHandler) := []
  /-- The handles given to handlers. -/
  handles : List IncomingBusMessage := []
  threads : List (List Instr) := []
  timers : List Timer := []
  history : List Event := []

/-- What a step leaves: the state, what its call does next, and whether it threw. -/
structure Outcome where
  world : World
  more : List Instr := []
  threw : Bool := false

/-! ## The steps -/

/-- What a settlement does with the message it takes out of flight. -/
inductive Resolution
  | acked
  | dead
  | parked
  | requeued
deriving DecidableEq, Repr

def BusQueue.resolve (Q : BusQueue) (deliveryCount : Int32) : SettleKind → Resolution
  | .ack => .acked
  | .dead => .dead
  | .requeue =>
    if deliveryCount ≥ Q.maxDeliveries then .dead
    else if Q.retryDelayMs.any (· > 0) then .parked
    else .requeued

/-- `DeadLetter`: the publish of the copy, when the queue has dead-letter wiring. -/
def BusQueue.deadLetterCall (Q : BusQueue) (q : QueueRef) (m : BusMessage) : List Instr :=
  if Q.deadLetter then
    [.publish (deadLetterAddress Q.topic) m.body (some m.routingKey) none (.deadLetter q m)]
  else []

/-- What `Publish` does after the lock for one queue: arm the TTL timer, then pump. -/
def afterEnqueue (options : Option PublishOptions) (target : QueueRef × BusMessage) : List Instr :=
  (if (options.bind (·.ttlMs)).any (0 ≤ ·) then [.armExpiry target.1 target.2] else []) ++
    [.pump target.1]

namespace World

/-- Record events, the newest first. -/
def record (w : World) (events : List Event) : World := { w with history := events ++ w.history }

def withBus (w : World) (b : Bus) : World := { w with bus := b }

def publish (w : World) (topic body : String) (routingKey : Option String)
    (options : Option PublishOptions) (cause : Cause) : Outcome :=
  if w.bus.suppressed options then { world := w }
  else
    let key := routingKey.getD topic
    let (logged, b₁) := (w.bus.seeDedupId options).appendLog topic body key options
    let (delivered, b₂) := b₁.enqueueCopies topic body key options (b₁.targets topic key)
    { world := (w.withBus b₂).record
        ((delivered.map fun t => .on t.1 (.arrived t.2 logged.ref)).reverse ++
          [.published topic body key options cause])
      more := delivered.flatMap (afterEnqueue options) }

def subscribe (w : World) (topic : String) (handler : AckHandler) (opts : SubscribeOptions) :
    Outcome :=
  let (id, b₁) := w.bus.subscriberId opts
  match b₁.queues (Bus.key topic id) with
  | some q =>
    { world := (w.withBus (b₁.attach q handler)).record [.on q (.attached handler)]
      more := [.pump q, .returnSubscription q handler] }
  | none =>
    let q := b₁.nextQueue
    let b₂ := b₁.createQueue topic (Bus.key topic id) opts
    let (seeded, b₃) := Bus.replay topic q (b₂.backlog topic q opts) b₂
    { world := (w.withBus (b₃.attach q handler)).record
        (.on q (.attached handler) ::
          (seeded.map fun t => .on q (.arrived t.1 t.2.ref)).reverse)
      more := [.pump q, .returnSubscription q handler] }

/-- Book a delivery: count it and put the message in flight. -/
def deliver (w : World) (q : QueueRef) (Q : BusQueue) (m : BusMessage) (c : AckHandler) : World :=
  let b := w.bus.setQueue q { Q with inflight := Q.inflight.insert m c }
  let b := { b with
    deliveryCount := Function.update b.deliveryCount m.ref (b.deliveryCount m.ref + 1) }
  (w.withBus b).record [.on q (.delivered m c w.history.length)]

def pump (w : World) (q : QueueRef) : Outcome :=
  match (w.bus.queue q).next with
  | (.threw, Q) => { world := w.withBus (w.bus.setQueue q Q), threw := true }
  | (.nobody, Q) => { world := w.withBus (w.bus.setQueue q Q) }
  | (.found (m, c), Q) =>
    { world := w.deliver q Q m c
      more := [.wrap q m c w.history.length, .pump q] }

/-- Take a message out of flight, with the event that says why. -/
def release (w : World) (q : QueueRef) (m : BusMessage) (e : QueueEvent) : World :=
  let Q := w.bus.queue q
  (w.withBus (w.bus.setQueue q { Q with inflight := Q.inflight.erase m })).record [.on q e]

def settle (w : World) (h : Nat) (kind : SettleKind) : Outcome :=
  match w.handles[h]? with
  | none => { world := w }
  | some incoming =>
    let q := incoming.queue
    let m := incoming.message
    let Q := w.bus.queue q
    -- The guard knows the delivery only by its message and its consumer.
    if Q.inflight.lookup m ≠ some incoming.consumer then { world := w }
    else match Q.resolve (w.bus.deliveryCount m.ref) kind with
      | .acked => { world := w.release q m (.acked m), more := [.pump q] }
      | .dead =>
        { world := w.release q m (.dead m), more := Q.deadLetterCall q m ++ [.pump q] }
      | .parked => { world := w.release q m (.parked m), more := [.armRetry q m, .pump q] }
      | .requeued =>
        let w' := w.release q m (.requeued m)
        { world := w'.withBus (w'.bus.enqueue q m), more := [.pump q] }

def dispose (w : World) (s : Nat) : Outcome :=
  match w.subscriptions[s]? with
  | none => { world := w }
  | some (q, c) =>
    let Q := w.bus.queue q
    { world := (w.withBus (w.bus.setQueue q (Q.detach c))).record
        (((Q.heldBy c).map fun m => .on q (.returned m)).reverse ++ [.on q (.detached c)])
      more := [.pump q] }

def expire (w : World) (q : QueueRef) (m : BusMessage) : Outcome :=
  let (removed, Q) := (w.bus.queue q).removeUnconsumed m
  if removed then
    { world := (w.withBus (w.bus.setQueue q Q)).record [.on q (.expired m)]
      more := [.publish (expiryAddress Q.topic) m.body (some m.routingKey) none (.expiry q m)] }
  else { world := w }

def exec (w : World) : Instr → Outcome
  | .publish topic body routingKey options cause =>
    w.publish topic body routingKey options cause
  | .armExpiry q m => { world := { w with timers := w.timers ++ [.expiry q m] } }
  | .subscribe topic handler opts => w.subscribe topic handler opts
  | .returnSubscription q c => { world := { w with subscriptions := w.subscriptions ++ [(q, c)] } }
  | .pump q => w.pump q
  | .wrap q m c d =>
    let incoming := wrap w.bus q m c d
    { world := { w with handles := w.handles ++ [incoming] }.record
        [.on q (.handed m c incoming.deliveryCount)] }
  | .markSettled h kind =>
    { world := { w with handles := w.handles.modify h fun i => { i with settled := true } }
      more := [.settle h kind] }
  | .settle h kind => w.settle h kind
  | .caught h =>
    match w.handles[h]? with
    | none => { world := w }
    | some incoming =>
      { world := w, more := if incoming.settled then [] else [.markSettled h .requeue] }
  | .armRetry q m => { world := { w with timers := w.timers ++ [.retry q m] } }
  | .retry q m =>
    { world := (w.withBus (w.bus.enqueue q m)).record [.on q (.unparked m)], more := [.pump q] }
  | .expire q m => w.expire q m
  | .dispose s => w.dispose s
  | .disposeBus =>
    { world := w.withBus { w.bus with
        queues := fun _ => none, byTopic := fun _ => .empty, streamLog := fun _ => [] } }

end World

/-! ## The machine -/

/-- The calls of a client or a handler. -/
inductive Op
  | publish (topic body : String) (routingKey : Option String) (options : Option PublishOptions)
  | subscribe (topic : String) (handler : AckHandler) (opts : SubscribeOptions)
  | disposeSubscription (s : Nat)
  | ack (h : Nat)
  | nack (h : Nat) (requeue : Bool)
  | handlerThrows (h : Nat)
  | disposeBus
deriving DecidableEq

def Op.entry : Op → Instr
  | .publish topic body routingKey options => .publish topic body routingKey options .client
  | .subscribe topic handler opts => .subscribe topic handler opts
  | .disposeSubscription s => .dispose s
  | .ack h => .markSettled h .ack
  | .nack h requeue => .markSettled h (if requeue then .requeue else .dead)
  | .handlerThrows h => .caught h
  | .disposeBus => .disposeBus

inductive Label
  /-- A call begins. -/
  | call (op : Op)
  /-- A thread takes its next step. -/
  | run (thread : Nat)
  /-- An armed timer elapses. -/
  | fire (timer : Nat)
deriving DecidableEq

namespace World

/-- The step a label makes a thread take. -/
def next (w : World) : Label → Option Instr
  | .run i => w.threads[i]?.bind List.head?
  | _ => none

def step (w : World) : Label → Option World
  | .call op => some { w with threads := w.threads ++ [[op.entry]] }
  | .run i =>
    match w.threads[i]? with
    | some (instr :: rest) =>
      let o := w.exec instr
      some { o.world with
        threads := o.world.threads.set i (if o.threw then [] else o.more ++ rest) }
    | _ => none
  | .fire i =>
    w.timers[i]?.map fun t =>
      { w with timers := w.timers.eraseIdx i, threads := w.threads ++ [[t.continuation]] }

/-- Play a list of labels, skipping those that are not enabled. -/
def play (w : World) (ls : List Label) : World := Machine.play step w ls

/-- The events of one queue, newest first. -/
def trail (w : World) (q : QueueRef) : List QueueEvent := w.history.filterMap (Event.onQueue q)

end World

/-- `InMemoryBus` under every interleaving of its lock bodies. -/
def busMachine : Machine.System World Label where
  init w := w = {}
  step w l w' := w.step l = some w'

theorem busMachine_step {w w' : World} {l : Label} :
    busMachine.step w l w' ↔ w.step l = some w' := Iff.rfl

theorem busMachine_init {w : World} : busMachine.init w ↔ w = {} := Iff.rfl

/-- Every step of a play meets a guard. -/
def World.Plays (ok : World → Label → Prop) (w : World) (ls : List Label) : Prop :=
  Machine.Plays World.step ok w ls

instance {ok : World → Label → Prop} [∀ w l, Decidable (ok w l)] (w : World) (ls : List Label) :
    Decidable (w.Plays ok ls) := inferInstanceAs (Decidable (Machine.Plays World.step ok w ls))

theorem World.step_play {w : World} {l : Label} (h : (w.step l).isSome = true) :
    w.step l = some (w.play [l]) := by
  obtain ⟨w', hw'⟩ := Option.isSome_iff_exists.mp h
  simp [play, Machine.play, hw']

theorem World.reachIf_play {ok : World → Label → Prop} (ls : List Label)
    (h : World.Plays ok {} ls) : Machine.ReachIf busMachine ok (World.play {} ls) :=
  Machine.reachIf_play (fun _ _ _ => id) rfl ls h

theorem World.run_play {ok : World → Label → Prop} {w : World} (ls : List Label)
    (h : World.Plays ok w ls) : Machine.Run busMachine ok w (w.play ls) :=
  Machine.run_play (fun _ _ _ => id) h

theorem World.reach_play (ls : List Label) : Machine.Reach busMachine (World.play {} ls) :=
  Machine.reach_play (fun _ _ _ => id) rfl ls

end MessagingPoc
