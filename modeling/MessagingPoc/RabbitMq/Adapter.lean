import MessagingPoc.Abstractions
import MessagingPoc.Lib.Amqp
import MessagingPoc.TopicMatch

/-!
# The RabbitMQ adapter: what it declares and where it publishes

`subscribe` and `publish` of `rabbitmq.ts`, over an AMQP broker. A call of `subscribe` asserts
exchanges and queues, binds the subscription's queue to one exchange, and consumes from it on a
channel of its own; it fails when the broker refuses an assert. `busTopology` and `hashTopology`
only save asserts of exchanges that exist, which change nothing, and are left out.

Random strings are inputs: `randomId` names a subscriber without an id, `suffix` ends the queue of a
partition consumer.
-/

namespace MessagingPoc.RabbitMq

open Amqp

/-! ## Messages -/

/-- The `BasicProperties` of a message. -/
structure Properties where
  persistent : Bool := true
  headers : List (String × String) := []
  priority : Option Int32 := none
  replyTo : Option String := none
  correlationId : Option String := none
  expiration : Option String := none
deriving DecidableEq

/-- `headers[name] = value`. -/
def setHeader (headers : List (String × String)) (name value : String) : List (String × String) :=
  if name ∈ headers.map Prod.fst then
    headers.map fun h => if h.1 = name then (name, value) else h
  else headers ++ [(name, value)]

/-- A string that counts as true. -/
def truthy (s : Option String) : Option String := s.filter (· ≠ "")

def publishProps (options : Option PublishOptions) : Properties :=
  let headers := (options.bind (·.headers)).getD []
  let headers := (truthy (options.bind (·.groupId))).elim headers (setHeader headers "x-group-id")
  let headers := (truthy (options.bind (·.dedupId))).elim headers (setHeader headers "x-dedup-id")
  { headers := headers
    priority := options.bind (·.priority)
    replyTo := truthy (options.bind (·.replyTo))
    correlationId := truthy (options.bind (·.correlationId))
    expiration := (options.bind (·.ttlMs)).map toString }

structure Message where
  content : String
  properties : Properties
deriving DecidableEq

/-- The broker, with the subscriber each consumer belongs to. -/
abbrev Rabbit := Broker Message String

/-! ## Names -/

def topicExchange (topic : String) : Exchange := ⟨.topic, "x.t." ++ topic⟩

def fanoutExchange (topic : String) : Exchange := ⟨.fanout, "x.f." ++ topic⟩

/-- The consistent-hash exchange that pins each group to one queue. -/
def hashExchange (topic : String) : Exchange := ⟨.consistentHash, "x.h." ++ topic⟩

def streamQueueName (topic : String) : String := "stream." ++ topic

/-! ## `subscribe` -/

/-- A call of `subscribe`, with the random strings it draws. -/
structure Call where
  options : SubscribeOptions
  randomId : String
  suffix : String
deriving DecidableEq

namespace Call

variable (topic : String) (c : Call)

def subscriberId : String := c.options.subscriberId.getD ("sub-" ++ c.randomId)

def queue : String :=
  if c.options.partitionByGroup then
    "bus." ++ topic ++ "." ++ c.subscriberId ++ "." ++ c.suffix
  else "bus." ++ topic ++ "." ++ c.subscriberId

def retryEnabled : Bool := c.options.deadLetter && c.options.retryDelayMs.any (0 < ·)

def retryQueue : String := c.queue topic ++ ".retry"

def retryArgs : QueueArgs where
  messageTtl := c.options.retryDelayMs.map Int32.toInt
  deadLetterExchange := some ""
  deadLetterRoutingKey := some (c.queue topic)

/-- The arguments of a queue that is not transient. -/
def queueArgs : QueueArgs :=
  let args : QueueArgs := {}
  let args :=
    if c.retryEnabled then
      { args with
        deadLetterExchange := some ""
        deadLetterRoutingKey := some (c.retryQueue topic) }
    else if c.options.deadLetter then
      { args with
        queueType := some "quorum"
        deliveryLimit := some (c.options.maxDeliveries.getD defaultMaxDeliveries).toInt
        deadLetterExchange := some (fanoutExchange (deadLetterAddress topic)).name }
    else args
  let args := if c.options.priorityQueue then { args with maxPriority := some 10 } else args
  let args :=
    if c.options.singleActiveConsumer then { args with singleActiveConsumer := true } else args
  if c.options.ttlMs.isSome then
    { args with deadLetterExchange := some (fanoutExchange (expiryAddress topic)).name }
  else args

def transientArgs : QueueArgs where
  durable := false
  exclusive := true
  autoDelete := true

/-- The one binding of the subscription's queue. -/
def binding : Binding :=
  if c.options.transient then
    ⟨topicExchange topic, c.queue topic, c.options.routingKey.getD "#"⟩
  else if c.options.partitionByGroup then ⟨hashExchange topic, c.queue topic, "1"⟩
  else if c.options.kind = .fanout then ⟨fanoutExchange topic, c.queue topic, ""⟩
  else ⟨topicExchange topic, c.queue topic, c.options.routingKey.getD "#"⟩

end Call

/-- The adapter's own channel. -/
def ownChannel : Nat := 0

/-- `connectBus`, on a new connection. -/
def connectBus : Rabbit := (({} : Rabbit).createChannel.run ownChannel [.prefetch ownChannel 1]).1

def ensureBusExchanges (topic : String) : List (Method String) :=
  [.assertExchange (topicExchange topic), .assertExchange (fanoutExchange topic)]

def ensureHashExchange (topic : String) : List (Method String) :=
  [.assertExchange (hashExchange topic)]

/-- What `subscribe` asserts before it binds. -/
def declarations (topic : String) (c : Call) : List (Method String) :=
  (if c.retryEnabled then
    ensureBusExchanges (deadLetterAddress topic) ++
      [.assertQueue (c.retryQueue topic) (c.retryArgs topic)]
  else if c.options.deadLetter then ensureBusExchanges (deadLetterAddress topic)
  else []) ++
  if c.options.transient then [.assertQueue (c.queue topic) Call.transientArgs]
  else
    (if c.options.ttlMs.isSome then ensureBusExchanges (expiryAddress topic) else []) ++
    [.assertQueue (c.queue topic) (c.queueArgs topic)] ++
    if c.options.partitionByGroup then ensureHashExchange topic else []

/-- `subscribeStreamReplay`. -/
def streamMethods (topic : String) (channel : Nat) (c : Call) : List (Method String) :=
  [.prefetch channel 10,
    .assertQueue (streamQueueName topic) { queueType := some "stream" },
    .bindQueue (streamQueueName topic) (topicExchange topic) "#",
    .consume channel (streamQueueName topic) c.subscriberId]

/-- The methods of a subscription, on its own channel. -/
def subscribeMethods (topic : String) (channel : Nat) (c : Call) : List (Method String) :=
  if c.options.streamReplay then streamMethods topic channel c
  else
    .prefetch channel 1 :: declarations topic c ++
      [.bindQueue (c.queue topic) (c.binding topic).exchange (c.binding topic).key,
        .consume channel (c.queue topic) c.subscriberId]

/-- Subscribe, or fail. -/
def subscribe (topic : String) (b : Rabbit) (c : Call) : Rabbit × Bool :=
  let b := (b.run ownChannel (ensureBusExchanges topic)).1
  b.createChannel.run b.nextChannel (subscribeMethods topic b.nextChannel c)

/-! ## `publish` -/

/-- The words of a routing key; the empty key has none. -/
def keyWords (key : String) : List (List Char) := if key = "" then [] else words key

/-- Does a binding of a topic exchange match a routing key? -/
def topicRoutes (pattern key : String) : Bool :=
  Glob.accepts ((keyWords pattern).map token) (keyWords key)

/-- What `publish` is called with. -/
structure Publication where
  payload : String
  routingKey : Option String := none
  options : Option PublishOptions := none
deriving DecidableEq

namespace Publication

variable (topic : String) (p : Publication)

def key : String := p.routingKey.getD topic

/-- The group of the message, when it has one. -/
def group : Option String := truthy (p.options.bind (·.groupId))

def message : Message := ⟨p.payload, publishProps p.options⟩

end Publication

/-- Publish on a topic; `picked` is the choice of the consistent-hash exchange. -/
def publish (topic : String) (b : Rabbit) (p : Publication) (picked : Option String) : Rabbit :=
  let b := (b.run ownChannel (ensureBusExchanges topic)).1
  let b := b.publish topicRoutes (topicExchange topic) (p.key topic) none p.message
  let b := b.publish topicRoutes (fanoutExchange topic) "" none p.message
  match p.group with
  | some groupId =>
    let b := (b.run ownChannel (ensureHashExchange topic)).1
    b.publish topicRoutes (hashExchange topic) groupId picked p.message
  | none => b

/-- What the broker may pick for a message: a queue of the hash exchange, as long as it has one. -/
def Picks (topic : String) (b : Rabbit) (p : Publication) (picked : Option String) : Prop :=
  if p.group.isSome then b.Picks (hashExchange topic) picked else picked = none

instance (topic : String) (b : Rabbit) (p : Publication) (picked : Option String) :
    Decidable (Picks topic b p picked) := inferInstanceAs (Decidable (ite _ _ _))

/-! ## What `subscribe` does -/

variable {topic : String} {b : Rabbit} {c : Call}

/-- The broker with the two exchanges every topic has. -/
def withBusExchanges (topic : String) (b : Rabbit) : Rabbit :=
  { b with exchanges := (b.exchanges.add (topicExchange topic)).add (fanoutExchange topic) }

theorem run_ensureBusExchanges (topic : String) (b : Rabbit) (channel : Nat) :
    b.run channel (ensureBusExchanges topic) = (withBusExchanges topic b, true) := rfl

theorem declares_declarations (topic : String) (c : Call) :
    ∀ m ∈ declarations topic c, m.declares = true := by
  intro m hm
  unfold declarations at hm
  split_ifs at hm <;>
    simp only [ensureBusExchanges, ensureHashExchange, List.mem_append, List.mem_cons,
      List.not_mem_nil, or_false, false_or] at hm <;>
    aesop

/-- The queue of a subscription is asserted, and its exchange unless it is one of the two that every
topic has. -/
theorem declarations_cover (topic : String) (c : Call) :
    (∃ args, .assertQueue (c.queue topic) args ∈ declarations topic c) ∧
    ((c.binding topic).exchange = topicExchange topic ∨
      (c.binding topic).exchange = fanoutExchange topic ∨
      .assertExchange (c.binding topic).exchange ∈ declarations topic c) := by
  unfold declarations Call.binding
  split_ifs <;> simp_all [ensureBusExchanges, ensureHashExchange]

@[simp] theorem Call.binding_queue : (c.binding topic).queue = c.queue topic := by
  unfold Call.binding
  split_ifs <;> rfl

/-- A subscription's call when it is carried out, and when it is refused. -/
structure Subscribes (topic : String) (b : Rabbit) (c : Call) (b' : Rabbit) (ok : Bool) : Prop where
  bindings : b'.bindings = if ok then b.bindings.add (c.binding topic) else b.bindings
  consumers : b'.consumers =
    if ok then b.consumers ++ [⟨b.nextChannel, c.queue topic, c.subscriberId⟩] else b.consumers
  ready : b'.ready = b.ready
  unacked : b'.unacked = b.unacked
  nextChannel : b'.nextChannel = b.nextChannel + 1
  prefetch : b'.prefetch = Function.update b.prefetch b.nextChannel 1
  queues : ∀ q args, b'.queues.lookup q = some args →
    b.queues.lookup q = some args ∨ .assertQueue q args ∈ declarations topic c
  /-- It is refused only for a queue that is declared with other arguments. -/
  refused : ok = false → b.Conflict (declarations topic c)

/-- **A subscription binds its queue once and consumes from it, or changes no binding.** -/
theorem subscribes (topic : String) (hopened : b.Opened)
    (hstream : c.options.streamReplay = false) :
    Subscribes topic b c (subscribe topic b c).1 (subscribe topic b c).2 := by
  -- The broker with the exchanges, the channel and its prefetch.
  let b₁ : Rabbit := { (withBusExchanges topic b).createChannel with
    prefetch := Function.update b.prefetch b.nextChannel 1 }
  have hsubscribe : subscribe topic b c =
      b₁.run b.nextChannel (declarations topic c ++
        [.bindQueue (c.queue topic) (c.binding topic).exchange (c.binding topic).key,
          .consume b.nextChannel (c.queue topic) c.subscriberId]) := by
    simp only [subscribe, run_ensureBusExchanges, subscribeMethods, hstream, Bool.false_eq_true,
      if_false, withBusExchanges]
    rfl
  rw [hsubscribe]
  obtain ⟨b', hdeclared, hqueues, hrun⟩ :=
    Broker.run_declares b.nextChannel (declares_declarations topic c) (b := b₁)
  rcases hrun with ⟨hrun, hdone⟩ | ⟨hrun, hconflict⟩
  · obtain ⟨⟨args, hargs⟩, hexchange⟩ := declarations_cover topic c
    have hqueue : c.queue topic ∈ b'.queues :=
      AList.lookup_isSome.mp (Option.isSome_iff_exists.mpr
        ⟨args, hdone _ hargs⟩)
    have hmem : (c.binding topic).exchange ∈ b'.exchanges.items := by
      rcases hexchange with h | h | h
      · rw [h]
        exact hdeclared.exchanges (InsertionSet.mem_add.mpr (.inl (InsertionSet.mem_add.mpr
          (.inr rfl))))
      · rw [h]
        exact hdeclared.exchanges (InsertionSet.mem_add.mpr (.inr rfl))
      · exact hdone _ h
    have hbinding : (⟨(c.binding topic).exchange, c.queue topic, (c.binding topic).key⟩ : Binding) =
        c.binding topic := by
      have hq : (c.binding topic).queue = c.queue topic := Call.binding_queue
      rw [← hq]
    have hresult : b'.run b.nextChannel
        [.bindQueue (c.queue topic) (c.binding topic).exchange (c.binding topic).key,
          .consume b.nextChannel (c.queue topic) c.subscriberId] =
        ({ b' with
          bindings := b'.bindings.add (c.binding topic)
          consumers :=
            b'.consumers ++ [⟨b.nextChannel, c.queue topic, c.subscriberId⟩] }, true) := by
      simp [Broker.run, Broker.exec, hqueue, hmem, hbinding]
    rw [hrun, hresult]
    constructor
    · simp [hdeclared.bindings, b₁, Broker.createChannel, withBusExchanges]
    · simp [hdeclared.consumers, b₁, Broker.createChannel, withBusExchanges]
    · exact hdeclared.ready
    · exact hdeclared.unacked
    · exact hdeclared.nextChannel
    · exact hdeclared.prefetch
    · exact hqueues
    · simp
  · have hclosed : b'.close b.nextChannel =
        { b' with channels := b'.channels.erase b.nextChannel } := by
      refine Broker.close_of_unused (fun c hc => ?_) fun d hd => ?_
      · rw [hdeclared.consumers] at hc
        exact (hopened.1 c hc).ne
      · rw [hdeclared.unacked] at hd
        exact (hopened.2 d hd).ne
    rw [hrun, hclosed]
    exact ⟨hdeclared.bindings, hdeclared.consumers, hdeclared.ready, hdeclared.unacked,
      hdeclared.nextChannel, hdeclared.prefetch, hqueues, fun _ => hconflict⟩

theorem Subscribes.opened {b' : Rabbit} {ok : Bool} (h : Subscribes topic b c b' ok)
    (hopened : b.Opened) : b'.Opened := by
  refine ⟨fun c' hc => ?_, fun d hd => ?_⟩
  · rw [h.consumers] at hc
    rw [h.nextChannel]
    split_ifs at hc
    · rcases List.mem_append.mp hc with hc | hc
      · exact (hopened.1 c' hc).trans (Nat.lt_succ_self _)
      · rw [List.mem_singleton.mp hc]
        exact Nat.lt_succ_self _
    · exact (hopened.1 c' hc).trans (Nat.lt_succ_self _)
  · rw [h.unacked] at hd
    rw [h.nextChannel]
    exact (hopened.2 d hd).trans (Nat.lt_succ_self _)

/-! ## What `publish` does -/

/-- The copies of a message: the exchange each came through, and the queue it lies on. -/
def copies (topic : String) (b : Rabbit) (p : Publication) (picked : Option String) :
    List (Exchange × String) :=
  (b.route topicRoutes (topicExchange topic) (p.key topic) none).map (topicExchange topic, ·) ++
    (b.route topicRoutes (fanoutExchange topic) "" none).map (fanoutExchange topic, ·) ++
    if p.group.isSome then picked.toList.map (hashExchange topic, ·) else []

/-- **A publish adds one message for each copy, and changes no binding.** -/
theorem publish_eq (topic : String) (b : Rabbit) (p : Publication) (picked : Option String) :
    (publish topic b p picked).ready =
        b.ready ++ (copies topic b p picked).map (fun copy => (copy.2, p.message)) ∧
      (publish topic b p picked).bindings = b.bindings ∧
      (publish topic b p picked).consumers = b.consumers ∧
      (publish topic b p picked).unacked = b.unacked ∧
      (publish topic b p picked).queues = b.queues ∧
      (publish topic b p picked).nextChannel = b.nextChannel ∧
      (publish topic b p picked).prefetch = b.prefetch := by
  unfold publish copies
  rw [run_ensureBusExchanges]
  cases p.group with
  | none =>
    simp [Broker.publish, Broker.route, Broker.bound, topicExchange, fanoutExchange,
      withBusExchanges, Function.comp_def]
  | some g =>
    simp [Broker.publish, Broker.route, Broker.bound, topicExchange, fanoutExchange, hashExchange,
      ensureHashExchange, Broker.run, Broker.exec, withBusExchanges, Function.comp_def]

end MessagingPoc.RabbitMq
