import MessagingPoc.Lib.Once
import MessagingPoc.RabbitMq.Adapter

/-!
# The .NET RabbitMQ adapter: its topology caches

`RabbitMqScheduler.cs` remembers in three dictionaries which names it has declared.
`EnsureTopology`, `EnsureBusExchanges` and `EnsureHashExchange` all put the name in first (`TryAdd`)
and make the broker calls then; `rabbitmq.ts` makes the calls first. Any broker call may throw, and
the resilience decorator then runs the whole operation again: a retry is one more operation.

**The caches lie from the first declare or bind that throws, and not before**
(`caches_truthful_iff`); remembered last, they never do (`truthful_remembered_last`).
-/

namespace MessagingPoc.RabbitMq.TopologyCache

open Amqp Machine Once

/-! ## Broker calls -/

inductive Cache
  | topology
  | busTopology
  | hashTopology
deriving DecidableEq

/-- A name in a cache: a destination, or a topic. -/
structure Entry where
  cache : Cache
  name : String
deriving DecidableEq

/-- The calls of the client library that may throw. -/
inductive BrokerCall
  /-- `CreateModel` and `BasicQos` of a subscription's channel. -/
  | channel
  | exchangeDeclare (e : Exchange)
  /-- A queue, and the exchange its arguments dead-letter to. -/
  | queueDeclare (queue : String) (deadLetterTo : Option Exchange)
  | queueBind (queue : String) (e : Exchange)
  | basicPublish (e : Exchange)
  | basicConsume (queue : String)
  /-- `QueueBind` of a destination's queue to the delayed exchange. -/
  | delayedBind (destination : String)
  /-- `BasicPublish` to the delayed exchange. -/
  | delayedPublish (destination : String)
deriving DecidableEq

def queueName (destination : String) : String := "q." ++ destination

/-- The declares and binds a name stands for. -/
def standsFor (e : Entry) : List BrokerCall :=
  match e.cache with
  | .topology => [.queueDeclare (queueName e.name) none, .delayedBind e.name]
  | .busTopology =>
    [.exchangeDeclare (topicExchange e.name), .exchangeDeclare (fanoutExchange e.name)]
  | .hashTopology => [.exchangeDeclare (hashExchange e.name)]

/-- The exchanges and queues a call uses, or refers to, have been declared. -/
def Supported (before : List BrokerCall) : BrokerCall → Prop
  | .channel | .exchangeDeclare _ => True
  | .queueDeclare _ deadLetterTo => ∀ e ∈ deadLetterTo, .exchangeDeclare e ∈ before
  | .queueBind q e => (∃ x, .queueDeclare q x ∈ before) ∧ .exchangeDeclare e ∈ before
  | .basicPublish e => .exchangeDeclare e ∈ before
  | .basicConsume q => ∃ x, .queueDeclare q x ∈ before
  | .delayedBind d => .queueDeclare (queueName d) none ∈ before
  | .delayedPublish d => .delayedBind d ∈ before

/-! ## Operations -/

inductive Op
  | sendNow (destination : String)
  | schedule (destination : String)
  | consume (destination : String)
  | publish (topic : String) (options : Option PublishOptions)
  | subscribe (topic : String) (c : Call)

abbrev Program := List (Command Entry BrokerCall)

def ensureTopology (destination : String) : Command Entry BrokerCall :=
  .ensure ⟨.topology, destination⟩

def ensureBusExchanges (topic : String) : Command Entry BrokerCall :=
  .ensure ⟨.busTopology, topic⟩

def ensureHashExchange (topic : String) : Command Entry BrokerCall :=
  .ensure ⟨.hashTopology, topic⟩

def subscribeStreamReplay (topic : String) : Program :=
  [.call .channel, .call (.queueDeclare (streamQueueName topic) none),
    .call (.queueBind (streamQueueName topic) (topicExchange topic)),
    .call (.basicConsume (streamQueueName topic))]

/-- The exchange the arguments of the subscription's queue name, other than the default one. -/
def deadLetterTo (topic : String) (c : Call) : Option Exchange :=
  if c.options.ttlMs.isSome then some (fanoutExchange (expiryAddress topic))
  else if c.retryEnabled then none
  else if c.options.deadLetter then some (fanoutExchange (deadLetterAddress topic))
  else none

def subscribe (topic : String) (c : Call) : Program :=
  ensureBusExchanges topic ::
  if c.options.streamReplay then subscribeStreamReplay topic
  else
    [.call .channel] ++
    (if c.retryEnabled then
      [ensureBusExchanges (deadLetterAddress topic),
        .call (.queueDeclare (c.retryQueue topic) none)]
    else if c.options.deadLetter then [ensureBusExchanges (deadLetterAddress topic)]
    else []) ++
    (if c.options.ttlMs.isSome then [ensureBusExchanges (expiryAddress topic)] else []) ++
    [.call (.queueDeclare (c.queue topic) (deadLetterTo topic c))] ++
    (if c.options.partitionByGroup then
      [ensureHashExchange topic, .call (.queueBind (c.queue topic) (hashExchange topic))]
    else if c.options.kind = .fanout then
      [.call (.queueBind (c.queue topic) (fanoutExchange topic))]
    else [.call (.queueBind (c.queue topic) (topicExchange topic))]) ++
    [.call (.basicConsume (c.queue topic))]

def publish (topic : String) (options : Option PublishOptions) : Program :=
  [ensureBusExchanges topic, .call (.basicPublish (topicExchange topic)),
    .call (.basicPublish (fanoutExchange topic))] ++
  if (options.bind (·.groupId)).isSome then
    [ensureHashExchange topic, .call (.basicPublish (hashExchange topic))]
  else []

def compile : Op → Program
  | .sendNow d | .schedule d => [ensureTopology d, .call (.delayedPublish d)]
  | .consume d => [ensureTopology d, .call (.basicConsume (queueName d))]
  | .publish topic options => publish topic options
  | .subscribe topic c => subscribe topic c

/-- The adapter, with its names remembered in one order or the other. -/
def adapter (order : Order) : Scheme Entry BrokerCall Op where
  order := order
  standsFor := standsFor
  compile := compile

/-- `RabbitMqScheduler.cs`: `TryAdd`, then the broker calls. -/
def net : Scheme Entry BrokerCall Op := adapter .first

/-! ## The operations are sensible -/

def reliance : Reliance BrokerCall where
  supported := Supported
  mono := by
    intro before after c hsub h
    cases c with
    | channel | exchangeDeclare => trivial
    | queueDeclare => exact fun e he => hsub (h e he)
    | queueBind => exact ⟨h.1.imp fun _ hx => hsub hx, hsub h.2⟩
    | basicConsume => exact h.imp fun _ hx => hsub hx
    | basicPublish | delayedBind | delayedPublish => exact hsub h

theorem sensible (order : Order) : (adapter order).Sensible reliance where
  chain := by
    rintro ⟨cache, name⟩
    cases cache <;> simp [adapter, standsFor, Reliance.Chain, reliance, Supported]
  ready := by
    intro op
    cases op with
    | sendNow d | schedule d | consume d =>
      simp [adapter, compile, ensureTopology, Scheme.Ready, standsFor, reliance, Supported]
    | publish topic options =>
      simp only [adapter, compile, publish]
      split_ifs <;>
        simp [Scheme.Ready, ensureBusExchanges, ensureHashExchange, standsFor, reliance, Supported]
    | subscribe topic c =>
      simp only [adapter, compile, subscribe, subscribeStreamReplay, deadLetterTo]
      split_ifs <;>
        simp_all [Scheme.Ready, ensureBusExchanges, ensureHashExchange, standsFor, reliance,
          Supported]
  plain := by
    intro op c
    cases op with
    | sendNow | schedule | consume => simp [adapter, compile, ensureTopology]
    | publish topic options =>
      simp only [adapter, compile, publish]
      split_ifs <;> simp [ensureBusExchanges, ensureHashExchange]
    | subscribe topic c' =>
      simp only [adapter, compile, subscribe, subscribeStreamReplay]
      split_ifs <;> simp [ensureBusExchanges, ensureHashExchange]

/-! ## The calls of a name are its own -/

/-- The calls an operation makes for itself. Only destinations have queues whose names begin with
a `q`. -/
def BrokerCall.own : BrokerCall → Prop
  | .exchangeDeclare _ | .delayedBind _ => False
  | .queueDeclare q _ => q.toList.head? ≠ some 'q'
  | _ => True

theorem head_queue (topic : String) (c : Call) :
    (c.queue topic).toList.head? = some 'b' ∧ (c.retryQueue topic).toList.head? = some 'b' := by
  unfold Call.retryQueue Call.queue
  split_ifs <;> simp

theorem not_own {e : Entry} {c : BrokerCall} (h : c ∈ standsFor e) : ¬ c.own := by
  unfold standsFor at h
  split at h <;> simp only [List.mem_cons, List.not_mem_nil, or_false] at h
  · rcases h with rfl | rfl
    · simp [BrokerCall.own, queueName]
    · exact id
  · rcases h with rfl | rfl <;> exact id
  · subst h
    exact id

/-- All the calls an operation makes beside those that names stand for are its own. -/
def OwnCalls (p : Program) : Prop := ∀ c, .call c ∈ p → c.own

@[simp] theorem ownCalls_nil : OwnCalls [] := by simp [OwnCalls]

@[simp] theorem ownCalls_ensure (e : Entry) (p : Program) :
    OwnCalls (.ensure e :: p) ↔ OwnCalls p := by
  simp [OwnCalls]

@[simp] theorem ownCalls_call (c : BrokerCall) (p : Program) :
    OwnCalls (.call c :: p) ↔ c.own ∧ OwnCalls p := by
  simp [OwnCalls]

theorem ownCalls_compile (op : Op) : OwnCalls (compile op) := by
  cases op with
  | sendNow | schedule | consume => simp [compile, ensureTopology, BrokerCall.own]
  | publish topic options =>
    simp only [compile, publish]
    split_ifs <;> simp [ensureBusExchanges, ensureHashExchange, BrokerCall.own]
  | subscribe topic c =>
    obtain ⟨hqueue, hretry⟩ := head_queue topic c
    have hstream : (streamQueueName topic).toList.head? = some 's' := by simp [streamQueueName]
    simp only [compile, subscribe, subscribeStreamReplay]
    split_ifs <;>
      simp [ensureBusExchanges, ensureHashExchange, BrokerCall.own, hqueue, hretry, hstream]

/-- A set-up call tells the name it belongs to. -/
theorem standsFor_owner {e e' : Entry} {c : BrokerCall} (h : c ∈ standsFor e)
    (h' : c ∈ standsFor e') : e = e' := by
  obtain ⟨cache, name⟩ := e
  obtain ⟨cache', name'⟩ := e'
  cases cache with
  | topology =>
    simp only [standsFor, List.mem_cons, List.not_mem_nil, or_false] at h
    rcases h with rfl | rfl <;> cases cache' <;> simp_all [standsFor, queueName]
  | busTopology =>
    simp only [standsFor, List.mem_cons, List.not_mem_nil, or_false] at h
    rcases h with rfl | rfl <;> cases cache' <;>
      simp_all [standsFor, topicExchange, fanoutExchange, hashExchange]
  | hashTopology =>
    simp only [standsFor, List.mem_cons, List.not_mem_nil, or_false] at h
    subst h
    cases cache' <;> simp_all [standsFor, topicExchange, fanoutExchange, hashExchange]

theorem distinct (order : Order) : (adapter order).Distinct where
  owner := standsFor_owner
  nodup := by
    rintro ⟨cache, name⟩
    cases cache <;> simp [adapter, standsFor, topicExchange, fanoutExchange]
  foreign := fun h name hmem => not_own hmem (ownCalls_compile _ _ h)

/-! ## The caches -/

/-- **The caches lie from the first declare or bind that throws.** Whenever no `Ensure` method is at
its calls, between operations above all, every name in a cache has been set up if and only if no
call of an `Ensure` method has thrown; and as long as none has, every exchange and queue a call uses
has been declared. -/
theorem caches_truthful_iff {p : Client Entry BrokerCall × List BrokerCall}
    (h : Reach net.recorded p) :
    (p.1.Settled → (net.Truthful p.1 ↔ p.2 = [])) ∧
      (p.2 = [] → Always (fun c before => Supported before c) p.1.done) := by
  refine ⟨fun hsettled => ?_, fun hp => ?_⟩
  · exact truthful_iff (distinct .first) (sensible .first) rfl h hsettled
  · have huninterrupted := (h.silent hp).mono fun s l => interruption_eq_nil.mp
    exact (Once.sound (sensible .first) huninterrupted).supported

/-- Remembered last, as in `rabbitmq.ts`, names never lie. -/
theorem truthful_remembered_last {s : Client Entry BrokerCall}
    (h : Reach (adapter .last).machine s) : (adapter .last).Truthful s :=
  truthful_of_last (sensible .last) rfl h

/-- Play a list of labels beside the record of the set-up calls that threw. -/
def playRecorded (ls : List (Once.Label Op)) : Client Entry BrokerCall × List BrokerCall :=
  play (recordStep net.step interruption) ({}, []) ls

theorem reach_playRecorded (ls : List (Once.Label Op)) : Reach net.recorded (playRecorded ls) :=
  reach_play (recordStep_step fun _ _ _ => id) ⟨rfl, rfl⟩ ls

/-- A message is sent at once. -/
def sent : List (Once.Label Op) := [.start (.sendNow "d"), .next, .next, .next, .next]

theorem caches_truthful_iff_sent : net.Truthful (playRecorded sent).1 :=
  ((caches_truthful_iff (reach_playRecorded sent)).1 nofun).mpr rfl

/-- A publish whose first declare throws, and its retry. -/
def retried : List (Once.Label Op) :=
  [.start (.publish "t" none), .next, .throw, .start (.publish "t" none), .next, .next, .next]

/-- **A retry publishes to an exchange that was never declared.** -/
theorem retry_undeclared : ¬ ∀ p, Reach net.recorded p →
    (p.1.program = [] → net.Truthful p.1) ∧
      Always (fun c before => Supported before c) p.1.done := by
  intro hclaim
  obtain ⟨-, hfanout, htopic, -⟩ := hclaim _ (reach_playRecorded retried)
  -- The first publish has nothing before it.
  have hdeclared : BrokerCall.exchangeDeclare (topicExchange "t") ∈ [] := htopic
  exact List.not_mem_nil hdeclared

end MessagingPoc.RabbitMq.TopologyCache
