import Mathlib.Data.List.Defs
import Mathlib.Logic.Basic

/-!
# The ports

The data of `IMessageBus.cs` (and of its TypeScript twin `message-bus.ts`): topology kinds,
publish and subscribe options, and the address conventions every adapter shares. C#'s `int` is
`Int32` throughout, so that counters wrap where the program's do. Then the data of the scheduler
port, `IMessageScheduler.cs` and `message-scheduler.ts`, and what a bus subscriber is handed.
-/

namespace MessagingPoc

/-- `topic` is routing-key filtered; under `fanout` every subscriber gets a copy. -/
inductive TopologyKind
  | topic
  | fanout
deriving DecidableEq, Repr

/-- Per-message publish metadata. -/
structure PublishOptions where
  priority : Option Int32 := none
  groupId : Option String := none
  dedupId : Option String := none
  replyTo : Option String := none
  correlationId : Option String := none
  ttlMs : Option Int32 := none
  headers : Option (List (String × String)) := none
deriving DecidableEq

/-- Options that shape a subscription's topology and dead-letter wiring. -/
structure SubscribeOptions where
  kind : TopologyKind := .topic
  routingKey : Option String := none
  subscriberId : Option String := none
  deadLetter : Bool := false
  maxDeliveries : Option Int32 := none
  retryDelayMs : Option Int32 := none
  partitionByGroup : Bool := false
  singleActiveConsumer : Bool := false
  streamReplay : Bool := false
  transient : Bool := false
  priorityQueue : Bool := false
  ttlMs : Option Int32 := none
deriving DecidableEq

/-- An `AckHandler` delegate. The bus only ever compares delegates, with `Delegate.Equals`; two
handlers are equal here exactly when their delegates are. -/
structure AckHandler where
  delegate : Nat
deriving DecidableEq, Repr

/-! ## Conventions shared across adapters -/

/-- Default number of delivery attempts before dead-lettering. -/
def defaultMaxDeliveries : Int32 := 3

/-- The conventional dead-letter destination for a topic. -/
def deadLetterAddress (topic : String) : String := topic ++ ".dlq"

/-- The conventional expiry destination for a topic. -/
def expiryAddress (topic : String) : String := topic ++ ".expiry"

/-! ## The scheduler port -/

/-- A `MessageHandler` delegate, like an `AckHandler` only ever compared. -/
structure MessageHandler where
  delegate : Nat
deriving DecidableEq, Repr

structure ReceivedMessage where
  id : String
  destination : String
  body : String
  headers : List (String × String)
deriving DecidableEq

/-- A row of `ListScheduledAsync`. Instants are numbers, in the units of the runtime. -/
structure ScheduledInfo where
  id : String
  destination : String
  deliverAt : Int
deriving DecidableEq

/-! ## The bus port -/

/-- What an `IncomingMessage` tells its handler; `ack` and `nack` belong to each adapter. -/
structure IncomingMessage extends ReceivedMessage where
  deliveryCount : Option Nat := none
  replyTo : Option String := none
  correlationId : Option String := none
  groupId : Option String := none
  priority : Option Int := none
deriving DecidableEq

end MessagingPoc
