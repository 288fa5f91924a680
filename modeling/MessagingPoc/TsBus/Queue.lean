import MessagingPoc.Abstractions
import MessagingPoc.Lib.InsertionMap
import MessagingPoc.Lib.Search
import MessagingPoc.TopicMatch
import Mathlib.Logic.Function.Basic

/-!
# `BusQueue` of `in-memory-bus.ts`

The queue object of the TypeScript engine. A `BusMessage` is a heap object compared by reference:
`ref` is its identity, and its one mutable field, `deliveryCount`, lives with the bus. The numbers
of the options are whole; counters are doubles, counted up by `Double.next`.
-/

namespace MessagingPoc.TsBus

/-! ## The port's data -/

/-- `PublishOptions` of `message-bus.ts`. -/
structure PublishOptions where
  priority : Option Int := none
  groupId : Option String := none
  dedupId : Option String := none
  replyTo : Option String := none
  correlationId : Option String := none
  ttlMs : Option Int := none
  headers : Option (List (String × String)) := none
deriving DecidableEq

/-- What the engine reads of `SubscribeOptions`. -/
structure SubscribeOptions where
  kind : Option TopologyKind := none
  routingKey : Option String := none
  subscriberId : Option String := none
  deadLetter : Option Bool := none
  maxDeliveries : Option Int := none
  retryDelayMs : Option Int := none
  partitionByGroup : Option Bool := none
  singleActiveConsumer : Option Bool := none
  streamReplay : Option Bool := none
deriving DecidableEq

def DEFAULT_MAX_DELIVERIES : Int := 3

structure BusMessage extends PublishOptions where
  /-- The identity of the object; no two allocations share it. -/
  ref : Nat
  id : String
  topic : String
  body : String
  routingKey : String
deriving DecidableEq

namespace BusMessage

/-- What the selection compares: `priority ?? 0`. -/
def rank (m : BusMessage) : Int := m.priority.getD 0

/-- The group a partitioned queue files the message under: `groupId ?? ''`. -/
def group (m : BusMessage) : String := m.groupId.getD ""

end BusMessage

/-! ## `BusQueue` -/

structure BusQueue where
  topic : String
  kind : TopologyKind
  routingKey : Option String
  maxDeliveries : Int
  deadLetter : Bool
  retryDelayMs : Option Int
  partitionByGroup : Bool
  singleActiveConsumer : Bool
  pending : List BusMessage := []
  inflight : InsertionMap BusMessage AckHandler := .empty
  consumers : List AckHandler := []
  rr : Nat := 0
  groupAffinity : String → Option AckHandler := fun _ => none

namespace BusQueue

/-- Does a published routing key reach this queue? -/
def «matches» (Q : BusQueue) (messageKey : String) : Bool :=
  match Q.kind, Q.routingKey with
  | .fanout, _ => true
  | .topic, none => true
  | .topic, some key => if key = "" then true else topicMatch key messageKey

def pickFreeConsumer (Q : BusQueue) (busy : List AckHandler) : Option AckHandler × BusQueue :=
  let (pick, rr) := Search.scan Q.consumers busy Q.consumers.length Q.rr
  (pick, { Q with rr := rr })

/-- The next consumer that has no message in flight. -/
def nextConsumer (Q : BusQueue) : Option AckHandler × BusQueue :=
  match Q.consumers with
  | [] => (none, Q)
  | active :: _ =>
    if Q.singleActiveConsumer then (if Q.inflight.entries = [] then some active else none, Q)
    else Q.pickFreeConsumer Q.inflight.values

def rankAt (Q : BusQueue) (i : Nat) : Int := (Q.pending[i]?.map BusMessage.rank).getD 0

/-- The next message to deliver: the highest priority wins, ties fall back to FIFO. -/
def nextPending (Q : BusQueue) : Option BusMessage × BusQueue :=
  let best := Search.firstMax Q.rankAt Q.pending.length
  (Q.pending[best]?, { Q with pending := Q.pending.eraseIdx best })

/-- Delete the pin of a group whose consumer has gone away. -/
def dropStalePin (Q : BusQueue) (group : String) : BusQueue :=
  match Q.groupAffinity group with
  | none => Q
  | some owner =>
    if owner ∈ Q.consumers then Q
    else { Q with groupAffinity := Function.update Q.groupAffinity group none }

/-- The loop of `nextGroupDelivery`, at index `i` of `pending` with `rest` still to scan. -/
def groupScan (busy : List AckHandler) :
    Nat → List BusMessage → BusQueue → Option (BusMessage × AckHandler) × BusQueue
  | _, [], Q => (none, Q)
  | i, msg :: rest, Q =>
    let Q₁ := Q.dropStalePin msg.group
    match Q₁.groupAffinity msg.group with
    | some owner =>
      if owner ∈ busy then groupScan busy (i + 1) rest Q₁
      else (some (msg, owner), { Q₁ with pending := Q₁.pending.eraseIdx i })
    | none =>
      match Q₁.pickFreeConsumer busy with
      | (none, Q₂) => groupScan busy (i + 1) rest Q₂
      | (some free, Q₂) => (some (msg, free),
          { Q₂ with
            groupAffinity := Function.update Q₂.groupAffinity msg.group (some free)
            pending := Q₂.pending.eraseIdx i })

/-- The next deliverable message and consumer of a partitioned queue. -/
def nextGroupDelivery (Q : BusQueue) : Option (BusMessage × AckHandler) × BusQueue :=
  if Q.consumers = [] ∨ Q.pending = [] then (none, Q)
  else groupScan Q.inflight.values 0 Q.pending Q

/-- What one turn of `pump` picks. -/
def next (Q : BusQueue) : Option (BusMessage × AckHandler) × BusQueue :=
  if Q.pending = [] ∨ Q.consumers = [] then (none, Q)
  else if Q.partitionByGroup then Q.nextGroupDelivery
  else match Q.nextConsumer with
    | (none, Q₁) => (none, Q₁)
    | (some free, Q₁) =>
      match Q₁.nextPending with
      | (none, Q₂) => (none, Q₂)
      | (some msg, Q₂) => (some (msg, free), Q₂)

/-- What a consumer holds, in the order in which it was put in flight. -/
def heldBy (Q : BusQueue) (c : AckHandler) : List BusMessage :=
  (Q.inflight.entries.filter fun e => e.2 = c).map Prod.fst

/-- What a settlement does with the message it takes out of flight. -/
inductive Resolution
  | acked
  | dead
  | parked
  | requeued
deriving DecidableEq, Repr

inductive Settlement
  | ack
  | requeue
  | dead
deriving DecidableEq, Repr

def resolve (Q : BusQueue) (deliveryCount : Nat) : Settlement → Resolution
  | .ack => .acked
  | .dead => .dead
  | .requeue =>
    if (deliveryCount : Int) ≥ Q.maxDeliveries then .dead
    else if Q.retryDelayMs.any (0 < ·) then .parked
    else .requeued

theorem retry_of_resolve {Q : BusQueue} {n : Nat} {kind : Settlement} {r : Resolution}
    (h : Q.resolve n kind = r) (hr : r = .parked ∨ r = .requeued) :
    (n : Int) < Q.maxDeliveries := by
  cases kind with
  | ack => simp [← h, resolve] at hr
  | dead => simp [← h, resolve] at hr
  | requeue =>
    rw [resolve] at h
    split_ifs at h with hmax
    · simp [← h] at hr
    · exact Int.not_le.mp hmax
    · exact Int.not_le.mp hmax

end BusQueue

end MessagingPoc.TsBus
