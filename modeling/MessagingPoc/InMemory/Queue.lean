import MessagingPoc.Abstractions
import MessagingPoc.Lib.RoundRobin
import MessagingPoc.Lib.Table
import MessagingPoc.TopicMatch
import Mathlib.Logic.Function.Basic

/-!
# `BusQueue`: one logical subscriber queue

`BusMessage`, `PendingQueue` and `BusQueue` of `InMemoryBus.cs`. A `BusMessage` is a heap object
compared by reference: `ref` is its identity, the other fields never change. Its one mutable
field, `DeliveryCount`, lives with the bus.

The selection routines differ in how they pick a consumer and a message; `Chosen` says once what
any of them has done when it came back with a delivery, and `Scanned` what it has done when it
came back without one.
-/

namespace MessagingPoc

open RoundRobin

/-! ## Messages -/

structure BusMessage where
  /-- The identity of the object; no two allocations share it. -/
  ref : Nat
  id : String
  topic : String
  body : String
  routingKey : String
  options : Option PublishOptions
deriving DecidableEq

namespace BusMessage

def priority (m : BusMessage) : Int32 := (m.options.bind (·.priority)).getD 0

/-- The group a partitioned queue files the message under. -/
def group (m : BusMessage) : String := (m.options.bind (·.groupId)).getD ""

end BusMessage

/-! ## `PendingQueue` -/

namespace PendingQueue

def enqueue (items : List BusMessage) (m : BusMessage) : List BusMessage := items ++ [m]

def enqueueFront (items : List BusMessage) (m : BusMessage) : List BusMessage := m :: items

def remove (items : List BusMessage) (m : BusMessage) : List BusMessage := items.erase m

def removeAt (items : List BusMessage) (index : Nat) : List BusMessage := items.eraseIdx index

def priorityAt (items : List BusMessage) (i : Nat) : Int32 :=
  (items[i]?.map BusMessage.priority).getD 0

/-- The loop of `DequeueHighestPriority`: the first index of highest priority. -/
def bestIndex (items : List BusMessage) : Nat :=
  (List.range' 1 (items.length - 1)).foldl
    (fun best i => if priorityAt items i > priorityAt items best then i else best) 0

def dequeueHighestPriority (items : List BusMessage) : Option (BusMessage × List BusMessage) :=
  let best := bestIndex items
  items[best]?.map fun m => (m, removeAt items best)

end PendingQueue

/-! ## `BusQueue` -/

structure BusQueue where
  topic : String
  kind : TopologyKind
  routingKey : Option String
  maxDeliveries : Int32
  deadLetter : Bool
  retryDelayMs : Option Int32
  partitionByGroup : Bool
  singleActiveConsumer : Bool
  pending : List BusMessage := []
  inflight : AList (fun _ : BusMessage => AckHandler) := ∅
  consumers : List AckHandler := []
  groupAffinity : String → Option AckHandler := fun _ => none
  rr : Int32 := 0

namespace BusQueue

/-- Does a published routing key reach this queue? -/
def «matches» (Q : BusQueue) (messageKey : String) : Bool :=
  match Q.kind, Q.routingKey with
  | .fanout, _ => true
  | .topic, none => true
  | .topic, some key => if key = "" then true else topicMatch key messageKey

/-- `Inflight.Values`: the consumers that hold a message. -/
def owners (Q : BusQueue) : List AckHandler := Q.inflight.entries.map Sigma.snd

def pickFreeConsumer (Q : BusQueue) (busy : List AckHandler) : Pick AckHandler × BusQueue :=
  let (pick, rr) := scan Q.consumers busy Q.consumers.length Q.rr
  (pick, { Q with rr := rr })

/-- The next consumer without a message in flight. -/
def nextConsumer (Q : BusQueue) : Pick AckHandler × BusQueue :=
  match Q.consumers with
  | [] => (.nobody, Q)
  | active :: _ =>
    if Q.singleActiveConsumer then
      (if Q.inflight.entries = [] then .found active else .nobody, Q)
    else Q.pickFreeConsumer Q.owners

/-- Drop the pin of a group whose consumer has gone away. -/
def dropStalePin (Q : BusQueue) (group : String) : BusQueue :=
  match Q.groupAffinity group with
  | none => Q
  | some owner =>
    if owner ∈ Q.consumers then Q
    else { Q with groupAffinity := Function.update Q.groupAffinity group none }

/-- The loop of `NextGroupDelivery`, at index `i` of `Pending` with `rest` still to scan. -/
def groupScan (busy : List AckHandler) :
    Nat → List BusMessage → BusQueue → Pick (BusMessage × AckHandler) × BusQueue
  | _, [], Q => (.nobody, Q)
  | i, m :: rest, Q =>
    let Q₁ := Q.dropStalePin m.group
    match Q₁.groupAffinity m.group with
    | some owner =>
      if owner ∈ busy then groupScan busy (i + 1) rest Q₁
      else (.found (m, owner), { Q₁ with pending := PendingQueue.removeAt Q₁.pending i })
    | none =>
      match Q₁.pickFreeConsumer busy with
      | (.threw, Q₂) => (.threw, Q₂)
      | (.nobody, Q₂) => groupScan busy (i + 1) rest Q₂
      | (.found free, Q₂) => (.found (m, free),
          { Q₂ with
            groupAffinity := Function.update Q₂.groupAffinity m.group (some free)
            pending := PendingQueue.removeAt Q₂.pending i })

/-- The next deliverable message and consumer of a partitioned queue. -/
def nextGroupDelivery (Q : BusQueue) : Pick (BusMessage × AckHandler) × BusQueue :=
  if Q.consumers = [] ∨ Q.pending = [] then (.nobody, Q)
  else groupScan Q.owners 0 Q.pending Q

/-- What one turn of `Pump` picks under the lock, before it books the delivery. -/
def next (Q : BusQueue) : Pick (BusMessage × AckHandler) × BusQueue :=
  if Q.pending = [] ∨ Q.consumers = [] then (.nobody, Q)
  else if Q.partitionByGroup then Q.nextGroupDelivery
  else match Q.nextConsumer with
    | (.threw, Q₁) => (.threw, Q₁)
    | (.nobody, Q₁) => (.nobody, Q₁)
    | (.found c, Q₁) =>
      match PendingQueue.dequeueHighestPriority Q₁.pending with
      | none => (.threw, Q₁)
      | some (m, rest) => (.found (m, c), { Q₁ with pending := rest })

/-- Remove a message that is still pending or in flight; `true` if it was un-consumed. -/
def removeUnconsumed (Q : BusQueue) (m : BusMessage) : Bool × BusQueue :=
  if m ∈ Q.pending then (true, { Q with pending := PendingQueue.remove Q.pending m })
  else (decide (m ∈ Q.inflight), { Q with inflight := Q.inflight.erase m })

/-- Push a crashed consumer's message back to the front of the queue. -/
def requeueFront (Q : BusQueue) (m : BusMessage) : BusQueue :=
  { Q with pending := PendingQueue.enqueueFront Q.pending m }

/-- The messages a consumer holds. -/
def heldBy (Q : BusQueue) (c : AckHandler) : List BusMessage :=
  (Q.inflight.entries.filter fun e => e.2 = c).map Sigma.fst

/-- The dispose callback of a subscription: detach the consumer and put what it holds back. -/
def detach (Q : BusQueue) (c : AckHandler) : BusQueue :=
  (Q.heldBy c).foldl
    (fun Q m => { Q with inflight := Q.inflight.erase m }.requeueFront m)
    { Q with consumers := Q.consumers.erase c }

/-! ## The in-flight table -/

theorem mem_owners {Q : BusQueue} {c : AckHandler} :
    c ∈ Q.owners ↔ ∃ m, Q.inflight.lookup m = some c := Table.mem_values

theorem owners_eq_nil {Q : BusQueue} (h : Q.inflight.entries = []) : Q.owners = [] := by
  simp [owners, h]

theorem mem_heldBy {Q : BusQueue} {c : AckHandler} {m : BusMessage} :
    m ∈ Q.heldBy c ↔ Q.inflight.lookup m = some c := by
  simp only [heldBy, List.mem_map, List.mem_filter, Sigma.exists, Table.lookup_eq_some,
    decide_eq_true_eq]
  constructor
  · rintro ⟨m', c', ⟨h, rfl⟩, rfl⟩
    exact h
  · intro h
    exact ⟨m, c, ⟨h, rfl⟩, rfl⟩

theorem nodup_heldBy (Q : BusQueue) (c : AckHandler) : (Q.heldBy c).Nodup :=
  (List.filter_sublist.map _).nodup Q.inflight.nodupKeys

/-! ## Disposal -/

/-- Putting messages back one by one: they pile up at the front, out of the in-flight table. -/
theorem foldl_requeueFront (ms : List BusMessage) (Q : BusQueue) :
    ms.foldl (fun Q m => { Q with inflight := Q.inflight.erase m }.requeueFront m) Q =
      { Q with
        pending := ms.reverse ++ Q.pending
        inflight := ms.foldl (fun d m => d.erase m) Q.inflight } := by
  induction ms generalizing Q with
  | nil => rfl
  | cons m ms ih =>
    rw [List.foldl_cons, ih]
    simp [requeueFront, PendingQueue.enqueueFront]

theorem lookup_foldl_erase (ms : List BusMessage) (d : AList fun _ : BusMessage => AckHandler)
    (m : BusMessage) :
    (ms.foldl (fun d m => d.erase m) d).lookup m = if m ∈ ms then none else d.lookup m := by
  induction ms generalizing d with
  | nil => simp
  | cons x ms ih =>
    rw [List.foldl_cons, ih]
    by_cases hx : m = x
    · subst hx
      simp
    · simp [hx, AList.lookup_erase_ne hx]

theorem detach_eq (Q : BusQueue) (c : AckHandler) :
    Q.detach c = { Q with
      consumers := Q.consumers.erase c
      pending := (Q.heldBy c).reverse ++ Q.pending
      inflight := (Q.heldBy c).foldl (fun d m => d.erase m) Q.inflight } := by
  rw [detach, foldl_requeueFront]

theorem lookup_detach (Q : BusQueue) (c : AckHandler) (m : BusMessage) :
    (Q.detach c).inflight.lookup m =
      if Q.inflight.lookup m = some c then none else Q.inflight.lookup m := by
  rw [detach_eq]
  simp only [lookup_foldl_erase, mem_heldBy]

end BusQueue

end MessagingPoc
