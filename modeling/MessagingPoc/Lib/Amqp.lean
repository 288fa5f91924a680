import MessagingPoc.Lib.InsertionSet
import MessagingPoc.Lib.Table
import Mathlib.Data.List.Dedup
import Mathlib.Logic.Function.Basic

/-!
# An AMQP broker

Exchanges, queues, the bindings between them, and what lies on the queues. A client works on a
channel: it declares, binds and consumes, one method after another, until one is refused; the
broker then closes the channel. Queues and bindings outlive the channel that declared them, unless
they are auto-deleted.

A topic exchange puts one copy on every queue with a binding that matches, a fanout exchange one on
every bound queue, a consistent-hash exchange a single one on a bound queue of the broker's choice.
Messages `μ` and the owners `ω` of consumers are any types, and so is the matching of topics.
-/

namespace Amqp

/-! ## The broker -/

inductive ExchangeType
  | topic
  | fanout
  | consistentHash
deriving DecidableEq, Repr

structure Exchange where
  type : ExchangeType
  name : String
deriving DecidableEq

/-- The properties and arguments a queue is declared with. -/
structure QueueArgs where
  durable : Bool := true
  exclusive : Bool := false
  autoDelete : Bool := false
  queueType : Option String := none
  messageTtl : Option Int := none
  deadLetterExchange : Option String := none
  deadLetterRoutingKey : Option String := none
  deliveryLimit : Option Int := none
  maxPriority : Option Nat := none
  singleActiveConsumer : Bool := false
deriving DecidableEq

structure Binding where
  exchange : Exchange
  queue : String
  key : String
deriving DecidableEq

structure Consumer (ω : Type) where
  channel : Nat
  queue : String
  owner : ω
deriving DecidableEq

/-- A message handed to a channel and not settled. -/
structure Delivery (μ : Type) where
  channel : Nat
  queue : String
  message : μ
deriving DecidableEq

inductive Method (ω : Type)
  | assertExchange (e : Exchange)
  | prefetch (channel count : Nat)
  | assertQueue (queue : String) (args : QueueArgs)
  | bindQueue (queue : String) (e : Exchange) (key : String)
  | consume (channel : Nat) (queue : String) (owner : ω)

/-- Methods that only declare. -/
def Method.declares {ω : Type} : Method ω → Bool
  | .assertExchange _ | .assertQueue .. => true
  | .prefetch .. | .bindQueue .. | .consume .. => false

structure Broker (μ ω : Type) where
  exchanges : InsertionSet Exchange := .empty
  queues : AList (fun _ : String => QueueArgs) := ∅
  bindings : InsertionSet Binding := .empty
  nextChannel : Nat := 0
  /-- The channels that are open. -/
  channels : List Nat := []
  prefetch : Nat → Nat := fun _ => 0
  consumers : List (Consumer ω) := []
  /-- What lies on the queues, the oldest first. -/
  ready : List (String × μ) := []
  unacked : List (Delivery μ) := []

namespace Broker

variable {μ ω : Type}

/-! ## Methods -/

/-- Does an auto-delete queue lose its last consumer with this channel? -/
def loses (b : Broker μ ω) (channel : Nat) (q : String) : Bool :=
  (b.queues.lookup q).any (·.autoDelete) &&
    b.consumers.any (fun c => c.channel = channel ∧ c.queue = q) &&
    !b.consumers.any (fun c => c.channel ≠ channel ∧ c.queue = q)

/-- The channel is closed: its consumers are gone and its deliveries are ready again; an
auto-delete queue goes with its last consumer. -/
def close (b : Broker μ ω) (channel : Nat) : Broker μ ω :=
  let returned := (b.unacked.filter (·.channel = channel)).map fun d => (d.queue, d.message)
  { b with
    channels := b.channels.erase channel
    consumers := b.consumers.filter (·.channel ≠ channel)
    queues := (b.queues.keys.filter (b.loses channel)).foldl (fun qs q => qs.erase q) b.queues
    bindings :=
      ⟨b.bindings.items.filter fun x => !b.loses channel x.queue, b.bindings.nodup.filter _⟩
    ready := (returned ++ b.ready).filter fun r => !b.loses channel r.1
    unacked := b.unacked.filter (·.channel ≠ channel) }

def createChannel (b : Broker μ ω) : Broker μ ω :=
  { b with channels := b.channels ++ [b.nextChannel], nextChannel := b.nextChannel + 1 }

/-- Carry out a method, or refuse it: a queue is not declared again with other arguments, and what
is bound or consumed has been declared. -/
def exec (b : Broker μ ω) : Method ω → Option (Broker μ ω)
  | .assertExchange e => some { b with exchanges := b.exchanges.add e }
  | .prefetch channel count =>
    some { b with prefetch := Function.update b.prefetch channel count }
  | .assertQueue q args =>
    match b.queues.lookup q with
    | none => some { b with queues := b.queues.insert q args }
    | some args' => if args' = args then some b else none
  | .bindQueue q e key =>
    if q ∈ b.queues ∧ e ∈ b.exchanges.items then
      some { b with bindings := b.bindings.add ⟨e, q, key⟩ }
    else none
  | .consume channel q owner =>
    if q ∈ b.queues then some { b with consumers := b.consumers ++ [⟨channel, q, owner⟩] }
    else none

/-- Carry out methods on a channel until one is refused. -/
def run (b : Broker μ ω) (channel : Nat) : List (Method ω) → Broker μ ω × Bool
  | [] => (b, true)
  | m :: ms =>
    match b.exec m with
    | some b' => b'.run channel ms
    | none => (b.close channel, false)

/-! ## Messages -/

/-- The queues bound to an exchange. -/
def bound (b : Broker μ ω) (e : Exchange) : List String :=
  ((b.bindings.items.filter fun x => x.exchange = e).map Binding.queue).dedup

/-- What a consistent-hash exchange may choose. -/
def Picks (b : Broker μ ω) (e : Exchange) : Option String → Prop
  | none => b.bound e = []
  | some q => q ∈ b.bound e

instance (b : Broker μ ω) (e : Exchange) : (picked : Option String) → Decidable (b.Picks e picked)
  | none => inferInstanceAs (Decidable (b.bound e = []))
  | some q => inferInstanceAs (Decidable (q ∈ b.bound e))

variable (topicMatch : String → String → Bool)

/-- The queues an exchange puts a copy on, `picked` being the choice of a consistent-hash
exchange. -/
def route (b : Broker μ ω) (e : Exchange) (key : String) (picked : Option String) : List String :=
  match e.type with
  | .topic =>
    ((b.bindings.items.filter fun x => x.exchange = e ∧ topicMatch x.key key).map
      Binding.queue).dedup
  | .fanout => b.bound e
  | .consistentHash => picked.toList

def publish (b : Broker μ ω) (e : Exchange) (key : String) (picked : Option String) (m : μ) :
    Broker μ ω :=
  { b with ready := b.ready ++ (b.route topicMatch e key picked).map fun q => (q, m) }

/-- Hand the oldest message of its queue to a consumer, as far as its channel's prefetch allows. -/
def deliver (b : Broker μ ω) (c : Consumer ω) : Option (Broker μ ω) :=
  if b.prefetch c.channel = 0 ∨
      b.unacked.countP (fun d => d.channel = c.channel) < b.prefetch c.channel then
    (b.ready.findIdx? fun r => r.1 = c.queue).bind fun i => b.ready[i]?.map fun r =>
      { b with
        ready := b.ready.eraseIdx i
        unacked := b.unacked ++ [⟨c.channel, c.queue, r.2⟩] }
  else none

/-- The delivery is acknowledged. -/
def ack (b : Broker μ ω) (k : Nat) : Broker μ ω := { b with unacked := b.unacked.eraseIdx k }

/-- The delivery is put back in front of its queue. -/
def requeue (b : Broker μ ω) (k : Nat) (d : Delivery μ) : Broker μ ω :=
  { b with ready := (d.queue, d.message) :: b.ready, unacked := b.unacked.eraseIdx k }

/-! ## Routing -/

variable {b b' b'' : Broker μ ω} {e : Exchange} {key q : String} {picked : Option String}

theorem mem_bound : q ∈ b.bound e ↔ ∃ x ∈ b.bindings.items, x.exchange = e ∧ x.queue = q := by
  simp [bound, and_assoc]

theorem mem_route_topic {topicMatch : String → String → Bool} (he : e.type = .topic) :
    q ∈ b.route topicMatch e key picked ↔
      ∃ x ∈ b.bindings.items, x.exchange = e ∧ topicMatch x.key key = true ∧ x.queue = q := by
  simp [route, he, and_assoc]

theorem mem_route_fanout {topicMatch : String → String → Bool} (he : e.type = .fanout) :
    q ∈ b.route topicMatch e key picked ↔
      ∃ x ∈ b.bindings.items, x.exchange = e ∧ x.queue = q := by
  rw [route, he]
  exact mem_bound

theorem nodup_route (topicMatch : String → String → Bool) (b : Broker μ ω) (e : Exchange)
    (key : String) (picked : Option String) : (b.route topicMatch e key picked).Nodup := by
  unfold route
  split
  · exact List.nodup_dedup _
  · exact List.nodup_dedup _
  · cases picked with
    | none => exact List.nodup_nil
    | some q => exact List.nodup_singleton q

/-! ## Delivering -/

/-- A consumer whose channel holds nothing is handed the first message of its queue. -/
theorem deliver_first {c : Consumer ω} {m : μ} {pre post : List (String × μ)}
    (hready : b.ready = pre ++ (c.queue, m) :: post) (hpre : ∀ r ∈ pre, r.1 ≠ c.queue)
    (hidle : ∀ d ∈ b.unacked, d.channel ≠ c.channel) :
    b.deliver c = some { b with
      ready := pre ++ post, unacked := b.unacked ++ [⟨c.channel, c.queue, m⟩] } := by
  have hfree : b.prefetch c.channel = 0 ∨
      b.unacked.countP (fun d => d.channel = c.channel) < b.prefetch c.channel := by
    have hnone : b.unacked.countP (fun d => d.channel = c.channel) = 0 := by
      simpa [List.countP_eq_zero] using hidle
    omega
  have hfirst : b.ready.findIdx? (fun r => r.1 = c.queue) = some pre.length := by
    rw [hready, List.findIdx?_append, List.findIdx?_eq_none_iff.mpr (by simpa using hpre)]
    simp [List.findIdx?_cons]
  rw [deliver, if_pos hfree, hfirst]
  simp [hready, List.eraseIdx_append_of_length_le]

/-! ## Declaring -/

/-- The channels in use were opened. -/
def Opened (b : Broker μ ω) : Prop :=
  (∀ c ∈ b.consumers, c.channel < b.nextChannel) ∧ ∀ d ∈ b.unacked, d.channel < b.nextChannel

/-- More is declared, and nothing else has changed. -/
structure Declared (b b' : Broker μ ω) : Prop where
  bindings : b'.bindings = b.bindings
  consumers : b'.consumers = b.consumers
  ready : b'.ready = b.ready
  unacked : b'.unacked = b.unacked
  nextChannel : b'.nextChannel = b.nextChannel
  prefetch : b'.prefetch = b.prefetch
  exchanges : b.exchanges.items ⊆ b'.exchanges.items
  queues : ∀ q args, b.queues.lookup q = some args → b'.queues.lookup q = some args

theorem Declared.refl (b : Broker μ ω) : Declared b b :=
  ⟨rfl, rfl, rfl, rfl, rfl, rfl, List.Subset.refl _, fun _ _ => id⟩

theorem Declared.trans (h : Declared b b') (h' : Declared b' b'') : Declared b b'' where
  bindings := h'.bindings.trans h.bindings
  consumers := h'.consumers.trans h.consumers
  ready := h'.ready.trans h.ready
  unacked := h'.unacked.trans h.unacked
  nextChannel := h'.nextChannel.trans h.nextChannel
  prefetch := h'.prefetch.trans h.prefetch
  exchanges := List.Subset.trans h.exchanges h'.exchanges
  queues q args hq := h'.queues q args (h.queues q args hq)

/-- What a method has declared when it is carried out. -/
def Done (b : Broker μ ω) : Method ω → Prop
  | .assertExchange e => e ∈ b.exchanges.items
  | .assertQueue q args => b.queues.lookup q = some args
  | _ => True

theorem Done.mono {m : Method ω} (hm : b.Done m) (h : Declared b b') : b'.Done m := by
  cases m with
  | assertExchange e => exact h.exchanges hm
  | assertQueue q args => exact h.queues q args hm
  | _ => trivial

theorem exec_declares {m : Method ω} (hm : m.declares = true) (h : b.exec m = some b') :
    Declared b b' ∧ b'.Done m ∧
      ∀ q args, b'.queues.lookup q = some args →
        b.queues.lookup q = some args ∨ m = .assertQueue q args := by
  cases m with
  | assertExchange e =>
    cases h
    refine ⟨{ Declared.refl b with exchanges := fun e' he' => ?_ }, ?_, fun q args => .inl⟩
    · exact InsertionSet.mem_add.mpr (.inl he')
    · exact InsertionSet.mem_add.mpr (.inr rfl)
  | assertQueue q args =>
    simp only [exec] at h
    split at h
    · rename_i hnone
      cases h
      refine ⟨{ Declared.refl b with queues := fun q' args' hq' => ?_ }, ?_, fun q' args' hq' => ?_⟩
      · show (b.queues.insert q args).lookup q' = some args'
        rw [Table.lookup_insert, if_neg, hq']
        intro hqq'
        rw [hqq', hq'] at hnone
        cases hnone
      · exact AList.lookup_insert _
      · change (b.queues.insert q args).lookup q' = some args' at hq'
        rw [Table.lookup_insert] at hq'
        split_ifs at hq' with hqq'
        · cases hq'
          exact .inr (by rw [hqq'])
        · exact .inl hq'
    · rename_i args' hsome
      split_ifs at h with hargs
      cases h
      exact ⟨.refl b, hargs ▸ hsome, fun q' args' => .inl⟩
  | prefetch | bindQueue | consume => cases hm

/-- Among these declarations, or already, a queue is declared with other arguments. -/
def Conflict (b : Broker μ ω) (ms : List (Method ω)) : Prop :=
  ∃ q args args', .assertQueue q args ∈ ms ∧ args' ≠ args ∧
    (b.queues.lookup q = some args' ∨ .assertQueue q args' ∈ ms)

theorem conflict_of_refused {m : Method ω} (hm : m.declares = true) (h : b.exec m = none) :
    ∃ q args args', m = .assertQueue q args ∧ args' ≠ args ∧ b.queues.lookup q = some args' := by
  cases m with
  | assertQueue q args =>
    simp only [exec] at h
    split at h
    · cases h
    · rename_i args' hq
      split_ifs at h with hargs
      exact ⟨q, args, args', rfl, hargs, hq⟩
  | assertExchange => cases h
  | prefetch | bindQueue | consume => cases hm

/-- A run of declarations is carried out, or refused at some point for a conflict. -/
theorem run_declares (channel : Nat) {ms : List (Method ω)} (hms : ∀ m ∈ ms, m.declares = true) :
    ∃ b', Declared b b' ∧
      (∀ q args, b'.queues.lookup q = some args →
        b.queues.lookup q = some args ∨ .assertQueue q args ∈ ms) ∧
      ((∀ ms', b.run channel (ms ++ ms') = b'.run channel ms') ∧ (∀ m ∈ ms, b'.Done m) ∨
        (∀ ms', b.run channel (ms ++ ms') = (b'.close channel, false)) ∧ b.Conflict ms) := by
  induction ms generalizing b with
  | nil => exact ⟨b, .refl b, fun _ _ => .inl, .inl ⟨fun _ => rfl, by simp⟩⟩
  | cons m ms ih =>
    cases hm : b.exec m with
    | none =>
      obtain ⟨q, args, args', rfl, hne, hq⟩ := conflict_of_refused (hms m List.mem_cons_self) hm
      exact ⟨b, .refl b, fun _ _ => .inl, .inr ⟨fun ms' => by simp [run, hm],
        q, args, args', List.mem_cons_self, hne, .inl hq⟩⟩
    | some b₁ =>
      obtain ⟨hdeclared, hdone, hqueues⟩ := exec_declares (hms m List.mem_cons_self) hm
      obtain ⟨b', hdeclared', hqueues', hrun⟩ :=
        ih (b := b₁) fun m' hm' => hms m' (List.mem_cons_of_mem _ hm')
      have hstep : ∀ ms', b.run channel (m :: ms ++ ms') = b₁.run channel (ms ++ ms') := by
        intro ms'
        simp [run, hm]
      have hfrom : ∀ {q args}, b₁.queues.lookup q = some args →
          b.queues.lookup q = some args ∨ .assertQueue q args ∈ m :: ms := by
        intro q args hq
        rcases hqueues q args hq with hq | rfl
        · exact .inl hq
        · exact .inr List.mem_cons_self
      refine ⟨b', hdeclared.trans hdeclared', fun q args hq => ?_, ?_⟩
      · exact (hqueues' q args hq).elim hfrom fun hq => .inr (List.mem_cons_of_mem _ hq)
      · rcases hrun with ⟨hrun, hdone'⟩ | ⟨hrun, q, args, args', hmem, hne, hother⟩
        · refine .inl ⟨fun ms' => (hstep ms').trans (hrun ms'), fun m' hm' => ?_⟩
          rcases List.mem_cons.mp hm' with rfl | hm'
          · exact hdone.mono hdeclared'
          · exact hdone' m' hm'
        · refine .inr ⟨fun ms' => (hstep ms').trans (hrun ms'), q, args, args',
            List.mem_cons_of_mem _ hmem, hne, ?_⟩
          exact hother.elim hfrom fun hq => .inr (List.mem_cons_of_mem _ hq)

/-! ## Closing -/

theorem close_eq {channel : Nat} (h : ∀ q, b.loses channel q = false) :
    b.close channel = { b with
      channels := b.channels.erase channel
      consumers := b.consumers.filter (·.channel ≠ channel)
      ready := (b.unacked.filter (·.channel = channel)).map (fun d => (d.queue, d.message)) ++
        b.ready
      unacked := b.unacked.filter (·.channel ≠ channel) } := by
  have hnone : b.queues.keys.filter (b.loses channel) = [] :=
    List.filter_eq_nil_iff.mpr fun q _ => by simp [h q]
  simp [close, h, hnone]

theorem close_of_unused {channel : Nat} (hc : ∀ c ∈ b.consumers, c.channel ≠ channel)
    (hd : ∀ d ∈ b.unacked, d.channel ≠ channel) :
    b.close channel = { b with channels := b.channels.erase channel } := by
  have hloses : ∀ q, b.loses channel q = false := by
    intro q
    have hnone : b.consumers.any (fun c => c.channel = channel ∧ c.queue = q) = false := by
      simp only [List.any_eq_false, decide_eq_true_eq, not_and]
      intro c hmem hchannel
      exact absurd hchannel (hc c hmem)
    rw [loses, hnone, Bool.and_false, Bool.false_and]
  rw [close_eq hloses, List.filter_eq_self.mpr fun c hmem => decide_eq_true (hc c hmem),
    List.filter_eq_self.mpr fun d hmem => decide_eq_true (hd d hmem),
    List.filter_eq_nil_iff.mpr fun d hmem => by simpa using hd d hmem]
  rfl

/-- Queues that are not auto-deleted outlive every channel. -/
theorem loses_of_durable (h : ∀ q args, b.queues.lookup q = some args → args.autoDelete = false)
    (channel : Nat) (q : String) : b.loses channel q = false := by
  have hkept : (b.queues.lookup q).any (·.autoDelete) = false := by
    cases hq : b.queues.lookup q with
    | none => rfl
    | some args => simpa using h q args hq
  simp [loses, hkept]

end Broker

end Amqp
