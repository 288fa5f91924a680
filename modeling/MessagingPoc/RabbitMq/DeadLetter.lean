import MessagingPoc.Lib.Deaths
import MessagingPoc.Lib.Machine
import MessagingPoc.RabbitMq.Adapter

/-!
# The RabbitMQ adapter: rejected, retried and expired messages

A queue has one dead-letter exchange, for rejected and for expired messages alike. `subscribe` fills
it in from several options: retries point it at the parking queue, plain dead-lettering at the
fanout of the dead-letter address, and `ttlMs`, written last, at the fanout of the expiry address. A
transient subscription declares its queue without any of it.

One copy of a message is followed through the queues of one subscription, from the moment it lies on
its main queue: it is delivered, settled by the handler through `toIncoming`, given back when the
channel closes, or its time runs out. The two runtimes differ in one place: .NET does not read
`Transient`.

**The wiring is right exactly when nothing overwrites it** (`wired_iff`).
-/

namespace MessagingPoc.RabbitMq

open Amqp Machine

/-! ## The subscription -/

inductive Runtime
  | typescript
  | dotnet
deriving DecidableEq

/-- A subscription that consumes from a queue of its own. -/
structure Consumption where
  runtime : Runtime
  topic : String
  call : Call
  plain : call.options.streamReplay = false
  /-- The broker's rule for a delivery limit: has a message been returned too often? -/
  overLimit : Int → Nat → Bool

namespace Consumption

variable (k : Consumption)

/-- The branch of `subscribe` for a transient queue. -/
def transientBranch : Bool := decide (k.runtime = .typescript) && k.call.options.transient

def queue : String := k.call.queue k.topic

def retryQueue : String := k.call.retryQueue k.topic

/-- The arguments of the subscription's queue. -/
def mainArgs : QueueArgs :=
  if k.transientBranch then Call.transientArgs else k.call.queueArgs k.topic

/-- The queues the subscription declares. -/
def argsOf (q : String) : QueueArgs :=
  if q = k.queue then k.mainArgs
  else if k.call.retryEnabled ∧ q = k.retryQueue then k.call.retryArgs k.topic
  else {}

def maxDeliveries : Int := (k.call.options.maxDeliveries.getD defaultMaxDeliveries).toInt

/-- Does `toIncoming` get a `retry` context? -/
def retries : Bool := k.call.retryEnabled && !k.transientBranch

def dlaExchange : String := (fanoutExchange (deadLetterAddress k.topic)).name

def expiryExchange : String := (fanoutExchange (expiryAddress k.topic)).name

end Consumption

/-! ## One copy of a message -/

/-- Where the copy is. -/
inductive Place
  | ready (queue : String)
  /-- Delivered, with the `deliveryCount` its handle reports. -/
  | unacked (count : Option Nat)
  | acked
  /-- Dead-lettered by a queue without a dead-letter exchange, or deleted with its queue. -/
  | dropped
  /-- Published to an exchange, by the client or by the broker. -/
  | sent (exchange : String) (message : Message)
deriving DecidableEq

/-- What happened to the copy. -/
inductive Happening
  | delivered (count : Option Nat)
  | returned
  | died (queue : String) (reason : Reason)
  | acked
  /-- The client published the message to the dead-letter fanout and acked the original. -/
  | gaveUp
  | lost
deriving DecidableEq

structure Copy where
  place : Place
  message : Message
  routingKey : String
  /-- The `x-death` header. -/
  deaths : List Death := []
  redelivered : Bool := false
  /-- How often the queue got the copy back; a quorum queue tells it as `x-delivery-count`. -/
  returns : Nat := 0
  /-- Ghost: what happened so far, the newest first. -/
  log : List Happening := []

inductive Act
  | deliver
  | ack
  | nack (requeue : Bool)
  /-- The channel closes under a delivery. -/
  | close
  /-- A TTL runs out, of the message or of its queue. -/
  | expire
deriving DecidableEq

namespace Consumption

variable (k : Consumption)

/-- The broker dead-letters the copy from a queue. -/
def deadLetter (s : Copy) (q : String) (reason : Reason) : Copy :=
  let args := k.argsOf q
  let key := args.deadLetterRoutingKey.getD s.routingKey
  let message :=
    { s.message with properties := { s.message.properties with expiration := none } }
  { place :=
      match args.deadLetterExchange with
      | none => .dropped
      -- The default exchange routes by queue name.
      | some exchange => if exchange = "" then .ready key else .sent exchange message
    message := message
    routingKey := key
    deaths := recordDeath s.deaths q reason
    log := .died q reason :: s.log }

/-- The copy goes back to the head of its queue, unless the queue has a limit and it is reached. -/
def giveBack (s : Copy) : Copy :=
  if k.mainArgs.deliveryLimit.any (k.overLimit · (s.returns + 1)) then
    k.deadLetter s k.queue .deliveryLimit
  else
    { s with
      place := .ready k.queue
      redelivered := true
      returns := s.returns + 1
      log := .returned :: s.log }

def xDeathCount (s : Copy) : Nat := deathsOn s.deaths k.queue

/-- The `deliveryCount` of `toIncoming`. -/
def deliveryCount (s : Copy) : Option Nat :=
  if k.retries then some (k.xDeathCount s + 1)
  else if k.mainArgs.queueType = some "quorum" ∧ 0 < s.returns then some (s.returns + 1)
  else if s.redelivered then none else some 1

/-- The `nack` of `toIncoming`. -/
def nack (s : Copy) (count : Option Nat) (requeue : Bool) : Copy :=
  if k.retries then
    if requeue = false ∨ k.maxDeliveries ≤ count.getD 1 then
      { s with
        place := .sent k.dlaExchange ⟨s.message.content, {}⟩
        log := .gaveUp :: s.log }
    else k.deadLetter s k.queue .rejected
  else if requeue then k.giveBack s
  else k.deadLetter s k.queue .rejected

def step (s : Copy) : Act → Option Copy
  | .deliver =>
    if s.place = .ready k.queue then
      some { s with
        place := .unacked (k.deliveryCount s)
        log := .delivered (k.deliveryCount s) :: s.log }
    else none
  | .ack =>
    match s.place with
    | .unacked _ => some { s with place := .acked, log := .acked :: s.log }
    | _ => none
  | .nack requeue =>
    match s.place with
    | .unacked count => some (k.nack s count requeue)
    | _ => none
  | .close =>
    match s.place with
    | .unacked _ =>
      -- An auto-delete queue goes with its consumer.
      if k.mainArgs.autoDelete then some { s with place := .dropped, log := .lost :: s.log }
      else some (k.giveBack s)
    | _ => none
  | .expire =>
    match s.place with
    | .ready q =>
      if s.message.properties.expiration.isSome ∨ (k.argsOf q).messageTtl.isSome then
        some (k.deadLetter s q .expired)
      else none
    | _ => none

/-- A copy on its way through the subscription, from its arrival on the main queue. -/
def machine : System Copy Act where
  init s := s.place = .ready k.queue ∧ (∀ d ∈ s.deaths, d.queue ≠ k.queue) ∧
    s.redelivered = false ∧ s.returns = 0 ∧ s.log = []
  step s a s' := k.step s a = some s'

/-! ## The wiring -/

section

variable {k : Consumption} {s s' : Copy}

theorem dlaExchange_ne : k.dlaExchange ≠ "" ∧ k.expiryExchange ≠ "" ∧
    k.dlaExchange ≠ k.expiryExchange := by
  refine ⟨?_, ?_, ?_⟩ <;>
  · intro h
    have hchars := congrArg String.toList h
    simp [dlaExchange, expiryExchange, fanoutExchange, deadLetterAddress, expiryAddress] at hchars

theorem retryQueue_ne : k.retryQueue ≠ k.queue := by
  intro h
  have hlength := congrArg (fun q => q.toList.length) h
  simp [retryQueue, queue, Call.retryQueue] at hlength

@[simp] theorem argsOf_queue : k.argsOf k.queue = k.mainArgs := if_pos rfl

theorem argsOf_retryQueue (h : k.call.retryEnabled = true) :
    k.argsOf k.retryQueue = k.call.retryArgs k.topic := by
  rw [argsOf, if_neg retryQueue_ne, if_pos ⟨h, rfl⟩]

theorem messageTtl_retryArgs (h : k.call.retryEnabled = true) :
    (k.call.retryArgs k.topic).messageTtl.isSome = true := by
  simp only [Call.retryEnabled, Bool.and_eq_true] at h
  obtain ⟨delay, hdelay, -⟩ := (Option.any_eq_true _ _).mp h.2
  simp [Call.retryArgs, hdelay]

/-- **The queues are declared with these arguments.** -/
theorem argsOf_declared (hruntime : k.runtime = .typescript) {q : String} {args : QueueArgs}
    (h : .assertQueue q args ∈ declarations k.topic k.call) : k.argsOf q = args := by
  have hbranch : k.transientBranch = k.call.options.transient := by
    simp [transientBranch, hruntime]
  have hcases : (k.call.retryEnabled = true ∧ q = k.retryQueue ∧
      args = k.call.retryArgs k.topic) ∨ (q = k.queue ∧ args = k.mainArgs) := by
    rw [mainArgs, hbranch]
    unfold declarations ensureBusExchanges ensureHashExchange at h
    split_ifs at h ⊢ <;> simp_all [retryQueue, queue]
  rcases hcases with ⟨hretry, rfl, rfl⟩ | ⟨rfl, rfl⟩
  · exact argsOf_retryQueue hretry
  · exact argsOf_queue

theorem mainArgs_transient (h : k.transientBranch = true) : k.mainArgs = Call.transientArgs :=
  if_pos h

theorem mainArgs_durable (h : k.transientBranch = false) :
    k.mainArgs = k.call.queueArgs k.topic :=
  if_neg (by simp [h])

/-- `ttlMs` overwrites the dead-letter exchange. -/
theorem exchange_ttl (h : k.transientBranch = false) (httl : k.call.options.ttlMs.isSome = true) :
    k.mainArgs.deadLetterExchange = some k.expiryExchange := by
  rw [mainArgs_durable h]
  simp [Call.queueArgs, httl, expiryExchange]

/-- With retries a rejected message goes to the parking queue, if `ttlMs` leaves it there. -/
theorem exchange_retry (h : k.transientBranch = false) (hretry : k.call.retryEnabled = true)
    (httl : k.call.options.ttlMs = none) : k.mainArgs.deadLetterExchange = some "" ∧
      k.mainArgs.deadLetterRoutingKey = some k.retryQueue := by
  rw [mainArgs_durable h]
  simp only [Call.queueArgs, hretry, httl, Option.isSome_none, Bool.false_eq_true, if_false,
    if_true]
  split_ifs <;> exact ⟨rfl, rfl⟩

theorem exchange_plain (h : k.transientBranch = false) (hdead : k.call.options.deadLetter = true)
    (hretry : k.call.retryEnabled = false) (httl : k.call.options.ttlMs = none) :
    k.mainArgs.deadLetterExchange = some k.dlaExchange := by
  rw [mainArgs_durable h]
  simp only [Call.queueArgs, hretry, httl, hdead, Option.isSome_none, Bool.false_eq_true, if_false,
    if_true]
  split_ifs <;> rfl

theorem limit_plain (h : k.transientBranch = false) (hdead : k.call.options.deadLetter = true)
    (hretry : k.call.retryEnabled = false) :
    k.mainArgs.deliveryLimit = some k.maxDeliveries := by
  rw [mainArgs_durable h]
  simp only [Call.queueArgs, hretry, hdead, Bool.false_eq_true, if_false, if_true]
  split_ifs <;> rfl

theorem limit_retry (h : k.transientBranch = false) (hretry : k.call.retryEnabled = true) :
    k.mainArgs.deliveryLimit = none := by
  rw [mainArgs_durable h]
  simp only [Call.queueArgs, hretry, if_true]
  split_ifs <;> rfl

/-! ### What dead-lettering does -/

/-- The default exchange leads to a queue, -/
theorem deadLetter_default {q key : String} {reason : Reason}
    (hexchange : (k.argsOf q).deadLetterExchange = some "")
    (hkey : (k.argsOf q).deadLetterRoutingKey = some key) :
    (k.deadLetter s q reason).place = .ready key := by
  simp [deadLetter, hexchange, hkey]

/-- any other one out of the subscription's hands. -/
theorem deadLetter_sent {q exchange : String} {reason : Reason}
    (hexchange : (k.argsOf q).deadLetterExchange = some exchange) (hne : exchange ≠ "") :
    ∃ m, (k.deadLetter s q reason).place = .sent exchange m ∧ m.content = s.message.content := by
  simp [deadLetter, hexchange, hne]

theorem deadLetter_dropped {q : String} {reason : Reason}
    (hexchange : (k.argsOf q).deadLetterExchange = none) :
    (k.deadLetter s q reason).place = .dropped := by
  simp [deadLetter, hexchange]

theorem exchange_of_sent {q exchange : String} {reason : Reason} {m : Message}
    (h : (k.deadLetter s q reason).place = .sent exchange m) :
    (k.argsOf q).deadLetterExchange = some exchange := by
  unfold deadLetter at h
  simp only at h
  split at h
  · cases h
  · rename_i exchange' hexchange
    split_ifs at h
    rw [hexchange]
    cases h
    rfl

/-! ### What a delivery reports -/

theorem place_deadLetter (q : String) (reason : Reason) (count : Option Nat) :
    (k.deadLetter s q reason).place ≠ .unacked count := by
  unfold deadLetter
  simp only
  split
  · simp
  · split_ifs <;> simp

theorem place_giveBack (count : Option Nat) : (k.giveBack s).place ≠ .unacked count := by
  unfold giveBack
  split_ifs
  · exact place_deadLetter _ _ _
  · simp

theorem place_nack (count count' : Option Nat) (requeue : Bool) :
    (k.nack s count requeue).place ≠ .unacked count' := by
  unfold nack
  split_ifs
  · simp
  · exact place_deadLetter _ _ _
  · exact place_giveBack _
  · exact place_deadLetter _ _ _

theorem unacked_step {a : Act} (h : k.step s a = some s') {count : Option Nat}
    (hplace : s'.place = .unacked count) : count = k.deliveryCount s := by
  cases a with
  | deliver =>
    simp only [step, Option.ite_none_right_eq_some, Option.some.injEq] at h
    obtain ⟨-, rfl⟩ := h
    exact (Place.unacked.inj hplace).symm
  | ack =>
    simp only [step] at h
    split at h <;> cases h
    cases hplace
  | nack requeue =>
    simp only [step] at h
    split at h <;> cases h
    exact absurd hplace (place_nack _ _ _)
  | close =>
    simp only [step] at h
    split at h
    · split_ifs at h <;> cases h
      · cases hplace
      · exact absurd hplace (place_giveBack _)
    · cases h
  | expire =>
    simp only [step] at h
    split at h
    · split_ifs at h
      cases h
      exact absurd hplace (place_deadLetter _ _ _)
    · cases h

theorem one_le_count (h : Reach k.machine s) {count : Option Nat}
    (hplace : s.place = .unacked count) : 1 ≤ count.getD 1 := by
  cases h with
  | init hinit =>
    rw [hinit.1] at hplace
    cases hplace
  | @step s₁ _ a _ _ hstep =>
    rw [unacked_step hstep hplace]
    unfold deliveryCount
    split_ifs <;> simp

end

/-! ## What the wiring is for -/

/-- The delivery budget of the copy is spent: as the retry path reads it off the handle, and as the
broker reads it off a delivery limit elsewhere. -/
def Exhausted (k : Consumption) (s : Copy) (count : Option Nat) : Prop :=
  if k.call.retryEnabled then k.maxDeliveries ≤ count.getD 1
  else k.overLimit k.maxDeliveries (s.returns + 1) = true

/-- Rejected, retried and expired messages go where they are meant to go. -/
structure Wired (k : Consumption) : Prop where
  /-- What is rejected for good ends on the dead-letter address. -/
  rejected : ∀ s count requeue s', Reach k.machine s → s.place = .unacked count →
    (requeue = false ∨ k.Exhausted s count) → k.step s (.nack requeue) = some s' →
    ∃ m, s'.place = .sent k.dlaExchange m ∧ m.content = s.message.content
  /-- What is to be retried is parked, and then only comes back. -/
  retried : ∀ s count s', Reach k.machine s → s.place = .unacked count →
    k.call.options.retryDelayMs.any (0 < ·) = true → ¬ k.Exhausted s count →
    k.step s (.nack true) = some s' →
    s'.place = .ready k.retryQueue ∧ (∀ a, a ≠ .expire → k.step s' a = none) ∧
      ∃ s'', k.step s' .expire = some s'' ∧ s''.place = .ready k.queue
  /-- Only a TTL leads to the expiry address. -/
  expired : ∀ s a s' m, Reach k.machine s → k.step s a = some s' →
    s'.place = .sent k.expiryExchange m → a = .expire

section

variable {k : Consumption} {s s' : Copy}

theorem nack_step {requeue : Bool} {count : Option Nat} (hplace : s.place = .unacked count)
    (h : k.step s (.nack requeue) = some s') : s' = k.nack s count requeue := by
  simpa [step, hplace, eq_comm] using h

theorem retries_eq_true :
    k.retries = true ↔ k.call.retryEnabled = true ∧ k.transientBranch = false := by
  simp [retries]

/-- Giving a copy back sends it nowhere but to the dead-letter exchange, once a limit is spent. -/
theorem giveBack_sent {exchange : String} {m : Message}
    (hplace : (k.giveBack s).place = .sent exchange m) :
    k.mainArgs.deadLetterExchange = some exchange ∧ k.retries = false := by
  unfold giveBack at hplace
  split_ifs at hplace with hlimit
  · refine ⟨by simpa using exchange_of_sent hplace, ?_⟩
    by_contra hretries
    obtain ⟨hretry, hbranch⟩ := retries_eq_true.mp (by simpa using hretries)
    simp [limit_retry hbranch hretry] at hlimit

/-- **Where copies are sent**: the client sends them to the dead-letter address, and the broker, for
other reasons than a TTL, where the main queue says; with retries it does so below the budget. -/
theorem sent_step {a : Act} (hstep : k.step s a = some s') {exchange : String} {m : Message}
    (hplace : s'.place = .sent exchange m) :
    a = .expire ∨ exchange = k.dlaExchange ∨
      (k.mainArgs.deadLetterExchange = some exchange ∧ (k.retries = true →
        ∃ count, s.place = .unacked count ∧ ¬ k.maxDeliveries ≤ count.getD 1)) := by
  cases a with
  | expire => exact .inl rfl
  | deliver =>
    simp only [step, Option.ite_none_right_eq_some, Option.some.injEq] at hstep
    obtain ⟨-, rfl⟩ := hstep
    cases hplace
  | ack =>
    simp only [step] at hstep
    split at hstep <;> cases hstep
    cases hplace
  | close =>
    simp only [step] at hstep
    split at hstep
    · split_ifs at hstep <;> cases hstep
      · cases hplace
      · obtain ⟨hexchange, hretries⟩ := giveBack_sent hplace
        exact .inr (.inr ⟨hexchange, by simp [hretries]⟩)
    · cases hstep
  | nack requeue =>
    simp only [step] at hstep
    split at hstep
    · rename_i count hunacked
      cases hstep
      unfold nack at hplace
      split_ifs at hplace with hretries hgive hrequeue
      · cases hplace
        exact .inr (.inl rfl)
      · rw [not_or] at hgive
        exact .inr (.inr ⟨by simpa using exchange_of_sent hplace,
          fun _ => ⟨count, hunacked, hgive.2⟩⟩)
      · obtain ⟨hexchange, hretries⟩ := giveBack_sent hplace
        exact .inr (.inr ⟨hexchange, by simp [hretries]⟩)
      · exact .inr (.inr ⟨by simpa using exchange_of_sent hplace,
          fun h => absurd h hretries⟩)
    · cases hstep

theorem wired_of (hdead : k.call.options.deadLetter = true) (hbranch : k.transientBranch = false)
    (httl : k.call.options.ttlMs = none ∨
      (k.call.retryEnabled = true ∧ k.maxDeliveries ≤ 1)) : k.Wired where
  rejected := by
    intro s count requeue s' _ hplace hfinal hstep
    rw [nack_step hplace hstep]
    by_cases hretry : k.call.retryEnabled = true
    · rw [Exhausted, if_pos hretry] at hfinal
      rw [nack, if_pos (retries_eq_true.mpr ⟨hretry, hbranch⟩), if_pos hfinal]
      exact ⟨_, rfl, rfl⟩
    · rw [Exhausted, if_neg hretry] at hfinal
      rw [Bool.not_eq_true] at hretry
      have hnone := httl.resolve_right fun h => by simp [hretry] at h
      have hexchange : (k.argsOf k.queue).deadLetterExchange = some k.dlaExchange := by
        rw [argsOf_queue]
        exact exchange_plain hbranch hdead hretry hnone
      rw [nack, if_neg (by simp [retries, hretry])]
      split_ifs with hrequeue
      · -- Only a spent limit gets here.
        have hspent := hfinal.resolve_left (by simp [hrequeue])
        rw [giveBack, limit_plain hbranch hdead hretry, if_pos (by simpa using hspent)]
        exact deadLetter_sent hexchange dlaExchange_ne.1
      · exact deadLetter_sent hexchange dlaExchange_ne.1
  retried := by
    intro s count s' hreach hplace hdelay hbelow hstep
    have hretry : k.call.retryEnabled = true := by simp [Call.retryEnabled, hdead, hdelay]
    rw [Exhausted, if_pos hretry] at hbelow
    have hone := one_le_count hreach hplace
    have hnone := httl.resolve_right fun h => by omega
    obtain ⟨hexchange, hkey⟩ := exchange_retry hbranch hretry hnone
    have hparked : s'.place = .ready k.retryQueue := by
      rw [nack_step hplace hstep, nack, if_pos (retries_eq_true.mpr ⟨hretry, hbranch⟩),
        if_neg (by simpa using hbelow)]
      exact deadLetter_default (by rw [argsOf_queue, hexchange]) (by rw [argsOf_queue, hkey])
    refine ⟨hparked, fun a ha => ?_, k.deadLetter s' k.retryQueue .expired, ?_, ?_⟩
    · cases a with
      | deliver => simp [step, hparked, retryQueue_ne]
      | expire => exact absurd rfl ha
      | ack | nack | close => simp [step, hparked]
    · have httl : (k.argsOf k.retryQueue).messageTtl.isSome = true := by
        rw [argsOf_retryQueue hretry]
        exact messageTtl_retryArgs hretry
      simp [step, hparked, httl]
    · exact deadLetter_default (by rw [argsOf_retryQueue hretry]; rfl)
        (by rw [argsOf_retryQueue hretry]; rfl)
  expired := by
    intro s a s' m hreach hstep hplace
    rcases sent_step hstep hplace with ha | heq | ⟨hexchange, hbelow⟩
    · exact ha
    · exact absurd heq.symm dlaExchange_ne.2.2
    exfalso
    by_cases hretry : k.call.retryEnabled = true
    · obtain ⟨count, hunacked, hbelow⟩ := hbelow (retries_eq_true.mpr ⟨hretry, hbranch⟩)
      have hone := one_le_count hreach hunacked
      have hnone := httl.resolve_right fun h => by omega
      rw [(exchange_retry hbranch hretry hnone).1] at hexchange
      exact dlaExchange_ne.2.1 (Option.some.inj hexchange).symm
    · rw [Bool.not_eq_true] at hretry
      have hnone := httl.resolve_right fun h => by simp [hretry] at h
      rw [exchange_plain hbranch hdead hretry hnone] at hexchange
      exact dlaExchange_ne.2.2 (Option.some.inj hexchange)

/-- A message without a TTL of its own, just delivered. -/
def firstDelivery : Copy where
  place := .unacked (some 1)
  message := ⟨"x", {}⟩
  routingKey := ""
  log := [.delivered (some 1)]

theorem reach_firstDelivery : Reach k.machine firstDelivery := by
  let s : Copy := { place := .ready k.queue, message := ⟨"x", {}⟩, routingKey := "" }
  have hinit : k.machine.init s := ⟨rfl, by simp [s], rfl, rfl, rfl⟩
  refine .step (.init hinit) trivial (l := .deliver) ?_
  have hcount : k.deliveryCount s = some 1 := by
    unfold deliveryCount
    have hdeaths : k.xDeathCount s = 0 := rfl
    simp [hdeaths, s]
  simp [machine, step, hcount, firstDelivery, s]

/-- A transient queue drops what is rejected. -/
theorem branch_of_wired (hwired : k.Wired) : k.transientBranch = false := by
  by_contra hbranch
  rw [Bool.not_eq_false] at hbranch
  obtain ⟨m, hm, -⟩ := hwired.rejected firstDelivery (some 1) false _ reach_firstDelivery rfl
    (.inl rfl) rfl
  rw [nack, if_neg (by simp [retries, hbranch]), if_neg (by simp),
    deadLetter_dropped (by rw [argsOf_queue, mainArgs_transient hbranch]; rfl)] at hm
  cases hm

/-- With `ttlMs` the broker sends to the expiry address what it is given to dead-letter. -/
theorem ttl_of_wired (hdead : k.call.options.deadLetter = true) (hwired : k.Wired) :
    k.call.options.ttlMs = none ∨ (k.call.retryEnabled = true ∧ k.maxDeliveries ≤ 1) := by
  have hbranch := branch_of_wired hwired
  by_cases httl : k.call.options.ttlMs = none
  · exact .inl httl
  right
  have hexchange : (k.argsOf k.queue).deadLetterExchange = some k.expiryExchange := by
    rw [argsOf_queue, exchange_ttl hbranch (Option.isSome_iff_ne_none.mpr httl)]
  have hexpiry : ∃ m, (k.deadLetter firstDelivery k.queue .rejected).place =
      .sent k.expiryExchange m ∧ m.content = firstDelivery.message.content :=
    deadLetter_sent hexchange dlaExchange_ne.2.1
  obtain ⟨m', hexpiry, -⟩ := hexpiry
  have hretry : k.call.retryEnabled = true := by
    by_contra hretry
    obtain ⟨m, hm, -⟩ := hwired.rejected firstDelivery (some 1) false _ reach_firstDelivery rfl
      (.inl rfl) rfl
    rw [nack, if_neg (by simp [retries, hretry]), if_neg (by simp), hexpiry] at hm
    exact dlaExchange_ne.2.2 (Place.sent.inj hm).1.symm
  refine ⟨hretry, ?_⟩
  -- With a budget of two, the first delivery is to be retried.
  by_contra hbudget
  have hdelay : k.call.options.retryDelayMs.any (0 < ·) = true := by
    simpa [Call.retryEnabled, hdead] using hretry
  have hbelow : ¬ k.Exhausted firstDelivery (some 1) := by
    rw [Exhausted, if_pos hretry]
    simpa using hbudget
  obtain ⟨hparked, -⟩ := hwired.retried firstDelivery (some 1) _ reach_firstDelivery rfl hdelay
    hbelow rfl
  rw [nack, if_pos (retries_eq_true.mpr ⟨hretry, hbranch⟩), if_neg (by simpa using hbudget),
    hexpiry] at hparked
  cases hparked

/-- **The wiring does what it is for exactly when the queue is not transient and `ttlMs` overwrites
no exchange that is used**: it is absent, or there are retries in name only. -/
theorem wired_iff (hdead : k.call.options.deadLetter = true) :
    k.Wired ↔ k.transientBranch = false ∧ (k.call.options.ttlMs = none ∨
      (k.call.retryEnabled = true ∧ k.maxDeliveries ≤ 1)) :=
  ⟨fun hwired => ⟨branch_of_wired hwired, ttl_of_wired hdead hwired⟩,
    fun ⟨hbranch, httl⟩ => wired_of hdead hbranch httl⟩

end

/-- A subscription with retries and a budget of three, with or without `ttlMs`. -/
def retrying (ttlMs : Option Int32) : Consumption where
  runtime := .typescript
  topic := "t"
  call := ⟨{ subscriberId := some "s", deadLetter := true, retryDelayMs := some 50,
             ttlMs := ttlMs }, "", ""⟩
  plain := rfl
  overLimit limit returns := decide (limit < returns)

theorem wired_iff_retrying : (retrying none).Wired := (wired_iff rfl).mpr ⟨rfl, .inl rfl⟩

/-- **`ttlMs` breaks the retries.** -/
theorem ttl_overwrites : ¬ ∀ k : Consumption, k.call.options.deadLetter = true → k.Wired := by
  intro hclaim
  rcases ttl_of_wired rfl (hclaim (retrying (some 1000)) rfl) with httl | ⟨-, hbudget⟩
  · cases httl
  · exact absurd hbudget (by decide)

end Consumption

end MessagingPoc.RabbitMq
