import MessagingPoc.RabbitMq.DeadLetter

/-!
# The RabbitMQ adapter: counting retries

With retries the adapter keeps no count of its own. A rejected message is parked and comes back, and
`xDeathCount` reads off the `x-death` header how often that was: the count of the first entry of the
main queue. That entry counts rejections unless the message last died on the main queue because its
own TTL ran out, which it can do once, before the first rejection. **Every other delivery reports
one more than the rejections before it** (`retry_counting`).
-/

namespace MessagingPoc.RabbitMq

open Amqp Machine

namespace Consumption

variable (k : Consumption)

/-- The copy was rejected from the main queue, and will come back. -/
def rejected : Happening := .died k.queue .rejected

/-- The TTL of the message ran out on the main queue. -/
def expired : Happening := .died k.queue .expired

/-- How often the copy was delivered. -/
def deliveries (log : List Happening) : Nat := log.countP fun e => e matches .delivered _

/-- Every delivery is nacked, and the TTL of the message does not run out on the main queue. -/
def alwaysNacked (s : Copy) : Act → Prop
  | .deliver | .nack true => True
  | .expire => s.place ≠ .ready k.queue
  | _ => False

instance (s : Copy) (a : Act) : Decidable (k.alwaysNacked s a) := by
  unfold alwaysNacked
  split <;> infer_instance

/-! ## The header and the record -/

/-- What the header of a copy says about its main queue. -/
structure Counted (s : Copy) : Prop where
  rejected : deathCount s.deaths k.queue .rejected = s.log.count k.rejected
  expired : deathCount s.deaths k.queue .expired = s.log.count k.expired
  /-- The first entry is that of the last rejection, if there was one. -/
  first : k.xDeathCount s =
    if k.rejected ∈ s.log then s.log.count k.rejected else s.log.count k.expired
  /-- A message loses its TTL when it is dead-lettered. -/
  fresh : s.message.properties.expiration.isSome = true →
    k.rejected ∉ s.log ∧ k.expired ∉ s.log

section

variable {k : Consumption} {s s' : Copy}

theorem messageTtl_main : k.mainArgs.messageTtl = none := by
  rw [mainArgs]
  split_ifs
  · rfl
  · unfold Call.queueArgs
    simp only
    split_ifs <;> rfl

theorem counted_init (h : k.machine.init s) : k.Counted s := by
  obtain ⟨-, hdeaths, -, -, hlog⟩ := h
  constructor <;> rw [hlog]
  · exact deathCount_of_not_mem hdeaths
  · exact deathCount_of_not_mem hdeaths
  · exact deathsOn_of_not_mem hdeaths
  · simp

/-- Nothing but dead-lettering touches the header. -/
theorem Counted.frame (h : k.Counted s) {e : Happening} (hdeaths : s'.deaths = s.deaths)
    (hmessage : s'.message = s.message) (hlog : s'.log = e :: s.log)
    (hrejected : e ≠ k.rejected) (hexpired : e ≠ k.expired) : k.Counted s' := by
  have hmem : k.rejected ∈ s'.log ↔ k.rejected ∈ s.log := by simp [hlog, hrejected.symm]
  constructor
  · rw [hdeaths, hlog, List.count_cons_of_ne hrejected, h.rejected]
  · rw [hdeaths, hlog, List.count_cons_of_ne hexpired, h.expired]
  · simp only [hmem]
    rw [hlog, List.count_cons_of_ne hrejected, List.count_cons_of_ne hexpired, ← h.first,
      xDeathCount, hdeaths]
    rfl
  · rw [hmessage, hlog]
    intro hsome
    simpa [hrejected.symm, hexpired.symm] using h.fresh hsome

theorem rejected_ne_expired : k.rejected ≠ k.expired := by simp [Consumption.rejected, expired]

/-- A rejection is counted, and its entry is the first. -/
theorem Counted.reject (h : k.Counted s) : k.Counted (k.deadLetter s k.queue .rejected) := by
  have hlog : (k.deadLetter s k.queue .rejected).log = k.rejected :: s.log := rfl
  have hdeaths : (k.deadLetter s k.queue .rejected).deaths =
      recordDeath s.deaths k.queue .rejected := rfl
  constructor
  · rw [hdeaths, hlog, deathCount_recordDeath_self, List.count_cons_self, h.rejected]
  · rw [hdeaths, hlog, deathCount_recordDeath_ne (by simp),
      List.count_cons_of_ne rejected_ne_expired, h.expired]
  · rw [xDeathCount, hdeaths, hlog, deathsOn_recordDeath_self, if_pos List.mem_cons_self,
      List.count_cons_self, h.rejected]
  · intro hsome
    cases hsome

/-- The TTL of a message runs out before anything else happens to it. -/
theorem Counted.expire (h : k.Counted s)
    (httl : s.message.properties.expiration.isSome = true) :
    k.Counted (k.deadLetter s k.queue .expired) := by
  obtain ⟨hrejected, hexpired⟩ := h.fresh httl
  have hlog : (k.deadLetter s k.queue .expired).log = k.expired :: s.log := rfl
  have hdeaths : (k.deadLetter s k.queue .expired).deaths =
      recordDeath s.deaths k.queue .expired := rfl
  constructor
  · rw [hdeaths, hlog, deathCount_recordDeath_ne (by simp),
      List.count_cons_of_ne rejected_ne_expired.symm, h.rejected]
  · rw [hdeaths, hlog, deathCount_recordDeath_self, List.count_cons_self, h.expired]
  · rw [xDeathCount, hdeaths, hlog, deathsOn_recordDeath_self,
      if_neg (by simp [rejected_ne_expired, hrejected]), List.count_cons_self, h.expired]
  · intro hsome
    cases hsome

/-- Deaths on other queues have entries of their own. -/
theorem Counted.elsewhere (h : k.Counted s) {q : String} (hq : q ≠ k.queue) :
    k.Counted (k.deadLetter s q .expired) := by
  have hlog : (k.deadLetter s q .expired).log = .died q .expired :: s.log := rfl
  have hdeaths : (k.deadLetter s q .expired).deaths = recordDeath s.deaths q .expired := rfl
  have hrejected : .died q .expired ≠ k.rejected := by simp [Consumption.rejected]
  have hexpired : .died q .expired ≠ k.expired := by simp [Consumption.expired, hq]
  constructor
  · rw [hdeaths, hlog, deathCount_recordDeath_ne (by simp), List.count_cons_of_ne hrejected,
      h.rejected]
  · rw [hdeaths, hlog, deathCount_recordDeath_ne (by simp [hq]), List.count_cons_of_ne hexpired,
      h.expired]
  · rw [xDeathCount, hdeaths, hlog, deathsOn_recordDeath_ne hq, List.count_cons_of_ne hrejected,
      List.count_cons_of_ne hexpired]
    simp only [List.mem_cons, hrejected.symm, false_or]
    exact h.first
  · intro hsome
    cases hsome

/-- With retries, a copy given back is on its queue again. -/
theorem giveBack_retries (hretries : k.retries = true) :
    k.giveBack s = { s with
      place := .ready k.queue
      redelivered := true
      returns := s.returns + 1
      log := .returned :: s.log } := by
  obtain ⟨hretry, hbranch⟩ := retries_eq_true.mp hretries
  rw [giveBack, limit_retry hbranch hretry]
  rfl

theorem counted_step (hretries : k.retries = true) (h : k.Counted s) {a : Act}
    (hstep : k.step s a = some s') : k.Counted s' := by
  cases a with
  | deliver =>
    simp only [step, Option.ite_none_right_eq_some, Option.some.injEq] at hstep
    obtain ⟨-, rfl⟩ := hstep
    exact h.frame rfl rfl rfl (by simp [rejected]) (by simp [expired])
  | ack =>
    simp only [step] at hstep
    split at hstep <;> cases hstep
    exact h.frame rfl rfl rfl (by simp [rejected]) (by simp [expired])
  | nack requeue =>
    simp only [step] at hstep
    split at hstep
    · cases hstep
      rw [nack, if_pos hretries]
      split_ifs
      · exact h.frame rfl rfl rfl (by simp [rejected]) (by simp [expired])
      · exact h.reject
    · cases hstep
  | close =>
    simp only [step] at hstep
    split at hstep
    · split_ifs at hstep <;> cases hstep
      · exact h.frame rfl rfl rfl (by simp [rejected]) (by simp [expired])
      · rw [giveBack_retries hretries]
        exact h.frame rfl rfl rfl (by simp [rejected]) (by simp [expired])
    · cases hstep
  | expire =>
    simp only [step] at hstep
    split at hstep
    · rename_i q _
      split_ifs at hstep with httl
      cases hstep
      by_cases hq : q = k.queue
      · subst hq
        exact h.expire (httl.resolve_right (by simp [messageTtl_main]))
      · exact h.elsewhere hq
    · cases hstep

theorem counted (hretries : k.retries = true) (h : Reach k.machine s) : k.Counted s :=
  h.invariant (fun _ => counted_init) fun _ _ _ _ ih _ hstep => counted_step hretries ih hstep

/-! ## What the deliveries report -/

/-- A delivery reports one more than the rejections before it, unless the TTL of the message ran
out on the main queue and no rejection came since. -/
def Reports (k : Consumption) (e : Happening) (older : List Happening) : Prop :=
  ∀ count, e = .delivered count →
    (count = some (1 + older.count k.rejected) ↔ (k.expired ∈ older → k.rejected ∈ older))

theorem Counted.reports (h : k.Counted s) (hretries : k.retries = true) :
    k.Reports (.delivered (k.deliveryCount s)) s.log := by
  intro count hcount
  cases hcount
  have hcount : k.deliveryCount s = some (k.xDeathCount s + 1) := if_pos hretries
  rw [hcount, h.first, Option.some.injEq]
  split_ifs with hrejected
  · simp only [hrejected, implies_true, iff_true]
    omega
  · have hexpired : s.log.count k.expired = 0 ↔ k.expired ∉ s.log := List.count_eq_zero
    rw [List.count_eq_zero.mpr hrejected]
    simp only [hrejected, imp_false, ← hexpired]
    omega

theorem log_step {a : Act} (h : k.step s a = some s') : ∃ e, s'.log = e :: s.log ∧
    ∀ count, e = .delivered count → count = k.deliveryCount s := by
  have hdeadLetter : ∀ q reason, ∃ e, (k.deadLetter s q reason).log = e :: s.log ∧
      ∀ count, e = .delivered count → count = k.deliveryCount s :=
    fun q reason => ⟨_, rfl, by simp⟩
  have hgiveBack : ∃ e, (k.giveBack s).log = e :: s.log ∧
      ∀ count, e = .delivered count → count = k.deliveryCount s := by
    unfold giveBack
    split_ifs
    · exact hdeadLetter _ _
    · exact ⟨_, rfl, by simp⟩
  cases a with
  | deliver =>
    simp only [step, Option.ite_none_right_eq_some, Option.some.injEq] at h
    obtain ⟨-, rfl⟩ := h
    exact ⟨_, rfl, fun count hcount => (Happening.delivered.inj hcount).symm⟩
  | ack =>
    simp only [step] at h
    split at h <;> cases h
    exact ⟨_, rfl, by simp⟩
  | nack requeue =>
    simp only [step] at h
    split at h
    · cases h
      unfold nack
      split_ifs
      · exact ⟨_, rfl, by simp⟩
      · exact hdeadLetter _ _
      · exact hgiveBack
      · exact hdeadLetter _ _
    · cases h
  | close =>
    simp only [step] at h
    split at h
    · split_ifs at h <;> cases h
      · exact ⟨_, rfl, by simp⟩
      · exact hgiveBack
    · cases h
  | expire =>
    simp only [step] at h
    split at h
    · split_ifs at h
      cases h
      exact hdeadLetter _ _
    · cases h

theorem reports (hretries : k.retries = true) (h : Reach k.machine s) :
    Always k.Reports s.log := by
  refine h.invariant (I := fun s => Always k.Reports s.log) (fun s hs => ?_)
    fun s a s' hr ih _ hstep => ?_
  · rw [hs.2.2.2.2]
    trivial
  · obtain ⟨e, hlog, hdelivered⟩ := log_step hstep
    rw [hlog]
    refine ⟨fun count hcount => ?_, ih⟩
    rw [hdelivered count hcount]
    exact (counted hretries hr).reports hretries _ rfl

/-! ## A message that is always nacked -/

/-- Where an always-nacked copy is after `r` rejections, and how often it was delivered, settled for
good and moved at all. -/
inductive Stage (k : Consumption) (r : Nat) : Copy → Nat → Nat → Nat → Prop
  | ready {s : Copy} (h : s.place = .ready k.queue) : Stage k r s r 0 (3 * r)
  | unacked {s : Copy} (h : s.place = .unacked (some (r + 1))) : Stage k r s (r + 1) 0 (3 * r + 1)
  | parked {s : Copy} (h : s.place = .ready k.retryQueue) (hr : 0 < r) :
    Stage k r s r 0 (3 * r - 1)
  | sent {s : Copy} (h : s.place = .sent k.dlaExchange ⟨s.message.content, {}⟩)
    (hr : (r + 1 : Int) = max 1 k.maxDeliveries) : Stage k r s (r + 1) 1 (3 * r + 2)

/-- How far an always-nacked copy has come. -/
structure Nacked (k : Consumption) (r : Nat) (s : Copy) : Prop where
  budget : (r : Int) < max 1 k.maxDeliveries
  rejections : s.log.count k.rejected = r
  inTime : k.expired ∉ s.log
  stage : Stage k r s (deliveries s.log) (s.log.count .gaveUp) s.log.length

theorem nacked_init (h : k.machine.init s) : k.Nacked 0 s := by
  obtain ⟨hplace, -, -, -, hlog⟩ := h
  refine ⟨by omega, by simp [hlog], by simp [hlog], ?_⟩
  rw [hlog]
  exact .ready hplace

/-- While the message is in time, every delivery reports one more than the rejections. -/
theorem Nacked.deliveryCount_eq {r : Nat} (h : k.Nacked r s) (hretries : k.retries = true)
    (hreach : Reach k.machine s) : k.deliveryCount s = some (r + 1) := by
  have hreports := (counted hretries hreach).reports hretries _ rfl
  rw [hreports.mpr fun hexpired => absurd hexpired h.inTime, h.rejections, Nat.add_comm]

theorem Stage.of_eq {r n g l n' g' l' : Nat} (h : Stage k r s n g l) (hn : n' = n) (hg : g' = g)
    (hl : l' = l) : Stage k r s n' g' l' := by
  subst hn hg hl
  exact h

@[simp] theorem deliveries_delivered (count : Option Nat) (log : List Happening) :
    deliveries (.delivered count :: log) = deliveries log + 1 := by
  simp [deliveries]

@[simp] theorem deliveries_died (q : String) (reason : Reason) (log : List Happening) :
    deliveries (.died q reason :: log) = deliveries log := by
  simp [deliveries]

@[simp] theorem deliveries_gaveUp (log : List Happening) :
    deliveries (.gaveUp :: log) = deliveries log := by
  simp [deliveries]

theorem nacked_step (hretries : k.retries = true) (httl : k.call.options.ttlMs = none)
    (hreach : Reach k.machine s) {r : Nat} (h : k.Nacked r s) {a : Act}
    (hok : k.alwaysNacked s a) (hstep : k.step s a = some s') : ∃ r', k.Nacked r' s' := by
  obtain ⟨hretry, hbranch⟩ := retries_eq_true.mp hretries
  have hcount := h.deliveryCount_eq hretries hreach
  obtain ⟨hbudget, hrejections, hinTime, hstage⟩ := h
  generalize hn : deliveries s.log = n at hstage
  generalize hg : s.log.count .gaveUp = g at hstage
  generalize hl : s.log.length = l at hstage
  cases hstage with
  | ready hplace =>
    cases a with
    | deliver =>
      simp only [step, hplace, hcount, if_true, Option.some.injEq] at hstep
      subst hstep
      refine ⟨r, hbudget, ?_, ?_, (Stage.unacked rfl).of_eq ?_ ?_ ?_⟩
      · simpa [rejected] using hrejections
      · simpa [expired] using hinTime
      · simp [hn]
      · simpa using hg
      · simp [hl]
    | expire => exact absurd hplace hok
    | ack | nack | close => simp [step, hplace] at hstep
  | unacked hplace =>
    cases a with
    | nack requeue =>
      cases requeue with
      | false => exact absurd hok (by simp [alwaysNacked])
      | true =>
        rw [nack_step hplace hstep, nack, if_pos hretries]
        by_cases hspent : k.maxDeliveries ≤ ((r + 1 : Nat) : Int)
        · -- The budget is spent.
          rw [if_pos (.inr (by simpa using hspent))]
          refine ⟨r, hbudget, ?_, ?_, (Stage.sent rfl (by omega)).of_eq ?_ ?_ ?_⟩
          · simpa [rejected] using hrejections
          · simpa [expired] using hinTime
          · simp [hn]
          · simp [hg]
          · simp [hl]
        · -- The message is parked.
          rw [if_neg (by simpa using hspent)]
          obtain ⟨hexchange, hkey⟩ := exchange_retry hbranch hretry httl
          have hparked : (k.deadLetter s k.queue .rejected).place = .ready k.retryQueue :=
            deadLetter_default (by rw [argsOf_queue, hexchange]) (by rw [argsOf_queue, hkey])
          have hlog : (k.deadLetter s k.queue .rejected).log = k.rejected :: s.log := rfl
          refine ⟨r + 1, by omega, ?_, ?_, (Stage.parked hparked (Nat.succ_pos r)).of_eq ?_ ?_ ?_⟩
          · rw [hlog, List.count_cons_self, hrejections]
          · simpa [hlog, rejected_ne_expired.symm] using hinTime
          · simp [hlog, rejected, hn]
          · simpa [hlog, rejected] using hg
          · rw [hlog, List.length_cons, hl]
            omega
    | ack | close => exact absurd hok (by simp [alwaysNacked])
    | deliver | expire => simp [step, hplace] at hstep
  | parked hplace hr =>
    cases a with
    | expire =>
      have hback : (k.deadLetter s k.retryQueue .expired).place = .ready k.queue :=
        deadLetter_default (by rw [argsOf_retryQueue hretry]; rfl)
          (by rw [argsOf_retryQueue hretry]; rfl)
      simp only [step, hplace, Option.ite_none_right_eq_some, Option.some.injEq] at hstep
      obtain ⟨-, rfl⟩ := hstep
      have hlog : (k.deadLetter s k.retryQueue .expired).log =
          .died k.retryQueue .expired :: s.log := rfl
      refine ⟨r, hbudget, ?_, ?_, (Stage.ready hback).of_eq ?_ ?_ ?_⟩
      · simpa [hlog, rejected] using hrejections
      · simpa [hlog, expired, retryQueue_ne.symm] using hinTime
      · simp [hlog, hn]
      · simpa [hlog] using hg
      · rw [hlog, List.length_cons, hl]
        omega
    | deliver => simp [step, hplace, retryQueue_ne] at hstep
    | ack | nack | close => simp [step, hplace] at hstep
  | sent hplace hr => cases a <;> simp [step, hplace] at hstep

/-- An always-nacked copy can move on until it is given up. -/
theorem Nacked.progress {r : Nat} (h : k.Nacked r s) (hretries : k.retries = true) :
    (∃ m, s.place = .sent k.dlaExchange m) ∨
      ∃ a s', k.alwaysNacked s a ∧ k.step s a = some s' := by
  obtain ⟨hretry, -⟩ := retries_eq_true.mp hretries
  obtain ⟨-, -, -, hstage⟩ := h
  generalize deliveries s.log = n at hstage
  generalize s.log.count .gaveUp = g at hstage
  generalize s.log.length = l at hstage
  cases hstage with
  | ready hplace => exact .inr ⟨.deliver, _, trivial, by rw [step, if_pos hplace]⟩
  | unacked hplace =>
    exact .inr ⟨.nack true, k.nack s (some (r + 1)) true, trivial, by simp only [step, hplace]⟩
  | parked hplace hr =>
    refine .inr ⟨.expire, k.deadLetter s k.retryQueue .expired, ?_, ?_⟩
    · simp [alwaysNacked, hplace, retryQueue_ne]
    · have hdelay : (k.argsOf k.retryQueue).messageTtl.isSome = true := by
        rw [argsOf_retryQueue hretry]
        exact messageTtl_retryArgs hretry
      simp [step, hplace, hdelay]
  | sent hplace hr => exact .inl ⟨_, hplace⟩

theorem nacked (hretries : k.retries = true) (httl : k.call.options.ttlMs = none)
    (h : ReachIf k.machine k.alwaysNacked s) : ∃ r, k.Nacked r s := by
  refine h.invariant (I := fun s => ∃ r, k.Nacked r s) (fun s hs => ⟨0, nacked_init hs⟩)
    fun s a s' hr ih hok hstep => ?_
  obtain ⟨r, ih⟩ := ih
  exact nacked_step hretries httl hr.reach ih hok hstep

/-- What is to become of a message that is always nacked: it moves on until it was delivered
`max 1 maxDeliveries` times, and then one copy of it is published to the dead-letter fanout. -/
structure PoisonBounded (k : Consumption) (s : Copy) : Prop where
  deliveries_le : (deliveries s.log : Int) ≤ max 1 k.maxDeliveries
  /-- Every step is recorded, so there are not many. -/
  length_lt : (s.log.length : Int) < 3 * max 1 k.maxDeliveries
  ends : (s.place = .sent k.dlaExchange ⟨s.message.content, {}⟩ ∧
      (deliveries s.log : Int) = max 1 k.maxDeliveries ∧ s.log.count .gaveUp = 1) ∨
    ∃ a s', k.alwaysNacked s a ∧ k.step s a = some s'

theorem Nacked.poisonBounded {r : Nat} (h : k.Nacked r s) (hretries : k.retries = true) :
    k.PoisonBounded s := by
  have hprogress := h.progress hretries
  obtain ⟨hbudget, -, -, hstage⟩ := h
  generalize hn : deliveries s.log = n at hstage
  generalize hg : s.log.count .gaveUp = g at hstage
  generalize hl : s.log.length = l at hstage
  cases hstage with
  | ready hplace | unacked hplace | parked hplace =>
    refine ⟨by omega, by omega, .inr (hprogress.resolve_left ?_)⟩
    simp [hplace]
  | sent hplace hr => exact ⟨by omega, by omega, .inl ⟨hplace, by omega, hg⟩⟩

/-- **Retry counting.** A delivery reports one more than the rejections before it, unless the TTL of
the message ran out on the main queue and it was not rejected yet. A message that stays in time
there and is always nacked is delivered `max 1 maxDeliveries` times, and then goes to the
dead-letter fanout once. -/
theorem retry_counting (hretries : k.retries = true) :
    (∀ s, Reach k.machine s → Always k.Reports s.log) ∧
      (k.call.options.ttlMs = none → ∀ s, ReachIf k.machine k.alwaysNacked s →
        k.PoisonBounded s) := by
  refine ⟨fun s h => reports hretries h, fun httl s h => ?_⟩
  obtain ⟨r, hr⟩ := nacked hretries httl h
  exact hr.poisonBounded hretries

end

/-- A message on the main queue, with or without a TTL of its own. -/
def arrived (expiration : Option String) : Copy where
  place := .ready (retrying none).queue
  message := ⟨"x", { expiration := expiration }⟩
  routingKey := "t"

theorem init_arrived (expiration : Option String) :
    (retrying none).machine.init (arrived expiration) :=
  ⟨rfl, by simp [arrived], rfl, rfl, rfl⟩

/-- A life of nacks, budget three. -/
def threeNacks : List Act :=
  [.deliver, .nack true, .expire, .deliver, .nack true, .expire, .deliver, .nack true]

theorem retry_counting_three :
    (retrying none).PoisonBounded (play (retrying none).step (arrived none) threeNacks) :=
  (retry_counting rfl).2 rfl _ (reachIf_play (fun _ _ _ => id) (init_arrived none) threeNacks
    (by decide))

/-- **A message that expires on the main queue is taken for a rejected one**: its first delivery
reports two. -/
theorem expiry_counted : ¬ ∀ (k : Consumption) (s : Copy), k.retries = true →
    k.call.options.ttlMs = none → Reach k.machine s →
    Always (fun e older => ∀ count, e = .delivered count →
      count = some (1 + older.count k.rejected)) s.log := by
  intro hclaim
  have hreports := hclaim (retrying none) _ rfl rfl
    (reach_play (fun _ _ _ => id) (init_arrived (some "10")) [.expire, .expire, .deliver])
  have hfirst := hreports.1 (some 2) (by decide)
  exact absurd hfirst (by decide)

end Consumption

end MessagingPoc.RabbitMq
