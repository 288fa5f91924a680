import MessagingPoc.InMemory.Forwarding
import MessagingPoc.InMemory.Settlement
import MessagingPoc.RabbitMq.DeadLetter
import MessagingPoc.RabbitMq.Wire

/-!
# What a dead-letter copy carries

One path forwards a dead message and three publish its body again. On RabbitMQ the broker forwards
what a queue rejects, and the retry path of `toIncoming` publishes what it gives up; in memory both
`NackAsync(false)` and a spent budget end in `DeadLetter`, which calls `Publish` without options.

The copy is compared with the message as it was published, in what a handler can read off it: body,
headers, correlation id, reply address, group and priority. The `x-dedup-id` that the RabbitMQ
adapter writes itself is no header of the application.

**A copy that is published again carries the body alone** (`dead_letter_unchanged_iff`).
-/

namespace MessagingPoc

open Machine

/-- What a message carries for the application. -/
structure Envelope where
  body : String
  headers : List (String × String) := []
  correlationId : Option String := none
  replyTo : Option String := none
  groupId : Option String := none
  priority : Option Int32 := none
deriving DecidableEq

/-- The options give a message nothing to carry beside its body: these headers of the application,
the other fields as far as `given` counts them. -/
def BodyOnly (given : Option String → Option String) (headers : List (String × String))
    (options : Option PublishOptions) : Prop :=
  headers = [] ∧ given (options.bind (·.correlationId)) = none ∧
    given (options.bind (·.replyTo)) = none ∧ given (options.bind (·.groupId)) = none ∧
    options.bind (·.priority) = none

/-! ## In memory -/

/-- What a handler reads off its handle. -/
def IncomingBusMessage.envelope (i : IncomingBusMessage) : Envelope :=
  ⟨i.body, i.headers, i.correlationId, i.replyTo, i.groupId, i.priority⟩

/-- What a message was published with. -/
def BusMessage.envelope (m : BusMessage) : Envelope where
  body := m.body
  headers := (m.options.bind (·.headers)).getD []
  correlationId := m.options.bind (·.correlationId)
  replyTo := m.options.bind (·.replyTo)
  groupId := m.options.bind (·.groupId)
  priority := m.options.bind (·.priority)

def BusMessage.bodyOnly (m : BusMessage) : Prop :=
  BodyOnly (fun s => s) ((m.options.bind (·.headers)).getD []) m.options

/-- A message enqueued on a dead-letter address: the queue and the message it is a copy of. -/
structure DeadCopy where
  queue : QueueRef
  original : BusMessage
  copy : BusMessage
deriving DecidableEq

/-- The message that arrived on a queue. -/
def Event.arrival : Event → Option BusMessage
  | .on _ (.arrived m _) => some m
  | _ => none

namespace World

/-- The messages a step enqueues. -/
def enqueued (w : World) (i : Instr) : List BusMessage :=
  let history := (w.exec i).world.history
  (history.take (history.length - w.history.length)).filterMap Event.arrival

/-- The dead-letter copies a step enqueues. -/
def deadCopies (w : World) (l : Label) : List DeadCopy :=
  match w.next l with
  | some (.publish topic body key options (.deadLetter q m)) =>
    (w.enqueued (.publish topic body key options (.deadLetter q m))).map fun d => ⟨q, m, d⟩
  | _ => []

theorem envelope_handle {w : World} (h : Reach busMachine w) :
    ∀ i ∈ w.handles, i.envelope = i.message.envelope := by
  suffices hall : ∀ x ∈ w.handles.map fun i => (i.envelope, i.message.envelope), x.1 = x.2 by
    exact fun i hi => hall _ (List.mem_map_of_mem hi)
  refine h.invariant (I := fun w => ∀ x ∈ w.handles.map fun i =>
    (i.envelope, i.message.envelope), x.1 = x.2) (fun w hw => ?_) fun w l w' _ ih _ hstep => ?_
  · rw [busMachine_init.mp hw]
    simp
  · rcases handles_step (f := fun i => (i.envelope, i.message.envelope)) (fun _ => rfl)
      (busMachine_step.mp hstep) with ⟨-, heq⟩ | ⟨q, m, c, d, -, heq⟩
    · rwa [heq]
    · rw [heq]
      intro x hx
      rcases List.mem_append.mp hx with hx | hx
      · exact ih x hx
      · rw [List.mem_singleton.mp hx]
        rfl

theorem enqueued_publish {w : World} {topic body : String} {key : Option String}
    {options : Option PublishOptions} {cause : Cause} {d : BusMessage}
    (h : d ∈ w.enqueued (.publish topic body key options cause)) :
    d.topic = topic ∧ d.body = body ∧ d.options = options := by
  unfold enqueued at h
  have hex := w.executes (.publish topic body key options cause)
  generalize w.exec (.publish topic body key options cause) = o at h hex
  cases hex with
  | publishSuppressed => simp at h
  | @publish _ _ _ _ _ logged b₁ b₂ copies _ hlog hcopies =>
    have hcontents := (Bus.published hlog hcopies).contents
    simp only [record, withBus, List.length_append, Nat.add_sub_cancel, List.take_left',
      List.filterMap_append, List.filterMap_reverse, List.filterMap_map, List.mem_append,
      List.mem_reverse, List.mem_filterMap] at h
    rcases h with ⟨t, ht, hd⟩ | ⟨e, he, hd⟩
    · obtain rfl : t.2 = d := Option.some.inj hd
      obtain ⟨htopic, hbody, -, hoptions⟩ := hcontents t ht
      exact ⟨htopic, hbody, hoptions⟩
    · rw [List.mem_singleton.mp he] at hd
      cases hd

end World

/-- The bus beside the record of its dead-letter copies. -/
def deadLetterMachine : System (World × List DeadCopy) Label :=
  busMachine.recording World.deadCopies

namespace World

/-- **A dead-letter copy carries the body of its message**, and no options. -/
theorem deadCopy_carries {p : World × List DeadCopy} (h : Reach deadLetterMachine p) :
    ∀ c ∈ p.2, c.queue < p.1.bus.nextQueue ∧
      c.copy.topic = deadLetterAddress (p.1.bus.queue c.queue).topic ∧
      c.copy.body = c.original.body ∧ c.copy.options = none := by
  refine h.invariant (I := fun p => ∀ c ∈ p.2, c.queue < p.1.bus.nextQueue ∧
    c.copy.topic = deadLetterAddress (p.1.bus.queue c.queue).topic ∧
    c.copy.body = c.original.body ∧ c.copy.options = none) (fun p hp => ?_)
    fun p l p' hr ih _ hstep => ?_
  · rw [hp.2]
    simp
  obtain ⟨hs, hrecord⟩ := step_recording.mp hstep
  have hr' : Reach busMachine p.1 := hr.forget fun _ _ _ => trivial
  have hg := good hr'
  have hs := busMachine_step.mp hs
  -- An older copy's queue keeps its topic.
  have hkept : ∀ {q}, q < p.1.bus.nextQueue → q < p'.1.bus.nextQueue ∧
      (p'.1.bus.queue q).topic = (p.1.bus.queue q).topic :=
    fun hq => ⟨hq.trans_le (nextQueue_step hg hs), by rw [options_step hg hs hq]⟩
  have hcarries : ∀ c ∈ p'.2, c.queue < p.1.bus.nextQueue ∧
      c.copy.topic = deadLetterAddress (p.1.bus.queue c.queue).topic ∧
      c.copy.body = c.original.body ∧ c.copy.options = none := by
    intro c hc
    rw [hrecord, List.mem_append] at hc
    rcases hc with hc | hc
    · unfold deadCopies at hc
      split at hc
      · rename_i topic body key options q m hnext
        obtain ⟨d, hd, rfl⟩ := List.mem_map.mp hc
        obtain ⟨htopic, hbody, hoptions⟩ := enqueued_publish hd
        obtain ⟨hq, haddress, rfl, -, rfl⟩ :=
          (forwarded hr' .dead).due topic body key options q m (mem_agenda_of_next hnext)
        exact ⟨hq, htopic.trans haddress, hbody, hoptions⟩
      · cases hc
    · exact ih c hc
  intro c hc
  obtain ⟨hq, htopic, hrest⟩ := hcarries c hc
  obtain ⟨hq', htopic'⟩ := hkept hq
  exact ⟨hq', by rw [htopic', htopic], hrest⟩

end World

theorem envelope_eq_iff {m d : BusMessage} (hbody : d.body = m.body)
    (hoptions : d.options = none) :
    d.envelope = m.envelope ↔ m.bodyOnly := by
  simp only [BusMessage.envelope, BusMessage.bodyOnly, BodyOnly, hbody, hoptions, Envelope.mk.injEq,
    Option.bind_none, Option.getD_none, true_and, eq_comm (a := (none : Option String)),
    eq_comm (a := (none : Option Int32)), eq_comm (a := ([] : List (String × String)))]

/-! ## RabbitMQ -/

namespace RabbitMq.Consumption

open Amqp

variable (k : Consumption)

/-- The strings the runtime's `publishProps` writes. -/
def given (s : Option String) : Option String :=
  match k.runtime with
  | .typescript => truthy s
  | .dotnet => s

/-- The message a publish puts on the queues. -/
def published (payload : String) (options : Option PublishOptions) : Message where
  content := payload
  properties :=
    match k.runtime with
    | .typescript => publishProps options
    | .dotnet => Wire.publishProps options

/-- Is the header one of the application? -/
def fromApplication (options : Option PublishOptions) (h : String × String) : Bool :=
  h.1 ≠ "x-dedup-id" || (k.given (options.bind (·.dedupId))).isNone

/-- What `toIncoming` tells of a message published with these options. -/
def envelope (options : Option PublishOptions) (m : Message) : Envelope where
  body := m.content
  headers := m.properties.headers.filter (k.fromApplication options)
  correlationId := m.properties.correlationId
  replyTo := m.properties.replyTo
  groupId := m.properties.headers.lookup "x-group-id"
  priority := m.properties.priority

def bodyOnly (options : Option PublishOptions) : Prop :=
  BodyOnly k.given (((options.bind (·.headers)).getD []).filter (k.fromApplication options)) options

/-- The copy of a message on its way through the subscription. -/
def Follows (m : Message) (s : Copy) : Prop :=
  ∃ s₀, k.machine.init s₀ ∧ s₀.message = m ∧ Run k.machine anyStep s₀ s

variable {k} {s s' : Copy} {m : Message} {options : Option PublishOptions}

/-! ### What arrives -/

/-- The message, or the message without its expiration. -/
def Forwards (m m' : Message) : Prop :=
  m'.content = m.content ∧
    m'.properties = { m.properties with expiration := m'.properties.expiration }

/-- With retries the broker dead-letters to the parking queue or to the expiry address. -/
theorem exchange_ne_dlaExchange (hretries : k.retries = true) {q exchange : String}
    (h : (k.argsOf q).deadLetterExchange = some exchange) : exchange ≠ k.dlaExchange := by
  obtain ⟨hretry, hbranch⟩ := retries_eq_true.mp hretries
  by_cases hq : q = k.queue
  · rw [hq, argsOf_queue] at h
    by_cases httl : k.call.options.ttlMs = none
    · rw [(exchange_retry hbranch hretry httl).1] at h
      rw [← Option.some.inj h]
      exact dlaExchange_ne.1.symm
    · rw [exchange_ttl hbranch (Option.isSome_iff_ne_none.mpr httl)] at h
      rw [← Option.some.inj h]
      exact dlaExchange_ne.2.2.symm
  · unfold argsOf at h
    rw [if_neg hq] at h
    split_ifs at h
    rw [← Option.some.inj h]
    exact dlaExchange_ne.1.symm

/-- What is known of a copy: its message, and of what was sent who sent it. -/
structure Carries (k : Consumption) (m : Message) (s : Copy) : Prop where
  message : Forwards m s.message
  sent : ∀ m', s.place = .sent k.dlaExchange m' →
    if k.retries then m' = ⟨m.content, {}⟩ else Forwards m m'

theorem Carries.deadLetter (h : k.Carries m s) (q : String) (reason : Reason) :
    k.Carries m (k.deadLetter s q reason) := by
  have hforwards : Forwards m (k.deadLetter s q reason).message := by
    refine ⟨h.message.1, ?_⟩
    rw [Consumption.deadLetter, h.message.2]
  refine ⟨hforwards, fun m' hplace => ?_⟩
  have hexchange := exchange_of_sent hplace
  have hm' : m' = (k.deadLetter s q reason).message := by
    unfold Consumption.deadLetter at hplace ⊢
    simp only [hexchange] at hplace ⊢
    rw [if_neg dlaExchange_ne.1] at hplace
    exact (Place.sent.inj hplace).2.symm
  split_ifs with hretries
  · exact absurd rfl (exchange_ne_dlaExchange hretries hexchange)
  · rw [hm']
    exact hforwards

theorem Carries.giveBack (h : k.Carries m s) : k.Carries m (k.giveBack s) := by
  unfold Consumption.giveBack
  split_ifs
  · exact h.deadLetter _ _
  · exact ⟨h.message, fun m' hplace => by cases hplace⟩

theorem Carries.nack (h : k.Carries m s) (count : Option Nat) (requeue : Bool) :
    k.Carries m (k.nack s count requeue) := by
  unfold Consumption.nack
  split_ifs with hretries
  · refine ⟨h.message, fun m' hplace => ?_⟩
    rw [if_pos hretries, ← (Place.sent.inj hplace).2, h.message.1]
  · exact h.deadLetter _ _
  · exact h.giveBack
  · exact h.deadLetter _ _

theorem Carries.step (h : k.Carries m s) {a : Act} (hstep : k.step s a = some s') :
    k.Carries m s' := by
  have hkept : ∀ {place log}, (∀ exchange m', place ≠ .sent exchange m') →
      k.Carries m { s with place := place, log := log } :=
    fun hplace => ⟨h.message, fun m' hsent => absurd hsent (hplace _ _)⟩
  cases a with
  | deliver =>
    simp only [Consumption.step, Option.ite_none_right_eq_some, Option.some.injEq] at hstep
    obtain ⟨-, rfl⟩ := hstep
    exact hkept (by simp)
  | ack =>
    simp only [Consumption.step] at hstep
    split at hstep <;> cases hstep
    exact hkept (by simp)
  | nack requeue =>
    simp only [Consumption.step] at hstep
    split at hstep <;> cases hstep
    exact h.nack _ _
  | close =>
    simp only [Consumption.step] at hstep
    split at hstep
    · split_ifs at hstep <;> cases hstep
      · exact hkept (by simp)
      · exact h.giveBack
    · cases hstep
  | expire =>
    simp only [Consumption.step] at hstep
    split at hstep
    · split_ifs at hstep
      cases hstep
      exact h.deadLetter _ _
    · cases hstep

/-- **What reaches the dead-letter address**: with retries the content alone, else the message. -/
theorem carries (h : k.Follows m s) : k.Carries m s := by
  obtain ⟨s₀, hinit, rfl, p⟩ := h
  refine p.invariant (I := fun s => k.Carries s₀.message s) (fun s a s' _ ih _ hstep => ?_)
    (.init hinit) ⟨⟨rfl, rfl⟩, fun m' hplace => ?_⟩
  · exact ih.step hstep
  · rw [hinit.1] at hplace
    cases hplace

/-! ### What a handler sees of it -/

theorem mem_setHeader (headers : List (String × String)) (name value : String) :
    (name, value) ∈ setHeader headers name value := by
  unfold setHeader
  split_ifs with hmem
  · obtain ⟨h, hh, rfl⟩ := List.mem_map.mp hmem
    exact List.mem_map.mpr ⟨h, hh, if_pos rfl⟩
  · exact List.mem_append_right _ (List.mem_singleton_self _)

/-- A header that is filtered out is set unseen. -/
theorem filter_setHeader {f : String × String → Bool} {name : String}
    (hf : ∀ h, h.1 = name → f h = false) (headers : List (String × String)) (value : String) :
    (setHeader headers name value).filter f = headers.filter f := by
  unfold setHeader
  split_ifs with hmem
  · clear hmem
    induction headers with
    | nil => rfl
    | cons h hs ih =>
      rw [List.map_cons, List.filter_cons, List.filter_cons, ih]
      by_cases hname : h.1 = name
      · rw [if_pos hname, hf (name, value) rfl, hf h hname]
        rfl
      · rw [if_neg hname]
  · rw [List.filter_append, List.filter_cons, hf _ rfl]
    simp

theorem headers_published (k : Consumption) (payload : String) (options : Option PublishOptions) :
    (k.published payload options).properties.headers =
      let headers := (options.bind (·.headers)).getD []
      let headers := (k.given (options.bind (·.groupId))).elim headers
        (setHeader headers "x-group-id")
      (k.given (options.bind (·.dedupId))).elim headers (setHeader headers "x-dedup-id") := by
  unfold published given
  cases k.runtime <;> rfl

theorem filter_headers (k : Consumption) (payload : String) (options : Option PublishOptions) :
    (k.published payload options).properties.headers.filter (k.fromApplication options) =
      ((k.given (options.bind (·.groupId))).elim ((options.bind (·.headers)).getD [])
        (setHeader ((options.bind (·.headers)).getD []) "x-group-id")).filter
          (k.fromApplication options) := by
  have hdedup : ∀ headers : List (String × String),
      ((k.given (options.bind (·.dedupId))).elim headers (setHeader headers "x-dedup-id")).filter
        (k.fromApplication options) = headers.filter (k.fromApplication options) := by
    intro headers
    cases hid : k.given (options.bind (·.dedupId)) with
    | none => rfl
    | some id =>
      refine filter_setHeader (fun h hname => ?_) headers id
      simp [fromApplication, hname, hid]
  rw [headers_published, hdedup]

theorem properties_published (k : Consumption) (payload : String)
    (options : Option PublishOptions) :
    (k.published payload options).properties.correlationId =
        k.given (options.bind (·.correlationId)) ∧
      (k.published payload options).properties.replyTo = k.given (options.bind (·.replyTo)) ∧
      ((k.published payload options).properties.priority = none ↔
        options.bind (·.priority) = none) := by
  unfold published given
  cases k.runtime with
  | typescript => exact ⟨rfl, rfl, Iff.rfl⟩
  | dotnet => exact ⟨rfl, rfl, Option.map_eq_none_iff⟩

/-- A header of any other name than `x-dedup-id` is one of the application, or the group's. -/
theorem fromApplication_of_ne {h : String × String} (hne : h.1 ≠ "x-dedup-id") :
    k.fromApplication options h = true := by
  simp [fromApplication, hne]

/-- The body alone is the whole message exactly if there is nothing else. -/
theorem envelope_body_iff (k : Consumption) (payload : String) (options : Option PublishOptions) :
    k.envelope options ⟨payload, {}⟩ = k.envelope options (k.published payload options) ↔
      k.bodyOnly options := by
  obtain ⟨hcorrelation, hreply, hpriority⟩ := properties_published k payload options
  have hheaders := filter_headers k payload options
  have hfields : k.envelope options ⟨payload, {}⟩ =
      k.envelope options (k.published payload options) ↔
        (k.published payload options).properties.headers.filter (k.fromApplication options) = [] ∧
        k.given (options.bind (·.correlationId)) = none ∧
        k.given (options.bind (·.replyTo)) = none ∧
        (k.published payload options).properties.headers.lookup "x-group-id" = none ∧
        options.bind (·.priority) = none := by
    rw [← hpriority, ← hcorrelation, ← hreply]
    have hcontent : (k.published payload options).content = payload := rfl
    simp only [envelope, Envelope.mk.injEq, hcontent, List.filter_nil, List.lookup_nil, true_and,
      eq_comm (a := (none : Option String)), eq_comm (a := (none : Option Int32)),
      eq_comm (a := ([] : List (String × String)))]
  rw [hfields, bodyOnly, BodyOnly]
  constructor
  · rintro ⟨hnone, hc, hr, -, hp⟩
    rw [hheaders] at hnone
    cases hgroup : k.given (options.bind (·.groupId)) with
    | none =>
      rw [hgroup] at hnone
      exact ⟨hnone, hc, hr, rfl, hp⟩
    | some g =>
      -- The group's header would be there.
      rw [hgroup] at hnone
      have hne : ("x-group-id", g).1 ≠ "x-dedup-id" := by
        show "x-group-id" ≠ "x-dedup-id"
        decide
      exact absurd (fromApplication_of_ne hne)
        (List.filter_eq_nil_iff.mp hnone _ (mem_setHeader _ "x-group-id" g))
  · rintro ⟨hnone, hc, hr, hgroup, hp⟩
    have hfilter : (k.published payload options).properties.headers.filter
        (k.fromApplication options) = [] := by
      rw [hheaders, hgroup]
      exact hnone
    refine ⟨hfilter, hc, hr, List.lookup_eq_none_iff.mpr fun h hh => ?_, hp⟩
    rw [bne_iff_ne]
    intro hname
    exact absurd (fromApplication_of_ne (by rw [← hname]; decide))
      (List.filter_eq_nil_iff.mp hfilter h hh)

theorem envelope_forwards (k : Consumption) (options : Option PublishOptions) {m m' : Message}
    (h : Forwards m m') : k.envelope options m' = k.envelope options m := by
  unfold envelope
  rw [h.1, h.2]

end RabbitMq.Consumption

/-! ## Both -/

open RabbitMq in
/-- **Dead-lettering carries the message unchanged only where the broker forwards it.** In every
run of the bus the copy enqueued on the dead-letter address equals its message exactly if there was
nothing but a body; so does the copy the retry path of RabbitMQ publishes, for a message of any
options, while what the broker dead-letters from a queue without retries is unchanged. -/
theorem dead_letter_unchanged_iff (k : Consumption) (payload : String)
    (options : Option PublishOptions) :
    (∀ p, Reach deadLetterMachine p → ∀ c ∈ p.2,
      c.copy.topic = deadLetterAddress (p.1.bus.queue c.queue).topic ∧
      (c.copy.envelope = c.original.envelope ↔ c.original.bodyOnly) ∧
      ∀ i ∈ p.1.handles, i.message = c.copy → i.envelope = c.copy.envelope) ∧
    (∀ s copy, k.Follows (k.published payload options) s → s.place = .sent k.dlaExchange copy →
      (k.envelope options copy = k.envelope options (k.published payload options) ↔
        k.retries = false ∨ k.bodyOnly options)) := by
  refine ⟨fun p h c hc => ?_, fun s copy h hplace => ?_⟩
  · obtain ⟨-, htopic, hbody, hoptions⟩ := World.deadCopy_carries h c hc
    refine ⟨htopic, envelope_eq_iff hbody hoptions, fun i hi hmessage => ?_⟩
    rw [← hmessage]
    exact World.envelope_handle (h.forget fun _ _ _ => trivial) i hi
  · have hsent := (Consumption.carries h).sent copy hplace
    split_ifs at hsent with hretries
    · rw [hsent, ← Consumption.envelope_body_iff k payload options]
      simp only [hretries, Bool.true_eq_false, false_or]
      rfl
    · exact iff_of_true (Consumption.envelope_forwards k options hsent)
        (.inl (by simpa using hretries))

/-- What a message is published with that is rejected at once. -/
def correlated : Option PublishOptions := some { correlationId := some "c" }

/-- Play a list of labels beside the record of the dead-letter copies. -/
def playDeadLetters (ls : List Label) : World × List DeadCopy :=
  play (recordStep World.step World.deadCopies) ({}, []) ls

theorem reach_playDeadLetters (ls : List Label) : Reach deadLetterMachine (playDeadLetters ls) :=
  reach_play (recordStep_step fun _ _ _ => id) ⟨rfl, rfl⟩ ls

/-- Subscribers of a topic and of its dead-letter address. -/
def rejectedInMemory : List Label :=
  [.call (.subscribe "t" ⟨0⟩ { subscriberId := some "s", deadLetter := true }), .run 0,
    .call (.subscribe "t.dlq" ⟨1⟩ { subscriberId := some "d" }), .run 1,
    .call (.publish "t" "b" none correlated), .run 2, .run 2, .run 2, .call (.nack 0 false),
    .run 3, .run 3, .run 3]

/-- The message on the queue of a subscription with retries. -/
def correlatedCopy : RabbitMq.Copy where
  place := .ready (RabbitMq.Consumption.retrying none).queue
  message := (RabbitMq.Consumption.retrying none).published "b" correlated
  routingKey := "t"

/-- **The correlation id is lost**, in memory and by the retry path. -/
theorem correlation_lost :
    (¬ ∀ p, Reach deadLetterMachine p → ∀ c ∈ p.2, c.copy.envelope = c.original.envelope) ∧
    ¬ ∀ (k : RabbitMq.Consumption) payload options s copy,
      k.Follows (k.published payload options) s → s.place = .sent k.dlaExchange copy →
        k.envelope options copy = k.envelope options (k.published payload options) := by
  constructor
  · intro hclaim
    have hlost := hclaim _ (reach_playDeadLetters rejectedInMemory)
      ⟨0, ⟨1, "mem-bus-2", "t", "b", "t", correlated⟩,
        ⟨3, "mem-bus-4", "t.dlq", "b", "t", none⟩⟩ (by decide)
    exact absurd hlost (by decide)
  · intro hclaim
    have hlost := hclaim (RabbitMq.Consumption.retrying none) "b" correlated
      (play (RabbitMq.Consumption.retrying none).step correlatedCopy [.deliver, .nack false])
      ⟨"b", {}⟩
      ⟨correlatedCopy, ⟨rfl, by simp [correlatedCopy], rfl, rfl, rfl⟩, rfl,
        run_play (fun _ _ _ => id) (plays_anyStep _ _ _)⟩ (by decide)
    exact absurd hlost (by decide)

end MessagingPoc
