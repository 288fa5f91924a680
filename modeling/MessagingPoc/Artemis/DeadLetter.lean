import MessagingPoc.Abstractions
import MessagingPoc.Artemis.Selector
import MessagingPoc.Lib.Machine

/-!
# The Artemis adapter: dead-lettered and expired messages

The broker has one address for dead messages, `mbc.DLQ`, and one for expired ones, `mbc.EXPIRY`;
`subscribe` reads every `{topic}.dlq` from the first and every `{topic}.expiry` from the second.
Nothing on a message says which topic it comes from, and the queue of a subscription is named by the
broker's address and the subscriber id. So the dead-letter subscribers of two topics see each
other's messages, and with equal ids they share a queue. Outside `mbc.s16.#` an expired message goes
where no subscription reads.

The adapter is followed beside the reference: `registrations` says what `InMemoryBus` would put on
the queue of each dead-letter and expiry subscription.

**The subscriptions are per topic in every run that never mixes two topics on one of these
addresses** (`per_topic`).
-/

namespace MessagingPoc.Artemis

open Machine

/-! ## Addresses -/

def artemisDla : String := "mbc.DLQ"

def artemisExpiry : String := "mbc.EXPIRY"

/-- `endsWith`. -/
def hasSuffix (topic suffix : String) : Bool := suffix.toList.isSuffixOf topic.toList

/-- The broker address a subscription to a topic reads from. -/
def address (topic : String) : String :=
  if hasSuffix topic ".dlq" then artemisDla
  else if hasSuffix topic ".expiry" then artemisExpiry
  else topic

/-- Is it the address of dead or expired messages by the conventions of the port? -/
def isSpecial (topic : String) : Bool := hasSuffix topic ".dlq" || hasSuffix topic ".expiry"

/-- `dead-letter-address` in `broker.xml`: all the matches under `mbc.#` agree. -/
def deadLetterSetting (address : String) : String :=
  if topicMatch "mbc.#" address then artemisDla else "DLQ"

/-- `expiry-address` in `broker.xml`. -/
def expirySetting (address : String) : String :=
  if topicMatch "mbc.s16.#" address then artemisExpiry else "ExpiryQueue"

/-! ## The broker -/

/-- How a message got onto its address. -/
inductive Cause
  | published (topic : String)
  | died (topic : String)
  | expired (topic : String)
deriving DecidableEq

/-- The dead-letter or expiry address of the topic the message comes from. -/
def Cause.home : Cause → Option String
  | .published _ => none
  | .died topic => some (deadLetterAddress topic)
  | .expired topic => some (expiryAddress topic)

structure Message where
  /-- The broker's number of the message; the copies on several queues share it. -/
  number : Nat
  body : String
  routingKey : String
  /-- Has it a time to live? -/
  expires : Bool
  /-- Ghost. -/
  cause : Cause
deriving DecidableEq

/-- What `::` joins in the name of a queue. -/
structure Fqqn where
  address : String
  subscriberId : String
deriving DecidableEq

structure Queue where
  fqqn : Fqqn
  /-- `auto-delete=true&max-consumers=1`. -/
  transient : Bool
  messages : List Message := []
  /-- Ghost: the topic of the subscription it was created for. -/
  topic : String
deriving DecidableEq

/-- A call of `subscribe`, with the id it goes by. .NET does not read `Transient`. -/
structure Subscription where
  topic : String
  subscriberId : String
  kind : TopologyKind := .topic
  routingKey : Option String := none
  transient : Bool := false
deriving DecidableEq

namespace Subscription

def fqqn (s : Subscription) : Fqqn := ⟨address s.topic, s.subscriberId⟩

/-- Does a message pass the filter of the receiver? -/
def selects (s : Subscription) (routingKey : String) : Bool :=
  match s.kind, s.routingKey with
  | .topic, some key => if key = "" then true else Artemis.selects (toSelector key) routingKey
  | _, _ => true

end Subscription

/-- What the reference has put on the queue of a subscriber of a topic, of the messages that died or
expired. -/
structure Registration where
  topic : String
  subscriberId : String
  due : List Message := []
deriving DecidableEq

def Registration.fqqn (r : Registration) : Fqqn := ⟨address r.topic, r.subscriberId⟩

structure Broker where
  queues : List Queue := []
  subscriptions : List Subscription := []
  next : Nat := 0
  /-- Ghost. -/
  registrations : List Registration := []
  /-- Ghost: what the subscribers of a topic by one id received. -/
  received : List ((String × String) × Message) := []
  /-- Ghost: what expired on a queue. -/
  expired : List (Fqqn × Message) := []

inductive Act
  | subscribe (s : Subscription)
  | unsubscribe (s : Subscription)
  | publish (topic body routingKey : String) (expires : Bool)
  | deliver (s : Subscription) (m : Message)
  | ack (s : Subscription) (m : Message)
  /-- The handler rejects the message, or its attempts are used up. -/
  | die (s : Subscription) (m : Message)
  /-- A time to live runs out. -/
  | expire (fqqn : Fqqn) (m : Message)
deriving DecidableEq

namespace Broker

def queue? (w : Broker) (fqqn : Fqqn) : Option Queue := w.queues.find? (·.fqqn = fqqn)

/-- A multicast address copies a message to all of its queues. -/
def route (w : Broker) (address : String) (m : Message) : Broker :=
  { w with
    next := w.next + 1
    queues := w.queues.map fun q =>
      { q with messages := q.messages ++ if q.fqqn.address = address then [m] else [] }
    registrations := w.registrations.map fun r =>
      { r with due := r.due ++ if m.cause.home = some r.topic then [m] else [] } }

def remove (w : Broker) (fqqn : Fqqn) (m : Message) : Broker :=
  { w with
    queues := w.queues.map fun q =>
      { q with messages := if q.fqqn = fqqn then q.messages.erase m else q.messages } }

/-- The copy of a dead or expired message. -/
def copy (w : Broker) (m : Message) (expires : Bool) (cause : Cause) : Message :=
  { m with number := w.next, expires := expires, cause := cause }

def register (w : Broker) (s : Subscription) : List Registration :=
  if w.registrations.any fun r => r.topic = s.topic && r.subscriberId = s.subscriberId then
    w.registrations
  else ⟨s.topic, s.subscriberId, []⟩ :: w.registrations

def subscribe (w : Broker) (s : Subscription) : Option Broker :=
  match w.queue? s.fqqn with
  | some q =>
    if q.transient ∧ w.subscriptions.any (·.fqqn = s.fqqn) then none
    else some { w with
      subscriptions := s :: w.subscriptions
      registrations := w.register s }
  | none => some { w with
      queues := ⟨s.fqqn, s.transient, [], s.topic⟩ :: w.queues
      subscriptions := s :: w.subscriptions
      registrations := w.register s }

/-- A transient queue goes with its last receiver. -/
def unsubscribe (w : Broker) (s : Subscription) : Option Broker :=
  if s ∈ w.subscriptions then
    let subscriptions := w.subscriptions.erase s
    if (w.queue? s.fqqn).any (·.transient) && !(subscriptions.any (·.fqqn = s.fqqn)) then
      some { w with
        subscriptions := subscriptions
        queues := w.queues.filter (·.fqqn ≠ s.fqqn)
        registrations := w.registrations.filter (·.fqqn ≠ s.fqqn) }
    else some { w with subscriptions := subscriptions }
  else none

/-- The message waits on the subscriber's queue. -/
def waiting (w : Broker) (fqqn : Fqqn) (m : Message) : Bool :=
  w.queues.any fun q => q.fqqn = fqqn && m ∈ q.messages

/-- A delivered message, not settled so far. -/
def unsettled (w : Broker) (s : Subscription) (m : Message) : Bool :=
  s ∈ w.subscriptions && w.waiting s.fqqn m && ((s.topic, s.subscriberId), m) ∈ w.received

def step (w : Broker) : Act → Option Broker
  | .subscribe s => w.subscribe s
  | .unsubscribe s => w.unsubscribe s
  | .publish topic body routingKey expires =>
    some (w.route topic ⟨w.next, body, routingKey, expires, .published topic⟩)
  | .deliver s m =>
    if s ∈ w.subscriptions ∧ w.waiting s.fqqn m = true ∧ s.selects m.routingKey = true then
      some { w with received := ((s.topic, s.subscriberId), m) :: w.received }
    else none
  | .ack s m => if w.unsettled s m then some (w.remove s.fqqn m) else none
  | .die s m =>
    if w.unsettled s m then
      (w.queue? s.fqqn).map fun q =>
        (w.remove s.fqqn m).route (deadLetterSetting q.fqqn.address)
          (w.copy m m.expires (.died q.topic))
    else none
  | .expire fqqn m =>
    if w.waiting fqqn m && m.expires then
      (w.queue? fqqn).map fun q =>
        { (w.remove fqqn m).route (expirySetting fqqn.address)
            (w.copy m false (.expired q.topic)) with
          expired := (fqqn, m) :: w.expired }
    else none

end Broker

/-- The broker and its clients, in every order of steps. -/
def machine : System Broker Act where
  init w := w = {}
  step w a w' := w.step a = some w'

/-! ## The conventions -/

theorem toList_deadLetterAddress (topic : String) :
    (deadLetterAddress topic).toList = topic.toList ++ ['.', 'd', 'l', 'q'] := by
  simp [deadLetterAddress]

theorem toList_expiryAddress (topic : String) :
    (expiryAddress topic).toList = topic.toList ++ ['.', 'e', 'x', 'p', 'i', 'r', 'y'] := by
  simp [expiryAddress]

theorem deadLetterAddress_injective : Function.Injective deadLetterAddress := fun t t' h => by
  have hlist := congrArg String.toList h
  rw [toList_deadLetterAddress, toList_deadLetterAddress] at hlist
  exact String.toList_injective (List.append_cancel_right hlist)

theorem expiryAddress_injective : Function.Injective expiryAddress := fun t t' h => by
  have hlist := congrArg String.toList h
  rw [toList_expiryAddress, toList_expiryAddress] at hlist
  exact String.toList_injective (List.append_cancel_right hlist)

theorem deadLetterAddress_ne_expiryAddress (t t' : String) :
    deadLetterAddress t ≠ expiryAddress t' := fun h => by
  have hlast := congrArg (fun s => s.toList.getLast?) h
  simp [toList_deadLetterAddress, toList_expiryAddress] at hlast

theorem address_deadLetterAddress (topic : String) :
    address (deadLetterAddress topic) = artemisDla := by
  apply if_pos
  simp [hasSuffix, toList_deadLetterAddress]

theorem address_expiryAddress (topic : String) :
    address (expiryAddress topic) = artemisExpiry := by
  have hdlq : hasSuffix (expiryAddress topic) ".dlq" = false := by
    refine Bool.eq_false_iff.mpr fun h => ?_
    obtain ⟨start, hstart⟩ := List.isSuffixOf_iff_suffix.mp h
    have hlast := congrArg List.getLast? hstart
    simp [toList_expiryAddress] at hlast
  have hexpiry : hasSuffix (expiryAddress topic) ".expiry" = true := by
    simp [hasSuffix, toList_expiryAddress]
  simp [address, hdlq, hexpiry]

theorem isSpecial_deadLetterAddress (topic : String) :
    isSpecial (deadLetterAddress topic) = true := by
  simp [isSpecial, hasSuffix, toList_deadLetterAddress]

theorem isSpecial_expiryAddress (topic : String) :
    isSpecial (expiryAddress topic) = true := by
  simp [isSpecial, hasSuffix, toList_expiryAddress]

/-! ## Runs that do not mix topics -/

/-- The dead-letter and expiry queues on an address are all for the messages that go there now. -/
def Broker.Separate (w : Broker) (address : String) (home : Option String) : Prop :=
  ∀ q ∈ w.queues, q.fqqn.address = address → isSpecial q.topic = true → home = some q.topic

instance (w : Broker) (address : String) (home : Option String) :
    Decidable (w.Separate address home) :=
  inferInstanceAs (Decidable (∀ _ ∈ _, _))

/-- A step that mixes nothing: no subscriber joins the queue of another topic; no message is put
beside, or instead of, those of another topic; and an expired message goes where its subscribers
read. -/
def Unmixed (w : Broker) : Act → Prop
  | .subscribe s => ∀ q ∈ w.queues, q.fqqn = s.fqqn → q.topic = s.topic
  | .publish topic _ _ _ => w.Separate topic none
  | .die s _ => ∀ q ∈ w.queues, q.fqqn = s.fqqn →
      w.Separate (deadLetterSetting q.fqqn.address) (some (deadLetterAddress q.topic))
  | .expire fqqn _ => ∀ q ∈ w.queues, q.fqqn = fqqn →
      w.Separate (expirySetting fqqn.address) (some (expiryAddress q.topic)) ∧
        ((∃ q' ∈ w.queues, q'.topic = expiryAddress q.topic) →
          expirySetting fqqn.address = artemisExpiry)
  | .unsubscribe _ | .deliver _ _ | .ack _ _ => True

instance (w : Broker) (a : Act) : Decidable (Unmixed w a) := by
  cases a <;> unfold Unmixed <;> infer_instance

/-- A dead-letter or expiry address of a topic under `mbc.#`. -/
def InScope (special : String) : Prop :=
  ∃ topic, topicMatch "mbc.#" topic = true ∧
    (special = deadLetterAddress topic ∨ special = expiryAddress topic)

namespace Broker

/-- A message due to a subscriber waits on the subscriber's queue, unless a subscriber of that topic
and id has had it, or its time ran out there. -/
def Accounted (w : Broker) (r : Registration) (q : Queue) (m : Message) : Prop :=
  m ∈ q.messages ∨ ((r.topic, r.subscriberId), m) ∈ w.received ∨ (r.fqqn, m) ∈ w.expired

/-- What holds while topics do not mix. -/
structure Kept (w : Broker) : Prop where
  placed : ∀ q ∈ w.queues, q.fqqn.address = address q.topic
  attached : ∀ s ∈ w.subscriptions, ∃ q ∈ w.queues, q.fqqn = s.fqqn
  owned : ∀ s ∈ w.subscriptions, ∀ q ∈ w.queues, q.fqqn = s.fqqn → q.topic = s.topic
  homed : ∀ q ∈ w.queues, isSpecial q.topic = true → ∀ m ∈ q.messages, m.cause.home = some q.topic
  received : ∀ topic id m, ((topic, id), m) ∈ w.received → isSpecial topic = true →
    m.cause.home = some topic
  due : ∀ r ∈ w.registrations, InScope r.topic → ∃ q ∈ w.queues, q.fqqn = r.fqqn ∧
    q.topic = r.topic ∧ ∀ m ∈ r.due, w.Accounted r q m

variable {w w' : Broker}

theorem kept_init : Kept {} :=
  ⟨by simp, by simp, by simp, by simp, by simp, by simp⟩

/-- What a step does to the messages of each queue keeps the rest in place. -/
theorem Kept.mapQueues (h : w.Kept) {f : Queue → Queue} (hqueues : w'.queues = w.queues.map f)
    (hf : ∀ q, (f q).fqqn = q.fqqn ∧ (f q).topic = q.topic)
    (hsubs : w'.subscriptions = w.subscriptions) (hreceived : w'.received = w.received)
    (hhomed : ∀ q ∈ w.queues, isSpecial q.topic = true → ∀ m ∈ (f q).messages,
      m.cause.home = some q.topic)
    (hdue : ∀ r ∈ w'.registrations, InScope r.topic → ∃ q ∈ w.queues, q.fqqn = r.fqqn ∧
      q.topic = r.topic ∧ ∀ m ∈ r.due, w'.Accounted r (f q) m) : w'.Kept := by
  refine ⟨fun q' hq' => ?_, fun s hs => ?_, fun s hs q' hq' => ?_, fun q' hq' => ?_, ?_,
    fun r hr hscope => ?_⟩
  · rw [hqueues] at hq'
    obtain ⟨q, hq, rfl⟩ := List.mem_map.mp hq'
    rw [(hf q).1, (hf q).2]
    exact h.placed q hq
  · rw [hsubs] at hs
    obtain ⟨q, hq, hfqqn⟩ := h.attached s hs
    exact ⟨f q, hqueues ▸ List.mem_map_of_mem hq, (hf q).1.trans hfqqn⟩
  · rw [hsubs] at hs
    rw [hqueues] at hq'
    obtain ⟨q, hq, rfl⟩ := List.mem_map.mp hq'
    rw [(hf q).1, (hf q).2]
    exact h.owned s hs q hq
  · rw [hqueues] at hq'
    obtain ⟨q, hq, rfl⟩ := List.mem_map.mp hq'
    rw [(hf q).2]
    exact hhomed q hq
  · rw [hreceived]
    exact h.received
  · obtain ⟨q, hq, hfqqn, htopic, hdue⟩ := hdue r hr hscope
    exact ⟨f q, hqueues ▸ List.mem_map_of_mem hq, (hf q).1.trans hfqqn, (hf q).2.trans htopic, hdue⟩

theorem Kept.route (h : w.Kept) {address : String} {m : Message}
    (hseparate : w.Separate address m.cause.home)
    (hread : ∀ r ∈ w.registrations, InScope r.topic → m.cause.home = some r.topic →
      Artemis.address r.topic = address) :
    (w.route address m).Kept := by
  refine h.mapQueues rfl (fun _ => ⟨rfl, rfl⟩) rfl rfl (fun q hq hspecial m' hm' => ?_)
    fun r' hr' hscope => ?_
  · rcases List.mem_append.mp hm' with hm' | hm'
    · exact h.homed q hq hspecial m' hm'
    · split_ifs at hm' with haddress
      · rw [List.mem_singleton.mp hm']
        exact hseparate q hq haddress hspecial
      · cases hm'
  · obtain ⟨r, hr, rfl⟩ := List.mem_map.mp hr'
    obtain ⟨q, hq, hfqqn, htopic, hdue⟩ := h.due r hr hscope
    refine ⟨q, hq, hfqqn, htopic, fun m' hm' => ?_⟩
    rcases List.mem_append.mp hm' with hm' | hm'
    · exact (hdue m' hm').imp_left (List.mem_append_left _)
    · split_ifs at hm' with hhome
      · obtain rfl := List.mem_singleton.mp hm'
        have haddress : q.fqqn.address = address := by
          rw [hfqqn]
          exact hread r hr hscope hhome
        refine .inl (List.mem_append_right _ ?_)
        rw [if_pos haddress]
        exact hm'
      · cases hm'

theorem Kept.remove (h : w.Kept) {fqqn : Fqqn} {m : Message}
    (hgone : ∀ r ∈ w.registrations, InScope r.topic → r.fqqn = fqqn →
      ((r.topic, r.subscriberId), m) ∈ w.received ∨ (fqqn, m) ∈ w.expired) :
    (w.remove fqqn m).Kept := by
  refine h.mapQueues rfl (fun _ => ⟨rfl, rfl⟩) rfl rfl (fun q hq hspecial m' hm' => ?_)
    fun r' hr' hscope => ?_
  · apply h.homed q hq hspecial m'
    dsimp only at hm'
    split_ifs at hm'
    · exact List.mem_of_mem_erase hm'
    · exact hm'
  · obtain ⟨q, hq, hfqqn, htopic, hdue⟩ := h.due r' hr' hscope
    refine ⟨q, hq, hfqqn, htopic, fun m' hm' => ?_⟩
    rcases hdue m' hm' with hwaits | hleft
    · by_cases hsame : q.fqqn = fqqn ∧ m' = m
      · obtain ⟨hsame, rfl⟩ := hsame
        obtain rfl : r'.fqqn = fqqn := hfqqn.symm.trans hsame
        exact .inr (hgone r' hr' hscope rfl)
      · left
        dsimp only
        split_ifs with hat
        · exact (List.mem_erase_of_ne fun hm => hsame ⟨hat, hm⟩).mpr hwaits
        · exact hwaits
    · exact .inr hleft

theorem mem_register {s : Subscription} {r : Registration} (h : r ∈ w.register s) :
    r ∈ w.registrations ∨ r = ⟨s.topic, s.subscriberId, []⟩ := by
  unfold register at h
  split_ifs at h
  · exact .inl h
  · exact (List.mem_cons.mp h).symm

theorem queue?_eq_some {fqqn : Fqqn} {q : Queue} (h : w.queue? fqqn = some q) :
    q ∈ w.queues ∧ q.fqqn = fqqn :=
  ⟨List.mem_of_find?_eq_some h, by simpa using List.find?_some h⟩

theorem Kept.subscribe (h : w.Kept) {s : Subscription}
    (hown : ∀ q ∈ w.queues, q.fqqn = s.fqqn → q.topic = s.topic)
    (hstep : w.subscribe s = some w') : w'.Kept := by
  unfold Broker.subscribe at hstep
  split at hstep
  · rename_i q hq
    obtain ⟨hmem, hfqqn⟩ := queue?_eq_some hq
    simp only [Option.ite_none_left_eq_some, Option.some.injEq] at hstep
    obtain ⟨-, rfl⟩ := hstep
    refine ⟨h.placed, fun s' hs' => ?_, fun s' hs' => ?_, h.homed, h.received,
      fun r hr hscope => ?_⟩
    · rcases List.mem_cons.mp hs' with rfl | hs'
      · exact ⟨q, hmem, hfqqn⟩
      · exact h.attached s' hs'
    · rcases List.mem_cons.mp hs' with rfl | hs'
      · exact hown
      · exact h.owned s' hs'
    · rcases mem_register hr with hr | rfl
      · exact h.due r hr hscope
      · exact ⟨q, hmem, hfqqn, hown q hmem hfqqn, fun m hm => absurd hm List.not_mem_nil⟩
  · rename_i hnone
    cases hstep
    have hnew : ∀ q ∈ w.queues, q.fqqn ≠ s.fqqn := by simpa [queue?] using hnone
    refine ⟨fun q hq => ?_, fun s' hs' => ?_, fun s' hs' q hq hfqqn => ?_, fun q hq => ?_,
      h.received, fun r hr hscope => ?_⟩
    · rcases List.mem_cons.mp hq with rfl | hq
      · rfl
      · exact h.placed q hq
    · rcases List.mem_cons.mp hs' with rfl | hs'
      · exact ⟨_, List.mem_cons_self, rfl⟩
      · obtain ⟨q, hq, hfqqn⟩ := h.attached s' hs'
        exact ⟨q, List.mem_cons_of_mem _ hq, hfqqn⟩
    · rcases List.mem_cons.mp hs' with rfl | hs'
      · rcases List.mem_cons.mp hq with rfl | hq
        · rfl
        · exact absurd hfqqn (hnew q hq)
      · rcases List.mem_cons.mp hq with rfl | hq
        · -- That subscription had a queue already.
          obtain ⟨q, hq, hfqqn'⟩ := h.attached s' hs'
          exact absurd (hfqqn'.trans hfqqn.symm) (hnew q hq)
        · exact h.owned s' hs' q hq hfqqn
    · rcases List.mem_cons.mp hq with rfl | hq
      · exact fun _ m hm => absurd hm List.not_mem_nil
      · exact h.homed q hq
    · rcases mem_register hr with hr | rfl
      · obtain ⟨q, hq, hdue⟩ := h.due r hr hscope
        exact ⟨q, List.mem_cons_of_mem _ hq, hdue⟩
      · exact ⟨_, List.mem_cons_self, rfl, rfl, fun m hm => absurd hm List.not_mem_nil⟩

theorem Kept.unsubscribe (h : w.Kept) {s : Subscription} (hstep : w.unsubscribe s = some w') :
    w'.Kept := by
  simp only [Broker.unsubscribe, Option.ite_none_right_eq_some] at hstep
  obtain ⟨-, hstep⟩ := hstep
  split_ifs at hstep with hlast
  · cases hstep
    simp only [Bool.and_eq_true, Bool.not_eq_true', List.any_eq_false, decide_eq_true_eq] at hlast
    have hkeep : ∀ q ∈ w.queues, q.fqqn ≠ s.fqqn → q ∈ w.queues.filter (·.fqqn ≠ s.fqqn) :=
      fun q hq hne => List.mem_filter.mpr ⟨hq, by simpa using hne⟩
    refine ⟨fun q hq => h.placed q (List.mem_of_mem_filter hq), fun s' hs' => ?_,
      fun s' hs' q hq => h.owned s' (List.mem_of_mem_erase hs') q (List.mem_of_mem_filter hq),
      fun q hq => h.homed q (List.mem_of_mem_filter hq), h.received, fun r hr hscope => ?_⟩
    · obtain ⟨q, hq, hfqqn⟩ := h.attached s' (List.mem_of_mem_erase hs')
      exact ⟨q, hkeep q hq (hfqqn ▸ hlast.2 s' hs'), hfqqn⟩
    · obtain ⟨hr, hne⟩ := List.mem_filter.mp hr
      obtain ⟨q, hq, hfqqn, hdue⟩ := h.due r hr hscope
      exact ⟨q, hkeep q hq (by simpa [hfqqn] using hne), hfqqn, hdue⟩
  · cases hstep
    exact ⟨h.placed, fun s' hs' => h.attached s' (List.mem_of_mem_erase hs'),
      fun s' hs' => h.owned s' (List.mem_of_mem_erase hs'), h.homed, h.received, h.due⟩

theorem waiting_iff {fqqn : Fqqn} {m : Message} :
    w.waiting fqqn m = true ↔ ∃ q ∈ w.queues, q.fqqn = fqqn ∧ m ∈ q.messages := by
  simp [waiting]

theorem Kept.deliver (h : w.Kept) {s : Subscription} {m : Message} (hs : s ∈ w.subscriptions)
    (hwaiting : w.waiting s.fqqn m = true) :
    Kept { w with received := ((s.topic, s.subscriberId), m) :: w.received } := by
  refine ⟨h.placed, h.attached, h.owned, h.homed, fun topic id m' hm' hspecial => ?_,
    fun r hr hscope => ?_⟩
  · rcases List.mem_cons.mp hm' with heq | hm'
    · obtain ⟨⟨rfl, rfl⟩, rfl⟩ := by simpa using heq
      obtain ⟨q, hq, hfqqn, hmem⟩ := waiting_iff.mp hwaiting
      have htopic := h.owned s hs q hq hfqqn
      rw [← htopic] at hspecial ⊢
      exact h.homed q hq hspecial _ hmem
    · exact h.received topic id m' hm' hspecial
  · obtain ⟨q, hq, hfqqn, htopic, hdue⟩ := h.due r hr hscope
    refine ⟨q, hq, hfqqn, htopic, fun m' hm' => (hdue m' hm').imp_right (Or.imp_left ?_)⟩
    exact List.mem_cons_of_mem _

theorem Kept.settle (h : w.Kept) {s : Subscription} {m : Message}
    (hunsettled : w.unsettled s m = true) : (w.remove s.fqqn m).Kept := by
  simp only [unsettled, Bool.and_eq_true, decide_eq_true_eq] at hunsettled
  obtain ⟨⟨hs, -⟩, hreceived⟩ := hunsettled
  refine h.remove fun r hr hscope hfqqn => .inl ?_
  obtain ⟨q, hq, hfqqn', htopic, -⟩ := h.due r hr hscope
  have hsame : r.topic = s.topic :=
    htopic.symm.trans (h.owned s hs q hq (hfqqn'.trans hfqqn))
  have hid : r.subscriberId = s.subscriberId := congrArg Fqqn.subscriberId hfqqn
  rw [hsame, hid]
  exact hreceived

theorem separate_remove {fqqn : Fqqn} {m : Message} {address : String} {home : Option String}
    (h : w.Separate address home) : (w.remove fqqn m).Separate address home := by
  intro q' hq'
  obtain ⟨q, hq, rfl⟩ := List.mem_map.mp hq'
  exact h q hq

/-- The broker address of a topic under `mbc.#` is under `mbc.#`. -/
theorem topicMatch_address {topic : String} (h : topicMatch "mbc.#" topic = true) :
    topicMatch "mbc.#" (address topic) = true := by
  unfold address
  split_ifs
  · decide
  · decide
  · exact h

theorem Kept.die (h : w.Kept) {s : Subscription} {m : Message} {q : Queue}
    (hunsettled : w.unsettled s m = true) (hq : w.queue? s.fqqn = some q)
    (hunmixed : Unmixed w (.die s m)) :
    ((w.remove s.fqqn m).route (deadLetterSetting q.fqqn.address)
      (w.copy m m.expires (.died q.topic))).Kept := by
  obtain ⟨hmem, hfqqn⟩ := queue?_eq_some hq
  refine (h.settle hunsettled).route (separate_remove (hunmixed q hmem hfqqn)) ?_
  intro r hr hscope hhome
  obtain ⟨topic, htopic, hr | hr⟩ := hscope
  · have hhome : deadLetterAddress q.topic = deadLetterAddress topic := by
      simpa [copy, Cause.home, hr] using hhome
    obtain rfl := deadLetterAddress_injective hhome
    rw [hr, address_deadLetterAddress, h.placed q hmem, deadLetterSetting,
      if_pos (topicMatch_address htopic)]
  · refine absurd ?_ (deadLetterAddress_ne_expiryAddress q.topic topic)
    simpa [copy, Cause.home, hr] using hhome

theorem Kept.expire (h : w.Kept) {fqqn : Fqqn} {m : Message} {q : Queue}
    (hq : w.queue? fqqn = some q) (hunmixed : Unmixed w (.expire fqqn m)) :
    Kept { (w.remove fqqn m).route (expirySetting fqqn.address)
        (w.copy m false (.expired q.topic)) with expired := (fqqn, m) :: w.expired } := by
  obtain ⟨hmem, hfqqn⟩ := queue?_eq_some hq
  obtain ⟨hseparate, hread⟩ := hunmixed q hmem hfqqn
  have hnoted : Kept { w with expired := (fqqn, m) :: w.expired } := by
    refine ⟨h.placed, h.attached, h.owned, h.homed, h.received, fun r hr hscope => ?_⟩
    obtain ⟨q, hq, hfqqn, htopic, hdue⟩ := h.due r hr hscope
    refine ⟨q, hq, hfqqn, htopic, fun m' hm' => (hdue m' hm').imp_right (Or.imp_right ?_)⟩
    exact List.mem_cons_of_mem _
  have hremoved : Kept { w.remove fqqn m with expired := (fqqn, m) :: w.expired } :=
    hnoted.remove fun _ _ _ _ => .inr List.mem_cons_self
  refine hremoved.route (m := w.copy m false (.expired q.topic)) (separate_remove hseparate) ?_
  intro r hr hscope hhome
  have hhome : expiryAddress q.topic = r.topic := by simpa [copy, Cause.home] using hhome
  obtain ⟨q', hq', -, htopic, -⟩ := h.due r hr hscope
  rw [hread ⟨q', hq', htopic.trans hhome.symm⟩, ← hhome, address_expiryAddress]

theorem kept_step (h : w.Kept) {a : Act} (hunmixed : Unmixed w a)
    (hstep : w.step a = some w') : w'.Kept := by
  cases a with
  | subscribe s => exact h.subscribe hunmixed hstep
  | unsubscribe s => exact h.unsubscribe hstep
  | publish topic body routingKey expires =>
    cases hstep
    exact h.route hunmixed fun _ _ _ hhome => by cases hhome
  | deliver s m =>
    simp only [Broker.step, Option.ite_none_right_eq_some, Option.some.injEq] at hstep
    obtain ⟨⟨hs, hwaiting, -⟩, rfl⟩ := hstep
    exact h.deliver hs hwaiting
  | ack s m =>
    simp only [Broker.step, Option.ite_none_right_eq_some, Option.some.injEq] at hstep
    obtain ⟨hunsettled, rfl⟩ := hstep
    exact h.settle hunsettled
  | die s m =>
    simp only [Broker.step, Option.ite_none_right_eq_some, Option.map_eq_some_iff] at hstep
    obtain ⟨hunsettled, q, hq, rfl⟩ := hstep
    exact h.die hunsettled hq hunmixed
  | expire fqqn m =>
    simp only [Broker.step, Option.ite_none_right_eq_some, Option.map_eq_some_iff] at hstep
    obtain ⟨-, q, hq, rfl⟩ := hstep
    exact h.expire hq hunmixed

/-- The dead-letter and expiry subscriptions are per topic: their subscribers have received nothing
of any other topic, and what is due to them waits for them on their queue, unless they have received
it or its time ran out there. -/
structure PerTopic (w : Broker) : Prop where
  dead : ∀ topic id m, ((deadLetterAddress topic, id), m) ∈ w.received → m.cause = .died topic
  expired : ∀ topic id m, ((expiryAddress topic, id), m) ∈ w.received → m.cause = .expired topic
  due : ∀ r ∈ w.registrations, InScope r.topic → ∀ m ∈ r.due, w.waiting r.fqqn m = true ∨
    ((r.topic, r.subscriberId), m) ∈ w.received ∨ (r.fqqn, m) ∈ w.expired

end Broker

open Broker

theorem home_eq_deadLetterAddress {cause : Cause} {topic : String} :
    cause.home = some (deadLetterAddress topic) ↔ cause = .died topic := by
  cases cause with
  | published _ => simp [Cause.home]
  | died t => simp [Cause.home, deadLetterAddress_injective.eq_iff]
  | expired t => simp [Cause.home, (deadLetterAddress_ne_expiryAddress topic t).symm]

theorem home_eq_expiryAddress {cause : Cause} {topic : String} :
    cause.home = some (expiryAddress topic) ↔ cause = .expired topic := by
  cases cause with
  | published _ => simp [Cause.home]
  | died t => simp [Cause.home, deadLetterAddress_ne_expiryAddress t topic]
  | expired t => simp [Cause.home, expiryAddress_injective.eq_iff]

/-- **In a run that does not mix topics, dead-letter and expiry subscriptions are per topic.** -/
theorem per_topic {w : Broker} (h : ReachIf machine Unmixed w) : w.PerTopic := by
  have hkept : w.Kept := by
    refine h.invariant (fun w hw => ?_) fun w a w' _ ih hok hstep => kept_step ih hok hstep
    obtain rfl : w = {} := hw
    exact kept_init
  refine ⟨fun topic id m hm => ?_, fun topic id m hm => ?_, fun r hr hscope m hm => ?_⟩
  · have hhome := hkept.received _ id m hm (isSpecial_deadLetterAddress topic)
    exact home_eq_deadLetterAddress.mp hhome
  · have hhome := hkept.received _ id m hm (isSpecial_expiryAddress topic)
    exact home_eq_expiryAddress.mp hhome
  · obtain ⟨q, hq, hfqqn, -, hdue⟩ := hkept.due r hr hscope
    exact (hdue m hm).imp_left fun hmem => waiting_iff.mpr ⟨q, hq, hfqqn, hmem⟩

/-- A dead-letter subscriber of one topic. -/
def clerk : Subscription where
  topic := "mbc.orders.dlq"
  subscriberId := "clerk"

def worker (topic : String) : Subscription where
  topic := topic
  subscriberId := "worker"

/-- A message of a topic is rejected, and lands with the clerk. -/
def rejection (topic : String) : List Act :=
  let m : Message := ⟨0, "order", topic, false, .published topic⟩
  [.subscribe clerk, .subscribe (worker topic), .publish topic "order" topic false,
    .deliver (worker topic) m, .die (worker topic) m,
    .deliver clerk { m with number := 1, cause := .died topic }]

theorem reach_rejection (topic : String) :
    Reach machine (play Broker.step {} (rejection topic)) :=
  reach_play (fun _ _ _ => id) rfl _

theorem per_topic_clerk : (play Broker.step {} (rejection "mbc.orders")).PerTopic :=
  per_topic (reachIf_play (fun _ _ _ => id) rfl _ (by decide))

/-- **The dead-letter subscriber of one topic receives the dead messages of another.** -/
theorem foreign_dead_letter : ¬ ∀ w, Reach machine w → w.PerTopic := by
  intro hclaim
  have h := hclaim _ (reach_rejection "mbc.bills")
  have hcause := h.dead "mbc.orders" "clerk"
    ⟨1, "order", "mbc.bills", false, .died "mbc.bills"⟩ (by decide)
  exact absurd hcause (by decide)

end MessagingPoc.Artemis
