import MessagingPoc.TsBus.Bus
import MessagingPoc.TsBus.Selection

/-!
# The turns of the engine

A step of the engine is a run of *turns*: one queue acts, or something happens that no queue sees.
`Turn` lists them, each with what it is done under. `Acts` says what one queue's acting leaves alone
in the rest of the engine.
-/

namespace MessagingPoc.TsBus

open Machine CompetingConsumers

/-! ## One queue of the engine -/

namespace BusQueue

/-- The rules of a queue, which never change. -/
def discipline (Q : BusQueue) : Discipline BusMessage String Int where
  group := BusMessage.group
  priority := BusMessage.rank
  partitioned := Q.partitionByGroup
  single := Q.singleActiveConsumer
  retries n := ((min n (2 ^ 53) : ℕ) : ℤ) < Q.maxDeliveries

end BusQueue

/-- What a delivery fixes of its handle. -/
def Handle.delivery (i : Handle) : QueueRef × BusMessage × AckHandler × Option Nat :=
  (i.queue, i.message, i.consumer, i.deliveryCount)

/-- A copy is published when the message it is of has just left its queue for good. -/
def Cause.Due (w : World) (topic body key : String) (options : PublishOptions) : Cause → Prop
  | .client => True
  | .deadLetter q m => w.history.head? = some (.on q (.settle m)) ∧
      (w.queue q).deadLetter = true ∧ topic = deadLetterAddress (w.queue q).topic ∧
      body = m.body ∧ key = m.routingKey ∧ options = {}
  | .expiry q m => w.history.head? = some (.on q (.expire m)) ∧
      topic = expiryAddress (w.queue q).topic ∧ body = m.body ∧ key = m.routingKey ∧ options = {}

theorem Cause.Due.congr {w w' : World} {topic body key : String} {options : PublishOptions}
    {cause : Cause} (h : cause.Due w topic body key options) (hhistory : w'.history = w.history)
    (hqueue : w'.queue = w.queue) : cause.Due w' topic body key options := by
  unfold Cause.Due at h ⊢
  rwa [hhistory, hqueue]

/-- The copy of a message whose time is up. -/
theorem due_expired (w : World) {q : QueueRef} {m : BusMessage} {Q : BusQueue}
    (h : Q.topic = (w.queue q).topic) :
    (Cause.expiry q m).Due (w.act q (.expire m) Q) (expiryAddress (w.queue q).topic) m.body
      m.routingKey {} := by
  have hqueue : (w.act q (.expire m) Q).queue q = Q := Function.update_self ..
  refine ⟨rfl, ?_, rfl, rfl, rfl⟩
  rw [hqueue, h]

namespace World

/-- The engine as one queue sees it. -/
def view (w : World) (q : QueueRef) : Queue BusMessage AckHandler String where
  consumers := (w.queue q).consumers
  pending := (w.queue q).pending
  held := (w.queue q).inflight.get
  parked m := w.timers.count (.retry q m)
  pins := (w.queue q).groupAffinity
  trace := w.trail q

/-- Where queues are known. -/
structure SameRegistry (w w' : World) : Prop where
  queues : w'.queues = w.queues
  byTopic : w'.byTopic = w.byTopic
  subscriptions : w'.subscriptions = w.subscriptions
  nextQueue : w'.nextQueue = w.nextQueue

/-- Something that no queue sees; it may be a publish. -/
structure Aside (w w' : World) : Prop where
  queue : w'.queue = w.queue
  nextQueue : w'.nextQueue = w.nextQueue
  nextRef : w.nextRef ≤ w'.nextRef
  deliveryCount : w'.deliveryCount = w.deliveryCount
  retries : ∀ q m, w'.timers.count (.retry q m) = w.timers.count (.retry q m)
  deliveries : w'.handles.map Handle.delivery = w.handles.map Handle.delivery
  history : w'.history = w.history ∨ ∃ topic body key options cause,
    Cause.Due w topic body key options cause ∧
    w'.history = .published topic body key options cause :: w.history
  queues : ∀ k q, w'.queues k = some q → w.queues k = some q
  byTopic : ∀ topic, ∀ q ∈ (w'.byTopic topic).items, q ∈ (w.byTopic topic).items
  subscriptions : ∀ p ∈ w'.subscriptions, p ∈ w.subscriptions ∨ p.1 < w.nextQueue

inductive Turn (w : World) : World → Prop
  | aside {w'} (h : Aside w w') : Turn w w'
  | create (topic key options) : Turn w (w.createQueue topic key options)
  | arrive {q m} (seq) (hq : q < w.nextQueue) (hm : m.ref = w.nextRef) :
      Turn w ({ w with seq := seq, nextRef := w.nextRef + 1 }.push q m (.arrive m))
  | attach {q c} (hq : q < w.nextQueue) : Turn w (w.attach q c)
  | giveBack {q m c} (h : (w.queue q).inflight.get m = some c) : Turn w (giveBack q w m)
  | detach {q c} (hq : q < w.nextQueue) (empty : ∀ m, (w.queue q).inflight.get m ≠ some c) :
      Turn w (w.act q (.detach c)
        { w.queue q with consumers := (w.queue q).consumers.erase c })
  | deliver {q m c Q} (hq : q < w.nextQueue) (h : (w.queue q).next = (some (m, c), Q)) :
      Turn w (w.deliver q Q m c)
  | scan {q Q} (hq : q < w.nextQueue) (h : (w.queue q).next = (none, Q)) : Turn w (w.setQueue q Q)
  | settle {q m c} (h : (w.queue q).inflight.get m = some c) :
      Turn w (w.release q m (.settle m))
  | park {q m c} (h : (w.queue q).inflight.get m = some c)
      (retry : (w.deliveryCount m.ref : ℤ) < (w.queue q).maxDeliveries) :
      Turn w ((w.release q m (.park m)).arm (.retry q m))
  | requeue {q m c} (h : (w.queue q).inflight.get m = some c)
      (retry : (w.deliveryCount m.ref : ℤ) < (w.queue q).maxDeliveries) :
      Turn w (w.act q (.requeue m)
        { w.queue q with
          inflight := (w.queue q).inflight.delete m
          pending := (w.queue q).pending ++ [m] })
  | unpark {i q m} (h : w.timers[i]? = some (.retry q m)) :
      Turn w ({ w with timers := w.timers.eraseIdx i }.push q m (.unpark m))
  | expirePending {q m} (h : m ∈ (w.queue q).pending) :
      Turn w (w.act q (.expire m)
        { w.queue q with pending := (w.queue q).pending.erase m })
  | expireHeld {q m c} (h : (w.queue q).inflight.get m = some c) :
      Turn w (w.release q m (.expire m))

end World

/-- The engine, turn by turn. -/
def turns : System World Unit where
  init w := w = {}
  step w _ w' := w.Turn w'

abbrev Turns : World → World → Prop := Run turns anyStep

namespace World

/-! ## What a turn does -/

/-- The constants of a queue. -/
def SameRules (Q Q' : BusQueue) : Prop :=
  Q' = { Q with
    pending := Q'.pending, inflight := Q'.inflight, consumers := Q'.consumers, rr := Q'.rr
    groupAffinity := Q'.groupAffinity }

theorem SameRules.refl (Q : BusQueue) : SameRules Q Q := rfl

theorem SameRules.trans {Q Q' Q'' : BusQueue} (h : SameRules Q Q') (h' : SameRules Q' Q'') :
    SameRules Q Q'' := by
  unfold SameRules at *
  rw [h', h]

theorem SameRules.topic {Q Q' : BusQueue} (h : SameRules Q Q') : Q'.topic = Q.topic := by rw [h]

theorem SameRules.discipline {Q Q' : BusQueue} (h : SameRules Q Q') :
    Q'.discipline = Q.discipline := by
  rw [h]
  rfl

/-- How many messages an act allocates. -/
@[simp] def allocates : Act BusMessage AckHandler → Nat
  | .arrive _ => 1
  | _ => 0

/-- `deliveryCount` after an act. -/
@[simp] def countAfter (w : World) : Act BusMessage AckHandler → Nat → Nat
  | .deliver m _ => Function.update w.deliveryCount m.ref (Double.next (w.deliveryCount m.ref))
  | _ => w.deliveryCount

/-- What an act hands out. -/
@[simp] def handsOut (w : World) (q : QueueRef) :
    Act BusMessage AckHandler → List (QueueRef × BusMessage × AckHandler × Option Nat)
  | .deliver m c => [(q, m, c, some (Double.next (w.deliveryCount m.ref)))]
  | _ => []

/-- A queue acts, and nothing else changes. -/
structure Acts (w : World) (q : QueueRef) (a : Act BusMessage AckHandler) (w' : World) : Prop where
  others : ∀ q' ≠ q, w'.queue q' = w.queue q'
  rules : SameRules (w.queue q) (w'.queue q)
  retries : ∀ q' ≠ q, ∀ m, w'.timers.count (.retry q' m) = w.timers.count (.retry q' m)
  history : w'.history = .on q a :: w.history
  nextRef : w'.nextRef = w.nextRef + allocates a
  deliveryCount : w'.deliveryCount = w.countAfter a
  deliveries : w'.handles.map Handle.delivery = w.handles.map Handle.delivery ++ w.handsOut q a
  registry : SameRegistry w w'

/-- What `act` does, if the act is one that counts no delivery and brings no message. -/
theorem acts_act {w : World} {q : QueueRef} {a : Act BusMessage AckHandler} {Q : BusQueue}
    (hrules : SameRules (w.queue q) Q) (ha : ∀ m c, a ≠ .arrive m ∧ a ≠ .deliver m c) :
    Acts w q a (w.act q a Q) := by
  refine ⟨fun q' hq' => Function.update_of_ne hq' .., ?_, fun _ _ _ => rfl, rfl, ?_, ?_, ?_,
    ⟨rfl, rfl, rfl, rfl⟩⟩
  · simpa [act, record, setQueue] using hrules
  · cases a <;> first | rfl | exact absurd rfl (ha _ ⟨0⟩).1
  · cases a <;> first | rfl | exact absurd rfl (ha _ _).2
  · cases a <;> first | exact (List.append_nil _).symm | exact absurd rfl (ha _ _).2

@[simp] theorem trail_cons (w w' : World) (q q' : QueueRef) (a : Act BusMessage AckHandler)
    (h : w'.history = .on q a :: w.history) :
    w'.trail q' = if q = q' then a :: w.trail q' else w.trail q' := by
  rw [trail, h, List.filterMap_cons, Event.onQueue]
  split_ifs <;> rfl

theorem Acts.view_of_ne {w w' : World} {q q' : QueueRef} {a : Act BusMessage AckHandler}
    (h : Acts w q a w') (hq : q' ≠ q) : w'.view q' = w.view q' := by
  simp only [view, h.others q' hq, h.retries q' hq, trail_cons w w' q q' a h.history,
    if_neg hq.symm]

theorem Aside.trail {w w' : World} (h : Aside w w') (q : QueueRef) : w'.trail q = w.trail q := by
  rcases h.history with heq | ⟨_, _, _, _, _, -, heq⟩
  · rw [World.trail, heq, World.trail]
  · rw [World.trail, heq, List.filterMap_cons, Event.onQueue, World.trail]

theorem Aside.view {w w' : World} (h : Aside w w') (q : QueueRef) : w'.view q = w.view q := by
  simp only [World.view, h.queue, h.retries, h.trail]

end World

end MessagingPoc.TsBus
