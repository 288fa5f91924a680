import MessagingPoc.InMemory.Bus
import MessagingPoc.Lib.Machine
import Mathlib.Data.List.Forall2

/-!
# Throwing handlers in the .NET adapters

Each .NET adapter starts the handler of a delivery in its own way: `InMemoryBus` in a task with a
`catch` around it, RabbitMQ in the callback of `Received`, Artemis in the callback of `Start`, where
the handler's task is thrown away. What none of them catches reaches the client library, or nobody,
and neither settles the delivery.

The deliveries of one consumer are followed side by side. A handler's run is a list of calls on its
handle, and how it ends; its calls, its end, new deliveries and whatever else happens to the queue
interleave freely. The queue itself belongs to the broker, and is a parameter.

**A throwing handler counts as a failed delivery exactly in the in-memory adapter**
(`faults_contained_iff`): there it leaves what a handler that calls `NackAsync(true)` leaves, and in
the other two it keeps its place in the prefetch for good.
-/

namespace MessagingPoc.HandlerFault

open Machine

/-! ## Handlers -/

/-- A call of `AckAsync` or `NackAsync`. -/
inductive Settlement
  | ack
  | nack (requeue : Bool)
deriving DecidableEq

inductive Ending
  /-- The task completes, or never does. -/
  | returns
  /-- The handler throws before it returns a task. -/
  | throws
  /-- The task faults. -/
  | faults
deriving DecidableEq

/-- What a handler does with one delivery: its calls on the handle, and how it ends. -/
structure Behaviour where
  calls : List Settlement
  ending : Ending
deriving DecidableEq

namespace Behaviour

/-- The handler throws, and settled nothing before. -/
def FailsUnsettled (b : Behaviour) : Prop := b.calls = [] ∧ b.ending ≠ .returns

instance : DecidablePred FailsUnsettled := fun b =>
  inferInstanceAs (Decidable (b.calls = [] ∧ b.ending ≠ .returns))

/-- The handler that calls `NackAsync(true)` where this one throws without having settled. -/
def nacking (b : Behaviour) : Behaviour :=
  if b.FailsUnsettled then ⟨[.nack true], .returns⟩ else b

theorem nacking_of_failsUnsettled {b : Behaviour} (h : b.FailsUnsettled) :
    b.nacking = ⟨[.nack true], .returns⟩ := if_pos h

theorem nacking_of_not {b : Behaviour} (h : ¬ b.FailsUnsettled) : b.nacking = b := if_neg h

end Behaviour

/-! ## Adapters -/

structure RetryContext where
  maxDeliveries : Int32
  dlaExchange : String
deriving DecidableEq

/-- The paths a delivery takes to a handler. -/
inductive Adapter
  | inMemory
  | rabbitMq (retry : Option RetryContext)
  | rabbitMqStream
  | artemis
deriving DecidableEq

structure Incoming where
  /-- The identity of the in-memory message object. -/
  ref : Nat
  body : String
  deliveryCount : Option Int32
deriving DecidableEq

/-- What settles a delivery: the in-memory closure, and calls of the two client libraries. -/
inductive Command
  | settle (kind : SettleKind)
  | basicPublish (exchange body : String)
  | basicAck
  | basicNack (requeue : Bool)
  | accept
  | modify
  | reject
deriving DecidableEq

/-- What becomes of the end of a handler's run. -/
inductive Fate
  | completed
  /-- The adapter's own `catch` runs. -/
  | caught
  /-- The exception leaves the delivery callback. -/
  | escaped
  /-- The handler's task was thrown away. -/
  | unobserved
deriving DecidableEq

namespace Adapter

/-- How many unsettled deliveries a consumer may hold. -/
def prefetch : Adapter → Nat
  | .rabbitMqStream => 10
  | _ => 1

/-- `AckAsync` and `NackAsync` exchange the flag of their handle, and do nothing if it was set. -/
def guarded : Adapter → Bool
  | .inMemory => false
  | _ => true

/-- What `AckAsync` and `NackAsync` call. -/
def commands : Adapter → Incoming → Settlement → List Command
  | .inMemory, _, .ack => [.settle .ack]
  | .inMemory, _, .nack requeue => [.settle (if requeue then .requeue else .dead)]
  | .rabbitMq none, _, .nack requeue => [.basicNack requeue]
  | .rabbitMq (some retry), m, .nack requeue =>
    if requeue = false ∨ m.deliveryCount.getD 1 ≥ retry.maxDeliveries then
      [.basicPublish retry.dlaExchange m.body, .basicAck]
    else [.basicNack false]
  | .rabbitMq _, _, .ack => [.basicAck]
  -- A stream does not redeliver.
  | .rabbitMqStream, _, _ => [.basicAck]
  | .artemis, _, .ack => [.accept]
  | .artemis, _, .nack true => [.modify]
  | .artemis, _, .nack false => [.reject]

def fate : Adapter → Ending → Fate
  | _, .returns => .completed
  | .inMemory, _ => .caught
  -- The callback is an `async` lambda that awaits the handler.
  | .rabbitMq _, _ => .escaped
  | .rabbitMqStream, _ => .escaped
  | .artemis, .throws => .escaped
  | .artemis, .faults => .unobserved

theorem fate_eq_caught {adapter : Adapter} {ending : Ending} :
    adapter.fate ending = .caught ↔ adapter = .inMemory ∧ ending ≠ .returns := by
  cases adapter <;> cases ending <;> simp [fate]

end Adapter

/-! ## One consumer -/

/-- The queue, as its broker keeps it: what it hands over next, and what a command does to it. -/
structure Broker (σ : Type*) where
  next : σ → Option (Incoming × σ)
  apply : Incoming → σ → Command → σ

/-- One delivery, and its handler's run. -/
structure Delivery where
  tag : Nat
  message : Incoming
  behaviour : Behaviour
  /-- The calls its handler still has to make. -/
  todo : List Settlement
  /-- The flag of the handle. -/
  settled : Bool := false
  /-- Not settled at the broker. -/
  held : Bool := true
  ended : Bool := false
  /-- Ghost: the calls made on the handle. -/
  made : List Settlement := []
deriving DecidableEq

namespace Delivery

def start (tag : Nat) (message : Incoming) (behaviour : Behaviour) : Delivery where
  tag := tag
  message := message
  behaviour := behaviour
  todo := behaviour.calls

def called (d : Delivery) (call : Settlement) : Delivery :=
  { d with settled := true, made := d.made ++ [call] }

def release (d : Delivery) : Delivery := { d with held := false }

def finish (d : Delivery) : Delivery := { d with ended := true }

end Delivery

structure Consumer (σ : Type*) where
  queue : σ
  deliveries : List Delivery := []

inductive Act (σ : Type*)
  /-- The broker delivers; the handler will behave so. -/
  | deliver (behaviour : Behaviour)
  /-- The handler of a delivery goes on. -/
  | proceed (n : Nat)
  /-- Publishers, other consumers and timers change the queue. -/
  | change (queue : σ)

namespace Consumer

variable {σ : Type*} (adapter : Adapter) (broker : Broker σ)

/-- Does a settlement of `d` settle `d'`? The in-memory closure knows its delivery by the message
object, a broker by the tag. -/
def settles (d d' : Delivery) : Bool :=
  match adapter with
  | .inMemory => d.message.ref == d'.message.ref
  | _ => d.tag == d'.tag

/-- A settlement that passed the guard of its handle. -/
def settle (s : Consumer σ) (d : Delivery) (call : Settlement) : Consumer σ :=
  if s.deliveries.any fun d' => d'.held && settles adapter d d' then
    { queue := (adapter.commands d.message call).foldl (broker.apply d.message) s.queue
      deliveries := s.deliveries.map fun d' =>
        if settles adapter d d' then d'.release else d' }
  else s

/-- `AckAsync` or `NackAsync` on the handle of delivery `n`. -/
def call (s : Consumer σ) (n : Nat) (d : Delivery) (call : Settlement) : Consumer σ :=
  let s' := { s with deliveries := s.deliveries.set n (d.called call) }
  if adapter.guarded && d.settled then s' else s'.settle adapter broker d call

/-- The handler's run ends. -/
def finish (s : Consumer σ) (n : Nat) (d : Delivery) : Consumer σ :=
  match adapter.fate d.behaviour.ending with
  | .caught =>
    if d.settled then { s with deliveries := s.deliveries.set n d.finish }
    else s.call adapter broker n d.finish (.nack true)
  | .completed | .escaped | .unobserved =>
    { s with deliveries := s.deliveries.set n d.finish }

/-- The handler of delivery `n` makes its next call, or ends. -/
def proceed (s : Consumer σ) (n : Nat) (d : Delivery) : Option (Consumer σ) :=
  match d.todo with
  | call :: todo => some (s.call adapter broker n { d with todo := todo } call)
  | [] => if d.ended then none else some (s.finish adapter broker n d)

def step (s : Consumer σ) : Act σ → Option (Consumer σ)
  | .deliver behaviour =>
    if s.deliveries.countP (·.held) < adapter.prefetch then
      (broker.next s.queue).map fun next =>
        { queue := next.2
          deliveries := s.deliveries ++ [.start s.deliveries.length next.1 behaviour] }
    else none
  | .proceed n => s.deliveries[n]?.bind (s.proceed adapter broker n)
  | .change queue => some { s with queue := queue }

end Consumer

/-- Everything the handlers of one consumer, and the rest of the system, do to a queue. -/
def run {σ : Type*} (adapter : Adapter) (broker : Broker σ) (queue : σ) (acts : List (Act σ)) :
    Consumer σ :=
  play (Consumer.step adapter broker) { queue := queue } acts

/-- Every handler calls `NackAsync(true)` where it would throw without having settled. -/
def Act.nacking {σ : Type*} : Act σ → Act σ
  | .deliver behaviour => .deliver behaviour.nacking
  | act => act

/-! ## What the handles have been through -/

/-- Where a delivery stands. -/
structure Delivery.Sound (adapter : Adapter) (d : Delivery) : Prop where
  made : d.made ++ d.todo =
    if adapter = .inMemory ∧ d.ended = true ∧ d.behaviour.FailsUnsettled then [.nack true]
    else d.behaviour.calls
  ended : d.ended = true → d.todo = []
  settled : d.settled = true ↔ d.made ≠ []
  released : d.settled = true → d.held = false

theorem Delivery.Sound.release {adapter : Adapter} {d : Delivery} (h : d.Sound adapter) :
    d.release.Sound adapter :=
  ⟨h.made, h.ended, h.settled, fun _ => rfl⟩

namespace Consumer

section

variable {σ : Type*} {adapter : Adapter} {broker : Broker σ} {s s' : Consumer σ}

@[simp] theorem settles_self (d : Delivery) : settles adapter d d = true := by
  cases adapter <;> simp [settles]

@[simp] theorem settles_called (d d' : Delivery) (call : Settlement) :
    settles adapter d (d'.called call) = settles adapter d d' := by
  cases adapter <;> rfl

/-- Only the in-memory adapter does anything when a handler throws. -/
theorem finish_eq (n : Nat) (d : Delivery) : s.finish adapter broker n d =
    if adapter = .inMemory ∧ d.behaviour.ending ≠ .returns ∧ d.settled = false then
      s.call adapter broker n d.finish (.nack true)
    else { s with deliveries := s.deliveries.set n d.finish } := by
  have hcaught : adapter.fate d.behaviour.ending = .caught ↔
      adapter = .inMemory ∧ d.behaviour.ending ≠ .returns := Adapter.fate_eq_caught
  unfold Consumer.finish
  cases hfate : adapter.fate d.behaviour.ending with
  | caught =>
    obtain ⟨hadapter, hending⟩ := hcaught.mp hfate
    cases hsettled : d.settled <;> simp [hadapter, hending]
  | completed | escaped | unobserved =>
    have hnot : ¬ (adapter = .inMemory ∧ d.behaviour.ending ≠ .returns ∧ d.settled = false) := by
      rintro ⟨hadapter, hending, -⟩
      simp [hcaught.mpr ⟨hadapter, hending⟩] at hfate
    rw [if_neg hnot]

/-- After a call on a handle its delivery is not held any more, and of the others at most some have
been released. -/
theorem mem_call {n : Nat} {d x : Delivery} {call : Settlement}
    (hheld : d.settled = true → d.held = false)
    (hx : x ∈ (s.call adapter broker n d call).deliveries) :
    x = (d.called call).release ∨ ∃ y ∈ s.deliveries, x = y ∨ x = y.release := by
  have hfree : d.held = false → d.called call = (d.called call).release := fun hheld => by
    simp [Delivery.called, Delivery.release, hheld]
  have hset : ∀ y ∈ s.deliveries.set n (d.called call), y = d.called call ∨ y ∈ s.deliveries :=
    fun y hy => (List.mem_or_eq_of_mem_set hy).symm
  unfold Consumer.call at hx
  split_ifs at hx with hguard
  · simp only [Bool.and_eq_true] at hguard
    rcases hset x hx with rfl | hx
    · exact .inl (hfree (hheld hguard.2))
    · exact .inr ⟨x, hx, .inl rfl⟩
  · dsimp only [settle] at hx
    split_ifs at hx with hany
    · obtain ⟨y, hy, rfl⟩ := List.mem_map.mp hx
      rcases hset y hy with rfl | hy
      · simp
      · refine .inr ⟨y, hy, ?_⟩
        split_ifs
        · exact .inr rfl
        · exact .inl rfl
    · rcases hset x hx with rfl | hy
      · refine .inl (hfree ?_)
        simp only [List.any_eq_true, not_exists, not_and] at hany
        have hnot := hany _ hx
        rw [settles_called, settles_self, Bool.and_true] at hnot
        simpa [Delivery.called] using hnot
      · exact .inr ⟨x, hy, .inl rfl⟩

/-- Every delivery is sound. -/
def Sound (adapter : Adapter) (s : Consumer σ) : Prop :=
  ∀ d ∈ s.deliveries, d.Sound adapter

/-- A call keeps the invariant when it is the handler's next one, or the adapter's only one. -/
theorem sound_call (h : s.Sound adapter) {n : Nat} {d : Delivery} {call : Settlement}
    (hheld : d.settled = true → d.held = false) (hended : d.ended = true → d.todo = [])
    (hmade : (d.called call).made ++ d.todo =
      if adapter = .inMemory ∧ d.ended = true ∧ d.behaviour.FailsUnsettled then [.nack true]
      else d.behaviour.calls) :
    (s.call adapter broker n d call).Sound adapter := by
  intro x hx
  rcases mem_call hheld hx with rfl | ⟨y, hy, rfl | rfl⟩
  · exact ⟨hmade, hended, by simp [Delivery.called, Delivery.release], fun _ => rfl⟩
  · exact h x hy
  · exact (h y hy).release

theorem sound_finish (h : s.Sound adapter) {n : Nat} {d : Delivery} (hd : d.Sound adapter)
    (htodo : d.todo = []) (hended : d.ended = false) :
    (s.finish adapter broker n d).Sound adapter := by
  have hmade : d.made = d.behaviour.calls := by simpa [htodo, hended] using hd.made
  rw [finish_eq]
  split_ifs with hcaught
  · obtain ⟨hadapter, hfails, hsettled⟩ := hcaught
    have hnone : d.made = [] := by simpa [hsettled] using hd.settled
    refine sound_call h hd.released (fun _ => htodo) ?_
    rw [if_pos ⟨hadapter, rfl, hmade ▸ hnone, hfails⟩]
    simp [Delivery.called, Delivery.finish, hnone, htodo]
  · have hnot : ¬ (adapter = .inMemory ∧ d.finish.ended = true ∧
        d.finish.behaviour.FailsUnsettled) := by
      rintro ⟨hadapter, -, hnone, hfails⟩
      have hsettled : d.settled = false := by
        simpa [hmade.trans hnone] using hd.settled
      exact hcaught ⟨hadapter, hfails, hsettled⟩
    intro x hx
    rcases (List.mem_or_eq_of_mem_set hx).symm with rfl | hx
    · refine ⟨?_, fun _ => htodo, hd.settled, hd.released⟩
      rw [if_neg hnot]
      simpa [Delivery.finish, htodo] using hmade
    · exact h x hx

theorem sound_step (h : s.Sound adapter) {act : Act σ}
    (hstep : s.step adapter broker act = some s') : s'.Sound adapter := by
  cases act with
  | deliver behaviour =>
    simp only [step, Option.ite_none_right_eq_some, Option.map_eq_some_iff] at hstep
    obtain ⟨-, next, -, rfl⟩ := hstep
    intro x hx
    rcases List.mem_append.mp hx with hx | hx
    · exact h x hx
    · rw [List.mem_singleton.mp hx]
      exact ⟨by simp [Delivery.start], by simp [Delivery.start], by simp [Delivery.start],
        by simp [Delivery.start]⟩
  | proceed n =>
    obtain ⟨d, hd, hstep⟩ := Option.bind_eq_some_iff.mp hstep
    have hsound := h d (List.mem_of_getElem? hd)
    unfold proceed at hstep
    split at hstep
    · rename_i call todo htodo
      cases hstep
      have hended : d.ended = false := by
        by_contra hended
        simp [hsound.ended (by simpa using hended)] at htodo
      refine sound_call h hsound.released (by simp [hended]) ?_
      have hmade := hsound.made
      rw [htodo] at hmade
      simpa [Delivery.called, hended] using hmade
    · rename_i htodo
      simp only [Option.ite_none_left_eq_some, Option.some.injEq] at hstep
      obtain ⟨hended, rfl⟩ := hstep
      exact sound_finish h hsound htodo (by simpa using hended)
  | change queue =>
    cases hstep
    exact h

theorem sound_getD (h : s.Sound adapter) (act : Act σ) :
    ((s.step adapter broker act).getD s).Sound adapter := by
  cases hstep : s.step adapter broker act with
  | none => exact h
  | some s' => exact sound_step h hstep

theorem sound_play (h : s.Sound adapter) (acts : List (Act σ)) :
    (play (Consumer.step adapter broker) s acts).Sound adapter := by
  induction acts generalizing s with
  | nil => exact h
  | cons act acts ih => exact ih (sound_getD h act)

/-! ### A handler that threw too early stays one -/

/-- A handler has thrown before it settled. -/
def Faulted (s : Consumer σ) : Prop :=
  ∃ d ∈ s.deliveries, d.ended = true ∧ d.behaviour.FailsUnsettled

theorem faulted_set {n : Nat} {d e : Delivery} (hd : s.deliveries[n]? = some d)
    (hbehaviour : e.behaviour = d.behaviour) (hended : d.ended = true → e.ended = true)
    (h : s.Faulted) : Faulted { s with deliveries := s.deliveries.set n e } := by
  obtain ⟨x, hx, hfault⟩ := h
  obtain ⟨i, hi⟩ := List.mem_iff_getElem?.mp hx
  by_cases hin : n = i
  · subst hin
    obtain rfl : x = d := by simpa [hi] using hd
    have hlt : n < s.deliveries.length := (List.getElem?_eq_some_iff.mp hd).1
    exact ⟨e, List.mem_set hlt e, hended hfault.1, hbehaviour ▸ hfault.2⟩
  · exact ⟨x, List.mem_iff_getElem?.mpr ⟨i, by simpa [List.getElem?_set_ne hin] using hi⟩, hfault⟩

theorem faulted_call {n : Nat} {d e : Delivery} {call : Settlement}
    (hd : s.deliveries[n]? = some d) (hbehaviour : e.behaviour = d.behaviour)
    (hended : d.ended = true → e.ended = true) (h : s.Faulted) :
    (s.call adapter broker n e call).Faulted := by
  have hset : Faulted { s with deliveries := s.deliveries.set n (e.called call) } :=
    faulted_set hd hbehaviour hended h
  unfold Consumer.call
  split_ifs
  · exact hset
  · dsimp only [settle]
    split_ifs
    · obtain ⟨x, hx, hfault⟩ := hset
      refine ⟨_, List.mem_map_of_mem hx, ?_⟩
      split_ifs <;> exact hfault
    · exact hset

theorem faulted_step {act : Act σ} (hstep : s.step adapter broker act = some s')
    (h : s.Faulted) : s'.Faulted := by
  cases act with
  | deliver behaviour =>
    simp only [step, Option.ite_none_right_eq_some, Option.map_eq_some_iff] at hstep
    obtain ⟨-, next, -, rfl⟩ := hstep
    obtain ⟨x, hx, hfault⟩ := h
    exact ⟨x, List.mem_append_left _ hx, hfault⟩
  | proceed n =>
    obtain ⟨d, hd, hstep⟩ := Option.bind_eq_some_iff.mp hstep
    unfold proceed at hstep
    split at hstep
    · cases hstep
      exact faulted_call hd rfl id h
    · simp only [Option.ite_none_left_eq_some, Option.some.injEq] at hstep
      obtain ⟨-, rfl⟩ := hstep
      rw [finish_eq]
      split_ifs
      · exact faulted_call hd rfl (fun _ => rfl) h
      · exact faulted_set hd rfl (fun _ => rfl) h
  | change queue =>
    cases hstep
    exact h

theorem faulted_play (h : s.Faulted) (acts : List (Act σ)) :
    (play (Consumer.step adapter broker) s acts).Faulted := by
  induction acts generalizing s with
  | nil => exact h
  | cons act acts ih =>
    apply ih
    cases hstep : s.step adapter broker act with
    | none => exact h
    | some s' => exact faulted_step hstep h

end

end Consumer

/-! ## Beside a consumer whose handlers call `NackAsync(true)` -/

/-- `d'` is what `d` comes to when its handler calls `NackAsync(true)` instead. -/
structure Delivery.Matches (d d' : Delivery) : Prop where
  tag : d'.tag = d.tag
  message : d'.message = d.message
  settled : d'.settled = d.settled
  held : d'.held = d.held
  same : ¬ d.behaviour.FailsUnsettled → d' = d
  nacking : d.behaviour.FailsUnsettled → d'.behaviour = ⟨[.nack true], .returns⟩ ∧
    d'.todo = if d.ended then [] else [.nack true]

theorem Delivery.Matches.release {d d' : Delivery} (h : d.Matches d') :
    d.release.Matches d'.release :=
  ⟨h.tag, h.message, h.settled, rfl, fun hnot => by rw [h.same hnot], h.nacking⟩

theorem matches_self {d : Delivery} (h : ¬ d.behaviour.FailsUnsettled) : d.Matches d :=
  ⟨rfl, rfl, rfl, rfl, fun _ => rfl, fun hfails => absurd hfails h⟩

theorem matches_start (tag : Nat) (message : Incoming) (behaviour : Behaviour) :
    (Delivery.start tag message behaviour).Matches (.start tag message behaviour.nacking) := by
  refine ⟨rfl, rfl, rfl, rfl, fun hnot => ?_, fun hfails => ?_⟩
  · rw [Behaviour.nacking_of_not (b := behaviour) hnot]
  · rw [Behaviour.nacking_of_failsUnsettled (b := behaviour) hfails]
    exact ⟨rfl, rfl⟩

/-- The same queue, and deliveries that match one by one. -/
structure Consumer.Matches {σ : Type*} (s s' : Consumer σ) : Prop where
  queue : s'.queue = s.queue
  deliveries : List.Forall₂ Delivery.Matches s.deliveries s'.deliveries

theorem forall₂_set {l l' : List Delivery} {d d' : Delivery}
    (h : List.Forall₂ Delivery.Matches l l') (hd : d.Matches d') (n : Nat) :
    List.Forall₂ Delivery.Matches (l.set n d) (l'.set n d') := by
  induction h generalizing n with
  | nil => exact .nil
  | cons hhead htail ih =>
    cases n with
    | zero => exact .cons hd htail
    | succ n => exact .cons hhead (ih n)

/-- Lists that match agree on what does not depend on the handlers. -/
theorem forall₂_map {p p' : Delivery → Bool} (hp : ∀ d d', d.Matches d' → p' d' = p d)
    {l l' : List Delivery} (h : List.Forall₂ Delivery.Matches l l') : l'.map p' = l.map p := by
  induction h with
  | nil => rfl
  | cons hhead _ ih => rw [List.map_cons, List.map_cons, hp _ _ hhead, ih]

theorem forall₂_any {p p' : Delivery → Bool} (hp : ∀ d d', d.Matches d' → p' d' = p d)
    {l l' : List Delivery} (h : List.Forall₂ Delivery.Matches l l') : l'.any p' = l.any p := by
  induction h with
  | nil => rfl
  | cons hhead _ ih => rw [List.any_cons, List.any_cons, hp _ _ hhead, ih]

theorem forall₂_countP {p p' : Delivery → Bool} (hp : ∀ d d', d.Matches d' → p' d' = p d)
    {l l' : List Delivery} (h : List.Forall₂ Delivery.Matches l l') :
    l'.countP p' = l.countP p := by
  induction h with
  | nil => rfl
  | cons hhead _ ih => rw [List.countP_cons, List.countP_cons, hp _ _ hhead, ih]

theorem forall₂_getElem? {l l' : List Delivery} (h : List.Forall₂ Delivery.Matches l l')
    (n : Nat) : (l[n]? = none ∧ l'[n]? = none) ∨
      ∃ d d', l[n]? = some d ∧ l'[n]? = some d' ∧ d.Matches d' := by
  induction h generalizing n with
  | nil => simp
  | cons hhead _ ih =>
    cases n with
    | zero => exact .inr ⟨_, _, rfl, rfl, hhead⟩
    | succ n => simpa using ih n

namespace Consumer

section

variable {σ : Type*} {adapter : Adapter} {broker : Broker σ} {s s' : Consumer σ}

theorem Matches.set (h : s.Matches s') {d d' : Delivery} (hd : d.Matches d') (n : Nat) :
    Matches { s with deliveries := s.deliveries.set n d }
      { s' with deliveries := s'.deliveries.set n d' } :=
  ⟨h.queue, forall₂_set h.deliveries hd n⟩

theorem Matches.call (h : s.Matches s') {d d' : Delivery} (n : Nat) (call : Settlement)
    (hsettled : d'.settled = d.settled) (hd : (d.called call).Matches (d'.called call)) :
    (s.call adapter broker n d call).Matches (s'.call adapter broker n d' call) := by
  have hset := h.set hd n
  have htag : d'.tag = d.tag := hd.tag
  have hmessage : d'.message = d.message := hd.message
  have hsettles : ∀ x x' : Delivery, x.Matches x' →
      settles adapter d' x' = settles adapter d x := by
    intro x x' hx
    simp only [settles, hmessage, htag, hx.tag, hx.message]
  unfold Consumer.call
  rw [hsettled]
  split_ifs
  · exact hset
  · dsimp only [settle]
    rw [forall₂_any (fun x x' hx => by rw [hx.held, hsettles x x' hx]) hset.deliveries]
    split_ifs
    · refine ⟨by rw [hmessage, h.queue], ?_⟩
      refine List.forall₂_map_left_iff.mpr (List.forall₂_map_right_iff.mpr ?_)
      refine hset.deliveries.imp fun x x' hx => ?_
      rw [hsettles x x' hx]
      split_ifs
      · exact hx.release
      · exact hx
    · exact hset

/-- A handler that does not throw too early goes on in the same way. -/
theorem Matches.proceed (h : s.Matches s') (n : Nat) {d : Delivery}
    (hnot : ¬ d.behaviour.FailsUnsettled) :
    ((s.proceed adapter broker n d).getD s).Matches ((s'.proceed adapter broker n d).getD s') := by
  unfold Consumer.proceed
  split
  · exact h.call n _ rfl (matches_self hnot)
  · split_ifs
    · exact h
    · rw [finish_eq, finish_eq, Option.getD_some, Option.getD_some]
      split_ifs
      · exact h.call n _ rfl (matches_self hnot)
      · exact h.set (matches_self (d := d.finish) hnot) n

/-- Where a handler throws too early, the in-memory adapter makes the call that the other handler
makes. -/
theorem Matches.proceed_failing (h : s.Matches s') {n : Nat} {d d' : Delivery}
    (hd : s.deliveries[n]? = some d) (hsound : d.Sound adapter) (hmatch : d.Matches d')
    (hfails : d.behaviour.FailsUnsettled) :
    (adapter ≠ .inMemory ∧ ((s.proceed adapter broker n d).getD s).Faulted) ∨
      ((s.proceed adapter broker n d).getD s).Matches
        ((s'.proceed adapter broker n d').getD s') := by
  obtain ⟨hbehaviour, htodo'⟩ := hmatch.nacking hfails
  cases hended : d.ended with
  | true =>
    -- The other one still has to return.
    right
    rw [if_pos hended] at htodo'
    have hstay : s.deliveries.set n d = s.deliveries := by
      obtain ⟨hlt, rfl⟩ := List.getElem?_eq_some_iff.mp hd
      exact List.set_getElem_self hlt
    have hdone : d.Matches d'.finish :=
      ⟨hmatch.tag, hmatch.message, hmatch.settled, hmatch.held, fun hnot => absurd hfails hnot,
        fun _ => ⟨hbehaviour, htodo'.trans (if_pos hended).symm⟩⟩
    have hset := h.set hdone n
    rw [hstay] at hset
    simp only [Consumer.proceed, hsound.ended hended, htodo', hended, if_true, Option.getD_none]
    split_ifs
    · exact h
    · rw [finish_eq, if_neg (by simp [hbehaviour])]
      exact hset
  | false =>
    have hcalls : d.made = [] ∧ d.todo = [] := by
      have hmade := hsound.made
      rw [if_neg (by simp [hended]), hfails.1] at hmade
      exact List.append_eq_nil_iff.mp hmade
    have hsettled : d.settled = false := by simpa [hcalls.1] using hsound.settled
    rw [hended, if_neg Bool.false_ne_true] at htodo'
    simp only [Consumer.proceed, hcalls.2, htodo', hended, Bool.false_eq_true, if_false,
      Option.getD_some, finish_eq]
    by_cases hadapter : adapter = .inMemory
    · right
      rw [if_pos ⟨hadapter, hfails.2, hsettled⟩]
      refine h.call n _ hmatch.settled ?_
      exact ⟨hmatch.tag, hmatch.message, rfl, hmatch.held, fun hnot => absurd hfails hnot,
        fun _ => ⟨hbehaviour, rfl⟩⟩
    · left
      rw [if_neg fun hcaught => hadapter hcaught.1]
      have hlt : n < s.deliveries.length := (List.getElem?_eq_some_iff.mp hd).1
      exact ⟨hadapter, d.finish, List.mem_set hlt _, rfl, hfails⟩

theorem Matches.step (h : s.Matches s') (hsound : s.Sound adapter) (act : Act σ) :
    (adapter ≠ .inMemory ∧ ((s.step adapter broker act).getD s).Faulted) ∨
      ((s.step adapter broker act).getD s).Matches
        ((s'.step adapter broker act.nacking).getD s') := by
  cases act with
  | deliver behaviour =>
    have hcount := forall₂_countP (fun x x' hx => hx.held) h.deliveries
    right
    simp only [Consumer.step, Act.nacking, hcount, h.queue]
    split_ifs
    · cases broker.next s.queue with
      | none => exact h
      | some next =>
        refine ⟨rfl, List.rel_append h.deliveries ?_⟩
        rw [h.deliveries.length_eq]
        exact .cons (matches_start _ _ _) .nil
    · exact h
  | proceed n =>
    simp only [Consumer.step, Act.nacking]
    rcases forall₂_getElem? h.deliveries n with ⟨hnone, hnone'⟩ | ⟨d, d', hd, hd', hmatch⟩
    · rw [hnone, hnone']
      exact .inr h
    · rw [hd, hd', Option.bind_some, Option.bind_some]
      by_cases hfails : d.behaviour.FailsUnsettled
      · exact h.proceed_failing hd (hsound d (List.mem_of_getElem? hd)) hmatch hfails
      · rw [hmatch.same hfails]
        exact .inr (h.proceed n hfails)
  | change queue => exact .inr ⟨rfl, h.deliveries⟩

theorem Matches.run (h : s.Matches s') (hsound : s.Sound adapter) (acts : List (Act σ)) :
    (adapter ≠ .inMemory ∧ (play (Consumer.step adapter broker) s acts).Faulted) ∨
      (play (Consumer.step adapter broker) s acts).Matches
        (play (Consumer.step adapter broker) s' (acts.map Act.nacking)) := by
  induction acts generalizing s s' with
  | nil => exact .inr h
  | cons act acts ih =>
    rcases h.step hsound act with ⟨hadapter, hfaulted⟩ | hmatch
    · exact .inl ⟨hadapter, faulted_play hfaulted acts⟩
    · exact ih hmatch (sound_getD hsound act)

end

end Consumer

/-! ## The result -/

section

variable {σ : Type*} (adapter : Adapter) (broker : Broker σ) (queue : σ) (acts : List (Act σ))

/-- A delivery whose handler throws is nacked for redelivery, once, if the handler had not settled
it, and settled no further if it had; either way it takes no room in the prefetch. The queue, and
what is held of it, are what they are when each such handler calls `NackAsync(true)`. -/
structure Contained : Prop where
  made : ∀ d ∈ (run adapter broker queue acts).deliveries, d.ended = true →
    d.behaviour.ending ≠ .returns →
    d.made = if d.behaviour.calls = [] then [.nack true] else d.behaviour.calls
  released : ∀ d ∈ (run adapter broker queue acts).deliveries, d.ended = true →
    d.behaviour.ending ≠ .returns → d.held = false
  sameQueue : (run adapter broker queue (acts.map Act.nacking)).queue =
    (run adapter broker queue acts).queue
  sameHeld : (run adapter broker queue (acts.map Act.nacking)).deliveries.map (·.held) =
    (run adapter broker queue acts).deliveries.map (·.held)

theorem sound_run : (run adapter broker queue acts).Sound adapter :=
  Consumer.sound_play (fun _ h => absurd h List.not_mem_nil) acts

/-- **A throwing handler is a failed delivery exactly in the in-memory adapter**, and elsewhere only
as long as no handler throws before it has settled. -/
theorem faults_contained_iff : Contained adapter broker queue acts ↔
    adapter = .inMemory ∨ ∀ d ∈ (run adapter broker queue acts).deliveries, d.ended = true →
      ¬ d.behaviour.FailsUnsettled := by
  have hsound := sound_run adapter broker queue acts
  constructor
  · intro h
    by_cases hadapter : adapter = .inMemory
    · exact .inl hadapter
    · refine .inr fun d hd hended hfails => ?_
      -- Nobody settled it.
      have hnone : d.made = [] := by
        have hmade := (hsound d hd).made
        rw [if_neg fun hin => hadapter hin.1, hfails.1] at hmade
        exact (List.append_eq_nil_iff.mp hmade).1
      have hmade := h.made d hd hended hfails.2
      rw [if_pos hfails.1, hnone] at hmade
      cases hmade
  · intro h
    have hmade : ∀ d ∈ (run adapter broker queue acts).deliveries, d.ended = true →
        d.behaviour.ending ≠ .returns →
        d.made = if d.behaviour.calls = [] then [.nack true] else d.behaviour.calls := by
      intro d hd hended hending
      have hmade := (hsound d hd).made
      rw [(hsound d hd).ended hended, List.append_nil] at hmade
      rw [hmade]
      by_cases hcalls : d.behaviour.calls = []
      · have hadapter := h.resolve_right fun hnot => hnot d hd hended ⟨hcalls, hending⟩
        rw [if_pos ⟨hadapter, hended, hcalls, hending⟩, if_pos hcalls]
      · rw [if_neg fun hin => hcalls hin.2.2.1, if_neg hcalls]
    have hstart : Consumer.Matches (σ := σ) { queue := queue } { queue := queue } := ⟨rfl, .nil⟩
    have hsame : (run adapter broker queue acts).Matches
        (run adapter broker queue (acts.map Act.nacking)) := by
      refine (hstart.run (fun _ h => absurd h List.not_mem_nil) acts).resolve_left ?_
      rintro ⟨hadapter, d, hd, hended, hfails⟩
      exact h.resolve_left hadapter d hd hended hfails
    refine ⟨hmade, fun d hd hended hending => ?_, hsame.queue,
      forall₂_map (fun _ _ h => h.held) hsame.deliveries⟩
    refine (hsound d hd).released ((hsound d hd).settled.mpr ?_)
    rw [hmade d hd hended hending]
    split_ifs with hcalls
    · simp
    · exact hcalls

/-- Behind throwing handlers a consumer goes on receiving. -/
theorem Contained.receives (h : Contained adapter broker queue acts)
    (hthrew : ∀ d ∈ (run adapter broker queue acts).deliveries,
      d.ended = true ∧ d.behaviour.ending ≠ .returns)
    {next : Incoming × σ} (hnext : broker.next (run adapter broker queue acts).queue = some next)
    (behaviour : Behaviour) :
    ((run adapter broker queue acts).step adapter broker (.deliver behaviour)).isSome = true := by
  have hnone : (run adapter broker queue acts).deliveries.countP (·.held) = 0 := by
    refine List.countP_eq_zero.mpr fun d hd => ?_
    simp [h.released d hd (hthrew d hd).1 (hthrew d hd).2]
  have hroom : 0 < adapter.prefetch := by cases adapter <;> simp [Adapter.prefetch]
  simp [Consumer.step, hnone, hroom, hnext]

end

/-- A queue of one message, which its broker keeps handing over. -/
def oneMessage : Broker Unit where
  next _ := some (⟨0, "order", some 1⟩, ())
  apply _ _ _ := ()

/-- A message is delivered, and its handler ends without having settled it. -/
def fault (ending : Ending) : List (Act Unit) := [.deliver ⟨[], ending⟩, .proceed 0]

/-- **A handler that throws stalls its consumer for good, in RabbitMQ and in Artemis.** -/
theorem fault_stalls :
    (¬ Contained (.rabbitMq none) oneMessage () (fault .throws) ∧
      (run (.rabbitMq none) oneMessage () (fault .throws)).step (.rabbitMq none) oneMessage
        (.deliver ⟨[.ack], .returns⟩) = none) ∧
    (¬ Contained .artemis oneMessage () (fault .faults) ∧
      (run .artemis oneMessage () (fault .faults)).step .artemis oneMessage
        (.deliver ⟨[.ack], .returns⟩) = none) := by
  refine ⟨⟨fun h => ?_, rfl⟩, ⟨fun h => ?_, rfl⟩⟩
  · have hreleased := h.released ⟨0, ⟨0, "order", some 1⟩, ⟨[], .throws⟩, [], false, true, true, []⟩
      (by decide) rfl (by decide)
    cases hreleased
  · have hreleased := h.released ⟨0, ⟨0, "order", some 1⟩, ⟨[], .faults⟩, [], false, true, true, []⟩
      (by decide) rfl (by decide)
    cases hreleased

/-! ## The in-memory path -/

/-- In `InMemoryBus` a caught exception goes on as a call of `NackAsync(true)`. -/
theorem caught_eq_nack {w : World} {h : Nat} {incoming : IncomingBusMessage}
    (hincoming : w.handles[h]? = some incoming) (hsettled : incoming.settled = false) :
    w.exec (.caught h) = { world := w, more := [(Op.nack h true).entry] } := by
  simp [World.exec, hincoming, hsettled, Op.entry]

end MessagingPoc.HandlerFault
