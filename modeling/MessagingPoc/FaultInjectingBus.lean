import MessagingPoc.Abstractions
import Mathlib.Data.List.Basic
import Mathlib.Tactic.Linarith

/-!
# The fault injector

`FaultInjectingBus` of `fault-injecting-bus.ts`: a decorator that implements both ports, hands every
call on to the adapter it wraps, and can be told to let the next `sendNow` and `publish` calls
throw. It looks into none of the arguments, so their types are parameters.

* `handle` — one call made on the decorator; `run` — a sequence of calls and injections.
* `faultDue` — which calls ought to throw, read off the history alone.
* `transparent_iff` — the calls that reach the adapter are the calls made, less the ones that threw,
  unless one of them is a `publish` with options.
-/

namespace MessagingPoc.FaultInjectingBus

/-- The types of the arguments the ports take. -/
structure ArgTypes where
  Date : Type
  ScheduleHandle : Type
  MessageHandler : Type
  AckHandler : Type
  SubscribeOptions : Type
  PublishOptions : Type

/-- A call of `IMessageScheduler` or `IMessageBus`. -/
inductive PortCall (A : ArgTypes)
  | connect
  | connectBus
  | sendNow (destination payload : String)
  | schedule (destination payload : String) (deliverAt : A.Date)
  | cancel (handle : A.ScheduleHandle)
  | listScheduled (destination : String)
  | consume (destination : String) (handler : A.MessageHandler)
  | publish (topic payload : String) (routingKey : Option String)
      (options : Option A.PublishOptions)
  | subscribe (topic : String) (handler : A.AckHandler) (options : Option A.SubscribeOptions)
  | asyncDispose

/-- What the owner of the decorator does with it. -/
inductive Op (A : ArgTypes)
  | injectFailures (count : ℤ)
  | call (c : PortCall A)

/-- The wrapped adapter: what a call gives back and does to its state. -/
abbrev Inner (A : ArgTypes) (τ ρ : Type) := PortCall A → τ → ρ × τ

/-- A call threw the decorator's `TransientFault`, or ended as the inner adapter's call did. -/
inductive Outcome (ρ : Type)
  | transientFault
  | returned (result : ρ)

def Outcome.threw {ρ : Type} : Outcome ρ → Bool
  | .transientFault => true
  | .returned _ => false

structure State (A : ArgTypes) (τ : Type) where
  failuresRemaining : ℤ := 0
  inner : τ
  /-- The calls that reached the inner adapter, the oldest first. -/
  reached : List (PortCall A) := []

variable {A : ArgTypes} {τ ρ : Type}

/-! ## The decorator -/

/-- `maybeFail`, and whether it threw. -/
def State.maybeFail (s : State A τ) : Bool × State A τ :=
  if s.failuresRemaining > 0 then
    (true, { s with failuresRemaining := s.failuresRemaining - 1 })
  else (false, s)

/-- A call of `this.inner`. -/
def State.innerCall (inner : Inner A τ ρ) (c : PortCall A) (s : State A τ) :
    Outcome ρ × State A τ :=
  (.returned (inner c s.inner).1,
    { s with inner := (inner c s.inner).2, reached := s.reached ++ [c] })

/-- The methods that may fail: `this.maybeFail(); return this.inner.…`. -/
def State.orFail (inner : Inner A τ ρ) (c : PortCall A) (s : State A τ) :
    Outcome ρ × State A τ :=
  if s.maybeFail.1 then (.transientFault, s.maybeFail.2) else s.maybeFail.2.innerCall inner c

/-- A method of the decorator. `publish` takes no `options`, so it has none to hand on. -/
def handle (inner : Inner A τ ρ) : PortCall A → State A τ → Outcome ρ × State A τ
  | .connect, s => s.innerCall inner .connect
  | .connectBus, s => s.innerCall inner .connectBus
  | .sendNow destination payload, s => s.orFail inner (.sendNow destination payload)
  | .schedule d p at', s => s.innerCall inner (.schedule d p at')
  | .cancel handle, s => s.innerCall inner (.cancel handle)
  | .listScheduled destination, s => s.innerCall inner (.listScheduled destination)
  | .consume destination handler, s => s.innerCall inner (.consume destination handler)
  | .publish topic payload routingKey _, s =>
    s.orFail inner (.publish topic payload routingKey none)
  | .subscribe topic handler options, s => s.innerCall inner (.subscribe topic handler options)
  | .asyncDispose, s => s.innerCall inner .asyncDispose

def injectFailures (count : ℤ) (s : State A τ) : State A τ := { s with failuresRemaining := count }

/-- A sequence of operations: the calls made with their outcomes, and the state they leave. -/
def run (inner : Inner A τ ρ) : State A τ → List (Op A) →
    List (PortCall A × Outcome ρ) × State A τ
  | s, [] => ([], s)
  | s, .injectFailures count :: ops => run inner (injectFailures count s) ops
  | s, .call c :: ops =>
    let out := handle inner c s
    let rest := run inner out.2 ops
    ((c, out.1) :: rest.1, rest.2)

/-! ## What ought to reach the adapter -/

/-- The calls that can be made to fail. -/
def PortCall.faultable : PortCall A → Bool
  | .sendNow .. | .publish .. => true
  | _ => false

/-- The count of the last injection of a history, the newest operation first. -/
def injected : List (Op A) → ℤ
  | [] => 0
  | .injectFailures count :: _ => count
  | .call _ :: older => injected older

/-- How many `sendNow` and `publish` calls were made since the last injection. -/
def faultableSince : List (Op A) → ℕ
  | [] => 0
  | .injectFailures _ :: _ => 0
  | .call c :: older => faultableSince older + if c.faultable then 1 else 0

/-- The call is one of the first `n` that can fail after an `injectFailures(n)`. -/
def faultDue (history : List (Op A)) (c : PortCall A) : Prop :=
  c.faultable = true ∧ (faultableSince history : ℤ) < injected history

instance (history : List (Op A)) (c : PortCall A) : Decidable (faultDue history c) := by
  unfold faultDue; infer_instance

/-- Which of the calls made ought to throw. -/
def faults : List (Op A) → List (Op A) → List Bool
  | _, [] => []
  | history, .injectFailures count :: ops => faults (.injectFailures count :: history) ops
  | history, .call c :: ops => decide (faultDue history c) :: faults (.call c :: history) ops

/-- The decorator is transparent on a sequence of operations: the first `n` calls that can fail
after each `injectFailures(n)` throw, no other does, and the inner adapter sees the calls that did
not throw, as they were made. -/
def Transparent (inner : Inner A τ ρ) (t : τ) (ops : List (Op A)) : Prop :=
  let out := run inner { inner := t } ops
  out.1.map (fun made => made.2.threw) = faults [] ops ∧
    out.2.reached = (out.1.filter fun made => !made.2.threw).map Prod.fst

/-! ## What does reach it -/

/-- A call as it is handed on. -/
def PortCall.forwarded : PortCall A → PortCall A
  | .publish topic payload routingKey _ => .publish topic payload routingKey none
  | c => c

theorem forwarded_eq_self {c : PortCall A} :
    c.forwarded = c ↔
      ∀ topic payload key options, c ≠ .publish topic payload key (some options) := by
  cases c with
  | publish topic payload key options => cases options <;> simp [PortCall.forwarded]
  | _ => simp [PortCall.forwarded]

/-- **One call on the decorator.** It throws while failures remain and it can fail, and otherwise
hands itself on. -/
theorem handle_spec (inner : Inner A τ ρ) (c : PortCall A) (s : State A τ) :
    ((handle inner c s).1.threw = true ↔ c.faultable = true ∧ 0 < s.failuresRemaining) ∧
      (handle inner c s).2.reached =
        s.reached ++ (if (handle inner c s).1.threw then [] else [c.forwarded]) ∧
      (handle inner c s).2.failuresRemaining =
        s.failuresRemaining - if (handle inner c s).1.threw then 1 else 0 := by
  cases c <;> by_cases h : s.failuresRemaining > 0 <;>
    simp [handle, State.orFail, State.maybeFail, State.innerCall, Outcome.threw,
      PortCall.faultable, PortCall.forwarded, h]

/-- The counter, read off the history. -/
def Counted (s : State A τ) (history : List (Op A)) : Prop :=
  s.failuresRemaining = injected history - min (faultableSince history : ℤ) (injected history).toNat

theorem Counted.pos_iff {s : State A τ} {history : List (Op A)} (h : Counted s history) :
    0 < s.failuresRemaining ↔ (faultableSince history : ℤ) < injected history := by
  unfold Counted at h
  omega

theorem Counted.threw_iff {s : State A τ} {history : List (Op A)} (h : Counted s history)
    (inner : Inner A τ ρ) (c : PortCall A) :
    (handle inner c s).1.threw = decide (faultDue history c) := by
  rw [Bool.eq_iff_iff, decide_eq_true_iff, (handle_spec inner c s).1, h.pos_iff]
  exact Iff.rfl

theorem Counted.call {s : State A τ} {history : List (Op A)} (h : Counted s history)
    (inner : Inner A τ ρ) (c : PortCall A) :
    Counted (handle inner c s).2 (.call c :: history) := by
  have hthrew := h.threw_iff inner c
  have hleft := (handle_spec inner c s).2.2
  unfold Counted at h ⊢
  rw [hleft, hthrew, h, injected, faultableSince]
  by_cases hc : c.faultable = true
  · by_cases hdue : (faultableSince history : ℤ) < injected history
    · simp only [faultDue, hc, hdue, and_self, decide_true, if_true]
      omega
    · simp only [faultDue, hc, hdue, and_false, decide_false, if_true]
      simp
      omega
  · simp [faultDue, hc]

theorem Counted.inject (s : State A τ) (history : List (Op A)) (count : ℤ) :
    Counted (injectFailures count s) (.injectFailures count :: history) := by
  simp [Counted, injectFailures, injected, faultableSince]

/-- **A run on the decorator.** The calls that ought to throw do, and the others are handed on in
the order they were made. -/
theorem run_spec (inner : Inner A τ ρ) {s : State A τ} {history : List (Op A)}
    (h : Counted s history) (ops : List (Op A)) :
    (run inner s ops).1.map (fun made => made.2.threw) = faults history ops ∧
      (run inner s ops).2.reached = s.reached ++
        ((run inner s ops).1.filter fun made => !made.2.threw).map
          (fun made => made.1.forwarded) := by
  induction ops generalizing s history with
  | nil => simp [run, faults]
  | cons op ops ih =>
    cases op with
    | injectFailures count => exact ih (Counted.inject s history count)
    | call c =>
      obtain ⟨hfaults, hreached⟩ := ih (h.call inner c)
      constructor
      · rw [run, faults, List.map_cons, hfaults, h.threw_iff inner c]
      · rw [run, hreached, (handle_spec inner c s).2.1, List.append_assoc]
        cases hthrew : (handle inner c s).1.threw <;> simp [hthrew]

/-- The calls that did not throw, read off the history. -/
theorem made_iff (inner : Inner A τ ρ) {s : State A τ} {history : List (Op A)}
    (h : Counted s history) (ops : List (Op A)) (c : PortCall A) :
    (∃ out : Outcome ρ, (c, out) ∈ (run inner s ops).1 ∧ out.threw = false) ↔
      ∃ before after, ops = before ++ .call c :: after ∧
        ¬faultDue (before.reverse ++ history) c := by
  induction ops generalizing s history with
  | nil => simp [run]
  | cons op ops ih =>
    cases op with
    | injectFailures count =>
      rw [run, ih (Counted.inject s history count)]
      constructor
      · rintro ⟨before, after, rfl, hdue⟩
        exact ⟨.injectFailures count :: before, after, rfl, by simpa using hdue⟩
      · rintro ⟨before, after, hops, hdue⟩
        cases before with
        | nil => simp at hops
        | cons op before =>
          obtain ⟨rfl, rfl⟩ := List.cons_eq_cons.mp hops
          exact ⟨before, after, rfl, by simpa using hdue⟩
    | call d =>
      have hrest := ih (h.call inner d)
      constructor
      · rintro ⟨out, hmem, hthrew⟩
        rcases List.mem_cons.mp hmem with heq | hmem
        · obtain ⟨rfl, rfl⟩ := Prod.mk.inj heq
          rw [h.threw_iff, decide_eq_false_iff_not] at hthrew
          exact ⟨[], ops, rfl, hthrew⟩
        · obtain ⟨before, after, rfl, hdue⟩ := hrest.mp ⟨out, hmem, hthrew⟩
          exact ⟨.call d :: before, after, rfl, by simpa using hdue⟩
      · rintro ⟨before, after, hops, hdue⟩
        cases before with
        | nil =>
          obtain ⟨hd, rfl⟩ := List.cons_eq_cons.mp hops
          obtain rfl : d = c := by simpa using hd
          refine ⟨_, List.mem_cons_self, ?_⟩
          rw [h.threw_iff, decide_eq_false_iff_not]
          exact hdue
        | cons op before =>
          obtain ⟨rfl, rfl⟩ := List.cons_eq_cons.mp hops
          obtain ⟨out, hmem, hthrew⟩ := hrest.mpr ⟨before, after, rfl, by simpa using hdue⟩
          exact ⟨out, List.mem_cons_of_mem _ hmem, hthrew⟩

/-- **The fault injector is transparent exactly while no `publish` with options gets through it.**
-/
theorem transparent_iff (inner : Inner A τ ρ) (t : τ) (ops : List (Op A)) :
    Transparent inner t ops ↔
      ∀ before topic payload key options after,
        ops = before ++ .call (.publish topic payload key (some options)) :: after →
          faultDue before.reverse (.publish topic payload key (some options)) := by
  have hstart : Counted ({ inner := t } : State A τ) [] := by
    simp [Counted, injected, faultableSince]
  obtain ⟨hfaults, hreached⟩ := run_spec inner hstart ops
  have hmade := made_iff inner hstart ops
  have hkept : Transparent inner t ops ↔ ∀ made ∈ (run inner { inner := t } ops).1,
      made.2.threw = false → made.1.forwarded = made.1 := by
    rw [Transparent, and_iff_right hfaults, hreached, List.nil_append, List.map_inj_left]
    simp
  rw [hkept]
  constructor
  · intro hsame before topic payload key options after hops
    by_contra hdue
    obtain ⟨out, hmem, hthrew⟩ := (hmade _).mpr ⟨before, after, hops, by simpa using hdue⟩
    exact forwarded_eq_self.mp (hsame _ hmem hthrew) _ _ _ _ rfl
  · rintro hops ⟨c, out⟩ hmem hthrew
    refine forwarded_eq_self.mpr fun topic payload key options hc => ?_
    obtain ⟨before, after, heq, hdue⟩ := (hmade c).mp ⟨out, hmem, hthrew⟩
    obtain rfl : c = .publish topic payload key (some options) := hc
    rw [List.append_nil] at hdue
    exact hdue (hops before topic payload key options after heq)

/-- The ports as the adapters see them, with numbers for instants and delegates. -/
def plainArgs : ArgTypes where
  Date := ℤ
  ScheduleHandle := String
  MessageHandler := MessageHandler
  AckHandler := AckHandler
  SubscribeOptions := SubscribeOptions
  PublishOptions := PublishOptions

/-- With no fault armed at all, a `publish` with a group loses it on the way. -/
theorem not_transparent_options :
    ¬Transparent (A := plainArgs) (fun _ n => ((), n + 1)) 0
      [.call (.publish "s12" "m1" none (some { groupId := some "g" }))] := by
  rintro ⟨-, h⟩
  simp [run, handle, State.orFail, State.maybeFail, State.innerCall, Outcome.threw] at h

end MessagingPoc.FaultInjectingBus
