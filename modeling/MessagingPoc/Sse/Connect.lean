import MessagingPoc.Lib.Machine
import MessagingPoc.Sse.Contract
import Mathlib.Logic.Function.Basic

/-!
# One SSE connection: binding and teardown

`SseHub.connect` binds two subscriptions, one after the other, and returns a handle that ends both.
`handleEvents` stores the handle when it has it; the `close` events of the request and the response
run whatever is stored at the first of them, and before `connect` is done that does nothing.

* A connection keeps nothing exactly when no close event comes before the handle is stored
  (`released_iff`).
* `connect` is all or nothing exactly when it is not the second subscription that fails
  (`all_or_nothing_iff`).

Both want the first `Unsubscribe` to return a promise; if it throws instead, the second one is not
called.
-/

namespace MessagingPoc.Sse.Connect

open Machine

/-! ## The port -/

/-- What a call of an `Unsubscribe` comes to. -/
inductive Outcome
  | resolves
  | rejects
  /-- It throws instead of returning a promise. -/
  | throws
deriving DecidableEq

/-- What a `MessageBusPort` does for one connection. -/
structure Port where
  /-- Does the call of `subscribe` for a scope resolve? -/
  subscribes : Scope → Bool
  unsubscribe : Scope → Outcome

inductive Subscription
  | unbound
  /-- Its messages are sent to the sink. -/
  | active
  /-- Its `Unsubscribe` was called. -/
  | ended
deriving DecidableEq

/-- The two subscriptions of a connection. -/
abbrev Subscriptions := Scope → Subscription

def noneBound : Subscriptions := fun _ => .unbound

def bothActive : Subscriptions := fun _ => .active

/-! ## `SseHub.connect` -/

/-- `bindScope`: what it leaves, and whether it resolves. -/
def bindScope (port : Port) (scope : Scope) (subs : Subscriptions) : Subscriptions × Bool :=
  if port.subscribes scope then (Function.update subs scope .active, true) else (subs, false)

def connect (port : Port) : Subscriptions × Bool :=
  match bindScope port .user noneBound with
  | (subs, false) => (subs, false)
  | (subs, true) => bindScope port .org subs

/-- The handle: `Promise.allSettled([userUnsub(), orgUnsub()])`. -/
def teardown (port : Port) (subs : Subscriptions) : Subscriptions :=
  let subs := Function.update subs .user .ended
  -- The list is not built, and the second call not made, if the first one throws.
  if port.unsubscribe .user = .throws then subs else Function.update subs .org .ended

/-! ## `handleEvents` -/

inductive Phase
  /-- The sink is open. -/
  | opened
  | userBound
  | bothBound
  /-- The handle is stored, and `handleEvents` is done. -/
  | stored
  /-- `connect` was rejected. -/
  | failed
deriving DecidableEq

/-- Which `close` event it is. -/
inductive Source
  | req
  | res
deriving DecidableEq

inductive Act
  | bindUser
  | bindOrg
  | store
  | close (source : Source)
deriving DecidableEq

structure Attempt where
  phase : Phase := .opened
  subs : Subscriptions := noneBound
  closed : Bool := false

namespace Attempt

variable (port : Port)

/-- A scope is bound, or `connect` is rejected. -/
def bind (s : Attempt) (scope : Scope) (next : Phase) : Attempt :=
  let (subs, ok) := bindScope port scope s.subs
  { s with subs := subs, phase := if ok then next else .failed }

/-- `cleanup`, with the teardown that is stored. -/
def cleanup (s : Attempt) : Attempt :=
  if s.closed then s
  else { s with
    closed := true
    subs := if s.phase = .stored then teardown port s.subs else s.subs }

def step (s : Attempt) : Act → Option Attempt
  | .bindUser => if s.phase = .opened then some (s.bind port .user .userBound) else none
  | .bindOrg => if s.phase = .userBound then some (s.bind port .org .bothBound) else none
  | .store => if s.phase = .bothBound then some { s with phase := .stored } else none
  | .close _ => some (s.cleanup port)

end Attempt

/-- A connection under every interleaving. -/
def machine (port : Port) : System Attempt Act where
  init s := s = {}
  step s a s' := s.step port a = some s'

/-- The connection beside the record of its steps, the newest first. -/
def recorded (port : Port) : System (Attempt × List Act) Act :=
  (machine port).recording fun _ a => [a]

/-! ## Teardown -/

/-- Every close event comes after the handle was stored. -/
def InTime (trace : List Act) : Prop :=
  Always (fun a before => ∀ source, a = .close source → .store ∈ before) trace

/-- A close event fired. -/
def Closed (trace : List Act) : Prop := ∃ source, .close source ∈ trace

/-- What `connect` has bound. -/
def bound : Phase → Subscriptions
  | .opened | .failed => noneBound
  | .userBound => Function.update noneBound .user .active
  | .bothBound | .stored => bothActive

section

variable {port : Port} {trace : List Act}

theorem inTime_of_not_closed (h : ¬ Closed trace) : InTime trace := by
  induction trace with
  | nil => trivial
  | cons a trace ih =>
    refine ⟨fun source ha => absurd ⟨source, ha ▸ List.mem_cons_self⟩ h, ih fun hclosed => ?_⟩
    obtain ⟨source, hmem⟩ := hclosed
    exact h ⟨source, List.mem_cons_of_mem _ hmem⟩

theorem not_inTime (hclosed : Closed trace) (hstore : .store ∉ trace) : ¬ InTime trace := by
  obtain ⟨source, hmem⟩ := hclosed
  obtain ⟨newer, older, rfl⟩ := List.append_of_mem hmem
  intro h
  refine hstore (List.mem_append_right _ (List.mem_cons_of_mem _ ?_))
  exact h.at source rfl

/-- What a connection holds, when both binds succeed: what it has bound, until a close event finds
the handle stored. -/
structure Holds (port : Port) (p : Attempt × List Act) : Prop where
  stored : p.1.phase = .stored ↔ .store ∈ p.2
  closed : p.1.closed = true ↔ Closed p.2
  bound : ¬ (p.1.phase = .stored ∧ Closed p.2 ∧ InTime p.2) → p.1.subs = bound p.1.phase
  released : p.1.phase = .stored → Closed p.2 → InTime p.2 → p.1.subs = teardown port bothActive
  succeeds : p.1.phase ≠ .failed

theorem holds_init : Holds port ({}, []) :=
  ⟨by simp, by simp [Closed], fun _ => rfl, by simp, by simp⟩

@[simp] theorem closed_cons {a : Act} :
    Closed (a :: trace) ↔ (∃ source, a = .close source) ∨ Closed trace := by
  simp only [Closed, List.mem_cons]
  constructor
  · rintro ⟨source, rfl | h⟩
    · exact .inl ⟨source, rfl⟩
    · exact .inr ⟨source, h⟩
  · rintro (⟨source, rfl⟩ | ⟨source, h⟩)
    · exact ⟨source, .inl rfl⟩
    · exact ⟨source, .inr h⟩

/-- A scope is bound; the handle is not stored yet. -/
theorem Holds.bind {s : Attempt} (h : Holds port (s, trace)) {scope : Scope} {next : Phase}
    (hbind : port.subscribes scope = true) (hphase : s.phase ≠ .stored) (hnext : next ≠ .stored)
    (hfailed : next ≠ .failed) {a : Act} (ha : a ≠ .store) (ha' : ∀ source, a ≠ .close source)
    (hbound : Function.update (Connect.bound s.phase) scope .active = Connect.bound next) :
    Holds port (s.bind port scope next, a :: trace) := by
  have hsubs : s.subs = Connect.bound s.phase := h.bound fun hin => hphase hin.1
  have hresult : s.bind port scope next =
      { s with subs := Connect.bound next, phase := next } := by
    simp [Attempt.bind, bindScope, hbind, hsubs, hbound]
  have hstore : .store ∉ trace := fun hmem => hphase (h.stored.mpr hmem)
  rw [hresult]
  refine ⟨?_, ?_, fun _ => rfl, fun hstored => absurd hstored hnext, hfailed⟩
  · simpa [hnext, ha.symm] using hstore
  · simpa [ha'] using h.closed

theorem Holds.store {s : Attempt} (h : Holds port (s, trace)) (hphase : s.phase = .bothBound) :
    Holds port ({ s with phase := .stored }, .store :: trace) := by
  have hsubs : s.subs = Connect.bound s.phase := h.bound fun hin => by simp [hphase] at hin
  have hstore : .store ∉ trace := fun hmem => by
    have hstored := h.stored.mpr hmem
    simp [hphase] at hstored
  refine ⟨by simp, by simpa using h.closed, fun _ => ?_, fun _ hclosed hin => ?_, by simp⟩
  · rw [hphase] at hsubs
    exact hsubs
  · -- Closed before: too early.
    exact absurd hin.2 (not_inTime (by simpa using hclosed) hstore)

theorem Holds.close {s : Attempt} (h : Holds port (s, trace)) (source : Source) :
    Holds port (s.cleanup port, .close source :: trace) := by
  have hin : s.phase = .stored → (InTime (.close source :: trace) ↔ InTime trace) := fun hstored =>
    ⟨fun hin => hin.2, fun hin => ⟨fun _ _ => h.stored.mp hstored, hin⟩⟩
  by_cases hclosed : s.closed = true
  · -- `cleanup` has run.
    have hbefore : Closed trace := h.closed.mp hclosed
    rw [Attempt.cleanup, if_pos hclosed]
    refine ⟨by simpa using h.stored, by simp [hclosed], fun hnot => ?_,
      fun hstored _ hintime => h.released hstored hbefore ((hin hstored).mp hintime), h.succeeds⟩
    refine h.bound fun ⟨hstored, _, hintime⟩ => hnot ⟨hstored, by simp, (hin hstored).mpr hintime⟩
  · have hbefore : ¬ Closed trace := fun hbefore => hclosed (h.closed.mpr hbefore)
    have hsubs : s.subs = Connect.bound s.phase := h.bound fun hin => hbefore hin.2.1
    rw [Attempt.cleanup, if_neg hclosed]
    refine ⟨by simpa using h.stored, by simp, fun hnot => ?_, fun hstored _ _ => ?_, h.succeeds⟩
    · have hphase : s.phase ≠ .stored := fun hstored =>
        hnot ⟨hstored, by simp, (hin hstored).mpr (inTime_of_not_closed hbefore)⟩
      simp only [if_neg hphase, hsubs]
    · have hstored : s.phase = .stored := hstored
      simp only [hsubs, hstored, Connect.bound, if_true]

theorem holds_step (hbind : ∀ scope, port.subscribes scope = true) {p p' : Attempt × List Act}
    {a : Act} (h : Holds port p) (hstep : (recorded port).step p a p') : Holds port p' := by
  obtain ⟨s, trace⟩ := p
  obtain ⟨s', trace'⟩ := p'
  obtain ⟨hstep, rfl⟩ := step_recording.mp hstep
  change s.step port a = some s' at hstep
  cases a with
  | bindUser =>
    simp only [Attempt.step, Option.ite_none_right_eq_some, Option.some.injEq] at hstep
    obtain ⟨hphase, rfl⟩ := hstep
    exact h.bind (hbind _) (by simp [hphase]) (by simp) (by simp) (by simp) (by simp)
      (by rw [hphase]; rfl)
  | bindOrg =>
    simp only [Attempt.step, Option.ite_none_right_eq_some, Option.some.injEq] at hstep
    obtain ⟨hphase, rfl⟩ := hstep
    refine h.bind (hbind _) (by simp [hphase]) (by simp) (by simp) (by simp) (by simp) ?_
    rw [hphase]
    funext scope
    cases scope <;> rfl
  | store =>
    simp only [Attempt.step, Option.ite_none_right_eq_some, Option.some.injEq] at hstep
    obtain ⟨hphase, rfl⟩ := hstep
    exact h.store hphase
  | close source =>
    cases hstep
    exact h.close source

/-- The handle ends both subscriptions unless the first `Unsubscribe` throws. -/
theorem teardown_ended (subs : Subscriptions) (horg : subs .org ≠ .ended) :
    (∀ scope, teardown port subs scope = .ended) ↔ port.unsubscribe .user ≠ .throws := by
  unfold teardown
  split_ifs with hthrows
  · refine iff_of_false (fun h => horg ?_) (by simp [hthrows])
    simpa using h .org
  · refine iff_of_true (fun scope => ?_) hthrows
    cases scope <;> simp

/-- **A closed connection keeps nothing exactly when it was closed in time.** Once a close event has
fired and `handleEvents` is done, with both binds made, both subscriptions have been unsubscribed if
and only if no close event came before the handle was stored, and the first `Unsubscribe` did not
throw. -/
theorem released_iff (hbind : ∀ scope, port.subscribes scope = true) {p : Attempt × List Act}
    (h : Reach (recorded port) p) (hdone : p.1.phase = .stored) (hclosed : Closed p.2) :
    (∀ scope, p.1.subs scope = .ended) ↔ InTime p.2 ∧ port.unsubscribe .user ≠ .throws := by
  have hholds : Holds port p := by
    refine h.invariant (I := Holds port) (fun p hp => ?_) fun _ _ _ _ ih _ => holds_step hbind ih
    obtain ⟨s, trace⟩ := p
    obtain ⟨rfl, rfl⟩ := hp
    exact holds_init
  by_cases hin : InTime p.2
  · rw [hholds.released hdone hclosed hin, teardown_ended _ (by simp [bothActive])]
    simp [hin]
  · rw [hholds.bound fun h => hin h.2.2, hdone]
    exact iff_of_false (fun h => by cases h .user) fun h => hin h.1

end

/-- A port all of whose calls go well. -/
def goodPort : Port where
  subscribes _ := true
  unsubscribe _ := .resolves

/-- Play a list of steps beside the record. -/
def playRecorded (port : Port) (acts : List Act) : Attempt × List Act :=
  Machine.play (recordStep (Attempt.step port) fun _ a => [a]) ({}, []) acts

theorem reach_playRecorded (port : Port) (acts : List Act) :
    Reach (recorded port) (playRecorded port acts) :=
  Machine.reach_play (recordStep_step fun _ _ _ => id) ⟨rfl, rfl⟩ acts

/-- The connection comes up, and is closed. -/
def closedLate : List Act := [.bindUser, .bindOrg, .store, .close .req, .close .res]

theorem released_iff_late : (playRecorded goodPort closedLate).1.subs .user = .ended ∧
    (playRecorded goodPort closedLate).1.subs .org = .ended := by
  have hin : InTime [.close .res, .close .req, .store, .bindOrg, .bindUser] := by simp [InTime]
  have hbind : ∀ scope, goodPort.subscribes scope = true := fun _ => rfl
  have hended := (released_iff hbind (reach_playRecorded _ closedLate) rfl ⟨.req, by decide⟩).mpr
    ⟨hin, by decide⟩
  exact ⟨hended .user, hended .org⟩

/-- **A client that disconnects while its subscriptions are bound leaves both behind.** -/
theorem closed_early : ¬ ∀ (port : Port) (p : Attempt × List Act), Reach (recorded port) p →
    (∀ scope, port.subscribes scope = true) → p.1.phase = .stored → Closed p.2 →
    ∀ scope, p.1.subs scope = .ended := by
  intro hclaim
  have hended := hclaim goodPort _
    (reach_playRecorded goodPort [.bindUser, .close .req, .bindOrg, .close .res, .store])
    (fun _ => rfl) rfl ⟨.req, by decide⟩ .user
  exact absurd hended (by decide)

/-! ## All or nothing -/

/-- `connect` is what its two steps do. -/
theorem connect_eq_play (port : Port) :
    (connect port).1 = (Machine.play (Attempt.step port) {} [.bindUser, .bindOrg]).subs ∧
      ((connect port).2 = true ↔
        (Machine.play (Attempt.step port) {} [.bindUser, .bindOrg]).phase = .bothBound) := by
  cases huser : port.subscribes .user <;> cases horg : port.subscribes .org <;>
    simp [connect, bindScope, Machine.play, Attempt.step, Attempt.bind, huser, horg]

/-- What `connect` promises: nothing is active when it is rejected; when it resolves, both
subscriptions are, and the handle ends both. -/
structure AllOrNothing (port : Port) : Prop where
  rejected : (connect port).2 = false → ∀ scope, (connect port).1 scope ≠ .active
  active : (connect port).2 = true → ∀ scope, (connect port).1 scope = .active
  released : (connect port).2 = true → ∀ scope, teardown port (connect port).1 scope = .ended

theorem connect_eq (port : Port) : connect port =
    if port.subscribes .user = true then
      (if port.subscribes .org = true then (bothActive, true)
      else (Function.update noneBound .user .active, false))
    else (noneBound, false) := by
  have hboth : Function.update (Function.update noneBound .user .active) .org .active =
      bothActive := by
    funext scope
    cases scope <;> rfl
  cases huser : port.subscribes .user <;> cases horg : port.subscribes .org <;>
    simp [connect, bindScope, huser, horg, hboth]

/-- **`connect` is all or nothing exactly when it is not the second subscription alone that fails**,
and the first `Unsubscribe` does not throw. -/
theorem all_or_nothing_iff (port : Port) : AllOrNothing port ↔
    (port.subscribes .user = true → port.subscribes .org = true ∧
      port.unsubscribe .user ≠ .throws) := by
  have hended : (∀ scope, teardown port bothActive scope = .ended) ↔
      port.unsubscribe .user ≠ .throws := teardown_ended bothActive (by simp [bothActive])
  have heq := connect_eq port
  constructor
  · intro h huser
    rw [if_pos huser] at heq
    by_cases horg : port.subscribes .org = true
    · rw [if_pos horg] at heq
      have hreleased := h.released (by rw [heq])
      rw [heq] at hreleased
      exact ⟨horg, hended.mp hreleased⟩
    · -- The user's subscription stays.
      rw [if_neg horg] at heq
      have hrejected := h.rejected (by rw [heq]) .user
      rw [heq] at hrejected
      exact absurd rfl hrejected
  · intro h
    by_cases huser : port.subscribes .user = true
    · obtain ⟨horg, hthrows⟩ := h huser
      rw [if_pos huser, if_pos horg] at heq
      constructor <;> rw [heq]
      · simp
      · exact fun _ _ => rfl
      · exact fun _ => hended.mpr hthrows
    · rw [if_neg huser] at heq
      constructor <;> rw [heq]
      · exact fun _ scope => by simp [noneBound]
      · simp
      · simp

/-- **A failed second subscription leaves the first one active.** -/
theorem org_fails : ¬ ∀ port : Port, (∀ scope, port.unsubscribe scope ≠ .throws) →
    AllOrNothing port := by
  intro hclaim
  have h := hclaim ⟨fun scope => scope = .user, fun _ => .resolves⟩ (by simp)
  exact h.rejected rfl .user rfl

end MessagingPoc.Sse.Connect
