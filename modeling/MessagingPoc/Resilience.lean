import MessagingPoc.Lib.Breaker
import MessagingPoc.Lib.Machine
import Mathlib.Tactic.Common

/-!
# The resilience decorator

`ResilientScheduler` of `resilient-scheduler.ts`: every call of the two ports goes through a retry
policy wrapped around a circuit breaker, both with the same error filter. The calls overlap freely
and share the breaker; the adapter may answer each in any way and after any time. How long a retry
backs off is left open, so `initialDelayMs` and `maxDelayMs` play no part.

* `machine` — the decorator under every interleaving of its calls.
* `FailsFast` — attempts are bounded, a `NotSupportedError` is passed on and not counted, and a call
  made while the breaker is open is rejected after one attempt.
* `failsFast_iff` — this holds of a run exactly if it makes no call while the breaker is open, or
  the policy never retries: the filter also lets the breaker's own error through to the retry.
-/

namespace MessagingPoc.Resilience

open Machine

structure ResilienceOptions where
  maxRetryAttempts : ℕ
  consecutiveFailures : ℕ
  halfOpenAfterMs : ℕ
deriving DecidableEq, Repr

inductive Error
  | notSupported (operation broker : String)
  /-- What an open breaker throws. -/
  | brokenCircuit
  | other (message : String)
deriving DecidableEq, Repr

/-- How a call of the inner adapter ends, or the decorated call. -/
inductive Outcome
  | success
  | throws (e : Error)
deriving DecidableEq, Repr

/-- The filter of both policies, `(err) => !(err instanceof NotSupportedError)`. -/
def policy : Error → Bool
  | .notSupported .. => false
  | .brokenCircuit | .other _ => true

/-- An outcome, as the breaker sees it. -/
def verdict : Outcome → Breaker.Verdict
  | .success => .success
  | .throws e => if policy e then .handled else .unhandled

inductive Phase
  /-- The inner adapter is at work; for the half-open breaker the call is the probe. -/
  | running (probe : Bool)
  /-- The half-open breaker waits for its probe. -/
  | holding
  /-- The retry policy waits before the next attempt. -/
  | backingOff
  | settled (o : Outcome)
deriving DecidableEq, Repr

structure Call where
  /-- The retries so far. -/
  attempt : ℕ := 0
  phase : Phase := .backingOff
  /-- Ghost: how often the call invoked the inner adapter. -/
  invocations : ℕ := 0
  /-- Ghost: the breaker was open, its cool-down not elapsed, when the call was made. -/
  madeOpen : Bool := false
deriving DecidableEq, Repr

inductive Event
  /-- The inner adapter answered a call. -/
  | ended (call : ℕ) (probe : Bool) (o : Outcome)
  /-- The breaker opened. -/
  | opened
deriving DecidableEq, Repr

structure Decorator where
  now : ℕ := 0
  breaker : Breaker := {}
  calls : List Call := []
  /-- Ghost, the newest first. -/
  log : List Event := []

inductive Act
  | tick (ms : ℕ)
  /-- Any method of either port is called. -/
  | call
  /-- The back-off of a call ends. -/
  | retry (i : ℕ)
  /-- The probe a call was held back for has ended. -/
  | resume (i : ℕ)
  | returns (i : ℕ) (o : Outcome)

variable (opts : ResilienceOptions)

/-! ## The pipeline -/

/-- The retry policy, when an attempt has ended. -/
def finish (c : Call) : Outcome → Call
  | .success => { c with phase := .settled .success }
  | .throws e =>
    if policy e ∧ c.attempt < opts.maxRetryAttempts then
      { c with attempt := c.attempt + 1, phase := .backingOff }
    else { c with phase := .settled (.throws e) }

/-- An attempt: what the breaker makes of it. -/
def attempt (c : Call) : Breaker.Entry → Call
  | .run => { c with phase := .running false, invocations := c.invocations + 1 }
  | .probe => { c with phase := .running true, invocations := c.invocations + 1 }
  | .hold => { c with phase := .holding }
  | .reject => finish opts c (.throws .brokenCircuit)

namespace Decorator

/-- The breaker is open and its cool-down has not elapsed. -/
def Open (s : Decorator) : Prop := s.breaker.Blocks opts.halfOpenAfterMs s.now

instance (s : Decorator) : Decidable (s.Open opts) := by unfold Open; infer_instance

/-- `pipeline.execute`: a new call makes its first attempt. -/
def execute (s : Decorator) : Decorator :=
  let out := s.breaker.arrive opts.halfOpenAfterMs s.now
  { s with
    breaker := out.2
    calls := s.calls ++ [attempt opts { madeOpen := decide (s.Open opts) } out.1] }

/-- A call makes another attempt, or goes on with one that was held back. -/
def again (s : Decorator) (i : ℕ) (c : Call) : Decorator :=
  let out := s.breaker.arrive opts.halfOpenAfterMs s.now
  { s with breaker := out.2, calls := s.calls.set i (attempt opts c out.1) }

/-- The inner adapter answers. -/
def returned (s : Decorator) (i : ℕ) (c : Call) (probe : Bool) (o : Outcome) : Decorator :=
  let breaker := s.breaker.settle opts.consecutiveFailures s.now probe (verdict o)
  { s with
    breaker := breaker
    calls := s.calls.set i (finish opts c o)
    log := (if breaker.circuit = s.breaker.circuit then []
      else match breaker.circuit with
        | .opened _ => [.opened]
        | .closed | .halfOpen => []) ++ .ended i probe o :: s.log }

def step (s : Decorator) : Act → Option Decorator
  | .tick ms => some { s with now := s.now + ms }
  | .call => some (s.execute opts)
  | .retry i =>
    match s.calls[i]? with
    | some c => if c.phase = .backingOff then some (s.again opts i c) else none
    | none => none
  | .resume i =>
    match s.calls[i]? with
    | some c =>
      if c.phase = .holding ∧ s.breaker.circuit ≠ .halfOpen then some (s.again opts i c) else none
    | none => none
  | .returns i o =>
    match s.calls[i]? with
    | some c =>
      match c.phase with
      | .running probe => some (s.returned opts i c probe o)
      | _ => none
    | none => none

end Decorator

/-- The decorator under every interleaving. -/
def machine : System Decorator Act where
  init s := s = {}
  step s a s' := s.step opts a = some s'

/-! ## The contract -/

/-- The errors in a row the inner adapter has answered with, a `NotSupportedError` not counted. -/
def streak : List Event → ℕ
  | [] => 0
  | .opened :: older => streak older
  | .ended _ _ .success :: _ => 0
  | .ended _ _ (.throws e) :: older => if policy e then streak older + 1 else streak older

/-- The breaker opens on an error other than `NotSupportedError`: the probe's, or the last of
enough in a row. -/
def OpensDuly (e : Event) (older : List Event) : Prop :=
  e = .opened → ∃ i probe err rest, older = .ended i probe (.throws err) :: rest ∧
    policy err = true ∧ (probe = true ∨ opts.consecutiveFailures ≤ streak older)

structure FailsFast (s : Decorator) : Prop where
  attempts : ∀ c ∈ s.calls, c.invocations ≤ opts.maxRetryAttempts + 1
  contract : ∀ i probe operation broker,
    .ended i probe (.throws (.notSupported operation broker)) ∈ s.log →
      ∃ c, s.calls[i]? = some c ∧ c.phase = .settled (.throws (.notSupported operation broker))
  counted : s.breaker.failures = streak s.log
  opens : Always (OpensDuly opts) s.log
  rejected : ∀ c ∈ s.calls, c.madeOpen = true →
    c.attempt = 0 ∧ c.phase = .settled (.throws .brokenCircuit)

/-- No call is made while the breaker is open, unless the policy never retries. -/
def Spared (s : Decorator) : Act → Prop
  | .call => opts.maxRetryAttempts = 0 ∨ ¬s.Open opts
  | _ => True

variable {opts} {s s' : Decorator}

/-! ## One call -/

/-- What the pipeline keeps of a call: the attempts and invocations stay bounded, and a call made
while the breaker was open has been rejected for good or is being retried. -/
structure Bounded (opts : ResilienceOptions) (c : Call) : Prop where
  attempt_le : c.attempt ≤ opts.maxRetryAttempts
  invocations_le : c.invocations ≤ c.attempt + 1
  waiting : c.phase = .backingOff ∨ c.phase = .holding → c.invocations ≤ c.attempt
  spared : c.madeOpen = true → opts.maxRetryAttempts = 0 →
    c.attempt = 0 ∧ c.phase = .settled (.throws .brokenCircuit)
  retried : c.madeOpen = true → 0 < opts.maxRetryAttempts → 0 < c.attempt

/-- The end of an attempt moves a call on to its end or to one more attempt. -/
theorem finish_cases (opts : ResilienceOptions) (c : Call) (o : Outcome) :
    finish opts c o = { c with phase := .settled o } ∧
        (∀ e, o = .throws e → policy e = true → opts.maxRetryAttempts ≤ c.attempt) ∨
      (∃ e, o = .throws e ∧ policy e = true) ∧ c.attempt < opts.maxRetryAttempts ∧
        finish opts c o = { c with attempt := c.attempt + 1, phase := .backingOff } := by
  cases o with
  | success => exact .inl ⟨rfl, nofun⟩
  | throws e =>
    by_cases h : policy e = true ∧ c.attempt < opts.maxRetryAttempts
    · exact .inr ⟨⟨e, rfl, h.1⟩, h.2, if_pos h⟩
    · refine .inl ⟨if_neg h, fun e' he hpolicy => ?_⟩
      obtain rfl : e = e' := by simpa using he
      exact not_lt.mp fun hlt => h ⟨hpolicy, hlt⟩

theorem Bounded.finish {c : Call} (h : Bounded opts c) (o : Outcome)
    (hspare : c.madeOpen = true → 0 < opts.maxRetryAttempts) : Bounded opts (finish opts c o) := by
  rcases finish_cases opts c o with ⟨heq, -⟩ | ⟨-, hlt, heq⟩
  · rw [heq]
    exact ⟨h.attempt_le, h.invocations_le, by simp, fun hopen hzero =>
      absurd (hspare hopen) (by omega), h.retried⟩
  · rw [heq]
    exact ⟨hlt, h.invocations_le.trans (Nat.le_succ _), fun _ => h.invocations_le,
      fun _ hzero => absurd hlt (by omega), fun _ _ => Nat.succ_pos _⟩

/-- A waiting call stays bounded through an attempt. -/
theorem Bounded.attempt {c : Call} (h : Bounded opts c)
    (hwait : c.phase = .backingOff ∨ c.phase = .holding) (e : Breaker.Entry) :
    Bounded opts (attempt opts c e) := by
  have hinv := h.waiting hwait
  have hspare : c.madeOpen = true → 0 < opts.maxRetryAttempts := by
    intro hopen
    by_contra hzero
    obtain ⟨-, hphase⟩ := h.spared hopen (by omega)
    rw [hphase] at hwait
    simp at hwait
  have hzero : c.madeOpen = true → opts.maxRetryAttempts ≠ 0 := fun hopen => (hspare hopen).ne'
  cases e with
  | run | probe =>
    exact ⟨h.attempt_le, Nat.succ_le_succ hinv, by simp [Resilience.attempt],
      fun hopen hmax => absurd hmax (hzero hopen), h.retried⟩
  | hold =>
    exact ⟨h.attempt_le, h.invocations_le, fun _ => hinv,
      fun hopen hmax => absurd hmax (hzero hopen), h.retried⟩
  | reject => exact h.finish (.throws .brokenCircuit) hspare

theorem bounded_new (opts : ResilienceOptions) (s : Decorator) :
    Bounded opts (attempt opts { madeOpen := decide (s.Open opts) }
      (s.breaker.arrive opts.halfOpenAfterMs s.now).1) := by
  by_cases hopen : s.Open opts
  · have hreject := Breaker.arrive_reject_iff.mpr hopen
    rw [hreject, attempt, decide_eq_true hopen]
    rcases finish_cases opts { madeOpen := true } (.throws .brokenCircuit) with
      ⟨heq, hmax⟩ | ⟨-, hlt, heq⟩
    · have hzero : opts.maxRetryAttempts ≤ 0 := hmax _ rfl rfl
      rw [heq]
      exact ⟨Nat.zero_le _, Nat.zero_le _, by simp, fun _ _ => ⟨rfl, rfl⟩,
        fun _ hpos => absurd hpos (by omega)⟩
    · rw [heq]
      exact ⟨hlt, Nat.zero_le _, fun _ => Nat.zero_le _,
        fun _ hzero => absurd hlt (by simp [hzero]), fun _ _ => Nat.one_pos⟩
  · rw [decide_eq_false hopen]
    have hfresh : Bounded opts {} :=
      ⟨Nat.zero_le _, Nat.zero_le _, fun _ => le_rfl, by simp, by simp⟩
    exact hfresh.attempt (.inl rfl) _

/-! ## The breaker and its record -/

theorem verdict_eq_handled {o : Outcome} :
    verdict o = .handled ↔ ∃ e, o = .throws e ∧ policy e = true := by
  cases o with
  | success => simp [verdict]
  | throws e => cases h : policy e <;> simp [verdict, h]

/-- The breaker counts what the record counts. -/
theorem streak_ended (older : List Event) (i : ℕ) (probe : Bool) (o : Outcome) :
    streak (.ended i probe o :: older) =
      match verdict o with
      | .success => 0
      | .handled => streak older + 1
      | .unhandled => streak older := by
  cases o with
  | success => rfl
  | throws e => cases h : policy e <;> simp [streak, verdict, h]

/-- The events of an answer: the answer, and the breaker's opening if it opens. -/
theorem returned_log (opts : ResilienceOptions) (s : Decorator) (i : ℕ) (c : Call)
    (probe : Bool) (o : Outcome) :
    (s.returned opts i c probe o).log = .ended i probe o :: s.log ∨
    (s.returned opts i c probe o).log = .opened :: .ended i probe o :: s.log ∧
      (∃ e, o = .throws e ∧ policy e = true) ∧
      (probe = true ∨ opts.consecutiveFailures ≤ s.breaker.failures + 1) := by
  unfold Decorator.returned
  dsimp only
  split_ifs with hsame
  · exact .inl rfl
  split
  next since hopened =>
    rcases Breaker.opened_settle hopened with hbefore | ⟨hv, hfull⟩
    · exact absurd (hopened.trans hbefore.symm) hsame
    · exact .inr ⟨rfl, verdict_eq_handled.mp hv, hfull⟩
  · exact .inl rfl
  · exact .inl rfl

/-- What the record says of the breaker and of the calls answered with `NotSupportedError`. -/
structure Recorded (opts : ResilienceOptions) (s : Decorator) : Prop where
  counted : s.breaker.failures = streak s.log
  opens : Always (OpensDuly opts) s.log
  contract : ∀ i probe operation broker,
    .ended i probe (.throws (.notSupported operation broker)) ∈ s.log →
      ∃ c, s.calls[i]? = some c ∧ c.phase = .settled (.throws (.notSupported operation broker))

/-- **A step of the decorator**: time passes, a call is made, a waiting call goes on, or the adapter
answers a running one. -/
theorem step_cases {a : Act} (h : s.step opts a = some s') :
    (∃ ms, a = .tick ms ∧ s' = { s with now := s.now + ms }) ∨
    (a = .call ∧ s' = s.execute opts) ∨
    (∃ i c, a ≠ .call ∧ s.calls[i]? = some c ∧ (c.phase = .backingOff ∨ c.phase = .holding) ∧
      s' = s.again opts i c) ∨
    ∃ i c probe o, a ≠ .call ∧ s.calls[i]? = some c ∧ c.phase = .running probe ∧
      s' = s.returned opts i c probe o := by
  cases a with
  | tick ms => exact .inl ⟨ms, rfl, (Option.some.inj h).symm⟩
  | call => exact .inr (.inl ⟨rfl, (Option.some.inj h).symm⟩)
  | retry i =>
    simp only [Decorator.step] at h
    split at h
    next c hc =>
      obtain ⟨hphase, h⟩ := Option.ite_none_right_eq_some.mp h
      exact .inr (.inr (.inl ⟨i, c, nofun, hc, .inl hphase, (Option.some.inj h).symm⟩))
    · simp at h
  | resume i =>
    simp only [Decorator.step] at h
    split at h
    next c hc =>
      obtain ⟨⟨hphase, -⟩, h⟩ := Option.ite_none_right_eq_some.mp h
      exact .inr (.inr (.inl ⟨i, c, nofun, hc, .inr hphase, (Option.some.inj h).symm⟩))
    · simp at h
  | returns i o =>
    simp only [Decorator.step] at h
    split at h
    next c hc =>
      split at h
      next probe hphase =>
        exact .inr (.inr (.inr ⟨i, c, probe, o, nofun, hc, hphase, (Option.some.inj h).symm⟩))
      · simp at h
    · simp at h

/-! ## The invariants -/

theorem Recorded.set (h : Recorded opts s) {i : ℕ} {c : Call} (hc : s.calls[i]? = some c)
    (hlive : ∀ o, c.phase ≠ .settled o) (c' : Call) {j : ℕ} {probe : Bool}
    {operation broker : String}
    (hlog : .ended j probe (.throws (.notSupported operation broker)) ∈ s.log) :
    ∃ d, (s.calls.set i c')[j]? = some d ∧
      d.phase = .settled (.throws (.notSupported operation broker)) := by
  obtain ⟨d, hd, hphase⟩ := h.contract j probe operation broker hlog
  by_cases hij : i = j
  · subst hij
    obtain rfl : c = d := Option.some.inj (hc.symm.trans hd)
    exact absurd hphase (hlive _)
  · exact ⟨d, by rwa [List.getElem?_set_ne hij], hphase⟩

theorem Recorded.execute (h : Recorded opts s) : Recorded opts (s.execute opts) := by
  refine ⟨?_, h.opens, ?_⟩
  · exact Breaker.failures_arrive.trans h.counted
  · intro i probe operation broker hlog
    obtain ⟨c, hc, hphase⟩ := h.contract i probe operation broker hlog
    refine ⟨c, ?_, hphase⟩
    rw [Decorator.execute, List.getElem?_append_left (List.getElem?_eq_some_iff.mp hc).1, hc]

theorem Recorded.again (h : Recorded opts s) {i : ℕ} {c : Call} (hc : s.calls[i]? = some c)
    (hwait : c.phase = .backingOff ∨ c.phase = .holding) : Recorded opts (s.again opts i c) := by
  refine ⟨?_, h.opens, ?_⟩
  · exact Breaker.failures_arrive.trans h.counted
  · intro j probe operation broker hlog
    refine h.set hc (fun o ho => ?_) _ hlog
    rw [ho] at hwait
    simp at hwait

theorem finish_notSupported (c : Call) (operation broker : String) :
    (finish opts c (.throws (.notSupported operation broker))).phase =
      .settled (.throws (.notSupported operation broker)) := by
  simp [finish, policy]

theorem Recorded.returned (h : Recorded opts s) {i : ℕ} {c : Call} {probe : Bool}
    (hc : s.calls[i]? = some c) (hrun : c.phase = .running probe) (o : Outcome) :
    Recorded opts (s.returned opts i c probe o) := by
  have hlive : ∀ o, c.phase ≠ .settled o := by simp [hrun]
  have hcount : (s.returned opts i c probe o).breaker.failures =
      streak (.ended i probe o :: s.log) := by
    rw [streak_ended, ← h.counted]
    exact Breaker.failures_settle probe (verdict o)
  have hmine : ∃ d, (s.calls.set i (finish opts c o))[i]? = some d ∧ d = finish opts c o := by
    refine ⟨_, ?_, rfl⟩
    rw [List.getElem?_set_self (List.getElem?_eq_some_iff.mp hc).1]
  -- what is new in the record is the answer, and perhaps the opening
  have hnew : ∀ e ∈ (s.returned opts i c probe o).log,
      e = .opened ∨ e = .ended i probe o ∨ e ∈ s.log := by
    intro e he
    rcases returned_log opts s i c probe o with hlog | ⟨hlog, -⟩
    · exact .inr (List.mem_cons.mp (hlog ▸ he))
    · exact (List.mem_cons.mp (hlog ▸ he)).imp_right List.mem_cons.mp
  refine ⟨?_, ?_, ?_⟩
  · rcases returned_log opts s i c probe o with hlog | ⟨hlog, -⟩
    · rw [hlog, hcount]
    · rw [hlog, hcount, streak]
  · rcases returned_log opts s i c probe o with hlog | ⟨hlog, ⟨e, rfl, he⟩, hfull⟩
    · rw [hlog]
      exact ⟨nofun, h.opens⟩
    · rw [hlog]
      refine ⟨fun _ => ⟨i, probe, e, s.log, rfl, he, ?_⟩, nofun, h.opens⟩
      rwa [streak, if_pos he, ← h.counted]
  · intro j probe' operation broker hmem
    rcases hnew _ hmem with heq | heq | hmem
    · simp at heq
    · obtain ⟨rfl, rfl, rfl⟩ : j = i ∧ probe' = probe ∧ _ = o := by simpa using heq
      obtain ⟨d, hd, rfl⟩ := hmine
      exact ⟨_, hd, finish_notSupported c operation broker⟩
    · exact h.set hc hlive _ hmem

@[simp] theorem madeOpen_finish (c : Call) (o : Outcome) :
    (finish opts c o).madeOpen = c.madeOpen := by
  rcases finish_cases opts c o with ⟨heq, -⟩ | ⟨-, -, heq⟩ <;> rw [heq]

@[simp] theorem madeOpen_attempt (c : Call) (e : Breaker.Entry) :
    (attempt opts c e).madeOpen = c.madeOpen := by
  cases e with
  | reject => exact madeOpen_finish c _
  | _ => rfl

/-- Every call is within its bounds, and the record is true. -/
structure Inv (opts : ResilienceOptions) (s : Decorator) : Prop where
  bounded : ∀ c ∈ s.calls, Bounded opts c
  recorded : Recorded opts s

theorem inv_init : Inv opts {} where
  bounded := by simp
  recorded := ⟨rfl, trivial, by simp⟩

theorem Inv.step (h : Inv opts s) {a : Act} (hstep : s.step opts a = some s') : Inv opts s' := by
  rcases step_cases hstep with ⟨ms, -, rfl⟩ | ⟨-, rfl⟩ | ⟨i, c, -, hc, hwait, rfl⟩ |
    ⟨i, c, probe, o, -, hc, hrun, rfl⟩
  · exact ⟨h.bounded, h.recorded.counted, h.recorded.opens, h.recorded.contract⟩
  · refine ⟨?_, h.recorded.execute⟩
    intro c hc
    rcases List.mem_append.mp hc with hc | hc
    · exact h.bounded c hc
    · obtain rfl := List.mem_singleton.mp hc
      exact bounded_new opts s
  · refine ⟨?_, h.recorded.again hc hwait⟩
    intro d hd
    rcases List.mem_or_eq_of_mem_set hd with hd | rfl
    · exact h.bounded d hd
    · exact (h.bounded c (List.mem_of_getElem? hc)).attempt hwait _
  · refine ⟨?_, h.recorded.returned hc hrun o⟩
    intro d hd
    have hbounded := h.bounded c (List.mem_of_getElem? hc)
    rcases List.mem_or_eq_of_mem_set hd with hd | rfl
    · exact h.bounded d hd
    · refine hbounded.finish o fun hopen => ?_
      by_contra hzero
      obtain ⟨-, hphase⟩ := hbounded.spared hopen (by omega)
      rw [hrun] at hphase
      simp at hphase

theorem inv_of_reach (h : Reach (machine opts) s) : Inv opts s := by
  refine h.invariant ?_ fun s a s' _ ih _ hstep => ih.step hstep
  intro s hs
  obtain rfl : s = {} := hs
  exact inv_init

theorem madeOpen_step {a : Act} (hstep : s.step opts a = some s') :
    (∃ c ∈ s'.calls, c.madeOpen = true) ↔
      (∃ c ∈ s.calls, c.madeOpen = true) ∨ a = .call ∧ s.Open opts := by
  have hset : ∀ i c c', s.calls[i]? = some c → c'.madeOpen = c.madeOpen →
      ((∃ d ∈ s.calls.set i c', d.madeOpen = true) ↔ ∃ d ∈ s.calls, d.madeOpen = true) := by
    intro i c c' hc hsame
    have hmap : (s.calls.set i c').map Call.madeOpen = s.calls.map Call.madeOpen := by
      obtain ⟨hi, rfl⟩ := List.getElem?_eq_some_iff.mp hc
      rw [List.map_set, hsame, ← List.getElem_map Call.madeOpen (h := by simpa using hi)]
      exact List.set_getElem_self _
    rw [← List.mem_map, ← List.mem_map, hmap]
  rcases step_cases hstep with ⟨ms, rfl, rfl⟩ | ⟨rfl, rfl⟩ | ⟨i, c, hcall, hc, hwait, rfl⟩ |
    ⟨i, c, probe, o, hcall, hc, hrun, rfl⟩
  · simp
  · simp [Decorator.execute, List.mem_append, or_and_right, exists_or]
  · rw [Decorator.again, hset i c _ hc (madeOpen_attempt c _)]
    simp [hcall]
  · rw [Decorator.returned, hset i c _ hc (madeOpen_finish c _)]
    simp [hcall]

theorem unflagged_of_spared (h : ReachIf (machine opts) (Spared opts) s) :
    opts.maxRetryAttempts = 0 ∨ ¬∃ c ∈ s.calls, c.madeOpen = true := by
  induction h with
  | init hinit =>
    obtain rfl := hinit
    exact .inr (by simp)
  | @step s s' a _ hok hstep ih =>
    by_cases hmax : opts.maxRetryAttempts = 0
    · exact .inl hmax
    right
    rw [madeOpen_step hstep, not_or]
    refine ⟨ih.resolve_left hmax, ?_⟩
    rintro ⟨rfl, hopen⟩
    exact hok.elim hmax fun hclosed => hclosed hopen

/-- **The decorator fails fast exactly in the runs that make no call while the breaker is open**, or
never retry. -/
theorem failsFast_iff (h : Reach (machine opts) s) :
    FailsFast opts s ↔ ReachIf (machine opts) (Spared opts) s := by
  have hinv := inv_of_reach h
  constructor
  · intro hfast
    by_cases hmax : opts.maxRetryAttempts = 0
    · refine h.mono fun s a _ => ?_
      cases a with
      | call => exact .inl hmax
      | _ => trivial
    -- with retries to spare, a call made while the breaker is open is retried
    have hnone : ¬∃ c ∈ s.calls, c.madeOpen = true := by
      rintro ⟨c, hc, hopen⟩
      have hpos := (hinv.bounded c hc).retried hopen (Nat.pos_of_ne_zero hmax)
      exact hpos.ne' (hfast.rejected c hc hopen).1
    clear hfast hinv
    induction h with
    | init hinit => exact .init hinit
    | @step s s' a _ _ hstep ih =>
      rw [madeOpen_step hstep, not_or] at hnone
      refine .step (ih hnone.1) ?_ hstep
      cases a with
      | call => exact .inr fun hopen => hnone.2 ⟨rfl, hopen⟩
      | _ => trivial
  · intro hspared
    have hopen := unflagged_of_spared hspared
    refine ⟨fun c hc => ?_, hinv.recorded.contract, hinv.recorded.counted, hinv.recorded.opens, ?_⟩
    · have hbounded := hinv.bounded c hc
      exact hbounded.invocations_le.trans (Nat.succ_le_succ hbounded.attempt_le)
    · intro c hc hflag
      rcases hopen with hmax | hnone
      · exact (hinv.bounded c hc).spared hflag hmax
      · exact absurd ⟨c, hc, hflag⟩ hnone

/-! ## Two runs -/

instance (s : Decorator) (a : Act) : Decidable (Spared opts s a) :=
  match a with
  | .call => inferInstanceAs (Decidable (opts.maxRetryAttempts = 0 ∨ ¬s.Open opts))
  | .tick _ | .retry _ | .resume _ | .returns .. => .isTrue trivial

/-- A blip, absorbed by a retry before the next call is made. -/
def blip : List Act :=
  [.call, .returns 0 (.throws (.other "down")), .retry 0, .returns 0 .success, .call,
    .returns 1 (.throws (.notSupported "cancel" "RabbitMQ"))]

theorem failsFast_blip :
    FailsFast ⟨1, 2, 1000⟩ (play (Decorator.step ⟨1, 2, 1000⟩) {} blip) :=
  (failsFast_iff (reach_play (S := machine ⟨1, 2, 1000⟩) (fun _ _ _ => id) rfl blip)).mpr
    (reachIf_play (fun _ _ _ => id) rfl blip (by decide))

/-- The first error opens the breaker, and the second call is made while it is open. -/
def outage : List Act :=
  [.call, .returns 0 (.throws (.other "down")), .call]

/-- **The open breaker's own error is retried.** -/
theorem outage_retried :
    Reach (machine ⟨1, 1, 1000⟩) (play (Decorator.step ⟨1, 1, 1000⟩) {} outage) ∧
      ¬FailsFast ⟨1, 1, 1000⟩ (play (Decorator.step ⟨1, 1, 1000⟩) {} outage) := by
  constructor
  · exact reach_play (fun _ _ _ => id) rfl outage
  · intro hfast
    have hrejected := hfast.rejected
      { attempt := 1, phase := .backingOff, madeOpen := true } (by decide) rfl
    exact absurd hrejected.1 (by decide)

end MessagingPoc.Resilience
