import MessagingPoc.Abstractions
import MessagingPoc.Lib.InsertionSet
import MessagingPoc.Lib.Ledger
import Mathlib.Logic.Function.Basic

/-!
# The .NET `InMemoryScheduler`: cancel against fire

`InMemoryScheduler.cs`, one atomic step per access to shared state. A scheduled message goes
through its phases on its own: its id is drawn, its entry stored, its delay armed; the delay
completes or is cancelled, and only later does its continuation run. `CancelAsync` and
`DisposeAsync` take entries out of the table and cancel tokens, in separate steps.

**Three checks, no winner.** `CancelAsync` asks the table, the delay asks its token, and the
continuation asks whether the delay was cancelled; none asks what another one answered. The
continuation even drops the result of its own `TryRemove`. `oneAtATime` excludes the windows this
leaves open, and the two other ways to lose an entry: a reused id, and a delay .NET refuses.

`history` is ghost state, newest first. Time is not modelled: an armed delay may complete at any
moment, and the clock a call reads is an input of the step.
-/

namespace MessagingPoc.NetScheduler

open Machine

/-! ## State -/

/-- A row of the pending table; `cts` is the identity of the token source, one for each call. -/
structure Pending where
  id : String
  destination : String
  body : String
  deliverAt : Int
  cts : Nat
deriving DecidableEq

def Pending.info (p : Pending) : ScheduledInfo := ⟨p.id, p.destination, p.deliverAt⟩

/-- How far a scheduled message has come. -/
inductive Phase
  /-- Its id is drawn. -/
  | numbered
  /-- Its entry is in the table. -/
  | stored
  /-- `Task.Delay` refused the delay: the call threw. -/
  | threw
  | waiting
  /-- The delay has completed; its continuation has not run yet. -/
  | completed
  | canceled
  | continued
deriving DecidableEq, Repr

/-- A call of `ScheduleAsync`: its entry, and the delay in whole milliseconds. -/
structure Call where
  entry : Pending
  ms : Nat
  phase : Phase
deriving DecidableEq

/-- Why a message is not scheduled any more. -/
inductive Fate
  /-- `CancelAsync` or `DisposeAsync` took its entry out of the table. -/
  | cancelled
  /-- Its continuation went on to dispatch. -/
  | dispatched
deriving DecidableEq, Repr

abbrev Event := Ledger.Entry Pending Fate

/-- One atomic step a call still has to take. -/
inductive Instr
  /-- `Cts.Cancel` on the token of `n`. -/
  | cancel (n : Nat)
  /-- `_pending.Clear`. -/
  | clear
  /-- `_handlers.Clear`. -/
  | clearHandlers
  | dispatch (destination body : String)
deriving DecidableEq

structure State where
  handlers : String → Option Nat := fun _ => none
  /-- The heap of handler sets. -/
  handlerSet : Nat → InsertionSet MessageHandler := fun _ => .empty
  nextSet : Nat := 0
  pending : AList (fun _ : String => Pending) := ∅
  seq : Int32 := 0
  calls : Nat → Option Call := fun _ => none
  nextCts : Nat := 0
  /-- `IsCancellationRequested` of each token. -/
  cancelRequested : Nat → Bool := fun _ => false
  subscriptions : List (Nat × MessageHandler) := []
  threads : List (List Instr) := []
  /-- The tasks `Dispatch` has started: a message and the handlers it goes to. -/
  tasks : List (ReceivedMessage × List MessageHandler) := []
  history : List Event := []

namespace State

def record (s : State) (events : List Event) : State := { s with history := events ++ s.history }

/-- Move the call of `n` on to a phase. -/
def move (s : State) (n : Nat) (c : Call) (phase : Phase) : State :=
  { s with calls := Function.update s.calls n (some { c with phase := phase }) }

def spawn (s : State) (thread : List Instr) : State := { s with threads := s.threads ++ [thread] }

/-! ## `ScheduleAsync` -/

/-- `Timer.MaxSupportedTimeout`, in milliseconds. -/
def maxSupportedTimeout : Nat := 4294967294

/-- The delay until an instant, never negative. Instants are ticks of 100 ns. -/
def delayMs (deliverAt now : Int) : Nat := (deliverAt - now).toNat / 10000

/-- Draw an id, read the clock, and make the entry. -/
def schedule (s : State) (destination payload : String) (deliverAt now : Int) : State :=
  let entry : Pending := ⟨s!"mem-{s.seq + 1}", destination, payload, deliverAt, s.nextCts⟩
  { s with
    seq := s.seq + 1
    nextCts := s.nextCts + 1
    calls := Function.update s.calls s.nextCts
      (some ⟨entry, delayMs deliverAt now, .numbered⟩) }

/-- `_pending[id] = pending`. -/
def store (s : State) (n : Nat) (c : Call) : State :=
  ({ s with pending := s.pending.insert c.entry.id c.entry }.move n c .stored).record
    [.opened c.entry]

/-- What `Task.Delay` makes of a delay and a token. -/
def delayed (s : State) (n : Nat) (c : Call) : Phase :=
  if maxSupportedTimeout < c.ms then .threw
  else if s.cancelRequested n then .canceled
  else if c.ms = 0 then .completed
  else .waiting

/-- The continuation of a completed delay, up to `Dispatch`: the result of `TryRemove` is dropped.
-/
def fire (s : State) (n : Nat) (c : Call) : State :=
  (({ s with pending := s.pending.erase c.entry.id }.move n c .continued).record
    [.closed c.entry .dispatched]).spawn [.dispatch c.entry.destination c.entry.body]

/-! ## `CancelAsync`, `ListScheduledAsync`, `DisposeAsync` -/

/-- The `TryRemove` of `CancelAsync`; `Cts.Cancel` follows when it found an entry. -/
def cancelAsync (s : State) (id : String) : State :=
  match s.pending.lookup id with
  | none => s
  | some p =>
    ({ s with pending := s.pending.erase id }.record [.closed p .cancelled]).spawn [.cancel p.cts]

/-- `_pending.Values`. -/
def values (s : State) : List Pending := s.pending.entries.map Sigma.snd

def listScheduled (s : State) (destination : String) : List ScheduledInfo :=
  (s.values.filter (·.destination = destination)).map Pending.info

/-- The enumeration of `DisposeAsync`, which takes a snapshot; all else follows. -/
def disposeAsync (s : State) : State :=
  s.spawn (s.values.map (fun p : Pending => .cancel p.cts) ++ [.clear, .clearHandlers])

/-! ## Handlers -/

/-- `ConsumeAsync`: `GetOrAdd` the handler set of the destination, and add to it. -/
def consume (s : State) (destination : String) (handler : MessageHandler) : State :=
  match s.handlers destination with
  | some set =>
    { s with
      handlerSet := Function.update s.handlerSet set ((s.handlerSet set).add handler)
      subscriptions := s.subscriptions ++ [(set, handler)] }
  | none =>
    { s with
      handlers := Function.update s.handlers destination (some s.nextSet)
      handlerSet := Function.update s.handlerSet s.nextSet (InsertionSet.empty.add handler)
      nextSet := s.nextSet + 1
      subscriptions := s.subscriptions ++ [(s.nextSet, handler)] }

/-- `Dispatch`: number the message, copy the targets and start the task that calls them. -/
def dispatch (s : State) (destination body : String) : State :=
  let message : ReceivedMessage := ⟨s!"mem-msg-{s.seq + 1}", destination, body, []⟩
  let s := { s with seq := s.seq + 1 }
  match s.handlers destination with
  | none => s
  | some set => { s with tasks := s.tasks ++ [(message, (s.handlerSet set).items)] }

/-! ## Steps of the threads -/

/-- `Cts.Cancel`: a delay that still waits is cancelled. -/
def cancelToken (s : State) (n : Nat) : State :=
  let s := { s with cancelRequested := Function.update s.cancelRequested n true }
  match s.calls n with
  | some c => if c.phase = .waiting then s.move n c .canceled else s
  | none => s

def exec (s : State) : Instr → State
  | .cancel n => s.cancelToken n
  | .clear =>
    { s with pending := ∅ }.record
      (s.values.map fun p => Ledger.Entry.closed p Fate.cancelled).reverse
  | .clearHandlers => { s with handlers := fun _ => none }
  | .dispatch destination body => s.dispatch destination body

end State

/-! ## The machine -/

inductive Label
  | schedule (destination payload : String) (deliverAt now : Int)
  /-- The call of `n` stores its entry. -/
  | store (n : Nat)
  /-- The call of `n` reaches `Task.Delay`. -/
  | delay (n : Nat)
  /-- The delay of `n` elapses. -/
  | elapse (n : Nat)
  /-- The continuation of `n` runs. -/
  | continuation (n : Nat)
  | cancelAsync (id : String)
  | disposeAsync
  | sendNow (destination payload : String)
  | consume (destination : String) (handler : MessageHandler)
  | unsubscribe (subscription : Nat)
  /-- A thread takes its next step. -/
  | run (thread : Nat)
deriving DecidableEq

namespace State

def step (s : State) : Label → Option State
  | .schedule destination payload deliverAt now =>
    some (s.schedule destination payload deliverAt now)
  | .store n =>
    match s.calls n with
    | some c => if c.phase = .numbered then some (s.store n c) else none
    | none => none
  | .delay n =>
    match s.calls n with
    | some c => if c.phase = .stored then some (s.move n c (s.delayed n c)) else none
    | none => none
  | .elapse n =>
    match s.calls n with
    | some c => if c.phase = .waiting then some (s.move n c .completed) else none
    | none => none
  | .continuation n =>
    match s.calls n with
    | some c =>
      if c.phase = .completed then some (s.fire n c)
      else if c.phase = .canceled then some (s.move n c .continued)
      else none
    | none => none
  | .cancelAsync id => some (s.cancelAsync id)
  | .disposeAsync => some s.disposeAsync
  | .sendNow destination payload => some (s.spawn [.dispatch destination payload])
  | .consume destination handler => some (s.consume destination handler)
  | .unsubscribe k =>
    s.subscriptions[k]?.map fun t =>
      { s with handlerSet := Function.update s.handlerSet t.1 ((s.handlerSet t.1).erase t.2) }
  | .run i =>
    match s.threads[i]? with
    | some (instr :: rest) => some { s.exec instr with threads := s.threads.set i rest }
    | _ => none

end State

/-- The scheduler under every interleaving of its steps. -/
def machine : System State Label where
  init s := s = {}
  step s l s' := s.step l = some s'

theorem machine_step {s s' : State} {l : Label} : machine.step s l s' ↔ s.step l = some s' :=
  Iff.rfl

theorem mem_values {s : State} {p : Pending} :
    p ∈ s.values ↔ ∃ id, s.pending.lookup id = some p := Table.mem_values

/-- The table, and what was scheduled and settled. -/
def State.ledger (s : State) : Ledger String Pending Fate := ⟨s.pending, s.history⟩

abbrev ledgerMachine : Machine.System (Ledger String Pending Fate) (Ledger.Act Pending Fate) :=
  Ledger.machine Pending.id

/-! ## Calls and their entries -/

/-- Entries are stored by their calls, and one whose delay has completed is still in the table. -/
structure Sound (s : State) : Prop where
  own : ∀ n c, s.calls n = some c → c.entry.cts = n
  fresh : ∀ n, s.nextCts ≤ n → s.calls n = none
  opened : ∀ p, .opened p ∈ s.history ↔
    ∃ c, s.calls p.cts = some c ∧ c.entry = p ∧ c.phase ≠ .numbered
  completed : ∀ n c, s.calls n = some c → c.phase = .completed →
    s.pending.lookup c.entry.id = some c.entry

namespace Sound

variable {s s' : State}

theorem frame (h : Sound s) (hcalls : s'.calls = s.calls) (hnext : s'.nextCts = s.nextCts)
    (hpending : s'.pending = s.pending) (hhistory : s'.history = s.history) : Sound s' := by
  obtain ⟨own, fresh, opened, completed⟩ := h
  constructor <;> simp only [hcalls, hnext, hpending, hhistory] <;> assumption

theorem move (h : Sound s) {n : Nat} {c : Call} {phase : Phase} (hc : s.calls n = some c)
    (hphase : c.phase ≠ .numbered) (hphase' : phase ≠ .numbered)
    (hcompleted : phase = .completed → s.pending.lookup c.entry.id = some c.entry) :
    Sound (s.move n c phase) := by
  have hlookup : ∀ x, (s.move n c phase).calls x =
      if x = n then some { c with phase := phase } else s.calls x := fun x =>
    Function.update_apply ..
  refine ⟨?_, ?_, ?_, ?_⟩
  · intro x c' hx
    rw [hlookup] at hx
    split_ifs at hx with hxn
    · cases hx
      rw [hxn]
      exact h.own n c hc
    · exact h.own x c' hx
  · intro x hx
    rw [hlookup]
    split_ifs with hxn
    · have hnone := h.fresh x hx
      rw [hxn, hc] at hnone
      cases hnone
    · exact h.fresh x hx
  · intro p
    refine (h.opened p).trans ?_
    rw [hlookup]
    split_ifs with hp
    · rw [hp, hc]
      simp [hphase, hphase']
    · rfl
  · intro x c' hx hcomp
    rw [hlookup] at hx
    split_ifs at hx
    · cases hx
      exact hcompleted hcomp
    · exact h.completed x c' hx hcomp

theorem schedule (h : Sound s) (destination payload : String) (deliverAt now : Int) :
    Sound (s.schedule destination payload deliverAt now) := by
  have hlookup : ∀ {x c}, (s.schedule destination payload deliverAt now).calls x = some c →
      (x = s.nextCts ∧ c.entry.cts = s.nextCts ∧ c.phase = .numbered) ∨ s.calls x = some c := by
    intro x c hx
    simp only [State.schedule, Function.update_apply] at hx
    split_ifs at hx with hxn
    · cases hx
      exact .inl ⟨hxn, rfl, rfl⟩
    · exact .inr hx
  have hold : ∀ {x c}, s.calls x = some c →
      (s.schedule destination payload deliverAt now).calls x = some c := by
    intro x c hx
    have hne : x ≠ s.nextCts := by
      intro heq
      rw [h.fresh x heq.ge] at hx
      cases hx
    simp only [State.schedule, Function.update_of_ne hne, hx]
  refine ⟨?_, ?_, ?_, ?_⟩
  · intro x c hx
    rcases hlookup hx with ⟨rfl, hcts, -⟩ | hx
    · exact hcts
    · exact h.own x c hx
  · intro x hx
    have hlt : s.nextCts < x := hx
    simp only [State.schedule, Function.update_of_ne hlt.ne']
    exact h.fresh x hlt.le
  · intro p
    refine (h.opened p).trans ⟨fun hp => ?_, fun hp => ?_⟩
    · obtain ⟨c, hc, hrest⟩ := hp
      exact ⟨c, hold hc, hrest⟩
    · obtain ⟨c, hc, hrest⟩ := hp
      rcases hlookup hc with ⟨-, -, hphase⟩ | hc
      · exact absurd hphase hrest.2
      · exact ⟨c, hc, hrest⟩
  · intro x c hx hcomp
    rcases hlookup hx with ⟨-, -, hphase⟩ | hx
    · rw [hphase] at hcomp
      cases hcomp
    · exact h.completed x c hx hcomp

theorem unopened (h : Sound s) {n : Nat} {c : Call} (hc : s.calls n = some c)
    (hphase : c.phase = .numbered) : .opened c.entry ∉ s.history := by
  intro hmem
  obtain ⟨c', hc', -, hphase'⟩ := (h.opened c.entry).mp hmem
  rw [h.own n c hc, hc] at hc'
  cases hc'
  exact hphase' hphase

theorem store (h : Sound s) {n : Nat} {c : Call} (hc : s.calls n = some c)
    (hphase : c.phase = .numbered) (hfree : s.pending.lookup c.entry.id = none) :
    Sound (s.store n c) := by
  have hcts : c.entry.cts = n := h.own n c hc
  have hlookup : ∀ x, (s.store n c).calls x =
      if x = n then some { c with phase := .stored } else s.calls x := fun x =>
    Function.update_apply ..
  refine ⟨?_, ?_, ?_, ?_⟩
  · intro x c' hx
    rw [hlookup] at hx
    split_ifs at hx with hxn
    · cases hx
      rw [hxn]
      exact hcts
    · exact h.own x c' hx
  · intro x hx
    rw [hlookup]
    split_ifs with hxn
    · have hnone := h.fresh x hx
      rw [hxn, hc] at hnone
      cases hnone
    · exact h.fresh x hx
  · intro p
    show .opened p ∈ .opened c.entry :: s.history ↔ _
    rw [List.mem_cons, hlookup, h.opened p]
    split_ifs with hp
    · rw [hp, hc]
      simp [hphase, eq_comm]
    · refine or_iff_right fun heq => ?_
      cases heq
      exact hp hcts
  · intro x c' hx hcomp
    show (s.pending.insert c.entry.id c.entry).lookup _ = _
    rw [hlookup] at hx
    split_ifs at hx
    · cases hx
      cases hcomp
    · have hrow := h.completed x c' hx hcomp
      rw [Table.lookup_insert]
      split_ifs with hid
      · rw [← hid, hfree] at hrow
        cases hrow
      · exact hrow

/-- Rows are taken out of the table, none of them of a delay that has completed. -/
theorem settle (h : Sound s) (hcalls : s'.calls = s.calls) (hnext : s'.nextCts = s.nextCts)
    (hhistory : ∀ p, .opened p ∈ s'.history ↔ .opened p ∈ s.history)
    (hrows : ∀ n c, s.calls n = some c → c.phase = .completed →
      s.pending.lookup c.entry.id = some c.entry → s'.pending.lookup c.entry.id = some c.entry) :
    Sound s' := by
  refine ⟨by rw [hcalls]; exact h.own, by rw [hcalls, hnext]; exact h.fresh, fun p => ?_, ?_⟩
  · rw [hhistory, hcalls]
    exact h.opened p
  · rw [hcalls]
    exact fun n c hc hcomp => hrows n c hc hcomp (h.completed n c hc hcomp)

end Sound

/-! ## The condition -/

/-- No entry overwrites another one, no delay is one that .NET refuses, no delay completes once its
entry has been taken out of the table, and no entry is taken out between the completion of its delay
and its continuation. -/
def oneAtATime (s : State) : Label → Prop
  | .store n => ∀ c ∈ s.calls n, s.pending.lookup c.entry.id = none
  | .delay n => ∀ c ∈ s.calls n, c.ms ≤ State.maxSupportedTimeout ∧
      (s.delayed n c = .completed → s.pending.lookup c.entry.id = some c.entry)
  | .elapse n => ∀ c ∈ s.calls n, s.pending.lookup c.entry.id = some c.entry
  | .cancelAsync id => ∀ p ∈ s.pending.lookup id, ∀ c ∈ s.calls p.cts, c.phase ≠ .completed
  | .run i => ∀ instr ∈ s.threads[i]?.bind List.head?, instr = .clear →
      ∀ p ∈ s.values, ∀ c ∈ s.calls p.cts, c.phase ≠ .completed
  | _ => True

instance (s : State) (l : Label) : Decidable (oneAtATime s l) := by
  unfold oneAtATime
  induction l using Label.casesOn <;> infer_instance

/-- A row that is taken out leaves the rows of other calls. -/
theorem Sound.kept {s : State} (h : Sound s) {id : String} {p : Pending}
    (hp : s.pending.lookup id = some p) (hphase : ∀ c ∈ s.calls p.cts, c.phase ≠ .completed)
    {n : Nat} {c : Call} (hc : s.calls n = some c) (hcomp : c.phase = .completed)
    (hrow : s.pending.lookup c.entry.id = some c.entry) :
    (s.pending.erase id).lookup c.entry.id = some c.entry := by
  refine Table.lookup_erase_eq_some.mpr ⟨fun hid => ?_, hrow⟩
  rw [← hid, hp] at hrow
  refine hphase c ?_ hcomp
  rw [Option.some.inj hrow, h.own n c hc]
  exact hc

/-- The continuation of a completed delay takes out the row its message still has. -/
theorem keeps_fire {s : State} (ih : Sound s) (hledger : Reach ledgerMachine s.ledger) {n : Nat}
    {c : Call} (hc : s.calls n = some c) (hphase : c.phase = .completed) :
    Sound (s.fire n c) ∧ Reach ledgerMachine (s.fire n c).ledger := by
  have hrow := ih.completed n c hc hphase
  have hclose : ledgerMachine.step s.ledger (.close c.entry .dispatched) (s.fire n c).ledger :=
    .close hrow
  have hmoved : Sound (s.move n c .continued) :=
    ih.move hc (by rw [hphase]; simp) (by simp) (by simp)
  refine ⟨hmoved.settle rfl rfl (fun p => ?_) fun n' c' hc' hcomp hrow' => ?_,
    hledger.step trivial hclose⟩
  · show _ ∈ Ledger.Entry.closed _ _ :: s.history ↔ _
    simp [State.move]
  · refine hmoved.kept (p := c.entry) hrow (fun d hd => ?_) hc' hcomp hrow'
    rw [ih.own n c hc] at hd
    simp only [State.move, Function.update_self, Option.mem_some_iff] at hd
    rw [← hd]
    simp

theorem keeps_cancelAsync {s : State} (ih : Sound s) (hledger : Reach ledgerMachine s.ledger)
    {id : String}
    (hok : ∀ p ∈ s.pending.lookup id, ∀ c ∈ s.calls p.cts, c.phase ≠ .completed) :
    Sound (s.cancelAsync id) ∧ Reach ledgerMachine (s.cancelAsync id).ledger := by
  unfold State.cancelAsync
  cases hp : s.pending.lookup id with
  | none => exact ⟨ih, hledger⟩
  | some p =>
    obtain rfl : p.id = id := (((Ledger.balanced hledger).rows id p).mp hp).1
    have hclose : ledgerMachine.step s.ledger (.close p .cancelled)
      ⟨s.pending.erase p.id, .closed p .cancelled :: s.history⟩ := .close hp
    refine ⟨ih.settle rfl rfl (fun p' => ?_) fun n c hc => ih.kept hp (hok p hp) hc,
      hledger.step trivial hclose⟩
    show _ ∈ Ledger.Entry.closed _ _ :: s.history ↔ _
    simp

theorem keeps_cancelToken {s : State} (ih : Sound s) (hledger : Reach ledgerMachine s.ledger)
    (n : Nat) : Sound (s.cancelToken n) ∧ Reach ledgerMachine (s.cancelToken n).ledger := by
  have hframe : Sound { s with
      cancelRequested := Function.update s.cancelRequested n true } :=
    ih.frame rfl rfl rfl rfl
  unfold State.cancelToken
  simp only
  split
  · rename_i c hc
    split_ifs with hphase
    · exact ⟨hframe.move hc (by rw [hphase]; simp) (by simp) (by simp), hledger⟩
    · exact ⟨hframe, hledger⟩
  · exact ⟨hframe, hledger⟩

/-- A step of a thread. A table is cleared only while it has no row of a completed delay. -/
theorem keeps_exec {s : State} (ih : Sound s) (hledger : Reach ledgerMachine s.ledger)
    {instr : Instr}
    (hok : instr = .clear → ∀ p ∈ s.values, ∀ c ∈ s.calls p.cts, c.phase ≠ .completed) :
    Sound (s.exec instr) ∧ Reach ledgerMachine (s.exec instr).ledger := by
  cases instr with
  | cancel n => exact keeps_cancelToken ih hledger n
  | clear =>
    refine ⟨ih.settle rfl rfl (fun p => ?_) fun n c hc hcomp hrow => ?_,
      hledger.extend (Ledger.run_closeAll hledger .cancelled)⟩
    · show _ ∈ (s.values.map (Ledger.Entry.closed · .cancelled)).reverse ++ s.history ↔ _
      simp
    · refine absurd hcomp (hok rfl c.entry (mem_values.mpr ⟨_, hrow⟩) c ?_)
      rw [ih.own n c hc]
      exact hc
  | clearHandlers => exact ⟨ih.frame rfl rfl rfl rfl, hledger⟩
  | dispatch destination body =>
    show Sound (s.dispatch destination body) ∧ Reach ledgerMachine (s.dispatch ..).ledger
    unfold State.dispatch
    simp only
    split <;> exact ⟨ih.frame rfl rfl rfl rfl, hledger⟩

/-- **The scheduler keeps a ledger**: along runs that take one at a time, its table and its history
are a ledger, in which a message is opened when its entry is stored. -/
theorem keeps_ledger {s : State} (h : ReachIf machine oneAtATime s) :
    Sound s ∧ Reach ledgerMachine s.ledger := by
  refine h.invariant (I := fun s => Sound s ∧ Reach ledgerMachine s.ledger) (fun s hs => ?_)
    fun s l s' _ ih hok hstep => ?_
  · obtain rfl : s = {} := hs
    exact ⟨⟨by simp, by simp, by simp, by simp⟩, .init ⟨rfl, rfl⟩⟩
  obtain ⟨ih, hledger⟩ := ih
  have hs := machine_step.mp hstep
  cases l with
  | schedule destination payload deliverAt now =>
    cases hs
    exact ⟨ih.schedule destination payload deliverAt now, hledger⟩
  | store n =>
    simp only [State.step] at hs
    split at hs
    · rename_i c hc
      split_ifs at hs with hphase
      cases hs
      have hfree := hok c hc
      exact ⟨ih.store hc hphase hfree,
        hledger.step trivial (.open (r := c.entry) hfree (ih.unopened hc hphase))⟩
    · cases hs
  | delay n =>
    simp only [State.step] at hs
    split at hs
    · rename_i c hc
      split_ifs at hs with hphase
      cases hs
      obtain ⟨-, hrow⟩ := hok c hc
      refine ⟨ih.move hc (by rw [hphase]; simp) ?_ hrow, hledger⟩
      unfold State.delayed
      split_ifs <;> simp
    · cases hs
  | elapse n =>
    simp only [State.step] at hs
    split at hs
    · rename_i c hc
      split_ifs at hs with hphase
      cases hs
      exact ⟨ih.move hc (by rw [hphase]; simp) (by simp) fun _ => hok c hc, hledger⟩
    · cases hs
  | continuation n =>
    simp only [State.step] at hs
    split at hs
    · rename_i c hc
      split_ifs at hs with hphase hphase'
      · cases hs
        exact keeps_fire ih hledger hc hphase
      · cases hs
        exact ⟨ih.move hc (by rw [hphase']; simp) (by simp) (by simp), hledger⟩
    · cases hs
  | cancelAsync id =>
    cases hs
    exact keeps_cancelAsync ih hledger hok
  | disposeAsync | sendNow =>
    cases hs
    exact ⟨ih.frame rfl rfl rfl rfl, hledger⟩
  | consume destination handler =>
    cases hs
    show Sound (s.consume destination handler) ∧ Reach ledgerMachine (s.consume ..).ledger
    unfold State.consume
    split <;> exact ⟨ih.frame rfl rfl rfl rfl, hledger⟩
  | unsubscribe k =>
    obtain ⟨t, -, rfl⟩ := Option.map_eq_some_iff.mp hs
    exact ⟨ih.frame rfl rfl rfl rfl, hledger⟩
  | run i =>
    simp only [State.step] at hs
    split at hs
    · rename_i instr rest hthread
      cases hs
      have hexec := keeps_exec ih hledger (hok instr (by simp [hthread]))
      exact ⟨hexec.1.frame rfl rfl rfl rfl, hexec.2⟩
    · cases hs

/-- A message is cancelled while its delay waits; another one is dispatched. -/
def oneOfEach : List Label :=
  [.schedule "d" "a" 20000 0, .store 0, .delay 0, .schedule "d" "b" 20000 0, .store 1, .delay 1,
    .cancelAsync "mem-1", .run 0, .elapse 1, .continuation 0, .continuation 1]

/-- The entry is taken out between the completion of the delay and its continuation. -/
def bothWin : List Label :=
  [.schedule "d" "a" 20000 0, .store 0, .delay 0, .elapse 0, .cancelAsync "mem-1", .run 0,
    .continuation 0]

end MessagingPoc.NetScheduler
