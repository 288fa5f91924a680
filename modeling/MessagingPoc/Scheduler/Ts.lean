import MessagingPoc.Abstractions
import MessagingPoc.Lib.InsertionSet
import MessagingPoc.Lib.Ledger
import Mathlib.Data.List.Perm.Basic

/-!
# The TypeScript `InMemoryScheduler`: withheld until due

`in-memory.ts`, on one event loop: a call and a timer's callback run to their end, and the
microtasks a callback queues run before the next callback. The clock counts milliseconds and only
goes forward; a timer may run at any moment from its due time on.

Here nothing can come between a callback and the table, so the table is a ledger in every run whose
ids do not repeat. **What breaks is the far end of the delay range**: `setTimeout` makes 1 ms of
any delay above `timeoutMax`. `withinRange` excludes such delays, and ids that repeat.

`history` is ghost state, newest first.
-/

namespace MessagingPoc.TsScheduler

open Machine

/-! ## State -/

/-- A row of the pending table; `timer` is the identity of the timer armed for it. -/
structure PendingSchedule where
  id : String
  destination : String
  body : String
  deliverAt : Int
  timer : Nat
deriving DecidableEq

def PendingSchedule.info (p : PendingSchedule) : ScheduledInfo := ⟨p.id, p.destination, p.deliverAt⟩

/-- An armed timer: what its callback captured, and when it is due. -/
structure Timer where
  entry : PendingSchedule
  due : Int
deriving DecidableEq

/-- Why a message is not scheduled any more. -/
inductive Fate
  /-- `cancel` or the disposal of the scheduler took its entry out of the table. -/
  | cancelled
  /-- Its timer's callback dispatched it, at a time of the clock. -/
  | dispatched (time : Int)
deriving DecidableEq, Repr

abbrev Event := Ledger.Entry PendingSchedule Fate

structure State where
  clock : Int := 0
  handlers : String → Option Nat := fun _ => none
  /-- The heap of handler sets. -/
  handlerSet : Nat → InsertionSet MessageHandler := fun _ => .empty
  nextSet : Nat := 0
  pending : AList (fun _ : String => PendingSchedule) := ∅
  seq : Nat := 0
  timers : List Timer := []
  nextTimer : Nat := 0
  subscriptions : List (Nat × MessageHandler) := []
  /-- The messages whose handlers a queued microtask is to call. -/
  microtasks : List ReceivedMessage := []
  deliveries : List (ReceivedMessage × List MessageHandler) := []
  history : List Event := []

namespace State

def record (s : State) (events : List Event) : State := { s with history := events ++ s.history }

/-! ## Numbers and timers of the runtime -/

/-- `seq += 1` on a JavaScript number: from 2⁵³ on it stays where it is. -/
def succ (n : Nat) : Nat := if n < 9007199254740992 then n + 1 else n

/-- The longest delay `setTimeout` knows. -/
def timeoutMax : Int := 2147483647

/-- What `setTimeout` makes of a delay. -/
def effectiveDelay (ms : Int) : Int := if 1 ≤ ms ∧ ms ≤ timeoutMax then ms else 1

def clearTimeout (timers : List Timer) (timer : Nat) : List Timer :=
  timers.filter (·.entry.timer ≠ timer)

/-! ## The scheduler -/

/-- The id `schedule` generates next. -/
def nextId (s : State) : String := s!"mem-{succ s.seq}"

def schedule (s : State) (destination payload : String) (deliverAt : Int) : State :=
  let entry : PendingSchedule := ⟨s.nextId, destination, payload, deliverAt, s.nextTimer⟩
  let ms := max 0 (deliverAt - s.clock)
  let timer : Timer := ⟨entry, s.clock + effectiveDelay ms⟩
  { s with
    seq := succ s.seq
    nextTimer := s.nextTimer + 1
    timers := s.timers ++ [timer]
    pending := s.pending.insert s.nextId entry }.record [.opened entry]

def cancel (s : State) (id : String) : State :=
  match s.pending.lookup id with
  | none => s
  | some p =>
    { s with
      timers := clearTimeout s.timers p.timer
      pending := s.pending.erase id }.record [.closed p .cancelled]

/-- `pending.values()`, the oldest first. -/
def values (s : State) : List PendingSchedule := (s.pending.entries.map Sigma.snd).reverse

def listScheduled (s : State) (destination : String) : List ScheduledInfo :=
  (s.values.filter (·.destination = destination)).map PendingSchedule.info

/-- `[Symbol.asyncDispose]`. -/
def asyncDispose (s : State) : State :=
  { s with
    timers := (s.values.map PendingSchedule.timer).foldl clearTimeout s.timers
    pending := ∅
    handlers := fun _ => none }.record
      (s.values.map fun p => Ledger.Entry.closed p Fate.cancelled)

def consume (s : State) (destination : String) (handler : MessageHandler) : State :=
  match s.handlers destination with
  | some set =>
    { s with
      handlerSet := Function.update s.handlerSet set ((s.handlerSet set).add handler)
      subscriptions := s.subscriptions ++ [(set, handler)] }
  | none =>
    { s with
      handlers := Function.update s.handlers destination (some s.nextSet)
      handlerSet := Function.update s.handlerSet s.nextSet (InsertionSet.empty.add handler)
      nextSet := s.nextSet + 1
      subscriptions := s.subscriptions ++ [(s.nextSet, handler)] }

/-- `dispatch`: number the message and queue the microtask that calls its handlers. -/
def dispatch (s : State) (destination body : String) : State :=
  { s with
    seq := succ s.seq
    microtasks := s.microtasks ++ [⟨s!"mem-msg-{succ s.seq}", destination, body, []⟩] }

/-- The handlers a message goes to when its microtask runs. -/
def targets (s : State) (destination : String) : List MessageHandler :=
  match s.handlers destination with
  | none => []
  | some set => (s.handlerSet set).items

/-- The callback of a timer. -/
def callback (s : State) (p : PendingSchedule) : State :=
  ({ s with pending := s.pending.erase p.id }.record [.closed p (.dispatched s.clock)]).dispatch
    p.destination p.body

end State

/-! ## The machine -/

inductive Label
  | schedule (destination payload : String) (deliverAt : Int)
  | cancel (id : String)
  | asyncDispose
  | sendNow (destination payload : String)
  | consume (destination : String) (handler : MessageHandler)
  | unsubscribe (subscription : Nat)
  /-- The clock goes forward. -/
  | advance (ms : Nat)
  /-- The callback of an armed timer that is due. -/
  | fire (timer : Nat)
  | microtask
deriving DecidableEq

namespace State

def step (s : State) : Label → Option State
  | .schedule destination payload deliverAt => some (s.schedule destination payload deliverAt)
  | .cancel id => some (s.cancel id)
  | .asyncDispose => some s.asyncDispose
  | .sendNow destination payload => some (s.dispatch destination payload)
  | .consume destination handler => some (s.consume destination handler)
  | .unsubscribe k =>
    s.subscriptions[k]?.map fun t =>
      { s with handlerSet := Function.update s.handlerSet t.1 ((s.handlerSet t.1).erase t.2) }
  | .advance ms => some { s with clock := s.clock + ms }
  | .fire i =>
    match s.timers[i]? with
    | some t =>
      if t.due ≤ s.clock ∧ s.microtasks = [] then
        some ({ s with timers := s.timers.eraseIdx i }.callback t.entry)
      else none
    | none => none
  | .microtask =>
    match s.microtasks with
    | message :: rest =>
      some { s with
        microtasks := rest
        deliveries := s.deliveries ++ [(message, s.targets message.destination)] }
    | [] => none

end State

/-- The scheduler on its event loop, from any time on. -/
def machine : System State Label where
  init s := ∃ clock, s = { clock := clock }
  step s l s' := s.step l = some s'

theorem machine_step {s s' : State} {l : Label} : machine.step s l s' ↔ s.step l = some s' :=
  Iff.rfl

/-- The table, and what was scheduled and settled. -/
def State.ledger (s : State) : Ledger String PendingSchedule Fate := ⟨s.pending, s.history⟩

abbrev ledgerMachine :
    Machine.System (Ledger String PendingSchedule Fate) (Ledger.Act PendingSchedule Fate) :=
  Ledger.machine PendingSchedule.id

theorem mem_values {s : State} {p : PendingSchedule} :
    p ∈ s.values ↔ ∃ id, s.pending.lookup id = some p := by
  rw [State.values, List.mem_reverse]
  exact Table.mem_values

/-! ## Timers and their entries -/

/-- Every armed timer has its row in the table, a timer of its own, and is not due before its
message. -/
structure Sound (s : State) : Prop where
  row : ∀ t ∈ s.timers, s.pending.lookup t.entry.id = some t.entry
  due : ∀ t ∈ s.timers, t.entry.deliverAt ≤ t.due
  distinct : (s.timers.map (·.entry.timer)).Nodup
  fresh : ∀ p, .opened p ∈ s.history → p.timer < s.nextTimer
  /-- Nothing was dispatched early. -/
  time : ∀ p time, .closed p (.dispatched time) ∈ s.history → p.deliverAt ≤ time

theorem mem_clearTimeout {timers : List Timer} {timer : Nat} {t : Timer} :
    t ∈ State.clearTimeout timers timer ↔ t ∈ timers ∧ t.entry.timer ≠ timer := by
  simp [State.clearTimeout]

theorem mem_foldl_clearTimeout {refs : List Nat} {timers : List Timer} {t : Timer} :
    t ∈ refs.foldl State.clearTimeout timers ↔ t ∈ timers ∧ t.entry.timer ∉ refs := by
  induction refs generalizing timers with
  | nil => simp
  | cons r refs ih =>
    rw [List.foldl_cons, ih, mem_clearTimeout, List.mem_cons, not_or, and_assoc]

namespace Sound

variable {s s' : State}

theorem frame (h : Sound s) (htimers : s'.timers = s.timers) (hpending : s'.pending = s.pending)
    (hnext : s'.nextTimer = s.nextTimer) (hhistory : s'.history = s.history) : Sound s' := by
  obtain ⟨row, due, distinct, fresh, time⟩ := h
  constructor <;> simp only [htimers, hpending, hnext, hhistory] <;> assumption

/-- A new message, within the range of the timers and under an id that is not in use. -/
theorem schedule (h : Sound s) (hledger : Reach ledgerMachine s.ledger)
    (destination payload : String) {deliverAt : Int}
    (hrange : deliverAt - s.clock ≤ State.timeoutMax)
    (hfree : s.pending.lookup s.nextId = none) :
    Sound (s.schedule destination payload deliverAt) := by
  have hbalanced := Ledger.balanced hledger
  have htimers : (s.schedule destination payload deliverAt).timers =
      s.timers ++ [⟨⟨s.nextId, destination, payload, deliverAt, s.nextTimer⟩,
        s.clock + State.effectiveDelay (max 0 (deliverAt - s.clock))⟩] := rfl
  have hopened : ∀ t ∈ s.timers, .opened t.entry ∈ s.history := fun t ht =>
    ((hbalanced.rows _ _).mp (h.row t ht)).2.1
  refine ⟨fun t ht => ?_, fun t ht => ?_, ?_, fun p hp => ?_, fun p time hp => ?_⟩
  · show (s.pending.insert s.nextId _).lookup _ = _
    rw [htimers, List.mem_append, List.mem_singleton] at ht
    rw [Table.lookup_insert]
    rcases ht with ht | rfl
    · have hrow := h.row t ht
      split_ifs with hid
      · rw [← hid, hfree] at hrow
        cases hrow
      · exact hrow
    · rw [if_pos rfl]
  · rw [htimers, List.mem_append, List.mem_singleton] at ht
    rcases ht with ht | rfl
    · exact h.due t ht
    · show deliverAt ≤ s.clock + State.effectiveDelay _
      unfold State.effectiveDelay
      split_ifs <;> omega
  · rw [htimers, List.map_append, List.map_singleton]
    refine List.nodup_append.mpr ⟨h.distinct, List.nodup_singleton _, ?_⟩
    intro a ha b hb heq
    obtain ⟨t, ht, rfl⟩ := List.mem_map.mp ha
    have hlt := h.fresh t.entry (hopened t ht)
    exact hlt.ne (heq.trans (List.mem_singleton.mp hb))
  · show p.timer < s.nextTimer + 1
    rcases List.mem_cons.mp hp with heq | hp
    · cases heq
      exact Nat.lt_succ_self _
    · exact (h.fresh p hp).trans (Nat.lt_succ_self _)
  · rcases List.mem_cons.mp hp with heq | hp
    · cases heq
    · exact h.time p time hp

theorem settle (h : Sound s) {p : PendingSchedule} {how : Fate}
    (hrow : s.pending.lookup p.id = some p) (hpending : s'.pending = s.pending.erase p.id)
    (htimers : s'.timers.Sublist s.timers) (hgone : ∀ t ∈ s'.timers, t.entry.timer ≠ p.timer)
    (hnext : s'.nextTimer = s.nextTimer) (hhistory : s'.history = .closed p how :: s.history)
    (htime : ∀ time, how = .dispatched time → p.deliverAt ≤ time) : Sound s' := by
  refine ⟨fun t ht => ?_, fun t ht => h.due t (htimers.subset ht),
    (htimers.map _).nodup h.distinct, fun q hq => ?_, fun q time hq => ?_⟩
  · have hrow' := h.row t (htimers.subset ht)
    rw [hpending]
    refine Table.lookup_erase_eq_some.mpr ⟨fun hid => hgone t ht ?_, hrow'⟩
    rw [← hid, hrow] at hrow'
    rw [Option.some.inj hrow']
  · rw [hhistory] at hq
    rw [hnext]
    exact h.fresh q ((List.mem_cons.mp hq).resolve_left (by simp))
  · rw [hhistory] at hq
    rcases List.mem_cons.mp hq with heq | hq
    · cases heq
      exact htime time rfl
    · exact h.time q time hq

end Sound

/-! ## The condition -/

/-- No message is scheduled further ahead than a timer can wait, nor under an id that is in use. -/
def withinRange (s : State) : Label → Prop
  | .schedule _ _ deliverAt =>
    deliverAt - s.clock ≤ State.timeoutMax ∧ s.pending.lookup s.nextId = none
  | _ => True

instance (s : State) (l : Label) : Decidable (withinRange s l) := by
  unfold withinRange
  induction l using Label.casesOn <;> infer_instance

theorem keeps_cancel {s : State} (ih : Sound s) (hledger : Reach ledgerMachine s.ledger)
    (id : String) : Sound (s.cancel id) ∧ Reach ledgerMachine (s.cancel id).ledger := by
  unfold State.cancel
  cases hp : s.pending.lookup id with
  | none => exact ⟨ih, hledger⟩
  | some p =>
    obtain rfl : p.id = id := (((Ledger.balanced hledger).rows id p).mp hp).1
    have hclose : ledgerMachine.step s.ledger (.close p .cancelled)
      ⟨s.pending.erase p.id, .closed p .cancelled :: s.history⟩ := .close hp
    refine ⟨ih.settle hp rfl List.filter_sublist (fun t ht => ?_) rfl rfl (by simp),
      hledger.step trivial hclose⟩
    exact (mem_clearTimeout.mp ht).2

/-- Every armed timer has a row, so no timer stays armed. -/
theorem keeps_asyncDispose {s : State} (ih : Sound s) (hledger : Reach ledgerMachine s.ledger) :
    Sound s.asyncDispose ∧ Reach ledgerMachine s.asyncDispose.ledger := by
  have hnone : ∀ t, t ∉ s.asyncDispose.timers := by
    intro t ht
    obtain ⟨ht, hgone⟩ := mem_foldl_clearTimeout.mp ht
    exact hgone (List.mem_map_of_mem (mem_values.mpr ⟨_, ih.row t ht⟩))
  have hempty : s.asyncDispose.timers = [] := List.eq_nil_iff_forall_not_mem.mpr hnone
  have hold : ∀ {e : Event}, (∀ p, e ≠ .closed p .cancelled) → e ∈ s.asyncDispose.history →
      e ∈ s.history := by
    intro e hne he
    refine (List.mem_append.mp he).resolve_left fun hmem => ?_
    obtain ⟨p, -, heq⟩ := List.mem_map.mp hmem
    exact hne p heq.symm
  have hclosed : Reach ledgerMachine s.asyncDispose.ledger := by
    have hrun := hledger.extend (Ledger.run_closeAll hledger .cancelled)
    rwa [← List.map_reverse] at hrun
  refine ⟨⟨?_, ?_, ?_, fun p hp => ih.fresh p (hold (by simp) hp),
    fun p time hp => ih.time p time (hold (by simp) hp)⟩,
    hclosed⟩ <;>
  · rw [hempty]
    simp

theorem keeps_fire {s : State} (ih : Sound s) (hledger : Reach ledgerMachine s.ledger) {i : Nat}
    {t : Timer} (ht : s.timers[i]? = some t) (hdue : t.due ≤ s.clock) :
    Sound ({ s with timers := s.timers.eraseIdx i }.callback t.entry) ∧
      Reach ledgerMachine ({ s with timers := s.timers.eraseIdx i }.callback t.entry).ledger := by
  have hmem := List.mem_of_getElem? ht
  have hrow := ih.row t hmem
  have hclose : ledgerMachine.step s.ledger (.close t.entry (.dispatched s.clock))
    ⟨s.pending.erase t.entry.id, .closed t.entry (.dispatched s.clock) :: s.history⟩ :=
      .close hrow
  have hrest : ({ s with timers := s.timers.eraseIdx i }.callback t.entry).timers.Sublist
      s.timers := List.eraseIdx_sublist _ _
  refine ⟨ih.settle hrow rfl hrest (fun t' ht' => ?_) rfl rfl fun time htime => ?_,
    hledger.step trivial hclose⟩
  · -- Another timer has another row.
    obtain ⟨hlt, rfl⟩ := List.getElem?_eq_some_iff.mp ht
    have hperm := (List.getElem_cons_eraseIdx_perm hlt).map (·.entry.timer)
    have hnodup := hperm.nodup_iff.mpr ih.distinct
    rw [List.map_cons, List.nodup_cons] at hnodup
    intro heq
    exact hnodup.1 (heq ▸ List.mem_map_of_mem ht')
  · cases htime
    exact Int.le_trans (ih.due t hmem) hdue

/-- **The scheduler keeps a ledger**: along runs within range, its table and its history are a
ledger, and every armed timer has its row. -/
theorem keeps_ledger {s : State} (h : ReachIf machine withinRange s) :
    Sound s ∧ Reach ledgerMachine s.ledger := by
  refine h.invariant (I := fun s => Sound s ∧ Reach ledgerMachine s.ledger) (fun s hs => ?_)
    fun s l s' _ ih hok hstep => ?_
  · obtain ⟨clock, rfl⟩ := hs
    exact ⟨⟨by simp, by simp, List.nodup_nil, by simp, by simp⟩, .init ⟨rfl, rfl⟩⟩
  obtain ⟨ih, hledger⟩ := ih
  have hs := machine_step.mp hstep
  cases l with
  | schedule destination payload deliverAt =>
    cases hs
    obtain ⟨hrange, hfree⟩ := hok
    have hnew : .opened ⟨s.nextId, destination, payload, deliverAt, s.nextTimer⟩ ∉ s.history := by
      intro hmem
      exact absurd (ih.fresh _ hmem) (lt_irrefl s.nextTimer)
    have hopen : ledgerMachine.step s.ledger
      (.open ⟨s.nextId, destination, payload, deliverAt, s.nextTimer⟩)
      (s.schedule destination payload deliverAt).ledger := .open hfree hnew
    exact ⟨ih.schedule hledger destination payload hrange hfree, hledger.step trivial hopen⟩
  | cancel id =>
    cases hs
    exact keeps_cancel ih hledger id
  | asyncDispose =>
    cases hs
    exact keeps_asyncDispose ih hledger
  | sendNow | advance =>
    cases hs
    exact ⟨ih.frame rfl rfl rfl rfl, hledger⟩
  | consume destination handler =>
    cases hs
    show Sound (s.consume destination handler) ∧ Reach ledgerMachine (s.consume ..).ledger
    unfold State.consume
    split <;> exact ⟨ih.frame rfl rfl rfl rfl, hledger⟩
  | unsubscribe k =>
    obtain ⟨t, -, rfl⟩ := Option.map_eq_some_iff.mp hs
    exact ⟨ih.frame rfl rfl rfl rfl, hledger⟩
  | fire i =>
    simp only [State.step] at hs
    split at hs
    · rename_i t ht
      split_ifs at hs with hdue
      cases hs
      exact keeps_fire ih hledger ht hdue.1
    · cases hs
  | microtask =>
    simp only [State.step] at hs
    split at hs
    · cases hs
      exact ⟨ih.frame rfl rfl rfl rfl, hledger⟩
    · cases hs

/-! ## Withheld until due -/

theorem history_suffix {s s' : State} {l : Label} (hs : s.step l = some s') :
    s.history <:+ s'.history := by
  cases l with
  | schedule | sendNow | advance | asyncDispose =>
    cases hs
    first
      | exact List.suffix_refl _
      | exact List.suffix_cons _ _
      | exact List.suffix_append _ _
  | cancel id =>
    cases hs
    show _ <:+ (s.cancel id).history
    unfold State.cancel
    split
    · exact List.suffix_refl _
    · exact List.suffix_cons _ _
  | consume destination handler =>
    cases hs
    show _ <:+ (s.consume destination handler).history
    unfold State.consume
    split <;> exact List.suffix_refl _
  | unsubscribe k =>
    obtain ⟨t, -, rfl⟩ := Option.map_eq_some_iff.mp hs
    exact List.suffix_refl _
  | fire i =>
    simp only [State.step] at hs
    split at hs
    · split_ifs at hs
      cases hs
      exact List.suffix_cons _ _
    · cases hs
  | microtask =>
    simp only [State.step] at hs
    split at hs
    · cases hs
      exact List.suffix_refl _
    · cases hs

theorem history_subset {ok : State → Label → Prop} {s s' : State} (p : Run machine ok s s') :
    s.history ⊆ s'.history := by
  induction p with
  | refl => exact List.Subset.refl _
  | tail _ _ hs ih => exact List.Subset.trans ih (history_suffix (machine_step.mp hs)).subset

/-- A `cancel` cancels what is scheduled under its id. -/
theorem cancel_closes {s s' : State} (h : ReachIf machine withinRange s) {p : PendingSchedule}
    (hs : s.step (.cancel p.id) = some s') (hopened : .opened p ∈ s.history) :
    ∃ how, .closed p how ∈ s'.history ∧ (how = .cancelled ∨ .closed p how ∈ s.history) := by
  have hbalanced := Ledger.balanced (keeps_ledger h).2
  by_cases hopen : ∃ how, .closed p how ∈ s.history
  · obtain ⟨how, hmem⟩ := hopen
    exact ⟨how, (history_suffix hs).subset hmem, .inr hmem⟩
  · push Not at hopen
    have hrow : s.pending.lookup p.id = some p := (hbalanced.rows _ _).mpr ⟨rfl, hopened, hopen⟩
    cases hs
    refine ⟨.cancelled, ?_, .inl rfl⟩
    show _ ∈ (s.cancel p.id).history
    simp only [State.cancel, hrow]
    exact List.mem_cons_self

/-- One message is cancelled, another one dispatched when it is due. -/
def cancelOne : List Label :=
  [.schedule "d" "a" 50, .schedule "d" "b" 20, .cancel "mem-1", .advance 20, .fire 0, .microtask]

/-- A message for 2147483648 ms from now, and one millisecond. -/
def farAhead : List Label := [.schedule "d" "a" 2147483648, .advance 1, .fire 0]

end MessagingPoc.TsScheduler
