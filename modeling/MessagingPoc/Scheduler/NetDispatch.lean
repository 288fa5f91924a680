import MessagingPoc.Lib.Machine
import MessagingPoc.Scheduler.Dispatch
import MessagingPoc.Scheduler.Net

/-!
# The handlers of a .NET dispatch

`Dispatch` copies the handler set, and a task awaits the handlers one after the other: whatever
keeps one of them from completing keeps the loop from the next. The turns of the tasks interleave
with everything else the scheduler does, the calls its handlers make included. How the call of a
handler ends is a function of the dispatch and the handler.

**The handlers of a dispatch are served exactly when all but the last complete**
(`served_iff_completes`).
-/

namespace MessagingPoc.NetScheduler

open Machine Relay Dispatch

/-! ## The .NET loops -/

/-- The order in which `ToArray` lists the set of a dispatch: .NET promises none. -/
structure Enumeration where
  toArray : Nat → List MessageHandler → List MessageHandler
  perm : ∀ k handlers, (toArray k handlers).Perm handlers

/-- How far the task of a dispatch has come. -/
inductive Progress
  /-- It has still to call these. -/
  | ready (rest : List MessageHandler)
  /-- It awaits what the call of a handler returned. -/
  | awaiting (h : MessageHandler) (rest : List MessageHandler)
  /-- An exception has left the loop. -/
  | faulted
deriving DecidableEq

/-- How many steps the loop can take at most. -/
def Progress.left : Progress → Nat
  | .ready rest => 2 * rest.length
  | .awaiting _ rest => 2 * rest.length + 1
  | .faulted => 0

/-- The handlers registered for a destination. -/
def State.targets (s : State) (destination : String) : List MessageHandler :=
  match s.handlers destination with
  | none => []
  | some set => (s.handlerSet set).items

/-- The message a `Dispatch` makes. -/
def State.message (s : State) (destination body : String) : ReceivedMessage :=
  ⟨s!"mem-msg-{s.seq + 1}", destination, body, []⟩

/-- The scheduler and the tasks it has started; a task that is not in `progress` has not run. -/
structure Delivering where
  scheduler : State := {}
  progress : Nat → Option Progress := fun _ => none
  log : List Invocation := []

inductive Turn
  | scheduler (l : Label)
  /-- The task of a dispatch takes its next step. -/
  | task (k : Nat)
deriving DecidableEq

namespace Delivering

variable (E : Enumeration) (ending : Nat → MessageHandler → Ending)

def call (s : Delivering) (i : Invocation) : Delivering := { s with log := s.log ++ [i] }

def move (s : Delivering) (k : Nat) (p : Progress) : Delivering :=
  { s with progress := Function.update s.progress k (some p) }

/-- `foreach (var h in targets) await h(msg)`. -/
def turn (s : Delivering) (k : Nat) : Option Delivering :=
  match s.scheduler.tasks[k]? with
  | none => none
  | some (message, handlers) =>
    match (s.progress k).getD (.ready (E.toArray k handlers)) with
    | .ready [] => none
    | .ready (h :: rest) =>
      some ((s.call ⟨k, h, message⟩).move k
        (if ending k h = .throws then .faulted else .awaiting h rest))
    | .awaiting h rest =>
      match ending k h with
      | .completes => some (s.move k (.ready rest))
      | .faults => some (s.move k .faulted)
      | .throws | .hangs => none
    | .faulted => none

def step (s : Delivering) : Turn → Option Delivering
  | .scheduler l => (s.scheduler.step l).map fun scheduler => { s with scheduler := scheduler }
  | .task k => s.turn E ending k

/-- The loop of a dispatch goes no further. -/
def Over (s : Delivering) (k : Nat) : Prop := s.turn E ending k = none

end Delivering

/-- The scheduler and its tasks, under every interleaving. -/
def delivering (E : Enumeration) (ending : Nat → MessageHandler → Ending) :
    System Delivering Turn where
  init s := s = {}
  step s l s' := s.step E ending l = some s'

/-! ## What a loop has called -/

theorem tasks_step {s s' : State} {l : Label} (h : s.step l = some s') : s.tasks <+: s'.tasks := by
  cases l with
  | schedule | sendNow | disposeAsync =>
    cases h
    exact List.prefix_rfl
  | store n | delay n | elapse n =>
    simp only [State.step] at h
    split at h
    · split_ifs at h
      cases h
      exact List.prefix_rfl
    · cases h
  | continuation n =>
    simp only [State.step] at h
    split at h
    · split_ifs at h <;> cases h <;> exact List.prefix_rfl
    · cases h
  | cancelAsync id =>
    cases h
    show _ <+: (s.cancelAsync id).tasks
    unfold State.cancelAsync
    split <;> exact List.prefix_rfl
  | consume destination handler =>
    cases h
    show _ <+: (s.consume destination handler).tasks
    unfold State.consume
    split <;> exact List.prefix_rfl
  | unsubscribe n =>
    obtain ⟨t, -, rfl⟩ := Option.map_eq_some_iff.mp h
    exact List.prefix_rfl
  | run i =>
    simp only [State.step] at h
    split at h
    · rename_i instr rest hthread
      cases h
      show _ <+: (s.exec instr).tasks
      cases instr with
      | clear | clearHandlers => exact List.prefix_rfl
      | cancel n =>
        show _ <+: (s.cancelToken n).tasks
        simp only [State.cancelToken]
        split
        · split_ifs <;> exact List.prefix_rfl
        · exact List.prefix_rfl
      | dispatch destination body =>
        show _ <+: (s.dispatch destination body).tasks
        simp only [State.dispatch]
        split
        · exact List.prefix_rfl
        · exact List.prefix_append _ _
    · cases h

/-- A `Dispatch` starts a task for the handlers registered at that moment, or there are none. -/
theorem tasks_dispatch {s s' : State} {i : Nat} {destination body : String} {rest : List Instr}
    (hthread : s.threads[i]? = some (.dispatch destination body :: rest))
    (h : s.step (.run i) = some s') :
    s'.tasks[s.tasks.length]? = some (s.message destination body, s.targets destination) ∨
      s.targets destination = [] := by
  simp only [State.step, hthread, Option.some.injEq] at h
  subst h
  show (s.dispatch destination body).tasks[_]? = _ ∨ _
  cases hset : s.handlers destination with
  | none => exact .inr (by simp [State.targets, hset])
  | some set => exact .inl (by simp [State.dispatch, State.targets, State.message, hset])

theorem State.nodup_targets (s : State) (destination : String) :
    (s.targets destination).Nodup := by
  unfold State.targets
  split
  · exact List.nodup_nil
  · exact (s.handlerSet _).nodup

/-- A loop ends with a handler that does not complete. -/
theorem called_unfinished {ending : Nat → MessageHandler → Ending} {k : Nat} {h : MessageHandler}
    (hh : ending k h ≠ .completes) (rest : List MessageHandler) :
    called (fun h => ending k h ≠ .completes) (h :: rest) = [h] := if_pos hh

/-- What the loop of a dispatch has called when it has come so far. -/
def Follows (ending : Nat → MessageHandler → Ending) (k : Nat) (message : ReceivedMessage)
    (targets : List MessageHandler) (calls : List Invocation) : Progress → Prop
  | .ready rest => ∃ seen, targets = seen ++ rest ∧ (∀ h ∈ seen, ending k h = .completes) ∧
      calls = seen.map fun h => ⟨k, h, message⟩
  | .awaiting h rest => ∃ seen, targets = seen ++ h :: rest ∧
      (∀ h ∈ seen, ending k h = .completes) ∧ ending k h ≠ .throws ∧
      calls = (seen ++ [h]).map fun h => ⟨k, h, message⟩
  | .faulted => calls = (called (fun h => ending k h ≠ .completes) targets).map fun h =>
      ⟨k, h, message⟩

/-- Every task has called what its progress says, and one that is not started nothing. -/
structure Delivering.Sound (E : Enumeration) (ending : Nat → MessageHandler → Ending)
    (s : Delivering) : Prop where
  idle : ∀ k, s.scheduler.tasks[k]? = none → s.progress k = none ∧ ∀ i ∈ s.log, i.dispatch ≠ k
  follows : ∀ k message handlers, s.scheduler.tasks[k]? = some (message, handlers) →
    Follows ending k message (E.toArray k handlers) (callsOf s.log k handlers)
      ((s.progress k).getD (.ready (E.toArray k handlers)))

namespace Delivering

variable {E : Enumeration} {ending : Nat → MessageHandler → Ending} {s s' : Delivering}

theorem turn_cases {k : Nat} (h : s.turn E ending k = some s') :
    ∃ message handlers, s.scheduler.tasks[k]? = some (message, handlers) ∧
      ((∃ x rest, (s.progress k).getD (.ready (E.toArray k handlers)) = .ready (x :: rest) ∧
        s' = (s.call ⟨k, x, message⟩).move k
          (if ending k x = .throws then .faulted else .awaiting x rest)) ∨
      ∃ x rest, (s.progress k).getD (.ready (E.toArray k handlers)) = .awaiting x rest ∧
        (ending k x = .completes ∧ s' = s.move k (.ready rest) ∨
          ending k x = .faults ∧ s' = s.move k .faulted)) := by
  unfold turn at h
  split at h
  · cases h
  · rename_i message handlers htask
    refine ⟨message, handlers, htask, ?_⟩
    split at h
    · cases h
    · rename_i x rest hp
      exact .inl ⟨x, rest, hp, (Option.some.inj h).symm⟩
    · rename_i x rest hp
      refine .inr ⟨x, rest, hp, ?_⟩
      cases hx : ending k x with
      | completes => simpa [hx] using h.symm
      | faults => simpa [hx] using h.symm
      | throws | hangs => simp [hx] at h
    · cases h

namespace Sound

theorem init : Sound E ending {} where
  idle _ _ := ⟨rfl, by simp⟩
  follows k message handlers h := by simp at h

theorem scheduler (h : Sound E ending s) {scheduler' : State} {l : Label}
    (hstep : s.scheduler.step l = some scheduler') :
    Sound E ending { s with scheduler := scheduler' } := by
  obtain ⟨new, hnew⟩ := tasks_step hstep
  constructor
  · intro k hk
    refine h.idle k ?_
    rw [← hnew, List.getElem?_eq_none_iff, List.length_append] at hk
    exact List.getElem?_eq_none_iff.mpr (by omega)
  · intro k message handlers hk
    cases htask : s.scheduler.tasks[k]? with
    | none =>
      obtain ⟨hprogress, hlog⟩ := h.idle k htask
      have hcalls : callsOf s.log k handlers = [] :=
        List.filter_eq_nil_iff.mpr fun i hi => by simp [hlog i hi]
      simp only [hprogress, Option.getD_none]
      exact ⟨[], rfl, by simp, hcalls⟩
    | some task =>
      have hlt := (List.getElem?_eq_some_iff.mp htask).1
      rw [← hnew, List.getElem?_append_left hlt, htask] at hk
      cases hk
      exact h.follows k message handlers htask

theorem move (h : Sound E ending s) {k : Nat} {message : ReceivedMessage}
    {handlers : List MessageHandler} {p : Progress}
    (htask : s.scheduler.tasks[k]? = some (message, handlers))
    (hscheduler : s'.scheduler = s.scheduler)
    (hprogress : s'.progress = Function.update s.progress k (some p))
    (hlog : ∀ i ∈ s'.log, i ∈ s.log ∨ i.dispatch = k)
    (hothers : ∀ k', k' ≠ k → ∀ hs, callsOf s'.log k' hs = callsOf s.log k' hs)
    (hfollows : Follows ending k message (E.toArray k handlers) (callsOf s'.log k handlers) p) :
    Sound E ending s' := by
  constructor
  · intro k' hk'
    rw [hscheduler] at hk'
    have hne : k' ≠ k := by
      intro heq
      rw [heq] at hk'
      exact absurd (htask.symm.trans hk') (Option.some_ne_none _)
    obtain ⟨hidle, hnone⟩ := h.idle k' hk'
    refine ⟨?_, fun i hi => ?_⟩
    · rw [hprogress, Function.update_of_ne hne, hidle]
    · rcases hlog i hi with hi | hi
      · exact hnone i hi
      · exact hi ▸ hne.symm
  · intro k' message' handlers' htask'
    rw [hscheduler] at htask'
    by_cases hne : k' = k
    · subst hne
      obtain ⟨rfl, rfl⟩ := Prod.mk.inj (Option.some.inj (htask.symm.trans htask'))
      rw [hprogress, Function.update_self]
      exact hfollows
    · rw [hprogress, Function.update_of_ne hne, hothers k' hne]
      exact h.follows k' message' handlers' htask'

theorem turn (h : Sound E ending s) {k : Nat} (hturn : s.turn E ending k = some s') :
    Sound E ending s' := by
  obtain ⟨message, handlers, htask, hcase⟩ := turn_cases hturn
  have hfollows := h.follows k message handlers htask
  rcases hcase with ⟨x, rest, hp, rfl⟩ | ⟨x, rest, hp, ⟨hx, rfl⟩ | ⟨hx, rfl⟩⟩
  · rw [hp] at hfollows
    obtain ⟨seen, htargets, hseen, hcalls⟩ := hfollows
    have hmem : x ∈ handlers := (E.perm k handlers).subset (by simp [htargets])
    have hlog : ∀ i ∈ s.log ++ [⟨k, x, message⟩], i ∈ s.log ∨ i.dispatch = k := by
      intro i hi
      rcases List.mem_append.mp hi with hi | hi
      · exact .inl hi
      · exact .inr (List.mem_singleton.mp hi ▸ rfl)
    refine h.move htask rfl rfl hlog (fun k' hne hs => callsOf_snoc_of_not fun hk => ?_) ?_
    · exact hne hk.1.symm
    show Follows _ _ _ _ (callsOf (s.log ++ [⟨k, x, message⟩]) k handlers) _
    rw [callsOf_snoc hmem, hcalls]
    by_cases hx : ending k x = .throws
    · rw [if_pos hx]
      -- The exception leaves the loop at once.
      rw [htargets, Follows, called_append (by simpa using hseen), called_unfinished (by simp [hx]),
        List.map_append]
      rfl
    · rw [if_neg hx]
      exact ⟨seen, htargets, hseen, hx, by simp⟩
  · rw [hp] at hfollows
    obtain ⟨seen, htargets, hseen, -, hcalls⟩ := hfollows
    refine h.move htask rfl rfl (fun i hi => .inl hi) (fun _ _ _ => rfl)
      ⟨seen ++ [x], by simp [htargets], fun y hy => ?_, hcalls⟩
    rcases List.mem_append.mp hy with hy | hy
    · exact hseen y hy
    · rwa [List.mem_singleton.mp hy]
  · rw [hp] at hfollows
    obtain ⟨seen, htargets, hseen, -, hcalls⟩ := hfollows
    refine h.move htask rfl rfl (fun i hi => .inl hi) (fun _ _ _ => rfl) ?_
    rw [Follows, htargets, called_append (by simpa using hseen), called_unfinished (by simp [hx])]
    exact hcalls

end Sound

theorem sound_of_reach (h : Reach (delivering E ending) s) : Sound E ending s := by
  refine h.invariant (fun s hs => ?_) fun s l s' _ ih _ hstep => ?_
  · obtain rfl : s = {} := hs
    exact Sound.init
  · cases l with
    | scheduler l =>
      obtain ⟨scheduler', hscheduler, rfl⟩ := Option.map_eq_some_iff.mp hstep
      exact ih.scheduler hscheduler
    | task k => exact ih.turn hstep

/-- A loop that is over has called everything up to the first handler that did not complete. -/
theorem Sound.calls_of_over (h : Sound E ending s) {k : Nat} {message : ReceivedMessage}
    {handlers : List MessageHandler} (htask : s.scheduler.tasks[k]? = some (message, handlers))
    (hover : s.Over E ending k) : callsOf s.log k handlers =
      (called (fun h => ending k h ≠ .completes) (E.toArray k handlers)).map fun h =>
        ⟨k, h, message⟩ := by
  have hfollows := h.follows k message handlers htask
  simp only [Over, Delivering.turn, htask] at hover
  split at hover
  · rename_i hp
    rw [hp] at hfollows
    obtain ⟨seen, htargets, hseen, hcalls⟩ := hfollows
    rw [hcalls, htargets, called_append (by simpa using hseen)]
    simp [called]
  · cases hover
  · rename_i x rest hp
    rw [hp] at hfollows
    obtain ⟨seen, htargets, hseen, -, hcalls⟩ := hfollows
    have hx : ending k x ≠ .completes := by
      intro hx
      simp [hx] at hover
    rw [hcalls, htargets, called_append (by simpa using hseen), called_unfinished hx]
  · rename_i hp
    rw [hp] at hfollows
    exact hfollows

theorem tasks_run {t : Delivering} (hrun : Run (delivering E ending) anyStep s t) :
    s.scheduler.tasks <+: t.scheduler.tasks := by
  induction hrun with
  | refl => exact List.prefix_rfl
  | @tail t u l _ _ hstep ih =>
    refine ih.trans ?_
    cases l with
    | scheduler l =>
      obtain ⟨scheduler', hscheduler, rfl⟩ := Option.map_eq_some_iff.mp hstep
      exact tasks_step hscheduler
    | task k =>
      obtain ⟨_, _, -, ⟨_, _, -, rfl⟩ | ⟨_, _, -, ⟨-, rfl⟩ | ⟨-, rfl⟩⟩⟩ := turn_cases hstep <;>
        exact List.prefix_rfl

/-- **The handlers of a dispatch are served exactly when all but the last complete.** -/
theorem served_iff_completes {s₁ t : Delivering} {i : Nat} {destination body : String}
    {rest : List Instr} (hs : Reach (delivering E ending) s)
    (hthread : s.scheduler.threads[i]? = some (.dispatch destination body :: rest))
    (hs₁ : s.step E ending (.scheduler (.run i)) = some s₁)
    (hrun : Run (delivering E ending) anyStep s₁ t)
    (hover : t.Over E ending s.scheduler.tasks.length) :
    Served t.log s.scheduler.tasks.length (s.scheduler.message destination body)
        (s.scheduler.targets destination) ↔
      ∀ h ∈ (E.toArray s.scheduler.tasks.length (s.scheduler.targets destination)).dropLast,
        ending s.scheduler.tasks.length h = .completes := by
  set k := s.scheduler.tasks.length
  have ht : Sound E ending t := sound_of_reach ((hs.step trivial hs₁).extend hrun)
  obtain ⟨scheduler₁, hscheduler₁, rfl⟩ := Option.map_eq_some_iff.mp hs₁
  rcases tasks_dispatch hthread hscheduler₁ with htask | hnone
  · have htask' : t.scheduler.tasks[k]? =
        some (s.scheduler.message destination body, s.scheduler.targets destination) := by
      obtain ⟨new, hnew⟩ := tasks_run hrun
      have hlt := (List.getElem?_eq_some_iff.mp htask).1
      rw [← hnew, List.getElem?_append_left hlt]
      exact htask
    rw [served_iff_of_calls (E.perm k _) (s.scheduler.nodup_targets destination)
      (ht.calls_of_over htask' hover)]
    simp only [ne_eq, not_not]
  · have hempty : E.toArray k [] = [] := (E.perm k []).eq_nil
    simp [hnone, hempty, Served]

/-- Every loop comes to its end when it goes on. -/
theorem exists_over (s : Delivering) (k : Nat) :
    ∃ t, Run (delivering E ending) (fun _ l => l = .task k) s t ∧ t.Over E ending k := by
  let left (s : Delivering) : Nat :=
    match s.scheduler.tasks[k]? with
    | none => 0
    | some (_, handlers) => ((s.progress k).getD (.ready (E.toArray k handlers))).left
  refine exists_run_of_measure left (fun s hover => ?_) s
  obtain ⟨s', hturn⟩ := Option.ne_none_iff_exists'.mp hover
  refine ⟨.task k, s', rfl, hturn, ?_⟩
  obtain ⟨message, handlers, htask, hcase⟩ := turn_cases hturn
  rcases hcase with ⟨x, rest, hp, rfl⟩ | ⟨x, rest, hp, ⟨-, rfl⟩ | ⟨-, rfl⟩⟩
  · by_cases hx : ending k x = .throws
    · simp [left, move, call, htask, hp, hx, Progress.left]
    · simp [left, move, call, htask, hp, hx, Progress.left]
      omega
  · simp [left, move, htask, hp, Progress.left]
  · simp [left, move, htask, hp, Progress.left]

end Delivering

end MessagingPoc.NetScheduler
