import MessagingPoc.Scheduler.NetDispatch
import MessagingPoc.Scheduler.TsDispatch

/-!
# Dispatch does not isolate handlers

Neither scheduler catches what a handler throws. `isolated_iff` says, for the loops of both, which
failures keep a handler from being called.
-/

namespace MessagingPoc.Dispatch

open Machine

/-- **Each handler is invoked exactly once if and only if none before the last ends the loop**:
in .NET whatever does not complete does, in TypeScript an exception, of handlers that stay
registered. -/
theorem isolated_iff (ending : Nat → MessageHandler → Ending) :
    (∀ (E : NetScheduler.Enumeration) (s s₁ t : NetScheduler.Delivering) (i : Nat)
        (destination body : String) (rest : List NetScheduler.Instr),
      Reach (NetScheduler.delivering E ending) s →
      s.scheduler.threads[i]? = some (.dispatch destination body :: rest) →
      s.step E ending (.scheduler (.run i)) = some s₁ →
      Run (NetScheduler.delivering E ending) anyStep s₁ t →
      t.Over E ending s.scheduler.tasks.length →
      (Served t.log s.scheduler.tasks.length (s.scheduler.message destination body)
          (s.scheduler.targets destination) ↔
        ∀ h ∈ (E.toArray s.scheduler.tasks.length (s.scheduler.targets destination)).dropLast,
          ending s.scheduler.tasks.length h = .completes)) ∧
    ∀ (s s₁ t : TsScheduler.Delivering) (turn : TsScheduler.Turn) (message : ReceivedMessage),
      Reach (TsScheduler.delivering ending) s →
      s.step ending turn = some s₁ →
      s₁.scheduler.microtasks = s.scheduler.microtasks ++ [message] →
      Run (TsScheduler.delivering ending) (TsScheduler.Delivering.Keeps s.dispatches
        message.destination (s.scheduler.targets message.destination)) s₁ t →
      t.Over s.dispatches →
      (Served t.log s.dispatches message (s.scheduler.targets message.destination) ↔
        ∀ h ∈ (s.scheduler.targets message.destination).dropLast,
          ending s.dispatches h ≠ .throws) := by
  constructor
  · intro E s s₁ t i destination body rest hs hthread hs₁ hrun hover
    exact NetScheduler.Delivering.served_iff_completes hs hthread hs₁ hrun hover
  · intro s s₁ t turn message hs hstep hqueued hrun hover
    exact TsScheduler.Delivering.served_iff_returns hs hstep hqueued hrun hover

/-- A hash set that happens to list its elements in the order in which they were added. -/
def asAdded : NetScheduler.Enumeration := ⟨fun _ handlers => handlers, fun _ _ => .refl _⟩

/-- The first of two handlers throws. -/
def firstThrows (_ : Nat) (h : MessageHandler) : Ending := if h = ⟨0⟩ then .throws else .completes

/-- The last of two handlers throws. -/
def lastThrows (_ : Nat) (h : MessageHandler) : Ending := if h = ⟨1⟩ then .throws else .completes

/-- Two handlers consume, and a thread is about to dispatch a message to them. -/
def netReady (ending : Nat → MessageHandler → Ending) : NetScheduler.Delivering :=
  play (NetScheduler.Delivering.step asAdded ending) {}
    [.scheduler (.consume "d" ⟨0⟩), .scheduler (.consume "d" ⟨1⟩), .scheduler (.sendNow "d" "x")]

def netSent (ending : Nat → MessageHandler → Ending) : NetScheduler.Delivering :=
  play (NetScheduler.Delivering.step asAdded ending) (netReady ending) [.scheduler (.run 0)]

/-- Two handlers consume, and the timer of a message for them is due. -/
def tsReady (ending : Nat → MessageHandler → Ending) : TsScheduler.Delivering :=
  play (TsScheduler.Delivering.step ending) { scheduler := {} }
    [.scheduler (.consume "d" ⟨0⟩), .scheduler (.consume "d" ⟨1⟩),
      .scheduler (.schedule "d" "x" 1), .scheduler (.advance 1)]

def tsSent (ending : Nat → MessageHandler → Ending) : TsScheduler.Delivering :=
  play (TsScheduler.Delivering.step ending) (tsReady ending) [.scheduler (.fire 0)]

theorem isolated_iff_last :
    Served (play (NetScheduler.Delivering.step asAdded lastThrows) (netSent lastThrows)
        [.task 0, .task 0, .task 0]).log 0 ⟨"mem-msg-1", "d", "x", []⟩ [⟨0⟩, ⟨1⟩] ∧
      Served (play (TsScheduler.Delivering.step lastThrows) (tsSent lastThrows)
        [.scheduler .microtask, .next, .next]).log 0 ⟨"mem-msg-2", "d", "x", []⟩ [⟨0⟩, ⟨1⟩] := by
  obtain ⟨hnet, hts⟩ := isolated_iff lastThrows
  constructor
  · refine (hnet asAdded (netReady lastThrows) (netSent lastThrows) _ 0 "d" "x" [] ?_ rfl rfl ?_
      ?_).mpr ?_
    · exact reach_play (f := NetScheduler.Delivering.step asAdded lastThrows)
        (fun _ _ _ => id) rfl _
    · exact run_play (f := NetScheduler.Delivering.step asAdded lastThrows) (fun _ _ _ => id)
        (plays_anyStep _ _ _)
    · exact rfl
    · decide
  · refine (hts (tsReady lastThrows) (tsSent lastThrows) _ (.scheduler (.fire 0))
      ⟨"mem-msg-2", "d", "x", []⟩ ?_ rfl rfl ?_ ?_).mpr ?_
    · exact reach_play (S := TsScheduler.delivering lastThrows)
        (f := TsScheduler.Delivering.step lastThrows) (fun _ _ _ => id) ⟨0, rfl⟩ _
    · exact run_play (f := TsScheduler.Delivering.step lastThrows) (fun _ _ _ => id) (by decide)
    · decide
    · decide

/-- **The second handler is not invoked when the first throws.** -/
theorem not_isolated :
    (¬ ∀ (ending : Nat → MessageHandler → Ending) (E : NetScheduler.Enumeration)
        (s s₁ t : NetScheduler.Delivering) (i : Nat) (destination body : String)
        (rest : List NetScheduler.Instr),
      Reach (NetScheduler.delivering E ending) s →
      s.scheduler.threads[i]? = some (.dispatch destination body :: rest) →
      s.step E ending (.scheduler (.run i)) = some s₁ →
      Run (NetScheduler.delivering E ending) anyStep s₁ t →
      t.Over E ending s.scheduler.tasks.length →
      Served t.log s.scheduler.tasks.length (s.scheduler.message destination body)
        (s.scheduler.targets destination)) ∧
    ¬ ∀ (ending : Nat → MessageHandler → Ending) (s s₁ t : TsScheduler.Delivering)
        (turn : TsScheduler.Turn) (message : ReceivedMessage),
      Reach (TsScheduler.delivering ending) s →
      s.step ending turn = some s₁ →
      s₁.scheduler.microtasks = s.scheduler.microtasks ++ [message] →
      Run (TsScheduler.delivering ending) (TsScheduler.Delivering.Keeps s.dispatches
        message.destination (s.scheduler.targets message.destination)) s₁ t →
      t.Over s.dispatches →
      Served t.log s.dispatches message (s.scheduler.targets message.destination) := by
  constructor
  · intro hclaim
    have hserved := hclaim firstThrows asAdded (netReady firstThrows) (netSent firstThrows)
      (play (NetScheduler.Delivering.step asAdded firstThrows) (netSent firstThrows) [.task 0])
      0 "d" "x" []
      (reach_play (f := NetScheduler.Delivering.step asAdded firstThrows) (fun _ _ _ => id) rfl _)
      rfl rfl
      (run_play (f := NetScheduler.Delivering.step asAdded firstThrows) (fun _ _ _ => id)
        (plays_anyStep _ _ _)) rfl
    exact absurd (hserved ⟨1⟩ (by decide)) (by decide)
  · intro hclaim
    have hserved := hclaim firstThrows (tsReady firstThrows) (tsSent firstThrows)
      (play (TsScheduler.Delivering.step firstThrows) (tsSent firstThrows)
        [.scheduler .microtask, .next])
      (.scheduler (.fire 0)) ⟨"mem-msg-2", "d", "x", []⟩
      (reach_play (S := TsScheduler.delivering firstThrows)
        (f := TsScheduler.Delivering.step firstThrows) (fun _ _ _ => id) ⟨0, rfl⟩ _)
      rfl rfl
      (run_play (f := TsScheduler.Delivering.step firstThrows) (fun _ _ _ => id) (by decide))
      (by decide)
    exact absurd (hserved ⟨1⟩ (by decide)) (by decide)

end MessagingPoc.Dispatch
