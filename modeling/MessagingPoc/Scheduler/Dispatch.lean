import MessagingPoc.Abstractions
import MessagingPoc.Lib.Relay
import Mathlib.Data.List.Count

/-!
# What a dispatch calls

Both schedulers hand a message to the handlers of its destination in a loop. The loops differ in
what ends them; here is what they share: the ways in which the call of a handler can end, the log
of the calls, and what it takes for each of the handlers to be called exactly once.
-/

namespace MessagingPoc.Dispatch

open Relay

/-! ## Invocations -/

/-- How the call of a handler ends. -/
inductive Ending
  /-- It returns; what it returned completes. -/
  | completes
  /-- It throws before it returns. -/
  | throws
  /-- The task faults, the promise is rejected. -/
  | faults
  /-- What it returned never completes. -/
  | hangs
deriving DecidableEq

/-- A call of a handler. Message ids wrap around; the number of the dispatch does not. -/
structure Invocation where
  dispatch : Nat
  handler : MessageHandler
  message : ReceivedMessage
deriving DecidableEq

/-- What one dispatch has called of some handlers. -/
def callsOf (log : List Invocation) (k : Nat) (handlers : List MessageHandler) : List Invocation :=
  log.filter fun i => i.dispatch = k ∧ i.handler ∈ handlers

/-- Each of the handlers has been invoked exactly once with the message of the dispatch. -/
def Served (log : List Invocation) (k : Nat) (message : ReceivedMessage)
    (handlers : List MessageHandler) : Prop :=
  ∀ h ∈ handlers, log.count ⟨k, h, message⟩ = 1

instance (log : List Invocation) (k : Nat) (message : ReceivedMessage)
    (handlers : List MessageHandler) : Decidable (Served log k message handlers) :=
  inferInstanceAs (Decidable (∀ h ∈ handlers, _))

variable {log : List Invocation} {k : Nat} {handlers : List MessageHandler}

theorem callsOf_snoc {h : MessageHandler} {message : ReceivedMessage} (hmem : h ∈ handlers) :
    callsOf (log ++ [⟨k, h, message⟩]) k handlers =
      callsOf log k handlers ++ [⟨k, h, message⟩] := by
  simp [callsOf, hmem]

theorem callsOf_snoc_of_not {i : Invocation} (h : ¬ (i.dispatch = k ∧ i.handler ∈ handlers)) :
    callsOf (log ++ [i]) k handlers = callsOf log k handlers := by
  simp only [callsOf, List.filter_append, List.filter_singleton, decide_eq_false h, cond_false,
    List.append_nil]

/-- The handlers a loop was to call are served exactly when none but the last stops it. -/
theorem served_iff_of_calls {order : List MessageHandler} {message : ReceivedMessage}
    {stops : MessageHandler → Prop} [DecidablePred stops] (hperm : order.Perm handlers)
    (hnodup : handlers.Nodup)
    (hcalls : callsOf log k handlers = (called stops order).map fun h => ⟨k, h, message⟩) :
    Served log k message handlers ↔ ∀ h ∈ order.dropLast, ¬ stops h := by
  rw [← count_called (hperm.nodup_iff.mpr hnodup)]
  have hcount : ∀ h ∈ handlers, log.count ⟨k, h, message⟩ = (called stops order).count h := by
    intro h hmem
    have hinj : Function.Injective fun h => Invocation.mk k h message := by
      intro a b hab
      injection hab
    calc log.count ⟨k, h, message⟩ = (callsOf log k handlers).count ⟨k, h, message⟩ :=
          (List.count_filter (by simp [hmem])).symm
      _ = (called stops order).count h := by
          rw [hcalls]
          exact List.count_map_of_injective _ _ hinj h
  constructor
  · intro hserved h hmem
    rw [← hcount h (hperm.subset hmem)]
    exact hserved h (hperm.subset hmem)
  · intro hall h hmem
    rw [hcount h hmem]
    exact hall h (hperm.symm.subset hmem)

end MessagingPoc.Dispatch
