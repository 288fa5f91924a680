import MessagingPoc.Lib.Connection
import MessagingPoc.RabbitMq.DeadLetter

/-!
# A subscribe that fails

`subscribe` of `rabbitmq.ts` and `SubscribeAsync` of `RabbitMqScheduler.cs` create a channel for the
subscription and go on with it, call by call. Exchanges are asserted on the adapter's own channel,
everything else happens on the new one. Nothing is caught: a call that fails rejects the
subscription as it stands, and the retry decorator starts over with another channel.

The broker closes a channel on which it refuses something, and all of them when the connection ends;
a call may also fail with no channel closed, because it was made on a closed one or got no answer.

**The channel of a failed subscription is closed only if the error happens to close it**
(`subscribe_released_iff`).
-/

namespace MessagingPoc.RabbitMq.FailedSubscribe

open Amqp Connection

/-! ## An attempt -/

structure Attempt where
  runtime : Runtime
  topic : String
  call : Call
  /-- The exchanges a cache vouches for; they are not asserted again. -/
  known : Exchange → Bool
  failure : Failure

namespace Attempt

variable (a : Attempt)

/-- The call as it is read: .NET knows no transient subscriptions. -/
def read : Call :=
  { a.call with options := { a.call.options with
    transient := decide (a.runtime = .typescript) && a.call.options.transient } }

/-- The channel of a method. -/
def site : Method String → Option Site
  | .assertExchange e => if a.known e then none else some .shared
  | .prefetch .. | .assertQueue .. | .bindQueue .. | .consume .. => some .own

def command : Method String → Option Command
  | .consume .. => some .consume
  | m => (a.site m).map .call

/-- What `subscribe` awaits, one after another. -/
def commands (channel : ℕ) : List Command :=
  (ensureBusExchanges a.topic).filterMap a.command ++
    .createChannel :: (subscribeMethods a.topic channel a.read).filterMap a.command

/-- Subscribe, or be rejected. -/
def run (s : State) : State × Bool :=
  s.run s.nextChannel (a.commands s.nextChannel) a.failure

/-! ## Its program -/

/-- The methods of a subscription before it consumes. -/
def setup : List (Method String) := (subscribeMethods a.topic ownChannel a.read).dropLast

def program : Program where
  before := ((ensureBusExchanges a.topic).filterMap a.site).length
  calls := a.setup.filterMap a.site

variable {a}

theorem command_declares {m : Method String} (h : m.declares = true) :
    a.command m = (a.site m).map .call := by
  cases m with
  | assertExchange | assertQueue => rfl
  | prefetch | bindQueue | consume => cases h

theorem filterMap_command {ms : List (Method String)} (h : ∀ m ∈ ms, m.declares = true) :
    ms.filterMap a.command = (ms.filterMap a.site).map .call := by
  rw [List.map_filterMap]
  exact List.filterMap_congr fun m hm => command_declares (h m hm)

theorem filterMap_ensureBusExchanges (a : Attempt) (topic : String) :
    (ensureBusExchanges topic).filterMap a.command = List.replicate
      ((ensureBusExchanges topic).filterMap a.site).length (.call .shared) := by
  unfold ensureBusExchanges command site
  by_cases htopic : a.known (topicExchange topic) = true <;>
    by_cases hfanout : a.known (fanoutExchange topic) = true <;>
      simp [htopic, hfanout]

/-- The channel's number makes no difference to where the methods go. -/
theorem filterMap_subscribeMethods (a : Attempt) (channel : ℕ) :
    (subscribeMethods a.topic channel a.read).filterMap a.command =
      (a.setup.filterMap a.site).map .call ++ [.consume] := by
  unfold setup subscribeMethods
  split_ifs with hstream
  · rfl
  · have hsplit : ∀ (m bind consume : Method String) (ms : List (Method String)),
        m :: ms ++ [bind, consume] = (m :: (ms ++ [bind])) ++ [consume] := by simp
    rw [hsplit, hsplit, List.dropLast_concat, List.filterMap_append]
    simp only [List.filterMap_cons, List.filterMap_append, List.filterMap_nil,
      filterMap_command (declares_declarations a.topic a.read)]
    simp [command, site]

/-- **An attempt is a program** that creates one channel and consumes in the end. -/
theorem commands_eq (a : Attempt) (channel : ℕ) : a.commands channel = a.program.commands := by
  rw [commands, filterMap_ensureBusExchanges, filterMap_subscribeMethods]
  rfl

theorem run_eq (a : Attempt) (s : State) : a.run s = a.program.run s a.failure := by
  rw [run, commands_eq]
  rfl

/-! ## What it leaves behind -/

/-- One of the attempt's calls fails. -/
def Fails (a : Attempt) : Prop := a.program.Fails a.failure

/-- The failing call comes before there is a channel, or is made on the subscription's channel and
closes it, or ends the connection. -/
def Releases (a : Attempt) : Prop := a.program.Releases a.failure

/-- The error closes no channel but the subscription's. -/
def Confined (a : Attempt) : Prop := a.program.Confined a.failure

instance : DecidablePred Fails := fun _ => inferInstanceAs (Decidable (Program.Fails _ _))

instance : DecidablePred Releases := fun _ => inferInstanceAs (Decidable (Program.Releases _ _))

instance : DecidablePred Confined := fun _ => inferInstanceAs (Decidable (Program.Confined _ _))

end Attempt

/-- Attempts in a row. -/
def attempts (s : State) (as : List Attempt) : State := as.foldl (fun s a => (a.run s).1) s

theorem attempts_eq (s : State) (as : List Attempt) :
    attempts s as = Connection.attempts s (as.map fun a => (a.program, a.failure)) := by
  induction as generalizing s with
  | nil => rfl
  | cons a as ih =>
    rw [attempts, List.foldl_cons, Attempt.run_eq]
    exact ih _

/-- **A failed subscribe releases its channel exactly if the error does.** An attempt that is
rejected leaves no consumer, and no channel exactly under that condition; and as many channels are
open after failed attempts as before exactly if all of them meet it. -/
theorem subscribe_released_iff (s : State) (a : Attempt) (as : List Attempt) :
    (((a.run s).2 = false → s.nextChannel ∉ (a.run s).1.channels ∧
      s.nextChannel ∉ (a.run s).1.consumers) ↔ (a.Fails → a.Releases)) ∧
    ((∀ b ∈ as, b.Fails ∧ b.Confined) →
      ((attempts s as).channels.length = s.channels.length ↔ ∀ b ∈ as, b.Releases)) := by
  constructor
  · rw [Attempt.run_eq, run_rejected_iff]
    refine imp_congr_right fun hfails => ?_
    have hconsumers : s.nextChannel ∉ (a.program.run s a.failure).1.consumers :=
      fun h => (nextChannel_not_mem s).2 ((consumers_of_fails s hfails).subset h)
    rw [and_iff_left hconsumers]
    exact closed_iff s hfails
  · intro hfails
    have hlength := (length_attempts s (as.map fun a => (a.program, a.failure)) (by
      intro p hp
      obtain ⟨b, hb, rfl⟩ := List.mem_map.mp hp
      exact hfails b hb)).1
    rw [attempts_eq, hlength, Nat.add_eq_left, List.countP_map, List.countP_eq_zero]
    simp [Attempt.Releases]

/-! ## The retry decorator -/

/-- A connection with the adapter's own channel. -/
def connected : State where
  nextChannel := 1
  channels := [ownChannel]
  consumers := []
  started := Nat.one_pos
  opened channel h := by
    rw [List.mem_singleton.mp h]
    exact Nat.one_pos
  consuming channel h := absurd h List.not_mem_nil

/-- A subscription with retries. -/
def retrying : Call := ⟨{ deadLetter := true, retryDelayMs := some 100 }, "r", "s"⟩

/-- The broker refuses the exchange of the dead-letter address, and closes the adapter's channel. -/
def refused : Attempt := ⟨.typescript, "t", retrying, fun _ => false, ⟨4, .channel⟩⟩

/-- Started over, on the closed channel. -/
def again : Attempt :=
  ⟨.typescript, "t", retrying,
    fun e => e = topicExchange "t" ∨ e = fanoutExchange "t", ⟨2, .nothing⟩⟩

/-- **Every attempt leaves a channel open**, and the retries multiply it. -/
theorem retries_leak :
    (refused.run connected).2 = false ∧
      connected.nextChannel ∈ (refused.run connected).1.channels ∧
      (attempts connected [refused, again, again, again]).channels = [1, 2, 3, 4] := by
  decide

/-- A queue that exists with other arguments, twice in a row: the broker cleans up. -/
example : (attempts connected (List.replicate 2
    ⟨.typescript, "t", retrying, fun _ => false, ⟨7, .channel⟩⟩)).channels = [0] := by
  decide

end MessagingPoc.RabbitMq.FailedSubscribe
