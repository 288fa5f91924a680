import MessagingPoc.InMemory.Forwarding

/-!
# Producer deduplication

A publish whose `DedupId` was seen before is dropped before anything happens to it. The ids are
remembered for the whole bus, not for each topic, so a publish is suppressed exactly when an earlier
one carried its id, on whatever topic (`suppressed_iff`); two producers that pick the same id on
different topics do suppress one another (`other_topic_suppresses`).
-/

namespace MessagingPoc

open Machine

/-- A call of `Publish` whose lock body was run, suppressed or not. -/
structure PublishCall where
  topic : String
  options : Option PublishOptions
deriving DecidableEq

/-- The call carries a dedup id. -/
def PublishCall.Carries (p : PublishCall) (id : String) : Prop :=
  p.options.bind (·.dedupId) = some id

namespace World

/-- What a step adds to the record of publishes. -/
def publishing (w : World) (l : Label) : List PublishCall :=
  match w.next l with
  | some (.publish topic _ _ options _) => [⟨topic, options⟩]
  | _ => []

end World

/-- The bus beside the record of its publishes, the newest first. -/
def publishedMachine : System (World × List PublishCall) Label :=
  busMachine.recording World.publishing

namespace Bus

theorem suppressed_eq_true {b : Bus} {options : Option PublishOptions} :
    b.suppressed options = true ↔
      ∃ id, options.bind (·.dedupId) = some id ∧ id ∈ b.seenDedupIds.items := by
  unfold suppressed
  split
  · rename_i id hid
    simp [hid]
  · rename_i hid
    simp [hid]

theorem mem_seeDedupId {b : Bus} {options : Option PublishOptions} {id : String} :
    id ∈ (b.seeDedupId options).seenDedupIds.items ↔
      id ∈ b.seenDedupIds.items ∨ options.bind (·.dedupId) = some id := by
  unfold seeDedupId
  split
  · rename_i dup hdup
    simp [InsertionSet.mem_add, hdup, eq_comm]
  · rename_i hdup
    simp [hdup]

theorem seenDedupIds_enqueueCopies (topic body key : String) (options : Option PublishOptions)
    (qs : List QueueRef) (b : Bus) :
    (enqueueCopies topic body key options qs b).2.seenDedupIds = b.seenDedupIds := by
  induction qs generalizing b with
  | nil => rfl
  | cons q qs ih => exact ih _

end Bus

namespace World

theorem exec_suppressed {w : World} {options : Option PublishOptions}
    (h : w.bus.suppressed options = true) (topic body : String) (routingKey : Option String)
    (cause : Cause) :
    w.exec (.publish topic body routingKey options cause) = { world := w } := by
  simp [exec, publish, h]

theorem seenDedupIds_exec {w : World} {i : Instr} {o : Outcome} (hex : Executes w i o)
    (id : String) :
    id ∈ o.world.bus.seenDedupIds.items ↔ id ∈ w.bus.seenDedupIds.items ∨
      ∃ topic body routingKey options cause,
        i = .publish topic body routingKey options cause ∧ options.bind (·.dedupId) = some id := by
  cases hex with
  | @publishSuppressed topic body routingKey options cause h =>
    obtain ⟨dup, hdup, hseen⟩ := Bus.suppressed_eq_true.mp h
    refine ⟨.inl, fun h => h.elim (fun h => h) ?_⟩
    rintro ⟨_, _, _, _, _, heq, hid⟩
    cases heq
    obtain rfl := Option.some.inj (hdup.symm.trans hid)
    exact hseen
  | @publish topic body routingKey options cause logged b₁ b₂ copies h hlog hcopies =>
    have hlogged : b₁.seenDedupIds = (w.bus.seeDedupId options).seenDedupIds :=
      (congrArg (·.2.seenDedupIds) hlog).symm
    have hseen := Bus.seenDedupIds_enqueueCopies topic body (routingKey.getD topic) options
      (b₁.targets topic (routingKey.getD topic)) b₁
    rw [hcopies, hlogged] at hseen
    show id ∈ b₂.seenDedupIds.items ↔ _
    rw [hseen, Bus.mem_seeDedupId]
    simp
  | subscribeOld hid =>
    rw [Bus.subscriberId_eq hid]
    simp [record, withBus, Bus.attach, Bus.setQueue]
  | @subscribeNew topic sid handler opts b₁ b₂ b₃ seeded hid hq hb₂ hseeded =>
    have hseen : b₃.seenDedupIds = w.bus.seenDedupIds := by
      rw [(Bus.seeded_replay hseeded).frame, hb₂, Bus.subscriberId_eq hid]
      rfl
    show id ∈ b₃.seenDedupIds.items ↔ _
    simp [hseen]
  | _ => simp [record, withBus, release, deliver, Bus.setQueue, Bus.enqueue]

/-- **The ids seen are those of the publishes so far**, on any topic. -/
theorem seen_iff {p : World × List PublishCall} (h : Reach publishedMachine p) (id : String) :
    id ∈ p.1.bus.seenDedupIds.items ↔ ∃ call ∈ p.2, call.Carries id := by
  refine h.invariant (I := fun p => id ∈ p.1.bus.seenDedupIds.items ↔ ∃ call ∈ p.2, call.Carries id)
    (fun p hp => ?_) fun p l p' _ ih _ hstep => ?_
  · rw [busMachine_init.mp hp.1, hp.2]
    simp
  obtain ⟨hstep, hnotes⟩ := step_recording.mp hstep
  have hs := busMachine_step.mp hstep
  rw [hnotes]
  cases hi : p.1.next l with
  | none =>
    rw [(step_idle hs hi).1, ih]
    simp [publishing, hi]
  | some i =>
    rw [(step_next hs hi).1, seenDedupIds_exec (p.1.executes i) id, ih]
    cases i with
    | publish => simp [publishing, hi, PublishCall.Carries, or_comm]
    | _ => simp [publishing, hi]

/-- What the lock body of a publish does when it is not suppressed: a log entry, a fresh message on
each target, and for each of them a TTL timer, if there is a TTL, and a turn of `Pump`. -/
def Publishes (w : World) (topic body key : String) (options : Option PublishOptions)
    (o : Outcome) : Prop :=
  ∃ logged copies, Bus.Published topic body key options w.bus logged copies o.world.bus ∧
    o.more = copies.flatMap (afterEnqueue options)

/-- **A publish is suppressed exactly when an earlier one, on any topic, carried its dedup id**; a
publish that is not takes place in full. -/
theorem suppressed_iff {p : World × List PublishCall} (h : Reach publishedMachine p)
    (topic body : String) (routingKey : Option String) (options : Option PublishOptions)
    (cause : Cause) :
    (p.1.exec (.publish topic body routingKey options cause) = { world := p.1 } ↔
      ∃ id, options.bind (·.dedupId) = some id ∧ ∃ call ∈ p.2, call.Carries id) ∧
    ((¬ ∃ id, options.bind (·.dedupId) = some id ∧ ∃ call ∈ p.2, call.Carries id) →
      Publishes p.1 topic body (routingKey.getD topic) options
        (p.1.exec (.publish topic body routingKey options cause))) := by
  simp only [← seen_iff h, ← Bus.suppressed_eq_true]
  have hex := p.1.executes (.publish topic body routingKey options cause)
  generalize p.1.exec (.publish topic body routingKey options cause) = o at hex ⊢
  cases hex with
  | publishSuppressed hsup => exact ⟨by simp [hsup], fun hnot => absurd hsup hnot⟩
  | @publish _ _ _ _ _ logged b₁ b₂ copies hsup hlog hcopies =>
    have hp := Bus.published hlog hcopies
    refine ⟨?_, fun _ => ⟨logged, copies, hp, rfl⟩⟩
    rw [hsup]
    refine iff_of_false (fun heq => ?_) (by simp)
    -- The log has grown.
    have hlength := congrArg (fun o => (o.world.bus.streamLog topic).length) heq
    simp [record, withBus, hp.log] at hlength

/-- Play a list of labels beside the record. -/
def playPublished (ls : List Label) : World × List PublishCall :=
  Machine.play (recordStep step publishing) ({}, []) ls

theorem reach_playPublished (ls : List Label) : Reach publishedMachine (playPublished ls) :=
  Machine.reach_play (recordStep_step fun _ _ _ => id) ⟨rfl, rfl⟩ ls

/-- An id is published once, on one topic. -/
def onceOnA : List Label := [.call (.publish "a" "x" none (some { dedupId := some "d" })), .run 0]

theorem suppressed_iff_repeat :
    (playPublished onceOnA).1.exec
      (.publish "a" "x" none (some { dedupId := some "d" }) .client) =
        { world := (playPublished onceOnA).1 } :=
  (suppressed_iff (reach_playPublished onceOnA) "a" "x" none (some { dedupId := some "d" })
    .client).1.mpr ⟨"d", rfl, ⟨"a", some { dedupId := some "d" }⟩, by decide, rfl⟩

/-- **A publish on another topic suppresses.** The bus keeps one set of the ids it has seen. -/
theorem other_topic_suppresses : ¬ ∀ p : World × List PublishCall, Reach publishedMachine p →
    ∀ topic body routingKey options cause,
      p.1.exec (.publish topic body routingKey options cause) = { world := p.1 } ↔
        ∃ id, options.bind (·.dedupId) = some id ∧
          ∃ call ∈ p.2, call.topic = topic ∧ call.Carries id := by
  intro hclaim
  have hsup : (playPublished onceOnA).1.bus.suppressed (some { dedupId := some "d" }) = true := by
    decide
  obtain ⟨id, -, call, hcall, htopic, -⟩ := (hclaim _ (reach_playPublished onceOnA) "b" "x" none
    (some { dedupId := some "d" }) .client).mp
      (exec_suppressed hsup ..)
  have hall : ∀ call ∈ (playPublished onceOnA).2, call.topic ≠ "b" := by decide
  exact hall call hcall htopic

end World

end MessagingPoc
