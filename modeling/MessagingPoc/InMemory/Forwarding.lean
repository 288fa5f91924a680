import MessagingPoc.InMemory.NoLoss

/-!
# Copies of the messages that leave a queue

A message that dies on a queue with dead-letter wiring, and one that expires, is published once more
on an address derived from the queue's topic. Both copies go the same way: the step that takes the
message off its queue records its fate and schedules a publish, which a later step of the same call
executes.

**One copy for each fate** (`carried_eq`). The copies published, or about to be, are as many as the
fates recorded. **At the right address** (`forwarded`): each carries the body and the routing key of
the message, to the address of its queue's topic.
-/

namespace MessagingPoc

open Machine

/-- How a message can leave its queue other than by an ack. -/
inductive Fate
  | dead
  | expired
deriving DecidableEq

namespace Fate

/-- Why the copy of a message of that fate is published. -/
def cause (q : QueueRef) (m : BusMessage) : Fate → Cause
  | dead => .deadLetter q m
  | expired => .expiry q m

def event (m : BusMessage) : Fate → QueueEvent
  | dead => .dead m
  | expired => .expired m

def address (topic : String) : Fate → String
  | dead => deadLetterAddress topic
  | expired => expiryAddress topic

/-- Does a queue have a copy published? -/
def copied (Q : BusQueue) : Fate → Bool
  | dead => Q.deadLetter
  | expired => true

end Fate

/-- The step publishes for a given cause. -/
def Instr.carries (cause : Cause) : Instr → Bool
  | .publish _ _ _ _ cause' => cause' = cause
  | _ => false

/-- The event is a publish for a given cause. -/
def Event.carries (cause : Cause) : Event → Bool
  | .published _ _ _ _ cause' => cause' = cause
  | .on .. => false

theorem Instr.carries_of_light {i : Instr} (h : i.light = true) (cause : Cause) :
    i.carries cause = false := by
  cases i <;> simp_all [light, carries]

theorem countP_carries_on {α : Type*} (xs : List α) (f : α → QueueRef) (g : α → QueueEvent)
    (cause : Cause) :
    (xs.map fun x => Event.on (f x) (g x)).countP (Event.carries cause) = 0 := by
  rw [List.countP_eq_zero, List.forall_mem_map]
  intro x hx
  simp [Event.carries]

theorem count_onQueue (es : List Event) (q : QueueRef) (e : QueueEvent) :
    (es.filterMap (Event.onQueue q)).count e = es.count (.on q e) := by
  induction es with
  | nil => rfl
  | cons ev es ih =>
    rw [List.filterMap_cons, List.count_cons, ← ih]
    cases ev with
    | published => simp [Event.onQueue]
    | on q' e' =>
      by_cases hq : q' = q
      · simp [Event.onQueue, hq, List.count_cons]
      · simp [Event.onQueue, hq]

namespace World

/-- The publishes for a given cause that were made, or that a call is about to make. -/
def carried (w : World) (cause : Cause) : Nat :=
  w.agenda.countP (Instr.carries cause) + w.history.countP (Event.carries cause)

/-! ## Scheduling a copy -/

/-- The step publishes what it was to publish of the copies of `m`, and makes none due. -/
structure PassesOn (w : World) (i : Instr) (o : Outcome) (f : Fate) (q : QueueRef)
    (m : BusMessage) : Prop where
  copies : o.more.countP (Instr.carries (f.cause q m)) +
      o.world.history.countP (Event.carries (f.cause q m)) =
    (if i.carries (f.cause q m) then 1 else 0) + w.history.countP (Event.carries (f.cause q m))
  fate : o.world.history.count (.on q (f.event m)) = w.history.count (.on q (f.event m))

/-- The step takes `m` off its queue, and makes the copy due that the queue calls for. -/
structure MakesDue (w : World) (i : Instr) (o : Outcome) (f : Fate) (q : QueueRef)
    (m : BusMessage) : Prop where
  held : m ∈ (w.bus.queue q).pending ∨ ∃ c, (w.bus.queue q).inflight.lookup m = some c
  other : i.carries (f.cause q m) = false
  due : o.more.countP (Instr.carries (f.cause q m)) = if f.copied (w.bus.queue q) then 1 else 0
  published : o.world.history.countP (Event.carries (f.cause q m)) =
    w.history.countP (Event.carries (f.cause q m))
  fate : o.world.history.count (.on q (f.event m)) = w.history.count (.on q (f.event m)) + 1

/-- A step that takes a message off its queue makes the copy of that message due, and no other. -/
theorem carried_fate {w : World} {i : Instr} {o : Outcome} (f₀ : Fate) {q₀ : QueueRef}
    {m₀ : BusMessage} (hheld : m₀ ∈ (w.bus.queue q₀).pending ∨
      ∃ c, (w.bus.queue q₀).inflight.lookup m₀ = some c)
    (hi : ∀ cause, i.carries cause = false)
    (hmore : ∀ cause, o.more.countP (Instr.carries cause) =
      if f₀.cause q₀ m₀ = cause ∧ f₀.copied (w.bus.queue q₀) = true then 1 else 0)
    (hhistory : o.world.history = .on q₀ (f₀.event m₀) :: w.history) (f : Fate) (q : QueueRef)
    (m : BusMessage) : w.PassesOn i o f q m ∨ w.MakesDue i o f q m := by
  have hpublished : o.world.history.countP (Event.carries (f.cause q m)) =
      w.history.countP (Event.carries (f.cause q m)) := by
    rw [hhistory, List.countP_cons_of_neg (by simp [Event.carries])]
  by_cases hm : f₀ = f ∧ q₀ = q ∧ m₀ = m
  · obtain ⟨rfl, rfl, rfl⟩ := hm
    refine .inr ⟨hheld, hi _, ?_, hpublished, ?_⟩
    · rw [hmore]
      simp
    · rw [hhistory, List.count_cons_self]
  · have hcause : f₀.cause q₀ m₀ ≠ f.cause q m := by
      cases f <;> cases f₀ <;> simp_all [Fate.cause]
    have hevent : Event.on q₀ (f₀.event m₀) ≠ .on q (f.event m) := by
      cases f <;> cases f₀ <;> simp_all [Fate.event]
    refine .inl ⟨?_, ?_⟩
    · rw [hmore, hi, hpublished, if_neg fun h => hcause h.1]
      rfl
    · rw [hhistory, List.count_cons_of_ne hevent]

/-- **A step publishes the copy it was to publish, or it is the one that makes a copy due.** -/
theorem carried_exec {w : World} {i : Instr} {o : Outcome} (hex : Executes w i o) (f : Fate)
    (q : QueueRef) (m : BusMessage) (hplain : ∀ topic body key options,
      i = .publish topic body key options (f.cause q m) → options = none) :
    w.PassesOn i o f q m ∨ w.MakesDue i o f q m := by
  cases hex with
  | @publishSuppressed topic body key options cause hsup =>
    refine .inl ⟨?_, rfl⟩
    have hcarries :
        Instr.carries (f.cause q m) (.publish topic body key options cause) = false := by
      by_contra hcarries
      simp only [Instr.carries, decide_eq_false_iff_not, not_not] at hcarries
      subst hcarries
      rw [hplain _ _ _ _ rfl] at hsup
      simp [Bus.suppressed] at hsup
    simp [hcarries]
  | @publish topic body key options cause logged b₁ b₂ copies _ hlog hcopies =>
    have hlight : (copies.flatMap (afterEnqueue options)).countP
        (Instr.carries (f.cause q m)) = 0 := by
      refine List.countP_eq_zero.mpr fun x hx => ?_
      simp [Instr.carries_of_light (light_afterEnqueue hx)]
    have hfate : (copies.map fun t => Event.on t.1 (.arrived t.2 logged.ref)).count
        (.on q (f.event m)) = 0 := List.count_eq_zero.mpr (by cases f <;> simp [Fate.event])
    refine .inl ⟨?_, ?_⟩
    · simp only [record, withBus, List.countP_append, List.countP_reverse, countP_carries_on,
        hlight, List.countP_singleton, Instr.carries, Event.carries]
      by_cases hcause : cause = f.cause q m
      · simp only [hcause, decide_true, if_true]
        omega
      · simp [hcause]
    · simp [record, withBus, hfate]
  | settleDead _ hl =>
    refine carried_fate .dead (.inr ⟨_, hl⟩) (fun _ => rfl) (fun cause => ?_) rfl f q m
    unfold BusQueue.deadLetterCall Fate.copied Fate.cause
    split_ifs <;> simp_all [Instr.carries]
  | expirePending hp =>
    refine carried_fate .expired (.inl hp) (fun _ => rfl) (fun cause => ?_) rfl f q m
    simp [Instr.carries, Fate.cause, Fate.copied, List.countP_singleton]
  | expireInflight _ hl =>
    refine carried_fate .expired (.inr ⟨_, hl⟩) (fun _ => rfl) (fun cause => ?_) rfl f q m
    simp [Instr.carries, Fate.cause, Fate.copied, List.countP_singleton]
  | caught hmore =>
    rcases hmore with rfl | rfl <;> exact .inl ⟨by simp [Instr.carries], rfl⟩
  | @subscribeNew topic id handler opts b₁ b₂ b₃ seeded =>
    have hfate : (seeded.map fun t => Event.on b₁.nextQueue (.arrived t.1 t.2.ref)).count
        (.on q (f.event m)) = 0 := List.count_eq_zero.mpr (by cases f <;> simp [Fate.event])
    refine .inl ⟨?_, ?_⟩
    · simp [record, withBus, Event.carries, Instr.carries]
    · cases f <;> simp_all [record, withBus, Fate.event]
  | @dispose s q₀ c =>
    have hfate : (((w.bus.queue q₀).heldBy c).map fun m => Event.on q₀ (.returned m)).count
        (.on q (f.event m)) = 0 := List.count_eq_zero.mpr (by cases f <;> simp [Fate.event])
    refine .inl ⟨?_, ?_⟩
    · simp [record, withBus, Event.carries, Instr.carries]
    · cases f <;> simp_all [record, withBus, Fate.event]
  | _ =>
    refine .inl ⟨?_, ?_⟩
    · simp [record, withBus, release, deliver, Event.carries, Instr.carries]
    · cases f <;> simp [record, withBus, release, deliver, Fate.event]

/-- A copy that is due comes from the step that took its message off the queue, and has the content
and the address of the message. -/
theorem carried_more {w : World} {i : Instr} {o : Outcome} (hex : Executes w i o) (f : Fate)
    {topic body : String} {key : Option String} {options : Option PublishOptions} {q : QueueRef}
    {m : BusMessage} (h : .publish topic body key options (f.cause q m) ∈ o.more) :
    (m ∈ (w.bus.queue q).pending ∨ ∃ c, (w.bus.queue q).inflight.lookup m = some c) ∧
      topic = f.address (w.bus.queue q).topic ∧ body = m.body ∧
      key = some m.routingKey ∧ options = none := by
  cases hex with
  | publish => exact absurd (light_afterEnqueue h) (by simp [Instr.light])
  | settleDead _ hl =>
    unfold BusQueue.deadLetterCall at h
    cases f <;> split_ifs at h <;> simp [Fate.cause] at h
    obtain ⟨rfl, rfl, rfl, rfl, rfl, rfl⟩ := h
    exact ⟨.inr ⟨_, hl⟩, rfl, rfl, rfl, rfl⟩
  | expirePending hp =>
    cases f <;> simp [Fate.cause] at h
    obtain ⟨rfl, rfl, rfl, rfl, rfl, rfl⟩ := h
    exact ⟨.inl hp, rfl, rfl, rfl, rfl⟩
  | expireInflight hp hl =>
    cases f <;> simp [Fate.cause] at h
    obtain ⟨rfl, rfl, rfl, rfl, rfl, rfl⟩ := h
    exact ⟨.inr ⟨_, hl⟩, rfl, rfl, rfl, rfl⟩
  | caught hmore => rcases hmore with rfl | rfl <;> simp at h
  | _ => simp at h

theorem published_history {w : World} {i : Instr} {o : Outcome} (hex : Executes w i o)
    {topic body key : String} {options : Option PublishOptions} {cause : Cause}
    (h : .published topic body key options cause ∈ o.world.history) :
    .published topic body key options cause ∈ w.history ∨
      ∃ routingKey, i = .publish topic body routingKey options cause ∧
        key = routingKey.getD topic := by
  cases hex with
  | publish =>
    simp only [record, withBus, List.mem_append, List.mem_reverse, List.mem_map, reduceCtorEq,
      and_false, exists_false, List.mem_singleton, Event.published.injEq, false_or] at h
    rcases h with ⟨rfl, rfl, rfl, rfl, rfl⟩ | h
    · exact .inr ⟨_, rfl, rfl⟩
    · exact .inl h
  | _ =>
    left
    first
      | exact h
      | simpa [record, withBus, release, deliver] using h

/-! ## Whole runs -/

/-- Copies, published or due, are those of a message of a queue, at the address its fate calls
for. -/
structure Forwarded (w : World) (f : Fate) : Prop where
  due : ∀ topic body key options q m,
    .publish topic body key options (f.cause q m) ∈ w.agenda → q < w.bus.nextQueue ∧
      topic = f.address (w.bus.queue q).topic ∧ body = m.body ∧
      key = some m.routingKey ∧ options = none
  published : ∀ topic body key options q m,
    .published topic body key options (f.cause q m) ∈ w.history → q < w.bus.nextQueue ∧
      topic = f.address (w.bus.queue q).topic ∧ body = m.body ∧
      key = m.routingKey ∧ options = none

theorem used_of_held {w : World} (hg : w.Good) {q : QueueRef} {m : BusMessage}
    (h : m ∈ (w.bus.queue q).pending ∨ ∃ c, (w.bus.queue q).inflight.lookup m = some c) :
    q < w.bus.nextQueue := by
  rcases h with hm | ⟨c, hl⟩
  · exact hg.sound.used_of_pending (hg.lane q) hm
  · exact hg.sound.used_of_lookup (hg.lane q) hl

theorem forwarded {w : World} (h : Reach busMachine w) (f : Fate) : w.Forwarded f := by
  refine h.invariant (I := fun w => w.Forwarded f) (fun w hw => ?_)
    fun w l w' hr ih _ hstep => ?_
  · rw [busMachine_init.mp hw]
    exact ⟨by simp [agenda], by simp⟩
  · have hg := good hr
    have hs := busMachine_step.mp hstep
    have hnext := nextQueue_step hg hs
    have htopic : ∀ {q}, q < w.bus.nextQueue → (w'.bus.queue q).topic = (w.bus.queue q).topic :=
      fun hq => by rw [options_step hg hs hq]
    refine ⟨fun topic body key options q m hx => ?_, fun topic body key options q m hx => ?_⟩
    · rcases mem_agenda_step hs hx with hx | ⟨i, hi, hx⟩ | ⟨op, hx⟩ | ⟨t, -, hx⟩
      · obtain ⟨hq, hrest⟩ := ih.due _ _ _ _ _ _ hx
        rw [htopic hq]
        exact ⟨hq.trans_le hnext, hrest⟩
      · obtain ⟨hheld, hrest⟩ := carried_more (w.executes i) f hx
        have hq := used_of_held hg hheld
        rw [htopic hq]
        exact ⟨hq.trans_le hnext, hrest⟩
      · cases f <;> cases op <;> simp [Op.entry, Fate.cause] at hx
      · cases f <;> cases t <;> simp [Timer.continuation] at hx
    · have hold : .published topic body key options (f.cause q m) ∈ w.history ∨
          ∃ routingKey, .publish topic body routingKey options (f.cause q m) ∈ w.agenda ∧
            key = routingKey.getD topic := by
        cases hi : w.next l with
        | none => exact .inl ((step_idle hs hi).2.2.2 ▸ hx)
        | some i =>
          rw [(step_next hs hi).2.2.2.2] at hx
          rcases published_history (w.executes i) hx with hx | ⟨routingKey, rfl, hkey⟩
          · exact .inl hx
          · exact .inr ⟨routingKey, mem_agenda_of_next hi, hkey⟩
      rcases hold with hold | ⟨routingKey, hdue, rfl⟩
      · obtain ⟨hq, hrest⟩ := ih.published _ _ _ _ _ _ hold
        rw [htopic hq]
        exact ⟨hq.trans_le hnext, hrest⟩
      · obtain ⟨hq, rfl, rfl, rfl, rfl⟩ := ih.due _ _ _ _ _ _ hdue
        rw [htopic hq]
        exact ⟨hq.trans_le hnext, rfl, rfl, rfl, rfl⟩

/-- **One copy for each fate**, on a queue that has copies published, and none otherwise. -/
theorem carried_eq {w : World} (h : Reach busMachine w) (f : Fate) (q : QueueRef)
    (m : BusMessage) : w.carried (f.cause q m) =
      if f.copied (w.bus.queue q) then (w.trail q).count (f.event m) else 0 := by
  rw [trail, count_onQueue]
  refine h.invariant (I := fun w => w.carried (f.cause q m) =
    if f.copied (w.bus.queue q) then w.history.count (.on q (f.event m)) else 0)
    (fun w hw => ?_) fun w l w' hr ih _ hstep => ?_
  · rw [busMachine_init.mp hw]
    simp [carried, agenda]
  have hg := good hr
  have hs := busMachine_step.mp hstep
  -- The wiring of the queue changes only when it is created, with no record yet.
  have hwiring : f.copied (w'.bus.queue q) = f.copied (w.bus.queue q) ∨
      w.history.count (.on q (f.event m)) = 0 := by
    by_cases hq : q < w.bus.nextQueue
    · left
      rw [options_step hg hs hq]
      cases f <;> rfl
    · right
      rw [← count_onQueue, ← trail, hg.sound.unused q (not_lt.mp hq)]
      rfl
  have hsame : w'.carried (f.cause q m) = w.carried (f.cause q m) →
      w'.history.count (.on q (f.event m)) = w.history.count (.on q (f.event m)) →
      w'.carried (f.cause q m) =
        if f.copied (w'.bus.queue q) then w'.history.count (.on q (f.event m)) else 0 := by
    intro hcarried hfate
    rw [hcarried, hfate, ih]
    rcases hwiring with hwiring | hzero
    · rw [hwiring]
    · simp [hzero]
  cases l with
  | call op =>
    obtain rfl := step_call hs
    refine hsame ?_ rfl
    cases f <;> cases op <;> simp [carried, agenda, Op.entry, Instr.carries, Fate.cause]
  | fire n =>
    obtain ⟨t, -, rfl⟩ := step_fire hs
    refine hsame ?_ rfl
    cases t <;> simp [carried, agenda, Timer.continuation, Instr.carries]
  | run n =>
    obtain ⟨i, -, -, hi, -⟩ := step_run hs
    have hhistory := (step_next hs hi).2.2.2.2
    have hcount := countP_agenda_run hg.light hs hi (Instr.carries (f.cause q m))
      fun _ x hx => Instr.carries_of_light hx _
    have hplain : ∀ topic body key options,
        i = .publish topic body key options (f.cause q m) → options = none := by
      rintro topic body key options rfl
      exact ((forwarded hr f).due _ _ _ _ _ _ (mem_agenda_of_next hi)).2.2.2.2
    rcases carried_exec (w.executes i) f q m hplain with ⟨hsum, hfate⟩ |
      ⟨hheld, hno, hmore, hpublished, hfate⟩
    · rw [← hhistory] at hsum hfate
      refine hsame ?_ hfate
      unfold carried
      omega
    · rw [← hhistory] at hpublished hfate
      have hcopied : f.copied (w'.bus.queue q) = f.copied (w.bus.queue q) := by
        rw [options_step hg hs (used_of_held hg hheld)]
        cases f <;> rfl
      rw [hno, hmore] at hcount
      simp only [carried] at ih ⊢
      rw [hfate, hpublished, hcopied]
      simp only [Bool.false_eq_true, if_false] at hcount
      cases hwired : f.copied (w.bus.queue q) with
      | false =>
        simp only [hwired, Bool.false_eq_true, if_false, Nat.add_zero] at hcount ih ⊢
        rw [hcount, ih]
      | true =>
        simp only [hwired, if_true, Nat.add_zero] at hcount ih ⊢
        rw [hcount, ← ih, Nat.add_right_comm]

end World

end MessagingPoc
