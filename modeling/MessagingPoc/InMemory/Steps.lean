import MessagingPoc.InMemory.Custody

/-!
# What a step of the bus does

`Executes` lists, case by case, what each step of a thread does; every invariant of the bus is a
case analysis over it. The *agenda* of a world is the steps all its threads still have to take.
Only a turn of `Pump` can throw, and then the rest of its thread is lost; nothing but pumps,
expiry timers still to be armed and subscriptions still to be returned ever waits behind another
step (`Light`), so an exception never takes a publish, a retry timer or a handler's start with it.

The view of a world from one queue is a lane (`World.lane`).
-/

namespace MessagingPoc

open Machine

/-! ## Case by case -/

/-- The outcomes of a step. -/
inductive Executes (w : World) : Instr → Outcome → Prop
  | publishSuppressed {topic body : String} {routingKey : Option String}
      {options : Option PublishOptions} {cause : Cause} (h : w.bus.suppressed options = true) :
      Executes w (.publish topic body routingKey options cause) { world := w }
  | publish {topic body : String} {routingKey : Option String} {options : Option PublishOptions}
      {cause : Cause} {logged : BusMessage} {b₁ b₂ : Bus}
      {copies : List (QueueRef × BusMessage)}
      (h : w.bus.suppressed options = false)
      (hlog : (w.bus.seeDedupId options).appendLog topic body (routingKey.getD topic) options =
        (logged, b₁))
      (hcopies : Bus.enqueueCopies topic body (routingKey.getD topic) options
        (b₁.targets topic (routingKey.getD topic)) b₁ = (copies, b₂)) :
      Executes w (.publish topic body routingKey options cause)
        { world := (w.withBus b₂).record
            ((copies.map fun t => .on t.1 (.arrived t.2 logged.ref)).reverse ++
              [.published topic body (routingKey.getD topic) options cause])
          more := copies.flatMap (afterEnqueue options) }
  | armExpiry {q : QueueRef} {m : BusMessage} :
      Executes w (.armExpiry q m) { world := { w with timers := w.timers ++ [.expiry q m] } }
  | subscribeOld {topic id : String} {handler : AckHandler} {opts : SubscribeOptions} {b₁ : Bus}
      {q : QueueRef} (hid : w.bus.subscriberId opts = (id, b₁))
      (hq : b₁.queues (Bus.key topic id) = some q) :
      Executes w (.subscribe topic handler opts)
        { world := (w.withBus (b₁.attach q handler)).record [.on q (.attached handler)]
          more := [.pump q, .returnSubscription q handler] }
  | subscribeNew {topic id : String} {handler : AckHandler} {opts : SubscribeOptions}
      {b₁ b₂ b₃ : Bus} {seeded : List (BusMessage × BusMessage)}
      (hid : w.bus.subscriberId opts = (id, b₁))
      (hq : b₁.queues (Bus.key topic id) = none)
      (hb₂ : b₂ = b₁.createQueue topic (Bus.key topic id) opts)
      (hseeded : Bus.replay topic b₁.nextQueue (b₂.backlog topic b₁.nextQueue opts) b₂ =
        (seeded, b₃)) :
      Executes w (.subscribe topic handler opts)
        { world := (w.withBus (b₃.attach b₁.nextQueue handler)).record
            (.on b₁.nextQueue (.attached handler) ::
              (seeded.map fun t => .on b₁.nextQueue (.arrived t.1 t.2.ref)).reverse)
          more := [.pump b₁.nextQueue, .returnSubscription b₁.nextQueue handler] }
  | returnSubscription {q : QueueRef} {c : AckHandler} :
      Executes w (.returnSubscription q c)
        { world := { w with subscriptions := w.subscriptions ++ [(q, c)] } }
  | pumpThrew {q : QueueRef} {Q : BusQueue} (h : (w.bus.queue q).next = (.threw, Q)) :
      Executes w (.pump q) { world := w.withBus (w.bus.setQueue q Q), threw := true }
  | pumpNobody {q : QueueRef} {Q : BusQueue} (h : (w.bus.queue q).next = (.nobody, Q)) :
      Executes w (.pump q) { world := w.withBus (w.bus.setQueue q Q) }
  | pumpFound {q : QueueRef} {Q : BusQueue} {m : BusMessage} {c : AckHandler}
      (h : (w.bus.queue q).next = (.found (m, c), Q)) :
      Executes w (.pump q)
        { world := w.deliver q Q m c, more := [.wrap q m c w.history.length, .pump q] }
  | wrap {q : QueueRef} {m : BusMessage} {c : AckHandler} {d : Nat} :
      Executes w (.wrap q m c d)
        { world := { w with handles := w.handles ++ [MessagingPoc.wrap w.bus q m c d] }.record
            [.on q (.handed m c (w.bus.deliveryCount m.ref))] }
  | markSettled {h : Nat} {kind : SettleKind} :
      Executes w (.markSettled h kind)
        { world := { w with handles := w.handles.modify h fun i => { i with settled := true } }
          more := [.settle h kind] }
  /-- The handle does not exist, or its message is not in flight to its consumer. -/
  | settleIgnored {h : Nat} {kind : SettleKind}
      (hi : ∀ i, w.handles[h]? = some i →
        (w.bus.queue i.queue).inflight.lookup i.message ≠ some i.consumer) :
      Executes w (.settle h kind) { world := w }
  | settleAck {h : Nat} {i : IncomingBusMessage} (hi : w.handles[h]? = some i)
      (hl : (w.bus.queue i.queue).inflight.lookup i.message = some i.consumer) :
      Executes w (.settle h .ack)
        { world := w.release i.queue i.message (.acked i.message), more := [.pump i.queue] }
  | settleDead {h : Nat} {kind : SettleKind} {i : IncomingBusMessage}
      (hi : w.handles[h]? = some i)
      (hl : (w.bus.queue i.queue).inflight.lookup i.message = some i.consumer)
      (hkind : kind = .dead ∨ (kind = .requeue ∧
        (w.bus.queue i.queue).maxDeliveries ≤ w.bus.deliveryCount i.message.ref)) :
      Executes w (.settle h kind)
        { world := w.release i.queue i.message (.dead i.message)
          more := (w.bus.queue i.queue).deadLetterCall i.queue i.message ++ [.pump i.queue] }
  | settlePark {h : Nat} {i : IncomingBusMessage} (hi : w.handles[h]? = some i)
      (hl : (w.bus.queue i.queue).inflight.lookup i.message = some i.consumer)
      (hbudget : w.bus.deliveryCount i.message.ref < (w.bus.queue i.queue).maxDeliveries)
      (hdelay : (w.bus.queue i.queue).retryDelayMs.any (· > 0) = true) :
      Executes w (.settle h .requeue)
        { world := w.release i.queue i.message (.parked i.message)
          more := [.armRetry i.queue i.message, .pump i.queue] }
  | settleRequeue {h : Nat} {i : IncomingBusMessage} (hi : w.handles[h]? = some i)
      (hl : (w.bus.queue i.queue).inflight.lookup i.message = some i.consumer)
      (hbudget : w.bus.deliveryCount i.message.ref < (w.bus.queue i.queue).maxDeliveries)
      (hdelay : (w.bus.queue i.queue).retryDelayMs.any (· > 0) = false) :
      Executes w (.settle h .requeue)
        { world := (w.release i.queue i.message (.requeued i.message)).withBus
            ((w.release i.queue i.message (.requeued i.message)).bus.enqueue i.queue i.message)
          more := [.pump i.queue] }
  | caught {h : Nat} {more : List Instr} (hmore : more = [] ∨ more = [.markSettled h .requeue]) :
      Executes w (.caught h) { world := w, more := more }
  | armRetry {q : QueueRef} {m : BusMessage} :
      Executes w (.armRetry q m) { world := { w with timers := w.timers ++ [.retry q m] } }
  | retry {q : QueueRef} {m : BusMessage} :
      Executes w (.retry q m)
        { world := (w.withBus (w.bus.enqueue q m)).record [.on q (.unparked m)]
          more := [.pump q] }
  | expireGone {q : QueueRef} {m : BusMessage} (hp : m ∉ (w.bus.queue q).pending)
      (hi : (w.bus.queue q).inflight.lookup m = none) :
      Executes w (.expire q m) { world := w }
  | expirePending {q : QueueRef} {m : BusMessage} (hp : m ∈ (w.bus.queue q).pending) :
      Executes w (.expire q m)
        { world := (w.withBus (w.bus.setQueue q { w.bus.queue q with
            pending := (w.bus.queue q).pending.erase m })).record [.on q (.expired m)]
          more := [.publish (expiryAddress (w.bus.queue q).topic) m.body (some m.routingKey) none
            (.expiry q m)] }
  | expireInflight {q : QueueRef} {m : BusMessage} {c : AckHandler}
      (hp : m ∉ (w.bus.queue q).pending) (hi : (w.bus.queue q).inflight.lookup m = some c) :
      Executes w (.expire q m)
        { world := w.release q m (.expired m)
          more := [.publish (expiryAddress (w.bus.queue q).topic) m.body (some m.routingKey) none
            (.expiry q m)] }
  | disposeNone {s : Nat} (hs : w.subscriptions[s]? = none) :
      Executes w (.dispose s) { world := w }
  | dispose {s : Nat} {q : QueueRef} {c : AckHandler} (hs : w.subscriptions[s]? = some (q, c)) :
      Executes w (.dispose s)
        { world := (w.withBus (w.bus.setQueue q ((w.bus.queue q).detach c))).record
            ((((w.bus.queue q).heldBy c).map fun m => .on q (.returned m)).reverse ++
              [.on q (.detached c)])
          more := [.pump q] }
  | disposeBus :
      Executes w .disposeBus
        { world := w.withBus { w.bus with
            queues := fun _ => none, byTopic := fun _ => .empty, streamLog := fun _ => [] } }

namespace World

theorem executes_settle (w : World) (h : Nat) (kind : SettleKind) :
    Executes w (.settle h kind) (w.settle h kind) := by
  unfold settle
  cases hi : w.handles[h]? with
  | none => exact .settleIgnored (by simp [hi])
  | some i =>
    simp only
    by_cases hl : (w.bus.queue i.queue).inflight.lookup i.message = some i.consumer
    · rw [if_neg (not_not.mpr hl)]
      cases kind with
      | ack => exact .settleAck hi hl
      | dead => exact .settleDead hi hl (.inl rfl)
      | requeue =>
        unfold BusQueue.resolve
        simp only
        split_ifs with hbudget hdelay
        · exact .settleDead hi hl (.inr ⟨rfl, hbudget⟩)
        · exact .settlePark hi hl (Int32.not_le.mp hbudget) hdelay
        · exact .settleRequeue hi hl (Int32.not_le.mp hbudget) (by simpa using hdelay)
    · rw [if_pos hl]
      refine .settleIgnored fun i' hi' => ?_
      obtain rfl : i = i' := by simpa [hi] using hi'
      exact hl

theorem executes_expire (w : World) (q : QueueRef) (m : BusMessage) :
    Executes w (.expire q m) (w.expire q m) := by
  unfold expire BusQueue.removeUnconsumed
  by_cases hp : m ∈ (w.bus.queue q).pending
  · simp only [if_pos hp, if_true]
    exact .expirePending hp
  · simp only [if_neg hp, decide_eq_true_eq]
    cases hi : (w.bus.queue q).inflight.lookup m with
    | none =>
      rw [if_neg (AList.lookup_eq_none.mp hi)]
      exact .expireGone hp hi
    | some c =>
      rw [if_pos (AList.lookup_isSome.mp (by rw [hi]; rfl))]
      exact .expireInflight hp hi

/-- **Every step is one of the cases.** -/
theorem executes (w : World) (i : Instr) : Executes w i (w.exec i) := by
  cases i with
  | publish topic body routingKey options cause =>
    simp only [exec, publish]
    split_ifs with h
    · exact .publishSuppressed h
    · exact .publish (by simpa using h) rfl rfl
  | armExpiry q m => exact .armExpiry
  | subscribe topic handler opts =>
    simp only [exec, subscribe]
    cases hq : (w.bus.subscriberId opts).2.queues (Bus.key topic (w.bus.subscriberId opts).1) with
    | some q => exact .subscribeOld rfl hq
    | none => exact .subscribeNew rfl hq rfl rfl
  | returnSubscription q c => exact .returnSubscription
  | pump q =>
    simp only [exec, pump]
    rcases hnext : (w.bus.queue q).next with ⟨pick, Q⟩
    cases pick with
    | threw => exact .pumpThrew hnext
    | nobody => exact .pumpNobody hnext
    | found d => exact .pumpFound hnext
  | wrap q m c d => exact .wrap
  | markSettled h kind => exact .markSettled
  | settle h kind => exact w.executes_settle h kind
  | caught h =>
    simp only [exec]
    cases w.handles[h]? with
    | none => exact .caught (.inl rfl)
    | some i =>
      simp only
      split_ifs
      · exact .caught (.inl rfl)
      · exact .caught (.inr rfl)
  | armRetry q m => exact .armRetry
  | retry q m => exact .retry
  | expire q m => exact w.executes_expire q m
  | dispose s =>
    simp only [exec, World.dispose]
    cases hs : w.subscriptions[s]? with
    | none => exact .disposeNone hs
    | some p => exact .dispose hs
  | disposeBus => exact .disposeBus

end World

/-! ## The agenda -/

namespace Instr

/-- The steps an exception can take with it. -/
def light : Instr → Bool
  | .armExpiry .. | .returnSubscription .. | .pump _ => true
  | _ => false

/-- The step ends in `m` being put back on `q` by a retry timer. -/
def parks (q : QueueRef) (m : BusMessage) : Instr → Bool
  | .armRetry q' m' | .retry q' m' => q' = q ∧ m' = m
  | _ => false

/-- The step starts the handler of a delivery of `m` on `q`. -/
def builds (q : QueueRef) (m : BusMessage) : Instr → Bool
  | .wrap q' m' _ _ => q' = q ∧ m' = m
  | _ => false

theorem parks_of_light {i : Instr} (h : i.light = true) (q : QueueRef) (m : BusMessage) :
    i.parks q m = false := by
  cases i <;> simp_all [light, parks]

theorem builds_of_light {i : Instr} (h : i.light = true) (q : QueueRef) (m : BusMessage) :
    i.builds q m = false := by
  cases i <;> simp_all [light, builds]

end Instr

theorem light_afterEnqueue {options : Option PublishOptions}
    {copies : List (QueueRef × BusMessage)} {i : Instr}
    (h : i ∈ copies.flatMap (afterEnqueue options)) : i.light = true := by
  obtain ⟨t, -, h⟩ := List.mem_flatMap.mp h
  unfold afterEnqueue at h
  split_ifs at h <;> simp at h
  · rcases h with rfl | rfl <;> rfl
  · subst h
    rfl

theorem countP_flatten_set {α : Type*} (p : α → Bool) {ts : List (List α)} {i : Nat}
    {t : List α} (h : ts[i]? = some t) (t' : List α) :
    (ts.set i t').flatten.countP p + t.countP p = ts.flatten.countP p + t'.countP p := by
  induction ts generalizing i with
  | nil => simp at h
  | cons u ts ih =>
    cases i with
    | zero =>
      obtain rfl : u = t := by simpa using h
      simp only [List.set_cons_zero, List.flatten_cons, List.countP_append]
      omega
    | succ i =>
      have := ih (i := i) (by simpa using h)
      simp only [List.set_cons_succ, List.flatten_cons, List.countP_append]
      omega

/-- What a step schedules behind its first step is light, and an exception schedules nothing. -/
theorem Executes.light_more {w : World} {i : Instr} {o : Outcome} (h : Executes w i o) :
    (∀ x ∈ o.more.tail, x.light = true) ∧ (o.threw = true → o.more = []) ∧
      o.world.threads = w.threads := by
  cases h with
  | publish => exact ⟨fun x hx => light_afterEnqueue (List.mem_of_mem_tail hx), by simp, rfl⟩
  | @settleDead _ _ i =>
    refine ⟨fun x hx => ?_, by simp, rfl⟩
    unfold BusQueue.deadLetterCall at hx
    split_ifs at hx <;> simp at hx
    subst hx
    rfl
  | caught hmore => rcases hmore with rfl | rfl <;> exact ⟨by simp, by simp, rfl⟩
  | _ => exact ⟨by simp [Instr.light], by simp, rfl⟩

namespace World

/-- The steps all calls still have to take. -/
def agenda (w : World) : List Instr := w.threads.flatten

/-- What waits behind another step of its thread is light. -/
def Light (w : World) : Prop := ∀ t ∈ w.threads, ∀ i ∈ t.tail, i.light = true

/-- A thread takes a step: the thread it is, and what the world becomes. -/
theorem step_run {w w' : World} {n : Nat} (h : w.step (.run n) = some w') :
    ∃ i rest, w.threads[n]? = some (i :: rest) ∧ w.next (.run n) = some i ∧
      w' = { (w.exec i).world with
        threads := w.threads.set n
          (if (w.exec i).threw then [] else (w.exec i).more ++ rest) } := by
  simp only [step] at h
  split at h
  · rename_i i rest hthread
    refine ⟨i, rest, hthread, by simp [next, hthread], ?_⟩
    rw [Option.some.injEq] at h
    rw [← h, (w.executes i).light_more.2.2]
  · simp at h

theorem step_next {w w' : World} {l : Label} (h : w.step l = some w') {i : Instr}
    (hi : w.next l = some i) : w'.bus = (w.exec i).world.bus ∧
      w'.subscriptions = (w.exec i).world.subscriptions ∧
      w'.handles = (w.exec i).world.handles ∧ w'.timers = (w.exec i).world.timers ∧
      w'.history = (w.exec i).world.history := by
  cases l with
  | call | fire => simp [next] at hi
  | run n =>
    obtain ⟨i', rest, -, hi', rfl⟩ := step_run h
    obtain rfl : i' = i := Option.some.inj (hi'.symm.trans hi)
    exact ⟨rfl, rfl, rfl, rfl, rfl⟩

theorem step_call {w w' : World} {op : Op} (h : w.step (.call op) = some w') :
    w' = { w with threads := w.threads ++ [[op.entry]] } := by
  simpa [step, eq_comm] using h

theorem step_fire {w w' : World} {n : Nat} (h : w.step (.fire n) = some w') :
    ∃ t, w.timers[n]? = some t ∧ w' =
      { w with timers := w.timers.eraseIdx n, threads := w.threads ++ [[t.continuation]] } := by
  simp only [step, Option.map_eq_some_iff] at h
  obtain ⟨t, ht, rfl⟩ := h
  exact ⟨t, ht, rfl⟩

theorem step_idle {w w' : World} {l : Label} (h : w.step l = some w') (hi : w.next l = none) :
    w'.bus = w.bus ∧ w'.subscriptions = w.subscriptions ∧ w'.handles = w.handles ∧
      w'.history = w.history := by
  cases l with
  | call op =>
    obtain rfl := step_call h
    exact ⟨rfl, rfl, rfl, rfl⟩
  | fire n =>
    obtain ⟨t, -, rfl⟩ := step_fire h
    exact ⟨rfl, rfl, rfl, rfl⟩
  | run n =>
    obtain ⟨i, rest, -, hi', -⟩ := step_run h
    simp [hi] at hi'

theorem light_step {w w' : World} {l : Label} (hl : w.Light) (h : w.step l = some w') :
    w'.Light := by
  cases l with
  | call op =>
    obtain rfl := step_call h
    intro t ht i hi
    rcases List.mem_append.mp ht with ht | ht
    · exact hl t ht i hi
    · obtain rfl := List.mem_singleton.mp ht
      simp at hi
  | fire n =>
    obtain ⟨t, -, rfl⟩ := step_fire h
    intro u hu i hi
    rcases List.mem_append.mp hu with hu | hu
    · exact hl u hu i hi
    · obtain rfl := List.mem_singleton.mp hu
      simp at hi
  | run n =>
    obtain ⟨i, rest, hthread, -, rfl⟩ := step_run h
    obtain ⟨hmore, -⟩ := (w.executes i).light_more
    have hrest := hl _ (List.mem_of_getElem? hthread)
    intro t ht x hx
    rcases List.mem_or_eq_of_mem_set ht with ht | rfl
    · exact hl t ht x hx
    · split_ifs at hx
      · simp at hx
      · cases hm : (w.exec i).more with
        | nil =>
          rw [hm, List.nil_append] at hx
          exact hrest x (List.mem_of_mem_tail hx)
        | cons y ys =>
          rw [hm, List.cons_append, List.tail_cons] at hx
          rcases List.mem_append.mp hx with hx | hx
          · exact hmore x (by simpa [hm] using hx)
          · exact hrest x hx

theorem light {w : World} (h : Reach busMachine w) : w.Light := by
  refine h.invariant (fun w hw => ?_) fun w l w' _ ih _ hs =>
    light_step ih (busMachine_step.mp hs)
  rw [busMachine_init.mp hw]
  simp [Light]

/-- Counting the steps of a kind: the thread that takes a step is replaced by what it has left. -/
theorem countP_agenda {w w' : World} {n : Nat} (h : w.step (.run n) = some w') {i : Instr}
    (hi : w.next (.run n) = some i) (p : Instr → Bool) :
    ∃ rest, i :: rest ∈ w.threads ∧
      w'.agenda.countP p + (rest.countP p + if p i then 1 else 0) = w.agenda.countP p +
        (if (w.exec i).threw then [] else (w.exec i).more ++ rest).countP p := by
  obtain ⟨i', rest, hthread, hi', rfl⟩ := step_run h
  obtain rfl : i' = i := by simpa [hi'] using hi
  have hset := countP_flatten_set p hthread
    (if (w.exec i').threw then [] else (w.exec i').more ++ rest)
  rw [List.countP_cons] at hset
  exact ⟨rest, List.mem_of_getElem? hthread, hset⟩

/-- Counting the steps of a kind: the step taken goes, and at most what it schedules comes. -/
theorem countP_agenda_le {w w' : World} {n : Nat} (h : w.step (.run n) = some w') {i : Instr}
    (hi : w.next (.run n) = some i) (p : Instr → Bool) :
    w'.agenda.countP p + (if p i then 1 else 0) ≤
      w.agenda.countP p + (w.exec i).more.countP p := by
  obtain ⟨rest, -, hset⟩ := countP_agenda h hi p
  by_cases hthrew : (w.exec i).threw = true
  · rw [if_pos hthrew, List.countP_nil] at hset
    omega
  · rw [if_neg hthrew, List.countP_append] at hset
    omega

/-- Counting the steps of a kind that no exception takes away: the step taken goes, what it
schedules comes. -/
theorem countP_agenda_run {w w' : World} {n : Nat} (hl : w.Light) (h : w.step (.run n) = some w')
    {i : Instr} (hi : w.next (.run n) = some i) (p : Instr → Bool)
    (hp : (w.exec i).threw = true → ∀ x, x.light = true → p x = false) :
    w'.agenda.countP p + (if p i then 1 else 0) =
      w.agenda.countP p + (w.exec i).more.countP p := by
  obtain ⟨rest, hthread, hset⟩ := countP_agenda h hi p
  by_cases hthrew : (w.exec i).threw = true
  · -- What the exception takes away is light, so none of it counts.
    have hrest : rest.countP p = 0 := by
      rw [List.countP_eq_zero]
      intro x hx
      simp [hp hthrew x (hl _ hthread x hx)]
    rw [(w.executes i).light_more.2.1 hthrew, List.countP_nil]
    rw [if_pos hthrew, hrest, List.countP_nil] at hset
    omega
  · rw [if_neg hthrew, List.countP_append] at hset
    omega

/-- Where a step still to be taken comes from. -/
theorem mem_agenda_step {w w' : World} {l : Label} (h : w.step l = some w') {x : Instr}
    (hx : x ∈ w'.agenda) : x ∈ w.agenda ∨
      (∃ i, w.next l = some i ∧ x ∈ (w.exec i).more) ∨
      (∃ op : Op, x = op.entry) ∨ ∃ t : Timer, t ∈ w.timers ∧ x = t.continuation := by
  cases l with
  | call op =>
    obtain rfl := step_call h
    simp only [agenda, List.flatten_append, List.flatten_cons, List.flatten_nil, List.append_nil,
      List.mem_append, List.mem_singleton] at hx
    rcases hx with hx | hx
    · exact .inl hx
    · exact .inr (.inr (.inl ⟨op, hx⟩))
  | fire n =>
    obtain ⟨t, ht, rfl⟩ := step_fire h
    simp only [agenda, List.flatten_append, List.flatten_cons, List.flatten_nil, List.append_nil,
      List.mem_append, List.mem_singleton] at hx
    rcases hx with hx | hx
    · exact .inl hx
    · exact .inr (.inr (.inr ⟨t, List.mem_of_getElem? ht, hx⟩))
  | run n =>
    obtain ⟨i, rest, hthread, hi, rfl⟩ := step_run h
    obtain ⟨t, ht, hx⟩ := List.mem_flatten.mp hx
    rcases List.mem_or_eq_of_mem_set ht with ht | rfl
    · exact .inl (List.mem_flatten.mpr ⟨t, ht, hx⟩)
    · split_ifs at hx
      · simp at hx
      · rcases List.mem_append.mp hx with hx | hx
        · exact .inr (.inl ⟨i, hi, hx⟩)
        · exact .inl (List.mem_flatten.mpr
            ⟨_, List.mem_of_getElem? hthread, List.mem_cons_of_mem _ hx⟩)

theorem mem_agenda_of_next {w : World} {l : Label} {i : Instr} (h : w.next l = some i) :
    i ∈ w.agenda := by
  cases l with
  | call | fire => simp [next] at h
  | run n =>
    simp only [next, Option.bind_eq_some_iff] at h
    obtain ⟨t, ht, hhead⟩ := h
    exact List.mem_flatten.mpr ⟨t, List.mem_of_getElem? ht, List.mem_of_mem_head? hhead⟩

/-! ## What stays on the agenda -/

/-- The steps a call throws away: all it had left, when it throws. -/
def dropped (w : World) : Label → List Instr
  | .run n =>
    match w.threads[n]? with
    | some (i :: rest) => if (w.exec i).threw then rest else []
    | _ => []
  | _ => []

theorem threw_of_dropped {w : World} {l : Label} {x : Instr} (h : x ∈ w.dropped l) :
    ∃ i, w.next l = some i ∧ (w.exec i).threw = true := by
  cases l with
  | call | fire => cases h
  | run n =>
    simp only [dropped] at h
    split at h
    · rename_i i rest hthread
      split_ifs at h with hthrew
      · exact ⟨i, by simp [next, hthread], hthrew⟩
      · cases h
    · cases h

/-- **A step takes itself off the agenda**, and what it throws away; all else stays. -/
theorem stays {w w' : World} {l : Label} (h : w.step l = some w') {x : Instr}
    (hmem : x ∈ w.agenda) (hother : w.next l ≠ some x) (hkept : x ∉ w.dropped l) :
    x ∈ w'.agenda := by
  cases l with
  | call op =>
    obtain rfl := step_call h
    simp only [agenda, List.flatten_append, List.mem_append]
    exact .inl hmem
  | fire n =>
    obtain ⟨t, -, rfl⟩ := step_fire h
    simp only [agenda, List.flatten_append, List.mem_append]
    exact .inl hmem
  | run n =>
    obtain ⟨i, rest, hthread, hi, rfl⟩ := step_run h
    obtain ⟨t, ht, hx⟩ := List.mem_flatten.mp hmem
    obtain ⟨k, hk⟩ := List.mem_iff_getElem?.mp ht
    by_cases hkn : k = n
    · subst hkn
      obtain rfl := Option.some.inj (hk.symm.trans hthread)
      have hrest : x ∈ rest := by
        rcases List.mem_cons.mp hx with rfl | hrest
        · exact absurd hi hother
        · exact hrest
      have hthrew : (w.exec i).threw = false := by
        by_contra hthrew
        apply hkept
        simp only [dropped, hthread, Bool.not_eq_false] at hthrew ⊢
        rwa [if_pos hthrew]
      refine List.mem_flatten.mpr ⟨(w.exec i).more ++ rest, ?_, List.mem_append_right _ hrest⟩
      simp only [hthrew, Bool.false_eq_true, if_false]
      exact List.mem_set (List.getElem?_eq_some_iff.mp hthread).1 _
    · refine List.mem_flatten.mpr ⟨t, ?_, hx⟩
      rw [List.mem_iff_getElem?]
      exact ⟨k, by rw [List.getElem?_set_ne (Ne.symm hkn)]; exact hk⟩

theorem not_threw_of_mem {w : World} {i x : Instr} (hx : x ∈ (w.exec i).more) :
    (w.exec i).threw = false := by
  by_contra hthrew
  rw [(w.executes i).light_more.2.1 (by simpa using hthrew)] at hx
  exact absurd hx List.not_mem_nil

theorem more_scheduled {w w' : World} {l : Label} (h : w.step l = some w') {i : Instr}
    (hi : w.next l = some i) {x : Instr} (hx : x ∈ (w.exec i).more) : x ∈ w'.agenda := by
  cases l with
  | call | fire => simp [next] at hi
  | run n =>
    obtain ⟨i', rest, hthread, hi', rfl⟩ := step_run h
    obtain rfl : i' = i := Option.some.inj (hi'.symm.trans hi)
    have hthrew := not_threw_of_mem hx
    refine List.mem_flatten.mpr ⟨(w.exec i').more ++ rest, ?_, List.mem_append_left _ hx⟩
    simp only [hthrew, Bool.false_eq_true, if_false]
    exact List.mem_set (List.getElem?_eq_some_iff.mp hthread).1 _

/-- The queue and the consumer of the subscription whose dispose callback a step is the lock body
of. -/
def disposedOf (w : World) (l : Label) : Option (QueueRef × AckHandler) :=
  match w.next l with
  | some (.dispose s) => w.subscriptions[s]?
  | _ => none

/-- Only a turn of `Pump` throws. -/
theorem pump_of_threw {w : World} {i : Instr} {o : Outcome} (hex : Executes w i o)
    (h : o.threw = true) : ∃ q, i = .pump q ∧ (w.bus.queue q).next.1 = .threw := by
  cases hex with
  | pumpThrew hnext => exact ⟨_, rfl, by rw [hnext]⟩
  | _ => simp at h

end World

end MessagingPoc
