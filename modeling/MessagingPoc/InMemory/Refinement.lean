import MessagingPoc.InMemory.Copies
import MessagingPoc.InMemory.Steps
import Mathlib.Data.List.Perm.Basic

/-!
# The bus refines its lanes

Seen from one queue, a step of the bus is a run of steps of that queue's lane, usually one or none
(`World.moves`); a queue that is created starts as a new lane. So whatever every lane keeps, every
queue of the bus keeps (`World.lane_reach`), and a guard on the steps of the bus becomes a guard on
the steps of its lanes through what `Caused` says about who caused them.

`Sound` is the bookkeeping behind it: queues are registered only once created, a message object
belongs to one queue, log and arrivals follow the allocation order, and `DeliveryCount` counts the
deliveries, modulo `2 ^ 32`.
-/

namespace MessagingPoc

open Machine

namespace World

/-! ## The lanes of a world -/

/-- How many retry timers, armed or not, are to put `m` back on `q`. -/
def parkedCount (w : World) (q : QueueRef) (m : BusMessage) : Nat :=
  w.agenda.countP (Instr.parks q m) + w.timers.count (.retry q m)

/-- How many deliveries of `m` on `q` still have to be handed to their handler. -/
def buildingCount (w : World) (q : QueueRef) (m : BusMessage) : Nat :=
  w.agenda.countP (Instr.builds q m)

/-- The bus as one queue sees it. -/
def lane (w : World) (q : QueueRef) : Lane where
  queue := w.bus.queue q
  parked := w.parkedCount q
  building := w.buildingCount q
  trail := w.trail q

/-- The lane of a queue once a thread has taken step `i`, with outcome `o`. -/
def after (w : World) (i : Instr) (o : Outcome) (q : QueueRef) : Lane where
  queue := o.world.bus.queue q
  parked := fun m => w.agenda.countP (Instr.parks q m) + o.more.countP (Instr.parks q m) -
    (if i.parks q m then 1 else 0) + o.world.timers.count (.retry q m)
  building := fun m => w.agenda.countP (Instr.builds q m) + o.more.countP (Instr.builds q m) -
    if i.builds q m then 1 else 0
  trail := o.world.trail q

theorem lane_run {w w' : World} {n : Nat} (hl : w.Light) (h : w.step (.run n) = some w')
    {i : Instr} (hi : w.next (.run n) = some i) (q : QueueRef) :
    w'.lane q = w.after i (w.exec i) q := by
  obtain ⟨hbus, -, -, htimers, hhistory⟩ := step_next h hi
  refine Lane.ext ?_ (funext fun m => ?_) (funext fun m => ?_) ?_
  · simp only [lane, after, hbus]
  · have hcount := countP_agenda_run hl h hi (Instr.parks q m)
      fun _ x hx => Instr.parks_of_light hx q m
    simp only [lane, after, parkedCount, htimers]
    omega
  · have hcount := countP_agenda_run hl h hi (Instr.builds q m)
      fun _ x hx => Instr.builds_of_light hx q m
    simp only [lane, after, buildingCount]
    omega
  · simp only [lane, after, trail, hhistory]

theorem lane_call {w w' : World} {op : Op} (h : w.step (.call op) = some w') (q : QueueRef) :
    w'.lane q = w.lane q := by
  obtain rfl := step_call h
  have hop : ∀ m, op.entry.parks q m = false ∧ op.entry.builds q m = false := fun m => by
    cases op <;> exact ⟨rfl, rfl⟩
  refine Lane.ext rfl (funext fun m => ?_) (funext fun m => ?_) rfl
  · simp [lane, parkedCount, agenda, List.countP_append, hop]
  · simp [lane, buildingCount, agenda, List.countP_append, hop]

/-- An elapsing timer leaves every lane as it is: what it is to put back is still parked. -/
theorem lane_fire {w w' : World} {n : Nat} (h : w.step (.fire n) = some w') (q : QueueRef) :
    w'.lane q = w.lane q := by
  obtain ⟨t, ht, rfl⟩ := step_fire h
  obtain ⟨hlt, ht⟩ := List.getElem?_eq_some_iff.mp ht
  refine Lane.ext rfl (funext fun m => ?_) (funext fun m => ?_) rfl
  · have hperm := (List.getElem_cons_eraseIdx_perm hlt).count_eq (.retry q m)
    simp only [lane, parkedCount, agenda, List.flatten_append, List.countP_append]
    rw [ht, List.count_cons] at hperm
    cases t <;> simp [Timer.continuation, Instr.parks] at hperm ⊢ <;> omega
  · cases t <;> simp [lane, buildingCount, agenda, Timer.continuation, Instr.builds]

/-! ## Bookkeeping -/

structure Sound (w : World) : Prop where
  queues : ∀ k q, w.bus.queues k = some q → q < w.bus.nextQueue
  byTopic : ∀ topic, ∀ q ∈ (w.bus.byTopic topic).items, q < w.bus.nextQueue
  subscriptions : ∀ p ∈ w.subscriptions, p.1 < w.bus.nextQueue
  returns : ∀ q c, .returnSubscription q c ∈ w.agenda → q < w.bus.nextQueue
  unused : ∀ q, w.bus.nextQueue ≤ q → w.trail q = []
  arrived : ∀ q m entry, .arrived m entry ∈ w.trail q →
    m.ref < w.bus.nextRef ∧ entry < w.bus.nextRef
  logSorted : ∀ topic, (w.bus.streamLog topic).Pairwise fun x y => x.ref < y.ref
  logged : ∀ topic, ∀ m ∈ w.bus.streamLog topic, m.ref < w.bus.nextRef
  /-- A message object arrives on one queue only. -/
  owner : ∀ q q' m m' e e', .arrived m e ∈ w.trail q → .arrived m' e' ∈ w.trail q' →
    m.ref = m'.ref → q = q'
  counted : ∀ q m e, .arrived m e ∈ w.trail q →
    w.bus.deliveryCount m.ref = Int32.ofNat (deliveries m (w.trail q))
  uncounted : ∀ r, w.bus.nextRef ≤ r → w.bus.deliveryCount r = 0
  numbered : ∀ q m c d, .delivered m c d ∈ w.trail q → d < w.history.length

theorem Sound.budget {w : World} (hs : w.Sound) {q : QueueRef}
    (hlane : Reach laneMachine (w.lane q)) {m : BusMessage} {c : AckHandler}
    (hl : (w.bus.queue q).inflight.lookup m = some c) :
    w.bus.deliveryCount m.ref = Int32.ofNat (deliveries m (w.trail q)) := by
  obtain ⟨d, hd⟩ := (Lane.located hlane).place_of_lookup hl
  obtain ⟨entry, hentry⟩ := (Lane.located hlane).arrived m (by simp [hd])
  exact hs.counted q m entry hentry

/-! ## What a step is for one queue -/

/-- The step of the bus that makes a queue's lane act. -/
def Caused (w : World) (l : Label) (q : QueueRef) (L : Lane) : LaneAct → Prop
  | .arrive m _ => w.bus.nextRef ≤ m.ref ∧
      ((L = w.lane q ∧ ∃ topic body routingKey options cause,
          w.next l = some (.publish topic body routingKey options cause) ∧
          w.bus.suppressed options = false ∧
          q ∈ w.bus.targets topic (routingKey.getD topic) ∧ m.options = options) ∨
        ((L.parked = fun _ => 0) ∧
          ∃ topic, ∃ logged ∈ w.bus.streamLog topic, m.options = logged.options))
  | .attach c => ∃ topic opts, w.next l = some (.subscribe topic c opts)
  | .detach c => L = w.lane q ∧
      ∃ s, w.next l = some (.dispose s) ∧ w.subscriptions[s]? = some (q, c)
  | .scan => w.next l = some (.pump q)
  | .deliver _ _ d => w.next l = some (.pump q) ∧ d = w.history.length
  | .hand m c _ => ∃ d, w.next l = some (.wrap q m c d)
  | .ack m => ∃ h i, w.next l = some (.settle h .ack) ∧ w.handles[h]? = some i ∧
      i.queue = q ∧ i.message = m
  | .dead m => ∃ h kind i, w.next l = some (.settle h kind) ∧ w.handles[h]? = some i ∧
      i.queue = q ∧ i.message = m ∧ (kind = .dead ∨ (kind = .requeue ∧
        (w.bus.queue q).maxDeliveries ≤ w.bus.deliveryCount m.ref))
  | .requeue m | .park m => L = w.lane q ∧ ∃ h i, w.next l = some (.settle h .requeue) ∧
      w.handles[h]? = some i ∧ i.queue = q ∧ i.message = m ∧
      (w.bus.queue q).inflight.lookup m = some i.consumer ∧
      w.bus.deliveryCount m.ref < (w.bus.queue q).maxDeliveries
  | .unpark m => w.next l = some (.retry q m)
  | .expire m => L = w.lane q ∧ w.next l = some (.expire q m)

/-- The lane of a queue moves to `L'`: by steps of its own, or because the queue is created. -/
def Moves (w : World) (l : Label) (q : QueueRef) (L' : Lane) : Prop :=
  Run laneMachine (Caused w l q) (w.lane q) L' ∨
    (w.bus.nextQueue ≤ q ∧ ∃ L₀ : Lane, L₀.New ∧ Run laneMachine (Caused w l q) L₀ L')

theorem moves_refl {w : World} {l : Label} {q : QueueRef} {L' : Lane} (h : L' = w.lane q) :
    w.Moves l q L' := .inl (h ▸ Run.refl _)

theorem moves_single {w : World} {l : Label} {q : QueueRef} {L' : Lane} {a : LaneAct}
    (h : LaneStep (w.lane q) a L') (hcause : w.Caused l q (w.lane q) a) : w.Moves l q L' :=
  .inl (Run.single hcause h)

theorem trail_record (w : World) (events : List Event) (q : QueueRef) :
    (w.record events).trail q = events.filterMap (Event.onQueue q) ++ w.trail q :=
  List.filterMap_append

theorem mem_onQueue {events : List Event} {q : QueueRef} {e : QueueEvent} :
    e ∈ events.filterMap (Event.onQueue q) ↔ .on q e ∈ events := by
  simp only [List.mem_filterMap]
  constructor
  · rintro ⟨ev, hev, h⟩
    cases ev with
    | on q' e' =>
      simp only [Event.onQueue, Option.ite_none_right_eq_some, Option.some.injEq] at h
      obtain ⟨rfl, rfl⟩ := h
      exact hev
    | published => simp [Event.onQueue] at h
  · intro h
    exact ⟨_, h, by simp [Event.onQueue]⟩

theorem mem_trail {w : World} {q : QueueRef} {e : QueueEvent} :
    e ∈ w.trail q ↔ .on q e ∈ w.history := mem_onQueue

@[simp] theorem trail_withBus (w : World) (b : Bus) (q : QueueRef) :
    (w.withBus b).trail q = w.trail q := rfl

/-- A step that schedules, arms and takes no retry and no delivery. -/
theorem after_plain {w : World} {i : Instr} {o : Outcome} {q : QueueRef}
    (hi : ∀ m, i.parks q m = false ∧ i.builds q m = false)
    (hmore : ∀ x ∈ o.more, ∀ m, x.parks q m = false ∧ x.builds q m = false)
    (htimers : ∀ m, o.world.timers.count (.retry q m) = w.timers.count (.retry q m)) :
    w.after i o q = { w.lane q with
      queue := o.world.bus.queue q, trail := o.world.trail q } := by
  refine Lane.ext rfl (funext fun m => ?_) (funext fun m => ?_) rfl
  · have hzero : o.more.countP (Instr.parks q m) = 0 :=
      List.countP_eq_zero.mpr fun x hx => by simp [(hmore x hx m).1]
    simp [after, lane, parkedCount, hzero, (hi m).1, htimers]
  · have hzero : o.more.countP (Instr.builds q m) = 0 :=
      List.countP_eq_zero.mpr fun x hx => by simp [(hmore x hx m).2]
    simp [after, lane, buildingCount, hzero, (hi m).2]

/-- A step with one event, on one queue. -/
theorem after_local {w : World} {o : Outcome} {q₀ : QueueRef} {Q : BusQueue}
    {e : QueueEvent} (hbus : o.world.bus.queue = Function.update w.bus.queue q₀ Q)
    (hhistory : o.world.history = .on q₀ e :: w.history) (q : QueueRef) :
    o.world.bus.queue q = (if q = q₀ then Q else w.bus.queue q) ∧
      o.world.trail q = if q = q₀ then e :: w.trail q else w.trail q := by
  refine ⟨by rw [hbus, Function.update_apply], ?_⟩
  unfold trail
  rw [hhistory, List.filterMap_cons]
  by_cases hq : q₀ = q
  · simp [Event.onQueue, hq]
  · simp [Event.onQueue, hq, Ne.symm hq]

/-- A plain step with one event moves the lane of its queue by one step, and no other. -/
theorem moves_local {w : World} {l : Label} {i : Instr} {o : Outcome} {q q₀ : QueueRef}
    {Q : BusQueue} {e : QueueEvent} {a : LaneAct}
    (hi : ∀ q m, i.parks q m = false ∧ i.builds q m = false)
    (hmore : ∀ x ∈ o.more, ∀ q m, x.parks q m = false ∧ x.builds q m = false)
    (htimers : o.world.timers = w.timers)
    (hbus : o.world.bus.queue = Function.update w.bus.queue q₀ Q)
    (hhistory : o.world.history = .on q₀ e :: w.history)
    (hstep : LaneStep (w.lane q₀) a ((w.lane q₀).note Q e))
    (hcause : w.Caused l q₀ (w.lane q₀) a) :
    w.Moves l q (w.after i o q) := by
  obtain ⟨hqueue, htrail⟩ := after_local hbus hhistory q
  rw [after_plain (hi q) (fun x hx => hmore x hx q) fun m => by rw [htimers], hqueue, htrail]
  by_cases hq : q = q₀
  · subst hq
    rw [if_pos rfl, if_pos rfl]
    exact moves_single hstep hcause
  · rw [if_neg hq, if_neg hq]
    exact moves_refl rfl

/-- A plain step that leaves queues and record alone moves no lane. -/
theorem moves_quiet {w : World} {l : Label} {i : Instr} {o : Outcome} {q : QueueRef}
    (hi : ∀ q m, i.parks q m = false ∧ i.builds q m = false)
    (hmore : ∀ x ∈ o.more, ∀ q m, x.parks q m = false ∧ x.builds q m = false)
    (htimers : ∀ q m, o.world.timers.count (.retry q m) = w.timers.count (.retry q m))
    (hbus : o.world.bus.queue = w.bus.queue) (hhistory : o.world.history = w.history) :
    w.Moves l q (w.after i o q) := by
  apply moves_refl
  rw [after_plain (hi q) (fun x hx => hmore x hx q) fun m => htimers q m, trail, hbus, hhistory]
  rfl

/-- A turn of `Pump` that delivers nothing. -/
theorem moves_scan {w : World} {l : Label} {q q₀ : QueueRef} {Q : BusQueue} {threw : Bool}
    (hi : w.next l = some (.pump q₀)) (hscan : (w.bus.queue q₀).Scanned Q) :
    w.Moves l q (w.after (.pump q₀)
      { world := w.withBus (w.bus.setQueue q₀ Q), threw := threw } q) := by
  have hafter : w.after (.pump q₀)
      { world := w.withBus (w.bus.setQueue q₀ Q), threw := threw } q =
        { w.lane q with queue := if q = q₀ then Q else w.bus.queue q } := by
    rw [← Function.update_apply]
    exact after_plain (fun _ => ⟨rfl, rfl⟩) (by simp) fun _ => rfl
  rw [hafter]
  by_cases hq : q = q₀
  · subst hq
    rw [if_pos rfl]
    exact moves_single (.scan hscan) hi
  · rw [if_neg hq]
    exact moves_refl rfl

theorem moves_deliver {w : World} (hs : w.Sound) {l : Label} {q q₀ : QueueRef} {Q : BusQueue}
    {m : BusMessage} {c : AckHandler} (hi : w.next l = some (.pump q₀))
    (hch : (w.bus.queue q₀).Chosen m c Q) :
    w.Moves l q (w.after (.pump q₀)
      { world := w.deliver q₀ Q m c, more := [.wrap q₀ m c w.history.length, .pump q₀] } q) := by
  obtain ⟨hqueue, htrail⟩ := after_local (o := { world := w.deliver q₀ Q m c }) (Q := Q.book m c)
    (e := .delivered m c w.history.length) rfl rfl q
  by_cases hq : q = q₀
  · subst hq
    rw [if_pos rfl] at hqueue htrail
    refine moves_single (a := .deliver m c w.history.length) ?_ ⟨hi, rfl⟩
    have hlater : ∀ x c' d', .delivered x c' d' ∈ (w.lane q).trail → d' < w.history.length :=
      fun x c' d' hx => hs.numbered q x c' d' hx
    convert LaneStep.deliver (L := w.lane q) hch hlater using 1
    refine Lane.ext hqueue (funext fun x => ?_) (funext fun x => ?_) htrail
    · simp [after, lane, Lane.note, parkedCount, Instr.parks, deliver, record, withBus]
    · by_cases hx : x = m
      · subst hx
        simp [after, lane, buildingCount, Instr.builds, deliver]
      · simp [after, lane, buildingCount, Instr.builds, deliver, hx, Ne.symm hx]
  · rw [if_neg hq] at hqueue htrail
    refine moves_refl (Lane.ext hqueue (funext fun x => ?_) (funext fun x => ?_) htrail)
    · simp [after, lane, parkedCount, Instr.parks, deliver, record, withBus]
    · simp [after, lane, buildingCount, Instr.builds, deliver, Ne.symm hq]

theorem moves_hand {w : World} {l : Label} {o : Outcome} {q q₀ : QueueRef} {m : BusMessage}
    {c : AckHandler} {d : Nat} {count : Int32} (hi : w.next l = some (.wrap q₀ m c d))
    (hmem : .wrap q₀ m c d ∈ w.agenda) (hmore : o.more = []) (hbus : o.world.bus = w.bus)
    (htimers : o.world.timers = w.timers)
    (hhistory : o.world.history = .on q₀ (.handed m c count) :: w.history) :
    w.Moves l q (w.after (.wrap q₀ m c d) o q) := by
  obtain ⟨hqueue, htrail⟩ := after_local (w := w) (Q := w.bus.queue q₀)
    (by rw [hbus, Function.update_eq_self]) hhistory q
  by_cases hq : q = q₀
  · subst hq
    rw [if_pos rfl] at hqueue htrail
    refine moves_single (a := .hand m c count) ?_ ⟨d, hi⟩
    have hpos : 0 < (w.lane q).building m :=
      List.countP_pos_iff.mpr ⟨_, hmem, by simp [Instr.builds]⟩
    convert LaneStep.hand (c := c) hpos using 1
    refine Lane.ext hqueue (funext fun x => ?_) (funext fun x => ?_) htrail
    · simp [after, lane, Lane.note, parkedCount, Instr.parks, hmore, htimers]
    · by_cases hx : x = m
      · subst hx
        simp [after, lane, buildingCount, Instr.builds, hmore]
      · simp [after, lane, buildingCount, Instr.builds, hmore, hx, Ne.symm hx]
  · rw [if_neg hq] at hqueue htrail
    refine moves_refl (Lane.ext hqueue (funext fun x => ?_) (funext fun x => ?_) htrail)
    · simp [after, lane, parkedCount, Instr.parks, hmore, htimers]
    · simp [after, lane, buildingCount, Instr.builds, hmore, Ne.symm hq]

theorem moves_park {w : World} {l : Label} {q q₀ : QueueRef} {m : BusMessage} {c : AckHandler}
    {h : Nat} {kind : SettleKind}
    (hl : (w.bus.queue q₀).inflight.lookup m = some c)
    (hbudget : Int32.ofNat (deliveries m (w.trail q₀)) < (w.bus.queue q₀).maxDeliveries)
    (hcause : w.Caused l q₀ (w.lane q₀) (.park m)) :
    w.Moves l q (w.after (.settle h kind)
      { world := w.release q₀ m (.parked m), more := [.armRetry q₀ m, .pump q₀] } q) := by
  obtain ⟨hqueue, htrail⟩ := after_local (w := w) (o := { world := w.release q₀ m (.parked m) })
    (Q := (w.lane q₀).released m) rfl rfl q
  by_cases hq : q = q₀
  · subst hq
    rw [if_pos rfl] at hqueue htrail
    refine moves_single (a := .park m) ?_ hcause
    convert LaneStep.park (L := w.lane q) hl hbudget using 1
    refine Lane.ext hqueue (funext fun x => ?_) (funext fun x => ?_) htrail
    · by_cases hx : x = m
      · subst hx
        simp [after, lane, parkedCount, Instr.parks, release, record, withBus]
        omega
      · simp [after, lane, parkedCount, Instr.parks, release, record, withBus, hx, Ne.symm hx]
    · simp [after, lane, Lane.note, buildingCount, Instr.builds]
  · rw [if_neg hq] at hqueue htrail
    refine moves_refl (Lane.ext hqueue (funext fun x => ?_) (funext fun x => ?_) htrail)
    · simp [after, lane, parkedCount, Instr.parks, release, record, withBus, Ne.symm hq]
    · simp [after, lane, buildingCount, Instr.builds]

/-- A message waiting for its retry timer to be armed now waits for the timer. -/
theorem moves_armRetry {w : World} {l : Label} {q q₀ : QueueRef} {m : BusMessage}
    (hmem : .armRetry q₀ m ∈ w.agenda) :
    w.Moves l q (w.after (.armRetry q₀ m)
      { world := { w with timers := w.timers ++ [.retry q₀ m] } } q) := by
  refine moves_refl (Lane.ext rfl (funext fun x => ?_) (funext fun x => ?_) rfl)
  · by_cases hx : q₀ = q ∧ m = x
    · obtain ⟨rfl, rfl⟩ := hx
      have hpos : 0 < w.agenda.countP (Instr.parks q₀ m) :=
        List.countP_pos_iff.mpr ⟨_, hmem, by simp [Instr.parks]⟩
      simp [after, lane, parkedCount, Instr.parks]
      omega
    · simp [after, lane, parkedCount, Instr.parks, List.count_singleton, hx]
  · simp [after, lane, buildingCount, Instr.builds]

theorem moves_retry {w : World} {l : Label} {q q₀ : QueueRef} {m : BusMessage}
    (hi : w.next l = some (.retry q₀ m)) (hmem : .retry q₀ m ∈ w.agenda) :
    w.Moves l q (w.after (.retry q₀ m)
      { world := (w.withBus (w.bus.enqueue q₀ m)).record [.on q₀ (.unparked m)]
        more := [.pump q₀] } q) := by
  obtain ⟨hqueue, htrail⟩ := after_local (w := w)
    (o := { world := (w.withBus (w.bus.enqueue q₀ m)).record [.on q₀ (.unparked m)] })
    (Q := (w.bus.queue q₀).push m) rfl rfl q
  by_cases hq : q = q₀
  · subst hq
    rw [if_pos rfl] at hqueue htrail
    refine moves_single (a := .unpark m) ?_ hi
    have hpos : 0 < w.agenda.countP (Instr.parks q m) :=
      List.countP_pos_iff.mpr ⟨_, hmem, by simp [Instr.parks]⟩
    convert LaneStep.unpark (L := w.lane q) (m := m) (Nat.lt_of_lt_of_le hpos
      (Nat.le_add_right _ _)) using 1
    refine Lane.ext hqueue (funext fun x => ?_) (funext fun x => ?_) htrail
    · by_cases hx : x = m
      · subst hx
        simp [after, lane, parkedCount, Instr.parks, record, withBus]
        omega
      · simp [after, lane, parkedCount, Instr.parks, record, withBus, hx, Ne.symm hx]
    · simp [after, lane, Lane.note, buildingCount, Instr.builds]
  · rw [if_neg hq] at hqueue htrail
    refine moves_refl (Lane.ext hqueue (funext fun x => ?_) (funext fun x => ?_) htrail)
    · simp [after, lane, parkedCount, Instr.parks, record, withBus, Ne.symm hq]
    · simp [after, lane, buildingCount, Instr.builds]

theorem filterMap_onQueue (es : List QueueEvent) (q q' : QueueRef) :
    (es.map (Event.on q)).filterMap (Event.onQueue q') = if q = q' then es else [] := by
  rw [List.filterMap_map]
  by_cases hq : q = q'
  · have hsome : Event.onQueue q' ∘ Event.on q = some := funext fun e => by
      simp [Event.onQueue, hq]
    rw [hsome, List.filterMap_some, if_pos hq]
  · have hnone : Event.onQueue q' ∘ Event.on q = fun _ => none := funext fun e => by
      simp [Event.onQueue, hq]
    rw [hnone, List.filterMap_none, if_neg hq]

theorem moves_dispose {w : World} {l : Label} {q q₀ : QueueRef} {c : AckHandler} {s : Nat}
    (hi : w.next l = some (.dispose s)) (hs : w.subscriptions[s]? = some (q₀, c)) :
    w.Moves l q (w.after (.dispose s)
      { world := (w.withBus (w.bus.setQueue q₀ ((w.bus.queue q₀).detach c))).record
          ((((w.bus.queue q₀).heldBy c).map fun m => .on q₀ (.returned m)).reverse ++
            [.on q₀ (.detached c)])
        more := [.pump q₀] } q) := by
  rw [after_plain (w := w) (i := .dispose s) (q := q) (fun _ => ⟨rfl, rfl⟩)
    (by simp [Instr.parks, Instr.builds]) fun _ => rfl]
  have hevents : (((w.bus.queue q₀).heldBy c).map fun m => Event.on q₀ (.returned m)).reverse ++
      [.on q₀ (.detached c)] = ((((w.bus.queue q₀).heldBy c).map QueueEvent.returned).reverse ++
        [QueueEvent.detached c]).map (Event.on q₀) := by
    simp [Function.comp_def]
  simp only [trail_record, hevents, filterMap_onQueue]
  by_cases hq : q₀ = q
  · subst hq
    refine moves_single (a := .detach c) ?_ ⟨rfl, s, hi, hs⟩
    convert LaneStep.detach (L := w.lane q₀) (c := c) using 1
    refine Lane.ext ?_ rfl rfl ?_
    · exact Function.update_self ..
    · simp [detachTrail, lane]
  · refine moves_refl (Lane.ext ?_ rfl rfl ?_)
    · exact Function.update_of_ne (Ne.symm hq) ..
    · simp [hq, lane]

theorem moves_publish {w : World} (hs : w.Sound) {l : Label} {q : QueueRef}
    {topic body : String} {routingKey : Option String} {options : Option PublishOptions}
    {cause : Cause} (hi : w.next l = some (.publish topic body routingKey options cause))
    (hsup : w.bus.suppressed options = false)
    {logged : BusMessage} {b₂ : Bus} {copies : List (QueueRef × BusMessage)}
    (h : Bus.Published topic body (routingKey.getD topic) options w.bus logged copies b₂) :
    w.Moves l q (w.after (.publish topic body routingKey options cause)
      { world := (w.withBus b₂).record
          ((copies.map fun t => .on t.1 (.arrived t.2 logged.ref)).reverse ++
            [.published topic body (routingKey.getD topic) options cause])
        more := copies.flatMap (afterEnqueue options) } q) := by
  have hentry := h.entry
  rw [after_plain (w := w) (i := .publish topic body routingKey options cause) (q := q)
    (fun _ => ⟨rfl, rfl⟩)
    (fun x hx m => ⟨Instr.parks_of_light (light_afterEnqueue hx) q m,
      Instr.builds_of_light (light_afterEnqueue hx) q m⟩) fun _ => rfl]
  obtain ⟨hsome, hnone⟩ :=
    Bus.filterMap_copies (h.targets ▸ Bus.nodup_targets w.bus topic _) logged.ref q
  simp only [trail_record, List.filterMap_append, trail_withBus]
  by_cases hq : q ∈ w.bus.targets topic (routingKey.getD topic)
  · obtain ⟨m, hm⟩ := (h.mem_iff q).mp hq
    have hfresh : w.bus.nextRef < m.ref := (h.fresh _ hm).1
    obtain ⟨-, -, -, hoptions⟩ := h.contents _ hm
    refine moves_single (a := .arrive m logged.ref) ?_
      ⟨hfresh.le, .inl ⟨rfl, topic, body, routingKey, options, cause, hi, hsup, hq, hoptions⟩⟩
    have hnew : ∀ x e, .arrived x e ∈ (w.lane q).trail → x.ref < m.ref ∧ e < logged.ref :=
      fun x e hx => by
        obtain ⟨hx, he⟩ := hs.arrived q x e hx
        exact ⟨by omega, by omega⟩
    convert LaneStep.arrive hnew using 1
    refine Lane.ext ?_ rfl rfl ?_
    · exact h.enqueued _ hm
    · simp [hsome m hm, Event.onQueue, Lane.note, lane]
  · refine moves_refl (Lane.ext ?_ rfl rfl ?_)
    · exact h.others q hq
    · rw [hnone fun m hm => hq ((h.mem_iff q).mpr ⟨m, hm⟩)]
      simp [Event.onQueue, lane]

/-- Nothing is parked or to be handed over on a queue without a record. -/
theorem lane_unused {w : World} {q : QueueRef} (hlane : Reach laneMachine (w.lane q))
    (hq : w.trail q = []) : w.parkedCount q = (fun _ => 0) ∧ w.buildingCount q = fun _ => 0 := by
  have htrail : (w.lane q).trail = [] := hq
  constructor <;> funext m
  · have hparked := (Lane.located hlane).parked m
    rw [htrail] at hparked
    exact hparked
  · have hbuilding := Lane.handings_add_building hlane m
    rw [htrail] at hbuilding
    exact (Nat.zero_add _).symm.trans hbuilding

/-- A queue is created: a new lane, seeded from the log, with its first consumer. -/
theorem moves_create {w : World} (hs : w.Sound) (hlane : ∀ q, Reach laneMachine (w.lane q))
    {l : Label} {q : QueueRef} {topic id : String} {handler : AckHandler}
    {opts : SubscribeOptions} (hi : w.next l = some (.subscribe topic handler opts))
    {b₁ b₂ b₃ : Bus} {seeded : List (BusMessage × BusMessage)}
    (hid : w.bus.subscriberId opts = (id, b₁))
    (hb₂ : b₂ = b₁.createQueue topic (Bus.key topic id) opts)
    (hseeded : Bus.replay topic b₁.nextQueue (b₂.backlog topic b₁.nextQueue opts) b₂ =
      (seeded, b₃)) :
    w.Moves l q (w.after (.subscribe topic handler opts)
      { world := (w.withBus (b₃.attach b₁.nextQueue handler)).record
          (.on b₁.nextQueue (.attached handler) ::
            (seeded.map fun t => .on b₁.nextQueue (.arrived t.1 t.2.ref)).reverse)
        more := [.pump b₁.nextQueue, .returnSubscription b₁.nextQueue handler] } q) := by
  have hb₁ := Bus.subscriberId_eq hid
  have hnext : b₁.nextQueue = w.bus.nextQueue := by rw [hb₁]
  have hqueue₂ : ∀ q, b₂.queue q =
      if q = b₁.nextQueue then Bus.newQueue topic opts else w.bus.queue q := fun q => by
    have hqueue₁ : b₁.queue = w.bus.queue := by rw [hb₁]
    rw [hb₂]
    simp only [Bus.createQueue, Function.update_apply, hqueue₁]
  have hsd := Bus.seeded_replay hseeded
  set q₀ := b₁.nextQueue
  have hevents : (.on q₀ (.attached handler) ::
      (seeded.map fun t => Event.on q₀ (.arrived t.1 t.2.ref)).reverse) =
        (QueueEvent.attached handler ::
          (seeded.map fun t => .arrived t.1 t.2.ref).reverse).map (Event.on q₀) := by
    simp [Function.comp_def]
  rw [after_plain (w := w) (i := .subscribe topic handler opts) (q := q)
    (fun _ => ⟨rfl, rfl⟩) (by simp [Instr.parks, Instr.builds]) fun _ => rfl]
  simp only [trail_record, hevents, filterMap_onQueue]
  by_cases hq : q₀ = q
  · subst hq
    have hempty := hs.unused q₀ hnext.ge
    obtain ⟨hparked, hbuilding⟩ := lane_unused (hlane q₀) hempty
    refine .inr ⟨hnext.ge, ⟨Bus.newQueue topic opts, fun _ => 0, fun _ => 0, []⟩,
      ⟨rfl, rfl, rfl, rfl, rfl, rfl, rfl⟩, ?_⟩
    have hsorted : (b₂.backlog topic q₀ opts).Pairwise fun x y => x.ref < y.ref := by
      unfold Bus.backlog
      split_ifs
      · rw [hb₂, Bus.createQueue, hb₁]
        exact (hs.logSorted topic).filter _
      · exact List.Pairwise.nil
    have hlog : b₂.streamLog = w.bus.streamLog := by rw [hb₂, Bus.createQueue, hb₁]
    have hseed : Run laneMachine (w.Caused l q₀) _ _ := Bus.replay_run hseeded hsorted
      ⟨Bus.newQueue topic opts, fun _ => 0, fun _ => 0, []⟩ (by rw [hqueue₂, if_pos rfl])
      (by
        intro L' m entry hL' hm hoptions
        obtain ⟨x, hx, hoptions⟩ := hoptions
        rw [hb₂, Bus.createQueue, hb₁] at hm
        exact ⟨hm, .inr ⟨hL', topic, x, hlog ▸ Bus.mem_of_mem_backlog hx, hoptions⟩⟩)
      (by simp)
    refine hseed.tail (l := .attach handler) ⟨topic, opts, hi⟩ ?_
    show LaneStep _ (.attach handler) _
    convert LaneStep.attach (c := handler) using 1
    refine Lane.ext ?_ ?_ ?_ ?_
    · exact Function.update_self ..
    · exact hparked
    · exact hbuilding
    · simp [hempty, Lane.note]
  · refine moves_refl (Lane.ext ?_ rfl rfl ?_)
    · have hattach : (b₃.attach q₀ handler).queue q = b₃.queue q :=
        Function.update_of_ne (Ne.symm hq) ..
      show (b₃.attach q₀ handler).queue q = w.bus.queue q
      rw [hattach, hsd.others q (Ne.symm hq), hqueue₂, if_neg (Ne.symm hq)]
    · simp [hq, lane]

/-- **A step of the bus moves every lane by steps of its own.** -/
theorem moves_exec {w : World} (hs : w.Sound) (hlane : ∀ q, Reach laneMachine (w.lane q))
    {l : Label} {i : Instr} (hi : w.next l = some i) (hmem : i ∈ w.agenda) {o : Outcome}
    (hex : Executes w i o) (q : QueueRef) : w.Moves l q (w.after i o q) := by
  cases hex with
  | publishSuppressed | disposeNone | expireGone | settleIgnored =>
    exact moves_quiet (fun _ _ => ⟨rfl, rfl⟩) (by simp) (fun _ _ => rfl) rfl rfl
  | returnSubscription | markSettled | disposeBus =>
    exact moves_quiet (fun _ _ => ⟨rfl, rfl⟩) (by simp [Instr.parks, Instr.builds])
      (fun _ _ => rfl) rfl rfl
  | caught hmore =>
    refine moves_quiet (fun _ _ => ⟨rfl, rfl⟩) (fun x hx => ?_) (fun _ _ => rfl) rfl rfl
    rcases hmore with rfl | rfl <;> simp at hx
    subst hx
    exact fun _ _ => ⟨rfl, rfl⟩
  | armExpiry =>
    exact moves_quiet (fun _ _ => ⟨rfl, rfl⟩) (by simp) (by simp) rfl rfl
  | settleAck hh hl =>
    exact moves_local (fun _ _ => ⟨rfl, rfl⟩) (by simp [Instr.parks, Instr.builds]) rfl rfl rfl
      (.ack hl) ⟨_, _, hi, hh, rfl, rfl⟩
  | settleDead hh hl hkind =>
    refine moves_local (fun _ _ => ⟨rfl, rfl⟩) (fun x hx => ?_) rfl rfl rfl
      (.dead hl) ⟨_, _, _, hi, hh, rfl, rfl, hkind⟩
    unfold BusQueue.deadLetterCall at hx
    split_ifs at hx <;> simp at hx
    · rcases hx with rfl | rfl <;> exact fun _ _ => ⟨rfl, rfl⟩
    · subst hx
      exact fun _ _ => ⟨rfl, rfl⟩
  | @settleRequeue h i hh hl hbudget =>
    refine moves_local (fun _ _ => ⟨rfl, rfl⟩) (by simp [Instr.parks, Instr.builds]) rfl ?_ rfl
      (.requeue hl (hs.budget (hlane i.queue) hl ▸ hbudget))
      ⟨rfl, _, _, hi, hh, rfl, rfl, hl, hbudget⟩
    simp [release, Bus.enqueue, Bus.setQueue, withBus, record, BusQueue.push, Lane.released, lane]
  | expirePending hp =>
    exact moves_local (fun _ _ => ⟨rfl, rfl⟩) (by simp [Instr.parks, Instr.builds]) rfl rfl rfl
      (.expirePending hp) ⟨rfl, hi⟩
  | expireInflight hp hl =>
    exact moves_local (fun _ _ => ⟨rfl, rfl⟩) (by simp [Instr.parks, Instr.builds]) rfl rfl rfl
      (.expireInflight hl) ⟨rfl, hi⟩
  | @subscribeOld topic id handler opts b₁ q₀ hid =>
    refine moves_local (fun _ _ => ⟨rfl, rfl⟩) (by simp [Instr.parks, Instr.builds]) rfl ?_ rfl
      .attach ⟨topic, opts, hi⟩
    rw [Bus.subscriberId_eq hid]
    rfl
  | pumpThrew h | pumpNobody h => exact moves_scan hi (BusQueue.next_not_found h (by simp))
  | pumpFound h => exact moves_deliver hs hi (BusQueue.next_found h)
  | wrap => exact moves_hand hi hmem rfl rfl rfl rfl
  | @settlePark h i hh hl hbudget =>
    exact moves_park hl (hs.budget (hlane i.queue) hl ▸ hbudget)
      ⟨rfl, _, _, hi, hh, rfl, rfl, hl, hbudget⟩
  | armRetry => exact moves_armRetry hmem
  | retry => exact moves_retry hi hmem
  | dispose hsub => exact moves_dispose hi hsub
  | publish hsup hlog hcopies => exact moves_publish hs hi hsup (Bus.published hlog hcopies)
  | subscribeNew hid _ hb₂ hseeded => exact moves_create hs hlane hi hid hb₂ hseeded

end World

end MessagingPoc
