import MessagingPoc.TsBus.Turns
import MessagingPoc.Lib.CompetingOrder

/-!
# The engine refines its queues

`Good` is what every turn keeps: above all, that every queue is one that competing consumers can
bring about. `Good.turn_cases` says what a turn can be, and `turns_step` that every step of the
engine is a run of turns.
-/

namespace MessagingPoc.TsBus

open Machine CompetingConsumers

namespace World

/-! ## What every turn keeps -/

structure Good (w : World) : Prop where
  /-- Every queue behaves as competing consumers do. -/
  refines : ∀ q, Reach (CompetingConsumers.machine (w.queue q).discipline) (w.view q)
  counter : ∀ q, (w.queue q).rr ≤ 2 ^ 53
  unused : ∀ q, w.nextQueue ≤ q → w.view q = {}
  arrived : ∀ q m, (w.view q).arrivals m ≠ 0 → m.ref < w.nextRef
  /-- A message object arrives on one queue only. -/
  owner : ∀ q q' m m', (w.view q).arrivals m ≠ 0 → (w.view q').arrivals m' ≠ 0 →
    m.ref = m'.ref → q = q' ∧ m = m'
  counted : ∀ q m, (w.view q).arrivals m ≠ 0 →
    w.deliveryCount m.ref = min ((w.view q).deliveries m) (2 ^ 53)
  uncounted : ∀ r, w.nextRef ≤ r → w.deliveryCount r = 0
  queues : ∀ k q, w.queues k = some q → q < w.nextQueue
  byTopic : ∀ topic, ∀ q ∈ (w.byTopic topic).items, q < w.nextQueue
  subscriptions : ∀ p ∈ w.subscriptions, p.1 < w.nextQueue

variable {w w' : World} {q : QueueRef} {a : Act BusMessage AckHandler} {m : BusMessage}
  {c : AckHandler}

theorem Good.conserved (hg : Good w) (q : QueueRef) : Conserved (w.view q) :=
  CompetingConsumers.conserved (hg.refines q)

theorem Good.arrived_of_pending (hg : Good w) (h : m ∈ (w.queue q).pending) :
    (w.view q).arrivals m ≠ 0 := (hg.conserved q).arrivals_of_pending h

theorem Good.arrived_of_held (hg : Good w) (h : (w.queue q).inflight.get m = some c) :
    (w.view q).arrivals m ≠ 0 := (hg.conserved q).arrivals_of_held h

theorem Good.arrived_of_parked (hg : Good w) (h : Timer.retry q m ∈ w.timers) :
    (w.view q).arrivals m ≠ 0 := (hg.conserved q).arrivals_of_parked (List.count_pos_iff.mpr h)

/-- A queue that something has arrived on is in use. -/
theorem Good.used (hg : Good w) (h : (w.view q).arrivals m ≠ 0) : q < w.nextQueue := by
  by_contra hq
  rw [hg.unused q (Nat.le_of_not_lt hq)] at h
  exact h rfl

theorem Good.undelivered (hg : Good w) (h : (w.view q).arrivals m = 0) :
    (w.view q).deliveries m = 0 := by
  by_contra hd
  have := mem_arrived_of_deliveries (hg.refines q) hd
  rw [← List.count_pos_iff, count_arrived] at this
  omega

/-- `deliveryCount` of a message. -/
theorem Good.retries (hg : Good w) (h : (w.view q).arrivals m ≠ 0)
    (hlt : (w.deliveryCount m.ref : ℤ) < (w.queue q).maxDeliveries) :
    (w.queue q).discipline.retries ((w.view q).deliveries m) := by
  rwa [hg.counted q m h] at hlt

theorem good_init : Good {} := by
  have hview : ∀ q, view {} q = {} := fun q => rfl
  have hnone : ∀ q m, (view {} q).arrivals m = 0 := fun _ _ => rfl
  refine ⟨fun q => .init (hview q), fun _ => Nat.zero_le _, fun q _ => hview q, fun q m h => ?_,
    fun q _ m _ h => ?_, fun q m h => ?_, fun _ _ => rfl, ?_, ?_, ?_⟩
  · exact absurd (hnone q m) h
  · exact absurd (hnone q m) h
  · exact absurd (hnone q m) h
  · simp
  · intro topic q hq
    simp [InsertionSet.empty] at hq
  · simp

theorem Good.aside (hg : Good w) (h : Aside w w') : Good w' := by
  have hview := h.view
  refine ⟨fun q => ?_, fun q => ?_, fun q hq => ?_, fun q m hm => ?_, fun q q' m m' hm hm' => ?_,
    fun q m hm => ?_, fun r hr => ?_, fun k q hq => ?_, fun t q hq => ?_, fun p hp => ?_⟩
  · rw [hview, h.queue]
    exact hg.refines q
  · rw [h.queue]
    exact hg.counter q
  · rw [hview]
    exact hg.unused q (h.nextQueue ▸ hq)
  · rw [hview] at hm
    exact (hg.arrived q m hm).trans_le h.nextRef
  · rw [hview] at hm hm'
    exact hg.owner q q' m m' hm hm'
  · rw [hview] at hm ⊢
    rw [h.deliveryCount]
    exact hg.counted q m hm
  · rw [h.deliveryCount]
    exact hg.uncounted r (h.nextRef.trans hr)
  · rw [h.nextQueue]
    exact hg.queues k q (h.queues k q hq)
  · rw [h.nextQueue]
    exact hg.byTopic t q (h.byTopic t q hq)
  · rw [h.nextQueue]
    rcases h.subscriptions p hp with hold | hnew
    · exact hg.subscriptions p hold
    · exact hnew

/-- What a queue has seen arrive after one more act. -/
theorem arrived_of_step {D : Discipline BusMessage String ℤ}
    {S S' : Queue BusMessage AckHandler String} (h : Step D S a S') (hm : S'.arrivals m ≠ 0) :
    S.arrivals m ≠ 0 ∨ a = .arrive m := by
  rw [(h.counts m).1] at hm
  cases a with
  | arrive x =>
    by_cases hx : x = m
    · exact .inr (hx ▸ rfl)
    · exact .inl (by simpa [hx] using hm)
  | _ => exact .inl hm

theorem next_min (n : ℕ) : Double.next (min n (2 ^ 53)) = min (n + 1) (2 ^ 53) := by
  unfold Double.next
  omega

/-- An act of a queue that is a step of competing consumers keeps everything. -/
theorem Good.acts (hg : Good w) (ha : Acts w q a w')
    (hs : Step (w.queue q).discipline (w.view q) a (w'.view q)) (hq : q < w.nextQueue)
    (hrr : (w'.queue q).rr ≤ 2 ^ 53) (harrive : ∀ m, a = .arrive m → m.ref = w.nextRef) :
    Good w' := by
  have hview : ∀ q' ≠ q, w'.view q' = w.view q' := fun q' hq' => ha.view_of_ne hq'
  have hD := ha.rules.discipline
  have hnext := ha.registry.nextQueue
  have hle : w.nextRef ≤ w'.nextRef := ha.nextRef ▸ Nat.le_add_right ..
  -- What has arrived by now had arrived before, or has just been allocated.
  have harrived : ∀ q' m, (w'.view q').arrivals m ≠ 0 → (w.view q').arrivals m ≠ 0 ∨
      q' = q ∧ a = .arrive m ∧ m.ref = w.nextRef ∧ w'.nextRef = w.nextRef + 1 := by
    intro q' m hm
    by_cases hq' : q' = q
    · subst hq'
      rcases arrived_of_step hs hm with hold | rfl
      · exact .inl hold
      · exact .inr ⟨rfl, rfl, harrive m rfl, ha.nextRef⟩
    · exact .inl (hview q' hq' ▸ hm)
  refine ⟨fun q' => ?_, fun q' => ?_, fun q' hq' => ?_, fun q' m hm => ?_,
    fun q₁ q₂ m₁ m₂ hm₁ hm₂ href => ?_, fun q' m hm => ?_, fun r hr => ?_, ?_, ?_, ?_⟩
  · by_cases hq' : q' = q
    · subst hq'
      rw [hD]
      exact .step (hg.refines q') trivial hs
    · rw [hview q' hq', ha.others q' hq']
      exact hg.refines q'
  · by_cases hq' : q' = q
    · exact hq' ▸ hrr
    · rw [ha.others q' hq']
      exact hg.counter q'
  · have hne : q' ≠ q := by
      rintro rfl
      exact absurd (hnext ▸ hq') (Nat.not_le_of_lt hq)
    rw [hview q' hne]
    exact hg.unused q' (hnext ▸ hq')
  · rcases harrived q' m hm with hold | ⟨-, -, href, hnew⟩
    · exact (hg.arrived q' m hold).trans_le hle
    · omega
  · rcases harrived q₁ m₁ hm₁ with hold₁ | ⟨rfl, rfl, href₁, -⟩
    · rcases harrived q₂ m₂ hm₂ with hold₂ | ⟨-, -, href₂, -⟩
      · exact hg.owner q₁ q₂ m₁ m₂ hold₁ hold₂ href
      · have := hg.arrived q₁ m₁ hold₁
        omega
    · rcases harrived q₂ m₂ hm₂ with hold₂ | ⟨rfl, heq, -, -⟩
      · have := hg.arrived q₂ m₂ hold₂
        omega
      · exact ⟨rfl, Act.arrive.inj heq⟩
  · rcases harrived q' m hm with hold | ⟨rfl, rfl, href, -⟩
    · have hcount := hg.counted q' m hold
      by_cases hq' : q' = q
      · subst hq'
        rw [ha.deliveryCount, (hs.counts m).2.1]
        cases a with
        | deliver x c =>
          by_cases hx : x = m
          · subst hx
            rw [countAfter, Function.update_self, hcount, next_min]
            simp
          · have hx' := (hg.conserved q').arrivals_of_deliver hs
            have hne : m.ref ≠ x.ref :=
              fun heq => hx (hg.owner q' q' m x hold hx' heq).2.symm
            simpa [Function.update_of_ne hne, hx] using hcount
        | _ => simpa using hcount
      · rw [hview q' hq', ha.deliveryCount]
        cases a with
        | deliver x c =>
          have hx := (hg.conserved q).arrivals_of_deliver hs
          have hne : m.ref ≠ x.ref := fun heq => hq' (hg.owner q' q m x hold hx heq).1
          simpa [Function.update_of_ne hne] using hcount
        | _ => exact hcount
    · have hfresh : (w.view q').arrivals m = 0 := by
        by_contra hold
        have := hg.arrived q' m hold
        omega
      have hzero := hg.undelivered hfresh
      rw [ha.deliveryCount, (hs.counts m).2.1, hzero]
      exact hg.uncounted m.ref href.ge
  · have hold := hg.uncounted r (hle.trans hr)
    rw [ha.deliveryCount]
    cases a with
    | deliver x c =>
      have hx := hg.arrived q x ((hg.conserved q).arrivals_of_deliver hs)
      have hne : r ≠ x.ref := by omega
      simpa [Function.update_of_ne hne] using hold
    | _ => exact hold
  · intro k q' hq'
    rw [hnext]
    exact hg.queues k q' (ha.registry.queues ▸ hq')
  · intro t q' hq'
    rw [hnext]
    exact hg.byTopic t q' (ha.registry.byTopic ▸ hq')
  · intro p hp
    rw [hnext]
    exact hg.subscriptions p (ha.registry.subscriptions ▸ hp)

theorem Good.create (hg : Good w) (topic key : String) (options : SubscribeOptions) :
    Good (w.createQueue topic key options) := by
  set w' := w.createQueue topic key options with hw'
  have hnext : w'.nextQueue = w.nextQueue + 1 := rfl
  have hqueue : ∀ q ≠ w.nextQueue, w'.queue q = w.queue q :=
    fun q hq => Function.update_of_ne hq ..
  have hview : ∀ q, w'.view q = w.view q := by
    intro q
    by_cases hq : q = w.nextQueue
    · -- The new queue looks like one that was never used.
      have hold := hg.unused q hq.ge
      rw [hold]
      have htrail : w.trail q = [] := congrArg Queue.trace hold
      have hparked : (fun m => w.timers.count (.retry q m)) = fun _ => 0 :=
        congrArg Queue.parked hold
      have hnew : w'.queue q = newQueue topic options := by
        rw [hq, hw']
        exact Function.update_self ..
      have htrail' : w'.trail q = [] := htrail
      have htimers : w'.timers = w.timers := rfl
      simp only [view, hnew, htrail', htimers, hparked]
      rfl
    · simp only [view, hqueue q hq]
      rfl
  refine ⟨fun q => ?_, fun q => ?_, fun q hq => ?_, fun q m hm => ?_, fun q q' m m' hm hm' => ?_,
    fun q m hm => ?_, hg.uncounted, fun k q hq => ?_, fun t q hq => ?_, fun p hp => ?_⟩
  · rw [hview]
    by_cases hq : q = w.nextQueue
    · exact .init (hg.unused q hq.ge)
    · rw [hqueue q hq]
      exact hg.refines q
  · by_cases hq : q = w.nextQueue
    · rw [hq, hw']
      show (Function.update w.queue w.nextQueue (newQueue topic options) w.nextQueue).rr ≤ _
      rw [Function.update_self]
      exact Nat.zero_le _
    · rw [hqueue q hq]
      exact hg.counter q
  · rw [hview]
    exact hg.unused q (Nat.le_of_succ_le hq)
  · rw [hview] at hm
    exact hg.arrived q m hm
  · rw [hview] at hm hm'
    exact hg.owner q q' m m' hm hm'
  · rw [hview] at hm ⊢
    exact hg.counted q m hm
  · by_cases hk : k = key
    · subst hk
      obtain rfl : w.nextQueue = q := by simpa [hw', createQueue] using hq
      exact Nat.lt_succ_self _
    · have : w.queues k = some q := by simpa [hw', createQueue, hk] using hq
      exact Nat.lt_succ_of_lt (hg.queues k q this)
  · by_cases ht : t = topic
    · subst ht
      have hmem : q ∈ ((w.byTopic t).add w.nextQueue).items := by
        simpa [hw', createQueue] using hq
      rcases InsertionSet.mem_add.mp hmem with hold | rfl
      · exact Nat.lt_succ_of_lt (hg.byTopic t q hold)
      · exact Nat.lt_succ_self _
    · have : q ∈ (w.byTopic t).items := by simpa [hw', createQueue, ht] using hq
      exact Nat.lt_succ_of_lt (hg.byTopic t q this)
  · exact Nat.lt_succ_of_lt (hg.subscriptions p hp)

/-- What a turn is to the queue that acts: a step of competing consumers. -/
structure Moves (w : World) (q : QueueRef) (a : Act BusMessage AckHandler) (w' : World) :
    Prop where
  acts : Acts w q a w'
  step : Step (w.queue q).discipline (w.view q) a (w'.view q)
  used : q < w.nextQueue
  counter : (w'.queue q).rr ≤ 2 ^ 53
  allocated : ∀ m, a = .arrive m → m.ref = w.nextRef

/-- The view of a queue that has acted. -/
theorem view_act (w : World) (q : QueueRef) (a : Act BusMessage AckHandler) (Q : BusQueue) :
    (w.act q a Q).view q = Queue.record
      { w.view q with
        consumers := Q.consumers
        pending := Q.pending
        held := Q.inflight.get
        pins := Q.groupAffinity } a := by
  have hqueue : (w.act q a Q).queue q = Q := Function.update_self ..
  simp only [view, hqueue, trail_cons w (w.act q a Q) q q a rfl, if_true]
  rfl

theorem Good.moves_act (hg : Good w) {Q : BusQueue} (hrules : SameRules (w.queue q) Q)
    (ha : ∀ m c, a ≠ .arrive m ∧ a ≠ .deliver m c) (hrr : Q.rr = (w.queue q).rr)
    (hq : q < w.nextQueue)
    (hs : Step (w.queue q).discipline (w.view q) a (Queue.record
      { w.view q with
        consumers := Q.consumers
        pending := Q.pending
        held := Q.inflight.get
        pins := Q.groupAffinity } a)) :
    Moves w q a (w.act q a Q) where
  acts := acts_act hrules ha
  step := view_act w q a Q ▸ hs
  used := hq
  counter := by
    have hqueue : (w.act q a Q).queue q = Q := Function.update_self ..
    rw [hqueue, hrr]
    exact hg.counter q
  allocated m h := absurd h (ha m ⟨0⟩).1

theorem Good.moves_deliver (hg : Good w) {Q : BusQueue} (hq : q < w.nextQueue)
    (h : (w.queue q).next = (some (m, c), Q)) :
    Moves w q (.deliver m c) (w.deliver q Q m c) := by
  obtain ⟨hc, hrr⟩ := BusQueue.next_some (hg.counter q) h
  obtain ⟨before, after, hsplit, hrest, hfirst, hbest⟩ := hc.split
  have hqueue : (w.deliver q Q m c).queue q = { Q with inflight := Q.inflight.set m c } :=
    Function.update_self ..
  have hinflight : Q.inflight = (w.queue q).inflight := by rw [hc.frame]
  have hconsumers : Q.consumers = (w.queue q).consumers := by rw [hc.frame]
  have hfree : ∀ x, (w.view q).held x ≠ some c :=
    fun x hx => hc.free (InsertionMap.mem_values.mpr ⟨x, hx⟩)
  refine ⟨⟨fun q' hq' => Function.update_of_ne hq' .., ?_, fun _ _ _ => rfl, rfl, rfl, rfl, ?_,
    ⟨rfl, rfl, rfl, rfl⟩⟩, ?_, hq, ?_, by simp⟩
  · rw [hqueue, SameRules, hc.frame]
  · simp [deliver, Handle.delivery, wrap, act, record, setQueue]
  · have hview : (w.deliver q Q m c).view q = Queue.record
        { w.view q with
          pending := before ++ after
          held := Function.update (w.view q).held m (some c)
          pins := Q.groupAffinity } (.deliver m c) := by
      simp only [view, hqueue, trail_cons w (w.deliver q Q m c) q q _ rfl, if_true, hrest,
        InsertionMap.get_set, hinflight, hconsumers]
      rfl
    rw [hview]
    refine .deliver hsplit hc.attached hfree hfirst (fun hp x hx => (hbest hp).1 x hx)
      (fun hp hs => ?_) hc.pinned hc.kept
    obtain ⟨hempty, hhead⟩ := hc.exclusive hp hs
    exact ⟨InsertionMap.get_eq_none_of_entries hempty, hhead⟩
  · rw [hqueue]
    exact hrr

theorem Good.moves_arrive (hg : Good w) {seq : Nat} (hq : q < w.nextQueue)
    (hm : m.ref = w.nextRef) :
    Moves w q (.arrive m)
      ({ w with seq := seq, nextRef := w.nextRef + 1 }.push q m (.arrive m)) := by
  set w' := { w with seq := seq, nextRef := w.nextRef + 1 }.push q m (.arrive m) with hw'
  have hqueue : w'.queue q = { w.queue q with pending := (w.queue q).pending ++ [m] } :=
    Function.update_self ..
  refine ⟨⟨fun q' hq' => Function.update_of_ne hq' .., ?_, fun _ _ _ => rfl, rfl, rfl, rfl, ?_,
    ⟨rfl, rfl, rfl, rfl⟩⟩, ?_, hq, ?_, ?_⟩
  · rw [hqueue, SameRules]
  · exact (List.append_nil _).symm
  · have hfresh : (w.view q).arrivals m = 0 := by
      by_contra hold
      exact absurd (hg.arrived q m hold) (by omega)
    have hview : w'.view q = Queue.record
        { w.view q with pending := (w.view q).pending ++ [m] } (.arrive m) := by
      simp only [view, hqueue, trail_cons w w' q q (.arrive m) rfl, if_true]
      rfl
    rw [hview]
    exact .arrive hfresh
  · rw [hqueue]
    exact hg.counter q
  · rintro x ⟨⟩
    exact hm

theorem Good.moves_park (hg : Good w) (h : (w.queue q).inflight.get m = some c)
    (retry : (w.deliveryCount m.ref : ℤ) < (w.queue q).maxDeliveries) :
    Moves w q (.park m) ((w.release q m (.park m)).arm (.retry q m)) := by
  set w' := (w.release q m (.park m)).arm (.retry q m) with hw'
  have hqueue : w'.queue q = { w.queue q with inflight := (w.queue q).inflight.delete m } :=
    Function.update_self ..
  have htimers : w'.timers = w.timers ++ [.retry q m] := rfl
  have harr := hg.arrived_of_held h
  refine ⟨⟨fun q' hq' => Function.update_of_ne hq' .., ?_, fun q' hq' x => ?_, rfl, rfl, rfl, ?_,
    ⟨rfl, rfl, rfl, rfl⟩⟩, ?_, hg.used harr, ?_, by simp⟩
  · rw [hqueue, SameRules]
  · simp [htimers, hq'.symm]
  · exact (List.append_nil _).symm
  · have hview : w'.view q = Queue.record
        { w.view q with
          held := Function.update (w.view q).held m none
          parked := Function.update (w.view q).parked m ((w.view q).parked m + 1) }
        (.park m) := by
      have hparked : (fun x => (w.timers ++ [Timer.retry q m]).count (.retry q x)) =
          Function.update (w.view q).parked m ((w.view q).parked m + 1) := by
        funext x
        by_cases hx : x = m
        · subst hx
          simp [view]
        · simp [view, hx, Ne.symm hx]
      simp only [view, hqueue, trail_cons w w' q q (.park m) rfl, if_true, htimers, hparked,
        InsertionMap.get_delete]
      rfl
    rw [hview]
    exact .park h (hg.retries harr retry)
  · rw [hqueue]
    exact hg.counter q

theorem Good.moves_unpark (hg : Good w) {i : Nat} (h : w.timers[i]? = some (.retry q m)) :
    Moves w q (.unpark m) ({ w with timers := w.timers.eraseIdx i }.push q m (.unpark m)) := by
  set w' := { w with timers := w.timers.eraseIdx i }.push q m (.unpark m) with hw'
  have hqueue : w'.queue q = { w.queue q with pending := (w.queue q).pending ++ [m] } :=
    Function.update_self ..
  obtain ⟨hlt, hget⟩ := List.getElem?_eq_some_iff.mp h
  have hcount : ∀ t, w.timers.count t = (w.timers.eraseIdx i).count t +
      if Timer.retry q m = t then 1 else 0 := by
    intro t
    rw [← (List.getElem_cons_eraseIdx_perm hlt).count_eq, hget, List.count_cons]
    simp
  have hmem : Timer.retry q m ∈ w.timers := hget ▸ List.getElem_mem hlt
  have htimers : w'.timers = w.timers.eraseIdx i := rfl
  refine ⟨⟨fun q' hq' => Function.update_of_ne hq' .., ?_, fun q' hq' x => ?_, rfl, rfl, rfl, ?_,
    ⟨rfl, rfl, rfl, rfl⟩⟩, ?_, hg.used (hg.arrived_of_parked hmem), ?_, by simp⟩
  · rw [hqueue, SameRules]
  · simp [htimers, hcount, hq'.symm]
  · exact (List.append_nil _).symm
  · have hpos : 0 < (w.view q).parked m := List.count_pos_iff.mpr hmem
    have hview : w'.view q = Queue.record
        { w.view q with
          pending := (w.view q).pending ++ [m]
          parked := Function.update (w.view q).parked m ((w.view q).parked m - 1) }
        (.unpark m) := by
      have hparked : (fun x => (w.timers.eraseIdx i).count (Timer.retry q x)) =
          Function.update (w.view q).parked m ((w.view q).parked m - 1) := by
        funext x
        by_cases hx : x = m
        · subst hx
          simp [view, hcount]
        · simp [view, hcount, hx, Ne.symm hx]
      simp only [view, hqueue, trail_cons w w' q q (.unpark m) rfl, if_true, htimers, hparked]
      rfl
    rw [hview]
    exact .unpark hpos
  · rw [hqueue]
    exact hg.counter q

/-! ## Every turn -/

/-- A look at a queue that delivers nothing. -/
structure Looks (w : World) (q : QueueRef) (w' : World) : Prop where
  scanned : BusQueue.Scanned (w.queue q) (w'.queue q)
  eq : w' = w.setQueue q (w'.queue q)

/-- Everything a turn can be. -/
theorem Good.turn_cases (hg : Good w) (h : Turn w w') : Aside w w' ∨
    (∃ topic key options, w' = w.createQueue topic key options) ∨ (∃ q, Looks w q w') ∨
    ∃ q a, Moves w q a w' := by
  cases h with
  | aside h => exact .inl h
  | create => exact .inr (.inl ⟨_, _, _, rfl⟩)
  | @scan q Q hq h =>
    have hqueue : (w.setQueue q Q).queue q = Q := Function.update_self ..
    refine .inr (.inr (.inl ⟨q, ?_, ?_⟩))
    · rw [hqueue]
      exact BusQueue.next_none (hg.counter q) h
    · rw [hqueue]
  | arrive seq hq hm => exact .inr (.inr (.inr ⟨_, _, hg.moves_arrive hq hm⟩))
  | @attach q c hq =>
    refine .inr (.inr (.inr ⟨q, _, hg.moves_act ?_ (by simp) rfl hq .attach⟩))
    rw [SameRules]
  | @giveBack q m c h =>
    refine .inr (.inr (.inr ⟨q, _, hg.moves_act ?_ (by simp) rfl
      (hg.used (hg.arrived_of_held h)) ?_⟩))
    · rw [SameRules]
    · rw [InsertionMap.get_delete]
      exact .giveBack (S := w.view q) h
  | @detach q c hq empty =>
    refine .inr (.inr (.inr ⟨q, _, hg.moves_act ?_ (by simp) rfl hq (.detach empty)⟩))
    rw [SameRules]
  | @deliver q m c Q hq h => exact .inr (.inr (.inr ⟨q, _, hg.moves_deliver hq h⟩))
  | @settle q m c h =>
    refine .inr (.inr (.inr ⟨q, _, hg.moves_act ?_ (by simp) rfl
      (hg.used (hg.arrived_of_held h)) ?_⟩))
    · rw [SameRules]
    · rw [InsertionMap.get_delete]
      exact .settle (S := w.view q) h
  | @park q m c h retry => exact .inr (.inr (.inr ⟨q, _, hg.moves_park h retry⟩))
  | @requeue q m c h retry =>
    have harr := hg.arrived_of_held h
    refine .inr (.inr (.inr ⟨q, _, hg.moves_act ?_ (by simp) rfl (hg.used harr) ?_⟩))
    · rw [SameRules]
    · rw [InsertionMap.get_delete]
      exact .requeue (S := w.view q) h (hg.retries harr retry)
  | @unpark i q m h => exact .inr (.inr (.inr ⟨q, _, hg.moves_unpark h⟩))
  | @expirePending q m h =>
    refine .inr (.inr (.inr ⟨q, _, hg.moves_act ?_ (by simp) rfl
      (hg.used (hg.arrived_of_pending h)) (.expirePending h)⟩))
    rw [SameRules]
  | @expireHeld q m c h =>
    refine .inr (.inr (.inr ⟨q, _, hg.moves_act ?_ (by simp) rfl
      (hg.used (hg.arrived_of_held h)) ?_⟩))
    · rw [SameRules]
    · rw [InsertionMap.get_delete]
      exact .expireHeld (S := w.view q) h

theorem Looks.view {w w' : World} {q : QueueRef} (h : Looks w q w') (q' : QueueRef) :
    w'.view q' = if q' = q then { w.view q with pins := (w'.queue q).groupAffinity }
      else w.view q' := by
  have hqueue := h.eq
  split_ifs with hq
  · subst hq
    have hframe := h.scanned.frame
    simp only [World.view, trail]
    rw [hqueue]
    simp only [setQueue, Function.update_self]
    rw [hframe]
  · simp only [World.view, trail]
    rw [hqueue]
    simp only [setQueue, Function.update_of_ne hq]

theorem Good.looks (hg : Good w) (h : Looks w q w') : Good w' := by
  have hview := h.view
  have hqueue : ∀ q' ≠ q, w'.queue q' = w.queue q' := by
    intro q' hq'
    rw [h.eq]
    exact Function.update_of_ne hq' ..
  have hstep : Step (w.queue q).discipline (w.view q) .scan (w'.view q) := by
    rw [hview, if_pos rfl]
    exact .scan h.scanned.kept
  have hsame : ∀ q' m, (w'.view q').arrivals m = (w.view q').arrivals m ∧
      (w'.view q').deliveries m = (w.view q').deliveries m := by
    intro q' m
    by_cases hq' : q' = q
    · subst hq'
      exact ⟨(hstep.counts m).1, (hstep.counts m).2.1⟩
    · rw [hview, if_neg hq']
      exact ⟨rfl, rfl⟩
  obtain ⟨hnextQueue, hnextRef, hcount, hqueues, hbyTopic, hsubs⟩ :
      w'.nextQueue = w.nextQueue ∧ w'.nextRef = w.nextRef ∧ w'.deliveryCount = w.deliveryCount ∧
        w'.queues = w.queues ∧ w'.byTopic = w.byTopic ∧
        w'.subscriptions = w.subscriptions := by
    rw [h.eq]
    exact ⟨rfl, rfl, rfl, rfl, rfl, rfl⟩
  refine ⟨fun q' => ?_, fun q' => ?_, fun q' hq' => ?_, fun q' m hm => ?_,
    fun q' q'' m m' hm hm' => ?_, fun q' m hm => ?_, fun r hr => ?_, ?_, ?_, ?_⟩
  · by_cases hq' : q' = q
    · subst hq'
      have hrules : (w'.queue q').discipline = (w.queue q').discipline := by
        rw [h.scanned.frame]
        rfl
      rw [hrules]
      exact .step (hg.refines q') trivial hstep
    · rw [hview, if_neg hq', hqueue q' hq']
      exact hg.refines q'
  · by_cases hq' : q' = q
    · subst hq'
      exact (h.scanned.counter (hg.counter q')).2
    · rw [hqueue q' hq']
      exact hg.counter q'
  · rw [hnextQueue] at hq'
    rw [hview]
    split_ifs with heq
    · subst heq
      have hold := hg.unused q' hq'
      have hnone : (w'.queue q').groupAffinity = fun _ => none := by
        funext g
        cases hpin : (w'.queue q').groupAffinity g with
        | none => rfl
        | some o =>
          have := h.scanned.noNew g o hpin
          have hpins : (w.queue q').groupAffinity g = none := congrFun (congrArg Queue.pins hold) g
          simp [this] at hpins
      rw [hold, hnone]
    · exact hg.unused q' hq'
  · rw [hnextRef]
    exact hg.arrived q' m ((hsame q' m).1 ▸ hm)
  · exact hg.owner q' q'' m m' ((hsame q' m).1 ▸ hm) ((hsame q'' m').1 ▸ hm')
  · rw [hcount, (hsame q' m).2]
    exact hg.counted q' m ((hsame q' m).1 ▸ hm)
  · rw [hcount]
    exact hg.uncounted r (hnextRef ▸ hr)
  · rw [hqueues, hnextQueue]
    exact hg.queues
  · rw [hbyTopic, hnextQueue]
    exact hg.byTopic
  · rw [hsubs, hnextQueue]
    exact hg.subscriptions

theorem Good.moves (hg : Good w) (h : Moves w q a w') : Good w' :=
  hg.acts h.acts h.step h.used h.counter h.allocated

theorem Good.turn (hg : Good w) (h : Turn w w') : Good w' := by
  rcases hg.turn_cases h with h | ⟨_, _, _, rfl⟩ | ⟨_, h⟩ | ⟨_, _, h⟩
  · exact hg.aside h
  · exact hg.create ..
  · exact hg.looks h
  · exact hg.moves h

theorem good (h : Reach turns w) : Good w := by
  refine h.invariant (fun w hw => ?_) fun w _ w' _ hg _ h => hg.turn h
  obtain rfl : w = {} := hw
  exact good_init

theorem Good.turns (hg : Good w) (h : Turns w w') : Good w' := by
  induction h with
  | refl => exact hg
  | tail _ _ h ih => exact ih.turn h

/-- What a queue is set up with never changes. -/
theorem Good.rules (hg : Good w) (h : Turn w w') (hq : q < w.nextQueue) :
    SameRules (w.queue q) (w'.queue q) := by
  rcases hg.turn_cases h with h | ⟨_, _, _, rfl⟩ | ⟨q', h⟩ | ⟨q', _, h⟩
  · rw [h.queue]
    exact .refl _
  · show SameRules _ (Function.update w.queue w.nextQueue _ q)
    rw [Function.update_of_ne hq.ne]
    exact .refl _
  · by_cases hqq : q = q'
    · subst hqq
      rw [SameRules, h.scanned.frame]
    · rw [h.eq]
      show SameRules _ (Function.update w.queue q' _ q)
      rw [Function.update_of_ne hqq]
      exact .refl _
  · by_cases hqq : q = q'
    · exact hqq ▸ h.acts.rules
    · rw [h.acts.others q hqq]
      exact .refl _

theorem Good.used_of_trail (hg : Good w) (h : w.trail q ≠ []) : q < w.nextQueue := by
  by_contra hq
  have htrail : w.trail q = (w.view q).trace := rfl
  rw [htrail, hg.unused q (Nat.le_of_not_lt hq)] at h
  exact h rfl

end World

end MessagingPoc.TsBus
