import MessagingPoc.InMemory.Forwarding

/-!
# Bounded delivery of poison messages

A negative settlement checks `MaxDeliveries` before it puts a message back, the disposal of a
subscription does not: a message whose consumers keep being disposed of is delivered without bound
(`disposals_exceed_budget`). In runs whose disposals put back no message that has used up its
deliveries (`withinBudget`), the limit holds, the last failed attempt takes the message off the
queue, and there is one dead-letter copy or none (`poison_bounded`).
-/

namespace MessagingPoc

open Machine

/-- The number of deliveries a queue permits. -/
def BusQueue.deliveryLimit (Q : BusQueue) : Nat := max 1 Q.maxDeliveries.toInt.toNat

/-! ## Counting modulo `2 ^ 32` -/

theorem toInt_ofNat_of_le_limit {Q : BusQueue} {n : Nat} (hn : n ≤ Q.deliveryLimit) :
    (Int32.ofNat n).toInt = n := by
  have := Q.maxDeliveries.toInt_lt
  unfold BusQueue.deliveryLimit at hn
  exact Int32.toInt_ofNat_of_lt (by omega)

/-- Below the limit the counter has not wrapped: what passes the check has deliveries left. -/
theorem lt_limit_of_budget {Q : BusQueue} {n : Nat} (hn : n ≤ Q.deliveryLimit)
    (h : Int32.ofNat n < Q.maxDeliveries) : n < Q.deliveryLimit := by
  rw [Int32.lt_iff_toInt_lt, toInt_ofNat_of_le_limit hn] at h
  unfold BusQueue.deliveryLimit
  omega

theorem budget_spent {Q : BusQueue} {n : Nat} (hn : n = Q.deliveryLimit) :
    Q.maxDeliveries ≤ Int32.ofNat n := by
  rw [Int32.le_iff_toInt_le, toInt_ofNat_of_le_limit hn.le, hn]
  unfold BusQueue.deliveryLimit
  omega

/-! ## The limit, on one lane -/

namespace Lane

/-- A disposal puts back only messages with deliveries left. -/
def DetachesFresh (L : Lane) (a : LaneAct) : Prop :=
  ∀ c, a = .detach c → ∀ m ∈ L.queue.heldBy c,
    Int32.ofNat (deliveries m L.trail) < L.queue.maxDeliveries

/-- A message is delivered up to the limit, and waits only if it has deliveries left. -/
structure Budgeted (L : Lane) : Prop where
  bound : ∀ m, deliveries m L.trail ≤ L.queue.deliveryLimit
  left : ∀ m, place m L.trail = .pending ∨ place m L.trail = .parked →
    deliveries m L.trail < L.queue.deliveryLimit

theorem limit_pos (Q : BusQueue) : 0 < Q.deliveryLimit :=
  Nat.lt_of_lt_of_le Nat.one_pos (le_max_left _ _)

theorem undelivered_of_absent {L : Lane} {m : BusMessage} (h : place m L.trail = .absent) :
    deliveries m L.trail = 0 := by
  by_contra hne
  obtain ⟨c, d, hd⟩ := deliveries_pos.mp (Nat.pos_of_ne_zero hne)
  exact place_ne_absent hd rfl h

theorem limit_step {L L' : Lane} {a : LaneAct} (h : LaneStep L a L') :
    L'.queue.deliveryLimit = L.queue.deliveryLimit := by
  rw [BusQueue.deliveryLimit, h.frame, BusQueue.deliveryLimit]

theorem Budgeted.deliver {L L' : Lane} (hb : L.Budgeted) (hl : L.Located) {m : BusMessage}
    {c : AckHandler} {d : Nat} (hs : LaneStep L (.deliver m c d) L') : L'.Budgeted := by
  have hlimit := limit_step hs
  cases hs with
  | deliver hch =>
    obtain ⟨before, after, hsplit, -⟩ := hch.split
    have hplace := hl.mem_pending.mp (show m ∈ L.queue.pending by simp [hsplit])
    have hleft := hb.left m (.inl hplace)
    refine ⟨fun x => ?_, fun x hx => ?_⟩
    · rw [hlimit]
      show deliveries x L.trail + (if m = x then 1 else 0) ≤ _
      split_ifs with hm
      · subst hm
        exact hleft
      · exact hb.bound x
    · rw [hlimit]
      change place x (.delivered m c d :: L.trail) = _ ∨ place x (.delivered m c d :: L.trail) = _
        at hx
      rw [place_cons_of_moves rfl] at hx
      show deliveries x L.trail + (if m = x then 1 else 0) < _
      split_ifs at hx ⊢ with hm
      · simp at hx
      · exact hb.left x hx

theorem budgeted {L : Lane} (h : ReachIf laneMachine DetachesFresh L) : L.Budgeted := by
  refine h.invariant (fun L hnew => ?_) fun L a L' hr ih hok hs => ?_
  · exact ⟨by simp [hnew.trail, deliveries], by simp [hnew.trail, place]⟩
  · have hl := located hr.reach
    by_cases hdeliver : ∃ m c d, a = .deliver m c d
    · obtain ⟨m, c, d, rfl⟩ := hdeliver
      exact ih.deliver hl hs
    · push Not at hdeliver
      have hcount := LaneStep.deliveries hs hdeliver
      have hlimit := limit_step hs
      refine ⟨fun m => by rw [hcount, hlimit]; exact ih.bound m, fun m hm => ?_⟩
      rw [hcount, hlimit]
      rcases hl.takes hs m with heq | htakes
      · exact ih.left m (heq ▸ hm)
      · cases a with
        | arrive =>
          rw [undelivered_of_absent htakes.2.1]
          exact limit_pos _
        | unpark => exact ih.left m (.inr htakes.2.1)
        | detach c =>
          obtain ⟨d, hd⟩ := htakes.1
          exact lt_limit_of_budget (ih.bound m) (hok c rfl m
            (BusQueue.mem_heldBy.mpr ((hl.inflight m c).mpr ⟨d, hd⟩)))
        | requeue =>
          cases hs with
          | requeue _ budget => exact htakes.1 ▸ lt_limit_of_budget (ih.bound _) budget
        | park =>
          cases hs with
          | park _ budget => exact htakes.1 ▸ lt_limit_of_budget (ih.bound _) budget
        | deliver => exact absurd rfl (hdeliver _ _ _)
        | ack | dead | expire => simp [htakes.2.2] at hm
        | attach | scan | hand => exact htakes.elim

end Lane

/-! ## Dead-letter copies -/

/-- The step publishes the dead-letter copy of `m`. -/
def Instr.copies (q : QueueRef) (m : BusMessage) : Instr → Bool
  | .publish _ _ _ _ (.deadLetter q' m') => q' = q ∧ m' = m
  | _ => false

/-- The event is the publish of the dead-letter copy of `m`. -/
def Event.copies (q : QueueRef) (m : BusMessage) : Event → Bool
  | .published _ _ _ _ (.deadLetter q' m') => q' = q ∧ m' = m
  | _ => false

theorem Instr.copies_eq_carries (q : QueueRef) (m : BusMessage) :
    Instr.copies q m = Instr.carries (Fate.dead.cause q m) := by
  funext i
  cases i with
  | publish topic body key options cause => cases cause <;> simp [copies, carries, Fate.cause]
  | _ => rfl

theorem Event.copies_eq_carries (q : QueueRef) (m : BusMessage) :
    Event.copies q m = Event.carries (Fate.dead.cause q m) := by
  funext e
  cases e with
  | published topic body key options cause => cases cause <;> simp [copies, carries, Fate.cause]
  | on => rfl

namespace World

/-- The dead-letter copies of `m` that were published, or that a call is about to publish. -/
def copies (w : World) (q : QueueRef) (m : BusMessage) : Nat :=
  w.agenda.countP (Instr.copies q m) + w.history.countP (Event.copies q m)

/-- Dead-letter copies, published or due, are those of a message of a queue, at its dead-letter
address. -/
structure Faithful (w : World) : Prop where
  due : ∀ topic body key options q m,
    .publish topic body key options (.deadLetter q m) ∈ w.agenda → q < w.bus.nextQueue ∧
      topic = deadLetterAddress (w.bus.queue q).topic ∧ body = m.body ∧
      key = some m.routingKey ∧ options = none
  published : ∀ topic body key options q m,
    .published topic body key options (.deadLetter q m) ∈ w.history → q < w.bus.nextQueue ∧
      topic = deadLetterAddress (w.bus.queue q).topic ∧ body = m.body ∧
      key = m.routingKey ∧ options = none

theorem faithful {w : World} (h : Reach busMachine w) : w.Faithful :=
  ⟨(forwarded h .dead).due, (forwarded h .dead).published⟩

/-- **One dead-letter copy for each message that dies**, on a queue with dead-letter wiring, and
none otherwise. -/
theorem copies_eq {w : World} (h : Reach busMachine w) (q : QueueRef) (m : BusMessage) :
    w.copies q m = if (w.bus.queue q).deadLetter then (w.trail q).count (.dead m) else 0 := by
  rw [copies, Instr.copies_eq_carries, Event.copies_eq_carries]
  exact carried_eq h .dead q m

/-! ## The limit -/

/-- The step disposes of no subscription whose consumer holds a message that has used up its
deliveries. -/
def withinBudget (w : World) (l : Label) : Prop :=
  ∀ p ∈ w.disposedOf l, ∀ m ∈ (w.bus.queue p.1).heldBy p.2,
    w.bus.deliveryCount m.ref < (w.bus.queue p.1).maxDeliveries

instance (w : World) (l : Label) : Decidable (w.withinBudget l) :=
  Option.decidableForallMem _

/-- The step ends an attempt to handle `m`: its holder asks for redelivery (as it does when it
throws), or is disposed of. -/
def attemptFails (w : World) (l : Label) (q : QueueRef) (m : BusMessage) : Prop :=
  (∃ h i, w.next l = some (.settle h .requeue) ∧ w.handles[h]? = some i ∧ i.queue = q ∧
    i.message = m ∧ (w.bus.queue q).inflight.lookup m = some i.consumer) ∨
  ∃ c, w.disposedOf l = some (q, c) ∧ (w.bus.queue q).inflight.lookup m = some c

theorem lane_budgeted {w : World} (h : ReachIf busMachine withinBudget w) (q : QueueRef) :
    (w.lane q).Budgeted := by
  refine Lane.budgeted (guarded_lane (fun w l L a hr hok hcause => ?_) h)
  rintro c rfl m hm
  obtain ⟨rfl, s, hi, hsub⟩ := hcause
  have hg := good hr.reach
  have hl := BusQueue.mem_heldBy.mp hm
  show Int32.ofNat (deliveries m (w.trail q)) < _
  rw [← hg.sound.budget (hg.lane q) hl]
  exact hok (q, c) (by simp [disposedOf, hi, hsub]) m hm

/-- The last attempt of a message takes it off the queue when it fails. -/
theorem last_attempt {w w' : World} (h : ReachIf busMachine withinBudget w) {l : Label}
    (hok : w.withinBudget l) (hs : w.step l = some w') {q : QueueRef} {m : BusMessage}
    (hfails : w.attemptFails l q m)
    (hlast : deliveries m (w.trail q) = (w.bus.queue q).deliveryLimit) :
    .dead m ∈ w'.trail q ∧ ¬ w'.owes q m := by
  have hg := good h.reach
  rcases hfails with ⟨k, i, hi, hk, rfl, rfl, hl⟩ | ⟨c, hdisposed, hl⟩
  · have hspent := budget_spent hlast
    rw [← hg.sound.budget (hg.lane i.queue) hl] at hspent
    have hhistory := (step_next hs hi).2.2.2.2
    have hg' : w'.Good := good (h.reach.step trivial (busMachine_step.mpr hs))
    have hex := w.executes (.settle k .requeue)
    generalize w.exec (.settle k .requeue) = o at hex hhistory
    have htrail : w'.trail i.queue = .dead i.message :: w.trail i.queue := by
      cases hex with
      | settleIgnored hnot => exact absurd hl (hnot i hk)
      | settleDead hk' =>
        obtain rfl := Option.some.inj (hk.symm.trans hk')
        rw [trail, hhistory]
        simp [release, record, withBus, Event.onQueue, trail]
      | settlePark hk' _ hbudget | settleRequeue hk' _ hbudget =>
        obtain rfl := Option.some.inj (hk.symm.trans hk')
        exact absurd hbudget (Int32.not_lt.mpr hspent)
    refine ⟨htrail ▸ List.mem_cons_self, ?_⟩
    rw [owes_iff hg', htrail, place_cons_of_moves rfl, if_pos rfl]
    simp [Place.live]
  · have hleft := hok _ hdisposed m (BusQueue.mem_heldBy.mpr hl)
    rw [hg.sound.budget (hg.lane q) hl] at hleft
    exact absurd (budget_spent hlast) (Int32.not_le.mpr hleft)

/-- **Bounded delivery**, in runs whose disposals put back no message that has used up its
deliveries. -/
theorem poison_bounded {w : World} (h : ReachIf busMachine withinBudget w) (q : QueueRef)
    (m : BusMessage) :
    handings m (w.trail q) ≤ (w.bus.queue q).deliveryLimit ∧
    (∀ l w', w.withinBudget l → w.step l = some w' → w.attemptFails l q m →
      deliveries m (w.trail q) = (w.bus.queue q).deliveryLimit →
        .dead m ∈ w'.trail q ∧ ¬ w'.owes q m) ∧
    (w.trail q).count (.dead m) ≤ 1 ∧
    (w.copies q m = if (w.bus.queue q).deadLetter then (w.trail q).count (.dead m) else 0) ∧
    ∀ topic body key options,
      .published topic body key options (.deadLetter q m) ∈ w.history →
        topic = deadLetterAddress (w.bus.queue q).topic ∧ body = m.body ∧ key = m.routingKey ∧
          options = none := by
  refine ⟨?_, fun l w' hok hs => last_attempt h hok hs, ?_, copies_eq h.reach q m,
    fun topic body key options hx => ((faithful h.reach).published _ _ _ _ _ _ hx).2⟩
  · have hsum := Lane.handings_add_building (lane_reach h.reach q) m
    have hbound := (lane_budgeted h q).bound m
    change handings m (w.trail q) + w.buildingCount q m = deliveries m (w.trail q) at hsum
    change deliveries m (w.trail q) ≤ (w.bus.queue q).deliveryLimit at hbound
    omega
  · obtain ⟨hfinal, hnot⟩ := Lane.fates_eq (lane_reach h.reach q) m
    have hle : (w.trail q).count (.dead m) ≤ Lane.fates m (w.lane q).trail := by
      unfold Lane.fates
      show _ ≤ (w.trail q).count _ + (w.trail q).count _ + (w.trail q).count _
      omega
    by_cases hplace : (place m (w.lane q).trail).final
    · exact (hfinal hplace) ▸ hle
    · exact (hle.trans_eq (hnot hplace)).trans (Nat.zero_le 1)

/-- One permitted delivery, with dead-letter wiring: the handler asks for redelivery. -/
def poisonNacked : List Label :=
  [.call (.subscribe "t" ⟨0⟩ { deadLetter := true, maxDeliveries := some 1 }), .run 0,
    .call (.publish "t" "b" none none), .run 1, .run 1, .run 1, .call (.nack 0 true), .run 2,
      .run 2]

theorem poison_bounded_nacked :
    (play {} poisonNacked).copies 0 ⟨1, "mem-bus-3", "t", "b", "t", none⟩ = 1 ∧
      handings ⟨1, "mem-bus-3", "t", "b", "t", none⟩ ((play {} poisonNacked).trail 0) ≤ 1 :=
  have hbounded := poison_bounded (reachIf_play poisonNacked (by decide)) 0
    ⟨1, "mem-bus-3", "t", "b", "t", none⟩
  ⟨hbounded.2.2.2.1, hbounded.1⟩

/-- One permitted delivery, and a consumer that is disposed of while it holds the message. -/
def poisonDropped : List Label :=
  [.call (.subscribe "t" ⟨0⟩ { subscriberId := some "s", maxDeliveries := some 1 }), .run 0,
    .run 0, .run 0, .call (.subscribe "t" ⟨1⟩ { subscriberId := some "s" }), .run 1,
    .call (.publish "t" "b" none none), .run 2, .run 2, .run 2, .call (.disposeSubscription 0),
    .run 3, .run 3, .run 3]

/-- **Disposals exceed the budget.** The message is handed over twice although one delivery is
permitted. -/
theorem disposals_exceed_budget : ¬ ∀ w, Reach busMachine w → ∀ q m,
    handings m (w.trail q) ≤ (w.bus.queue q).deliveryLimit := by
  intro hclaim
  have hbound := hclaim _ (reach_play poisonDropped) 0 ⟨1, "mem-bus-2", "t", "b", "t", none⟩
  exact absurd hbound (by decide)

end World

end MessagingPoc
