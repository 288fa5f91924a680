import MessagingPoc.InMemory.Forwarding
import MessagingPoc.InMemory.Settlement
import MessagingPoc.Lib.Lookup

/-!
# Delivery counts

`Pump` counts a delivery inside the lock; the handle reads the counter when `Wrap` builds it,
outside the lock. If the message is put back in between, and delivered again, both handlers are told
the later count (`count_read_late`). In runs that put no message in flight while a delivery of it is
still to be handed over, and that do not overflow the counter, the deliveries of a message report
1, 2, 3, … in the order they were put in flight (`delivery_counts_exact`).
-/

namespace MessagingPoc

open Machine

/-! ## The deliveries of a message -/

/-- The consumer and the number of a delivery of `m`. -/
def QueueEvent.deliveredOf (m : BusMessage) : QueueEvent → Option (AckHandler × Nat)
  | .delivered x c d => if x = m then some (c, d) else none
  | _ => none

/-- The deliveries of a message, in the order they were put in flight. -/
def deliveriesOf (m : BusMessage) (t : List QueueEvent) : List (AckHandler × Nat) :=
  (t.filterMap (QueueEvent.deliveredOf m)).reverse

theorem deliveriesOf_cons (m : BusMessage) (e : QueueEvent) (t : List QueueEvent) :
    deliveriesOf m (e :: t) = deliveriesOf m t ++ (e.deliveredOf m).toList := by
  cases h : e.deliveredOf m <;> simp [deliveriesOf, h]

theorem deliveriesOf_detachTrail (m : BusMessage) (c : AckHandler) (ms : List BusMessage)
    (t : List QueueEvent) : deliveriesOf m (detachTrail c ms t) = deliveriesOf m t :=
  fold_detachTrail (deliveriesOf m) (fun _ _ => rfl) c ms t

theorem count_deliveriesOf (m : BusMessage) (c : AckHandler) (d : Nat) (t : List QueueEvent) :
    (deliveriesOf m t).count (c, d) = t.count (.delivered m c d) := by
  induction t with
  | nil => rfl
  | cons e t ih =>
    rw [deliveriesOf_cons, List.count_append, ih, List.count_cons]
    cases e with
    | delivered x c' d' =>
      by_cases hx : x = m
      · simp [QueueEvent.deliveredOf, hx, List.count_singleton]
      · simp [QueueEvent.deliveredOf, hx]
    | _ => simp [QueueEvent.deliveredOf]

theorem mem_deliveriesOf {m : BusMessage} {c : AckHandler} {d : Nat} {t : List QueueEvent} :
    (c, d) ∈ deliveriesOf m t ↔ .delivered m c d ∈ t := by
  rw [← List.count_pos_iff, count_deliveriesOf, List.count_pos_iff]

theorem length_deliveriesOf (m : BusMessage) (t : List QueueEvent) :
    (deliveriesOf m t).length = deliveries m t := by
  induction t with
  | nil => rfl
  | cons e t ih =>
    rw [deliveriesOf_cons, List.length_append, ih]
    cases e with
    | delivered x c d =>
      by_cases hx : x = m <;> simp [QueueEvent.deliveredOf, deliveries, hx]
    | _ => rfl

theorem sorted_deliveriesOf {t : List QueueEvent} (h : Always Lane.DeliversInOrder t)
    (m : BusMessage) : (deliveriesOf m t).Pairwise fun p p' => p.2 < p'.2 := by
  induction t with
  | nil => exact .nil
  | cons e t ih =>
    rw [deliveriesOf_cons, List.pairwise_append]
    refine ⟨ih h.2, ?_, fun p hp p' hp' => ?_⟩
    · cases e.deliveredOf m <;> simp
    · cases e with
      | delivered x c d =>
        simp only [QueueEvent.deliveredOf] at hp'
        split_ifs at hp'
        · obtain rfl := List.mem_singleton.mp hp'
          exact h.1 x c d rfl _ _ _ (mem_deliveriesOf.mp hp)
        · simp at hp'
      | _ => simp [QueueEvent.deliveredOf] at hp'

theorem LaneStep.deliveriesOf {L L' : Lane} {a : LaneAct} (h : LaneStep L a L')
    (ha : ∀ m c d, a ≠ .deliver m c d) (m : BusMessage) :
    MessagingPoc.deliveriesOf m L'.trail = MessagingPoc.deliveriesOf m L.trail := by
  cases h with
  | detach => exact deliveriesOf_detachTrail ..
  | deliver => exact absurd rfl (ha _ _ _)
  | scan => rfl
  | _ => exact (deliveriesOf_cons ..).trans (List.append_nil _)

namespace World

/-! ## One step -/

/-- The message a step puts in flight, and its queue. -/
def putInFlight (w : World) (l : Label) : Option (QueueRef × BusMessage) :=
  match w.next l with
  | some (.pump q) =>
    match (w.bus.queue q).next.1 with
    | .found (m, _) => some (q, m)
    | _ => none
  | _ => none

theorem mem_pending_of_putInFlight {w : World} {l : Label} {q : QueueRef} {m : BusMessage}
    (h : w.putInFlight l = some (q, m)) : m ∈ (w.bus.queue q).pending := by
  unfold putInFlight at h
  split at h
  · split at h
    · rename_i m' c hfound
      obtain ⟨rfl, rfl⟩ := Prod.mk.inj (Option.some.inj h)
      obtain ⟨before, after, hsplit, -⟩ := (BusQueue.next_found (Prod.ext hfound rfl)).split
      simp [hsplit]
    · cases h
  · cases h

theorem deliveriesOf_step {w w' : World} (hg : w.Good) {l : Label} (hs : w.step l = some w')
    (q : QueueRef) (m : BusMessage) :
    deliveriesOf m (w'.trail q) = deliveriesOf m (w.trail q) ∨
      w.putInFlight l = some (q, m) ∧ ∃ c, w.next l = some (.pump q) ∧
        deliveriesOf m (w'.trail q) = deliveriesOf m (w.trail q) ++ [(c, w.history.length)] := by
  by_cases hpump : ∃ q₀, w.next l = some (.pump q₀)
  · obtain ⟨q₀, hi⟩ := hpump
    have hhistory := (step_next hs hi).2.2.2.2
    have hex := w.executes (.pump q₀)
    generalize w.exec (.pump q₀) = o at hex hhistory
    rw [trail, hhistory]
    cases hex with
    | pumpThrew | pumpNobody => exact .inl rfl
    | @pumpFound _ Q x c hnext =>
      simp only [deliver, record, withBus, List.singleton_append, List.filterMap_cons,
        Event.onQueue]
      by_cases hq : q₀ = q
      · subst hq
        rw [if_pos rfl, deliveriesOf_cons, QueueEvent.deliveredOf]
        split_ifs with hx
        · subst hx
          exact .inr ⟨by simp [putInFlight, hi, hnext], c, hi, rfl⟩
        · exact .inl (List.append_nil _)
      · rw [if_neg hq]
        exact .inl rfl
  · left
    have hrun : ∀ {L L' : Lane}, Run laneMachine (w.Caused l q) L L' →
        deliveriesOf m L'.trail = deliveriesOf m L.trail := by
      intro L L' hp
      induction hp with
      | refl => rfl
      | tail _ hcause hstep ih =>
        rw [LaneStep.deliveriesOf hstep, ih]
        rintro m c d rfl
        exact hpump ⟨q, hcause.1⟩
    rcases moves hg hs q with hp | ⟨hq, L₀, hnew, hp⟩
    · exact hrun hp
    · refine (hrun hp).trans ?_
      rw [hnew.trail, hg.sound.unused q hq]

/-! ## One handle for each delivery -/

/-- A step that makes a handle due makes it for the delivery it records. -/
theorem due_exec {w : World} {i : Instr} {o : Outcome} (hex : Executes w i o) (q : QueueRef)
    (m : BusMessage) (c : AckHandler) (d : Nat) :
    o.more.count (.wrap q m c d) + w.history.count (.on q (.delivered m c d)) =
      o.world.history.count (.on q (.delivered m c d)) := by
  cases hex with
  | pumpFound =>
    simp only [deliver, record, withBus, List.singleton_append, List.count_cons, List.count_nil]
    simp [add_comm]
  | @publish topic body routingKey options =>
    have hmore : ∀ copies : List (QueueRef × BusMessage),
        (copies.flatMap (afterEnqueue options)).count (.wrap q m c d) = 0 := by
      refine fun copies => List.count_eq_zero.mpr fun hx => ?_
      exact absurd (light_afterEnqueue hx) (by simp [Instr.light])
    have hcopies : ∀ (copies : List (QueueRef × BusMessage)) (entry : Nat),
        (copies.map fun t => Event.on t.1 (.arrived t.2 entry)).count (.on q (.delivered m c d)) =
          0 := fun copies entry => List.count_eq_zero.mpr (by simp)
    simp [record, withBus, hmore, hcopies]
  | settleDead =>
    unfold BusQueue.deadLetterCall
    split_ifs <;> simp [release, record, withBus]
  | caught hmore => rcases hmore with rfl | rfl <;> simp
  | subscribeNew =>
    have hseeded : ∀ (q' : QueueRef) (seeded : List (BusMessage × BusMessage)),
        (seeded.map fun t => Event.on q' (.arrived t.1 t.2.ref)).count (.on q (.delivered m c d)) =
          0 := fun q' seeded => List.count_eq_zero.mpr (by simp)
    simp [record, withBus, hseeded]
  | dispose =>
    have hreturned : ∀ (q' : QueueRef) (ms : List BusMessage),
        (ms.map fun m => Event.on q' (.returned m)).count (.on q (.delivered m c d)) = 0 :=
      fun q' ms => List.count_eq_zero.mpr (by simp)
    simp [record, withBus, hreturned]
  | _ => simp [record, withBus, release]

/-- **Every delivery has one handle**, built or about to be. -/
theorem handle_of_delivery {w : World} (h : Reach busMachine w) (q : QueueRef) (m : BusMessage)
    (c : AckHandler) (d : Nat) :
    (w.handles.map captured).count (q, m, c, d) + w.agenda.count (.wrap q m c d) =
      (w.trail q).count (.delivered m c d) := by
  refine h.invariant (I := fun w => (w.handles.map captured).count (q, m, c, d) +
    w.agenda.count (.wrap q m c d) = (w.trail q).count (.delivered m c d)) (fun w hw => ?_)
    fun w l w' hr ih _ hstep => ?_
  · rw [busMachine_init.mp hw]
    rfl
  have hs := busMachine_step.mp hstep
  rw [trail, count_onQueue] at ih ⊢
  cases l with
  | call op =>
    obtain rfl := step_call hs
    have hop : op.entry ≠ .wrap q m c d := by cases op <;> simp [Op.entry]
    simpa [agenda, hop] using ih
  | fire n =>
    obtain ⟨t, -, rfl⟩ := step_fire hs
    have ht : t.continuation ≠ .wrap q m c d := by cases t <;> simp [Timer.continuation]
    simpa [agenda, ht] using ih
  | run n =>
    obtain ⟨i, -, -, hi, -⟩ := step_run hs
    have hagenda := countP_agenda_run (light hr) hs hi (· == .wrap q m c d) fun _ x hx => by
      simp only [beq_eq_false_iff_ne]
      rintro rfl
      cases hx
    have hdue := due_exec (w.executes i) q m c d
    rw [(step_next hs hi).2.2.2.2]
    simp only [List.count] at hagenda hdue ih ⊢
    rcases handles_step (f := captured) (fun _ => rfl) hs with ⟨hnot, heq⟩ |
      ⟨q', m', c', d', hi', heq⟩
    · have hne : i ≠ .wrap q m c d := by
        rintro rfl
        exact hnot _ _ _ _ hi
      rw [heq]
      simp only [beq_iff_eq, if_neg hne] at hagenda
      omega
    · obtain rfl := Option.some.inj (hi.symm.trans hi')
      have hhandle : captured (MessagingPoc.wrap w.bus q' m' c' d') = (q', m', c', d') := rfl
      rw [heq, hhandle, List.countP_append, List.countP_singleton]
      simp only [beq_iff_eq, Instr.wrap.injEq, Prod.mk.injEq] at hagenda ⊢
      omega

/-! ## Counts -/

/-- `DeliveryCount` of a message that is somewhere on a queue. -/
theorem Good.deliveryCount {w : World} (hg : w.Good) {q : QueueRef} {m : BusMessage}
    (hm : place m (w.trail q) ≠ .absent) :
    w.bus.deliveryCount m.ref = Int32.ofNat (deliveriesOf m (w.trail q)).length := by
  obtain ⟨entry, hentry⟩ := (Lane.located (hg.lane q)).arrived m hm
  rw [hg.sound.counted q m entry hentry, length_deliveriesOf]

/-- The step puts no message in flight that is still to be handed over from an earlier delivery, and
counts none beyond `int.MaxValue`. -/
def countsInTurn (w : World) (l : Label) : Prop :=
  ∀ p ∈ w.putInFlight l,
    w.buildingCount p.1 p.2 = 0 ∧ w.bus.deliveryCount p.2.ref ≠ Int32.maxValue

instance (w : World) (l : Label) : Decidable (w.countsInTurn l) := Option.decidableForallMem _

/-- The counter has not wrapped, a handle that is due is one for the latest delivery, and the
handles report the place of their delivery in the order. -/
structure InTurn (w : World) : Prop where
  bounded : ∀ q m, (deliveriesOf m (w.trail q)).length < 2 ^ 31
  due : ∀ q m c d, .wrap q m c d ∈ w.agenda →
    (deliveriesOf m (w.trail q)).getLast? = some (c, d)
  reported : ∀ q m c d count, ((q, m, c, d), count) ∈
    w.handles.map (fun i => (captured i, i.deliveryCount)) →
      ∃ n : Nat, (deliveriesOf m (w.trail q))[n]? = some (c, d) ∧ count.toInt = n + 1

theorem not_building {w : World} {q : QueueRef} {m : BusMessage} (h : w.buildingCount q m = 0)
    (c : AckHandler) (d : Nat) : .wrap q m c d ∉ w.agenda := by
  intro hmem
  have hnone := List.countP_eq_zero.mp h _ hmem
  simp [Instr.builds] at hnone

theorem inTurn {w : World} (h : ReachIf busMachine countsInTurn w) : w.InTurn := by
  refine h.invariant (fun w hw => ?_) fun w l w' hr ih hok hstep => ?_
  · rw [busMachine_init.mp hw]
    exact ⟨by simp [trail, deliveriesOf], by simp [agenda], by simp⟩
  have hs := busMachine_step.mp hstep
  have hg := good hr.reach
  have hkept : ∀ {q m} {n : Nat} {p}, (deliveriesOf m (w.trail q))[n]? = some p →
      (deliveriesOf m (w'.trail q))[n]? = some p := by
    intro q m n p hn
    rcases deliveriesOf_step hg hs q m with heq | ⟨-, c, -, heq⟩
    · rw [heq]
      exact hn
    · rw [heq]
      exact Lookup.push_of_some hn _
  refine ⟨fun q m => ?_, fun q m c d hx => ?_, fun q m c d count hx => ?_⟩
  · rcases deliveriesOf_step hg hs q m with heq | ⟨hput, c, hi, heq⟩
    · rw [heq]
      exact ih.bounded q m
    · -- The counter stood below its limit.
      have hplace : place m (w.trail q) ≠ .absent := by
        have hpending : place m (w.trail q) = .pending :=
          (Lane.located (hg.lane q)).mem_pending.mp (mem_pending_of_putInFlight hput)
        simp [hpending]
      have hlimit := (hok _ hput).2
      rw [hg.deliveryCount hplace] at hlimit
      have hbound := ih.bounded q m
      rw [heq, List.length_append, List.length_singleton]
      by_contra hnot
      apply hlimit
      rw [show (deliveriesOf m (w.trail q)).length = 2 ^ 31 - 1 by omega]
      decide
  · rcases mem_agenda_step hs hx with hx | ⟨i, hi, hx⟩ | ⟨op, hx⟩ | ⟨t, -, hx⟩
    · have hdue := ih.due q m c d hx
      rcases deliveriesOf_step hg hs q m with heq | ⟨hput, -, -, -⟩
      · rw [heq, hdue]
      · exact absurd hx (not_building (hok _ hput).1 c d)
    · -- The handle is due for the delivery just made.
      obtain ⟨hnew, rfl⟩ := wrap_more (w.executes i) hx
      have hmem : (c, w.history.length) ∈ deliveriesOf m (w'.trail q) := by
        rw [mem_deliveriesOf, trail, (step_next hs hi).2.2.2.2]
        exact hnew
      have hfresh : (c, w.history.length) ∉ deliveriesOf m (w.trail q) := fun hold =>
        lt_irrefl _ (hg.sound.numbered q m c _ (mem_deliveriesOf.mp hold))
      rcases deliveriesOf_step hg hs q m with heq | ⟨-, c', -, heq⟩
      · exact absurd (heq ▸ hmem) hfresh
      · rw [heq, List.mem_append, List.mem_singleton] at hmem
        obtain rfl := (Prod.mk.inj (hmem.resolve_left hfresh)).1
        rw [heq, List.getLast?_concat]
    · cases op <;> simp [Op.entry] at hx
    · cases t <;> simp [Timer.continuation] at hx
  · rcases handles_step (f := fun i => (captured i, i.deliveryCount)) (fun _ => rfl) hs with
      ⟨-, heq⟩ | ⟨q', m', c', d', hi, heq⟩
    · obtain ⟨n, hn, hcount⟩ := ih.reported q m c d count (heq ▸ hx)
      exact ⟨n, hkept hn, hcount⟩
    · rw [heq, List.mem_append, List.mem_singleton] at hx
      rcases hx with hx | hx
      · obtain ⟨n, hn, hcount⟩ := ih.reported q m c d count hx
        exact ⟨n, hkept hn, hcount⟩
      · simp only [MessagingPoc.wrap, captured, Prod.mk.injEq] at hx
        obtain ⟨⟨rfl, rfl, rfl, rfl⟩, rfl⟩ := hx
        have hmem := mem_agenda_of_next hi
        have hdue := ih.due _ _ _ _ hmem
        have hplace : place m (w.trail q) ≠ .absent :=
          place_ne_absent ((tied hr.reach).wraps _ _ _ _ hmem) rfl
        have hbound := ih.bounded q m
        rw [List.getLast?_eq_getElem?] at hdue
        have hpos : (deliveriesOf m (w.trail q)).length ≠ 0 := by
          intro hnil
          rw [List.length_eq_zero_iff.mp hnil] at hdue
          cases hdue
        refine ⟨_, hkept hdue, ?_⟩
        rw [hg.deliveryCount hplace, Int32.toInt_ofNat_of_lt hbound]
        omega

/-- **Delivery counts are exact**, in runs that keep to the turn: the deliveries of a message on a
queue, in the order they were put in flight, report 1, 2, 3, … to their handlers, each on one
handle, built or about to be. -/
theorem delivery_counts_exact {w : World} (h : ReachIf busMachine countsInTurn w) (q : QueueRef)
    (m : BusMessage) :
    (∀ (n : Nat) c d, (deliveriesOf m (w.trail q))[n]? = some (c, d) → ∀ i ∈ w.handles,
      captured i = (q, m, c, d) → i.deliveryCount.toInt = n + 1) ∧
    ∀ c d, (c, d) ∈ deliveriesOf m (w.trail q) →
      (w.handles.map captured).count (q, m, c, d) + w.agenda.count (.wrap q m c d) = 1 := by
  have hnumbers := Lane.deliveryNumbers (lane_reach h.reach q)
  -- No two deliveries have the same number.
  have hnodup : (deliveriesOf m (w.trail q)).Nodup :=
    (sorted_deliveriesOf hnumbers m).imp fun hlt heq => absurd hlt (by rw [heq]; exact lt_irrefl _)
  refine ⟨fun n c d hn i hi hcaptured => ?_, fun c d hmem => ?_⟩
  · obtain ⟨n', hn', hcount⟩ := (inTurn h).reported q m c d i.deliveryCount
      (List.mem_map.mpr ⟨i, hi, by rw [hcaptured]⟩)
    obtain ⟨hlt, -⟩ := List.getElem?_eq_some_iff.mp hn
    rw [hcount, (List.getElem?_inj hlt hnodup).mp (hn.trans hn'.symm)]
  · rw [handle_of_delivery h.reach, ← count_deliveriesOf]
    exact List.count_eq_one_of_mem hnodup hmem

/-- One message is nacked for redelivery, and handed over twice. -/
def redelivered : List Label :=
  [.call (.subscribe "t" ⟨0⟩ { subscriberId := some "s" }), .run 0,
    .call (.publish "t" "b" none none), .run 1, .run 1, .run 1, .call (.nack 0 true), .run 2,
    .run 2, .run 2, .run 2]

theorem delivery_counts_exact_redelivered : ∃ i ∈ (play {} redelivered).handles,
    captured i = (0, ⟨1, "mem-bus-2", "t", "b", "t", none⟩, ⟨0⟩, 6) ∧
      i.deliveryCount.toInt = (1 : Nat) + 1 := by
  have hsecond : ∃ i ∈ (play {} redelivered).handles,
      captured i = (0, ⟨1, "mem-bus-2", "t", "b", "t", none⟩, ⟨0⟩, 6) := by decide
  obtain ⟨i, hi, hcaptured⟩ := hsecond
  have hcounts := (delivery_counts_exact (reachIf_play redelivered (by decide)) 0
    ⟨1, "mem-bus-2", "t", "b", "t", none⟩).1
  exact ⟨i, hi, hcaptured, hcounts 1 ⟨0⟩ 6 (by decide) i hi hcaptured⟩

/-- A delivery is counted, and before its handle is built its consumer is disposed of and the
message delivered to another. -/
def readLate : List Label :=
  [.call (.subscribe "t" ⟨0⟩ { subscriberId := some "s" }), .run 0, .run 0, .run 0,
    .call (.publish "t" "b" none none), .run 1, .run 1, .call (.disposeSubscription 0), .run 2,
    .call (.subscribe "t" ⟨1⟩ { subscriberId := some "s" }), .run 3, .run 3, .run 1]

/-- **The counter is read late.** The first delivery of a message reports two. -/
theorem count_read_late : ¬ ∀ w q m (n : Nat) c d i, Reach busMachine w →
    (deliveriesOf m (w.trail q))[n]? = some (c, d) → i ∈ w.handles →
      captured i = (q, m, c, d) → i.deliveryCount.toInt = n + 1 := by
  intro hclaim
  have hcount := hclaim (play {} readLate) 0 ⟨1, "mem-bus-2", "t", "b", "t", none⟩ 0 ⟨0⟩ 3
    ⟨"mem-bus-2", "t", "b", 2, [], none, none, none, none, false, 0,
      ⟨1, "mem-bus-2", "t", "b", "t", none⟩, ⟨0⟩, 3⟩
    (reach_play readLate) (by decide) (by decide) (by decide)
  exact absurd hcount (by decide)

end World

end MessagingPoc
