import MessagingPoc.InMemory.Forwarding
import MessagingPoc.InMemory.Topics

/-!
# TTL expiry

A message published with a TTL has one timer, which races with deliveries, settlements, disposals
and the retry timer. When it elapses, the message is looked for on `Pending` and in flight.

**The timer runs** (`ttlRunning_of_owes`) as long as the message is un-consumed: it is armed by the
`Publish` that put the message on its queue, and only its own continuation takes it away.

**Where the routine looks is not everywhere.** A message that waits for its retry timer is in
neither place: it outlives its TTL. And a delivery that is booked under the lock is handed over
only later, by when its message may have expired. `expiresCleanly` excludes these two, and a `Pump`
that throws inside a `Publish` which has timers left to arm.
-/

namespace MessagingPoc

open Machine

/-! ## On one queue -/

namespace Lane

/-- No message expires between the booking of a delivery and its hand-over. -/
def ExpiresUnbooked (L : Lane) (a : LaneAct) : Prop :=
  ∀ m, a = .expire m → (m ∈ L.queue.pending ∨ ∃ c, L.queue.inflight.lookup m = some c) →
    L.building m = 0

theorem final_of_expired {L : Lane} (h : Reach laneMachine L) {m : BusMessage}
    (hm : .expired m ∈ L.trail) : (place m L.trail).final := by
  by_contra hnot
  have hfates := (fates_eq h m).2 hnot
  have hpos := List.count_pos_iff.mpr hm
  unfold fates at hfates
  omega

theorem building_of_expired {L : Lane} (h : ReachIf laneMachine ExpiresUnbooked L)
    {m : BusMessage} (hm : .expired m ∈ L.trail) : L.building m = 0 := by
  refine h.invariant (I := fun L => .expired m ∈ L.trail → L.building m = 0) (fun L hnew => ?_)
    (fun L a L' hr ih hok hs => ?_) hm
  · rw [hnew.trail]
    intro hm
    cases hm
  · intro hm
    cases hs with
    | expirePending hp =>
      rcases List.mem_cons.mp hm with heq | hm
      · cases heq
        exact hok m rfl (.inl hp)
      · exact ih hm
    | expireInflight hl =>
      rcases List.mem_cons.mp hm with heq | hm
      · cases heq
        exact hok m rfl (.inr ⟨_, hl⟩)
      · exact ih hm
    | @deliver Q x c d hch =>
      have hm : .expired m ∈ L.trail := (List.mem_cons.mp hm).resolve_left (by simp)
      -- The message delivered was pending, so it is another one.
      have hne : x ≠ m := by
        rintro rfl
        obtain ⟨before, after, hpending, -⟩ := hch.split
        have hplace : place x L.trail = .pending :=
          (located hr.reach).mem_pending.mp (by rw [hpending]; simp)
        have hfinal := final_of_expired hr.reach hm
        rw [hplace] at hfinal
        simp [Place.final] at hfinal
      show Function.update L.building x _ m = 0
      rw [Function.update_of_ne (Ne.symm hne)]
      exact ih hm
    | @hand x c count hpos =>
      have hm : .expired m ∈ L.trail := (List.mem_cons.mp hm).resolve_left (by simp)
      have hzero := ih hm
      show Function.update L.building x _ m = 0
      rw [Function.update_apply]
      split_ifs with hx
      · rw [← hx, hzero]
      · exact hzero
    | detach =>
      apply ih
      rcases mem_detachTrail.mp hm with ⟨x, -, heq⟩ | heq | hm
      · cases heq
      · cases heq
      · exact hm
    | scan => exact ih hm
    | _ => exact ih ((List.mem_cons.mp hm).resolve_left (by simp))

/-- A message is handed over only before it expires. -/
def HandedBefore (e : QueueEvent) (older : List QueueEvent) : Prop :=
  ∀ m c n, e = .handed m c n → .expired m ∉ older

/-- **No expired message is handed to a handler.** -/
theorem handedBefore {L : Lane} (h : ReachIf laneMachine ExpiresUnbooked L) :
    Always HandedBefore L.trail := by
  refine h.invariant (I := fun L => Always HandedBefore L.trail) (fun L hnew => ?_)
    fun L a L' hr ih _ hs => ?_
  · rw [hnew.trail]
    exact always_nil _
  · have hother : ∀ {e : QueueEvent}, (∀ m c n, e ≠ .handed m c n) →
        Always HandedBefore (e :: L.trail) := by
      intro e he
      exact ⟨fun m c n heq => absurd heq (he m c n), ih⟩
    cases hs with
    | @hand x c n hpos =>
      refine ⟨fun m c' n' heq hm => ?_, ih⟩
      cases heq
      rw [building_of_expired hr hm] at hpos
      exact absurd hpos (lt_irrefl 0)
    | detach => exact always_detachTrail (by simp [HandedBefore]) (by simp [HandedBefore]) ih
    | scan => exact ih
    | _ => exact hother (by simp)

end Lane

/-- The step arms a TTL timer. -/
def Instr.armsTtl : Instr → Bool
  | .armExpiry .. => true
  | _ => false

namespace World

/-! ## The condition -/

instance (w : World) (q : QueueRef) (m : BusMessage) : Decidable (w.owes q m) :=
  inferInstanceAs (Decidable (_ ∨ _))

/-- The step is no TTL timer of a message that waits for its retry timer, nor of one that is
un-consumed with a delivery still to be handed over, and it throws away no timer that is to be
armed. -/
def expiresCleanly (w : World) (l : Label) : Prop :=
  (∀ q m, .armExpiry q m ∉ w.dropped l) ∧
    ∀ q m, w.next l = some (.expire q m) →
      w.parkedCount q m = 0 ∧ (w.owes q m → w.buildingCount q m = 0)

/-- The message whose TTL continuation a step runs. -/
def expiring (w : World) (l : Label) : Option (QueueRef × BusMessage) :=
  match w.next l with
  | some (.expire q m) => some (q, m)
  | _ => none

theorem expiring_eq_some {w : World} {l : Label} {p : QueueRef × BusMessage} :
    w.expiring l = some p ↔ w.next l = some (.expire p.1 p.2) := by
  unfold expiring
  split
  · rename_i hi
    rw [hi]
    constructor
    · intro h
      rw [← Option.some.inj h]
    · intro h
      obtain ⟨rfl, rfl⟩ := Instr.expire.inj (Option.some.inj h)
      rfl
  · rename_i hnot
    exact ⟨fun h => absurd h (by simp), fun h => absurd h (hnot _ _)⟩

theorem expiresCleanly_iff {w : World} {l : Label} : w.expiresCleanly l ↔
    (∀ i ∈ w.dropped l, i.armsTtl = false) ∧ ∀ p ∈ w.expiring l,
      w.parkedCount p.1 p.2 = 0 ∧ (w.owes p.1 p.2 → w.buildingCount p.1 p.2 = 0) := by
  refine and_congr ⟨fun h i hi => ?_, fun h q m hi => ?_⟩ ⟨fun h p hp => ?_, fun h q m hi => ?_⟩
  · cases i with
    | armExpiry q m => exact absurd hi (h q m)
    | _ => rfl
  · exact absurd (h _ hi) (by simp [Instr.armsTtl])
  · exact h p.1 p.2 (expiring_eq_some.mp hp)
  · exact h (q, m) (expiring_eq_some.mpr hi)

instance (w : World) (l : Label) : Decidable (w.expiresCleanly l) :=
  decidable_of_iff' _ expiresCleanly_iff

/-- A Publish with a TTL puts `m` on `q`. -/
structure Timed (w : World) (l : Label) (w' : World) (q : QueueRef) (m : BusMessage) : Prop where
  step : w.step l = some w'
  call : ∃ topic body routingKey options cause,
    w.next l = some (.publish topic body routingKey options cause) ∧
      (options.bind (·.ttlMs)).any (0 ≤ ·) = true
  arrives : ∃ entry, .arrived m entry ∈ w'.trail q ∧ .arrived m entry ∉ w.trail q

/-- The TTL timer of `m` is to be armed, or armed, or its continuation is to run. -/
def ttlRunning (w : World) (q : QueueRef) (m : BusMessage) : Prop :=
  .armExpiry q m ∈ w.agenda ∨ .expiry q m ∈ w.timers ∨ .expire q m ∈ w.agenda

/-! ## The timer runs -/

theorem timers_subset {w : World} {i : Instr} {o : Outcome} (hex : Executes w i o) :
    w.timers ⊆ o.world.timers := by
  cases hex with
  | armExpiry | armRetry => exact List.subset_append_left _ _
  | _ => exact List.Subset.refl _

/-- The `Publish` is to arm the timer of each message it enqueued. -/
theorem Timed.running {w w' : World} {l : Label} {q : QueueRef} {m : BusMessage}
    (ht : Timed w l w' q m) : .armExpiry q m ∈ w'.agenda := by
  obtain ⟨hs, ⟨topic, body, routingKey, options, cause, hi, httl⟩, entry, hnew, hold⟩ := ht
  apply more_scheduled hs hi
  have hhistory := (step_next hs hi).2.2.2.2
  have hex := w.executes (.publish topic body routingKey options cause)
  generalize w.exec (.publish topic body routingKey options cause) = o at hex hhistory
  cases hex with
  | publishSuppressed =>
    rw [trail, hhistory] at hnew
    exact absurd hnew hold
  | @publish _ _ _ _ _ logged b₁ b₂ copies =>
    have hcopy : (q, m) ∈ copies := by
      rw [mem_trail, hhistory] at hnew
      simp only [record, withBus, List.mem_append, List.mem_reverse, List.mem_map, Event.on.injEq,
        QueueEvent.arrived.injEq, List.mem_singleton, reduceCtorEq, or_false] at hnew
      rcases hnew with ⟨t, ht, rfl, rfl, rfl⟩ | hnew
      · exact ht
      · exact absurd (mem_trail.mpr hnew) hold
    refine List.mem_flatMap.mpr ⟨(q, m), hcopy, ?_⟩
    simp [afterEnqueue, httl]

theorem owes_before {w w' : World} (hg : w.Good) (hg' : w'.Good) {l : Label}
    (hs : w.step l = some w') {q : QueueRef} {m : BusMessage} {entry : Nat}
    (hm : .arrived m entry ∈ w.trail q) (howes : w'.owes q m) : w.owes q m := by
  by_contra hnot
  have hrun : Run busMachine anyStep w w' := .single trivial (busMachine_step.mpr hs)
  have hsub := trail_suffix hrun q
  refine not_owes_of_fate hg' ?_ howes
  exact (fate_of_not_owes hg hm hnot).imp (fun h => hsub.subset h)
    (Or.imp (fun h => hsub.subset h) fun h => hsub.subset h)

/-- **The continuation takes an un-consumed message off its queue**, unless the message waits for
its retry timer. -/
theorem expire_takes {w w' : World} {l : Label} (hs : w.step l = some w') {q : QueueRef}
    {m : BusMessage} (hi : w.next l = some (.expire q m)) (hparked : w.parkedCount q m = 0)
    (howes : w.owes q m) : w'.trail q = .expired m :: w.trail q := by
  have hhistory := (step_next hs hi).2.2.2.2
  have hex := w.executes (.expire q m)
  generalize w.exec (.expire q m) = o at hex hhistory
  rw [trail, hhistory]
  cases hex with
  | expireGone hp hl =>
    exfalso
    rcases howes with hm | hm | hm
    · exact hp hm
    · rw [← AList.lookup_isSome, hl] at hm
      cases hm
    · omega
  | expirePending | expireInflight => simp [release, record, withBus, Event.onQueue, trail]

theorem expire_ignores {w w' : World} {l : Label} (hs : w.step l = some w') {q : QueueRef}
    {m : BusMessage} (hi : w.next l = some (.expire q m)) (hnot : ¬ w.owes q m) :
    w'.trail q = w.trail q := by
  have hhistory := (step_next hs hi).2.2.2.2
  have hex := w.executes (.expire q m)
  generalize w.exec (.expire q m) = o at hex hhistory
  rw [trail, hhistory]
  cases hex with
  | expireGone => rfl
  | expirePending hp => exact absurd (.inl hp) hnot
  | expireInflight hp hl =>
    exact absurd (.inr (.inl (AList.lookup_isSome.mp (by rw [hl]; rfl)))) hnot

theorem not_light_expire {w : World} (hl : w.Light) {l : Label} {q : QueueRef} {m : BusMessage} :
    .expire q m ∉ w.dropped l := by
  intro hmem
  cases l with
  | call | fire => cases hmem
  | run n =>
    simp only [dropped] at hmem
    split at hmem
    · rename_i i rest hthread
      split_ifs at hmem
      · exact absurd (hl _ (List.mem_of_getElem? hthread) _ hmem) (by simp [Instr.light])
      · cases hmem
    · cases hmem

/-- **An un-consumed message has its TTL timer running**, from the `Publish` on. -/
theorem ttlRunning_of_owes {w₁ w : World} (h : ReachIf busMachine expiresCleanly w₁)
    (p : Run busMachine expiresCleanly w₁ w) {q : QueueRef} {m : BusMessage} {entry : Nat}
    (hm : .arrived m entry ∈ w₁.trail q) (harmed : .armExpiry q m ∈ w₁.agenda) :
    w.owes q m → w.ttlRunning q m := by
  refine (p.invariant (I := fun w => .arrived m entry ∈ w.trail q ∧
    (w.owes q m → w.ttlRunning q m)) (fun w l w' hr ih hok hstep => ?_) h
    ⟨hm, fun _ => .inl harmed⟩).2
  obtain ⟨hm, ih⟩ := ih
  have hs := busMachine_step.mp hstep
  have hg := good hr.reach
  have hg' : w'.Good := good (hr.reach.step trivial hstep)
  have hsub := trail_suffix (Run.single hok hstep) q
  refine ⟨hsub.subset hm, fun howes => ?_⟩
  have hbefore := owes_before hg hg' hs hm howes
  rcases ih hbefore with harm | htimer | hexpire
  · by_cases hi : w.next l = some (.armExpiry q m)
    · refine .inr (.inl ?_)
      rw [(step_next hs hi).2.2.2.1]
      exact List.mem_append_right _ (List.mem_singleton.mpr rfl)
    · exact .inl (stays hs harm hi (hok.1 q m))
  · cases l with
    | call op =>
      obtain rfl := step_call hs
      exact .inr (.inl htimer)
    | run n =>
      obtain ⟨i, -, -, hi, -⟩ := step_run hs
      refine .inr (.inl ?_)
      rw [(step_next hs hi).2.2.2.1]
      exact timers_subset (w.executes i) htimer
    | fire n =>
      obtain ⟨t, ht, rfl⟩ := step_fire hs
      by_cases htm : t = .expiry q m
      · subst htm
        refine .inr (.inr ?_)
        simp [agenda, Timer.continuation]
      · refine .inr (.inl ?_)
        obtain ⟨hlt, ht⟩ := List.getElem?_eq_some_iff.mp ht
        have hperm := (List.getElem_cons_eraseIdx_perm hlt).mem_iff (a := Timer.expiry q m)
        rw [ht, List.mem_cons] at hperm
        exact (hperm.mpr htimer).resolve_left (Ne.symm htm)
  · by_cases hi : w.next l = some (.expire q m)
    · -- The continuation has run: the message is gone.
      have htrail := expire_takes hs hi (hok.2 q m hi).1 hbefore
      exact absurd howes (not_owes_of_fate hg'
        (.inr (.inr (htrail ▸ List.mem_cons_self))))
    · exact .inr (.inr (stays hs hexpire hi (not_light_expire hg.light)))

/-! ## Expiry -/

theorem handed_before {w : World} (h : ReachIf busMachine expiresCleanly w) (q : QueueRef) :
    Always Lane.HandedBefore (w.trail q) := by
  refine Lane.handedBefore (guarded_lane (fun w l L a hr hok hcause => ?_) h)
  intro m ha hheld
  subst ha
  obtain ⟨rfl, hi⟩ := hcause
  refine (hok.2 q m hi).2 ?_
  rcases hheld with hp | ⟨c, hl⟩
  · exact .inl hp
  · exact .inr (.inl (AList.lookup_isSome.mp (by rw [show AList.lookup m _ = some c from hl]; rfl)))

theorem Timed.clean {w w' : World} {l : Label} {q : QueueRef} {m : BusMessage}
    (ht : Timed w l w' q m) : w.expiresCleanly l := by
  obtain ⟨topic, body, routingKey, options, cause, hi, -⟩ := ht.call
  refine ⟨fun q m hmem => ?_, fun q m hi' => ?_⟩
  · obtain ⟨i, hi', hthrew⟩ := threw_of_dropped hmem
    obtain rfl := Option.some.inj (hi.symm.trans hi')
    obtain ⟨q, hq, -⟩ := pump_of_threw (w.executes _) hthrew
    cases hq
  · rw [hi] at hi'
    cases hi'

/-- Each message that expired has its one copy, and none that did not. -/
theorem carried_expiry {w : World} (h : Reach busMachine w) (q : QueueRef) (m : BusMessage) :
    (.expired m ∈ w.trail q → w.carried (.expiry q m) = 1) ∧
      (.acked m ∈ w.trail q ∨ .dead m ∈ w.trail q → w.carried (.expiry q m) = 0) := by
  have hcarried : w.carried (.expiry q m) = (w.trail q).count (.expired m) :=
    carried_eq h .expired q m
  obtain ⟨hfinal, hnot⟩ := Lane.fates_eq (lane_reach h q) m
  have hfates : Lane.fates m (w.lane q).trail = (w.trail q).count (.acked m) +
    (w.trail q).count (.dead m) + (w.trail q).count (.expired m) := rfl
  have hle : Lane.fates m (w.lane q).trail ≤ 1 := by
    by_cases hp : (place m (w.lane q).trail).final
    · exact (hfinal hp).le
    · rw [hnot hp]
      exact Nat.zero_le 1
  rw [hfates] at hle
  rw [hcarried]
  refine ⟨fun hm => ?_, fun hm => ?_⟩
  · have := List.count_pos_iff.mpr hm
    omega
  · rcases hm with hm | hm <;> have := List.count_pos_iff.mpr hm <;> omega

/-- **TTL expiry**, in runs that expire cleanly, of a message `m` that a `Publish` with a TTL put on
the queue `q`. -/
theorem ttl_expiry {w₀ w₁ w : World} (h : ReachIf busMachine expiresCleanly w₀) {l : Label}
    {q : QueueRef} {m : BusMessage} (ht : Timed w₀ l w₁ q m)
    (p : Run busMachine expiresCleanly w₁ w) :
    (w.owes q m ∨ .acked m ∈ w.trail q ∨ .dead m ∈ w.trail q ∨ .expired m ∈ w.trail q) ∧
    (w.owes q m → w.ttlRunning q m) ∧
    (∀ l' w', w.expiresCleanly l' → w.step l' = some w' → w.next l' = some (.expire q m) →
      (w.owes q m → ¬ w'.owes q m ∧ w'.carried (.expiry q m) = 1) ∧
      (¬ w.owes q m → w'.carried (.expiry q m) = w.carried (.expiry q m))) ∧
    (.expired m ∈ w.trail q → ¬ w.owes q m ∧ w.carried (.expiry q m) = 1) ∧
    (.acked m ∈ w.trail q ∨ .dead m ∈ w.trail q → w.carried (.expiry q m) = 0) ∧
    (∀ newer older, w.trail q = newer ++ .expired m :: older → ∀ c n, .handed m c n ∉ newer) ∧
    ∀ topic body key options, .published topic body key options (.expiry q m) ∈ w.history →
      topic = expiryAddress m.topic ∧ body = m.body ∧ key = m.routingKey ∧ options = none := by
  obtain ⟨entry, hm, -⟩ := ht.arrives
  have h₁ : ReachIf busMachine expiresCleanly w₁ :=
    h.step ht.clean (busMachine_step.mpr ht.step)
  have hw := h₁.extend p
  have hg := good hw.reach
  have harrived : .arrived m entry ∈ w.trail q := (trail_suffix p q).subset hm
  refine ⟨?_, ttlRunning_of_owes h₁ p hm ht.running, ?_, ?_, (carried_expiry hw.reach q m).2, ?_,
    ?_⟩
  · by_cases howes : w.owes q m
    · exact .inl howes
    · exact .inr (fate_of_not_owes hg harrived howes)
  · intro l' w' hok hs hi
    have hw' : Reach busMachine w' := hw.reach.step trivial (busMachine_step.mpr hs)
    refine ⟨fun howes => ?_, fun hnot => ?_⟩
    · have htrail := expire_takes hs hi (hok.2 q m hi).1 howes
      have hexpired : .expired m ∈ w'.trail q := htrail ▸ List.mem_cons_self
      exact ⟨not_owes_of_fate (good hw') (.inr (.inr hexpired)),
        (carried_expiry hw' q m).1 hexpired⟩
    · have hcarried : w.carried (.expiry q m) = (w.trail q).count (.expired m) :=
        carried_eq hw.reach .expired q m
      have hcarried' : w'.carried (.expiry q m) = (w'.trail q).count (.expired m) :=
        carried_eq hw' .expired q m
      rw [hcarried, hcarried', expire_ignores hs hi hnot]
  · intro hexpired
    exact ⟨not_owes_of_fate hg (.inr (.inr hexpired)), (carried_expiry hw.reach q m).1 hexpired⟩
  · intro newer older htrail c n hhanded
    obtain ⟨newer', middle, rfl⟩ := List.append_of_mem hhanded
    have halways := handed_before hw q
    rw [htrail, List.append_assoc] at halways
    exact halways.at m c n rfl (by simp)
  · intro topic body key options hpublished
    obtain ⟨-, htopic, hrest⟩ := (forwarded hw.reach .expired).published _ _ _ _ _ _ hpublished
    rw [(topical hw.reach).arrived q m entry harrived]
    exact ⟨htopic, hrest⟩

/-- A subscriber, and a `Publish` with a TTL. -/
def beforePublish : List Label :=
  [.call (.subscribe "t" ⟨0⟩ { subscriberId := some "s" }), .run 0, .run 0, .run 0,
    .call (.publish "t" "b" none (some { ttlMs := some 0 }))]

/-- The message is delivered, and its TTL elapses before the handler settles it. -/
def untilElapsed : List Label := [.run 1, .run 1, .run 1, .fire 0]

/-- The message of these runs. -/
def timed : BusMessage := ⟨1, "mem-bus-2", "t", "b", "t", some { ttlMs := some 0 }⟩

theorem ttl_expiry_inflight :
    ¬ (play {} (beforePublish ++ [.run 1] ++ untilElapsed ++ [.run 2])).owes 0 timed ∧
      (play {} (beforePublish ++ [.run 1] ++ untilElapsed ++ [.run 2])).carried
        (.expiry 0 timed) = 1 :=
  ((ttl_expiry (l := .run 1) (q := 0) (m := timed)
    (reachIf_play beforePublish (by decide))
    ⟨step_play (by decide), ⟨_, _, _, _, _, rfl, rfl⟩, 0, by decide, by decide⟩
    (run_play untilElapsed (by decide))).2.2.1
      (.run 2) _ (by decide) (step_play (by decide)) rfl).1 (by decide)

/-- A handler asks for a delayed redelivery, and the TTL elapses while the message is parked. -/
def untilParked : List Label :=
  [.call (.subscribe "t" ⟨0⟩ { subscriberId := some "s", retryDelayMs := some 5 }), .run 0,
    .run 0, .run 0, .call (.publish "t" "b" none (some { ttlMs := some 0 }))]

def parkedElapsed : List Label :=
  [.run 1, .run 1, .run 1, .run 1, .call (.nack 0 true), .run 2, .run 2, .run 2, .fire 0]

/-- **A parked message outlives its TTL.** Its continuation has run, and it is still owed. -/
theorem parked_outlives_ttl : ¬ ∀ w₀ w₁ w w' l l' q m, Reach busMachine w₀ →
    Timed w₀ l w₁ q m → Run busMachine anyStep w₁ w → w.step l' = some w' →
      w.next l' = some (.expire q m) → w.owes q m → ¬ w'.owes q m := by
  intro hclaim
  have hw₁ : Timed (play {} untilParked) (.run 1) _ 0 timed :=
    ⟨step_play (by decide), ⟨_, _, _, _, _, rfl, rfl⟩, 0, by decide, by decide⟩
  exact hclaim _ _ _ _ _ (.run 3) 0 timed (reach_play untilParked) hw₁
    (run_play parkedElapsed (plays_anyStep _ _ _))
    (step_play (by decide)) (by decide) (by decide) (by decide)

end World

end MessagingPoc
