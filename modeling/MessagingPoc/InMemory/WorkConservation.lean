import MessagingPoc.InMemory.NoLoss

/-!
# Work conservation

Whatever frees a consumer or adds a message is followed by a `Pump` of the queue, so a queue with
no `Pump` left to run has nothing it could deliver (`work_conservation`). Two things break this.
A TTL timer that removes a message in flight frees its consumer and pumps nothing
(`expiry_strands_backlog`), and a `Pump` that reads the consumer list at a negative position, the
round-robin counter having wrapped, throws. `keepsPumping` excludes just these.
-/

namespace MessagingPoc

open Machine

namespace BusQueue

/-- Nothing on the queue could be delivered, by the kind of queue. -/
def Idle (Q : BusQueue) : Prop :=
  if Q.partitionByGroup = true then
    (∀ m ∈ Q.pending, ∀ c ∈ Q.consumers, Q.groupAffinity m.group = some c → c ∈ Q.owners) ∧
      ∀ m ∈ Q.pending, (∀ o ∈ Q.groupAffinity m.group, o ∉ Q.consumers) →
        ∀ c ∈ Q.consumers, c ∈ Q.owners
  else if Q.singleActiveConsumer = true then
    Q.pending = [] ∨ Q.consumers = [] ∨ Q.inflight.entries.length = 1
  else Q.pending = [] ∨ ∀ c ∈ Q.consumers, c ∈ Q.owners

instance (Q : BusQueue) : Decidable Q.Idle := inferInstanceAs (Decidable (ite _ _ _))

theorem Deliverable.of_subset {Q : BusQueue} {items : List BusMessage}
    (h : { Q with pending := items }.Deliverable) (hsub : items ⊆ Q.pending) : Q.Deliverable := by
  have hne : items ≠ [] → Q.pending ≠ [] := fun hitems hnil =>
    hitems (List.subset_nil.mp (hnil ▸ hsub))
  unfold Deliverable at h ⊢
  split_ifs at h ⊢
  · obtain ⟨m, hm, hc⟩ := h
    exact ⟨m, hsub hm, hc⟩
  · exact ⟨hne h.1, h.2⟩
  · exact ⟨hne h.1, h.2⟩

theorem idle_of_not_deliverable {Q : BusQueue} (h : ¬ Q.Deliverable)
    (hone : Q.partitionByGroup = false → Q.singleActiveConsumer = true →
      Q.inflight.entries.length ≤ 1) : Q.Idle := by
  unfold Deliverable at h
  unfold Idle
  split_ifs at h ⊢ with hpart hsingle
  · refine ⟨fun m hm c hc hpin => ?_, fun m hm hstale c hc => ?_⟩
    · by_contra hfree
      exact h ⟨m, hm, c, hc, hfree, .inl hpin⟩
    · by_contra hfree
      exact h ⟨m, hm, c, hc, hfree, .inr hstale⟩
  · by_contra hnot
    push Not at hnot
    refine h ⟨hnot.1, hnot.2.1, List.length_eq_zero_iff.mp ?_⟩
    have := hone (by simpa using hpart) hsingle
    omega
  · by_contra hnot
    push Not at hnot
    exact h hnot

end BusQueue

namespace World

/-- The step does not throw out of a `Pump`, and is no TTL timer that takes a message out of flight
while a pending one could take its place and no `Pump` of the queue is left to run. -/
def keepsPumping (w : World) (l : Label) : Prop :=
  match w.next l with
  | some (.pump q) => (w.bus.queue q).next.1 ≠ .threw
  | some (.expire q m) => m ∉ (w.bus.queue q).pending → m ∈ (w.bus.queue q).inflight →
      .pump q ∈ w.agenda ∨
        ¬ { w.bus.queue q with inflight := (w.bus.queue q).inflight.erase m }.Deliverable
  | _ => True

instance (w : World) (l : Label) : Decidable (w.keepsPumping l) := by
  unfold keepsPumping
  induction w.next l using Option.casesOn with
  | none => exact instDecidableTrue
  | some i => induction i using Instr.casesOn <;> infer_instance

/-! ## What needs a `Pump` -/

theorem pump_mem_flatMap {options : Option PublishOptions}
    {copies : List (QueueRef × BusMessage)} {t : QueueRef × BusMessage} (h : t ∈ copies) :
    .pump t.1 ∈ copies.flatMap (afterEnqueue options) :=
  List.mem_flatMap.mpr ⟨t, h, List.mem_append_right _ (List.mem_singleton.mpr rfl)⟩

/-- A step that touches a queue schedules a `Pump` of it, unless it is one, or is a TTL timer. -/
theorem pumps {w : World} {i : Instr} {o : Outcome} (hex : Executes w i o) (q : QueueRef) :
    o.world.bus.queue q = w.bus.queue q ∨ .pump q ∈ o.more ∨ i = .pump q ∨
      ∃ m, i = .expire q m := by
  -- A step that works on queue `q₀` only.
  have honly : ∀ {q₀ : QueueRef} {Q : BusQueue},
      o.world.bus.queue = Function.update w.bus.queue q₀ Q → (q = q₀ → .pump q ∈ o.more ∨
        i = .pump q ∨ ∃ m, i = .expire q m) →
      o.world.bus.queue q = w.bus.queue q ∨ .pump q ∈ o.more ∨ i = .pump q ∨
        ∃ m, i = .expire q m := by
    intro q₀ Q hbus hpump
    by_cases hq : q = q₀
    · exact .inr (hpump hq)
    · exact .inl (by rw [hbus, Function.update_of_ne hq])
  cases hex with
  | @publish topic body routingKey options cause logged b₁ b₂ copies _ hlog hcopies =>
    have hp := Bus.published hlog hcopies
    by_cases hq : q ∈ w.bus.targets topic (routingKey.getD topic)
    · obtain ⟨m, hm⟩ := (hp.mem_iff q).mp hq
      exact .inr (.inl (pump_mem_flatMap hm))
    · exact .inl (hp.others q hq)
  | @subscribeOld topic id handler opts b₁ q₀ hid =>
    rw [Bus.subscriberId_eq hid] at honly ⊢
    exact honly rfl (by rintro rfl; simp)
  | @subscribeNew topic id handler opts b₁ b₂ b₃ seeded hid _ hb₂ hseeded =>
    have hnext : b₁.nextQueue = w.bus.nextQueue := by rw [Bus.subscriberId_eq hid]
    by_cases hq : q = w.bus.nextQueue
    · exact .inr (.inl (by rw [hnext, hq]; exact List.mem_cons_self))
    · exact .inl ((Function.update_of_ne (hnext ▸ hq) ..).trans
        ((Bus.created hid hb₂ hseeded).others q hq))
  | pumpThrew | pumpNobody => exact honly rfl (by rintro rfl; simp)
  | pumpFound => exact honly rfl (by rintro rfl; simp)
  | settleAck | settleDead | settlePark | retry | dispose =>
    exact honly rfl (by rintro rfl; simp)
  | @settleRequeue h i =>
    refine @honly i.queue (BusQueue.push { w.bus.queue i.queue with
      inflight := (w.bus.queue i.queue).inflight.erase i.message } i.message) ?_
      (by rintro rfl; simp)
    simp [withBus, release, record, Bus.enqueue, Bus.setQueue, BusQueue.push]
  | expirePending | expireInflight => exact honly rfl (by rintro rfl; exact .inr (.inr ⟨_, rfl⟩))
  | _ => exact .inl rfl

theorem pump_stays {w w' : World} {l : Label} (h : w.step l = some w')
    (hthrew : ∀ i, w.next l = some i → (w.exec i).threw = false) {q : QueueRef}
    (hmem : .pump q ∈ w.agenda) (hother : w.next l ≠ some (.pump q)) : .pump q ∈ w'.agenda := by
  apply stays h hmem hother
  intro hdropped
  obtain ⟨i, hi, hthrew'⟩ := threw_of_dropped hdropped
  rw [hthrew i hi] at hthrew'
  cases hthrew'

/-! ## What quiet queues look like -/

/-- **A queue either has a `Pump` left to run, or nothing to deliver.** -/
theorem pump_or_not_deliverable {w : World} (h : ReachIf busMachine keepsPumping w)
    (q : QueueRef) : .pump q ∈ w.agenda ∨ ¬ (w.bus.queue q).Deliverable := by
  refine h.invariant (I := fun w => .pump q ∈ w.agenda ∨ ¬ (w.bus.queue q).Deliverable)
    (fun w hw => ?_) fun w l w' hr ih hok hstep => ?_
  · rw [busMachine_init.mp hw]
    exact .inr (by simp [BusQueue.Deliverable])
  have hs := busMachine_step.mp hstep
  cases hi : w.next l with
  | none =>
    rw [(step_idle hs hi).1]
    exact ih.imp_left fun hmem => pump_stays hs (by simp [hi]) hmem (by simp [hi])
  | some i =>
    have hex := w.executes i
    have hbus := (step_next hs hi).1
    rw [keepsPumping, hi] at hok
    by_cases hpump : i = .pump q
    · subst hpump
      have hmore : ∀ x ∈ (w.exec (.pump q)).more, x ∈ w'.agenda := fun x =>
        more_scheduled hs hi
      rw [hbus]
      generalize w.exec (.pump q) = o at hex hmore
      cases hex with
      | pumpThrew hnext => exact absurd (by rw [hnext]) hok
      | pumpNobody hnext =>
        right
        show ¬ BusQueue.Deliverable (Function.update w.bus.queue q _ q)
        rw [Function.update_self]
        exact BusQueue.next_nobody hnext
      | pumpFound => exact .inl (hmore _ (by simp))
    · have hstays : .pump q ∈ w.agenda → .pump q ∈ w'.agenda := fun hmem => by
        refine pump_stays hs (fun i' hi' => ?_) hmem (by simpa [hi] using hpump)
        obtain rfl : i = i' := Option.some.inj (hi.symm.trans hi')
        by_contra hthrew
        obtain ⟨q', rfl, hnext⟩ := pump_of_threw hex (by simpa using hthrew)
        exact hok hnext
      rcases pumps hex q with hsame | hmore | heq | ⟨m, rfl⟩
      · rw [hbus, hsame]
        exact ih.imp_left hstays
      · exact .inl (more_scheduled hs hi hmore)
      · exact absurd heq hpump
      · rw [hbus]
        generalize w.exec (.expire q m) = o at hex
        cases hex with
        | expireGone => exact ih.imp_left hstays
        | expirePending =>
          refine ih.imp hstays fun hnot hd => hnot ?_
          change BusQueue.Deliverable (Function.update w.bus.queue q _ q) at hd
          rw [Function.update_self] at hd
          exact hd.of_subset List.erase_subset
        | expireInflight hp hl =>
          refine (hok hp (AList.lookup_isSome.mp (by rw [hl]; rfl))).imp hstays fun hnot hd => ?_
          change BusQueue.Deliverable (Function.update w.bus.queue q _ q) at hd
          rw [Function.update_self] at hd
          exact hnot hd

/-- **Work conservation**, in runs whose steps keep pumping: a queue with no `Pump` left to run
holds nothing that could be delivered. -/
theorem work_conservation {w : World} (h : ReachIf busMachine keepsPumping w) {q : QueueRef}
    (hq : .pump q ∉ w.agenda) : (w.bus.queue q).Idle :=
  BusQueue.idle_of_not_deliverable ((pump_or_not_deliverable h q).resolve_left hq)
    (Lane.inflight_length_le_one (lane_reach h.reach q))

/-- Two messages for one consumer: the first is in flight, the second waits. -/
def backlog : List Label :=
  [.call (.subscribe "t" ⟨0⟩ {}), .run 0, .run 0, .run 0,
    .call (.publish "t" "b" none (some { ttlMs := some 0 })), .run 1, .run 1, .run 1, .run 1,
      .run 1,
    .call (.publish "t" "c" none none), .run 2, .run 2]

theorem work_conservation_backlog : ((play {} backlog).bus.queue 0).Idle :=
  work_conservation (reachIf_play _ (by decide)) (by decide)

/-- **An expiry strands a backlog.** The first message's TTL elapses while it is in flight: its
consumer is free, the second message stays, and no call is left to deliver it. -/
theorem expiry_strands_backlog : ¬ ∀ w, Reach busMachine w → w.agenda = [] → w.timers = [] →
    ∀ q, (w.bus.queue q).Idle := by
  intro hclaim
  have hidle := hclaim _ (reach_play (backlog ++ [.fire 0, .run 3, .run 3])) (by decide)
    (by decide) 0
  exact absurd hidle (by decide)

end World

end MessagingPoc
