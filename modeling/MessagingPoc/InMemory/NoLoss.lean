import MessagingPoc.InMemory.Reachable

/-!
# No loss, no duplication

What happens to a published message as long as the bus is not disposed of: it appears once on each
queue its publish reaches, it is in exactly one place from then on, and it leaves a queue only by
an ack, a dead-lettering or its TTL.
-/

namespace MessagingPoc

open Machine

namespace Lane

/-- How many times a record says that a message left the queue. -/
def fates (m : BusMessage) (t : List QueueEvent) : Nat :=
  t.count (.acked m) + t.count (.dead m) + t.count (.expired m)

theorem fates_cons_of_stays {e : QueueEvent} {m : BusMessage}
    (he : ∀ x p, e.moves = some (x, p) → ¬ p.final) (t : List QueueEvent) :
    fates m (e :: t) = fates m t := by
  have hne : ∀ e' : QueueEvent, (∃ x p, e'.moves = some (x, p) ∧ p.final) → e ≠ e' := by
    rintro e' ⟨x, p, hmoves, hp⟩ rfl
    exact he x p hmoves hp
  unfold fates
  rw [List.count_cons_of_ne (hne _ ⟨m, _, rfl, .inl rfl⟩),
    List.count_cons_of_ne (hne _ ⟨m, _, rfl, .inr (.inl rfl)⟩),
    List.count_cons_of_ne (hne _ ⟨m, _, rfl, .inr (.inr rfl)⟩)]

theorem fates_cons_of_leaves {e : QueueEvent} {x : BusMessage} {p : Place}
    (he : e.moves = some (x, p)) (hp : p.final) (m : BusMessage) (t : List QueueEvent) :
    fates m (e :: t) = fates m t + if x = m then 1 else 0 := by
  unfold fates
  rcases hp with rfl | rfl | rfl <;> cases e <;> simp [QueueEvent.moves] at he <;> subst he <;>
    simp only [List.count_cons, beq_iff_eq, QueueEvent.acked.injEq, QueueEvent.dead.injEq,
      QueueEvent.expired.injEq, reduceCtorEq, if_false] <;> omega

/-- **A message has at most one fate**, and has it once it has left the queue. -/
theorem fates_eq {L : Lane} (h : Reach laneMachine L) (m : BusMessage) :
    ((place m L.trail).final → fates m L.trail = 1) ∧
      (¬ (place m L.trail).final → fates m L.trail = 0) := by
  refine h.invariant (I := fun L => ((place m L.trail).final → fates m L.trail = 1) ∧
    (¬ (place m L.trail).final → fates m L.trail = 0))
    (fun L hnew => ?_) fun L a L' hr ih _ hs => ?_
  · rw [hnew.trail]
    exact ⟨fun h => absurd h (by simp [place, Place.final]), fun _ => rfl⟩
  · have hl := located hr
    -- An event that keeps its message on the queue.
    have hstays : ∀ {e : QueueEvent} {x : BusMessage} {p : Place}, e.moves = some (x, p) →
        ¬ p.final → ¬ (place x L.trail).final →
        ((place m (e :: L.trail)).final → fates m (e :: L.trail) = 1) ∧
          (¬ (place m (e :: L.trail)).final → fates m (e :: L.trail) = 0) := by
      intro e x p he hp hx
      rw [place_cons_of_moves he, fates_cons_of_stays (fun y p' hy => by
        rw [he, Option.some.injEq, Prod.mk.injEq] at hy
        exact hy.2 ▸ hp)]
      split_ifs with hm
      · exact ⟨fun h => absurd h hp, fun _ => ih.2 (hm ▸ hx)⟩
      · exact ih
    -- An event that takes its message off the queue.
    have hleaves : ∀ {e : QueueEvent} {x : BusMessage} {p : Place}, e.moves = some (x, p) →
        p.final → ¬ (place x L.trail).final →
        ((place m (e :: L.trail)).final → fates m (e :: L.trail) = 1) ∧
          (¬ (place m (e :: L.trail)).final → fates m (e :: L.trail) = 0) := by
      intro e x p he hp hx
      rw [place_cons_of_moves he, fates_cons_of_leaves he hp]
      split_ifs with hm
      · exact ⟨fun _ => by rw [ih.2 (hm ▸ hx)], fun h => absurd hp h⟩
      · exact ih
    have hstill : ∀ {e : QueueEvent}, e.moves = none →
        ((place m (e :: L.trail)).final → fates m (e :: L.trail) = 1) ∧
          (¬ (place m (e :: L.trail)).final → fates m (e :: L.trail) = 0) := fun he => by
      rw [place_cons_of_still he, fates_cons_of_stays (by simp [he])]
      exact ih
    have hheld : ∀ {x : BusMessage} {c : AckHandler}, L.queue.inflight.lookup x = some c →
        ¬ (place x L.trail).final := fun hx => by
      obtain ⟨d, hd⟩ := hl.place_of_lookup hx
      simp [hd, Place.final]
    have hwaits : ∀ {x : BusMessage}, x ∈ L.queue.pending → ¬ (place x L.trail).final :=
      fun hx => by simp [hl.mem_pending.mp hx, Place.final]
    cases hs with
    | @arrive x entry fresh =>
      refine hstays rfl (by simp [Place.final]) fun hfinal => ?_
      obtain ⟨e, he⟩ := hl.arrived x fun habsent => by simp [habsent, Place.final] at hfinal
      exact absurd (fresh x e he).1 (lt_irrefl _)
    | deliver hch =>
      obtain ⟨before, after, hsplit, -⟩ := hch.split
      refine hstays rfl (by simp [Place.final]) (hwaits ?_)
      rw [hsplit]
      exact List.mem_append_cons_self
    | requeue hx | park hx => exact hstays rfl (by simp [Place.final]) (hheld hx)
    | unpark hpos =>
      exact hstays rfl (by simp [Place.final]) (by simp [hl.parked_pos.mp hpos, Place.final])
    | ack hx | dead hx | expireInflight hx => exact hleaves rfl (by simp [Place.final]) (hheld hx)
    | expirePending hx => exact hleaves rfl (by simp [Place.final]) (hwaits hx)
    | attach | hand => exact hstill rfl
    | scan => exact ih
    | @detach c =>
      have hfates : fates m (detachTrail c (L.queue.heldBy c) L.trail) = fates m L.trail := by
        rw [fold_detachTrail (fates m) fun x t =>
          fates_cons_of_stays (by simp [QueueEvent.moves, Place.final]) t]
        exact fates_cons_of_stays (by simp [QueueEvent.moves]) _
      simp only [hfates, place_detachTrail]
      split_ifs with hm
      · exact ⟨fun h => absurd h (by simp [Place.final]),
          fun _ => ih.2 (hheld (BusQueue.mem_heldBy.mp hm))⟩
      · exact ih

/-- Along a run of a lane, a message on the queue stays there until it is acked, dead-lettered or
expired. -/
theorem leaves_run {ok : Lane → LaneAct → Prop} {L L' : Lane} (hr : Reach laneMachine L)
    (p : Run laneMachine ok L L') {m : BusMessage} (hm : (place m L.trail).live) :
    (place m L'.trail).live ∨
      (place m L'.trail = .acked ∧ ∃ L₁, ok L₁ (.ack m)) ∨
      (place m L'.trail = .dead ∧ ∃ L₁, ok L₁ (.dead m)) ∨
      (place m L'.trail = .expired ∧ ∃ L₁, ok L₁ (.expire m)) := by
  induction p with
  | refl => exact .inl hm
  | @tail L₁ L₂ a p hok hs ih =>
    have hl := located (hr.extend (p.mono fun _ _ _ => trivial))
    rcases ih with hlive | hleft
    · rcases hl.takes hs m with heq | htakes
      · exact .inl (heq ▸ hlive)
      · cases a with
        | ack x =>
          obtain ⟨rfl, -, heq⟩ := htakes
          exact .inr (.inl ⟨heq, L₁, hok⟩)
        | dead x =>
          obtain ⟨rfl, -, heq⟩ := htakes
          exact .inr (.inr (.inl ⟨heq, L₁, hok⟩))
        | expire x =>
          obtain ⟨rfl, -, heq⟩ := htakes
          exact .inr (.inr (.inr ⟨heq, L₁, hok⟩))
        | detach => exact .inl (.inl htakes.2)
        | deliver => exact .inl (.inr (.inl ⟨_, _, htakes.2.2⟩))
        | park => exact .inl (.inr (.inr htakes.2.2))
        | arrive | requeue | unpark => exact .inl (.inl htakes.2.2)
        | attach | scan | hand => exact htakes.elim
    · right
      have hfinal : (place m L₁.trail).final := by
        rcases hleft with h | h | h <;> rw [h.1] <;> simp [Place.final]
      rw [hl.final_stays hs hfinal]
      exact hleft

end Lane

namespace World

/-! ## Registration -/

/-- The step is not the bus's `Dispose`. -/
def noDispose (w : World) (l : Label) : Prop := w.next l ≠ some .disposeBus

instance (w : World) (l : Label) : Decidable (w.noDispose l) :=
  inferInstanceAs (Decidable (_ ≠ _))

theorem options_step {w w' : World} (hg : w.Good) {l : Label} (h : w.step l = some w')
    {q : QueueRef} (hq : q < w.bus.nextQueue) : (w'.bus.queue q) = { w.bus.queue q with
      pending := (w'.bus.queue q).pending, inflight := (w'.bus.queue q).inflight,
      consumers := (w'.bus.queue q).consumers, groupAffinity := (w'.bus.queue q).groupAffinity,
      rr := (w'.bus.queue q).rr } := by
  have hrun : ∀ {L L' : Lane}, Run laneMachine (w.Caused l q) L L' →
      L'.queue = { L.queue with
        pending := L'.queue.pending, inflight := L'.queue.inflight,
        consumers := L'.queue.consumers, groupAffinity := L'.queue.groupAffinity,
        rr := L'.queue.rr } := by
    intro L L' hp
    induction hp with
    | refl => rfl
    | tail _ _ hstep ih =>
      conv_lhs => rw [LaneStep.frame hstep, ih]
  rcases moves hg h q with hp | ⟨hnew, -⟩
  · exact hrun hp
  · exact absurd hq (not_lt.mpr hnew)

theorem topic_attach (b : Bus) (q q' : QueueRef) (c : AckHandler) :
    ((b.attach q c).queue q').topic = (b.queue q').topic := by
  simp only [Bus.attach, Bus.setQueue, Function.update_apply]
  split_ifs with hq
  · rw [hq]
  · rfl

/-- **Without a `Dispose` of the bus, the queues registered for a topic are those created for
it.** -/
theorem registered {w : World} (h : ReachIf busMachine noDispose w) (topic : String)
    (q : QueueRef) : q ∈ (w.bus.byTopic topic).items ↔
      q < w.bus.nextQueue ∧ (w.bus.queue q).topic = topic := by
  refine h.invariant (I := fun w => ∀ topic q, q ∈ (w.bus.byTopic topic).items ↔
    q < w.bus.nextQueue ∧ (w.bus.queue q).topic = topic) (fun w hw => ?_)
    (fun w l w' hr ih hok hstep => ?_) topic q
  · rw [busMachine_init.mp hw]
    intro topic q
    simp
  · have hg := good hr.reach
    have hs := busMachine_step.mp hstep
    have hframe : w'.bus.byTopic = w.bus.byTopic → w'.bus.nextQueue = w.bus.nextQueue →
        ∀ topic q, q ∈ (w'.bus.byTopic topic).items ↔
          q < w'.bus.nextQueue ∧ (w'.bus.queue q).topic = topic := by
      intro hbyTopic hnext topic q
      rw [hbyTopic, hnext, ih topic q]
      refine and_congr_right fun hq => ?_
      rw [options_step hg hs hq]
    cases hi : w.next l with
    | none =>
      obtain ⟨hbus, -⟩ := step_idle hs hi
      exact hframe (by rw [hbus]) (by rw [hbus])
    | some i =>
      obtain ⟨hbus, -⟩ := step_next hs hi
      have hex := w.executes i
      rw [hbus] at hframe ⊢
      generalize w.exec i = o at hex hframe
      cases hex with
      | disposeBus => exact absurd hi hok
      | publish _ hlog hcopies =>
        have hp := Bus.published hlog hcopies
        exact hframe hp.byTopic hp.nextQueue
      | subscribeOld hid =>
        rw [Bus.subscriberId_eq hid] at hframe ⊢
        exact hframe rfl rfl
      | @subscribeNew topic₀ id handler opts b₁ b₂ b₃ seeded hid _ hb₂ hseeded =>
        have hc := Bus.created hid hb₂ hseeded
        have hnext : b₁.nextQueue = w.bus.nextQueue := by rw [Bus.subscriberId_eq hid]
        intro topic q
        show q ∈ (b₃.byTopic topic).items ↔
          q < b₃.nextQueue ∧ ((b₃.attach b₁.nextQueue handler).queue q).topic = topic
        rw [topic_attach, hc.byTopic, hc.nextQueue, Function.update_apply]
        by_cases hq : q = w.bus.nextQueue
        · have hnot : q ∉ (w.bus.byTopic topic).items := fun hmem =>
            absurd ((ih topic q).mp hmem).1 (by rw [hq]; exact lt_irrefl _)
          have htopic : (b₃.queue q).topic = topic₀ := by rw [hq, hc.target, Bus.newQueue]
          rw [htopic]
          split_ifs with ht
          · simp [InsertionSet.mem_add, hq, ht]
          · simp [hnot, Ne.symm ht]
        · rw [hc.others q hq]
          have hlt : q < w.bus.nextQueue + 1 ↔ q < w.bus.nextQueue :=
            ⟨fun h => lt_of_le_of_ne (Nat.le_of_lt_succ h) hq,
              fun h => h.trans (Nat.lt_succ_self _)⟩
          rw [hlt, ← ih topic q]
          split_ifs with ht
          · rw [InsertionSet.mem_add, ht]
            simp [hq]
          · rfl
      | _ => exact hframe rfl rfl

/-! ## The three parts -/

/-- The queues a publish is to reach: created for the topic, with a filter that accepts the key. -/
def reaches (w : World) (topic key : String) (q : QueueRef) : Prop :=
  q < w.bus.nextQueue ∧ (w.bus.queue q).topic = topic ∧ (w.bus.queue q).matches key = true

/-- In how many places a message of a queue is: pending, in flight, waiting for a retry timer,
acked, dead-lettered or dropped, expired. -/
def occurrences (w : World) (q : QueueRef) (m : BusMessage) : Nat :=
  (w.bus.queue q).pending.count m + (w.bus.queue q).inflight.keys.count m + w.parkedCount q m +
    (w.trail q).count (.acked m) + (w.trail q).count (.dead m) + (w.trail q).count (.expired m)

/-- The queue still owes a message a settlement. -/
def owes (w : World) (q : QueueRef) (m : BusMessage) : Prop :=
  m ∈ (w.bus.queue q).pending ∨ m ∈ (w.bus.queue q).inflight ∨ 0 < w.parkedCount q m

/-- The step is the lock body of a settlement of `m` on `q`. -/
def settles (w : World) (l : Label) (q : QueueRef) (m : BusMessage) (kind : SettleKind) : Prop :=
  ∃ h i, w.next l = some (.settle h kind) ∧ w.handles[h]? = some i ∧ i.queue = q ∧ i.message = m

theorem owes_iff {w : World} (hg : w.Good) {q : QueueRef} {m : BusMessage} :
    w.owes q m ↔ (place m (w.trail q)).live := by
  have hl := Lane.located (hg.lane q)
  have hin : m ∈ (w.bus.queue q).inflight ↔ ∃ c d, place m (w.trail q) = .inflight c d := by
    rw [← AList.lookup_isSome, Option.isSome_iff_exists]
    exact exists_congr fun c => hl.inflight m c
  unfold owes Place.live
  rw [hin]
  exact or_congr hl.mem_pending (or_congr Iff.rfl hl.parked_pos)

theorem count_keys (d : AList fun _ : BusMessage => AckHandler) (m : BusMessage) :
    d.keys.count m = if (d.lookup m).isSome then 1 else 0 := by
  split_ifs with h
  · exact List.count_eq_one_of_mem d.nodupKeys (AList.mem_keys.mp (AList.lookup_isSome.mp h))
  · exact List.count_eq_zero_of_not_mem fun hm =>
      h (AList.lookup_isSome.mpr (AList.mem_keys.mpr hm))

/-- **Exactly one place.** -/
theorem occurrences_eq_one {w : World} (hg : w.Good) {q : QueueRef} {m : BusMessage} {entry : Nat}
    (hm : .arrived m entry ∈ w.trail q) : w.occurrences q m = 1 := by
  have hl := Lane.located (hg.lane q)
  obtain ⟨hfinal, hnot⟩ := Lane.fates_eq (hg.lane q) m
  have hne : place m (w.trail q) ≠ .absent := place_ne_absent hm rfl
  obtain ⟨p, hp⟩ : ∃ p, place m (w.trail q) = p := ⟨_, rfl⟩
  obtain ⟨hpending, hinflight, hparked⟩ := hl.elsewhere hp
  replace hpending : (w.bus.queue q).pending.count m = _ := hpending
  replace hinflight : (w.bus.queue q).inflight.lookup m = _ := hinflight
  replace hparked : w.parkedCount q m = _ := hparked
  have hfates : (w.trail q).count (.acked m) + (w.trail q).count (.dead m) +
      (w.trail q).count (.expired m) = Lane.fates m (w.lane q).trail := rfl
  replace hfinal : p.final → _ := hp ▸ hfinal
  replace hnot : ¬ p.final → _ := hp ▸ hnot
  unfold occurrences
  rw [count_keys, hpending, hinflight, hparked]
  cases p with
  | absent => exact absurd hp hne
  | acked | dead | expired =>
    have := hfinal (by simp [Place.final])
    simp [Place.owner]
    omega
  | pending | parked | inflight =>
    have := hnot (by simp [Place.final])
    simp [Place.owner]
    omega

theorem not_owes_of_fate {w : World} (hg : w.Good) {q : QueueRef} {m : BusMessage}
    (hm : .acked m ∈ w.trail q ∨ .dead m ∈ w.trail q ∨ .expired m ∈ w.trail q) :
    ¬ w.owes q m := by
  intro howes
  have hne : place m (w.trail q) ≠ .absent := by
    rcases hm with hm | hm | hm <;> exact place_ne_absent hm rfl
  obtain ⟨entry, hentry⟩ := (Lane.located (hg.lane q)).arrived m hne
  have hone := occurrences_eq_one hg hentry
  have hfate : 0 < (w.trail q).count (.acked m) + (w.trail q).count (.dead m) +
      (w.trail q).count (.expired m) := by
    rcases hm with hm | hm | hm <;> have := List.count_pos_iff.mpr hm <;> omega
  have hheld : 0 < (w.bus.queue q).pending.count m +
      (w.bus.queue q).inflight.keys.count m + w.parkedCount q m := by
    rcases howes with h | h | h
    · have := List.count_pos_iff.mpr h
      omega
    · have := List.count_pos_iff.mpr (AList.mem_keys.mp h)
      omega
    · omega
  unfold occurrences at hone
  omega

/-- A message that arrived and is not owed a settlement is acked, dead or expired. -/
theorem fate_of_not_owes {w : World} (hg : w.Good) {q : QueueRef} {m : BusMessage} {entry : Nat}
    (hm : .arrived m entry ∈ w.trail q) (howes : ¬ w.owes q m) :
    .acked m ∈ w.trail q ∨ .dead m ∈ w.trail q ∨ .expired m ∈ w.trail q := by
  rw [owes_iff hg] at howes
  have hfinal := (Place.final_or_live (place_ne_absent hm rfl)).resolve_right howes
  have hfates := (Lane.fates_eq (hg.lane q) m).1 hfinal
  unfold Lane.fates at hfates
  by_contra hnone
  simp only [not_or] at hnone
  obtain ⟨hacked, hdead, hexpired⟩ := hnone
  change (w.trail q).count _ + (w.trail q).count _ + (w.trail q).count _ = 1 at hfates
  rw [List.count_eq_zero.mpr hacked, List.count_eq_zero.mpr hdead,
    List.count_eq_zero.mpr hexpired] at hfates
  omega

theorem trail_suffix {ok : World → Label → Prop} {w w' : World} (p : Run busMachine ok w w')
    (q : QueueRef) : w.trail q <:+ w'.trail q := by
  have hhistory : w.history <:+ w'.history := by
    induction p with
    | refl => exact List.suffix_refl _
    | @tail w₁ w₂ l _ _ hs ih =>
      apply ih.trans
      have hs := busMachine_step.mp hs
      cases hi : w₁.next l with
      | none => exact (step_idle hs hi).2.2.2 ▸ List.suffix_refl _
      | some i => exact (step_next hs hi).2.2.2.2 ▸ history_suffix (w₁.executes i)
  exact hhistory.filterMap _

/-- **What a publish adds**: one message of its own to each queue it is to reach, and nothing to
any other. -/
theorem publish_adds {w w' : World} (h : ReachIf busMachine noDispose w) {l : Label}
    (hs : w.step l = some w') {topic body : String} {routingKey : Option String}
    {options : Option PublishOptions} {cause : Cause}
    (hi : w.next l = some (.publish topic body routingKey options cause))
    (hsup : w.bus.suppressed options = false) (q : QueueRef) :
    (w.reaches topic (routingKey.getD topic) q → ∃ m entry,
      w'.bus.queue q = (w.bus.queue q).push m ∧ w'.trail q = .arrived m entry :: w.trail q ∧
      m.topic = topic ∧ m.body = body ∧ m.routingKey = routingKey.getD topic ∧
      m.options = options ∧ ∀ q' x e, .arrived x e ∈ w'.trail q' → x.ref = m.ref →
        q' = q ∧ .arrived x e ∉ w.trail q') ∧
    (¬ w.reaches topic (routingKey.getD topic) q →
      w'.bus.queue q = w.bus.queue q ∧ w'.trail q = w.trail q) := by
  have hg := good h.reach
  have htargets : q ∈ w.bus.targets topic (routingKey.getD topic) ↔
      w.reaches topic (routingKey.getD topic) q := by
    unfold Bus.targets reaches
    rw [List.mem_filter, registered h topic q, and_assoc]
  have hg' : w'.Good := good (h.reach.step trivial (busMachine_step.mpr hs))
  obtain ⟨hbus, -, -, -, hhistory⟩ := step_next hs hi
  have hex := w.executes (.publish topic body routingKey options cause)
  generalize w.exec (.publish topic body routingKey options cause) = o at hex hbus hhistory
  cases hex with
  | publishSuppressed hsup' => simp [hsup] at hsup'
  | @publish _ _ _ _ _ logged b₁ b₂ copies _ hlog hcopies =>
    have hp := Bus.published hlog hcopies
    obtain ⟨hsome, hnone⟩ :=
      Bus.filterMap_copies (hp.targets ▸ Bus.nodup_targets w.bus topic _) logged.ref q
    have htrail : w'.trail q = (copies.map fun t =>
        Event.on t.1 (.arrived t.2 logged.ref)).reverse.filterMap (Event.onQueue q) ++
          w.trail q := by
      rw [trail, hhistory, ← trail, trail_record, List.filterMap_append]
      simp [Event.onQueue]
    rw [← htargets, hbus]
    refine ⟨fun hq => ?_, fun hq => ⟨hp.others q hq, ?_⟩⟩
    · obtain ⟨m, hm⟩ := (hp.mem_iff q).mp hq
      obtain ⟨htopic, hbody, hkey, hoptions⟩ := hp.contents _ hm
      have harrived : w'.trail q = .arrived m logged.ref :: w.trail q := by
        rw [htrail, hsome m hm]
        rfl
      refine ⟨m, logged.ref, hp.enqueued _ hm, harrived, htopic, hbody, hkey, hoptions,
        fun q' x e hx href => ⟨?_, fun hold => ?_⟩⟩
      · exact hg'.sound.owner q' q x m e logged.ref hx (harrived ▸ List.mem_cons_self) href
      · have hlow := (hg.sound.arrived q' x e hold).1
        have hhigh : w.bus.nextRef < m.ref := (hp.fresh _ hm).1
        omega
    · rw [htrail, hnone fun m hm => hq ((hp.mem_iff q).mpr ⟨m, hm⟩)]
      rfl

/-- **How a message leaves its queue.** -/
theorem leaves {w w' : World} (hg : w.Good) {l : Label} (hs : w.step l = some w') {q : QueueRef}
    {m : BusMessage} (hbefore : (place m (w.trail q)).live)
    (hafter : ¬ (place m (w'.trail q)).live) :
    (w.settles l q m .ack ∧ .acked m ∈ w'.trail q) ∨
    ((w.settles l q m .dead ∨ (w.settles l q m .requeue ∧
      (w.bus.queue q).maxDeliveries ≤ w.bus.deliveryCount m.ref)) ∧ .dead m ∈ w'.trail q) ∨
    (w.next l = some (.expire q m) ∧ .expired m ∈ w'.trail q) := by
  have hmem : ∀ {p : Place}, place m (w'.trail q) = p → p ≠ .absent →
      ∃ e ∈ w'.trail q, e.moves = some (m, p) := exists_moves_of_place
  rcases moves hg hs q with hp | ⟨hnew, -⟩
  · rcases Lane.leaves_run (hg.lane q) hp hbefore with h | ⟨hplace, L₁, hcause⟩ |
      ⟨hplace, L₁, hcause⟩ | ⟨hplace, L₁, hcause⟩
    · exact absurd h hafter
    · obtain ⟨h, i, hi, hh, hq, hm⟩ := hcause
      obtain ⟨e, he, hmoves⟩ := hmem hplace (by simp)
      refine .inl ⟨⟨h, i, hi, hh, hq, hm⟩, ?_⟩
      cases e <;> simp [QueueEvent.moves] at hmoves
      rwa [hmoves] at he
    · obtain ⟨h, kind, i, hi, hh, hq, hm, hkind⟩ := hcause
      obtain ⟨e, he, hmoves⟩ := hmem hplace (by simp)
      refine .inr (.inl ⟨?_, ?_⟩)
      · rcases hkind with rfl | ⟨rfl, hbudget⟩
        · exact .inl ⟨h, i, hi, hh, hq, hm⟩
        · exact .inr ⟨⟨h, i, hi, hh, hq, hm⟩, hbudget⟩
      · cases e <;> simp [QueueEvent.moves] at hmoves
        rwa [hmoves] at he
    · obtain ⟨e, he, hmoves⟩ := hmem hplace (by simp)
      refine .inr (.inr ⟨hcause.2, ?_⟩)
      cases e <;> simp [QueueEvent.moves] at hmoves
      rwa [hmoves] at he
  · rw [hg.sound.unused q hnew] at hbefore
    simp [place, Place.live] at hbefore

/-- **No loss, no duplication.** -/
theorem no_loss_no_duplication {w : World} (h : ReachIf busMachine noDispose w) :
    (∀ l w' topic body routingKey options cause, w.step l = some w' →
      w.next l = some (.publish topic body routingKey options cause) →
      w.bus.suppressed options = false → ∀ q,
        (w.reaches topic (routingKey.getD topic) q → ∃ m entry,
          w'.bus.queue q = (w.bus.queue q).push m ∧ w'.trail q = .arrived m entry :: w.trail q ∧
          m.topic = topic ∧ m.body = body ∧ m.routingKey = routingKey.getD topic ∧
          m.options = options ∧ ∀ q' x e, .arrived x e ∈ w'.trail q' → x.ref = m.ref →
            q' = q ∧ .arrived x e ∉ w.trail q') ∧
        (¬ w.reaches topic (routingKey.getD topic) q →
          w'.bus.queue q = w.bus.queue q ∧ w'.trail q = w.trail q)) ∧
    (∀ q m entry, .arrived m entry ∈ w.trail q → w.occurrences q m = 1) ∧
    (∀ w' q, Run busMachine noDispose w w' → w.trail q <:+ w'.trail q ∧
      ∀ m, .acked m ∈ w.trail q ∨ .dead m ∈ w.trail q ∨ .expired m ∈ w.trail q →
        ¬ w'.owes q m) ∧
    (∀ l w' q m, w.step l = some w' → w.owes q m → ¬ w'.owes q m →
      (w.settles l q m .ack ∧ .acked m ∈ w'.trail q) ∨
      ((w.settles l q m .dead ∨ (w.settles l q m .requeue ∧
        (w.bus.queue q).maxDeliveries ≤ w.bus.deliveryCount m.ref)) ∧ .dead m ∈ w'.trail q) ∨
      (w.next l = some (.expire q m) ∧ .expired m ∈ w'.trail q)) := by
  have hg := good h.reach
  refine ⟨fun l w' topic body routingKey options cause hs hi hsup q =>
    publish_adds h hs hi hsup q, fun q m entry => occurrences_eq_one hg,
    fun w' q p => ⟨trail_suffix p q, fun m hm howes => ?_⟩,
    fun l w' q m hs hbefore hafter => ?_⟩
  · have hle := (trail_suffix p q).sublist
    exact not_owes_of_fate (good (h.extend p).reach)
      (hm.imp (fun hm => hle.subset hm) (Or.imp (fun hm => hle.subset hm) fun hm => hle.subset hm))
      howes
  · have hg' : w'.Good := good (h.reach.step trivial (busMachine_step.mpr hs))
    exact leaves hg hs ((owes_iff hg).mp hbefore) fun hlive => hafter ((owes_iff hg').mpr hlive)

/-- A consumer subscribes, a message is published and delivered to it. -/
def deliveredOnce : List Label :=
  [.call (.subscribe "t" ⟨0⟩ {}), .run 0, .call (.publish "t" "b" none none), .run 1, .run 1]

theorem no_loss_no_duplication_delivered :
    (play {} deliveredOnce).occurrences 0 ⟨1, "mem-bus-3", "t", "b", "t", none⟩ = 1 ∧
      ⟨1, "mem-bus-3", "t", "b", "t", none⟩ ∈ ((play {} deliveredOnce).bus.queue 0).inflight :=
  ⟨(no_loss_no_duplication (reachIf_play _ (by decide))).2.1 0 _ 0 (by decide), by decide⟩

end World

end MessagingPoc
