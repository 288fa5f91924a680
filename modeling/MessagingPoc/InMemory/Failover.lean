import MessagingPoc.InMemory.Settlement

/-!
# Single active consumer and failover

On a queue with a single active consumer only the first consumer still attached is given messages,
one at a time. When it drops, what it held goes back to the front of `Pending` (`dueNext` reads off
the record which message that is), and the next consumer takes over there. As long as no message
is handed back for redelivery and none has a priority (`plain`), `Pending` stays in publish order
behind the message in flight (`Fifo`), so across any number of failovers every message is first
delivered after all earlier ones. The main result is `single_active_failover`.
-/

namespace MessagingPoc

open Machine

/-- The message put back by the last disposal, if it is neither delivered again nor expired. -/
def dueNext : List QueueEvent → Option BusMessage
  | [] => none
  | .returned m :: _ => some m
  | .delivered .. :: _ => none
  | .expired x :: older => if dueNext older = some x then none else dueNext older
  | _ :: older => dueNext older

namespace Lane

/-! ## The active consumer -/

/-- A delivery goes to the first consumer attached. -/
def ToActive (e : QueueEvent) (older : List QueueEvent) : Prop :=
  ∀ m c d, e = .delivered m c d → (attachedIn older).head? = some c

/-- A single active consumer on a queue that is not partitioned. -/
def Single (L : Lane) : Prop :=
  L.queue.partitionByGroup = false ∧ L.queue.singleActiveConsumer = true

theorem single_of_step {L L' : Lane} {a : LaneAct} (hs : LaneStep L a L') (h : L'.Single) :
    L.Single := by
  unfold Single at h
  rw [hs.frame] at h
  exact h

theorem toActive {L : Lane} (h : Reach laneMachine L) (hsingle : L.Single) :
    Always ToActive L.trail := by
  refine always_deliver single_of_step (fun he m c d heq => absurd heq (he m c d))
    (fun hr hsingle hch _ => ?_) h hsingle
  intro m' c' d' heq
  simp only [QueueEvent.delivered.injEq] at heq
  obtain ⟨rfl, rfl, rfl⟩ := heq
  exact consumers_eq hr ▸ (hch.exclusive hsingle.1 hsingle.2).2

/-- A consumer given a message was attached. -/
theorem attached_of_delivered {L : Lane} (h : Reach laneMachine L) {m : BusMessage}
    {c : AckHandler} {d : Nat} (hd : .delivered m c d ∈ L.trail) : .attached c ∈ L.trail := by
  refine h.invariant (I := fun L => (∀ c ∈ L.queue.consumers, .attached c ∈ L.trail) ∧
    ∀ m c d, .delivered m c d ∈ L.trail → .attached c ∈ L.trail) (fun L hnew => ?_)
    (fun L a L' _ ih _ hs => ?_) |>.2 m c d hd
  · exact ⟨by simp [hnew.consumers], by simp [hnew.trail]⟩
  · have hsub := hs.trail_suffix.subset
    refine ⟨fun c hc => ?_, fun m c d hd => ?_⟩
    · cases hs with
      | attach =>
        rcases List.mem_append.mp hc with hc | hc
        · exact hsub (ih.1 c hc)
        · exact List.mem_singleton.mp hc ▸ List.mem_cons_self
      | detach =>
        change c ∈ (L.queue.detach _).consumers at hc
        rw [BusQueue.detach_eq] at hc
        exact hsub (ih.1 c (List.mem_of_mem_erase hc))
      | scan hscan =>
        rw [hscan.frame] at hc
        exact ih.1 c hc
      | @deliver Q _ _ _ hch =>
        change c ∈ Q.consumers at hc
        rw [hch.frame] at hc
        exact hsub (ih.1 c hc)
      | _ => exact hsub (ih.1 c hc)
    · rcases hs.mem_delivered hd with hd | rfl
      · exact hsub (ih.2 m c d hd)
      · cases hs with
        | deliver hch => exact hsub (ih.1 c hch.attached)

theorem count_attachedIn_le (c : AckHandler) (t : List QueueEvent) :
    (attachedIn t).count c ≤ t.count (.attached c) := by
  induction t with
  | nil => simp [attachedIn]
  | cons e t ih =>
    cases e with
    | attached c' =>
      rw [attachedIn, List.count_append, List.count_cons]
      by_cases hc : c' = c <;> simp [hc] <;> omega
    | detached c' =>
      refine (List.erase_sublist.count_le c).trans (ih.trans ?_)
      exact List.count_le_count_cons
    | _ => simpa [attachedIn] using ih

/-- With distinct consumers, one that was given a message is the first as long as it is attached:
no standby is ever handed anything. -/
theorem head_of_delivered {L : Lane} (h : Reach laneMachine L) (hsingle : L.Single)
    (hdistinct : ∀ c, L.trail.count (.attached c) ≤ 1) {m : BusMessage} {c : AckHandler} {d : Nat}
    (hd : .delivered m c d ∈ L.trail) (hc : c ∈ L.queue.consumers) :
    L.queue.consumers.head? = some c := by
  refine h.invariant (I := fun L => L.Single → (∀ c, L.trail.count (.attached c) ≤ 1) →
    ∀ m c d, .delivered m c d ∈ L.trail → c ∈ L.queue.consumers →
      L.queue.consumers.head? = some c) (fun L hnew => ?_) (fun L a L' hr ih _ hs => ?_)
    hsingle hdistinct m c d hd hc
  · intro _ _ m c d hd
    simp [hnew.trail] at hd
  · intro hsingle hdistinct m c d hd hc
    have hsingle₀ := single_of_step hs hsingle
    have hdistinct₀ : ∀ c, L.trail.count (.attached c) ≤ 1 := fun c =>
      (hs.trail_suffix.sublist.count_le _).trans (hdistinct c)
    rcases hs.mem_delivered hd with hd | rfl
    · have hattached := attached_of_delivered hr hd
      have ih := ih hsingle₀ hdistinct₀ m c d hd
      cases hs with
      | @attach c' =>
        rcases List.mem_append.mp hc with hc | hc
        · exact LaneStep.head_stays .attach (ih hc) (by simp)
        · -- It would have been attached twice.
          have htwice := hdistinct c
          change (QueueEvent.attached c' :: L.trail).count (.attached c) ≤ 1 at htwice
          rw [List.mem_singleton.mp hc, List.count_cons_self] at htwice
          rw [List.mem_singleton.mp hc] at hattached
          have := List.count_pos_iff.mpr hattached
          omega
      | @detach c' =>
        change c ∈ (L.queue.detach c').consumers at hc
        rw [BusQueue.detach_eq] at hc
        have hnodup : L.queue.consumers.Nodup := by
          rw [consumers_eq hr, List.nodup_iff_count_le_one]
          exact fun c => (count_attachedIn_le c L.trail).trans (hdistinct₀ c)
        refine LaneStep.head_stays .detach (ih (List.mem_of_mem_erase hc)) ?_
        rintro ⟨⟩
        exact hnodup.not_mem_erase hc
      | scan hscan =>
        refine LaneStep.head_stays (.scan hscan) (ih ?_) (by simp)
        rwa [hscan.frame] at hc
      | @deliver Q _ _ _ hch later =>
        refine LaneStep.head_stays (.deliver hch later) (ih ?_) (by simp)
        change c ∈ Q.consumers at hc
        rwa [hch.frame] at hc
      | _ => exact ih hc
    · cases hs with
      | deliver hch later =>
        exact LaneStep.head_stays (.deliver hch later) (hch.exclusive hsingle₀.1 hsingle₀.2).2
          (by simp)

/-! ## What a disposal leaves to be delivered next -/

/-- The message due next heads `Pending`, and nothing is in flight. -/
def Due (L : Lane) : Prop :=
  ∀ m, dueNext L.trail = some m →
    L.queue.pending.head? = some m ∧ ∀ x c, L.queue.inflight.lookup x ≠ some c

theorem head_push {items : List BusMessage} {m : BusMessage} (h : items.head? = some m)
    (x : BusMessage) : (PendingQueue.enqueue items x).head? = some m := by
  rw [PendingQueue.enqueue, List.head?_append, h]
  rfl

theorem head_erase {items : List BusMessage} {m x : BusMessage} (h : items.head? = some m)
    (hne : x ≠ m) : (items.erase x).head? = some m := by
  cases items with
  | nil => simp at h
  | cons y items =>
    obtain rfl : y = m := by simpa using h
    rw [List.erase_cons_tail (by simpa using Ne.symm hne)]
    rfl

theorem due {L : Lane} (h : Reach laneMachine L) (hsingle : L.Single) : L.Due := by
  refine h.invariant (I := fun L => L.Single → L.Due)
    (fun L hnew => ?_) (fun L a L' hr ih _ hs => ?_) hsingle
  · intro _ m hdue
    simp [hnew.trail, dueNext] at hdue
  · intro hsingle m hdue
    have hsingle₀ := single_of_step hs hsingle
    have ih := ih hsingle₀
    cases hs with
    | arrive | unpark => exact ⟨head_push (ih m hdue).1 _, (ih m hdue).2⟩
    | attach | hand => exact ih m hdue
    | scan hscan =>
      rw [hscan.frame]
      exact ih m hdue
    | deliver => simp [Lane.note, dueNext] at hdue
    | ack hl | dead hl | requeue hl | park hl => exact absurd hl ((ih m hdue).2 _ _)
    | @expirePending x hx =>
      change (if dueNext L.trail = some x then none else dueNext L.trail) = some m at hdue
      split_ifs at hdue with hne
      refine ⟨head_erase (ih m hdue).1 ?_, (ih m hdue).2⟩
      rintro rfl
      exact hne hdue
    | @expireInflight x c hl =>
      change (if dueNext L.trail = some x then none else dueNext L.trail) = some m at hdue
      split_ifs at hdue
      exact absurd hl ((ih m hdue).2 _ _)
    | @detach c =>
      have hpending : (L.queue.detach c).pending =
          (L.queue.heldBy c).reverse ++ L.queue.pending := by
        rw [BusQueue.detach_eq]
      rcases heldBy_cases hr c with hheld | ⟨x, hheld, hl⟩
      · rw [hheld] at hdue
        change dueNext L.trail = some m at hdue
        obtain ⟨hhead, hnone⟩ := ih m hdue
        refine ⟨?_, fun y c' hy => ?_⟩
        · rw [hpending, hheld]
          exact hhead
        · rw [BusQueue.lookup_detach] at hy
          split_ifs at hy
          exact hnone y c' hy
      · rw [hheld] at hdue
        obtain rfl : x = m := by simpa [detachTrail, dueNext] using hdue
        refine ⟨?_, fun y c' hy => ?_⟩
        · rw [hpending, hheld]
          rfl
        · -- Whatever is in flight is held by the active consumer, which is `c`.
          rw [BusQueue.lookup_detach] at hy
          split_ifs at hy with hc
          have hactive := exclusive hr hsingle₀.1 hsingle₀.2
          have heq := (hactive y c' hy).symm.trans (hactive x c hl)
          exact hc (hy.trans heq)

/-- Nothing is put back while a message put back is due. -/
def ReturnsOnce (e : QueueEvent) (older : List QueueEvent) : Prop :=
  ∀ m, e = .returned m → dueNext older = none

theorem returnsOnce {L : Lane} (h : Reach laneMachine L) (hsingle : L.Single) :
    Always ReturnsOnce L.trail := by
  refine h.invariant (I := fun L => L.Single → Always ReturnsOnce L.trail)
    (fun L hnew => ?_) (fun L a L' hr ih _ hs => ?_) hsingle
  · rw [hnew.trail]
    exact fun _ => trivial
  · intro hsingle
    have hsingle₀ := single_of_step hs hsingle
    have ih := ih hsingle₀
    cases hs with
    | @detach c =>
      rcases heldBy_cases hr c with hheld | ⟨x, hheld, hl⟩
      · rw [hheld]
        exact ⟨by simp [ReturnsOnce], ih⟩
      · rw [hheld]
        refine ⟨fun m _ => ?_, by simp [ReturnsOnce], ih⟩
        show dueNext L.trail = none
        by_contra hdue
        obtain ⟨y, hy⟩ := Option.ne_none_iff_exists'.mp hdue
        exact (due hr hsingle₀ y hy).2 x c hl
    | scan => exact ih
    | _ => exact ⟨by simp [ReturnsOnce], ih⟩

/-- A message put back is due until it expires or something is delivered. -/
theorem dueNext_since {mid older : List QueueEvent} {m : BusMessage}
    (h : Always ReturnsOnce (mid ++ .returned m :: older))
    (hdelivered : ∀ x c d, .delivered x c d ∉ mid) (hexpired : .expired m ∉ mid) :
    dueNext (mid ++ .returned m :: older) = some m := by
  induction mid with
  | nil => rfl
  | cons e mid ih =>
    rw [List.mem_cons, not_or] at hexpired
    have ih := ih h.2 (fun x c d hx => hdelivered x c d (List.mem_cons_of_mem e hx)) hexpired.2
    rw [List.cons_append]
    cases e with
    | returned x =>
      have hnone := h.1 x rfl
      rw [List.append_eq, ih] at hnone
      simp at hnone
    | delivered x c d => exact absurd List.mem_cons_self (hdelivered x c d)
    | expired x =>
      have hne : m ≠ x := fun heq => hexpired.1 (by rw [heq])
      simp [dueNext, ih, hne]
    | _ => exact ih

/-! ## Publish order -/

/-- No message is handed back for redelivery, and none has a priority. -/
def Plain (_ : Lane) (a : LaneAct) : Prop :=
  (∀ m, a ≠ .requeue m ∧ a ≠ .park m) ∧ ∀ m entry, a = .arrive m entry → m.priority = 0

/-- `Pending` is in publish order behind the message in flight, and nothing waits elsewhere. -/
structure Fifo (L : Lane) : Prop where
  sorted : L.queue.pending.Pairwise fun x y => x.ref < y.ref
  ahead : ∀ m c, L.queue.inflight.lookup m = some c → ∀ x ∈ L.queue.pending, m.ref < x.ref
  unparked : ∀ m, L.parked m = 0
  even : ∀ m entry, .arrived m entry ∈ L.trail → m.priority = 0

namespace Fifo

variable {L L' : Lane} {m : BusMessage}

/-- The message chosen is the first of `Pending`. -/
theorem chosen (h : L.Fifo) (hl : L.Located) (hsingle : L.Single) {Q : BusQueue} {c : AckHandler}
    (hch : L.queue.Chosen m c Q) : L.queue.pending = m :: Q.pending := by
  obtain ⟨before, after, hsplit, hrest, -, hprio⟩ := hch.split
  have heven : ∀ x ∈ L.queue.pending, x.priority = 0 := fun x hx => by
    obtain ⟨entry, hentry⟩ := hl.arrived x (by simp [hl.mem_pending.mp hx])
    exact h.even x entry hentry
  cases before with
  | nil => rw [hsplit, hrest, List.nil_append, List.nil_append]
  | cons x before =>
    have hlt := hprio hsingle.1 x List.mem_cons_self
    rw [heven x (by simp [hsplit]), heven m (by simp [hsplit])] at hlt
    exact absurd hlt (Int32.lt_irrefl)

theorem shrink (h : L.Fifo) (hpending : L'.queue.pending.Sublist L.queue.pending)
    (hinflight : ∀ x c, L'.queue.inflight.lookup x = some c → L.queue.inflight.lookup x = some c)
    (hparked : L'.parked = L.parked)
    (harrived : ∀ x e, .arrived x e ∈ L'.trail → .arrived x e ∈ L.trail) : L'.Fifo :=
  ⟨h.sorted.sublist hpending,
    fun x c hl y hy => h.ahead x c (hinflight x c hl) y (hpending.subset hy),
    hparked ▸ h.unparked, fun x e hx => h.even x e (harrived x e hx)⟩

/-- What arrives is later than what is there. -/
theorem arrive (h : L.Fifo) (hl : L.Located) {entry : Nat} (hprio : m.priority = 0)
    (fresh : ∀ x e, .arrived x e ∈ L.trail → x.ref < m.ref ∧ e < entry) :
    (L.note (L.queue.push m) (.arrived m entry)).Fifo := by
  have hearlier : ∀ x, place x L.trail ≠ .absent → x.ref < m.ref := fun x hx => by
    obtain ⟨e, he⟩ := hl.arrived x hx
    exact (fresh x e he).1
  have hpending : ∀ x ∈ L.queue.pending, x.ref < m.ref := fun x hx =>
    hearlier x (by simp [hl.mem_pending.mp hx])
  refine ⟨?_, fun x c hx y hy => ?_, h.unparked, fun x e hx => ?_⟩
  · show (L.queue.pending ++ [m]).Pairwise _
    rw [List.pairwise_append]
    exact ⟨h.sorted, List.pairwise_singleton _ _,
      fun x hx y hy => List.mem_singleton.mp hy ▸ hpending x hx⟩
  · rcases List.mem_append.mp hy with hy | hy
    · exact h.ahead x c hx y hy
    · obtain ⟨d, hd⟩ := hl.place_of_lookup hx
      exact List.mem_singleton.mp hy ▸ hearlier x (by simp [hd])
  · rcases List.mem_cons.mp hx with heq | hx
    · simp only [QueueEvent.arrived.injEq] at heq
      exact heq.1 ▸ hprio
    · exact h.even x e hx

theorem deliver (h : L.Fifo) (hl : L.Located) (hsingle : L.Single) {Q : BusQueue}
    {c : AckHandler} (hch : L.queue.Chosen m c Q) (hqueue : L'.queue = Q.book m c)
    (hparked : L'.parked = L.parked)
    (harrived : ∀ x e, .arrived x e ∈ L'.trail → .arrived x e ∈ L.trail) : L'.Fifo := by
  have hpending := h.chosen hl hsingle hch
  have hnone := (hch.exclusive hsingle.1 hsingle.2).1
  have hsorted := h.sorted
  rw [hpending, List.pairwise_cons] at hsorted
  refine ⟨?_, fun x c' hx y hy => ?_, hparked ▸ h.unparked,
    fun x e hx => h.even x e (harrived x e hx)⟩
  · rw [hqueue]
    exact hsorted.2
  · rw [hqueue] at hx hy
    change (Q.inflight.insert m c).lookup x = some c' at hx
    rw [Table.lookup_insert] at hx
    split_ifs at hx with hm
    · exact hm ▸ hsorted.1 y hy
    · rw [show Q.inflight = L.queue.inflight by rw [hch.frame], Table.lookup_eq_some, hnone] at hx
      exact absurd hx List.not_mem_nil

theorem detach (h : L.Fifo) (hr : Reach laneMachine L) (hsingle : L.Single) {c : AckHandler}
    (hqueue : L'.queue = L.queue.detach c) (hparked : L'.parked = L.parked)
    (harrived : ∀ x e, .arrived x e ∈ L'.trail → .arrived x e ∈ L.trail) : L'.Fifo := by
  have hinflight : ∀ x c', L'.queue.inflight.lookup x = some c' →
      L.queue.inflight.lookup x = some c' ∧ c' ≠ c := by
    intro x c' hx
    rw [hqueue, BusQueue.lookup_detach] at hx
    split_ifs at hx with hc
    exact ⟨hx, fun heq => hc (heq ▸ hx)⟩
  have hpending : L'.queue.pending = (L.queue.heldBy c).reverse ++ L.queue.pending := by
    rw [hqueue, BusQueue.detach_eq]
  rcases heldBy_cases hr c with hheld | ⟨m, hheld, hm⟩
  · refine h.shrink ?_ (fun x c' hx => (hinflight x c' hx).1) hparked harrived
    rw [hpending, hheld]
    exact List.Sublist.refl _
  · refine ⟨?_, fun x c' hx y hy => ?_, hparked ▸ h.unparked,
      fun x e hx => h.even x e (harrived x e hx)⟩
    · rw [hpending, hheld]
      exact h.sorted.cons (h.ahead m c hm)
    · obtain ⟨hx, hne⟩ := hinflight x c' hx
      have hactive := exclusive hr hsingle.1 hsingle.2
      exact absurd (Option.some.inj ((hactive x c' hx).symm.trans (hactive m c hm))) hne

theorem step (h : L.Fifo) (hr : Reach laneMachine L) (hsingle : L.Single) {a : LaneAct}
    (hok : L.Plain a) (hs : LaneStep L a L') : L'.Fifo := by
  have hl := located hr
  obtain ⟨hback, hprio⟩ := hok
  have harrived : (∀ x e, a ≠ .arrive x e) → ∀ x e, .arrived x e ∈ L'.trail →
      .arrived x e ∈ L.trail := fun ha x e hx => (hs.mem_arrived hx).resolve_right (ha x e)
  have herase : ∀ {m x : BusMessage} {c : AckHandler},
      (L.queue.inflight.erase m).lookup x = some c → L.queue.inflight.lookup x = some c := by
    intro m x c hx
    rw [Table.lookup_erase] at hx
    split_ifs at hx
    exact hx
  cases hs with
  | arrive fresh => exact h.arrive hl (hprio _ _ rfl) fresh
  | deliver hch => exact h.deliver hl hsingle hch rfl rfl (harrived (by simp))
  | detach => exact h.detach hr hsingle rfl rfl (harrived (by simp))
  | unpark hpos => simp [h.unparked] at hpos
  | requeue => exact absurd rfl (hback _).1
  | park => exact absurd rfl (hback _).2
  | scan hscan =>
    refine h.shrink ?_ (fun x c hx => ?_) rfl (harrived (by simp))
    · rw [hscan.frame]
    · rwa [hscan.frame] at hx
  | expirePending =>
    exact h.shrink List.erase_sublist (fun _ _ hx => hx) rfl (harrived (by simp))
  | ack | dead | expireInflight =>
    exact h.shrink (List.Sublist.refl _) (fun _ _ hx => herase hx) rfl (harrived (by simp))
  | attach | hand =>
    exact h.shrink (List.Sublist.refl _) (fun _ _ hx => hx) rfl (harrived (by simp))

end Fifo

theorem fifo {L : Lane} (h : ReachIf laneMachine Plain L) (hsingle : L.Single) : L.Fifo := by
  refine h.invariant (I := fun L => L.Single → L.Fifo)
    (fun L hnew => ?_) (fun L a L' hr ih hok hs => ?_) hsingle
  · exact fun _ => ⟨by simp [hnew.pending], by simp [hnew.inflight], by simp [hnew.parked],
      by simp [hnew.trail]⟩
  · intro hsingle
    have hsingle₀ := single_of_step hs hsingle
    exact (ih hsingle₀).step hr.reach hsingle₀ hok hs

/-- What is in flight, acked or dead was delivered. -/
def Handled (L : Lane) : Prop :=
  ∀ m, (∃ c d, place m L.trail = .inflight c d) ∨ place m L.trail = .acked ∨
    place m L.trail = .dead → ∃ c d, .delivered m c d ∈ L.trail

theorem handled {L : Lane} (h : Reach laneMachine L) : L.Handled := by
  refine h.invariant (fun L hnew => ?_) fun L a L' hr ih _ hs => ?_
  · intro m hm
    simp [hnew.trail, place] at hm
  · intro m hm
    have hkeep : (∃ c d, .delivered m c d ∈ L.trail) → ∃ c d, .delivered m c d ∈ L'.trail := by
      intro h
      obtain ⟨c, d, hd⟩ := h
      exact ⟨c, d, hs.trail_suffix.subset hd⟩
    rcases (located hr).takes hs m with heq | htakes
    · exact hkeep (ih m (heq ▸ hm))
    · cases a with
      | deliver x c d =>
        obtain ⟨rfl, -⟩ := htakes
        cases hs with
        | deliver => exact ⟨c, d, List.mem_cons_self⟩
      | ack | dead => exact hkeep (ih m (.inl htakes.2.1))
      | arrive | requeue | park | unpark | expire => simp [htakes.2.2] at hm
      | detach => simp [htakes.2] at hm
      | attach | scan | hand => exact htakes.elim

/-- A delivery is of the message due next, if there is one, and all earlier messages were delivered
before, or have expired. -/
def InTurn (e : QueueEvent) (older : List QueueEvent) : Prop :=
  ∀ m c d, e = .delivered m c d → (∀ x, dueNext older = some x → m = x) ∧
    ∀ x entry entry', .arrived x entry ∈ older → .arrived m entry' ∈ older → entry < entry' →
      (∃ c' d', .delivered x c' d' ∈ older) ∨ .expired x ∈ older

/-- The message chosen is the one due, and the earliest that was not delivered before. -/
theorem Fifo.inTurn {L : Lane} (h : L.Fifo) (hr : Reach laneMachine L) (hsingle : L.Single)
    {Q : BusQueue} {m : BusMessage} {c : AckHandler} {d : Nat} (hch : L.queue.Chosen m c Q) :
    InTurn (.delivered m c d) L.trail := by
  have hl := located hr
  have hpending := h.chosen hl hsingle hch
  intro m' c' d' heq
  simp only [QueueEvent.delivered.injEq] at heq
  obtain ⟨rfl, rfl, rfl⟩ := heq
  refine ⟨fun x hx => ?_, fun x entry entry' hx hm hlt => ?_⟩
  · have hhead := (due hr hsingle x hx).1
    rw [hpending, List.head?_cons, Option.some.injEq] at hhead
    exact hhead
  · have href := ref_lt_of_arrived (arrivals hr) hx hm hlt
    cases hplace : place x L.trail with
    | absent => exact absurd hplace (place_ne_absent hx rfl)
    | pending =>
      have hmem := hl.mem_pending.mpr hplace
      have hsorted := h.sorted
      rw [hpending] at hmem hsorted
      rcases List.mem_cons.mp hmem with rfl | hmem
      · exact absurd href (lt_irrefl _)
      · exact absurd href ((List.pairwise_cons.mp hsorted).1 x hmem).not_gt
    | inflight | acked | dead => exact .inl (handled hr x (by simp [hplace]))
    | parked =>
      have hpos := hl.parked_pos.mpr hplace
      simp [h.unparked] at hpos
    | expired =>
      obtain ⟨e, he, hmoves⟩ := exists_moves_of_place hplace (by simp)
      cases e <;> simp [QueueEvent.moves] at hmoves
      exact .inr (hmoves ▸ he)

theorem inTurn {L : Lane} (h : ReachIf laneMachine Plain L) (hsingle : L.Single) :
    Always InTurn L.trail :=
  always_deliver single_of_step (fun he m c d heq => absurd heq (he m c d))
    (fun hr hsingle hch _ => (fifo hr hsingle).inTurn hr.reach hsingle hch) h hsingle

end Lane

namespace World

/-! ## The queues of a bus -/

/-- The step hands no message back for redelivery, and publishes none with a priority. -/
def plain (w : World) (l : Label) : Prop :=
  match w.next l with
  | some (.settle _ .requeue) => False
  | some (.publish _ _ _ options _) => (options.bind (·.priority)).getD 0 = 0
  | _ => True

instance (w : World) (l : Label) : Decidable (w.plain l) := by
  unfold plain
  induction w.next l using Option.casesOn with
  | none => exact instDecidableTrue
  | some i =>
    induction i using Instr.casesOn with
    | settle h resolved => induction resolved using SettleKind.casesOn <;> infer_instance
    | _ => infer_instance

theorem log_even {w : World} (h : ReachIf busMachine plain w) :
    ∀ topic, ∀ m ∈ w.bus.streamLog topic, m.priority = 0 := by
  refine h.invariant (I := fun w => ∀ topic, ∀ m ∈ w.bus.streamLog topic, m.priority = 0)
    (fun w hw => ?_) fun w l w' _ ih hok hstep => ?_
  · rw [busMachine_init.mp hw]
    simp
  · have hs := busMachine_step.mp hstep
    cases hi : w.next l with
    | none =>
      rw [(step_idle hs hi).1]
      exact ih
    | some i =>
      rw [(step_next hs hi).1]
      rw [plain, hi] at hok
      have hex := w.executes i
      generalize w.exec i = o at hex
      cases hex with
      | @publish topic body routingKey options cause logged b₁ b₂ copies _ hlog hcopies =>
        have hp := Bus.published hlog hcopies
        intro t m hm
        replace hm : m ∈ b₂.streamLog t := hm
        rw [hp.log, Function.update_apply] at hm
        split_ifs at hm
        · rcases List.mem_append.mp hm with hm | hm
          · exact ih topic m hm
          · rw [List.mem_singleton.mp hm, BusMessage.priority, hp.logged]
            exact hok
        · exact ih t m hm
      | subscribeOld hid =>
        rw [Bus.subscriberId_eq hid]
        exact ih
      | subscribeNew hid _ hb₂ hseeded =>
        have hc := Bus.created hid hb₂ hseeded
        intro t m hm
        apply ih t m
        rw [← hc.log]
        exact hm
      | disposeBus => exact fun _ _ hm => absurd hm List.not_mem_nil
      | _ => exact ih

theorem lane_plain {w : World} (h : ReachIf busMachine plain w) {l : Label} (hok : w.plain l)
    {q : QueueRef} {L : Lane} {a : LaneAct} (hcause : w.Caused l q L a) : L.Plain a := by
  refine ⟨fun m => ⟨?_, ?_⟩, fun m entry ha => ?_⟩
  · rintro rfl
    obtain ⟨-, k, i, hi, -⟩ := hcause
    simp [plain, hi] at hok
  · rintro rfl
    obtain ⟨-, k, i, hi, -⟩ := hcause
    simp [plain, hi] at hok
  · subst ha
    obtain ⟨-, ⟨-, topic, body, routingKey, options, cause, hi, -, -, hoptions⟩ |
      ⟨-, topic, logged, hlogged, hoptions⟩⟩ := hcause
    · rw [plain, hi] at hok
      rw [BusMessage.priority, hoptions]
      exact hok
    · rw [BusMessage.priority, hoptions]
      exact log_even h topic logged hlogged

/-- **Single active consumer and failover.** One message at most is in flight, owned by the first
consumer attached; deliveries go to the first consumer attached, and with distinct consumers no
other is handed anything. In plain runs a message is first delivered only when all earlier ones
were, or have expired, and what a dropped consumer held is delivered next, unless it expires. -/
theorem single_active_failover {w : World} (h : Reach busMachine w) {q : QueueRef}
    (hpart : (w.bus.queue q).partitionByGroup = false)
    (hsingle : (w.bus.queue q).singleActiveConsumer = true) :
    (w.bus.queue q).inflight.entries.length ≤ 1 ∧
    (∀ m c, (w.bus.queue q).inflight.lookup m = some c →
      (w.bus.queue q).consumers.head? = some c) ∧
    (∀ newer older m c d, w.trail q = newer ++ .delivered m c d :: older →
      (attachedIn older).head? = some c) ∧
    ((∀ c, (w.trail q).count (.attached c) ≤ 1) → ∀ l m c d, w.next l = some (.wrap q m c d) →
      c ∈ (w.bus.queue q).consumers → (w.bus.queue q).consumers.head? = some c) ∧
    (ReachIf busMachine plain w →
      (∀ newer older m c d, w.trail q = newer ++ .delivered m c d :: older →
        ∀ x entry entry', .arrived x entry ∈ older → .arrived m entry' ∈ older →
          entry < entry' → (∃ c' d', .delivered x c' d' ∈ older) ∨ .expired x ∈ older) ∧
      ∀ newer mid older m m' c d,
        w.trail q = newer ++ .delivered m' c d :: (mid ++ .returned m :: older) →
        (∀ x c' d', .delivered x c' d' ∉ mid) → m' = m ∨ .expired m ∈ mid) := by
  have hlane := lane_reach h q
  have hs : (w.lane q).Single := ⟨hpart, hsingle⟩
  have hactive : Always Lane.ToActive (w.trail q) := Lane.toActive hlane hs
  have hreturns : Always Lane.ReturnsOnce (w.trail q) := Lane.returnsOnce hlane hs
  refine ⟨Lane.inflight_length_le_one hlane hpart hsingle, Lane.exclusive hlane hpart hsingle,
    fun newer older m c d htrail => ?_, fun hdistinct l m c d hi hc => ?_, fun hplain => ?_⟩
  · rw [htrail] at hactive
    exact hactive.at m c d rfl
  · exact Lane.head_of_delivered hlane hs hdistinct
      ((tied h).wraps q m c d (mem_agenda_of_next hi)) hc
  · have hinTurn : Always Lane.InTurn (w.trail q) := Lane.inTurn
      (guarded_lane (fun _ _ _ _ hr hok hcause => lane_plain hr hok hcause) hplain) hs
    refine ⟨fun newer older m c d htrail => ?_,
      fun newer mid older m m' c d htrail hmid => ?_⟩
    · rw [htrail] at hinTurn
      exact (hinTurn.at m c d rfl).2
    · rw [htrail] at hinTurn hreturns
      by_cases hexpired : .expired m ∈ mid
      · exact .inr hexpired
      · have hdue := Lane.dueNext_since hreturns.before hmid hexpired
        exact .inl ((hinTurn.at m' c d rfl).1 m hdue)

/-- Two consumers; the active one drops while it holds the message. -/
def failedOver : List Label :=
  [.call (.subscribe "t" ⟨0⟩ { subscriberId := some "s", singleActiveConsumer := true }), .run 0,
    .run 0, .run 0, .call (.subscribe "t" ⟨1⟩ { subscriberId := some "s" }), .run 1,
    .call (.publish "t" "b" none none), .run 2, .run 2, .call (.disposeSubscription 0),
    .run 3, .run 3]

theorem single_active_failover_once :
    ((play {} failedOver).bus.queue 0).consumers.head? = some ⟨1⟩ ∧
      ((play {} failedOver).bus.queue 0).inflight.entries.length ≤ 1 :=
  have hfailover := single_active_failover (reach_play failedOver) (q := 0) (by decide) (by decide)
  ⟨hfailover.2.1 ⟨1, "mem-bus-2", "t", "b", "t", none⟩ ⟨1⟩ (by decide), hfailover.1⟩

end World

end MessagingPoc
