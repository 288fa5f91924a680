import MessagingPoc.InMemory.NoLoss

/-!
# One delivery, one settlement

The settle closure of a handle recognises its delivery by the message and the consumer only. So a
handle whose delivery was superseded can still settle a later delivery of the message, when that
one went to an equal delegate (`stale_ack_settles_redelivery`). In runs where no such call is made
the closure does what it is meant to: a handle settles its own delivery once, and nothing else
(`one_delivery_one_settlement`).
-/

namespace MessagingPoc

open Machine

namespace World

/-- The delivery a handle was built for is the one its message is in flight by. -/
def outstanding (w : World) (i : IncomingBusMessage) : Prop :=
  place i.message (w.trail i.queue) = .inflight i.consumer i.delivery

instance (w : World) (i : IncomingBusMessage) : Decidable (w.outstanding i) :=
  inferInstanceAs (Decidable (_ = _))

/-! ## Handles belong to deliveries -/

/-- What the settle closure of a handle captured. -/
def captured (i : IncomingBusMessage) : QueueRef × BusMessage × AckHandler × Nat :=
  (i.queue, i.message, i.consumer, i.delivery)

theorem map_modify_settled {α : Type} {f : IncomingBusMessage → α}
    (hf : ∀ i, f { i with settled := true } = f i) (hs : List IncomingBusMessage) (n : Nat) :
    (hs.modify n fun i => { i with settled := true }).map f = hs.map f := by
  induction hs generalizing n with
  | nil => simp
  | cons i hs ih =>
    cases n with
    | zero => simp [hf]
    | succ n => simp [ih]

/-- A step builds at most one handle, and changes nothing of the others but `Settled`. -/
theorem handles_step {α : Type} {f : IncomingBusMessage → α}
    (hf : ∀ i, f { i with settled := true } = f i) {w w' : World} {l : Label}
    (h : w.step l = some w') :
    ((∀ q m c d, w.next l ≠ some (.wrap q m c d)) ∧ w'.handles.map f = w.handles.map f) ∨
      ∃ q m c d, w.next l = some (.wrap q m c d) ∧
        w'.handles.map f = w.handles.map f ++ [f (MessagingPoc.wrap w.bus q m c d)] := by
  cases hi : w.next l with
  | none => exact .inl ⟨by simp, by rw [(step_idle h hi).2.2.1]⟩
  | some i =>
    have hhandles := (step_next h hi).2.2.1
    have hex := w.executes i
    generalize w.exec i = o at hex hhandles
    rw [hhandles]
    cases hex with
    | @wrap q m c d => exact .inr ⟨q, m, c, d, rfl, List.map_append⟩
    | markSettled => exact .inl ⟨by simp, map_modify_settled hf ..⟩
    | _ => exact .inl ⟨by simp, rfl⟩

theorem captured_step {w w' : World} {l : Label} (h : w.step l = some w') :
    w'.handles.map captured = w.handles.map captured ∨
      ∃ q m c d, w.next l = some (.wrap q m c d) ∧
        w'.handles.map captured = w.handles.map captured ++ [(q, m, c, d)] :=
  (handles_step (fun _ => rfl) h).imp_left And.right

theorem captured_run {ok : World → Label → Prop} {w w' : World}
    (p : Run busMachine ok w w') : w.handles.map captured <+: w'.handles.map captured := by
  induction p with
  | refl => exact List.prefix_refl _
  | tail _ _ hs ih =>
    apply ih.trans
    rcases captured_step (busMachine_step.mp hs) with heq | ⟨q, m, c, d, -, heq⟩
    · rw [heq]
    · rw [heq]
      exact List.prefix_append _ _

/-- Every handle, built or about to be, belongs to a recorded delivery. -/
structure Tied (w : World) : Prop where
  handles : ∀ q m c d, (q, m, c, d) ∈ w.handles.map captured → .delivered m c d ∈ w.trail q
  wraps : ∀ q m c d, .wrap q m c d ∈ w.agenda → .delivered m c d ∈ w.trail q

/-- Only a turn of `Pump` makes a handle due, and it records the delivery. -/
theorem wrap_more {w : World} {i : Instr} {o : Outcome} (hex : Executes w i o) {q : QueueRef}
    {m : BusMessage} {c : AckHandler} {d : Nat} (h : .wrap q m c d ∈ o.more) :
    .delivered m c d ∈ o.world.trail q ∧ d = w.history.length := by
  cases hex with
  | @pumpFound q₀ Q m₀ c₀ =>
    simp only [List.mem_cons, Instr.wrap.injEq, reduceCtorEq, List.not_mem_nil, or_false] at h
    obtain ⟨rfl, rfl, rfl, rfl⟩ := h
    exact ⟨mem_trail.mpr List.mem_cons_self, rfl⟩
  | publish => exact absurd (light_afterEnqueue h) (by simp [Instr.light])
  | settleDead =>
    unfold BusQueue.deadLetterCall at h
    split_ifs at h <;> simp at h
  | caught hmore => rcases hmore with rfl | rfl <;> simp at h
  | _ => simp at h

theorem tied {w : World} (h : Reach busMachine w) : w.Tied := by
  refine h.invariant (fun w hw => ?_) fun w l w' hr ih _ hstep => ?_
  · rw [busMachine_init.mp hw]
    exact ⟨by simp, by simp [agenda]⟩
  · have hs := busMachine_step.mp hstep
    have htrail : ∀ q, w.trail q <:+ w'.trail q :=
      trail_suffix (Run.single trivial hstep : Run busMachine anyStep w w')
    refine ⟨fun q m c d hh => (htrail q).subset ?_, fun q m c d hx => ?_⟩
    · rcases captured_step hs with heq | ⟨q', m', c', d', hi, heq⟩
      · exact ih.handles q m c d (heq ▸ hh)
      · rw [heq, List.mem_append, List.mem_singleton] at hh
        rcases hh with hh | hh
        · exact ih.handles q m c d hh
        · simp only [Prod.mk.injEq] at hh
          obtain ⟨rfl, rfl, rfl, rfl⟩ := hh
          exact ih.wraps _ _ _ _ (mem_agenda_of_next hi)
    · rcases mem_agenda_step hs hx with hx | ⟨i, hi, hx⟩ | ⟨op, hx⟩ | ⟨t, -, hx⟩
      · exact (htrail q).subset (ih.wraps q m c d hx)
      · rw [trail, (step_next hs hi).2.2.2.2]
        exact (wrap_more (w.executes i) hx).1
      · cases op <;> simp [Op.entry] at hx
      · cases t <;> simp [Timer.continuation] at hx

/-! ## A superseded delivery stays superseded -/

theorem superseded_step {w w' : World} (hg : w.Good) {l : Label} (hs : w.step l = some w')
    {q : QueueRef} {m : BusMessage} {c : AckHandler} {d : Nat}
    (hd : .delivered m c d ∈ w.trail q) (hnot : place m (w.trail q) ≠ .inflight c d) :
    place m (w'.trail q) ≠ .inflight c d := by
  have hrun : ∀ {L L' : Lane}, Reach laneMachine L → Run laneMachine (w.Caused l q) L L' →
      place m L.trail ≠ .inflight c d → place m L'.trail ≠ .inflight c d := by
    intro L L' hr p h
    induction p with
    | refl => exact h
    | @tail L₁ L₂ a p hcause hstep ih =>
      have hl := Lane.located (hr.extend (p.mono fun _ _ _ => trivial))
      rcases hl.takes hstep m with heq | htakes
      · rw [heq]
        exact ih
      · intro hnow
        rw [hnow] at htakes
        cases a with
        | deliver x c' d' =>
          -- A new delivery has a new number.
          obtain ⟨rfl, -, heq⟩ := htakes
          simp only [Place.inflight.injEq] at heq
          obtain ⟨rfl, rfl⟩ := heq
          exact absurd (hg.sound.numbered q x c d hd) (by rw [hcause.2]; exact lt_irrefl _)
        | _ => simp [Lane.Takes] at htakes
  rcases moves hg hs q with p | ⟨hnew, -⟩
  · exact hrun (hg.lane q) p hnot
  · rw [hg.sound.unused q hnew] at hd
    exact absurd hd List.not_mem_nil

theorem superseded_run {ok : World → Label → Prop} {w w' : World} (h : Reach busMachine w)
    (p : Run busMachine ok w w') {q : QueueRef} {m : BusMessage} {c : AckHandler} {d : Nat}
    (hd : .delivered m c d ∈ w.trail q) (hnot : place m (w.trail q) ≠ .inflight c d) :
    place m (w'.trail q) ≠ .inflight c d := by
  induction p with
  | refl => exact hnot
  | tail p _ hs ih =>
    have hp := p.mono (fun _ _ _ => trivial : ∀ w l, ok w l → anyStep w l)
    exact superseded_step (good (h.extend hp)) (busMachine_step.mp hs)
      ((trail_suffix p q).subset hd) ih

/-! ## Settling -/

/-- The handle whose settlement a step is the lock body of. -/
def settledHandle (w : World) (l : Label) : Option IncomingBusMessage :=
  match w.next l with
  | some (.settle h _) => w.handles[h]?
  | _ => none

/-- The step settles no delivery but the one its handle was built for: if it is the lock body of a
settlement whose message is in flight to an equal delegate, then by that delivery. -/
def settlesOwn (w : World) (l : Label) : Prop :=
  ∀ i ∈ w.settledHandle l,
    (w.bus.queue i.queue).inflight.lookup i.message = some i.consumer → w.outstanding i

instance (w : World) (l : Label) : Decidable (w.settlesOwn l) :=
  Option.decidableForallMem _

/-- The settle closure of a handle whose message is not in flight to its consumer does nothing. -/
theorem settle_ignored {w w' : World} {l : Label} (hs : w.step l = some w') {h : Nat}
    {kind : SettleKind} {i : IncomingBusMessage} (hi : w.next l = some (.settle h kind))
    (hh : w.handles[h]? = some i)
    (hl : (w.bus.queue i.queue).inflight.lookup i.message ≠ some i.consumer) :
    w'.bus = w.bus ∧ w'.timers = w.timers ∧ w'.history = w.history := by
  obtain ⟨hbus, -, -, htimers, hhistory⟩ := step_next hs hi
  have hsettle : w.exec (.settle h kind) = { world := w } := by
    simp [exec, settle, hh, hl]
  rw [hbus, htimers, hhistory, hsettle]
  exact ⟨rfl, rfl, rfl⟩

theorem settle_ends {w w' : World} (hg : w.Good) {l : Label} (hs : w.step l = some w') {h : Nat}
    {kind : SettleKind} {i : IncomingBusMessage} (hi : w.next l = some (.settle h kind))
    (hh : w.handles[h]? = some i) : ¬ w'.outstanding i := by
  have hhistory := (step_next hs hi).2.2.2.2
  have hex := w.executes (.settle h kind)
  have hevent : ∀ {o : Outcome} {e : QueueEvent} {p : Place}, w'.history = o.world.history →
      o.world.history = .on i.queue e :: w.history → e.moves = some (i.message, p) →
      (∀ c d, p ≠ .inflight c d) → ¬ w'.outstanding i := by
    intro o e p hw ho he hp
    unfold outstanding
    rw [trail, hw, ho, List.filterMap_cons]
    simp only [Event.onQueue, if_true]
    rw [place_cons_of_moves he, if_pos rfl]
    exact hp _ _
  generalize w.exec (.settle h kind) = o at hex hhistory
  cases hex with
  | settleIgnored hnot =>
    unfold outstanding
    rw [trail, hhistory]
    exact fun hout => hnot i hh (((Lane.located (hg.lane i.queue)).inflight _ _).mpr ⟨_, hout⟩)
  | settleAck hh' | settleDead hh' | settlePark hh' | settleRequeue hh' =>
    obtain rfl := Option.some.inj (hh.symm.trans hh')
    exact hevent hhistory rfl rfl (by simp)

/-- **One delivery, one settlement**, in runs where no stale handle settles a later delivery: a
settle call on a handle whose own delivery is over changes nothing, and after any settle call on it
its own delivery is over for good. -/
theorem one_delivery_one_settlement {w w' : World} {l : Label}
    (hr : ReachIf busMachine settlesOwn w) (hok : w.settlesOwn l) (hs : w.step l = some w')
    {h : Nat} {kind : SettleKind} {i : IncomingBusMessage}
    (hi : w.next l = some (.settle h kind)) (hh : w.handles[h]? = some i) :
    (¬ w.outstanding i → w'.bus = w.bus ∧ w'.timers = w.timers ∧ w'.history = w.history) ∧
      ∀ w'' i', Run busMachine settlesOwn w' w'' → w''.handles[h]? = some i' →
        ¬ w''.outstanding i' := by
  have hg := good hr.reach
  refine ⟨fun hnot => settle_ignored hs hi hh fun hl =>
      hnot (hok i (by simp [settledHandle, hi, hh]) hl),
    fun w'' i' p hh' => ?_⟩
  have hstep : Run busMachine settlesOwn w w' := Run.single hok hs
  -- The handle captured the same delivery then as now.
  have hsame : captured i' = captured i := by
    obtain ⟨added, hadded⟩ := captured_run (hstep.trans p)
    have hbefore : (w.handles.map captured)[h]? = some (captured i) := by simp [hh]
    have hafter : (w''.handles.map captured)[h]? = some (captured i') := by simp [hh']
    obtain ⟨hlt, -⟩ := List.getElem?_eq_some_iff.mp hbefore
    rw [← hadded, List.getElem?_append_left hlt, hbefore] at hafter
    exact (Option.some.inj hafter).symm
  simp only [captured, Prod.mk.injEq] at hsame
  obtain ⟨hqueue, hmessage, hconsumer, hdelivery⟩ := hsame
  have hd : .delivered i.message i.consumer i.delivery ∈ w.trail i.queue :=
    (tied hr.reach).handles _ _ _ _
      (List.mem_map.mpr ⟨i, List.mem_of_getElem? hh, rfl⟩)
  unfold outstanding
  rw [hqueue, hmessage, hconsumer, hdelivery]
  exact superseded_run (hr.extend hstep).reach p ((trail_suffix hstep _).subset hd)
    (settle_ends hg hs hi hh)

/-- One consumer, one message: the handler nacks for redelivery, is given the message again, and
then acks the first handle. -/
def staleAck : List Label :=
  [.call (.subscribe "t" ⟨0⟩ {}), .run 0, .call (.publish "t" "b" none none), .run 1, .run 1,
    .run 1, .call (.nack 0 true), .run 2, .run 2, .run 2, .run 2, .call (.ack 0), .run 3]

/-- The first of the two handles, before and after the settlement. -/
def firstHandle : IncomingBusMessage :=
  ⟨"mem-bus-3", "t", "b", 1, [], none, none, none, none, true, 0,
    ⟨1, "mem-bus-3", "t", "b", "t", none⟩, ⟨0⟩, 3⟩

theorem one_delivery_one_settlement_nack :
    (play {} (staleAck.take 8)).outstanding firstHandle ∧
      ¬ ((play {} (staleAck.take 8)).play [.run 2]).outstanding firstHandle :=
  ⟨by decide, (one_delivery_one_settlement (h := 0) (i := firstHandle)
    (reachIf_play _ (by decide)) (by decide) (step_play (l := .run 2) (by decide))
    (show _ = some (Instr.settle 0 .requeue) by decide) (by decide)).2 _ _ (.refl _) (by decide)⟩

/-- **A stale handle settles the redelivery**, which its guard takes for its own delivery. -/
theorem stale_ack_settles_redelivery : ¬ ∀ (w w' : World) (l : Label) (h : Nat)
    (kind : SettleKind) (i : IncomingBusMessage), Reach busMachine w → w.step l = some w' →
      w.next l = some (.settle h kind) → w.handles[h]? = some i → ¬ w.outstanding i →
      (w'.bus.queue i.queue).inflight = (w.bus.queue i.queue).inflight := by
  intro hclaim
  have hsame := hclaim (play {} staleAck) _ (.run 3) 0 .ack firstHandle (reach_play staleAck)
    (step_play (by decide)) (by decide) (by decide) (by decide)
  exact absurd (congrArg (fun d => d.entries.length) hsame) (by decide)

end World

end MessagingPoc
