import MessagingPoc.InMemory.Independence
import MessagingPoc.InMemory.Transient

/-!
# After the bus is disposed of

`Dispose` empties the tables through which a `Publish` and a `Subscribe` find a queue. The queues
themselves live on in what captured them: the handles given out, the armed timers, the dispose
callbacks of subscriptions and the calls under way. Each of these ends in a `Pump` of its queue.

What keeps a disposed bus from delivering is the state of its queues, not the disposal. A queue is
*quiet* when it has no consumer, or nothing waits and what is in flight can come to no other
delivery. Quiet queues stay quiet (`Lane.Quiet.step`), so if every queue is quiet when the bus is
disposed of, and nothing is put on a queue afterwards, no message is ever put in flight again
(`disposal_final`).
-/

namespace MessagingPoc

open Machine

/-! ## One queue -/

namespace Lane

/-- No message is on the queue or on its way back to it. -/
structure Vacant (L : Lane) : Prop where
  pending : L.queue.pending = []
  parked : ∀ m, L.parked m = 0
  inflight : ∀ m, L.queue.inflight.lookup m = none

/-- Nothing waits, and a message in flight had its last delivery: its budget is spent, and no
consumer but its own is there to take it over. -/
structure Spent (L : Lane) : Prop where
  pending : L.queue.pending = []
  parked : ∀ m, L.parked m = 0
  last : ∀ m c, L.queue.inflight.lookup m = some c → L.queue.consumers = [c] ∧
    L.queue.maxDeliveries ≤ Int32.ofNat (deliveries m L.trail)

/-- Nobody is there to deliver to, or nothing to deliver. -/
def Quiet (L : Lane) : Prop := L.queue.consumers = [] ∨ L.Spent

theorem Vacant.spent {L : Lane} (h : L.Vacant) : L.Spent := by
  refine ⟨h.pending, h.parked, fun m c hl => ?_⟩
  rw [h.inflight m] at hl
  cases hl

theorem Vacant.quiet {L : Lane} (h : L.Vacant) : L.Quiet := .inr h.spent

theorem New.vacant {L : Lane} (h : L.New) : L.Vacant :=
  ⟨h.pending, fun m => by rw [h.parked], fun m => by rw [h.inflight]; rfl⟩

/-- From `L` to `L'`, no message was put in flight. -/
structure Undelivered (L L' : Lane) : Prop where
  record : ∀ m c d, .delivered m c d ∈ L'.trail → .delivered m c d ∈ L.trail
  inflight : ∀ m c, L'.queue.inflight.lookup m = some c → L.queue.inflight.lookup m = some c

theorem Undelivered.refl (L : Lane) : L.Undelivered L :=
  ⟨fun _ _ _ h => h, fun _ _ h => h⟩

theorem Undelivered.trans {L₁ L₂ L₃ : Lane} (h : L₁.Undelivered L₂) (h' : L₂.Undelivered L₃) :
    L₁.Undelivered L₃ :=
  ⟨fun m c d hd => h.record m c d (h'.record m c d hd),
    fun m c hl => h.inflight m c (h'.inflight m c hl)⟩

variable {L L' : Lane} {a : LaneAct}

theorem undelivered_of_step (hs : LaneStep L a L') (ha : ∀ m c d, a ≠ .deliver m c d) :
    L.Undelivered L' := by
  refine ⟨fun m c d hd => ?_, fun m c hl => ?_⟩
  · rcases hs.mem_delivered hd with hd | heq
    · exact hd
    · exact absurd heq (ha m c d)
  · rcases hs.lookup hl with ⟨d, heq, -⟩ | ⟨hold, -⟩
    · exact absurd heq (ha m c d)
    · exact hold

theorem lookup_of_erase {m x : BusMessage} {c : AckHandler}
    (h : (L.queue.inflight.erase x).lookup m = some c) : L.queue.inflight.lookup m = some c :=
  (Table.lookup_erase_eq_some.mp h).2

/-- A vacant queue stays vacant until a message arrives, and delivers nothing. -/
theorem Vacant.step (h : L.Vacant) (hs : LaneStep L a L') (harrive : ∀ m e, a ≠ .arrive m e) :
    L'.Vacant ∧ ∀ m c d, a ≠ .deliver m c d := by
  have hlookup : ∀ {m c}, L.queue.inflight.lookup m = some c → False := by
    intro m c hl
    rw [h.inflight m] at hl
    cases hl
  cases hs with
  | arrive => exact absurd rfl (harrive _ _)
  | attach | hand => exact ⟨⟨h.pending, h.parked, h.inflight⟩, by simp⟩
  | scan hscan =>
    refine ⟨⟨?_, h.parked, ?_⟩, by simp⟩
    · rw [hscan.frame]
      exact h.pending
    · rw [hscan.frame]
      exact h.inflight
  | @detach c =>
    have hheld : L.queue.heldBy c = [] :=
      List.eq_nil_iff_forall_not_mem.mpr fun m hm => hlookup (BusQueue.mem_heldBy.mp hm)
    refine ⟨⟨?_, h.parked, fun m => ?_⟩, by simp⟩
    · rw [BusQueue.detach_eq, hheld]
      exact h.pending
    · rw [BusQueue.lookup_detach, h.inflight m]
      exact ite_self none
  | deliver hch =>
    obtain ⟨before, after, hsplit, -⟩ := hch.split
    simp [h.pending] at hsplit
  | unpark hpos => exact absurd (h.parked _) hpos.ne'
  | expirePending hm =>
    rw [h.pending] at hm
    cases hm
  | ack hl | dead hl | requeue hl | park hl | expireInflight hl => exact (hlookup hl).elim

theorem Spent.release (h : L.Spent) (m : BusMessage) {e : QueueEvent}
    (he : ∀ x, deliveries x (e :: L.trail) = deliveries x L.trail) :
    (L.note (L.released m) e).Spent := by
  refine ⟨h.pending, h.parked, fun x c hl => ?_⟩
  obtain ⟨hsole, hbudget⟩ := h.last x c (lookup_of_erase hl)
  exact ⟨hsole, (he x).symm ▸ hbudget⟩

/-- When a consumer goes that holds a message, nobody is left; any other leaves the queue spent. -/
theorem Spent.detach (h : L.Spent) (c : AckHandler) : Quiet { L with
    queue := L.queue.detach c
    trail := detachTrail c (L.queue.heldBy c) L.trail } := by
  by_cases hholds : ∃ m, L.queue.inflight.lookup m = some c
  · obtain ⟨m, hm⟩ := hholds
    left
    rw [BusQueue.detach_eq]
    show L.queue.consumers.erase c = []
    rw [(h.last m c hm).1, List.erase_cons_head]
  · push Not at hholds
    have hheld : L.queue.heldBy c = [] :=
      List.eq_nil_iff_forall_not_mem.mpr fun m hm => hholds m (BusQueue.mem_heldBy.mp hm)
    refine .inr ⟨?_, h.parked, fun m c' hl => ?_⟩
    · rw [BusQueue.detach_eq, hheld]
      exact h.pending
    · rw [BusQueue.lookup_detach, if_neg (hholds m)] at hl
      obtain ⟨hsole, hbudget⟩ := h.last m c' hl
      have hne : c' ≠ c := fun heq => hholds m (heq ▸ hl)
      rw [deliveries_detachTrail, BusQueue.detach_eq]
      refine ⟨?_, hbudget⟩
      show L.queue.consumers.erase c = [c']
      rw [hsole, List.erase_of_not_mem (by simpa using hne.symm)]

/-- A spent queue stays quiet until a message arrives or a consumer comes, and delivers nothing. -/
theorem Spent.step (h : L.Spent) (hs : LaneStep L a L') (harrive : ∀ m e, a ≠ .arrive m e)
    (hattach : ∀ c, a ≠ .attach c) : L'.Quiet ∧ ∀ m c d, a ≠ .deliver m c d := by
  have hspent : ∀ {m c}, L.queue.inflight.lookup m = some c →
      ¬ Int32.ofNat (deliveries m L.trail) < L.queue.maxDeliveries :=
    fun hl => Int32.not_lt.mpr (h.last _ _ hl).2
  cases hs with
  | arrive => exact absurd rfl (harrive _ _)
  | attach => exact absurd rfl (hattach _)
  | detach => exact ⟨h.detach _, by simp⟩
  | hand => exact ⟨.inr ⟨h.pending, h.parked, h.last⟩, by simp⟩
  | scan hscan =>
    refine ⟨.inr ⟨?_, h.parked, ?_⟩, by simp⟩
    · rw [hscan.frame]
      exact h.pending
    · rw [hscan.frame]
      exact h.last
  | deliver hch =>
    obtain ⟨before, after, hsplit, -⟩ := hch.split
    simp [h.pending] at hsplit
  | requeue hl hbudget | park hl hbudget => exact absurd hbudget (hspent hl)
  | unpark hpos => exact absurd (h.parked _) hpos.ne'
  | expirePending hm =>
    rw [h.pending] at hm
    cases hm
  | ack | dead | expireInflight => exact ⟨.inr (h.release _ fun _ => rfl), by simp⟩

/-- A queue without consumers gets none by itself, and delivers nothing. -/
theorem deserted_step (h : L.queue.consumers = []) (hs : LaneStep L a L')
    (hattach : ∀ c, a ≠ .attach c) :
    L'.queue.consumers = [] ∧ ∀ m c d, a ≠ .deliver m c d := by
  cases hs with
  | attach => exact absurd rfl (hattach _)
  | detach =>
    refine ⟨?_, by simp⟩
    rw [BusQueue.detach_eq]
    show L.queue.consumers.erase _ = []
    rw [h, List.erase_nil]
  | scan hscan =>
    refine ⟨?_, by simp⟩
    rw [hscan.frame]
    exact h
  | deliver hch =>
    have hc := hch.attached
    rw [h] at hc
    cases hc
  | _ => exact ⟨h, by simp⟩

/-- **Quiet queues stay quiet**, and deliver nothing, until a message arrives or a consumer
comes. -/
theorem Quiet.step (h : L.Quiet) (hs : LaneStep L a L') (harrive : ∀ m e, a ≠ .arrive m e)
    (hattach : ∀ c, a ≠ .attach c) : L'.Quiet ∧ ∀ m c d, a ≠ .deliver m c d := by
  rcases h with hnone | hspent
  · obtain ⟨hnone', hdeliver⟩ := deserted_step hnone hs hattach
    exact ⟨.inl hnone', hdeliver⟩
  · exact hspent.step hs harrive hattach

theorem run_suffix {ok : Lane → LaneAct → Prop} (h : Run laneMachine ok L L') :
    L.trail <:+ L'.trail := by
  induction h with
  | refl => exact List.suffix_refl _
  | tail _ _ hs ih => exact ih.trans (LaneStep.trail_suffix hs)

theorem run_unarrived {ok : Lane → LaneAct → Prop} (h : Run laneMachine ok L L')
    (hnone : ∀ m e, .arrived m e ∈ L'.trail → .arrived m e ∈ L.trail) :
    Run laneMachine (fun L a => ok L a ∧ ∀ m e, a ≠ .arrive m e) L L' := by
  induction h with
  | refl => exact .refl _
  | @tail L₁ L₂ a hrun hok hs ih =>
    have hgrows : L₁.trail ⊆ L₂.trail := (LaneStep.trail_suffix hs).subset
    refine (ih fun m e hm => hnone m e (hgrows hm)).tail ⟨hok, ?_⟩ hs
    rintro m e rfl
    cases hs with
    | arrive fresh =>
      -- The message would be there already, as an older object than itself.
      have hold := hnone m e List.mem_cons_self
      exact lt_irrefl _ (fresh m e ((run_suffix hrun).subset hold)).1

/-- What keeps a lane quiet, step by step, keeps it quiet along a run, and nothing is delivered. -/
theorem run_undelivered {ok : Lane → LaneAct → Prop} {I : Lane → Prop}
    (hstep : ∀ L a L', I L → ok L a → LaneStep L a L' → I L' ∧ ∀ m c d, a ≠ .deliver m c d)
    (h : Run laneMachine ok L L') (hI : I L) : I L' ∧ L.Undelivered L' := by
  induction h with
  | refl => exact ⟨hI, .refl L⟩
  | tail _ hok hs ih =>
    obtain ⟨hI₁, hnone⟩ := ih
    obtain ⟨hI₂, hdeliver⟩ := hstep _ _ _ hI₁ hok hs
    exact ⟨hI₂, hnone.trans (undelivered_of_step hs hdeliver)⟩

end Lane

/-! ## The bus -/

/-- The steps that may put a new message on a queue. -/
def Instr.enqueues : Instr → Bool
  | .publish .. | .subscribe .. => true
  | _ => false

/-- The calls left to those who used the bus: to settle a message, and to dispose. -/
def Label.windsDown : Label → Bool
  | .call (.publish ..) | .call (.subscribe ..) => false
  | _ => true

namespace World

/-- The step puts no new message on any queue: no queue is there for what is published, and a queue
that is created finds nothing in the log it accepts. -/
def Unheard (w : World) : Instr → Prop
  | .publish topic _ routingKey options _ =>
    w.bus.suppressed options = true ∨ w.bus.targets topic (routingKey.getD topic) = []
  | .subscribe topic _ opts =>
    w.bus.queues (w.bus.keyOf topic opts) = none → opts.streamReplay = true →
      ∀ logged ∈ w.bus.streamLog topic,
        (Bus.newQueue topic opts).matches logged.routingKey = false
  | _ => True

theorem unarrived_exec {w : World} {i : Instr} {o : Outcome} (hex : Executes w i o)
    (hi : w.Unheard i) {q : QueueRef} {m : BusMessage} {e : Nat}
    (h : .on q (.arrived m e) ∈ o.world.history) : .on q (.arrived m e) ∈ w.history := by
  cases hex with
  | publish hsup hlog hcopies =>
    rcases hi with hi | hnone
    · rw [hsup] at hi
      cases hi
    · have hcopies' := (Bus.published hlog hcopies).targets
      rw [hnone, List.map_eq_nil_iff] at hcopies'
      simpa [record, withBus, hcopies'] using h
  | @subscribeNew topic id handler opts b₁ b₂ b₃ seeded hid hq hb₂ hseeded =>
    have hb₁ := Bus.subscriberId_eq hid
    have hunused : w.bus.queues (w.bus.keyOf topic opts) = none := by
      rw [Bus.keyOf, hid, ← hq, hb₁]
    have hbacklog : b₂.backlog topic b₁.nextQueue opts = [] := by
      by_cases hreplay : opts.streamReplay = true
      · rw [hb₂, Bus.backlog_createQueue b₁ topic _ hreplay, hb₁, List.filter_eq_nil_iff]
        intro logged hmem
        have hrefused := hi hunused hreplay logged hmem
        exact Bool.not_eq_true _ ▸ hrefused
      · rw [Bus.backlog, if_neg hreplay]
    rw [hbacklog] at hseeded
    obtain ⟨rfl, -⟩ := Prod.mk.inj hseeded
    simpa [record, withBus] using h
  | dispose => simpa [record, withBus] using h
  | _ =>
    first
      | exact h
      | simpa [record, withBus, release, deliver] using h

theorem vacant_unused {w : World} (hg : w.Good) {q : QueueRef} (hq : w.bus.nextQueue ≤ q) :
    (w.lane q).Vacant := by
  have htrail : (w.lane q).trail = [] := hg.sound.unused q hq
  have hl := Lane.located (hg.lane q)
  refine ⟨List.eq_nil_iff_forall_not_mem.mpr fun m hm => ?_, fun m => ?_, fun m => ?_⟩
  · have hplace := hl.mem_pending.mp hm
    rw [htrail] at hplace
    cases hplace
  · exact congrFun (lane_unused (hg.lane q) htrail).1 m
  · rw [Option.eq_none_iff_forall_ne_some]
    intro c hc
    obtain ⟨d, hd⟩ := hl.place_of_lookup hc
    rw [htrail] at hd
    cases hd

theorem after_subscribe {w : World} (hg : w.Good) {topic : String} {handler : AckHandler}
    {opts : SubscribeOptions} {o : Outcome} (hex : Executes w (.subscribe topic handler opts) o)
    {q : QueueRef} (hq : q ≠ w.bus.queueOf topic opts) :
    w.after (.subscribe topic handler opts) o q = w.lane q := by
  obtain ⟨-, -, hmore⟩ := consumers_subscribe hg hex
  have hsame : o.world.bus.queue q = w.bus.queue q ∧ o.world.trail q = w.trail q ∧
      o.world.timers = w.timers := by
    cases hex with
    | @subscribeOld _ _ _ _ b₁ q₀ hid =>
      obtain rfl : q₀ = w.bus.queueOf topic opts := by simpa using hmore
      obtain ⟨hqueue, htrail⟩ := after_local (w := w)
        (o := { world := (w.withBus (b₁.attach _ handler)).record [.on _ (.attached handler)] })
        (by rw [Bus.subscriberId_eq hid]; rfl) rfl q
      exact ⟨by rw [hqueue, if_neg hq], by rw [htrail, if_neg hq], rfl⟩
    | @subscribeNew _ _ _ _ b₁ b₂ b₃ seeded hid _ hb₂ hseeded =>
      have hqueue : b₁.nextQueue = w.bus.queueOf topic opts := by
        simpa using (List.cons.inj hmore).1
      have hne : q ≠ b₁.nextQueue := hqueue ▸ hq
      have hnext : b₁.nextQueue = w.bus.nextQueue := by rw [Bus.subscriberId_eq hid]
      refine ⟨?_, ?_, rfl⟩
      · have hattach : (b₃.attach b₁.nextQueue handler).queue q = b₃.queue q :=
          Function.update_of_ne hne ..
        exact hattach.trans ((Bus.created hid hb₂ hseeded).others q (hnext ▸ hne))
      · rw [trail_record, trail_withBus, List.append_left_eq_self, List.filterMap_eq_nil_iff]
        intro e he
        rcases List.mem_cons.mp he with rfl | he
        · exact if_neg hne.symm
        · obtain ⟨t, -, rfl⟩ := List.mem_map.mp (List.mem_reverse.mp he)
          exact if_neg hne.symm
  obtain ⟨hqueue, htrail, htimers⟩ := hsame
  rw [after_plain (fun _ => ⟨rfl, rfl⟩) (by rw [hmore]; simp [Instr.parks, Instr.builds])
    fun m => by rw [htimers], hqueue, htrail]
  rfl

/-- Every queue is quiet, and those a `Subscribe` or a `Publish` could still find are vacant. -/
structure Still (w : World) : Prop where
  quiet : ∀ q, (w.lane q).Quiet
  vacant : ∀ q, w.bus.Knows q → (w.lane q).Vacant

/-- From `w` to `w'`, no message was put in flight on any queue. -/
def Undelivered (w w' : World) : Prop := ∀ q, (w.lane q).Undelivered (w'.lane q)

theorem vacant_moves {w w' : World} (hg : w.Good) {l : Label} (h : w.step l = some w')
    {q : QueueRef} (hnone : ∀ m e, .arrived m e ∈ w'.trail q → .arrived m e ∈ w.trail q)
    (hq : (w.lane q).Vacant) : (w'.lane q).Vacant ∧ (w.lane q).Undelivered (w'.lane q) := by
  have hstep : ∀ (L : Lane) (a : LaneAct) (L' : Lane), L.Vacant →
      (w.Caused l q L a ∧ ∀ m e, a ≠ .arrive m e) → LaneStep L a L' →
      L'.Vacant ∧ ∀ m c d, a ≠ .deliver m c d := fun L a L' hL ha hs => hL.step hs ha.2
  rcases moves hg h q with hrun | ⟨hunused, L₀, hnew, hrun⟩
  · exact Lane.run_undelivered hstep (Lane.run_unarrived hrun hnone) hq
  · have htrail : w.trail q = [] := hg.sound.unused q hunused
    have hnone₀ : ∀ m e, .arrived m e ∈ (w'.lane q).trail → .arrived m e ∈ L₀.trail := by
      rw [hnew.trail, ← htrail]
      exact hnone
    obtain ⟨hvacant, hrecord, hinflight⟩ :=
      Lane.run_undelivered hstep (Lane.run_unarrived hrun hnone₀) hnew.vacant
    refine ⟨hvacant, fun m c d hd => ?_, fun m c hl => ?_⟩
    · have hold := hrecord m c d hd
      rw [hnew.trail] at hold
      cases hold
    · have hold := hinflight m c hl
      rw [hnew.vacant.inflight] at hold
      cases hold

/-- A step that puts nothing on a queue leaves a quiet queue quiet that nobody finds any more. -/
theorem quiet_moves {w w' : World} (hg : w.Good) {l : Label} (h : w.step l = some w')
    {q : QueueRef} (hnone : ∀ m e, .arrived m e ∈ w'.trail q → .arrived m e ∈ w.trail q)
    (hforgotten : w.Forgotten q) (hq : (w.lane q).Quiet) :
    (w'.lane q).Quiet ∧ (w.lane q).Undelivered (w'.lane q) := by
  by_cases hsub : ∃ topic handler opts, w.next l = some (.subscribe topic handler opts)
  · obtain ⟨topic, handler, opts, hi⟩ := hsub
    have hlane : w'.lane q = w.lane q := by
      cases l with
      | call | fire => cases hi
      | run n =>
        rw [lane_run hg.light h hi q]
        exact after_subscribe hg (w.executes _) (queueOf_ne hforgotten topic opts).symm
    rw [hlane]
    exact ⟨hq, .refl _⟩
  · rcases moves hg h q with hrun | ⟨hunused, -⟩
    · refine Lane.run_undelivered (fun L a L' hL ha hs => hL.step hs ha.2 ?_)
        (Lane.run_unarrived hrun hnone) hq
      rintro c rfl
      obtain ⟨topic, opts, hi⟩ := ha.1
      exact hsub ⟨topic, c, opts, hi⟩
    · exact absurd hforgotten.2 (not_lt.mpr hunused)

/-- **A still bus stays still** as long as nothing is put on a queue, and delivers nothing. -/
theorem still_step {w w' : World} (hr : Reach busMachine w) {l : Label}
    (h : w.step l = some w') (hunheard : ∀ i, w.next l = some i → w.Unheard i) (hw : w.Still) :
    w'.Still ∧ w.Undelivered w' := by
  have hg := good hr
  have hnone : ∀ q m e, .arrived m e ∈ w'.trail q → .arrived m e ∈ w.trail q := by
    intro q m e hm
    rw [mem_trail] at hm ⊢
    cases hi : w.next l with
    | none => rwa [(step_idle h hi).2.2.2] at hm
    | some i =>
      rw [(step_next h hi).2.2.2.2] at hm
      exact unarrived_exec (w.executes i) (hunheard i hi) hm
  have hlane : ∀ q, ((w.lane q).Vacant → (w'.lane q).Vacant) ∧ (w'.lane q).Quiet ∧
      (w.lane q).Undelivered (w'.lane q) := by
    intro q
    by_cases hq : (w.lane q).Vacant
    · obtain ⟨hvacant, hdelivered⟩ := vacant_moves hg h (hnone q) hq
      exact ⟨fun _ => hvacant, hvacant.quiet, hdelivered⟩
    · have hforgotten : w.Forgotten q := by
        refine ⟨fun hknows => hq (hw.vacant q hknows), ?_⟩
        by_contra hunused
        exact hq (vacant_unused hg (not_lt.mp hunused))
      exact ⟨fun hvacant => absurd hvacant hq, quiet_moves hg h (hnone q) hforgotten (hw.quiet q)⟩
  refine ⟨⟨fun q => (hlane q).2.1, fun q hknows => (hlane q).1 ?_⟩, fun q => (hlane q).2.2⟩
  cases hi : w.next l with
  | none =>
    rw [(step_idle h hi).1] at hknows
    exact hw.vacant q hknows
  | some i =>
    rw [(step_next h hi).1] at hknows
    rcases known_exec (w.executes i) hknows with hknows | rfl
    · exact hw.vacant q hknows
    · exact vacant_unused hg le_rfl

theorem still_disposeBus {w w' : World} (hr : Reach busMachine w) {l : Label}
    (h : w.step l = some w') (hi : w.next l = some .disposeBus)
    (hquiet : ∀ q, (w.lane q).Quiet) : w'.Still := by
  have hlane : ∀ q, w'.lane q = w.lane q := by
    intro q
    cases l with
    | call | fire => cases hi
    | run n =>
      rw [lane_run (light hr) h hi q]
      exact after_plain (fun _ => ⟨rfl, rfl⟩) (by simp [exec]) fun _ => rfl
  refine ⟨fun q => hlane q ▸ hquiet q, fun q hknows => ?_⟩
  rw [(step_next h hi).1] at hknows
  rcases hknows with ⟨key, hkey⟩ | ⟨topic, hq⟩
  · cases hkey
  · exact absurd hq List.not_mem_nil

/-! ## Runs -/

/-- When the bus is disposed of every queue is quiet, and nothing is put on a queue afterwards. -/
def quietly (p : World × List Instr) (l : Label) : Prop :=
  (p.1.next l = some .disposeBus → ∀ q, (p.1.lane q).Quiet) ∧
    (.disposeBus ∈ p.2 → ∀ i, p.1.next l = some i → p.1.Unheard i)

theorem reach_of_quietly {p : World × List Instr} (h : ReachIf executedMachine quietly p) :
    Reach busMachine p.1 := h.forget fun _ _ _ => trivial

/-- One step of such a run: once disposed of, the bus is still. -/
theorem still_quietly {p p' : World × List Instr} (h : ReachIf executedMachine quietly p)
    (hstill : .disposeBus ∈ p.2 → p.1.Still) {l : Label} (hok : quietly p l)
    (hs : executedMachine.step p l p') : (.disposeBus ∈ p'.2 → p'.1.Still) ∧
      (.disposeBus ∈ p.2 → .disposeBus ∈ p'.2 ∧ p.1.Undelivered p'.1) := by
  obtain ⟨hstep, hnotes⟩ := step_recording.mp hs
  have hr := reach_of_quietly h
  have hstep := busMachine_step.mp hstep
  rw [hnotes]
  refine ⟨fun hmem => ?_, fun hbefore => ⟨List.mem_append_right _ hbefore, ?_⟩⟩
  · by_cases hbefore : .disposeBus ∈ p.2
    · exact (still_step hr hstep (hok.2 hbefore) (hstill hbefore)).1
    · have hi : p.1.next l = some .disposeBus := by
        simpa [executed, Option.mem_toList, hbefore] using hmem
      exact still_disposeBus hr hstep hi (hok.1 hi)
  · exact (still_step hr hstep (hok.2 hbefore) (hstill hbefore)).2

theorem still {p : World × List Instr} (h : ReachIf executedMachine quietly p) :
    .disposeBus ∈ p.2 → p.1.Still :=
  h.invariant (I := fun p => .disposeBus ∈ p.2 → p.1.Still)
    (fun _ hinit hmem => absurd hmem (hinit.2 ▸ List.not_mem_nil))
    fun _ _ _ hr ih hok hs => (still_quietly hr ih hok hs).1

/-- **Disposal is final for a quiet bus.** From the disposal on, no step of the run puts a message
in flight. -/
theorem disposal_final {p p' : World × List Instr} (h : ReachIf executedMachine quietly p)
    (hdisposed : .disposeBus ∈ p.2) (hrun : Run executedMachine quietly p p') :
    p.1.Undelivered p'.1 := by
  suffices hall : .disposeBus ∈ p'.2 ∧ p.1.Undelivered p'.1 from hall.2
  induction hrun with
  | refl => exact ⟨hdisposed, fun q => .refl _⟩
  | tail hrun hok hs ih =>
    obtain ⟨hmem, hbefore⟩ := ih
    have hr := h.extend hrun
    obtain ⟨hmem', hstep⟩ := (still_quietly hr (still hr) hok hs).2 hmem
    exact ⟨hmem', fun q => (hbefore q).trans (hstep q)⟩

/-- Nothing is published or subscribed to once the bus is disposed of, and it is not now. -/
def calm (p : World × List Instr) (l : Label) : Prop :=
  p.1.next l ≠ some .disposeBus ∧
    (.disposeBus ∈ p.2 → ((p.1.next l).any Instr.enqueues) = false)

instance (p : World × List Instr) (l : Label) : Decidable (calm p l) :=
  inferInstanceAs (Decidable (_ ∧ _))

theorem quietly_of_calm {p : World × List Instr} {l : Label} (h : calm p l) : quietly p l := by
  refine ⟨fun hi => absurd hi h.1, fun hmem i hi => ?_⟩
  have hnone := h.2 hmem
  rw [hi] at hnone
  cases i with
  | publish | subscribe => cases hnone
  | _ => trivial

/-- A message is in flight to the only consumer, by its only delivery; a `Dispose` is called. -/
def lastDelivery : List Label :=
  [.call (.subscribe "t" ⟨0⟩ { subscriberId := some "s", maxDeliveries := some 1 }), .run 0, .run 0,
    .run 0, .call (.publish "t" "b" none none), .run 1, .run 1, .run 1, .run 1, .call .disposeBus]

theorem spent_lastDelivery : ((playExecuted {} lastDelivery).1.lane 0).Spent := by
  refine ⟨by decide, fun m => rfl, fun m c hl => ?_⟩
  have hentries : ((playExecuted {} lastDelivery).1.bus.queue 0).inflight.entries =
      [⟨⟨1, "mem-bus-2", "t", "b", "t", none⟩, ⟨0⟩⟩] := by decide
  have hmem := Table.lookup_eq_some.mp hl
  change _ ∈ ((playExecuted {} lastDelivery).1.bus.queue 0).inflight.entries at hmem
  rw [hentries, List.mem_singleton, Sigma.mk.injEq] at hmem
  obtain ⟨rfl, hc⟩ := hmem
  rw [eq_of_heq hc]
  exact ⟨by decide, by decide⟩

/-- The run goes on. -/
def goOn (p : World × List Instr) (ls : List Label) : World × List Instr :=
  Machine.play (recordStep step executed) p ls

theorem run_goOn {ok : World × List Instr → Label → Prop} (p : World × List Instr)
    (ls : List Label) (h : Machine.Plays (recordStep step executed) ok p ls) :
    Run executedMachine ok p (goOn p ls) :=
  Machine.run_play (recordStep_step fun _ _ _ => id) h

theorem run_calm (p : World × List Instr) (ls : List Label)
    (h : Machine.Plays (recordStep step executed) calm p ls) :
    Run executedMachine quietly p (goOn p ls) :=
  (run_goOn p ls h).mono fun _ _ => quietly_of_calm

theorem executedMachine_init : executedMachine.init ({}, []) := ⟨rfl, rfl⟩

theorem reach_lastDelivery : ReachIf executedMachine quietly (playExecuted {} lastDelivery) :=
  (ReachIf.init executedMachine_init).extend (run_calm _ lastDelivery (by decide))

theorem quietly_lastDelivery : quietly (playExecuted {} lastDelivery) (.run 2) := by
  refine ⟨fun _ q => ?_, fun hmem => absurd hmem (by decide)⟩
  by_cases hq : q = 0
  · rw [hq]
    exact .inr spent_lastDelivery
  · have hg := good (reach_of_quietly reach_lastDelivery)
    exact (vacant_unused hg (Nat.one_le_iff_ne_zero.mpr hq)).quiet

/-- The consumer of the last delivery rejects it after the bus was disposed of. -/
theorem disposal_final_rejected :
    (goOn (playExecuted {} lastDelivery) [.run 2]).1.Undelivered
      (goOn (goOn (playExecuted {} lastDelivery) [.run 2])
        [.call (.nack 0 true), .run 3, .run 3, .run 3]).1 :=
  have hdisposal := run_goOn _ [.run 2] ⟨quietly_lastDelivery, trivial⟩
  disposal_final (reach_lastDelivery.extend hdisposal) (by decide) (run_calm _ _ (by decide))

/-- Two messages on a queue, one in flight; the bus is disposed of. -/
def oneWaits : List Label :=
  [.call (.subscribe "t" ⟨0⟩ { subscriberId := some "s" }), .run 0, .run 0, .run 0,
    .call (.publish "t" "a" none none), .run 1, .run 1, .run 1, .run 1,
    .call (.publish "t" "b" none none), .run 2, .run 2, .call .disposeBus, .run 3]

/-- **The handles outlive the bus.** Its consumer acknowledges the first message after the bus was
disposed of, and gets the second. -/
theorem delivered_after_disposal : ¬ ∀ p p' : World × List Instr, Reach executedMachine p →
    .disposeBus ∈ p.2 → Run executedMachine (fun _ l => l.windsDown = true) p p' →
    p.1.Undelivered p'.1 := by
  intro hclaim
  have hundelivered := hclaim (playExecuted {} oneWaits)
    (goOn (playExecuted {} oneWaits) [.call (.ack 0), .run 4, .run 4, .run 4])
    ((ReachIf.init executedMachine_init).extend (run_playExecuted _ _)) (by decide)
    (run_goOn _ _ (by decide))
  have hinflight := (hundelivered 0).inflight ⟨3, "mem-bus-4", "t", "b", "t", none⟩ ⟨0⟩ (by decide)
  revert hinflight
  decide

end World

end MessagingPoc
