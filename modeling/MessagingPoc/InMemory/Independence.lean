import MessagingPoc.InMemory.Stakes

/-!
# Independent subscriptions

Where no two entries of `Consumers` are equal, a delegate stands for one subscription, and
subscriptions are independent (`subscriptions_independent`).

A dispose callback that is called again finds no entry to take out, but it ends in a `Pump` like the
first: whatever waits on the queue is handed out then, and where nothing can be, the round robin may
still move. On a *still* queue a turn of `Pump` does nothing at all. Which calls dispose of
something again is a second ghost record (`repeatMachine`).
-/

namespace MessagingPoc

open Machine

/-! ## Turns of `Pump` that do nothing -/

namespace BusQueue

/-- `Pump` has nothing to hand out here, nor anything to count or to forget: nothing waits, nobody
is attached, the active consumer is busy, or every group that waits is pinned to a busy consumer. -/
def Still (Q : BusQueue) : Prop :=
  Q.pending = [] ∨ Q.consumers = [] ∨
    if Q.partitionByGroup then
      ∀ m ∈ Q.pending, ∃ c ∈ Q.consumers, Q.groupAffinity m.group = some c ∧ c ∈ Q.owners
    else Q.singleActiveConsumer = true ∧ Q.inflight.entries ≠ []

instance (Q : BusQueue) : Decidable Q.Still := by
  unfold Still
  infer_instance

theorem groupScan_still {Q : BusQueue} {busy : List AckHandler} {rest : List BusMessage}
    (h : ∀ m ∈ rest, ∃ c ∈ Q.consumers, Q.groupAffinity m.group = some c ∧ c ∈ busy) (i : Nat) :
    groupScan busy i rest Q = (.nobody, Q) := by
  induction rest generalizing i with
  | nil => rfl
  | cons m rest ih =>
    obtain ⟨⟨c, hattached, hpin, hbusy⟩, hrest⟩ := List.forall_mem_cons.mp h
    have hkept : Q.dropStalePin m.group = Q := by
      rw [dropStalePin, hpin]
      exact if_pos hattached
    rw [groupScan]
    simp only [hkept, hpin, if_pos hbusy]
    exact ih hrest (i + 1)

theorem Still.next {Q : BusQueue} (h : Q.Still) : Q.next = (.nobody, Q) := by
  unfold BusQueue.next
  split_ifs with hnone hpart
  · rfl
  · rw [Still, if_pos hpart] at h
    rw [not_or] at hnone
    have hpinned := (h.resolve_left hnone.1).resolve_left hnone.2
    rw [nextGroupDelivery, if_neg (not_or.mpr ⟨hnone.2, hnone.1⟩)]
    exact groupScan_still hpinned 0
  · rw [Still, if_neg hpart] at h
    rw [not_or] at hnone
    obtain ⟨hsingle, hbusy⟩ := (h.resolve_left hnone.1).resolve_left hnone.2
    obtain ⟨active, standby, hconsumers⟩ := List.exists_cons_of_ne_nil hnone.2
    have hnobody : Q.nextConsumer = (.nobody, Q) := by
      rw [nextConsumer, hconsumers]
      simp only [hsingle, if_true, if_neg hbusy]
    rw [hnobody]

end BusQueue

namespace World

theorem exec_pump_still {w : World} {q : QueueRef} (h : (w.bus.queue q).Still) :
    w.exec (.pump q) = { world := w } := by
  have hsame : w.bus.setQueue q (w.bus.queue q) = w.bus := by
    rw [Bus.setQueue, Function.update_eq_self]
  simp only [exec, pump, h.next, hsame, withBus]

/-! ## The record of repeated disposals -/

/-- What a step adds to the second record: its call, if it disposes of what is disposed of. -/
def repeats (p : World × List Nat) : Label → List Nat
  | .run n =>
    match p.1.next (.run n) with
    | some (.dispose s) => if s ∈ p.2 then [n] else []
    | _ => []
  | _ => []

/-- The queue a step takes a turn of `Pump` on. -/
def pumped (w : World) (l : Label) : Option QueueRef :=
  match w.next l with
  | some (.pump q) => some q
  | _ => none

end World

/-- The bus beside the records of what was disposed of, and of the calls that did so again. -/
abbrev Recorded := (World × List Nat) × List Nat

def repeatMachine : System Recorded Label := disposalMachine.recording World.repeats

namespace World

/-- Equal delegates are kept apart (`keepsApart`), and a call that disposes of something again comes
to a still queue when it pumps. -/
def keepsStill (p : Recorded) (l : Label) : Prop :=
  keepsApart p.1 l ∧
    ∀ n ∈ p.2, l = .run n → ∀ q ∈ p.1.1.pumped l, (p.1.1.bus.queue q).Still

instance (p : Recorded) (l : Label) : Decidable (keepsStill p l) :=
  inferInstanceAs (Decidable (_ ∧ _))

/-! ## Where a repeated disposal stands -/

theorem dispose_not_mem_more {w : World} {i : Instr} {o : Outcome} (hex : Executes w i o)
    (s : Nat) : .dispose s ∉ o.more := by
  cases hex with
  | publish =>
    intro hmem
    obtain ⟨t, -, ht⟩ := List.mem_flatMap.mp hmem
    unfold afterEnqueue at ht
    split_ifs at ht <;> simp at ht
  | settleDead =>
    intro hmem
    unfold BusQueue.deadLetterCall at hmem
    split_ifs at hmem <;> simp at hmem
  | caught hmore => rcases hmore with rfl | rfl <;> simp
  | _ => simp

/-- A dispose callback is a call of its own. -/
def DisposeAlone (w : World) : Prop :=
  ∀ is ∈ w.threads, ∀ s, .dispose s ∈ is → is = [.dispose s]

theorem DisposeAlone.step {w w' : World} {l : Label} (h : DisposeAlone w)
    (hs : w.step l = some w') : DisposeAlone w' := by
  have hsingle : ∀ (i : Instr) (s : Nat), .dispose s ∈ [i] → [i] = [.dispose s] := by
    intro i s hmem
    rw [List.mem_singleton.mp hmem]
  intro is his s hmem
  cases l with
  | call op =>
    obtain rfl := step_call hs
    rcases List.mem_append.mp his with his | his
    · exact h is his s hmem
    · obtain rfl := List.mem_singleton.mp his
      exact hsingle _ s hmem
  | fire n =>
    obtain ⟨t, -, rfl⟩ := step_fire hs
    rcases List.mem_append.mp his with his | his
    · exact h is his s hmem
    · obtain rfl := List.mem_singleton.mp his
      exact hsingle _ s hmem
  | run n =>
    obtain ⟨i, rest, hthread, -, rfl⟩ := step_run hs
    rcases List.mem_or_eq_of_mem_set his with his | rfl
    · exact h is his s hmem
    -- No dispose callback is left of a call that has taken a step.
    exfalso
    split_ifs at hmem
    · cases hmem
    rcases List.mem_append.mp hmem with hmore | hrest
    · exact dispose_not_mem_more (w.executes i) s hmore
    · have halone := h _ (List.mem_of_getElem? hthread) s (List.mem_cons_of_mem i hrest)
      rw [(List.cons.inj halone).2] at hrest
      cases hrest

theorem disposeAlone {w : World} (h : Reach busMachine w) : DisposeAlone w := by
  refine h.invariant (fun w hw => ?_) fun w l w' _ ih _ hstep => ih.step (busMachine_step.mp hstep)
  obtain rfl : w = {} := busMachine_init.mp hw
  exact nofun

/-- A step leaves the threads of other calls alone. -/
theorem threads_other {w w' : World} {l : Label} (hs : w.step l = some w') {n : Nat}
    (hl : l ≠ .run n) (hn : n < w.threads.length) : w'.threads[n]? = w.threads[n]? := by
  cases l with
  | call op =>
    obtain rfl := step_call hs
    exact List.getElem?_append_left hn
  | fire j =>
    obtain ⟨t, -, rfl⟩ := step_fire hs
    exact List.getElem?_append_left hn
  | run j =>
    obtain ⟨i, rest, -, -, rfl⟩ := step_run hs
    exact List.getElem?_set_ne fun hj => hl (congrArg Label.run hj)

/-- Nothing has changed but where the call `n` stands. -/
structure Unchanged (n : Nat) (w w' : World) : Prop where
  bus : w'.bus = w.bus
  subscriptions : w'.subscriptions = w.subscriptions
  handles : w'.handles = w.handles
  timers : w'.timers = w.timers
  threads : ∀ j, j ≠ n → w'.threads[j]? = w.threads[j]?

theorem heldBy_absent {w : World} (h : Reach busMachine w) {q : QueueRef} {c : AckHandler}
    (hc : c ∉ (w.bus.queue q).consumers) : (w.bus.queue q).heldBy c = [] := by
  refine List.eq_nil_iff_forall_not_mem.mpr fun m hm => hc ?_
  exact (Lane.prefetch ((good h).lane q)).attached m c (BusQueue.mem_heldBy.mp hm)

/-- The lock body of a repeated disposal: `Pump` is all that is left of the call. -/
theorem unchanged_dispose {w w' : World} (h : Reach busMachine w) {n s : Nat} {q : QueueRef}
    {c : AckHandler} (hi : w.next (.run n) = some (.dispose s))
    (hget : w.subscriptions[s]? = some (q, c)) (hgone : c ∉ (w.bus.queue q).consumers)
    (hs : w.step (.run n) = some w') :
    Unchanged n w w' ∧ w'.threads[n]? = some [.pump q] := by
  obtain ⟨i, rest, hthread, hi', rfl⟩ := step_run hs
  obtain rfl : i = .dispose s := Option.some.inj (hi'.symm.trans hi)
  have halone := disposeAlone h _ (List.mem_of_getElem? hthread) s List.mem_cons_self
  obtain rfl : rest = [] := (List.cons.inj halone).2
  have hheld := heldBy_absent h hgone
  have hdetach : (w.bus.queue q).detach c = w.bus.queue q := by
    rw [BusQueue.detach_eq, hheld, List.erase_of_not_mem hgone]
    rfl
  have hsame : w.bus.setQueue q (w.bus.queue q) = w.bus := by
    rw [Bus.setQueue, Function.update_eq_self]
  have hexec : w.exec (.dispose s) =
      { world := w.record [.on q (.detached c)], more := [.pump q] } := by
    simp only [exec, World.dispose, hget, hdetach, hheld, hsame, withBus, List.map_nil,
      List.reverse_nil, List.nil_append]
  rw [hexec]
  refine ⟨⟨rfl, rfl, rfl, rfl, fun j hj => List.getElem?_set_ne hj.symm⟩, ?_⟩
  exact List.getElem?_set_self (List.getElem?_eq_some_iff.mp hthread).1

/-- The turn of `Pump` of a repeated disposal: the call returns. -/
theorem unchanged_pump {w w' : World} {n : Nat} {q : QueueRef}
    (hthread : w.threads[n]? = some [.pump q]) (hstill : (w.bus.queue q).Still)
    (hs : w.step (.run n) = some w') : Unchanged n w w' ∧ w'.threads[n]? = some [] := by
  obtain ⟨i, rest, hthread', -, rfl⟩ := step_run hs
  obtain ⟨rfl, rfl⟩ := List.cons.inj (Option.some.inj (hthread'.symm.trans hthread))
  rw [exec_pump_still hstill]
  refine ⟨⟨rfl, rfl, rfl, rfl, fun j hj => List.getElem?_set_ne hj.symm⟩, ?_⟩
  exact List.getElem?_set_self (List.getElem?_eq_some_iff.mp hthread).1

/-- Where a call stands that has disposed of something again: at its `Pump`, or it has returned. -/
def Leaving (p : Recorded) : Prop :=
  ∀ n ∈ p.2, p.1.1.threads[n]? = some [] ∨ ∃ q, p.1.1.threads[n]? = some [.pump q]

theorem mem_repeats {p : World × List Nat} {l : Label} {n : Nat} :
    n ∈ repeats p l ↔ l = .run n ∧ ∃ s ∈ p.2, p.1.next l = some (.dispose s) := by
  cases l with
  | call | fire => simp [repeats]
  | run j =>
    simp only [repeats]
    split
    · rename_i s hi
      split_ifs with hs <;> simp [hi, hs, eq_comm]
    · rename_i hi
      simp only [List.not_mem_nil, false_iff, not_and]
      rintro - ⟨s, -, hs⟩
      exact hi s hs

/-- The lock body of a call that disposes of something again. -/
theorem unchanged_again {p : World × List Nat} (h : ReachIf disposalMachine keepsApart p)
    {n s : Nat} (hs : s ∈ p.2) (hi : p.1.next (.run n) = some (.dispose s))
    (hok : keepsApart p (.run n)) {w' : World} (hstep : p.1.step (.run n) = some w') :
    Unchanged n p.1 w' ∧ ∃ q, w'.threads[n]? = some [.pump q] := by
  have hlt : s < p.1.subscriptions.length := (apart h).known s hs
  obtain ⟨q, c, hget⟩ : ∃ q c, p.1.subscriptions[s]? = some (q, c) :=
    ⟨_, _, List.getElem?_eq_getElem hlt⟩
  have hgone : c ∉ (p.1.bus.queue q).consumers :=
    hok.2 s (by simp [disposals, hi, hlt]) hs (q, c) (by simp [disposedOf, hi, hget])
  have hw : Reach busMachine p.1 := h.forget fun _ _ _ => trivial
  obtain ⟨hsame, hthread⟩ := unchanged_dispose hw hi hget hgone hstep
  exact ⟨hsame, _, hthread⟩

theorem apart_of_recorded {p : Recorded} (h : ReachIf repeatMachine keepsStill p) :
    ReachIf disposalMachine keepsApart p.1 := h.forget fun _ _ hok => hok.1

theorem leaving {p : Recorded} (h : ReachIf repeatMachine keepsStill p) : Leaving p := by
  refine h.invariant (fun p hp => ?_) fun p l p' hr ih hok hstep n hn => ?_
  · rw [Leaving, hp.2]
    exact nofun
  obtain ⟨hstep, hnotes⟩ := step_recording.mp hstep
  have hs : p.1.1.step l = some p'.1.1 := (step_recording.mp hstep).1
  rw [hnotes] at hn
  rcases List.mem_append.mp hn with hnow | hold
  · obtain ⟨rfl, s, hdisposed, hi⟩ := mem_repeats.mp hnow
    exact .inr (unchanged_again (apart_of_recorded hr) hdisposed hi hok.1 hs).2
  · have hlt : n < p.1.1.threads.length := by
      rcases ih n hold with hthread | ⟨q, hthread⟩
      all_goals exact (List.getElem?_eq_some_iff.mp hthread).1
    by_cases hl : l = .run n
    · subst hl
      rcases ih n hold with hthread | ⟨q, hthread⟩
      · simp [step, hthread] at hs
      · have hstill := hok.2 n hold rfl q (by simp [pumped, next, hthread])
        exact .inl (unchanged_pump hthread hstill hs).2
    · rw [threads_other hs hl hlt]
      exact ih n hold

/-! ## Independence -/

/-- The subscription through which a message is in flight: the one of its owner. -/
def via (p : World × List Nat) (q : QueueRef) (m : BusMessage) : Option Nat :=
  ((p.1.bus.queue q).inflight.lookup m).bind fun c =>
    (List.range p.1.subscriptions.length).find? fun s => Live p s q c

/-- An entry among the consumers stands for one subscription. -/
theorem Apart.unique {p : World × List Nat} (h : Apart p) {s s' : Nat} {q : QueueRef}
    {c : AckHandler} (hs : Live p s q c) (hs' : Live p s' q c) : s = s' := by
  have hcount : (p.1.bus.queue q).consumers.count c ≤ 1 :=
    List.nodup_iff_count_le_one.mp (h.nodup q) c
  have hstake := h.stake q c
  exact Finset.card_le_one.mp (by omega) s (mem_liveOf.mpr hs) s' (mem_liveOf.mpr hs')

theorem Apart.attached {p : World × List Nat} (h : Apart p) {s : Nat} {q : QueueRef}
    {c : AckHandler} (hs : Live p s q c) : c ∈ (p.1.bus.queue q).consumers := by
  have hpos : 0 < (liveOf p q c).card := Finset.card_pos.mpr ⟨s, mem_liveOf.mpr hs⟩
  have hstake := h.stake q c
  exact List.count_pos_iff.mp (by omega)

theorem Apart.via_eq_some {p : World × List Nat} (h : Apart p) {q : QueueRef} {m : BusMessage}
    {s : Nat} : via p q m = some s ↔
      ∃ c, Live p s q c ∧ (p.1.bus.queue q).inflight.lookup m = some c := by
  rw [via, Option.bind_eq_some_iff]
  constructor
  · intro hsome
    obtain ⟨c, hc, hfind⟩ := hsome
    exact ⟨c, by simpa using List.find?_some hfind, hc⟩
  · intro hlive
    obtain ⟨c, hlive, hc⟩ := hlive
    refine ⟨c, hc, ?_⟩
    have hmem : s ∈ List.range p.1.subscriptions.length :=
      List.mem_range.mpr (List.getElem?_eq_some_iff.mp hlive.1).1
    have hsome : ((List.range p.1.subscriptions.length).find? fun s => Live p s q c).isSome :=
      List.find?_isSome.mpr ⟨s, hmem, decide_eq_true hlive⟩
    obtain ⟨s', hs'⟩ := Option.isSome_iff_exists.mp hsome
    rw [hs', h.unique hlive (by simpa using List.find?_some hs')]

/-- What is in flight through a subscription is what its delegate holds. -/
theorem Apart.via_iff {p : World × List Nat} (h : Apart p) {s : Nat} {q : QueueRef}
    {c : AckHandler} (hs : Live p s q c) {m : BusMessage} :
    via p q m = some s ↔ (p.1.bus.queue q).inflight.lookup m = some c := by
  rw [h.via_eq_some]
  constructor
  · intro hm
    obtain ⟨c', hs', hm⟩ := hm
    obtain ⟨-, rfl⟩ := Prod.mk.inj (Option.some.inj (hs.1.symm.trans hs'.1))
    exact hm
  · exact fun hm => ⟨c, hs, hm⟩

theorem queue_disposed {w w' : World} {s : Nat} {q : QueueRef} {c : AckHandler}
    (hs : w.subscriptions[s]? = some (q, c)) {l : Label} (hi : w.next l = some (.dispose s))
    (hstep : w.step l = some w') (q' : QueueRef) :
    w'.bus.queue q' = if q' = q then (w.bus.queue q).detach c else w.bus.queue q' := by
  obtain ⟨hbus, -⟩ := step_next hstep hi
  rw [hbus]
  exact (consumers_dispose hs (w.executes (.dispose s))).1 q'

/-- Whoever has another subscription stays attached when one is disposed of. -/
theorem Apart.stays {p : World × List Nat} (h : Apart p) {s s' : Nat} {q q' : QueueRef}
    {c c' : AckHandler} (hs : Live p s q c) (hs' : Live p s' q' c') (hne : s' ≠ s) {w' : World}
    (hqueue : ∀ q', w'.bus.queue q' =
      if q' = q then (p.1.bus.queue q).detach c else p.1.bus.queue q') :
    c' ∈ (w'.bus.queue q').consumers := by
  have hattached := h.attached hs'
  rw [hqueue]
  split_ifs with hq'
  · -- Another delegate on the same queue.
    subst hq'
    have hc : c' ≠ c := by
      intro heq
      exact hne (h.unique hs' (heq ▸ hs))
    rw [BusQueue.detach_eq]
    exact (List.mem_erase_of_ne hc).mpr hattached
  · exact hattached

/-- Subscriptions that are not disposed of do not share anything: `through` tells which one a
message is in flight through, and `ok` which steps are allowed for. -/
structure Independent (ok : Recorded → Label → Prop) (p : Recorded)
    (through : QueueRef → BusMessage → Option Nat) : Prop where
  attached : ∀ s q c, Live p.1 s q c → c ∈ (p.1.1.bus.queue q).consumers
  held : ∀ q m s, through q m = some s →
    ∃ c, Live p.1 s q c ∧ (p.1.1.bus.queue q).inflight.lookup m = some c
  /-- A subscription is busy only with a message of its own. -/
  slot : ∀ s q c, Live p.1 s q c → c ∈ (p.1.1.bus.queue q).owners → ∃ m, through q m = some s
  single : ∀ q m m' s, through q m = some s → through q m' = some s → m = m'
  /-- Disposal returns what is in flight through the subscription, and nothing else. -/
  disposal : ∀ s q c, Live p.1 s q c → ∀ l w', p.1.1.next l = some (.dispose s) →
    p.1.1.step l = some w' →
      (∃ returned, (∀ m, m ∈ returned ↔ through q m = some s) ∧
        (w'.bus.queue q).pending = returned ++ (p.1.1.bus.queue q).pending) ∧
      (∀ m, (w'.bus.queue q).inflight.lookup m =
        if through q m = some s then none else (p.1.1.bus.queue q).inflight.lookup m) ∧
      (∀ q' ≠ q, w'.bus.queue q' = p.1.1.bus.queue q') ∧
      ∀ s' ≠ s, ∀ q' c', Live p.1 s' q' c' → c' ∈ (w'.bus.queue q').consumers
  /-- Disposal of what is disposed of changes nothing under the lock, and goes on to `Pump`. -/
  again : ∀ s ∈ p.1.2, ∀ n w', ok p (.run n) → p.1.1.next (.run n) = some (.dispose s) →
    p.1.1.step (.run n) = some w' →
      Unchanged n p.1.1 w' ∧ ∃ q, w'.threads[n]? = some [.pump q]
  /-- Nor does its turn of `Pump` change anything, after which the call returns. -/
  pumped : ∀ n ∈ p.2, ∀ w', ok p (.run n) → p.1.1.step (.run n) = some w' →
    Unchanged n p.1.1 w' ∧ w'.threads[n]? = some []

/-- **Subscriptions are independent**, in runs that keep equal delegates apart and queues still
where a repeated disposal pumps. -/
theorem subscriptions_independent {p : Recorded}
    (h : ReachIf repeatMachine keepsStill p) : ∃ through, Independent keepsStill p through := by
  have hinner := apart_of_recorded h
  have hapart := apart hinner
  have hw : Reach busMachine p.1.1 := hinner.forget fun _ _ _ => trivial
  have hg := good hw
  refine ⟨via p.1, fun s q c hs => hapart.attached hs, fun q m s => hapart.via_eq_some.mp, ?_, ?_,
    ?_, ?_, ?_⟩
  · intro s q c hs howner
    obtain ⟨m, hm⟩ := BusQueue.mem_owners.mp howner
    exact ⟨m, hapart.via_eq_some.mpr ⟨c, hs, hm⟩⟩
  · intro q m m' s hm hm'
    obtain ⟨c, hs, hl⟩ := hapart.via_eq_some.mp hm
    have hl' := (hapart.via_iff hs).mp hm'
    exact (Lane.prefetch (hg.lane q)).single m m' c hl hl'
  · intro s q c hs l w' hi hstep
    have hqueue := queue_disposed hs.1 hi hstep
    have hself : w'.bus.queue q = (p.1.1.bus.queue q).detach c := by rw [hqueue, if_pos rfl]
    refine ⟨⟨((p.1.1.bus.queue q).heldBy c).reverse, ?_, ?_⟩, ?_, ?_, ?_⟩
    · intro m
      rw [hapart.via_iff hs, List.mem_reverse, BusQueue.mem_heldBy]
    · rw [hself, BusQueue.detach_eq]
    · intro m
      rw [hself, BusQueue.lookup_detach]
      simp only [hapart.via_iff hs]
    · intro q' hq'
      rw [hqueue, if_neg hq']
    · exact fun s' hne q' c' hs' => hapart.stays hs hs' hne hqueue
  · exact fun s hs n w' hok hi hstep => unchanged_again hinner hs hi hok.1 hstep
  · intro n hn w' hok hstep
    rcases leaving h n hn with hthread | ⟨q, hthread⟩
    · simp [step, hthread] at hstep
    · have hstill := hok.2 n hn rfl q (by simp [World.pumped, next, hthread])
      exact unchanged_pump hthread hstill hstep

/-- Play a list of labels beside the records. -/
def playRecorded (ls : List Label) : Recorded :=
  Machine.play (recordStep (recordStep step disposals) repeats) (({}, []), []) ls

theorem repeatMachine_init : repeatMachine.init (({}, []), []) :=
  ⟨⟨busMachine_init.mpr rfl, rfl⟩, rfl⟩

theorem playRecorded_step (p : Recorded) (l : Label) (p' : Recorded)
    (h : recordStep (recordStep step disposals) repeats p l = some p') :
    repeatMachine.step p l p' := recordStep_step (recordStep_step fun _ _ _ => id) p l p' h

/-- Two consumers of one queue, each with a message. -/
def bothBusy : List Label :=
  [.call (.subscribe "t" ⟨0⟩ { subscriberId := some "s" }), .run 0, .run 0, .run 0,
    .call (.subscribe "t" ⟨1⟩ { subscriberId := some "s" }), .run 1, .run 1, .run 1,
    .call (.publish "t" "a" none none), .run 2, .run 2, .run 2, .run 2,
    .call (.publish "t" "b" none none), .run 3, .run 3, .run 3, .run 3]

/-- The first subscription is disposed of, its message goes to the second consumer when that has
acked its own, and the first is disposed of again. -/
def disposedAgain : List Label :=
  bothBusy ++ [.call (.disposeSubscription 0), .run 4, .run 4,
    .call (.ack 1), .run 5, .run 5, .run 5, .run 5, .run 5, .call (.disposeSubscription 0), .run 6]

theorem subscriptions_independent_busy :
    (∃ through, Independent keepsStill (playRecorded bothBusy) through ∧
      (∃ m, through 0 m = some 0) ∧ ∃ m, through 0 m = some 1) ∧
    ∃ through, Independent keepsStill (playRecorded disposedAgain) through ∧
      (∃ m, through 0 m = some 1) ∧ 6 ∈ (playRecorded disposedAgain).2 := by
  constructor
  · obtain ⟨through, hind⟩ := subscriptions_independent (p := playRecorded bothBusy)
      (Machine.reachIf_play playRecorded_step repeatMachine_init bothBusy (by decide))
    exact ⟨through, hind, hind.slot 0 0 ⟨0⟩ (by decide) (by decide),
      hind.slot 1 0 ⟨1⟩ (by decide) (by decide)⟩
  · obtain ⟨through, hind⟩ := subscriptions_independent (p := playRecorded disposedAgain)
      (Machine.reachIf_play playRecorded_step repeatMachine_init disposedAgain (by decide))
    exact ⟨through, hind, hind.slot 1 0 ⟨1⟩ (by decide) (by decide), by decide⟩

/-- One delegate subscribed twice to a queue, and a message. -/
def sameDelegate : List Label :=
  [.call (.subscribe "t" ⟨0⟩ { subscriberId := some "s" }), .run 0, .run 0, .run 0,
    .call (.subscribe "t" ⟨0⟩ { subscriberId := some "s" }), .run 1, .run 1, .run 1,
    .call (.publish "t" "b" none none), .run 2, .run 2]

/-- **Equal delegates share one slot.** -/
theorem equal_delegates_share_slot : ¬ ∀ p, Reach repeatMachine p →
    ∃ through, Independent anyStep p through := by
  intro hclaim
  obtain ⟨through, hind⟩ := hclaim (playRecorded sameDelegate)
    (Machine.reach_play playRecorded_step repeatMachine_init sameDelegate)
  obtain ⟨m, hm⟩ := hind.slot 0 0 ⟨0⟩ (by decide) (by decide)
  obtain ⟨m', hm'⟩ := hind.slot 1 0 ⟨0⟩ (by decide) (by decide)
  -- Only one message is in flight.
  have hone : ∀ x s, through 0 x = some s → x = ⟨1, "mem-bus-2", "t", "b", "t", none⟩ := by
    intro x s hx
    obtain ⟨c, -, hl⟩ := hind.held 0 x s hx
    have hkeys : x ∈ ((playRecorded sameDelegate).1.1.bus.queue 0).inflight.keys :=
      AList.mem_keys.mp (AList.lookup_isSome.mp (by rw [hl]; rfl))
    have honly : ((playRecorded sameDelegate).1.1.bus.queue 0).inflight.keys =
        [⟨1, "mem-bus-2", "t", "b", "t", none⟩] := by decide
    rw [honly, List.mem_singleton] at hkeys
    exact hkeys
  rw [hone m 0 hm] at hm
  rw [hone m' 1 hm', hm] at hm'
  cases hm'

end World

end MessagingPoc
