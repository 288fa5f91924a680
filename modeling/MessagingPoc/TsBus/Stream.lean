import MessagingPoc.TsBus.FanOut
import MessagingPoc.TsBus.Order
import MessagingPoc.TsBus.WorkConservation

/-!
# What is published is handed out

From a publish to the handler: what a queue has handed out of a class of messages, and what of it
still waits, is what was published for the queue, in that order, with none left out and none twice
(`published_in_order`). When a queue whose consumers are attached has nothing in flight, nothing
waits either (`caught_up`).

A class is a group where the queue is partitioned, and the messages of one priority elsewhere; none
of them may have been put back on the queue, or have expired.
-/

namespace MessagingPoc.TsBus

open Machine CompetingConsumers

/-! ## Classes of what is published -/

def Content.group (c : Content) : String := c.options.groupId.getD ""

def Content.rank (c : Content) : Int := c.options.priority.getD 0

/-- What a queue hands out in the order in which it came. -/
inductive BusQueue.Class (Q : BusQueue) : (Content → Bool) → Prop
  | group (hpart : Q.partitionByGroup = true) (g : String) : Class Q fun c => c.group = g
  | priority (hpart : Q.partitionByGroup = false) (v : Int) : Class Q fun c => c.rank = v

theorem BusQueue.Class.fronted {Q : BusQueue} {P : Content → Bool} (h : Q.Class P) :
    Fronted Q.discipline AckHandler fun m => P m.content := by
  cases h with
  | group hpart g => exact fronted_group hpart g
  | priority hpart v => exact fronted_priority hpart (lt_irrefl v)

theorem BusQueue.pending_eq_nil {Q : BusQueue} (h : ¬ Q.Deliverable) (hconsumers : Q.consumers ≠ [])
    (hidle : Q.inflight.entries = []) : Q.pending = [] := by
  have hvalues : Q.inflight.values = [] := by rw [InsertionMap.values, hidle, List.map_nil]
  obtain ⟨c, hc⟩ := List.exists_mem_of_ne_nil _ hconsumers
  by_contra hpending
  obtain ⟨m, hm⟩ := List.exists_mem_of_ne_nil _ hpending
  refine h ?_
  unfold Deliverable
  split_ifs
  · by_cases hpin : ∀ o ∈ Q.groupAffinity m.group, o ∉ Q.consumers
    · exact ⟨m, hm, c, hc, by simp [hvalues], .inr hpin⟩
    · push Not at hpin
      obtain ⟨o, ho, ho'⟩ := hpin
      exact ⟨m, hm, o, ho', by simp [hvalues], .inl ho⟩
  · exact ⟨hpending, hconsumers, hidle⟩
  · exact ⟨hpending, c, hc, by simp [hvalues]⟩

namespace World

variable {w : World} {q : QueueRef} {P : Content → Bool}

/-- What a queue has handed out, the earliest first. -/
def output (w : World) (q : QueueRef) : List Content :=
  (w.handlesOf q).map fun i => i.message.content

/-- No message of the class was put back on the queue, and none has expired. -/
def LeftAlone (w : World) (q : QueueRef) (P : Content → Bool) : Prop :=
  ∀ a ∈ w.trail q, ∀ m ∈ a.disturbs, P m.content = false

instance : Decidable (w.LeftAlone q P) :=
  inferInstanceAs (Decidable (∀ a ∈ w.trail q, ∀ m ∈ a.disturbs, P m.content = false))

/-- What was published for a queue: all that passes its filter, from its creation on, and before as
well if it replays the stream. -/
def PublishedFor (w : World) (q : QueueRef) (contents : List Content) : Prop :=
  ∃ newer topic options older, w.history = newer ++ .created q topic options :: older ∧
    SameRules (newQueue topic options) (w.queue q) ∧
      contents = (w.queue q).passing
        ((if options.streamReplay.getD false then publishedIn topic older else []) ++
          publishedIn topic newer)

theorem filter_arrivedIn (h : Reach turns w) (hclass : (w.queue q).Class P)
    (halone : w.LeftAlone q P) : (arrivedIn q w.history).filter P =
      (w.output q).filter P ++ ((w.queue q).pending.map BusMessage.content).filter P := by
  have hfifo := fifo hclass.fronted ((good h).refines q) halone
  have hfilter : ∀ ms : List BusMessage, (ms.map BusMessage.content).filter P =
      (ms.filter fun m => P m.content).map BusMessage.content := fun _ => List.filter_map
  have houtput : w.output q = ((w.view q).delivered.map Prod.fst).map BusMessage.content := by
    rw [output, ← map_handlesOf h, List.map_map, List.map_map]
    rfl
  rw [arrivedIn_history, houtput, hfilter, hfilter, hfilter, ← List.map_append]
  exact congrArg _ hfifo

/-- **Published, in order.** What a queue has handed out of a class, followed by what of it still
waits, is what was published for the queue. -/
theorem published_in_order (h : ReachIf machine KeepsTopics w) (hq : q < w.nextQueue)
    (hclass : (w.queue q).Class P) (halone : w.LeftAlone q P) :
    ∃ contents, w.PublishedFor q contents ∧ contents.filter P =
      (w.output q).filter P ++ ((w.queue q).pending.map BusMessage.content).filter P :=
  ⟨_, (fannedOut h).given q hq, filter_arrivedIn (reach_turns h.reach) hclass halone⟩

/-- A publish before the replaying subscriber is there, and one after. -/
theorem published_in_order_late : ∃ contents, (play step {} lateReplay).PublishedFor 0 contents ∧
    contents.filter (·.rank = 0) = [⟨"t", "a", "t", {}⟩, ⟨"t", "b", "t", {}⟩] :=
  published_in_order (Machine.reachIf_play (fun _ _ _ => id) rfl lateReplay
    ⟨by simp [KeepsTopics], by simp [KeepsTopics], by simp [KeepsTopics], trivial⟩) (by decide)
    (.priority (by decide) 0) (by decide)

/-- **Caught up.** When nothing of a queue is in flight, and a consumer is attached, all that was
published for the queue of a class has been handed out, in that order. -/
theorem caught_up (h : ReachIf machine (fun w l => KeepsTopics w l ∧ Undisturbed q w l) w)
    (hq : q < w.nextQueue) (hclass : (w.queue q).Class P) (halone : w.LeftAlone q P)
    (hrr : (w.queue q).rr < 2 ^ 53) (hconsumers : (w.queue q).consumers ≠ [])
    (hidle : (w.queue q).inflight.entries = []) :
    ∃ contents, w.PublishedFor q contents ∧ contents.filter P = (w.output q).filter P := by
  have hkeeps : ReachIf machine KeepsTopics w := h.mono fun _ _ hok => hok.1
  have hundisturbed : ReachIf machine (Undisturbed q) w := h.mono fun _ _ hok => hok.2
  have hpending : (w.queue q).pending = [] :=
    BusQueue.pending_eq_nil (stalled hundisturbed hrr) hconsumers hidle
  refine ⟨_, (fannedOut hkeeps).given q hq, ?_⟩
  rw [filter_arrivedIn (reach_turns h.reach) hclass halone, hpending]
  simp

/-- Both messages of `lateReplay` are handed out and acknowledged. -/
def lateAcked : List Label := lateReplay ++ [.microtask, .ack 0, .microtask, .ack 1]

theorem caught_up_late : ∃ contents, (play step {} lateAcked).PublishedFor 0 contents ∧
    contents.filter (·.rank = 0) = [⟨"t", "a", "t", {}⟩, ⟨"t", "b", "t", {}⟩] :=
  caught_up (Machine.reachIf_play (fun _ _ _ => id) rfl lateAcked
    ⟨⟨by simp [KeepsTopics], trivial⟩, ⟨by simp [KeepsTopics], trivial⟩,
      ⟨by simp [KeepsTopics], trivial⟩, ⟨by simp [KeepsTopics], trivial⟩,
      ⟨by simp [KeepsTopics], trivial⟩, ⟨by simp [KeepsTopics], trivial⟩,
      ⟨by simp [KeepsTopics], trivial⟩, trivial⟩) (by decide)
    (.priority (by decide) 0) (by decide) (by decide) (by decide) (by decide)

end World

end MessagingPoc.TsBus
