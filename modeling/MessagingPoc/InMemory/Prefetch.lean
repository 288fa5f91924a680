import MessagingPoc.InMemory.Reachable
import Mathlib.Data.Finset.Card

/-!
# One message to a consumer

Every selection routine hands a message only to an attached consumer that holds none, and every
step that detaches a consumer takes its message back. So on every queue, whatever its kind, the
owner of a message in flight is attached and owns no other.

**The loop of `Pump` ends.** Each delivery takes one consumer off the free ones, `free_deliver`, and
nothing in the loop gives one back. A `Pump` that no other step interrupts therefore delivers at
most once for each distinct free consumer, and then leaves the loop.
-/

namespace MessagingPoc

open Machine

/-- The distinct attached consumers that hold no message. -/
def BusQueue.freeConsumers (Q : BusQueue) : Finset AckHandler :=
  Q.consumers.toFinset.filter (· ∉ Q.owners)

/-- The deliveries on a queue so far. -/
def delivered (t : List QueueEvent) : Nat :=
  t.countP fun e => match e with
    | .delivered .. => true
    | _ => false

namespace World

/-- `k` steps of one thread, with no other step in between. -/
def alone (w : World) (n : Nat) : Nat → Option World
  | 0 => some w
  | k + 1 => (w.step (.run n)).bind fun w' => w'.alone n k

theorem threads_lt {w : World} {n : Nat} {t : List Instr} (h : w.threads[n]? = some t) :
    n < w.threads.length := (List.getElem?_eq_some_iff.mp h).1

theorem step_thread {w : World} {n : Nat} {i : Instr} {rest : List Instr}
    (h : w.threads[n]? = some (i :: rest)) :
    ∃ w', w.step (.run n) = some w' ∧
      w'.threads[n]? = some (if (w.exec i).threw then [] else (w.exec i).more ++ rest) ∧
      w'.bus = (w.exec i).world.bus ∧ w'.history = (w.exec i).world.history := by
  have hthreads : (w.exec i).world.threads = w.threads := (executes w i).light_more.2.2
  have hs : w.step (.run n) = some { (w.exec i).world with
      threads := w.threads.set n (if (w.exec i).threw then [] else (w.exec i).more ++ rest) } := by
    simp only [step, h, hthreads]
  refine ⟨_, hs, ?_, rfl, rfl⟩
  exact List.getElem?_set_self (threads_lt h)

theorem free_deliver {w : World} (h : Reach busMachine w) {q : QueueRef} {Q : BusQueue}
    {m : BusMessage} {c : AckHandler} (hnext : (w.bus.queue q).next = (.found (m, c), Q)) :
    ((w.deliver q Q m c).bus.queue q).freeConsumers.card + 1 =
      (w.bus.queue q).freeConsumers.card := by
  have hch := BusQueue.next_found hnext
  have hl : (w.lane q).Located := Lane.located (lane_reach h q)
  obtain ⟨before, after, hpending, -⟩ := hch.split
  have hm : place m (w.trail q) = .pending :=
    hl.mem_pending.mp (show m ∈ (w.bus.queue q).pending by rw [hpending]; simp)
  have hout : (w.bus.queue q).inflight.lookup m = none := (hl.elsewhere hm).2.1
  have hqueue : (w.deliver q Q m c).bus.queue q = Q.book m c := Function.update_self ..
  have hconsumers : (Q.book m c).consumers = (w.bus.queue q).consumers := by
    rw [hch.frame]; rfl
  have hinflight : (Q.book m c).inflight = (w.bus.queue q).inflight.insert m c := by
    rw [hch.frame]; rfl
  -- The message was not in flight, so no consumer loses one.
  have howners : ∀ x, x ∈ (Q.book m c).owners ↔ x = c ∨ x ∈ (w.bus.queue q).owners := by
    intro x
    simp only [BusQueue.mem_owners, hinflight, Table.lookup_insert]
    constructor
    · intro hx
      obtain ⟨y, hy⟩ := hx
      split_ifs at hy with hmy
      · exact .inl (Option.some.inj hy).symm
      · exact .inr ⟨y, hy⟩
    · intro hx
      rcases hx with rfl | ⟨y, hy⟩
      · exact ⟨m, by simp⟩
      · have hne : m ≠ y := by
          intro heq
          rw [← heq, hout] at hy
          cases hy
        exact ⟨y, by rw [if_neg hne, hy]⟩
  have herase : ((w.deliver q Q m c).bus.queue q).freeConsumers =
      (w.bus.queue q).freeConsumers.erase c := by
    ext x
    simp only [BusQueue.freeConsumers, hqueue, hconsumers, howners, Finset.mem_filter,
      List.mem_toFinset, Finset.mem_erase, not_or]
    tauto
  have hfree : c ∈ (w.bus.queue q).freeConsumers := by
    simp only [BusQueue.freeConsumers, Finset.mem_filter, List.mem_toFinset]
    exact ⟨hch.attached, hch.free⟩
  rw [herase, Finset.card_erase_add_one hfree]

/-- One round of the loop that delivers: the turn of `Pump` and the `Wrap` after it. -/
theorem pump_round {w : World} {n : Nat} {q : QueueRef} {rest : List Instr}
    (ht : w.threads[n]? = some (.pump q :: rest)) {Q : BusQueue} {m : BusMessage} {c : AckHandler}
    (hnext : (w.bus.queue q).next = (.found (m, c), Q)) :
    ∃ w₁ w₂, w.step (.run n) = some w₁ ∧ w₁.step (.run n) = some w₂ ∧
      w₂.threads[n]? = some (.pump q :: rest) ∧ w₂.bus = (w.deliver q Q m c).bus ∧
      delivered (w₂.trail q) = delivered (w.trail q) + 1 := by
  have hexec : w.exec (.pump q) =
      { world := w.deliver q Q m c, more := [.wrap q m c w.history.length, .pump q] } := by
    simp only [exec, pump, hnext]
  obtain ⟨w₁, hs₁, ht₁, hbus₁, hhistory₁⟩ := step_thread ht
  rw [hexec] at ht₁ hbus₁ hhistory₁
  obtain ⟨w₂, hs₂, ht₂, hbus₂, hhistory₂⟩ := step_thread (w := w₁) (n := n)
    (i := .wrap q m c w.history.length) ht₁
  refine ⟨w₁, w₂, hs₁, hs₂, ht₂, hbus₂.trans hbus₁, ?_⟩
  have htrail : w₂.trail q = .handed m c (w₁.bus.deliveryCount m.ref) ::
      .delivered m c w.history.length :: w.trail q := by
    simp [trail, hhistory₂, exec, record, hhistory₁, deliver, withBus, wrap, Event.onQueue]
  simp [htrail, delivered]

theorem pump_leaves {w : World} {n : Nat} {q : QueueRef} {rest : List Instr}
    (ht : w.threads[n]? = some (.pump q :: rest))
    (hnext : ∀ d Q, (w.bus.queue q).next ≠ (.found d, Q)) :
    ∃ w', w.step (.run n) = some w' ∧ (w'.threads[n]? = some rest ∨ w'.threads[n]? = some []) ∧
      delivered (w'.trail q) = delivered (w.trail q) := by
  obtain ⟨w', hs, ht', -, hhistory⟩ := step_thread ht
  refine ⟨w', hs, ?_⟩
  generalize hex : w.exec (.pump q) = o at ht' hhistory
  have h := executes w (.pump q)
  rw [hex] at h
  cases h with
  | pumpFound hfound => exact absurd hfound (hnext _ _)
  | pumpNobody =>
    refine ⟨.inl ht', ?_⟩
    rw [trail, hhistory]
    rfl
  | pumpThrew =>
    refine ⟨.inr ht', ?_⟩
    rw [trail, hhistory]
    rfl

/-- **The loop ends.** A `Pump` that runs alone is over after at most one delivery for each distinct
free consumer. -/
theorem pump_alone {w : World} (h : Reach busMachine w) {n : Nat} {q : QueueRef}
    {rest : List Instr} (ht : w.threads[n]? = some (.pump q :: rest)) :
    ∃ k ≤ (w.bus.queue q).freeConsumers.card, ∃ w', w.alone n (2 * k + 1) = some w' ∧
      (w'.threads[n]? = some rest ∨ w'.threads[n]? = some []) ∧
      delivered (w'.trail q) = delivered (w.trail q) + k := by
  induction hfree : (w.bus.queue q).freeConsumers.card using Nat.strong_induction_on
    generalizing w with
  | _ free ih =>
    by_cases hnext : ∃ d Q, (w.bus.queue q).next = (.found d, Q)
    · obtain ⟨⟨m, c⟩, Q, hnext⟩ := hnext
      obtain ⟨w₁, w₂, hs₁, hs₂, ht₂, hbus₂, htrail₂⟩ := pump_round ht hnext
      have h₂ : Reach busMachine w₂ := .step (.step h trivial hs₁) trivial hs₂
      have hcard : (w₂.bus.queue q).freeConsumers.card + 1 = free := by
        rw [hbus₂, free_deliver h hnext, hfree]
      obtain ⟨k, hk, w', halone, ht', htrail⟩ := ih _ (by omega) h₂ ht₂ rfl
      refine ⟨k + 1, by omega, w', ?_, ht', by omega⟩
      have hsteps : 2 * (k + 1) + 1 = 2 * k + 1 + 1 + 1 := by omega
      rw [hsteps, alone, hs₁, Option.bind_some, alone, hs₂, Option.bind_some]
      exact halone
    · push Not at hnext
      obtain ⟨w', hs, ht', htrail⟩ := pump_leaves ht hnext
      refine ⟨0, Nat.zero_le _, w', ?_, ht', htrail⟩
      rw [Nat.mul_zero, alone, hs]
      rfl

/-! ## The invariant -/

/-- **Prefetch 1**, on every queue of every reachable state, and the bound on the loop of `Pump`
that rests on it. -/
theorem prefetch_one {w : World} (h : Reach busMachine w) (q : QueueRef) :
    (∀ m c, (w.bus.queue q).inflight.lookup m = some c → c ∈ (w.bus.queue q).consumers) ∧
    (∀ m m' c, (w.bus.queue q).inflight.lookup m = some c →
      (w.bus.queue q).inflight.lookup m' = some c → m = m') ∧
    ∀ n rest, w.threads[n]? = some (.pump q :: rest) →
      ∃ k ≤ (w.bus.queue q).freeConsumers.card, ∃ w', w.alone n (2 * k + 1) = some w' ∧
        (w'.threads[n]? = some rest ∨ w'.threads[n]? = some []) ∧
        delivered (w'.trail q) = delivered (w.trail q) + k := by
  have hprefetch := Lane.prefetch (lane_reach h q)
  refine ⟨hprefetch.attached, hprefetch.single, ?_⟩
  intro n rest ht
  exact pump_alone h ht

/-- Two consumers, two messages, and a `Pump` about to run. -/
def twoFree : List Label :=
  [.call (.publish "t" "a" none none), .run 0, .call (.publish "t" "b" none none), .run 1,
    .call (.subscribe "t" ⟨0⟩ { streamReplay := true, subscriberId := some "s" }), .run 2,
    .call (.subscribe "t" ⟨1⟩ { subscriberId := some "s" }), .run 3]

theorem prefetch_one_free : ∃ k ≤ 2, ∃ w', (play {} twoFree).alone 2 (2 * k + 1) = some w' ∧
    (w'.threads[2]? = some [.returnSubscription 0 ⟨0⟩] ∨ w'.threads[2]? = some []) ∧
    delivered (w'.trail 0) = delivered ((play {} twoFree).trail 0) + k :=
  (prefetch_one (reach_play twoFree) 0).2.2 2 _ rfl

end World

end MessagingPoc
