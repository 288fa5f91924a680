import MessagingPoc.InMemory.Queue
import MessagingPoc.Lib.Machine

/-!
# The range of the round-robin counter

`NextConsumer` and `PickFreeConsumer` read `Consumers[_rr % Consumers.Count]`. `_rr` is an `int`:
after 2³¹ visits it is negative, and so is its remainder, unless it is zero. The index is out of
range then, and the counter stays where it is.

`round_robin_iff` says for which counters a call is right, `right_always_iff` lists those for which
it is whoever is busy, and `throws_again` says what follows an error. While one consumer is attached
the counter goes through all of its values (`exists_counter`).
-/

namespace MessagingPoc.BusQueue

open Machine RoundRobin

/-! ## One call -/

theorem right_nextConsumer {Q : BusQueue} (h : Q.singleActiveConsumer = false) :
    Right Q.nextConsumer.1 Q.consumers Q.owners ↔ InRange Q.consumers Q.owners Q.rr := by
  unfold nextConsumer
  cases hconsumers : Q.consumers with
  | nil => simp [Right, InRange]
  | cons active rest =>
    simp only [h, Bool.false_eq_true, if_false, ← hconsumers]
    exact right_scan

/-- **Both selections are right exactly if the counter stays in range**: they index within the
list, and return a free consumer if and only if one is attached. -/
theorem round_robin_iff (Q : BusQueue) (busy : List AckHandler) :
    (Right (Q.pickFreeConsumer busy).1 Q.consumers busy ↔ InRange Q.consumers busy Q.rr) ∧
    (Q.singleActiveConsumer = false →
      (Right Q.nextConsumer.1 Q.consumers Q.owners ↔ InRange Q.consumers Q.owners Q.rr)) :=
  ⟨right_scan, right_nextConsumer⟩

/-- An idle queue with consumers of its own. -/
def idle (consumers : List AckHandler) (rr : Int32) : BusQueue where
  topic := "t"
  kind := .topic
  routingKey := none
  maxDeliveries := 3
  deadLetter := false
  retryDelayMs := none
  partitionByGroup := false
  singleActiveConsumer := false
  consumers := consumers
  rr := rr

/-- The counter has just wrapped, to a multiple of the length. -/
theorem round_robin_iff_wrapped :
    Right (idle [⟨0⟩, ⟨1⟩] (-2147483648)).nextConsumer.1 [⟨0⟩, ⟨1⟩] [] :=
  ((round_robin_iff (idle [⟨0⟩, ⟨1⟩] (-2147483648)) []).2 rfl).mpr (by decide)

/-- **The counters that are right whoever is busy.** -/
theorem right_always_iff (Q : BusQueue) :
    (∀ busy, Right (Q.pickFreeConsumer busy).1 Q.consumers busy) ↔
      Q.consumers.length ≤ 1 ∨ 0 ≤ Q.rr.toInt ∧
        (Q.rr.toInt + Q.consumers.length ≤ 2 ^ 31 ∨
          Q.rr.toInt + Q.consumers.length = 2 ^ 31 + 1 ∧ (Q.consumers.length : Int) ∣ 2 ^ 31) := by
  rw [← inRange_always_iff]
  exact forall_congr' fun busy => right_scan

/-- **An error repeats itself**: with the same consumers the next call throws as well, whoever has
become free. -/
theorem throws_again {Q Q' : BusQueue} {busy : List AckHandler}
    (h : Q.pickFreeConsumer busy = (.threw, Q')) (busy' : List AckHandler) :
    Q'.pickFreeConsumer busy' = (.threw, Q') := by
  rcases hscan : scan Q.consumers busy Q.consumers.length Q.rr with ⟨pick, rr⟩
  simp only [pickFreeConsumer, hscan, Prod.mk.injEq] at h
  obtain ⟨rfl, rfl⟩ := h
  have hslot := scan_threw hscan
  simp only [pickFreeConsumer]
  cases hlength : Q.consumers.length with
  | zero =>
    rw [hlength, scan] at hscan
    cases (Prod.mk.inj hscan).1
  | succ n => simp [scan, hslot]

/-! ## Runs -/

/-- What changes the consumers, who of them is busy, and the counter. -/
inductive Selection
  | attach (c : AckHandler)
  | detach (c : AckHandler)
  | deliver (m : BusMessage) (c : AckHandler)
  | settle (m : BusMessage)
  | pickFreeConsumer (busy : List AckHandler)
  | nextConsumer

def select (Q : BusQueue) : Selection → BusQueue
  | .attach c => { Q with consumers := Q.consumers ++ [c] }
  | .detach c => Q.detach c
  | .deliver m c => { Q with inflight := Q.inflight.insert m c }
  | .settle m => { Q with inflight := Q.inflight.erase m }
  | .pickFreeConsumer busy => (Q.pickFreeConsumer busy).2
  | .nextConsumer => Q.nextConsumer.2

/-- A queue under every interleaving of these. -/
def selecting : System BusQueue Selection where
  init Q := Q.consumers = [] ∧ Q.inflight = ∅ ∧ Q.rr = 0
  step Q l Q' := Q' = Q.select l

theorem pickFreeConsumer_single {Q : BusQueue} {c : AckHandler} (h : Q.consumers = [c]) :
    Q.pickFreeConsumer [] = (.found c, { Q with rr := Q.rr + 1 }) := by
  have hslot : slot Q.rr 1 = some 0 := by simp [slot]
  simp [pickFreeConsumer, h, scan, hslot]

/-- **The counter comes to each of its values.** -/
theorem exists_counter (c : AckHandler) (rr : Int32) : Reach selecting (idle [c] rr) := by
  have hcount : ∀ k : Nat, Reach selecting (idle [c] (.ofNat k)) := by
    intro k
    induction k with
    | zero =>
      have hempty : Reach selecting (idle [] 0) := .init ⟨rfl, rfl, rfl⟩
      exact hempty.step (l := .attach c) trivial rfl
    | succ k ih =>
      refine ih.step (l := .pickFreeConsumer []) trivial ?_
      show _ = ((idle [c] (.ofNat k)).pickFreeConsumer []).2
      rw [pickFreeConsumer_single rfl, Int32.ofNat_add]
      rfl
  have hrr : Int32.ofNat rr.toBitVec.toNat = rr := by
    rw [Int32.ofNat_bitVecToNat]
    rfl
  exact hrr ▸ hcount _

theorem exists_counter_pair (c d : AckHandler) (rr : Int32) :
    Reach selecting (idle [c, d] rr) :=
  (exists_counter c rr).step (l := .attach d) trivial rfl

/-- **Two free consumers, and the call throws.** -/
theorem negative_counter_throws :
    (¬ ∀ Q, Reach selecting Q → ∀ busy, Right (Q.pickFreeConsumer busy).1 Q.consumers busy) ∧
    ¬ ∀ Q, Reach selecting Q → Q.singleActiveConsumer = false →
      Right Q.nextConsumer.1 Q.consumers Q.owners := by
  constructor
  · intro hclaim
    have hright := hclaim _ (exists_counter_pair ⟨0⟩ ⟨1⟩ (-2147483647)) []
    exact hright.1 (by decide)
  · intro hclaim
    have hright := hclaim _ (exists_counter_pair ⟨0⟩ ⟨1⟩ (-2147483647)) rfl
    exact hright.1 (by decide)

end MessagingPoc.BusQueue
