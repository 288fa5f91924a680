import MessagingPoc.InMemory.Bus
import MessagingPoc.InMemory.Selection

/-!
# One queue on its own

A *lane* is what the bus is for a single queue: the queue, the retry timers it waits for, the
handlers it still has to start, and the record of what happened on it. Its steps are the only
things that can happen to a queue, whatever the rest of the bus does (`LaneStep`).

The record determines where each message is (`place`), how often it was delivered (`deliveries`)
and which consumers are attached (`attachedIn`); statements about whole runs are read off it.
-/

namespace MessagingPoc

/-! ## Reading a record -/

/-- Where a message is in the life of one queue. -/
inductive Place
  | absent
  | pending
  /-- In flight to `c`, by delivery `d`. -/
  | inflight (c : AckHandler) (d : Nat)
  | parked
  | acked
  | dead
  | expired
deriving DecidableEq

/-- A message that has left the queue for good. -/
def Place.final (p : Place) : Prop := p = .acked ∨ p = .dead ∨ p = .expired

/-- A message still to be settled. -/
def Place.live (p : Place) : Prop :=
  p = .pending ∨ (∃ c d, p = .inflight c d) ∨ p = .parked

/-- A message that is somewhere has left for good or is still to be settled. -/
theorem Place.final_or_live {p : Place} (h : p ≠ .absent) : p.final ∨ p.live := by
  cases p <;> simp_all [final, live]

/-- The consumer that holds the message. -/
def Place.owner : Place → Option AckHandler
  | .inflight c _ => some c
  | _ => none

/-- The message an event moves, and where to. -/
def QueueEvent.moves : QueueEvent → Option (BusMessage × Place)
  | .arrived m _ | .requeued m | .unparked m | .returned m => some (m, .pending)
  | .delivered m c d => some (m, .inflight c d)
  | .parked m => some (m, .parked)
  | .acked m => some (m, .acked)
  | .dead m => some (m, .dead)
  | .expired m => some (m, .expired)
  | .attached _ | .detached _ | .handed .. => none

/-- Where its last move took a message. -/
def place (m : BusMessage) : List QueueEvent → Place
  | [] => .absent
  | e :: older =>
    match e.moves with
    | some (x, p) => if x = m then p else place m older
    | none => place m older

/-- How often a message was put in flight. -/
def deliveries (m : BusMessage) : List QueueEvent → Nat
  | [] => 0
  | .delivered x _ _ :: older => deliveries m older + if x = m then 1 else 0
  | _ :: older => deliveries m older

/-- How often a message was handed to a handler. -/
def handings (m : BusMessage) : List QueueEvent → Nat
  | [] => 0
  | .handed x _ _ :: older => handings m older + if x = m then 1 else 0
  | _ :: older => handings m older

/-- The attached consumers, the earliest first. -/
def attachedIn : List QueueEvent → List AckHandler
  | [] => []
  | .attached c :: older => attachedIn older ++ [c]
  | .detached c :: older => (attachedIn older).erase c
  | _ :: older => attachedIn older

/-- The record of a disposal that puts `ms` back. -/
def detachTrail (c : AckHandler) (ms : List BusMessage) (older : List QueueEvent) :
    List QueueEvent :=
  (ms.map .returned).reverse ++ .detached c :: older

/-! ## The lane machine -/

@[ext] structure Lane where
  queue : BusQueue
  /-- How many retry timers, armed, elapsed or about to be armed, will put a message back. -/
  parked : BusMessage → Nat
  /-- How many deliveries of a message were booked whose handler has not been started yet. -/
  building : BusMessage → Nat
  trail : List QueueEvent

namespace Lane

/-- Record an event that leaves the queue as `Q`. -/
def note (L : Lane) (Q : BusQueue) (e : QueueEvent) : Lane :=
  { L with queue := Q, trail := e :: L.trail }

/-- The queue once `m` is out of flight. -/
def released (L : Lane) (m : BusMessage) : BusQueue :=
  { L.queue with inflight := L.queue.inflight.erase m }

end Lane

namespace BusQueue

/-- The queue with `m` at the end of `Pending`. -/
def push (Q : BusQueue) (m : BusMessage) : BusQueue :=
  { Q with pending := PendingQueue.enqueue Q.pending m }

/-- The queue with `m` in flight to `c`. -/
def book (Q : BusQueue) (m : BusMessage) (c : AckHandler) : BusQueue :=
  { Q with inflight := Q.inflight.insert m c }

end BusQueue

inductive LaneAct
  | arrive (m : BusMessage) (entry : Nat)
  | attach (c : AckHandler)
  | detach (c : AckHandler)
  | scan
  | deliver (m : BusMessage) (c : AckHandler) (d : Nat)
  | hand (m : BusMessage) (c : AckHandler) (count : Int32)
  | ack (m : BusMessage)
  | dead (m : BusMessage)
  | requeue (m : BusMessage)
  | park (m : BusMessage)
  | unpark (m : BusMessage)
  | expire (m : BusMessage)

/-- Everything that can happen to a queue. -/
inductive LaneStep : Lane → LaneAct → Lane → Prop
  /-- Arrivals are new objects, and follow the order of the topic's log. -/
  | arrive {L : Lane} {m : BusMessage} {entry : Nat}
      (fresh : ∀ x e, .arrived x e ∈ L.trail → x.ref < m.ref ∧ e < entry) :
      LaneStep L (.arrive m entry) (L.note (L.queue.push m) (.arrived m entry))
  | attach {L : Lane} {c : AckHandler} :
      LaneStep L (.attach c)
        (L.note { L.queue with consumers := L.queue.consumers ++ [c] } (.attached c))
  | detach {L : Lane} {c : AckHandler} :
      LaneStep L (.detach c) { L with
        queue := L.queue.detach c
        trail := detachTrail c (L.queue.heldBy c) L.trail }
  | scan {L : Lane} {Q : BusQueue} (h : L.queue.Scanned Q) :
      LaneStep L .scan { L with queue := Q }
  | deliver {L : Lane} {Q : BusQueue} {m : BusMessage} {c : AckHandler} {d : Nat}
      (h : L.queue.Chosen m c Q)
      (later : ∀ x c' d', .delivered x c' d' ∈ L.trail → d' < d) :
      LaneStep L (.deliver m c d)
        { L.note (Q.book m c) (.delivered m c d) with
          building := Function.update L.building m (L.building m + 1) }
  | hand {L : Lane} {m : BusMessage} {c : AckHandler} {count : Int32}
      (h : 0 < L.building m) :
      LaneStep L (.hand m c count)
        { L.note L.queue (.handed m c count) with
          building := Function.update L.building m (L.building m - 1) }
  | ack {L : Lane} {m : BusMessage} {c : AckHandler}
      (h : L.queue.inflight.lookup m = some c) :
      LaneStep L (.ack m) (L.note (L.released m) (.acked m))
  | dead {L : Lane} {m : BusMessage} {c : AckHandler}
      (h : L.queue.inflight.lookup m = some c) :
      LaneStep L (.dead m) (L.note (L.released m) (.dead m))
  | requeue {L : Lane} {m : BusMessage} {c : AckHandler}
      (h : L.queue.inflight.lookup m = some c)
      (budget : Int32.ofNat (deliveries m L.trail) < L.queue.maxDeliveries) :
      LaneStep L (.requeue m) (L.note ((L.released m).push m) (.requeued m))
  | park {L : Lane} {m : BusMessage} {c : AckHandler}
      (h : L.queue.inflight.lookup m = some c)
      (budget : Int32.ofNat (deliveries m L.trail) < L.queue.maxDeliveries) :
      LaneStep L (.park m)
        { L.note (L.released m) (.parked m) with
          parked := Function.update L.parked m (L.parked m + 1) }
  | unpark {L : Lane} {m : BusMessage} (h : 0 < L.parked m) :
      LaneStep L (.unpark m)
        { L.note (L.queue.push m) (.unparked m) with
          parked := Function.update L.parked m (L.parked m - 1) }
  | expirePending {L : Lane} {m : BusMessage} (h : m ∈ L.queue.pending) :
      LaneStep L (.expire m)
        (L.note { L.queue with pending := L.queue.pending.erase m } (.expired m))
  | expireInflight {L : Lane} {m : BusMessage} {c : AckHandler}
      (h : L.queue.inflight.lookup m = some c) :
      LaneStep L (.expire m) (L.note (L.released m) (.expired m))

/-- A queue nothing has happened on yet, whatever its options. -/
structure Lane.New (L : Lane) : Prop where
  pending : L.queue.pending = []
  inflight : L.queue.inflight = ∅
  consumers : L.queue.consumers = []
  groupAffinity : L.queue.groupAffinity = fun _ => none
  parked : L.parked = fun _ => 0
  building : L.building = fun _ => 0
  trail : L.trail = []

/-- One queue under everything that can happen to it. -/
def laneMachine : Machine.System Lane LaneAct where
  init := Lane.New
  step := LaneStep

/-! ## Record lemmas -/

/-- Putting messages back adds nothing to what ignores such entries. -/
theorem fold_returned {α : Type*} (f : List QueueEvent → α)
    (h : ∀ m t, f (.returned m :: t) = f t) (ms : List BusMessage) (t : List QueueEvent) :
    f ((ms.map .returned).reverse ++ t) = f t := by
  induction ms generalizing t with
  | nil => rfl
  | cons m ms ih =>
    rw [List.map_cons, List.reverse_cons, List.append_assoc, List.singleton_append, ih, h]

theorem fold_detachTrail {α : Type*} (f : List QueueEvent → α)
    (h : ∀ m t, f (.returned m :: t) = f t) (c : AckHandler) (ms : List BusMessage)
    (t : List QueueEvent) : f (detachTrail c ms t) = f (.detached c :: t) :=
  fold_returned f h ms _

theorem deliveries_detachTrail (m : BusMessage) (c : AckHandler) (ms : List BusMessage)
    (t : List QueueEvent) : deliveries m (detachTrail c ms t) = deliveries m t :=
  fold_detachTrail (deliveries m) (fun _ _ => rfl) c ms t

theorem handings_detachTrail (m : BusMessage) (c : AckHandler) (ms : List BusMessage)
    (t : List QueueEvent) : handings m (detachTrail c ms t) = handings m t :=
  fold_detachTrail (handings m) (fun _ _ => rfl) c ms t

theorem attachedIn_detachTrail (c : AckHandler) (ms : List BusMessage) (t : List QueueEvent) :
    attachedIn (detachTrail c ms t) = (attachedIn t).erase c :=
  fold_detachTrail attachedIn (fun _ _ => rfl) c ms t

theorem place_cons_of_moves {e : QueueEvent} {x : BusMessage} {p : Place}
    (h : e.moves = some (x, p)) (m : BusMessage) (t : List QueueEvent) :
    place m (e :: t) = if x = m then p else place m t := by
  simp [place, h]

theorem place_cons_of_still {e : QueueEvent} (h : e.moves = none) (m : BusMessage)
    (t : List QueueEvent) : place m (e :: t) = place m t := by
  simp [place, h]

/-- No event takes a message to nowhere. -/
theorem moves_ne_absent {e : QueueEvent} {m : BusMessage} {p : Place}
    (h : e.moves = some (m, p)) : p ≠ .absent := by
  cases e <;> simp [QueueEvent.moves] at h <;> simp [← h.2]

theorem place_ne_absent {e : QueueEvent} {m : BusMessage} {p : Place} {t : List QueueEvent}
    (he : e ∈ t) (h : e.moves = some (m, p)) : place m t ≠ .absent := by
  induction t with
  | nil => simp at he
  | cons e' t ih =>
    cases hmoves : e'.moves with
    | none =>
      rw [place_cons_of_still hmoves]
      rcases List.mem_cons.mp he with rfl | he
      · simp [h] at hmoves
      · exact ih he
    | some xp =>
      rw [place_cons_of_moves hmoves]
      split_ifs with hx
      · exact moves_ne_absent hmoves
      · rcases List.mem_cons.mp he with rfl | he
        · simp only [h, Option.some.injEq] at hmoves
          exact absurd (by rw [← hmoves]) hx
        · exact ih he

theorem exists_moves_of_place {m : BusMessage} {p : Place} {t : List QueueEvent}
    (h : place m t = p) (hp : p ≠ .absent) : ∃ e ∈ t, e.moves = some (m, p) := by
  induction t with
  | nil => exact absurd h.symm hp
  | cons e t ih =>
    cases hmoves : e.moves with
    | none =>
      rw [place_cons_of_still hmoves] at h
      obtain ⟨e', he', hm⟩ := ih h
      exact ⟨e', List.mem_cons_of_mem e he', hm⟩
    | some xp =>
      rw [place_cons_of_moves hmoves] at h
      split_ifs at h with hx
      · exact ⟨e, List.mem_cons_self, by rw [hmoves, ← hx, ← h]⟩
      · obtain ⟨e', he', hm⟩ := ih h
        exact ⟨e', List.mem_cons_of_mem e he', hm⟩

theorem deliveries_pos {m : BusMessage} {t : List QueueEvent} :
    0 < deliveries m t ↔ ∃ c d, .delivered m c d ∈ t := by
  induction t with
  | nil => simp [deliveries]
  | cons e t ih =>
    cases e with
    | delivered x c d =>
      by_cases hx : x = m
      · subst hx
        simp only [deliveries, if_true]
        exact ⟨fun _ => ⟨c, d, List.mem_cons_self⟩, fun _ => Nat.succ_pos _⟩
      · simp only [deliveries, if_neg hx, Nat.add_zero, List.mem_cons, QueueEvent.delivered.injEq]
        rw [ih]
        simp [Ne.symm hx]
    | _ => simpa [deliveries] using ih

theorem handings_pos {m : BusMessage} {t : List QueueEvent} :
    0 < handings m t ↔ ∃ c n, .handed m c n ∈ t := by
  induction t with
  | nil => simp [handings]
  | cons e t ih =>
    cases e with
    | handed x c n =>
      by_cases hx : x = m
      · subst hx
        simp only [handings, if_true]
        exact ⟨fun _ => ⟨c, n, List.mem_cons_self⟩, fun _ => Nat.succ_pos _⟩
      · simp only [handings, if_neg hx, Nat.add_zero, List.mem_cons, QueueEvent.handed.injEq]
        rw [ih]
        simp [Ne.symm hx]
    | _ => simpa [handings] using ih

theorem place_detachTrail (m : BusMessage) (c : AckHandler) (ms : List BusMessage)
    (t : List QueueEvent) :
    place m (detachTrail c ms t) = if m ∈ ms then .pending else place m t := by
  have hreturned : ∀ (ms : List BusMessage) (t : List QueueEvent),
      place m ((ms.map .returned).reverse ++ t) = if m ∈ ms then .pending else place m t := by
    intro ms
    induction ms with
    | nil => simp
    | cons x ms ih =>
      intro t
      rw [List.map_cons, List.reverse_cons, List.append_assoc, List.singleton_append, ih,
        place_cons_of_moves rfl]
      by_cases hm : m ∈ ms
      · simp [hm]
      · simp [hm, eq_comm]
  rw [detachTrail, hreturned, place_cons_of_still rfl]

theorem mem_detachTrail {e : QueueEvent} {c : AckHandler} {ms : List BusMessage}
    {t : List QueueEvent} :
    e ∈ detachTrail c ms t ↔ (∃ m ∈ ms, e = .returned m) ∨ e = .detached c ∨ e ∈ t := by
  simp only [detachTrail, List.mem_append, List.mem_reverse, List.mem_map, List.mem_cons]
  constructor
  · rintro (⟨m, hm, rfl⟩ | h)
    · exact .inl ⟨m, hm, rfl⟩
    · exact .inr h
  · rintro (⟨m, hm, rfl⟩ | h)
    · exact .inl ⟨m, hm, rfl⟩
    · exact .inr h

/-! ## What a step leaves alone -/

/-- The options of a queue never change. -/
theorem LaneStep.frame {L L' : Lane} {a : LaneAct} (h : LaneStep L a L') :
    L'.queue = { L.queue with
      pending := L'.queue.pending, inflight := L'.queue.inflight,
      consumers := L'.queue.consumers, groupAffinity := L'.queue.groupAffinity,
      rr := L'.queue.rr } := by
  cases h with
  | scan h => rw [h.frame]
  | @deliver Q m c _ h =>
    show Q.book m c = { L.queue with
      pending := Q.pending, inflight := Q.inflight.insert m c, consumers := Q.consumers,
      groupAffinity := Q.groupAffinity, rr := Q.rr }
    rw [BusQueue.book]
    conv_lhs => rw [h.frame]
    conv_rhs => rw [h.frame]
  | detach =>
    simp only [BusQueue.detach_eq]
  | _ => rfl

/-- A consumer stays attached until it is detached. -/
theorem LaneStep.consumer_stays {L L' : Lane} {a : LaneAct} (h : LaneStep L a L') {c : AckHandler}
    (hc : c ∈ L.queue.consumers) (hne : a ≠ .detach c) : c ∈ L'.queue.consumers := by
  cases h with
  | attach => exact List.mem_append_left _ hc
  | @detach c' =>
    rw [BusQueue.detach_eq]
    refine (List.mem_erase_of_ne ?_).mpr hc
    rintro rfl
    exact hne rfl
  | scan h =>
    rw [h.frame]
    exact hc
  | @deliver Q m c' d h =>
    show c ∈ Q.consumers
    rw [h.frame]
    exact hc
  | _ => exact hc

/-- The first consumer stays first until it is detached. -/
theorem LaneStep.head_stays {L L' : Lane} {a : LaneAct} (h : LaneStep L a L') {c : AckHandler}
    (hc : L.queue.consumers.head? = some c) (hne : a ≠ .detach c) :
    L'.queue.consumers.head? = some c := by
  cases h with
  | attach =>
    show (L.queue.consumers ++ _).head? = some c
    rw [List.head?_append, hc]
    rfl
  | @detach c' =>
    rw [BusQueue.detach_eq]
    cases hcons : L.queue.consumers with
    | nil => simp [hcons] at hc
    | cons x xs =>
      obtain rfl : x = c := by simpa [hcons] using hc
      have hx : x ≠ c' := fun heq => hne (by rw [heq])
      show ((x :: xs).erase c').head? = some x
      rw [List.erase_cons_tail (by simpa using hx)]
      rfl
  | scan h =>
    rw [h.frame]
    exact hc
  | @deliver Q m c' d h =>
    show Q.consumers.head? = some c
    rw [h.frame]
    exact hc
  | _ => exact hc

/-- A message in flight after a step was given by the step to a free consumer, or it was in flight
already and its consumer has not been detached. -/
theorem LaneStep.lookup {L L' : Lane} {a : LaneAct} (h : LaneStep L a L') {m : BusMessage}
    {c : AckHandler} (hl : L'.queue.inflight.lookup m = some c) :
    (∃ d, a = .deliver m c d ∧ c ∈ L.queue.consumers ∧ c ∉ L.queue.owners) ∨
      (L.queue.inflight.lookup m = some c ∧ a ≠ .detach c ∧ ∀ x d, a ≠ .deliver x c d) := by
  have herase : ∀ x, (L.queue.inflight.erase x).lookup m = some c →
      L.queue.inflight.lookup m = some c := by
    intro x hx
    by_cases hxm : m = x
    · subst hxm
      simp at hx
    · rwa [AList.lookup_erase_ne hxm] at hx
  cases h with
  | @deliver Q x c' d h =>
    have hin : Q.inflight = L.queue.inflight := by rw [h.frame]
    simp only [Lane.note, BusQueue.book] at hl
    by_cases hxm : m = x
    · subst hxm
      obtain rfl : c' = c := by simpa using hl
      exact .inl ⟨d, rfl, h.attached, h.free⟩
    · rw [AList.lookup_insert_ne hxm, hin] at hl
      refine .inr ⟨hl, by simp, fun y d' heq => h.free (BusQueue.mem_owners.mpr ⟨m, ?_⟩)⟩
      simp only [LaneAct.deliver.injEq] at heq
      rw [heq.2.1, hl]
  | @detach c' =>
    simp only [BusQueue.lookup_detach] at hl
    split_ifs at hl with hc'
    refine .inr ⟨hl, ?_, by simp⟩
    rintro h
    simp only [LaneAct.detach.injEq] at h
    exact hc' (h ▸ hl)
  | @scan Q h =>
    have hin : Q.inflight = L.queue.inflight := by rw [h.frame]
    exact .inr ⟨hin ▸ hl, by simp, by simp⟩
  | ack | dead | requeue | park | expireInflight => exact .inr ⟨herase _ hl, by simp, by simp⟩
  | _ => exact .inr ⟨hl, by simp, by simp⟩

theorem LaneStep.deliveries {L L' : Lane} {a : LaneAct} (h : LaneStep L a L')
    (ha : ∀ m c d, a ≠ .deliver m c d) (m : BusMessage) :
    MessagingPoc.deliveries m L'.trail = MessagingPoc.deliveries m L.trail := by
  cases h with
  | detach => exact deliveries_detachTrail ..
  | deliver => exact absurd rfl (ha _ _ _)
  | _ => rfl

theorem LaneStep.mem_delivered {L L' : Lane} {a : LaneAct} (h : LaneStep L a L') {m : BusMessage}
    {c : AckHandler} {d : Nat} (hd : .delivered m c d ∈ L'.trail) :
    .delivered m c d ∈ L.trail ∨ a = .deliver m c d := by
  cases h with
  | deliver =>
    rcases List.mem_cons.mp hd with heq | hd
    · simp only [QueueEvent.delivered.injEq] at heq
      obtain ⟨rfl, rfl, rfl⟩ := heq
      exact .inr rfl
    · exact .inl hd
  | detach => exact .inl (by simpa [mem_detachTrail] using hd)
  | scan => exact .inl hd
  | _ => exact .inl ((List.mem_cons.mp hd).resolve_left (by simp))

theorem LaneStep.mem_arrived {L L' : Lane} {a : LaneAct} (h : LaneStep L a L') {m : BusMessage}
    {entry : Nat} (hm : .arrived m entry ∈ L'.trail) :
    .arrived m entry ∈ L.trail ∨ a = .arrive m entry := by
  cases h with
  | arrive =>
    rcases List.mem_cons.mp hm with heq | hm
    · simp only [QueueEvent.arrived.injEq] at heq
      obtain ⟨rfl, rfl⟩ := heq
      exact .inr rfl
    · exact .inl hm
  | detach => exact .inl (by simpa [mem_detachTrail] using hm)
  | scan => exact .inl hm
  | _ => exact .inl ((List.mem_cons.mp hm).resolve_left (by simp))

theorem LaneStep.trail_suffix {L L' : Lane} {a : LaneAct} (h : LaneStep L a L') :
    L.trail <:+ L'.trail := by
  cases h with
  | detach => exact (List.suffix_cons _ _).trans (List.suffix_append _ _)
  | scan => exact List.suffix_refl _
  | _ => exact List.suffix_cons _ _

end MessagingPoc
