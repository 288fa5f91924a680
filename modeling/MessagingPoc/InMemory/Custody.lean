import MessagingPoc.InMemory.Lane

/-!
# Every message in exactly one place

The invariants every lane keeps, whatever happens to it.

* `Located` — the record and the queue agree on where each message is, so it is in one place only.
* `Prefetch` — a message in flight is owned by an attached consumer, which owns no other.
* the consumers are those the record says are attached; every handler started was owed a delivery;
  arrivals are recorded in log order.
-/

namespace MessagingPoc

namespace Lane

/-! ## Where a message is -/

/-- The queue and its timers hold a message where the record says it is. -/
structure Located (L : Lane) : Prop where
  pending : ∀ m, L.queue.pending.count m = if place m L.trail = .pending then 1 else 0
  inflight : ∀ m c, L.queue.inflight.lookup m = some c ↔ ∃ d, place m L.trail = .inflight c d
  parked : ∀ m, L.parked m = if place m L.trail = .parked then 1 else 0
  arrived : ∀ m, place m L.trail ≠ .absent → ∃ entry, .arrived m entry ∈ L.trail

namespace Located

variable {L L' : Lane} {m : BusMessage}

theorem mem_pending (h : L.Located) : m ∈ L.queue.pending ↔ place m L.trail = .pending := by
  rw [← List.count_pos_iff, h.pending]
  split_ifs with hp <;> simp [hp]

theorem parked_pos (h : L.Located) : 0 < L.parked m ↔ place m L.trail = .parked := by
  rw [h.parked]
  split_ifs with hp <;> simp [hp]

/-- A step that moves one message keeps the lane located when it puts that message where the
record says and leaves the others where they are. -/
theorem move (h : L.Located) {e : QueueEvent} {p : Place} (htrail : L'.trail = e :: L.trail)
    (he : e.moves = some (m, p))
    (there : L'.queue.pending.count m = (if p = .pending then 1 else 0) ∧
      L'.queue.inflight.lookup m = p.owner ∧ L'.parked m = if p = .parked then 1 else 0)
    (elsewhere : ∀ x, m ≠ x → L'.queue.pending.count x = L.queue.pending.count x ∧
      L'.queue.inflight.lookup x = L.queue.inflight.lookup x ∧ L'.parked x = L.parked x)
    (harrived : ∃ entry, .arrived m entry ∈ L'.trail) : L'.Located := by
  have hplace : ∀ x, place x L'.trail = if m = x then p else place x L.trail := fun x => by
    rw [htrail, place_cons_of_moves he]
  refine ⟨fun x => ?_, fun x c => ?_, fun x => ?_, fun x hx => ?_⟩ <;>
    by_cases hm : m = x
  · rw [hplace, if_pos hm, ← hm, there.1]
  · rw [hplace, if_neg hm, (elsewhere x hm).1, h.pending]
  · rw [hplace, if_pos hm, ← hm, there.2.1]
    cases p <;> simp [Place.owner]
  · rw [hplace, if_neg hm, (elsewhere x hm).2.1, h.inflight]
  · rw [hplace, if_pos hm, ← hm, there.2.2]
  · rw [hplace, if_neg hm, (elsewhere x hm).2.2, h.parked]
  · exact hm ▸ harrived
  · rw [hplace, if_neg hm] at hx
    obtain ⟨entry, hentry⟩ := h.arrived x hx
    exact ⟨entry, htrail ▸ List.mem_cons_of_mem e hentry⟩

/-- A step that moves no message keeps the lane located. -/
theorem still (h : L.Located) (hplace : ∀ x, place x L'.trail = place x L.trail)
    (hpending : L'.queue.pending = L.queue.pending)
    (hinflight : L'.queue.inflight = L.queue.inflight) (hparked : L'.parked = L.parked)
    (htrail : L.trail ⊆ L'.trail) : L'.Located := by
  refine ⟨fun x => ?_, fun x c => ?_, fun x => ?_, fun x hx => ?_⟩
  · rw [hpending, hplace, h.pending]
  · rw [hinflight, hplace, h.inflight]
  · rw [hparked, hplace, h.parked]
  · obtain ⟨entry, hentry⟩ := h.arrived x (hplace x ▸ hx)
    exact ⟨entry, htrail hentry⟩

theorem new (h : L.New) : L.Located := by
  refine ⟨fun x => ?_, fun x c => ?_, fun x => ?_, fun x hx => ?_⟩
  · simp [h.pending, h.trail, place]
  · simp [h.inflight, h.trail, place]
  · simp [h.parked, h.trail, place]
  · simp [h.trail, place] at hx

theorem elsewhere (h : L.Located) {p : Place} (hp : place m L.trail = p) :
    L.queue.pending.count m = (if p = .pending then 1 else 0) ∧
      L.queue.inflight.lookup m = p.owner ∧ L.parked m = if p = .parked then 1 else 0 := by
  refine ⟨hp ▸ h.pending m, ?_, hp ▸ h.parked m⟩
  cases hl : L.queue.inflight.lookup m with
  | some c =>
    obtain ⟨d, hd⟩ := (h.inflight m c).mp hl
    rw [← hp, hd, Place.owner]
  | none =>
    cases p with
    | inflight c d => simp [(h.inflight m c).mpr ⟨d, hp⟩] at hl
    | _ => rfl

theorem place_of_lookup (h : L.Located) {c : AckHandler}
    (hl : L.queue.inflight.lookup m = some c) : ∃ d, place m L.trail = .inflight c d :=
  (h.inflight m c).mp hl

theorem arrived_cons (h : L.Located) {p : Place} (hp : place m L.trail = p) (hne : p ≠ .absent)
    (e : QueueEvent) : ∃ entry, .arrived m entry ∈ e :: L.trail := by
  obtain ⟨entry, hentry⟩ := h.arrived m (hp ▸ hne)
  exact ⟨entry, List.mem_cons_of_mem e hentry⟩

/-! ### One lemma for each step -/

theorem arrive (h : L.Located) {entry : Nat}
    (fresh : ∀ x e, .arrived x e ∈ L.trail → x.ref < m.ref ∧ e < entry) :
    (L.note (L.queue.push m) (.arrived m entry)).Located := by
  have habsent : place m L.trail = .absent := by
    by_contra hne
    obtain ⟨e, he⟩ := h.arrived m hne
    exact absurd (fresh m e he).1 (lt_irrefl _)
  obtain ⟨hcount, hlookup, hparked⟩ := h.elsewhere habsent
  refine h.move rfl rfl ⟨?_, hlookup, hparked⟩ (fun x hx => ⟨?_, rfl, rfl⟩)
    ⟨entry, List.mem_cons_self⟩
  · simp [Lane.note, BusQueue.push, PendingQueue.enqueue, hcount]
  · simp [Lane.note, BusQueue.push, PendingQueue.enqueue, hx]

theorem deliver (h : L.Located) {Q : BusQueue} {c : AckHandler} {d : Nat}
    (hch : L.queue.Chosen m c Q) {building : BusMessage → Nat} :
    Located { L.note (Q.book m c) (.delivered m c d) with building := building } := by
  obtain ⟨before, after, hsplit, hrest, -⟩ := hch.split
  have hplace := h.mem_pending.mp (show m ∈ L.queue.pending by simp [hsplit])
  obtain ⟨hcount, -, hparked⟩ := h.elsewhere hplace
  refine h.move rfl rfl ⟨?_, ?_, hparked⟩ (fun x hx => ⟨?_, ?_, rfl⟩)
    (h.arrived_cons hplace (by simp) _)
  · show Q.pending.count m = 0
    rw [hsplit, List.count_append, List.count_cons_self, if_pos rfl] at hcount
    rw [hrest, List.count_append]
    omega
  · show (Q.inflight.insert m c).lookup m = some c
    rw [AList.lookup_insert]
  · show Q.pending.count x = L.queue.pending.count x
    rw [hrest, hsplit]
    simp [List.count_append, hx]
  · show (Q.inflight.insert m c).lookup x = _
    rw [Table.lookup_insert, if_neg hx, hch.frame]

/-- What is taken out of flight for good. -/
theorem release (h : L.Located) {c : AckHandler} (hl : L.queue.inflight.lookup m = some c)
    {e : QueueEvent} {p : Place} (he : e.moves = some (m, p)) (hp : p.final) :
    (L.note (L.released m) e).Located := by
  obtain ⟨d, hd⟩ := h.place_of_lookup hl
  obtain ⟨hcount, -, hparked⟩ := h.elsewhere hd
  have hnone : (L.queue.inflight.erase m).lookup m = none := AList.lookup_erase _ _
  refine h.move rfl he ?_ (fun x hx => ⟨rfl, ?_, rfl⟩) (h.arrived_cons hd (by simp) e)
  · rcases hp with rfl | rfl | rfl <;> exact ⟨hcount, hnone, hparked⟩
  · exact AList.lookup_erase_ne (Ne.symm hx)

theorem requeue (h : L.Located) {c : AckHandler} (hl : L.queue.inflight.lookup m = some c) :
    (L.note ((L.released m).push m) (.requeued m)).Located := by
  obtain ⟨d, hd⟩ := h.place_of_lookup hl
  obtain ⟨hcount, -, hparked⟩ := h.elsewhere hd
  refine h.move rfl rfl ⟨?_, AList.lookup_erase _ _, hparked⟩
    (fun x hx => ⟨?_, AList.lookup_erase_ne (Ne.symm hx), rfl⟩) (h.arrived_cons hd (by simp) _)
  · simp [Lane.note, Lane.released, BusQueue.push, PendingQueue.enqueue, hcount]
  · simp [Lane.note, Lane.released, BusQueue.push, PendingQueue.enqueue, hx]

theorem park (h : L.Located) {c : AckHandler} (hl : L.queue.inflight.lookup m = some c) :
    Located { L.note (L.released m) (.parked m) with
      parked := Function.update L.parked m (L.parked m + 1) } := by
  obtain ⟨d, hd⟩ := h.place_of_lookup hl
  obtain ⟨hcount, -, hparked⟩ := h.elsewhere hd
  refine h.move rfl rfl ⟨hcount, AList.lookup_erase _ _, ?_⟩
    (fun x hx => ⟨rfl, AList.lookup_erase_ne (Ne.symm hx), ?_⟩) (h.arrived_cons hd (by simp) _)
  · simp [hparked]
  · exact Function.update_of_ne (Ne.symm hx) _ _

theorem unpark (h : L.Located) (hpos : 0 < L.parked m) :
    Located { L.note (L.queue.push m) (.unparked m) with
      parked := Function.update L.parked m (L.parked m - 1) } := by
  have hplace := h.parked_pos.mp hpos
  obtain ⟨hcount, hlookup, hparked⟩ := h.elsewhere hplace
  refine h.move rfl rfl ⟨?_, hlookup, ?_⟩ (fun x hx => ⟨?_, rfl, ?_⟩)
    (h.arrived_cons hplace (by simp) _)
  · simp [Lane.note, BusQueue.push, PendingQueue.enqueue, hcount]
  · simp [hparked]
  · simp [Lane.note, BusQueue.push, PendingQueue.enqueue, hx]
  · exact Function.update_of_ne (Ne.symm hx) _ _

theorem expirePending (h : L.Located) (hmem : m ∈ L.queue.pending) :
    (L.note { L.queue with pending := L.queue.pending.erase m } (.expired m)).Located := by
  have hplace := h.mem_pending.mp hmem
  obtain ⟨hcount, hlookup, hparked⟩ := h.elsewhere hplace
  refine h.move rfl rfl ⟨?_, hlookup, hparked⟩ (fun x hx => ⟨?_, rfl, rfl⟩)
    (h.arrived_cons hplace (by simp) _)
  · show (L.queue.pending.erase m).count m = 0
    rw [List.count_erase_self, hcount]
    rfl
  · exact List.count_erase_of_ne (Ne.symm hx)

/-- A disposal puts what the consumer holds back at the front of `Pending`. -/
theorem detach (h : L.Located) (c : AckHandler) :
    Located { L with
      queue := L.queue.detach c, trail := detachTrail c (L.queue.heldBy c) L.trail } := by
  refine ⟨fun x => ?_, fun x c' => ?_, fun x => ?_, fun x hx => ?_⟩
  · show (L.queue.detach c).pending.count x = if place x (detachTrail _ _ _) = _ then _ else _
    rw [BusQueue.detach_eq, place_detachTrail, List.count_append, List.count_reverse, h.pending]
    by_cases hheld : x ∈ L.queue.heldBy c
    · obtain ⟨d, hd⟩ := (h.inflight x c).mp (BusQueue.mem_heldBy.mp hheld)
      rw [List.count_eq_one_of_mem (BusQueue.nodup_heldBy _ _) hheld, hd]
      simp [hheld]
    · rw [List.count_eq_zero_of_not_mem hheld]
      simp [hheld]
  · show (L.queue.detach c).inflight.lookup x = _ ↔ ∃ d, place x (detachTrail _ _ _) = _
    rw [BusQueue.lookup_detach, place_detachTrail]
    simp only [BusQueue.mem_heldBy]
    split_ifs
    · simp
    · exact h.inflight x c'
  · show L.parked x = if place x (detachTrail _ _ _) = _ then _ else _
    rw [h.parked, place_detachTrail]
    by_cases hheld : x ∈ L.queue.heldBy c
    · obtain ⟨d, hd⟩ := (h.inflight x c).mp (BusQueue.mem_heldBy.mp hheld)
      simp [hd, hheld]
    · simp [hheld]
  · have harrived : ∃ entry, .arrived x entry ∈ L.trail := by
      rw [place_detachTrail] at hx
      split_ifs at hx with hheld
      · obtain ⟨d, hd⟩ := h.place_of_lookup (BusQueue.mem_heldBy.mp hheld)
        exact h.arrived x (by simp [hd])
      · exact h.arrived x hx
    obtain ⟨entry, hentry⟩ := harrived
    exact ⟨entry, mem_detachTrail.mpr (.inr (.inr hentry))⟩

theorem step {a : LaneAct} (h : L.Located) (hs : LaneStep L a L') : L'.Located := by
  cases hs with
  | arrive fresh => exact h.arrive fresh
  | attach =>
    exact h.still (fun x => place_cons_of_still rfl x _) rfl rfl rfl (List.subset_cons_self _ _)
  | detach => exact h.detach _
  | scan hscan =>
    refine h.still (fun _ => rfl) ?_ ?_ rfl (List.Subset.refl _)
    · rw [hscan.frame]
    · rw [hscan.frame]
  | deliver hch => exact h.deliver hch
  | hand =>
    exact h.still (fun x => place_cons_of_still rfl x _) rfl rfl rfl (List.subset_cons_self _ _)
  | ack hl => exact h.release hl rfl (.inl rfl)
  | dead hl => exact h.release hl rfl (.inr (.inl rfl))
  | requeue hl => exact h.requeue hl
  | park hl => exact h.park hl
  | unpark hparked => exact h.unpark hparked
  | expirePending hmem => exact h.expirePending hmem
  | expireInflight hl => exact h.release hl rfl (.inr (.inr rfl))

end Located

/-- **A lane always holds a message where its record says, once.** -/
theorem located {L : Lane} (h : Machine.Reach laneMachine L) : L.Located :=
  h.invariant (fun _ => Located.new) fun _ _ _ _ ih _ hs => ih.step hs

/-! ## The moves of a message -/

/-- The moves an action makes with a message. -/
def Takes (m : BusMessage) (p p' : Place) : LaneAct → Prop
  | .arrive x _ => x = m ∧ p = .absent ∧ p' = .pending
  | .deliver x c d => x = m ∧ p = .pending ∧ p' = .inflight c d
  | .ack x => x = m ∧ (∃ c d, p = .inflight c d) ∧ p' = .acked
  | .dead x => x = m ∧ (∃ c d, p = .inflight c d) ∧ p' = .dead
  | .requeue x => x = m ∧ (∃ c d, p = .inflight c d) ∧ p' = .pending
  | .park x => x = m ∧ (∃ c d, p = .inflight c d) ∧ p' = .parked
  | .unpark x => x = m ∧ p = .parked ∧ p' = .pending
  | .expire x => x = m ∧ (p = .pending ∨ ∃ c d, p = .inflight c d) ∧ p' = .expired
  | .detach c => (∃ d, p = .inflight c d) ∧ p' = .pending
  | .attach _ | .scan | .hand .. => False

/-- **The life of a message.** A step leaves a message where it is, or makes one of its moves. -/
theorem Located.takes {L L' : Lane} (h : L.Located) {a : LaneAct} (hs : LaneStep L a L')
    (m : BusMessage) : place m L'.trail = place m L.trail ∨
      Takes m (place m L.trail) (place m L'.trail) a := by
  have hmove : ∀ {e : QueueEvent} {x : BusMessage} {p : Place}, e.moves = some (x, p) →
      (x = m → Takes m (place m L.trail) p a) →
      place m (e :: L.trail) = place m L.trail ∨
        Takes m (place m L.trail) (place m (e :: L.trail)) a := by
    intro e x p he htakes
    rw [place_cons_of_moves he]
    split_ifs with hx
    · exact .inr (htakes hx)
    · exact .inl rfl
  cases hs with
  | arrive fresh =>
    apply hmove rfl
    rintro rfl
    refine ⟨rfl, ?_, rfl⟩
    by_contra hne
    obtain ⟨e, he⟩ := h.arrived _ hne
    exact absurd (fresh _ e he).1 (lt_irrefl _)
  | deliver hch =>
    apply hmove rfl
    rintro rfl
    obtain ⟨before, after, hsplit, -⟩ := hch.split
    exact ⟨rfl, h.mem_pending.mp (by simp [hsplit]), rfl⟩
  | ack hl | dead hl | requeue hl | park hl =>
    apply hmove rfl
    rintro rfl
    exact ⟨rfl, ⟨_, h.place_of_lookup hl⟩, rfl⟩
  | unpark hpos =>
    apply hmove rfl
    rintro rfl
    exact ⟨rfl, h.parked_pos.mp hpos, rfl⟩
  | expirePending hmem =>
    apply hmove rfl
    rintro rfl
    exact ⟨rfl, .inl (h.mem_pending.mp hmem), rfl⟩
  | expireInflight hl =>
    apply hmove rfl
    rintro rfl
    exact ⟨rfl, .inr ⟨_, h.place_of_lookup hl⟩, rfl⟩
  | detach =>
    show place m (detachTrail _ _ _) = _ ∨ Takes m _ (place m (detachTrail _ _ _)) _
    rw [place_detachTrail]
    split_ifs with hheld
    · exact .inr ⟨h.place_of_lookup (BusQueue.mem_heldBy.mp hheld), rfl⟩
    · exact .inl rfl
  | attach | hand => exact .inl (place_cons_of_still rfl m _)
  | scan => exact .inl rfl

/-- A message that has left the queue stays away. -/
theorem Located.final_stays {L L' : Lane} (h : L.Located) {a : LaneAct} (hs : LaneStep L a L')
    {m : BusMessage} (hp : (place m L.trail).final) : place m L'.trail = place m L.trail := by
  rcases h.takes hs m with heq | htakes
  · exact heq
  · exfalso
    rcases hp with hp | hp | hp <;> rw [hp] at htakes <;> cases a <;> simp [Takes] at htakes

/-! ## Who holds what -/

/-- A message in flight is owned by an attached consumer, which owns no other. -/
structure Prefetch (L : Lane) : Prop where
  attached : ∀ m c, L.queue.inflight.lookup m = some c → c ∈ L.queue.consumers
  single : ∀ m m' c, L.queue.inflight.lookup m = some c → L.queue.inflight.lookup m' = some c →
    m = m'

theorem prefetch {L : Lane} (h : Machine.Reach laneMachine L) : L.Prefetch := by
  refine h.invariant (fun L hnew => ?_) fun L a L' _ ih _ hs => ?_
  · exact ⟨by simp [hnew.inflight], by simp [hnew.inflight]⟩
  · refine ⟨fun m c hl => ?_, fun m m' c hl hl' => ?_⟩
    · rcases hs.lookup hl with ⟨d, rfl, hc, -⟩ | ⟨hold, hne, -⟩
      · exact hs.consumer_stays hc (by simp)
      · exact hs.consumer_stays (ih.attached m c hold) hne
    · rcases hs.lookup hl with ⟨d, rfl, -⟩ | ⟨hold, -, hne⟩ <;>
        rcases hs.lookup hl' with ⟨d', heq, -⟩ | ⟨hold', -, hne'⟩
      · simp only [LaneAct.deliver.injEq] at heq
        exact heq.1
      · exact absurd rfl (hne' m d)
      · exact absurd heq (hne m' d')
      · exact ih.single m m' c hold hold'

theorem heldBy_cases {L : Lane} (h : Machine.Reach laneMachine L) (c : AckHandler) :
    L.queue.heldBy c = [] ∨
      ∃ m, L.queue.heldBy c = [m] ∧ L.queue.inflight.lookup m = some c := by
  have hheld : ∀ m ∈ L.queue.heldBy c, L.queue.inflight.lookup m = some c :=
    fun _ => BusQueue.mem_heldBy.mp
  have hnodup := L.queue.nodup_heldBy c
  match hms : L.queue.heldBy c with
  | [] => exact .inl rfl
  | [m] => exact .inr ⟨m, rfl, hheld m (by simp [hms])⟩
  | m :: m' :: ms =>
    have heq := (prefetch h).single m m' c (hheld m (by simp [hms])) (hheld m' (by simp [hms]))
    simp [hms, heq] at hnodup

/-- A single active consumer: what is in flight is owned by the first consumer still attached. -/
def Exclusive (L : Lane) : Prop :=
  L.queue.partitionByGroup = false → L.queue.singleActiveConsumer = true →
    ∀ m c, L.queue.inflight.lookup m = some c → L.queue.consumers.head? = some c

theorem exclusive {L : Lane} (h : Machine.Reach laneMachine L) : L.Exclusive := by
  refine h.invariant (fun L hnew => ?_) fun L a L' hr ih _ hs => ?_
  · intro _ _ m c hl
    simp [hnew.inflight] at hl
  · intro hpart hsingle m c hl
    rw [LaneStep.frame hs] at hpart hsingle
    rcases hs.lookup hl with ⟨d, rfl, -⟩ | ⟨hold, hne, -⟩
    · cases hs with
      | deliver hch =>
        exact LaneStep.head_stays (.deliver hch ‹_›) (hch.exclusive hpart hsingle).2 (by simp)
    · exact hs.head_stays (ih hpart hsingle m c hold) hne

/-- Exclusivity leaves room for one message in flight. -/
theorem inflight_length_le_one {L : Lane} (h : Machine.Reach laneMachine L)
    (hpart : L.queue.partitionByGroup = false) (hsingle : L.queue.singleActiveConsumer = true) :
    L.queue.inflight.entries.length ≤ 1 := by
  have hex := exclusive h hpart hsingle
  have hone := (prefetch h).single
  by_contra hlt
  have hkeys := L.queue.inflight.nodupKeys
  match hentries : L.queue.inflight.entries with
  | [] => simp [hentries] at hlt
  | [_] => simp [hentries] at hlt
  | ⟨m, c⟩ :: ⟨m', c'⟩ :: rest =>
    have hl : L.queue.inflight.lookup m = some c :=
      Table.lookup_eq_some.mpr (by simp [hentries])
    have hl' : L.queue.inflight.lookup m' = some c' :=
      Table.lookup_eq_some.mpr (by simp [hentries])
    have hc : c = c' := Option.some.inj ((hex m c hl).symm.trans (hex m' c' hl'))
    have hm : m = m' := hone m m' c hl (hc ▸ hl')
    rw [hentries] at hkeys
    simp [List.NodupKeys, hm] at hkeys

theorem consumers_eq {L : Lane} (h : Machine.Reach laneMachine L) :
    L.queue.consumers = attachedIn L.trail := by
  refine h.invariant (I := fun L => L.queue.consumers = attachedIn L.trail)
    (fun L hnew => ?_) fun L a L' _ ih _ hs => ?_
  · simp [hnew.consumers, hnew.trail, attachedIn]
  · cases hs with
    | detach =>
      simp only [BusQueue.detach_eq, attachedIn_detachTrail]
      rw [ih]
    | scan hscan =>
      rw [hscan.frame]
      exact ih
    | @deliver Q m c d hch =>
      show Q.consumers = attachedIn L.trail
      rw [hch.frame]
      exact ih
    | attach =>
      show L.queue.consumers ++ _ = attachedIn L.trail ++ _
      rw [ih]
    | _ => exact ih

/-- Every delivery is handed to a handler once, or is still to be. -/
theorem handings_add_building {L : Lane} (h : Machine.Reach laneMachine L) (m : BusMessage) :
    handings m L.trail + L.building m = deliveries m L.trail := by
  refine h.invariant (I := fun L => handings m L.trail + L.building m = deliveries m L.trail)
    (fun L hnew => ?_) fun L a L' _ ih _ hs => ?_
  · simp [hnew.trail, hnew.building, handings, deliveries]
  · cases hs with
    | detach =>
      simp only [handings_detachTrail, deliveries_detachTrail]
      exact ih
    | @deliver Q x c d =>
      show handings m L.trail + Function.update L.building x _ m =
        deliveries m L.trail + if x = m then 1 else 0
      rw [Function.update_apply]
      by_cases hx : m = x
      · subst hx
        simp only [if_pos]
        omega
      · rw [if_neg hx, if_neg (Ne.symm hx)]
        exact ih
    | @hand x c count hpos =>
      show (handings m L.trail + if x = m then 1 else 0) +
        Function.update L.building x _ m = deliveries m L.trail
      rw [Function.update_apply]
      by_cases hx : m = x
      · subst hx
        simp only [if_pos]
        omega
      · rw [if_neg hx, if_neg (Ne.symm hx)]
        exact ih
    | _ => exact ih

/-! ## The order of the record -/

theorem always_detachTrail {P : QueueEvent → List QueueEvent → Prop} {c : AckHandler}
    {ms : List BusMessage} {t : List QueueEvent} (hreturned : ∀ m t, P (.returned m) t)
    (hdetached : P (.detached c) t) (h : Machine.Always P t) :
    Machine.Always P (detachTrail c ms t) := by
  rw [fold_detachTrail (Machine.Always P) (fun m t => by simp [hreturned])]
  exact ⟨hdetached, h⟩

/-- Arrivals are recorded in the order of their identities and of the log. -/
def ArrivesInOrder (e : QueueEvent) (older : List QueueEvent) : Prop :=
  ∀ m entry, e = .arrived m entry →
    ∀ x entry', .arrived x entry' ∈ older → x.ref < m.ref ∧ entry' < entry

theorem arrivals {L : Lane} (h : Machine.Reach laneMachine L) :
    Machine.Always ArrivesInOrder L.trail := by
  refine h.invariant (I := fun L => Machine.Always ArrivesInOrder L.trail)
    (fun L hnew => ?_) fun L a L' _ ih _ hs => ?_
  · rw [hnew.trail]
    trivial
  · cases hs with
    | arrive fresh =>
      refine ⟨fun m entry heq => ?_, ih⟩
      simp only [QueueEvent.arrived.injEq] at heq
      obtain ⟨rfl, rfl⟩ := heq
      exact fresh
    | detach => exact always_detachTrail (by simp [ArrivesInOrder]) (by simp [ArrivesInOrder]) ih
    | scan => exact ih
    | _ => exact ⟨by simp [ArrivesInOrder], ih⟩

/-- Two arrivals are the same, or ordered alike by identity and by log entry. -/
theorem arrived_cases {t : List QueueEvent} (h : Machine.Always ArrivesInOrder t)
    {x y : BusMessage} {e e' : Nat} (hx : .arrived x e ∈ t) (hy : .arrived y e' ∈ t) :
    (x = y ∧ e = e') ∨ (x.ref < y.ref ∧ e < e') ∨ (y.ref < x.ref ∧ e' < e) := by
  induction t with
  | nil => simp at hx
  | cons ev t ih =>
    rcases List.mem_cons.mp hx with rfl | hx <;> rcases List.mem_cons.mp hy with hev | hy
    · simp only [QueueEvent.arrived.injEq] at hev
      exact .inl ⟨hev.1.symm, hev.2.symm⟩
    · exact .inr (.inr (h.1 x e rfl y e' hy))
    · exact .inr (.inl (h.1 y e' hev.symm x e hx))
    · exact ih h.2 hx hy

theorem arrived_unique {t : List QueueEvent} (h : Machine.Always ArrivesInOrder t)
    {x : BusMessage} {e e' : Nat} (hx : .arrived x e ∈ t) (hx' : .arrived x e' ∈ t) : e = e' := by
  rcases arrived_cases h hx hx' with h | h | h
  · exact h.2
  · exact absurd h.1 (lt_irrefl _)
  · exact absurd h.1 (lt_irrefl _)

/-- What was logged earlier is the older object. -/
theorem ref_lt_of_arrived {t : List QueueEvent} (h : Machine.Always ArrivesInOrder t)
    {x y : BusMessage} {e e' : Nat} (hx : .arrived x e ∈ t) (hy : .arrived y e' ∈ t)
    (hlt : e < e') : x.ref < y.ref := by
  rcases arrived_cases h hx hy with h | h | h <;> omega

/-- Delivery numbers grow. -/
def DeliversInOrder (e : QueueEvent) (older : List QueueEvent) : Prop :=
  ∀ m c d, e = .delivered m c d → ∀ x c' d', .delivered x c' d' ∈ older → d' < d

/-- **The rule for deliveries.** What every delivery satisfies when it is booked holds of every
delivery in the record, on the lanes of a kind that no step turns into another. -/
theorem always_deliver {P : QueueEvent → List QueueEvent → Prop} {ok : Lane → LaneAct → Prop}
    {K : Lane → Prop} (hkind : ∀ {L a L'}, LaneStep L a L' → K L' → K L)
    (hother : ∀ {e older}, (∀ m c d, e ≠ .delivered m c d) → P e older)
    (hdeliver : ∀ {L Q m c d}, Machine.ReachIf laneMachine ok L → K L → L.queue.Chosen m c Q →
      (∀ x c' d', .delivered x c' d' ∈ L.trail → d' < d) → P (.delivered m c d) L.trail)
    {L : Lane} (h : Machine.ReachIf laneMachine ok L) (hk : K L) : Machine.Always P L.trail := by
  refine h.invariant (I := fun L => K L → Machine.Always P L.trail)
    (fun L hnew => ?_) (fun L a L' hr ih _ hs => ?_) hk
  · rw [hnew.trail]
    exact fun _ => trivial
  · intro hk'
    have hk := hkind hs hk'
    have ih := ih hk
    cases hs with
    | deliver hch later => exact ⟨hdeliver hr hk hch later, ih⟩
    | detach => exact always_detachTrail (fun m t => hother (by simp)) (hother (by simp)) ih
    | scan => exact ih
    | _ => exact ⟨hother (by simp), ih⟩

theorem deliveryNumbers {L : Lane} (h : Machine.Reach laneMachine L) :
    Machine.Always DeliversInOrder L.trail := by
  refine always_deliver (K := fun _ => True) (fun _ _ => trivial)
    (fun he m c d heq => absurd heq (he m c d)) (fun _ _ _ later => ?_) h trivial
  intro m' c' d' heq
  simp only [QueueEvent.delivered.injEq] at heq
  obtain ⟨rfl, rfl, rfl⟩ := heq
  exact later

end Lane

end MessagingPoc
