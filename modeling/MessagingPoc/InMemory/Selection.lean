import MessagingPoc.InMemory.Queue

/-!
# How a delivery is chosen

One lemma per selection routine of `BusQueue`, and from them the two facts about `next` that every
invariant uses: `next_found` (`Chosen`) when it picks a delivery, `next_not_found` (`Scanned`) when
it does not. `next_nobody` adds that an error-free scan without a result leaves nothing that could
be delivered (`Stalled`).
-/

namespace MessagingPoc

open RoundRobin

/-! ## Dequeue by priority -/

namespace PendingQueue

/-- The scan up to index `k`: its result is maximal there, and strictly so before it. -/
theorem foldl_best (items : List BusMessage) (k : Nat) :
    let r := (List.range' 1 k).foldl
      (fun best i => if priorityAt items i > priorityAt items best then i else best) 0
    r ≤ k ∧ (∀ i ≤ k, priorityAt items i ≤ priorityAt items r) ∧
      ∀ i < r, priorityAt items i < priorityAt items r := by
  induction k with
  | zero =>
    refine ⟨le_rfl, fun i hi => ?_, fun i hi => absurd hi (Nat.not_lt_zero i)⟩
    rw [Nat.le_zero.mp hi]
    exact Int32.le_rfl
  | succ k ih =>
    obtain ⟨hle, hmax, hstrict⟩ := ih
    simp only [List.range'_1_concat, List.foldl_append, List.foldl_cons, List.foldl_nil]
    split_ifs with hgt
    · refine ⟨by omega, fun i hi => ?_, fun i hi => ?_⟩
      · rcases Nat.lt_or_ge i (k + 1) with hik | hik
        · exact Int32.le_of_lt (Int32.lt_of_le_of_lt (hmax i (by omega)) hgt)
        · rw [show i = 1 + k by omega]
          exact Int32.le_rfl
      · exact Int32.lt_of_le_of_lt (hmax i (by omega)) hgt
    · refine ⟨by omega, fun i hi => ?_, hstrict⟩
      rcases Nat.lt_or_ge i (k + 1) with hik | hik
      · exact hmax i (by omega)
      · rw [show i = 1 + k by omega]
        exact Int32.not_lt.mp hgt

theorem priorityAt_eq {items : List BusMessage} {i : Nat} {m : BusMessage}
    (h : items[i]? = some m) : priorityAt items i = m.priority := by
  simp [priorityAt, h]

/-- The message dequeued has the highest priority, and everything before it a lower one. -/
theorem dequeueHighestPriority_eq_some {items rest : List BusMessage} {m : BusMessage}
    (h : dequeueHighestPriority items = some (m, rest)) :
    ∃ before after, items = before ++ m :: after ∧ rest = before ++ after ∧
      (∀ x ∈ before, x.priority < m.priority) ∧ ∀ x ∈ after, x.priority ≤ m.priority := by
  obtain ⟨-, hmax, hstrict⟩ := foldl_best items (items.length - 1)
  simp only [dequeueHighestPriority, Option.map_eq_some_iff, Prod.mk.injEq] at h
  obtain ⟨m', hget, rfl, rfl⟩ := h
  rw [← bestIndex] at hmax hstrict
  set best := bestIndex items
  obtain ⟨hlt, hm⟩ := List.getElem?_eq_some_iff.mp hget
  refine ⟨items.take best, items.drop (best + 1), ?_, ?_, fun x hx => ?_, fun x hx => ?_⟩
  · rw [← hm, List.getElem_cons_drop, List.take_append_drop]
  · rw [removeAt, List.eraseIdx_eq_take_drop_succ]
  · obtain ⟨i, hi, rfl⟩ := List.mem_take_iff_getElem.mp hx
    have := hstrict i (by omega)
    rwa [priorityAt_eq hget, priorityAt_eq (List.getElem?_eq_getElem (by omega))] at this
  · obtain ⟨i, hi, rfl⟩ := List.mem_drop_iff_getElem.mp hx
    have := hmax (best + 1 + i) (by omega)
    rwa [priorityAt_eq hget, priorityAt_eq (List.getElem?_eq_getElem (by omega))] at this

theorem dequeueHighestPriority_ne_none {items : List BusMessage} (h : items ≠ []) :
    dequeueHighestPriority items ≠ none := by
  have hpos := List.length_pos_iff.mpr h
  have hle := (foldl_best items (items.length - 1)).1
  rw [← bestIndex] at hle
  simp only [dequeueHighestPriority, ne_eq, Option.map_eq_none_iff, List.getElem?_eq_none_iff]
  omega

end PendingQueue

/-! ## What a choice does to the queue -/

namespace BusQueue

/-- `m` has been taken off the queue to be delivered to `c`. -/
structure Chosen (Q : BusQueue) (m : BusMessage) (c : AckHandler) (Q' : BusQueue) : Prop where
  /-- `m` leaves `Pending`; what stands before it is of another group, or of lower priority. -/
  split : ∃ before after, Q.pending = before ++ m :: after ∧ Q'.pending = before ++ after ∧
    (Q.partitionByGroup = true → ∀ x ∈ before, x.group ≠ m.group) ∧
    (Q.partitionByGroup = false → ∀ x ∈ before, x.priority < m.priority)
  attached : c ∈ Q.consumers
  free : c ∉ Q.owners
  frame : Q' = { Q with
    pending := Q'.pending, groupAffinity := Q'.groupAffinity, rr := Q'.rr }
  /-- The group is pinned to the consumer. -/
  pinned : Q.partitionByGroup = true → Q'.groupAffinity m.group = some c
  /-- Pins to attached consumers stay. -/
  kept : ∀ g o, Q.groupAffinity g = some o → o ∈ Q.consumers → Q'.groupAffinity g = some o
  /-- The single active consumer is the first one, and is given a message only when none is
  in flight. -/
  exclusive : Q.partitionByGroup = false → Q.singleActiveConsumer = true →
    Q.inflight.entries = [] ∧ Q.consumers.head? = some c

/-- The queue after a scan that delivers nothing: only the pins and the counter have moved. -/
structure Scanned (Q Q' : BusQueue) : Prop where
  frame : Q' = { Q with groupAffinity := Q'.groupAffinity, rr := Q'.rr }
  kept : ∀ g o, Q.groupAffinity g = some o → o ∈ Q.consumers → Q'.groupAffinity g = some o
  noNew : ∀ g o, Q'.groupAffinity g = some o → Q.groupAffinity g = some o

theorem Scanned.refl (Q : BusQueue) : Scanned Q Q :=
  ⟨rfl, fun _ _ h _ => h, fun _ _ h => h⟩

theorem Scanned.trans {Q₁ Q₂ Q₃ : BusQueue} (h₁ : Scanned Q₁ Q₂) (h₂ : Scanned Q₂ Q₃) :
    Scanned Q₁ Q₃ := by
  refine ⟨?_, fun g o h ho => ?_, fun g o h => h₁.noNew g o (h₂.noNew g o h)⟩
  · rw [h₂.frame, h₁.frame]
  · exact h₂.kept g o (h₁.kept g o h ho) (by rw [h₁.frame]; exact ho)

theorem Scanned.rr (Q : BusQueue) (rr : Int32) : Scanned Q { Q with rr := rr } :=
  ⟨rfl, fun _ _ h _ => h, fun _ _ h => h⟩

theorem scanned_dropStalePin (Q : BusQueue) (g : String) : Scanned Q (Q.dropStalePin g) := by
  unfold dropStalePin
  cases hg : Q.groupAffinity g with
  | none => exact Scanned.refl Q
  | some owner =>
    simp only
    split_ifs with hmem
    · exact Scanned.refl Q
    · refine ⟨rfl, fun g' o h ho => ?_, fun g' o h => ?_⟩
      · have hne : g' ≠ g := by
          rintro rfl
          rw [hg, Option.some.injEq] at h
          exact hmem (h ▸ ho)
        simpa [Function.update_of_ne hne] using h
      · by_cases hne : g' = g
        · subst hne
          simp at h
        · simpa [Function.update_of_ne hne] using h

/-- After its stale pin is dropped, a group is pinned to an attached consumer or not at all. -/
theorem dropStalePin_attached {Q : BusQueue} {g : String} {o : AckHandler}
    (h : (Q.dropStalePin g).groupAffinity g = some o) : o ∈ Q.consumers := by
  unfold dropStalePin at h
  cases hg : Q.groupAffinity g with
  | none => simp [hg] at h
  | some owner =>
    simp only [hg] at h
    split_ifs at h with hmem
    · rw [hg, Option.some.injEq] at h
      exact h ▸ hmem
    · simp at h

/-! ## The consumer picks -/

theorem pickFreeConsumer_eq (Q : BusQueue) (busy : List AckHandler) :
    Q.pickFreeConsumer busy = ((scan Q.consumers busy Q.consumers.length Q.rr).1,
      { Q with rr := (scan Q.consumers busy Q.consumers.length Q.rr).2 }) := rfl

theorem pickFreeConsumer_scanned {Q Q' : BusQueue} {busy : List AckHandler} {p : Pick AckHandler}
    (h : Q.pickFreeConsumer busy = (p, Q')) : Scanned Q Q' := by
  rw [pickFreeConsumer_eq, Prod.mk.injEq] at h
  exact h.2 ▸ Scanned.rr Q _

theorem pickFreeConsumer_found {Q Q' : BusQueue} {busy : List AckHandler} {c : AckHandler}
    (h : Q.pickFreeConsumer busy = (.found c, Q')) : c ∈ Q.consumers ∧ c ∉ busy := by
  rw [pickFreeConsumer_eq, Prod.mk.injEq] at h
  exact scan_found (Prod.ext h.1 rfl)

theorem pickFreeConsumer_nobody {Q Q' : BusQueue} {busy : List AckHandler}
    (h : Q.pickFreeConsumer busy = (.nobody, Q')) : ∀ c ∈ Q.consumers, c ∈ busy := by
  rw [pickFreeConsumer_eq, Prod.mk.injEq] at h
  exact scan_nobody (Prod.ext h.1 rfl)

theorem nextConsumer_scanned {Q Q' : BusQueue} {p : Pick AckHandler}
    (h : Q.nextConsumer = (p, Q')) : Scanned Q Q' := by
  unfold nextConsumer at h
  split at h
  · exact (Prod.mk.inj h).2 ▸ Scanned.refl Q
  · split_ifs at h
    · exact (Prod.mk.inj h).2 ▸ Scanned.refl Q
    · exact (Prod.mk.inj h).2 ▸ Scanned.refl Q
    · exact pickFreeConsumer_scanned h

theorem nextConsumer_found {Q Q' : BusQueue} {c : AckHandler}
    (h : Q.nextConsumer = (.found c, Q')) : c ∈ Q.consumers ∧ c ∉ Q.owners ∧
      (Q.singleActiveConsumer = true → Q.inflight.entries = [] ∧ Q.consumers.head? = some c) := by
  unfold nextConsumer at h
  cases hc : Q.consumers with
  | nil => simp [hc] at h
  | cons active others =>
    simp only [hc] at h
    split_ifs at h with hsingle hempty
    · obtain ⟨hp, -⟩ := Prod.mk.inj h
      obtain rfl : active = c := by simpa using hp
      exact ⟨by simp, by simp [owners_eq_nil hempty], fun _ => ⟨hempty, rfl⟩⟩
    · simp at h
    · obtain ⟨hmem, hfree⟩ := pickFreeConsumer_found h
      exact ⟨hc ▸ hmem, hfree, fun hs => absurd hs hsingle⟩

theorem nextConsumer_nobody {Q Q' : BusQueue} (h : Q.nextConsumer = (.nobody, Q'))
    (hcons : Q.consumers ≠ []) :
    if Q.singleActiveConsumer = true then Q.inflight.entries ≠ []
    else ∀ c ∈ Q.consumers, c ∈ Q.owners := by
  unfold nextConsumer at h
  cases hc : Q.consumers with
  | nil => exact absurd hc hcons
  | cons active others =>
    simp only [hc] at h
    split_ifs at h ⊢ with hsingle hempty
    · simp at h
    · exact hempty
    · exact hc ▸ pickFreeConsumer_nobody h

/-! ## The group scan -/

/-- A group is blocked: pinned to a busy consumer, or not pinned while every consumer is busy. -/
def Blocked (Q : BusQueue) (busy : List AckHandler) (g : String) : Prop :=
  (∃ o ∈ Q.consumers, Q.groupAffinity g = some o ∧ o ∈ busy) ∨
    (Q.groupAffinity g = none ∧ ∀ c ∈ Q.consumers, c ∈ busy)

theorem Blocked.scanned {Q Q' : BusQueue} {busy : List AckHandler} {g : String}
    (h : Blocked Q busy g) (hs : Scanned Q Q') : Blocked Q' busy g := by
  have hcons : Q'.consumers = Q.consumers := by rw [hs.frame]
  rcases h with ⟨o, ho, hpin, hbusy⟩ | ⟨hnone, hall⟩
  · exact .inl ⟨o, hcons ▸ ho, hs.kept g o hpin ho, hbusy⟩
  · refine .inr ⟨?_, hcons ▸ hall⟩
    cases hg : Q'.groupAffinity g with
    | none => rfl
    | some o => simp [hs.noNew g o hg] at hnone

/-- One turn of the group scan. It passes over a message of a blocked group, or it delivers the
message, or a consumer pick throws. -/
theorem groupScan_cons (busy : List AckHandler) (i : Nat) (m : BusMessage)
    (rest : List BusMessage) (Q : BusQueue) :
    (∃ Q₁, Scanned Q Q₁ ∧ Blocked Q₁ busy m.group ∧
      groupScan busy i (m :: rest) Q = groupScan busy (i + 1) rest Q₁) ∨
    (∃ Q₁ c A, Scanned Q Q₁ ∧ c ∈ Q.consumers ∧ c ∉ busy ∧
      (∀ g o, Q₁.groupAffinity g = some o → A g = some o) ∧ A m.group = some c ∧
      groupScan busy i (m :: rest) Q = (.found (m, c),
        { Q₁ with groupAffinity := A, pending := PendingQueue.removeAt Q₁.pending i })) ∨
    (∃ Q₁, Scanned Q Q₁ ∧ groupScan busy i (m :: rest) Q = (.threw, Q₁)) := by
  have hs₁ := scanned_dropStalePin Q m.group
  have hcons : (Q.dropStalePin m.group).consumers = Q.consumers := by rw [hs₁.frame]
  rw [groupScan]
  cases hpin : (Q.dropStalePin m.group).groupAffinity m.group with
  | some owner =>
    have hatt := dropStalePin_attached hpin
    by_cases hbusy : owner ∈ busy
    · -- The group is in flight; it waits its turn.
      exact .inl ⟨_, hs₁, .inl ⟨owner, hcons ▸ hatt, hpin, hbusy⟩, by simp [hbusy]⟩
    · refine .inr (.inl ⟨_, owner, _, hs₁, hatt, hbusy, fun _ _ h => h, hpin, ?_⟩)
      simp [hbusy]
  | none =>
    rcases hpick : (Q.dropStalePin m.group).pickFreeConsumer busy with ⟨pick, Q₂⟩
    have hs₂ := hs₁.trans (pickFreeConsumer_scanned hpick)
    have hcons₂ : Q₂.consumers = Q.consumers := by rw [hs₂.frame]
    have hnone : Q₂.groupAffinity m.group = none := by
      rw [pickFreeConsumer_eq, Prod.mk.injEq] at hpick
      rw [← hpick.2]
      exact hpin
    cases pick with
    | threw => exact .inr (.inr ⟨Q₂, hs₂, by simp⟩)
    | nobody =>
      have hall := pickFreeConsumer_nobody hpick
      refine .inl ⟨Q₂, hs₂, .inr ⟨hnone, ?_⟩, by simp⟩
      rwa [hcons₂, ← hcons]
    | found c =>
      obtain ⟨hmem, hfree⟩ := pickFreeConsumer_found hpick
      refine .inr (.inl ⟨Q₂, c, Function.update Q₂.groupAffinity m.group (some c), hs₂,
        hcons ▸ hmem, hfree, fun g o h => ?_, by simp, by simp⟩)
      have hne : g ≠ m.group := by
        rintro rfl
        simp [hnone] at h
      rwa [Function.update_of_ne hne]

theorem groupScan_found {busy : List AckHandler} {rest : List BusMessage} {i : Nat}
    {Q Q' : BusQueue} {m : BusMessage} {c : AckHandler}
    (h : groupScan busy i rest Q = (.found (m, c), Q')) :
    ∃ before after, rest = before ++ m :: after ∧ (∀ x ∈ before, x.group ≠ m.group) ∧
      c ∈ Q.consumers ∧ c ∉ busy ∧
      Q' = { Q with
        pending := PendingQueue.removeAt Q.pending (i + before.length)
        groupAffinity := Q'.groupAffinity, rr := Q'.rr } ∧
      Q'.groupAffinity m.group = some c ∧
      ∀ g o, Q.groupAffinity g = some o → o ∈ Q.consumers → Q'.groupAffinity g = some o := by
  induction rest generalizing i Q with
  | nil => simp [groupScan] at h
  | cons x rest ih =>
    rcases groupScan_cons busy i x rest Q with
      ⟨Q₁, hs, hblocked, heq⟩ | ⟨Q₁, c', A, hs, hatt, hfree, hA, hpin, heq⟩ | ⟨Q₁, -, heq⟩
    · rw [heq] at h
      have hcons : Q₁.consumers = Q.consumers := by rw [hs.frame]
      obtain ⟨before, after, rfl, hbefore, hatt, hfree, hframe, hpin, hkept⟩ := ih h
      refine ⟨x :: before, after, rfl, ?_, hcons ▸ hatt, hfree, ?_, hpin, fun g o hg ho => ?_⟩
      · -- A blocked group is not the one delivered.
        rintro y hy hgroup
        rcases List.mem_cons.mp hy with rfl | hy
        · rcases hblocked with ⟨o, ho, hpin', hbusy⟩ | ⟨-, hall⟩
          · have := hkept y.group o hpin' ho
            rw [hgroup, hpin, Option.some.injEq] at this
            exact hfree (this ▸ hbusy)
          · exact hfree (hall c hatt)
        · exact hbefore y hy hgroup
      · rw [hframe, hs.frame]
        simp [Nat.add_assoc, Nat.add_comm 1]
      · exact hkept g o (hs.kept g o hg ho) (hcons ▸ ho)
    · rw [heq] at h
      obtain ⟨hmc, rfl⟩ := Prod.mk.inj h
      simp only [Pick.found.injEq, Prod.mk.injEq] at hmc
      obtain ⟨rfl, rfl⟩ := hmc
      refine ⟨[], rest, rfl, by simp, hatt, hfree, ?_, hpin, fun g o hg ho => ?_⟩
      · rw [hs.frame]
        simp
      · exact hA g o (hs.kept g o hg ho)
    · rw [heq] at h
      simp at h

theorem groupScan_not_found {busy : List AckHandler} {rest : List BusMessage} {i : Nat}
    {Q Q' : BusQueue} {p : Pick (BusMessage × AckHandler)}
    (h : groupScan busy i rest Q = (p, Q')) (hp : ∀ d, p ≠ .found d) : Scanned Q Q' := by
  induction rest generalizing i Q with
  | nil =>
    rw [groupScan, Prod.mk.injEq] at h
    exact h.2 ▸ Scanned.refl Q
  | cons x rest ih =>
    rcases groupScan_cons busy i x rest Q with
      ⟨Q₁, hs, -, heq⟩ | ⟨Q₁, c, A, -, -, -, -, -, heq⟩ | ⟨Q₁, hs, heq⟩
    · exact hs.trans (ih (heq ▸ h))
    · rw [heq, Prod.mk.injEq] at h
      exact absurd h.1.symm (hp _)
    · rw [heq, Prod.mk.injEq] at h
      exact h.2 ▸ hs

theorem groupScan_nobody {busy : List AckHandler} {rest : List BusMessage} {i : Nat}
    {Q Q' : BusQueue} (h : groupScan busy i rest Q = (.nobody, Q')) :
    ∀ x ∈ rest, Blocked Q' busy x.group := by
  induction rest generalizing i Q with
  | nil => simp
  | cons x rest ih =>
    rcases groupScan_cons busy i x rest Q with
      ⟨Q₁, -, hblocked, heq⟩ | ⟨Q₁, c, A, -, -, -, -, -, heq⟩ | ⟨Q₁, -, heq⟩
    · rw [heq] at h
      intro y hy
      rcases List.mem_cons.mp hy with rfl | hy
      · exact hblocked.scanned (groupScan_not_found h (by simp))
      · exact ih h y hy
    · simp [heq] at h
    · simp [heq] at h

/-! ## What `Pump` picks -/

/-- Some pending message could be handed to some attached consumer that holds none. -/
def Deliverable (Q : BusQueue) : Prop :=
  if Q.partitionByGroup = true then
    ∃ m ∈ Q.pending, ∃ c ∈ Q.consumers, c ∉ Q.owners ∧
      (Q.groupAffinity m.group = some c ∨
        ∀ o ∈ Q.groupAffinity m.group, o ∉ Q.consumers)
  else if Q.singleActiveConsumer = true then
    Q.pending ≠ [] ∧ Q.consumers ≠ [] ∧ Q.inflight.entries = []
  else Q.pending ≠ [] ∧ ∃ c ∈ Q.consumers, c ∉ Q.owners

instance (Q : BusQueue) : Decidable Q.Deliverable :=
  inferInstanceAs (Decidable (ite _ _ _))

theorem not_deliverable_of_blocked {Q : BusQueue} (hpart : Q.partitionByGroup = true)
    (h : ∀ m ∈ Q.pending, Blocked Q Q.owners m.group) : ¬ Q.Deliverable := by
  rw [Deliverable, if_pos hpart]
  rintro ⟨m, hm, c, hc, hfree, hpin⟩
  rcases h m hm with ⟨o, ho, ho', hbusy⟩ | ⟨-, hall⟩
  · rcases hpin with hpin | hstale
    · rw [ho', Option.some.injEq] at hpin
      exact hfree (hpin ▸ hbusy)
    · exact hstale o ho' ho
  · exact hfree (hall c hc)

theorem next_found {Q Q' : BusQueue} {m : BusMessage} {c : AckHandler}
    (h : Q.next = (.found (m, c), Q')) : Chosen Q m c Q' := by
  unfold next at h
  split_ifs at h with hempty hpart
  · simp at h
  · unfold nextGroupDelivery at h
    split_ifs at h
    · simp at h
    obtain ⟨before, after, hsplit, hbefore, hatt, hfree, hframe, hpin, hkept⟩ := groupScan_found h
    have hpending : Q'.pending = before ++ after := by
      rw [hframe]
      simp [hsplit, PendingQueue.removeAt, List.eraseIdx_append]
    refine ⟨⟨before, after, hsplit, hpending, fun _ => hbefore, ?_⟩, hatt, hfree, ?_,
      fun _ => hpin, hkept, ?_⟩
    · simp [hpart]
    · conv_lhs => rw [hframe]
      rw [hpending]
      simp [hsplit, PendingQueue.removeAt, List.eraseIdx_append]
    · simp [hpart]
  · rcases hnext : Q.nextConsumer with ⟨pick, Q₁⟩
    have hs := nextConsumer_scanned hnext
    rw [hnext] at h
    cases pick with
    | threw => simp at h
    | nobody => simp at h
    | found c' =>
      cases hdeq : PendingQueue.dequeueHighestPriority Q₁.pending with
      | none => simp [hdeq] at h
      | some found =>
        simp only [hdeq, Prod.mk.injEq, Pick.found.injEq] at h
        obtain ⟨⟨rfl, rfl⟩, rfl⟩ := h
        obtain ⟨before, after, hsplit, hrest, hprio, -⟩ :=
          PendingQueue.dequeueHighestPriority_eq_some hdeq
        obtain ⟨hatt, hfree, hsingle⟩ := nextConsumer_found hnext
        have hpending : Q₁.pending = Q.pending := by rw [hs.frame]
        refine ⟨⟨before, after, hpending ▸ hsplit, hrest, ?_, fun _ => hprio⟩, hatt, hfree, ?_,
          ?_, hs.kept, fun _ hs => hsingle hs⟩
        · simp [hpart]
        · rw [hs.frame]
        · simp [hpart]

theorem next_not_found {Q Q' : BusQueue} {p : Pick (BusMessage × AckHandler)}
    (h : Q.next = (p, Q')) (hp : ∀ d, p ≠ .found d) : Scanned Q Q' := by
  unfold next at h
  split_ifs at h with hempty hpart
  · exact (Prod.mk.inj h).2 ▸ Scanned.refl Q
  · unfold nextGroupDelivery at h
    split_ifs at h
    · exact (Prod.mk.inj h).2 ▸ Scanned.refl Q
    · exact groupScan_not_found h hp
  · rcases hnext : Q.nextConsumer with ⟨pick, Q₁⟩
    have hs := nextConsumer_scanned hnext
    rw [hnext] at h
    cases pick with
    | threw => exact (Prod.mk.inj h).2 ▸ hs
    | nobody => exact (Prod.mk.inj h).2 ▸ hs
    | found c =>
      cases hdeq : PendingQueue.dequeueHighestPriority Q₁.pending with
      | none =>
        simp only [hdeq] at h
        exact (Prod.mk.inj h).2 ▸ hs
      | some found =>
        simp only [hdeq, Prod.mk.injEq] at h
        exact absurd h.1.symm (hp _)

/-- **A turn of `Pump` that ends without an error leaves nothing deliverable.** -/
theorem next_nobody {Q Q' : BusQueue} (h : Q.next = (.nobody, Q')) : ¬ Q'.Deliverable := by
  have hs := next_not_found h (by simp)
  unfold next at h
  split_ifs at h with hempty hpart
  · obtain rfl := (Prod.mk.inj h).2
    unfold Deliverable
    rcases hempty with hnil | hnil <;> split_ifs <;> simp [hnil]
  · unfold nextGroupDelivery at h
    have howners : Q'.owners = Q.owners := by rw [hs.frame]; rfl
    rw [if_neg (by tauto)] at h
    refine not_deliverable_of_blocked (by rw [hs.frame]; exact hpart) fun m hm => ?_
    rw [howners]
    exact groupScan_nobody h m (by rw [hs.frame] at hm; exact hm)
  · rcases hnext : Q.nextConsumer with ⟨pick, Q₁⟩
    rw [hnext] at h
    cases pick with
    | threw => simp at h
    | nobody =>
      obtain rfl := (Prod.mk.inj h).2
      have hbusy := nextConsumer_nobody hnext (by tauto)
      rw [hs.frame, Deliverable, if_neg hpart]
      split_ifs at hbusy ⊢ with hsingle
      · exact fun hd => hbusy hd.2.2
      · exact fun ⟨_, c, hc, hfree⟩ => hfree (hbusy c hc)
    | found c =>
      have hs₁ := nextConsumer_scanned hnext
      have hne : Q₁.pending ≠ [] := by rw [hs₁.frame]; tauto
      cases hdeq : PendingQueue.dequeueHighestPriority Q₁.pending with
      | none => exact absurd hdeq (PendingQueue.dequeueHighestPriority_ne_none hne)
      | some found => simp [hdeq] at h

end BusQueue

end MessagingPoc
