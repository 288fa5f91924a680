import MessagingPoc.TsBus.Queue

/-!
# What a turn of `pump` picks

`next_some` says what a turn has done that picked a message and a consumer (`Chosen`), `next_none`
what one has done that picked nothing (`Scanned`), and `next_stalled` that nothing could have been
picked then.
-/

namespace MessagingPoc.TsBus.BusQueue

/-- `m` has been taken off the queue to be delivered to `c`. -/
structure Chosen (Q : BusQueue) (m : BusMessage) (c : AckHandler) (Q' : BusQueue) : Prop where
  /-- What stands before `m` is of another group, or of lower priority; nothing has a higher one. -/
  split : ∃ before after, Q.pending = before ++ m :: after ∧ Q'.pending = before ++ after ∧
    (Q.partitionByGroup = true → ∀ x ∈ before, x.group ≠ m.group) ∧
    (Q.partitionByGroup = false →
      (∀ x ∈ before, x.rank < m.rank) ∧ ∀ x ∈ after, x.rank ≤ m.rank)
  attached : c ∈ Q.consumers
  free : c ∉ Q.inflight.values
  frame : Q' = { Q with
    pending := Q'.pending, groupAffinity := Q'.groupAffinity, rr := Q'.rr }
  pinned : Q.partitionByGroup = true → Q'.groupAffinity m.group = some c
  /-- Pins to attached consumers stay. -/
  kept : ∀ g o, Q.groupAffinity g = some o → o ∈ Q.consumers → Q'.groupAffinity g = some o
  exclusive : Q.partitionByGroup = false → Q.singleActiveConsumer = true →
    Q.inflight.entries = [] ∧ Q.consumers.head? = some c

/-- Only stale pins have gone, and the counter has moved. -/
structure Scanned (Q Q' : BusQueue) : Prop where
  frame : Q' = { Q with groupAffinity := Q'.groupAffinity, rr := Q'.rr }
  kept : ∀ g o, Q.groupAffinity g = some o → o ∈ Q.consumers → Q'.groupAffinity g = some o
  noNew : ∀ g o, Q'.groupAffinity g = some o → Q.groupAffinity g = some o
  counter : Q.rr ≤ 2 ^ 53 → Q.rr ≤ Q'.rr ∧ Q'.rr ≤ 2 ^ 53

theorem Scanned.refl (Q : BusQueue) : Scanned Q Q :=
  ⟨rfl, fun _ _ h _ => h, fun _ _ h => h, fun h => ⟨le_rfl, h⟩⟩

theorem Scanned.trans {Q₁ Q₂ Q₃ : BusQueue} (h₁ : Scanned Q₁ Q₂) (h₂ : Scanned Q₂ Q₃) :
    Scanned Q₁ Q₃ := by
  refine ⟨?_, fun g o h ho => ?_, fun g o h => h₁.noNew g o (h₂.noNew g o h), fun h => ?_⟩
  · rw [h₂.frame, h₁.frame]
  · exact h₂.kept g o (h₁.kept g o h ho) (by rw [h₁.frame]; exact ho)
  · obtain ⟨hle₁, hmax₁⟩ := h₁.counter h
    obtain ⟨hle₂, hmax₂⟩ := h₂.counter hmax₁
    exact ⟨hle₁.trans hle₂, hmax₂⟩

theorem scanned_dropStalePin (Q : BusQueue) (g : String) : Scanned Q (Q.dropStalePin g) := by
  unfold dropStalePin
  cases hg : Q.groupAffinity g with
  | none => exact Scanned.refl Q
  | some owner =>
    simp only
    split_ifs with hmem
    · exact Scanned.refl Q
    · refine ⟨rfl, fun g' o h ho => ?_, fun g' o h => ?_, fun h => ⟨le_rfl, h⟩⟩
      · have hne : g' ≠ g := by
          rintro rfl
          rw [hg, Option.some.injEq] at h
          exact hmem (h ▸ ho)
        simpa [Function.update_of_ne hne] using h
      · by_cases hne : g' = g
        · subst hne
          simp at h
        · simpa [Function.update_of_ne hne] using h

/-- After its stale pin is dropped, a group is pinned to an attached consumer or not at all. -/
theorem dropStalePin_attached {Q : BusQueue} {g : String} {o : AckHandler}
    (h : (Q.dropStalePin g).groupAffinity g = some o) : o ∈ Q.consumers := by
  unfold dropStalePin at h
  cases hg : Q.groupAffinity g with
  | none => simp [hg] at h
  | some owner =>
    simp only [hg] at h
    split_ifs at h with hmem
    · rw [hg, Option.some.injEq] at h
      exact h ▸ hmem
    · simp at h

/-! ## The consumer picks -/

theorem pickFreeConsumer_eq (Q : BusQueue) (busy : List AckHandler) :
    Q.pickFreeConsumer busy = ((Search.scan Q.consumers busy Q.consumers.length Q.rr).1,
      { Q with rr := (Search.scan Q.consumers busy Q.consumers.length Q.rr).2 }) := rfl

theorem scanned_pickFreeConsumer {Q Q' : BusQueue} {busy : List AckHandler}
    {p : Option AckHandler} (h : Q.pickFreeConsumer busy = (p, Q')) : Scanned Q Q' := by
  rw [pickFreeConsumer_eq, Prod.mk.injEq] at h
  rw [← h.2]
  exact ⟨rfl, fun _ _ h _ => h, fun _ _ h => h, Search.le_scan _ _ _ _⟩

theorem pickFreeConsumer_some {Q Q' : BusQueue} {busy : List AckHandler} {c : AckHandler}
    (h : Q.pickFreeConsumer busy = (some c, Q')) : c ∈ Q.consumers ∧ c ∉ busy := by
  rw [pickFreeConsumer_eq, Prod.mk.injEq] at h
  exact Search.scan_some (Prod.ext h.1 rfl)

/-- A round finds nobody, even if it misses somebody because its counter is stuck. -/
def Stuck (Q : BusQueue) (busy : List AckHandler) : Prop :=
  (Search.scan Q.consumers busy Q.consumers.length Q.rr).1 = none

theorem pickFreeConsumer_none {Q Q' : BusQueue} {busy : List AckHandler} (hQ : Q.rr ≤ 2 ^ 53)
    (h : Q.pickFreeConsumer busy = (none, Q')) :
    Q'.Stuck busy ∧ (Q'.rr < 2 ^ 53 → ∀ c ∈ Q.consumers, c ∈ busy) := by
  rw [pickFreeConsumer_eq, Prod.mk.injEq] at h
  obtain ⟨hnone, rfl⟩ := h
  exact ⟨Search.scan_none_again hQ (Prod.ext hnone rfl),
    fun hrr => Search.scan_none hQ (Prod.ext hnone rfl) hrr⟩

theorem scanned_nextConsumer {Q Q' : BusQueue} {p : Option AckHandler}
    (h : Q.nextConsumer = (p, Q')) : Scanned Q Q' := by
  unfold nextConsumer at h
  split at h
  · exact (Prod.mk.inj h).2 ▸ Scanned.refl Q
  · split_ifs at h
    · exact (Prod.mk.inj h).2 ▸ Scanned.refl Q
    · exact (Prod.mk.inj h).2 ▸ Scanned.refl Q
    · exact scanned_pickFreeConsumer h

theorem nextConsumer_some {Q Q' : BusQueue} {c : AckHandler}
    (h : Q.nextConsumer = (some c, Q')) : c ∈ Q.consumers ∧ c ∉ Q.inflight.values ∧
      (Q.singleActiveConsumer = true → Q.inflight.entries = [] ∧ Q.consumers.head? = some c) := by
  unfold nextConsumer at h
  cases hc : Q.consumers with
  | nil => simp [hc] at h
  | cons active others =>
    simp only [hc] at h
    split_ifs at h with hsingle hempty
    · obtain ⟨hp, -⟩ := Prod.mk.inj h
      obtain rfl : active = c := by simpa using hp
      exact ⟨by simp, by simp [InsertionMap.values, hempty], fun _ => ⟨hempty, rfl⟩⟩
    · simp at h
    · obtain ⟨hmem, hfree⟩ := pickFreeConsumer_some h
      exact ⟨hc ▸ hmem, hfree, fun hs => absurd hs hsingle⟩

theorem nextConsumer_none {Q Q' : BusQueue} (hQ : Q.rr ≤ 2 ^ 53)
    (h : Q.nextConsumer = (none, Q')) (hcons : Q.consumers ≠ []) (hrr : Q'.rr < 2 ^ 53) :
    if Q.singleActiveConsumer = true then Q.inflight.entries ≠ []
    else ∀ c ∈ Q.consumers, c ∈ Q.inflight.values := by
  unfold nextConsumer at h
  cases hc : Q.consumers with
  | nil => exact absurd hc hcons
  | cons active others =>
    simp only [hc] at h
    split_ifs at h ⊢ with hsingle hempty
    · simp at h
    · exact hempty
    · exact hc ▸ (pickFreeConsumer_none hQ h).2 hrr

/-! ## The group scan -/

/-- A group is blocked: pinned to a busy consumer, or not pinned while every consumer is busy. -/
def Blocked (Q : BusQueue) (busy : List AckHandler) (g : String) : Prop :=
  (∃ o ∈ Q.consumers, Q.groupAffinity g = some o ∧ o ∈ busy) ∨
    (Q.groupAffinity g = none ∧ ∀ c ∈ Q.consumers, c ∈ busy)

theorem Blocked.scanned {Q Q' : BusQueue} {busy : List AckHandler} {g : String}
    (h : Blocked Q busy g) (hs : Scanned Q Q') : Blocked Q' busy g := by
  have hcons : Q'.consumers = Q.consumers := by rw [hs.frame]
  rcases h with ⟨o, ho, hpin, hbusy⟩ | ⟨hnone, hall⟩
  · exact .inl ⟨o, hcons ▸ ho, hs.kept g o hpin ho, hbusy⟩
  · refine .inr ⟨?_, hcons ▸ hall⟩
    cases hg : Q'.groupAffinity g with
    | none => rfl
    | some o => simp [hs.noNew g o hg] at hnone

/-- A group waits: pinned to a busy consumer, or not pinned while a round finds nobody. -/
def Waits (Q : BusQueue) (busy : List AckHandler) (g : String) : Prop :=
  (∃ o, Q.groupAffinity g = some o ∧ o ∈ Q.consumers ∧ o ∈ busy) ∨
    (Q.groupAffinity g = none ∧ Q.Stuck busy)

/-- One turn of the group scan: it passes over a message of a group that waits, or delivers it. -/
theorem groupScan_cons {Q : BusQueue} (hQ : Q.rr ≤ 2 ^ 53) (busy : List AckHandler) (i : Nat)
    (m : BusMessage) (rest : List BusMessage) :
    (∃ Q₁, Scanned Q Q₁ ∧ Q₁.Waits busy m.group ∧ (Q₁.rr < 2 ^ 53 → Blocked Q₁ busy m.group) ∧
      (Q.Stuck busy → Q₁.Stuck busy) ∧
      groupScan busy i (m :: rest) Q = groupScan busy (i + 1) rest Q₁) ∨
    (∃ Q₁ c A, Scanned Q Q₁ ∧ c ∈ Q.consumers ∧ c ∉ busy ∧
      (∀ g o, Q₁.groupAffinity g = some o → A g = some o) ∧ A m.group = some c ∧
      (Q.Stuck busy → Q.groupAffinity m.group = some c) ∧
      groupScan busy i (m :: rest) Q = (some (m, c),
        { Q₁ with groupAffinity := A, pending := Q₁.pending.eraseIdx i })) := by
  have hs₁ := scanned_dropStalePin Q m.group
  have hcons : (Q.dropStalePin m.group).consumers = Q.consumers := by rw [hs₁.frame]
  have hrr : (Q.dropStalePin m.group).rr = Q.rr := by
    unfold dropStalePin
    split
    · rfl
    · split_ifs <;> rfl
  have hstuck : Q.Stuck busy → (Q.dropStalePin m.group).Stuck busy := by
    rw [Stuck, Stuck, hcons, hrr]
    exact id
  rw [groupScan]
  cases hpin : (Q.dropStalePin m.group).groupAffinity m.group with
  | some owner =>
    have hatt := dropStalePin_attached hpin
    by_cases hbusy : owner ∈ busy
    · -- The group is in flight; it waits its turn.
      exact .inl ⟨_, hs₁, .inl ⟨owner, hpin, hcons ▸ hatt, hbusy⟩,
        fun _ => .inl ⟨owner, hcons ▸ hatt, hpin, hbusy⟩, hstuck, by simp [hbusy]⟩
    · exact .inr ⟨_, owner, _, hs₁, hatt, hbusy, fun _ _ h => h, hpin,
        fun _ => hs₁.noNew _ _ hpin, by simp [hbusy]⟩
  | none =>
    rcases hpick : (Q.dropStalePin m.group).pickFreeConsumer busy with ⟨pick, Q₂⟩
    have hs₂ := hs₁.trans (scanned_pickFreeConsumer hpick)
    have hcons₂ : Q₂.consumers = Q.consumers := by rw [hs₂.frame]
    have hnone : Q₂.groupAffinity m.group = none := by
      rw [pickFreeConsumer_eq, Prod.mk.injEq] at hpick
      rw [← hpick.2]
      exact hpin
    cases pick with
    | none =>
      obtain ⟨hagain, hall⟩ := pickFreeConsumer_none (hrr ▸ hQ) hpick
      refine .inl ⟨Q₂, hs₂, .inr ⟨hnone, hagain⟩, fun hlt => .inr ⟨hnone, ?_⟩, fun _ => hagain,
        by simp⟩
      rw [hcons₂, ← hcons]
      exact hall hlt
    | some c =>
      obtain ⟨hmem, hfree⟩ := pickFreeConsumer_some hpick
      refine .inr ⟨Q₂, c, Function.update Q₂.groupAffinity m.group (some c), hs₂,
        hcons ▸ hmem, hfree, fun g o h => ?_, by simp, fun h => ?_, by simp⟩
      · have hne : g ≠ m.group := by
          rintro rfl
          simp [hnone] at h
        rwa [Function.update_of_ne hne]
      · have := hstuck h
        rw [pickFreeConsumer_eq, Prod.mk.injEq] at hpick
        simp [Stuck, hpick.1] at this

/-- While a round finds nobody, only messages of pinned groups are delivered. -/
theorem groupScan_stuck {busy : List AckHandler} {rest : List BusMessage} {i : Nat}
    {Q Q' : BusQueue} {m : BusMessage} {c : AckHandler} (hQ : Q.rr ≤ 2 ^ 53)
    (hstuck : Q.Stuck busy) (h : groupScan busy i rest Q = (some (m, c), Q')) :
    Q.groupAffinity m.group = some c := by
  induction rest generalizing i Q with
  | nil => simp [groupScan] at h
  | cons x rest ih =>
    rcases groupScan_cons hQ busy i x rest with
      ⟨Q₁, hs, -, -, hstays, heq⟩ | ⟨Q₁, c', A, -, -, -, -, -, hpin, heq⟩
    · rw [heq] at h
      exact hs.noNew _ _ (ih (hs.counter hQ).2 (hstays hstuck) h)
    · rw [heq] at h
      simp only [Prod.mk.injEq, Option.some.injEq] at h
      obtain ⟨⟨rfl, rfl⟩, -⟩ := h
      exact hpin hstuck

theorem groupScan_some {busy : List AckHandler} {rest : List BusMessage} {i : Nat}
    {Q Q' : BusQueue} {m : BusMessage} {c : AckHandler} (hQ : Q.rr ≤ 2 ^ 53)
    (h : groupScan busy i rest Q = (some (m, c), Q')) :
    ∃ before after, rest = before ++ m :: after ∧ (∀ x ∈ before, x.group ≠ m.group) ∧
      c ∈ Q.consumers ∧ c ∉ busy ∧
      Q' = { Q with
        pending := Q.pending.eraseIdx (i + before.length)
        groupAffinity := Q'.groupAffinity, rr := Q'.rr } ∧
      Q'.groupAffinity m.group = some c ∧ (Q.rr ≤ Q'.rr ∧ Q'.rr ≤ 2 ^ 53) ∧
      ∀ g o, Q.groupAffinity g = some o → o ∈ Q.consumers → Q'.groupAffinity g = some o := by
  induction rest generalizing i Q with
  | nil => simp [groupScan] at h
  | cons x rest ih =>
    rcases groupScan_cons hQ busy i x rest with
      ⟨Q₁, hs, hwaits, -, -, heq⟩ | ⟨Q₁, c', A, hs, hatt, hfree, hA, hpin, -, heq⟩
    · rw [heq] at h
      have hcons : Q₁.consumers = Q.consumers := by rw [hs.frame]
      obtain ⟨hle, hmax⟩ := hs.counter hQ
      obtain ⟨before, after, rfl, hbefore, hatt, hfree, hframe, hpin, ⟨hle₁, hmax₁⟩, hkept⟩ :=
        ih hmax h
      refine ⟨x :: before, after, rfl, ?_, hcons ▸ hatt, hfree, ?_, hpin,
        ⟨hle.trans hle₁, hmax₁⟩, fun g o hg ho => ?_⟩
      · -- A group that waits is not the one delivered.
        rintro y hy hgroup
        rcases List.mem_cons.mp hy with rfl | hy
        · rcases hwaits with ⟨o, hpin', ho, hbusy⟩ | ⟨hnone, hstuck⟩
          · have := hkept y.group o hpin' ho
            rw [hgroup, hpin, Option.some.injEq] at this
            exact hfree (this ▸ hbusy)
          · rw [hgroup, groupScan_stuck hmax hstuck h] at hnone
            simp at hnone
        · exact hbefore y hy hgroup
      · rw [hframe, hs.frame]
        simp [Nat.add_assoc, Nat.add_comm 1]
      · exact hkept g o (hs.kept g o hg ho) (hcons ▸ ho)
    · rw [heq] at h
      obtain ⟨hmc, rfl⟩ := Prod.mk.inj h
      simp only [Option.some.injEq, Prod.mk.injEq] at hmc
      obtain ⟨rfl, rfl⟩ := hmc
      refine ⟨[], rest, rfl, by simp, hatt, hfree, ?_, hpin, hs.counter hQ, fun g o hg ho => ?_⟩
      · rw [hs.frame]
        simp
      · exact hA g o (hs.kept g o hg ho)

theorem groupScan_none {busy : List AckHandler} {rest : List BusMessage} {i : Nat}
    {Q Q' : BusQueue} (hQ : Q.rr ≤ 2 ^ 53) (h : groupScan busy i rest Q = (none, Q')) :
    Scanned Q Q' ∧ (Q'.rr < 2 ^ 53 → ∀ x ∈ rest, Blocked Q' busy x.group) := by
  induction rest generalizing i Q with
  | nil =>
    rw [groupScan, Prod.mk.injEq] at h
    exact ⟨h.2 ▸ Scanned.refl Q, by simp⟩
  | cons x rest ih =>
    rcases groupScan_cons hQ busy i x rest with
      ⟨Q₁, hs, -, hblocked, -, heq⟩ | ⟨Q₁, c, A, -, -, -, -, -, -, heq⟩
    · rw [heq] at h
      have hmax := (hs.counter hQ).2
      obtain ⟨hs', hrest⟩ := ih hmax h
      refine ⟨hs.trans hs', fun hlt y hy => ?_⟩
      rcases List.mem_cons.mp hy with rfl | hy
      · exact (hblocked ((hs'.counter hmax).1.trans_lt hlt)).scanned hs'
      · exact hrest hlt y hy
    · simp [heq] at h

/-! ## What a turn picks -/

/-- Some pending message could be handed to some attached consumer that holds none. -/
def Deliverable (Q : BusQueue) : Prop :=
  if Q.partitionByGroup = true then
    ∃ m ∈ Q.pending, ∃ c ∈ Q.consumers, c ∉ Q.inflight.values ∧
      (Q.groupAffinity m.group = some c ∨ ∀ o ∈ Q.groupAffinity m.group, o ∉ Q.consumers)
  else if Q.singleActiveConsumer = true then
    Q.pending ≠ [] ∧ Q.consumers ≠ [] ∧ Q.inflight.entries = []
  else Q.pending ≠ [] ∧ ∃ c ∈ Q.consumers, c ∉ Q.inflight.values

theorem not_deliverable_of_blocked {Q : BusQueue} (hpart : Q.partitionByGroup = true)
    (h : ∀ m ∈ Q.pending, Blocked Q Q.inflight.values m.group) : ¬ Q.Deliverable := by
  rw [Deliverable, if_pos hpart]
  rintro ⟨m, hm, c, hc, hfree, hpin⟩
  rcases h m hm with ⟨o, ho, ho', hbusy⟩ | ⟨-, hall⟩
  · rcases hpin with hpin | hstale
    · rw [ho', Option.some.injEq] at hpin
      exact hfree (hpin ▸ hbusy)
    · exact hstale o ho' ho
  · exact hfree (hall c hc)

theorem rankAt_eq {Q : BusQueue} (i : Nat) (m : BusMessage) (h : Q.pending[i]? = some m) :
    Q.rankAt i = m.rank := by
  simp [rankAt, h]

/-- A turn that picks, and the bound of its counter. -/
theorem next_some {Q Q' : BusQueue} {m : BusMessage} {c : AckHandler} (hQ : Q.rr ≤ 2 ^ 53)
    (h : Q.next = (some (m, c), Q')) : Chosen Q m c Q' ∧ Q'.rr ≤ 2 ^ 53 := by
  unfold next at h
  split_ifs at h with hempty hpart
  · simp at h
  · unfold nextGroupDelivery at h
    split_ifs at h
    · simp at h
    obtain ⟨before, after, hsplit, hbefore, hatt, hfree, hframe, hpin, hcounter, hkept⟩ :=
      groupScan_some hQ h
    have hpending : Q'.pending = before ++ after := by
      rw [hframe]
      simp [hsplit, List.eraseIdx_append]
    refine ⟨⟨⟨before, after, hsplit, hpending, fun _ => hbefore, ?_⟩, hatt, hfree, ?_,
      fun _ => hpin, hkept, ?_⟩, hcounter.2⟩
    · simp [hpart]
    · conv_lhs => rw [hframe]
      rw [hpending]
      simp [hsplit, List.eraseIdx_append]
    · simp [hpart]
  · rcases hnext : Q.nextConsumer with ⟨pick, Q₁⟩
    have hs := scanned_nextConsumer hnext
    have hpending : Q₁.pending = Q.pending := by rw [hs.frame]
    rw [hnext] at h
    cases pick with
    | none => simp at h
    | some c' =>
      obtain ⟨x, hx, before, after, hsplit, hrest, hbefore, hafter⟩ :=
        Search.split_firstMax (Q₁.rankAt_eq) (by rw [hpending]; tauto)
      simp only [nextPending, hx, Prod.mk.injEq, Option.some.injEq] at h
      obtain ⟨⟨rfl, rfl⟩, rfl⟩ := h
      obtain ⟨hatt, hfree, hsingle⟩ := nextConsumer_some hnext
      refine ⟨⟨⟨before, after, hpending ▸ hsplit, hrest, ?_, fun _ => ⟨hbefore, hafter⟩⟩, hatt,
        hfree, ?_, ?_, hs.kept, fun _ hs => hsingle hs⟩, (hs.counter hQ).2⟩
      · simp [hpart]
      · rw [hs.frame]
      · simp [hpart]

theorem next_none {Q Q' : BusQueue} (hQ : Q.rr ≤ 2 ^ 53) (h : Q.next = (none, Q')) :
    Scanned Q Q' := by
  unfold next at h
  split_ifs at h with hempty hpart
  · exact (Prod.mk.inj h).2 ▸ Scanned.refl Q
  · unfold nextGroupDelivery at h
    split_ifs at h
    · exact (Prod.mk.inj h).2 ▸ Scanned.refl Q
    · exact (groupScan_none hQ h).1
  · rcases hnext : Q.nextConsumer with ⟨pick, Q₁⟩
    have hs := scanned_nextConsumer hnext
    rw [hnext] at h
    cases pick with
    | none => exact (Prod.mk.inj h).2 ▸ hs
    | some c =>
      have hpending : Q₁.pending = Q.pending := by rw [hs.frame]
      obtain ⟨x, hx, -⟩ :=
        Search.split_firstMax (Q₁.rankAt_eq) (by rw [hpending]; tauto)
      simp [nextPending, hx] at h

/-- **A turn of `pump` that picks nothing leaves nothing deliverable**, as long as the counter of
the queue still counts. -/
theorem next_stalled {Q Q' : BusQueue} (hQ : Q.rr ≤ 2 ^ 53) (h : Q.next = (none, Q'))
    (hrr : Q'.rr < 2 ^ 53) : ¬ Q'.Deliverable := by
  have hs := next_none hQ h
  have hvalues : Q'.inflight.values = Q.inflight.values := by rw [hs.frame]
  unfold next at h
  split_ifs at h with hempty hpart
  · obtain rfl := (Prod.mk.inj h).2
    unfold Deliverable
    rcases hempty with hnil | hnil <;> split_ifs <;> simp [hnil]
  · unfold nextGroupDelivery at h
    rw [if_neg (by tauto)] at h
    refine not_deliverable_of_blocked (by rw [hs.frame]; exact hpart) fun m hm => ?_
    rw [hvalues]
    exact (groupScan_none hQ h).2 hrr m (by rw [hs.frame] at hm; exact hm)
  · rcases hnext : Q.nextConsumer with ⟨pick, Q₁⟩
    rw [hnext] at h
    cases pick with
    | none =>
      obtain rfl := (Prod.mk.inj h).2
      have hbusy := nextConsumer_none hQ hnext (by tauto) hrr
      rw [hs.frame, Deliverable, if_neg hpart]
      split_ifs at hbusy ⊢ with hsingle
      · exact fun hd => hbusy hd.2.2
      · exact fun ⟨_, c, hc, hfree⟩ => hfree (hbusy c hc)
    | some c =>
      have hpending : Q₁.pending = Q.pending := by rw [(scanned_nextConsumer hnext).frame]
      obtain ⟨x, hx, -⟩ :=
        Search.split_firstMax (Q₁.rankAt_eq) (by rw [hpending]; tauto)
      simp [nextPending, hx] at h

end MessagingPoc.TsBus.BusQueue
