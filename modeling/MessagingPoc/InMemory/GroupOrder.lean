import MessagingPoc.InMemory.Groups
import MessagingPoc.InMemory.Settlement

/-!
# Order within a group

The scan of a partitioned queue takes the first pending message of a group, so a group keeps its
order as long as its messages stand in `Pending` in that order. Arrivals append, and a disposal puts
a message back at the front; but a message handed back for redelivery is appended behind the later
messages of its group, at once or after a retry delay, and then overtaken
(`requeue_overtakes`). `keepsGroupOrder` excludes just the steps that put a message of a group
behind, or out of the way of, a later one; without them the group keeps its order
(`groups_in_order`).
-/

namespace MessagingPoc

open Machine

namespace Lane

/-! ## Order on one lane -/

/-- No message is put back behind, or waits for a retry timer beside, a later one of its group. -/
def KeepsGroupOrder (L : Lane) (a : LaneAct) : Prop :=
  L.queue.partitionByGroup = true →
    (∀ m entry, a = .arrive m entry → ∀ x, 0 < L.parked x → x.group ≠ m.group) ∧
      ∀ m, a = .requeue m ∨ a = .park m → ∀ x ∈ L.queue.pending, x.group ≠ m.group

/-- The messages of a group are pending in their order, behind the one in flight; one that waits
for a retry timer is the only one. -/
structure InOrder (L : Lane) : Prop where
  sorted : L.queue.pending.Pairwise fun x y => x.group = y.group → x.ref < y.ref
  ahead : ∀ m c, L.queue.inflight.lookup m = some c →
    ∀ x ∈ L.queue.pending, x.group = m.group → m.ref < x.ref
  alone : ∀ m, 0 < L.parked m →
    (∀ x ∈ L.queue.pending, x.group ≠ m.group) ∧
      (∀ x c, L.queue.inflight.lookup x = some c → x.group ≠ m.group) ∧
      ∀ x, 0 < L.parked x → x.group = m.group → x = m

namespace InOrder

variable {L L' : Lane} {m : BusMessage}

theorem shrink (h : L.InOrder) (hpending : L'.queue.pending.Sublist L.queue.pending)
    (hinflight : ∀ x c, L'.queue.inflight.lookup x = some c → L.queue.inflight.lookup x = some c)
    (hparked : L'.parked = L.parked) : L'.InOrder := by
  refine ⟨h.sorted.sublist hpending,
    fun x c hl y hy => h.ahead x c (hinflight x c hl) y (hpending.subset hy), fun x hx => ?_⟩
  rw [hparked] at hx ⊢
  obtain ⟨hp, hf, hone⟩ := h.alone x hx
  exact ⟨fun y hy => hp y (hpending.subset hy), fun y c hl => hf y c (hinflight y c hl), hone⟩

theorem push (h : L.InOrder)
    (hpending : L'.queue.pending = L.queue.pending ++ [m])
    (hinflight : ∀ x c, L'.queue.inflight.lookup x = some c → L.queue.inflight.lookup x = some c)
    (hparked : ∀ x, 0 < L'.parked x → 0 < L.parked x)
    (hlast : ∀ x ∈ L.queue.pending, x.group = m.group → x.ref < m.ref)
    (hahead : ∀ x c, L'.queue.inflight.lookup x = some c → m.group = x.group → x.ref < m.ref)
    (halone : ∀ x, 0 < L'.parked x → m.group ≠ x.group) : L'.InOrder := by
  refine ⟨?_, fun x c hl y hy hgroup => ?_, fun x hx => ?_⟩
  · rw [hpending, List.pairwise_append]
    refine ⟨h.sorted, List.pairwise_singleton _ _, fun x hx y hy hgroup => ?_⟩
    rw [List.mem_singleton.mp hy] at hgroup ⊢
    exact hlast x hx hgroup
  · rw [hpending, List.mem_append, List.mem_singleton] at hy
    rcases hy with hy | rfl
    · exact h.ahead x c (hinflight x c hl) y hy hgroup
    · exact hahead x c hl hgroup
  · obtain ⟨hp, hf, hone⟩ := h.alone x (hparked x hx)
    refine ⟨fun y hy => ?_, fun y c hl => hf y c (hinflight y c hl),
      fun y hy => hone y (hparked y hy)⟩
    rw [hpending, List.mem_append, List.mem_singleton] at hy
    rcases hy with hy | rfl
    · exact hp y hy
    · exact halone x hx

theorem deliver (h : L.InOrder) (hpart : L.queue.partitionByGroup = true) {Q : BusQueue}
    {c : AckHandler} (hch : L.queue.Chosen m c Q) {trail : List QueueEvent}
    {building : BusMessage → Nat} : InOrder ⟨Q.book m c, L.parked, building, trail⟩ := by
  obtain ⟨before, after, hsplit, hrest, hbefore, -⟩ := hch.split
  have hin : Q.inflight = L.queue.inflight := by rw [hch.frame]
  have hmem : m ∈ L.queue.pending := by simp [hsplit]
  have hsub : (before ++ after).Sublist L.queue.pending := by
    rw [hsplit]
    exact List.sublist_cons_self m after |>.append_left before
  -- Behind the message delivered stand the later ones of its group, before it those of others.
  have hlater : ∀ x ∈ before ++ after, x.group = m.group → m.ref < x.ref := by
    intro x hx hgroup
    rcases List.mem_append.mp hx with hx | hx
    · exact absurd hgroup (hbefore hpart x hx)
    · have hsorted := h.sorted
      rw [hsplit] at hsorted
      exact (List.pairwise_cons.mp (List.pairwise_append.mp hsorted).2.1).1 x hx hgroup.symm
  refine ⟨?_, fun x c' hl y hy hgroup => ?_, fun x hx => ?_⟩
  · show Q.pending.Pairwise _
    rw [hrest]
    exact h.sorted.sublist hsub
  · change y ∈ Q.pending at hy
    rw [hrest] at hy
    change (Q.inflight.insert m c).lookup x = some c' at hl
    rw [Table.lookup_insert, hin] at hl
    split_ifs at hl with hx
    · subst hx
      exact hlater y hy hgroup
    · exact h.ahead x c' hl y (hsub.subset hy) hgroup
  · obtain ⟨hp, hf, hone⟩ := h.alone x hx
    refine ⟨fun y hy => ?_, fun y c' hl => ?_, hone⟩
    · change y ∈ Q.pending at hy
      rw [hrest] at hy
      exact hp y (hsub.subset hy)
    · change (Q.inflight.insert m c).lookup y = some c' at hl
      rw [Table.lookup_insert, hin] at hl
      split_ifs at hl with hy
      · exact hy ▸ hp m hmem
      · exact hf y c' hl

theorem park (h : L.InOrder) (hr : Reach laneMachine L)
    (hpart : L.queue.partitionByGroup = true) {c : AckHandler}
    (hl : L.queue.inflight.lookup m = some c) (hclear : ∀ x ∈ L.queue.pending, x.group ≠ m.group) :
    InOrder { L.note (L.released m) (.parked m) with
      parked := Function.update L.parked m (L.parked m + 1) } := by
  have hinflight : ∀ x c', (L.queue.inflight.erase m).lookup x = some c' →
      m ≠ x ∧ L.queue.inflight.lookup x = some c' := by
    intro x c' hx
    rw [Table.lookup_erase] at hx
    split_ifs at hx with hm
    exact ⟨hm, hx⟩
  have hparked : ∀ x, 0 < Function.update L.parked m (L.parked m + 1) x →
      x = m ∨ 0 < L.parked x := by
    intro x hx
    rw [Function.update_apply] at hx
    split_ifs at hx with hm
    · exact .inl hm
    · exact .inr hx
  refine ⟨h.sorted, fun x c' hx => h.ahead x c' (hinflight x c' hx).2, fun x hx => ?_⟩
  rcases hparked x hx with rfl | hx
  · refine ⟨hclear, fun y c' hy hgroup => ?_, fun y hy hgroup => ?_⟩
    · obtain ⟨hne, hy⟩ := hinflight y c' hy
      exact hne (single_in_group hr hpart hl hy hgroup.symm)
    · rcases hparked y hy with rfl | hy
      · rfl
      · exact absurd hgroup.symm ((h.alone y hy).2.1 x c hl)
  · obtain ⟨hp, hf, hone⟩ := h.alone x hx
    refine ⟨hp, fun y c' hy => hf y c' (hinflight y c' hy).2, fun y hy hgroup => ?_⟩
    rcases hparked y hy with rfl | hy
    · exact absurd hgroup (hf y c hl)
    · exact hone y hy hgroup

/-- A disposal puts a message back in front of the later ones of its group. -/
theorem detach (h : L.InOrder) (hr : Reach laneMachine L)
    (hpart : L.queue.partitionByGroup = true) (c : AckHandler) {trail : List QueueEvent} :
    InOrder { L with queue := L.queue.detach c, trail := trail } := by
  have hinflight : ∀ x c', (L.queue.detach c).inflight.lookup x = some c' →
      L.queue.inflight.lookup x = some c' ∧ c' ≠ c := by
    intro x c' hx
    rw [BusQueue.lookup_detach] at hx
    split_ifs at hx with hc
    exact ⟨hx, fun heq => hc (heq ▸ hx)⟩
  have hpending : (L.queue.detach c).pending = (L.queue.heldBy c).reverse ++ L.queue.pending := by
    rw [BusQueue.detach_eq]
  rcases heldBy_cases hr c with hheld | ⟨m, hheld, hl⟩
  · refine h.shrink ?_ (fun x c' hx => (hinflight x c' hx).1) rfl
    show (L.queue.detach c).pending.Sublist _
    rw [hpending, hheld]
    exact List.Sublist.refl _
  · rw [hheld, List.reverse_singleton, List.singleton_append] at hpending
    refine ⟨?_, fun x c' hx y hy hgroup => ?_, fun x hx => ?_⟩
    · show (L.queue.detach c).pending.Pairwise _
      rw [hpending]
      exact h.sorted.cons fun y hy hgroup => h.ahead m c hl y hy hgroup.symm
    · obtain ⟨hx, hne⟩ := hinflight x c' hx
      change y ∈ (L.queue.detach c).pending at hy
      rw [hpending] at hy
      rcases List.mem_cons.mp hy with rfl | hy
      · obtain rfl := single_in_group hr hpart hl hx hgroup
        exact absurd (Option.some.inj (hx.symm.trans hl)) hne
      · exact h.ahead x c' hx y hy hgroup
    · obtain ⟨hp, hf, hone⟩ := h.alone x hx
      refine ⟨fun y hy => ?_, fun y c' hy => hf y c' (hinflight y c' hy).1, hone⟩
      change y ∈ (L.queue.detach c).pending at hy
      rw [hpending] at hy
      rcases List.mem_cons.mp hy with rfl | hy
      · exact hf y c hl
      · exact hp y hy

theorem step (h : L.InOrder) (hr : Reach laneMachine L) (hpart : L.queue.partitionByGroup = true)
    {a : LaneAct} (hok : L.KeepsGroupOrder a) (hs : LaneStep L a L') : L'.InOrder := by
  have hl := located hr
  obtain ⟨harrive, hback⟩ := hok hpart
  have herase : ∀ {m x : BusMessage} {c : AckHandler},
      (L.queue.inflight.erase m).lookup x = some c →
      m ≠ x ∧ L.queue.inflight.lookup x = some c := by
    intro m x c hx
    rw [Table.lookup_erase] at hx
    split_ifs at hx with hm
    exact ⟨hm, hx⟩
  cases hs with
  | @arrive m entry fresh =>
    have hearlier : ∀ x, place x L.trail ≠ .absent → x.ref < m.ref := fun x hx => by
      obtain ⟨e, he⟩ := hl.arrived x hx
      exact (fresh x e he).1
    refine h.push rfl (fun _ _ hx => hx) (fun _ hx => hx) (fun x hx _ => hearlier x ?_)
      (fun x c hx _ => hearlier x ?_) fun x hx => (harrive m entry rfl x hx).symm
    · simp [hl.mem_pending.mp hx]
    · obtain ⟨d, hd⟩ := hl.place_of_lookup hx
      simp [hd]
  | @requeue m c hm =>
    refine h.push rfl (fun _ _ hx => (herase hx).2) (fun _ hx => hx)
      (fun x hx hgroup => absurd hgroup (hback m (.inl rfl) x hx)) (fun x c' hx hgroup => ?_)
      fun x hx => (h.alone x hx).2.1 m c hm
    obtain ⟨hne, hx⟩ := herase hx
    exact absurd (single_in_group hr hpart hm hx hgroup) hne
  | park hm => exact h.park hr hpart hm (hback _ (.inr rfl))
  | @unpark m hpos =>
    obtain ⟨hp, hf, hone⟩ := h.alone m hpos
    have hparked : ∀ x, 0 < Function.update L.parked m (L.parked m - 1) x →
        0 < L.parked x ∧ x ≠ m := by
      intro x hx
      have hle : L.parked m ≤ 1 := by
        rw [hl.parked]
        split_ifs <;> omega
      rw [Function.update_apply] at hx
      split_ifs at hx with hm
      · omega
      · exact ⟨hx, hm⟩
    refine h.push rfl (fun _ _ hx => hx) (fun x hx => (hparked x hx).1)
      (fun x hx hgroup => absurd hgroup (hp x hx))
      (fun x c hx hgroup => absurd hgroup.symm (hf x c hx)) fun x hx hgroup => ?_
    obtain ⟨hx, hne⟩ := hparked x hx
    exact hne (hone x hx hgroup.symm)
  | deliver hch => exact h.deliver hpart hch
  | detach => exact h.detach hr hpart _
  | scan hscan =>
    refine h.shrink ?_ (fun x c hx => ?_) rfl
    · rw [hscan.frame]
    · rwa [hscan.frame] at hx
  | expirePending => exact h.shrink List.erase_sublist (fun _ _ hx => hx) rfl
  | ack | dead | expireInflight =>
    exact h.shrink (List.Sublist.refl _) (fun _ _ hx => (herase hx).2) rfl
  | attach | hand => exact h.shrink (List.Sublist.refl _) (fun _ _ hx => hx) rfl

end InOrder

theorem inOrder {L : Lane} (h : ReachIf laneMachine KeepsGroupOrder L)
    (hpart : L.queue.partitionByGroup = true) : L.InOrder := by
  refine h.invariant (I := fun L => L.queue.partitionByGroup = true → L.InOrder)
    (fun L hnew => ?_) (fun L a L' hr ih hok hs => ?_) hpart
  · exact fun _ => ⟨by simp [hnew.pending], by simp [hnew.inflight], by simp [hnew.parked]⟩
  · intro hpart
    rw [LaneStep.frame hs] at hpart
    exact (ih hpart).step hr.reach hpart hok hs

/-! ## What a delivery leaves behind -/

/-- Nothing earlier of the group of a delivered message is still to be settled. -/
def Cleared (L : Lane) : Prop :=
  ∀ m c d, .delivered m c d ∈ L.trail → ∀ x e e', .arrived x e ∈ L.trail →
    .arrived m e' ∈ L.trail → e < e' → x.group = m.group → ¬ (place x L.trail).live

/-- The message a scan picks is the earliest of its group still to be settled. -/
theorem InOrder.chosen {L : Lane} (h : L.InOrder) (hr : Reach laneMachine L)
    (hpart : L.queue.partitionByGroup = true) {Q : BusQueue} {m : BusMessage} {c : AckHandler}
    (hch : L.queue.Chosen m c Q) {x : BusMessage} (hne : x ≠ m) (hgroup : x.group = m.group)
    (hlive : (place x L.trail).live) : m.ref < x.ref := by
  have hl := located hr
  obtain ⟨before, after, hsplit, -, hbefore, -⟩ := hch.split
  have hmem : m ∈ L.queue.pending := by simp [hsplit]
  rcases hlive with hx | ⟨c', d, hx⟩ | hx
  · have hx := hl.mem_pending.mpr hx
    rw [hsplit, List.mem_append, List.mem_cons] at hx
    rcases hx with hx | rfl | hx
    · exact absurd hgroup (hbefore hpart x hx)
    · exact absurd rfl hne
    · have hsorted := h.sorted
      rw [hsplit] at hsorted
      exact (List.pairwise_cons.mp (List.pairwise_append.mp hsorted).2.1).1 x hx hgroup.symm
  · -- The group of a message in flight is pinned to its owner, who is busy.
    have hx := (hl.inflight x c').mpr ⟨d, hx⟩
    have hpin := hch.kept x.group c' (pinned hr hpart x c' hx) ((prefetch hr).attached x c' hx)
    rw [hgroup, hch.pinned hpart, Option.some.injEq] at hpin
    exact absurd (BusQueue.mem_owners.mpr ⟨x, hpin ▸ hx⟩) hch.free
  · exact absurd hgroup.symm ((h.alone x (hl.parked_pos.mpr hx)).1 m hmem)

theorem cleared {L : Lane} (h : ReachIf laneMachine KeepsGroupOrder L)
    (hpart : L.queue.partitionByGroup = true) : L.Cleared := by
  refine h.invariant (I := fun L => L.queue.partitionByGroup = true → L.Cleared)
    (fun L hnew => ?_) (fun L a L' hr ih hok hs => ?_) hpart
  · intro _ m c d hd
    simp [hnew.trail] at hd
  · intro hpart m c d hd x e e' hx hm hlt hgroup
    rw [LaneStep.frame hs] at hpart
    have hl := located hr.reach
    have harrivals := arrivals (hr.reach.step trivial hs)
    have hm₀ : ∃ e₀, .arrived m e₀ ∈ L.trail := by
      rcases hs.mem_delivered hd with hd | rfl
      · exact hl.arrived m (place_ne_absent hd rfl)
      · cases hs with
        | deliver hch =>
          obtain ⟨before, after, hsplit, -⟩ := hch.split
          exact hl.arrived m
            (by simp [hl.mem_pending.mp (show m ∈ L.queue.pending by simp [hsplit])])
    obtain ⟨e₀, hm₀⟩ := hm₀
    obtain rfl := arrived_unique harrivals hm (hs.trail_suffix.subset hm₀)
    have horder := ref_lt_of_arrived harrivals hx hm hlt
    -- What arrived earlier had arrived before this step.
    have hx₀ : .arrived x e ∈ L.trail := by
      rcases hs.mem_arrived hx with hx | rfl
      · exact hx
      · cases hs with
        | arrive fresh => exact absurd (fresh m _ hm₀).2 hlt.not_gt
    have hstays : ¬ (place x L.trail).live → ¬ (place x L'.trail).live := by
      intro hnot hlive
      have hfinal := (Place.final_or_live (place_ne_absent hx₀ rfl)).resolve_right hnot
      exact hnot (hl.final_stays hs hfinal ▸ hlive)
    refine hstays fun hlive => ?_
    rcases hs.mem_delivered hd with hd | rfl
    · exact ih hpart m c d hd x e _ hx₀ hm₀ hlt hgroup hlive
    · cases hs with
      | deliver hch =>
        have hne : x ≠ m := by
          rintro rfl
          exact lt_irrefl _ horder
        have hlater := (inOrder hr hpart).chosen hr.reach hpart hch hne hgroup hlive
        exact absurd horder hlater.not_gt

end Lane

namespace World

/-! ## The order of the groups of a bus -/

/-- The messages of a queue that wait for a retry timer. -/
def parkedOn (w : World) (q : QueueRef) : List BusMessage :=
  w.agenda.filterMap (fun
    | .armRetry q' m | .retry q' m => if q' = q then some m else none
    | _ => none) ++
  w.timers.filterMap (fun
    | .retry q' m => if q' = q then some m else none
    | _ => none)

theorem mem_parkedOn {w : World} {q : QueueRef} {m : BusMessage} :
    m ∈ w.parkedOn q ↔ 0 < w.parkedCount q m := by
  unfold parkedOn parkedCount
  rw [List.mem_append, Nat.add_pos_iff_pos_or_pos, List.countP_pos_iff, List.count_pos_iff]
  refine or_congr ?_ ?_ <;> rw [List.mem_filterMap]
  · refine exists_congr fun i => and_congr_right fun _ => ?_
    cases i <;> simp [Instr.parks]
  · constructor
    · rintro ⟨t, ht, heq⟩
      cases t <;> simp at heq
      obtain ⟨rfl, rfl⟩ := heq
      exact ht
    · exact fun ht => ⟨_, ht, by simp⟩

/-- The step puts no message of a group behind a later one, or out of its way: on a partitioned
queue, no message is handed back for redelivery while another of its group is pending, and none
is published while one of its group waits for a retry timer. -/
def keepsGroupOrder (w : World) (l : Label) : Prop :=
  match w.next l with
  | some (.publish topic _ routingKey options _) => w.bus.suppressed options = false →
      ∀ q ∈ w.bus.targets topic (routingKey.getD topic),
        (w.bus.queue q).partitionByGroup = true →
          ∀ x ∈ w.parkedOn q, x.group ≠ (options.bind (·.groupId)).getD ""
  | some (.settle h .requeue) => ∀ i ∈ w.handles[h]?,
      (w.bus.queue i.queue).partitionByGroup = true →
      (w.bus.queue i.queue).inflight.lookup i.message = some i.consumer →
      w.bus.deliveryCount i.message.ref < (w.bus.queue i.queue).maxDeliveries →
        ∀ x ∈ (w.bus.queue i.queue).pending, x.group ≠ i.message.group
  | _ => True

instance (w : World) (l : Label) : Decidable (w.keepsGroupOrder l) := by
  unfold keepsGroupOrder
  induction w.next l using Option.casesOn with
  | none => exact instDecidableTrue
  | some i =>
    induction i using Instr.casesOn with
    | settle h resolved => induction resolved using SettleKind.casesOn <;> infer_instance
    | _ => infer_instance

theorem lane_keepsGroupOrder {w : World} {l : Label} (h : w.keepsGroupOrder l) {q : QueueRef}
    {L : Lane} {a : LaneAct} (hcause : w.Caused l q L a) : L.KeepsGroupOrder a := by
  intro hpart
  refine ⟨?_, ?_⟩
  · rintro m entry rfl x hx
    obtain ⟨-, ⟨rfl, topic, body, routingKey, options, cause, hi, hsup, hq, rfl⟩ | ⟨hparked, -⟩⟩ :=
      hcause
    · rw [keepsGroupOrder, hi] at h
      exact h hsup q hq hpart x (mem_parkedOn.mpr hx)
    · simp [hparked] at hx
  · rintro m (rfl | rfl) x hx <;>
    · obtain ⟨rfl, k, i, hi, hk, rfl, rfl, hl, hbudget⟩ := hcause
      rw [keepsGroupOrder, hi] at h
      exact h i hk hpart hl hbudget x hx

/-- **Per-group order**, in runs whose steps keep it: when a message of a partitioned queue is
about to be handed to its handler, no message of its group published earlier is still pending, in
flight or waiting for a retry timer there. -/
theorem groups_in_order {w : World} (h : ReachIf busMachine keepsGroupOrder w) {q : QueueRef}
    (hpart : (w.bus.queue q).partitionByGroup = true) {l : Label} {m : BusMessage}
    {c : AckHandler} {d : Nat} (hi : w.next l = some (.wrap q m c d)) (x : BusMessage)
    (entry entry' : Nat) (hx : .arrived x entry ∈ w.trail q) (hm : .arrived m entry' ∈ w.trail q)
    (hlt : entry < entry') (hgroup : x.group = m.group) : ¬ w.owes q x := by
  have hlane : ReachIf laneMachine Lane.KeepsGroupOrder (w.lane q) :=
    guarded_lane (fun _ _ _ _ _ hok hcause => lane_keepsGroupOrder hok hcause) h
  rw [owes_iff (good h.reach)]
  exact Lane.cleared hlane hpart m c d ((tied h.reach).wraps q m c d (mem_agenda_of_next hi)) x
    entry entry' hx hm hlt hgroup

/-- One consumer on a partitioned queue, and two messages of one group: the first is in flight,
the second pending. -/
def twoOfAGroup : List Label :=
  [.call (.subscribe "t" ⟨0⟩ { partitionByGroup := true }), .run 0,
    .call (.publish "t" "a" none (some { groupId := some "g" })), .run 1, .run 1, .run 1, .run 1,
    .call (.publish "t" "b" none (some { groupId := some "g" })), .run 2, .run 2]

theorem groups_in_order_acked :
    ¬ (play {} (twoOfAGroup ++ [.call (.ack 0), .run 3, .run 3, .run 3])).owes 0
      ⟨1, "mem-bus-3", "t", "a", "t", some { groupId := some "g" }⟩ :=
  groups_in_order (reachIf_play _ (by decide)) (q := 0) (by decide) (l := .run 3)
    (m := ⟨3, "mem-bus-5", "t", "b", "t", some { groupId := some "g" }⟩) (c := ⟨0⟩) (d := 8)
    (by decide) _ 0 2 (by decide) (by decide) (by decide) (by decide)

/-- **A message handed back for redelivery is overtaken** by the later ones of its group. -/
theorem requeue_overtakes : ¬ ∀ w, Reach busMachine w → ∀ q,
    (w.bus.queue q).partitionByGroup = true → ∀ l m c d, w.next l = some (.wrap q m c d) →
      ∀ x entry entry', .arrived x entry ∈ w.trail q → .arrived m entry' ∈ w.trail q →
        entry < entry' → x.group = m.group → ¬ w.owes q x := by
  intro hclaim
  refine hclaim _ (reach_play (twoOfAGroup ++ [.call (.nack 0 true), .run 3, .run 3, .run 3])) 0
    (by decide) (.run 3) ⟨3, "mem-bus-5", "t", "b", "t", some { groupId := some "g" }⟩ ⟨0⟩ 8
    (by decide) ⟨1, "mem-bus-3", "t", "a", "t", some { groupId := some "g" }⟩ 0 2
    (by decide) (by decide) (by decide) (by decide) (.inl (by decide))

end World

end MessagingPoc
