import MessagingPoc.InMemory.Reachable

/-!
# Group pinning

On a partitioned queue `_groupAffinity` remembers the consumer a group was last delivered to. The
map is repaired only when a scan meets a stale pin, so it may name consumers that are gone; what
holds at all times is that a pin to an attached consumer stays (`pin_stays`), and that a message in
flight is pinned to its owner (`Pinned`). From the record one can tell which pins are in force
(`pinIn`), and the map agrees (`PinsKept`). The main result is `group_pinning`.
-/

namespace MessagingPoc

open Machine

/-- The consumer a group is pinned to: the one of its last delivery, unless detached since. -/
def pinIn (g : String) : List QueueEvent → Option AckHandler
  | [] => none
  | .delivered m c _ :: older => if m.group = g then some c else pinIn g older
  | .detached c :: older => if pinIn g older = some c then none else pinIn g older
  | _ :: older => pinIn g older

theorem pinIn_detachTrail (g : String) (c : AckHandler) (ms : List BusMessage)
    (t : List QueueEvent) : pinIn g (detachTrail c ms t) =
      if pinIn g t = some c then none else pinIn g t :=
  fold_detachTrail (pinIn g) (fun _ _ => rfl) c ms t

namespace Lane

/-! ## Pins on one lane -/

theorem pin_stays {L L' : Lane} {a : LaneAct} (h : LaneStep L a L') {g : String} {o : AckHandler}
    (hpin : L.queue.groupAffinity g = some o) (ho : o ∈ L.queue.consumers) :
    L'.queue.groupAffinity g = some o := by
  cases h with
  | scan hscan => exact hscan.kept g o hpin ho
  | deliver hch => exact hch.kept g o hpin ho
  | detach =>
    simp only [BusQueue.detach_eq]
    exact hpin
  | _ => exact hpin

/-- A message in flight is pinned to its owner. -/
def Pinned (L : Lane) : Prop :=
  L.queue.partitionByGroup = true →
    ∀ m c, L.queue.inflight.lookup m = some c → L.queue.groupAffinity m.group = some c

theorem pinned {L : Lane} (h : Reach laneMachine L) : L.Pinned := by
  refine h.invariant (fun L hnew => ?_) fun L a L' hr ih _ hs => ?_
  · intro _ m c hl
    simp [hnew.inflight] at hl
  · intro hpart m c hl
    have hpart₀ : L.queue.partitionByGroup = true := by
      rw [LaneStep.frame hs] at hpart
      exact hpart
    rcases hs.lookup hl with ⟨d, rfl, -⟩ | ⟨hold, -⟩
    · cases hs with
      | deliver hch => exact hch.pinned hpart₀
    · exact pin_stays hs (ih hpart₀ m c hold) ((prefetch hr).attached m c hold)

/-- **One message of a group in flight.** Its owner is the group's, and owns no other. -/
theorem single_in_group {L : Lane} (h : Reach laneMachine L)
    (hpart : L.queue.partitionByGroup = true) {m m' : BusMessage} {c c' : AckHandler}
    (hl : L.queue.inflight.lookup m = some c) (hl' : L.queue.inflight.lookup m' = some c')
    (hgroup : m.group = m'.group) : m = m' := by
  have hpin := pinned h hpart m c hl
  rw [hgroup, pinned h hpart m' c' hl', Option.some.injEq] at hpin
  exact (prefetch h).single m m' c hl (hpin ▸ hl')

/-- The pins in force are in the map, and name attached consumers. -/
def PinsKept (L : Lane) : Prop :=
  L.queue.partitionByGroup = true → ∀ g o, pinIn g L.trail = some o →
    L.queue.groupAffinity g = some o ∧ o ∈ L.queue.consumers

theorem pinsKept {L : Lane} (h : Reach laneMachine L) : L.PinsKept := by
  refine h.invariant (fun L hnew => ?_) fun L a L' _ ih _ hs => ?_
  · intro _ g o hpin
    simp [hnew.trail, pinIn] at hpin
  · intro hpart g o hpin
    have hpart₀ : L.queue.partitionByGroup = true := by
      rw [LaneStep.frame hs] at hpart
      exact hpart
    -- A pin that was in force already.
    have hold : pinIn g L.trail = some o → a ≠ .detach o →
        L'.queue.groupAffinity g = some o ∧ o ∈ L'.queue.consumers := by
      intro hpin hne
      obtain ⟨haffinity, hmem⟩ := ih hpart₀ g o hpin
      exact ⟨pin_stays hs haffinity hmem, hs.consumer_stays hmem hne⟩
    cases hs with
    | @deliver Q m c d hch =>
      change (if m.group = g then some c else pinIn g L.trail) = some o at hpin
      split_ifs at hpin with hg
      · obtain rfl := Option.some.inj hpin
        refine ⟨hg ▸ hch.pinned hpart₀, ?_⟩
        show c ∈ Q.consumers
        rw [hch.frame]
        exact hch.attached
      · exact hold hpin (by simp)
    | @detach c =>
      rw [pinIn_detachTrail] at hpin
      split_ifs at hpin with hc
      exact hold hpin (by rintro ⟨⟩; exact hc hpin)
    | _ => exact hold hpin (by simp)

/-! ## The deliveries of a group -/

/-- A delivery goes to an attached consumer, and to the one its group is pinned to, if any. -/
def FollowsPin (e : QueueEvent) (older : List QueueEvent) : Prop :=
  ∀ m c d, e = .delivered m c d → c ∈ attachedIn older ∧ ∀ o, pinIn m.group older = some o → c = o

theorem followsPin {L : Lane} (h : Reach laneMachine L)
    (hpart : L.queue.partitionByGroup = true) : Always FollowsPin L.trail := by
  refine always_deliver (K := fun L => L.queue.partitionByGroup = true) (fun hs hpart => ?_)
    (fun he m c d heq => absurd heq (he m c d)) (fun hr hpart hch _ => ?_) h hpart
  · rw [LaneStep.frame hs] at hpart
    exact hpart
  · intro m' c' d' heq
    simp only [QueueEvent.delivered.injEq] at heq
    obtain ⟨rfl, rfl, rfl⟩ := heq
    refine ⟨consumers_eq hr ▸ hch.attached, fun o hpin => ?_⟩
    obtain ⟨haffinity, hmem⟩ := pinsKept hr hpart _ o hpin
    have hkept := hch.kept _ o haffinity hmem
    rw [hch.pinned hpart, Option.some.injEq] at hkept
    exact hkept

/-- A pin is in force from a delivery until its consumer is detached. -/
theorem pinIn_since {mid older : List QueueEvent} {m : BusMessage} {c : AckHandler} {d : Nat}
    (h : Always FollowsPin (mid ++ .delivered m c d :: older)) (hmid : .detached c ∉ mid) :
    pinIn m.group (mid ++ .delivered m c d :: older) = some c := by
  induction mid with
  | nil => simp [pinIn]
  | cons e mid ih =>
    rw [List.mem_cons, not_or] at hmid
    have ih := ih h.2 hmid.2
    rw [List.cons_append]
    cases e with
    | delivered m' c' d' =>
      rw [pinIn]
      split_ifs with hgroup
      · rw [(h.1 m' c' d' rfl).2 c (hgroup ▸ ih)]
      · exact ih
    | detached c' =>
      have hne : c ≠ c' := fun heq => hmid.1 (by rw [heq])
      simp [pinIn, ih, hne]
    | _ => exact ih

end Lane

namespace World

/-- **Group pinning.** On a partitioned queue a group has at most one message in flight. From a
delivery of a group to a consumer until that consumer is detached, the group is pinned to it, it
stays attached, and it is the one every delivery of the group goes to. Each delivery, so also one
that pins a group anew, goes to an attached consumer. -/
theorem group_pinning {w : World} (h : Reach busMachine w) {q : QueueRef}
    (hpart : (w.bus.queue q).partitionByGroup = true) :
    (∀ m m' c c', (w.bus.queue q).inflight.lookup m = some c →
      (w.bus.queue q).inflight.lookup m' = some c' → m.group = m'.group → m = m') ∧
    (∀ mid older m c d, w.trail q = mid ++ .delivered m c d :: older → .detached c ∉ mid →
      (w.bus.queue q).groupAffinity m.group = some c ∧ c ∈ (w.bus.queue q).consumers) ∧
    (∀ newer mid older m m' c c' d d',
      w.trail q = newer ++ .delivered m' c' d' :: (mid ++ .delivered m c d :: older) →
      m'.group = m.group → .detached c ∉ mid → c' = c) ∧
    ∀ newer older m c d, w.trail q = newer ++ .delivered m c d :: older → c ∈ attachedIn older := by
  have hlane := lane_reach h q
  have hfollows : Always Lane.FollowsPin (w.trail q) := Lane.followsPin hlane hpart
  refine ⟨fun m m' c c' => Lane.single_in_group hlane hpart,
    fun mid older m c d htrail hmid => ?_,
    fun newer mid older m m' c c' d d' htrail hgroup hmid => ?_,
    fun newer older m c d htrail => ?_⟩
  · apply Lane.pinsKept hlane hpart m.group c
    show pinIn m.group (w.trail q) = some c
    rw [htrail] at hfollows ⊢
    exact Lane.pinIn_since hfollows hmid
  · rw [htrail] at hfollows
    have hlater := hfollows.at m' c' d' rfl
    exact hlater.2 c (hgroup ▸ Lane.pinIn_since hfollows.before hmid)
  · rw [htrail] at hfollows
    exact (hfollows.at m c d rfl).1

/-- Two consumers on a partitioned queue, and two messages of one group, each handled in turn. -/
def pinnedGroup : List Label :=
  [.call (.subscribe "t" ⟨0⟩ { subscriberId := some "s", partitionByGroup := true }), .run 0,
    .call (.subscribe "t" ⟨1⟩ { subscriberId := some "s" }), .run 1,
    .call (.publish "t" "b" none (some { groupId := some "g" })), .run 2, .run 2, .run 2,
    .call (.ack 0), .run 3, .run 3,
    .call (.publish "t" "c" none (some { groupId := some "g" })), .run 4, .run 4]

theorem group_pinning_twice :
    ((play {} pinnedGroup).bus.queue 0).partitionByGroup = true ∧
      ((play {} pinnedGroup).bus.queue 0).groupAffinity "g" = some ⟨0⟩ :=
  ⟨by decide, ((group_pinning (reach_play pinnedGroup) (q := 0) (by decide)).2.1 []
    _ ⟨3, "mem-bus-4", "t", "c", "t", some { groupId := some "g" }⟩ ⟨0⟩ _ rfl (by simp)).1⟩

end World

end MessagingPoc
