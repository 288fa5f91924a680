import MessagingPoc.InMemory.Lane

/-!
# What `Publish` and `Subscribe` enqueue

The loops of the two operations that allocate messages: one fresh message for each target queue of
a publish (`Copied`), and one for each logged message a new queue replays (`Seeded`).
-/

namespace MessagingPoc

open Machine

namespace Bus

/-! ## The copies of a publish -/

/-- `copies` are fresh messages, one for each queue of `qs`, and each is the last pending message
of its queue. -/
structure Copied (topic body key : String) (options : Option PublishOptions)
    (qs : List QueueRef) (b : Bus) (copies : List (QueueRef × BusMessage)) (b' : Bus) : Prop where
  frame : b' = { b with queue := b'.queue, seq := b'.seq, nextRef := b'.nextRef }
  grows : b.nextRef ≤ b'.nextRef
  targets : copies.map Prod.fst = qs
  fresh : ∀ t ∈ copies, b.nextRef ≤ t.2.ref ∧ t.2.ref < b'.nextRef
  contents : ∀ t ∈ copies, t.2.topic = topic ∧ t.2.body = body ∧ t.2.routingKey = key ∧
    t.2.options = options
  distinct : ∀ t ∈ copies, ∀ u ∈ copies, t.2.ref = u.2.ref → t = u
  enqueued : ∀ t ∈ copies, b'.queue t.1 = (b.queue t.1).push t.2
  others : ∀ q ∉ qs, b'.queue q = b.queue q

theorem enqueue_queue (b : Bus) (q q' : QueueRef) (m : BusMessage) :
    (b.enqueue q m).queue q' = if q' = q then (b.queue q).push m else b.queue q' := by
  simp only [enqueue, setQueue, Function.update_apply]
  rfl

theorem copied_enqueueCopies {topic body key : String} {options : Option PublishOptions}
    {qs : List QueueRef} (hnodup : qs.Nodup) {b b' : Bus} {copies : List (QueueRef × BusMessage)}
    (h : enqueueCopies topic body key options qs b = (copies, b')) :
    Copied topic body key options qs b copies b' := by
  induction qs generalizing b copies with
  | nil =>
    obtain ⟨rfl, rfl⟩ := Prod.mk.inj h
    exact ⟨rfl, le_rfl, rfl, by simp, by simp, by simp, by simp, fun _ _ => rfl⟩
  | cons q qs ih =>
    obtain ⟨hq, hqs⟩ := List.nodup_cons.mp hnodup
    simp only [enqueueCopies, newMessage] at h
    set m : BusMessage := ⟨b.nextSeq.nextRef, _, topic, body, key, options⟩ with hm
    set b₁ : Bus := enqueue { b.nextSeq with nextRef := b.nextSeq.nextRef + 1 } q m with hb₁
    rcases hrest : enqueueCopies topic body key options qs b₁ with ⟨rest, b₂⟩
    simp only [hrest, Prod.mk.injEq] at h
    obtain ⟨rfl, rfl⟩ := h
    have ih := ih hqs hrest
    have hnext : b₁.nextRef = b.nextRef + 1 := rfl
    have hqueue : ∀ q', b₁.queue q' = if q' = q then (b.queue q).push m else b.queue q' :=
      fun q' => enqueue_queue _ q q' m
    have hrefs : ∀ t ∈ rest, b.nextRef < t.2.ref := fun t ht => (ih.fresh t ht).1
    have hgrows := ih.grows
    have hne : ∀ t ∈ rest, t.1 ≠ q := by
      rintro t ht rfl
      exact hq (ih.targets ▸ List.mem_map_of_mem ht)
    refine ⟨?_, by omega, by simp [ih.targets], ?_, ?_, ?_, ?_, ?_⟩
    · rw [ih.frame]
      rfl
    · rintro t (_ | ⟨_, ht⟩)
      · exact ⟨le_rfl, by show b.nextRef < _; omega⟩
      · exact ⟨(hrefs t ht).le, (ih.fresh t ht).2⟩
    · rintro t (_ | ⟨_, ht⟩)
      · exact ⟨rfl, rfl, rfl, rfl⟩
      · exact ih.contents t ht
    · rintro t (_ | ⟨_, ht⟩) u (_ | ⟨_, hu⟩) heq
      · rfl
      · exact absurd heq (hrefs u hu).ne
      · exact absurd heq (hrefs t ht).ne'
      · exact ih.distinct t ht u hu heq
    · rintro t (_ | ⟨_, ht⟩)
      · rw [ih.others q hq, hqueue, if_pos rfl]
      · rw [ih.enqueued t ht, hqueue, if_neg (hne t ht)]
    · intro q' hq'
      rw [List.mem_cons, not_or] at hq'
      rw [ih.others q' hq'.2, hqueue, if_neg hq'.1]

/-- The events of one queue among those of all copies. -/
theorem filterMap_copies {copies : List (QueueRef × BusMessage)}
    (hnodup : (copies.map Prod.fst).Nodup) (entry : Nat) (q : QueueRef) :
    (∀ m, (q, m) ∈ copies →
      (copies.map fun t => Event.on t.1 (.arrived t.2 entry)).reverse.filterMap
        (Event.onQueue q) = [.arrived m entry]) ∧
    ((∀ m, (q, m) ∉ copies) →
      (copies.map fun t => Event.on t.1 (.arrived t.2 entry)).reverse.filterMap
        (Event.onQueue q) = []) := by
  induction copies with
  | nil => simp
  | cons t copies ih =>
    rw [List.map_cons, List.nodup_cons] at hnodup
    obtain ⟨ht, hnodup⟩ := hnodup
    obtain ⟨ihmem, ihnot⟩ := ih hnodup
    have hnone : ∀ m, t.1 = q → (q, m) ∉ copies := by
      rintro m rfl hm
      exact ht (List.mem_map.mpr ⟨_, hm, rfl⟩)
    simp only [List.map_cons, List.reverse_cons, List.filterMap_append]
    refine ⟨fun m hm => ?_, fun hm => ?_⟩
    · rcases List.mem_cons.mp hm with rfl | hm
      · rw [ihnot fun m => hnone m rfl]
        simp [Event.onQueue]
      · have hne : t.1 ≠ q := fun heq => hnone m heq hm
        rw [ihmem m hm]
        simp [Event.onQueue, hne]
    · have hne : t.1 ≠ q := fun heq => hm t.2 (by rw [← heq]; exact List.mem_cons_self)
      rw [ihnot fun m hmem => hm m (List.mem_cons_of_mem t hmem)]
      simp [Event.onQueue, hne]

/-! ## The log -/

theorem appendLog_eq {b b₁ : Bus} {topic body key : String} {options : Option PublishOptions}
    {logged : BusMessage} (h : (b.seeDedupId options).appendLog topic body key options =
      (logged, b₁)) :
    logged.ref = b.nextRef ∧ logged.options = options ∧ b₁ = { b with
      seenDedupIds := b₁.seenDedupIds
      streamLog := Function.update b.streamLog topic (b.streamLog topic ++ [logged])
      seq := b₁.seq
      nextRef := b.nextRef + 1 } := by
  unfold seeDedupId at h
  split at h <;>
  · simp only [appendLog, newMessage, nextSeq, Prod.mk.injEq] at h
    obtain ⟨rfl, rfl⟩ := h
    exact ⟨rfl, rfl, rfl⟩

theorem subscriberId_eq {b b₁ : Bus} {opts : SubscribeOptions} {id : String}
    (h : b.subscriberId opts = (id, b₁)) : b₁ = { b with seq := b₁.seq } := by
  unfold subscriberId at h
  split at h <;>
  · simp only [nextSeq, Prod.mk.injEq] at h
    rw [← h.2]

/-- **What the lock body of `Publish` does** when it is not suppressed: one entry in the log, and
one fresh message at the end of `Pending` of each target, all with the content published. -/
structure Published (topic body key : String) (options : Option PublishOptions) (b : Bus)
    (logged : BusMessage) (copies : List (QueueRef × BusMessage)) (b' : Bus) : Prop where
  queues : b'.queues = b.queues
  byTopic : b'.byTopic = b.byTopic
  nextQueue : b'.nextQueue = b.nextQueue
  deliveryCount : b'.deliveryCount = b.deliveryCount
  log : b'.streamLog = Function.update b.streamLog topic (b.streamLog topic ++ [logged])
  entry : logged.ref = b.nextRef
  logged : logged.options = options
  grows : b.nextRef < b'.nextRef
  targets : copies.map Prod.fst = b.targets topic key
  fresh : ∀ t ∈ copies, b.nextRef < t.2.ref ∧ t.2.ref < b'.nextRef
  contents : ∀ t ∈ copies, t.2.topic = topic ∧ t.2.body = body ∧ t.2.routingKey = key ∧
    t.2.options = options
  distinct : ∀ t ∈ copies, ∀ u ∈ copies, t.2.ref = u.2.ref → t = u
  enqueued : ∀ t ∈ copies, b'.queue t.1 = (b.queue t.1).push t.2
  others : ∀ q ∉ b.targets topic key, b'.queue q = b.queue q

theorem nodup_targets (b : Bus) (topic key : String) : (b.targets topic key).Nodup :=
  (b.byTopic topic).nodup.filter _

theorem published {b b₁ b₂ : Bus} {topic body key : String} {options : Option PublishOptions}
    {logged : BusMessage} {copies : List (QueueRef × BusMessage)}
    (hlog : (b.seeDedupId options).appendLog topic body key options = (logged, b₁))
    (hcopies : enqueueCopies topic body key options (b₁.targets topic key) b₁ = (copies, b₂)) :
    Published topic body key options b logged copies b₂ := by
  obtain ⟨hentry, hoptions, hb₁⟩ := appendLog_eq hlog
  have htargets : b₁.targets topic key = b.targets topic key := by
    rw [hb₁]
    rfl
  rw [htargets] at hcopies
  have h := copied_enqueueCopies (nodup_targets b topic key) hcopies
  have hqueue : b₁.queue = b.queue := by rw [hb₁]
  have hnext : b₁.nextRef = b.nextRef + 1 := by rw [hb₁]
  have hgrows := h.grows
  refine ⟨?_, ?_, ?_, ?_, ?_, hentry, hoptions, by omega, h.targets, fun t ht => ?_, h.contents,
    h.distinct,
    fun t ht => ?_, fun q hq => ?_⟩
  · rw [h.frame, hb₁]
  · rw [h.frame, hb₁]
  · rw [h.frame, hb₁]
  · rw [h.frame, hb₁]
  · rw [h.frame, hb₁]
  · obtain ⟨hlow, hhigh⟩ := h.fresh t ht
    exact ⟨by omega, hhigh⟩
  · rw [h.enqueued t ht, hqueue]
  · rw [h.others q hq, hqueue]

/-- The message a queue gets from a publish, if it is a target. -/
theorem Published.mem_iff {topic body key : String} {options : Option PublishOptions}
    {b b' : Bus} {logged : BusMessage} {copies : List (QueueRef × BusMessage)}
    (h : Published topic body key options b logged copies b') (q : QueueRef) :
    q ∈ b.targets topic key ↔ ∃ m, (q, m) ∈ copies := by
  rw [← h.targets]
  simp

/-! ## Replay -/

/-- `seeded` are fresh copies of logged messages, now pending on `q`. -/
structure Seeded (q : QueueRef) (logs : List BusMessage) (b : Bus)
    (seeded : List (BusMessage × BusMessage)) (b' : Bus) : Prop where
  frame : b' = { b with queue := b'.queue, nextRef := b'.nextRef }
  grows : b.nextRef ≤ b'.nextRef
  fresh : ∀ t ∈ seeded, b.nextRef ≤ t.1.ref ∧ t.1.ref < b'.nextRef ∧ t.2 ∈ logs
  target : b'.queue q = { b.queue q with pending := (b'.queue q).pending }
  others : ∀ q' ≠ q, b'.queue q' = b.queue q'

/-- The message a replay makes of a log entry. -/
def copyOf (b : Bus) (topic : String) (logged : BusMessage) : BusMessage :=
  ⟨b.nextRef, logged.id, topic, logged.body, logged.routingKey, logged.options⟩

theorem replay_cons {topic : String} {q : QueueRef} {logged : BusMessage} {logs : List BusMessage}
    {b b' : Bus} {seeded : List (BusMessage × BusMessage)}
    (h : replay topic q (logged :: logs) b = (seeded, b')) :
    ∃ rest, seeded = (b.copyOf topic logged, logged) :: rest ∧
      replay topic q logs (enqueue { b with nextRef := b.nextRef + 1 } q (b.copyOf topic logged)) =
        (rest, b') := by
  simp only [replay, newMessage] at h
  obtain ⟨rfl, rfl⟩ := Prod.mk.inj h
  exact ⟨_, rfl, rfl⟩

theorem seeded_replay {topic : String} {q : QueueRef} {logs : List BusMessage} {b b' : Bus}
    {seeded : List (BusMessage × BusMessage)} (h : replay topic q logs b = (seeded, b')) :
    Seeded q logs b seeded b' := by
  induction logs generalizing b seeded with
  | nil =>
    obtain ⟨rfl, rfl⟩ := Prod.mk.inj h
    exact ⟨rfl, le_rfl, by simp, rfl, fun _ _ => rfl⟩
  | cons logged logs ih =>
    obtain ⟨rest, rfl, hrest⟩ := replay_cons h
    set b₁ : Bus := enqueue { b with nextRef := b.nextRef + 1 } q (b.copyOf topic logged)
    have ih := ih hrest
    have hgrows : b.nextRef + 1 ≤ b'.nextRef := ih.grows
    have htarget : b₁.queue q = (b.queue q).push (b.copyOf topic logged) :=
      (enqueue_queue ..).trans (if_pos rfl)
    refine ⟨?_, by omega, ?_, ?_, fun q' hq' => ?_⟩
    · rw [ih.frame]
      rfl
    · rintro t (_ | ⟨_, ht⟩)
      · exact ⟨le_rfl, by show b.nextRef < _; omega, List.mem_cons_self⟩
      · obtain ⟨h₁, h₂, h₃⟩ := ih.fresh t ht
        have h₁ : b.nextRef + 1 ≤ t.1.ref := h₁
        exact ⟨by omega, h₂, List.mem_cons_of_mem logged h₃⟩
    · conv_lhs => rw [ih.target, htarget]
      rfl
    · rw [ih.others q' hq']
      exact (enqueue_queue ..).trans (if_neg hq')

/-- **A replay is a run of arrivals** on a queue no retry timer is armed for. -/
theorem replay_run {topic : String} {q : QueueRef} {logs : List BusMessage} {b b' : Bus}
    {seeded : List (BusMessage × BusMessage)} (h : replay topic q logs b = (seeded, b'))
    (hsorted : logs.Pairwise fun x y => x.ref < y.ref) {ok : Lane → LaneAct → Prop}
    (L : Lane) (hqueue : L.queue = b.queue q)
    (hok : ∀ L' m entry, L'.parked = L.parked → b.nextRef ≤ m.ref →
      (∃ logged ∈ logs, m.options = logged.options) → ok L' (.arrive m entry))
    (hfresh : ∀ x e, .arrived x e ∈ L.trail → x.ref < b.nextRef ∧ ∀ m ∈ logs, e < m.ref) :
    Run laneMachine ok L { L with
      queue := b'.queue q
      trail := (seeded.map fun t => .arrived t.1 t.2.ref).reverse ++ L.trail } := by
  induction logs generalizing b seeded L with
  | nil =>
    obtain ⟨rfl, rfl⟩ := Prod.mk.inj h
    rw [← hqueue]
    exact Run.refl L
  | cons logged logs ih =>
    obtain ⟨hlogged, hsorted⟩ := List.pairwise_cons.mp hsorted
    obtain ⟨rest, rfl, hrest⟩ := replay_cons h
    set m := b.copyOf topic logged
    have hfirst : LaneStep L (.arrive m logged.ref)
        (L.note (L.queue.push m) (.arrived m logged.ref)) :=
      .arrive fun x e hx => ⟨(hfresh x e hx).1, (hfresh x e hx).2 logged List.mem_cons_self⟩
    refine (Run.single (hok L m _ rfl le_rfl ⟨logged, List.mem_cons_self, rfl⟩) hfirst).trans ?_
    have hrun := ih hrest hsorted (L.note (L.queue.push m) (.arrived m logged.ref)) ?_ ?_ ?_
    · simpa [Lane.note] using hrun
    · rw [enqueue_queue, if_pos rfl]
      exact congrArg (·.push m) hqueue
    · intro L' x entry hL' hx hoptions
      obtain ⟨y, hy, hoptions⟩ := hoptions
      exact hok L' x entry hL' (Nat.le_of_succ_le hx)
        ⟨y, List.mem_cons_of_mem logged hy, hoptions⟩
    · intro x e hx
      show x.ref < b.nextRef + 1 ∧ _
      rcases List.mem_cons.mp hx with heq | hx
      · simp only [QueueEvent.arrived.injEq] at heq
        obtain ⟨rfl, rfl⟩ := heq
        exact ⟨Nat.lt_succ_self _, hlogged⟩
      · obtain ⟨hx, he⟩ := hfresh x e hx
        exact ⟨by omega, fun y hy => he y (List.mem_cons_of_mem logged hy)⟩

theorem mem_of_mem_backlog {b : Bus} {topic : String} {q : QueueRef} {opts : SubscribeOptions}
    {logged : BusMessage} (h : logged ∈ b.backlog topic q opts) :
    logged ∈ b.streamLog topic := by
  unfold backlog at h
  split_ifs at h
  · exact List.mem_of_mem_filter h
  · exact absurd h List.not_mem_nil

/-- **What the lock body of `Subscribe` does** when it creates a queue, up to the attachment of the
consumer. -/
structure Created (topic key : String) (opts : SubscribeOptions) (b : Bus)
    (seeded : List (BusMessage × BusMessage)) (b' : Bus) : Prop where
  queues : b'.queues = Function.update b.queues key (some b.nextQueue)
  byTopic : b'.byTopic = Function.update b.byTopic topic ((b.byTopic topic).add b.nextQueue)
  nextQueue : b'.nextQueue = b.nextQueue + 1
  deliveryCount : b'.deliveryCount = b.deliveryCount
  log : b'.streamLog = b.streamLog
  grows : b.nextRef ≤ b'.nextRef
  fresh : ∀ t ∈ seeded, b.nextRef ≤ t.1.ref ∧ t.1.ref < b'.nextRef ∧
    t.2 ∈ b.streamLog topic
  target : b'.queue b.nextQueue = { newQueue topic opts with
    pending := (b'.queue b.nextQueue).pending }
  others : ∀ q ≠ b.nextQueue, b'.queue q = b.queue q

theorem created {b b₁ b₂ b₃ : Bus} {topic id : String} {opts : SubscribeOptions}
    {seeded : List (BusMessage × BusMessage)} (hid : b.subscriberId opts = (id, b₁))
    (hb₂ : b₂ = b₁.createQueue topic (key topic id) opts)
    (hseeded : replay topic b₁.nextQueue (b₂.backlog topic b₁.nextQueue opts) b₂ =
      (seeded, b₃)) : Created topic (key topic id) opts b seeded b₃ := by
  have hb₁ := subscriberId_eq hid
  have h := seeded_replay hseeded
  have hnext : b₁.nextQueue = b.nextQueue := by rw [hb₁]
  have href : b₂.nextRef = b.nextRef := by rw [hb₂, createQueue, hb₁]
  have hlog : b₂.streamLog = b.streamLog := by rw [hb₂, createQueue, hb₁]
  refine ⟨?_, ?_, ?_, ?_, ?_, ?_, fun t ht => ?_, ?_, fun q hq => ?_⟩
  · rw [h.frame, hb₂, createQueue, hb₁]
  · rw [h.frame, hb₂, createQueue, hb₁]
  · rw [h.frame, hb₂, createQueue, hb₁]
  · rw [h.frame, hb₂, createQueue, hb₁]
  · rw [h.frame, hlog]
  · rw [← href]
    exact h.grows
  · obtain ⟨hlow, hhigh, hmem⟩ := h.fresh t ht
    exact ⟨href ▸ hlow, hhigh, hlog ▸ mem_of_mem_backlog hmem⟩
  · have hqueue : b₂.queue b.nextQueue = newQueue topic opts := by
      rw [hb₂, ← hnext]
      exact Function.update_self ..
    rw [hnext] at h
    rw [h.target, hqueue]
  · have hqueue : b₂.queue q = b₁.queue q := by
      rw [hb₂]
      exact Function.update_of_ne (hnext ▸ hq) ..
    rw [h.others q (hnext ▸ hq), hqueue, hb₁]

end Bus

end MessagingPoc
