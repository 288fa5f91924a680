import MessagingPoc.TsBus.Bus

/-!
# What a `dedupId` suppresses

A `dedupId` is published once, whatever the topic: by the first call that carries it. All later
calls do nothing at all.
-/

namespace MessagingPoc.TsBus

open Machine CompetingConsumers

/-- Something is published under this id. -/
def Event.publishes (id : String) : Event → Bool
  | .published _ _ _ options _ => options.dedupId = some id
  | _ => false

namespace World

variable {w w' w'' : World} {q : QueueRef}

/-- A stretch of a run that publishes nothing. -/
structure Quiet (w w' : World) : Prop where
  history : ∃ events, w'.history = events ++ w.history ∧
    ∀ e ∈ events, ∀ id, e.publishes id = false
  seenDedupIds : w'.seenDedupIds = w.seenDedupIds

theorem Quiet.refl (w : World) : Quiet w w := ⟨⟨[], rfl, by simp⟩, rfl⟩

theorem Quiet.trans (h : Quiet w w') (h' : Quiet w' w'') : Quiet w w'' := by
  obtain ⟨events, heq, hnone⟩ := h.history
  obtain ⟨events', heq', hnone'⟩ := h'.history
  refine ⟨⟨events' ++ events, by rw [heq', heq, List.append_assoc], fun e he => ?_⟩,
    h'.seenDedupIds.trans h.seenDedupIds⟩
  rcases List.mem_append.mp he with he | he
  · exact hnone' e he
  · exact hnone e he

theorem quiet_same (hhistory : w'.history = w.history)
    (hseen : w'.seenDedupIds = w.seenDedupIds) : Quiet w w' := ⟨⟨[], hhistory, by simp⟩, hseen⟩

theorem quiet_on {a : Act BusMessage AckHandler} (hhistory : w'.history = .on q a :: w.history)
    (hseen : w'.seenDedupIds = w.seenDedupIds) : Quiet w w' := by
  refine ⟨⟨[.on q a], hhistory, fun e he id => ?_⟩, hseen⟩
  rw [List.mem_singleton.mp he]
  rfl

theorem quiet_pumpLoop (q : QueueRef) (n : Nat) (w : World) : Quiet w (pumpLoop q n w) := by
  induction n generalizing w with
  | zero => exact .refl w
  | succ n ih =>
    rw [pumpLoop]
    split
    · exact quiet_same rfl rfl
    · rename_i m c Q _
      have hdeliver : Quiet w (w.deliver q Q m c) := quiet_on rfl rfl
      exact hdeliver.trans (ih _)

theorem Quiet.pump (h : Quiet w w') (q : QueueRef) : Quiet w (w'.pump q) :=
  h.trans (quiet_pumpLoop q _ w')

theorem quiet_enqueueTo (topic body key : String) (options : PublishOptions) (w : World)
    (q : QueueRef) : Quiet w (enqueueTo topic body key options w q) := by
  unfold enqueueTo
  dsimp only
  split_ifs
  · refine Quiet.pump ?_ q
    exact quiet_on rfl rfl
  · refine Quiet.pump ?_ q
    exact quiet_on rfl rfl
  · exact .refl w

theorem quiet_foldl {α : Type*} {f : World → α → World} (hf : ∀ w x, Quiet w (f w x))
    (xs : List α) (w : World) : Quiet w (xs.foldl f w) := by
  induction xs generalizing w with
  | nil => exact .refl w
  | cons x xs ih => exact (hf w x).trans (ih (f w x))

/-- Each id that was seen was published, once, and no other id was. -/
def Tidy (w : World) : Prop := ∀ id, w.history.countP (Event.publishes id) =
  if id ∈ w.seenDedupIds.items then 1 else 0

theorem Tidy.quiet (h : Tidy w) (hq : Quiet w w') : Tidy w' := by
  intro id
  obtain ⟨events, heq, hnone⟩ := hq.history
  have hevents : events.countP (Event.publishes id) = 0 := by
    rw [List.countP_eq_zero]
    intro e he
    simp [hnone e he id]
  rw [heq, List.countP_append, hevents, Nat.zero_add, hq.seenDedupIds]
  exact h id

theorem seen_seeDedupId (options : PublishOptions) (id : String) :
    id ∈ (w.seeDedupId options).seenDedupIds.items ↔
      id ∈ w.seenDedupIds.items ∨ options.dedupId = some id := by
  unfold seeDedupId
  split
  · rename_i id' h
    rw [InsertionSet.mem_add, h, Option.some.injEq, eq_comm (a := id)]
  · rename_i h
    simp [h]

/-- What `publish` records when it suppresses nothing. -/
theorem Tidy.record (h : Tidy w) {options : PublishOptions} (hfresh : w.suppressed options = false)
    (topic body key : String) (cause : Cause) :
    Tidy (((w.seeDedupId options).appendLog topic body key options).record
      [.published topic body key options cause]) := by
  intro id
  have hhistory : (w.seeDedupId options).history = w.history := by
    unfold seeDedupId
    split <;> rfl
  show (.published topic body key options cause :: (w.seeDedupId options).history).countP _ =
    if id ∈ (w.seeDedupId options).seenDedupIds.items then 1 else 0
  rw [List.countP_cons, hhistory, h id]
  simp only [seen_seeDedupId]
  by_cases hid : options.dedupId = some id
  · have hunseen : id ∉ w.seenDedupIds.items := by simpa [suppressed, hid] using hfresh
    simp [Event.publishes, hid, hunseen]
  · simp [Event.publishes, hid]

theorem Tidy.publish (h : Tidy w) (topic body : String) (routingKey : Option String)
    (options : Option PublishOptions) (cause : Cause) :
    Tidy (w.publish topic body routingKey options cause) := by
  unfold World.publish
  dsimp only
  split_ifs with hsuppressed
  · exact h
  · rw [Bool.not_eq_true] at hsuppressed
    exact (h.record hsuppressed topic body _ cause).quiet
      (quiet_foldl (quiet_enqueueTo topic body _ _) _ _)

theorem Tidy.pump (h : Tidy w) (q : QueueRef) : Tidy (w.pump q) := h.quiet ((Quiet.refl w).pump q)

theorem Tidy.deadLetter (h : Tidy w) (q : QueueRef) (m : BusMessage) :
    Tidy (w.deadLetter q m) := by
  unfold World.deadLetter
  split_ifs
  · exact h.publish _ _ _ _ _
  · exact h

theorem Tidy.settle (h : Tidy w) (i : Handle) (resolved : BusQueue.Settlement) :
    Tidy (w.settle i resolved) := by
  have hreleased : Tidy (w.release i.queue i.message (.settle i.message)) :=
    h.quiet (quiet_on rfl rfl)
  unfold World.settle
  dsimp only
  split_ifs
  · exact h
  · split
    · exact hreleased.pump _
    · exact (hreleased.deadLetter _ _).pump _
    · refine Tidy.pump (h.quiet ?_) _
      exact quiet_on rfl rfl
    · refine Tidy.pump (h.quiet ?_) _
      exact quiet_on rfl rfl

theorem Tidy.settleHandle (h : Tidy w) (n : Nat) (resolved : BusQueue.Settlement) :
    Tidy (w.settleHandle n resolved) := by
  unfold World.settleHandle
  split
  · exact h
  · exact (h.settle _ resolved).quiet (quiet_same rfl rfl)

theorem quiet_seed (q : QueueRef) (w : World) (logged : BusMessage) :
    Quiet w (seed q w logged) := by
  unfold seed
  split_ifs
  · exact quiet_on rfl rfl
  · exact .refl w

theorem quiet_subscribe (w : World) (topic : String) (handler : AckHandler)
    (options : SubscribeOptions) : Quiet w (w.subscribe topic handler options) := by
  have hid : Quiet w (w.subscriberId options).2 := by
    unfold subscriberId
    split <;> exact quiet_same rfl rfl
  have hqueue : ∀ (w : World) (id : String), Quiet w (w.queueFor topic id options).2 := by
    intro w id
    have hcreate : Quiet w (w.createQueue topic (key topic id) options) := by
      refine ⟨⟨[.created w.nextQueue topic options], rfl, fun e he id => ?_⟩, rfl⟩
      rw [List.mem_singleton.mp he]
      rfl
    unfold queueFor
    split
    · exact .refl w
    · dsimp only
      split_ifs
      · exact hcreate.trans (quiet_foldl (quiet_seed _) _ _)
      · exact hcreate
  have hattach : ∀ (w : World) (q : QueueRef), Quiet w (w.attach q handler) := fun w q =>
    quiet_on rfl rfl
  simp only [subscribe]
  set q := ((w.subscriberId options).2.queueFor topic (w.subscriberId options).1 options).1
  exact (Quiet.pump ((hid.trans (hqueue _ _)).trans (hattach _ q)) q).trans (quiet_same rfl rfl)

theorem quiet_unsubscribe (w : World) (q : QueueRef) (c : AckHandler) :
    Quiet w (w.unsubscribe q c) := by
  have hgiveBack : ∀ (w : World) (m : BusMessage), Quiet w (giveBack q w m) := fun w m =>
    quiet_on rfl rfl
  have hleft : Quiet w (w.setQueue q { w.queue q with
      consumers := (w.queue q).consumers.erase c }) := quiet_same rfl rfl
  unfold unsubscribe
  refine Quiet.pump ((hleft.trans (quiet_foldl hgiveBack ((w.queue q).heldBy c) _)).trans ?_) q
  exact quiet_on rfl rfl

theorem Tidy.expire (h : Tidy w) (q : QueueRef) (m : BusMessage) : Tidy (w.expire q m) := by
  unfold World.expire
  dsimp only
  split_ifs
  · refine Tidy.publish (h.quiet ?_) _ _ _ _ _
    exact quiet_on rfl rfl
  · refine Tidy.publish (h.quiet ?_) _ _ _ _ _
    exact quiet_on rfl rfl
  · exact h

theorem Tidy.step (h : Tidy w) {l : Label} (hs : w.step l = some w') : Tidy w' := by
  cases l with
  | publish topic body routingKey options =>
    obtain rfl := Option.some.inj hs
    exact h.publish _ _ _ _ _
  | subscribe topic handler options =>
    obtain rfl := Option.some.inj hs
    exact h.quiet (quiet_subscribe w topic handler options)
  | unsubscribe s =>
    obtain ⟨⟨q, c⟩, -, rfl⟩ := Option.map_eq_some_iff.mp hs
    exact h.quiet (quiet_unsubscribe w q c)
  | ack i | nack i requeue =>
    simp only [World.step] at hs
    by_cases hstarted : (w.handles[i]?).any (·.started) = true
    · rw [if_pos hstarted] at hs
      obtain rfl := Option.some.inj hs
      exact h.settleHandle i _
    · rw [if_neg hstarted] at hs
      simp at hs
  | returns i =>
    simp only [World.step] at hs
    split_ifs at hs
    · obtain rfl := Option.some.inj hs
      exact h.quiet (quiet_same rfl rfl)
  | throws i =>
    simp only [World.step] at hs
    split at hs
    · simp at hs
    · have hended :
          Tidy { w with handles := w.handles.modify i fun i => { i with ended := true } } :=
        h.quiet (quiet_same rfl rfl)
      split_ifs at hs
      · obtain rfl := Option.some.inj hs
        exact hended
      · obtain rfl := Option.some.inj hs
        exact hended.settleHandle i _
  | microtask =>
    simp only [World.step] at hs
    split at hs
    · simp at hs
    · obtain rfl := Option.some.inj hs
      exact h.quiet (quiet_same rfl rfl)
  | fire i =>
    obtain ⟨t, -, rfl⟩ := Option.map_eq_some_iff.mp hs
    have hfired : Tidy { w with timers := w.timers.eraseIdx i } := h.quiet (quiet_same rfl rfl)
    cases t with
    | expiry q m => exact hfired.expire q m
    | retry q m =>
      refine Tidy.pump (hfired.quiet ?_) q
      exact quiet_on rfl rfl
  | dispose =>
    obtain rfl := Option.some.inj hs
    exact h.quiet (quiet_same rfl rfl)

theorem tidy (h : Reach machine w) : Tidy w := by
  refine h.invariant (fun w hw => ?_) fun w l w' _ ih _ hs => ih.step hs
  obtain rfl : w = {} := hw
  simp [Tidy]

/-- **A `dedupId` is published once**, on whatever topic, and a call that carries it does nothing
when it has been published, and publishes when it has not. -/
theorem published_once (h : Reach machine w) (id : String) :
    w.history.countP (Event.publishes id) ≤ 1 ∧
      ∀ topic body routingKey options, options.dedupId = some id →
        if w.history.countP (Event.publishes id) = 0 then
          ∃ w', w.step (.publish topic body routingKey (some options)) = some w' ∧
            .published topic body (routingKey.getD topic) options .client ∈ w'.history
        else w.step (.publish topic body routingKey (some options)) = some w := by
  have hcount := tidy h id
  refine ⟨by rw [hcount]; split_ifs <;> omega, fun topic body routingKey options hid => ?_⟩
  have hsuppressed : w.suppressed options = decide (id ∈ w.seenDedupIds.items) := by
    simp [suppressed, hid]
  split_ifs with hzero
  · rw [hcount] at hzero
    have hunseen : w.suppressed options = false := by simpa [hsuppressed] using hzero
    refine ⟨_, rfl, ?_⟩
    show _ ∈ (w.publish topic body routingKey (some options) .client).history
    unfold World.publish
    dsimp only
    rw [Option.getD_some, if_neg (by simp [hunseen])]
    set w₁ := ((w.seeDedupId options).appendLog topic body (routingKey.getD topic) options).record
      [.published topic body (routingKey.getD topic) options .client] with hw₁
    obtain ⟨events, heq, -⟩ :=
      (quiet_foldl (quiet_enqueueTo topic body (routingKey.getD topic) options)
        (w₁.byTopic topic).items w₁).history
    rw [heq]
    exact List.mem_append_right _ List.mem_cons_self
  · rw [hcount] at hzero
    have hseen : w.suppressed options = true := by simpa [hsuppressed] using hzero
    show some (w.publish topic body routingKey (some options) .client) = some w
    unfold World.publish
    dsimp only
    rw [Option.getD_some, if_pos hseen]

/-- The same id on two topics. -/
def repeated : List Label :=
  [.publish "t" "a" none (some { dedupId := some "d" }),
    .publish "u" "b" none (some { dedupId := some "d" })]

theorem published_once_repeated :
    (play step {} repeated).history.countP (Event.publishes "d") ≤ 1 :=
  (published_once (reach_play repeated) "d").1

end World

end MessagingPoc.TsBus
