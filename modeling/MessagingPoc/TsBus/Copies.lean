import MessagingPoc.TsBus.Delivery

/-!
# Copies of dead and expired messages

A message that is dead-lettered or expires is published again, once, at the address its queue's
topic has for it, with its body and routing key and none of its options; and only a message that has
left its queue for good is.
-/

namespace MessagingPoc.TsBus

open Machine CompetingConsumers

/-- The message that a copy is of, and its queue. -/
def Cause.about : Cause → Option (QueueRef × BusMessage)
  | .client => none
  | .deadLetter q m | .expiry q m => some (q, m)

/-- The event publishes a copy of this message. -/
def Event.copies (q : QueueRef) (m : BusMessage) : Event → Bool
  | .published _ _ _ _ cause => cause.about = some (q, m)
  | _ => false

namespace World

variable {w w' : World} {q : QueueRef} {m : BusMessage}

/-- How often a message has been copied. -/
def copies (w : World) (q : QueueRef) (m : BusMessage) : Nat := w.history.countP (Event.copies q m)

/-- The message has just left its queue for good. -/
def justEnded (w : World) (q : QueueRef) (m : BusMessage) : Bool :=
  w.history.head?.any fun
    | .on q' a => q' = q ∧ a.ends m
    | _ => false

theorem justEnded_of_due {topic body key : String} {options : PublishOptions} {cause : Cause}
    (h : cause.Due w topic body key options) (habout : cause.about = some (q, m)) :
    w.justEnded q m = true := by
  cases cause with
  | client => simp [Cause.about] at habout
  | deadLetter q' m' | expiry q' m' =>
    obtain ⟨rfl, rfl⟩ : q' = q ∧ m' = m := by simpa [Cause.about] using habout
    simp [justEnded, h.1]

theorem copies_le_ends (h : Reach turns w) (q : QueueRef) (m : BusMessage) :
    w.copies q m + (w.justEnded q m).toNat ≤ (w.view q).ends m := by
  refine h.invariant
    (I := fun w => w.copies q m + (w.justEnded q m).toNat ≤ (w.view q).ends m) (fun w hw => ?_)
    fun w _ w' hr ih _ h => ?_
  · obtain rfl : w = {} := hw
    simp [copies, justEnded]
  · have hg := good hr
    rcases hg.turn_cases h with h | ⟨topic, key, options, rfl⟩ | ⟨q', h⟩ | ⟨q', a, h⟩
    · rw [h.view]
      rcases h.history with heq | ⟨topic, body, key, options, cause, hdue, heq⟩
      · rw [copies, justEnded, heq]
        exact ih
      · have hcopies : w'.copies q m =
            w.copies q m + (Event.copies q m (.published topic body key options cause)).toNat := by
          rw [copies, heq, List.countP_cons, copies]
          cases Event.copies q m (.published topic body key options cause) <;> rfl
        have hnone : w'.justEnded q m = false := by simp [justEnded, heq]
        rw [hcopies, hnone]
        by_cases habout : cause.about = some (q, m)
        · rw [justEnded_of_due hdue habout] at ih
          simpa [Event.copies, habout] using ih
        · simpa [Event.copies, habout] using (Nat.le_add_right ..).trans ih
    · exact (Nat.le_add_right ..).trans ih
    · have hhistory : w'.history = w.history := by rw [h.eq]; rfl
      have hends : (w'.view q).ends m = (w.view q).ends m := by
        rw [h.view]
        split_ifs with hq
        · subst hq
          rfl
        · rfl
      rw [copies, justEnded, hhistory, hends]
      exact ih
    · have hcopies : w'.copies q m = w.copies q m := by
        rw [copies, h.acts.history, List.countP_cons]
        simp [Event.copies, copies]
      have hle := (Nat.le_add_right ..).trans ih
      rw [hcopies]
      by_cases hq : q = q'
      · subst hq
        have hended : w'.justEnded q m = a.ends m := by simp [justEnded, h.acts.history]
        rw [hended, (h.step.counts m).2.2.2]
        omega
      · have hended : w'.justEnded q m = false := by
          simp [justEnded, h.acts.history, Ne.symm hq]
        rw [hended, h.acts.view_of_ne hq]
        exact hle

/-- What a copy looks like: the message's body and routing key, and none of its options. -/
def Faithful (w : World) (topic body key : String) (options : PublishOptions) : Cause → Prop
  | .client => True
  | .deadLetter q m => q < w.nextQueue ∧ (w.queue q).deadLetter = true ∧
      topic = deadLetterAddress (w.queue q).topic ∧ body = m.body ∧ key = m.routingKey ∧
      options = {}
  | .expiry q m => q < w.nextQueue ∧
      topic = expiryAddress (w.queue q).topic ∧ body = m.body ∧ key = m.routingKey ∧ options = {}

theorem used_of_head (hg : Good w) {a : Act BusMessage AckHandler}
    (h : w.history.head? = some (.on q a)) : q < w.nextQueue := by
  refine hg.used_of_trail ?_
  obtain ⟨older, heq⟩ := List.head?_eq_some_iff.mp h
  rw [trail, heq, List.filterMap_cons]
  simp [Event.onQueue]

theorem faithful_of_due (hg : Good w) {topic body key : String} {options : PublishOptions}
    {cause : Cause} (h : cause.Due w topic body key options) :
    w.Faithful topic body key options cause := by
  cases cause with
  | client => trivial
  | deadLetter q m => exact ⟨used_of_head hg h.1, h.2⟩
  | expiry q m => exact ⟨used_of_head hg h.1, h.2⟩

theorem Good.faithful_turn (hg : Good w) (ht : Turn w w') {topic body key : String}
    {options : PublishOptions} {cause : Cause} (h : w.Faithful topic body key options cause) :
    w'.Faithful topic body key options cause := by
  cases cause with
  | client => trivial
  | deadLetter q m =>
    obtain ⟨hq, hdead, htopic, hrest⟩ := h
    have hrules := hg.rules ht hq
    refine ⟨hq.trans_le ht.nextQueue_le, ?_, ?_, hrest⟩
    · rw [hrules]
      exact hdead
    · rw [hrules.topic]
      exact htopic
  | expiry q m =>
    obtain ⟨hq, htopic, hrest⟩ := h
    refine ⟨hq.trans_le ht.nextQueue_le, ?_, hrest⟩
    rw [(hg.rules ht hq).topic]
    exact htopic

theorem faithful (h : Reach turns w) {topic body key : String} {options : PublishOptions}
    {cause : Cause} (hmem : .published topic body key options cause ∈ w.history) :
    w.Faithful topic body key options cause := by
  refine h.invariant (I := fun w => .published topic body key options cause ∈ w.history →
    w.Faithful topic body key options cause) (fun w hw => ?_) (fun w _ w' hr ih _ h hmem => ?_) hmem
  · obtain rfl : w = {} := hw
    simp
  · have hg := good hr
    refine hg.faithful_turn h ?_
    rcases hg.turn_cases h with ha | ⟨_, _, _, rfl⟩ | ⟨_, hl⟩ | ⟨_, _, hm⟩
    · rcases ha.history with heq | ⟨_, _, _, _, _, hdue, heq⟩
      · exact ih (heq ▸ hmem)
      · rw [heq, List.mem_cons] at hmem
        rcases hmem with hnew | hold
        · obtain ⟨rfl, rfl, rfl, rfl, rfl⟩ := Event.published.inj hnew
          exact faithful_of_due hg hdue
        · exact ih hold
    · exact ih (by simpa [createQueue] using hmem)
    · have hhistory : w'.history = w.history := by rw [hl.eq]; rfl
      exact ih (hhistory ▸ hmem)
    · rw [hm.acts.history, List.mem_cons] at hmem
      rcases hmem with hnew | hold
      · simp at hnew
      · exact ih hold

/-- **A copy is made once, of what is gone**, and it is what it should be: a dead or expired message
is published again at most once, at its address, and is on its queue no more. -/
theorem copied_once (h : Reach machine w) (q : QueueRef) (m : BusMessage) :
    w.copies q m ≤ 1 ∧ (w.copies q m ≠ 0 → w.places q m = 0) ∧
      ∀ topic body key options cause, .published topic body key options cause ∈ w.history →
        w.Faithful topic body key options cause := by
  have ht := reach_turns h
  have hsum := places_add_ends ht q m
  have hle := ((good ht).conserved q m).2
  have hends : w.copies q m ≤ (w.view q).ends m :=
    (Nat.le_add_right ..).trans (copies_le_ends ht q m)
  exact ⟨by omega, fun hcopies => by omega, fun _ _ _ _ _ => faithful ht⟩

/-- A message that is dead-lettered. -/
def deadLettered : List Label :=
  [.subscribe "t" ⟨0⟩ { subscriberId := some "s", deadLetter := some true },
    .publish "t" "a" none none, .microtask, .nack 0 false]

theorem copied_once_dead : (play step {} deadLettered).places 0 firstSent = 0 :=
  (copied_once (reach_play deadLettered) 0 firstSent).2.1 (by decide)

end World

end MessagingPoc.TsBus
