import MessagingPoc.InMemory.Identity

/-!
# Transient subscriptions

`SubscribeOptions.Transient` asks for a queue that vanishes when the subscriber disconnects. The
dispose callback of a subscription detaches the consumer and puts back what it held; it takes the
queue out of neither table, whatever the options say. So the queue a `Subscribe` creates outlives
the subscription, with all its messages, unless the whole bus is disposed of in between
(`vanishes_iff`).
-/

namespace MessagingPoc

open Machine

/-- A `Subscribe` finds the queue, or a `Publish` reaches it. -/
def Bus.Knows (b : Bus) (q : QueueRef) : Prop :=
  (∃ key, b.queues key = some q) ∨ ∃ topic, q ∈ (b.byTopic topic).items

namespace World

/-- What a step has executed. -/
def executed (w : World) (l : Label) : List Instr := (w.next l).toList

end World

/-- The bus beside the record of the steps its threads took, the newest first. -/
def executedMachine : System (World × List Instr) Label := busMachine.recording World.executed

namespace World

/-! ## The tables of queues -/

/-- A step makes known at most the queue it creates. -/
theorem known_exec {w : World} {i : Instr} {o : Outcome} (hex : Executes w i o) {q : QueueRef}
    (h : o.world.bus.Knows q) : w.bus.Knows q ∨ q = w.bus.nextQueue := by
  cases hex with
  | disposeBus =>
    rcases h with ⟨key, hkey⟩ | ⟨topic, hq⟩
    · cases hkey
    · exact absurd hq List.not_mem_nil
  | publish _ hlog hcopies =>
    have hp := Bus.published hlog hcopies
    refine .inl (h.imp ?_ ?_)
    · rintro ⟨key, hkey⟩
      exact ⟨key, hp.queues ▸ hkey⟩
    · rintro ⟨topic, hq⟩
      exact ⟨topic, hp.byTopic ▸ hq⟩
  | subscribeOld hid =>
    rw [Bus.subscriberId_eq hid] at h
    exact .inl h
  | @subscribeNew topic₀ id handler opts b₁ b₂ b₃ seeded hid hq hb₂ hseeded =>
    have hc := Bus.created hid hb₂ hseeded
    rcases h with ⟨key, hkey⟩ | ⟨topic, hq⟩
    · change b₃.queues key = some q at hkey
      rw [hc.queues, Function.update_apply] at hkey
      split_ifs at hkey
      · exact .inr (Option.some.inj hkey).symm
      · exact .inl (.inl ⟨key, hkey⟩)
    · change q ∈ (b₃.byTopic topic).items at hq
      rw [hc.byTopic, Function.update_apply] at hq
      split_ifs at hq with htopic
      · rcases InsertionSet.mem_add.mp hq with hq | rfl
        · exact .inl (.inr ⟨topic₀, hq⟩)
        · exact .inr rfl
      · exact .inl (.inr ⟨topic, hq⟩)
  | _ => exact .inl h

theorem keyed_exec {w : World} {i : Instr} {o : Outcome} (hex : Executes w i o)
    (hdispose : i ≠ .disposeBus) {key : String} {q : QueueRef}
    (h : w.bus.queues key = some q) : o.world.bus.queues key = some q := by
  by_cases hsub : ∃ topic handler opts, i = .subscribe topic handler opts
  · obtain ⟨topic, handler, opts, rfl⟩ := hsub
    rw [(subscribed hex).queues, Function.update_apply]
    split_ifs with hkey
    · rw [Bus.queueOf, ← hkey, h, Option.getD_some]
    · exact h
  · push Not at hsub
    rw [(unsubscribed hex hdispose hsub).1]
    exact h

/-! ## Runs -/

/-- A queue that exists and is not known, never to be known again. -/
def Forgotten (w : World) (q : QueueRef) : Prop := ¬ w.bus.Knows q ∧ q < w.bus.nextQueue

theorem forgotten_step {w w' : World} (hr : Reach busMachine w) {l : Label}
    (h : w.step l = some w') {q : QueueRef} (hq : w.Forgotten q) : w'.Forgotten q := by
  refine ⟨fun hknows => ?_, hq.2.trans_le (nextQueue_step (good hr) h)⟩
  cases hi : w.next l with
  | none =>
    rw [(step_idle h hi).1] at hknows
    exact hq.1 hknows
  | some i =>
    rw [(step_next h hi).1] at hknows
    rcases known_exec (w.executes i) hknows with hknows | rfl
    · exact hq.1 hknows
    · exact lt_irrefl _ hq.2

/-- After a `Dispose` of the bus, every queue there is is forgotten. -/
theorem forgotten_disposeBus {w w' : World} (hr : Reach busMachine w) {l : Label}
    (h : w.step l = some w') (hi : w.next l = some .disposeBus) {q : QueueRef}
    (hq : q < w.bus.nextQueue) : w'.Forgotten q := by
  refine ⟨?_, hq.trans_le (nextQueue_step (good hr) h)⟩
  rw [(step_next h hi).1]
  rintro (⟨key, hkey⟩ | ⟨topic, hmem⟩)
  · cases hkey
  · exact List.not_mem_nil hmem

theorem keyed_step {w w' : World} {l : Label} (h : w.step l = some w')
    (hdispose : w.next l ≠ some .disposeBus) {key : String} {q : QueueRef}
    (hq : w.bus.queues key = some q) : w'.bus.queues key = some q := by
  cases hi : w.next l with
  | none =>
    rw [(step_idle h hi).1]
    exact hq
  | some i =>
    rw [(step_next h hi).1]
    exact keyed_exec (w.executes i) (fun heq => hdispose (heq ▸ hi)) hq

/-- Along a run, a queue keeps its key until the bus is disposed of, and is forgotten then. -/
theorem kept_or_forgotten {w₁ : World} (h₁ : Reach busMachine w₁) {key : String} {q : QueueRef}
    (hkey : w₁.bus.queues key = some q) {p : World × List Instr}
    (hrun : Run executedMachine anyStep (w₁, []) p) :
    Reach busMachine p.1 ∧ (.disposeBus ∉ p.2 → p.1.bus.queues key = some q) ∧
      (.disposeBus ∈ p.2 → p.1.Forgotten q) := by
  induction hrun with
  | refl => exact ⟨h₁, fun _ => hkey, fun h => absurd h List.not_mem_nil⟩
  | @tail p p' l _ _ hstep ih =>
    obtain ⟨hr, hkept, hforgotten⟩ := ih
    obtain ⟨hstep, hnotes⟩ := step_recording.mp hstep
    have hs := busMachine_step.mp hstep
    rw [hnotes]
    refine ⟨.step hr trivial hstep, fun hnot => ?_, fun hmem => ?_⟩
    · rw [List.mem_append, not_or] at hnot
      exact keyed_step hs (fun hi => hnot.1 (by simp [executed, hi])) (hkept hnot.2)
    · by_cases hbefore : .disposeBus ∈ p.2
      · exact forgotten_step hr hs (hforgotten hbefore)
      · have hi : p.1.next l = some .disposeBus := by
          simpa [executed, Option.mem_toList, hbefore] using hmem
        exact forgotten_disposeBus hr hs hi ((good hr).sound.queues _ _ (hkept hbefore))

/-- Nothing of the queue is left: neither table knows it, and from here on no `Subscribe` gets it
and no `Publish` reaches it. -/
def Vanished (w : World) (q : QueueRef) : Prop :=
  ¬ w.bus.Knows q ∧ ∀ w', Run busMachine anyStep w w' →
    (∀ topic opts, w'.bus.queueOf topic opts ≠ q) ∧ ∀ topic key, q ∉ w'.bus.targets topic key

theorem queueOf_ne {w : World} {q : QueueRef} (hq : w.Forgotten q) (topic : String)
    (opts : SubscribeOptions) : w.bus.queueOf topic opts ≠ q := by
  intro heq
  unfold Bus.queueOf at heq
  cases hkey : w.bus.queues (w.bus.keyOf topic opts) with
  | some q' =>
    rw [hkey, Option.getD_some] at heq
    exact hq.1 (.inl ⟨_, heq ▸ hkey⟩)
  | none =>
    rw [hkey, Option.getD_none] at heq
    exact hq.2.ne' heq

theorem vanished_of_forgotten {w : World} (hr : Reach busMachine w) {q : QueueRef}
    (hq : w.Forgotten q) : w.Vanished q := by
  refine ⟨hq.1, fun w' hrun => ?_⟩
  have hforgotten := hrun.invariant (I := fun w => w.Forgotten q)
    (fun w l w' hr ih _ hstep => forgotten_step hr (busMachine_step.mp hstep) ih) hr hq
  refine ⟨queueOf_ne hforgotten, fun topic key hmem => ?_⟩
  exact hforgotten.1 (.inr ⟨topic, List.mem_of_mem_filter hmem⟩)

/-- **The queue of a transient subscription vanishes with it exactly when the bus itself was
disposed of meanwhile.** `Subscribe` created the queue, the run went from there to the disposal of a
subscription, of that of the queue above all; the options are not read. -/
theorem vanishes_iff {w₀ w₁ w' : World} (h₀ : Reach busMachine w₀) {l l' : Label} {topic : String}
    {handler : AckHandler} {opts : SubscribeOptions}
    (hsub : w₀.next l = some (.subscribe topic handler opts))
    (hunused : w₀.bus.queues (w₀.bus.keyOf topic opts) = none) (h₁ : w₀.step l = some w₁)
    {p : World × List Instr} (hrun : Run executedMachine anyStep (w₁, []) p) {s : Nat}
    (hdispose : p.1.next l' = some (.dispose s))
    (h' : p.1.step l' = some w') : w'.Vanished w₀.bus.nextQueue ↔ .disposeBus ∈ p.2 := by
  have hr₁ : Reach busMachine w₁ := .step h₀ trivial h₁
  have hkey : w₁.bus.queues (w₀.bus.keyOf topic opts) = some w₀.bus.nextQueue := by
    have hqueueOf : w₀.bus.queueOf topic opts = w₀.bus.nextQueue := by
      rw [Bus.queueOf, hunused, Option.getD_none]
    rw [(step_next h₁ hsub).1, (subscribed (w₀.executes _)).queues, hqueueOf,
      Function.update_self]
  obtain ⟨hr, hkept, hforgotten⟩ := kept_or_forgotten hr₁ hkey hrun
  have hr' : Reach busMachine w' := .step hr trivial h'
  refine ⟨fun hvanished => ?_, fun hmem => ?_⟩
  · -- Without a `Dispose` of the bus the key still leads to the queue.
    by_contra hnot
    refine hvanished.1 (.inl ⟨w₀.bus.keyOf topic opts, ?_⟩)
    exact keyed_step h' (by simp [hdispose]) (hkept hnot)
  · exact vanished_of_forgotten hr' (forgotten_step hr h' (hforgotten hmem))

/-- A transient subscriber comes and goes; the bus is disposed of in between or not. -/
def comeAndGo (disposed : Bool) : List Label :=
  [.run 0, .run 0] ++ (if disposed then [.call .disposeBus, .run 1] else []) ++
    [.call (.disposeSubscription 0)]

def transientOptions : SubscribeOptions := { subscriberId := some "s", transient := true }

def beforeSubscribe : World := play {} [.call (.subscribe "t" ⟨0⟩ transientOptions)]

/-- Play a list of labels beside the record. -/
def playExecuted (w : World) (ls : List Label) : World × List Instr :=
  Machine.play (recordStep step executed) (w, []) ls

theorem run_playExecuted (w : World) (ls : List Label) :
    Run executedMachine anyStep (w, []) (playExecuted w ls) :=
  Machine.run_play (recordStep_step fun _ _ _ => id) (plays_anyStep _ _ ls)

theorem vanishes_iff_disposed :
    ((playExecuted (beforeSubscribe.play [.run 0]) (comeAndGo true)).1.play
      [.run 2]).Vanished 0 :=
  have hsub : beforeSubscribe.next (.run 0) = some (.subscribe "t" ⟨0⟩ transientOptions) := rfl
  have hdispose : (playExecuted (beforeSubscribe.play [.run 0]) (comeAndGo true)).1.next (.run 2) =
      some (.dispose 0) := rfl
  (vanishes_iff (reach_play _) hsub rfl (step_play rfl) (run_playExecuted _ _) hdispose
    (step_play rfl)).mpr (by decide)

/-- **A transient subscription leaves its queue behind.** -/
theorem left_behind : ¬ ∀ w₀ w₁ w' : World, Reach busMachine w₀ → ∀ l l' topic handler opts,
    w₀.next l = some (.subscribe topic handler opts) → opts.transient = true →
    w₀.bus.queues (w₀.bus.keyOf topic opts) = none → w₀.step l = some w₁ →
    ∀ p, Run executedMachine anyStep (w₁, []) p → ∀ s, p.1.next l' = some (.dispose s) →
    p.1.subscriptions[s]? = some (w₀.bus.nextQueue, handler) → p.1.step l' = some w' →
    w'.Vanished w₀.bus.nextQueue := by
  intro hclaim
  have hvanished := hclaim beforeSubscribe _ _ (reach_play _) (.run 0) (.run 1) "t" ⟨0⟩
    transientOptions rfl rfl rfl (step_play rfl) _ (run_playExecuted _ (comeAndGo false)) 0 rfl rfl
    (step_play rfl)
  exact hvanished.1 (.inl ⟨"t s", rfl⟩)

end World

end MessagingPoc
