import MessagingPoc.Lib.Machine
import MessagingPoc.Scheduler.Dispatch
import MessagingPoc.Scheduler.Ts

/-!
# The handlers of a TypeScript dispatch

`dispatch` queues a microtask, which looks the handlers up when it runs, goes through their set as
it then changes, and drops the promises: only an exception ends its loop. While it runs nothing
else does, but the handlers call the scheduler themselves.

**The handlers of a dispatch that stay registered are served exactly when none but the last
throws** (`served_iff_returns`); a rejected promise stops nothing.
-/

namespace MessagingPoc.TsScheduler

open Machine Relay Dispatch

/-! ## The TypeScript loops -/

/-- The loop of a microtask. -/
structure Loop where
  dispatch : Nat
  message : ReceivedMessage
  /-- The set it goes through, when its destination has one. -/
  set : Option Nat
  /-- The handlers of the set it has not come to. -/
  rest : List MessageHandler
deriving DecidableEq

/-- A `Set` is gone through as it changes: what is added to it comes last, and what is removed
does not come any more. -/
def Loop.follow (s : State) (p : Loop) : Label → Loop
  | .consume destination handler =>
    match s.handlers destination with
    | some set =>
      if p.set = some set ∧ handler ∉ (s.handlerSet set).items then
        { p with rest := p.rest ++ [handler] }
      else p
    | none => p
  | .unsubscribe k =>
    match s.subscriptions[k]? with
    | some (set, handler) =>
      if p.set = some set then { p with rest := p.rest.erase handler } else p
    | none => p
  | _ => p

/-- The scheduler, and the microtask that runs. An exception it does not catch leaves the event
loop running. -/
structure Delivering where
  scheduler : State
  loop : Option Loop := none
  log : List Invocation := []

inductive Turn
  | scheduler (l : Label)
  /-- The loop goes on to the next handler, or ends. -/
  | next
deriving DecidableEq

namespace Delivering

/-- `for (const h of this.handlers.get(destination) ?? []) void h(message)`. -/
def next (ending : Nat → MessageHandler → Ending) (s : Delivering) : Option Delivering :=
  match s.loop with
  | none => none
  | some ⟨_, _, _, []⟩ => some { s with loop := none }
  | some ⟨k, message, set, h :: rest⟩ =>
    some { s with
      log := s.log ++ [⟨k, h, message⟩]
      loop := if ending k h = .throws then none else some ⟨k, message, set, rest⟩ }

/-- The microtask of a message starts. -/
def start (s : Delivering) (message : ReceivedMessage) : Loop :=
  ⟨s.scheduler.deliveries.length, message, s.scheduler.handlers message.destination,
    s.scheduler.targets message.destination⟩

/-- While a microtask runs, the calls on the scheduler are its handlers'. -/
def step (ending : Nat → MessageHandler → Ending) (s : Delivering) : Turn → Option Delivering
  | .next => s.next ending
  | .scheduler .microtask =>
    match s.loop, s.scheduler.microtasks with
    | none, message :: _ =>
      (s.scheduler.step .microtask).map fun scheduler =>
        { s with scheduler := scheduler, loop := some (s.start message) }
    | _, _ => none
  | .scheduler (.fire i) =>
    if s.loop = none then
      (s.scheduler.step (.fire i)).map fun scheduler => { s with scheduler := scheduler }
    else none
  | .scheduler l =>
    (s.scheduler.step l).map fun scheduler =>
      { s with scheduler := scheduler, loop := s.loop.map (·.follow s.scheduler l) }

/-- The microtask of a dispatch has run to its end. -/
def Over (s : Delivering) (k : Nat) : Prop :=
  k < s.scheduler.deliveries.length ∧ ∀ p ∈ s.loop, p.dispatch ≠ k

instance (s : Delivering) (k : Nat) : Decidable (s.Over k) :=
  inferInstanceAs (Decidable (_ ∧ _))

/-- The number the next dispatch gets: microtasks run in the order in which they are queued. -/
def dispatches (s : Delivering) : Nat :=
  s.scheduler.deliveries.length + s.scheduler.microtasks.length

end Delivering

/-- The scheduler with its microtasks, from any time on. -/
def delivering (ending : Nat → MessageHandler → Ending) : System Delivering Turn where
  init s := ∃ clock, s = { scheduler := { clock := clock } }
  step s l s' := s.step ending l = some s'

/-! ## What a step does to a set -/

/-- Sets that are in use are allocated. -/
def State.Allocated (s : State) : Prop :=
  ∀ destination set, s.handlers destination = some set → set < s.nextSet

/-- What a step does to the registrations. -/
inductive Registers (s s' : State) : Label → Prop
  | quiet {l : Label} : (∀ p : Loop, p.follow s l = p) → s'.handlers = s.handlers →
      s'.handlerSet = s.handlerSet → s'.nextSet = s.nextSet → Registers s s' l
  | disposed {l : Label} : s'.handlers = (fun _ => none) → Registers s s' l
  /-- The first handler of a destination. -/
  | created {destination : String} {handler : MessageHandler} : s.handlers destination = none →
      s'.handlers = Function.update s.handlers destination (some s.nextSet) →
      s'.handlerSet = Function.update s.handlerSet s.nextSet (InsertionSet.empty.add handler) →
      s'.nextSet = s.nextSet + 1 → Registers s s' (.consume destination handler)
  | added {destination : String} {handler : MessageHandler} {set : Nat} :
      s.handlers destination = some set → s'.handlers = s.handlers →
      s'.handlerSet = Function.update s.handlerSet set ((s.handlerSet set).add handler) →
      s'.nextSet = s.nextSet → Registers s s' (.consume destination handler)
  | removed {k set : Nat} {handler : MessageHandler} : s.subscriptions[k]? = some (set, handler) →
      s'.handlers = s.handlers →
      s'.handlerSet = Function.update s.handlerSet set ((s.handlerSet set).erase handler) →
      s'.nextSet = s.nextSet → Registers s s' (.unsubscribe k)

theorem registers_of_step {s s' : State} {l : Label} (hs : s.step l = some s') :
    Registers s s' l := by
  cases l with
  | schedule | sendNow | advance =>
    cases hs
    exact .quiet (fun _ => rfl) rfl rfl rfl
  | asyncDispose =>
    cases hs
    exact .disposed rfl
  | cancel id =>
    cases hs
    show Registers s (s.cancel id) _
    unfold State.cancel
    split <;> exact .quiet (fun _ => rfl) rfl rfl rfl
  | consume destination handler =>
    cases hs
    show Registers s (s.consume destination handler) _
    cases hset : s.handlers destination with
    | none => refine .created hset ?_ ?_ ?_ <;> simp [State.consume, hset]
    | some set => refine .added hset ?_ ?_ ?_ <;> simp [State.consume, hset]
  | unsubscribe k =>
    obtain ⟨t, ht, rfl⟩ := Option.map_eq_some_iff.mp hs
    exact .removed ht rfl rfl rfl
  | fire i =>
    simp only [State.step] at hs
    split at hs
    · split_ifs at hs
      cases hs
      exact .quiet (fun _ => rfl) rfl rfl rfl
    · cases hs
  | microtask =>
    simp only [State.step] at hs
    split at hs
    · cases hs
      exact .quiet (fun _ => rfl) rfl rfl rfl
    · cases hs

theorem allocated_step {s s' : State} {l : Label} (h : s.Allocated) (hs : s.step l = some s') :
    s'.Allocated := by
  intro destination set hset
  cases registers_of_step hs with
  | quiet _ hhandlers _ hnext => exact hnext ▸ h destination set (hhandlers ▸ hset)
  | disposed hhandlers => simp [hhandlers] at hset
  | created _ hhandlers _ hnext =>
    rw [hhandlers, Function.update_apply] at hset
    rw [hnext]
    split_ifs at hset
    · cases hset
      exact Nat.lt_succ_self _
    · exact (h destination set hset).trans (Nat.lt_succ_self _)
  | added _ hhandlers _ hnext => exact hnext ▸ h destination set (hhandlers ▸ hset)
  | removed _ hhandlers _ hnext => exact hnext ▸ h destination set (hhandlers ▸ hset)

theorem nodup_targets (s : State) (destination : String) : (s.targets destination).Nodup := by
  unfold State.targets
  split
  · exact List.nodup_nil
  · exact (s.handlerSet _).nodup

theorem targets_eq {s : State} {destination : String} {set : Nat}
    (h : s.handlers destination = some set) : s.targets destination = (s.handlerSet set).items := by
  simp [State.targets, h]

theorem follow_frame (s : State) (p : Loop) (l : Label) :
    (p.follow s l).dispatch = p.dispatch ∧ (p.follow s l).message = p.message ∧
      (p.follow s l).set = p.set := by
  unfold Loop.follow
  split
  · split
    · split_ifs <;> exact ⟨rfl, rfl, rfl⟩
    · exact ⟨rfl, rfl, rfl⟩
  · split
    · split_ifs <;> exact ⟨rfl, rfl, rfl⟩
    · exact ⟨rfl, rfl, rfl⟩
  · exact ⟨rfl, rfl, rfl⟩

/-- What can happen to a set, and with it to a loop that goes through it. -/
inductive Change (items items' rest rest' : List MessageHandler) : Prop
  | kept : items' = items → rest' = rest → Change items items' rest rest'
  | added (h : MessageHandler) : h ∉ items → items' = items ++ [h] → rest' = rest ++ [h] →
      Change items items' rest rest'
  | removed (h : MessageHandler) : items' = items.erase h → rest' = rest.erase h →
      Change items items' rest rest'

theorem exists_set {s : State} {destination : String} {hs : List MessageHandler} (hne : hs ≠ [])
    (hsub : hs ⊆ s.targets destination) : ∃ set, s.handlers destination = some set := by
  refine Option.ne_none_iff_exists'.mp fun hnone => hne (List.subset_nil.mp ?_)
  simpa [State.targets, hnone] using hsub

/-- As long as some handlers stay registered, their destination keeps its set. -/
theorem change_of_step {s s' : State} {l : Label} (ha : s.Allocated) (hstep : s.step l = some s')
    {destination : String} {hs : List MessageHandler} (hne : hs ≠ [])
    (hsub : hs ⊆ s.targets destination) (hsub' : hs ⊆ s'.targets destination) {p : Loop}
    (hp : p.set = s.handlers destination) : s'.handlers destination = s.handlers destination ∧
      Change (s.targets destination) (s'.targets destination) p.rest (p.follow s l).rest := by
  obtain ⟨set, hset⟩ := exists_set hne hsub
  rw [hset] at hp ⊢
  rw [targets_eq hset]
  cases registers_of_step hstep with
  | quiet hfollow hhandlers hsets _ =>
    have hset' : s'.handlers destination = some set := hhandlers ▸ hset
    exact ⟨hset', .kept (by rw [targets_eq hset', hsets]) (by rw [hfollow])⟩
  | disposed hhandlers =>
    obtain ⟨set', hset'⟩ := exists_set hne hsub'
    simp [hhandlers] at hset'
  | @created destination' handler hnone hhandlers hsets _ =>
    -- A new set is not the one in use.
    have hother : destination ≠ destination' := by
      intro heq
      exact Option.some_ne_none _ (hset.symm.trans (heq ▸ hnone))
    have hfresh : set ≠ s.nextSet := (ha destination set hset).ne
    have hset' : s'.handlers destination = some set := by
      rw [hhandlers, Function.update_of_ne hother, hset]
    refine ⟨hset', .kept ?_ (by simp [Loop.follow, hnone])⟩
    rw [targets_eq hset', hsets, Function.update_of_ne hfresh]
  | @added destination' handler set' hin hhandlers hsets _ =>
    have hset' : s'.handlers destination = some set := hhandlers ▸ hset
    refine ⟨hset', ?_⟩
    rw [targets_eq hset', hsets]
    by_cases heq : set' = set
    · subst heq
      by_cases hmem : handler ∈ (s.handlerSet set').items
      · exact .kept (by simp [InsertionSet.add, hmem]) (by simp [Loop.follow, hin, hmem])
      · exact .added handler hmem (by simp [InsertionSet.add, hmem])
          (by simp [Loop.follow, hin, hmem, hp])
    · refine .kept ?_ ?_
      · rw [Function.update_of_ne (Ne.symm heq)]
      · simp [Loop.follow, hin, hp, Ne.symm heq]
  | @removed k set' handler hk hhandlers hsets _ =>
    have hset' : s'.handlers destination = some set := hhandlers ▸ hset
    refine ⟨hset', ?_⟩
    rw [targets_eq hset', hsets]
    by_cases heq : set' = set
    · subst heq
      exact .removed handler (by simp [InsertionSet.erase]) (by simp [Loop.follow, hk, hp])
    · refine .kept ?_ ?_
      · rw [Function.update_of_ne (Ne.symm heq)]
      · simp [Loop.follow, hk, hp, Ne.symm heq]

namespace Change

variable {items items' rest rest' hs todo more : List MessageHandler}

/-- Handlers that head a set head it as long as none of them is taken out. -/
theorem keeps_head (h : Change items items' rest rest') (hnodup : items.Nodup)
    (hhead : hs <+: items) (hsub : hs ⊆ items') : hs <+: items' := by
  cases h with
  | kept hitems _ => exact hitems ▸ hhead
  | added x _ hitems _ => exact hitems ▸ hhead.trans (List.prefix_append _ _)
  | removed x hitems _ =>
    obtain ⟨more, rfl⟩ := hhead
    have hx : x ∉ hs := fun hmem => (hnodup.mem_erase_iff.mp (hitems ▸ hsub hmem)).1 rfl
    rw [hitems, List.erase_append_right _ hx]
    exact List.prefix_append _ _

/-- Meanwhile a loop has the same of them to call. -/
theorem keeps_rest (h : Change items items' rest rest') (hnodup : items.Nodup) (hsub : hs ⊆ items)
    (hsub' : hs ⊆ items') (hrest : rest = todo ++ more) (htodo : todo ⊆ hs)
    (hmore : ∀ x ∈ more, x ∉ hs) : ∃ more, rest' = todo ++ more ∧ ∀ x ∈ more, x ∉ hs := by
  cases h with
  | kept _ hrest' => exact ⟨more, hrest'.trans hrest, hmore⟩
  | added x hx _ hrest' =>
    refine ⟨more ++ [x], by rw [hrest', hrest, List.append_assoc], fun y hy => ?_⟩
    rcases List.mem_append.mp hy with hy | hy
    · exact hmore y hy
    · exact fun hmem => hx (hsub (List.mem_singleton.mp hy ▸ hmem))
  | removed x hitems hrest' =>
    have hx : x ∉ hs := fun hmem => (hnodup.mem_erase_iff.mp (hitems ▸ hsub' hmem)).1 rfl
    refine ⟨more.erase x, ?_, fun y hy => hmore y (List.mem_of_mem_erase hy)⟩
    rw [hrest', hrest, List.erase_append_right _ fun hmem => hx (htodo hmem)]

end Change

/-! ## Steps -/

/-- Microtasks are queued at the end, and taken from the front. -/
theorem queue_step {s s' : State} {l : Label} (hl : l ≠ .microtask) (hs : s.step l = some s') :
    s.microtasks <+: s'.microtasks ∧ s'.deliveries = s.deliveries := by
  cases l with
  | schedule | asyncDispose | advance =>
    cases hs
    exact ⟨List.prefix_rfl, rfl⟩
  | sendNow =>
    cases hs
    exact ⟨List.prefix_append _ _, rfl⟩
  | cancel id =>
    cases hs
    show _ <+: (s.cancel id).microtasks ∧ (s.cancel id).deliveries = _
    unfold State.cancel
    split <;> exact ⟨List.prefix_rfl, rfl⟩
  | consume destination handler =>
    cases hs
    show _ <+: (s.consume destination handler).microtasks ∧
      (s.consume destination handler).deliveries = _
    unfold State.consume
    split <;> exact ⟨List.prefix_rfl, rfl⟩
  | unsubscribe k =>
    obtain ⟨t, -, rfl⟩ := Option.map_eq_some_iff.mp hs
    exact ⟨List.prefix_rfl, rfl⟩
  | fire i =>
    simp only [State.step] at hs
    split at hs
    · split_ifs at hs
      cases hs
      exact ⟨List.prefix_append _ _, rfl⟩
    · cases hs
  | microtask => exact absurd rfl hl

namespace Delivering

variable {ending : Nat → MessageHandler → Ending} {s s' : Delivering}

/-- What a step does. -/
inductive Effect (ending : Nat → MessageHandler → Ending) (s : Delivering) : Delivering → Prop
  | api {l : Label} {scheduler : State} : l ≠ .microtask → s.scheduler.step l = some scheduler →
      Effect ending s { s with
        scheduler := scheduler, loop := s.loop.map (·.follow s.scheduler l) }
  | started {message : ReceivedMessage} {after : List ReceivedMessage} : s.loop = none →
      s.scheduler.microtasks = message :: after →
      Effect ending s { s with
        scheduler := { s.scheduler with
          microtasks := after
          deliveries := s.scheduler.deliveries ++
            [(message, s.scheduler.targets message.destination)] }
        loop := some (s.start message) }
  | called {p : Loop} {h : MessageHandler} {rest : List MessageHandler} : s.loop = some p →
      p.rest = h :: rest →
      Effect ending s { s with
        log := s.log ++ [⟨p.dispatch, h, p.message⟩]
        loop := if ending p.dispatch h = .throws then none else some { p with rest := rest } }
  | ended {p : Loop} : s.loop = some p → p.rest = [] → Effect ending s { s with loop := none }

theorem effect {t : Turn} (h : s.step ending t = some s') : Effect ending s s' := by
  unfold step at h
  split at h
  · unfold next at h
    split at h
    · cases h
    · rename_i k message set hloop
      cases h
      exact .ended hloop rfl
    · rename_i k message set x rest hloop
      cases h
      exact .called hloop rfl
  · split at h
    · rename_i message after hloop hmicrotasks
      obtain ⟨scheduler, hscheduler, rfl⟩ := Option.map_eq_some_iff.mp h
      simp only [State.step, hmicrotasks, Option.some.injEq] at hscheduler
      subst hscheduler
      exact .started hloop hmicrotasks
    · cases h
  · split_ifs at h with hloop
    obtain ⟨scheduler, hscheduler, rfl⟩ := Option.map_eq_some_iff.mp h
    have heffect : Effect ending s _ := .api (by simp) hscheduler
    simpa [hloop] using heffect
  · rename_i l hmicrotask hfire
    obtain ⟨scheduler, hscheduler, rfl⟩ := Option.map_eq_some_iff.mp h
    refine .api (fun hl => hmicrotask ?_) hscheduler
    rw [hl]

/-- Sets in use are allocated, and only the loop of a microtask that was taken calls handlers. -/
structure Sound (s : Delivering) : Prop where
  allocated : s.scheduler.Allocated
  running : ∀ p ∈ s.loop, p.dispatch < s.scheduler.deliveries.length
  logged : ∀ i ∈ s.log, i.dispatch < s.scheduler.deliveries.length

theorem Sound.step (h : Sound s) (he : Effect ending s s') : Sound s' := by
  cases he with
  | @api l scheduler hl hs =>
    have hdeliveries : scheduler.deliveries = s.scheduler.deliveries := (queue_step hl hs).2
    refine ⟨allocated_step h.allocated hs, fun p hp => ?_, hdeliveries ▸ h.logged⟩
    obtain ⟨q, hq, rfl⟩ := Option.map_eq_some_iff.mp hp
    rw [(follow_frame s.scheduler q l).1]
    exact hdeliveries ▸ h.running q hq
  | started hloop hmicrotasks =>
    refine ⟨h.allocated, fun p hp => ?_, fun i hi => ?_⟩
    · obtain rfl := Option.some.inj hp
      simp [start]
    · have := h.logged i hi
      simp only [List.length_append]
      omega
  | @called p x rest hloop hrest =>
    refine ⟨h.allocated, fun q hq => ?_, fun i hi => ?_⟩
    · simp only [Option.mem_def] at hq
      split_ifs at hq
      cases hq
      exact h.running p hloop
    · rcases List.mem_append.mp hi with hi | hi
      · exact h.logged i hi
      · rw [List.mem_singleton.mp hi]
        exact h.running p hloop
  | ended hloop hrest => exact ⟨h.allocated, by simp, h.logged⟩

theorem sound_of_reach (h : Reach (delivering ending) s) : Sound s := by
  refine h.invariant (fun s hs => ?_) fun s l s' _ ih _ hstep => ih.step (effect hstep)
  obtain ⟨clock, rfl⟩ := hs
  refine ⟨fun destination set hset => ?_, by simp, by simp⟩
  cases hset

end Delivering

/-! ## One dispatch -/

/-- How far the dispatch of a message to some handlers has come, in a run that keeps them
registered. -/
inductive Stage (ending : Nat → MessageHandler → Ending) (k : Nat) (message : ReceivedMessage)
    (hs : List MessageHandler) (u : Delivering) : Prop
  /-- Its microtask is queued. -/
  | waiting (before after : List ReceivedMessage) :
      u.scheduler.microtasks = before ++ message :: after →
      u.scheduler.deliveries.length + before.length = k → callsOf u.log k hs = [] →
      (hs ⊆ u.scheduler.targets message.destination →
        hs <+: u.scheduler.targets message.destination) → Stage ending k message hs u
  | looping (p : Loop) : u.loop = some p → p.dispatch = k → p.message = message →
      (hs ⊆ u.scheduler.targets message.destination →
        p.set = u.scheduler.handlers message.destination ∧
        ∃ seen todo more, hs = seen ++ todo ∧ p.rest = todo ++ more ∧ (∀ h ∈ more, h ∉ hs) ∧
          (∀ h ∈ seen, ending k h ≠ .throws) ∧
          callsOf u.log k hs = seen.map fun h => ⟨k, h, message⟩) → Stage ending k message hs u
  | ended : u.Over k → callsOf u.log k hs =
      (called (fun h => ending k h = .throws) hs).map (fun h => ⟨k, h, message⟩) →
      Stage ending k message hs u

namespace Stage

variable {ending : Nat → MessageHandler → Ending} {k : Nat} {message : ReceivedMessage}
variable {hs : List MessageHandler} {u u' : Delivering}

theorem of_waiting (hsound : u.Sound) (hne : hs ≠ [])
    (hsub : hs ⊆ u.scheduler.targets message.destination) {before after : List ReceivedMessage}
    (hqueue : u.scheduler.microtasks = before ++ message :: after)
    (hnumber : u.scheduler.deliveries.length + before.length = k) (hnone : callsOf u.log k hs = [])
    (hhead : hs <+: u.scheduler.targets message.destination)
    (he : Delivering.Effect ending u u') : Stage ending k message hs u' := by
  have hnodup := nodup_targets u.scheduler message.destination
  cases he with
  | @api l scheduler hl hstep =>
    obtain ⟨⟨new, hnew⟩, hdeliveries⟩ := queue_step hl hstep
    refine .waiting before (after ++ new) ?_ (hdeliveries ▸ hnumber) hnone fun hsub' => ?_
    · show scheduler.microtasks = _
      rw [← hnew, hqueue, List.append_assoc, List.cons_append]
    · have hchange := (change_of_step hsound.allocated hstep hne hsub hsub'
        (p := ⟨k, message, _, []⟩) rfl).2
      exact hchange.keeps_head hnodup hhead hsub'
  | @started m rest hloop hmicrotasks =>
    cases before with
    | nil =>
      obtain ⟨rfl, rfl⟩ := List.cons.inj (hmicrotasks.symm.trans hqueue)
      refine .looping (u.start m) rfl hnumber rfl fun _ => ⟨rfl, [], hs, ?_⟩
      obtain ⟨more, hmore⟩ := hhead
      refine ⟨more, rfl, hmore.symm, fun x hx hmem => ?_, by simp, hnone⟩
      rw [← hmore] at hnodup
      exact (List.nodup_append.mp hnodup).2.2 x hmem x hx rfl
    | cons b before =>
      obtain ⟨rfl, rfl⟩ := List.cons.inj (hmicrotasks.symm.trans hqueue)
      refine .waiting before after rfl ?_ hnone fun _ => hhead
      simp only [List.length_append, List.length_cons, List.length_nil] at hnumber ⊢
      omega
  | @called p x rest hloop hrest =>
    refine .waiting before after hqueue hnumber ?_ fun _ => hhead
    have hlt := hsound.running p hloop
    exact (callsOf_snoc_of_not fun hk => by have := hk.1; simp only at this; omega).trans hnone
  | ended hloop hrest => exact .waiting before after hqueue hnumber hnone fun _ => hhead

theorem of_looping (hsound : u.Sound) (hne : hs ≠ [])
    (hsub : hs ⊆ u.scheduler.targets message.destination) {p : Loop} (hloop : u.loop = some p)
    (hk : p.dispatch = k) (hmessage : p.message = message)
    (hset : p.set = u.scheduler.handlers message.destination)
    {seen todo more : List MessageHandler} (hsplit : hs = seen ++ todo)
    (hrest : p.rest = todo ++ more) (hmore : ∀ h ∈ more, h ∉ hs)
    (hseen : ∀ h ∈ seen, ending k h ≠ .throws)
    (hcalls : callsOf u.log k hs = seen.map fun h => ⟨k, h, message⟩)
    (he : Delivering.Effect ending u u') : Stage ending k message hs u' := by
  have hnodup := nodup_targets u.scheduler message.destination
  have hlt : k < u.scheduler.deliveries.length := hk ▸ hsound.running p hloop
  cases he with
  | @api l scheduler hl hstep =>
    obtain ⟨hd, hm, hs'⟩ := follow_frame u.scheduler p l
    refine .looping (p.follow u.scheduler l) (by simp [hloop]) (hd.trans hk) (hm.trans hmessage)
      fun hsub' => ?_
    obtain ⟨hkept, hchange⟩ := change_of_step hsound.allocated hstep hne hsub hsub' hset
    have htodo : todo ⊆ hs := hsplit ▸ List.subset_append_right _ _
    obtain ⟨more', hrest', hmore'⟩ := hchange.keeps_rest hnodup hsub hsub' hrest htodo hmore
    exact ⟨hs'.trans (hset.trans hkept.symm), seen, todo, more', hsplit, hrest', hmore', hseen,
      hcalls⟩
  | started hidle hmicrotasks => exact absurd (hloop.symm.trans hidle) (Option.some_ne_none _)
  | @called q x rest hloop' hrest' =>
    obtain rfl := Option.some.inj (hloop.symm.trans hloop')
    subst hk hmessage
    cases todo with
    | nil =>
      -- All of them have been called.
      have hx : x ∉ hs := hmore x (by rw [hrest, List.nil_append] at hrest'; simp [hrest'])
      have hcalls' : callsOf (u.log ++ [⟨p.dispatch, x, p.message⟩]) p.dispatch hs =
          seen.map fun h => ⟨p.dispatch, h, p.message⟩ :=
        (callsOf_snoc_of_not fun h => hx h.2).trans hcalls
      by_cases hthrows : ending p.dispatch x = .throws
      · refine .ended ⟨hlt, by simp [hthrows]⟩ (hcalls'.trans ?_)
        rw [hsplit, called_append hseen]
        simp [called]
      · refine .looping { p with rest := rest } (by simp [hthrows]) rfl rfl fun _ => ⟨hset, ?_⟩
        refine ⟨seen, [], rest, hsplit, rfl, fun h hh => hmore h ?_, hseen, hcalls'⟩
        rw [hrest, List.nil_append] at hrest'
        exact hrest' ▸ List.mem_cons_of_mem _ hh
    | cons y todo =>
      rw [hrest, List.cons_append] at hrest'
      obtain ⟨rfl, rfl⟩ := List.cons.inj hrest'
      have hcalls' : callsOf (u.log ++ [⟨p.dispatch, y, p.message⟩]) p.dispatch hs =
          (seen ++ [y]).map fun h => ⟨p.dispatch, h, p.message⟩ := by
        rw [callsOf_snoc (by simp [hsplit]), hcalls, List.map_append]
        rfl
      by_cases hthrows : ending p.dispatch y = .throws
      · refine .ended ⟨hlt, by simp [hthrows]⟩ (hcalls'.trans ?_)
        rw [hsplit, called_append hseen, called, if_pos hthrows]
      · refine .looping { p with rest := todo ++ more } (by simp [hthrows]) rfl rfl
          fun _ => ⟨hset, seen ++ [y], todo, more, by simp [hsplit], rfl, hmore, ?_, hcalls'⟩
        intro h hh
        rcases List.mem_append.mp hh with hh | hh
        · exact hseen h hh
        · rwa [List.mem_singleton.mp hh]
  | @ended q hloop' hrest' =>
    obtain rfl := Option.some.inj (hloop.symm.trans hloop')
    refine .ended ⟨hlt, by simp⟩ (hcalls.trans ?_)
    rw [hrest, List.append_eq_nil_iff] at hrest'
    rw [hsplit, hrest'.1, called_append hseen]
    simp [called]

theorem of_ended (hover : u.Over k) (hcalls : callsOf u.log k hs =
      (called (fun h => ending k h = .throws) hs).map fun h => ⟨k, h, message⟩)
    (he : Delivering.Effect ending u u') : Stage ending k message hs u' := by
  obtain ⟨hlt, hother⟩ := hover
  cases he with
  | @api l scheduler hl hstep =>
    refine .ended ⟨?_, fun p hp => ?_⟩ hcalls
    · show k < scheduler.deliveries.length
      rw [(queue_step hl hstep).2]
      exact hlt
    · obtain ⟨q, hq, rfl⟩ := Option.map_eq_some_iff.mp hp
      rw [(follow_frame u.scheduler q l).1]
      exact hother q hq
  | started hidle hmicrotasks =>
    refine .ended ⟨?_, fun p hp => ?_⟩ hcalls
    · simp only [List.length_append]
      omega
    · obtain rfl := Option.some.inj hp
      exact hlt.ne'
  | @called p x rest hloop hrest =>
    have hp := hother p hloop
    refine .ended ⟨hlt, fun q hq => ?_⟩ ((callsOf_snoc_of_not fun hk => hp hk.1).trans hcalls)
    simp only [Option.mem_def] at hq
    split_ifs at hq
    cases hq
    exact hp
  | ended hloop hrest => exact .ended ⟨hlt, by simp⟩ hcalls

end Stage

namespace Delivering

variable {ending : Nat → MessageHandler → Ending} {s : Delivering}

/-- The run keeps some handlers registered until the loop of a dispatch is over. -/
def Keeps (k : Nat) (destination : String) (hs : List MessageHandler) (u : Delivering) (_ : Turn) :
    Prop :=
  u.Over k ∨ ∀ h ∈ hs, h ∈ u.scheduler.targets destination

instance (k : Nat) (destination : String) (hs : List MessageHandler) (u : Delivering) (t : Turn) :
    Decidable (Keeps k destination hs u t) :=
  inferInstanceAs (Decidable (_ ∨ _))

/-- A message that is dispatched waits in the queue, with the number that comes next. -/
theorem stage_of_dispatch {s₁ : Delivering} {message : ReceivedMessage} (hsound : s.Sound)
    (he : Effect ending s s₁)
    (hqueued : s₁.scheduler.microtasks = s.scheduler.microtasks ++ [message])
    (hne : s.scheduler.targets message.destination ≠ []) :
    Stage ending s.dispatches message (s.scheduler.targets message.destination) s₁ := by
  have hnone : callsOf s.log s.dispatches (s.scheduler.targets message.destination) = [] := by
    refine List.filter_eq_nil_iff.mpr fun i hi => ?_
    have hlt := hsound.logged i hi
    have hne : i.dispatch ≠ s.dispatches := by
      unfold dispatches
      omega
    simp [hne]
  have hlength := congrArg List.length hqueued
  simp only [List.length_append, List.length_singleton] at hlength
  cases he with
  | @api l scheduler hl hstep =>
    obtain ⟨-, hdeliveries⟩ := queue_step hl hstep
    refine .waiting s.scheduler.microtasks [] hqueued ?_ hnone fun hsub => ?_
    · show scheduler.deliveries.length + _ = _
      rw [hdeliveries, dispatches]
    · have hchange := (change_of_step hsound.allocated hstep hne (List.Subset.refl _) hsub
        (p := ⟨s.dispatches, message, _, []⟩) rfl).2
      exact hchange.keeps_head (nodup_targets _ _) List.prefix_rfl hsub
  | @started m after hidle hmicrotasks =>
    rw [hmicrotasks, List.length_cons] at hlength
    have hshorter : after.length = after.length + 1 + 1 := hlength
    omega
  | called | ended => exact absurd hlength (Nat.lt_succ_self _).ne

/-- **The handlers of a dispatch that stay registered are served exactly when none but the last
throws.** -/
theorem served_iff_returns {s₁ t : Delivering} {turn : Turn} {message : ReceivedMessage}
    (hs : Reach (delivering ending) s) (hstep : s.step ending turn = some s₁)
    (hqueued : s₁.scheduler.microtasks = s.scheduler.microtasks ++ [message])
    (hrun : Run (delivering ending)
      (Keeps s.dispatches message.destination (s.scheduler.targets message.destination)) s₁ t)
    (hover : t.Over s.dispatches) :
    Served t.log s.dispatches message (s.scheduler.targets message.destination) ↔
      ∀ h ∈ (s.scheduler.targets message.destination).dropLast,
        ending s.dispatches h ≠ .throws := by
  set k := s.dispatches
  set hs' := s.scheduler.targets message.destination with htargets
  by_cases hne : hs' = []
  · simp [hne, Served]
  have hsound := sound_of_reach hs
  have hstage₁ : Stage ending k message hs' s₁ :=
    stage_of_dispatch hsound (effect hstep) hqueued hne
  have ht : t.Sound ∧ Stage ending k message hs' t := by
    clear hover
    induction hrun with
    | refl => exact ⟨hsound.step (effect hstep), hstage₁⟩
    | tail _ hkeeps hnext ih =>
      obtain ⟨hu, hstage⟩ := ih
      have he := effect hnext
      refine ⟨hu.step he, ?_⟩
      rcases hkeeps with hover | hsub
      · cases hstage with
        | waiting before after _ hnumber =>
          have := hover.1
          omega
        | looping p hloop hk => exact absurd hk (hover.2 p hloop)
        | ended hover hcalls => exact .of_ended hover hcalls he
      · cases hstage with
        | waiting before after hqueue hnumber hnone hhead =>
          exact .of_waiting hu hne hsub hqueue hnumber hnone (hhead hsub) he
        | looping p hloop hk hmessage hrest =>
          obtain ⟨hset, seen, todo, more, hsplit, hrest, hmore, hseen, hcalls⟩ := hrest hsub
          exact .of_looping hu hne hsub hloop hk hmessage hset hsplit hrest hmore hseen hcalls he
        | ended hover hcalls => exact .of_ended hover hcalls he
  cases ht.2 with
  | waiting before after _ hnumber =>
    have := hover.1
    omega
  | looping p hloop hk => exact absurd hk (hover.2 p hloop)
  | ended _ hcalls => exact served_iff_of_calls (List.Perm.refl _) (nodup_targets _ _) hcalls

theorem dispatches_step {s' : Delivering} (he : Effect ending s s') :
    s.dispatches ≤ s'.dispatches := by
  cases he with
  | @api l scheduler hl hstep =>
    obtain ⟨hqueue, hdeliveries⟩ := queue_step hl hstep
    have := hqueue.length_le
    show _ ≤ scheduler.deliveries.length + scheduler.microtasks.length
    rw [hdeliveries, dispatches]
    omega
  | started hloop hmicrotasks =>
    simp only [dispatches, hmicrotasks, List.length_append, List.length_cons, List.length_nil]
    omega
  | called | ended => exact le_rfl

/-- The loops, and the start of the next one. -/
def Undisturbed (_ : Delivering) (l : Turn) : Prop := l = .next ∨ l = .scheduler .microtask

theorem targets_undisturbed {s' : Delivering} {l : Turn} (hl : Undisturbed s l)
    (h : s.step ending l = some s') (destination : String) :
    s'.scheduler.targets destination = s.scheduler.targets destination := by
  rcases hl with rfl | rfl
  · simp only [step, next] at h
    split at h
    · cases h
    · cases h
      rfl
    · cases h
      rfl
  · simp only [step] at h
    split at h
    · rename_i message after _ hmicrotasks
      simp only [State.step, hmicrotasks, Option.map_some, Option.some.injEq] at h
      subst h
      rfl
    · cases h

theorem run_undisturbed {t : Delivering} (hrun : Run (delivering ending) Undisturbed s t) (k : Nat)
    (destination : String) :
    Run (delivering ending) (Keeps k destination (s.scheduler.targets destination)) s t ∧
      t.scheduler.targets destination = s.scheduler.targets destination ∧
      s.dispatches ≤ t.dispatches := by
  induction hrun with
  | refl => exact ⟨.refl s, rfl, le_rfl⟩
  | tail _ hl hstep ih =>
    obtain ⟨hkeeps, htargets, hle⟩ := ih
    refine ⟨hkeeps.tail (.inr fun h hh => htargets ▸ hh) hstep, ?_,
      hle.trans (dispatches_step (effect hstep))⟩
    exact (targets_undisturbed hl hstep destination).trans htargets

/-- Microtasks and loops that go on undisturbed come to their end, and keep all handlers
registered. -/
theorem exists_over (s : Delivering) {k : Nat} (hk : k < s.dispatches) (destination : String) :
    ∃ t, Run (delivering ending)
      (Keeps k destination (s.scheduler.targets destination)) s t ∧ t.Over k := by
  -- Each queued microtask will take a loop of its own.
  let cost (u : Delivering) (m : ReceivedMessage) : Nat :=
    (u.scheduler.targets m.destination).length + 2
  let left (u : Delivering) : Nat := (u.scheduler.microtasks.map (cost u)).sum +
    (u.loop.elim 0 fun p => p.rest.length + 1)
  have hlower : ∀ u : Delivering, ¬ (u.dispatches ≤ k ∨ u.Over k) → ∃ l u', Undisturbed u l ∧
      (delivering ending).step u l u' ∧ left u' < left u := by
    intro u hu
    rw [not_or, Nat.not_le] at hu
    obtain ⟨hdue, hover⟩ := hu
    rcases u with ⟨scheduler, loop, log⟩
    cases loop with
    | none =>
      cases hmicrotasks : scheduler.microtasks with
      | nil =>
        refine absurd ⟨?_, by simp⟩ hover
        simpa [dispatches, hmicrotasks] using hdue
      | cons m after =>
        have hstep : step ending ⟨scheduler, none, log⟩ (.scheduler .microtask) = some
            ⟨{ scheduler with
                microtasks := after
                deliveries := scheduler.deliveries ++
                  [(m, scheduler.targets m.destination)] },
              some (start ⟨scheduler, none, log⟩ m), log⟩ := by
          simp [step, hmicrotasks, State.step]
        refine ⟨.scheduler .microtask, _, .inr rfl, hstep, ?_⟩
        show (after.map (cost ⟨scheduler, none, log⟩)).sum +
            ((scheduler.targets m.destination).length + 1) <
          (scheduler.microtasks.map (cost ⟨scheduler, none, log⟩)).sum + 0
        rw [hmicrotasks, List.map_cons, List.sum_cons]
        simp only [cost]
        omega
    | some p =>
      rcases p with ⟨d, message, set, _ | ⟨x, rest⟩⟩
      · exact ⟨.next, _, .inl rfl, rfl, by simp [left, cost, State.targets]⟩
      · refine ⟨.next, _, .inl rfl, rfl, ?_⟩
        by_cases hx : ending d x = .throws <;> simp [left, cost, hx, State.targets]
  obtain ⟨t, hrun, ht⟩ := exists_run_of_measure left hlower s
  obtain ⟨hkeeps, -, hle⟩ := run_undisturbed hrun k destination
  exact ⟨t, hkeeps, ht.resolve_left (by omega)⟩

end Delivering

end MessagingPoc.TsScheduler
