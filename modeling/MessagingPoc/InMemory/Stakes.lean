import MessagingPoc.InMemory.Identity
import Mathlib.Data.Finset.Card

/-!
# Stakes

A queue knows its consumers by their delegates: attachment, the busy state and the owner of a
message in flight are all found by comparing delegates. Which subscriptions have been disposed of
is a ghost record beside the bus (`disposalMachine`).

Every subscription that is not disposed of has its own entry in `Consumers`, from `Subscribe` on;
one that is about to be returned has one too (`Apart.stake`). In runs that keep equal delegates
apart no two entries are equal (`apart`).
-/

namespace MessagingPoc

open Machine

namespace World

/-! ## The record of disposals -/

/-- What a step adds to the record: the subscription it is the dispose callback of. -/
def disposals (w : World) (l : Label) : List Nat :=
  match w.next l with
  | some (.dispose s) => if s < w.subscriptions.length then [s] else []
  | _ => []

/-- The queue and the consumer of a `Subscribe`. -/
def attaching (w : World) (l : Label) : Option (QueueRef × AckHandler) :=
  match w.next l with
  | some (.subscribe topic handler opts) =>
    some (w.bus.queueOf topic opts, handler)
  | _ => none

/-- How many calls are about to return a subscription of `c` to `q`. -/
def returning (w : World) (q : QueueRef) (c : AckHandler) : Nat :=
  w.agenda.count (.returnSubscription q c)

end World

/-- The bus beside the record of the subscriptions disposed of. -/
def disposalMachine : System (World × List Nat) Label := busMachine.recording World.disposals

namespace World

/-- The subscription `s` of `c` to `q` is not disposed of. -/
def Live (p : World × List Nat) (s : Nat) (q : QueueRef) (c : AckHandler) : Prop :=
  p.1.subscriptions[s]? = some (q, c) ∧ s ∉ p.2

instance (p : World × List Nat) (s : Nat) (q : QueueRef) (c : AckHandler) :
    Decidable (Live p s q c) := inferInstanceAs (Decidable (_ ∧ _))

/-- The subscriptions of `c` to `q` that are not disposed of. -/
def liveOf (p : World × List Nat) (q : QueueRef) (c : AckHandler) : Finset Nat :=
  (Finset.range p.1.subscriptions.length).filter fun s => Live p s q c

theorem mem_liveOf {p : World × List Nat} {s : Nat} {q : QueueRef} {c : AckHandler} :
    s ∈ liveOf p q c ↔ Live p s q c := by
  rw [liveOf, Finset.mem_filter, Finset.mem_range, and_iff_right_iff_imp]
  intro h
  exact (List.getElem?_eq_some_iff.mp h.1).1

/-! ## What steps do to the consumers -/

theorem consumers_exec {w : World} {i : Instr} {o : Outcome} (hex : Executes w i o)
    (hsub : ∀ topic handler opts, i ≠ .subscribe topic handler opts)
    (hret : ∀ q c, i ≠ .returnSubscription q c)
    (hdis : ∀ s, i = .dispose s → w.subscriptions[s]? = none) :
    (∀ q, (o.world.bus.queue q).consumers = (w.bus.queue q).consumers) ∧
      o.world.subscriptions = w.subscriptions ∧ ∀ q c, .returnSubscription q c ∉ o.more := by
  have hset : ∀ {w' : World} {q : QueueRef} {Q : BusQueue},
      w'.bus.queue = Function.update w.bus.queue q Q → Q.consumers = (w.bus.queue q).consumers →
      ∀ q', (w'.bus.queue q').consumers = (w.bus.queue q').consumers := by
    intro w' q Q hqueue hQ q'
    rw [hqueue, Function.update_apply]
    split_ifs with hq
    · rw [hq, hQ]
    · rfl
  cases hex with
  | subscribeOld | subscribeNew => exact absurd rfl (hsub _ _ _)
  | returnSubscription => exact absurd rfl (hret _ _)
  | dispose hs =>
    rw [hdis _ rfl] at hs
    cases hs
  | @publish topic body routingKey options cause logged b₁ b₂ copies _ hlog hcopies =>
    have hp := Bus.published hlog hcopies
    refine ⟨fun q => ?_, rfl, fun q c hmem => ?_⟩
    · show (b₂.queue q).consumers = _
      by_cases hq : q ∈ w.bus.targets topic (routingKey.getD topic)
      · obtain ⟨m, hm⟩ := (hp.mem_iff q).mp hq
        rw [hp.enqueued _ hm]
        rfl
      · rw [hp.others q hq]
    · obtain ⟨t, -, ht⟩ := List.mem_flatMap.mp hmem
      unfold afterEnqueue at ht
      split_ifs at ht <;> simp at ht
  | pumpThrew hnext =>
    have hs := BusQueue.next_not_found hnext (by simp)
    refine ⟨hset rfl ?_, rfl, by simp⟩
    rw [hs.frame]
  | pumpNobody hnext =>
    have hs := BusQueue.next_not_found hnext (by simp)
    refine ⟨hset rfl ?_, rfl, by simp⟩
    rw [hs.frame]
  | pumpFound hnext =>
    have hch := BusQueue.next_found hnext
    refine ⟨hset rfl ?_, rfl, by simp⟩
    rw [hch.frame]
  | settleDead =>
    refine ⟨hset rfl rfl, rfl, fun q c hmem => ?_⟩
    unfold BusQueue.deadLetterCall at hmem
    split_ifs at hmem <;> simp at hmem
  | settleAck | settlePark | retry | expirePending | expireInflight =>
    exact ⟨hset rfl rfl, rfl, by simp⟩
  | @settleRequeue h i =>
    refine ⟨fun q => ?_, rfl, by simp⟩
    simp only [release, record, withBus, Bus.enqueue, Bus.setQueue, Function.update_apply]
    split_ifs with hq
    · rw [hq]
    · rfl
  | caught hmore =>
    refine ⟨fun _ => rfl, rfl, fun q c hmem => ?_⟩
    rcases hmore with rfl | rfl <;> simp at hmem
  | _ => exact ⟨fun _ => rfl, rfl, by simp⟩

theorem consumers_subscribe {w : World} (hg : w.Good) {topic : String} {handler : AckHandler}
    {opts : SubscribeOptions} {o : Outcome} (hex : Executes w (.subscribe topic handler opts) o) :
    (∀ q, (o.world.bus.queue q).consumers = (w.bus.queue q).consumers ++
      if q = w.bus.queueOf topic opts then [handler] else []) ∧
    o.world.subscriptions = w.subscriptions ∧
    o.more = [.pump (w.bus.queueOf topic opts),
      .returnSubscription (w.bus.queueOf topic opts) handler] := by
  cases hex with
  | @subscribeOld _ id _ _ b₁ q hid hq =>
    have hb₁ := Bus.subscriberId_eq hid
    have hqueue : w.bus.queueOf topic opts = q := by
      rw [Bus.queueOf, Bus.keyOf, hid]
      rw [hb₁] at hq
      exact (congrArg (Option.getD · _) hq)
    rw [hqueue]
    refine ⟨fun q' => ?_, rfl, rfl⟩
    show ((b₁.attach q handler).queue q').consumers = _
    rw [Bus.attach, Bus.setQueue, hb₁]
    simp only [Function.update_apply]
    split_ifs with hq'
    · rw [hq']
    · rw [List.append_nil]
  | @subscribeNew _ id _ _ b₁ b₂ b₃ seeded hid hq hb₂ hseeded =>
    have hb₁ := Bus.subscriberId_eq hid
    have hc := Bus.created hid hb₂ hseeded
    have hnext : b₁.nextQueue = w.bus.nextQueue := by rw [hb₁]
    have hqueue : w.bus.queueOf topic opts = w.bus.nextQueue := by
      rw [Bus.queueOf, Bus.keyOf, hid]
      rw [hb₁] at hq
      exact (congrArg (Option.getD · _) hq)
    rw [hqueue, hnext]
    refine ⟨fun q' => ?_, rfl, rfl⟩
    show ((b₃.attach w.bus.nextQueue handler).queue q').consumers = _
    simp only [Bus.attach, Bus.setQueue, Function.update_apply]
    split_ifs with hq'
    · -- Nothing was attached to the queue before it was created.
      have hnone : (w.bus.queue w.bus.nextQueue).consumers = [] := by
        have hconsumers := Lane.consumers_eq (hg.lane w.bus.nextQueue)
        change (w.bus.queue w.bus.nextQueue).consumers = attachedIn (w.trail w.bus.nextQueue)
          at hconsumers
        rw [hconsumers, hg.sound.unused _ le_rfl]
        rfl
      show (b₃.queue w.bus.nextQueue).consumers ++ [handler] = _
      rw [hq', hnone, hc.target]
      rfl
    · rw [List.append_nil, hc.others q' hq']

theorem consumers_dispose {w : World} {s : Nat} {q : QueueRef} {c : AckHandler}
    (hs : w.subscriptions[s]? = some (q, c)) {o : Outcome} (hex : Executes w (.dispose s) o) :
    (∀ q', o.world.bus.queue q' = if q' = q then (w.bus.queue q).detach c else w.bus.queue q') ∧
    o.world.subscriptions = w.subscriptions ∧ o.more = [.pump q] ∧
    o.world.handles = w.handles ∧ o.world.timers = w.timers := by
  cases hex with
  | disposeNone hnone =>
    rw [hs] at hnone
    cases hnone
  | dispose hs' =>
    obtain ⟨rfl, rfl⟩ := Prod.mk.inj (Option.some.inj (hs.symm.trans hs'))
    refine ⟨fun q' => ?_, rfl, rfl, rfl, rfl⟩
    simp only [record, withBus, Bus.setQueue, Function.update_apply]

/-! ## Stakes -/

/-- No `Subscribe` attaches a delegate that equals one attached to its queue, and no subscription is
disposed of again while a delegate that equals its own is attached. -/
def keepsApart (p : World × List Nat) (l : Label) : Prop :=
  (∀ a ∈ p.1.attaching l, a.2 ∉ (p.1.bus.queue a.1).consumers) ∧
    ∀ s ∈ p.1.disposals l, s ∈ p.2 → ∀ d ∈ p.1.disposedOf l,
      d.2 ∉ (p.1.bus.queue d.1).consumers

instance (p : World × List Nat) (l : Label) : Decidable (keepsApart p l) :=
  inferInstanceAs (Decidable (_ ∧ _))

/-- Every subscription not disposed of, and every one about to be returned, has an entry of its own
among the consumers, and no two entries are equal. -/
structure Apart (p : World × List Nat) : Prop where
  known : ∀ s ∈ p.2, s < p.1.subscriptions.length
  stake : ∀ q c, (liveOf p q c).card + p.1.returning q c ≤ (p.1.bus.queue q).consumers.count c
  nodup : ∀ q, (p.1.bus.queue q).consumers.Nodup

theorem returning_idle {w w' : World} {l : Label} (hs : w.step l = some w')
    (hi : w.next l = none) (q : QueueRef) (c : AckHandler) :
    w'.returning q c = w.returning q c := by
  cases l with
  | call op =>
    obtain rfl := step_call hs
    have hentry : [op.entry].count (.returnSubscription q c) = 0 := by
      cases op <;> simp [Op.entry]
    simp [returning, agenda, hentry]
  | fire n =>
    obtain ⟨t, -, rfl⟩ := step_fire hs
    have hentry : [t.continuation].count (.returnSubscription q c) = 0 := by
      cases t <;> simp [Timer.continuation]
    simp [returning, agenda, hentry]
  | run n =>
    obtain ⟨i, -, -, hi', -⟩ := step_run hs
    rw [hi] at hi'
    cases hi'

theorem returning_next {w w' : World} {l : Label} (hs : w.step l = some w') {i : Instr}
    (hi : w.next l = some i) (q : QueueRef) (c : AckHandler) :
    w'.returning q c + (if i = .returnSubscription q c then 1 else 0) ≤
      w.returning q c + (w.exec i).more.count (.returnSubscription q c) := by
  cases l with
  | call | fire => cases hi
  | run n =>
    have hle := countP_agenda_le hs hi (· == .returnSubscription q c)
    simp only [beq_iff_eq] at hle
    exact hle

/-- Steps that leave the subscriptions and their entries alone. -/
theorem Apart.quiet {w w' : World} {disposed : List Nat} (h : Apart (w, disposed))
    (hsubs : w'.subscriptions = w.subscriptions)
    (hconsumers : ∀ q, (w'.bus.queue q).consumers = (w.bus.queue q).consumers)
    (hreturning : ∀ q c, w'.returning q c ≤ w.returning q c) : Apart (w', disposed) := by
  refine ⟨?_, fun q c => ?_, fun q => ?_⟩
  · rw [hsubs]
    exact h.known
  · have hlive : liveOf (w', disposed) q c = liveOf (w, disposed) q c :=
      Finset.ext fun s => by simp only [mem_liveOf, Live, hsubs]
    rw [hlive, hconsumers]
    exact (Nat.add_le_add_left (hreturning q c) _).trans (h.stake q c)
  · rw [hconsumers]
    exact h.nodup q

/-- A `Subscribe`: one more entry, for the subscription to be returned. -/
theorem Apart.subscribe {w w' : World} {disposed : List Nat} (h : Apart (w, disposed))
    {q₀ : QueueRef} {handler : AckHandler} (hfree : handler ∉ (w.bus.queue q₀).consumers)
    (hsubs : w'.subscriptions = w.subscriptions)
    (hconsumers : ∀ q, (w'.bus.queue q).consumers = (w.bus.queue q).consumers ++
      if q = q₀ then [handler] else [])
    (hreturning : ∀ q c, w'.returning q c ≤
      w.returning q c + if q = q₀ ∧ c = handler then 1 else 0) : Apart (w', disposed) := by
  refine ⟨?_, fun q c => ?_, fun q => ?_⟩
  · rw [hsubs]
    exact h.known
  · have hlive : liveOf (w', disposed) q c = liveOf (w, disposed) q c :=
      Finset.ext fun s => by simp only [mem_liveOf, Live, hsubs]
    have hcount : (w'.bus.queue q).consumers.count c =
        (w.bus.queue q).consumers.count c + if q = q₀ ∧ c = handler then 1 else 0 := by
      rw [hconsumers, List.count_append]
      by_cases hq : q = q₀ <;> by_cases hc : c = handler <;> simp [hq, hc, Ne.symm]
    have hstake := h.stake q c
    have hret := hreturning q c
    rw [hlive, hcount]
    dsimp only at hstake ⊢
    omega
  · rw [hconsumers]
    split_ifs with hq
    · subst hq
      refine List.nodup_append.mpr ⟨h.nodup q, List.nodup_singleton _, ?_⟩
      intro a ha b hb heq
      rw [List.mem_singleton] at hb
      exact hfree (by rw [← hb, ← heq]; exact ha)
    · rw [List.append_nil]
      exact h.nodup q

theorem Apart.hand {w w' : World} {disposed : List Nat} (h : Apart (w, disposed)) {q₀ : QueueRef}
    {handler : AckHandler} (hsubs : w'.subscriptions = w.subscriptions ++ [(q₀, handler)])
    (hconsumers : ∀ q, (w'.bus.queue q).consumers = (w.bus.queue q).consumers)
    (hreturning : ∀ q c, w'.returning q c + (if q = q₀ ∧ c = handler then 1 else 0) ≤
      w.returning q c) : Apart (w', disposed) := by
  refine ⟨?_, fun q c => ?_, fun q => ?_⟩
  · intro s hs
    have hlt : s < w.subscriptions.length := h.known s hs
    show s < w'.subscriptions.length
    rw [hsubs, List.length_append]
    omega
  · have hsub : liveOf (w', disposed) q c ⊆ liveOf (w, disposed) q c ∪
        (if q = q₀ ∧ c = handler then {w.subscriptions.length} else ∅) := by
      intro s hs
      rw [mem_liveOf] at hs
      obtain ⟨hget, hlive⟩ := hs
      rw [hsubs, List.getElem?_append] at hget
      split_ifs at hget with hlt
      · exact Finset.mem_union_left _ (mem_liveOf.mpr ⟨hget, hlive⟩)
      · apply Finset.mem_union_right _
        rw [List.getElem?_singleton] at hget
        split_ifs at hget with hzero
        obtain ⟨rfl, rfl⟩ := Prod.mk.inj (Option.some.inj hget)
        rw [if_pos ⟨rfl, rfl⟩, Finset.mem_singleton]
        omega
    have hcard : (liveOf (w', disposed) q c).card ≤ (liveOf (w, disposed) q c).card +
        if q = q₀ ∧ c = handler then 1 else 0 := by
      refine (Finset.card_le_card hsub).trans ((Finset.card_union_le _ _).trans ?_)
      refine Nat.add_le_add_left ?_ _
      split_ifs <;> simp
    have hstake := h.stake q c
    have hret := hreturning q c
    rw [hconsumers]
    dsimp only at hstake ⊢
    omega
  · rw [hconsumers]
    exact h.nodup q

/-- Noting a disposal twice is noting it once. -/
theorem Apart.again {w : World} {disposed : List Nat} (h : Apart (w, disposed)) {s : Nat}
    (hs : s ∈ disposed) : Apart (w, s :: disposed) := by
  refine ⟨List.forall_mem_cons.mpr ⟨h.known s hs, h.known⟩, fun q c => ?_, h.nodup⟩
  have hlive : liveOf (w, s :: disposed) q c = liveOf (w, disposed) q c := by
    ext s'
    simp only [mem_liveOf, Live, List.mem_cons, not_or]
    refine and_congr_right fun _ => and_iff_right_of_imp fun hnot heq => hnot (heq ▸ hs)
  rw [hlive]
  exact h.stake q c

/-- A disposal that is no repeat: the subscription goes, and its entry with it. -/
theorem Apart.dispose {w w' : World} {disposed : List Nat} (h : Apart (w, disposed)) {s : Nat}
    {q₀ : QueueRef} {c₀ : AckHandler} (hlive : Live (w, disposed) s q₀ c₀)
    (hsubs : w'.subscriptions = w.subscriptions)
    (hconsumers : ∀ q, (w'.bus.queue q).consumers =
      if q = q₀ then (w.bus.queue q).consumers.erase c₀ else (w.bus.queue q).consumers)
    (hreturning : ∀ q c, w'.returning q c ≤ w.returning q c) : Apart (w', s :: disposed) := by
  refine ⟨?_, fun q c => ?_, fun q => ?_⟩
  · rw [hsubs]
    refine List.forall_mem_cons.mpr ⟨(List.getElem?_eq_some_iff.mp hlive.1).1, h.known⟩
  · have herase : liveOf (w', s :: disposed) q c = (liveOf (w, disposed) q c).erase s := by
      ext s'
      simp only [mem_liveOf, Live, hsubs, List.mem_cons, not_or, Finset.mem_erase]
      tauto
    have hstake := h.stake q c
    have hret := hreturning q c
    rw [herase, hconsumers]
    by_cases hqc : q = q₀ ∧ c = c₀
    · obtain ⟨rfl, rfl⟩ := hqc
      have hpos : 0 < (liveOf (w, disposed) q c).card :=
        Finset.card_pos.mpr ⟨s, mem_liveOf.mpr hlive⟩
      rw [if_pos rfl, List.count_erase_self, Finset.card_erase_of_mem (mem_liveOf.mpr hlive)]
      dsimp only at hstake ⊢
      omega
    · have hcount : (if q = q₀ then (w.bus.queue q).consumers.erase c₀
          else (w.bus.queue q).consumers).count c = (w.bus.queue q).consumers.count c := by
        split_ifs with hq
        · exact List.count_erase_of_ne fun hc => hqc ⟨hq, hc⟩
        · rfl
      rw [hcount]
      have hcard := Finset.card_erase_le (s := liveOf (w, disposed) q c) (a := s)
      dsimp only at hstake ⊢
      omega
  · rw [hconsumers]
    split_ifs
    · exact (h.nodup q).erase c₀
    · exact h.nodup q

/-- A disposal, of what may have been disposed of before: then it finds no entry to take out. -/
theorem Apart.disposal {w w' : World} {disposed : List Nat} (h : Apart (w, disposed)) {s : Nat}
    {q₀ : QueueRef} {c₀ : AckHandler} (hget : w.subscriptions[s]? = some (q₀, c₀))
    (hsubs : w'.subscriptions = w.subscriptions)
    (hconsumers : ∀ q, (w'.bus.queue q).consumers =
      if q = q₀ then (w.bus.queue q).consumers.erase c₀ else (w.bus.queue q).consumers)
    (hreturning : ∀ q c, w'.returning q c ≤ w.returning q c)
    (hgone : s ∈ disposed → c₀ ∉ (w.bus.queue q₀).consumers) : Apart (w', s :: disposed) := by
  by_cases hold : s ∈ disposed
  · refine (h.quiet hsubs (fun q => ?_) hreturning).again hold
    rw [hconsumers]
    split_ifs with hq
    · rw [hq]
      exact List.erase_of_not_mem (hgone hold)
    · rfl
  · exact h.dispose ⟨hget, hold⟩ hsubs hconsumers hreturning

theorem disposals_eq_nil {w : World} {l : Label} {i : Instr} (hi : w.next l = some i)
    (hnone : ∀ s, i = .dispose s → w.subscriptions[s]? = none) : w.disposals l = [] := by
  unfold disposals
  rw [hi]
  cases i with
  | dispose s =>
    have hge := List.getElem?_eq_none_iff.mp (hnone s rfl)
    exact if_neg (not_lt.mpr hge)
  | _ => rfl

theorem apart {p : World × List Nat} (h : ReachIf disposalMachine keepsApart p) : Apart p := by
  refine h.invariant (fun p hp => ?_) fun p l p' hr ih hok hstep => ?_
  · obtain ⟨w, disposed⟩ := p
    obtain ⟨hw, hdisposed⟩ := hp
    obtain rfl : w = {} := busMachine_init.mp hw
    obtain rfl : disposed = [] := hdisposed
    exact ⟨by simp, fun q c => by simp [liveOf, returning, agenda], fun q => List.nodup_nil⟩
  obtain ⟨w, disposed⟩ := p
  obtain ⟨w', disposed'⟩ := p'
  obtain ⟨hstep, hnotes⟩ := step_recording.mp hstep
  have hs := busMachine_step.mp hstep
  have hg : w.Good := good (hr.forget fun _ _ _ => trivial)
  change w.step l = some w' at hs
  change disposed' = w.disposals l ++ disposed at hnotes
  subst hnotes
  cases hi : w.next l with
  | none =>
    obtain ⟨hbus, hsubs, -, -⟩ := step_idle hs hi
    rw [disposals, hi, List.nil_append]
    exact ih.quiet hsubs (fun q => by rw [hbus]) fun q c => (returning_idle hs hi q c).le
  | some i =>
    obtain ⟨hbus, hsubs, -, -, -⟩ := step_next hs hi
    have hreturning := returning_next hs hi
    have hex := w.executes i
    generalize w.exec i = o at hex hbus hsubs hreturning
    by_cases hsub : ∃ topic handler opts, i = .subscribe topic handler opts
    · obtain ⟨topic, handler, opts, rfl⟩ := hsub
      obtain ⟨hconsumers, hsubs', hmore⟩ := consumers_subscribe hg hex
      have hfree := hok.1 (w.bus.queueOf topic opts, handler) (by simp [attaching, hi])
      rw [disposals, hi, List.nil_append]
      refine ih.subscribe hfree (hsubs.trans hsubs') (fun q => ?_) fun q c => ?_
      · rw [hbus]
        exact hconsumers q
      · have hle := hreturning q c
        rw [hmore] at hle
        refine hle.trans (Nat.add_le_add_left ?_ _)
        by_cases hq : q = w.bus.queueOf topic opts <;> by_cases hc : c = handler <;>
          simp [hq, hc, Ne.symm]
    by_cases hret : ∃ q c, i = .returnSubscription q c
    · obtain ⟨q₀, handler, rfl⟩ := hret
      rw [disposals, hi, List.nil_append]
      cases hex
      refine ih.hand hsubs (fun q => by rw [hbus]) fun q c => ?_
      have hle := hreturning q c
      simpa [eq_comm] using hle
    by_cases hdis : ∃ s q c, i = .dispose s ∧ w.subscriptions[s]? = some (q, c)
    · obtain ⟨s, q, c, rfl, hget⟩ := hdis
      obtain ⟨hqueue, hsubs', hmore, -⟩ := consumers_dispose hget hex
      have hnotes : w.disposals l = [s] := by
        simp [disposals, hi, (List.getElem?_eq_some_iff.mp hget).1]
      rw [hnotes, List.singleton_append]
      refine ih.disposal hget (hsubs.trans hsubs') (fun q' => ?_) (fun q' c' => ?_) fun hold => ?_
      · rw [hbus, hqueue]
        split_ifs with hq
        · rw [hq, BusQueue.detach_eq]
        · rfl
      · have hle := hreturning q' c'
        rw [hmore] at hle
        simpa using hle
      · exact hok.2 s (by simp [hnotes]) hold (q, c) (by simp [disposedOf, hi, hget])
    · have hnone : ∀ s, i = .dispose s → w.subscriptions[s]? = none := by
        intro s hs
        by_contra hsome
        obtain ⟨⟨q, c⟩, hget⟩ := Option.ne_none_iff_exists'.mp hsome
        exact hdis ⟨s, q, c, hs, hget⟩
      push Not at hsub hret
      obtain ⟨hconsumers, hsubs', hmore⟩ := consumers_exec hex hsub hret hnone
      rw [disposals_eq_nil hi hnone, List.nil_append]
      refine ih.quiet (hsubs.trans hsubs') (fun q => by rw [hbus]; exact hconsumers q) fun q c => ?_
      have hle := hreturning q c
      rw [List.count_eq_zero.mpr (hmore q c)] at hle
      omega

end World

end MessagingPoc
