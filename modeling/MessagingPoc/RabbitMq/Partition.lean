import MessagingPoc.Lib.Lookup
import MessagingPoc.Lib.Machine
import MessagingPoc.RabbitMq.Adapter

/-!
# RabbitMQ: partition consumers and their ring

The consumers of one subscriber that partitions by group. Each has a durable queue of its own in the
ring of the hash exchange, and `unsubscribe` closes its channel and nothing else: **the queue stays
in the ring**, with whatever lies on it and whatever is still routed to it.

As long as nobody leaves while others stay, and nobody joins after someone has left, ring and
consumers agree: that is `keepsRing`, and a step that breaks it leaves a queue of the ring behind.
-/

namespace MessagingPoc.RabbitMq

open Amqp Machine

/-! ## The machine -/

inductive Label
  | subscribe (c : Call)
  /-- The channel of a subscription is closed. -/
  | unsubscribe (channel : Nat)
  | publish (p : Publication) (picked : Option String)
  /-- The default exchange puts a message on a queue by its name, as for one that a retry queue
  gives back. -/
  | direct (queue : String) (m : Message)
  | deliver (consumer : Nat)
  /-- A delivery is done with: acked, or rejected and gone from its queue. -/
  | settle (delivery : Nat)
  | requeue (delivery : Nat)
deriving DecidableEq

/-- A call that partitions by group for one subscriber. -/
def Call.partitions (id : String) (c : Call) : Prop :=
  c.options.partitionByGroup = true ∧ c.options.subscriberId = some id ∧
    c.options.transient = false ∧ c.options.streamReplay = false

instance (id : String) (c : Call) : Decidable (c.partitions id) :=
  inferInstanceAs (Decidable (_ ∧ _))

def step (topic id : String) (b : Rabbit) : Label → Option Rabbit
  | .subscribe c => if c.partitions id then some (subscribe topic b c).1 else none
  | .unsubscribe channel =>
    if b.consumers.any (·.channel = channel) then some (b.close channel) else none
  | .publish p picked =>
    if Picks topic b p picked then some (publish topic b p picked) else none
  | .direct queue m =>
    if queue ∈ b.queues then some { b with ready := b.ready ++ [(queue, m)] } else none
  | .deliver k => b.consumers[k]?.bind b.deliver
  | .settle k => b.unacked[k]?.map fun _ => b.ack k
  | .requeue k => b.unacked[k]?.map (b.requeue k)

def machine (topic id : String) : System Rabbit Label where
  init b := b = connectBus
  step b l b' := step topic id b l = some b'

/-- The queues of the ring. -/
abbrev ring (topic : String) (b : Rabbit) : List String := b.bound (hashExchange topic)

/-- A consumer reads the queue. -/
def served (b : Rabbit) (q : String) : Prop := ∃ c ∈ b.consumers, c.queue = q

instance (b : Rabbit) (q : String) : Decidable (served b q) :=
  inferInstanceAs (Decidable (∃ c ∈ b.consumers, c.queue = q))

/-! ## The condition -/

/-- A consumer joins while every queue of the ring is served, but for its own; it leaves when no
other stays, or when another one reads its queue. -/
def keepsRing (topic : String) (b : Rabbit) : Label → Prop
  | .subscribe c => ∀ q ∈ ring topic b, q = c.queue topic ∨ served b q
  | .unsubscribe channel =>
    (∀ c ∈ b.consumers, c.channel = channel) ∨
      ∀ c ∈ b.consumers, c.channel = channel →
        ∃ c' ∈ b.consumers, c'.channel ≠ channel ∧ c'.queue = c.queue
  | _ => True

instance (topic : String) (b : Rabbit) (l : Label) : Decidable (keepsRing topic b l) := by
  unfold keepsRing
  induction l using Label.casesOn <;> infer_instance

/-! ## The ring and its consumers -/

structure Sound (topic : String) (b : Rabbit) : Prop where
  opened : b.Opened
  lasting : ∀ q args, b.queues.lookup q = some args → args.autoDelete = false
  /-- A consumer's queue is in the ring. -/
  member : ∀ c ∈ b.consumers, c.queue ∈ ring topic b
  /-- What is not settled, an attached consumer holds. -/
  held : ∀ d ∈ b.unacked, ∃ c ∈ b.consumers, c.channel = d.channel ∧ c.queue = d.queue
  /-- With a consumer attached, every queue of the ring is served. -/
  served : b.consumers ≠ [] → ∀ q ∈ ring topic b, served b q

theorem lasting_declarations {topic : String} {c : Call} (hlasting : c.options.transient = false)
    {q : String} {args : QueueArgs} (h : .assertQueue q args ∈ declarations topic c) :
    args.autoDelete = false := by
  have hqueue : (c.queueArgs topic).autoDelete = false := by
    unfold Call.queueArgs
    split_ifs <;> rfl
  have hargs : args = c.retryArgs topic ∨ args = c.queueArgs topic := by
    simp only [declarations, hlasting, Bool.false_eq_true, if_false] at h
    split_ifs at h <;> simp [ensureBusExchanges, ensureHashExchange] at h <;> tauto
  rcases hargs with rfl | rfl
  · rfl
  · exact hqueue

theorem Call.partitions.binding {topic id : String} {c : Call} (h : c.partitions id) :
    c.binding topic = ⟨hashExchange topic, c.queue topic, "1"⟩ := by
  obtain ⟨hpartition, -, hlasting, -⟩ := h
  simp [Call.binding, hpartition, hlasting]

namespace Sound

variable {topic id : String} {b b' : Rabbit}

theorem subscribe (h : Sound topic b) {c : Call} (hc : c.partitions id)
    (hok : keepsRing topic b (.subscribe c)) : Sound topic (subscribe topic b c).1 := by
  have hs := subscribes topic h.opened hc.2.2.2
  have hlasting : ∀ q args, (RabbitMq.subscribe topic b c).1.queues.lookup q = some args →
      args.autoDelete = false := by
    intro q args hq
    exact (hs.queues q args hq).elim (h.lasting q args) (lasting_declarations hc.2.2.1)
  have hopened := hs.opened h.opened
  have hbindings := hs.bindings
  have hconsumers := hs.consumers
  have hunacked := hs.unacked
  generalize (RabbitMq.subscribe topic b c).2 = ok at hbindings hconsumers
  generalize (RabbitMq.subscribe topic b c).1 = b' at *
  cases ok with
  | false =>
    -- A refused call changes neither ring nor consumers.
    have hring : ring topic b' = ring topic b := by simp [ring, Broker.bound, hbindings]
    refine ⟨hopened, hlasting, ?_, ?_, ?_⟩ <;>
      simp only [hring, hconsumers, hunacked, RabbitMq.served, Bool.false_eq_true, if_false]
    · exact h.member
    · exact h.held
    · exact h.served
  | true =>
    simp only [if_true] at hbindings hconsumers
    have hring : ∀ q, q ∈ ring topic b' ↔ q ∈ ring topic b ∨ q = c.queue topic := by
      intro q
      simp only [ring, Broker.mem_bound, hbindings, InsertionSet.mem_add, hc.binding]
      constructor
      · intro hq
        obtain ⟨x, hx | rfl, hexchange, rfl⟩ := hq
        · exact .inl ⟨x, hx, hexchange, rfl⟩
        · exact .inr rfl
      · intro hq
        rcases hq with ⟨x, hx, hexchange, rfl⟩ | rfl
        · exact ⟨x, .inl hx, hexchange, rfl⟩
        · exact ⟨_, .inr rfl, rfl, rfl⟩
    have hmem : ∀ c', c' ∈ b'.consumers ↔
        c' ∈ b.consumers ∨ c' = ⟨b.nextChannel, c.queue topic, c.subscriberId⟩ := by
      intro c'
      rw [hconsumers, List.mem_append, List.mem_singleton]
    refine ⟨hopened, hlasting, fun c' hc' => ?_, fun d hd => ?_, fun _ q hq => ?_⟩
    · rcases (hmem c').mp hc' with hc' | rfl
      · exact (hring _).mpr (.inl (h.member c' hc'))
      · exact (hring _).mpr (.inr rfl)
    · rw [hunacked] at hd
      obtain ⟨c', hc', hheld⟩ := h.held d hd
      exact ⟨c', (hmem c').mpr (.inl hc'), hheld⟩
    · have hnew : RabbitMq.served b' (c.queue topic) := ⟨_, (hmem _).mpr (.inr rfl), rfl⟩
      rcases (hring q).mp hq with hq | rfl
      · rcases hok q hq with rfl | hserved
        · exact hnew
        · obtain ⟨c', hc', rfl⟩ := hserved
          exact ⟨c', (hmem c').mpr (.inl hc'), rfl⟩
      · exact hnew

theorem unsubscribe (h : Sound topic b) {channel : Nat}
    (hok : keepsRing topic b (.unsubscribe channel)) : Sound topic (b.close channel) := by
  rw [Broker.close_eq (Broker.loses_of_durable h.lasting channel)]
  have hmem : ∀ c, c ∈ b.consumers.filter (·.channel ≠ channel) ↔
      c ∈ b.consumers ∧ c.channel ≠ channel := by
    intro c
    simp [List.mem_filter]
  refine ⟨⟨fun c hc => h.opened.1 c ((hmem c).mp hc).1, fun d hd => h.opened.2 d
    (List.mem_of_mem_filter hd)⟩, h.lasting, fun c hc => h.member c ((hmem c).mp hc).1,
    fun d hd => ?_, fun hsome q hq => ?_⟩
  · obtain ⟨hd, hne⟩ := List.mem_filter.mp hd
    obtain ⟨c, hc, hchannel, hqueue⟩ := h.held d hd
    refine ⟨c, (hmem c).mpr ⟨hc, ?_⟩, hchannel, hqueue⟩
    rw [hchannel]
    simpa using hne
  · obtain ⟨c₀, hc₀⟩ := List.exists_mem_of_ne_nil _ hsome
    obtain ⟨hc₀, hother⟩ := (hmem c₀).mp hc₀
    obtain ⟨c, hc, rfl⟩ := h.served (List.ne_nil_of_mem hc₀) q hq
    by_cases hchannel : c.channel = channel
    · obtain ⟨c', hc', hne, hqueue⟩ := (hok.resolve_left fun hall => hother (hall c₀ hc₀)) c hc
        hchannel
      exact ⟨c', (hmem c').mpr ⟨hc', hne⟩, hqueue⟩
    · exact ⟨c, (hmem c).mpr ⟨hc, hchannel⟩, rfl⟩

theorem move (h : Sound topic b) (hbindings : b'.bindings = b.bindings)
    (hconsumers : b'.consumers = b.consumers) (hqueues : b'.queues = b.queues)
    (hnext : b'.nextChannel = b.nextChannel)
    (hunacked : ∀ d ∈ b'.unacked, d ∈ b.unacked ∨
      ∃ c ∈ b.consumers, c.channel = d.channel ∧ c.queue = d.queue) : Sound topic b' := by
  have hring : ring topic b' = ring topic b := by simp [ring, Broker.bound, hbindings]
  have hheld : ∀ d ∈ b'.unacked, ∃ c ∈ b.consumers, c.channel = d.channel ∧ c.queue = d.queue :=
    fun d hd => (hunacked d hd).elim (h.held d) id
  refine ⟨⟨?_, fun d hd => ?_⟩, ?_, ?_, ?_, ?_⟩
  · rw [hconsumers, hnext]
    exact h.opened.1
  · obtain ⟨c, hc, hchannel, -⟩ := hheld d hd
    rw [hnext, ← hchannel]
    exact h.opened.1 c hc
  · rw [hqueues]
    exact h.lasting
  · rw [hconsumers, hring]
    exact h.member
  · rw [hconsumers]
    exact hheld
  · simp only [hconsumers, hring, RabbitMq.served]
    exact h.served

end Sound

theorem machine_step {topic id : String} {b b' : Rabbit} {l : Label} :
    (machine topic id).step b l b' ↔ step topic id b l = some b' := Iff.rfl

/-- **Ring and consumers agree** along runs that keep the ring. -/
theorem sound {topic id : String} {b : Rabbit}
    (h : ReachIf (machine topic id) (keepsRing topic) b) : Sound topic b := by
  refine h.invariant (fun b hb => ?_) fun b l b' _ ih hok hstep => ?_
  · obtain rfl : b = connectBus := hb
    refine ⟨⟨?_, ?_⟩, ?_, ?_, ?_, ?_⟩ <;>
      simp [connectBus, Broker.run, Broker.exec, Broker.createChannel]
  have hs := machine_step.mp hstep
  cases l with
  | subscribe c =>
    simp only [step] at hs
    split_ifs at hs with hc
    cases hs
    exact ih.subscribe hc hok
  | unsubscribe channel =>
    simp only [step] at hs
    split_ifs at hs
    cases hs
    exact ih.unsubscribe hok
  | publish p picked =>
    simp only [step] at hs
    split_ifs at hs
    cases hs
    obtain ⟨-, hbindings, hconsumers, hunacked, hqueues, hnext, -⟩ := publish_eq topic b p picked
    exact ih.move hbindings hconsumers hqueues hnext fun d hd => .inl (hunacked ▸ hd)
  | direct queue m =>
    simp only [step] at hs
    split_ifs at hs
    cases hs
    exact ih.move rfl rfl rfl rfl fun d hd => .inl hd
  | deliver k =>
    obtain ⟨c, hc, hdeliver⟩ := Option.bind_eq_some_iff.mp hs
    simp only [Broker.deliver] at hdeliver
    split_ifs at hdeliver
    obtain ⟨i, -, hdeliver⟩ := Option.bind_eq_some_iff.mp hdeliver
    obtain ⟨r, -, rfl⟩ := Option.map_eq_some_iff.mp hdeliver
    refine ih.move rfl rfl rfl rfl fun d hd => ?_
    rcases List.mem_append.mp hd with hd | hd
    · exact .inl hd
    · rw [List.mem_singleton.mp hd]
      exact .inr ⟨c, List.mem_of_getElem? hc, rfl, rfl⟩
  | settle k =>
    obtain ⟨d, -, rfl⟩ := Option.map_eq_some_iff.mp hs
    exact ih.move rfl rfl rfl rfl fun d hd => .inl ((List.eraseIdx_sublist _ _).subset hd)
  | requeue k =>
    obtain ⟨d, -, rfl⟩ := Option.map_eq_some_iff.mp hs
    exact ih.move rfl rfl rfl rfl fun d hd => .inl ((List.eraseIdx_sublist _ _).subset hd)

/-! ## What lies on a served queue is handed over -/

/-- Steps of the consumers alone: deliveries, and deliveries done with. -/
def Label.serves : Label → Bool
  | .deliver _ | .settle _ => true
  | _ => false

variable {topic id : String}

/-- A channel can be rid of its deliveries. -/
theorem settles (topic id : String) (b : Rabbit) (channel : Nat) :
    ∃ ls, (∀ l ∈ ls, Label.serves l = true) ∧
      ∃ us, play (step topic id) b ls = { b with unacked := us } ∧
        ∀ d ∈ us, d.channel ≠ channel := by
  -- By induction on the number of its deliveries.
  induction hn : b.unacked.countP (fun d => d.channel = channel) generalizing b with
  | zero =>
    refine ⟨[], by simp, b.unacked, rfl, ?_⟩
    simpa [List.countP_eq_zero] using hn
  | succ n ih =>
    have hpos : 0 < b.unacked.countP (fun d => d.channel = channel) := by omega
    obtain ⟨d, hd, hchannel⟩ := List.countP_pos_iff.mp hpos
    obtain ⟨k, hk⟩ := List.getElem?_of_mem hd
    have hcount := Lookup.countP_eraseIdx hk (fun d => d.channel = channel)
    rw [if_pos hchannel, hn] at hcount
    obtain ⟨ls, hserves, us, hplay, hnone⟩ := ih (b.ack k) (Nat.succ.inj hcount)
    refine ⟨.settle k :: ls, ?_, us, ?_, hnone⟩
    · intro l hl
      rcases List.mem_cons.mp hl with rfl | hl
      · rfl
      · exact hserves l hl
    · rw [play, show step topic id b (.settle k) = some (b.ack k) by simp [step, hk],
        Option.getD_some, hplay]
      rfl

theorem play_append (b : Rabbit) (ls ls' : List Label) :
    play (step topic id) b (ls ++ ls') = play (step topic id) (play (step topic id) b ls) ls' := by
  induction ls generalizing b with
  | nil => rfl
  | cons l ls ih => exact ih _

/-- **A consumer comes to every message of its queue.** -/
theorem hands_over (topic id : String) {b : Rabbit} {k : Nat} {c : Consumer String}
    (hk : b.consumers[k]? = some c)
    {m : Message} (hm : (c.queue, m) ∈ b.ready) :
    ∃ ls, (∀ l ∈ ls, Label.serves l = true) ∧
      ⟨c.channel, c.queue, m⟩ ∈ (play (step topic id) b ls).unacked := by
  obtain ⟨pre, post, hready⟩ := List.append_of_mem hm
  -- By induction on the messages of the queue in front of it.
  induction hn : pre.countP (fun r => r.1 = c.queue) generalizing b pre post with
  | zero =>
    obtain ⟨ls, hserves, us, hplay, hidle⟩ := settles topic id b c.channel
    have hdeliver := Broker.deliver_first (b := { b with unacked := us }) hready
      (by simpa [List.countP_eq_zero] using hn) hidle
    refine ⟨ls ++ [.deliver k], ?_, ?_⟩
    · intro l hl
      rcases List.mem_append.mp hl with hl | hl
      · exact hserves l hl
      · rw [List.mem_singleton.mp hl]
        rfl
    · rw [play_append, hplay, play, play]
      simp [step, hk, hdeliver]
  | succ n ih =>
    obtain ⟨ls, hserves, us, hplay, hidle⟩ := settles topic id b c.channel
    have hpos : 0 < pre.countP (fun r => r.1 = c.queue) := by omega
    obtain ⟨r, hr, hqueue⟩ := List.countP_pos_iff.mp hpos
    have hsome : (pre.find? fun r => r.1 = c.queue).isSome = true :=
      List.find?_isSome.mpr ⟨r, hr, hqueue⟩
    obtain ⟨r, hfind⟩ := Option.isSome_iff_exists.mp hsome
    obtain ⟨hqueue, pre₁, pre₂, rfl, hfirst⟩ := List.find?_eq_some_iff_append.mp hfind
    obtain ⟨q, m₁⟩ := r
    obtain rfl : q = c.queue := by simpa using hqueue
    have hready' : b.ready = pre₁ ++ (c.queue, m₁) :: (pre₂ ++ (c.queue, m) :: post) := by
      simpa using hready
    have hdeliver := Broker.deliver_first (b := { b with unacked := us }) hready'
      (by simpa using hfirst) hidle
    have hcount : (pre₁ ++ pre₂).countP (fun r => r.1 = c.queue) = n := by
      simp only [List.countP_append, List.countP_cons, decide_true, if_true] at hn ⊢
      omega
    obtain ⟨ls', hserves', hmem⟩ := ih (b := { b with
        ready := pre₁ ++ (pre₂ ++ (c.queue, m) :: post)
        unacked := us ++ [⟨c.channel, c.queue, m₁⟩] })
      hk (by simp) (pre₁ ++ pre₂) post (by simp) hcount
    refine ⟨ls ++ .deliver k :: ls', ?_, ?_⟩
    · intro l hl
      rcases List.mem_append.mp hl with hl | hl
      · exact hserves l hl
      · rcases List.mem_cons.mp hl with rfl | hl
        · rfl
        · exact hserves' l hl
    · rw [play_append, hplay, play]
      simpa [step, hk, hdeliver] using hmem

/-! ## No group is stranded -/

/-- **No group is stranded**, in runs that keep the ring: while a consumer is attached, a message
with a group is routed to a queue that is read, what is not settled is held by an attached consumer,
and what lies on a queue of the ring, an attached consumer comes to. -/
theorem never_stranded {b : Rabbit} (h : ReachIf (machine topic id) (keepsRing topic) b)
    (hattached : b.consumers ≠ []) :
    (∀ p picked, p.group.isSome = true → Picks topic b p picked →
      ∃ q, picked = some q ∧ served b q) ∧
    (∀ d ∈ b.unacked, ∃ c ∈ b.consumers, c.channel = d.channel ∧ c.queue = d.queue) ∧
    ∀ r ∈ b.ready, r.1 ∈ ring topic b → ∃ c ∈ b.consumers, c.queue = r.1 ∧
      ∃ ls, (∀ l ∈ ls, Label.serves l = true) ∧
        ⟨c.channel, r.1, r.2⟩ ∈ (play (step topic id) b ls).unacked := by
  have hsound := sound h
  refine ⟨fun p picked hgroup hpicked => ?_, hsound.held, fun r hr hring => ?_⟩
  · rw [Picks, if_pos hgroup] at hpicked
    cases picked with
    | none =>
      -- The queue of an attached consumer is there to be picked.
      obtain ⟨c, hc⟩ := List.exists_mem_of_ne_nil _ hattached
      have hmember := hsound.member c hc
      rw [ring, show b.bound (hashExchange topic) = [] from hpicked] at hmember
      cases hmember
    | some q => exact ⟨q, rfl, hsound.served hattached q hpicked⟩
  · obtain ⟨c, hc, hqueue⟩ := hsound.served hattached r.1 hring
    obtain ⟨k, hk⟩ := List.getElem?_of_mem hc
    obtain ⟨ls, hserves, hmem⟩ := hands_over topic id hk (m := r.2)
      (by rw [hqueue]; exact hr)
    exact ⟨c, hc, hqueue, ls, hserves, hqueue ▸ hmem⟩

/-- A step that breaks the ring leaves a queue behind, with a consumer attached: whatever is routed
there is stranded. -/
theorem breaks_ring {b b' : Rabbit} {l : Label} (hsound : Sound topic b)
    (hs : step topic id b l = some b') (hbreaks : ¬ keepsRing topic b l)
    (haccepted : ∀ c, l = .subscribe c → (subscribe topic b c).2 = true) :
    b'.consumers ≠ [] ∧ ∃ q ∈ ring topic b', ¬ served b' q := by
  cases l with
  | subscribe c =>
    simp only [step] at hs
    split_ifs at hs with hc
    cases hs
    have hsub := subscribes topic hsound.opened hc.2.2.2
    have hconsumers := hsub.consumers
    have hbindings := hsub.bindings
    rw [if_pos (haccepted c rfl)] at hconsumers hbindings
    simp only [keepsRing, not_forall, not_or] at hbreaks
    obtain ⟨q, hq, hown, hunserved⟩ := hbreaks
    refine ⟨by simp [hconsumers], q, ?_, fun hserved => ?_⟩
    · obtain ⟨x, hx, hexchange, rfl⟩ := Broker.mem_bound.mp hq
      refine Broker.mem_bound.mpr ⟨x, ?_, hexchange, rfl⟩
      rw [hbindings]
      exact InsertionSet.mem_add.mpr (.inl hx)
    · obtain ⟨c', hc', rfl⟩ := hserved
      rw [hconsumers] at hc'
      rcases List.mem_append.mp hc' with hc' | hc'
      · exact hunserved ⟨c', hc', rfl⟩
      · rw [List.mem_singleton.mp hc'] at hown
        exact hown rfl
  | unsubscribe channel =>
    simp only [step] at hs
    split_ifs at hs
    cases hs
    rw [Broker.close_eq (Broker.loses_of_durable hsound.lasting channel)]
    simp only [keepsRing, not_or, not_forall, not_exists, not_and] at hbreaks
    obtain ⟨⟨c₀, hc₀, hstays⟩, c, hc, hchannel, halone⟩ := hbreaks
    refine ⟨List.ne_nil_of_mem (List.mem_filter.mpr ⟨hc₀, by simpa using hstays⟩), c.queue,
      hsound.member c hc, fun hserved => ?_⟩
    obtain ⟨c', hc', hqueue⟩ := hserved
    obtain ⟨hc', hne⟩ := List.mem_filter.mp hc'
    exact halone c' hc' (by simpa using hne) hqueue
  | _ => exact absurd trivial hbreaks

/-- The call of a partition consumer of subscriber `a`. -/
def partitionCall (suffix : String) : Call :=
  ⟨{ subscriberId := some "a", partitionByGroup := true }, "", suffix⟩

/-- A message of a group. -/
def grouped (payload : String) : Publication := ⟨payload, none, some { groupId := some "g" }⟩

/-- Two consumers; two messages of one group, the first of them delivered. -/
def twoMessages : List Label :=
  [.subscribe (partitionCall "r"), .subscribe (partitionCall "s"),
    .publish (grouped "m") (some "bus.t.a.s"), .publish (grouped "n") (some "bus.t.a.s"),
      .deliver 1]

theorem never_stranded_second :
    let b := play (step "t" "a") connectBus twoMessages
    ∃ c ∈ b.consumers, c.queue = "bus.t.a.s" ∧ ∃ ls, (∀ l ∈ ls, Label.serves l = true) ∧
      ⟨c.channel, "bus.t.a.s", (grouped "n").message⟩ ∈ (play (step "t" "a") b ls).unacked := by
  have hstranded := never_stranded (reachIf_play (S := machine "t" "a") (f := step "t" "a")
    (fun _ _ _ => id) rfl twoMessages (by decide +kernel)) (by decide +kernel)
  exact hstranded.2.2 ("bus.t.a.s", (grouped "n").message) (by decide +kernel) (by decide +kernel)

/-- Two consumers, the first of which leaves. -/
def firstLeaves : List Label :=
  [.subscribe (partitionCall "r"), .subscribe (partitionCall "s"), .unsubscribe 1]

/-- **The queue of a consumer that left stays in the ring.** -/
theorem group_stranded : ¬ ∀ topic id b, Reach (machine topic id) b → b.consumers ≠ [] →
    ∀ p picked, p.group.isSome = true → Picks topic b p picked →
      ∃ q, picked = some q ∧ served b q := by
  intro hclaim
  obtain ⟨q, hq, hserved⟩ := hclaim "t" "a" _ (reach_play (S := machine "t" "a")
    (f := step "t" "a") (fun _ _ _ => id) rfl firstLeaves) (by decide +kernel) (grouped "m")
    (some "bus.t.a.r") rfl (by decide +kernel)
  cases hq
  exact absurd hserved (by decide +kernel)

end MessagingPoc.RabbitMq
