import MessagingPoc.Sse.Contract
import MessagingPoc.InMemory.Bus
import MessagingPoc.Lib.Lookup

/-!
# The SSE cluster

Instances of the SSE server that share one bus: connections are opened (`handleEvents`,
`SseHub.connect`), messages published (`handlePublish`, `SseHub.publish`), copies delivered and
connections closed, in any order. A connection is bound in two steps, one for each scope, and others
may come between them.

The bus is any that keeps the port's contract with the reference `topicMatch`: one queue for each
subscriber id, with the filter of its first subscriber; a publish puts a copy on every queue whose
filter accepts its routing key; a queue hands each copy to one of its consumers, in any order.
Envelopes travel as such, JSON both ways being the identity on them.

The ids of a connection are spliced into the filters of its subscriptions unescaped, so an id with a
wildcard word subscribes to the addresses of others (`wildcard_id_leaks`). `sse_isolation` says that
nothing else can go wrong, short of two subscriptions with the same generated id.
-/

namespace MessagingPoc

namespace Sse

open Machine

/-! ## The cluster -/

structure Connection where
  /-- The instance that serves it. -/
  inst : Nat
  identity : ConnectionIdentity
  userUnsub : Option Nat := none
  orgUnsub : Option Nat := none
  closed : Bool := false
deriving DecidableEq

namespace Connection

/-- The handle of a scope's subscription: its number. -/
def unsub (conn : Connection) : Scope → Option Nat
  | .user => conn.userUnsub
  | .org => conn.orgUnsub

/-- The scope `connect` binds next. -/
def next (conn : Connection) : Option Scope :=
  if conn.userUnsub = none then some .user
  else if conn.orgUnsub = none then some .org
  else none

def bind (conn : Connection) (handle : Nat) : Scope → Connection
  | .user => { conn with userUnsub := some handle }
  | .org => { conn with orgUnsub := some handle }

/-- The routing key of a scope's subscription. -/
def address (conn : Connection) (scope : Scope) : String :=
  routingKeyFor ⟨scope.name, conn.identity.id scope⟩

end Connection

/-- What the callback of `bindScope` captures: the sink, the scope and the instance. -/
structure BoundScope where
  connection : Nat
  scope : Scope
  inst : Nat
deriving DecidableEq

/-- A copy of a publish. -/
structure Copy where
  publish : Nat
  envelope : SseEnvelope
deriving DecidableEq

structure TransientQueue where
  opts : SubscribeOptions
  pending : List Copy
  /-- Numbers of subscriptions. -/
  consumers : List Nat

/-- The filter of the reference bus. -/
def TransientQueue.accepts (Q : TransientQueue) (key : String) : Bool :=
  (Bus.newQueue sseChannel Q.opts).matches key

def TransientQueue.push (Q : TransientQueue) (copy : Copy) : TransientQueue :=
  { Q with pending := Q.pending ++ [copy] }

/-- The teardown of a connection unsubscribes both scopes; while `connect` is under way it does
nothing. -/
def TransientQueue.teardown (Q : TransientQueue) (conn : Connection) : TransientQueue :=
  if conn.next = none then
    { Q with consumers := Q.consumers.filter fun j => conn.userUnsub ≠ j ∧ conn.orgUnsub ≠ j }
  else Q

structure Published where
  envelope : SseEnvelope
  /-- Ghost: how many subscriptions there were. -/
  subscriptions : Nat
deriving DecidableEq

/-- A frame sent to a connection's sink, and the publish it is for. -/
structure Sent where
  connection : Nat
  publish : Nat
  frame : SseFrame
deriving DecidableEq

structure Cluster where
  /-- `BusMessagePort.seq` of each instance. -/
  seq : Nat → Nat := fun _ => 0
  connections : List Connection := []
  subscriptions : List BoundScope := []
  queues : List TransientQueue := []
  published : List Published := []
  sent : List Sent := []

inductive Act
  | events (inst : Nat) (userId orgId : Option String)
  /-- `connect` binds the next scope of a connection. -/
  | bindScope (k now : Nat)
  | publish (inst : Nat) (body : Option PublishBody) (now : String)
  /-- Queue `q` hands its `i`-th copy to the consumer `j`, which sends a frame and acks. -/
  | deliver (q i j : Nat)
  | close (k : Nat)

variable (instanceId : Nat → String)

namespace Cluster

/-- `subscribe` of the bus: join the queue of the subscriber id, or create it. -/
def attach (queues : List TransientQueue) (opts : SubscribeOptions) (j : Nat) :
    List TransientQueue :=
  match queues.findIdx? (·.opts.subscriberId = opts.subscriberId) with
  | some q => queues.modify q fun Q => { Q with consumers := Q.consumers ++ [j] }
  | none => queues ++ [⟨opts, [], [j]⟩]

/-- The options of the subscription a connection makes for a scope. -/
def options (s : Cluster) (conn : Connection) (scope : Scope) (now : Nat) : SubscribeOptions :=
  subscribeOptions (instanceId conn.inst) (conn.address scope) now (s.seq conn.inst)

def bindScope (s : Cluster) (k : Nat) (conn : Connection) (scope : Scope) (now : Nat) : Cluster :=
  { s with
    seq := Function.update s.seq conn.inst (s.seq conn.inst + 1)
    connections := s.connections.set k (conn.bind s.subscriptions.length scope)
    subscriptions := s.subscriptions ++ [⟨k, scope, conn.inst⟩]
    queues := attach s.queues (s.options instanceId conn scope now) s.subscriptions.length }

def publish (s : Cluster) (envelope : SseEnvelope) : Cluster :=
  { s with
    published := s.published ++ [⟨envelope, s.subscriptions.length⟩]
    queues := s.queues.map fun Q =>
      if Q.accepts (routingKeyFor envelope.«to») then Q.push ⟨s.published.length, envelope⟩ else Q }

def deliver (s : Cluster) (q : Nat) (Q : TransientQueue) (i : Nat) (copy : Copy)
    (sub : BoundScope) : Cluster :=
  { s with
    queues := s.queues.set q { Q with pending := Q.pending.eraseIdx i }
    sent := s.sent ++
      [⟨sub.connection, copy.publish, ⟨sub.scope, instanceId sub.inst, copy.envelope⟩⟩] }

/-- `onClose`. -/
def close (s : Cluster) (k : Nat) (conn : Connection) : Cluster :=
  { s with
    connections := s.connections.set k { conn with closed := true }
    queues := s.queues.map (·.teardown conn) }

def step (s : Cluster) : Act → Option Cluster
  | .events inst userId orgId =>
    match handleEvents userId orgId with
    | .error _ => some s
    | .ok identity =>
      some { s with connections := s.connections ++ [{ inst := inst, identity := identity }] }
  | .bindScope k now => do
    let conn ← s.connections[k]?
    let scope ← conn.next
    return s.bindScope instanceId k conn scope now
  | .publish inst body now =>
    match handlePublish body with
    | .error _ => some s
    | .ok intent => some (s.publish (intent.envelope (instanceId inst) now))
  | .deliver q i j => do
    let Q ← s.queues[q]?
    let copy ← Q.pending[i]?
    let sub ← s.subscriptions[j]?
    if j ∈ Q.consumers then return s.deliver instanceId q Q i copy sub else none
  | .close k => do
    let conn ← s.connections[k]?
    if conn.closed then none else return s.close k conn

/-- The frames a connection was sent for a publish. -/
def framesOf (s : Cluster) (k p : Nat) : List SseFrame :=
  (s.sent.filter fun x => x.connection = k ∧ x.publish = p).map (·.frame)

/-- A copy of a publish waits for a subscription of a connection. -/
def Awaits (s : Cluster) (k p : Nat) : Prop :=
  ∃ Q ∈ s.queues, (∃ c ∈ Q.pending, c.publish = p) ∧
    ∃ j ∈ Q.consumers, ∃ sub, s.subscriptions[j]? = some sub ∧ sub.connection = k

end Cluster

/-- The cluster under every interleaving. -/
def machine : System Cluster Act where
  init s := s = {}
  step s a s' := s.step instanceId a = some s'

/-! ## What is wired to what -/

namespace Connection

theorem unsub_of_next {conn : Connection} {scope : Scope} (h : conn.next = some scope) :
    conn.unsub scope = none := by
  unfold next at h
  split_ifs at h with huser horg
  · obtain rfl := Option.some.inj h
    exact huser
  · obtain rfl := Option.some.inj h
    exact horg

theorem unsub_bind (conn : Connection) (j : Nat) (scope scope' : Scope) :
    (conn.bind j scope).unsub scope' = if scope' = scope then some j else conn.unsub scope' := by
  cases scope <;> cases scope' <;> rfl

@[simp] theorem identity_bind (conn : Connection) (j : Nat) (scope : Scope) :
    (conn.bind j scope).identity = conn.identity := by cases scope <;> rfl

@[simp] theorem inst_bind (conn : Connection) (j : Nat) (scope : Scope) :
    (conn.bind j scope).inst = conn.inst := by cases scope <;> rfl

@[simp] theorem closed_bind (conn : Connection) (j : Nat) (scope : Scope) :
    (conn.bind j scope).closed = conn.closed := by cases scope <;> rfl

@[simp] theorem address_bind (conn : Connection) (j : Nat) (scope scope' : Scope) :
    (conn.bind j scope).address scope' = conn.address scope' := by simp [address]

end Connection

/-- The copies of a publish on a queue. -/
def TransientQueue.copies (Q : TransientQueue) (p : Nat) : Nat :=
  Q.pending.countP (·.publish = p)

/-- How often a subscription sent a frame for a publish. -/
def Cluster.sentBy (s : Cluster) (sub : BoundScope) (p : Nat) : Nat :=
  s.sent.countP fun x => x.connection = sub.connection ∧ x.frame.scope = sub.scope ∧ x.publish = p

/-- Subscription `j` with its connection and a queue of its own, and what became of each publish:
one copy or one frame if it was for the subscription's address and made after it. -/
structure Link (s : Cluster) (j : Nat) (sub : BoundScope) (conn : Connection)
    (Q : TransientQueue) : Prop where
  connection : s.connections[sub.connection]? = some conn
  queue : s.queues[j]? = some Q
  inst : sub.inst = conn.inst
  handle : conn.unsub sub.scope = some j
  filter : ∀ key, Q.accepts key = true ↔ key = conn.address sub.scope
  consumers : ∀ x ∈ Q.consumers, x = j
  attached : conn.closed = false → j ∈ Q.consumers
  counted : ∀ (p : Nat) (r : Published), s.published[p]? = some r → Q.copies p + s.sentBy sub p =
    if j < r.subscriptions ∧ routingKeyFor r.envelope.«to» = conn.address sub.scope then 1 else 0

/-- What holds of a cluster as long as no id holds a wildcard and every subscription has an id of
its own. -/
structure Wired (s : Cluster) : Prop where
  length : s.queues.length = s.subscriptions.length
  linked : ∀ (j : Nat) (sub : BoundScope), s.subscriptions[j]? = some sub →
    ∃ conn Q, Link s j sub conn Q
  handles : ∀ (k : Nat) (conn : Connection) (scope : Scope) (j : Nat),
      s.connections[k]? = some conn → conn.unsub scope = some j →
    s.subscriptions[j]? = some ⟨k, scope, conn.inst⟩
  plain : ∀ (k : Nat) (conn : Connection) (scope : Scope), s.connections[k]? = some conn →
      Plain (conn.identity.id scope)
  pending : ∀ Q ∈ s.queues, ∀ c ∈ Q.pending, ∃ r : Published,
    s.published[c.publish]? = some r ∧ r.envelope = c.envelope
  sent : ∀ x ∈ s.sent, ∃ (j : Nat) (sub : BoundScope) (r : Published),
    s.subscriptions[j]? = some sub ∧ sub.connection = x.connection ∧
    s.published[x.publish]? = some r ∧ x.frame = ⟨sub.scope, instanceId sub.inst, r.envelope⟩
  bounded : ∀ (p : Nat) (r : Published), s.published[p]? = some r →
      r.subscriptions ≤ s.subscriptions.length

variable {instanceId} {s : Cluster}

/-- A connection's two subscriptions are told apart by their scopes. -/
theorem Wired.same (h : Wired instanceId s) {j j' : Nat} {sub sub' : BoundScope}
    (hj : s.subscriptions[j]? = some sub) (hj' : s.subscriptions[j']? = some sub')
    (hconn : sub'.connection = sub.connection) (hscope : sub'.scope = sub.scope) : j' = j := by
  obtain ⟨conn, Q, hl⟩ := h.linked j sub hj
  obtain ⟨conn', Q', hl'⟩ := h.linked j' sub' hj'
  obtain rfl := Option.some.inj (hl.connection.symm.trans (hconn ▸ hl'.connection))
  exact Option.some.inj ((hscope ▸ hl'.handle).symm.trans hl.handle)

theorem wired_init : Wired instanceId {} := by
  constructor <;> simp

theorem Wired.events (h : Wired instanceId s) (inst : Nat) {identity : ConnectionIdentity}
    (hplain : ∀ scope, Plain (identity.id scope)) :
    Wired instanceId { s with
      connections := s.connections ++ [{ inst := inst, identity := identity }] } where
  length := h.length
  linked j sub hj := by
    obtain ⟨conn, Q, hl⟩ := h.linked j sub hj
    exact ⟨conn, Q, { hl with connection := Lookup.push_of_some hl.connection _ }⟩
  handles k conn scope j hk hunsub := by
    rw [Lookup.push] at hk
    split_ifs at hk
    · obtain rfl := Option.some.inj hk
      cases scope <;> simp [Connection.unsub] at hunsub
    · exact h.handles k conn scope j hk hunsub
  plain k conn scope hk := by
    rw [Lookup.push] at hk
    split_ifs at hk
    · obtain rfl := Option.some.inj hk
      exact hplain scope
    · exact h.plain k conn scope hk
  pending := h.pending
  sent := h.sent
  bounded := h.bounded

/-- A transient queue accepts its own address and no other. -/
theorem accepts_options (s : Cluster) {conn : Connection} {scope : Scope}
    (h : Plain (conn.identity.id scope)) (now j : Nat) (key : String) :
    TransientQueue.accepts ⟨s.options instanceId conn scope now, [], [j]⟩ key = true ↔
      key = conn.address scope := by
  have hne : conn.address scope ≠ "" := fun hnil => by
    have hwords := words_routingKeyFor scope (conn.identity.id scope)
    rw [← Connection.address, hnil] at hwords
    exact words_ne_nil _ (List.cons.inj hwords).2.symm
  have hmatches : TransientQueue.accepts ⟨s.options instanceId conn scope now, [], [j]⟩ key =
      if conn.address scope = "" then true else topicMatch (conn.address scope) key := rfl
  rw [hmatches, if_neg hne]
  exact topicMatch_plain (plain_routingKeyFor.mpr h) key

theorem Wired.sentBy_eq_zero (h : Wired instanceId s) {k : Nat} {conn : Connection}
    (hk : s.connections[k]? = some conn) {scope : Scope} (hunsub : conn.unsub scope = none)
    (inst p : Nat) : s.sentBy ⟨k, scope, inst⟩ p = 0 := by
  refine List.countP_eq_zero.mpr fun x hx => ?_
  obtain ⟨j, sub, r, hj, hconn, -, hframe⟩ := h.sent x hx
  simp only [decide_eq_true_eq, not_and]
  rintro rfl hscope -
  obtain ⟨conn', Q, hl⟩ := h.linked j sub hj
  obtain rfl := Option.some.inj (hk.symm.trans (hconn ▸ hl.connection))
  rw [hframe] at hscope
  have hhandle := hl.handle
  rw [show sub.scope = scope from hscope, hunsub] at hhandle
  simp at hhandle

theorem Wired.bindScope (h : Wired instanceId s) {k : Nat} {conn : Connection}
    (hk : s.connections[k]? = some conn) {scope : Scope} (hnext : conn.next = some scope)
    (now : Nat)
    (hfresh : ∀ Q ∈ s.queues,
      Q.opts.subscriberId ≠ (s.options instanceId conn scope now).subscriberId) :
    Wired instanceId (s.bindScope instanceId k conn scope now) := by
  have hqueues : Cluster.attach s.queues (s.options instanceId conn scope now)
      s.subscriptions.length =
        s.queues ++ [⟨s.options instanceId conn scope now, [], [s.subscriptions.length]⟩] := by
    have hnone : s.queues.findIdx? (fun Q =>
        Q.opts.subscriberId = (s.options instanceId conn scope now).subscriberId) = none :=
      List.findIdx?_eq_none_iff.mpr fun Q hQ => by simpa using hfresh Q hQ
    rw [Cluster.attach, hnone]
  have hlookup := Lookup.set_of_some hk (conn.bind s.subscriptions.length scope)
  have hunsub := Connection.unsub_of_next hnext
  unfold Cluster.bindScope
  rw [hqueues]
  exact
  { length := by simp [h.length]
    linked := fun j sub hj => by
      rw [Lookup.push] at hj
      split_ifs at hj with hnew
      · obtain rfl := Option.some.inj hj
        refine ⟨_, ⟨s.options instanceId conn scope now, [], [s.subscriptions.length]⟩,
          (hlookup k).trans (if_pos rfl), ?_, by simp, ?_, ?_, by simp [hnew], by simp [hnew], ?_⟩
        · rw [Lookup.push, if_pos (hnew.trans h.length.symm)]
        · rw [Connection.unsub_bind, if_pos rfl, hnew]
        · simpa using accepts_options s (h.plain k conn scope hk) now _
        · intro p r hp
          have hbound := h.bounded p r hp
          rw [if_neg fun hlt => by omega]
          exact Nat.add_eq_zero_iff.mpr ⟨rfl, h.sentBy_eq_zero hk hunsub conn.inst p⟩
      · obtain ⟨conn', Q, hl⟩ := h.linked j sub hj
        by_cases hsub : sub.connection = k
        · obtain rfl := Option.some.inj (hk.symm.trans (hsub ▸ hl.connection))
          have hscope : sub.scope ≠ scope := fun heq => by
            have := hl.handle
            rw [heq, hunsub] at this
            simp at this
          refine ⟨_, Q, (hlookup _).trans (if_pos hsub), Lookup.push_of_some hl.queue _, ?_, ?_, ?_,
            hl.consumers, ?_, ?_⟩
          · simpa using hl.inst
          · rw [Connection.unsub_bind, if_neg hscope]
            exact hl.handle
          · simpa using hl.filter
          · simpa using hl.attached
          · intro p r hp
            rw [Connection.address_bind]
            exact hl.counted p r hp
        · exact ⟨conn', Q, { hl with
            connection := (hlookup _).trans ((if_neg hsub).trans hl.connection)
            queue := Lookup.push_of_some hl.queue _ }⟩
    handles := fun k' conn' scope' j hk' hunsub' => by
      rw [hlookup] at hk'
      split_ifs at hk' with hsame
      · obtain rfl := Option.some.inj hk'
        rw [Connection.unsub_bind] at hunsub'
        split_ifs at hunsub' with hscope
        · obtain rfl := Option.some.inj hunsub'
          rw [Lookup.push, if_pos rfl, hsame, hscope]
          simp
        · have := h.handles k conn scope' j hk hunsub'
          exact Lookup.push_of_some (hsame ▸ by simpa using this) _
      · exact Lookup.push_of_some (h.handles k' conn' scope' j hk' hunsub') _
    plain := fun k' conn' scope' hk' => by
      rw [hlookup] at hk'
      split_ifs at hk'
      · obtain rfl := Option.some.inj hk'
        simpa using h.plain k conn scope' hk
      · exact h.plain k' conn' scope' hk'
    pending := fun Q hQ c hc => by
      rcases List.mem_append.mp hQ with hQ | hQ
      · exact h.pending Q hQ c hc
      · obtain rfl := List.mem_singleton.mp hQ
        simp at hc
    sent := fun x hx => by
      obtain ⟨j, sub, r, hj, hrest⟩ := h.sent x hx
      exact ⟨j, sub, r, Lookup.push_of_some hj _, hrest⟩
    bounded := fun p r hp => by
      have := h.bounded p r hp
      simp only [List.length_append, List.length_singleton]
      omega }

theorem copies_push (Q : TransientQueue) (copy : Copy) (p : Nat) :
    (Q.push copy).copies p = Q.copies p + if copy.publish = p then 1 else 0 := by
  simp [TransientQueue.copies, TransientQueue.push, List.countP_append, List.countP_singleton]

theorem Wired.lt_of_pending (h : Wired instanceId s) {Q : TransientQueue} (hQ : Q ∈ s.queues)
    {c : Copy} (hc : c ∈ Q.pending) : c.publish < s.published.length := by
  obtain ⟨r, hr, -⟩ := h.pending Q hQ c hc
  exact (List.getElem?_eq_some_iff.mp hr).1

theorem Wired.publish (h : Wired instanceId s) (envelope : SseEnvelope) :
    Wired instanceId (s.publish envelope) where
  length := by simp [Cluster.publish, h.length]
  linked j sub hj := by
    obtain ⟨conn, Q, hl⟩ := h.linked j sub hj
    have hQ : Q ∈ s.queues := List.mem_of_getElem? hl.queue
    refine ⟨conn, if Q.accepts (routingKeyFor envelope.«to») then
      Q.push ⟨s.published.length, envelope⟩ else Q, hl.connection, ?_, hl.inst, hl.handle, ?_, ?_,
      ?_, fun p r hp => ?_⟩
    · simp [Cluster.publish, hl.queue]
    · split_ifs <;> exact hl.filter
    · split_ifs <;> exact hl.consumers
    · split_ifs <;> exact hl.attached
    · replace hp : (s.published ++ [⟨envelope, s.subscriptions.length⟩])[p]? = some r := hp
      rw [Lookup.push] at hp
      have hold : ∀ x : Bool, (if x then Q.push ⟨s.published.length, envelope⟩ else Q).copies p =
          Q.copies p + if x = true ∧ p = s.published.length then 1 else 0 := by
        intro x
        cases x with
        | false => simp
        | true => simp [copies_push, eq_comm]
      rw [hold]
      split_ifs at hp with hnew
      · obtain rfl := Option.some.inj hp
        obtain ⟨hlt, -⟩ := List.getElem?_eq_some_iff.mp hj
        have hcopies : Q.copies p = 0 := List.countP_eq_zero.mpr fun c hc => by
          have := h.lt_of_pending hQ hc
          simp only [decide_eq_true_eq]
          omega
        have hsent : s.sentBy sub p = 0 := List.countP_eq_zero.mpr fun x hx => by
          obtain ⟨-, -, r, -, -, hr, -⟩ := h.sent x hx
          have := (List.getElem?_eq_some_iff.mp hr).1
          simp only [decide_eq_true_eq]
          omega
        have hsent' : (s.publish envelope).sentBy sub p = 0 := hsent
        have hlt' : j < s.subscriptions.length := hlt
        rw [hcopies, hsent']
        simp only [hl.filter, hnew, hlt', and_true, true_and, zero_add, add_zero]
      · rw [if_neg fun hp' => hnew hp'.2]
        exact hl.counted p r hp
  handles := h.handles
  plain := h.plain
  pending Q hQ c hc := by
    obtain ⟨Q, hQ', rfl⟩ := List.mem_map.mp hQ
    have hold (hc : c ∈ Q.pending) : ∃ r : Published,
        (s.publish envelope).published[c.publish]? = some r ∧ r.envelope = c.envelope := by
      obtain ⟨r, hr, henvelope⟩ := h.pending Q hQ' c hc
      exact ⟨r, Lookup.push_of_some hr _, henvelope⟩
    split_ifs at hc
    · rcases List.mem_append.mp hc with hc | hc
      · exact hold hc
      · obtain rfl := List.mem_singleton.mp hc
        exact ⟨_, (Lookup.push _ _ _).trans (if_pos rfl), rfl⟩
    · exact hold hc
  sent x hx := by
    obtain ⟨j, sub, r, hj, hconn, hr, hframe⟩ := h.sent x hx
    exact ⟨j, sub, r, hj, hconn, Lookup.push_of_some hr _, hframe⟩
  bounded p r hp := by
    replace hp : (s.published ++ [⟨envelope, s.subscriptions.length⟩])[p]? = some r := hp
    rw [Lookup.push] at hp
    split_ifs at hp
    · obtain rfl := Option.some.inj hp
      exact le_rfl
    · exact h.bounded p r hp

theorem Wired.deliver (h : Wired instanceId s) {q i j : Nat} {Q : TransientQueue} {copy : Copy}
    {sub : BoundScope} (hq : s.queues[q]? = some Q) (hi : Q.pending[i]? = some copy)
    (hj : s.subscriptions[j]? = some sub) (hmem : j ∈ Q.consumers) :
    Wired instanceId (s.deliver instanceId q Q i copy sub) := by
  -- The queue is the consumer's own.
  obtain rfl : j = q := by
    have hlt := (List.getElem?_eq_some_iff.mp hq).1
    rw [h.length] at hlt
    obtain ⟨conn', Q', hl'⟩ := h.linked q _ (List.getElem?_eq_getElem hlt)
    obtain rfl := Option.some.inj (hq.symm.trans hl'.queue)
    exact hl'.consumers j hmem
  have hlookup := Lookup.set_of_some hq { Q with pending := Q.pending.eraseIdx i }
  have hcopy := h.pending Q (List.mem_of_getElem? hq) copy (List.mem_of_getElem? hi)
  have hsentBy (sub' : BoundScope) (p : Nat) :
      (s.deliver instanceId j Q i copy sub).sentBy sub' p = s.sentBy sub' p +
        if sub.connection = sub'.connection ∧ sub.scope = sub'.scope ∧ copy.publish = p then 1
        else 0 := by
    simp [Cluster.sentBy, Cluster.deliver, List.countP_append, List.countP_singleton]
  refine ⟨by simp [Cluster.deliver, h.length], fun j' sub' hj' => ?_, h.handles, h.plain,
    fun Q' hQ' c hc => ?_, fun x hx => ?_, h.bounded⟩
  · obtain ⟨conn', Q', hl'⟩ := h.linked j' sub' hj'
    by_cases hsame : j' = j
    · subst hsame
      obtain rfl := Option.some.inj (hj.symm.trans hj')
      obtain rfl := Option.some.inj (hq.symm.trans hl'.queue)
      refine ⟨conn', _, { hl' with
        queue := (hlookup j').trans (if_pos rfl), counted := fun p r hp => ?_ }⟩
      have hcount := Lookup.countP_eraseIdx hi (·.publish = p)
      rw [hsentBy, ← hl'.counted p r hp]
      simp only [decide_eq_true_eq] at hcount
      simp only [TransientQueue.copies, true_and]
      omega
    · refine ⟨conn', Q', { hl' with
        queue := (hlookup j').trans ((if_neg hsame).trans hl'.queue), counted := fun p r hp => ?_ }⟩
      rw [hsentBy, if_neg fun heq => hsame (h.same hj hj' heq.1.symm heq.2.1.symm)]
      exact hl'.counted p r hp
  · rcases List.mem_or_eq_of_mem_set hQ' with hQ' | rfl
    · exact h.pending Q' hQ' c hc
    · exact h.pending Q (List.mem_of_getElem? hq) c (List.mem_of_mem_eraseIdx hc)
  · rcases List.mem_append.mp hx with hx | hx
    · exact h.sent x hx
    · obtain rfl := List.mem_singleton.mp hx
      obtain ⟨r, hr, henvelope⟩ := hcopy
      exact ⟨j, sub, r, hj, rfl, hr, by rw [henvelope]⟩

namespace TransientQueue

@[simp] theorem pending_teardown (Q : TransientQueue) (conn : Connection) :
    (Q.teardown conn).pending = Q.pending := by unfold teardown; split_ifs <;> rfl

@[simp] theorem accepts_teardown (Q : TransientQueue) (conn : Connection) (key : String) :
    (Q.teardown conn).accepts key = Q.accepts key := by unfold teardown; split_ifs <;> rfl

theorem mem_of_mem_teardown {Q : TransientQueue} {conn : Connection} {j : Nat}
    (h : j ∈ (Q.teardown conn).consumers) : j ∈ Q.consumers := by
  unfold teardown at h
  split_ifs at h
  · exact (List.mem_filter.mp h).1
  · exact h

theorem mem_teardown {Q : TransientQueue} {conn : Connection} {j : Nat} (h : j ∈ Q.consumers)
    (hother : ∀ scope, conn.unsub scope ≠ some j) : j ∈ (Q.teardown conn).consumers := by
  unfold teardown
  split_ifs
  · exact List.mem_filter.mpr ⟨h, by simpa using ⟨hother .user, hother .org⟩⟩
  · exact h

end TransientQueue

theorem Wired.close (h : Wired instanceId s) {k : Nat} {conn : Connection}
    (hk : s.connections[k]? = some conn) : Wired instanceId (s.close k conn) := by
  have hlookup := Lookup.set_of_some hk { conn with closed := true }
  refine ⟨by simp [Cluster.close, h.length], fun j sub hj => ?_,
    fun k' conn' scope j hk' hunsub => ?_,
    fun k' conn' scope hk' => ?_, fun Q' hQ' c hc => ?_, h.sent, h.bounded⟩
  · obtain ⟨conn', Q, hl⟩ := h.linked j sub hj
    have hqueue : (s.queues.map (·.teardown conn))[j]? = some (Q.teardown conn) := by
      rw [List.getElem?_map, hl.queue]
      rfl
    have hconsumers : ∀ x ∈ (Q.teardown conn).consumers, x = j := fun x hx =>
      hl.consumers x (TransientQueue.mem_of_mem_teardown hx)
    have hcounted (p : Nat) : (Q.teardown conn).copies p = Q.copies p := by
      rw [TransientQueue.copies, TransientQueue.pending_teardown]
      rfl
    by_cases hsub : sub.connection = k
    · obtain rfl := Option.some.inj (hk.symm.trans (hsub ▸ hl.connection))
      refine ⟨{ conn with closed := true }, Q.teardown conn, (hlookup _).trans (if_pos hsub),
        hqueue,
        hl.inst, ?_, fun key => ?_, hconsumers, by simp, fun p r hp => ?_⟩
      · rw [← hl.handle]
        cases sub.scope <;> rfl
      · rw [TransientQueue.accepts_teardown]
        exact hl.filter key
      · rw [hcounted]
        exact hl.counted p r hp
    · refine ⟨conn', Q.teardown conn, (hlookup _).trans ((if_neg hsub).trans hl.connection), hqueue,
        hl.inst, hl.handle, fun key => ?_, hconsumers, fun hopen => ?_, fun p r hp => ?_⟩
      · rw [TransientQueue.accepts_teardown]
        exact hl.filter key
      · refine TransientQueue.mem_teardown (hl.attached hopen) fun scope hunsub => hsub ?_
        have hsame := Option.some.inj (hj.symm.trans (h.handles k conn scope j hk hunsub))
        rw [hsame]
      · rw [hcounted]
        exact hl.counted p r hp
  · rw [show (s.close k conn).connections[k']? = _ from hlookup k'] at hk'
    split_ifs at hk' with hsame
    · obtain rfl := Option.some.inj hk'
      rw [hsame]
      exact h.handles k conn scope j hk (by cases scope <;> exact hunsub)
    · exact h.handles k' conn' scope j hk' hunsub
  · rw [show (s.close k conn).connections[k']? = _ from hlookup k'] at hk'
    split_ifs at hk'
    · obtain rfl := Option.some.inj hk'
      exact h.plain k conn scope hk
    · exact h.plain k' conn' scope hk'
  · obtain ⟨Q, hQ, rfl⟩ := List.mem_map.mp hQ'
    exact h.pending Q hQ c (TransientQueue.pending_teardown Q conn ▸ hc)

/-! ## Isolation -/

/-- No id holds a wildcard word, and no subscription gets the id of another. -/
def keepsApart (instanceId : Nat → String) (s : Cluster) : Act → Prop
  | .events _ userId orgId => (∀ id ∈ userId, Plain id) ∧ ∀ id ∈ orgId, Plain id
  | .bindScope k now => ∀ conn ∈ s.connections[k]?, ∀ scope ∈ conn.next, ∀ Q ∈ s.queues,
      Q.opts.subscriberId ≠ (s.options instanceId conn scope now).subscriberId
  | _ => True

theorem wired (h : ReachIf (machine instanceId) (keepsApart instanceId) s) :
    Wired instanceId s := by
  refine h.invariant (fun s hs => (show s = {} from hs) ▸ wired_init)
    fun s a s' _ ih hok hstep => ?_
  replace hstep : s.step instanceId a = some s' := hstep
  cases a with
  | events inst userId orgId =>
    rw [Cluster.step] at hstep
    split at hstep
    · exact Option.some.inj hstep ▸ ih
    · rename_i identity hidentity
      obtain ⟨huser, horg⟩ := handleEvents_ok hidentity
      refine Option.some.inj hstep ▸ ih.events inst fun scope => ?_
      cases scope with
      | user => exact hok.1 _ huser
      | org => exact hok.2 _ horg
  | bindScope k now =>
    simp only [Cluster.step, Option.bind_eq_bind, Option.bind_eq_some_iff] at hstep
    obtain ⟨conn, hk, scope, hnext, hs⟩ := hstep
    exact Option.some.inj hs ▸ ih.bindScope hk hnext now (hok conn hk scope hnext)
  | publish inst body now =>
    rw [Cluster.step] at hstep
    split at hstep
    · exact Option.some.inj hstep ▸ ih
    · exact Option.some.inj hstep ▸ ih.publish _
  | deliver q i j =>
    simp only [Cluster.step, Option.bind_eq_bind, Option.bind_eq_some_iff] at hstep
    obtain ⟨Q, hq, copy, hi, sub, hj, hs⟩ := hstep
    split_ifs at hs with hmem
    exact Option.some.inj hs ▸ ih.deliver hq hi hj hmem
  | close k =>
    simp only [Cluster.step, Option.bind_eq_bind, Option.bind_eq_some_iff] at hstep
    obtain ⟨conn, hk, hs⟩ := hstep
    split_ifs at hs
    exact Option.some.inj hs ▸ ih.close hk

/-- What awaits a connection can be sent to it at any time. -/
theorem Wired.awaits_sent (h : Wired instanceId s) {k p : Nat} (hawaits : s.Awaits k p) :
    ∃ a s', s.step instanceId a = some s' ∧ Wired instanceId s' ∧
      s'.connections = s.connections ∧ s'.published = s.published ∧ s'.framesOf k p ≠ [] := by
  obtain ⟨Q, hQ, ⟨c, hc, hp⟩, j, hj, sub, hsub, hk⟩ := hawaits
  obtain ⟨q, hq⟩ := List.mem_iff_getElem?.mp hQ
  obtain ⟨i, hi⟩ := List.mem_iff_getElem?.mp hc
  refine ⟨.deliver q i j, s.deliver instanceId q Q i c sub, ?_, h.deliver hq hi hsub hj, rfl, rfl,
    ?_⟩
  · simp [Cluster.step, hq, hi, hsub, hj]
  · simp [Cluster.framesOf, Cluster.deliver, hk, hp]

theorem Wired.copies_of_awaits (h : Wired instanceId s) {k p : Nat} (hawaits : s.Awaits k p) :
    ∃ j sub conn Q, Link s j sub conn Q ∧ sub.connection = k ∧ 0 < Q.copies p := by
  obtain ⟨Q, hQ, ⟨c, hc, hp⟩, j, hj, sub, hsub, hk⟩ := hawaits
  obtain ⟨q, hq⟩ := List.mem_iff_getElem?.mp hQ
  have hlt := (List.getElem?_eq_some_iff.mp hq).1
  rw [h.length] at hlt
  obtain ⟨conn', Q', hl'⟩ := h.linked q _ (List.getElem?_eq_getElem hlt)
  obtain rfl := Option.some.inj (hq.symm.trans hl'.queue)
  obtain rfl := hl'.consumers j hj
  obtain rfl := Option.some.inj (hsub.symm.trans (List.getElem?_eq_getElem hlt))
  exact ⟨j, _, conn', Q, hl', hk, List.countP_pos_iff.mpr ⟨c, hc, by simpa using hp⟩⟩

/-- The fate of a publish at the subscription of one scope. -/
theorem Wired.fate (h : Wired instanceId s) {k p : Nat} {conn : Connection} {r : Published}
    (hk : s.connections[k]? = some conn) (hp : s.published[p]? = some r)
    (hbound : ∀ scope, ∃ j, conn.unsub scope = some j ∧ j < r.subscriptions) {scope : Scope}
    (htype : r.envelope.«to».type = scope.name) (scope' : Scope) :
    ∃ j Q, Link s j ⟨k, scope', conn.inst⟩ conn Q ∧
      Q.copies p + s.sentBy ⟨k, scope', conn.inst⟩ p =
        if scope = scope' ∧ conn.identity.id scope = r.envelope.«to».id then 1 else 0 := by
  obtain ⟨j, hunsub, hlt⟩ := hbound scope'
  have hj := h.handles k conn scope' j hk hunsub
  obtain ⟨conn', Q, hl⟩ := h.linked j _ hj
  obtain rfl := Option.some.inj (hk.symm.trans hl.connection)
  refine ⟨j, Q, hl, ?_⟩
  have haddress : routingKeyFor r.envelope.«to» = conn.address scope' ↔
      scope = scope' ∧ conn.identity.id scope = r.envelope.«to».id := by
    rw [show r.envelope.«to» = ⟨scope.name, r.envelope.«to».id⟩ by rw [← htype], Connection.address,
      routingKeyFor_inj]
    refine and_congr_right fun hs => ?_
    rw [hs, eq_comm]
  rw [hl.counted p r hp]
  simp only [haddress, hlt, true_and]

theorem Wired.frame_eq (h : Wired instanceId s) {k p : Nat} {conn : Connection} {r : Published}
    (hk : s.connections[k]? = some conn) (hp : s.published[p]? = some r) {x : Sent}
    (hx : x ∈ s.sent) (hconn : x.connection = k) (hpublish : x.publish = p) :
    x.frame = ⟨x.frame.scope, instanceId conn.inst, r.envelope⟩ := by
  obtain ⟨j, sub, r', hj, hsub, hr', hframe⟩ := h.sent x hx
  obtain ⟨conn', Q, hl⟩ := h.linked j sub hj
  obtain rfl := Option.some.inj (hp.symm.trans (hpublish ▸ hr'))
  obtain rfl := Option.some.inj (hk.symm.trans ((hsub.trans hconn) ▸ hl.connection))
  rw [hframe, hl.inst]

/-- What a connection is sent for a publish, and what awaits it, in a wired cluster. -/
theorem Wired.isolated (h : Wired instanceId s) {k p : Nat} {conn : Connection} {r : Published}
    (hk : s.connections[k]? = some conn) (hp : s.published[p]? = some r)
    (hbound : ∀ scope, ∃ j, conn.unsub scope = some j ∧ j < r.subscriptions) {scope : Scope}
    (htype : r.envelope.«to».type = scope.name) :
    (conn.identity.id scope ≠ r.envelope.«to».id → s.framesOf k p = [] ∧ ¬ s.Awaits k p) ∧
    (conn.identity.id scope = r.envelope.«to».id →
      (s.framesOf k p = [] ∨ s.framesOf k p = [⟨scope, instanceId conn.inst, r.envelope⟩]) ∧
      (conn.closed = false → (s.framesOf k p = [] ↔ s.Awaits k p))) := by
  have hfate := h.fate hk hp hbound htype
  -- Only the scope's own subscription can have been sent anything, or be awaited.
  have hsent : ∀ x ∈ s.sent, x.connection = k → x.publish = p →
      scope = x.frame.scope ∧ conn.identity.id scope = r.envelope.«to».id := by
    intro x hx hconn hpublish
    obtain ⟨j, Q, -, hcount⟩ := hfate x.frame.scope
    by_contra hnot
    have hpos : 0 < s.sentBy ⟨k, x.frame.scope, conn.inst⟩ p :=
      List.countP_pos_iff.mpr ⟨x, hx, by simpa using ⟨hconn, hpublish⟩⟩
    rw [if_neg hnot] at hcount
    omega
  have hawaits : s.Awaits k p → ∃ j Q, Link s j ⟨k, scope, conn.inst⟩ conn Q ∧ 0 < Q.copies p ∧
      conn.identity.id scope = r.envelope.«to».id := by
    intro hawaits
    obtain ⟨j, sub, conn', Q, hl, hsub, hpos⟩ := h.copies_of_awaits hawaits
    obtain rfl := Option.some.inj (hk.symm.trans (hsub ▸ hl.connection))
    obtain ⟨j', Q', hl', hcount⟩ := hfate sub.scope
    obtain rfl := Option.some.inj (hl.handle.symm.trans hl'.handle)
    obtain rfl := Option.some.inj (hl.queue.symm.trans hl'.queue)
    by_cases hown : scope = sub.scope ∧ conn.identity.id scope = r.envelope.«to».id
    · exact ⟨j, Q, hown.1 ▸ hl', hpos, hown.2⟩
    · rw [if_neg hown] at hcount
      omega
  refine ⟨fun hother => ⟨?_, fun ha => ?_⟩, fun hown => ?_⟩
  · rw [Cluster.framesOf, List.map_eq_nil_iff, List.filter_eq_nil_iff]
    intro x hx hmine
    simp only [decide_eq_true_eq] at hmine
    exact hother (hsent x hx hmine.1 hmine.2).2
  · obtain ⟨-, -, -, -, hown⟩ := hawaits ha
    exact hother hown
  · obtain ⟨j, Q, hl, hcount⟩ := hfate scope
    rw [if_pos ⟨rfl, hown⟩] at hcount
    have hlength : (s.framesOf k p).length = s.sentBy ⟨k, scope, conn.inst⟩ p := by
      rw [Cluster.framesOf, List.length_map, ← List.countP_eq_length_filter]
      refine List.countP_congr fun x hx => ?_
      simp only [decide_eq_true_eq]
      exact ⟨fun hx' => ⟨hx'.1, (hsent x hx hx'.1 hx'.2).1.symm, hx'.2⟩, fun hx' => ⟨hx'.1,
        hx'.2.2⟩⟩
    have hall : ∀ f ∈ s.framesOf k p, f = ⟨scope, instanceId conn.inst, r.envelope⟩ := by
      intro f hf
      obtain ⟨x, hx, rfl⟩ := List.mem_map.mp hf
      obtain ⟨hx, hmine⟩ := List.mem_filter.mp hx
      simp only [decide_eq_true_eq] at hmine
      rw [h.frame_eq hk hp hx hmine.1 hmine.2, (hsent x hx hmine.1 hmine.2).1]
    refine ⟨?_, fun hopen => ⟨fun hnil => ?_, fun ha => ?_⟩⟩
    · cases hframes : s.framesOf k p with
      | nil => exact .inl rfl
      | cons f fs =>
        rw [hframes] at hlength hall
        have hfs : fs = [] := List.length_eq_zero_iff.mp (by simp at hlength; omega)
        exact .inr (by rw [hfs, hall f List.mem_cons_self])
    · rw [hnil] at hlength
      obtain ⟨c, hc, hpublish⟩ := List.countP_pos_iff.mp
        (show 0 < Q.copies p by simp at hlength; omega)
      exact ⟨Q, List.mem_of_getElem? hl.queue, ⟨c, hc, by simpa using hpublish⟩, j,
        hl.attached hopen, _, h.handles k conn scope j hk hl.handle, rfl⟩
    · obtain ⟨j', Q', hl', hpos, -⟩ := hawaits ha
      obtain rfl := Option.some.inj (hl.handle.symm.trans hl'.handle)
      obtain rfl := Option.some.inj (hl.queue.symm.trans hl'.queue)
      exact List.length_eq_zero_iff.mp (by omega)

/-- **Isolation.** While no id holds a wildcard word and no two subscriptions get the same id, a
connection that was bound before a publish to a scope is sent at most one frame for it, of that
scope and with the published envelope, and none unless its own id is the one published to. As long
as it is open it lacks its frame exactly while a copy awaits it, and what awaits it can be sent. -/
theorem sse_isolation (h : ReachIf (machine instanceId) (keepsApart instanceId) s) {k p : Nat}
    {conn : Connection} {r : Published} (hk : s.connections[k]? = some conn)
    (hp : s.published[p]? = some r)
    (hbound : ∀ scope, ∃ j, conn.unsub scope = some j ∧ j < r.subscriptions) {scope : Scope}
    (htype : r.envelope.«to».type = scope.name) :
    (conn.identity.id scope ≠ r.envelope.«to».id → s.framesOf k p = [] ∧ ¬ s.Awaits k p) ∧
    (conn.identity.id scope = r.envelope.«to».id →
      (s.framesOf k p = [] ∨ s.framesOf k p = [⟨scope, instanceId conn.inst, r.envelope⟩]) ∧
      (conn.closed = false → (s.framesOf k p = [] ↔ s.Awaits k p)) ∧
      (s.Awaits k p → ∃ a s', s.step instanceId a = some s' ∧
        s'.framesOf k p = [⟨scope, instanceId conn.inst, r.envelope⟩])) := by
  have hw := wired h
  obtain ⟨hother, hown⟩ := hw.isolated hk hp hbound htype
  refine ⟨hother, fun hid => ⟨(hown hid).1, (hown hid).2, fun ha => ?_⟩⟩
  obtain ⟨a, s', hstep, hw', hconnections, hpublished, hsent⟩ := hw.awaits_sent ha
  have hframes := ((hw'.isolated (hconnections ▸ hk) (hpublished ▸ hp) hbound htype).2 hid).1
  exact ⟨a, s', hstep, hframes.resolve_left hsent⟩

/-! ## A leak -/

/-- Acts played from the start, skipping those that are not enabled. -/
def play (instanceId : Nat → String) (acts : List Act) : Cluster :=
  Machine.play (Cluster.step instanceId) {} acts

instance (s : Cluster) (a : Act) : Decidable (keepsApart instanceId s a) := by
  cases a <;> unfold keepsApart <;> infer_instance

def twoInstances (inst : Nat) : String := if inst = 0 then "inst-7001" else "inst-7002"

/-- Two users of one organisation, on two instances, and a message to the second of them. -/
def messageToBob (id : String) : List Act :=
  [.events 0 (some id) (some "acme"), .bindScope 0 1, .bindScope 0 1,
    .events 1 (some "bob") (some "acme"), .bindScope 1 1, .bindScope 1 1,
    .publish 1 (some ⟨some ⟨some "user", some "bob"⟩, none, some "hi"⟩) "09:00"]

theorem sse_isolation_alice :
    (play twoInstances (messageToBob "alice")).framesOf 0 0 = [] ∧
      ¬ (play twoInstances (messageToBob "alice")).Awaits 0 0 := by
  have h : ReachIf (machine twoInstances) (keepsApart twoInstances)
      (play twoInstances (messageToBob "alice")) :=
    Machine.reachIf_play (fun _ _ _ => id) rfl (messageToBob "alice") (by decide)
  have hk : (play twoInstances (messageToBob "alice")).connections[0]? =
      some ⟨0, ⟨"alice", "acme"⟩, some 0, some 1, false⟩ := by decide
  have hp : (play twoInstances (messageToBob "alice")).published[0]? =
      some ⟨⟨"anon", "hi", ⟨"user", "bob"⟩, "inst-7002", "09:00"⟩, 4⟩ := by decide
  have htype : "user" = Scope.user.name := rfl
  refine (sse_isolation h hk hp (fun scope => ?_) htype).1 (by decide)
  cases scope with
  | user => exact ⟨0, by decide⟩
  | org => exact ⟨1, by decide⟩

/-- **A wildcard id leaks.** The user `*` is sent what is published to `bob`. -/
theorem wildcard_id_leaks : ¬ ∀ s, Reach (machine twoInstances) s → ∀ k p conn r scope,
    s.connections[k]? = some conn → s.published[p]? = some r →
    (∀ scope, ∃ j, conn.unsub scope = some j ∧ j < r.subscriptions) →
    r.envelope.«to».type = scope.name → conn.identity.id scope ≠ r.envelope.«to».id →
    s.framesOf k p = [] := by
  intro hclaim
  have hframes := hclaim (play twoInstances (messageToBob "*" ++ [.deliver 0 0 0]))
    (Machine.reach_play (fun _ _ _ => id) rfl _) 0 0 ⟨0, ⟨"*", "acme"⟩, some 0, some 1, false⟩
    ⟨⟨"anon", "hi", ⟨"user", "bob"⟩, "inst-7002", "09:00"⟩, 4⟩ .user (by decide) (by decide)
    (fun scope => match scope with
      | .user => ⟨0, by decide⟩
      | .org => ⟨1, by decide⟩) rfl (by decide)
  exact absurd hframes (by decide)

end Sse

end MessagingPoc
