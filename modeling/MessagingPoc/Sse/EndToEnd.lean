import MessagingPoc.Sse.Cluster
import MessagingPoc.Sse.Wire

/-!
# From a publish to a client

The cluster decides which frames a connection is sent, the wire brings them to its client. Put
together, `end_to_end` says what the client of a connection has: what was published to its ids, and
nothing else.
-/

namespace MessagingPoc

namespace Sse

open Machine

/-- The frames a connection was sent, in order. -/
def Cluster.sentTo (s : Cluster) (k : Nat) : List SseFrame :=
  (s.sent.filter (·.connection = k)).map (·.frame)

variable {instanceId : Nat → String} {s : Cluster}

/-- A frame is for a publish to an address of its connection. -/
theorem Wired.addressed (h : Wired instanceId s) {k : Nat} {conn : Connection}
    (hk : s.connections[k]? = some conn) {f : SseFrame} (hf : f ∈ s.sentTo k) :
    ∃ scope, ∃ r ∈ s.published, f = ⟨scope, instanceId conn.inst, r.envelope⟩ ∧
      routingKeyFor r.envelope.«to» = conn.address scope := by
  obtain ⟨x, hx, rfl⟩ := List.mem_map.mp hf
  obtain ⟨hx, hconn⟩ := List.mem_filter.mp hx
  replace hconn : x.connection = k := by simpa using hconn
  obtain ⟨j, sub, r, hj, hsub, hr, hframe⟩ := h.sent x hx
  obtain ⟨conn', Q, hl⟩ := h.linked j sub hj
  obtain rfl := Option.some.inj (hk.symm.trans (hsub.trans hconn ▸ hl.connection))
  refine ⟨sub.scope, r, List.mem_of_getElem? hr, hl.inst ▸ hframe, ?_⟩
  have hsent : 0 < s.sentBy sub x.publish :=
    List.countP_pos_iff.mpr ⟨x, hx, by simp [hsub, hframe]⟩
  have hcount := hl.counted x.publish r hr
  by_contra hother
  rw [if_neg fun hmine => hother hmine.2] at hcount
  omega

/-- **From a publish to a client.** A client that has its connection's whole stream has frames for
publishes to the connection's own addresses only, each with the envelope as it was published; and it
has the frame for every publish to one of its ids that was made after both scopes were bound, once
no copy of it awaits the connection and unless its text reads like a greeting. -/
theorem end_to_end (h : ReachIf (machine instanceId) (keepsApart instanceId) s) {k : Nat}
    {conn : Connection} (hk : s.connections[k]? = some conn) {writes : List Write}
    (hwrites : writes.filterMap (Write.frame (instanceId conn.inst)) =
      (s.sentTo k).map SseFrame.toJson)
    {chunks : List (List Char)}
    (hchunks : chunks.flatten = stream (instanceId conn.inst) conn.identity writes) :
    (∀ v ∈ client chunks, ∃ scope, ∃ r ∈ s.published,
      v = SseFrame.toJson ⟨scope, instanceId conn.inst, r.envelope⟩ ∧
      routingKeyFor r.envelope.«to» = conn.address scope) ∧
    ∀ (p : Nat) (r : Published) (scope : Scope), s.published[p]? = some r →
      (∀ scope, ∃ j, conn.unsub scope = some j ∧ j < r.subscriptions) →
      r.envelope.«to» = ⟨scope.name, conn.identity.id scope⟩ →
      conn.closed = false → ¬ s.Awaits k p →
      ¬ IsHello (SseFrame.event ⟨scope, instanceId conn.inst, r.envelope⟩) →
      SseFrame.toJson ⟨scope, instanceId conn.inst, r.envelope⟩ ∈ client chunks := by
  have hw := wired h
  have hclient : client chunks =
      ((s.sentTo k).map SseFrame.toJson).filter fun v => ¬ IsHello (event v) := by
    have hframes := received_stream (instanceId conn.inst) conn.identity writes
    rw [hwrites, ← hchunks] at hframes
    rw [client, Framing.feed_eq [] rfl, List.nil_append, hframes]
  rw [hclient]
  refine ⟨fun v hv => ?_, fun p r scope hp hbound hto hopen hawaits hhello => ?_⟩
  · obtain ⟨f, hf, rfl⟩ := List.mem_map.mp (List.mem_filter.mp hv).1
    obtain ⟨scope, r, hr, rfl, haddress⟩ := hw.addressed hk hf
    exact ⟨scope, r, hr, rfl, haddress⟩
  · have htype : r.envelope.«to».type = scope.name := by rw [hto]
    have hid : conn.identity.id scope = r.envelope.«to».id := by rw [hto]
    obtain ⟨hfate, hlacks⟩ := (hw.isolated hk hp hbound htype).2 hid
    have hframes : s.framesOf k p = [⟨scope, instanceId conn.inst, r.envelope⟩] :=
      hfate.resolve_left fun hnone => hawaits ((hlacks hopen).mp hnone)
    have hsent : ⟨scope, instanceId conn.inst, r.envelope⟩ ∈ s.sentTo k := by
      have hmem : ⟨scope, instanceId conn.inst, r.envelope⟩ ∈ s.framesOf k p := by
        rw [hframes]
        exact List.mem_singleton_self _
      obtain ⟨x, hx, hframe⟩ := List.mem_map.mp hmem
      obtain ⟨hx, hmine⟩ := List.mem_filter.mp hx
      have hconn : x.connection = k := (of_decide_eq_true hmine).1
      exact List.mem_map.mpr ⟨x, List.mem_filter.mpr ⟨hx, decide_eq_true hconn⟩, hframe⟩
    exact List.mem_filter.mpr ⟨List.mem_map.mpr ⟨_, hsent, rfl⟩, decide_eq_true hhello⟩

/-- `bob`'s copy is delivered to the connection he opened on the other instance. -/
def deliverToBob : List Act := messageToBob "alice" ++ [.deliver 2 0 2]

/-- What the other instance writes to his stream. -/
def toBob : List Write :=
  [.heartbeat 15, .send .user (.published ⟨"anon", "hi", ⟨"user", "bob"⟩, "inst-7002", "09:00"⟩)]

def streamToBob : List Char := stream (twoInstances 1) ⟨"bob", "acme"⟩ toBob

theorem end_to_end_bob :
    SseFrame.toJson ⟨.user, twoInstances 1, "anon", "hi", ⟨"user", "bob"⟩, "inst-7002", "09:00"⟩ ∈
      client [streamToBob.take 50, streamToBob.drop 50] := by
  have h : ReachIf (machine twoInstances) (keepsApart twoInstances)
      (play twoInstances deliverToBob) :=
    Machine.reachIf_play (fun _ _ _ => id) rfl deliverToBob (by decide)
  have hk : (play twoInstances deliverToBob).connections[1]? =
      some ⟨1, ⟨"bob", "acme"⟩, some 2, some 3, false⟩ := by decide
  have hp : (play twoInstances deliverToBob).published[0]? =
      some ⟨⟨"anon", "hi", ⟨"user", "bob"⟩, "inst-7002", "09:00"⟩, 4⟩ := by decide
  have hsent : (play twoInstances deliverToBob).sentTo 1 =
      [⟨.user, twoInstances 1, "anon", "hi", ⟨"user", "bob"⟩, "inst-7002", "09:00"⟩] := by decide
  have hwrites : toBob.filterMap (Write.frame (twoInstances 1)) =
      ((play twoInstances deliverToBob).sentTo 1).map SseFrame.toJson := by
    rw [hsent]
    rfl
  have hchunks : [streamToBob.take 50, streamToBob.drop 50].flatten =
      stream (twoInstances 1) ⟨"bob", "acme"⟩ toBob := by
    rw [List.flatten_cons, List.flatten_cons, List.flatten_nil, List.append_nil,
      List.take_append_drop, streamToBob]
  have hbound : ∀ scope : Scope,
      ∃ j, Connection.unsub ⟨1, ⟨"bob", "acme"⟩, some 2, some 3, false⟩ scope = some j ∧ j < 4
    | .user => ⟨2, by decide⟩
    | .org => ⟨3, by decide⟩
  have hhello : ¬ IsHello (SseFrame.event
      ⟨.user, twoInstances 1, "anon", "hi", ⟨"user", "bob"⟩, "inst-7002", "09:00"⟩) := by
    decide +kernel
  have hpending : ∀ Q ∈ (play twoInstances deliverToBob).queues, Q.pending = [] := by decide
  have hawaits : ¬ (play twoInstances deliverToBob).Awaits 1 0 := by
    rintro ⟨Q, hQ, ⟨c, hc, -⟩, -⟩
    rw [hpending Q hQ] at hc
    cases hc
  have hclient := (end_to_end h hk hwrites hchunks).2 0 _ .user hp hbound rfl rfl hawaits hhello
  exact hclient

end Sse

end MessagingPoc
