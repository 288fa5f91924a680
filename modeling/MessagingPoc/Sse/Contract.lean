import MessagingPoc.Abstractions
import MessagingPoc.TopicMatch

/-!
# The SSE contract

The addressing scheme and the frames of `contract.ts`, what `SseHub` and `BusMessagePort` make of
a request, and the checks of the HTTP handlers. A missing query parameter or body field is `none`.
-/

namespace MessagingPoc

namespace Sse

/-! ## `contract.ts` -/

/-- The single broker topic every SSE connection publishes to and subscribes on. -/
def sseChannel : String := "mbc.sse"

inductive Scope
  | user
  | org
deriving DecidableEq, Repr

def Scope.name : Scope → String
  | .user => "user"
  | .org => "org"

/-- Who a publish is aimed at. The handler takes any `type`, not only the name of a scope. -/
structure PublishTarget where
  type : String
  id : String
deriving DecidableEq

def routingKeyFor (target : PublishTarget) : String := target.type ++ "." ++ target.id

structure SseEnvelope where
  «from» : String
  text : String
  «to» : PublishTarget
  via : String
  «at» : String
deriving DecidableEq

structure SseFrame where
  scope : Scope
  instanceId : String
  message : SseEnvelope
deriving DecidableEq

/-! ## The HTTP handlers -/

/-- `400` and the text of the response. -/
abbrev Rejection := Nat × String

structure ConnectionIdentity where
  userId : String
  orgId : String
deriving DecidableEq

/-- The id a scope's subscription is bound to. -/
def ConnectionIdentity.id (identity : ConnectionIdentity) : Scope → String
  | .user => identity.userId
  | .org => identity.orgId

/-- A string that is present and not empty. -/
def truthy (s : Option String) : Option String := s.filter (· ≠ "")

/-- `handleEvents`, up to the opening of the stream. -/
def handleEvents (userId orgId : Option String) : Except Rejection ConnectionIdentity :=
  match truthy userId, truthy orgId with
  | some userId, some orgId => .ok ⟨userId, orgId⟩
  | _, _ => .error (400, "userId and orgId query params are required")

theorem handleEvents_ok {userId orgId : Option String} {identity : ConnectionIdentity}
    (h : handleEvents userId orgId = .ok identity) :
    userId = some identity.userId ∧ orgId = some identity.orgId := by
  unfold handleEvents at h
  split at h
  · rename_i u o hu ho
    obtain rfl := Except.ok.inj h
    exact ⟨(Option.filter_eq_some_iff.mp hu).1, (Option.filter_eq_some_iff.mp ho).1⟩
  · simp at h

structure TargetBody where
  type : Option String
  id : Option String

structure PublishBody where
  «to» : Option TargetBody
  «from» : Option String
  text : Option String

structure PublishIntent where
  «to» : PublishTarget
  «from» : String
  text : String

def PublishBody.target (body : PublishBody) : Option PublishTarget := do
  let target ← body.«to»
  let type ← truthy target.type
  let id ← truthy target.id
  return ⟨type, id⟩

/-- `handlePublish`, up to the call of the hub; a body that is not JSON is `none`. -/
def handlePublish : Option PublishBody → Except Rejection PublishIntent
  | none => .error (400, "invalid JSON body")
  | some body =>
    match body.target with
    | none => .error (400, "body must be \x7b to: \x7b type, id \x7d, from, text \x7d")
    | some target => .ok ⟨target, body.«from».getD "anon", body.text.getD ""⟩

/-! ## The hub and its port to the bus -/

/-- The envelope `SseHub.publish` stamps. -/
def PublishIntent.envelope (intent : PublishIntent) (instanceId now : String) : SseEnvelope where
  «from» := if intent.«from» = "" then "anon" else intent.«from»
  text := intent.text
  «to» := intent.«to»
  via := instanceId
  «at» := now

/-- The unique id of a transient subscription. -/
def subscriberId (instanceId routingKey : String) (now seq : Nat) : String :=
  instanceId ++ "." ++ routingKey ++ "." ++ toString now ++ "." ++ toString seq

/-- The options `BusMessagePort.subscribe` passes to the bus. -/
def subscribeOptions (instanceId routingKey : String) (now seq : Nat) : SubscribeOptions where
  kind := .topic
  routingKey := some routingKey
  subscriberId := some (subscriberId instanceId routingKey now seq)
  transient := true

/-! ## Addresses -/

theorem words_name (scope : Scope) : words scope.name = [scope.name.toList] := by
  cases scope <;> rfl

theorem words_routingKeyFor (scope : Scope) (id : String) :
    words (routingKeyFor ⟨scope.name, id⟩) = scope.name.toList :: words id := by
  rw [routingKeyFor, words_append_dot, words_name]
  rfl

theorem routingKeyFor_inj {scope scope' : Scope} {id id' : String} :
    routingKeyFor ⟨scope.name, id⟩ = routingKeyFor ⟨scope'.name, id'⟩ ↔
      scope = scope' ∧ id = id' := by
  rw [← words_injective.eq_iff, words_routingKeyFor, words_routingKeyFor, List.cons.injEq,
    words_injective.eq_iff]
  refine and_congr_left' ⟨fun h => ?_, fun h => h ▸ rfl⟩
  cases scope <;> cases scope' <;> first | rfl | exact absurd h (by decide)

theorem plain_routingKeyFor {scope : Scope} {id : String} :
    Plain (routingKeyFor ⟨scope.name, id⟩) ↔ Plain id := by
  unfold Plain
  rw [words_routingKeyFor, List.forall_mem_cons]
  exact and_iff_right (by cases scope <;> decide)

/-- **A plain id is an address of its own.** -/
theorem topicMatch_routingKeyFor {scope scope' : Scope} {id id' : String} (h : Plain id) :
    topicMatch (routingKeyFor ⟨scope.name, id⟩) (routingKeyFor ⟨scope'.name, id'⟩) = true ↔
      scope' = scope ∧ id' = id := by
  rw [topicMatch_plain (plain_routingKeyFor.mpr h), routingKeyFor_inj]

/-- Any other id shares its address with one that differs from it. -/
theorem exists_of_not_plain {scope : Scope} {id : String} (h : ¬ Plain id) : ∃ id', id' ≠ id ∧
    topicMatch (routingKeyFor ⟨scope.name, id⟩) (routingKeyFor ⟨scope.name, id'⟩) = true := by
  obtain ⟨id', hmatch, hne⟩ : ∃ key, topicMatch id key = true ∧ key ≠ id := by
    simpa [plain_iff] using h
  refine ⟨id', hne, ?_⟩
  rw [topicMatch_iff] at hmatch ⊢
  rw [words_routingKeyFor, words_routingKeyFor, List.map_cons]
  have hscope : token scope.name.toList = .lit scope.name.toList := by cases scope <;> decide
  exact hscope ▸ .lit _ hmatch

end Sse

end MessagingPoc
