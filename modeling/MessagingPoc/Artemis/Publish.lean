import MessagingPoc.Artemis.DeadLetter
import MessagingPoc.Lib.Narrow

/-!
# What the Artemis adapters send

`publish` of `artemis.ts` and `PublishAsync` of `ArtemisScheduler.cs`. The routing key, the id for
duplicate detection and the group travel as application properties, in one name space with the
headers of the application; the routing key is written before the headers, the two ids after them
and only when they are given. So a header can stand in for each of the three.

`unaltered_iff` says for which headers no subscriber, and neither the duplicate detection nor the
grouping of the broker, notices them. What a selector can notice of a routing key is
`Artemis.confusable_iff`.
-/

namespace MessagingPoc.Artemis.Publish

/-! ## Messages -/

/-- The application properties of a message. -/
abbrev AppProps := String → Option String

structure Message where
  body : String
  applicationProperties : AppProps
  groupId : Option String := none
  priority : Option ℤ := none
  replyTo : Option String := none
  correlationId : Option String := none
  ttl : Option ℤ := none

def routingKeyProp : String := "routingKey"

def groupIdProp : String := "_AMQ_GROUP_ID"

def duplIdProp : String := "_AMQ_DUPL_ID"

/-- `props[name] = value`, when there is a value. -/
def set (props : AppProps) (name : String) (value : Option String) : AppProps :=
  match value with
  | some value => Function.update props name (some value)
  | none => props

/-- Every header in turn. -/
def spread (props : AppProps) (headers : List (String × String)) : AppProps :=
  headers.foldl (fun props h => Function.update props h.1 (some h.2)) props

/-- A string that counts as true. -/
def truthy (s : Option String) : Option String := s.filter (· ≠ "")

/-! ## The two adapters -/

/-- `publish` of `artemis.ts`. -/
def publish (topic payload : String) (routingKey : Option String)
    (options : Option PublishOptions) : Message :=
  let appProps := spread (set (fun _ => none) routingKeyProp (routingKey.getD topic))
    ((options.bind (·.headers)).getD [])
  let appProps := set appProps duplIdProp (truthy (options.bind (·.dedupId)))
  { body := payload
    applicationProperties := set appProps groupIdProp (truthy (options.bind (·.groupId)))
    groupId := truthy (options.bind (·.groupId))
    priority := (options.bind (·.priority)).map Int32.toInt
    replyTo := truthy (options.bind (·.replyTo))
    correlationId := truthy (options.bind (·.correlationId))
    ttl := (options.bind (·.ttlMs)).map Int32.toInt }

/-- `PublishAsync` of `ArtemisScheduler.cs`, with its casts `(byte)p` and `(uint)ttl`. -/
def publishAsync (topic payload : String) (routingKey : Option String)
    (options : Option PublishOptions) : Message :=
  let props := spread (set (fun _ => none) routingKeyProp (routingKey.getD topic))
    ((options.bind (·.headers)).getD [])
  let props := set props groupIdProp (options.bind (·.groupId))
  { body := payload
    applicationProperties := set props duplIdProp (options.bind (·.dedupId))
    groupId := options.bind (·.groupId)
    priority := (options.bind (·.priority)).map fun p => (Narrow.byte p).toNat
    replyTo := options.bind (·.replyTo)
    correlationId := options.bind (·.correlationId)
    ttl := (options.bind (·.ttlMs)).map fun ttl => (Narrow.uint ttl).toNat }

inductive Runtime
  | typescript
  | dotnet
deriving DecidableEq, Repr

/-- The message the adapter of a runtime sends. -/
def Runtime.publish : Runtime → String → String → Option String → Option PublishOptions → Message
  | .typescript => Publish.publish
  | .dotnet => publishAsync

/-- An id as the adapter takes it: in TypeScript an empty string is none. -/
def Runtime.given : Runtime → Option String → Option String
  | .typescript => truthy
  | .dotnet => id

/-! ## What the headers may not change -/

/-- Every subscriber's selector sees the routing key, and the two ids are those of the options. -/
structure Unaltered (r : Runtime) (topic : String) (routingKey : Option String)
    (options : Option PublishOptions) (m : Message) : Prop where
  routed : ∃ key, m.applicationProperties routingKeyProp = some key ∧
    ∀ s : Subscription, s.selects key = s.selects (routingKey.getD topic)
  deduplicated : m.applicationProperties duplIdProp = r.given (options.bind (·.dedupId))
  grouped : m.applicationProperties groupIdProp = r.given (options.bind (·.groupId)) ∧
    m.groupId = r.given (options.bind (·.groupId))

/-- The value of a header, if the application has set it. -/
def header (options : Option PublishOptions) (name : String) : Option String :=
  spread (fun _ => none) ((options.bind (·.headers)).getD []) name

/-- No header bears the name of an id that is not given, nor that of the routing key, unless no
selector tells its value from the routing key. -/
structure Harmless (r : Runtime) (topic : String) (routingKey : Option String)
    (options : Option PublishOptions) : Prop where
  routing : ∀ v ∈ header options routingKeyProp, Confusable v (routingKey.getD topic)
  dedup : r.given (options.bind (·.dedupId)) = none → header options duplIdProp = none
  group : r.given (options.bind (·.groupId)) = none → header options groupIdProp = none

/-! ## What is sent -/

theorem spread_apply (props : AppProps) (headers : List (String × String)) (name : String) :
    spread props headers name = (spread (fun _ => none) headers name).or (props name) := by
  induction headers using List.reverseRecOn with
  | nil => rfl
  | append_singleton headers h ih =>
    simp only [spread, List.foldl_append, List.foldl_cons, List.foldl_nil,
      Function.update_apply] at ih ⊢
    by_cases hname : name = h.1
    · simp [hname]
    · simpa [hname] using ih

theorem set_apply (props : AppProps) (name x : String) (value : Option String) :
    set props name value x = if x = name then value.or (props x) else props x := by
  cases value with
  | none => simp [set]
  | some value =>
    rw [set, Function.update_apply]
    rfl

/-- **The three properties of what is sent**: a header, then the routing key; an id, then a
header. -/
theorem sent (r : Runtime) (topic payload : String) (routingKey : Option String)
    (options : Option PublishOptions) :
    let m := r.publish topic payload routingKey options
    m.applicationProperties routingKeyProp =
        some ((header options routingKeyProp).getD (routingKey.getD topic)) ∧
      m.applicationProperties duplIdProp =
        (r.given (options.bind (·.dedupId))).or (header options duplIdProp) ∧
      m.applicationProperties groupIdProp =
        (r.given (options.bind (·.groupId))).or (header options groupIdProp) ∧
      m.groupId = r.given (options.bind (·.groupId)) := by
  have hrd : routingKeyProp ≠ duplIdProp := by decide
  have hrg : routingKeyProp ≠ groupIdProp := by decide
  have hdg : duplIdProp ≠ groupIdProp := by decide
  -- the headers are spread over the routing key alone
  have hspread : ∀ name, spread (set (fun _ => none) routingKeyProp (routingKey.getD topic))
      ((options.bind (·.headers)).getD []) name =
      (header options name).or (if name = routingKeyProp then some (routingKey.getD topic)
        else none) := by
    intro name
    rw [spread_apply, set_apply]
    rfl
  have hrouting : (header options routingKeyProp).or (some (routingKey.getD topic)) =
      some ((header options routingKeyProp).getD (routingKey.getD topic)) := by
    cases header options routingKeyProp <;> rfl
  cases r with
  | typescript =>
    simp only [Runtime.publish, publish, Runtime.given, set_apply, hspread, hrd, hrg, hdg, hrd.symm,
      hrg.symm, hdg.symm, if_true, if_false, Option.or_none, hrouting, and_self]
  | dotnet =>
    simp only [Runtime.publish, publishAsync, Runtime.given, set_apply, hspread, hrd, hrg, hdg,
      hrd.symm, hrg.symm, hdg.symm, if_true, if_false, Option.or_none, hrouting, id, and_self]

theorem selects_eq_iff (v k : String) :
    (∀ s : Subscription, s.selects v = s.selects k) ↔ Confusable v k := by
  rw [← confusable_iff]
  constructor
  · intro h pattern hpattern
    have hs := h { topic := "", subscriberId := "", routingKey := some pattern }
    simpa [Subscription.selects, hpattern] using hs
  · intro h s
    unfold Subscription.selects
    split
    next key _ _ =>
      by_cases hkey : key = ""
      · rw [if_pos hkey, if_pos hkey]
      · rw [if_neg hkey, if_neg hkey]
        exact h key hkey
    · rfl

/-- The value of an id property is the id exactly if it is given, or no header has its name. -/
theorem or_eq_left_iff {given header : Option String} :
    given.or header = given ↔ (given = none → header = none) := by
  cases given <;> simp

/-- **Application headers change neither routing nor deduplication nor grouping exactly if they are
harmless.** -/
theorem unaltered_iff (r : Runtime) (topic payload : String) (routingKey : Option String)
    (options : Option PublishOptions) :
    Unaltered r topic routingKey options (r.publish topic payload routingKey options) ↔
      Harmless r topic routingKey options := by
  obtain ⟨hrouting, hdedup, hgroup, hgroupId⟩ := sent r topic payload routingKey options
  have hkeys : (∀ v ∈ header options routingKeyProp, Confusable v (routingKey.getD topic)) ↔
      Confusable ((header options routingKeyProp).getD (routingKey.getD topic))
        (routingKey.getD topic) := by
    cases header options routingKeyProp with
    | none => exact iff_of_true nofun (.inl rfl)
    | some v => simp
  constructor
  · rintro ⟨⟨key, hkey, hselects⟩, hdedup', hgroup', -⟩
    refine ⟨hkeys.mpr ?_, or_eq_left_iff.mp (hdedup.symm.trans hdedup'),
      or_eq_left_iff.mp (hgroup.symm.trans hgroup')⟩
    rw [hrouting] at hkey
    exact Option.some.inj hkey ▸ (selects_eq_iff _ _).mp hselects
  · intro h
    refine ⟨⟨_, hrouting, (selects_eq_iff _ _).mpr (hkeys.mp h.routing)⟩, ?_, ?_, hgroupId⟩
    · exact hdedup.trans (or_eq_left_iff.mpr h.dedup)
    · exact hgroup.trans (or_eq_left_iff.mpr h.group)

/-- A header moves a message of the topic `orders` to the subscribers of another key. -/
theorem routed_by_header :
    ¬Unaltered .typescript "orders" (some "eu") (some { headers := some [("routingKey", "us")] })
      (publish "orders" "m" (some "eu") (some { headers := some [("routingKey", "us")] })) := by
  rintro ⟨⟨key, hkey, hselects⟩, -, -⟩
  obtain rfl : "us" = key := Option.some.inj hkey
  exact absurd (hselects { topic := "orders", subscriberId := "s", routingKey := some "eu" })
    (by decide)

end MessagingPoc.Artemis.Publish
