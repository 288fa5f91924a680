import Mathlib.Data.List.DropRight
import Mathlib.Data.List.Nodup
import MessagingPoc.Lib.Framing
import MessagingPoc.Lib.Json
import MessagingPoc.Sse.Contract

/-!
# The SSE wire

From the text a hub publishes to the frames a client has: `SseHub.publish` and `SseHub.parse`, what
`openSseSink` writes to a response, and the client of `sse.test.ts`, which takes the stream apart as
it comes. Texts are sequences of code points. A publish target has its two fields and no others.
A body may be any text; where it is JSON of a message that no hub published, numbers and keys are
such as JavaScript keeps as they are.

* `parse_envelope` — a hub reads what a hub published.
* `client_frames` — wherever the stream is cut into chunks, the client has the frames it was sent.
-/

namespace MessagingPoc

namespace Sse

open Json

/-! ## As JSON -/

/-- The code units of a string. -/
def units (s : String) : List UInt16 := s.toList.flatMap utf16

def string (s : String) : Value := .string (units s)

/-- An object with these members. -/
def object (members : List (String × Value)) : Value :=
  .object (members.foldr (fun m ms => .cons (units m.1) m.2 ms) .nil)

def PublishTarget.toJson (target : PublishTarget) : Value :=
  object [("type", string target.type), ("id", string target.id)]

def SseEnvelope.toJson (envelope : SseEnvelope) : Value :=
  object [("from", string envelope.«from»), ("text", string envelope.text),
    ("to", envelope.«to».toJson), ("via", string envelope.via), ("at", string envelope.«at»)]

/-- The body `SseHub.publish` passes to the bus. -/
def SseEnvelope.body (envelope : SseEnvelope) : List Char := envelope.toJson.print

/-- `SseHub.parse`: a body that is not JSON becomes the text of an envelope. -/
def parse (instanceId : String) (body : List Char) : Value :=
  match Json.parse body with
  | some message => message
  | none => SseEnvelope.toJson ⟨"anon", String.ofList body, ⟨"user", ""⟩, instanceId, ""⟩

/-- A frame with any message. -/
def frame (instanceId : String) (scope : Scope) (message : Value) : Value :=
  object [("scope", string scope.name), ("instanceId", string instanceId), ("message", message)]

def SseFrame.toJson (f : SseFrame) : Value := frame f.instanceId f.scope f.message.toJson

/-! ## `openSseSink` -/

def ConnectionIdentity.toJson (instanceId : String) (identity : ConnectionIdentity) : Value :=
  object [("instanceId", string instanceId), ("userId", string identity.userId),
    ("orgId", string identity.orgId)]

/-- What `send` puts before the empty line that ends an event. -/
def event (frame : Value) : List Char := "data: ".toList ++ frame.print

def SseFrame.event (f : SseFrame) : List Char := Sse.event f.toJson

/-- The event a stream begins with. -/
def hello (instanceId : String) (identity : ConnectionIdentity) : List Char :=
  "event: hello".toList ++ '\n' :: "data: ".toList ++ (identity.toJson instanceId).print

/-- A body on the channel: of an envelope that a hub published, JSON of something else, or not
JSON. -/
inductive Body
  | published (envelope : SseEnvelope)
  | json (text : List Char) (message : Value) (parsed : Json.parse text = some message)
      (kept : message.Kept)
  | raw (text : List Char) (invalid : Json.parse text = none)

def Body.text : Body → List Char
  | published envelope => envelope.body
  | json text .. => text
  | raw text _ => text

/-- What is written to a stream later on: the frame for a body, or a heartbeat. -/
inductive Write
  | send (scope : Scope) (body : Body)
  | heartbeat (now : Nat)

/-- What a write puts before the empty line that ends it; `bindScope` sends the frame for a body. -/
def Write.event (instanceId : String) : Write → List Char
  | send scope body => Sse.event (Sse.frame instanceId scope (parse instanceId body.text))
  | heartbeat now => ": keep-alive ".toList ++ (toString now).toList

/-- The text of a stream. -/
def stream (instanceId : String) (identity : ConnectionIdentity) (writes : List Write) :
    List Char :=
  (hello instanceId identity :: writes.map (Write.event instanceId)).flatMap (· ++ ['\n', '\n'])

/-! ## The client -/

/-- The white space of `String.prototype.trim`. -/
def isWhite (c : Char) : Bool :=
  c.toNat ∈ [0x9, 0xa, 0xb, 0xc, 0xd, 0x20, 0xa0, 0x1680, 0x2028, 0x2029, 0x202f, 0x205f, 0x3000,
    0xfeff] || (0x2000 ≤ c.toNat && c.toNat ≤ 0x200a)

def trim (s : List Char) : List Char := (s.dropWhile isWhite).rdropWhile isWhite

def dataLines (rawEvent : List Char) : List (List Char) :=
  ((rawEvent.splitOn '\n').filter ("data:".toList.isPrefixOf ·)).map fun l => trim (l.drop 5)

def IsHello (rawEvent : List Char) : Prop := "event: hello".toList <:+: rawEvent

instance (rawEvent : List Char) : Decidable (IsHello rawEvent) :=
  inferInstanceAs (Decidable (_ <:+: _))

/-- The frame of an event, if the client keeps one. -/
def received (rawEvent : List Char) : Option Value :=
  if dataLines rawEvent = [] then none
  else if IsHello rawEvent then none
  else Json.parse (['\n'].intercalate (dataLines rawEvent))

/-- The frames of `openSse`, after these chunks. -/
def client (chunks : List (List Char)) : List Value :=
  (Framing.feed '\n' [] chunks).1.filterMap received

/-! ## Objects -/

theorem keys_members (members : List (String × Value)) :
    Members.keys (members.foldr (fun m ms => .cons (units m.1) m.2 ms) .nil) =
      members.map fun m => units m.1 := by
  induction members with
  | nil => rfl
  | cons m members ih => rw [List.foldr_cons, Members.keys, ih, List.map_cons]

theorem distinct_members {members : List (String × Value)} (h : ∀ m ∈ members, m.2.Distinct) :
    Members.Distinct (members.foldr (fun m ms => .cons (units m.1) m.2 ms) .nil) := by
  induction members with
  | nil => trivial
  | cons m members ih =>
    rw [List.forall_mem_cons] at h
    exact ⟨h.1, ih h.2⟩

theorem distinct_object {members : List (String × Value)}
    (hnames : (members.map fun m => units m.1).Nodup) (h : ∀ m ∈ members, m.2.Distinct) :
    (object members).Distinct := by
  refine ⟨?_, distinct_members h⟩
  rwa [keys_members]

theorem SseEnvelope.distinct (envelope : SseEnvelope) : envelope.toJson.Distinct := by
  refine distinct_object ?_ ?_
  · show (["from", "text", "to", "via", "at"].map units).Nodup
    decide
  simp only [List.forall_mem_cons, List.not_mem_nil, false_imp_iff, implies_true, and_true]
  refine ⟨trivial, trivial, distinct_object ?_ ?_, trivial, trivial⟩
  · show (["type", "id"].map units).Nodup
    decide
  simp only [List.forall_mem_cons, List.not_mem_nil, false_imp_iff, implies_true, and_true]
  exact ⟨trivial, trivial⟩

theorem distinct_frame (instanceId : String) (scope : Scope) {message : Value}
    (h : message.Distinct) : (frame instanceId scope message).Distinct := by
  refine distinct_object ?_ ?_
  · show (["scope", "instanceId", "message"].map units).Nodup
    decide
  simp only [List.forall_mem_cons, List.not_mem_nil, false_imp_iff, implies_true, and_true]
  exact ⟨trivial, trivial, h⟩

/-- **A hub reads what a hub published.** -/
theorem parse_envelope (instanceId : String) (envelope : SseEnvelope) :
    parse instanceId envelope.body = envelope.toJson := by
  rw [parse, SseEnvelope.body, parse_print _ envelope.distinct]

/-- The message of the frames for a body. -/
def Body.message (instanceId : String) : Body → Value
  | published envelope => envelope.toJson
  | json _ message _ _ => message
  | raw text _ => SseEnvelope.toJson ⟨"anon", String.ofList text, ⟨"user", ""⟩, instanceId, ""⟩

theorem parse_body (instanceId : String) (body : Body) :
    parse instanceId body.text = body.message instanceId := by
  cases body with
  | published envelope => exact parse_envelope instanceId envelope
  | json text message parsed kept =>
    rw [Body.text, parse, parsed]
    rfl
  | raw text invalid =>
    rw [Body.text, parse, invalid]
    rfl

theorem Body.distinct (instanceId : String) (body : Body) : (body.message instanceId).Distinct := by
  cases body with
  | published envelope => exact envelope.distinct
  | json text message parsed kept => exact distinct_of_parse parsed
  | raw text invalid => exact SseEnvelope.distinct _

/-! ## Events -/

theorem members_print (ms : Members) : ∃ s, ms.print = s ++ ['\x7d'] := by
  induction ms using Members.keys.induct with
  | case1 => exact ⟨[], rfl⟩
  | case2 k v ms ih =>
    obtain ⟨s, hs⟩ := ih
    refine ⟨',' :: printString k ++ ':' :: v.print ++ s, ?_⟩
    rw [Members.print, hs]
    simp

/-- An object stands between braces, so nothing is trimmed. -/
theorem trim_object (members : List (String × Value)) :
    trim (' ' :: (object members).print) = (object members).print := by
  obtain ⟨s, hs⟩ : ∃ s, (object members).print = '\x7b' :: s ++ ['\x7d'] := by
    cases members with
    | nil => exact ⟨[], rfl⟩
    | cons m members =>
      obtain ⟨s, hs⟩ := members_print (members.foldr (fun m ms => .cons (units m.1) m.2 ms) .nil)
      refine ⟨printString (units m.1) ++ ':' :: m.2.print ++ s, ?_⟩
      rw [object, List.foldr_cons, Value.print, hs]
      simp
  rw [hs, trim, List.dropWhile_cons_of_pos (by decide), List.cons_append,
    List.dropWhile_cons_of_neg (by decide), ← List.cons_append,
    List.rdropWhile_concat_neg _ _ _ (by decide)]

theorem dataLines_of_not_mem {rawEvent : List Char} (h : '\n' ∉ rawEvent) :
    dataLines rawEvent = if "data:".toList.isPrefixOf rawEvent then [trim (rawEvent.drop 5)]
      else [] := by
  rw [dataLines, List.splitOn_eq_singleton h, List.filter_singleton]
  cases "data:".toList.isPrefixOf rawEvent <;> rfl

theorem not_mem_of_plain {s : List Char} (h : Json.Plain s) : '\n' ∉ s :=
  fun hmem => absurd (h _ hmem) (by decide)

theorem event_plain (instanceId : String) (w : Write) : '\n' ∉ w.event instanceId := by
  cases w with
  | send scope body => exact not_mem_of_plain (plain_append.mpr ⟨by decide, Value.plain_print _⟩)
  | heartbeat now =>
    have hdigits : ∀ c ∈ (toString now).toList, c.isDigit = true := by
      intro c hc
      rw [Nat.toString_eq_repr, Nat.toList_repr] at hc
      exact Nat.isDigit_of_mem_toDigits (by decide) (by decide) hc
    intro hmem
    rcases List.mem_append.mp hmem with hmem | hmem
    · exact absurd hmem (by decide)
    · exact absurd (hdigits _ hmem) (by decide)

/-- The frame of a write. -/
def Write.frame (instanceId : String) : Write → Option Value
  | send scope body => some (Sse.frame instanceId scope (body.message instanceId))
  | heartbeat _ => none

theorem received_frame (instanceId : String) (scope : Scope) {message : Value}
    (h : message.Distinct) :
    received (event (frame instanceId scope message)) =
      if IsHello (event (frame instanceId scope message)) then none
      else some (frame instanceId scope message) := by
  have hdistinct := distinct_frame instanceId scope h
  have htrim : trim (' ' :: (frame instanceId scope message).print) =
      (frame instanceId scope message).print := trim_object _
  generalize frame instanceId scope message = v at hdistinct htrim
  have hplain : '\n' ∉ event v := not_mem_of_plain (plain_append.mpr ⟨by decide, v.plain_print⟩)
  have hstart : "data:".toList.isPrefixOf (event v) = true := rfl
  have hdrop : (event v).drop 5 = ' ' :: v.print := rfl
  have hdata : dataLines (event v) = [v.print] := by
    rw [dataLines_of_not_mem hplain, hstart, if_pos rfl, hdrop]
    exact congrArg (fun l => [l]) htrim
  rw [received, hdata, if_neg (List.cons_ne_nil _ _), List.intercalate_singleton,
    parse_print _ hdistinct]

/-- The client keeps the frame of a write, unless it takes it for a greeting. -/
theorem received_event (instanceId : String) (w : Write) :
    received (w.event instanceId) = (w.frame instanceId).bind fun v =>
      if IsHello (event v) then none else some v := by
  cases w with
  | heartbeat now =>
    have hstart : "data:".toList.isPrefixOf (Write.event instanceId (.heartbeat now)) = false :=
      rfl
    have hlines := dataLines_of_not_mem (event_plain instanceId (.heartbeat now))
    rw [hstart, if_neg Bool.false_ne_true] at hlines
    rw [received, if_pos hlines, Write.frame, Option.bind_none]
  | send scope body =>
    have hevent : Write.event instanceId (.send scope body) =
        Sse.event (Sse.frame instanceId scope (body.message instanceId)) :=
      congrArg (fun v => Sse.event (Sse.frame instanceId scope v)) (parse_body instanceId body)
    rw [hevent]
    exact received_frame instanceId scope (body.distinct instanceId)

theorem received_hello (instanceId : String) (identity : ConnectionIdentity) :
    received (hello instanceId identity) = none := by
  have hhello : IsHello (hello instanceId identity) :=
    ((List.prefix_append _ _).trans (List.prefix_append _ _)).isInfix
  rw [received, if_pos hhello, ite_self]

theorem separated_hello (instanceId : String) (identity : ConnectionIdentity) :
    Framing.Separated '\n' (hello instanceId identity) := by
  have heq : hello instanceId identity = "event: hello".toList ++
      '\n' :: ("data: ".toList ++ (identity.toJson instanceId).print) :=
    List.append_assoc _ _ _
  have hname : '\n' ∉ "event: hello".toList := by decide
  have hdata : '\n' ∉ "data: ".toList ++ (identity.toJson instanceId).print :=
    not_mem_of_plain (plain_append.mpr ⟨by decide, Value.plain_print _⟩)
  have hne : "data: ".toList ≠ [] := by decide
  exact heq ▸ Framing.separated_append hname hdata (List.append_ne_nil_of_left_ne_nil hne _)

/-- The frames of a stream that has ended. -/
theorem received_stream (instanceId : String) (identity : ConnectionIdentity)
    (writes : List Write) :
    (Framing.drain '\n' (stream instanceId identity writes)).1.filterMap received =
      (writes.filterMap (Write.frame instanceId)).filter fun v => ¬ IsHello (event v) := by
  have hseparated : ∀ e ∈ hello instanceId identity :: writes.map (Write.event instanceId),
      Framing.Separated '\n' e := by
    refine List.forall_mem_cons.mpr ⟨separated_hello instanceId identity, ?_⟩
    rw [List.forall_mem_map]
    exact fun w _ => Framing.separated_of_not_mem (event_plain instanceId w)
  rw [stream, Framing.drain_records hseparated, List.filterMap_cons, received_hello,
    List.filterMap_map, List.filter_filterMap]
  refine List.filterMap_congr fun w _ => ?_
  rw [Function.comp_apply, received_event]
  cases w.frame instanceId with
  | none => rfl
  | some v => by_cases hhello : IsHello (event v) <;> simp [Option.filter, hhello]

/-- **The client has the frames it was sent**, in order, however its stream is cut into chunks and
whatever heartbeats stand between them; but a frame in whose text `event: hello` occurs it takes for
a greeting. While the stream has not ended it has the first of them. -/
theorem client_frames {instanceId : String} {identity : ConnectionIdentity} {writes : List Write}
    {chunks : List (List Char)} {rest : List Char}
    (h : chunks.flatten ++ rest = stream instanceId identity writes) :
    let frames := (writes.filterMap (Write.frame instanceId)).filter fun v => ¬ IsHello (event v)
    client chunks <+: frames ∧ (rest = [] → client chunks = frames) := by
  intro frames
  have hfeed : Framing.feed '\n' [] chunks = Framing.drain '\n' chunks.flatten :=
    Framing.feed_eq [] rfl chunks
  have hframes := received_stream instanceId identity writes
  rw [← h] at hframes
  refine ⟨?_, fun hrest => ?_⟩
  · rw [Framing.drain_append, List.filterMap_append] at hframes
    exact ⟨_, by rw [client, hfeed]; exact hframes⟩
  · rw [hrest, List.append_nil] at hframes
    rw [client, hfeed, hframes]

/-- The JSON of half a surrogate pair. -/
def halfPair : Body :=
  .json (Value.string [0xd800]).print (.string [0xd800]) (parse_print _ trivial) trivial

/-- A body that is not JSON. -/
def notJson : Body := .raw "hi".toList (Option.isNone_iff_eq_none.mp (by decide +kernel))

/-- To `alice`: a heartbeat, a message, one that reads like a greeting, and two other bodies. -/
def toAlice : List Write :=
  [.heartbeat 7, .send .user (.published ⟨"sys", "hi", ⟨"user", "alice"⟩, "inst2", "09:00"⟩),
    .send .org (.published ⟨"bob", "event: hello", ⟨"org", "acme"⟩, "inst1", "09:01"⟩),
    .send .user halfPair, .send .user notJson]

theorem client_frames_apart :
    client ((stream "inst1" ⟨"alice", "acme"⟩ toAlice).map fun c => [c]) =
      [SseFrame.toJson ⟨.user, "inst1", "sys", "hi", ⟨"user", "alice"⟩, "inst2", "09:00"⟩,
        frame "inst1" .user (.string [0xd800]),
        SseFrame.toJson ⟨.user, "inst1", "anon", "hi", ⟨"user", ""⟩, "inst1", ""⟩] := by
  have h : ((stream "inst1" ⟨"alice", "acme"⟩ toAlice).map fun c => [c]).flatten ++ [] =
      stream "inst1" ⟨"alice", "acme"⟩ toAlice := by
    rw [List.append_nil, ← List.flatMap_def, List.flatMap_singleton']
  have hsent : toAlice.filterMap (Write.frame "inst1") =
      [SseFrame.toJson ⟨.user, "inst1", "sys", "hi", ⟨"user", "alice"⟩, "inst2", "09:00"⟩,
        SseFrame.toJson ⟨.org, "inst1", "bob", "event: hello", ⟨"org", "acme"⟩, "inst1", "09:01"⟩,
        frame "inst1" .user (.string [0xd800]),
        SseFrame.toJson ⟨.user, "inst1", "anon", "hi", ⟨"user", ""⟩, "inst1", ""⟩] := rfl
  rw [(client_frames h).2 rfl, hsent, List.filter_cons_of_pos (by decide +kernel),
    List.filter_cons_of_neg (by decide +kernel), List.filter_cons_of_pos (by decide +kernel),
    List.filter_cons_of_pos (by decide +kernel), List.filter_nil]

end Sse

end MessagingPoc
