import MessagingPoc.Abstractions
import MessagingPoc.Lib.Cursor
import MessagingPoc.Lib.Double
import MessagingPoc.Lib.Machine

/-!
# The Kafka adapter: manual ack on one partition

`kafka.ts`, a consumer group on one partition. `eachMessage` is called for one record after another,
in the order of the log; a handler settles its message, or keeps it and settles it later, in any
order and however often. An offset commit is a request on its way: it is applied at some time, in
any order, or is lost. A crash (or `unsubscribe`) takes the consumer and its messages with it, and
the next one resumes at the committed offset.

**What breaks is the order of settlements**: one offset is committed for the whole partition, so
settling a record also gives up every earlier one that is not settled yet. `inOrder` excludes that.

`delivered`, `done`, `session` and `resumed` are ghost state.
-/

namespace MessagingPoc.Kafka

open Machine

/-! ## Records and messages -/

/-- A record of the partition; a header's value is what `String` makes of it. -/
structure Record where
  offset : Nat
  key : Option String := none
  value : Option String := none
  headers : List (String × Option String) := []
deriving DecidableEq

def normalizeHeaders (headers : List (String × Option String)) : List (String × String) :=
  headers.filterMap fun h => h.2.map (h.1, ·)

/-- The closure `toIncoming` makes: the record, what the handler sees of it, and `settled`. -/
structure Incoming where
  record : Record
  message : IncomingMessage
  settled : Bool := false
deriving DecidableEq

def toIncoming (topic : String) (p : Record) : Incoming :=
  let headers := normalizeHeaders p.headers
  { record := p
    message :=
      { id := toString p.offset
        destination := topic
        body := p.value.getD ""
        headers := headers
        replyTo := headers.lookup "replyTo"
        correlationId := headers.lookup "correlationId"
        groupId := p.key } }

/-- `(Number(offset) + 1).toString()`, the offset `commit` sends. -/
def nextOffset (offset : Nat) : Nat := Double.print (Double.round (Double.round offset + 1))

theorem nextOffset_of_lt {offset : Nat} (h : offset + 1 < 2 ^ 53) :
    nextOffset offset = offset + 1 := by
  rw [nextOffset, Double.round_of_lt (Nat.lt_of_succ_lt h), Double.round_of_lt h,
    Double.print_of_lt h]

/-! ## The group -/

structure Group where
  topic : String
  log : List Record := []
  /-- The committed offset; before the first commit, the beginning. -/
  committed : Nat := 0
  /-- The offsets of the commit requests on their way. -/
  requests : List Nat := []
  running : Bool := false
  /-- The offset the consumer reads next. -/
  position : Nat := 0
  /-- The messages of this consumer. -/
  incoming : List Incoming := []
  /-- The message whose handler runs. -/
  handling : Option Nat := none
  /-- The offsets ever handed to a handler. -/
  delivered : List Nat := []
  /-- The offsets acked, or nacked without requeue. -/
  done : List Nat := []
  /-- The offsets this consumer handed to its handlers. -/
  session : List Nat := []
  /-- The offset this consumer resumed at. -/
  resumed : Nat := 0
deriving DecidableEq

namespace Group

/-- Commit the offset after this record. -/
def commit (s : Group) (p : Record) : Group :=
  { s with requests := s.requests ++ [nextOffset p.offset], done := p.offset :: s.done }

def seek (s : Group) (offset : Nat) : Group := { s with position := offset }

/-- `settled = true`. -/
def settle (s : Group) (k : Nat) (m : Incoming) : Group :=
  { s with incoming := s.incoming.set k { m with settled := true } }

def ack (s : Group) (k : Nat) (m : Incoming) : Group :=
  if m.settled then s else (s.settle k m).commit m.record

def nack (s : Group) (k : Nat) (m : Incoming) (requeue : Bool) : Group :=
  if m.settled then s
  else if requeue then (s.settle k m).seek m.record.offset
  else (s.settle k m).commit m.record

/-- `eachMessage` is called for a record. -/
def eachMessage (s : Group) (p : Record) : Group :=
  { s with
    position := p.offset + 1
    incoming := s.incoming ++ [toIncoming s.topic p]
    handling := some s.incoming.length
    delivered := p.offset :: s.delivered
    session := p.offset :: s.session }

/-- A consumer of the group starts and is assigned the partition. -/
def start (s : Group) : Group :=
  { s with running := true, position := s.committed, session := [], resumed := s.committed }

/-- The consumer is gone, and what its handlers held with it. -/
def stop (s : Group) : Group := { s with running := false, incoming := [], handling := none }

end Group

/-! ## The machine -/

inductive Label
  /-- A producer appends a record. -/
  | append (p : Record)
  | start
  | crash
  /-- The consumer hands its next record to the handler. -/
  | eachMessage
  | ack (k : Nat)
  | nack (k : Nat) (requeue : Bool)
  /-- The handler returns. -/
  | returns
  /-- The handler throws. -/
  | throws
  /-- A commit request is applied. -/
  | commitOffsets (n : Nat)
  /-- A commit request is lost. -/
  | lose (n : Nat)
deriving DecidableEq

namespace Group

def step (s : Group) : Label → Option Group
  | .append p =>
    if ∀ p' ∈ s.log, p'.offset < p.offset then some { s with log := s.log ++ [p] } else none
  | .start => if s.running then none else some s.start
  | .crash => if s.running then some s.stop else none
  | .eachMessage =>
    if s.running ∧ s.handling = none then
      (Cursor.next Record.offset s.log s.position).map s.eachMessage
    else none
  | .ack k => s.incoming[k]?.map (s.ack k)
  | .nack k requeue => s.incoming[k]?.map fun m => s.nack k m requeue
  | .returns => s.handling.map fun _ => { s with handling := none }
  | .throws =>
    s.handling.bind fun k =>
      s.incoming[k]?.map fun m => { s.nack k m true with handling := none }
  | .commitOffsets n =>
    s.requests[n]?.map fun v => { s with committed := v, requests := s.requests.eraseIdx n }
  | .lose n => s.requests[n]?.map fun _ => { s with requests := s.requests.eraseIdx n }

end Group

/-- A group on an empty partition. -/
def machine : System Group Label where
  init s := ∃ topic, s = { topic := topic }
  step s l s' := s.step l = some s'

theorem machine_step {s s' : Group} {l : Label} : machine.step s l s' ↔ s.step l = some s' :=
  Iff.rfl

/-! ## The condition -/

namespace Group

/-- The record a step asks to commit. -/
def committing (s : Group) : Label → Option Record
  | .ack k | .nack k false => (s.incoming[k]?.filter (!·.settled)).map Incoming.record
  | _ => none

/-- A record is settled for good only when every record delivered before it is, and its next offset
is not rounded up. -/
def inOrder (s : Group) (l : Label) : Prop :=
  ∀ p ∈ s.committing l, nextOffset p.offset ≤ p.offset + 1 ∧
    ∀ o ∈ s.delivered, o < p.offset → o ∈ s.done

instance (s : Group) (l : Label) : Decidable (s.inOrder l) :=
  inferInstanceAs (Decidable (∀ p ∈ s.committing l, _))

end Group

/-! ## The invariant -/

/-- A consumer that resumes at `v` gives up nothing: what is below was delivered and is settled for
good. -/
structure Passed (log : List Record) (delivered done : List Nat) (v : Nat) : Prop where
  covers : Cursor.Covers Record.offset log delivered 0 v
  settled : ∀ o ∈ delivered, o < v → o ∈ done
  within : Cursor.Within Record.offset log v

theorem Passed.zero (log : List Record) (delivered done : List Nat) :
    Passed log delivered done 0 := by
  constructor
  · intro p _ _ hlt
    exact absurd hlt (Nat.not_lt_zero _)
  · intro o _ hlt
    exact absurd hlt (Nat.not_lt_zero _)
  · intro y _
    exact Nat.zero_le y

structure Sound (s : Group) : Prop where
  ordered : Cursor.Ordered Record.offset s.log
  logged : ∀ o ∈ s.delivered, ∃ p ∈ s.log, p.offset = o
  session : s.session ⊆ s.delivered
  stopped : s.running = false → s.incoming = [] ∧ s.handling = none
  /-- The messages a consumer holds, it was handed. -/
  held : ∀ m ∈ s.incoming, m.record ∈ s.log ∧ m.record.offset ∈ s.session
  within : Cursor.Within Record.offset s.log s.position
  covers : Cursor.Covers Record.offset s.log s.session s.resumed s.position
  /-- A record is not handed over before those in front of it. -/
  closed : ∀ o ∈ s.session, Cursor.Covers Record.offset s.log s.session s.resumed o
  passed : ∀ v, v = s.committed ∨ v ∈ s.requests ∨ v = s.resumed →
    Passed s.log s.delivered s.done v

namespace Sound

variable {s : Group}

/-- Everything in front of a record of the session was delivered. -/
theorem front (h : Sound s) {o : Nat} (ho : o ∈ s.session) :
    Cursor.Covers Record.offset s.log s.delivered 0 o := by
  intro p hp _ hlt
  by_cases hresumed : s.resumed ≤ p.offset
  · exact h.session (h.closed o ho p hp hresumed hlt)
  · have hpassed := h.passed s.resumed (.inr (.inr rfl))
    exact hpassed.covers p hp (Nat.zero_le _) (Nat.lt_of_not_le hresumed)

theorem append (h : Sound s) {p : Record} (hnew : ∀ p' ∈ s.log, p'.offset < p.offset) :
    Sound { s with log := s.log ++ [p] } := by
  have hlast : ∀ o ∈ s.delivered, Cursor.Within Record.offset s.log o := by
    intro o ho
    obtain ⟨q, hq, rfl⟩ := h.logged o ho
    exact (Cursor.within_succ hq).mono (Nat.le_succ _)
  constructor
  · exact h.ordered.append hnew
  · intro o ho
    obtain ⟨q, hq, rfl⟩ := h.logged o ho
    exact ⟨q, List.mem_append_left _ hq, rfl⟩
  · exact h.session
  · exact h.stopped
  · intro m hm
    exact ⟨List.mem_append_left _ (h.held m hm).1, (h.held m hm).2⟩
  · exact h.within.append
  · exact h.covers.append h.within hnew
  · intro o ho
    exact (h.closed o ho).append (hlast o (h.session ho)) hnew
  · intro v hv
    obtain ⟨hdelivered, hdone, hwithin⟩ := h.passed v hv
    exact ⟨hdelivered.append hwithin hnew, hdone, hwithin.append⟩

theorem start (h : Sound s) (hrunning : s.running = false) : Sound s.start := by
  have hnone : s.start.incoming = [] := (h.stopped hrunning).1
  constructor
  · exact h.ordered
  · exact h.logged
  · exact List.nil_subset _
  · intro _
    exact h.stopped hrunning
  · intro m hm
    rw [hnone] at hm
    cases hm
  · exact (h.passed s.committed (.inl rfl)).within
  · intro p _ hstart hlt
    exact absurd hstart (Nat.not_le_of_lt hlt)
  · intro o ho
    cases ho
  · intro v hv
    exact h.passed v (hv.elim .inl fun hv => hv.elim (fun hv => .inr (.inl hv)) .inl)

theorem stop (h : Sound s) : Sound s.stop :=
  { h with stopped := fun _ => ⟨rfl, rfl⟩, held := fun _ hm => by cases hm }

theorem eachMessage (h : Sound s) {p : Record} (hrunning : s.running = true)
    (hp : Cursor.next Record.offset s.log s.position = some p) : Sound (s.eachMessage p) := by
  have hmem := Cursor.next_mem hp
  have hcovers := Cursor.covers_next h.ordered h.covers hp
  constructor
  · exact h.ordered
  · intro o ho
    rcases List.mem_cons.mp ho with rfl | ho
    · exact ⟨p, hmem, rfl⟩
    · exact h.logged o ho
  · exact List.cons_subset_cons _ h.session
  · intro hstopped
    exact absurd (hrunning.symm.trans hstopped) (by decide)
  · intro m hm
    rcases List.mem_append.mp hm with hm | hm
    · exact ⟨(h.held m hm).1, List.mem_cons_of_mem _ (h.held m hm).2⟩
    · obtain rfl := List.mem_singleton.mp hm
      exact ⟨hmem, List.mem_cons_self⟩
  · exact Cursor.within_succ hmem
  · exact hcovers
  · intro o ho
    rcases List.mem_cons.mp ho with rfl | ho
    · exact hcovers.mono (List.Subset.refl _) (Nat.le_succ _)
    · exact (h.closed o ho).mono (List.subset_cons_self _ _) (Nat.le_refl _)
  · intro v hv
    obtain ⟨hdelivered, hdone, hwithin⟩ := h.passed v hv
    refine ⟨hdelivered.mono (List.subset_cons_self _ _) (Nat.le_refl _), fun o ho hlt => ?_,
      hwithin⟩
    -- A record in front of `v` has been delivered before.
    rcases List.mem_cons.mp ho with rfl | ho
    · exact hdone _ (hdelivered p hmem (Nat.zero_le _) hlt) hlt
    · exact hdone o ho hlt

theorem settle (h : Sound s) {k : Nat} {m : Incoming} (hm : s.incoming[k]? = some m) :
    Sound (s.settle k m) := by
  refine { h with stopped := fun hstopped => ?_, held := fun m' hm' => ?_ }
  · rw [(h.stopped hstopped).1] at hm
    cases hm
  rcases List.mem_or_eq_of_mem_set hm' with hm' | rfl
  · exact h.held m' hm'
  · exact h.held m (List.mem_of_getElem? hm)

theorem seek (h : Sound s) {o : Nat} (ho : o ∈ s.session) : Sound (s.seek o) := by
  refine { h with within := ?_, covers := h.closed o ho }
  obtain ⟨p, hp, rfl⟩ := h.logged o (h.session ho)
  exact (Cursor.within_succ hp).mono (Nat.le_succ _)

theorem commit (h : Sound s) {p : Record} (hp : p ∈ s.log) (hsession : p.offset ∈ s.session)
    (hnext : nextOffset p.offset ≤ p.offset + 1)
    (hdone : ∀ o ∈ s.delivered, o < p.offset → o ∈ s.done) : Sound (s.commit p) := by
  refine { h with passed := fun v hv => ?_ }
  have hold : ∀ {v}, Passed s.log s.delivered s.done v →
      Passed s.log s.delivered (p.offset :: s.done) v := fun hpassed =>
    { hpassed with settled := fun o ho hlt => List.mem_cons_of_mem _ (hpassed.settled o ho hlt) }
  have hnew : Passed s.log s.delivered (p.offset :: s.done) (nextOffset p.offset) := by
    refine ⟨fun q hq hstart hlt => ?_, fun o ho hlt => ?_, (Cursor.within_succ hp).mono hnext⟩
    · rcases Nat.lt_or_ge q.offset p.offset with hq' | hq'
      · exact h.front hsession q hq hstart hq'
      · have heq : q.offset = p.offset := by omega
        exact heq ▸ h.session hsession
    · rcases Nat.lt_or_ge o p.offset with ho' | ho'
      · exact List.mem_cons_of_mem _ (hdone o ho ho')
      · have heq : o = p.offset := by omega
        exact heq ▸ List.mem_cons_self
  rcases hv with rfl | hv | rfl
  · exact hold (h.passed _ (.inl rfl))
  · rcases List.mem_append.mp hv with hv | hv
    · exact hold (h.passed v (.inr (.inl hv)))
    · rw [List.mem_singleton.mp hv]
      exact hnew
  · exact hold (h.passed _ (.inr (.inr rfl)))

theorem commit_settle (h : Sound s) {k : Nat} {m : Incoming} (hm : s.incoming[k]? = some m)
    {l : Label} (hl : s.committing l = (s.incoming[k]?.filter (!·.settled)).map Incoming.record)
    (hfresh : ¬ m.settled) (hok : s.inOrder l) : Sound ((s.settle k m).commit m.record) := by
  have hmem : m.record ∈ s.committing l := by
    rw [hl, hm]
    simp [hfresh]
  obtain ⟨hlog, hsession⟩ := h.held m (List.mem_of_getElem? hm)
  obtain ⟨hnext, hdone⟩ := hok m.record hmem
  exact (h.settle hm).commit hlog hsession hnext hdone

theorem requeue (h : Sound s) {k : Nat} {m : Incoming} (hm : s.incoming[k]? = some m) :
    Sound (s.nack k m true) := by
  simp only [Group.nack, if_true]
  split_ifs
  · exact h
  · exact (h.settle hm).seek (h.held m (List.mem_of_getElem? hm)).2

end Sound

/-- **Runs that settle in order are sound.** -/
theorem sound {s : Group} (h : ReachIf machine Group.inOrder s) : Sound s := by
  refine h.invariant (fun s hs => ?_) fun s l s' _ ih hok hstep => ?_
  · obtain ⟨topic, rfl⟩ := hs
    refine ⟨List.Pairwise.nil, by simp, by simp, by simp, by simp, fun y _ => Nat.zero_le y,
      by simp [Cursor.Covers], by simp, fun v hv => ?_⟩
    obtain rfl : v = 0 := by simpa using hv
    exact .zero _ _ _
  have hs := machine_step.mp hstep
  cases l with
  | append p =>
    simp only [Group.step] at hs
    split_ifs at hs with hnew
    cases hs
    exact ih.append hnew
  | start =>
    simp only [Group.step] at hs
    split_ifs at hs with hrunning
    cases hs
    exact ih.start (by simpa using hrunning)
  | crash =>
    simp only [Group.step] at hs
    split_ifs at hs
    cases hs
    exact ih.stop
  | eachMessage =>
    simp only [Group.step] at hs
    split_ifs at hs with hready
    obtain ⟨p, hp, rfl⟩ := Option.map_eq_some_iff.mp hs
    exact ih.eachMessage hready.1 hp
  | ack k =>
    obtain ⟨m, hm, rfl⟩ := Option.map_eq_some_iff.mp hs
    unfold Group.ack
    split_ifs with hsettled
    · exact ih
    · exact ih.commit_settle hm rfl hsettled hok
  | nack k requeue =>
    obtain ⟨m, hm, rfl⟩ := Option.map_eq_some_iff.mp hs
    cases requeue with
    | true => exact ih.requeue hm
    | false =>
      simp only [Group.nack, Bool.false_eq_true, if_false]
      split_ifs with hsettled
      · exact ih
      · exact ih.commit_settle hm rfl hsettled hok
  | returns =>
    obtain ⟨k, -, rfl⟩ := Option.map_eq_some_iff.mp hs
    exact { ih with stopped := fun hstopped => ⟨(ih.stopped hstopped).1, rfl⟩ }
  | throws =>
    obtain ⟨k, -, hs⟩ := Option.bind_eq_some_iff.mp hs
    obtain ⟨m, hm, rfl⟩ := Option.map_eq_some_iff.mp hs
    have hnacked := ih.requeue hm
    exact { hnacked with stopped := fun hstopped => ⟨(hnacked.stopped hstopped).1, rfl⟩ }
  | commitOffsets n =>
    obtain ⟨v, hv, rfl⟩ := Option.map_eq_some_iff.mp hs
    refine { ih with passed := fun u hu => ?_ }
    rcases hu with rfl | hu | hu
    · exact ih.passed _ (.inr (.inl (List.mem_of_getElem? hv)))
    · exact ih.passed u (.inr (.inl ((List.eraseIdx_sublist _ _).subset hu)))
    · exact ih.passed u (.inr (.inr hu))
  | lose n =>
    obtain ⟨v, -, rfl⟩ := Option.map_eq_some_iff.mp hs
    refine { ih with passed := fun u hu => ?_ }
    rcases hu with hu | hu | hu
    · exact ih.passed u (.inl hu)
    · exact ih.passed u (.inr (.inl ((List.eraseIdx_sublist _ _).subset hu)))
    · exact ih.passed u (.inr (.inr hu))

/-! ## At least once -/

namespace Group

/-- The consumer crashes, if it runs, and the group starts again. -/
def restart (s : Group) : Group := play step s [.crash, .start]

/-- The consumer reads on: `n` records whose handlers return. -/
def readOn : Nat → List Label
  | 0 => []
  | n + 1 => .eachMessage :: .returns :: readOn n

/-- A consumer that reads on comes to every record in front of it. -/
theorem reads_on {s : Group} (hlog : Cursor.Ordered Record.offset s.log) {p : Record}
    (hp : p ∈ s.log) (hrunning : s.running = true) (hidle : s.handling = none)
    (hposition : s.position ≤ p.offset) :
    ∃ n, p.offset ∈ (play step s (readOn n)).session := by
  -- Each record read leaves the position closer to `p`.
  induction hn : p.offset - s.position using Nat.strong_induction_on generalizing s with
  | _ n ih =>
    obtain ⟨q, hq⟩ := Option.ne_none_iff_exists'.mp (Cursor.next_ne_none hp hposition)
    have hplay : ∀ n, play step s (readOn (n + 1)) =
        play step { s.eachMessage q with handling := none } (readOn n) := by
      intro n
      simp [readOn, play, step, hrunning, hidle, hq, eachMessage]
    have hle := Cursor.next_le hlog hq hp hposition
    have hge := Cursor.le_next hq
    by_cases heq : q.offset = p.offset
    · refine ⟨1, ?_⟩
      rw [hplay 0, ← heq]
      exact List.mem_cons_self
    · have hnext : q.offset + 1 ≤ p.offset := Nat.lt_of_le_of_ne hle heq
      obtain ⟨k, hk⟩ := ih (p.offset - (q.offset + 1)) (by omega)
        (s := { s.eachMessage q with handling := none }) hlog hp hrunning rfl hnext rfl
      exact ⟨k + 1, by rwa [hplay k]⟩

theorem restart_eq {s : Group} (h : Sound s) :
    s.restart.log = s.log ∧ s.restart.running = true ∧ s.restart.handling = none ∧
      s.restart.position = s.committed := by
  cases hrunning : s.running with
  | true => simp [restart, play, step, hrunning, start, stop]
  | false =>
    have hidle := (h.stopped hrunning).2
    simp [restart, play, step, hrunning, start, hidle]

end Group

/-- **At least once**, in runs that settle in order: the committed offset does not pass a record
that was delivered and is not settled for good, the consumer does not pass it over, and a crash at
this point has it delivered again. -/
theorem at_least_once {s : Group} (h : ReachIf machine Group.inOrder s) :
    ∀ o ∈ s.delivered, o ∉ s.done →
      s.committed ≤ o ∧ (o ∈ s.session ∨ s.position ≤ o) ∧
      ∃ n, o ∈ (play Group.step s.restart (Group.readOn n)).session := by
  intro o hdelivered hopen
  have hsound := sound h
  obtain ⟨p, hp, rfl⟩ := hsound.logged o hdelivered
  have hbelow : ∀ v, Passed s.log s.delivered s.done v → v ≤ p.offset := by
    intro v hv
    by_contra hlt
    exact hopen (hv.settled _ hdelivered (Nat.lt_of_not_le hlt))
  have hcommitted := hbelow _ (hsound.passed _ (.inl rfl))
  refine ⟨hcommitted, ?_, ?_⟩
  · by_cases hposition : s.position ≤ p.offset
    · exact .inr hposition
    · have hresumed := hbelow _ (hsound.passed _ (.inr (.inr rfl)))
      exact .inl (hsound.covers p hp hresumed (Nat.lt_of_not_le hposition))
  · obtain ⟨hlog, hrunning, hidle, hposition⟩ := Group.restart_eq hsound
    refine Group.reads_on ?_ ?_ hrunning hidle (hposition ▸ hcommitted)
    · rw [hlog]
      exact hsound.ordered
    · rw [hlog]
      exact hp

/-- Settling a record for good before one in front of it commits past that one. -/
theorem Group.out_of_order {s : Group} {k : Nat} {m : Incoming} (hm : s.incoming[k]? = some m)
    (hfresh : m.settled = false) (hoffset : m.record.offset + 1 < 2 ^ 53) {o : Nat}
    (hlt : o < m.record.offset) (hopen : o ∉ s.done) :
    let s' := play Group.step s [.ack k, .commitOffsets s.requests.length]
    o < s'.committed ∧ o ∉ s'.done ∧ s'.delivered = s.delivered := by
  have hplay : play Group.step s [.ack k, .commitOffsets s.requests.length] =
      { (s.settle k m).commit m.record with
        committed := m.record.offset + 1, requests := s.requests } := by
    simp [play, Group.step, hm, Group.ack, hfresh, Group.commit, Group.settle,
      nextOffset_of_lt hoffset, List.eraseIdx_append_of_length_le]
  rw [hplay]
  refine ⟨Nat.lt_succ_of_lt hlt, fun hmem => ?_, rfl⟩
  rcases List.mem_cons.mp hmem with rfl | hmem
  · exact absurd hlt (Nat.lt_irrefl _)
  · exact hopen hmem

/-- The first of two records is acked; the handler of the second one throws. -/
def ackThenThrow : List Label :=
  [.append ⟨0, none, none, []⟩, .append ⟨1, none, none, []⟩, .start, .eachMessage, .ack 0, .returns,
    .commitOffsets 0, .eachMessage, .throws]

theorem at_least_once_rewound :
    (play Group.step { topic := "t" } ackThenThrow).committed ≤ 1 ∧
      ∃ n, 1 ∈ (play Group.step (play Group.step { topic := "t" } ackThenThrow).restart
        (Group.readOn n)).session := by
  have hleast := at_least_once (reachIf_play (S := machine) (f := Group.step)
    (fun _ _ _ => id) ⟨"t", rfl⟩ ackThenThrow (by decide +kernel)) 1 (by decide +kernel)
    (by decide +kernel)
  exact ⟨hleast.1, hleast.2.2⟩

/-- The handler of the first record returns without settling it; the second one is acked. -/
def ackSecond : List Label :=
  [.append ⟨0, none, none, []⟩, .append ⟨1, none, none, []⟩, .start, .eachMessage, .returns,
    .eachMessage, .ack 1, .returns, .commitOffsets 0]

/-- **An ack gives up every earlier record.** -/
theorem ack_passes_unsettled : ¬ ∀ s, Reach machine s → ∀ o ∈ s.delivered, o ∉ s.done →
    s.committed ≤ o := by
  intro hclaim
  have hpassed := hclaim _ (reach_play (S := machine) (f := Group.step) (fun _ _ _ => id)
    ⟨"t", rfl⟩ ackSecond) 0 (by decide +kernel) (by decide +kernel)
  exact absurd hpassed (by decide +kernel)

end MessagingPoc.Kafka
