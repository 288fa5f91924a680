import MessagingPoc.Lib.CompareExchange

/-!
# The fault injector of the .NET side

`FaultInjectingBus` of `Messaging.Faults`: the calls of several threads pass through `Guard`, which
reads a flag and then takes one armed fault, if there is one, in a loop around `CompareExchange`. A
step of the model is one access to a field; `FailNext`, `Disconnect` and `Reconnect` come at any
time between two steps.

The arguments are handed on as they are, so their types are parameters.
-/

namespace MessagingPoc.NetFaultInjectingBus

open Machine

/-- The types of the arguments. -/
structure ArgTypes where
  AckHandler : Type
  SubscribeOptions : Type
  PublishOptions : Type
  CancellationToken : Type

/-- A call of `IMessageBus`. -/
inductive BusCall (A : ArgTypes)
  | connectBusAsync (ct : A.CancellationToken)
  | publishAsync (topic payload : String) (routingKey : Option String)
      (options : Option A.PublishOptions) (ct : A.CancellationToken)
  | subscribeAsync (topic : String) (handler : A.AckHandler) (options : Option A.SubscribeOptions)
      (ct : A.CancellationToken)
  | disposeAsync

variable {A : ArgTypes}

/-- What a method passes to `Guard`; `DisposeAsync` goes past it. -/
def BusCall.guarded : BusCall A → Option String
  | .connectBusAsync .. => some "ConnectBusAsync"
  | .publishAsync .. => some "PublishAsync"
  | .subscribeAsync .. => some "SubscribeAsync"
  | .disposeAsync => none

/-- The `IOException` that `Guard` throws, by its message. -/
inductive Thrown
  | outage (op : String)
  | fault (op : String)
deriving DecidableEq

def Thrown.message : Thrown → String
  | .outage op => op ++ ": broker connection is down (injected outage)"
  | .fault op => op ++ ": injected transient fault"

/-- Which access of a call is next. -/
inductive Pc
  | readConnected (op : String)
  | readFailNext (op : String)
  | compareExchange (op : String) (current : Int32)
  /-- The call of `_inner`. -/
  | inner
  | returned
  | thrown (e : Thrown)
deriving DecidableEq

def BusCall.start (c : BusCall A) : Pc := c.guarded.elim .inner .readConnected

abbrev Event := CompareExchange.Event Nat Int32

structure World (A : ArgTypes) where
  failNext : Int32 := 0
  connected : Bool := true
  calls : List (BusCall A × Pc) := []
  /-- The calls that reached `_inner`, the oldest first, with their numbers. -/
  reached : List (Nat × BusCall A) := []
  /-- Ghost: who took a fault, who found none, and what was armed; the newest first. -/
  trace : List Event := []

inductive Label (A : ArgTypes)
  | call (c : BusCall A)
  | run (i : Nat)
  | failNext (count : Int32)
  | disconnect
  | reconnect

/-- What `Guard` makes of the counter; none of it when no fault is armed. -/
def consume (current : Int32) : Option Int32 := if current ≤ 0 then none else some (current - 1)

namespace World

variable {w w' : World A}

def setPc (w : World A) (i : Nat) (c : BusCall A) (pc : Pc) : World A :=
  { w with calls := w.calls.set i (c, pc) }

def record (w : World A) (e : Event) : World A := { w with trace := e :: w.trace }

/-- The next access of a call. -/
def run (w : World A) (i : Nat) (c : BusCall A) : Pc → Option (World A)
  | .readConnected op =>
    if w.connected then some (w.setPc i c (.readFailNext op))
    else some (w.setPc i c (.thrown (.outage op)))
  | .readFailNext op =>
    if w.failNext ≤ 0 then some ((w.setPc i c .inner).record (.declined i))
    else some (w.setPc i c (.compareExchange op w.failNext))
  | .compareExchange op current =>
    if w.failNext = current then
      some ({ w.setPc i c (.thrown (.fault op)) with failNext := current - 1 }.record (.updated i))
    else some ((w.setPc i c (.readFailNext op)).record (.retried i))
  | .inner => some { w.setPc i c .returned with reached := w.reached ++ [(i, c)] }
  | .returned | .thrown _ => none

def step (w : World A) : Label A → Option (World A)
  | .call c => some { w with calls := w.calls ++ [(c, c.start)] }
  | .run i => w.calls[i]?.bind fun (c, pc) => w.run i c pc
  | .failNext count => some ({ w with failNext := count }.record (.stored count))
  | .disconnect => some { w with connected := false }
  | .reconnect => some { w with connected := true }

end World

def machine (A : ArgTypes) : System (World A) (Label A) where
  init w := w = {}
  step w l w' := w.step l = some w'

namespace World

variable {w w' : World A}

/-! ## The counter is a cell -/

end World

/-- Where an access is in the loop of `Guard`. -/
def Pc.loop : Pc → CompareExchange.Pc Int32
  | .readFailNext _ => .read
  | .compareExchange _ current => .swap current
  | .readConnected _ | .inner | .returned | .thrown _ => .out

theorem loop_start (c : BusCall A) : c.start.loop = .out := by
  unfold BusCall.start
  cases c.guarded <;> rfl

namespace World

variable {w w' : World A}

def pc (w : World A) (i : Nat) : CompareExchange.Pc Int32 :=
  w.calls[i]?.elim .out fun x => x.2.loop

/-- The counter, with the calls that are in the loop. -/
def view (w : World A) : CompareExchange.Cell Nat Int32 where
  value := w.failNext
  pc := w.pc
  trace := w.trace

theorem pc_of_call {i : Nat} {c : BusCall A} {p : Pc} (h : w.calls[i]? = some (c, p)) :
    w.pc i = p.loop := by
  rw [pc, h]
  rfl

theorem view_setPc {i : Nat} {c : BusCall A} {p : Pc} (h : w.calls[i]? = some (c, p)) (p' : Pc) :
    (w.setPc i c p').view = { w.view with pc := Function.update w.view.pc i p'.loop } := by
  have hi : i < w.calls.length := (List.getElem?_eq_some_iff.mp h).1
  have hpc : (w.setPc i c p').pc = Function.update w.pc i p'.loop := by
    funext j
    unfold pc setPc
    rw [List.getElem?_set]
    by_cases hj : i = j
    · subst hj
      simp [hi]
    · rw [if_neg hj, Function.update_of_ne (Ne.symm hj)]
  rw [view, hpc]
  rfl

theorem pc_call (w : World A) (c : BusCall A) :
    ({ w with calls := w.calls ++ [(c, c.start)] } : World A).pc = w.pc := by
  funext i
  unfold pc
  by_cases hi : i < w.calls.length
  · rw [List.getElem?_append_left hi]
  · have hle := Nat.le_of_not_lt hi
    rw [List.getElem?_append_right hle, List.getElem?_eq_none hle]
    by_cases hlast : i - w.calls.length = 0
    · rw [hlast]
      exact loop_start c
    · rw [List.getElem?_eq_none (by simp; omega)]

/-- An access outside the loop that leads to none in it is no event of the counter. -/
theorem view_setPc_out {i : Nat} {c : BusCall A} {p : Pc} (h : w.calls[i]? = some (c, p))
    (hp : p.loop = .out) {p' : Pc} (hp' : p'.loop = .out) : (w.setPc i c p').view = w.view := by
  have hout : w.view.pc i = .out := (pc_of_call h).trans hp
  rw [view_setPc h, hp', ← hout, Function.update_eq_self]

/-- **The counter is a cell that is updated in a loop.** -/
theorem reach_view (h : Reach (machine A) w) :
    Reach (CompareExchange.machine consume 0) w.view := by
  refine h.simulate view (fun w hw => .init ?_) fun w l w' _ ih _ hs => ?_
  · obtain rfl : w = {} := hw
    rfl
  · cases l with
    | call c =>
      obtain rfl := Option.some.inj hs
      have hview : view { w with calls := w.calls ++ [(c, c.start)] } = w.view := by
        unfold view
        rw [pc_call]
      exact .inr (hview ▸ ih)
    | failNext count =>
      obtain rfl := Option.some.inj hs
      exact .inl (Run.single trivial (CompareExchange.Step.store count))
    | disconnect | reconnect =>
      obtain rfl := Option.some.inj hs
      exact .inr ih
    | run i =>
      obtain ⟨⟨c, p⟩, hi, hrun⟩ := Option.bind_eq_some_iff.mp hs
      have hpc : w.view.pc i = p.loop := pc_of_call hi
      cases p with
      | readConnected op =>
        simp only [run] at hrun
        split_ifs at hrun with hconnected
        · obtain rfl := Option.some.inj hrun
          refine .inl (Run.single trivial (l := .inr i) ?_)
          rw [view_setPc hi]
          exact .enter hpc
        · obtain rfl := Option.some.inj hrun
          refine .inr ?_
          rw [view_setPc_out hi rfl rfl]
          exact ih
      | readFailNext op =>
        simp only [run] at hrun
        split_ifs at hrun with hle
        · obtain rfl := Option.some.inj hrun
          refine .inl (Run.single trivial (l := .inl (.declined i)) ?_)
          show CompareExchange.Step consume w.view (.inl (.declined i))
            { (w.setPc i c .inner).view with trace := .declined i :: w.trace }
          rw [view_setPc hi]
          exact .decline hpc (if_pos hle)
        · obtain rfl := Option.some.inj hrun
          refine .inl (Run.single trivial (l := .inr i) ?_)
          have hask : consume w.failNext ≠ none := by simp [consume, hle]
          rw [view_setPc hi]
          exact .look hpc hask
      | compareExchange op current =>
        simp only [run] at hrun
        split_ifs at hrun with hsame
        · obtain rfl := Option.some.inj hrun
          subst hsame
          have hask := CompareExchange.asked ih hpc
          have htaken : (consume w.failNext).getD w.failNext = w.failNext - 1 := by
            unfold consume at hask ⊢
            split_ifs at hask ⊢
            · exact absurd rfl hask
            · rfl
          refine .inl (Run.single trivial (l := .inl (.updated i)) ?_)
          show CompareExchange.Step consume w.view (.inl (.updated i))
            { (w.setPc i c (.thrown (.fault op))).view with
              value := w.failNext - 1, trace := .updated i :: w.trace }
          rw [view_setPc hi, ← htaken]
          exact .exchange hpc
        · obtain rfl := Option.some.inj hrun
          refine .inl (Run.single trivial (l := .inl (.retried i)) ?_)
          show CompareExchange.Step consume w.view (.inl (.retried i))
            { (w.setPc i c (.readFailNext op)).view with trace := .retried i :: w.trace }
          rw [view_setPc hi]
          exact .retry hpc hsame
      | inner =>
        obtain rfl := Option.some.inj hrun
        refine .inr ?_
        show Reach (CompareExchange.machine consume 0) (w.setPc i c .returned).view
        rw [view_setPc_out hi rfl rfl]
        exact ih
      | returned | thrown => exact absurd hrun nofun

end World

/-! ## Which calls fail -/

/-- What was armed last. -/
def armed : List Event → Int32
  | [] => 0
  | .stored count :: _ => count
  | .updated _ :: older | .declined _ :: older | .retried _ :: older => armed older

/-- How many calls took a fault or found none since. -/
def decided : List Event → Nat
  | [] | .stored _ :: _ => 0
  | .updated _ :: older | .declined _ :: older => decided older + 1
  | .retried _ :: older => decided older

/-- How many of them took a fault: the first ones, as many as were armed. -/
def faulted (t : List Event) : Int := min (decided t) (max (armed t).toInt 0)

theorem toInt_consume {v : Int32} (h : consume v ≠ none) :
    0 < v.toInt ∧ ((consume v).getD v).toInt = v.toInt - 1 := by
  unfold consume at h ⊢
  split_ifs at h ⊢ with hle
  · exact absurd rfl h
  · have hpos : 0 < v.toInt := by
      rw [Int32.le_iff_toInt_le] at hle
      simpa using hle
    have hlt := Int32.toInt_lt v
    refine ⟨hpos, ?_⟩
    rw [Option.getD_some, Int32.toInt_sub]
    show (v.toInt - 1).bmod (2 ^ 32) = _
    rw [Int.bmod_eq_of_le] <;> omega

theorem toInt_le_of_declined {v : Int32} (h : consume v = none) : v.toInt ≤ 0 := by
  unfold consume at h
  split_ifs at h with hle
  rw [Int32.le_iff_toInt_le] at hle
  simpa using hle

theorem toInt_replay {t : List Event}
    (h : Always (CompareExchange.Allowed consume 0) t) :
    (CompareExchange.replay consume 0 t).toInt = (armed t).toInt - faulted t := by
  induction t with
  | nil => rfl
  | cons e older ih =>
    obtain ⟨he, holder⟩ := h
    have ih := ih holder
    unfold faulted at ih ⊢
    cases e with
    | stored count =>
      show count.toInt = count.toInt - min ((0 : Nat) : Int) (max count.toInt 0)
      omega
    | retried i => exact ih
    | updated i =>
      obtain ⟨hpos, htaken⟩ := toInt_consume he
      simp only [CompareExchange.replay, armed, decided, htaken]
      omega
    | declined i =>
      have hle := toInt_le_of_declined he
      simp only [CompareExchange.replay, armed, decided]
      omega

/-! ## What becomes of a call -/

/-- What an access passes to `Guard`, or threw there. -/
def Pc.op : Pc → Option String
  | .readConnected op | .readFailNext op | .compareExchange op _ => some op
  | .thrown (.outage op) | .thrown (.fault op) => some op
  | .inner | .returned => none

def Pc.faulted : Pc → Bool
  | .thrown (.fault _) => true
  | _ => false

def Pc.passed : Pc → Bool
  | .inner | .returned => true
  | _ => false

namespace World

variable {w w' : World A}

/-- What has become of a call: how often it took a fault, how often it found none, and with what it
reached the inner bus. -/
def fate (w : World A) (i : Nat) : Nat × Nat × List (Nat × BusCall A) :=
  (w.trace.count (.updated i), w.trace.count (.declined i), w.reached.filter (·.1 = i))

end World

/-- The fate of a call, told from where it is. -/
def Pc.fate (i : Nat) (c : BusCall A) (p : Pc) : Nat × Nat × List (Nat × BusCall A) :=
  (p.faulted.toNat, (c.guarded.isSome && p.passed).toNat, if p = .returned then [(i, c)] else [])

/-- The call passes to `Guard` what is said of it. -/
def Pc.Named (c : BusCall A) (p : Pc) : Prop := ∀ op, p.op = some op → c.guarded = some op

namespace World

variable {w w' : World A}

/-- An access moves its call on, and says nothing about the others. -/
theorem run_fate {i : Nat} {c : BusCall A} {p : Pc} (h : w.run i c p = some w')
    (hop : p.Named c) (hfate : w.fate i = p.fate i c) :
    ∃ p' : Pc, w'.calls = w.calls.set i (c, p') ∧ p'.Named c ∧ w'.fate i = p'.fate i c ∧
      ∀ j ≠ i, w'.fate j = w.fate j := by
  cases p with
  | readConnected op =>
    simp only [run] at h
    split_ifs at h <;> obtain rfl := Option.some.inj h <;>
      exact ⟨_, rfl, hop, hfate, fun _ _ => rfl⟩
  | readFailNext op =>
    have hguard := hop op rfl
    simp only [run] at h
    split_ifs at h
    · obtain rfl := Option.some.inj h
      refine ⟨_, rfl, nofun, ?_, fun j hj => ?_⟩
      · simpa [fate, Pc.fate, record, setPc, Pc.faulted, Pc.passed, hguard] using hfate
      · simp [fate, record, setPc, Ne.symm hj]
    · obtain rfl := Option.some.inj h
      exact ⟨_, rfl, hop, hfate, fun _ _ => rfl⟩
  | compareExchange op current =>
    simp only [run] at h
    split_ifs at h
    · obtain rfl := Option.some.inj h
      refine ⟨_, rfl, hop, ?_, fun j hj => ?_⟩
      · simpa [fate, Pc.fate, record, setPc, Pc.faulted, Pc.passed] using hfate
      · simp [fate, record, setPc, Ne.symm hj]
    · obtain rfl := Option.some.inj h
      refine ⟨_, rfl, hop, ?_, fun j _ => ?_⟩
      · simpa [fate, Pc.fate, record, setPc, Pc.faulted, Pc.passed] using hfate
      · simp [fate, record, setPc]
  | inner =>
    obtain rfl := Option.some.inj h
    refine ⟨_, rfl, nofun, ?_, fun j hj => ?_⟩
    · simpa [fate, Pc.fate, setPc, Pc.faulted, Pc.passed] using hfate
    · simp [fate, setPc, Ne.symm hj]
  | returned | thrown => exact absurd h nofun

/-- Every call is accounted for, and nothing else is. -/
structure Books (w : World A) : Prop where
  named : ∀ x ∈ w.calls, x.2.Named x.1
  fates : ∀ i, w.fate i = w.calls[i]?.elim (0, 0, []) fun x => x.2.fate i x.1

theorem named_start (c : BusCall A) : c.start.Named c := by
  cases c <;> simp [BusCall.start, BusCall.guarded, Pc.Named, Pc.op]

theorem fate_start (i : Nat) (c : BusCall A) : c.start.fate i c = (0, 0, []) := by
  cases c <;> rfl

theorem books (h : Reach (machine A) w) : Books w := by
  refine h.invariant (fun w hw => ?_) fun w l w' _ ih _ hs => ?_
  · obtain rfl : w = {} := hw
    exact ⟨by simp, fun _ => rfl⟩
  · cases l with
    | call c =>
      obtain rfl := Option.some.inj hs
      refine ⟨fun x hx => ?_, fun i => ?_⟩
      · rcases List.mem_append.mp hx with hold | hnew
        · exact ih.named x hold
        · obtain rfl := List.mem_singleton.mp hnew
          exact named_start c
      · refine (ih.fates i).trans ?_
        rw [List.getElem?_append]
        split_ifs with hi
        · rfl
        · rw [List.getElem?_eq_none (Nat.le_of_not_lt hi)]
          cases hlast : [(c, c.start)][i - w.calls.length]? with
          | none => rfl
          | some x =>
            obtain rfl := List.mem_singleton.mp (List.mem_of_getElem? hlast)
            exact (fate_start i c).symm
    | failNext count =>
      obtain rfl := Option.some.inj hs
      refine ⟨ih.named, fun i => Eq.trans ?_ (ih.fates i)⟩
      simp [fate, record]
    | disconnect | reconnect =>
      obtain rfl := Option.some.inj hs
      exact ⟨ih.named, ih.fates⟩
    | run i =>
      obtain ⟨⟨c, p⟩, hi, hrun⟩ := Option.bind_eq_some_iff.mp hs
      have hlt : i < w.calls.length := (List.getElem?_eq_some_iff.mp hi).1
      have hfate := ih.fates i
      rw [hi] at hfate
      obtain ⟨p', hcalls, hnamed, hnew, hothers⟩ :=
        run_fate hrun (ih.named _ (List.mem_of_getElem? hi)) hfate
      refine ⟨fun x hx => ?_, fun j => ?_⟩
      · rw [hcalls] at hx
        rcases List.mem_or_eq_of_mem_set hx with hold | rfl
        · exact ih.named x hold
        · exact hnamed
      · rw [hcalls, List.getElem?_set]
        by_cases hj : i = j
        · subst hj
          rw [if_pos rfl, if_pos hlt]
          exact hnew
        · rw [if_neg hj, ← ih.fates j]
          exact hothers j (Ne.symm hj)

/-- **The first calls fail**, as many as were armed, whatever comes between their accesses: the
counter is short by what was taken since, a call that takes a fault comes early enough, and one that
finds none too late. Each call has one fate, and reaches the inner bus as it was made when it is no
fault. -/
theorem first_calls_fail (h : Reach (machine A) w) :
    w.failNext.toInt = (armed w.trace).toInt - faulted w.trace ∧
      (∀ newer i older, w.trace = newer ++ .updated i :: older →
        (decided older : Int) < (armed older).toInt) ∧
      (∀ newer i older, w.trace = newer ++ .declined i :: older →
        (armed older).toInt ≤ decided older) ∧
      ∀ i c p, w.calls[i]? = some (c, p) → w.fate i = p.fate i c := by
  obtain ⟨hvalue, hallowed⟩ := CompareExchange.linearized (reach_view h)
  have hreplay := toInt_replay hallowed
  refine ⟨?_, fun newer i older htrace => ?_, fun newer i older htrace => ?_, fun i c p hi => ?_⟩
  · rw [show w.failNext = _ from hvalue]
    exact hreplay
  · have hat : Always (CompareExchange.Allowed consume 0) (newer ++ .updated i :: older) :=
      htrace ▸ hallowed
    obtain ⟨hpos, -⟩ := toInt_consume hat.at
    rw [toInt_replay hat.before, faulted] at hpos
    omega
  · have hat : Always (CompareExchange.Allowed consume 0) (newer ++ .declined i :: older) :=
      htrace ▸ hallowed
    have hle := toInt_le_of_declined hat.at
    rw [toInt_replay hat.before, faulted] at hle
    omega
  · rw [(books h).fates i, hi]
    rfl

abbrev noArguments : ArgTypes := ⟨Unit, Unit, Unit, Unit⟩

def publishing : BusCall noArguments := .publishAsync "t" "a" none none ()

/-- Two calls that see the one fault, and the slower of them. -/
def racing : List (Label noArguments) :=
  [.failNext 1, .call publishing, .call publishing, .run 0, .run 1, .run 0, .run 1, .run 0, .run 1,
    .run 1, .run 1]

theorem reach_play (ls : List (Label A)) : Reach (machine A) (play step {} ls) :=
  Machine.reach_play (fun _ _ _ => id) rfl ls

theorem first_calls_fail_race :
    (play step {} racing).fate 1 = (0, 1, [(1, publishing)]) :=
  (first_calls_fail (reach_play racing)).2.2.2 1 publishing .returned rfl

/-- **No call loops for nothing**: it goes round again at most once for each fault that was taken
and each arming. -/
theorem rounds_bounded (h : Reach (machine A) w) (i : Nat) :
    w.trace.countP (CompareExchange.Event.retries i) ≤
      w.trace.countP CompareExchange.Event.writes :=
  CompareExchange.retries_le_writes (reach_view h) i

theorem rounds_bounded_race :
    (play step {} racing).trace.countP (CompareExchange.Event.retries 1) ≤ 2 :=
  (rounds_bounded (reach_play racing) 1).trans (by decide)

end World

end MessagingPoc.NetFaultInjectingBus
