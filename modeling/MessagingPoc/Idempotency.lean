import MessagingPoc.Lib.Machine
import Mathlib.Data.Int.Basic
import Mathlib.Logic.Function.Basic

/-!
# The idempotent consumer

`idempotentHandler` of `idempotency-store.ts` (`IdempotentHandler.Wrap` of `IIdempotencyStore.cs`)
over an at-least-once queue. A delivery is an *attempt*: the wrapper asks the store, then either
acks the message or runs the inner handler, and the consumer may crash at any point. The three are
separate steps, so attempts interleave freely; each call of the store reads the clock, which may
show anything.

The mark is written before the work is done, and never taken back. So a message is acked unprocessed
whenever its key was marked within the window, also when the attempt that marked it failed
(`failed_attempt_is_skipped`); `skips_only_marked` says that this is the only case.
-/

namespace MessagingPoc

namespace Idempotency

open Machine

/-! ## The store -/

/-- `InMemoryIdempotencyStore.seen`: key to expiry, in milliseconds. -/
abbrev Seen := String → Option Int

/-- The expiry of a mark. -/
def expiry (now ttlSeconds : Int) : Int := now + ttlSeconds * 1000

/-- `tryMarkSeen`: `true` for a duplicate within the time window. -/
def tryMarkSeen (seen : Seen) (now : Int) (key : String) (ttlSeconds : Int) : Bool × Seen :=
  if (seen key).any (· > now) then (true, seen)
  else (false, Function.update seen key (some (expiry now ttlSeconds)))

/-- How a call of the store ends: with an answer, or with an error, before or after it took
effect. -/
inductive StoreCall
  | answers
  | failsBefore
  | failsAfter
deriving DecidableEq, Repr

/-! ## Attempts -/

/-- How a run of the inner handler ends. -/
inductive InnerResult
  | acks
  | throws
  | nacks
  /-- It returns without settling. -/
  | leaves
deriving DecidableEq, Repr

/-- Where the wrapper stands with a delivery. -/
inductive Point
  | asking
  | answered (alreadySeen : Bool)
  | running
  /-- The inner handler has returned without settling: the message stays in flight. -/
  | held
  | over
deriving DecidableEq, Repr

structure Attempt (μ : Type) where
  message : μ
  point : Point
deriving DecidableEq

/-- What happened; the first field is the number of the attempt. -/
inductive Happened
  /-- The store marked the key. -/
  | marked (d : Nat) (key : String) (now : Int)
  /-- The store found the key marked. -/
  | seen (d : Nat) (key : String) (now : Int)
  /-- The store threw. -/
  | down (d : Nat)
  | started (d : Nat)
  | ended (d : Nat) (r : InnerResult)
  /-- The wrapper acked the message without running the inner handler. -/
  | skipped (d : Nat)
  | crashed (d : Nat)
deriving DecidableEq

/-- The attempt something happened to. -/
def Happened.attempt : Happened → Nat
  | .marked d _ _ | .seen d _ _ | .down d | .started d | .ended d _ | .skipped d | .crashed d => d

/-- A queue of messages, the attempts made with them, and the store. -/
structure Wrapped (μ : Type) where
  seen : Seen := fun _ => none
  pending : List μ := []
  attempts : List (Attempt μ) := []
  /-- Ghost, newest first. -/
  history : List Happened := []

inductive Act (μ : Type)
  | publish (m : μ)
  | deliver (i : Nat)
  | ask (d : Nat) (now : Int) (call : StoreCall)
  | proceed (d : Nat)
  | finish (d : Nat) (r : InnerResult)
  | crash (d : Nat)

variable {μ : Type} (keyOf : μ → String) (ttlSeconds : Int)

namespace Wrapped

/-- An attempt moves on, with what happened. -/
def move (s : Wrapped μ) (d : Nat) (m : μ) (p : Point) (events : List Happened) : Wrapped μ :=
  { s with attempts := s.attempts.set d ⟨m, p⟩, history := events ++ s.history }

/-- `store.tryMarkSeen(keyOf(m), ttlSeconds)` and the `catch` around it. -/
def ask (s : Wrapped μ) (d : Nat) (m : μ) (now : Int) (call : StoreCall) : Wrapped μ :=
  let (alreadySeen, seen) := tryMarkSeen s.seen now (keyOf m) ttlSeconds
  let event := if alreadySeen then .seen d (keyOf m) now else .marked d (keyOf m) now
  match call with
  | .answers => { s.move d m (.answered alreadySeen) [event] with seen := seen }
  -- Store unavailable: process the message.
  | .failsBefore => s.move d m (.answered false) [.down d]
  | .failsAfter => { s.move d m (.answered false) [.down d, event] with seen := seen }

/-- The queue's side of the end of a run of the inner handler: what throws or nacks is handed back
for redelivery. -/
def finish (s : Wrapped μ) (d : Nat) (m : μ) (r : InnerResult) : Wrapped μ :=
  match r with
  | .acks => s.move d m .over [.ended d r]
  | .throws | .nacks => { s.move d m .over [.ended d r] with pending := s.pending ++ [m] }
  | .leaves => s.move d m .held [.ended d r]

def step (s : Wrapped μ) : Act μ → Option (Wrapped μ)
  | .publish m => some { s with pending := s.pending ++ [m] }
  | .deliver i => s.pending[i]?.map fun m =>
      { s with pending := s.pending.eraseIdx i, attempts := s.attempts ++ [⟨m, .asking⟩] }
  | .ask d now call =>
    match s.attempts[d]? with
    | some ⟨m, .asking⟩ => some (s.ask keyOf ttlSeconds d m now call)
    | _ => none
  | .proceed d =>
    match s.attempts[d]? with
    | some ⟨m, .answered true⟩ => some (s.move d m .over [.skipped d])
    | some ⟨m, .answered false⟩ => some (s.move d m .running [.started d])
    | _ => none
  | .finish d r =>
    match s.attempts[d]? with
    | some ⟨m, .running⟩ => some (s.finish d m r)
    | _ => none
  | .crash d =>
    match s.attempts[d]? with
    | some ⟨_, .over⟩ | none => none
    | some ⟨m, _⟩ => some { s.move d m .over [.crashed d] with pending := m :: s.pending }

end Wrapped

/-- The wrapper, its store and its queue under every interleaving. -/
def machine : System (Wrapped μ) (Act μ) where
  init s := s = {}
  step s a s' := s.step keyOf ttlSeconds a = some s'

/-! ## What a step does -/

/-- One attempt moves on: from where, to where, what happened, and the store afterwards. -/
inductive Turn (s : Wrapped μ) (d : Nat) (m : μ) :
    Point → Point → List Happened → Seen → Prop
  | seen {now : Int} (h : (s.seen (keyOf m)).any (· > now) = true) {p : Point}
      {after : List Happened} (hp : (p = .answered true ∧ after = []) ∨
        (p = .answered false ∧ after = [.down d])) :
      Turn s d m .asking p (after ++ [.seen d (keyOf m) now]) s.seen
  | marked {now : Int} {after : List Happened} (hafter : after = [] ∨ after = [.down d]) :
      Turn s d m .asking (.answered false) (after ++ [.marked d (keyOf m) now])
        (Function.update s.seen (keyOf m) (some (expiry now ttlSeconds)))
  | down : Turn s d m .asking (.answered false) [.down d] s.seen
  | skip : Turn s d m (.answered true) .over [.skipped d] s.seen
  | start : Turn s d m (.answered false) .running [.started d] s.seen
  | finish {p : Point} {r : InnerResult} (hp : p = .over ∨ p = .held) :
      Turn s d m .running p [.ended d r] s.seen
  | crash {p : Point} : Turn s d m p .over [.crashed d] s.seen

variable {keyOf ttlSeconds}

namespace Wrapped

theorem ask_turn (s : Wrapped μ) (d : Nat) (m : μ) (now : Int) (call : StoreCall) :
    ∃ p events,
      Turn keyOf ttlSeconds s d m .asking p events (s.ask keyOf ttlSeconds d m now call).seen ∧
      (s.ask keyOf ttlSeconds d m now call).attempts = s.attempts.set d ⟨m, p⟩ ∧
      (s.ask keyOf ttlSeconds d m now call).history = events ++ s.history := by
  unfold ask tryMarkSeen
  by_cases h : (s.seen (keyOf m)).any (· > now) = true
  · simp only [h, if_true]
    cases call with
    | answers => exact ⟨_, _, .seen h (.inl ⟨rfl, rfl⟩), rfl, rfl⟩
    | failsBefore => exact ⟨_, _, .down, rfl, rfl⟩
    | failsAfter => exact ⟨_, _, .seen h (.inr ⟨rfl, rfl⟩), rfl, rfl⟩
  · simp only [h, if_false, Bool.false_eq_true]
    cases call with
    | answers => exact ⟨_, _, .marked (.inl rfl), rfl, rfl⟩
    | failsBefore => exact ⟨_, _, .down, rfl, rfl⟩
    | failsAfter => exact ⟨_, _, .marked (.inr rfl), rfl, rfl⟩

/-- **A step begins an attempt, or moves one on.** -/
theorem step_turn {s s' : Wrapped μ} {a : Act μ} (h : s.step keyOf ttlSeconds a = some s') :
    (s'.seen = s.seen ∧ s'.history = s.history ∧
      ∃ more : List (Attempt μ), s'.attempts = s.attempts ++ more ∧
        ∀ x ∈ more, x.point = .asking) ∨
    ∃ d m p p' events, s.attempts[d]? = some ⟨m, p⟩ ∧
      Turn keyOf ttlSeconds s d m p p' events s'.seen ∧
      s'.attempts = s.attempts.set d ⟨m, p'⟩ ∧ s'.history = events ++ s.history := by
  cases a with
  | publish m =>
    obtain rfl := Option.some.inj h
    exact .inl ⟨rfl, rfl, [], (List.append_nil _).symm, by simp⟩
  | deliver i =>
    simp only [step, Option.map_eq_some_iff] at h
    obtain ⟨m, -, rfl⟩ := h
    exact .inl ⟨rfl, rfl, [⟨m, .asking⟩], rfl, by simp⟩
  | ask d now call =>
    simp only [step] at h
    split at h
    · rename_i m hd
      obtain rfl := Option.some.inj h
      obtain ⟨p, events, hturn, hattempts, hhistory⟩ := s.ask_turn d m now call
      exact .inr ⟨d, m, .asking, p, events, hd, hturn, hattempts, hhistory⟩
    · simp at h
  | proceed d =>
    simp only [step] at h
    split at h
    · rename_i m hd
      obtain rfl := Option.some.inj h
      exact .inr ⟨d, m, _, _, _, hd, .skip, rfl, rfl⟩
    · rename_i m hd
      obtain rfl := Option.some.inj h
      exact .inr ⟨d, m, _, _, _, hd, .start, rfl, rfl⟩
    · simp at h
  | finish d r =>
    simp only [step] at h
    split at h
    · rename_i m hd
      obtain rfl := Option.some.inj h
      cases r with
      | leaves => exact .inr ⟨d, m, _, _, _, hd, .finish (.inr rfl), rfl, rfl⟩
      | _ => exact .inr ⟨d, m, _, _, _, hd, .finish (.inl rfl), rfl, rfl⟩
    · simp at h
  | crash d =>
    simp only [step] at h
    split at h
    · simp at h
    · simp at h
    · rename_i m p _ hd
      obtain rfl := Option.some.inj h
      exact .inr ⟨d, m, p, _, _, hd, .crash, rfl, rfl⟩

end Wrapped

namespace Turn

variable {s : Wrapped μ} {d : Nat} {m : μ} {p p' : Point} {events : List Happened} {seen' : Seen}

/-- The store answers that a key was seen only while its mark has not expired. -/
theorem of_seen (h : Turn keyOf ttlSeconds s d m p p' events seen') {x : Nat} {key : String}
    {t : Int} (hx : .seen x key t ∈ events) :
    x = d ∧ p = .asking ∧ key = keyOf m ∧ ∃ e, s.seen key = some e ∧ t < e := by
  cases h with
  | seen hany hp =>
    obtain ⟨rfl, rfl, rfl⟩ : x = d ∧ key = keyOf m ∧ t = _ := by
      rcases hp with ⟨-, rfl⟩ | ⟨-, rfl⟩ <;> simpa using hx
    refine ⟨rfl, rfl, rfl, ?_⟩
    cases hkey : s.seen (keyOf m) with
    | none => simp [hkey] at hany
    | some e => exact ⟨e, rfl, by simpa [hkey] using hany⟩
  | marked hafter => rcases hafter with rfl | rfl <;> simp at hx
  | _ => simp at hx

theorem of_marked (h : Turn keyOf ttlSeconds s d m p p' events seen') {x : Nat} {key : String}
    {t : Int} (hx : .marked x key t ∈ events) :
    x = d ∧ key = keyOf m ∧ p' = .answered false := by
  cases h with
  | seen _ hp => rcases hp with ⟨-, rfl⟩ | ⟨-, rfl⟩ <;> simp at hx
  | marked hafter =>
    obtain ⟨rfl, rfl, -⟩ : x = d ∧ key = keyOf m ∧ t = _ := by
      rcases hafter with rfl | rfl <;> simpa using hx
    exact ⟨rfl, rfl, rfl⟩
  | _ => simp at hx

/-- What the store holds afterwards it held before, or has just marked. -/
theorem expiries (h : Turn keyOf ttlSeconds s d m p p' events seen') {key : String} {e : Int}
    (he : seen' key = some e) :
    s.seen key = some e ∨ ∃ t, .marked d key t ∈ events ∧ e = expiry t ttlSeconds := by
  cases h with
  | @marked now after =>
    rw [Function.update_apply] at he
    split_ifs at he with hkey
    · exact .inr ⟨now, by simp [hkey], (Option.some.inj he).symm⟩
    · exact .inl he
  | _ => exact .inl he

theorem answered (h : Turn keyOf ttlSeconds s d m p (.answered true) events seen') :
    ∃ t, .seen d (keyOf m) t ∈ events := by
  cases h with
  | @seen now => exact ⟨now, by simp⟩
  | finish hp => simp at hp

/-- What the store did not recognise goes through the inner handler, unless the consumer crashes. -/
theorem handled (h : Turn keyOf ttlSeconds s d m p p' events seen')
    (hp : p = .answered false ∨ p = .running) :
    p' = .running ∨ (∃ r, .ended d r ∈ events) ∨ .crashed d ∈ events := by
  cases h with
  | start => exact .inl rfl
  | @finish _ r => exact .inr (.inl ⟨r, List.mem_cons_self⟩)
  | crash => exact .inr (.inr List.mem_cons_self)
  | _ => simp at hp

theorem attempt (h : Turn keyOf ttlSeconds s d m p p' events seen') :
    ∀ e ∈ events, e.attempt = d := by
  cases h with
  | seen _ hp => rcases hp with ⟨-, rfl⟩ | ⟨-, rfl⟩ <;> simp [Happened.attempt]
  | marked hafter => rcases hafter with rfl | rfl <;> simp [Happened.attempt]
  | _ => simp [Happened.attempt]

theorem not_asking (h : Turn keyOf ttlSeconds s d m p p' events seen') : p' ≠ .asking := by
  cases h with
  | seen _ hp => rcases hp with ⟨rfl, -⟩ | ⟨rfl, -⟩ <;> simp
  | finish hp => rcases hp with rfl | rfl <;> simp
  | _ => simp

end Turn

/-! ## The mark behind a skip -/

/-- The inner handler is about to run for the attempt or is running, or has ended, well or not, or
the consumer crashed. -/
def Handled (s : Wrapped μ) (d : Nat) (a : Attempt μ) : Prop :=
  (a.point = .answered false ∨ a.point = .running) ∨ (∃ r, .ended d r ∈ s.history) ∨
    .crashed d ∈ s.history

/-- Marks, answers and attempts agree with what happened. -/
structure Tracked (keyOf : μ → String) (ttlSeconds : Int) (s : Wrapped μ) : Prop where
  expiries : ∀ key e, s.seen key = some e →
    ∃ d t, .marked d key t ∈ s.history ∧ e = expiry t ttlSeconds
  begun : ∀ e ∈ s.history, ∃ a, s.attempts[e.attempt]? = some a ∧ a.point ≠ .asking
  answered : ∀ d m, s.attempts[d]? = some ⟨m, .answered true⟩ →
    ∃ t, .seen d (keyOf m) t ∈ s.history
  asked : ∀ d key t, .seen d key t ∈ s.history →
    ∃ a, s.attempts[d]? = some a ∧ keyOf a.message = key
  marks : ∀ d key t, .marked d key t ∈ s.history →
    ∃ a, s.attempts[d]? = some a ∧ keyOf a.message = key ∧ Handled s d a

theorem Tracked.begins {s s' : Wrapped μ} (h : Tracked keyOf ttlSeconds s)
    (hseen : s'.seen = s.seen) (hhistory : s'.history = s.history) {more : List (Attempt μ)}
    (hattempts : s'.attempts = s.attempts ++ more) (hasking : ∀ x ∈ more, x.point = .asking) :
    Tracked keyOf ttlSeconds s' := by
  have hold : ∀ (d : Nat) (a : Attempt μ), s.attempts[d]? = some a →
      s'.attempts[d]? = some a := fun d a ha => by
    obtain ⟨hlt, -⟩ := List.getElem?_eq_some_iff.mp ha
    rw [hattempts, List.getElem?_append_left hlt, ha]
  refine ⟨?_, fun e he => ?_, fun d m hd => ?_, fun d key t hx => ?_, fun d key t hx => ?_⟩
  · rw [hseen, hhistory]
    exact h.expiries
  · obtain ⟨a, ha, hpoint⟩ := h.begun e (hhistory ▸ he)
    exact ⟨a, hold _ a ha, hpoint⟩
  · rw [hhistory]
    rw [hattempts, List.getElem?_append] at hd
    split_ifs at hd
    · exact h.answered d m hd
    · exact absurd (hasking _ (List.mem_of_getElem? hd)) (by simp)
  · obtain ⟨a, ha, hkey⟩ := h.asked d key t (hhistory ▸ hx)
    exact ⟨a, hold d a ha, hkey⟩
  · obtain ⟨a, ha, hkey, hhandled⟩ := h.marks d key t (hhistory ▸ hx)
    refine ⟨a, hold d a ha, hkey, ?_⟩
    unfold Handled
    rw [hhistory]
    exact hhandled

theorem Handled.turn {s s' : Wrapped μ} {d : Nat} {m : μ} {p p' : Point}
    {events : List Happened} {seen' : Seen} (h : Handled s d ⟨m, p⟩)
    (hturn : Turn keyOf ttlSeconds s d m p p' events seen')
    (hhistory : s'.history = events ++ s.history) : Handled s' d ⟨m, p'⟩ := by
  have hmem : ∀ {e}, e ∈ s.history → e ∈ s'.history := fun he => by
    rw [hhistory]
    exact List.mem_append_right events he
  have hnew : ∀ {e}, e ∈ events → e ∈ s'.history := fun he => by
    rw [hhistory]
    exact List.mem_append_left _ he
  rcases h with hp | ⟨r, hended⟩ | hcrashed
  · rcases hturn.handled hp with hp' | ⟨r, hended⟩ | hcrashed
    · exact .inl (.inr hp')
    · exact .inr (.inl ⟨r, hnew hended⟩)
    · exact .inr (.inr (hnew hcrashed))
  · exact .inr (.inl ⟨r, hmem hended⟩)
  · exact .inr (.inr (hmem hcrashed))

theorem Tracked.turn {s s' : Wrapped μ} (h : Tracked keyOf ttlSeconds s) {d : Nat} {m : μ}
    {p p' : Point} {events : List Happened} (hd : s.attempts[d]? = some ⟨m, p⟩)
    (hturn : Turn keyOf ttlSeconds s d m p p' events s'.seen)
    (hattempts : s'.attempts = s.attempts.set d ⟨m, p'⟩)
    (hhistory : s'.history = events ++ s.history) : Tracked keyOf ttlSeconds s' := by
  have hget : ∀ x, s'.attempts[x]? = if d = x then some ⟨m, p'⟩ else s.attempts[x]? := by
    obtain ⟨hlt, -⟩ := List.getElem?_eq_some_iff.mp hd
    intro x
    rw [hattempts, List.getElem?_set]
    simp [hlt]
  have hmem : ∀ {e}, e ∈ s.history → e ∈ s'.history := fun he => by
    rw [hhistory]
    exact List.mem_append_right events he
  have hnew : ∀ {e}, e ∈ events → e ∈ s'.history := fun he => by
    rw [hhistory]
    exact List.mem_append_left _ he
  -- An attempt keeps its message.
  have hold : ∀ (x : Nat) (a : Attempt μ), s.attempts[x]? = some a →
      ∃ a' : Attempt μ, s'.attempts[x]? = some a' ∧ a'.message = a.message := fun x a ha => by
    rw [hget]
    split_ifs with hx
    · subst hx
      obtain rfl := Option.some.inj (hd.symm.trans ha)
      exact ⟨_, rfl, rfl⟩
    · exact ⟨a, ha, rfl⟩
  refine ⟨fun key e he => ?_, fun e he => ?_, fun x m' hx => ?_, fun x key t hx => ?_,
    fun x key t hx => ?_⟩
  · rcases hturn.expiries he with he | ⟨t, ht, rfl⟩
    · obtain ⟨d₀, t, ht, rfl⟩ := h.expiries key e he
      exact ⟨d₀, t, hmem ht, rfl⟩
    · exact ⟨d, t, hnew ht, rfl⟩
  · rw [hhistory, List.mem_append] at he
    rcases he with he | he
    · exact ⟨⟨m, p'⟩, by rw [hget, if_pos (hturn.attempt e he).symm], hturn.not_asking⟩
    · obtain ⟨a, ha, hpoint⟩ := h.begun e he
      by_cases hde : d = e.attempt
      · exact ⟨⟨m, p'⟩, by rw [hget, if_pos hde], hturn.not_asking⟩
      · exact ⟨a, by rw [hget, if_neg hde]; exact ha, hpoint⟩
  · rw [hget] at hx
    split_ifs at hx with hdx
    · subst hdx
      simp only [Option.some.injEq, Attempt.mk.injEq] at hx
      obtain ⟨rfl, rfl⟩ := hx
      obtain ⟨t, ht⟩ := hturn.answered
      exact ⟨t, hnew ht⟩
    · obtain ⟨t, ht⟩ := h.answered x m' hx
      exact ⟨t, hmem ht⟩
  · rw [hhistory, List.mem_append] at hx
    rcases hx with hx | hx
    · obtain ⟨rfl, -, rfl, -⟩ := hturn.of_seen hx
      exact ⟨⟨m, p'⟩, by rw [hget, if_pos rfl], rfl⟩
    · obtain ⟨a, ha, hkey⟩ := h.asked x key t hx
      obtain ⟨a', ha', hmessage⟩ := hold x a ha
      exact ⟨a', ha', hmessage ▸ hkey⟩
  · rw [hhistory, List.mem_append] at hx
    rcases hx with hx | hx
    · obtain ⟨rfl, rfl, hp⟩ := hturn.of_marked hx
      exact ⟨⟨m, p'⟩, by rw [hget, if_pos rfl], rfl, .inl (.inl hp)⟩
    · obtain ⟨a, ha, hkey, hhandled⟩ := h.marks x key t hx
      by_cases hdx : d = x
      · subst hdx
        obtain rfl := Option.some.inj (hd.symm.trans ha)
        exact ⟨⟨m, p'⟩, by rw [hget, if_pos rfl], hkey, hhandled.turn hturn hhistory⟩
      · exact ⟨a, by rw [hget, if_neg hdx]; exact ha, hkey,
          hhandled.imp id (Or.imp (Exists.imp fun _ => hmem) hmem)⟩

theorem tracked {s : Wrapped μ} (h : Reach (machine keyOf ttlSeconds) s) :
    Tracked keyOf ttlSeconds s := by
  refine h.invariant (fun s hs => ?_) fun s a s' _ ih _ hstep => ?_
  · obtain rfl : s = {} := hs
    exact ⟨by simp, by simp, by simp, by simp, by simp⟩
  · rcases Wrapped.step_turn hstep with ⟨hseen, hhistory, more, hattempts, hasking⟩ |
      ⟨d, m, p, p', events, hd, hturn, hattempts, hhistory⟩
    · exact ih.begins hseen hhistory hattempts hasking
    · exact ih.turn hd hturn hattempts hhistory

/-- A key is found marked within the window of a mark made for another attempt, and only an attempt
whose key was found marked is skipped. -/
def Justified (ttlSeconds : Int) (e : Happened) (older : List Happened) : Prop :=
  (∀ d key t, e = .seen d key t →
    ∃ d₀ t₀, d₀ ≠ d ∧ .marked d₀ key t₀ ∈ older ∧ t < expiry t₀ ttlSeconds) ∧
  ∀ d, e = .skipped d → ∃ key t, .seen d key t ∈ older

theorem justified {s : Wrapped μ} (h : Reach (machine keyOf ttlSeconds) s) :
    Always (Justified ttlSeconds) s.history := by
  refine h.invariant (I := fun s => Always (Justified ttlSeconds) s.history)
    (fun s hs => ?_) fun s a s' hr ih _ hstep => ?_
  · obtain rfl : s = {} := hs
    trivial
  · have htracked := tracked hr
    rcases Wrapped.step_turn hstep with ⟨-, hhistory, -⟩ |
      ⟨d, m, p, p', events, hd, hturn, -, hhistory⟩
    · rw [hhistory]
      exact ih
    · rw [hhistory]
      have hseen : ∀ key t, .seen d key t ∈ events →
          Justified ttlSeconds (.seen d key t) s.history := by
        refine fun key t hx => ⟨fun d' key' t' heq => ?_, by simp⟩
        simp only [Happened.seen.injEq] at heq
        obtain ⟨rfl, rfl, rfl⟩ := heq
        obtain ⟨-, rfl, -, e, he, hlt⟩ := hturn.of_seen hx
        obtain ⟨d₀, t₀, hmarked, rfl⟩ := htracked.expiries _ e he
        refine ⟨d₀, t₀, fun hsame => ?_, hmarked, hlt⟩
        subst hsame
        obtain ⟨a, ha, hpoint⟩ := htracked.begun _ hmarked
        obtain rfl := Option.some.inj (hd.symm.trans ha)
        exact hpoint rfl
      clear hhistory hstep
      generalize s'.seen = seen' at hturn
      cases hturn with
      | seen _ hp =>
        rcases hp with ⟨-, rfl⟩ | ⟨-, rfl⟩
        · exact ⟨hseen _ _ (by simp), ih⟩
        · exact ⟨by simp [Justified], hseen _ _ (by simp), ih⟩
      | marked hafter =>
        rcases hafter with rfl | rfl
        · exact ⟨by simp [Justified], ih⟩
        · exact ⟨by simp [Justified], by simp [Justified], ih⟩
      | skip =>
        obtain ⟨t, ht⟩ := htracked.answered d m hd
        refine ⟨⟨by simp, fun d' heq => ?_⟩, ih⟩
        obtain rfl : d = d' := by simpa using heq
        exact ⟨_, t, ht⟩
      | _ => exact ⟨by simp [Justified], ih⟩

/-- **What a skip rests on.** The wrapper acks a message without running the inner handler only if
the store found its key marked within the window of the mark of another attempt with that key, made
earlier and handled. -/
theorem skips_only_marked {s : Wrapped μ} (h : Reach (machine keyOf ttlSeconds) s)
    {newer older : List Happened} {d : Nat} (hs : s.history = newer ++ .skipped d :: older) :
    ∃ a t d₀ a₀ t₀ mid oldest, s.attempts[d]? = some a ∧ s.attempts[d₀]? = some a₀ ∧ d₀ ≠ d ∧
      keyOf a₀.message = keyOf a.message ∧ older = mid ++ .seen d (keyOf a.message) t :: oldest ∧
      .marked d₀ (keyOf a.message) t₀ ∈ oldest ∧ t < expiry t₀ ttlSeconds ∧ Handled s d₀ a₀ := by
  have htracked := tracked h
  have hjustified := justified h
  rw [hs] at hjustified
  obtain ⟨key, t, hseen⟩ := hjustified.at.2 d rfl
  obtain ⟨mid, oldest, rfl⟩ := List.append_of_mem hseen
  obtain ⟨a, ha, rfl⟩ := htracked.asked d key t (by rw [hs]; simp)
  obtain ⟨d₀, t₀, hne, hmarked, hlt⟩ := hjustified.before.at.1 d _ t rfl
  obtain ⟨a₀, ha₀, hkey, hhandled⟩ := htracked.marks d₀ (keyOf a.message) t₀
    (by rw [hs]; simp [hmarked])
  exact ⟨a, t, d₀, a₀, t₀, mid, oldest, ha, ha₀, hne, hkey, rfl, hmarked, hlt, hhandled⟩

/-! ## A failed attempt -/

/-- Acts played from the start, skipping those that are not enabled. -/
def play (keyOf : μ → String) (ttlSeconds : Int) (acts : List (Act μ)) : Wrapped μ :=
  Machine.play (Wrapped.step keyOf ttlSeconds) {} acts

theorem reach_play (acts : List (Act μ)) :
    Reach (machine keyOf ttlSeconds) (play keyOf ttlSeconds acts) :=
  Machine.reach_play (fun _ _ _ => id) rfl acts

/-- The key of a message is its body. The first attempt is marked and its handler throws; a second
later the message is redelivered, recognised, and acked. -/
def throwsOnce : List (Act String) :=
  [.publish "order-1", .deliver 0, .ask 0 0 .answers, .proceed 0, .finish 0 .throws, .deliver 0,
    .ask 1 1000 .answers, .proceed 1]

theorem skips_only_marked_once :
    ∃ a t d₀ a₀ t₀ mid oldest, (play id 300 throwsOnce).attempts[1]? = some a ∧
      (play id 300 throwsOnce).attempts[d₀]? = some a₀ ∧ d₀ ≠ 1 ∧
      id a₀.message = id a.message ∧
      (play id 300 (throwsOnce.take 7)).history = mid ++ .seen 1 (id a.message) t :: oldest ∧
      .marked d₀ (id a.message) t₀ ∈ oldest ∧ t < expiry t₀ 300 ∧
      Handled (play id 300 throwsOnce) d₀ a₀ :=
  have h : Reach (machine id 300) (play id 300 throwsOnce) := reach_play throwsOnce
  have hs : (play id 300 throwsOnce).history =
      [] ++ .skipped 1 :: (play id 300 (throwsOnce.take 7)).history := by decide
  skips_only_marked h hs

/-- **A failed attempt is skipped.** The message is acked although no attempt to handle it ever
succeeded. -/
theorem failed_attempt_is_skipped : ¬ ∀ s : Wrapped String, Reach (machine id 300) s →
    ∀ newer older d a, s.history = newer ++ .skipped d :: older → s.attempts[d]? = some a →
      ∃ d' a', s.attempts[d']? = some a' ∧ id a'.message = id a.message ∧
        .ended d' .acks ∈ older := by
  intro hclaim
  have h : Reach (machine id 300) (play id 300 throwsOnce) := reach_play throwsOnce
  have hs : (play id 300 throwsOnce).history = [] ++ .skipped 1 ::
      [.seen 1 "order-1" 1000, .ended 0 .throws, .started 0, .marked 0 "order-1" 0] := by decide
  obtain ⟨d', -, -, -, hended⟩ := hclaim _ h [] _ 1 ⟨"order-1", .over⟩ hs (by decide)
  simp at hended

end Idempotency

end MessagingPoc
