import MessagingPoc.Lib.Machine
import Mathlib.Algebra.Order.Group.Int
import Mathlib.Logic.Function.Basic

/-!
# The lock-guarded idempotency store

`InMemoryIdempotencyStore.cs`. A call reads the clock first and enters the lock later; in between,
time passes and other calls go by. The clock never goes back. Instants are UTC ticks; that the
expiry of a mark may lie past the last instant a `DateTimeOffset` can show is left out.

* `machine` — the store under every interleaving of its calls.
* `OneWinner` — the contract: no second winner within the window, measured where the lock is
  entered, and no duplicate without a winner.
* `oneWinner_iff` — the contract holds of a run exactly if no wait for the lock carries a call over
  the end of the window, in either direction.
* `oneWinner_of_prompt` — so it holds where no call waits for the lock.
-/

namespace MessagingPoc.IdempotencyStore

open Machine

/-! ## The store -/

/-- `_seen`: key to expiry. -/
abbrev Seen := String → Option ℤ

/-- `TimeSpan.FromSeconds(ttlSeconds)`. -/
def fromSeconds (ttlSeconds : ℤ) : ℤ := ttlSeconds * 10000000

/-- What `TryMarkSeenAsync` does inside the lock. -/
def tryMarkSeen (ttlSeconds : ℤ) (seen : Seen) (key : String) (now : ℤ) : Bool × Seen :=
  if (seen key).any (· > now) then (true, seen)
  else (false, Function.update seen key (some (now + fromSeconds ttlSeconds)))

/-- A call that has read the clock and not entered the lock. -/
structure Waiting where
  key : String
  now : ℤ
deriving DecidableEq

/-- A passage through the lock. -/
structure Entry where
  key : String
  /-- The clock when the lock was entered. -/
  entered : ℤ
  result : Bool
deriving DecidableEq

/-- The call that marked a key: its reading of the clock, and the clock when it entered the lock. -/
structure Mark where
  read : ℤ
  entered : ℤ
deriving DecidableEq

structure Store where
  clock : ℤ := 0
  seen : Seen := fun _ => none
  waiting : List Waiting := []
  /-- Ghost, the newest first. -/
  entries : List Entry := []
  /-- Ghost: who marked a key last. -/
  marks : String → Option Mark := fun _ => none

inductive Act
  | tick (ticks : ℕ)
  /-- A call begins: `var now = DateTimeOffset.UtcNow`. -/
  | call (key : String)
  /-- A waiting call enters the lock and returns. -/
  | enter (i : ℕ)

variable (ttlSeconds : ℤ)

namespace Store

def enter (s : Store) (i : ℕ) (c : Waiting) : Store :=
  let (result, seen) := tryMarkSeen ttlSeconds s.seen c.key c.now
  { s with
    seen := seen
    waiting := s.waiting.eraseIdx i
    entries := ⟨c.key, s.clock, result⟩ :: s.entries
    marks :=
      if result then s.marks else Function.update s.marks c.key (some ⟨c.now, s.clock⟩) }

def step (s : Store) : Act → Option Store
  | .tick ticks => some { s with clock := s.clock + ticks }
  | .call key => some { s with waiting := s.waiting ++ [⟨key, s.clock⟩] }
  | .enter i => s.waiting[i]?.map (s.enter ttlSeconds i)

end Store

/-- The store under every interleaving. -/
def machine : System Store Act where
  init s := s = {}
  step s a s' := s.step ttlSeconds a = some s'

/-! ## The contract -/

/-- The key was won less than the window before. -/
def Won (older : List Entry) (key : String) (entered : ℤ) : Prop :=
  ∃ e ∈ older, e.key = key ∧ e.result = false ∧ entered - e.entered < fromSeconds ttlSeconds

instance (older : List Entry) (key : String) (entered : ℤ) :
    Decidable (Won ttlSeconds older key entered) := by unfold Won; infer_instance

/-- Within the window of an earlier winner no call wins, and outside every window none is a
duplicate. -/
def OneWinner : List Entry → Prop :=
  Always fun e older =>
    (Won ttlSeconds older e.key e.entered → e.result ≠ false) ∧
      (e.result = true → Won ttlSeconds older e.key e.entered)

/-- A call that finds its key marked has read the clock less than the window after the call that
marked it did, exactly if it enters the lock less than the window after that call did. -/
def InStep (s : Store) : Act → Prop
  | .tick _ | .call _ => True
  | .enter i => ∀ c ∈ s.waiting[i]?, ∀ m ∈ s.marks c.key,
      (c.now < m.read + fromSeconds ttlSeconds ↔ s.clock < m.entered + fromSeconds ttlSeconds)

instance (s : Store) (a : Act) : Decidable (InStep ttlSeconds s a) :=
  match a with
  | .tick _ | .call _ => .isTrue trivial
  | .enter i => inferInstanceAs (Decidable (∀ c ∈ s.waiting[i]?, ∀ m ∈ s.marks c.key,
      (c.now < m.read + fromSeconds ttlSeconds ↔ s.clock < m.entered + fromSeconds ttlSeconds)))

/-! ## The marks -/

/-- What the marks say about the store and about the passages through the lock. -/
structure Marked (s : Store) : Prop where
  expiry : ∀ key, s.seen key = (s.marks key).map fun m => m.read + fromSeconds ttlSeconds
  past : ∀ e ∈ s.entries, e.entered ≤ s.clock
  last : ∀ e ∈ s.entries, e.result = false → ∃ m ∈ s.marks e.key, e.entered ≤ m.entered
  winner : ∀ key, ∀ m ∈ s.marks key,
    ∃ e ∈ s.entries, e.key = key ∧ e.result = false ∧ e.entered = m.entered

variable {ttlSeconds} {s s' : Store}

/-- **A step lets the clock or a call go on, or takes a call through the lock.** -/
theorem step_cases {a : Act} (h : s.step ttlSeconds a = some s') :
    (s'.entries = s.entries ∧ s'.seen = s.seen ∧ s'.marks = s.marks ∧ s.clock ≤ s'.clock ∧
      ∀ i, a ≠ .enter i) ∨
    ∃ i c, a = .enter i ∧ s.waiting[i]? = some c ∧ s' = s.enter ttlSeconds i c := by
  cases a with
  | tick ticks =>
    obtain rfl := Option.some.inj h
    exact .inl ⟨rfl, rfl, rfl, Int.le_add_of_nonneg_right (Int.natCast_nonneg ticks), nofun⟩
  | call key =>
    obtain rfl := Option.some.inj h
    exact .inl ⟨rfl, rfl, rfl, Int.le_refl s.clock, nofun⟩
  | enter i =>
    obtain ⟨c, hc, rfl⟩ := Option.map_eq_some_iff.mp h
    exact .inr ⟨i, c, rfl, hc, rfl⟩

theorem Marked.enter_cases (h : Marked ttlSeconds s) (i : ℕ) (c : Waiting) :
    ((∃ m ∈ s.marks c.key, c.now < m.read + fromSeconds ttlSeconds) ∧
      (s.enter ttlSeconds i c).entries = ⟨c.key, s.clock, true⟩ :: s.entries ∧
      (s.enter ttlSeconds i c).seen = s.seen ∧ (s.enter ttlSeconds i c).marks = s.marks) ∨
    ((∀ m ∈ s.marks c.key, ¬c.now < m.read + fromSeconds ttlSeconds) ∧
      (s.enter ttlSeconds i c).entries = ⟨c.key, s.clock, false⟩ :: s.entries ∧
      (s.enter ttlSeconds i c).seen =
        Function.update s.seen c.key (some (c.now + fromSeconds ttlSeconds)) ∧
      (s.enter ttlSeconds i c).marks =
        Function.update s.marks c.key (some ⟨c.now, s.clock⟩)) := by
  have hany : (s.seen c.key).any (· > c.now) = true ↔
      ∃ m ∈ s.marks c.key, c.now < m.read + fromSeconds ttlSeconds := by
    rw [h.expiry]
    cases s.marks c.key <;> simp
  unfold Store.enter tryMarkSeen
  by_cases hlive : ∃ m ∈ s.marks c.key, c.now < m.read + fromSeconds ttlSeconds
  · left
    rw [if_pos (hany.mpr hlive)]
    exact ⟨hlive, rfl, rfl, rfl⟩
  · right
    rw [if_neg (mt hany.mp hlive)]
    exact ⟨fun m hm hnow => hlive ⟨m, hm, hnow⟩, rfl, rfl, rfl⟩

theorem marked_init : Marked ttlSeconds {} where
  expiry _ := rfl
  past := nofun
  last := nofun
  winner := nofun

theorem Marked.enter (h : Marked ttlSeconds s) (i : ℕ) (c : Waiting) :
    Marked ttlSeconds (s.enter ttlSeconds i c) := by
  have hclock : (s.enter ttlSeconds i c).clock = s.clock := rfl
  rcases h.enter_cases i c with ⟨-, hentries, hseen, hmarks⟩ | ⟨-, hentries, hseen, hmarks⟩
  · refine ⟨?_, ?_, ?_, ?_⟩
    · rw [hseen, hmarks]
      exact h.expiry
    · rw [hentries, hclock]
      exact List.forall_mem_cons.mpr ⟨le_rfl, h.past⟩
    · rw [hentries, hmarks]
      exact List.forall_mem_cons.mpr ⟨nofun, h.last⟩
    · rw [hentries, hmarks]
      intro key m hm
      obtain ⟨e, he, hwon⟩ := h.winner key m hm
      exact ⟨e, List.mem_cons_of_mem _ he, hwon⟩
  · refine ⟨fun key => ?_, ?_, ?_, fun key m hm => ?_⟩
    · rw [hseen, hmarks]
      by_cases hkey : key = c.key
      · rw [hkey, Function.update_self, Function.update_self]
        rfl
      · rw [Function.update_of_ne hkey, Function.update_of_ne hkey]
        exact h.expiry key
    · rw [hentries, hclock]
      exact List.forall_mem_cons.mpr ⟨le_rfl, h.past⟩
    · rw [hentries, hmarks]
      refine List.forall_mem_cons.mpr ⟨fun _ => ⟨⟨c.now, s.clock⟩, ?_, le_rfl⟩, fun e he hwon => ?_⟩
      · exact Function.update_self ..
      by_cases hkey : e.key = c.key
      · rw [hkey, Function.update_self]
        exact ⟨_, rfl, h.past e he⟩
      · rw [Function.update_of_ne hkey]
        exact h.last e he hwon
    · rw [hentries]
      rw [hmarks] at hm
      by_cases hkey : key = c.key
      · rw [hkey, Function.update_self] at hm
        obtain rfl := Option.some.inj hm
        exact ⟨_, List.mem_cons_self, hkey.symm, rfl, rfl⟩
      · rw [Function.update_of_ne hkey] at hm
        obtain ⟨e, he, hwon⟩ := h.winner key m hm
        exact ⟨e, List.mem_cons_of_mem _ he, hwon⟩

theorem Marked.step (h : Marked ttlSeconds s) {a : Act} (hstep : s.step ttlSeconds a = some s') :
    Marked ttlSeconds s' := by
  rcases step_cases hstep with ⟨hentries, hseen, hmarks, hclock, -⟩ | ⟨i, c, rfl, -, rfl⟩
  · refine ⟨?_, ?_, ?_, ?_⟩
    · rw [hseen, hmarks]
      exact h.expiry
    · rw [hentries]
      exact fun e he => (h.past e he).trans hclock
    · rw [hentries, hmarks]
      exact h.last
    · rw [hentries, hmarks]
      exact h.winner
  · exact h.enter i c

theorem marked (h : Reach (machine ttlSeconds) s) : Marked ttlSeconds s := by
  refine h.invariant ?_ fun s a s' _ ih _ hstep => ih.step hstep
  intro s hs
  obtain rfl : s = {} := hs
  exact marked_init

theorem Marked.won_iff (h : Marked ttlSeconds s) (key : String) :
    Won ttlSeconds s.entries key s.clock ↔
      ∃ m ∈ s.marks key, s.clock < m.entered + fromSeconds ttlSeconds := by
  constructor
  · rintro ⟨e, he, rfl, hwon, hwindow⟩
    obtain ⟨m, hm, hlast⟩ := h.last e he hwon
    exact ⟨m, hm, by omega⟩
  · rintro ⟨m, hm, hwindow⟩
    obtain ⟨e, he, hkey, hwon, hat⟩ := h.winner key m hm
    exact ⟨e, he, hkey, hwon, by omega⟩

/-! ## The contract holds in step -/

theorem Marked.enter_iff (h : Marked ttlSeconds s) {i : ℕ} {c : Waiting}
    (hc : s.waiting[i]? = some c) :
    OneWinner ttlSeconds (s.enter ttlSeconds i c).entries ↔
      InStep ttlSeconds s (.enter i) ∧ OneWinner ttlSeconds s.entries := by
  have hstep : InStep ttlSeconds s (.enter i) ↔ ∀ m ∈ s.marks c.key,
      (c.now < m.read + fromSeconds ttlSeconds ↔
        s.clock < m.entered + fromSeconds ttlSeconds) := by
    simp [InStep, hc]
  have hwon := h.won_iff c.key
  rw [hstep]
  rcases h.enter_cases i c with ⟨⟨m, hm, hlive⟩, hentries, -⟩ | ⟨hdead, hentries, -⟩
  · have hmarks : s.marks c.key = some m := hm
    rw [hentries]
    simp [OneWinner, hwon, hmarks, hlive]
  · rw [hentries]
    cases hmarks : s.marks c.key with
    | none => simp [OneWinner, hwon, hmarks]
    | some m =>
      have hnow := hdead m hmarks
      simp [OneWinner, hwon, hmarks, hnow]

/-- **A step keeps the contract exactly if it is in step.** -/
theorem Marked.oneWinner_step (h : Marked ttlSeconds s) {a : Act}
    (hstep : s.step ttlSeconds a = some s') :
    OneWinner ttlSeconds s'.entries ↔
      InStep ttlSeconds s a ∧ OneWinner ttlSeconds s.entries := by
  rcases step_cases hstep with ⟨hentries, -, -, -, hact⟩ | ⟨i, c, rfl, hc, rfl⟩
  · have hin : InStep ttlSeconds s a := by
      cases a with
      | enter i => exact absurd rfl (hact i)
      | _ => trivial
    rw [hentries, and_iff_right hin]
  · exact h.enter_iff hc

theorem oneWinner_of_inStep (h : ReachIf (machine ttlSeconds) (InStep ttlSeconds) s) :
    OneWinner ttlSeconds s.entries := by
  refine h.invariant ?_ fun s a s' hr ih hok hstep =>
    ((marked hr.reach).oneWinner_step hstep).mpr ⟨hok, ih⟩
  intro s hs
  obtain rfl : s = {} := hs
  exact always_nil _

/-- **The store admits one winner per window exactly in the runs whose passages through the lock are
all in step.** -/
theorem oneWinner_iff (h : Reach (machine ttlSeconds) s) :
    OneWinner ttlSeconds s.entries ↔ ReachIf (machine ttlSeconds) (InStep ttlSeconds) s := by
  refine ⟨fun hone => ?_, oneWinner_of_inStep⟩
  induction h with
  | init hinit => exact .init hinit
  | step hr _ hstep ih =>
    obtain ⟨hin, hone⟩ := ((marked hr).oneWinner_step hstep).mp hone
    exact .step (ih hone) hin hstep

/-- Two calls for one key that enter the lock as soon as they have read the clock, the second after
seven seconds. -/
def prompt : List Act :=
  [.call "k", .enter 0, .tick 70000000, .call "k", .enter 0]

/-- With a window of ten seconds the second of the prompt calls is a duplicate. -/
theorem oneWinner_prompt : OneWinner 10 (play (Store.step 10) {} prompt).entries :=
  (oneWinner_iff (reach_play (S := machine 10) (fun _ _ _ => id) rfl prompt)).mpr
    (reachIf_play (fun _ _ _ => id) rfl prompt (by decide))

/-- The first call waits five seconds for the lock, and the second enters it seven seconds after
it. -/
def late : List Act :=
  [.call "k", .tick 50000000, .enter 0, .tick 70000000, .call "k", .enter 0]

/-- Both late calls win the key. -/
theorem late_two_winners :
    Reach (machine 10) (play (Store.step 10) {} late) ∧
      ¬OneWinner 10 (play (Store.step 10) {} late).entries := by
  constructor
  · exact reach_play (fun _ _ _ => id) rfl late
  · rintro ⟨⟨hwon, -⟩, -⟩
    exact hwon (by decide) rfl

/-! ## Where no call waits -/

/-- The lock is entered as soon as the clock is read. -/
def Prompt (s : Store) : Act → Prop
  | .tick _ | .call _ => True
  | .enter i => ∀ c ∈ s.waiting[i]?, c.now = s.clock

theorem read_of_prompt (h : ReachIf (machine ttlSeconds) Prompt s) (key : String) :
    ∀ m ∈ s.marks key, m.read = m.entered := by
  induction h with
  | init hinit =>
    obtain rfl := hinit
    exact nofun
  | @step s s' a hr hok hstep ih =>
    rcases step_cases hstep with ⟨-, -, hmarks, -⟩ | ⟨i, c, rfl, hc, rfl⟩
    · rwa [hmarks]
    rcases (marked hr.reach).enter_cases i c with ⟨-, -, -, hmarks⟩ | ⟨-, -, -, hmarks⟩
    · rwa [hmarks]
    · intro m hm
      rw [hmarks, Function.update_apply] at hm
      split_ifs at hm with hkey
      · obtain rfl := Option.some.inj hm
        exact hok c hc
      · exact ih m hm

/-- **Where no call waits for the lock**, one call wins a key in each window, and no other. -/
theorem oneWinner_of_prompt (h : ReachIf (machine ttlSeconds) Prompt s) :
    OneWinner ttlSeconds s.entries := by
  refine oneWinner_of_inStep ?_
  induction h with
  | init hinit => exact .init hinit
  | @step s s' a hr hok hstep ih =>
    refine .step ih ?_ hstep
    cases a with
    | tick | call => trivial
    | enter i =>
      intro c hc m hm
      rw [hok c hc, read_of_prompt hr c.key m hm]

end MessagingPoc.IdempotencyStore
