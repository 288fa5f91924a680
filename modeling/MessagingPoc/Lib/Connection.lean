import Mathlib.Data.List.Basic
import Mathlib.Data.Nat.Notation

/-!
# Channels on a connection

A client shares one channel for most of its work and creates others on the same connection. A
program makes calls on the shared channel, creates a channel of its own, makes calls on either, and
consumes on its own one at last. Any call may fail, which ends the program; nothing is undone. The
error of a call closes nothing, or the channel the call was made on, or the connection.

* `closed_iff`: when a failed program leaves no channel behind.
* `length_attempts`: how many channels failed programs leave behind.
-/

namespace Connection

/-- The channel a call is made on. -/
inductive Site
  | shared
  | own
deriving DecidableEq

inductive Command
  | createChannel
  | call (site : Site)
  | consume
deriving DecidableEq

/-- What the error of a call closes. -/
inductive Extent
  | nothing
  | channel
  | connection
deriving DecidableEq

/-- The call that fails, counted from zero, and what its error closes. -/
structure Failure where
  call : ℕ
  extent : Extent
deriving DecidableEq

/-- A program creates one channel, and consumes in the end. -/
structure Program where
  /-- The calls on the shared channel before. -/
  before : ℕ
  calls : List Site
deriving DecidableEq

def Program.commands (p : Program) : List Command :=
  List.replicate p.before (.call .shared) ++ .createChannel :: (p.calls.map .call ++ [.consume])

/-! ## Connections -/

/-- The channel that was opened first is the shared one. -/
structure State where
  nextChannel : ℕ
  /-- The channels that are open. -/
  channels : List ℕ
  /-- The channel of each consumer. -/
  consumers : List ℕ
  started : 0 < nextChannel
  opened : ∀ channel ∈ channels, channel < nextChannel
  consuming : ∀ channel ∈ consumers, channel < nextChannel

namespace State

variable (s : State)

def createChannel : State where
  nextChannel := s.nextChannel + 1
  channels := s.channels ++ [s.nextChannel]
  consumers := s.consumers
  started := Nat.succ_pos _
  opened channel h := by
    rcases List.mem_append.mp h with h | h
    · exact Nat.lt_succ_of_lt (s.opened channel h)
    · rw [List.mem_singleton.mp h]
      exact Nat.lt_succ_self _
  consuming channel h := Nat.lt_succ_of_lt (s.consuming channel h)

/-- Consume on an open channel. -/
def consume (channel : ℕ) : State :=
  if h : channel ∈ s.channels then
    { s with
      consumers := s.consumers ++ [channel]
      consuming := by
        intro c hc
        rcases List.mem_append.mp hc with hc | hc
        · exact s.consuming c hc
        · exact List.mem_singleton.mp hc ▸ s.opened channel h }
  else s

/-- Only some channels stay open, with their consumers. -/
def restrict (keep : ℕ → Bool) : State where
  nextChannel := s.nextChannel
  channels := s.channels.filter keep
  consumers := s.consumers.filter keep
  started := s.started
  opened channel h := s.opened channel (List.mem_of_mem_filter h)
  consuming channel h := s.consuming channel (List.mem_of_mem_filter h)

def close (channel : ℕ) : State := s.restrict (· ≠ channel)

def closeAll : State := s.restrict fun _ => false

/-- A command is carried out; `own` is the channel of the program. -/
def perform (own : ℕ) : Command → State
  | .createChannel => s.createChannel
  | .call _ => s
  | .consume => s.consume own

/-- A command fails. -/
def fail (own : ℕ) : Command → Extent → State
  | _, .nothing => s
  | .call .shared, .channel => s.close 0
  | _, .channel => s.close own
  | _, .connection => s.closeAll

/-- Carry out commands until one fails. -/
def run (own : ℕ) (s : State) : List Command → Failure → State × Bool
  | [], _ => (s, true)
  | c :: _, ⟨0, extent⟩ => (s.fail own c extent, false)
  | c :: cs, ⟨n + 1, extent⟩ => run own (s.perform own c) cs ⟨n, extent⟩

end State

/-- Run a program; the channel it creates is the connection's next. -/
def Program.run (p : Program) (s : State) (f : Failure) : State × Bool :=
  s.run s.nextChannel p.commands f

/-- The call that fails is one of the program's. -/
def Program.Fails (p : Program) (f : Failure) : Prop := f.call < p.commands.length

/-- The error closes the channel the call was made on, which is not the shared one. -/
def Program.ClosesOwn (p : Program) (f : Failure) : Prop :=
  f.extent = .channel ∧ p.commands[f.call]? ≠ some (.call .shared)

/-- The call comes before the channel is there, or its error closes that channel. -/
def Program.Releases (p : Program) (f : Failure) : Prop :=
  f.call ≤ p.before ∨ p.ClosesOwn f ∨ f.extent = .connection

instance (p : Program) (f : Failure) : Decidable (p.Fails f) :=
  inferInstanceAs (Decidable (_ < _))

instance (p : Program) (f : Failure) : Decidable (p.ClosesOwn f) :=
  inferInstanceAs (Decidable (_ ∧ _))

instance (p : Program) (f : Failure) : Decidable (p.Releases f) :=
  inferInstanceAs (Decidable (_ ∨ _))

/-! ## A failed program -/

variable {s : State} {p : Program} {f : Failure}

theorem length_commands (p : Program) : p.commands.length = p.before + p.calls.length + 2 := by
  simp only [Program.commands, List.length_append, List.length_replicate, List.length_cons,
    List.length_map, List.length_nil]
  omega

theorem run_of_lt (own : ℕ) (s : State) {cs : List Command} (h : f.call < cs.length) :
    s.run own cs f =
      (((cs.take f.call).foldl (fun s c => s.perform own c) s).fail own (cs.get ⟨f.call, h⟩)
        f.extent, false) := by
  obtain ⟨n, extent⟩ := f
  induction cs generalizing s n with
  | nil => exact absurd h (Nat.not_lt_zero _)
  | cons c cs ih =>
    cases n with
    | zero => rfl
    | succ n => exact ih (s.perform own c) n (Nat.lt_of_succ_lt_succ h)

theorem run_of_le (own : ℕ) (s : State) {cs : List Command} (h : cs.length ≤ f.call) :
    (s.run own cs f).2 = true := by
  obtain ⟨n, extent⟩ := f
  induction cs generalizing s n with
  | nil => rfl
  | cons c cs ih =>
    cases n with
    | zero => exact absurd h (Nat.not_succ_le_zero _)
    | succ n => exact ih (s.perform own c) n (Nat.le_of_succ_le_succ h)

/-- A program is rejected exactly if one of its calls fails. -/
theorem run_rejected_iff (p : Program) (s : State) (f : Failure) :
    (p.run s f).2 = false ↔ p.Fails f := by
  unfold Program.run Program.Fails
  by_cases h : f.call < p.commands.length
  · simp [run_of_lt _ _ h, h]
  · simp [run_of_le _ _ (Nat.le_of_not_lt h), h]

theorem foldl_calls (own : ℕ) (s : State) (sites : List Site) :
    (sites.map Command.call).foldl (fun s c => s.perform own c) s = s := by
  induction sites with
  | nil => rfl
  | cons site sites ih => exact ih

theorem take_before {n : ℕ} (h : n ≤ p.before) :
    p.commands.take n = (List.replicate n Site.shared).map .call := by
  rw [Program.commands, List.take_append_of_le_length (by simpa using h), List.take_replicate,
    Nat.min_eq_left h, List.map_replicate]

theorem take_after {n : ℕ} (h : n ≤ p.calls.length) :
    p.commands.take (p.before + (n + 1)) =
      (List.replicate p.before Site.shared).map .call ++
        Command.createChannel :: (p.calls.take n).map .call := by
  rw [Program.commands, List.take_append, List.length_replicate, Nat.add_sub_cancel_left,
    List.take_of_length_le (by rw [List.length_replicate]; omega), List.take_succ_cons,
    List.take_append_of_le_length (by rwa [List.length_map]), List.map_take, List.map_replicate]

/-- Up to the call that fails a program has created its channel, or done nothing. -/
theorem performed (own : ℕ) (s : State) (h : p.Fails f) :
    (p.commands.take f.call).foldl (fun s c => s.perform own c) s =
      if f.call ≤ p.before then s else s.createChannel := by
  split_ifs with hbefore
  · rw [take_before hbefore, foldl_calls]
  · obtain ⟨n, hn⟩ : ∃ n, f.call = p.before + (n + 1) := ⟨f.call - p.before - 1, by omega⟩
    have hle : n ≤ p.calls.length := by
      rw [Program.Fails, length_commands] at h
      omega
    rw [hn, take_after hle, List.foldl_append, foldl_calls, List.foldl_cons, foldl_calls]
    rfl

/-- The command that fails. -/
def Program.Fails.command (_ : p.Fails f) : Command := p.commands[f.call]

theorem run_of_fails (s : State) (h : p.Fails f) : (p.run s f).1 =
    (if f.call ≤ p.before then s else s.createChannel).fail s.nextChannel h.command f.extent := by
  rw [Program.run, run_of_lt _ _ h, performed _ _ h]
  rfl

theorem closesOwn_iff (h : p.Fails f) :
    p.ClosesOwn f ↔ f.extent = .channel ∧ h.command ≠ .call .shared := by
  rw [Program.ClosesOwn, List.getElem?_eq_getElem h]
  simp [Program.Fails.command]

theorem fail_sublist (own : ℕ) (s : State) (c : Command) (extent : Extent) :
    (s.fail own c extent).channels.Sublist s.channels ∧
      (s.fail own c extent).consumers.Sublist s.consumers := by
  unfold State.fail
  split
  · exact ⟨List.Sublist.refl _, List.Sublist.refl _⟩
  all_goals exact ⟨List.filter_sublist, List.filter_sublist⟩

theorem nextChannel_not_mem (s : State) :
    s.nextChannel ∉ s.channels ∧ s.nextChannel ∉ s.consumers :=
  ⟨fun h => Nat.lt_irrefl _ (s.opened _ h), fun h => Nat.lt_irrefl _ (s.consuming _ h)⟩

theorem consumers_of_fails (s : State) (h : p.Fails f) :
    (p.run s f).1.consumers.Sublist s.consumers := by
  rw [run_of_fails s h]
  split_ifs
  · exact (fail_sublist _ _ _ _).2
  · exact (fail_sublist _ s.createChannel _ _).2

/-- **When the channel is closed.** -/
theorem closed_iff (s : State) (h : p.Fails f) :
    s.nextChannel ∉ (p.run s f).1.channels ↔ p.Releases f := by
  rw [run_of_fails s h, Program.Releases, closesOwn_iff h]
  by_cases hbefore : f.call ≤ p.before
  · have hclosed : s.nextChannel ∉ (s.fail s.nextChannel h.command f.extent).channels :=
      fun hmem => (nextChannel_not_mem s).1 ((fail_sublist _ _ _ _).1.subset hmem)
    simp [hbefore, hclosed]
  · have hopen : s.nextChannel ∈ s.createChannel.channels := by simp [State.createChannel]
    have hne : s.nextChannel ≠ 0 := Nat.ne_of_gt s.started
    simp only [hbefore, false_or]
    unfold State.fail
    split <;> simp_all [State.close, State.closeAll, State.restrict]

/-- The error closes no channel but the program's own. -/
def Program.Confined (p : Program) (f : Failure) : Prop := f.extent = .nothing ∨ p.ClosesOwn f

instance (p : Program) (f : Failure) : Decidable (p.Confined f) :=
  inferInstanceAs (Decidable (_ ∨ _))

theorem filter_ne_nextChannel (s : State) :
    s.channels.filter (fun ch => ch ≠ s.nextChannel) = s.channels ∧
      s.consumers.filter (fun ch => ch ≠ s.nextChannel) = s.consumers := by
  constructor <;>
  · refine List.filter_eq_self.mpr fun ch hch => decide_eq_true ?_
    rintro rfl
    first
    | exact (nextChannel_not_mem s).1 hch
    | exact (nextChannel_not_mem s).2 hch

/-- What a failed program leaves open, if its error reaches no further than its own channel. -/
theorem confined_run (s : State) (h : p.Fails f) (hconfined : p.Confined f) :
    (p.run s f).1.channels = s.channels ++ (if p.Releases f then [] else [s.nextChannel]) ∧
      (p.run s f).1.consumers = s.consumers := by
  obtain ⟨hchannels, hconsumers⟩ := filter_ne_nextChannel s
  rw [run_of_fails s h]
  rcases hconfined with hnothing | hcloses
  · have hreleases : p.Releases f ↔ f.call ≤ p.before := by
      simp [Program.Releases, Program.ClosesOwn, hnothing]
    by_cases hbefore : f.call ≤ p.before <;>
      simp [hreleases, hbefore, hnothing, State.fail, State.createChannel]
  · obtain ⟨hextent, hne⟩ := (closesOwn_iff h).mp hcloses
    have hclose : ∀ s : State, ∀ own, s.fail own h.command f.extent = s.close own := by
      intro s own
      rw [hextent]
      cases hc : h.command with
      | call site =>
        cases site with
        | shared => exact absurd hc hne
        | own => rfl
      | createChannel | consume => rfl
    have hreleases : p.Releases f := .inr (.inl hcloses)
    rw [hclose, if_pos hreleases, List.append_nil]
    split_ifs
    · exact ⟨hchannels, hconsumers⟩
    · refine ⟨?_, hconsumers⟩
      have hcreated : (s.createChannel.close s.nextChannel).channels =
          (s.channels ++ [s.nextChannel]).filter fun ch => ch ≠ s.nextChannel := rfl
      rw [hcreated, List.filter_append, hchannels]
      simp

/-! ## Attempts in a row -/

/-- Run programs one after another. -/
def attempts (s : State) : List (Program × Failure) → State
  | [] => s
  | (p, f) :: rest => attempts (p.run s f).1 rest

/-- **Each failed program leaves its channel behind, or none.** -/
theorem length_attempts (s : State) (as : List (Program × Failure))
    (h : ∀ a ∈ as, a.1.Fails a.2 ∧ a.1.Confined a.2) :
    (attempts s as).channels.length = s.channels.length + as.countP (fun a => ¬a.1.Releases a.2) ∧
      (attempts s as).consumers = s.consumers := by
  induction as generalizing s with
  | nil => exact ⟨rfl, rfl⟩
  | cons a as ih =>
    obtain ⟨p, f⟩ := a
    obtain ⟨hfails, hconfined⟩ := h (p, f) List.mem_cons_self
    obtain ⟨hchannels, hconsumers⟩ := confined_run s hfails hconfined
    obtain ⟨hlength, hrest⟩ := ih (p.run s f).1 fun a ha => h a (List.mem_cons_of_mem _ ha)
    rw [attempts]
    refine ⟨?_, hrest.trans hconsumers⟩
    rw [hlength, hchannels, List.length_append, List.countP_cons]
    by_cases hreleases : p.Releases f <;> simp [hreleases]
    omega

end Connection
