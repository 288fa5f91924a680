import MessagingPoc.Lib.Machine
import Mathlib.Logic.Function.Basic

/-!
# Updating a cell by compare-and-exchange

Threads update a shared cell in a loop: read it, compute what it should become, and exchange that
for what was read unless the cell has changed in between. A thread whose reading asks for no update
leaves the loop. Others may store into the cell at any time.

* `linearized` — a thread leaves the loop as it would if its reading and its exchange were one step,
  taken when it leaves.
* `retries_le_writes` — a thread goes round again once for each write of others at most.
-/

namespace CompareExchange

open Machine

variable {κ α : Type*}

/-- Where a thread is in the loop. -/
inductive Pc (α : Type*)
  | out
  | read
  | swap (seen : α)
deriving DecidableEq

inductive Event (κ α : Type*)
  | stored (v : α)
  | updated (k : κ)
  | declined (k : κ)
  | retried (k : κ)
deriving DecidableEq

structure Cell (κ α : Type*) where
  value : α
  pc : κ → Pc α := fun _ => .out
  /-- Ghost: what happened to the cell, the newest first. -/
  trace : List (Event κ α) := []

/-- The event writes the cell. -/
def Event.writes : Event κ α → Bool
  | .stored _ | .updated _ => true
  | _ => false

/-- The event sends a thread round the loop again. -/
def Event.retries [DecidableEq κ] (k : κ) : Event κ α → Bool
  | .retried j => j = k
  | _ => false

variable [DecidableEq κ]

/-- `f` is the update; on some values there is none. -/
inductive Step (f : α → Option α) : Cell κ α → Event κ α ⊕ κ → Cell κ α → Prop
  | enter {S : Cell κ α} {k : κ} (h : S.pc k = .out) :
    Step f S (.inr k) { S with pc := Function.update S.pc k .read }
  | look {S : Cell κ α} {k : κ} (h : S.pc k = .read) (hf : f S.value ≠ none) :
    Step f S (.inr k) { S with pc := Function.update S.pc k (.swap S.value) }
  | decline {S : Cell κ α} {k : κ} (h : S.pc k = .read) (hf : f S.value = none) :
    Step f S (.inl (.declined k))
      { S with pc := Function.update S.pc k .out, trace := .declined k :: S.trace }
  | exchange {S : Cell κ α} {k : κ} (h : S.pc k = .swap S.value) :
    Step f S (.inl (.updated k))
      { value := (f S.value).getD S.value
        pc := Function.update S.pc k .out
        trace := .updated k :: S.trace }
  | retry {S : Cell κ α} {k : κ} {seen : α} (h : S.pc k = .swap seen) (hne : S.value ≠ seen) :
    Step f S (.inl (.retried k))
      { S with pc := Function.update S.pc k .read, trace := .retried k :: S.trace }
  | store {S : Cell κ α} (v : α) :
    Step f S (.inl (.stored v)) { S with value := v, trace := .stored v :: S.trace }

/-- The machine of a cell that holds `v` at first. -/
def machine (f : α → Option α) (v : α) : System (Cell κ α) (Event κ α ⊕ κ) where
  init S := S = { value := v }
  step := Step f

variable {f : α → Option α} {v : α} {S S' : Cell κ α}

/-! ## Linearization -/

/-- What the cell holds when each event is a single step. -/
def replay (f : α → Option α) (v : α) : List (Event κ α) → α
  | [] => v
  | .stored u :: _ => u
  | .updated _ :: older => (f (replay f v older)).getD (replay f v older)
  | .declined _ :: older | .retried _ :: older => replay f v older

/-- The event is one that the update allows where it stands. -/
def Allowed (f : α → Option α) (v : α) : Event κ α → List (Event κ α) → Prop
  | .updated _, older => f (replay f v older) ≠ none
  | .declined _, older => f (replay f v older) = none
  | .stored _, _ | .retried _, _ => True

theorem asked (h : Reach (machine f v) S) {k : κ} {seen : α} (hk : S.pc k = .swap seen) :
    f seen ≠ none := by
  refine h.invariant (I := fun S => ∀ k seen, S.pc k = .swap seen → f seen ≠ none)
    (fun S hS => ?_) (fun S l S' _ ih _ hs k' seen' hk' => ?_) k seen hk
  · obtain rfl : S = _ := hS
    simp
  · have hmoved : ∀ {j : κ} {p : Pc α}, Function.update S.pc j p k' = .swap seen' →
        p = .swap seen' ∨ f seen' ≠ none := by
      intro j p hp
      by_cases hj : k' = j
      · subst hj
        exact .inl (by simpa using hp)
      · rw [Function.update_of_ne hj] at hp
        exact .inr (ih k' seen' hp)
    cases hs with
    | store => exact ih k' seen' hk'
    | @look k h hf =>
      rcases hmoved hk' with hp | hold
      · obtain rfl := Pc.swap.inj hp
        exact hf
      · exact hold
    | enter | decline | exchange | retry => exact (hmoved hk').resolve_left nofun

/-- **The loop is one step.** The cell holds what the record gives, each event of it taken as a
single step, and an update happens just where the value asks for one. -/
theorem linearized (h : Reach (machine f v) S) :
    S.value = replay f v S.trace ∧ Always (Allowed f v) S.trace := by
  refine h.invariant (I := fun S => S.value = replay f v S.trace ∧ Always (Allowed f v) S.trace)
    (fun S hS => ?_) fun S l S' hr ih _ hs => ?_
  · obtain rfl : S = _ := hS
    exact ⟨rfl, trivial⟩
  · obtain ⟨hvalue, htrace⟩ := ih
    cases hs with
    | enter | look => exact ⟨hvalue, htrace⟩
    | @decline k h hf =>
      rw [hvalue] at hf
      exact ⟨hvalue, hf, htrace⟩
    | @exchange k h =>
      have hf : f S.value ≠ none := asked hr h
      rw [hvalue] at hf
      refine ⟨?_, hf, htrace⟩
      rw [replay, ← hvalue]
    | retry => exact ⟨hvalue, trivial, htrace⟩
    | store => exact ⟨rfl, trivial, htrace⟩

/-! ## Progress -/

/-- Where a thread is about to fail, it has gone round again less often than the cell was
written. -/
structure Progress (S : Cell κ α) (k : κ) : Prop where
  le : S.trace.countP (Event.retries k) ≤ S.trace.countP Event.writes
  lt : ∀ seen, S.pc k = .swap seen → S.value ≠ seen →
    S.trace.countP (Event.retries k) < S.trace.countP Event.writes

theorem retries_lt_of_write {k : κ} {e : Event κ α} {t : List (Event κ α)} (he : e.writes = true)
    (hk : e.retries k = false) (h : t.countP (Event.retries k) ≤ t.countP Event.writes) :
    (e :: t).countP (Event.retries k) < (e :: t).countP Event.writes := by
  rw [List.countP_cons_of_neg (by simp [hk]), List.countP_cons_of_pos he]
  omega

theorem progress (h : Reach (machine f v) S) (k : κ) : Progress S k := by
  refine h.invariant (I := fun S => Progress S k) (fun S hS => ?_) fun S l S' _ ih _ hs => ?_
  · obtain rfl : S = _ := hS
    exact ⟨le_rfl, by simp⟩
  · obtain ⟨hle, hlt⟩ := ih
    cases hs with
    | @enter j h =>
      refine ⟨hle, fun seen hseen hne => ?_⟩
      by_cases hj : k = j
      · subst hj
        simp at hseen
      · exact hlt seen (by simpa [hj] using hseen) hne
    | @look j h hf =>
      refine ⟨hle, fun seen hseen hne => ?_⟩
      by_cases hj : k = j
      · subst hj
        exact absurd (by simpa using hseen) hne
      · exact hlt seen (by simpa [hj] using hseen) hne
    | @decline j h hf =>
      refine ⟨by simpa [Event.retries, Event.writes] using hle, fun seen hseen hne => ?_⟩
      by_cases hj : k = j
      · subst hj
        simp at hseen
      · simpa [Event.retries, Event.writes] using hlt seen (by simpa [hj] using hseen) hne
    | @exchange j h =>
      have hwrite := retries_lt_of_write (e := .updated j) rfl rfl hle
      exact ⟨hwrite.le, fun _ _ _ => hwrite⟩
    | @retry j seen h hne =>
      by_cases hj : j = k
      · subst hj
        have hless := hlt seen h hne
        refine ⟨?_, fun seen' hseen _ => ?_⟩
        · simp [Event.retries, Event.writes]
          omega
        · simp at hseen
      · refine ⟨by simpa [Event.retries, Event.writes, hj] using hle, fun seen' hseen hne' => ?_⟩
        simpa [Event.retries, Event.writes, hj] using
          hlt seen' (by simpa [Ne.symm hj] using hseen) hne'
    | store u =>
      have hwrite := retries_lt_of_write (e := .stored u) rfl rfl hle
      exact ⟨hwrite.le, fun _ _ _ => hwrite⟩

/-- **Nobody loops for nothing.** -/
theorem retries_le_writes (h : Reach (machine f v) S) (k : κ) :
    S.trace.countP (Event.retries k) ≤ S.trace.countP Event.writes := (progress h k).le

end CompareExchange
