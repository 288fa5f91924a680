import Mathlib.Logic.Relation
import Mathlib.Data.List.Infix

/-!
# Labelled machines and guarded runs

A machine is a set of initial states and a labelled step relation. A *guarded* run is one whose
steps all satisfy a condition on the state they start in and on their label; with the trivial
guard it is any run.

* `ReachIf` — the states guarded runs reach, with its invariant rule.
* `Run` — guarded runs between two given states; `exists_run_of_measure` finds one to a goal.
* `ReachIf.simulate` — a view of one machine's states that follows another machine.
* `play` — a run of a machine whose steps are computed, for concrete runs.
* `System.recording` — a machine with a ghost record that its steps write and none of them reads.
* `Always` — what holds of every entry of a record that only ever grows at its front.
-/

namespace Machine

/-- A labelled transition system. -/
structure System (σ ℓ : Type*) where
  init : σ → Prop
  step : σ → ℓ → σ → Prop

variable {σ ℓ τ κ : Type*} {S : System σ ℓ} {T : System τ κ}
variable {ok ok' : σ → ℓ → Prop}

/-- No condition on the steps. -/
def anyStep (_ : σ) (_ : ℓ) : Prop := True

/-! ## Runs -/

/-- A run from one state to another, every step of which meets the guard. -/
inductive Run (S : System σ ℓ) (ok : σ → ℓ → Prop) : σ → σ → Prop
  | refl (s : σ) : Run S ok s s
  | tail {s t u : σ} {l : ℓ} : Run S ok s t → ok t l → S.step t l u → Run S ok s u

/-- The states reached from an initial one by runs whose steps all meet the guard. -/
inductive ReachIf (S : System σ ℓ) (ok : σ → ℓ → Prop) : σ → Prop
  | init {s : σ} : S.init s → ReachIf S ok s
  | step {s s' : σ} {l : ℓ} : ReachIf S ok s → ok s l → S.step s l s' → ReachIf S ok s'

/-- The states any run reaches. -/
abbrev Reach (S : System σ ℓ) : σ → Prop := ReachIf S anyStep

theorem Run.single {s s' : σ} {l : ℓ} (hok : ok s l) (h : S.step s l s') : Run S ok s s' :=
  (Run.refl s).tail hok h

theorem Run.trans {s t u : σ} (h₁ : Run S ok s t) (h₂ : Run S ok t u) : Run S ok s u := by
  induction h₂ with
  | refl => exact h₁
  | tail _ hok hstep ih => exact ih.tail hok hstep

theorem ReachIf.extend {s s' : σ} (h : ReachIf S ok s) (p : Run S ok s s') : ReachIf S ok s' := by
  induction p with
  | refl => exact h
  | tail _ hok hstep ih => exact .step ih hok hstep

/-- A weaker guard allows more runs. -/
theorem Run.mono (hle : ∀ s l, ok s l → ok' s l) {s s' : σ} (h : Run S ok s s') :
    Run S ok' s s' := by
  induction h with
  | refl => exact .refl _
  | tail _ hok hstep ih => exact ih.tail (hle _ _ hok) hstep

theorem ReachIf.mono (hle : ∀ s l, ok s l → ok' s l) {s : σ} (h : ReachIf S ok s) :
    ReachIf S ok' s := by
  induction h with
  | init h => exact .init h
  | step _ hok hstep ih => exact .step ih (hle _ _ hok) hstep

theorem ReachIf.reach {s : σ} (h : ReachIf S ok s) : Reach S s := h.mono fun _ _ _ => trivial

/-! ## Invariants -/

/-- The invariant rule: what holds initially and is kept by every guarded step from a reachable
state holds of every state a guarded run reaches. -/
theorem ReachIf.invariant {I : σ → Prop} (hinit : ∀ s, S.init s → I s)
    (hstep : ∀ s l s', ReachIf S ok s → I s → ok s l → S.step s l s' → I s')
    {s : σ} (h : ReachIf S ok s) : I s := by
  induction h with
  | init h => exact hinit _ h
  | step hr hok hs ih => exact hstep _ _ _ hr ih hok hs

/-- What is kept by every guarded step from a reachable state holds at the end of a guarded run
when it holds at its start. -/
theorem Run.invariant {I : σ → Prop}
    (hstep : ∀ s l s', ReachIf S ok s → I s → ok s l → S.step s l s' → I s')
    {s s' : σ} (hr : ReachIf S ok s) (p : Run S ok s s') (h : I s) : I s' := by
  induction p with
  | refl => exact h
  | tail p hok hs ih => exact hstep _ _ _ (hr.extend p) ih hok hs

/-- A goal is met in the end when, as long as it is not, some guarded step lowers a measure. -/
theorem exists_run_of_measure {I : σ → Prop} (μ : σ → Nat)
    (h : ∀ s, ¬ I s → ∃ l s', ok s l ∧ S.step s l s' ∧ μ s' < μ s) (s : σ) :
    ∃ t, Run S ok s t ∧ I t := by
  induction hn : μ s using Nat.strong_induction_on generalizing s with
  | _ n ih =>
    by_cases hs : I s
    · exact ⟨s, .refl s, hs⟩
    · obtain ⟨l, s', hok, hstep, hlt⟩ := h s hs
      obtain ⟨t, hrun, ht⟩ := ih (μ s') (hn ▸ hlt) s' rfl
      exact ⟨t, (Run.single hok hstep).trans hrun, ht⟩

/-! ## Simulation -/

/-- The simulation rule. If every guarded step moves the view along a run of `T`, or to a state
`T` reaches anyway, then the view of every reachable state is one `T` reaches. -/
theorem ReachIf.simulate {okT : τ → κ → Prop} (view : σ → τ)
    (hinit : ∀ s, S.init s → ReachIf T okT (view s))
    (hstep : ∀ s l s', ReachIf S ok s → ReachIf T okT (view s) → ok s l → S.step s l s' →
      Run T okT (view s) (view s') ∨ ReachIf T okT (view s'))
    {s : σ} (h : ReachIf S ok s) : ReachIf T okT (view s) := by
  refine h.invariant hinit fun s l s' hr ih hok hs => ?_
  rcases hstep s l s' hr ih hok hs with p | h'
  · exact ih.extend p
  · exact h'

/-! ## Computed runs -/

/-- Play a list of labels, skipping those that are not enabled. -/
def play (f : σ → ℓ → Option σ) (s : σ) : List ℓ → σ
  | [] => s
  | l :: ls => play f ((f s l).getD s) ls

/-- Every step of a play meets a guard. -/
def Plays (f : σ → ℓ → Option σ) (ok : σ → ℓ → Prop) (s : σ) : List ℓ → Prop
  | [] => True
  | l :: ls => ok s l ∧ Plays f ok ((f s l).getD s) ls

instance decidablePlays {f : σ → ℓ → Option σ} [∀ s l, Decidable (ok s l)] :
    ∀ (s : σ) (ls : List ℓ), Decidable (Plays f ok s ls)
  | _, [] => .isTrue trivial
  | s, l :: ls =>
    @instDecidableAnd (ok s l) (Plays f ok ((f s l).getD s) ls) _ (decidablePlays _ ls)

theorem plays_anyStep (f : σ → ℓ → Option σ) (s : σ) (ls : List ℓ) : Plays f anyStep s ls := by
  induction ls generalizing s with
  | nil => trivial
  | cons l ls ih => exact ⟨trivial, ih _⟩

section

variable {f : σ → ℓ → Option σ} (hf : ∀ s l s', f s l = some s' → S.step s l s')

include hf

theorem run_play {s : σ} {ls : List ℓ} (h : Plays f ok s ls) : Run S ok s (play f s ls) := by
  induction ls generalizing s with
  | nil => exact .refl s
  | cons l ls ih =>
    obtain ⟨hok, h⟩ := h
    have hrest := ih h
    cases hs : f s l with
    | none =>
      rw [hs, Option.getD_none] at hrest
      rwa [play, hs, Option.getD_none]
    | some s' =>
      rw [hs, Option.getD_some] at hrest
      rw [play, hs, Option.getD_some]
      exact (Run.single hok (hf s l s' hs)).trans hrest

theorem reachIf_play {s : σ} (hs : S.init s) (ls : List ℓ) (h : Plays f ok s ls) :
    ReachIf S ok (play f s ls) :=
  (ReachIf.init hs).extend (run_play hf h)

theorem reach_play {s : σ} (hs : S.init s) (ls : List ℓ) : Reach S (play f s ls) :=
  reachIf_play hf hs ls (plays_anyStep f s ls)

end

/-! ## Ghost records -/

variable {ε : Type*}

/-- The machine with a ghost record: each step adds its notes at the front, and reads none. -/
def System.recording (S : System σ ℓ) (note : σ → ℓ → List ε) : System (σ × List ε) ℓ where
  init p := S.init p.1 ∧ p.2 = []
  step p l p' := S.step p.1 l p'.1 ∧ p'.2 = note p.1 l ++ p.2

theorem step_recording {note : σ → ℓ → List ε} {p p' : σ × List ε} {l : ℓ} :
    (S.recording note).step p l p' ↔ S.step p.1 l p'.1 ∧ p'.2 = note p.1 l ++ p.2 := Iff.rfl

/-- Without its record, a recorded run is a run. -/
theorem ReachIf.forget {note : σ → ℓ → List ε} {okR : σ × List ε → ℓ → Prop}
    (hle : ∀ p l, okR p l → ok p.1 l) {p : σ × List ε}
    (h : ReachIf (S.recording note) okR p) : ReachIf S ok p.1 := by
  refine h.simulate Prod.fst (fun p (hp : S.init p.1 ∧ p.2 = []) => .init hp.1) ?_
  intro p l p' _ _ hok hstep
  exact .inl (Run.single (hle p l hok) hstep.1)

/-- A run that recorded nothing is one whose steps have nothing to record. -/
theorem ReachIf.silent {note : σ → ℓ → List ε} {p : σ × List ε}
    (h : Reach (S.recording note) p) (hp : p.2 = []) :
    ReachIf S (fun s l => note s l = []) p.1 := by
  induction h with
  | init hinit => exact .init hinit.1
  | step _ _ hstep ih =>
    rw [hstep.2, List.append_eq_nil_iff] at hp
    exact .step (ih hp.2) hp.1 hstep.1

/-- The computed steps of a machine with a ghost record. -/
def recordStep (f : σ → ℓ → Option σ) (note : σ → ℓ → List ε) (p : σ × List ε) (l : ℓ) :
    Option (σ × List ε) :=
  (f p.1 l).map fun s => (s, note p.1 l ++ p.2)

theorem recordStep_step {f : σ → ℓ → Option σ} (hf : ∀ s l s', f s l = some s' → S.step s l s')
    {note : σ → ℓ → List ε} (p : σ × List ε) (l : ℓ) (p' : σ × List ε)
    (h : recordStep f note p l = some p') : (S.recording note).step p l p' := by
  obtain ⟨s, hs, rfl⟩ := Option.map_eq_some_iff.mp h
  exact ⟨hf _ _ _ hs, rfl⟩

/-! ## Records that grow at the front -/

/-- `P e older` holds of every entry `e` of a record, `older` being what was recorded before. -/
def Always (P : ε → List ε → Prop) : List ε → Prop
  | [] => True
  | e :: older => P e older ∧ Always P older

@[simp] theorem always_nil (P : ε → List ε → Prop) : Always P [] := trivial

@[simp] theorem always_cons {P : ε → List ε → Prop} {e : ε} {older : List ε} :
    Always P (e :: older) ↔ P e older ∧ Always P older := Iff.rfl

theorem Always.at {P : ε → List ε → Prop} {newer older : List ε} {e : ε}
    (h : Always P (newer ++ e :: older)) : P e older := by
  induction newer with
  | nil => exact h.1
  | cons _ _ ih => exact ih h.2

theorem Always.before {P : ε → List ε → Prop} {newer older : List ε} {e : ε}
    (h : Always P (newer ++ e :: older)) : Always P older := by
  induction newer with
  | nil => exact h.2
  | cons _ _ ih => exact ih h.2

end Machine
