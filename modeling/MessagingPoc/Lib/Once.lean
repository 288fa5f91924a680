import MessagingPoc.Lib.Machine

/-!
# Set-up that is done once

A client remembers by name what it has set up, so that it does not set it up again. An operation is
a list of commands: some ensure a name, which stands for a list of set-up calls, others make calls
of their own. Any call may throw; the rest of the operation is then not run, and the next operation,
which may be a retry of it, finds the names as they are.

It matters when a name is remembered. *Last*, once its calls are made, the names never lie
(`truthful_of_last`). *First*, they lie from the moment one of those calls throws, and for good
(`truthful_iff`); until then they do not, and no call is made before what it relies on (`sound`).

Names `ν`, calls `κ` and operations `ω` are any types.
-/

namespace Once

open Machine

/-! ## Operations -/

inductive Command (ν κ : Type)
  | ensure (name : ν)
  /-- A call that sets something up for a name being ensured. -/
  | declare (c : κ)
  | call (c : κ)
  | remember (name : ν)
deriving DecidableEq

/-- When a name is remembered: before its calls, or after them. -/
inductive Order
  | first
  | last
deriving DecidableEq

structure Scheme (ν κ ω : Type) where
  order : Order
  standsFor : ν → List κ
  compile : ω → List (Command ν κ)

structure Client (ν κ : Type) where
  known : List ν := []
  /-- The calls that were made and did not throw, the newest first. -/
  done : List κ := []
  program : List (Command ν κ) := []

inductive Label (ω : Type)
  | start (op : ω)
  | next
  /-- The next call throws. -/
  | throw
deriving DecidableEq

variable {ν κ ω : Type}

namespace Scheme

variable (S : Scheme ν κ ω)

/-- What ensuring an unknown name comes to. -/
def expand (name : ν) (rest : List (Command ν κ)) : List (Command ν κ) :=
  (S.standsFor name).map .declare ++
    match S.order with
    | .first => rest
    | .last => .remember name :: rest

def step [DecidableEq ν] (s : Client ν κ) : Label ω → Option (Client ν κ)
  | .start op => if s.program.isEmpty then some { s with program := S.compile op } else none
  | .next =>
    match s.program with
    | [] => none
    | .ensure name :: rest =>
      if name ∈ s.known then some { s with program := rest }
      else some { s with
        known := if S.order = .first then name :: s.known else s.known
        program := S.expand name rest }
    | .declare c :: rest | .call c :: rest => some { s with done := c :: s.done, program := rest }
    | .remember name :: rest => some { s with known := name :: s.known, program := rest }
  | .throw =>
    match s.program with
    | .declare _ :: _ | .call _ :: _ => some { s with program := [] }
    | _ => none

def machine [DecidableEq ν] : System (Client ν κ) (Label ω) where
  init s := s = {}
  step s l s' := S.step s l = some s'

/-- What a name stands for has been made. -/
def Truthful (s : Client ν κ) : Prop := ∀ name ∈ s.known, ∀ c ∈ S.standsFor name, c ∈ s.done

end Scheme

/-- No set-up is under way: the next command is not one of its calls. -/
def Client.Settled (s : Client ν κ) : Prop := ∀ c rest, s.program ≠ .declare c :: rest

/-- No call that sets something up throws. -/
def uninterrupted (s : Client ν κ) (l : Label ω) : Prop := l = .throw → s.Settled

/-! ## What calls rely on -/

/-- What a call relies on, given the calls before it. More calls do no harm. -/
structure Reliance (κ : Type) where
  supported : List κ → κ → Prop
  mono : ∀ {xs ys c}, xs ⊆ ys → supported xs c → supported ys c

/-- Every call of a list comes after what it relies on. -/
def Reliance.Chain (R : Reliance κ) : List κ → List κ → Prop
  | _, [] => True
  | before, c :: cs => R.supported before c ∧ R.Chain (c :: before) cs

/-- Every call of a program comes after what it relies on, as long as names tell the truth. -/
def Scheme.Ready (S : Scheme ν κ ω) (R : Reliance κ) : List κ → List (Command ν κ) → Prop
  | _, [] => True
  | before, .ensure name :: rest => S.Ready R (S.standsFor name ++ before) rest
  | before, .declare c :: rest | before, .call c :: rest =>
    R.supported before c ∧ S.Ready R (c :: before) rest
  | before, .remember name :: rest =>
    (∀ c ∈ S.standsFor name, c ∈ before) ∧ S.Ready R before rest

/-- Operations as they are written: they leave the set-up to names, and ensure those that their
calls rely on. -/
structure Scheme.Sensible (S : Scheme ν κ ω) (R : Reliance κ) : Prop where
  chain : ∀ name, R.Chain [] (S.standsFor name)
  ready : ∀ op, S.Ready R [] (S.compile op)
  plain : ∀ op c, .declare c ∉ S.compile op

variable {S : Scheme ν κ ω} {R : Reliance κ}

theorem Reliance.Chain.mono {xs ys cs : List κ} (h : R.Chain xs cs) (hsub : xs ⊆ ys) :
    R.Chain ys cs := by
  induction cs generalizing xs ys with
  | nil => trivial
  | cons c cs ih =>
    exact ⟨R.mono hsub h.1, ih h.2 (List.cons_subset_cons c hsub)⟩

theorem ready_mono {xs ys : List κ} {p : List (Command ν κ)} (h : S.Ready R xs p)
    (hsub : xs ⊆ ys) : S.Ready R ys p := by
  induction p generalizing xs ys with
  | nil => trivial
  | cons command p ih =>
    cases command with
    | ensure name =>
      refine ih h fun x hx => ?_
      rw [List.mem_append] at hx ⊢
      exact hx.imp_right fun hx => hsub hx
    | declare c | call c => exact ⟨R.mono hsub h.1, ih h.2 (List.cons_subset_cons c hsub)⟩
    | remember name => exact ⟨fun c hc => hsub (h.1 c hc), ih h.2 hsub⟩

/-- The calls of a name may be put in front of a program that comes after them. -/
theorem ready_declares {xs cs : List κ} {rest : List (Command ν κ)} (hchain : R.Chain xs cs)
    (h : S.Ready R (cs ++ xs) rest) : S.Ready R xs (cs.map .declare ++ rest) := by
  induction cs generalizing xs with
  | nil => exact h
  | cons c cs ih =>
    refine ⟨hchain.1, ih hchain.2 (ready_mono h fun x hx => ?_)⟩
    simp only [List.cons_append, List.mem_cons, List.mem_append] at hx ⊢
    tauto

theorem ready_expand (hS : S.Sensible R) {xs : List κ} {name : ν} {rest : List (Command ν κ)}
    (h : S.Ready R (S.standsFor name ++ xs) rest) : S.Ready R xs (S.expand name rest) := by
  refine ready_declares ((hS.chain name).mono (List.nil_subset _)) ?_
  split
  · exact h
  · exact ⟨fun c hc => List.mem_append_left _ hc, h⟩

/-! ## Uninterrupted runs -/

/-- The set-up calls stand at the front of a program, and are the only ones still owed to the names
remembered. -/
structure Sound (S : Scheme ν κ ω) (R : Reliance κ) (s : Client ν κ) : Prop where
  known : ∀ name ∈ s.known, ∀ c ∈ S.standsFor name, c ∈ s.done ∨ .declare c ∈ s.program
  front : ∃ (cs : List κ) (rest : List (Command ν κ)),
    s.program = cs.map .declare ++ rest ∧ ∀ c, .declare c ∉ rest
  ready : S.Ready R s.done s.program
  supported : Always (fun c before => R.supported before c) s.done

theorem Sound.plain {s : Client ν κ} (h : Sound S R s) (hsettled : s.Settled) (c : κ) :
    .declare c ∉ s.program := by
  obtain ⟨cs, rest, hprogram, hplain⟩ := h.front
  cases cs with
  | nil =>
    rw [hprogram]
    exact hplain c
  | cons c' cs => exact absurd hprogram (hsettled c' _)

/-- Where no set-up is under way, names tell the truth. -/
theorem Sound.truthful {s : Client ν κ} (h : Sound S R s) (hsettled : s.Settled) :
    S.Truthful s :=
  fun name hname c hc => (h.known name hname c hc).resolve_right (h.plain hsettled c)

/-- Going on, with no set-up under way. -/
theorem Sound.advance {s s' : Client ν κ} (h : Sound S R s) (hsettled : s.Settled)
    (hknown : s'.known = s.known) (hdone : s.done ⊆ s'.done)
    (hplain : ∀ c, .declare c ∉ s'.program) (hready : S.Ready R s'.done s'.program)
    (hsupported : Always (fun c before => R.supported before c) s'.done) : Sound S R s' := by
  refine ⟨fun name hname c hc => .inl (hdone ?_), ⟨[], s'.program, rfl, hplain⟩, hready, hsupported⟩
  exact h.truthful hsettled name (hknown ▸ hname) c hc

theorem sound_init : Sound S R {} :=
  ⟨by simp, ⟨[], [], rfl, by simp⟩, trivial, trivial⟩

/-- A name that is not known is replaced by what it stands for. -/
theorem sound_expand (hS : S.Sensible R) {s : Client ν κ} (h : Sound S R s) {name : ν}
    {rest : List (Command ν κ)} (hprogram : s.program = .ensure name :: rest) :
    Sound S R { s with
      known := if S.order = .first then name :: s.known else s.known
      program := S.expand name rest } := by
  have hsettled : s.Settled := by simp [Client.Settled, hprogram]
  have hready := h.ready
  have hrest : ∀ c, .declare c ∉ rest := fun c hc =>
    h.plain hsettled c (hprogram ▸ List.mem_cons_of_mem _ hc)
  rw [hprogram] at hready
  refine ⟨fun name' hname' c hc => ?_, ⟨S.standsFor name, _, rfl, fun c hc => ?_⟩,
    ready_expand hS hready, h.supported⟩
  · have hold : name' ∈ s.known → c ∈ s.done := fun hname' => h.truthful hsettled name' hname' c hc
    split_ifs at hname'
    · rcases List.mem_cons.mp hname' with rfl | hname'
      · exact .inr (List.mem_append_left _ (List.mem_map_of_mem hc))
      · exact .inl (hold hname')
    · exact .inl (hold hname')
  · split at hc
    · exact hrest c hc
    · exact hrest c (by simpa using hc)

theorem sound_declare {s : Client ν κ} (h : Sound S R s) {c : κ} {rest : List (Command ν κ)}
    (hprogram : s.program = .declare c :: rest) :
    Sound S R { s with done := c :: s.done, program := rest } := by
  obtain ⟨cs, rest', hfront, hplain⟩ := h.front
  have hready := h.ready
  rw [hprogram] at hfront hready
  cases cs with
  | nil =>
    have hmem : .declare c ∈ Command.declare c :: rest := List.mem_cons_self
    rw [hfront] at hmem
    exact absurd hmem (hplain c)
  | cons c' cs =>
    obtain ⟨hc, hrest⟩ := List.cons.inj hfront
    refine ⟨fun name hname c₁ hc₁ => ?_, ⟨cs, rest', hrest, hplain⟩, hready.2,
      hready.1, h.supported⟩
    rcases h.known name hname c₁ hc₁ with hdone | hpending
    · exact .inl (List.mem_cons_of_mem _ hdone)
    · rw [hprogram] at hpending
      rcases List.mem_cons.mp hpending with heq | hpending
      · cases heq
        exact .inl List.mem_cons_self
      · exact .inr hpending

theorem sound_remember {s : Client ν κ} (h : Sound S R s) {name : ν}
    {rest : List (Command ν κ)} (hprogram : s.program = .remember name :: rest) :
    Sound S R { s with known := name :: s.known, program := rest } := by
  have hsettled : s.Settled := by simp [Client.Settled, hprogram]
  have hready := h.ready
  rw [hprogram] at hready
  refine ⟨fun name' hname' c hc => .inl ?_, ⟨[], rest, rfl, fun c hc => ?_⟩, hready.2,
    h.supported⟩
  · rcases List.mem_cons.mp hname' with rfl | hname'
    · exact hready.1 c hc
    · exact h.truthful hsettled name' hname' c hc
  · exact h.plain hsettled c (hprogram ▸ List.mem_cons_of_mem _ hc)

section

variable [DecidableEq ν]

theorem sound_step (hS : S.Sensible R) {s s' : Client ν κ} (h : Sound S R s) {l : Label ω}
    (hok : uninterrupted s l) (hstep : S.step s l = some s') : Sound S R s' := by
  have hready := h.ready
  cases l with
  | start op =>
    simp only [Scheme.step, List.isEmpty_iff, Option.ite_none_right_eq_some,
      Option.some.injEq] at hstep
    obtain ⟨hidle, rfl⟩ := hstep
    exact h.advance (by simp [Client.Settled, hidle]) rfl (fun _ => id) (hS.plain op)
      (ready_mono (hS.ready op) (List.nil_subset _)) h.supported
  | next =>
    simp only [Scheme.step] at hstep
    split at hstep
    · cases hstep
    · rename_i name rest hprogram
      by_cases hname : name ∈ s.known
      · -- The name is passed over: what it stands for is done.
        rw [if_pos hname] at hstep
        cases hstep
        have hsettled : s.Settled := by simp [Client.Settled, hprogram]
        rw [hprogram] at hready
        exact h.advance hsettled rfl (fun _ => id)
          (fun c hc => h.plain hsettled c (hprogram ▸ List.mem_cons_of_mem _ hc))
          (ready_mono hready (List.append_subset.mpr
            ⟨fun c hc => h.truthful hsettled name hname c hc, fun _ => id⟩)) h.supported
      · rw [if_neg hname] at hstep
        obtain rfl := Option.some.inj hstep
        exact sound_expand hS h hprogram
    · rename_i hprogram
      cases hstep
      exact sound_declare h hprogram
    · rename_i c rest hprogram
      cases hstep
      have hsettled : s.Settled := by simp [Client.Settled, hprogram]
      rw [hprogram] at hready
      exact h.advance hsettled rfl (fun _ => List.mem_cons_of_mem _)
        (fun c hc => h.plain hsettled c (hprogram ▸ List.mem_cons_of_mem _ hc)) hready.2
        ⟨hready.1, h.supported⟩
    · rename_i hprogram
      cases hstep
      exact sound_remember h hprogram
  | throw =>
    have hsettled := hok rfl
    have hdropped : Sound S R { s with program := [] } :=
      h.advance hsettled rfl (fun _ => id) (fun _ => List.not_mem_nil) trivial h.supported
    simp only [Scheme.step] at hstep
    split at hstep <;> cases hstep
    all_goals exact hdropped

/-- **Uninterrupted runs are sound.** -/
theorem sound (hS : S.Sensible R) {s : Client ν κ} (h : ReachIf S.machine uninterrupted s) :
    Sound S R s := by
  refine h.invariant (fun s hs => ?_) fun s l s' _ ih hok hstep => sound_step hS ih hok hstep
  obtain rfl : s = {} := hs
  exact sound_init

/-! ## Remembered last -/

/-- **Names that are remembered last never lie**, whatever throws. -/
theorem truthful_of_last (hS : S.Sensible R) (hlast : S.order = .last) {s : Client ν κ}
    (h : Reach S.machine s) : S.Truthful s := by
  suffices hinv : S.Truthful s ∧ S.Ready R s.done s.program from hinv.1
  refine h.invariant (I := fun s => S.Truthful s ∧ S.Ready R s.done s.program) (fun s hs => ?_)
    fun s l s' _ ih _ hstep => ?_
  · obtain rfl : s = {} := hs
    exact ⟨fun name hname => absurd hname List.not_mem_nil, trivial⟩
  obtain ⟨htruthful, hready⟩ := ih
  have hgrown : ∀ c, ∀ name ∈ s.known, ∀ x ∈ S.standsFor name, x ∈ c :: s.done :=
    fun c name hname x hx => List.mem_cons_of_mem _ (htruthful name hname x hx)
  change S.step s l = some s' at hstep
  cases l with
  | start op =>
    simp only [Scheme.step, Option.ite_none_right_eq_some, Option.some.injEq] at hstep
    obtain ⟨-, rfl⟩ := hstep
    exact ⟨htruthful, ready_mono (hS.ready op) (List.nil_subset _)⟩
  | throw =>
    simp only [Scheme.step] at hstep
    split at hstep <;> cases hstep
    all_goals exact ⟨htruthful, trivial⟩
  | next =>
    simp only [Scheme.step, hlast, reduceCtorEq, if_false] at hstep
    split at hstep
    · cases hstep
    · rename_i name rest hprogram
      rw [hprogram] at hready
      split_ifs at hstep with hname <;> cases hstep
      · refine ⟨htruthful, ready_mono hready ?_⟩
        exact List.append_subset.mpr ⟨fun c hc => htruthful name hname c hc, fun _ => id⟩
      · exact ⟨htruthful, ready_expand hS hready⟩
    all_goals
      rename_i hprogram
      rw [hprogram] at hready
      cases hstep
    · exact ⟨hgrown _, hready.2⟩
    · exact ⟨hgrown _, hready.2⟩
    · refine ⟨fun name' hname' => ?_, hready.2⟩
      rcases List.mem_cons.mp hname' with rfl | hname'
      · exact hready.1
      · exact htruthful name' hname'

end

/-! ## Remembered first -/

/-- The set-up call that throws. -/
def interruption (s : Client ν κ) (l : Label ω) : List κ :=
  match l, s.program with
  | .throw, .declare c :: _ => [c]
  | _, _ => []

/-- The client beside the record of the set-up calls that threw. -/
def Scheme.recorded [DecidableEq ν] (S : Scheme ν κ ω) : System (Client ν κ × List κ) (Label ω) :=
  S.machine.recording interruption

theorem interruption_eq_nil {s : Client ν κ} {l : Label ω} :
    interruption s l = [] ↔ uninterrupted s l := by
  unfold interruption uninterrupted Client.Settled
  split
  · rename_i c rest hprogram
    exact ⟨fun h => absurd h (List.cons_ne_nil _ _), fun h => absurd hprogram (h rfl c rest)⟩
  · rename_i hne
    exact ⟨fun _ hl c rest hprogram => hne c rest hl hprogram, fun _ => rfl⟩

/-- Set-up calls belong to one name, and to nobody else. -/
structure Scheme.Distinct (S : Scheme ν κ ω) : Prop where
  owner : ∀ {name name' c}, c ∈ S.standsFor name → c ∈ S.standsFor name' → name = name'
  nodup : ∀ name, (S.standsFor name).Nodup
  foreign : ∀ {op c}, .call c ∈ S.compile op → ∀ name, c ∉ S.standsFor name

/-- The set-up calls that are still to be made. -/
def Client.pending (s : Client ν κ) : List κ :=
  s.program.filterMap fun
    | .declare c => some c
    | _ => none

theorem mem_pending {s : Client ν κ} {c : κ} : c ∈ s.pending ↔ .declare c ∈ s.program := by
  simp only [Client.pending, List.mem_filterMap]
  constructor
  · rintro ⟨command, hmem, hc⟩
    split at hc <;> cases hc
    exact hmem
  · exact fun hmem => ⟨_, hmem, rfl⟩

/-- What is known of the set-up calls: those of a known name are made, still to be made, or lost
when they threw, and nobody else makes them. -/
structure Lost (S : Scheme ν κ ω) (s : Client ν κ) (lost : List κ) : Prop where
  pending : ∀ c ∈ s.pending, c ∉ s.done ∧ ∃ name ∈ s.known, c ∈ S.standsFor name
  nodup : s.pending.Nodup
  lost : ∀ c ∈ lost, c ∉ s.done ∧ c ∉ s.pending ∧ ∃ name ∈ s.known, c ∈ S.standsFor name
  calls : ∀ c, .call c ∈ s.program → ∀ name, c ∉ S.standsFor name
  done : ∀ c ∈ s.done, ∀ name, c ∈ S.standsFor name → name ∈ s.known

theorem lost_init : Lost S ({} : Client ν κ) [] :=
  ⟨by simp [Client.pending], by simp [Client.pending], by simp, by simp, by simp⟩

theorem Lost.shrink {s : Client ν κ} {lost : List κ} (h : Lost S s lost)
    {rest : List (Command ν κ)} (hsub : rest.Sublist s.program) :
    Lost S { s with program := rest } lost := by
  have hpending : ({ s with program := rest }).pending.Sublist s.pending := hsub.filterMap _
  exact ⟨fun c hc => h.pending c (hpending.subset hc), h.nodup.sublist hpending,
    fun c hc => ⟨(h.lost c hc).1, fun hc' => (h.lost c hc).2.1 (hpending.subset hc'),
      (h.lost c hc).2.2⟩, fun c hc => h.calls c (hsub.subset hc), h.done⟩

theorem lost_expand (hS : S.Distinct) (hfirst : S.order = .first) {s : Client ν κ}
    {lost : List κ} (h : Lost S s lost) {name : ν} {rest : List (Command ν κ)}
    (hprogram : s.program = .ensure name :: rest) (hname : name ∉ s.known) :
    Lost S { s with known := name :: s.known, program := S.expand name rest } lost := by
  have hpending : ({ s with known := name :: s.known, program := S.expand name rest } :
      Client ν κ).pending = S.standsFor name ++ s.pending := by
    simp [Client.pending, Scheme.expand, hfirst, hprogram, List.filterMap_map]
  -- None of them was made, or is to be made, or was lost before.
  have hknown : ∀ c ∈ S.standsFor name, ∀ name' ∈ s.known, c ∉ S.standsFor name' :=
    fun c hc name' hname' hc' => hname (hS.owner hc hc' ▸ hname')
  refine ⟨fun c hc => ?_, ?_, fun c hc => ?_, fun c hc => ?_, fun c hc name' hc' => ?_⟩
  · rw [hpending, List.mem_append] at hc
    rcases hc with hc | hc
    · exact ⟨fun hdone => hname (h.done c hdone name hc), name, List.mem_cons_self, hc⟩
    · obtain ⟨hdone, name', hname', hc'⟩ := h.pending c hc
      exact ⟨hdone, name', List.mem_cons_of_mem _ hname', hc'⟩
  · rw [hpending, List.nodup_append]
    refine ⟨hS.nodup name, h.nodup, ?_⟩
    rintro c hc _ hpend rfl
    obtain ⟨-, name', hname', hc'⟩ := h.pending c hpend
    exact hknown c hc name' hname' hc'
  · obtain ⟨hdone, hpend, name', hname', hc'⟩ := h.lost c hc
    refine ⟨hdone, ?_, name', List.mem_cons_of_mem _ hname', hc'⟩
    rw [hpending, List.mem_append, not_or]
    exact ⟨fun hnew => hknown c hnew name' hname' hc', hpend⟩
  · apply h.calls c
    rw [hprogram]
    simpa [Scheme.expand, hfirst] using hc
  · exact List.mem_cons_of_mem _ (h.done c hc name' hc')

theorem lost_declare (hS : S.Distinct) {s : Client ν κ} {lost : List κ} (h : Lost S s lost)
    {c : κ} {rest : List (Command ν κ)} (hprogram : s.program = .declare c :: rest) :
    Lost S { s with done := c :: s.done, program := rest } lost := by
  have hpending : s.pending = c :: ({ s with done := c :: s.done, program := rest } :
      Client ν κ).pending := by
    simp [Client.pending, hprogram]
  have hnodup := h.nodup
  rw [hpending, List.nodup_cons] at hnodup
  refine ⟨fun c' hc' => ?_, hnodup.2, fun c' hc' => ?_, fun c' hc' => ?_,
    fun c' hc' name' hname => ?_⟩
  · obtain ⟨hdone, hknown⟩ := h.pending c' (hpending ▸ List.mem_cons_of_mem _ hc')
    refine ⟨fun hdone' => ?_, hknown⟩
    rcases List.mem_cons.mp hdone' with rfl | hdone'
    · exact hnodup.1 hc'
    · exact hdone hdone'
  · obtain ⟨hdone, hpend, hknown⟩ := h.lost c' hc'
    rw [hpending, List.mem_cons, not_or] at hpend
    exact ⟨List.not_mem_cons_of_ne_of_not_mem hpend.1 hdone, hpend.2, hknown⟩
  · exact h.calls c' (hprogram ▸ List.mem_cons_of_mem _ hc')
  · rcases List.mem_cons.mp hc' with rfl | hc'
    · obtain ⟨-, name, hmem, hc⟩ := h.pending c' (hpending ▸ List.mem_cons_self)
      exact hS.owner hc hname ▸ hmem
    · exact h.done c' hc' name' hname

theorem lost_call {s : Client ν κ} {lost : List κ} (h : Lost S s lost) {c : κ}
    {rest : List (Command ν κ)} (hprogram : s.program = .call c :: rest) :
    Lost S { s with done := c :: s.done, program := rest } lost := by
  have hforeign := h.calls c (hprogram ▸ List.mem_cons_self)
  have hshrunk := h.shrink (hprogram ▸ List.sublist_cons_self _ _)
  have hne : ∀ {c' name}, c' ∈ S.standsFor name → c' ∉ s.done → c' ∉ c :: s.done :=
    fun hc' hdone => List.not_mem_cons_of_ne_of_not_mem (fun heq => hforeign _ (heq ▸ hc')) hdone
  refine ⟨fun c' hc' => ?_, hshrunk.nodup, fun c' hc' => ?_, hshrunk.calls,
    fun c' hc' name' hname => ?_⟩
  · obtain ⟨hdone, name, hname, hc⟩ := hshrunk.pending c' hc'
    exact ⟨hne hc hdone, name, hname, hc⟩
  · obtain ⟨hdone, hpend, name, hname, hc⟩ := hshrunk.lost c' hc'
    exact ⟨hne hc hdone, hpend, name, hname, hc⟩
  · rcases List.mem_cons.mp hc' with rfl | hc'
    · exact absurd hname (hforeign name')
    · exact h.done c' hc' name' hname

section

variable [DecidableEq ν]

theorem lost_step (hS : S.Distinct) (hfirst : S.order = .first)
    (hplain : ∀ op c, .declare c ∉ S.compile op) {s s' : Client ν κ} {lost : List κ}
    (h : Lost S s lost) {l : Label ω} (hstep : S.step s l = some s') :
    Lost S s' (interruption s l ++ lost) := by
  cases l with
  | start op =>
    simp only [Scheme.step, List.isEmpty_iff, Option.ite_none_right_eq_some,
      Option.some.injEq] at hstep
    obtain ⟨hidle, rfl⟩ := hstep
    have hpending : ({ s with program := S.compile op } : Client ν κ).pending = [] :=
      List.eq_nil_iff_forall_not_mem.mpr fun c hc => hplain op c (mem_pending.mp hc)
    refine ⟨by simp [hpending], by simp [hpending], fun c hc => ?_, fun c hc => hS.foreign hc,
      h.done⟩
    obtain ⟨hdone, -, hknown⟩ := h.lost c hc
    exact ⟨hdone, by simp [hpending], hknown⟩
  | next =>
    simp only [Scheme.step, hfirst, if_true] at hstep
    split at hstep
    · cases hstep
    · rename_i name rest hprogram
      split_ifs at hstep with hname <;> cases hstep
      · exact h.shrink (hprogram ▸ List.sublist_cons_self _ _)
      · exact lost_expand hS hfirst h hprogram hname
    all_goals
      rename_i hprogram
      cases hstep
    · exact lost_declare hS h hprogram
    · exact lost_call h hprogram
    · have hshrunk := h.shrink (hprogram ▸ List.sublist_cons_self _ _)
      have hgrown : ∀ {c : κ} {names name₀}, (∃ name ∈ names, c ∈ S.standsFor name) →
          ∃ name ∈ name₀ :: names, c ∈ S.standsFor name :=
        fun ⟨name, hname, hc⟩ => ⟨name, List.mem_cons_of_mem _ hname, hc⟩
      exact ⟨fun c hc => (hshrunk.pending c hc).imp_right hgrown, hshrunk.nodup,
        fun c hc => (hshrunk.lost c hc).imp_right fun h => h.imp_right hgrown, hshrunk.calls,
        fun c hc name hname => List.mem_cons_of_mem _ (h.done c hc name hname)⟩
  | throw =>
    have hdropped := h.shrink (List.nil_sublist s.program)
    simp only [Scheme.step] at hstep
    split at hstep
    · rename_i c rest hprogram
      cases hstep
      obtain ⟨hdone, hknown⟩ := h.pending c (mem_pending.mpr (hprogram ▸ List.mem_cons_self))
      refine ⟨hdropped.pending, hdropped.nodup, fun c' hc' => ?_, hdropped.calls, hdropped.done⟩
      simp only [interruption, hprogram, List.singleton_append, List.mem_cons] at hc'
      rcases hc' with rfl | hc'
      · exact ⟨hdone, List.not_mem_nil, hknown⟩
      · exact hdropped.lost c' hc'
    · rename_i hprogram
      cases hstep
      simpa [interruption, hprogram] using hdropped
    · cases hstep

/-- **Names that are remembered first tell the truth exactly when no set-up call has thrown.** -/
theorem truthful_iff (hS : S.Distinct) (hR : S.Sensible R) (hfirst : S.order = .first)
    {p : Client ν κ × List κ} (h : Reach S.recorded p) (hsettled : p.1.Settled) :
    S.Truthful p.1 ↔ p.2 = [] := by
  refine ⟨fun htruthful => ?_, fun hp => ?_⟩
  · have hlost : Lost S p.1 p.2 := by
      refine h.invariant (I := fun p => Lost S p.1 p.2) (fun p hp => ?_)
        fun p l p' _ ih _ hstep => ?_
      · have hinit : p.1 = {} := hp.1
        rw [hinit, hp.2]
        exact lost_init
      · rw [hstep.2]
        exact lost_step hS hfirst hR.plain ih hstep.1
    refine List.eq_nil_iff_forall_not_mem.mpr fun c hc => ?_
    obtain ⟨hdone, -, name, hname, hmem⟩ := hlost.lost c hc
    exact hdone (htruthful name hname c hmem)
  · have huninterrupted := (h.silent hp).mono fun s l => interruption_eq_nil.mp
    exact (sound hR huninterrupted).truthful hsettled

end

end Once
