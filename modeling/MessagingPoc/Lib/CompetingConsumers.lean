import MessagingPoc.Lib.Machine
import Mathlib.Data.List.Nodup
import Mathlib.Logic.Function.Basic
import Mathlib.Order.Lattice

/-!
# Competing consumers

A queue whose consumers share its messages, each of them holding one message at most. Messages wait
on the queue, are held by a consumer, are parked for a later retry, or are gone. A queue may be
*partitioned*, its consumers owning groups of messages, or have a *single* active consumer.

The steps are everything that may happen to such a queue, and the trace records them, newest first.

* `conserved` — a message that arrived is in one place, once, from then on.
* `attached`, `alone` — who holds a message is attached, and holds no other.
* `deliveries_le` — how often a message is delivered at most.
* `head_of_held` — with a single active consumer the first one attached holds what is held.
* `pinned`, `alone_in_group` — what is held is pinned to its holder, so a group is held once.
-/

namespace CompetingConsumers

open Machine

/-- What never changes about a queue. -/
structure Discipline (α γ P : Type*) where
  group : α → γ
  priority : α → P
  partitioned : Bool
  single : Bool
  /-- May a message delivered so many times be tried again? -/
  retries : ℕ → Prop

inductive Act (α κ : Type*)
  | arrive (m : α)
  | attach (c : κ)
  /-- A consumer leaves; what it held it has given back before. -/
  | detach (c : κ)
  | deliver (m : α) (c : κ)
  /-- Given back by its consumer, to be the next. -/
  | giveBack (m : α)
  /-- Held no more, for good. -/
  | settle (m : α)
  | requeue (m : α)
  | park (m : α)
  | unpark (m : α)
  /-- Gone, held or not. -/
  | expire (m : α)
  /-- A look at the queue that delivers nothing. -/
  | scan
deriving DecidableEq

namespace Act

variable {α κ : Type*} [DecidableEq α]

@[simp] def arrives (m : α) : Act α κ → Bool
  | .arrive x => x = m
  | _ => false

@[simp] def delivers (m : α) : Act α κ → Bool
  | .deliver x _ => x = m
  | _ => false

@[simp] def returns (m : α) : Act α κ → Bool
  | .giveBack x => x = m
  | _ => false

/-- The message that is to be tried again. -/
def retried : Act α κ → Option α
  | .requeue m | .park m => some m
  | _ => none

/-- The message is gone for good. -/
@[simp] def ends (m : α) : Act α κ → Bool
  | .settle x | .expire x => x = m
  | _ => false

end Act

/-- A queue, its consumers, and what has happened to it. -/
structure Queue (α κ γ : Type*) where
  consumers : List κ := []
  pending : List α := []
  held : α → Option κ := fun _ => none
  /-- How many retries of a message are outstanding. -/
  parked : α → ℕ := fun _ => 0
  /-- The consumers that own groups, or owned them before they left. -/
  pins : γ → Option κ := fun _ => none
  trace : List (Act α κ) := []

variable {α κ γ P : Type*}

def Queue.record (S : Queue α κ γ) (a : Act α κ) : Queue α κ γ := { S with trace := a :: S.trace }

variable [DecidableEq α] [DecidableEq κ]

namespace Queue

def arrivals (S : Queue α κ γ) (m : α) : ℕ := S.trace.countP (Act.arrives m)
def deliveries (S : Queue α κ γ) (m : α) : ℕ := S.trace.countP (Act.delivers m)
def returns (S : Queue α κ γ) (m : α) : ℕ := S.trace.countP (Act.returns m)
def ends (S : Queue α κ γ) (m : α) : ℕ := S.trace.countP (Act.ends m)

/-- In how many places a message is. -/
def copies (S : Queue α κ γ) (m : α) : ℕ :=
  S.pending.count m + (S.held m).isSome.toNat + S.parked m + S.ends m

end Queue

/-- Everything that may happen to a queue. -/
inductive Step [LT P] (D : Discipline α γ P) : Queue α κ γ → Act α κ → Queue α κ γ → Prop
  | arrive {S m} (fresh : S.arrivals m = 0) :
      Step D S (.arrive m) ({ S with pending := S.pending ++ [m] }.record (.arrive m))
  | attach {S c} :
      Step D S (.attach c) ({ S with consumers := S.consumers ++ [c] }.record (.attach c))
  | detach {S c} (empty : ∀ m, S.held m ≠ some c) :
      Step D S (.detach c) ({ S with consumers := S.consumers.erase c }.record (.detach c))
  | deliver {S before after m c pins}
      (split : S.pending = before ++ m :: after)
      (attached : c ∈ S.consumers)
      (free : ∀ x, S.held x ≠ some c)
      (first : D.partitioned = true → ∀ x ∈ before, D.group x ≠ D.group m)
      (best : D.partitioned = false → ∀ x ∈ before, D.priority x < D.priority m)
      (exclusive : D.partitioned = false → D.single = true →
        (∀ x, S.held x = none) ∧ S.consumers.head? = some c)
      (pinned : D.partitioned = true → pins (D.group m) = some c)
      (kept : ∀ g o, S.pins g = some o → o ∈ S.consumers → pins g = some o) :
      Step D S (.deliver m c)
        ({ S with
            pending := before ++ after
            held := Function.update S.held m (some c)
            pins := pins }.record (.deliver m c))
  | giveBack {S m c} (h : S.held m = some c) :
      Step D S (.giveBack m)
        ({ S with
            pending := m :: S.pending
            held := Function.update S.held m none }.record (.giveBack m))
  | settle {S m c} (h : S.held m = some c) :
      Step D S (.settle m) ({ S with held := Function.update S.held m none }.record (.settle m))
  | requeue {S m c} (h : S.held m = some c) (retry : D.retries (S.deliveries m)) :
      Step D S (.requeue m)
        ({ S with
            pending := S.pending ++ [m]
            held := Function.update S.held m none }.record (.requeue m))
  | park {S m c} (h : S.held m = some c) (retry : D.retries (S.deliveries m)) :
      Step D S (.park m)
        ({ S with
            held := Function.update S.held m none
            parked := Function.update S.parked m (S.parked m + 1) }.record (.park m))
  | unpark {S m} (h : 0 < S.parked m) :
      Step D S (.unpark m)
        ({ S with
            pending := S.pending ++ [m]
            parked := Function.update S.parked m (S.parked m - 1) }.record (.unpark m))
  | expirePending {S m} (h : m ∈ S.pending) :
      Step D S (.expire m) ({ S with pending := S.pending.erase m }.record (.expire m))
  | expireHeld {S m c} (h : S.held m = some c) :
      Step D S (.expire m) ({ S with held := Function.update S.held m none }.record (.expire m))
  | scan {S pins}
      (kept : ∀ g o, S.pins g = some o → o ∈ S.consumers → pins g = some o) :
      Step D S .scan { S with pins := pins }

/-- A queue under everything that may happen to it. -/
def machine [LT P] (D : Discipline α γ P) : System (Queue α κ γ) (Act α κ) where
  init S := S = {}
  step := Step D

section

variable [LT P] {D : Discipline α γ P} {S S' : Queue α κ γ} {a : Act α κ}

/-! ## Nothing is lost, nothing is doubled -/

/-- Every act but a look is recorded. -/
theorem Step.trace_eq (h : Step D S a S') :
    S'.trace = a :: S.trace ∨ a = .scan ∧ S'.trace = S.trace := by
  cases h with
  | scan => exact .inr ⟨rfl, rfl⟩
  | _ => exact .inl rfl

theorem Step.counts (h : Step D S a S') (m : α) :
    S'.arrivals m = S.arrivals m + (a.arrives m).toNat ∧
      S'.deliveries m = S.deliveries m + (a.delivers m).toNat ∧
      S'.returns m = S.returns m + (a.returns m).toNat ∧
      S'.ends m = S.ends m + (a.ends m).toNat := by
  have hcons : ∀ p : Act α κ → Bool, (a :: S.trace).countP p = S.trace.countP p + (p a).toNat := by
    intro p
    rw [List.countP_cons]
    cases p a <;> rfl
  unfold Queue.arrivals Queue.deliveries Queue.returns Queue.ends
  rcases h.trace_eq with htrace | ⟨rfl, htrace⟩
  · simp only [htrace, hcons, and_self]
  · simp [htrace]

/-- A message has arrived once at most, and since then is in one place. -/
def Conserved (S : Queue α κ γ) : Prop := ∀ m, S.copies m = S.arrivals m ∧ S.arrivals m ≤ 1

omit [DecidableEq κ] in
theorem Conserved.held_eq_none (h : Conserved S) {m : α} (hm : m ∈ S.pending) :
    S.held m = none := by
  have hone := h m
  have hcount := List.count_pos_iff.mpr hm
  cases hheld : S.held m with
  | none => rfl
  | some c =>
    simp only [Queue.copies, hheld, Option.isSome_some, Bool.toNat_true] at hone
    omega

/-- Only one message moves in a step, and it moves from one place to another. -/
theorem Conserved.step (h : Conserved S) (hs : Step D S a S') : Conserved S' := by
  intro m
  have hone := h m
  obtain ⟨harrivals, -, -, hends⟩ := hs.counts m
  rw [Queue.copies, harrivals, hends]
  rw [Queue.copies] at hone
  cases hs with
  | @arrive x fresh =>
    by_cases hx : x = m
    · subst hx
      simp [Queue.record]
      omega
    · simpa [Queue.record, hx] using hone
  | attach | detach | scan => simpa [Queue.record] using hone
  | @deliver before after x c pins split =>
    have hnone := h.held_eq_none (m := x) (by simp [split])
    rw [split] at hone
    by_cases hx : x = m
    · subst hx
      simp [Queue.record, hnone] at hone ⊢
      omega
    · simpa [Queue.record, hx, Ne.symm hx, Function.update_of_ne] using hone
  | @giveBack x c hheld | @requeue x c hheld | @settle x c hheld | @expireHeld x c hheld
  | @park x c hheld =>
    by_cases hx : x = m
    · subst hx
      simp [Queue.record, hheld] at hone ⊢
      omega
    · simpa [Queue.record, hx, Ne.symm hx, Function.update_of_ne] using hone
  | @unpark x hparked =>
    by_cases hx : x = m
    · subst hx
      simp [Queue.record] at hone ⊢
      omega
    · simpa [Queue.record, hx, Ne.symm hx, Function.update_of_ne] using hone
  | @expirePending x hmem =>
    have hpos := List.count_pos_iff.mpr hmem
    by_cases hx : x = m
    · subst hx
      simp [Queue.record] at hone ⊢
      omega
    · simpa [Queue.record, hx, Ne.symm hx, List.count_erase_of_ne] using hone

theorem conserved (h : Reach (machine D) S) : Conserved S := by
  refine h.invariant (fun S hS => ?_) fun S a S' _ ih _ hs => ih.step hs
  obtain rfl : S = {} := hS
  intro m
  simp [Queue.copies, Queue.arrivals, Queue.ends]

omit [DecidableEq κ] in
theorem Conserved.arrivals_of_pending (h : Conserved S) {m : α} (hm : m ∈ S.pending) :
    S.arrivals m ≠ 0 := by
  have hone := h m
  have hcount := List.count_pos_iff.mpr hm
  rw [Queue.copies] at hone
  omega

omit [DecidableEq κ] in
theorem Conserved.arrivals_of_held (h : Conserved S) {m : α} {c : κ} (hm : S.held m = some c) :
    S.arrivals m ≠ 0 := by
  have hone := h m
  simp only [Queue.copies, hm, Option.isSome_some, Bool.toNat_true] at hone
  omega

omit [DecidableEq κ] in
theorem Conserved.arrivals_of_parked (h : Conserved S) {m : α} (hm : 0 < S.parked m) :
    S.arrivals m ≠ 0 := by
  have hone := h m
  rw [Queue.copies] at hone
  omega

theorem Conserved.arrivals_of_deliver (h : Conserved S) {m : α} {c : κ}
    (hs : Step D S (.deliver m c) S') : S.arrivals m ≠ 0 := by
  cases hs with
  | deliver split => exact h.arrivals_of_pending (by simp [split])

/-! ## Who holds a message -/

/-- A message held after a step was delivered by it, or was held before by who still holds it. -/
theorem Step.held (h : Step D S a S') {m : α} {c : κ} (hc : S'.held m = some c) :
    (a = .deliver m c ∧ c ∈ S.consumers ∧ ∀ x, S.held x ≠ some c) ∨
      (S.held m = some c ∧ a ≠ .detach c ∧ ∀ x, a ≠ .deliver x c) := by
  have hkept : ∀ x, Function.update S.held x none m = some c → S.held m = some c := by
    intro x hx
    by_cases hxm : m = x
    · subst hxm
      simp at hx
    · rwa [Function.update_of_ne hxm] at hx
  cases h with
  | @deliver before after x c' pins split attached free =>
    simp only [Queue.record] at hc
    by_cases hxm : m = x
    · subst hxm
      obtain rfl : c' = c := by simpa using hc
      exact .inl ⟨rfl, attached, free⟩
    · rw [Function.update_of_ne hxm] at hc
      refine .inr ⟨hc, by simp, fun y heq => free m ?_⟩
      rw [(Act.deliver.inj heq).2, hc]
  | @detach c' empty =>
    refine .inr ⟨hc, ?_, by simp⟩
    rintro ⟨⟩
    exact empty m hc
  | giveBack | settle | requeue | park | expireHeld => exact .inr ⟨hkept _ hc, by simp, by simp⟩
  | _ => exact .inr ⟨hc, by simp, by simp⟩

theorem Step.consumer_stays (h : Step D S a S') {c : κ} (hc : c ∈ S.consumers)
    (ha : a ≠ .detach c) : c ∈ S'.consumers := by
  cases h with
  | attach => exact List.mem_append_left _ hc
  | @detach c' =>
    refine (List.mem_erase_of_ne ?_).mpr hc
    rintro rfl
    exact ha rfl
  | _ => exact hc

theorem Step.head_stays (h : Step D S a S') {c : κ} (hc : S.consumers.head? = some c)
    (ha : a ≠ .detach c) : S'.consumers.head? = some c := by
  cases h with
  | attach =>
    show (S.consumers ++ _).head? = some c
    rw [List.head?_append, hc]
    rfl
  | @detach c' =>
    obtain ⟨rest, hrest⟩ := List.head?_eq_some_iff.mp hc
    have hne : c ≠ c' := fun heq => ha (heq ▸ rfl)
    show (S.consumers.erase c').head? = some c
    rw [hrest, List.erase_cons_tail (by simpa using hne)]
    rfl
  | _ => exact hc

theorem attached (h : Reach (machine D) S) {m : α} {c : κ} (hm : S.held m = some c) :
    c ∈ S.consumers := by
  refine h.invariant (I := fun S => ∀ m c, S.held m = some c → c ∈ S.consumers) (fun S hS => ?_)
    (fun S a S' _ ih _ hs m c hm => ?_) m c hm
  · obtain rfl : S = {} := hS
    simp
  · rcases Step.held hs hm with ⟨rfl, hc, -⟩ | ⟨hold, ha, -⟩
    · exact hs.consumer_stays hc (by simp)
    · exact hs.consumer_stays (ih m c hold) ha

/-- Who holds a message holds no other. -/
theorem alone (h : Reach (machine D) S) {m m' : α} {c : κ} (hm : S.held m = some c)
    (hm' : S.held m' = some c) : m = m' := by
  refine h.invariant (I := fun S => ∀ m m' c, S.held m = some c → S.held m' = some c → m = m')
    (fun S hS => ?_) (fun S a S' _ ih _ hs m m' c hm hm' => ?_) m m' c hm hm'
  · obtain rfl : S = {} := hS
    simp
  · rcases Step.held hs hm with ⟨rfl, -, hfree⟩ | ⟨hold, -, hne⟩
    · rcases Step.held hs hm' with ⟨heq, -⟩ | ⟨hold', -⟩
      · exact (Act.deliver.inj heq).1
      · exact absurd hold' (hfree m')
    · rcases Step.held hs hm' with ⟨rfl, -, hfree⟩ | ⟨hold', -⟩
      · exact absurd hold (hfree m)
      · exact ih m m' c hold hold'

/-- A single active consumer is the first one attached. -/
theorem head_of_held (h : Reach (machine D) S) (hpart : D.partitioned = false)
    (hsingle : D.single = true) {m : α} {c : κ} (hm : S.held m = some c) :
    S.consumers.head? = some c := by
  refine h.invariant (I := fun S => ∀ m c, S.held m = some c → S.consumers.head? = some c)
    (fun S hS => ?_) (fun S a S' _ ih _ hs m c hm => ?_) m c hm
  · obtain rfl : S = {} := hS
    simp
  · rcases Step.held hs hm with ⟨rfl, -, -⟩ | ⟨hold, ha, -⟩
    · cases hs with
      | deliver _ _ _ _ _ exclusive => exact (exclusive hpart hsingle).2
    · exact hs.head_stays (ih m c hold) ha

/-! ## Groups -/

theorem Step.pin_stays (h : Step D S a S') {g : γ} {o : κ} (hg : S.pins g = some o)
    (ho : o ∈ S.consumers) : S'.pins g = some o := by
  cases h with
  | deliver _ _ _ _ _ _ _ kept => exact kept g o hg ho
  | scan kept => exact kept g o hg ho
  | _ => exact hg

/-- What is held is pinned to its holder. -/
theorem pinned (h : Reach (machine D) S) (hpart : D.partitioned = true) {m : α} {c : κ}
    (hm : S.held m = some c) : S.pins (D.group m) = some c := by
  refine h.invariant (I := fun S => ∀ m c, S.held m = some c → S.pins (D.group m) = some c)
    (fun S hS => ?_) (fun S a S' hr ih _ hs m c hm => ?_) m c hm
  · obtain rfl : S = {} := hS
    simp
  · rcases Step.held hs hm with ⟨rfl, -, -⟩ | ⟨hold, -, -⟩
    · cases hs with
      | deliver _ _ _ _ _ _ pinned => exact pinned hpart
    · exact hs.pin_stays (ih m c hold) (attached hr hold)

theorem alone_in_group (h : Reach (machine D) S) (hpart : D.partitioned = true) {m m' : α}
    {c c' : κ} (hm : S.held m = some c) (hm' : S.held m' = some c')
    (hgroup : D.group m = D.group m') : m = m' := by
  have hpin := pinned h hpart hm
  rw [hgroup, pinned h hpart hm', Option.some.injEq] at hpin
  exact alone h hm (hpin ▸ hm')

/-- Once a message of a group is delivered, the group is its consumer's until that leaves. -/
theorem owns (h : Reach (machine D) S) (hpart : D.partitioned = true) {newer older : List (Act α κ)}
    {m : α} {c : κ} (htrace : S.trace = newer ++ .deliver m c :: older)
    (hstays : .detach c ∉ newer) : c ∈ S.consumers ∧ S.pins (D.group m) = some c := by
  refine h.invariant (I := fun S => ∀ newer, S.trace = newer ++ .deliver m c :: older →
    .detach c ∉ newer → c ∈ S.consumers ∧ S.pins (D.group m) = some c) (fun S hS => ?_)
    (fun S a S' _ ih _ hs newer htrace hstays => ?_) newer htrace hstays
  · obtain rfl : S = {} := hS
    simp
  · rcases hs.trace_eq with htrace' | ⟨rfl, htrace'⟩
    · rw [htrace'] at htrace
      cases newer with
      | nil =>
        obtain ⟨rfl, -⟩ := List.cons.inj htrace
        cases hs with
        | deliver _ attached _ _ _ _ pinned => exact ⟨attached, pinned hpart⟩
      | cons b newer =>
        obtain ⟨rfl, hold⟩ := List.cons.inj htrace
        rw [List.mem_cons, not_or] at hstays
        obtain ⟨hc, hpin⟩ := ih newer hold hstays.2
        exact ⟨hs.consumer_stays hc (Ne.symm hstays.1), hs.pin_stays hpin hc⟩
    · obtain ⟨hc, hpin⟩ := ih newer (htrace' ▸ htrace) hstays
      exact ⟨hs.consumer_stays hc (by simp), hs.pin_stays hpin hc⟩

/-- **A group changes hands only if its consumer has left.** -/
theorem handover (h : Reach (machine D) S) (hpart : D.partitioned = true)
    {newer between older : List (Act α κ)} {m m' : α} {c c' : κ}
    (htrace : S.trace = newer ++ .deliver m' c' :: between ++ .deliver m c :: older)
    (hgroup : D.group m = D.group m') (hne : c ≠ c') : .detach c ∈ between := by
  refine h.invariant (I := fun S => ∀ newer,
    S.trace = newer ++ .deliver m' c' :: between ++ .deliver m c :: older → .detach c ∈ between)
    (fun S hS => ?_) (fun S a S' hr ih _ hs newer htrace => ?_) newer htrace
  · obtain rfl : S = {} := hS
    simp
  · rcases hs.trace_eq with htrace' | ⟨-, htrace'⟩
    · rw [htrace'] at htrace
      cases newer with
      | nil =>
        obtain ⟨rfl, hold⟩ := List.cons.inj htrace
        by_contra hstays
        obtain ⟨hc, hpin⟩ := owns hr hpart hold hstays
        cases hs with
        | deliver _ _ _ _ _ _ pinned kept =>
          have := kept _ _ hpin hc
          rw [hgroup, pinned hpart, Option.some.injEq] at this
          exact hne this.symm
      | cons b newer =>
        obtain ⟨-, hold⟩ := List.cons.inj htrace
        exact ih newer hold
    · exact ih newer (htrace' ▸ htrace)

/-! ## How often a message is delivered -/

/-- A message that waits can be delivered once more. -/
def Budgeted (limit : ℕ) (S : Queue α κ γ) (m : α) : Prop :=
  (S.arrivals m = 0 → S.deliveries m = 0) ∧
    (S.pending.count m + S.parked m ≠ 0 → S.deliveries m < max 1 limit + S.returns m) ∧
    S.deliveries m ≤ max 1 limit + S.returns m

theorem budgeted {limit : ℕ} (hlimit : ∀ n, D.retries n → n < limit) (h : Reach (machine D) S)
    (m : α) : Budgeted limit S m := by
  refine h.invariant (I := fun S => ∀ m, Budgeted limit S m) (fun S hS => ?_)
    (fun S a S' hr ih _ hs m => ?_) m
  · obtain rfl : S = {} := hS
    intro m
    simp [Budgeted, Queue.arrivals, Queue.deliveries]
  · have hone := conserved hr m
    have hold := ih m
    obtain ⟨harrivals, hdeliveries, hreturns, -⟩ := hs.counts m
    rw [Budgeted, harrivals, hdeliveries, hreturns]
    rw [Queue.copies] at hone
    rw [Budgeted] at hold
    cases hs with
    | attach | detach | scan => simpa [Queue.record] using hold
    | settle | expireHeld => simpa [Queue.record] using hold
    | @arrive x fresh =>
      by_cases hx : x = m
      · subst hx
        have hzero := hold.1 fresh
        have hnone : (Act.delivers x (.arrive x : Act α κ)).toNat = 0 := rfl
        rw [hzero, hnone]
        exact ⟨fun _ => rfl, fun _ => by omega, by omega⟩
      · simpa [Queue.record, hx] using hold
    | @deliver before after x c pins split =>
      rw [split] at hone hold
      by_cases hx : x = m
      · subst hx
        simp [Queue.record] at hone hold ⊢
        omega
      · simpa [Queue.record, hx, Ne.symm hx] using hold
    | @giveBack x c hheld =>
      by_cases hx : x = m
      · subst hx
        simp [Queue.record, hheld] at hone hold ⊢
        omega
      · simpa [Queue.record, hx] using hold
    | @requeue x c hheld retry | @park x c hheld retry =>
      have hbudget := hlimit _ retry
      by_cases hx : x = m
      · subst hx
        simp [Queue.record, hheld] at hone hold ⊢
        omega
      · simpa [Queue.record, hx, Ne.symm hx] using hold
    | @unpark x hparked =>
      by_cases hx : x = m
      · subst hx
        simp [Queue.record] at hone hold ⊢
        omega
      · simpa [Queue.record, hx, Ne.symm hx] using hold
    | @expirePending x hmem =>
      have hsub : (S.pending.erase x).count m ≤ S.pending.count m :=
        List.erase_sublist.count_le m
      simp [Queue.record] at hold ⊢
      omega

/-- **A message is delivered up to the limit, and once more each time it was given back.** -/
theorem deliveries_le {limit : ℕ} (hlimit : ∀ n, D.retries n → n < limit)
    (h : Reach (machine D) S) (m : α) : S.deliveries m ≤ max 1 limit + S.returns m :=
  (budgeted hlimit h m).2.2

end

end CompetingConsumers
