import Mathlib.Algebra.Order.Group.Nat

/-!
# A circuit breaker over consecutive failures

A breaker stands between a caller and a call that may fail. It is closed until so many handled
failures in a row have gone through it, and then open: it rejects every attempt until its cool-down
has passed. The next attempt after that is the *probe*; the breaker is half-open while it runs, and
holds back the attempts that arrive meanwhile. A failure the breaker does not handle goes through
it unnoticed, except that it ends a probe like a success.
-/

namespace Breaker

inductive Circuit
  | closed
  | opened (since : ℕ)
  | halfOpen
deriving DecidableEq, Repr

/-- What becomes of an attempt that arrives at the breaker. -/
inductive Entry
  | run
  | probe
  | hold
  | reject
deriving DecidableEq, Repr

/-- How the call behind the breaker ended. -/
inductive Verdict
  | success
  | handled
  | unhandled
deriving DecidableEq, Repr

end Breaker

open Breaker in
structure Breaker where
  circuit : Circuit := .closed
  /-- The handled failures in a row. -/
  failures : ℕ := 0
deriving DecidableEq, Repr

namespace Breaker

/-- The breaker is open and its cool-down has not elapsed. -/
def Blocks (cooldown now : ℕ) (b : Breaker) : Prop :=
  match b.circuit with
  | .opened since => now - since < cooldown
  | .closed | .halfOpen => False

instance (cooldown now : ℕ) (b : Breaker) : Decidable (b.Blocks cooldown now) := by
  unfold Blocks; cases b.circuit <;> infer_instance

/-- An attempt arrives. -/
def arrive (cooldown now : ℕ) (b : Breaker) : Entry × Breaker :=
  match b.circuit with
  | .closed => (.run, b)
  | .halfOpen => (.hold, b)
  | .opened since =>
    if now - since < cooldown then (.reject, b) else (.probe, { b with circuit := .halfOpen })

/-- The breaker opens, unless it is open already. -/
def trip (now : ℕ) (b : Breaker) : Breaker :=
  match b.circuit with
  | .opened _ => b
  | .closed | .halfOpen => { b with circuit := .opened now }

/-- A half-open breaker closes. -/
def close (b : Breaker) : Breaker :=
  match b.circuit with
  | .halfOpen => { b with circuit := .closed }
  | .closed | .opened _ => b

/-- A call let through the closed breaker ends. -/
def ran (threshold now : ℕ) (b : Breaker) : Verdict → Breaker
  | .success => { b with failures := 0 }
  | .handled =>
    if threshold ≤ b.failures + 1 then { b with failures := b.failures + 1 }.trip now
    else { b with failures := b.failures + 1 }
  | .unhandled => b

/-- The probe ends. -/
def probed (now : ℕ) (b : Breaker) : Verdict → Breaker
  | .success => { b with failures := 0 }.close
  | .handled => { b with failures := b.failures + 1 }.trip now
  | .unhandled => b.close

/-- A call the breaker let through ends. -/
def settle (threshold now : ℕ) (probe : Bool) (b : Breaker) (v : Verdict) : Breaker :=
  if probe then b.probed now v else b.ran threshold now v

variable {cooldown threshold now : ℕ} {b : Breaker}

@[simp] theorem failures_trip : (b.trip now).failures = b.failures := by
  unfold trip
  cases b.circuit <;> rfl

@[simp] theorem failures_close : b.close.failures = b.failures := by
  unfold close
  cases b.circuit <;> rfl

/-- **Only handled failures count, and a success starts the count again.** -/
theorem failures_settle (probe : Bool) (v : Verdict) :
    (b.settle threshold now probe v).failures =
      match v with
      | .success => 0
      | .handled => b.failures + 1
      | .unhandled => b.failures := by
  cases probe with
  | true => cases v <;> simp [settle, probed]
  | false =>
    cases v with
    | handled =>
      rw [settle, if_neg (by decide), ran]
      split_ifs
      · rw [failures_trip]
      · rfl
    | _ => rfl

@[simp] theorem failures_arrive : (b.arrive cooldown now).2.failures = b.failures := by
  unfold arrive
  cases b.circuit with
  | opened since => dsimp only; split_ifs <;> rfl
  | _ => rfl

/-- A blocking breaker rejects, and only it. -/
theorem arrive_reject_iff : (b.arrive cooldown now).1 = .reject ↔ b.Blocks cooldown now := by
  unfold arrive Blocks
  cases b.circuit with
  | opened since => dsimp only; split_ifs with h <;> simp [h]
  | _ => simp

/-- **A breaker that opens was given a handled failure**, the last of enough in a row or the
probe's. -/
theorem opened_settle {probe : Bool} {v : Verdict} {since : ℕ}
    (h : (b.settle threshold now probe v).circuit = .opened since) :
    b.circuit = .opened since ∨ v = .handled ∧ (probe = true ∨ threshold ≤ b.failures + 1) := by
  cases probe with
  | true =>
    cases v with
    | handled => exact .inr ⟨rfl, .inl rfl⟩
    | _ =>
      left
      cases hb : b.circuit <;> simp_all [settle, probed, close]
  | false =>
    rw [settle, if_neg (by decide)] at h
    cases v with
    | handled =>
      rw [ran] at h
      split_ifs at h with hfull
      · exact .inr ⟨rfl, .inr hfull⟩
      · exact .inl h
    | _ => exact .inl h

end Breaker
