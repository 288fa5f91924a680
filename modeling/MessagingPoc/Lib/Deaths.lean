import Mathlib.Data.List.Basic

/-!
# The death history of an AMQP message

A broker keeps, with every message it dead-letters, a list of the queues the message died on: one
entry for each queue and reason, with a count, the entry updated last in front. `deathsOn` is what a
reader finds who looks for the first entry of a queue and takes its count for the number of times
the message died there: it is the count for the *last* reason (`deathsOn_recordDeath_self`).
-/

namespace Amqp

/-- Why a broker dead-letters a message. -/
inductive Reason
  | rejected
  | expired
  | deliveryLimit
deriving DecidableEq, Repr

structure Death where
  queue : String
  reason : Reason
  count : Nat
deriving DecidableEq, Repr

/-- The entry of a queue and a reason. -/
def Death.isFor (queue : String) (reason : Reason) (d : Death) : Bool :=
  d.queue = queue ∧ d.reason = reason

/-- How often a message died on a queue for a reason. -/
def deathCount (deaths : List Death) (queue : String) (reason : Reason) : Nat :=
  ((deaths.find? (Death.isFor queue reason)).map (·.count)).getD 0

/-- The count of the first entry of a queue, whatever its reason. -/
def deathsOn (deaths : List Death) (queue : String) : Nat :=
  ((deaths.find? (·.queue = queue)).map (·.count)).getD 0

/-- Count a death: its entry moves to the front. -/
def recordDeath (deaths : List Death) (queue : String) (reason : Reason) : List Death :=
  ⟨queue, reason, deathCount deaths queue reason + 1⟩ ::
    deaths.filter fun d => !d.isFor queue reason

variable {deaths : List Death} {queue queue' : String} {reason reason' : Reason}

@[simp] theorem deathCount_recordDeath_self :
    deathCount (recordDeath deaths queue reason) queue reason =
      deathCount deaths queue reason + 1 := by
  simp [recordDeath, deathCount, Death.isFor]

/-- The other entries keep their counts. -/
theorem deathCount_recordDeath_ne (h : ¬ (queue = queue' ∧ reason = reason')) :
    deathCount (recordDeath deaths queue reason) queue' reason' =
      deathCount deaths queue' reason' := by
  have hfind : (deaths.filter fun d => !d.isFor queue reason).find? (Death.isFor queue' reason') =
      deaths.find? (Death.isFor queue' reason') := by
    rw [List.find?_filter]
    congr 1
    funext d
    have hkept : d.isFor queue' reason' → !d.isFor queue reason := by
      simp only [Death.isFor, decide_eq_true_eq, Bool.not_eq_true', decide_eq_false_iff_not]
      rintro ⟨rfl, rfl⟩ ⟨rfl, rfl⟩
      exact h ⟨rfl, rfl⟩
    by_cases hd : d.isFor queue' reason' <;> simp_all
  have hhead : Death.isFor queue' reason'
      ⟨queue, reason, deathCount deaths queue reason + 1⟩ = false := by
    simpa [Death.isFor] using fun hq hr => h ⟨hq, hr⟩
  rw [recordDeath, deathCount, List.find?_cons, hhead, hfind]
  rfl

/-- **The first entry of a queue counts the last reason only.** -/
@[simp] theorem deathsOn_recordDeath_self :
    deathsOn (recordDeath deaths queue reason) queue = deathCount deaths queue reason + 1 := by
  simp [recordDeath, deathsOn]

@[simp] theorem deathsOn_recordDeath_ne (h : queue ≠ queue') :
    deathsOn (recordDeath deaths queue reason) queue' = deathsOn deaths queue' := by
  have hfind : (deaths.filter fun d => !d.isFor queue reason).find? (·.queue = queue') =
      deaths.find? (·.queue = queue') := by
    rw [List.find?_filter]
    congr 1
    funext d
    have hkept : d.queue = queue' → !d.isFor queue reason := by
      simp only [Death.isFor, Bool.not_eq_true', decide_eq_false_iff_not]
      rintro rfl ⟨rfl, -⟩
      exact h rfl
    by_cases hd : d.queue = queue' <;> simp_all
  rw [recordDeath, deathsOn, List.find?_cons, decide_eq_false h, hfind]
  rfl

theorem deathCount_of_not_mem (h : ∀ d ∈ deaths, d.queue ≠ queue) :
    deathCount deaths queue reason = 0 := by
  rw [deathCount, List.find?_eq_none.mpr fun d hd => by simp [Death.isFor, h d hd]]
  rfl

theorem deathsOn_of_not_mem (h : ∀ d ∈ deaths, d.queue ≠ queue) : deathsOn deaths queue = 0 := by
  rw [deathsOn, List.find?_eq_none.mpr fun d hd => by simp [h d hd]]
  rfl

end Amqp
