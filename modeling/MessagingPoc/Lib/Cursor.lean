import Mathlib.Data.List.Pairwise

/-!
# Logs read through a cursor

A log is a list of records in the order of their keys. A reader holds a cursor and reads the first
record at or above it; the cursor then goes past that record, or is put somewhere else. What a
reader has *seen* since it started covers the log up to the cursor.
-/

namespace Cursor

variable {α : Type*} {key : α → Nat} {log : List α} {seen : List Nat} {start cursor : Nat} {a : α}

/-- The records come in the order of their keys. -/
def Ordered (key : α → Nat) (log : List α) : Prop := (log.map key).Pairwise (· < ·)

/-- The record a reader at `cursor` reads. -/
def next (key : α → Nat) (log : List α) (cursor : Nat) : Option α :=
  log.find? fun a => decide (cursor ≤ key a)

/-- Every record from `start` on and below the cursor was seen. -/
def Covers (key : α → Nat) (log : List α) (seen : List Nat) (start cursor : Nat) : Prop :=
  ∀ a ∈ log, start ≤ key a → key a < cursor → key a ∈ seen

/-- The cursor is at most just past the end of the log. -/
def Within (key : α → Nat) (log : List α) (cursor : Nat) : Prop :=
  ∀ y, (∀ a ∈ log, key a < y) → cursor ≤ y

/-! ## Reading -/

theorem next_mem (h : next key log cursor = some a) : a ∈ log := List.mem_of_find?_eq_some h

theorem le_next (h : next key log cursor = some a) : cursor ≤ key a := by
  simpa using List.find?_some h

/-- The record read is the first one at or above the cursor. -/
theorem next_le (hlog : Ordered key log) (h : next key log cursor = some a) {b : α} (hb : b ∈ log)
    (hcursor : cursor ≤ key b) : key a ≤ key b := by
  obtain ⟨-, before, after, rfl, hbefore⟩ := List.find?_eq_some_iff_append.mp h
  rcases List.mem_append.mp hb with hb | hb
  · have hlt := hbefore b hb
    simp only [Bool.not_eq_true', decide_eq_false_iff_not] at hlt
    exact absurd hcursor hlt
  rcases List.mem_cons.mp hb with rfl | hb
  · exact Nat.le_refl _
  · rw [Ordered, List.map_append, List.map_cons] at hlog
    have htail := (List.pairwise_append.mp hlog).2.1
    exact Nat.le_of_lt ((List.pairwise_cons.mp htail).1 _ (List.mem_map_of_mem hb))

theorem next_ne_none {b : α} (hb : b ∈ log) (hcursor : cursor ≤ key b) :
    next key log cursor ≠ none := by
  intro hnone
  have hlt := List.find?_eq_none.mp hnone b hb
  exact hlt (decide_eq_true hcursor)

/-! ## Coverage -/

theorem covers_next (hlog : Ordered key log) (hcovers : Covers key log seen start cursor)
    (h : next key log cursor = some a) : Covers key log (key a :: seen) start (key a + 1) := by
  intro b hb hstart hlt
  by_cases hcursor : key b < cursor
  · exact List.mem_cons_of_mem _ (hcovers b hb hstart hcursor)
  · have hle := next_le hlog h hb (Nat.le_of_not_lt hcursor)
    have heq : key b = key a := Nat.le_antisymm (Nat.le_of_lt_succ hlt) hle
    exact heq ▸ List.mem_cons_self

theorem Covers.mono {seen' : List Nat} {cursor' : Nat} (h : Covers key log seen start cursor)
    (hseen : seen ⊆ seen') (hcursor : cursor' ≤ cursor) :
    Covers key log seen' start cursor' := by
  intro a ha hstart hlt
  exact hseen (h a ha hstart (Nat.lt_of_lt_of_le hlt hcursor))

/-- A record appended at the end comes after every cursor. -/
theorem Covers.append (h : Covers key log seen start cursor) (hwithin : Within key log cursor)
    (hnew : ∀ b ∈ log, key b < key a) : Covers key (log ++ [a]) seen start cursor := by
  intro b hb hstart hlt
  rcases List.mem_append.mp hb with hb | hb
  · exact h b hb hstart hlt
  · obtain rfl := List.mem_singleton.mp hb
    exact absurd (hwithin _ hnew) (Nat.not_le_of_lt hlt)

theorem Within.append (h : Within key log cursor) : Within key (log ++ [a]) cursor := by
  intro y hy
  exact h y fun b hb => hy b (List.mem_append_left _ hb)

theorem within_succ (ha : a ∈ log) : Within key log (key a + 1) := fun _ hy => hy a ha

theorem Within.mono {cursor' : Nat} (h : Within key log cursor) (hle : cursor' ≤ cursor) :
    Within key log cursor' := fun y hy => Nat.le_trans hle (h y hy)

theorem Ordered.append (h : Ordered key log) (hnew : ∀ b ∈ log, key b < key a) :
    Ordered key (log ++ [a]) := by
  rw [Ordered, List.map_append, List.map_singleton]
  refine List.pairwise_append.mpr ⟨h, List.pairwise_singleton _ _, fun x hx y hy => ?_⟩
  obtain ⟨b, hb, rfl⟩ := List.mem_map.mp hx
  rw [List.mem_singleton.mp hy]
  exact hnew b hb

end Cursor
