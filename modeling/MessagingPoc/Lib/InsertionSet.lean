import Mathlib.Data.List.Nodup

/-!
# Sets that keep their insertion order

A duplicate-free list with an `add` that ignores what is already there: a hash set enumerated in
insertion order.
-/

/-- A duplicate-free list. -/
structure InsertionSet (α : Type*) where
  items : List α
  nodup : items.Nodup

namespace InsertionSet

variable {α : Type*} [DecidableEq α]

def empty : InsertionSet α := ⟨[], List.nodup_nil⟩

def add (s : InsertionSet α) (a : α) : InsertionSet α :=
  if h : a ∈ s.items then s
  else ⟨s.items ++ [a], List.nodup_append.mpr ⟨s.nodup, List.nodup_singleton a, fun b hb c hc => by
    rintro rfl
    exact h (List.mem_singleton.mp hc ▸ hb)⟩⟩

def erase (s : InsertionSet α) (a : α) : InsertionSet α := ⟨s.items.erase a, s.nodup.erase a⟩

omit [DecidableEq α] in
@[simp] theorem items_empty : (empty : InsertionSet α).items = [] := rfl

@[simp] theorem mem_add {s : InsertionSet α} {a b : α} :
    b ∈ (s.add a).items ↔ b ∈ s.items ∨ b = a := by
  unfold add
  split_ifs with h
  · exact ⟨.inl, fun hb => hb.elim id fun hba => hba ▸ h⟩
  · simp

end InsertionSet
