import Mathlib.Data.List.AList

/-!
# Association lists as dictionaries

What is looked up after an insertion or a removal, for values of one type.
-/

namespace Table

variable {κ β : Type*} [DecidableEq κ]

theorem lookup_eq_some {d : AList fun _ : κ => β} {k : κ} {b : β} :
    d.lookup k = some b ↔ (⟨k, b⟩ : Sigma fun _ => β) ∈ d.entries :=
  AList.mem_lookup_iff

theorem lookup_erase (d : AList fun _ : κ => β) (k x : κ) :
    (d.erase k).lookup x = if k = x then none else d.lookup x := by
  split_ifs with h
  · rw [h, AList.lookup_erase]
  · exact AList.lookup_erase_ne (Ne.symm h)

theorem lookup_insert (d : AList fun _ : κ => β) (k x : κ) (b : β) :
    (d.insert k b).lookup x = if k = x then some b else d.lookup x := by
  split_ifs with h
  · rw [h, AList.lookup_insert]
  · exact AList.lookup_insert_ne (Ne.symm h)

theorem lookup_erase_eq_some {d : AList fun _ : κ => β} {k x : κ} {b : β} :
    (d.erase k).lookup x = some b ↔ k ≠ x ∧ d.lookup x = some b := by
  rw [lookup_erase]
  split_ifs with h <;> simp [h]

theorem mem_values {d : AList fun _ : κ => β} {b : β} :
    b ∈ d.entries.map Sigma.snd ↔ ∃ k, d.lookup k = some b := by
  simp only [List.mem_map, Sigma.exists, lookup_eq_some]
  constructor
  · intro h
    obtain ⟨k, b', h, rfl⟩ := h
    exact ⟨k, h⟩
  · intro h
    obtain ⟨k, h⟩ := h
    exact ⟨k, b, h, rfl⟩

end Table
