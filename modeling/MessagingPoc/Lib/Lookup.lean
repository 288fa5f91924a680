import Mathlib.Data.List.Nodup
import Mathlib.Data.List.Perm.Basic

/-!
# Lists as growing tables

Rows are appended at the end and updated in place, and are found by their position.
-/

namespace Lookup

variable {α : Type*} {l : List α} {i j : Nat} {a b : α}

theorem push (l : List α) (a : α) (j : Nat) :
    (l ++ [a])[j]? = if j = l.length then some a else l[j]? := by
  split_ifs with h
  · rw [h, List.getElem?_concat_length]
  · rcases Nat.lt_or_gt_of_ne h with hlt | hgt
    · exact List.getElem?_append_left hlt
    · rw [List.getElem?_eq_none_iff.mpr (Nat.le_of_lt hgt), List.getElem?_eq_none_iff]
      rw [List.length_append, List.length_singleton]
      exact hgt

theorem push_of_some (h : l[j]? = some b) (a : α) : (l ++ [a])[j]? = some b := by
  obtain ⟨hlt, -⟩ := List.getElem?_eq_some_iff.mp h
  rw [List.getElem?_append_left hlt, h]

theorem set_of_some (h : l[i]? = some b) (a : α) (j : Nat) :
    (l.set i a)[j]? = if j = i then some a else l[j]? := by
  obtain ⟨hlt, -⟩ := List.getElem?_eq_some_iff.mp h
  split_ifs with hj
  · rw [hj, List.getElem?_set_self hlt]
  · exact List.getElem?_set_ne (Ne.symm hj)

theorem countP_eraseIdx (h : l[i]? = some a) (p : α → Bool) :
    (l.eraseIdx i).countP p + (if p a then 1 else 0) = l.countP p := by
  obtain ⟨hlt, rfl⟩ := List.getElem?_eq_some_iff.mp h
  rw [← List.countP_cons]
  exact (List.getElem_cons_eraseIdx_perm hlt).countP_eq p

/-- A predicate counts one on a list without repeats when exactly one row has it. -/
theorem countP_eq_one (hl : l.Nodup) {p : α → Bool} :
    l.countP p = 1 ↔ ∃ a ∈ l, p a = true ∧ ∀ b ∈ l, p b = true → b = a := by
  rw [List.countP_eq_length_filter, List.length_eq_one_iff]
  constructor
  · intro h
    obtain ⟨a, ha⟩ := h
    have hmem : ∀ b, b ∈ l ∧ p b = true ↔ b = a := fun b => by
      rw [← List.mem_filter, ha, List.mem_singleton]
    obtain ⟨hal, hpa⟩ := (hmem a).mpr rfl
    exact ⟨a, hal, hpa, fun b hb hpb => (hmem b).mp ⟨hb, hpb⟩⟩
  · intro h
    obtain ⟨a, hal, hpa, honly⟩ := h
    have hfilter : (l.filter p).Nodup := hl.filter p
    refine ⟨a, List.perm_singleton.mp ((List.perm_ext_iff_of_nodup hfilter
      (List.nodup_singleton a)).mpr fun b => ?_)⟩
    rw [List.mem_filter, List.mem_singleton]
    constructor
    · intro hb
      exact honly b hb.1 hb.2
    · intro hb
      exact hb ▸ ⟨hal, hpa⟩

end Lookup
