import Mathlib.Data.List.Nodup
import Mathlib.Data.List.Perm.Basic
import Mathlib.Logic.Function.Basic

/-!
# Maps that keep their insertion order

A list of entries with distinct keys. `set` replaces the value of a key where it stands, or adds an
entry at the end: a hash map enumerated in insertion order.
-/

/-- Entries with distinct keys. -/
structure InsertionMap (κ β : Type*) where
  entries : List (κ × β)
  nodup : (entries.map Prod.fst).Nodup

namespace InsertionMap

variable {κ β : Type*} [DecidableEq κ]

def empty : InsertionMap κ β := ⟨[], List.nodup_nil⟩

/-- The value of a key. -/
def get (d : InsertionMap κ β) (k : κ) : Option β :=
  (d.entries.find? fun e => e.1 = k).map Prod.snd

def values (d : InsertionMap κ β) : List β := d.entries.map Prod.snd

def set (d : InsertionMap κ β) (k : κ) (b : β) : InsertionMap κ β :=
  if h : k ∈ d.entries.map Prod.fst then
    ⟨d.entries.map fun e => (e.1, if e.1 = k then b else e.2), by
      simpa [List.map_map, Function.comp_def] using d.nodup⟩
  else ⟨d.entries ++ [(k, b)], by
    rw [List.map_append, List.nodup_append]
    refine ⟨d.nodup, List.nodup_singleton k, fun x hx y hy => ?_⟩
    obtain rfl : y = k := by simpa using hy
    rintro rfl
    exact h hx⟩

def delete (d : InsertionMap κ β) (k : κ) : InsertionMap κ β :=
  ⟨d.entries.filter fun e => e.1 ≠ k, (List.filter_sublist.map _).nodup d.nodup⟩

theorem get_eq_some {d : InsertionMap κ β} {k : κ} {b : β} :
    d.get k = some b ↔ (k, b) ∈ d.entries := by
  rw [get, Option.map_eq_some_iff]
  constructor
  · rintro ⟨⟨k', b'⟩, hfind, rfl⟩
    have hk : k' = k := by simpa using List.find?_some hfind
    exact hk ▸ List.mem_of_find?_eq_some hfind
  · intro hmem
    obtain ⟨before, after, hsplit⟩ := List.append_of_mem hmem
    refine ⟨(k, b), ?_, rfl⟩
    have hnodup := d.nodup
    rw [hsplit, List.map_append, List.nodup_append] at hnodup
    have hbefore : before.find? (fun e => e.1 = k) = none := by
      refine List.find?_eq_none.mpr fun e he => ?_
      have := hnodup.2.2 e.1 (List.mem_map_of_mem he) k (by simp)
      simpa using this
    rw [hsplit, List.find?_append, hbefore]
    simp

theorem mem_values {d : InsertionMap κ β} {b : β} : b ∈ d.values ↔ ∃ k, d.get k = some b := by
  simp [values, get_eq_some]

@[simp] theorem get_empty (k : κ) : (empty : InsertionMap κ β).get k = none := rfl

theorem get_set (d : InsertionMap κ β) (k : κ) (b : β) :
    (d.set k b).get = Function.update d.get k (some b) := by
  ext x b'
  rw [get_eq_some]
  unfold set
  by_cases hx : x = k
  · subst hx
    rw [Function.update_self]
    split_ifs with hmem
    · obtain ⟨⟨k', b₀⟩, he, rfl⟩ := List.mem_map.mp hmem
      simp only [List.mem_map, Prod.mk.injEq, Option.some.injEq]
      constructor
      · rintro ⟨e, -, hk, hb⟩
        rwa [if_pos hk] at hb
      · rintro rfl
        exact ⟨_, he, rfl, if_pos rfl⟩
    · have hnone : (x, b') ∉ d.entries := fun he => hmem (List.mem_map_of_mem he)
      simp [hnone, eq_comm]
  · rw [Function.update_of_ne hx, get_eq_some]
    split_ifs with hmem
    · simp only [List.mem_map, Prod.mk.injEq]
      constructor
      · rintro ⟨e, he, rfl, hb⟩
        rw [if_neg hx] at hb
        exact hb ▸ he
      · intro he
        exact ⟨_, he, rfl, if_neg hx⟩
    · simp [hx]

theorem get_delete (d : InsertionMap κ β) (k : κ) :
    (d.delete k).get = Function.update d.get k none := by
  ext x b
  rw [get_eq_some, delete, List.mem_filter]
  by_cases hx : x = k
  · simp [hx]
  · simp [get_eq_some, hx]

theorem get_eq_none_of_entries {d : InsertionMap κ β} (h : d.entries = []) (k : κ) :
    d.get k = none := by
  simp [get, h]

end InsertionMap
