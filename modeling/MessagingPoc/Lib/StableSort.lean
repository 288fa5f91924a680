import Mathlib.Order.Lattice
import Mathlib.Data.List.Basic

/-!
# Stable sorts by descending key

What it is to be the stable sort of a list, whatever the algorithm.

* `Sorts.unique` — a list has but one stable sort.
* `Sorts.cons` — taking out the first element of the highest key, and sorting the others, is one.
* `sorts_mergeSort` — so is `List.mergeSort`.
-/

namespace StableSort

variable {α β : Type*} [LinearOrder β] {key : α → β} {xs ys zs : List α}

/-- `ys` is `xs` by descending key, elements of one key in the order they had. -/
structure Sorts (key : α → β) (xs ys : List α) : Prop where
  descending : ys.Pairwise fun a b => key b ≤ key a
  stable : ∀ k, ys.filter (fun x => key x = k) = xs.filter fun x => key x = k

namespace Sorts

theorem nil : Sorts key ([] : List α) [] := ⟨List.Pairwise.nil, fun _ => rfl⟩

theorem mem_iff (h : Sorts key xs ys) {a : α} : a ∈ ys ↔ a ∈ xs := by
  have hfilter : a ∈ ys.filter (fun x => key x = key a) ↔
      a ∈ xs.filter fun x => key x = key a := by rw [h.stable]
  simpa using hfilter

/-- The first element of the highest key comes first. -/
theorem cons {before after : List α} {m : α} (hbefore : ∀ x ∈ before, key x < key m)
    (hafter : ∀ x ∈ after, key x ≤ key m) (h : Sorts key (before ++ after) ys) :
    Sorts key (before ++ m :: after) (m :: ys) := by
  constructor
  · refine List.pairwise_cons.mpr ⟨fun x hx => ?_, h.descending⟩
    rcases List.mem_append.mp (h.mem_iff.mp hx) with hx | hx
    · exact (hbefore x hx).le
    · exact hafter x hx
  · intro k
    have hstable := h.stable k
    by_cases hk : key m = k
    · -- Nothing before it has its key.
      have hnone : before.filter (fun x => key x = k) = [] :=
        List.filter_eq_nil_iff.mpr fun x hx => by simpa using (hk ▸ hbefore x hx).ne
      rw [List.filter_append, hnone, List.nil_append] at hstable
      rw [List.filter_append, hnone, List.nil_append, List.filter_cons_of_pos (by simpa using hk),
        List.filter_cons_of_pos (by simpa using hk), hstable]
    · rw [List.filter_append] at hstable
      rw [List.filter_append, List.filter_cons_of_neg (by simpa using hk),
        List.filter_cons_of_neg (by simpa using hk), hstable]

theorem head_max {y : α} (h : Sorts key xs (y :: ys)) {x : α} (hx : x ∈ xs) : key x ≤ key y := by
  rcases List.mem_cons.mp (h.mem_iff.mpr hx) with rfl | hx
  · exact le_rfl
  · exact List.rel_of_pairwise_cons h.descending hx

/-- **A list has but one stable sort.** -/
theorem unique (hy : Sorts key xs ys) (hz : Sorts key xs zs) : ys = zs := by
  induction ys generalizing xs zs with
  | nil =>
    have hnone : ∀ a, a ∉ zs := fun a ha => by simpa using hy.mem_iff.mpr (hz.mem_iff.mp ha)
    exact (List.eq_nil_iff_forall_not_mem.mpr hnone).symm
  | cons y ys ih =>
    have hmem : y ∈ xs := hy.mem_iff.mp List.mem_cons_self
    cases zs with
    | nil => simpa using hz.mem_iff.mpr hmem
    | cons z zs =>
      have hkey : key z = key y :=
        le_antisymm (hy.head_max (hz.mem_iff.mp List.mem_cons_self)) (hz.head_max hmem)
      -- Both come first among those of their key.
      have hfirst := (hy.stable (key y)).trans (hz.stable (key y)).symm
      rw [List.filter_cons_of_pos (by simp), List.filter_cons_of_pos (by simpa using hkey)]
        at hfirst
      obtain ⟨rfl, -⟩ := List.cons.inj hfirst
      have htail : ∀ k, ys.filter (fun x => key x = k) = zs.filter fun x => key x = k := by
        intro k
        have hall := (hy.stable k).trans (hz.stable k).symm
        by_cases hk : key y = k
        · simpa [hk] using hall
        · simpa [hk] using hall
      have hys : ys = zs := ih ⟨hy.descending.tail, fun _ => rfl⟩
        ⟨hz.descending.tail, fun k => (htail k).symm⟩
      rw [hys]

end Sorts

theorem sorts_mergeSort (key : α → β) (xs : List α) :
    Sorts key xs (xs.mergeSort fun a b => key b ≤ key a) := by
  have htrans : ∀ a b c : α, decide (key b ≤ key a) = true → decide (key c ≤ key b) = true →
      decide (key c ≤ key a) = true := by
    intro a b c hab hbc
    simp only [decide_eq_true_eq] at *
    exact hbc.trans hab
  have htotal : ∀ a b : α, (decide (key b ≤ key a) || decide (key a ≤ key b)) = true := by
    intro a b
    simpa using le_total (key b) (key a)
  refine ⟨?_, fun k => ?_⟩
  · have hsorted := List.pairwise_mergeSort htrans htotal xs
    exact hsorted.imp fun h => by simpa using h
  · -- The elements of one key are a sorted sublist, so they stay one.
    have hsub : (xs.filter fun x => key x = k).Sublist (xs.mergeSort fun a b => key b ≤ key a) := by
      refine List.sublist_mergeSort htrans htotal ?_ List.filter_sublist
      refine List.pairwise_of_forall_mem_list fun a ha b hb => ?_
      simp only [List.mem_filter, decide_eq_true_eq] at ha hb ⊢
      exact (hb.2.trans ha.2.symm).le
    have hsub' := hsub.filter fun x => key x = k
    simp only [List.filter_filter, Bool.and_self] at hsub'
    refine (hsub'.eq_of_length ?_).symm
    exact ((List.mergeSort_perm xs _).filter _).length_eq.symm

end StableSort
