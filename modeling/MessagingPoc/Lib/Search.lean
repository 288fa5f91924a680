import Mathlib.Data.List.Basic
import Mathlib.Order.Lattice
import MessagingPoc.Lib.Double

/-!
# Loops that look for an element

* `firstMax` — the index of the first largest value. `firstMax_spec` says which it is.
* `scan` — a round through a list that starts where the last one stopped, and stops at the first
  element that is not taken. Its counter is a double, counted up by `Double.next`: `scan_none` says
  that a round misses nobody as long as the counter still counts.
-/

namespace Search

/-! ## The first maximum -/

/-- The first index below `n` of the largest value; 0 when there is none. -/
def firstMax {P : Type*} [LinearOrder P] (value : ℕ → P) (n : ℕ) : ℕ :=
  (List.range' 1 (n - 1)).foldl (fun best i => if value i > value best then i else best) 0

theorem firstMax_spec {P : Type*} [LinearOrder P] (value : ℕ → P) (k : ℕ) :
    firstMax value (k + 1) ≤ k ∧ (∀ i ≤ k, value i ≤ value (firstMax value (k + 1))) ∧
      ∀ i < firstMax value (k + 1), value i < value (firstMax value (k + 1)) := by
  unfold firstMax
  rw [Nat.add_sub_cancel]
  induction k with
  | zero =>
    refine ⟨le_rfl, fun i hi => ?_, fun i hi => absurd hi (Nat.not_lt_zero i)⟩
    rw [Nat.le_zero.mp hi]
    exact le_rfl
  | succ k ih =>
    obtain ⟨hle, hmax, hstrict⟩ := ih
    simp only [List.range'_1_concat, List.foldl_append, List.foldl_cons, List.foldl_nil]
    split_ifs with hgt
    · refine ⟨by omega, fun i hi => ?_, fun i hi => (hmax i (by omega)).trans_lt hgt⟩
      rcases Nat.lt_or_ge i (k + 1) with hik | hik
      · exact (hmax i (by omega)).trans hgt.le
      · rw [show i = 1 + k by omega]
    · refine ⟨by omega, fun i hi => ?_, hstrict⟩
      rcases Nat.lt_or_ge i (k + 1) with hik | hik
      · exact hmax i (by omega)
      · rw [show i = 1 + k by omega]
        exact not_lt.mp hgt

theorem split_firstMax {α P : Type*} [LinearOrder P] {key : α → P} {value : ℕ → P} {xs : List α}
    (hvalue : ∀ i x, xs[i]? = some x → value i = key x) (hne : xs ≠ []) :
    ∃ x, xs[firstMax value xs.length]? = some x ∧
      ∃ before after, xs = before ++ x :: after ∧
        xs.eraseIdx (firstMax value xs.length) = before ++ after ∧
        (∀ y ∈ before, key y < key x) ∧ ∀ y ∈ after, key y ≤ key x := by
  obtain ⟨k, hk⟩ := Nat.exists_eq_succ_of_ne_zero (List.length_pos_iff.mpr hne).ne'
  obtain ⟨hle, hmax, hstrict⟩ := firstMax_spec value k
  rw [Nat.succ_eq_add_one] at hk
  rw [← hk] at hle hmax hstrict
  set best := firstMax value xs.length
  have hlt : best < xs.length := by omega
  have hbest := hvalue best _ (List.getElem?_eq_getElem hlt)
  refine ⟨xs[best], List.getElem?_eq_getElem hlt, xs.take best, xs.drop (best + 1), ?_, ?_,
    fun y hy => ?_, fun y hy => ?_⟩
  · rw [List.getElem_cons_drop, List.take_append_drop]
  · rw [List.eraseIdx_eq_take_drop_succ]
  · obtain ⟨i, hi, rfl⟩ := List.mem_take_iff_getElem.mp hy
    have := hstrict i (by omega)
    rwa [hbest, hvalue i _ (List.getElem?_eq_getElem (by omega))] at this
  · obtain ⟨i, hi, rfl⟩ := List.mem_drop_iff_getElem.mp hy
    have := hmax (best + 1 + i) (by omega)
    rwa [hbest, hvalue _ _ (List.getElem?_eq_getElem (by omega))] at this

/-! ## Rounds -/

variable {α : Type*} [DecidableEq α]

/-- Up to `fuel` visits; the counter afterwards is returned with what was found. -/
def scan (xs taken : List α) : ℕ → ℕ → Option α × ℕ
  | 0, counter => (none, counter)
  | fuel + 1, counter =>
    match xs[counter % xs.length]? with
    | none => (none, counter)
    | some x =>
      if x ∈ taken then scan xs taken fuel (Double.next counter) else (some x, Double.next counter)

theorem scan_some {xs taken : List α} {fuel counter counter' : ℕ} {x : α}
    (h : scan xs taken fuel counter = (some x, counter')) : x ∈ xs ∧ x ∉ taken := by
  induction fuel generalizing counter with
  | zero => simp [scan] at h
  | succ fuel ih =>
    rw [scan] at h
    split at h
    · simp at h
    · rename_i y hy
      split_ifs at h with htaken
      · exact ih h
      · obtain ⟨rfl, -⟩ : y = x ∧ _ := by simpa using h
        exact ⟨List.mem_of_getElem? hy, htaken⟩

theorem le_scan (xs taken : List α) (fuel counter : ℕ) (h : counter ≤ 2 ^ 53) :
    counter ≤ (scan xs taken fuel counter).2 ∧ (scan xs taken fuel counter).2 ≤ 2 ^ 53 := by
  induction fuel generalizing counter with
  | zero => exact ⟨le_rfl, h⟩
  | succ fuel ih =>
    rw [scan]
    split
    · exact ⟨le_rfl, h⟩
    · split_ifs
      · exact ⟨(Double.le_next h).trans (ih _ (Double.next_le _)).1, (ih _ (Double.next_le _)).2⟩
      · exact ⟨Double.le_next h, Double.next_le _⟩

/-- The visits of a round: it finds nobody if all they meet is taken. -/
theorem scan_eq_none_iff {xs taken : List α} (hne : xs ≠ []) {fuel counter : ℕ}
    (hcounter : counter ≤ 2 ^ 53) : (scan xs taken fuel counter).1 = none ↔
      ∀ k < fuel, ∃ x ∈ taken, xs[min (counter + k) (2 ^ 53) % xs.length]? = some x := by
  induction fuel generalizing counter with
  | zero => simp [scan]
  | succ fuel ih =>
    have hlt : counter % xs.length < xs.length := Nat.mod_lt _ (List.length_pos_iff.mpr hne)
    have hfirst : min (counter + 0) (2 ^ 53) = counter := Nat.min_eq_left hcounter
    have hlater : ∀ k, min (Double.next counter + k) (2 ^ 53) = min (counter + (k + 1)) (2 ^ 53) :=
      fun k => by unfold Double.next; omega
    rw [scan, List.getElem?_eq_getElem hlt]
    simp only
    split_ifs with htaken
    · rw [ih (Double.next_le counter)]
      constructor
      · intro h k hk
        cases k with
        | zero => exact ⟨_, htaken, by rw [hfirst, List.getElem?_eq_getElem hlt]⟩
        | succ k => exact hlater k ▸ h k (by omega)
      · intro h k hk
        rw [hlater]
        exact h (k + 1) (by omega)
    · refine iff_of_false (by simp) fun h => ?_
      obtain ⟨x, hx, hget⟩ := h 0 (by omega)
      rw [hfirst, List.getElem?_eq_getElem hlt, Option.some.injEq] at hget
      exact htaken (hget ▸ hx)

theorem scan_none_counter {xs taken : List α} (hne : xs ≠ []) {fuel counter counter' : ℕ}
    (hcounter : counter ≤ 2 ^ 53) (h : scan xs taken fuel counter = (none, counter')) :
    counter' = min (counter + fuel) (2 ^ 53) := by
  induction fuel generalizing counter with
  | zero =>
    rw [scan, Prod.mk.injEq] at h
    omega
  | succ fuel ih =>
    have hlt : counter % xs.length < xs.length := Nat.mod_lt _ (List.length_pos_iff.mpr hne)
    rw [scan, List.getElem?_eq_getElem hlt] at h
    simp only at h
    split_ifs at h with htaken
    · rw [ih (Double.next_le counter) h]
      unfold Double.next
      omega
    · simp at h

/-- **A round through the whole list that finds nobody has seen everybody**, as long as its counter
still counts. -/
theorem scan_none {xs taken : List α} {counter counter' : ℕ} (hcounter : counter ≤ 2 ^ 53)
    (h : scan xs taken xs.length counter = (none, counter')) (hcounts : counter' < 2 ^ 53) :
    ∀ x ∈ xs, x ∈ taken := by
  intro x hx
  have hne : xs ≠ [] := List.ne_nil_of_mem hx
  have hsum := scan_none_counter hne hcounter h
  obtain ⟨i, hi, rfl⟩ := List.getElem_of_mem hx
  -- The visit that meets position `i`.
  set n := xs.length
  have hpos : 0 < n := by omega
  have hvisit : (i + (n - counter % n)) % n < n := Nat.mod_lt _ hpos
  obtain ⟨y, hy, hget⟩ := (scan_eq_none_iff hne hcounter).mp (congrArg Prod.fst h) _ hvisit
  have hindex : (counter + (i + (n - counter % n)) % n) % n = i := by
    have hmod := Nat.mod_lt counter hpos
    rw [Nat.add_mod_mod, ← Nat.mod_add_mod, show counter % n + (i + (n - counter % n)) = i + n by
      omega, Nat.add_mod_right, Nat.mod_eq_of_lt hi]
  rw [Nat.min_eq_left (by omega), hindex, List.getElem?_eq_getElem hi, Option.some.injEq] at hget
  exact hget ▸ hy

/-- A round after one that found nobody finds nobody, even where the counter is stuck. -/
theorem scan_none_again {xs taken : List α} {counter counter' : ℕ} (hcounter : counter ≤ 2 ^ 53)
    (h : scan xs taken xs.length counter = (none, counter')) :
    (scan xs taken xs.length counter').1 = none := by
  by_cases hne : xs = []
  · subst hne
    rfl
  have hsum := scan_none_counter hne hcounter h
  have hvisits := (scan_eq_none_iff hne hcounter).mp (congrArg Prod.fst h)
  rw [scan_eq_none_iff hne (by omega)]
  intro k hk
  rcases Nat.lt_or_ge counter' (2 ^ 53) with hlt | hge
  · have hpos := List.length_pos_iff.mpr hne
    have hin : min (counter' + k) (2 ^ 53) % xs.length < xs.length := Nat.mod_lt _ hpos
    exact ⟨_, scan_none hcounter h hlt _ (List.getElem_mem hin), List.getElem?_eq_getElem hin⟩
  · -- The counter stuck during the first round, which then met what every later visit meets.
    have hstuck : min (counter' + k) (2 ^ 53) = 2 ^ 53 := by omega
    rcases Nat.lt_or_ge (2 ^ 53 - counter) xs.length with hmet | hall
    · have := hvisits (2 ^ 53 - counter) hmet
      rwa [Nat.min_eq_left (by omega), Nat.add_sub_cancel' hcounter, ← hstuck] at this
    · have hlast : counter + xs.length = 2 ^ 53 := by omega
      have := hvisits 0 (List.length_pos_iff.mpr hne)
      rwa [Nat.add_zero, Nat.min_eq_left hcounter, ← Nat.add_mod_right counter, hlast,
        ← hstuck] at this

end Search
