import Mathlib.Data.Int.Basic
import Mathlib.Data.List.Basic
import Mathlib.Algebra.Order.Ring.Int
import Mathlib.Tactic.Ring

/-!
# Round-robin scans on a wrapping counter

A scan visits the candidates of a list at the positions `counter % length`, advancing a 32-bit
counter at each visit, and stops at the first candidate that is not busy. The counter wraps, and
`%` truncates toward zero, so after a wrap a position can be negative; reading the list there is
an error.

* `scan_found` — the candidate found is in the list and not busy.
* `scan_nobody` — a full scan that comes back empty-handed without an error has seen every
  candidate, wherever the counter stood: an error-free scan across the wrap still visits every
  residue.
* `right_scan` — a full scan makes no error, and finds a candidate that is not busy when there is
  one, exactly if the counter stays in range until then; `inRange_always_iff` lists the counters
  that do so whoever is busy.
-/

namespace RoundRobin

/-- What a scan comes back with: an out-of-range position, nothing, or a candidate. -/
inductive Pick (α : Type*)
  | threw
  | nobody
  | found (a : α)
deriving DecidableEq

/-- The position a counter value stands for in a list of `n`; `none` when it is negative. -/
def slot (counter : Int32) (n : Nat) : Option Nat :=
  let i := counter.toInt.tmod n
  if 0 ≤ i then some i.toNat else none

variable {α : Type*} [DecidableEq α]

/-- Up to `fuel` visits, starting at the counter's position; the counter afterwards is returned
with the outcome. -/
def scan (xs busy : List α) : Nat → Int32 → Pick α × Int32
  | 0, counter => (.nobody, counter)
  | fuel + 1, counter =>
    match (slot counter xs.length).bind (xs[·]?) with
    | none => (.threw, counter)
    | some x =>
      if x ∈ busy then scan xs busy fuel (counter + 1) else (.found x, counter + 1)

theorem scan_found {xs busy : List α} {fuel : Nat} {counter counter' : Int32} {x : α}
    (h : scan xs busy fuel counter = (.found x, counter')) : x ∈ xs ∧ x ∉ busy := by
  induction fuel generalizing counter with
  | zero => simp [scan] at h
  | succ fuel ih =>
    rw [scan] at h
    cases hx : (slot counter xs.length).bind (xs[·]?) with
    | none => simp [hx] at h
    | some y =>
      simp only [hx] at h
      split_ifs at h with hbusy
      · exact ih h
      · simp only [Prod.mk.injEq, Pick.found.injEq] at h
        obtain ⟨i, -, hi⟩ := Option.bind_eq_some_iff.mp hx
        exact h.1 ▸ ⟨List.mem_of_getElem? hi, hbusy⟩

theorem scan_threw {xs busy : List α} {fuel : Nat} {counter counter' : Int32}
    (h : scan xs busy fuel counter = (.threw, counter')) :
    (slot counter' xs.length).bind (xs[·]?) = none := by
  induction fuel generalizing counter with
  | zero => simp [scan] at h
  | succ fuel ih =>
    rw [scan] at h
    cases hx : (slot counter xs.length).bind (xs[·]?) with
    | none =>
      simp only [hx] at h
      rwa [← (Prod.mk.inj h).2]
    | some y =>
      simp only [hx] at h
      split_ifs at h with hbusy
      · exact ih h
      · cases (Prod.mk.inj h).1

/-! ## Every position is visited -/

theorem toInt_succ (counter : Int32) (k : Nat) :
    ((counter + 1).toInt + k).bmod (2 ^ 32) = (counter.toInt + (k + 1 : Nat)).bmod (2 ^ 32) := by
  rw [Int32.toInt_add, Int.bmod_add_bmod]
  congr 1
  have h1 : (1 : Int32).toInt = 1 := rfl
  rw [h1]
  push_cast
  ring

theorem scan_nobody_slot {xs busy : List α} {fuel : Nat} {counter counter' : Int32}
    (h : scan xs busy fuel counter = (.nobody, counter')) (k : Nat) (hk : k < fuel) :
    0 ≤ ((counter.toInt + k).bmod (2 ^ 32)).tmod xs.length ∧
      ∃ x ∈ busy, xs[(((counter.toInt + k).bmod (2 ^ 32)).tmod xs.length).toNat]? = some x := by
  induction fuel generalizing counter k with
  | zero => omega
  | succ fuel ih =>
    rw [scan] at h
    cases hx : (slot counter xs.length).bind (xs[·]?) with
    | none => simp [hx] at h
    | some y =>
      simp only [hx] at h
      split_ifs at h with hbusy
      · cases k with
        | zero =>
          have hcounter : (counter.toInt + (0 : Nat)).bmod (2 ^ 32) = counter.toInt := by
            rw [Nat.cast_zero, add_zero]
            exact Int.bmod_eq_of_le (by have := counter.le_toInt; omega)
              (by have := counter.toInt_lt; omega)
          rw [hcounter]
          obtain ⟨i, hslot, hi⟩ := Option.bind_eq_some_iff.mp hx
          simp only [slot] at hslot
          split_ifs at hslot with hpos
          simp only [Option.some.injEq] at hslot
          exact ⟨hpos, y, hbusy, hslot ▸ hi⟩
        | succ k =>
          have := ih h k (by omega)
          rwa [toInt_succ] at this
      · simp at h

theorem dvd_of_tmod_nonneg {v : Int} {n : Nat} (hv : v < 0) (h : 0 ≤ v.tmod n) :
    (n : Int) ∣ v := by
  have hneg : 0 ≤ (-v).tmod n := Int.tmod_nonneg _ (by omega)
  rw [Int.neg_tmod] at hneg
  exact Int.dvd_of_tmod_eq_zero (by omega)

/-- While no position is negative, the positions are the residues of the unwrapped counter: the
values below zero that a wrap produces are then multiples of the length. -/
theorem tmod_bmod_eq_emod {a : Int} {n : Nat} (hn : 0 < n) (hlo : -2 ^ 31 ≤ a) (hhi : a < 2 ^ 31)
    (hpos : ∀ k < n, 0 ≤ ((a + k).bmod (2 ^ 32)).tmod n) (k : Nat) (hk : k < n) :
    ((a + k).bmod (2 ^ 32)).tmod n = (a + k) % n := by
  by_cases hwrap : a + k < 2 ^ 31
  · -- No wrap before this visit.
    have hv : (a + k).bmod (2 ^ 32) = a + k := Int.bmod_eq_of_le (by omega) (by omega)
    have hk := hpos k hk
    rw [hv] at hk ⊢
    by_cases hneg : a + k < 0
    · obtain ⟨c, hc⟩ := dvd_of_tmod_nonneg hneg hk
      rw [hc, Int.mul_tmod_right, Int.mul_emod_right]
    · exact Int.tmod_eq_emod_of_nonneg (by omega)
  · -- The wrap happened at an earlier visit, where the value was `-2^31`.
    obtain ⟨k₀, hk₀⟩ : ∃ k₀ : Nat, a + k₀ = 2 ^ 31 := ⟨(2 ^ 31 - a).toNat, by omega⟩
    have h₀ := hpos k₀ (by omega)
    have hv₀ : (a + k₀).bmod (2 ^ 32) = -2 ^ 31 := by rw [hk₀]; decide
    rw [hv₀] at h₀
    have hdvd : (n : Int) ∣ 2 ^ 31 := by
      have := dvd_of_tmod_nonneg (by omega) h₀
      exact (Int.dvd_neg).mp this
    have hle : (n : Int) ≤ 2 ^ 31 := Int.le_of_dvd (by decide) hdvd
    have hv : (a + k).bmod (2 ^ 32) = a + k - 2 ^ 32 := by
      rw [show a + k = (a + k - 2 ^ 32) + (2 ^ 32 : Nat) by push_cast; ring, Int.add_bmod_right]
      rw [Int.bmod_eq_of_le (by push_cast; omega) (by push_cast; omega)]
      push_cast
      ring
    have hk' := hpos k hk
    rw [hv] at hk' ⊢
    obtain ⟨c, hc⟩ := dvd_of_tmod_nonneg (by omega) hk'
    obtain ⟨e, he⟩ := hdvd
    have hak : a + k = n * (c + 2 * e) := by
      rw [mul_add, ← hc, mul_left_comm, ← he]
      ring
    rw [hc, Int.mul_tmod_right, hak, Int.mul_emod_right]

/-- **An error-free full scan that finds nobody has seen everybody.** -/
theorem scan_nobody {xs busy : List α} {counter counter' : Int32}
    (h : scan xs busy xs.length counter = (.nobody, counter')) : ∀ x ∈ xs, x ∈ busy := by
  intro x hx
  obtain ⟨j, hj, rfl⟩ := List.mem_iff_getElem.mp hx
  have hn : 0 < xs.length := by omega
  -- The visit whose residue is `j`.
  set k := ((j - counter.toInt) % (xs.length : Int)).toNat with hkdef
  have hk0 : 0 ≤ ((j : Int) - counter.toInt) % xs.length := Int.emod_nonneg _ (by omega)
  have hk1 : ((j : Int) - counter.toInt) % xs.length < xs.length := Int.emod_lt_of_pos _ (by omega)
  have hk : k < xs.length := by omega
  have hpos := fun i hi => (scan_nobody_slot h i hi).1
  have hres := tmod_bmod_eq_emod hn counter.le_toInt counter.toInt_lt hpos k hk
  have hj' : (counter.toInt + k) % (xs.length : Int) = j := by
    rw [hkdef, Int.toNat_of_nonneg hk0, Int.add_emod_emod,
      show counter.toInt + (↑j - counter.toInt) = (j : Int) by ring]
    exact Int.emod_eq_of_lt (by omega) (by omega)
  obtain ⟨-, y, hy, hget⟩ := scan_nobody_slot h k hk
  rw [hres, hj', Int.toNat_natCast, List.getElem?_eq_getElem hj, Option.some.injEq] at hget
  exact hget ▸ hy

/-! ## In range -/

/-- The counter after `k` more visits. -/
def advance (counter : Int32) (k : Nat) : Int32 := counter + .ofNat k

theorem advance_zero (counter : Int32) : advance counter 0 = counter := Int32.add_zero counter

theorem advance_succ (counter : Int32) (k : Nat) :
    advance counter (k + 1) = advance (counter + 1) k := by
  rw [advance, advance, Nat.add_comm k 1, Int32.ofNat_add, ← Int32.add_assoc]
  rfl

/-- The counter stands for a candidate that is busy, if for any. -/
def Occupied (xs busy : List α) (counter : Int32) : Prop :=
  ∀ i ∈ slot counter xs.length, ∀ x ∈ xs[i]?, x ∈ busy

/-- Where the scan gets to, the counter is no negative value with a remainder. -/
def InRange (xs busy : List α) (counter : Int32) : Prop :=
  ∀ k < xs.length, (∀ j < k, Occupied xs busy (advance counter j)) →
    0 ≤ (advance counter k).toInt ∨ (xs.length : Int) ∣ (advance counter k).toInt

instance (xs busy : List α) (counter : Int32) : Decidable (Occupied xs busy counter) :=
  inferInstanceAs (Decidable (∀ i ∈ _, ∀ x ∈ _, _))

instance (xs busy : List α) (counter : Int32) : Decidable (InRange xs busy counter) :=
  inferInstanceAs (Decidable (∀ k < _, _))

/-- A pick is right if it reads no position out of range, and comes back with a candidate that is
not busy exactly when there is one. -/
def Right (pick : Pick α) (xs busy : List α) : Prop :=
  pick ≠ .threw ∧ ((∃ x, pick = .found x ∧ x ∈ xs ∧ x ∉ busy) ↔ ∃ x ∈ xs, x ∉ busy)

omit [DecidableEq α] in
theorem slot_ne_none {counter : Int32} {n : Nat} :
    slot counter n ≠ none ↔ 0 ≤ counter.toInt ∨ (n : Int) ∣ counter.toInt := by
  simp only [slot]
  split_ifs with hpos
  · refine iff_of_true (by simp) ?_
    rcases Int.lt_or_le counter.toInt 0 with hneg | hnonneg
    · exact .inr (dvd_of_tmod_nonneg hneg hpos)
    · exact .inl hnonneg
  · refine iff_of_false (by simp) fun h => hpos ?_
    rcases h with hnonneg | hdvd
    · exact Int.tmod_nonneg _ hnonneg
    · exact (Int.tmod_eq_zero_of_dvd hdvd).ge

omit [DecidableEq α] in
theorem exists_of_slot {counter : Int32} {xs : List α} (hne : xs ≠ []) {i : Nat}
    (h : slot counter xs.length = some i) : ∃ x, xs[i]? = some x := by
  have hpos : (0 : Int) < xs.length := by exact_mod_cast List.length_pos_iff.mpr hne
  have hlt := Int.tmod_lt_of_pos counter.toInt hpos
  simp only [slot] at h
  split_ifs at h with hi
  have hlength : i < xs.length := by
    rw [← Option.some.inj h]
    omega
  exact ⟨xs[i], List.getElem?_eq_getElem hlength⟩

/-- A scan throws at the first visit whose position is negative, if it gets there. -/
theorem scan_ne_threw {xs busy : List α} (hne : xs ≠ []) {fuel : Nat} {counter : Int32} :
    (scan xs busy fuel counter).1 ≠ .threw ↔
      ∀ k < fuel, (∀ j < k, Occupied xs busy (advance counter j)) →
        slot (advance counter k) xs.length ≠ none := by
  induction fuel generalizing counter with
  | zero => simp [scan]
  | succ fuel ih =>
    cases hslot : slot counter xs.length with
    | none =>
      refine iff_of_false (by simp [scan, hslot]) fun h => ?_
      exact h 0 (Nat.succ_pos fuel) (by simp) (by rw [advance_zero, hslot])
    | some i =>
      obtain ⟨x, hx⟩ := exists_of_slot hne hslot
      by_cases hbusy : x ∈ busy
      · have hoccupied : Occupied xs busy (advance counter 0) := by
          intro i' hi' x' hx'
          rw [advance_zero, hslot] at hi'
          cases hi'
          cases hx.symm.trans hx'
          exact hbusy
        simp only [scan, hslot, Option.bind_some, hx, if_pos hbusy, ih]
        constructor
        · intro h k hk hbefore
          cases k with
          | zero => simp [advance_zero, hslot]
          | succ k =>
            rw [advance_succ]
            exact h k (by omega) fun j hj => advance_succ counter j ▸ hbefore (j + 1) (by omega)
        · intro h k hk hbefore
          rw [← advance_succ]
          refine h (k + 1) (by omega) fun j hj => ?_
          cases j with
          | zero => exact hoccupied
          | succ j =>
            rw [advance_succ]
            exact hbefore j (by omega)
      · refine iff_of_true (by simp [scan, hslot, hx, hbusy]) fun k hk hbefore => ?_
        cases k with
        | zero => simp [advance_zero, hslot]
        | succ k =>
          -- The scan ends here.
          have hoccupied := hbefore 0 (Nat.succ_pos k)
          rw [advance_zero] at hoccupied
          exact absurd (hoccupied i hslot x hx) hbusy

/-- **A full scan is right exactly if the counter stays in range.** -/
theorem right_scan {xs busy : List α} {counter : Int32} :
    Right (scan xs busy xs.length counter).1 xs busy ↔ InRange xs busy counter := by
  by_cases hne : xs = []
  · subst hne
    simp [Right, InRange, scan]
  · simp only [InRange, ← slot_ne_none, ← scan_ne_threw hne, Right, and_iff_left_iff_imp]
    intro hthrew
    rcases hscan : scan xs busy xs.length counter with ⟨pick, counter'⟩
    rw [hscan] at hthrew
    constructor
    · intro hfound
      obtain ⟨x, -, hx⟩ := hfound
      exact ⟨x, hx⟩
    · intro hfree
      obtain ⟨x, hx, hxbusy⟩ := hfree
      cases pick with
      | threw => exact absurd rfl hthrew
      | nobody => exact absurd (scan_nobody hscan x hx) hxbusy
      | found y => exact ⟨y, rfl, scan_found hscan⟩

/-! ## Counters that are safe whoever is busy -/

theorem toInt_advance (counter : Int32) (k : Nat) :
    (advance counter k).toInt = (counter.toInt + k).bmod (2 ^ 32) := by
  rw [advance, Int32.toInt_add, Int32.toInt_ofNat']
  exact Int.add_bmod_bmod

theorem advance_wrapped {counter : Int32} {k e : Nat} (h : counter.toInt + k = 2 ^ 31 + e)
    (he : e < 2 ^ 31) : (advance counter k).toInt = e - 2 ^ 31 := by
  rw [toInt_advance, h, show (2 : Int) ^ 31 + e = (e - 2 ^ 31) + (2 ^ 32 : Nat) by push_cast; ring,
    Int.add_bmod_right]
  exact Int.bmod_eq_of_le (by push_cast; omega) (by push_cast; omega)

theorem toInt_advance_of_le {counter : Int32} {k : Nat} (h : counter.toInt + k < 2 ^ 31) :
    (advance counter k).toInt = counter.toInt + k := by
  rw [toInt_advance]
  exact Int.bmod_eq_of_le (by have := counter.le_toInt; push_cast; omega) (by push_cast; omega)

omit [DecidableEq α] in
/-- With everybody busy, a scan comes to every value of the counter. -/
theorem inRange_always {xs : List α} {counter : Int32} :
    (∀ busy, InRange xs busy counter) ↔ ∀ k < xs.length,
      0 ≤ (advance counter k).toInt ∨ (xs.length : Int) ∣ (advance counter k).toInt := by
  constructor
  · intro h k hk
    exact h xs k hk fun j _ i _ x hx => List.mem_of_getElem? hx
  · intro h busy k hk _
    exact h k hk

omit [DecidableEq α] in
/-- **The counters that are safe whoever is busy**: with two candidates or more, those that do not
wrap during the scan, or do so at its last visit, to a multiple of the length. -/
theorem inRange_always_iff {xs : List α} {counter : Int32} :
    (∀ busy, InRange xs busy counter) ↔ xs.length ≤ 1 ∨ 0 ≤ counter.toInt ∧
      (counter.toInt + xs.length ≤ 2 ^ 31 ∨
        counter.toInt + xs.length = 2 ^ 31 + 1 ∧ (xs.length : Int) ∣ 2 ^ 31) := by
  rw [inRange_always]
  have hlt := counter.toInt_lt
  constructor
  · intro h
    by_contra hcon
    rw [not_or, Nat.not_le] at hcon
    obtain ⟨hlength, hcon⟩ := hcon
    -- No two neighbours are multiples of a length of two or more.
    have hneighbours : ∀ v : Int, (xs.length : Int) ∣ v → ¬ (xs.length : Int) ∣ v + 1 := by
      intro v hv hv'
      have hone := Int.le_of_dvd (by decide) ((Int.dvd_add_right hv).mp hv')
      omega
    by_cases hneg : counter.toInt < 0
    · have h₀ := h 0 (by omega)
      have h₁ := h 1 hlength
      rw [toInt_advance_of_le (by omega)] at h₀ h₁
      have hdvd := h₀.resolve_left (by omega)
      rcases h₁ with h₁ | h₁
      · -- The counter was -1.
        have hzero : counter.toInt + (0 : Nat) = -1 := by omega
        rw [hzero, Int.dvd_neg] at hdvd
        have := Int.le_of_dvd (by decide) hdvd
        omega
      · exact hneighbours _ hdvd (by simpa [add_assoc] using h₁)
    · obtain ⟨k, hk⟩ : ∃ k : Nat, counter.toInt + k = 2 ^ 31 :=
        ⟨(2 ^ 31 - counter.toInt).toNat, by omega⟩
      have hwraps : k < xs.length := by
        by_contra hle
        exact hcon ⟨by omega, .inl (by omega)⟩
      have hk₀ := (h k hwraps).resolve_left (by
        rw [advance_wrapped (e := 0) (by omega) (by decide)]
        decide)
      rw [advance_wrapped (e := 0) (by omega) (by decide), Nat.cast_zero, zero_sub, Int.dvd_neg]
        at hk₀
      by_cases hlast : k + 1 = xs.length
      · exact hcon ⟨by omega, .inr ⟨by omega, hk₀⟩⟩
      · have hk₁ := (h (k + 1) (by omega)).resolve_left (by
          rw [advance_wrapped (e := 1) (by push_cast; omega) (by decide)]
          decide)
        rw [advance_wrapped (e := 1) (by push_cast; omega) (by decide)] at hk₁
        refine hneighbours (-2 ^ 31) (Int.dvd_neg.mpr hk₀) ?_
        simpa using hk₁
  · intro h k hk
    rcases h with hlength | ⟨hnonneg, hfits | ⟨hlast, hdvd⟩⟩
    · right
      have hone : xs.length = 1 := by omega
      simp [hone]
    · left
      rw [toInt_advance_of_le (by omega)]
      omega
    · by_cases hk' : counter.toInt + k < 2 ^ 31
      · left
        rw [toInt_advance_of_le hk']
        omega
      · right
        rw [advance_wrapped (e := 0) (by omega) (by decide), Nat.cast_zero, zero_sub, Int.dvd_neg]
        exact hdvd

end RoundRobin
