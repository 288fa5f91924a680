import Mathlib.Algebra.Ring.Nat
import Mathlib.Data.Int.Log
import Mathlib.Data.List.Basic
import Mathlib.Data.Nat.Cast.Order.Field
import Mathlib.Data.Nat.Log
import Mathlib.Data.Rat.Floor
import Mathlib.Tactic.Linarith
import Mathlib.Tactic.Positivity

/-!
# Numbers as doubles

Rounding to the nearest double, ties to even, and the shortest decimal that reads back as the same
double, for whole numbers. Below 2⁵³ both are the identity. Then the rounding of quotients: it does
not carry a quotient to the next whole number unless it is within half a spacing of it.
-/

namespace Double

/-- The distance between neighbouring doubles around `n`, not less than one. -/
def ulp (n : Nat) : Nat := 2 ^ (Nat.log 2 n - 52)

/-- The double nearest to `n`, ties to even. -/
def round (n : Nat) : Nat :=
  let q := n / ulp n
  let r := n % ulp n
  if 2 * r < ulp n ∨ (2 * r = ulp n ∧ q % 2 = 0) then q * ulp n else (q + 1) * ulp n

/-- The multiple of `10 ^ e` closest to `x` that reads back as `x`. -/
def multiple (x e : Nat) : Option Nat :=
  let below := x / 10 ^ e * 10 ^ e
  let above := below + 10 ^ e
  if round below = x ∧ (round above ≠ x ∨ x - below ≤ above - x) then some below
  else if round above = x then some above
  else none

/-- The number that is printed for the double `x`: no other that reads back as `x` has fewer
digits. -/
def print (x : Nat) : Nat := ((List.range 22).reverse.findSome? (multiple x)).getD x

theorem ulp_of_lt {n : Nat} (h : n < 2 ^ 53) : ulp n = 1 := by
  have hlog : Nat.log 2 n < 53 := by
    rcases Nat.eq_zero_or_pos n with rfl | hpos
    · simp
    · exact Nat.log_lt_of_lt_pow hpos.ne' h
  rw [ulp, Nat.sub_eq_zero_of_le (Nat.lt_succ_iff.mp hlog), Nat.pow_zero]

theorem round_of_lt {n : Nat} (h : n < 2 ^ 53) : round n = n := by
  simp [round, ulp_of_lt h, Nat.mod_one]

theorem le_round_of_le {n : Nat} (h : 2 ^ 53 ≤ n) : 2 ^ 53 ≤ round n := by
  have hn : n ≠ 0 := by omega
  have hlog : 53 ≤ Nat.log 2 n := Nat.le_log_of_pow_le (by decide) h
  have hsplit : 2 ^ Nat.log 2 n = 2 ^ 52 * ulp n := by
    rw [ulp, ← Nat.pow_add, Nat.add_sub_cancel' (by omega)]
  have hq : 2 ^ 52 ≤ n / ulp n := by
    have hpos : 0 < ulp n := Nat.pow_pos (by decide)
    rw [Nat.le_div_iff_mul_le hpos, ← hsplit]
    exact Nat.pow_log_le_self 2 hn
  have hfloor : 2 ^ 53 ≤ n / ulp n * ulp n :=
    calc 2 ^ 53 ≤ 2 ^ Nat.log 2 n := Nat.pow_le_pow_right (by decide) hlog
      _ = 2 ^ 52 * ulp n := hsplit
      _ ≤ n / ulp n * ulp n := Nat.mul_le_mul_right _ hq
  simp only [round]
  split_ifs
  · exact hfloor
  · exact hfloor.trans (Nat.mul_le_mul_right _ (Nat.le_succ _))

theorem eq_of_round_eq {n x : Nat} (hx : x < 2 ^ 53) (h : round n = x) : n = x := by
  rcases Nat.lt_or_ge n (2 ^ 53) with hn | hn
  · rwa [round_of_lt hn] at h
  · have hge := le_round_of_le hn
    omega

theorem round_of_multiple {x e n : Nat} (h : multiple x e = some n) : round n = x := by
  simp only [multiple] at h
  split_ifs at h with hbelow habove
  · cases h
    exact hbelow.1
  · cases h
    exact habove

theorem print_of_lt {x : Nat} (hx : x < 2 ^ 53) : print x = x := by
  unfold print
  cases h : (List.range 22).reverse.findSome? (multiple x) with
  | none => rfl
  | some n =>
    obtain ⟨e, -, he⟩ := List.exists_of_findSome?_eq_some h
    exact eq_of_round_eq hx (round_of_multiple he)

/-! ## Counting up -/

/-- A counter that is counted up: one more, as a double. `2 ^ 53 + 1` is none, and the tie goes to
the even `2 ^ 53`. -/
def next (n : Nat) : Nat := min (n + 1) (2 ^ 53)

theorem next_le (n : Nat) : next n ≤ 2 ^ 53 := Nat.min_le_right ..

theorem le_next {n : Nat} (h : n ≤ 2 ^ 53) : n ≤ next n := Nat.le_min.mpr ⟨Nat.le_succ n, h⟩

/-! ## Quotients -/

/-- The distance between neighbouring doubles around a positive `x`. -/
def spacing (x : ℚ) : ℚ := 2 ^ (Int.log 2 x - 52)

/-- The double nearest to a positive `x`, ties to even; nothing underflows here. -/
def roundRat (x : ℚ) : ℚ :=
  let q := ⌊x / spacing x⌋
  let r := Int.fract (x / spacing x)
  if 2 * r < 1 ∨ (2 * r = 1 ∧ q % 2 = 0) then q * spacing x else (q + 1) * spacing x

theorem spacing_pos (x : ℚ) : 0 < spacing x := zpow_pos two_pos _

/-- Below `2 ^ e` the doubles lie no further apart than `2 ^ (e - 53)`. -/
theorem spacing_le {x : ℚ} {e : ℤ} (hx : 0 < x) (h : x < 2 ^ e) : spacing x ≤ 2 ^ (e - 53) := by
  have hlog : Int.log 2 x < e := (Int.lt_zpow_iff_log_lt one_lt_two hx).mp (by exact_mod_cast h)
  exact zpow_le_zpow_right₀ one_le_two (by omega)

/-- Whole numbers below `x` are doubles, up to `2 ^ 52`. -/
theorem natCast_eq_mul_spacing {x : ℚ} (m : ℕ) (hlog : Int.log 2 x ≤ 52) :
    ∃ k : ℤ, (m : ℚ) = k * spacing x := by
  obtain ⟨j, hj⟩ := Int.le.dest hlog
  refine ⟨m * 2 ^ j, ?_⟩
  have hexp : (2 : ℚ) ^ j * spacing x = 1 := by
    rw [spacing, ← zpow_natCast, ← zpow_add₀ two_ne_zero, show (j : ℤ) + (Int.log 2 x - 52) = 0 by
      omega, zpow_zero]
  push_cast
  rw [mul_assoc, hexp, mul_one]

/-- Rounding goes up by at most half the spacing. -/
theorem roundRat_le (x : ℚ) : roundRat x ≤ x + spacing x / 2 := by
  have hpos := spacing_pos x
  have hx : x = (⌊x / spacing x⌋ + Int.fract (x / spacing x)) * spacing x := by
    rw [Int.floor_add_fract, div_mul_cancel₀ _ hpos.ne']
  have hfract := Int.fract_nonneg (x / spacing x)
  unfold roundRat
  dsimp only
  split_ifs with hdown
  · nlinarith
  · have hhalf : 1 ≤ 2 * Int.fract (x / spacing x) := by
      by_contra hlt
      exact hdown (.inl (not_le.mp hlt))
    nlinarith

theorem le_roundRat {x : ℚ} {k : ℤ} (h : k * spacing x ≤ x) : k * spacing x ≤ roundRat x := by
  have hpos := spacing_pos x
  have hk : k ≤ ⌊x / spacing x⌋ := Int.le_floor.mpr ((le_div_iff₀ hpos).mpr h)
  have hk' : (k : ℚ) ≤ ⌊x / spacing x⌋ := Int.cast_le.mpr hk
  unfold roundRat
  dsimp only
  split_ifs
  · exact mul_le_mul_of_nonneg_right hk' hpos.le
  · exact mul_le_mul_of_nonneg_right (by linarith) hpos.le

/-- **Rounding a quotient keeps its whole part**, when the spacing is finer than what the quotient
lacks to the next whole number. -/
theorem floor_roundRat {n d e : ℕ} (hn : 0 < n) (hlt : n < 2 ^ e * d) (he : e ≤ 52)
    (hd : 2 ^ e * d < 2 ^ 54) : ⌊roundRat (n / d)⌋ = (n / d : ℕ) := by
  have hdpos : 0 < d := Nat.pos_of_ne_zero fun h => by simp [h] at hlt
  have hdq : (0 : ℚ) < d := Nat.cast_pos.mpr hdpos
  have hx : (0 : ℚ) < n / d := div_pos (Nat.cast_pos.mpr hn) hdq
  have hbelow : (n / d : ℚ) < 2 ^ (e : ℤ) := by
    rw [div_lt_iff₀ hdq, zpow_natCast]
    exact_mod_cast hlt
  have hlog : Int.log 2 (n / d : ℚ) < e :=
    (Int.lt_zpow_iff_log_lt one_lt_two hx).mp (by exact_mod_cast hbelow)
  rw [Int.floor_eq_iff]
  constructor
  · obtain ⟨k, hk⟩ := natCast_eq_mul_spacing (n / d) (x := n / d) (by omega)
    rw [Int.cast_natCast, hk]
    exact le_roundRat (hk ▸ Nat.cast_div_le)
  · -- the quotient lacks at least `1 / d` to the next whole number
    have hgap : (n / d : ℚ) + 1 / d ≤ (n / d : ℕ) + 1 := by
      rw [← add_div, div_le_iff₀ hdq]
      exact_mod_cast (Nat.lt_mul_div_succ n hdpos).trans_eq (Nat.mul_comm ..)
    have hhalf : spacing (n / d : ℚ) / 2 < 1 / d := by
      rw [div_lt_div_iff₀ two_pos hdq, one_mul]
      have hspacing := spacing_le hx hbelow
      have hpow : (2 : ℚ) ^ ((e : ℤ) - 53) * 2 ^ 54 = 2 ^ e * 2 := by
        rw [zpow_sub₀ two_ne_zero, zpow_natCast]
        norm_num
        ring
      have hsmall : (2 : ℚ) ^ e * d < 2 ^ 54 := by exact_mod_cast hd
      nlinarith
    calc roundRat (n / d) ≤ n / d + spacing (n / d : ℚ) / 2 := roundRat_le _
      _ < n / d + 1 / d := by linarith
      _ ≤ (((n / d : ℕ) : ℤ) : ℚ) + 1 := by rw [Int.cast_natCast]; exact hgap

end Double
