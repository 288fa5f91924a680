import Mathlib.Algebra.Order.Group.Int
import Mathlib.Algebra.Order.Ring.Int

/-!
# Unchecked narrowing casts

An unchecked cast keeps the low bits. So a cast to an unsigned type of `n` values takes the
remainder modulo `n`, and two numbers keep their order under it exactly if no more multiples of `n`
lie between them than their distance has room for.
-/

namespace Narrow

/-- `(byte)p`. -/
def byte (p : Int32) : UInt8 := p.toUInt32.toUInt8

/-- `(uint)n`. -/
def uint (n : Int32) : UInt32 := n.toUInt32

/-- `(int)n`, of a `long`. -/
def int (n : ℤ) : Int32 := Int32.ofInt n

/-! ## Remainders -/

theorem toNat_uint (n : Int32) : ((uint n).toNat : ℤ) = n.toInt % 2 ^ 32 := by
  have hnat : (uint n).toNat = n.toBitVec.toNat := rfl
  have hint : n.toInt = n.toBitVec.toInt := rfl
  have hsize : ((2 ^ 32 : ℕ) : ℤ) = 2 ^ 32 := by norm_cast
  rw [hnat, hint, BitVec.toInt_eq_toNat_bmod, ← hsize, Int.bmod_emod, hsize]
  exact (Int.emod_eq_of_lt (Int.natCast_nonneg _) (by exact_mod_cast n.toBitVec.isLt)).symm

theorem toNat_byte (p : Int32) : ((byte p).toNat : ℤ) = p.toInt % 256 := by
  have hbyte : (byte p).toNat = (uint p).toNat % 256 := by
    simp [byte, uint]
  rw [hbyte, Int.natCast_emod, toNat_uint]
  exact Int.emod_emod_of_dvd p.toInt (by decide)

/-! ## What survives a cast -/

/-- **A cast to unsigned keeps the numbers that are not negative.** -/
theorem uint_eq_iff (n : Int32) : ((uint n).toNat : ℤ) = n.toInt ↔ 0 ≤ n.toInt := by
  have hlt := n.toInt_lt
  rw [toNat_uint]
  constructor <;> intro h <;> omega

/-- **A cast from `long` to `int` keeps a number from zero on exactly below `2 ^ 31`.** -/
theorem int_eq_iff {n : ℕ} : (int n).toInt = n ↔ n < 2 ^ 31 := by
  have hlt := (int n).toInt_lt
  constructor
  · intro h
    omega
  · intro h
    have hsize : (Int32.size : ℤ) = 2 ^ 32 := rfl
    rw [int, Int32.toInt_ofInt]
    exact Int.bmod_eq_of_le (by omega) (by omega)

/-- **Two numbers keep their order modulo `n` exactly if the multiples of `n` between them are as
many as their distance holds.** -/
theorem emod_le_emod_iff {a b n : ℤ} (hn : 0 < n) :
    a % n ≤ b % n ↔ b / n - a / n = (b - a) / n := by
  have ha := Int.emod_add_mul_ediv a n
  have hb := Int.emod_add_mul_ediv b n
  have hdiff : b - a = (b % n - a % n) + n * (b / n - a / n) := by
    rw [Int.mul_sub]
    omega
  rw [hdiff, Int.add_mul_ediv_left _ _ hn.ne', right_eq_add]
  have hra := Int.emod_nonneg a hn.ne'
  have hrb := Int.emod_lt_of_pos b hn
  constructor
  · intro h
    exact Int.ediv_eq_zero_of_lt (by omega) (by omega)
  · intro h
    by_contra hlt
    have hneg := Int.ediv_neg_of_neg_of_pos (a := b % n - a % n) (by omega) hn
    omega

theorem byte_le_iff (p q : Int32) :
    byte p ≤ byte q ↔ q.toInt / 256 - p.toInt / 256 = (q.toInt - p.toInt) / 256 := by
  rw [← emod_le_emod_iff (by decide), ← toNat_byte, ← toNat_byte, Int.ofNat_le]
  exact UInt8.le_iff_toNat_le

end Narrow
