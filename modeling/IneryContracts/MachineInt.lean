import Mathlib.Algebra.Order.Floor.Ring
import Mathlib.Data.Rat.Floor
import Mathlib.Tactic.Linarith

/-!
# Fixed-width integers and truncation

Two's-complement reduction of an integer to 64 bits, reduction to unsigned 64
and 32 bits, and the truncation towards zero by which a fractional value is
stored in an integer.
-/

namespace MachineInt

/-- Two's-complement 64-bit value. -/
def i64 (x : ℤ) : ℤ := Int.bmod x (2 ^ 64)

/-- Unsigned 64-bit value. -/
def u64 (x : ℤ) : ℕ := (x % 2 ^ 64).toNat

/-- Unsigned 32-bit value. -/
def u32 (x : ℤ) : ℕ := (x % 2 ^ 32).toNat

/-- Truncation towards zero. -/
def truncate (x : ℚ) : ℤ := if 0 ≤ x then ⌊x⌋ else ⌈x⌉

/-- A value in range is not cut. -/
theorem i64_of_range {x : ℤ} (hlo : -2 ^ 63 ≤ x) (hhi : x < 2 ^ 63) :
    i64 x = x := by
  unfold i64
  rw [Int.bmod_def]
  omega

/-- An increase that does not come out negative did not wrap. -/
theorem i64_add_of_nonneg {x y : ℤ} (hx : 0 ≤ x) (hx' : x < 2 ^ 63)
    (hy : -2 ^ 63 ≤ y) (hy' : y < 2 ^ 63) (h : 0 ≤ i64 (x + y)) :
    i64 (x + y) = x + y := by
  unfold i64 at h ⊢
  rw [Int.bmod_def] at h ⊢
  omega

/-- What is cut to 64 bits is in range. -/
theorem i64_bounds (x : ℤ) : -2 ^ 63 ≤ i64 x ∧ i64 x < 2 ^ 63 := by
  unfold i64
  rw [Int.bmod_def]
  omega

/-- A sum of two numbers in range has wrapped around when it comes out with the
wrong sign. -/
theorem i64_nonneg_iff {x : ℤ} (hlo : -2 ^ 63 ≤ x) (hhi : x < 2 ^ 64) :
    0 ≤ i64 x ↔ 0 ≤ x ∧ x < 2 ^ 63 := by
  unfold i64
  rw [Int.bmod_def]
  omega

/-- Wrapping around does not make a value larger that is not too small. -/
theorem i64_le {x : ℤ} (h : -2 ^ 63 ≤ x) : i64 x ≤ x := by
  unfold i64
  rw [Int.bmod_def]
  omega

/-- A value in the unsigned range is not cut. -/
theorem u64_of_range {x : ℤ} (hlo : 0 ≤ x) (hhi : x < 2 ^ 64) :
    (u64 x : ℤ) = x := by
  unfold u64
  omega

/-- Truncation rounds down what is not negative. -/
theorem truncate_of_nonneg {x : ℚ} (h : 0 ≤ x) : truncate x = ⌊x⌋ := by
  rw [truncate, if_pos h]

@[simp] theorem truncate_intCast (x : ℤ) : truncate (x : ℚ) = x := by
  simp [truncate]

/-- A share of `x`, stored in an integer. -/
theorem truncate_share {a b x : ℤ} (ha : 0 ≤ a) (hb : 0 < b) (hx : 0 ≤ x) :
    truncate ((a : ℚ) / b * x) = a * x / b := by
  obtain ⟨d, rfl⟩ := Int.eq_ofNat_of_zero_le hb.le
  have hquot : ((a : ℚ) / ((d : ℤ) : ℚ) * x) = ((a * x : ℤ) : ℚ) / (d : ℚ) := by
    push_cast
    rw [div_mul_eq_mul_div]
  have hnonneg : (0 : ℚ) ≤ ((a * x : ℤ) : ℚ) / (d : ℚ) :=
    div_nonneg (by exact_mod_cast mul_nonneg ha hx) (by positivity)
  rw [hquot, truncate_of_nonneg hnonneg, Rat.floor_intCast_div_natCast]

/-- A difference that is too large wraps around to a larger value. -/
theorem u64_sub_le_iff {r q : ℤ} (hr : 0 ≤ r) (hr' : r < 2 ^ 64)
    (hq : 0 ≤ q) (hq' : q < 2 ^ 64) : (u64 (r - q) : ℤ) ≤ r ↔ q ≤ r := by
  unfold u64
  omega

end MachineInt
