import Mathlib.Algebra.Order.Ring.Int
import Mathlib.Data.Nat.Log
import Mathlib.Tactic.Linarith

/-!
# Integers as doubles

A double keeps 53 binary digits of an integer.  One that has more is rounded to
the nearest integer with 53 digits, and to the even one of two that are as near.
Rounding keeps the order, leaves numbers below 2^53 alone, and moves a 64-bit
number by 2^9 at most.
-/

namespace NearestDouble

/-- The value of the last of the 53 digits that are kept. -/
def lastPlace (n : ℕ) : ℕ := 2 ^ (n.log2 - 52)

/-- The nearest natural number with 53 digits. -/
def roundNat (n : ℕ) : ℕ :=
  let place := lastPlace n
  let kept := n / place
  let rest := n % place
  if 2 * rest < place ∨ 2 * rest = place ∧ kept % 2 = 0 then kept * place
  else (kept + 1) * place

/-- The double nearest to an integer. -/
def toDouble (x : ℤ) : ℤ :=
  if 0 ≤ x then roundNat x.toNat else -roundNat (-x).toNat

/-- An integer with no digit beyond the 53 that a double keeps. -/
def IsDouble (x : ℤ) : Prop := lastPlace x.natAbs ∣ x.natAbs

instance decidableIsDouble (x : ℤ) : Decidable (IsDouble x) :=
  inferInstanceAs (Decidable (_ ∣ _))

/-! ## Natural numbers -/

/-- The last place has a weight. -/
theorem lastPlace_pos (n : ℕ) : 0 < lastPlace n := Nat.two_pow_pos _

/-- Below `2 ^ 53` every whole number has a place. -/
theorem lastPlace_of_lt {n : ℕ} (h : n < 2 ^ 53) : lastPlace n = 1 := by
  have hlog : n.log2 - 52 = 0 := by
    rcases Nat.eq_zero_or_pos n with rfl | hpos
    · rfl
    · have hlt := (Nat.log2_lt hpos.ne').mpr h
      omega
  rw [lastPlace, hlog, pow_zero]

/-- A number without further digits is not rounded. -/
theorem roundNat_of_dvd {n : ℕ} (h : lastPlace n ∣ n) : roundNat n = n := by
  have hpos := lastPlace_pos n
  unfold roundNat
  simp only [Nat.mod_eq_zero_of_dvd h, mul_zero]
  rw [if_pos (.inl hpos), Nat.div_mul_cancel h]

/-- What has been rounded has no further digits there. -/
theorem lastPlace_dvd_roundNat (n : ℕ) : lastPlace n ∣ roundNat n := by
  unfold roundNat
  dsimp only
  split <;> exact Dvd.intro_left _ rfl

/-- **The numbers that rounding keeps** are those without further digits. -/
theorem roundNat_eq_self_iff {n : ℕ} : roundNat n = n ↔ lastPlace n ∣ n := by
  refine ⟨fun h => ?_, roundNat_of_dvd⟩
  have hdvd := lastPlace_dvd_roundNat n
  rwa [h] at hdvd

/-- Below `2 ^ 53` nothing is rounded. -/
theorem roundNat_of_lt {n : ℕ} (h : n < 2 ^ 53) : roundNat n = n :=
  roundNat_of_dvd (by rw [lastPlace_of_lt h]; exact one_dvd n)

/-- Rounding goes to one of the two neighbours. -/
theorem roundNat_cases (n : ℕ) :
    roundNat n = n / lastPlace n * lastPlace n ∧
      2 * (n % lastPlace n) ≤ lastPlace n ∨
    roundNat n = (n / lastPlace n + 1) * lastPlace n ∧
      lastPlace n ≤ 2 * (n % lastPlace n) := by
  unfold roundNat
  dsimp only
  split
  · next hdown => exact .inl ⟨rfl, by omega⟩
  · next hup => exact .inr ⟨rfl, by omega⟩

/-- Rounding goes no lower than the multiple below. -/
theorem le_roundNat (n : ℕ) : n / lastPlace n * lastPlace n ≤ roundNat n := by
  rcases roundNat_cases n with ⟨hround, _⟩ | ⟨hround, _⟩
  · exact hround.ge
  · rw [hround, add_mul, one_mul]
    exact Nat.le_add_right _ _

/-- Rounding goes no higher than the multiple above. -/
theorem roundNat_le_next (n : ℕ) :
    roundNat n ≤ (n / lastPlace n + 1) * lastPlace n := by
  rcases roundNat_cases n with ⟨hround, _⟩ | ⟨hround, _⟩
  · rw [hround, add_mul, one_mul]
    exact Nat.le_add_right _ _
  · exact hround.le

/-- The place of a number with more than 53 digits. -/
theorem lastPlace_of_le {n k : ℕ} (hk : 2 ^ (52 + k) ≤ n)
    (hlt : n < 2 ^ (53 + k)) : lastPlace n = 2 ^ k := by
  have hpos : n ≠ 0 := by
    have := Nat.two_pow_pos (52 + k)
    omega
  have hlo := (Nat.le_log2 hpos).mpr hk
  have hhi := (Nat.log2_lt hpos).mpr hlt
  rw [lastPlace, show n.log2 - 52 = k by omega]

/-- A power of two is not passed from below. -/
theorem roundNat_le_pow {n k : ℕ} (h : n < 2 ^ (53 + k)) :
    roundNat n ≤ 2 ^ (53 + k) := by
  induction k with
  | zero => exact (roundNat_of_lt h).le.trans h.le
  | succ k ih =>
      by_cases hlt : n < 2 ^ (53 + k)
      · exact (ih hlt).trans (Nat.pow_le_pow_right (by decide) (by omega))
      · have hplace : lastPlace n = 2 ^ (k + 1) :=
          lastPlace_of_le (by rw [show 52 + (k + 1) = 53 + k by omega]; omega) h
        have hkept : n / 2 ^ (k + 1) < 2 ^ 53 := by
          rw [Nat.div_lt_iff_lt_mul (Nat.two_pow_pos _), ← pow_add]
          exact h
        refine (roundNat_le_next n).trans ?_
        rw [hplace, pow_add 2 53]
        exact Nat.mul_le_mul_right _ hkept

/-- A power of two is not passed from above. -/
theorem pow_le_roundNat {n k : ℕ} (h : 2 ^ k ≤ n) : 2 ^ k ≤ roundNat n := by
  rcases Nat.lt_or_ge n (2 ^ 53) with hlt | hge
  · rw [roundNat_of_lt hlt]
    exact h
  · have hpos : n ≠ 0 := by
      have := Nat.two_pow_pos 53
      omega
    have hlog := (Nat.le_log2 hpos).mpr hge
    have hkept : 2 ^ 52 ≤ n / lastPlace n := by
      rw [Nat.le_div_iff_mul_le (lastPlace_pos n), lastPlace, ← pow_add,
        show 52 + (n.log2 - 52) = n.log2 by omega]
      exact Nat.log2_self_le hpos
    calc 2 ^ k ≤ 2 ^ n.log2 :=
          Nat.pow_le_pow_right (by decide) ((Nat.le_log2 hpos).mpr h)
      _ = 2 ^ 52 * lastPlace n := by
          rw [lastPlace, ← pow_add, show 52 + (n.log2 - 52) = n.log2 by omega]
      _ ≤ n / lastPlace n * lastPlace n := Nat.mul_le_mul_right _ hkept
      _ ≤ roundNat n := le_roundNat n

/-- Rounding keeps the order of two numbers with the same last place. -/
private theorem roundNat_mono_of_place {a b : ℕ} (h : a ≤ b)
    (hplace : lastPlace a = lastPlace b) : roundNat a ≤ roundNat b := by
  have hkept : a / lastPlace b ≤ b / lastPlace b := Nat.div_le_div_right h
  rcases hkept.lt_or_eq with hlt | heq
  · calc roundNat a ≤ (a / lastPlace b + 1) * lastPlace b :=
          hplace ▸ roundNat_le_next a
      _ ≤ b / lastPlace b * lastPlace b := Nat.mul_le_mul_right _ hlt
      _ ≤ roundNat b := le_roundNat b
  · have hrest : a % lastPlace b ≤ b % lastPlace b := by
      have ha := Nat.div_add_mod' a (lastPlace b)
      have hb := Nat.div_add_mod' b (lastPlace b)
      rw [heq] at ha
      omega
    unfold roundNat
    dsimp only
    rw [hplace, heq]
    split
    · split
      · exact le_refl _
      · exact Nat.mul_le_mul_right _ (Nat.le_succ _)
    · rw [if_neg (by omega)]

/-- **Rounding keeps the order.** -/
theorem roundNat_mono {a b : ℕ} (h : a ≤ b) : roundNat a ≤ roundNat b := by
  rcases Nat.eq_zero_or_pos a with rfl | hpos
  · rw [roundNat_of_lt (by decide)]
    exact Nat.zero_le _
  · have hlog : a.log2 ≤ b.log2 :=
      (Nat.le_log2 (by omega)).mpr ((Nat.log2_self_le hpos.ne').trans h)
    by_cases hplace : a.log2 - 52 = b.log2 - 52
    · exact roundNat_mono_of_place h (by rw [lastPlace, hplace, lastPlace])
    · -- a power of two lies between the two numbers
      have hbetween : b.log2 = 53 + (b.log2 - 53) := by omega
      have ha : a < 2 ^ (53 + (b.log2 - 53)) := by
        rw [← hbetween]
        exact (Nat.log2_lt hpos.ne').mp (by omega)
      refine (roundNat_le_pow ha).trans ?_
      rw [← hbetween]
      exact pow_le_roundNat (Nat.log2_self_le (by omega))

/-! ## Integers -/

variable {x y : ℤ}

/-- A small number is a double. -/
theorem toDouble_of_lt (hlo : -2 ^ 53 < x) (hhi : x < 2 ^ 53) :
    toDouble x = x := by
  unfold toDouble
  split
  · next hpos =>
      rw [roundNat_of_lt (by omega)]
      omega
  · next hneg =>
      rw [roundNat_of_lt (by omega)]
      omega

/-- **The integers that are doubles** are those that rounding keeps. -/
theorem toDouble_eq_self_iff : toDouble x = x ↔ IsDouble x := by
  unfold toDouble IsDouble
  rw [← roundNat_eq_self_iff]
  split
  · next hpos =>
      rw [show x.toNat = x.natAbs by omega]
      omega
  · next hneg =>
      rw [show (-x).toNat = x.natAbs by omega]
      omega

/-- Nothing is rounded to nothing. -/
@[simp] theorem toDouble_zero : toDouble 0 = 0 :=
  toDouble_of_lt (by decide) (by decide)

/-- Numbers that are not negative are rounded as natural numbers. -/
theorem toDouble_of_nonneg (h : 0 ≤ x) : toDouble x = roundNat x.toNat :=
  if_pos h

/-- Rounding keeps the sign of what is not negative. -/
theorem toDouble_nonneg (h : 0 ≤ x) : 0 ≤ toDouble x := by
  rw [toDouble_of_nonneg h]
  exact Int.natCast_nonneg _

/-- Rounding keeps the order. -/
theorem toDouble_mono (hx : 0 ≤ x) (h : x ≤ y) : toDouble x ≤ toDouble y := by
  rw [toDouble_of_nonneg hx, toDouble_of_nonneg (hx.trans h)]
  exact_mod_cast roundNat_mono (Int.toNat_le_toNat h)

/-- A difference of small numbers is exact. -/
theorem toDouble_sub (hy : 0 ≤ y) (hyx : y ≤ x) (hx : x < 2 ^ 53) :
    toDouble (toDouble x - y) = x - y := by
  rw [toDouble_of_lt (x := x) (by omega) hx,
    toDouble_of_lt (by omega) (by omega)]

example : toDouble (2 ^ 53 + 1) = 2 ^ 53 := by decide +kernel

end NearestDouble
