import Mathlib.Algebra.Order.Ring.Int
import Mathlib.Tactic.Linarith
import Mathlib.Tactic.Ring

/-!
# A pot shared out in proportion

A pot is shared out among the holders of shares one after the other: who holds
`u` of the shares that are left takes the whole units of that part of what is
left.  Rounding is to the benefit of those who come later, so what is left for
one share never falls: in whatever order they come, nobody takes less than the
whole units of its part of the full pot, and the last one takes all the rest.
-/

/-- What is left of a pot of `amount₀` for `shares₀`. -/
structure SharedPot (amount₀ shares₀ : ℤ) where
  amount : ℤ
  shares : ℤ
  amount_nonneg : 0 ≤ amount
  shares_nonneg : 0 ≤ shares
  richer : amount₀ * shares ≤ amount * shares₀
  empty : shares = 0 → amount = 0

namespace SharedPot

variable {amount₀ shares₀ : ℤ}

/-- The pot that nobody has taken from. -/
def full (hamount : 0 ≤ amount₀) (hshares : 0 < shares₀) :
    SharedPot amount₀ shares₀ where
  amount := amount₀
  shares := shares₀
  amount_nonneg := hamount
  shares_nonneg := hshares.le
  richer := le_refl _
  empty h := absurd h hshares.ne'

section Part

variable (p : SharedPot amount₀ shares₀) {u : ℤ}

/-- The part of `u` shares. -/
def part (u : ℤ) : ℤ := p.amount * u / p.shares

theorem part_nonneg (hu : 0 ≤ u) : 0 ≤ p.part u :=
  Int.ediv_nonneg (mul_nonneg p.amount_nonneg hu) p.shares_nonneg

/-- A part is no more than its fraction of the pot. -/
theorem part_mul_le : p.part u * p.shares ≤ p.amount * u := by
  by_cases hzero : p.shares = 0
  · rw [hzero, p.empty hzero]
    simp
  · exact Int.ediv_mul_le _ hzero

theorem part_le (hle : u ≤ p.shares) : p.part u ≤ p.amount := by
  by_cases hzero : p.shares = 0
  · rw [part, hzero, Int.ediv_zero]
    exact p.amount_nonneg
  · have hpos := lt_of_le_of_ne p.shares_nonneg (Ne.symm hzero)
    exact Int.ediv_le_of_le_mul hpos
      (mul_le_mul_of_nonneg_left hle p.amount_nonneg)

/-- The last one takes all the rest. -/
theorem part_shares : p.part p.shares = p.amount := by
  by_cases hzero : p.shares = 0
  · rw [part, hzero, Int.ediv_zero, p.empty hzero]
  · exact Int.mul_ediv_cancel _ hzero

/-- **Nobody takes less than its part of the full pot.** -/
theorem le_part (hshares : 0 < shares₀) (hu : 0 ≤ u) (hle : u ≤ p.shares) :
    amount₀ * u / shares₀ ≤ p.part u := by
  rcases eq_or_lt_of_le p.shares_nonneg with hzero | hpos
  · obtain rfl : u = 0 := by omega
    rw [mul_zero, Int.zero_ediv]
    exact p.part_nonneg (le_refl 0)
  · refine Int.le_ediv_of_mul_le hpos ?_
    have hfull := Int.ediv_mul_le (amount₀ * u) hshares.ne'
    refine le_of_mul_le_mul_right ?_ hshares
    calc amount₀ * u / shares₀ * p.shares * shares₀
        = amount₀ * u / shares₀ * shares₀ * p.shares := by ring
      _ ≤ amount₀ * u * p.shares :=
          mul_le_mul_of_nonneg_right hfull p.shares_nonneg
      _ = amount₀ * p.shares * u := by ring
      _ ≤ p.amount * shares₀ * u := mul_le_mul_of_nonneg_right p.richer hu
      _ = p.amount * u * shares₀ := by ring

/-- What is left after the holder of `u` shares has taken its part. -/
def take (hshares : 0 ≤ shares₀) (u : ℤ) (hu : 0 ≤ u) (hle : u ≤ p.shares) :
    SharedPot amount₀ shares₀ where
  amount := p.amount - p.part u
  shares := p.shares - u
  amount_nonneg := sub_nonneg.mpr (p.part_le hle)
  shares_nonneg := sub_nonneg.mpr hle
  richer := by
    rcases eq_or_lt_of_le p.shares_nonneg with hzero | hpos
    · obtain rfl : u = 0 := by omega
      rw [part, mul_zero, Int.zero_ediv, sub_zero, sub_zero]
      exact p.richer
    · refine le_of_mul_le_mul_right ?_ hpos
      have hpart : (p.shares - u) * p.amount ≤
          (p.amount - p.part u) * p.shares := by
        have h := p.part_mul_le (u := u)
        linarith
      calc amount₀ * (p.shares - u) * p.shares
          = amount₀ * p.shares * (p.shares - u) := by ring
        _ ≤ p.amount * shares₀ * (p.shares - u) :=
            mul_le_mul_of_nonneg_right p.richer (sub_nonneg.mpr hle)
        _ = (p.shares - u) * p.amount * shares₀ := by ring
        _ ≤ (p.amount - p.part u) * p.shares * shares₀ :=
            mul_le_mul_of_nonneg_right hpart hshares
        _ = (p.amount - p.part u) * shares₀ * p.shares := by ring
  empty h := by
    obtain rfl : u = p.shares := by omega
    rw [p.part_shares, sub_self]

end Part

end SharedPot
