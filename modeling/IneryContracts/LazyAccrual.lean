import IneryContracts.LedgerVector
import Mathlib.Algebra.BigOperators.Ring.Finset
import Mathlib.Tactic.Ring

/-!
# Amounts that grow at a rate

An amount that grows at a constant rate is a line: what it would have been at
time zero, and the rate.  Lines add up as pairs do, so the sum of many accounts
is one line, and settling an account, which stores what it has grown to, leaves
its line as it is.
-/

namespace LazyAccrual

open LedgerVector

variable {R ι : Type} [CommRing R]

/-- The line of an amount that was stored at time `since`. -/
def accrual (amount rate since : R) : R × R := (amount - rate * since, rate)

/-- What a line has grown to at a time. -/
def amountAt (a : R × R) (t : R) : R := a.1 + a.2 * t

/-- The rate of an accrual is the one that was set. -/
@[simp] theorem accrual_rate (amount rate since : R) :
    (accrual amount rate since).2 = rate := rfl

/-- An accrual grows with the time since it was written. -/
theorem amountAt_accrual (amount rate since t : R) :
    amountAt (accrual amount rate since) t = amount + rate * (t - since) := by
  unfold amountAt accrual
  ring

/-- Nothing accrues to nothing. -/
@[simp] theorem amountAt_zero (t : R) : amountAt 0 t = 0 := by
  simp [amountAt]

/-- Accruals add up at every time. -/
theorem amountAt_add (a b : R × R) (t : R) :
    amountAt (a + b) t = amountAt a t + amountAt b t := by
  simp only [amountAt, Prod.fst_add, Prod.snd_add]
  ring

/-- Settling stores what has grown and leaves the line as it is. -/
theorem accrual_settle (amount rate since t : R) :
    accrual (amount + rate * (t - since)) rate t =
      accrual amount rate since := by
  unfold accrual
  ext
  · ring
  · rfl

/-- Amounts stored at the same time add up. -/
theorem accrual_add (a b r s t : R) :
    accrual a r t + accrual b s t = accrual (a + b) (r + s) t := by
  unfold accrual
  ext
  · simp only [Prod.fst_add]
    ring
  · rfl

/-- An accrual of nothing is nothing. -/
@[simp] theorem accrual_zero (t : R) : accrual 0 0 t = 0 := by
  unfold accrual
  ext
  · simp
  · rfl

variable [Fintype ι]

/-- The sum of all lines grows to the sum of what they grow to. -/
theorem amountAt_total (f : ι → R × R) (t : R) :
    amountAt (total f) t = total (fun k => amountAt (f k) t) := by
  simp only [amountAt, total, Prod.fst_sum, Prod.snd_sum,
    Finset.sum_add_distrib, Finset.sum_mul]

/-- The rate of the sum is the sum of the rates. -/
theorem rate_total (f : ι → R × R) :
    (total f).2 = total (fun k => (f k).2) := Prod.snd_sum

end LazyAccrual
