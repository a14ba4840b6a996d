import IneryContracts.LedgerVector
import Mathlib.Tactic.Linarith
import Mathlib.Tactic.Ring

/-!
# Markets that trade by the lot

A market holds a stock of units and what its customers have paid in.  It sells
at no less than `price` for a `lot` of units and buys back at no more than
that, whatever the rounding.  Then the units are conserved, and what was paid
in always backs every unit held: no customer, and no coalition of customers,
takes out more than was paid in.
-/

open LedgerVector

/-- A market with `lot` units for `price`. -/
structure LotMarket (A : Type) [Fintype A] (price lot : ℤ) where
  stock : ℤ
  held : A → ℤ
  capacity : ℤ
  paid : ℤ
  stock_pos : 0 < stock
  held_nonneg : ∀ a, 0 ≤ held a
  conserved : stock + total held = capacity
  backed : total held * price ≤ paid * lot

namespace LotMarket

variable {A : Type} [Fintype A] {price lot : ℤ}

section Bounds

variable (m : LotMarket A price lot)

theorem held_lt_capacity (a : A) : m.held a < m.capacity := by
  have h := le_total m.held_nonneg a
  have hstock := m.stock_pos
  have hcons := m.conserved
  omega

theorem stock_le_capacity : m.stock ≤ m.capacity := by
  have h := total_nonneg m.held_nonneg
  have hcons := m.conserved
  omega

theorem paid_nonneg (hprice : 0 ≤ price) (hlot : 0 < lot) : 0 ≤ m.paid := by
  have h := mul_nonneg (total_nonneg m.held_nonneg) hprice
  by_contra hneg
  have hlt : m.paid * lot < 0 := mul_neg_of_neg_of_pos (not_le.mp hneg) hlot
  have hbacked := m.backed
  linarith

/-- A payment for units somebody holds never exceeds what was paid in. -/
theorem payment_le_paid (hprice : 0 ≤ price) (hlot : 0 < lot) {a : A}
    {b t : ℤ} (hb : b ≤ m.held a) (ht : t * lot ≤ b * price) :
    t ≤ m.paid := by
  have hheld := hb.trans (le_total m.held_nonneg a)
  have hworth : b * price ≤ total m.held * price :=
    mul_le_mul_of_nonneg_right hheld hprice
  exact le_of_mul_le_mul_right (ht.trans (hworth.trans m.backed)) hlot

end Bounds

/-- A market nobody has traded on. -/
def opened (stock : ℤ) (hstock : 0 < stock) : LotMarket A price lot where
  stock := stock
  held := 0
  capacity := stock
  paid := 0
  stock_pos := hstock
  held_nonneg := le_refl (0 : A → ℤ)
  conserved := by simp only [total_zero, add_zero]
  backed := by simp only [total_zero, zero_mul, le_refl]

/-- New units come on the market. -/
def grow (m : LotMarket A price lot) (g : ℤ) (hg : 0 ≤ g) :
    LotMarket A price lot where
  stock := m.stock + g
  held := m.held
  capacity := m.capacity + g
  paid := m.paid
  stock_pos := by have := m.stock_pos; omega
  held_nonneg := m.held_nonneg
  conserved := by have := m.conserved; omega
  backed := m.backed

variable [DecidableEq A]

/-- An account buys `b` units for `q`. -/
def buy (m : LotMarket A price lot) (a : A) (b q : ℤ) (hb : 0 ≤ b)
    (hstock : b < m.stock) (hq : b * price ≤ q * lot) :
    LotMarket A price lot where
  stock := m.stock - b
  held := m.held + Pi.single a b
  capacity := m.capacity
  paid := m.paid + q
  stock_pos := by omega
  held_nonneg c := by
    have hc := m.held_nonneg c
    rw [add_single_apply]
    split <;> omega
  conserved := by
    have := m.conserved
    rw [total_add, total_single]
    omega
  backed := by
    have := m.backed
    rw [total_add, total_single, add_mul, add_mul]
    linarith

/-- An account sells `b` of its units for `t`. -/
def sell (m : LotMarket A price lot) (a : A) (b t : ℤ) (hb : 0 ≤ b)
    (hheld : b ≤ m.held a) (ht : t * lot ≤ b * price) :
    LotMarket A price lot where
  stock := m.stock + b
  held := m.held - Pi.single a b
  capacity := m.capacity
  paid := m.paid - t
  stock_pos := by have := m.stock_pos; omega
  held_nonneg c := by
    have hc := m.held_nonneg c
    rw [sub_single_apply]
    split
    · next h => subst h; omega
    · omega
  conserved := by
    have := m.conserved
    rw [total_sub, total_single]
    omega
  backed := by
    have := m.backed
    rw [total_sub, total_single, sub_mul, sub_mul]
    linarith

/-- One operation, or none. -/
inductive Step : LotMarket A price lot → LotMarket A price lot → Prop
  | idle (m : LotMarket A price lot) : Step m m
  | grow (m : LotMarket A price lot) (g : ℤ) (hg : 0 ≤ g) :
      Step m (m.grow g hg)
  | buy (m : LotMarket A price lot) (a : A) (b q : ℤ) (hb : 0 ≤ b)
      (hstock : b < m.stock) (hq : b * price ≤ q * lot) :
      Step m (m.buy a b q hb hstock hq)
  | sell (m : LotMarket A price lot) (a : A) (b t : ℤ) (hb : 0 ≤ b)
      (hheld : b ≤ m.held a) (ht : t * lot ≤ b * price) :
      Step m (m.sell a b t hb hheld ht)

/-- Units are never taken off the market. -/
theorem Step.capacity_le {m m' : LotMarket A price lot} (h : Step m m') :
    m.capacity ≤ m'.capacity := by
  cases h with
  | grow g hg => exact le_add_of_nonneg_right hg
  | _ => exact le_refl _

end LotMarket
