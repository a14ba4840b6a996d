import IneryContracts.LedgerVector

/-!
# Capped ledgers

What a fungible token is for: non-negative balances that add up to a supply
which never exceeds a cap.  A ledger that breaks one of these laws cannot be
written down, so the three operations only have to say when they apply.
-/

open LedgerVector

/-- Balances with a supply and a cap. -/
structure CappedLedger (A : Type) [Fintype A] where
  bal : A → ℤ
  supply : ℤ
  cap : ℤ
  nonneg : ∀ a, 0 ≤ bal a
  conserved : total bal = supply
  capped : supply ≤ cap

namespace CappedLedger

variable {A : Type} [Fintype A] (L : CappedLedger A)

theorem supply_nonneg : 0 ≤ L.supply := by
  rw [← L.conserved]
  exact total_nonneg L.nonneg

theorem bal_le_supply (a : A) : L.bal a ≤ L.supply := by
  rw [← L.conserved]
  exact le_total L.nonneg a

theorem bal_le_cap (a : A) : L.bal a ≤ L.cap :=
  (L.bal_le_supply a).trans L.capped

/-- The ledger nobody holds anything in. -/
def blank (cap : ℤ) (hcap : 0 ≤ cap) : CappedLedger A where
  bal := 0
  supply := 0
  cap := cap
  nonneg _ := le_refl 0
  conserved := total_zero
  capped := hcap

variable [DecidableEq A]

/-- Create `q` new units at `a`. -/
def mint (a : A) (q : ℤ) (hq : 0 ≤ q) (hcap : L.supply + q ≤ L.cap) :
    CappedLedger A where
  bal := L.bal + Pi.single a q
  supply := L.supply + q
  cap := L.cap
  nonneg b := by
    have hb := L.nonneg b
    rw [add_single_apply]
    split <;> omega
  conserved := by rw [total_add, total_single, L.conserved]
  capped := hcap

/-- Destroy `q` units held by `a`. -/
def burn (a : A) (q : ℤ) (hq : 0 ≤ q) (hbal : q ≤ L.bal a) :
    CappedLedger A where
  bal := L.bal - Pi.single a q
  supply := L.supply - q
  cap := L.cap
  nonneg b := by
    have hb := L.nonneg b
    rw [sub_single_apply]
    split
    · next h => subst h; omega
    · omega
  conserved := by rw [total_sub, total_single, L.conserved]
  capped := by have := L.capped; omega

/-- Pass `q` units from `a` to `b`. -/
def move (a b : A) (q : ℤ) (hq : 0 ≤ q) (hbal : q ≤ L.bal a) :
    CappedLedger A where
  bal := L.bal - Pi.single a q + Pi.single b q
  supply := L.supply
  cap := L.cap
  nonneg c := by
    have hc := L.nonneg c
    rw [add_single_apply, sub_single_apply]
    by_cases hca : c = a
    · subst hca
      split <;> simp <;> omega
    · rw [if_neg hca]
      split <;> omega
  conserved := by
    rw [total_add, total_sub, total_single, total_single, L.conserved]
    omega
  capped := L.capped

/-- The receiver of a move never exceeds the cap. -/
theorem bal_add_le_cap {a b : A} (hab : a ≠ b) {q : ℤ}
    (hbal : q ≤ L.bal a) : L.bal b + q ≤ L.cap := by
  have h := add_le_total L.nonneg hab
  rw [L.conserved] at h
  have hcap := L.capped
  omega

/-- One operation, or none. -/
inductive Step : CappedLedger A → CappedLedger A → Prop
  | idle (L : CappedLedger A) : Step L L
  | mint (L : CappedLedger A) (a : A) (q : ℤ) (hq : 0 ≤ q)
      (hcap : L.supply + q ≤ L.cap) : Step L (L.mint a q hq hcap)
  | burn (L : CappedLedger A) (a : A) (q : ℤ) (hq : 0 ≤ q)
      (hbal : q ≤ L.bal a) : Step L (L.burn a q hq hbal)
  | move (L : CappedLedger A) (a b : A) (q : ℤ) (hq : 0 ≤ q)
      (hbal : q ≤ L.bal a) : Step L (L.move a b q hq hbal)

end CappedLedger
