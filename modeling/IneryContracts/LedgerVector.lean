import IneryContracts.KeyedTable
import Mathlib.Algebra.BigOperators.Pi
import Mathlib.Algebra.Order.BigOperators.Group.Finset
import Mathlib.Tactic.Linarith

/-!
# Ledgers as vectors

A ledger assigns an amount to every account; a booking adds an amount at one
account.  Seen as a vector, a booking is the addition of `Pi.single`, so
bookings compose by addition and the total over all accounts moves by exactly
the booked amount.  A two-dimensional ledger has row totals and column
totals, and one booked cell moves one of each.
-/

namespace LedgerVector

variable {ι κ M : Type} [AddCommGroup M]

section Bookings

variable [DecidableEq ι]

/-- A booking, read at one account. -/
theorem add_single_apply (f : ι → M) (a b : ι) (x : M) :
    (f + Pi.single a x : ι → M) b = f b + if b = a then x else 0 := by
  rw [Pi.add_apply, Pi.single_apply]

/-- A booking off, read at one account. -/
theorem sub_single_apply (f : ι → M) (a b : ι) (x : M) :
    (f - Pi.single a x : ι → M) b = f b - if b = a then x else 0 := by
  rw [Pi.sub_apply, Pi.single_apply]

/-- Overwriting one account is a booking of the difference. -/
theorem update_eq_add_single (f : ι → M) (a : ι) (y : M) :
    Function.update f a y = f + Pi.single a (y - f a) := by
  funext b
  rw [add_single_apply]
  by_cases h : b = a
  · subst h
    simp
  · simp [h]

end Bookings

section Totals

variable [Fintype ι] [Fintype κ]

/-- The sum over all accounts. -/
def total (f : ι → M) : M := ∑ i, f i

/-- The empty ledger adds up to nothing. -/
@[simp] theorem total_zero : total (0 : ι → M) = 0 := by
  simp [total]

/-- Totals add up. -/
theorem total_add (f g : ι → M) : total (f + g) = total f + total g := by
  simp [total, Finset.sum_add_distrib]

/-- Totals are taken off each other. -/
theorem total_sub (f g : ι → M) : total (f - g) = total f - total g := by
  simp [total, Finset.sum_sub_distrib]

/-- A booking adds up to what is booked. -/
@[simp] theorem total_single [DecidableEq ι] (a : ι) (x : M) :
    total (Pi.single a x : ι → M) = x := by
  simp [total]

/-- Of two ledgers that differ at one account only. -/
theorem total_of_eq_off [DecidableEq ι] {f g : ι → M} {a : ι}
    (h : ∀ b, b ≠ a → g b = f b) : total g = total f + (g a - f a) := by
  have hg : g = Function.update f a (g a) := by
    funext b
    by_cases hb : b = a
    · subst hb
      simp
    · simp [hb, h b hb]
  calc total g = total (Function.update f a (g a)) := congrArg total hg
    _ = total f + (g a - f a) := by
      rw [update_eq_add_single, total_add, total_single]

/-- The sums over the second index. -/
def rowTotals (D : ι → κ → M) : ι → M := fun i => ∑ k, D i k

/-- The sums over the first index. -/
def colTotals (D : ι → κ → M) : κ → M := fun k => ∑ i, D i k

end Totals

section Cells

variable [DecidableEq ι] [DecidableEq κ]

/-- A booking of `x` at row `i` and column `k`. -/
def cell (i : ι) (k : κ) (x : M) : ι → κ → M := Pi.single i (Pi.single k x)

/-- A booking of one cell, read at another. -/
theorem cell_apply (i : ι) (k : κ) (x : M) (j : ι) (l : κ) :
    cell i k x j l = if j = i ∧ l = k then x else 0 := by
  unfold cell
  by_cases hj : j = i
  · subst hj
    by_cases hl : l = k
    · subst hl
      simp
    · simp [hl]
  · simp [hj]

/-- A booked cell moves the total of its row. -/
theorem rowTotals_add_cell [Fintype κ] (D : ι → κ → M) (i : ι) (k : κ)
    (x : M) :
    rowTotals (D + cell i k x) = rowTotals D + Pi.single i x := by
  funext j
  rw [add_single_apply]
  by_cases h : j = i
  · subst h
    simp [rowTotals, cell, Finset.sum_add_distrib]
  · simp [rowTotals, cell, h]

/-- A booked cell moves the total of its column. -/
theorem colTotals_add_cell [Fintype ι] (D : ι → κ → M) (i : ι) (k : κ)
    (x : M) :
    colTotals (D + cell i k x) = colTotals D + Pi.single k x := by
  funext l
  rw [add_single_apply]
  by_cases h : l = k
  · subst h
    have hcell : ∀ j, cell i l x j l = (Pi.single i x : ι → M) j := by
      intro j
      rw [cell_apply, Pi.single_apply]
      simp
    simp [colTotals, Finset.sum_add_distrib, hcell]
  · have hcell : ∀ j, cell i k x j l = 0 := by
      intro j
      rw [cell_apply, if_neg (fun hjl => h hjl.2)]
    simp [colTotals, hcell, h]

end Cells

section Bounds

variable [Fintype ι]

/-- All accounts together owe nothing if none does. -/
theorem total_nonneg [PartialOrder M] [IsOrderedAddMonoid M] {f : ι → M}
    (hf : ∀ i, 0 ≤ f i) : 0 ≤ total f :=
  Finset.sum_nonneg (fun i _ => hf i)

/-- No account holds more than all of them when nobody owes. -/
theorem le_total [PartialOrder M] [IsOrderedAddMonoid M] {f : ι → M}
    (hf : ∀ i, 0 ≤ f i) (a : ι) : f a ≤ total f :=
  Finset.single_le_sum (fun i _ => hf i) (Finset.mem_univ a)

/-- Two different accounts together hold no more than all of them. -/
theorem add_le_total [DecidableEq ι] {f : ι → ℤ} (hf : ∀ i, 0 ≤ f i)
    {a b : ι} (hab : a ≠ b) : f a + f b ≤ total f := by
  have hrest : (f - Pi.single a (f a) : ι → ℤ) b ≤
      total (f - Pi.single a (f a)) := by
    refine le_total (fun i => ?_) b
    rw [sub_single_apply]
    by_cases h : i = a
    · simp [h]
    · simpa [h] using hf i
  rw [sub_single_apply, if_neg (Ne.symm hab), total_sub, total_single] at hrest
  linarith

end Bounds

section Views

variable {K R : Type} {key : R → K} [DecidableEq K]

/-- The ledger a table spells: `f` of the row under `k`, nothing where there
is no row. -/
def view (f : R → M) (t : KeyedTable key) (k : K) : M :=
  (t.find k).elim 0 f

/-- The amount of a row that is there. -/
theorem view_of_find {f : R → M} {t : KeyedTable key} {k : K} {r : R}
    (h : t.find k = some r) : view f t k = f r := by
  simp [view, h]

/-- No row spells no amount. -/
theorem view_of_none {f : R → M} {t : KeyedTable key} {k : K}
    (h : t.find k = none) : view f t k = 0 := by
  simp [view, h]

/-- The empty table spells the empty ledger. -/
@[simp] theorem view_empty (f : R → M) :
    view f (KeyedTable.empty : KeyedTable key) = 0 := by
  funext k
  simp [view]

/-- Writing a row books the change of its amount. -/
theorem view_put (f : R → M) (t : KeyedTable key) {r : R} {k : K}
    (hk : key r = k) :
    view f (t.put r) = view f t + Pi.single k (f r - view f t k) := by
  funext j
  rw [add_single_apply]
  by_cases h : j = k
  · subst h
    simp [view, KeyedTable.find_put, hk]
  · simp [view, KeyedTable.find_put, hk, h]

/-- Writing a row with the amount that is booked already. -/
theorem view_put_same (f : R → M) (t : KeyedTable key) {r : R} {k : K}
    (hk : key r = k) (h : f r = view f t k) : view f (t.put r) = view f t := by
  rw [view_put f t hk, h, sub_self, Pi.single_zero, add_zero]

/-- Deleting a row books its amount away. -/
theorem view_erase (f : R → M) (t : KeyedTable key) (k : K) :
    view f (t.erase k) = view f t - Pi.single k (view f t k) := by
  funext j
  rw [sub_single_apply]
  by_cases h : j = k
  · subst h
    simp [view, KeyedTable.find_erase]
  · simp [view, KeyedTable.find_erase, h]

/-- Storing a row, or dropping it when it is empty, books the change of its
amount. -/
theorem view_settle (f : R → M) (t : KeyedTable key) {r : R} {k : K}
    (hk : key r = k) {empty : Bool} (hempty : empty = true → f r = 0) :
    view f (if empty then (t.put r).erase k else t.put r) =
      view f t + Pi.single k (f r - view f t k) := by
  cases empty with
  | false => exact view_put f t hk
  | true =>
      have hrow : view f (t.put r) k = f r := by
        simp [view, KeyedTable.find_put, hk]
      simp only [if_true]
      rw [view_erase, hrow, hempty rfl, view_put f t hk, hempty rfl]
      simp

/-- The ledger a table spells adds up to the sum over its rows. -/
theorem total_view [Fintype K] (f : R → M) (t : KeyedTable key) :
    total (view f t) = (t.rows.map f).sum := by
  obtain ⟨rows, hnodup⟩ := t
  induction rows with
  | nil => exact (congrArg total (view_empty f)).trans total_zero
  | cons r rows ih =>
      rw [List.map_cons, List.nodup_cons] at hnodup
      obtain ⟨hr, hnodup⟩ := hnodup
      have hrest : KeyedTable.find (⟨rows, hnodup⟩ : KeyedTable key) (key r) =
          none := by
        refine List.find?_eq_none.mpr (fun q hq hkey => hr ?_)
        exact List.mem_map.mpr ⟨q, hq, by simpa using hkey⟩
      have hcons : view f (⟨r :: rows, List.nodup_cons.mpr ⟨hr, hnodup⟩⟩ :
          KeyedTable key) = Pi.single (key r) (f r) +
            view f (⟨rows, hnodup⟩ : KeyedTable key) := by
        funext k
        by_cases hk : k = key r
        · subst hk
          rw [Pi.add_apply, view_of_none hrest, Pi.single_eq_same, add_zero]
          exact view_of_find (by simp [KeyedTable.find])
        · rw [Pi.add_apply, Pi.single_eq_of_ne hk, zero_add]
          simp [view, KeyedTable.find, Ne.symm hk]
      rw [hcons, total_add, total_single, ih hnodup, List.map_cons,
        List.sum_cons]

end Views

end LedgerVector
