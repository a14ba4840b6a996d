import Mathlib.Algebra.BigOperators.Group.List.Basic
import Mathlib.Algebra.Group.Basic
import Mathlib.Analysis.Complex.Exponential
import Mathlib.Data.List.Count
import Mathlib.Order.Lattice
import Mathlib.Order.Defs.LinearOrder

/-!
# Spans of time and growth over them

A list of half-open spans, each of which starts where the one before it ends.
Then the spans are disjoint, and together they are the span from the first
start to the last end: every point of it lies in exactly one of them, and no
other point in any.

An amount that grows over each span by at most a rate times what it is then,
and that something is paid into or taken out of in between, stays below what
compounding it at every instant would make of all that was paid in, however the
time is divided.
-/

namespace TimeSpans

variable {α : Type} [LinearOrder α]

/-- The spans lead from `a` to `b` without gap or overlap. -/
def Consecutive (a : α) : List (α × α) → α → Prop
  | [], b => a = b
  | s :: l, b => s.1 = a ∧ a < s.2 ∧ Consecutive s.2 l b

variable {a b t : α} {l : List (α × α)}

/-- A span can follow at the end. -/
theorem Consecutive.snoc {d : α} (h : Consecutive a l b) (hd : b < d) :
    Consecutive a (l ++ [(b, d)]) d := by
  induction l generalizing a with
  | nil => exact ⟨Eq.symm h, lt_of_eq_of_lt h hd, rfl⟩
  | cons s l ih => exact ⟨h.1, h.2.1, ih h.2.2⟩

/-- Spans run forwards. -/
theorem Consecutive.le (h : Consecutive a l b) : a ≤ b := by
  induction l generalizing a with
  | nil => exact le_of_eq h
  | cons s l ih => exact h.2.1.le.trans (ih h.2.2)

/-- **Every point lies in exactly one span**, and no point outside of them
all in any. -/
theorem Consecutive.countP (h : Consecutive a l b) (t : α) :
    l.countP (fun s => s.1 < t ∧ t ≤ s.2) = if a < t ∧ t ≤ b then 1 else 0 := by
  induction l generalizing a with
  | nil =>
      have hnone : ¬ (a < t ∧ t ≤ b) := by
        rintro ⟨hlt, hle⟩
        exact absurd (hlt.trans_le hle) (not_lt.mpr (ge_of_eq h))
      rw [if_neg hnone, List.countP_nil]
  | cons s l ih =>
      obtain ⟨rfl, hlt, hrest⟩ := h
      rw [List.countP_cons, ih hrest]
      have hle := hrest.le
      by_cases hs : t ≤ s.2
      · simp [hs, hs.trans hle]
      · have hafter : s.1 < t := hlt.trans (not_le.mp hs)
        simp [hs, not_le.mp hs, hafter]

/-- The lengths of the spans add up to the length of the whole. -/
theorem Consecutive.sum_length {α : Type} [LinearOrder α] [AddCommGroup α]
    {a b : α} {l : List (α × α)} (h : Consecutive a l b) :
    (l.map (fun s => s.2 - s.1)).sum = b - a := by
  induction l generalizing a with
  | nil =>
      obtain rfl : a = b := h
      simp
  | cons s l ih =>
      obtain ⟨rfl, _, hrest⟩ := h
      rw [List.map_cons, List.sum_cons, ih hrest, add_comm,
        sub_add_sub_cancel]

/-! ## Compound growth -/

section Growth

variable {b u v q x x' : ℝ}

/-- `x` is at most what payments `b` come to when all of them grow by the
accumulated rate `u`. -/
def Compounded (b u x : ℝ) : Prop := x ≤ b * Real.exp u

/-- In no time nothing grows. -/
theorem Compounded.start : Compounded 0 0 0 := by
  unfold Compounded
  rw [zero_mul]

/-- **One growth**, by at most the part `v` of the amount. -/
theorem Compounded.grow (h : Compounded b u x) (hx : 0 ≤ x)
    (hgrow : x' ≤ x * (1 + v)) : Compounded b (u + v) x' := by
  have hfactor : 1 + v ≤ Real.exp v := by
    rw [add_comm]
    exact Real.add_one_le_exp v
  calc x' ≤ x * (1 + v) := hgrow
    _ ≤ x * Real.exp v := mul_le_mul_of_nonneg_left hfactor hx
    _ ≤ b * Real.exp u * Real.exp v :=
        mul_le_mul_of_nonneg_right h (Real.exp_pos v).le
    _ = b * Real.exp (u + v) := by rw [mul_assoc, Real.exp_add]

/-- **A payment**, which grows at most as if it had been there from the
beginning. -/
theorem Compounded.pay (h : Compounded b u x) (hu : 0 ≤ u) (hq : 0 ≤ q) :
    Compounded (b + q) u (x + q) := by
  have hone : q ≤ q * Real.exp u :=
    le_mul_of_one_le_right hq (Real.one_le_exp hu)
  unfold Compounded at *
  rw [add_mul]
  exact add_le_add h hone

/-- A bound holds of everything below it. -/
theorem Compounded.mono (h : Compounded b u x) (hle : x' ≤ x) :
    Compounded b u x' :=
  le_trans hle h

end Growth

end TimeSpans
