import IneryContracts.LabelledRun
import Mathlib.Algebra.BigOperators.Intervals
import Mathlib.Order.Interval.Finset.Nat

/-!
# Amounts that grow tick by tick

An amount that grows every tick by a rate need not be written down every tick:
a gauge keeps the tick at which it was last brought up to date and the rate.
Bringing it up to date more often changes nothing.  What it shows is what it
showed at first and, for each tick since, the rate then in force; only the
changes of the rate and the raises from outside enter.
-/

namespace TickedGrowth

open LabelledRun

variable {M : Type}

/-- What the amount was at the tick `last`, and what it grows by each tick. -/
@[ext] structure Gauge (M : Type) where
  amount : M
  last : ℕ
  rate : M

/-- The operations on a gauge. -/
inductive Op (M : Type)
  /-- The gauge is brought up to date. -/
  | update (t : ℕ)
  /-- The gauge is brought up to date, then the rate is set. -/
  | change (t : ℕ) (rate : M)
  /-- The amount is raised from outside. -/
  | raise (x : M)

namespace Gauge

variable [AddCommMonoid M]

/-- What has grown since the last time is added. -/
def update (g : Gauge M) (t : ℕ) : Gauge M :=
  { g with amount := g.amount + (t - g.last) • g.rate, last := t }

/-- An update happens at its time. -/
@[simp] theorem update_last (g : Gauge M) (t : ℕ) :
    (g.update t).last = t := rfl

/-- An update keeps the rate. -/
@[simp] theorem update_rate (g : Gauge M) (t : ℕ) :
    (g.update t).rate = g.rate := rfl

/-- An operation on a gauge; time does not run backwards. -/
inductive Step : Gauge M → Op M → Gauge M → Prop
  | update (g : Gauge M) (t : ℕ) (ht : g.last ≤ t) :
      Step g (.update t) (g.update t)
  | change (g : Gauge M) (t : ℕ) (rate : M) (ht : g.last ≤ t) :
      Step g (.change t rate) { g.update t with rate }
  | raise (g : Gauge M) (x : M) :
      Step g (.raise x) { g with amount := g.amount + x }

end Gauge

/-! ## The rate in force -/

/-- The changes of the rate among operations. -/
def changes (ops : List (Op M)) : List (ℕ × M) :=
  ops.filterMap fun
    | .change t rate => some (t, rate)
    | .update _ | .raise _ => none

/-- The rate in force at a tick: a change counts from the next tick on. -/
def rateAt (rate : M) (cs : List (ℕ × M)) (u : ℕ) : M :=
  cs.foldl (fun rate c => if c.1 < u then c.2 else rate) rate

/-- The changes of rate, one list after the other. -/
@[simp] theorem changes_append (ops ops' : List (Op M)) :
    changes (ops ++ ops') = changes ops ++ changes ops' :=
  List.filterMap_append

/-- An update is no change of rate. -/
@[simp] theorem changes_update (t : ℕ) :
    changes [(Op.update t : Op M)] = [] := rfl

/-- A change of rate is listed with its time. -/
@[simp] theorem changes_change (t : ℕ) (rate : M) :
    changes [.change t rate] = [(t, rate)] := rfl

/-- Raising the size is no change of rate. -/
@[simp] theorem changes_raise (x : M) : changes [.raise x] = [] := rfl

/-- A change of rate counts from its time on. -/
theorem rateAt_snoc (rate : M) (cs : List (ℕ × M)) (t : ℕ) (r : M) (u : ℕ) :
    rateAt rate (cs ++ [(t, r)]) u = if t < u then r else rateAt rate cs u := by
  simp [rateAt]

variable [AddCommMonoid M]

/-- What operations have added from outside. -/
def raised (ops : List (Op M)) : M :=
  (ops.map fun
    | .raise x => x
    | .update _ | .change _ _ => 0).sum

/-- What has been raised adds up. -/
@[simp] theorem raised_append (ops ops' : List (Op M)) :
    raised (ops ++ ops') = raised ops + raised ops' := by
  simp [raised]

/-- An update raises nothing by itself. -/
@[simp] theorem raised_update (t : ℕ) :
    raised [(Op.update t : Op M)] = 0 := by
  simp [raised]

/-- Nor does a change of rate. -/
@[simp] theorem raised_change (t : ℕ) (rate : M) :
    raised [.change t rate] = 0 := by
  simp [raised]

/-- Raising the size is what it says. -/
@[simp] theorem raised_raise (x : M) : raised [.raise x] = x := by
  simp [raised]

/-- What a rate with changes adds up to after the tick `s`, up to `t`. -/
def growth (rate : M) (cs : List (ℕ × M)) (s t : ℕ) : M :=
  ∑ u ∈ Finset.Ioc s t, rateAt rate cs u

/-- Nothing grows in no time. -/
@[simp] theorem growth_self (rate : M) (cs : List (ℕ × M)) (s : ℕ) :
    growth rate cs s s = 0 := by
  simp [growth]

/-- A change leaves alone what grew up to it. -/
theorem growth_snoc (rate : M) (cs : List (ℕ × M)) (r : M) (s t : ℕ) :
    growth rate (cs ++ [(t, r)]) s t = growth rate cs s t := by
  refine Finset.sum_congr rfl fun u hu => ?_
  rw [rateAt_snoc, if_neg (not_lt.mpr (Finset.mem_Ioc.mp hu).2)]

/-- While the rate is constant the growth is a product. -/
theorem growth_add {rate r : M} {cs : List (ℕ × M)} {s t v : ℕ} (hst : s ≤ t)
    (htv : t ≤ v) (hrate : ∀ u, t < u → rateAt rate cs u = r) :
    growth rate cs s v = growth rate cs s t + (v - t) • r := by
  have hconst : ∑ u ∈ Finset.Ioc t v, rateAt rate cs u = (v - t) • r := by
    have hterm : ∀ u ∈ Finset.Ioc t v, rateAt rate cs u = r :=
      fun u hu => hrate u (Finset.mem_Ioc.mp hu).1
    rw [Finset.sum_congr rfl hterm, Finset.sum_const, Nat.card_Ioc]
  unfold growth
  rw [← hconst, Finset.sum_Ioc_consecutive _ hst htv]

/-! ## Runs of operations -/

section Runs

variable {g g' : Gauge M} {ops : List (Op M)}

/-- After operations on `g` the gauge shows `h`, and the last change of the
rate is still in force. -/
structure Shows (g : Gauge M) (ops : List (Op M)) (h : Gauge M) : Prop where
  last_le : g.last ≤ h.last
  amount : h.amount =
    g.amount + growth g.rate (changes ops) g.last h.last + raised ops
  rate : ∀ u, h.last < u → rateAt g.rate (changes ops) u = h.rate

/-- Bringing the gauge up to date shows what has grown up to then. -/
private theorem Shows.update {h : Gauge M} (hshows : Shows g ops h) {t : ℕ}
    (ht : h.last ≤ t) : (h.update t).amount =
      g.amount + growth g.rate (changes ops) g.last t + raised ops := by
  have hgrown := growth_add hshows.last_le ht hshows.rate
  show h.amount + (t - h.last) • h.rate = _
  rw [hshows.amount, hgrown, add_right_comm, ← add_assoc]

/-- One more operation. -/
theorem Shows.step {h h' : Gauge M} {op : Op M} (hshows : Shows g ops h)
    (hstep : Gauge.Step h op h') : Shows g (ops ++ [op]) h' := by
  cases hstep with
  | update t ht =>
      refine ⟨hshows.last_le.trans ht, ?_, fun u hu => ?_⟩
      · simpa using hshows.update ht
      · simpa using hshows.rate u (ht.trans_lt hu)
  | change t rate ht =>
      refine ⟨hshows.last_le.trans ht, ?_, fun u hu => ?_⟩
      · show (h.update t).amount = _ + growth _ _ _ t + _
        rw [hshows.update ht, changes_append, changes_change, growth_snoc]
        simp
      · have hlt : t < u := hu
        rw [changes_append, changes_change, rateAt_snoc, if_pos hlt]
  | raise x =>
      refine ⟨hshows.last_le, ?_, fun u hu => ?_⟩
      · show h.amount + x = _
        rw [hshows.amount]
        simp [add_assoc]
      · simpa using hshows.rate u hu

/-- **A run of operations shows the sum of the rates in force.** -/
theorem Gauge.run_shows (h : Run Gauge.Step g ops g') : Shows g ops g' := by
  refine h.history (H := Shows g) ⟨le_refl _, ?_, fun u _ => rfl⟩
    fun ds u e v hu hstep => hu.step hstep
  simp [changes, raised]

end Runs

end TickedGrowth
