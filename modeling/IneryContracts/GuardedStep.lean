import Mathlib.Logic.Basic

/-!
# Guarded computations

A guarded computation either finishes with a value or stops at the first
failing guard.  This file has the inversion rules such programs are read
with: a finished sequence finished at every guard, a stopped one stopped at
exactly one of them.  `Within` is the rule of consequence for programs that
transform a state: a preorder that every part respects is respected by the
whole.
-/

namespace GuardedStep

variable {ε α β σ : Type}

/-- Go on if `p` holds, stop with `e` otherwise. -/
def require (p : Prop) [Decidable p] (e : ε) : Except ε Unit :=
  if p then .ok () else .error e

/-- The value of `o`, or a stop with `e` when there is none. -/
def orStop (o : Option α) (e : ε) : Except ε α :=
  match o with
  | some a => .ok a
  | none => .error e

/-! ## Inversion of a finished computation -/

/-- A sequence succeeds through an intermediate result. -/
@[simp] theorem bind_eq_ok {x : Except ε α} {f : α → Except ε β} {b : β} :
    (x >>= f) = .ok b ↔ ∃ a, x = .ok a ∧ f a = .ok b := by
  cases x with
  | error e => simp [bind, Except.bind]
  | ok a => simp [bind, Except.bind]

/-- Returning a value succeeds with that value. -/
@[simp] theorem pure_eq_ok {a b : α} :
    (pure a : Except ε α) = .ok b ↔ a = b := by
  simp [pure, Except.pure]

/-- A guard is passed exactly when it holds. -/
@[simp] theorem require_eq_ok {p : Prop} [Decidable p] {e : ε} {u : Unit} :
    require p e = .ok u ↔ p := by
  by_cases h : p <;> simp [require, h]

/-- A value that is there is returned. -/
@[simp] theorem orStop_eq_ok {o : Option α} {e : ε} {a : α} :
    orStop o e = .ok a ↔ o = some a := by
  cases o <;> simp [orStop]

/-- What holds of every value of a computation that has finished. -/
theorem forall_eq_ok {x : Except ε α} {a : α} (h : x = .ok a)
    {P : α → Prop} : (∀ b, x = .ok b → P b) ↔ P a := by
  subst h
  simp

instance decidableForallOk (x : Except ε α) (P : α → Prop) [DecidablePred P] :
    Decidable (∀ a, x = .ok a → P a) :=
  match x with
  | .ok a => decidable_of_iff (P a) (forall_eq_ok rfl).symm
  | .error _ => .isTrue (by simp)

/-- Changing the result does not change how a step stops. -/
theorem map_eq_error {β : Type} {x : Except ε α} {f : α → β} {e : ε} :
    x.map f = .error e ↔ x = .error e := by
  cases x <;> simp [Except.map]

/-- The computation finishes with a value that satisfies `P`. -/
def Finishes (x : Except ε α) (P : α → Prop) : Prop := ∃ a, x = .ok a ∧ P a

instance (x : Except ε α) (P : α → Prop) [DecidablePred P] :
    Decidable (Finishes x P) :=
  match x with
  | .ok a => decidable_of_iff (P a) (by simp [Finishes])
  | .error _ => .isFalse (by simp [Finishes])

/-! ## Inversion of a stopped computation -/

/-- A sequence stops in its first step or in the rest. -/
@[simp] theorem bind_eq_error {x : Except ε α} {f : α → Except ε β} {e : ε} :
    (x >>= f) = .error e ↔
      x = .error e ∨ ∃ a, x = .ok a ∧ f a = .error e := by
  cases x with
  | error d => simp [bind, Except.bind]
  | ok a => simp [bind, Except.bind]

/-- Returning a value does not stop. -/
@[simp] theorem pure_eq_error {a : α} {e : ε} :
    (pure a : Except ε α) = .error e ↔ False := by
  simp [pure, Except.pure]

/-- A guard stops exactly when it does not hold. -/
@[simp] theorem require_eq_error {p : Prop} [Decidable p] {e d : ε} :
    require p e = .error d ↔ ¬ p ∧ e = d := by
  by_cases h : p <;> simp [require, h]

/-- A missing value stops. -/
@[simp] theorem orStop_eq_error {o : Option α} {e d : ε} :
    orStop o e = .error d ↔ o = none ∧ e = d := by
  cases o <;> simp [orStop]

/-! ## Stops that cannot happen -/

/-- The computation does not stop with `e`. -/
def Avoids (e : ε) (x : Except ε α) : Prop := x ≠ .error e

/-- A result is no stop. -/
@[simp] theorem avoids_ok {e : ε} {a : α} : Avoids e (.ok a) := by
  simp [Avoids]

/-- Returning a value does not stop. -/
@[simp] theorem avoids_pure {e : ε} {a : α} :
    Avoids e (pure a : Except ε α) := avoids_ok

/-- A stop is avoided by every other one. -/
@[simp] theorem avoids_error {e d : ε} :
    Avoids e (.error d : Except ε α) ↔ d ≠ e := by
  simp [Avoids]

/-- A sequence avoids a stop if both of its parts do. -/
@[simp] theorem avoids_bind {e : ε} {x : Except ε α} {f : α → Except ε β} :
    Avoids e (x >>= f) ↔ Avoids e x ∧ ∀ a, x = .ok a → Avoids e (f a) := by
  simp [Avoids, not_or]

/-- Changing the result stops for the same reasons. -/
@[simp] theorem avoids_map {e : ε} {x : Except ε α} {f : α → β} :
    Avoids e (f <$> x) ↔ Avoids e x := by
  cases x <;> simp [Avoids, Functor.map, Except.map]

/-- A guard avoids its own stop where it holds. -/
@[simp] theorem avoids_require {p : Prop} [Decidable p] {e d : ε} :
    Avoids e (require p d) ↔ (d = e → p) := by
  simp only [Avoids, ne_eq, require_eq_error, not_and, not_imp_not]

/-- A lookup avoids its own stop where there is a value. -/
@[simp] theorem avoids_orStop {o : Option α} {e d : ε} :
    Avoids e (orStop o d) ↔ (d = e → o ≠ none) := by
  simp only [Avoids, ne_eq, orStop_eq_error, not_and]
  exact ⟨fun h hd ho => h ho hd, fun h ho hd => h hd ho⟩

/-- A loop does not stop where its body does not. -/
theorem avoids_foldlM {e : ε} {f : σ → α → Except ε σ}
    (hf : ∀ s a, Avoids e (f s a)) (l : List α) (s : σ) :
    Avoids e (l.foldlM f s) := by
  induction l generalizing s with
  | nil => exact avoids_pure
  | cons a l ih =>
      rw [List.foldlM_cons, avoids_bind]
      exact ⟨hf s a, fun t _ => ih t⟩

/-! ## Programs that always finish -/

/-- The computation does not stop. -/
def Succeeds (x : Except ε α) : Prop := ∃ a, x = .ok a

/-- What succeeds avoids every stop. -/
theorem Succeeds.avoids {x : Except ε α} (h : Succeeds x) (e : ε) :
    Avoids e x := by
  obtain ⟨a, rfl⟩ := h
  exact avoids_ok

/-- A result is a success. -/
@[simp] theorem succeeds_ok {a : α} : Succeeds (.ok a : Except ε α) :=
  ⟨a, rfl⟩

/-- Returning a value succeeds. -/
@[simp] theorem succeeds_pure {a : α} : Succeeds (pure a : Except ε α) :=
  ⟨a, rfl⟩

/-- Sequencing: the second part finishes on whatever the first computes. -/
theorem Succeeds.bind {x : Except ε α} {f : α → Except ε β}
    (hx : Succeeds x) (hf : ∀ a, x = .ok a → Succeeds (f a)) :
    Succeeds (x >>= f) := by
  obtain ⟨a, ha⟩ := hx
  obtain ⟨b, hb⟩ := hf a ha
  exact ⟨b, bind_eq_ok.mpr ⟨a, ha, hb⟩⟩

/-- A guard succeeds exactly when it holds. -/
@[simp] theorem succeeds_require {p : Prop} [Decidable p] {e : ε} :
    Succeeds (require p e) ↔ p := by
  simp [Succeeds]

/-- A lookup succeeds exactly when there is a value. -/
@[simp] theorem succeeds_orStop {o : Option α} {e : ε} :
    Succeeds (orStop o e) ↔ o.isSome := by
  simp [Succeeds, Option.isSome_iff_exists]

/-- A loop that keeps an invariant finishes where its body does. -/
theorem succeeds_foldlM {I : σ → Prop} {f : σ → α → Except ε σ} {l : List α}
    (hf : ∀ s, I s → ∀ a ∈ l, Succeeds (f s a) ∧ ∀ t, f s a = .ok t → I t)
    {s : σ} (hs : I s) : Succeeds (l.foldlM f s) := by
  induction l generalizing s with
  | nil => exact succeeds_pure
  | cons a l ih =>
      rw [List.foldlM_cons]
      obtain ⟨hhead, hkeep⟩ := hf s hs a List.mem_cons_self
      exact hhead.bind (fun t ht => ih (fun s hs b hb =>
        hf s hs b (List.mem_cons_of_mem _ hb)) (hkeep t ht))

/-! ## Two computations side by side -/

/-- Two computations both finish, with related values, or both stop. -/
def Lockstep (R : α → β → Prop) (x : Except ε α) (y : Except ε β) : Prop :=
  (∃ a b, x = .ok a ∧ y = .ok b ∧ R a b) ∨
    ∃ d e, x = .error d ∧ y = .error e

/-- Two steps in lockstep succeed together, with related results. -/
theorem lockstep_iff {R : α → β → Prop} {x : Except ε α} {y : Except ε β} :
    Lockstep R x y ↔ (∀ a, x = .ok a → ∃ b, y = .ok b ∧ R a b) ∧
      ∀ b, y = .ok b → ∃ a, x = .ok a ∧ R a b := by
  cases x with
  | error d => cases y <;> simp [Lockstep]
  | ok a => cases y <;> simp [Lockstep]

/-- Where both computations are told by what they need and what they yield. -/
theorem lockstep_of_ok {R : α → β → Prop} {x : Except ε α} {y : Except ε β}
    {P Q : Prop} {a : α} {b : β} (hx : ∀ v, x = .ok v ↔ P ∧ v = a)
    (hy : ∀ v, y = .ok v ↔ Q ∧ v = b) (hR : R a b) :
    Lockstep R x y ↔ (P ↔ Q) := by
  simp only [lockstep_iff, hx, hy]
  constructor
  · rintro ⟨hPQ, hQP⟩
    constructor
    · intro hP
      obtain ⟨_, ⟨hQ, _⟩, _⟩ := hPQ a ⟨hP, rfl⟩
      exact hQ
    · intro hQ
      obtain ⟨_, ⟨hP, _⟩, _⟩ := hQP b ⟨hQ, rfl⟩
      exact hP
  · intro hiff
    constructor
    · rintro _ ⟨hP, rfl⟩
      exact ⟨b, ⟨hiff.mp hP, rfl⟩, hR⟩
    · rintro _ ⟨hQ, rfl⟩
      exact ⟨a, ⟨hiff.mpr hQ, rfl⟩, hR⟩

/-! ## Programs that stay within a preorder -/

/-- If `x` finishes, its final state is related to `s`. -/
def Within (R : σ → σ → Prop) (s : σ) (x : Except ε σ) : Prop :=
  ∀ s', x = .ok s' → R s s'

variable {R : σ → σ → Prop}

/-- A step that succeeds within the relation. -/
theorem within_ok {s s' : σ} (h : R s s') :
    Within R s (.ok s' : Except ε σ) := by
  intro t ht
  cases ht
  exact h

/-- A step that stops leads nowhere. -/
theorem within_error (s : σ) (e : ε) : Within R s (.error e) := by
  intro t ht
  cases ht

/-- Sequencing of two state transformers. -/
theorem within_seq (htrans : ∀ a b c, R a b → R b c → R a c)
    {s : σ} {x : Except ε σ} {f : σ → Except ε σ}
    (hx : Within R s x) (hf : ∀ t, R s t → Within R t (f t)) :
    Within R s (x >>= f) := by
  intro u hu
  obtain ⟨t, ht, hft⟩ := bind_eq_ok.mp hu
  exact htrans s t u (hx t ht) (hf t (hx t ht) u hft)

/-- A loop stays within a preorder when its body does. -/
theorem within_foldlM (hrefl : ∀ a, R a a)
    (htrans : ∀ a b c, R a b → R b c → R a c)
    {f : σ → α → Except ε σ} (hf : ∀ s a, Within R s (f s a))
    (l : List α) (s : σ) : Within R s (l.foldlM f s) := by
  induction l generalizing s with
  | nil => exact within_ok (hrefl s)
  | cons a l ih =>
      rw [List.foldlM_cons]
      exact within_seq htrans (hf s a) (fun t _ => ih t)

end GuardedStep
