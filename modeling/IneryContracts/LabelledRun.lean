import Mathlib.Algebra.BigOperators.Group.List.Basic
import Mathlib.Algebra.Ring.Int.Defs
import Mathlib.Data.List.Induction

/-!
# Runs of a labelled step relation

A run is the list of labels of the steps taken from one state to another.
An induction over runs is done here once: `Run.invariant` for a property kept
by every admitted step, `Run.telescope` for a quantity every step moves by an
amount read off its label.  Two runs are compared through their labels: a part
of the state that some labels leave alone is told by the others, and a machine
that answers every step of another has a run for each of its runs.
-/

namespace LabelledRun

variable {σ ε M : Type} {step : σ → ε → σ → Prop}

/-- The steps labelled `es` lead from `s` to `t`: `Run step s es t`. -/
inductive Run (step : σ → ε → σ → Prop) : σ → List ε → σ → Prop
  | nil (s : σ) : Run step s [] s
  | snoc {s t u : σ} {es : List ε} {e : ε}
      (init : Run step s es t) (last : step t e u) :
      Run step s (es ++ [e]) u

theorem Run.single {s t : σ} {e : ε} (h : step s e t) : Run step s [e] t :=
  Run.snoc (Run.nil s) h

theorem Run.append {s t u : σ} {es ds : List ε}
    (h₁ : Run step s es t) (h₂ : Run step t ds u) :
    Run step s (es ++ ds) u := by
  induction h₂ with
  | nil => simpa using h₁
  | snoc _ last ih =>
      rw [← List.append_assoc]
      exact Run.snoc ih last

theorem Run.of_nil {s t : σ} (h : Run step s [] t) : s = t := by
  generalize hl : [] = es at h
  cases h with
  | nil => rfl
  | snoc init last => simp at hl

theorem Run.of_single {s t : σ} {e : ε} (h : Run step s [e] t) :
    step s e t := by
  generalize hl : [e] = es at h
  cases h with
  | nil => cases hl
  | snoc init last =>
      have hl' : [] ++ [e] = _ ++ [_] := hl
      obtain ⟨rfl, he⟩ := List.append_inj' hl' rfl
      cases he
      rw [init.of_nil]
      exact last

theorem Run.split {s u : σ} {es ds : List ε} (h : Run step s (es ++ ds) u) :
    ∃ t, Run step s es t ∧ Run step t ds u := by
  induction ds using List.reverseRecOn generalizing u with
  | nil => exact ⟨u, by simpa using h, .nil u⟩
  | append_singleton ds d ih =>
      rw [← List.append_assoc] at h
      generalize hl : es ++ ds ++ [d] = fs at h
      cases h with
      | nil => simp at hl
      | snoc init last =>
          obtain ⟨rfl, hd⟩ := List.append_inj' hl rfl
          cases hd
          obtain ⟨t, h₁, h₂⟩ := ih init
          exact ⟨t, h₁, .snoc h₂ last⟩

/-- The first step of a run. -/
theorem Run.uncons {s u : σ} {e : ε} {es : List ε}
    (h : Run step s (e :: es) u) :
    ∃ t, step s e t ∧ Run step t es u := by
  have hsplit : Run step s ([e] ++ es) u := h
  obtain ⟨t, hfirst, hrest⟩ := hsplit.split
  exact ⟨t, hfirst.of_single, hrest⟩

/-- Executing the labels one after the other is a run. -/
theorem Run.of_foldlM {δ : Type} {f : σ → ε → Except δ σ} {s t : σ}
    {es : List ε} (h : es.foldlM f s = .ok t) :
    Run (fun s e t => f s e = .ok t) s es t := by
  induction es generalizing s with
  | nil =>
      cases h
      exact Run.nil _
  | cons e es ih =>
      rw [List.foldlM_cons] at h
      cases hs : f s e with
      | error d => simp [hs, bind, Except.bind] at h
      | ok s' =>
          rw [hs] at h
          exact (Run.single hs).append (ih h)

/-- A run of admitted steps is a run of any relation they belong to. -/
theorem Run.mono {step' : σ → ε → σ → Prop} (P : ε → Prop)
    (hstep : ∀ s e t, P e → step s e t → step' s e t) {s t : σ} {es : List ε}
    (h : Run step s es t) (hP : ∀ e ∈ es, P e) : Run step' s es t := by
  induction h with
  | nil => exact Run.nil _
  | @snoc t u es e init last ih =>
      have hinit : ∀ d ∈ es, P d :=
        fun d hd => hP d (List.mem_append_left _ hd)
      exact Run.snoc (ih hinit) (hstep t e u (hP e (by simp)) last)

/-- A property of the first state that every admitted step keeps holds of the
last state of every run of admitted steps. -/
theorem Run.invariant {I : σ → Prop} (P : ε → Prop)
    (hstep : ∀ s e t, P e → I s → step s e t → I t)
    {s t : σ} {es : List ε} (h : Run step s es t)
    (hP : ∀ e ∈ es, P e) (h0 : I s) : I t := by
  induction h with
  | nil => exact h0
  | @snoc t u es e init last ih =>
      have hinit : ∀ d ∈ es, P d :=
        fun d hd => hP d (List.mem_append_left _ hd)
      exact hstep t e u (hP e (by simp)) (ih hinit) last

/-- A property of a state and of the labels that have led to it, kept by every
step. -/
theorem Run.history {H : List ε → σ → Prop} {s t : σ} {es : List ε}
    (h : Run step s es t) (h0 : H [] s)
    (hstep : ∀ ds u e v, H ds u → step u e v → H (ds ++ [e]) v) : H es t := by
  induction h with
  | nil => exact h0
  | snoc init last ih => exact hstep _ _ _ _ ih last

/-- What every step from a state with the property says of its label. -/
theorem Run.labels {I : σ → Prop} {Q : ε → Prop}
    (hstep : ∀ s e t, I s → step s e t → I t ∧ Q e) {s t : σ} {es : List ε}
    (h : Run step s es t) (h0 : I s) : I t ∧ ∀ e ∈ es, Q e := by
  induction h with
  | nil => exact ⟨h0, by simp⟩
  | @snoc t u es e init last ih =>
      obtain ⟨hI, hQ⟩ := hstep t e u ih.1 last
      refine ⟨hI, fun d hd => ?_⟩
      rcases List.mem_append.mp hd with hd | hd
      · exact ih.2 d hd
      · rw [List.mem_singleton.mp hd]
        exact hQ

/-- A quantity that every admitted step moves by an amount read off its label
moves over a run by the sum of these amounts. -/
theorem Run.telescope [AddCommMonoid M] {I : σ → Prop} (P : ε → Prop)
    (hstep : ∀ s e t, P e → I s → step s e t → I t)
    {m : σ → M} {d : ε → M}
    (hm : ∀ s e t, P e → I s → step s e t → m t = m s + d e)
    {s t : σ} {es : List ε} (h : Run step s es t)
    (hP : ∀ e ∈ es, P e) (h0 : I s) : m t = m s + (es.map d).sum := by
  induction h with
  | nil => simp
  | @snoc t u es e init last ih =>
      have hinit : ∀ d ∈ es, P d :=
        fun d hd => hP d (List.mem_append_left _ hd)
      have hI := Run.invariant P hstep init hinit h0
      rw [hm t e u (hP e (by simp)) hI last, ih hinit]
      simp [add_assoc]

/-- A quantity that every admitted step raises by at least an amount read off
its label rises over a run by at least the sum of these amounts. -/
theorem Run.telescope_le {I : σ → Prop} (P : ε → Prop)
    (hstep : ∀ s e t, P e → I s → step s e t → I t)
    {m : σ → ℤ} {d : ε → ℤ}
    (hm : ∀ s e t, P e → I s → step s e t → m s + d e ≤ m t)
    {s t : σ} {es : List ε} (h : Run step s es t)
    (hP : ∀ e ∈ es, P e) (h0 : I s) : m s + (es.map d).sum ≤ m t := by
  induction h with
  | nil => simp
  | @snoc t u es e init last ih =>
      have hinit : ∀ d ∈ es, P d :=
        fun d hd => hP d (List.mem_append_left _ hd)
      have hI := Run.invariant P hstep init hinit h0
      have hlast := hm t e u (hP e (by simp)) hI last
      have hsum := ih hinit
      simp only [List.map_append, List.map_cons, List.map_nil,
        List.sum_append, List.sum_cons, List.sum_nil, add_zero]
      omega

/-! ## Observations along a run -/

section Observe

variable {δ α : Type} {f : σ → ε → Except δ σ} {obs : σ → ε → α}

/-- What is seen of each label in the state it is executed in. -/
def observe (f : σ → ε → Except δ σ) (obs : σ → ε → α) : σ → List ε → List α
  | _, [] => []
  | s, e :: es =>
      obs s e :: match f s e with
        | .ok t => observe f obs t es
        | .error _ => []

/-- The last label of a run is seen in the state that the others lead to. -/
theorem Run.observe_snoc {s t : σ} {es : List ε}
    (h : Run (fun s e t => f s e = .ok t) s es t) (e : ε) :
    observe f obs s (es ++ [e]) = observe f obs s es ++ [obs t e] := by
  induction es generalizing s with
  | nil =>
      cases h.of_nil
      cases hs : f t e <;> simp [observe, hs]
  | cons d es ih =>
      obtain ⟨u, hfirst, hrest⟩ := h.uncons
      simp [observe, hfirst, ih hrest]

end Observe

/-! ## Conditions that look back -/

/-- A run whose steps all meet a condition on the labels before them. -/
inductive RunWhile (step : σ → ε → σ → Prop) (P : List ε → σ → ε → Prop) :
    σ → List ε → σ → Prop
  | nil (s : σ) : RunWhile step P s [] s
  | snoc {s t u : σ} {es : List ε} {e : ε} (init : RunWhile step P s es t)
      (cond : P es t e) (last : step t e u) : RunWhile step P s (es ++ [e]) u

variable {P : List ε → σ → ε → Prop}

/-- A property of a state and of the labels that have led to it, kept by every
step that meets the condition. -/
theorem RunWhile.history {H : List ε → σ → Prop} {s t : σ} {es : List ε}
    (h : RunWhile step P s es t) (h0 : H [] s)
    (hstep : ∀ ds u e v, H ds u → P ds u e → step u e v → H (ds ++ [e]) v) :
    H es t := by
  induction h with
  | nil => exact h0
  | snoc init cond last ih => exact hstep _ _ _ _ ih cond last

/-- A condition that the labels of a run meet at any time. -/
theorem Run.while {s t : σ} {es : List ε} (h : Run step s es t)
    (hP : ∀ ds u, ∀ e ∈ es, P ds u e) : RunWhile step P s es t := by
  induction h with
  | nil => exact .nil _
  | @snoc t u es e init last ih =>
      exact .snoc (ih fun ds u d hd => hP ds u d (List.mem_append_left _ hd))
        (hP es t e (by simp)) last

/-- A run all of whose states have a property. -/
def RunThrough (step : σ → ε → σ → Prop) (I : σ → Prop) (s : σ) (es : List ε)
    (t : σ) : Prop :=
  RunWhile step (fun _ u _ => I u) s es t ∧ I t

/-- A condition that is seen to be met along a run. -/
theorem Run.whileSeen {δ : Type} {f : σ → ε → Except δ σ} {Q : σ → ε → Prop}
    [∀ s e, Decidable (Q s e)] {s t : σ} {es : List ε}
    (h : Run (fun s e t => f s e = .ok t) s es t)
    (hQ : (observe f (fun s e => decide (Q s e)) s es).all id = true) :
    RunWhile (fun s e t => f s e = .ok t) (fun _ u e => Q u e) s es t := by
  induction h with
  | nil => exact .nil _
  | @snoc t u es e init last ih =>
      rw [init.observe_snoc, List.all_append, Bool.and_eq_true] at hQ
      exact .snoc (ih hQ.1) (by simpa using hQ.2) last

theorem RunWhile.run {s t : σ} {es : List ε} (h : RunWhile step P s es t) :
    Run step s es t := by
  induction h with
  | nil => exact .nil _
  | snoc _ _ last ih => exact .snoc ih last

/-- Where a step keeps a property exactly when it meets a condition, a run
keeps it throughout exactly when all of its steps meet the condition; `J` is
what else every step keeps. -/
theorem runThrough_iff {I J : σ → Prop} {Q : σ → ε → Prop}
    (hJ : ∀ s e t, J s → step s e t → J t)
    (hI : ∀ s e t, J s → I s → step s e t → (I t ↔ Q s e))
    {s t : σ} {es : List ε} (hJ0 : J s) (hI0 : I s) :
    RunThrough step I s es t ↔ RunWhile step (fun _ u e => Q u e) s es t := by
  have hkept : ∀ {u ds}, Run step s ds u → J u := fun h =>
    h.invariant (fun _ => True) (fun u e v _ hu hstep => hJ u e v hu hstep)
      (fun _ _ => trivial) hJ0
  constructor
  · rintro ⟨h, hlast⟩
    induction h with
    | nil => exact .nil _
    | snoc init hu last ih =>
        exact .snoc (ih hu) ((hI _ _ _ (hkept init.run) hu last).mp hlast) last
  · intro h
    induction h with
    | nil => exact ⟨.nil _, hI0⟩
    | snoc init hq last ih =>
        exact ⟨.snoc ih.1 ih.2 last,
          (hI _ _ _ (hkept init.run) ih.2 last).mpr hq⟩

/-! ## Runs told by their labels -/

section Labels

variable {s s' t : σ} {es ds : List ε}

/-- Where a step has one outcome, so has a run. -/
theorem Run.unique (hstep : ∀ s e t t', step s e t → step s e t' → t = t')
    (h : Run step s es t) (h' : Run step s es s') : t = s' := by
  induction h generalizing s' with
  | nil => exact h'.of_nil
  | snoc init last ih =>
      obtain ⟨u, hinit, hlast⟩ := h'.split
      obtain rfl := ih hinit
      exact hstep _ _ _ _ last hlast.of_single

/-- Work that can be done piece by piece: `I` says what is left to do. -/
theorem Run.exists_of_tasks {τ : Type} {I : List τ → σ → Prop} {act : τ → ε}
    (hstep : ∀ r rs s, I (r :: rs) s → ∃ s', step s (act r) s' ∧ I rs s')
    (rs : List τ) (hs : I rs s) :
    ∃ s', Run step s (rs.map act) s' ∧ I [] s' := by
  induction rs generalizing s with
  | nil => exact ⟨s, .nil s, hs⟩
  | cons r rs ih =>
      obtain ⟨u, hfirst, hu⟩ := hstep r rs s hs
      obtain ⟨s', hrest, hs'⟩ := ih hu
      exact ⟨s', (Run.single hfirst).append hrest, hs'⟩

/-- The labels that count act on a part of the state that only they touch; two
states that agree on the part are related. -/
structure Separates (step : σ → ε → σ → Prop) (counts : ε → Bool)
    (Agree : σ → σ → Prop) : Prop where
  aside : ∀ {s e s' t}, counts e = false → Agree s t → step s e s' →
    Agree s' t
  acts : ∀ {s e s' t}, counts e = true → Agree s t → step s e s' →
    ∃ t', step t e t' ∧ Agree s' t'

variable {counts : ε → Bool} {Agree : σ → σ → Prop}

/-- **The labels that count are a run of their own.** -/
theorem Run.project (h : Run step s es s') (hsep : Separates step counts Agree)
    (hst : Agree s t) :
    ∃ t', Run step t (es.filter counts) t' ∧ Agree s' t' := by
  induction h with
  | nil => exact ⟨t, .nil t, hst⟩
  | @snoc u v es e init last ih =>
      obtain ⟨t₁, hrun, hagree⟩ := ih
      rw [List.filter_append]
      by_cases hcounts : counts e = true
      · obtain ⟨t', hstep, hagree'⟩ := hsep.acts hcounts hagree last
        rw [List.filter_singleton, hcounts]
        exact ⟨t', .snoc hrun hstep, hagree'⟩
      · rw [Bool.not_eq_true] at hcounts
        rw [List.filter_singleton, hcounts]
        exact ⟨t₁, by simpa using hrun, hsep.aside hcounts hagree last⟩

/-- **The order of the other labels does not matter.**  Two runs with the same
labels that count lead to states that agree with a third one. -/
theorem Run.interleaved {u : σ}
    (hstep : ∀ s e t t', step s e t → step s e t' → t = t')
    (hsep : Separates step counts Agree) (hst : Agree s s)
    (h : Run step s es t) (h' : Run step s ds u)
    (hcounts : es.filter counts = ds.filter counts) :
    ∃ v, Agree t v ∧ Agree u v := by
  obtain ⟨v, hv, hagree⟩ := h.project hsep hst
  obtain ⟨w, hw, hagree'⟩ := h'.project hsep hst
  rw [hcounts] at hv
  obtain rfl := hv.unique hstep hw
  exact ⟨v, hagree, hagree'⟩

end Labels

/-! ## Two machines side by side -/

section Machines

variable {τ : Type} {step' : τ → ε → τ → Prop} {R : σ → τ → Prop} {s s' : σ}
  {t : τ} {es : List ε}

/-- The second machine answers every step of the first, and the states stay
related. -/
def Follows (R : σ → τ → Prop) (step : σ → ε → σ → Prop)
    (step' : τ → ε → τ → Prop) : Prop :=
  ∀ s t e s', R s t → step s e s' → ∃ t', step' t e t' ∧ R s' t'

/-- **Every run is answered by a run.** -/
theorem Run.followed (h : Run step s es s') (hfollows : Follows R step step')
    (hst : R s t) : ∃ t', Run step' t es t' ∧ R s' t' := by
  induction h with
  | nil => exact ⟨t, .nil t, hst⟩
  | snoc init last ih =>
      obtain ⟨u, hrun, hu⟩ := ih
      obtain ⟨t', hstep, ht'⟩ := hfollows _ _ _ _ hu last
      exact ⟨t', .snoc hrun hstep, ht'⟩

end Machines

end LabelledRun
