import IneryContracts.LabelledRun
import Mathlib.Data.List.DropRight
import Mathlib.Data.Nat.Cast.Basic

/-!
# Runs replayed from their labels

Where every step computes a watched value from its label and from the value
before, a run computes it from its history alone.  Two replays come up again
and again: the last value that any label has written, and the number of labels
of a kind since the last one that starts the count anew.  A property that a run
acquires has come with one step.
-/

namespace LabelledRun

variable {σ ε α : Type} {step : σ → ε → σ → Prop} {s t : σ} {es : List ε}

/-- **The watched value is the replay of the history.**  The step may rely on
an invariant. -/
theorem Run.replay {I : σ → Prop} {f : σ → α} {next : α → ε → α}
    (hstep : ∀ s e t, I s → step s e t → I t ∧ f t = next (f s) e)
    (h : Run step s es t) (h0 : I s) :
    I t ∧ f t = es.foldl next (f s) := by
  induction h with
  | nil => exact ⟨h0, rfl⟩
  | snoc init last ih =>
      obtain ⟨hinv, hwatch⟩ := ih
      obtain ⟨hinv', hwatch'⟩ := hstep _ _ _ hinv last
      refine ⟨hinv', ?_⟩
      rw [hwatch', hwatch, List.foldl_append, List.foldl_cons, List.foldl_nil]

/-- **The step that turns a run.**  A property that is missing at the start
and there at the end has come with one of the steps. -/
theorem Run.turning {P : σ → Prop} (h : Run step s es t) (hs : ¬ P s)
    (ht : P t) :
    ∃ ds e rest u v, es = ds ++ e :: rest ∧ Run step s ds u ∧ ¬ P u ∧
      step u e v ∧ P v ∧ Run step v rest t := by
  induction h with
  | nil => exact absurd ht hs
  | @snoc u v es e init last ih =>
      by_cases hu : P u
      · obtain ⟨ds, d, rest, x, y, rfl, hds, hx, hstep, hy, hrest⟩ := ih hu
        exact ⟨ds, d, rest ++ [e], x, y, by simp, hds, hx, hstep, hy,
          .snoc hrest last⟩
      · exact ⟨es, e, [], u, v, rfl, init, hu, last, ht, .nil v⟩

/-- After the step that turns a run the property stays, where every step keeps
it. -/
theorem Run.turned {P : σ → Prop} (hP : ∀ s e t, P s → step s e t → P t)
    (hstep : ∀ s e t t', step s e t → step s e t' → t = t') {u v w : σ} {e : ε}
    {ds : List ε} (h : Run step s es u) (hlast : step u e v) (hv : P v)
    (h' : Run step s (es ++ e :: ds) w) : P w := by
  obtain ⟨x, hx, hrest⟩ := h'.split
  obtain rfl := h.unique hstep hx
  obtain ⟨y, hy, hrest⟩ := hrest.uncons
  obtain rfl := hstep _ _ _ _ hlast hy
  exact hrest.invariant (fun _ => True) (fun s e t _ hs ht => hP s e t hs ht)
    (fun _ _ => trivial) hv

/-- **A run is turned once.** -/
theorem Run.turning_unique {P : σ → Prop}
    (hP : ∀ s e t, P s → step s e t → P t)
    (hstep : ∀ s e t t', step s e t → step s e t' → t = t')
    {ds ds' rest rest' : List ε} {e e' : ε} {u u' v v' : σ}
    (h : Run step s ds u) (hlast : step u e v) (hu : ¬ P u) (hv : P v)
    (h' : Run step s ds' u') (hlast' : step u' e' v') (hu' : ¬ P u')
    (hv' : P v') (hsplit : ds ++ e :: rest = ds' ++ e' :: rest') :
    ds = ds' := by
  rcases List.append_eq_append_iff.mp hsplit with ⟨as, rfl, hmore⟩ |
    ⟨as, rfl, hmore⟩
  · cases as with
    | nil => exact (List.append_nil ds).symm
    | cons d as =>
        obtain rfl : e = d := (List.cons.inj hmore).1
        exact absurd (h.turned hP hstep hlast hv h') hu'
  · cases as with
    | nil => exact List.append_nil ds'
    | cons d as =>
        obtain rfl : e' = d := (List.cons.inj hmore).1
        exact absurd (h'.turned hP hstep hlast' hv' h) hu

/-! ## The last write -/

section LastWrite

variable {w : ε → Option α}

/-- The last value that the labels write. -/
def lastWrite (w : ε → Option α) (es : List ε) : Option α :=
  es.foldl (fun a e => (w e).orElse fun _ => a) none

/-- Nothing has been written yet. -/
@[simp] theorem lastWrite_nil : lastWrite w [] = none := rfl

/-- The last event decides if it writes. -/
theorem lastWrite_snoc (es : List ε) (e : ε) :
    lastWrite w (es ++ [e]) = (w e).orElse fun _ => lastWrite w es := by
  rw [lastWrite, List.foldl_append, List.foldl_cons, List.foldl_nil]
  rfl

/-- One event writes what it writes. -/
@[simp] theorem lastWrite_singleton (e : ε) : lastWrite w [e] = w e := by
  cases h : w e <;> simp [lastWrite, h]

/-- The later events decide if one of them writes. -/
theorem lastWrite_append (es ds : List ε) : lastWrite w (es ++ ds) =
    (lastWrite w ds).orElse fun _ => lastWrite w es := by
  induction ds using List.reverseRecOn with
  | nil => simp
  | append_singleton ds e ih =>
      rw [← List.append_assoc, lastWrite_snoc, lastWrite_snoc, ih]
      cases w e <;> rfl

/-- Nothing is written exactly if no event writes. -/
theorem lastWrite_eq_none_iff :
    lastWrite w es = none ↔ ∀ e ∈ es, w e = none := by
  induction es using List.reverseRecOn with
  | nil => simp
  | append_singleton es e ih =>
      rw [lastWrite_snoc, List.forall_mem_append]
      cases h : w e with
      | none => simpa [h] using ih
      | some a => simp [h]

/-- The last value written has been written, and nothing after it. -/
theorem lastWrite_eq_some_iff {a : α} : lastWrite w es = some a ↔
    ∃ ds e rest, es = ds ++ e :: rest ∧ w e = some a ∧
      ∀ d ∈ rest, w d = none := by
  constructor
  · intro h
    induction es using List.reverseRecOn with
    | nil => cases h
    | append_singleton es e ih =>
        rw [lastWrite_snoc] at h
        cases hw : w e with
        | some b =>
            rw [hw] at h
            exact ⟨es, e, [], rfl, hw.trans h, by simp⟩
        | none =>
            rw [hw] at h
            obtain ⟨ds, d, rest, rfl, hd, hrest⟩ := ih h
            refine ⟨ds, d, rest ++ [e], by simp, hd, ?_⟩
            intro d' hd'
            rcases List.mem_append.mp hd' with hd' | hd'
            · exact hrest d' hd'
            · rw [List.mem_singleton.mp hd', hw]
  · rintro ⟨ds, e, rest, rfl, hw, hrest⟩
    rw [← List.singleton_append, lastWrite_append, lastWrite_append,
      lastWrite_eq_none_iff.mpr hrest, lastWrite_singleton, hw]
    rfl

/-- A part of what is written is written last with it. -/
theorem lastWrite_map {β : Type} (g : α → β) (es : List ε) :
    lastWrite (fun e => (w e).map g) es = (lastWrite w es).map g := by
  induction es using List.reverseRecOn with
  | nil => rfl
  | append_singleton es e ih =>
      rw [lastWrite_snoc, lastWrite_snoc, ih]
      cases w e <;> rfl

/-- What holds of the first value and of all values written holds of the last
one. -/
theorem lastWrite_getD_of_forall {P : α → Prop} {a : α} (ha : P a)
    (hw : ∀ e ∈ es, ∀ b, w e = some b → P b) :
    P ((lastWrite w es).getD a) := by
  cases hlast : lastWrite w es with
  | none => exact ha
  | some b =>
      obtain ⟨ds, e, rest, rfl, he, _⟩ := lastWrite_eq_some_iff.mp hlast
      exact hw e (by simp) b he

/-- Writing one after the other leaves the last value. -/
theorem foldl_write (a : α) (es : List ε) :
    es.foldl (fun a e => (w e).getD a) a = (lastWrite w es).getD a := by
  induction es using List.reverseRecOn with
  | nil => rfl
  | append_singleton es e ih =>
      rw [List.foldl_append, List.foldl_cons, List.foldl_nil, ih,
        lastWrite_snoc]
      cases w e <;> rfl

/-- **The watched value is the last one written**, where each step either
writes it or leaves it. -/
theorem Run.last_write {I : σ → Prop} {f : σ → α}
    (hstep : ∀ s e t, I s → step s e t →
      I t ∧ f t = (w e).getD (f s))
    (h : Run step s es t) (h0 : I s) :
    I t ∧ f t = (lastWrite w es).getD (f s) := by
  rw [← foldl_write]
  exact h.replay hstep h0

end LastWrite

/-! ## Counting since the last reset -/

section Tally

variable {resets counts : ε → Bool}

/-- The labels since the last one that resets. -/
def sinceLast (resets : ε → Bool) (es : List ε) : List ε :=
  es.rtakeWhile (fun e => !resets e)

/-- A reset starts the list anew. -/
theorem sinceLast_snoc (es : List ε) (e : ε) :
    sinceLast resets (es ++ [e]) =
      if resets e then [] else sinceLast resets es ++ [e] := by
  unfold sinceLast
  cases hreset : resets e with
  | true => simp [List.rtakeWhile_concat_neg, hreset]
  | false => simp [List.rtakeWhile_concat_pos, hreset]

variable {M : Type} [AddCommMonoidWithOne M]

/-- One label of a count that some labels start anew. -/
def tallied (resets counts : ε → Bool) (n : M) (e : ε) : M :=
  if resets e then 0 else if counts e then n + 1 else n

/-- **The count is that of the labels since the last reset**, and goes on from
the first number where there has been none. -/
theorem foldl_tallied (n : M) (es : List ε) :
    es.foldl (tallied resets counts) n =
      ((sinceLast resets es).countP counts : M) +
        if es.any resets then 0 else n := by
  induction es using List.reverseRecOn with
  | nil => simp [sinceLast]
  | append_singleton es e ih =>
      rw [List.foldl_append, List.foldl_cons, List.foldl_nil, ih, tallied,
        sinceLast_snoc, List.any_append]
      cases hreset : resets e with
      | true => simp [hreset]
      | false =>
          cases hcount : counts e with
          | true => simp [hreset, hcount, add_right_comm]
          | false => simp [hreset, hcount]

end Tally

end LabelledRun
