import Mathlib.Data.List.Nodup
import Mathlib.Logic.Function.Basic

/-!
# Tables with a primary key

A table is a list of rows no two of which have the same key; the key is
computed from the row, so a stored row can never sit under a key that is not
its own.  Lookups, writes and deletions are described pointwise.
-/

/-- Rows of type `R` identified by `key`. -/
structure KeyedTable {K R : Type} (key : R → K) where
  rows : List R
  nodup : (rows.map key).Nodup

namespace KeyedTable

variable {K R : Type} {key : R → K}

/-- The table without rows. -/
def empty : KeyedTable key := ⟨[], by simp⟩

variable [DecidableEq K]

/-- The row stored under `k`. -/
def find (t : KeyedTable key) (k : K) : Option R :=
  t.rows.find? (fun r => decide (key r = k))

/-- Remove the row stored under `k`. -/
def erase (t : KeyedTable key) (k : K) : KeyedTable key :=
  ⟨t.rows.filter (fun r => decide (key r ≠ k)),
    t.nodup.sublist (List.filter_sublist.map key)⟩

/-- Store `r`, replacing the row with its key if there is one. -/
def put (t : KeyedTable key) (r : R) : KeyedTable key :=
  ⟨r :: (t.erase (key r)).rows, by
    rw [List.map_cons, List.nodup_cons]
    refine ⟨?_, (t.erase (key r)).nodup⟩
    intro hmem
    obtain ⟨q, hq, hkey⟩ := List.mem_map.mp hmem
    have hne := (List.mem_filter.mp hq).2
    simp [hkey] at hne⟩

@[simp] theorem find_empty (k : K) :
    (empty : KeyedTable key).find k = none := rfl

/-- A stored row sits under its own key. -/
theorem key_of_find {t : KeyedTable key} {k : K} {r : R}
    (h : t.find k = some r) : key r = k := by
  simpa using List.find?_some h

theorem find_erase (t : KeyedTable key) (k j : K) :
    (t.erase k).find j = if j = k then none else t.find j := by
  unfold find erase
  rw [List.find?_filter]
  by_cases h : j = k
  · subst h
    simp
  · rw [if_neg h]
    congr 1
    funext r
    by_cases hr : key r = j <;> simp [hr, h]

theorem find_put (t : KeyedTable key) (r : R) (j : K) :
    (t.put r).find j = if j = key r then some r else t.find j := by
  have hcons : (t.put r).find j =
      if key r = j then some r else (t.erase (key r)).find j := by
    by_cases h : key r = j <;> simp [put, find, h]
  rw [hcons, find_erase]
  by_cases h : key r = j
  · simp [h]
  · simp [h, Ne.symm h]

theorem find_put_of_key {t : KeyedTable key} {r : R} {k : K}
    (h : key r = k) (j : K) :
    (t.put r).find j = if j = k then some r else t.find j := by
  rw [find_put, h]

/-- The rows of a table are those that are found under their own keys. -/
theorem find_eq_some_iff {t : KeyedTable key} {k : K} {r : R} :
    t.find k = some r ↔ r ∈ t.rows ∧ key r = k := by
  constructor
  · intro h
    exact ⟨List.mem_of_find?_eq_some h, key_of_find h⟩
  · rintro ⟨hmem, hk⟩
    cases hfind : t.find k with
    | none =>
        have hne := List.find?_eq_none.mp hfind r hmem
        exact absurd (decide_eq_true hk) hne
    | some q =>
        have hq := List.mem_of_find?_eq_some hfind
        have hkey : key q = key r := (key_of_find hfind).trans hk.symm
        rw [List.inj_on_of_nodup_map t.nodup hq hmem hkey]

theorem mem_rows {t : KeyedTable key} {r : R} :
    r ∈ t.rows ↔ t.find (key r) = some r := by
  simp [find_eq_some_iff]

/-- A row and the rest of its table. -/
theorem rows_perm {t : KeyedTable key} {k : K} {r : R}
    (h : t.find k = some r) : t.rows.Perm (r :: (t.erase k).rows) := by
  have hrest : ∀ q, q ∈ (t.erase k).rows ↔ q ∈ t.rows ∧ key q ≠ k := by
    simp [erase]
  obtain ⟨hr, hk⟩ := find_eq_some_iff.mp h
  refine (List.perm_ext_iff_of_nodup t.nodup.of_map ?_).mpr fun q => ?_
  · refine List.nodup_cons.mpr ⟨?_, (t.erase k).nodup.of_map⟩
    rw [hrest]
    exact fun hmem => hmem.2 hk
  · rw [List.mem_cons, hrest]
    constructor
    · intro hq
      by_cases hkey : key q = k
      · have hfind := find_eq_some_iff.mpr ⟨hq, hkey⟩
        exact .inl (Option.some.inj (hfind.symm.trans h))
      · exact .inr ⟨hq, hkey⟩
    · rintro (rfl | hq)
      · exact hr
      · exact hq.1

/-- Without a row under the key there is nothing to remove. -/
theorem rows_erase_of_none {t : KeyedTable key} {k : K} (h : t.find k = none) :
    (t.erase k).rows = t.rows := by
  refine List.filter_eq_self.mpr fun r hr => ?_
  have hne := List.find?_eq_none.mp h r hr
  exact decide_eq_true (of_decide_eq_false (eq_false_of_ne_true hne))

/-- Rewriting the row under `k` rewrites it in the list of rows. -/
theorem rows_put_perm {t : KeyedTable key} {k : K} {r : R} {g : R → R}
    (h : t.find k = some r) (hk : key (g r) = k) :
    (t.put (g r)).rows.Perm
      (t.rows.map (fun q => if key q = k then g q else q)) := by
  have hrest : (t.erase k).rows.map (fun q => if key q = k then g q else q) =
      (t.erase k).rows := by
    refine (List.map_congr_left fun q hq => ?_).trans (List.map_id _)
    have hne := (List.mem_filter.mp hq).2
    exact if_neg (of_decide_eq_true hne)
  have hmap := (rows_perm h).map (fun q => if key q = k then g q else q)
  rw [List.map_cons, hrest, if_pos (key_of_find h)] at hmap
  show (g r :: (t.erase (key (g r))).rows).Perm _
  rw [hk]
  exact hmap.symm

/-- Storing a row, or dropping it when it is empty. -/
theorem find_settle (t : KeyedTable key) {r : R} {k : K} (hk : key r = k)
    (empty : Bool) (j : K) :
    (if empty then (t.put r).erase k else t.put r).find j =
      if j = k then (if empty then none else some r) else t.find j := by
  cases empty with
  | false => simp [find_put_of_key hk]
  | true =>
      by_cases hj : j = k
      · simp [find_erase, hj]
      · simp [find_erase, find_put_of_key hk, hj]

/-! ## Rows of one kind -/

section All

variable {P : R → Prop} {t : KeyedTable key} {r : R}

/-- Every row of the table is a `P`. -/
def All (P : R → Prop) (t : KeyedTable key) : Prop :=
  ∀ k r, t.find k = some r → P r

theorem All.put (h : t.All P) (hr : P r) : (t.put r).All P := by
  intro k q hq
  rw [find_put] at hq
  split at hq
  · cases hq
    exact hr
  · exact h k q hq

theorem All.erase (h : t.All P) (k : K) : (t.erase k).All P := by
  intro j q hq
  rw [find_erase] at hq
  split at hq
  · cases hq
  · exact h j q hq

/-- A row is stored, or dropped when it is empty. -/
theorem All.settle (h : t.All P) (hr : P r) (empty : Bool) (k : K) :
    (if empty then (t.put r).erase k else t.put r).All P := by
  cases empty with
  | true => exact (h.put hr).erase k
  | false => exact h.put hr

end All

end KeyedTable
