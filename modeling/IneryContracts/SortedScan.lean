import Mathlib.Data.List.Sort

/-!
# Scanning a sorted list

A loop that walks along a sorted list and ends at the first element that fails
a test.  What it has seen are the elements that no failing element precedes,
and a list that is sorted again keeps the order of equal elements.
-/

namespace SortedScan

variable {α β : Type} {r : α → α → Prop} [DecidableRel r] {q : α → Bool}
  {l : List α}

/-- What a scan takes are the elements that no failing element precedes. -/
theorem takeWhile_eq_filter (hrefl : ∀ a, r a a) (hsorted : l.Pairwise r)
    (hstrict : l.Pairwise (fun a b => ¬ r b a)) :
    l.takeWhile q =
      l.filter (fun a => decide (∀ b ∈ l, r b a → q b = true)) := by
  induction l with
  | nil => rfl
  | cons a l ih =>
      obtain ⟨hfirst, hrest⟩ := List.pairwise_cons.mp hsorted
      obtain ⟨hbefore, hafter⟩ := List.pairwise_cons.mp hstrict
      cases ha : q a with
      | false =>
          rw [List.takeWhile_cons_of_neg (by simp [ha])]
          symm
          rw [List.filter_eq_nil_iff]
          intro b hb hall
          have hle : r a b := by
            rcases List.mem_cons.mp hb with rfl | hb
            · exact hrefl b
            · exact hfirst b hb
          have hq := of_decide_eq_true hall a List.mem_cons_self hle
          rw [ha] at hq
          cases hq
      | true =>
          have hself : ∀ b ∈ a :: l, r b a → q b = true := by
            intro b hb hle
            rcases List.mem_cons.mp hb with rfl | hb
            · exact ha
            · exact absurd hle (hbefore b hb)
          have hkept : (a :: l).filter
              (fun x => decide (∀ b ∈ a :: l, r b x → q b = true)) =
              a :: l.filter
                (fun x => decide (∀ b ∈ a :: l, r b x → q b = true)) :=
            List.filter_cons_of_pos (decide_eq_true hself)
          rw [List.takeWhile_cons_of_pos ha, ih hrest hafter, hkept]
          congr 1
          refine List.filter_congr fun b _ => ?_
          simp [ha]

/-- The first `n` elements are those that at most `n` elements go before, each
of them counted with itself. -/
theorem mem_take_iff (hrefl : ∀ a, r a a) (hsorted : l.Pairwise r)
    (hstrict : l.Pairwise (fun a b => ¬ r b a)) {a : α} {n : ℕ} :
    a ∈ l.take n ↔ a ∈ l ∧ l.countP (fun b => decide (r b a)) ≤ n := by
  induction l generalizing n with
  | nil => simp
  | cons b l ih =>
      obtain ⟨hfirst, hrest⟩ := List.pairwise_cons.mp hsorted
      obtain ⟨hbefore, hafter⟩ := List.pairwise_cons.mp hstrict
      by_cases hab : a = b
      · -- nothing but the head goes before the head
        subst hab
        have hnone : l.countP (fun c => decide (r c a)) = 0 := by
          rw [List.countP_eq_zero]
          intro c hc
          simp [hbefore c hc]
        rw [List.countP_cons_of_pos (by simp [hrefl a]), hnone]
        cases n <;> simp
      · by_cases hmem : a ∈ l
        · rw [List.countP_cons_of_pos (by simp [hfirst a hmem])]
          cases n with
          | zero => simp
          | succ n => simp [hab, hmem, ih hrest hafter]
        · have hnot : a ∉ (b :: l).take n := by
            intro hin
            rcases List.mem_cons.mp (List.mem_of_mem_take hin) with h | h
            · exact hab h
            · exact hmem h
          simp [hnot, hab, hmem]

/-- Equal elements stay in order when a list is sorted by a key, and so does
every pair that the key has in order. -/
theorem sublist_sorted {key : α → ℕ} {a b : α} (hle : key a ≤ key b)
    (h : [a, b].Sublist l) :
    [a, b].Sublist (l.insertionSort (fun x y => key x ≤ key y)) :=
  List.pair_sublist_insertionSort hle h

/-- Of two different elements one comes before the other. -/
theorem pair_sublist_or {l : List α} {a b : α} (ha : a ∈ l) (hb : b ∈ l)
    (hne : a ≠ b) : [a, b].Sublist l ∨ [b, a].Sublist l := by
  induction l with
  | nil => cases ha
  | cons c l ih =>
      rcases List.mem_cons.mp ha with rfl | ha'
      · have hb' : b ∈ l := (List.mem_cons.mp hb).resolve_left (Ne.symm hne)
        exact .inl ((List.singleton_sublist.mpr hb').cons_cons a)
      · rcases List.mem_cons.mp hb with rfl | hb'
        · exact .inr ((List.singleton_sublist.mpr ha').cons_cons b)
        · exact (ih ha' hb').imp (.cons c) (.cons c)

/-- In a sorted list an element comes before those that it goes before
strictly. -/
theorem pair_sublist_of_not {r : α → α → Prop} {l : List α} {a b : α}
    (hsorted : l.Pairwise r) (ha : a ∈ l) (hb : b ∈ l) (hrefl : r a a)
    (hnot : ¬ r b a) : [a, b].Sublist l := by
  have hne : a ≠ b := by
    rintro rfl
    exact hnot hrefl
  exact (pair_sublist_or ha hb hne).resolve_right
    (fun h => hnot (hsorted.forall_sublist h))

/-- Of two elements of a list without repetitions only one comes first. -/
theorem not_sublist_swap {l : List α} {a b : α} (hnodup : l.Nodup)
    (hab : [a, b].Sublist l) : ¬ [b, a].Sublist l := by
  induction l with
  | nil => simp at hab
  | cons c l ih =>
      obtain ⟨hc, hl⟩ := List.nodup_cons.mp hnodup
      intro hba
      rcases List.cons_sublist_cons'.mp hab with hab' | ⟨rfl, hb⟩
      · rcases List.cons_sublist_cons'.mp hba with hba' | ⟨rfl, ha⟩
        · exact ih hl hab' hba'
        · exact hc (hab'.subset (by simp))
      · rcases List.cons_sublist_cons'.mp hba with hba' | ⟨rfl, ha⟩
        · exact hc (hba'.subset (by simp))
        · exact hc (ha.subset (by simp))

end SortedScan
