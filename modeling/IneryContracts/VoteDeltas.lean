import IneryContracts.VotePropagation

/-!
# The map of changes

`update_votes` enters what it takes off the producers of the old vote and what
it gives to those of the new one in a map, and applies the entries one by one.
Every producer has at most one entry.
-/

namespace Inery

open GuardedStep LedgerVector

/-- The order of names is transitive. -/
theorem Name.lt_trans {a b c : Name} (h : a < b) (h' : b < c) : a < c :=
  UInt64.lt_trans h h'

/-- Of two names one comes first. -/
theorem Name.lt_of_not_lt {a b : Name} (hne : a ≠ b) (h : ¬ a < b) : b < a := by
  refine UInt64.lt_of_le_of_ne (UInt64.not_lt.mp h) (fun heq => hne ?_)
  exact congrArg Name.mk heq.symm

/-- No name comes before itself. -/
theorem Name.ne_of_lt {a b : Name} (h : a < b) : a ≠ b := by
  rintro rfl
  exact UInt64.lt_irrefl _ h

instance : @Trans Name Name Name (· < ·) (· < ·) (· < ·) :=
  ⟨Name.lt_trans⟩

namespace Election

/-! ## The map of changes -/

section Deltas

variable {p : Name} {x : ℚ} {isNew : Bool} {ds : List ProducerDelta}

/-- What the entries of the map change. -/
def deltaSum (ds : List ProducerDelta) : VoteTarget → ℚ :=
  (ds.map (fun d => Pi.single (.producer d.producer) d.delta)).sum

/-- The entries are sorted by name, no two for one producer. -/
def SortedDeltas (ds : List ProducerDelta) : Prop :=
  ds.Pairwise (fun d d' => d.producer < d'.producer)

/-- The entries of a map add up. -/
theorem deltaSum_cons (d : ProducerDelta) (ds : List ProducerDelta) :
    deltaSum (d :: ds) =
      Pi.single (.producer d.producer) d.delta + deltaSum ds := by
  simp [deltaSum]

/-- Entries for other producers change nothing here. -/
theorem deltaSum_of_ne (h : ∀ d ∈ ds, d.producer ≠ p) :
    deltaSum ds (.producer p) = 0 := by
  induction ds with
  | nil => rfl
  | cons d ds ih =>
      have hd := h d List.mem_cons_self
      rw [deltaSum_cons, Pi.add_apply,
        ih (fun c hc => h c (List.mem_cons_of_mem _ hc)),
        Pi.single_eq_of_ne (fun heq => hd (VoteTarget.producer.inj heq).symm),
        add_zero]

/-- Entering a change adds it. -/
theorem deltaSum_bump : deltaSum (bumpDelta p x isNew ds) =
    deltaSum ds + Pi.single (.producer p) x := by
  induction ds with
  | nil => simp [bumpDelta, deltaSum]
  | cons d ds ih =>
      unfold bumpDelta
      split
      · next hp =>
          subst hp
          rw [deltaSum_cons, deltaSum_cons, Pi.single_add]
          abel
      · split
        · rw [deltaSum_cons, add_comm]
        · rw [deltaSum_cons, deltaSum_cons, ih, add_assoc]

/-- The entries of a map after one has been changed. -/
theorem mem_bump {d : ProducerDelta} (hd : d ∈ bumpDelta p x isNew ds) :
    d.producer = p ∨ d ∈ ds := by
  induction ds with
  | nil =>
      rw [bumpDelta, List.mem_singleton] at hd
      exact .inl (by rw [hd])
  | cons c ds ih =>
      unfold bumpDelta at hd
      split at hd
      · rcases List.mem_cons.mp hd with rfl | hd
        · exact .inl rfl
        · exact .inr (List.mem_cons_of_mem _ hd)
      · split at hd
        · rcases List.mem_cons.mp hd with rfl | hd
          · exact .inl rfl
          · exact .inr hd
        · rcases List.mem_cons.mp hd with rfl | hd
          · exact .inr List.mem_cons_self
          · exact (ih hd).imp_right (List.mem_cons_of_mem _)

/-- Entering a change keeps the map sorted. -/
theorem SortedDeltas.bump (h : SortedDeltas ds) :
    SortedDeltas (bumpDelta p x isNew ds) := by
  induction ds with
  | nil => exact List.pairwise_singleton _ _
  | cons c ds ih =>
      obtain ⟨hfirst, hrest⟩ := List.pairwise_cons.mp h
      unfold bumpDelta
      split
      · next hp =>
          subst hp
          exact List.pairwise_cons.mpr ⟨hfirst, hrest⟩
      · next hne =>
          split
          · next hlt =>
              refine List.pairwise_cons.mpr ⟨fun d hd => ?_, h⟩
              rcases List.mem_cons.mp hd with rfl | hd
              · exact hlt
              · exact Name.lt_trans hlt (hfirst d hd)
          · next hlt =>
              refine List.pairwise_cons.mpr ⟨fun d hd => ?_, ih hrest⟩
              rcases mem_bump hd with hp | hd
              · rw [hp]
                exact Name.lt_of_not_lt hne hlt
              · exact hfirst d hd

variable (isNew) in
/-- Entering one weight for a list of producers. -/
theorem bumpAll {producers : List Name} (hnodup : producers.Nodup)
    (h : SortedDeltas ds) :
    SortedDeltas
      (producers.foldl (fun ds p => bumpDelta p x isNew ds) ds) ∧
    deltaSum (producers.foldl (fun ds p => bumpDelta p x isNew ds) ds) =
      deltaSum ds + ballot .none producers x := by
  induction producers generalizing ds with
  | nil => exact ⟨h, by rw [ballot_nil, add_zero, List.foldl_nil]⟩
  | cons q producers ih =>
      obtain ⟨hq, hnodup⟩ := List.nodup_cons.mp hnodup
      obtain ⟨hsorted, hsum⟩ := ih hnodup h.bump
      refine ⟨hsorted, ?_⟩
      rw [List.foldl_cons, hsum, deltaSum_bump, ballot_cons hq, add_assoc]

/-- The entries after changes for a list of producers. -/
theorem mem_bumpAll {producers : List Name} {d : ProducerDelta}
    (hd : d ∈ producers.foldl (fun ds p => bumpDelta p x isNew ds) ds) :
    d.producer ∈ producers ∨ d ∈ ds := by
  induction producers generalizing ds with
  | nil => exact .inr hd
  | cons q producers ih =>
      rcases ih hd with hmem | hmem
      · exact .inl (List.mem_cons_of_mem _ hmem)
      · rcases mem_bump hmem with hq | hmem
        · exact .inl (hq ▸ List.mem_cons_self)
        · exact .inr hmem

/-- Every producer that has been entered has an entry. -/
theorem mem_producers_bump {q : Name}
    (hq : q = p ∨ q ∈ ds.map (·.producer)) :
    q ∈ (bumpDelta p x isNew ds).map (·.producer) := by
  induction ds with
  | nil => simpa [bumpDelta] using hq
  | cons c ds ih =>
      unfold bumpDelta
      split
      · next hp => simpa [← hp] using hq
      · split
        · simpa using hq
        · rw [List.map_cons, List.mem_cons] at hq ⊢
          rcases hq with rfl | rfl | hq
          · exact .inr (ih (.inl rfl))
          · exact .inl rfl
          · exact .inr (ih (.inr hq))

variable (isNew ds x) in
/-- Every producer of the list has an entry. -/
theorem mem_producers_bumpAll {producers : List Name} {q : Name}
    (hq : q ∈ producers ∨ q ∈ ds.map (·.producer)) :
    q ∈ (producers.foldl (fun ds p => bumpDelta p x isNew ds) ds).map
      (·.producer) := by
  induction producers generalizing ds with
  | nil => exact hq.resolve_left List.not_mem_nil
  | cons p producers ih =>
      refine ih _ ?_
      rcases hq with hq | hq
      · rcases List.mem_cons.mp hq with rfl | hq
        · exact .inr (mem_producers_bump (.inl rfl))
        · exact .inl hq
      · exact .inr (mem_producers_bump (.inr hq))

end Deltas

/-! ## The loop over the map -/

/-- A change that leaves the votes of the producer nonnegative is not
clamped. -/
theorem applyDelta_counts {ct : ℤ} {owner : Name} {voting : Bool}
    {l l' : VoteLoop} {d : ProducerDelta}
    (hpos : 0 ≤ l.election.counted (.producer d.producer) + d.delta)
    (h : applyDelta ct owner voting l d = .ok l') :
    Counts l.election l'.election
      (Pi.single (.producer d.producer) d.delta) := by
  simp only [applyDelta, bind_eq_ok, deref_eq_ok, check_eq_ok, modify_eq_ok,
    exists_const] at h
  obtain ⟨pitr, hpitr, _, _, _, ⟨row, hrow, hk, rfl⟩, h⟩ := h
  cases hpitr.symm.trans hrow
  obtain ⟨producers2, hsettled⟩ := settleVotepay_ok h
  rw [counted, view_of_find hrow] at hpos
  simp only [if_neg (not_lt.mpr hpos), add_zero] at hsettled
  rw [hsettled]
  exact .producer
    (r := { pitr with totalVotes := pitr.totalVotes + d.delta }) hrow hk rfl

/-- The loop counts all changes if each of them leaves the votes of its
producer nonnegative. -/
theorem applyDeltas_counts {ct : ℤ} {owner : Name} {voting : Bool}
    {ds : List ProducerDelta} {l l' : VoteLoop} (hsorted : SortedDeltas ds)
    (hpos : ∀ d ∈ ds, 0 ≤ l.election.counted (.producer d.producer) +
      deltaSum ds (.producer d.producer))
    (h : ds.foldlM (applyDelta ct owner voting) l = .ok l') :
    Counts l.election l'.election (deltaSum ds) := by
  induction ds generalizing l with
  | nil =>
      cases h
      exact .refl _
  | cons d ds ih =>
      rw [List.foldlM_cons, bind_eq_ok] at h
      obtain ⟨l₁, h₁, h⟩ := h
      obtain ⟨hfirst, hrest⟩ := List.pairwise_cons.mp hsorted
      -- the other entries are for other producers
      have hzero : deltaSum ds (.producer d.producer) = 0 := by
        refine deltaSum_of_ne (fun c hc => ?_)
        exact (Name.ne_of_lt (hfirst c hc)).symm
      have hhead := applyDelta_counts (by
        have := hpos d List.mem_cons_self
        rwa [deltaSum_cons, Pi.add_apply, hzero, Pi.single_eq_same,
          add_zero] at this) h₁
      rw [deltaSum_cons]
      refine hhead.trans (ih hrest (fun c hc => ?_) h)
      have := hpos c (List.mem_cons_of_mem _ hc)
      rwa [deltaSum_cons, Pi.add_apply, ← add_assoc, ← Pi.add_apply,
        ← hhead.counted] at this

end Election

end Inery
