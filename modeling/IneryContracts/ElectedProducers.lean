import IneryContracts.ProducerStanding
import IneryContracts.SortedScan

/-!
# The producers that are elected

The loop that elects producers walks along the index of votes and ends at the
first row that is not active or has no votes.  What it finds are the candidates
that no other row precedes; a row that stops it before a candidate would have
to be one that is not active and has less than no votes.
-/

namespace Inery

open GuardedStep LabelledRun

namespace ProducerInfo

/-- The order of the index `prototalvote`. -/
def Precedes (p q : ProducerInfo) : Prop :=
  p.byVotes < q.byVotes ∨
    p.byVotes = q.byVotes ∧ p.owner.value ≤ q.owner.value

instance : DecidableRel Precedes := fun _ _ =>
  inferInstanceAs (Decidable (_ ∨ _))

/-- The loop goes on at this row. -/
def Candidate (p : ProducerInfo) : Prop := 0 < p.totalVotes ∧ p.isActive = true

instance : DecidablePred Candidate := fun _ =>
  inferInstanceAs (Decidable (_ ∧ _))

/-- Every row precedes itself, so that equal votes do not stop a sort. -/
theorem Precedes.refl (p : ProducerInfo) : p.Precedes p :=
  .inr ⟨rfl, UInt64.le_refl _⟩

instance : Std.Total Precedes where
  total p q := by
    rcases lt_trichotomy p.byVotes q.byVotes with h | h | h
    · exact .inl (.inl h)
    · rcases UInt64.le_total p.owner.value q.owner.value with hle | hle
      · exact .inl (.inr ⟨h, hle⟩)
      · exact .inr (.inr ⟨h.symm, hle⟩)
    · exact .inr (.inl h)

instance : IsTrans ProducerInfo Precedes where
  trans p q s := by
    rintro (h | ⟨h, hle⟩) (h' | ⟨h', hle'⟩)
    · exact .inl (h.trans h')
    · exact .inl (h' ▸ h)
    · exact .inl (h ▸ h')
    · exact .inr ⟨h.trans h', UInt64.le_trans hle hle'⟩

/-- The order is that of the secondary key. -/
theorem Precedes.byVotes_le {p q : ProducerInfo} (h : p.Precedes q) :
    p.byVotes ≤ q.byVotes := by
  rcases h with h | ⟨h, _⟩
  · exact h.le
  · exact h.le

/-- Two different rows do not precede each other. -/
theorem Precedes.antisymm {p q : ProducerInfo} (h : p.Precedes q)
    (h' : q.Precedes p) : p.owner = q.owner := by
  have heq := le_antisymm h.byVotes_le h'.byVotes_le
  rcases h with h | ⟨_, hle⟩
  · exact absurd heq h.ne
  · rcases h' with h' | ⟨_, hle'⟩
    · exact absurd heq h'.ne'
    · exact congrArg Name.mk (UInt64.le_antisymm hle hle')

/-- The key of an active producer is the negative of its votes. -/
theorem Candidate.byVotes_eq {p : ProducerInfo} (h : p.Candidate) :
    p.byVotes = -p.totalVotes := by
  unfold byVotes
  rw [if_pos h.2]

end ProducerInfo

namespace Election

variable {e : Election} {p q : ProducerInfo}

/-- Every row that the index has up to this one is a candidate. -/
def Electable (e : Election) (p : ProducerInfo) : Prop :=
  ∀ y ∈ e.producers.rows, y.Precedes p → y.Candidate

instance : DecidablePred e.Electable := fun _ =>
  inferInstanceAs (Decidable (∀ _ ∈ _, _))

/-- The rows that the loop collects. -/
def elected (e : Election) : List ProducerInfo :=
  ((System.byVotesIndex e).filter (fun p => decide (e.Electable p))).take 101

/-- The index holds the rows of the table. -/
theorem byVotesIndex_perm (e : Election) :
    (System.byVotesIndex e).Perm e.producers.rows :=
  List.perm_insertionSort _ _

/-- The index is sorted. -/
theorem byVotesIndex_sorted (e : Election) :
    (System.byVotesIndex e).Pairwise ProducerInfo.Precedes :=
  List.pairwise_insertionSort ProducerInfo.Precedes _

/-- The index holds every owner once. -/
theorem byVotesIndex_owners (e : Election) :
    ((System.byVotesIndex e).map (·.owner)).Nodup :=
  ((byVotesIndex_perm e).map _).nodup_iff.mpr e.producers.nodup

/-- No row of the index precedes an earlier one. -/
theorem byVotesIndex_strict (e : Election) :
    (System.byVotesIndex e).Pairwise (fun p q => ¬ q.Precedes p) := by
  have hdistinct : (System.byVotesIndex e).Pairwise
      (fun p q => p.owner ≠ q.owner) :=
    List.pairwise_map.mp (byVotesIndex_owners e)
  refine ((byVotesIndex_sorted e).and hdistinct).imp ?_
  rintro p q ⟨hpq, hne⟩ hqp
  exact hne (hpq.antisymm hqp)

/-- **What the loop collects.** -/
theorem topProducers_eq (e : Election) :
    System.topProducers e = e.elected.map (fun p =>
      (⟨p.owner, p.getProducerAuthority⟩,
        System.scheduleKey p.totalVotes)) := by
  have hscan :
      (System.byVotesIndex e).takeWhile (fun p => decide p.Candidate) =
      (System.byVotesIndex e).filter (fun p => decide (e.Electable p)) := by
    rw [SortedScan.takeWhile_eq_filter ProducerInfo.Precedes.refl
      (byVotesIndex_sorted e) (byVotesIndex_strict e)]
    refine List.filter_congr fun p _ => ?_
    rw [decide_eq_decide]
    simp only [decide_eq_true_eq, (byVotesIndex_perm e).mem_iff]
    rfl
  have htest : (fun p : ProducerInfo =>
      decide (0 < p.totalVotes) && p.isActive) =
      fun p => decide p.Candidate := by
    funext p
    rw [Bool.eq_iff_iff, Bool.and_eq_true, decide_eq_true_eq,
      decide_eq_true_eq]
    rfl
  unfold System.topProducers elected
  rw [htest, ← List.take_takeWhile, hscan]

/-- An elected producer has a row and can be elected. -/
theorem mem_elected (h : p ∈ e.elected) :
    p ∈ e.producers.rows ∧ e.Electable p := by
  obtain ⟨hmem, hp⟩ := List.mem_filter.mp (List.mem_of_mem_take h)
  exact ⟨(byVotesIndex_perm e).mem_iff.mp hmem, of_decide_eq_true hp⟩

/-- Up to an electable row, all rows are. -/
private theorem countP_electable (hp : e.Electable p) :
    ((System.byVotesIndex e).filter
      (fun q => decide (e.Electable q))).countP
        (fun q => decide (q.Precedes p)) =
      e.producers.rows.countP (fun q => decide (q.Precedes p)) := by
  rw [List.countP_filter, (byVotesIndex_perm e).countP_eq]
  refine List.countP_congr fun q hq => ?_
  simp only [Bool.and_eq_true, decide_eq_true_eq, and_iff_left_iff_imp]
  intro hqp y hy hyq
  exact hp y hy (Trans.trans hyq hqp)

/-- **Who is elected**: the electable rows that at most 101 rows, counted with
themselves, go before. -/
theorem mem_elected_iff : p ∈ e.elected ↔ p ∈ e.producers.rows ∧
    e.Electable p ∧
    e.producers.rows.countP (fun q => decide (q.Precedes p)) ≤ 101 := by
  unfold elected
  rw [SortedScan.mem_take_iff ProducerInfo.Precedes.refl
      ((byVotesIndex_sorted e).sublist List.filter_sublist)
      ((byVotesIndex_strict e).sublist List.filter_sublist),
    List.mem_filter, (byVotesIndex_perm e).mem_iff, decide_eq_true_eq]
  constructor
  · rintro ⟨⟨hmem, hp⟩, hcount⟩
    exact ⟨hmem, hp, countP_electable hp ▸ hcount⟩
  · rintro ⟨hmem, hp, hcount⟩
    exact ⟨⟨hmem, hp⟩, (countP_electable hp).symm ▸ hcount⟩

/-- An elected producer is active and has votes. -/
theorem candidate_of_elected (h : p ∈ e.elected) : p.Candidate :=
  (mem_elected h).2 p (mem_elected h).1 (.refl p)

/-- The elected are sorted as the index is. -/
theorem elected_sorted (e : Election) :
    e.elected.Pairwise ProducerInfo.Precedes :=
  (byVotesIndex_sorted e).sublist
    ((List.take_sublist _ _).trans List.filter_sublist)

/-- No producer is elected twice. -/
theorem elected_owners (e : Election) : (e.elected.map (·.owner)).Nodup :=
  (byVotesIndex_owners e).sublist
    (((List.take_sublist _ _).trans List.filter_sublist).map _)

/-- As many are elected as can be, up to 101. -/
theorem length_elected (e : Election) :
    e.elected.length =
      min 101 (e.producers.rows.countP (fun p => decide (e.Electable p))) := by
  unfold elected
  rw [List.length_take, ← List.countP_eq_length_filter,
    (byVotesIndex_perm e).countP_eq]

/-! ## What the loop reads -/

/-- What the election reads of a row is part of its registration. -/
private theorem of_registration {p q : ProducerInfo}
    (h : p.registration = q.registration) :
    p.owner = q.owner ∧ p.byVotes = q.byVotes ∧
      p.totalVotes = q.totalVotes ∧ p.isActive = q.isActive ∧
      p.getProducerAuthority = q.getProducerAuthority := by
  have howner : p.registration.owner = q.registration.owner := by rw [h]
  have hvotes : p.registration.byVotes = q.registration.byVotes := by rw [h]
  have htotal : p.registration.totalVotes = q.registration.totalVotes := by
    rw [h]
  have hactive : p.registration.isActive = q.registration.isActive := by
    rw [h]
  have hauthority : p.registration.getProducerAuthority =
      q.registration.getProducerAuthority := by rw [h]
  exact ⟨howner, hvotes, htotal, hactive, hauthority⟩

/-- The index is that of the registrations, whatever order the rows are in. -/
private theorem byVotesIndex_map {e' : Election}
    {f : ProducerInfo → ProducerInfo}
    (hf : ∀ p, (f p).registration = p.registration)
    (hrows : e'.producers.rows.Perm (e.producers.rows.map f)) :
    System.byVotesIndex e' = (System.byVotesIndex e).map f := by
  have hperm : (System.byVotesIndex e').Perm ((System.byVotesIndex e).map f) :=
    ((byVotesIndex_perm e').trans hrows).trans
      ((byVotesIndex_perm e).map f).symm
  refine hperm.eq_of_pairwise ?_ (byVotesIndex_sorted e') ?_
  · intro p q hp hq hle hle'
    have hp' := (byVotesIndex_perm e').mem_iff.mp hp
    have hq' := (byVotesIndex_perm e').mem_iff.mp (hperm.mem_iff.mpr hq)
    exact List.inj_on_of_nodup_map e'.producers.nodup hp' hq'
      (hle.antisymm hle')
  · refine List.pairwise_map.mpr ((byVotesIndex_sorted e).imp ?_)
    intro p q hle
    obtain ⟨hp, hpv, _⟩ := of_registration (hf p)
    obtain ⟨hq, hqv, _⟩ := of_registration (hf q)
    unfold ProducerInfo.Precedes
    rw [hp, hq, hpv, hqv]
    exact hle

/-- So are the producers at its top. -/
theorem topProducers_congr {e' : Election} {f : ProducerInfo → ProducerInfo}
    (hf : ∀ p, (f p).registration = p.registration)
    (hrows : e'.producers.rows.Perm (e.producers.rows.map f)) :
    System.topProducers e' = System.topProducers e := by
  unfold System.topProducers
  rw [byVotesIndex_map hf hrows, ← List.map_take, List.takeWhile_map,
    List.map_map]
  have htest : ((fun p : ProducerInfo =>
        decide (0 < p.totalVotes) && p.isActive) ∘ f) =
      fun p => decide (0 < p.totalVotes) && p.isActive := by
    funext p
    obtain ⟨_, _, htotal, hactive, _⟩ := of_registration (hf p)
    simp [htotal, hactive]
  rw [htest]
  refine List.map_congr_left fun p _ => ?_
  obtain ⟨howner, _, htotal, _, hauthority⟩ := of_registration (hf p)
  simp [howner, htotal, hauthority]

/-- The schedule that `update_elected_producers` hands to the host. -/
def schedule (e : Election) : List ProducerAuthority :=
  ((System.topProducers e).insertionSort (fun a b => a.2 ≤ b.2)).map (·.1)

end Election

/-! ## Blocks that propose -/

namespace System

open Election

variable {ctx : Ctx} {s s' : SysState}

/-- The block updates the schedule. -/
def UpdatesSchedule (s : SysState) (timestamp : UInt32) : Prop :=
  s.election.threshActivatedStakeTime ≠ 0 ∧
  timestamp - s.lastProducerScheduleUpdate > 1 ∧
  (topProducers s.election).length ≠ 0 ∧
  ¬ (topProducers s.election).length < s.lastProducerScheduleSize

instance (s : SysState) (timestamp : UInt32) :
    Decidable (UpdatesSchedule s timestamp) :=
  inferInstanceAs (Decidable (_ ∧ _ ∧ _ ∧ _))

/-- Counting a block leaves the top of the index alone. -/
private theorem countBlock_top {producer : Name}
    (h : countBlock s producer = .ok s') :
    topProducers s'.election = topProducers s.election ∧
      s'.lastProducerScheduleUpdate = s.lastProducerScheduleUpdate ∧
      s'.lastProducerScheduleSize = s.lastProducerScheduleSize ∧
      s'.proposed = s.proposed := by
  unfold countBlock at h
  split at h
  · simp only [bind_eq_ok, modify_eq_ok, pure_eq_ok] at h
    obtain ⟨_, ⟨p, hp, hk, rfl⟩, rfl⟩ := h
    have hrows := KeyedTable.rows_put_perm (g := fun p : ProducerInfo =>
      { p with unpaidBlocks := MachineInt.u32 (p.unpaidBlocks + 1) }) hp hk
    refine ⟨topProducers_congr (fun q => ?_) hrows, rfl, rfl, rfl⟩
    split <;> rfl
  · cases h
    exact ⟨rfl, rfl, rfl, rfl⟩

/-- The update proposes the schedule or nothing; the size it compares with
stays. -/
private theorem updateElectedProducers_proposed (s : SysState)
    (blockTime : UInt32) :
    (updateElectedProducers s blockTime).lastProducerScheduleSize =
      s.lastProducerScheduleSize ∧
    (updateElectedProducers s blockTime).proposed =
      if (topProducers s.election).length ≠ 0 ∧
        ¬ (topProducers s.election).length < s.lastProducerScheduleSize
      then s.proposed ++ [s.election.schedule] else s.proposed := by
  unfold updateElectedProducers
  dsimp only
  split
  · next hstop =>
      rw [if_neg (fun hgo => hstop.elim hgo.1 hgo.2)]
      exact ⟨rfl, rfl⟩
  · next hgo =>
      rw [if_pos (not_or.mp hgo)]
      exact ⟨rfl, rfl⟩

/-- **What a block proposes.** -/
theorem onblock_proposed {timestamp : UInt32} {producer : Name}
    (h : onblock ctx s timestamp producer = .ok s') :
    s'.lastProducerScheduleSize = s.lastProducerScheduleSize ∧
    s'.proposed = if UpdatesSchedule s timestamp then
      s.proposed ++ [s.election.schedule] else s.proposed := by
  simp only [onblock, bind_eq_ok, Ctx.requireAuth_eq_ok, exists_const] at h
  obtain ⟨_, h⟩ := h
  split at h
  · next hthresh =>
      cases h
      rw [if_neg (fun hdue => hdue.1 hthresh)]
      exact ⟨rfl, rfl⟩
  · next hthresh =>
      simp only [bind_eq_ok] at h
      obtain ⟨s₁, hcount, h⟩ := h
      obtain ⟨htop, hupdate, hsize, hproposed⟩ := countBlock_top hcount
      have hschedule : s₁.election.schedule = s.election.schedule := by
        unfold schedule
        rw [htop]
      split at h
      · next hdue =>
          cases h
          obtain ⟨hsize', hproposed'⟩ :=
            updateElectedProducers_proposed s₁ timestamp
          refine ⟨hsize'.trans hsize, ?_⟩
          rw [hupdate] at hdue
          rw [hproposed', hproposed, hschedule, htop, hsize]
          have hiff : UpdatesSchedule s timestamp ↔
              (topProducers s.election).length ≠ 0 ∧
              ¬ (topProducers s.election).length <
                s.lastProducerScheduleSize :=
            ⟨fun h' => h'.2.2, fun h' => ⟨hthresh, hdue, h'⟩⟩
          simp only [hiff]
      · next hdue =>
          cases h
          rw [hupdate] at hdue
          rw [if_neg (fun h' => hdue h'.2.1)]
          exact ⟨hsize, hproposed⟩

end System

end Inery
