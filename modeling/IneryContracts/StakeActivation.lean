import IneryContracts.MemoryConservation
import IneryContracts.VoteRoster

/-!
# Activating the chain

As long as the chain is not activated, the stake of every first vote is counted
towards its activation, and a vote counts as the first when the last one has
had no weight.  In every run in which no producer takes back stake and no vote
of somebody with a stake has no weight, the stakes counted are stakes that the
producers still have, each counted once.
-/

namespace Inery

open GuardedStep LedgerVector LabelledRun MachineInt

/-! ## The accounts that have made themselves producers -/

/-- The accounts that an action makes producers. -/
def SysAction.makers : SysAction → Finset Name
  | makeprod voter _ _ => {voter}
  | _ => ∅

/-- The accounts that an event makes producers. -/
def Event.makers : Event → Finset Name
  | .system _ a => a.makers
  | _ => ∅

/-- The accounts that have called `makeprod` in the course of the events. -/
def makers (es : List Event) : Finset Name :=
  es.foldl (fun made e => made ∪ e.makers) ∅

theorem makers_snoc (es : List Event) (e : Event) :
    makers (es ++ [e]) = makers es ∪ e.makers := by
  simp [makers]

/-- The account that a poll makes a producer. -/
def Poll.makers : Poll → Finset Name
  | .vote voter _ _ => {voter}
  | _ => ∅

namespace VoterInfo

/-- The voter has voted, and not for nobody. -/
def HasVote (v : VoterInfo) : Prop := v.producers ≠ [] ∨ v.proxy ≠ .none

theorem HasVote.of_choice {v v' : VoterInfo} (h : v'.HasVote)
    (hsame : v'.choice = v.choice) : v.HasVote := by
  unfold HasVote at h ⊢
  rwa [← choice_producers hsame, ← choice_proxy hsame]

/-- The stake of a voter whose last vote has had a weight. -/
def votingStake (v : VoterInfo) : ℤ :=
  if 0 < v.lastVoteWeight then v.staked else 0

/-- A voter has a weight if it has a stake, and none otherwise. -/
def Weighs (env : Env) (ctx : Ctx) (v : VoterInfo) : Prop :=
  0 ≤ Election.newVoteWeight env ctx v ∧
    (v.staked ≠ 0 → 0 < Election.newVoteWeight env ctx v)

theorem votingStake_nonneg {v : VoterInfo} (h : v.Fair) :
    0 ≤ v.votingStake := by
  unfold votingStake
  split
  · exact h.staked
  · exact le_refl 0

theorem votingStake_le {v : VoterInfo} (h : v.Fair) :
    v.votingStake ≤ v.staked := by
  unfold votingStake
  split
  · exact le_refl _
  · exact h.staked

/-- With the weight of its stake, all of the stake counts. -/
theorem votingStake_of_weight {v : VoterInfo}
    (h : v.staked ≠ 0 → 0 < v.lastVoteWeight) : v.votingStake = v.staked := by
  unfold votingStake
  split
  · rfl
  · next hlast =>
      by_contra hne
      exact hlast (h (Ne.symm hne))

end VoterInfo

namespace Election

variable {env : Env} {ctx : Ctx} {e e' : Election} {k x proxy : Name}
  {producers : List Name} {made : Finset Name} {v : VoterInfo}
  {voting : Bool}

/-- What is staked by some accounts with a vote that has a weight. -/
def votingStake (e : Election) (made : Finset Name) : ℤ :=
  ∑ k ∈ made, view VoterInfo.votingStake e.voters k

/-- The voters are in order, and who has a vote is among the accounts. -/
structure Enrolled (made : Finset Name) (e : Election) : Prop where
  roster : Roster e.voters
  made : ∀ y v, e.voters.find y = some v → v.HasVote → y ∈ made

/-- What has been activated is staked by the accounts. -/
structure Activated (made : Finset Name) (e : Election) : Prop where
  low : e.threshActivatedStakeTime = 0 →
    -2 ^ 63 ≤ e.totalActivatedStake ∧
    e.totalActivatedStake ≤ e.votingStake made
  high : e.threshActivatedStakeTime ≠ 0 →
    minActivatedStake ≤ e.votingStake made

theorem view_votingStake_nonneg (he : AllFair e.voters) (y : Name) :
    0 ≤ view VoterInfo.votingStake e.voters y := by
  cases hv : e.voters.find y with
  | none => rw [view_of_none hv]
  | some v =>
      rw [view_of_find hv]
      exact VoterInfo.votingStake_nonneg (he y v hv)

/-- The voting stake is staked. -/
theorem votingStake_le_staked (he : AllFair e.voters) (made : Finset Name) :
    e.votingStake made ≤ ∑ y ∈ made, e.staked y := by
  refine Finset.sum_le_sum fun y _ => ?_
  unfold staked
  cases hv : e.voters.find y with
  | none => rw [view_of_none hv, view_of_none hv]
  | some v =>
      rw [view_of_find hv, view_of_find hv]
      exact VoterInfo.votingStake_le (he y v hv)

/-- A larger voting stake of all accounts keeps what has been activated. -/
theorem Activated.mono (h : e.Activated made)
    (hle : ∀ y ∈ made, view VoterInfo.votingStake e.voters y ≤
      view VoterInfo.votingStake e'.voters y)
    (hactivated : e'.totalActivatedStake = e.totalActivatedStake)
    (hthresh : e'.threshActivatedStakeTime = e.threshActivatedStakeTime) :
    e'.Activated made := by
  have hsum : e.votingStake made ≤ e'.votingStake made :=
    Finset.sum_le_sum hle
  refine ⟨fun hopen => ?_, fun hset => ?_⟩
  · rw [hthresh] at hopen
    obtain ⟨hlow, hle⟩ := h.low hopen
    rw [hactivated]
    exact ⟨hlow, hle.trans hsum⟩
  · rw [hthresh] at hset
    exact (h.high hset).trans hsum

/-- Re-weighing takes no weight from a stake. -/
theorem reweighed_votingStake {S : Name → Prop} (he : AllFair e.voters)
    (h : Reweighed env ctx S e.voters e'.voters) {y : Name} (hy : S y) :
    view VoterInfo.votingStake e.voters y ≤
      view VoterInfo.votingStake e'.voters y := by
  cases hv : e.voters.find y with
  | none =>
      have hchoice := h.choice y hy
      rw [hv, Option.map_none, Option.map_eq_none_iff] at hchoice
      rw [view_of_none hv, view_of_none hchoice]
  | some v =>
      obtain ⟨v', hv', hsame, hweight⟩ := h.row hy hv
      have hstaked := VoterInfo.choice_staked hsame
      have hfair := he y v hv
      rw [view_of_find hv, view_of_find hv']
      rcases hweight with hlast | hlast
      · unfold VoterInfo.votingStake
        rw [hlast, hstaked]
      · rw [VoterInfo.votingStake_of_weight (v := v'), hstaked]
        · exact VoterInfo.votingStake_le hfair
        · intro hne
          rw [hstaked] at hne
          have hpos : (0 : ℚ) < v.staked := by
            exact_mod_cast lt_of_le_of_ne hfair.staked (Ne.symm hne)
          rw [hlast]
          exact mul_pos hpos (env.voteFactor_pos ctx.slot)

/-! ## Who has a vote -/

theorem Enrolled.mono {made' : Finset Name} (he : Enrolled made e)
    (h : made ⊆ made') : Enrolled made' e :=
  ⟨he.roster, fun y v hv hvote => h (he.made y v hv hvote)⟩

theorem Enrolled.sameVoters (he : Enrolled made e)
    (h : e'.voters = e.voters) : Enrolled made e' := by
  obtain ⟨hroster, hmade⟩ := he
  rw [← h] at hroster hmade
  exact ⟨hroster, hmade⟩

/-- Writing a row without a vote, or with the vote it has had. -/
theorem Enrolled.put {r : VoterInfo} (he : Enrolled made e) (hk : r.owner = k)
    (hroster : Roster (e.voters.put r))
    (hvote : r.HasVote → ∃ v, e.voters.find k = some v ∧ v.HasVote) :
    Enrolled made { e with voters := e.voters.put r } := by
  refine ⟨hroster, fun y u hu hhas => ?_⟩
  rw [KeyedTable.find_put_of_key hk] at hu
  split at hu
  · next hy =>
      cases hu
      obtain ⟨v, hv, hhas'⟩ := hvote hhas
      rw [hy]
      exact he.made k v hv hhas'
  · exact he.made y u hu hhas

theorem Enrolled.reweighed (he : Enrolled made e)
    (h : Reweighed env ctx (fun _ => True) e.voters e'.voters)
    (hroster : Roster e'.voters) : Enrolled made e' := by
  refine ⟨hroster, fun y u hu hhas => ?_⟩
  obtain ⟨v, hv, hsame⟩ := h.origin trivial hu
  exact he.made y v hv (hhas.of_choice hsame)

theorem Enrolled.voted (he : Enrolled made e)
    (h : Voted env ctx k proxy producers e.voters e'.voters)
    (hroster : Roster e'.voters) (hk : k ∈ made) : Enrolled made e' := by
  refine ⟨hroster, fun y u hu hhas => ?_⟩
  by_cases hy : y = k
  · rw [hy]
    exact hk
  · obtain ⟨v, hv, hsame⟩ := h.others.origin hy hu
    exact he.made y v hv (hhas.of_choice hsame)

/-- The row of a voter after its stake is booked has the vote it has had. -/
theorem Booked.hasVote {amount : ℤ} (h : Booked e k amount v)
    (hhas : v.HasVote) : ∃ u, e.voters.find k = some u ∧ u.HasVote := by
  rcases h.row with ⟨_, rfl⟩ | ⟨old, hold, rfl⟩
  · exact absurd hhas (by simp [VoterInfo.HasVote])
  · exact ⟨old, hold, hhas⟩

theorem Enrolled.booked {amount : ℤ} (he : Enrolled made e)
    (h : Booked e k amount v) :
    Enrolled made { e with voters := e.voters.put v } :=
  he.put h.owner (h.roster he.roster) h.hasVote

/-- A change of stake gives nobody a vote. -/
theorem updateVotingPower_enrolled {total : Asset} (he : Enrolled made e)
    (h : e.updateVotingPower env ctx k total = .ok e') :
    Enrolled made e' := by
  obtain ⟨v, hbooked, ⟨_, _, rfl⟩ | ⟨hhas, hvotes⟩⟩ := updateVotingPower_cases h
  · exact he.booked hbooked
  · have he₁ := he.booked hbooked
    obtain ⟨hvoted, hroster⟩ := hbooked.voted he.roster hvotes
    exact he₁.voted hvoted hroster (he₁.made k v hbooked.find hhas)

/-- **Only `makeprod` gives somebody a vote.** -/
theorem PollStep.enrolled {p : Poll} (h : PollStep env ctx e p e')
    (he : Enrolled made e) : Enrolled (made ∪ p.makers) e' := by
  have hroster := h.roster he.roster
  cases p with
  | other =>
      have hsame : SameVotes e e' := h
      exact (he.sameVoters hsame.voters).mono Finset.subset_union_left
  | flag account =>
      refine Enrolled.mono ?_ Finset.subset_union_left
      obtain ⟨_, _, hset⟩ := h
      obtain ⟨flags, ⟨v, hv, hk, rfl⟩ | ⟨_, rfl⟩⟩ := System.setManaged_row hset
      · exact he.put hk hroster (fun hhas => ⟨v, hv, hhas⟩)
      · exact he.put rfl hroster (fun hhas =>
          absurd hhas (by simp [VoterInfo.HasVote]))
  | stake owner total =>
      exact (updateVotingPower_enrolled he h).mono Finset.subset_union_left
  | vote voter proxy producers =>
      obtain ⟨hvoted, hroster⟩ := updateVotes_voted he.roster (.inl rfl) h.2
      exact (he.mono Finset.subset_union_left).voted hvoted hroster
        (Finset.mem_union_right _ (Finset.mem_singleton_self voter))
  | proxy x isproxy =>
      refine Enrolled.mono ?_ Finset.subset_union_left
      obtain ⟨v, hv, hx, hproxy, hprop⟩ | ⟨_, rfl⟩ := regproxy_cases h
      · have hflip := he.put (r := { v with isProxy := isproxy }) hx
          (roster_flip he.roster hv hx hproxy) (fun hhas => ⟨v, hv, hhas⟩)
        obtain ⟨rank, hrank⟩ := hflip.roster.ranked
        have hstep := propagateWeightChange_ok hrank hflip.roster.fair hprop
        exact hflip.reweighed hstep.reweighed hroster
      · exact he.put rfl hroster (fun hhas =>
          absurd hhas (by simp [VoterInfo.HasVote]))

/-! ## What has been activated -/

theorem Activated.sameVotes (h : e.Activated made) (hsame : SameVotes e e') :
    e'.Activated made :=
  h.mono (fun y _ => by rw [hsame.voters]) hsame.activated hsame.thresh

theorem votingStake_union (he : AllFair e.voters) (made new : Finset Name) :
    e.votingStake made ≤ e.votingStake (made ∪ new) :=
  Finset.sum_le_sum_of_subset_of_nonneg Finset.subset_union_left
    (fun y _ _ => view_votingStake_nonneg he y)

theorem Activated.union (h : e.Activated made) (he : AllFair e.voters)
    (new : Finset Name) : e.Activated (made ∪ new) := by
  have hle := votingStake_union he made new
  exact ⟨fun hopen => ⟨(h.low hopen).1, (h.low hopen).2.trans hle⟩,
    fun hset => (h.high hset).trans hle⟩

/-- Writing a row that has at least the voting stake it has had. -/
theorem Activated.put {r : VoterInfo} (h : e.Activated made)
    (hk : r.owner = k)
    (hle : k ∈ made →
      view VoterInfo.votingStake e.voters k ≤ r.votingStake) :
    ({ e with voters := e.voters.put r }).Activated made := by
  refine h.mono (fun y hy => ?_) rfl rfl
  rw [view_put _ _ hk, add_single_apply]
  by_cases hyk : y = k
  · subst hyk
    rw [if_pos rfl]
    linarith [hle hy]
  · rw [if_neg hyk, add_zero]

/-- **The stake of a vote counts once.**  What a vote activates is staked by a
voter whose last vote had no weight before and has one now. -/
theorem updateVotes_activated (h : e.Activated made) (he : Roster e.voters)
    (hvoting : voting = true ∨
      ∀ v, e.voters.find k = some v → v.proxy = proxy)
    (hk : k ∈ made)
    (hweighs : ∀ v, e.voters.find k = some v → v.Weighs env ctx)
    (hvotes : e.updateVotes env ctx k proxy producers voting = .ok e') :
    e'.Activated made := by
  obtain ⟨hvoted, hroster⟩ := updateVotes_voted he hvoting hvotes
  obtain ⟨v, hv, hstanding⟩ := updateVotes_standing hvotes
  obtain ⟨_, hv', hrow⟩ := hvoted.row
  cases hv.symm.trans hv'
  obtain ⟨hnonneg, hpos⟩ := hweighs v hv
  have hnew : view VoterInfo.votingStake e'.voters k = v.staked := by
    rw [view_of_find hrow]
    exact VoterInfo.votingStake_of_weight hpos
  have hold : view VoterInfo.votingStake e.voters k = v.votingStake :=
    view_of_find hv
  have hothers : ∀ y ∈ made.erase k, view VoterInfo.votingStake e.voters y ≤
      view VoterInfo.votingStake e'.voters y :=
    fun y hy => reweighed_votingStake he.fair hvoted.others
      (Finset.ne_of_mem_erase hy)
  have hsum : e.votingStake made - v.votingStake + v.staked ≤
      e'.votingStake made := by
    unfold votingStake
    rw [← Finset.add_sum_erase _ _ hk, ← Finset.add_sum_erase _ _ hk, hold,
      hnew]
    linarith [Finset.sum_le_sum hothers]
  have hle := VoterInfo.votingStake_le (he.fair k v hv)
  have hstaked := (he.fair k v hv).staked
  by_cases hfirst : e.threshActivatedStakeTime = 0 ∧ v.lastVoteWeight ≤ 0
  · have hzero : v.votingStake = 0 := if_neg (not_lt.mpr hfirst.2)
    obtain ⟨hlow, hcounted⟩ := h.low hfirst.1
    have htotal : e'.totalActivatedStake =
        i64 (e.totalActivatedStake + v.staked) := by
      rw [hstanding.activated, activateStake, if_pos hfirst]
    have hthresh : e'.threshActivatedStakeTime =
        if e'.totalActivatedStake ≥ minActivatedStake then ctx.currentTimePoint
        else 0 := by
      rw [htotal, hstanding.thresh, activateStake, if_pos hfirst, hfirst.1]
    have hwrap : i64 (e.totalActivatedStake + v.staked) ≤
        e.totalActivatedStake + v.staked := i64_le (by linarith)
    refine ⟨fun _ => ⟨htotal ▸ (i64_bounds _).1, ?_⟩, fun hset => ?_⟩
    · linarith
    · by_cases hmin : e'.totalActivatedStake ≥ minActivatedStake
      · linarith
      · rw [if_neg hmin] at hthresh
        exact absurd hthresh hset
  · have hkept : e'.totalActivatedStake = e.totalActivatedStake ∧
        e'.threshActivatedStakeTime = e.threshActivatedStakeTime := by
      rw [hstanding.activated, hstanding.thresh, activateStake, if_neg hfirst]
      exact ⟨rfl, rfl⟩
    refine ⟨fun hopen => ?_, fun hset => ?_⟩
    · rw [hkept.2] at hopen
      obtain ⟨hlow, hcounted⟩ := h.low hopen
      rw [hkept.1]
      exact ⟨hlow, by linarith⟩
    · rw [hkept.2] at hset
      linarith [h.high hset]

/-- An account that has a vote weighs. -/
def Weighing (env : Env) (ctx : Ctx) (t : KeyedTable VoterInfo.owner)
    (k : Name) : Prop :=
  ∀ v, t.find k = some v → v.HasVote → v.Weighs env ctx

/-- Booking a stake that is not negative adds it. -/
theorem Booked.staked_eq {amount : ℤ} (h : Booked e k amount v)
    (hrange : System.StakedInRange e.staked) (hamount : Asset.InRange amount) :
    v.staked = e.staked k + amount := by
  have hmax := hamount
  unfold Asset.InRange Asset.maxAmount at hmax
  have hpos := h.staked
  rcases h.row with ⟨hnone, rfl⟩ | ⟨old, hold, rfl⟩
  · rw [Election.staked, view_of_none hnone, zero_add]
  · have hold' : e.staked k = old.staked := view_of_find hold
    have hk := hrange k
    rw [hold'] at hk ⊢
    exact i64_add_of_nonneg hk.1 hk.2 (by omega) (by omega) hpos

/-- An account that weighs still does when it has staked more. -/
theorem Booked.weighs {amount : ℤ} (h : Booked e k amount v)
    (hrange : System.StakedInRange e.staked) (hamount : Asset.InRange amount)
    (hsign : 0 ≤ amount) (hready : Weighing env ctx e.voters k)
    (hvote : v.HasVote) : v.Weighs env ctx := by
  have hstaked := h.staked_eq hrange hamount
  rcases h.row with ⟨_, rfl⟩ | ⟨old, hold, rfl⟩
  · exact absurd hvote (by simp [VoterInfo.HasVote])
  · obtain ⟨hnonneg, hpos⟩ := hready old hold hvote
    rw [show e.staked k = old.staked from view_of_find hold] at hstaked
    have hfactor := env.voteFactor_pos ctx.slot
    have hgrown : newVoteWeight env ctx { old with
        staked := i64 (old.staked + amount) } =
        newVoteWeight env ctx old + amount * env.voteFactor ctx.slot := by
      unfold newVoteWeight stake2vote
      dsimp only at hstaked ⊢
      rw [hstaked]
      push_cast
      ring
    have hmore : (0 : ℚ) ≤ amount * env.voteFactor ctx.slot :=
      mul_nonneg (by exact_mod_cast hsign) hfactor.le
    unfold VoterInfo.Weighs
    rw [hgrown]
    refine ⟨add_nonneg hnonneg hmore, fun hne => ?_⟩
    by_cases hold₀ : old.staked = 0
    · have hamount₀ : 0 < amount := by
        dsimp only at hstaked hne
        omega
      have hmore₀ : (0 : ℚ) < amount * env.voteFactor ctx.slot :=
        mul_pos (by exact_mod_cast hamount₀) hfactor
      exact add_pos_of_nonneg_of_pos hnonneg hmore₀
    · exact add_pos_of_pos_of_nonneg (hpos hold₀) hmore

/-- **More stake keeps what has been activated**, and so does less stake of
somebody who is no producer. -/
theorem updateVotingPower_activated {total : Asset}
    (h : e.Activated made) (he : Enrolled made e)
    (hrange : System.StakedInRange e.staked)
    (htotal : Asset.InRange total.amount)
    (hgain : k ∈ made → 0 ≤ total.amount ∧ Weighing env ctx e.voters k)
    (hpower : e.updateVotingPower env ctx k total = .ok e') :
    e'.Activated made ∧
      (k ∈ made → Weighing env ctx e'.voters k) := by
  obtain ⟨v, hbooked, hcases⟩ := updateVotingPower_cases hpower
  have hstaked := hbooked.staked_eq hrange htotal
  have hweighs : k ∈ made → v.HasVote → v.Weighs env ctx :=
    fun hk hvote => hbooked.weighs hrange htotal (hgain hk).1 (hgain hk).2 hvote
  have hput : ({ e with voters := e.voters.put v }).Activated made := by
    refine h.put hbooked.owner (fun hk => ?_)
    have hsign := (hgain hk).1
    rcases hbooked.row with ⟨hnone, rfl⟩ | ⟨old, hold, rfl⟩
    · rw [view_of_none hnone]
      exact VoterInfo.votingStake_nonneg (hbooked.fair he.roster.fair)
    · rw [show e.staked k = old.staked from view_of_find hold] at hstaked
      rw [view_of_find hold]
      unfold VoterInfo.votingStake
      dsimp only at hstaked ⊢
      split
      · omega
      · exact le_refl 0
  rcases hcases with ⟨hproducers, hproxy, rfl⟩ | ⟨hvote, hvotes⟩
  · refine ⟨hput, fun _ u hu hhas => ?_⟩
    cases hbooked.find.symm.trans hu
    exact absurd hhas (by simp [VoterInfo.HasVote, hproducers, hproxy])
  · have hk := (he.booked hbooked).made k v hbooked.find hvote
    have hsame : ∀ u, (e.voters.put v).find k = some u → u = v :=
      fun u hu => Option.some.inj (hu.symm.trans hbooked.find)
    refine ⟨updateVotes_activated hput (hbooked.roster he.roster)
      (.inr fun u hu => by rw [hsame u hu]) hk
      (fun u hu => hsame u hu ▸ hweighs hk hvote) hvotes, fun _ u hu _ => ?_⟩
    obtain ⟨w, hw, hrow⟩ := (hbooked.voted he.roster hvotes).1.row
    cases hrow.symm.trans hu
    rw [hsame w hw]
    exact hweighs hk hvote

theorem updateVotes_thresh (hset : e.threshActivatedStakeTime ≠ 0)
    (h : e.updateVotes env ctx k proxy producers voting = .ok e') :
    e'.threshActivatedStakeTime = e.threshActivatedStakeTime := by
  obtain ⟨v, _, hstanding⟩ := updateVotes_standing h
  rw [hstanding.thresh, activateStake, if_neg (fun hfirst => hset hfirst.1)]

/-- The chain is activated once. -/
theorem PollStep.thresh {p : Poll} (h : PollStep env ctx e p e')
    (hset : e.threshActivatedStakeTime ≠ 0) :
    e'.threshActivatedStakeTime = e.threshActivatedStakeTime := by
  cases p with
  | other => exact (show SameVotes e e' from h).thresh
  | flag account =>
      obtain ⟨_, _, hflag⟩ := h
      obtain ⟨flags, ⟨v, hv, hk, rfl⟩ | ⟨hnone, rfl⟩⟩ :=
        System.setManaged_row hflag
      · rfl
      · rfl
  | stake owner total =>
      obtain ⟨v, _, ⟨_, _, rfl⟩ | ⟨_, hvotes⟩⟩ := updateVotingPower_cases h
      · rfl
      · exact updateVotes_thresh (e := { e with voters := e.voters.put v }) hset
          hvotes
  | vote voter proxy producers => exact updateVotes_thresh hset h.2
  | proxy x isproxy =>
      obtain ⟨v, _, _, _, hprop⟩ | ⟨_, rfl⟩ := regproxy_cases h
      · exact (propagateWeightChange_record env ctx _ _ _ _ hprop).thresh
      · rfl

/-- The flag of an account and its being a proxy activate nothing. -/
theorem PollStep.activated {p : Poll} (h : PollStep env ctx e p e')
    (hp : p.makers = ∅) (hstake : ∀ k total, p ≠ .stake k total)
    (he : Enrolled made e) (ha : e.Activated made) : e'.Activated made := by
  cases p with
  | other => exact ha.sameVotes h
  | flag account =>
      obtain ⟨_, _, hset⟩ := h
      obtain ⟨flags, ⟨v, hv, hk, rfl⟩ | ⟨hnone, rfl⟩⟩ :=
        System.setManaged_row hset
      · exact ha.put hk (fun _ => (view_of_find hv).le)
      · exact ha.put rfl (fun _ => (view_of_none hnone).le)
  | stake owner total => exact absurd rfl (hstake _ _)
  | vote voter proxy producers =>
      exact absurd hp (Finset.singleton_ne_empty voter)
  | proxy x isproxy =>
      obtain ⟨v, hv, hx, hproxy, hprop⟩ | ⟨hnone, rfl⟩ := regproxy_cases h
      · have hroster := roster_flip he.roster hv hx hproxy
        obtain ⟨rank, hrank⟩ := hroster.ranked
        have hstep := propagateWeightChange_ok hrank hroster.fair hprop
        have hstanding :=
          propagateWeightChange_record env ctx _ _ _ _ hprop
        have hflip := ha.put (r := { v with isProxy := isproxy }) hx
          (fun _ => (view_of_find hv).le)
        exact hflip.mono (fun y _ => reweighed_votingStake hroster.fair
          hstep.reweighed trivial) hstanding.activated hstanding.thresh
      · exact ha.put rfl (fun _ => (view_of_none hnone).le)

end Election

/-! ## Whole actions -/

/-- What is asked of an action while the chain is not activated: the producers
`made` take back no stake, and who votes, or has a vote and stakes more, has a
weight if it has a stake, and no negative one. -/
def SysAction.KeepsStake (env : Env) (ctx : Ctx) (made : Finset Name)
    (t : KeyedTable VoterInfo.owner) : SysAction → Prop
  | delegatebw from' receiver _ _ transfer =>
      Election.Weighing env ctx t (if transfer then receiver else from')
  | buyresources payer _ _ => Election.Weighing env ctx t payer
  | buymembytes payer _ _ => Election.Weighing env ctx t payer
  | undelegatebw from' _ _ _ => from' ∉ made
  | sellres account _ => account ∉ made
  | makeprod voter _ _ => ∀ v, t.find voter = some v → v.Weighs env ctx
  | _ => True

namespace Election

variable {env : Env} {ctx : Ctx} {e e' : Election} {k : Name}
  {made : Finset Name} {ps : List Poll}

theorem stakes_activated {P : ℤ → Prop} (hps : Stakes P k ps)
    (hrun : Run (PollStep env ctx) e ps e') (he : Enrolled made e)
    (ha : e.Activated made) (hrange : System.StakedInRange e.staked)
    (hgain : k ∈ made →
      (∀ x, P x → 0 ≤ x) ∧ Weighing env ctx e.voters k) :
    Enrolled made e' ∧ e'.Activated made ∧
      System.StakedInRange e'.staked ∧
      (k ∈ made → Weighing env ctx e'.voters k) := by
  obtain ⟨total, htotal, hsign, rfl⟩ := hps
  have hpower : e.updateVotingPower env ctx k total = .ok e' := hrun.of_single
  obtain ⟨ha', hweighing⟩ := updateVotingPower_activated ha he hrange htotal
    (fun hk => ⟨(hgain hk).1 _ hsign, (hgain hk).2⟩) hpower
  exact ⟨updateVotingPower_enrolled he hpower, ha',
    (System.updateVotingPower_ok hrange htotal hpower).2.1, hweighing⟩

/-- **An action that keeps the stake of the producers** keeps what has been
activated. -/
theorem polls_activated {a : SysAction} (hps : a.Polls ps)
    (hrun : Run (PollStep env ctx) e ps e') (he : Enrolled made e)
    (ha : e.Activated made) (hrange : System.StakedInRange e.staked)
    (hkeeps : a.KeepsStake env ctx made e.voters) :
    e'.Activated (made ∪ a.makers) := by
  have hidle : a.makers = ∅ → e'.Activated made →
      e'.Activated (made ∪ a.makers) := by
    intro hnone ha'
    rwa [hnone, Finset.union_empty]
  have hplain : ∀ p : Poll, a.makers = ∅ → p.makers = ∅ →
      (∀ k total, p ≠ .stake k total) → ps = [p] →
      e'.Activated (made ∪ a.makers) := by
    intro p hnone hp hstake hsingle
    rw [hsingle] at hrun
    exact hidle hnone (hrun.of_single.activated hp hstake he ha)
  have hmore : ∀ owner qs, Stakes (0 ≤ ·) owner qs →
      Weighing env ctx e.voters owner → ps = qs →
      e'.Activated made := by
    rintro owner qs hqs hweighing rfl
    exact (stakes_activated hqs hrun he ha hrange
      (fun _ => ⟨fun _ => id, hweighing⟩)).2.1
  have hless : ∀ owner, Stakes (· ≤ 0) owner ps → owner ∉ made →
      e'.Activated made := fun owner hqs hfree =>
    (stakes_activated (P := (· ≤ 0)) hqs hrun he ha hrange
      (fun hk => absurd hk hfree)).2.1
  cases a with
  | delegatebw from' receiver net cpu transfer =>
      exact hidle rfl (hmore _ _ hps hkeeps rfl)
  | undelegatebw from' receiver net cpu => exact hidle rfl (hless _ hps hkeeps)
  | buyresources payer receiver quant =>
      exact hidle rfl (hmore _ _ hps hkeeps rfl)
  | sellres account bytes => exact hidle rfl (hless _ hps hkeeps)
  | buymembytes payer receiver bytes =>
      obtain ⟨ps₁, ps₂, hps₁, hps₂, rfl⟩ := hps
      obtain ⟨e₁, hrun₁, hrun₂⟩ := hrun.split
      obtain ⟨he₁, ha₁, hrange₁, hweighing⟩ := stakes_activated hps₁ hrun₁ he ha
        hrange (fun _ => ⟨fun _ => id, hkeeps⟩)
      exact hidle rfl (stakes_activated hps₂ hrun₂ he₁ ha₁ hrange₁
        (fun hk => ⟨fun _ => id, hweighing hk⟩)).2.1
  | makeprod voter proxy producers =>
      obtain rfl := hps
      obtain ⟨e₁, hother, hrun₂⟩ := hrun.uncons
      have hsame : SameVotes e e₁ := hother
      have ha₁ := ha.sameVotes hsame
      have he₁ := he.sameVoters hsame.voters
      refine updateVotes_activated (ha₁.union he₁.roster.fair {voter})
        he₁.roster (.inl rfl)
        (Finset.mem_union_right _ (Finset.mem_singleton_self voter))
        (fun v hv => ?_) hrun₂.of_single.2
      rw [hsame.voters] at hv
      exact hkeeps v hv
  | setacctmem account limit => exact hplain _ rfl rfl (by simp) hps
  | setacctnet account limit => exact hplain _ rfl rfl (by simp) hps
  | setacctcpu account limit => exact hplain _ rfl rfl (by simp) hps
  | regproxy x isproxy => exact hplain _ rfl rfl (by simp) hps
  | init _ _ | onblock _ _ | setalimits _ _ _ _ | refund _
  | regproducer _ _ _ _ | regproducer2 _ _ _ _ | unregprod _ | setmem _
  | setmemrate _ | setparams _ | claimrewards _ | rmvproducer _
  | setinflation _ _ _ | newaccount _ _ | setabi _ _ | privileged =>
      exact hplain _ rfl rfl (by simp) hps

/-- The polls of an action give a vote to the accounts it makes producers. -/
theorem polls_enrolled {a : SysAction} (hps : a.Polls ps)
    (hrun : Run (PollStep env ctx) e ps e') (he : Enrolled made e) :
    Enrolled (made ∪ a.makers) e' := by
  by_cases ha : ∀ k x l, a ≠ .makeprod k x l
  · refine Enrolled.mono ?_ Finset.subset_union_left
    have hvotes := hps.no_vote ha
    refine hrun.invariant (fun p => ∀ k x l, p ≠ .vote k x l)
      (fun e p e' hp he hstep => ?_) hvotes he
    have hnone : p.makers = ∅ := by
      cases p with
      | vote k x l => exact absurd rfl (hp k x l)
      | _ => rfl
    have hnew := hstep.enrolled he
    rwa [hnone, Finset.union_empty] at hnew
  · simp only [ne_eq, not_forall, not_not] at ha
    obtain ⟨k, x, l, rfl⟩ := ha
    obtain rfl : ps = [.other, .vote k x l] := hps
    obtain ⟨e₁, hother, hrun₂⟩ := hrun.uncons
    have hsame : SameVotes e e₁ := hother
    exact hrun₂.of_single.enrolled (he.sameVoters hsame.voters)

end Election

/-- What is asked of an event while the chain is not activated. -/
def Event.KeepsStake (env : Env) (made : Finset Name)
    (t : KeyedTable VoterInfo.owner) : Event → Prop
  | .system ctx a => a.KeepsStake env ctx made t
  | _ => True

namespace Chain

variable {env : Env} {c c' : Chain} {es : List Event} {e : Event}

/-- As long as the chain is not activated, the event keeps the stake of the
accounts that the events before it have made producers. -/
def KeepsStake (env : Env) (es : List Event) (c : Chain) (e : Event) : Prop :=
  c.sys.election.threshActivatedStakeTime = 0 →
    e.KeepsStake env (makers es) c.sys.election.voters

/-- What holds after the events of a run. -/
structure Counted (es : List Event) (c : Chain) : Prop where
  settled : c.Settled
  enrolled : Election.Enrolled (makers es) c.sys.election
  activated : c.sys.election.threshActivatedStakeTime = 0 →
    c.sys.election.Activated (makers es)

theorem step_thresh (h : Step env c e c')
    (hset : c.sys.election.threshActivatedStakeTime ≠ 0) :
    c'.sys.election.threshActivatedStakeTime ≠ 0 := by
  obtain ⟨ps, _, hrun⟩ := step_polls h
  exact hrun.invariant (I := fun e => e.threshActivatedStakeTime ≠ 0)
    (fun _ => True) (fun _ _ _ _ hs hpoll => (hpoll.thresh hs).trans_ne hs)
    (fun _ _ => trivial) hset

/-- **One event after the run.** -/
theorem Counted.step (h : c.Counted es) (hkeeps : KeepsStake env es c e)
    (hstep : Step env c e c') :
    c'.Counted (es ++ [e]) ∧
      (c.sys.election.threshActivatedStakeTime = 0 →
        c'.sys.election.Activated (makers (es ++ [e]))) := by
  obtain ⟨ps, hps, hrun⟩ := step_polls hstep
  rw [makers_snoc]
  have henrolled :
      Election.Enrolled (makers es ∪ e.makers) c'.sys.election := by
    cases e with
    | system ctx a => exact Election.polls_enrolled hps hrun h.enrolled
    | token ctx a =>
        obtain rfl : ps = [.other] := hps
        exact hrun.of_single.enrolled h.enrolled
    | deferred slot isAccount owner =>
        obtain rfl : ps = [.other] := hps
        exact hrun.of_single.enrolled h.enrolled
  have hactivated : c.sys.election.threshActivatedStakeTime = 0 →
      c'.sys.election.Activated (makers es ∪ e.makers) := by
    intro hopen
    have ha := h.activated hopen
    have hother : ps = [.other] → c'.sys.election.Activated (makers es) := by
      rintro rfl
      exact ha.sameVotes hrun.of_single
    cases e with
    | system ctx a =>
        exact Election.polls_activated hps hrun h.enrolled ha h.settled.staked
          (hkeeps hopen)
    | token ctx a => exact (hother hps).union henrolled.roster.fair _
    | deferred slot isAccount owner =>
        exact (hother hps).union henrolled.roster.fair _
  refine ⟨⟨h.settled.step hstep, makers_snoc es e ▸ henrolled, ?_⟩, hactivated⟩
  intro hopen'
  rw [makers_snoc]
  by_cases hopen : c.sys.election.threshActivatedStakeTime = 0
  · exact hactivated hopen
  · exact absurd hopen' (step_thresh hstep hopen)

theorem counted_run
    (hrun : RunWhile (Step env) (KeepsStake env) (.genesis env) es c) :
    c.Counted es := by
  refine hrun.history (H := fun es c => c.Counted es) ?_
    (fun ds u e v hu hkeeps hstep => (hu.step hkeeps hstep).1)
  exact {
    settled := settled_genesis env
    enrolled := ⟨.empty, fun y v hv => by cases hv⟩
    activated := fun hopen => ⟨fun _ => ⟨i64_bounds 0 |>.1, le_refl 0⟩,
      fun hset => absurd hopen hset⟩ }

end Chain

/-- **The chain is activated by real stake**, in every run in which, until the
chain is activated, no producer takes back stake and nobody with a stake has a
vote without a weight.  What has been counted until then is at most what all
accounts that have called `makeprod` have staked, and the event that activates
the chain leaves them with at least the stake that activation takes. -/
theorem activation_counts_stake {env : Env} {es : List Event} {c : Chain}
    (hrun : RunWhile (Chain.Step env) (Chain.KeepsStake env) (.genesis env)
      es c) :
    (c.sys.election.threshActivatedStakeTime = 0 →
      c.sys.election.totalActivatedStake ≤
        ∑ k ∈ makers es, view VoterInfo.staked c.sys.election.voters k) ∧
    ∀ e c', Chain.Step env c e c' → Chain.KeepsStake env es c e →
      c.sys.election.threshActivatedStakeTime = 0 →
      c'.sys.election.threshActivatedStakeTime ≠ 0 →
      minActivatedStake ≤ ∑ k ∈ makers (es ++ [e]),
        view VoterInfo.staked c'.sys.election.voters k := by
  have hc := Chain.counted_run hrun
  refine ⟨fun hopen => ?_, fun e c' hstep hkeeps hopen hset => ?_⟩
  · exact ((hc.activated hopen).low hopen).2.trans
      (Election.votingStake_le_staked hc.enrolled.roster.fair _)
  · obtain ⟨hc', hactivated⟩ := hc.step hkeeps hstep
    exact ((hactivated hopen).high hset).trans
      (Election.votingStake_le_staked hc'.enrolled.roster.fair _)

/-- Alice votes for herself with a stake that is enough. -/
theorem activation_counts_stake_sample : ∃ (c c' : Chain),
    c.sys.election.threshActivatedStakeTime = 0 ∧
    c'.sys.election.threshActivatedStakeTime ≠ 0 ∧
    minActivatedStake ≤ ∑ k ∈ {alice},
      view VoterInfo.staked c'.sys.election.voters k := by
  have hsample : SampleRun
      [.system (.signedBy alice 2) (.regproducer alice {} "" 0)]
      (fun _ c => c.sys.election.voters.find alice = none ∧
        Finishes (Chain.exec sampleEnv c (.system (.signedBy alice 2)
          (.delegatebw alice alice ⟨9000, inrSymbol⟩ ⟨3000, inrSymbol⟩ false)))
      (fun c => c.sys.election.voters.find alice =
          some { owner := alice, staked := 12000 } ∧
        c.sys.election.threshActivatedStakeTime = 0 ∧
        Finishes (Chain.exec sampleEnv c
          (.system (.signedBy alice 3) (.makeprod alice .none [alice])))
      (fun c => c.sys.election.threshActivatedStakeTime ≠ 0))) := by
    decide +kernel
  obtain ⟨c₀, c₁, c₂, hbefore, hinit, hafter, hnone, c₃, hstake, halice, hopen,
    c₄, hvote, hset⟩ := hsample.runs
  have hopening : RunWhile (Chain.Step sampleEnv) (Chain.KeepsStake sampleEnv)
      (.genesis sampleEnv) (openingEvents ++
        [.system (.signedBy systemAccount 1) (.init 0 inrSymbol)] ++
        [.system (.signedBy alice 2) (.regproducer alice {} "" 0)]) c₂ := by
    refine ((hbefore.append (.single hinit)).append hafter).while
      (fun ds u e he _ => ?_)
    simp only [openingEvents, List.cons_append, List.nil_append, List.mem_cons,
      List.not_mem_nil, or_false] at he
    rcases he with rfl | rfl | rfl | rfl | rfl | rfl <;> trivial
  have hkeeps : ∀ es, Chain.KeepsStake sampleEnv es c₂
      (.system (.signedBy alice 2)
        (.delegatebw alice alice ⟨9000, inrSymbol⟩ ⟨3000, inrSymbol⟩ false)) :=
    fun _ _ v hv => by cases hnone.symm.trans hv
  have hvotes : ∀ es, Chain.KeepsStake sampleEnv es c₃
      (.system (.signedBy alice 3) (.makeprod alice .none [alice])) := by
    intro _ _ v hv
    cases halice.symm.trans hv
    exact ⟨by decide +kernel, fun _ => by decide +kernel⟩
  exact ⟨c₃, c₄, hopen, hset, (activation_counts_stake
    (hopening.snoc (hkeeps _) hstake)).2 _ c₄ hvote (hvotes _) hopen hset⟩

/-- Alice votes with 6000 units and takes them back. -/
def unstakingEvents : List Event :=
  openingEvents ++
  [.system (.signedBy systemAccount 1) (.init 0 inrSymbol),
    .system (.signedBy alice 2) (.regproducer alice {} "" 0),
    .system (.signedBy alice 2)
      (.delegatebw alice alice ⟨6000, inrSymbol⟩ ⟨0, inrSymbol⟩ false),
    .system (.signedBy alice 3) (.makeprod alice .none [alice]),
    .system (.signedBy alice 4)
      (.undelegatebw alice alice ⟨6000, inrSymbol⟩ ⟨0, inrSymbol⟩)]

/-- Alice stakes the same units again. -/
def restakingEvent : Event :=
  .system (.signedBy alice 5)
    (.delegatebw alice alice ⟨6000, inrSymbol⟩ ⟨0, inrSymbol⟩ false)

/-- 6000 units stay counted that nobody has staked any more; staked again, they
are counted a second time, and activate the chain. -/
theorem activation_counts_twice : ∃ c c' : Chain,
    Run (Chain.Step sampleEnv) (.genesis sampleEnv) unstakingEvents c ∧
    c.sys.election.threshActivatedStakeTime = 0 ∧
    (∑ k ∈ makers unstakingEvents,
      view VoterInfo.staked c.sys.election.voters k) <
        c.sys.election.totalActivatedStake ∧
    Chain.Step sampleEnv c restakingEvent c' ∧
    c'.sys.election.threshActivatedStakeTime ≠ 0 ∧
    (∑ k ∈ makers (unstakingEvents ++ [restakingEvent]),
      view VoterInfo.staked c'.sys.election.voters k) < minActivatedStake := by
  have hsample : Finishes (unstakingEvents.foldlM (Chain.exec sampleEnv)
      (.genesis sampleEnv)) (fun c =>
        c.sys.election.threshActivatedStakeTime = 0 ∧
        (∑ k ∈ makers unstakingEvents,
          view VoterInfo.staked c.sys.election.voters k) <
            c.sys.election.totalActivatedStake ∧
        Finishes (Chain.exec sampleEnv c restakingEvent) (fun c' =>
          c'.sys.election.threshActivatedStakeTime ≠ 0 ∧
          (∑ k ∈ makers (unstakingEvents ++ [restakingEvent]),
            view VoterInfo.staked c'.sys.election.voters k) <
              minActivatedStake)) := by
    decide +kernel
  obtain ⟨c, hrun, hopen, htotal, c', hstep, hset, hsum⟩ := hsample
  exact ⟨c, c', Run.of_foldlM hrun, hopen, htotal, hstep, hset, hsum⟩

end Inery
