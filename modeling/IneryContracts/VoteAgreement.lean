import IneryContracts.CountedCalls

/-!
# The two ways to re-weigh a voter

`update_votes` weighs a voter with what is booked for it when it is a proxy,
`propagate_weight_change` weighs it with its own stake alone.  The two differ
by exactly what is booked for a proxy, in the weight they store and, where the
weight of the voter has been counted and no change of it is kept back, in the
votes they leave with its producers.
-/

namespace Inery

open GuardedStep LedgerVector LabelledRun MachineInt RankedLinks

namespace VoterInfo

/-- What counts for a voter besides its stake. -/
def booked (v : VoterInfo) : ℚ :=
  if v.isProxy then v.proxiedVoteWeight else 0

/-- The change that re-weighing a voter stores without passing it on. -/
def keptBack (env : Env) (ctx : Ctx) (v : VoterInfo) : ℚ :=
  if 1 < |v.gap env ctx| then 0 else v.gap env ctx

theorem abs_booked_le (v : VoterInfo) :
    |v.booked| ≤ 1 ↔ v.isProxy = false ∨ |v.proxiedVoteWeight| ≤ 1 := by
  unfold booked
  cases v.isProxy with
  | false => simp
  | true => simp

end VoterInfo

namespace Election

variable {env : Env} {ctx : Ctx} {rank : Name → ℕ} {e e₁ e₂ e' : Election}
  {k x proxy : Name} {producers : List Name} {v : VoterInfo} {voting : Bool}

/-! ## Stored weights -/

/-- Re-weighing stores the weight of the stake in the row of the account. -/
theorem propagateWeightChange_find {fuel : ℕ}
    (hrank : Ranks rank (ProxyLink e.voters)) (hfair : AllFair e.voters)
    (h : propagateWeightChange env ctx fuel e x = .ok e') :
    ∃ v, e.voters.find x = some v ∧ e'.voters.find x = some { v with
      lastVoteWeight := stake2vote env ctx v.staked } := by
  cases fuel with
  | zero => cases h
  | succ fuel =>
      simp only [propagateWeightChange, bind_eq_ok, deref_eq_ok,
        pure_eq_ok] at h
      obtain ⟨v, hv, e₁, hpassed, voters, hmod, rfl⟩ := h
      have hv₁ : e₁.voters.find x = some v := by
        rcases passWeight_cases hpassed with ⟨_, rfl⟩ |
          ⟨_, hproxy, _, hbook, hrest⟩ | ⟨_, _, l, hl, rfl⟩
        · exact hv
        · have hlt : rank v.proxy < rank x := hrank _ _ ⟨v, hv, rfl, hproxy⟩
          have hprop := Propagated.booked hrank hfair (fun _ => rfl) hbook
            (fun hrank' hfair' => propagateWeightChange_ok hrank' hfair' hrest)
          exact (hprop.apart x hlt).trans hv
        · have hvoters : l.election.voters = e.voters :=
            (applyWeights_counts (hfair x v hv).nodup hl).voters
          exact hvoters ▸ hv
      obtain ⟨r, hr, hk, rfl⟩ := modify_eq_ok.mp hmod
      cases hv₁.symm.trans hr
      exact ⟨v, hv, by rw [KeyedTable.find_put_of_key hk, if_pos rfl]⟩

/-- The weight of a voter is that of its stake and what is booked with it. -/
theorem newVoteWeight_eq (v : VoterInfo) :
    newVoteWeight env ctx v = stake2vote env ctx v.staked + v.booked := rfl

/-- The weight of the stake alone is the weight of the voter up to one if
nothing else counts, or no more than one. -/
theorem abs_stake_sub_weight (v : VoterInfo) :
    |stake2vote env ctx v.staked - newVoteWeight env ctx v| ≤ 1 ↔
      v.isProxy = false ∨ |v.proxiedVoteWeight| ≤ 1 := by
  rw [newVoteWeight_eq, sub_add_cancel_left, abs_neg, v.abs_booked_le]

/-! ## Votes of producers -/

/-- Re-weighing moves the votes of the producers by the change of the stored
weight, apart from what it keeps back. -/
theorem propagateWeightChange_votes {fuel : ℕ} (hfair : AllFair e.voters)
    (hv : e.voters.find x = some v) (hproxy : v.proxy = .none)
    (h : propagateWeightChange env ctx fuel e x = .ok e') {p : Name}
    (hp : p ∈ v.producers) :
    view ProducerInfo.totalVotes e'.producers p =
      view ProducerInfo.totalVotes e.producers p +
        (v.gap env ctx - v.keptBack env ctx) := by
  cases fuel with
  | zero => cases h
  | succ fuel =>
      simp only [propagateWeightChange, bind_eq_ok, deref_eq_ok,
        pure_eq_ok] at h
      obtain ⟨u, hu, e₁, hpassed, voters, _, rfl⟩ := h
      cases hv.symm.trans hu
      unfold VoterInfo.keptBack
      rcases passWeight_cases hpassed with ⟨hsmall, rfl⟩ | ⟨_, hne, _⟩ |
        ⟨hlarge, _, l, hl, rfl⟩
      · have hgap : ¬ 1 < |v.gap env ctx| := not_lt.mpr hsmall
        rw [if_neg hgap, sub_self, add_zero]
      · exact absurd hproxy hne
      · have hcounts := applyWeights_counts (hfair x v hv).nodup hl
        have hgap : 1 < |v.gap env ctx| := hlarge
        rw [if_pos hgap, sub_zero]
        refine (congrFun hcounts.counted (.producer p)).trans ?_
        simp [ballot, hp, counted, VoterInfo.gap]

/-- Casting the same vote again moves the votes of the producers by the change
of the weight. -/
theorem updateVotes_votes (hfair : AllFair e.voters)
    (hv : e.voters.find k = some v) (hproxy : v.proxy = .none)
    (hlast : 0 ≤ v.lastVoteWeight) (hnew : 0 ≤ newVoteWeight env ctx v)
    (hcast : ∀ p ∈ v.producers,
      v.lastVoteWeight ≤ view ProducerInfo.totalVotes e.producers p)
    (h : e.updateVotes env ctx k .none v.producers voting = .ok e')
    {p : Name} (hp : p ∈ v.producers) :
    view ProducerInfo.totalVotes e'.producers p =
      view ProducerInfo.totalVotes e.producers p +
        (newVoteWeight env ctx v - v.lastVoteWeight) := by
  simp only [updateVotes, bind_eq_ok, orStop_eq_ok, check_eq_ok, pure_eq_ok,
    exists_const] at h
  obtain ⟨_, _, u, hu, _, ⟨e₁, ds₁⟩, hretract, ⟨e₂, ds₂⟩, hcast₂, l, hl,
    voters, _, rfl⟩ := h
  cases hv.symm.trans hu
  have hnodup := (hfair k v hv).nodup
  obtain ⟨rfl, hsorted₁, hsum₁, hmem₁⟩ :=
    retractVote_unproxied hnodup hproxy hlast hretract
  unfold castVote at hcast₂
  rw [if_neg (not_not.mpr rfl), if_pos hnew] at hcast₂
  cases hcast₂
  obtain ⟨hsorted, hsum⟩ := bumpAll (x := newVoteWeight env ctx v) true
    hnodup hsorted₁
  rw [hsum₁, ← ballot_add, add_comm, ← sub_eq_add_neg] at hsum
  have hkept : (e.activateStake ctx v).counted = e.counted := by
    rw [(activateStake_counts ctx e v).counted, add_zero]
  have hcounts := applyDeltas_counts (l := ⟨e.activateStake ctx v, 0, 0⟩)
    hsorted (fun d hd => ?_) hl
  · refine (congrFun hcounts.counted (.producer p)).trans ?_
    rw [hsum, hkept]
    simp [ballot, hp, counted]
  · have hd' : d.producer ∈ v.producers :=
      (mem_bumpAll hd).elim id (hmem₁ d)
    have hle := hcast d.producer hd'
    rw [hsum, hkept]
    simp only [ballot, hd', counted, and_self, if_true]
    linarith

/-- **The votes that the two ways leave with a producer** of the voter differ
by what is booked with the voter and by the change that is kept back. -/
theorem Covered.votes_sub (h : Covered e k) (hv : e.voters.find k = some v)
    {fuel : ℕ} (h₁ : propagateWeightChange env ctx fuel e k = .ok e₁)
    (h₂ : e.updateVotes env ctx k v.proxy v.producers voting = .ok e₂)
    {p : Name} (hp : p ∈ v.producers) :
    view ProducerInfo.totalVotes e₂.producers p -
      view ProducerInfo.totalVotes e₁.producers p =
      v.booked + v.keptBack env ctx := by
  have hfair := h.roster.fair
  have hproxy : v.proxy = .none := by
    by_contra hne
    rw [(hfair k v hv).alone hne] at hp
    exact List.not_mem_nil hp
  rw [hproxy] at h₂
  have hnew : 0 ≤ newVoteWeight env ctx v :=
    newVoteWeight_nonneg hfair (h.counted_nonneg _) hv
  rw [updateVotes_votes hfair hv hproxy (h.nonneg k v hv) hnew
      (fun q hq => h.lastVoteWeight_le hv hproxy hq) h₂ hp,
    propagateWeightChange_votes hfair hv hproxy h₁ hp, newVoteWeight_eq,
    VoterInfo.gap]
  ring

/-- A voter with producers keeps nothing back if it loses no change. -/
theorem keptBack_eq_zero (hfair : AllFair e.voters)
    (hpass : Passes env ctx e.voters k) (hv : e.voters.find k = some v)
    {p : Name} (hp : p ∈ v.producers) : v.keptBack env ctx = 0 := by
  unfold VoterInfo.keptBack
  split
  · rfl
  · next hsmall =>
      have hproxy : v.proxy = .none := by
        by_contra hne
        rw [(hfair k v hv).alone hne] at hp
        exact List.not_mem_nil hp
      have hnone := congrFun (hpass.small hv (not_lt.mp hsmall)) (.producer p)
      simpa [ballot, hproxy, hp] using hnone

end Election

/-- **When the two ways to re-weigh a voter agree.**  In a reachable state, and
between the polls of an action there: a vote stores the full weight of the
voter, and so does a change of stake where there is a vote; a call of
`propagate_weight_change` stores it up to one if and only if the account is no
proxy or no more than one is booked with it.  In a run that loses no change of
weight: for every voter, the votes that the two ways leave with its producers
differ by what is booked with it and the change kept back; and at every call
that an action makes that loses no change, they are the same up to one on the
condition above and no other. -/
theorem reweighing_agrees {env : Env} {c : Chain} {ctx : Ctx} {ps : List Poll}
    {e : Election} (h : c.Reachable env)
    (hps : Run (Election.PollStep env ctx) c.sys.election ps e) :
    (∀ k proxy producers e',
      e.updateVotes env ctx k proxy producers true = .ok e' →
      ∃ v, e'.voters.find k = some v ∧
        v.lastVoteWeight = Election.newVoteWeight env ctx v) ∧
    (∀ k total e', e.updateVotingPower env ctx k total = .ok e' →
      ∃ v, e'.voters.find k = some v ∧
        (v.producers = [] ∧ v.proxy = .none ∨
          v.lastVoteWeight = Election.newVoteWeight env ctx v)) ∧
    (∀ p e₁ x e₂, Election.Call env ctx e p e₁ x →
      e₁.propagateWeightChange env ctx Election.propagateFuel x = .ok e₂ →
      ∃ v v', e₁.voters.find x = some v ∧ e₂.voters.find x = some v' ∧
        (|v'.lastVoteWeight - Election.newVoteWeight env ctx v'| ≤ 1 ↔
          v.isProxy = false ∨ |v.proxiedVoteWeight| ≤ 1)) ∧
    ∀ es, Run (Chain.CountedStep env) (.genesis env) es c →
      (∀ ctx' k v e₁ e₂, c.sys.election.voters.find k = some v →
        c.sys.election.propagateWeightChange env ctx' Election.propagateFuel
          k = .ok e₁ →
        c.sys.election.updateVotes env ctx' k v.proxy v.producers false =
          .ok e₂ →
        ∀ p ∈ v.producers,
          (|view ProducerInfo.totalVotes e₂.producers p -
              view ProducerInfo.totalVotes e₁.producers p| ≤ 1 ↔
            |v.booked + v.keptBack env ctx'| ≤ 1)) ∧
      ∀ (ev : Event) qs q rest d d' e₁ x v e₂ e₃,
        ev.Passes env c.sys.election.voters →
        ev.Polls (qs ++ q :: rest) →
        Run (Election.PollStep env ev.ctx) c.sys.election qs d →
        Election.PollStep env ev.ctx d q d' →
        Election.Call env ev.ctx d q e₁ x → e₁.voters.find x = some v →
        e₁.propagateWeightChange env ev.ctx Election.propagateFuel x = .ok e₂ →
        e₁.updateVotes env ev.ctx x v.proxy v.producers false = .ok e₃ →
        ∀ p ∈ v.producers,
          (|view ProducerInfo.totalVotes e₃.producers p -
              view ProducerInfo.totalVotes e₂.producers p| ≤ 1 ↔
            v.isProxy = false ∨ |v.proxiedVoteWeight| ≤ 1) := by
  have hroster := Election.polls_roster hps h.roster
  refine ⟨fun k proxy producers e' hvote => ?_, fun k total e' hpower => ?_,
    fun p e₁ x e₂ hcall hprop => ?_, fun es hrun => ⟨?_, ?_⟩⟩
  · obtain ⟨v, _, hrow⟩ :=
      (Election.updateVotes_voted hroster (.inl rfl) hvote).1.row
    exact ⟨_, hrow, rfl⟩
  · obtain ⟨v, hbooked, ⟨hproducers, hproxy, rfl⟩ | ⟨_, hvotes⟩⟩ :=
      Election.updateVotingPower_cases hpower
    · exact ⟨v, hbooked.find, .inl ⟨hproducers, hproxy⟩⟩
    · obtain ⟨u, _, hrow⟩ := (hbooked.voted hroster hvotes).1.row
      exact ⟨_, hrow, .inr rfl⟩
  · have hcalled := hcall.roster hroster
    obtain ⟨rank, hrank⟩ := hcalled.ranked
    obtain ⟨v, hv, hv'⟩ :=
      Election.propagateWeightChange_find hrank hcalled.fair hprop
    exact ⟨v, _, hv, hv', Election.abs_stake_sub_weight v⟩
  · intro ctx' k v e₁ e₂ hv hprop hvote p hp
    have hcovered := (Chain.tally_run hrun).covered k
    rw [hcovered.votes_sub hv hprop hvote hp]
  · intro ev qs q rest d d' e₁ x v e₂ e₃ hpass hpolls hqs hpoll hcall hv hprop
      hvote p hp
    obtain ⟨hd, hpass'⟩ :=
      Election.event_counted hpolls hqs (Chain.tally_run hrun) hpass
    obtain ⟨hcovered, hpassed⟩ := hcall.covered hpoll hd hpass'
    rw [hcovered.votes_sub hv hprop hvote hp,
      Election.keptBack_eq_zero hcovered.roster.fair hpassed hv hp, add_zero,
      v.abs_booked_le]

/-- Alice, with whom nothing is booked, becomes a proxy and is re-weighed with
all that counts. -/
theorem reweighing_agrees_sample : ∃ (c : Chain) (e : Election) (v : VoterInfo),
    c.sys.election.voters.find alice = some { owner := alice, staked := 200 } ∧
    e.voters.find alice = some v ∧ |v.lastVoteWeight -
      Election.newVoteWeight sampleEnv (.signedBy alice 3) v| ≤ 1 := by
  have hsample : SampleRun
      [.system (.signedBy alice 2)
        (.delegatebw alice alice ⟨100, inrSymbol⟩ ⟨100, inrSymbol⟩ false)]
      (fun _ c => c.sys.election.voters.find alice =
          some { owner := alice, staked := 200 } ∧
        Finishes (Election.propagateWeightChange sampleEnv (.signedBy alice 3)
          Election.propagateFuel { c.sys.election with
            voters := c.sys.election.voters.put
              { owner := alice, staked := 200, isProxy := true } } alice)
          (fun _ => True)) := by
    decide +kernel
  obtain ⟨_, c, hreach, halice, e, hprop, _⟩ := hsample.reachable
  have hagrees := @reweighing_agrees sampleEnv c (.signedBy alice 3) [] _ hreach
    (.nil _)
  obtain ⟨v, v', hv, hv', hweight⟩ := hagrees.2.2.1 (.proxy alice true) _ alice
    e (.proxy halice (fun _ => rfl)) hprop
  rw [KeyedTable.find_put_of_key rfl, if_pos rfl] at hv
  cases hv
  exact ⟨c, e, v', halice, hv', hweight.mpr (.inr (by simp))⟩

/-- Alice is a proxy and votes for herself; bob has staked. -/
def electingEvents : List Event :=
  [.system (.signedBy alice 2) (.regproducer alice {} "" 0),
    .system (.signedBy bob 2) (.regproducer bob {} "" 0),
    .system (.signedBy alice 2)
      (.delegatebw alice alice ⟨100, inrSymbol⟩ ⟨100, inrSymbol⟩ false),
    .system (.signedBy bob 2)
      (.delegatebw bob bob ⟨50, inrSymbol⟩ ⟨0, inrSymbol⟩ false),
    .system (.signedBy alice 3) (.regproxy alice true),
    .system (.signedBy alice 3) (.makeprod alice .none [alice])]

/-- When bob chooses alice as his proxy, she is re-weighed without his 50, and
her votes stay at 200; her own vote, cast again, would make them 250. -/
theorem reweighing_disagrees : ∃ c c' : Chain,
    Chain.Reachable sampleEnv c ∧
    Chain.Step sampleEnv c
      (.system (.signedBy bob 4) (.makeprod bob alice [])) c' ∧
    (∃ v, c'.sys.election.voters.find alice = some v ∧
      v.lastVoteWeight = 200 ∧
      Election.newVoteWeight sampleEnv (.signedBy bob 4) v = 250) ∧
    Finishes (Election.propagateWeightChange sampleEnv (.signedBy bob 4)
        Election.propagateFuel c'.sys.election alice)
      (fun e => view ProducerInfo.totalVotes e.producers alice = 200) ∧
    Finishes (Election.updateVotes sampleEnv (.signedBy bob 4) c'.sys.election
        alice .none [alice] false)
      (fun e => view ProducerInfo.totalVotes e.producers alice = 250) := by
  have hsample : SampleRun electingEvents (fun _ c =>
      Finishes (Chain.exec sampleEnv c
        (.system (.signedBy bob 4) (.makeprod bob alice [])))
      (fun c' => (c'.sys.election.voters.find alice).any (fun v =>
          v.lastVoteWeight = 200 ∧
          Election.newVoteWeight sampleEnv (.signedBy bob 4) v = 250) = true ∧
        Finishes (Election.propagateWeightChange sampleEnv (.signedBy bob 4)
            Election.propagateFuel c'.sys.election alice)
          (fun e => view ProducerInfo.totalVotes e.producers alice = 200) ∧
        Finishes (Election.updateVotes sampleEnv (.signedBy bob 4)
            c'.sys.election alice .none [alice] false)
          (fun e =>
            view ProducerInfo.totalVotes e.producers alice = 250))) := by
    decide +kernel
  obtain ⟨_, c, hreach, c', hstep, hany, hprop, hvote⟩ := hsample.reachable
  obtain ⟨v, hv, hweights⟩ := (Option.any_eq_true _ _).mp hany
  exact ⟨c, c', hreach, hstep, ⟨v, hv, by simpa using hweights⟩, hprop, hvote⟩

end Inery
