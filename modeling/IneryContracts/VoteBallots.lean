import IneryContracts.RankedLinks
import IneryContracts.VotingFrame

/-!
# Where vote weights are counted

The record of a voter says where its last weight is counted: at its proxy if
it has one, else at each of the producers it votes for.  Seen as a vector over
proxies and producers, this is the ballot of the voter.  What the tables count
and what the ballots of all voters add up to differ by the drift; each write to
a row moves the drift by one ballot or one booking.
-/

namespace Inery

open GuardedStep LedgerVector

/-- Where weight is counted: with a proxy or with a producer. -/
inductive VoteTarget
  | proxy (x : Name)
  | producer (p : Name)
deriving DecidableEq

/-- The weight `w` given to a proxy, or without one to each of the producers. -/
def ballot (proxy : Name) (producers : List Name) (w : ℚ) : VoteTarget → ℚ
  | .proxy x => if proxy ≠ .none ∧ x = proxy then w else 0
  | .producer p => if proxy = .none ∧ p ∈ producers then w else 0

section Ballots

variable {proxy : Name} {producers : List Name}

/-- A ballot of no weight counts nowhere. -/
@[simp] theorem ballot_zero : ballot proxy producers 0 = 0 := by
  funext t
  cases t <;> simp [ballot]

/-- The weights of a ballot add up. -/
theorem ballot_add (w x : ℚ) : ballot proxy producers (w + x) =
    ballot proxy producers w + ballot proxy producers x := by
  funext t
  cases t <;> simp only [ballot, Pi.add_apply] <;> split <;> simp

/-- A ballot can be taken off. -/
theorem ballot_neg (w : ℚ) :
    ballot proxy producers (-w) = -ballot proxy producers w := by
  funext t
  cases t <;> simp only [ballot, Pi.neg_apply] <;> split <;> simp

/-- A ballot of a weight that is not negative takes nothing off. -/
theorem ballot_nonneg {w : ℚ} (hw : 0 ≤ w) : 0 ≤ ballot proxy producers w := by
  intro t
  cases t <;> simp only [ballot, Pi.zero_apply] <;> split <;> simp [hw]

/-- With a proxy all of the weight is counted there. -/
theorem ballot_proxy (hproxy : proxy ≠ .none) (w : ℚ) :
    ballot proxy producers w = Pi.single (.proxy proxy) w := by
  funext t
  cases t with
  | proxy x => simp [ballot, hproxy, Pi.single_apply]
  | producer p => simp [ballot, hproxy]

/-- A ballot for nobody counts nowhere. -/
theorem ballot_nil (w : ℚ) : ballot .none [] w = 0 := by
  funext t
  cases t <;> simp [ballot]

/-- A ballot for producers, taken one producer at a time. -/
theorem ballot_cons {p : Name} (hp : p ∉ producers) (w : ℚ) :
    ballot .none (p :: producers) w =
      Pi.single (.producer p) w + ballot .none producers w := by
  funext t
  cases t with
  | proxy x => simp [ballot]
  | producer q =>
      by_cases hq : q = p
      · subst hq
        simp [ballot, hp]
      · simp [ballot, hq]

end Ballots

/-- The last weight of a voter where its record counts it. -/
def VoterInfo.lastBallot (v : VoterInfo) : VoteTarget → ℚ :=
  ballot v.proxy v.producers v.lastVoteWeight

namespace Election

/-- What the tables count. -/
def counted (e : Election) : VoteTarget → ℚ
  | .proxy x => view VoterInfo.proxiedVoteWeight e.voters x
  | .producer p => view ProducerInfo.totalVotes e.producers p

/-- What the ballots of all voters add up to. -/
noncomputable def backed (e : Election) : VoteTarget → ℚ :=
  total (view VoterInfo.lastBallot e.voters)

/-- How far the tables are off. -/
noncomputable def drift (e : Election) : VoteTarget → ℚ := e.counted - e.backed

/-- How far the total over all producers is off the sum it stands for. -/
noncomputable def balance (e : Election) : ℚ :=
  e.totalProducerVoteWeight - total (view ProducerInfo.totalVotes e.producers)

variable {e : Election}

/-! ## Writing one row -/

/-- Writing a voter changes what is booked with it. -/
theorem counted_putVoter {r : VoterInfo} {k : Name} (hk : r.owner = k) :
    ({ e with voters := e.voters.put r } : Election).counted = e.counted +
      Pi.single (.proxy k)
        (r.proxiedVoteWeight -
          view VoterInfo.proxiedVoteWeight e.voters k) := by
  funext t
  cases t with
  | proxy x =>
      simp only [counted, view_put _ _ hk, Pi.add_apply, Pi.single_apply,
        VoteTarget.proxy.injEq]
  | producer p => simp [counted]

/-- Writing a producer changes its votes. -/
theorem counted_putProducer {r : ProducerInfo} {k : Name} (hk : r.owner = k) :
    ({ e with producers := e.producers.put r } : Election).counted =
      e.counted + Pi.single (.producer k)
        (r.totalVotes - view ProducerInfo.totalVotes e.producers k) := by
  funext t
  cases t with
  | proxy x => simp [counted]
  | producer p =>
      simp only [counted, view_put _ _ hk, Pi.add_apply, Pi.single_apply,
        VoteTarget.producer.injEq]

/-- Writing a voter changes its own ballot. -/
theorem backed_putVoter {r : VoterInfo} {k : Name} (hk : r.owner = k) :
    ({ e with voters := e.voters.put r } : Election).backed = e.backed +
      (r.lastBallot - view VoterInfo.lastBallot e.voters k) := by
  simp only [backed, view_put _ _ hk, total_add, total_single]

/-- What a voter is booked for, and where its weight is counted, decide what
writing its row does to the drift. -/
theorem drift_putVoter {r : VoterInfo} {k : Name} (hk : r.owner = k) :
    ({ e with voters := e.voters.put r } : Election).drift = e.drift +
      Pi.single (.proxy k)
        (r.proxiedVoteWeight - view VoterInfo.proxiedVoteWeight e.voters k) -
      (r.lastBallot - view VoterInfo.lastBallot e.voters k) := by
  simp only [drift, counted_putVoter hk, backed_putVoter hk]
  abel

/-- A booking with a proxy moves the drift there. -/
theorem drift_proxied {k : Name} {f : VoterInfo → VoterInfo} {d : ℚ}
    {voters : KeyedTable VoterInfo.owner}
    (h : modify e.voters k f = .ok voters)
    (hf : ∀ v, f v = { v with proxiedVoteWeight := v.proxiedVoteWeight + d }) :
    ({ e with voters } : Election).drift =
      e.drift + Pi.single (.proxy k) d := by
  obtain ⟨v, hv, hk, rfl⟩ := modify_eq_ok.mp h
  have hballot : (f v).lastBallot = v.lastBallot := by
    rw [hf]
    rfl
  rw [drift_putVoter hk, view_of_find hv, view_of_find hv, hballot, hf]
  simp

/-- A new weight moves the drift by the change of the ballot. -/
theorem drift_lastVoteWeight {k : Name} {w : ℚ} {v : VoterInfo}
    {voters : KeyedTable VoterInfo.owner} (hv : e.voters.find k = some v)
    (h : modify e.voters k (fun v => { v with lastVoteWeight := w }) =
      .ok voters) :
    ({ e with voters } : Election).drift =
      e.drift - ballot v.proxy v.producers (w - v.lastVoteWeight) := by
  obtain ⟨r, hr, hk, rfl⟩ := modify_eq_ok.mp h
  cases hv.symm.trans hr
  rw [drift_putVoter hk, view_of_find hv, view_of_find hv, sub_eq_add_neg w,
    ballot_add, ballot_neg]
  simp [VoterInfo.lastBallot, sub_eq_add_neg]

end Election

end Inery
