import IneryContracts.VoteRoster

/-!
# The calls of `propagate_weight_change`

A vote calls it for the proxy it is taken off and for the proxy it is given to,
the registration of a proxy calls it for the account itself, and each call
makes at most one more, for the proxy of its account.  Every call finds the
voters in order.
-/

namespace Inery

open GuardedStep LabelledRun MachineInt RankedLinks

namespace Election

/-- The calls that `update_votes` makes for the vote of `k` for a proxy. -/
inductive VoteCall (env : Env) (ctx : Ctx) (e : Election) (k proxy : Name) :
    Election → Name → Prop
  | retracted {v : VoterInfo} {voters : KeyedTable VoterInfo.owner}
      (row : e.voters.find k = some v) (counted : 0 < v.lastVoteWeight)
      (proxied : v.proxy ≠ .none)
      (booked : modify (e.activateStake ctx v).voters v.proxy (fun vp =>
        { vp with
          proxiedVoteWeight := vp.proxiedVoteWeight - v.lastVoteWeight }) =
        .ok voters) :
      VoteCall env ctx e k proxy { e.activateStake ctx v with voters } v.proxy
  | cast {v : VoterInfo} {voters : KeyedTable VoterInfo.owner} {e₁ : Election}
      {ds : List ProducerDelta} (row : e.voters.find k = some v)
      (retracted : (e.activateStake ctx v).retractVote env ctx v =
        .ok (e₁, ds))
      (proxied : proxy ≠ .none) (counted : 0 ≤ newVoteWeight env ctx v)
      (booked : modify e₁.voters proxy (fun vp =>
        { vp with
          proxiedVoteWeight := vp.proxiedVoteWeight + newVoteWeight env ctx v })
          = .ok voters) :
      VoteCall env ctx e k proxy { e₁ with voters } proxy

/-- The calls that a poll makes, each with the tables it finds. -/
inductive Call (env : Env) (ctx : Ctx) (e : Election) :
    Poll → Election → Name → Prop
  | vote {k proxy : Name} {producers : List Name} {e₁ : Election} {x : Name}
      (call : VoteCall env ctx e k proxy e₁ x) :
      Call env ctx e (.vote k proxy producers) e₁ x
  | stake {k : Name} {total : Asset} {v : VoterInfo} {e₁ : Election} {x : Name}
      (booked : Booked e k total.amount v)
      (call : VoteCall env ctx { e with voters := e.voters.put v } k v.proxy
        e₁ x) :
      Call env ctx e (.stake k total) e₁ x
  | proxy {x : Name} {isproxy : Bool} {v : VoterInfo}
      (row : e.voters.find x = some v)
      (free : isproxy = true → v.proxy = .none) :
      Call env ctx e (.proxy x isproxy)
        { e with voters := e.voters.put { v with isProxy := isproxy } } x
  | inner {p : Poll} {e₁ : Election} {x : Name} {v : VoterInfo}
      {voters : KeyedTable VoterInfo.owner} (call : Call env ctx e p e₁ x)
      (row : e₁.voters.find x = some v) (large : 1 < |v.gap env ctx|)
      (proxied : v.proxy ≠ .none)
      (booked : modify e₁.voters v.proxy (fun vp =>
        { vp with
          proxiedVoteWeight := vp.proxiedVoteWeight + v.gap env ctx }) =
        .ok voters) :
      Call env ctx e p { e₁ with voters } v.proxy

variable {env : Env} {ctx : Ctx} {e e₁ : Election} {k x proxy : Name}

/-- Booking a weight with a proxy keeps the voters in order. -/
theorem modify_roster {f : VoterInfo → VoterInfo} {w : ℚ}
    {voters : KeyedTable VoterInfo.owner} (he : Roster e.voters)
    (hf : ∀ v, f v = { v with proxiedVoteWeight := v.proxiedVoteWeight + w })
    (hmod : modify e.voters x f = .ok voters) : Roster voters := by
  obtain ⟨r, hr, hk, rfl⟩ := modify_eq_ok.mp hmod
  rw [hf] at *
  have hrow := he.fair x r hr
  exact he.put hk ⟨hrow.proxy, hrow.alone, hrow.nodup, hrow.staked⟩
    (fun _ => ⟨r, hr, rfl⟩)

/-- Taking the last vote off keeps the voters in order. -/
theorem retractVote_roster {v : VoterInfo}
    {r : Election × List ProducerDelta} (he : Roster e.voters)
    (hv : e.voters.find k = some v)
    (h : e.retractVote env ctx v = .ok r) : Roster r.1.voters := by
  obtain ⟨rank, hrank⟩ := he.ranked
  have hhalf := retractVote_ok hrank he.fair hv h
  exact he.reweighed hhalf.reweighed hhalf.fair

theorem VoteCall.roster (h : VoteCall env ctx e k proxy e₁ x)
    (he : Roster e.voters) : Roster e₁.voters := by
  cases h with
  | @retracted v voters row counted proxied booked =>
      have hvoters := (activateStake_counts ctx e v).voters
      exact modify_roster (e := e.activateStake ctx v) (hvoters ▸ he)
        (fun _ => by rw [sub_eq_add_neg]) booked
  | @cast v voters e₁ ds row retracted proxied counted booked =>
      have hvoters := (activateStake_counts ctx e v).voters
      exact modify_roster
        (retractVote_roster (hvoters ▸ he) (hvoters ▸ row) retracted)
        (fun _ => rfl) booked

/-- **Every call finds the voters in order.** -/
theorem Call.roster {p : Poll} (h : Call env ctx e p e₁ x)
    (he : Roster e.voters) : Roster e₁.voters := by
  induction h with
  | vote call => exact call.roster he
  | stake booked call => exact call.roster (booked.roster he)
  | proxy row free =>
      exact roster_flip he row (KeyedTable.key_of_find row) free
  | inner call row large proxied booked ih =>
      exact modify_roster ih (fun _ => rfl) booked

end Election

end Inery
