import IneryContracts.PropagateCalls
import IneryContracts.VoteTally

/-!
# What the tables count at a call

While an action is under way the tables need not agree with the voters: the
last weight of a voter has been taken off and the new one is not put on yet, or
a change has been booked with a proxy and the row of the client is not written
yet.  At every call of `propagate_weight_change` they still cover the ballots
of all voters but those from which the chain of proxies has led here.  The last
weight of the account called is therefore counted, and no change of it is lost
if the action loses none.
-/

namespace Inery

open GuardedStep LedgerVector LabelledRun RankedLinks

/-! ## Polls that lose no change -/

/-- No change of weight is lost by the poll. -/
def Poll.Passes (env : Env) (ctx : Ctx) (t : KeyedTable VoterInfo.owner) :
    Poll → Prop
  | .vote k chosen _ =>
      (∀ v, t.find k = some v → 0 < v.lastVoteWeight →
        v.proxy ≠ .none → Inery.Passes env ctx t v.proxy) ∧
      (chosen ≠ .none → Inery.Passes env ctx t chosen)
  | .stake owner _ => ProxyPasses env ctx t owner
  | .proxy x _ => (t.find x).isSome → Inery.Passes env ctx t x
  | .other | .flag _ => True

/-- The only element of a list, taken out of it. -/
private theorem single_split {q p : Poll} {qs rest : List Poll}
    (h : qs ++ p :: rest = [q]) : qs = [] ∧ p = q := by
  cases qs with
  | nil => exact ⟨rfl, (List.cons.inj h).1⟩
  | cons _ qs =>
      have hnil := (List.cons.inj h).2
      exact absurd hnil (by simp)

/-- One of the two elements of a list, taken out of it. -/
private theorem pair_split {q₁ q₂ p : Poll} {qs rest : List Poll}
    (h : qs ++ p :: rest = [q₁, q₂]) :
    qs = [] ∧ p = q₁ ∨ qs = [q₁] ∧ p = q₂ := by
  cases qs with
  | nil => exact .inl ⟨rfl, (List.cons.inj h).1⟩
  | cons q qs =>
      obtain ⟨rfl, hrest⟩ := List.cons.inj h
      obtain ⟨rfl, rfl⟩ := single_split hrest
      exact .inr ⟨rfl, rfl⟩

namespace Election

variable {env : Env} {ctx : Ctx} {e e₁ d d' : Election} {rank : Name → ℕ}
  {k x proxy : Name} {v : VoterInfo}

/-- The only poll of an action. -/
private theorem single_counted {q p : Poll} {qs rest : List Poll}
    (hps : qs ++ p :: rest = [q]) (hrun : Run (PollStep env ctx) e qs d)
    (he : e.Tally) (hpass : q.Passes env ctx e.voters) :
    d.Tally ∧ p.Passes env ctx d.voters := by
  obtain ⟨rfl, rfl⟩ := single_split hps
  exact hrun.of_nil ▸ ⟨he, hpass⟩

private theorem stake_counted {P : ℤ → Prop} {p : Poll} {qs rest : List Poll}
    (hps : Stakes P k (qs ++ p :: rest)) (hrun : Run (PollStep env ctx) e qs d)
    (he : e.Tally) (hpass : ProxyPasses env ctx e.voters k) :
    d.Tally ∧ p.Passes env ctx d.voters := by
  obtain ⟨total, _, _, hps⟩ := hps
  exact single_counted (q := .stake k total) hps hrun he hpass

/-- **Each poll of an action that loses no change** finds the tables in
agreement and loses none. -/
theorem polls_counted {a : SysAction} {p : Poll} {qs rest : List Poll}
    (hps : a.Polls (qs ++ p :: rest)) (hrun : Run (PollStep env ctx) e qs d)
    (he : e.Tally) (hpass : a.Passes env ctx e.voters) :
    d.Tally ∧ p.Passes env ctx d.voters := by
  cases a with
  | delegatebw from' receiver net cpu transfer =>
      exact stake_counted hps hrun he hpass
  | undelegatebw from' receiver net cpu =>
      exact stake_counted (P := (· ≤ 0)) hps hrun he hpass
  | buyresources payer receiver quant =>
      exact stake_counted hps hrun he hpass
  | sellres account bytes =>
      exact stake_counted (P := (· ≤ 0)) hps hrun he hpass
  | buymembytes payer receiver bytes =>
      obtain ⟨_, _, ⟨total₁, hrange, hpos, rfl⟩, ⟨total₂, _, _, rfl⟩, hps⟩ :=
        hps
      rcases pair_split hps with ⟨rfl, rfl⟩ | ⟨rfl, rfl⟩
      · exact hrun.of_nil ▸ ⟨he, hpass⟩
      · exact stakes_tally ⟨total₁, hrange, hpos, rfl⟩ hrun he hpass
  | makeprod voter proxy producers =>
      rcases pair_split hps with ⟨rfl, rfl⟩ | ⟨rfl, rfl⟩
      · exact hrun.of_nil ▸ ⟨he, trivial⟩
      · have hsame : SameVotes e d := hrun.of_single
        refine ⟨he.sameVotes hsame, ?_⟩
        rw [hsame.voters]
        exact hpass
  | regproxy x isproxy =>
      exact single_counted (q := .proxy x isproxy) hps hrun he hpass
  | setacctmem account _ | setacctnet account _ | setacctcpu account _ =>
      exact single_counted (q := .flag account) hps hrun he trivial
  | init _ _ | onblock _ _ | setalimits _ _ _ _ | refund _
  | regproducer _ _ _ _ | regproducer2 _ _ _ _ | unregprod _ | setmem _
  | setmemrate _ | setparams _ | claimrewards _ | rmvproducer _
  | setinflation _ _ _ | newaccount _ _ | setabi _ _ | privileged =>
      exact single_counted (q := .other) hps hrun he trivial

/-- Each poll of an event that loses no change. -/
theorem event_counted {ev : Event} {p : Poll} {qs rest : List Poll}
    (hps : ev.Polls (qs ++ p :: rest))
    (hrun : Run (PollStep env ev.ctx) e qs d) (he : e.Tally)
    (hpass : ev.Passes env e.voters) :
    d.Tally ∧ p.Passes env ev.ctx d.voters := by
  cases ev with
  | system ctx a => exact polls_counted hps hrun he hpass
  | token ctx a => exact single_counted (q := .other) hps hrun he trivial
  | deferred slot isAccount owner =>
      exact single_counted (q := .other) hps hrun he trivial

/-! ## Tables that cover the ballots -/

/-- The tables count no less than the ballots of all voters but some that have
a higher rank than `x`. -/
structure Covered (e : Election) (x : Name) : Prop where
  roster : Roster e.voters
  nonneg : NonnegWeights e.voters
  drift : ∃ (rank : Name → ℕ) (above : Finset Name),
    Ranks rank (ProxyLink e.voters) ∧ (∀ y ∈ above, rank x < rank y) ∧
    0 ≤ e.drift + ∑ y ∈ above, view VoterInfo.lastBallot e.voters y

theorem Tally.covered (h : e.Tally) (x : Name) : Covered e x := by
  obtain ⟨rank, hrank⟩ := h.roster.ranked
  refine ⟨h.roster, h.nonneg, rank, ∅, hrank, by simp, ?_⟩
  rw [h.drift, Finset.sum_empty, add_zero]

/-- The ballot of the account is counted. -/
theorem Covered.lastBallot_le (h : Covered e x) :
    view VoterInfo.lastBallot e.voters x ≤ e.counted := by
  obtain ⟨rank, above, _, habove, hdrift⟩ := h.drift
  have hx : x ∉ above := fun hx => (habove x hx).false
  have hsum : view VoterInfo.lastBallot e.voters x +
      ∑ y ∈ above, view VoterInfo.lastBallot e.voters y ≤ e.backed := by
    rw [← Finset.sum_insert hx]
    exact Finset.sum_le_univ_sum_of_nonneg (lastBallot_nonneg h.nonneg)
  calc view VoterInfo.lastBallot e.voters x
      ≤ e.backed - ∑ y ∈ above, view VoterInfo.lastBallot e.voters y :=
        le_sub_iff_add_le.mpr hsum
    _ ≤ e.backed + e.drift := by
        rw [sub_eq_add_neg]
        exact add_le_add_right (neg_le_iff_add_nonneg.mpr hdrift) _
    _ = e.counted := by rw [counted_eq, add_comm]

theorem Covered.counted_nonneg (h : Covered e x) : 0 ≤ e.counted :=
  (lastBallot_nonneg h.nonneg x).trans h.lastBallot_le

/-- Each producer of the account has at least its last weight. -/
theorem Covered.lastVoteWeight_le (h : Covered e x)
    (hv : e.voters.find x = some v) (hproxy : v.proxy = .none) {p : Name}
    (hp : p ∈ v.producers) :
    v.lastVoteWeight ≤ view ProducerInfo.totalVotes e.producers p := by
  have hle := h.lastBallot_le (.producer p)
  rw [view_of_find hv] at hle
  simpa [VoterInfo.lastBallot, ballot, hproxy, hp, counted] using hle

/-! ## Calls -/

/-- Booking a weight with a proxy, from the code's one step. -/
theorem covered_booked (above : Finset Name) {f : VoterInfo → VoterInfo} {w : ℚ}
    {voters : KeyedTable VoterInfo.owner}
    (hroster : Roster e.voters) (hnonneg : NonnegWeights e.voters)
    (hrank : Ranks rank (ProxyLink e.voters))
    (habove : ∀ y ∈ above, rank x < rank y)
    (hdrift : 0 ≤ e.drift + Pi.single (.proxy x) w +
      ∑ y ∈ above, view VoterInfo.lastBallot e.voters y)
    (hf : ∀ v, f v = { v with proxiedVoteWeight := v.proxiedVoteWeight + w })
    (hbook : modify e.voters x f = .ok voters)
    (hpass : Passes env ctx e.voters x) :
    Covered { e with voters } x ∧ Passes env ctx voters x := by
  have hdrift' := drift_proxied (e := e) hbook hf
  have hroster' := modify_roster hroster hf hbook
  obtain ⟨r, hr, hk, rfl⟩ := modify_eq_ok.mp hbook
  rw [hf] at *
  have hre : Reweighed env ctx (fun _ => True) e.voters (e.voters.put _) :=
    .put hr hk rfl (.inl rfl)
  have hballots : view VoterInfo.lastBallot (e.voters.put
      { r with proxiedVoteWeight := r.proxiedVoteWeight + w }) =
      view VoterInfo.lastBallot e.voters :=
    view_put_same _ _ hk (view_of_find (f := VoterInfo.lastBallot) hr).symm
  refine ⟨⟨hroster', hnonneg.put (hnonneg x r hr), rank, above,
    hrank.mono (fun _ _ => hre.links trivial), habove, ?_⟩,
    hpass.mono trivial (fun _ _ _ _ => trivial) hre⟩
  rw [hdrift']
  simpa only [hballots] using hdrift

/-- What a vote without a proxy takes off is the last weight of each of its
producers. -/
theorem retractVote_unproxied {r : Election × List ProducerDelta}
    (hnodup : v.producers.Nodup) (hproxy : v.proxy = .none)
    (hlast : 0 ≤ v.lastVoteWeight) (h : e.retractVote env ctx v = .ok r) :
    r.1 = e ∧ SortedDeltas r.2 ∧
      deltaSum r.2 = ballot .none v.producers (-v.lastVoteWeight) ∧
      ∀ d ∈ r.2, d.producer ∈ v.producers := by
  have hnil : SortedDeltas [] := List.Pairwise.nil
  unfold retractVote at h
  rw [if_neg (not_not.mpr hproxy)] at h
  split at h
  · cases h
    obtain ⟨hsorted, hsum⟩ := bumpAll (x := -v.lastVoteWeight) false hnodup hnil
    refine ⟨rfl, hsorted, hsum.trans (zero_add _), fun d hd => ?_⟩
    exact (mem_bumpAll hd).resolve_right List.not_mem_nil
  · next hzero =>
      cases h
      refine ⟨rfl, hnil, ?_, fun d hd => absurd hd List.not_mem_nil⟩
      rw [le_antisymm (not_lt.mp hzero) hlast, neg_zero, ballot_zero]
      rfl

/-- What taking a vote off enters in the map is not positive. -/
theorem retractVote_deltaSum {r : Election × List ProducerDelta}
    (hfair : v.Fair) (hlast : 0 ≤ v.lastVoteWeight)
    (h : e.retractVote env ctx v = .ok r) : deltaSum r.2 ≤ 0 := by
  by_cases hproxy : v.proxy = .none
  · obtain ⟨_, _, hsum, _⟩ :=
      retractVote_unproxied hfair.nodup hproxy hlast h
    rw [hsum, ballot_neg]
    exact neg_nonpos.mpr (ballot_nonneg hlast)
  · unfold retractVote at h
    rw [if_pos hproxy] at h
    split at h
    · simp only [bind_eq_ok, check_eq_ok, pure_eq_ok, exists_const] at h
      obtain ⟨_, _, _, _, _, rfl⟩ := h
      exact le_refl 0
    · cases h
      exact le_refl 0

/-- The call for the old proxy: what has been taken off it is the ballot of
the voter. -/
theorem retracted_covered {voters : KeyedTable VoterInfo.owner}
    (hroster : Roster e.voters) (hnonneg : NonnegWeights e.voters)
    (hdrift : e.drift = 0) (hv : e.voters.find k = some v)
    (hproxy : v.proxy ≠ .none)
    (hbook : modify e.voters v.proxy (fun vp =>
      { vp with proxiedVoteWeight := vp.proxiedVoteWeight - v.lastVoteWeight })
      = .ok voters)
    (hpass : Passes env ctx e.voters v.proxy) :
    Covered { e with voters } v.proxy ∧ Passes env ctx voters v.proxy := by
  obtain ⟨rank, hrank⟩ := hroster.ranked
  refine covered_booked {k} (w := -v.lastVoteWeight) hroster hnonneg
    hrank (fun y hy => ?_) ?_ (fun _ => by rw [sub_eq_add_neg]) hbook hpass
  · rw [Finset.mem_singleton.mp hy]
    exact hrank k _ ⟨v, hv, rfl, hproxy⟩
  · rw [hdrift, Finset.sum_singleton, view_of_find hv, VoterInfo.lastBallot,
      ballot_proxy hproxy, zero_add, ← Pi.single_add, neg_add_cancel,
      Pi.single_zero]

/-- The call for the new proxy: what is not in the map yet is the ballot of
the voter. -/
theorem cast_covered {ds : List ProducerDelta}
    {voters : KeyedTable VoterInfo.owner} (hroster : Roster e.voters)
    (hnonneg : NonnegWeights e.voters) (hdrift : e.drift = 0)
    (hrank : Ranks rank (ProxyLink e.voters)) (hk : rank proxy < rank k)
    (hv : e.voters.find k = some v)
    (hretract : e.retractVote env ctx v = .ok (e₁, ds))
    (hnew : 0 ≤ newVoteWeight env ctx v)
    (hbook : modify e₁.voters proxy (fun vp =>
      { vp with
        proxiedVoteWeight := vp.proxiedVoteWeight + newVoteWeight env ctx v })
      = .ok voters)
    (hold : 0 < v.lastVoteWeight → v.proxy ≠ .none →
      Passes env ctx e.voters v.proxy)
    (hpass : Passes env ctx e.voters proxy) :
    Covered { e₁ with voters } proxy ∧ Passes env ctx voters proxy := by
  have hlast := hnonneg k v hv
  have hhalf := retractVote_ok hrank hroster.fair hv hretract
  have hentered := retractVote_deltaSum (hroster.fair k v hv) hlast hretract
  have hdrift₁ := eq_sub_of_add_eq (hhalf.drift ⟨hlast, hold⟩)
  rw [hdrift, zero_add] at hdrift₁
  refine covered_booked {k}
    (hroster.reweighed hhalf.reweighed hhalf.fair) (hhalf.nonneg hnonneg)
    (hrank.mono (fun _ _ => hhalf.reweighed.links trivial)) (fun y hy => ?_) ?_
    (fun _ => rfl) hbook
    (hpass.mono trivial (fun _ _ _ _ => trivial) hhalf.reweighed)
  · rwa [Finset.mem_singleton.mp hy]
  · have hsum : e₁.drift +
          Pi.single (VoteTarget.proxy proxy) (newVoteWeight env ctx v) +
          view VoterInfo.lastBallot e₁.voters k =
        -deltaSum ds + Pi.single (.proxy proxy) (newVoteWeight env ctx v) := by
      rw [hdrift₁, view_of_find (hhalf.row.trans hv)]
      abel
    rw [Finset.sum_singleton, hsum]
    exact add_nonneg (neg_nonneg.mpr hentered) (Pi.single_nonneg.mpr hnew)

/-- **The calls of a vote** find the ballots covered. -/
theorem VoteCall.covered (h : VoteCall env ctx e k proxy e₁ x) (he : e.Tally)
    (hrank : Ranks rank (ProxyLink e.voters))
    (hk : proxy ≠ .none → rank proxy < rank k)
    (hold : ∀ v, e.voters.find k = some v → 0 < v.lastVoteWeight →
      v.proxy ≠ .none → Passes env ctx e.voters v.proxy)
    (hnew : proxy ≠ .none → Passes env ctx e.voters proxy) :
    Covered e₁ x ∧ Passes env ctx e₁.voters x := by
  cases h with
  | @retracted v voters row counted proxied booked =>
      have hact := activateStake_counts ctx e v
      have hpass := hold v row counted proxied
      have he₀ := he.counts hact
      rw [← hact.voters] at row hpass
      exact retracted_covered he₀.roster he₀.nonneg he₀.drift row proxied booked
        hpass
  | @cast v voters e₁ ds row retracted proxied counted booked =>
      have hact := activateStake_counts ctx e v
      have hpass := hold v row
      have hpass' := hnew proxied
      have he₀ := he.counts hact
      rw [← hact.voters] at row hpass hpass' hrank
      exact cast_covered he₀.roster he₀.nonneg he₀.drift hrank (hk proxied) row
        retracted counted booked hpass hpass'

/-- A call for the proxy of an account finds the ballots covered if the call
for the account has. -/
theorem Covered.inner {voters : KeyedTable VoterInfo.owner} (h : Covered e x)
    (hpass : Passes env ctx e.voters x) (hv : e.voters.find x = some v)
    (hlarge : 1 < |v.gap env ctx|) (hproxy : v.proxy ≠ .none)
    (hbook : modify e.voters v.proxy (fun vp =>
      { vp with proxiedVoteWeight := vp.proxiedVoteWeight + v.gap env ctx }) =
      .ok voters) :
    Covered { e with voters } v.proxy ∧ Passes env ctx voters v.proxy := by
  obtain ⟨rank, above, hrank, habove, hdrift⟩ := h.drift
  have hlt : rank v.proxy < rank x := hrank x _ ⟨v, hv, rfl, hproxy⟩
  refine covered_booked (insert x above) h.roster h.nonneg hrank
    (fun y hy => ?_) ?_ (fun _ => rfl) hbook (hpass.rest hv hlarge hproxy)
  · rcases Finset.mem_insert.mp hy with rfl | hy
    · exact hlt
    · exact hlt.trans (habove y hy)
  · -- the change and the ballot add up to the weight of the stake
    have hx : x ∉ above := fun hx => (habove x hx).false
    have hstake : Pi.single (VoteTarget.proxy v.proxy) (v.gap env ctx) +
        v.lastBallot =
        Pi.single (.proxy v.proxy) (stake2vote env ctx v.staked) := by
      rw [VoterInfo.lastBallot, ballot_proxy hproxy, ← Pi.single_add,
        VoterInfo.gap, sub_add_cancel]
    rw [Finset.sum_insert hx, view_of_find hv, add_assoc,
      ← add_assoc _ v.lastBallot, hstake, add_left_comm]
    exact add_nonneg (Pi.single_nonneg.mpr
      (stake2vote_nonneg (h.roster.fair x v hv).staked)) hdrift

/-- **Every call finds the ballots covered** and no change lost from its
account onwards, if the poll loses no change. -/
theorem Call.covered {p : Poll} (h : Call env ctx e p e₁ x)
    (hpoll : PollStep env ctx e p d) (he : e.Tally)
    (hpass : p.Passes env ctx e.voters) :
    Covered e₁ x ∧ Passes env ctx e₁.voters x := by
  induction h with
  | vote call =>
      obtain ⟨rank, hrank, hk⟩ := updateVotes_rank he.roster (.inl rfl) hpoll.2
      exact call.covered he hrank (fun hne => (hk hne).1) hpass.1 hpass.2
  | @stake k total v e₁ x booked call =>
      have he₁ := he.booked booked
      have hpass₁ := booked.passes he.roster hpass
      obtain ⟨rank, hrank⟩ := he₁.roster.ranked
      refine call.covered he₁ hrank
        (fun hne => hrank k _ ⟨v, booked.find, rfl, hne⟩) (fun u hu _ => ?_)
        hpass₁
      rw [Option.some.inj (hu.symm.trans booked.find)]
      exact hpass₁
  | @proxy x isproxy v row free =>
      have hx := KeyedTable.key_of_find row
      have hflip := he.rewrite row (r := { v with isProxy := isproxy }) hx rfl
        rfl rfl (roster_flip he.roster row hx free)
      exact ⟨hflip.covered x, (hpass (Option.isSome_of_mem row)).mono trivial
        (fun _ _ _ _ => trivial) (.put row hx rfl (.inl rfl))⟩
  | inner call row large proxied booked ih =>
      obtain ⟨hcovered, hpassed⟩ := ih hpoll hpass
      exact hcovered.inner hpassed row large proxied booked

end Election

end Inery
