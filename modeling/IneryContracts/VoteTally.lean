import IneryContracts.MemoryConservation
import IneryContracts.VoteRoster
import Mathlib.Algebra.Order.Pi

/-!
# The tables count what the voters have voted

The votes of a producer, the weight booked with a proxy and the total over all
producers agree with the last weights of the voters as long as no change of
weight is lost.  A change is lost where re-weighing stores a weight that
differs from the last one by at most one and does not pass the difference on;
every condition below says that no such voter is met.
-/

namespace Inery

open GuardedStep LedgerVector LabelledRun MachineInt RankedLinks

/-- No change is lost from the proxy of `k` onwards. -/
def ProxyPasses (env : Env) (ctx : Ctx) (t : KeyedTable VoterInfo.owner)
    (k : Name) : Prop :=
  ∀ v, t.find k = some v → v.proxy ≠ .none → Passes env ctx t v.proxy

/-- Re-weighing that leaves out one voter loses nothing new below it. -/
theorem Passes.apart {env : Env} {ctx : Ctx} {rank : Name → ℕ} {k x : Name}
    {t t' : KeyedTable VoterInfo.owner} (h : Passes env ctx t x)
    (hrank : Ranks rank (ProxyLink t)) (hx : rank x < rank k)
    (hre : Reweighed env ctx (· ≠ k) t t') : Passes env ctx t' x := by
  have hne : ∀ y, rank y < rank k → y ≠ k := by
    rintro y hy rfl
    exact hy.false
  exact h.mono (S := fun y => rank y < rank k) hx
    (fun y z hy hlink => (hrank y z hlink).trans hy) (hre.sub hne)

namespace Election

/-- The tables agree with the ballots of the voters. -/
structure Tally (e : Election) : Prop where
  roster : Roster e.voters
  nonneg : NonnegWeights e.voters
  drift : e.drift = 0
  balance : e.balance = 0
  clamped : e.clampedVotes = 0

section Votes

variable {env : Env} {ctx : Ctx} {rank : Name → ℕ} {e e₁ e' : Election}
  {k proxy : Name} {producers : List Name} {v : VoterInfo} {w : ℚ}
  {ds : List ProducerDelta} {P : Prop} {voting : Bool}

theorem Tally.counts (h : e.Tally) (hc : Counts e e' 0) : e'.Tally where
  roster := hc.voters ▸ h.roster
  nonneg := hc.voters ▸ h.nonneg
  drift := by rw [hc.drift, h.drift, add_zero]
  balance := hc.balance.trans h.balance
  clamped := hc.clamped.trans h.clamped

theorem lastBallot_nonneg (hnonneg : NonnegWeights e.voters) (y : Name) :
    0 ≤ view VoterInfo.lastBallot e.voters y := by
  cases hv : e.voters.find y with
  | none => rw [view_of_none hv]
  | some v =>
      rw [view_of_find hv]
      exact ballot_nonneg (hnonneg y v hv)

theorem backed_nonneg (hnonneg : NonnegWeights e.voters) : 0 ≤ e.backed :=
  total_nonneg (lastBallot_nonneg hnonneg)

/-- The ballot of one voter is part of what the ballots add up to. -/
theorem lastBallot_le (hnonneg : NonnegWeights e.voters)
    (hv : e.voters.find k = some v) : v.lastBallot ≤ e.backed := by
  rw [← view_of_find (f := VoterInfo.lastBallot) hv]
  exact LedgerVector.le_total (lastBallot_nonneg hnonneg) k

/-- What the tables count is what the drift leaves of the ballots. -/
theorem counted_eq (e : Election) : e.counted = e.drift + e.backed :=
  (sub_add_cancel _ _).symm

theorem Tally.counted_eq (h : e.Tally) : e.counted = e.backed := by
  rw [Election.counted_eq, h.drift, zero_add]

/-! ## Writing a row -/

/-- Writing a row with the same weight booked and the same ballot. -/
theorem Tally.put (h : e.Tally) {r : VoterInfo} (hk : r.owner = k)
    (hproxied : r.proxiedVoteWeight =
      view VoterInfo.proxiedVoteWeight e.voters k)
    (hballot : r.lastBallot = view VoterInfo.lastBallot e.voters k)
    (hlast : 0 ≤ r.lastVoteWeight) (hroster : Roster (e.voters.put r)) :
    ({ e with voters := e.voters.put r } : Election).Tally where
  roster := hroster
  nonneg := h.nonneg.put hlast
  drift := by
    rw [drift_putVoter hk, hproxied, hballot, h.drift]
    simp
  balance := h.balance
  clamped := h.clamped

/-- Writing a row that keeps the weights and the choice. -/
theorem Tally.rewrite (h : e.Tally) {r : VoterInfo}
    (hv : e.voters.find k = some v) (hk : r.owner = k)
    (hproxied : r.proxiedVoteWeight = v.proxiedVoteWeight)
    (hballot : r.lastBallot = v.lastBallot)
    (hlast : r.lastVoteWeight = v.lastVoteWeight)
    (hroster : Roster (e.voters.put r)) :
    ({ e with voters := e.voters.put r } : Election).Tally := by
  refine h.put hk ?_ ?_ ?_ hroster
  · rw [view_of_find hv, hproxied]
  · rw [view_of_find hv, hballot]
  · rw [hlast]
    exact h.nonneg k v hv

/-- Writing the row of an account that has been no voter. -/
theorem Tally.fresh (h : e.Tally) {r : VoterInfo}
    (hnone : e.voters.find k = none) (hk : r.owner = k)
    (hproxied : r.proxiedVoteWeight = 0) (hlast : r.lastVoteWeight = 0)
    (hroster : Roster (e.voters.put r)) :
    ({ e with voters := e.voters.put r } : Election).Tally := by
  refine h.put hk ?_ ?_ hlast.ge hroster
  · rw [view_of_none hnone, hproxied]
  · rw [view_of_none hnone, VoterInfo.lastBallot, hlast, ballot_zero]

theorem Tally.booked {amount : ℤ} (h : e.Tally) (hv : Booked e k amount v) :
    ({ e with voters := e.voters.put v } : Election).Tally := by
  have hroster := hv.roster h.roster
  rcases hv.row with ⟨hnone, rfl⟩ | ⟨old, hold, rfl⟩
  · exact h.fresh hnone rfl rfl rfl hroster
  · exact h.rewrite hold hv.owner rfl rfl rfl hroster

/-- The votes are the same. -/
theorem Tally.sameVotes (h : e.Tally) (hsame : SameVotes e e') :
    e'.Tally := by
  refine h.counts ⟨hsame.voters, ?_, ?_, hsame.clamped⟩
  · rw [add_zero]
    funext x
    cases x with
    | proxy x => simp only [counted, hsame.voters]
    | producer p => exact congrFun hsame.votes p
  · rw [Election.balance, hsame.total, hsame.votes, Election.balance]

/-! ## Votes -/

/-- The weight of a voter is nonnegative if what is booked with it is. -/
theorem newVoteWeight_nonneg (hfair : AllFair e.voters)
    (hbooked : 0 ≤ e.counted (.proxy k)) (hv : e.voters.find k = some v) :
    0 ≤ newVoteWeight env ctx v := by
  have hproxied : 0 ≤ v.proxiedVoteWeight := by
    rwa [counted, view_of_find hv] at hbooked
  have hstaked : 0 ≤ stake2vote env ctx v.staked :=
    stake2vote_nonneg (hfair k v hv).staked
  unfold newVoteWeight
  split
  · exact add_nonneg hstaked hproxied
  · rwa [add_zero]

theorem Tally.counted_nonneg (h : e.Tally) : 0 ≤ e.counted := by
  rw [h.counted_eq]
  exact backed_nonneg h.nonneg

/-- The last write of a vote takes the old ballot off and puts the new one
on. -/
theorem drift_vote {voters : KeyedTable VoterInfo.owner}
    (hv : e.voters.find k = some v)
    (h : modify e.voters k (fun av => { av with
      lastVoteWeight := w, producers := producers, proxy := proxy }) =
      .ok voters) :
    ({ e with voters } : Election).drift =
      e.drift - (ballot proxy producers w - v.lastBallot) := by
  obtain ⟨r, hr, hkey, rfl⟩ := modify_eq_ok.mp h
  cases hv.symm.trans hr
  rw [drift_putVoter hkey, view_of_find hv, view_of_find hv, sub_self,
    Pi.single_zero, add_zero]
  rfl

/-- The second half of a vote: the map is applied and the row written. -/
theorem Halfway.tally (h : Halfway env ctx k P e e₁ ds
      (-v.lastBallot + ballot proxy producers w)) (hP : P) (he : e.Tally)
    (hv : e.voters.find k = some v) (hweight : 0 ≤ w) {ct : ℤ} {owner : Name}
    {l : VoteLoop} {voters : KeyedTable VoterInfo.owner}
    (hl : ds.foldlM (applyDelta ct owner voting) ⟨e₁, 0, 0⟩ = .ok l)
    (hmod : modify (l.close ct).voters k (fun av => { av with
      lastVoteWeight := w, producers := producers, proxy := proxy }) =
      .ok voters)
    (hroster : Roster voters) : Tally { l.close ct with voters } := by
  have hdrift : e₁.drift + deltaSum ds =
      -v.lastBallot + ballot proxy producers w := by
    rw [h.drift hP, he.drift, zero_add]
  have hv₁ : e₁.voters.find k = some v := h.row.trans hv
  have hnonneg₁ := h.nonneg he.nonneg
  -- the old ballot is part of the ballots, so nothing can come out negative
  have hpos : ∀ t, 0 ≤ e₁.counted t + deltaSum ds t := by
    have hsum : e₁.counted + deltaSum ds =
        ballot proxy producers w + (e₁.backed - v.lastBallot) := by
      rw [Election.counted_eq, add_right_comm, hdrift]
      abel
    intro t
    rw [← Pi.add_apply, hsum]
    exact add_nonneg (ballot_nonneg hweight t)
      (sub_nonneg.mpr (lastBallot_le hnonneg₁ hv₁ t))
  have hloop := applyDeltas_counts (l := ⟨e₁, 0, 0⟩) h.sorted
    (fun d _ => hpos (.producer d.producer)) hl
  have hvoters : (l.close ct).voters = e₁.voters := hloop.voters
  have hv₂ : (l.close ct).voters.find k = some v := by rw [hvoters, hv₁]
  have hstored := drift_vote hv₂ hmod
  refine ⟨hroster, ?_, ?_, hloop.balance.trans (h.balance.trans he.balance),
    hloop.clamped.trans (h.clamped.trans he.clamped)⟩
  · obtain ⟨r, hr, hkey, rfl⟩ := modify_eq_ok.mp hmod
    exact NonnegWeights.put (hvoters ▸ hnonneg₁) hweight
  · have hcounts : (l.close ct).drift = e₁.drift + deltaSum ds := hloop.drift
    rw [hstored, hcounts, hdrift]
    abel

/-- **A vote keeps the tally** if no change is lost along the old proxy and
along the new one. -/
theorem updateVotes_tally (he : e.Tally)
    (hvoting : voting = true ∨
      ∀ v, e.voters.find k = some v → v.proxy = proxy)
    (hold : ∀ v, e.voters.find k = some v → 0 < v.lastVoteWeight →
      v.proxy ≠ .none → Passes env ctx e.voters v.proxy)
    (hnew : proxy ≠ .none → Passes env ctx e.voters proxy)
    (h : e.updateVotes env ctx k proxy producers voting = .ok e') :
    e'.Tally := by
  have hroster := (updateVotes_voted he.roster hvoting h).2
  obtain ⟨rank, hrank, hk⟩ := updateVotes_rank he.roster hvoting h
  obtain ⟨v, e₀, e₁, ds, l, voters, hv, _, _, _, rfl, hhalf, hl, hmod, rfl⟩ :=
    updateVotes_halves he.roster.fair hrank (fun hx => (hk hx).1) h
  have hact := activateStake_counts ctx e v
  have hweight : 0 ≤ newVoteWeight env ctx v :=
    newVoteWeight_nonneg he.roster.fair (he.counted_nonneg _) hv
  have hlossless : Lossless env ctx e.voters v proxy :=
    ⟨he.nonneg k v hv, hweight, hold v hv, hnew⟩
  exact hhalf.tally hlossless (he.counts hact) (hact.voters ▸ hv) hweight hl
    hmod hroster

/-- Booking a stake loses nothing along the proxy of the owner. -/
theorem Booked.passes {amount : ℤ} (h : Booked e k amount v)
    (he : Roster e.voters) (hpass : ProxyPasses env ctx e.voters k)
    (hproxy : v.proxy ≠ .none) : Passes env ctx (e.voters.put v) v.proxy := by
  obtain ⟨rank, hrank⟩ := he.ranked
  rcases h.row with ⟨_, rfl⟩ | ⟨old, hold, rfl⟩
  · exact absurd rfl hproxy
  · exact (hpass old hold hproxy).apart hrank
      (hrank k _ ⟨old, hold, rfl, hproxy⟩) (.outside h.owner (by simp))

/-- **A change of stake keeps the tally** if no change is lost along the proxy
of the owner, and then none is lost along it the next time. -/
theorem updateVotingPower_tally {total : Asset} (he : e.Tally)
    (hpass : ProxyPasses env ctx e.voters k)
    (h : e.updateVotingPower env ctx k total = .ok e') :
    e'.Tally ∧ ProxyPasses env ctx e'.voters k := by
  obtain ⟨v, hbooked, ⟨_, hproxy, rfl⟩ | ⟨_, hvotes⟩⟩ :=
    updateVotingPower_cases h
  · refine ⟨he.booked hbooked, fun u hu hne => ?_⟩
    cases hbooked.find.symm.trans hu
    exact absurd hproxy hne
  · have he₁ := he.booked hbooked
    obtain ⟨rank₁, hrank₁⟩ := he₁.roster.ranked
    have hpass₁ : v.proxy ≠ .none →
        Passes env ctx (e.voters.put v) v.proxy :=
      hbooked.passes he.roster hpass
    have hsame : ∀ u, (e.voters.put v).find k = some u → u = v :=
      fun u hu => Option.some.inj (hu.symm.trans hbooked.find)
    have hvoting : false = true ∨ ∀ u,
        (e.voters.put v).find k = some u → u.proxy = v.proxy :=
      .inr fun u hu => by rw [hsame u hu]
    have hvoted := (updateVotes_voted he₁.roster hvoting hvotes).1
    refine ⟨updateVotes_tally he₁ hvoting (fun u hu _ => ?_) hpass₁ hvotes,
      fun u hu hproxy => ?_⟩
    · rw [hsame u hu]
      exact hpass₁
    · obtain ⟨_, _, hrow⟩ := hvoted.row
      cases hrow.symm.trans hu
      exact (hpass₁ hproxy).apart hrank₁
        (hrank₁ k _ ⟨v, hbooked.find, rfl, hproxy⟩) hvoted.others

/-- **Registering a proxy keeps the tally** if no change is lost from it
onwards. -/
theorem regproxy_tally {x : Name} {isproxy : Bool} (he : e.Tally)
    (hpass : (e.voters.find x).isSome → Passes env ctx e.voters x)
    (h : e.regproxy env ctx x isproxy = .ok e') : e'.Tally := by
  obtain ⟨v, hv, hx, hproxy, hprop⟩ | ⟨hnone, rfl⟩ := regproxy_cases h
  · have hroster := roster_flip he.roster hv hx hproxy
    have hflip := he.rewrite hv (r := { v with isProxy := isproxy }) hx rfl rfl
      rfl hroster
    obtain ⟨rank, hrank⟩ := hroster.ranked
    have hstep := propagateWeightChange_ok hrank hroster.fair hprop
    have hpass' : Passes env ctx
        (e.voters.put { v with isProxy := isproxy }) x :=
      (hpass (Option.isSome_of_mem hv)).mono trivial (fun _ _ _ _ => trivial)
        (.put hv hx rfl (.inl rfl))
    exact ⟨propagateWeightChange_roster hroster hprop,
      hstep.nonneg hflip.nonneg, by
        rw [hstep.drift hpass', hflip.drift, add_zero],
      hstep.balance.trans hflip.balance, hstep.clamped.trans hflip.clamped⟩
  · exact he.fresh hnone rfl rfl rfl (roster_fresh he.roster rfl rfl rfl)

/-- Setting a flag keeps the tally. -/
theorem setManaged_tally {field : UInt32} {value : Bool} (he : e.Tally)
    (h : System.setManaged e k field value = .ok e') : e'.Tally := by
  have hroster := setManaged_roster h he.roster
  obtain ⟨flags, ⟨v, hv, hk, rfl⟩ | ⟨hnone, rfl⟩⟩ := System.setManaged_row h
  · exact he.rewrite hv hk rfl rfl rfl hroster
  · exact he.fresh hnone rfl rfl rfl hroster

end Votes

end Election

/-! ## Actions -/

/-- No change of weight is lost by the action. -/
def SysAction.Passes (env : Env) (ctx : Ctx)
    (t : KeyedTable VoterInfo.owner) : SysAction → Prop
  | makeprod voter proxy _ =>
      (∀ v, t.find voter = some v → 0 < v.lastVoteWeight →
        v.proxy ≠ .none → Inery.Passes env ctx t v.proxy) ∧
      (proxy ≠ .none → Inery.Passes env ctx t proxy)
  | regproxy x _ => (t.find x).isSome → Inery.Passes env ctx t x
  | delegatebw from' receiver _ _ transfer =>
      ProxyPasses env ctx t (if transfer then receiver else from')
  | undelegatebw from' _ _ _ => ProxyPasses env ctx t from'
  | buyresources payer _ _ => ProxyPasses env ctx t payer
  | buymembytes payer _ _ => ProxyPasses env ctx t payer
  | sellres account _ => ProxyPasses env ctx t account
  | _ => True

/-- No change of weight is lost by the event. -/
def Event.Passes (env : Env) (t : KeyedTable VoterInfo.owner) : Event → Prop
  | .system ctx a => a.Passes env ctx t
  | _ => True

namespace Election

variable {env : Env} {ctx : Ctx} {e e' : Election} {ps : List Poll}

theorem stakes_tally {P : ℤ → Prop} {owner : Name} (hps : Stakes P owner ps)
    (hrun : Run (PollStep env ctx) e ps e') (he : e.Tally)
    (hpass : ProxyPasses env ctx e.voters owner) :
    e'.Tally ∧ ProxyPasses env ctx e'.voters owner := by
  obtain ⟨total, _, _, rfl⟩ := hps
  exact updateVotingPower_tally he hpass hrun.of_single

theorem other_tally (hrun : Run (PollStep env ctx) e [.other] e')
    (he : e.Tally) : e'.Tally :=
  he.sameVotes hrun.of_single

theorem flag_tally {account : Name}
    (hrun : Run (PollStep env ctx) e [.flag account] e') (he : e.Tally) :
    e'.Tally := by
  obtain ⟨_, _, hset⟩ := hrun.of_single
  exact setManaged_tally he hset

/-- **An action that loses no change keeps the tally.** -/
theorem polls_tally {a : SysAction} (hps : a.Polls ps)
    (hrun : Run (PollStep env ctx) e ps e') (he : e.Tally)
    (hpass : a.Passes env ctx e.voters) : e'.Tally := by
  cases a with
  | delegatebw from' receiver net cpu transfer =>
      exact (stakes_tally hps hrun he hpass).1
  | undelegatebw from' receiver net cpu =>
      exact (stakes_tally (P := (· ≤ 0)) hps hrun he hpass).1
  | buyresources payer receiver quant =>
      exact (stakes_tally hps hrun he hpass).1
  | sellres account bytes =>
      exact (stakes_tally (P := (· ≤ 0)) hps hrun he hpass).1
  | buymembytes payer receiver bytes =>
      obtain ⟨ps₁, ps₂, hps₁, hps₂, rfl⟩ := hps
      obtain ⟨e₁, hrun₁, hrun₂⟩ := hrun.split
      obtain ⟨he₁, hpass₁⟩ := stakes_tally hps₁ hrun₁ he hpass
      exact (stakes_tally hps₂ hrun₂ he₁ hpass₁).1
  | makeprod voter proxy producers =>
      obtain rfl := hps
      obtain ⟨e₁, hother, hrun₂⟩ := hrun.uncons
      have hsame : SameVotes e e₁ := hother
      refine updateVotes_tally (he.sameVotes hsame) (.inl rfl) ?_ ?_
        hrun₂.of_single.2
      · rw [hsame.voters]
        exact hpass.1
      · rw [hsame.voters]
        exact hpass.2
  | regproxy x isproxy =>
      obtain rfl := hps
      exact regproxy_tally he hpass hrun.of_single
  | setacctmem account limit => exact flag_tally (hps ▸ hrun) he
  | setacctnet account limit => exact flag_tally (hps ▸ hrun) he
  | setacctcpu account limit => exact flag_tally (hps ▸ hrun) he
  | init _ _ | onblock _ _ | setalimits _ _ _ _ | refund _
  | regproducer _ _ _ _ | regproducer2 _ _ _ _ | unregprod _ | setmem _
  | setmemrate _ | setparams _ | claimrewards _ | rmvproducer _
  | setinflation _ _ _ | newaccount _ _ | setabi _ _ | privileged =>
      exact other_tally (hps ▸ hrun) he

end Election

namespace Chain

/-- An event that succeeds and loses no change of weight. -/
def CountedStep (env : Env) (c : Chain) (e : Event) (c' : Chain) : Prop :=
  Step env c e c' ∧ e.Passes env c.sys.election.voters

variable {env : Env} {c c' : Chain} {e : Event}

theorem CountedStep.tally (h : CountedStep env c e c')
    (hc : c.sys.election.Tally) : c'.sys.election.Tally := by
  obtain ⟨hstep, hpass⟩ := h
  obtain ⟨ps, hps, hrun⟩ := step_polls hstep
  cases e with
  | token ctx a => exact Election.other_tally (hps ▸ hrun) hc
  | system ctx a => exact Election.polls_tally hps hrun hc hpass
  | deferred slot isAccount owner =>
      exact Election.other_tally (hps ▸ hrun) hc

theorem tally_genesis (env : Env) : (genesis env).sys.election.Tally := by
  have hempty : ∀ x, (genesis env).sys.election.counted x = 0 := by
    rintro (x | p) <;> exact congrFun (view_empty _) _
  have hbacked : (genesis env).sys.election.backed = 0 := by
    simp [Election.backed, genesis, SysState.genesis]
  exact {
    roster := .empty
    nonneg := fun _ _ hv => by cases hv
    drift := by rw [Election.drift, hbacked, sub_zero, funext hempty]; rfl
    balance := by simp [Election.balance, genesis, SysState.genesis]
    clamped := rfl }

theorem tally_run {es : List Event}
    (hrun : Run (CountedStep env) (.genesis env) es c) :
    c.sys.election.Tally :=
  hrun.invariant (I := fun c => c.sys.election.Tally) (fun _ => True)
    (fun _ _ _ _ hc hstep => hstep.tally hc) (fun _ _ => trivial)
    (tally_genesis env)

end Chain

/-! ## What the tables count -/

namespace Election

/-- The last weights of the voters without a proxy that vote for `p`. -/
def votesFor (e : Election) (p : Name) : ℚ :=
  (e.voters.rows.map (fun v =>
    if v.proxy = .none ∧ p ∈ v.producers then v.lastVoteWeight else 0)).sum

/-- The last weights of the voters with the proxy `x`. -/
def proxiedTo (e : Election) (x : Name) : ℚ :=
  (e.voters.rows.map (fun v =>
    if v.proxy = x then v.lastVoteWeight else 0)).sum

/-- What all ballots give to one proxy or producer. -/
theorem backed_apply (e : Election) (x : VoteTarget) :
    e.backed x = (e.voters.rows.map (fun v => v.lastBallot x)).sum := by
  rw [← total_view]
  simp only [backed, total, Finset.sum_apply]
  refine Finset.sum_congr rfl (fun k _ => ?_)
  cases hv : e.voters.find k with
  | none => rw [view_of_none hv, view_of_none hv, Pi.zero_apply]
  | some v => rw [view_of_find hv, view_of_find hv]

theorem Tally.votesFor {e : Election} (h : e.Tally) (p : Name) :
    view ProducerInfo.totalVotes e.producers p = e.votesFor p := by
  have hcounted := congrFun h.counted_eq (.producer p)
  rw [backed_apply] at hcounted
  exact hcounted

theorem Tally.proxiedTo {e : Election} (h : e.Tally) {x : Name}
    (hx : x ≠ .none) :
    view VoterInfo.proxiedVoteWeight e.voters x = e.proxiedTo x := by
  have hcounted := congrFun h.counted_eq (.proxy x)
  rw [backed_apply] at hcounted
  refine hcounted.trans (congrArg List.sum (List.map_congr_left fun v _ => ?_))
  by_cases hv : v.proxy = x
  · simp [VoterInfo.lastBallot, ballot, hv, hx]
  · simp [VoterInfo.lastBallot, ballot, hv, Ne.symm hv]

end Election

/-- **The tables count what the voters have voted**, in every run in which no
change of weight is lost: the votes of each producer are the last weights of
the voters that vote for it themselves, the weight booked with each proxy those
of its voters, the total is the sum over the producers, and no negative votes
have been clamped. -/
theorem votes_tallied {env : Env} {es : List Event} {c : Chain}
    (hrun : Run (Chain.CountedStep env) (.genesis env) es c) :
    (∀ p, view ProducerInfo.totalVotes c.sys.election.producers p =
      c.sys.election.votesFor p) ∧
    (∀ x, x ≠ .none →
      view VoterInfo.proxiedVoteWeight c.sys.election.voters x =
        c.sys.election.proxiedTo x) ∧
    c.sys.election.totalProducerVoteWeight =
      total (view ProducerInfo.totalVotes c.sys.election.producers) ∧
    c.sys.election.clampedVotes = 0 := by
  have htally := Chain.tally_run hrun
  exact ⟨htally.votesFor, fun x hx => htally.proxiedTo hx,
    sub_eq_zero.mp htally.balance, htally.clamped⟩

/-- Bob chooses alice, who votes for nobody, as his proxy: nothing is lost, and
his weight is booked with her. -/
theorem votes_tallied_sample : ∃ c : Chain,
    view VoterInfo.proxiedVoteWeight c.sys.election.voters alice = 7 ∧
    view VoterInfo.proxiedVoteWeight c.sys.election.voters alice =
      c.sys.election.proxiedTo alice := by
  have hsample : SampleRun
      [.system (.signedBy bob 2) (.regproducer bob {} "" 0)]
      (fun _ c => c.sys.election.voters.find alice = none ∧
        Finishes (Chain.exec sampleEnv c
          (.system (.signedBy alice 2) (.regproxy alice true)))
      (fun c => c.sys.election.voters.find bob = none ∧
        Finishes (Chain.exec sampleEnv c (.system (.signedBy bob 2)
          (.delegatebw bob bob ⟨7, inrSymbol⟩ ⟨0, inrSymbol⟩ false)))
      (fun c => c.sys.election.voters.find alice =
          some { owner := alice, isProxy := true } ∧
        c.sys.election.voters.find bob = some { owner := bob, staked := 7 } ∧
        Finishes (Chain.exec sampleEnv c
          (.system (.signedBy bob 3) (.makeprod bob alice [])))
      (fun c => view VoterInfo.proxiedVoteWeight c.sys.election.voters alice =
        7)))) := by
    decide +kernel
  obtain ⟨c₀, c₁, c₂, hbefore, hinit, hafter, hnone, c₃, hproxy, hnone', c₄,
    hstake, halice, hbob, c₅, hvote, hbooked⟩ := hsample.runs
  have hplain : ∀ c e c', e ∈ openingEvents ++
        [.system (.signedBy systemAccount 1) (.init 0 inrSymbol)] ++
        [.system (.signedBy bob 2) (.regproducer bob {} "" 0)] →
      Chain.Step sampleEnv c e c' → Chain.CountedStep sampleEnv c e c' := by
    intro c e c' he hstep
    refine ⟨hstep, ?_⟩
    simp only [openingEvents, List.cons_append, List.nil_append, List.mem_cons,
      List.not_mem_nil, or_false] at he
    rcases he with rfl | rfl | rfl | rfl | rfl | rfl <;> trivial
  have hopened := ((hbefore.append (.single hinit)).append hafter).mono _
    hplain (fun _ he => he)
  have hproxied : Run (Chain.CountedStep sampleEnv) _ _ c₃ := hopened.snoc
    ⟨hproxy, fun hrow => by simp [hnone] at hrow⟩
  have hstaked : Run (Chain.CountedStep sampleEnv) _ _ c₄ := hproxied.snoc
    ⟨hstake, fun v hv => by cases hnone'.symm.trans hv⟩
  have hvoted : Run (Chain.CountedStep sampleEnv) _ _ c₅ := hstaked.snoc
    ⟨hvote, fun v hv hlast => by
      cases hbob.symm.trans hv
      exact absurd hlast (lt_irrefl 0),
      fun _ => .idle halice rfl rfl⟩
  exact ⟨c₅, hbooked, (votes_tallied hvoted).2.1 alice (by decide)⟩

/-- Alice and bob have staked, alice is bob's proxy and votes for herself with
both weights. -/
def proxyingEvents : List Event :=
  [.system (.signedBy alice 2) (.regproducer alice {} "" 0),
    .system (.signedBy bob 2) (.regproducer bob {} "" 0),
    .system (.signedBy alice 2)
      (.delegatebw alice alice ⟨100, inrSymbol⟩ ⟨100, inrSymbol⟩ false),
    .system (.signedBy bob 2)
      (.delegatebw bob bob ⟨1, inrSymbol⟩ ⟨0, inrSymbol⟩ false),
    .system (.signedBy alice 3) (.regproxy alice true),
    .system (.signedBy bob 3) (.makeprod bob alice []),
    .system (.signedBy alice 4) (.makeprod alice .none [alice])]

/-- When bob turns to himself, alice is re-weighed by one unit less.  The unit
is taken off her record but not off the votes she has cast. -/
theorem votes_untallied : ∃ c : Chain, Chain.Reachable sampleEnv c ∧
    view ProducerInfo.totalVotes c.sys.election.producers alice = 201 ∧
    c.sys.election.votesFor alice = 200 := by
  have hsample : SampleRun
      (proxyingEvents ++
        [.system (.signedBy bob 5) (.makeprod bob .none [bob])])
      (fun _ c =>
        view ProducerInfo.totalVotes c.sys.election.producers alice = 201 ∧
        c.sys.election.votesFor alice = 200) := by
    decide +kernel
  obtain ⟨_, c, hreach, hvotes⟩ := hsample.reachable
  exact ⟨c, hreach, hvotes⟩

end Inery
