import IneryContracts.VoteDeltas

/-!
# Casting a vote

`update_votes` takes the last weight of a voter off where it was counted,
counts the new weight at the new place and writes the row.  Between its two
ends the row of the voter is left alone, since no proxy leads back to it.
-/

namespace Inery

open GuardedStep LedgerVector RankedLinks

namespace Election

section Votes

variable {env : Env} {ctx : Ctx} {rank : Name → ℕ} {e e₁ e₂ e' : Election}
  {k proxy : Name} {producers : List Name} {v : VoterInfo} {w : ℚ}
  {ds ds' : List ProducerDelta} {d d' : VoteTarget → ℚ} {P P' Q : Prop}

/-- `update_votes` on its way from `e` to `e₁`: the row of the voter `k` is as
it was, and under the condition `P` what is not counted yet is in the map. -/
structure Halfway (env : Env) (ctx : Ctx) (k : Name) (P : Prop)
    (e e₁ : Election) (ds : List ProducerDelta) (d : VoteTarget → ℚ) :
    Prop where
  reweighed : Reweighed env ctx (fun _ => True) e.voters e₁.voters
  row : e₁.voters.find k = e.voters.find k
  fair : AllFair e₁.voters
  nonneg : NonnegWeights e.voters → NonnegWeights e₁.voters
  balance : e₁.balance = e.balance
  clamped : e₁.clampedVotes = e.clampedVotes
  sorted : SortedDeltas ds
  drift : P → e₁.drift + deltaSum ds = e.drift + d

/-- Only the map has changed. -/
theorem Halfway.stay (hfair : AllFair e.voters) (hsorted : SortedDeltas ds)
    (hsum : P → deltaSum ds = d) : Halfway env ctx k P e e ds d :=
  ⟨.refl _, rfl, hfair, id, rfl, rfl, hsorted, fun hP => by rw [hsum hP]⟩

/-- A weight has been counted with a proxy. -/
theorem Propagated.halfway {x : Name}
    (h : Propagated env ctx rank x d e e₁) (hk : rank x < rank k)
    (hpass : P → Passes env ctx e.voters x) (hsorted : SortedDeltas ds) :
    Halfway env ctx k P e e₁ ds (deltaSum ds + d) := by
  refine ⟨h.reweighed, h.apart k hk, h.fair, h.nonneg, h.balance, h.clamped,
    hsorted, fun hP => ?_⟩
  rw [h.drift (hpass hP)]
  abel

theorem Halfway.trans (h : Halfway env ctx k P e e₁ ds d)
    (h' : Halfway env ctx k Q e₁ e₂ ds' (deltaSum ds + d'))
    (hP : P' → P) (hQ : P' → Q) : Halfway env ctx k P' e e₂ ds' (d + d') where
  reweighed := h.reweighed.trans h'.reweighed
  row := h'.row.trans h.row
  fair := h'.fair
  nonneg hnonneg := h'.nonneg (h.nonneg hnonneg)
  balance := h'.balance.trans h.balance
  clamped := h'.clamped.trans h.clamped
  sorted := h'.sorted
  drift hall := by
    rw [h'.drift (hQ hall), ← add_assoc, h.drift (hP hall), add_assoc]

/-- Counting a weight with a proxy, from the code's two steps. -/
theorem bookProxy_ok {x : Name} {f : VoterInfo → VoterInfo}
    {voters : KeyedTable VoterInfo.owner}
    (hrank : Ranks rank (ProxyLink e.voters)) (hfair : AllFair e.voters)
    (hf : ∀ v, f v = { v with proxiedVoteWeight := v.proxiedVoteWeight + w })
    (hbook : modify e.voters x f = .ok voters)
    (h : propagateWeightChange env ctx propagateFuel { e with voters } x =
      .ok e₁) :
    Propagated env ctx rank x (Pi.single (.proxy x) w) e e₁ :=
  .booked hrank hfair hf hbook
    (fun hrank' hfair' => propagateWeightChange_ok hrank' hfair' h)

/-- Taking the last vote off loses nothing if its weight was not negative and
no change is lost from its proxy onwards. -/
theorem retractVote_ok (hrank : Ranks rank (ProxyLink e.voters))
    (hfair : AllFair e.voters) (hv : e.voters.find k = some v)
    (h : e.retractVote env ctx v = .ok (e₁, ds)) :
    Halfway env ctx k (0 ≤ v.lastVoteWeight ∧ (0 < v.lastVoteWeight →
      v.proxy ≠ .none → Passes env ctx e.voters v.proxy))
      e e₁ ds (-v.lastBallot) := by
  have hnil : SortedDeltas [] := List.Pairwise.nil
  unfold retractVote at h
  split at h
  · next hlast =>
      split at h
      · next hproxy =>
          simp only [bind_eq_ok, check_eq_ok, pure_eq_ok, exists_const,
            Prod.mk.injEq] at h
          obtain ⟨_, _, hbook, _, hprop, rfl, rfl⟩ := h
          have hbooked := bookProxy_ok (w := -v.lastVoteWeight) hrank hfair
            (fun _ => by rw [sub_eq_add_neg]) hbook hprop
          rw [← @ballot_proxy v.proxy v.producers hproxy, ballot_neg] at hbooked
          have hhalf := hbooked.halfway
            (hrank k _ ⟨v, hv, rfl, hproxy⟩) (P := 0 ≤ v.lastVoteWeight ∧
              (0 < v.lastVoteWeight → v.proxy ≠ .none →
                Passes env ctx e.voters v.proxy))
            (fun hP => hP.2 hlast hproxy) hnil
          rwa [deltaSum, List.map_nil, List.sum_nil, zero_add] at hhalf
      · next hproxy =>
          cases h
          obtain ⟨hsorted, hsum⟩ := bumpAll (x := -v.lastVoteWeight) false
            (hfair k v hv).nodup hnil
          refine .stay hfair hsorted (fun _ => hsum.trans ?_)
          rw [ballot_neg, VoterInfo.lastBallot, not_not.mp hproxy, deltaSum,
            List.map_nil, List.sum_nil, zero_add]
  · next hlast =>
      cases h
      refine .stay hfair hnil (fun hP => ?_)
      rw [VoterInfo.lastBallot, le_antisymm (not_lt.mp hlast) hP.1,
        ballot_zero, neg_zero]
      rfl

/-- Casting the new weight loses nothing if it is not negative and no change
is lost from the new proxy onwards. -/
theorem castVote_ok {voting : Bool}
    (hrank : Ranks rank (ProxyLink e.voters)) (hfair : AllFair e.voters)
    (hk : proxy ≠ .none → rank proxy < rank k) (hnodup : producers.Nodup)
    (hsorted : SortedDeltas ds)
    (h : e.castVote env ctx ds w proxy producers voting = .ok (e₁, ds')) :
    Halfway env ctx k (0 ≤ w ∧ (proxy ≠ .none → Passes env ctx e.voters proxy))
      e e₁ ds' (deltaSum ds + ballot proxy producers w) := by
  unfold castVote at h
  split at h
  · next hproxy =>
      simp only [bind_eq_ok, orStop_eq_ok, check_eq_ok, exists_const] at h
      obtain ⟨_, _, _, h⟩ := h
      split at h
      · simp only [bind_eq_ok, pure_eq_ok, Prod.mk.injEq] at h
        obtain ⟨_, hbook, _, hprop, rfl, rfl⟩ := h
        have hbooked := bookProxy_ok hrank hfair (fun _ => rfl) hbook hprop
        rw [ballot_proxy hproxy]
        exact hbooked.halfway (hk hproxy) (fun hP => hP.2 hproxy) hsorted
      · next hneg =>
          cases h
          exact .stay hfair hsorted (fun hP => absurd hP.1 hneg)
  · next hproxy =>
      split at h
      · cases h
        obtain ⟨hsorted', hsum⟩ :=
          bumpAll (x := w) true hnodup hsorted
        rw [not_not.mp hproxy]
        exact .stay hfair hsorted' (fun _ => hsum)
      · next hneg =>
          cases h
          exact .stay hfair hsorted (fun hP => absurd hP.1 hneg)

theorem validateVote_ok {u : Unit}
    (h : validateVote k proxy producers = .ok u) :
    producers.Nodup ∧ (proxy ≠ .none → producers = [] ∧ k ≠ proxy) := by
  unfold validateVote at h
  split at h
  · simp only [bind_eq_ok, check_eq_ok, exists_const] at h
    obtain ⟨hlen, hself⟩ := h
    have hnil := List.length_eq_zero_iff.mp hlen
    rw [hnil]
    exact ⟨List.nodup_nil, fun _ => ⟨rfl, hself⟩⟩
  · next hproxy =>
      simp only [bind_eq_ok, check_eq_ok, exists_const] at h
      refine ⟨h.2.pairwise.imp Name.ne_of_lt, fun hne => ?_⟩
      exact absurd hne hproxy

theorem activateStake_counts (ctx : Ctx) (e : Election) (v : VoterInfo) :
    Counts e (e.activateStake ctx v) 0 := by
  unfold activateStake
  split
  · exact ⟨rfl, (add_zero _).symm, rfl, rfl⟩
  · exact .refl e

/-- What `update_votes` needs for losing nothing: no negative weight, and no
change lost from the old or the new proxy onwards. -/
structure Lossless (env : Env) (ctx : Ctx) (t : KeyedTable VoterInfo.owner)
    (v : VoterInfo) (proxy : Name) : Prop where
  last : 0 ≤ v.lastVoteWeight
  new : 0 ≤ newVoteWeight env ctx v
  retracted : 0 < v.lastVoteWeight → v.proxy ≠ .none →
    Passes env ctx t v.proxy
  cast : proxy ≠ .none → Passes env ctx t proxy

/-- **`update_votes`, taken apart.** -/
theorem updateVotes_halves {voting : Bool} (hfair : AllFair e.voters)
    (hrank : Ranks rank (ProxyLink e.voters))
    (hk : proxy ≠ .none → rank proxy < rank k)
    (h : e.updateVotes env ctx k proxy producers voting = .ok e') :
    ∃ v e₀ e₁ ds l voters, e.voters.find k = some v ∧
      (proxy = .none ∨ v.isProxy = false) ∧ producers.Nodup ∧
      (proxy ≠ .none → producers = []) ∧ e₀ = e.activateStake ctx v ∧
      Halfway env ctx k (Lossless env ctx e.voters v proxy) e₀ e₁ ds
        (-v.lastBallot + ballot proxy producers (newVoteWeight env ctx v)) ∧
      ds.foldlM (applyDelta ctx.currentTimePoint v.owner voting) ⟨e₁, 0, 0⟩ =
        .ok l ∧
      modify (l.close ctx.currentTimePoint).voters k (fun av => { av with
        lastVoteWeight := newVoteWeight env ctx v
        producers := producers
        proxy := proxy }) = .ok voters ∧
      e' = { l.close ctx.currentTimePoint with voters } := by
  simp only [updateVotes, bind_eq_ok, orStop_eq_ok, check_eq_ok, pure_eq_ok,
    exists_const] at h
  obtain ⟨_, hvalid, v, hv, hfree, ⟨e₁, ds₁⟩, hretract, ⟨e₂, ds₂⟩, hcast, l,
    hl, voters, hmod, rfl⟩ := h
  obtain ⟨hnodup, hempty⟩ := validateVote_ok hvalid
  have hvoters := (activateStake_counts ctx e v).voters
  refine ⟨v, _, e₂, ds₂, l, voters, hv, hfree, hnodup,
    fun hproxy => (hempty hproxy).1, rfl, ?_, hl, hmod, rfl⟩
  generalize e.activateStake ctx v = e₀ at hretract hvoters
  rw [← hvoters] at hv hrank hfair ⊢
  have hfirst := retractVote_ok hrank hfair hv hretract
  have hlinks : Ranks rank (ProxyLink e₁.voters) :=
    hrank.mono (fun _ _ => hfirst.reweighed.links trivial)
  have hsecond := castVote_ok hlinks hfirst.fair hk hnodup hfirst.sorted hcast
  exact hfirst.trans hsecond (fun hP => ⟨hP.last, hP.retracted⟩)
    (fun hP => ⟨hP.new, fun hproxy => (hP.cast hproxy).mono trivial
      (fun _ _ _ _ => trivial) hfirst.reweighed⟩)

end Votes

end Election

end Inery
