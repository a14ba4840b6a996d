import IneryContracts.MemoryConservation
import IneryContracts.PropagateCalls

/-!
# Re-weighing along proxies ends

`propagate_weight_change` calls itself for the proxy of a voter.  The proxies
of a reachable state form no circle, so the accounts of one chain of calls are
all different and there are never more calls than rows: any budget above the
number of rows gives the same result, and the budget of the model never runs
out.
-/

namespace Inery

open GuardedStep LabelledRun RankedLinks

/-- There are as many names as the recursion may be deep. -/
theorem card_name_le : Fintype.card Name ≤ Election.propagateFuel := by
  have := Fintype.card_le_of_injective _ Name.toNat_injective
  rwa [Fintype.card_fin] at this

/-- Ranks that are bounded by the number of rows, and by the budget. -/
theorem Roster.bounded {t : KeyedTable VoterInfo.owner} (h : Roster t) :
    ∃ rank, Ranks rank (ProxyLink t) ∧ (∀ x, rank x ≤ t.rows.length) ∧
      ∀ x, rank x < Election.propagateFuel := by
  obtain ⟨rank, hrank⟩ := h.ranked
  obtain ⟨rank', hrank', hle, hlt⟩ :=
    hrank.compress (t.rows.map VoterInfo.owner).toFinset (fun y x hlink => by
      obtain ⟨v, hv⟩ := Option.isSome_iff_exists.mp (h.rows y x hlink)
      rw [List.mem_toFinset, List.mem_map]
      exact ⟨v, List.mem_of_find?_eq_some hv, KeyedTable.key_of_find hv⟩)
  have hcard := (t.rows.map VoterInfo.owner).toFinset_card_le
  rw [List.length_map] at hcard
  refine ⟨rank', hrank', fun x => (hle x).trans hcard, fun x => ?_⟩
  by_cases hx : x ∈ (t.rows.map VoterInfo.owner).toFinset
  · exact (hlt x hx).trans_le ((Finset.card_le_univ _).trans card_name_le)
  · exact (hle x).trans_lt
      ((Finset.card_lt_univ_of_notMem hx).trans_le card_name_le)

namespace Election

variable {env : Env} {ctx : Ctx} {rank : Name → ℕ} {e : Election} {x : Name}

/-- What a change is passed on to is the proxy of the voter, with the change
booked there. -/
theorem passWeight_congr {f g : Election → Name → Except Abort Election}
    {voter : VoterInfo} {delta : ℚ}
    (h : voter.proxy ≠ .none → ∀ voters, modify e.voters voter.proxy (fun p =>
        { p with proxiedVoteWeight := p.proxiedVoteWeight + delta }) =
          .ok voters →
      f { e with voters } voter.proxy = g { e with voters } voter.proxy) :
    passWeight ctx f e voter delta = passWeight ctx g e voter delta := by
  unfold passWeight
  split
  · split
    · next hproxy =>
        cases tableGet e.voters voter.proxy "proxy not found" with
        | error _ => rfl
        | ok _ =>
            cases hmod : modify e.voters voter.proxy (fun p =>
                { p with proxiedVoteWeight := p.proxiedVoteWeight + delta })
              with
            | error _ => rfl
            | ok voters => exact h hproxy voters hmod
    · rfl
  · rfl

/-- Booking a weight leaves the proxies as they are. -/
theorem links_booked {k : Name} {f : VoterInfo → VoterInfo}
    {voters : KeyedTable VoterInfo.owner}
    (hmod : modify e.voters k f = .ok voters)
    (hf : ∀ v, (f v).proxy = v.proxy) {y z : Name}
    (hlink : ProxyLink voters y z) : ProxyLink e.voters y z := by
  obtain ⟨v, hv, hk, rfl⟩ := modify_eq_ok.mp hmod
  rcases proxyLink_put hk hlink with ⟨rfl, rfl, hz⟩ | ⟨_, hlink⟩
  · exact ⟨v, hv, (hf v).symm, hz⟩
  · exact hlink

/-- Two budgets above the rank of an account give the same result. -/
theorem propagateWeightChange_fuel {fuel fuel' : ℕ}
    (hrank : Ranks rank (ProxyLink e.voters)) (hx : rank x < fuel)
    (hx' : rank x < fuel') :
    propagateWeightChange env ctx fuel e x =
      propagateWeightChange env ctx fuel' e x := by
  induction fuel generalizing fuel' e x with
  | zero => omega
  | succ fuel ih =>
      obtain ⟨fuel', rfl⟩ : ∃ n, fuel' = n + 1 := ⟨fuel' - 1, by omega⟩
      unfold propagateWeightChange
      cases hv : e.voters.find x with
      | none => rfl
      | some v =>
          have hpass : ∀ delta,
              passWeight ctx (propagateWeightChange env ctx fuel) e v delta =
                passWeight ctx (propagateWeightChange env ctx fuel') e v
                  delta := by
            refine fun delta => passWeight_congr fun hproxy voters hmod => ?_
            have hlt := hrank x v.proxy ⟨v, hv, rfl, hproxy⟩
            exact ih (hrank.mono fun _ _ => links_booked hmod fun _ => rfl)
              (by omega) (by omega)
          simp only [deref, orStop, bind, Except.bind, hpass]

/-- A change of weight at one producer does not recur. -/
theorem applyWeight_fueled (ct : ℤ) (delta : ℚ) (l : VoteLoop) (p : Name) :
    Avoids .outOfFuel (applyWeight ct delta l p) := by
  simp [applyWeight, modify, modifyM]

/-- Neither does a vote applied to one producer. -/
theorem applyDelta_fueled (ct : ℤ) (owner : Name) (voting : Bool)
    (l : VoteLoop) (pd : ProducerDelta) :
    Avoids .outOfFuel (applyDelta ct owner voting l pd) := by
  simp [applyDelta, modify, modifyM]

/-- A budget above the rank of the account does not run out. -/
theorem propagateWeightChange_fueled {fuel : ℕ}
    (hrank : Ranks rank (ProxyLink e.voters)) (hx : rank x < fuel) :
    Avoids .outOfFuel (propagateWeightChange env ctx fuel e x) := by
  induction fuel generalizing e x with
  | zero => omega
  | succ fuel ih =>
      unfold propagateWeightChange
      simp only [avoids_bind, avoids_deref, reduceCtorEq, false_implies,
        true_and, deref_eq_ok]
      intro v hv
      refine ⟨?_, fun _ _ => by simp [modify, modifyM]⟩
      unfold passWeight
      split
      · split
        · next hproxy =>
            simp only [avoids_bind, avoids_tableGet, reduceCtorEq,
              false_implies, true_and]
            refine fun _ _ => ⟨by simp [modify, modifyM], fun voters hmod => ?_⟩
            have hlt := hrank x v.proxy ⟨v, hv, rfl, hproxy⟩
            refine ih (hrank.mono fun _ _ => links_booked hmod fun _ => rfl) ?_
            omega
        · simp [avoids_foldlM (applyWeight_fueled _ _)]
      · simp

/-! ## The callers -/

/-- Counting a weight with a proxy does not run out of fuel. -/
theorem bookProxy_fueled {f : VoterInfo → VoterInfo}
    {voters : KeyedTable VoterInfo.owner} (he : Roster e.voters)
    (hmod : modify e.voters x f = .ok voters)
    (hf : ∀ v, (f v).proxy = v.proxy) : Avoids .outOfFuel
      (propagateWeightChange env ctx propagateFuel { e with voters } x) := by
  obtain ⟨rank, hrank, _, hlt⟩ := he.bounded
  exact propagateWeightChange_fueled
    (hrank.mono fun _ _ => links_booked hmod hf) (hlt x)

/-- Taking the last vote off ends. -/
theorem retractVote_fueled {v : VoterInfo} (he : Roster e.voters) :
    Avoids .outOfFuel (e.retractVote env ctx v) := by
  unfold retractVote
  split
  · split
    · simp only [avoids_bind, avoids_check, reduceCtorEq, false_implies,
        true_and, avoids_pure, implies_true, and_true]
      refine fun _ _ => ⟨by simp [modify, modifyM], fun voters hmod => ?_⟩
      exact bookProxy_fueled he hmod (fun _ => rfl)
    · simp
  · simp

/-- Casting a vote ends. -/
theorem castVote_fueled {ds : List ProducerDelta} {w : ℚ} {proxy : Name}
    {producers : List Name} {voting : Bool} (he : Roster e.voters) :
    Avoids .outOfFuel (e.castVote env ctx ds w proxy producers voting) := by
  unfold castVote
  split
  · simp only [avoids_bind, avoids_orStop, avoids_check, reduceCtorEq,
      false_implies, true_and]
    intro _ _ _ _
    split
    · simp only [avoids_bind, avoids_pure, implies_true, and_true]
      refine ⟨by simp [modify, modifyM], fun voters hmod => ?_⟩
      exact bookProxy_fueled he hmod (fun _ => rfl)
    · simp
  · split
    · simp
    · simp

/-- A whole vote ends. -/
theorem updateVotes_fueled {k proxy : Name} {producers : List Name}
    {voting : Bool} (he : Roster e.voters) :
    Avoids .outOfFuel (e.updateVotes env ctx k proxy producers voting) := by
  have hvalid : Avoids .outOfFuel (validateVote k proxy producers) := by
    unfold validateVote
    split
    · simp
    · simp
  simp only [updateVotes, avoids_bind, hvalid, avoids_orStop, avoids_check,
    reduceCtorEq, false_implies, true_and, orStop_eq_ok, modify, modifyM,
    avoids_ok, avoids_pure, implies_true, and_true]
  intro _ _ v hv _ _
  have hvoters := (activateStake_counts ctx e v).voters
  generalize e.activateStake ctx v = e₀ at hvoters ⊢
  rw [← hvoters] at he hv
  exact ⟨retractVote_fueled he, fun r hr =>
    ⟨castVote_fueled (retractVote_roster he hv hr), fun _ _ =>
      avoids_foldlM (applyDelta_fueled _ _ _) _ _⟩⟩

/-- A change of stake ends. -/
theorem updateVotingPower_fueled {k : Name} {total : Asset}
    (he : Roster e.voters) :
    Avoids .outOfFuel (e.updateVotingPower env ctx k total) := by
  have hbook : Avoids .outOfFuel (e.bookStake k total) := by
    unfold bookStake
    split
    · simp [emplace]
    · simp [modify, modifyM]
  have hvesting : ∀ stake, Avoids .outOfFuel (checkVesting ctx k stake) := by
    intro stake
    unfold checkVesting
    split
    · simp [validateB1Vesting, toInt64]
    · simp
  simp only [updateVotingPower, avoids_bind, hbook, hvesting, avoids_check,
    reduceCtorEq, false_implies, true_and]
  intro r hr _ hpos _ _
  split
  · have hbooked := bookStake_booked hr (check_eq_ok.mp hpos)
    rw [hbooked.2]
    exact updateVotes_fueled (hbooked.1.roster he)
  · simp

/-- Registering a proxy ends. -/
theorem regproxy_fueled {isproxy : Bool} (he : Roster e.voters) :
    Avoids .outOfFuel (e.regproxy env ctx x isproxy) := by
  unfold Election.regproxy
  simp only [avoids_bind, Ctx.avoids_requireAuth, reduceCtorEq, false_implies,
    true_and]
  intro _ _
  split
  · simp only [avoids_bind, avoids_check, reduceCtorEq, false_implies,
      true_and]
    refine fun _ _ _ _ => ⟨by simp [modify, modifyM], fun voters hmod => ?_⟩
    exact bookProxy_fueled he hmod (fun _ => rfl)
  · simp [emplace]

end Election

/-- **No circle of proxies, and no endless re-weighing.**  In a reachable state,
and between the polls of an action there, no proxy uses a proxy and no chain of
proxies leads back; every call of `propagate_weight_change` takes at most as
many recursive calls as it finds rows; and no caller exhausts the budget of the
model. -/
theorem proxies_acyclic {env : Env} {c : Chain} {ctx : Ctx} {ps : List Poll}
    {e : Election} (h : c.Reachable env)
    (hps : Run (Election.PollStep env ctx) c.sys.election ps e) :
    (∀ y v, e.voters.find y = some v →
      ¬ (v.isProxy = true ∧ v.proxy ≠ .none)) ∧
    (∀ x, ¬ Relation.TransGen (ProxyLink e.voters) x x) ∧
    (∀ p e₁ x, Election.Call env ctx e p e₁ x →
      ∀ fuel, e₁.voters.rows.length < fuel →
        Avoids .outOfFuel (e₁.propagateWeightChange env ctx fuel x) ∧
        e₁.propagateWeightChange env ctx fuel x =
          e₁.propagateWeightChange env ctx Election.propagateFuel x) ∧
    (∀ voter proxy producers voting, Avoids .outOfFuel
      (e.updateVotes env ctx voter proxy producers voting)) ∧
    (∀ owner total,
      Avoids .outOfFuel (e.updateVotingPower env ctx owner total)) ∧
    ∀ x isproxy, Avoids .outOfFuel (e.regproxy env ctx x isproxy) := by
  have hroster := Election.polls_roster hps h.roster
  refine ⟨fun y v hv hproxy => ?_, fun x => ?_, fun p e₁ x hcall fuel hfuel =>
    ?_, fun _ _ _ _ => Election.updateVotes_fueled hroster,
    fun _ _ => Election.updateVotingPower_fueled hroster,
    fun _ _ => Election.regproxy_fueled hroster⟩
  · exact hproxy.2 ((hroster.fair y v hv).proxy hproxy.1)
  · obtain ⟨rank, hrank⟩ := hroster.ranked
    exact hrank.acyclic x
  · obtain ⟨rank, hrank, hle, hlt⟩ := (hcall.roster hroster).bounded
    have hx := (hle x).trans_lt hfuel
    exact ⟨Election.propagateWeightChange_fueled hrank hx,
      Election.propagateWeightChange_fuel hrank hx (hlt x)⟩

/-- Bob votes through alice, who gives up being a proxy and votes through the
system account. -/
def chainingEvents : List Event :=
  [.system (.signedBy alice 2) (.regproducer alice {} "" 0),
    .system (.signedBy bob 2) (.regproducer bob {} "" 0),
    .system (.signedBy alice 2)
      (.delegatebw alice alice ⟨100, inrSymbol⟩ ⟨0, inrSymbol⟩ false),
    .system (.signedBy bob 2)
      (.delegatebw bob bob ⟨10, inrSymbol⟩ ⟨0, inrSymbol⟩ false),
    .system (.signedBy alice 3) (.regproxy alice true),
    .system (.signedBy bob 3) (.makeprod bob alice []),
    .system (.signedBy systemAccount 4) (.regproxy systemAccount true),
    .system (.signedBy alice 4) (.regproxy alice false),
    .system (.signedBy alice 5) (.makeprod alice systemAccount [])]

/-- The sample events leave a chain of two proxies, but no circle. -/
theorem proxies_acyclic_sample : ∃ c : Chain,
    (c.sys.election.voters.find bob).any (·.proxy = alice) = true ∧
    (c.sys.election.voters.find alice).any (·.proxy = systemAccount) = true ∧
    ∀ x, ¬ Relation.TransGen (ProxyLink c.sys.election.voters) x x := by
  have hsample : SampleRun chainingEvents (fun _ c =>
      (c.sys.election.voters.find bob).any (·.proxy = alice) = true ∧
      (c.sys.election.voters.find alice).any (·.proxy = systemAccount) =
        true) := by
    decide +kernel
  obtain ⟨_, c, hreach, hbob, halice⟩ := hsample.reachable
  have hacyclic := @proxies_acyclic sampleEnv c (.signedBy alice 5) [] _ hreach
    (.nil _)
  exact ⟨c, hbob, halice, hacyclic.2.1⟩

end Inery
