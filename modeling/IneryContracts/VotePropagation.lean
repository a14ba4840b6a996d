import IneryContracts.VoteBallots

/-!
# Re-weighing along proxies

`propagate_weight_change` stores a new weight for a voter and passes the change
on: to the voter's proxy, which is re-weighed in turn, or to its producers.  A
change of at most one is stored without being passed on.  `Passes` says that no
change is lost this way from a voter onwards; the drift then stays as it was.
Proxies never lead back to a voter, so no row is re-weighed twice.
-/

namespace Inery

open GuardedStep LedgerVector RankedLinks

namespace VoterInfo

/-- The change that re-weighing a voter stores. -/
def gap (env : Env) (ctx : Ctx) (v : VoterInfo) : ℚ :=
  Election.stake2vote env ctx v.staked - v.lastVoteWeight

/-- What the weight of a voter and its place depend on. -/
def choice (v : VoterInfo) : Name × List Name × ℤ :=
  (v.proxy, v.producers, v.staked)

/-- What every stored voter satisfies. -/
structure Fair (v : VoterInfo) : Prop where
  proxy : v.isProxy = true → v.proxy = .none
  alone : v.proxy ≠ .none → v.producers = []
  nodup : v.producers.Nodup
  staked : 0 ≤ v.staked

end VoterInfo

/-- All stored voters are fair. -/
def AllFair (t : KeyedTable VoterInfo.owner) : Prop :=
  ∀ y v, t.find y = some v → v.Fair

/-- No stored weight is negative. -/
def NonnegWeights (t : KeyedTable VoterInfo.owner) : Prop :=
  ∀ y v, t.find y = some v → 0 ≤ v.lastVoteWeight

/-- The voter `y` has the proxy `x`. -/
def ProxyLink (t : KeyedTable VoterInfo.owner) (y x : Name) : Prop :=
  ∃ v, t.find y = some v ∧ v.proxy = x ∧ x ≠ .none

/-- From `x` onwards every change that re-weighing stores is passed on in full:
the weight of `x` stays, or there is nothing to pass it on to, or it changes
by more than one and, where `x` has a proxy, the same goes for the proxy. -/
inductive Passes (env : Env) (ctx : Ctx) (t : KeyedTable VoterInfo.owner) :
    Name → Prop
  | even {x : Name} {v : VoterInfo} (row : t.find x = some v)
      (same : v.gap env ctx = 0) : Passes env ctx t x
  | idle {x : Name} {v : VoterInfo} (row : t.find x = some v)
      (noProxy : v.proxy = .none) (noProducers : v.producers = []) :
      Passes env ctx t x
  | counted {x : Name} {v : VoterInfo} (row : t.find x = some v)
      (large : 1 < |v.gap env ctx|) (noProxy : v.proxy = .none) :
      Passes env ctx t x
  | passed {x : Name} {v : VoterInfo} (row : t.find x = some v)
      (large : 1 < |v.gap env ctx|) (proxied : v.proxy ≠ .none)
      (rest : Passes env ctx t v.proxy) : Passes env ctx t x

theorem AllFair.put {t : KeyedTable VoterInfo.owner} (h : AllFair t)
    {r : VoterInfo} (hr : r.Fair) : AllFair (t.put r) := by
  intro y v hv
  rw [KeyedTable.find_put] at hv
  split at hv
  · cases hv
    exact hr
  · exact h y v hv

theorem NonnegWeights.put {t : KeyedTable VoterInfo.owner}
    (h : NonnegWeights t) {r : VoterInfo} (hr : 0 ≤ r.lastVoteWeight) :
    NonnegWeights (t.put r) := by
  intro y v hv
  rw [KeyedTable.find_put] at hv
  split at hv
  · cases hv
    exact hr
  · exact h y v hv

section Voters

variable {env : Env} {ctx : Ctx} {t t' t'' : KeyedTable VoterInfo.owner}
  {S : Name → Prop}

/-- Of the voters in `S` only weights have moved, and every weight stored anew
is the one re-weighing stores. -/
structure Reweighed (env : Env) (ctx : Ctx) (S : Name → Prop)
    (t t' : KeyedTable VoterInfo.owner) : Prop where
  choice : ∀ y, S y →
    (t'.find y).map VoterInfo.choice = (t.find y).map VoterInfo.choice
  weight : ∀ y v v', S y → t.find y = some v → t'.find y = some v' →
    v'.lastVoteWeight = v.lastVoteWeight ∨
    v'.lastVoteWeight = Election.stake2vote env ctx v.staked

theorem VoterInfo.choice_proxy {v v' : VoterInfo}
    (h : v'.choice = v.choice) : v'.proxy = v.proxy :=
  congrArg Prod.fst h

theorem VoterInfo.choice_producers {v v' : VoterInfo}
    (h : v'.choice = v.choice) : v'.producers = v.producers :=
  congrArg (fun c => c.2.1) h

theorem VoterInfo.choice_staked {v v' : VoterInfo}
    (h : v'.choice = v.choice) : v'.staked = v.staked :=
  congrArg (fun c => c.2.2) h

/-- Nothing is reweighed by doing nothing. -/
theorem Reweighed.refl (t : KeyedTable VoterInfo.owner) :
    Reweighed env ctx S t t where
  choice _ _ := rfl
  weight _ _ _ _ hv hv' := by
    cases hv.symm.trans hv'
    exact .inl rfl

/-- What has become of a stored row. -/
theorem Reweighed.row (h : Reweighed env ctx S t t') {y : Name} (hy : S y)
    {v : VoterInfo} (hv : t.find y = some v) :
    ∃ v', t'.find y = some v' ∧ v'.choice = v.choice ∧
      (v'.lastVoteWeight = v.lastVoteWeight ∨
        v'.lastVoteWeight = Election.stake2vote env ctx v.staked) := by
  have hchoice := h.choice y hy
  rw [hv, Option.map_some] at hchoice
  obtain ⟨v', hv', hsame⟩ := Option.map_eq_some_iff.mp hchoice
  exact ⟨v', hv', hsame, h.weight y v v' hy hv hv'⟩

/-- Where a row has come from. -/
theorem Reweighed.origin (h : Reweighed env ctx S t t') {y : Name} (hy : S y)
    {v' : VoterInfo} (hv' : t'.find y = some v') :
    ∃ v, t.find y = some v ∧ v'.choice = v.choice := by
  have hchoice := h.choice y hy
  rw [hv', Option.map_some] at hchoice
  obtain ⟨v, hv, hsame⟩ := Option.map_eq_some_iff.mp hchoice.symm
  exact ⟨v, hv, hsame.symm⟩

/-- Changes of weights compose. -/
theorem Reweighed.trans (h : Reweighed env ctx S t t')
    (h' : Reweighed env ctx S t' t'') : Reweighed env ctx S t t'' where
  choice y hy := (h'.choice y hy).trans (h.choice y hy)
  weight y v v'' hy hv hv'' := by
    obtain ⟨v', hv', hsame, hweight⟩ := h.row hy hv
    rcases h'.weight y v' v'' hy hv' hv'' with hlast | hlast
    · rw [hlast]
      exact hweight
    · rw [hlast, VoterInfo.choice_staked hsame]
      exact .inr rfl

/-- A change of some weights is one of more. -/
theorem Reweighed.sub {S' : Name → Prop} (h : Reweighed env ctx S t t')
    (hsub : ∀ y, S' y → S y) : Reweighed env ctx S' t t' where
  choice y hy := h.choice y (hsub y hy)
  weight y v v' hy := h.weight y v v' (hsub y hy)

/-- Writing a row outside of the set. -/
theorem Reweighed.outside {r : VoterInfo} {k : Name} (hk : r.owner = k)
    (hS : ¬ S k) : Reweighed env ctx S t (t.put r) := by
  have hfind : ∀ y, S y → (t.put r).find y = t.find y := by
    intro y hy
    rw [KeyedTable.find_put_of_key hk, if_neg (by rintro rfl; exact hS hy)]
  refine ⟨fun y hy => by rw [hfind y hy], fun y v v' hy hv hv' => ?_⟩
  cases hv.symm.trans ((hfind y hy).symm.trans hv')
  exact .inl rfl

/-- Writing the weights of a row. -/
theorem Reweighed.put {r v : VoterInfo} {k : Name} (hv : t.find k = some v)
    (hk : r.owner = k) (hchoice : r.choice = v.choice)
    (hweight : r.lastVoteWeight = v.lastVoteWeight ∨
      r.lastVoteWeight = Election.stake2vote env ctx v.staked) :
    Reweighed env ctx S t (t.put r) where
  choice y _ := by
    rw [KeyedTable.find_put_of_key hk]
    by_cases hy : y = k
    · subst hy
      simp [hv, hchoice]
    · simp [hy]
  weight y w w' _ hw hw' := by
    rw [KeyedTable.find_put_of_key hk] at hw'
    split at hw'
    · next hy =>
        subst hy
        cases hw'
        cases hv.symm.trans hw
        exact hweight
    · cases hw.symm.trans hw'
      exact .inl rfl

/-- The proxies are the same. -/
theorem Reweighed.links (h : Reweighed env ctx S t t') {y x : Name} (hy : S y)
    (hlink : ProxyLink t' y x) : ProxyLink t y x := by
  obtain ⟨v', hv', hproxy, hx⟩ := hlink
  obtain ⟨v, hv, hsame⟩ := h.origin hy hv'
  exact ⟨v, hv, (VoterInfo.choice_proxy hsame).symm.trans hproxy, hx⟩

/-- Re-weighing again loses nothing new. -/
theorem Passes.mono {x : Name} (h : Passes env ctx t x) (hx : S x)
    (hS : ∀ y z, S y → ProxyLink t y z → S z)
    (hre : Reweighed env ctx S t t') : Passes env ctx t' x := by
  have hgap : ∀ {v v' : VoterInfo}, v'.choice = v.choice →
      (v'.lastVoteWeight = v.lastVoteWeight ∨
        v'.lastVoteWeight = Election.stake2vote env ctx v.staked) →
      v'.gap env ctx = v.gap env ctx ∨ v'.gap env ctx = 0 := by
    intro v v' hsame hweight
    unfold VoterInfo.gap
    rw [VoterInfo.choice_staked hsame]
    rcases hweight with hlast | hlast
    · exact .inl (by rw [hlast])
    · exact .inr (by rw [hlast, sub_self])
  induction h with
  | even row same =>
      obtain ⟨v', hv', hsame, hweight⟩ := hre.row hx row
      rcases hgap hsame hweight with hg | hg
      · exact .even hv' (hg.trans same)
      · exact .even hv' hg
  | idle row noProxy noProducers =>
      obtain ⟨v', hv', hsame, _⟩ := hre.row hx row
      exact .idle hv' ((VoterInfo.choice_proxy hsame).trans noProxy)
        ((VoterInfo.choice_producers hsame).trans noProducers)
  | counted row large noProxy =>
      obtain ⟨v', hv', hsame, hweight⟩ := hre.row hx row
      rcases hgap hsame hweight with hg | hg
      · exact .counted hv' (hg ▸ large)
          ((VoterInfo.choice_proxy hsame).trans noProxy)
      · exact .even hv' hg
  | @passed x v row large proxied rest ih =>
      obtain ⟨v', hv', hsame, hweight⟩ := hre.row hx row
      have hproxy := VoterInfo.choice_proxy hsame
      rcases hgap hsame hweight with hg | hg
      · refine .passed hv' (hg ▸ large) (hproxy ▸ proxied) ?_
        rw [hproxy]
        exact ih (hS x v.proxy hx ⟨v, row, rfl, proxied⟩)
      · exact .even hv' hg

/-- A small change that is not lost counts nowhere. -/
theorem Passes.small {x : Name} {v : VoterInfo} (h : Passes env ctx t x)
    (hv : t.find x = some v) (hsmall : |v.gap env ctx| ≤ 1) :
    ballot v.proxy v.producers (v.gap env ctx) = 0 := by
  cases h with
  | even row same =>
      cases hv.symm.trans row
      rw [same, ballot_zero]
  | idle row noProxy noProducers =>
      cases hv.symm.trans row
      rw [noProxy, noProducers, ballot_nil]
  | counted row large noProxy =>
      cases hv.symm.trans row
      exact absurd large (not_lt.mpr hsmall)
  | passed row large proxied rest =>
      cases hv.symm.trans row
      exact absurd large (not_lt.mpr hsmall)

/-- A large change of a voter with a proxy goes on to the proxy. -/
theorem Passes.rest {x : Name} {v : VoterInfo} (h : Passes env ctx t x)
    (hv : t.find x = some v) (hlarge : 1 < |v.gap env ctx|)
    (hproxy : v.proxy ≠ .none) : Passes env ctx t v.proxy := by
  cases h with
  | even row same =>
      cases hv.symm.trans row
      rw [same, abs_zero] at hlarge
      exact absurd hlarge (by norm_num)
  | idle row noProxy noProducers =>
      cases hv.symm.trans row
      exact absurd noProxy hproxy
  | counted row large noProxy =>
      cases hv.symm.trans row
      exact absurd noProxy hproxy
  | passed row large proxied rest =>
      cases hv.symm.trans row
      exact rest

end Voters

namespace Election

/-! ## The loop over the producers of a voter -/

/-- The tables count `d` more, and nothing else of what they count has
changed. -/
structure Counts (e e' : Election) (d : VoteTarget → ℚ) : Prop where
  voters : e'.voters = e.voters
  counted : e'.counted = e.counted + d
  balance : e'.balance = e.balance
  clamped : e'.clampedVotes = e.clampedVotes

theorem Counts.refl (e : Election) : Counts e e 0 :=
  ⟨rfl, (add_zero _).symm, rfl, rfl⟩

/-- What is counted one after the other adds up. -/
theorem Counts.trans {e₁ e₂ e₃ : Election} {d d' : VoteTarget → ℚ}
    (h : Counts e₁ e₂ d) (h' : Counts e₂ e₃ d') : Counts e₁ e₃ (d + d') where
  voters := h'.voters.trans h.voters
  counted := by rw [h'.counted, h.counted, add_assoc]
  balance := h'.balance.trans h.balance
  clamped := h'.clamped.trans h.clamped

/-- What is counted moves the drift. -/
theorem Counts.drift {e e' : Election} {d : VoteTarget → ℚ}
    (h : Counts e e' d) : e'.drift = e.drift + d := by
  have hbacked : e'.backed = e.backed := by
    rw [backed, h.voters, backed]
  rw [Election.drift, h.counted, hbacked, Election.drift]
  abel

/-- Writing the votes of one producer together with the total. -/
theorem Counts.producer {e : Election} {k : Name} {row r : ProducerInfo}
    {d : ℚ} (hrow : e.producers.find k = some row) (hk : r.owner = k)
    (hvotes : r.totalVotes = row.totalVotes + d)
    {producers2 : KeyedTable ProducerInfo2.owner} :
    Counts e { e with
      producers := e.producers.put r
      producers2
      totalProducerVoteWeight := e.totalProducerVoteWeight + d }
      (Pi.single (.producer k) d) where
  voters := rfl
  counted := by
    refine (counted_putProducer hk).trans ?_
    rw [view_of_find hrow, hvotes, add_sub_cancel_left]
  balance := by
    simp only [Election.balance, view_put _ _ hk, total_add, total_single,
      view_of_find hrow, hvotes, add_sub_cancel_left]
    abel
  clamped := rfl

/-- A weight entered for a producer is counted for it. -/
theorem applyWeight_counts {ct : ℤ} {delta : ℚ} {l l' : VoteLoop} {p : Name}
    (h : applyWeight ct delta l p = .ok l') :
    Counts l.election l'.election (Pi.single (.producer p) delta) := by
  simp only [applyWeight, bind_eq_ok, tableGet_eq_ok, modify_eq_ok] at h
  obtain ⟨prod, hprod, _, ⟨row, hrow, hk, rfl⟩, h⟩ := h
  obtain ⟨producers2, hsettled⟩ := settleVotepay_ok h
  rw [hsettled]
  exact .producer (r := { row with totalVotes := row.totalVotes + delta })
    hrow hk rfl

/-- The loop counts a ballot for the producers of the voter. -/
theorem applyWeights_counts {ct : ℤ} {delta : ℚ} {producers : List Name}
    {l l' : VoteLoop} (hnodup : producers.Nodup)
    (h : producers.foldlM (applyWeight ct delta) l = .ok l') :
    Counts l.election l'.election (ballot .none producers delta) := by
  induction producers generalizing l with
  | nil =>
      cases h
      rw [ballot_nil]
      exact .refl _
  | cons p producers ih =>
      rw [List.foldlM_cons, bind_eq_ok] at h
      obtain ⟨l₁, h₁, h⟩ := h
      obtain ⟨hp, hnodup⟩ := List.nodup_cons.mp hnodup
      rw [ballot_cons hp]
      exact (applyWeight_counts h₁).trans (ih hnodup h)

/-- The ways a change is passed on: not at all, to the proxy, or to the
producers. -/
theorem passWeight_cases {ctx : Ctx}
    {propagate : Election → Name → Except Abort Election} {e e' : Election}
    {voter : VoterInfo} {delta : ℚ}
    (h : passWeight ctx propagate e voter delta = .ok e') :
    (|delta| ≤ 1 ∧ e' = e) ∨
    (1 < |delta| ∧ voter.proxy ≠ .none ∧ ∃ voters,
      modify e.voters voter.proxy (fun p =>
        { p with proxiedVoteWeight := p.proxiedVoteWeight + delta }) =
        .ok voters ∧
      propagate { e with voters } voter.proxy = .ok e') ∨
    (1 < |delta| ∧ voter.proxy = .none ∧ ∃ l,
      voter.producers.foldlM (applyWeight ctx.currentTimePoint delta)
        ⟨e, 0, 0⟩ = .ok l ∧
      e' = l.close ctx.currentTimePoint) := by
  unfold passWeight at h
  split at h
  · next hlarge =>
      split at h
      · next hproxy =>
          simp only [bind_eq_ok, tableGet_eq_ok] at h
          obtain ⟨_, _, voters, hmod, h⟩ := h
          exact .inr (.inl ⟨hlarge, hproxy, voters, hmod, h⟩)
      · next hproxy =>
          simp only [bind_eq_ok, pure_eq_ok] at h
          obtain ⟨l, hl, rfl⟩ := h
          exact .inr (.inr ⟨hlarge, not_not.mp hproxy, l, hl, rfl⟩)
  · next hsmall =>
      cases h
      exact .inl ⟨not_lt.mp hsmall, rfl⟩

/-! ## The recursion -/

/-- What re-weighing from `x` onwards does, after `d` has been counted.  It
reaches only voters whose rank is at most that of `x`, and moves the drift by
no more than `d` unless a change is lost. -/
structure Propagated (env : Env) (ctx : Ctx) (rank : Name → ℕ) (x : Name)
    (d : VoteTarget → ℚ) (e e' : Election) : Prop where
  reweighed : Reweighed env ctx (fun _ => True) e.voters e'.voters
  apart : ∀ y, rank x < rank y → e'.voters.find y = e.voters.find y
  fair : AllFair e'.voters
  nonneg : NonnegWeights e.voters → NonnegWeights e'.voters
  balance : e'.balance = e.balance
  clamped : e'.clampedVotes = e.clampedVotes
  drift : Passes env ctx e.voters x → e'.drift = e.drift + d

section Propagation

variable {env : Env} {ctx : Ctx} {rank : Name → ℕ} {e e₁ e' : Election}
  {x : Name} {v : VoterInfo}

/-- A stake that is not negative has no negative weight. -/
theorem stake2vote_nonneg {staked : ℤ} (h : 0 ≤ staked) :
    0 ≤ stake2vote env ctx staked :=
  mul_nonneg (Int.cast_nonneg h) (env.voteFactor_pos _).le

/-- Counting a weight with a proxy, which is then re-weighed. -/
theorem Propagated.booked {w : ℚ} {f : VoterInfo → VoterInfo}
    {voters : KeyedTable VoterInfo.owner}
    (hrank : Ranks rank (ProxyLink e.voters)) (hfair : AllFair e.voters)
    (hf : ∀ v, f v = { v with proxiedVoteWeight := v.proxiedVoteWeight + w })
    (hbook : modify e.voters x f = .ok voters)
    (hprop : Ranks rank (ProxyLink voters) → AllFair voters →
      Propagated env ctx rank x 0 { e with voters } e') :
    Propagated env ctx rank x (Pi.single (.proxy x) w) e e' := by
  have hbooked := drift_proxied (e := e) hbook hf
  obtain ⟨r, hr, hk, rfl⟩ := modify_eq_ok.mp hbook
  rw [hf] at *
  have hre : Reweighed env ctx (fun _ => True) e.voters (e.voters.put _) :=
    .put hr hk rfl (.inl rfl)
  have hrow := hfair x r hr
  have h := hprop (hrank.mono (fun _ _ => hre.links trivial))
    (hfair.put ⟨hrow.proxy, hrow.alone, hrow.nodup, hrow.staked⟩)
  refine ⟨hre.trans h.reweighed, fun y hy => ?_, h.fair,
    fun hnonneg => h.nonneg (hnonneg.put (hnonneg x r hr)), h.balance,
    h.clamped, fun hpass => ?_⟩
  · rw [h.apart y hy, KeyedTable.find_put_of_key hk,
      if_neg (by rintro rfl; omega)]
  · have hpass' := hpass.mono trivial (fun _ _ _ _ => trivial) hre
    rw [h.drift hpass', add_zero]
    exact hbooked

/-- The last step of re-weighing `x`: its own row, untouched so far, gets the
new weight. -/
private theorem Propagated.store {voters : KeyedTable VoterInfo.owner}
    (hv : e.voters.find x = some v) (hv₁ : e₁.voters.find x = some v)
    (hre : Reweighed env ctx (fun _ => True) e.voters e₁.voters)
    (hapart : ∀ y, rank x < rank y → e₁.voters.find y = e.voters.find y)
    (hfair : AllFair e₁.voters)
    (hnonneg : NonnegWeights e.voters → NonnegWeights e₁.voters)
    (hbalance : e₁.balance = e.balance)
    (hclamped : e₁.clampedVotes = e.clampedVotes)
    (hdrift : Passes env ctx e.voters x → e₁.drift =
      e.drift + ballot v.proxy v.producers (v.gap env ctx))
    (hmod : modify e₁.voters x (fun w =>
      { w with lastVoteWeight := stake2vote env ctx v.staked }) = .ok voters) :
    Propagated env ctx rank x 0 e { e₁ with voters } := by
  have hstored := drift_lastVoteWeight hv₁ hmod
  obtain ⟨r, hr, hk, rfl⟩ := modify_eq_ok.mp hmod
  cases hv₁.symm.trans hr
  have hrow := hfair x v hv₁
  refine ⟨hre.trans (.put hv₁ hk rfl (.inr rfl)), fun y hy => ?_,
    hfair.put ⟨hrow.proxy, hrow.alone, hrow.nodup, hrow.staked⟩,
    fun h => (hnonneg h).put (stake2vote_nonneg hrow.staked),
    hbalance, hclamped, fun hpass => ?_⟩
  · rw [KeyedTable.find_put_of_key hk, if_neg (by rintro rfl; omega)]
    exact hapart y hy
  · rw [hstored, hdrift hpass, add_zero]
    exact add_sub_cancel_right _ _

/-- **Re-weighing along the proxies.** -/
theorem propagateWeightChange_ok {fuel : ℕ}
    (hrank : Ranks rank (ProxyLink e.voters)) (hfair : AllFair e.voters)
    (h : propagateWeightChange env ctx fuel e x = .ok e') :
    Propagated env ctx rank x 0 e e' := by
  induction fuel generalizing e x e' with
  | zero => cases h
  | succ fuel ih =>
      simp only [propagateWeightChange, bind_eq_ok, deref_eq_ok,
        pure_eq_ok] at h
      obtain ⟨v, hv, e₁, hpassed, voters, hmod, rfl⟩ := h
      rcases passWeight_cases hpassed with ⟨hsmall, rfl⟩ |
        ⟨hlarge, hproxy, _, hbook, hrest⟩ | ⟨hlarge, hproxy, l, hl, rfl⟩
      · refine .store hv hv (.refl _) (fun _ _ => rfl) hfair id rfl rfl ?_ hmod
        intro hpass
        rw [hpass.small hv hsmall, add_zero]
      · -- the proxy has a lower rank, so the row of `x` is left alone
        have hlt : rank v.proxy < rank x := hrank _ _ ⟨v, hv, rfl, hproxy⟩
        have hprop := Propagated.booked hrank hfair (fun _ => rfl) hbook
          (fun hrank' hfair' => ih hrank' hfair' hrest)
        refine .store hv ((hprop.apart x hlt).trans hv) hprop.reweighed
          (fun y hy => hprop.apart y (hlt.trans hy)) hprop.fair hprop.nonneg
          hprop.balance hprop.clamped ?_ hmod
        intro hpass
        rw [hprop.drift (hpass.rest hv hlarge hproxy), ballot_proxy hproxy]
        rfl
      · have hloop := applyWeights_counts (hfair x v hv).nodup hl
        have hvoters : l.election.voters = e.voters := hloop.voters
        refine .store hv ?_ ?_ ?_ ?_ ?_ hloop.balance hloop.clamped ?_ hmod
        · exact hvoters ▸ hv
        · exact hvoters ▸ .refl _
        · exact fun y _ => congrArg (·.find y) hvoters
        · exact hvoters ▸ hfair
        · exact hvoters ▸ id
        · intro _
          rw [hproxy]
          exact hloop.drift

end Propagation

end Election

end Inery
