import IneryContracts.Polls

/-!
# The voters of every reachable state

No poll lets a proxy use a proxy, stores a proxy without a row, or closes a
circle of proxies: a vote may only choose an account that is a proxy at that
moment and therefore has no proxy itself, and all other polls leave the chosen
proxies as they are.
-/

namespace Inery

open GuardedStep LedgerVector LabelledRun MachineInt RankedLinks

/-- What the voters of every reachable state satisfy. -/
structure Roster (t : KeyedTable VoterInfo.owner) : Prop where
  fair : AllFair t
  ranked : ∃ rank, Ranks rank (ProxyLink t)
  rows : ∀ y x, ProxyLink t y x → (t.find x).isSome

section Tables

variable {env : Env} {ctx : Ctx} {t t' : KeyedTable VoterInfo.owner}
  {k proxy : Name} {producers : List Name} {r : VoterInfo}

/-- No voters are in order. -/
theorem Roster.empty : Roster .empty where
  fair _ _ hv := by simp at hv
  ranked := ⟨fun _ => 0, fun _ _ ⟨_, hv, _⟩ => by simp at hv⟩
  rows _ _ := fun ⟨_, hv, _⟩ => by simp at hv

/-- The links after a row has been written. -/
theorem proxyLink_put (hk : r.owner = k) {y x : Name}
    (h : ProxyLink (t.put r) y x) :
    (y = k ∧ r.proxy = x ∧ x ≠ .none) ∨ y ≠ k ∧ ProxyLink t y x := by
  obtain ⟨v, hv, hproxy, hx⟩ := h
  rw [KeyedTable.find_put_of_key hk] at hv
  split at hv
  · next hy =>
      cases hv
      exact .inl ⟨hy, hproxy, hx⟩
  · next hy => exact .inr ⟨hy, v, hv, hproxy, hx⟩

/-- Writing a row drops none. -/
theorem isSome_put {y : Name} (h : (t.find y).isSome) :
    ((t.put r).find y).isSome := by
  rw [KeyedTable.find_put]
  split
  · rfl
  · exact h

/-- Writing a row that keeps its proxy. -/
theorem Roster.put (h : Roster t) (hk : r.owner = k) (hr : r.Fair)
    (hproxy : r.proxy ≠ .none → ∃ v, t.find k = some v ∧ v.proxy = r.proxy) :
    Roster (t.put r) := by
  have hlinks : ∀ y x, ProxyLink (t.put r) y x → ProxyLink t y x := by
    intro y x hlink
    rcases proxyLink_put hk hlink with ⟨rfl, rfl, hx⟩ | ⟨_, hlink⟩
    · obtain ⟨v, hv, hsame⟩ := hproxy hx
      exact ⟨v, hv, hsame, hx⟩
    · exact hlink
  obtain ⟨rank, hrank⟩ := h.ranked
  exact ⟨h.fair.put hr, ⟨rank, hrank.mono hlinks⟩,
    fun y x hlink => isSome_put (h.rows y x (hlinks y x hlink))⟩

/-- Re-weighing leaves the proxies as they are. -/
theorem Roster.reweighed (h : Roster t)
    (hre : Reweighed env ctx (fun _ => True) t t') (hfair : AllFair t') :
    Roster t' := by
  obtain ⟨rank, hrank⟩ := h.ranked
  refine ⟨hfair, ⟨rank, hrank.mono (fun _ _ => hre.links trivial)⟩, ?_⟩
  intro y x hlink
  obtain ⟨v, hv⟩ :=
    Option.isSome_iff_exists.mp (h.rows y x (hre.links trivial hlink))
  obtain ⟨v', hv', _⟩ := hre.row trivial hv
  exact Option.isSome_of_mem hv'

/-- What a vote of `k` makes of the voters: its row holds the vote, and of the
others only weights have moved. -/
structure Voted (env : Env) (ctx : Ctx) (k proxy : Name)
    (producers : List Name) (t t' : KeyedTable VoterInfo.owner) : Prop where
  fair : AllFair t'
  others : Reweighed env ctx (· ≠ k) t t'
  row : ∃ v, t.find k = some v ∧ t'.find k = some { v with
    lastVoteWeight := Election.newVoteWeight env ctx v
    producers := producers
    proxy := proxy }

/-- The links after a vote: the voter has its new proxy. -/
theorem Voted.links (h : Voted env ctx k proxy producers t t') {y x : Name}
    (hlink : ProxyLink t' y x) :
    (y = k ∧ proxy = x ∧ x ≠ .none) ∨ y ≠ k ∧ ProxyLink t y x := by
  by_cases hy : y = k
  · subst hy
    obtain ⟨v, hv, hproxy, hx⟩ := hlink
    obtain ⟨_, _, hrow⟩ := h.row
    cases hrow.symm.trans hv
    exact .inl ⟨rfl, hproxy, hx⟩
  · exact .inr ⟨hy, h.others.links hy hlink⟩

/-- A vote drops no row. -/
theorem Voted.isSome (h : Voted env ctx k proxy producers t t') {y : Name}
    (hy : (t.find y).isSome) : (t'.find y).isSome := by
  obtain ⟨v, hv⟩ := Option.isSome_iff_exists.mp hy
  by_cases hne : y = k
  · obtain ⟨_, _, hrow⟩ := h.row
    rw [hne]
    exact Option.isSome_of_mem hrow
  · obtain ⟨v', hv', _⟩ := h.others.row hne hv
    exact Option.isSome_of_mem hv'

/-- A vote keeps the voters in order if its proxy has a lower rank. -/
theorem Voted.roster (h : Voted env ctx k proxy producers t t')
    {rank : Name → ℕ} (ht : Roster t) (hrank : Ranks rank (ProxyLink t))
    (hk : proxy ≠ .none → rank proxy < rank k ∧ (t.find proxy).isSome) :
    Roster t' := by
  refine ⟨h.fair, ⟨rank, fun y x hlink => ?_⟩, fun y x hlink => ?_⟩
  · rcases h.links hlink with ⟨rfl, rfl, hx⟩ | ⟨_, hlink⟩
    · exact (hk hx).1
    · exact hrank y x hlink
  · rcases h.links hlink with ⟨rfl, rfl, hx⟩ | ⟨_, hlink⟩
    · exact h.isSome (hk hx).2
    · exact h.isSome (ht.rows y x hlink)

end Tables

namespace Election

variable {env : Env} {ctx : Ctx} {rank : Name → ℕ} {e e₁ e' : Election}
  {k x proxy : Name} {producers : List Name} {v : VoterInfo} {w : ℚ}
  {d : VoteTarget → ℚ} {P : Prop} {voting : Bool}

/-! ## Votes -/

/-- The proxy of a vote has a row, and a rank below that of the voter: it is
the proxy the voter has had, or an account without a proxy. -/
theorem updateVotes_rank (he : Roster e.voters)
    (hvoting : voting = true ∨
      ∀ v, e.voters.find k = some v → v.proxy = proxy)
    (h : e.updateVotes env ctx k proxy producers voting = .ok e') :
    ∃ rank, Ranks rank (ProxyLink e.voters) ∧ (proxy ≠ .none →
      rank proxy < rank k ∧ (e.voters.find proxy).isSome) := by
  obtain ⟨rank, hrank⟩ := he.ranked
  by_cases hproxy : proxy = .none
  · exact ⟨rank, hrank, fun hne => absurd hproxy hne⟩
  simp only [updateVotes, bind_eq_ok, orStop_eq_ok, check_eq_ok, pure_eq_ok,
    exists_const] at h
  obtain ⟨_, hvalid, v, hv, _, ⟨e₁, ds₁⟩, hretract, _, hcast, _⟩ := h
  have hrecord := (activateStake_record ctx e v).trans _ _ _
    (retractVote_record hretract).toSameRecord
  simp only [castVote, if_pos hproxy, bind_eq_ok, orStop_eq_ok, check_eq_ok,
    exists_const] at hcast
  obtain ⟨newProxy, hnew, hisproxy, _⟩ := hcast
  obtain ⟨old, hold, hsame⟩ := hrecord.voters.find hnew
  have hrow := Option.isSome_of_mem hold
  rcases hvoting with rfl | hvoting
  · -- a proxy has no proxy, so the new link closes no circle
    have hold' : old.isProxy = true := by
      have : newProxy.record.isProxy = old.record.isProxy := by rw [hsame]
      rw [← hisproxy rfl]
      exact this.symm
    have hroot : ∀ y, ¬ ProxyLink e.voters proxy y := by
      rintro y ⟨u, hu, rfl, hy⟩
      cases hold.symm.trans hu
      exact hy ((he.fair proxy old hold).proxy hold')
    obtain ⟨rank', hrank', hlt⟩ :=
      hrank.attach hroot ((validateVote_ok hvalid).2 hproxy).2
    exact ⟨rank', hrank', fun _ => ⟨hlt, hrow⟩⟩
  · exact ⟨rank, hrank, fun _ =>
      ⟨hrank k proxy ⟨v, hv, hvoting v hv, hproxy⟩, hrow⟩⟩

/-- The loop over the producers leaves the voters alone. -/
theorem applyDeltas_voters {ct : ℤ} {owner : Name} {ds : List ProducerDelta}
    {l l' : VoteLoop} (h : ds.foldlM (applyDelta ct owner voting) l = .ok l') :
    l'.election.voters = l.election.voters := by
  refine within_foldlM
    (R := fun l l' : VoteLoop => l'.election.voters = l.election.voters)
    (fun _ => rfl) (fun _ _ _ h h' => h'.trans h) (fun l pd l' h => ?_) ds l
    l' h
  simp only [applyDelta, bind_eq_ok] at h
  obtain ⟨_, _, _, _, _, _, _, _, h⟩ := h
  obtain ⟨_, hsettled⟩ := settleVotepay_ok h
  rw [hsettled]

/-- The last write of a vote. -/
theorem Halfway.voted {ds : List ProducerDelta}
    (h : Halfway env ctx k P e e₁ ds d) (hv : e.voters.find k = some v)
    (hfree : proxy = .none ∨ v.isProxy = false) (hnodup : producers.Nodup)
    (halone : proxy ≠ .none → producers = [])
    {l : Election} (hl : l.voters = e₁.voters)
    {voters : KeyedTable VoterInfo.owner}
    (hmod : modify l.voters k (fun av => { av with
      lastVoteWeight := newVoteWeight env ctx v
      producers := producers
      proxy := proxy }) = .ok voters) :
    Voted env ctx k proxy producers e.voters voters := by
  have hv₁ : e₁.voters.find k = some v := h.row.trans hv
  obtain ⟨r, hr, hkey, rfl⟩ := modify_eq_ok.mp hmod
  rw [hl] at hr ⊢
  cases hv₁.symm.trans hr
  refine ⟨h.fair.put ⟨fun hproxy => ?_, halone, hnodup,
    (h.fair k v hv₁).staked⟩, ?_, ?_⟩
  · exact hfree.resolve_right (by simp [show v.isProxy = true from hproxy])
  · exact (h.reweighed.sub (fun _ _ => trivial)).trans
      (.outside hkey (by simp))
  · exact ⟨v, hv, by rw [KeyedTable.find_put_of_key hkey, if_pos rfl]⟩

/-- **What a vote makes of the voters.** -/
theorem updateVotes_voted (he : Roster e.voters)
    (hvoting : voting = true ∨
      ∀ v, e.voters.find k = some v → v.proxy = proxy)
    (h : e.updateVotes env ctx k proxy producers voting = .ok e') :
    Voted env ctx k proxy producers e.voters e'.voters ∧
      Roster e'.voters := by
  obtain ⟨rank, hrank, hk⟩ := updateVotes_rank he hvoting h
  obtain ⟨v, e₀, e₁, ds, l, voters, hv, hfree, hnodup, halone, rfl, hhalf, hl,
    hmod, rfl⟩ := updateVotes_halves he.fair hrank (fun hx => (hk hx).1) h
  have hvoters := (activateStake_counts ctx e v).voters
  have hvoted := hhalf.voted (hvoters ▸ hv) hfree hnodup halone
    (applyDeltas_voters hl) hmod
  rw [hvoters] at hvoted
  exact ⟨hvoted, hvoted.roster he hrank hk⟩

/-! ## Changes of stake -/

/-- The row of a voter once its stake is booked. -/
structure Booked (e : Election) (k : Name) (amount : ℤ) (v : VoterInfo) :
    Prop where
  owner : v.owner = k
  staked : 0 ≤ v.staked
  row : (e.voters.find k = none ∧ v = { owner := k, staked := amount }) ∨
    ∃ old, e.voters.find k = some old ∧
      v = { old with staked := i64 (old.staked + amount) }

/-- The row of a booked stake is fair. -/
theorem Booked.fair {amount : ℤ} (h : Booked e k amount v)
    (he : AllFair e.voters) : v.Fair := by
  have hstaked := h.staked
  rcases h.row with ⟨_, rfl⟩ | ⟨old, hold, rfl⟩
  · exact ⟨fun _ => rfl, fun _ => rfl, List.nodup_nil, hstaked⟩
  · have hrow := he k old hold
    exact ⟨hrow.proxy, hrow.alone, hrow.nodup, hstaked⟩

/-- The row is stored under its owner. -/
theorem Booked.find {amount : ℤ} (h : Booked e k amount v) :
    (e.voters.put v).find k = some v := by
  rw [KeyedTable.find_put_of_key h.owner, if_pos rfl]

/-- Booking a stake keeps the voters in order. -/
theorem Booked.roster {amount : ℤ} (h : Booked e k amount v)
    (he : Roster e.voters) : Roster (e.voters.put v) := by
  refine he.put h.owner (h.fair he.fair) (fun hproxy => ?_)
  rcases h.row with ⟨_, rfl⟩ | ⟨old, hold, rfl⟩
  · exact absurd rfl hproxy
  · exact ⟨old, hold, rfl⟩

/-- What the code books is a booked stake if it is not negative. -/
theorem bookStake_booked {total : Asset} {r : Election × VoterInfo}
    (h : e.bookStake k total = .ok r) (hpos : 0 ≤ r.2.staked) :
    Booked e k total.amount r.2 ∧
      r.1 = { e with voters := e.voters.put r.2 } := by
  unfold bookStake at h
  split at h
  · next hnone =>
      simp only [bind_eq_ok, emplace_eq_ok, pure_eq_ok] at h
      obtain ⟨_, ⟨_, rfl⟩, rfl⟩ := h
      exact ⟨⟨rfl, hpos, .inl ⟨hnone, rfl⟩⟩, rfl⟩
  · next old hold =>
      simp only [bind_eq_ok, modify_eq_ok, pure_eq_ok] at h
      obtain ⟨_, ⟨_, _, hkey, rfl⟩, rfl⟩ := h
      exact ⟨⟨hkey, hpos, .inr ⟨old, hold, rfl⟩⟩, rfl⟩

/-- `update_voting_power`, taken apart: the stake is booked, and the last vote
is cast again where there is one. -/
theorem updateVotingPower_cases {total : Asset}
    (h : e.updateVotingPower env ctx k total = .ok e') :
    ∃ v, Booked e k total.amount v ∧
      ((v.producers = [] ∧ v.proxy = .none ∧
          e' = { e with voters := e.voters.put v }) ∨
        (v.producers ≠ [] ∨ v.proxy ≠ .none) ∧
          updateVotes env ctx { e with voters := e.voters.put v } k v.proxy
            v.producers false = .ok e') := by
  simp only [updateVotingPower, bind_eq_ok, check_eq_ok, exists_const] at h
  obtain ⟨r, hbook, hpos, _, _, h⟩ := h
  obtain ⟨hrow, hvoters⟩ := bookStake_booked hbook hpos
  rw [hvoters] at h
  refine ⟨r.2, hrow, ?_⟩
  split at h
  · next hvote => exact .inr ⟨hvote, h⟩
  · next hidle =>
      cases h
      simp only [ne_eq, not_or, not_not] at hidle
      exact .inl ⟨hidle.1, hidle.2, rfl⟩

/-- The last vote, cast again with the stake that has been booked. -/
theorem Booked.voted {amount : ℤ} (h : Booked e k amount v)
    (he : Roster e.voters)
    (hvotes : updateVotes env ctx { e with voters := e.voters.put v } k v.proxy
      v.producers false = .ok e') :
    Voted env ctx k v.proxy v.producers (e.voters.put v) e'.voters ∧
      Roster e'.voters := by
  refine updateVotes_voted (e := { e with voters := e.voters.put v })
    (h.roster he) (.inr fun u hu => ?_) hvotes
  rw [Option.some.inj (hu.symm.trans h.find)]

/-! ## Proxies -/

/-- `regproxy`, taken apart: the flag is flipped and the account re-weighed, or
the account becomes a voter. -/
theorem regproxy_cases {isproxy : Bool}
    (h : e.regproxy env ctx x isproxy = .ok e') :
    (∃ v, e.voters.find x = some v ∧ v.owner = x ∧
      (isproxy = true → v.proxy = .none) ∧
      propagateWeightChange env ctx propagateFuel { e with
        voters := e.voters.put { v with isProxy := isproxy } } x = .ok e') ∨
    e.voters.find x = none ∧ e' = { e with
      voters := e.voters.put { owner := x, isProxy := isproxy } } := by
  simp only [Election.regproxy, bind_eq_ok, Ctx.requireAuth_eq_ok,
    exists_const] at h
  obtain ⟨_, h⟩ := h
  split at h
  · next v hv =>
      simp only [bind_eq_ok, check_eq_ok, modify_eq_ok, exists_const] at h
      obtain ⟨_, hproxy, _, ⟨r, hr, hk, rfl⟩, h⟩ := h
      cases hv.symm.trans hr
      exact .inl ⟨v, hv, hk, fun hyes => hproxy.resolve_left (by simp [hyes]),
        h⟩
  · next hnone =>
      simp only [bind_eq_ok, emplace_eq_ok, pure_eq_ok] at h
      obtain ⟨_, ⟨_, rfl⟩, rfl⟩ := h
      exact .inr ⟨hnone, rfl⟩

/-- Flipping the flag of an account keeps its row fair. -/
theorem roster_flip {isproxy : Bool} (he : Roster e.voters)
    (hv : e.voters.find x = some v) (hx : v.owner = x)
    (hproxy : isproxy = true → v.proxy = .none) :
    Roster (e.voters.put { v with isProxy := isproxy }) := by
  have hrow := he.fair x v hv
  exact he.put hx ⟨hproxy, hrow.alone, hrow.nodup, hrow.staked⟩
    (fun _ => ⟨v, hv, rfl⟩)

/-- Re-weighing keeps the voters in order. -/
theorem propagateWeightChange_roster {fuel : ℕ} (he : Roster e.voters)
    (h : propagateWeightChange env ctx fuel e x = .ok e') :
    Roster e'.voters := by
  obtain ⟨rank, hrank⟩ := he.ranked
  have hprop := propagateWeightChange_ok hrank he.fair h
  exact he.reweighed hprop.reweighed hprop.fair

/-- A new row that votes for nobody. -/
theorem roster_fresh {r : VoterInfo} (he : Roster e.voters)
    (hproxy : r.proxy = .none) (hproducers : r.producers = [])
    (hstaked : r.staked = 0) : Roster (e.voters.put r) :=
  he.put rfl ⟨fun _ => hproxy, fun _ => hproducers, by simp [hproducers],
    hstaked.ge⟩ (fun hne => absurd hproxy hne)

/-- Setting a flag leaves the proxies as they are. -/
theorem setManaged_roster {field : UInt32} {value : Bool}
    (h : System.setManaged e k field value = .ok e')
    (he : Roster e.voters) : Roster e'.voters := by
  obtain ⟨flags, ⟨v, hv, hk, rfl⟩ | ⟨hnone, rfl⟩⟩ := System.setManaged_row h
  · have hrow := he.fair k v hv
    exact he.put hk ⟨hrow.proxy, hrow.alone, hrow.nodup, hrow.staked⟩
      (fun _ => ⟨v, hv, rfl⟩)
  · exact roster_fresh he rfl rfl rfl

/-! ## All polls -/

/-- **Every poll keeps the voters in order.** -/
theorem PollStep.roster {p : Poll} (h : PollStep env ctx e p e')
    (he : Roster e.voters) : Roster e'.voters := by
  cases p with
  | other => exact (show SameVotes e e' from h).voters ▸ he
  | flag account =>
      obtain ⟨_, _, hset⟩ := h
      exact setManaged_roster hset he
  | stake owner total =>
      obtain ⟨v, hbooked, ⟨_, _, rfl⟩ | ⟨_, hvotes⟩⟩ :=
        updateVotingPower_cases h
      · exact hbooked.roster he
      · exact (hbooked.voted he hvotes).2
  | vote voter proxy producers =>
      exact (updateVotes_voted he (.inl rfl) h.2).2
  | proxy x isproxy =>
      obtain ⟨v, hv, hx, hproxy, hprop⟩ | ⟨hnone, rfl⟩ := regproxy_cases h
      · exact propagateWeightChange_roster (roster_flip he hv hx hproxy) hprop
      · exact roster_fresh he rfl rfl rfl

/-- Polls one after the other keep the voters in order. -/
theorem polls_roster {ps : List Poll}
    (h : Run (PollStep env ctx) e ps e') (he : Roster e.voters) :
    Roster e'.voters :=
  h.invariant (I := fun e => Roster e.voters) (fun _ => True)
    (fun _ _ _ _ he hp => hp.roster he) (fun _ _ => trivial) he

end Election

namespace Chain

variable {env : Env} {c c' : Chain} {e : Event}

/-- Every event keeps the voters in order. -/
theorem Step.roster (h : Step env c e c') (hc : Roster c.sys.election.voters) :
    Roster c'.sys.election.voters := by
  obtain ⟨ps, _, hrun⟩ := step_polls h
  exact Election.polls_roster hrun hc

/-- The voters of every reachable state are in order. -/
theorem Reachable.roster (h : Reachable env c) :
    Roster c.sys.election.voters := by
  obtain ⟨es, hrun⟩ := h
  exact hrun.invariant (I := fun c => Roster c.sys.election.voters)
    (fun _ => True) (fun _ _ _ _ hc hstep => hstep.roster hc)
    (fun _ _ => trivial) Roster.empty

end Chain

end Inery
