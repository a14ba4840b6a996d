import IneryContracts.MemoryConservation
import IneryContracts.ReplayedRun
import IneryContracts.VoteRoster

/-!
# The ballots are the last votes

What a voter has chosen, and whether it stands as a proxy, is stored in one row
with weights that the actions of others keep moving.  The choice is
nevertheless the voter's own: it is the one of its last `makeprod`, and its
standing that of its last `regproxy`, whatever has happened in between.
-/

namespace Inery

open GuardedStep LedgerVector LabelledRun

/-- The proxy and the producers of a voter. -/
def VoterInfo.chosen (v : VoterInfo) : Name × List Name :=
  (v.proxy, v.producers)

namespace Election

/-- The choice of an account; without a row it has chosen nobody. -/
def chosen (e : Election) (k : Name) : Name × List Name :=
  ((e.voters.find k).map VoterInfo.chosen).getD (.none, [])

/-- The account stands as a proxy. -/
def standsAsProxy (e : Election) (k : Name) : Bool :=
  ((e.voters.find k).map VoterInfo.isProxy).getD false

end Election

/-! ## What the actions write -/

/-- The choice that a poll writes for `k`. -/
def Poll.casts (k : Name) : Poll → Option (Name × List Name)
  | .vote voter choice producers =>
      if voter = k then some (choice, producers) else none
  | _ => none

/-- The standing that a poll writes for `k`. -/
def Poll.registers (k : Name) : Poll → Option Bool
  | .proxy x isproxy => if x = k then some isproxy else none
  | _ => none

/-- The choice that an action writes for `k`. -/
def Event.casts (k : Name) : Event → Option (Name × List Name)
  | system _ (.makeprod voter proxy producers) =>
      if voter = k then some (proxy, producers) else none
  | _ => none

/-- The standing that an action writes for `k`. -/
def Event.registers (k : Name) : Event → Option Bool
  | system _ (.regproxy x isproxy) => if x = k then some isproxy else none
  | _ => none

section Labels

variable {k : Name} {ps : List Poll}

/-- The polls of a stake cast and register nothing. -/
theorem Stakes.silent {P : ℤ → Prop} {owner : Name} (h : Stakes P owner ps) :
    ∀ p ∈ ps, p.casts k = none ∧ p.registers k = none := by
  obtain ⟨total, _, _, rfl⟩ := h
  intro p hp
  rw [List.mem_singleton.mp hp]
  exact ⟨rfl, rfl⟩

/-- A list of polls that write nothing. -/
theorem lastWrite_silent
    (h : ∀ p ∈ ps, p.casts k = none ∧ p.registers k = none) :
    lastWrite (Poll.casts k) ps = none ∧
      lastWrite (Poll.registers k) ps = none :=
  ⟨lastWrite_eq_none_iff.mpr fun p hp => (h p hp).1,
    lastWrite_eq_none_iff.mpr fun p hp => (h p hp).2⟩

/-- The polls of an action write what the action writes. -/
theorem SysAction.Polls.writes {ctx : Ctx} {a : SysAction} (h : a.Polls ps)
    (k : Name) :
    lastWrite (Poll.casts k) ps = (Event.system ctx a).casts k ∧
      lastWrite (Poll.registers k) ps =
        (Event.system ctx a).registers k := by
  cases a with
  | delegatebw from' receiver net cpu transfer =>
      exact lastWrite_silent (Stakes.silent h)
  | undelegatebw from' receiver net cpu =>
      exact lastWrite_silent (Stakes.silent (P := (· ≤ 0)) h)
  | buyresources payer receiver quant =>
      exact lastWrite_silent (Stakes.silent h)
  | sellres account bytes =>
      exact lastWrite_silent (Stakes.silent (P := (· ≤ 0)) h)
  | buymembytes payer receiver bytes =>
      obtain ⟨ps₁, ps₂, h₁, h₂, rfl⟩ := h
      refine lastWrite_silent fun p hp => ?_
      rcases List.mem_append.mp hp with hp | hp
      · exact Stakes.silent h₁ p hp
      · exact Stakes.silent h₂ p hp
  | makeprod voter proxy producers =>
      subst h
      refine ⟨?_, rfl⟩
      simp only [lastWrite, List.foldl_cons, List.foldl_nil, Poll.casts,
        Event.casts]
      split <;> rfl
  | regproxy x isproxy =>
      subst h
      refine ⟨rfl, ?_⟩
      rw [lastWrite_singleton]
      rfl
  | _ =>
      subst h
      exact ⟨rfl, rfl⟩

/-- The polls of an event write what the event casts and registers. -/
theorem Event.Polls.writes {e : Event} (h : e.Polls ps) (k : Name) :
    lastWrite (Poll.casts k) ps = e.casts k ∧
      lastWrite (Poll.registers k) ps = e.registers k := by
  cases e with
  | system ctx a => exact SysAction.Polls.writes h k
  | token ctx a =>
      subst h
      exact ⟨rfl, rfl⟩
  | deferred slot isAccount owner =>
      subst h
      exact ⟨rfl, rfl⟩

end Labels

/-! ## One poll -/

namespace Election

variable {env : Env} {ctx : Ctx} {e e' : Election} {k x proxy : Name}
  {producers : List Name} {r v : VoterInfo} {voting : Bool}

theorem chosen_of_find (h : e.voters.find k = some v) :
    e.chosen k = v.chosen := by
  rw [chosen, h]
  rfl

theorem standsAsProxy_of_find (h : e.voters.find k = some v) :
    e.standsAsProxy k = v.isProxy := by
  rw [standsAsProxy, h]
  rfl

theorem chosen_of_none (h : e.voters.find k = none) :
    e.chosen k = (.none, []) := by
  rw [chosen, h]
  rfl

theorem standsAsProxy_of_none (h : e.voters.find k = none) :
    e.standsAsProxy k = false := by
  rw [standsAsProxy, h]
  rfl

theorem chosen_put (hr : r.owner = x) (k : Name) :
    ({ e with voters := e.voters.put r } : Election).chosen k =
      if k = x then r.chosen else e.chosen k := by
  simp only [chosen, KeyedTable.find_put_of_key hr]
  split <;> rfl

theorem standsAsProxy_put (hr : r.owner = x) (k : Name) :
    ({ e with voters := e.voters.put r } : Election).standsAsProxy k =
      if k = x then r.isProxy else e.standsAsProxy k := by
  simp only [standsAsProxy, KeyedTable.find_put_of_key hr]
  split <;> rfl

/-- Changing weights keeps every choice. -/
theorem chosen_reweighed
    (h : Reweighed env ctx (fun _ => True) e.voters e'.voters) (k : Name) :
    e'.chosen k = e.chosen k := by
  unfold chosen
  have hchoice := h.choice k trivial
  cases hv : e.voters.find k with
  | none =>
      rw [hv, Option.map_none, Option.map_eq_none_iff] at hchoice
      rw [hchoice]
  | some v =>
      obtain ⟨v', hv', hsame, _⟩ := h.row trivial hv
      rw [hv', Option.map_some, Option.map_some, VoterInfo.chosen,
        VoterInfo.choice_proxy hsame, VoterInfo.choice_producers hsame]
      rfl

theorem SameRecord.standsAsProxy (h : SameRecord e e') (k : Name) :
    e'.standsAsProxy k = e.standsAsProxy k := by
  have hproxy : SameBy VoterInfo.isProxy e.voters e'.voters :=
    h.voters.map (fun v v' hv =>
      show v.record.isProxy = v'.record.isProxy from congrArg _ hv)
  rw [Election.standsAsProxy, hproxy k, Election.standsAsProxy]

/-- A vote writes the choice of its voter. -/
theorem Voted.chosen {t : KeyedTable VoterInfo.owner}
    (h : Voted env ctx x proxy producers t e'.voters)
    (ht : t = e.voters) (k : Name) :
    e'.chosen k = if k = x then (proxy, producers) else e.chosen k := by
  subst ht
  by_cases hk : k = x
  · obtain ⟨v, _, hrow⟩ := h.row
    rw [if_pos hk, hk, chosen_of_find hrow]
    rfl
  · rw [if_neg hk]
    have hchoice := h.others.choice k hk
    cases hv : e.voters.find k with
    | none =>
        rw [hv, Option.map_none, Option.map_eq_none_iff] at hchoice
        rw [Election.chosen, Election.chosen, hchoice, hv]
    | some v =>
        obtain ⟨v', hv', hsame, _⟩ := h.others.row hk hv
        rw [chosen_of_find hv', chosen_of_find hv, VoterInfo.chosen,
          VoterInfo.choice_proxy hsame, VoterInfo.choice_producers hsame]
        rfl

/-- Storing a row with the choice and the standing the account has had. -/
theorem keeps_put (hr : r.owner = x) (hchosen : r.chosen = e.chosen x)
    (hstands : r.isProxy = e.standsAsProxy x) (k : Name) :
    ({ e with voters := e.voters.put r } : Election).chosen k = e.chosen k ∧
      ({ e with voters := e.voters.put r } : Election).standsAsProxy k =
        e.standsAsProxy k := by
  rw [chosen_put hr, standsAsProxy_put hr]
  by_cases hk : k = x
  · rw [if_pos hk, if_pos hk, hk]
    exact ⟨hchosen, hstands⟩
  · rw [if_neg hk, if_neg hk]
    exact ⟨rfl, rfl⟩

/-- Booking a stake writes neither. -/
theorem Booked.keeps {amount : ℤ} (h : Booked e x amount v) (k : Name) :
    ({ e with voters := e.voters.put v } : Election).chosen k = e.chosen k ∧
      ({ e with voters := e.voters.put v } : Election).standsAsProxy k =
        e.standsAsProxy k := by
  rcases h.row with ⟨hnone, rfl⟩ | ⟨old, hold, rfl⟩
  · exact keeps_put h.owner (chosen_of_none hnone).symm
      (standsAsProxy_of_none hnone).symm k
  · exact keeps_put h.owner (chosen_of_find hold).symm
      (standsAsProxy_of_find hold).symm k

/-- **A poll writes the choice of its voter, or the standing of its account,
and nothing else of either kind.** -/
theorem PollStep.writes {p : Poll} (h : PollStep env ctx e p e')
    (he : Roster e.voters) (k : Name) :
    e'.chosen k = (p.casts k).getD (e.chosen k) ∧
      e'.standsAsProxy k = (p.registers k).getD (e.standsAsProxy k) := by
  cases p with
  | other =>
      have hvoters := (show SameVotes e e' from h).voters
      rw [chosen, hvoters, standsAsProxy, hvoters]
      exact ⟨rfl, rfl⟩
  | flag account =>
      obtain ⟨field, value, hset⟩ := h
      obtain ⟨flags, ⟨v, hv, hk, rfl⟩ | ⟨hnone, rfl⟩⟩ :=
        System.setManaged_row hset
      · exact keeps_put (r := { v with flags1 := flags }) hk
          (chosen_of_find hv).symm (standsAsProxy_of_find hv).symm k
      · exact keeps_put (r := { owner := account, flags1 := flags }) rfl
          (chosen_of_none hnone).symm (standsAsProxy_of_none hnone).symm k
  | stake owner total =>
      obtain ⟨v, hbooked, ⟨_, _, rfl⟩ | ⟨_, hvotes⟩⟩ :=
        updateVotingPower_cases h
      · exact hbooked.keeps k
      · have hkeeps := hbooked.keeps k
        have hrecord := updateVotes_record hvotes
        have hvoted := (hbooked.voted he hvotes).1
        refine ⟨?_, (hrecord.standsAsProxy k).trans hkeeps.2⟩
        rw [Voted.chosen (e := { e with voters := e.voters.put v }) hvoted rfl,
          hkeeps.1]
        by_cases hk : k = owner
        · rw [if_pos hk, ← hkeeps.1, hk, chosen_of_find hbooked.find]
          rfl
        · rw [if_neg hk]
          rfl
  | vote voter proxy producers =>
      have hvoted := (updateVotes_voted he (.inl rfl) h.2).1
      refine ⟨?_, (updateVotes_record h.2).standsAsProxy k⟩
      rw [Voted.chosen hvoted rfl, Poll.casts]
      by_cases hk : k = voter
      · rw [if_pos hk, if_pos hk.symm]
        rfl
      · rw [if_neg hk, if_neg (Ne.symm hk)]
        rfl
  | proxy x isproxy =>
      obtain ⟨v, hv, hx, hproxy, hprop⟩ | ⟨hnone, rfl⟩ := regproxy_cases h
      · have hroster := roster_flip he hv hx hproxy
        obtain ⟨rank, hrank⟩ := hroster.ranked
        have hre := (propagateWeightChange_ok hrank hroster.fair
          hprop).reweighed
        have hrecord := (propagateWeightChange_record env ctx _ _ _ _
          hprop).toSameRecord
        rw [chosen_reweighed (e := { e with
            voters := e.voters.put { v with isProxy := isproxy } }) hre k,
          hrecord.standsAsProxy k,
          chosen_put (r := { v with isProxy := isproxy }) hx,
          standsAsProxy_put (r := { v with isProxy := isproxy }) hx]
        by_cases hk : k = x
        · rw [if_pos hk, if_pos hk, hk, chosen_of_find hv]
          exact ⟨rfl, by simp [Poll.registers]⟩
        · rw [if_neg hk, if_neg hk]
          exact ⟨rfl, by simp [Poll.registers, Ne.symm hk]⟩
      · rw [chosen_put (r := { owner := x, isProxy := isproxy }) rfl,
          standsAsProxy_put (r := { owner := x, isProxy := isproxy }) rfl]
        by_cases hk : k = x
        · rw [if_pos hk, if_pos hk, hk, chosen_of_none hnone]
          exact ⟨rfl, by simp [Poll.registers]⟩
        · rw [if_neg hk, if_neg hk]
          exact ⟨rfl, by simp [Poll.registers, Ne.symm hk]⟩

end Election

/-! ## Runs -/

namespace Chain

variable {env : Env} {c c' : Chain} {e : Event}

/-- **One step writes what its event says.** -/
theorem Step.writes (h : Step env c e c') (hc : Roster c.sys.election.voters)
    (k : Name) :
    c'.sys.election.chosen k = (e.casts k).getD (c.sys.election.chosen k) ∧
      c'.sys.election.standsAsProxy k =
        (e.registers k).getD (c.sys.election.standsAsProxy k) := by
  obtain ⟨ps, hps, hrun⟩ := step_polls h
  have hwrites := Event.Polls.writes hps k
  rw [← hwrites.1, ← hwrites.2]
  constructor
  · exact (hrun.last_write (I := fun e => Roster e.voters)
      (f := fun e => e.chosen k) (fun _ _ _ he hp =>
        ⟨hp.roster he, (hp.writes he k).1⟩) hc).2
  · exact (hrun.last_write (I := fun e => Roster e.voters)
      (f := fun e => e.standsAsProxy k) (fun _ _ _ he hp =>
        ⟨hp.roster he, (hp.writes he k).2⟩) hc).2

/-- Whoever's choice or standing an event writes has signed it. -/
theorem Step.writes_signed (h : Step env c e c') {k : Name}
    (hk : e.casts k ≠ none ∨ e.registers k ≠ none) : e.AuthorizedBy k := by
  cases e with
  | token ctx a => simp [Event.casts, Event.registers] at hk
  | deferred slot isAccount owner =>
      simp [Event.casts, Event.registers] at hk
  | system ctx a =>
      obtain ⟨s, hs, _⟩ := step_system h
      cases a with
      | makeprod voter proxy producers =>
          have hvoter : voter = k := by
            by_contra hne
            simp [Event.casts, Event.registers, hne] at hk
          simp only [System.apply, System.makeprod, bind_eq_ok,
            Ctx.requireAuth_eq_ok, exists_const] at hs
          exact hvoter ▸ hs.1
      | regproxy x isproxy =>
          have hx : x = k := by
            by_contra hne
            simp [Event.casts, Event.registers, hne] at hk
          simp only [System.apply, System.regproxy, Election.regproxy,
            bind_eq_ok, Ctx.requireAuth_eq_ok, exists_const] at hs
          obtain ⟨_, ⟨hauth, _⟩, _⟩ := hs
          exact hx ▸ hauth
      | _ => simp [Event.casts, Event.registers] at hk

end Chain

/-- **The ballots are the last votes.**  In every run the stored choice of an
account is that of its last `makeprod`, its standing as a proxy that of its
last `regproxy`, and it has signed each of these itself. -/
theorem ballots_replayed {env : Env} {es : List Event} {c : Chain}
    (hrun : Run (Chain.Step env) (.genesis env) es c) (k : Name) :
    c.sys.election.chosen k =
        (lastWrite (Event.casts k) es).getD (.none, []) ∧
      c.sys.election.standsAsProxy k =
        (lastWrite (Event.registers k) es).getD false ∧
      ∀ e ∈ es, e.casts k ≠ none ∨ e.registers k ≠ none →
        e.AuthorizedBy k := by
  refine ⟨?_, ?_, ?_⟩
  · exact (hrun.last_write (I := fun c => Roster c.sys.election.voters)
      (f := fun c => c.sys.election.chosen k) (fun _ _ _ hc hstep =>
        ⟨hstep.roster hc, (hstep.writes hc k).1⟩) Roster.empty).2
  · exact (hrun.last_write (I := fun c => Roster c.sys.election.voters)
      (f := fun c => c.sys.election.standsAsProxy k)
      (fun _ _ _ hc hstep => ⟨hstep.roster hc, (hstep.writes hc k).2⟩)
      Roster.empty).2
  · exact (hrun.labels (I := fun _ => True) (fun _ _ _ _ hstep =>
      ⟨trivial, hstep.writes_signed⟩) trivial).2

/-- A proxy gains and loses a voter. -/
def ballotingEvents : List Event :=
  [.system (.signedBy alice 2) (.regproducer alice {} "" 0),
    .system (.signedBy bob 2) (.regproducer bob {} "" 0),
    .system (.signedBy bob 2)
      (.delegatebw bob bob ⟨100, inrSymbol⟩ ⟨100, inrSymbol⟩ false),
    .system (.signedBy alice 3) (.regproxy alice true),
    .system (.signedBy bob 3) (.makeprod bob alice []),
    .system (.signedBy alice 4)
      (.delegatebw alice bob ⟨100, inrSymbol⟩ ⟨100, inrSymbol⟩ false),
    .system (.signedBy bob 5) (.makeprod bob .none [bob]),
    .system (.signedBy alice 6)
      (.delegatebw alice bob ⟨100, inrSymbol⟩ ⟨100, inrSymbol⟩ false)]

/-- The last vote of `bob` is for itself, and `alice` still is a proxy. -/
theorem ballots_replayed_sample : ∃ (es : List Event) (c : Chain),
    Run (Chain.Step sampleEnv) (.genesis sampleEnv) es c ∧
    c.sys.election.chosen bob = (.none, [bob]) ∧
    c.sys.election.standsAsProxy alice = true := by
  have hsample : SampleRun ballotingEvents (fun _ _ => True) := by
    decide +kernel
  obtain ⟨c₀, c₁, c, hbefore, hinit, hafter, _⟩ := hsample.runs
  have hrun := (hbefore.append (.single hinit)).append hafter
  refine ⟨_, c, hrun, ?_, ?_⟩
  · rw [(ballots_replayed hrun bob).1]
    decide
  · rw [(ballots_replayed hrun alice).2.1]
    decide

end Inery
