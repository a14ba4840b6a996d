import IneryContracts.ActionFrames
import IneryContracts.VoteCasting

/-!
# What the actions do to the votes

Seen from the election, every action of the system contract is a short list of
polls: it casts a vote, moves a stake, registers a proxy, sets a flag of an
account, or does none of these and leaves the votes as they are.  What holds
along polls therefore holds along whole runs of both contracts.
-/

namespace Inery

open GuardedStep LedgerVector LabelledRun MachineInt

/-- What an action does to the votes, one function of the source at a time. -/
inductive Poll
  | other
  | flag (account : Name)
  | stake (owner : Name) (total : Asset)
  | vote (voter proxy : Name) (producers : List Name)
  | proxy (x : Name) (isproxy : Bool)

namespace Election

/-- One poll leads from `e` to `e'`. -/
def PollStep (env : Env) (ctx : Ctx) (e : Election) : Poll → Election → Prop
  | .other, e' => SameVotes e e'
  | .flag account, e' =>
      ∃ field value, System.setManaged e account field value = .ok e'
  | .stake owner total, e' => e.updateVotingPower env ctx owner total = .ok e'
  | .vote voter proxy producers, e' =>
      (e.producers.find voter).isSome ∧
        e.updateVotes env ctx voter proxy producers true = .ok e'
  | .proxy x isproxy, e' => e.regproxy env ctx x isproxy = .ok e'

end Election

/-- The polls are one change of the stake of `owner` by an amount in `P`. -/
def Stakes (P : ℤ → Prop) (owner : Name) (ps : List Poll) : Prop :=
  ∃ total : Asset, Asset.InRange total.amount ∧ P total.amount ∧
    ps = [.stake owner total]

/-- The polls of an action. -/
def SysAction.Polls : SysAction → List Poll → Prop
  | setacctmem account _, ps => ps = [.flag account]
  | setacctnet account _, ps => ps = [.flag account]
  | setacctcpu account _, ps => ps = [.flag account]
  | delegatebw from' receiver _ _ transfer, ps =>
      Stakes (0 ≤ ·) (if transfer then receiver else from') ps
  | undelegatebw from' _ _ _, ps => Stakes (· ≤ 0) from' ps
  | buyresources payer _ _, ps => Stakes (0 ≤ ·) payer ps
  | buymembytes payer _ _, ps =>
      ∃ ps₁ ps₂, Stakes (0 ≤ ·) payer ps₁ ∧ Stakes (0 ≤ ·) payer ps₂ ∧
        ps = ps₁ ++ ps₂
  | sellres account _, ps => Stakes (· ≤ 0) account ps
  | makeprod voter proxy producers, ps =>
      ps = [.other, .vote voter proxy producers]
  | regproxy x isproxy, ps => ps = [.proxy x isproxy]
  | _, ps => ps = [.other]

/-- Only `makeprod` casts a vote. -/
theorem SysAction.Polls.no_vote {a : SysAction} {ps : List Poll}
    (h : a.Polls ps) (ha : ∀ k x l, a ≠ .makeprod k x l) :
    ∀ p ∈ ps, ∀ k x l, p ≠ .vote k x l := by
  have hstake : ∀ {P owner qs}, Stakes P owner qs →
      ∀ p ∈ qs, ∀ k x l, p ≠ .vote k x l := by
    rintro P owner qs ⟨total, _, _, rfl⟩ p hp k x l
    rw [List.mem_singleton.mp hp]
    simp
  have hsingle : ∀ {q : Poll}, (∀ k x l, q ≠ .vote k x l) → ps = [q] →
      ∀ p ∈ ps, ∀ k x l, p ≠ .vote k x l := by
    rintro q hq rfl p hp
    rw [List.mem_singleton.mp hp]
    exact hq
  cases a with
  | makeprod voter proxy producers => exact absurd rfl (ha _ _ _)
  | delegatebw from' receiver net cpu transfer => exact hstake h
  | undelegatebw from' receiver net cpu => exact hstake (P := (· ≤ 0)) h
  | buyresources payer receiver quant => exact hstake h
  | sellres account bytes => exact hstake (P := (· ≤ 0)) h
  | buymembytes payer receiver bytes =>
      obtain ⟨ps₁, ps₂, h₁, h₂, rfl⟩ := h
      intro p hp
      rcases List.mem_append.mp hp with hp | hp
      · exact hstake h₁ p hp
      · exact hstake h₂ p hp
  | regproxy x isproxy => exact hsingle (by simp) h
  | setacctmem _ _ | setacctnet _ _ | setacctcpu _ _ | init _ _ | onblock _ _
  | setalimits _ _ _ _ | refund _ | regproducer _ _ _ _
  | regproducer2 _ _ _ _ | unregprod _ | setmem _ | setmemrate _
  | setparams _ | claimrewards _ | rmvproducer _ | setinflation _ _ _
  | newaccount _ _ | setabi _ _ | privileged => exact hsingle (by simp) h

/-- The polls of an event. -/
def Event.Polls : Event → List Poll → Prop
  | .system _ a, ps => a.Polls ps
  | _, ps => ps = [.other]

namespace System

open Election

variable {env : Env} {ctx : Ctx} {t : TokenState} {s s' : SysState}

/-- What a change of stake writes, and the change of the voting power in it. -/
theorem changebw_form {from' receiver : Name} {dn dc : Asset}
    {transfer : Bool}
    (h : changebw env ctx s from' receiver dn dc transfer = .ok s') :
    ∃ delband userres limits refunds deferred outbox election,
      Asset.InRange (dn.amount + dc.amount) ∧
      s.election.updateVotingPower env ctx
        (if transfer then receiver else from')
        { dn with amount := dn.amount + dc.amount } = .ok election ∧
      s' = { s with
        delband, userres, limits, refunds, deferred, outbox, election } := by
  obtain ⟨_, _, _, hrange, delTbl, userres, tot, s₁, election, _, _, hsettle,
    hpower, rfl⟩ := changebw_parts rfl h
  obtain ⟨limits, hlimits⟩ := updateLimits_ok
    { s with
      delband := Function.update s.delband (if transfer then receiver
        else from') delTbl
      userres } receiver tot
  obtain ⟨refunds, deferred, outbox, rfl⟩ := settleRefund_form hsettle
  rw [hlimits] at hpower ⊢
  exact ⟨_, _, _, _, _, _, _, hrange, hpower, rfl⟩

/-- The poll of `changebw` is the change of the stake. -/
theorem changebw_power {from' receiver : Name} {dn dc : Asset}
    {transfer : Bool}
    (h : changebw env ctx s from' receiver dn dc transfer = .ok s') :
    Asset.InRange (dn.amount + dc.amount) ∧
    s.election.updateVotingPower env ctx (if transfer then receiver else from')
      { dn with amount := dn.amount + dc.amount } = .ok s'.election := by
  obtain ⟨_, _, _, _, _, _, _, hrange, hpower, rfl⟩ := changebw_form h
  exact ⟨hrange, hpower⟩

theorem limitTraded_election (s : SysState) (row : UserResources) :
    (limitTraded s row).election = s.election := by
  obtain ⟨limits, h⟩ := limitTraded_ok s row
  rw [h]

/-- Staking holds the polls of stakes that do not fall. -/
theorem delegatebw_polls {from' receiver : Name} {net cpu : Asset}
    {transfer : Bool}
    (h : delegatebw env ctx s from' receiver net cpu transfer = .ok s') :
    ∃ ps, Stakes (0 ≤ ·) (if transfer then receiver else from') ps ∧
      Run (PollStep env ctx) s.election ps s'.election := by
  obtain ⟨_, _, hnet, hcpu, _, hchange⟩ := delegatebw_calls h
  obtain ⟨hrange, hpower⟩ := changebw_power hchange
  exact ⟨_, ⟨_, hrange, add_nonneg hnet hcpu, rfl⟩, Run.single hpower⟩

/-- Unstaking holds the polls of stakes that do not rise. -/
theorem undelegatebw_polls {from' receiver : Name} {net cpu : Asset}
    (h : undelegatebw env ctx s from' receiver net cpu = .ok s') :
    ∃ ps, Stakes (· ≤ 0) from' ps ∧
      Run (PollStep env ctx) s.election ps s'.election := by
  obtain ⟨_, _, hnet, hcpu, _, hchange⟩ := undelegatebw_calls h
  obtain ⟨hrange, hpower⟩ := changebw_power hchange
  refine ⟨_, ⟨_, hrange, ?_, rfl⟩, Run.single hpower⟩
  change -net.amount + -cpu.amount ≤ 0
  omega

/-- A purchase holds the polls of stakes that do not fall. -/
theorem buyresources_polls {payer receiver : Name} {quant : Asset}
    (h : buyresources env ctx s payer receiver quant = .ok s') :
    ∃ ps, Stakes (0 ≤ ·) payer ps ∧
      Run (PollStep env ctx) s.election ps s'.election := by
  obtain ⟨_, _, _, _, _, _, res, _, s₁, _, _, _, _, _, hdel, rfl⟩ :=
    buyresources_calls h
  rw [limitTraded_election]
  exact delegatebw_polls hdel

/-- Registering a producer moves no votes. -/
theorem registerProducer_votes {producer : Name}
    {auth : BlockSigningAuthority} {url : String} {location : UInt16}
    (h : registerProducer ctx s producer auth url location = .ok s') :
    s.election.SameVotes s'.election := by
  obtain ⟨election, row, hrows, _, _, rfl⟩ := registerProducer_ok h
  exact (registerRows_ok hrows).1

/-- **What an action does to the votes.** -/
theorem apply_polls {a : SysAction} (h : apply env ctx t s a = .ok s') :
    ∃ ps, a.Polls ps ∧ Run (PollStep env ctx) s.election ps s'.election := by
  have hother : s.election.SameVotes s'.election → a.Polls [.other] →
      ∃ ps, a.Polls ps ∧ Run (PollStep env ctx) s.election ps s'.election :=
    fun hsame ha => ⟨_, ha, Run.single hsame⟩
  have hlimit : ∀ {k}, a.SetsOneLimit k →
      Run (PollStep env ctx) s.election [.flag k] s'.election := by
    intro k hk
    obtain ⟨field, value, _, _, hflag, rfl⟩ := apply_setsOneLimit hk h
    exact Run.single ⟨field, value, hflag⟩
  have hoff : a.OffElection → s.election.SameVotes s'.election := by
    intro ha
    rw [(apply_offElection ha h).1.election]
    exact .refl _
  cases a with
  | onblock timestamp producer =>
      obtain ⟨_, _, _, _, _, rfl, hsame⟩ := onblock_ok h
      exact hother (.producers hsame registration_totalVotes) rfl
  | setacctmem account limit => exact ⟨_, rfl, hlimit rfl⟩
  | setacctnet account limit => exact ⟨_, rfl, hlimit rfl⟩
  | setacctcpu account limit => exact ⟨_, rfl, hlimit rfl⟩
  | delegatebw from' receiver net cpu transfer => exact delegatebw_polls h
  | undelegatebw from' receiver net cpu => exact undelegatebw_polls h
  | buyresources payer receiver quant => exact buyresources_polls h
  | buymembytes payer receiver bytes =>
      obtain ⟨_, _, _, _, hbuy, hdel⟩ := buymembytes_ok h
      obtain ⟨ps₁, hstake₁, hrun₁⟩ := buyresources_polls hbuy
      obtain ⟨ps₂, hstake₂, hrun₂⟩ := delegatebw_polls hdel
      exact ⟨_, ⟨ps₁, ps₂, hstake₁, hstake₂, rfl⟩, hrun₁.append hrun₂⟩
  | sellres account bytes =>
      obtain ⟨_, _, _, _, _, _, s₁, _, _, _, _, _, hund, rfl⟩ :=
        sellres_calls h
      obtain ⟨ps, hps, hrun⟩ := undelegatebw_polls hund
      refine ⟨ps, hps, ?_⟩
      rw [SysState.send, limitTraded_election]
      exact hrun
  | regproducer producer key url location =>
      simp only [apply, regproducer, bind_eq_ok] at h
      obtain ⟨_, _, _, _, h⟩ := h
      exact hother (registerProducer_votes h) rfl
  | regproducer2 producer auth url location =>
      simp only [apply, regproducer2, bind_eq_ok] at h
      obtain ⟨_, _, _, _, _, _, h⟩ := h
      exact hother (registerProducer_votes h) rfl
  | unregprod producer =>
      obtain ⟨_, row, _, hk, _, rfl, _, _, old, hold, hvotes⟩ :=
        unregprod_ok h
      refine hother (.put hk ?_) rfl
      rw [hvotes, view_of_find hold]
  | makeprod voter proxy producers =>
      obtain ⟨_, _, row, election, _, _, hrow, hvotes, rfl, _, _, hk⟩ :=
        makeprod_ok h
      have hmarked : s.election.SameVotes { s.election with
          producers := s.election.producers.put
            { row with isProducer := true } } :=
        .put hk (view_of_find (f := ProducerInfo.totalVotes) hrow).symm
      exact ⟨_, rfl, (Run.single (e := Poll.other) hmarked).append
        (Run.single (e := Poll.vote voter proxy producers)
          ⟨hmarked.rows voter (Option.isSome_of_mem hrow), hvotes⟩)⟩
  | regproxy proxy isproxy =>
      simp only [apply, System.regproxy, bind_eq_ok, pure_eq_ok] at h
      obtain ⟨election, hreg, rfl⟩ := h
      exact ⟨_, rfl, Run.single hreg⟩
  | claimrewards owner =>
      obtain ⟨_, _, _, _, _, _, hsame⟩ := claimrewards_ok h
      exact hother hsame rfl
  | rmvproducer producer =>
      obtain ⟨row, hk, _, rfl, old, hold, hvotes⟩ := rmvproducer_ok h
      refine hother (.put hk ?_) rfl
      rw [hvotes, view_of_find hold]
  | _ => exact hother (hoff trivial) rfl

end System

namespace Chain

open Election

/-- **What an event does to the votes.** -/
theorem step_polls {env : Env} {c c' : Chain} {e : Event}
    (h : Step env c e c') :
    ∃ ps, e.Polls ps ∧
      Run (PollStep env e.ctx) c.sys.election ps c'.sys.election := by
  obtain ⟨_, _, ⟨ctx, a, rfl, hsys, _⟩ | ⟨ctx, a, s, rfl, happly, _, hsys⟩ |
    ⟨slot, isAccount, owner, rfl, ⟨s, happly, _, hsys⟩ | ⟨_, hsys⟩⟩⟩ :=
    step_cases h
  · rw [hsys]
    exact ⟨_, rfl, Run.single (SameVotes.refl _)⟩
  · obtain ⟨ps, hps, hrun⟩ := System.apply_polls happly
    rw [hsys]
    exact ⟨ps, hps, hrun⟩
  · obtain ⟨_, _, _, _, _, rfl⟩ := System.refund_ok happly
    rw [hsys]
    exact ⟨_, rfl, Run.single (SameVotes.refl _)⟩
  · rw [hsys]
    exact ⟨_, rfl, Run.single (SameVotes.refl _)⟩

end Chain

end Inery
