import IneryContracts.MemorySales
import IneryContracts.RefundSchedule

/-!
# Stake can be withdrawn

Who has staked can take the stake back, in the parts and at the time of its
choice: none of the checks on the way but those on its own stake, its signature
and the vesting ever stops it.  After the delay the refund can be paid, and what
the account gets is what it has taken back.
-/

namespace Inery

open GuardedStep LedgerVector LabelledRun MachineInt

/-- Tokens are transferred to an account. -/
theorem Token.isAccount_of_transfer {ctx : Ctx} {act : Name → Bool}
    {t t' : TokenState} {from' to' : Name} {quantity : Asset} {memo : String}
    (h : Token.transfer ctx act t from' to' quantity memo = .ok t') :
    ctx.isAccount to' = true := by
  simp only [Token.transfer, bind_eq_ok, check_eq_ok, exists_const,
    Ctx.requireAuth_eq_ok] at h
  obtain ⟨_, _, hexists, _⟩ := h
  exact hexists

/-! ## Chains that give stake back -/

namespace Chain

/-- A solvent chain that counts its stakes in the core token, and whose stake
account produces nothing. -/
structure Refunding (c : Chain) : Prop extends Solvent c where
  core : ∀ core, c.sys.market.coreSymbol = .ok core → c.CoreBooks core
  idle : c.sys.getProdActivity stakeAccount = false

theorem refunding_run {env : Env} {es : List Event} {c : Chain}
    (hrun : Run (Step env) (genesis env) es c)
    (hstake : ∀ e ∈ es, ¬ e.TopLevelBy stakeAccount) : c.Refunding where
  toSolvent := (solvent_genesis env).run hrun hstake
  core _ hcore := Reachable.coreBooks ⟨es, hrun⟩ hcore
  idle := hrun.invariant
    (I := fun c => c.sys.getProdActivity stakeAccount = false)
    (fun e => ¬ e.TopLevelBy stakeAccount)
    (fun _ _ _ htop hidle h => (step_activity h htop).trans hidle) hstake rfl

/-- A chain that can give stake back: every vote can be cast again. -/
structure Unstaking (c : Chain) : Prop extends Refunding c where
  votes : c.sys.election.Secure

theorem unstaking_run {env : Env} {es : List Event} {c : Chain}
    (hrun : Run (OwnVoteStep env) (genesis env) es c)
    (hstake : ∀ e ∈ es, ¬ e.TopLevelBy stakeAccount) : c.Unstaking where
  toRefunding := refunding_run (hrun.mono (fun _ => True)
    (fun _ _ _ _ h => h.1) (fun _ _ => trivial)) hstake
  votes := secure_run hrun

/-- What an account needs to take stake back from a receiver. -/
structure CanUnstake (c : Chain) (ctx : Ctx) (from' receiver : Name)
    (net cpu : Asset) : Prop where
  slot : c.slot ≤ ctx.slot
  auth : ctx.HasAuth from'
  core : c.sys.market.coreSymbol = .ok net.symbol
  symbol : cpu.symbol = net.symbol
  nonneg : 0 ≤ net.amount ∧ 0 ≤ cpu.amount
  pos : 0 < net.amount + cpu.amount
  enoughNet : net.amount ≤ (c.sys.delegated from' receiver).1
  enoughCpu : cpu.amount ≤ (c.sys.delegated from' receiver).2
  vested : Election.checkVesting ctx from'
    (c.sys.staked from' - (net.amount + cpu.amount)) = .ok ()

section Unstake

variable {env : Env} {c c' : Chain} {ctx : Ctx} {from' receiver : Name}
  {net cpu : Asset}

/-- Stake can be taken back from the tables where there is some. -/
theorem Unstaking.withdrawable (hc : c.Unstaking) {core : Symbol}
    (hcore : c.sys.market.coreSymbol = .ok core)
    (hsome : c.sys.delegated from' receiver ≠ 0) :
    Withdrawable core c.sys := by
  obtain ⟨_, hrows, _⟩ := hc.core core hcore
  refine ⟨hcore, ?_, hrows, hc.books.stakes, hc.owed_le⟩
  cases hfind : (c.sys.delband from').find receiver with
  | none => exact absurd (view_of_none hfind) hsome
  | some row => exact (hrows.delband from' receiver row hfind).1.2

/-- Where an account can take stake back, the action changes the tables and
sends nothing. -/
private theorem Unstaking.undelegatebw_run (env : Env) (hc : c.Unstaking)
    (hcan : c.CanUnstake ctx from' receiver net cpu) :
    ∃ s', System.undelegatebw env ctx c.sys from' receiver net cpu = .ok s' ∧
      s'.outbox = [] := by
  obtain ⟨n, core⟩ := net
  obtain ⟨m, core'⟩ := cpu
  obtain ⟨_, hauth, hcore, hsame, ⟨hn, hm⟩, hpos, hnet, hcpu, hvested⟩ := hcan
  dsimp only at hcore hsame hn hm hpos hnet hcpu hvested
  subst hsame
  have hsome : c.sys.delegated from' receiver ≠ 0 := by
    intro hzero
    rw [hzero] at hnet hcpu
    have hn' : n ≤ 0 := hnet
    have hm' : m ≤ 0 := hcpu
    omega
  obtain ⟨hsum, hlow, hhigh⟩ := hc.stake_left hn hm hnet hcpu
  obtain ⟨v, hbooked, hv⟩ := System.booked_of_staked
    hc.books.toSettled.staked hsum hlow hhigh
  have hleft : v.staked = c.sys.staked from' - (n + m) := by
    rw [hv, sub_eq_add_neg, neg_add]
    rfl
  rw [← hleft] at hvested
  have hpower : Succeeds (c.sys.election.updateVotingPower env ctx from'
      ⟨-n + -m, core'⟩) :=
    Election.updateVotingPower_succeeds hc.votes hbooked hvested
  obtain ⟨s', hs', hout, _⟩ := System.undelegatebw_back
    (hc.withdrawable hcore hsome) hauth hn hm hpos hnet hcpu hpower
  exact ⟨s', hs', hout.trans hc.books.toSettled.outbox⟩

/-- What taking back asks for is enough. -/
theorem Unstaking.unstakes (env : Env) (hc : c.Unstaking)
    (hcan : c.CanUnstake ctx from' receiver net cpu) :
    Succeeds (exec env c
      (.system ctx (.undelegatebw from' receiver net cpu))) := by
  obtain ⟨s', hs', hout⟩ := hc.undelegatebw_run env hcan
  unfold exec
  refine Succeeds.bind (succeeds_require.mpr hcan.slot) (fun _ _ =>
    Succeeds.bind ?_ (fun _ _ => succeeds_pure))
  refine Succeeds.bind ⟨s', hs'⟩ (fun s hs => ?_)
  cases hs'.symm.trans hs
  rw [hout]
  exact Succeeds.bind succeeds_pure (fun _ _ => succeeds_pure)

/-- What taking back asks for is needed. -/
private theorem Unstaking.canUnstake (hc : c.Unstaking)
    (h : Step env c (.system ctx (.undelegatebw from' receiver net cpu)) c') :
    c.CanUnstake ctx from' receiver net cpu := by
  have hrange := hc.books.toSettled.staked
  have hslot := (step_cases h).1
  obtain ⟨s, happly, hsys⟩ := step_system h
  have hrun : System.undelegatebw env ctx c.sys from' receiver net cpu =
    .ok s := happly
  obtain ⟨_, _, hnet0, hcpu0, hpos, hcall⟩ := System.undelegatebw_calls hrun
  obtain ⟨hauth, hcore, hsame, _, _, ρ, hchange⟩ :=
    System.undelegatebw_ok hrun hrange
  -- the ledger after the action shows what the account had staked before it
  have hnonneg := (hc.books.step h).stakes.delegated_nonneg from' receiver
  rw [hsys, show SysState.delegated { s with outbox := [] } = s.delegated
    from rfl, hchange.delegated] at hnonneg
  simp only [Pi.add_apply, cell_apply, if_true, and_self] at hnonneg
  have hleft₁ : 0 ≤ (c.sys.delegated from' receiver).1 + -net.amount :=
    hnonneg.1
  have hleft₂ : 0 ≤ (c.sys.delegated from' receiver).2 + -cpu.amount :=
    hnonneg.2
  have hnet : net.amount ≤ (c.sys.delegated from' receiver).1 := by omega
  have hcpu : cpu.amount ≤ (c.sys.delegated from' receiver).2 := by omega
  obtain ⟨hsum, _⟩ := hc.stake_left hnet0 hcpu0 hnet hcpu
  have hsome : cpu.amount + net.amount ≠ 0 := by
    intro hzero
    rw [hzero] at hpos
    exact absurd hpos (by decide)
  obtain ⟨v, hbooked, hvested⟩ :=
    System.vested_of_power (System.changebw_power hcall).2
  have hv : v.staked = c.sys.staked from' - (net.amount + cpu.amount) := by
    rw [hbooked.staked_eq hrange hsum, sub_eq_add_neg, neg_add]
    rfl
  rw [hv] at hvested
  exact ⟨hslot, hauth, hcore, hsame, ⟨hnet0, hcpu0⟩, by omega, hnet, hcpu,
    hvested⟩

/-- Nothing is paid for stake that is taken back. -/
theorem Unstaking.token_unstaked (hc : c.Unstaking)
    (h : Step env c (.system ctx (.undelegatebw from' receiver net cpu)) c') :
    c'.token = c.token := by
  obtain ⟨s', hs', hout⟩ := hc.undelegatebw_run env (hc.canUnstake h)
  obtain ⟨s, happly, htoken, _⟩ := step_apply h
  obtain rfl : s' = s := Except.ok.inj (hs'.symm.trans happly)
  rw [hout, List.foldlM_nil, pure_eq_ok] at htoken
  exact htoken.symm

/-- What is taken back leaves the ledger of stakes. -/
theorem Unstaking.delegated_unstaked (hc : c.Unstaking)
    (h : Step env c (.system ctx (.undelegatebw from' receiver net cpu)) c') :
    c'.sys.delegated = c.sys.delegated +
      cell from' receiver (-net.amount, -cpu.amount) := by
  obtain ⟨s, happly, hsys⟩ := step_system h
  obtain ⟨_, _, _, _, _, ρ, hchange⟩ :=
    System.undelegatebw_ok happly hc.books.toSettled.staked
  rw [hsys]
  exact hchange.delegated

/-- Nothing is bought or sold. -/
theorem Unstaking.market_unstaked (hc : c.Unstaking)
    (h : Step env c (.system ctx (.undelegatebw from' receiver net cpu)) c') :
    c'.sys.market = c.sys.market := by
  obtain ⟨s, happly, hsys⟩ := step_system h
  obtain ⟨_, _, _, _, _, ρ, hchange⟩ :=
    System.undelegatebw_ok happly hc.books.toSettled.staked
  rw [hsys]
  exact hchange.market

/-- What is taken back waits as a refund. -/
private theorem Unstaking.refunded_unstaked (hc : c.Unstaking)
    (hstake : from' ≠ stakeAccount)
    (h : Step env c (.system ctx (.undelegatebw from' receiver net cpu)) c') :
    weight (c'.sys.refunded from') =
      weight (c.sys.refunded from') + (net.amount + cpu.amount) := by
  have hrange := hc.books.toSettled.staked
  obtain ⟨s, happly, hsys⟩ := step_system h
  obtain ⟨_, hcore, _, _, _, ρ, hchange⟩ :=
    System.undelegatebw_ok happly hrange
  -- the account holds what it held, and nothing of it has moved
  have hholding := hc.books.holding_staking (e := .system ctx
    (.undelegatebw from' receiver net cpu)) trivial h hstake
  have hliquid : c'.liquid = c.liquid := by
    rw [liquid, liquid, hc.market_unstaked h, hc.token_unstaked h]
  have hstaker : c'.sys.staker from' =
      c.sys.staker from' - (net.amount + cpu.amount) := by
    unfold SysState.staker
    rw [hc.delegated_unstaked h, rowTotals_add_cell, Pi.add_apply, weight_add,
      Pi.single_eq_same]
    simp only [weight]
    ring
  simp only [holding, hliquid, SysState.owed_eq, Pi.add_apply, hstaker,
    Event.gift, Pi.zero_apply] at hholding
  omega

end Unstake

/-- What an account needs to be paid a refund: that it signs, after the delay,
that it may take tokens, and that the stake account has a row of `INR`. -/
structure CanRefund (c : Chain) (ctx : Ctx) (o : Name) (row : RefundRequest) :
    Prop where
  slot : c.slot ≤ ctx.slot
  auth : ctx.HasAuth o
  taker : ctx.isAccount o = true ∧ o ≠ accountCreator
  due : (row.requestTime + refundDelaySec) * 1000000 ≤ ctx.currentTimePoint
  inr : (c.token.accountOf stakeAccount inrCode).isSome

section Refund

variable {env : Env} {c c' : Chain} {ctx : Ctx} {o : Name}
  {row : RefundRequest}

/-- The stake account waits for no refund. -/
theorem Refunding.ne_stake (hc : c.Refunding)
    (hrow : c.sys.refunds.find o = some row) : o ≠ stakeAccount := by
  rintro rfl
  have hzero := hc.refunded
  rw [SysState.refunded, view_of_find hrow] at hzero
  obtain ⟨hpos, _⟩ := hc.refund_covered hrow
  have hnet : row.netAmount.amount = 0 := congrArg Prod.fst hzero
  have hcpu : row.cpuAmount.amount = 0 := congrArg Prod.snd hzero
  omega

/-- A pending refund is counted in the core token, with no overflow. -/
theorem Refunding.row_in (hc : c.Refunding)
    (hrow : c.sys.refunds.find o = some row) :
    c.sys.market.coreSymbol = .ok row.netAmount.symbol ∧
    row.cpuAmount.symbol = row.netAmount.symbol ∧
    row.netAmount.symbol.isValid = true ∧
    Asset.InRange (row.netAmount.amount + row.cpuAmount.amount) := by
  have hcore := (hc.books.stakes.refunds o row hrow).2.2
  obtain ⟨_, hrows, _⟩ := hc.core _ hcore
  obtain ⟨⟨_, hvalid⟩, hsym, _⟩ := hrows.refunds o row hrow
  obtain ⟨hpos, hle⟩ := hc.refund_covered hrow
  have hmax := hc.books.token.le_max row.netAmount.symbol.code stakeAccount
  refine ⟨hcore, hsym, hvalid, ?_⟩
  unfold Asset.InRange Asset.maxAmount at *
  omega

/-- The refund itself, which sends the payment. -/
private theorem Refunding.refund_run (hc : c.Refunding)
    (hrow : c.sys.refunds.find o = some row) (hauth : ctx.HasAuth o)
    (hdue : (row.requestTime + refundDelaySec) * 1000000 ≤
      ctx.currentTimePoint) :
    ∃ s', System.refund ctx c.sys o = .ok s' ∧
      s'.outbox = [⟨[⟨stakeAccount, activePermission⟩, ⟨o, activePermission⟩],
        .transfer stakeAccount o
          ⟨row.netAmount.amount + row.cpuAmount.amount,
            row.netAmount.symbol⟩ "unstake"⟩] ∧
      s'.accountsact = c.sys.accountsact ∧ s'.market = c.sys.market ∧
      s'.refunds = c.sys.refunds.erase o := by
  obtain ⟨_, hsym, _, hrange⟩ := hc.row_in hrow
  refine ⟨_, System.refund_eq hauth hrow hdue hsym hrange, ?_, rfl, rfl,
    rfl⟩
  show c.sys.outbox ++ _ = _
  rw [hc.books.toSettled.outbox, List.nil_append]

/-- What a refund asks for is enough. -/
theorem Refunding.refunds (env : Env) (hc : c.Refunding)
    (hrow : c.sys.refunds.find o = some row)
    (hcan : c.CanRefund ctx o row) :
    Succeeds (exec env c (.system ctx (.refund o))) := by
  obtain ⟨hcore, _, hvalid, _⟩ := hc.row_in hrow
  obtain ⟨st, hst, hsymbol⟩ := (hc.core _ hcore).stat
  obtain ⟨hpos, hle⟩ := hc.refund_covered hrow
  obtain ⟨s', hs', hout, hact, _⟩ := hc.refund_run hrow hcan.auth hcan.due
  have hidle : s'.getProdActivity stakeAccount = false := by
    have hsame := hc.idle
    unfold SysState.getProdActivity at *
    rwa [hact]
  obtain ⟨token, htoken⟩ : Succeeds (Token.transfer { ctx with auths :=
      [⟨stakeAccount, activePermission⟩, ⟨o, activePermission⟩] }
      s'.getProdActivity c.token stakeAccount o
      ⟨row.netAmount.amount + row.cpuAmount.amount, row.netAmount.symbol⟩
      "unstake") :=
    Token.succeeds_transfer hc.books.token (hc.ne_stake hrow).symm
      ⟨_, List.mem_cons_self, rfl⟩ hcan.taker.1 hcan.taker.2 hst hsymbol.symm
      hvalid hpos hle hcan.inr
      (fun h => absurd (h.symm.trans hidle) (by decide)) (by decide)
  have hrun : s'.outbox.foldlM (runInline ctx s') c.token = .ok token := by
    rw [hout, List.foldlM_cons, bind_eq_ok]
    exact ⟨token, htoken, rfl⟩
  unfold exec
  refine Succeeds.bind (succeeds_require.mpr hcan.slot) (fun _ _ =>
    Succeeds.bind ?_ (fun _ _ => succeeds_pure))
  refine Succeeds.bind ⟨s', hs'⟩ (fun s hs => ?_)
  cases hs'.symm.trans hs
  exact Succeeds.bind ⟨token, hrun⟩ (fun _ _ => succeeds_pure)

/-- What a refund does, and what it needs for that. -/
theorem Refunding.refunds_ok (hc : c.Refunding)
    (h : Step env c (.system ctx (.refund o)) c') :
    ∃ row, c.sys.refunds.find o = some row ∧ c.CanRefund ctx o row ∧
      c'.sys.refunds.find o = none ∧
      c'.liquid = c.liquid + payment stakeAccount o
        (row.netAmount.amount + row.cpuAmount.amount) := by
  have hslot := (step_cases h).1
  obtain ⟨s, happly, htoken, hsys⟩ := step_apply h
  have hrefund : System.refund ctx c.sys o = .ok s := happly
  obtain ⟨hauth, row, hrow, _, hdue, _⟩ := System.refund_ok hrefund
  obtain ⟨s', hs', hout, _, hmarket, hrefunds⟩ :=
    hc.refund_run hrow hauth hdue
  obtain rfl : s' = s := Except.ok.inj (hs'.symm.trans hrefund)
  obtain ⟨hcore, _⟩ := hc.row_in hrow
  rw [hout, List.foldlM_cons, bind_eq_ok] at htoken
  obtain ⟨token, htransfer, hlast⟩ := htoken
  obtain rfl : token = c'.token := Except.ok.inj hlast
  have htransfer : Token.transfer { ctx with auths :=
      [⟨stakeAccount, activePermission⟩, ⟨o, activePermission⟩] }
      s'.getProdActivity c.token stakeAccount o
      ⟨row.netAmount.amount + row.cpuAmount.amount, row.netAmount.symbol⟩
      "unstake" = .ok c'.token := htransfer
  have htaker := Token.isAccount_of_transfer htransfer
  refine ⟨row, hrow, ⟨hslot, hauth, ⟨htaker,
    (Token.transfer_ok htransfer).2.2.1⟩, hdue,
    Token.isSome_inr_of_transfer htransfer⟩, ?_, ?_⟩
  · rw [hsys]
    show s'.refunds.find o = none
    rw [hrefunds, KeyedTable.find_erase, if_pos rfl]
  · have hcore' : c'.sys.market.coreSymbol = .ok row.netAmount.symbol := by
      rw [hsys]
      show s'.market.coreSymbol = _
      rw [hmarket, hcore]
    rw [liquid_of_core hcore, liquid_of_core hcore',
      balances_transfer htransfer, if_pos rfl, payment]
    abel
end Refund

end Chain

/-! ## Taking stake back -/

/-- **Who can take stake back.**  In every run in which the stake account signs
nothing itself, and in which no vote for somebody else is cast with a negative
weight, stake can be taken back from a receiver if and only if the owner signs,
asks for core tokens that it has staked there, of which there is at least one,
and keeps what is not vested yet.  Nothing is paid at once: what is taken back
waits as a refund. -/
theorem stake_withdrawable_iff {env : Env} {es : List Event} {c : Chain}
    {ctx : Ctx} {from' receiver : Name} {net cpu : Asset}
    (hrun : Run (Chain.OwnVoteStep env) (.genesis env) es c)
    (hstake : ∀ e ∈ es, ¬ e.TopLevelBy stakeAccount) :
    (Succeeds (Chain.exec env c
        (.system ctx (.undelegatebw from' receiver net cpu))) ↔
      c.CanUnstake ctx from' receiver net cpu) ∧
    ∀ c', Chain.Step env c
        (.system ctx (.undelegatebw from' receiver net cpu)) c' →
      c'.token = c.token ∧
      (from' ≠ stakeAccount → weight (c'.sys.refunded from') =
        weight (c.sys.refunded from') + (net.amount + cpu.amount)) := by
  have hc := Chain.unstaking_run hrun hstake
  refine ⟨⟨?_, hc.unstakes env⟩, fun c' h =>
    ⟨hc.token_unstaked h, fun hne => hc.refunded_unstaked hne h⟩⟩
  rintro ⟨c', hstep⟩
  exact hc.canUnstake hstep

/-- The stake account signs nothing where alice stakes and unstakes. -/
theorem unsigned_refunding : ∀ e ∈ openingEvents ++
    [.system (.signedBy systemAccount 1) (.init 0 inrSymbol)] ++
      refundingEvents, ¬ e.TopLevelBy stakeAccount := by
  simp only [openingEvents, refundingEvents, List.cons_append,
    List.nil_append, List.forall_mem_cons, List.not_mem_nil,
    IsEmpty.forall_iff, implies_true, and_true, Event.TopLevelBy]
  decide

/-- Alice takes back what she still has staked. -/
theorem stake_withdrawable_sample : ∃ c : Chain,
    c.sys.delegated alice alice = (400, 100) ∧
    Succeeds (Chain.exec sampleEnv c (.system (.signedBy alice 6)
      (.undelegatebw alice alice ⟨400, inrSymbol⟩ ⟨100, inrSymbol⟩))) := by
  have hsample : SampleRun refundingEvents (fun _ c =>
      c.slot = 5 ∧ c.sys.delegated alice alice = (400, 100) ∧
      c.sys.market.coreSymbol = .ok inrSymbol) := by
    decide +kernel
  obtain ⟨c₀, c₁, c, hbefore, hinit, hafter, hslot, hdelegated, hcore⟩ :=
    hsample.runs
  have hown : ∀ c e c', e ∈ openingEvents ++
        [.system (.signedBy systemAccount 1) (.init 0 inrSymbol)] ++
        refundingEvents →
      Chain.Step sampleEnv c e c' → Chain.OwnVoteStep sampleEnv c e c' := by
    intro c e c' he hstep
    refine ⟨hstep, ?_⟩
    simp only [openingEvents, refundingEvents, List.cons_append,
      List.nil_append, List.mem_cons, List.not_mem_nil, or_false] at he
    rcases he with rfl | rfl | rfl | rfl | rfl | rfl | rfl <;> trivial
  have hrun := ((hbefore.append (.single hinit)).append hafter).mono _
    hown (fun _ he => he)
  refine ⟨c, hdelegated, ?_⟩
  refine (stake_withdrawable_iff hrun unsigned_refunding).1.mpr
    { slot := by rw [hslot]; decide
      auth := ⟨_, List.mem_cons_self, rfl⟩
      core := hcore
      symbol := rfl
      nonneg := by decide
      pos := by decide
      enoughNet := by rw [hdelegated]
      enoughCpu := by rw [hdelegated]
      vested := rfl }

/-- **Who is paid a refund.**  In every run in which the stake account signs
nothing itself, an account is paid if and only if it has a pending refund that
is due, signs for it and can take tokens.  It gets all of what it took back,
and the refund is gone. -/
theorem refund_paid_iff {env : Env} {es : List Event} {c : Chain} {ctx : Ctx}
    {o : Name}
    (hrun : Run (Chain.Step env) (.genesis env) es c)
    (hstake : ∀ e ∈ es, ¬ e.TopLevelBy stakeAccount) :
    (Succeeds (Chain.exec env c (.system ctx (.refund o))) ↔
      ∃ row, c.sys.refunds.find o = some row ∧ c.CanRefund ctx o row) ∧
    ∀ c', Chain.Step env c (.system ctx (.refund o)) c' →
      c'.sys.refunds.find o = none ∧
      c'.liquid = c.liquid +
        payment stakeAccount o (weight (c.sys.refunded o)) := by
  have hc := Chain.refunding_run hrun hstake
  refine ⟨⟨?_, ?_⟩, ?_⟩
  · rintro ⟨c', hstep⟩
    obtain ⟨row, hrow, hcan, _⟩ := hc.refunds_ok hstep
    exact ⟨row, hrow, hcan⟩
  · rintro ⟨row, hrow, hcan⟩
    exact hc.refunds env hrow hcan
  · intro c' hstep
    obtain ⟨row, hrow, _, hgone, hpaid⟩ := hc.refunds_ok hstep
    rw [SysState.refunded, view_of_find hrow]
    exact ⟨hgone, hpaid⟩

/-- After three days alice is paid her refund of 500 units. -/
theorem refund_paid_sample : ∃ c : Chain,
    weight (c.sys.refunded alice) = 500 ∧
    Succeeds (Chain.exec sampleEnv c
      (.system (.signedBy alice 518405) (.refund alice))) := by
  have hsample : SampleRun refundingEvents (fun _ c =>
      c.slot = 5 ∧ c.sys.refunded alice = (300, 200) ∧
      (c.sys.refunds.find alice).any (fun row =>
        (row.requestTime + refundDelaySec) * 1000000 ≤
          (Ctx.signedBy alice 518405).currentTimePoint) = true ∧
      (c.token.accountOf stakeAccount inrCode).isSome = true) := by
    decide +kernel
  obtain ⟨c₀, c₁, c, hbefore, hinit, hafter, hslot, hrefunded, hdue, hinr⟩ :=
    hsample.runs
  obtain ⟨row, hrow, hdue⟩ := (Option.any_eq_true _ _).mp hdue
  have hrun := (hbefore.append (.single hinit)).append hafter
  refine ⟨c, by rw [hrefunded]; rfl, ?_⟩
  refine (refund_paid_iff hrun unsigned_refunding).1.mpr ⟨row, hrow,
    { slot := by rw [hslot]; decide
      auth := ⟨_, List.mem_cons_self, rfl⟩
      taker := ⟨rfl, by decide⟩
      due := of_decide_eq_true hdue
      inr := hinr }⟩

end Inery
