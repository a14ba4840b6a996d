import IneryContracts.StakeBooking
import IneryContracts.StakeSolvency

/-!
# When stake can be taken back

What is taken back leaves the row of the owner and the totals of the receiver
and waits as a refund, which takes it up in full.  All three tables can hold
the change where the stake covers it, since no account is owed more than the
stake account has; so only the vote can stop it.
-/

namespace Inery

open GuardedStep LedgerVector MachineInt

/-! ## What there is to take back -/

/-- Tables in which stake can be taken back: they are counted in the core token
and agree with each other, and what is owed is an amount that can be. -/
structure Withdrawable (core : Symbol) (s : SysState) : Prop where
  coreSymbol : s.market.coreSymbol = .ok core
  valid : core.isValid = true
  rows : Denominated core s
  ledger : StakeLedger s
  owed : total s.owed ≤ Asset.maxAmount

section Bounds

variable {core : Symbol} {s : SysState} {a : Name}

/-- A stake is part of what its owner votes with. -/
theorem StakeLedger.delegated_le_staker (h : StakeLedger s) (a k : Name) :
    weight (s.delegated a k) ≤ s.staker a := by
  have hle := Finset.single_le_sum (f := fun k => weight (s.delegated a k))
    (fun k _ => weight_nonneg (h.delegated_nonneg a k)) (Finset.mem_univ k)
  refine hle.trans_eq ?_
  rw [SysState.staker, rowTotals]
  simp only [weight, Prod.fst_sum, Prod.snd_sum, Finset.sum_add_distrib]

/-- A stake and the refund of its owner are part of what is owed to it. -/
theorem StakeLedger.delegated_add_refunded_le (h : StakeLedger s)
    (a k : Name) :
    weight (s.delegated a k) + weight (s.refunded a) ≤ s.owed a := by
  have hstake := h.delegated_le_staker a k
  rw [SysState.owed_eq, Pi.add_apply]
  omega

theorem StakeLedger.owed_nonneg (h : StakeLedger s) (a : Name) :
    0 ≤ s.owed a := by
  rw [SysState.owed_eq]
  exact add_nonneg (h.staker_nonneg a) (weight_nonneg (h.refunded_nonneg a))

/-- What is staked for a receiver is owed to somebody. -/
theorem StakeLedger.totals_le (h : StakeLedger s) (k : Name) :
    (s.totals k).1 ≤ total s.owed ∧ (s.totals k).2 ≤ total s.owed := by
  have hle : ∀ f, (s.delegated f k).1 ≤ s.owed f ∧
      (s.delegated f k).2 ≤ s.owed f := by
    intro f
    have howed := h.delegated_add_refunded_le f k
    have hrefund := weight_nonneg (h.refunded_nonneg f)
    have hnonneg := h.delegated_nonneg f k
    have h₁ : 0 ≤ (s.delegated f k).1 := hnonneg.1
    have h₂ : 0 ≤ (s.delegated f k).2 := hnonneg.2
    unfold weight at howed hrefund
    omega
  rw [h.totals, colTotals, Prod.fst_sum, Prod.snd_sum]
  exact ⟨Finset.sum_le_sum (fun f _ => (hle f).1),
    Finset.sum_le_sum (fun f _ => (hle f).2)⟩

end Bounds

/-! ## Taking it back -/

namespace System

section Unstake

variable {env : Env} {ctx : Ctx} {s : SysState} {core : Symbol}
  {from' receiver : Name} {n m : ℤ}

/-- What is left where there is enough. -/
theorem bookable_sub {x : ℤ × ℤ} (hn : 0 ≤ n) (hm : 0 ≤ m) (hnet : n ≤ x.1)
    (hcpu : m ≤ x.2) (hmax : x.1 ≤ Asset.maxAmount ∧ x.2 ≤ Asset.maxAmount) :
    Bookable (x + (-n, -m)) := by
  refine ⟨⟨?_, ?_⟩, ?_, ?_⟩
  · show 0 ≤ x.1 + -n
    omega
  · show 0 ≤ x.2 + -m
    omega
  · show x.1 + -n ≤ Asset.maxAmount
    omega
  · show x.2 + -m ≤ Asset.maxAmount
    omega

/-- A refund takes up what is taken back, be it nothing. -/
theorem reuseRefund_back {amount : Asset} (hn : 0 ≤ n)
    (hsym : amount.symbol = core) (hnonneg : 0 ≤ amount.amount)
    (hmax : amount.amount + n ≤ Asset.maxAmount) :
    reuseRefund amount ⟨-n, core⟩ =
      .ok (⟨amount.amount + n, core⟩, ⟨0, core⟩) := by
  have hrange : Asset.InRange (amount.amount - -n) := by
    unfold Asset.InRange Asset.maxAmount at *
    omega
  have hleft : ¬ amount.amount + n < 0 := by omega
  simp only [reuseRefund, bind_eq_ok, Asset.sub_eq_ok]
  refine ⟨_, ⟨hsym.symm, hrange, rfl⟩, ?_⟩
  dsimp only
  rw [sub_neg_eq_add, if_neg hleft, hsym]
  rfl

theorem startRefund_back (hn : 0 ≤ n) (hvalid : core.isValid = true) :
    startRefund core ⟨-n, core⟩ = .ok (⟨n, core⟩, ⟨0, core⟩) := by
  unfold startRefund
  by_cases hzero : n = 0
  · subst hzero
    have hrange : Asset.InRange 0 := by decide
    have hnot : ¬ (-0 : ℤ) < 0 := by decide
    rw [if_neg hnot]
    simp only [bind_eq_ok, Asset.make_eq_ok, pure_eq_ok]
    exact ⟨⟨0, core⟩, ⟨hrange, hvalid, rfl⟩, rfl⟩
  · have hneg : -n < 0 := by omega
    rw [if_pos hneg]
    simp [Asset.neg, pure, Except.pure]

/-- The refund takes up the whole of what is taken back, and holds it from now
on. -/
theorem updateRefund_back (ctx : Ctx) (hs : Withdrawable core s) (hn : 0 ≤ n)
    (hm : 0 ≤ m) (hpos : 0 < n + m)
    (hnet : n ≤ (s.delegated from' receiver).1)
    (hcpu : m ≤ (s.delegated from' receiver).2) :
    ∃ refunds, updateRefund ctx s.refunds s.market.coreSymbol from' receiver
      ⟨-n, core⟩ ⟨-m, core⟩ false =
        .ok ⟨refunds, ⟨0, core⟩, ⟨0, core⟩, true⟩ := by
  have howed := hs.ledger.delegated_add_refunded_le from' receiver
  have htotal := (le_total hs.ledger.owed_nonneg from').trans hs.owed
  simp only [weight] at howed
  have hundelegating : decide (-n + -m < 0) = true :=
    decide_eq_true (by omega)
  have hunstaking : decide (-n < 0 ∨ -m < 0) = true :=
    decide_eq_true (by omega)
  unfold updateRefund
  simp only [hs.coreSymbol, hundelegating, Bool.or_true, if_true, hunstaking]
  cases hrow : s.refunds.find from' with
  | none =>
      obtain ⟨refunds, hemplace⟩ : ∃ refunds, emplace s.refunds
          ⟨from', ctx.secSinceEpoch, ⟨n, core⟩, ⟨m, core⟩⟩ = .ok refunds :=
        ⟨_, emplace_eq_ok.mpr ⟨hrow, rfl⟩⟩
      refine ⟨refunds, ?_⟩
      simp only [bind_eq_ok, Except.ok.injEq, exists_eq_left',
        startRefund_back hn hs.valid, startRefund_back hm hs.valid, hemplace,
        pure_eq_ok]
  | some row =>
      have hview : s.refunded from' = row.weights := view_of_find hrow
      obtain ⟨⟨hnet₀, hcpu₀⟩, _⟩ := hs.ledger.refunds from' row hrow
      obtain ⟨⟨hsym₁, _⟩, ⟨hsym₂, _⟩⟩ := hs.rows.refunds from' row hrow
      rw [hview] at howed
      have hnet₁ : 0 ≤ row.netAmount.amount := hnet₀
      have hcpu₁ : 0 ≤ row.cpuAmount.amount := hcpu₀
      simp only [RefundRequest.weights] at howed
      have hkey : row.owner = from' := KeyedTable.key_of_find hrow
      have hreuse₁ := reuseRefund_back hn hsym₁ hnet₁ (by omega)
      have hreuse₂ := reuseRefund_back hm hsym₂ hcpu₁ (by omega)
      obtain ⟨req, hreq⟩ : ∃ req : RefundRequest, req = { row with
          requestTime := ctx.secSinceEpoch
          netAmount := ⟨row.netAmount.amount + n, core⟩
          cpuAmount := ⟨row.cpuAmount.amount + m, core⟩ } := ⟨_, rfl⟩
      have hmodify : modify s.refunds from' (fun _ => req) =
          .ok (s.refunds.put req) :=
        modify_eq_ok.mpr ⟨row, hrow, by rw [hreq]; exact hkey, rfl⟩
      have hempty : req.isEmpty = false := by
        simp [hreq, RefundRequest.isEmpty]
        omega
      refine ⟨s.refunds.put req, ?_⟩
      simp only [bind_eq_ok, hreuse₁, hreuse₂, Except.ok.injEq,
        exists_eq_left', ← hreq, hmodify, check_eq_ok, exists_const, hempty]
      rw [hreq]
      exact ⟨by omega, by omega, rfl⟩

/-- Nothing is paid where a refund takes up everything. -/
theorem settleRefund_back (hs : Withdrawable core s) (hn : 0 ≤ n)
    (hm : 0 ≤ m) (hpos : 0 < n + m)
    (hnet : n ≤ (s.delegated from' receiver).1)
    (hcpu : m ≤ (s.delegated from' receiver).2) (ctx : Ctx) (s₁ : SysState)
    (hrefunds : s₁.refunds = s.refunds) (hmarket : s₁.market = s.market) :
    ∃ refunds deferred, settleRefund ctx s₁ from' from' receiver ⟨-n, core⟩
      ⟨-m, core⟩ false =
        .ok { s₁ with refunds, deferred, outbox := s₁.outbox ++ [] } := by
  rw [List.append_nil]
  unfold settleRefund
  by_cases hstake : stakeAccount = from'
  · rw [if_pos hstake]
    exact ⟨s₁.refunds, s₁.deferred, rfl⟩
  · obtain ⟨refunds, hu⟩ := updateRefund_back ctx hs hn hm hpos hnet hcpu
    have hzero : Asset.InRange 0 := by decide
    have hsum : Asset.add ⟨0, core⟩ ⟨0, core⟩ = .ok ⟨0, core⟩ :=
      Asset.add_eq_ok.mpr ⟨rfl, hzero, rfl⟩
    rw [if_neg hstake, hrefunds, hmarket]
    refine ⟨refunds, scheduleRefund ctx s₁.deferred from' true, ?_⟩
    simp only [bind_eq_ok, hu, Except.ok.injEq, exists_eq_left', hsum,
      lt_irrefl, if_false]
    rfl

/-- **Stake is taken back** from any receiver, where there is enough of it and
the vote can be cast again; nothing is sent. -/
theorem undelegatebw_back (hs : Withdrawable core s)
    (hauth : ctx.HasAuth from') (hn : 0 ≤ n) (hm : 0 ≤ m) (hpos : 0 < n + m)
    (hnet : n ≤ (s.delegated from' receiver).1)
    (hcpu : m ≤ (s.delegated from' receiver).2)
    (hpower : Succeeds
      (s.election.updateVotingPower env ctx from' ⟨-n + -m, core⟩)) :
    ∃ s', undelegatebw env ctx s from' receiver ⟨n, core⟩ ⟨m, core⟩ = .ok s' ∧
      s'.outbox = s.outbox ∧ s'.accountsact = s.accountsact := by
  have howed := hs.ledger.delegated_add_refunded_le from' receiver
  have hrefund := weight_nonneg (hs.ledger.refunded_nonneg from')
  have htotal := (le_total hs.ledger.owed_nonneg from').trans hs.owed
  simp only [weight] at howed hrefund
  obtain ⟨hle₁, hle₂⟩ := hs.ledger.delegated_le_totals from' receiver
  have hmax : m + n ≤ Asset.maxAmount := by omega
  have hamount : i64 (m + n) > 0 := by
    unfold Asset.maxAmount at hmax
    rw [i64_of_range (by omega) (by omega)]
    omega
  have hsign : SameSign (Asset.amount ⟨-n, core⟩) (Asset.amount ⟨-m, core⟩) :=
    .inr ⟨by dsimp only; omega, by dsimp only; omega⟩
  have hsum : Asset.InRange (-n + -m) := by
    unfold Asset.InRange
    omega
  obtain ⟨htotal₁, htotal₂⟩ := hs.ledger.totals_le receiver
  have hleft : Bookable (s.delegated from' receiver + (-n, -m)) :=
    bookable_sub hn hm hnet hcpu ⟨by omega, by omega⟩
  have hleft' : Bookable (s.totals receiver + (-n, -m)) :=
    bookable_sub hn hm (hnet.trans hle₁) (hcpu.trans hle₂)
      ⟨htotal₁.trans hs.owed, htotal₂.trans hs.owed⟩
  have hdel : Succeeds (updateDelband (s.delband from') from' receiver
      ⟨-n, core⟩ ⟨-m, core⟩) :=
    updateDelband_succeeds (hs.rows.delband from') rfl rfl hleft
  have htot : Succeeds
      (updateTotals s.userres receiver ⟨-n, core⟩ ⟨-m, core⟩) :=
    updateTotals_succeeds hs.rows.userres rfl rfl hleft'
  have hne : Asset.amount ⟨-n, core⟩ ≠ 0 ∨ Asset.amount ⟨-m, core⟩ ≠ 0 := by
    dsimp only
    omega
  obtain ⟨s', hs', hout, hact⟩ := changebw_succeeds env hauth hsign hne rfl hsum
    hdel htot (settleRefund_back hs hn hm hpos hnet hcpu ctx) hpower
  refine ⟨s', ?_, hout.trans (List.append_nil _), hact⟩
  have hzero : Asset.InRange 0 := by decide
  simp only [undelegatebw, hs.coreSymbol, bind_eq_ok, Except.ok.injEq,
    exists_eq_left', Asset.make_eq_ok, Asset.checkGe_eq_ok, check_eq_ok,
    exists_const]
  exact ⟨⟨0, core⟩, ⟨hzero, hs.valid, rfl⟩, ⟨rfl, hm⟩, ⟨rfl, hn⟩, hamount, hs'⟩

end Unstake

end System

/-! ## Solvent chains -/

namespace Chain

variable {c : Chain} {from' receiver : Name}

/-- What is owed to the accounts is an amount of the core token. -/
theorem Solvent.owed_le (hc : c.Solvent) :
    total c.sys.owed ≤ Asset.maxAmount := by
  refine hc.covered.trans ?_
  unfold liquid
  cases c.sys.market.memmarket with
  | none => exact (by decide : (0 : ℤ) ≤ Asset.maxAmount)
  | some row => exact hc.books.token.le_max _ _

/-- What the account votes with covers what is taken back. -/
theorem Solvent.stake_left (hc : c.Solvent) {n m : ℤ} (hn : 0 ≤ n)
    (hm : 0 ≤ m) (hnet : n ≤ (c.sys.delegated from' receiver).1)
    (hcpu : m ≤ (c.sys.delegated from' receiver).2) :
    Asset.InRange (-n + -m) ∧ 0 ≤ c.sys.election.staked from' + (-n + -m) ∧
      c.sys.election.staked from' + (-n + -m) < 2 ^ 63 := by
  have hstaked := hc.books.stakes.delegated_le_staker from' receiver
  rw [← hc.books.stakes.staked] at hstaked
  have howed := hc.books.stakes.delegated_add_refunded_le from' receiver
  have hrefund := weight_nonneg (hc.books.stakes.refunded_nonneg from')
  have htotal := (le_total hc.books.stakes.owed_nonneg from').trans hc.owed_le
  have hlt : c.sys.election.staked from' < 2 ^ 63 :=
    (hc.books.toSettled.staked from').2
  have hcovers : n + m ≤ c.sys.election.staked from' := by
    unfold weight at hstaked
    exact le_trans (by omega) hstaked
  refine ⟨?_, by omega, by omega⟩
  unfold weight at howed hrefund
  unfold Asset.InRange
  omega

end Chain

end Inery
