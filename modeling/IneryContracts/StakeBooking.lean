import IneryContracts.CoreToken
import IneryContracts.StakeActivation
import IneryContracts.VoteOwnership

/-!
# When stake can be booked

A change of stake is booked with the owner, with the receiver, with the refund
of the owner and with its vote.  Each table takes it where its rows are counted
in the core token and what is left there is an amount; so it can be said before
a stake whether it goes through.
-/

namespace Inery

open GuardedStep LedgerVector MachineInt

/-- Two amounts that a row can hold. -/
def Bookable (x : ℤ × ℤ) : Prop :=
  0 ≤ x ∧ x ≤ (Asset.maxAmount, Asset.maxAmount)

theorem Bookable.fst {x : ℤ × ℤ} (h : Bookable x) :
    0 ≤ x.1 ∧ Asset.InRange x.1 := by
  have hlow : 0 ≤ x.1 := h.1.1
  have hhigh : x.1 ≤ Asset.maxAmount := h.2.1
  refine ⟨hlow, ?_, hhigh⟩
  unfold Asset.maxAmount
  omega

theorem Bookable.snd {x : ℤ × ℤ} (h : Bookable x) :
    0 ≤ x.2 ∧ Asset.InRange x.2 := by
  have hlow : 0 ≤ x.2 := h.1.2
  have hhigh : x.2 ≤ Asset.maxAmount := h.2.2
  refine ⟨hlow, ?_, hhigh⟩
  unfold Asset.maxAmount
  omega

namespace System

section Parts

variable {core : Symbol} {from' receiver : Name} {dn dc : Asset}

/-! ## The two rows -/

theorem bookDelegation_succeeds {tbl : KeyedTable DelegatedBandwidth.to'}
    (hrows : tbl.All (DelegatedBandwidth.In core)) (hn : dn.symbol = core)
    (hc : dc.symbol = core)
    (hfits : Bookable (view DelegatedBandwidth.weights tbl receiver +
      (dn.amount, dc.amount))) :
    Succeeds (bookDelegation tbl from' receiver dn dc) := by
  cases hrow : tbl.find receiver with
  | none =>
      simp only [bookDelegation, hrow]
      exact Succeeds.bind ⟨_, emplace_eq_ok.mpr ⟨hrow, rfl⟩⟩
        (fun _ _ => succeeds_pure)
  | some row =>
      have hkey : row.to' = receiver := KeyedTable.key_of_find hrow
      obtain ⟨⟨hnet, _⟩, ⟨hcpu, _⟩⟩ := hrows receiver row hrow
      rw [view_of_find hrow] at hfits
      simp only [bookDelegation, hrow]
      refine Succeeds.bind ⟨_, Asset.add_eq_ok.mpr
        ⟨hn.trans hnet.symm, hfits.fst.2, rfl⟩⟩ (fun _ _ => ?_)
      refine Succeeds.bind ⟨_, Asset.add_eq_ok.mpr
        ⟨hc.trans hcpu.symm, hfits.snd.2, rfl⟩⟩ (fun _ _ => ?_)
      exact Succeeds.bind ⟨_, modify_eq_ok.mpr ⟨row, hrow, hkey, rfl⟩⟩
        (fun _ _ => succeeds_pure)

/-- The row of the owner takes a change that leaves amounts in it. -/
theorem updateDelband_succeeds {tbl : KeyedTable DelegatedBandwidth.to'}
    (hrows : tbl.All (DelegatedBandwidth.In core)) (hn : dn.symbol = core)
    (hc : dc.symbol = core)
    (hfits : Bookable (view DelegatedBandwidth.weights tbl receiver +
      (dn.amount, dc.amount))) :
    Succeeds (updateDelband tbl from' receiver dn dc) := by
  refine (bookDelegation_succeeds hrows hn hc hfits).bind (fun r hr => ?_)
  obtain ⟨tbl', row⟩ := r
  obtain ⟨_, _, hweights⟩ := bookDelegation_ok hr
  rw [← hweights] at hfits
  exact (succeeds_check.mpr hfits.fst.1).bind (fun _ _ =>
    (succeeds_check.mpr hfits.snd.1).bind (fun _ _ => succeeds_pure))

theorem bookTotals_succeeds {tbl : KeyedTable UserResources.owner}
    (hrows : tbl.All (UserResources.In core)) (hn : dn.symbol = core)
    (hc : dc.symbol = core)
    (hfits : Bookable (view UserResources.weights tbl receiver +
      (dn.amount, dc.amount))) :
    Succeeds (bookTotals tbl receiver dn dc) := by
  cases hrow : tbl.find receiver with
  | none =>
      simp only [bookTotals, hrow]
      exact Succeeds.bind ⟨_, emplace_eq_ok.mpr ⟨hrow, rfl⟩⟩
        (fun _ _ => succeeds_pure)
  | some row =>
      have hkey : row.owner = receiver := KeyedTable.key_of_find hrow
      obtain ⟨⟨hnet, _⟩, ⟨hcpu, _⟩⟩ := hrows receiver row hrow
      rw [view_of_find hrow] at hfits
      simp only [bookTotals, hrow]
      refine Succeeds.bind ⟨_, Asset.add_eq_ok.mpr
        ⟨hn.trans hnet.symm, hfits.fst.2, rfl⟩⟩ (fun _ _ => ?_)
      refine Succeeds.bind ⟨_, Asset.add_eq_ok.mpr
        ⟨hc.trans hcpu.symm, hfits.snd.2, rfl⟩⟩ (fun _ _ => ?_)
      exact Succeeds.bind ⟨_, modify_eq_ok.mpr ⟨row, hrow, hkey, rfl⟩⟩
        (fun _ _ => succeeds_pure)

/-- The totals of the receiver take a change that leaves amounts in them. -/
theorem updateTotals_succeeds {tbl : KeyedTable UserResources.owner}
    (hrows : tbl.All (UserResources.In core)) (hn : dn.symbol = core)
    (hc : dc.symbol = core)
    (hfits : Bookable (view UserResources.weights tbl receiver +
      (dn.amount, dc.amount))) :
    Succeeds (updateTotals tbl receiver dn dc) := by
  refine (bookTotals_succeeds hrows hn hc hfits).bind (fun r hr => ?_)
  obtain ⟨tbl', row⟩ := r
  obtain ⟨_, _, hweights, _⟩ := bookTotals_ok hr
  rw [← hweights] at hfits
  exact (succeeds_check.mpr hfits.fst.1).bind (fun _ _ =>
    (succeeds_check.mpr hfits.snd.1).bind (fun _ _ => succeeds_pure))

/-- Totals that have taken an amount can hold it. -/
theorem bookable_of_updateTotals {tbl tbl' : KeyedTable UserResources.owner}
    {tot : UserResources} (hn : dn.amount ≤ Asset.maxAmount)
    (hc : dc.amount ≤ Asset.maxAmount)
    (h : updateTotals tbl receiver dn dc = .ok (tbl', tot)) :
    Bookable (view UserResources.weights tbl receiver +
      (dn.amount, dc.amount)) := by
  simp only [updateTotals, bind_eq_ok, check_eq_ok, pure_eq_ok,
    exists_const] at h
  obtain ⟨⟨tbl₁, row⟩, hbook, hnet, hcpu, _⟩ := h
  obtain ⟨_, _, hweights, _⟩ := bookTotals_ok hbook
  rw [← hweights]
  refine ⟨⟨hnet, hcpu⟩, ?_⟩
  unfold bookTotals at hbook
  split at hbook
  · simp only [bind_eq_ok, emplace_eq_ok, pure_eq_ok, Prod.mk.injEq] at hbook
    obtain ⟨_, _, _, rfl⟩ := hbook
    exact ⟨hn, hc⟩
  · simp only [bind_eq_ok, Asset.add_eq_ok, modify_eq_ok, pure_eq_ok,
      Prod.mk.injEq] at hbook
    obtain ⟨_, ⟨_, hn', rfl⟩, _, ⟨_, hc', rfl⟩, _, _, _, rfl⟩ := hbook
    exact ⟨hn'.2, hc'.2⟩

/-! ## The refund -/

/-- What a stake takes out of a refund, and what is left to be paid. -/
private theorem reuseRefund_staked {amount balance : Asset}
    (hamount : 0 ≤ amount.amount) (hbalance : 0 ≤ balance.amount)
    (hsym : balance.symbol = amount.symbol)
    (hfits : Asset.InRange (amount.amount - balance.amount)) :
    ∃ left rest, reuseRefund amount balance = .ok (left, rest) ∧
      0 ≤ left.amount ∧ 0 ≤ rest.amount ∧ rest.amount ≤ balance.amount ∧
      rest.symbol = balance.symbol := by
  unfold reuseRefund
  simp only [bind_eq_ok, Asset.sub_eq_ok]
  by_cases hneg : amount.amount - balance.amount < 0
  · refine ⟨⟨0, amount.symbol⟩,
      ⟨-(amount.amount - balance.amount), amount.symbol⟩,
      ⟨_, ⟨hsym, hfits, rfl⟩, ?_⟩, le_refl 0, ?_, ?_, hsym.symm⟩
    · rw [if_pos hneg]
      rfl
    · dsimp only
      omega
    · dsimp only
      omega
  · refine ⟨⟨amount.amount - balance.amount, amount.symbol⟩,
      ⟨0, balance.symbol⟩, ⟨_, ⟨hsym, hfits, rfl⟩, ?_⟩, ?_, le_refl 0,
      hbalance, rfl⟩
    · rw [if_neg hneg]
      rfl
    · dsimp only
      omega

/-- What is left to be paid of a stake is no more than the stake. -/
structure RefundUpdate.PaysRest (u : RefundUpdate) (core : Symbol)
    (dn dc : Asset) : Prop where
  net : 0 ≤ u.netBalance.amount ∧ u.netBalance.amount ≤ dn.amount
  cpu : 0 ≤ u.cpuBalance.amount ∧ u.cpuBalance.amount ≤ dc.amount
  symbols : u.netBalance.symbol = core ∧ u.cpuBalance.symbol = core

/-- A stake is refunded nothing; a stake for oneself takes up the refund. -/
theorem updateRefund_staked {refunds : KeyedTable RefundRequest.owner}
    (ctx : Ctx) (core' : Except Abort Symbol)
    (hrows : refunds.All (RefundRequest.In core))
    (hnonneg : 0 ≤ view RefundRequest.weights refunds from')
    (hn : dn.symbol = core) (hc : dc.symbol = core)
    (hdn : Asset.InRange dn.amount ∧ 0 ≤ dn.amount)
    (hdc : Asset.InRange dc.amount ∧ 0 ≤ dc.amount)
    (hfits : from' = receiver → view RefundRequest.weights refunds from' -
      (dn.amount, dc.amount) ≤ (Asset.maxAmount, Asset.maxAmount)) :
    ∃ u, updateRefund ctx refunds core' from' receiver dn dc false = .ok u ∧
      u.PaysRest core dn dc := by
  obtain ⟨⟨_, hnmax⟩, hn0⟩ := hdn
  obtain ⟨⟨_, hcmax⟩, hc0⟩ := hdc
  have hsum : decide (dn.amount + dc.amount < 0) = false := by
    rw [decide_eq_false_iff_not]
    omega
  have hunstaking : decide (dn.amount < 0 ∨ dc.amount < 0) = false := by
    rw [decide_eq_false_iff_not]
    omega
  have hidle : (⟨refunds, dn, dc, false⟩ : RefundUpdate).PaysRest core dn dc :=
    ⟨⟨hn0, le_refl _⟩, ⟨hc0, le_refl _⟩, ⟨hn, hc⟩⟩
  unfold updateRefund
  simp only [hsum, hunstaking, Bool.not_false, Bool.true_and, Bool.or_false,
    decide_eq_true_eq, Bool.false_eq_true, if_false]
  by_cases hself : from' = receiver
  · rw [if_pos hself]
    cases hrow : refunds.find from' with
    | none => exact ⟨_, rfl, hidle⟩
    | some row =>
        have hkey : row.owner = from' := KeyedTable.key_of_find hrow
        obtain ⟨⟨hnsym, _⟩, ⟨hcsym, _⟩⟩ := hrows from' row hrow
        rw [view_of_find hrow] at hfits hnonneg
        obtain ⟨hnfit, hcfit⟩ := hfits hself
        obtain ⟨hnrow, hcrow⟩ := hnonneg
        simp only [RefundRequest.weights, Prod.fst_sub, Prod.snd_sub,
          Prod.fst_zero, Prod.snd_zero] at hnfit hcfit hnrow hcrow
        obtain ⟨left, rest, hnet, hleft, hrest, hle, hsym⟩ :=
          reuseRefund_staked hnrow hn0 (hn.trans hnsym.symm) ⟨by omega, hnfit⟩
        obtain ⟨left', rest', hcpu, hleft', hrest', hle', hsym'⟩ :=
          reuseRefund_staked hcrow hc0 (hc.trans hcsym.symm) ⟨by omega, hcfit⟩
        obtain ⟨req, hreq⟩ : ∃ req : RefundRequest, req =
            { row with netAmount := left, cpuAmount := left' } := ⟨_, rfl⟩
        have hmodify : modify refunds from' (fun _ => req) =
            .ok (refunds.put req) :=
          modify_eq_ok.mpr ⟨row, hrow, by rw [hreq]; exact hkey, rfl⟩
        have hpays : ∀ t b, (⟨t, rest, rest', b⟩ : RefundUpdate).PaysRest core
            dn dc := fun _ _ =>
          ⟨⟨hrest, hle⟩, ⟨hrest', hle'⟩, ⟨hsym.trans hn, hsym'.trans hc⟩⟩
        simp only [bind_eq_ok, hnet, hcpu, Except.ok.injEq, exists_eq_left',
          ← hreq, hmodify, check_eq_ok, exists_const]
        by_cases hempty : req.isEmpty = true
        · refine ⟨_, ⟨hleft, hleft', ?_⟩,
            hpays ((refunds.put req).erase from') false⟩
          rw [if_pos hempty]
          rfl
        · refine ⟨_, ⟨hleft, hleft', ?_⟩,
            hpays (refunds.put req) true⟩
          rw [if_neg hempty]
          rfl
  · rw [if_neg hself]
    exact ⟨_, rfl, hidle⟩

/-- A stake for oneself leaves amounts in the refund. -/
theorem updateRefund_fits {ctx : Ctx}
    {refunds : KeyedTable RefundRequest.owner} {core' : Except Abort Symbol}
    {u : RefundUpdate} (hdn : 0 ≤ dn.amount) (hdc : 0 ≤ dc.amount)
    (h : updateRefund ctx refunds core' from' from' dn dc false = .ok u) :
    view RefundRequest.weights refunds from' - (dn.amount, dc.amount) ≤
      (Asset.maxAmount, Asset.maxAmount) := by
  have hbooks : BooksRefund from' from' dn.amount dc.amount false :=
    .inl ⟨rfl, rfl⟩
  cases updateRefund_cases h with
  | apart books => exact absurd hbooks books
  | started _ _ unstaking => exact absurd unstaking (by omega)
  | absent _ row =>
      rw [view_of_none row, zero_sub]
      refine ⟨?_, ?_⟩
      · show -dn.amount ≤ Asset.maxAmount
        unfold Asset.maxAmount
        omega
      · show -dc.amount ≤ Asset.maxAmount
        unfold Asset.maxAmount
        omega
  | reused _ row _ net cpu =>
      rw [view_of_find row]
      simp only [reuseRefund, bind_eq_ok, Asset.sub_eq_ok] at net cpu
      obtain ⟨_, ⟨_, hnfit, _⟩, _⟩ := net
      obtain ⟨_, ⟨_, hcfit, _⟩, _⟩ := cpu
      exact ⟨hnfit.2, hcfit.2⟩

/-- Staking sends the payment of what the refund does not cover. -/
theorem settleRefund_staked {s : SysState} (ctx : Ctx)
    (from' receiver : Name) (dn dc : Asset)
    (hrows : s.refunds.All (RefundRequest.In core))
    (hnonneg : 0 ≤ s.refunded from') (hn : dn.symbol = core)
    (hc : dc.symbol = core) (hdn : Asset.InRange dn.amount ∧ 0 ≤ dn.amount)
    (hdc : Asset.InRange dc.amount ∧ 0 ≤ dc.amount)
    (hsum : Asset.InRange (dn.amount + dc.amount))
    (hfits : from' = receiver → from' ≠ stakeAccount → s.refunded from' -
      (dn.amount, dc.amount) ≤ (Asset.maxAmount, Asset.maxAmount)) :
    ∃ x, 0 ≤ x ∧ x ≤ dn.amount + dc.amount ∧
      (from' = stakeAccount → x = 0) ∧ ∀ s₁ : SysState,
      s₁.refunds = s.refunds → s₁.market = s.market → ∃ refunds deferred,
        settleRefund ctx s₁ from' from' receiver dn dc false = .ok { s₁ with
          refunds, deferred
          outbox := s₁.outbox ++ stakePayment from' ⟨x, core⟩ } := by
  unfold settleRefund
  by_cases hstake : stakeAccount = from'
  · refine ⟨0, le_refl 0, add_nonneg hdn.2 hdc.2, fun _ => rfl, fun s₁ _ _ =>
      ⟨s₁.refunds, s₁.deferred, ?_⟩⟩
    rw [if_pos hstake]
    simp [stakePayment, pure, Except.pure]
  · obtain ⟨u, hu, ⟨hnet₀, hnet⟩, ⟨hcpu₀, hcpu⟩, hnsym, hcsym⟩ :=
      updateRefund_staked ctx s.market.coreSymbol hrows hnonneg hn hc hdn hdc
        (fun hself => hfits hself (Ne.symm hstake))
    have hrange :
        Asset.InRange (u.netBalance.amount + u.cpuBalance.amount) := by
      have hmax := hsum.2
      unfold Asset.InRange Asset.maxAmount at *
      omega
    have hadd : u.netBalance.add u.cpuBalance =
        .ok ⟨u.netBalance.amount + u.cpuBalance.amount, core⟩ :=
      Asset.add_eq_ok.mpr ⟨hcsym.trans hnsym.symm, hrange, by rw [hnsym]⟩
    refine ⟨u.netBalance.amount + u.cpuBalance.amount, by omega, by omega,
      fun h => absurd h.symm hstake, fun s₁ hrefunds hmarket => ⟨u.refunds,
        scheduleRefund ctx s₁.deferred from' u.needDeferredTrx, ?_⟩⟩
    rw [if_neg hstake, hrefunds, hmarket]
    simp only [bind_eq_ok, hu, Except.ok.injEq, exists_eq_left', hadd]
    by_cases hpos : 0 < u.netBalance.amount + u.cpuBalance.amount
    · rw [if_pos hpos, stakePayment, if_pos hpos]
      rfl
    · rw [if_neg hpos, stakePayment, if_neg hpos, List.append_nil]
      rfl

end Parts

/-! ## The vote -/

/-- A stake is booked where the sum is not negative and fits 64 bits. -/
theorem booked_of_staked {e : Election} {a : Name} {x : ℤ}
    (hrange : StakedInRange e.staked) (hx : Asset.InRange x)
    (hlow : 0 ≤ e.staked a + x) (hhigh : e.staked a + x < 2 ^ 63) :
    ∃ v, e.Booked a x v ∧ v.staked = e.staked a + x := by
  have hok : ∃ v, e.Booked a x v := by
    cases hv : e.voters.find a with
    | none =>
        rw [show e.staked a = 0 from view_of_none hv, zero_add] at hlow
        exact ⟨{ owner := a, staked := x }, rfl, hlow, .inl ⟨hv, rfl⟩⟩
    | some old =>
        have hlt := hrange a
        rw [show e.staked a = old.staked from view_of_find hv] at *
        have hkey : old.owner = a := KeyedTable.key_of_find hv
        refine ⟨{ old with staked := i64 (old.staked + x) }, hkey, ?_,
          .inr ⟨old, hv, rfl⟩⟩
        dsimp only
        rwa [i64_of_range (by omega) hhigh]
  obtain ⟨v, hv⟩ := hok
  exact ⟨v, hv, hv.staked_eq hrange hx⟩

/-- A change of stake that succeeds has passed the vesting. -/
theorem vested_of_power {env : Env} {ctx : Ctx} {e e' : Election} {a : Name}
    {total : Asset} (h : e.updateVotingPower env ctx a total = .ok e') :
    ∃ v, e.Booked a total.amount v ∧
      Election.checkVesting ctx a v.staked = .ok () := by
  simp only [Election.updateVotingPower, bind_eq_ok, check_eq_ok,
    exists_const] at h
  obtain ⟨r, hbook, hpos, _, hvested, _⟩ := h
  exact ⟨r.2, (Election.bookStake_booked hbook hpos).1, hvested⟩

/-! ## The whole change -/

section Whole

variable {env : Env} {ctx : Ctx} {s : SysState} {core : Symbol}
  {from' receiver payer : Name} {dn dc : Asset} {t : ℤ}

/-- Changes of stake of one sign pass the check of their sum. -/
private theorem abs_of_sameSign {dn dc : ℤ} (h : SameSign dn dc) :
    |dn + dc| ≥ max |dn| |dc| := by
  rcases h with ⟨hn, hc⟩ | ⟨hn, hc⟩
  · rw [abs_of_nonneg hn, abs_of_nonneg hc, abs_of_nonneg (by omega)]
    omega
  · rw [abs_of_nonpos hn, abs_of_nonpos hc, abs_of_nonpos (by omega)]
    omega

/-- **A change of stake goes through** where each of its parts does. -/
theorem changebw_succeeds (env : Env) {l : List InlineAction}
    (hauth : ctx.HasAuth from') (hsign : SameSign dn.amount dc.amount)
    (hne : dn.amount ≠ 0 ∨ dc.amount ≠ 0)
    (hsym : dc.symbol = dn.symbol)
    (hsum : Asset.InRange (dn.amount + dc.amount))
    (hdel : Succeeds (updateDelband (s.delband from') from' receiver dn dc))
    (htot : Succeeds (updateTotals s.userres receiver dn dc))
    (hsettle : ∀ s₁ : SysState, s₁.refunds = s.refunds →
      s₁.market = s.market → ∃ refunds deferred,
        settleRefund ctx s₁ from' from' receiver dn dc false =
          .ok { s₁ with refunds, deferred, outbox := s₁.outbox ++ l })
    (hpower : Succeeds (s.election.updateVotingPower env ctx from'
      { dn with amount := dn.amount + dc.amount })) :
    ∃ s', changebw env ctx s from' receiver dn dc false = .ok s' ∧
      s'.outbox = s.outbox ++ l ∧ s'.accountsact = s.accountsact := by
  obtain ⟨delTbl, hdel⟩ := hdel
  obtain ⟨⟨userres, tot⟩, htot⟩ := htot
  obtain ⟨limits, hlimits⟩ := updateLimits_ok
    { s with delband := Function.update s.delband from' delTbl, userres }
    receiver tot
  obtain ⟨refunds, deferred, hsettle⟩ := hsettle { s with
    delband := Function.update s.delband from' delTbl, userres, limits } rfl rfl
  obtain ⟨election, hpower⟩ := hpower
  refine ⟨{ s with
    delband := Function.update s.delband from' delTbl
    userres, limits, refunds, deferred, election
    outbox := s.outbox ++ l }, ?_, rfl, rfl⟩
  simp only [changebw, bind_eq_ok, Ctx.requireAuth_eq_ok, check_eq_ok,
    Asset.add_eq_ok, pure_eq_ok, exists_const, Bool.false_eq_true, if_false]
  refine ⟨hauth, hne, _, ⟨hsym, hsum, rfl⟩, abs_of_sameSign hsign, delTbl,
    hdel, ⟨userres, tot⟩, htot, { s with
      delband := Function.update s.delband from' delTbl
      userres, limits, refunds, deferred
      outbox := s.outbox ++ l }, ?_, election, hpower, rfl⟩
  rw [hlimits]
  exact hsettle

/-- Tables in which a stake can be booked: they are counted in the core token
and agree with each other, the stakes of the voters fit 64 bits, and no stored
vote stops a change of stake. -/
structure Ledgers (core : Symbol) (s : SysState) : Prop where
  coreSymbol : s.market.coreSymbol = .ok core
  valid : core.isValid = true
  rows : Denominated core s
  ledger : StakeLedger s
  staked : StakedInRange s.staked
  votes : s.election.Secure

/-- What a stake of `t` in each resource asks for: what is left in the totals of
the receiver and in the refund of the payer are amounts, the vote of the payer
fits 64 bits, and its vesting allows it. -/
structure Stakeable (ctx : Ctx) (s : SysState) (payer receiver : Name)
    (t : ℤ) : Prop where
  totals : s.totals receiver + (t, t) ≤ (Asset.maxAmount, Asset.maxAmount)
  refund : payer = receiver → payer ≠ stakeAccount →
    s.refunded payer - (t, t) ≤ (Asset.maxAmount, Asset.maxAmount)
  vote : s.staked payer + 2 * t < 2 ^ 63
  vested : Election.checkVesting ctx payer (s.staked payer + 2 * t) = .ok ()

/-- A stake that can be booked is; the payment that it sends is no more than
the stake. -/
theorem delegatebw_staked (env : Env) (hs : Ledgers core s)
    (hauth : ctx.HasAuth payer) (ht : 0 < t) (hmax : t + t ≤ Asset.maxAmount)
    (hstake : Stakeable ctx s payer receiver t) :
    ∃ s' x, delegatebw env ctx s payer receiver ⟨t, core⟩ ⟨t, core⟩ false =
        .ok s' ∧ 0 ≤ x ∧ x ≤ t + t ∧ (payer = stakeAccount → x = 0) ∧
      s'.outbox = s.outbox ++ stakePayment payer ⟨x, core⟩ ∧
      s'.accountsact = s.accountsact := by
  have hzero : Asset.InRange 0 := by decide
  have hrange : Asset.InRange t := by
    unfold Asset.InRange Asset.maxAmount at *
    omega
  have hsum : Asset.InRange (t + t) := by
    unfold Asset.InRange Asset.maxAmount at *
    omega
  have hpos : i64 (t + t) > 0 := by
    unfold Asset.maxAmount at hmax
    rw [i64_of_range (by omega) (by omega)]
    omega
  have hpair : (0 : ℤ × ℤ) ≤ (t, t) := ⟨ht.le, ht.le⟩
  have htotals : Bookable (s.totals receiver + (t, t)) :=
    ⟨add_nonneg (hs.ledger.totals_nonneg receiver) hpair, hstake.totals⟩
  have hrow : Bookable (s.delegated payer receiver + (t, t)) :=
    ⟨add_nonneg (hs.ledger.delegated_nonneg payer receiver) hpair,
      (add_le_add_left (hs.ledger.delegated_le_totals payer receiver)
        _).trans hstake.totals⟩
  have hnonneg : 0 ≤ s.election.staked payer := (hs.staked payer).1
  have hvote : s.staked payer + (t + t) < 2 ^ 63 := by
    rw [← two_mul]
    exact hstake.vote
  obtain ⟨v, hbooked, hv⟩ := booked_of_staked hs.staked hsum (by omega) hvote
  have hvested : Election.checkVesting ctx payer v.staked = .ok () := by
    rw [hv, ← two_mul]
    exact hstake.vested
  obtain ⟨x, hx₀, hx, hown, hsettle⟩ := settleRefund_staked ctx
    payer receiver ⟨t, core⟩ ⟨t, core⟩ hs.rows.refunds
    (hs.ledger.refunded_nonneg payer) rfl rfl ⟨hrange, ht.le⟩
    ⟨hrange, ht.le⟩ hsum hstake.refund
  have hdel : Succeeds (updateDelband (s.delband payer) payer receiver
      ⟨t, core⟩ ⟨t, core⟩) :=
    updateDelband_succeeds (hs.rows.delband payer) rfl rfl hrow
  have htot : Succeeds (updateTotals s.userres receiver ⟨t, core⟩ ⟨t, core⟩) :=
    updateTotals_succeeds hs.rows.userres rfl rfl htotals
  obtain ⟨s', hs', hout, hact⟩ := changebw_succeeds env hauth
    (.inl ⟨ht.le, ht.le⟩) (.inl ht.ne') rfl hsum hdel htot hsettle
    (Election.updateVotingPower_succeeds hs.votes hbooked hvested)
  refine ⟨s', x, ?_, hx₀, hx, hown, hout, hact⟩
  simp only [delegatebw, hs.coreSymbol, bind_eq_ok, Except.ok.injEq,
    exists_eq_left', Asset.make_eq_ok, Asset.checkGe_eq_ok, check_eq_ok,
    exists_const]
  exact ⟨⟨0, core⟩, ⟨hzero, hs.valid, rfl⟩, ⟨rfl, ht.le⟩, ⟨rfl, ht.le⟩, hpos,
    .inl trivial, hs'⟩

/-- A stake that is booked could be. -/
theorem stakeable_of_delegatebw {s' : SysState}
    (hrange : StakedInRange s.staked)
    (h : delegatebw env ctx s payer receiver ⟨t, core⟩ ⟨t, core⟩ false =
      .ok s') : 0 < t ∧ Stakeable ctx s payer receiver t := by
  obtain ⟨_, _, _, ht, _, _, ρ, hchange⟩ := delegatebw_ok h hrange
  have hcall := (delegatebw_calls h).2.2.2.2.2
  have hpos : i64 (t + t) > 0 := by
    simp only [delegatebw, bind_eq_ok, check_eq_ok, exists_const] at h
    obtain ⟨_, _, _, _, _, _, _, _, hpos, _⟩ := h
    exact hpos
  obtain ⟨_, _, _, hsum, delTbl, userres, tot, s₁, election, hdel, htot,
    hsettle, _, _⟩ := changebw_parts (if_neg Bool.false_ne_true) hcall
  have hmax := hsum.2
  dsimp only at ht hmax hsum
  have ht' : t ≤ Asset.maxAmount := by omega
  refine ⟨?_, (bookable_of_updateTotals ht' ht' htot).2, ?_, ?_, ?_⟩
  · unfold Asset.maxAmount at hmax
    rw [i64_of_range (by omega) (by omega)] at hpos
    omega
  · rintro rfl hne
    obtain ⟨limits, hlimits⟩ := updateLimits_ok { s with
      delband := Function.update s.delband payer delTbl, userres } payer tot
    rw [hlimits, settleRefund, if_neg hne.symm] at hsettle
    simp only [bind_eq_ok] at hsettle
    obtain ⟨u, hu, _⟩ := hsettle
    exact updateRefund_fits ht ht hu
  · have hstaked := congrFun hchange.staked payer
    have hlt := (hchange.stakedInRange payer).2
    rw [if_neg Bool.false_ne_true, Pi.add_apply, Pi.single_eq_same] at hstaked
    rw [hstaked] at hlt
    dsimp only at hlt
    omega
  · obtain ⟨v, hbooked, hvested⟩ := vested_of_power
      (changebw_power hcall).2
    rw [hbooked.staked_eq hrange hsum] at hvested
    rw [two_mul]
    exact hvested

end Whole

end System

end Inery
