import IneryContracts.TradeBooks

/-!
# Memory bought and sold again

A purchase of whole mebibytes and the sale of the same bytes in the same block
cancel out in everything that belongs to the account, whatever refund was
pending and whatever rows there were.  On the market only the growth of the
supply is left, which the purchase brings up to date first.
-/

namespace Inery

open GuardedStep LedgerVector LabelledRun MachineInt

namespace SysState

variable {s s₁ s' : SysState} {core : Symbol} {p : Name} {bytes quant stake : ℤ}

/-- Nothing of a trade is left. -/
structure SameTrades (s s' : SysState) : Prop where
  market : s'.market.memmarket = s.market.memmarket
  memStake : s'.market.totalMemStake = s.market.totalMemStake
  memBytes : s'.memBytes = s.memBytes
  totals : s'.totals = s.totals
  delegated : s'.delegated = s.delegated
  staked : s'.staked = s.staked

/-- **A trade and its opposite cancel out.** -/
theorem Trade.cancel (h : s.Trade s₁ core p p bytes quant stake)
    (h' : SysState.Trade { s₁ with outbox := [] } s' core p p (-bytes)
      (-quant) (-stake)) : SameTrades s s' := by
  obtain ⟨row, hrow, hrow₁⟩ := h.market
  obtain ⟨row', hrow', hrow₂⟩ := h'.market
  obtain rfl := Option.some.inj (hrow₁.symm.trans hrow')
  have hpair : ((-stake, -stake) : ℤ × ℤ) = -(stake, stake) := rfl
  constructor
  · rw [hrow, hrow₂]
    simp
  · rw [h'.memStake, h.memStake, add_neg_cancel_right]
  · have hbytes : s'.memBytes = s₁.memBytes + _ := h'.memBytes
    rw [hbytes, h.memBytes, Pi.single_neg, add_neg_cancel_right]
  · have htotals : s'.totals = s₁.totals + _ := h'.totals
    rw [htotals, h.totals, hpair, Pi.single_neg, add_neg_cancel_right]
  · have hdelegated : s'.delegated = s₁.delegated + _ := h'.delegated
    rw [hdelegated, h.delegated, hpair, cell, cell, Pi.single_neg,
      Pi.single_neg, add_neg_cancel_right]
  · have hstaked : s'.staked = s₁.staked + _ := h'.staked
    rw [hstaked, h.staked, ← neg_add, Pi.single_neg, add_neg_cancel_right]

end SysState

/-! ## The two steps -/

namespace Chain

variable {env : Env} {c c' : Chain} {ctx : Ctx} {p : Name} {core : Symbol}
  {k : ℤ}

/-- A purchase of whole mebibytes for oneself, on a market that has been
brought up to date. -/
private theorem Reachable.bought (hc : Reachable env c)
    (h : Step env c (.system ctx (.buyresources p p ⟨10000 * k, core⟩)) c') :
    c.Gauged ∧ c.sys.market.coreSymbol = .ok core ∧ ∃ market s,
      c.sys.market.updateMemSupply ctx = .ok market ∧
      SysState.Trade { c.sys with market } s core p p (k * mib) (10000 * k)
        (10000 * k) ∧
      c'.sys = { s with outbox := [] } ∧
      c'.purse p = c.purse p - outlay p memAccount (10000 * k) -
        outlay p stakeAccount (10000 * k + 10000 * k) := by
  obtain ⟨s, hs, hsys, _, hbalances⟩ := step_pending hc.settled h
  obtain ⟨_, _, market, _, _, _, _, _, _, hgrow, hmarket, _⟩ :=
    System.buyresources_calls hs
  have hcore := hmarket
  rw [System.updateMemSupply_coreSymbol hgrow] at hcore
  have hgauged := hc.gauged_of_core hcore
  obtain ⟨_, _, hopen⟩ := hgauged.opened
  obtain ⟨rfl, _, _, market', hgrow', htrade⟩ :=
    System.buyresources_trade hopen hgauged.books.staked hs
  cases Except.ok.inj (hgrow.symm.trans hgrow')
  have hbytes : 10000 * k * mib / 10000 = k * mib := by
    rw [mul_comm 10000, mul_right_comm, Int.mul_ediv_cancel _ (by decide)]
  have hstake : k * mib * 10000 / mib = 10000 * k := by
    rw [mul_right_comm, Int.mul_ediv_cancel _ (by decide), mul_comm]
  rw [hbytes, hstake] at htrade
  exact ⟨hgauged, hcore, market, s, hgrow, htrade, hsys,
    hc.settled.purse_traded hsys hbalances hcore hmarket htrade⟩

/-- A sale of whole mebibytes on a market that is up to date already. -/
private theorem Gauged.sold {quote₀ : ℤ} (hc : c.Gauged)
    (hopen : Open core quote₀ c.sys)
    (hlast : c.sys.market.lastMemIncrease = ctx.slot)
    (h : Step env c (.system ctx (.sellres p (k * mib))) c') :
    ∃ s, SysState.Trade c.sys s core p p (-(k * mib)) (-(10000 * k))
        (-(10000 * k)) ∧
      c'.sys = { s with outbox := [] } ∧
      c'.purse p = c.purse p - outlay p memAccount (-(10000 * k)) -
        outlay p stakeAccount (-(10000 * k) + -(10000 * k)) := by
  have hsettled := hc.books.toSettled
  obtain ⟨s, hs, hsys, _, hbalances⟩ := step_pending hsettled h
  obtain ⟨_, market, hgrow, htrade⟩ :=
    System.sellres_trade hopen hc.books.staked hs
  have hpaid : k * mib / mib * 10000 = 10000 * k := by
    rw [Int.mul_ediv_cancel _ (by decide), mul_comm]
  rw [hpaid] at htrade
  rw [Market.updateMemSupply, hlast, if_pos (UInt32.le_refl _)] at hgrow
  cases hgrow
  exact ⟨s, htrade, hsys, hsettled.purse_traded hsys hbalances
    hopen.coreSymbol hopen.coreSymbol htrade⟩

end Chain

/-- **Buying whole mebibytes and selling them in the same block is neutral**
for the account: what it has bought, what it has staked and what it has at hand
are as before, whatever else it has.  The reserve of the market and the total
are as before as well, and the stock has only grown by what was due. -/
theorem bought_and_sold_neutral {env : Env} {c c₁ c₂ : Chain} {ctx ctx' : Ctx}
    {p : Name} {core : Symbol} {k : ℤ} (hc : Chain.Reachable env c)
    (hslot : ctx'.slot = ctx.slot)
    (hbuy : Chain.Step env c
      (.system ctx (.buyresources p p ⟨10000 * k, core⟩)) c₁)
    (hsell : Chain.Step env c₁ (.system ctx' (.sellres p (k * mib))) c₂) :
    ∃ row row', c.sys.market.memmarket = some row ∧
      c₂.sys.market.memmarket = some row' ∧
      row'.base.amount = row.base.amount +
        ((c.sys.market.dueGrowth ctx.slot % 2 ^ 32 : ℕ) : ℤ) ∧
      row'.quote = row.quote ∧
      c₂.sys.market.totalMemStake = c.sys.market.totalMemStake ∧
      c₂.sys.memBytes p = c.sys.memBytes p ∧
      c₂.sys.totals p = c.sys.totals p ∧
      c₂.sys.delegated p p = c.sys.delegated p p ∧
      c₂.sys.staked p = c.sys.staked p ∧
      c₂.liquid p + weight (c₂.sys.refunded p) =
        c.liquid p + weight (c.sys.refunded p) := by
  have hslot₁ : c.slot ≤ ctx.slot := (Chain.step_cases hbuy).1
  obtain ⟨hgauged, hcore, market, s₁, hgrow, htrade, hsys₁, hpurse₁⟩ :=
    hc.bought hbuy
  obtain ⟨core', quote₀, hopen⟩ := hgauged.opened
  obtain rfl := Except.ok.inj (hcore.symm.trans hopen.coreSymbol)
  -- the sale finds the supply up to date
  obtain ⟨hlast, _⟩ := hgauged.grown hslot₁ hgrow
  have hlast₁ : c₁.sys.market.lastMemIncrease = ctx'.slot := by
    rw [hsys₁, hslot, ← hlast]
    exact UInt32.toNat_inj.mp (congrArg TickedGrowth.Gauge.last htrade.gauge)
  obtain ⟨s₂, hsold, hsys₂, hpurse₂⟩ := (hgauged.step hbuy).sold
    (Chain.step_open hbuy hgauged.books.toSettled hopen).1 hlast₁ hsell
  rw [hsys₁] at hsold
  have hcancel := htrade.cancel hsold
  have hpurse : c₂.purse p = c.purse p := by
    rw [hpurse₂, hpurse₁, ← neg_add, outlay_neg, outlay_neg]
    ring
  obtain ⟨row₁, hrow₁, _⟩ := htrade.market
  obtain ⟨row, hrow, hrow', hstake'⟩ := hgauged.grown_row hslot₁ hgrow hrow₁
  refine ⟨row, row₁, hrow, ?_, by rw [hrow'], by rw [hrow'], ?_, ?_, ?_, ?_, ?_,
    hpurse⟩
  · rw [hsys₂, ← hrow₁]
    exact hcancel.market
  · rw [hsys₂, ← hstake']
    exact hcancel.memStake
  · rw [hsys₂]
    exact congrFun hcancel.memBytes p
  · rw [hsys₂]
    exact congrFun hcancel.totals p
  · rw [hsys₂]
    exact congrFun (congrFun hcancel.delegated p) p
  · rw [hsys₂]
    exact congrFun hcancel.staked p

/-- Alice stakes and unstakes a part of it again, so that a refund is
pending. -/
def partlyUnstaked : List Event :=
  [.system (.signedBy alice 2) (.regproducer alice {} "" 0),
    .system (.signedBy alice 2)
      (.delegatebw alice alice ⟨50000, inrSymbol⟩ ⟨30000, inrSymbol⟩ false),
    .system (.signedBy alice 3)
      (.undelegatebw alice alice ⟨20000, inrSymbol⟩ ⟨10000, inrSymbol⟩)]

/-- A purchase that a pending refund pays for in part, and its sale. -/
theorem bought_and_sold_neutral_sample : ∃ c c₂ : Chain,
    c.sys.refunded alice = (20000, 10000) ∧
    c₂.sys.refunded alice ≠ (20000, 10000) ∧
    c₂.liquid alice + weight (c₂.sys.refunded alice) =
      c.liquid alice + weight (c.sys.refunded alice) := by
  have hsample : SampleRun partlyUnstaked (fun _ c =>
      c.sys.refunded alice = (20000, 10000) ∧
      Finishes (Chain.exec sampleEnv c (.system (.signedBy alice 4)
          (.buyresources alice alice ⟨10000 * 3, inrSymbol⟩)))
        (fun c₁ => Finishes (Chain.exec sampleEnv c₁ (.system
            (.signedBy alice 4) (.sellres alice (3 * mib))))
          (fun c₂ => c₂.sys.refunded alice ≠ (20000, 10000)))) := by
    decide +kernel
  obtain ⟨_, c, hreach, hrefund, c₁, hbuy, c₂, hsell, hother⟩ :=
    hsample.reachable
  obtain ⟨_, _, _, _, _, _, _, _, _, _, _, hpurse⟩ :=
    bought_and_sold_neutral hreach rfl hbuy hsell
  exact ⟨c, c₂, hrefund, hother, hpurse⟩

/-- With a growth of 65535 bytes a block the stock has grown when the bytes
have been sold again. -/
theorem bought_and_sold_on_grown_market : ∃ (c c₁ c₂ : Chain)
    (row row' : ExchangeState), Chain.Reachable sampleEnv c ∧
    Chain.Step sampleEnv c (.system (.signedBy alice 4)
      (.buyresources alice alice ⟨10000 * 3, inrSymbol⟩)) c₁ ∧
    Chain.Step sampleEnv c₁ (.system (.signedBy alice 4)
      (.sellres alice (3 * mib))) c₂ ∧
    c.sys.market.memmarket = some row ∧ c₂.sys.market.memmarket = some row' ∧
    row'.base.amount ≠ row.base.amount := by
  have hsample : SampleRun [fastRate,
      .system (.signedBy alice 2) (.regproducer alice {} "" 0)] (fun _ c =>
      Finishes (Chain.exec sampleEnv c (.system (.signedBy alice 4)
          (.buyresources alice alice ⟨10000 * 3, inrSymbol⟩)))
        (fun c₁ => Finishes (Chain.exec sampleEnv c₁ (.system
            (.signedBy alice 4) (.sellres alice (3 * mib))))
          (fun c₂ => c.sys.market.memmarket.any (fun row =>
            c₂.sys.market.memmarket.any (fun row' =>
              row'.base.amount ≠ row.base.amount)) = true))) := by
    decide +kernel
  obtain ⟨_, c, hreach, c₁, hbuy, c₂, hsell, hgrown⟩ := hsample.reachable
  obtain ⟨row, hrow, hgrown⟩ := (Option.any_eq_true _ _).mp hgrown
  obtain ⟨row', hrow', hne⟩ := (Option.any_eq_true _ _).mp hgrown
  exact ⟨c, c₁, c₂, row, row', hreach, hbuy, hsell, hrow, hrow',
    of_decide_eq_true hne⟩

end Inery
