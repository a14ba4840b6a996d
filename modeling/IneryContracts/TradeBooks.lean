import IneryContracts.CoreToken
import IneryContracts.SupplyGrowth

/-!
# What a trade books

A purchase and a sale book the same things with opposite signs: the stock and
the reserve of the market, the bytes and the totals of the receiver, the stake
of the payer, and what the payer has at hand, which is its tokens together with
what its refund holds.
-/

namespace Inery

open GuardedStep LedgerVector LabelledRun MachineInt

/-! ## What an account has at hand -/

/-- The tokens of an account once everything that was sent is done, and its
refund. -/
def SysState.purse (s : SysState) (t : TokenState) (code : SymbolCode)
    (a : Name) : ℤ := s.pending t code a + weight (s.refunded a)

/-- The tokens of an account and its refund. -/
def Chain.purse (c : Chain) (a : Name) : ℤ :=
  c.liquid a + weight (c.sys.refunded a)

/-- What a payment takes from the one who pays: nothing if it pays itself. -/
def outlay (payer to' : Name) (x : ℤ) : ℤ := if payer = to' then 0 else x

theorem payment_payer (payer to' : Name) (x : ℤ) :
    payment payer to' x payer = -outlay payer to' x := by
  rw [payment_apply, outlay, if_pos rfl]
  split <;> simp

theorem outlay_neg (payer to' : Name) (x : ℤ) :
    outlay payer to' (-x) = -outlay payer to' x := by
  unfold outlay
  split <;> simp

/-- A transfer that is sent is pending. -/
theorem purse_send {s z : SysState} {auths : List PermissionLevel}
    {from' to' : Name} {x : Asset} {memo : String}
    (hout : z.outbox = s.outbox ++ [⟨auths, .transfer from' to' x memo⟩])
    (hrefunds : z.refunds = s.refunds) (t : TokenState) (a : Name) :
    z.purse t x.symbol.code a =
      s.purse t x.symbol.code a + payment from' to' x.amount a := by
  have hpending := pending_append (t := t) hout x.symbol.code
  simp only [Chain.sentFlow, List.map_cons, List.map_nil, List.sum_cons,
    List.sum_nil, add_zero, TokenAction.flow_transfer] at hpending
  rw [SysState.purse, hpending, Pi.add_apply, SysState.refunded, hrefunds,
    SysState.purse, SysState.refunded]
  ring

section Stake

variable {s s' : SysState} {p receiver : Name} {dn dc : Asset} {ρ : ℤ × ℤ}

/-- A stake takes its amount out of the purse: what the refund covers is not
paid.  The stake account stakes for nothing. -/
theorem System.StakeChange.purse
    (h : System.StakeChange s s' p p receiver dn dc ρ) (t : TokenState) :
    s'.purse t dn.symbol.code p = s.purse t dn.symbol.code p -
      outlay p stakeAccount (dn.amount + dc.amount) := by
  have hpending := congrFun (pending_staked (t := t) h) p
  rw [Pi.add_apply, payment_payer] at hpending
  have hrefunded : weight (s'.refunded p) = weight (s.refunded p) +
      (ρ.1 + ρ.2) := by
    rw [h.refunded, Pi.add_apply, Pi.single_eq_same, weight_add]
    rfl
  have hown : p = stakeAccount → ρ = 0 := by
    intro hp
    rcases h.payment with ⟨_, hρ, _⟩ | ⟨hne, _⟩
    · exact hρ
    · exact absurd hp hne
  rw [SysState.purse, SysState.purse, hpending, hrefunded]
  unfold outlay
  split
  · next hp =>
      rw [hown hp]
      simp
  · ring

end Stake

/-! ## A trade -/

/-- `bytes` have gone from the market to the receiver for `quant` tokens of the
payer, who has staked twice `stake` for the receiver; a sale is a trade of
negative amounts. -/
structure SysState.Trade (s s' : SysState) (core : Symbol)
    (payer receiver : Name) (bytes quant stake : ℤ) : Prop where
  market : ∃ row, s.market.memmarket = some row ∧
    s'.market.memmarket = some { row with
      base := { row.base with amount := row.base.amount - bytes }
      quote := { row.quote with amount := row.quote.amount + quant } }
  memStake : s'.market.totalMemStake = s.market.totalMemStake + quant
  gauge : s'.market.gauge = s.market.gauge
  memBytes : s'.memBytes = s.memBytes + Pi.single receiver bytes
  totals : s'.totals = s.totals + Pi.single receiver (stake, stake)
  delegated : s'.delegated = s.delegated + cell payer receiver (stake, stake)
  staked : s'.staked = s.staked + Pi.single payer (stake + stake)
  stakedInRange : System.StakedInRange s'.staked
  purse : ∀ t, s'.purse t core.code payer = s.purse t core.code payer -
    outlay payer memAccount quant -
    outlay payer stakeAccount (stake + stake)

/-- A trade leaves the core symbol alone. -/
theorem SysState.Trade.coreSymbol {s s' : SysState} {core core' : Symbol}
    {payer receiver : Name} {bytes quant stake : ℤ}
    (h : s.Trade s' core payer receiver bytes quant stake)
    (hcore : s.market.coreSymbol = .ok core') :
    s'.market.coreSymbol = .ok core' := by
  obtain ⟨row, hrow, hrow'⟩ := h.market
  rw [Market.coreSymbol_ok, hrow] at hcore
  rw [Market.coreSymbol_ok, hrow']
  exact hcore

namespace System

variable {env : Env} {ctx : Ctx} {s s' : SysState} {core : Symbol} {quote₀ : ℤ}

/-- **A purchase** is a trade of the bytes that the tokens are worth; the
payer stakes what these bytes are worth. -/
theorem buyresources_trade {payer receiver : Name} {quant : Asset}
    (hopen : Open core quote₀ s) (hrange : StakedInRange s.staked)
    (h : buyresources env ctx s payer receiver quant = .ok s') :
    quant.symbol = core ∧ 0 < quant.amount ∧
    0 < quant.amount * mib / 10000 ∧
    ∃ market, s.market.updateMemSupply ctx = .ok market ∧
      SysState.Trade { s with market } s' core payer receiver
        (quant.amount * mib / 10000) quant.amount
        (quant.amount * mib / 10000 * 10000 / mib) := by
  obtain ⟨_, hpos, market, market', b, userres, res, stake, ρ, hmarket, hcore,
    hbuy, hcredit, hstake, _, hcore', hchange⟩ := buyresources_ok h hrange
  have hopen₁ := hopen.grown hmarket
  obtain ⟨_, row, L, htrades⟩ := hopen₁
  obtain ⟨hsym, hb, hbpos, _, _, _, _, hm⟩ :=
    Market.buy_ok htrades.hasRow hpos hbuy
  have hmove : Moved { s with market } (.bought payer receiver quant b)
      { s.send [⟨payer, activePermission⟩, ⟨memAccount, activePermission⟩]
          (.transfer payer memAccount quant "buy MEM") with
        market := market', userres } :=
    ⟨market', userres, res, hpos, hcore, hbuy, hcredit, rfl⟩
  obtain ⟨hbytes, hpaid⟩ := hmove.bytes_paidIn (hopen.grown hmarket)
  have hworth : stake = ⟨b * 10000 / mib, core⟩ := by
    rw [hstake, Int.tdiv_eq_ediv_of_nonneg (by omega), hsym]
  obtain ⟨howner, htable, hweights, _⟩ := creditBytes_ok hcredit
  have htotals : view UserResources.weights userres =
      view UserResources.weights s.userres :=
    htable ▸ view_put_same _ _ howner hweights
  subst hb
  refine ⟨hsym, hpos, hbpos, market, hmarket, ?_⟩
  rw [hworth] at hchange
  exact
    { market := ⟨row, htrades.hasRow.found, by rw [hchange.market, hm]⟩
      memStake := by rw [hchange.market]; exact hpaid
      gauge := by rw [hchange.market]; exact Market.buy_gauge hbuy
      memBytes := hchange.memBytes.trans hbytes
      totals := hchange.totals.trans (congrArg (· + _) htotals)
      delegated := hchange.delegated
      staked := hchange.staked
      stakedInRange := hchange.stakedInRange
      purse := fun t => by
        have hsent := purse_send (s := { s with market })
          (z := { s.send
              [⟨payer, activePermission⟩, ⟨memAccount, activePermission⟩]
              (.transfer payer memAccount quant "buy MEM") with
            market := market', userres }) rfl rfl t payer
        rw [payment_payer, hsym, ← sub_eq_add_neg] at hsent
        rw [← hsent]
        exact hchange.purse t }

/-- **A sale** is a trade of negative amounts: the bytes come back and whole
mebibytes are paid and unstaked. -/
theorem sellres_trade {account : Name} {bytes : ℤ}
    (hopen : Open core quote₀ s) (hrange : StakedInRange s.staked)
    (h : sellres env ctx s account bytes = .ok s') :
    0 < bytes ∧ ∃ market, s.market.updateMemSupply ctx = .ok market ∧
      SysState.Trade { s with market } s' core account account (-bytes)
        (-(bytes / mib * 10000)) (-(bytes / mib * 10000)) := by
  obtain ⟨_, hpos, row, market, market', tokens, s₂, ρ, _, hrow, hquota,
    hmarket, hsell, _, _, hchange, rfl⟩ := sellres_ok h hrange
  obtain ⟨_, exch, L, htrades⟩ := hopen.grown hmarket
  obtain ⟨htokens, _, _, _, _, _, hm⟩ :=
    Market.sell_ok htrades.hasRow hpos hsell
  have hmove : Moved { s with market } (.sold account bytes tokens)
      { s with
        market := market'
        userres := s.userres.put
          { row with memBytes := i64 (row.memBytes - bytes) } } :=
    ⟨row, market', hrow, hpos, hquota, hsell, rfl⟩
  obtain ⟨hbytes, hpaid⟩ := hmove.bytes_paidIn (hopen.grown hmarket)
  have howner : row.owner = account := KeyedTable.key_of_find hrow
  have htotals : view UserResources.weights (s.userres.put
      { row with memBytes := i64 (row.memBytes - bytes) }) =
        view UserResources.weights s.userres :=
    view_put_same _ _ (k := account) howner
      (view_of_find (f := UserResources.weights) hrow).symm
  have hamount : tokens.amount = bytes / mib * 10000 := by rw [htokens]
  have hcode : tokens.symbol = core := by rw [htokens]
  refine ⟨hpos, market, hmarket, ?_⟩
  rw [← hamount]
  exact
    { market := ⟨exch, htrades.hasRow.found, by
        show s₂.market.memmarket = _
        rw [hchange.market, hm]
        simp [sub_eq_add_neg]⟩
      memStake := by
        show s₂.market.totalMemStake = _
        rw [hchange.market]
        exact hpaid
      gauge := by
        show s₂.market.gauge = _
        rw [hchange.market]
        exact Market.sell_gauge hsell
      memBytes := hchange.memBytes.trans (by
        rw [Pi.single_neg]
        exact hbytes)
      totals := hchange.totals.trans (congrArg (· + _) htotals)
      delegated := hchange.delegated
      staked := hchange.staked
      stakedInRange := hchange.stakedInRange
      purse := fun t => by
        have hspent := hchange.purse t
        have hsent := purse_send (s := s₂)
          (z := s₂.send
              [⟨memAccount, activePermission⟩, ⟨account, activePermission⟩]
              (.transfer memAccount account tokens "sell MEM")) rfl rfl t
          account
        have hpaid₂ : payment memAccount account tokens.amount account =
            outlay account memAccount tokens.amount := by
          rw [payment_apply, outlay, if_pos rfl]
          split <;> simp
        rw [hpaid₂, hcode] at hsent
        rw [Asset.neg, hcode] at hspent
        have hbefore : SysState.purse { s with
            market := market'
            userres := s.userres.put
              { row with memBytes := i64 (row.memBytes - bytes) } } t
            core.code account =
          SysState.purse { s with market } t core.code account := rfl
        rw [hbefore] at hspent
        dsimp only at hspent
        rw [hsent, hspent, outlay_neg _ memAccount]
        ring }

end System

/-! ## On the chain -/

namespace Chain

variable {env : Env} {ctx : Ctx} {c c' : Chain}

theorem Reachable.gauged_of_core (hc : Reachable env c) {core : Symbol}
    (hcore : c.sys.market.coreSymbol = .ok core) : c.Gauged := by
  refine hc.gauged fun hnone => ?_
  rw [Market.coreSymbol_ok, hnone] at hcore
  cases hcore

/-- The market that a trade finds: only the stock has grown, by what is due of
the product of 32 bits. -/
theorem Gauged.grown_row {m : Market} {row' : ExchangeState} (hc : c.Gauged)
    (hslot : c.slot ≤ ctx.slot)
    (hgrow : c.sys.market.updateMemSupply ctx = .ok m)
    (hrow' : m.memmarket = some row') :
    ∃ row, c.sys.market.memmarket = some row ∧
      row' = { row with base := { row.base with amount := row.base.amount +
        ((c.sys.market.dueGrowth ctx.slot % 2 ^ 32 : ℕ) : ℤ) } } ∧
      m.totalMemStake = c.sys.market.totalMemStake := by
  obtain ⟨_, _, hgrown⟩ := hc.grown hslot hgrow
  have honSale := hgrown.onSale
  rw [hrow', Option.map_some] at honSale
  obtain ⟨row, hrow, hamount⟩ := Option.map_eq_some_iff.mp honSale.symm
  refine ⟨row, hrow, ?_⟩
  rw [hamount]
  rcases Market.updateMemSupply_ok hgrow with rfl | ⟨_, row₁, hrow₁, rfl⟩
  · obtain rfl := Option.some.inj (hrow.symm.trans hrow')
    exact ⟨rfl, rfl⟩
  · obtain rfl := Option.some.inj (hrow.symm.trans hrow₁)
    obtain rfl := Option.some.inj hrow'
    exact ⟨rfl, rfl⟩

/-- What an action has sent is transferred. -/
theorem step_pending {a : SysAction} (hc : c.Settled)
    (h : Step env c (.system ctx a) c') :
    ∃ s, System.apply env ctx c.token c.sys a = .ok s ∧
      c'.sys = { s with outbox := [] } ∧
      s.outbox.foldlM (runInline ctx s) c.token = .ok c'.token ∧
      ∀ code, c'.token.balances code = s.pending c.token code := by
  obtain ⟨s, hs, hout, hsys⟩ := step_apply h
  obtain ⟨ms, hrun, _⟩ := System.apply_moves hs hc.staked
  refine ⟨s, hs, hsys, hout, fun code => balances_runInline hout ?_ code⟩
  exact hrun.invariant (fun _ => True)
    (fun s m s' _ hs hm => Moved.not_isRetire hm hs) (fun _ _ => trivial)
    (by simp [hc.outbox])

/-- What an account has at hand after an action. -/
theorem purse_eq {s : SysState} {core : Symbol}
    (hsys : c'.sys = { s with outbox := [] })
    (hbalances : ∀ code, c'.token.balances code = s.pending c.token code)
    (hcore : s.market.coreSymbol = .ok core) (a : Name) :
    c'.purse a = s.purse c.token core.code a := by
  have hcore' : c'.sys.market.coreSymbol = .ok core := by rw [hsys, hcore]
  rw [purse, liquid_of_core hcore', hbalances, hsys]
  rfl

theorem Settled.purse_eq (hc : c.Settled) {core : Symbol}
    (hcore : c.sys.market.coreSymbol = .ok core) (a : Name) :
    c.purse a = c.sys.purse c.token core.code a := by
  rw [purse, liquid_of_core hcore, SysState.purse, hc.pending]

/-- What an account has at hand after a trade of its own. -/
theorem Settled.purse_traded (hc : c.Settled) {s : SysState} {market : Market}
    {core : Symbol} {payer receiver : Name} {bytes quant stake : ℤ}
    (hsys : c'.sys = { s with outbox := [] })
    (hbalances : ∀ code, c'.token.balances code = s.pending c.token code)
    (hcore : c.sys.market.coreSymbol = .ok core)
    (hmarket : market.coreSymbol = .ok core)
    (htrade : SysState.Trade { c.sys with market } s core payer receiver bytes
      quant stake) :
    c'.purse payer = c.purse payer - outlay payer memAccount quant -
      outlay payer stakeAccount (stake + stake) := by
  have hspent : s.purse c.token core.code payer =
      c.sys.purse c.token core.code payer - _ - _ := htrade.purse c.token
  rw [Chain.purse_eq hsys hbalances (htrade.coreSymbol hmarket), hspent,
    hc.purse_eq hcore]

end Chain

end Inery
