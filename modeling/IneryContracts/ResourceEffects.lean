import IneryContracts.ChainActions
import IneryContracts.MarketEffects
import IneryContracts.StakeEffects

/-!
# What the actions on resources do

The actions that stake, unstake, pay refunds and trade memory, taken apart
into the changes of stake and the trades they consist of, and the frames of
all other actions.
-/

namespace Inery

open GuardedStep LedgerVector MachineInt

namespace System

/-! ## Staking -/

/-- The limits of the host play no part in a change of stake. -/
theorem StakeChange.of_limits {s s₁ s' : SysState}
    {source owner receiver : Name} {dn dc : Asset} {ρ : ℤ × ℤ}
    (h : StakeChange s s₁ source owner receiver dn dc ρ)
    (hs' : ∃ limits, s' = { s₁ with limits }) :
    StakeChange s s' source owner receiver dn dc ρ := by
  obtain ⟨limits, rfl⟩ := hs'
  exact { h with }

/-- What `delegatebw` checks before it changes the stake. -/
theorem delegatebw_calls {env : Env} {ctx : Ctx} {s s' : SysState}
    {from' receiver : Name} {net cpu : Asset} {transfer : Bool}
    (h : delegatebw env ctx s from' receiver net cpu transfer = .ok s') :
    s.market.coreSymbol = .ok net.symbol ∧ cpu.symbol = net.symbol ∧
    0 ≤ net.amount ∧ 0 ≤ cpu.amount ∧ (transfer = false ∨ from' ≠ receiver) ∧
    changebw env ctx s from' receiver net cpu transfer = .ok s' := by
  simp only [delegatebw, bind_eq_ok, Asset.make_eq_ok, Asset.checkGe_eq_ok,
    check_eq_ok, exists_const] at h
  obtain ⟨core, hcore, zero, ⟨_, _, rfl⟩, ⟨hcpu, hcpu0⟩, ⟨hnet, hnet0⟩, _,
    hself, h⟩ := h
  dsimp only at hcpu hnet hcpu0 hnet0
  subst hnet
  exact ⟨hcore, hcpu, hnet0, hcpu0, hself, h⟩

/-- What `undelegatebw` checks before it changes the stake. -/
theorem undelegatebw_calls {env : Env} {ctx : Ctx} {s s' : SysState}
    {from' receiver : Name} {net cpu : Asset}
    (h : undelegatebw env ctx s from' receiver net cpu = .ok s') :
    s.market.coreSymbol = .ok net.symbol ∧ cpu.symbol = net.symbol ∧
    0 ≤ net.amount ∧ 0 ≤ cpu.amount ∧
    i64 (cpu.amount + net.amount) > 0 ∧
    changebw env ctx s from' receiver net.neg cpu.neg false = .ok s' := by
  simp only [undelegatebw, bind_eq_ok, Asset.make_eq_ok,
    Asset.checkGe_eq_ok, check_eq_ok, exists_const] at h
  obtain ⟨core, hcore, zero, ⟨_, _, rfl⟩, ⟨hcpu, hcpu0⟩, ⟨hnet, hnet0⟩, hpos,
    h⟩ := h
  dsimp only at hcpu hnet hcpu0 hnet0
  subst hnet
  exact ⟨hcore, hcpu, hnet0, hcpu0, hpos, h⟩

/-- Staking needs the core symbol and amounts that are not negative. -/
theorem delegatebw_ok {env : Env} {ctx : Ctx} {s s' : SysState}
    {from' receiver : Name} {net cpu : Asset} {transfer : Bool}
    (h : delegatebw env ctx s from' receiver net cpu transfer = .ok s')
    (hrange : StakedInRange s.staked) :
    ctx.HasAuth from' ∧ s.market.coreSymbol = .ok net.symbol ∧
    cpu.symbol = net.symbol ∧ 0 ≤ net.amount ∧ 0 ≤ cpu.amount ∧
    (transfer = false ∨ from' ≠ receiver) ∧
    ∃ ρ, StakeChange s s' from' (if transfer then receiver else from')
      receiver net cpu ρ := by
  obtain ⟨hcore, hcpu, hnet0, hcpu0, hself, h⟩ := delegatebw_calls h
  obtain ⟨hauth, _, ρ, hchange⟩ := changebw_ok hrange hcore h
  exact ⟨hauth, hcore, hcpu, hnet0, hcpu0, hself, ρ, hchange⟩

/-- Unstaking is a change of stake by the negated amounts. -/
theorem undelegatebw_ok {env : Env} {ctx : Ctx} {s s' : SysState}
    {from' receiver : Name} {net cpu : Asset}
    (h : undelegatebw env ctx s from' receiver net cpu = .ok s')
    (hrange : StakedInRange s.staked) :
    ctx.HasAuth from' ∧ s.market.coreSymbol = .ok net.symbol ∧
    cpu.symbol = net.symbol ∧ 0 ≤ net.amount ∧ 0 ≤ cpu.amount ∧
    ∃ ρ, StakeChange s s' from' from' receiver net.neg cpu.neg ρ := by
  obtain ⟨hcore, hcpu, hnet0, hcpu0, _, h⟩ := undelegatebw_calls h
  have hneg : s.market.coreSymbol = .ok net.neg.symbol := hcore
  obtain ⟨hauth, _, ρ, hchange⟩ := changebw_ok hrange hneg h
  exact ⟨hauth, hcore, hcpu, hnet0, hcpu0, ρ, hchange⟩

/-- What `refund` checks, drops and sends. -/
theorem refund_ok {ctx : Ctx} {s s' : SysState} {owner : Name}
    (h : refund ctx s owner = .ok s') :
    ctx.HasAuth owner ∧ ∃ req, s.refunds.find owner = some req ∧
      req.owner = owner ∧
      (req.requestTime + refundDelaySec) * 1000000 ≤ ctx.currentTimePoint ∧
      s' = { s.send
          [⟨stakeAccount, activePermission⟩, ⟨owner, activePermission⟩]
          (.transfer stakeAccount owner
            ⟨req.netAmount.amount + req.cpuAmount.amount,
              req.netAmount.symbol⟩ "unstake") with
        refunds := s.refunds.erase owner } := by
  simp only [refund, bind_eq_ok, Ctx.requireAuth_eq_ok, orStop_eq_ok,
    check_eq_ok, Asset.add_eq_ok, pure_eq_ok, exists_const] at h
  obtain ⟨hauth, req, hreq, hdue, quantity, ⟨_, _, rfl⟩, rfl⟩ := h
  have hkey : req.owner = owner := KeyedTable.key_of_find hreq
  refine ⟨hauth, req, hreq, hkey, hdue, ?_⟩
  rw [hkey]
  rfl

/-! ## Trading -/

/-- Setting a limit after a trade changes the limits alone. -/
theorem limitTraded_ok (s : SysState) (row : UserResources) :
    ∃ limits, limitTraded s row = { s with limits } := by
  unfold limitTraded
  dsimp only
  split
  · exact ⟨s.limits, rfl⟩
  · exact ⟨_, rfl⟩

/-- Bought bytes are credited to the receiver and to nobody else, and no row
loses its weights. -/
theorem creditBytes_ok {core : Symbol}
    {tbl tbl' : KeyedTable UserResources.owner} {receiver : Name} {b : ℤ}
    {res : UserResources}
    (h : creditBytes core tbl receiver b = .ok (tbl', res)) :
    res.owner = receiver ∧ tbl' = tbl.put res ∧
    res.weights = view UserResources.weights tbl receiver ∧
    (tbl.find receiver = none ∧ res.memBytes = b ∨
      res.memBytes = i64 (view UserResources.memBytes tbl receiver + b)) := by
  unfold creditBytes at h
  split at h
  · next hnone =>
      simp only [bind_eq_ok, Asset.make_eq_ok, emplace_eq_ok, pure_eq_ok,
        Prod.mk.injEq] at h
      obtain ⟨zero, ⟨_, _, rfl⟩, _, ⟨_, rfl⟩, rfl, rfl⟩ := h
      refine ⟨rfl, rfl, ?_, .inl ⟨hnone, rfl⟩⟩
      rw [view_of_none hnone]
      rfl
  · next row hrow =>
      simp only [bind_eq_ok, modify_eq_ok, pure_eq_ok, Prod.mk.injEq] at h
      obtain ⟨_, ⟨_, _, hkey, rfl⟩, rfl, rfl⟩ := h
      refine ⟨hkey, rfl, ?_, .inr ?_⟩
      · rw [view_of_find hrow]
        rfl
      · rw [view_of_find hrow]

/-- What `buyresources` checks and calls. -/
theorem buyresources_calls {env : Env} {ctx : Ctx} {s s' : SysState}
    {payer receiver : Name} {quant : Asset}
    (h : buyresources env ctx s payer receiver quant = .ok s') :
    ctx.HasAuth payer ∧ 0 < quant.amount ∧
    ∃ market market' b userres res stake s₁,
      s.market.updateMemSupply ctx = .ok market ∧
      market.coreSymbol = .ok quant.symbol ∧
      market.buy quant = .ok (market', b) ∧
      creditBytes quant.symbol s.userres receiver b = .ok (userres, res) ∧
      stake = ⟨(b * 10000).tdiv mib, quant.symbol⟩ ∧
      delegatebw env ctx
        { s.send [⟨payer, activePermission⟩, ⟨memAccount, activePermission⟩]
            (.transfer payer memAccount quant "buy MEM") with
          market := market', userres }
        payer receiver stake stake false = .ok s₁ ∧
      s' = limitTraded s₁ res := by
  simp only [buyresources, bind_eq_ok, Ctx.requireAuth_eq_ok, check_eq_ok,
    Asset.make_eq_ok, pure_eq_ok, exists_const] at h
  obtain ⟨hauth, market, hmarket, core, hcore, hsym, hpos, ⟨market', b⟩, hbuy,
    ⟨userres, res⟩, hcredit, stake, ⟨_, _, hstake⟩, s₁, hdel, hs'⟩ := h
  subst hsym
  exact ⟨hauth, hpos, market, market', b, userres, res, stake, s₁, hmarket,
    hcore, hbuy, hcredit, hstake, hdel, hs'.symm⟩

/-- A purchase: the payment is sent, the bytes are traded and credited, and
the payer stakes for the receiver. -/
theorem buyresources_ok {env : Env} {ctx : Ctx} {s s' : SysState}
    {payer receiver : Name} {quant : Asset}
    (h : buyresources env ctx s payer receiver quant = .ok s')
    (hrange : StakedInRange s.staked) :
    ctx.HasAuth payer ∧ 0 < quant.amount ∧
    ∃ market market' b userres res stake ρ,
      s.market.updateMemSupply ctx = .ok market ∧
      market.coreSymbol = .ok quant.symbol ∧
      market.buy quant = .ok (market', b) ∧
      creditBytes quant.symbol s.userres receiver b = .ok (userres, res) ∧
      stake = ⟨(b * 10000).tdiv mib, quant.symbol⟩ ∧ 0 ≤ stake.amount ∧
      market'.coreSymbol = .ok stake.symbol ∧
      StakeChange
        { s.send [⟨payer, activePermission⟩, ⟨memAccount, activePermission⟩]
            (.transfer payer memAccount quant "buy MEM") with
          market := market', userres }
        s' payer payer receiver stake stake ρ := by
  obtain ⟨hauth, hpos, market, market', b, userres, res, stake, s₁, hmarket,
    hcore, hbuy, hcredit, hstake, hdel, hs'⟩ := buyresources_calls h
  obtain ⟨_, hcore', _, hnonneg, _, _, ρ, hchange⟩ :=
    delegatebw_ok hdel hrange
  refine ⟨hauth, hpos, market, market', b, userres, res, stake, ρ, hmarket,
    hcore, hbuy, hcredit, hstake, hnonneg, hcore', ?_⟩
  refine hchange.of_limits ?_
  rw [hs']
  exact limitTraded_ok s₁ res

/-- What `sellres` checks and calls. -/
theorem sellres_calls {env : Env} {ctx : Ctx} {s s' : SysState}
    {account : Name} {bytes : ℤ}
    (h : sellres env ctx s account bytes = .ok s') :
    ctx.HasAuth account ∧ 0 < bytes ∧
    ∃ row market market' tokens s₁,
      (s.election.producers.find account).isSome ∧
      s.userres.find account = some row ∧ bytes ≤ row.memBytes ∧
      s.market.updateMemSupply ctx = .ok market ∧
      market.sell bytes = .ok (market', tokens) ∧
      undelegatebw env ctx { s with
        market := market'
        userres := s.userres.put
          { row with memBytes := i64 (row.memBytes - bytes) } }
        account account tokens tokens = .ok s₁ ∧
      s' = (limitTraded s₁
        { row with memBytes := i64 (row.memBytes - bytes) }).send
        [⟨memAccount, activePermission⟩, ⟨account, activePermission⟩]
        (.transfer memAccount account tokens "sell MEM") := by
  simp only [sellres, bind_eq_ok, Ctx.requireAuth_eq_ok, check_eq_ok,
    tableGet_eq_ok, deref_eq_ok, modify_eq_ok, Asset.make_eq_ok, pure_eq_ok,
    exists_const] at h
  obtain ⟨hauth, market, hmarket, hpos, prod, hprod, row, hrow, _, hquota,
    ⟨market', tokens⟩, hsell, _, ⟨_, _, _, rfl⟩, core, hcore, unstake,
    ⟨_, _, hunstake⟩, s₁, hund, rfl⟩ := h
  have hsymbol := (Market.sell_coreSymbol hsell).2
  have htokens : unstake = tokens := by
    rw [hunstake, Except.ok.inj (hcore.symm.trans hsymbol)]
  subst htokens
  exact ⟨hauth, hpos, row, market, market', unstake, s₁,
    Option.isSome_of_mem hprod, hrow, hquota, hmarket, hsell, hund, rfl⟩

/-- A sale: the bytes are traded and debited, the seller unstakes what it is
paid, and the payment is sent. -/
theorem sellres_ok {env : Env} {ctx : Ctx} {s s' : SysState} {account : Name}
    {bytes : ℤ} (h : sellres env ctx s account bytes = .ok s')
    (hrange : StakedInRange s.staked) :
    ctx.HasAuth account ∧ 0 < bytes ∧
    ∃ row market market' tokens s₂ ρ,
      (s.election.producers.find account).isSome ∧
      s.userres.find account = some row ∧ bytes ≤ row.memBytes ∧
      s.market.updateMemSupply ctx = .ok market ∧
      market.sell bytes = .ok (market', tokens) ∧
      market'.coreSymbol = .ok tokens.symbol ∧ 0 ≤ tokens.amount ∧
      StakeChange
        { s with
          market := market'
          userres := s.userres.put
            { row with memBytes := i64 (row.memBytes - bytes) } }
        s₂ account account account tokens.neg tokens.neg ρ ∧
      s' = s₂.send [⟨memAccount, activePermission⟩, ⟨account, activePermission⟩]
        (.transfer memAccount account tokens "sell MEM") := by
  obtain ⟨hauth, hpos, row, market, market', tokens, s₁, hprod, hrow, hquota,
    hmarket, hsell, hund, rfl⟩ := sellres_calls h
  obtain ⟨_, hcore', _, hnonneg, _, ρ, hchange⟩ := undelegatebw_ok hund hrange
  exact ⟨hauth, hpos, row, market, market', tokens, _, ρ, hprod, hrow, hquota,
    hmarket, hsell, hcore', hnonneg,
    hchange.of_limits (limitTraded_ok s₁ _), rfl⟩

/-- A purchase by size is a purchase followed by one more stake. -/
theorem buymembytes_ok {env : Env} {ctx : Ctx} {s s' : SysState}
    {payer receiver : Name} {bytes : UInt32}
    (h : buymembytes env ctx s payer receiver bytes = .ok s') :
    ∃ price : Asset, ∃ s₁, price.amount = (bytes.toNat : ℤ) / mib * 10000 ∧
      s.market.coreSymbol = .ok price.symbol ∧
      buyresources env ctx s payer receiver price = .ok s₁ ∧
      delegatebw env ctx s₁ payer receiver price price false = .ok s' := by
  simp only [buymembytes, bind_eq_ok, deref_eq_ok, Asset.make_eq_ok] at h
  obtain ⟨itr, _, core, hcore, price, ⟨_, _, hprice⟩, s₁, hbuy, hdel⟩ := h
  have hbytes := bytes.toNat_lt
  have hcost : i64 ((bytes.toNat : ℤ) / mib * 10000) =
      (bytes.toNat : ℤ) / mib * 10000 :=
    i64_of_range (by unfold mib; omega) (by unfold mib; omega)
  rw [ExchangeState.getBancorInput_eq (by omega), hcost] at hprice
  refine ⟨price, s₁, ?_, ?_, hbuy, hdel⟩
  · rw [hprice]
  · rw [hcore, hprice]

end System

end Inery
