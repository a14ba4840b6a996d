import IneryContracts.MarketBacking

/-!
# The core token

The opening of the market fixes the core token for good.  From then on it has
the symbol of a token that was created, everything that is staked, refunded or
kept for a receiver of stake is counted in it, and memory that somebody holds
has a symbol of its own.
-/

namespace Inery

open GuardedStep LedgerVector LabelledRun MachineInt

/-! ## Rows in the core token -/

/-- An amount of the core token, whose symbol is a valid one. -/
def Asset.In (core : Symbol) (a : Asset) : Prop :=
  a.symbol = core ∧ core.isValid = true

/-- The negative of an amount is an amount of the same token. -/
theorem Asset.In.neg {core : Symbol} {a : Asset} (h : a.In core) :
    a.neg.In core := h

/-- The delegated stake is counted in the core token. -/
def DelegatedBandwidth.In (core : Symbol) (d : DelegatedBandwidth) : Prop :=
  d.netWeight.In core ∧ d.cpuWeight.In core

/-- The totals are counted in the core token. -/
def UserResources.In (core : Symbol) (r : UserResources) : Prop :=
  r.netWeight.In core ∧ r.cpuWeight.In core

/-- The refund is counted in the core token. -/
def RefundRequest.In (core : Symbol) (r : RefundRequest) : Prop :=
  r.netAmount.In core ∧ r.cpuAmount.In core

/-- The stakes, the totals and the refunds are all in the core token. -/
structure Denominated (core : Symbol) (s : SysState) : Prop where
  delband : ∀ a, (s.delband a).All (DelegatedBandwidth.In core)
  userres : s.userres.All (UserResources.In core)
  refunds : s.refunds.All (RefundRequest.In core)

/-- Only the resource tables matter. -/
theorem Denominated.of_same {core : Symbol} {s s' : SysState}
    (h : Denominated core s) (hsame : SameResources s s') :
    Denominated core s' where
  delband := hsame.delband ▸ h.delband
  userres := hsame.userres ▸ h.userres
  refunds := hsame.refunds ▸ h.refunds

/-- Before the market opens there are no rows. -/
theorem Closed.denominated {s : SysState} (h : Closed s) (core : Symbol) :
    Denominated core s where
  delband a k row hrow := by
    rw [h.delband a k] at hrow
    cases hrow
  userres k row hrow := by
    rw [h.userres k] at hrow
    cases hrow
  refunds k row hrow := by
    rw [h.refunds k] at hrow
    cases hrow

namespace System

section Parts

variable {core : Symbol} {from' receiver : Name} {dn dc : Asset}

/-- The row of the delegator stays in the core token. -/
private theorem updateDelband_in
    {tbl tbl' : KeyedTable DelegatedBandwidth.to'}
    (htbl : tbl.All (DelegatedBandwidth.In core)) (hn : dn.In core)
    (hc : dc.In core)
    (h : updateDelband tbl from' receiver dn dc = .ok tbl') :
    tbl'.All (DelegatedBandwidth.In core) := by
  simp only [updateDelband, bind_eq_ok, check_eq_ok, pure_eq_ok,
    exists_const] at h
  obtain ⟨⟨tbl₁, row⟩, hbook, _, _, rfl⟩ := h
  obtain ⟨_, rfl, _⟩ := bookDelegation_ok hbook
  refine htbl.settle ?_ row.isEmpty receiver
  unfold bookDelegation at hbook
  split at hbook
  · simp only [bind_eq_ok, emplace_eq_ok, pure_eq_ok, Prod.mk.injEq] at hbook
    obtain ⟨_, _, _, rfl⟩ := hbook
    exact ⟨hn, hc⟩
  · next old hold =>
      simp only [bind_eq_ok, Asset.add_eq_ok, modify_eq_ok, pure_eq_ok,
        Prod.mk.injEq] at hbook
      obtain ⟨_, ⟨_, _, rfl⟩, _, ⟨_, _, rfl⟩, _, _, _, rfl⟩ := hbook
      exact htbl receiver old hold

/-- The totals of the receiver stay in the core token. -/
private theorem updateTotals_in {tbl tbl' : KeyedTable UserResources.owner}
    {tot : UserResources} (htbl : tbl.All (UserResources.In core))
    (hn : dn.In core) (hc : dc.In core)
    (h : updateTotals tbl receiver dn dc = .ok (tbl', tot)) :
    tbl'.All (UserResources.In core) := by
  simp only [updateTotals, bind_eq_ok, check_eq_ok, pure_eq_ok,
    exists_const, Prod.mk.injEq] at h
  obtain ⟨⟨tbl₁, row⟩, hbook, _, _, rfl, rfl⟩ := h
  obtain ⟨_, rfl, _⟩ := bookTotals_ok hbook
  refine htbl.settle ?_ row.isEmpty receiver
  unfold bookTotals at hbook
  split at hbook
  · simp only [bind_eq_ok, emplace_eq_ok, pure_eq_ok, Prod.mk.injEq] at hbook
    obtain ⟨_, _, _, rfl⟩ := hbook
    exact ⟨hn, hc⟩
  · next old hold =>
      simp only [bind_eq_ok, Asset.add_eq_ok, modify_eq_ok, pure_eq_ok,
        Prod.mk.injEq] at hbook
      obtain ⟨_, ⟨_, _, rfl⟩, _, ⟨_, _, rfl⟩, _, _, _, rfl⟩ := hbook
      exact htbl receiver old hold

/-- What is left of a refund is counted in the core token. -/
private theorem reuseRefund_in {amount balance left rest : Asset}
    (hamount : amount.In core)
    (h : reuseRefund amount balance = .ok (left, rest)) : left.In core := by
  simp only [reuseRefund, bind_eq_ok, Asset.sub_eq_ok] at h
  obtain ⟨_, ⟨_, _, rfl⟩, h⟩ := h
  split at h
  · cases h
    exact hamount
  · cases h
    exact hamount

/-- A refund that starts is counted in the core token. -/
private theorem startRefund_in {balance left rest : Asset}
    (hbalance : balance.In core)
    (h : startRefund core balance = .ok (left, rest)) : left.In core := by
  unfold startRefund at h
  split at h
  · cases h
    exact hbalance
  · simp only [bind_eq_ok, Asset.make_eq_ok, pure_eq_ok, Prod.mk.injEq] at h
    obtain ⟨_, ⟨_, _, rfl⟩, rfl, _⟩ := h
    exact ⟨rfl, hbalance.2⟩

/-- The refunds stay in the core token. -/
private theorem updateRefund_in {ctx : Ctx}
    {refunds : KeyedTable RefundRequest.owner} {transfer : Bool}
    {u : RefundUpdate} (hrefunds : refunds.All (RefundRequest.In core))
    (hn : dn.In core) (hc : dc.In core)
    (h : updateRefund ctx refunds (.ok core) from' receiver dn dc transfer =
      .ok u) : u.refunds.All (RefundRequest.In core) := by
  cases updateRefund_cases h with
  | apart => exact hrefunds
  | absent => exact hrefunds
  | started _ _ _ found net cpu =>
      cases found
      exact hrefunds.put ⟨startRefund_in hn net, startRefund_in hc cpu⟩
  | @reused r req rest rest' _ row _ net cpu _ =>
      have hold := hrefunds from' r row
      exact hrefunds.settle ⟨reuseRefund_in hold.1 net,
        reuseRefund_in hold.2 cpu⟩ req.isEmpty from'

end Parts

section Actions

variable {env : Env} {ctx : Ctx} {s s' : SysState} {core : Symbol}

/-- A change of stake in the core token keeps all rows in it. -/
private theorem changebw_denominated {from' receiver : Name} {dn dc : Asset}
    {transfer : Bool} (hs : Denominated core s)
    (hcore : s.market.coreSymbol = .ok core) (hn : dn.In core)
    (hc : dc.In core)
    (h : changebw env ctx s from' receiver dn dc transfer = .ok s') :
    Denominated core s' := by
  generalize howner : (if transfer then receiver else from') = owner
  obtain ⟨_, _, _, _, delTbl, userres, tot, s₁, e₁, hdel, htot, hsettle, _,
    rfl⟩ := changebw_parts howner h
  obtain ⟨limits, hlimits⟩ := updateLimits_ok
    { s with delband := Function.update s.delband owner delTbl, userres }
    receiver tot
  rw [hlimits] at hsettle
  have hbooked : Denominated core { s with
      delband := Function.update s.delband owner delTbl, userres, limits } := by
    refine ⟨fun a => ?_, updateTotals_in hs.userres hn hc htot, hs.refunds⟩
    show (Function.update s.delband owner delTbl a).All _
    by_cases ha : a = owner
    · subst ha
      rw [Function.update_self]
      exact updateDelband_in (hs.delband a) hn hc hdel
    · rw [Function.update_of_ne ha]
      exact hs.delband a
  unfold settleRefund at hsettle
  split at hsettle
  · cases hsettle
    exact { hbooked with }
  · simp only [bind_eq_ok, hcore] at hsettle
    obtain ⟨u, hu, amount, _, hsettle⟩ := hsettle
    have hrefunds := updateRefund_in hs.refunds hn hc hu
    split at hsettle
    · cases hsettle
      exact ⟨hbooked.delband, hbooked.userres, hrefunds⟩
    · cases hsettle
      exact ⟨hbooked.delband, hbooked.userres, hrefunds⟩

/-- Staking keeps the tables in the core token. -/
private theorem delegatebw_denominated {from' receiver : Name}
    {net cpu : Asset} {transfer : Bool} (hs : Denominated core s)
    (hcore : s.market.coreSymbol = .ok core)
    (h : delegatebw env ctx s from' receiver net cpu transfer = .ok s') :
    Denominated core s' := by
  obtain ⟨_, _, _, _, _, hchange⟩ := delegatebw_calls h
  simp only [delegatebw, hcore, bind_eq_ok, Except.ok.injEq, exists_eq_left',
    Asset.make_eq_ok, Asset.checkGe_eq_ok, exists_const] at h
  obtain ⟨_, ⟨_, hvalid, rfl⟩, ⟨hcpu, _⟩, ⟨hnet, _⟩, _⟩ := h
  exact changebw_denominated hs hcore ⟨hnet, hvalid⟩ ⟨hcpu, hvalid⟩ hchange

/-- Unstaking keeps the tables in the core token. -/
private theorem undelegatebw_denominated {from' receiver : Name}
    {net cpu : Asset} (hs : Denominated core s)
    (hcore : s.market.coreSymbol = .ok core)
    (h : undelegatebw env ctx s from' receiver net cpu = .ok s') :
    Denominated core s' := by
  obtain ⟨_, _, _, _, _, hchange⟩ := undelegatebw_calls h
  simp only [undelegatebw, hcore, bind_eq_ok, Except.ok.injEq,
    exists_eq_left', Asset.make_eq_ok, Asset.checkGe_eq_ok,
    exists_const] at h
  obtain ⟨_, ⟨_, hvalid, rfl⟩, ⟨hcpu, _⟩, ⟨hnet, _⟩, _⟩ := h
  have hn : net.In core := ⟨hnet, hvalid⟩
  have hc : cpu.In core := ⟨hcpu, hvalid⟩
  exact changebw_denominated hs hcore hn.neg hc.neg hchange

/-- The growth of the supply does not touch the core token. -/
theorem updateMemSupply_coreSymbol {m m' : Market}
    (h : m.updateMemSupply ctx = .ok m') : m'.coreSymbol = m.coreSymbol := by
  rcases Market.updateMemSupply_ok h with rfl | ⟨_, row, hrow, rfl⟩
  · rfl
  · unfold Market.coreSymbol
    rw [hrow]
    rfl

/-- Bytes are credited to a row in the core token. -/
theorem creditBytes_in {tbl tbl' : KeyedTable UserResources.owner}
    {receiver : Name} {b : ℤ} {res : UserResources}
    (htbl : tbl.All (UserResources.In core))
    (h : creditBytes core tbl receiver b = .ok (tbl', res)) :
    tbl'.All (UserResources.In core) := by
  unfold creditBytes at h
  split at h
  · simp only [bind_eq_ok, Asset.make_eq_ok, emplace_eq_ok, pure_eq_ok,
      Prod.mk.injEq] at h
    obtain ⟨_, ⟨_, hvalid, rfl⟩, _, ⟨_, rfl⟩, rfl, _⟩ := h
    exact htbl.put ⟨⟨rfl, hvalid⟩, ⟨rfl, hvalid⟩⟩
  · next row hrow =>
      simp only [bind_eq_ok, modify_eq_ok, pure_eq_ok, Prod.mk.injEq] at h
      obtain ⟨_, ⟨_, _, _, rfl⟩, rfl, _⟩ := h
      exact htbl.put (htbl receiver row hrow)

/-- Buying keeps the tables in the core token. -/
private theorem buyresources_denominated {payer receiver : Name}
    {quant : Asset} (hs : Denominated core s)
    (hcore : s.market.coreSymbol = .ok core)
    (h : buyresources env ctx s payer receiver quant = .ok s') :
    Denominated core s' := by
  obtain ⟨_, _, market, market', b, userres, res, stake, s₁, hgrow, hsym, _,
    hcredit, rfl, hdel, rfl⟩ := buyresources_calls h
  rw [updateMemSupply_coreSymbol hgrow, hcore] at hsym
  obtain rfl : core = quant.symbol := Except.ok.inj hsym
  have hcalls := delegatebw_calls hdel
  obtain ⟨limits, hlimits⟩ := limitTraded_ok s₁ res
  rw [hlimits]
  have hend : Denominated quant.symbol s₁ := by
    refine delegatebw_denominated ?_ hcalls.1 hdel
    exact ⟨hs.delband, creditBytes_in hs.userres hcredit, hs.refunds⟩
  exact { hend with }

/-- Selling keeps the tables in the core token. -/
private theorem sellres_denominated {account : Name} {bytes : ℤ}
    (hs : Denominated core s) (hcore : s.market.coreSymbol = .ok core)
    (h : sellres env ctx s account bytes = .ok s') : Denominated core s' := by
  obtain ⟨_, _, row, market, market', tokens, s₁, _, hrow, _, hgrow, hsell,
    hund, rfl⟩ := sellres_calls h
  obtain ⟨hsym, hsym'⟩ := Market.sell_coreSymbol hsell
  rw [updateMemSupply_coreSymbol hgrow, hcore] at hsym
  obtain rfl : core = tokens.symbol := Except.ok.inj hsym
  obtain ⟨limits, hlimits⟩ := limitTraded_ok s₁
    { row with memBytes := i64 (row.memBytes - bytes) }
  rw [hlimits]
  have hend : Denominated tokens.symbol s₁ := by
    refine undelegatebw_denominated ?_ hsym' hund
    exact ⟨hs.delband, hs.userres.put (hs.userres account row hrow),
      hs.refunds⟩
  exact { hend with }

/-- **Every action keeps the rows in the core token.** -/
theorem apply_denominated {t : TokenState} {a : SysAction}
    (hs : Denominated core s) (hcore : s.market.coreSymbol = .ok core)
    (h : apply env ctx t s a = .ok s') : Denominated core s' := by
  have hplain : a.Plain → Denominated core s' :=
    fun ha => hs.of_same (apply_plain ha h).toSameResources
  cases a with
  | delegatebw from' receiver net cpu transfer =>
      exact delegatebw_denominated hs hcore h
  | undelegatebw from' receiver net cpu =>
      exact undelegatebw_denominated hs hcore h
  | buyresources payer receiver quant =>
      exact buyresources_denominated hs hcore h
  | buymembytes payer receiver bytes =>
      obtain ⟨price, s₁, _, hsym, hbuy, hdel⟩ := buymembytes_ok h
      obtain rfl : core = price.symbol := Except.ok.inj (hcore.symm.trans hsym)
      have hbought := buyresources_denominated hs hcore hbuy
      exact delegatebw_denominated hbought (delegatebw_calls hdel).1 hdel
  | sellres account bytes => exact sellres_denominated hs hcore h
  | refund owner =>
      obtain ⟨_, _, _, _, _, rfl⟩ := refund_ok h
      exact ⟨hs.delband, hs.userres, hs.refunds.erase owner⟩
  | newaccount creator newact =>
      simp only [apply, newaccount, hcore, bind_eq_ok, Except.ok.injEq,
        exists_eq_left', Ctx.requireAuth_eq_ok, Asset.make_eq_ok,
        emplace_eq_ok, pure_eq_ok, exists_const] at h
      obtain ⟨_, zero, ⟨_, hvalid, rfl⟩, _, ⟨_, rfl⟩, rfl⟩ := h
      have hzero : (⟨0, core⟩ : Asset).In core := ⟨rfl, hvalid⟩
      exact ⟨hs.delband, hs.userres.put ⟨hzero, hzero⟩, hs.refunds⟩
  | claimrewards owner =>
      exact hs.of_same (claimrewards_ok h).2.1
  | init version core' =>
      simp only [apply, bind_eq_ok, pure_eq_ok] at h
      obtain ⟨_, _, rfl⟩ := h
      exact { hs with }
  | setmem size =>
      simp only [apply, bind_eq_ok, pure_eq_ok] at h
      obtain ⟨_, _, rfl⟩ := h
      exact { hs with }
  | setmemrate rate =>
      simp only [apply, bind_eq_ok, pure_eq_ok] at h
      obtain ⟨_, _, rfl⟩ := h
      exact { hs with }
  | onblock _ _ | setalimits _ _ _ _ | setacctmem _ _ | setacctnet _ _
  | setacctcpu _ _ | regproducer _ _ _ _ | regproducer2 _ _ _ _
  | unregprod _ | makeprod _ _ _ | regproxy _ _ | setparams _
  | rmvproducer _ | setinflation _ _ _ | setabi _ _ | privileged =>
      exact hplain trivial

end Actions

end System

/-! ## Trades -/

/-- Memory is held only where its symbol is not the core token's, and where
the reserve of the core token is an amount that can be. -/
def Sellable (core : Symbol) (s : SysState) : Prop :=
  ∀ a, 0 < s.memBytes a → memSymbol ≠ core ∧
    ∀ row, s.market.memmarket = some row → row.quote.amount ≤ Asset.maxAmount

/-- Every move leaves what has been sold sellable. -/
theorem Moved.sellable {m : Move} {s s' : SysState} {core : Symbol}
    {quote₀ : ℤ} (hmove : Moved s m s') (hopen : Open core quote₀ s)
    (h : Sellable core s) : Sellable core s' := by
  obtain ⟨hquote₀, row, L, htrades⟩ := hopen
  obtain ⟨⟨row', L', htrades', _, hheld', hpaid'⟩, _⟩ :=
    hmove.traded htrades hquote₀
  have hquote : row'.quote.amount = row.quote.amount + m.paidIn := by
    rw [htrades'.quote, htrades.quote, hpaid']
    ring
  have hend : memSymbol ≠ core → row'.quote.amount ≤ Asset.maxAmount →
      Sellable core s' := by
    intro hne hle a _
    refine ⟨hne, fun row₁ hrow₁ => ?_⟩
    obtain rfl : row' = row₁ :=
      Option.some.inj (htrades'.hasRow.found.symm.trans hrow₁)
    exact hle
  have hkept : m.bytes = 0 → m.paidIn = 0 → Sellable core s' := by
    intro hb hp a ha
    have hbytes : s'.memBytes a = s.memBytes a := by
      rw [htrades'.held, hheld', hb, add_zero, htrades.held]
    obtain ⟨hne, hle⟩ := h a (hbytes ▸ ha)
    refine hend hne ?_ a ha
    rw [hquote, hp, add_zero]
    exact hle row htrades.hasRow.found
  cases m with
  | bought payer receiver quant bytes =>
      obtain ⟨_, _, _, hpos, hsym, hbuy, _⟩ := hmove
      obtain ⟨_, _, _, _, ⟨_, hrange⟩, _⟩ :=
        Market.buy_ok htrades.hasRow hpos hbuy
      obtain rfl : core = quant.symbol :=
        Except.ok.inj (htrades.hasRow.coreSymbol.symm.trans hsym)
      exact hend (Market.symbol_ne_of_buy hbuy).symm (hquote.trans_le hrange)
  | sold account bytes tokens =>
      obtain ⟨res, _, hres, hpos, hquota, hsell, _⟩ := hmove
      obtain ⟨_, hlow, _⟩ := Market.sell_ok htrades.hasRow hpos hsell
      have hheld : s.memBytes account = res.memBytes := view_of_find hres
      obtain ⟨hne, hle⟩ := h account (by omega)
      have hold := hle row htrades.hasRow.found
      have hnew : row'.quote.amount = row.quote.amount - tokens.amount := hquote
      exact hend hne (by omega)
  | rest | payroll | opened | grown _ | rated | paidOut _ _
  | staked _ _ _ _ _ _ | refunded _ | created _ => exact hkept rfl rfl

namespace Chain

variable {env : Env} {c c' : Chain} {e : Event}

/-! ## The symbol of the core token -/

/-- The symbol of a code stays what it is. -/
theorem step_statOf_symbol (h : Step env c e c') (hc : c.Settled)
    {code : SymbolCode} {st : CurrencyStats}
    (hst : c.token.statOf code = some st) :
    ∃ st', c'.token.statOf code = some st' ∧
      st'.supply.symbol = st.supply.symbol := by
  obtain ⟨_, _, ⟨_, _, _, _, htoken⟩ | ⟨_, _, _, _, _, hout, _⟩ |
    ⟨_, _, _, _, ⟨_, _, hout, _⟩ | ⟨htoken, _⟩⟩⟩ := step_cases h
  · exact apply_statOf_symbol hc.token htoken hst
  · exact statOf_symbol_runInline hc.token hout hst
  · exact statOf_symbol_runInline hc.token hout hst
  · rw [htoken]
    exact ⟨st, hst, rfl⟩

/-- No event but the opening of the market brings a core token. -/
theorem Books.coreSymbol_of_step (hc : c.Books) (h : Step env c e c')
    (hinit : ¬ e.IsInit) {core : Symbol}
    (hcore : c'.sys.market.coreSymbol = .ok core) :
    c.sys.market.coreSymbol = .ok core := by
  rcases hc.market with hclosed | ⟨core₀, quote₀, hopen⟩
  · have hend := closed_of_step h hc.toSettled hclosed hinit
    rw [Market.coreSymbol_ok, hend.memmarket] at hcore
    cases hcore
  · have hend := (step_open h hc.toSettled hopen).1
    rw [hopen.coreSymbol, ← hcore]
    exact hend.coreSymbol.symm

/-- What is known of the core token once there is one. -/
structure CoreBooks (core : Symbol) (c : Chain) : Prop where
  stat : ∃ st, c.token.statOf core.code = some st ∧ st.supply.symbol = core
  rows : Denominated core c.sys
  sellable : Sellable core c.sys

/-- The opening takes the symbol of a token that exists. -/
theorem Books.coreBooks_of_init (hc : c.Books) (h : Step env c e c')
    (hinit : e.IsInit) {core : Symbol}
    (hcore : c'.sys.market.coreSymbol = .ok core) :
    c'.CoreBooks core ∧
      ∃ ctx version, e = .system ctx (.init version core) := by
  obtain ⟨ctx, version, core', rfl⟩ := hinit.eq_init
  obtain ⟨s, hs, hsys⟩ := step_system h
  simp only [System.apply, Market.init, Token.getSupply, bind_eq_ok,
    tableGet_eq_ok, check_eq_ok, Ctx.requireAuth_eq_ok, pure_eq_ok,
    exists_const, Option.isNone_iff_eq_none] at hs
  obtain ⟨_, ⟨_, _, hnone, supply, ⟨st, hst, rfl⟩, hsymbol, _, rfl⟩, rfl⟩ := hs
  rw [hsys, Market.coreSymbol_ok] at hcore
  obtain rfl : core' = core := Option.some.inj hcore
  obtain ⟨st', hst', hsame⟩ := step_statOf_symbol h hc.toSettled hst
  have hclosed : Closed c.sys := by
    rcases hc.market with hclosed | ⟨_, _, _, row, L, htrades⟩
    · exact hclosed
    · rw [htrades.hasRow.found] at hnone
      cases hnone
  refine ⟨⟨⟨st', hst', hsame.trans hsymbol⟩, ?_, ?_⟩, ctx, version, rfl⟩
  · rw [hsys]
    exact { hclosed.denominated core' with }
  · intro a ha
    have hzero : c'.sys.memBytes a = 0 := by
      rw [hsys]
      exact view_of_none (hclosed.userres a)
    omega

/-- Every event keeps the books of the core token. -/
theorem CoreBooks.step {core : Symbol} (hcb : c.CoreBooks core) (hc : c.Books)
    (hcore : c.sys.market.coreSymbol = .ok core) (h : Step env c e c') :
    c'.CoreBooks core where
  stat := by
    obtain ⟨st, hst, hsymbol⟩ := hcb.stat
    obtain ⟨st', hst', hsame⟩ := step_statOf_symbol h hc.toSettled hst
    exact ⟨st', hst', hsame.trans hsymbol⟩
  rows := by
    obtain ⟨_, _, ⟨_, _, _, hsys, _⟩ | ⟨_, _, s, _, happly, _, hsys⟩ |
      ⟨_, _, owner, _, ⟨s, happly, _, hsys⟩ | ⟨_, hsys⟩⟩⟩ := step_cases h
    · rw [hsys]
      exact hcb.rows
    · rw [hsys]
      exact { System.apply_denominated hcb.rows hcore happly with }
    · have hdropped : Denominated core (c.dropDeferred owner).sys :=
        { hcb.rows with }
      rw [hsys]
      exact { System.apply_denominated hdropped hcore happly with }
    · rw [hsys]
      exact { hcb.rows with }
  sellable := by
    obtain ⟨core', quote₀, hopen⟩ := hc.market.resolve_left (fun hclosed => by
      rw [Market.coreSymbol_ok, hclosed.memmarket] at hcore
      cases hcore)
    obtain rfl : core' = core :=
      Except.ok.inj (hopen.coreSymbol.symm.trans hcore)
    rcases step_moves h hc.toSettled with ⟨_, _, _, hsys, _⟩ | ⟨ms, s, hran⟩
    · rw [hsys]
      exact hcb.sellable
    · have hend := hran.run.invariant
        (I := fun s => Open core' quote₀ s ∧ Sellable core' s)
        (fun _ => True)
        (fun _ _ _ _ hs hm => ⟨hm.open hs.1, hm.sellable hs.1 hs.2⟩)
        (fun _ _ => trivial) ⟨hopen, hcb.sellable⟩
      rw [hran.sys]
      exact hend.2

/-- **From the opening on, the core token is what everything is counted in.** -/
theorem Reachable.coreBooks (h : Reachable env c) {core : Symbol}
    (hcore : c.sys.market.coreSymbol = .ok core) : c.CoreBooks core := by
  obtain ⟨es, hrun⟩ := h
  have hinv := hrun.invariant (I := fun c => c.Books ∧ ∀ core,
      c.sys.market.coreSymbol = .ok core → c.CoreBooks core) (fun _ => True)
    ?_ (fun _ _ => trivial) ⟨books_genesis env, fun core hcore => ?_⟩
  · exact hinv.2 core hcore
  · intro c e c' _ ⟨hc, hcb⟩ hstep
    refine ⟨hc.step hstep, fun core hcore => ?_⟩
    by_cases hinit : e.IsInit
    · exact (hc.coreBooks_of_init hstep hinit hcore).1
    · have hold := hc.coreSymbol_of_step hstep hinit hcore
      exact (hcb core hold).step hc hold hstep
  · rw [Market.coreSymbol_ok] at hcore
    cases hcore

/-- Statistics are kept for valid symbols only. -/
theorem Reachable.validSymbols (h : Reachable env c) :
    ValidSymbols c.token := by
  obtain ⟨es, hrun⟩ := h
  exact hrun.invariant (I := fun c => ValidSymbols c.token) (fun _ => True)
    (fun _ _ _ _ hc hstep => step_keeps apply_validSymbols hstep hc)
    (fun _ _ => trivial) validSymbols_genesis

/-- The core token has a valid symbol. -/
theorem Reachable.core_valid (h : Reachable env c) {core : Symbol}
    (hcore : c.sys.market.coreSymbol = .ok core) : core.isValid = true := by
  obtain ⟨st, hst, hsymbol⟩ := (h.coreBooks hcore).stat
  rw [← hsymbol]
  exact h.validSymbols core.code st hst

end Chain

end Inery
