import IneryContracts.TradeBooks

/-!
# The purchase by size

`buymembytes` is meant to buy a number of bytes at the price of the market.  The
price is computed for whole mebibytes and the rest of the bytes is cut off, so
only multiples of a mebibyte are delivered in full; and the price is staked
twice once more, besides the stake that the purchase has made itself, so the
action never does what the purchase at the same price does.
-/

namespace Inery

open GuardedStep LedgerVector LabelledRun MachineInt

namespace Chain

variable {env : Env} {ctx : Ctx} {c c' : Chain} {payer receiver : Name}
  {bytes : UInt32}

/-- A purchase by size up to its last stake: `s₁` is what the purchase at the
price leaves. -/
structure BoughtBySize (env : Env) (ctx : Ctx) (c : Chain)
    (payer receiver : Name) (bytes : UInt32) (core : Symbol) (price : ℤ)
    (market : Market) (s₁ s : SysState) (ρ : ℤ × ℤ) : Prop where
  gauged : c.Gauged
  coreSymbol : c.sys.market.coreSymbol = .ok core
  price_eq : price = (bytes.toNat : ℤ) / mib * 10000
  price_pos : 0 < price
  grown : c.sys.market.updateMemSupply ctx = .ok market
  bought : System.buyresources env ctx c.sys payer receiver ⟨price, core⟩ =
    .ok s₁
  trade : SysState.Trade { c.sys with market } s₁ core payer receiver
    ((bytes.toNat : ℤ) / mib * mib) price price
  staked : System.StakeChange s₁ s payer payer receiver ⟨price, core⟩
    ⟨price, core⟩ ρ

/-- A purchase by size is a purchase and a stake of its price. -/
theorem boughtBySize (hc : Reachable env c) {s : SysState}
    (h : System.apply env ctx c.token c.sys
      (.buymembytes payer receiver bytes) = .ok s) :
    ∃ core price market s₁ ρ, BoughtBySize env ctx c payer receiver bytes core
      price market s₁ s ρ := by
  obtain ⟨price, s₁, hprice, hcore, hbuy, hdel⟩ := System.buymembytes_ok h
  have hgauged := hc.gauged_of_core hcore
  obtain ⟨core, quote₀, hopen⟩ := hgauged.opened
  obtain ⟨hsym, hpos, _, market, hgrown, htrade⟩ :=
    System.buyresources_trade hopen hgauged.books.staked hbuy
  obtain ⟨_, _, _, _, _, _, ρ, hchange⟩ :=
    System.delegatebw_ok hdel htrade.stakedInRange
  obtain ⟨amount, symbol⟩ := price
  dsimp only at hprice hsym hpos hcore
  subst hsym
  have hbytes : amount * mib / 10000 = (bytes.toNat : ℤ) / mib * mib := by
    rw [hprice, mul_right_comm, Int.mul_ediv_cancel _ (by decide)]
  have hstake : (bytes.toNat : ℤ) / mib * mib * 10000 / mib = amount := by
    rw [hprice, mul_right_comm, Int.mul_ediv_cancel _ (by decide)]
  rw [hbytes, hstake] at htrade
  exact ⟨symbol, amount, market, s₁, ρ, hgauged, hcore, hprice, hpos, hgrown,
    hbuy, htrade, hchange⟩

/-- The market of a purchase by size: what it has grown by, less the whole
mebibytes that the receiver gets. -/
theorem BoughtBySize.stock {core : Symbol} {price : ℤ} {market : Market}
    {s₁ s : SysState} {ρ : ℤ × ℤ}
    (hs : BoughtBySize env ctx c payer receiver bytes core price market s₁ s ρ)
    (hslot : c.slot ≤ ctx.slot) :
    ∃ row row', c.sys.market.memmarket = some row ∧
      s.market.memmarket = some row' ∧
      row'.base.amount = row.base.amount +
        ((c.sys.market.dueGrowth ctx.slot % 2 ^ 32 : ℕ) : ℤ) -
          (bytes.toNat : ℤ) / mib * mib := by
  obtain ⟨row₁, hrow₁, hrow'⟩ := hs.trade.market
  obtain ⟨row, hrow, rfl, _⟩ := hs.gauged.grown_row hslot hs.grown hrow₁
  exact ⟨row, _, hrow, by rw [hs.staked.market, hrow'], rfl⟩

/-- An action that changes the tables like another and sends less succeeds
where the other does. -/
theorem step_of_prefix {a : SysAction} {s s₁ : SysState}
    {l : List InlineAction} (hslot : c.slot ≤ ctx.slot)
    (hs₁ : System.apply env ctx c.token c.sys a = .ok s₁)
    (hacts : s.accountsact = s₁.accountsact)
    (hout : s.outbox = s₁.outbox ++ l) {t : TokenState}
    (hrun : s.outbox.foldlM (runInline ctx s) c.token = .ok t) :
    ∃ c₁, Step env c (.system ctx a) c₁ ∧
      c₁.sys = { s₁ with outbox := [] } ∧
      l.foldlM (runInline ctx s) c₁.token = .ok t := by
  have hsame : runInline ctx s = runInline ctx s₁ := by
    funext u i
    have hactive : s.getProdActivity = s₁.getProdActivity := by
      funext a
      rw [SysState.getProdActivity, hacts, SysState.getProdActivity]
    rw [runInline, hactive, runInline]
  rw [hout, List.foldlM_append, bind_eq_ok] at hrun
  obtain ⟨t₁, hfirst, hrest⟩ := hrun
  rw [hsame] at hfirst
  refine ⟨⟨t₁, { s₁ with outbox := [] }, ctx.slot⟩, ?_, rfl, hrest⟩
  simp only [Step, exec, runEvent, runSystem, bind_eq_ok, require_eq_ok,
    pure_eq_ok, exists_const]
  exact ⟨hslot, _, ⟨s₁, hs₁, t₁, hfirst, rfl⟩, rfl⟩

end Chain

/-! ## What is delivered -/

/-- **A purchase by size delivers the size, exactly when it is a multiple of a
mebibyte**: what is beyond the last whole mebibyte is cut off.  The stock of
the market falls by what the receiver gets, from what it is after the growth
that was due; so it falls by the size only where none was due. -/
theorem purchase_by_size_iff {env : Env} {ctx : Ctx} {c c' : Chain}
    {payer receiver : Name} {bytes : UInt32} (hc : Chain.Reachable env c)
    (h : Chain.Step env c
      (.system ctx (.buymembytes payer receiver bytes)) c') :
    ∃ row row' : ExchangeState, ∃ growth gain : ℤ,
      c.sys.market.memmarket = some row ∧
      c'.sys.market.memmarket = some row' ∧
      growth = (c.sys.market.dueGrowth ctx.slot % 2 ^ 32 : ℕ) ∧
      gain = c'.sys.memBytes receiver - c.sys.memBytes receiver ∧
      gain = (bytes.toNat : ℤ) / mib * mib ∧
      row.base.amount + growth - row'.base.amount = gain ∧
      ((bytes.toNat : ℤ) ≤ gain ↔ mib ∣ (bytes.toNat : ℤ)) ∧
      ((bytes.toNat : ℤ) ≤ gain ∧
          row.base.amount - row'.base.amount = gain ↔
        mib ∣ (bytes.toNat : ℤ) ∧ growth = 0) := by
  obtain ⟨s, hs, hsys⟩ := Chain.step_system h
  obtain ⟨core, price, market, s₁, ρ, hbought⟩ := Chain.boughtBySize hc hs
  obtain ⟨hslot, _⟩ := Chain.step_cases h
  obtain ⟨row, row', hrow, hrow', hstock⟩ := hbought.stock hslot
  have hgain : c'.sys.memBytes receiver - c.sys.memBytes receiver =
      (bytes.toNat : ℤ) / mib * mib := by
    have hbytes := congrFun
      (hbought.staked.memBytes.trans hbought.trade.memBytes) receiver
    rw [Pi.add_apply, Pi.single_eq_same] at hbytes
    have hbefore : SysState.memBytes { c.sys with market } receiver =
        c.sys.memBytes receiver := rfl
    have hafter : c'.sys.memBytes receiver = s.memBytes receiver := by
      rw [hsys]
      rfl
    rw [hafter, hbytes, hbefore, add_sub_cancel_left]
  have hsize : (bytes.toNat : ℤ) ≤ (bytes.toNat : ℤ) / mib * mib ↔
      mib ∣ (bytes.toNat : ℤ) := by
    unfold mib
    omega
  refine ⟨row, row', _, _, hrow, by rw [hsys, ← hrow'], rfl, rfl, hgain, ?_, ?_,
    ?_⟩
  · rw [hgain]
    omega
  · rw [hgain]
    exact hsize
  · rw [hgain, hsize]
    exact and_congr_right fun _ => by omega

/-- Two mebibytes are delivered in full. -/
theorem purchase_by_size_sample : ∃ (c c' : Chain) (row row' : ExchangeState),
    c.sys.market.memmarket = some row ∧ c'.sys.market.memmarket = some row' ∧
    2097152 ≤ c'.sys.memBytes alice - c.sys.memBytes alice ∧
    row.base.amount - row'.base.amount =
      c'.sys.memBytes alice - c.sys.memBytes alice := by
  have hsample : SampleRun [] (fun _ c => c.sys.market.dueGrowth 3 = 0 ∧
      Finishes (Chain.exec sampleEnv c
        (.system (.signedBy bob 3) (.buymembytes bob alice 2097152)))
      (fun _ => True)) := by
    decide +kernel
  obtain ⟨_, c, hreach, hdue, c', hstep, _⟩ := hsample.reachable
  obtain ⟨row, row', growth, gain, hrow, hrow', hgrowth, hgain, _, _, _,
    hiff⟩ := purchase_by_size_iff hreach hstep
  have hnone : growth = 0 := by
    rw [hgrowth]
    show ((c.sys.market.dueGrowth 3 % 2 ^ 32 : ℕ) : ℤ) = 0
    rw [hdue]
    rfl
  obtain ⟨hsize, hstock⟩ := hiff.mpr ⟨by decide, hnone⟩
  rw [hgain] at hsize hstock
  exact ⟨c, c', row, row', hrow, hrow', hsize, hstock⟩

/-- Of one and a half mebibytes one is delivered. -/
theorem purchase_by_size_cut_off : ∃ c c' : Chain,
    Chain.Reachable sampleEnv c ∧
    Chain.Step sampleEnv c
      (.system (.signedBy bob 3) (.buymembytes bob alice 1572864)) c' ∧
    c'.sys.memBytes alice - c.sys.memBytes alice = 1048576 ∧
    ¬ (1572864 : ℤ) ≤ c'.sys.memBytes alice - c.sys.memBytes alice := by
  have hsample : SampleRun [] (fun _ c => Finishes (Chain.exec sampleEnv c
      (.system (.signedBy bob 3) (.buymembytes bob alice 1572864)))
      (fun c' =>
        c'.sys.memBytes alice - c.sys.memBytes alice = 1048576)) := by
    decide +kernel
  obtain ⟨_, c, hreach, c', hstep, hgain⟩ := hsample.reachable
  exact ⟨c, c', hreach, hstep, hgain, by rw [hgain]; decide⟩

/-! ## What is staked -/

/-- **A purchase by size never does what the purchase at its price does.**
Whenever it succeeds the purchase at the price that it computes succeeds as
well and trades the same, but the purchase by size stakes the price twice more,
and the payer has less at hand by that. -/
theorem purchase_by_size_stakes_again {env : Env} {ctx : Ctx} {c c' : Chain}
    {payer receiver : Name} {bytes : UInt32} (hc : Chain.Reachable env c)
    (h : Chain.Step env c
      (.system ctx (.buymembytes payer receiver bytes)) c') :
    ∃ (price : Asset) (c₁ : Chain),
      c.sys.market.coreSymbol = .ok price.symbol ∧
      price.amount = (bytes.toNat : ℤ) / mib * 10000 ∧ 0 < price.amount ∧
      Chain.Step env c
        (.system ctx (.buyresources payer receiver price)) c₁ ∧
      c'.sys.market = c₁.sys.market ∧ c'.sys.memBytes = c₁.sys.memBytes ∧
      c'.sys.delegated = c₁.sys.delegated +
        cell payer receiver (price.amount, price.amount) ∧
      c'.sys.totals = c₁.sys.totals +
        Pi.single receiver (price.amount, price.amount) ∧
      c'.sys.staked = c₁.sys.staked +
        Pi.single payer (price.amount + price.amount) ∧
      (payer ≠ stakeAccount → c'.purse payer =
        c₁.purse payer - (price.amount + price.amount)) ∧
      c'.sys.delegated ≠ c₁.sys.delegated ∧ c'.sys ≠ c₁.sys := by
  obtain ⟨s, hs, hsys, hout, hbalances⟩ := Chain.step_pending hc.settled h
  obtain ⟨core, price, market, s₁, ρ, hbought⟩ := Chain.boughtBySize hc hs
  obtain ⟨hslot, _⟩ := Chain.step_cases h
  obtain ⟨l, hl⟩ : ∃ l, s.outbox = s₁.outbox ++ l := by
    rcases hbought.staked.payment with ⟨_, _, hsame⟩ | ⟨_, _, hsent⟩
    · exact ⟨[], by rw [hsame, List.append_nil]⟩
    · exact ⟨_, hsent⟩
  obtain ⟨c₁, hstep, hsys₁, _⟩ := Chain.step_of_prefix
    (a := .buyresources payer receiver ⟨price, core⟩) hslot hbought.bought
    hbought.staked.accountsact hl hout
  have hpos := hbought.price_pos
  have hdelegated : c'.sys.delegated =
      c₁.sys.delegated + cell payer receiver (price, price) := by
    rw [hsys, hsys₁]
    exact hbought.staked.delegated
  have hne : c'.sys.delegated ≠ c₁.sys.delegated := by
    intro hsame
    have hcell := congrFun (congrFun (hsame.symm.trans hdelegated) payer)
      receiver
    simp only [Pi.add_apply, cell_apply, and_self, if_true] at hcell
    have hfst := congrArg Prod.fst hcell
    rw [Prod.fst_add] at hfst
    omega
  refine ⟨⟨price, core⟩, c₁, hbought.coreSymbol, hbought.price_eq, hpos, hstep,
    ?_, ?_, hdelegated, ?_, ?_, fun hpayer => ?_, hne,
    fun hsame => hne (by rw [hsame])⟩
  · rw [hsys, hsys₁]
    exact hbought.staked.market
  · rw [hsys, hsys₁]
    exact hbought.staked.memBytes
  · rw [hsys, hsys₁]
    exact hbought.staked.totals
  · rw [hsys, hsys₁]
    exact hbought.staked.staked
  · obtain ⟨s₂, hs₂, _, _, hbalances₁⟩ :=
      Chain.step_pending hc.settled hstep
    cases Except.ok.inj (hs₂.symm.trans hbought.bought)
    have hcore₁ : s₁.market.coreSymbol = .ok core :=
      hbought.trade.coreSymbol
        ((System.updateMemSupply_coreSymbol hbought.grown).trans
          hbought.coreSymbol)
    have hcore' : s.market.coreSymbol = .ok core := by
      rw [hbought.staked.market, hcore₁]
    rw [Chain.purse_eq hsys hbalances hcore',
      Chain.purse_eq hsys₁ hbalances₁ hcore₁, hbought.staked.purse, outlay,
      if_neg hpayer]

/-- Bob pays for two mebibytes for alice and stakes their price twice. -/
theorem purchase_by_size_stakes_again_sample : ∃ c' c₁ : Chain,
    c'.sys.staked bob = 80000 ∧ c'.sys.staked bob = c₁.sys.staked bob + 40000 ∧
    c'.purse bob = c₁.purse bob - 40000 := by
  have hsample : SampleRun [] (fun _ c => Finishes (Chain.exec sampleEnv c
      (.system (.signedBy bob 3) (.buymembytes bob alice 2097152)))
      (fun c' => c'.sys.staked bob = 80000)) := by
    decide +kernel
  obtain ⟨_, c, hreach, c', hstep, hstaked⟩ := hsample.reachable
  obtain ⟨price, c₁, _, hprice, _, _, _, _, _, _, hmore, hpurse, _⟩ :=
    purchase_by_size_stakes_again hreach hstep
  have hamount : price.amount = 20000 := hprice
  have hbob := congrFun hmore bob
  rw [Pi.add_apply, Pi.single_eq_same, hamount] at hbob
  have hspent := hpurse (by decide)
  rw [hamount] at hspent
  exact ⟨c', c₁, hstaked, hbob, hspent⟩

/-- The price of a mebibyte is 10000 units; with the purchase at that price
alice has staked 20000 units in the end, with the purchase by size 40000. -/
theorem purchase_by_size_differs : ∃ c c' c₁ : Chain,
    Chain.Reachable sampleEnv c ∧
    Chain.Step sampleEnv c
      (.system (.signedBy alice 3) (.buymembytes alice alice 1048576)) c' ∧
    Chain.Step sampleEnv c (.system (.signedBy alice 3)
      (.buyresources alice alice ⟨10000, inrSymbol⟩)) c₁ ∧
    c₁.sys.staked alice = 20000 ∧ c'.sys.staked alice = 40000 ∧
    c'.sys.delegated alice alice ≠ c₁.sys.delegated alice alice ∧
    c'.liquid alice = c₁.liquid alice - 20000 := by
  have hsample : SampleRun [] (fun _ c =>
      Finishes (Chain.exec sampleEnv c
        (.system (.signedBy alice 3) (.buymembytes alice alice 1048576)))
      (fun c' => Finishes (Chain.exec sampleEnv c (.system (.signedBy alice 3)
          (.buyresources alice alice ⟨10000, inrSymbol⟩)))
        (fun c₁ => c₁.sys.staked alice = 20000 ∧
          c'.sys.staked alice = 40000 ∧
          c'.sys.delegated alice alice ≠ c₁.sys.delegated alice alice ∧
          c'.liquid alice = c₁.liquid alice - 20000))) := by
    decide +kernel
  obtain ⟨_, c, hreach, c', hstep, c₁, hstep₁, hdiffers⟩ := hsample.reachable
  exact ⟨c, c', c₁, hreach, hstep, hstep₁, hdiffers⟩

end Inery
