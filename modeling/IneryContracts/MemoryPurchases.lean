import IneryContracts.StakeBooking
import IneryContracts.TokenIsolation
import IneryContracts.TradeBooks
import IneryContracts.VoteLocking

/-!
# When memory can be bought

A purchase is meant to go through whenever the market has the bytes.  But the
stock is checked after the bytes have been taken off it, so it has to be more
than twice what is bought; and the stake that a purchase makes is rounded down
twice, so that a single unit buys nothing.  This file says exactly when a
purchase succeeds, and that it then delivers what it should.
-/

namespace Inery

open GuardedStep LedgerVector LabelledRun MachineInt

/-- The bytes that `quant` tokens buy. -/
def boughtBytes (quant : ℤ) : ℤ := quant * mib / 10000

/-- What is staked in each resource with a purchase for `quant` tokens. -/
def boughtStake (quant : ℤ) : ℤ := boughtBytes quant * 10000 / mib

section Amounts

variable {quant : ℤ}

theorem boughtBytes_pos (h : 0 < quant) : 0 < boughtBytes quant := by
  unfold boughtBytes mib
  omega

/-- The stake is the price, or one unit less. -/
theorem boughtStake_bounds (quant : ℤ) :
    quant - 1 ≤ boughtStake quant ∧ boughtStake quant ≤ quant := by
  unfold boughtStake boughtBytes mib
  omega

/-- Only a single unit is rounded down to no stake at all. -/
theorem boughtStake_pos (h : 0 < quant) :
    0 < boughtStake quant ↔ 1 < quant := by
  unfold boughtStake boughtBytes mib
  omega

end Amounts

/-! ## The trade -/

section Trade

variable {s : SysState} {core : Symbol} {quote₀ : ℤ} {row : ExchangeState}
  {L : LotMarket Name 10000 mib} {quant : ℤ}

/-- **The market sells bytes** where more than twice as many are there, and its
reserve can hold the price. -/
theorem Trades.buy (h : Trades s core quote₀ row L) (hquote₀ : 0 ≤ quote₀)
    (hpos : 0 < quant) (hlt : quant < 2 ^ 43) (hne : core ≠ memSymbol)
    (hstock : 2 * boughtBytes quant < row.base.amount)
    (hreserve : row.quote.amount + quant ≤ Asset.maxAmount) :
    ∃ market, s.market.buy ⟨quant, core⟩ = .ok (market, boughtBytes quant) := by
  have hbytes := boughtBytes_pos hpos
  have hstock_lt := h.stock_lt
  rw [← h.stock] at hstock_lt
  have hpaid := h.paid_nonneg
  have hproduct : quant * mib < 2 ^ 63 := by
    unfold mib
    omega
  have hzero : Asset.InRange 0 := by decide
  have hmem : memSymbol.isValid = true := by decide
  have hquote : Asset.InRange (row.quote.amount + quant) := by
    have hreserve' := h.quote
    unfold Asset.InRange Asset.maxAmount at *
    omega
  have hbase : Asset.InRange (row.base.amount - boughtBytes quant) := by
    unfold Asset.InRange Asset.maxAmount
    omega
  have hdiv : (quant * mib).tdiv 10000 = boughtBytes quant :=
    Int.tdiv_eq_ediv_of_nonneg (mul_nonneg hpos.le (by decide))
  have hconv : row.directConvert ⟨quant, core⟩ memSymbol = .ok ({ row with
      base := { row.base with
        amount := row.base.amount - boughtBytes quant }
      quote := { row.quote with amount := row.quote.amount + quant } },
      ⟨quant * mib, memSymbol⟩) := by
    simp only [ExchangeState.directConvert, bind_eq_ok, check_eq_ok,
      exists_const, Asset.make_eq_ok]
    refine ⟨hne, ⟨0, memSymbol⟩, ⟨hzero, hmem, rfl⟩, ?_⟩
    rw [if_neg (fun hsell => hne (hsell.1.trans h.hasRow.base)),
      if_pos ⟨h.hasRow.quote.symm, h.hasRow.base.symm⟩,
      ExchangeState.getBancorOutput_eq hpos.le hproduct]
    simp only [bind_eq_ok, Except.ok.injEq, exists_eq_left', Asset.add_eq_ok,
      Asset.sub_eq_ok, Asset.div_eq_ok (show (0 : ℤ) < 10000 by decide),
      pure_eq_ok, Prod.mk.injEq, hdiv]
    exact ⟨_, ⟨h.hasRow.quote.symm, hquote, rfl⟩, _, rfl, _,
      ⟨h.hasRow.base.symm, hbase, rfl⟩, rfl, trivial⟩
  have hsize := h.size_lt
  have hreserved := toUInt64_share hbytes.le
    (show boughtBytes quant ≤ row.base.amount by omega) (by omega)
    (show s.market.maxMemSize < 2 ^ 63 by omega)
  refine ⟨{ s.market with
    memmarket := some { row with
      base := { row.base with
        amount := row.base.amount - boughtBytes quant }
      quote := { row.quote with amount := row.quote.amount + quant } }
    totalMemBytesReserved := u64 (s.market.totalMemBytesReserved +
      boughtBytes quant * s.market.maxMemSize / row.base.amount)
    totalMemStake := i64 (s.market.totalMemStake + quant) }, ?_⟩
  simp only [Market.buy, h.hasRow.found, bind_eq_ok, orStop_eq_ok,
    Option.some.injEq, exists_eq_left', hconv, Except.ok.injEq, check_eq_ok,
    exists_const, pure_eq_ok, Prod.mk.injEq, hdiv]
  exact ⟨by omega, hbytes, _, hreserved, rfl, trivial⟩

end Trade

/-! ## What the payer sends -/

/-- An account can send `x` of a token, in one transfer or in several. -/
structure CanSpend (act : Name → Bool) (t : TokenState) (sym : Symbol)
    (a : Name) (x : ℤ) : Prop where
  inv : TokenInv t
  stat : ∃ st, t.statOf sym.code = some st ∧ sym = st.supply.symbol
  valid : sym.isValid = true
  covered : x ≤ t.balances sym.code a
  inr : (t.accountOf a inrCode).isSome
  collateral : act a = true → 500000000 +
    (if sym.code = inrCode then x else 0) ≤ t.balances inrCode a

/-- **What can be spent can be sent**, and the rest can still be. -/
theorem CanSpend.transfer {act : Name → Bool} {t : TokenState} {sym : Symbol}
    {a to' : Name} {x y : ℤ} {ctx : Ctx} {memo : String}
    (h : CanSpend act t sym a (x + y)) (hne : a ≠ to') (hauth : ctx.HasAuth a)
    (hto : ctx.isAccount to' = true) (hcreator : to' ≠ accountCreator)
    (hx : 0 < x) (hy : 0 ≤ y) (hmemo : memo.utf8ByteSize ≤ 256) :
    ∃ t', Token.transfer ctx act t a to' ⟨x, sym⟩ memo = .ok t' ∧
      CanSpend act t' sym a y := by
  obtain ⟨st, hst, hsym⟩ := h.stat
  have hcovered := h.covered
  have hkeep : act a = true → 500000000 +
      (if sym.code = inrCode then x else 0) ≤ t.balances inrCode a := by
    intro hact
    have hall := h.collateral hact
    split at hall
    · next hcode =>
        rw [if_pos hcode]
        omega
    · next hcode =>
        rwa [if_neg hcode]
  have hle : x ≤ t.balances sym.code a := by omega
  have hsent : Succeeds (Token.transfer ctx act t a to' ⟨x, sym⟩ memo) :=
    Token.succeeds_transfer h.inv hne hauth hto hcreator hst hsym h.valid hx
      hle h.inr hkeep hmemo
  obtain ⟨t', ht'⟩ := hsent
  refine ⟨t', ht', ?_⟩
  have hbalance : ∀ c, t'.balances c a =
      t.balances c a - if c = sym.code then x else 0 := by
    intro c
    rw [balances_transfer ht' c]
    split
    · simp [hne]
    · rw [sub_zero]
  have hrow : (t'.accountOf a inrCode).isSome := by
    obtain ⟨_, _, _, _, _, _, _, _, t₁, _, ht₂, inr, hinr, _⟩ :=
      Token.transfer_ok ht'
    rw [ht₂, TokenState.accountOf_setBalance, if_neg (fun h => hne h.1), hinr]
    rfl
  exact
    { inv := apply_tokenInv h.inv (a := .transfer a to' ⟨x, sym⟩ memo) ht'
      stat := ⟨st, (statOf_transfer ht' _).trans hst, hsym⟩
      valid := h.valid
      covered := by
        rw [hbalance, if_pos rfl]
        omega
      inr := hrow
      collateral := fun hact => by
        have hall := h.collateral hact
        rw [hbalance]
        by_cases hcode : sym.code = inrCode
        · rw [if_pos hcode.symm]
          rw [if_pos hcode] at hall ⊢
          omega
        · rw [if_neg (Ne.symm hcode)]
          rw [if_neg hcode] at hall ⊢
          omega }

/-! ## The purchase -/

namespace System

section Purchase

variable {env : Env} {ctx : Ctx} {s : SysState} {core : Symbol} {quote₀ : ℤ}
  {payer receiver : Name} {quant : ℤ} {market : Market} {row : ExchangeState}

theorem creditBytes_succeeds (hvalid : core.isValid = true)
    (tbl : KeyedTable UserResources.owner) (receiver : Name) (b : ℤ) :
    Succeeds (creditBytes core tbl receiver b) := by
  have hzero : Asset.InRange 0 := by decide
  unfold creditBytes
  split
  · next hnone =>
      refine Succeeds.bind ⟨_, Asset.make_eq_ok.mpr ⟨hzero, hvalid, rfl⟩⟩
        (fun _ _ => ?_)
      exact Succeeds.bind ⟨_, emplace_eq_ok.mpr ⟨hnone, rfl⟩⟩
        (fun _ _ => succeeds_pure)
  · next row hrow =>
      have hkey : row.owner = receiver := KeyedTable.key_of_find hrow
      exact Succeeds.bind ⟨_, modify_eq_ok.mpr ⟨row, hrow, hkey, rfl⟩⟩
        (fun _ _ => succeeds_pure)

/-- The tables of a purchase, once the bytes are credited. -/
private theorem ledgers_bought {market' : Market} {b : ℤ}
    {userres : KeyedTable UserResources.owner} {res : UserResources}
    (payer : Name) (hs : Ledgers core s) (hopen : Open core quote₀ s)
    (hpos : 0 < quant)
    (hgrow : s.market.updateMemSupply ctx = .ok market)
    (hbuy : market.buy ⟨quant, core⟩ = .ok (market', b))
    (hcredit : creditBytes core s.userres receiver b = .ok (userres, res)) :
    Ledgers core { s.send
      [⟨payer, activePermission⟩, ⟨memAccount, activePermission⟩]
      (.transfer payer memAccount ⟨quant, core⟩ "buy MEM") with
        market := market', userres } := by
  have hgrown := OpenBooks.grown ⟨hopen, hs.ledger⟩ hgrow
  have hmove : Moved { s with market } (.bought payer receiver ⟨quant, core⟩ b)
      { s.send [⟨payer, activePermission⟩, ⟨memAccount, activePermission⟩]
          (.transfer payer memAccount ⟨quant, core⟩ "buy MEM") with
        market := market', userres } :=
    ⟨market', userres, res, hpos, hgrown.1.coreSymbol, hbuy, hcredit, rfl⟩
  obtain ⟨hopen', hledger⟩ := hmove.openBooks hgrown
  exact
    { coreSymbol := hopen'.coreSymbol
      valid := hs.valid
      rows := ⟨hs.rows.delband, creditBytes_in hs.rows.userres hcredit,
        hs.rows.refunds⟩
      ledger := hledger
      staked := hs.staked
      votes := hs.votes }

/-- A credit of bytes leaves what can be staked. -/
private theorem stakeable_bought {market' : Market} {b t : ℤ}
    {userres : KeyedTable UserResources.owner} {res : UserResources}
    {outbox : List InlineAction}
    (hcredit : creditBytes core s.userres receiver b = .ok (userres, res)) :
    Stakeable ctx { s with market := market', userres, outbox } payer receiver
      t ↔ Stakeable ctx s payer receiver t := by
  obtain ⟨howner, htable, hweights, _⟩ := creditBytes_ok hcredit
  have htotals : view UserResources.weights userres =
      view UserResources.weights s.userres :=
    htable ▸ view_put_same _ _ howner hweights
  constructor
  · rintro ⟨hfits, hrefund, hvote, hvested⟩
    refine ⟨?_, hrefund, hvote, hvested⟩
    rwa [SysState.totals, htotals] at hfits
  · rintro ⟨hfits, hrefund, hvote, hvested⟩
    refine ⟨?_, hrefund, hvote, hvested⟩
    rwa [SysState.totals, htotals]

/-- **A purchase goes through** where the market sells and the payer can stake
what it asks for; it sends the price and a payment for the stake. -/
theorem buyresources_succeeds (env : Env) (hs : Ledgers core s)
    (hopen : Open core quote₀ s) (hauth : ctx.HasAuth payer)
    (hgrow : s.market.updateMemSupply ctx = .ok market)
    (hrow : market.memmarket = some row) (hone : 1 < quant)
    (hlt : quant < 2 ^ 43) (hne : core ≠ memSymbol)
    (hstock : 2 * boughtBytes quant < row.base.amount)
    (hreserve : row.quote.amount + quant ≤ Asset.maxAmount)
    (hstake : Stakeable ctx s payer receiver (boughtStake quant)) :
    ∃ s' x, buyresources env ctx s payer receiver ⟨quant, core⟩ = .ok s' ∧
      0 ≤ x ∧ x ≤ 2 * boughtStake quant ∧ (payer = stakeAccount → x = 0) ∧
      s'.outbox = s.outbox ++
        [⟨[⟨payer, activePermission⟩, ⟨memAccount, activePermission⟩],
          .transfer payer memAccount ⟨quant, core⟩ "buy MEM"⟩] ++
        stakePayment payer ⟨x, core⟩ ∧
      s'.accountsact = s.accountsact := by
  have hpos : 0 < quant := by omega
  have ht := (boughtStake_pos hpos).mpr hone
  have hle := (boughtStake_bounds quant).2
  have hmax : boughtStake quant + boughtStake quant ≤ Asset.maxAmount := by
    unfold Asset.maxAmount
    omega
  have hrange : Asset.InRange (boughtStake quant) := by
    unfold Asset.InRange Asset.maxAmount
    omega
  have hworth : (boughtBytes quant * 10000).tdiv mib = boughtStake quant := by
    have hbytes := boughtBytes_pos hpos
    exact Int.tdiv_eq_ediv_of_nonneg (by omega)
  obtain ⟨hquote₀, row', L, htrades⟩ := hopen.grown hgrow
  obtain rfl : row' = row :=
    Option.some.inj (htrades.hasRow.found.symm.trans hrow)
  obtain ⟨market', hbuy⟩ :=
    htrades.buy hquote₀ hpos hlt hne hstock hreserve
  obtain ⟨⟨userres, res⟩, hcredit⟩ := creditBytes_succeeds hs.valid s.userres
    receiver (boughtBytes quant)
  obtain ⟨s₁, x, hdel, hx₀, hx, hown, hout, hact⟩ := delegatebw_staked env
    (ledgers_bought payer hs hopen hpos hgrow hbuy hcredit) hauth ht hmax
    ((stakeable_bought hcredit).mpr hstake)
  obtain ⟨limits, hlimits⟩ := limitTraded_ok s₁ res
  refine ⟨{ s₁ with limits }, x, ?_, hx₀, by omega, hown, hout, hact⟩
  simp only [buyresources, bind_eq_ok, Ctx.requireAuth_eq_ok, check_eq_ok,
    Asset.make_eq_ok, pure_eq_ok, exists_const]
  refine ⟨hauth, market, hgrow, core, htrades.hasRow.coreSymbol, rfl, hpos,
    ⟨market', boughtBytes quant⟩, hbuy, ⟨userres, res⟩, hcredit,
    ⟨boughtStake quant, core⟩, ⟨?_, hs.valid, by rw [hworth]⟩, s₁, hdel,
    hlimits⟩
  rw [hworth]
  exact hrange

end Purchase

end System

/-! ## On the chain -/

namespace Chain

/-- What a purchase asks for besides the authority and the tokens: that more
than twice the bytes are there once the market has grown, that more than one
unit is paid, that the reserve can hold it, that the core token is not the
symbol of the memory, that the payer is not the memory account and has a row of
`INR`, and that it can stake what the bytes are worth. -/
structure CanBuy (c : Chain) (ctx : Ctx) (core : Symbol) (row : ExchangeState)
    (payer receiver : Name) (quant : ℤ) : Prop where
  stock : 2 * boughtBytes quant < row.base.amount +
    ((c.sys.market.dueGrowth ctx.slot % 2 ^ 32 : ℕ) : ℤ)
  unit : 1 < quant
  reserve : row.quote.amount + quant ≤ Asset.maxAmount
  symbol : core ≠ memSymbol
  other : payer ≠ memAccount
  inr : (c.token.accountOf payer inrCode).isSome
  stake : System.Stakeable ctx c.sys payer receiver (boughtStake quant)

/-- A purchase has delivered: the bytes have gone from the market, which has
grown before, to the receiver, the price is in the reserve and in what was paid
in, the stake is in the vote of the payer, and no product has left 64 bits. -/
structure Delivered (c : Chain) (ctx : Ctx) (row : ExchangeState) (c' : Chain)
    (payer receiver : Name) (quant : ℤ) : Prop where
  credited : c'.sys.memBytes =
    c.sys.memBytes + Pi.single receiver (boughtBytes quant)
  market : c'.sys.market.memmarket = some { row with
    base := { row.base with
      amount := row.base.amount +
        ((c.sys.market.dueGrowth ctx.slot % 2 ^ 32 : ℕ) : ℤ) -
        boughtBytes quant }
    quote := { row.quote with amount := row.quote.amount + quant } }
  memStake : c'.sys.market.totalMemStake = c.sys.market.totalMemStake + quant
  staked : c'.sys.staked =
    c.sys.staked + Pi.single payer (boughtStake quant + boughtStake quant)
  products : boughtBytes quant * 10000 ≤ quant * mib ∧ quant * mib < 2 ^ 63

section Purchases

variable {env : Env} {c c' : Chain} {ctx : Ctx} {core : Symbol}
  {row : ExchangeState} {payer receiver : Name} {quant : ℤ}

/-- After a run without forced votes stake can be booked. -/
theorem ledgers_run {es : List Event}
    (hrun : Run (OwnVoteStep env) (genesis env) es c)
    (hcore : c.sys.market.coreSymbol = .ok core) :
    System.Ledgers core c.sys := by
  have hreach : Reachable env c :=
    ⟨es, hrun.mono (fun _ => True) (fun _ _ _ _ h => h.1) (fun _ _ => trivial)⟩
  exact
    { coreSymbol := hcore
      valid := hreach.core_valid hcore
      rows := (hreach.coreBooks hcore).rows
      ledger := hreach.books.stakes
      staked := hreach.settled.staked
      votes := secure_run hrun }

/-- **A purchase that succeeds delivers.** -/
theorem step_delivered (hc : Reachable env c) (hlt : quant < 2 ^ 43)
    (hcore : c.sys.market.coreSymbol = .ok core)
    (hrow : c.sys.market.memmarket = some row) (h : Step env c
      (.system ctx (.buyresources payer receiver ⟨quant, core⟩)) c') :
    c.Delivered ctx row c' payer receiver quant := by
  have hgauged := hc.gauged_of_core hcore
  obtain ⟨core', quote₀, hopen⟩ := hgauged.opened
  obtain ⟨s, hs, hsys⟩ := step_system h
  obtain ⟨hslot, _⟩ := step_cases h
  obtain ⟨_, hpos, _, market, hgrow, htrade⟩ :=
    System.buyresources_trade hopen hgauged.books.staked hs
  obtain ⟨row₁, hrow₁, hrow'⟩ := htrade.market
  obtain ⟨row₀, hrow₀, rfl, hpaid⟩ := hgauged.grown_row hslot hgrow hrow₁
  obtain rfl : row₀ = row := Option.some.inj (hrow₀.symm.trans hrow)
  dsimp only at hpos
  exact
    { credited := by
        rw [hsys]
        exact htrade.memBytes
      market := by
        rw [hsys]
        exact hrow'
      memStake := by
        rw [hsys, ← hpaid]
        exact htrade.memStake
      staked := by
        rw [hsys]
        exact htrade.staked
      products := by
        unfold boughtBytes mib
        omega }

/-- What a purchase sends can be paid. -/
private theorem sends_succeeds {s : SysState} {x y : ℤ}
    (hspend : CanSpend s.getProdActivity c.token core payer (quant + y))
    (hmem : ctx.isAccount memAccount = true)
    (hstake : ctx.isAccount stakeAccount = true) (hpos : 0 < quant)
    (hother : payer ≠ memAccount) (hx₀ : 0 ≤ x) (hx : x ≤ y)
    (hown : payer = stakeAccount → x = 0) :
    Succeeds ((InlineAction.mk
      [⟨payer, activePermission⟩, ⟨memAccount, activePermission⟩]
      (.transfer payer memAccount ⟨quant, core⟩ "buy MEM") ::
      System.stakePayment payer ⟨x, core⟩).foldlM (runInline ctx s)
        c.token) := by
  have hauth (l : List PermissionLevel) : Ctx.HasAuth
      { ctx with auths := PermissionLevel.mk payer activePermission :: l }
      payer := ⟨_, List.mem_cons_self, rfl⟩
  obtain ⟨t₁, ht₁, hrest⟩ := hspend.transfer hother
    (hauth [⟨memAccount, activePermission⟩]) hmem (by decide) hpos (by omega)
    (show "buy MEM".utf8ByteSize ≤ 256 by decide)
  rw [List.foldlM_cons]
  refine Succeeds.bind ⟨t₁, ht₁⟩ (fun t ht => ?_)
  obtain rfl : t₁ = t := Except.ok.inj (ht₁.symm.trans ht)
  unfold System.stakePayment
  split
  · next hx_pos =>
      rw [← add_sub_cancel x y] at hrest
      have hne : payer ≠ stakeAccount := fun h => hx_pos.ne' (hown h)
      obtain ⟨t₂, ht₂, _⟩ := hrest.transfer hne (hauth []) hstake (by decide)
        hx_pos (by omega) (show "stake bandwidth".utf8ByteSize ≤ 256 by decide)
      rw [List.foldlM_cons]
      exact Succeeds.bind ⟨t₂, ht₂⟩ (fun _ _ => succeeds_pure)
  · exact succeeds_pure

/-- What a purchase asks for is enough. -/
private theorem CanBuy.buys {es : List Event}
    (hbuy : c.CanBuy ctx core row payer receiver quant)
    (hrun : Run (OwnVoteStep env) (genesis env) es c)
    (hcore : c.sys.market.coreSymbol = .ok core)
    (hrow : c.sys.market.memmarket = some row) (hauth : ctx.HasAuth payer)
    (hslot : c.slot ≤ ctx.slot) (hmem : ctx.isAccount memAccount = true)
    (hstake : ctx.isAccount stakeAccount = true) (hlt : quant < 2 ^ 43)
    (hliquid : quant + 2 * boughtStake quant ≤ c.liquid payer)
    (hcollateral : c.sys.getProdActivity payer = true → 500000000 +
      (if core.code = inrCode then quant + 2 * boughtStake quant else 0) ≤
        c.token.balances inrCode payer) :
    ∃ c', Step env c
      (.system ctx (.buyresources payer receiver ⟨quant, core⟩)) c' := by
  have hreach : Reachable env c :=
    ⟨es, hrun.mono (fun _ => True) (fun _ _ _ _ h => h.1) (fun _ _ => trivial)⟩
  have hledgers := ledgers_run hrun hcore
  have hgauged := hreach.gauged_of_core hcore
  obtain ⟨core', quote₀, hopen⟩ := hgauged.opened
  obtain rfl : core' = core :=
    Except.ok.inj (hopen.coreSymbol.symm.trans hcore)
  obtain ⟨market, hgrow⟩ := hopen.grows ctx
  obtain ⟨_, row₁, L, htrades⟩ := hopen.grown hgrow
  obtain ⟨row₀, hrow₀, rfl, _⟩ :=
    hgauged.grown_row hslot hgrow htrades.hasRow.found
  obtain rfl : row₀ = row := Option.some.inj (hrow₀.symm.trans hrow)
  obtain ⟨s', x, hs', hx₀, hx, hown, hout, hact⟩ :=
    System.buyresources_succeeds env hledgers hopen hauth hgrow
      htrades.hasRow.found hbuy.unit hlt hbuy.symbol hbuy.stock hbuy.reserve
      hbuy.stake
  have hsame : s'.getProdActivity = c.sys.getProdActivity := by
    funext a
    rw [SysState.getProdActivity, hact, SysState.getProdActivity]
  have hspend : CanSpend s'.getProdActivity c.token core' payer
      (quant + 2 * boughtStake quant) := by
    obtain ⟨st, hst, hsymbol⟩ := (hreach.coreBooks hcore).stat
    rw [liquid_of_core hcore] at hliquid
    rw [hsame]
    exact
      { inv := hreach.settled.token
        stat := ⟨st, hst, hsymbol.symm⟩
        valid := hledgers.valid
        covered := hliquid
        inr := hbuy.inr
        collateral := hcollateral }
  have hunit := hbuy.unit
  obtain ⟨token, htoken⟩ := sends_succeeds hspend hmem hstake
    (by omega) hbuy.other hx₀ hx hown
  rw [hreach.settled.outbox, List.nil_append, List.singleton_append] at hout
  rw [← hout] at htoken
  have hrun' : Succeeds (exec env c
      (.system ctx (.buyresources payer receiver ⟨quant, core'⟩))) := by
    unfold exec
    refine Succeeds.bind (succeeds_require.mpr hslot) (fun _ _ =>
      Succeeds.bind ?_ (fun _ _ => succeeds_pure))
    refine Succeeds.bind ⟨s', hs'⟩ (fun s hs => ?_)
    cases hs'.symm.trans hs
    exact Succeeds.bind ⟨token, htoken⟩ (fun _ _ => succeeds_pure)
  exact hrun'

/-- The price is the first that a purchase sends. -/
private theorem price_sent {s s' : SysState} (hrange : System.StakedInRange
    s.staked) (hsend : s.outbox = []) (h : System.buyresources env ctx s payer
      receiver ⟨quant, core⟩ = .ok s') :
    ∃ rest, s'.outbox = InlineAction.mk
      [⟨payer, activePermission⟩, ⟨memAccount, activePermission⟩]
      (.transfer payer memAccount ⟨quant, core⟩ "buy MEM") :: rest := by
  obtain ⟨_, _, _, _, _, _, _, _, _, _, _, _, _, _, _, _, hchange⟩ :=
    System.buyresources_ok h hrange
  rcases hchange.payment with ⟨_, _, hout⟩ | ⟨_, _, hout⟩
  · rw [hout, SysState.send, hsend]
    exact ⟨[], rfl⟩
  · rw [hout, SysState.send, hsend]
    exact ⟨_, rfl⟩

/-- What a purchase asks for is needed. -/
private theorem canBuy_of_step (hc : Reachable env c)
    (hcore : c.sys.market.coreSymbol = .ok core)
    (hrow : c.sys.market.memmarket = some row) (h : Step env c
      (.system ctx (.buyresources payer receiver ⟨quant, core⟩)) c') :
    c.CanBuy ctx core row payer receiver quant := by
  have hgauged := hc.gauged_of_core hcore
  have hrange := hgauged.books.staked
  obtain ⟨core', quote₀, hopen⟩ := hgauged.opened
  obtain rfl : core' = core :=
    Except.ok.inj (hopen.coreSymbol.symm.trans hcore)
  obtain ⟨hslot, _, ⟨_, _, he, _⟩ | ⟨_, _, s, he, happly, htoken, _⟩ |
    ⟨_, _, _, he, _⟩⟩ := step_cases h
  · cases he
  · cases he
    have hbought : System.buyresources env ctx c.sys payer receiver
      ⟨quant, core'⟩ = .ok s := happly
    obtain ⟨rest, hout⟩ := price_sent hrange hc.settled.outbox hbought
    rw [hout, List.foldlM_cons, bind_eq_ok] at htoken
    obtain ⟨_, htransfer, _⟩ := htoken
    obtain ⟨_, hpos, market, market', b, userres, res, stake, s₁, hgrow, _,
      hbuy, hcredit, hstake, hdel, _⟩ := System.buyresources_calls hbought
    obtain ⟨_, row₁, L, htrades⟩ := hopen.grown hgrow
    obtain ⟨row₀, hrow₀, rfl, _⟩ :=
      hgauged.grown_row hslot hgrow htrades.hasRow.found
    obtain rfl : row₀ = row := Option.some.inj (hrow₀.symm.trans hrow)
    obtain ⟨_, rfl, hbytes, hstock, hreserve, _⟩ :=
      Market.buy_ok htrades.hasRow hpos hbuy
    obtain rfl : stake = ⟨boughtStake quant, core'⟩ := by
      rw [hstake, Int.tdiv_eq_ediv_of_nonneg (by omega)]
      rfl
    obtain ⟨ht, hstakeable⟩ :=
      System.stakeable_of_delegatebw (by exact hrange) hdel
    have hleft : boughtBytes quant < row₀.base.amount +
        ((c.sys.market.dueGrowth ctx.slot % 2 ^ 32 : ℕ) : ℤ) -
        boughtBytes quant := hstock
    exact
      { stock := by omega
        unit := (boughtStake_pos hpos).mp ht
        reserve := hreserve.2
        symbol := Market.symbol_ne_of_buy hbuy
        other := (Token.transfer_ok htransfer).1
        inr := Token.isSome_inr_of_transfer htransfer
        stake := (System.stakeable_bought hcredit).mp hstakeable }
  · cases he

end Purchases

end Chain

/-! ## Buying memory -/

/-- **Which purchases the market serves.**  In every run in which no vote for
somebody else is cast with a negative weight, a purchase by an account that has
the tokens for the price and for both stakes, and keeps its collateral, goes
through and delivers if and only if the market has more than twice the bytes,
more than one unit is paid, and reserve, totals and vote can hold what is
added. -/
theorem memory_purchase_iff {env : Env} {es : List Event} {c : Chain}
    {ctx : Ctx} {core : Symbol} {row : ExchangeState} {payer receiver : Name}
    {quant : ℤ} (hrun : Run (Chain.OwnVoteStep env) (.genesis env) es c)
    (hcore : c.sys.market.coreSymbol = .ok core)
    (hrow : c.sys.market.memmarket = some row) (hauth : ctx.HasAuth payer)
    (hslot : c.slot ≤ ctx.slot) (hmem : ctx.isAccount memAccount = true)
    (hstake : ctx.isAccount stakeAccount = true) (hlt : quant < 2 ^ 43)
    (hliquid : quant + 2 * boughtStake quant ≤ c.liquid payer)
    (hcollateral : c.sys.getProdActivity payer = true → 500000000 +
      (if core.code = inrCode then quant + 2 * boughtStake quant else 0) ≤
        c.token.balances inrCode payer) :
    (∃ c', Chain.Step env c
        (.system ctx (.buyresources payer receiver ⟨quant, core⟩)) c' ∧
      c.Delivered ctx row c' payer receiver quant) ↔
    c.CanBuy ctx core row payer receiver quant := by
  have hreach : Chain.Reachable env c :=
    ⟨es, hrun.mono (fun _ => True) (fun _ _ _ _ h => h.1) (fun _ _ => trivial)⟩
  constructor
  · rintro ⟨c', hstep, _⟩
    exact Chain.canBuy_of_step hreach hcore hrow hstep
  · intro hbuy
    obtain ⟨c', hstep⟩ := hbuy.buys hrun hcore hrow hauth hslot hmem hstake hlt
      hliquid hcollateral
    exact ⟨c', hstep, Chain.step_delivered hreach hlt hcore hrow hstep⟩

/-- Alice can buy memory for bob with three tokens. -/
theorem memory_purchase_sample : ∃ (c c' : Chain) (row : ExchangeState),
    c.sys.memBytes bob = 0 ∧ Chain.Step sampleEnv c (.system
      (.signedBy alice 2) (.buyresources alice bob ⟨30000, inrSymbol⟩)) c' ∧
    c.Delivered (.signedBy alice 2) row c' alice bob 30000 := by
  have hsample : SampleRun [] (fun _ c =>
      c.slot = 1 ∧ c.sys.memBytes bob = 0 ∧
      c.sys.market.coreSymbol = .ok inrSymbol ∧
      c.sys.market.memmarket.any (fun row =>
        2 * boughtBytes 30000 < row.base.amount +
          ((c.sys.market.dueGrowth 2 % 2 ^ 32 : ℕ) : ℤ) ∧
        row.quote.amount + 30000 ≤ Asset.maxAmount) = true ∧
      30000 + 2 * boughtStake 30000 ≤ c.liquid alice ∧
      c.sys.getProdActivity alice = false ∧
      (c.token.accountOf alice inrCode).isSome = true ∧
      c.sys.totals bob = 0 ∧ c.sys.staked alice = 0) := by
    decide +kernel
  obtain ⟨c₀, c₁, c, hbefore, hinit, hafter, hslot, hbytes, hcore, hrow,
    hliquid, hidle, hinr, htotals, hstaked⟩ := hsample.runs
  obtain ⟨row, hfind, hmarket⟩ := (Option.any_eq_true _ _).mp hrow
  obtain ⟨hstock, hreserve⟩ := of_decide_eq_true hmarket
  have hown : ∀ c e c', e ∈ openingEvents ++
        [.system (.signedBy systemAccount 1) (.init 0 inrSymbol)] ++ [] →
      Chain.Step sampleEnv c e c' → Chain.OwnVoteStep sampleEnv c e c' := by
    intro c e c' he hstep
    refine ⟨hstep, ?_⟩
    simp only [openingEvents, List.cons_append, List.nil_append,
      List.mem_cons, List.not_mem_nil, or_false] at he
    rcases he with rfl | rfl | rfl | rfl | rfl <;> trivial
  have hrun := ((hbefore.append (.single hinit)).append hafter).mono _
    hown (fun _ he => he)
  have hbuy : c.CanBuy (.signedBy alice 2) inrSymbol row alice bob 30000 :=
    { stock := hstock
      unit := by decide
      reserve := hreserve
      symbol := by decide
      other := by decide
      inr := hinr
      stake := ⟨by rw [htotals]; decide, fun h => absurd h (by decide),
        by rw [hstaked]; decide, by rw [hstaked]; decide⟩ }
  have hserved : ∃ c', Chain.Step sampleEnv c (.system (.signedBy alice 2)
        (.buyresources alice bob ⟨30000, inrSymbol⟩)) c' ∧
      c.Delivered (.signedBy alice 2) row c' alice bob 30000 :=
    Iff.mpr (memory_purchase_iff hrun hcore hfind ⟨_, List.mem_cons_self, rfl⟩
      (by rw [hslot]; decide) rfl rfl (by decide) hliquid
      (fun h => absurd (hidle.symm.trans h) (by decide))) hbuy
  obtain ⟨c', hstep, hdelivered⟩ := hserved
  exact ⟨c, c', row, hbytes, hstep, hdelivered⟩

/-- The core token has a large supply, and alice has much of it. -/
def wealthyEvents : List Event :=
  [.token (.signedBy tokenAccount 1)
      (.create systemAccount ⟨4 * 10 ^ 18, inrSymbol⟩),
    .token (.signedBy systemAccount 1)
      (.issue systemAccount ⟨10 ^ 14, inrSymbol⟩ ""),
    .token (.signedBy systemAccount 1)
      (.transfer systemAccount alice ⟨2 * 10 ^ 13, inrSymbol⟩ ""),
    .system (.signedBy systemAccount 1) (.init 0 inrSymbol)]

/-- What comes of a run after which alice buys for bob. -/
private theorem stopped_purchase {es : List Event} {quant : ℤ} {msg : String}
    (h : Finishes (es.foldlM (Chain.exec sampleEnv) (.genesis sampleEnv))
      (fun c => c.sys.market.memmarket.any (fun row =>
          boughtBytes quant < row.base.amount) = true ∧
        quant + 2 * boughtStake quant ≤ c.liquid alice ∧
        c.sys.getProdActivity alice = false ∧
        (Chain.exec sampleEnv c (.system (.signedBy alice 2)
          (.buyresources alice bob ⟨quant, inrSymbol⟩))).map (fun _ => ()) =
            .error (.check msg))) :
    ∃ c row, Run (Chain.Step sampleEnv) (.genesis sampleEnv) es c ∧
      c.sys.market.memmarket = some row ∧
      boughtBytes quant < row.base.amount ∧
      quant + 2 * boughtStake quant ≤ c.liquid alice ∧
      c.sys.getProdActivity alice = false ∧
      Chain.exec sampleEnv c (.system (.signedBy alice 2)
        (.buyresources alice bob ⟨quant, inrSymbol⟩)) =
          .error (.check msg) := by
  obtain ⟨c, hrun, hmarket, hliquid, hidle, hstop⟩ := h
  obtain ⟨row, hrow, hstock⟩ := (Option.any_eq_true _ _).mp hmarket
  exact ⟨c, row, Run.of_foldlM hrun, hrow, of_decide_eq_true hstock, hliquid,
    hidle, map_eq_error.mp hstop⟩

/-- A purchase of more than half of the stock is refused, and so is one for a
single unit. -/
theorem memory_purchase_refused :
    (0 < boughtBytes (2 * 10 ^ 12) ∧ ∃ c row,
      Run (Chain.Step sampleEnv) (.genesis sampleEnv) wealthyEvents c ∧
      c.sys.market.memmarket = some row ∧
      boughtBytes (2 * 10 ^ 12) < row.base.amount ∧
      2 * 10 ^ 12 + 2 * boughtStake (2 * 10 ^ 12) ≤ c.liquid alice ∧
      c.sys.getProdActivity alice = false ∧
      Chain.exec sampleEnv c (.system (.signedBy alice 2)
        (.buyresources alice bob ⟨2 * 10 ^ 12, inrSymbol⟩)) =
          .error (.check "error, there is no more memory to buy")) ∧
    0 < boughtBytes 1 ∧ ∃ c row,
      Run (Chain.Step sampleEnv) (.genesis sampleEnv) wealthyEvents c ∧
      c.sys.market.memmarket = some row ∧
      boughtBytes 1 < row.base.amount ∧
      1 + 2 * boughtStake 1 ≤ c.liquid alice ∧
      c.sys.getProdActivity alice = false ∧
      Chain.exec sampleEnv c (.system (.signedBy alice 2)
        (.buyresources alice bob ⟨1, inrSymbol⟩)) =
          .error (.check "must stake a positive amount") :=
  ⟨⟨by decide, stopped_purchase (by decide +kernel)⟩, by decide,
    stopped_purchase (by decide +kernel)⟩

end Inery
