import IneryContracts.ProducerStanding
import IneryContracts.StakeReturns
import IneryContracts.TokenIsolation
import IneryContracts.VoteLocking

/-!
# When memory can be sold back

A sale pays for whole mebibytes, and besides paying it takes back as much stake
in each resource: stake of the seller with itself, which a purchase by somebody
else never gave it.  It also asks for a row of the seller among the producers,
which no purchase writes.  Everything else a sale asks for holds in every state
that a run without forced votes reaches; this file says exactly when a sale
succeeds there.
-/

namespace Inery

open GuardedStep LedgerVector LabelledRun MachineInt

/-! ## The trade -/

section Trade

variable {s : SysState} {core : Symbol} {quote₀ : ℤ} {row : ExchangeState}
  {L : LotMarket Name 10000 mib} {account : Name} {bytes : ℤ}

/-- What is paid for bytes that somebody holds. -/
theorem Trades.price_le (h : Trades s core quote₀ row L) (hpos : 0 < bytes)
    (hheld : bytes ≤ L.held account) :
    bytes / mib * 10000 ≤ L.paid ∧ bytes / mib < 2 ^ 31 := by
  have hdiv := Int.ediv_mul_le bytes (show mib ≠ 0 by decide)
  have hprice : bytes / mib * 10000 * mib ≤ bytes * 10000 := by linarith
  have hlt := hheld.trans_lt (h.held_lt account)
  refine ⟨L.payment_le_paid (by decide) (by decide) hheld hprice, ?_⟩
  unfold mib
  omega

/-- The exchange takes bytes that somebody holds. -/
private theorem directConvert_held (h : Trades s core quote₀ row L)
    (hquote₀ : 0 ≤ quote₀) (hvalid : core.isValid = true)
    (hne : memSymbol ≠ core) (hquote : row.quote.amount ≤ Asset.maxAmount)
    (hpos : 0 < bytes) (hheld : bytes ≤ L.held account) :
    row.directConvert ⟨bytes, memSymbol⟩ core = .ok ({ row with
      base := { row.base with amount := row.base.amount + bytes }
      quote := { row.quote with
        amount := row.quote.amount - bytes / mib * 10000 } },
      ⟨bytes / mib, core⟩) := by
  obtain ⟨hpaid, hlots⟩ := h.price_le hpos hheld
  have hnonneg : 0 ≤ bytes / mib := Int.ediv_nonneg hpos.le (by decide)
  have hstock := h.stock_lt
  have hstock₀ := L.stock_pos
  have hlt := hheld.trans_lt (h.held_lt account)
  have hzero : Asset.InRange 0 := by decide
  have hbase : Asset.InRange (row.base.amount + bytes) := by
    rw [h.stock]
    unfold Asset.InRange Asset.maxAmount
    omega
  have hscaled : Asset.InRange (bytes / mib * 10000) := by
    unfold Asset.InRange Asset.maxAmount
    omega
  have hleft : Asset.InRange (row.quote.amount - bytes / mib * 10000) := by
    have hreserve := h.quote
    unfold Asset.InRange Asset.maxAmount at *
    omega
  simp only [ExchangeState.directConvert, bind_eq_ok, check_eq_ok,
    exists_const, Asset.make_eq_ok]
  refine ⟨hne, ⟨0, core⟩, ⟨hzero, hvalid, rfl⟩, ?_⟩
  rw [if_pos ⟨h.hasRow.base.symm, h.hasRow.quote.symm⟩]
  simp only [bind_eq_ok, Asset.add_eq_ok, Asset.sub_eq_ok, Asset.mul_eq_ok,
    pure_eq_ok, Prod.mk.injEq, ExchangeState.getBancorInput_eq hpos.le]
  exact ⟨_, ⟨h.hasRow.base.symm, hbase, rfl⟩, _, ⟨hscaled, rfl⟩, _,
    ⟨h.hasRow.quote.symm, hleft, rfl⟩, rfl, trivial⟩

/-- **The market buys back what somebody holds**, if it is a mebibyte at
least. -/
theorem Trades.sell (h : Trades s core quote₀ row L) (hquote₀ : 0 ≤ quote₀)
    (hvalid : core.isValid = true) (hne : memSymbol ≠ core)
    (hquote : row.quote.amount ≤ Asset.maxAmount) (hlot : mib ≤ bytes)
    (hheld : bytes ≤ L.held account) : ∃ market,
      s.market.sell bytes = .ok (market, ⟨bytes / mib * 10000, core⟩) := by
  have hpos : 0 < bytes := lt_of_lt_of_le (by decide) hlot
  obtain ⟨hpaid, hlots⟩ := h.price_le hpos hheld
  have hone : 1 ≤ bytes / mib := by
    unfold mib at *
    omega
  have hlt := hheld.trans_lt (h.held_lt account)
  have hbytes : Asset.InRange bytes := by
    unfold Asset.InRange Asset.maxAmount
    omega
  have htokens : Asset.InRange (bytes / mib * 10000) := by
    unfold Asset.InRange Asset.maxAmount
    omega
  have hmem : memSymbol.isValid = true := by decide
  have hstake : 0 ≤ i64 (s.market.totalMemStake - bytes / mib * 10000) := by
    have hmax := h.paid_le
    unfold Asset.maxAmount at hmax
    rw [h.paid, i64_of_range (by omega) (by omega)]
    omega
  have hstock := L.stock_pos
  have hsize := h.size_lt
  have hpart : bytes ≤ row.base.amount + bytes := by
    rw [h.stock]
    omega
  have hreleased := toUInt64_lots hpos.le hpart (by omega)
    (show s.market.maxMemSize < 2 ^ 63 by omega)
  refine ⟨{ s.market with
    memmarket := some { row with
      base := { row.base with amount := row.base.amount + bytes }
      quote := { row.quote with
        amount := row.quote.amount - bytes / mib * 10000 } }
    totalMemBytesReserved := u64 (s.market.totalMemBytesReserved -
      bytes / mib * mib * s.market.maxMemSize / (row.base.amount + bytes))
    totalMemStake := i64 (s.market.totalMemStake - bytes / mib * 10000) }, ?_⟩
  simp only [Market.sell, h.hasRow.found, h.hasRow.coreSymbol, bind_eq_ok,
    orStop_eq_ok, Option.some.injEq, exists_eq_left', check_eq_ok,
    exists_const, pure_eq_ok, Except.ok.injEq, Asset.make_eq_ok,
    Asset.mul_eq_ok, Prod.mk.injEq]
  refine ⟨⟨bytes, memSymbol⟩, ⟨hbytes, hmem, rfl⟩, _,
    directConvert_held h hquote₀ hvalid hne hquote hpos hheld,
    ⟨bytes / mib * 10000, core⟩, ⟨htokens, rfl⟩, ?_, _, ?_, hstake, rfl, rfl⟩
  · dsimp only
    omega
  · rw [Int.tdiv_eq_ediv_of_nonneg hpos.le]
    exact hreleased

end Trade

namespace System

/-! ## The sale -/

section Sale

variable {env : Env} {ctx : Ctx} {s s' : SysState} {core : Symbol}
  {quote₀ : ℤ} {a : Name} {bytes : ℤ}

/-- The growth at the start of a sale keeps the books. -/
private theorem books_grown {market : Market} (hs : OpenBooks core quote₀ s)
    (hsell : Sellable core s) (hgrow : s.market.updateMemSupply ctx =
      .ok market) : OpenBooks core quote₀ { s with market } ∧
    Sellable core { s with market } := by
  obtain ⟨ms, _, hrun⟩ := updateMemSupply_moves hgrow
  exact hrun.invariant
    (I := fun s => OpenBooks core quote₀ s ∧ Sellable core s) (fun _ => True)
    (fun _ _ _ _ hs hm => ⟨hm.openBooks hs.1, hm.sellable hs.1.1 hs.2⟩)
    (fun _ _ => trivial) ⟨hs, hsell⟩

/-- The tables of a sale, once the bytes are debited. -/
private theorem withdrawable_sold {market : Market} {tokens : Asset}
    {row : UserResources} (hs : OpenBooks core quote₀ s)
    (hrows : Denominated core s) (howed : total s.owed ≤ Asset.maxAmount)
    (hrow : s.userres.find a = some row) (hpos : 0 < bytes)
    (hquota : bytes ≤ row.memBytes)
    (hsell : s.market.sell bytes = .ok (market, tokens)) :
    Withdrawable core { s with
      market
      userres := s.userres.put
        { row with memBytes := i64 (row.memBytes - bytes) } } := by
  have hmove : Moved s (.sold a bytes tokens) { s with
      market
      userres := s.userres.put
        { row with memBytes := i64 (row.memBytes - bytes) } } :=
    ⟨row, market, hrow, hpos, hquota, hsell, rfl⟩
  obtain ⟨hopen, hledger⟩ := hmove.openBooks hs
  have hin := hrows.userres a row hrow
  exact
    { coreSymbol := hopen.coreSymbol
      valid := hin.1.2
      rows := ⟨hrows.delband, hrows.userres.put hin, hrows.refunds⟩
      ledger := hledger
      owed := by rwa [hmove.owed, Move.owing, add_zero] }

/-- **A sale goes through** where the seller is registered and not active, has
staked with itself in both resources what it is paid, and can cast its vote
again; it sends the payment and nothing else. -/
theorem sellres_succeeds (hs : OpenBooks core quote₀ s)
    (hsell : Sellable core s) (hrows : Denominated core s)
    (howed : total s.owed ≤ Asset.maxAmount) {prod : ProducerInfo}
    {row : UserResources} (hauth : ctx.HasAuth a)
    (hprod : s.election.producers.find a = some prod)
    (hidle : prod.isProducer = false) (hrow : s.userres.find a = some row)
    (hlot : mib ≤ bytes) (hquota : bytes ≤ row.memBytes)
    (hnet : bytes / mib * 10000 ≤ (s.delegated a a).1)
    (hcpu : bytes / mib * 10000 ≤ (s.delegated a a).2)
    (hpower : Succeeds (s.election.updateVotingPower env ctx a
      ⟨-(bytes / mib * 10000) + -(bytes / mib * 10000), core⟩)) :
    ∃ s', sellres env ctx s a bytes = .ok s' ∧
      s'.outbox = s.outbox ++
        [⟨[⟨memAccount, activePermission⟩, ⟨a, activePermission⟩],
          .transfer memAccount a ⟨bytes / mib * 10000, core⟩ "sell MEM"⟩] ∧
      s'.accountsact = s.accountsact := by
  have hpos : 0 < bytes := lt_of_lt_of_le (by decide) hlot
  have hone : 0 < bytes / mib * 10000 := by
    unfold mib at *
    omega
  obtain ⟨market, hgrow⟩ := hs.1.grows ctx
  obtain ⟨hgrown, hsell'⟩ := books_grown hs hsell hgrow
  obtain ⟨⟨hquote₀, exrow, L, htrades⟩, _⟩ := id hgrown
  have hheld : L.held a = row.memBytes := by
    rw [← htrades.held]
    exact view_of_find hrow
  obtain ⟨hne, hquote⟩ := hsell' a (by
    rw [htrades.held]
    omega)
  have hin := hrows.userres a row hrow
  obtain ⟨market', hsold⟩ := htrades.sell hquote₀ hin.1.2 hne
    (hquote exrow htrades.hasRow.found) hlot (hheld ▸ hquota)
  have hdebited := withdrawable_sold hgrown { hrows with }
    (by rwa [owed_congr rfl rfl]) hrow hpos hquota hsold
  obtain ⟨s₁, hund, hout, hact⟩ := undelegatebw_back hdebited hauth hone.le
    hone.le (add_pos hone hone) hnet hcpu hpower
  have htokens : Asset.InRange (bytes / mib * 10000) := by
    have hpaid := (htrades.price_le hpos (hheld ▸ hquota)).1
    have hmax := htrades.paid_le
    unfold Asset.InRange Asset.maxAmount at *
    omega
  have hkey : row.owner = a := KeyedTable.key_of_find hrow
  obtain ⟨limits, hlimits⟩ := limitTraded_ok s₁
    { row with memBytes := i64 (row.memBytes - bytes) }
  refine ⟨{ s₁ with limits }.send
    [⟨memAccount, activePermission⟩, ⟨a, activePermission⟩]
    (.transfer memAccount a ⟨bytes / mib * 10000, core⟩ "sell MEM"), ?_,
    congrArg (· ++ _) hout, hact⟩
  simp only [sellres, bind_eq_ok, Ctx.requireAuth_eq_ok, check_eq_ok,
    tableGet_eq_ok, deref_eq_ok, modify_eq_ok, Asset.make_eq_ok, pure_eq_ok,
    exists_const]
  refine ⟨hauth, market, hgrow, hpos, prod, hprod, row, hrow,
    fun hactive => absurd (hactive.symm.trans hidle) (by decide), hquota,
    ⟨market', _⟩, hsold, _, ⟨row, hrow, hkey, rfl⟩, core, hdebited.coreSymbol,
    ⟨bytes / mib * 10000, core⟩, ⟨htokens, hin.1.2, rfl⟩, s₁, hund, ?_⟩
  rw [hlimits]

end Sale

end System

/-! ## Chains that can pay -/

namespace Chain

/-- What a sale can rely on: the books are in order, the stake account and the
memory account have what they owe, the memory account is no producer, and no
stored vote is a forced one. -/
structure Paying (c : Chain) : Prop extends Solvent c where
  core : ∀ core, c.sys.market.coreSymbol = .ok core → c.CoreBooks core
  paid : c.sys.market.totalMemStake ≤ c.liquid memAccount
  idle : c.sys.getProdActivity memAccount = false
  votes : c.sys.election.Secure

theorem paying_run {env : Env} {es : List Event} {c : Chain}
    (hrun : Run (OwnVoteStep env) (genesis env) es c)
    (hmem : ∀ e ∈ es, ¬ e.TopLevelBy memAccount)
    (hstake : ∀ e ∈ es, ¬ e.TopLevelBy stakeAccount) : c.Paying := by
  have hstep : Run (Step env) (genesis env) es c :=
    hrun.mono (fun _ => True) (fun _ _ _ _ h => h.1) (fun _ _ => trivial)
  have hkept := hstep.invariant (I := fun c => c.Books ∧
      c.sys.market.totalMemStake ≤ c.liquid memAccount ∧
      c.sys.getProdActivity memAccount = false)
    (fun e => ¬ e.TopLevelBy memAccount)
    (fun _ _ _ htop ⟨hc, hpaid, hidle⟩ h => ⟨hc.step h,
      hc.paid_le_step h htop hpaid, (step_activity h htop).trans hidle⟩)
    hmem ⟨books_genesis env, (books_genesis env).liquid_nonneg _, rfl⟩
  exact
    { toSolvent := (solvent_genesis env).run hstep hstake
      core := fun _ hcore => Reachable.coreBooks ⟨es, hstep⟩ hcore
      paid := hkept.2.1
      idle := hkept.2.2
      votes := secure_run hrun }

/-- What a sale asks for beyond the bytes: that the seller is registered, has
staked with itself, in each resource, what it is paid, may take stake back and
take tokens, and that the memory account has a row of `INR`. -/
structure CanSell (c : Chain) (ctx : Ctx) (a : Name) (bytes : ℤ) : Prop where
  registered : (c.sys.election.producers.find a).isSome
  net : bytes / mib * 10000 ≤ (c.sys.delegated a a).1
  cpu : bytes / mib * 10000 ≤ (c.sys.delegated a a).2
  vested : Election.checkVesting ctx a
    (c.sys.staked a - 2 * (bytes / mib * 10000)) = .ok ()
  taker : a ≠ accountCreator
  inr : (c.token.accountOf memAccount inrCode).isSome

section Sales

variable {env : Env} {c c' : Chain} {ctx : Ctx} {a : Name} {bytes : ℤ}
  {row : UserResources}

/-- Where somebody holds bytes the market is open. -/
theorem Paying.open_of_row (hc : c.Paying)
    (hrow : c.sys.userres.find a = some row) :
    ∃ core quote₀, Open core quote₀ c.sys := by
  refine hc.books.market.resolve_left (fun hclosed => ?_)
  rw [hclosed.userres a] at hrow
  cases hrow

/-- **What a sale takes**: as much stake in each resource as it pays, from the
seller and with the seller, if the vesting allows it. -/
private theorem sellres_takes {s s' : SysState} {core : Symbol} {quote₀ : ℤ}
    (hopen : Open core quote₀ s) (hrange : System.StakedInRange s.staked)
    (h : System.sellres env ctx s a bytes = .ok s') :
    ctx.HasAuth a ∧ (s.election.producers.find a).isSome ∧
    s'.delegated a a = s.delegated a a +
      (-(bytes / mib * 10000), -(bytes / mib * 10000)) ∧
    ∃ v, s.election.Booked a
        (-(bytes / mib * 10000) + -(bytes / mib * 10000)) v ∧
      Election.checkVesting ctx a v.staked = .ok () := by
  obtain ⟨hauth, hpos, row, market, market', tokens, s₁, hprod, _, _,
    hgrow, hsell, hund, hs⟩ := System.sellres_calls h
  obtain ⟨_, exrow, L, htrades⟩ := hopen.grown hgrow
  obtain ⟨rfl, _⟩ := Market.sell_ok htrades.hasRow hpos hsell
  obtain ⟨_, _, _, _, _, ρ, hchange⟩ := System.undelegatebw_ok hund hrange
  obtain ⟨limits, hlimits⟩ := System.limitTraded_ok s₁
    { row with memBytes := i64 (row.memBytes - bytes) }
  obtain ⟨_, _, _, _, _, hchangebw⟩ := System.undelegatebw_calls hund
  refine ⟨hauth, hprod, ?_,
    System.vested_of_power (System.changebw_power hchangebw).2⟩
  have hcell := congrFun (congrFun hchange.delegated a) a
  rw [Pi.add_apply, Pi.add_apply, cell_apply, if_pos ⟨rfl, rfl⟩] at hcell
  rw [hs, hlimits]
  exact hcell

/-- The memory account sends what it is asked to send for a sale. -/
private theorem Paying.succeeds_payment (hc : c.Paying)
    (hrow : c.sys.userres.find a = some row) (hlot : mib ≤ bytes)
    (hquota : bytes ≤ row.memBytes) {core : Symbol}
    (hcore : c.sys.market.coreSymbol = .ok core) (ctx : Ctx)
    (hauth : ctx.HasAuth memAccount) (hne : memAccount ≠ a)
    (hexists : ctx.isAccount a = true) {act : Name → Bool}
    (hact : act memAccount = false) (htaker : a ≠ accountCreator)
    (hinr : (c.token.accountOf memAccount inrCode).isSome) :
    Succeeds (Token.transfer ctx act c.token memAccount a
      ⟨bytes / mib * 10000, core⟩ "sell MEM") := by
  obtain ⟨⟨st, hst, hsymbol⟩, hrows, _⟩ := hc.core core hcore
  obtain ⟨core', quote₀, _, exrow, L, htrades⟩ := hc.open_of_row hrow
  obtain rfl : core' = core :=
    Except.ok.inj (htrades.hasRow.coreSymbol.symm.trans hcore)
  have hpos : 0 < bytes := lt_of_lt_of_le (by decide) hlot
  have hone : 0 < bytes / mib * 10000 := by
    unfold mib at *
    omega
  have hheld : L.held a = row.memBytes := by
    rw [← htrades.held]
    exact view_of_find hrow
  have hpaid := (htrades.price_le hpos (hheld ▸ hquota)).1
  have hliquid := hc.paid
  rw [htrades.paid, liquid_of_core hcore] at hliquid
  exact Token.succeeds_transfer hc.books.token hne hauth hexists htaker hst
    hsymbol.symm (hrows.userres a row hrow).1.2 hone (hpaid.trans hliquid) hinr
    (fun h => absurd (h.symm.trans hact) (by decide)) (by decide)

/-- The sale itself, without the payment. -/
private theorem Paying.sellres_run (env : Env) (hc : c.Paying)
    (hrow : c.sys.userres.find a = some row) (hlot : mib ≤ bytes)
    (hquota : bytes ≤ row.memBytes) (hauth : ctx.HasAuth a)
    (hprod : (c.sys.election.producers.find a).isSome)
    (hidle : ∀ prod, c.sys.election.producers.find a = some prod →
      prod.isProducer = false)
    (hnet : bytes / mib * 10000 ≤ (c.sys.delegated a a).1)
    (hcpu : bytes / mib * 10000 ≤ (c.sys.delegated a a).2)
    (hvested : Election.checkVesting ctx a
      (c.sys.staked a - 2 * (bytes / mib * 10000)) = .ok ()) :
    ∃ s' core, c.sys.market.coreSymbol = .ok core ∧
      System.sellres env ctx c.sys a bytes = .ok s' ∧
      s'.outbox = [⟨[⟨memAccount, activePermission⟩, ⟨a, activePermission⟩],
        .transfer memAccount a ⟨bytes / mib * 10000, core⟩ "sell MEM"⟩] ∧
      s'.accountsact = c.sys.accountsact := by
  obtain ⟨core, quote₀, hopen⟩ := hc.open_of_row hrow
  obtain ⟨_, hrows, hsell⟩ := hc.core core hopen.coreSymbol
  obtain ⟨prod, hprod⟩ := Option.isSome_iff_exists.mp hprod
  have hone : 0 < bytes / mib * 10000 := by
    unfold mib at *
    omega
  obtain ⟨hsum, hlow, hhigh⟩ := hc.stake_left hone.le hone.le hnet hcpu
  obtain ⟨v, hbooked, hv⟩ := System.booked_of_staked
    hc.books.toSettled.staked hsum hlow hhigh
  have hleft : v.staked = c.sys.staked a - 2 * (bytes / mib * 10000) := by
    rw [hv, two_mul, ← neg_add, ← sub_eq_add_neg]
    rfl
  rw [← hleft] at hvested
  have hpower : Succeeds (c.sys.election.updateVotingPower env ctx a
      ⟨-(bytes / mib * 10000) + -(bytes / mib * 10000), core⟩) :=
    Election.updateVotingPower_succeeds hc.votes hbooked hvested
  obtain ⟨s', hs', hout, hact⟩ := System.sellres_succeeds
    ⟨hopen, hc.books.stakes⟩ hsell hrows hc.owed_le hauth hprod
    (hidle prod hprod) hrow hlot hquota hnet hcpu hpower
  refine ⟨s', core, hopen.coreSymbol, hs', ?_, hact⟩
  rw [hout, hc.books.toSettled.outbox, List.nil_append]

/-- What a sale asks for is enough. -/
private theorem Paying.sells (hc : c.Paying)
    (hrow : c.sys.userres.find a = some row) (hlot : mib ≤ bytes)
    (hquota : bytes ≤ row.memBytes) (hauth : ctx.HasAuth a)
    (hexists : ctx.isAccount a = true) (hmem : ¬ ctx.HasAuth memAccount)
    (hslot : c.slot ≤ ctx.slot)
    (hidle : ∀ prod, c.sys.election.producers.find a = some prod →
      prod.isProducer = false)
    (hsale : c.CanSell ctx a bytes) :
    Succeeds (exec env c (.system ctx (.sellres a bytes))) := by
  obtain ⟨s', core, hcore, hs', hout, hact⟩ := hc.sellres_run env
    hrow hlot hquota hauth hsale.registered hidle hsale.net hsale.cpu
    hsale.vested
  have hne : memAccount ≠ a := by
    rintro rfl
    exact hmem hauth
  have hidle' : s'.getProdActivity memAccount = false := by
    have hsame := hc.idle
    unfold SysState.getProdActivity at *
    rwa [hact]
  obtain ⟨token, htoken⟩ := hc.succeeds_payment hrow hlot hquota hcore
    { ctx with auths :=
      [⟨memAccount, activePermission⟩, ⟨a, activePermission⟩] }
    ⟨_, List.mem_cons_self, rfl⟩ hne hexists hidle' hsale.taker hsale.inr
  have hrun : s'.outbox.foldlM (runInline ctx s') c.token = .ok token := by
    rw [hout, List.foldlM_cons, bind_eq_ok]
    exact ⟨token, htoken, rfl⟩
  unfold exec
  refine Succeeds.bind (succeeds_require.mpr hslot) (fun _ _ =>
    Succeeds.bind ?_ (fun _ _ => succeeds_pure))
  refine Succeeds.bind ⟨s', hs'⟩ (fun s hs => ?_)
  cases hs'.symm.trans hs
  exact Succeeds.bind ⟨token, hrun⟩ (fun _ _ => succeeds_pure)

/-- What a sale asks for is needed. -/
private theorem Paying.canSell (hc : c.Paying)
    (hrow : c.sys.userres.find a = some row) (hlot : mib ≤ bytes)
    (hquota : bytes ≤ row.memBytes)
    (hidle : ∀ prod, c.sys.election.producers.find a = some prod →
      prod.isProducer = false)
    (h : Step env c (.system ctx (.sellres a bytes)) c') :
    c.CanSell ctx a bytes := by
  obtain ⟨core, quote₀, hopen⟩ := hc.open_of_row hrow
  have hrange := hc.books.toSettled.staked
  have hone : 0 < bytes / mib * 10000 := by
    unfold mib at *
    omega
  obtain ⟨_, _, ⟨_, _, he, _⟩ | ⟨_, _, s, he, happly, htoken, hsys⟩ |
    ⟨_, _, _, he, _⟩⟩ := step_cases h
  · cases he
  · cases he
    have hsold : System.sellres env ctx c.sys a bytes = .ok s := happly
    obtain ⟨hauth, hprod, hdelegated, v, hbooked, hvested⟩ :=
      sellres_takes hopen hrange hsold
    -- the ledger after the sale shows what the seller had staked with itself
    have hnonneg := (hc.books.step h).stakes.delegated_nonneg a a
    rw [hsys, show SysState.delegated { s with outbox := [] } = s.delegated
      from rfl, hdelegated] at hnonneg
    have hnet : 0 ≤ (c.sys.delegated a a).1 + -(bytes / mib * 10000) :=
      hnonneg.1
    have hcpu : 0 ≤ (c.sys.delegated a a).2 + -(bytes / mib * 10000) :=
      hnonneg.2
    obtain ⟨hsum, _⟩ := hc.stake_left hone.le hone.le
      (show _ ≤ (c.sys.delegated a a).1 by omega) (by omega)
    have hv : v.staked = c.sys.staked a - 2 * (bytes / mib * 10000) := by
      rw [hbooked.staked_eq hrange hsum, two_mul, ← neg_add, ← sub_eq_add_neg]
      rfl
    rw [hv] at hvested
    -- nothing but the payment is sent
    obtain ⟨s', core', _, hs', hout, _⟩ := hc.sellres_run env hrow
      hlot hquota hauth hprod hidle (by omega) (by omega) hvested
    obtain rfl : s' = s := Except.ok.inj (hs'.symm.trans hsold)
    rw [hout, List.foldlM_cons, bind_eq_ok] at htoken
    obtain ⟨token, htransfer, _⟩ := htoken
    exact ⟨hprod, by omega, by omega, hvested,
      (Token.transfer_ok htransfer).2.2.1,
      Token.isSome_inr_of_transfer htransfer⟩
  · cases he

end Sales

end Chain

/-! ## Selling memory back -/

/-- **Who can sell memory back.**  In every run in which the accounts of the
market and of the stakes sign nothing themselves, and in which no vote for
somebody else is cast with a negative weight, a sale of a mebibyte at least
that an idle account signs, of bytes that it has, goes through if and only if
the account is registered as a producer, has staked with itself in each
resource what it is paid, and may take stake back and take tokens. -/
theorem memory_sold_back_iff {env : Env} {es : List Event} {c : Chain}
    {ctx : Ctx} {a : Name} {bytes : ℤ} {row : UserResources}
    (hrun : Run (Chain.OwnVoteStep env) (.genesis env) es c)
    (hmem : ∀ e ∈ es, ¬ e.TopLevelBy memAccount)
    (hstake : ∀ e ∈ es, ¬ e.TopLevelBy stakeAccount)
    (hrow : c.sys.userres.find a = some row) (hlot : mib ≤ bytes)
    (hquota : bytes ≤ row.memBytes)
    (hidle : ∀ prod, c.sys.election.producers.find a = some prod →
      prod.isProducer = false)
    (hauth : ctx.HasAuth a) (hsigner : ¬ ctx.HasAuth memAccount)
    (hexists : ctx.isAccount a = true) (hslot : c.slot ≤ ctx.slot) :
    Succeeds (Chain.exec env c (.system ctx (.sellres a bytes))) ↔
      c.CanSell ctx a bytes := by
  have hc := Chain.paying_run hrun hmem hstake
  constructor
  · rintro ⟨c', hstep⟩
    exact hc.canSell hrow hlot hquota hidle hstep
  · exact hc.sells hrow hlot hquota hauth hexists hsigner hslot hidle

/-- Alice is registered and buys three mebibytes for herself. -/
def buyingEvents : List Event :=
  [.system (.signedBy alice 2) (.regproducer alice {} "" 0),
    .system (.signedBy alice 2) (.buyresources alice alice ⟨30000, inrSymbol⟩)]

/-- Alice sells one of her mebibytes back. -/
theorem memory_sold_back_sample : ∃ c : Chain,
    (c.sys.userres.find alice).isSome ∧
    Succeeds (Chain.exec sampleEnv c
      (.system (.signedBy alice 3) (.sellres alice mib))) := by
  have hsample : SampleRun buyingEvents (fun _ c =>
      c.slot = 2 ∧
      (c.sys.userres.find alice).any (fun row => mib ≤ row.memBytes) = true ∧
      (c.sys.election.producers.find alice).any (fun prod =>
        prod.isProducer = false) = true ∧
      10000 ≤ (c.sys.delegated alice alice).1 ∧
      10000 ≤ (c.sys.delegated alice alice).2 ∧
      (c.token.accountOf memAccount inrCode).isSome = true) := by
    decide +kernel
  obtain ⟨c₀, c₁, c, hbefore, hinit, hafter, hslot, hrow, hprod, hnet, hcpu,
    hinr⟩ := hsample.runs
  obtain ⟨row, hfind, hquota⟩ := (Option.any_eq_true _ _).mp hrow
  obtain ⟨prod, hfound, hidle⟩ := (Option.any_eq_true _ _).mp hprod
  have hown : ∀ c e c', e ∈ openingEvents ++
        [.system (.signedBy systemAccount 1) (.init 0 inrSymbol)] ++
        buyingEvents →
      Chain.Step sampleEnv c e c' → Chain.OwnVoteStep sampleEnv c e c' := by
    intro c e c' he hstep
    refine ⟨hstep, ?_⟩
    simp only [openingEvents, buyingEvents, List.cons_append, List.nil_append,
      List.mem_cons, List.not_mem_nil, or_false] at he
    rcases he with rfl | rfl | rfl | rfl | rfl | rfl | rfl <;> trivial
  have hsigner : ∀ a, a = memAccount ∨ a = stakeAccount →
      ∀ e ∈ openingEvents ++
        [.system (.signedBy systemAccount 1) (.init 0 inrSymbol)] ++
        buyingEvents, ¬ e.TopLevelBy a := by
    rintro a (rfl | rfl) <;>
    · simp only [openingEvents, buyingEvents, List.cons_append,
        List.nil_append, List.forall_mem_cons, List.not_mem_nil,
        IsEmpty.forall_iff, implies_true, and_true, Event.TopLevelBy]
      decide
  have hrun := ((hbefore.append (.single hinit)).append hafter).mono _
    hown (fun _ he => he)
  refine ⟨c, by rw [hfind]; rfl, ?_⟩
  refine (memory_sold_back_iff hrun (hsigner _ (.inl rfl))
    (hsigner _ (.inr rfl)) hfind (le_refl mib) (by simpa using hquota) ?_
    ⟨_, List.mem_cons_self, rfl⟩ (by decide) rfl (by rw [hslot]; decide)).mpr
    ⟨by rw [hfound]; rfl, hnet, hcpu, rfl, by decide, hinr⟩
  intro prod' hprod'
  obtain rfl : prod' = prod := Option.some.inj (hprod'.symm.trans hfound)
  simpa using hidle

/-- Bob is registered and alice buys three mebibytes for him. -/
def givingEvents : List Event :=
  openingEvents ++
  [.system (.signedBy systemAccount 1) (.init 0 inrSymbol),
    .system (.signedBy bob 2) (.regproducer bob {} "" 0),
    .system (.signedBy alice 2) (.buyresources alice bob ⟨30000, inrSymbol⟩)]

/-- Bob buys three mebibytes for himself and never registers. -/
def unlistedEvents : List Event :=
  openingEvents ++
  [.system (.signedBy systemAccount 1) (.init 0 inrSymbol),
    .system (.signedBy bob 2) (.buyresources bob bob ⟨30000, inrSymbol⟩)]

/-- What comes of a run after which bob sells a mebibyte. -/
private theorem stopped_sale {es : List Event} {msg : String}
    (h : Finishes (es.foldlM (Chain.exec sampleEnv) (.genesis sampleEnv))
      (fun c => c.sys.memBytes bob = 3 * mib ∧
        (c.sys.election.producers.find bob).all (fun prod =>
          prod.isProducer = false) = true ∧
        (Chain.exec sampleEnv c (.system (.signedBy bob 3)
          (.sellres bob mib))).map (fun _ => ()) = .error (.check msg))) :
    ∃ c, Run (Chain.Step sampleEnv) (.genesis sampleEnv) es c ∧
      c.sys.memBytes bob = 3 * mib ∧
      (∀ prod, c.sys.election.producers.find bob = some prod →
        prod.isProducer = false) ∧
      Chain.exec sampleEnv c (.system (.signedBy bob 3) (.sellres bob mib)) =
        .error (.check msg) := by
  obtain ⟨c, hrun, hbytes, hidle, hstop⟩ := h
  refine ⟨c, Run.of_foldlM hrun, hbytes, ?_, map_eq_error.mp hstop⟩
  intro prod hprod
  rw [hprod] at hidle
  simpa using hidle

/-- Memory that somebody else has paid for cannot be sold by its receiver, nor
can memory of an account that is not registered as a producer. -/
theorem memory_not_sold_back :
    (∀ e ∈ givingEvents ++ unlistedEvents,
      ¬ e.TopLevelBy memAccount ∧ ¬ e.TopLevelBy stakeAccount) ∧
    (∃ c, Run (Chain.Step sampleEnv) (.genesis sampleEnv) givingEvents c ∧
      c.sys.memBytes bob = 3 * mib ∧
      (∀ prod, c.sys.election.producers.find bob = some prod →
        prod.isProducer = false) ∧
      Chain.exec sampleEnv c (.system (.signedBy bob 3) (.sellres bob mib)) =
        .error (.check "insufficient staked net bandwidth")) ∧
    ∃ c, Run (Chain.Step sampleEnv) (.genesis sampleEnv) unlistedEvents c ∧
      c.sys.memBytes bob = 3 * mib ∧
      (∀ prod, c.sys.election.producers.find bob = some prod →
        prod.isProducer = false) ∧
      Chain.exec sampleEnv c (.system (.signedBy bob 3) (.sellres bob mib)) =
        .error (.check "unable to find key") := by
  refine ⟨?_, stopped_sale (by decide +kernel),
    stopped_sale (by decide +kernel)⟩
  simp only [givingEvents, unlistedEvents, openingEvents, List.cons_append,
    List.nil_append, List.forall_mem_cons, List.not_mem_nil,
    IsEmpty.forall_iff, implies_true, and_true, Event.TopLevelBy]
  decide

end Inery
