import IneryContracts.ActionFrames

/-!
# Actions as sequences of moves

What an action of the system contract does to resources, to the market and to
the outbox is a sequence of a few kinds of moves: stakes, refunds, trades, the
growth of the supply.  `apply_moves` takes every action apart into its moves;
an invariant then only has to be kept by each kind of move.
-/

namespace Inery

open GuardedStep LedgerVector LabelledRun MachineInt

/-- The kinds of moves. -/
inductive Move
  /-- No resource, no market and no token is touched. -/
  | rest
  /-- The pay of producers is sent. -/
  | payroll
  /-- The market opens. -/
  | opened
  /-- The supply of memory grows. -/
  | grown (bytes : ℕ)
  /-- The rate of growth is set. -/
  | rated
  /-- Memory is paid for and credited. -/
  | bought (payer receiver : Name) (quant : Asset) (bytes : ℤ)
  /-- Memory is debited. -/
  | sold (account : Name) (bytes : ℤ) (tokens : Asset)
  /-- The price of debited memory is sent. -/
  | paidOut (account : Name) (tokens : Asset)
  /-- A stake changes, and with it a refund. -/
  | staked (source owner receiver : Name) (dn dc : Asset) (ρ : ℤ × ℤ)
  /-- A refund is paid. -/
  | refunded (owner : Name)
  /-- An account gets its row of resources. -/
  | created (account : Name)

/-- The market grows by `bytes`: at most 65535 a block, or up to a petabyte
by a decision of the system account. -/
structure Growth (m m' : Market) (bytes : ℕ) : Prop where
  room : m.maxMemSize + bytes < 2 ^ 50 ∧
      m'.lastMemIncrease = m.lastMemIncrease ∨
    m.lastMemIncrease < m'.lastMemIncrease ∧
      bytes ≤ 65535 * (m'.lastMemIncrease.toNat - m.lastMemIncrease.toNat)
  grown : ∃ row, m.memmarket = some row ∧ m' = { m with
    maxMemSize := u64 (m.maxMemSize + bytes)
    memmarket := some { row with base := { row.base with
      amount := i64 (row.base.amount + bytes) } }
    lastMemIncrease := m'.lastMemIncrease }

/-- The market opens with the memory of the first supply. -/
structure Opening (m m' : Market) : Prop where
  closed : m.memmarket = none
  opened : ∃ supply core quote, 0 ≤ quote ∧ m' = { m with
    memmarket := some
      { supply
        base := ⟨truncate (3535 / 10 * 1024 * 1024 * 1024 * 1024), memSymbol⟩
        quote := ⟨quote, core⟩ } }

/-- A move leads from one state to another. -/
def Moved (s : SysState) : Move → SysState → Prop
  | .rest, s' => Apart s s'
  | .payroll, s' => SameResources s s' ∧ s'.market = s.market ∧
      ∃ l, System.PaidByPool l ∧ s'.outbox = s.outbox ++ l
  | .opened, s' => ∃ market, Opening s.market market ∧
      s' = { s with market }
  | .grown bytes, s' => ∃ market, Growth s.market market bytes ∧
      s' = { s with market }
  | .rated, s' => ∃ newMemPerBlock,
      s' = { s with market := { s.market with newMemPerBlock } }
  | .bought payer receiver quant bytes, s' => ∃ market userres res,
      0 < quant.amount ∧ s.market.coreSymbol = .ok quant.symbol ∧
      s.market.buy quant = .ok (market, bytes) ∧
      System.creditBytes quant.symbol s.userres receiver bytes =
        .ok (userres, res) ∧
      s' = { s.send
          [⟨payer, activePermission⟩, ⟨memAccount, activePermission⟩]
          (.transfer payer memAccount quant "buy MEM") with market, userres }
  | .sold account bytes tokens, s' => ∃ row market,
      s.userres.find account = some row ∧ 0 < bytes ∧ bytes ≤ row.memBytes ∧
      s.market.sell bytes = .ok (market, tokens) ∧
      s' = { s with
        market
        userres := s.userres.put
          { row with memBytes := i64 (row.memBytes - bytes) } }
  | .paidOut account tokens, s' => s.market.coreSymbol = .ok tokens.symbol ∧
      s' = s.send
        [⟨memAccount, activePermission⟩, ⟨account, activePermission⟩]
        (.transfer memAccount account tokens "sell MEM")
  | .staked source owner receiver dn dc ρ, s' =>
      s.market.coreSymbol = .ok dn.symbol ∧
      System.StakeChange s s' source owner receiver dn dc ρ
  | .refunded owner, s' => ∃ req, s.refunds.find owner = some req ∧
      s' = { s.send
          [⟨stakeAccount, activePermission⟩, ⟨owner, activePermission⟩]
          (.transfer stakeAccount owner
            ⟨req.netAmount.amount + req.cpuAmount.amount,
              req.netAmount.symbol⟩ "unstake") with
        refunds := s.refunds.erase owner }
  | .created account, s' => ∃ core zero limits,
      s.market.coreSymbol = .ok core ∧ s.userres.find account = none ∧
      zero.amount = 0 ∧ s' = { s with
        userres := s.userres.put ⟨account, zero, zero, 0⟩
        limits }

/-! ## The growth of the supply -/

namespace System

/-- The supply grew, or did not. -/
def MaybeGrown (ms : List Move) : Prop := ms = [] ∨ ∃ g, ms = [.grown g]

/-- A product of 32 bits is no larger than the product. -/
private theorem newMem_le {last slot : UInt32} (h : last < slot)
    (rate : UInt16) : ((slot - last) * rate.toUInt32).toNat ≤
      65535 * (slot.toNat - last.toNat) := by
  have hlt : last.toNat < slot.toNat := h
  have hslot := slot.toNat_lt
  have hrate := rate.toNat_lt
  have hsub : (slot - last).toNat = slot.toNat - last.toNat := by
    rw [UInt32.toNat_sub_of_le]
    exact UInt32.le_iff_toNat_le.mpr hlt.le
  rw [UInt32.toNat_mul, hsub, UInt16.toNat_toUInt32, mul_comm 65535]
  exact (Nat.mod_le _ _).trans (Nat.mul_le_mul_left _ (by omega))

theorem updateMemSupply_moves {ctx : Ctx} {s : SysState} {market : Market}
    (h : s.market.updateMemSupply ctx = .ok market) :
    ∃ ms, MaybeGrown ms ∧ Run Moved s ms { s with market } := by
  rcases Market.updateMemSupply_ok h with rfl | ⟨hslot, row, hrow, hm⟩
  · exact ⟨[], .inl rfl, .nil _⟩
  · have hgrowth : Growth s.market market
        ((ctx.slot - s.market.lastMemIncrease) *
          s.market.newMemPerBlock.toUInt32).toNat := by
      subst hm
      exact ⟨.inr ⟨hslot, newMem_le hslot _⟩, row, hrow, rfl⟩
    exact ⟨_, .inr ⟨_, rfl⟩, .single ⟨market, hgrowth, rfl⟩⟩

/-- A new size of the memory is a growth by the difference. -/
private theorem setmem_growth {ctx : Ctx} {m m' : Market} {size : UInt64}
    (h : m.setmem ctx size = .ok m') :
    Growth m m' (size.toNat - m.maxMemSize) := by
  obtain ⟨_, hlt, hmax, _, row, hrow, rfl⟩ := Market.setmem_ok h
  have hsize : ((size.toNat - m.maxMemSize : ℕ) : ℤ) =
      size.toNat - m.maxMemSize := by omega
  have hto : u64 (m.maxMemSize + (size.toNat - m.maxMemSize : ℕ)) =
      size.toNat := by
    have h64 := u64_of_range (x := m.maxMemSize +
      ((size.toNat - m.maxMemSize : ℕ) : ℤ)) (by omega) (by omega)
    omega
  have hdelta : i64 (i64 size.toNat - i64 m.maxMemSize) =
      ((size.toNat - m.maxMemSize : ℕ) : ℤ) := by
    rw [i64_of_range (x := size.toNat) (by omega) (by omega),
      i64_of_range (x := m.maxMemSize) (by omega) (by omega),
      i64_of_range (by omega) (by omega), hsize]
  refine ⟨.inl ⟨by omega, rfl⟩, row, hrow, ?_⟩
  rw [hto, hdelta]

private theorem init_opening {ctx : Ctx} {t : TokenState} {m m' : Market}
    {version : ℕ} {core : Symbol}
    (h : m.init ctx t version core = .ok m') : Opening m m' := by
  simp only [Market.init, bind_eq_ok, Ctx.requireAuth_eq_ok, check_eq_ok,
    pure_eq_ok, exists_const, Option.isNone_iff_eq_none] at h
  obtain ⟨_, _, hnone, supply, _, hsymbol, hpos, rfl⟩ := h
  exact ⟨hnone, _, core, _, Int.tdiv_nonneg (by omega) (by decide), rfl⟩

/-! ## The moves of each action -/

/-- The moves that an action consists of when it succeeds, with what its
checks have made sure of. -/
def MovesOf (ctx : Ctx) : SysAction → List Move → Prop
  | .init _ _, ms => ms = [.opened]
  | .setmem _, ms => ∃ g, ms = [.grown g]
  | .setmemrate _, ms => ∃ growth, MaybeGrown growth ∧
      ms = growth ++ [.rated]
  | .delegatebw from' receiver net cpu transfer, ms =>
      ctx.HasAuth from' ∧ (transfer = false ∨ from' ≠ receiver) ∧
      cpu.symbol = net.symbol ∧ 0 ≤ net.amount ∧ 0 ≤ cpu.amount ∧ ∃ ρ, ms =
        [.staked from' (if transfer then receiver else from') receiver net
          cpu ρ]
  | .undelegatebw from' receiver net cpu, ms =>
      ctx.HasAuth from' ∧ cpu.symbol = net.symbol ∧ ∃ ρ,
      ms = [.staked from' from' receiver net.neg cpu.neg ρ]
  | .buyresources payer receiver quant, ms =>
      ctx.HasAuth payer ∧ ∃ growth b, ∃ stake : Asset, ∃ ρ,
      MaybeGrown growth ∧ 0 ≤ stake.amount ∧ ms = growth ++
        [.bought payer receiver quant b,
          .staked payer payer receiver stake stake ρ]
  | .buymembytes payer receiver bytes, ms =>
      ctx.HasAuth payer ∧ ∃ growth b, ∃ price stake : Asset, ∃ ρ ρ',
      MaybeGrown growth ∧ price.amount = (bytes.toNat : ℤ) / mib * 10000 ∧
      0 ≤ stake.amount ∧ ms = growth ++
        [.bought payer receiver price b,
          .staked payer payer receiver stake stake ρ,
          .staked payer payer receiver price price ρ']
  | .sellres account bytes, ms =>
      ctx.HasAuth account ∧ ∃ growth tokens ρ,
      MaybeGrown growth ∧ ms = growth ++
        [.sold account bytes tokens,
          .staked account account account tokens.neg tokens.neg ρ,
          .paidOut account tokens]
  | .refund owner, ms => ctx.HasAuth owner ∧ ms = [.refunded owner]
  | .newaccount _ newact, ms => ms = [.created newact]
  | .claimrewards _, ms => ms = [.payroll]
  | _, ms => ms = [.rest]

private theorem buyresources_moves {env : Env} {ctx : Ctx} {s s' : SysState}
    {payer receiver : Name} {quant : Asset}
    (h : buyresources env ctx s payer receiver quant = .ok s')
    (hrange : StakedInRange s.staked) :
    StakedInRange s'.staked ∧
    ∃ ms, Run Moved s ms s' ∧ MovesOf ctx (.buyresources payer receiver quant)
      ms := by
  obtain ⟨hauth, hpos, market, market', b, userres, res, stake, ρ, hmarket,
    hcore, hbuy, hcredit, _, hnonneg, hcore', hchange⟩ :=
    buyresources_ok h hrange
  obtain ⟨growth, hgrowth, hrun⟩ := updateMemSupply_moves hmarket
  have hbought : Moved { s with market } (.bought payer receiver quant b)
      { s.send [⟨payer, activePermission⟩, ⟨memAccount, activePermission⟩]
          (.transfer payer memAccount quant "buy MEM") with
        market := market', userres } :=
    ⟨market', userres, res, hpos, hcore, hbuy, hcredit, rfl⟩
  have hstaked : Moved _ (.staked payer payer receiver stake stake ρ) s' :=
    ⟨hcore', hchange⟩
  refine ⟨hchange.stakedInRange, _,
    hrun.append ((Run.single hbought).append (.single hstaked)), hauth, growth,
    b, stake, ρ, hgrowth, hnonneg, rfl⟩

private theorem newaccount_moved {ctx : Ctx} {s s' : SysState}
    {c newact : Name} (h : newaccount ctx s c newact = .ok s') :
    Moved s (.created newact) s' := by
  simp only [newaccount, bind_eq_ok, Ctx.requireAuth_eq_ok,
    Asset.make_eq_ok, emplace_eq_ok, pure_eq_ok, exists_const] at h
  obtain ⟨_, core, hcore, zero, ⟨_, _, rfl⟩, _, ⟨hnone, rfl⟩, rfl⟩ := h
  exact ⟨core, ⟨0, core⟩, _, hcore, hnone, rfl, rfl⟩

private theorem plain_moves {env : Env} {ctx : Ctx} {t : TokenState}
    {s s' : SysState} {a : SysAction}
    (h : apply env ctx t s a = .ok s') (ha : a.Plain) :
    Run Moved s [.rest] s' := by
  have hmove : Moved s .rest s' := apply_plain ha h
  exact .single hmove

/-- **Every action is a sequence of moves.** -/
theorem apply_moves {env : Env} {ctx : Ctx} {t : TokenState} {s s' : SysState}
    {a : SysAction} (h : apply env ctx t s a = .ok s')
    (hrange : StakedInRange s.staked) :
    ∃ ms, Run Moved s ms s' ∧ MovesOf ctx a ms := by
  cases a with
  | init version core =>
      simp only [apply, bind_eq_ok, pure_eq_ok] at h
      obtain ⟨market, hinit, rfl⟩ := h
      have hmove : Moved s .opened { s with market } :=
        ⟨market, init_opening hinit, rfl⟩
      exact ⟨_, .single hmove, rfl⟩
  | setmem size =>
      simp only [apply, bind_eq_ok, pure_eq_ok] at h
      obtain ⟨market, hset, rfl⟩ := h
      have hmove : Moved s (.grown (size.toNat - s.market.maxMemSize))
          { s with market } :=
        ⟨market, setmem_growth hset, rfl⟩
      exact ⟨_, .single hmove, _, rfl⟩
  | setmemrate rate =>
      simp only [apply, Market.setmemrate, bind_eq_ok, Ctx.requireAuth_eq_ok,
        pure_eq_ok, exists_const] at h
      obtain ⟨market, ⟨_, market₁, hgrow, rfl⟩, rfl⟩ := h
      obtain ⟨growth, hgrowth, hrun⟩ := updateMemSupply_moves hgrow
      have hrated : Moved { s with market := market₁ } .rated
          { s with market := { market₁ with newMemPerBlock := rate } } :=
        ⟨rate, rfl⟩
      exact ⟨_, hrun.append (.single hrated), growth, hgrowth, rfl⟩
  | delegatebw from' receiver net cpu transfer =>
      obtain ⟨hauth, hcore, hsym, hnet, hcpu, hself, ρ, hchange⟩ :=
        delegatebw_ok h hrange
      have hstaked : Moved s (.staked from'
          (if transfer then receiver else from') receiver net cpu ρ) s' :=
        ⟨hcore, hchange⟩
      exact ⟨_, .single hstaked, hauth, hself, hsym, hnet, hcpu, ρ, rfl⟩
  | undelegatebw from' receiver net cpu =>
      obtain ⟨hauth, hcore, hsym, _, _, ρ, hchange⟩ := undelegatebw_ok h hrange
      have hstaked : Moved s (.staked from' from' receiver net.neg cpu.neg ρ)
          s' := ⟨hcore, hchange⟩
      exact ⟨_, .single hstaked, hauth, hsym, ρ, rfl⟩
  | buyresources payer receiver quant =>
      exact (buyresources_moves h hrange).2
  | buymembytes payer receiver bytes =>
      obtain ⟨price, s₁, hprice, _, hbuy, hdel⟩ := buymembytes_ok h
      obtain ⟨hrange₁, ms, hrun, hauth, growth, b, stake, ρ, hgrowth, hstake,
        rfl⟩ := buyresources_moves hbuy hrange
      obtain ⟨_, hcore, _, _, _, _, ρ', hchange⟩ := delegatebw_ok hdel hrange₁
      have hstaked : Moved s₁
          (.staked payer payer receiver price price ρ') s' := ⟨hcore, hchange⟩
      refine ⟨_, hrun.append (.single hstaked), hauth, growth, b, price, stake,
        ρ, ρ', hgrowth, hprice, hstake, ?_⟩
      simp
  | sellres account bytes =>
      obtain ⟨hauth, hpos, row, market, market', tokens, s₂, ρ, _, hrow,
        hquota, hmarket, hsell, hcore, _, hchange, rfl⟩ := sellres_ok h hrange
      obtain ⟨growth, hgrowth, hrun⟩ := updateMemSupply_moves hmarket
      have hsold : Moved { s with market } (.sold account bytes tokens)
          { s with
            market := market'
            userres := s.userres.put
              { row with memBytes := i64 (row.memBytes - bytes) } } :=
        ⟨row, market', hrow, hpos, hquota, hsell, rfl⟩
      have hstaked : Moved _ (.staked account account account tokens.neg
          tokens.neg ρ) s₂ := ⟨hcore, hchange⟩
      have hpaid : Moved s₂ (.paidOut account tokens) (s₂.send
          [⟨memAccount, activePermission⟩, ⟨account, activePermission⟩]
          (.transfer memAccount account tokens "sell MEM")) := by
        refine ⟨?_, rfl⟩
        rw [hchange.market]
        exact hcore
      exact ⟨_, hrun.append ((Run.single hsold).append
        ((Run.single hstaked).append (.single hpaid))), hauth, growth, tokens,
        ρ, hgrowth, rfl⟩
  | refund owner =>
      obtain ⟨hauth, req, hreq, _, _, hs'⟩ := refund_ok h
      have hmove : Moved s (.refunded owner) s' := ⟨req, hreq, hs'⟩
      exact ⟨_, .single hmove, hauth, rfl⟩
  | newaccount creator newact =>
      exact ⟨_, .single (newaccount_moved (c := creator) h), rfl⟩
  | claimrewards owner =>
      obtain ⟨_, hsame, hmarket, _, hsent, _⟩ := claimrewards_ok h
      have hmove : Moved s .payroll s' := ⟨hsame, hmarket, hsent⟩
      exact ⟨_, .single hmove, rfl⟩
  | _ => exact ⟨_, plain_moves h trivial, rfl⟩

end System

end Inery
