import IneryContracts.MoveSigners
import IneryContracts.SaleChecks
import IneryContracts.StakeLedger

/-!
# The memory market is backed

What the memory account holds covers what was paid for memory and not yet paid
back, as long as that account signs nothing itself: the payments into the
market stay there until somebody sells, and a sale pays no more than was paid
in for the bytes.
-/

namespace Inery

open GuardedStep LedgerVector LabelledRun MachineInt

/-- What a move brings to the memory account, if it does not sign it. -/
def Move.toMem : Move → ℤ
  | .bought _ _ quant _ => quant.amount
  | .paidOut _ tokens => -tokens.amount
  | .rest | .payroll | .opened | .grown _ | .rated | .sold _ _ _
  | .staked _ _ _ _ _ _ | .refunded _ | .created _ => 0

section Moves

variable {s s' : SysState} {t : TokenState} {core : Symbol}

/-- The memory account gets what a move brings it, unless producers are paid or
a refund is. -/
theorem Moved.pending_mem {m : Move} (hmove : Moved s m s')
    (hstakes : StakeLedger s) (hcore : s.market.coreSymbol = .ok core)
    (hsigner : ¬ m.Signer memAccount) (hpayroll : m ≠ .payroll)
    (hrefund : ∀ owner, m ≠ .refunded owner) :
    s'.pending t core.code memAccount =
      s.pending t core.code memAccount + m.toMem := by
  have hne : memAccount ≠ stakeAccount := by decide
  rw [hmove.pending hcore (hstakes.refundsIn hcore) hpayroll, Pi.add_apply]
  congr 1
  cases m with
  | bought payer receiver quant bytes =>
      have hpayer : memAccount ≠ payer := fun h => hsigner h.symm
      simp [Move.flow, Move.toMem, payment_apply, hpayer]
  | paidOut account tokens =>
      have haccount : memAccount ≠ account := fun h => hsigner h.symm
      simp [Move.flow, Move.toMem, payment_apply, haccount]
  | staked source owner receiver dn dc ρ =>
      have hsource : memAccount ≠ source := fun h => hsigner h.symm
      simp [Move.flow, Move.toMem, payment_apply, hsource, hne]
  | refunded owner => exact absurd rfl (hrefund owner)
  | payroll => exact absurd rfl hpayroll
  | rest => rfl
  | opened => rfl
  | grown bytes => rfl
  | rated => rfl
  | sold account bytes tokens => rfl
  | created account => rfl

/-- The memory account gets at least what is paid in. -/
theorem Moved.pending_mem_le {m : Move} (hmove : Moved s m s')
    (hstakes : StakeLedger s) (hcore : s.market.coreSymbol = .ok core)
    (hsigner : m.Signer memAccount → m = .refunded memAccount) :
    s.pending t core.code memAccount + m.toMem ≤
      s'.pending t core.code memAccount := by
  by_cases hpayroll : m = .payroll
  · subst hpayroll
    have h := pending_le_of_payroll (t := t) hmove core.code
      (a := memAccount) (by decide) (by decide) (by decide)
    simpa [Move.toMem] using h
  by_cases hrefund : ∃ owner, m = .refunded owner
  · obtain ⟨owner, rfl⟩ := hrefund
    have hne : memAccount ≠ stakeAccount := by decide
    have hnonneg := weight_nonneg (hstakes.refunded_nonneg owner)
    rw [hmove.pending hcore (hstakes.refundsIn hcore) hpayroll, Pi.add_apply,
      Move.flow, payment_apply, if_neg hne]
    unfold weight at hnonneg
    simp only [Move.toMem]
    split <;> omega
  · rw [not_exists] at hrefund
    have hnot : ¬ m.Signer memAccount :=
      fun h => hrefund memAccount (hsigner h)
    exact (hmove.pending_mem hstakes hcore hnot hpayroll hrefund).ge

/-- The books of an open market, while an action runs. -/
def OpenBooks (core : Symbol) (quote₀ : ℤ) (s : SysState) : Prop :=
  Open core quote₀ s ∧ StakeLedger s

/-- Every move keeps the books of an open market. -/
theorem Moved.openBooks {m : Move} {quote₀ : ℤ} (hmove : Moved s m s')
    (h : OpenBooks core quote₀ s) : OpenBooks core quote₀ s' :=
  ⟨hmove.open h.1, hmove.stakeLedger (.inr ⟨core, quote₀, h.1⟩) h.2⟩

/-- The growth of the supply keeps the books. -/
theorem OpenBooks.grown {ctx : Ctx} {market : Market} {quote₀ : ℤ}
    (h : OpenBooks core quote₀ s)
    (hgrow : s.market.updateMemSupply ctx = .ok market) :
    OpenBooks core quote₀ { s with market } := by
  obtain ⟨ms, _, hrun⟩ := System.updateMemSupply_moves hgrow
  exact hrun.invariant (I := OpenBooks core quote₀) (fun _ => True)
    (fun _ _ _ _ hs hm => hm.openBooks hs) (fun _ _ => trivial) h

/-- An open market knows the core symbol. -/
theorem Open.coreSymbol {quote₀ : ℤ} (h : Open core quote₀ s) :
    s.market.coreSymbol = .ok core := by
  obtain ⟨_, row, L, htrades⟩ := h
  exact htrades.hasRow.coreSymbol

end Moves

/-! ## Events -/

/-- Growth alone pays nothing in. -/
private theorem maybeGrown_toMem {ms : List Move}
    (h : System.MaybeGrown ms) : (ms.map Move.toMem).sum = 0 ∧
    (ms.map Move.paidIn).sum = 0 := by
  rcases h with rfl | ⟨g, rfl⟩
  · simp
  · simp [Move.toMem, Move.paidIn]

/-- Over a whole event the memory account gets what is paid in. -/
private theorem Event.sum_toMem {e : Event} {ms : List Move}
    (hms : e.Moves ms) :
    (ms.map Move.toMem).sum = (ms.map Move.paidIn).sum := by
  cases e with
  | token ctx a => exact hms.elim
  | deferred slot isAccount owner =>
      rcases hms with rfl | rfl
      · rfl
      · rfl
  | system ctx a =>
      cases a
      case buyresources payer receiver quant =>
        obtain ⟨_, growth, b, stake, ρ, hgrowth, _, rfl⟩ := hms
        obtain ⟨hm, hp⟩ := maybeGrown_toMem hgrowth
        simp [hm, hp, Move.toMem, Move.paidIn]
      case buymembytes payer receiver size =>
        obtain ⟨_, growth, b, price, stake, ρ, ρ', hgrowth, _, _, rfl⟩ := hms
        obtain ⟨hm, hp⟩ := maybeGrown_toMem hgrowth
        simp [hm, hp, Move.toMem, Move.paidIn]
      case sellres account size =>
        obtain ⟨_, growth, tokens, ρ, hgrowth, rfl⟩ := hms
        obtain ⟨hm, hp⟩ := maybeGrown_toMem hgrowth
        simp [hm, hp, Move.toMem, Move.paidIn]
      case setmemrate rate =>
        obtain ⟨growth, hgrowth, rfl⟩ := hms
        obtain ⟨hm, hp⟩ := maybeGrown_toMem hgrowth
        simp [hm, hp, Move.toMem, Move.paidIn]
      case setmem size =>
        obtain ⟨g, rfl⟩ := hms
        rfl
      case delegatebw from' receiver net cpu transfer =>
        obtain ⟨_, _, _, _, _, ρ, rfl⟩ := hms
        rfl
      case undelegatebw from' receiver net cpu =>
        obtain ⟨_, _, ρ, rfl⟩ := hms
        rfl
      case refund owner =>
        obtain ⟨_, rfl⟩ := hms
        rfl
      all_goals
        simp only [Event.Moves, System.MovesOf] at hms
        subst hms
        rfl

/-- A trade pays no refunds and no producers. -/
private theorem Event.IsTrade.moves {e : Event} {ms : List Move}
    (he : e.IsTrade) (hms : e.Moves ms) :
    ∀ m ∈ ms, m ≠ .payroll ∧ ∀ owner, m ≠ .refunded owner := by
  intro m hm
  have hpart := Event.partOf_of_moves hms hm
  refine ⟨?_, fun owner => ?_⟩
  · rintro rfl
    cases e with
    | token ctx a => exact hpart
    | deferred slot isAccount owner => exact hpart
    | system ctx a => cases a <;> first | exact he | exact hpart
  · rintro rfl
    cases e with
    | token ctx a => exact hpart
    | deferred slot isAccount owner => exact he
    | system ctx a => cases a <;> first | exact he | exact hpart

namespace Chain

/-- The balances of the core token, of which there is none before the market
opens. -/
def liquid (c : Chain) : Name → ℤ :=
  c.sys.market.memmarket.elim 0
    (fun row => c.token.balances row.quote.symbol.code)

/-- What is liquid is counted in the core token. -/
theorem liquid_of_core {c : Chain} {core : Symbol}
    (h : c.sys.market.coreSymbol = .ok core) :
    c.liquid = c.token.balances core.code := by
  rw [Market.coreSymbol_ok] at h
  obtain ⟨row, hrow, rfl⟩ := Option.map_eq_some_iff.mp h
  simp [liquid, hrow]

section Steps

variable {env : Env} {c c' : Chain} {e : Event} {ms : List Move}
  {s : SysState} {core : Symbol} {quote₀ : ℤ}

/-- What is liquid after an event is what was pending. -/
theorem RanMoves.liquid_eq (hran : RanMoves c e ms s c')
    (hs : Open core quote₀ s) : c'.liquid = s.pending c.token core.code := by
  have hcore : c'.sys.market.coreSymbol = .ok core := by
    rw [hran.sys]
    exact hs.coreSymbol
  rw [liquid_of_core hcore, hran.balances]

/-- Between events nothing else is pending. -/
theorem Books.liquid_eq (hc : c.Books) (hopen : Open core quote₀ c.sys) :
    c.liquid = c.sys.pending c.token core.code := by
  rw [liquid_of_core hopen.coreSymbol, hc.toSettled.pending]

/-- The memory account never gets less than what an event pays in. -/
theorem liquid_mem_le (h : Step env c e c') (hc : c.Books)
    (hopen : Open core quote₀ c.sys) (htop : ¬ e.TopLevelBy memAccount) :
    c.liquid memAccount + e.paidIn ≤ c'.liquid memAccount := by
  rcases step_moves h hc.toSettled with ⟨ctx, a, rfl, hsys, htoken⟩ |
    ⟨ms, s, hran⟩
  · have hcore' : c'.sys.market.coreSymbol = .ok core := by
      rw [hsys]
      exact hopen.coreSymbol
    rw [liquid_of_core hopen.coreSymbol, liquid_of_core hcore']
    simpa [Event.paidIn] using balances_le_of_not_hasAuth htoken htop core.code
  · have hbooks : OpenBooks core quote₀ c.sys := ⟨hopen, hc.stakes⟩
    have hend := hran.run.invariant (fun _ => True)
      (fun _ _ _ _ hs hm => Moved.openBooks hm hs) (fun _ _ => trivial) hbooks
    have hsum := hran.run.telescope_le
      (m := fun s => s.pending c.token core.code memAccount)
      (fun m => m.Signer memAccount → m = .refunded memAccount)
      (fun _ _ _ _ hs hm => hm.openBooks hs)
      (fun _ _ _ hp hs hm => hm.pending_mem_le hs.2 hs.1.coreSymbol hp)
      (fun m hm hsign => Event.refunded_of_signer hran.moves hm hsign htop)
      hbooks
    rw [hran.liquid_eq hend.1, hc.liquid_eq hopen, ← (hran.sums hopen).2,
      ← Event.sum_toMem hran.moves]
    exact hsum

/-- A trade brings the memory account exactly what it pays in. -/
theorem liquid_mem_trade (h : Step env c e c') (hc : c.Books)
    (hopen : Open core quote₀ c.sys) (htop : ¬ e.TopLevelBy memAccount)
    (he : e.IsTrade) :
    c'.liquid memAccount = c.liquid memAccount + e.paidIn := by
  rcases step_moves h hc.toSettled with ⟨ctx, a, rfl, hsys, htoken⟩ |
    ⟨ms, s, hran⟩
  · exact he.elim
  · have hbooks : OpenBooks core quote₀ c.sys := ⟨hopen, hc.stakes⟩
    have hend := hran.run.invariant (fun _ => True)
      (fun _ _ _ _ hs hm => Moved.openBooks hm hs) (fun _ _ => trivial) hbooks
    have hmoves := he.moves hran.moves
    have hsum := hran.run.telescope
      (m := fun s => s.pending c.token core.code memAccount)
      (fun m => ¬ m.Signer memAccount ∧ m ≠ .payroll ∧
        ∀ owner, m ≠ .refunded owner)
      (fun _ _ _ _ hs hm => hm.openBooks hs)
      (fun _ _ _ hp hs hm =>
        hm.pending_mem hs.2 hs.1.coreSymbol hp.1 hp.2.1 hp.2.2)
      (fun m hm => ⟨fun hsign => (hmoves m hm).2 memAccount
        (Event.refunded_of_signer hran.moves hm hsign htop), hmoves m hm⟩)
      hbooks
    rw [hran.liquid_eq hend.1, hc.liquid_eq hopen, ← (hran.sums hopen).2,
      ← Event.sum_toMem hran.moves]
    exact hsum

end Steps

/-- The books of an open market whose memory account covers what was paid
in. -/
structure Backed (core : Symbol) (quote₀ : ℤ) (c : Chain) : Prop where
  books : c.Books
  isOpen : Open core quote₀ c.sys
  backed : c.sys.market.totalMemStake ≤ c.liquid memAccount

/-- An event that the memory account has not signed keeps the backing. -/
theorem Backed.step {env : Env} {c c' : Chain} {e : Event} {core : Symbol}
    {quote₀ : ℤ} (hc : Backed core quote₀ c)
    (htop : ¬ e.TopLevelBy memAccount) (h : Step env c e c') :
    Backed core quote₀ c' := by
  obtain ⟨hopen, _, hpaid⟩ := step_open h hc.books.toSettled hc.isOpen
  have hmem := liquid_mem_le h hc.books hc.isOpen htop
  have hbacked := hc.backed
  exact ⟨hc.books.step h, hopen, by omega⟩

/-- No account owes tokens. -/
theorem Books.liquid_nonneg {c : Chain} (hc : c.Books) (a : Name) :
    0 ≤ c.liquid a := by
  unfold liquid
  cases c.sys.market.memmarket with
  | none => exact le_refl 0
  | some row => exact hc.token.nonneg _ a

/-- Nothing but the opening opens the market. -/
theorem closed_of_step {env : Env} {c c' : Chain} {e : Event}
    (h : Step env c e c') (hc : c.Settled) (hclosed : Closed c.sys)
    (hinit : ¬ e.IsInit) : Closed c'.sys := by
  rcases step_moves h hc with ⟨_, _, _, hsys, _⟩ | ⟨ms, s, hran⟩
  · exact hsys ▸ hclosed
  · have hopened : ∀ m ∈ ms, m ≠ .opened := by
      rintro m hm rfl
      exact hinit (Event.partOf_of_moves hran.moves hm)
    have hend := hran.run.invariant (I := Closed) (fun m => m ≠ .opened)
      (fun _ _ _ hp hs hm => (Moved.closed hm hs).resolve_right
        (fun hopened => hp hopened.1)) hopened hclosed
    rw [hran.sys]
    exact { hend with }

/-- The opening pays nothing in. -/
theorem paid_of_init {env : Env} {c c' : Chain} {e : Event}
    (h : Step env c e c') (hinit : e.IsInit) :
    c'.sys.market.totalMemStake = c.sys.market.totalMemStake := by
  obtain ⟨ctx, version, core, rfl⟩ := hinit.eq_init
  obtain ⟨s, hs, hsys⟩ := step_system h
  simp only [System.apply, Market.init, bind_eq_ok, check_eq_ok,
    Ctx.requireAuth_eq_ok, pure_eq_ok, exists_const] at hs
  obtain ⟨_, ⟨_, _, _, supply, _, _, _, rfl⟩, rfl⟩ := hs
  rw [hsys]

/-- What was paid in and not paid out is with the memory account. -/
theorem Books.paid_le_step {env : Env} {c c' : Chain} {e : Event}
    (hc : c.Books) (h : Step env c e c') (htop : ¬ e.TopLevelBy memAccount)
    (hpaid : c.sys.market.totalMemStake ≤ c.liquid memAccount) :
    c'.sys.market.totalMemStake ≤ c'.liquid memAccount := by
  rcases hc.market with hclosed | ⟨core, quote₀, hopen⟩
  · have hzero : c'.sys.market.totalMemStake = 0 := by
      by_cases hinit : e.IsInit
      · exact (paid_of_init h hinit).trans hclosed.paid
      · exact (closed_of_step h hc.toSettled hclosed hinit).paid
    rw [hzero]
    exact (hc.step h).liquid_nonneg memAccount
  · have hbacked : Backed core quote₀ c := ⟨hc, hopen, hpaid⟩
    exact (hbacked.step htop h).backed

end Chain

/-- **The memory market is solvent**, from its opening on and as long as the
memory account signs nothing itself.  Its reserve of core tokens has grown by
what was paid in and not paid out, the memory account covers that amount, and
the amount covers the bytes that are held; no run takes out more than it has
paid in, a trade moves the memory account by what it pays, and no sale fails
the check of what was staked. -/
theorem memory_market_solvent {env : Env} {c₀ c₁ c : Chain}
    {es ds : List Event} {ctx : Ctx} {version : ℕ} {core : Symbol}
    (hbefore : Run (Chain.Step env) (.genesis env) es c₀)
    (hinit : Chain.Step env c₀ (.system ctx (.init version core)) c₁)
    (hafter : Run (Chain.Step env) c₁ ds c)
    (hmem : ∀ e ∈ ds, ¬ e.TopLevelBy memAccount) :
    ∃ row₁ row, c₁.sys.market.memmarket = some row₁ ∧
      c.sys.market.memmarket = some row ∧
      row.quote.amount = row₁.quote.amount + c.sys.market.totalMemStake ∧
      c.sys.market.totalMemStake ≤
        c.token.balances row.quote.symbol.code memAccount ∧
      10000 * total c.sys.memBytes ≤ c.sys.market.totalMemStake * 2 ^ 20 ∧
      c.sys.market.totalMemStake = (ds.map Event.paidIn).sum ∧
      0 ≤ (ds.map Event.paidIn).sum ∧
      (∀ e c', Chain.Step env c e c' → e.IsTrade →
        ¬ e.TopLevelBy memAccount →
        c'.liquid memAccount = c.liquid memAccount + e.paidIn) ∧
      ∀ ctx account bytes,
        System.sellres env ctx c.sys account bytes ≠ .error overUnstake := by
  obtain ⟨hc₁, hpaid₁, core, quote₀, hopen₁⟩ :=
    Chain.open_of_init hbefore hinit
  have hbooks₁ : c₁.Books :=
    Chain.Reachable.books ⟨_, hbefore.append (.single hinit)⟩
  have hbacked₁ : Chain.Backed core quote₀ c₁ :=
    ⟨hbooks₁, hopen₁, by rw [hpaid₁]; exact hbooks₁.liquid_nonneg _⟩
  have hbacked := hafter.invariant (fun e => ¬ e.TopLevelBy memAccount)
    (fun _ _ _ htop hc hstep => hc.step htop hstep) hmem hbacked₁
  have hsum := hafter.telescope (m := fun c => c.sys.market.totalMemStake)
    (fun e => ¬ e.TopLevelBy memAccount)
    (fun _ _ _ htop hc hstep => Chain.Backed.step hc htop hstep)
    (fun _ _ _ _ hc hstep =>
      (Chain.step_open hstep hc.books.toSettled hc.isOpen).2.2) hmem hbacked₁
  obtain ⟨_, row₁, L₁, htrades₁⟩ := hopen₁
  have hopen := hbacked.isOpen
  obtain ⟨_, row, L, htrades⟩ := hopen
  have hpaid := htrades.paid_nonneg
  rw [← htrades.paid] at hpaid
  rw [hpaid₁, zero_add] at hsum
  refine ⟨row₁, row, htrades₁.hasRow.found, htrades.hasRow.found, ?_, ?_, ?_,
    hsum, hsum ▸ hpaid, fun e c' hstep he htop =>
      Chain.liquid_mem_trade hstep hbacked.books hbacked.isOpen htop he,
    fun ctx account bytes =>
      System.sellres_avoids (.inr ⟨core, quote₀, hbacked.isOpen⟩) account
        bytes⟩
  · rw [htrades.quote, htrades₁.quote, htrades.paid, ← htrades₁.paid, hpaid₁,
      add_zero]
  · have hback := hbacked.backed
    rwa [Chain.liquid_of_core hbacked.isOpen.coreSymbol,
      ← htrades.hasRow.quote] at hback
  · have hback := L.backed
    rw [htrades.held, htrades.paid]
    unfold mib at hback
    linarith

/-- In the sample run the memory account covers what was paid in. -/
theorem memory_market_solvent_sample :
    ∃ (c : Chain) (row : ExchangeState),
      c.sys.market.totalMemStake = 40000 ∧
      c.sys.market.totalMemStake ≤
        c.token.balances row.quote.symbol.code memAccount := by
  have hsample : SampleRun tradingEvents
      (fun _ c => c.sys.market.totalMemStake = 40000) := by
    decide +kernel
  obtain ⟨c₀, c₁, c, hbefore, hinit, hafter, hpaid⟩ := hsample.runs
  have hmem : ∀ e ∈ tradingEvents, ¬ e.TopLevelBy memAccount := by
    simp only [tradingEvents, List.forall_mem_cons, List.not_mem_nil,
      IsEmpty.forall_iff, implies_true, and_true, Event.TopLevelBy]
    decide
  obtain ⟨_, row, _, _, _, hbacked, _⟩ :=
    memory_market_solvent hbefore hinit hafter hmem
  exact ⟨c, row, hpaid, hbacked⟩

end Inery
