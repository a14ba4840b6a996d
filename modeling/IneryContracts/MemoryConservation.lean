import IneryContracts.ChainMoves
import IneryContracts.LotMarket

/-!
# Memory is a market by the lot

Once it is open, the memory market with the rows of resources is a
`LotMarket`: 10000 units of the core token for a mebibyte.  Every move is one
operation of that market or none, so the bytes are conserved, nobody holds a
negative number of them and the stock never runs out.
-/

namespace Inery

open GuardedStep LedgerVector LabelledRun MachineInt

/-- The bytes on the market when it opens. -/
def openedBytes : ℤ := truncate (3535 / 10 * 1024 * 1024 * 1024 * 1024)

/-- The size of the memory before its first change. -/
def initialMemSize : ℕ := 505 * 1024 * 1024 * 1024 * 1024

/-- The bytes that the market opens with. -/
theorem openedBytes_eq : openedBytes = 707 * 2 ^ 39 := by
  have hfloor : (3535 / 10 * 1024 * 1024 * 1024 * 1024 : ℚ) =
      ((707 * 2 ^ 39 : ℤ) : ℚ) := by norm_num
  rw [openedBytes, hfloor, truncate_of_nonneg (by norm_num),
    Int.floor_intCast]

/-- Nobody has a row of resources, of stake or of a refund, and there is no
market yet. -/
structure Closed (s : SysState) : Prop where
  memmarket : s.market.memmarket = none
  maxMemSize : s.market.maxMemSize = initialMemSize
  reserved : s.market.totalMemBytesReserved = 0
  paid : s.market.totalMemStake = 0
  lastMemIncrease : s.market.lastMemIncrease = 0
  userres : ∀ k, s.userres.find k = none
  delband : ∀ a k, (s.delband a).find k = none
  refunds : ∀ k, s.refunds.find k = none

/-- The market in the tables is the market `L`; the reserve of core tokens is
what it was at the opening, `quote₀`, and what was paid in. -/
structure Trades (s : SysState) (core : Symbol) (quote₀ : ℤ)
    (row : ExchangeState) (L : LotMarket Name 10000 mib) : Prop where
  hasRow : s.market.HasRow core row
  stock : row.base.amount = L.stock
  held : s.memBytes = L.held
  capacity : s.market.maxMemSize + (openedBytes - initialMemSize) = L.capacity
  paid : s.market.totalMemStake = L.paid
  quote : row.quote.amount = quote₀ + L.paid
  paid_le : L.paid ≤ Asset.maxAmount
  size : s.market.maxMemSize <
    2 ^ 50 + 65535 * s.market.lastMemIncrease.toNat

/-- The market is open. -/
def Open (core : Symbol) (quote₀ : ℤ) (s : SysState) : Prop :=
  0 ≤ quote₀ ∧ ∃ row L, Trades s core quote₀ row L

/-- The bytes that a move credits to the accounts. -/
def Move.bytes : Move → Name → ℤ
  | .bought _ receiver _ bytes => Pi.single receiver bytes
  | .sold account bytes _ => -Pi.single account bytes
  | .rest | .payroll | .opened | .grown _ | .rated | .paidOut _ _
  | .staked _ _ _ _ _ _ | .refunded _ | .created _ => 0

/-- The tokens that a move pays into the market. -/
def Move.paidIn : Move → ℤ
  | .bought _ _ quant _ => quant.amount
  | .sold _ _ tokens => -tokens.amount
  | .rest | .payroll | .opened | .grown _ | .rated | .paidOut _ _
  | .staked _ _ _ _ _ _ | .refunded _ | .created _ => 0

/-- The prices of the market: bytes are rounded down when they are bought and
tokens when bytes are sold. -/
def Move.Priced (core : Symbol) : Move → Prop
  | .bought _ _ quant bytes =>
      quant.symbol = core ∧ bytes = quant.amount * mib / 10000
  | .sold _ bytes tokens => tokens = ⟨bytes / mib * 10000, core⟩
  | _ => True

section Bounds

variable {s : SysState} {core : Symbol} {quote₀ : ℤ} {row : ExchangeState}
  {L : LotMarket Name 10000 mib}

/-- The memory stays far from what 64 bits hold. -/
theorem Trades.size_lt (h : Trades s core quote₀ row L) :
    s.market.maxMemSize < 2 ^ 51 := by
  have hsize := h.size
  have hlast := s.market.lastMemIncrease.toNat_lt
  omega

/-- What the market trades is far from what 64 bits hold. -/
theorem Trades.capacity_lt (h : Trades s core quote₀ row L) :
    L.capacity < 2 ^ 51 := by
  have hsize := h.size_lt
  rw [← h.capacity, openedBytes_eq, initialMemSize]
  push_cast
  omega

/-- The stock is part of what is traded. -/
theorem Trades.stock_lt (h : Trades s core quote₀ row L) :
    L.stock < 2 ^ 51 := L.stock_le_capacity.trans_lt h.capacity_lt

/-- What an account holds is part of what is traded. -/
theorem Trades.held_lt (h : Trades s core quote₀ row L) (a : Name) :
    L.held a < 2 ^ 51 := (L.held_lt_capacity a).trans h.capacity_lt

/-- What has been paid in is not negative. -/
theorem Trades.paid_nonneg (_h : Trades s core quote₀ row L) : 0 ≤ L.paid :=
  L.paid_nonneg (by decide) (by decide)

/-- Where neither the market nor the bytes differ. -/
theorem Trades.congr {s' : SysState} (h : Trades s core quote₀ row L)
    (hmarket : s'.market = s.market) (hbytes : s'.memBytes = s.memBytes) :
    Trades s' core quote₀ row L where
  hasRow := hmarket ▸ h.hasRow
  stock := h.stock
  held := hbytes.trans h.held
  capacity := hmarket ▸ h.capacity
  paid := hmarket ▸ h.paid
  quote := h.quote
  paid_le := h.paid_le
  size := hmarket ▸ h.size

end Bounds

/-! ## Moves on an open market -/

section Moves

variable {s s' : SysState} {core : Symbol} {quote₀ : ℤ} {row : ExchangeState}
  {L : LotMarket Name 10000 mib}

/-- A market with one operation more. -/
def Traded (core : Symbol) (quote₀ : ℤ) (L : LotMarket Name 10000 mib)
    (m : Move) (s' : SysState) : Prop :=
  ∃ row' L', Trades s' core quote₀ row' L' ∧ LotMarket.Step L L' ∧
    L'.held = L.held + m.bytes ∧ L'.paid = L.paid + m.paidIn

/-- A move off the market. -/
private theorem traded_idle {m : Move} (h : Trades s core quote₀ row L)
    (hmarket : s'.market = s.market) (hbytes : s'.memBytes = s.memBytes)
    (hb : m.bytes = 0) (hp : m.paidIn = 0) : Traded core quote₀ L m s' :=
  ⟨row, L, h.congr hmarket hbytes, .idle L, by rw [hb, add_zero],
    by rw [hp, add_zero]⟩

/-- The growth of the supply. -/
private theorem traded_grown {bytes : ℕ} {market : Market}
    (h : Trades s core quote₀ row L) (hgrow : Growth s.market market bytes) :
    Traded core quote₀ L (.grown bytes) { s with market } := by
  obtain ⟨hroom, row₁, hrow₁, hm⟩ := hgrow
  rw [h.hasRow.found] at hrow₁
  obtain rfl := Option.some.inj hrow₁
  have hsize := h.size
  have hlast := s.market.lastMemIncrease.toNat_lt
  have hlast' := market.lastMemIncrease.toNat_lt
  have hlim : s.market.maxMemSize + bytes <
      2 ^ 50 + 65535 * market.lastMemIncrease.toNat := by
    rcases hroom with ⟨hroom, heq⟩ | ⟨hlt, hroom⟩
    · omega
    · have : s.market.lastMemIncrease.toNat < market.lastMemIncrease.toNat :=
        hlt
      omega
  have hmax : (u64 (s.market.maxMemSize + bytes) : ℤ) =
      s.market.maxMemSize + bytes := u64_of_range (by omega) (by omega)
  have hmem : (market.maxMemSize : ℤ) = s.market.maxMemSize + bytes := by
    rw [← hmax]
    exact congrArg (fun m : Market => (m.maxMemSize : ℤ)) hm
  have hstock := h.stock_lt
  have hpos := L.stock_pos
  have hbase : i64 (row.base.amount + bytes) = L.stock + bytes := by
    rw [h.stock]
    exact i64_of_range (by omega) (by omega)
  refine ⟨{ row with base := { row.base with amount := L.stock + bytes } },
    L.grow bytes (by omega), ?_, .grow L bytes (by omega), ?_, ?_⟩
  · exact
      { hasRow := ⟨by rw [hm, hbase], h.hasRow.base, h.hasRow.quote⟩
        stock := rfl
        held := h.held
        capacity := by
          show (market.maxMemSize : ℤ) + _ = L.capacity + bytes
          rw [hmem, ← h.capacity]
          ring
        paid := by
          rw [hm]
          exact h.paid
        quote := h.quote
        paid_le := h.paid_le
        size := by
          have hnat : market.maxMemSize = s.market.maxMemSize + bytes := by
            exact_mod_cast hmem
          exact hnat ▸ hlim }
  · exact (add_zero _).symm
  · exact (add_zero _).symm

/-- A purchase. -/
private theorem traded_bought {payer receiver : Name} {quant : Asset}
    {bytes : ℤ} (h : Trades s core quote₀ row L) (hquote₀ : 0 ≤ quote₀)
    (hmove : Moved s (.bought payer receiver quant bytes) s') :
    Traded core quote₀ L (.bought payer receiver quant bytes) s' ∧
    (Move.bought payer receiver quant bytes).Priced core := by
  obtain ⟨market, userres, res, hpos, _, hbuy, hcredit, rfl⟩ := hmove
  obtain ⟨hsym, hb, hbpos, hstock, ⟨_, hrange⟩, reserved, _, rfl⟩ :=
    Market.buy_ok h.hasRow hpos hbuy
  obtain ⟨howner, rfl, _, hmem⟩ := System.creditBytes_ok hcredit
  have hpaid := h.paid_nonneg
  have hpaidle := h.paid_le
  have hheld := h.held_lt receiver
  have hheld0 := L.held_nonneg receiver
  have hcap := h.stock_lt
  rw [h.stock] at hstock
  rw [h.quote] at hrange
  unfold Asset.maxAmount at hrange hpaidle
  have hprice : bytes * 10000 ≤ quant.amount * mib := by
    rw [hb]
    exact Int.ediv_mul_le _ (by decide)
  have hview : s.memBytes receiver = L.held receiver := by rw [h.held]
  have hbytes : res.memBytes = s.memBytes receiver + bytes := by
    rcases hmem with ⟨hnone, hres⟩ | hres
    · rw [hres, show s.memBytes receiver = 0 from view_of_none hnone,
        zero_add]
    · rw [hres]
      show i64 (s.memBytes receiver + bytes) = _
      rw [hview]
      exact i64_of_range (by omega) (by omega)
  have hstake : i64 (s.market.totalMemStake + quant.amount) =
      L.paid + quant.amount := by
    rw [h.paid]
    exact i64_of_range (by omega) (by omega)
  refine ⟨⟨{ row with
      base := { row.base with amount := row.base.amount - bytes }
      quote := { row.quote with amount := row.quote.amount + quant.amount } },
    L.buy receiver bytes quant.amount hbpos.le (by omega) hprice, ?_,
    .buy L receiver bytes quant.amount hbpos.le (by omega) hprice, rfl, rfl⟩,
    hsym, hb⟩
  exact
    { hasRow := ⟨rfl, h.hasRow.base, h.hasRow.quote⟩
      stock := by rw [h.stock]; rfl
      held := by
        show view UserResources.memBytes (s.userres.put res) = L.held + _
        rw [view_put _ _ howner, hbytes, ← h.held]
        congr 2
        exact add_sub_cancel_left _ _
      capacity := h.capacity
      paid := hstake
      quote := by
        show row.quote.amount + quant.amount = quote₀ + (L.paid + quant.amount)
        rw [h.quote]
        ring
      paid_le := by
        show L.paid + quant.amount ≤ _
        unfold Asset.maxAmount
        omega
      size := h.size }

/-- A sale. -/
private theorem traded_sold {account : Name} {bytes : ℤ} {tokens : Asset}
    (h : Trades s core quote₀ row L)
    (hmove : Moved s (.sold account bytes tokens) s') :
    Traded core quote₀ L (.sold account bytes tokens) s' ∧
    (Move.sold account bytes tokens).Priced core := by
  obtain ⟨res, market, hres, hpos, hquota, hsell, rfl⟩ := hmove
  obtain ⟨htokens, _, _, released, _, _, rfl⟩ :=
    Market.sell_ok h.hasRow hpos hsell
  have hmem : L.held account = res.memBytes := by
    rw [← h.held]
    exact view_of_find hres
  have hheld : bytes ≤ L.held account := hmem ▸ hquota
  have hlt := h.held_lt account
  have hprice : tokens.amount * mib ≤ bytes * 10000 := by
    have hdiv := Int.ediv_mul_le bytes (show mib ≠ 0 by decide)
    rw [htokens]
    show bytes / mib * 10000 * mib ≤ bytes * 10000
    linarith
  have htokens0 : 0 ≤ tokens.amount := by
    rw [htokens]
    exact mul_nonneg (Int.ediv_nonneg hpos.le (by decide)) (by decide)
  have hpaid := L.payment_le_paid (by decide) (by decide) hheld hprice
  have hpaidle := h.paid_le
  have hmax := hpaidle
  unfold Asset.maxAmount at hmax
  have hrow : i64 (res.memBytes - bytes) = res.memBytes - bytes :=
    i64_of_range (by omega) (by omega)
  have hstake : i64 (s.market.totalMemStake - tokens.amount) =
      L.paid - tokens.amount := by
    rw [h.paid]
    exact i64_of_range (by omega) (by omega)
  refine ⟨⟨{ row with
      base := { row.base with amount := row.base.amount + bytes }
      quote := { row.quote with amount := row.quote.amount - tokens.amount } },
    L.sell account bytes tokens.amount hpos.le hheld hprice, ?_,
    .sell L account bytes tokens.amount hpos.le hheld hprice, ?_, ?_⟩,
    htokens⟩
  · exact
      { hasRow := ⟨rfl, h.hasRow.base, h.hasRow.quote⟩
        stock := by rw [h.stock]; rfl
        held := by
          have howner : res.owner = account := KeyedTable.key_of_find hres
          have hkey : UserResources.owner
              { res with memBytes := res.memBytes - bytes } = account := howner
          show view UserResources.memBytes (s.userres.put
            { res with memBytes := i64 (res.memBytes - bytes) }) =
            L.held - Pi.single account bytes
          rw [hrow, view_put _ _ hkey, view_of_find hres, sub_sub_cancel_left,
            Pi.single_neg, ← sub_eq_add_neg, ← h.held]
          rfl
        capacity := h.capacity
        paid := hstake
        quote := by
          show row.quote.amount - tokens.amount =
            quote₀ + (L.paid - tokens.amount)
          rw [h.quote]
          ring
        paid_le := by
          show L.paid - tokens.amount ≤ _
          omega
        size := h.size }
  · exact sub_eq_add_neg _ _
  · exact sub_eq_add_neg _ _

/-- **Every move on an open market is one operation of it**, at its prices. -/
theorem Moved.traded {m : Move} (hmove : Moved s m s')
    (h : Trades s core quote₀ row L) (hquote₀ : 0 ≤ quote₀) :
    Traded core quote₀ L m s' ∧ m.Priced core := by
  cases m with
  | rest =>
      refine ⟨traded_idle h hmove.market ?_ rfl rfl, trivial⟩
      rw [SysState.memBytes, hmove.userres, SysState.memBytes]
  | payroll =>
      refine ⟨traded_idle h hmove.2.1 ?_ rfl rfl, trivial⟩
      rw [SysState.memBytes, hmove.1.userres, SysState.memBytes]
  | opened =>
      obtain ⟨_, hopen, _⟩ := hmove
      have hnone := hopen.closed
      rw [h.hasRow.found] at hnone
      cases hnone
  | grown bytes =>
      obtain ⟨market, hgrow, rfl⟩ := hmove
      exact ⟨traded_grown h hgrow, trivial⟩
  | rated =>
      obtain ⟨rate, rfl⟩ := hmove
      exact ⟨⟨row, L, { h with hasRow := { h.hasRow with } }, .idle L,
        (add_zero _).symm, (add_zero _).symm⟩, trivial⟩
  | bought payer receiver quant bytes => exact traded_bought h hquote₀ hmove
  | sold account bytes tokens => exact traded_sold h hmove
  | paidOut account tokens =>
      obtain ⟨_, rfl⟩ := hmove
      exact ⟨traded_idle h rfl rfl rfl rfl, trivial⟩
  | staked source owner receiver dn dc ρ =>
      exact ⟨traded_idle h hmove.2.market hmove.2.memBytes rfl rfl, trivial⟩
  | refunded owner =>
      obtain ⟨_, _, rfl⟩ := hmove
      exact ⟨traded_idle h rfl rfl rfl rfl, trivial⟩
  | created account =>
      obtain ⟨_, zero, _, _, hnone, _, rfl⟩ := hmove
      refine ⟨traded_idle h rfl ?_ rfl rfl, trivial⟩
      exact view_put_same UserResources.memBytes _ rfl (view_of_none hnone).symm

/-- An open market stays open. -/
theorem Moved.open {m : Move} (hmove : Moved s m s')
    (h : Open core quote₀ s) : Open core quote₀ s' := by
  obtain ⟨hquote₀, row, L, htrades⟩ := h
  obtain ⟨⟨row', L', htrades', _⟩, _⟩ := hmove.traded htrades hquote₀
  exact ⟨hquote₀, row', L', htrades'⟩

/-- What a move does to the bytes and to what has been paid in. -/
theorem Moved.bytes_paidIn {m : Move} (hmove : Moved s m s')
    (h : Open core quote₀ s) : s'.memBytes = s.memBytes + m.bytes ∧
    s'.market.totalMemStake = s.market.totalMemStake + m.paidIn := by
  obtain ⟨hquote₀, row, L, htrades⟩ := h
  obtain ⟨⟨row', L', htrades', _, hheld, hpaid⟩, _⟩ :=
    hmove.traded htrades hquote₀
  rw [htrades'.held, htrades.held, htrades'.paid, htrades.paid]
  exact ⟨hheld, hpaid⟩

/-- The moves that are possible before the market opens. -/
def Move.Early : Move → Prop
  | .rest | .payroll | .opened | .rated => True
  | .grown _ | .bought _ _ _ _ | .sold _ _ _ | .paidOut _ _
  | .staked _ _ _ _ _ _ | .refunded _ | .created _ => False

/-- Before the market opens there is no core token to move. -/
theorem Moved.early {m : Move} (hmove : Moved s m s') (h : Closed s) :
    m.Early := by
  have hno : ∀ {core : Symbol}, ¬ s.market.coreSymbol = .ok core := by
    intro core hcore
    rw [Market.coreSymbol_ok, h.memmarket] at hcore
    cases hcore
  cases m with
  | rest => trivial
  | payroll => trivial
  | opened => trivial
  | rated => trivial
  | grown bytes =>
      obtain ⟨_, hgrow, _⟩ := hmove
      obtain ⟨row, hrow, _⟩ := hgrow.grown
      rw [h.memmarket] at hrow
      cases hrow
  | bought payer receiver quant bytes =>
      obtain ⟨_, _, _, _, hcore, _⟩ := hmove
      exact absurd hcore hno
  | sold account bytes tokens =>
      obtain ⟨row, _, hrow, _⟩ := hmove
      rw [h.userres account] at hrow
      cases hrow
  | paidOut account tokens => exact absurd hmove.1 hno
  | staked source owner receiver dn dc ρ => exact absurd hmove.1 hno
  | refunded owner =>
      obtain ⟨row, hrow, _⟩ := hmove
      rw [h.refunds owner] at hrow
      cases hrow
  | created account =>
      obtain ⟨core, _, _, hcore, _⟩ := hmove
      exact absurd hcore hno

/-- `init` opens the market. -/
private theorem opened_open (hmove : Moved s .opened s') (h : Closed s) :
    ∃ core quote₀, Open core quote₀ s' := by
  obtain ⟨_, ⟨_, supply, core, quote, hquote, rfl⟩, rfl⟩ := hmove
  have hpos : 0 < openedBytes := by
    rw [openedBytes_eq]
    decide
  have hbytes : s.memBytes = 0 := by
    funext k
    exact view_of_none (h.userres k)
  refine ⟨core, quote, hquote,
    ⟨supply, ⟨openedBytes, memSymbol⟩, ⟨quote, core⟩⟩,
    .opened openedBytes hpos, ?_⟩
  exact
    { hasRow := ⟨rfl, rfl, rfl⟩
      stock := rfl
      held := hbytes
      capacity := by
        show (s.market.maxMemSize : ℤ) + _ = openedBytes
        rw [h.maxMemSize]
        ring
      paid := h.paid
      quote := (add_zero quote).symm
      paid_le := (by decide : (0 : ℤ) ≤ Asset.maxAmount)
      size := by
        show s.market.maxMemSize < _
        rw [h.maxMemSize, initialMemSize]
        omega }

/-- Before the market opens nothing moves; the first thing to happen is that
it opens. -/
theorem Moved.closed {m : Move} (hmove : Moved s m s') (h : Closed s) :
    Closed s' ∨ m = .opened ∧ ∃ core quote₀, Open core quote₀ s' := by
  have hsame : SameResources s s' → s'.market = s.market → Closed s' := by
    intro hs hm
    exact
      { memmarket := hm ▸ h.memmarket
        maxMemSize := hm ▸ h.maxMemSize
        reserved := hm ▸ h.reserved
        paid := hm ▸ h.paid
        lastMemIncrease := hm ▸ h.lastMemIncrease
        userres := hs.userres ▸ h.userres
        delband := hs.delband ▸ h.delband
        refunds := hs.refunds ▸ h.refunds }
  have hearly := hmove.early h
  cases m with
  | rest => exact .inl (hsame hmove.toSameResources hmove.market)
  | payroll => exact .inl (hsame hmove.1 hmove.2.1)
  | opened => exact .inr ⟨rfl, opened_open hmove h⟩
  | rated =>
      obtain ⟨_, rfl⟩ := hmove
      exact .inl { h with }
  | _ => exact hearly.elim

/-- The market is closed or open after every move. -/
theorem Moved.closed_or_open {m : Move} (hmove : Moved s m s')
    (h : Closed s ∨ ∃ core quote₀, Open core quote₀ s) :
    Closed s' ∨ ∃ core quote₀, Open core quote₀ s' := by
  rcases h with h | ⟨core, quote₀, h⟩
  · exact (hmove.closed h).imp_right And.right
  · exact .inr ⟨core, quote₀, hmove.open h⟩

end Moves

/-! ## Steps and runs -/

/-- The bytes that an event credits to the accounts. -/
def Event.bytes : Event → Name → ℤ
  | system _ (.buyresources _ receiver quant) =>
      Pi.single receiver (quant.amount * mib / 10000)
  | system _ (.buymembytes _ receiver bytes) =>
      Pi.single receiver ((bytes.toNat : ℤ) / mib * 10000 * mib / 10000)
  | system _ (.sellres account bytes) => -Pi.single account bytes
  | _ => 0

/-- The tokens that an event pays into the market. -/
def Event.paidIn : Event → ℤ
  | system _ (.buyresources _ _ quant) => quant.amount
  | system _ (.buymembytes _ _ bytes) => (bytes.toNat : ℤ) / mib * 10000
  | system _ (.sellres _ bytes) => -(bytes / mib * 10000)
  | _ => 0

/-- Growth alone trades nothing. -/
private theorem maybeGrown_sums {ms : List Move} (h : System.MaybeGrown ms) :
    (ms.map Move.bytes).sum = 0 ∧ (ms.map Move.paidIn).sum = 0 := by
  rcases h with rfl | ⟨g, rfl⟩
  · exact ⟨rfl, rfl⟩
  · simp [Move.bytes, Move.paidIn]

/-- What the moves of an event trade is what the event trades. -/
private theorem Event.sums_of_moves {e : Event} {ms : List Move}
    {core : Symbol} (hms : e.Moves ms) (hpriced : ∀ m ∈ ms, m.Priced core) :
    (ms.map Move.bytes).sum = e.bytes ∧
    (ms.map Move.paidIn).sum = e.paidIn := by
  cases e with
  | token ctx a => exact hms.elim
  | deferred slot isAccount owner =>
      rcases hms with rfl | rfl
      · simp [Move.bytes, Move.paidIn, bytes, paidIn]
      · simp [Move.bytes, Move.paidIn, bytes, paidIn]
  | system ctx a =>
      cases a
      case buyresources payer receiver quant =>
        obtain ⟨_, growth, b, stake, ρ, hgrowth, _, rfl⟩ := hms
        obtain ⟨hb, hp⟩ := maybeGrown_sums hgrowth
        obtain ⟨_, rfl⟩ := hpriced (.bought payer receiver quant b) (by simp)
        simp [hb, hp, Move.bytes, Move.paidIn, bytes, paidIn]
      case buymembytes payer receiver size =>
        obtain ⟨_, growth, b, price, stake, ρ, ρ', hgrowth, hprice, _, rfl⟩ :=
          hms
        obtain ⟨hb, hp⟩ := maybeGrown_sums hgrowth
        obtain ⟨_, rfl⟩ := hpriced (.bought payer receiver price b) (by simp)
        simp [hb, hp, hprice, Move.bytes, Move.paidIn, bytes, paidIn]
      case sellres account size =>
        obtain ⟨_, growth, tokens, ρ, hgrowth, rfl⟩ := hms
        obtain ⟨hb, hp⟩ := maybeGrown_sums hgrowth
        have htokens : tokens = ⟨size / mib * 10000, core⟩ :=
          hpriced (.sold account size tokens) (by simp)
        simp [hb, hp, htokens, Move.bytes, Move.paidIn, bytes, paidIn]
      case setmemrate rate =>
        obtain ⟨growth, hgrowth, rfl⟩ := hms
        obtain ⟨hb, hp⟩ := maybeGrown_sums hgrowth
        simp [hb, hp, Move.bytes, Move.paidIn, bytes, paidIn]
      case setmem size =>
        obtain ⟨g, rfl⟩ := hms
        simp [Move.bytes, Move.paidIn, bytes, paidIn]
      case delegatebw from' receiver net cpu transfer =>
        obtain ⟨_, _, _, _, _, ρ, rfl⟩ := hms
        simp [Move.bytes, Move.paidIn, bytes, paidIn]
      case undelegatebw from' receiver net cpu =>
        obtain ⟨_, _, ρ, rfl⟩ := hms
        simp [Move.bytes, Move.paidIn, bytes, paidIn]
      case refund owner =>
        obtain ⟨_, rfl⟩ := hms
        simp [Move.bytes, Move.paidIn, bytes, paidIn]
      all_goals
        simp only [Event.Moves, System.MovesOf] at hms
        subst hms
        simp [Move.bytes, Move.paidIn, bytes, paidIn]

namespace Chain

/-- Every move on an open market is priced by it. -/
private theorem open_priced {core : Symbol} {quote₀ : ℤ} (s : SysState)
    (m : Move) (s' : SysState) (hopen : Open core quote₀ s)
    (hmove : Moved s m s') : Open core quote₀ s' ∧ m.Priced core := by
  obtain ⟨hquote₀, row, L, htrades⟩ := hopen
  exact ⟨hmove.open ⟨hquote₀, row, L, htrades⟩,
    (hmove.traded htrades hquote₀).2⟩

/-- The moves of an event trade what the event says. -/
theorem RanMoves.sums {c c' : Chain} {e : Event} {ms : List Move}
    {s : SysState} {core : Symbol} {quote₀ : ℤ} (hran : RanMoves c e ms s c')
    (hopen : Open core quote₀ c.sys) : (ms.map Move.bytes).sum = e.bytes ∧
    (ms.map Move.paidIn).sum = e.paidIn :=
  Event.sums_of_moves hran.moves (hran.run.labels open_priced hopen).2

/-- **An event trades what it says.** -/
theorem step_open {env : Env} {c c' : Chain} {e : Event} {core : Symbol}
    {quote₀ : ℤ} (h : Step env c e c') (hc : c.Settled)
    (hopen : Open core quote₀ c.sys) : Open core quote₀ c'.sys ∧
    c'.sys.memBytes = c.sys.memBytes + e.bytes ∧
    c'.sys.market.totalMemStake = c.sys.market.totalMemStake + e.paidIn := by
  rcases step_moves h hc with ⟨ctx, a, rfl, hsys, _⟩ | ⟨ms, s, hran⟩
  · rw [hsys]
    exact ⟨hopen, (add_zero _).symm, (add_zero _).symm⟩
  · obtain ⟨hbytes, hpaid⟩ := hran.sums hopen
    obtain ⟨⟨hquote₀, row, L, htrades⟩, _⟩ := hran.run.labels open_priced hopen
    have hkeep : ∀ s m s', True → Open core quote₀ s → Moved s m s' →
        Open core quote₀ s' := fun s m s' _ hs hm => hm.open hs
    have h₁ := hran.run.telescope (fun _ => True) hkeep
      (fun s m s' _ hs hm => (hm.bytes_paidIn hs).1) (fun _ _ => trivial) hopen
    have h₂ := hran.run.telescope (fun _ => True) hkeep
      (fun s m s' _ hs hm => (hm.bytes_paidIn hs).2) (fun _ _ => trivial) hopen
    rw [hran.sys]
    refine ⟨⟨hquote₀, row, L, htrades.congr rfl rfl⟩, ?_, ?_⟩
    · rw [← hbytes]
      exact h₁
    · rw [← hpaid]
      exact h₂

/-- The market is closed or open after every event. -/
theorem step_closed {env : Env} {c c' : Chain} {e : Event}
    (h : Step env c e c') (hc : c.Settled)
    (hclosed : Closed c.sys ∨ ∃ core quote₀, Open core quote₀ c.sys) :
    Closed c'.sys ∨ ∃ core quote₀, Open core quote₀ c'.sys := by
  rcases step_moves h hc with ⟨ctx, a, rfl, hsys, _⟩ | ⟨ms, s, hran⟩
  · rwa [hsys]
  · have hend : Closed s ∨ ∃ core quote₀, Open core quote₀ s := by
      exact hran.run.invariant
        (I := fun s => Closed s ∨ ∃ core quote₀, Open core quote₀ s)
        (fun _ => True) (fun _ _ _ _ hs hmove => hmove.closed_or_open hs)
        (fun _ _ => trivial) hclosed
    rw [hran.sys]
    rcases hend with hend | ⟨core, quote₀, hquote₀, row, L, htrades⟩
    · exact .inl { hend with }
    · exact .inr ⟨core, quote₀, hquote₀, row, L, htrades.congr rfl rfl⟩

/-- The market of every reachable state is closed or open. -/
theorem Reachable.closed_or_open {env : Env} {c : Chain}
    (h : Reachable env c) :
    Closed c.sys ∨ ∃ core quote₀, Open core quote₀ c.sys := by
  obtain ⟨es, hrun⟩ := h
  have hgenesis : Closed (genesis env).sys :=
    ⟨rfl, rfl, rfl, rfl, rfl, fun _ => rfl, fun _ _ => rfl, fun _ => rfl⟩
  have hinv := hrun.invariant (I := fun c => c.Settled ∧
      (Closed c.sys ∨ ∃ core quote₀, Open core quote₀ c.sys))
    (fun _ => True)
    (fun _ _ _ _ hd hstep => ⟨hd.1.step hstep, step_closed hstep hd.1 hd.2⟩)
    (fun _ _ => trivial) ⟨settled_genesis env, .inl hgenesis⟩
  exact hinv.2

/-- A run from the opening on stays open, with the reserve of the opening. -/
theorem open_run {env : Env} {c c' : Chain} {es : List Event} {core : Symbol}
    {quote₀ : ℤ} (h : Run (Step env) c es c') (hc : c.Settled)
    (hopen : Open core quote₀ c.sys) : Open core quote₀ c'.sys :=
  (h.invariant (I := fun c => c.Settled ∧ Open core quote₀ c.sys)
    (fun _ => True)
    (fun _ _ _ _ hd hstep =>
      ⟨hd.1.step hstep, (step_open hstep hd.1 hd.2).1⟩)
    (fun _ _ => trivial) ⟨hc, hopen⟩).2

/-- The first initialisation opens the market for good. -/
theorem open_of_init {env : Env} {c₀ c₁ : Chain} {es : List Event} {ctx : Ctx}
    {version : ℕ} {core : Symbol} (hbefore : Run (Step env) (genesis env) es c₀)
    (hinit : Step env c₀ (.system ctx (.init version core)) c₁) :
    c₁.Settled ∧ c₁.sys.market.totalMemStake = 0 ∧
    ∃ core quote₀, Open core quote₀ c₁.sys := by
  have hreach : Reachable env c₀ := ⟨es, hbefore⟩
  have hc₁ := hreach.settled.step hinit
  rcases step_moves hinit hreach.settled with
    ⟨_, _, he, _⟩ | ⟨ms, s, hran⟩
  · cases he
  · obtain rfl : ms = [.opened] := hran.moves
    have hmove := hran.run.of_single
    obtain ⟨market, hopening, hs⟩ := hmove
    have hclosed : Closed c₀.sys := by
      rcases hreach.closed_or_open with hclosed | ⟨_, _, _, row, L, htrades⟩
      · exact hclosed
      · have hnone := hopening.closed
        rw [htrades.hasRow.found] at hnone
        cases hnone
    have hpaid : c₁.sys.market.totalMemStake = 0 := by
      obtain ⟨_, _, _, _, hm⟩ := hopening.opened
      rw [hran.sys, hs, hm]
      exact hclosed.paid
    have hsome : c₁.sys.market.memmarket ≠ none := by
      obtain ⟨_, _, _, _, hm⟩ := hopening.opened
      rw [hran.sys, hs, hm]
      simp
    rcases step_closed hinit hreach.settled (.inl hclosed) with
      hc | hopen
    · exact absurd hc.memmarket hsome
    · exact ⟨hc₁, hpaid, hopen⟩

end Chain

/-! ## Conservation -/

/-- A market that is open grows. -/
theorem Open.grows {s : SysState} {core : Symbol} {quote₀ : ℤ}
    (h : Open core quote₀ s) (ctx : Ctx) :
    Succeeds (s.market.updateMemSupply ctx) := by
  obtain ⟨_, row, L, htrades⟩ := h
  exact Market.updateMemSupply_succeeds.mpr
    (.inr (Option.isSome_of_mem htrades.hasRow.found))

/-- The growth at the start of a trade leaves bytes to divide by. -/
theorem Open.grown {ctx : Ctx} {s : SysState} {market : Market}
    {core : Symbol} {quote₀ : ℤ} (h : Open core quote₀ s)
    (hgrow : s.market.updateMemSupply ctx = .ok market) :
    Open core quote₀ { s with market } := by
  obtain ⟨ms, _, hrun⟩ := System.updateMemSupply_moves hgrow
  exact hrun.invariant (I := Open core quote₀) (fun _ => True)
    (fun _ _ _ _ hs hm => hm.open hs) (fun _ _ => trivial) h

/-- **Memory bytes are conserved** from the opening of the market on: what is
on the market and what the accounts hold differs from the size of the memory
by what it did at the opening; nobody holds less than nothing, every event
moves what it trades and nothing else, and no trade divides by zero. -/
theorem memory_bytes_conserved {env : Env} {c₀ c₁ c : Chain}
    {es ds : List Event} {ctx : Ctx} {version : ℕ} {core : Symbol}
    (hbefore : Run (Chain.Step env) (.genesis env) es c₀)
    (hinit : Chain.Step env c₀ (.system ctx (.init version core)) c₁)
    (hafter : Run (Chain.Step env) c₁ ds c) :
    ∃ row₁ row, c₁.sys.market.memmarket = some row₁ ∧
      c.sys.market.memmarket = some row ∧
      row.base.amount + total c.sys.memBytes - c.sys.market.maxMemSize =
        row₁.base.amount + total c₁.sys.memBytes - c₁.sys.market.maxMemSize ∧
      (∀ a res, c.sys.userres.find a = some res → 0 ≤ res.memBytes) ∧
      0 < row.base.amount ∧
      (∀ e c', Chain.Step env c e c' →
        c'.sys.memBytes = c.sys.memBytes + e.bytes) ∧
      ∀ ctx market, c.sys.market.updateMemSupply ctx = .ok market →
        ∃ row', market.memmarket = some row' ∧ 0 < row'.base.amount ∧
          ∀ bytes core es out, 0 < bytes →
            row'.directConvert ⟨bytes, memSymbol⟩ core = .ok (es, out) →
            0 < es.base.amount := by
  obtain ⟨hc₁, _, core, quote₀, hopen₁⟩ := Chain.open_of_init hbefore hinit
  have hc := hc₁.run hafter
  have hopen := Chain.open_run hafter hc₁ hopen₁
  have hopen' := hopen
  obtain ⟨_, row₁, L₁, htrades₁⟩ := hopen₁
  obtain ⟨_, row, L, htrades⟩ := hopen'
  refine ⟨row₁, row, htrades₁.hasRow.found, htrades.hasRow.found, ?_, ?_, ?_,
    fun e c' hstep => (Chain.step_open hstep hc hopen).2.1, ?_⟩
  · have hcap₁ := L₁.conserved
    have hcap := L.conserved
    rw [← htrades₁.capacity] at hcap₁
    rw [← htrades.capacity] at hcap
    rw [htrades.stock, htrades.held, htrades₁.stock, htrades₁.held]
    omega
  · intro a res hres
    have hview : c.sys.memBytes a = res.memBytes := view_of_find hres
    rw [← hview, htrades.held]
    exact L.held_nonneg a
  · rw [htrades.stock]
    exact L.stock_pos
  · intro ctx market hgrow
    obtain ⟨_, row', L', htrades'⟩ := hopen.grown hgrow
    have hpos : 0 < row'.base.amount := htrades'.stock ▸ L'.stock_pos
    refine ⟨row', htrades'.hasRow.found, hpos,
      fun bytes to' es out hb hconv => ?_⟩
    rw [ExchangeState.directConvert_base htrades'.hasRow.base hconv]
    omega

/-! ## A sample run -/

/-- The parameters that the host starts with in the samples. -/
def sampleParameters : BlockchainParameters where
  maxBlockNetUsage := 1048576
  targetBlockNetUsagePct := 1000
  maxTransactionNetUsage := 524288
  basePerTransactionNetUsage := 12
  netUsageLeeway := 500
  contextFreeDiscountNetUsageNum := 20
  contextFreeDiscountNetUsageDen := 100
  maxBlockCpuUsage := 200000
  targetBlockCpuUsagePct := 1000
  maxTransactionCpuUsage := 150000
  minTransactionCpuUsage := 100
  maxTransactionLifetime := 3600
  deferredTrxExpirationWindow := 600
  maxTransactionDelay := 3888000
  maxInlineActionSize := 524288
  maxInlineActionDepth := 4
  maxAuthorityDepth := 6

/-- Weights that do not grow, and no inflation. -/
def sampleEnv : Env where
  voteFactor _ := 1
  voteFactor_pos _ := by decide
  voteFactor_mono _ _ _ := le_refl _
  continuousRate _ := 0
  authorityIsValid _ := true
  sha256 := id
  blockchainParameters := sampleParameters

/-- An account of the samples. -/
def alice : Name := .ofChars ['a', 'l', 'i', 'c', 'e']

/-- Another account of the samples. -/
def bob : Name := .ofChars ['b', 'o', 'b']

/-- The core token is created, issued and given to two accounts. -/
def openingEvents : List Event :=
  [.token (.signedBy tokenAccount 1)
      (.create systemAccount ⟨1000000000000, inrSymbol⟩),
    .token (.signedBy systemAccount 1)
      (.issue systemAccount ⟨100000000000, inrSymbol⟩ ""),
    .token (.signedBy systemAccount 1)
      (.transfer systemAccount alice ⟨2000000000, inrSymbol⟩ ""),
    .token (.signedBy systemAccount 1)
      (.transfer systemAccount bob ⟨2000000000, inrSymbol⟩ "")]

/-- Memory is bought twice and sold once. -/
def tradingEvents : List Event :=
  [.system (.signedBy alice 2) (.regproducer alice {} "" 0),
    .system (.signedBy alice 2) (.buyresources alice alice ⟨30000, inrSymbol⟩),
    .system (.signedBy bob 3) (.buymembytes bob alice 2097152),
    .system (.signedBy alice 4) (.sellres alice 1048576)]

/-- A property of the chain after the sample events, the opening of the market
among them. -/
def SampleRun (events : List Event) (P : Chain → Chain → Prop) : Prop :=
  Finishes (openingEvents.foldlM (Chain.exec sampleEnv) (.genesis sampleEnv))
    (fun c₀ => Finishes (Chain.exec sampleEnv c₀
        (.system (.signedBy systemAccount 1) (.init 0 inrSymbol)))
      (fun c₁ => Finishes (events.foldlM (Chain.exec sampleEnv) c₁) (P c₁)))

instance (events : List Event) (P : Chain → Chain → Prop)
    [∀ c₁, DecidablePred (P c₁)] : Decidable (SampleRun events P) :=
  inferInstanceAs (Decidable (Finishes _ _))

/-- What a sample run is made of. -/
theorem SampleRun.runs {events : List Event} {P : Chain → Chain → Prop}
    (h : SampleRun events P) : ∃ c₀ c₁ c,
      Run (Chain.Step sampleEnv) (.genesis sampleEnv) openingEvents c₀ ∧
      Chain.Step sampleEnv c₀
        (.system (.signedBy systemAccount 1) (.init 0 inrSymbol)) c₁ ∧
      Run (Chain.Step sampleEnv) c₁ events c ∧ P c₁ c := by
  obtain ⟨c₀, h₀, c₁, h₁, c, hc, hP⟩ := h
  exact ⟨c₀, c₁, c, Run.of_foldlM h₀, h₁, Run.of_foldlM hc, hP⟩

/-- What a sample run shows holds of a reachable state. -/
theorem SampleRun.reachable {events : List Event}
    {P : Chain → Chain → Prop} (h : SampleRun events P) :
    ∃ c₁ c, Chain.Reachable sampleEnv c ∧ P c₁ c := by
  obtain ⟨c₀, c₁, c, hbefore, hinit, hafter, hP⟩ := h.runs
  exact ⟨c₁, c, ⟨_, (hbefore.append (.single hinit)).append hafter⟩, hP⟩

/-- After two purchases and a sale the books of the memory still match. -/
theorem memory_bytes_conserved_sample :
    ∃ (c₁ c : Chain) (row₁ row : ExchangeState),
    c.sys.memBytes alice = 4194304 ∧
    c₁.sys.market.memmarket = some row₁ ∧
    c.sys.market.memmarket = some row ∧
    row.base.amount + total c.sys.memBytes - c.sys.market.maxMemSize =
      row₁.base.amount + total c₁.sys.memBytes - c₁.sys.market.maxMemSize := by
  have hsample : SampleRun tradingEvents
      (fun _ c => c.sys.memBytes alice = 4194304) := by
    decide +kernel
  obtain ⟨c₀, c₁, c, hbefore, hinit, hafter, hbytes⟩ := hsample.runs
  obtain ⟨row₁, row, hrow₁, hrow, hbooks, _⟩ :=
    memory_bytes_conserved hbefore hinit hafter
  exact ⟨c₁, c, row₁, row, hbytes, hrow₁, hrow, hbooks⟩

end Inery
