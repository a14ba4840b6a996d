import IneryContracts.MarketBacking

/-!
# The reservation of memory

Beside the market the contract counts how much of the memory is reserved.  A
purchase adds the share of the bought bytes in the memory on sale; a sale takes
off the share of the whole mebibytes sold.  The two shares refer to different
balances, so the count drifts, and nothing keeps it from exceeding the memory
or from wrapping around below zero.  This file says exactly when it does not.
-/

namespace Inery

open GuardedStep LedgerVector LabelledRun MachineInt

namespace Market

/-- The share of `b` bytes in the memory on sale fits into what is free. -/
def PurchaseFits (m : Market) (b : ℤ) : Prop :=
  ∀ row, m.memmarket = some row → b * m.maxMemSize <
    (m.maxMemSize - m.totalMemBytesReserved + 1) * row.base.amount

/-- The share of the whole mebibytes among the bytes sold is no more than what
is reserved, and all of it if nobody holds bytes afterwards. -/
def SaleFits (m : Market) (bytes held : ℤ) : Prop :=
  ∀ row, m.memmarket = some row →
    bytes / mib * mib * m.maxMemSize <
      (m.totalMemBytesReserved + 1) * (row.base.amount + bytes) ∧
    (bytes = held → m.totalMemBytesReserved * (row.base.amount + bytes) ≤
      bytes / mib * mib * m.maxMemSize)

instance (m : Market) (b : ℤ) : Decidable (m.PurchaseFits b) :=
  inferInstanceAs (Decidable (∀ row, row ∈ m.memmarket → _))

section Trades

variable {m m' : Market} {core : Symbol} {row : ExchangeState}

/-- The memory is not oversold, and its size has room in 64 bits. -/
structure Sized (m : Market) (row : ExchangeState) : Prop where
  base : 0 < row.base.amount
  size : m.maxMemSize < 2 ^ 51
  reserved : m.totalMemBytesReserved ≤ m.maxMemSize

theorem buy_fits_iff {quant : Asset} {b : ℤ} (hrow : m.HasRow core row)
    (hsized : m.Sized row) (hpos : 0 < quant.amount)
    (h : m.buy quant = .ok (m', b)) : b = quant.amount * mib / 10000 ∧ 0 < b ∧
    (m.PurchaseFits b ↔ m'.totalMemBytesReserved ≤ m'.maxMemSize) := by
  obtain ⟨_, hb, hb0, hstock, _, reserved, hres, rfl⟩ := buy_ok hrow hpos h
  have hbase := hsized.base
  have hsize := hsized.size
  have hreserved := hsized.reserved
  refine ⟨hb, hb0, ?_⟩
  have hpart : b ≤ row.base.amount := by omega
  obtain ⟨⟨hres0, _⟩, _⟩ := toUInt64_eq_ok.mp hres
  rw [toUInt64_share hb0.le hpart hbase (by omega)] at hres
  have hval := Except.ok.inj hres
  have hle : ∀ k : ℤ, reserved ≤ k ↔ b * m.maxMemSize < (k + 1) *
      row.base.amount := by
    intro k
    rw [← hval, ← Int.lt_add_one_iff, Int.ediv_lt_iff_lt_mul hbase]
  -- a share is no more than the whole, so the sum does not wrap
  have hshare : reserved ≤ m.maxMemSize := hval ▸ share_le hpart hbase
  have hsum : (u64 (m.totalMemBytesReserved + reserved) : ℤ) =
      m.totalMemBytesReserved + reserved := u64_of_range (by omega) (by omega)
  have hfits : m.PurchaseFits b ↔
      reserved ≤ m.maxMemSize - m.totalMemBytesReserved := by
    rw [hle]
    constructor
    · exact fun hfit => hfit row hrow.found
    · intro hlt row' hrow'
      rw [hrow.found] at hrow'
      cases hrow'
      exact hlt
  rw [hfits]
  show _ ↔ u64 (m.totalMemBytesReserved + reserved) ≤ m.maxMemSize
  omega

theorem sell_fits_iff {bytes : ℤ} {tokens : Asset} (held : ℤ)
    (hrow : m.HasRow core row) (hsized : m.Sized row) (hpos : 0 < bytes)
    (h : m.sell bytes = .ok (m', tokens)) : m'.maxMemSize = m.maxMemSize ∧
    (m.SaleFits bytes held ↔
      m'.totalMemBytesReserved ≤ m.totalMemBytesReserved ∧
      (bytes = held → m'.totalMemBytesReserved = 0)) := by
  obtain ⟨_, _, _, released, hrel, _, rfl⟩ := sell_ok hrow hpos h
  refine ⟨rfl, ?_⟩
  have hbase := hsized.base
  have hsize := hsized.size
  have hreserved := hsized.reserved
  obtain ⟨⟨hrel0, hrel64⟩, _⟩ := toUInt64_eq_ok.mp hrel
  rw [toUInt64_lots hpos.le (by omega) (by omega) (by omega)] at hrel
  have hval := Except.ok.inj hrel
  have hfits : m.SaleFits bytes held ↔
      released ≤ m.totalMemBytesReserved ∧
      (bytes = held → (m.totalMemBytesReserved : ℤ) ≤ released) := by
    rw [← hval, ← Int.lt_add_one_iff, Int.ediv_lt_iff_lt_mul (by omega),
      Int.le_ediv_iff_mul_le (by omega)]
    constructor
    · exact fun hfit => hfit row hrow.found
    · intro hboth row' hrow'
      rw [hrow.found] at hrow'
      cases hrow'
      exact hboth
  have hwrap := u64_sub_le_iff (r := m.totalMemBytesReserved) (by omega)
    (by omega) hrel0 hrel64
  have hcast : ((u64 (m.totalMemBytesReserved - released) : ℕ) : ℤ) ≤
      m.totalMemBytesReserved ↔
      u64 (m.totalMemBytesReserved - released) ≤ m.totalMemBytesReserved :=
    Int.ofNat_le
  rw [hfits]
  show _ ↔ u64 (m.totalMemBytesReserved - released) ≤
    m.totalMemBytesReserved ∧
    (bytes = held → u64 (m.totalMemBytesReserved - released) = 0)
  rw [← hcast, hwrap]
  refine and_congr_right (fun hle => imp_congr_right (fun _ => ?_))
  have hdiff := u64_of_range (x := m.totalMemBytesReserved - released)
    (by omega) (by omega)
  omega

end Trades

end Market

/-! ## Moves that trade nothing -/

section Moves

variable {s s' : SysState}

/-- The move is neither a purchase nor a sale. -/
def Move.Still : Move → Prop
  | .bought _ _ _ _ | .sold _ _ _ => False
  | .rest | .payroll | .opened | .grown _ | .rated | .paidOut _ _
  | .staked _ _ _ _ _ _ | .refunded _ | .created _ => True

/-- The supply of memory never shrinks. -/
theorem Moved.maxMemSize_le {m : Move} (hmove : Moved s m s')
    (h : Closed s ∨ ∃ core quote₀, Open core quote₀ s) :
    s.market.maxMemSize ≤ s'.market.maxMemSize := by
  rcases h with hclosed | ⟨core, quote₀, hquote₀, row, L, htrades⟩
  · rcases hmove.closed hclosed with hclosed' | ⟨rfl, _⟩
    · rw [hclosed.maxMemSize, hclosed'.maxMemSize]
    · obtain ⟨_, ⟨_, _, _, _, _, rfl⟩, rfl⟩ := hmove
      exact le_refl _
  · obtain ⟨⟨row', L', htrades', hstep, _⟩, _⟩ :=
      hmove.traded htrades hquote₀
    have hcapacity := hstep.capacity_le
    rw [← htrades.capacity, ← htrades'.capacity] at hcapacity
    omega

/-- A move that trades nothing reserves nothing and moves no bytes. -/
theorem Moved.still {m : Move} (hmove : Moved s m s') (hm : m.Still) :
    s'.market.totalMemBytesReserved = s.market.totalMemBytesReserved ∧
    s'.memBytes = s.memBytes := by
  cases m with
  | bought payer receiver quant bytes => exact hm.elim
  | sold account bytes tokens => exact hm.elim
  | rest =>
      refine ⟨by rw [hmove.market], ?_⟩
      rw [SysState.memBytes, hmove.userres, SysState.memBytes]
  | payroll =>
      refine ⟨by rw [hmove.2.1], ?_⟩
      rw [SysState.memBytes, hmove.1.userres, SysState.memBytes]
  | opened =>
      obtain ⟨_, ⟨_, _, _, _, _, rfl⟩, rfl⟩ := hmove
      exact ⟨rfl, rfl⟩
  | grown bytes =>
      obtain ⟨market, hgrow, rfl⟩ := hmove
      obtain ⟨_, _, hm⟩ := hgrow.grown
      refine ⟨?_, rfl⟩
      show market.totalMemBytesReserved = _
      rw [hm]
  | rated =>
      obtain ⟨_, rfl⟩ := hmove
      exact ⟨rfl, rfl⟩
  | paidOut account tokens =>
      obtain ⟨_, rfl⟩ := hmove
      exact ⟨rfl, rfl⟩
  | staked source owner receiver dn dc ρ =>
      exact ⟨by rw [hmove.2.market], hmove.2.memBytes⟩
  | refunded owner =>
      obtain ⟨_, _, rfl⟩ := hmove
      exact ⟨rfl, rfl⟩
  | created account =>
      obtain ⟨_, zero, _, _, hnone, _, rfl⟩ := hmove
      refine ⟨rfl, ?_⟩
      exact view_put_same UserResources.memBytes _ rfl (view_of_none hnone).symm

end Moves

/-- An event that is no trade is made of moves that trade nothing. -/
private theorem Event.still_of_moves {e : Event} {ms : List Move}
    (he : ¬ e.IsTrade) (hms : e.Moves ms) : ∀ m ∈ ms, m.Still := by
  intro m hm
  have hwithin := Event.within_of_moves hms hm
  cases m with
  | bought payer receiver quant bytes => exact he hwithin.1
  | sold account bytes tokens => exact he hwithin.1
  | _ => trivial

/-- A sale of memory. -/
def Event.IsSale : Event → Prop
  | system _ (.sellres _ _) => True
  | _ => False

namespace Chain

/-- What the count of reserved bytes is kept for: it stays within the memory,
and it is zero when nobody holds bytes. -/
structure Accounted (c : Chain) : Prop where
  le_max : c.sys.market.totalMemBytesReserved ≤ c.sys.market.maxMemSize
  idle : total c.sys.memBytes = 0 → c.sys.market.totalMemBytesReserved = 0

/-- The trade of an event fits, once the supply has grown. -/
def Fits (c : Chain) : Event → Prop
  | .system ctx (.buyresources _ _ quant) =>
      ∀ m, c.sys.market.updateMemSupply ctx = .ok m →
        m.PurchaseFits (quant.amount * mib / 10000)
  | .system ctx (.buymembytes _ _ bytes) =>
      ∀ m, c.sys.market.updateMemSupply ctx = .ok m →
        m.PurchaseFits (bytes.toNat / mib * mib)
  | .system ctx (.sellres _ bytes) =>
      ∀ m, c.sys.market.updateMemSupply ctx = .ok m →
        m.SaleFits bytes (total c.sys.memBytes)
  | _ => True

theorem fits_of_not_isTrade {c : Chain} {e : Event} (he : ¬ e.IsTrade) :
    c.Fits e := by
  unfold Fits
  split
  · exact absurd trivial he
  · exact absurd trivial he
  · exact absurd trivial he
  · trivial

/-- A step whose trade fits. -/
def FittingStep (env : Env) (c : Chain) (e : Event) (c' : Chain) : Prop :=
  Step env c e c' ∧ c.Fits e

section Steps

variable {env : Env} {c c' : Chain} {e : Event} {ctx : Ctx} {core : Symbol}
  {quote₀ : ℤ} {m m' : Market}

/-- After the growth at the start of a trade. -/
private theorem sized_of_growth {s : SysState} (hopen : Open core quote₀ s)
    (hle : s.market.totalMemBytesReserved ≤ s.market.maxMemSize)
    (hgrow : s.market.updateMemSupply ctx = .ok m) :
    m.totalMemBytesReserved = s.market.totalMemBytesReserved ∧
    s.market.maxMemSize ≤ m.maxMemSize ∧
    ∃ row, m.HasRow core row ∧ m.Sized row := by
  have hreserved : m.totalMemBytesReserved =
      s.market.totalMemBytesReserved := by
    rcases Market.updateMemSupply_ok hgrow with rfl | ⟨_, _, _, rfl⟩
    · rfl
    · rfl
  obtain ⟨ms, _, hrun⟩ := System.updateMemSupply_moves hgrow
  have hmax := (hrun.invariant (I := fun s' => Open core quote₀ s' ∧
      s.market.maxMemSize ≤ s'.market.maxMemSize) (fun _ => True)
    (fun _ _ _ _ hs hm => ⟨hm.open hs.1,
      hs.2.trans (hm.maxMemSize_le (.inr ⟨_, _, hs.1⟩))⟩)
    (fun _ _ => trivial) ⟨hopen, le_refl _⟩).2
  obtain ⟨_, row, L, htrades⟩ := hopen.grown hgrow
  refine ⟨hreserved, hmax, row, htrades.hasRow, ?_, htrades.size_lt, ?_⟩
  · rw [htrades.stock]
    exact L.stock_pos
  · rw [hreserved]
    exact hle.trans hmax

/-- Only an open market grows into one that trades. -/
private theorem open_of_growth (hc : c.Books)
    (hgrow : c.sys.market.updateMemSupply ctx = .ok m)
    (hsome : m.memmarket ≠ none) :
    ∃ core quote₀, Open core quote₀ c.sys := by
  refine hc.market.resolve_left (fun hclosed => hsome ?_)
  rcases Market.updateMemSupply_ok hgrow with rfl | ⟨_, row, hrow, _⟩
  · exact hclosed.memmarket
  · rw [hclosed.memmarket] at hrow
    cases hrow

private theorem purchase_iff {quant : Asset} {b : ℤ} {receiver : Name}
    (h : Step env c e c') (hc : c.Books) (ha : c.Accounted)
    (hgrow : c.sys.market.updateMemSupply ctx = .ok m)
    (hpos : 0 < quant.amount) (hbuy : m.buy quant = .ok (m', b))
    (hc' : c'.sys.market = m')
    (hbytes : e.bytes = Pi.single receiver (quant.amount * mib / 10000)) :
    m.PurchaseFits (quant.amount * mib / 10000) ↔ c'.Accounted := by
  have hsome : m.memmarket ≠ none := by
    simp only [Market.buy, bind_eq_ok, orStop_eq_ok] at hbuy
    obtain ⟨row, hrow, _⟩ := hbuy
    simp [hrow]
  obtain ⟨core, quote₀, hopen⟩ := open_of_growth hc hgrow hsome
  obtain ⟨_, _, row, hrow, hsized⟩ := sized_of_growth hopen ha.le_max hgrow
  obtain ⟨rfl, hb, hiff⟩ := Market.buy_fits_iff hrow hsized hpos hbuy
  rw [hiff, ← hc']
  refine ⟨fun hle => ⟨hle, fun hzero => ?_⟩, Accounted.le_max⟩
  have htotal := total_nonneg hc.memBytes_nonneg
  rw [(step_open h hc.toSettled hopen).2.1, hbytes, total_add,
    total_single] at hzero
  omega

private theorem sale_iff {bytes : ℤ} {account : Name} {tokens : Asset}
    (h : Step env c e c') (hc : c.Books) (ha : c.Accounted)
    (hgrow : c.sys.market.updateMemSupply ctx = .ok m)
    (hpos : 0 < bytes) (hsell : m.sell bytes = .ok (m', tokens))
    (hc' : c'.sys.market = m')
    (hbytes : e.bytes = -Pi.single account bytes) :
    m.SaleFits bytes (total c.sys.memBytes) ↔ c'.Accounted ∧
      c'.sys.market.totalMemBytesReserved ≤
        c.sys.market.totalMemBytesReserved := by
  have hsome : m.memmarket ≠ none := by
    simp only [Market.sell, bind_eq_ok, orStop_eq_ok] at hsell
    obtain ⟨row, hrow, _⟩ := hsell
    simp [hrow]
  obtain ⟨core, quote₀, hopen⟩ := open_of_growth hc hgrow hsome
  obtain ⟨hreserved, hmax, row, hrow, hsized⟩ :=
    sized_of_growth hopen ha.le_max hgrow
  obtain ⟨hmax', hiff⟩ := Market.sell_fits_iff (total c.sys.memBytes) hrow
    hsized hpos hsell
  have htotal : total c'.sys.memBytes = total c.sys.memBytes - bytes := by
    rw [(step_open h hc.toSettled hopen).2.1, hbytes, total_add,
      ← Pi.single_neg, total_single]
    ring
  have hle := ha.le_max
  rw [hiff, hc', hreserved]
  constructor
  · rintro ⟨hless, hidle⟩
    refine ⟨⟨?_, fun hzero => ?_⟩, hless⟩
    · rw [hc', hmax']
      omega
    · rw [hc']
      exact hidle (by omega)
  · rintro ⟨haccounted, hless⟩
    refine ⟨hless, fun hall => ?_⟩
    rw [← hc']
    exact haccounted.idle (by omega)

/-- An event that is no trade leaves the count alone. -/
private theorem still_accounted (h : Step env c e c') (hc : c.Books)
    (ha : c.Accounted) (he : ¬ e.IsTrade) : c'.Accounted := by
  rcases step_moves h hc.toSettled with ⟨ctx, a, _, hsys, _⟩ | ⟨ms, s, hran⟩
  · exact ⟨hsys ▸ ha.le_max, hsys ▸ ha.idle⟩
  · obtain ⟨_, hreserved, hmax, hbytes⟩ := hran.run.invariant
      (I := fun s => (Closed s ∨ ∃ core quote₀, Open core quote₀ s) ∧
        s.market.totalMemBytesReserved =
          c.sys.market.totalMemBytesReserved ∧
        c.sys.market.maxMemSize ≤ s.market.maxMemSize ∧
        s.memBytes = c.sys.memBytes)
      Move.Still
      (fun s m s' hm ⟨hs, hreserved, hmax, hbytes⟩ hmove =>
        ⟨hmove.closed_or_open hs, (hmove.still hm).1.trans hreserved,
          hmax.trans (hmove.maxMemSize_le hs),
          (hmove.still hm).2.trans hbytes⟩)
      (Event.still_of_moves he hran.moves)
      ⟨hc.market, rfl, le_refl _, rfl⟩
    have hbytes' : c'.sys.memBytes = c.sys.memBytes := by
      rw [hran.sys, ← hbytes]
      rfl
    refine ⟨?_, fun hzero => ?_⟩
    · rw [hran.sys]
      show s.market.totalMemBytesReserved ≤ s.market.maxMemSize
      rw [hreserved]
      exact ha.le_max.trans hmax
    · rw [hbytes'] at hzero
      rw [hran.sys]
      show s.market.totalMemBytesReserved = 0
      rw [hreserved]
      exact ha.idle hzero

/-- **A step keeps the account of the reserved bytes exactly when its trade
fits.** -/
theorem accounted_iff (h : Step env c e c') (hc : c.Books)
    (ha : c.Accounted) : c.Fits e ↔ c'.Accounted ∧ (e.IsSale →
      c'.sys.market.totalMemBytesReserved ≤
        c.sys.market.totalMemBytesReserved) := by
  by_cases he : e.IsTrade
  · cases e with
    | token ctx a => exact he.elim
    | deferred slot isAccount owner => exact he.elim
    | system ctx a =>
        obtain ⟨s, hs, hsys⟩ := step_system h
        have hmarket : c'.sys.market = s.market := by rw [hsys]
        cases a
        case buyresources payer receiver quant =>
          obtain ⟨_, hpos, m, m', b, _, _, _, _, hgrow, _, hbuy, _, _, _, _,
            hchange⟩ := System.buyresources_ok hs hc.staked
          have hiff := purchase_iff h hc ha hgrow hpos hbuy
            (hmarket.trans hchange.market) rfl
          rw [← hiff.trans (and_iff_left (fun hsale => hsale.elim)).symm]
          exact forall_eq_ok hgrow
        case buymembytes payer receiver size =>
          obtain ⟨price, s₁, hprice, _, hbuy, hdel⟩ :=
            System.buymembytes_ok hs
          obtain ⟨_, hpos, m, m', b, _, _, _, _, hgrow, _, hbuy, _, _, _, _,
            hchange⟩ := System.buyresources_ok hbuy hc.staked
          obtain ⟨_, _, _, _, _, _, _, hchange'⟩ :=
            System.delegatebw_ok hdel hchange.stakedInRange
          have hbytes : price.amount * mib / 10000 =
              (size.toNat : ℤ) / mib * mib := by
            rw [hprice]
            unfold mib
            omega
          have hiff := purchase_iff h hc ha hgrow hpos hbuy
            (hmarket.trans (hchange'.market.trans hchange.market))
            (by rw [hprice]; rfl)
          rw [← hiff.trans (and_iff_left (fun hsale => hsale.elim)).symm,
            hbytes]
          exact forall_eq_ok hgrow
        case sellres account size =>
          obtain ⟨_, hpos, _, m, m', _, _, _, _, _, _, hgrow, hsell, _, _,
            hchange, rfl⟩ := System.sellres_ok hs hc.staked
          have hiff := sale_iff h hc ha hgrow hpos hsell
            (hmarket.trans hchange.market) rfl
          show _ ↔ c'.Accounted ∧ (True → _)
          rw [true_imp_iff, ← hiff]
          exact forall_eq_ok hgrow
        all_goals exact he.elim
  · have hsale : ¬ e.IsSale := by
      intro hsale
      cases e with
      | token ctx a => exact hsale
      | deferred slot isAccount owner => exact hsale
      | system ctx a => cases a <;> first | exact he trivial | exact hsale
    exact iff_of_true (fits_of_not_isTrade he) ⟨still_accounted h hc ha he,
      fun h => absurd h hsale⟩

theorem Books.maxMemSize_lt (hc : c.Books) :
    c.sys.market.maxMemSize < 2 ^ 51 := by
  rcases hc.market with hclosed | ⟨_, _, _, _, _, htrades⟩
  · rw [hclosed.maxMemSize, initialMemSize]
    decide
  · exact htrades.size_lt

/-- A run whose trades all fit keeps the account. -/
theorem accounted_run {es : List Event}
    (hrun : Run (FittingStep env) (genesis env) es c) :
    c.Books ∧ c.Accounted :=
  hrun.invariant (I := fun c => c.Books ∧ c.Accounted) (fun _ => True)
    (fun _ _ _ _ ⟨hc, ha⟩ ⟨hstep, hfits⟩ =>
      ⟨hc.step hstep, ((accounted_iff hstep hc ha).mp hfits).1⟩)
    (fun _ _ => trivial) ⟨books_genesis env, Nat.zero_le _, fun _ => rfl⟩

end Steps

end Chain

/-- How `setmem` stops where more is reserved than there would be. -/
def belowReserved : Abort := .check "attempt to set max below reserved"

/-- Memory can be set while no more is reserved than there is. -/
theorem Market.setmem_avoids {m : Market}
    (h : m.totalMemBytesReserved ≤ m.maxMemSize) (ctx : Ctx) (size : UInt64) :
    Avoids belowReserved (m.setmem ctx size) := by
  simp only [setmem, avoids_bind, Ctx.avoids_requireAuth, avoids_check,
    check_eq_ok, avoids_orStop, avoids_pure, belowReserved, noRow,
    Abort.check.injEq, implies_true, and_true]
  refine ⟨by simp, fun _ _ => ⟨by simp, fun _ hlt => ⟨by simp, fun _ _ =>
    ⟨fun _ => ?_, by simp⟩⟩⟩⟩
  omega

/-- **Reserved memory is accounted for** in every run whose trades fit: no more
is reserved than there is, what is free is the difference, no size of the
memory is refused for what is reserved, and nothing is reserved when nobody
holds bytes.  The next step keeps all this, and does not wrap around, exactly
when its trade fits. -/
theorem reserved_memory_accounted {env : Env} {es : List Event} {c : Chain}
    (hrun : Run (Chain.FittingStep env) (.genesis env) es c) :
    c.sys.market.totalMemBytesReserved ≤ c.sys.market.maxMemSize ∧
    (c.sys.market.freeMem : ℤ) =
      c.sys.market.maxMemSize - c.sys.market.totalMemBytesReserved ∧
    (∀ ctx size, c.sys.market.setmem ctx size ≠ .error belowReserved) ∧
    (total c.sys.memBytes = 0 → c.sys.market.totalMemBytesReserved = 0) ∧
    ∀ e c', Chain.Step env c e c' → (c.Fits e ↔ c'.Accounted ∧
      (e.IsSale → c'.sys.market.totalMemBytesReserved ≤
        c.sys.market.totalMemBytesReserved)) := by
  obtain ⟨hc, ha⟩ := Chain.accounted_run hrun
  have hle := ha.le_max
  have hlt := hc.maxMemSize_lt
  exact ⟨hle, u64_of_range (by omega) (by omega),
    fun ctx size => Market.setmem_avoids hle ctx size, ha.idle,
    fun e c' hstep => Chain.accounted_iff hstep hc ha⟩

/-- A purchase that fits is counted. -/
theorem reserved_memory_accounted_sample : ∃ c : Chain,
    c.sys.market.totalMemBytesReserved = 2995931 ∧
    c.sys.market.totalMemBytesReserved ≤ c.sys.market.maxMemSize := by
  have hsample : SampleRun [] (fun _ c =>
      (∀ m, c.sys.market.updateMemSupply (.signedBy alice 2) = .ok m →
        m.PurchaseFits (20000 * mib / 10000)) ∧
      Finishes (Chain.exec sampleEnv c (.system (.signedBy alice 2)
          (.buyresources alice alice ⟨20000, inrSymbol⟩)))
        (fun c' => c'.sys.market.totalMemBytesReserved = 2995931)) := by
    decide +kernel
  obtain ⟨c₀, c₁, c, hbefore, hinit, hafter, hfits, c', hbuy, hreserved⟩ :=
    hsample.runs
  have hopened := (hbefore.append (.single hinit)).append hafter
  have hfit : ∀ c e c', ¬ e.IsTrade → Chain.Step sampleEnv c e c' →
      Chain.FittingStep sampleEnv c e c' :=
    fun _ _ _ he hstep => ⟨hstep, Chain.fits_of_not_isTrade he⟩
  have hfitting := hopened.mono (fun e => ¬ e.IsTrade) hfit
    (by simp [openingEvents, Event.IsTrade])
  exact ⟨c', hreserved,
    (reserved_memory_accounted (hfitting.snoc ⟨hbuy, hfits⟩)).1⟩

/-- A purchase of two gibibytes and a sale of one of them. -/
def reservingEvents : List Event :=
  [.system (.signedBy alice 2) (.regproducer alice {} "" 0),
    .system (.signedBy alice 2)
      (.buyresources alice alice ⟨20480000, inrSymbol⟩),
    .system (.signedBy alice 3) (.sellres alice 1073741824)]

/-- When alice sells the second of her two gibibytes, more is taken off than
is left, and the count of reserved bytes wraps around. -/
theorem reserved_memory_wraps : ∃ c c' : Chain,
    Chain.Reachable sampleEnv c ∧
    Chain.Step sampleEnv c
      (.system (.signedBy alice 4) (.sellres alice 1073741824)) c' ∧
    c.sys.market.totalMemBytesReserved <
      c'.sys.market.totalMemBytesReserved ∧
    ¬ c'.Accounted := by
  have hsample : SampleRun reservingEvents (fun _ c =>
      Finishes (Chain.exec sampleEnv c
        (.system (.signedBy alice 4) (.sellres alice 1073741824)))
      (fun c' => c.sys.market.totalMemBytesReserved <
          c'.sys.market.totalMemBytesReserved ∧
        c'.sys.market.maxMemSize <
          c'.sys.market.totalMemBytesReserved)) := by
    decide +kernel
  obtain ⟨_, c, hreach, c', hstep, hwrap, hmax⟩ := hsample.reachable
  exact ⟨c, c', hreach, hstep, hwrap, fun ha =>
    absurd ha.le_max (not_le.mpr hmax)⟩

end Inery
