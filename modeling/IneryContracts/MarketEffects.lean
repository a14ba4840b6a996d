import IneryContracts.MemoryMarket

/-!
# What trades do to the market

The growth of the memory supply, a purchase and a sale, each described by the
amounts it moves.
-/

namespace Inery

open GuardedStep LedgerVector MachineInt

/-! ## Shares of the memory -/

section Shares

variable {b base : ℤ} {size : ℕ}

/-- A part of the stock has no more than all of the memory. -/
theorem share_le (hle : b ≤ base) (hbase : 0 < base) :
    b * size / base ≤ size := by
  refine Int.ediv_le_of_le_mul hbase ?_
  rw [mul_comm (size : ℤ)]
  exact mul_le_mul_of_nonneg_right hle (Int.natCast_nonneg size)

/-- The share that a part of the stock has in the memory. -/
theorem toUInt64_share (hb : 0 ≤ b) (hle : b ≤ base) (hbase : 0 < base)
    (hsize : size < 2 ^ 63) :
    toUInt64 ((b : ℚ) / base * i64 size) = .ok (b * size / base) := by
  have hsize₀ : (0 : ℤ) ≤ size := Int.natCast_nonneg size
  have hnonneg : 0 ≤ b * size / base :=
    Int.ediv_nonneg (mul_nonneg hb hsize₀) hbase.le
  have hmost : b * size / base ≤ size := share_le hle hbase
  rw [i64_of_range (x := size) (by omega) (by omega), toUInt64_eq_ok,
    truncate_share hb hbase hsize₀]
  exact ⟨⟨hnonneg, by omega⟩, rfl⟩

/-- The share of the whole mebibytes among `b` bytes. -/
theorem toUInt64_lots (hb : 0 ≤ b) (hle : b ≤ base) (hbase : 0 < base)
    (hsize : size < 2 ^ 63) :
    toUInt64 ((b / mib : ℤ) * ((mib : ℚ) / base * i64 size)) =
      .ok (b / mib * mib * size / base) := by
  have hlots : 0 ≤ b / mib * mib :=
    mul_nonneg (Int.ediv_nonneg hb (by decide)) (by decide)
  have hwhole : b / mib * mib ≤ b :=
    Int.ediv_mul_le b (show mib ≠ 0 by decide)
  have hshare : ((b / mib : ℤ) : ℚ) * ((mib : ℚ) / base * (i64 size : ℚ)) =
      ((b / mib * mib : ℤ) : ℚ) / base * (i64 size : ℚ) := by
    push_cast
    ring
  rw [hshare]
  exact toUInt64_share hlots (hwhole.trans hle) hbase hsize

end Shares

/-! ## The steps of a trade -/

namespace ExchangeState

/-- The input in bytes is an integer. -/
private theorem scaled_eq (inp : ℤ) :
    (inp : ℚ) * 1024 * 1024 = ((inp * mib : ℤ) : ℚ) := by
  unfold mib
  push_cast
  ring

/-- A conversion that succeeds multiplies by a mebibyte. -/
theorem getBancorOutput_ok {x y inp out : ℤ} (hinp : 0 ≤ inp)
    (h : getBancorOutput x y inp = .ok out) : out = inp * mib := by
  simp only [getBancorOutput, bind_eq_ok, toInt64_eq_ok, pure_eq_ok] at h
  obtain ⟨n, ⟨_, rfl⟩, rfl⟩ := h
  rw [scaled_eq, truncate_intCast, if_neg]
  exact not_lt.mpr (mul_nonneg hinp (by decide))

/-- It succeeds where the product fits 64 bits. -/
theorem getBancorOutput_eq {x y inp : ℤ} (hinp : 0 ≤ inp)
    (hlt : inp * mib < 2 ^ 63) : getBancorOutput x y inp = .ok (inp * mib) := by
  have hnonneg : 0 ≤ inp * mib := mul_nonneg hinp (by decide)
  simp only [getBancorOutput, bind_eq_ok, toInt64_eq_ok, pure_eq_ok]
  refine ⟨inp * mib, ⟨by omega, ?_⟩, if_neg (not_lt.mpr hnonneg)⟩
  rw [scaled_eq, truncate_intCast]

/-- The inverse divides by a mebibyte. -/
theorem getBancorInput_eq {x y out : ℤ} (hout : 0 ≤ out) :
    getBancorInput x y out = out / mib := by
  unfold getBancorInput
  dsimp only
  rw [Int.tdiv_eq_ediv_of_nonneg hout, if_neg]
  unfold mib
  omega

/-- Sold bytes go to the stock. -/
theorem directConvert_base {es es' : ExchangeState} {bytes : ℤ}
    {to' : Symbol} {out : Asset} (hbase : es.base.symbol = memSymbol)
    (h : es.directConvert ⟨bytes, memSymbol⟩ to' = .ok (es', out)) :
    es'.base.amount = es.base.amount + bytes := by
  simp only [directConvert, bind_eq_ok, check_eq_ok, exists_const,
    Asset.make_eq_ok] at h
  obtain ⟨hne, _, _, h⟩ := h
  split at h
  · simp only [bind_eq_ok, Asset.add_eq_ok, pure_eq_ok, Prod.mk.injEq] at h
    obtain ⟨_, ⟨_, _, rfl⟩, _, _, _, _, rfl, _⟩ := h
    rfl
  · split at h
    · next hsyms => exact absurd (hbase.symm.trans hsyms.2.symm) hne
    · cases h

end ExchangeState

namespace Market

/-- The row of a market whose core symbol is `core`. -/
structure HasRow (m : Market) (core : Symbol) (row : ExchangeState) :
    Prop where
  found : m.memmarket = some row
  base : row.base.symbol = memSymbol
  quote : row.quote.symbol = core

/-- The core symbol is that of the row of the market. -/
theorem coreSymbol_ok {m : Market} {core : Symbol} :
    m.coreSymbol = .ok core ↔ m.memmarket.map (·.quote.symbol) = some core := by
  simp [coreSymbol, pure, Except.pure]

/-- A market that has its row has its core symbol. -/
theorem HasRow.coreSymbol {m : Market} {core : Symbol} {row : ExchangeState}
    (h : m.HasRow core row) : m.coreSymbol = .ok core := by
  rw [coreSymbol_ok, h.found, Option.map_some, h.quote]

/-- The supply grows by the same number of bytes on both sides. -/
theorem updateMemSupply_ok {ctx : Ctx} {m m' : Market}
    (h : m.updateMemSupply ctx = .ok m') :
    m' = m ∨ m.lastMemIncrease < ctx.slot ∧ ∃ row, m.memmarket = some row ∧
      m' = { m with
        maxMemSize := u64 (m.maxMemSize + ((ctx.slot - m.lastMemIncrease) *
          m.newMemPerBlock.toUInt32).toNat)
        memmarket := some { row with base := { row.base with
          amount := i64 (row.base.amount + ((ctx.slot - m.lastMemIncrease) *
            m.newMemPerBlock.toUInt32).toNat) } }
        lastMemIncrease := ctx.slot } := by
  unfold updateMemSupply at h
  dsimp only at h
  split at h
  · cases h
    exact .inl rfl
  · next hslot =>
      simp only [bind_eq_ok, orStop_eq_ok, pure_eq_ok] at h
      obtain ⟨row, hrow, rfl⟩ := h
      refine .inr ⟨?_, row, hrow, rfl⟩
      simpa using hslot

/-- The growth of the market needs a row only where it is due. -/
theorem updateMemSupply_succeeds {ctx : Ctx} {m : Market} :
    Succeeds (m.updateMemSupply ctx) ↔
      ctx.slot ≤ m.lastMemIncrease ∨ m.memmarket.isSome := by
  unfold updateMemSupply
  dsimp only
  split
  · next hdue => exact iff_of_true succeeds_pure (.inl hdue)
  · next hdue =>
      rw [or_iff_right hdue]
      constructor
      · rintro ⟨m', h⟩
        obtain ⟨row, hrow, _⟩ := bind_eq_ok.mp h
        exact Option.isSome_of_mem (orStop_eq_ok.mp hrow)
      · intro hrow
        exact (succeeds_orStop.mpr hrow).bind (fun _ _ => succeeds_pure)

/-- What `setmem` checks and stores. -/
theorem setmem_ok {ctx : Ctx} {m m' : Market} {size : UInt64}
    (h : m.setmem ctx size = .ok m') :
    ctx.HasAuth systemAccount ∧ m.maxMemSize < size.toNat ∧
    size.toNat < 2 ^ 50 ∧ m.totalMemBytesReserved < size.toNat ∧
    ∃ row, m.memmarket = some row ∧ m' = { m with
      memmarket := some { row with base := { row.base with
        amount := i64 (row.base.amount +
          i64 (i64 size.toNat - i64 m.maxMemSize)) } }
      maxMemSize := size.toNat } := by
  simp only [setmem, bind_eq_ok, Ctx.requireAuth_eq_ok, check_eq_ok,
    orStop_eq_ok, pure_eq_ok, exists_const] at h
  obtain ⟨hauth, hlt, hlimit, hres, row, hrow, rfl⟩ := h
  exact ⟨hauth, hlt, hlimit, hres, row, hrow, rfl⟩

/-- The market does not sell the core token for itself. -/
theorem symbol_ne_of_buy {m m' : Market} {quant : Asset} {b : ℤ}
    (h : m.buy quant = .ok (m', b)) : quant.symbol ≠ memSymbol := by
  simp only [buy, ExchangeState.directConvert, bind_eq_ok, check_eq_ok,
    exists_const] at h
  obtain ⟨_, _, _, ⟨hne, _⟩, _⟩ := h
  exact hne

/-- A purchase takes the bytes off the stock and raises what was paid in. -/
theorem buy_ok {m m' : Market} {core : Symbol} {row : ExchangeState}
    {quant : Asset} {b : ℤ} (hrow : m.HasRow core row)
    (hpos : 0 < quant.amount) (h : m.buy quant = .ok (m', b)) :
    quant.symbol = core ∧ b = quant.amount * mib / 10000 ∧ 0 < b ∧
    b < row.base.amount - b ∧
    Asset.InRange (row.quote.amount + quant.amount) ∧
    ∃ reserved, toUInt64 ((b : ℚ) / row.base.amount * i64 m.maxMemSize) =
      .ok reserved ∧
    m' = { m with
      memmarket := some { row with
        base := { row.base with amount := row.base.amount - b }
        quote := { row.quote with
          amount := row.quote.amount + quant.amount } }
      totalMemBytesReserved := u64 (m.totalMemBytesReserved + reserved)
      totalMemStake := i64 (m.totalMemStake + quant.amount) } := by
  simp only [buy, hrow.found, bind_eq_ok, orStop_eq_ok, Option.some.injEq,
    exists_eq_left', check_eq_ok, exists_const, pure_eq_ok,
    Prod.mk.injEq] at h
  obtain ⟨⟨es, out⟩, hconv, hstock, hb, reserved, hres, rfl, rfl⟩ := h
  simp only [ExchangeState.directConvert, bind_eq_ok, check_eq_ok,
    exists_const, Asset.make_eq_ok] at hconv
  obtain ⟨hne, zero, ⟨_, _, rfl⟩, hconv⟩ := hconv
  split at hconv
  · next hsell =>
      exact absurd (hsell.1.trans hrow.base) hne
  · split at hconv
    · next hsyms =>
        simp only [bind_eq_ok, Asset.add_eq_ok, Asset.sub_eq_ok,
          Asset.div_eq_ok (show (0 : ℤ) < 10000 by decide), pure_eq_ok,
          Prod.mk.injEq] at hconv
        obtain ⟨amount, hout, quote, ⟨_, hquote, rfl⟩, scaled, rfl, base,
          ⟨_, _, rfl⟩, rfl, rfl⟩ := hconv
        have hamount := ExchangeState.getBancorOutput_ok hpos.le hout
        have hnonneg : 0 ≤ amount := by
          rw [hamount]
          unfold mib
          omega
        have hdiv : amount.tdiv 10000 = quant.amount * mib / 10000 := by
          rw [Int.tdiv_eq_ediv_of_nonneg hnonneg, hamount]
        dsimp only at hstock hb hres ⊢
        exact ⟨hsyms.1.trans hrow.quote, hdiv, hb, hstock, hquote, reserved,
          hres, rfl⟩
    · cases hconv

/-- Selling bytes to the exchange: whole lots are paid. -/
theorem directConvert_sell {m : Market} {core : Symbol}
    {row es : ExchangeState} {bytes : ℤ} {out : Asset}
    (hrow : m.HasRow core row) (hpos : 0 < bytes)
    (h : row.directConvert ⟨bytes, memSymbol⟩ core = .ok (es, out)) :
    out = ⟨bytes / mib, core⟩ ∧ Asset.InRange (row.base.amount + bytes) ∧
    es = { row with
      base := { row.base with amount := row.base.amount + bytes }
      quote := { row.quote with
        amount := row.quote.amount - bytes / mib * 10000 } } := by
  simp only [ExchangeState.directConvert, bind_eq_ok, check_eq_ok,
    exists_const, Asset.make_eq_ok] at h
  obtain ⟨hne, zero, ⟨_, _, rfl⟩, h⟩ := h
  rw [if_pos ⟨hrow.base.symm, hrow.quote.symm⟩] at h
  simp only [bind_eq_ok, Asset.add_eq_ok, Asset.sub_eq_ok, Asset.mul_eq_ok,
    pure_eq_ok, Prod.mk.injEq, ExchangeState.getBancorInput_eq hpos.le] at h
  obtain ⟨base, ⟨_, hrange, rfl⟩, scaled, ⟨_, rfl⟩, quote, ⟨_, _, rfl⟩, rfl,
    rfl⟩ := h
  exact ⟨rfl, hrange, rfl⟩

/-- A sale puts the bytes back on the stock and pays whole lots. -/
theorem sell_ok {m m' : Market} {core : Symbol} {row : ExchangeState}
    {bytes : ℤ} {tokens : Asset} (hrow : m.HasRow core row)
    (hpos : 0 < bytes) (h : m.sell bytes = .ok (m', tokens)) :
    tokens = ⟨bytes / mib * 10000, core⟩ ∧ 1 < tokens.amount ∧
    Asset.InRange (row.base.amount + bytes) ∧
    ∃ released, toUInt64 ((bytes / mib : ℤ) * ((mib : ℚ) /
      ((row.base.amount + bytes : ℤ) : ℚ) * i64 m.maxMemSize)) =
        .ok released ∧
    0 ≤ i64 (m.totalMemStake - tokens.amount) ∧
    m' = { m with
      memmarket := some { row with
        base := { row.base with amount := row.base.amount + bytes }
        quote := { row.quote with
          amount := row.quote.amount - tokens.amount } }
      totalMemBytesReserved := u64 (m.totalMemBytesReserved - released)
      totalMemStake := i64 (m.totalMemStake - tokens.amount) } := by
  simp only [sell, hrow.found, hrow.coreSymbol, bind_eq_ok, orStop_eq_ok,
    Option.some.injEq, exists_eq_left', check_eq_ok, exists_const,
    pure_eq_ok, Except.ok.injEq, Asset.make_eq_ok, Prod.mk.injEq] at h
  obtain ⟨_, ⟨_, _, rfl⟩, ⟨es, out⟩, hconv, tokensOut, hmul, hlow, released,
    hrel, hstake, rfl, rfl⟩ := h
  obtain ⟨rfl, hrange, rfl⟩ := directConvert_sell hrow hpos hconv
  simp only [Asset.mul_eq_ok] at hmul
  obtain ⟨_, rfl⟩ := hmul
  rw [Int.tdiv_eq_ediv_of_nonneg hpos.le] at hrel
  exact ⟨rfl, hlow, hrange, released, hrel, hstake, rfl⟩

/-- What a sale pays is in the core token, which it does not touch. -/
theorem sell_coreSymbol {m m' : Market} {bytes : ℤ} {tokens : Asset}
    (h : m.sell bytes = .ok (m', tokens)) :
    m.coreSymbol = .ok tokens.symbol ∧ m'.coreSymbol = .ok tokens.symbol := by
  simp only [sell, bind_eq_ok, orStop_eq_ok, check_eq_ok, exists_const,
    pure_eq_ok, coreSymbol_ok, Asset.mul_eq_ok, Prod.mk.injEq] at h
  obtain ⟨row, hrow, sold, _, core, hcore, ⟨es, out⟩, hconv, _, ⟨_, rfl⟩, _, _,
    _, _, rfl, rfl⟩ := h
  have hold := hcore
  rw [hrow, Option.map_some, Option.some.injEq] at hcore
  have hsyms : es.quote.symbol = core ∧ out.symbol = core := by
    simp only [ExchangeState.directConvert, bind_eq_ok, check_eq_ok,
      exists_const, Asset.make_eq_ok] at hconv
    obtain ⟨_, _, ⟨_, _, rfl⟩, hconv⟩ := hconv
    split at hconv
    · simp only [bind_eq_ok, Asset.add_eq_ok, Asset.sub_eq_ok, pure_eq_ok,
        Prod.mk.injEq] at hconv
      obtain ⟨_, _, _, _, _, ⟨_, _, rfl⟩, rfl, rfl⟩ := hconv
      exact ⟨hcore, rfl⟩
    · split at hconv
      · simp only [bind_eq_ok, Asset.add_eq_ok, Asset.sub_eq_ok, pure_eq_ok,
          Prod.mk.injEq] at hconv
        obtain ⟨_, _, _, ⟨_, _, rfl⟩, _, _, _, _, rfl, rfl⟩ := hconv
        exact ⟨hcore, rfl⟩
      · cases hconv
  simp only [coreSymbol_ok, Option.map_some]
  exact ⟨hold.trans (congrArg some hsyms.2.symm),
    congrArg some (hsyms.1.trans hsyms.2.symm)⟩

end Market

end Inery
