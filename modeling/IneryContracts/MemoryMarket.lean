import IneryContracts.SystemTables

/-!
# The memory market

The exchange of core tokens and bytes, the growth of the memory supply, and
the totals the purchases and sales keep beside the market.
-/

namespace Inery

open GuardedStep LedgerVector MachineInt

/-- One mebibyte, the unit of the price. -/
def mib : ℤ := 1024 * 1024

namespace ExchangeState

/-- Models `get_bancor_output`: the reserves do not enter. -/
def getBancorOutput (_inpReserve _outReserve inp : ℤ) : Except Abort ℤ := do
  let out ← toInt64 ((inp : ℚ) * 1024 * 1024)
  return if out < 0 then 0 else out

/-- Models `get_bancor_input`: whole mebibytes, and no reserves either. -/
def getBancorInput (_outReserve _inpReserve out : ℤ) : ℤ :=
  let costInInr := out.tdiv mib
  if costInInr < 0 then 0 else costInInr

/-- Models `direct_convert`: what comes out, and the exchange after it. -/
def directConvert (es : ExchangeState) (sold : Asset) (to' : Symbol) :
    Except Abort (ExchangeState × Asset) := do
  let sellSymbol := sold.symbol
  let baseSymbol := es.base.symbol
  let quoteSymbol := es.quote.symbol
  check (sellSymbol ≠ to') "cannot convert to the same symbol"
  let out ← Asset.make 0 to'
  if sellSymbol = baseSymbol ∧ to' = quoteSymbol then
    let out := { out with
      amount := getBancorInput es.base.amount es.quote.amount sold.amount }
    let base ← es.base.add sold
    let scaled ← out.mul 10000
    let quote ← es.quote.sub scaled
    return ({ es with base, quote }, out)
  else if sellSymbol = quoteSymbol ∧ to' = baseSymbol then
    let amount ←
      getBancorOutput es.quote.amount es.base.amount sold.amount
    let out := { out with amount }
    let quote ← es.quote.add sold
    let scaled ← out.div 10000
    let base ← es.base.sub scaled
    return ({ es with base, quote }, out)
  else
    .error (.check "invalid conversion")

end ExchangeState

namespace Market

/-- The stop of a modification of a market that is not there. -/
def noRow : Abort := .check "cannot pass end iterator to modify"

/-- Models `free_mem`. -/
def freeMem (m : Market) : ℕ := u64 (m.maxMemSize - m.totalMemBytesReserved)

/-- Models `update_mem_supply`: the new memory is a product of 32 bits. -/
def updateMemSupply (ctx : Ctx) (m : Market) : Except Abort Market := do
  let cbt := ctx.slot
  if cbt ≤ m.lastMemIncrease then
    return m
  else
    let newMem := (cbt - m.lastMemIncrease) * m.newMemPerBlock.toUInt32
    let row ← orStop m.memmarket noRow
    let amount := i64 (row.base.amount + newMem.toNat)
    return { m with
      maxMemSize := u64 (m.maxMemSize + newMem.toNat)
      memmarket := some { row with base := { row.base with amount } }
      lastMemIncrease := cbt }

/-- Models `setmem`. -/
def setmem (ctx : Ctx) (m : Market) (maxMemSize : UInt64) :
    Except Abort Market := do
  ctx.requireAuth systemAccount
  let size := maxMemSize.toNat
  check (m.maxMemSize < size) "mem may only be increased"
  check (size < 1024 * 1024 * 1024 * 1024 * 1024) "mem size is unrealistic"
  check (size > m.totalMemBytesReserved) "attempt to set max below reserved"
  let delta : ℤ := i64 (i64 size - i64 m.maxMemSize)
  let row ← orStop m.memmarket noRow
  let amount := i64 (row.base.amount + delta)
  return { m with
    memmarket := some { row with base := { row.base with amount } }
    maxMemSize := size }

/-- Models `setmemrate`. -/
def setmemrate (ctx : Ctx) (m : Market) (bytesPerBlock : UInt16) :
    Except Abort Market := do
  ctx.requireAuth systemAccount
  let m ← m.updateMemSupply ctx
  return { m with newMemPerBlock := bytesPerBlock }

/-- Models `init`. -/
def init (ctx : Ctx) (t : TokenState) (m : Market) (version : ℕ)
    (core : Symbol) : Except Abort Market := do
  ctx.requireAuth systemAccount
  check (version = 0) "unsupported version for init action"
  check m.memmarket.isNone "system contract has already been initialized"
  let systemTokenSupply ← Token.getSupply t core.code
  check (systemTokenSupply.symbol = core)
    "specified core symbol does not exist (precision mismatch)"
  check (systemTokenSupply.amount > 0)
    "system token supply must be greater than 0"
  return { m with
    memmarket := some
      { supply := ⟨100000000000000, memcoreSymbol⟩
        base := ⟨truncate (3535 / 10 * 1024 * 1024 * 1024 * 1024), memSymbol⟩
        quote := ⟨systemTokenSupply.amount.tdiv 1000, core⟩ } }

/-- The trade inside `buyresources`: the bytes bought, and the market after
the two totals beside it have been raised. -/
def buy (m : Market) (quant : Asset) : Except Abort (Market × ℤ) := do
  let market ← orStop m.memmarket (.check "MEM market does not exist")
  let memoryBalance := market.base.amount
  let (es, out) ← market.directConvert quant memSymbol
  let bytesOut := out.amount.tdiv 10000
  check (es.base.amount > bytesOut) "error, there is no more memory to buy"
  let maxMemSizeI := i64 m.maxMemSize
  let commitMem : ℚ := (bytesOut : ℚ) / memoryBalance * maxMemSizeI
  check (bytesOut > 0) "must reserve a positive amount"
  let reserved ← toUInt64 commitMem
  return ({ m with
    memmarket := some es
    totalMemBytesReserved := u64 (m.totalMemBytesReserved + reserved)
    totalMemStake := i64 (m.totalMemStake + quant.amount) }, bytesOut)

/-- The trade inside `sellres`: the tokens paid out, and the market after the
two totals beside it have been lowered. -/
def sell (m : Market) (bytes : ℤ) : Except Abort (Market × Asset) := do
  let itr ← orStop m.memmarket noRow
  let sold ← Asset.make bytes memSymbol
  let core ← m.coreSymbol
  let (es, out) ← itr.directConvert sold core
  let tokensOut ← out.mul 10000
  check (tokensOut.amount > 1)
    "token amount received from selling MEM is too low"
  let memoryBalance := es.base.amount
  let maxMemSizeI := i64 m.maxMemSize
  let commitMem : ℚ := (mib : ℚ) / memoryBalance * maxMemSizeI
  let pom2 : ℚ := (bytes.tdiv mib : ℤ) * commitMem
  let released ← toUInt64 pom2
  let totalMemStake := i64 (m.totalMemStake - tokensOut.amount)
  check (totalMemStake ≥ 0)
    "error, attempt to unstake more tokens than previously staked"
  return ({ m with
    memmarket := some es
    totalMemBytesReserved := u64 (m.totalMemBytesReserved - released)
    totalMemStake }, tokensOut)

end Market

end Inery
