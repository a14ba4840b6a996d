import IneryContracts.MemoryMarket
import IneryContracts.VotingContract

/-!
# Staking and the sale of memory

`changebw` with its four parts (the row of the delegator, the totals of the
receiver, the refund of the delegator, the voting power), the actions built on
it, and the purchases and sales of memory, which stake and unstake as they
trade.
-/

namespace Inery

open GuardedStep LedgerVector MachineInt

namespace System

/-! ## The parts of `changebw` -/

/-- Book a change of stake in the row from one account to another. -/
def bookDelegation (delTbl : KeyedTable DelegatedBandwidth.to')
    (from' receiver : Name) (stakeNetDelta stakeCpuDelta : Asset) :
    Except Abort
      (KeyedTable DelegatedBandwidth.to' × DelegatedBandwidth) := do
  match delTbl.find receiver with
  | none =>
      let dbo : DelegatedBandwidth :=
        ⟨from', receiver, stakeNetDelta, stakeCpuDelta⟩
      let delTbl ← emplace delTbl dbo
      return (delTbl, dbo)
  | some itr =>
      let netWeight ← itr.netWeight.add stakeNetDelta
      let cpuWeight ← itr.cpuWeight.add stakeCpuDelta
      let dbo := { itr with netWeight, cpuWeight }
      let delTbl ← modify delTbl receiver (fun _ => dbo)
      return (delTbl, dbo)

/-- First part of `changebw`: the stake delegated from one account to
another. -/
def updateDelband (delTbl : KeyedTable DelegatedBandwidth.to')
    (from' receiver : Name) (stakeNetDelta stakeCpuDelta : Asset) :
    Except Abort (KeyedTable DelegatedBandwidth.to') := do
  let (delTbl, itr) ← bookDelegation delTbl from' receiver stakeNetDelta
    stakeCpuDelta
  check (0 ≤ itr.netWeight.amount) "insufficient staked net bandwidth"
  check (0 ≤ itr.cpuWeight.amount) "insufficient staked cpu bandwidth"
  return if itr.isEmpty then delTbl.erase receiver else delTbl

/-- Book a change of stake in the totals of the receiver. -/
def bookTotals (totalsTbl : KeyedTable UserResources.owner)
    (receiver : Name) (stakeNetDelta stakeCpuDelta : Asset) :
    Except Abort (KeyedTable UserResources.owner × UserResources) := do
  match totalsTbl.find receiver with
  | none =>
      let tot : UserResources :=
        { owner := receiver
          netWeight := stakeNetDelta
          cpuWeight := stakeCpuDelta }
      let totalsTbl ← emplace totalsTbl tot
      return (totalsTbl, tot)
  | some totItr =>
      let netWeight ← totItr.netWeight.add stakeNetDelta
      let cpuWeight ← totItr.cpuWeight.add stakeCpuDelta
      let tot := { totItr with netWeight, cpuWeight }
      let totalsTbl ← modify totalsTbl receiver (fun _ => tot)
      return (totalsTbl, tot)

/-- Second part of `changebw`, on the table: the totals of the receiver, as
the row that is left for the limits and the table without an empty row. -/
def updateTotals (totalsTbl : KeyedTable UserResources.owner)
    (receiver : Name) (stakeNetDelta stakeCpuDelta : Asset) :
    Except Abort (KeyedTable UserResources.owner × UserResources) := do
  let (totalsTbl, totItr) ← bookTotals totalsTbl receiver stakeNetDelta
    stakeCpuDelta
  check (0 ≤ totItr.netWeight.amount)
    "insufficient staked total net bandwidth"
  check (0 ≤ totItr.cpuWeight.amount)
    "insufficient staked total cpu bandwidth"
  return (if totItr.isEmpty then totalsTbl.erase receiver else totalsTbl,
    totItr)

/-- The flags of an account, all clear where it is no voter. -/
def managedFlags (e : Election) (account : Name) : UInt32 :=
  match e.voters.find account with
  | some voter => voter.flags1
  | none => 0

/-- Second part of `changebw`, on the host: the limits of the receiver. -/
def updateLimits (s : SysState) (receiver : Name) (tot : UserResources) :
    SysState :=
  let flags := managedFlags s.election receiver
  if hasField flags netManaged && hasField flags cpuManaged then s
  else
    let current := s.limits receiver
    s.setResourceLimits receiver
      (if hasField flags memManaged then current.memBytes
        else max (tot.memBytes + memGiftBytes) current.memBytes)
      (if hasField flags netManaged then current.net
        else tot.netWeight.amount)
      (if hasField flags cpuManaged then current.cpu
        else tot.cpuWeight.amount)

/-- What the third part of `changebw` leaves. -/
structure RefundUpdate where
  refunds : KeyedTable RefundRequest.owner
  netBalance : Asset
  cpuBalance : Asset
  needDeferredTrx : Bool

/-- Reuse one part of a refund for `balance`: what is left of the refund, and
what is left to be paid. -/
def reuseRefund (amount balance : Asset) : Except Abort (Asset × Asset) := do
  let left ← amount.sub balance
  if left.amount < 0 then
    return ({ left with amount := 0 }, left.neg)
  else
    return (left, { balance with amount := 0 })

/-- Turn one part of an unstaked amount into a refund: what is refunded, and
what is left to be paid. -/
def startRefund (core : Symbol) (balance : Asset) :
    Except Abort (Asset × Asset) := do
  if balance.amount < 0 then
    return (balance.neg, { balance with amount := 0 })
  else
    let zero ← Asset.make 0 core
    return (zero, balance)

/-- Third part of `changebw`: create or update the refund of `from'`. -/
def updateRefund (ctx : Ctx) (refunds : KeyedTable RefundRequest.owner)
    (core : Except Abort Symbol) (from' receiver : Name)
    (stakeNetDelta stakeCpuDelta : Asset) (transfer : Bool) :
    Except Abort RefundUpdate := do
  let now := ctx.secSinceEpoch
  let isUndelegating :=
    decide (stakeNetDelta.amount + stakeCpuDelta.amount < 0)
  let isDelegatingToSelf := !transfer && decide (from' = receiver)
  let unstaking := decide (stakeNetDelta.amount < 0 ∨ stakeCpuDelta.amount < 0)
  if isDelegatingToSelf || isUndelegating then
    match refunds.find from' with
    | some r =>
        let requestTime := if unstaking then now else r.requestTime
        let (netAmount, netBalance) ← reuseRefund r.netAmount stakeNetDelta
        let (cpuAmount, cpuBalance) ← reuseRefund r.cpuAmount stakeCpuDelta
        let req := { r with requestTime, netAmount, cpuAmount }
        let refunds ← modify refunds from' (fun _ => req)
        check (0 ≤ req.netAmount.amount) "negative net refund amount"
        check (0 ≤ req.cpuAmount.amount) "negative cpu refund amount"
        if req.isEmpty then
          return ⟨refunds.erase from', netBalance, cpuBalance, false⟩
        else
          return ⟨refunds, netBalance, cpuBalance, true⟩
    | none =>
        if unstaking then do
          let core ← core
          let (netAmount, netBalance) ← startRefund core stakeNetDelta
          let (cpuAmount, cpuBalance) ← startRefund core stakeCpuDelta
          let refunds ← emplace refunds ⟨from', now, netAmount, cpuAmount⟩
          return ⟨refunds, netBalance, cpuBalance, true⟩
        else
          return ⟨refunds, stakeNetDelta, stakeCpuDelta, false⟩
  else
    return ⟨refunds, stakeNetDelta, stakeCpuDelta, false⟩

/-- Schedule the refund of an owner anew, or cancel it. -/
def scheduleRefund (ctx : Ctx)
    (deferred : KeyedTable DeferredRefund.senderId) (owner : Name)
    (needDeferredTrx : Bool) : KeyedTable DeferredRefund.senderId :=
  if needDeferredTrx then
    (deferred.erase owner).put
      ⟨owner, ctx.currentTimePoint + refundDelaySec * 1000000⟩
  else
    deferred.erase owner

/-- The refund and the payment of a change of stake: the whole third part of
`changebw` with its transfer. -/
def settleRefund (ctx : Ctx) (s : SysState)
    (sourceStakeFrom from' receiver : Name)
    (stakeNetDelta stakeCpuDelta : Asset) (transfer : Bool) :
    Except Abort SysState := do
  if stakeAccount = sourceStakeFrom then
    return s
  else
    let u ← updateRefund ctx s.refunds s.market.coreSymbol from' receiver
      stakeNetDelta stakeCpuDelta transfer
    let s := { s with
      refunds := u.refunds
      deferred := scheduleRefund ctx s.deferred from' u.needDeferredTrx }
    let transferAmount ← u.netBalance.add u.cpuBalance
    if 0 < transferAmount.amount then
      return s.send [⟨sourceStakeFrom, activePermission⟩]
        (.transfer sourceStakeFrom stakeAccount transferAmount
          "stake bandwidth")
    else
      return s

/-- Models `changebw`. -/
def changebw (env : Env) (ctx : Ctx) (s : SysState)
    (from' receiver : Name) (stakeNetDelta stakeCpuDelta : Asset)
    (transfer : Bool) : Except Abort SysState := do
  ctx.requireAuth from'
  check (stakeNetDelta.amount ≠ 0 ∨ stakeCpuDelta.amount ≠ 0)
    "should stake non-zero amount"
  let total ← stakeNetDelta.add stakeCpuDelta
  check (|total.amount| ≥ max |stakeNetDelta.amount| |stakeCpuDelta.amount|)
    "net and cpu deltas cannot be opposite signs"
  let sourceStakeFrom := from'
  let owner := if transfer then receiver else from'
  let delTbl ← updateDelband (s.delband owner) owner receiver
    stakeNetDelta stakeCpuDelta
  let s := { s with delband := Function.update s.delband owner delTbl }
  let (userres, tot) ← updateTotals s.userres receiver stakeNetDelta
    stakeCpuDelta
  let s := updateLimits { s with userres } receiver tot
  let s ← settleRefund ctx s sourceStakeFrom owner receiver
    stakeNetDelta stakeCpuDelta transfer
  let election ← s.election.updateVotingPower env ctx owner total
  return { s with election }

/-! ## Actions -/

/-- Models `delegatebw`. -/
def delegatebw (env : Env) (ctx : Ctx) (s : SysState)
    (from' receiver : Name) (stakeNetQuantity stakeCpuQuantity : Asset)
    (transfer : Bool) : Except Abort SysState := do
  let core ← s.market.coreSymbol
  let zeroAsset ← Asset.make 0 core
  stakeCpuQuantity.checkGe zeroAsset "must stake a positive amount"
  stakeNetQuantity.checkGe zeroAsset "must stake a positive amount"
  check (i64 (stakeNetQuantity.amount + stakeCpuQuantity.amount) > 0)
    "must stake a positive amount"
  check (transfer = false ∨ from' ≠ receiver)
    "cannot use transfer flag if delegating to self"
  changebw env ctx s from' receiver stakeNetQuantity stakeCpuQuantity transfer

/-- Models `undelegatebw`. -/
def undelegatebw (env : Env) (ctx : Ctx) (s : SysState)
    (from' receiver : Name) (unstakeNetQuantity unstakeCpuQuantity : Asset) :
    Except Abort SysState := do
  let core ← s.market.coreSymbol
  let zeroAsset ← Asset.make 0 core
  unstakeCpuQuantity.checkGe zeroAsset "must unstake a positive amount"
  unstakeNetQuantity.checkGe zeroAsset "must unstake a positive amount"
  check (i64 (unstakeCpuQuantity.amount + unstakeNetQuantity.amount) > 0)
    "must unstake a positive amount"
  changebw env ctx s from' receiver unstakeNetQuantity.neg
    unstakeCpuQuantity.neg false

/-- Models `refund`. -/
def refund (ctx : Ctx) (s : SysState) (owner : Name) :
    Except Abort SysState := do
  ctx.requireAuth owner
  let req ← orStop (s.refunds.find owner) (.check "refund request not found")
  check ((req.requestTime + refundDelaySec) * 1000000 ≤ ctx.currentTimePoint)
    "refund is not available yet"
  let quantity ← req.netAmount.add req.cpuAmount
  let s := s.send
    [⟨stakeAccount, activePermission⟩, ⟨req.owner, activePermission⟩]
    (.transfer stakeAccount req.owner quantity "unstake")
  return { s with refunds := s.refunds.erase owner }

/-- The end of `buyresources` and `sellres`: the memory limit of the account
whose row was traded, unless it is managed. -/
def limitTraded (s : SysState) (row : UserResources) : SysState :=
  if hasField (managedFlags s.election row.owner) memManaged then s
  else
    let current := s.limits row.owner
    s.setResourceLimits row.owner (row.memBytes + memGiftBytes) current.net
      current.cpu

/-- Credit bought bytes to the receiver; the row stays at hand. -/
def creditBytes (core : Symbol) (userres : KeyedTable UserResources.owner)
    (receiver : Name) (bytesOut : ℤ) :
    Except Abort (KeyedTable UserResources.owner × UserResources) := do
  match userres.find receiver with
  | none =>
      let zero ← Asset.make 0 core
      let res : UserResources := ⟨receiver, zero, zero, bytesOut⟩
      let userres ← emplace userres res
      return (userres, res)
  | some resItr =>
      let res := { resItr with memBytes := i64 (resItr.memBytes + bytesOut) }
      let userres ← modify userres receiver (fun _ => res)
      return (userres, res)

/-- Models `buyresources`. -/
def buyresources (env : Env) (ctx : Ctx) (s : SysState)
    (payer receiver : Name) (quant : Asset) : Except Abort SysState := do
  ctx.requireAuth payer
  let market ← s.market.updateMemSupply ctx
  let core ← market.coreSymbol
  check (quant.symbol = core) "must buy MEM with core token"
  check (quant.amount > 0) "must purchase a positive amount"
  let s := s.send [⟨payer, activePermission⟩, ⟨memAccount, activePermission⟩]
    (.transfer payer memAccount quant "buy MEM")
  let (market, bytesOut) ← market.buy quant
  let (userres, res) ← creditBytes core s.userres receiver bytesOut
  let stake ← Asset.make ((bytesOut * 10000).tdiv mib) core
  let s ← delegatebw env ctx { s with market, userres } payer receiver stake
    stake false
  return limitTraded s res

/-- Models `sellres`.  The resource row is read before it is known to exist
and the check for a missing row is never reached. -/
def sellres (env : Env) (ctx : Ctx) (s : SysState) (account : Name)
    (bytes : ℤ) : Except Abort SysState := do
  ctx.requireAuth account
  let market ← s.market.updateMemSupply ctx
  check (bytes > 0) "cannot sell negative byte"
  let prod ← tableGet s.election.producers account "unable to find key"
  let resItr ← deref (s.userres.find account)
  check (prod.isProducer = true → resItr.memBytes - bytes > mib)
    "you can not sell memory, couse you want to sell free resources"
  check (resItr.memBytes ≥ bytes) "insufficient quota"
  let (market, tokensOut) ← market.sell bytes
  let res := { resItr with memBytes := i64 (resItr.memBytes - bytes) }
  let userres ← modify s.userres account (fun _ => res)
  let core ← market.coreSymbol
  let unstake ← Asset.make tokensOut.amount core
  let s ← undelegatebw env ctx { s with market, userres } account account
    unstake unstake
  let s := limitTraded s res
  return s.send [⟨memAccount, activePermission⟩, ⟨account, activePermission⟩]
    (.transfer memAccount account tokensOut "sell MEM")

/-- Models `buymembytes`.  The price is paid once for the memory and staked
twice more, besides the stake that `buyresources` makes itself. -/
def buymembytes (env : Env) (ctx : Ctx) (s : SysState)
    (payer receiver : Name) (bytes : UInt32) : Except Abort SysState := do
  let itr ← deref s.market.memmarket
  let memReserve := itr.base.amount
  let ineReserve := itr.quote.amount
  let cost := ExchangeState.getBancorInput memReserve ineReserve
    bytes.toNat
  let core ← s.market.coreSymbol
  let price ← Asset.make (i64 (cost * 10000)) core
  let s ← buyresources env ctx s payer receiver price
  delegatebw env ctx s payer receiver price price false

end System

end Inery
