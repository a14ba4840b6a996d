import IneryContracts.NearestDouble
import IneryContracts.StakeContract
import Mathlib.Data.List.Sort

/-!
# The rest of the system contract

Block production and the pay of producers, the settings of the system
account, the creation of accounts, and the dispatch of all actions.
-/

namespace Inery

open GuardedStep LedgerVector MachineInt NearestDouble

namespace System

/-! ## Blocks and schedules -/

/-- Models the iteration of the index `prototalvote`: ascending sort keys, equal
keys by name. -/
def byVotesIndex (e : Election) : List ProducerInfo :=
  e.producers.rows.insertionSort (fun p q =>
    p.byVotes < q.byVotes ∨
      p.byVotes = q.byVotes ∧ p.owner.value ≤ q.owner.value)

/-- The 16-bit sort key a vote weight is stored in. -/
def scheduleKey (totalVotes : ℚ) : ℕ :=
  if totalVotes < 2 ^ 32 then (truncate totalVotes).toNat % 2 ^ 16 else 0

/-- Models the first half of `update_elected_producers`: the producers at the
head of the index that are active and have votes, at most 101 of them. -/
def topProducers (e : Election) : List (ProducerAuthority × ℕ) :=
  (((byVotesIndex e).take 101).takeWhile
    (fun p => decide (0 < p.totalVotes) && p.isActive)).map
    (fun p => (⟨p.owner, p.getProducerAuthority⟩, scheduleKey p.totalVotes))

/-- Models `update_elected_producers`. -/
def updateElectedProducers (s : SysState) (blockTime : UInt32) : SysState :=
  let s := { s with lastProducerScheduleUpdate := blockTime }
  let top := topProducers s.election
  if top.length = 0 ∨ top.length < s.lastProducerScheduleSize then s
  else
    let sorted := top.insertionSort (fun a b => a.2 ≤ b.2)
    { s with proposed := s.proposed ++ [sorted.map (·.1)] }

/-- The part of `onblock` that counts a block of a registered producer. -/
def countBlock (s : SysState) (producer : Name) : Except Abort SysState := do
  match s.election.producers.find producer with
  | some _ =>
      let producers ← modify s.election.producers producer (fun p =>
        { p with unpaidBlocks := u32 (p.unpaidBlocks + 1) })
      return { s with
        election := { s.election with producers }
        pay := { s.pay with
          totalUnpaidBlocks := u32 (s.pay.totalUnpaidBlocks + 1) } }
  | none => return s

/-- Models `onblock`. -/
def onblock (ctx : Ctx) (s : SysState) (timestamp : UInt32)
    (producer : Name) : Except Abort SysState := do
  ctx.requireAuth systemAccount
  let s := { s with lastBlockNum := timestamp }
  if s.election.threshActivatedStakeTime = 0 then
    return s
  else
    let fill := if s.pay.lastPervoteBucketFill = 0 then ctx.currentTimePoint
      else s.pay.lastPervoteBucketFill
    let s := { s with pay := { s.pay with lastPervoteBucketFill := fill } }
    let s ← countBlock s producer
    if timestamp - s.lastProducerScheduleUpdate > 1 then
      return updateElectedProducers s timestamp
    else
      return s

/-! ## Pay -/

/-- The shares of newly issued tokens. -/
structure Inflation where
  newTokens : ℤ
  toSavings : ℤ
  toPerBlockPay : ℤ
  toPerVotePay : ℤ

/-- The division of new tokens by the two factors, which `setinflation` keeps
positive. -/
def splitInflation (pay : PayState) (newTokens : ℤ) : Inflation :=
  let toProducers := i64
    ((newTokens * payFactorPrecision).tdiv pay.inflationPayFactor)
  let toPerBlockPay := i64
    ((toProducers * payFactorPrecision).tdiv pay.votepayFactor)
  { newTokens
    toSavings := newTokens - toProducers
    toPerBlockPay
    toPerVotePay := toProducers - toPerBlockPay }

/-- Send a transfer of the system account when there is something to send. -/
def sendShare (s : SysState) (core : Symbol) (to' : Name) (amount : ℤ)
    (memo : String) : Except Abort SysState := do
  if amount > 0 then
    let quantity ← Asset.make amount core
    return s.send [⟨systemAccount, activePermission⟩]
      (.transfer systemAccount to' quantity memo)
  else
    return s

/-- Issue new tokens to the system account and send on their shares. -/
def distribute (s : SysState) (core : Symbol) (inflation : Inflation) :
    Except Abort SysState := do
  if inflation.newTokens > 0 then
    let quantity ← Asset.make inflation.newTokens core
    let s := s.send [⟨systemAccount, activePermission⟩]
      (.issue systemAccount quantity
        "issue tokens for producer pay and savings")
    let s ← sendShare s core savingAccount inflation.toSavings
      "unallocated inflation"
    let s ← sendShare s core bpayAccount inflation.toPerBlockPay
      "fund per-block bucket"
    sendShare s core vpayAccount inflation.toPerVotePay
      "fund per-vote bucket"
  else
    return s

/-- The whole tokens of an amount of inflation. -/
def wholeTokens (additionalInflation : ℚ) : Except Abort ℤ :=
  if additionalInflation < 0 then .ok 0 else toInt64 additionalInflation

/-- The first half of `claimrewards`: issue the inflation since the last
fill and distribute it. -/
def fillBuckets (ctx : Ctx) (t : TokenState) (s : SysState) :
    Except Abort SysState := do
  let ct := ctx.currentTimePoint
  let core ← s.market.coreSymbol
  let tokenSupply ← Token.getSupply t core.code
  let usecsSinceLastFill := ct - s.pay.lastPervoteBucketFill
  if usecsSinceLastFill > 0 ∧ s.pay.lastPervoteBucketFill > 0 then
    let additionalInflation : ℚ := s.pay.continuousRate * tokenSupply.amount *
      (usecsSinceLastFill : ℤ) / (usecondsPerYear : ℤ)
    check (additionalInflation ≤ ((2 ^ 63 - 1 - (2 ^ 10 - 1) : ℤ) : ℚ))
      "overflow in calculating new tokens to be issued; inflation rate is too high"
    let newTokens ← wholeTokens additionalInflation
    let inflation := splitInflation s.pay newTokens
    let s ← distribute s core inflation
    return { s with pay := { s.pay with
      pervoteBucket := i64 (s.pay.pervoteBucket + inflation.toPerVotePay)
      perblockBucket := i64 (s.pay.perblockBucket + inflation.toPerBlockPay)
      lastPervoteBucketFill := ct } }
  else
    return s

/-- The pay per vote of a producer, before the minimum is applied. -/
def perVotePay (pay : PayState) (e : Election) (totalVotes : ℚ)
    (newVotepayShare : ℚ) (crossedThreshold : Bool) : ℚ :=
  if pay.revision > 0 then
    if e.totalProducerVotepayShare > 0 ∧ crossedThreshold = false then
      min (newVotepayShare * pay.pervoteBucket / e.totalProducerVotepayShare)
        pay.pervoteBucket
    else 0
  else if e.totalProducerVoteWeight > 0 then
    pay.pervoteBucket * totalVotes / e.totalProducerVoteWeight
  else 0

/-- Send the pay of a producer when there is something to pay. -/
def sendPay (s : SysState) (core : Symbol) (bucket owner : Name)
    (amount : ℚ) (memo : String) : Except Abort SysState := do
  if amount > 0 then
    let units ← toInt64 amount
    let quantity ← Asset.make units core
    return s.send [⟨bucket, activePermission⟩, ⟨owner, activePermission⟩]
      (.transfer bucket owner quantity memo)
  else
    return s

/-- The row of `producers2` that a claim settles, created where it is missing,
and whether it was updated after the last claim and three days. -/
def claimedProd2 (e : Election) (owner : Name) (ct lastClaimPlus3days : ℤ) :
    Except Abort (Election × ProducerInfo2 × Bool) := do
  match e.producers2.find owner with
  | some prod2 =>
      return (e, prod2,
        decide (lastClaimPlus3days ≤ prod2.lastVotepayShareUpdate))
  | none =>
      let prod2 : ProducerInfo2 :=
        { owner := owner, lastVotepayShareUpdate := ct }
      let producers2 ← emplace e.producers2 prod2
      return ({ e with producers2 }, prod2, true)

/-- Models `claimrewards`.  The pay per block is rounded to a double, and so is
the bucket when it is paid from; the other doubles are exact rationals. -/
def claimrewards (ctx : Ctx) (t : TokenState) (s : SysState) (owner : Name) :
    Except Abort SysState := do
  ctx.requireAuth owner
  let prod ← tableGet s.election.producers owner "unable to find key"
  check (prod.isActive = true) "producer does not have an active key"
  let ct := ctx.currentTimePoint
  check (ct - prod.lastClaimTime > usecondsPerDay)
    "already claimed rewards within past day"
  let s ← fillBuckets ctx t s
  let core ← s.market.coreSymbol
  let lastClaimPlus3days := prod.lastClaimTime + 3 * usecondsPerDay
  let crossedThreshold := decide (lastClaimPlus3days ≤ ct)
  let (e, prod2, updatedAfterThreshold) ← claimedProd2 s.election owner ct
    lastClaimPlus3days
  let producerPerBlockPay : ℤ :=
    if s.pay.totalUnpaidBlocks > 0 then
      toDouble ((i64 (s.pay.perblockBucket * prod.unpaidBlocks)).tdiv
        s.pay.totalUnpaidBlocks)
    else 0
  let (e, newVotepayShare) ← e.updateProducerVotepayShare prod2 ct
      (if updatedAfterThreshold then 0 else prod.totalVotes) true
  let e := if s.pay.revision > 0 then e.updateTotalVotepayShare ct 0 0 else e
  let pay := perVotePay s.pay e prod.totalVotes newVotepayShare
    crossedThreshold
  let producerPerVotePay := if pay < minPervoteDailyPay then 0 else pay
  let pervoteBucket ← toInt64 (s.pay.pervoteBucket - producerPerVotePay)
  let perblockBucket ← toInt64
    (toDouble (toDouble s.pay.perblockBucket - producerPerBlockPay) : ℤ)
  let e := e.updateTotalVotepayShare ct (-newVotepayShare)
    (if updatedAfterThreshold then prod.totalVotes else 0)
  let producers ← modify e.producers owner (fun p =>
    { p with lastClaimTime := ct, unpaidBlocks := 0 })
  let s := { s with
    election := { e with producers }
    pay := { s.pay with
      pervoteBucket
      perblockBucket
      totalUnpaidBlocks :=
        u32 (s.pay.totalUnpaidBlocks - prod.unpaidBlocks) } }
  let s ← sendPay s core bpayAccount owner producerPerBlockPay
    "producer block pay"
  let s ← sendPay s core vpayAccount owner producerPerVotePay
    "producer vote pay"
  let tokensFlow : ℚ := producerPerBlockPay / 10000 + producerPerVotePay / 10000
  let producers ← modify s.election.producers owner (fun info =>
    { info with tokensClaim := info.tokensClaim + tokensFlow })
  return { s with election := { s.election with producers } }

/-! ## Settings -/

/-- Models `setinflation`. -/
def setinflation (env : Env) (ctx : Ctx) (s : SysState)
    (annualRate inflationPayFactor votepayFactor : ℤ) :
    Except Abort SysState := do
  ctx.requireAuth systemAccount
  check (annualRate ≥ 0) "annual_rate can't be negative"
  check (¬ inflationPayFactor < payFactorPrecision)
    "inflation_pay_factor must not be less than 10000"
  check (¬ votepayFactor < payFactorPrecision)
    "votepay_factor must not be less than 10000"
  return { s with pay := { s.pay with
    continuousRate := env.continuousRate annualRate
    inflationPayFactor
    votepayFactor } }

/-- Models `setparams`. -/
def setparams (ctx : Ctx) (s : SysState) (params : BlockchainParameters) :
    Except Abort SysState := do
  ctx.requireAuth systemAccount
  let s := { s with parameters := params }
  check (3 ≤ s.parameters.maxAuthorityDepth)
    "max_authority_depth should be at least 3"
  return s.setBlockchainParameters params

/-- Models `setalimits`. -/
def setalimits (ctx : Ctx) (s : SysState) (account : Name)
    (mem net cpu : ℤ) : Except Abort SysState := do
  ctx.requireAuth systemAccount
  check (s.userres.find account).isNone "only supports unlimited accounts"
  let flags := managedFlags s.election account
  check (¬ (hasField flags memManaged ∨ hasField flags netManaged ∨
      hasField flags cpuManaged))
    "cannot use setalimits on an account with managed resources"
  return s.setResourceLimits account mem net cpu

/-- Set or clear one flag of an account; setting it makes the account a
voter. -/
def setManaged (e : Election) (account : Name) (field : UInt32)
    (value : Bool) : Except Abort Election := do
  match e.voters.find account with
  | some _ =>
      let voters ← modify e.voters account (fun v =>
        { v with flags1 := setField v.flags1 field value })
      return { e with voters }
  | none =>
      let voters ← emplace e.voters
        { owner := account, flags1 := setField 0 field value }
      return { e with voters }

/-- The common part of `setacctmem`, `setacctnet` and `setacctcpu`: the flag
of the resource and the new limit.  Without a limit the flag must be set and
`unmanaged` gives the limit of the stake. -/
def setManagedLimit (ctx : Ctx) (s : SysState) (account : Name)
    (field : UInt32) (limit : Option ℤ) (least : ℤ)
    (unmanaged : Option UserResources → ℤ) (msgUnmanaged msgInvalid : String) :
    Except Abort (SysState × ℤ) := do
  ctx.requireAuth systemAccount
  match limit with
  | none =>
      check (hasField (managedFlags s.election account) field = true)
        msgUnmanaged
      let election ← setManaged s.election account field false
      return ({ s with election }, unmanaged (s.userres.find account))
  | some value =>
      check (value ≥ least) msgInvalid
      let election ← setManaged s.election account field true
      return ({ s with election }, value)

/-- Models `setacctmem`. -/
def setacctmem (ctx : Ctx) (s : SysState) (account : Name)
    (memBytes : Option ℤ) : Except Abort SysState := do
  let current := s.limits account
  let (s, mem) ← setManagedLimit ctx s account memManaged memBytes 0
    (fun ritr => memGiftBytes + ritr.elim 0 (·.memBytes))
    "MEM of account is already unmanaged"
    "not allowed to set MEM limit to unlimited"
  return s.setResourceLimits account mem current.net current.cpu

/-- Models `setacctnet`. -/
def setacctnet (ctx : Ctx) (s : SysState) (account : Name)
    (netWeight : Option ℤ) : Except Abort SysState := do
  let current := s.limits account
  let (s, net) ← setManagedLimit ctx s account netManaged netWeight (-1)
    (fun ritr => ritr.elim 0 (·.netWeight.amount))
    "Network bandwidth of account is already unmanaged"
    "invalid value for net_weight"
  return s.setResourceLimits account current.memBytes net current.cpu

/-- Models `setacctcpu`. -/
def setacctcpu (ctx : Ctx) (s : SysState) (account : Name)
    (cpuWeight : Option ℤ) : Except Abort SysState := do
  let current := s.limits account
  let (s, cpu) ← setManagedLimit ctx s account cpuManaged cpuWeight (-1)
    (fun ritr => ritr.elim 0 (·.cpuWeight.amount))
    "CPU bandwidth of account is already unmanaged"
    "invalid value for cpu_weight"
  return s.setResourceLimits account current.memBytes current.net cpu

/-- Models `newaccount`.  The source looks for dots in the name, and for
nothing else, and does not use what it finds. -/
def newaccount (ctx : Ctx) (s : SysState) (_creator newact : Name) :
    Except Abort SysState := do
  ctx.requireAuth accountCreator
  let core ← s.market.coreSymbol
  let zero ← Asset.make 0 core
  let userres ← emplace s.userres
    { owner := newact, netWeight := zero, cpuWeight := zero }
  return ({ s with userres }).setResourceLimits newact 0 0 0

/-- Models `setabi`, which asks for no authority: it is left to the host who
may send it. -/
def setabi (env : Env) (s : SysState) (account : Name) (abi : List UInt8) :
    Except Abort SysState := do
  match s.abihash.find account with
  | none =>
      let table ← emplace s.abihash ⟨account, env.sha256 abi⟩
      return { s with abihash := table }
  | some _ =>
      let table ← modify s.abihash account (fun row =>
        { row with hash := env.sha256 abi })
      return { s with abihash := table }

end System

/-! ## Dispatch -/

/-- The actions of the system contract.  `privileged` stands for `setpriv` and
`activate`, which only pass a request of the system account on to the host. -/
inductive SysAction
  | init (version : ℕ) (core : Symbol)
  | onblock (timestamp : UInt32) (producer : Name)
  | setalimits (account : Name) (mem net cpu : ℤ)
  | setacctmem (account : Name) (memBytes : Option ℤ)
  | setacctnet (account : Name) (netWeight : Option ℤ)
  | setacctcpu (account : Name) (cpuWeight : Option ℤ)
  | delegatebw (from' receiver : Name) (net cpu : Asset) (transfer : Bool)
  | undelegatebw (from' receiver : Name) (net cpu : Asset)
  | buyresources (payer receiver : Name) (quant : Asset)
  | buymembytes (payer receiver : Name) (bytes : UInt32)
  | sellres (account : Name) (bytes : ℤ)
  | refund (owner : Name)
  | regproducer (producer : Name) (producerKey : PublicKey) (url : String)
      (location : UInt16)
  | regproducer2 (producer : Name) (authority : BlockSigningAuthority)
      (url : String) (location : UInt16)
  | unregprod (producer : Name)
  | setmem (maxMemSize : UInt64)
  | setmemrate (bytesPerBlock : UInt16)
  | makeprod (voter proxy : Name) (producers : List Name)
  | regproxy (proxy : Name) (isproxy : Bool)
  | setparams (params : BlockchainParameters)
  | claimrewards (owner : Name)
  | rmvproducer (producer : Name)
  | setinflation (annualRate inflationPayFactor votepayFactor : ℤ)
  | newaccount (creator newact : Name)
  | setabi (account : Name) (abi : List UInt8)
  | privileged

namespace System

/-- Run one action of the system contract; the token tables are only read. -/
def apply (env : Env) (ctx : Ctx) (t : TokenState) (s : SysState) :
    SysAction → Except Abort SysState
  | .init version core => do
      let market ← s.market.init ctx t version core
      return { s with market }
  | .onblock timestamp producer => onblock ctx s timestamp producer
  | .setalimits account mem net cpu => setalimits ctx s account mem net cpu
  | .setacctmem account memBytes => setacctmem ctx s account memBytes
  | .setacctnet account netWeight => setacctnet ctx s account netWeight
  | .setacctcpu account cpuWeight => setacctcpu ctx s account cpuWeight
  | .delegatebw from' receiver net cpu transfer =>
      delegatebw env ctx s from' receiver net cpu transfer
  | .undelegatebw from' receiver net cpu =>
      undelegatebw env ctx s from' receiver net cpu
  | .buyresources payer receiver quant =>
      buyresources env ctx s payer receiver quant
  | .buymembytes payer receiver bytes =>
      buymembytes env ctx s payer receiver bytes
  | .sellres account bytes => sellres env ctx s account bytes
  | .refund owner => refund ctx s owner
  | .regproducer producer producerKey url location =>
      regproducer ctx s producer producerKey url location
  | .regproducer2 producer authority url location =>
      regproducer2 env ctx s producer authority url location
  | .unregprod producer => unregprod ctx s producer
  | .setmem maxMemSize => do
      let market ← s.market.setmem ctx maxMemSize
      return { s with market }
  | .setmemrate bytesPerBlock => do
      let market ← s.market.setmemrate ctx bytesPerBlock
      return { s with market }
  | .makeprod voter proxy producers =>
      makeprod env ctx t s voter proxy producers
  | .regproxy proxy isproxy => regproxy env ctx s proxy isproxy
  | .setparams params => setparams ctx s params
  | .claimrewards owner => claimrewards ctx t s owner
  | .rmvproducer producer => rmvproducer ctx s producer
  | .setinflation annualRate inflationPayFactor votepayFactor =>
      setinflation env ctx s annualRate inflationPayFactor votepayFactor
  | .newaccount creator newact => newaccount ctx s creator newact
  | .setabi account abi => setabi env s account abi
  | .privileged => do
      ctx.requireAuth systemAccount
      return s

end System

end Inery
