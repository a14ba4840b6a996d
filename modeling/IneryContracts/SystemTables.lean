import IneryContracts.TokenContract

/-!
# The tables of the system contract

The rows of the system contract's tables, its global state, and what it asks
of the host.  The fields of the four global singletons are grouped by the
part of the contract that works on them: the election of producers, the
memory market, the pay of producers.  Vote weights and shares, which the
source keeps in `double`, are rationals.  Table scopes that always equal the
key of the one row they hold are merged into one table.
-/

namespace Inery

open GuardedStep LedgerVector MachineInt

/-! ## Constants -/

def secondsPerDay : ℤ := 24 * 3600
def secondsPerYear : ℤ := 52 * 7 * 24 * 3600
def usecondsPerDay : ℤ := secondsPerDay * 1000000
def usecondsPerYear : ℤ := secondsPerYear * 1000000
def minActivatedStake : ℤ := 10000
def memGiftBytes : ℤ := 1400
def minPervoteDailyPay : ℚ := 1000000
def refundDelaySec : ℤ := 3 * secondsPerDay
def defaultAnnualRate : ℤ := 500
def payFactorPrecision : ℤ := 10000
def defaultInflationPayFactor : ℤ := 50000
def defaultVotepayFactor : ℤ := 40000

/-! ## Producers and voters -/

/-- A public key; the default key is empty. -/
structure PublicKey where
  data : List UInt8 := []
deriving DecidableEq, Repr

/-- Models `key_weight`. -/
structure KeyWeight where
  key : PublicKey
  weight : UInt16
deriving DecidableEq, Repr

/-- Models `block_signing_authority`, of which there is one version. -/
structure BlockSigningAuthority where
  threshold : UInt32
  keys : List KeyWeight
deriving DecidableEq, Repr

/-- Models `convert_to_block_signing_authority`. -/
def convertToBlockSigningAuthority (producerKey : PublicKey) :
    BlockSigningAuthority :=
  ⟨1, [⟨producerKey, 1⟩]⟩

/-- A row of the `producers` table. -/
structure ProducerInfo where
  owner : Name
  totalVotes : ℚ := 0
  producerKey : PublicKey := {}
  isActive : Bool := false
  url : String := ""
  unpaidBlocks : ℕ := 0
  lastClaimTime : ℤ := 0
  location : UInt16 := 0
  isProducer : Bool := false
  tokensClaim : ℚ := 0
  producerAuthority : Option BlockSigningAuthority := none
deriving DecidableEq

namespace ProducerInfo

/-- The sort key of the index `prototalvote`. -/
def byVotes (p : ProducerInfo) : ℚ :=
  if p.isActive then -p.totalVotes else p.totalVotes

def deactivate (p : ProducerInfo) : ProducerInfo :=
  { p with
    producerKey := {}
    producerAuthority := none
    isActive := false
    isProducer := false }

/-- Models `get_producer_authority`. -/
def getProducerAuthority (p : ProducerInfo) : BlockSigningAuthority :=
  match p.producerAuthority with
  | some auth =>
      if auth.threshold ≠ 0 then auth
      else convertToBlockSigningAuthority p.producerKey
  | none => convertToBlockSigningAuthority p.producerKey

end ProducerInfo

/-- A row of the `producers2` table. -/
structure ProducerInfo2 where
  owner : Name
  votepayShare : ℚ := 0
  lastVotepayShareUpdate : ℤ := 0
deriving DecidableEq

/-- A row of the `voters` table. -/
structure VoterInfo where
  owner : Name
  proxy : Name := .none
  producers : List Name := []
  staked : ℤ := 0
  lastVoteWeight : ℚ := 0
  proxiedVoteWeight : ℚ := 0
  isProxy : Bool := false
  flags1 : UInt32 := 0
deriving DecidableEq

def memManaged : UInt32 := 1
def netManaged : UInt32 := 2
def cpuManaged : UInt32 := 4

/-- Models `has_field`. -/
def hasField (flags field : UInt32) : Bool := flags &&& field ≠ 0

/-- Models `set_field`. -/
def setField (flags field : UInt32) (value : Bool) : UInt32 :=
  if value then flags ||| field else flags &&& ~~~field

/-- A row of the `accountsact` table. -/
structure AccountActivity where
  owner : Name
  isActiveProd : Bool := false
deriving DecidableEq

/-- The tables and totals that voting works on. -/
structure Election where
  voters : KeyedTable VoterInfo.owner
  producers : KeyedTable ProducerInfo.owner
  producers2 : KeyedTable ProducerInfo2.owner
  totalActivatedStake : ℤ
  threshActivatedStakeTime : ℤ
  totalProducerVoteWeight : ℚ
  totalProducerVotepayShare : ℚ
  lastVpayStateUpdate : ℤ
  totalVpayShareChangeRate : ℚ
  /-- What the clamp of negative totals in `update_votes` has added so far;
  no code reads it. -/
  clampedVotes : ℚ

/-! ## Resources -/

/-- A row of the `userres` table. -/
structure UserResources where
  owner : Name
  netWeight : Asset
  cpuWeight : Asset
  memBytes : ℤ := 0
deriving DecidableEq

def UserResources.isEmpty (r : UserResources) : Bool :=
  r.netWeight.amount = 0 && r.cpuWeight.amount = 0 && r.memBytes = 0

/-- A row of the `delband` table; the scope is the delegator. -/
structure DelegatedBandwidth where
  from' : Name
  to' : Name
  netWeight : Asset
  cpuWeight : Asset
deriving DecidableEq

def DelegatedBandwidth.isEmpty (d : DelegatedBandwidth) : Bool :=
  d.netWeight.amount = 0 && d.cpuWeight.amount = 0

/-- A row of the `refunds` table; the time is in seconds. -/
structure RefundRequest where
  owner : Name
  requestTime : ℤ
  netAmount : Asset
  cpuAmount : Asset
deriving DecidableEq

def RefundRequest.isEmpty (r : RefundRequest) : Bool :=
  r.netAmount.amount = 0 && r.cpuAmount.amount = 0

/-- The row of the `memmarket` table. -/
structure ExchangeState where
  supply : Asset
  base : Asset
  quote : Asset
deriving DecidableEq

/-- The memory market and the totals kept beside it. -/
structure Market where
  memmarket : Option ExchangeState
  maxMemSize : ℕ
  totalMemBytesReserved : ℕ
  totalMemStake : ℤ
  newMemPerBlock : UInt16
  lastMemIncrease : UInt32
deriving DecidableEq

/-! ## The host's side -/

/-- The limits of an account's resources, `-1` for unlimited. -/
structure ResourceLimits where
  memBytes : ℤ
  net : ℤ
  cpu : ℤ
deriving DecidableEq

/-- A scheduled `refund`: its sender id is the owner of the refund. -/
structure DeferredRefund where
  senderId : Name
  executeAfter : ℤ
deriving DecidableEq

/-- An inline action of the token contract with its authorisation. -/
structure InlineAction where
  auths : List PermissionLevel
  action : TokenAction
deriving DecidableEq

/-- An entry of a proposed schedule. -/
structure ProducerAuthority where
  producerName : Name
  authority : BlockSigningAuthority
deriving DecidableEq

/-! ## The whole contract -/

/-- What the pay of producers works on. -/
structure PayState where
  lastPervoteBucketFill : ℤ
  pervoteBucket : ℤ
  perblockBucket : ℤ
  totalUnpaidBlocks : ℕ
  continuousRate : ℚ
  inflationPayFactor : ℤ
  votepayFactor : ℤ
  revision : UInt8
deriving DecidableEq

/-- A row of the `abihash` table. -/
structure AbiHash where
  owner : Name
  hash : List UInt8
deriving DecidableEq

/-- Models `blockchain_parameters`. -/
structure BlockchainParameters where
  maxBlockNetUsage : UInt64
  targetBlockNetUsagePct : UInt32
  maxTransactionNetUsage : UInt32
  basePerTransactionNetUsage : UInt32
  netUsageLeeway : UInt32
  contextFreeDiscountNetUsageNum : UInt32
  contextFreeDiscountNetUsageDen : UInt32
  maxBlockCpuUsage : UInt32
  targetBlockCpuUsagePct : UInt32
  maxTransactionCpuUsage : UInt32
  minTransactionCpuUsage : UInt32
  maxTransactionLifetime : UInt32
  deferredTrxExpirationWindow : UInt32
  maxTransactionDelay : UInt32
  maxInlineActionSize : UInt32
  maxInlineActionDepth : UInt16
  maxAuthorityDepth : UInt16
deriving DecidableEq

/-- The state of the system contract and of the host as far as the contract
works on it: `hostParameters`, `limits`, `deferred` and `proposed` are the
host's, `outbox` is what the running action has sent so far. -/
structure SysState where
  election : Election
  accountsact : KeyedTable AccountActivity.owner
  market : Market
  userres : KeyedTable UserResources.owner
  delband : Name → KeyedTable DelegatedBandwidth.to'
  refunds : KeyedTable RefundRequest.owner
  pay : PayState
  lastProducerScheduleUpdate : UInt32
  lastProducerScheduleSize : ℕ
  lastBlockNum : UInt32
  parameters : BlockchainParameters
  abihash : KeyedTable AbiHash.owner
  hostParameters : BlockchainParameters
  limits : Name → ResourceLimits
  deferred : KeyedTable DeferredRefund.senderId
  proposed : List (List ProducerAuthority)
  outbox : List InlineAction
  /-- How often a field was read through an end iterator without any use of
  the value; no code reads it. -/
  idleEndReads : ℕ

/-- What the contract takes from outside of it: the growth of vote weights
with time, the rate of inflation, the checks and hashes of the library and the
parameters that the host starts with. -/
structure Env where
  voteFactor : UInt32 → ℚ
  voteFactor_pos : ∀ slot, 0 < voteFactor slot
  voteFactor_mono : ∀ s t, s ≤ t → voteFactor s ≤ voteFactor t
  continuousRate : ℤ → ℚ
  authorityIsValid : BlockSigningAuthority → Bool
  sha256 : List UInt8 → List UInt8
  blockchainParameters : BlockchainParameters

namespace SysState

/-- Models `get_prod_activity`. -/
def getProdActivity (s : SysState) (owner : Name) : Bool :=
  match s.accountsact.find owner with
  | some prodAct => prodAct.isActiveProd
  | none => false

/-- Ask the host to run an inline action of the token contract. -/
def send (s : SysState) (auths : List PermissionLevel) (a : TokenAction) :
    SysState :=
  { s with outbox := s.outbox ++ [⟨auths, a⟩] }

/-- Models `set_resource_limits`. -/
def setResourceLimits (s : SysState) (account : Name)
    (memBytes net cpu : ℤ) : SysState :=
  { s with limits := Function.update s.limits account ⟨memBytes, net, cpu⟩ }

/-- Models `set_blockchain_parameters`. -/
def setBlockchainParameters (s : SysState) (params : BlockchainParameters) :
    SysState :=
  { s with hostParameters := params }

/-- The contract before its first action. -/
def genesis (env : Env) : SysState where
  election :=
    { voters := .empty
      producers := .empty
      producers2 := .empty
      totalActivatedStake := 0
      threshActivatedStakeTime := 0
      totalProducerVoteWeight := 0
      totalProducerVotepayShare := 0
      lastVpayStateUpdate := 0
      totalVpayShareChangeRate := 0
      clampedVotes := 0 }
  accountsact := .empty
  market :=
    { memmarket := none
      maxMemSize := 505 * 1024 * 1024 * 1024 * 1024
      totalMemBytesReserved := 0
      totalMemStake := 0
      newMemPerBlock := 0
      lastMemIncrease := 0 }
  userres := .empty
  delband _ := .empty
  refunds := .empty
  pay :=
    { lastPervoteBucketFill := 0
      pervoteBucket := 0
      perblockBucket := 0
      totalUnpaidBlocks := 0
      continuousRate := env.continuousRate defaultAnnualRate
      inflationPayFactor := defaultInflationPayFactor
      votepayFactor := defaultVotepayFactor
      revision := 0 }
  lastProducerScheduleUpdate := 0
  lastProducerScheduleSize := 0
  lastBlockNum := 0
  parameters := env.blockchainParameters
  abihash := .empty
  hostParameters := env.blockchainParameters
  limits _ := ⟨-1, -1, -1⟩
  deferred := .empty
  proposed := []
  outbox := []
  idleEndReads := 0

end SysState

/-- Models `get_core_symbol`. -/
def Market.coreSymbol (m : Market) : Except Abort Symbol := do
  let itr ← orStop m.memmarket
    (.check "system contract must first be initialized")
  return itr.quote.symbol

end Inery
