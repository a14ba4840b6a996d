import IneryContracts.SystemTables

/-!
# Voting

The part of the system contract that keeps vote weights: the two ways a
voter's weight is re-computed (`update_votes` on a vote and on a change of
stake, `propagate_weight_change` along proxies), the shares of the per-vote
pay that move with the votes, and the registration of proxies and producers.
-/

namespace Inery

open GuardedStep LedgerVector MachineInt

namespace Election

/-- Models `stake2vote`, with the growth of weights taken from `env`. -/
def stake2vote (env : Env) (ctx : Ctx) (staked : ℤ) : ℚ :=
  staked * env.voteFactor ctx.slot

/-- Models `update_total_votepay_share`; the result of the source is the total
share of the new state. -/
def updateTotalVotepayShare (e : Election) (ct : ℤ)
    (additionalSharesDelta sharesRateDelta : ℚ) : Election :=
  let elapsed : ℚ :=
    if ct > e.lastVpayStateUpdate then
      e.totalVpayShareChangeRate * ((ct - e.lastVpayStateUpdate : ℤ) / 1000000)
    else 0
  let delta := elapsed + additionalSharesDelta
  { e with
    totalProducerVotepayShare :=
      if delta < 0 ∧ e.totalProducerVotepayShare < -delta then 0
      else e.totalProducerVotepayShare + delta
    totalVpayShareChangeRate :=
      if sharesRateDelta < 0 ∧ e.totalVpayShareChangeRate < -sharesRateDelta
      then 0
      else e.totalVpayShareChangeRate + sharesRateDelta
    lastVpayStateUpdate := ct }

/-- Models `update_producer_votepay_share`: the new share and the state. -/
def updateProducerVotepayShare (e : Election) (prod : ProducerInfo2)
    (ct : ℤ) (sharesRate : ℚ) (resetToZero : Bool) :
    Except Abort (Election × ℚ) := do
  let deltaVotepayShare : ℚ :=
    if sharesRate > 0 ∧ ct > prod.lastVotepayShareUpdate then
      sharesRate * ((ct - prod.lastVotepayShareUpdate : ℤ) / 1000000)
    else 0
  let newVotepayShare := prod.votepayShare + deltaVotepayShare
  let producers2 ← modify e.producers2 prod.owner (fun p =>
    { p with
      votepayShare := if resetToZero then 0 else newVotepayShare
      lastVotepayShareUpdate := ct })
  return ({ e with producers2 }, newVotepayShare)

/-! ## The loop over the producers of a vote -/

/-- What the loops over producers carry along. -/
structure VoteLoop where
  election : Election
  deltaChangeRate : ℚ
  totalInactiveVpayShare : ℚ

/-- The end of both loop bodies: settle the vote pay of a producer whose
total has just moved by `delta` from `initTotalVotes`. -/
def settleVotepay (ct : ℤ) (l : VoteLoop) (prod : ProducerInfo)
    (initTotalVotes delta : ℚ) : Except Abort VoteLoop := do
  match l.election.producers2.find prod.owner with
  | none => return l
  | some prod2 =>
      let lastClaimPlus3days := prod.lastClaimTime + 3 * usecondsPerDay
      let crossedThreshold := decide (lastClaimPlus3days ≤ ct)
      let updatedAfterThreshold :=
        decide (lastClaimPlus3days ≤ prod2.lastVotepayShareUpdate)
      let (e, newVotepayShare) ← l.election.updateProducerVotepayShare prod2 ct
        (if updatedAfterThreshold then 0 else initTotalVotes)
        (crossedThreshold && !updatedAfterThreshold)
      if !crossedThreshold then
        return { l with
          election := e
          deltaChangeRate := l.deltaChangeRate + delta }
      else if !updatedAfterThreshold then
        return { election := e
                 deltaChangeRate := l.deltaChangeRate - initTotalVotes
                 totalInactiveVpayShare :=
                   l.totalInactiveVpayShare + newVotepayShare }
      else
        return { l with election := e }

/-- An entry of the map `producer_deltas`. -/
structure ProducerDelta where
  producer : Name
  delta : ℚ
  isNew : Bool

/-- Add `x` to the entry of a producer in a list kept sorted by name and mark
the entry. -/
def bumpDelta (p : Name) (x : ℚ) (isNew : Bool) :
    List ProducerDelta → List ProducerDelta
  | [] => [⟨p, x, isNew⟩]
  | d :: ds =>
      if p = d.producer then ⟨p, d.delta + x, isNew⟩ :: ds
      else if p < d.producer then ⟨p, x, isNew⟩ :: d :: ds
      else d :: bumpDelta p x isNew ds

/-- One round of the loop of `update_votes`.  The owner of the row is read
before the row is known to exist, so the branch for a missing row is never
reached. -/
def applyDelta (ct : ℤ) (voterOwner : Name) (voting : Bool) (l : VoteLoop)
    (pd : ProducerDelta) : Except Abort VoteLoop := do
  let e := l.election
  let pitr ← deref (e.producers.find pd.producer)
  check (voterOwner = pitr.owner) " You can only vote for yourself."
  check (¬ (voting ∧ ¬ pitr.isActive ∧ pd.isNew))
    ("producer " ++ pitr.owner.toString ++ " is not currently registered")
  let initTotalVotes := pitr.totalVotes
  let moved := initTotalVotes + pd.delta
  let producers ← modify e.producers pd.producer (fun p =>
    { p with totalVotes := if moved < 0 then 0 else moved })
  let e := { e with
    producers
    totalProducerVoteWeight := e.totalProducerVoteWeight + pd.delta
    clampedVotes := e.clampedVotes + if moved < 0 then -moved else 0 }
  settleVotepay ct { l with election := e } pitr initTotalVotes pd.delta

/-- One round of the loop of `propagate_weight_change`. -/
def applyWeight (ct : ℤ) (delta : ℚ) (l : VoteLoop) (acnt : Name) :
    Except Abort VoteLoop := do
  let e := l.election
  let prod ← tableGet e.producers acnt "producer not found"
  let initTotalVotes := prod.totalVotes
  let producers ← modify e.producers acnt (fun p =>
    { p with totalVotes := p.totalVotes + delta })
  let e := { e with
    producers
    totalProducerVoteWeight := e.totalProducerVoteWeight + delta }
  settleVotepay ct { l with election := e } prod initTotalVotes delta

/-- The state after a loop over producers. -/
def VoteLoop.close (l : VoteLoop) (ct : ℤ) : Election :=
  l.election.updateTotalVotepayShare ct (-l.totalInactiveVpayShare)
    l.deltaChangeRate

/-! ## Weights along proxies -/

/-- The change of a weight, passed on to the proxy by `propagate` or to the
producers.  Small changes are not passed on. -/
def passWeight (ctx : Ctx)
    (propagate : Election → Name → Except Abort Election) (e : Election)
    (voter : VoterInfo) (delta : ℚ) : Except Abort Election :=
  if |delta| > 1 then
    if voter.proxy ≠ .none then do
      let _ ← tableGet e.voters voter.proxy "proxy not found"
      let voters ← modify e.voters voter.proxy (fun p =>
        { p with proxiedVoteWeight := p.proxiedVoteWeight + delta })
      propagate { e with voters } voter.proxy
    else do
      let l ← voter.producers.foldlM (applyWeight ctx.currentTimePoint delta)
        ⟨e, 0, 0⟩
      return l.close ctx.currentTimePoint
  else
    .ok e

/-- Models `propagate_weight_change`; `fuel` bounds the depth of the
recursion.  The new weight is stored even when it has not been passed on. -/
def propagateWeightChange (env : Env) (ctx : Ctx) :
    ℕ → Election → Name → Except Abort Election
  | 0, _, _ => .error .outOfFuel
  | fuel + 1, e, voterName => do
      let voter ← deref (e.voters.find voterName)
      let newWeight := stake2vote env ctx voter.staked
      let e ← passWeight ctx (propagateWeightChange env ctx fuel) e voter
        (newWeight - voter.lastVoteWeight)
      let voters ← modify e.voters voterName (fun v =>
        { v with lastVoteWeight := newWeight })
      return { e with voters }

/-- More than any chain of different names needs. -/
def propagateFuel : ℕ := 2 ^ 64

/-! ## Casting a vote -/

/-- The checks on its arguments that `update_votes` begins with. -/
def validateVote (voterName proxy : Name) (producers : List Name) :
    Except Abort Unit := do
  if proxy ≠ .none then
    check (producers.length = 0)
      "cannot vote for producers and proxy at same time"
    check (voterName ≠ proxy) "cannot proxy to self"
  else
    check (producers.length ≤ 30) "attempt to vote for too many producers"
    check (producers.IsChain (· < ·))
      "producer votes must be unique and sorted"

/-- The stake of a first vote counts towards the activation of the chain. -/
def activateStake (ctx : Ctx) (e : Election) (voter : VoterInfo) : Election :=
  if e.threshActivatedStakeTime = 0 ∧ voter.lastVoteWeight ≤ 0 then
    let total := i64 (e.totalActivatedStake + voter.staked)
    { e with
      totalActivatedStake := total
      threshActivatedStakeTime :=
        if total ≥ minActivatedStake then ctx.currentTimePoint
        else e.threshActivatedStakeTime }
  else e

/-- The first half of `update_votes`: undo the weight of the last vote. -/
def retractVote (env : Env) (ctx : Ctx) (e : Election) (voter : VoterInfo) :
    Except Abort (Election × List ProducerDelta) := do
  if voter.lastVoteWeight > 0 then
    if voter.proxy ≠ .none then
      check (e.voters.find voter.proxy).isSome "old proxy not found"
      let voters ← modify e.voters voter.proxy (fun vp =>
        { vp with
          proxiedVoteWeight := vp.proxiedVoteWeight - voter.lastVoteWeight })
      let e ← propagateWeightChange env ctx propagateFuel { e with voters }
        voter.proxy
      return (e, [])
    else
      return (e, voter.producers.foldl
        (fun ds p => bumpDelta p (-voter.lastVoteWeight) false ds) [])
  else
    return (e, [])

/-- The second half of `update_votes`: cast the new weight. -/
def castVote (env : Env) (ctx : Ctx) (e : Election)
    (deltas : List ProducerDelta) (newVoteWeight : ℚ) (proxy : Name)
    (producers : List Name) (voting : Bool) :
    Except Abort (Election × List ProducerDelta) := do
  if proxy ≠ .none then
    let newProxy ← orStop (e.voters.find proxy)
      (.check "invalid proxy specified")
    check (voting = true → newProxy.isProxy = true) "proxy not found"
    if newVoteWeight ≥ 0 then
      let voters ← modify e.voters proxy (fun vp =>
        { vp with proxiedVoteWeight := vp.proxiedVoteWeight + newVoteWeight })
      let e ← propagateWeightChange env ctx propagateFuel { e with voters }
        proxy
      return (e, deltas)
    else
      return (e, deltas)
  else if newVoteWeight ≥ 0 then
    return (e, producers.foldl
      (fun ds p => bumpDelta p newVoteWeight true ds) deltas)
  else
    return (e, deltas)

/-- The weight a voter votes with now. -/
def newVoteWeight (env : Env) (ctx : Ctx) (voter : VoterInfo) : ℚ :=
  stake2vote env ctx voter.staked +
    if voter.isProxy then voter.proxiedVoteWeight else 0

/-- Models `update_votes`. -/
def updateVotes (env : Env) (ctx : Ctx) (e : Election)
    (voterName proxy : Name) (producers : List Name) (voting : Bool) :
    Except Abort Election := do
  validateVote voterName proxy producers
  let voter ← orStop (e.voters.find voterName)
    (.check "user must stake before they can vote")
  check (proxy = .none ∨ voter.isProxy = false)
    "account registered as a proxy is not allowed to use a proxy"
  let e := e.activateStake ctx voter
  let weight := newVoteWeight env ctx voter
  let (e, deltas) ← e.retractVote env ctx voter
  let (e, deltas) ← e.castVote env ctx deltas weight proxy producers voting
  let ct := ctx.currentTimePoint
  let l ← deltas.foldlM (applyDelta ct voter.owner voting) ⟨e, 0, 0⟩
  let e := l.close ct
  let voters ← modify e.voters voterName (fun av =>
    { av with
      lastVoteWeight := weight, producers := producers, proxy := proxy })
  return { e with voters }

/-- Models `validate_b1_vesting`. -/
def validateB1Vesting (ctx : Ctx) (stake : ℤ) : Except Abort Unit := do
  let baseTime : ℤ := 1527811200
  let maxClaimable : ℤ := 1000000000000
  let claimable ← toInt64
    (maxClaimable * ((ctx.secSinceEpoch - baseTime : ℤ) : ℚ) /
      (10 * secondsPerYear : ℤ))
  check (maxClaimable - claimable ≤ stake)
    "b1 can only claim their tokens over 10 years"

/-- The vesting of `b1` is checked, that of nobody else. -/
def checkVesting (ctx : Ctx) (voterName : Name) (stake : ℤ) :
    Except Abort Unit :=
  if voterName = b1Account then validateB1Vesting ctx stake else .ok ()

/-- The first half of `update_voting_power`: book the stake. -/
def bookStake (e : Election) (voterName : Name) (totalUpdate : Asset) :
    Except Abort (Election × VoterInfo) := do
  match e.voters.find voterName with
  | none =>
      let v : VoterInfo := { owner := voterName, staked := totalUpdate.amount }
      let voters ← emplace e.voters v
      return ({ e with voters }, v)
  | some voter =>
      let v := { voter with staked := i64 (voter.staked + totalUpdate.amount) }
      let voters ← modify e.voters voterName (fun _ => v)
      return ({ e with voters }, v)

/-- Models `update_voting_power`. -/
def updateVotingPower (env : Env) (ctx : Ctx) (e : Election)
    (voterName : Name) (totalUpdate : Asset) : Except Abort Election := do
  let (e, voter) ← e.bookStake voterName totalUpdate
  check (0 ≤ voter.staked) "stake for voting cannot be negative"
  checkVesting ctx voterName voter.staked
  if voter.producers ≠ [] ∨ voter.proxy ≠ .none then
    e.updateVotes env ctx voterName voter.proxy voter.producers false
  else
    return e

/-- Models `regproxy`. -/
def regproxy (env : Env) (ctx : Ctx) (e : Election) (proxy : Name)
    (isproxy : Bool) : Except Abort Election := do
  ctx.requireAuth proxy
  match e.voters.find proxy with
  | some pitr =>
      check (isproxy ≠ pitr.isProxy) "action has no effect"
      check (isproxy = false ∨ pitr.proxy = .none)
        "account that uses a proxy is not allowed to become a proxy"
      let voters ← modify e.voters proxy
        (fun p => { p with isProxy := isproxy })
      propagateWeightChange env ctx propagateFuel { e with voters } proxy
  | none =>
      let voters ← emplace e.voters { owner := proxy, isProxy := isproxy }
      return { e with voters }

end Election

/-! ## Registration of producers -/

namespace System

open Election

/-- The rows of `producers` and `producers2` that `register_producer`
writes. -/
def registerRows (ctx : Ctx) (e : Election) (producer : Name)
    (producerAuthority : BlockSigningAuthority) (url : String)
    (location : UInt16) : Except Abort Election := do
  let ct := ctx.currentTimePoint
  -- a single key is also stored in the older key field
  let producerKey : PublicKey :=
    match producerAuthority.keys with
    | [only] => only.key
    | _ => {}
  match e.producers.find producer with
  | some prod =>
      let producers ← modify e.producers producer (fun info =>
        { info with
          producerKey := producerKey
          isActive := true
          url := url
          location := location
          producerAuthority := some producerAuthority
          lastClaimTime :=
            if info.lastClaimTime = 0 then ct else info.lastClaimTime })
      let e := { e with producers }
      match e.producers2.find producer with
      | none =>
          let producers2 ← emplace e.producers2
            { owner := producer, lastVotepayShareUpdate := ct }
          return ({ e with producers2 }).updateTotalVotepayShare ct 0
            prod.totalVotes
      | some _ => return e
  | none =>
      let producers ← emplace e.producers
        { owner := producer
          totalVotes := 0
          producerKey := producerKey
          isActive := true
          url := url
          location := location
          lastClaimTime := ct
          producerAuthority := some producerAuthority }
      let producers2 ← emplace e.producers2
        { owner := producer, lastVotepayShareUpdate := ct }
      return { e with producers, producers2 }

/-- Models `register_producer`. -/
def registerProducer (ctx : Ctx) (s : SysState) (producer : Name)
    (producerAuthority : BlockSigningAuthority) (url : String)
    (location : UInt16) : Except Abort SysState := do
  let election ← registerRows ctx s.election producer producerAuthority url
    location
  match s.accountsact.find producer with
  | some _ =>
      let accountsact ← modify s.accountsact producer (fun prd =>
        { prd with isActiveProd := true })
      return { s with election, accountsact }
  | none =>
      let accountsact ← emplace s.accountsact
        { owner := producer, isActiveProd := true }
      return { s with election, accountsact }

/-- Models `regproducer`. -/
def regproducer (ctx : Ctx) (s : SysState) (producer : Name)
    (producerKey : PublicKey) (url : String) (location : UInt16) :
    Except Abort SysState := do
  ctx.requireAuth producer
  check (url.utf8ByteSize < 512) "url too long"
  registerProducer ctx s producer
    (convertToBlockSigningAuthority producerKey) url location

/-- Models `regproducer2`. -/
def regproducer2 (env : Env) (ctx : Ctx) (s : SysState) (producer : Name)
    (producerAuthority : BlockSigningAuthority) (url : String)
    (location : UInt16) : Except Abort SysState := do
  ctx.requireAuth producer
  check (url.utf8ByteSize < 512) "url too long"
  check (env.authorityIsValid producerAuthority = true)
    "invalid producer authority"
  registerProducer ctx s producer producerAuthority url location

/-- Models `unregprod`. -/
def unregprod (ctx : Ctx) (s : SysState) (producer : Name) :
    Except Abort SysState := do
  ctx.requireAuth producer
  let _ ← tableGet s.election.producers producer "producer not found"
  let producers ← modify s.election.producers producer (·.deactivate)
  let s := { s with election := { s.election with producers } }
  match s.accountsact.find producer with
  | some _ =>
      let accountsact ← modify s.accountsact producer (fun prd =>
        { prd with isActiveProd := false })
      return { s with accountsact }
  | none => return s

/-- Models `rmvproducer`, which leaves the row of `accountsact` alone. -/
def rmvproducer (ctx : Ctx) (s : SysState) (producer : Name) :
    Except Abort SysState := do
  ctx.requireAuth systemAccount
  check (s.election.producers.find producer).isSome "producer not found"
  let producers ← modify s.election.producers producer (·.deactivate)
  return { s with election := { s.election with producers } }

/-- Models `makeprod`.  The bytes of the voter's resource row are read without
being used; a missing row is only counted. -/
def makeprod (env : Env) (ctx : Ctx) (t : TokenState) (s : SysState)
    (voterName proxy : Name) (producers : List Name) :
    Except Abort SysState := do
  ctx.requireAuth voterName
  let ownerBalance ← Token.getBalance t voterName inrCode
  check (ownerBalance.amount.tdiv 10000 ≥ 50000)
    "Your balance don't extend over 50 000 INR."
  let idleEndReads := s.idleEndReads +
    if (s.userres.find voterName).isNone then 1 else 0
  let prods ← modify s.election.producers voterName (fun info =>
    { info with isProducer := true })
  let election ← updateVotes env ctx { s.election with producers := prods }
    voterName proxy producers true
  let s := { s with election, idleEndReads }
  match s.accountsact.find voterName with
  | some _ =>
      let accountsact ← modify s.accountsact voterName (fun prd =>
        { prd with isActiveProd := true })
      return { s with accountsact }
  | none => return s

/-- The regproxy action on the whole state. -/
def regproxy (env : Env) (ctx : Ctx) (s : SysState) (proxy : Name)
    (isproxy : Bool) : Except Abort SysState := do
  let election ← s.election.regproxy env ctx proxy isproxy
  return { s with election }

end System

end Inery
