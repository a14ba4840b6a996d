import IneryContracts.InflationFill
import IneryContracts.ProducerStanding

/-!
# What moves the pay of producers

Three actions touch the pay: a block is counted, the inflation is set, and a
producer claims.  A claim first fills the buckets with the inflation since the
last claim and sends the tokens for them, and then takes the two payments out
of the buckets and sends these.
-/

namespace Inery

open GuardedStep LedgerVector LabelledRun MachineInt NearestDouble

/-- The blocks that the producers have not been paid for. -/
def SysState.unpaid (s : SysState) : Name → ℤ :=
  view (fun p : ProducerInfo => (p.unpaidBlocks : ℤ)) s.election.producers

/-- The pay per block of a producer with unpaid blocks, a double. -/
def PayState.blockPay (p : PayState) (unpaid : ℕ) : ℤ :=
  if p.totalUnpaidBlocks > 0 then
    toDouble ((i64 (p.perblockBucket * unpaid)).tdiv p.totalUnpaidBlocks)
  else 0

/-- What the pay per vote of a producer can be: nothing, or no more than the
bucket after a revision, or the share of its votes before one. -/
def PayState.VotePay (p : PayState) (weight votes payV : ℚ) : Prop :=
  payV = 0 ∨ 0 < payV ∧
    ((0 < p.revision ∧ payV ≤ p.pervoteBucket) ∨
      p.revision = 0 ∧ 0 < weight ∧ payV = p.pervoteBucket * votes / weight)

/-- The pay per vote is not negative. -/
theorem PayState.VotePay.nonneg {p : PayState} {weight votes payV : ℚ}
    (h : p.VotePay weight votes payV) : 0 ≤ payV := by
  rcases h with rfl | ⟨hpos, _⟩
  · exact le_refl 0
  · exact hpos.le

/-- Neither the pay nor the blocks that wait for it differ. -/
structure SamePay (s s' : SysState) : Prop where
  pay : s'.pay = s.pay
  unpaid : s'.unpaid = s.unpaid

/-- The pay agrees with itself. -/
theorem SamePay.refl (s : SysState) : SamePay s s := ⟨rfl, rfl⟩

/-- The pay is read off the unpaid blocks of the producers. -/
theorem SamePay.of_producers {s s' : SysState} (hpay : s'.pay = s.pay)
    (h : SameBy ProducerInfo.unpaidBlocks s.election.producers
      s'.election.producers) : SamePay s s' :=
  ⟨hpay, h.view_eq (fun _ _ hp => by rw [hp])⟩

/-- The unpaid blocks are part of the record. -/
theorem record_unpaidBlocks (p q : ProducerInfo) (h : p.record = q.record) :
    p.unpaidBlocks = q.unpaidBlocks :=
  show p.record.unpaidBlocks = q.record.unpaidBlocks from congrArg _ h

/-- What keeps the records keeps the pay. -/
theorem SamePay.of_record {s s' : SysState} (hpay : s'.pay = s.pay)
    (h : SameBy ProducerInfo.record s.election.producers
      s'.election.producers) : SamePay s s' :=
  .of_producers hpay (h.map record_unpaidBlocks)

namespace System

section Frames

variable {env : Env} {ctx : Ctx} {t : TokenState} {s s' : SysState}

/-! ## Actions that leave the pay alone -/

/-- A row that waits for the blocks that its account waits for. -/
theorem registerRows_unpaid {e e' : Election} {producer : Name}
    {auth : BlockSigningAuthority} {url : String} {location : UInt16}
    (h : registerRows ctx e producer auth url location = .ok e') :
    view (fun p : ProducerInfo => (p.unpaidBlocks : ℤ)) e'.producers =
      view (fun p : ProducerInfo => (p.unpaidBlocks : ℤ)) e.producers := by
  unfold registerRows at h
  dsimp only at h
  split at h
  · simp only [bind_eq_ok, modify_eq_ok] at h
    obtain ⟨_, ⟨r, hr, hk, rfl⟩, h⟩ := h
    have hold := view_of_find
      (f := fun p : ProducerInfo => (p.unpaidBlocks : ℤ)) hr
    split at h
    · simp only [bind_eq_ok, emplace_eq_ok, pure_eq_ok] at h
      obtain ⟨_, _, rfl⟩ := h
      exact view_put_same _ _ hk hold.symm
    · cases h
      exact view_put_same _ _ hk hold.symm
  · next hnone =>
      simp only [bind_eq_ok, emplace_eq_ok, pure_eq_ok] at h
      obtain ⟨_, ⟨_, rfl⟩, _, _, rfl⟩ := h
      exact view_put_same _ _ rfl (view_of_none hnone).symm

/-- A producer keeps its blocks when it registers. -/
theorem registerProducer_pay {producer : Name}
    {auth : BlockSigningAuthority} {url : String} {location : UInt16}
    (h : registerProducer ctx s producer auth url location = .ok s') :
    SamePay s s' := by
  obtain ⟨election, _, hrows, _, _, rfl⟩ := registerProducer_ok h
  exact ⟨rfl, registerRows_unpaid hrows⟩

/-- A producer keeps its blocks when it is unregistered. -/
theorem deactivate_pay {producer : Name} {p : ProducerInfo}
    (accountsact : KeyedTable AccountActivity.owner)
    (hp : s.election.producers.find producer = some p)
    (hk : p.owner = producer) :
    SamePay s { s with
      election := { s.election with
        producers := s.election.producers.put p.deactivate }
      accountsact } :=
  .of_producers rfl (.put hp (show p.deactivate.owner = producer from hk) rfl)

/-- Unregistering pays nothing. -/
theorem unregprod_pay {producer : Name}
    (h : unregprod ctx s producer = .ok s') : SamePay s s' := by
  simp only [unregprod, bind_eq_ok, modify_eq_ok] at h
  obtain ⟨_, _, _, _, _, ⟨p, hp, hk, rfl⟩, h⟩ := h
  split at h
  · simp only [bind_eq_ok, pure_eq_ok] at h
    obtain ⟨_, _, rfl⟩ := h
    exact deactivate_pay _ hp hk
  · cases h
    exact deactivate_pay s.accountsact hp hk

/-- Removing a producer pays nothing. -/
theorem rmvproducer_pay {producer : Name}
    (h : rmvproducer ctx s producer = .ok s') : SamePay s s' := by
  simp only [rmvproducer, bind_eq_ok, modify_eq_ok, pure_eq_ok] at h
  obtain ⟨_, _, _, _, _, ⟨p, hp, hk, rfl⟩, rfl⟩ := h
  exact deactivate_pay s.accountsact hp hk

/-- Voting pays nothing. -/
theorem makeprod_pay {voter proxy : Name} {producers : List Name}
    (h : makeprod env ctx t s voter proxy producers = .ok s') :
    SamePay s s' := by
  obtain ⟨_, _, row, election, _, _, hrow, hvotes, rfl, _, _, hk⟩ :=
    makeprod_ok h
  have hmarked : SameBy ProducerInfo.unpaidBlocks s.election.producers
      (s.election.producers.put { row with isProducer := true }) :=
    .put hrow hk rfl
  have hvoted := (Election.updateVotes_record hvotes).producers
  exact .of_producers rfl (hmarked.trans (hvoted.map record_unpaidBlocks))

end Frames

/-! ## What is sent -/

/-- Tokens of a code have been sent, and nothing else has happened. -/
def Sends (c : SymbolCode) (f : Name → ℤ) (s s' : SysState) : Prop :=
  ∃ l : List InlineAction, (∀ i ∈ l, ¬ i.action.IsRetire) ∧
    Chain.sentFlow c l = f ∧ s' = { s with outbox := s.outbox ++ l }

section Sending

variable {s s' : SysState} {core : Symbol} {bucket owner : Name} {amount : ℚ}
  {memo : String}

/-- The transfer of a payment, when there is something to pay. -/
def payActions (core : Symbol) (bucket owner : Name) (amount : ℚ)
    (memo : String) : List InlineAction :=
  if amount > 0 then
    [⟨[⟨bucket, activePermission⟩, ⟨owner, activePermission⟩],
      .transfer bucket owner ⟨truncate amount, core⟩ memo⟩]
  else []

/-- What is sent to a producer. -/
theorem sendPay_ok (h : sendPay s core bucket owner amount memo = .ok s') :
    s' = { s with
      outbox := s.outbox ++ payActions core bucket owner amount memo } := by
  unfold sendPay at h
  unfold payActions
  split at h
  · next hpos =>
      simp only [bind_eq_ok, toInt64_eq_ok, Asset.make_eq_ok, pure_eq_ok] at h
      obtain ⟨units, ⟨_, rfl⟩, quantity, ⟨_, _, rfl⟩, rfl⟩ := h
      rw [if_pos hpos]
      rfl
  · next hpos =>
      cases h
      rw [if_neg hpos, List.append_nil]

/-- The pay retires no tokens. -/
theorem payActions_not_isRetire {i : InlineAction}
    (hi : i ∈ payActions core bucket owner amount memo) :
    ¬ i.action.IsRetire := by
  unfold payActions at hi
  split at hi
  · rw [List.mem_singleton.mp hi]
    exact id
  · cases hi

/-- The whole tokens of the pay are sent. -/
theorem payActions_flow : Chain.sentFlow core.code
    (payActions core bucket owner amount memo) =
      payment bucket owner (max 0 ⌊amount⌋) := by
  unfold payActions
  split
  · next hpos =>
      rw [max_eq_right (Int.floor_nonneg.mpr hpos.le),
        truncate_of_nonneg hpos.le]
      simp [Chain.sentFlow, TokenAction.flow, payment]
  · next hpos =>
      have hfloor : ⌊amount⌋ ≤ 0 :=
        Int.cast_nonpos.mp ((Int.floor_le amount).trans (not_lt.mp hpos))
      rw [max_eq_left hfloor, payment_zero]
      rfl

end Sending

/-! ## Filling the buckets -/

/-- The buckets have grown by tokens that were sent to the accounts that pay
from them. -/
structure Filled (core : Symbol) (s s' : SysState) (db dv : ℤ) : Prop where
  perblock_nonneg : 0 ≤ db
  pervote_nonneg : 0 ≤ dv
  perblock : Asset.InRange s.pay.perblockBucket →
    s'.pay.perblockBucket = s.pay.perblockBucket + db
  pervote : Asset.InRange s.pay.pervoteBucket →
    s'.pay.pervoteBucket = s.pay.pervoteBucket + dv
  rest : ∃ b v fill, s'.pay = { s.pay with
    pervoteBucket := v, perblockBucket := b, lastPervoteBucketFill := fill }
  sent : ∃ f : Name → ℤ, f bpayAccount = db ∧ f vpayAccount = dv ∧
    Sends core.code f s { s' with pay := s.pay }

/-- A bucket that grows by part of the inflation still fits. -/
private theorem i64_grown {b x d : ℤ} (hb : Asset.InRange b) (hd : 0 ≤ d)
    (hd' : d ≤ x) (hx : x ≤ Asset.maxAmount) : i64 (b + d) = b + d := by
  unfold Asset.InRange Asset.maxAmount at *
  exact i64_of_range (by omega) (by omega)

/-- **A fill brings the tokens that it adds to the buckets.** -/
theorem fillBuckets_filled {ctx : Ctx} {t : TokenState} {s s' : SysState}
    (hpay : s.pay.FactorsOk) (h : fillBuckets ctx t s = .ok s') :
    ∃ core db dv, s.market.coreSymbol = .ok core ∧ Filled core s s' db dv := by
  obtain ⟨core, supply, hcore, _, hmax, rfl⟩ := fillBuckets_ok h
  obtain ⟨hsave, hblock, hvote, hsum, hnew⟩ :=
    PayState.inflation_bounds hpay hmax
  refine ⟨core, _, _, hcore,
    { perblock_nonneg := hblock
      pervote_nonneg := hvote
      perblock := fun hrange => ?_
      pervote := fun hrange => ?_
      rest := ?_
      sent := ⟨_, ?_, ?_, inflationActions core
        (s.pay.inflation supply.amount ctx.currentTimePoint),
        fun i hi => inflationActions_not_isRetire hi,
        inflationActions_flow hsave hblock hvote hsum, rfl⟩ }⟩
  · have hsum' := i64_grown hrange hblock (by omega) hmax
    unfold Asset.InRange Asset.maxAmount at hrange
    exact (PayState.filledAt_perblockBucket _ (by omega) (by omega)).trans hsum'
  · have hsum' := i64_grown hrange hvote (by omega) hmax
    unfold Asset.InRange Asset.maxAmount at hrange
    exact (PayState.filledAt_pervoteBucket _ (by omega) (by omega)).trans hsum'
  · obtain ⟨b, v, hrest⟩ := s.pay.filledAt_rest supply.amount
      ctx.currentTimePoint
    exact ⟨b, v, _, hrest⟩
  · have hne : bpayAccount ≠ savingAccount ∧ bpayAccount ≠ vpayAccount := by
      decide
    simp [hne, PayState.inflation]
  · have hne : vpayAccount ≠ savingAccount ∧ vpayAccount ≠ bpayAccount := by
      decide
    simp [hne, PayState.inflation]

/-! ## Claims -/

/-- What the code computes is the pay per vote, or too little to pay. -/
private theorem perVotePay_votePay (p : PayState) (e : Election)
    (votes share : ℚ) (crossed : Bool) {weight : ℚ}
    (htotal : e.totalProducerVoteWeight = weight) :
    p.VotePay weight votes
      (if perVotePay p e votes share crossed < minPervoteDailyPay then 0
        else perVotePay p e votes share crossed) := by
  subst htotal
  split
  · exact .inl rfl
  · next hmin =>
      have hpos : 0 < perVotePay p e votes share crossed :=
        lt_of_lt_of_le (by decide +kernel) (not_lt.mp hmin)
      refine .inr ⟨hpos, ?_⟩
      clear hmin
      unfold perVotePay at hpos ⊢
      by_cases hrev : p.revision > 0
      · rw [if_pos hrev] at hpos ⊢
        split at hpos
        · next hshare =>
            rw [if_pos hshare]
            exact .inl ⟨hrev, min_le_right _ _⟩
        · exact absurd hpos (lt_irrefl 0)
      · rw [if_neg hrev] at hpos ⊢
        split at hpos
        · next hweight =>
            rw [if_pos hweight]
            refine .inr ⟨?_, hweight, rfl⟩
            exact UInt8.le_antisymm (UInt8.not_lt.mp hrev) (UInt8.zero_le)
        · exact absurd hpos (lt_irrefl 0)

/-- The figures of a claim: what the fill adds to the two buckets, the state
after it, the row of the producer and its pay per vote. -/
structure Payout where
  core : Symbol
  forBlocks : ℤ
  forVotes : ℤ
  filled : SysState
  prod : ProducerInfo
  pervote : ℚ

/-- The pay per block. -/
def Payout.perblock (p : Payout) : ℤ :=
  p.filled.pay.blockPay p.prod.unpaidBlocks

/-- A claim that has been paid: the buckets were filled, and the two payments
have left them. -/
structure PaidClaim (ctx : Ctx) (t : TokenState) (owner : Name) (p : Payout)
    (s s' : SysState) : Prop where
  auth : ctx.HasAuth owner
  row : s.election.producers.find owner = some p.prod
  coreSymbol : s.market.coreSymbol = .ok p.core
  fill : fillBuckets ctx t s = .ok p.filled
  filled : Filled p.core s p.filled p.forBlocks p.forVotes
  votePay : p.filled.pay.VotePay s.election.totalProducerVoteWeight
    p.prod.totalVotes p.pervote
  pay : s'.pay = { p.filled.pay with
    pervoteBucket := truncate (p.filled.pay.pervoteBucket - p.pervote)
    perblockBucket :=
      toDouble (toDouble p.filled.pay.perblockBucket - p.perblock)
    totalUnpaidBlocks :=
      u32 (p.filled.pay.totalUnpaidBlocks - p.prod.unpaidBlocks) }
  unpaid : s'.unpaid = s.unpaid - Pi.single owner (p.prod.unpaidBlocks : ℤ)
  sent : ∃ l : List InlineAction, (∀ i ∈ l, ¬ i.action.IsRetire) ∧
    Chain.sentFlow p.core.code l =
      payment bpayAccount owner (max 0 p.perblock) +
        payment vpayAccount owner ⌊p.pervote⌋ ∧
    s'.outbox = p.filled.outbox ++ l

/-- Filling the buckets leaves the election alone. -/
theorem Filled.election {core : Symbol} {s s' : SysState} {db dv : ℤ}
    (h : Filled core s s' db dv) : s'.election = s.election := by
  obtain ⟨_, _, _, l, _, _, hs'⟩ := h.sent
  exact (congrArg SysState.election hs' :)

/-- Filling the buckets leaves the market alone. -/
theorem Filled.market {core : Symbol} {s s' : SysState} {db dv : ℤ}
    (h : Filled core s s' db dv) : s'.market = s.market := by
  obtain ⟨_, _, _, l, _, _, hs'⟩ := h.sent
  exact (congrArg SysState.market hs' :)

/-- The transfers of a claim. -/
def Payout.actions (p : Payout) (owner : Name) : List InlineAction :=
  payActions p.core bpayAccount owner p.perblock "producer block pay" ++
    payActions p.core vpayAccount owner p.pervote "producer vote pay"

/-- What a payout moves between the accounts. -/
theorem Payout.actions_flow {p : Payout} (hpervote : 0 ≤ p.pervote)
    (owner : Name) : Chain.sentFlow p.core.code (p.actions owner) =
      payment bpayAccount owner (max 0 p.perblock) +
        payment vpayAccount owner ⌊p.pervote⌋ := by
  rw [actions, Chain.sentFlow_append, payActions_flow, payActions_flow,
    Int.floor_intCast, max_eq_right (Int.floor_nonneg.mpr hpervote)]

/-- A payout retires no tokens. -/
theorem Payout.actions_not_isRetire {p : Payout} {owner : Name}
    {i : InlineAction} (hi : i ∈ p.actions owner) : ¬ i.action.IsRetire := by
  rcases List.mem_append.mp hi with hi | hi
  · exact payActions_not_isRetire hi
  · exact payActions_not_isRetire hi

/-- **A claim is paid**, by the two transfers it sends after the actions of the
fill, and both buckets stay 64-bit numbers. -/
theorem claimrewards_settled {ctx : Ctx} {t : TokenState} {s s' : SysState}
    {owner : Name} (hfactors : s.pay.FactorsOk)
    (h : claimrewards ctx t s owner = .ok s') :
    ∃ p, PaidClaim ctx t owner p s s' ∧
      s'.outbox = p.filled.outbox ++ p.actions owner ∧
      (-2 ^ 63 ≤ s'.pay.pervoteBucket ∧ s'.pay.pervoteBucket < 2 ^ 63) ∧
      -2 ^ 63 ≤ s'.pay.perblockBucket ∧ s'.pay.perblockBucket < 2 ^ 63 := by
  simp only [claimrewards, bind_eq_ok, Ctx.requireAuth_eq_ok, tableGet_eq_ok,
    check_eq_ok, modify_eq_ok, pure_eq_ok, toInt64_eq_ok, exists_const] at h
  obtain ⟨hauth, prod, hprod, _, _, s₁, hfill, core, hcore, r₁, hprod2, r₂,
    hshare, v, ⟨hvrange, hv⟩, b, ⟨hbrange, hb⟩, tbl, ⟨p, hp, hk, rfl⟩, s₂,
    hpay₁, s₃, hpay₂, tbl', ⟨p', hp', hk', rfl⟩, rfl⟩ := h
  obtain ⟨core', db, dv, hcore', hfilled⟩ := fillBuckets_filled hfactors hfill
  obtain rfl : core' = core := by
    rw [hfilled.market] at hcore
    exact Except.ok.inj (hcore'.symm.trans hcore)
  rw [hfilled.election] at hprod2
  have hshares₂ := (claimedProd2_only hprod2).trans
    (updateProducerVotepayShare_only hshare)
  have hshares := hshares₂.trans
    (settledTotals_only r₂.1 (s₁.pay.revision > 0) ctx.currentTimePoint (-r₂.2)
      (if r₁.2.2 = true then prod.totalVotes else 0))
  have hshares₃ : s.election.SharesOnly (if s₁.pay.revision > 0 then
      r₂.1.updateTotalVotepayShare ctx.currentTimePoint 0 0 else r₂.1) := by
    split
    · exact hshares₂.trans (Election.updateTotalVotepayShare_only _ _ _ _)
    · exact hshares₂
  generalize hsettled : (if s₁.pay.revision > 0 then
      r₂.1.updateTotalVotepayShare ctx.currentTimePoint 0 0 else r₂.1) = e
    at hv hp hpay₁ hpay₂ hshares hshares₃
  have hvotePay := perVotePay_votePay s₁.pay e prod.totalVotes r₂.2
    (decide (prod.lastClaimTime + 3 * usecondsPerDay ≤ ctx.currentTimePoint))
    hshares₃.total
  generalize (if perVotePay s₁.pay e prod.totalVotes r₂.2 (decide
      (prod.lastClaimTime + 3 * usecondsPerDay ≤ ctx.currentTimePoint)) <
        minPervoteDailyPay then 0
    else perVotePay s₁.pay e prod.totalVotes r₂.2 (decide
      (prod.lastClaimTime + 3 * usecondsPerDay ≤ ctx.currentTimePoint))) = payV
    at hv hpay₂ hvotePay
  generalize e.updateTotalVotepayShare ctx.currentTimePoint (-r₂.2)
    (if r₁.2.2 = true then prod.totalVotes else 0) = settled
    at hp hpay₁ hshares
  rw [truncate_intCast] at hb
  change b = toDouble (toDouble s₁.pay.perblockBucket -
    s₁.pay.blockPay prod.unpaidBlocks) at hb
  change sendPay _ core' bpayAccount owner
    (s₁.pay.blockPay prod.unpaidBlocks : ℤ) _ = _ at hpay₁
  obtain rfl := sendPay_ok hpay₁
  obtain rfl := sendPay_ok hpay₂
  rw [hshares.producers, hprod] at hp
  obtain rfl := Option.some.inj hp
  have hcleared : view (fun p : ProducerInfo => (p.unpaidBlocks : ℤ))
      (settled.producers.put { prod with
        lastClaimTime := ctx.currentTimePoint, unpaidBlocks := 0 }) =
      s.unpaid - Pi.single owner (prod.unpaidBlocks : ℤ) := by
    rw [view_put (k := owner), hshares.producers, view_of_find hprod,
      SysState.unpaid]
    · simp [sub_eq_add_neg, Pi.single_neg]
    · exact hk
  refine ⟨⟨core', db, dv, s₁, prod, payV⟩, ⟨hauth, hprod, hcore', hfill,
    hfilled, hvotePay, ?_, ?_, _, fun _ hi => Payout.actions_not_isRetire hi,
    Payout.actions_flow hvotePay.nonneg owner, ?_⟩, ?_, ?_, ?_⟩
  · subst hb hv
    rfl
  · refine (SameBy.view_eq (g := ProducerInfo.unpaidBlocks) ?_
      (fun _ _ hp => by rw [hp])).trans hcleared
    exact .put hp' hk' rfl
  · exact List.append_assoc _ _ _
  · exact List.append_assoc _ _ _
  · exact hvrange
  · exact hbrange

/-- What a claim that succeeds has paid. -/
theorem claimrewards_paid {ctx : Ctx} {t : TokenState} {s s' : SysState}
    {owner : Name} (hfactors : s.pay.FactorsOk)
    (h : claimrewards ctx t s owner = .ok s') :
    ∃ p, PaidClaim ctx t owner p s s' := by
  obtain ⟨p, hpaid, _⟩ := claimrewards_settled hfactors h
  exact ⟨p, hpaid⟩

/-! ## Blocks -/

/-- A block has been counted twice, for its producer and in the total, or not
at all. -/
structure BlockCounted (producer : Name) (s s' : SysState) : Prop where
  rest : ∃ fill blocks, s'.pay = { s.pay with
    lastPervoteBucketFill := fill, totalUnpaidBlocks := blocks }
  counted : s'.pay.totalUnpaidBlocks = s.pay.totalUnpaidBlocks ∧
      s'.unpaid = s.unpaid ∨
    ∃ p, s.election.producers.find producer = some p ∧
      s'.pay.totalUnpaidBlocks = u32 (s.pay.totalUnpaidBlocks + 1) ∧
      s'.unpaid = s.unpaid + Pi.single producer
        ((u32 (p.unpaidBlocks + 1) : ℤ) - p.unpaidBlocks)

/-- Counting a block, seen from the pay. -/
theorem countBlock_counted {s s' : SysState} {producer : Name}
    (h : countBlock s producer = .ok s') : BlockCounted producer s s' := by
  unfold countBlock at h
  split at h
  · simp only [bind_eq_ok, modify_eq_ok, pure_eq_ok] at h
    obtain ⟨_, ⟨p, hp, hk, rfl⟩, rfl⟩ := h
    refine ⟨⟨_, _, rfl⟩, .inr ⟨p, hp, rfl, ?_⟩⟩
    show view _ (KeyedTable.put _ _) = _
    rw [view_put (k := producer), view_of_find hp]
    · rfl
    · exact hk
  · cases h
    exact ⟨⟨_, _, rfl⟩, .inl ⟨rfl, rfl⟩⟩

/-- Electing producers pays nothing. -/
theorem updateElectedProducers_pay (s : SysState) (blockTime : UInt32) :
    SamePay s (updateElectedProducers s blockTime) := by
  unfold updateElectedProducers
  dsimp only
  split
  · exact ⟨rfl, rfl⟩
  · exact ⟨rfl, rfl⟩

/-- What `onblock` does to the pay is counting a block. -/
theorem onblock_counted {ctx : Ctx} {s s' : SysState} {timestamp : UInt32}
    {producer : Name} (h : onblock ctx s timestamp producer = .ok s') :
    BlockCounted producer s s' := by
  simp only [onblock, bind_eq_ok, Ctx.requireAuth_eq_ok, exists_const] at h
  obtain ⟨_, h⟩ := h
  split at h
  · cases h
    exact ⟨⟨_, _, rfl⟩, .inl ⟨rfl, rfl⟩⟩
  · simp only [bind_eq_ok] at h
    obtain ⟨s₁, hcount, h⟩ := h
    have hsame : SamePay s₁ s' := by
      split at h
      · cases h
        exact updateElectedProducers_pay s₁ timestamp
      · cases h
        exact .refl s'
    obtain ⟨⟨fill, blocks, hrest⟩, hcounted⟩ := countBlock_counted hcount
    refine ⟨⟨fill, blocks, hsame.pay.trans hrest⟩, ?_⟩
    rw [hsame.pay, hsame.unpaid]
    exact hcounted

/-! ## All actions -/

/-- **What an action does to the pay.** -/
theorem apply_pay {env : Env} {ctx : Ctx} {t : TokenState} {s s' : SysState}
    {a : SysAction} (h : apply env ctx t s a = .ok s') :
    SamePay s s' ∨
    (∃ timestamp producer, a = .onblock timestamp producer ∧
      BlockCounted producer s s') ∨
    (∃ rate payFactor voteFactor, a = .setinflation rate payFactor voteFactor ∧
      s'.unpaid = s.unpaid ∧ s'.pay.FactorsOk ∧ ∃ continuousRate,
        s'.pay = { s.pay with
          continuousRate
          inflationPayFactor := payFactor
          votepayFactor := voteFactor }) ∨
    ∃ owner, a = .claimrewards owner ∧
      claimrewards ctx t s owner = .ok s' := by
  by_cases haside : a.Aside
  · have hsame := apply_aside haside h
    exact .inl (.of_record hsame.pay hsame.producers)
  · cases a with
    | onblock timestamp producer =>
        exact .inr (.inl ⟨_, _, rfl, onblock_counted h⟩)
    | setinflation rate payFactor voteFactor =>
        simp only [apply, setinflation, bind_eq_ok, Ctx.requireAuth_eq_ok,
          check_eq_ok, pure_eq_ok, exists_const, not_lt] at h
        obtain ⟨_, _, hpay, hvote, rfl⟩ := h
        exact .inr (.inr (.inl ⟨_, _, _, rfl, rfl, ⟨hpay, hvote⟩, _, rfl⟩))
    | claimrewards owner => exact .inr (.inr (.inr ⟨_, rfl, h⟩))
    | regproducer producer key url location =>
        simp only [apply, regproducer, bind_eq_ok] at h
        obtain ⟨_, _, _, _, h⟩ := h
        exact .inl (registerProducer_pay h)
    | regproducer2 producer auth url location =>
        simp only [apply, regproducer2, bind_eq_ok] at h
        obtain ⟨_, _, _, _, _, _, h⟩ := h
        exact .inl (registerProducer_pay h)
    | unregprod producer => exact .inl (unregprod_pay h)
    | rmvproducer producer => exact .inl (rmvproducer_pay h)
    | makeprod voter proxy producers => exact .inl (makeprod_pay h)
    | _ => exact absurd trivial haside

end System

end Inery
